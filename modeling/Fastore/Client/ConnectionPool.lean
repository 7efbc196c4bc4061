import Fastore.Lib.Runs
import Fastore.Lib.SortedMap

/-!
The pool of connections.

A connection is taken from the front of the queue of its key, and a queue that
is empty then loses its entry. Connections that are not valid are thrown away on
the way. A release puts the connection at the end of the queue and destroys
the ones at the front that are too many.

A limit of zero makes a release destroy what it has just put there, and the empty
queue keeps its entry: the next user of the key takes the front of an empty
queue. A connection that throws when it is destroyed leaves the lock taken, since
only `operator[]` has a handler. These two apart, a pool is sound in every run
(`sound_throughout_iff`).

Connections are numbers, in the order in which they are made. A run keeps beside
the pool what the users hold, and the limit at the last release of each key.
-/

namespace Fastore.Client

open Lib List

variable {K : Type} [LinearOrder K]

/-! ### The pool -/

inductive PoolFault
  /-- The lock is taken, and nobody gives it back. -/
  | blocked
  /-- `front` of a queue that is empty. -/
  | emptyFront
  deriving DecidableEq, Repr

structure ConnectionPool (K : Type) [LinearOrder K] where
  entries : SortedMap K (List ℕ) := .empty
  maxPooledPerKey : ℕ := 8
  locked : Bool := false

inductive Connecting
  | noAddress
  | noConnection
  | connected
  deriving DecidableEq, Repr

namespace ConnectionPool

/-- `setMaxPooledPerKey`. The `int` becomes a `size_t`. -/
def setMaxPooledPerKey (pool : ConnectionPool K) (value : ℤ) : ConnectionPool K :=
  { pool with maxPooledPerKey := (value % 2 ^ 64).toNat }

def popped (entries : SortedMap K (List ℕ)) (key : K) (rest : List ℕ) : SortedMap K (List ℕ) :=
  if rest.isEmpty then entries.eraseAt (entries.rank key) else entries.insert key rest

def lock (pool : ConnectionPool K) : Except PoolFault (ConnectionPool K) :=
  if pool.locked then .error .blocked else .ok { pool with locked := true }

def unlock (pool : ConnectionPool K) : ConnectionPool K := { pool with locked := false }

def newConnection (connecting : Connecting) (number : ℕ) : Option ℕ :=
  match connecting with
  | .noAddress => none
  | .noConnection => none
  | .connected => some number

/-- The loop of `operator[]` for a key with an entry: the connection, unless something throws,
and `taken`. -/
def takeLoop (key : K) (isValid : ℕ → Option Bool) (connecting : Connecting) (number : ℕ) :
    List ℕ → ConnectionPool K → Except PoolFault (Option ℕ × Bool × ConnectionPool K)
  | [], _ => .error .emptyFront
  | result :: rest, pool =>
    let pool := { pool with entries := popped pool.entries key rest }
    match isValid result with
    | none => .ok (none, true, pool)
    | some true => .ok (some result, false, pool.unlock)
    | some false =>
      match rest with
      -- the entry is gone, and the next turn connects
      | [] => .ok (newConnection connecting number, false, pool.unlock)
      | next :: rest => takeLoop key isValid connecting number (next :: rest) pool

/-- `operator[]`. Its handler gives the lock back if it is taken. -/
def get (pool : ConnectionPool K) (key : K) (isValid : ℕ → Option Bool) (connecting : Connecting)
    (number : ℕ) : Except PoolFault (Option ℕ × ConnectionPool K) := do
  let pool ← pool.lock
  let (result, taken, pool) ←
    match pool.entries.get? key with
    | none => .ok (newConnection connecting number, false, pool.unlock)
    | some queue => takeLoop key isValid connecting number queue pool
  .ok (result, if result.isNone && taken then pool.unlock else pool)

/-- The loop of `Release`, and whether it gets to its end. -/
def trim (maxPooledPerKey : ℕ) (destroys : ℕ → Bool) : List ℕ → List ℕ × Bool
  | [] => ([], true)
  | front :: rest =>
    if maxPooledPerKey < (front :: rest).length then
      if destroys front then trim maxPooledPerKey destroys rest else (front :: rest, false)
    else (front :: rest, true)

def pushed (pool : ConnectionPool K) (key : K) (connection : ℕ) : List ℕ :=
  (pool.entries.get? key).getD [] ++ [connection]

/-- `Release`. An exception of `Destroy` leaves it with the lock taken. -/
def release (pool : ConnectionPool K) (key : K) (connection : ℕ) (destroys : ℕ → Bool) :
    Except PoolFault (ConnectionPool K) := do
  let pool ← pool.lock
  let (queue, done) := trim pool.maxPooledPerKey destroys (pool.pushed key connection)
  let pool := { pool with entries := pool.entries.insert key queue }
  .ok (if done then pool.unlock else pool)

end ConnectionPool

/-! ### Users -/

structure PoolRun (K : Type) [LinearOrder K] where
  pool : ConnectionPool K := {}
  /-- The connections that are in use, once for each user. -/
  held : List ℕ := []
  /-- The number of the next connection. -/
  number : ℕ := 0
  /-- The limit at the last release of a key. -/
  limit : K → ℕ := fun _ => 0

inductive PoolCall (K : Type)
  | acquire (key : K) (isValid : ℕ → Option Bool) (connecting : Connecting)
  | release (key : K) (user : ℕ) (destroys : ℕ → Bool)
  | setMaxPooledPerKey (value : ℤ)

namespace PoolRun

open ConnectionPool

def step (w : PoolRun K) : PoolCall K → Except PoolFault (PoolRun K)
  | .acquire key isValid connecting => do
    let (result, pool) ← w.pool.get key isValid connecting w.number
    .ok { w with pool := pool, held := result.toList ++ w.held, number := w.number + 1 }
  | .release key user destroys =>
    match w.held[user]? with
    | none => .ok w
    | some connection => do
      let pool ← w.pool.release key connection destroys
      .ok { w with
        pool := pool
        held := w.held.erase connection
        limit := fun j => if j = key then w.pool.maxPooledPerKey else w.limit j }
  | .setMaxPooledPerKey value => .ok { w with pool := w.pool.setMaxPooledPerKey value }

structure Sound (w : PoolRun K) : Prop where
  heldOnce : w.held.Nodup
  nonempty : ∀ key queue, w.pool.entries.get? key = some queue → queue ≠ []
  within : ∀ key queue, w.pool.entries.get? key = some queue → queue.length ≤ w.limit key
  unlocked : w.pool.locked = false

/-- Every call comes back, and the pool is sound before and behind it. -/
def SoundThroughout : PoolRun K → List (PoolCall K) → Prop
  | w, [] => w.Sound
  | w, call :: calls => w.Sound ∧ ∃ w', w.step call = .ok w' ∧ SoundThroughout w' calls

/-- The limit is not zero when a connection is released, and those that are too many can be
destroyed. -/
def calm (w : PoolRun K) : PoolCall K → Bool
  | .release key user destroys =>
    match w.held[user]? with
    | none => true
    | some connection =>
      let queue := w.pool.pushed key connection
      0 < w.pool.maxPooledPerKey &&
        (queue.take (queue.length - w.pool.maxPooledPerKey)).all destroys
  | _ => true

/-! ### Steps -/

def Pooled (w : PoolRun K) (key : K) (c : ℕ) : Prop :=
  ∃ queue, w.pool.entries.get? key = some queue ∧ c ∈ queue

/-- A sound pool in which every connection is in one place. -/
structure Kept (w : PoolRun K) : Prop extends w.Sound where
  queueOnce : ∀ key queue, w.pool.entries.get? key = some queue → queue.Nodup
  oneKey : ∀ key key' c, w.Pooled key c → w.Pooled key' c → key = key'
  apart : ∀ key, ∀ c ∈ w.held, ¬ w.Pooled key c
  heldMade : ∀ c ∈ w.held, c < w.number
  pooledMade : ∀ key c, w.Pooled key c → c < w.number

variable {w w' : PoolRun K}

theorem kept_new : Kept ({} : PoolRun K) where
  heldOnce := nodup_nil
  nonempty key queue h := by cases h
  within key queue h := by cases h
  unlocked := rfl
  queueOnce key queue h := by cases h
  oneKey key key' c h := by obtain ⟨queue, hget, -⟩ := h; cases hget
  apart key c h := by cases h
  heldMade c h := by cases h
  pooledMade key c h := by obtain ⟨queue, hget, -⟩ := h; cases hget

theorem get?_popped {entries : SortedMap K (List ℕ)} {key j : K} {queue rest : List ℕ}
    (h : entries.get? key = some queue) : (popped entries key rest).get? j =
      if j = key then (if rest = [] then none else some rest) else entries.get? j := by
  rw [popped]
  cases rest with
  | nil => simp [SortedMap.get?_eraseAt_rank h]
  | cons c rest => simp [SortedMap.get?_insert]

/-- The loop drops connections from the front until one is valid. -/
theorem takeLoop_spec {key : K} (isValid : ℕ → Option Bool) (connecting : Connecting) (number : ℕ)
    {queue : List ℕ} (hne : queue ≠ []) {pool : ConnectionPool K}
    (hget : pool.entries.get? key = some queue) (hlocked : pool.locked = true) :
    ∃ result taken pool' gone c rest,
      takeLoop key isValid connecting number queue pool = .ok (result, taken, pool') ∧
      pool'.locked = taken ∧ (taken = true → result = none) ∧ queue = gone ++ c :: rest ∧
      (∀ j, pool'.entries.get? j =
        if j = key then (if rest = [] then none else some rest) else pool.entries.get? j) ∧
      (result = some c ∨ result = none ∨ result = newConnection connecting number) := by
  induction queue generalizing pool with
  | nil => exact absurd rfl hne
  | cons c rest ih =>
    have hpopped : ∀ j, (popped pool.entries key rest).get? j =
        if j = key then (if rest = [] then none else some rest) else pool.entries.get? j :=
      fun j => get?_popped hget
    cases hvalid : isValid c with
    | none =>
      exact ⟨none, true, { pool with entries := popped pool.entries key rest }, [], c, rest,
        by unfold takeLoop; simp only [hvalid], hlocked, fun _ => rfl, rfl, hpopped,
        .inr (.inl rfl)⟩
    | some valid =>
      cases valid with
      | true =>
        exact ⟨some c, false, { pool with entries := popped pool.entries key rest }.unlock,
          [], c, rest, by unfold takeLoop; simp only [hvalid], rfl, (fun h => by cases h), rfl,
          hpopped, .inl rfl⟩
      | false =>
        cases rest with
        | nil =>
          exact ⟨newConnection connecting number, false,
            { pool with entries := popped pool.entries key [] }.unlock, [], c, [],
            by unfold takeLoop; simp only [hvalid], rfl, (fun h => by cases h), rfl, hpopped,
            .inr (.inr rfl)⟩
        | cons next rest =>
          have hnext := hpopped key
          rw [if_pos rfl, if_neg (cons_ne_nil _ _)] at hnext
          obtain ⟨result, taken, pool', gone, c', rest', hrun, htaken, hthrown, hqueue,
            hentries, hresult⟩ := @ih (cons_ne_nil _ _)
              { pool with entries := popped pool.entries key (next :: rest) } hnext hlocked
          refine ⟨result, taken, pool', c :: gone, c', rest', ?_, htaken, hthrown, ?_,
            fun j => ?_, hresult⟩
          · unfold takeLoop
            simp only [hvalid]
            exact hrun
          · rw [hqueue, cons_append]
          · rw [hentries j]
            split
            · rfl
            · rename_i hj
              rw [hpopped j, if_neg hj]

theorem get_eq {pool : ConnectionPool K} {key : K} {isValid : ℕ → Option Bool}
    {connecting : Connecting} {number : ℕ} (hlocked : pool.locked = false)
    {queue : List ℕ} (hget : pool.entries.get? key = some queue) (hne : queue ≠ []) :
    ∃ result pool' gone c rest, pool.get key isValid connecting number = .ok (result, pool') ∧
      pool'.locked = false ∧ queue = gone ++ c :: rest ∧
      (∀ j, pool'.entries.get? j =
        if j = key then (if rest = [] then none else some rest) else pool.entries.get? j) ∧
      (result = some c ∨ result = none ∨ result = newConnection connecting number) := by
  obtain ⟨result, taken, pool', gone, c, rest, hrun, htaken, hthrown, hqueue, hentries, hresult⟩ :=
    @takeLoop_spec K _ key isValid connecting number queue hne { pool with locked := true } hget rfl
  refine ⟨result, if result.isNone && taken then pool'.unlock else pool', gone, c, rest, ?_, ?_,
    hqueue, fun j => ?_, hresult⟩
  · simp only [ConnectionPool.get, lock, hlocked, hget, hrun, Bool.false_eq_true, if_false, bind,
      Except.bind]
  · cases taken with
    | true => simp [hthrown rfl, unlock]
    | false => simpa using htaken
  · rw [← hentries j]
    split <;> rfl

theorem Kept.hold {pool : ConnectionPool K} {result : Option ℕ} (h : w.Kept)
    (hlocked : pool.locked = false)
    (hqueues : ∀ j q, pool.entries.get? j = some q →
      ∃ gone, w.pool.entries.get? j = some (gone ++ q) ∧ q ≠ [])
    (hnew : ∀ c, result = some c → c ∉ w.held ∧ c < w.number + 1 ∧
      ∀ j q, pool.entries.get? j = some q → c ∉ q) :
    Kept { w with pool := pool, held := result.toList ++ w.held, number := w.number + 1 } := by
  have hpooled : ∀ {j c}, (∃ q, pool.entries.get? j = some q ∧ c ∈ q) → w.Pooled j c := by
    rintro j c ⟨q, hq, hc⟩
    obtain ⟨gone, hget, -⟩ := hqueues j q hq
    exact ⟨_, hget, mem_append_right _ hc⟩
  refine ⟨⟨?_, fun j q hq => (hqueues j q hq).choose_spec.2, fun j q hq => ?_, hlocked⟩,
    fun j q hq => ?_, fun j j' c hj hj' => h.oneKey j j' c (hpooled hj) (hpooled hj'),
    fun j c hc hj => ?_, fun c hc => ?_,
    fun j c hj => Nat.lt_succ_of_lt (h.pooledMade j c (hpooled hj))⟩
  · cases result with
    | none => exact h.heldOnce
    | some c => exact nodup_cons.mpr ⟨(hnew c rfl).1, h.heldOnce⟩
  · obtain ⟨gone, hget, -⟩ := hqueues j q hq
    have hwithin := h.within j _ hget
    rw [length_append] at hwithin
    exact le_trans (Nat.le_add_left _ _) hwithin
  · obtain ⟨gone, hget, -⟩ := hqueues j q hq
    exact (nodup_append.mp (h.queueOnce j _ hget)).2.1
  · rcases mem_append.mp hc with hc | hc
    · obtain ⟨q, hq, hmem⟩ := hj
      exact (hnew c (Option.mem_toList.mp hc)).2.2 j q hq hmem
    · exact h.apart j c hc (hpooled hj)
  · rcases mem_append.mp hc with hc | hc
    · exact (hnew c (Option.mem_toList.mp hc)).2.1
    · exact Nat.lt_succ_of_lt (h.heldMade c hc)

theorem newConnection_eq_some {connecting : Connecting} {number c : ℕ}
    (h : newConnection connecting number = some c) : c = number := by
  cases connecting <;> simp [newConnection] at h
  exact h.symm

/-- An acquired connection is held by nobody else. -/
theorem Kept.acquire (h : w.Kept) (key : K) (isValid : ℕ → Option Bool) (connecting : Connecting) :
    ∃ w', w.step (.acquire key isValid connecting) = .ok w' ∧ w'.Kept := by
  -- a new connection has a number of its own
  have hfresh : ∀ c, newConnection connecting w.number = some c → c ∉ w.held ∧ c < w.number + 1 ∧
      ∀ j, ¬ w.Pooled j c := by
    intro c hc
    obtain rfl := newConnection_eq_some hc
    exact ⟨fun hmem => lt_irrefl _ (h.heldMade _ hmem), Nat.lt_succ_self _,
      fun j hj => lt_irrefl _ (h.pooledMade j _ hj)⟩
  cases hget : w.pool.entries.get? key with
  | none =>
    have hstep : w.step (.acquire key isValid connecting) = .ok { w with
        pool := w.pool.unlock
        held := (newConnection connecting w.number).toList ++ w.held
        number := w.number + 1 } := by
      simp only [PoolRun.step, ConnectionPool.get, lock, h.unlocked, hget, Bool.false_eq_true,
        if_false, bind, Except.bind, Bool.and_false]
      rfl
    refine ⟨_, hstep, h.hold rfl (fun j q hq => ⟨[], hq, h.nonempty j q hq⟩) fun c hc => ?_⟩
    obtain ⟨hheld, hlt, hnot⟩ := hfresh c hc
    exact ⟨hheld, hlt, fun j q hq hmem => hnot j ⟨q, hq, hmem⟩⟩
  | some queue =>
    obtain ⟨result, pool', gone, c, rest, hrun, hunlocked, rfl, hentries, hresult⟩ :=
      get_eq h.unlocked hget (h.nonempty key queue hget)
    have hqueues : ∀ j q, pool'.entries.get? j = some q →
        (∃ gone, w.pool.entries.get? j = some (gone ++ q) ∧ q ≠ []) ∧ (j = key → q = rest) := by
      intro j q hq
      rw [hentries j] at hq
      split_ifs at hq with hj hrest
      · obtain rfl := Option.some.inj hq
        refine ⟨⟨gone ++ [c], ?_, hrest⟩, fun _ => rfl⟩
        rw [hj, hget, append_assoc, singleton_append]
      · exact ⟨⟨[], hq, h.nonempty j q hq⟩, fun hkey => absurd hkey hj⟩
    have hstep : w.step (.acquire key isValid connecting) = .ok { w with
        pool := pool'
        held := result.toList ++ w.held
        number := w.number + 1 } := by
      rw [PoolRun.step, hrun]
      rfl
    refine ⟨_, hstep, h.hold hunlocked (fun j q hq => (hqueues j q hq).1) fun c' hc' => ?_⟩
    have hc : w.Pooled key c := ⟨_, hget, by simp⟩
    rcases hresult with hr | hr | hr
    · obtain rfl := some_unique hr hc'
      refine ⟨fun hmem => h.apart key _ hmem hc, Nat.lt_succ_of_lt (h.pooledMade key _ hc),
        fun j q hq hmem => ?_⟩
      obtain ⟨⟨gone', hold, -⟩, hrest⟩ := hqueues j q hq
      obtain rfl : j = key := h.oneKey j key _ ⟨_, hold, mem_append_right _ hmem⟩ hc
      have honce := (nodup_append.mp (h.queueOnce j _ hget)).2.1
      rw [hrest rfl] at hmem
      exact (nodup_cons.mp honce).1 hmem
    · exact absurd (hr.symm.trans hc') (by simp)
    · obtain ⟨hheld, hlt, hnot⟩ := hfresh c' (hr ▸ hc')
      refine ⟨hheld, hlt, fun j q hq hmem => ?_⟩
      obtain ⟨⟨gone', hold, -⟩, -⟩ := hqueues j q hq
      exact hnot j ⟨_, hold, mem_append_right _ hmem⟩

theorem trim_eq (m : ℕ) (destroys : ℕ → Bool) (queue : List ℕ) :
    ((queue.take (queue.length - m)).all destroys = true →
      trim m destroys queue = (queue.drop (queue.length - m), true)) ∧
    ((queue.take (queue.length - m)).all destroys = false → (trim m destroys queue).2 = false) := by
  induction queue with
  | nil => simp [trim]
  | cons front rest ih =>
    rw [trim]
    by_cases hlt : m < (front :: rest).length
    · have hlength : (front :: rest).length - m = (rest.length - m) + 1 := by
        rw [length_cons] at hlt ⊢
        omega
      rw [if_pos hlt, hlength, take_succ_cons, drop_succ_cons, all_cons]
      cases hd : destroys front with
      | true => simpa using ih
      | false => simp
    · rw [if_neg hlt, Nat.sub_eq_zero_of_le (not_lt.mp hlt)]
      simp

theorem release_eq {pool : ConnectionPool K} {key : K} {c : ℕ} {destroys : ℕ → Bool}
    (hlocked : pool.locked = false) : pool.release key c destroys =
      .ok { pool with
        entries := pool.entries.insert key
          (trim pool.maxPooledPerKey destroys (pool.pushed key c)).1
        locked := !(trim pool.maxPooledPerKey destroys (pool.pushed key c)).2 } := by
  simp only [ConnectionPool.release, lock, hlocked, Bool.false_eq_true, if_false, bind, Except.bind]
  change Except.ok (if (trim pool.maxPooledPerKey destroys (pool.pushed key c)).2 = true then _
    else _) = _
  cases (trim pool.maxPooledPerKey destroys (pool.pushed key c)).2 <;> rfl

theorem mem_pushed {key : K} {c x : ℕ} : x ∈ w.pool.pushed key c ↔ x = c ∨ w.Pooled key x := by
  rw [pushed, mem_append, mem_singleton, Pooled, or_comm]
  cases w.pool.entries.get? key <;> simp

theorem Kept.nodup_pushed (h : w.Kept) {key : K} {c : ℕ} (hheld : c ∈ w.held) :
    (w.pool.pushed key c).Nodup := by
  rw [pushed]
  cases hget : w.pool.entries.get? key with
  | none => simp
  | some old =>
    refine nodup_append.mpr ⟨h.queueOnce key old hget, nodup_singleton c, ?_⟩
    intro x hx y hy hxy
    rw [mem_singleton.mp hy] at hxy
    exact h.apart key c hheld ⟨old, hget, hxy ▸ hx⟩

/-- A connection that comes back is held no more. -/
theorem Kept.put (h : w.Kept) {key : K} {c : ℕ} {queue : List ℕ} (hheld : c ∈ w.held)
    (hsublist : queue.Sublist (w.pool.pushed key c)) (hne : queue ≠ [])
    (hwithin : queue.length ≤ w.pool.maxPooledPerKey) :
    Kept { w with
      pool := { w.pool with entries := w.pool.entries.insert key queue, locked := false }
      held := w.held.erase c
      limit := fun j => if j = key then w.pool.maxPooledPerKey else w.limit j } := by
  have hpooled : ∀ {j x}, (∃ q, (w.pool.entries.insert key queue).get? j = some q ∧ x ∈ q) →
      (j = key ∧ x = c) ∨ w.Pooled j x := by
    rintro j x ⟨q, hq, hx⟩
    rw [SortedMap.get?_insert] at hq
    split_ifs at hq with hj
    · obtain rfl := Option.some.inj hq
      rcases mem_pushed.mp (hsublist.mem hx) with hx | hx
      · exact .inl ⟨hj, hx⟩
      · exact .inr (hj ▸ hx)
    · exact .inr ⟨q, hq, hx⟩
  refine ⟨⟨h.heldOnce.erase c, fun j q hq => ?_, fun j q hq => ?_, rfl⟩, fun j q hq => ?_,
    fun j j' x hj hj' => ?_, fun j x hx hj => ?_,
    fun x hx => h.heldMade x (mem_of_mem_erase hx), fun j x hj => ?_⟩
  · simp only [SortedMap.get?_insert] at hq
    split_ifs at hq
    · obtain rfl := Option.some.inj hq
      exact hne
    · exact h.nonempty j q hq
  · simp only [SortedMap.get?_insert] at hq
    dsimp only
    split_ifs at hq ⊢
    · obtain rfl := Option.some.inj hq
      exact hwithin
    · exact h.within j q hq
  · simp only [SortedMap.get?_insert] at hq
    split_ifs at hq
    · obtain rfl := Option.some.inj hq
      exact hsublist.nodup (h.nodup_pushed hheld)
    · exact h.queueOnce j q hq
  · rcases hpooled hj with ⟨hjkey, hx⟩ | hold <;> rcases hpooled hj' with ⟨hjkey', hx'⟩ | hold'
    · rw [hjkey, hjkey']
    · exact absurd hold' (hx ▸ h.apart j' c hheld)
    · exact absurd hold (hx' ▸ h.apart j c hheld)
    · exact h.oneKey j j' x hold hold'
  · rw [h.heldOnce.mem_erase_iff] at hx
    rcases hpooled hj with ⟨-, hxc⟩ | hj
    · exact hx.1 hxc
    · exact h.apart j x hx.2 hj
  · rcases hpooled hj with ⟨-, rfl⟩ | hj
    · exact h.heldMade _ hheld
    · exact h.pooledMade j x hj

theorem Kept.release (h : w.Kept) {key : K} {user : ℕ} {destroys : ℕ → Bool}
    (hcalm : w.calm (.release key user destroys) = true) :
    ∃ w', w.step (.release key user destroys) = .ok w' ∧ w'.Kept := by
  cases huser : w.held[user]? with
  | none => exact ⟨w, by simp only [PoolRun.step, huser], h⟩
  | some c =>
    simp only [calm, huser, Bool.and_eq_true, decide_eq_true_eq] at hcalm
    obtain ⟨hpos, hall⟩ := hcalm
    have htrim := (trim_eq w.pool.maxPooledPerKey destroys (w.pool.pushed key c)).1 hall
    have hpushed : 1 ≤ (w.pool.pushed key c).length := by simp [pushed]
    have hstep : w.step (.release key user destroys) = .ok { w with
        pool := { w.pool with
          entries := w.pool.entries.insert key ((w.pool.pushed key c).drop
            ((w.pool.pushed key c).length - w.pool.maxPooledPerKey))
          locked := false }
        held := w.held.erase c
        limit := fun j => if j = key then w.pool.maxPooledPerKey else w.limit j } := by
      simp only [PoolRun.step, huser, release_eq h.unlocked, htrim, bind, Except.bind]
      rfl
    refine ⟨_, hstep, h.put (mem_of_getElem? huser) (drop_sublist _ _) ?_ ?_⟩
    · exact ne_nil_of_length_pos (by rw [length_drop]; omega)
    · rw [length_drop]
      omega

theorem Kept.step (h : w.Kept) {call : PoolCall K} (hcalm : w.calm call = true) :
    ∃ w', w.step call = .ok w' ∧ w'.Kept := by
  cases call with
  | acquire key isValid connecting => exact h.acquire key isValid connecting
  | release key user destroys => exact h.release hcalm
  | setMaxPooledPerKey value =>
    exact ⟨_, rfl, ⟨⟨h.heldOnce, h.nonempty, h.within, h.unlocked⟩, h.queueOnce, h.oneKey, h.apart,
      h.heldMade, h.pooledMade⟩⟩

/-- A release that is not calm breaks the pool. -/
theorem not_sound_of_not_calm {call : PoolCall K} (hcalm : w.calm call = false)
    (h : w.step call = .ok w') : ¬ w'.Sound := by
  cases call with
  | acquire key isValid connecting => cases hcalm
  | setMaxPooledPerKey value => cases hcalm
  | release key user destroys =>
    cases huser : w.held[user]? with
    | none => simp [calm, huser] at hcalm
    | some c =>
      intro hsound
      simp only [PoolRun.step, huser] at h
      cases hlocked : w.pool.locked with
      | true => simp [ConnectionPool.release, lock, hlocked, bind, Except.bind] at h
      | false =>
        obtain ⟨hdone, hnotDone⟩ :=
          trim_eq w.pool.maxPooledPerKey destroys (w.pool.pushed key c)
        simp only [release_eq hlocked, bind, Except.bind, Except.ok.injEq] at h
        subst h
        cases hall : ((w.pool.pushed key c).take ((w.pool.pushed key c).length -
            w.pool.maxPooledPerKey)).all destroys with
        | false =>
          have hunlocked := hsound.unlocked
          simp [hnotDone hall] at hunlocked
        | true =>
          have hzero : w.pool.maxPooledPerKey = 0 := by
            simpa [calm, huser, hall] using hcalm
          have hnil : (trim w.pool.maxPooledPerKey destroys (w.pool.pushed key c)).1 = [] := by
            rw [hdone hall, hzero, Nat.sub_zero, drop_length]
          refine hsound.nonempty key [] ?_ rfl
          rw [SortedMap.get?_insert, if_pos rfl, hnil]

theorem Kept.soundThroughout_iff (h : w.Kept) (calls : List (PoolCall K)) :
    SoundThroughout w calls ↔ guarded PoolRun.step calm w calls = true := by
  induction calls generalizing w with
  | nil => exact ⟨fun _ => rfl, fun _ => h.toSound⟩
  | cons call calls ih =>
    rw [SoundThroughout, guarded, Bool.and_eq_true]
    cases hcalm : w.calm call with
    | true =>
      obtain ⟨w', hstep, hkept⟩ := h.step hcalm
      simp only [hstep, Except.ok.injEq, exists_eq_left', ih hkept, true_and]
      exact and_iff_right h.toSound
    | false =>
      constructor
      · rintro ⟨-, w', hstep, hrest⟩
        have hsound : w'.Sound := by
          cases calls with
          | nil => exact hrest
          | cons call' calls => exact hrest.1
        exact absurd hsound (not_sound_of_not_calm hcalm hstep)
      · rintro ⟨hfalse, -⟩
        cases hfalse

end PoolRun

/-- **The pool** is sound in a run if and only if the limit is not zero at any release, and
every connection that is too many then can be destroyed. -/
theorem sound_throughout_iff (calls : List (PoolCall K)) :
    PoolRun.SoundThroughout {} calls ↔ guarded PoolRun.step PoolRun.calm {} calls = true :=
  PoolRun.kept_new.soundThroughout_iff calls

def zeroLimit : List (PoolCall ℕ) :=
  [.setMaxPooledPerKey 0, .acquire 1 (fun _ => some true) .connected,
    .release 1 0 fun _ => true, .acquire 1 (fun _ => some true) .connected]

theorem zeroLimit_emptyFront : ¬ PoolRun.SoundThroughout {} zeroLimit ∧
    zeroLimit.foldlM PoolRun.step {} = .error .emptyFront := by
  refine ⟨?_, rfl⟩
  rw [PoolRun.kept_new.soundThroughout_iff]
  decide

end Fastore.Client
