import Fastore.Lib.Runs
import Mathlib.Data.List.Pairwise
import Mathlib.Data.Multiset.Basic
import Mathlib.Logic.Relation

/-!
The cache of IDs of a client.

`IDGenerator` hands out the IDs of a block one by one. When few are left it
has the next block fetched by a work item of the thread pool; a caller that
draws behind the end of the current one waits for the load and tries again.
Any number of threads call `Generate` and `ResetCache`, and a run is a list
of the sections they get through, each under the latch and so in one step,
with the steps of the work items. The answers of the callback are part of
the run.

What the threads can do to the numbers is little: draw the next number of the
range, count on behind its end, give the range up, or change to a block that
has been fetched (`Ledger.Step`). No number is handed out twice, and each lies
in a block, as long as the callback returns blocks that are disjoint
(`ids_distinct`). The counters are taken as unbounded.
-/

namespace Fastore.Client

open Lib List
open Relation (ReflTransGen)

/-! ### The generator -/

structure IDGenerator where
  blockSize : ℤ
  allocationThreshold : ℤ
  /-- `_loadingEvent` is signaled. -/
  loadingEvent : Bool := true
  loadingBlock : Bool := false
  nextId : ℤ := 0
  endOfRange : ℤ := 0
  lastError : Option String := none

structure ArgumentOutOfRange where
  paramName : String
  message : String
  deriving DecidableEq, Repr

namespace IDGenerator

def new (blockSize allocationThreshold : ℤ) : Except ArgumentOutOfRange IDGenerator :=
  if blockSize < 1 then .error ⟨"blockSize", "Block size must be at least 1."⟩
  else if allocationThreshold < 0 then
    .error ⟨"allocationThreshold", "Allocation threshold must be 0 or more."⟩
  else if blockSize < allocationThreshold then
    .error ⟨"allocationThreshold", "Allocation threshold must be no more than the block size."⟩
  else .ok { blockSize, allocationThreshold }

def commence (g : IDGenerator) : IDGenerator × Bool :=
  if g.loadingBlock then (g, false)
  else ({ g with loadingEvent := false, loadingBlock := true, lastError := none }, true)

/-- `Generate` up to its return or its wait: the ID, if there is one, and the
flag for a new work item. -/
def draw (g : IDGenerator) : IDGenerator × Bool × Option ℤ :=
  let nextId := g.nextId
  let g := { g with nextId := g.nextId + 1 }
  let remaining := g.endOfRange - g.nextId
  if remaining < g.allocationThreshold then
    (g.commence.1, g.commence.2, if remaining < 0 then none else some nextId)
  else (g, false, some nextId)

def resetLoading (g : IDGenerator) (newBlock : Option ℤ) (e : Option String) : IDGenerator :=
  let g := match newBlock with
    | some blockValue => { g with nextId := blockValue, endOfRange := blockValue + g.blockSize }
    | none => g
  { g with lastError := e, loadingBlock := false, loadingEvent := true }

/-- `ResetCache` with the latch taken, unless a load has begun. -/
def resetCache (g : IDGenerator) : Option IDGenerator :=
  if g.loadingEvent then some { g with nextId := 0, endOfRange := 0 } else none

def loaded (g : IDGenerator) : Except String ℤ → IDGenerator
  | .ok newBlock => g.resetLoading (some newBlock) none
  | .error e => g.resetLoading none (some e)

end IDGenerator

/-! ### Threads -/

inductive Phase
  | idle
  /-- `Generate`, before the latch. -/
  | generate
  /-- `Generate`, waiting for the load to complete. -/
  | waiting
  /-- `Generate`, about to take the latch back. -/
  | retake
  /-- `ResetCache`, waiting for a pending load. -/
  | pending
  /-- `ResetCache`, before the latch. -/
  | reset
  deriving DecidableEq, Repr

structure Threads where
  generator : IDGenerator
  phase : ℕ → Phase
  /-- The work items, each with the answer of the callback once it is there. -/
  workers : List (Option (Except String ℤ))
  /-- The calls of `Generate` that are over. -/
  results : List (Except String ℤ)
  /-- The blocks the callback has returned. -/
  blocks : List ℤ

/-- The thread `i` or the work item `k` goes on. -/
inductive Action
  | callGenerate (i : ℕ)
  | draw (i : ℕ)
  | loadingDone (i : ℕ)
  | retry (i : ℕ)
  | callResetCache (i : ℕ)
  | pendingDone (i : ℕ)
  | resetCache (i : ℕ)
  | callback (k : ℕ) (answer : Except String ℤ)
  | resetLoading (k : ℕ)

inductive Blocked
  | blocked
  deriving DecidableEq, Repr

namespace Threads

variable (s : Threads)

def start (g : IDGenerator) : Threads := ⟨g, fun _ => .idle, [], [], []⟩

def setPhase (i : ℕ) (phase : Phase) : Threads :=
  { s with phase := Function.update s.phase i phase }

def finish (i : ℕ) (result : Except String ℤ) : Threads :=
  { s.setPhase i .idle with results := s.results ++ [result] }

def advance (i : ℕ) (ready : Bool) (source target : Phase) : Except Blocked Threads :=
  if s.phase i = source ∧ ready then .ok (s.setPhase i target) else .error .blocked

def drawn : Threads where
  generator := s.generator.draw.1
  phase := s.phase
  workers := if s.generator.draw.2.1 then s.workers ++ [none] else s.workers
  results := s.results
  blocks := s.blocks

def drawStep (i : ℕ) : Except Blocked Threads :=
  if s.phase i = .generate then
    match s.generator.draw.2.2 with
    | some id => .ok (s.drawn.finish i (.ok id))
    | none => .ok (s.drawn.setPhase i .waiting)
  else .error .blocked

def retryStep (i : ℕ) : Except Blocked Threads :=
  if s.phase i = .retake then
    match s.generator.lastError with
    | some e => .ok (s.finish i (.error e))
    | none => .ok (s.setPhase i .generate)
  else .error .blocked

def resetCacheStep (i : ℕ) : Except Blocked Threads :=
  if s.phase i = .reset then
    match s.generator.resetCache with
    | some g => .ok { s.setPhase i .idle with generator := g }
    | none => .ok (s.setPhase i .pending)
  else .error .blocked

def callbackStep (k : ℕ) (answer : Except String ℤ) : Except Blocked Threads :=
  match s.workers[k]? with
  | some none => .ok { s with workers := s.workers.set k (some answer),
                              blocks := s.blocks ++ answer.toOption.toList }
  | _ => .error .blocked

def resetLoadingStep (k : ℕ) : Except Blocked Threads :=
  match s.workers[k]? with
  | some (some answer) => .ok { s with generator := s.generator.loaded answer,
                                       workers := s.workers.eraseIdx k }
  | _ => .error .blocked

def step : Action → Except Blocked Threads
  | .callGenerate i => s.advance i true .idle .generate
  | .draw i => s.drawStep i
  | .loadingDone i => s.advance i s.generator.loadingEvent .waiting .retake
  | .retry i => s.retryStep i
  | .callResetCache i => s.advance i true .idle .pending
  | .pendingDone i => s.advance i s.generator.loadingEvent .pending .reset
  | .resetCache i => s.resetCacheStep i
  | .callback k answer => s.callbackStep k answer
  | .resetLoading k => s.resetLoadingStep k

def run (actions : List Action) : Except Blocked Threads := actions.foldlM step s

def ids : List ℤ := s.results.filterMap Except.toOption

end Threads

/-! ### The ledger -/

/-- What matters of the threads for the numbers: the range that is drawn from,
the IDs handed out, the blocks returned and those among them that are still
to be loaded. -/
structure Ledger where
  nextId : ℤ
  endOfRange : ℤ
  ids : List ℤ
  blocks : List ℤ
  pending : Multiset ℤ

namespace Ledger

/-- What a step can do to the numbers, with blocks of `size` IDs. -/
inductive Step (size : ℤ) : Ledger → Ledger → Prop
  | stay (l : Ledger) : Step size l l
  | draw (l : Ledger) (h : l.nextId < l.endOfRange) :
      Step size l { l with nextId := l.nextId + 1, ids := l.ids ++ [l.nextId] }
  | overshoot (l : Ledger) (h : l.endOfRange ≤ l.nextId) :
      Step size l { l with nextId := l.nextId + 1 }
  | clear (l : Ledger) : Step size l { l with nextId := 0, endOfRange := 0 }
  | fetch (l : Ledger) (b : ℤ) :
      Step size l { l with blocks := l.blocks ++ [b], pending := b ::ₘ l.pending }
  | load (l : Ledger) (b : ℤ) (pending : Multiset ℤ) (h : l.pending = b ::ₘ pending) :
      Step size l { l with nextId := b, endOfRange := b + size, pending := pending }

variable {size : ℤ} {l l' : Ledger}

def Disjoint (size : ℤ) (blocks : List ℤ) : Prop :=
  blocks.Pairwise fun a b => a + size ≤ b ∨ b + size ≤ a

/-- The IDs come from blocks that have been loaded, and the range that is
drawn from is the untouched end of one of them, or empty. -/
structure Inv (size : ℤ) (l : Ledger) : Prop where
  nodup : l.ids.Nodup
  drawn : ∀ id ∈ l.ids, ∃ b ∈ l.blocks, b ∉ l.pending ∧ b ≤ id ∧ id < b + size
  untouched : ∀ id ∈ l.ids, id < l.endOfRange → id < l.nextId
  range : l.endOfRange ≤ l.nextId ∨
    ∃ b ∈ l.blocks, b ∉ l.pending ∧ b ≤ l.nextId ∧ l.endOfRange = b + size
  returned : ∀ b ∈ l.pending, b ∈ l.blocks
  once : l.pending.Nodup

theorem Step.blocks_prefix (h : Step size l l') : l.blocks <+: l'.blocks := by
  cases h with
  | fetch b => exact prefix_append _ _
  | _ => exact prefix_rfl

theorem Disjoint.of_prefix {as bs : List ℤ} (h : Disjoint size bs) (hp : as <+: bs) :
    Disjoint size as :=
  h.sublist hp.sublist

theorem Disjoint.not_mem {bs : List ℤ} {b : ℤ} (hsize : 1 ≤ size)
    (h : Disjoint size (bs ++ [b])) : b ∉ bs := by
  intro hmem
  have := (pairwise_append.mp h).2.2 b hmem b (by simp)
  omega

theorem Disjoint.apart {bs : List ℤ} {a b : ℤ} (h : Disjoint size bs) (ha : a ∈ bs) (hb : b ∈ bs)
    (hne : a ≠ b) : a + size ≤ b ∨ b + size ≤ a := by
  have : Std.Symm fun a b : ℤ => a + size ≤ b ∨ b + size ≤ a := ⟨fun _ _ => Or.symm⟩
  exact List.Pairwise.forall h ha hb hne

theorem Inv.start : Inv size ⟨0, 0, [], [], 0⟩ :=
  ⟨.nil, by simp, by simp, Or.inl (Int.le_refl _), by simp, Multiset.nodup_zero⟩

/-- **A step** keeps the invariant as long as the blocks are disjoint. -/
theorem Inv.step (hsize : 1 ≤ size) (h : Inv size l) (hstep : Step size l l')
    (hdisjoint : Disjoint size l'.blocks) : Inv size l' := by
  cases hstep with
  | stay => exact h
  | draw hlt =>
    obtain hle | ⟨b, hb, hpending, hle, hend⟩ := h.range
    · omega
    have hnew : l.nextId ∉ l.ids := fun hmem => Int.lt_irrefl _ (h.untouched _ hmem hlt)
    refine ⟨nodup_append.mpr ⟨h.nodup, by simp, ?_⟩, ?_, ?_, ?_, h.returned, h.once⟩
    · intro a ha a' ha' heq
      obtain rfl := mem_singleton.mp ha'
      exact hnew (heq ▸ ha)
    · intro id hid
      rcases mem_append.mp hid with hid | hid
      · exact h.drawn id hid
      · obtain rfl := mem_singleton.mp hid
        exact ⟨b, hb, hpending, hle, by omega⟩
    · intro id hid hlt'
      rcases mem_append.mp hid with hid | hid
      · have := h.untouched id hid hlt'
        simp only
        omega
      · obtain rfl := mem_singleton.mp hid
        simp only
        omega
    · exact Or.inr ⟨b, hb, hpending, by simp only; omega, hend⟩
  | overshoot hge =>
    refine ⟨h.nodup, h.drawn, fun id hid hlt => ?_, Or.inl ?_, h.returned, h.once⟩
    · have := h.untouched id hid hlt
      simp only
      omega
    · simp only
      omega
  | clear =>
    exact ⟨h.nodup, h.drawn, fun _ _ hlt => hlt, Or.inl (Int.le_refl _), h.returned, h.once⟩
  | fetch b =>
    have hnew : b ∉ l.blocks := hdisjoint.not_mem hsize
    have hkeep : ∀ {b'}, b' ∈ l.blocks → b' ∉ l.pending → b' ∉ b ::ₘ l.pending := by
      intro b' hb' hpending hmem
      rcases Multiset.mem_cons.mp hmem with rfl | hmem
      · exact hnew hb'
      · exact hpending hmem
    refine ⟨h.nodup, fun id hid => ?_, h.untouched, ?_, fun b' hb' => ?_, ?_⟩
    · obtain ⟨b', hb', hpending, hid⟩ := h.drawn id hid
      exact ⟨b', mem_append_left _ hb', hkeep hb' hpending, hid⟩
    · rcases h.range with hle | ⟨b', hb', hpending, hrange⟩
      · exact Or.inl hle
      · exact Or.inr ⟨b', mem_append_left _ hb', hkeep hb' hpending, hrange⟩
    · rcases Multiset.mem_cons.mp hb' with rfl | hb'
      · exact mem_append_right _ (mem_singleton_self _)
      · exact mem_append_left _ (h.returned b' hb')
    · exact Multiset.nodup_cons.mpr ⟨fun hmem => hnew (h.returned b hmem), h.once⟩
  | load b pending heq =>
    have honce := h.once
    rw [heq, Multiset.nodup_cons] at honce
    have hb : b ∈ l.blocks := h.returned b (heq ▸ Multiset.mem_cons_self _ _)
    have hsub : ∀ {b'}, b' ∈ pending → b' ∈ l.pending :=
      fun hmem => heq ▸ Multiset.mem_cons_of_mem hmem
    refine ⟨h.nodup, fun id hid => ?_, fun id hid hlt => ?_, ?_, ?_, honce.2⟩
    · obtain ⟨b', hb', hpending, hid⟩ := h.drawn id hid
      exact ⟨b', hb', fun hmem => hpending (hsub hmem), hid⟩
    · -- the IDs handed out lie in other blocks
      obtain ⟨b', hb', hpending, hle, hid'⟩ := h.drawn id hid
      have hne : b' ≠ b := by
        rintro rfl
        exact hpending (heq ▸ Multiset.mem_cons_self _ _)
      have := hdisjoint.apart hb' hb hne
      simp only at hlt ⊢
      omega
    · exact Or.inr ⟨b, hb, honce.1, Int.le_refl _, rfl⟩
    · exact fun b' hb' => h.returned b' (hsub hb')

theorem Inv.run (hsize : 1 ≤ size) (h : Inv size l) (hrun : ReflTransGen (Step size) l l')
    (hdisjoint : Disjoint size l'.blocks) : Inv size l' := by
  induction hrun with
  | refl => exact h
  | tail _ hstep ih => exact (ih (hdisjoint.of_prefix hstep.blocks_prefix)).step hsize hstep hdisjoint

end Ledger

/-! ### The threads keep the ledger -/

namespace IDGenerator

variable (g : IDGenerator)

theorem commence_same : g.commence.1.nextId = g.nextId ∧
    g.commence.1.endOfRange = g.endOfRange ∧ g.commence.1.blockSize = g.blockSize ∧
    g.commence.1.allocationThreshold = g.allocationThreshold := by
  rw [commence]
  split <;> exact ⟨rfl, rfl, rfl, rfl⟩

theorem draw_spec (hthreshold : 0 ≤ g.allocationThreshold) :
    g.draw.1.nextId = g.nextId + 1 ∧ g.draw.1.endOfRange = g.endOfRange ∧
      g.draw.1.blockSize = g.blockSize ∧
      g.draw.1.allocationThreshold = g.allocationThreshold ∧
      g.draw.2.2 = if g.nextId < g.endOfRange then some g.nextId else none := by
  have hsame := commence_same { g with nextId := g.nextId + 1 }
  simp only at hsame
  simp only [draw]
  split
  · refine ⟨hsame.1, hsame.2.1, hsame.2.2.1, hsame.2.2.2, ?_⟩
    split <;> split <;> first | rfl | omega
  · refine ⟨rfl, rfl, rfl, rfl, ?_⟩
    rw [if_pos (by omega)]

end IDGenerator

namespace Threads

variable {s s' : Threads}

def fetched (worker : Option (Except String ℤ)) : Option ℤ := worker.bind Except.toOption

def ledger (s : Threads) : Ledger where
  nextId := s.generator.nextId
  endOfRange := s.generator.endOfRange
  ids := s.ids
  blocks := s.blocks
  pending := s.workers.filterMap fetched

/-- What the constructor has checked, for blocks of `size` IDs. -/
structure Valid (size : ℤ) (s : Threads) : Prop where
  blockSize : s.generator.blockSize = size
  threshold : 0 ≤ s.generator.allocationThreshold

theorem ids_finish (s : Threads) (i : ℕ) (result : Except String ℤ) :
    (s.finish i result).ids = s.ids ++ result.toOption.toList := by
  simp only [ids, finish, setPhase, filterMap_append]
  cases result <;> rfl

variable {size : ℤ} {i k : ℕ}

theorem advance_ledger {ready : Bool} {source target : Phase} (hs : s.Valid size)
    (h : s.advance i ready source target = .ok s') :
    Ledger.Step size s.ledger s'.ledger ∧ s'.Valid size := by
  rw [advance] at h
  split at h
  · obtain rfl := Except.ok.inj h
    exact ⟨.stay _, hs.blockSize, hs.threshold⟩
  · cases h

/-- Each draw is a step of the ledger. -/
theorem drawStep_ledger (hs : s.Valid size) (h : s.drawStep i = .ok s') :
    Ledger.Step size s.ledger s'.ledger ∧ s'.Valid size := by
  obtain ⟨hnext, hend, hblock, hthreshold, hid⟩ := s.generator.draw_spec hs.threshold
  have hvalid : s.drawn.Valid size :=
    ⟨hblock.trans hs.blockSize, hthreshold ▸ hs.threshold⟩
  have hpending : s.drawn.workers.filterMap fetched = s.workers.filterMap fetched := by
    simp only [drawn]
    split
    · rw [filterMap_append]
      simp [fetched]
    · rfl
  rw [drawStep, hid] at h
  split at h
  case isFalse => cases h
  split at h
  case h_1 id hid =>
    obtain rfl := Except.ok.inj h
    refine ⟨?_, hvalid.blockSize, hvalid.threshold⟩
    rw [Option.ite_none_right_eq_some] at hid
    obtain ⟨hlt, hid⟩ := hid
    obtain rfl := Option.some.inj hid
    have hledger : (s.drawn.finish i (.ok s.generator.nextId)).ledger =
        { s.ledger with nextId := s.ledger.nextId + 1, ids := s.ledger.ids ++ [s.ledger.nextId] } := by
      simp only [ledger, ids_finish, Except.toOption, Option.toList, Ledger.mk.injEq]
      exact ⟨hnext, hend, rfl, rfl, congrArg _ hpending⟩
    rw [hledger]
    exact .draw _ hlt
  case h_2 hid =>
    obtain rfl := Except.ok.inj h
    refine ⟨?_, hvalid.blockSize, hvalid.threshold⟩
    have hge : ¬ s.generator.nextId < s.generator.endOfRange := by simpa using hid
    have hledger : (s.drawn.setPhase i .waiting).ledger =
        { s.ledger with nextId := s.ledger.nextId + 1 } := by
      simp only [ledger, Ledger.mk.injEq]
      exact ⟨hnext, hend, rfl, rfl, congrArg _ hpending⟩
    rw [hledger]
    exact .overshoot _ (Int.not_lt.mp hge)

theorem retryStep_ledger (hs : s.Valid size) (h : s.retryStep i = .ok s') :
    Ledger.Step size s.ledger s'.ledger ∧ s'.Valid size := by
  rw [retryStep] at h
  split at h
  case isFalse => cases h
  split at h
  case h_1 e he =>
    obtain rfl := Except.ok.inj h
    have hledger : (s.finish i (.error e)).ledger = s.ledger := by
      simp only [ledger, ids_finish, Except.toOption, Option.toList, append_nil]
      rfl
    exact ⟨hledger ▸ .stay _, hs.blockSize, hs.threshold⟩
  case h_2 =>
    obtain rfl := Except.ok.inj h
    exact ⟨.stay _, hs.blockSize, hs.threshold⟩

theorem resetCacheStep_ledger (hs : s.Valid size) (h : s.resetCacheStep i = .ok s') :
    Ledger.Step size s.ledger s'.ledger ∧ s'.Valid size := by
  rw [resetCacheStep, IDGenerator.resetCache] at h
  split at h
  case isFalse => cases h
  split at h
  case h_1 g hg =>
    obtain rfl := Except.ok.inj h
    rw [Option.ite_none_right_eq_some] at hg
    obtain ⟨-, hg⟩ := hg
    obtain rfl := Option.some.inj hg
    exact ⟨.clear _, hs.blockSize, hs.threshold⟩
  case h_2 =>
    obtain rfl := Except.ok.inj h
    exact ⟨.stay _, hs.blockSize, hs.threshold⟩

theorem fetched_set {workers : List (Option (Except String ℤ))} (answer : Except String ℤ)
    (hk : workers[k]? = some none) :
    ((workers.set k (some answer)).filterMap fetched).Perm
      (answer.toOption.toList ++ workers.filterMap fetched) := by
  obtain ⟨hlt, hget⟩ := List.getElem?_eq_some_iff.mp hk
  obtain ⟨as, bs, hworkers, -, hset⟩ := @List.exists_of_set _ k (some answer) workers hlt
  rw [hget] at hworkers
  rw [hset, hworkers, filterMap_append, filterMap_append]
  cases answer with
  | error e => exact List.Perm.refl _
  | ok b => exact perm_middle

theorem fetched_eraseIdx {workers : List (Option (Except String ℤ))} {answer : Except String ℤ}
    (hk : workers[k]? = some (some answer)) :
    (workers.filterMap fetched).Perm
      (answer.toOption.toList ++ (workers.eraseIdx k).filterMap fetched) := by
  obtain ⟨hlt, hget⟩ := List.getElem?_eq_some_iff.mp hk
  obtain ⟨as, bs, hworkers, hlen, -⟩ := @List.exists_of_set _ k none workers hlt
  rw [hget] at hworkers
  have herase : workers.eraseIdx k = as ++ bs := by
    rw [hworkers, eraseIdx_append_of_length_le (by omega), hlen, Nat.sub_self]
    rfl
  rw [herase, hworkers, filterMap_append, filterMap_append]
  cases answer with
  | error e => exact List.Perm.refl _
  | ok b => exact perm_middle

theorem callbackStep_ledger {answer : Except String ℤ} (hs : s.Valid size)
    (h : s.callbackStep k answer = .ok s') :
    Ledger.Step size s.ledger s'.ledger ∧ s'.Valid size := by
  rw [callbackStep] at h
  split at h
  case h_2 => cases h
  case h_1 hk =>
    obtain rfl := Except.ok.inj h
    refine ⟨?_, hs.blockSize, hs.threshold⟩
    have hpending := Multiset.coe_eq_coe.mpr (fetched_set answer hk)
    simp only [ledger, hpending]
    cases answer with
    | error e =>
      simp only [Except.toOption, Option.toList, append_nil, nil_append]
      exact .stay s.ledger
    | ok b => exact .fetch s.ledger b

theorem resetLoadingStep_ledger (hs : s.Valid size) (h : s.resetLoadingStep k = .ok s') :
    Ledger.Step size s.ledger s'.ledger ∧ s'.Valid size := by
  rw [resetLoadingStep] at h
  split at h
  case h_2 => cases h
  case h_1 answer hk =>
    obtain rfl := Except.ok.inj h
    have hpending := Multiset.coe_eq_coe.mpr (fetched_eraseIdx hk)
    cases answer with
    | error e =>
      refine ⟨?_, hs.blockSize, hs.threshold⟩
      simp only [ledger, hpending]
      exact .stay _
    | ok b =>
      refine ⟨?_, hs.blockSize, hs.threshold⟩
      obtain rfl := hs.blockSize
      exact .load s.ledger b _ hpending

/-- **Every step of a thread or a work item** is a step of the ledger. -/
theorem step_ledger {a : Action} (hs : s.Valid size) (h : s.step a = .ok s') :
    Ledger.Step size s.ledger s'.ledger ∧ s'.Valid size := by
  cases a with
  | callGenerate i | loadingDone i | callResetCache i | pendingDone i => exact advance_ledger hs h
  | draw i => exact drawStep_ledger hs h
  | retry i => exact retryStep_ledger hs h
  | resetCache i => exact resetCacheStep_ledger hs h
  | callback k answer => exact callbackStep_ledger hs h
  | resetLoading k => exact resetLoadingStep_ledger hs h

theorem run_ledger {actions : List Action} (hs : s.Valid size) (h : s.run actions = .ok s') :
    ReflTransGen (Ledger.Step size) s.ledger s'.ledger := by
  induction actions generalizing s with
  | nil =>
    obtain rfl := Except.ok.inj h
    exact .refl
  | cons a actions ih =>
    rw [run, foldlM_cons] at h
    obtain ⟨s₁, hs₁, h⟩ := eq_ok_of_bind h
    obtain ⟨hstep, hvalid⟩ := step_ledger hs hs₁
    exact .head hstep (ih hvalid h)

end Threads

open Threads

theorem IDGenerator.new_valid {blockSize allocationThreshold : ℤ} {g : IDGenerator}
    (hnew : IDGenerator.new blockSize allocationThreshold = .ok g) :
    1 ≤ blockSize ∧ (Threads.start g).Valid blockSize ∧
      (Threads.start g).ledger = ⟨0, 0, [], [], 0⟩ := by
  rw [IDGenerator.new] at hnew
  split at hnew
  · cases hnew
  split at hnew
  · cases hnew
  split at hnew
  · cases hnew
  obtain rfl := Except.ok.inj hnew
  exact ⟨by omega, ⟨rfl, by simp only [Threads.start]; omega⟩, rfl⟩

/-- **The IDs are distinct**: in every interleaving, with blocks that do not
overlap, no ID is returned twice and each lies in a block that the callback
has returned. -/
theorem ids_distinct {blockSize allocationThreshold : ℤ} {g : IDGenerator} {actions : List Action}
    {s : Threads} (hnew : IDGenerator.new blockSize allocationThreshold = .ok g)
    (hrun : (Threads.start g).run actions = .ok s)
    (hdisjoint : s.blocks.Pairwise fun a b => a + blockSize ≤ b ∨ b + blockSize ≤ a) :
    s.ids.Nodup ∧ ∀ id ∈ s.ids, ∃ b ∈ s.blocks, b ≤ id ∧ id < b + blockSize := by
  obtain ⟨hsize, hvalid, hledger⟩ := IDGenerator.new_valid hnew
  have hledgers := run_ledger hvalid hrun
  rw [hledger] at hledgers
  have hinv := Ledger.Inv.start.run hsize hledgers hdisjoint
  refine ⟨hinv.nodup, fun id hid => ?_⟩
  obtain ⟨b, hb, -, hle, hlt⟩ := hinv.drawn id hid
  exact ⟨b, hb, hle, hlt⟩

/-- Two threads and blocks of two IDs: the second thread draws behind the end
and waits, the first load fails, and the cache is reset in between. -/
def twoThreads : List Action :=
  [.callGenerate 0, .draw 0, .callGenerate 1, .draw 1, .callback 0 (.error "down"),
    .resetLoading 0, .loadingDone 0, .loadingDone 1, .retry 0, .retry 1, .callGenerate 0, .draw 0,
    .callback 0 (.ok 10), .resetLoading 0, .loadingDone 0, .retry 0, .draw 0, .callGenerate 1,
    .draw 1, .callback 0 (.ok 20), .resetLoading 0, .callResetCache 0, .pendingDone 0,
    .resetCache 0, .callGenerate 0, .draw 0, .callback 0 (.ok 12), .resetLoading 0,
    .loadingDone 0, .retry 0, .draw 0]

theorem ids_distinct_twoThreads : ∃ g s, IDGenerator.new 2 1 = .ok g ∧
    (Threads.start g).run twoThreads = .ok s ∧ s.ids = [10, 11, 12] ∧ s.blocks = [10, 20, 12] ∧
    s.ids.Nodup ∧ ∀ id ∈ s.ids, ∃ b ∈ s.blocks, b ≤ id ∧ id < b + 2 := by
  have hrun : ((Threads.start ⟨2, 1, true, false, 0, 0, none⟩).run twoThreads).toOption.map
      (fun s => (s.ids, s.blocks)) = some ([10, 11, 12], [10, 20, 12]) := by decide +kernel
  cases hs : (Threads.start ⟨2, 1, true, false, 0, 0, none⟩).run twoThreads with
  | error e =>
    rw [hs] at hrun
    simp [Except.toOption] at hrun
  | ok s =>
    rw [hs] at hrun
    obtain ⟨hids, hblocks⟩ : s.ids = [10, 11, 12] ∧ s.blocks = [10, 20, 12] := by
      simpa [Except.toOption] using hrun
    refine ⟨_, s, rfl, hs, hids, hblocks,
      @ids_distinct 2 1 ⟨2, 1, true, false, 0, 0, none⟩ twoThreads s rfl hs ?_⟩
    rw [hblocks]
    decide

end Fastore.Client
