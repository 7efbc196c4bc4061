import Mathlib.Data.List.Nodup
import Mathlib.Data.Nat.ModEq
import Fastore.Lib.Loops
import Fastore.Hive.Prepare

/-!
Reading from one of several workers.

A client reads a column from one of the workers that serve it, in turn
(`getWorker`), and turns to the next one if the call fails (`attemptReadTurn`).
The failed workers are recorded, but coming to one of them again does not end
the loop: as long as the calls fail, it goes round the workers. On the other
hand a worker that cannot even be connected to ends the loop at once, whatever
the other workers would have answered.
-/

namespace Fastore.Hive

open Lib List

/-! ### The workers of a column -/

structure PodMap where
  pods : List PodID := []
  next : ℕ := 0

structure Cache where
  workerStates : SortedMap PodID WorkerState := .empty
  columnWorkers : SortedMap ColumnID PodMap := .empty
  nextSystemWorker : ℕ := 0

namespace Cache

def addWorker (cache : Cache) (worker : WorkerState) : Cache :=
  { cache with
    workerStates := insertNew cache.workerStates worker.podID worker
    columnWorkers := worker.repositoryStatus.keys.foldl (fun columnWorkers column =>
      columnWorkers.update {} column fun currentMap =>
        { currentMap with pods := currentMap.pods ++ [worker.podID] }) cache.columnWorkers }

/-- `UpdateHiveStateCache`, by the workers of the new state. The place of the next
system worker is not touched. -/
def updateHiveStateCache (cache : Cache) (workers : List WorkerState) : Cache :=
  workers.foldl addWorker { nextSystemWorker := cache.nextSystemWorker }

def getWorkerIDForColumn (cache : Cache) (columnID : ColumnID) : Except Fault (PodID × Cache) :=
  match cache.columnWorkers.get? columnID with
  | none => .error (.thrown s!"No worker is currently available for column ID ({columnID}).")
  | some map =>
    let next := (map.next + 1) % map.pods.length
    match map.pods[next]? with
    | none => .error .pastEnd
    | some podId =>
      .ok (podId, { cache with
        columnWorkers := cache.columnWorkers.insert columnID { map with next := next } })

def getWorkerForSystemColumn (cache : Cache) : Except Fault (PodID × Cache) :=
  match cache.workerStates.keys[cache.nextSystemWorker]? with
  | none => .error .pastEnd
  | some podID =>
    .ok (podID, { cache with
      nextSystemWorker := (cache.nextSystemWorker + 1) % cache.workerStates.keys.length })

/-- `GetWorker`, before the connection is taken from the pool. -/
def getWorker (cache : Cache) (columnID : ColumnID) : Except Fault (PodID × Cache) :=
  if columnID ≤ maxSystemColumnID then cache.getWorkerForSystemColumn
  else cache.getWorkerIDForColumn columnID

end Cache

/-! ### The loop -/

inductive Reply (A : Type)
  /-- There is no connection in the pool, and none can be made. -/
  | unreachable (message : String)
  /-- The call throws. -/
  | fails (message : String)
  | answers (answer : A)

inductive PoolEvent
  | taken (podID : PodID)
  | released (podID : PodID)
  deriving DecidableEq, Repr

structure ReadState where
  cache : Cache
  tried : List PodID := []
  errors : SortedMap PodID String := .empty
  pool : List PoolEvent := []

structure ReadResult (A : Type) where
  cache : Cache
  tried : List PodID
  pool : List PoolEvent
  outcome : Except Fault A

section Model

variable {A : Type} (columnId : ColumnID) (reply : ℕ → PodID → Reply A)

/-- The loop of `AttemptRead`, by the replies of the workers to each attempt. -/
def attemptReadTurn : Loop ReadState (ReadResult A) := fun s =>
  match s.cache.getWorker columnId with
  | .error f => .inr ⟨s.cache, s.tried, s.pool, .error f⟩
  | .ok (podId, cache) =>
    match reply s.tried.length podId with
    -- the connection is made before the `try`
    | .unreachable message =>
      .inr ⟨cache, s.tried ++ [podId], s.pool, .error (.thrown message)⟩
    -- whether the worker has failed before makes no difference: the `throw` is commented out
    | .fails message =>
      .inl ⟨cache, s.tried ++ [podId], insertNew s.errors podId message,
        s.pool ++ [.taken podId, .released podId]⟩
    | .answers answer =>
      .inr ⟨cache, s.tried ++ [podId], s.pool ++ [.taken podId, .released podId], .ok answer⟩

end Model

/-! ### Taking turns -/

namespace Cache

variable {cache : Cache} {columnID : ColumnID}

def podsFor (cache : Cache) (columnID : ColumnID) : List PodID :=
  if columnID ≤ maxSystemColumnID then cache.workerStates.keys
  else ((cache.columnWorkers.get? columnID).getD {}).pods

def place (cache : Cache) (columnID : ColumnID) : ℕ :=
  if columnID ≤ maxSystemColumnID then cache.nextSystemWorker
  else ((cache.columnWorkers.get? columnID).getD {}).next + 1

def podAt (cache : Cache) (columnID : ColumnID) (k : ℕ) : PodID :=
  ((cache.podsFor columnID)[(cache.place columnID + k) % (cache.podsFor columnID).length]?).getD 0

/-- The next worker for a system column is one of the workers. -/
def Placed (cache : Cache) (columnID : ColumnID) : Prop :=
  columnID ≤ maxSystemColumnID → cache.nextSystemWorker < cache.workerStates.keys.length

structure Valid (cache : Cache) : Prop where
  served : ∀ c map, cache.columnWorkers.get? c = some map → map.pods ≠ []
  once : ∀ c map, cache.columnWorkers.get? c = some map → map.pods.Nodup

theorem Valid.nodup (hv : cache.Valid) (columnID : ColumnID) : (cache.podsFor columnID).Nodup := by
  rw [podsFor]
  split
  · exact cache.workerStates.keys_nodup
  · cases hmap : cache.columnWorkers.get? columnID with
    | none => exact nodup_nil
    | some map => exact hv.once _ _ hmap

theorem getElem?_podAt (hpods : cache.podsFor columnID ≠ []) (k : ℕ) :
    (cache.podsFor columnID)[(cache.place columnID + k) % (cache.podsFor columnID).length]? =
      some (cache.podAt columnID k) := by
  have hlt : (cache.place columnID + k) % (cache.podsFor columnID).length <
      (cache.podsFor columnID).length := Nat.mod_lt _ (length_pos_of_ne_nil hpods)
  rw [podAt, getElem?_eq_getElem hlt, Option.getD_some]

theorem podAt_mem (hpods : cache.podsFor columnID ≠ []) (k : ℕ) :
    cache.podAt columnID k ∈ cache.podsFor columnID :=
  mem_of_getElem? (getElem?_podAt hpods k)

theorem Valid.podAt_injOn (hv : cache.Valid) (hpods : cache.podsFor columnID ≠ []) {i j : ℕ}
    (hi : i < (cache.podsFor columnID).length) (hj : j < (cache.podsFor columnID).length)
    (hpod : cache.podAt columnID i = cache.podAt columnID j) : i = j := by
  have hat := (getElem?_podAt hpods i).trans
    ((congrArg some hpod).trans (getElem?_podAt hpods j).symm)
  have hmod := (getElem?_inj (Nat.mod_lt _ (by omega)) (hv.nodup columnID)).mp hat
  have hsame : Nat.ModEq (cache.podsFor columnID).length i j := Nat.ModEq.add_left_cancel' _ hmod
  rwa [Nat.ModEq, Nat.mod_eq_of_lt hi, Nat.mod_eq_of_lt hj] at hsame

theorem podAt_length (cache : Cache) (columnID : ColumnID) :
    cache.podAt columnID (cache.podsFor columnID).length = cache.podAt columnID 0 := by
  rw [podAt, podAt, Nat.add_mod_right, Nat.add_zero]

/-- What a use of the indexes does: the same workers, one place further. -/
structure Moved (cache cache' : Cache) (columnID : ColumnID) : Prop where
  valid : cache'.Valid
  placed : cache'.Placed columnID
  pods : cache'.podsFor columnID = cache.podsFor columnID
  place : cache'.place columnID % (cache.podsFor columnID).length =
    (cache.place columnID + 1) % (cache.podsFor columnID).length

theorem Moved.podAt {cache' : Cache} (h : Moved cache cache' columnID) (k : ℕ) :
    cache'.podAt columnID k = cache.podAt columnID (k + 1) := by
  rw [Cache.podAt, Cache.podAt, h.pods, Nat.add_mod, h.place, ← Nat.add_mod, Nat.add_assoc,
    Nat.add_comm 1 k]

theorem pods_kept {Q : ColumnID → List PodID → Prop} {map : PodMap} {next : ℕ}
    (hmap : cache.columnWorkers.get? columnID = some map)
    (hQ : ∀ c map, cache.columnWorkers.get? c = some map → Q c map.pods) :
    ∀ c map', (cache.columnWorkers.insert columnID { map with next := next }).get? c = some map' →
      Q c map'.pods := by
  intro c map' hget
  rw [SortedMap.get?_insert] at hget
  split at hget
  · rename_i hc
    rw [hc, ← Option.some.inj hget]
    exact hQ columnID map hmap
  · exact hQ c map' hget

theorem getWorker_next (hv : cache.Valid) (hplaced : cache.Placed columnID)
    (hpods : cache.podsFor columnID ≠ []) : ∃ cache',
    cache.getWorker columnID = .ok (cache.podAt columnID 0, cache') ∧
      Moved cache cache' columnID := by
  have hat := getElem?_podAt hpods 0
  by_cases hsystem : columnID ≤ maxSystemColumnID
  · have hlt := hplaced hsystem
    simp only [podsFor, place, hsystem, if_true, Nat.add_zero, Nat.mod_eq_of_lt hlt] at hat
    refine ⟨_, by simp only [getWorker, hsystem, if_true, getWorkerForSystemColumn, hat]; rfl, ?_⟩
    refine ⟨⟨hv.served, hv.once⟩, fun _ => Nat.mod_lt _ (by omega), ?_, ?_⟩
    · simp only [podsFor, hsystem, if_true]
    · simp only [podsFor, place, hsystem, if_true, Nat.mod_mod]
  · obtain hmap | ⟨map, hmap⟩ := Option.eq_none_or_eq_some (cache.columnWorkers.get? columnID)
    · simp [podsFor, hsystem, hmap] at hpods
    simp only [podsFor, place, hsystem, if_false, hmap, Option.getD_some, Nat.add_zero] at hat
    refine ⟨_, by simp only [getWorker, hsystem, if_false, getWorkerIDForColumn, hmap, hat]; rfl, ?_⟩
    refine ⟨⟨pods_kept (Q := fun _ pods => pods ≠ []) hmap hv.served,
      pods_kept (Q := fun _ pods => pods.Nodup) hmap hv.once⟩, fun h => absurd h hsystem, ?_, ?_⟩
    · simp only [podsFor, hsystem, if_false, SortedMap.get?_insert, if_true, hmap, Option.getD_some]
    · simp only [podsFor, place, hsystem, if_false, SortedMap.get?_insert, if_true, hmap,
        Option.getD_some, Nat.mod_add_mod]

theorem getWorker_none (hv : cache.Valid) (hplaced : cache.Placed columnID)
    (hpods : cache.podsFor columnID = []) : ∃ message,
      cache.getWorker columnID = .error (.thrown message) := by
  by_cases hsystem : columnID ≤ maxSystemColumnID
  · have hlt := hplaced hsystem
    simp only [podsFor, hsystem, if_true] at hpods
    simp [hpods] at hlt
  · obtain hmap | ⟨map, hmap⟩ := Option.eq_none_or_eq_some (cache.columnWorkers.get? columnID)
    · exact ⟨_, by simp only [getWorker, hsystem, if_false, getWorkerIDForColumn, hmap]; rfl⟩
    · simp only [podsFor, hsystem, if_false, hmap, Option.getD_some] at hpods
      exact absurd hpods (hv.served _ _ hmap)

/-- The end of the map is read as a worker. -/
theorem getWorker_unplaced (hplaced : ¬ cache.Placed columnID) :
    cache.getWorker columnID = .error .pastEnd := by
  rw [Placed, Classical.not_imp] at hplaced
  rw [getWorker, if_pos hplaced.1, getWorkerForSystemColumn,
    getElem?_eq_none (Nat.not_lt.mp hplaced.2)]

/-! ### The indexes of a hive -/

structure Lists (cache : Cache) (done : List PodID) : Prop where
  known : ∀ p, cache.workerStates.get? p = none ↔ p ∉ done
  pods : ∀ c map, cache.columnWorkers.get? c = some map →
    map.pods ≠ [] ∧ map.pods.Nodup ∧ ∀ p ∈ map.pods, p ∈ done

theorem Lists.addWorker {done : List PodID} (h : cache.Lists done) {worker : WorkerState}
    (hnew : worker.podID ∉ done) : (cache.addWorker worker).Lists (worker.podID :: done) := by
  have hnone := (h.known _).mpr hnew
  have hstates : (cache.addWorker worker).workerStates =
      cache.workerStates.insert worker.podID worker := insertNew_of_none hnone
  refine ⟨fun p => ?_, fun c map hmap => ?_⟩
  · rw [hstates, SortedMap.get?_insert, mem_cons, not_or, ← h.known p]
    by_cases hp : p = worker.podID <;> simp [hp]
  · rw [Cache.addWorker, SortedMap.get?_foldl_update _ _ worker.repositoryStatus.keys_nodup] at hmap
    split at hmap
    · obtain rfl := Option.some.inj hmap
      obtain ⟨hnodup, hin⟩ : ((cache.columnWorkers.get? c).getD {}).pods.Nodup ∧
          ∀ p ∈ ((cache.columnWorkers.get? c).getD {}).pods, p ∈ done := by
        obtain hold | ⟨old, hold⟩ := Option.eq_none_or_eq_some (cache.columnWorkers.get? c)
        · simp [hold]
        · rw [hold]
          exact (h.pods c old hold).2
      refine ⟨by simp, hnodup.append (nodup_singleton _)
        (disjoint_singleton.mpr fun hp => hnew (hin _ hp)), fun p hp => ?_⟩
      rcases mem_append.mp hp with hp | hp
      · exact mem_cons_of_mem _ (hin p hp)
      · rw [mem_singleton.mp hp]
        exact mem_cons_self
    · obtain ⟨hne, hnodup, hin⟩ := h.pods c map hmap
      exact ⟨hne, hnodup, fun p hp => mem_cons_of_mem _ (hin p hp)⟩

theorem Lists.addWorkers {done : List PodID} (h : cache.Lists done) {workers : List WorkerState}
    (hnodup : (workers.map (·.podID)).Nodup) (hnew : ∀ w ∈ workers, w.podID ∉ done) :
    ∃ done', (workers.foldl Cache.addWorker cache).Lists done' := by
  induction workers generalizing cache done with
  | nil => exact ⟨done, h⟩
  | cons w ws ih =>
    rw [map_cons, nodup_cons] at hnodup
    refine ih (h.addWorker (hnew w mem_cons_self)) hnodup.2 fun w' hw' hin => ?_
    rcases mem_cons.mp hin with heq | hin
    · exact hnodup.1 (heq ▸ mem_map_of_mem hw')
    · exact hnew w' (mem_cons_of_mem _ hw') hin

theorem foldl_addWorker_nextSystemWorker (workers : List WorkerState) :
    (workers.foldl addWorker cache).nextSystemWorker = cache.nextSystemWorker := by
  induction workers generalizing cache with
  | nil => rfl
  | cons w ws ih => exact ih

theorem updateHiveStateCache_valid {workers : List WorkerState}
    (hnodup : (workers.map (·.podID)).Nodup) : (cache.updateHiveStateCache workers).Valid := by
  have hnew : Lists { nextSystemWorker := cache.nextSystemWorker } [] :=
    ⟨fun p => by simp, fun c map h => by simp at h⟩
  obtain ⟨done, hlists⟩ := hnew.addWorkers hnodup fun _ _ => not_mem_nil
  exact ⟨fun c map h => (hlists.pods c map h).1, fun c map h => (hlists.pods c map h).2.1⟩

end Cache

/-! ### The attempts -/

namespace Reply

variable {A : Type}

def Fails (reply : Reply A) : Prop := ∃ message, reply = .fails message

def Answers (reply : Reply A) : Prop := ∃ answer, reply = .answers answer

def Unreachable (reply : Reply A) : Prop := ∃ message, reply = .unreachable message

theorem answers_or_unreachable {reply : Reply A} (h : ¬ reply.Fails) :
    reply.Answers ∨ reply.Unreachable := by
  cases reply with
  | unreachable message => exact .inr ⟨message, rfl⟩
  | fails message => exact absurd ⟨message, rfl⟩ h
  | answers answer => exact .inl ⟨answer, rfl⟩

end Reply

variable {A : Type} {cache : Cache} {columnId : ColumnID} {reply : ℕ → PodID → Reply A}

def replyAt (cache : Cache) (columnId : ColumnID) (reply : ℕ → PodID → Reply A) (k : ℕ) : Reply A :=
  reply k (cache.podAt columnId k)

def Cache.turns (cache : Cache) (columnId : ColumnID) (k : ℕ) : List PodID :=
  (List.range k).map (cache.podAt columnId)

def lease (podId : PodID) : List PoolEvent := [.taken podId, .released podId]

structure ReadState.After (cache : Cache) (columnId : ColumnID) (k : ℕ) (s : ReadState) : Prop where
  valid : s.cache.Valid
  placed : s.cache.Placed columnId
  pods : s.cache.podsFor columnId = cache.podsFor columnId
  next : ∀ j, s.cache.podAt columnId j = cache.podAt columnId (k + j)
  tried : s.tried = cache.turns columnId k
  pool : s.pool = (cache.turns columnId k).flatMap lease

structure ReadResult.Last (cache : Cache) (columnId : ColumnID) (reply : ℕ → PodID → Reply A)
    (k : ℕ) (result : ReadResult A) : Prop where
  tried : result.tried = cache.turns columnId (k + 1)
  answers : ∀ answer, replyAt cache columnId reply k = .answers answer →
    result.outcome = .ok answer ∧ result.pool = (cache.turns columnId (k + 1)).flatMap lease
  unreachable : ∀ message, replyAt cache columnId reply k = .unreachable message →
    result.outcome = .error (.thrown message) ∧
      result.pool = (cache.turns columnId k).flatMap lease

theorem Cache.turns_succ (cache : Cache) (columnId : ColumnID) (k : ℕ) :
    cache.turns columnId (k + 1) = cache.turns columnId k ++ [cache.podAt columnId k] := by
  rw [turns, turns, range_succ, map_append, map_singleton]

theorem ReadState.After.start (hv : cache.Valid) (hplaced : cache.Placed columnId) :
    ReadState.After cache columnId 0 { cache := cache } :=
  ⟨hv, hplaced, rfl, fun j => by rw [Nat.zero_add], rfl, rfl⟩

section Turns

variable {s : ReadState} {k : ℕ}

theorem ReadState.After.turn (h : s.After cache columnId k) (hpods : cache.podsFor columnId ≠ [])
    (reply : ℕ → PodID → Reply A) :
    ∃ cache', s.cache.getWorker columnId = .ok (cache.podAt columnId k, cache') ∧
      Cache.Moved s.cache cache' columnId ∧
      reply s.tried.length (cache.podAt columnId k) = replyAt cache columnId reply k := by
  obtain ⟨cache', hget, hmoved⟩ := Cache.getWorker_next h.valid h.placed (h.pods ▸ hpods)
  rw [h.next, Nat.add_zero] at hget
  refine ⟨cache', hget, hmoved, ?_⟩
  rw [replyAt, h.tried, Cache.turns, length_map, length_range]

theorem attemptReadTurn_fails (h : s.After cache columnId k) (hpods : cache.podsFor columnId ≠ [])
    (hfails : (replyAt cache columnId reply k).Fails) : ∃ s',
      attemptReadTurn columnId reply s = .inl s' ∧ s'.After cache columnId (k + 1) := by
  obtain ⟨cache', hget, hmoved, hreply⟩ := h.turn hpods reply
  obtain ⟨message, hmessage⟩ := hfails
  refine ⟨_, by simp only [attemptReadTurn, hget, hreply, hmessage]; rfl, hmoved.valid,
    hmoved.placed, hmoved.pods.trans h.pods, fun j => ?_, ?_, ?_⟩
  · rw [hmoved.podAt, h.next]
    congr 1
    omega
  · rw [h.tried, Cache.turns_succ]
  · rw [h.pool, Cache.turns_succ, flatMap_append]
    rfl

theorem attemptReadTurn_last (h : s.After cache columnId k) (hpods : cache.podsFor columnId ≠ [])
    (hlast : ¬ (replyAt cache columnId reply k).Fails) : ∃ result,
      attemptReadTurn columnId reply s = .inr result ∧ result.Last cache columnId reply k := by
  obtain ⟨cache', hget, hmoved, hreply⟩ := h.turn hpods reply
  rcases Reply.answers_or_unreachable hlast with ⟨answer, hanswer⟩ | ⟨message, hmessage⟩
  · refine ⟨_, by simp only [attemptReadTurn, hget, hreply, hanswer]; rfl, ?_, ?_, ?_⟩
    · rw [h.tried, Cache.turns_succ]
    · intro a ha
      obtain rfl := Reply.answers.inj (hanswer.symm.trans ha)
      refine ⟨rfl, ?_⟩
      rw [h.pool, Cache.turns_succ, flatMap_append]
      rfl
    · intro m hm
      cases hanswer.symm.trans hm
  · refine ⟨_, by simp only [attemptReadTurn, hget, hreply, hmessage]; rfl, ?_, ?_, ?_⟩
    · rw [h.tried, Cache.turns_succ]
    · intro a ha
      cases hmessage.symm.trans ha
    · intro m hm
      obtain rfl := Reply.unreachable.inj (hmessage.symm.trans hm)
      exact ⟨rfl, h.pool⟩

end Turns

/-- Without a worker the loop ends in its first turn. -/
theorem attemptRead_none {f : Fault} (hf : cache.getWorker columnId = .error f)
    (reply : ℕ → PodID → Reply A) (result : ReadResult A) :
    (attemptReadTurn columnId reply).Ends { cache := cache } result ↔
      result = ⟨cache, [], [], .error f⟩ :=
  Loop.ends_done (by simp only [attemptReadTurn, hf])

theorem nodup_turns_iff (hv : cache.Valid) (hpods : cache.podsFor columnId ≠ []) {k : ℕ} :
    (cache.turns columnId k).Nodup ↔ k ≤ (cache.podsFor columnId).length := by
  rw [Cache.turns, nodup_map_iff_inj_on nodup_range]
  simp only [mem_range]
  constructor
  · intro hinj
    by_contra hlt
    have hpos := length_pos_of_ne_nil hpods
    have := hinj _ (by omega : (cache.podsFor columnId).length < k) 0 (by omega)
      (cache.podAt_length columnId)
    omega
  · intro hle i hi j hj
    exact hv.podAt_injOn hpods (by omega) (by omega)

section Served

variable (hv : cache.Valid) (hplaced : cache.Placed columnId) (hpods : cache.podsFor columnId ≠ [])

include hv hplaced hpods

theorem attemptRead_first {k : ℕ} (hk : ¬ (replyAt cache columnId reply k).Fails)
    (hbefore : ∀ j < k, ¬ ¬ (replyAt cache columnId reply j).Fails) : ∃ result,
      (attemptReadTurn columnId reply).Ends { cache := cache } result ∧
        result.Last cache columnId reply k :=
  Loop.ends_at_first (I := fun k s => ReadState.After cache columnId k s)
    (P := fun k => ¬ (replyAt cache columnId reply k).Fails)
    (Q := fun k result => result.Last cache columnId reply k)
    (fun _ _ hs hfails => attemptReadTurn_fails hs hpods (not_not.mp hfails))
    (fun _ _ hs hlast => attemptReadTurn_last hs hpods hlast) (.start hv hplaced) hk hbefore

theorem attemptRead_last {result : ReadResult A}
    (h : (attemptReadTurn columnId reply).Ends { cache := cache } result) :
    ∃ k, ¬ (replyAt cache columnId reply k).Fails ∧
      (∀ j < k, ¬ ¬ (replyAt cache columnId reply j).Fails) ∧
      result.Last cache columnId reply k :=
  h.first (I := fun k s => ReadState.After cache columnId k s)
    (P := fun k => ¬ (replyAt cache columnId reply k).Fails)
    (Q := fun k result => result.Last cache columnId reply k)
    (fun _ _ hs hfails => attemptReadTurn_fails hs hpods (not_not.mp hfails))
    (fun _ _ hs hlast => attemptReadTurn_last hs hpods hlast) (.start hv hplaced)

end Served

/-- What a read comes to: every worker is tried at most once, if some worker answers
in its turn the result is such an answer, and otherwise an exception is thrown. -/
structure ReadResult.Right (cache : Cache) (columnId : ColumnID) (reply : ℕ → PodID → Reply A)
    (result : ReadResult A) : Prop where
  once : result.tried.Nodup
  serves : ∀ p ∈ result.tried, p ∈ cache.podsFor columnId
  survives : result.outcome ≠ .error .pastEnd
  answers : (∃ j < (cache.podsFor columnId).length, (replyAt cache columnId reply j).Answers) →
    ∃ j < (cache.podsFor columnId).length, ∃ answer,
      replyAt cache columnId reply j = .answers answer ∧ result.outcome = .ok answer
  gives_up : (∀ j < (cache.podsFor columnId).length, ¬ (replyAt cache columnId reply j).Answers) →
    ∃ message, result.outcome = .error (.thrown message)

section Last

variable {k : ℕ} {result : ReadResult A} (h : result.Last cache columnId reply k)
  (hk : ¬ (replyAt cache columnId reply k).Fails)

include h hk

theorem ReadResult.Last.survives : result.outcome ≠ .error .pastEnd := by
  rcases Reply.answers_or_unreachable hk with ⟨answer, hanswer⟩ | ⟨message, hmessage⟩
  · rw [(h.answers answer hanswer).1]
    simp
  · rw [(h.unreachable message hmessage).1]
    simp

/-- The last reply answers, or nobody does. -/
theorem ReadResult.Last.right_iff (hv : cache.Valid) (hpods : cache.podsFor columnId ≠ []) :
    result.Right cache columnId reply ↔ k < (cache.podsFor columnId).length ∧
      ((replyAt cache columnId reply k).Answers ∨ (replyAt cache columnId reply k).Unreachable ∧
        ∀ j < (cache.podsFor columnId).length, ¬ (replyAt cache columnId reply j).Answers) := by
  constructor
  · intro hright
    refine ⟨(nodup_turns_iff hv hpods).mp (h.tried ▸ hright.once), ?_⟩
    rcases Reply.answers_or_unreachable hk with hanswers | ⟨message, hmessage⟩
    · exact .inl hanswers
    · refine .inr ⟨⟨message, hmessage⟩, fun j hj hanswers => ?_⟩
      obtain ⟨-, -, answer, -, hok⟩ := hright.answers ⟨j, hj, hanswers⟩
      rw [(h.unreachable message hmessage).1] at hok
      cases hok
  · rintro ⟨hlt, hkind⟩
    refine ⟨?_, ?_, h.survives hk, ?_, ?_⟩
    · rw [h.tried]
      exact (nodup_turns_iff hv hpods).mpr hlt
    · intro p hp
      rw [h.tried, Cache.turns] at hp
      obtain ⟨j, -, rfl⟩ := mem_map.mp hp
      exact Cache.podAt_mem hpods j
    · rintro ⟨j, hj, hanswers⟩
      rcases hkind with ⟨answer, hanswer⟩ | ⟨-, hnone⟩
      · exact ⟨k, hlt, answer, hanswer, (h.answers answer hanswer).1⟩
      · exact absurd hanswers (hnone j hj)
    · intro hnone
      rcases hkind with hanswers | ⟨⟨message, hmessage⟩, -⟩
      · exact absurd hanswers (hnone k hlt)
      · exact ⟨_, (h.unreachable message hmessage).1⟩

theorem ReadResult.Last.leases :
    ∃ n ≤ result.tried.length, result.pool = (result.tried.take n).flatMap lease := by
  have hturns : ∀ k, (cache.turns columnId k).length = k := fun k => by
    rw [Cache.turns, length_map, length_range]
  rw [h.tried, hturns]
  rcases Reply.answers_or_unreachable hk with ⟨answer, hanswer⟩ | ⟨message, hmessage⟩
  · refine ⟨k + 1, le_refl _, ?_⟩
    rw [(h.answers answer hanswer).2, take_of_length_le (hturns _).le]
  · refine ⟨k, Nat.le_succ k, ?_⟩
    rw [(h.unreachable message hmessage).2, Cache.turns_succ, take_left' (hturns k)]

end Last

/-- **Reading**: it comes to what it should exactly if the next worker exists and the column
has none, or one of the workers answers in its first turn and those before it have failed, or
none answers and one that cannot be connected to ends the loop in the first round. It ends
without a fault exactly if the next worker exists and some attempt does not fail, and whatever
is taken from the pool is released once. -/
theorem attemptRead_iff (hv : cache.Valid) (columnId : ColumnID) (reply : ℕ → PodID → Reply A) :
    ((∃ result, (attemptReadTurn columnId reply).Ends { cache := cache } result ∧
        result.Right cache columnId reply) ↔
      cache.Placed columnId ∧
      (cache.podsFor columnId = [] ∨ ∃ k < (cache.podsFor columnId).length,
        (∀ j < k, (replyAt cache columnId reply j).Fails) ∧
        ((replyAt cache columnId reply k).Answers ∨
          (replyAt cache columnId reply k).Unreachable ∧
            ∀ j < (cache.podsFor columnId).length, ¬ (replyAt cache columnId reply j).Answers))) ∧
    ((∃ result, (attemptReadTurn columnId reply).Ends { cache := cache } result ∧
        result.outcome ≠ .error .pastEnd) ↔
      cache.Placed columnId ∧
      (cache.podsFor columnId = [] ∨ ∃ k, ¬ (replyAt cache columnId reply k).Fails)) ∧
    ∀ result, (attemptReadTurn columnId reply).Ends { cache := cache } result →
      ∃ n ≤ result.tried.length, result.pool = (result.tried.take n).flatMap lease := by
  by_cases hplaced : cache.Placed columnId
  swap
  · have hends := attemptRead_none (Cache.getWorker_unplaced hplaced) reply
    refine ⟨iff_of_false ?_ fun h => hplaced h.1, iff_of_false ?_ fun h => hplaced h.1, ?_⟩
    · rintro ⟨result, hresult, hright⟩
      obtain rfl := (hends result).mp hresult
      exact hright.survives rfl
    · rintro ⟨result, hresult, hsurvives⟩
      obtain rfl := (hends result).mp hresult
      exact hsurvives rfl
    · intro result hresult
      obtain rfl := (hends result).mp hresult
      exact ⟨0, le_refl _, rfl⟩
  simp only [hplaced, true_and]
  by_cases hpods : cache.podsFor columnId = []
  · obtain ⟨message, hf⟩ := Cache.getWorker_none hv hplaced hpods
    have hends := (attemptRead_none hf reply _).mpr rfl
    refine ⟨iff_of_true ⟨_, hends, nodup_nil, fun p hp => absurd hp not_mem_nil, by simp, ?_,
      fun _ => ⟨message, rfl⟩⟩ (.inl hpods), iff_of_true ⟨_, hends, by simp⟩ (.inl hpods), ?_⟩
    · rintro ⟨j, hj, -⟩
      simp [hpods] at hj
    · intro result hresult
      obtain rfl := (attemptRead_none hf reply _).mp hresult
      exact ⟨0, le_refl _, rfl⟩
  simp only [hpods, false_or]
  refine ⟨⟨?_, ?_⟩, ⟨?_, ?_⟩, fun result hends => ?_⟩
  · rintro ⟨result, hends, hright⟩
    obtain ⟨k, hk, hbefore, hlast⟩ := attemptRead_last hv hplaced hpods hends
    obtain ⟨hlt, hkind⟩ := (hlast.right_iff hk hv hpods).mp hright
    exact ⟨k, hlt, fun j hj => not_not.mp (hbefore j hj), hkind⟩
  · rintro ⟨k, hlt, hbefore, hkind⟩
    have hk : ¬ (replyAt cache columnId reply k).Fails := by
      rintro ⟨message, hfails⟩
      rcases hkind with ⟨answer, h⟩ | ⟨⟨message', h⟩, -⟩ <;> cases hfails.symm.trans h
    obtain ⟨result, hends, hlast⟩ :=
      attemptRead_first hv hplaced hpods hk fun j hj => not_not.mpr (hbefore j hj)
    exact ⟨result, hends, (hlast.right_iff hk hv hpods).mpr ⟨hlt, hkind⟩⟩
  · rintro ⟨result, hends, -⟩
    obtain ⟨k, hk, -⟩ := attemptRead_last hv hplaced hpods hends
    exact ⟨k, hk⟩
  · rintro ⟨k, hk⟩
    obtain ⟨i, -, hi, hfirst⟩ :=
      exists_first (P := fun k => ¬ (replyAt cache columnId reply k).Fails) hk
    obtain ⟨result, hends, hlast⟩ := attemptRead_first hv hplaced hpods hi hfirst
    exact ⟨result, hends, hlast.survives hi⟩
  · obtain ⟨k, hk, -, hlast⟩ := attemptRead_last hv hplaced hpods hends
    exact hlast.leases hk

def twoServing : Cache :=
  Cache.updateHiveStateCache {}
    [⟨1, .insert .empty 10000 .online⟩, ⟨2, .insert .empty 10000 .online⟩]

theorem twoServing_valid : twoServing.Valid :=
  Cache.updateHiveStateCache_valid (by decide)

/-- The second worker fails, and the first answers. -/
theorem attemptRead_other : ∃ result, (attemptReadTurn 10000 fun _ p =>
      if p = 2 then .fails "connection reset" else .answers p).Ends
        { cache := twoServing } result ∧
    result.Right twoServing 10000 fun _ p =>
      if p = 2 then .fails "connection reset" else .answers p :=
  (attemptRead_iff twoServing_valid 10000 _).1.mpr ⟨fun h => absurd h (by decide),
    .inr ⟨1, by decide, by
      intro j hj
      obtain rfl : j = 0 := by omega
      exact ⟨_, rfl⟩, .inl ⟨1, rfl⟩⟩⟩

/-- If both fail, the read does not end. -/
theorem attemptRead_endless : ¬ ∃ result : ReadResult PodID,
    (attemptReadTurn 10000 fun _ _ => .fails "connection reset").Ends
      { cache := twoServing } result := by
  rintro ⟨result, hends⟩
  obtain ⟨k, hk, -⟩ := attemptRead_last twoServing_valid (fun h => absurd h (by decide))
    (by decide) hends
  exact hk ⟨_, rfl⟩

end Fastore.Hive
