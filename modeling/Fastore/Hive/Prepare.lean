import Fastore.Lib.Groups
import Fastore.Lib.Pairing

/-!
Preparing a transaction.

A client asks every worker that hosts a column to be written for the
revision of all these columns (`apply` of the workers), counts the answers
by column and revision (`processPrepareResults`) and decides by the counts
whether to commit (`canFinalizeTransaction`). A worker that does not host
a column answers for it all the same, with revision 0, and is counted with
the others.
-/

namespace Fastore.Hive

open Lib List

abbrev PodID := ℕ

abbrev ColumnID := ℕ

abbrev Revision := ℕ

inductive Fault
  /-- An exception with its text. -/
  | thrown (message : String)
  /-- The end of a container is read as an element. -/
  | pastEnd
  deriving DecidableEq, Repr

/-! ### The workers of a transaction -/

inductive RepositoryStatus
  | loading
  | unloading
  | online
  | offline
  deriving DecidableEq, Repr

/-- `WorkerState`, as far as it is used here. -/
structure WorkerState where
  podID : PodID
  repositoryStatus : SortedMap ColumnID RepositoryStatus

def maxSystemColumnID : ColumnID := 9999

def WorkerState.ids (state : WorkerState) (systemColumns : List ColumnID) : List ColumnID :=
  (systemColumns ++ (state.repositoryStatus.entries.filter fun repo =>
    repo.2 = .online && maxSystemColumnID < repo.1).map Prod.fst).insertionSort (· ≤ ·)

/-! ### The answers -/

structure PrepareResult where
  actualRevision : Revision
  validateRequired : Bool
  deriving DecidableEq, Repr

/-- `apply` of a worker, with the revisions of its repositories. -/
def prepareResults (repositories : ColumnID → Option Revision) (columnIDs : List ColumnID) :
    List (ColumnID × PrepareResult) :=
  columnIDs.map fun column =>
    match repositories column with
    | some revision => (column, ⟨revision, false⟩)
    | none => (column, ⟨0, false⟩)

structure ColumnWriteResult where
  validateRequired : Bool := false
  workersByRevision : SortedMap Revision (List PodID) := .empty
  failedWorkers : List PodID := []

def ColumnWriteResult.addFailed (writeResult : ColumnWriteResult) (podID : PodID) :
    ColumnWriteResult :=
  { writeResult with failedWorkers := writeResult.failedWorkers ++ [podID] }

def ColumnWriteResult.addAnswer (running : ColumnWriteResult) (result : PrepareResult)
    (podID : PodID) : ColumnWriteResult :=
  { running with
    validateRequired := running.validateRequired || result.validateRequired
    workersByRevision := push running.workersByRevision result.actualRevision podID }

/-- The columns of a worker that has failed: its pairs, one after the other from
the first one. The loop looks at the pair behind them even if there is
none. -/
def columnsOfFailed (workers : List (PodID × ColumnID)) (podID : PodID) :
    Except Fault (List ColumnID) :=
  let workerColumns := workers.dropWhile (·.1 ≠ podID)
  match workerColumns.dropWhile (·.1 = podID) with
  | [] => .error .pastEnd
  | _ :: _ => .ok ((workerColumns.takeWhile (·.1 = podID)).map Prod.snd)

/-- The loop body of `ProcessPrepareResults`. A task without an answer has failed
or has not come back in time. -/
def processPrepareResult (workers : List (PodID × ColumnID))
    (columnWriteResults : SortedMap ColumnID ColumnWriteResult)
    (task : PodID × Option (List (ColumnID × PrepareResult))) :
    Except Fault (SortedMap ColumnID ColumnWriteResult) :=
  match task.2 with
  | none => do
    let columns ← columnsOfFailed workers task.1
    .ok (columns.foldl (fun results column => results.update {} column (·.addFailed task.1))
      columnWriteResults)
  | some prepareResults =>
    .ok (prepareResults.foldl (fun results prepareResult =>
      results.update {} prepareResult.1 (·.addAnswer prepareResult.2 task.1)) columnWriteResults)

def processPrepareResults (workers : List (PodID × ColumnID))
    (tasks : List (PodID × Option (List (ColumnID × PrepareResult)))) :
    Except Fault (SortedMap ColumnID ColumnWriteResult) :=
  tasks.foldlM (processPrepareResult workers) .empty

/-! ### The decision -/

def ColumnWriteResult.totalWorkers (writeResult : ColumnWriteResult) : ℕ :=
  writeResult.failedWorkers.length + (writeResult.workersByRevision.entries.map (·.2.length)).sum

def ColumnWriteResult.newRevision (writeResult : ColumnWriteResult) : Option Revision :=
  let totalWorkers := writeResult.totalWorkers
  let failThreshold := totalWorkers / 2
  match writeResult.workersByRevision.entries.getLast? with
  | none => none
  | some (revision, pods) =>
    if writeResult.validateRequired ∨
        (failThreshold ≤ writeResult.failedWorkers.length ∧ 0 < failThreshold) ∨
        pods.length < totalWorkers / 2 then none
    else some (revision + 1)

/-- `CanFinalizeTransaction`: the new revisions, or none. The order of the
columns is that of a hash table, but it does not matter. -/
def canFinalizeTransaction (columnWriteResults : SortedMap ColumnID ColumnWriteResult) :
    Option (SortedMap ColumnID Revision) :=
  columnWriteResults.entries.foldlM (fun outRevisions result =>
    result.2.newRevision.map fun revision => outRevisions.insert result.1 revision) .empty

/-! ### A hive -/

structure State where
  pods : List PodID
  sorted : pods.Pairwise (· < ·)
  revision : PodID → ColumnID → Option Revision

namespace State

variable (h : State) (written : List ColumnID) (fails : PodID → Bool)

def hosted (p : PodID) (c : ColumnID) : Bool := (h.revision p c).isSome

def workers : List (PodID × ColumnID) :=
  h.pods.flatMap fun p => (written.filter (h.hosted p)).map fun c => (p, c)

def tasks : List (PodID × Option (List (ColumnID × PrepareResult))) :=
  (h.pods.filter fun p => (h.workers written).any (·.1 = p)).map fun p =>
    (p, if fails p then none else some (prepareResults (h.revision p) written))

def prepared : Except Fault (SortedMap ColumnID ColumnWriteResult) :=
  processPrepareResults (h.workers written) (h.tasks written fails)

def contacted : List PodID := h.pods.filter fun p => written.any (h.hosted p)

def reported (p : PodID) (c : ColumnID) : Revision := (h.revision p c).getD 0

end State

/-! ### Finding the workers -/

variable {schema : List ColumnID} {p : PodID} {results : SortedMap ColumnID ColumnWriteResult}

theorem WorkerState.mem_ids {state : WorkerState} {c : ColumnID} :
    c ∈ state.ids (schema.filter (· ≤ maxSystemColumnID)) ↔
      c ∈ schema ∧ c ≤ maxSystemColumnID ∨
        maxSystemColumnID < c ∧ state.repositoryStatus.get? c = some .online := by
  rw [ids, mem_insertionSort]
  simp only [mem_append, mem_filter, decide_eq_true_eq, mem_map, Bool.and_eq_true,
    SortedMap.get?_eq_some]
  refine or_congr_right ⟨?_, fun hc => ⟨(c, .online), ⟨hc.2, rfl, hc.1⟩, rfl⟩⟩
  rintro ⟨⟨c', status⟩, ⟨he, rfl, hlt⟩, rfl⟩
  exact ⟨hlt, he⟩

theorem WorkerState.ids_sorted (state : WorkerState) (hschema : schema.Nodup) :
    (state.ids (schema.filter (· ≤ maxSystemColumnID))).Pairwise (· < ·) := by
  have hnodup : (state.ids (schema.filter (· ≤ maxSystemColumnID))).Nodup := by
    rw [ids, (perm_insertionSort _ _).nodup_iff, nodup_append]
    refine ⟨hschema.filter _, ?_, ?_⟩
    · exact state.repositoryStatus.keys_nodup.sublist (filter_sublist.map _)
    · intro c hc c' hc'
      obtain ⟨e, he, rfl⟩ := mem_map.mp hc'
      have hle : c ≤ maxSystemColumnID := by simpa using (mem_filter.mp hc).2
      have hlt : maxSystemColumnID < e.1 := by
        simpa using (Bool.and_eq_true_iff.mp (mem_filter.mp he).2).2
      exact (hle.trans_lt hlt).ne
  exact (pairwise_insertionSort (· ≤ ·) _).imp₂ (fun _ _ => lt_of_le_of_ne) hnodup

/-! ### Going along the pairs -/

theorem columnsOfFailed_of_sorted {workers : List (PodID × ColumnID)}
    (hsorted : workers.Pairwise (·.1 ≤ ·.1)) (hp : p ∈ workers.map Prod.fst) :
    columnsOfFailed workers p = if workers.filter (p < ·.1) = [] then .error .pastEnd
      else .ok ((workers.filter (·.1 = p)).map Prod.snd) := by
  simp only [columnsOfFailed, dropWhile_dropWhile_ne hsorted hp, takeWhile_dropWhile_ne hsorted hp]
  cases workers.filter (p < ·.1) with
  | nil => rfl
  | cons w rest => rfl

/-! ### The counts -/

/-- What has been counted for a column: the answers and the failed workers. -/
structure Tallies (w : ColumnWriteResult) (answers : List (Revision × PodID))
    (failed : List PodID) : Prop where
  validate : w.validateRequired = false
  groups : Groups w.workersByRevision answers
  failed : w.failedWorkers = failed

theorem prepareResults_eq (repositories : ColumnID → Option Revision) (columnIDs : List ColumnID) :
    prepareResults repositories columnIDs =
      columnIDs.map fun c => (c, ⟨(repositories c).getD 0, false⟩) := by
  rw [prepareResults]
  refine map_congr_left fun c _ => ?_
  cases repositories c <;> rfl

namespace State

variable {h : State} {written : List ColumnID} {fails : PodID → Bool}

def answersOf (h : State) (written : List ColumnID) (fails : PodID → Bool) (pods : List PodID)
    (c : ColumnID) : List (Revision × PodID) :=
  if c ∈ written then (pods.filter fun p => !fails p).map fun p => (h.reported p c, p) else []

def failedOf (h : State) (written : List ColumnID) (fails : PodID → Bool) (pods : List PodID)
    (c : ColumnID) : List PodID :=
  if c ∈ written then pods.filter fun p => fails p && h.hosted p c else []

def Counts (h : State) (written : List ColumnID) (fails : PodID → Bool) (pods : List PodID)
    (results : SortedMap ColumnID ColumnWriteResult) : Prop :=
  ∀ c, Tallies ((results.get? c).getD {}) (h.answersOf written fails pods c)
      (h.failedOf written fails pods c) ∧
    (results.get? c = none ↔
      h.answersOf written fails pods c = [] ∧ h.failedOf written fails pods c = [])

theorem counts_empty : h.Counts written fails [] .empty := by
  intro c
  refine ⟨⟨rfl, ?_, ?_⟩, ?_⟩
  · rw [answersOf, filter_nil, map_nil, ite_self]
    exact .empty
  · rw [failedOf, filter_nil, ite_self]
    rfl
  · simp [answersOf, failedOf]

theorem Counts.answer {pods : List PodID} (hr : h.Counts written fails pods results)
    (hnodup : written.Nodup) (hp : fails p = false) : h.Counts written fails (pods ++ [p])
      ((prepareResults (h.revision p) written).foldl (fun results prepareResult =>
        results.update {} prepareResult.1 (·.addAnswer prepareResult.2 p)) results) := by
  intro c
  obtain ⟨htally, hnone⟩ := hr c
  rw [prepareResults_eq, foldl_map]
  have hanswers : h.answersOf written fails (pods ++ [p]) c =
      h.answersOf written fails pods c ++ if c ∈ written then [(h.reported p c, p)] else [] := by
    by_cases hc : c ∈ written <;> simp [answersOf, hc, hp]
  have hfailed : h.failedOf written fails (pods ++ [p]) c = h.failedOf written fails pods c := by
    simp [failedOf, hp]
  have hget : ∀ c, (written.foldl (fun results c => results.update {} c
      (·.addAnswer ⟨(h.revision p c).getD 0, false⟩ p)) results).get? c = _ := fun c =>
    SortedMap.get?_foldl_update _ (fun c running =>
      ColumnWriteResult.addAnswer running ⟨(h.revision p c).getD 0, false⟩ p) hnodup
  rw [hanswers, hfailed, hget]
  by_cases hc : c ∈ written
  · simp only [if_pos hc, Option.getD_some]
    refine ⟨⟨?_, htally.groups.push _ _, htally.failed⟩, by simp⟩
    simp [ColumnWriteResult.addAnswer, htally.validate]
  · simp only [if_neg hc, append_nil]
    exact ⟨htally, hnone⟩

theorem Counts.failed {pods : List PodID} (hr : h.Counts written fails pods results)
    (hnodup : written.Nodup) (hp : fails p = true) : h.Counts written fails (pods ++ [p])
      ((written.filter (h.hosted p)).foldl (fun results column =>
        results.update {} column (·.addFailed p)) results) := by
  intro c
  obtain ⟨htally, hnone⟩ := hr c
  have hanswers : h.answersOf written fails (pods ++ [p]) c = h.answersOf written fails pods c := by
    simp [answersOf, hp]
  have hfailed : h.failedOf written fails (pods ++ [p]) c =
      h.failedOf written fails pods c ++ if c ∈ written ∧ h.hosted p c = true then [p] else [] := by
    by_cases hc : c ∈ written <;> by_cases hh : h.hosted p c = true <;>
      simp [failedOf, hc, hp, hh]
  have hget : ∀ c, ((written.filter (h.hosted p)).foldl (fun results column =>
      results.update {} column (·.addFailed p)) results).get? c = _ := fun c =>
    SortedMap.get?_foldl_update _ (fun _ writeResult => ColumnWriteResult.addFailed writeResult p)
      (hnodup.filter _)
  rw [hanswers, hfailed, hget]
  by_cases hc : c ∈ written ∧ h.hosted p c = true
  · rw [if_pos (mem_filter.mpr hc), if_pos hc]
    refine ⟨⟨htally.validate, htally.groups, ?_⟩, by simp⟩
    simp [ColumnWriteResult.addFailed, htally.failed]
  · rw [if_neg (mt mem_filter.mp hc), if_neg hc, append_nil]
    exact ⟨htally, hnone⟩

/-! ### The workers in turn -/

theorem any_workers (hp : p ∈ h.pods) :
    ((h.workers written).any (·.1 = p)) = written.any (h.hosted p) := by
  rw [Bool.eq_iff_iff, any_eq_true, any_eq_true]
  constructor
  · rintro ⟨⟨p', c⟩, hw, hpp⟩
    obtain ⟨q, -, hc⟩ := mem_flatMap.mp hw
    obtain ⟨c', hc', heq⟩ := mem_map.mp hc
    obtain ⟨rfl, rfl⟩ := Prod.mk.inj heq
    obtain rfl : q = p := by simpa using hpp
    exact ⟨c', (mem_filter.mp hc')⟩
  · rintro ⟨c, hc, hhost⟩
    exact ⟨(p, c), mem_flatMap.mpr ⟨p, hp, mem_map.mpr
      ⟨c, mem_filter.mpr ⟨hc, hhost⟩, rfl⟩⟩, by simp⟩

theorem tasks_eq : h.tasks written fails = (h.contacted written).map fun p =>
    (p, if fails p then none else some (prepareResults (h.revision p) written)) := by
  rw [tasks, contacted]
  congr 1
  exact filter_congr fun p hp => any_workers hp

def pairs (h : State) (written : List ColumnID) (ps : List PodID) : List (PodID × ColumnID) :=
  ps.flatMap fun p => (written.filter (h.hosted p)).map fun c => (p, c)

theorem fst_of_mem_pairs {ps : List PodID} {w : PodID × ColumnID} (hw : w ∈ h.pairs written ps) :
    w.1 ∈ ps := by
  obtain ⟨p, hp, hc⟩ := mem_flatMap.mp hw
  obtain ⟨c, -, rfl⟩ := mem_map.mp hc
  exact hp

theorem pairs_eq_nil {ps : List PodID} :
    h.pairs written ps = [] ↔ (ps.filter fun p => written.any (h.hosted p)) = [] := by
  rw [pairs, flatMap_eq_nil_iff, filter_eq_nil_iff]
  simp

theorem workers_sorted (h : State) (written : List ColumnID) :
    (h.workers written).Pairwise (·.1 ≤ ·.1) := by
  rw [workers, pairwise_flatMap]
  constructor
  · intro p _
    rw [pairwise_map]
    exact pairwise_of_forall fun _ _ => le_refl p
  · refine h.sorted.imp fun {p q} hlt x hx y hy => ?_
    obtain ⟨c, -, rfl⟩ := mem_map.mp hx
    obtain ⟨d, -, rfl⟩ := mem_map.mp hy
    exact hlt.le

/-- The columns of a failed worker, or the end of the bimap for the last one. -/
theorem columnsOfFailed_eq {done todo : List PodID}
    (hsplit : h.contacted written = done ++ p :: todo) :
    columnsOfFailed (h.workers written) p =
      if todo = [] then .error .pastEnd else .ok (written.filter (h.hosted p)) := by
  have hp : p ∈ h.contacted written := by simp [hsplit]
  obtain ⟨hpod, hasked⟩ := mem_filter.mp hp
  obtain ⟨before, after, hpods⟩ := append_of_mem hpod
  have hsorted := h.sorted
  rw [hpods, pairwise_append, pairwise_cons] at hsorted
  obtain ⟨-, ⟨hafter, -⟩, hbefore⟩ := hsorted
  have hbefore' : ∀ q ∈ before, q < p := fun q hq => hbefore q hq p mem_cons_self
  have htodo : (after.filter fun p => written.any (h.hosted p)) = todo := by
    have heq : (before.filter fun p => written.any (h.hosted p)) ++
        p :: (after.filter fun p => written.any (h.hosted p)) = done ++ p :: todo := by
      rw [← hsplit, contacted, hpods, filter_append, filter_cons, if_pos hasked]
    refine ((append_cons_inj_of_notMem ?_ ?_).mp heq).2.2
    · exact fun hq => lt_irrefl p (hbefore' p (mem_filter.mp hq).1)
    · exact fun hq => lt_irrefl p (hafter p (mem_filter.mp hq).1)
  have hworkers : h.workers written = h.pairs written before ++
      ((written.filter (h.hosted p)).map (fun c => (p, c)) ++ h.pairs written after) := by
    rw [workers, hpods, flatMap_append, flatMap_cons]
    rfl
  have hlt : ∀ w ∈ h.pairs written before, w.1 < p := fun w hw => hbefore' _ (fst_of_mem_pairs hw)
  have hgt : ∀ w ∈ h.pairs written after, p < w.1 := fun w hw => hafter _ (fst_of_mem_pairs hw)
  have hrun : ∀ w ∈ (written.filter (h.hosted p)).map (fun c => (p, c)), w.1 = p := by
    intro w hw
    obtain ⟨c, -, rfl⟩ := mem_map.mp hw
    rfl
  have hcolumns : (h.workers written).filter (·.1 = p) =
      (written.filter (h.hosted p)).map fun c => (p, c) := by
    rw [hworkers, filter_eq_run hlt hrun hgt]
  have hrest : (h.workers written).filter (p < ·.1) = h.pairs written after := by
    rw [hworkers, filter_lt_rest hlt hrun hgt]
  have hmem : p ∈ (h.workers written).map Prod.fst := by
    obtain ⟨c, hc, hhost⟩ := any_eq_true.mp hasked
    have hpair : (p, c) ∈ (h.workers written).filter (·.1 = p) :=
      hcolumns ▸ mem_map_of_mem (mem_filter.mpr ⟨hc, hhost⟩)
    exact mem_map_of_mem (mem_filter.mp hpair).1
  have hlast : h.pairs written after = [] ↔ todo = [] := by rw [pairs_eq_nil, htodo]
  simp only [columnsOfFailed_of_sorted (h.workers_sorted written) hmem, hcolumns, hrest, hlast,
    map_map, Function.comp_def, map_id']

def lastFails (h : State) (written : List ColumnID) (fails : PodID → Bool) : Bool :=
  (h.contacted written).getLast?.any fails

/-- The answers are counted one worker at a time. -/
theorem foldlM_processPrepareResult (hnodup : written.Nodup) {done todo : List PodID}
    (hsplit : h.contacted written = done ++ todo) (hr : h.Counts written fails done results) :
    (todo.getLast?.any fails = true ∧ ∃ f, (todo.map fun p =>
      (p, if fails p then none else some (prepareResults (h.revision p) written))).foldlM
        (processPrepareResult (h.workers written)) results = .error f) ∨
    (todo.getLast?.any fails = false ∧ ∃ results', (todo.map fun p =>
      (p, if fails p then none else some (prepareResults (h.revision p) written))).foldlM
        (processPrepareResult (h.workers written)) results = .ok results' ∧
          h.Counts written fails (h.contacted written) results') := by
  induction todo generalizing done results with
  | nil => exact .inr ⟨rfl, results, rfl, by rwa [hsplit, append_nil]⟩
  | cons p todo ih =>
    have hsplit' : h.contacted written = (done ++ [p]) ++ todo := by simp [hsplit]
    rw [map_cons, foldlM_cons]
    cases hp : fails p with
    | false =>
      have hlast : (p :: todo).getLast?.any fails = todo.getLast?.any fails := by
        cases todo with
        | nil => simp [hp]
        | cons q todo => simp
      rw [hlast]
      exact ih hsplit' (hr.answer hnodup hp)
    | true =>
      simp only [processPrepareResult, if_true, columnsOfFailed_eq hsplit]
      by_cases htodo : todo = []
      · subst htodo
        exact .inl ⟨by simpa using hp, _, rfl⟩
      · have hlast : (p :: todo).getLast?.any fails = todo.getLast?.any fails := by
          rw [getLast?_cons_of_ne_nil htodo]
        rw [hlast, if_neg htodo]
        exact ih hsplit' (hr.failed hnodup hp)

theorem prepared_spec (h : State) (fails : PodID → Bool) (hnodup : written.Nodup) :
    (h.lastFails written fails = true ∧ ∃ f, h.prepared written fails = .error f) ∨
    (h.lastFails written fails = false ∧ ∃ results, h.prepared written fails = .ok results ∧
      h.Counts written fails (h.contacted written) results) := by
  rw [prepared, processPrepareResults, tasks_eq]
  exact foldlM_processPrepareResult hnodup (nil_append _).symm counts_empty

end State

end Fastore.Hive
