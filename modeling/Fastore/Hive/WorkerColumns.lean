import Fastore.Hive.AttemptRead

/-!
The pairs of workers and columns of a transaction.

A client joins the columns of every worker with the columns to be written
(`Cache.determineWorkers`), asks the workers of the pairs (`WorkerColumns.tasks`)
and goes along the pairs of every worker that has not answered
(`processPrepareResults`). The relation is exactly the one asked for
(`mem_determineWorkers`), and for a hive it gives the workers to be asked
(`State.workers_eq_determineWorkers`). The walk along the pairs of a worker stops at a pair
of another worker, so it is right for all workers but the last, behind whose
pairs there is none (`processPrepareResults_iff`).
-/

namespace Fastore.Hive

open Lib List SortedMap

abbrev WorkerColumns := Pairing PodID ColumnID

/-! ### Finding the workers -/

/-- The loop over the columns of a worker and the columns to be written. On a match
only the former goes on. -/
def joinLoop (podID : PodID) : List ColumnID → List ColumnID → List (PodID × ColumnID)
  | [], _ => []
  | _ :: _, [] => []
  | infoCol :: ids, writeCol :: writes =>
    if infoCol = writeCol then (podID, writeCol) :: joinLoop podID ids (writeCol :: writes)
    else if infoCol < writeCol then joinLoop podID ids (writeCol :: writes)
    else joinLoop podID (infoCol :: ids) writes
  termination_by ids writes => ids.length + writes.length

/-- `DetermineWorkers`, by the columns of the schema and those to be written. -/
def determineWorkers (workerStates : SortedMap PodID WorkerState) (schema writes : List ColumnID) :
    WorkerColumns :=
  let systemColumns := schema.filter (· ≤ maxSystemColumnID)
  workerStates.entries.foldl (fun results ws =>
    (joinLoop ws.1 (ws.2.ids systemColumns) writes).foldl Pairing.insert results) .empty

def Cache.determineWorkers {D W : Type} (cache : Cache) (schema : SortedMap ColumnID D)
    (writes : SortedMap ColumnID W) : WorkerColumns :=
  Hive.determineWorkers cache.workerStates schema.keys writes.keys

/-- The join over two sorted lists. -/
theorem joinLoop_eq (podID : PodID) {ids writes : List ColumnID} (hids : ids.Pairwise (· < ·))
    (hwrites : writes.Pairwise (· < ·)) :
    joinLoop podID ids writes = (writes.filter (· ∈ ids)).map (podID, ·) := by
  fun_induction joinLoop podID ids writes with
  | case1 writes => simp
  | case2 infoCol ids => rfl
  | case3 ids infoCol writes ih =>
    have hafter := (pairwise_cons.mp hwrites).1
    have hnot : infoCol ∉ ids := fun hmem => (lt_irrefl _ ((pairwise_cons.mp hids).1 _ hmem))
    rw [ih (pairwise_cons.mp hids).2 hwrites, filter_cons_of_neg (by simpa using hnot),
      filter_cons_of_pos (by simp), map_cons]
    refine congrArg (_ :: map _ ·) (filter_congr fun c hc => ?_)
    simp [(hafter c hc).ne']
  | case4 infoCol ids writeCol writes hne hlt ih =>
    rw [ih (pairwise_cons.mp hids).2 hwrites]
    refine congrArg (map _ ·) (filter_congr fun c hc => ?_)
    have hle : infoCol < c := by
      rcases mem_cons.mp hc with rfl | hc
      · exact hlt
      · exact hlt.trans ((pairwise_cons.mp hwrites).1 c hc)
    simp [hle.ne']
  | case5 infoCol ids writeCol writes hne hge ih =>
    have hpassed : writeCol < infoCol := lt_of_le_of_ne (not_lt.mp hge) (Ne.symm hne)
    have hnot : writeCol ∉ infoCol :: ids := fun hmem => by
      rcases mem_cons.mp hmem with rfl | hmem
      · exact hne rfl
      · exact lt_asymm hpassed ((pairwise_cons.mp hids).1 _ hmem)
    rw [ih hids (pairwise_cons.mp hwrites).2, filter_cons_of_neg (by simpa using hnot)]

section Determine

variable {workerStates : SortedMap PodID WorkerState} {schema writes : List ColumnID}

/-- What is joined for one worker after the other comes in the order of the relation. -/
theorem pairs_determineWorkers (hschema : schema.Nodup) (hwrites : writes.Pairwise (· < ·)) :
    (determineWorkers workerStates schema writes).pairs = workerStates.entries.flatMap fun ws =>
      (writes.filter (· ∈ ws.2.ids (schema.filter (· ≤ maxSystemColumnID)))).map (ws.1, ·) := by
  simp only [determineWorkers, joinLoop_eq _ (WorkerState.ids_sorted _ hschema) hwrites,
    ← foldl_flatMap]
  refine Pairing.pairs_foldl_insert (r := .empty) ?_ ?_ <;> rw [Pairing.empty, nil_append]
  · refine pairwise_flatMap.mpr ⟨fun ws _ => pairwise_map.mpr (pairwise_of_forall fun _ _ => le_rfl),
      workerStates.sorted.imp fun hlt x hx y hy => ?_⟩
    obtain ⟨_, -, rfl⟩ := mem_map.mp hx
    obtain ⟨_, -, rfl⟩ := mem_map.mp hy
    exact hlt.le
  · refine nodup_flatMap.mpr ⟨fun ws _ => ?_, workerStates.sorted.imp fun hlt x hx hy => ?_⟩
    · exact Nodup.map (fun c c' hc => (Prod.mk.inj hc).2) ((hwrites.imp ne_of_lt).filter _)
    · obtain ⟨_, -, rfl⟩ := mem_map.mp hx
      obtain ⟨_, -, heq⟩ := mem_map.mp hy
      exact hlt.ne' (Prod.mk.inj heq).1

/-- The pairs of a hive of which the client knows the columns. -/
theorem State.workers_eq_determineWorkers (h : State) (hschema : schema.Nodup)
    (hwrites : writes.Pairwise (· < ·)) (hpods : workerStates.keys = h.pods)
    (hhosted : ∀ ws ∈ workerStates.entries, ∀ c ∈ writes, h.hosted ws.1 c = true ↔
      c ∈ ws.2.ids (schema.filter (· ≤ maxSystemColumnID))) :
    h.workers writes = (determineWorkers workerStates schema writes).pairs := by
  rw [pairs_determineWorkers hschema hwrites, workers, ← hpods, SortedMap.keys, flatMap_map]
  refine flatMap_congr fun ws hws => congrArg (map _ ·) (filter_congr fun c hc => ?_)
  rw [Bool.eq_iff_iff, hhosted ws hws c hc, decide_eq_true_eq]

end Determine

/-- **The pairs of a transaction**: the written columns that are system columns of the
schema or online on the worker, each pair once. -/
theorem mem_determineWorkers {D W : Type} (cache : Cache) (schema : SortedMap ColumnID D)
    (writes : SortedMap ColumnID W) :
    (cache.determineWorkers schema writes).pairs.Nodup ∧
    ∀ p c, (p, c) ∈ (cache.determineWorkers schema writes).pairs ↔
      ∃ state, cache.workerStates.get? p = some state ∧ c ∈ writes.keys ∧
        (c ∈ schema.keys ∧ c ≤ maxSystemColumnID ∨
          maxSystemColumnID < c ∧ state.repositoryStatus.get? c = some .online) := by
  refine ⟨(cache.determineWorkers schema writes).nodup, fun p c => ?_⟩
  rw [Cache.determineWorkers, pairs_determineWorkers schema.keys_nodup writes.keys_sorted]
  simp only [mem_flatMap, mem_map, mem_filter, decide_eq_true_eq, WorkerState.mem_ids,
    get?_eq_some]
  constructor
  · rintro ⟨⟨q, state⟩, hws, c', hc, heq⟩
    obtain ⟨rfl, rfl⟩ := Prod.mk.inj heq
    exact ⟨state, hws, hc⟩
  · rintro ⟨state, hws, hc⟩
    exact ⟨(p, state), hws, c, hc, rfl⟩

/-! ### The tasks -/

/-- `Apply`: a task for every worker with a pair, by what it comes to. A worker that
fails or is late has no answer. -/
def WorkerColumns.tasks (workers : WorkerColumns)
    (answers : PodID → Option (SortedMap ColumnID PrepareResult)) :
    List (PodID × Option (List (ColumnID × PrepareResult))) :=
  (workers.pairs.foldl (fun tasks worker =>
    insertNew tasks worker.1 ((answers worker.1).map (·.entries))) .empty).entries

section Tasks

variable (workers : WorkerColumns) (answers : PodID → Option (SortedMap ColumnID PrepareResult))

theorem get?_foldl_insertNew {V : Type} (value : PodID → V) (pairs : List (PodID × ColumnID))
    (tasks : SortedMap PodID V) (p : PodID) :
    (pairs.foldl (fun tasks worker => insertNew tasks worker.1 (value worker.1)) tasks).get? p =
      if p ∈ pairs.map Prod.fst then some ((tasks.get? p).getD (value p)) else tasks.get? p := by
  induction pairs generalizing tasks with
  | nil => simp
  | cons x pairs ih =>
    rw [foldl_cons, ih, get?_insertNew, map_cons]
    by_cases hx : p = x.1
    · simp [hx]
    · by_cases hp : p ∈ pairs.map Prod.fst
      · rw [if_pos hp, if_neg hx, if_pos (mem_cons_of_mem _ hp)]
      · rw [if_neg hp, if_neg hx, if_neg (not_mem_cons_of_ne_of_not_mem hx hp)]

theorem WorkerColumns.tasks_eq :
    workers.tasks answers = workers.lefts.map fun p => (p, (answers p).map (·.entries)) := by
  have hsorted : (workers.lefts.map fun p => (p, (answers p).map (·.entries))).Pairwise
      (·.1 < ·.1) := pairwise_map.mpr workers.lefts_sorted
  suffices h : workers.pairs.foldl (fun tasks worker =>
      insertNew tasks worker.1 ((answers worker.1).map (·.entries))) .empty =
      ⟨_, hsorted⟩ from congrArg entries h
  refine ext_get? fun p => ?_
  rw [get?_foldl_insertNew (fun p => (answers p).map (·.entries))]
  by_cases hp : p ∈ workers.pairs.map Prod.fst
  · rw [if_pos hp]
    exact (get?_eq_some.mpr
      (mem_map_of_mem (Pairing.mem_lefts.mpr hp))).symm
  · rw [if_neg hp]
    refine (get?_eq_none.mpr fun hkey => hp ?_).symm
    rw [SortedMap.keys, map_map] at hkey
    obtain ⟨q, hq, rfl⟩ := mem_map.mp hkey
    exact Pairing.mem_lefts.mp hq

end Tasks

/-! ### The failed workers -/

variable {workers : WorkerColumns} {answers : PodID → Option (SortedMap ColumnID PrepareResult)}
  {results : SortedMap ColumnID ColumnWriteResult}

def failedOn (results : SortedMap ColumnID ColumnWriteResult) (c : ColumnID) : List PodID :=
  ((results.get? c).getD {}).failedWorkers

/-- After some workers, those of them that have failed are listed for their columns. -/
def FailedIn (workers : WorkerColumns) (answers : PodID → Option (SortedMap ColumnID PrepareResult))
    (done : List PodID)
    (results : SortedMap ColumnID ColumnWriteResult) : Prop :=
  ∀ c, failedOn results c = done.filter fun p => (answers p).isNone && workers.pairs.contains (p, c)

theorem failedOn_addAnswer (p : PodID) (prepareResults : List (ColumnID × PrepareResult))
    (results : SortedMap ColumnID ColumnWriteResult) (c : ColumnID) :
    failedOn (prepareResults.foldl (fun results prepareResult =>
      results.update {} prepareResult.1 (·.addAnswer prepareResult.2 p)) results) c =
        failedOn results c := by
  induction prepareResults generalizing results with
  | nil => rfl
  | cons prepareResult prepareResults ih =>
    rw [foldl_cons, ih, failedOn, failedOn, get?_update]
    split
    · rename_i hc
      rw [hc]
      rfl
    · rfl

variable {p : PodID}

theorem FailedIn.answer {done : List PodID} (h : FailedIn workers answers done results)
    {prepareResults : SortedMap ColumnID PrepareResult} (hp : answers p = some prepareResults) :
    ∃ results', processPrepareResult workers.pairs results (p, (answers p).map (·.entries)) =
      .ok results' ∧ FailedIn workers answers (done ++ [p]) results' := by
  rw [hp]
  refine ⟨_, rfl, fun c => ?_⟩
  rw [failedOn_addAnswer, h c, filter_append]
  simp [hp]

theorem nodup_columns (workers : WorkerColumns) (p : PodID) :
    ((workers.pairs.filter (·.1 = p)).map Prod.snd).Nodup := by
  refine (workers.nodup.filter _).map_on fun x hx y hy hc => ?_
  have hx : x.1 = p := by simpa using (mem_filter.mp hx).2
  have hy : y.1 = p := by simpa using (mem_filter.mp hy).2
  exact Prod.ext (hx.trans hy.symm) hc

theorem mem_columns {c : ColumnID} :
    c ∈ (workers.pairs.filter (·.1 = p)).map Prod.snd ↔ (p, c) ∈ workers.pairs := by
  simp only [mem_map, mem_filter, decide_eq_true_eq]
  constructor
  · rintro ⟨x, ⟨hx, rfl⟩, rfl⟩
    exact hx
  · intro hx
    exact ⟨(p, c), ⟨hx, rfl⟩, rfl⟩

theorem FailedIn.failed {done todo : List PodID} (h : FailedIn workers answers done results)
    (hsplit : workers.lefts = done ++ p :: todo) (htodo : todo ≠ []) (hp : answers p = none) :
    ∃ results', processPrepareResult workers.pairs results (p, (answers p).map (·.entries)) =
      .ok results' ∧ FailedIn workers answers (done ++ [p]) results' := by
  have hmem : p ∈ workers.pairs.map Prod.fst := Pairing.mem_lefts.mp (by simp [hsplit])
  have hcolumns := columnsOfFailed_of_sorted workers.sorted hmem
  rw [if_neg fun hnil => htodo ((Pairing.filter_lt_eq_nil hsplit).mp hnil)] at hcolumns
  refine ⟨_, by simp only [processPrepareResult, hp, Option.map_none, hcolumns]; rfl, fun c => ?_⟩
  have hget := get?_foldl_update (m := results) (j := c) {}
    (fun _ writeResult => ColumnWriteResult.addFailed writeResult p) (nodup_columns workers p)
  rw [failedOn, hget, filter_append, ← h c]
  by_cases hc : (p, c) ∈ workers.pairs
  · rw [if_pos (mem_columns.mpr hc), Option.getD_some]
    simp [ColumnWriteResult.addFailed, failedOn, hp, hc]
  · rw [if_neg fun hm => hc (mem_columns.mp hm)]
    simp [failedOn, hc]

theorem processPrepareResult_pastEnd {done : List PodID} (hsplit : workers.lefts = done ++ [p])
    (hp : answers p = none) (results : SortedMap ColumnID ColumnWriteResult) :
    processPrepareResult workers.pairs results (p, (answers p).map (·.entries)) =
      .error .pastEnd := by
  have hmem : p ∈ workers.pairs.map Prod.fst := Pairing.mem_lefts.mp (by simp [hsplit])
  have hcolumns := columnsOfFailed_of_sorted workers.sorted hmem
  rw [if_pos ((Pairing.filter_lt_eq_nil hsplit).mpr rfl)] at hcolumns
  simp only [processPrepareResult, hp, Option.map_none, hcolumns]
  rfl

/-- The workers that fail are collected. -/
theorem foldlM_failed {done todo : List PodID} (hsplit : workers.lefts = done ++ todo)
    (h : FailedIn workers answers done results) :
    (∃ p, todo.getLast? = some p ∧ answers p = none ∧
      (todo.map fun p => (p, (answers p).map (·.entries))).foldlM
        (processPrepareResult workers.pairs) results = .error .pastEnd) ∨
    ((∀ p, todo.getLast? = some p → answers p ≠ none) ∧ ∃ results',
      (todo.map fun p => (p, (answers p).map (·.entries))).foldlM
        (processPrepareResult workers.pairs) results = .ok results' ∧
      FailedIn workers answers workers.lefts results') := by
  induction todo generalizing done results with
  | nil => exact .inr ⟨by simp, results, rfl, by rwa [hsplit, append_nil]⟩
  | cons p todo ih =>
    have hsplit' : workers.lefts = (done ++ [p]) ++ todo := by simp [hsplit]
    rw [map_cons, foldlM_cons]
    cases todo with
    | nil =>
      -- the last worker
      obtain hp | ⟨prepareResults, hp⟩ := Option.eq_none_or_eq_some (answers p)
      · refine .inl ⟨p, rfl, hp, ?_⟩
        rw [processPrepareResult_pastEnd hsplit hp]
        rfl
      · obtain ⟨results', hok, h'⟩ := h.answer hp
        refine .inr ⟨fun q hq => ?_, results', ?_, hsplit ▸ h'⟩
        · obtain rfl := Option.some.inj hq
          simp [hp]
        · rw [hok]
          rfl
    | cons q todo =>
      obtain ⟨results', hok, h'⟩ : ∃ results',
          processPrepareResult workers.pairs results (p, (answers p).map (·.entries)) =
            .ok results' ∧ FailedIn workers answers (done ++ [p]) results' := by
        obtain hp | ⟨prepareResults, hp⟩ := Option.eq_none_or_eq_some (answers p)
        · exact h.failed hsplit (cons_ne_nil _ _) hp
        · exact h.answer hp
      rw [hok, getLast?_cons_cons]
      exact ih hsplit' h'

/-- For each column, exactly the workers paired with it that have failed, each once. -/
structure FailedExactly (workers : WorkerColumns)
    (answers : PodID → Option (SortedMap ColumnID PrepareResult))
    (results : SortedMap ColumnID ColumnWriteResult) : Prop where
  once : ∀ c, (failedOn results c).Nodup
  exactly : ∀ c p, p ∈ failedOn results c ↔ (p, c) ∈ workers.pairs ∧ answers p = none

theorem FailedIn.exactly (h : FailedIn workers answers workers.lefts results) :
    FailedExactly workers answers results := by
  refine ⟨fun c => ?_, fun c p => ?_⟩
  · rw [h c]
    exact (workers.lefts_sorted.imp ne_of_lt).filter _
  · rw [h c, mem_filter, Bool.and_eq_true, Option.isNone_iff_eq_none, contains_iff_mem,
      Pairing.mem_lefts]
    exact ⟨fun hp => hp.2.symm, fun hp => ⟨mem_map_of_mem hp.1, hp.symm⟩⟩

/-- **The failed workers**: for every relation and all answers, the end of the relation is
not passed and the failed workers are the right ones exactly if the last worker has
answered. -/
theorem processPrepareResults_iff (workers : WorkerColumns)
    (answers : PodID → Option (SortedMap ColumnID PrepareResult)) :
    (∃ results, processPrepareResults workers.pairs (workers.tasks answers) = .ok results ∧
        FailedExactly workers answers results) ↔
      ∀ p, workers.lefts.getLast? = some p → answers p ≠ none := by
  rw [WorkerColumns.tasks_eq, processPrepareResults]
  have hstart : FailedIn workers answers [] .empty := fun _ => rfl
  rcases foldlM_failed (nil_append _).symm hstart with
    ⟨p, hlast, hp, hend⟩ | ⟨hlast, results, hok, hfailed⟩
  · refine iff_of_false ?_ fun h => h p hlast hp
    rintro ⟨results, hok, -⟩
    rw [hend] at hok
    cases hok
  · exact iff_of_true ⟨results, hok, hfailed.exactly⟩ hlast

def onePair : WorkerColumns := Pairing.empty.insert (1, 10000)

/-- If it fails, the loop reads on behind its pair. -/
theorem processPrepareResults_pastEnd :
    processPrepareResults onePair.pairs (onePair.tasks fun _ => none) = .error .pastEnd := rfl

end Fastore.Hive
