import Fastore.Hive.Sync

/-!
Loading the workers from the log.

When the log of its store has been read, the scheduler fills the workers
(`populateWorkers`): column by column it asks the store for one revision after
the other and sends its writes to a worker. Then it starts the store.

The connections to the workers are kept by pod, but the scheduler asks for the
one of the column. So the writes of a column get to a worker only if there is
a pod with the ID of the column, and if it is this pod that hosts it
(`recovered_iff`).
-/

namespace Fastore.Hive

open Lib Buffer List Function Worker

variable {R A B : Type} [ColumnBuffer R A B]

/-! ### The worker -/

namespace Worker

variable (f : Formats R A) (w : Worker B)

def findRepo (id : ColumnID) : Except WorkerFault (Repository B) :=
  match w.repositories id with
  | some repo => .ok repo
  | none => .error (.thrown "Can't find repo!")

def loadBegin (id : ColumnID) : Except WorkerFault (Worker B) := do
  let _ ← w.findRepo id
  .ok w

def loadWrite (id : ColumnID) (writes : ColumnWrites R A) : Except WorkerFault (Worker B) := do
  let repo ← w.findRepo id
  let repo ← repo.apply f (repo.revision + 1) writes
  .ok (w.set id (some repo))

def loadEnd (id : ColumnID) (revision : Revision) : Except WorkerFault (Worker B) := do
  let repo ← w.findRepo id
  .ok (w.set id (some { repo with revision := revision }))

end Worker

/-! ### The scheduler -/

inductive Sent
  | write (pod : PodID) (column : ColumnID) (revision : Revision)
  | start
  deriving DecidableEq, Repr

structure Loading (B : Type) where
  workers : PodID → Option (Worker B)
  sent : List Sent

def numbered (log : List (ColumnWrites R A)) : List (Revision × ColumnWrites R A) :=
  (log.zipIdx 1).map fun e => (e.2, e.1)

def getWrites (log : List (ColumnWrites R A)) (lo hi : Revision) :
    List (Revision × ColumnWrites R A) :=
  (numbered log).filter fun e => lo ≤ e.1 ∧ e.1 ≤ hi

namespace Loading

variable (f : Formats R A) (s : Loading B)

/-- `_workers[pod]`. -/
def worker (pod : PodID) : Except WorkerFault (Worker B) :=
  match s.workers pod with
  | some w => .ok w
  | none => .error (.thrown "no worker found")

def setWorker (pod : PodID) (w : Worker B) : Loading B :=
  { s with workers := update s.workers pod (some w) }

def loadWrite (column : ColumnID) (write : Revision × ColumnWrites R A) :
    Except WorkerFault (Loading B) := do
  -- the ID of the column is taken for the ID of a pod
  let w ← s.worker column
  let w ← w.loadWrite f column write.2
  .ok { s.setWorker column w with sent := s.sent ++ [.write column column write.1] }

def populateColumn (column : ColumnID × List (ColumnWrites R A)) :
    Except WorkerFault (Loading B) := do
  let maxRevision := column.2.length
  let w ← s.worker column.1
  let _ ← w.loadBegin column.1
  let s ← (List.range (maxRevision + 1)).foldlM (fun s currentRevision =>
    (getWrites column.2 currentRevision currentRevision).foldlM
      (fun s write => s.loadWrite f column.1 write) s) s
  let w ← s.worker column.1
  let w ← w.loadEnd column.1 maxRevision
  .ok (s.setWorker column.1 w)

def populateWorkers (log : SortedMap ColumnID (List (ColumnWrites R A))) :
    Except WorkerFault (Loading B) := do
  let s ← log.entries.foldlM (fun s column => s.populateColumn f column) s
  .ok { s with sent := s.sent ++ [.start] }

end Loading

/-! ### The revisions of a column -/

section Revisions

variable {log : List (ColumnWrites R A)}

theorem numbered_concat (log : List (ColumnWrites R A)) (ws : ColumnWrites R A) :
    numbered (log ++ [ws]) = numbered log ++ [(log.length + 1, ws)] := by
  simp [numbered, zipIdx_append, Nat.add_comm]

theorem le_length_of_mem_numbered {e : Revision × ColumnWrites R A} (he : e ∈ numbered log) :
    e.1 ≤ log.length := by
  obtain ⟨⟨ws, i⟩, hmem, rfl⟩ := mem_map.mp he
  have hlt : i < 1 + log.length := snd_lt_add_of_mem_zipIdx hmem
  rw [Nat.add_comm] at hlt
  exact Nat.le_of_lt_succ hlt

theorem getWrites_concat (ws : ColumnWrites R A) (r : Revision) :
    getWrites (log ++ [ws]) r r =
      getWrites log r r ++ if r = log.length + 1 then [(log.length + 1, ws)] else [] := by
  rw [getWrites, numbered_concat, filter_append, getWrites]
  congr 1
  by_cases hr : r = log.length + 1
  · simp [hr]
  · rw [if_neg hr, filter_eq_nil_iff]
    intro e he
    obtain rfl := mem_singleton.mp he
    simp only [decide_eq_true_eq]
    exact fun h => hr (le_antisymm h.1 h.2)

theorem flatMap_getWrites (log : List (ColumnWrites R A)) :
    (List.range (log.length + 1)).flatMap (fun r => getWrites log r r) = numbered log := by
  induction log using List.reverseRecOn with
  | nil => rfl
  | append_singleton log ws ih =>
    have hold : (List.range (log.length + 1)).flatMap (fun r => getWrites (log ++ [ws]) r r) =
        numbered log := by
      rw [← ih]
      refine flatMap_congr fun r hr => ?_
      rw [getWrites_concat, if_neg (mem_range.mp hr).ne, append_nil]
    have hnone : getWrites log (log.length + 1) (log.length + 1) = [] := by
      refine filter_eq_nil_iff.mpr fun e he => ?_
      have hle := le_length_of_mem_numbered he
      simp only [decide_eq_true_eq, not_and]
      exact fun h => absurd (h.trans hle) (Nat.not_succ_le_self _)
    rw [length_append, length_singleton, range_succ, flatMap_append, hold,
      flatMap_singleton, getWrites_concat, if_pos rfl, hnone, nil_append,
      numbered_concat]

theorem map_snd_numbered (log : List (ColumnWrites R A)) : (numbered log).map (·.2) = log := by
  induction log using List.reverseRecOn with
  | nil => rfl
  | append_singleton log ws ih => rw [numbered_concat, map_append, ih]; rfl

theorem map_fst_numbered (log : List (ColumnWrites R A)) :
    (numbered log).map (·.1) = (List.range log.length).map (· + 1) := by
  induction log using List.reverseRecOn with
  | nil => rfl
  | append_singleton log ws ih =>
    rw [numbered_concat, map_append, ih, length_append, length_singleton,
      range_succ, map_append]
    rfl

end Revisions

/-! ### Loading a column -/

def Repository.replay (f : Formats R A) (repo : Repository B)
    (log : List (ColumnWrites R A)) : Except WorkerFault (Repository B) :=
  log.foldlM (fun repo writes => repo.apply f (repo.revision + 1) writes) repo

theorem Repository.revision_replay {f : Formats R A} {repo repo' : Repository B}
    {log : List (ColumnWrites R A)} (h : repo.replay f log = .ok repo') :
    repo'.revision = repo.revision + log.length := by
  induction log generalizing repo with
  | nil =>
    obtain rfl := Except.ok.inj h
    rfl
  | cons ws log ih =>
    rw [replay, foldlM_cons] at h
    obtain ⟨repo₁, h₁, h⟩ := eq_ok_of_bind h
    obtain ⟨buffer, -, rfl⟩ := eq_ok_of_map h₁
    rw [ih h, length_cons, Nat.add_assoc, Nat.add_comm 1]

namespace Loading

variable {f : Formats R A} {s s' : Loading B} {c : ColumnID} {w : Worker B}
  {repo repo' : Repository B} {log : List (ColumnWrites R A)}

def loaded (s : Loading B) (c : ColumnID) (w : Worker B) (repo : Repository B)
    (revisions : List Revision) : Loading B where
  workers := update s.workers c (some (w.set c (some repo)))
  sent := s.sent ++ revisions.map (.write c c)

@[simp] theorem workers_loaded_self (rs : List Revision) :
    (s.loaded c w repo rs).workers c = some (w.set c (some repo)) :=
  update_self ..

theorem workers_loaded_of_ne {p : PodID} (hp : p ≠ c) (rs : List Revision) :
    (s.loaded c w repo rs).workers p = s.workers p :=
  update_of_ne hp ..

theorem loadWrites (es : List (Revision × ColumnWrites R A)) (rs : List Revision)
    (h : repo.replay f (es.map (·.2)) = .ok repo') :
    es.foldlM (fun s write => s.loadWrite f c write) (s.loaded c w repo rs) =
      .ok (s.loaded c w repo' (rs ++ es.map (·.1))) := by
  induction es generalizing repo rs with
  | nil =>
    obtain rfl := Except.ok.inj h
    simp
    rfl
  | cons e es ih =>
    rw [map_cons, Repository.replay, foldlM_cons] at h
    obtain ⟨repo₁, h₁, h⟩ := eq_ok_of_bind h
    have hstep : (s.loaded c w repo rs).loadWrite f c e =
        .ok (s.loaded c w repo₁ (rs ++ [e.1])) := by
      simp [loadWrite, worker, loaded, Worker.loadWrite, Worker.findRepo, Worker.set, h₁, bind,
        Except.bind, setWorker]
    rw [foldlM_cons, hstep]
    have hrest := ih (rs ++ [e.1]) h
    rw [append_assoc] at hrest
    exact hrest

theorem populateColumn_of_hosted (hw : s.workers c = some w) (hrepo : w.repositories c = some repo)
    (hzero : repo.revision = 0) (hreplay : repo.replay f log = .ok repo') :
    s.populateColumn f (c, log) =
      .ok (s.loaded c w repo' ((List.range log.length).map (· + 1))) := by
  have hstart : s.loaded c w repo [] = s := by
    simp [loaded, set_self hrepo, ← hw]
  have hloads : (List.range (log.length + 1)).foldlM (fun s r =>
      (getWrites log r r).foldlM (fun s write => s.loadWrite f c write) s) s =
        .ok (s.loaded c w repo' ((List.range log.length).map (· + 1))) := by
    rw [foldlM_flatMap, flatMap_getWrites, ← map_fst_numbered]
    nth_rewrite 1 [← hstart]
    exact loadWrites (numbered log) [] (by rw [map_snd_numbered, hreplay])
  have hrevision : ({ repo' with revision := log.length } : Repository B) = repo' := by
    have hn := Repository.revision_replay hreplay
    rw [hzero, Nat.zero_add] at hn
    rw [← hn]
  have hworker : s.worker c = .ok w := by rw [worker, hw]
  have hbegin : w.loadBegin c = .ok w := by rw [loadBegin, findRepo, hrepo]; rfl
  -- the revision that the worker is given at the end is the one it has
  have hend : (w.set c (some repo')).loadEnd c log.length = .ok (w.set c (some repo')) := by
    simp [loadEnd, findRepo, bind, Except.bind, hrevision, set_self]
  have hlast : (s.loaded c w repo' ((List.range log.length).map (· + 1))).worker c =
      .ok (w.set c (some repo')) := by
    simp [worker, loaded]
  simp only [populateColumn, hworker, hbegin, hloads, hlast, hend, bind, Except.bind, setWorker]
  simp [loaded]

theorem hosted_of_populateColumn (h : s.populateColumn f (c, log) = .ok s') :
    ∃ w repo, s.workers c = some w ∧ w.repositories c = some repo := by
  obtain ⟨w, hw, h⟩ := eq_ok_of_bind h
  obtain ⟨w', hbegin, -⟩ := eq_ok_of_bind h
  obtain ⟨repo, hrepo, -⟩ := eq_ok_of_bind hbegin
  refine ⟨w, repo, ?_, ?_⟩
  · rw [worker] at hw
    split at hw
    · rename_i hsome
      rw [hsome, Except.ok.inj hw]
    · cases hw
  · rw [findRepo] at hrepo
    split at hrepo
    · rename_i hsome
      rw [hsome, Except.ok.inj hrepo]
    · cases hrepo

/-! ### Loading the columns -/

/-- The columns are new wherever they are, and take the writes that were committed. -/
def Fresh (f : Formats R A) (workers : PodID → Option (Worker B))
    (columns : List (ColumnID × List (ColumnWrites R A))) : Prop :=
  ∀ c log, (c, log) ∈ columns → ∀ p w repo, workers p = some w → w.repositories c = some repo →
    repo.revision = 0 ∧ ∃ repo', repo.replay f log = .ok repo'

def Hosted (workers : PodID → Option (Worker B)) (c : ColumnID) : Prop :=
  ∃ w repo, workers c = some w ∧ w.repositories c = some repo

def loads (column : ColumnID × List (ColumnWrites R A)) : List Sent :=
  (List.range column.2.length).map fun r => .write column.1 column.1 (r + 1)

theorem loaded_fresh {columns : List (ColumnID × List (ColumnWrites R A))} {rs : List Revision}
    (hfresh : Fresh f s.workers columns) (hw : s.workers c = some w)
    (hc : c ∉ columns.map (·.1)) : Fresh f (s.loaded c w repo rs).workers columns := by
  intro c' log hmem p w' repo₁ hw' hrepo₁
  have hne : c' ≠ c := fun h => hc (mem_map.mpr ⟨_, hmem, h⟩)
  by_cases hp : p = c
  · subst hp
    rw [workers_loaded_self] at hw'
    obtain rfl := Option.some.inj hw'
    rw [repositories_set, if_neg hne] at hrepo₁
    exact hfresh c' log hmem p w repo₁ hw hrepo₁
  · rw [workers_loaded_of_ne hp] at hw'
    exact hfresh c' log hmem p w' repo₁ hw' hrepo₁

/-- Every column is sent to its worker. -/
theorem populateColumns (columns : List (ColumnID × List (ColumnWrites R A)))
    (hnodup : (columns.map (·.1)).Nodup) (hfresh : Fresh f s.workers columns)
    (hhosted : ∀ e ∈ columns, Hosted s.workers e.1) :
    ∃ s', columns.foldlM (fun s column => s.populateColumn f column) s = .ok s' ∧
      s'.sent = s.sent ++ columns.flatMap loads ∧
      (∀ p ∉ columns.map (·.1), s'.workers p = s.workers p) ∧
      ∀ e ∈ columns, ∃ w repo w' repo', s.workers e.1 = some w ∧ w.repositories e.1 = some repo ∧
        s'.workers e.1 = some w' ∧ w'.repositories e.1 = some repo' ∧
        repo.replay f e.2 = .ok repo' := by
  induction columns generalizing s with
  | nil => exact ⟨s, rfl, by simp, by simp, by simp⟩
  | cons e columns ih =>
    obtain ⟨c, log⟩ := e
    rw [map_cons, nodup_cons] at hnodup
    obtain ⟨w, repo, hw, hrepo⟩ := hhosted (c, log) mem_cons_self
    obtain ⟨hzero, repo', hreplay⟩ := hfresh c log mem_cons_self c w repo hw hrepo
    have hhead := populateColumn_of_hosted (c := c) hw hrepo hzero hreplay
    set s₁ := s.loaded c w repo' ((List.range log.length).map (· + 1)) with hs₁
    have hne : ∀ e ∈ columns, e.1 ≠ c := fun e he h => hnodup.1 (mem_map.mpr ⟨e, he, h⟩)
    have hother : ∀ p ≠ c, s₁.workers p = s.workers p := fun p hp => workers_loaded_of_ne hp _
    have hfresh₁ : Fresh f s₁.workers columns :=
      loaded_fresh (fun c log h => hfresh c log (mem_cons_of_mem _ h)) hw hnodup.1
    have hhosted₁ : ∀ e ∈ columns, Hosted s₁.workers e.1 := by
      intro e he
      rw [Hosted, hother e.1 (hne e he)]
      exact hhosted e (mem_cons_of_mem _ he)
    obtain ⟨s', hs', hsent, hkept, hrest⟩ := ih hnodup.2 hfresh₁ hhosted₁
    refine ⟨s', ?_, ?_, fun p hp => ?_, fun e he => ?_⟩
    · rw [foldlM_cons, hhead]
      exact hs'
    · have hsent₁ : s₁.sent = s.sent ++ loads (c, log) := by
        simp [hs₁, loaded, loads, comp_def]
      rw [hsent, hsent₁, flatMap_cons, append_assoc]
    · rw [map_cons, mem_cons, not_or] at hp
      rw [hkept p hp.2, hother p hp.1]
    · rcases mem_cons.mp he with rfl | he
      · refine ⟨w, repo, w.set c (some repo'), repo', hw, hrepo, ?_, by simp, hreplay⟩
        rw [hkept c hnodup.1, workers_loaded_self]
      · obtain ⟨w₁, repo₁, w₁', repo₁', hw₁, h⟩ := hrest e he
        rw [hother e.1 (hne e he)] at hw₁
        exact ⟨w₁, repo₁, w₁', repo₁', hw₁, h⟩

theorem hosted_of_populateColumns (columns : List (ColumnID × List (ColumnWrites R A)))
    (hnodup : (columns.map (·.1)).Nodup) (hfresh : Fresh f s.workers columns)
    (h : columns.foldlM (fun s column => s.populateColumn f column) s = .ok s') :
    ∀ e ∈ columns, Hosted s.workers e.1 := by
  induction columns generalizing s with
  | nil => simp
  | cons e columns ih =>
    obtain ⟨c, log⟩ := e
    rw [map_cons, nodup_cons] at hnodup
    rw [foldlM_cons] at h
    obtain ⟨s₁, h₁, h⟩ := eq_ok_of_bind h
    obtain ⟨w, repo, hw, hrepo⟩ := hosted_of_populateColumn h₁
    obtain ⟨hzero, repo', hreplay⟩ := hfresh c log mem_cons_self c w repo hw hrepo
    rw [populateColumn_of_hosted hw hrepo hzero hreplay] at h₁
    obtain rfl := Except.ok.inj h₁
    have hrest := ih hnodup.2
      (loaded_fresh (fun c log h => hfresh c log (mem_cons_of_mem _ h)) hw hnodup.1) h
    intro e he
    rcases mem_cons.mp he with rfl | he
    · exact ⟨w, repo, hw, hrepo⟩
    · have hne : e.1 ≠ c := fun h => hnodup.1 (mem_map.mpr ⟨e, he, h⟩)
      have hhost := hrest e he
      rwa [Hosted, workers_loaded_of_ne hne] at hhost

end Loading

/-! ### Recovery -/

def Sent.loadsColumn (c : ColumnID) : Sent → Bool
  | .write _ column _ => column = c
  | .start => false

/-- Each logged column has been sent revision by revision to a pod that hosts it, has
there what it had when it was committed, and the store has been started after that. -/
structure Restored (f : Formats R A) (workers : PodID → Option (Worker B))
    (log : SortedMap ColumnID (List (ColumnWrites R A))) (s' : Loading B) : Prop where
  started : ∃ loads, s'.sent = loads ++ [.start] ∧ .start ∉ loads
  columns : ∀ c writes, (c, writes) ∈ log.entries →
    ∃ p w repo w' repo', workers p = some w ∧ w.repositories c = some repo ∧
      s'.sent.filter (Sent.loadsColumn c) =
        (List.range writes.length).map (fun r => .write p c (r + 1)) ∧
      s'.workers p = some w' ∧ w'.repositories c = some repo' ∧
      repo.replay f writes = .ok repo' ∧ repo'.revision = writes.length

theorem filter_loads (c : ColumnID) (column : ColumnID × List (ColumnWrites R A)) :
    (Loading.loads column).filter (Sent.loadsColumn c) =
      if column.1 = c then Loading.loads column else [] := by
  by_cases hc : column.1 = c <;>
    simp [Loading.loads, Sent.loadsColumn, filter_map, comp_def, hc]

theorem filter_flatMap_loads {columns : List (ColumnID × List (ColumnWrites R A))}
    (hnodup : (columns.map (·.1)).Nodup) {e : ColumnID × List (ColumnWrites R A)}
    (he : e ∈ columns) :
    (columns.flatMap Loading.loads).filter (Sent.loadsColumn e.1) = Loading.loads e := by
  induction columns with
  | nil => cases he
  | cons e' columns ih =>
    rw [map_cons, nodup_cons] at hnodup
    rw [flatMap_cons, filter_append, filter_loads]
    rcases mem_cons.mp he with rfl | he
    · have hnone : (columns.flatMap Loading.loads).filter (Sent.loadsColumn e.1) = [] := by
        refine filter_eq_nil_iff.mpr fun m hm => ?_
        obtain ⟨e', he', hm⟩ := mem_flatMap.mp hm
        obtain ⟨r, -, rfl⟩ := mem_map.mp hm
        simp only [Sent.loadsColumn, decide_eq_true_eq]
        exact fun h => hnodup.1 (mem_map.mpr ⟨e', he', h⟩)
      rw [if_pos rfl, hnone, append_nil]
    · have hne : e'.1 ≠ e.1 := fun h => hnodup.1 (mem_map.mpr ⟨e, he, h.symm⟩)
      rw [if_neg hne, ih hnodup.2 he, nil_append]

/-- **Recovery**: a log is restored iff each of its columns is hosted by the pod that has
the column's own ID. -/
theorem recovered_iff {f : Formats R A} {workers : PodID → Option (Worker B)}
    {log : SortedMap ColumnID (List (ColumnWrites R A))}
    (hfresh : Loading.Fresh f workers log.entries) :
    (∃ s', Loading.populateWorkers f ⟨workers, []⟩ log = .ok s' ∧ Restored f workers log s') ↔
      ∀ e ∈ log.entries, Loading.Hosted workers e.1 := by
  have hnodup : (log.entries.map (·.1)).Nodup := log.keys_nodup
  constructor
  · rintro ⟨s', h, -⟩
    obtain ⟨s₁, h₁, -⟩ := eq_ok_of_bind h
    exact Loading.hosted_of_populateColumns log.entries hnodup hfresh h₁
  · intro hhosted
    obtain ⟨s₁, h₁, hsent, -, hcolumns⟩ :=
      Loading.populateColumns (s := ⟨workers, []⟩) log.entries hnodup hfresh hhosted
    rw [nil_append] at hsent
    refine ⟨{ s₁ with sent := s₁.sent ++ [.start] }, ?_, ⟨s₁.sent, rfl, ?_⟩, fun c writes hmem => ?_⟩
    · rw [Loading.populateWorkers, h₁]
      rfl
    · rw [hsent]
      simp [Loading.loads]
    · obtain ⟨w, repo, w', repo', hw, hrepo, hw', hrepo', hreplay⟩ := hcolumns _ hmem
      refine ⟨c, w, repo, w', repo', hw, hrepo, ?_, hw', hrepo', hreplay, ?_⟩
      · rw [filter_append, hsent, filter_flatMap_loads hnodup hmem]
        simp [Sent.loadsColumn, Loading.loads]
      · rw [Repository.revision_replay hreplay, (hfresh c writes hmem c w repo hw hrepo).1,
          Nat.zero_add]

def replayedRevisions : SortedMap ColumnID (List (ColumnWrites ℕ ℕ)) where
  entries := [(10000, [{ includes := [⟨3, 5⟩, ⟨4, 5⟩] }, { includes := [⟨5, 6⟩], excludes := [3] }])]
  sorted := by decide

def hostOf (podId : PodID) : PodID → Option NumberWorker :=
  update (fun _ => none) podId
    (some ⟨podId, update (fun _ => none) 10000 (some ⟨ColumnBuffer.new .multi, 0⟩)⟩)

/-- Pod 10000 hosts column 10000. -/
theorem recovered_iff_same : ∃ s',
    Loading.populateWorkers numberFormats ⟨hostOf 10000, []⟩ replayedRevisions = .ok s' ∧
    Restored numberFormats (hostOf 10000) replayedRevisions s' := by
  have hfresh : Loading.Fresh numberFormats (hostOf 10000) replayedRevisions.entries := by
    intro c log hmem p w repo hw hrepo
    obtain ⟨rfl, rfl⟩ := Prod.mk.inj (mem_singleton.mp hmem)
    by_cases hp : p = 10000
    · rw [hp, hostOf, update_self] at hw
      obtain rfl := Option.some.inj hw
      obtain rfl := Option.some.inj hrepo
      exact ⟨rfl, _, rfl⟩
    · rw [hostOf, update_of_ne hp] at hw
      cases hw
  refine (recovered_iff hfresh).mpr fun e he => ?_
  rw [mem_singleton.mp he]
  exact ⟨_, _, update_self .., rfl⟩

/-- Pod 1 hosts column 10000. The column is not restored and the store not started. -/
theorem populateWorkers_no_pod : ∃ w₀ w : NumberWorker, bootstrap numberFormats 1 = .ok w₀ ∧
    w₀.commit numberFormats assignColumn = .ok w ∧
    (w.repositories 10000).map (·.revision) = some 0 ∧
    (Loading.populateWorkers numberFormats ⟨update (fun _ => none) 1 (some w), []⟩
      replayedRevisions).toOption.isNone := by
  have hrun : (bootstrap numberFormats 1 >>= fun w₀ : NumberWorker =>
      w₀.commit numberFormats assignColumn).toOption.any
        (fun w => (w.repositories 10000).map (·.revision) == some 0) = true := by decide +kernel
  obtain ⟨w, hok, hrevision⟩ := exists_ok_of_any hrun
  obtain ⟨w₀, hw₀, hw⟩ := eq_ok_of_bind hok
  exact ⟨w₀, w, hw₀, hw, by simpa using hrevision, rfl⟩

end Fastore.Hive
