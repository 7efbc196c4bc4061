import Fastore.Hive.Finalize
import Fastore.Hive.Sync

/-!
Committing a transaction at the workers.

`Commit` of the client sends the writes of a transaction once for each pair
of a worker and a column to be written that it hosts. A worker that hosts
two of the columns gets all writes twice, and raises the revision of both
columns twice. So the workers have the revisions that the stores are told
only if no worker hosts more than one of the columns
(`commit_agrees_iff`).
-/

namespace Fastore.Hive

open Lib Buffer List

variable {R A B : Type} [ColumnBuffer R A B]

/-! ### The messages -/

def Worker.revision (w : Worker B) (c : ColumnID) : Option Revision :=
  (w.repositories c).map (·.revision)

structure Workers (B : Type) where
  pods : List PodID
  sorted : pods.Pairwise (· < ·)
  worker : PodID → Worker B

def Workers.state (h : Workers B) : State where
  pods := h.pods
  sorted := h.sorted
  revision p := (h.worker p).revision

def State.commitMessages (h : State) (written : List ColumnID) : List PodID :=
  (h.workers written).map Prod.fst

def deliver (f : Formats R A) (writes : SortedMap ColumnID (ColumnWrites R A))
    (workers : PodID → Worker B) (p : PodID) : Except WorkerFault (PodID → Worker B) := do
  let w ← (workers p).commit f writes
  .ok (Function.update workers p w)

/-- Every worker that hosts a column to be written has the new revision for it, and
the other columns have the revision they had. -/
def State.Agrees (h : State) (written : List ColumnID) (revisions : SortedMap ColumnID Revision)
    (after : PodID → ColumnID → Option Revision) : Prop :=
  ∀ p ∈ h.pods, ∀ c v, h.revision p c = some v →
    (c ∈ written → ∃ v', revisions.get? c = some v' ∧ after p c = some v') ∧
    (c ∉ written → ∀ v', after p c = some v' → v' = v)

variable {f : Formats R A}

theorem foldlM_deliver {writes : SortedMap ColumnID (ColumnWrites R A)} {ms : List PodID}
    {workers workers' : PodID → Worker B} (h : ms.foldlM (deliver f writes) workers = .ok workers')
    (p : PodID) :
    (List.replicate (ms.count p) writes).foldlM (Worker.commit f) (workers p) = .ok (workers' p) := by
  induction ms generalizing workers with
  | nil =>
    obtain rfl := Except.ok.inj h
    rfl
  | cons q ms ih =>
    rw [foldlM_cons] at h
    obtain ⟨workers₁, hworkers₁, h⟩ := eq_ok_of_bind h
    obtain ⟨w, hw, rfl⟩ := eq_ok_of_map hworkers₁
    have hrest := ih h
    rw [Function.update_apply] at hrest
    by_cases hpq : p = q
    · subst hpq
      rw [if_pos rfl] at hrest
      rw [count_cons_self, replicate_succ, foldlM_cons, hw]
      exact hrest
    · rw [if_neg hpq] at hrest
      rwa [count_cons_of_ne (Ne.symm hpq)]

theorem State.count_commitMessages {h : State} {p : PodID} (hp : p ∈ h.pods) (written : List ColumnID) :
    (h.commitMessages written).count p = (written.filter (h.hosted p)).length := by
  have hzero : ∀ ps : List PodID, p ∉ ps → ((h.pairs written ps).map Prod.fst).count p = 0 := by
    intro ps hps
    refine count_eq_zero.mpr fun hmem => ?_
    obtain ⟨w, hw, rfl⟩ := mem_map.mp hmem
    exact hps (fst_of_mem_pairs hw)
  obtain ⟨before, after, hpods⟩ := append_of_mem hp
  have hnodup : h.pods.Nodup := h.sorted.imp ne_of_lt
  rw [hpods, nodup_append, nodup_cons] at hnodup
  obtain ⟨-, ⟨hafter, -⟩, hbefore⟩ := hnodup
  have hown : ((written.filter (h.hosted p)).map fun c => (p, c)).map Prod.fst =
      List.replicate (written.filter (h.hosted p)).length p := by
    rw [map_map]
    exact map_const' ..
  have hsplit : h.workers written =
      h.pairs written before ++ (((written.filter (h.hosted p)).map fun c => (p, c)) ++
        h.pairs written after) := by
    rw [workers, hpods, flatMap_append, flatMap_cons]
    rfl
  rw [commitMessages, hsplit, map_append, map_append, count_append, count_append,
    hzero before fun hmem => hbefore p hmem p mem_cons_self rfl, hzero after hafter, hown,
    count_replicate_self, Nat.zero_add, Nat.add_zero]

/-! ### Revisions of a worker -/

theorem written_revision {repo : Repository B} {repo' : Option (Repository B)}
    {writes : Option (ColumnWrites R A)} (h : written f (some repo) writes = .ok repo') :
    repo'.map (·.revision) = some (repo.revision + if writes.isSome then 1 else 0) := by
  cases writes with
  | none =>
    rw [← Except.ok.inj h]
    rfl
  | some writes =>
    obtain ⟨repo₁, hrepo₁, h⟩ := eq_ok_of_bind h
    rw [← Except.ok.inj h, Option.map_some, (Repository.apply_eq_ok.mp hrepo₁).2]
    rfl

namespace Worker

variable {f : Formats R A} {w w' : Worker B} {writes : SortedMap ColumnID (ColumnWrites R A)}
  {c : ColumnID} {v : Revision}

theorem isSome_of_revision (hv : w.revision c = some v) : (w.repositories c).isSome := by
  obtain ⟨repo, hrepo, -⟩ := Option.map_eq_some_iff.mp hv
  simp [hrepo]

theorem commit_revision (hw : w.Good) (h : w.commit f writes = .ok w') (hv : w.revision c = some v)
    (hsome : (w'.repositories c).isSome) :
    w'.revision c = some (v + if c ∈ writes.keys then 1 else 0) := by
  obtain ⟨repo, hrepo, rfl⟩ := Option.map_eq_some_iff.mp hv
  have hkept := written_revision (commit_kept hw h hrepo hsome)
  have hget : (writes.get? c).isSome ↔ c ∈ writes.keys := by
    rw [SortedMap.mem_keys, Option.isSome_iff_exists]
  rw [revision, hkept]
  simp only [hget]

omit [ColumnBuffer R A B] in
theorem Good.exists_touched (hw : w.Good) (h : writes.entries.any touches = true) :
    ∃ c ∈ writes.keys, c ≤ maxSystemColumnID ∧ (w.repositories c).isSome := by
  obtain ⟨e, he, htouch⟩ := any_eq_true.mp h
  have hid : e.1 = podColumnPodID ∨ e.1 = podColumnColumnID := by simpa [touches] using htouch
  refine ⟨e.1, mem_map_of_mem he, ?_⟩
  rcases hid with hid | hid <;> rw [hid]
  · exact ⟨by decide, hw.pods⟩
  · exact ⟨by decide, hw.columns⟩

omit [ColumnBuffer R A B] in
theorem Good.exists_stays (hw : w.Good) (hc : c ∈ writes.keys)
    (hsome : (w.repositories c).isSome) : ∃ c₀ ∈ writes.keys, (w.repositories c₀).isSome ∧
      (c₀ ≤ maxSystemColumnID ∨ writes.entries.any touches = false) := by
  cases htouch : writes.entries.any touches with
  | true =>
    obtain ⟨c₀, hc₀, hle, hsome₀⟩ := hw.exists_touched htouch
    exact ⟨c₀, hc₀, hsome₀, .inl hle⟩
  | false => exact ⟨c, hc, hsome, .inr rfl⟩

theorem run_revision {k : ℕ} (hw : w.Good)
    (h : (List.replicate k writes).foldlM (Worker.commit f) w = .ok w')
    (hstay : c ≤ maxSystemColumnID ∨ writes.entries.any touches = false) (hc : c ∈ writes.keys)
    (hv : w.revision c = some v) : w'.revision c = some (v + k) := by
  induction k generalizing w v with
  | zero =>
    obtain rfl := Except.ok.inj h
    exact hv
  | succ k ih =>
    rw [replicate_succ, foldlM_cons] at h
    obtain ⟨w₁, hw₁, h⟩ := eq_ok_of_bind h
    have hv₁ := commit_revision hw hw₁ hv (commit_isSome hw hw₁ hstay (isSome_of_revision hv))
    rw [if_pos hc] at hv₁
    rw [ih (hw.commit hw₁) h hv₁, Nat.add_right_comm, Nat.add_assoc]

end Worker

/-! ### Agreement -/

theorem State.revisions_of_hosted {h : State} {written : List ColumnID} (hnodup : written.Nodup)
    {fails : PodID → Bool} {results : SortedMap ColumnID ColumnWriteResult}
    {revisions : SortedMap ColumnID Revision} (hprep : h.prepared written fails = .ok results)
    (hfin : canFinalizeTransaction results = some revisions) {p : PodID} (hp : p ∈ h.pods)
    {c : ColumnID} (hc : c ∈ written) (hhosted : h.hosted p c = true) :
    revisions.get? c = some (topRevision (h.answers written fails c) + 1) := by
  have hcontacted : p ∈ h.contacted written :=
    mem_filter.mpr ⟨hp, any_eq_true.mpr ⟨c, hc, hhosted⟩⟩
  have hsaid : ¬ (h.answers written fails c = [] ∧ h.failed written fails c = []) := by
    rintro ⟨hanswers, hfailed⟩
    rw [answers_eq hc, map_eq_nil_iff, filter_eq_nil_iff] at hanswers
    rw [failed, failedOf, if_pos hc, filter_eq_nil_iff] at hfailed
    have hfails := hanswers p hcontacted
    have hfailed := hfailed p hcontacted
    simp_all
  rcases h.prepared_spec fails hnodup with ⟨-, fault, hfault⟩ | ⟨-, results', hok, hcounts⟩
  · rw [hfault] at hprep
    cases hprep
  · obtain rfl := ok_unique hok hprep
    rcases canFinalizeTransaction_prepared hcounts with ⟨hall, revisions', hrev, hget⟩ | ⟨-, hnone⟩
    · obtain rfl := some_unique hrev hfin
      exact hget c ((hall c hc).resolve_right hsaid)
    · rw [hnone] at hfin
      cases hfin

theorem State.topRevision_answers_le {h : State} {written : List ColumnID} {fails : PodID → Bool}
    {revision : ColumnID → Revision}
    (hsame : ∀ p ∈ h.pods, ∀ c v, h.revision p c = some v → v = revision c) {c : ColumnID}
    (hc : c ∈ written) : topRevision (h.answers written fails c) ≤ revision c := by
  refine topRevision_le fun a ha => ?_
  rw [answers_eq hc] at ha
  obtain ⟨p, hp, rfl⟩ := mem_map.mp ha
  have hpod : p ∈ h.pods := (mem_filter.mp (mem_filter.mp hp).1).1
  cases hv : h.revision p c with
  | none => simp [reported, hv]
  | some v => simp [reported, hv, hsame p hpod c v hv]

/-- **Revisions**: after the commit messages of a transaction, in any order, the
revisions are those that the stores are told exactly if no worker hosts more
than one of the columns written, and the highest answer for each of them was
the revision it had. -/
theorem commit_agrees_iff {f : Formats R A} {h : Workers B}
    (hgood : ∀ p ∈ h.pods, (h.worker p).Good) {revision : ColumnID → Revision}
    (hsame : ∀ p ∈ h.pods, ∀ c v, h.state.revision p c = some v → v = revision c)
    {writes : SortedMap ColumnID (ColumnWrites R A)} {fails : PodID → Bool}
    {results : SortedMap ColumnID ColumnWriteResult} {revisions : SortedMap ColumnID Revision}
    (hprep : h.state.prepared writes.keys fails = .ok results)
    (hfin : canFinalizeTransaction results = some revisions) {ms : List PodID}
    (hms : ms.Perm (h.state.commitMessages writes.keys)) {workers' : PodID → Worker B}
    (hdeliver : ms.foldlM (deliver f writes) h.worker = .ok workers') :
    h.state.Agrees writes.keys revisions (fun p => (workers' p).revision) ↔
      ∀ p ∈ h.pods, ∀ c ∈ writes.keys, h.state.hosted p c = true →
        (writes.keys.filter (h.state.hosted p)).length = 1 ∧
        topRevision (h.state.answers writes.keys fails c) = revision c := by
  have hrun : ∀ p ∈ h.pods,
      (List.replicate (writes.keys.filter (h.state.hosted p)).length writes).foldlM
      (Worker.commit f) (h.worker p) = .ok (workers' p) := by
    intro p hp
    rw [← State.count_commitMessages hp, ← hms.count_eq]
    exact foldlM_deliver hdeliver p
  have hone : ∀ p ∈ h.pods, (writes.keys.filter (h.state.hosted p)).length = 1 →
      (h.worker p).commit f writes = .ok (workers' p) := by
    intro p hp hlength
    have hcommit := hrun p hp
    rw [hlength] at hcommit
    obtain ⟨w, hw, hcommit⟩ := eq_ok_of_bind hcommit
    rwa [← Except.ok.inj hcommit]
  have hnew : ∀ p ∈ h.pods, ∀ c ∈ writes.keys, h.state.hosted p c = true →
      revisions.get? c = some (topRevision (h.state.answers writes.keys fails c) + 1) :=
    fun p hp c hc => State.revisions_of_hosted writes.keys_nodup hprep hfin hp hc
  have hrevision : ∀ p ∈ h.pods, ∀ c, h.state.hosted p c = true →
      (h.worker p).revision c = some (revision c) := by
    intro p hp c hhosted
    obtain ⟨v, hv⟩ := Option.isSome_iff_exists.mp hhosted
    rw [← hsame p hp c v hv]
    exact hv
  have hsome : ∀ p c, h.state.hosted p c = ((h.worker p).repositories c).isSome :=
    fun p c => Option.isSome_map
  have hstays : ∀ p ∈ h.pods, ∀ c ∈ writes.keys, h.state.hosted p c = true →
      ∃ c₀ ∈ writes.keys, h.state.hosted p c₀ = true ∧
        (c₀ ≤ maxSystemColumnID ∨ writes.entries.any touches = false) := by
    intro p hp c hc hhosted
    simp only [hsome] at hhosted ⊢
    exact (hgood p hp).exists_stays hc hhosted
  constructor
  · intro hagrees p hp c hc hhosted
    have hlength : (writes.keys.filter (h.state.hosted p)).length = 1 := by
      obtain ⟨c₀, hc₀, hhosted₀, hstay⟩ := hstays p hp c hc hhosted
      have hafter := Worker.run_revision (hgood p hp) (hrun p hp) hstay hc₀ (hrevision p hp c₀ hhosted₀)
      obtain ⟨v', hv', hafter'⟩ := (hagrees p hp c₀ _ (hrevision p hp c₀ hhosted₀)).1 hc₀
      rw [hnew p hp c₀ hc₀ hhosted₀] at hv'
      have hle : topRevision (h.state.answers writes.keys fails c₀) ≤ revision c₀ :=
        State.topRevision_answers_le hsame hc₀
      have hpos : 0 < (writes.keys.filter (h.state.hosted p)).length :=
        length_pos_of_mem (mem_filter.mpr ⟨hc, hhosted⟩)
      have hone : ∀ r k t : ℕ, t ≤ r → 0 < k → r + k = t + 1 → k = 1 := by omega
      exact hone _ _ _ hle hpos
        ((some_unique hafter hafter').trans (Option.some.inj hv').symm)
    refine ⟨hlength, ?_⟩
    obtain ⟨v', hv', hafter⟩ := (hagrees p hp c _ (hrevision p hp c hhosted)).1 hc
    rw [hnew p hp c hc hhosted] at hv'
    have hraised := Worker.commit_revision (hgood p hp) (hone p hp hlength)
      (hrevision p hp c hhosted) (Worker.isSome_of_revision hafter)
    rw [if_pos hc] at hraised
    exact Nat.succ.inj ((Option.some.inj hv').trans (some_unique hraised hafter).symm)
  · intro hcond p hp c v hv
    have hhosted : h.state.hosted p c = true := by simp [State.hosted, hv]
    obtain rfl := hsame p hp c v hv
    constructor
    · intro hc
      obtain ⟨hlength, htop⟩ := hcond p hp c hc hhosted
      -- the only column of the worker that is written stays
      have hstay : c ≤ maxSystemColumnID ∨ writes.entries.any touches = false := by
        obtain ⟨c₀, hc₀, hhosted₀, hstay⟩ := hstays p hp c hc hhosted
        obtain ⟨c₁, hc₁⟩ := length_eq_one_iff.mp hlength
        have hmem := mem_filter.mpr ⟨hc, hhosted⟩
        have hmem₀ := mem_filter.mpr ⟨hc₀, hhosted₀⟩
        rw [hc₁, mem_singleton] at hmem hmem₀
        rwa [hmem, ← hmem₀]
      have hcommit := hone p hp hlength
      have hraised := Worker.commit_revision (hgood p hp) hcommit hv
        (Worker.commit_isSome (hgood p hp) hcommit hstay ((hsome p c).symm.trans hhosted))
      rw [if_pos hc] at hraised
      exact ⟨_, hnew p hp c hc hhosted, hraised.trans (by rw [htop])⟩
    · intro hc v' hv'
      by_cases hasked : ∃ c' ∈ writes.keys, h.state.hosted p c' = true
      · obtain ⟨c', hc', hhosted'⟩ := hasked
        have hkept := Worker.commit_revision (hgood p hp) (hone p hp (hcond p hp c' hc' hhosted').1)
          hv (Worker.isSome_of_revision hv')
        rw [if_neg hc] at hkept
        exact some_unique hv' hkept
      · have hnone : writes.keys.filter (h.state.hosted p) = [] :=
          filter_eq_nil_iff.mpr fun c' hc' hhosted' => hasked ⟨c', hc', hhosted'⟩
        have hcommit := hrun p hp
        rw [hnone] at hcommit
        have hv'' : (h.worker p).revision c = some v' :=
          (congrArg (fun w => w.revision c) (Except.ok.inj hcommit)).trans hv'
        exact some_unique hv'' hv

/-! ### A worker with two columns -/

def assignTwo : SortedMap ColumnID (ColumnWrites ℕ ℕ) where
  entries := [(2, { includes := [⟨10000, textNumber "Long"⟩, ⟨10001, textNumber "Long"⟩] }),
    (3, { includes := [⟨10000, textNumber "Long"⟩, ⟨10001, textNumber "Long"⟩] }),
    (4, { includes := [⟨10000, 2⟩, ⟨10001, 2⟩] }), (400, { includes := [⟨7, 1⟩, ⟨8, 1⟩] }),
    (401, { includes := [⟨7, 10000⟩, ⟨8, 10001⟩] })]
  sorted := by decide

def oneWorker : Workers (Index.Column ℕ ℕ) where
  pods := [1]
  sorted := by decide
  worker _ :=
    match Worker.bootstrap numberFormats 1 >>= fun w => w.commit numberFormats assignTwo with
    | .ok w => w
    | .error _ => ⟨1, fun _ => none⟩

def writeOne : SortedMap ColumnID (ColumnWrites ℕ ℕ) where
  entries := [(10000, { includes := [⟨1, 5⟩] })]
  sorted := by decide

def writeTwo : SortedMap ColumnID (ColumnWrites ℕ ℕ) where
  entries := [(10000, { includes := [⟨1, 5⟩] }), (10001, { includes := [⟨1, 6⟩] })]
  sorted := by decide

theorem oneWorker_good : ∀ p ∈ oneWorker.pods, (oneWorker.worker p).Good := by
  intro p _
  have hok : (Worker.bootstrap numberFormats 1 >>= fun w : NumberWorker =>
      w.commit numberFormats assignTwo).isOk = true := by decide +kernel
  rw [oneWorker]
  cases hrun : Worker.bootstrap numberFormats 1 >>= fun w : NumberWorker =>
      w.commit numberFormats assignTwo with
  | error e =>
    rw [hrun] at hok
    cases hok
  | ok w =>
    obtain ⟨w₀, hw₀, hw⟩ := eq_ok_of_bind hrun
    exact (Worker.good_bootstrap hw₀).commit hw

def Workers.transaction (f : Formats R A) (h : Workers B)
    (writes : SortedMap ColumnID (ColumnWrites R A)) :
    Option (SortedMap ColumnID Revision × (PodID → Worker B)) := do
  let results ← (h.state.prepared writes.keys fun _ => false).toOption
  let revisions ← canFinalizeTransaction results
  let workers' ← ((h.state.commitMessages writes.keys).foldlM (deliver f writes) h.worker).toOption
  some (revisions, workers')

theorem Workers.transaction_eq_some {h : Workers B} {writes : SortedMap ColumnID (ColumnWrites R A)}
    {revisions : SortedMap ColumnID Revision} {workers' : PodID → Worker B}
    (ht : h.transaction f writes = some (revisions, workers')) :
    ∃ results, h.state.prepared writes.keys (fun _ => false) = .ok results ∧
      canFinalizeTransaction results = some revisions ∧
      (h.state.commitMessages writes.keys).foldlM (deliver f writes) h.worker = .ok workers' := by
  obtain ⟨results, hresults, ht⟩ := Option.bind_eq_some_iff.mp ht
  obtain ⟨revisions', hrevisions, ht⟩ := Option.bind_eq_some_iff.mp ht
  obtain ⟨workers₁, hworkers, ht⟩ := Option.bind_eq_some_iff.mp ht
  obtain ⟨rfl, rfl⟩ := Prod.mk.inj (Option.some.inj ht)
  exact ⟨results, eq_ok_of_toOption hresults, hrevisions, eq_ok_of_toOption hworkers⟩

/-- One of the two columns is written. -/
theorem commit_agrees_one : ∃ revisions workers',
    oneWorker.transaction numberFormats writeOne = some (revisions, workers') ∧
    oneWorker.state.Agrees writeOne.keys revisions (fun p => (workers' p).revision) := by
  have hsome : (oneWorker.transaction numberFormats writeOne).isSome = true := by decide +kernel
  obtain ⟨⟨revisions, workers'⟩, ht⟩ := Option.isSome_iff_exists.mp hsome
  obtain ⟨results, hprep, hfin, hdeliver⟩ := Workers.transaction_eq_some ht
  have hsame : ∀ p ∈ oneWorker.pods, ∀ c v, oneWorker.state.revision p c = some v →
      v = (oneWorker.state.revision 1 c).getD 0 := by
    intro p hp c v hv
    obtain rfl : p = 1 := by simpa [oneWorker] using hp
    rw [hv, Option.getD_some]
  refine ⟨revisions, workers', ht,
    (commit_agrees_iff oneWorker_good hsame hprep hfin (.refl _) hdeliver).mpr ?_⟩
  intro p hp c hc _
  obtain rfl : p = 1 := by simpa [oneWorker] using hp
  obtain rfl : c = 10000 := by simpa [writeOne, SortedMap.keys] using hc
  decide +kernel

/-- A worker that hosts two of the columns raises their revisions twice. -/
theorem commit_raises_twice : ∃ revisions workers',
    oneWorker.transaction numberFormats writeTwo = some (revisions, workers') ∧
    revisions.get? 10000 = some 1 ∧ (workers' 1).revision 10000 = some 2 := by
  have hrun : (oneWorker.transaction numberFormats writeTwo).map (fun t =>
      (t.1.get? 10000, (t.2 1).revision 10000)) = some (some 1, some 2) := by decide +kernel
  obtain ⟨⟨revisions, workers'⟩, ht, heq⟩ := Option.map_eq_some_iff.mp hrun
  obtain ⟨hnew, hrevision⟩ := Prod.mk.inj heq
  exact ⟨revisions, workers', ht, hnew, hrevision⟩

end Fastore.Hive
