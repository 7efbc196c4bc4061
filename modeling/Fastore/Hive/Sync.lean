import Fastore.Hive.Schema

/-!
The repositories of a worker and the `PodColumn` table.

After a commit that writes the table, a worker should have the repositories
of the columns that the table assigns to its pod. `syncToSchema` reads the
first rows of the pod, and the column of each. It does nothing if there are
no rows, so the last column of a pod stays (`commit_keeps_last`); it reads
a column that is not set if a row is in one column of the table only; and
the commit goes on with a repository that may have been erased. Where none
of this happens the worker follows the table (`commit_synced_iff`).

The buffers are those in memory. What is written to the table has to leave
its trees exact; it does through every run in which no exclude makes them
move their entries in one of the ways they do not get right (`cells_of_run`).
-/

namespace Fastore.Hive

open Lib Buffer List Worker

variable {R A B : Type} [ColumnBuffer R A B]

namespace Worker

section Commits

variable {f : Formats R A} {w w' w₁ w₂ : Worker B}
  {writes : SortedMap ColumnID (ColumnWrites R A)}

/-! ### After a commit -/

theorem writesTo_filter (p : ColumnID → Bool) (entries : List (ColumnID × ColumnWrites R A))
    (id : ColumnID) :
    writesTo (entries.filter fun e => p e.1) id = if p id then writesTo entries id else none := by
  rw [writesTo, find?_filter, writesTo]
  cases hp : p id with
  | false =>
    rw [if_neg (by simp), Option.map_eq_none_iff, find?_eq_none]
    rintro e - h
    obtain ⟨he, hid⟩ : p e.1 = true ∧ e.1 = id := by simpa using h
    rw [hid, hp] at he
    cases he
  | true =>
    rw [if_pos rfl]
    congr 2
    funext e
    by_cases h : e.1 = id <;> simp [h, hp]

theorem writesTo_upTo (id : ColumnID) :
    writesTo (upTo writes) id = if id ≤ podColumnColumnID then writes.get? id else none := by
  rw [upTo, writesTo_filter fun c => c ≤ podColumnColumnID]
  simp only [decide_eq_true_eq]
  rfl

theorem writesTo_behind (id : ColumnID) :
    writesTo (behind writes) id = if id ≤ podColumnColumnID then none else writes.get? id := by
  rw [behind, writesTo_filter fun c => !decide (c ≤ podColumnColumnID)]
  by_cases h : id ≤ podColumnColumnID
  · simp [h]
  · simp only [h, decide_false, Bool.not_false, if_true, if_false]
    rfl

variable {id : ColumnID}

theorem writesTo_dropWhile {p : ColumnID → Bool} (entries : List (ColumnID × ColumnWrites R A))
    (hid : p id = false) :
    writesTo (entries.dropWhile fun e => p e.1) id = writesTo entries id := by
  have hnone : (entries.takeWhile fun e => p e.1).find? (fun e => e.1 = id) = none := by
    refine find?_eq_none.mpr fun e he heq => ?_
    have hp := mem_takeWhile_imp he
    rw [show e.1 = id by simpa using heq, hid] at hp
    cases hp
  have happend := takeWhile_append_dropWhile (p := fun e => p e.1) (l := entries)
  rw [writesTo, writesTo]
  nth_rewrite 2 [← happend]
  rw [find?_append, hnone, Option.none_or]

variable {ids : List ColumnID}

theorem Created.isSome_iff (h : Created f (w.dropRepos ids) ids w')
    (hid : maxSystemColumnID < id) : (w'.repositories id).isSome ↔ id ∈ ids := by
  constructor
  · intro hsome
    by_contra hn
    have hdrop : (w.dropRepos ids).repositories id = none := if_pos ⟨hn, hid⟩
    rw [h.kept id (.inr hn), hdrop] at hsome
    cases hsome
  · intro hmem
    cases hrepo : (w.dropRepos ids).repositories id with
    | some repo => exact h.isSome (by simp [hrepo])
    | none =>
      obtain ⟨buffer, -, hnew⟩ := h.new id hmem hrepo
      simp [hnew]

theorem Created.kept_of_isSome (h : Created f (w.dropRepos ids) ids w')
    (hw : (w.repositories id).isSome) (hw' : (w'.repositories id).isSome) :
    w'.repositories id = w.repositories id := by
  have hid : id ∈ ids ∨ id ≤ maxSystemColumnID := by
    by_contra hn
    push Not at hn
    exact hn.1 ((h.isSome_iff hn.2).mp hw')
  have hsome : ((w.dropRepos ids).repositories id).isSome := by rwa [repositories_dropRepos hid]
  rw [h.kept id (.inl hsome), repositories_dropRepos hid]

theorem syncToSchema_kept (hw : w.Good) (h : w.syncToSchema f = .ok w')
    (hsome : (w.repositories id).isSome) (hsome' : (w'.repositories id).isSome) :
    w'.repositories id = w.repositories id := by
  obtain rfl | ⟨ids, hcreated⟩ := created_of_syncToSchema hw h
  · rfl
  · exact hcreated.kept_of_isSome hsome hsome'

theorem syncToSchema_system (hw : w.Good) (h : w.syncToSchema f = .ok w')
    (hid : id ≤ maxSystemColumnID) (hsome : (w.repositories id).isSome) :
    w'.repositories id = w.repositories id := by
  obtain rfl | ⟨ids, hcreated⟩ := created_of_syncToSchema hw h
  · rfl
  · have hdrop : (w.dropRepos ids).repositories id = w.repositories id :=
      repositories_dropRepos (.inr hid)
    rw [hcreated.kept id (.inl (by rwa [hdrop])), hdrop]

/-- A repository that stays takes the writes to its column. -/
theorem commit_kept (hw : w.Good) (h : w.commit f writes = .ok w') {repo : Repository B}
    (hrepo : w.repositories id = some repo) (hsome : (w'.repositories id).isSome) :
    written f (some repo) (writes.get? id) = .ok (w'.repositories id) := by
  rw [commit_eq] at h
  obtain ⟨w₁, hw₁, h⟩ := eq_ok_of_bind h
  have hnodup₁ := nodup_upTo writes
  have hgood := hw.applyWrites hnodup₁ hw₁
  have hupTo := ((applyWrites_iff hnodup₁).mp hw₁).2 id
  have hsome₁ : (w₁.repositories id).isSome := by
    rw [isSome_of_written hupTo, hrepo]
    rfl
  -- the two parts of the writes come together, for one of them is empty at the column
  have hjoin : written f (w₁.repositories id) (writesTo (behind writes) id) = .ok (w'.repositories id) →
      written f (some repo) (writes.get? id) = .ok (w'.repositories id) := by
    intro hbehind
    rw [hrepo, writesTo_upTo] at hupTo
    rw [writesTo_behind] at hbehind
    split at hupTo
    · rename_i hid
      rw [if_pos hid, written_none] at hbehind
      rw [hupTo, Except.ok.inj hbehind]
    · rename_i hid
      rw [written_none] at hupTo
      rw [if_neg hid, ← Except.ok.inj hupTo] at hbehind
      exact hbehind
  split at h
  · obtain ⟨w₂, hw₂, -, h⟩ := finish_eq_ok.mp h
    have hrest := ((applyWrites_iff (nodup_dropWhile_behind writes _)).mp h).2 id
    have hsome₂ : (w₂.repositories id).isSome := by
      rwa [isSome_of_written hrest] at hsome
    rw [syncToSchema_kept hgood hw₂ hsome₁ hsome₂,
      writesTo_dropWhile (p := fun c => (w₁.repositories c).isNone) _
        (by simpa [Option.isSome_iff_ne_none] using hsome₁)] at hrest
    exact hjoin hrest
  · exact hjoin (((applyWrites_iff (nodup_behind writes)).mp h).2 id)

theorem applyWrites_ok {entries : List (ColumnID × ColumnWrites R A)}
    (hnodup : (entries.map Prod.fst).Nodup)
    (h : ∀ e ∈ entries, ∀ repo, w.repositories e.1 = some repo →
      ∃ buffer, ColumnBuffer.apply f.rowText repo.buffer e.2 = .ok buffer) :
    ∃ w', w.applyWrites f entries = .ok w' := by
  have hall : ∀ id, ∃ repo, written f (w.repositories id) (writesTo entries id) = .ok repo := by
    intro id
    cases hwrites : writesTo entries id with
    | none => exact ⟨_, written_none _⟩
    | some writes =>
      cases hrepo : w.repositories id with
      | none => exact ⟨none, rfl⟩
      | some repo =>
        obtain ⟨e, he, rfl⟩ := Option.map_eq_some_iff.mp hwrites
        have hid : e.1 = id := by simpa using find?_some he
        obtain ⟨buffer, hok⟩ := h e (mem_of_find?_eq_some he) repo (hid ▸ hrepo)
        have happly : repo.apply f (repo.revision + 1) e.2 = .ok ⟨buffer, repo.revision + 1⟩ :=
          Repository.apply_eq_ok.mpr ⟨hok, rfl⟩
        exact ⟨some ⟨buffer, repo.revision + 1⟩, by rw [written, happly]; rfl⟩
  choose repositories hrepositories using hall
  exact ⟨⟨w.podId, repositories⟩, (applyWrites_iff hnodup).mpr ⟨rfl, hrepositories⟩⟩

theorem exists_created
    (h : ∀ id ∈ ids, w.repositories id = none → ∃ buffer, newBuffer f w id = .ok buffer) :
    ∃ w', Created f w ids w' := by
  classical
  have hall : ∀ id, ∃ repo, ((w.repositories id).isSome ∨ id ∉ ids → repo = w.repositories id) ∧
      (id ∈ ids → w.repositories id = none →
        ∃ buffer, newBuffer f w id = .ok buffer ∧ repo = some ⟨buffer, 0⟩) := by
    intro id
    by_cases hnew : id ∈ ids ∧ w.repositories id = none
    · obtain ⟨buffer, hbuffer⟩ := h id hnew.1 hnew.2
      exact ⟨some ⟨buffer, 0⟩, fun hold => by simp [hnew] at hold, fun _ _ => ⟨buffer, hbuffer, rfl⟩⟩
    · exact ⟨w.repositories id, fun _ => rfl, fun hid hnone => absurd ⟨hid, hnone⟩ hnew⟩
  choose repositories hkept hnew using hall
  exact ⟨⟨w.podId, repositories⟩, rfl, hkept, hnew⟩

theorem podId_of_syncToSchema (hw : w.Good) (h : w.syncToSchema f = .ok w') : w'.podId = w.podId := by
  obtain rfl | ⟨ids, hcreated⟩ := created_of_syncToSchema hw h
  · rfl
  · exact hcreated.podId

theorem finish_spec (hw : w.Good) (h : w.finish f (behind writes) = .ok w') :
    ∃ w₂, w.syncToSchema f = .ok w₂ ∧
      (∀ e ∈ (behind writes).find? fun e => (w.repositories e.1).isSome,
        (w₂.repositories e.1).isSome) ∧
      w'.podId = w.podId ∧ (∀ id, (w'.repositories id).isSome = (w₂.repositories id).isSome) ∧
      ∀ id ≤ podColumnColumnID, (w.repositories id).isSome →
        w'.repositories id = w.repositories id := by
  obtain ⟨w₂, hw₂, hfound, h⟩ := finish_eq_ok.mp h
  obtain ⟨hpod, hrest⟩ := (applyWrites_iff (nodup_dropWhile_behind writes _)).mp h
  refine ⟨w₂, hw₂, hfound, hpod.trans (podId_of_syncToSchema hw hw₂),
    fun id => isSome_of_written (hrest id), fun id hid hsome => ?_⟩
  have hnone : writesTo ((behind writes).dropWhile fun e => (w.repositories e.1).isNone) id = none := by
    rw [writesTo_eq_none, mem_map]
    rintro ⟨e, he, rfl⟩
    exact absurd hid (Nat.not_le.mpr (lt_of_mem_behind ((dropWhile_sublist _).subset he)))
  have hsystem : w₂.repositories id = w.repositories id :=
    syncToSchema_system hw hw₂ (hid.trans (by decide)) hsome
  have hsame := hrest id
  rw [hnone, written_none, hsystem] at hsame
  exact (Except.ok.inj hsame).symm

theorem commit_isSome (hw : w.Good) (h : w.commit f writes = .ok w')
    (hstay : id ≤ maxSystemColumnID ∨ writes.entries.any touches = false)
    (hsome : (w.repositories id).isSome) : (w'.repositories id).isSome := by
  rw [commit_eq] at h
  obtain ⟨w₁, hw₁, h⟩ := eq_ok_of_bind h
  have hnodup₁ := nodup_upTo writes
  have hnodup₂ := nodup_behind writes
  have hsome₁ : (w₁.repositories id).isSome := by
    rwa [isSome_of_applyWrites hnodup₁ hw₁]
  split at h
  · rename_i htouch
    obtain ⟨w₂, hw₂, -, -, hsame, -⟩ := finish_spec (hw.applyWrites hnodup₁ hw₁) h
    rw [hsame, syncToSchema_system (hw.applyWrites hnodup₁ hw₁) hw₂
      (hstay.resolve_right (by simp [htouch])) hsome₁]
    exact hsome₁
  · rwa [isSome_of_applyWrites hnodup₂ h]

/-- The repositories behind the table, old and new, take their writes. -/
def Taken (f : Formats R A) (w : Worker B) (writes : SortedMap ColumnID (ColumnWrites R A)) : Prop :=
  ∀ e ∈ behind writes, ∀ buffer,
    ((∃ v, w.repositories e.1 = some ⟨buffer, v⟩) ∨ newBuffer f w e.1 = .ok buffer) →
      ∃ buffer', ColumnBuffer.apply f.rowText buffer e.2 = .ok buffer'

theorem finish_ok (htaken : Taken f w₁ writes) (hw₁ : w₁.Good) {w₂ : Worker B}
    (hw₂ : w₁.syncToSchema f = .ok w₂)
    (hfound : ∀ e ∈ (behind writes).find? fun e => (w₁.repositories e.1).isSome,
      (w₂.repositories e.1).isSome) : ∃ w', w₁.finish f (behind writes) = .ok w' := by
  have hnodup := nodup_dropWhile_behind writes fun e => (w₁.repositories e.1).isNone
  obtain ⟨w', hw'⟩ := applyWrites_ok (w := w₂) (f := f) hnodup fun e he repo hrepo => by
    refine htaken e ((dropWhile_sublist _).subset he) repo.buffer ?_
    by_cases hsome : (w₁.repositories e.1).isSome
    · have hsame := syncToSchema_kept hw₁ hw₂ hsome (by simp [hrepo])
      exact .inl ⟨repo.revision, hsame.symm.trans hrepo⟩
    · obtain rfl | ⟨ids, hcreated⟩ := created_of_syncToSchema hw₁ hw₂
      · simp [hrepo] at hsome
      · rw [← newBuffer_dropRepos ids]
        exact .inr (hcreated.newBuffer_eq (dropRepos_none (by simpa using hsome)) hrepo)
  exact ⟨w', finish_eq_ok.mpr ⟨w₂, hw₂, hfound, hw'⟩⟩

end Commits

/-! ### What the table assigns -/

variable [LinearOrder R] [LinearOrder A] [Index.Memory R A] {f : Formats R A}
  {w w' w₁ w₂ : Worker (Index.Column R A)} {writes : SortedMap ColumnID (ColumnWrites R A)}
  {P Q : R → Option A} {rows : List R}

variable {id : ColumnID}

theorem Cells.commit {M : R → Option A} (h : w.Cells id M) (hw : w.Good)
    (hle : id ≤ maxSystemColumnID) (htakes : takes writes w id = true)
    (hok : w.commit f writes = .ok w') :
    w'.Cells id ((writes.get? id).elim M (applyTo False M)) := by
  obtain ⟨b, v, hrepo, hM⟩ := h
  have hsome := commit_isSome hw hok (.inl hle) (by simp [hrepo])
  exact Cells.written ⟨b, v, hrepo, hM⟩ htakes (hrepo ▸ commit_kept hw hok hrepo hsome)

theorem Cells.upTo {M : R → Option A} (h : w.Cells id M) (hle : id ≤ podColumnColumnID)
    (htakes : takes writes w id = true) (hok : w.applyWrites f (upTo writes) = .ok w') :
    w'.Cells id ((writes.get? id).elim M (applyTo False M)) := by
  have hwritten := ((applyWrites_iff (nodup_upTo writes)).mp hok).2 id
  rw [writesTo_upTo, if_pos hle] at hwritten
  exact h.written htakes hwritten

/-- The trees of the table are exact through every run that they take the writes of. -/
theorem cells_of_run {podId : PodID} {w₀ : Worker (Index.Column R A)}
    {ms : List (SortedMap ColumnID (ColumnWrites R A))} (hboot : bootstrap f podId = .ok w₀)
    (hrun : ms.foldlM (commit f) w₀ = .ok w)
    (hid : id = podColumnPodID ∨ id = podColumnColumnID)
    (htakes : guarded (commit f) (fun w writes => takes writes w id) w₀ ms = true) :
    ∃ M, w.Cells id M := by
  have hcells := cells_of_bootstrap hboot hid
  have hgood := good_bootstrap hboot
  clear hboot
  generalize (fun _ => none : R → Option A) = M at hcells
  induction ms generalizing w₀ M with
  | nil =>
    obtain rfl := Except.ok.inj hrun
    exact ⟨M, hcells⟩
  | cons writes ms ih =>
    rw [foldlM_cons] at hrun
    obtain ⟨w₁, hw₁, hrun⟩ := eq_ok_of_bind hrun
    rw [guarded, hw₁, Bool.and_eq_true] at htakes
    have hle : id ≤ maxSystemColumnID := by rcases hid with rfl | rfl <;> decide
    exact ih hrun htakes.2 (hgood.commit hw₁) _ (hcells.commit hgood hle htakes.1 hw₁)

/-- The `PodColumn` table assigns a column to the pod of the worker. -/
def Assigned (f : Formats R A) (w : Worker (Index.Column R A)) (id : ColumnID) : Prop :=
  ∃ P Q r v, w.Cells podColumnPodID P ∧ w.Cells podColumnColumnID Q ∧
    P r = some (f.podText w.podId) ∧ Q r = some v ∧ f.columnOf v = id

/-- The worker after a commit has the repositories that the table assigns, and
those it had before only have the writes of the commit on top. -/
structure Synced (f : Formats R A) (w : Worker (Index.Column R A))
    (writes : SortedMap ColumnID (ColumnWrites R A)) (w' : Worker (Index.Column R A)) : Prop where
  assigned : ∀ id, maxSystemColumnID < id → ((w'.repositories id).isSome ↔ Assigned f w' id)
  kept : ∀ id repo, w.repositories id = some repo → (w'.repositories id).isSome →
    written f (some repo) (writes.get? id) = .ok (w'.repositories id)

omit [Index.Memory R A] in
theorem ShowsTable.assigned_iff (ht : w.ShowsTable f P Q rows) :
    Assigned f w id ↔ id ∈ columnsOf f Q rows := by
  rw [columnsOf, mem_filterMap]
  constructor
  · rintro ⟨P', Q', r, v, hP', hQ', hr, hv, rfl⟩
    obtain rfl := ht.pods.eq hP'
    obtain rfl := ht.columns.eq hQ'
    exact ⟨r, (ht.mem r).mpr hr, by rw [hv]; rfl⟩
  · rintro ⟨r, hr, hv⟩
    obtain ⟨v, hv', rfl⟩ := Option.map_eq_some_iff.mp hv
    exact ⟨P, Q, r, v, ht.pods, ht.columns, (ht.mem r).mp hr, hv', rfl⟩

omit [Index.Memory R A] in
theorem exists_rows (h : w.Cells id P) (a : A) :
    ∃ rows : List R, rows.Pairwise (· < ·) ∧ ∀ r, r ∈ rows ↔ P r = some a := by
  obtain ⟨b, v, -, hb⟩ := h
  obtain ⟨n, m, -, htrees, hvalues⟩ := hb.lists.shows
  cases hT : m.get? a with
  | none =>
    refine ⟨[], Pairwise.nil, fun r => iff_of_false not_mem_nil fun hr => ?_⟩
    exact SortedMap.get?_eq_none.mp hT ((Set.ext_iff.mp hvalues a).mpr ⟨r, hr⟩)
  | some T => exact ⟨T.keys, T.keys_sorted, (htrees a T hT).2⟩

theorem not_assigned_of_podRows (h : w.podRows f = .ok none) (id : ColumnID) : ¬ Assigned f w id := by
  rintro ⟨P, Q, r, v, hP, -, hr, -⟩
  obtain ⟨rows, hsorted, hmem⟩ := exists_rows hP (f.podText w.podId)
  rw [podRows_eq hP hsorted hmem, if_neg (ne_nil_of_mem ((hmem r).mpr hr))] at h
  cases h

/-- The table can be followed: what stands in its first rows is complete and
known, and the repository found first behind the table stays. -/
structure Followed (f : Formats R A) (w w₁ : Worker (Index.Column R A))
    (writes : SortedMap ColumnID (ColumnWrites R A)) (Q : R → Option A) (rows : List R) : Prop where
  /-- Each row has a column. -/
  named : ∀ r ∈ rows.take 200000, (Q r).isSome
  /-- The schema describes the new columns. -/
  described : ∀ id ∈ columnsOf f Q (rows.take 200000), w.repositories id = none →
    ∃ buffer, newBuffer f w₁ id = .ok buffer
  /-- The first repository behind the table that is written is not erased. -/
  found : ∀ e ∈ (behind writes).find? fun e => (w.repositories e.1).isSome,
    e.1 ≤ maxSystemColumnID ∨ e.1 ∈ columnsOf f Q (rows.take 200000)

/-! ### Following the table -/

theorem assigned_of_finish (hw₁ : w₁.Good) (ht : w₁.ShowsTable f P Q rows)
    (h : w₁.finish f (behind writes) = .ok w') : Assigned f w' id ↔ id ∈ columnsOf f Q rows := by
  obtain ⟨w₂, -, -, hpod, -, hsystem⟩ := finish_spec hw₁ h
  have hpods := hsystem podColumnPodID (by decide) hw₁.pods
  have hcolumns := hsystem podColumnColumnID (le_refl _) hw₁.columns
  exact ShowsTable.assigned_iff
    ⟨ht.pods.congr hpods, ht.columns.congr hcolumns, ht.sorted, by rw [hpod]; exact ht.mem⟩

/-- When the worker can follow the table. -/
theorem exists_syncToSchema_iff (hw₁ : w₁.Good) (ht : w₁.ShowsTable f P Q rows)
    (hupTo : w.applyWrites f (upTo writes) = .ok w₁) :
    (∃ w₂, w₁.syncToSchema f = .ok w₂ ∧
      ∀ e ∈ (behind writes).find? fun e => (w₁.repositories e.1).isSome,
        (w₂.repositories e.1).isSome) ↔ rows = [] ∨ rows ≠ [] ∧ Followed f w w₁ writes Q rows := by
  have hhosted : ∀ id, (w₁.repositories id).isSome = (w.repositories id).isSome :=
    fun id => isSome_of_applyWrites (nodup_upTo writes) hupTo
  constructor
  · rintro ⟨w₂, hw₂, hfound⟩
    rcases (syncToSchema_iff hw₁ ht).mp hw₂ with ⟨hrows, -⟩ | ⟨hrows, hnamed, hcreated⟩
    · exact .inl hrows
    · refine .inr ⟨hrows, hnamed, fun id hmem hnone => ?_, fun e he => ?_⟩
      · have hnone₁ : w₁.repositories id = none := by simpa [hnone] using hhosted id
        obtain ⟨buffer, hbuffer, -⟩ := hcreated.new id hmem (dropRepos_none hnone₁)
        exact ⟨buffer, by rw [← newBuffer_dropRepos, hbuffer]⟩
      · by_contra hn
        push Not at hn
        have hsome₂ : (w₂.repositories e.1).isSome := hfound e (by simpa only [hhosted] using he)
        exact hn.2 ((hcreated.isSome_iff hn.1).mp hsome₂)
  · rintro (hrows | ⟨hrows, hfits⟩)
    · refine ⟨w₁, (syncToSchema_iff hw₁ ht).mpr (.inl ⟨hrows, rfl⟩), fun e he => ?_⟩
      have hsome₁ := find?_some he
      exact hsome₁
    · obtain ⟨w₂, hcreated⟩ := exists_created (f := f)
        (w := w₁.dropRepos (columnsOf f Q (rows.take 200000))) fun id hmem hnone => by
          rw [repositories_dropRepos (.inl hmem)] at hnone
          rw [newBuffer_dropRepos]
          exact hfits.described id hmem (by simpa [hnone] using (hhosted id).symm)
      have hw₂ := (syncToSchema_iff hw₁ ht).mpr (.inr ⟨hrows, hfits.named, hcreated⟩)
      refine ⟨w₂, hw₂, fun e he => ?_⟩
      have hsome₁ := find?_some he
      rcases hfits.found e (by simpa only [hhosted] using he) with hle | hmem
      · rwa [syncToSchema_system hw₁ hw₂ hle hsome₁]
      · exact hcreated.isSome (by rwa [repositories_dropRepos (.inl hmem)])

/-- What is assigned is there behind the table exactly if nothing was there to be dropped for
want of rows, or the rows that are not read do not matter. -/
theorem syncToSchema_assigned_iff (hw₁ : w₁.Good) (ht : w₁.ShowsTable f P Q rows)
    (hw₂ : w₁.syncToSchema f = .ok w₂) :
    (∀ id, maxSystemColumnID < id → ((w₂.repositories id).isSome ↔ id ∈ columnsOf f Q rows)) ↔
      (rows = [] → ∀ id, maxSystemColumnID < id → w₁.repositories id = none) ∧
      ∀ id ∈ columnsOf f Q rows, maxSystemColumnID < id → id ∈ columnsOf f Q (rows.take 200000) := by
  rcases (syncToSchema_iff hw₁ ht).mp hw₂ with ⟨rfl, rfl⟩ | ⟨hrows, -, hcreated⟩
  · simp [columnsOf]
  · rw [and_iff_right fun h => absurd h hrows]
    constructor
    · exact fun h id hmem hid => (hcreated.isSome_iff hid).mp ((h id hid).mpr hmem)
    · intro h id hid
      rw [hcreated.isSome_iff hid]
      exact ⟨fun hmem => ((take_sublist _ _).filterMap _).subset hmem, fun hmem => h id hmem hid⟩

end Worker

open Worker in
/-- **The table and the repositories**: a commit that writes the `PodColumn`
table leaves the repositories that the table assigns exactly if the pod has
no row and no repository was there before, or the table can be followed and
the rows that are not read do not matter. -/
theorem commit_synced_iff [LinearOrder R] [LinearOrder A] [Index.Memory R A] {f : Formats R A}
    {podId : PodID} {w₀ w w₁ : Worker (Index.Column R A)}
    {ms : List (SortedMap ColumnID (ColumnWrites R A))} (hboot : bootstrap f podId = .ok w₀)
    (hrun : ms.foldlM (commit f) w₀ = .ok w) {writes : SortedMap ColumnID (ColumnWrites R A)}
    (htable : podColumnPodID ∈ writes.keys ∨ podColumnColumnID ∈ writes.keys)
    (hw₁ : w.applyWrites f (upTo writes) = .ok w₁) (htaken : Taken f w₁ writes) {P Q : R → Option A}
    {rows : List R} (ht : w₁.ShowsTable f P Q rows) :
    (∃ w', w.commit f writes = .ok w' ∧ Synced f w writes w') ↔
      (rows = [] ∧ ∀ id, maxSystemColumnID < id → w.repositories id = none) ∨
      (rows ≠ [] ∧ Followed f w w₁ writes Q rows ∧
        ∀ id ∈ columnsOf f Q rows, maxSystemColumnID < id →
          id ∈ columnsOf f Q (rows.take 200000)) := by
  have hgood : w.Good := good_of_run hboot hrun
  have hnodup := nodup_upTo writes
  have hgood₁ : w₁.Good := hgood.applyWrites hnodup hw₁
  have hcommit := commit_of_table hw₁ htable
  have hsync : (∃ w', w.commit f writes = .ok w' ∧ Synced f w writes w') ↔
      ∃ w₂, w₁.syncToSchema f = .ok w₂ ∧
        (∀ e ∈ (behind writes).find? fun e => (w₁.repositories e.1).isSome,
          (w₂.repositories e.1).isSome) ∧
        ∀ id, maxSystemColumnID < id → ((w₂.repositories id).isSome ↔ id ∈ columnsOf f Q rows) := by
    constructor
    · rintro ⟨w', hok, hsynced⟩
      rw [hcommit] at hok
      obtain ⟨w₂, hw₂, hfound, -, hsome, -⟩ := finish_spec hgood₁ hok
      refine ⟨w₂, hw₂, hfound, fun id hid => ?_⟩
      rw [← hsome, hsynced.assigned id hid, assigned_of_finish hgood₁ ht hok]
    · rintro ⟨w₂, hw₂, hfound, hassigned⟩
      obtain ⟨w', hw'⟩ := finish_ok htaken hgood₁ hw₂ hfound
      have hok : w.commit f writes = .ok w' := hcommit.trans hw'
      refine ⟨w', hok, ⟨fun id hid => ?_, fun id repo => commit_kept hgood hok⟩⟩
      obtain ⟨w₃, hw₃, -, -, hsome, -⟩ := finish_spec hgood₁ hw'
      obtain rfl := ok_unique hw₂ hw₃
      rw [hsome, hassigned id hid, assigned_of_finish hgood₁ ht hw']
  have hnone : ∀ id, w₁.repositories id = none ↔ w.repositories id = none := fun id => by
    rw [← Option.not_isSome_iff_eq_none, isSome_of_applyWrites hnodup hw₁,
      Option.not_isSome_iff_eq_none]
  rw [hsync]
  constructor
  · rintro ⟨w₂, hw₂, hfound, hassigned⟩
    obtain ⟨hempty, hwithin⟩ :=
      (syncToSchema_assigned_iff hgood₁ ht hw₂).mp hassigned
    rcases (exists_syncToSchema_iff hgood₁ ht hw₁).mp ⟨w₂, hw₂, hfound⟩ with
      hrows | ⟨hrows, hfits⟩
    · exact .inl ⟨hrows, fun id hid => (hnone id).mp (hempty hrows id hid)⟩
    · exact .inr ⟨hrows, hfits, hwithin⟩
  · intro hcond
    obtain ⟨w₂, hw₂, hfound⟩ := (exists_syncToSchema_iff hgood₁ ht hw₁).mpr
      (hcond.imp And.left fun h => ⟨h.1, h.2.1⟩)
    refine ⟨w₂, hw₂, hfound, (syncToSchema_assigned_iff hgood₁ ht hw₂).mpr ?_⟩
    rcases hcond with ⟨rfl, hempty⟩ | ⟨hrows, -, hwithin⟩
    · exact ⟨fun _ id hid => (hnone id).mpr (hempty id hid), by simp [columnsOf]⟩
    · exact ⟨fun h => absurd h hrows, hwithin⟩

/-! ### A pod and its last column -/

def textNumber (s : String) : ℕ := s.toList.foldl (fun n c => n * 256 + c.toNat) 0

def numberFormats : Formats ℕ ℕ where
  rowText := id
  columnRow := id
  columnText := id
  columnOf := id
  podText := id
  nameText := textNumber
  text n := (["Bool", "Double", "Int", "Long", "String", "WString"].find?
    fun s => textNumber s = n).getD ""
  bufferText
    | .identity => 0
    | .unique => 1
    | .multi => 2
  bufferType
    | 0 => .identity
    | 1 => .unique
    | _ => .multi
  boolText b := if b then 1 else 0
  bool n := n ≠ 0
  typeSize
    | "Bool" => 1
    | "Int" => 4
    | "Long" | "Double" => 8
    | _ => 32
  rowText_columnRow _ := rfl

def assignColumn : SortedMap ColumnID (ColumnWrites ℕ ℕ) where
  entries := [(2, { includes := [⟨10000, textNumber "Long"⟩] }),
    (3, { includes := [⟨10000, textNumber "Long"⟩] }), (4, { includes := [⟨10000, 2⟩] }),
    (400, { includes := [⟨7, 1⟩] }), (401, { includes := [⟨7, 10000⟩] })]
  sorted := by decide

def unassignColumn : SortedMap ColumnID (ColumnWrites ℕ ℕ) where
  entries := [(400, { excludes := [7] }), (401, { excludes := [7] })]
  sorted := by decide

instance zeroMemory : Index.Memory ℕ ℕ where
  rowType := Tree.ScalarType.ofOrder ℕ
  valueType := Tree.ScalarType.ofOrder ℕ
  rawRows _ _ _ := 0
  rawValues _ _ := 0
  rawNodes _ _ _ := 0

abbrev NumberWorker := Worker (Index.Column ℕ ℕ)

theorem applyTo_include {M : ℕ → Option ℕ} {cell : Cell ℕ ℕ} (h : M cell.rowID = none) :
    applyTo False M { includes := [cell] } = Function.update M cell.rowID (some cell.value) :=
  put_new h False.elim

/-- A column is described and assigned to a pod without columns. -/
theorem commit_synced_first : ∃ w₀ w' : NumberWorker, bootstrap numberFormats 1 = .ok w₀ ∧
    w₀.commit numberFormats assignColumn = .ok w' ∧
    Worker.Synced numberFormats w₀ assignColumn w' := by
  have hrun : (bootstrap numberFormats 1).toOption.any (fun w₀ : NumberWorker =>
      (takes assignColumn w₀ podColumnPodID &&
        takes assignColumn w₀ podColumnColumnID) &&
      (w₀.applyWrites numberFormats (upTo assignColumn)).toOption.any fun w₁ =>
        w₁.podId == 1 && (newBuffer numberFormats w₁ 10000).toOption.any fun _ => true) =
      true := by decide +kernel
  obtain ⟨w₀, hw₀, hrun⟩ := exists_ok_of_any hrun
  simp only [Bool.and_eq_true] at hrun
  obtain ⟨⟨hpods, hcolumns⟩, hrun⟩ := hrun
  obtain ⟨w₁, hw₁, hrun⟩ := exists_ok_of_any hrun
  simp only [Bool.and_eq_true, beq_iff_eq] at hrun
  obtain ⟨hpod, hrun⟩ := hrun
  obtain ⟨buffer, hbuffer, -⟩ := exists_ok_of_any hrun
  have hP : w₁.Cells podColumnPodID (applyTo False (fun _ => none) { includes := [⟨7, 1⟩] }) :=
    (cells_of_bootstrap hw₀ (.inl rfl)).upTo (by decide) hpods hw₁
  have hQ : w₁.Cells podColumnColumnID (applyTo False (fun _ => none) { includes := [⟨7, 10000⟩] }) :=
    (cells_of_bootstrap hw₀ (.inr rfl)).upTo (le_refl _) hcolumns hw₁
  rw [applyTo_include rfl] at hP hQ
  have hbehind : behind assignColumn = [] := by decide
  have hrun₀ : ([] : List (SortedMap ColumnID (ColumnWrites ℕ ℕ))).foldlM
      (commit numberFormats) w₀ = .ok w₀ := rfl
  have ht : w₁.ShowsTable numberFormats _ _ [7] := ⟨hP, hQ, by simp, by
    simp [hpod, numberFormats, Function.update_apply]⟩
  have hfits : Worker.Followed numberFormats w₀ w₁ assignColumn
      (Function.update (fun _ => none) 7 (some 10000)) [7] := by
    refine ⟨by simp, fun id hid _ => ?_, by simp [hbehind]⟩
    obtain rfl : id = 10000 := by simpa [columnsOf, numberFormats] using hid
    exact ⟨buffer, hbuffer⟩
  obtain ⟨w', hok, hsynced⟩ := (commit_synced_iff hw₀ hrun₀ (by decide) hw₁
    (by simp [Worker.Taken, hbehind]) ht).mpr
      (.inr ⟨by simp, hfits, by simp [columnsOf]⟩)
  exact ⟨w₀, w', hw₀, hok, hsynced⟩

/-- The last column of a pod stays. -/
theorem commit_keeps_last : ∃ w₀ w w' : NumberWorker, bootstrap numberFormats 1 = .ok w₀ ∧
    w₀.commit numberFormats assignColumn = .ok w ∧ w.commit numberFormats unassignColumn = .ok w' ∧
    (w'.repositories 10000).isSome ∧ ¬ Worker.Assigned numberFormats w' 10000 := by
  have hrun : (bootstrap numberFormats 1 >>= fun w₀ : NumberWorker =>
      w₀.commit numberFormats assignColumn >>= fun w =>
        w.commit numberFormats unassignColumn).toOption.any (fun w' =>
          (w'.repositories 10000).isSome && (w'.podRows numberFormats).toOption == some none) =
      true := by decide +kernel
  obtain ⟨w', hok, hrun⟩ := exists_ok_of_any hrun
  obtain ⟨w₀, hw₀, hok⟩ := eq_ok_of_bind hok
  obtain ⟨w, hw, hok⟩ := eq_ok_of_bind hok
  obtain ⟨hsome, hrows⟩ := Bool.and_eq_true_iff.mp hrun
  exact ⟨w₀, w, w', hw₀, hw, hok, hsome,
    not_assigned_of_podRows (eq_ok_of_toOption (beq_iff_eq.mp hrows)) _⟩

end Fastore.Hive
