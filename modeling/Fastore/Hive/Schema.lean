import Fastore.Hive.Worker

/-!
What a worker makes of the `PodColumn` table.

A worker can follow the table at any time: `bootstrap` sets up the columns it
needs, and no commit takes them away (`Good`). The columns found in the table
are the ones to keep and to create, and a new repository is made from its row
in the `Column` table (`newBuffer`). All this is so for any buffers.

The buffers in memory show the cells of the table as long as their trees are
exact (`Cells`). Then the first 200000 rows of the pod in column 400 are looked
up in column 401 (`syncToSchema_iff`), even if the search for the pod strays in
the value tree, for it then ends where it begins.
-/

namespace Fastore.Hive

open Lib Buffer
open List hiding flatten

variable {R A B : Type} [ColumnBuffer R A B]

variable {id : ColumnID} {entries : List (ColumnID × ColumnWrites R A)} {ids : List ColumnID}
  {rows : List R} {podId : PodID} {repo : Repository B}

namespace Worker

variable {f : Formats R A} {w w' : Worker B}

def descriptions : List ColumnID :=
  [columnName, columnValueType, columnRowIDType, columnBufferType, columnRequired]

/-- What `Bootstrap` sets up and every commit keeps: the columns that are read to follow the
`PodColumn` table. -/
structure Good (w : Worker B) : Prop where
  pods : (w.repositories podColumnPodID).isSome
  columns : (w.repositories podColumnColumnID).isSome
  descriptions : ∀ id ∈ descriptions, (w.repositories id).isSome

theorem descriptions_le (hid : id ∈ descriptions) : id ≤ maxSystemColumnID := by
  revert id
  decide

theorem Good.of_system (hw : w.Good) (h : ∀ id ≤ maxSystemColumnID,
    (w.repositories id).isSome → (w'.repositories id).isSome) : w'.Good where
  pods := h _ (by decide) hw.pods
  columns := h _ (by decide) hw.columns
  descriptions id hid := h id (descriptions_le hid) (hw.descriptions id hid)

/-! ### Creating repositories -/

def newBuffer (f : Formats R A) (w : Worker B) (id : ColumnID) : Except WorkerFault (B) := do
  let columnDef ← w.getDefFromSchema f id
  createBuffer f columnDef

theorem newBuffer_congr (h : ∀ id ∈ descriptions, w'.repositories id = w.repositories id) :
    newBuffer f w' = newBuffer f w := by
  simp only [descriptions, forall_mem_cons] at h
  funext id
  simp only [newBuffer, getDefFromSchema, query, repository, h]

theorem columnID_of_getDefFromSchema {columnDef : ColumnDef}
    (h : w.getDefFromSchema f id = .ok columnDef) : columnDef.columnID = id := by
  obtain ⟨name, -, h⟩ := eq_ok_of_bind h
  obtain ⟨valueType, -, h⟩ := eq_ok_of_bind h
  obtain ⟨rowType, -, h⟩ := eq_ok_of_bind h
  obtain ⟨bType, -, h⟩ := eq_ok_of_bind h
  obtain ⟨req, -, h⟩ := eq_ok_of_bind h
  cases bType with
  | none => cases h
  | some bType => rw [← Except.ok.inj h]

theorem createRepos_cons (id : ColumnID) (ids : List ColumnID) : w.createRepos f (id :: ids) =
    ((if (w.repositories id).isSome then .ok w
      else newBuffer f w id >>= fun buffer => .ok (w.set id (some ⟨buffer, 0⟩))) >>= fun w =>
        w.createRepos f ids) := by
  rw [createRepos, foldlM_cons, newBuffer]
  cases h : w.getDefFromSchema f id with
  | error e => rfl
  | ok columnDef =>
    simp only [createRepo, columnID_of_getDefFromSchema h, bind, Except.bind]
    rfl

/-- The repositories of `ids` are created if they are not there. -/
structure Created (f : Formats R A) (w : Worker B) (ids : List ColumnID) (w' : Worker B) : Prop where
  podId : w'.podId = w.podId
  kept : ∀ id, (w.repositories id).isSome ∨ id ∉ ids → w'.repositories id = w.repositories id
  new : ∀ id ∈ ids, w.repositories id = none →
    ∃ buffer, newBuffer f w id = .ok buffer ∧ w'.repositories id = some ⟨buffer, 0⟩

theorem created_cons_of_some {id₀ : ColumnID} (hrepo : w.repositories id₀ = some repo) :
    Created f w (id₀ :: ids) w' ↔ Created f w ids w' := by
  constructor
  · intro h
    refine ⟨h.podId, fun id hid => h.kept id ?_,
      fun id hid hnone => h.new id (mem_cons_of_mem _ hid) hnone⟩
    by_cases hid₀ : id = id₀
    · exact .inl (by simp [hid₀, hrepo])
    · exact hid.imp_right fun hn hm => (mem_cons.mp hm).elim hid₀ hn
  · intro h
    refine ⟨h.podId, fun id hid => h.kept id ?_, fun id hid hnone => ?_⟩
    · exact hid.imp_right fun hn hm => hn (mem_cons_of_mem _ hm)
    · rcases mem_cons.mp hid with rfl | hid
      · rw [hrepo] at hnone
        cases hnone
      · exact h.new id hid hnone

theorem created_cons_of_none {id₀ : ColumnID} {buffer : B} (hrepo : w.repositories id₀ = none)
    (hbuffer : newBuffer f w id₀ = .ok buffer)
    (hsame : newBuffer f (w.set id₀ (some ⟨buffer, 0⟩)) = newBuffer f w) :
    Created f w (id₀ :: ids) w' ↔ Created f (w.set id₀ (some ⟨buffer, 0⟩)) ids w' := by
  constructor
  · intro h
    refine ⟨h.podId, fun id hid => ?_, fun id hid hnone => ?_⟩
    · rw [repositories_set] at hid ⊢
      split
      · rename_i heq
        obtain ⟨buffer', hok, hnew⟩ := h.new id₀ mem_cons_self hrepo
        rw [heq, hnew, ok_unique hok hbuffer]
      · rename_i hne
        rw [if_neg hne] at hid
        exact h.kept id (hid.imp_right fun hn hm => (mem_cons.mp hm).elim hne hn)
    · rw [repositories_set] at hnone
      split at hnone
      · cases hnone
      · rw [hsame]
        exact h.new id (mem_cons_of_mem _ hid) hnone
  · intro h
    refine ⟨h.podId, fun id hid => ?_, fun id hid hnone => ?_⟩
    · have hne : id ≠ id₀ := by
        rintro rfl
        simp [hrepo] at hid
      rw [h.kept id, repositories_set, if_neg hne]
      rw [repositories_set, if_neg hne]
      exact hid.imp_right fun hn hm => hn (mem_cons_of_mem _ hm)
    · by_cases hne : id = id₀
      · subst hne
        refine ⟨buffer, hbuffer, ?_⟩
        rw [h.kept id (.inl (by simp)), repositories_set, if_pos rfl]
      · rw [← hsame]
        exact h.new id ((mem_cons.mp hid).resolve_left hne)
          (by rw [repositories_set, if_neg hne, hnone])

/-- Repositories are created for the columns that have none. -/
theorem createRepos_iff (hdesc : ∀ id ∈ descriptions, (w.repositories id).isSome) :
    w.createRepos f ids = .ok w' ↔ Created f w ids w' := by
  induction ids generalizing w with
  | nil =>
    obtain ⟨podId, repositories⟩ := w
    obtain ⟨podId', repositories'⟩ := w'
    constructor
    · intro h
      obtain ⟨rfl, rfl⟩ := mk.inj (Except.ok.inj h)
      exact ⟨rfl, fun _ _ => rfl, by simp⟩
    · intro h
      obtain rfl : podId' = podId := h.podId
      obtain rfl : repositories' = repositories := funext fun id => h.kept id (.inr (by simp))
      rfl
  | cons id₀ ids ih =>
    rw [createRepos_cons]
    cases hrepo : w.repositories id₀ with
    | some repo => exact (ih hdesc).trans (created_cons_of_some hrepo).symm
    | none =>
      rw [if_neg (by simp)]
      cases hbuffer : newBuffer f w id₀ with
      | error e =>
        refine iff_of_false (by simp [bind, Except.bind]) fun h => ?_
        obtain ⟨buffer, hok, -⟩ := h.new id₀ mem_cons_self hrepo
        rw [hbuffer] at hok
        cases hok
      | ok buffer =>
        have hsame : ∀ id ∈ descriptions, (w.set id₀ (some ⟨buffer, 0⟩)).repositories id =
            w.repositories id := by
          intro id hid
          refine (repositories_set ..).trans (if_neg ?_)
          rintro rfl
          simpa [hrepo] using hdesc id hid
        exact (ih fun id hid => hsame id hid ▸ hdesc id hid).trans
          (created_cons_of_none hrepo hbuffer (newBuffer_congr hsame)).symm

end Worker

/-! ### What stays -/

theorem Repository.apply_eq_ok {f : Formats R A} {repo' : Repository B} {v : Revision}
    {writes : ColumnWrites R A} : repo.apply f v writes = .ok repo' ↔
      ColumnBuffer.apply f.rowText repo.buffer writes = .ok repo'.buffer ∧ repo'.revision = v := by
  obtain ⟨buffer', v'⟩ := repo'
  rw [Repository.apply]
  constructor
  · intro h
    obtain ⟨buffer, hbuffer, h⟩ := eq_ok_of_bind h
    obtain ⟨rfl, rfl⟩ := Repository.mk.inj (Except.ok.inj h)
    exact ⟨ofBuffer_eq_ok.mp hbuffer, rfl⟩
  · rintro ⟨hbuffer, rfl⟩
    rw [ofBuffer_eq_ok.mpr hbuffer]
    rfl

theorem isSome_of_written {f : Formats R A} {repo repo' : Option (Repository B)}
    {writes : Option (ColumnWrites R A)} (h : written f repo writes = .ok repo') :
    repo'.isSome = repo.isSome := by
  match repo, writes with
  | none, _ => rw [← Except.ok.inj h]
  | some repo, none => rw [← Except.ok.inj h]
  | some repo, some writes =>
    obtain ⟨repo₁, -, h⟩ := eq_ok_of_bind h
    rw [← Except.ok.inj h]
    rfl

namespace Worker

variable {f : Formats R A} {w w' : Worker B}

theorem isSome_of_applyWrites (hnodup : (entries.map Prod.fst).Nodup)
    (h : w.applyWrites f entries = .ok w') :
    (w'.repositories id).isSome = (w.repositories id).isSome :=
  isSome_of_written (((applyWrites_iff hnodup).mp h).2 id)

theorem Good.applyWrites (hw : w.Good) (hnodup : (entries.map Prod.fst).Nodup)
    (h : w.applyWrites f entries = .ok w') : w'.Good :=
  hw.of_system fun _ _ hid => (isSome_of_applyWrites hnodup h).trans hid

theorem repositories_dropRepos (h : id ∈ ids ∨ id ≤ maxSystemColumnID) :
    (w.dropRepos ids).repositories id = w.repositories id :=
  if_neg fun hc => h.elim hc.1 (Nat.not_le.mpr hc.2)

theorem dropRepos_none (h : w.repositories id = none) :
    (w.dropRepos ids).repositories id = none := by
  simp only [Worker.dropRepos, h, ite_self]

theorem Good.dropRepos (hw : w.Good) (ids : List ColumnID) : (w.dropRepos ids).Good :=
  hw.of_system fun id hid hsome => by rwa [repositories_dropRepos (.inr hid)]

theorem Created.isSome (h : Created f w ids w') (hid : (w.repositories id).isSome) :
    (w'.repositories id).isSome := by
  rw [h.kept id (.inl hid)]
  exact hid

theorem newBuffer_dropRepos (ids : List ColumnID) : newBuffer f (w.dropRepos ids) = newBuffer f w :=
  newBuffer_congr fun _ hid => repositories_dropRepos (.inr (descriptions_le hid))

theorem Created.newBuffer_eq (h : Created f w ids w') (hnone : w.repositories id = none)
    (hrepo : w'.repositories id = some repo) : newBuffer f w id = .ok repo.buffer := by
  by_cases hid : id ∈ ids
  · obtain ⟨buffer, hbuffer, hnew⟩ := h.new id hid hnone
    rw [hbuffer, ← some_unique hnew hrepo]
  · rw [h.kept id (.inr hid), hnone] at hrepo
    cases hrepo

theorem created_of_syncToSchema (hw : w.Good) (h : w.syncToSchema f = .ok w') :
    w' = w ∨ ∃ ids, Created f (w.dropRepos ids) ids w' := by
  obtain ⟨rows, -, h⟩ := eq_ok_of_bind h
  cases rows with
  | none => exact .inl (Except.ok.inj h).symm
  | some rows =>
    obtain ⟨ids, -, h⟩ := eq_ok_of_bind h
    exact .inr ⟨ids, (createRepos_iff (hw.dropRepos ids).descriptions).mp h⟩

theorem Good.syncToSchema (hw : w.Good) (h : w.syncToSchema f = .ok w') : w'.Good := by
  obtain rfl | ⟨ids, hcreated⟩ := created_of_syncToSchema hw h
  · exact hw
  · exact (hw.dropRepos ids).of_system fun id _ hid => hcreated.isSome hid

/-- What a commit does once the table is written. -/
theorem finish_eq_ok : w.finish f entries = .ok w' ↔
    ∃ w₂, w.syncToSchema f = .ok w₂ ∧
      (∀ e ∈ entries.find? fun e => (w.repositories e.1).isSome, (w₂.repositories e.1).isSome) ∧
      w₂.applyWrites f (entries.dropWhile fun e => (w.repositories e.1).isNone) = .ok w' := by
  have hfind : (entries.find? fun e => (w.repositories e.1).isSome) =
      (entries.dropWhile fun e => (w.repositories e.1).isNone).head? := by
    rw [← find?_not_eq_head?_dropWhile]
    simp only [Option.not_isNone]
  rw [hfind]
  constructor
  · intro h
    obtain ⟨w₂, hw₂, h⟩ := eq_ok_of_bind h
    refine ⟨w₂, hw₂, ?_⟩
    split at h
    · rename_i hnil
      rw [hnil]
      exact ⟨by simp, h⟩
    · rename_i e rest hcons
      rw [hcons]
      split at h
      · cases h
      · rename_i hsome
        refine ⟨fun e' he' => ?_, h⟩
        obtain rfl := Option.some.inj he'
        simpa [Option.isSome_iff_ne_none] using hsome
  · rintro ⟨w₂, hw₂, hsome, h⟩
    rw [finish, hw₂]
    simp only [bind, Except.bind]
    split
    · rename_i hnil
      rw [hnil] at h
      exact h
    · rename_i e rest hcons
      rw [hcons] at h hsome
      rw [if_neg (by simpa [Option.isSome_iff_ne_none] using hsome e rfl)]
      exact h

theorem Good.commit (hw : w.Good) {writes : SortedMap ColumnID (ColumnWrites R A)}
    (h : w.commit f writes = .ok w') : w'.Good := by
  rw [commit_eq] at h
  obtain ⟨w₁, hw₁, h⟩ := eq_ok_of_bind h
  have hgood := hw.applyWrites (nodup_upTo writes) hw₁
  split at h
  · obtain ⟨w₂, hw₂, -, h⟩ := finish_eq_ok.mp h
    exact (hgood.syncToSchema hw₂).applyWrites (nodup_dropWhile_behind writes _) h
  · exact hgood.applyWrites (nodup_behind writes) h

/-! ### A new worker -/

variable {columnDef : ColumnDef}

theorem repositories_of_createRepo (h : w.createRepo f columnDef = .ok w') :
    ∃ buffer, createBuffer f columnDef = .ok buffer ∧ ∀ id,
      w'.repositories id = if id = columnDef.columnID then some ⟨buffer, 0⟩ else w.repositories id := by
  obtain ⟨buffer, hbuffer, rfl⟩ := eq_ok_of_map h
  exact ⟨buffer, hbuffer, repositories_set _ _⟩

theorem repositories_of_addToSchema {value : ColumnID × A} (h : w.addToSchema f id value = .ok w') :
    ∃ repo, ∀ id, w'.repositories id = if id = value.1 then some repo else w.repositories id := by
  obtain ⟨repo, -, h⟩ := eq_ok_of_bind h
  obtain ⟨repo₁, -, rfl⟩ := eq_ok_of_map h
  exact ⟨repo₁, repositories_set _ _⟩

/-- The column is there and, if it does not describe columns, as it is created. -/
def Started (f : Formats R A) (columnDef : ColumnDef) (w : Worker B) : Prop :=
  ∃ repo, w.repositories columnDef.columnID = some repo ∧
    (columnRequired < columnDef.columnID → createBuffer f columnDef = .ok repo.buffer)

theorem foldlM_createRepo {defs : List ColumnDef} (hnodup : (defs.map (·.columnID)).Nodup)
    (h : defs.foldlM (createRepo f) w = .ok w') (hdef : columnDef ∈ defs) :
    w'.Started f columnDef := by
  induction defs generalizing w with
  | nil => cases hdef
  | cons d defs ih =>
    rw [map_cons, nodup_cons] at hnodup
    rw [foldlM_cons] at h
    obtain ⟨w₁, hw₁, hrest⟩ := eq_ok_of_bind h
    rcases mem_cons.mp hdef with rfl | hdef
    · obtain ⟨buffer, hbuffer, hset⟩ := repositories_of_createRepo hw₁
      have hstarted : w₁.Started f columnDef := ⟨_, (hset _).trans (if_pos rfl), fun _ => hbuffer⟩
      refine foldlM_preserves_of_mem (fun d hd w w' hw hstep => ?_) hstarted hrest
      obtain ⟨repo, hrepo, hw⟩ := hw
      obtain ⟨_, -, hset'⟩ := repositories_of_createRepo hstep
      refine ⟨repo, ?_, hw⟩
      rw [hset', if_neg fun heq => hnodup.1 (mem_map.mpr ⟨d, hd, heq.symm⟩), hrepo]
    · exact ih hnodup.2 hrest hdef

theorem started_of_bootstrap (h : bootstrap f podId = .ok w)
    (hdef : columnDef ∈ defaults) : w.Started f columnDef := by
  obtain ⟨w₁, hw₁, h⟩ := eq_ok_of_bind h
  have hstarted : w₁.Started f columnDef := foldlM_createRepo (by decide) hw₁ hdef
  refine foldlM_preserves (fun w d w' hw hstep => ?_) hstarted h
  refine foldlM_preserves_of_mem (fun value hvalue w w' hw hstep => ?_) hw hstep
  obtain ⟨repo, hset⟩ := repositories_of_addToSchema hstep
  rw [Started, hset]
  split
  · rename_i heq
    refine ⟨repo, rfl, fun hlt => absurd hlt (Nat.not_lt.mpr ?_)⟩
    rw [heq]
    revert value
    simp [schemaValues, columnID, columnName, columnValueType, columnRowIDType, columnBufferType,
      columnRequired]
  · exact hw

theorem isSome_bootstrap (h : bootstrap f podId = .ok w) (hid : id ∈ defaults.map (·.columnID)) :
    (w.repositories id).isSome := by
  obtain ⟨columnDef, hdef, rfl⟩ := mem_map.mp hid
  obtain ⟨repo, hrepo, -⟩ := started_of_bootstrap h hdef
  simp [hrepo]

theorem good_bootstrap (h : bootstrap f podId = .ok w) : w.Good where
  pods := isSome_bootstrap h (by decide)
  columns := isSome_bootstrap h (by decide)
  descriptions id hid := isSome_bootstrap h (by revert id; decide)

theorem good_of_run {ms : List (SortedMap ColumnID (ColumnWrites R A))} {w₀ : Worker B}
    (hboot : bootstrap f podId = .ok w₀) (hrun : ms.foldlM (Worker.commit f) w₀ = .ok w) :
    w.Good :=
  foldlM_preserves (fun _ _ _ hw h => hw.commit h) (good_bootstrap hboot) hrun

end Worker

/-! ### Reading the table -/

namespace Worker

variable [LinearOrder R] [LinearOrder A] [Index.Memory R A] {f : Formats R A}
  {w w' : Worker (Index.Column R A)} {M P Q : R → Option A}

/-- The worker has a column of trees with the cells `M`. -/
def Cells (w : Worker (Index.Column R A)) (id : ColumnID) (M : R → Option A) : Prop :=
  ∃ b v, w.repositories id = some ⟨.multi b, v⟩ ∧ b.Exact M

theorem query_eq (h : w.Cells id M) (r : R) : w.query f id r = .ok (M r) := by
  obtain ⟨b, v, hrepo, hM⟩ := h
  simp only [query, repository, hrepo, bind, Except.bind]
  exact ofBuffer_eq_ok.mpr (hM.getValue r)

omit [LinearOrder R] in
theorem podRange_proper (podId : PodID) : (podRange f podId : RangeRequest A R).Proper := by
  intro low hlow high hhigh
  obtain rfl := Option.some.inj hlow
  obtain rfl := Option.some.inj hhigh
  exact .inr ⟨rfl, rfl, rfl⟩

omit [LinearOrder R] in
theorem admits_podRange (podId : PodID) (a : A) :
    (podRange f podId : RangeRequest A R).admits a = decide (a = f.podText podId) := by
  simp [RangeRequest.admits, RangeRequest.lowest, RangeRequest.highest, podRange, RangeBound.lower,
    RangeBound.upper, ← Bool.decide_and, le_antisymm_iff, and_comm]

omit [Index.Memory R A] in
theorem select_podRange {b : TreeBuffer R A} (hsorted : rows.Pairwise (· < ·))
    (hrows : ∀ r T, b.values.get? (f.podText podId) = some T → (r ∈ T.keys ↔ r ∈ rows))
    (hkey : rows ≠ [] → f.podText podId ∈ b.values.keys) :
    (podRange f podId).select b.pairs = rows.map (f.podText podId, ·) := by
  have hdirect : ∀ {C : Type} (l : List C), (podRange f podId : RangeRequest A R).direct l = l :=
    fun _ => rfl
  rw [b.select_pairs, hdirect]
  simp only [admits_podRange, b.values.filter_key]
  cases hT : b.values.get? (f.podText podId) with
  | none =>
    have hnil : rows = [] := by_contra fun hne => SortedMap.get?_eq_none.mp hT (hkey hne)
    rw [hnil]
    rfl
  | some T =>
    have hkeys : T.keys = rows := T.keys_sorted.eq_of_mem_iff hsorted fun r => hrows r T hT
    simp [RangeRequest.cellsOf, hdirect, hkeys]

omit [LinearOrder R] [LinearOrder A] in
theorem head?_of_flatten {gs : List (ValueRows A R)} {a : A} (hflat : flatten gs = rows.map (a, ·))
    (hne : ∀ g ∈ gs, g.rowIDs ≠ []) (hgrouped : (gs.map (·.value)).Nodup) :
    gs.head?.map (·.rowIDs) = if rows = [] then none else some rows := by
  have hvalue : ∀ g ∈ gs, g.value = a := by
    intro g hg
    obtain ⟨r, hr⟩ := exists_mem_of_ne_nil _ (hne g hg)
    have hcell : (g.value, r) ∈ flatten gs :=
      mem_flatMap.mpr ⟨g, hg, mem_map.mpr ⟨r, hr, rfl⟩⟩
    rw [hflat, mem_map] at hcell
    obtain ⟨_, _, heq⟩ := hcell
    exact (Prod.mk.inj heq).1.symm
  match gs with
  | [] =>
    obtain rfl : rows = [] := by simpa [flatten] using hflat.symm
    rfl
  | [g] =>
    have hrows : rows = g.rowIDs := by
      have := congrArg (List.map Prod.snd) hflat
      simpa [flatten] using this.symm
    rw [hrows, if_neg (hne g mem_cons_self)]
    rfl
  | g :: g' :: _ =>
    have hsame : g.value = g'.value := by
      rw [hvalue g mem_cons_self, hvalue g' (mem_cons_of_mem _ mem_cons_self)]
    simp [hsame] at hgrouped

/-- The rows of the pod are found, wherever the search for it ends. -/
theorem podRows_eq (h : w.Cells podColumnPodID P) (hsorted : rows.Pairwise (· < ·))
    (hmem : ∀ r, r ∈ rows ↔ P r = some (f.podText w.podId)) :
    w.podRows f = .ok (if rows = [] then none else some (rows.take 200000)) := by
  obtain ⟨b, v, hrepo, hb⟩ := h
  obtain ⟨n, m, hm, htrees, hvalues⟩ := hb.lists.shows
  have hkey : f.podText w.podId ∈ m.keys ↔ rows ≠ [] := by
    rw [ne_eq, eq_nil_iff_forall_not_mem, not_forall_not]
    simp only [hmem]
    exact Set.ext_iff.mp hvalues _
  -- what a buffer with the same values in sorted maps answers
  obtain ⟨result, hok, hans⟩ := TreeBuffer.getRows_spec ⟨.empty, m, 0, 0⟩ (podRange f w.podId) rfl
    (podRange_proper w.podId) (by simp [podRange])
  have hcells := hans.cells
  rw [select_podRange hsorted (fun r T hT => ((htrees _ T hT).2 r).trans (hmem r).symm) hkey.mpr,
    ← map_take] at hcells
  have hhead := head?_of_flatten hcells hans.nonempty hans.grouped
  have hlimit : (podRange f w.podId : RangeRequest A R).limit.toNat = 200000 := rfl
  have hnone : (podRange f w.podId : RangeRequest A R).rowID = none := rfl
  simp only [TreeBuffer.getRows, startKeyOf_none hnone, bind, Except.bind] at hok
  have hrows : ∃ result', b.getRows (podRange f w.podId) = .ok result' ∧
      result'.valueRowsList = result.valueRowsList := by
    simp only [Index.TreeBuffer.getRows, startKeyOf_none hnone, bind, Except.bind]
    by_cases hnil : rows = []
    · -- both ends of the interval come from the same search
      have hempty : result.valueRowsList = [] := by
        rw [hnil, if_pos take_nil] at hhead
        simpa using hhead
      obtain ⟨result', hok', hempty'⟩ := (Index.TreeBuffer.valuesRows_empties_iff hm
        (fun a T hT => (htrees a T hT).1) fun _ => hnone).mpr ⟨⟨result, hok, hempty⟩, Iff.rfl⟩
      exact ⟨result', hok', hempty'.trans hempty.symm⟩
    · have hfirst : ¬ Index.StraysAt b.values
          (Index.firstKey (podRange f w.podId : RangeRequest A R) none) :=
        hm.not_strays (hkey.mpr hnil)
      exact ⟨result, (Index.TreeBuffer.agree_valuesRows hm hfirst hfirst).trans hok, rfl⟩
  obtain ⟨result', hok', hlist⟩ := hrows
  simp only [podRows, repository, hrepo, bind, Except.bind, ColumnBuffer.getRows,
    ofBuffer_eq_ok.mpr hok', hlist, hhead, hlimit]
  cases rows <;> rfl

def columnsOf (f : Formats R A) (Q : R → Option A) (rows : List R) : List ColumnID :=
  rows.filterMap fun r => (Q r).map f.columnOf

theorem schemaIds_eq_ok (hQ : w.Cells podColumnColumnID Q) :
    w.schemaIds f rows = .ok ids ↔
      (∀ r ∈ rows, (Q r).isSome) ∧ ids = columnsOf f Q rows := by
  rw [schemaIds, mapM_eq_ok_iff (g := fun r => (Q r).map f.columnOf)]
  · simp only [Option.isSome_map, columnsOf]
  · intro r id
    rw [query_eq hQ]
    cases Q r <;> simp [bind, Except.bind]

/-- The cells of the two columns of the table, and the rows of the pod in their order. -/
structure ShowsTable (w : Worker (Index.Column R A)) (f : Formats R A) (P Q : R → Option A)
    (rows : List R) : Prop where
  pods : w.Cells podColumnPodID P
  columns : w.Cells podColumnColumnID Q
  sorted : rows.Pairwise (· < ·)
  mem : ∀ r, r ∈ rows ↔ P r = some (f.podText w.podId)

theorem syncToSchema_iff (hw : w.Good) (ht : w.ShowsTable f P Q rows) :
    w.syncToSchema f = .ok w' ↔ rows = [] ∧ w' = w ∨
      rows ≠ [] ∧ (∀ r ∈ rows.take 200000, (Q r).isSome) ∧
        Created f (w.dropRepos (columnsOf f Q (rows.take 200000)))
          (columnsOf f Q (rows.take 200000)) w' := by
  have hpod := podRows_eq ht.pods ht.sorted ht.mem
  constructor
  · intro h
    obtain ⟨found, hfound, h⟩ := eq_ok_of_bind h
    obtain rfl := ok_unique hpod hfound
    by_cases hrows : rows = []
    · rw [if_pos hrows] at h
      exact .inl ⟨hrows, (Except.ok.inj h).symm⟩
    · rw [if_neg hrows] at h
      obtain ⟨ids, hids, h⟩ := eq_ok_of_bind h
      obtain ⟨hsome, rfl⟩ := (schemaIds_eq_ok ht.columns).mp hids
      exact .inr ⟨hrows, hsome, (createRepos_iff (hw.dropRepos _).descriptions).mp h⟩
  · rw [syncToSchema, hpod]
    rintro (⟨hrows, rfl⟩ | ⟨hrows, hsome, h⟩)
    · rw [if_pos hrows]
      rfl
    · rw [if_neg hrows]
      simp only [bind, Except.bind, (schemaIds_eq_ok ht.columns).mpr ⟨hsome, rfl⟩]
      exact (createRepos_iff (hw.dropRepos _).descriptions).mpr h

/-! ### The trees of the table -/

omit [Index.Memory R A] in
theorem Cells.eq (h : w.Cells id M) (h' : w.Cells id P) : M = P := by
  obtain ⟨b, v, hrepo, hM⟩ := h
  obtain ⟨b', v', hrepo', hP⟩ := h'
  obtain ⟨hb, -⟩ := Repository.mk.inj (some_unique hrepo hrepo')
  obtain rfl := Index.Column.multi.inj hb
  funext r
  exact Except.ok.inj ((hM.getValue r).symm.trans (hP.getValue r))

omit [Index.Memory R A] in
theorem Cells.congr (h : w.Cells id M) (heq : w'.repositories id = w.repositories id) :
    w'.Cells id M := by
  rwa [Cells, heq]

def takes (writes : SortedMap ColumnID (ColumnWrites R A)) (w : Worker (Index.Column R A))
    (id : ColumnID) : Bool :=
  match w.repositories id, writes.get? id with
  | some ⟨.multi b, _⟩, some columnWrites => b.takes columnWrites
  | _, _ => true

theorem Cells.written {writes : SortedMap ColumnID (ColumnWrites R A)} (h : w.Cells id M)
    (htakes : takes writes w id = true)
    (hok : written f (w.repositories id) (writes.get? id) = .ok (w'.repositories id)) :
    w'.Cells id ((writes.get? id).elim M (applyTo False M)) := by
  obtain ⟨b, v, hrepo, hM⟩ := h
  rw [takes, hrepo] at htakes
  rw [hrepo] at hok
  cases hwrites : writes.get? id with
  | none =>
    rw [hwrites, written_none] at hok
    exact ⟨b, v, (Except.ok.inj hok).symm, hM⟩
  | some columnWrites =>
    rw [hwrites] at htakes hok
    obtain ⟨repo₁, hrepo₁, hok⟩ := eq_ok_of_bind hok
    obtain ⟨b', hb', hM'⟩ := Index.Column.apply_multi hM
      ((Index.Column.takes_multi f.rowText b columnWrites).trans htakes)
    have hbuffer := (Repository.apply_eq_ok.mp hrepo₁).1
    obtain ⟨buffer, v'⟩ := repo₁
    obtain rfl := ok_unique hb' hbuffer
    exact ⟨b', v', (Except.ok.inj hok).symm, hM'⟩

theorem cells_of_bootstrap (h : bootstrap f podId = .ok w)
    (hid : id = podColumnPodID ∨ id = podColumnColumnID) : w.Cells id fun _ => none := by
  have hcreated : ∀ columnDef ∈ defaults, columnDef.bufferType = .multi →
      columnRequired < columnDef.columnID → w.Cells columnDef.columnID fun _ => none := by
    intro columnDef hdef hmulti hlt
    obtain ⟨⟨buffer, v⟩, hrepo, hbuffer⟩ := started_of_bootstrap h hdef
    have hbuffer := hbuffer hlt
    rw [createBuffer, hmulti] at hbuffer
    obtain rfl := Except.ok.inj hbuffer
    exact ⟨_, v, hrepo, Index.TreeBuffer.new_exact ..⟩
  rcases hid with rfl | rfl
  · exact hcreated ⟨400, "PodColumn.PodID", "Long", "Long", .multi, true⟩ (by decide) rfl (by decide)
  · exact hcreated ⟨401, "PodColumn.ColumnID", "Long", "Long", .multi, true⟩ (by decide) rfl (by decide)

end Worker

end Fastore.Hive
