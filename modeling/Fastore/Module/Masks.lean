import Fastore.Module.Cursor

/-!
The mask of the columns that SQLite reads.

The plan has the mask as the text of a natural number, and the cursor reads it as
a signed one. A mask with its last bit is too great for that: the number that is
stored instead has all bits but the last one. So the columns from 63 on are left
without a place, unless one of them is the range column, and are read where
column 0 is (`showsUsed_iff`).

The map of the columns is made when a cursor is filtered anew; a cursor that is
filtered again in the same way keeps it (`Cursor.MappedBy`).
-/

namespace Fastore.Module

open Lib Buffer Client List

open Hive (ColumnDef)

/-! ### The columns of a mask -/

def marks (colUsed i : ℕ) : Bool := colUsed.testBit (min i 63)

theorem mem_take_zipIdx {X : Type} {l : List X} {n i : ℕ} {x : X} :
    (x, i) ∈ l.zipIdx.take n ↔ l[i]? = some x ∧ i < n := by
  rw [mem_iff_getElem?]
  constructor
  · rintro ⟨k, hk⟩
    rw [getElem?_take] at hk
    split_ifs at hk with hlt
    rw [getElem?_zipIdx, Option.map_eq_some_iff] at hk
    obtain ⟨y, hy, heq⟩ := hk
    obtain ⟨rfl, hi⟩ := Prod.mk.inj heq
    obtain rfl : k = i := by omega
    exact ⟨hy, hlt⟩
  · rintro ⟨hx, hlt⟩
    exact ⟨i, by rw [getElem?_take_of_lt hlt, getElem?_zipIdx, hx, Option.map_some,
      zero_add]⟩

theorem mem_drop_zipIdx {X : Type} {l : List X} {n i : ℕ} {x : X} :
    (x, i) ∈ l.zipIdx.drop n ↔ l[i]? = some x ∧ n ≤ i := by
  rw [mem_iff_getElem?]
  constructor
  · rintro ⟨k, hk⟩
    rw [getElem?_drop, getElem?_zipIdx, Option.map_eq_some_iff] at hk
    obtain ⟨y, hy, heq⟩ := hk
    obtain ⟨rfl, hi⟩ := Prod.mk.inj heq
    obtain rfl : n + k = i := by omega
    exact ⟨hy, Nat.le_add_right ..⟩
  · rintro ⟨hx, hle⟩
    have hsum : n + (i - n) = i := by omega
    exact ⟨i - n, by rw [getElem?_drop, getElem?_zipIdx, hsum, hx, Option.map_some,
      zero_add]⟩

section Columns

variable {t : Table} {idx : List Char} {id : ColumnID} {column : ColumnDef} {i p : ℕ}

theorem mem_usedColumns {mask : ℕ} : (column, i) ∈ usedColumns t mask id ↔
    t.columns[i]? = some column ∧
      (i < 64 ∧ (mask.testBit i = true ∨ id = column.columnID) ∨ 64 ≤ i ∧ mask.testBit 63 = true) := by
  have hbit : ∀ k, (mask : ℤ).testBit k = mask.testBit k := fun k => rfl
  have hrest : (column, i) ∈ (if mask.testBit 63 = true then t.columns.zipIdx.drop 64 else []) ↔
      (t.columns[i]? = some column ∧ 64 ≤ i) ∧ mask.testBit 63 = true := by
    split_ifs with hmask
    · rw [mem_drop_zipIdx]
      simp [hmask]
    · simp [hmask]
  rw [usedColumns, mem_append, mem_filter, mem_take_zipIdx]
  simp only [hbit, hrest, Bool.or_eq_true, beq_iff_eq]
  tauto

theorem bitMask_encode (ops : List Operator) (colUsed : ℕ) :
    (bitMask (ops.map Operator.code ++ ';' :: decimal colUsed)).val =
      (min (2 ^ 63 - 1) colUsed : ℕ) := by
  have hscan : (scan (decimal colUsed)).1 = some (colUsed : ℤ) := by
    have h := scan_decimal (colUsed : ℤ) []
    rw [append_nil] at h
    rw [h]
    simp [followed]
  have hspace : (decimal colUsed).dropWhile isSpace = decimal colUsed := by
    simpa using (Stream.decimal_isSpace (colUsed : ℤ) []).2
  have hops : (ops.map Operator.code).dropWhile (· ≠ ';') = [] := by
    rw [dropWhile_eq_nil_iff]
    intro c hc
    obtain ⟨op, -, rfl⟩ := mem_map.mp hc
    cases op <;> decide
  have hdrop : ((ops.map Operator.code ++ ';' :: decimal colUsed).dropWhile (· ≠ ';')).tail =
      decimal colUsed := by
    rw [dropWhile_append, hops]
    simp
  have hcontains : (ops.map Operator.code ++ ';' :: decimal colUsed).contains ';' = true := by simp
  simp only [bitMask, hcontains, if_true, hdrop, hspace, hscan, Option.getD_some, Ranged.clamp]
  omega

theorem mem_of_get?_mapColumn {used : List (ColumnDef × ℕ)}
    (h : (used.foldl mapColumn (.empty, [])).1.get? i = some p) : ∃ column, (column, i) ∈ used := by
  induction used using List.reverseRecOn with
  | nil => simp at h
  | append_singleton used e ih =>
    simp only [foldl_append, foldl_cons, foldl_nil, mapColumn] at h
    rw [SortedMap.get?_insert] at h
    split_ifs at h with hi
    · obtain rfl : i = e.2 := by exact_mod_cast hi
      exact ⟨e.1, by simp⟩
    · obtain ⟨column, hmem⟩ := ih h
      exact ⟨column, mem_append_left _ hmem⟩

theorem columnMap_iff (hcolumn : t.columns[i]? = some column) :
    (∃ p, (columnMap t idx id).1.get? i = some p ∧
      (columnMap t idx id).2[p]? = some column.columnID) ↔
      (column, i) ∈ usedColumns t (bitMask idx).val id := by
  obtain ⟨hused, hplaces⟩ := columnMap_spec t idx id
  constructor
  · rintro ⟨p, hp, -⟩
    obtain ⟨column', hmem⟩ := mem_of_get?_mapColumn hp
    have hcolumn' := mk_mem_zipIdx_iff_getElem?.mp ((usedColumns_sublist t _ id).subset hmem)
    rwa [some_unique hcolumn hcolumn']
  · intro hmem
    obtain ⟨p, hp⟩ := mem_iff_getElem?.mp hmem
    exact ⟨p, hplaces p _ hp, by rw [hused, getElem?_map, hp, Option.map_some]⟩

end Columns

/-! ### The map of a cursor -/

section Cursors

variable {V R A : Type} [LinearOrder A] {t : Table}
  {fetch : Range A → List ColumnID → Option R → Except Fault (Page R A)}
  {tryConvertValue : ℤ → V → Option A} {c c' : Cursor R A} {idxNum : ℤ} {idx : List Char}
  {values : List A}

namespace Cursor

def MappedBy (t : Table) (idxNum : ℤ) (idx : List Char) (c : Cursor R A) : Prop :=
  ∃ column, vectorAt t.columns (decodeColumn idxNum) = .ok column ∧
    (c.colIndexToDataSetIndex, c.colUsed) = columnMap t idx column.columnID

/-- A cursor that has been used has its columns mapped by its last plan. -/
def Mapped (t : Table) (c : Cursor R A) : Prop :=
  c.initialUse = true ∨ c.MappedBy t c.idxNum c.idxString

structure SamePlan (c c' : Cursor R A) : Prop where
  initialUse : c'.initialUse = c.initialUse
  idxNum : c'.idxNum = c.idxNum
  idxString : c'.idxString = c.idxString
  map : c'.colIndexToDataSetIndex = c.colIndexToDataSetIndex
  colUsed : c'.colUsed = c.colUsed

omit [LinearOrder A] in
theorem SamePlan.trans {c'' : Cursor R A} (h : c.SamePlan c') (h' : c'.SamePlan c'') :
    c.SamePlan c'' :=
  ⟨h'.initialUse.trans h.initialUse, h'.idxNum.trans h.idxNum, h'.idxString.trans h.idxString,
    h'.map.trans h.map, h'.colUsed.trans h.colUsed⟩

omit [LinearOrder A] in
theorem SamePlan.mapped (h : c.SamePlan c') (hc : c.Mapped t) : c'.Mapped t := by
  rw [Mapped, MappedBy] at hc ⊢
  rwa [h.initialUse, h.idxNum, h.idxString, h.map, h.colUsed]

omit [LinearOrder A] in
theorem setPage_samePlan (c : Cursor R A) (page : Page R A) : c.SamePlan (c.setPage page) := by
  rcases c.setPage_cases page with ⟨-, h⟩ | ⟨-, h⟩ <;> rw [h] <;> exact ⟨rfl, rfl, rfl, rfl, rfl⟩

omit [LinearOrder A] in
theorem getNextSet_samePlan (h : c.getNextSet fetch = .ok c') : c.SamePlan c' := by
  rw [getNextSet] at h
  split_ifs at h
  · obtain ⟨page, -, h⟩ := eq_ok_of_bind h
    obtain rfl := Except.ok.inj h
    exact c.setPage_samePlan page
  · obtain rfl := Except.ok.inj h
    exact ⟨rfl, rfl, rfl, rfl, rfl⟩
  · obtain ⟨last, -, h⟩ := eq_ok_of_bind h
    obtain ⟨page, -, rfl⟩ := eq_ok_of_map h
    have hsame := setPage_samePlan { c with needsReset := true } page
    exact ⟨hsame.initialUse, hsame.idxNum, hsame.idxString, hsame.map, hsame.colUsed⟩

theorem checkValue_samePlan (h : c.checkValue = .ok c') : c.SamePlan c' := by
  rw [checkValue] at h
  split_ifs at h
  · obtain ⟨value, -, h⟩ := eq_ok_of_bind h
    obtain ⟨filterValue, -, rfl⟩ := eq_ok_of_map h
    split_ifs <;> exact ⟨rfl, rfl, rfl, rfl, rfl⟩
  · obtain ⟨row, -, h⟩ := eq_ok_of_bind h
    obtain rfl := Except.ok.inj h
    split_ifs <;> exact ⟨rfl, rfl, rfl, rfl, rfl⟩
  · obtain rfl := Except.ok.inj h
    exact ⟨rfl, rfl, rfl, rfl, rfl⟩

theorem next_samePlan (h : c.next fetch = .ok c') : c.SamePlan c' := by
  simp only [next] at h
  split_ifs at h
  · obtain ⟨c₁, hc₁, h⟩ := eq_ok_of_bind h
    have hsame := getNextSet_samePlan hc₁
    refine SamePlan.trans ?_ (checkValue_samePlan h)
    exact ⟨hsame.initialUse, hsame.idxNum, hsame.idxString, hsame.map, hsame.colUsed⟩
  · have hsame := checkValue_samePlan h
    exact ⟨hsame.initialUse, hsame.idxNum, hsame.idxString, hsame.map, hsame.colUsed⟩

theorem Mapped.steps {k : ℕ} (hc : c.Mapped t) (h : Cursor.steps fetch k c = .ok c') :
    c'.Mapped t := by
  induction k generalizing c with
  | zero =>
    obtain rfl := Except.ok.inj h
    exact hc
  | succ k ih =>
    rw [Cursor.steps] at h
    split_ifs at h
    · obtain rfl := Except.ok.inj h
      exact hc
    · obtain ⟨c₁, hc₁, h⟩ := eq_ok_of_bind h
      exact ih ((next_samePlan hc₁).mapped hc) h

omit [LinearOrder A] in
theorem restart_mapped (hcol : c.colIndex = decodeColumn idxNum)
    (h : c.restart t fetch idxNum idx values = .ok c') :
    c'.initialUse = false ∧ c'.idxNum = idxNum ∧ c'.idxString = idx ∧ c'.MappedBy t idxNum idx := by
  rw [restart_eq fetch hcol] at h
  obtain ⟨r, hr, h⟩ := eq_ok_of_bind h
  obtain ⟨page, -, rfl⟩ := eq_ok_of_map h
  obtain ⟨column, hcolumn, hid⟩ := createRange_column hr
  have hsame := setPage_samePlan (prepared (R := R) t idxNum idx values r.1 r.2) page
  refine ⟨hsame.initialUse, hsame.idxNum, hsame.idxString, column, hcolumn, ?_⟩
  rw [hsame.map, hsame.colUsed, ← hid]
  rfl

theorem reuse_samePlan (h : c.reuse t idxNum idx values = .ok (some c')) :
    c.SamePlan c' ∧ c.initialUse = false ∧ c.idxNum = idxNum ∧ c.idxString = idx := by
  have hresume : ∀ {index : ℤ}, (if 0 ≤ index then do
      let c ← setRange t { c with index := index, values := values, endOfFilter := false }
      .ok (some c)
    else .ok none) = Except.ok (some c') → c.SamePlan c' := by
    intro index h
    split_ifs at h
    · obtain ⟨c₁, hc₁, h⟩ := eq_ok_of_bind h
      obtain ⟨r, -, rfl⟩ := eq_ok_of_map hc₁
      obtain rfl := Option.some.inj (Except.ok.inj h)
      exact ⟨rfl, rfl, rfl, rfl, rfl⟩
    · cases h
  rw [reuse] at h
  by_cases hplan : !c.initialUse ∧ c.idxNum = idxNum ∧ c.idxString = idx
  · refine ⟨?_, by simpa using hplan⟩
    rw [if_pos hplan] at h
    by_cases hequality : c.isEquality = true
    · rw [if_pos hequality] at h
      obtain ⟨value, -, h⟩ := eq_ok_of_bind h
      obtain ⟨here, -, h⟩ := eq_ok_of_bind h
      dsimp only at h
      split at h
      · exact hresume h
      · obtain ⟨index, -, h⟩ := eq_ok_of_bind h
        exact hresume h
    · rw [if_neg hequality] at h
      split at h
      · obtain rfl := Option.some.inj (Except.ok.inj h)
        exact ⟨rfl, rfl, rfl, rfl, rfl⟩
      · cases h
  · rw [if_neg hplan] at h
    cases h

/-- **A filter** leaves the columns mapped by its plan, unless it returns early. -/
theorem Mapped.filter {argv : List V} {code : Code} (hc : c.Mapped t)
    (h : c.filter t fetch tryConvertValue idxNum idx argv = .ok (c', code)) :
    code = .ok ∧ c'.initialUse = false ∧ c'.idxNum = idxNum ∧ c'.idxString = idx ∧
        c'.MappedBy t idxNum idx ∨ code ≠ .ok ∧ c'.Mapped t := by
  simp only [Cursor.filter] at h
  cases hvalues : getVector tryConvertValue (decodeColumn idxNum) argv with
  | none =>
    rw [hvalues] at h
    obtain ⟨rfl, rfl⟩ := Prod.mk.inj (Except.ok.inj h)
    exact .inr ⟨by simp, hc⟩
  | some values =>
    rw [hvalues] at h
    obtain ⟨reused, hreuse, h⟩ := eq_ok_of_bind h
    cases reused with
    | none =>
      obtain ⟨c₁, hrestart, h⟩ := eq_ok_of_bind h
      obtain ⟨rfl, rfl⟩ := Prod.mk.inj (Except.ok.inj h)
      exact .inl ⟨rfl, restart_mapped rfl hrestart⟩
    | some c₁ =>
      obtain ⟨rfl, rfl⟩ := Prod.mk.inj (Except.ok.inj h)
      obtain ⟨hsame, hused, hnum, hidx⟩ := reuse_samePlan hreuse
      have hmapped := (hsame.mapped (t := t) hc).resolve_left fun hinitial => by
        rw [hsame.initialUse, hused] at hinitial
        cases hinitial
      rw [hsame.idxNum, hsame.idxString, hnum, hidx] at hmapped
      exact .inl ⟨rfl, hsame.initialUse.trans hused, hsame.idxNum.trans hnum,
        hsame.idxString.trans hidx, hmapped⟩

theorem mapped_of_run {history : List (Scan V)}
    (h : run t fetch tryConvertValue history = .ok c) : c.Mapped t := by
  refine foldlM_preserves ?_ (.inl rfl) h
  intro c s c' hc hok
  obtain ⟨⟨c₁, code⟩, hfilter, hok⟩ := eq_ok_of_bind hok
  rcases hc.filter hfilter with ⟨rfl, -, hnum, hidx, hmapped⟩ | ⟨hcode, hmapped⟩
  · rw [← hnum, ← hidx] at hmapped
    exact Mapped.steps (.inr hmapped) hok
  · simp only [if_neg hcode] at hok
    obtain rfl := Except.ok.inj hok
    exact hmapped

/-! ### The columns that SQLite reads -/

/-- Each column of the mask has a place in the rows with its values, and SQLite gets its
value there. -/
structure ShowsUsed (t : Table) (colUsed : ℕ) (c : Cursor R A) : Prop where
  mapped : ∀ (i : ℕ) column, t.columns[i]? = some column → marks colUsed i = true →
    ∃ p, c.colIndexToDataSetIndex.get? i = some p ∧ c.colUsed[p]? = some column.columnID
  shown : ∀ (row : DataSetRow R A) (value : ColumnID → Option A), row.values = c.colUsed.map value →
    ∀ (i : ℕ) column, t.columns[i]? = some column → marks colUsed i = true →
      (c.resultRow t row).columns[i]? = some (some (value column.columnID))

omit [LinearOrder A] in
theorem resultRow_columns (c : Cursor R A) (row : DataSetRow R A) :
    (c.resultRow t row).columns =
      (List.range t.columns.length).map fun i : ℕ => row.values[c.dataSetIndex i]? := by
  change List.map _ ((List.range t.columns.length).flatMap fun i : ℕ => [(i : ℤ)]) = _
  rw [← map_eq_flatMap, map_map]
  rfl

omit [LinearOrder A] in
theorem showsUsed_of_mapped {colUsed : ℕ}
    (h : ∀ (i : ℕ) column, t.columns[i]? = some column → marks colUsed i = true →
      ∃ p, c.colIndexToDataSetIndex.get? i = some p ∧ c.colUsed[p]? = some column.columnID) :
    c.ShowsUsed t colUsed := by
  refine ⟨h, fun row value hrow i column hcolumn hmarks => ?_⟩
  obtain ⟨p, hp, hid⟩ := h i column hcolumn hmarks
  have hi : i < t.columns.length := (List.getElem?_eq_some_iff.mp hcolumn).1
  have hindex : c.dataSetIndex i = p := by rw [dataSetIndex, hp, Option.getD_some]
  rw [resultRow_columns, getElem?_map, getElem?_range hi, Option.map_some, hindex,
    hrow, getElem?_map, hid, Option.map_some]

omit [LinearOrder A] in
theorem MappedBy.showsUsed_iff_range {ops : List Operator} {colUsed : ℕ}
    (h : c.MappedBy t idxNum (ops.map Operator.code ++ ';' :: decimal colUsed)) :
    ∃ rangeColumn, vectorAt t.columns (decodeColumn idxNum) = .ok rangeColumn ∧
      (c.ShowsUsed t colUsed ↔ ∀ (i : ℕ) column, t.columns[i]? = some column →
        marks colUsed i = true → (column, i) ∈
          usedColumns t (min (2 ^ 63 - 1) colUsed : ℕ) rangeColumn.columnID) := by
  obtain ⟨rangeColumn, hrange, hmap⟩ := h
  obtain ⟨hmap, hused⟩ := Prod.mk.inj hmap
  refine ⟨rangeColumn, hrange, fun hshows i column hcolumn hmarks => ?_, fun hmem => ?_⟩
  · obtain ⟨p, hp⟩ := hshows.mapped i column hcolumn hmarks
    rw [← bitMask_encode ops]
    rw [hmap, hused] at hp
    exact (columnMap_iff hcolumn).mp ⟨p, hp⟩
  · refine showsUsed_of_mapped fun i column hcolumn hmarks => ?_
    rw [hmap, hused]
    refine (columnMap_iff hcolumn).mpr ?_
    rw [bitMask_encode]
    exact hmem i column hcolumn hmarks

end Cursor

end Cursors

theorem testBit_greatest (i : ℕ) : (2 ^ 63 - 1).testBit i = decide (i < 63) :=
  Nat.testBit_two_pow_sub_one 63 i

theorem marks_last {colUsed i : ℕ} (hlow : 2 ^ 63 ≤ colUsed) (hhigh : colUsed < 2 ^ 64)
    (hi : 63 ≤ i) : marks colUsed i = true := by
  rw [marks, min_eq_right hi]
  refine Nat.testBit_of_two_pow_le_and_two_pow_add_one_gt hlow hhigh

/-- When all columns that the mask marks are used. -/
theorem mem_usedColumns_iff {t : Table} {id : ColumnID} {colUsed : ℕ} (hmask : colUsed < 2 ^ 64) :
    (∀ (i : ℕ) column, t.columns[i]? = some column → marks colUsed i = true →
      (column, i) ∈ usedColumns t (min (2 ^ 63 - 1) colUsed : ℕ) id) ↔
      colUsed < 2 ^ 63 ∨ t.columns.length ≤ 63 ∨
        t.columns.length = 64 ∧ (t.columns[63]?).map (·.columnID) = some id := by
  simp only [mem_usedColumns]
  by_cases hsmall : colUsed < 2 ^ 63
  · rw [min_eq_right (by omega)]
    refine iff_of_true (fun i column hcolumn hmarks => ⟨hcolumn, ?_⟩) (.inl hsmall)
    by_cases hi : i < 63
    · rw [marks, min_eq_left hi.le] at hmarks
      exact .inl ⟨by omega, .inl hmarks⟩
    · rw [marks, min_eq_right (by omega), Nat.testBit_lt_two_pow hsmall] at hmarks
      cases hmarks
  · rw [min_eq_left (by omega)]
    simp only [testBit_greatest, decide_eq_true_eq, lt_irrefl, and_false, or_false]
    constructor
    · intro hall
      refine .inr (or_iff_not_imp_left.mpr fun hlength => ?_)
      have hget : ∀ i, i < t.columns.length → 63 ≤ i → i < 64 ∧ ∃ column,
          t.columns[i]? = some column ∧ (i < 63 ∨ id = column.columnID) := fun i hi hle => by
        obtain ⟨column, hcolumn⟩ : ∃ column, t.columns[i]? = some column :=
          ⟨_, getElem?_eq_getElem hi⟩
        obtain ⟨-, hlt, hid⟩ := hall i column hcolumn (marks_last (not_lt.mp hsmall) hmask hle)
        exact ⟨hlt, column, hcolumn, hid⟩
      obtain ⟨-, column, hcolumn, hid⟩ := hget 63 (by omega) (le_refl _)
      refine ⟨?_, ?_⟩
      · by_contra hne
        have := (hget 64 (by omega) (by omega)).1
        omega
      · rw [hcolumn, Option.map_some, hid.resolve_left (by omega)]
    · rintro (hsmall' | hlength | ⟨hlength, hid⟩) i column hcolumn -
      · exact absurd hsmall' hsmall
      · have := (List.getElem?_eq_some_iff.mp hcolumn).1
        exact ⟨hcolumn, by omega, .inl (by omega)⟩
      · have hi := (List.getElem?_eq_some_iff.mp hcolumn).1
        refine ⟨hcolumn, by omega, ?_⟩
        rcases Nat.lt_or_ge i 63 with hlt | hge
        · exact .inl hlt
        · obtain rfl : i = 63 := by omega
          rw [hcolumn, Option.map_some] at hid
          exact .inr (Option.some.inj hid).symm

/-- **The mask of the columns**: after any history, every column that SQLite reads has its
place and is read there if and only if the mask is without its last bit or there is no
column from 63 on but the range column. -/
theorem showsUsed_iff {V R A D : Type} [LinearOrder A] [LinearOrder D] {t : Table}
    {fetch : Range A → List ColumnID → Option R → Except Fault (Page R A)}
    {tryConvertValue : ℤ → V → Option A} {history : List (Scan V)} {c c' : Cursor R A}
    (hrun : Cursor.run t fetch tryConvertValue history = .ok c) {d : Doubles D} {info : IndexInfo}
    {numIterations : D} {colUsed : ℕ} {plan : Plan D} (hmask : colUsed < 2 ^ 64)
    (hplan : bestIndex d t info numIterations colUsed = .ok plan) {argv : List V}
    (hfilter : c.filter t fetch tryConvertValue plan.idxNum plan.idxStr argv = .ok (c', .ok)) :
    c'.ShowsUsed t colUsed ↔ colUsed < 2 ^ 63 ∨ t.columns.length ≤ 63 ∨
      t.columns.length = 64 ∧ (t.columns[63]?).map (·.columnID) =
        (t.columns[(decodeColumn plan.idxNum).toNat]?).map (·.columnID) := by
  obtain ⟨w, rows, hw, hrows, husage, hnum, hstr, -⟩ := bestIndex_spec hplan
  rcases (Cursor.mapped_of_run hrun).filter hfilter with ⟨-, -, -, -, hmapped⟩ | ⟨hcode, -⟩
  swap
  · exact absurd rfl hcode
  rw [hstr] at hmapped
  obtain ⟨rangeColumn, hrange, hiff⟩ := hmapped.showsUsed_iff_range
  obtain ⟨-, hrange⟩ := vectorAt_eq_ok.mp hrange
  rw [hiff, hrange, Option.map_some]
  exact mem_usedColumns_iff hmask

def idPage (columnIds : List ColumnID) : Page ℤ ℕ := { data := [⟨⟨1, columnIds.map some⟩, false⟩] }

def filtered (t : Table) (info : IndexInfo) (colUsed : ℕ) (argv : List ℕ) :
    Except Fault (Plan ℚ × Cursor ℤ ℕ × Code) := do
  let plan ← bestIndex exactDoubles t info 1 colUsed
  let r ← Cursor.filter t (fun _ columnIds _ => .ok (idPage columnIds)) (fun _ => some) {}
    plan.idxNum plan.idxStr argv
  .ok (plan, r)

def wideTable (k : ℕ) : Table where
  columns := (List.range (k + 1)).map fun i => ⟨30000 + i, "t.c", "Long", "Long", .multi, false⟩
  stats := List.replicate (k + 1) ⟨0, 0⟩
  rowIDIndex := none
  stats_length := by simp
  columns_pos := by simp
  rowIDIndex_lt := by simp

/-- `c63 >= 5`. -/
def lastLower : IndexInfo := ⟨[⟨63, .ge, true⟩], []⟩

/-- The last of 64 columns has its place if the range is over it. -/
theorem showsUsed_last : ∃ (plan : Plan ℚ) (c : Cursor ℤ ℕ),
    filtered (wideTable 63) lastLower (2 ^ 63) [5] = .ok (plan, c, .ok) ∧
    c.ShowsUsed (wideTable 63) (2 ^ 63) := by
  have hrun : (filtered (wideTable 63) lastLower (2 ^ 63) [5]).toOption.any (fun r =>
      r.2.2 == .ok && decodeColumn r.1.idxNum == 63) = true := by decide +kernel
  obtain ⟨⟨plan, c, code⟩, hr, htest⟩ := exists_ok_of_any hrun
  simp only [Bool.and_eq_true, beq_iff_eq] at htest
  obtain ⟨rfl, hcolumn⟩ := htest
  refine ⟨plan, c, hr, ?_⟩
  obtain ⟨plan', hplan, hr⟩ := eq_ok_of_bind hr
  obtain ⟨r, hfilter, hr⟩ := eq_ok_of_bind hr
  obtain ⟨rfl, rfl⟩ := Prod.mk.inj (Except.ok.inj hr)
  have hnew : Cursor.run (wideTable 63) (fun _ columnIds _ => .ok (idPage columnIds))
    (fun _ => (some : ℕ → Option ℕ)) [] = .ok {} := rfl
  exact (showsUsed_iff hnew (by decide) hplan hfilter).mpr
    (.inr (.inr ⟨by decide, by rw [hcolumn]; rfl⟩))

/-- SQLite reads the columns from 63 on and gets column 0 for column 64. -/
theorem wideTable_mistaken : ∃ (plan : Plan ℚ) (c : Cursor ℤ ℕ),
    filtered (wideTable 64) ⟨[], []⟩ (2 ^ 63) [] = .ok (plan, c, .ok) ∧
    marks (2 ^ 63) 64 = true ∧ ((wideTable 64).columns[64]?).map (·.columnID) = some 30064 ∧
    (c.resultRow (wideTable 64) ⟨1, c.colUsed.map some⟩).columns[64]? = some (some (some 30000)) := by
  have hrun : (filtered (wideTable 64) ⟨[], []⟩ (2 ^ 63) []).toOption.any (fun r => r.2.2 == .ok &&
      (r.2.1.resultRow (wideTable 64) ⟨1, r.2.1.colUsed.map some⟩).columns[64]? ==
        some (some (some 30000))) = true := by decide +kernel
  obtain ⟨⟨plan, c, code⟩, hr, htest⟩ := exists_ok_of_any hrun
  simp only [Bool.and_eq_true, beq_iff_eq] at htest
  obtain ⟨rfl, hcolumn⟩ := htest
  exact ⟨plan, c, hr, by decide +kernel, by decide +kernel, hcolumn⟩

end Fastore.Module
