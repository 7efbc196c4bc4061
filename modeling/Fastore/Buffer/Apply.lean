import Fastore.Buffer.Cells

/-!
The buffers keep their cells.

Each buffer, with all its indexes and counters, is determined by the cells
it holds (`Holds`), and `Apply` does to the buffer what `applyTo` does to
the cells. So the indexes of a buffer agree with one another after any
sequence of writes, the statistics are the true counts, and a list of
writes can be applied twice.
-/

namespace Fastore.Buffer

open Lib Fastore.Tree List SortedMap

variable {P R A : Type} [LinearOrder R] [LinearOrder A]

theorem getPath_snd {X : Type} (m : SortedMap A X) (key : A) :
    (getPath m key).2 = (m.get? key).isSome := rfl

theorem deref_rank {X : Type} {m : SortedMap A X} {key : A} {x : X} (h : m.get? key = some x) :
    deref m (getPath m key).1 = .ok (key, x) := by
  rw [deref, getPath, getElem?_rank h]

/-! ### Unique columns -/

/-- The buffer holds the cells `M`, with `payload` kept for the value of a
row. -/
structure UniqueIndex.Holds (payload : A → P) (b : UniqueIndex P R A) (M : R → Option A) :
    Prop where
  rows : ∀ r, b.rows.get? r = (M r).map payload
  values : ∀ a r, b.values.get? a = some r ↔ M r = some a
  rows_size : b.count = b.rows.size
  values_size : b.count = b.values.size

namespace UniqueIndex

variable {payload : A → P} {b b' : UniqueIndex P R A} {M : R → Option A}

theorem holds_new : (new : UniqueIndex P R A).Holds payload fun _ => none :=
  ⟨fun _ => rfl, fun _ _ => by simp [new], rfl, rfl⟩

theorem Holds.unambiguous (h : b.Holds payload M) : Unambiguous M := fun r r' a hr hr' =>
  Option.some.inj (((h.values a r).mpr hr).symm.trans ((h.values a r').mpr hr'))

theorem Holds.eq (h : b.Holds payload M) (h' : b'.Holds payload M) : b = b' := by
  have hrows : b.rows = b'.rows := ext_get? fun r => by rw [h.rows, h'.rows]
  have hvalues : b.values = b'.values := ext_get? fun a => by
    ext r
    rw [h.values, h'.values]
  have hcount : b.count = b'.count := by rw [h.rows_size, h'.rows_size, hrows]
  obtain ⟨rows, values, count⟩ := b
  cases hrows
  cases hvalues
  cases hcount
  rfl

/-- The first cell of a row and of a value stays. -/
theorem Holds.includeRow (h : b.Holds payload M) (cell : Cell R A) :
    (b.includeRow cell.rowID cell.value (payload cell.value)).1.Holds payload
      (put True M cell) := by
  rw [UniqueIndex.includeRow, getPath_snd, getPath_snd, h.rows]
  cases hr : M cell.rowID with
  | some a =>
    rw [put_of_row (by simp [hr])]
    exact h
  | none =>
    cases hv : b.values.get? cell.value with
    | some r =>
      rw [put_of_value trivial ((h.values _ _).mp hv)]
      exact h
    | none =>
      have hnew : True → ∀ r, M r ≠ some cell.value := fun _ r hM => by
        rw [(h.values _ _).mpr hM] at hv
        exact absurd hv (by simp)
      have hrow : b.rows.get? cell.rowID = none := by simp [h.rows, hr]
      simp only [Option.map_none, Option.isSome_none, Bool.false_eq_true, if_false]
      refine ⟨fun r => ?_, fun a r => ?_, ?_, ?_⟩
      · rw [put_new_apply hr hnew, get?_insert]
        split
        · rfl
        · exact h.rows r
      · rw [put_new_apply hr hnew, get?_insert]
        by_cases ha : a = cell.value
        · by_cases hrr : r = cell.rowID
          · simp [ha, hrr]
          · simp [ha, hrr, hnew trivial r, Ne.symm hrr]
        · by_cases hrr : r = cell.rowID
          · simp [ha, hrr, h.values, hr, Ne.symm ha]
          · simp [ha, hrr, h.values]
      · simp [size_insert hrow, h.rows_size]
      · simp [size_insert hv, h.values_size]

theorem Holds.foldl_includeRow (h : b.Holds payload M) (cells : List (Cell R A)) :
    (cells.foldl (fun b cell => (b.includeRow cell.rowID cell.value (payload cell.value)).1) b).Holds
      payload (cells.foldl (put True) M) := by
  induction cells generalizing b M with
  | nil => exact h
  | cons cell cells ih => exact ih (h.includeRow cell)

/-- A row that is excluded takes its value with it. -/
theorem Holds.excludeRow (h : b.Holds payload M) (rowId : R) :
    ∃ b' done, b.excludeRow rowId (M rowId) = .ok (b', done) ∧
      b'.Holds payload (remove M rowId) := by
  cases hr : M rowId with
  | none =>
    refine ⟨b, false, ?_, by rwa [remove_of_none hr]⟩
    simp [UniqueIndex.excludeRow, getPath_snd, h.rows, hr]
  | some a =>
    have hrow : b.rows.get? rowId = some (payload a) := by simp [h.rows, hr]
    have hval : b.values.get? a = some rowId := (h.values a rowId).mpr hr
    refine ⟨⟨b.rows.eraseAt (b.rows.rank rowId), b.values.eraseAt (b.values.rank a),
      b.count - 1⟩, true, ?_, ?_⟩
    · have hderef := deref_rank hval
      simp only [getPath] at hderef
      simp [UniqueIndex.excludeRow, getPath, hrow, pointee, hval, hderef, bind, Except.bind]
    · have hsr := size_eraseAt_rank hrow
      have hsv := size_eraseAt_rank hval
      have h₁ := h.rows_size
      have h₂ := h.values_size
      refine ⟨fun r => ?_, fun a' r => ?_, ?_, ?_⟩
      · rw [remove_apply, get?_eraseAt_rank hrow]
        split
        · rfl
        · exact h.rows r
      · rw [remove_apply, get?_eraseAt_rank hval]
        by_cases ha : a' = a
        · by_cases hrr : r = rowId
          · simp [ha, hrr]
          · have hne : M r ≠ some a := fun hM => hrr (h.unambiguous r rowId a hM hr)
            simp [ha, hrr, hne]
        · by_cases hrr : r = rowId
          · simp [ha, hrr, h.values, hr, Ne.symm ha]
          · simp [ha, hrr, h.values]
      · simp only
        omega
      · simp only
        omega

theorem Holds.applyExcludes (getValue : UniqueIndex P R A → R → Except Fault (Option A))
    (hget : ∀ (b : UniqueIndex P R A) (M : R → Option A), b.Holds payload M →
      ∀ r, getValue b r = .ok (M r))
    (h : b.Holds payload M) (rowIds : List R) :
    ∃ b', UniqueIndex.applyExcludes getValue b rowIds = .ok b' ∧
      b'.Holds payload (rowIds.foldl remove M) := by
  induction rowIds generalizing b M with
  | nil => exact ⟨b, rfl, h⟩
  | cons rowId rowIds ih =>
    obtain ⟨b₁, done, hex, h₁⟩ := h.excludeRow rowId
    obtain ⟨b', hrest, h'⟩ := ih h₁
    refine ⟨b', ?_, h'⟩
    simp only [UniqueIndex.applyExcludes, hget b M h, hex, bind, Except.bind, hrest]

end UniqueIndex

variable {a : A} {M : R → Option A}

theorem UniqueInlineBuffer.getValue_eq {b : UniqueInlineBuffer R A} (h : b.Holds id M) (r : R) :
    UniqueInlineBuffer.getValue b r = .ok (M r) := by
  have hrow := h.rows r
  rw [Option.map_id, id] at hrow
  cases hr : M r with
  | none => simp [UniqueInlineBuffer.getValue, findNearest, getPath_snd, hrow, hr]
  | some a =>
    have hget : b.rows.get? r = some a := hrow.trans hr
    simp [UniqueInlineBuffer.getValue, findNearest, getPath_snd, hget, deref_rank hget, bind,
      Except.bind]

theorem UniqueBuffer.getValue_eq {b : UniqueBuffer R A} (h : b.Holds (fun _ => ()) M) (r : R) :
    UniqueBuffer.getValue b r = .ok (M r) := by
  have hrow := h.rows r
  cases hr : M r with
  | none => simp [UniqueBuffer.getValue, findNearest, getPath_snd, hrow, hr]
  | some a =>
    have hmem : (a, r) ∈ b.values.entries := get?_eq_some.mp ((h.values a r).mpr hr)
    obtain ⟨e, he⟩ : ∃ e, b.values.entries.find? (·.2 = r) = some e := by
      rw [← Option.isSome_iff_exists, find?_isSome]
      exact ⟨_, hmem, by simp⟩
    have hrow' : e.2 = r := by simpa using find?_some he
    have hkey : M r = some e.1 := by
      rw [← h.values, get?_eq_some, ← hrow']
      exact mem_of_find?_eq_some he
    have hsome : (b.rows.get? r).isSome = true := by simp [hrow, hr]
    simp [UniqueBuffer.getValue, findNearest, getPath_snd, hsome, he, ← hkey, hr]

theorem UniqueInlineBuffer.apply_holds {b : UniqueInlineBuffer R A} (h : b.Holds id M)
    (writes : ColumnWrites R A) :
    ∃ b', UniqueInlineBuffer.apply b writes = .ok b' ∧ b'.Holds id (applyTo True M writes) := by
  obtain ⟨b₁, hex, h₁⟩ := h.applyExcludes UniqueInlineBuffer.getValue
    (fun _ _ h r => UniqueInlineBuffer.getValue_eq h r) writes.excludes
  exact ⟨_, by simp only [UniqueInlineBuffer.apply, hex, bind, Except.bind]; rfl,
    h₁.foldl_includeRow writes.includes⟩

theorem UniqueBuffer.apply_holds {b : UniqueBuffer R A} (h : b.Holds (fun _ => ()) M)
    (writes : ColumnWrites R A) :
    ∃ b', UniqueBuffer.apply b writes = .ok b' ∧
      b'.Holds (fun _ => ()) (applyTo True M writes) := by
  obtain ⟨b₁, hex, h₁⟩ := h.applyExcludes UniqueBuffer.getValue
    (fun _ _ h r => UniqueBuffer.getValue_eq h r) writes.excludes
  exact ⟨_, by simp only [UniqueBuffer.apply, hex, bind, Except.bind]; rfl,
    h₁.foldl_includeRow writes.includes⟩

/-! ### IdentityBuffer -/

/-- The buffer holds the cells `M`, in which every row is its own value. -/
structure IdentityBuffer.Holds (b : IdentityBuffer R) (M : R → Option R) : Prop where
  rows : ∀ r, b.rows.get? r = (M r).map fun _ => ()
  own : ∀ r a, M r = some a → a = r
  rows_size : b.count = b.rows.size

namespace IdentityBuffer

variable {b b' : IdentityBuffer R} {M : R → Option R}

theorem holds_new : (new : IdentityBuffer R).Holds fun _ => none :=
  ⟨fun _ => rfl, fun _ _ h => by simp at h, rfl⟩

theorem Holds.eq (h : b.Holds M) (h' : b'.Holds M) : b = b' := by
  have hrows : b.rows = b'.rows := ext_get? fun r => by rw [h.rows, h'.rows]
  have hcount : b.count = b'.count := by rw [h.rows_size, h'.rows_size, hrows]
  obtain ⟨rows, count⟩ := b
  cases hrows
  cases hcount
  rfl

theorem Holds.includeRow (h : b.Holds M) {cell : Cell R R} (hcell : cell.value = cell.rowID) :
    (b.includeRow cell.rowID).1.Holds (put False M cell) := by
  rw [IdentityBuffer.includeRow, getPath_snd, h.rows]
  cases hr : M cell.rowID with
  | some a =>
    rw [put_of_row (by simp [hr])]
    exact h
  | none =>
    have hrow : b.rows.get? cell.rowID = none := by simp [h.rows, hr]
    refine ⟨fun r => ?_, fun r a => ?_, ?_⟩
    · rw [put_new_apply hr (fun hu => hu.elim)]
      simp only [Option.map_none, Option.isSome_none, Bool.false_eq_true, if_false,
        get?_insert]
      split
      · rfl
      · exact h.rows r
    · rw [put_new_apply hr (fun hu => hu.elim)]
      split
      · rename_i hrr
        intro ha
        rw [← Option.some.inj ha, hcell, hrr]
      · exact h.own r a
    · simp [size_insert hrow, h.rows_size]

theorem Holds.excludeRow (h : b.Holds M) (rowId : R) :
    (b.excludeRow rowId).1.Holds (remove M rowId) := by
  rw [IdentityBuffer.excludeRow, getPath_snd, h.rows]
  cases hr : M rowId with
  | none =>
    rw [remove_of_none hr]
    exact h
  | some a =>
    have hrow : b.rows.get? rowId = some () := by simp [h.rows, hr]
    have hsize := size_eraseAt_rank hrow
    have hcount := h.rows_size
    refine ⟨fun r => ?_, fun r a' => ?_, ?_⟩
    · rw [remove_apply]
      simp only [Option.map_some, Option.isSome_some, Bool.not_true, Bool.false_eq_true, if_false,
        getPath, get?_eraseAt_rank hrow]
      split
      · rfl
      · exact h.rows r
    · rw [remove_apply]
      split
      · simp
      · exact h.own r a'
    · simp only [Option.map_some, Option.isSome_some, Bool.not_true, Bool.false_eq_true,
        if_false, getPath]
      omega

theorem Holds.foldl_excludeRow (h : b.Holds M) (rowIds : List R) :
    (rowIds.foldl (fun b rowId => (b.excludeRow rowId).1) b).Holds (rowIds.foldl remove M) := by
  induction rowIds generalizing b M with
  | nil => exact h
  | cons rowId rowIds ih => exact ih (h.excludeRow rowId)

theorem Holds.applyIncludes (h : b.Holds M) {cells : List (Cell R R)}
    (hok : b.applyIncludes cells = .ok b') : b'.Holds (cells.foldl (put False) M) := by
  induction cells generalizing b M with
  | nil =>
    obtain rfl := Except.ok.inj hok
    exact h
  | cons cell cells ih =>
    rw [IdentityBuffer.applyIncludes] at hok
    by_cases hcell : cell.value = cell.rowID
    · rw [if_neg (not_not.mpr hcell)] at hok
      exact ih (h.includeRow hcell) hok
    · rw [if_pos hcell] at hok
      exact absurd hok (by simp)

theorem apply_holds (h : b.Holds M) {writes : ColumnWrites R R} (hok : b.apply writes = .ok b') :
    b'.Holds (applyTo False M writes) :=
  (h.foldl_excludeRow writes.excludes).applyIncludes hok

theorem applyIncludes_isOk (cells : List (Cell R R)) (b b' : IdentityBuffer R) :
    (b.applyIncludes cells).isOk = (b'.applyIncludes cells).isOk := by
  induction cells generalizing b b' with
  | nil => rfl
  | cons cell cells ih =>
    rw [IdentityBuffer.applyIncludes, IdentityBuffer.applyIncludes]
    split
    · rfl
    · exact ih _ _

end IdentityBuffer

/-! ### TreeBuffer -/

/-- The buffer holds the cells `M`. -/
structure TreeBuffer.Holds (b : TreeBuffer R A) (M : R → Option A) : Prop where
  rows : ∀ r, b.rows.get? r = (M r).map fun _ => ()
  values : ∀ a r, (∃ T, b.values.get? a = some T ∧ T.get? r = some ()) ↔ M r = some a
  nonempty : ∀ a T, b.values.get? a = some T → T.size ≠ 0
  total : b.total = b.rows.size
  unique : b.unique = b.values.size

variable {T : SortedMap R Unit}

namespace TreeBuffer

variable {b b' : TreeBuffer R A} {M : R → Option A}

theorem holds_new : (new : TreeBuffer R A).Holds fun _ => none :=
  ⟨fun _ => rfl, fun _ _ => by simp [new], fun _ _ h => by simp [new] at h, rfl, rfl⟩

theorem Holds.get?_tree (h : b.Holds M) (hT : b.values.get? a = some T) (r : R) :
    T.get? r = some () ↔ M r = some a := by
  rw [← h.values]
  constructor
  · exact fun hr => ⟨T, hT, hr⟩
  · rintro ⟨T', hT', hr⟩
    rwa [Option.some.inj (hT.symm.trans hT')]

theorem Holds.get?_none (h : b.Holds M) (hT : b.values.get? a = none) (r : R) : M r ≠ some a := by
  intro hr
  obtain ⟨T, hT', -⟩ := (h.values a r).mpr hr
  exact absurd (hT.symm.trans hT') (by simp)

theorem Holds.exists_row (h : b.Holds M) (hT : b.values.get? a = some T) : ∃ r, M r = some a := by
  have hne := h.nonempty a T hT
  rw [ne_eq, size_eq_zero] at hne
  push Not at hne
  obtain ⟨r, hr⟩ := hne
  obtain ⟨⟨⟩, hr⟩ := Option.ne_none_iff_exists'.mp hr
  exact ⟨r, (h.get?_tree hT r).mp hr⟩

theorem Holds.eq (h : b.Holds M) (h' : b'.Holds M) : b = b' := by
  have hrows : b.rows = b'.rows := ext_get? fun r => by rw [h.rows, h'.rows]
  have hvalues : b.values = b'.values := ext_get? fun a => by
    cases hT : b.values.get? a with
    | none =>
      cases hT' : b'.values.get? a with
      | none => rfl
      | some T' =>
        obtain ⟨r, hr⟩ := h'.exists_row hT'
        exact absurd hr (h.get?_none hT r)
    | some T =>
      obtain ⟨r, hr⟩ := h.exists_row hT
      obtain ⟨T', hT', -⟩ := (h'.values a r).mpr hr
      rw [hT', Option.some.injEq]
      refine ext_get? fun r => ?_
      ext ⟨⟩
      rw [h.get?_tree hT, h'.get?_tree hT']
  have htotal : b.total = b'.total := by rw [h.total, h'.total, hrows]
  have hunique : b.unique = b'.unique := by rw [h.unique, h'.unique, hvalues]
  obtain ⟨rows, values, unique, total⟩ := b
  cases hrows
  cases hvalues
  cases htotal
  cases hunique
  rfl

theorem getValue_eq (h : b.Holds M) (r : R) : b.getValue r = .ok (M r) := by
  have hrow := h.rows r
  cases hr : M r with
  | none => simp [TreeBuffer.getValue, findNearest, getPath_snd, hrow, hr]
  | some a =>
    obtain ⟨T, hT, hTr⟩ := (h.values a r).mpr hr
    have hmem : (a, T) ∈ b.values.entries := get?_eq_some.mp hT
    obtain ⟨e, he⟩ : ∃ e, b.values.entries.find? (fun kt => (getPath kt.2 r).2) = some e := by
      rw [← Option.isSome_iff_exists, find?_isSome]
      exact ⟨_, hmem, by simp [getPath_snd, hTr]⟩
    have hfound : e.2.get? r = some () := by
      have hp : (e.2.get? r).isSome = true := by simpa [getPath_snd] using find?_some he
      obtain ⟨⟨⟩, hx⟩ := Option.isSome_iff_exists.mp hp
      exact hx
    have hkey : M r = some e.1 :=
      (h.values e.1 r).mp ⟨e.2, get?_eq_some.mpr (mem_of_find?_eq_some he), hfound⟩
    have hsome : (b.rows.get? r).isSome = true := by simp [hrow, hr]
    simp [TreeBuffer.getValue, findNearest, getPath_snd] at he ⊢
    simp [hsome, he, ← hkey, hr]

/-- A row joins the rows of its value. -/
theorem Holds.insert (h : b.Holds M) {r : R} (hr : M r = none)
    (hT : ∀ r', T.get? r' = some () ↔ M r' = some a) (unique : ℤ)
    (hunique : unique = (b.values.insert a (T.insert r ())).size) :
    TreeBuffer.Holds ⟨b.rows.insert r (), b.values.insert a (T.insert r ()), unique, b.total + 1⟩
      (put False M ⟨r, a⟩) := by
  have hrow : b.rows.get? r = none := by simp [h.rows, hr]
  have hM : ∀ r', put False M ⟨r, a⟩ r' = if r' = r then some a else M r' :=
    @put_new_apply _ _ _ _ _ ⟨r, a⟩ hr fun hu => hu.elim
  refine ⟨fun r' => ?_, fun a' r' => ?_, fun a' T' => ?_, ?_, hunique⟩
  · rw [hM, get?_insert]
    split
    · rfl
    · exact h.rows r'
  · rw [hM]
    by_cases ha : a' = a
    · subst ha
      simp only [get?_insert, if_true, Option.some.injEq, exists_eq_left']
      by_cases hrr : r' = r
      · simp [hrr]
      · simp [hrr, hT]
    · simp only [get?_insert, ha, if_false, h.values]
      by_cases hrr : r' = r
      · simp [hrr, hr, Ne.symm ha]
      · simp [hrr]
  · simp only [get?_insert]
    split
    · intro hT'
      rw [← Option.some.inj hT', ne_eq, size_eq_zero]
      exact fun hall => absurd (hall r) (by simp)
    · exact h.nonempty a' T'
  · simp [size_insert hrow, h.total]

theorem Holds.includeRow (h : b.Holds M) (r : R) (a : A) :
    ∃ b' done, b.includeRow r a = .ok (b', done) ∧ b'.Holds (put False M ⟨r, a⟩) := by
  cases hr : M r with
  | some a' =>
    refine ⟨b, false, ?_, by rwa [put_of_row (by simp [hr])]⟩
    simp [TreeBuffer.includeRow, getPath_snd, h.rows, hr]
  | none =>
    cases hT : b.values.get? a with
    | some T =>
      refine ⟨_, true, ?_, h.insert hr (h.get?_tree hT) b.unique ?_⟩
      · have hderef := deref_rank hT
        simp [TreeBuffer.includeRow, getPath_snd, h.rows, hr, hT, hderef, bind, Except.bind]
      · rw [size_insert_of_some hT, h.unique]
    | none =>
      refine ⟨_, true, ?_, h.insert hr (T := empty) (fun r' => ?_)
        (b.unique + 1) ?_⟩
      · simp [TreeBuffer.includeRow, getPath_snd, h.rows, hr, hT]
      · simp [h.get?_none hT r']
      · simp [size_insert hT, h.unique]

theorem get?_replace (m : SortedMap A (SortedMap R Unit)) (a a' : A) (T' : SortedMap R Unit) :
    (if T'.size = 0 then (m.insert a T').eraseAt (m.rank a) else m.insert a T').get? a' =
      if a' = a then (if T'.size = 0 then none else some T') else m.get? a' := by
  split
  · rw [← rank_insert (m := m) (k := a) (v := T'),
      get?_eraseAt_rank (v := T') (by simp)]
    by_cases ha : a' = a <;> simp [ha]
  · by_cases ha : a' = a <;> simp [ha]

/-- A value goes with its last row. -/
theorem Holds.excludeRow (h : b.Holds M) (r : R) :
    ∃ b' done, b.excludeRow r = .ok (b', done) ∧ b'.Holds (remove M r) := by
  have hval := getValue_eq h r
  cases hr : M r with
  | none =>
    rw [hr] at hval
    refine ⟨b, false, ?_, by rwa [remove_of_none hr]⟩
    simp [TreeBuffer.excludeRow, hval, TreeBuffer.excludeValue, getPath_snd, h.rows, hr, bind,
      Except.bind]
  | some a =>
    rw [hr] at hval
    obtain ⟨T, hT, hTr⟩ := (h.values a r).mpr hr
    have hrow : b.rows.get? r = some () := by simp [h.rows, hr]
    have hderef := deref_rank hT
    generalize hT' : T.eraseAt (T.rank r) = T'
    have hget : ∀ r', T'.get? r' = if r' = r then none else T.get? r' := fun r' => by
      rw [← hT', get?_eraseAt_rank hTr]
    refine ⟨⟨b.rows.eraseAt (b.rows.rank r),
      if T'.size = 0 then (b.values.insert a T').eraseAt (b.values.rank a)
        else b.values.insert a T',
      if T'.size = 0 then b.unique - 1 else b.unique, b.total - 1⟩, true, ?_, ?_⟩
    · simp only [getPath] at hderef
      simp only [TreeBuffer.excludeRow, hval, TreeBuffer.excludeValue, getPath, hrow, pointee, hT,
        hderef, bind, Except.bind, Option.isSome_some, Bool.not_true, Bool.false_eq_true,
        if_false, if_true, hT']
      split <;> rfl
    · have hsr := size_eraseAt_rank hrow
      have htotal := h.total
      refine ⟨fun r' => ?_, fun a' r' => ?_, fun a' T'' => ?_, ?_, ?_⟩
      · rw [remove_apply, get?_eraseAt_rank hrow]
        split
        · rfl
        · exact h.rows r'
      · rw [remove_apply]
        simp only [get?_replace]
        by_cases ha : a' = a
        · subst ha
          by_cases hrr : r' = r
          · simp only [hrr, if_true]
            split
            · simp
            · simp [hget]
          · simp only [if_true, hrr, if_false, ← h.get?_tree hT r']
            split
            · rename_i hzero
              have := size_eq_zero.mp hzero r'
              rw [hget, if_neg hrr] at this
              simp [this]
            · simp [hget, hrr]
        · simp only [ha, if_false, h.values]
          by_cases hrr : r' = r
          · simp [hrr, hr, Ne.symm ha]
          · simp [hrr]
      · simp only [get?_replace]
        split
        · split
          · simp
          · rename_i hne
            intro heq
            rwa [← Option.some.inj heq]
        · exact h.nonempty a' T''
      · simp only
        omega
      · have hins := size_insert_of_some (v := T') hT
        simp only
        split
        · have her := size_eraseAt_rank (m := b.values.insert a T') (k := a) (v := T')
            (by simp)
          rw [rank_insert] at her
          have := h.unique
          omega
        · rw [hins, h.unique]

theorem Holds.applyExcludes (h : b.Holds M) (rowIds : List R) :
    ∃ b', b.applyExcludes rowIds = .ok b' ∧ b'.Holds (rowIds.foldl remove M) := by
  induction rowIds generalizing b M with
  | nil => exact ⟨b, rfl, h⟩
  | cons rowId rowIds ih =>
    obtain ⟨b₁, done, hex, h₁⟩ := h.excludeRow rowId
    obtain ⟨b', hrest, h'⟩ := ih h₁
    exact ⟨b', by simp only [TreeBuffer.applyExcludes, hex, bind, Except.bind, hrest], h'⟩

theorem Holds.applyIncludes (h : b.Holds M) (cells : List (Cell R A)) :
    ∃ b', b.applyIncludes cells = .ok b' ∧ b'.Holds (cells.foldl (put False) M) := by
  induction cells generalizing b M with
  | nil => exact ⟨b, rfl, h⟩
  | cons cell cells ih =>
    obtain ⟨b₁, done, hin, h₁⟩ := h.includeRow cell.rowID cell.value
    obtain ⟨b', hrest, h'⟩ := ih h₁
    exact ⟨b', by simp only [TreeBuffer.applyIncludes, hin, bind, Except.bind, hrest], h'⟩

theorem apply_holds (h : b.Holds M) (writes : ColumnWrites R A) :
    ∃ b', b.apply writes = .ok b' ∧ b'.Holds (applyTo False M writes) := by
  obtain ⟨b₁, hex, h₁⟩ := h.applyExcludes writes.excludes
  obtain ⟨b', hin, h'⟩ := h₁.applyIncludes writes.includes
  exact ⟨b', by simp only [TreeBuffer.apply, hex, bind, Except.bind, hin], h'⟩

end TreeBuffer

/-! ### Sequences of writes -/

omit [LinearOrder A] in
theorem foldlM_holds {S : Type} {apply : S → ColumnWrites R A → Except Fault S}
    {Holds : S → (R → Option A) → Prop} {unique : Prop}
    (happly : ∀ s M, Holds s M → ∀ writes, ∃ s', apply s writes = .ok s' ∧
      Holds s' (applyTo unique M writes)) {s : S} (h : Holds s M) (ws : List (ColumnWrites R A)) :
    ∃ s', ws.foldlM apply s = .ok s' ∧ Holds s' (ws.foldl (applyTo unique) M) := by
  induction ws generalizing s M with
  | nil => exact ⟨s, rfl, h⟩
  | cons w ws ih =>
    obtain ⟨s₁, hw, h₁⟩ := happly s M h w
    obtain ⟨s', hrest, h'⟩ := ih h₁
    exact ⟨s', by simp only [foldlM_cons, hw, bind, Except.bind, hrest], h'⟩

theorem UniqueInlineBuffer.foldlM_apply (ws : List (ColumnWrites R A)) :
    ∃ b, ws.foldlM UniqueInlineBuffer.apply UniqueIndex.new = .ok b ∧
      b.Holds id (ws.foldl (applyTo True) fun _ => none) :=
  foldlM_holds (fun _ _ h => UniqueInlineBuffer.apply_holds h) UniqueIndex.holds_new ws

theorem UniqueBuffer.foldlM_apply (ws : List (ColumnWrites R A)) :
    ∃ b, ws.foldlM UniqueBuffer.apply UniqueIndex.new = .ok b ∧
      b.Holds (fun _ => ()) (ws.foldl (applyTo True) fun _ => none) :=
  foldlM_holds (fun _ _ h => UniqueBuffer.apply_holds h) UniqueIndex.holds_new ws

theorem TreeBuffer.foldlM_apply (ws : List (ColumnWrites R A)) :
    ∃ b, ws.foldlM TreeBuffer.apply TreeBuffer.new = .ok b ∧
      b.Holds (ws.foldl (applyTo False) fun _ => none) :=
  foldlM_holds (fun _ _ h => TreeBuffer.apply_holds h) TreeBuffer.holds_new ws

theorem IdentityBuffer.holds_of_foldlM {ws : List (ColumnWrites R R)} {b b' : IdentityBuffer R}
    {M : R → Option R} (h : b.Holds M) (hok : ws.foldlM IdentityBuffer.apply b = .ok b') :
    ∃ M', b'.Holds M' := by
  induction ws generalizing b M with
  | nil =>
    obtain rfl := Except.ok.inj hok
    exact ⟨M, h⟩
  | cons w ws ih =>
    rw [foldlM_cons] at hok
    cases hw : b.apply w with
    | error f => simp [hw, bind, Except.bind] at hok
    | ok b₁ =>
      rw [hw] at hok
      exact ih (IdentityBuffer.apply_holds h hw) hok

/-- **The indexes agree**: after any sequence of writes the two indexes of an
inline buffer are inverse to one another, the row trees of a tree buffer
divide its rows, and the counters are the true counts. -/
theorem apply_consistent (ws : List (ColumnWrites R A)) :
    (∃ b : UniqueInlineBuffer R A,
      ws.foldlM UniqueInlineBuffer.apply UniqueIndex.new = .ok b ∧
      (∀ r a, b.rows.get? r = some a ↔ b.values.get? a = some r) ∧
      b.count = b.rows.size ∧ b.count = b.values.size ∧
      b.getStatistic = ⟨b.rows.size, b.values.size⟩) ∧
    (∃ b : TreeBuffer R A, ws.foldlM TreeBuffer.apply TreeBuffer.new = .ok b ∧
      (∀ a T, b.values.get? a = some T → T.keys ≠ []) ∧
      (∀ a a' T T' r, b.values.get? a = some T → b.values.get? a' = some T' →
        r ∈ T.keys → r ∈ T'.keys → a = a') ∧
      (∀ r, r ∈ b.rows.keys ↔ ∃ a T, b.values.get? a = some T ∧ r ∈ T.keys) ∧
      b.total = b.rows.size ∧ b.unique = b.values.size ∧
      b.getStatistic = ⟨b.rows.size, b.values.size⟩) := by
  obtain ⟨b, hb, h⟩ := UniqueInlineBuffer.foldlM_apply ws
  obtain ⟨b', hb', h'⟩ := TreeBuffer.foldlM_apply ws
  have hkeys : ∀ {T : SortedMap R Unit} {r : R}, r ∈ T.keys ↔ T.get? r = some () :=
    SortedMap.mem_keys.trans ⟨fun ⟨_, h⟩ => h, fun h => ⟨_, h⟩⟩
  refine ⟨⟨b, hb, fun r a => ?_, h.rows_size, h.values_size, ?_⟩,
    ⟨b', hb', fun a T hT hnil => ?_, fun a a' T T' r hT hT' hr hr' => ?_, fun r => ?_, h'.total,
      h'.unique, ?_⟩⟩
  · rw [h.rows, h.values, Option.map_id, id]
  · rw [UniqueIndex.getStatistic, ← h.rows_size, ← h.values_size]
  · refine h'.nonempty a T hT ?_
    rw [SortedMap.keys, map_eq_nil_iff] at hnil
    rw [size, hnil, length_nil]
  · have h₁ := (h'.get?_tree hT r).mp (hkeys.mp hr)
    have h₂ := (h'.get?_tree hT' r).mp (hkeys.mp hr')
    exact Option.some.inj (h₁.symm.trans h₂)
  · simp only [hkeys, h'.rows, h'.values, Option.map_eq_some_iff, and_true]
  · rw [TreeBuffer.getStatistic, ← h'.total, ← h'.unique]

/-- **Writes can be repeated**: applying a list of writes a second time
changes nothing. -/
theorem apply_idempotent :
    (∀ (ws : List (ColumnWrites R R)) (w : ColumnWrites R R) (b b₁ : IdentityBuffer R),
      ws.foldlM IdentityBuffer.apply IdentityBuffer.new = .ok b → b.apply w = .ok b₁ →
      b₁.apply w = .ok b₁) ∧
    (∀ (ws : List (ColumnWrites R A)) (w : ColumnWrites R A) (b b₁ : UniqueInlineBuffer R A),
      ws.foldlM UniqueInlineBuffer.apply UniqueIndex.new = .ok b →
      UniqueInlineBuffer.apply b w = .ok b₁ → UniqueInlineBuffer.apply b₁ w = .ok b₁) ∧
    (∀ (ws : List (ColumnWrites R A)) (w : ColumnWrites R A) (b b₁ : TreeBuffer R A),
      ws.foldlM TreeBuffer.apply TreeBuffer.new = .ok b → b.apply w = .ok b₁ →
      b₁.apply w = .ok b₁) := by
  refine ⟨fun ws w b b₁ hb hw => ?_, fun ws w b b₁ hb hw => ?_, fun ws w b b₁ hb hw => ?_⟩
  · obtain ⟨M, h⟩ := IdentityBuffer.holds_of_foldlM IdentityBuffer.holds_new hb
    have h₁ := IdentityBuffer.apply_holds h hw
    have hisOk : (b₁.apply w).isOk = true := by
      rw [IdentityBuffer.apply, IdentityBuffer.applyIncludes_isOk, ← IdentityBuffer.apply, hw]
      rfl
    cases h₂ : b₁.apply w with
    | error f => simp [h₂, Except.isOk, Except.toBool] at hisOk
    | ok b₂ =>
      have h' := IdentityBuffer.apply_holds h₁ h₂
      rw [applyTo_applyTo (fun hu => hu.elim)] at h'
      rw [h'.eq h₁]
  · obtain ⟨b', hb', h⟩ := UniqueInlineBuffer.foldlM_apply ws
    obtain rfl := Except.ok.inj (hb.symm.trans hb')
    obtain ⟨b₁', hw', h₁⟩ := UniqueInlineBuffer.apply_holds h w
    obtain rfl := Except.ok.inj (hw.symm.trans hw')
    obtain ⟨b₂, hw₂, h₂⟩ := UniqueInlineBuffer.apply_holds h₁ w
    rw [applyTo_applyTo fun _ => h.unambiguous] at h₂
    rw [hw₂, h₂.eq h₁]
  · obtain ⟨b', hb', h⟩ := TreeBuffer.foldlM_apply ws
    obtain rfl := Except.ok.inj (hb.symm.trans hb')
    obtain ⟨b₁', hw', h₁⟩ := TreeBuffer.apply_holds h w
    obtain rfl := Except.ok.inj (hw.symm.trans hw')
    obtain ⟨b₂, hw₂, h₂⟩ := TreeBuffer.apply_holds h₁ w
    rw [applyTo_applyTo (fun hu => hu.elim)] at h₂
    rw [hw₂, h₂.eq h₁]

/-- A value that moves from one row to another. -/
theorem apply_idempotent_move : ∃ b b₁ : UniqueInlineBuffer ℕ ℕ,
    [{ includes := [⟨1, 10⟩, ⟨2, 20⟩] }].foldlM UniqueInlineBuffer.apply UniqueIndex.new = .ok b ∧
    UniqueInlineBuffer.apply b { excludes := [1], includes := [⟨3, 20⟩, ⟨3, 10⟩, ⟨1, 10⟩] } =
      .ok b₁ ∧ b₁.values.entries = [(10, 3), (20, 2)] ∧
    UniqueInlineBuffer.apply b₁ { excludes := [1], includes := [⟨3, 20⟩, ⟨3, 10⟩, ⟨1, 10⟩] } =
      .ok b₁ := by
  have hb : [{ includes := [⟨1, 10⟩, ⟨2, 20⟩] }].foldlM UniqueInlineBuffer.apply UniqueIndex.new =
      .ok (⟨⟨[(1, 10), (2, 20)], by decide⟩, ⟨[(10, 1), (20, 2)], by decide⟩, 2⟩ :
        UniqueInlineBuffer ℕ ℕ) := by decide
  have hw : UniqueInlineBuffer.apply
      (⟨⟨[(1, 10), (2, 20)], by decide⟩, ⟨[(10, 1), (20, 2)], by decide⟩, 2⟩ :
        UniqueInlineBuffer ℕ ℕ)
      { excludes := [1], includes := [⟨3, 20⟩, ⟨3, 10⟩, ⟨1, 10⟩] } =
      .ok ⟨⟨[(2, 20), (3, 10)], by decide⟩, ⟨[(10, 3), (20, 2)], by decide⟩, 2⟩ := by decide
  exact ⟨_, _, hb, hw, rfl, apply_idempotent.2.1 _ _ _ _ hb hw⟩

end Fastore.Buffer
