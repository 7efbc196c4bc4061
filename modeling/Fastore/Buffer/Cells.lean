import Fastore.Buffer.Columns

/-!
What a column is: the value of each row.

Seen from outside, a column buffer is a partial map from rows to values.
An include adds a cell if its row has none and, in a unique column, no
row has its value yet; an exclude removes the cell of a row; a list of
writes does all excludes before all includes. This module says so
(`applyTo`) and proves what the repetition of writes needs:
writing twice is writing once (`applyTo_applyTo`).
-/

namespace Fastore.Buffer

open Function

variable {R A : Type} [DecidableEq R]

open Classical in
/-- Include a cell. In a column that is unique the value must be new. -/
noncomputable def put (unique : Prop) (M : R → Option A) (cell : Cell R A) : R → Option A :=
  if M cell.rowID = none ∧ (unique → ∀ r, M r ≠ some cell.value) then
    update M cell.rowID (some cell.value)
  else M

def remove (M : R → Option A) (rowId : R) : R → Option A :=
  update M rowId none

noncomputable def applyTo (unique : Prop) (M : R → Option A) (writes : ColumnWrites R A) :
    R → Option A :=
  writes.includes.foldl (put unique) (writes.excludes.foldl remove M)

def Unambiguous (M : R → Option A) : Prop := ∀ r r' a, M r = some a → M r' = some a → r = r'

variable {unique : Prop} {M : R → Option A}

/-! ### Single writes -/

variable {a : A} {cell : Cell R A} {E : List R} {r : R} {N T : R → Option A}

theorem put_of_row (h : M cell.rowID ≠ none) : put unique M cell = M :=
  if_neg fun hc => h hc.1

theorem put_of_value (hu : unique) (h : M r = some cell.value) :
    put unique M cell = M :=
  if_neg fun hc => hc.2 hu r h

theorem put_new (h : M cell.rowID = none) (hu : unique → ∀ r, M r ≠ some cell.value) :
    put unique M cell = update M cell.rowID (some cell.value) :=
  if_pos ⟨h, hu⟩

theorem put_new_apply (h : M cell.rowID = none) (hu : unique → ∀ r, M r ≠ some cell.value) (r : R) :
    put unique M cell r = if r = cell.rowID then some cell.value else M r := by
  rw [put_new h hu, update_apply]

theorem remove_apply (rowId r : R) :
    remove M rowId r = if r = rowId then none else M r := by
  rw [remove, update_apply]

theorem remove_of_none {rowId : R} (h : M rowId = none) : remove M rowId = M := by
  rw [remove, ← h, update_eq_self]

theorem put_le (h : M r = some a) : put unique M cell r = some a := by
  rw [put]
  split
  · rename_i hc
    rw [update_of_ne, h]
    rintro rfl
    exact absurd (hc.1.symm.trans h) (by simp)
  · exact h

theorem Unambiguous.put (hu : unique) (hM : Unambiguous M) (cell : Cell R A) :
    Unambiguous (put unique M cell) := by
  rw [Buffer.put]
  split
  · rename_i hc
    intro r r' a hr hr'
    rw [update_apply] at hr hr'
    split at hr <;> split at hr'
    · simp_all
    · exact absurd hr' (Option.some.inj hr ▸ hc.2 hu r')
    · exact absurd hr (Option.some.inj hr' ▸ hc.2 hu r)
    · exact hM r r' a hr hr'
  · exact hM

theorem Unambiguous.remove (hM : Unambiguous M) (rowId : R) : Unambiguous (remove M rowId) := by
  intro r r' a hr hr'
  rw [Buffer.remove, update_apply] at hr hr'
  split at hr
  · simp at hr
  · split at hr'
    · simp at hr'
    · exact hM r r' a hr hr'

/-! ### Lists of writes -/

theorem foldl_put_le (cells : List (Cell R A)) (h : M r = some a) :
    cells.foldl (put unique) M r = some a := by
  induction cells generalizing M with
  | nil => exact h
  | cons cell cells ih => exact ih (put_le h)

theorem Unambiguous.foldl_put (hu : unique) (hM : Unambiguous M) (cells : List (Cell R A)) :
    Unambiguous (cells.foldl (Buffer.put unique) M) := by
  induction cells generalizing M with
  | nil => exact hM
  | cons cell cells ih => exact ih (hM.put hu cell)

theorem foldl_remove (rowIds : List R) (r : R) :
    rowIds.foldl remove M r = if r ∈ rowIds then none else M r := by
  induction rowIds generalizing M with
  | nil => simp
  | cons rowId rowIds ih =>
    rw [List.foldl_cons, ih, remove, update_apply]
    by_cases h : r = rowId <;> simp [h]

theorem Unambiguous.foldl_remove (hM : Unambiguous M) (rowIds : List R) :
    Unambiguous (rowIds.foldl Buffer.remove M) := by
  induction rowIds generalizing M with
  | nil => exact hM
  | cons rowId rowIds ih => exact ih (hM.remove rowId)

/-! ### Writing twice

The second time, the rows that are not excluded have their final cells from
the start, and the others go through the same states as the first time. -/

/-- `T` on the excluded rows and `N` on the others. -/
def merge (E : List R) (T N : R → Option A) : R → Option A :=
  fun r => if r ∈ E then T r else N r

theorem merge_some (hle : ∀ r a, T r = some a → N r = some a) (h : T r = some a) :
    merge E T N r = some a := by
  rw [merge]
  split
  · exact h
  · exact hle r a h

/-- Putting a cell commutes with merging. -/
theorem put_merge (hle : ∀ r a, put unique T cell r = some a → N r = some a)
    (hN : unique → Unambiguous N) :
    put unique (merge E T N) cell = merge E (put unique T cell) N := by
  have hle' : ∀ r a, T r = some a → N r = some a := fun r a h => hle r a (put_le h)
  by_cases hrow : T cell.rowID = none
  · by_cases hval : unique → ∀ r, T r ≠ some cell.value
    · -- accepted the first time
      have hput := put_new hrow hval
      have hNr : N cell.rowID = some cell.value := hle _ _ (by rw [hput, update_self])
      by_cases hE : cell.rowID ∈ E
      · rw [put_new (by rw [merge, if_pos hE, hrow]) ?_, hput]
        · funext r
          by_cases hr : r = cell.rowID
          · simp [merge, hr, hE]
          · simp [merge, hr]
        · intro hu r hr
          rw [merge] at hr
          split at hr
          · exact hval hu r hr
          · rename_i hrE
            exact hrE (hN hu r _ _ hr hNr ▸ hE)
      · rw [put_of_row (by rw [merge, if_neg hE, hNr]; simp), hput]
        funext r
        by_cases hr : r = cell.rowID
        · simp [merge, hr, hE]
        · simp [merge, hr]
    · -- the value is taken
      push Not at hval
      obtain ⟨hu, r, hr⟩ := hval
      rw [put_of_value hu hr, put_of_value hu (merge_some hle' hr)]
  · -- the row is taken
    obtain ⟨a, ha⟩ := Option.ne_none_iff_exists'.mp hrow
    rw [put_of_row hrow, put_of_row (by rw [merge_some hle' ha]; simp)]

theorem foldl_put_merge (hN : unique → Unambiguous N) (cells : List (Cell R A))
    (hend : cells.foldl (put unique) T = N) : cells.foldl (put unique) (merge E T N) = N := by
  induction cells generalizing T with
  | nil =>
    obtain rfl : T = N := hend
    funext r
    simp [merge]
  | cons cell cells ih =>
    rw [List.foldl_cons, put_merge (fun r a h => hend ▸ foldl_put_le cells h) hN]
    exact ih hend

/-- **Writing twice is writing once.** -/
theorem applyTo_applyTo (hM : unique → Unambiguous M) (writes : ColumnWrites R A) :
    applyTo unique (applyTo unique M writes) writes = applyTo unique M writes := by
  generalize hN : applyTo unique M writes = N
  have hstart : writes.excludes.foldl remove N =
      merge writes.excludes (writes.excludes.foldl remove M) N := by
    funext r
    rw [foldl_remove, merge, foldl_remove]
    split <;> rfl
  rw [applyTo, hstart]
  refine foldl_put_merge (fun hu => ?_) _ hN
  rw [← hN]
  exact ((hM hu).foldl_remove _).foldl_put hu _

end Fastore.Buffer
