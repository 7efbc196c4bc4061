import Fastore.Buffer.Apply
import Fastore.Lib.Runs

/-!
Writes that an identity column refuses.

`Apply` of an identity column looks at a cell when its turn comes. When it
finds one whose value is not its row and throws, the excludes are through,
and so are the includes before the cell. The model of `apply` has no buffer
then; here the buffer is kept (`applyInPlace`). Nothing is undone, so it is
the one before only if what has been done comes to nothing
(`refused_unchanged_iff`).
-/

namespace Fastore.Buffer

open Lib Fastore.Tree List

variable {R : Type} [LinearOrder R]

namespace IdentityBuffer

def includeCell (b : IdentityBuffer R) (cell : Cell R R) : Except Fault (IdentityBuffer R) :=
  if cell.value ≠ cell.rowID then
    .error (.thrown "Identity buffer requires the rowId and value to be the same")
  else .ok (b.includeRow cell.rowID).1

/-- `Apply`, with the buffer as it is left when it throws. -/
def applyInPlace (b : IdentityBuffer R) (writes : ColumnWrites R R) :
    IdentityBuffer R × Option Fault :=
  keeping includeCell (writes.excludes.foldl (fun b rowId => (b.excludeRow rowId).1) b)
    writes.includes

variable {b b' : IdentityBuffer R} {writes : ColumnWrites R R} {f : Fault}

theorem apply_eq_applyInPlace (b : IdentityBuffer R) (writes : ColumnWrites R R) :
    b.apply writes = (b.applyInPlace writes).2.elim (.ok (b.applyInPlace writes).1) .error := by
  rw [apply, applyInPlace]
  generalize writes.excludes.foldl (fun b rowId => (b.excludeRow rowId).1) b = b
  induction writes.includes generalizing b with
  | nil => rfl
  | cons cell cells ih =>
    by_cases hcell : cell.value ≠ cell.rowID
    · simp only [applyIncludes, keeping, includeCell, if_pos hcell, Option.elim_some]
    · simp only [applyIncludes, keeping, includeCell, if_neg hcell, ih]

/-! ### Rows that come and go -/

def drift (b : IdentityBuffer R) : ℤ := b.count - b.rows.size

theorem get?_includeRow (b : IdentityBuffer R) (rowId r : R) :
    (b.includeRow rowId).1.rows.get? r = if r = rowId then some () else b.rows.get? r := by
  rw [includeRow, getPath_snd]
  split
  · rename_i hrow
    split
    · rename_i heq
      rw [heq]
      exact Option.isSome_iff_exists.mp hrow |>.elim fun _ h => h
    · rfl
  · exact SortedMap.get?_insert

theorem get?_excludeRow (b : IdentityBuffer R) (rowId r : R) :
    (b.excludeRow rowId).1.rows.get? r = if r = rowId then none else b.rows.get? r := by
  simp only [excludeRow, getPath_snd]
  obtain hrow | ⟨u, hrow⟩ := Option.eq_none_or_eq_some (b.rows.get? rowId)
  · simp only [hrow, Option.isSome_none, Bool.not_false, if_true]
    split
    · rename_i heq
      rw [heq, hrow]
    · rfl
  · simp only [hrow, Option.isSome_some, Bool.not_true, Bool.false_eq_true, if_false, getPath]
    exact SortedMap.get?_eraseAt_rank hrow

theorem drift_includeRow (b : IdentityBuffer R) (rowId : R) :
    (b.includeRow rowId).1.drift = b.drift := by
  rw [includeRow, getPath_snd]
  cases hrow : b.rows.get? rowId with
  | none =>
    have hsize := (SortedMap.size_insert hrow : (b.rows.insert rowId ()).size = _)
    simp only [Option.isSome_none, Bool.false_eq_true, if_false, drift, hsize]
    push_cast
    omega
  | some u => rfl

theorem drift_excludeRow (b : IdentityBuffer R) (rowId : R) :
    (b.excludeRow rowId).1.drift = b.drift := by
  simp only [excludeRow, getPath_snd]
  obtain hrow | ⟨u, hrow⟩ := Option.eq_none_or_eq_some (b.rows.get? rowId)
  · simp only [hrow, Option.isSome_none, Bool.not_false, if_true]
  · have hsize := SortedMap.size_eraseAt_rank hrow
    simp only [hrow, Option.isSome_some, Bool.not_true, Bool.false_eq_true, if_false, drift,
      getPath]
    omega

theorem foldl_excludeRow (rowIds : List R) (b : IdentityBuffer R) :
    (∀ r, (rowIds.foldl (fun b rowId => (b.excludeRow rowId).1) b).rows.get? r =
      if r ∈ rowIds then none else b.rows.get? r) ∧
    (rowIds.foldl (fun b rowId => (b.excludeRow rowId).1) b).drift = b.drift := by
  induction rowIds generalizing b with
  | nil => exact ⟨fun r => by simp, rfl⟩
  | cons rowId rowIds ih =>
    rw [foldl_cons]
    obtain ⟨hrows, hdrift⟩ := ih (b.excludeRow rowId).1
    refine ⟨fun r => ?_, hdrift.trans (b.drift_excludeRow rowId)⟩
    rw [hrows, get?_excludeRow]
    by_cases hr : r = rowId
    · simp [hr]
    · simp [hr]

theorem foldlM_includeCell {cells : List (Cell R R)} (h : cells.foldlM includeCell b = .ok b') :
    (∀ r, b'.rows.get? r = if r ∈ cells.map Cell.rowID then some () else b.rows.get? r) ∧
    b'.drift = b.drift ∧ ∀ cell ∈ cells, cell.value = cell.rowID := by
  induction cells generalizing b with
  | nil =>
    obtain rfl := Except.ok.inj h
    exact ⟨fun r => by simp, rfl, by simp⟩
  | cons cell cells ih =>
    rw [foldlM_cons] at h
    obtain ⟨b₁, hcell, h⟩ := eq_ok_of_bind h
    rw [includeCell] at hcell
    split at hcell
    · cases hcell
    · rename_i hown
      obtain rfl := Except.ok.inj hcell
      obtain ⟨hrows, hdrift, hcells⟩ := ih h
      refine ⟨fun r => ?_, hdrift.trans (b.drift_includeRow _), ?_⟩
      · rw [hrows, get?_includeRow]
        by_cases hr : r = cell.rowID
        · simp [hr]
        · simp [hr]
      · exact forall_mem_cons.mpr ⟨not_not.mp hown, hcells⟩

/-! ### The buffer at the throw -/

def taken (writes : ColumnWrites R R) : List (Cell R R) :=
  writes.includes.takeWhile fun cell => cell.value = cell.rowID

theorem applyInPlace_spec (h : (b.applyInPlace writes).2 = some f) :
    (∀ r, (b.applyInPlace writes).1.rows.get? r =
      if r ∈ (taken writes).map Cell.rowID then some ()
      else if r ∈ writes.excludes then none else b.rows.get? r) ∧
    (b.applyInPlace writes).1.drift = b.drift := by
  obtain ⟨pre, cell, post, hincludes, hpre, hcell⟩ :=
    keeping_eq_some.mp (Prod.ext rfl h : b.applyInPlace writes = ((b.applyInPlace writes).1, some f))
  obtain ⟨hrows, hdrift, hown⟩ := foldlM_includeCell hpre
  have hbad : cell.value ≠ cell.rowID := by
    intro heq
    rw [includeCell, if_neg (not_not.mpr heq)] at hcell
    cases hcell
  have htaken : taken writes = pre := by
    rw [taken, hincludes, takeWhile_append_of_pos (by simpa using hown),
      takeWhile_cons_of_neg (by simpa using hbad), append_nil]
  obtain ⟨hexcluded, hdrift'⟩ := foldl_excludeRow writes.excludes b
  refine ⟨fun r => ?_, hdrift.trans hdrift'⟩
  rw [hrows, htaken, hexcluded]

/-- **A refusal leaves the buffer alone** if the rows that have been included are in it
already, and those of its rows that have been excluded are back. -/
theorem refused_unchanged_iff (b : IdentityBuffer R) (writes : ColumnWrites R R)
    (hthrows : (b.applyInPlace writes).2 =
      some (.thrown "Identity buffer requires the rowId and value to be the same")) :
    ((b.applyInPlace writes).1.rows = b.rows ∧ (b.applyInPlace writes).1.count = b.count) ↔
      (∀ cell ∈ taken writes, cell.rowID ∈ b.rows.keys) ∧
      ∀ r ∈ writes.excludes, r ∈ b.rows.keys → ∃ cell ∈ taken writes, cell.rowID = r := by
  obtain ⟨hrows, hdrift⟩ := applyInPlace_spec hthrows
  -- the counter goes with the rows
  have hcount : (b.applyInPlace writes).1.rows = b.rows →
      (b.applyInPlace writes).1.count = b.count := by
    intro heq
    simp only [drift, heq] at hdrift
    omega
  rw [and_iff_left_of_imp hcount]
  have hkeys : ∀ {r : R}, r ∈ b.rows.keys ↔ b.rows.get? r = some () :=
    SortedMap.mem_keys.trans ⟨fun ⟨_, h⟩ => h, fun h => ⟨_, h⟩⟩
  constructor
  · intro heq
    rw [heq] at hrows
    refine ⟨fun cell hcell => ?_, fun r hr hrow => ?_⟩
    · rw [hkeys, hrows, if_pos (mem_map_of_mem hcell)]
    · by_contra hnone
      have hmem : r ∉ (taken writes).map Cell.rowID := fun h => hnone (mem_map.mp h)
      rw [hkeys, hrows, if_neg hmem, if_pos hr] at hrow
      cases hrow
  · rintro ⟨hin, hout⟩
    refine SortedMap.ext_get? fun r => ?_
    rw [hrows]
    split
    · rename_i hmem
      obtain ⟨cell, hcell, rfl⟩ := mem_map.mp hmem
      exact (hkeys.mp (hin cell hcell)).symm
    · rename_i hmem
      split
      · rename_i hr
        cases hrow : b.rows.get? r with
        | none => rfl
        | some u => exact absurd (mem_map.mpr (hout r hr (hkeys.mpr hrow))) hmem
      · rfl

/-- Row 1 is excluded and comes back before the bad cell. -/
theorem refused_unchanged_back : ∃ b : IdentityBuffer ℕ,
    IdentityBuffer.new.apply { includes := [⟨1, 1⟩] } = .ok b ∧
    b.apply { excludes := [1], includes := [⟨1, 1⟩, ⟨3, 4⟩] } =
      .error (.thrown "Identity buffer requires the rowId and value to be the same") ∧
    (b.applyInPlace { excludes := [1], includes := [⟨1, 1⟩, ⟨3, 4⟩] }).1.rows = b.rows ∧
    (b.applyInPlace { excludes := [1], includes := [⟨1, 1⟩, ⟨3, 4⟩] }).1.count = b.count :=
  ⟨_, rfl, rfl, (refused_unchanged_iff _ _ rfl).mpr ⟨by decide, by decide⟩⟩

/-- Row 1 is gone, and row 2 is there, when the third cell is refused. -/
theorem refused_changed : ∃ b : IdentityBuffer ℕ,
    IdentityBuffer.new.apply { includes := [⟨1, 1⟩] } = .ok b ∧
    b.apply { excludes := [1], includes := [⟨2, 2⟩, ⟨5, 5⟩, ⟨3, 4⟩] } =
      .error (.thrown "Identity buffer requires the rowId and value to be the same") ∧
    b.rows.keys = [1] ∧ b.count = 1 ∧
    (b.applyInPlace { excludes := [1], includes := [⟨2, 2⟩, ⟨5, 5⟩, ⟨3, 4⟩] }).1.rows.keys =
      [2, 5] ∧
    (b.applyInPlace { excludes := [1], includes := [⟨2, 2⟩, ⟨5, 5⟩, ⟨3, 4⟩] }).1.count = 2 :=
  ⟨_, rfl, rfl, rfl, rfl, rfl, rfl⟩

end IdentityBuffer

end Fastore.Buffer
