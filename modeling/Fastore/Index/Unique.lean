import Fastore.Index.Reverse
import Fastore.Buffer.Cells

/-!
`UniqueBuffer` in memory.

Every entry of the value tree belongs to the row it holds. The buffer is
exact for the cells `M` (`UniqueBuffer.Exact`) if its row tree is; an include
keeps it so, an exclude does unless it leaves a leaf of the value tree short.
-/

namespace Fastore.Index

open Fastore.Tree Buffer Lib

variable {R A : Type} [LinearOrder R] [LinearOrder A]

noncomputable def afterWrite (unique : Prop) (M : R → Option A) : Write R A → R → Option A
  | .exclude rowId => remove M rowId
  | .put cell => put unique M cell

/-- The cells of a column that was empty before some writes. -/
noncomputable def cellsAfter (unique : Prop) (ws : List (Write R A)) : R → Option A :=
  ws.foldl (afterWrite unique) fun _ => none

omit [LinearOrder A] in
theorem foldl_writesOf {unique : Prop} (M : R → Option A) (writes : ColumnWrites R A) :
    (writesOf writes).foldl (afterWrite unique) M = applyTo unique M writes := by
  rw [writesOf, List.foldl_append, List.foldl_map, List.foldl_map]
  rfl

namespace UniqueBuffer

variable {b : UniqueBuffer R A} {M : R → Option A} {rowId : R} {value : A}

/-- The buffer has the cells `M`, and its row tree is exact. -/
def Exact (b : UniqueBuffer R A) (M : R → Option A) : Prop :=
  ∃ n m ρ f, Reverse b.rows b.values Eq M n m ρ f

/-- Excluding the row leaves no leaf of the value tree short, and in the row
tree does not come to use the left sibling of a branch. -/
def good (b : UniqueBuffer R A) : Write R A → Bool
  | .exclude rowId =>
    match b.getValue rowId with
    | .ok (some value) => !b.values.underflows value && !b.rows.deleteUsesLeft rowId
    | _ => true
  | .put _ => true

theorem Exact.getValue (hb : b.Exact M) (rowId : R) : b.getValue rowId = .ok (M rowId) := by
  obtain ⟨n, m, ρ, f, h⟩ := hb
  refine h.getValue fun a x _ => ⟨_, rfl, ?_⟩
  rw [decide_eq_true_eq, b.rowType.compare_zero]
  exact eq_comm

theorem Exact.unambiguous (hb : b.Exact M) : Unambiguous M := by
  obtain ⟨n, m, ρ, f, h⟩ := hb
  rintro r r' a hr hr'
  obtain ⟨x, hx, rfl⟩ := h.owned hr
  obtain ⟨x', hx', rfl⟩ := h.owned hr'
  exact some_unique hx hx'

theorem valuesMoved_moves (x : R) : Moves (valuesMoved (R := R)) Eq x := by
  intro rows n ρ q hrows hsome
  obtain ⟨path, hpath, hland, hm⟩ := hrows.getPath x
  obtain ⟨rows', hset, hmaps⟩ := hrows.setValue hland (hsome x rfl) q
  refine ⟨rows', ?_, ?_⟩
  · simp only [valuesMoved, hpath, bind, Except.bind, hm, hsome x rfl, if_true, hset]
  · convert hmaps using 2 with r
    rw [Function.update_apply]
    by_cases hr : x = r
    · rw [if_pos hr, if_pos hr.symm]
    · rw [if_neg hr, if_neg (Ne.symm hr)]

/-- **Include** keeps the row tree exact. -/
theorem Exact.includeRow (hb : b.Exact M) (rowId : R) (value : A) :
    ∃ b' added, b.includeRow rowId value = .ok (b', added) ∧ b'.Exact (put True M ⟨rowId, value⟩) ∧
      (M rowId = none → (∀ r, M r ≠ some value) →
        ∃ path moved, b.values.getPath value = .ok path ∧
          b.values.insert path value rowId = .ok (b'.values, moved)) := by
  obtain ⟨n, m, ρ, f, h⟩ := id hb
  obtain ⟨rowpath, hrowpath, hrowland, hrowm⟩ := h.rowTree.getPath rowId
  obtain ⟨path, hpath, hland, hm⟩ := h.valueTree.getPath value
  cases hrow : M rowId with
  | some a =>
    have hρ : (ρ rowId).isSome = true := by rw [h.located.same, hrow]; rfl
    refine ⟨b, false, ?_, ?_, fun hnone => absurd hnone (by simp)⟩
    · simp only [UniqueBuffer.includeRow, hrowpath, bind, Except.bind, hrowm, hρ, if_true]
    · rwa [put_of_row (by simp [hrow])]
  | none =>
    have hρ : ρ rowId = none := h.located.place_none.mpr hrow
    cases hf : f value with
    | some r =>
      have hr : M r = some value := h.label hf rfl
      refine ⟨b, false, ?_, ?_, fun _ hnone => absurd hr (hnone r)⟩
      · simp only [UniqueBuffer.includeRow, hrowpath, bind, Except.bind, hrowm, hρ,
          Option.isSome_none, Bool.false_eq_true, if_false, hpath, hm, hf, Option.isSome_some,
          if_true]
      · rwa [put_of_value trivial hr]
    | none =>
      obtain ⟨rows', values', n', m', ρ', moved, hboth, hins, h'⟩ :=
        h.insertBoth Eq rowId hrowland hland hρ hf (fun r => eq_comm)
          (fun _ _ _ _ => Iff.rfl) fun _ y _ => valuesMoved_moves y
      refine ⟨{ b with rows := rows', values := values', count := b.count + 1 }, true, ?_, ?_,
        fun _ _ => ⟨path, moved, hpath, hins⟩⟩
      · simp only [UniqueBuffer.includeRow, hrowpath, bind, Except.bind, hrowm, hρ,
          Option.isSome_none, Bool.false_eq_true, if_false, hpath, hm, hf, hboth]
      · rw [put_new hrow fun _ r hr => ?_]
        · exact ⟨n', m', ρ', _, h'⟩
        · obtain ⟨x, hx, -⟩ := h.owned hr
          exact absurd (hf.symm.trans hx) (by simp)

theorem Exact.excludeRow_eq (hb : b.Exact M) (hM : M rowId = some value) :
    ∃ rowpath path, b.rows.getPath rowId = .ok rowpath ∧ b.values.getPath value = .ok path ∧
      b.excludeRow rowId = (do
        let values ← b.values.delete path
        let rows ← b.rows.delete rowpath
        .ok ({ b with rows := rows, values := values, count := b.count - 1 }, true)) := by
  obtain ⟨n, m, ρ, f, h⟩ := id hb
  obtain ⟨rowpath, hrowpath, hrowland, hrowm⟩ := h.rowTree.getPath rowId
  obtain ⟨path, hpath, hland, hm⟩ := h.valueTree.getPath value
  obtain ⟨x, hx, rfl⟩ := h.owned hM
  have hρ : (ρ x).isSome = true := by rw [h.located.same, hM]; rfl
  refine ⟨rowpath, path, hrowpath, hpath, ?_⟩
  simp only [UniqueBuffer.excludeRow, hb.getValue, hM, excludeValue, hrowpath, hrowm, hρ, pointee,
    hpath, hm, hx, Option.isSome_some, Bool.not_true, Bool.false_eq_true, if_false, if_true,
    h.valueTree.valueAt hland hx, b.rowType.compare_zero, bind, Except.bind]

/-- **Exclude** keeps the row tree exact, if the write is a good one. -/
theorem Exact.excludeRow (hb : b.Exact M) (hgood : b.good (.exclude rowId) = true) :
    ∃ b' removed, b.excludeRow rowId = .ok (b', removed) ∧ b'.Exact (remove M rowId) := by
  cases hM : M rowId with
  | none =>
    obtain ⟨n, m, ρ, f, h⟩ := id hb
    obtain ⟨rowpath, hrowpath, hrowland, hrowm⟩ := h.rowTree.getPath rowId
    have hρ : ρ rowId = none := h.located.place_none.mpr hM
    refine ⟨b, false, ?_, by rwa [remove_of_none hM]⟩
    simp only [UniqueBuffer.excludeRow, hb.getValue, hM, excludeValue, hrowpath, hrowm, hρ,
      Option.isSome_none, Bool.not_false, if_true, bind, Except.bind]
  | some value =>
    obtain ⟨rowpath, path, hrowpath, hpath, hop⟩ := hb.excludeRow_eq hM
    obtain ⟨n, m, ρ, f, h⟩ := id hb
    simp only [good, hb.getValue, hM, Bool.and_eq_true, Bool.not_eq_true'] at hgood
    obtain ⟨rows', values', n', hdel, hdel', h'⟩ :=
      h.eraseValue Eq hrowpath hpath hM hgood.2 hgood.1
        (fun x r hx hxr => by
          subst hxr
          obtain ⟨y, hy, rfl⟩ := h.owned hM
          exact some_unique hx hy)
        fun _ _ _ _ _ => Iff.rfl
    refine ⟨{ b with rows := rows', values := values', count := b.count - 1 }, true, ?_,
      n', m, _, _, h'⟩
    simp only [hop, hdel, hdel', bind, Except.bind]

theorem write_exact (b : UniqueBuffer R A) (M : R → Option A) (w : Write R A) (hb : b.Exact M)
    (hgood : b.good w = true) : ∃ b', b.write w = .ok b' ∧ b'.Exact (afterWrite True M w) := by
  cases w with
  | exclude rowId =>
    obtain ⟨b', removed, hop, hb'⟩ := hb.excludeRow hgood
    exact ⟨b', by simp only [UniqueBuffer.write, hop, bind, Except.bind], hb'⟩
  | put cell =>
    obtain ⟨b', added, hop, hb', -⟩ := hb.includeRow cell.rowID cell.value
    exact ⟨b', by simp only [UniqueBuffer.write, hop, bind, Except.bind], hb'⟩

theorem new_exact (rowType : ScalarType R) (valueType : ScalarType A) (rawRows : NodeId → ℕ → R)
    (rawLeaves rawNodes : NodeId → ℕ → NodeId) (rawValues : NodeId → ℕ → A) :
    (UniqueBuffer.new rowType valueType rawRows rawLeaves rawNodes rawValues).Exact
      fun _ => none := by
  have hv := BTree.Maps.new valueType rawValues rawRows rawNodes
  refine ⟨0, 0, _, _, BTree.Maps.new .., hv, Located.empty.congr fun r q a => ?_⟩
  simp only [iff_false]
  rintro ⟨x, hx, -⟩
  exact absurd (mem_map_of_spot hv hx) (by simp)

end UniqueBuffer

end Fastore.Index
