import Fastore.Index.Trees

/-!
`IdentityBuffer` and `UniqueInlineBuffer` in memory.

The rows of an identity column are a key-only tree; excluding a row fails
if it leaves a leaf short. An inline buffer has two trees that are inverse to
one another and hold no addresses, so that entries may move; what it cannot
stand is a deletion that comes to use the left sibling of a branch.
-/

namespace Fastore.Index

open Fastore.Tree Buffer Lib Function

variable {R A : Type} [LinearOrder R] [LinearOrder A]

namespace IdentityBuffer

variable {b : IdentityBuffer R} {N : R → Option R} {rowId : R}

/-- The buffer has the rows of `N`, each with itself as its value. -/
def Exact (b : IdentityBuffer R) (N : R → Option R) : Prop :=
  ∃ n S, KeyTree b.rows n S ∧ ∀ r, N r = if r ∈ S then some r else none

def good (b : IdentityBuffer R) : Write R A → Bool
  | .exclude rowId =>
    match b.getValue rowId with
    | .ok (some _) => !b.rows.underflows rowId
    | _ => true
  | .put _ => true

theorem Exact.getValue (hb : b.Exact N) (rowId : R) : b.getValue rowId = .ok (N rowId) := by
  obtain ⟨n, S, hkey, hN⟩ := hb
  obtain ⟨path, hpath, hm⟩ := hkey.getPath rowId
  simp only [IdentityBuffer.getValue, hpath, bind, Except.bind, hm, hN]

theorem Exact.own (hb : b.Exact N) {a : R} (h : N rowId = some a) : a = rowId := by
  obtain ⟨n, S, -, hN⟩ := hb
  rw [hN] at h
  split at h
  · exact (Option.some.inj h).symm
  · cases h

theorem Exact.includeRow (hb : b.Exact N) (rowId : R) : ∃ b' added,
    b.includeRow rowId = .ok (b', added) ∧ b'.Exact (put False N ⟨rowId, rowId⟩) := by
  obtain ⟨n, S, hkey, hN⟩ := id hb
  obtain ⟨path, hpath, hm⟩ := hkey.getPath rowId
  by_cases hrow : rowId ∈ S
  · refine ⟨b, false, ?_, by rwa [put_of_row (by simp [hN, hrow])]⟩
    simp only [IdentityBuffer.includeRow, hpath, bind, Except.bind, hm.mpr hrow, if_true]
  · obtain ⟨t', n', hop, hkey'⟩ := hkey.insert rowId hrow
    obtain ⟨path', hpath', hop⟩ := eq_ok_of_bind hop
    obtain rfl := ok_unique hpath hpath'
    obtain ⟨⟨t, moved⟩, hins, ht⟩ := eq_ok_of_bind hop
    obtain rfl := Except.ok.inj ht
    refine ⟨⟨t, b.count + 1⟩, true, ?_, ?_⟩
    · simp only [IdentityBuffer.includeRow, hpath, bind, Except.bind, mt hm.mp hrow,
        Bool.false_eq_true, if_false, hins]
    · rw [put_new (by simp [hN, hrow]) False.elim]
      refine ⟨n', _, hkey', fun r => ?_⟩
      by_cases hr : r = rowId <;> simp [hr, hN]

omit [LinearOrder A] in
theorem Exact.excludeRow (hb : b.Exact N) (hgood : b.good (A := A) (.exclude rowId) = true) :
    ∃ b' removed, b.excludeRow rowId = .ok (b', removed) ∧ b'.Exact (remove N rowId) := by
  obtain ⟨n, S, hkey, hN⟩ := id hb
  obtain ⟨path, hpath, hm⟩ := hkey.getPath rowId
  by_cases hrow : rowId ∈ S
  · have hstep := hkey.delete hrow
    simp only [good, hb.getValue, hN, hrow, if_true, Bool.not_eq_true'] at hgood
    rw [hgood, if_neg Bool.false_ne_true] at hstep
    obtain ⟨t, hdel, hkey'⟩ := hstep
    simp only [BTree.apply, hpath, bind, Except.bind] at hdel
    refine ⟨⟨t, b.count - 1⟩, true, ?_, n, _, hkey', fun r => ?_⟩
    · simp only [IdentityBuffer.excludeRow, hpath, bind, Except.bind, hm.mpr hrow, Bool.not_true,
        Bool.false_eq_true, if_false, hdel]
    · rw [remove_apply]
      by_cases hr : r = rowId <;> simp [hr, hN]
  · refine ⟨b, false, ?_, by rwa [remove_of_none (by simp [hN, hrow])]⟩
    simp only [IdentityBuffer.excludeRow, hpath, bind, Except.bind, mt hm.mp hrow, Bool.not_false,
      if_true]

end IdentityBuffer

namespace UniqueInlineBuffer

variable {b : UniqueInlineBuffer R A} {M : R → Option A} {rowId : R}

/-- The buffer has the cells `M`, and its trees are inverse to one another. -/
def Exact (b : UniqueInlineBuffer R A) (M : R → Option A) : Prop :=
  ∃ n m f, b.rows.Maps n M ∧ b.values.Maps m f ∧ ∀ a r, f a = some r ↔ M r = some a

def good (b : UniqueInlineBuffer R A) : Write R A → Bool
  | .exclude rowId =>
    match b.getValue rowId with
    | .ok (some value) => !b.values.deleteUsesLeft value && !b.rows.deleteUsesLeft rowId
    | _ => true
  | .put _ => true

theorem Exact.getValue (hb : b.Exact M) (rowId : R) : b.getValue rowId = .ok (M rowId) := by
  obtain ⟨n, m, f, hrows, -⟩ := hb
  obtain ⟨it, hfind, hget⟩ := hrows.findNearest rowId
  simp only [UniqueInlineBuffer.getValue, hfind, bind, Except.bind]
  cases hM : M rowId with
  | none => rfl
  | some a => simp only [Option.isSome_some, if_true, iteratorValue, hget a hM, bind, Except.bind]

theorem Exact.unambiguous (hb : b.Exact M) : Unambiguous M := by
  obtain ⟨n, m, f, -, -, hf⟩ := hb
  exact fun r r' a hr hr' => Option.some.inj
    (((hf a r).mpr hr).symm.trans ((hf a r').mpr hr'))

/-- A row that is included gets its value. -/
theorem Exact.includeRow (hb : b.Exact M) (rowId : R) (value : A) : ∃ b' added,
    b.includeRow rowId value = .ok (b', added) ∧ b'.Exact (put True M ⟨rowId, value⟩) := by
  obtain ⟨n, m, f, hrows, hvalues, hf⟩ := id hb
  obtain ⟨rowpath, hrowpath, hrowland, hrowm⟩ := hrows.getPath rowId
  obtain ⟨path, hpath, hland, hm⟩ := hvalues.getPath value
  cases hrow : M rowId with
  | some a =>
    refine ⟨b, false, ?_, by rwa [put_of_row (by simp [hrow])]⟩
    simp only [UniqueInlineBuffer.includeRow, hrowpath, bind, Except.bind, hrowm, hrow,
      Option.isSome_some, if_true]
  | none =>
    cases hvalue : f value with
    | some r =>
      refine ⟨b, false, ?_, by rwa [put_of_value trivial ((hf value r).mp hvalue)]⟩
      simp only [UniqueInlineBuffer.includeRow, hrowpath, bind, Except.bind, hrowm, hrow, hpath, hm,
        hvalue, Option.isSome_some, Option.isSome_none, Bool.false_eq_true, if_false, if_true]
    | none =>
      have hnew : ∀ r, M r ≠ some value := fun r hr => by
        rw [(hf value r).mpr hr] at hvalue
        cases hvalue
      obtain ⟨rows', n', moved, hins, hrows', -⟩ := hrows.insert hrowland hrow value
      obtain ⟨values', m', moved', hins', hvalues', -⟩ := hvalues.insert hland hvalue rowId
      refine ⟨{ b with rows := rows', values := values', count := b.count + 1 }, true, ?_, ?_⟩
      · simp only [UniqueInlineBuffer.includeRow, hrowpath, bind, Except.bind, hrowm, hrow, hpath,
          hm, hvalue, Option.isSome_none, Bool.false_eq_true, if_false, hins, hins']
      · rw [put_new hrow fun _ => hnew]
        refine ⟨n', m', _, hrows', hvalues', fun a r => ?_⟩
        rw [update_apply, update_apply]
        by_cases ha : a = value <;> by_cases hr : r = rowId
        · simp [ha, hr]
        · simp [ha, hr, hnew r, Ne.symm hr]
        · simp [ha, hr, Ne.symm ha, hf, hrow]
        · simp only [ha, hr, if_false, hf]

/-- A row that is excluded loses its value. -/
theorem Exact.excludeValue (hb : b.Exact M) (hgood : b.good (.exclude rowId) = true) :
    ∃ b' removed, b.excludeValue rowId (M rowId) = .ok (b', removed) ∧
      b'.Exact (remove M rowId) := by
  obtain ⟨n, m, f, hrows, hvalues, hf⟩ := id hb
  obtain ⟨rowpath, hrowpath, hrowland, hrowm⟩ := hrows.getPath rowId
  cases hrow : M rowId with
  | none =>
    refine ⟨b, false, ?_, by rwa [remove_of_none hrow]⟩
    simp only [UniqueInlineBuffer.excludeValue, hrowpath, bind, Except.bind, hrowm, hrow,
      Option.isSome_none, Bool.not_false, if_true]
  | some value =>
    simp only [good, hb.getValue, hrow, Bool.and_eq_true, Bool.not_eq_true'] at hgood
    obtain ⟨path, hpath, hland, hm⟩ := hvalues.getPath value
    have hvalue : f value = some rowId := (hf value rowId).mpr hrow
    obtain ⟨values', m', hdel', hvalues'⟩ := hvalues.delete hpath (by simp [hvalue]) hgood.1
    obtain ⟨rows', n', hdel, hrows'⟩ := hrows.delete hrowpath (by simp [hrow]) hgood.2
    refine ⟨{ b with rows := rows', values := values', count := b.count - 1 }, true, ?_,
      n', m', _, hrows', hvalues', fun a r => ?_⟩
    · simp only [UniqueInlineBuffer.excludeValue, hrowpath, hrowm, hrow, pointee, hpath, hm, hvalue,
        Option.isSome_some, Bool.not_true, Bool.false_eq_true, if_false, if_true,
        hvalues.valueAt hland hvalue, b.rowType.compare_zero, hdel', hdel, bind, Except.bind]
    · rw [update_apply, remove_apply]
      by_cases ha : a = value <;> by_cases hr : r = rowId
      · simp [ha, hr]
      · have hne : M r ≠ some value := fun h => hr (Option.some.inj
          (((hf value r).mpr h).symm.trans hvalue))
        simp [ha, hr, hne]
      · have hne : f a ≠ some rowId := fun h => ha (Option.some.inj
          (((hf a rowId).mp h).symm.trans hrow))
        simp [ha, hr, hne]
      · simp only [ha, hr, if_false, hf]

theorem write_exact (b : UniqueInlineBuffer R A) (M : R → Option A) (w : Write R A) (hb : b.Exact M)
    (hgood : b.good w = true) : ∃ b', b.write w = .ok b' ∧ b'.Exact (afterWrite True M w) := by
  cases w with
  | exclude rowId =>
    obtain ⟨b', removed, hop, hb'⟩ := hb.excludeValue hgood
    exact ⟨b', by simp only [UniqueInlineBuffer.write, hb.getValue, hop, bind, Except.bind], hb'⟩
  | put cell =>
    obtain ⟨b', added, hop, hb'⟩ := hb.includeRow cell.rowID cell.value
    exact ⟨b', by simp only [UniqueInlineBuffer.write, hop, bind, Except.bind], hb'⟩

end UniqueInlineBuffer

end Fastore.Index
