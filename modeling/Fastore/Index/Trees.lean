import Fastore.Index.Unique

/-!
`TreeBuffer` in memory.

Every entry of the value tree has a tree of rows. Besides the row tree being
exact, these trees have to be where the entries point to, one for each
value and none of them empty (`TreeBuffer.Exact`). An include keeps this,
an exclude does unless it leaves a leaf short, of the value tree or of the
tree of its rows.
-/

namespace Fastore.Tree

variable {K V : Type} [LinearOrder K] {t : BTree K V} {n : ℕ} {S : Finset K}

theorem KeyTree.getPath (ht : KeyTree t n S) (key : K) :
    ∃ path, t.getPath key = .ok path ∧ (path.isMatch = true ↔ key ∈ S) := by
  obtain ⟨path, hpath, hland⟩ := ht.wellFormed.getPath key
  exact ⟨path, hpath, by rw [ht.wellFormed.lands_iff hland, ht.keys]⟩

theorem KeyTree.count_eq (ht : KeyTree t n S) : t.count = S.card := by
  have hnd : ((t.contents n).map Prod.fst).Nodup := ht.wellFormed.sorted.imp fun h => ne_of_lt h
  have hS : ((t.contents n).map Prod.fst).toFinset = S := by
    ext k
    rw [List.mem_toFinset, ht.keys]
  rw [ht.wellFormed.count, ← hS, List.toFinset_card_of_nodup hnd, List.length_map]

end Fastore.Tree

namespace Fastore.Index

open Fastore.Tree Buffer Lib Function

variable {R A : Type} [LinearOrder R] [LinearOrder A]

namespace TreeBuffer

variable {b : TreeBuffer R A} {M : R → Option A} {rowId : R} {value : A}

/-- The trees of the entries `f` have the rows `S`. -/
structure Planted (f : A → Option TreeId) (trees : TreeId → Option (BTree R R)) (nextTree : TreeId)
    (S : TreeId → Finset R) : Prop where
  fresh : ∀ a x, f a = some x → x < nextTree
  nonempty : ∀ a x, f a = some x → (S x).Nonempty
  tree : ∀ a x, f a = some x → ∃ t k, trees x = some t ∧ KeyTree t k (S x)

/-- The buffer has the cells `M`, and its row tree is exact. -/
def Exact (b : TreeBuffer R A) (M : R → Option A) : Prop :=
  ∃ n m ρ f S, Reverse b.rows b.values (fun x r => r ∈ S x) M n m ρ f ∧
    Planted f b.trees b.nextTree S

def treeOf (b : TreeBuffer R A) (value : A) : Except Fault (BTree R R) := do
  let path ← b.values.getPath value
  let existing ← b.values.valueAt path
  treeAt b.trees existing

/-- Excluding the row leaves no leaf short, neither in the tree of its value
nor, with the last row of the value, in the value tree, and in the row tree
does not come to use the left sibling of a branch. -/
def good (b : TreeBuffer R A) : Write R A → Bool
  | .exclude rowId =>
    match b.getValue rowId with
    | .ok (some value) =>
      (match b.treeOf value with
        | .ok t => !t.underflows rowId && (decide (t.count ≠ 1) || !b.values.underflows value)
        | .error _ => true) && !b.rows.deleteUsesLeft rowId
    | _ => true
  | .put _ => true

def takes (b : TreeBuffer R A) (writes : ColumnWrites R A) : Bool :=
  guarded write good b (writesOf writes)

section Trees

variable {trees : TreeId → Option (BTree R R)} {nextTree : TreeId} {S : TreeId → Finset R}
  {rows : BTree R NodeId} {values : BTree A TreeId} {n m : ℕ} {ρ : R → Option NodeId}
  {f : A → Option TreeId}

theorem Planted.ne (hp : Planted f trees nextTree S)
    (h : Reverse rows values (fun x r => r ∈ S x) M n m ρ f) {a a' : A} {x x' : TreeId}
    (ha : f a = some x) (ha' : f a' = some x') (hne : a ≠ a') : x ≠ x' := by
  rintro rfl
  obtain ⟨r, hr⟩ := hp.nonempty a x ha
  exact hne (Option.some.inj ((h.label ha hr).symm.trans (h.label ha' hr)))

theorem Planted.replace {x : TreeId} {t : BTree R R} {k : ℕ} {s : Finset R}
    (hp : Planted f trees nextTree S) (hx : f value = some x)
    (hother : ∀ a y, f a = some y → a ≠ value → y ≠ x) (ht : KeyTree t k s) (hs : s.Nonempty) :
    Planted f (update trees x (some t)) nextTree (update S x s) := by
  have hcases : ∀ a y, f a = some y → y = x ∨ y ≠ x := fun a y hy => by
    by_cases ha : a = value
    · subst ha
      exact Or.inl (some_unique hy hx)
    · exact Or.inr (hother a y hy ha)
  refine ⟨hp.fresh, fun a y hy => ?_, fun a y hy => ?_⟩
  · rcases hcases a y hy with rfl | hne
    · rwa [update_self]
    · rw [update_of_ne hne]
      exact hp.nonempty a y hy
  · rcases hcases a y hy with rfl | hne
    · exact ⟨t, k, update_self .., by rwa [update_self]⟩
    · rw [update_of_ne hne, update_of_ne hne]
      exact hp.tree a y hy

theorem Planted.add {t : BTree R R} {k : ℕ} {s : Finset R} (hp : Planted f trees nextTree S)
    (value : A) (ht : KeyTree t k s) (hs : s.Nonempty) :
    Planted (update f value (some nextTree)) (update trees nextTree (some t))
      (nextTree + 1) (update S nextTree s) := by
  have hcases : ∀ a y, update f value (some nextTree) a = some y →
      y = nextTree ∨ f a = some y ∧ y ≠ nextTree := by
    intro a y hy
    rw [update_apply] at hy
    split at hy
    · exact Or.inl (Option.some.inj hy).symm
    · exact Or.inr ⟨hy, Nat.ne_of_lt (hp.fresh a y hy)⟩
  refine ⟨fun a y hy => ?_, fun a y hy => ?_, fun a y hy => ?_⟩
  · rcases hcases a y hy with rfl | ⟨hy, -⟩
    · exact Nat.lt_succ_self _
    · exact Nat.lt_succ_of_lt (hp.fresh a y hy)
  · rcases hcases a y hy with rfl | ⟨hy, hne⟩
    · rwa [update_self]
    · rw [update_of_ne hne]
      exact hp.nonempty a y hy
  · rcases hcases a y hy with rfl | ⟨hy, hne⟩
    · exact ⟨t, k, update_self .., by rwa [update_self]⟩
    · rw [update_of_ne hne, update_of_ne hne]
      exact hp.tree a y hy

theorem Planted.drop {x : TreeId} (hp : Planted f trees nextTree S)
    (hother : ∀ a y, f a = some y → a ≠ value → y ≠ x) :
    Planted (update f value none) (update trees x none) nextTree S := by
  have hcases : ∀ a y, update f value none a = some y → f a = some y ∧ y ≠ x := by
    intro a y hy
    rw [update_apply] at hy
    split at hy
    · simp at hy
    · exact ⟨hy, hother a y hy ‹_›⟩
  refine ⟨fun a y hy => hp.fresh a y (hcases a y hy).1,
    fun a y hy => hp.nonempty a y (hcases a y hy).1, fun a y hy => ?_⟩
  obtain ⟨hy, hne⟩ := hcases a y hy
  rw [update_of_ne hne]
  exact hp.tree a y hy

theorem foldlM_rowMoved (q : NodeId) (ks : List R) {rows : BTree R NodeId} {n : ℕ}
    {ρ : R → Option NodeId} (hrows : rows.Maps n ρ) (hsome : ∀ k ∈ ks, (ρ k).isSome = true) :
    ∃ rows', ks.foldlM (fun rows k => rowMoved q k rows) rows = .ok rows' ∧
      rows'.Maps n fun r => if r ∈ ks then some q else ρ r := by
  induction ks generalizing rows ρ with
  | nil => exact ⟨rows, rfl, by simpa using hrows⟩
  | cons k ks ih =>
    obtain ⟨path, hpath, hland, hm⟩ := hrows.getPath k
    have hk := hsome k (by simp)
    obtain ⟨rows₁, hset, hmaps₁⟩ := hrows.setValue hland hk q
    obtain ⟨rows', hrun, hmaps⟩ := ih hmaps₁ fun k' hk' => by
      rw [update_apply]
      split
      · rfl
      · exact hsome k' (by simp [hk'])
    refine ⟨rows', ?_, ?_⟩
    · rw [List.foldlM_cons]
      simp only [rowMoved, hpath, bind, Except.bind, hm, hk, if_true, hset]
      exact hrun
    · convert hmaps using 2 with r
      rw [update_apply]
      by_cases hr : r = k <;> simp [hr]

theorem valuesMoved_moves {x : TreeId} {t : BTree R R} {k : ℕ} {s : Finset R}
    (hx : trees x = some t) (ht : KeyTree t k s) (hs : ∀ r, r ∈ S x ↔ r ∈ s) :
    Moves (valuesMoved trees) (fun x r => r ∈ S x) x := by
  intro rows n ρ q hrows hsome
  obtain ⟨rows', hrun, hmaps⟩ := foldlM_rowMoved q ((t.contents k).map Prod.fst) hrows
    fun r hr => hsome r ((hs r).mpr ((ht.keys r).mp hr))
  refine ⟨rows', ?_, ?_⟩
  · simp only [valuesMoved, treeAt, hx, bind, Except.bind, BTree.forEach_spec ht.wellFormed]
    exact hrun
  · convert hmaps using 2 with r
    simp only [ht.keys, hs]

end Trees

theorem Exact.getValue (hb : b.Exact M) (rowId : R) : b.getValue rowId = .ok (M rowId) := by
  obtain ⟨n, m, ρ, f, S, h, hp⟩ := hb
  refine h.getValue fun a x hx => ?_
  obtain ⟨t, k, ht, hkey⟩ := hp.tree a x hx
  obtain ⟨path, hpath, hm⟩ := hkey.getPath rowId
  exact ⟨path.isMatch, by simp only [treeAt, ht, bind, Except.bind, hpath], hm⟩

/-- **Include** keeps the row tree exact. -/
theorem Exact.includeRow (hb : b.Exact M) (rowId : R) (value : A) :
    ∃ b' added, b.includeRow rowId value = .ok (b', added) ∧
      b'.Exact (put False M ⟨rowId, value⟩) := by
  obtain ⟨n, m, ρ, f, S, h, hp⟩ := id hb
  obtain ⟨rowpath, hrowpath, hrowland, hrowm⟩ := h.rowTree.getPath rowId
  obtain ⟨path, hpath, hland, hm⟩ := h.valueTree.getPath value
  cases hrow : M rowId with
  | some a =>
    have hρ : (ρ rowId).isSome = true := by rw [h.located.same, hrow]; rfl
    refine ⟨b, false, ?_, by rwa [put_of_row (by simp [hrow])]⟩
    simp only [TreeBuffer.includeRow, hrowpath, bind, Except.bind, hrowm, hρ, if_true]
  | none =>
    have hρ : ρ rowId = none := h.located.place_none.mpr hrow
    rw [put_new hrow (by simp)]
    cases hf : f value with
    | some x =>
      -- the tree of the value gets the row
      obtain ⟨t, k, ht, hkey⟩ := hp.tree value x hf
      have hnot : rowId ∉ S x := fun hmem => by
        rw [h.label hf hmem] at hrow
        simp at hrow
      obtain ⟨t', k', hins, hkey'⟩ := hkey.insert rowId hnot
      have hother : ∀ a y, f a = some y → a ≠ value → y ≠ x :=
        fun a y hy ha => hp.ne h hy hf ha
      obtain ⟨rows', n', moved, hrows, h'⟩ :=
        h.insertRow (fun y r => r ∈ update S x (insert rowId (S x)) y) hrowland hland hρ
          hf (fun r => by simp [or_comm])
          fun a y hy ha r => by rw [update_of_ne (hother a y hy ha)]
      refine ⟨{ b with
        rows := rows'
        trees := update b.trees x (some t')
        total := b.total + 1 }, true, ?_, n', m, _, f, _, h',
        hp.replace hf hother hkey' (Finset.insert_nonempty ..)⟩
      simp only [TreeBuffer.includeRow, hrowpath, bind, Except.bind, hrowm, hρ,
        Option.isSome_none, Bool.false_eq_true, if_false, hpath, hm, hf, Option.isSome_some,
        if_true, h.valueTree.valueAt hland hf, treeAt, ht, hins, hrows]
    | none =>
      -- a new tree with this row only
      obtain ⟨t', k', hins, hkey'⟩ := (KeyTree.new b.rowType (b.rawRows b.nextTree)
        (b.rawRows b.nextTree) (b.rawNodes b.nextTree)).insert rowId (Finset.notMem_empty rowId)
      have hplanted := hp.add value hkey' (Finset.insert_nonempty ..)
      obtain ⟨rows', values', n', m', ρ', moved, hboth, -, h'⟩ :=
        h.insertBoth (fun y r => r ∈ update S b.nextTree (insert rowId ∅) y) b.nextTree
          hrowland hland hρ hf (fun r => by simp)
          (fun a y hy r => by rw [update_of_ne (Nat.ne_of_lt (hp.fresh a y hy))])
          fun a y hy => by
            obtain ⟨t₁, k₁, ht₁, hkey₁⟩ := hplanted.tree a y hy
            exact valuesMoved_moves ht₁ hkey₁ fun r => Iff.rfl
      refine ⟨{ b with
        rows := rows'
        values := values'
        trees := update b.trees b.nextTree (some t')
        nextTree := b.nextTree + 1
        unique := b.unique + 1
        total := b.total + 1 }, true, ?_, n', m', ρ', _, _, h', hplanted⟩
      simp only [TreeBuffer.includeRow, hrowpath, bind, Except.bind, hrowm, hρ,
        Option.isSome_none, Bool.false_eq_true, if_false, hpath, hm, hf, hins, hboth]

/-- **Exclude** keeps the row tree exact, if the write is a good one. -/
theorem Exact.excludeRow (hb : b.Exact M) (hgood : b.good (.exclude rowId) = true) :
    ∃ b' removed, b.excludeRow rowId = .ok (b', removed) ∧ b'.Exact (remove M rowId) := by
  obtain ⟨n, m, ρ, f, S, h, hp⟩ := id hb
  obtain ⟨rowpath, hrowpath, hrowland, hrowm⟩ := h.rowTree.getPath rowId
  cases hM : M rowId with
  | none =>
    have hρ : ρ rowId = none := h.located.place_none.mpr hM
    refine ⟨b, false, ?_, by rwa [remove_of_none hM]⟩
    simp only [TreeBuffer.excludeRow, hb.getValue, hM, excludeValue, hrowpath, hrowm, hρ,
      Option.isSome_none, Bool.not_false, if_true, bind, Except.bind]
  | some value =>
    obtain ⟨path, hpath, hland, hm⟩ := h.valueTree.getPath value
    obtain ⟨x, hx, hmem⟩ := h.owned hM
    obtain ⟨t, k, ht, hkey⟩ := hp.tree value x hx
    have hρ : (ρ rowId).isSome = true := by rw [h.located.same, hM]; rfl
    have htree : b.treeOf value = .ok t := by
      simp only [treeOf, hpath, h.valueTree.valueAt hland hx, treeAt, ht, bind, Except.bind]
    simp only [good, hb.getValue, hM, htree, Bool.and_eq_true, Bool.not_eq_true', Bool.or_eq_true,
      decide_eq_true_eq] at hgood
    obtain ⟨⟨hunder, hlast⟩, hleft⟩ := hgood
    have hdelete := hkey.delete hmem
    rw [hunder, if_neg (by simp)] at hdelete
    obtain ⟨t', hdel, hkey'⟩ := hdelete
    have hother : ∀ a y, f a = some y → a ≠ value → y ≠ x := fun a y hy ha => hp.ne h hy hx ha
    have hcount := hkey.count_eq
    have hcount' := hkey'.count_eq
    rw [Finset.card_erase_of_mem hmem] at hcount'
    have hpos := Finset.card_pos.mpr (hp.nonempty value x hx)
    by_cases hzero : t'.count = 0
    · -- the last row of its value
      have hone : (S x).card = 1 := by omega
      have hunder' : b.values.underflows value = false := by
        rcases hlast with hlast | hlast
        · exact absurd (by omega) hlast
        · exact hlast
      obtain ⟨rows', values', n', hrows, hvalues, h'⟩ := h.eraseValue (fun y r => r ∈ S y) hrowpath
        hpath hM hleft hunder'
        (fun y r hy hr => by
          obtain rfl : x = y := some_unique hx hy
          exact Finset.card_le_one.mp (le_of_eq hone) r hr rowId hmem)
        fun _ _ _ _ _ => Iff.rfl
      refine ⟨{ b with
        rows := rows'
        values := values'
        trees := update b.trees x none
        unique := b.unique - 1
        total := b.total - 1 }, true, ?_, n', m, _, _, S, h', hp.drop hother⟩
      simp only [TreeBuffer.excludeRow, hb.getValue, hM, excludeValue, hrowpath, hrowm, hρ, pointee,
        hpath, hm, hx, Option.isSome_some, Bool.not_true, Bool.false_eq_true, if_false, if_true,
        h.valueTree.valueAt hland hx, treeAt, ht, hdel, hzero, hvalues, hrows, bind, Except.bind]
    · obtain ⟨rows', n', hrows, h'⟩ :=
        h.eraseRow (fun y r => r ∈ update S x ((S x).erase rowId) y) hrowpath hM hleft hx
          (fun r => by simp [and_comm])
          fun a y hy ha r => by rw [update_of_ne (hother a y hy ha)]
      refine ⟨{ b with
        rows := rows'
        values := b.values
        trees := update b.trees x (some t')
        unique := b.unique
        total := b.total - 1 }, true, ?_, n', m, _, f, _, h', hp.replace hx hother hkey' ?_⟩
      · simp only [TreeBuffer.excludeRow, hb.getValue, hM, excludeValue, hrowpath, hrowm, hρ, pointee,
          hpath, hm, hx, Option.isSome_some, Bool.not_true, Bool.false_eq_true, if_false, if_true,
          h.valueTree.valueAt hland hx, treeAt, ht, hdel, hzero, hrows, bind, Except.bind]
      · rw [← Finset.card_pos, Finset.card_erase_of_mem hmem]
        omega

theorem write_exact (b : TreeBuffer R A) (M : R → Option A) (w : Write R A) (hb : b.Exact M)
    (hgood : b.good w = true) : ∃ b', b.write w = .ok b' ∧ b'.Exact (afterWrite False M w) := by
  cases w with
  | exclude rowId =>
    obtain ⟨b', removed, hop, hb'⟩ := hb.excludeRow hgood
    exact ⟨b', by simp only [TreeBuffer.write, hop, bind, Except.bind], hb'⟩
  | put cell =>
    obtain ⟨b', added, hop, hb'⟩ := hb.includeRow cell.rowID cell.value
    exact ⟨b', by simp only [TreeBuffer.write, hop, bind, Except.bind], hb'⟩

theorem Exact.apply (hb : b.Exact M) {writes : ColumnWrites R A} (htakes : b.takes writes = true) :
    ∃ b', b.apply writes = .ok b' ∧ b'.Exact (applyTo False M writes) := by
  obtain ⟨b', hok, hb'⟩ := foldlM_of_guarded write_exact _ hb htakes
  exact ⟨b', hok, foldl_writesOf M writes ▸ hb'⟩

theorem new_exact (rowType : ScalarType R) (valueType : ScalarType A)
    (rawRows : TreeId → NodeId → ℕ → R) (rawLeaves : NodeId → ℕ → NodeId)
    (rawTrees : NodeId → ℕ → TreeId) (rawNodes : TreeId → NodeId → ℕ → NodeId)
    (rawValues : NodeId → ℕ → A) :
    (TreeBuffer.new rowType valueType rawRows rawLeaves rawTrees rawNodes rawValues).Exact
      fun _ => none := by
  have hv := BTree.Maps.new valueType rawValues rawTrees (rawNodes 0)
  refine ⟨0, 0, _, _, fun _ => ∅, ⟨BTree.Maps.new .., hv, Located.empty.congr fun r q a => ?_⟩,
    by simp, by simp, by simp⟩
  simp only [iff_false]
  rintro ⟨x, hx, -⟩
  exact absurd (mem_map_of_spot hv hx) (by simp)

end TreeBuffer

end Fastore.Index
