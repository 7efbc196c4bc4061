import Fastore.Tree.Delete

/-!
Deletion, whatever lies beyond the counters.

The arrays of a node are as long as the capacity, and the slots beyond
the counter hold whatever was there before. Two heaps are alike for a
tree if they differ in such slots only; such trees are well formed
together, have the same contents, and a search takes the same path
through both. The statement about `BTree::Delete` is about all heaps
alike to a given one: it takes the entry out of each of them and leaves a
well-formed tree exactly when the rebalancing does not come to use the
left sibling of a branch (`BTree.delete_iff`).
-/

namespace Fastore.Tree

open Lib List Branch

variable {K V : Type}

inductive Node.Alike : Node K V → Node K V → Prop
  | leaf {l l' : Leaf K V} (count : l'.count = l.count)
      (entry : ∀ i < l.count, l'.entry i = l.entry i)
      (layout : l'.values.isSome = l.values.isSome) : Node.Alike (.leaf l) (.leaf l')
  | branch {b b' : Branch K} (count : b'.count = b.count)
      (keys : ∀ i < b.count, b'.keys i = b.keys i)
      (children : ∀ i ≤ b.count, b'.children i = b.children i) : Node.Alike (.branch b) (.branch b')

/-- The subtree of height `n` at `p` is the same in both heaps, up to the
slots beyond the counters of its nodes. -/
def Alike (h : Cells K V) (n : ℕ) (p : NodeId) (h' : Cells K V) : Prop :=
  ∀ z ∈ nodes h n p, ∃ x x', h z = some x ∧ h' z = some x' ∧ x.Alike x'

section Alike

variable {h h' : Cells K V} {n m : ℕ} {p q z : NodeId} {b : Branch K} {bs : List PathNode}

theorem Alike.refl (hcells : ∀ z ∈ nodes h n p, h z ≠ none) : Alike h n p h := by
  intro z hz
  obtain ⟨x, hx⟩ := Option.ne_none_iff_exists'.mp (hcells z hz)
  refine ⟨x, x, hx, hx, ?_⟩
  cases x with
  | leaf l => exact .leaf rfl (fun _ _ => rfl) rfl
  | branch b => exact .branch rfl (fun _ _ => rfl) fun _ _ => rfl

theorem Alike.leafAt {l : Leaf K V} (ha : Alike h n p h') (hz : z ∈ nodes h n p)
    (hl : h z = some (.leaf l)) : ∃ l' : Leaf K V, h' z = some (.leaf l') ∧ l'.count = l.count ∧
      l'.entries = l.entries ∧ l'.values.isSome = l.values.isSome := by
  obtain ⟨x, x', hx, hx', hxx⟩ := ha z hz
  obtain rfl := some_unique hl hx
  cases hxx with
  | leaf count entry layout =>
    refine ⟨_, hx', count, ?_, layout⟩
    rw [Leaf.entries, Leaf.entries, count]
    exact window_congr fun i hi => by simpa using entry i hi

theorem Alike.branchAt (ha : Alike h n p h') (hz : z ∈ nodes h n p)
    (hb : h z = some (.branch b)) : ∃ b' : Branch K, h' z = some (.branch b') ∧
      b'.count = b.count ∧ b'.seps = b.seps ∧ ∀ i ≤ b.count, b'.children i = b.children i := by
  obtain ⟨x, x', hx, hx', hxx⟩ := ha z hz
  obtain rfl := some_unique hb hx
  cases hxx with
  | branch count keys children =>
    refine ⟨_, hx', count, ?_, children⟩
    rw [seps, seps, count]
    exact window_congr fun i hi => by simpa using keys i hi

theorem Branch.kids_congr {b b' : Branch K} (hc : b'.count = b.count)
    (hk : ∀ i ≤ b.count, b'.children i = b.children i) : b'.kids = b.kids := by
  rw [kids, kids, hc]
  exact window_congr fun i hi => by simpa using hk i (by omega)

theorem Alike.kidsAt (ha : Alike h n p h') (hz : z ∈ nodes h n p) : kidsAt h' z = kidsAt h z := by
  obtain ⟨x, x', hx, -, -⟩ := ha z hz
  cases x with
  | leaf l =>
    obtain ⟨l', hl', -⟩ := ha.leafAt hz hx
    simp only [Tree.kidsAt, hx, hl']
  | branch b =>
    obtain ⟨b', hb', hc, -, hk⟩ := ha.branchAt hz hx
    rw [kidsAt_of_branch hx, kidsAt_of_branch hb', kids_congr hc hk]

theorem Alike.leafSpots (ha : Alike h n p h') (hz : z ∈ nodes h n p) :
    leafSpots h' z = leafSpots h z := by
  obtain ⟨x, x', hx, -, -⟩ := ha z hz
  cases x with
  | leaf l =>
    obtain ⟨l', hl', -, hE, -⟩ := ha.leafAt hz hx
    simp only [Tree.leafSpots, hx, hl', hE]
  | branch b =>
    obtain ⟨b', hb', -⟩ := ha.branchAt hz hx
    simp only [Tree.leafSpots, hx, hb']

theorem Alike.countOf (ha : Alike h n p h') (hz : z ∈ nodes h n p) : countOf h' z = countOf h z := by
  obtain ⟨x, x', hx, hx', hxx⟩ := ha z hz
  cases hxx with
  | leaf count _ _ => simp only [Tree.countOf, hx, hx', Node.count, count]
  | branch count _ _ => simp only [Tree.countOf, hx, hx', Node.count, count]

theorem Alike.nodes (ha : Alike h n p h') : nodes h' n p = nodes h n p :=
  nodes_of_kidsAt fun _ => ha.kidsAt

theorem Alike.spots (ha : Alike h n p h') : spots h' n p = spots h n p :=
  spots_of_kidsAt (fun _ => ha.kidsAt) fun _ => ha.leafSpots

theorem Alike.kid (ha : Alike h (n + 1) p h') (hp : h p = some (.branch b)) {c : NodeId}
    (hc : c ∈ b.kids) : Alike h n c h' := fun z hz => ha z (kid_nodes_subset hp hc hz)

theorem Alike.level (ha : Alike h n p h') {i : ℕ} (w : Walk h n p (bs ++ [⟨q, i⟩]) m z) :
    Tree.countOf h' z = Tree.countOf h z ∧ Tree.countOf h' q = Tree.countOf h q ∧
      (i < Tree.countOf h q → Tree.countOf h' (childOf h' q (i + 1)) =
        Tree.countOf h (childOf h q (i + 1))) ∧
      (0 < i → Tree.countOf h' (childOf h' q (i - 1)) = Tree.countOf h (childOf h q (i - 1))) := by
  have hz := w.subset (mem_nodes_self ..)
  obtain ⟨b, w', hb, hi, rfl⟩ := w.unsnoc
  have hq := w'.subset (mem_nodes_self ..)
  obtain ⟨b', hb', hc, -, hk⟩ := ha.branchAt hq hb
  have hkid : ∀ s ≤ b.count, Tree.countOf h' (childOf h' q s) = Tree.countOf h (childOf h q s) := by
    intro s hs
    simp only [childOf, hb, hb', hk s hs]
    exact ha.countOf (w'.subset (kid_nodes_subset hb (mem_kids.mpr ⟨s, hs, rfl⟩)
      (mem_nodes_self ..)))
  have hcount : Tree.countOf h q = b.count := by simp only [Tree.countOf, hb, Node.count]
  exact ⟨ha.countOf hz, ha.countOf hq, fun hs => hkid _ (by omega), fun _ => hkid _ (by omega)⟩

theorem Alike.leftCase (ha : Alike h n p h') (half : ℕ) (w : Walk h n p bs m q) :
    leftCase h' half bs.reverse q = leftCase h half bs.reverse q := by
  induction bs using List.reverseRecOn generalizing m q with
  | nil => rfl
  | append_singleton bs x ih =>
    obtain ⟨r, i⟩ := x
    obtain ⟨hq, hr, hright, hleft⟩ := ha.level w
    obtain ⟨b, w', -⟩ := w.unsnoc
    rw [reverse_append, reverse_singleton, singleton_append, Tree.leftCase,
      Tree.leftCase, hq, hr, ih w']
    by_cases hi : i < Tree.countOf h r <;> by_cases hpos : 0 < i <;>
      simp only [hi, hpos, hright, hleft, true_and, false_and, if_false]

theorem Alike.leftCaseLeaf (ha : Alike h n p h') (half : ℕ) (w : Walk h n p bs m q) :
    leftCaseLeaf h' half bs.reverse q = leftCaseLeaf h half bs.reverse q := by
  induction bs using List.reverseRecOn with
  | nil => rfl
  | append_singleton bs x _ =>
    obtain ⟨r, i⟩ := x
    obtain ⟨hq, hr, hright, hleft⟩ := ha.level w
    obtain ⟨b, w', -⟩ := w.unsnoc
    rw [reverse_append, reverse_singleton, singleton_append, Tree.leftCaseLeaf,
      Tree.leftCaseLeaf, hq, hr, ha.leftCase half w']
    by_cases hi : i < Tree.countOf h r <;> by_cases hpos : 0 < i <;>
      simp only [hi, hpos, hright, hleft, true_and, false_and, if_false]

variable [LinearOrder K]

theorem Alike.wf {B : Bounds} (ha : Alike h n p h') (hwf : WF h B n p) : WF h' B n p := by
  induction n generalizing p with
  | zero =>
    obtain ⟨l, hl, hok⟩ := hwf
    obtain ⟨l', hl', hc, hE, hlay⟩ := ha.leafAt (mem_nodes_self ..) hl
    exact ⟨l', hl', hc ▸ hok.min_le, hc ▸ hok.le_cap, hE ▸ hok.sorted, hlay.trans hok.layout⟩
  | succ n ih =>
    obtain ⟨b, hb, hlo, hhi, hkids, hsep⟩ := hwf
    obtain ⟨b', hb', hc, hseps, hk⟩ := ha.branchAt (mem_nodes_self ..) hb
    have hkids' := kids_congr hc hk
    refine ⟨b', hb', hc ▸ hlo, hc ▸ hhi, fun c hc => ?_, ?_⟩
    · rw [hkids'] at hc
      exact ih (ha.kid hb hc) (hkids c hc)
    · rw [hkids', hseps, map_congr_left fun c hc => ?_]
      · exact hsep
      · rw [keysOf, keysOf, entries, entries, (ha.kid hb hc).spots]

theorem Alike.wellFormed {t : BTree K V} (ha : Alike t.cells n t.root h') (ht : t.WellFormed n) :
    { t with cells := h' }.WellFormed n ∧ { t with cells := h' }.contents n = t.contents n := by
  have hE : { t with cells := h' }.contents n = t.contents n := by
    rw [BTree.contents, BTree.contents, entries, entries, ← ha.spots]
  exact ⟨⟨⟨ha.wf ht.wf, ha.nodes ▸ ht.nodup, ha.nodes ▸ ht.fresh⟩, ht.capacity,
    by rw [hE]; exact ht.count⟩, hE⟩

/-- A search reads nothing outside its tree. -/
theorem Alike.getPath {t : BTree K V} (key : K) {B : Bounds} :
    ∀ {n fuel : ℕ} {p : NodeId} (before : List PathNode), Alike t.cells n p h' →
      WF t.cells B n p → (Tree.nodes t.cells n p).Nodup →
      (∀ z ∈ Tree.nodes t.cells n p, z ≠ p → 1 ≤ B.min z) →
      Node.getPath { t with cells := h' } key fuel p before = Node.getPath t key fuel p before := by
  intro n
  induction n with
  | zero =>
    intro fuel p before ha hwf _ _
    cases fuel with
    | zero => rfl
    | succ fuel =>
      obtain ⟨l, hl, -⟩ := hwf
      obtain ⟨l', hl', hc, hE, -⟩ := ha.leafAt (mem_nodes_self ..) hl
      have hkeys : ∀ j < l.count, l'.keys j = l.keys j := by
        intro j hj
        rw [Leaf.entries, Leaf.entries, hc] at hE
        have := apply_eq_of_window_eq hE hj
        simpa [Leaf.entry] using congrArg Prod.fst this
      simp only [Node.getPath, hl, hl', Leaf.indexOf, hc, t.keyType.indexOf_congr key hkeys]
  | succ n ih =>
    intro fuel p before ha hwf hnd hpos
    cases fuel with
    | zero => rfl
    | succ fuel =>
      obtain ⟨b, hb, -⟩ := id hwf
      obtain ⟨b', hb', hc, hseps, hk⟩ := ha.branchAt (mem_nodes_self ..) hb
      have hkeys : ∀ j < b.count, b'.keys j = b.keys j := by
        intro j hj
        rw [seps, seps, hc] at hseps
        simpa using apply_eq_of_window_eq hseps hj
      have hindex : b'.indexOf { t with cells := h' } key = b.indexOf t key := by
        simp only [Branch.indexOf, hc, t.keyType.indexOf_congr key hkeys]
      obtain ⟨hi, -, -⟩ := b.indexOf_spec t key (hwf.seps_sorted hb hnd hpos)
      have hkid := mem_kids.mpr ⟨_, hi, rfl⟩
      simp only [Node.getPath, hb, hb', hindex, hk _ hi]
      exact ih _ (ha.kid hb hkid) (hwf.kid hb hi) (nodes_around hb hi hnd).1
        fun z hz _ => (hwf.kids_ne_nil hb hnd hpos).1 _ hkid z hz

end Alike

/-! ### Dangling slots -/

/-- Every slot beyond the children of a branch of the tree holds `d`, and
there is nothing but the tree. -/
def dangle (h : Cells K V) (n : ℕ) (root d : NodeId) : Cells K V := fun z =>
  if z ∈ nodes h n root then
    match h z with
    | some (.branch b) =>
      some (.branch { b with children := fun s => if s ≤ b.count then b.children s else d })
    | x => x
  else none

theorem dangle_alike {h : Cells K V} {n : ℕ} {root : NodeId} (d : NodeId)
    (hcells : ∀ z ∈ nodes h n root, h z ≠ none) : Alike h n root (dangle h n root d) := by
  intro z hz
  obtain ⟨x, hx⟩ := Option.ne_none_iff_exists'.mp (hcells z hz)
  cases x with
  | leaf l => exact ⟨_, _, hx, by simp [dangle, hz, hx], .leaf rfl (fun _ _ => rfl) rfl⟩
  | branch b =>
    have hd : dangle h n root d z = some (.branch
        { b with children := fun s => if s ≤ b.count then b.children s else d }) := by
      simp only [dangle, hz, hx, if_true]
    exact ⟨_, _, hx, hd, .branch rfl (fun _ _ => rfl) fun i hi => if_pos hi⟩

theorem dangle_stale {h : Cells K V} {n : ℕ} {root d : NodeId}
    (hcells : ∀ z ∈ nodes h n root, h z ≠ none) (hd : d ∉ nodes h n root) :
    Stale (dangle h n root d) n root d := by
  refine ⟨if_neg hd, fun z hz b hb s hs => ?_⟩
  rw [(dangle_alike d hcells).nodes] at hz
  obtain ⟨x, hx⟩ := Option.ne_none_iff_exists'.mp (hcells z hz)
  cases x with
  | leaf l => simp [dangle, hz, hx] at hb
  | branch b₀ =>
    simp only [dangle, hz, hx, if_true] at hb
    obtain rfl := Node.branch.inj (Option.some.inj hb)
    exact if_neg (by simpa using hs)

/-! ### The statement about deletion -/

variable [LinearOrder K]

namespace BTree

/-- Deleting `key` does what it should: search and deletion return, and
the tree is well formed and has lost this entry and no other. -/
def Deletes (t : BTree K V) (n : ℕ) (key : K) : Prop :=
  ∃ path t' n', t.getPath key = .ok path ∧ t.delete path = .ok t' ∧ t'.WellFormed n' ∧
    t'.contents n' = ((t.contents n).filter fun e => decide (e.1 ≠ key)) ∧ t'.count = t.count - 1

/-- The rebalancing after the deletion of `key` comes to borrow from or to
merge with the left sibling of a branch. -/
def deleteUsesLeft (t : BTree K V) (key : K) : Bool :=
  match t.getPath key with
  | .ok path => t.usesLeft path
  | .error _ => false

theorem WellFormed.erased {t : BTree K V} {n : ℕ} {key : K} (ht : t.WellFormed n)
    (hkey : key ∈ (t.contents n).map Prod.fst) :
    ∃ path l l', t.getPath key = .ok path ∧ Erased t n path key l l' := by
  obtain ⟨path, hpath, hland⟩ := ht.getPath key
  obtain ⟨l, l', he⟩ := hland.erased ht ((ht.lands_iff hland).mpr hkey)
  exact ⟨path, l, l', hpath, he⟩

theorem not_wellFormed_of_left {t t' : BTree K V} {n : ℕ} {key : K} {d : NodeId} {path : Path}
    (ht : t.WellFormed n) (hko : t.keyOnly = false) (hkey : key ∈ (t.contents n).map Prod.fst)
    (hleft : t.deleteUsesLeft key = true) (hst : Stale t.cells n t.root d)
    (hpath : t.getPath key = .ok path) (hdel : t.delete path = .ok t') (n' : ℕ) :
    ¬ t'.WellFormed n' := by
  intro hw
  obtain ⟨path', l, l', hpath', he⟩ := ht.erased hkey
  obtain rfl := ok_unique hpath hpath'
  rw [deleteUsesLeft, hpath] at hleft
  obtain ⟨S, k, hlost⟩ := (delete_spec ht hko he).2 hleft d hst t' hdel
  exact hlost.not_wf hw.wf

theorem not_deletes {t : BTree K V} {n : ℕ} {key : K} {d : NodeId} (ht : t.WellFormed n)
    (hko : t.keyOnly = false) (hkey : key ∈ (t.contents n).map Prod.fst)
    (hleft : t.deleteUsesLeft key = true) (hst : Stale t.cells n t.root d) :
    ¬ t.Deletes n key := by
  rintro ⟨path, t', n', hpath, hdel, hw, -, -⟩
  exact not_wellFormed_of_left ht hko hkey hleft hst hpath hdel n' hw

/-- **Deletion**, in every heap that has the tree: it is right if and only
if the rebalancing does not use the left sibling of a branch. -/
theorem delete_iff {t : BTree K V} {n : ℕ} (ht : t.WellFormed n) (hko : t.keyOnly = false) {key : K}
    (hkey : key ∈ (t.contents n).map Prod.fst) :
    (∀ h', Alike t.cells n t.root h' → { t with cells := h' }.Deletes n key) ↔
      t.deleteUsesLeft key = false := by
  obtain ⟨path, l, l', hpath, he⟩ := ht.erased hkey
  have hsame : ∀ h', Alike t.cells n t.root h' →
      { t with cells := h' }.getPath key = .ok path ∧
        { t with cells := h' }.usesLeft path = t.usesLeft path := by
    intro h' ha
    refine ⟨?_, ha.leftCaseLeaf _ he.walk⟩
    rw [← hpath]
    exact ha.getPath key [] ht.wf ht.nodup ht.min_pos
  have huses : t.deleteUsesLeft key = t.usesLeft path := by rw [deleteUsesLeft, hpath]
  rw [huses]
  constructor
  · intro hall
    by_contra hleft
    have hcells := ht.wf.cells_ne_none
    have ha := dangle_alike t.next hcells
    obtain ⟨hw, hE⟩ := ha.wellFormed ht
    obtain ⟨hpath', hleft'⟩ := hsame _ ha
    refine not_deletes hw hko (hE ▸ hkey) ?_
      (dangle_stale hcells fun hmem => Nat.lt_irrefl _ (ht.fresh _ hmem)) (hall _ ha)
    rw [deleteUsesLeft, hpath']
    exact hleft'.trans (by simpa using hleft)
  · intro hleft h' ha
    obtain ⟨hw, hE⟩ := ha.wellFormed ht
    obtain ⟨hpath', hleft'⟩ := hsame h' ha
    rw [← hE] at hkey
    obtain ⟨path', l₁, l₂, hpath'', he'⟩ := hw.erased hkey
    obtain rfl := ok_unique hpath' hpath''
    obtain ⟨t', n', hdel, hw', hE', hcount, -⟩ :=
      (delete_spec hw hko he').1 (hleft'.trans hleft)
    exact ⟨path, t', n', hpath', hdel, hw', hE', hcount⟩

end BTree

/-- A tree of three levels with every node at its lower limit: two branches
of 32 leaves with 32 entries each, for the keys up to 2047. The slots
beyond the children of its branches hold an address that is not in use. -/
def wide : BTree ℕ ℕ where
  keyType := ScalarType.ofOrder ℕ
  keyOnly := false
  root := 0
  count := 2048
  listCapacity := defaultListCapacity
  cells z :=
    if z = 0 then some (.branch ⟨1, fun _ => 1024, fun s => if s ≤ 1 then s + 1 else 67⟩)
    else if z ≤ 2 then some (.branch ⟨31, fun i => 1024 * (z - 1) + 32 * (i + 1),
      fun s => if s ≤ 31 then 32 * (z - 1) + s + 3 else 67⟩)
    else if z ≤ 66 then some (.leaf ⟨32, fun i => 32 * (z - 3) + i, some fun i => i⟩)
    else none
  next := 67
  rawKeys _ _ := 0
  rawValues _ _ := 0
  rawNodes _ _ := 0

theorem wide_leaf {j : ℕ} (hj : j < 64) : wide.cells (j + 3) =
    some (.leaf ⟨32, fun i => 32 * j + i, some fun i => i⟩) := by
  have h₀ : ¬ j + 3 = 0 := by omega
  have h₁ : ¬ j + 3 ≤ 2 := by omega
  have h₂ : j + 3 ≤ 66 := by omega
  simp only [wide]
  rw [if_neg h₀, if_neg h₁, if_pos h₂, Nat.add_sub_cancel]

theorem wide_leaf_keys {j x : ℕ} (hj : j < 64) (hx : x ∈ keysOf wide.cells 0 (j + 3)) :
    32 * j ≤ x ∧ x < 32 * j + 32 := by
  rw [keysOf, entries_leaf (wide_leaf hj), Leaf.map_fst_entries] at hx
  obtain ⟨i, hi, rfl⟩ := mem_window.mp hx
  simp only at hi ⊢
  omega

theorem wide_leaf_wf {j : ℕ} (hj : j < 64) : WF wide.cells (wide.bounds 2) 0 (j + 3) := by
  refine ⟨_, wide_leaf hj, ?_, by simp [BTree.bounds, wide, defaultListCapacity], ?_, rfl⟩
  · simp [BTree.bounds, wide, defaultListCapacity]
  · rw [Leaf.entries, window, pairwise_map]
    refine pairwise_lt_range.imp fun h => ?_
    simp only [Leaf.entry]
    omega

theorem wide_branch {c : ℕ} (hc : c < 2) : wide.cells (c + 1) =
    some (.branch ⟨31, fun i => 1024 * c + 32 * (i + 1),
      fun s => if s ≤ 31 then 32 * c + s + 3 else 67⟩) := by
  have h₀ : ¬ c + 1 = 0 := by omega
  have h₁ : c + 1 ≤ 2 := by omega
  simp only [wide]
  rw [if_neg h₀, if_pos h₁, Nat.add_sub_cancel]

theorem wide_branch_keys {c x : ℕ} (hc : c < 2) (hx : x ∈ keysOf wide.cells 1 (c + 1)) :
    1024 * c ≤ x ∧ x < 1024 * c + 1024 := by
  rw [keysOf_branch 0 (wide_branch hc)] at hx
  obtain ⟨g, hg, hx⟩ := mem_flatten.mp hx
  obtain ⟨z, hz, rfl⟩ := mem_map.mp hg
  obtain ⟨s, hs, rfl⟩ := mem_kids.mp hz
  simp only at hs
  simp only [hs, if_true] at hx
  have := wide_leaf_keys (by omega) hx
  omega

theorem wide_branch_wf {c : ℕ} (hc : c < 2) : WF wide.cells (wide.bounds 2) 1 (c + 1) := by
  refine ⟨_, wide_branch hc, ?_, by simp [BTree.bounds, wide, defaultListCapacity], ?_, ?_⟩
  · simp [BTree.bounds, wide, defaultListCapacity]
  · intro z hz
    obtain ⟨s, hs, rfl⟩ := mem_kids.mp hz
    simp only at hs
    simp only [hs, if_true]
    exact wide_leaf_wf (by omega)
  · rw [seps, kids, map_window]
    refine separated_window fun i hi => ?_
    simp only at hi
    simp only [Nat.zero_add, show i ≤ 31 by omega, show i + 1 ≤ 31 by omega, if_true]
    refine ⟨fun x hx => ?_, fun x hx => ?_⟩
    · have := wide_leaf_keys (by omega) hx
      omega
    · have := wide_leaf_keys (j := 32 * c + (i + 1)) (by omega) hx
      omega

theorem wide_wellFormed : wide.WellFormed 2 := by
  have hroot : wide.cells 0 = some (.branch ⟨1, fun _ => 1024, fun s => if s ≤ 1 then s + 1 else 67⟩) :=
    rfl
  refine ⟨⟨⟨_, hroot, ?_, by simp [BTree.bounds, wide, defaultListCapacity], ?_, ?_⟩,
    by decide +kernel, by decide +kernel⟩, by decide, by decide +kernel⟩
  · simp [BTree.bounds, wide]
  · intro z hz
    obtain ⟨s, hs, rfl⟩ := mem_kids.mp hz
    simp only at hs
    simp only [hs, if_true]
    exact wide_branch_wf (by omega)
  · rw [seps, kids, map_window]
    refine separated_window fun i hi => ?_
    obtain rfl : i = 0 := by simpa using hi
    refine ⟨fun x hx => ?_, fun x hx => ?_⟩
    · exact (wide_branch_keys (c := 0) (by omega) hx).2
    · exact (wide_branch_keys (c := 1) (by omega) hx).1

theorem wide_stale : Stale wide.cells 2 wide.root 67 := by
  refine ⟨rfl, fun z _ b hb s hs => ?_⟩
  simp only [wide] at hb
  split at hb
  · obtain rfl := Node.branch.inj (Option.some.inj hb)
    exact if_neg (by simpa using hs)
  · split at hb
    · obtain rfl := Node.branch.inj (Option.some.inj hb)
      exact if_neg (by simpa using hs)
    · split at hb <;> simp at hb

/-- The smallest key is deleted through two merges with a right sibling and
the loss of the root. -/
theorem BTree.delete_iff_wide : wide.deleteUsesLeft 0 = false ∧ wide.Deletes 2 0 :=
  have hkey : 0 ∈ (wide.contents 2).map Prod.fst := by decide +kernel
  have huses : wide.deleteUsesLeft 0 = false := by decide +kernel
  ⟨huses, (BTree.delete_iff wide_wellFormed rfl hkey).mpr huses wide.cells
    (.refl wide_wellFormed.wf.cells_ne_none)⟩

/-- Deleting the first key of the second branch merges this branch with the
left one, and the last leaf of the tree is lost. -/
theorem BTree.delete_wide_fails : wide.WellFormed 2 ∧ wide.keyOnly = false ∧
    1024 ∈ (wide.contents 2).map Prod.fst ∧ ¬ wide.Deletes 2 1024 :=
  have hkey : 1024 ∈ (wide.contents 2).map Prod.fst := by decide +kernel
  ⟨wide_wellFormed, rfl, hkey,
    BTree.not_deletes wide_wellFormed rfl hkey (by decide +kernel) wide_stale⟩

end Fastore.Tree
