import Fastore.Tree.Cascade

/-!
Deletion.

`BTree::Delete` takes the entry out of its leaf, renews the separator on
the left of the leaf if it was the first one, and rebalances, unless the
leaf is the root or does not fall below its limit (`BTree.delete_plain`).
The tree is restored unless the rebalancing comes to use the left sibling
of a branch (`BTree.delete_spec`).

What happens in that case depends on memory the tree does not own: the
slots beyond the children of a branch. So deletion of a key is right for a
tree up to these slots (`Alike`) exactly when the rebalancing does
not use the left sibling of a branch (`BTree.delete_iff`).
-/

namespace Fastore.Tree

open Lib List Function

variable {K V : Type} [LinearOrder K]

/-- The step of `BTree::Delete` between the leaf and the rebalancing. -/
def BTree.renewLeft (t : BTree K V) (path : Path) : Except Fault (BTree K V) :=
  if path.leafIndex = 0 then do
    let pathNode ← path.at (path.branches.length - 1)
    Node.updateKey path (path.branches.length - 1) t pathNode.pNode pathNode.index
  else .ok t

/-- The tree with the entry of `key` taken out of its leaf. -/
structure Erased (t : BTree K V) (n : ℕ) (path : Path) (key : K) (l l' : Leaf K V) : Prop where
  cell : t.cells path.leaf = some (.leaf l)
  delete : l.delete t path.leafIndex = .ok l'
  count : l'.count + 1 = l.count
  walk : Walk t.cells n t.root path.branches 0 path.leaf
  under : { t with cells := update t.cells path.leaf (some (.leaf l')) }.Under n
    ((t.bounds n).slack path.leaf)
  spots : ∃ A v D, spots t.cells n t.root = A ++ (path.leaf, key, v) :: D ∧
    spots (update t.cells path.leaf (some (.leaf l'))) n t.root = A ++ D

section Erase

variable {t : BTree K V} {n : ℕ} {key : K} {path : Path} {l l' : Leaf K V}

theorem BTree.WellFormed.filter_ne (ht : t.WellFormed n) {A D : List (K × Option V)} {v : Option V}
    (hE : t.contents n = A ++ (key, v) :: D) :
    (t.contents n).filter (fun e => decide (e.1 ≠ key)) = A ++ D := by
  have hs := ht.sorted
  rw [hE, map_append, map_cons, pairwise_append, pairwise_cons] at hs
  obtain ⟨-, ⟨hD, -⟩, hA⟩ := hs
  rw [hE, filter_append, filter_cons_of_neg (by simp), filter_eq_self.mpr,
    filter_eq_self.mpr]
  · intro e he
    simpa using (ne_of_lt (hD e.1 (mem_map_of_mem he))).symm
  · intro e he
    simpa using ne_of_lt (hA e.1 (mem_map_of_mem he) key (mem_cons_self ..))

/-- The entry that is found leaves its leaf. -/
theorem Lands.erased (ht : t.WellFormed n) (hland : Lands t.cells n t.root [] key path)
    (hm : path.isMatch = true) : ∃ l l', Erased t n path key l l' := by
  obtain ⟨⟨bs, hbs, hw, -⟩, l, hl, hfinds⟩ := hland
  rw [nil_append] at hbs
  subst hbs
  rw [hm, Leaf.Finds, if_pos rfl] at hfinds
  obtain ⟨A, v, D, hE, hi⟩ := hfinds
  obtain ⟨l₀, hl₀, hok⟩ := hw.wf_end ht.wf
  obtain rfl := Node.leaf.inj (some_unique hl hl₀)
  obtain ⟨l', hdel, hE', hlay, hcount⟩ := Leaf.delete_spec t path.leafIndex hok.layout hE hi
  have hlt := (Leaf.entry_of_entries hE).1
  have hsub : ∀ e ∈ l'.entries, e ∈ l.entries := by
    intro e he
    rw [hE'] at he
    rw [hE]
    rcases mem_append.mp he with he | he <;> simp [he]
  generalize hh : update t.cells path.leaf (some (.leaf l')) = h₁
  have hcell : h₁ path.leaf = some (.leaf l') := hh ▸ update_self ..
  have hout : ∀ z ∈ nodes t.cells n t.root, z ∉ nodes t.cells 0 path.leaf → h₁ z = t.cells z := by
    intro z _ hz
    rw [← hh]
    exact update_of_ne (by simpa [nodes] using hz) ..
  obtain ⟨A', D', Na, Nb, -, -, hS, hS', hN, hN'⟩ := hw.replace ht.nodup hout
  have hnodes : nodes h₁ n t.root = nodes t.cells n t.root := by rw [hN, hN']; rfl
  refine ⟨l, l', hl, hdel, by omega, hw, hh ▸ ⟨?_, hnodes ▸ ht.nodup, hnodes ▸ ht.fresh, ?_⟩, ?_⟩
  · refine hw.wf (B := t.bounds n) ht.nodup rfl rfl hout (fun z _ _ => ?_) ht.wf
      ⟨l', hcell, ?_, ?_, ?_, hlay⟩ fun k hk => Or.inl ?_
    · simp only [Bounds.slack]
      split <;> omega
    · have := hok.min_le
      simp only [Bounds.slack, if_true]
      omega
    · have := hok.le_cap
      simp only [Bounds.slack]
      omega
    · rw [hE']
      exact hok.sorted.sublist (by rw [hE]; simp)
    · rw [keysOf, entries_leaf hcell] at hk
      rw [keysOf, entries_leaf hl]
      obtain ⟨e, he, rfl⟩ := mem_map.mp hk
      exact mem_map_of_mem (hsub e he)
  · intro z hz hroot
    have hn : n ≠ 0 := by
      rintro rfl
      exact hroot (by simpa [nodes] using hz)
    exact BTree.slack_min_pos (ht.capacity hn) n path.leaf hroot
  · refine ⟨A' ++ A.map (Prod.mk path.leaf), v, D.map (Prod.mk path.leaf) ++ D', ?_, ?_⟩
    · rw [hS, spots_leaf hl, hE]
      simp
    · rw [hh, hS', spots_leaf hcell, hE']
      simp

namespace Erased

variable (he : Erased t n path key l l')
include he

theorem contents (ht : t.WellFormed n) :
    entries (update t.cells path.leaf (some (.leaf l'))) n t.root =
      (t.contents n).filter fun e => decide (e.1 ≠ key) := by
  obtain ⟨A, v, D, hS, hS'⟩ := he.spots
  have hE : t.contents n = A.map Prod.snd ++ (key, v) :: D.map Prod.snd := by
    rw [BTree.contents, entries, hS]
    simp
  rw [ht.filter_ne hE, entries, hS', map_append]

theorem length_filter (ht : t.WellFormed n) :
    (((t.contents n).filter fun e => decide (e.1 ≠ key)).length : ℤ) = t.count - 1 := by
  obtain ⟨A, v, D, hS, -⟩ := he.spots
  have hE : t.contents n = A.map Prod.snd ++ (key, v) :: D.map Prod.snd := by
    rw [BTree.contents, entries, hS]
    simp
  rw [ht.filter_ne hE, ht.count, hE]
  simp only [length_append, length_cons, length_map]
  omega

theorem branches_nil (ht : t.WellFormed n) : path.branches = [] ↔ path.leaf = t.root := by
  constructor
  · intro h
    have hw := he.walk
    rw [h] at hw
    exact hw.of_nil.2
  · intro h
    by_contra hne
    exact he.walk.top_not_mem ht.nodup hne (h ▸ mem_nodes_self ..)

theorem renewLeft (ht : t.WellFormed n) (hroot : path.leaf ≠ t.root) :
    ∃ h₂, (t.set path.leaf (.leaf l')).renewLeft path = .ok { t with cells := h₂ } ∧
      Rekeyed (update t.cells path.leaf (some (.leaf l'))) h₂ ∧
      { t with cells := h₂ }.Under n ((t.bounds n).slack path.leaf) := by
  have hbs : path.branches ≠ [] := fun h => hroot ((he.branches_nil ht).mp h)
  have hlen : path.branches.length - 1 < path.branches.length :=
    Nat.sub_lt (length_pos_iff.mpr hbs) Nat.one_pos
  have hsame : ∀ x ∈ path.branches,
      update t.cells path.leaf (some (.leaf l')) x.pNode = t.cells x.pNode := by
    intro x hx
    refine update_of_ne (fun h => ?_) ..
    exact (he.walk.mem_branches ht.nodup x hx).2 (h ▸ mem_nodes_self ..)
  have hwalk := he.walk.frame hsame
  by_cases hi : path.leafIndex = 0
  · have htake : path.branches.take (path.branches.length - 1 + 1) = path.branches := by
      rw [Nat.sub_add_cancel (length_pos_iff.mpr hbs), take_length]
    have hw' := hwalk
    rw [← htake, take_succ_eq_append_getElem hlen] at hw'
    obtain ⟨b, hw', hb, hib, -⟩ := hw'.unsnoc
    obtain ⟨h₂, hup, hr, hu⟩ := Node.updateKey_spec path he.under hw' hb hib
      ⟨0, path.leaf, by rw [htake]; exact hwalk⟩ hlen
    refine ⟨h₂, ?_, hr, hu⟩
    simp only [BTree.renewLeft, hi, if_true, Path.at, getElem?_eq_getElem hlen, bind,
      Except.bind]
    exact hup
  · exact ⟨_, by rw [BTree.renewLeft, if_neg hi]; rfl, .refl _, he.under⟩

variable {h₂ : Cells K V}

omit he in
theorem delete_eq (hcell : t.cells path.leaf = some (.leaf l))
    (hdel : l.delete t path.leafIndex = .ok l') (hroot : path.leaf ≠ t.root)
    (hop : (t.set path.leaf (.leaf l')).renewLeft path = .ok { t with cells := h₂ }) :
    t.delete path =
      (Node.rebalanceLeaf path path.branches.length { t with cells := h₂ } path.leaf).map
        fun x => { x.1 with root := x.2.getD x.1.root, count := x.1.count - 1 } := by
  have hroot' : path.leaf ≠ (t.set path.leaf (.leaf l')).root := hroot
  simp only [BTree.delete, BTree.leafAt, hcell, hdel, bind, Except.bind]
  simp only [BTree.renewLeft, bind, Except.bind] at hop
  rw [if_pos hroot', hop]
  simp only
  cases Node.rebalanceLeaf path path.branches.length { t with cells := h₂ } path.leaf with
  | error e => rfl
  | ok x =>
    obtain ⟨t', r⟩ := x
    cases r <;> rfl

theorem delete_inner (ht : t.WellFormed n) (hroot : path.leaf ≠ t.root) :
    ∃ h₂, Rekeyed (update t.cells path.leaf (some (.leaf l'))) h₂ ∧
      { t with cells := h₂ }.Under n ((t.bounds n).slack path.leaf) ∧
      t.delete path =
        (Node.rebalanceLeaf path path.branches.length { t with cells := h₂ } path.leaf).map
          fun x => { x.1 with root := x.2.getD x.1.root, count := x.1.count - 1 } := by
  obtain ⟨h₂, hop, hr, hu⟩ := he.renewLeft ht hroot
  exact ⟨h₂, hr, hu, delete_eq he.cell he.delete hroot hop⟩

theorem loose (ht : t.WellFormed n) (hn : n ≠ 0)
    (hr : Rekeyed (update t.cells path.leaf (some (.leaf l'))) h₂)
    (hu : { t with cells := h₂ }.Under n ((t.bounds n).slack path.leaf)) :
    Loose { t with cells := h₂ } n path.leaf
      ((t.contents n).filter fun e => decide (e.1 ≠ key)) :=
  ⟨hu, ht.capacity hn, (hr.entries n t.root).trans (he.contents ht)⟩

omit he in
theorem leaf_cell (hr : Rekeyed (update t.cells path.leaf (some (.leaf l'))) h₂) :
    h₂ path.leaf = some (.leaf l') := by
  have hs := hr path.leaf
  rw [update_self] at hs
  exact hs.leaf

theorem way (ht : t.WellFormed n) (hr : Rekeyed (update t.cells path.leaf (some (.leaf l'))) h₂) :
    Walk h₂ n t.root path.branches 0 path.leaf := by
  refine hr.walk (he.walk.frame fun x hx => update_of_ne (fun h => ?_) ..)
  exact (he.walk.mem_branches ht.nodup x hx).2 (h ▸ mem_nodes_self ..)

theorem short (ht : t.WellFormed n) (hn : n ≠ 0)
    (hr : Rekeyed (update t.cells path.leaf (some (.leaf l'))) h₂)
    (hu : { t with cells := h₂ }.Under n ((t.bounds n).slack path.leaf)) :
    Short t.cells { t with cells := h₂ } n path.branches 0 path.leaf
      ((t.contents n).filter fun e => decide (e.1 ≠ key)) := by
  have hout : ∀ z, z ≠ path.leaf → SameFrame (t.cells z) (h₂ z) := by
    intro z hz
    have hs := hr z
    rwa [update_of_ne hz] at hs
  refine ⟨⟨he.walk, fun z _ hz => hout z (by simpa [nodes] using hz)⟩, he.loose ht hn hr hu,
    he.way ht hr, fun z hz => hz, ?_, fun d hd => ?_⟩
  · simp only [countOf, leaf_cell hr, he.cell, Node.count]
    exact he.count
  · refine (hout d ?_).none_iff.mpr hd
    rintro rfl
    simp [he.cell] at hd

end Erased

/-- **Deletion without rebalancing**: the leaf is the root, or has enough
entries left. This is so for key-only trees as well. -/
theorem BTree.delete_plain (ht : t.WellFormed n) (he : Erased t n path key l l')
    (hplain : path.leaf = t.root ∨ t.listCapacity / 2 < l.count) :
    ∃ h', t.delete path = .ok { t with cells := h', count := t.count - 1 } ∧
      { t with cells := h', count := t.count - 1 }.WellFormed n ∧
      ∃ A v D, Tree.spots t.cells n t.root = A ++ (path.leaf, key, v) :: D ∧
        Tree.spots h' n t.root = A ++ D := by
  obtain ⟨A, v, D, hS, hS'⟩ := he.spots
  by_cases hroot : path.leaf = t.root
  · have hn : n = 0 := by
      have hw := he.walk.height
      rw [(he.branches_nil ht).mpr hroot] at hw
      simpa using hw
    subst hn
    refine ⟨update t.cells path.leaf (some (.leaf l')), ?_, ⟨⟨?_, he.under.nodup,
      he.under.fresh⟩, fun h => absurd rfl h, ?_⟩, A, v, D, hS, hS'⟩
    · have hroot' : ¬ path.leaf ≠ (t.set path.leaf (.leaf l')).root := not_not.mpr hroot
      simp only [BTree.delete, BTree.leafAt, he.cell, he.delete, bind, Except.bind]
      rw [if_neg hroot']
      rfl
    · refine WF.congr he.under.wf rfl rfl (fun _ _ => rfl) fun z hz => ?_
      have hz : z = t.root := by simpa [nodes] using hz
      simp [hz, BTree.bounds]
    · rw [← he.length_filter ht, ← he.contents ht]
      rfl
  · have hcount := he.count
    have hhalf : t.listCapacity / 2 ≤ l'.count := by
      rcases hplain with h | h
      · exact absurd h hroot
      · omega
    obtain ⟨h₂, hr, hu, hop⟩ := he.delete_inner ht hroot
    have hcell := Erased.leaf_cell hr
    have hn : n ≠ 0 := by
      have hw := he.walk.height
      have hlen := length_pos_iff.mpr fun h => hroot ((he.branches_nil ht).mp h)
      omega
    have hl := he.loose ht hn hr hu
    have hset : Settled { t with cells := h₂ } n
        ((t.contents n).filter fun e => decide (e.1 ≠ key)) := by
      obtain ⟨l₀, hl₀, hok⟩ := (he.way ht hr).wf_end hu.wf
      obtain rfl := Node.leaf.inj (some_unique hcell hl₀)
      refine hl.settled (he.way ht hr) ⟨l', hcell, ?_, hok.le_cap, hok.sorted, hok.layout⟩
      simpa [BTree.bounds, hroot] using hhalf
    refine ⟨h₂, ?_, ⟨⟨hset.shaped.wf, hset.shaped.nodup, hset.shaped.fresh⟩, ht.capacity, ?_⟩,
      A, v, D, hS, (hr.spots n t.root).trans hS'⟩
    · obtain ⟨d, hd⟩ : ∃ d, path.branches.length = d + 1 := ⟨path.branches.length - 1, by
        have := length_pos_iff.mpr fun h => hroot ((he.branches_nil ht).mp h)
        omega⟩
      rw [hop, hd]
      simp only [Node.rebalanceLeaf, BTree.leafAt, hcell, bind, Except.bind, if_pos hhalf,
        Except.map, Option.getD_none]
    · exact (he.length_filter ht).symm.trans (congrArg _ (congrArg _ hset.contents.symm))

def BTree.usesLeft (t : BTree K V) (path : Path) : Bool :=
  leftCaseLeaf t.cells (t.listCapacity / 2) path.branches.reverse path.leaf

/-- **Deletion** restores the tree unless it uses the left sibling of a
branch. If it does, and the slots beyond the children are dangling, it
does not return a tree. -/
theorem BTree.delete_spec (ht : t.WellFormed n) (hko : t.keyOnly = false)
    (he : Erased t n path key l l') :
    (t.usesLeft path = false → ∃ t' n', t.delete path = .ok t' ∧ t'.WellFormed n' ∧
      t'.contents n' = ((t.contents n).filter fun e => decide (e.1 ≠ key)) ∧
      t'.count = t.count - 1 ∧ t'.keyOnly = false ∧ (t.Sized n → t'.Sized n')) ∧
    (t.usesLeft path = true → ∀ d, Stale t.cells n t.root d → ∀ t', t.delete path = .ok t' →
      ∃ S k, Broken t'.cells S k t'.root) := by
  by_cases hroot : path.leaf = t.root
  · obtain ⟨h', hop, hw, A, v, D, hS, hS'⟩ := BTree.delete_plain ht he (Or.inl hroot)
    have hleft : t.usesLeft path = false := by
      rw [BTree.usesLeft, (he.branches_nil ht).mpr hroot]
      rfl
    refine ⟨fun _ => ⟨_, n, hop, hw, ?_, rfl, hko, id⟩,
      fun h => absurd (hleft.symm.trans h) (by simp)⟩
    have hE : t.contents n = A.map Prod.snd ++ (key, v) :: D.map Prod.snd := by
      rw [BTree.contents, entries, hS]
      simp
    rw [ht.filter_ne hE, ← map_append, ← hS']
    rfl
  · obtain ⟨h₂, hr, hu, hop⟩ := he.delete_inner ht hroot
    obtain ⟨d, hd⟩ : ∃ d, path.branches.length = d + 1 := ⟨path.branches.length - 1, by
      have := length_pos_iff.mpr fun h => hroot ((he.branches_nil ht).mp h)
      omega⟩
    have hn : n ≠ 0 := by
      have hw := he.walk.height
      omega
    have htake : path.branches.take (d + 1) = path.branches := by rw [← hd, take_length]
    obtain ⟨hrestored, hbroken⟩ := Node.rebalanceLeaf_spec (t := { t with cells := h₂ }) ht.wf
      ht.nodup hko (show d < path.branches.length by omega) (htake.symm ▸ he.short ht hn hr hu)
    rw [htake] at hrestored hbroken
    rw [hd] at hop
    refine ⟨fun hleft => ?_, fun hleft e hst t' ht' => ?_⟩
    · obtain ⟨h', r, n', hrun, hset⟩ := hrestored hleft
      rw [hrun] at hop
      refine ⟨_, n', hop, ⟨⟨hset.shaped.wf, hset.shaped.nodup, hset.shaped.fresh⟩,
        fun _ => ht.capacity hn, ?_⟩, hset.contents, rfl, hko, fun hs => Or.inl ?_⟩
      · exact (he.length_filter ht).symm.trans (congrArg _ (congrArg _ hset.contents.symm))
      · rcases hs with hs | ⟨hzero, -⟩
        · exact hs
        · exact absurd hzero hn
    · rw [hop] at ht'
      cases hrun : Node.rebalanceLeaf path (d + 1) { t with cells := h₂ } path.leaf with
      | error e =>
        rw [hrun] at ht'
        exact absurd ht' (by simp [Except.map])
      | ok x =>
        obtain ⟨t₁, r⟩ := x
        rw [hrun] at ht'
        obtain rfl := Except.ok.inj ht'
        obtain ⟨hroot₁, hlost⟩ := hbroken hleft e hst t₁ r hrun
        simpa only [hroot₁] using hlost

end Erase

end Fastore.Tree
