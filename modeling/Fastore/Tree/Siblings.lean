import Fastore.Tree.Rebalance

/-!
Borrowing from a sibling and merging with one.

For leaves all four cases are right: an entry or a whole leaf moves over,
and the separator between the two is renewed or dropped. For branches
this is shown of the two cases that use the right sibling; what is wrong
with the other two is the subject of `Fastore.Tree.Delete`.
-/

namespace Fastore.Tree

open Lib List Function

variable {K V : Type} [LinearOrder K]

/-- The result of joining two neighbours: the parent is short of a child,
and outside the parent and the two subtrees only keys have changed. -/
structure Joined (t : BTree K V) (n : ℕ) (bs : List PathNode) (m : ℕ) (p : NodeId) (b : Branch K)
    (j : ℕ) (E : List (K × Option V)) (h' : Cells K V) : Prop where
  loose : Loose { t with cells := h' } n p E
  walk : Walk h' n t.root bs (m + 1) p
  frame : ∀ z, z ≠ p → z ∉ nodes t.cells m (b.children j) →
    z ∉ nodes t.cells m (b.children (j + 1)) → SameFrame (t.cells z) (h' z)
  parent : ∃ b' : Branch K, h' p = some (.branch b') ∧ b'.count + 1 = b.count
  sub : ∀ z ∈ nodes h' (m + 1) p, z ∈ nodes t.cells (m + 1) p

variable {h' : Cells K V} {l' : Leaf K V} {c : NodeId} {x : PathNode}

theorem Loose.rekeyed {t : BTree K V} {n : ℕ} {q : NodeId} {E : List (K × Option V)}
    (hl : Loose t n q E) (hr : Rekeyed t.cells h')
    (hu : { t with cells := h' }.Under n ((t.bounds n).slack q)) :
    Loose { t with cells := h' } n q E :=
  ⟨hu, hl.capacity, (hr.entries n t.root).trans hl.contents⟩

section Step

variable {t : BTree K V} {n m j depth : ℕ} {p q : NodeId} {bs : List PathNode} {b : Branch K}
  {E : List (K × Option V)} {path : Path}

theorem Joined.updateKey (hj : Joined t n (path.branches.take depth) m p b j E h')
    (hx : path.branches[depth]? = some ⟨p, j⟩) (hlt : j < b.count) :
    ∃ h'', (if j = 0 then Node.updateKey path depth { t with cells := h' } p 0
        else .ok { t with cells := h' }) = .ok { t with cells := h'' } ∧
      Joined t n (path.branches.take depth) m p b j E h'' := by
  split
  · obtain ⟨b', hb', hcount⟩ := hj.parent
    have hlen : depth < path.branches.length := (List.getElem?_eq_some_iff.mp hx).1
    have hwalk : Walk h' n t.root (path.branches.take (depth + 1)) m (b'.children j) := by
      rw [List.take_succ_eq_append_getElem hlen, (List.getElem?_eq_some_iff.mp hx).2]
      exact hj.walk.snoc hb' (by omega)
    obtain ⟨h'', hup, hr, hu⟩ := Node.updateKey_spec path hj.loose.under hj.walk hb'
      (Nat.zero_le _) ⟨_, _, hwalk⟩ hlen
    have hrp : SameFrame (h' p) (h'' p) := hr p
    rw [hb'] at hrp
    obtain ⟨b'', hb'', hc'', -⟩ := hrp.branch
    exact ⟨h'', hup, hj.loose.rekeyed hr hu, hr.walk hj.walk,
      fun z hzp hzc hzd => (hj.frame z hzp hzc hzd).trans (hr z), ⟨b'', hb'', by omega⟩,
      fun z hz => hj.sub z (hr.nodes _ p ▸ hz)⟩
  · exact ⟨h', rfl, hj⟩

/-! ### Leaves -/

variable {l r : Leaf K V}

/-- Two neighbouring leaves with values, and their parent. -/
structure LeafPair (t : BTree K V) (p : NodeId) (b : Branch K) (j : ℕ) (l r : Leaf K V) :
    Prop where
  cell : t.cells p = some (.branch b)
  left : t.cells (b.children j) = some (.leaf l)
  right : t.cells (b.children (j + 1)) = some (.leaf r)
  apart : p ≠ b.children j ∧ p ≠ b.children (j + 1) ∧ b.children j ≠ b.children (j + 1)
  layout : l.values.isSome = true ∧ r.values.isSome = true

/-- The two leaves share their entries anew, and the separator between them is renewed. -/
structure LeafPair.Shared (t : BTree K V) (p : NodeId) (b : Branch K) (j : ℕ) (l r : Leaf K V)
    (h' : Cells K V) (l' r' : Leaf K V) : Prop where
  cell : h' p = some (.branch (b.setSep (j + 1) (r'.keys 0)))
  left : h' (b.children j) = some (.leaf l')
  right : h' (b.children (j + 1)) = some (.leaf r')
  other : ∀ z, z ≠ p → z ≠ b.children j → z ≠ b.children (j + 1) → h' z = t.cells z
  entries : l'.entries ++ r'.entries = l.entries ++ r.entries
  layout : l'.values.isSome = true ∧ r'.values.isSome = true

/-- The left leaf has the entries of both, and the right one is gone. -/
structure LeafPair.Merged (t : BTree K V) (p : NodeId) (b : Branch K) (j : ℕ) (l r : Leaf K V)
    (h' : Cells K V) (l' : Leaf K V) : Prop where
  cell : h' p = some (.branch (b.branchDelete j))
  left : h' (b.children j) = some (.leaf l')
  gone : h' (b.children (j + 1)) = none
  other : ∀ z, z ≠ p → z ≠ b.children j → z ≠ b.children (j + 1) → h' z = t.cells z
  entries : l'.entries = l.entries ++ r.entries
  layout : l'.values.isSome = true

theorem BTree.childKey_leaf {t : BTree K V} (hc : t.cells c = some (.leaf l)) (hnext : 0 < t.next) :
    t.childKey c = .ok (l.keys 0) := by
  obtain ⟨k, hk⟩ : ∃ k, t.next = k + 1 := ⟨t.next - 1, (Nat.succ_pred_eq_of_pos hnext).symm⟩
  rw [BTree.childKey, hk, Node.getChildKey, hc]

omit [LinearOrder K] in
theorem Leaf.copy_spec' {l r : Leaf K V} (hl : l.values.isSome = true) (hr : r.values.isSome = true)
    (d s n : ℕ) :
    ∃ values, moveValues l.values d r.values s n = .ok values ∧ values.isSome = true ∧
      ∀ c, (Leaf.mk c (move l.keys d r.keys s n) values).entry = move l.entry d r.entry s n := by
  obtain ⟨values, hv, hlay, hent⟩ := Leaf.copy_spec false hl hr d s n
  exact ⟨values, by simpa using hv, hlay, hent⟩

theorem LeafPair.renew {g : Cells K V} {r' : Leaf K V} (hp : LeafPair t p b j l r)
    (hnext : 0 < t.next) (hx : path.branches[depth]? = some x)
    (hc' : g (b.children j) = some (.leaf l')) (hd' : g (b.children (j + 1)) = some (.leaf r'))
    (hother : ∀ z, z ≠ b.children j → z ≠ b.children (j + 1) → g z = t.cells z)
    (hE : l'.entries ++ r'.entries = l.entries ++ r.entries)
    (hlay : l'.values.isSome = true ∧ r'.values.isSome = true) :
    ∃ h', Node.updateKey path depth { t with cells := g } p (j + 1) =
        .ok { t with cells := h' } ∧ Shared t p b j l r h' l' r' := by
  obtain ⟨hpc, hpd, -⟩ := hp.apart
  have hkey : { t with cells := g }.childKey (b.children (j + 1)) = .ok (r'.keys 0) :=
    BTree.childKey_leaf hd' hnext
  refine ⟨_, Node.updateKey_direct hx ((hother p hpc hpd).trans hp.cell) hkey,
    update_self .., ?_, ?_, fun z hzp hzc hzd => ?_, hE, hlay⟩
  · rw [← hc']
    exact update_of_ne (Ne.symm hpc) ..
  · rw [← hd']
    exact update_of_ne (Ne.symm hpd) ..
  · rw [← hother z hzc hzd]
    exact update_of_ne hzp ..

theorem LeafPair.drop {g : Cells K V} (hp : LeafPair t p b j l r)
    (hc' : g (b.children j) = some (.leaf l')) (hd' : g (b.children (j + 1)) = none)
    (hother : ∀ z, z ≠ b.children j → z ≠ b.children (j + 1) → g z = t.cells z)
    (hE : l'.entries = l.entries ++ r.entries) (hlay : l'.values.isSome = true) :
    ∃ h', { t with cells := g }.branchDelete p j = .ok { t with cells := h' } ∧
      Merged t p b j l r h' l' := by
  obtain ⟨hpc, hpd, -⟩ := hp.apart
  have hcell : g p = some (.branch b) := (hother p hpc hpd).trans hp.cell
  refine ⟨update g p (some (.branch (b.branchDelete j))), ?_, update_self ..,
    ?_, ?_, fun z hzp hzc hzd => ?_, hE, hlay⟩
  · simp only [BTree.branchDelete, BTree.branchAt, hcell, bind, Except.bind]
    rfl
  · rw [← hc']
    exact update_of_ne (Ne.symm hpc) ..
  · rw [← hd']
    exact update_of_ne (Ne.symm hpd) ..
  · rw [← hother z hzc hzd]
    exact update_of_ne hzp ..

theorem Leaf.borrowRight_shared (hp : LeafPair t p b j l r) (hnext : 0 < t.next)
    (hx : path.branches[depth]? = some x) (hone : 1 ≤ r.count) :
    ∃ h' l' r', Leaf.borrowRight path depth t (b.children j) (b.children (j + 1)) p j =
        .ok { t with cells := h' } ∧ LeafPair.Shared t p b j l r h' l' r' ∧
      l'.count = l.count + 1 ∧ r'.count = r.count - 1 := by
  obtain ⟨lv, hlv, hlvlay, hlent⟩ := Leaf.copy_spec' hp.layout.1 hp.layout.2 l.count 0 1
  obtain ⟨rv, hrv, hrvlay, hrent⟩ := Leaf.copy_spec' hp.layout.2 hp.layout.2 0 1 (r.count - 1)
  have hop : Leaf.borrowRight path depth t (b.children j) (b.children (j + 1)) p j =
      Node.updateKey path depth ((t.set (b.children j) (.leaf ⟨l.count + 1,
        move l.keys l.count r.keys 0 1, lv⟩)).set (b.children (j + 1)) (.leaf ⟨r.count - 1,
        move r.keys 0 r.keys 1 (r.count - 1), rv⟩)) p (j + 1) := by
    simp only [Leaf.borrowRight, BTree.leafAt, hp.left, hp.right, bind, Except.bind, hlv, hrv]
  have hE : (Leaf.mk (l.count + 1) (move l.keys l.count r.keys 0 1) lv).entries ++
      (Leaf.mk (r.count - 1) (move r.keys 0 r.keys 1 (r.count - 1)) rv).entries =
        l.entries ++ r.entries := by
    simp only [Leaf.entries, hlent, hrent]
    rw [window_append, window_move_inside _ _ _ _ _ (le_refl _) (by omega), append_assoc,
      window_one, singleton_append, Nat.sub_zero, ← window_succ,
      show r.count - 1 + 1 = r.count by omega]
  obtain ⟨-, -, hcd⟩ := hp.apart
  obtain ⟨h', hup, hshared⟩ := hp.renew hnext hx
    ((update_of_ne hcd ..).trans (update_self ..)) (update_self ..)
    (fun z hzc hzd => (update_of_ne hzd ..).trans (update_of_ne hzc ..))
    hE ⟨hlvlay, hrvlay⟩
  exact ⟨h', _, _, hop.trans hup, hshared, rfl, rfl⟩

/-- A leaf takes the last entry of its left sibling. -/
theorem Leaf.borrowLeft_shared (hp : LeafPair t p b j l r) (hnext : 0 < t.next)
    (hx : path.branches[depth]? = some x) (hone : 1 ≤ l.count) :
    ∃ h' l' r', Leaf.borrowLeft path depth t (b.children (j + 1)) (b.children j) p (j + 1) =
        .ok { t with cells := h' } ∧ LeafPair.Shared t p b j l r h' l' r' ∧
      l'.count = l.count - 1 ∧ r'.count = r.count + 1 := by
  obtain ⟨v₁, hv₁, hlay₁, hent₁⟩ := Leaf.copy_spec' hp.layout.2 hp.layout.2 1 0 r.count
  obtain ⟨v₂, hv₂, hlay₂, hent₂⟩ := Leaf.copy_spec'
    (l := ⟨r.count, move r.keys 1 r.keys 0 r.count, v₁⟩) hlay₁ hp.layout.1 0 (l.count - 1) 1
  have hop : Leaf.borrowLeft path depth t (b.children (j + 1)) (b.children j) p (j + 1) =
      Node.updateKey path depth ((t.set (b.children (j + 1)) (.leaf ⟨r.count + 1,
        move (move r.keys 1 r.keys 0 r.count) 0 l.keys (l.count - 1) 1, v₂⟩)).set (b.children j)
        (.leaf { l with count := l.count - 1 })) p (j + 1) := by
    simp only [Leaf.borrowLeft, BTree.leafAt, hp.left, hp.right, bind, Except.bind, hv₁, hv₂]
  have hE : ({ l with count := l.count - 1 } : Leaf K V).entries ++ (Leaf.mk (r.count + 1)
      (move (move r.keys 1 r.keys 0 r.count) 0 l.keys (l.count - 1) 1) v₂).entries =
        l.entries ++ r.entries := by
    simp only [Leaf.entries, hent₂, hent₁]
    change window l.entry 0 (l.count - 1) ++ _ = _
    rw [Nat.add_comm r.count 1, window_add, window_move_inside _ _ _ _ _ (le_refl _) (by omega),
      window_move_outside _ _ _ _ _ (by omega), window_move_inside _ _ _ _ _ (by omega) (by omega),
      ← append_assoc, window_one, Nat.sub_zero, Nat.add_zero]
    nth_rewrite 2 [← Nat.zero_add (l.count - 1)]
    rw [← window_succ_last, show l.count - 1 + 1 = l.count by omega]
  obtain ⟨-, -, hcd⟩ := hp.apart
  obtain ⟨h', hup, hshared⟩ := hp.renew hnext hx (update_self ..)
    ((update_of_ne (Ne.symm hcd) ..).trans (update_self ..))
    (fun z hzc hzd => (update_of_ne hzc ..).trans (update_of_ne hzd ..))
    hE ⟨hp.layout.1, hlay₂⟩
  exact ⟨h', _, _, hop.trans hup, hshared, rfl, rfl⟩

theorem LeafPair.mergeLeaves (hp : LeafPair t p b j l r) :
    ∃ lv h' l', moveValues l.values l.count r.values 0 r.count = .ok lv ∧
      ((t.set (b.children j) (.leaf ⟨l.count + r.count, move l.keys l.count r.keys 0 r.count,
        lv⟩)).free (b.children (j + 1))).branchDelete p j = .ok { t with cells := h' } ∧
      Merged t p b j l r h' l' := by
  obtain ⟨lv, hlv, hlvlay, hlent⟩ := Leaf.copy_spec' hp.layout.1 hp.layout.2 l.count 0 r.count
  have hE : (Leaf.mk (l.count + r.count) (move l.keys l.count r.keys 0 r.count) lv).entries =
      l.entries ++ r.entries := by
    simp only [Leaf.entries, hlent, window_append]
  obtain ⟨-, -, hcd⟩ := hp.apart
  obtain ⟨h', hdel, hmerged⟩ := hp.drop
    ((update_of_ne hcd ..).trans (update_self ..)) (update_self ..)
    (fun z hzc hzd => (update_of_ne hzd ..).trans (update_of_ne hzc ..))
    hE hlvlay
  exact ⟨lv, h', _, hlv, hdel, hmerged⟩

theorem Leaf.mergeRight_merged (path : Path) (depth : ℕ) (hp : LeafPair t p b j l r) :
    ∃ h' l', Leaf.mergeRight path depth t (b.children j) (b.children (j + 1)) p j =
        (if j = 0 then Node.updateKey path depth { t with cells := h' } p 0
          else .ok { t with cells := h' }) ∧ LeafPair.Merged t p b j l r h' l' := by
  obtain ⟨lv, h', l', hlv, hdel, hmerged⟩ := hp.mergeLeaves
  refine ⟨h', l', ?_, hmerged⟩
  simp only [Leaf.mergeRight, BTree.leafAt, hp.left, hp.right, bind, Except.bind, hlv, hdel]

theorem Leaf.mergeLeft_merged (hp : LeafPair t p b j l r) :
    ∃ h' l', Leaf.mergeLeft t (b.children (j + 1)) (b.children j) p (j + 1) =
        .ok { t with cells := h' } ∧ LeafPair.Merged t p b j l r h' l' := by
  obtain ⟨lv, h', l', hlv, hdel, hmerged⟩ := hp.mergeLeaves
  refine ⟨h', l', ?_, hmerged⟩
  simp only [Leaf.mergeLeft, BTree.leafAt, hp.left, hp.right, bind, Except.bind, hlv,
    Nat.add_sub_cancel, hdel]

/-! ### Leaves of a tree -/

theorem Loose.leaf_ok (hl : Loose t n q E) (hw : Walk t.cells n t.root bs 0 c) (hbs : bs ≠ [])
    (hc : t.cells c = some (.leaf l)) :
    t.listCapacity / 2 - 1 ≤ l.count ∧ l.count ≤ t.listCapacity ∧
      l.values.isSome = !t.keyOnly ∧ (c ≠ q → t.listCapacity / 2 ≤ l.count) := by
  obtain ⟨l₀, hl₀, hok⟩ := hw.wf_end hl.under.wf
  obtain rfl := Node.leaf.inj (Option.some.inj (hc.symm.trans hl₀))
  have hroot : c ≠ t.root := fun h =>
    hw.top_not_mem hl.under.nodup hbs (h ▸ mem_nodes_self ..)
  have hmin := hok.min_le
  simp only [Bounds.slack, BTree.bounds, if_neg hroot] at hmin
  refine ⟨?_, hok.le_cap, hok.layout, fun hcq => ?_⟩
  · split at hmin <;> omega
  · rwa [if_neg hcq] at hmin

theorem Neighbours.leaves_ne (hn : Neighbours t n bs 0 p b j)
    (hnd : (nodes t.cells n t.root).Nodup) :
    p ≠ b.children j ∧ p ≠ b.children (j + 1) ∧ b.children j ≠ b.children (j + 1) := by
  obtain ⟨hcd, hpc, hpd⟩ := hn.apart hnd
  simp only [nodes, mem_singleton] at hpc hpd
  simp only [nodes, singleton_append, nodup_cons, mem_singleton] at hcd
  exact ⟨hpc, hpd, hcd.1⟩

theorem Neighbours.leafPair (hn : Neighbours t n bs 0 p b j) (hl : Loose t n q E)
    (hko : t.keyOnly = false) (hc : t.cells (b.children j) = some (.leaf l))
    (hd : t.cells (b.children (j + 1)) = some (.leaf r)) : LeafPair t p b j l r := by
  obtain ⟨-, -, hllay, -⟩ := hl.leaf_ok hn.walk_left (by simp) hc
  obtain ⟨-, -, hrlay, -⟩ := hl.leaf_ok hn.walk_right (by simp) hd
  rw [hko, Bool.not_false] at hllay hrlay
  exact ⟨hn.cell, hc, hd, hn.leaves_ne hl.under.nodup, hllay, hrlay⟩

theorem Neighbours.leaves_sorted (hn : Neighbours t n bs 0 p b j) {B : Bounds} (hu : t.Under n B)
    (hc : t.cells (b.children j) = some (.leaf l))
    (hd : t.cells (b.children (j + 1)) = some (.leaf r)) :
    (l.entries ++ r.entries).Pairwise fun x y => x.1 < y.1 := by
  have hs := hn.sorted hu
  rw [keysOf, keysOf, entries_leaf hc, entries_leaf hd, ← map_append] at hs
  exact pairwise_map.mp hs

theorem Neighbours.keep_leaves {r' : Leaf K V} (hn : Neighbours t n bs 0 p b j) (hl : Loose t n q E)
    (hko : t.keyOnly = false) (hq : q = b.children j ∨ q = b.children (j + 1))
    (hp : LeafPair t p b j l r) (hs : LeafPair.Shared t p b j l r h' l' r')
    (hlcount : t.listCapacity / 2 ≤ l'.count ∧ l'.count ≤ t.listCapacity)
    (hrcount : t.listCapacity / 2 ≤ r'.count ∧ r'.count ≤ t.listCapacity) :
    Settled { t with cells := h' } n E := by
  have hsorted := hn.leaves_sorted hl.under hp.left hp.right
  rw [← hs.entries] at hsorted
  obtain ⟨hls, hrs, -⟩ := pairwise_append.mp hsorted
  have hcap := hl.capacity
  have hhead : (r'.entries.map Prod.fst).head? = some (r'.keys 0) := by
    rw [r'.map_fst_entries, show r'.count = r'.count - 1 + 1 by omega, window_succ]
    rfl
  obtain ⟨hbelow, habove⟩ := lt_and_le_of_head (L := l'.entries.map Prod.fst)
    (by rw [← map_append]; exact pairwise_map.mpr hsorted) hhead
  have hlay : ∀ {values : Option (ℕ → V)}, values.isSome = true → values.isSome = !t.keyOnly := by
    intro values h
    rw [h, hko]
    rfl
  refine hn.keep hl hq hs.cell (fun z hzp hzc hzd => hs.other z hzp ?_ ?_)
    ⟨l', hs.left, hlcount.1, hlcount.2, hls, hlay hs.layout.1⟩
    ⟨r', hs.right, hrcount.1, hrcount.2, hrs, hlay hs.layout.2⟩ ?_ (List.Perm.refl _) ?_ ?_
  · exact fun h => hzc (by simp [nodes, h])
  · exact fun h => hzd (by simp [nodes, h])
  · rw [entries_leaf hp.left, entries_leaf hp.right, entries_leaf hs.left, entries_leaf hs.right,
      hs.entries]
  · rwa [keysOf, entries_leaf hs.left]
  · rwa [keysOf, entries_leaf hs.right]

theorem Neighbours.join_leaves (hn : Neighbours t n bs 0 p b j) (hl : Loose t n q E)
    (hko : t.keyOnly = false) (hq : q = b.children j ∨ q = b.children (j + 1))
    (hp : LeafPair t p b j l r) (hm : LeafPair.Merged t p b j l r h' l')
    (hle : l.count + r.count ≤ t.listCapacity) : Joined t n bs 0 p b j E h' := by
  have hs := hn.leaves_sorted hl.under hp.left hp.right
  have hlt := hn.lt
  obtain ⟨hlo, -, -, -⟩ := hl.leaf_ok hn.walk_left (by simp) hp.left
  obtain ⟨hro, -, -, -⟩ := hl.leaf_ok hn.walk_right (by simp) hp.right
  have hcap := hl.capacity
  have hcount : l'.count = l.count + r.count := by
    rw [← l'.length_entries, hm.entries, length_append, l.length_entries, r.length_entries]
  have hout : ∀ z, z ≠ p → z ∉ nodes t.cells 0 (b.children j) →
      z ∉ nodes t.cells 0 (b.children (j + 1)) → h' z = t.cells z := fun z hzp hzc hzd =>
    hm.other z hzp (fun h => hzc (by simp [nodes, h])) fun h => hzd (by simp [nodes, h])
  obtain ⟨hloose, hw, hsub⟩ := hn.join hl hq hm.cell hout
    ⟨l', hm.left, show t.listCapacity / 2 ≤ l'.count by omega,
      show l'.count ≤ t.listCapacity by omega, hm.entries ▸ hs,
      by rw [hm.layout, BTree.inner, hko]; rfl⟩
    (by rw [entries_leaf hp.left, entries_leaf hp.right, entries_leaf hm.left, hm.entries])
    (by simp [nodes]) (by simp [nodes])
  refine ⟨hloose, hw, fun z hzp hzc hzd => ?_, ⟨_, hm.cell, ?_⟩, hsub⟩
  · rw [hout z hzp hzc hzd]
    exact .refl _
  · simp only [Branch.branchDelete]
    omega

theorem Leaf.borrowRight_spec (hn : Neighbours t n bs 0 p b j) (hl : Loose t n (b.children j) E)
    (hko : t.keyOnly = false) (hx : path.branches[depth]? = some x)
    (hc : t.cells (b.children j) = some (.leaf l))
    (hd : t.cells (b.children (j + 1)) = some (.leaf r)) (hshort : l.count < t.listCapacity / 2)
    (hlend : t.listCapacity / 2 < r.count) :
    ∃ h', Leaf.borrowRight path depth t (b.children j) (b.children (j + 1)) p j =
        .ok { t with cells := h' } ∧ Settled { t with cells := h' } n E := by
  obtain ⟨hlo, -, -, -⟩ := hl.leaf_ok hn.walk_left (by simp) hc
  obtain ⟨-, hhi, -, -⟩ := hl.leaf_ok hn.walk_right (by simp) hd
  have hp := hn.leafPair hl hko hc hd
  obtain ⟨h', l', r', hop, hs, hlcount, hrcount⟩ := Leaf.borrowRight_shared hp
    (Nat.zero_lt_of_lt hl.under.height_lt_next) hx (by omega)
  exact ⟨h', hop, hn.keep_leaves hl hko (Or.inl rfl) hp hs (by omega) (by omega)⟩

theorem Leaf.borrowLeft_spec (hn : Neighbours t n bs 0 p b j)
    (hl : Loose t n (b.children (j + 1)) E) (hko : t.keyOnly = false)
    (hx : path.branches[depth]? = some x) (hc : t.cells (b.children j) = some (.leaf l))
    (hd : t.cells (b.children (j + 1)) = some (.leaf r)) (hshort : r.count < t.listCapacity / 2)
    (hlend : t.listCapacity / 2 < l.count) :
    ∃ h', Leaf.borrowLeft path depth t (b.children (j + 1)) (b.children j) p (j + 1) =
        .ok { t with cells := h' } ∧ Settled { t with cells := h' } n E := by
  obtain ⟨-, hhi, -, -⟩ := hl.leaf_ok hn.walk_left (by simp) hc
  obtain ⟨hlo, -, -, -⟩ := hl.leaf_ok hn.walk_right (by simp) hd
  have hp := hn.leafPair hl hko hc hd
  obtain ⟨h', l', r', hop, hs, hlcount, hrcount⟩ := Leaf.borrowLeft_shared hp
    (Nat.zero_lt_of_lt hl.under.height_lt_next) hx (by omega)
  exact ⟨h', hop, hn.keep_leaves hl hko (Or.inr rfl) hp hs (by omega) (by omega)⟩

theorem Leaf.mergeRight_spec (hn : Neighbours t n (path.branches.take depth) 0 p b j)
    (hl : Loose t n (b.children j) E) (hko : t.keyOnly = false)
    (hx : path.branches[depth]? = some ⟨p, j⟩) (hc : t.cells (b.children j) = some (.leaf l))
    (hd : t.cells (b.children (j + 1)) = some (.leaf r))
    (hle : l.count + r.count ≤ t.listCapacity) :
    ∃ h', Leaf.mergeRight path depth t (b.children j) (b.children (j + 1)) p j =
        .ok { t with cells := h' } ∧ Joined t n (path.branches.take depth) 0 p b j E h' := by
  have hp := hn.leafPair hl hko hc hd
  obtain ⟨h₁, l', hop, hm⟩ := Leaf.mergeRight_merged path depth hp
  obtain ⟨h', hup, hjoined⟩ := (hn.join_leaves hl hko (Or.inl rfl) hp hm hle).updateKey hx hn.lt
  exact ⟨h', hop.trans hup, hjoined⟩

theorem Leaf.mergeLeft_spec (hn : Neighbours t n bs 0 p b j) (hl : Loose t n (b.children (j + 1)) E)
    (hko : t.keyOnly = false) (hc : t.cells (b.children j) = some (.leaf l))
    (hd : t.cells (b.children (j + 1)) = some (.leaf r))
    (hle : l.count + r.count ≤ t.listCapacity) :
    ∃ h', Leaf.mergeLeft t (b.children (j + 1)) (b.children j) p (j + 1) =
        .ok { t with cells := h' } ∧ Joined t n bs 0 p b j E h' := by
  have hp := hn.leafPair hl hko hc hd
  obtain ⟨h', l', hop, hm⟩ := Leaf.mergeLeft_merged hp
  exact ⟨h', hop, hn.join_leaves hl hko (Or.inr rfl) hp hm hle⟩

/-! ### Branches -/

variable {bc bd : Branch K}

theorem Loose.branch_ok (hl : Loose t n q E) (hw : Walk t.cells n t.root bs (m + 1) c)
    (hbs : bs ≠ []) (hc : t.cells c = some (.branch bc))
    (hq : ∀ x ∈ bc.kids, q ∉ nodes t.cells m x) :
    t.listCapacity / 2 - 1 ≤ bc.count + 1 ∧ bc.count + 1 ≤ t.listCapacity ∧
      (c ≠ q → t.listCapacity / 2 ≤ bc.count + 1) ∧ (∀ x ∈ bc.kids, WF t.cells t.inner m x) ∧
      Separated bc.seps (bc.kids.map (keysOf t.cells m)) := by
  obtain ⟨b₀, hb₀, hmin, hhi, hkids, hsep⟩ := hw.wf_end hl.under.wf
  obtain rfl := Node.branch.inj (Option.some.inj (hc.symm.trans hb₀))
  have hroot : c ≠ t.root := fun h =>
    hw.top_not_mem hl.under.nodup hbs (h ▸ mem_nodes_self ..)
  simp only [Bounds.slack, BTree.bounds, if_neg hroot] at hmin
  refine ⟨?_, hhi, fun hcq => ?_, fun x hx => ?_, hsep⟩
  · split at hmin <;> omega
  · rwa [if_neg hcq] at hmin
  · refine (hkids x hx).congr rfl rfl (fun _ _ => rfl) fun z hz => ?_
    have hzq : z ≠ q := fun h => hq x hx (h ▸ hz)
    have hzroot : z ≠ t.root := by
      rintro rfl
      obtain ⟨i, hi, rfl⟩ := Branch.mem_kids.mp hx
      exact (hw.snoc hc hi).top_not_mem hl.under.nodup (by simp) hz
    simp [Bounds.slack, BTree.bounds, BTree.inner, hzq, hzroot]

/-- Two neighbouring branches, their children, and what is known of them
when one of the two is short. -/
structure BranchPair (t : BTree K V) (n : ℕ) (bs : List PathNode) (m : ℕ) (p : NodeId)
    (b : Branch K) (j : ℕ) (bc bd : Branch K) : Prop extends Neighbours t n bs (m + 1) p b j where
  left : t.cells (b.children j) = some (.branch bc)
  right : t.cells (b.children (j + 1)) = some (.branch bd)

theorem BranchPair.nodup (hb : BranchPair t n bs m p b j bc bd)
    (hnd : (nodes t.cells n t.root).Nodup) :
    (b.children j :: b.children (j + 1) :: (bc.kids ++ bd.kids).flatMap (nodes t.cells m)).Nodup ∧
      p ≠ b.children j ∧ p ≠ b.children (j + 1) ∧
      ∀ x ∈ bc.kids ++ bd.kids, ∀ z ∈ nodes t.cells m x,
        z ≠ p ∧ z ≠ b.children j ∧ z ≠ b.children (j + 1) := by
  obtain ⟨hcd, hpc, hpd⟩ := hb.apart hnd
  rw [nodes_branch m hb.left] at hcd hpc
  rw [nodes_branch m hb.right] at hcd hpd
  have hperm : (b.children j :: bc.kids.flatMap (nodes t.cells m) ++
      b.children (j + 1) :: bd.kids.flatMap (nodes t.cells m)).Perm
      (b.children j :: b.children (j + 1) :: (bc.kids ++ bd.kids).flatMap (nodes t.cells m)) := by
    rw [flatMap_append, cons_append]
    exact List.Perm.cons _ perm_middle
  have hnd' := hperm.nodup_iff.mp hcd
  refine ⟨hnd', fun h => hpc (h ▸ mem_cons_self ..), fun h => hpd (h ▸ mem_cons_self ..),
    fun x hx z hz => ?_⟩
  rw [nodup_cons, nodup_cons] at hnd'
  have hmem : z ∈ (bc.kids ++ bd.kids).flatMap (nodes t.cells m) :=
    mem_flatMap.mpr ⟨x, hx, hz⟩
  refine ⟨?_, ?_, ?_⟩
  · rintro rfl
    rcases mem_append.mp hx with hx | hx
    · exact hpc (mem_cons_of_mem _ (mem_flatMap.mpr ⟨x, hx, hz⟩))
    · exact hpd (mem_cons_of_mem _ (mem_flatMap.mpr ⟨x, hx, hz⟩))
  · rintro rfl
    exact hnd'.1 (mem_cons_of_mem _ hmem)
  · rintro rfl
    exact hnd'.2.1 hmem

theorem BranchPair.childKey (hb : BranchPair t n bs m p b j bc bd) {B : Bounds}
    (hu : t.Under n B) : ∃ k, t.childKey (bd.children 0) = .ok k ∧
      (∀ x ∈ (bc.kids.map (keysOf t.cells m)).flatten, x < k) ∧
      ∀ x ∈ (bd.kids.map (keysOf t.cells m)).flatten, k ≤ x := by
  obtain ⟨k, hk, hhead⟩ := hu.childKey hb.walk_right hb.right (Nat.zero_le _)
  refine ⟨k, hk, ?_⟩
  have hs := hb.sorted hu
  rw [keysOf_branch m hb.left, keysOf_branch m hb.right] at hs
  refine lt_and_le_of_head hs ?_
  obtain ⟨R, hR⟩ := head?_eq_some_iff.mp hhead
  rw [bd.kids_split (Nat.zero_le _)]
  simp [hR]

section BranchStep

variable {g : Cells K V} {c' d' : Branch K}

/-- Borrowing between branches ends with the renewal of the separator. -/
theorem BranchPair.renew (hb : BranchPair t n bs m p b j bc bd) (hl : Loose t n q E)
    (hq : q = b.children j ∨ q = b.children (j + 1)) (hx : path.branches[depth]? = some x)
    (hc' : g (b.children j) = some (.branch c')) (hd' : g (b.children (j + 1)) = some (.branch d'))
    (hother : ∀ z, z ≠ b.children j → z ≠ b.children (j + 1) → g z = t.cells z)
    (hkids : c'.kids ++ d'.kids = bc.kids ++ bd.kids)
    (hinner : ∀ x ∈ bc.kids ++ bd.kids, WF t.cells t.inner m x)
    (hcsep : Separated c'.seps (c'.kids.map (keysOf t.cells m)))
    (hdsep : Separated d'.seps (d'.kids.map (keysOf t.cells m)))
    (hccount : t.listCapacity / 2 ≤ c'.count + 1 ∧ c'.count + 1 ≤ t.listCapacity)
    (hdcount : t.listCapacity / 2 ≤ d'.count + 1 ∧ d'.count + 1 ≤ t.listCapacity) :
    ∃ h', Node.updateKey path depth { t with cells := g } p (j + 1) =
        .ok { t with cells := h' } ∧ Settled { t with cells := h' } n E := by
  obtain ⟨hnd, hpc, hpd, hapart⟩ := hb.nodup hl.under.nodup
  have hcapart : ∀ x ∈ c'.kids, x ∈ bc.kids ++ bd.kids := fun x hx =>
    hkids ▸ mem_append_left _ hx
  have hdapart : ∀ x ∈ d'.kids, x ∈ bc.kids ++ bd.kids := fun x hx =>
    hkids ▸ mem_append_right _ hx
  have hframe : ∀ x ∈ bc.kids ++ bd.kids, ∀ z ∈ nodes t.cells m x, g z = t.cells z :=
    fun x hx z hz => hother z (hapart x hx z hz).2.1 (hapart x hx z hz).2.2
  have hd₁ : WF g t.inner (m + 1) (b.children (j + 1)) :=
    .branch hd' (fun x hx => hframe x (hdapart x hx)) hdcount.1 hdcount.2
      (fun x hx => hinner x (hdapart x hx)) hdsep
  have hm : m + 1 < t.next := by
    have := hb.walk.height
    have := hl.under.height_lt_next
    omega
  obtain ⟨k, hk, hhead⟩ := Node.getChildKey_eq { t with cells := g } hm hd₁
    fun z _ => BTree.inner_min_pos hl.capacity z
  -- the heap after the separator has been written
  generalize hh' : update g p (some (.branch (b.setSep (j + 1) k))) = h'
  have hp' : h' p = some (.branch (b.setSep (j + 1) k)) := hh' ▸ update_self ..
  have hsame : ∀ z, z ≠ p → h' z = g z := fun z hz => hh' ▸ update_of_ne hz ..
  have hframe' : ∀ x ∈ bc.kids ++ bd.kids, ∀ z ∈ nodes t.cells m x, h' z = t.cells z :=
    fun x hx z hz => (hsame z (hapart x hx z hz).1).trans (hframe x hx z hz)
  have hc₂ : h' (b.children j) = some (.branch c') := (hsame _ (Ne.symm hpc)).trans hc'
  have hd₂ : h' (b.children (j + 1)) = some (.branch d') := (hsame _ (Ne.symm hpd)).trans hd'
  obtain ⟨hcspots, hcnodes, hckeys⟩ := branch_over hc₂ fun x hx => hframe' x (hcapart x hx)
  obtain ⟨hdspots, hdnodes, hdkeys⟩ := branch_over hd₂ fun x hx => hframe' x (hdapart x hx)
  have hkeys : keysOf h' (m + 1) (b.children j) ++ keysOf h' (m + 1) (b.children (j + 1)) =
      keysOf t.cells (m + 1) (b.children j) ++ keysOf t.cells (m + 1) (b.children (j + 1)) := by
    rw [keysOf_branch m hc₂, keysOf_branch m hd₂, hckeys, hdkeys, ← flatten_append,
      ← map_append, hkids, map_append, flatten_append, keysOf_branch m hb.left,
      keysOf_branch m hb.right]
  have hhead' : (keysOf h' (m + 1) (b.children (j + 1))).head? = some k := by
    rw [← hhead, keysOf_branch m hd₂, keysOf_branch m hd', hdkeys,
      (branch_over hd' fun x hx => hframe x (hdapart x hx)).2.2]
  obtain ⟨hbelow, habove⟩ := lt_and_le_of_head (hkeys ▸ hb.sorted hl.under) hhead'
  refine ⟨h', ?_, hb.keep hl hq hp' ?_ ?_ ?_ ?_ ?_ hbelow habove⟩
  · rw [Node.updateKey_direct hx ((hother p hpc hpd).trans hb.cell) hk, ← hh']
    rfl
  · intro z hzp hzc hzd
    rw [hsame z hzp, hother z (fun h => hzc (h ▸ mem_nodes_self ..))
      fun h => hzd (h ▸ mem_nodes_self ..)]
  · exact .branch hc₂ (fun x hx => hframe' x (hcapart x hx)) hccount.1 hccount.2
      (fun x hx => hinner x (hcapart x hx)) hcsep
  · exact .branch hd₂ (fun x hx => hframe' x (hdapart x hx)) hdcount.1 hdcount.2
      (fun x hx => hinner x (hdapart x hx)) hdsep
  · rw [entries, entries, entries, entries, hcspots, hdspots, ← map_append,
      ← flatMap_append, hkids, flatMap_append, map_append, spots_branch m hb.left,
      spots_branch m hb.right]
  · rw [hcnodes, hdnodes, nodes_branch m hb.left, nodes_branch m hb.right]
    refine perm_iff_count.mpr fun z => ?_
    have := congrArg (fun L => (L.flatMap (nodes t.cells m)).count z) hkids
    simp only [flatMap_append, count_append, count_cons] at this ⊢
    omega

/-- Two branches become one. -/
theorem BranchPair.drop (hb : BranchPair t n bs m p b j bc bd) (hl : Loose t n q E)
    (hq : q = b.children j ∨ q = b.children (j + 1)) (hc' : g (b.children j) = some (.branch c'))
    (hother : ∀ z, z ≠ b.children j → z ≠ b.children (j + 1) → g z = t.cells z)
    (hkids : c'.kids = bc.kids ++ bd.kids)
    (hinner : ∀ x ∈ bc.kids ++ bd.kids, WF t.cells t.inner m x)
    (hcsep : Separated c'.seps (c'.kids.map (keysOf t.cells m)))
    (hccount : t.listCapacity / 2 ≤ c'.count + 1 ∧ c'.count + 1 ≤ t.listCapacity) :
    ∃ h', { t with cells := g }.branchDelete p j = .ok { t with cells := h' } ∧
      Joined t n bs (m + 1) p b j E h' := by
  obtain ⟨hnd, hpc, hpd, hapart⟩ := hb.nodup hl.under.nodup
  have hlt := hb.lt
  generalize hh' : update g p (some (.branch (b.branchDelete j))) = h'
  have hp' : h' p = some (.branch (b.branchDelete j)) := hh' ▸ update_self ..
  have hsame : ∀ z, z ≠ p → h' z = g z := fun z hz => hh' ▸ update_of_ne hz ..
  have hframe : ∀ x ∈ c'.kids, ∀ z ∈ nodes t.cells m x, h' z = t.cells z := by
    intro x hx z hz
    obtain ⟨hzp, hzc, hzd⟩ := hapart x (hkids ▸ hx) z hz
    rw [hsame z hzp, hother z hzc hzd]
  have hc₂ : h' (b.children j) = some (.branch c') := (hsame _ (Ne.symm hpc)).trans hc'
  obtain ⟨hcspots, hcnodes, -⟩ := branch_over hc₂ hframe
  have hout : ∀ z, z ≠ p → z ∉ nodes t.cells (m + 1) (b.children j) →
      z ∉ nodes t.cells (m + 1) (b.children (j + 1)) → h' z = t.cells z := by
    intro z hzp hzc hzd
    rw [hsame z hzp, hother z (fun h => hzc (h ▸ mem_nodes_self ..))
      fun h => hzd (h ▸ mem_nodes_self ..)]
  obtain ⟨hloose, hw, hsub⟩ := hb.join hl hq hp' hout
    (.branch hc₂ hframe hccount.1 hccount.2 (fun x hx => hinner x (hkids ▸ hx)) hcsep)
    (by rw [entries, entries, entries, hcspots, hkids, flatMap_append, map_append,
      spots_branch m hb.left, spots_branch m hb.right])
    (by
      rw [hcnodes, hkids, nodup_cons]
      rw [nodup_cons, nodup_cons] at hnd
      exact ⟨fun h => hnd.1 (mem_cons_of_mem _ h), hnd.2.2⟩)
    (by
      intro z hz
      rw [hcnodes, hkids, flatMap_append] at hz
      rw [nodes_branch m hb.left, nodes_branch m hb.right]
      simp only [mem_cons, mem_append] at hz ⊢
      rcases hz with hz | hz | hz
      · exact Or.inl (Or.inl hz)
      · exact Or.inl (Or.inr hz)
      · exact Or.inr (Or.inr hz))
  refine ⟨h', ?_, hloose, hw, fun z hzp hzc hzd => ?_, ⟨_, hp', ?_⟩, hsub⟩
  · simp only [BTree.branchDelete, BTree.branchAt, (hother p hpc hpd).trans hb.cell, bind,
      Except.bind, ← hh']
    rfl
  · rw [hout z hzp hzc hzd]
    exact .refl _
  · simp only [Branch.branchDelete]
    omega

end BranchStep

theorem BranchPair.limits (hb : BranchPair t n bs m p b j bc bd) (hl : Loose t n (b.children j) E) :
    t.listCapacity / 2 - 1 ≤ bc.count + 1 ∧ t.listCapacity / 2 ≤ bd.count + 1 ∧
      bd.count + 1 ≤ t.listCapacity ∧ (∀ x ∈ bc.kids ++ bd.kids, WF t.cells t.inner m x) ∧
      Separated bc.seps (bc.kids.map (keysOf t.cells m)) ∧
      Separated bd.seps (bd.kids.map (keysOf t.cells m)) := by
  obtain ⟨hnd, -, -, hapart⟩ := hb.nodup hl.under.nodup
  have hq : ∀ x ∈ bc.kids ++ bd.kids, b.children j ∉ nodes t.cells m x :=
    fun x hx hmem => (hapart x hx _ hmem).2.1 rfl
  obtain ⟨hlo, -, -, hcwf, hcsep⟩ := hl.branch_ok hb.walk_left (by simp) hb.left
    fun x hx => hq x (mem_append_left _ hx)
  obtain ⟨-, hdhi, hdlo, hdwf, hdsep⟩ := hl.branch_ok hb.walk_right (by simp) hb.right
    fun x hx => hq x (mem_append_right _ hx)
  rw [nodup_cons] at hnd
  refine ⟨hlo, hdlo fun h => hnd.1 (h ▸ mem_cons_self ..), hdhi, fun x hx => ?_, hcsep, hdsep⟩
  rcases mem_append.mp hx with hx | hx
  · exact hcwf x hx
  · exact hdwf x hx

/-- A branch takes the first child of its right sibling. -/
theorem Branch.borrowRight_spec (hb : BranchPair t n bs m p b j bc bd)
    (hl : Loose t n (b.children j) E) (hx : path.branches[depth]? = some x)
    (hshort : bc.count + 1 < t.listCapacity / 2) (hlend : t.listCapacity / 2 < bd.count + 1) :
    ∃ h', Branch.borrowRight path depth t (b.children j) (b.children (j + 1)) p j =
        .ok { t with cells := h' } ∧ Settled { t with cells := h' } n E := by
  obtain ⟨hlo, -, hhi, hinner, hcsep, hdsep⟩ := hb.limits hl
  obtain ⟨k, hk, hbelow, habove⟩ := hb.childKey hl.under
  have hcap := hl.capacity
  have hop : Branch.borrowRight path depth t (b.children j) (b.children (j + 1)) p j =
      Node.updateKey path depth ((t.set (b.children j) (.branch ⟨bc.count + 1,
        update bc.keys bc.count k,
        move bc.children (bc.count + 1) bd.children 0 1⟩)).set (b.children (j + 1))
        (.branch ⟨bd.count - 1, move bd.keys 0 bd.keys 1 (bd.count - 1),
          move bd.children 0 bd.children 1 bd.count⟩)) p (j + 1) := by
    simp only [Branch.borrowRight, BTree.branchAt, hb.left, hb.right, bind, Except.bind, hk]
  rw [hop]
  obtain ⟨hnd, -, -, -⟩ := hb.nodup hl.under.nodup
  rw [nodup_cons] at hnd
  have hcd : b.children j ≠ b.children (j + 1) := fun h => hnd.1 (h ▸ mem_cons_self ..)
  have hkids : bd.kids = bd.children 0 :: window bd.children 1 bd.count := window_succ ..
  have hseps : bd.seps = bd.keys 0 :: window bd.keys 1 (bd.count - 1) := by
    rw [Branch.seps, show bd.count = bd.count - 1 + 1 by omega, window_succ]
    rfl
  generalize hc' : Branch.mk (bc.count + 1) (update bc.keys bc.count k)
    (move bc.children (bc.count + 1) bd.children 0 1) = c'
  generalize hd' : Branch.mk (bd.count - 1) (move bd.keys 0 bd.keys 1 (bd.count - 1))
    (move bd.children 0 bd.children 1 bd.count) = d'
  have hckids : c'.kids = bc.kids ++ [bd.children 0] := by
    subst hc'
    exact window_append ..
  have hcseps : c'.seps = bc.seps ++ [k] := by
    subst hc'
    simp only [Branch.seps]
    rw [window_succ_last, window_update_outside _ _ _ (by omega), Nat.zero_add,
      update_self]
  have hdkids : d'.kids = window bd.children 1 bd.count := by
    subst hd'
    simp only [Branch.kids]
    rw [window_move_inside _ _ _ _ _ (le_refl _) (by omega)]
    congr 1
    omega
  have hdseps : d'.seps = window bd.keys 1 (bd.count - 1) := by
    subst hd'
    exact window_move_inside _ _ _ _ _ (le_refl _) (le_refl _)
  have hccount : c'.count = bc.count + 1 := hc' ▸ rfl
  have hdcount : d'.count = bd.count - 1 := hd' ▸ rfl
  rw [hkids, hseps, map_cons] at hdsep
  refine BranchPair.renew (t := t) (g := ((t.set (b.children j) (.branch c')).set
    (b.children (j + 1)) (.branch d')).cells) hb hl (Or.inl rfl) hx
    ((update_of_ne hcd ..).trans (update_self ..)) (update_self ..)
    (fun z hzc hzd => (update_of_ne hzd ..).trans (update_of_ne hzc ..))
    ?_ hinner ?_ ?_ ⟨?_, ?_⟩ ⟨?_, ?_⟩
  · rw [hckids, hdkids, hkids, append_assoc, singleton_append]
  · rw [hckids, hcseps, map_append]
    refine separated_append hcsep trivial hbelow fun y hy => habove y ?_
    rw [hkids]
    simp only [map_cons, flatten_cons, map_nil, flatten_nil,
      append_nil] at hy ⊢
    exact mem_append_left _ hy
  · rw [hdkids, hdseps]
    have hone : 1 ≤ bd.count := by omega
    obtain ⟨y, Y, hY⟩ : ∃ y Y, window bd.children 1 bd.count = y :: Y := by
      rw [show bd.count = bd.count - 1 + 1 by omega, window_succ]
      exact ⟨_, _, rfl⟩
    rw [hY, map_cons] at hdsep ⊢
    exact hdsep.2.2
  all_goals omega

/-- A branch takes in its right sibling. -/
theorem Branch.mergeRight_spec (hb : BranchPair t n (path.branches.take depth) m p b j bc bd)
    (hl : Loose t n (b.children j) E) (hx : path.branches[depth]? = some ⟨p, j⟩)
    (hle : bd.count + 1 + bc.count + 1 ≤ t.listCapacity) :
    ∃ h', Branch.mergeRight path depth t (b.children j) (b.children (j + 1)) p j =
        .ok { t with cells := h' } ∧
      Joined t n (path.branches.take depth) (m + 1) p b j E h' := by
  obtain ⟨-, hro, -, hinner, hcsep, hdsep⟩ := hb.limits hl
  obtain ⟨k, hk, hbelow, habove⟩ := hb.childKey hl.under
  obtain ⟨hnd, -, -, -⟩ := hb.nodup hl.under.nodup
  rw [nodup_cons] at hnd
  have hcd : b.children j ≠ b.children (j + 1) := fun h => hnd.1 (h ▸ mem_cons_self ..)
  generalize hc' : Branch.mk (bc.count + (bd.count + 1))
    (update (move bc.keys (bc.count + 1) bd.keys 0 bd.count) bc.count k)
    (move bc.children (bc.count + 1) bd.children 0 (bd.count + 1)) = c'
  have hckids : c'.kids = bc.kids ++ bd.kids := by
    subst hc'
    rw [Branch.kids, Branch.kids, Branch.kids, ← window_append,
      show bc.count + 1 + (bd.count + 1) = bc.count + (bd.count + 1) + 1 by omega]
  have hcseps : c'.seps = bc.seps ++ k :: bd.seps := by
    subst hc'
    simp only [Branch.seps]
    rw [window_split _ (show bc.count < bc.count + (bd.count + 1) by omega),
      window_update_outside _ _ _ (by omega), window_update_outside _ _ _ (by omega),
      window_move_outside _ _ _ _ _ (by omega), update_self,
      show bc.count + (bd.count + 1) - bc.count - 1 = bd.count by omega,
      window_move_inside _ _ _ _ _ (le_refl _) (le_refl _), Nat.sub_self]
  have hcount : c'.count = bc.count + (bd.count + 1) := hc' ▸ rfl
  obtain ⟨h₁, hdel, hjoined⟩ := hb.drop hl (Or.inl rfl)
    (g := ((t.set (b.children j) (.branch c')).free (b.children (j + 1))).cells)
    ((update_of_ne hcd ..).trans (update_self ..))
    (fun z hzc hzd => (update_of_ne hzd ..).trans (update_of_ne hzc ..))
    hckids hinner (by rw [hckids, hcseps, map_append]
                      exact separated_append hcsep hdsep hbelow habove) ⟨by omega, by omega⟩
  obtain ⟨h', hup, hjoined'⟩ := hjoined.updateKey hx hb.lt
  refine ⟨h', ?_, hjoined'⟩
  simp only [Branch.mergeRight, BTree.branchAt, hb.left, hb.right, bind, Except.bind, hk, hc']
  rw [show ((t.set (b.children j) _).free (b.children (j + 1))).branchDelete p j = _ from hdel]
  exact hup

end Step

end Fastore.Tree
