import Fastore.Tree.Siblings

/-!
The levels a deletion passes on its way back to the root.

A merge takes a child from the parent, which may then be short itself.
Which of the cases is taken at which level only depends on the counts of
the nodes on the path and of their siblings (`Node.rebalanceBranch_succ`,
`Node.rebalanceLeaf_succ`), and these are the same as before the
deletion (`Traces`). So whether the rebalancing ever comes to one of the
two cases of `RebalanceBranch` that use the left sibling is decided by
the tree before the deletion (`leftCase`).
-/

namespace Fastore.Tree

open Lib Node

variable {K V : Type}

def countOf (h : Cells K V) (z : NodeId) : ℕ :=
  match h z with
  | some node => node.count
  | none => 0

def childOf (h : Cells K V) (z : NodeId) (i : ℕ) : NodeId :=
  match h z with
  | some (.branch b) => b.children i
  | _ => 0

variable {b : Branch K} {h : Cells K V} {l : Leaf K V} {p q z : NodeId} {i : ℕ}

theorem SameFrame.countOf {h' : Cells K V} (hs : SameFrame (h z) (h' z)) :
    countOf h' z = countOf h z := by
  rcases hs with heq | ⟨b, b', hb, hb', hc, -⟩
  · simp only [Tree.countOf, heq]
  · simp only [Tree.countOf, hb, hb', count, hc]

/-- The branch `this` loses a child, with `up` the way from it to the root:
does the rebalancing borrow from or merge with the left sibling of a
branch? -/
def leftCase (h : Cells K V) (half : ℕ) : List PathNode → NodeId → Bool
  | [], _ => false
  | ⟨p, i⟩ :: up, this =>
    if half ≤ countOf h this then false
    else if i < countOf h p ∧ half < countOf h (childOf h p (i + 1)) + 1 then false
    else if 0 < i ∧ half < countOf h (childOf h p (i - 1)) + 1 then true
    else if i < countOf h p then leftCase h half up p
    else true

/-- `h` is the heap `h₀` after changes at and below `q`. -/
structure Traces (h₀ : Cells K V) (n : ℕ) (root : NodeId) (bs : List PathNode) (m : ℕ) (q : NodeId)
    (h : Cells K V) : Prop where
  walk : Walk h₀ n root bs m q
  frame : ∀ z ∈ nodes h₀ n root, z ∉ nodes h₀ m q → SameFrame (h₀ z) (h z)

/-- The parent of the node reached, and the siblings there. -/
structure TracesParent (h₀ h : Cells K V) (n : ℕ) (root : NodeId) (bs : List PathNode) (m : ℕ)
    (p : NodeId) (i : ℕ) (q : NodeId) (b : Branch K) : Prop where
  walk : Walk h₀ n root bs (m + 1) p
  cell : h p = some (.branch b)
  index_le : i ≤ b.count
  child : q = b.children i
  count : countOf h₀ p = b.count
  children : childOf h₀ p = b.children
  /-- What the node reached and its siblings occupy is below the parent. -/
  kid_subset : ∀ s ≤ b.count, nodes h₀ m (b.children s) ⊆ nodes h₀ (m + 1) p
  not_mem : p ∉ nodes h₀ m q
  siblings : ∀ s ≤ b.count, s ≠ i → ∀ z ∈ nodes h₀ m (b.children s),
    z ∉ nodes h₀ m q ∧ z ≠ p ∧ SameFrame (h₀ z) (h z)

theorem Traces.parent {h₀ : Cells K V} {n m : ℕ} {root : NodeId} {bs : List PathNode}
    (ht : Traces h₀ n root (bs ++ [⟨p, i⟩]) m q h) (hnd : (nodes h₀ n root).Nodup) :
    ∃ b, TracesParent h₀ h n root bs m p i q b := by
  obtain ⟨b₀, hw, hb₀, hi, rfl⟩ := ht.walk.unsnoc
  have hpnd := hw.nodup hnd
  obtain ⟨-, hp, hleft, hright⟩ := nodes_around hb₀ hi hpnd
  have hpf := ht.frame p (hw.subset (mem_nodes_self ..)) hp
  rw [hb₀] at hpf
  obtain ⟨b, hb, hc, hk⟩ := hpf.branch
  have hsub : ∀ s ≤ b.count, nodes h₀ m (b.children s) ⊆ nodes h₀ (m + 1) p := fun s hs =>
    kid_nodes_subset hb₀ (Branch.mem_kids.mpr ⟨s, hc ▸ hs, by rw [hk]⟩)
  refine ⟨b, hw, hb, hc ▸ hi, by rw [hk], ?_, ?_, hsub, hp, fun s hs hsi z hz => ?_⟩
  · simp only [countOf, hb₀, count, hc]
  · funext j
    simp only [childOf, hb₀, hk]
  · have hzq : z ∉ nodes h₀ m (b₀.children i) := by
      rw [hk] at hz
      rcases Nat.lt_or_gt_of_ne hsi with hlt | hgt
      · exact hleft _ (mem_window.mpr ⟨s, hlt, by simp⟩) z hz
      · exact hright _ (mem_window.mpr ⟨s - (i + 1), by omega, by congr 1; omega⟩) z hz
    refine ⟨hzq, ?_, ht.frame z (hw.subset (hsub s hs hz)) hzq⟩
    rintro rfl
    rw [nodes_branch m hb₀, List.nodup_cons] at hpnd
    exact hpnd.1 (List.mem_flatMap.mpr ⟨_, Branch.mem_kids.mpr ⟨s, hc ▸ hs, rfl⟩, hk ▸ hz⟩)

theorem TracesParent.subset {h₀ : Cells K V} {n m : ℕ} {root : NodeId} {bs : List PathNode}
    (hp : TracesParent h₀ h n root bs m p i q b) (hsub : nodes h m q ⊆ nodes h₀ m q) :
    ∀ s ≤ b.count, nodes h m (b.children s) ⊆ nodes h₀ (m + 1) p := by
  intro s hs
  by_cases hsi : s = i
  · subst hsi
    rw [← hp.child]
    exact List.Subset.trans hsub (hp.child ▸ hp.kid_subset s hs)
  · rw [nodes_of_kidsAt fun z hz => (hp.siblings s hs hsi z hz).2.2.kidsAt]
    exact hp.kid_subset s hs

variable [LinearOrder K]

variable {t : BTree K V}

theorem BTree.sibling_right (ok : ℕ → Bool)
    (h : i < b.count → t.cells (b.children (i + 1)) ≠ none) :
    t.sibling (b.rightSib i) ok =
      .ok (decide (i < b.count) && ok (countOf t.cells (b.children (i + 1)))) := by
  by_cases hi : i < b.count
  · obtain ⟨node, hnode⟩ := Option.ne_none_iff_exists'.mp (h hi)
    simp [Branch.rightSib, hi, BTree.sibling, BTree.countAt, hnode, countOf, bind, Except.bind]
  · simp [Branch.rightSib, hi, BTree.sibling]

theorem BTree.sibling_left (ok : ℕ → Bool) (h : 0 < i → t.cells (b.children (i - 1)) ≠ none) :
    t.sibling (b.leftSib i) ok =
      .ok (decide (0 < i) && ok (countOf t.cells (b.children (i - 1)))) := by
  by_cases hi : 0 < i
  · obtain ⟨node, hnode⟩ := Option.ne_none_iff_exists'.mp (h hi)
    simp [Branch.leftSib, hi, BTree.sibling, BTree.countAt, hnode, countOf, bind, Except.bind]
  · simp [Branch.leftSib, hi, BTree.sibling]

/-! ### The ways a level can go -/

section Ways

variable (t : BTree K V) (b : Branch K) (i k : ℕ)
  (fromRight fromLeft withRight withLeft : NodeId → Except Fault (BTree K V))
  (again : BTree K V → Except Fault (BTree K V × Option NodeId))

/-- `RebalanceLeaf` and `RebalanceBranch` for child `i` of the branch `b`, by what they do
with a sibling: borrow from it, or merge with it and go on. A node has `k` items more than
its counter says. -/
def rebalanceAt (count : ℕ) (fault : Fault) : Except Fault (BTree K V × Option NodeId) :=
  if t.listCapacity / 2 ≤ count then .ok (t, none)
  else if i < b.count ∧ t.listCapacity / 2 < countOf t.cells (b.children (i + 1)) + k then do
    let t ← fromRight (b.children (i + 1))
    .ok (t, none)
  else if 0 < i ∧ t.listCapacity / 2 < countOf t.cells (b.children (i - 1)) + k then do
    let t ← fromLeft (b.children (i - 1))
    .ok (t, none)
  else if i < b.count ∧ countOf t.cells (b.children (i + 1)) + k + count ≤ t.listCapacity then do
    let t ← withRight (b.children (i + 1))
    again t
  else if 0 < i ∧ countOf t.cells (b.children (i - 1)) + k + count ≤ t.listCapacity then do
    let t ← withLeft (b.children (i - 1))
    again t
  else .error fault

variable {N : Type} (node : N → Node K V) (size : N → ℕ)

/-- The ways this can go with `x` if its siblings are nodes of its kind. -/
inductive Way (x : N) : Except Fault (BTree K V × Option NodeId) → Prop
  | enough (h : t.listCapacity / 2 ≤ size x) : Way x (.ok (t, none))
  | borrowRight {r : N} (hshort : size x < t.listCapacity / 2) (hi : i < b.count)
      (hr : t.cells (b.children (i + 1)) = some (node r)) (hlend : t.listCapacity / 2 < size r) :
      Way x (do
        let t ← fromRight (b.children (i + 1))
        .ok (t, none))
  | borrowLeft {j : ℕ} {s : N} (hshort : size x < t.listCapacity / 2) (hj : i = j + 1)
      (hright : i < b.count → countOf t.cells (b.children (i + 1)) + k ≤ t.listCapacity / 2)
      (hs : t.cells (b.children j) = some (node s)) (hlend : t.listCapacity / 2 < size s) :
      Way x (do
        let t ← fromLeft (b.children j)
        .ok (t, none))
  | mergeRight {r : N} (hshort : size x < t.listCapacity / 2) (hi : i < b.count)
      (hr : t.cells (b.children (i + 1)) = some (node r)) (hright : size r ≤ t.listCapacity / 2)
      (hleft : 0 < i → countOf t.cells (b.children (i - 1)) + k ≤ t.listCapacity / 2) :
      Way x (do
        let t ← withRight (b.children (i + 1))
        again t)
  | mergeLeft {j : ℕ} {s : N} (hshort : size x < t.listCapacity / 2) (hj : i = j + 1)
      (hlast : i = b.count) (hs : t.cells (b.children j) = some (node s))
      (hleft : size s ≤ t.listCapacity / 2) :
      Way x (do
        let t ← withLeft (b.children j)
        again t)

/-- Which way a short node takes. -/
theorem rebalanceAt_way (hi : i ≤ b.count) (hone : 1 ≤ b.count)
    (hkind : ∀ s ≤ b.count, ∃ r, t.cells (b.children s) = some (node r) ∧
      countOf t.cells (b.children s) + k = size r) (x : N) (fault : Fault) :
    Way t b i k fromRight fromLeft withRight withLeft again node size x
      (rebalanceAt t b i k fromRight fromLeft withRight withLeft again (size x) fault) := by
  rw [rebalanceAt]
  split
  case isTrue h => exact .enough h
  case isFalse hhalf =>
    split
    case isTrue h =>
      obtain ⟨r, hr, hrc⟩ := hkind (i + 1) h.1
      exact .borrowRight (by omega) h.1 hr (hrc ▸ h.2)
    case isFalse hright =>
      split
      case isTrue h =>
        obtain ⟨j, rfl⟩ : ∃ j, i = j + 1 := ⟨i - 1, by omega⟩
        rw [Nat.add_sub_cancel] at h ⊢
        obtain ⟨s, hs, hsc⟩ := hkind j (by omega)
        exact .borrowLeft (by omega) rfl (fun hi => by omega) hs (hsc ▸ h.2)
      case isFalse hleft =>
        by_cases hlast : i < b.count
        · obtain ⟨r, hr, hrc⟩ := hkind (i + 1) hlast
          rw [if_pos (by omega)]
          exact .mergeRight (by omega) hlast hr (by omega) fun h => by omega
        · obtain ⟨j, rfl⟩ : ∃ j, i = j + 1 := ⟨i - 1, by omega⟩
          rw [Nat.add_sub_cancel] at hleft ⊢
          obtain ⟨s, hs, hsc⟩ := hkind j (by omega)
          rw [if_neg (by omega), if_pos (by omega)]
          exact .mergeLeft (by omega) rfl (by omega) hs (by omega)

end Ways

omit [LinearOrder K] in
theorem countOf_leaf (hz : h z = some (.leaf l)) : countOf h z = l.count := by
  simp only [countOf, hz, count]

omit [LinearOrder K] in
theorem countOf_branch (hz : h z = some (.branch b)) : countOf h z = b.count := by
  simp only [countOf, hz, count]

section Nodes

variable {path : Path} {depth : ℕ} {bq : Branch K}

theorem Node.rebalanceBranch_succ (hx : path.branches[depth]? = some ⟨p, i⟩)
    (hq : t.cells q = some (.branch bq)) (hp : t.cells p = some (.branch b))
    (hr : i < b.count → t.cells (b.children (i + 1)) ≠ none)
    (hl : 0 < i → t.cells (b.children (i - 1)) ≠ none) :
    rebalanceBranch path (depth + 1) t q = rebalanceAt t b i 1
      (Branch.borrowRight path depth t q · p i) (Branch.borrowLeft path depth t q · p i)
      (Branch.mergeRight path depth t q · p i) (Branch.mergeLeft t q · p i)
      (rebalanceBranch path depth · p) (bq.count + 1)
      (.thrown "Branch rebalancing failed") := by
  rw [rebalanceBranch, rebalanceAt]
  simp only [BTree.branchAt, hq, hp, Path.at, hx, bind, Except.bind, BTree.sibling_right _ hr,
    BTree.sibling_left _ hl, Bool.and_eq_true, decide_eq_true_eq, ← Nat.add_assoc]
  by_cases hi : i < b.count <;> by_cases h0 : 0 < i <;>
    simp only [Branch.rightSib, Branch.leftSib, hi, h0, if_true, if_false, Option.getD_some,
      true_and, false_and]

theorem Node.rebalanceLeaf_succ (hx : path.branches[depth]? = some ⟨p, i⟩)
    (hq : t.cells q = some (.leaf l)) (hp : t.cells p = some (.branch b))
    (hr : i < b.count → t.cells (b.children (i + 1)) ≠ none)
    (hl : 0 < i → t.cells (b.children (i - 1)) ≠ none) :
    rebalanceLeaf path (depth + 1) t q = rebalanceAt t b i 0
      (Leaf.borrowRight path depth t q · p i) (Leaf.borrowLeft path depth t q · p i)
      (Leaf.mergeRight path depth t q · p i) (Leaf.mergeLeft t q · p i)
      (rebalanceBranch path depth · p) l.count (.thrown "Leaf rebalancing failed") := by
  rw [rebalanceLeaf, rebalanceAt]
  simp only [BTree.leafAt, BTree.branchAt, hq, hp, Path.at, hx, bind, Except.bind,
    BTree.sibling_right _ hr, BTree.sibling_left _ hl, Bool.and_eq_true, decide_eq_true_eq,
    Nat.add_zero]
  by_cases hi : i < b.count <;> by_cases h0 : 0 < i <;>
    simp only [Branch.rightSib, Branch.leftSib, hi, h0, if_true, if_false, Option.getD_some,
      true_and, false_and]

/-- The ways `RebalanceLeaf` can go with the leaf `l`. -/
abbrev LeafWay (path : Path) (depth : ℕ) (t : BTree K V) (p : NodeId) (b : Branch K) (i : ℕ) :=
  Way t b i 0 (Leaf.borrowRight path depth t (b.children i) · p i)
    (Leaf.borrowLeft path depth t (b.children i) · p i)
    (Leaf.mergeRight path depth t (b.children i) · p i) (Leaf.mergeLeft t (b.children i) · p i)
    (rebalanceBranch path depth · p) leaf Leaf.count

/-- The ways `RebalanceBranch` can go with the branch `bq`. -/
abbrev BranchWay (path : Path) (depth : ℕ) (t : BTree K V) (p : NodeId) (b : Branch K) (i : ℕ) :=
  Way t b i 1 (Branch.borrowRight path depth t (b.children i) · p i)
    (Branch.borrowLeft path depth t (b.children i) · p i)
    (Branch.mergeRight path depth t (b.children i) · p i) (Branch.mergeLeft t (b.children i) · p i)
    (rebalanceBranch path depth · p) branch (·.count + 1)

theorem Node.rebalanceLeaf_way (hx : path.branches[depth]? = some ⟨p, i⟩)
    (hp : t.cells p = some (.branch b)) (hi : i ≤ b.count) (hone : 1 ≤ b.count)
    (hleaf : ∀ s ≤ b.count, ∃ l' : Leaf K V, t.cells (b.children s) = some (.leaf l'))
    (hq : t.cells (b.children i) = some (.leaf l)) :
    LeafWay path depth t p b i l (rebalanceLeaf path (depth + 1) t (b.children i)) := by
  have hsib : ∀ s ≤ b.count, t.cells (b.children s) ≠ none := fun s hs => by
    obtain ⟨l', hl'⟩ := hleaf s hs
    simp [hl']
  rw [rebalanceLeaf_succ hx hq hp (fun h => hsib (i + 1) h) fun _ => hsib (i - 1) (by omega)]
  exact rebalanceAt_way _ _ _ _ _ _ _ _ _ _ _ hi hone
    (fun s hs => (hleaf s hs).imp fun _ hl' => ⟨hl', countOf_leaf hl'⟩) l _

theorem Node.rebalanceBranch_way (hx : path.branches[depth]? = some ⟨p, i⟩)
    (hp : t.cells p = some (.branch b)) (hi : i ≤ b.count) (hone : 1 ≤ b.count)
    (hbranch : ∀ s ≤ b.count, ∃ b' : Branch K, t.cells (b.children s) = some (.branch b'))
    (hq : t.cells (b.children i) = some (.branch bq)) :
    BranchWay path depth t p b i bq (rebalanceBranch path (depth + 1) t (b.children i)) := by
  have hsib : ∀ s ≤ b.count, t.cells (b.children s) ≠ none := fun s hs => by
    obtain ⟨b', hb'⟩ := hbranch s hs
    simp [hb']
  rw [rebalanceBranch_succ hx hq hp (fun h => hsib (i + 1) h) fun _ => hsib (i - 1) (by omega)]
  exact rebalanceAt_way _ _ _ _ _ _ _ _ _ _ _ hi hone
    (fun s hs => (hbranch s hs).imp fun _ hb' => ⟨hb', by rw [countOf_branch hb']⟩) bq _

end Nodes

end Fastore.Tree
