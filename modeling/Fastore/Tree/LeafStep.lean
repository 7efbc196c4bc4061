import Fastore.Tree.Cascade

/-!
One rebalancing step over the leaves of a branch.

`Node.rebalanceLeaf_spec` is about a whole tree. Here only the branch over
the short leaf is looked at: its leaves have the right sizes and its
separators divide them, and of the rest of the tree nothing is known but
that the path leads down to the branch and that nodes are apart. The step
borrows from a neighbour or merges with one, always leaves the branch in
order again, and above the branch changes at most one separator
(`Path.keyHolder`).
-/

namespace Fastore.Tree

open Lib List Function Node

variable {K V : Type}

variable {h : Cells K V} {l l' r : Leaf K V} {j m n : ℕ}

theorem Walk.height_lt_length {p q : NodeId} {bs : List PathNode} (w : Walk h n p bs m q) :
    bs.length < (nodes h n p).length := by
  induction w with
  | nil => exact length_pos_of_mem (mem_nodes_self ..)
  | @cons n m i p q b bs hp hi _ ih =>
    rw [nodes_branch n hp, b.kids_split hi]
    simp only [flatMap_append, flatMap_cons, length_cons, length_append]
    omega

variable [LinearOrder K]

/-! ### The separators of one branch -/

/-- Each separator is strictly above every key on its left and at most
every key on its right. -/
def Branch.Divides (h : Cells K V) (m : ℕ) (b : Branch K) : Prop :=
  ∀ j < b.count, (∀ s ≤ j, ∀ k ∈ keysOf h m (b.children s), k < b.keys j) ∧
    ∀ s, j < s → s ≤ b.count → ∀ k ∈ keysOf h m (b.children s), b.keys j ≤ k

theorem Branch.Divides.separated {b : Branch K} (hb : b.Divides h m) :
    Separated b.seps (b.kids.map (keysOf h m)) := by
  rw [Branch.kids, map_window]
  refine separated_window fun i hi => ?_
  rw [Nat.zero_add]
  exact ⟨(hb i hi).1 i (le_refl _), (hb i hi).2 (i + 1) (by omega) hi⟩

theorem Branch.divides_of_separated {b : Branch K} (hb : Separated b.seps (b.kids.map (keysOf h m)))
    (hne : ∀ c ∈ b.kids, keysOf h m c ≠ []) : b.Divides h m := by
  have hne' : ∀ g ∈ b.kids.map (keysOf h m), g ≠ [] := by
    intro g hg
    obtain ⟨c, hc, rfl⟩ := mem_map.mp hg
    exact hne c hc
  intro j hj
  have hsorted := separated_sorted hb hne'
  rw [b.seps_split hj] at hb hsorted
  rw [b.kids_split_pair hj, map_append, map_cons, map_cons] at hb hne'
  obtain ⟨hleft, hlt, -, -⟩ := (separated_cut (by simp)).mp hb
  obtain ⟨-, hright⟩ := (separated_join (by simp)).mp hb
  constructor
  · intro s hs k hk
    by_cases hsj : s = j
    · exact hlt k (hsj ▸ hk)
    · have hbelow : ∀ u ∈ window b.keys 0 j, u ≤ b.keys j := fun u hu =>
        le_of_lt ((pairwise_append.mp hsorted).2.2 u hu _ (mem_cons_self ..))
      refine separated_init_lt hleft (fun g hg => hne' g (mem_append_left _ hg)) hbelow
        (keysOf h m (b.children s)) ?_ k hk
      exact mem_map.mpr ⟨_, mem_window.mpr ⟨s, by omega, by simp⟩, rfl⟩
  · intro s hjs hs k hk
    refine (separated_le hright fun g hg => hne' g ?_).2 (keysOf h m (b.children s)) ?_ k hk
    · exact mem_append_right _ (mem_cons_of_mem _ hg)
    · rw [← map_cons, ← window_succ]
      exact mem_map.mpr ⟨_, mem_window.mpr ⟨s - (j + 1), by omega, by congr 1; omega⟩, rfl⟩

/-! ### Keys above the branch -/

theorem Walk.getChildKey {t : BTree K V} {fuel : ℕ} {p c : NodeId} {bs : List PathNode}
    (w : Walk t.cells n p bs m c) (hz : ∀ x ∈ bs, x.index = 0) (hc : t.cells c = some (.leaf l))
    (hf : bs.length < fuel) : Node.getChildKey t fuel p = .ok (l.keys 0) := by
  induction w generalizing fuel with
  | nil =>
    obtain ⟨k, rfl⟩ : ∃ k, fuel = k + 1 := ⟨fuel - 1, by simp at hf; omega⟩
    rw [Node.getChildKey, hc]
  | @cons n m i p q b bs hp hi _ ih =>
    obtain ⟨k, rfl⟩ : ∃ k, fuel = k + 1 := ⟨fuel - 1, by simp at hf; omega⟩
    obtain rfl : i = 0 := hz ⟨p, i⟩ (mem_cons_self ..)
    rw [Node.getChildKey, hp]
    exact ih (fun x hx => hz x (mem_cons_of_mem _ hx)) hc (by simpa using hf)

theorem Node.updateKey_first {t : BTree K V} {path : Path} {depth : ℕ} {c q : NodeId}
    (w : Walk t.cells n t.root path.branches m c) (hc : t.cells c = some (.leaf l))
    (hfuel : path.branches.length ≤ t.next) (hdepth : depth + 1 = path.branches.length) :
    ∃ h', updateKey path depth t q 0 = .ok { t with cells := h' } ∧
      ∀ z, (∀ y ∈ path.branches, y.index ≠ 0 → z ≠ y.pNode) → h' z = t.cells z := by
  rw [updateKey_eq (x := ⟨q, 0⟩) (by omega)]
  cases hy : path.keyHolder depth ⟨q, 0⟩ with
  | none => exact ⟨t.cells, rfl, fun _ _ => rfl⟩
  | some y =>
    obtain ⟨hne, rfl | ⟨-, k, -, hle, hk, hlater⟩⟩ := Path.keyHolder_some hy
    · exact absurd rfl hne
    · obtain ⟨b, e, -, hb, -, hrest⟩ := w.at hk
      have hzero : ∀ x ∈ path.branches.drop (k + 1), x.index = 0 := by
        intro x hx
        obtain ⟨s, hs⟩ := mem_iff_getElem?.mp hx
        rw [getElem?_drop] at hs
        have hlt := (List.getElem?_eq_some_iff.mp hs).1
        exact hlater (k + 1 + s) (by omega) (by omega) x hs
      have hkey : t.childKey (b.children y.index) = .ok (l.keys 0) :=
        hrest.getChildKey hzero hc (by rw [length_drop]; omega)
      refine ⟨_, BTree.renewKey_eq hb hkey, fun z hz => ?_⟩
      exact update_of_ne (hz y (mem_of_getElem? hk) hne) ..

/-! ### The step -/

/-- The branch `b` at `q` is over leaves of the right sizes, except that the
one at position `p`, to which the path leads, is an entry short. -/
structure ShortLeaf (t : BTree K V) (n : ℕ) (path : Path) (up : List PathNode) (q : NodeId)
    (b : Branch K) (p : ℕ) : Prop where
  capacity : 4 ≤ t.listCapacity
  keyValue : t.keyOnly = false
  nodup : (nodes t.cells n t.root).Nodup
  fresh : ∀ z ∈ nodes t.cells n t.root, z < t.next
  walk : Walk t.cells n t.root up 1 q
  branches : path.branches = up ++ [⟨q, p⟩]
  leaf : path.leaf = b.children p
  cell : t.cells q = some (.branch b)
  index_le : p ≤ b.count
  /-- The root has two children at least, another branch more than half of
  what it can have. -/
  children : if q = t.root then 2 ≤ b.count + 1 else t.listCapacity / 2 < b.count + 1
  children_le : b.count + 1 ≤ t.listCapacity
  leaves : ∀ s ≤ b.count, ∃ l : Leaf K V, t.cells (b.children s) = some (.leaf l) ∧
    l.values.isSome = true ∧ (l.entries.Pairwise fun x y => x.1 < y.1) ∧
    if s = p then l.count = t.listCapacity / 2 - 1
    else t.listCapacity / 2 ≤ l.count ∧ l.count ≤ t.listCapacity
  divides : b.Divides t.cells 0

/-- The branch at `q`, which was `b`, is in order. -/
structure LeavesSettled (t : BTree K V) (q : NodeId) (b : Branch K) (h' : Cells K V)
    (b' : Branch K) : Prop where
  cell : h' q = some (.branch b')
  entries : b'.kids.flatMap (entries h' 0) = b.kids.flatMap (entries t.cells 0)
  sizes : ∀ c ∈ b'.kids, ∃ l : Leaf K V, h' c = some (.leaf l) ∧
    t.listCapacity / 2 ≤ l.count ∧ l.count ≤ t.listCapacity
  divides : b'.Divides h' 0

/-- The leaves at positions `s` and `s + 1` have become one. -/
structure LeavesMerged (t : BTree K V) (b : Branch K) (s : ℕ) (h' : Cells K V) : Prop where
  entries : entries h' 0 (b.children s) =
    entries t.cells 0 (b.children s) ++ entries t.cells 0 (b.children (s + 1))
  gone : h' (b.children (s + 1)) = none

inductive LeafOutcome (t : BTree K V) (q : NodeId) (b : Branch K) (p : ℕ) (h' : Cells K V) :
    Option NodeId → Prop
  | borrowed {b' : Branch K} (settled : LeavesSettled t q b h' b') (kids : b'.kids = b.kids) :
      LeafOutcome t q b p h' none
  | merged {b' : Branch K} {s : ℕ} (settled : LeavesSettled t q b h' b') (hs : s = p ∨ s + 1 = p)
      (lt : s < b.count) (kids : b'.kids = b.kids.eraseIdx (s + 1))
      (one : LeavesMerged t b s h') : LeafOutcome t q b p h' none
  | newRoot {l : Leaf K V} (root : q = t.root) (count : b.count = 1) (one : LeavesMerged t b 0 h')
      (leaf : h' (b.children 0) = some (.leaf l)) (lower : t.listCapacity / 2 ≤ l.count)
      (upper : l.count ≤ t.listCapacity) (gone : h' q = none) :
      LeafOutcome t q b p h' (some (b.children 0))

section Step

variable {t : BTree K V} {n p : ℕ} {path : Path} {up : List PathNode} {q : NodeId} {b : Branch K}

theorem ShortLeaf.kid_ne (hs : ShortLeaf t n path up q b p) : ∀ c ∈ b.kids, c ≠ q := by
  have hnd := hs.walk.nodup hs.nodup
  rw [nodes_branch 0 hs.cell, nodup_cons] at hnd
  rintro c hc rfl
  exact hnd.1 (mem_flatMap.mpr ⟨c, hc, mem_nodes_self ..⟩)

theorem ShortLeaf.one_le (hs : ShortLeaf t n path up q b p) : 1 ≤ b.count := by
  have hcap := hs.capacity
  have hchildren := hs.children
  split at hchildren <;> omega

theorem ShortLeaf.kid_mem (hs : ShortLeaf t n path up q b p) {s : ℕ} (hle : s ≤ b.count) :
    b.children s ∈ nodes t.cells 1 q :=
  kid_nodes_subset hs.cell (Branch.mem_kids.mpr ⟨s, hle, rfl⟩) (mem_nodes_self ..)

theorem ShortLeaf.loose (hs : ShortLeaf t n path up q b p) :
    Loose { t with root := q } 1 (b.children p) (b.kids.flatMap (entries t.cells 0)) := by
  have hcap := hs.capacity
  have hone := hs.one_le
  refine ⟨⟨⟨b, hs.cell, ?_, hs.children_le, fun c hc => ?_, hs.divides.separated⟩,
    hs.walk.nodup hs.nodup, fun z hz => hs.fresh z (hs.walk.subset hz),
    fun z _ hz => BTree.slack_min_pos (t := { t with root := q }) hs.capacity 1 _ hz⟩,
    hs.capacity, entries_branch 0 hs.cell⟩
  · simp only [Bounds.slack, BTree.bounds, if_true, one_ne_zero, if_false]
    split <;> omega
  · have hne := hs.kid_ne c hc
    obtain ⟨s, hsle, rfl⟩ := Branch.mem_kids.mp hc
    obtain ⟨l, hl, hval, hsorted, hcount⟩ := hs.leaves s hsle
    refine ⟨l, hl, ?_, ?_, hsorted, ?_⟩
    · simp only [Bounds.slack, BTree.bounds, if_neg hne]
      split at hcount
      · rename_i hsp
        rw [if_pos (by rw [hsp])]
        omega
      · split <;> omega
    · simp only [Bounds.slack, BTree.bounds]
      split at hcount <;> omega
    · rw [hval]
      simp [Bounds.slack, BTree.bounds, hs.keyValue]

theorem leavesSettled_of_wf {h' : Cells K V} {B : Bounds} {b' : Branch K}
    (hcap : 4 ≤ t.listCapacity) (hq : h' q = some (.branch b')) (hwf : WF h' B 1 q)
    (hBcap : B.cap = t.listCapacity) (hmin : ∀ c ∈ b'.kids, t.listCapacity / 2 ≤ B.min c)
    (hE : entries h' 1 q = b.kids.flatMap (entries t.cells 0)) : LeavesSettled t q b h' b' := by
  obtain ⟨b₀, hb₀, -, -, hkids, hsep⟩ := hwf
  obtain rfl := branch.inj (some_unique hq hb₀)
  rw [entries_branch 0 hq] at hE
  have hsizes : ∀ c ∈ b'.kids, ∃ l : Leaf K V, h' c = some (.leaf l) ∧
      t.listCapacity / 2 ≤ l.count ∧ l.count ≤ t.listCapacity := by
    intro c hc
    obtain ⟨l, hl, hok⟩ := hkids c hc
    exact ⟨l, hl, le_trans (hmin c hc) hok.min_le, hBcap ▸ hok.le_cap⟩
  refine ⟨hq, hE, hsizes, Branch.divides_of_separated hsep fun c hc => ?_⟩
  obtain ⟨l, hl, hlo, -⟩ := hsizes c hc
  rw [keysOf, entries_leaf hl, l.map_fst_entries, show l.count = l.count - 1 + 1 by omega,
    window_succ]
  exact cons_ne_nil _ _

theorem ShortLeaf.leafPair (hs : ShortLeaf t n path up q b p) (hj : j < b.count)
    (hl : t.cells (b.children j) = some (.leaf l))
    (hr : t.cells (b.children (j + 1)) = some (.leaf r)) :
    Neighbours { t with root := q } 1 [] 0 q b j ∧ LeafPair t q b j l r := by
  have hn : Neighbours { t with root := q } 1 [] 0 q b j := ⟨.nil .., hs.cell, hj⟩
  have hp := hn.leafPair hs.loose hs.keyValue hl hr
  exact ⟨hn, ⟨hp.cell, hp.left, hp.right, hp.apart, hp.layout⟩⟩

theorem ShortLeaf.borrowed (hs : ShortLeaf t n path up q b p) {r' : Leaf K V} {h' : Cells K V}
    (hj : j < b.count) (hjp : p = j ∨ p = j + 1) (hl : t.cells (b.children j) = some (.leaf l))
    (hr : t.cells (b.children (j + 1)) = some (.leaf r))
    (hshared : LeafPair.Shared t q b j l r h' l' r')
    (hlcount : t.listCapacity / 2 ≤ l'.count ∧ l'.count ≤ t.listCapacity)
    (hrcount : t.listCapacity / 2 ≤ r'.count ∧ r'.count ≤ t.listCapacity) :
    LeafOutcome t q b p h' none := by
  obtain ⟨hn, hp⟩ := hs.leafPair hj hl hr
  have hshared' : LeafPair.Shared { t with root := q } q b j l r h' l' r' :=
    ⟨hshared.cell, hshared.left, hshared.right, hshared.other, hshared.entries, hshared.layout⟩
  have hset := hn.keep_leaves hs.loose hs.keyValue (hjp.imp (congrArg _) (congrArg _))
    ⟨hp.cell, hp.left, hp.right, hp.apart, hp.layout⟩ hshared' hlcount hrcount
  refine .borrowed (leavesSettled_of_wf hs.capacity hshared.cell hset.shaped.wf rfl (fun c hc => ?_)
    hset.contents) (b.kids_setSep ..)
  have hne := hs.kid_ne c (b.kids_setSep .. ▸ hc)
  simp [BTree.bounds, hne]

/-- After a merge the branch still has children enough, or it was the root
and is replaced by its only child. Above the branch keys may have changed. -/
theorem ShortLeaf.merged (hs : ShortLeaf t n path up q b p) {h₁ h₂ : Cells K V} (hj : j < b.count)
    (hjp : p = j ∨ p = j + 1) (hl : t.cells (b.children j) = some (.leaf l))
    (hr : t.cells (b.children (j + 1)) = some (.leaf r))
    (hmerged : LeafPair.Merged t q b j l r h₁ l') (hle : l.count + r.count ≤ t.listCapacity)
    (hframe : ∀ z ∈ nodes t.cells 1 q, h₂ z = h₁ z) :
    ∃ h' root, rebalanceBranch path up.length { t with cells := h₂ } q =
      .ok ({ t with cells := h' }, root) ∧ LeafOutcome t q b p h' root := by
  obtain ⟨hn, hp⟩ := hs.leafPair hj hl hr
  have hmerged' : LeafPair.Merged { t with root := q } q b j l r h₁ l' :=
    ⟨hmerged.cell, hmerged.left, hmerged.gone, hmerged.other, hmerged.entries, hmerged.layout⟩
  have hjoined := hn.join_leaves hs.loose hs.keyValue (hjp.imp (congrArg _) (congrArg _))
    ⟨hp.cell, hp.left, hp.right, hp.apart, hp.layout⟩ hmerged' hle
  have hsame : ∀ z ∈ nodes h₁ 1 q, h₂ z = h₁ z := fun z hz => hframe z (hjoined.sub z hz)
  have hcell : h₂ q = some (.branch (b.branchDelete j)) :=
    (hframe q (mem_nodes_self ..)).trans hmerged.cell
  have hbc : (b.branchDelete j).count = b.count - 1 := rfl
  have hleft : h₂ (b.children j) = some (.leaf l') :=
    (hframe _ (hs.kid_mem (le_of_lt hj))).trans hmerged.left
  have hgone : h₂ (b.children (j + 1)) = none := (hframe _ (hs.kid_mem hj)).trans hmerged.gone
  have hone : LeavesMerged t b j h₂ := by
    refine ⟨?_, hgone⟩
    rw [entries_leaf hleft, entries_leaf hl, entries_leaf hr, hmerged.entries]
  have hkids : (b.branchDelete j).kids = b.kids.eraseIdx (j + 1) := by
    rw [b.kids_branchDelete hj, b.kids_split (show j + 1 ≤ b.count from hj),
      eraseIdx_append_of_length_le (by simp)]
    simp only [length_window, Nat.sub_self, eraseIdx_cons_zero]
    congr 2
  have hsettled : LeavesSettled t q b h₂ (b.branchDelete j) := by
    refine leavesSettled_of_wf hs.capacity hcell (hjoined.loose.under.wf.congr rfl rfl hsame
      fun _ _ => le_refl _) rfl (fun c hc => ?_)
      ((entries_congr hsame).trans hjoined.loose.contents)
    have hne := hs.kid_ne c (mem_of_mem_eraseIdx (hkids ▸ hc))
    simp [Bounds.slack, BTree.bounds, hne]
  by_cases hroot : q = t.root
  · obtain rfl : up = [] := by
      by_contra hne
      exact hs.walk.top_not_mem hs.nodup hne (hroot ▸ mem_nodes_self ..)
    by_cases hcount : b.count = 1
    · -- the root is left with the merged leaf only
      obtain rfl : j = 0 := by omega
      have hlq : b.children 0 ≠ q := hs.kid_ne _ (Branch.mem_kids.mpr ⟨0, by omega, rfl⟩)
      obtain ⟨l₀, hl₀, hlo, hhi⟩ := hsettled.sizes (b.children 0) (by
        rw [b.kids_branchDelete hj]
        exact mem_append_left _ (mem_window.mpr ⟨0, by omega, rfl⟩))
      have hrun : rebalanceBranch path ([] : List PathNode).length { t with cells := h₂ } q =
          .ok ({ t with cells := update h₂ q none }, some (b.children 0)) := by
        simp only [length_nil, rebalanceBranch, BTree.branchAt, hcell, bind, Except.bind]
        rw [if_pos (by omega)]
        rfl
      refine ⟨_, _, hrun, .newRoot (l := l₀) hroot hcount ⟨?_, ?_⟩ ?_ hlo hhi
        (update_self ..)⟩
      · rw [← hone.entries]
        refine entries_congr fun z hz => update_of_ne ?_ ..
        simp only [nodes, mem_singleton] at hz
        exact hz ▸ hlq
      · by_cases h : b.children 1 = q
        · rw [Nat.zero_add, h, update_self]
        · rw [Nat.zero_add, update_of_ne h]
          exact hgone
      · rw [update_of_ne hlq, hl₀]
    · refine ⟨h₂, none, ?_, .merged hsettled (hjp.imp Eq.symm Eq.symm) hj hkids hone⟩
      simp only [length_nil, rebalanceBranch, BTree.branchAt, hcell, bind, Except.bind]
      rw [if_neg (by omega)]
  · have hup : up ≠ [] := by
      rintro rfl
      exact hroot hs.walk.of_nil.2
    obtain ⟨d, hd⟩ : ∃ d, up.length = d + 1 :=
      Nat.exists_eq_succ_of_ne_zero (length_pos_of_ne_nil hup).ne'
    have hhalf := hs.children
    rw [if_neg hroot] at hhalf
    refine ⟨h₂, none, ?_, .merged hsettled (hjp.imp Eq.symm Eq.symm) hj hkids hone⟩
    rw [hd]
    simp only [rebalanceBranch, BTree.branchAt, hcell, bind, Except.bind]
    rw [if_pos (by omega)]

theorem ShortLeaf.updateKey (hs : ShortLeaf t n path up q b 0) {h₁ : Cells K V}
    (hmerged : LeafPair.Merged t q b 0 l r h₁ l') :
    ∃ h₂, updateKey path up.length { t with cells := h₁ } q 0 = .ok { t with cells := h₂ } ∧
      ∀ z ∈ nodes t.cells 1 q, h₂ z = h₁ z := by
  have hlen : path.branches.length = up.length + 1 := by simp [hs.branches]
  have hbranches := hs.walk.mem_branches hs.nodup
  have hfuel : path.branches.length ≤ t.next := by
    have hw := (hs.walk.snoc hs.cell hs.index_le).height_lt_length
    rw [← hs.branches] at hw
    exact le_of_lt (lt_of_lt_of_le hw (length_nodes_le hs.nodup hs.fresh))
  have hw : Walk h₁ n t.root path.branches 0 (b.children 0) := by
    have hchild : (b.branchDelete 0).children 0 = b.children 0 := by
      simp [Branch.branchDelete, move_apply]
    rw [hs.branches, ← hchild]
    refine (hs.walk.frame fun x hx => hmerged.other _ ?_ ?_ ?_).snoc hmerged.cell (Nat.zero_le _)
    · exact fun h => (hbranches x hx).2 (h ▸ mem_nodes_self ..)
    · exact fun h => (hbranches x hx).2 (h ▸ hs.kid_mem (Nat.zero_le _))
    · exact fun h => (hbranches x hx).2 (h ▸ hs.kid_mem hs.one_le)
  obtain ⟨h₂, hup, hframe⟩ := updateKey_first (t := { t with cells := h₁ }) (q := q) hw
    hmerged.left hfuel hlen.symm
  refine ⟨h₂, hup, fun z hz => hframe z fun y hy hne => ?_⟩
  rw [hs.branches] at hy
  rcases mem_append.mp hy with hy | hy
  · rintro rfl
    exact (hbranches y hy).2 hz
  · obtain rfl := mem_singleton.mp hy
    exact absurd rfl hne

/-- **One step of `RebalanceLeaf`** puts the branch over the short leaf in
order, or replaces a root with two leaves by the leaf they are merged to. -/
theorem rebalanceLeaf_outcome (hs : ShortLeaf t n path up q b p) :
    ∃ h' root, rebalanceLeaf path path.branches.length t path.leaf =
      .ok ({ t with cells := h' }, root) ∧ LeafOutcome t q b p h' root := by
  have hx : path.branches[up.length]? = some ⟨q, p⟩ := by simp [hs.branches]
  have hcap := hs.capacity
  have hnext : 0 < t.next := Nat.zero_lt_of_lt (hs.fresh q (hs.walk.subset (mem_nodes_self ..)))
  obtain ⟨l, hl, -, -, hshort⟩ := hs.leaves p hs.index_le
  rw [if_pos rfl] at hshort
  have hsize : ∀ s ≤ b.count, s ≠ p → ∀ l' : Leaf K V, t.cells (b.children s) = some (.leaf l') →
      t.listCapacity / 2 ≤ l'.count ∧ l'.count ≤ t.listCapacity := by
    intro s hle hne l' hl'
    obtain ⟨l₀, hl₀, -, -, hcount⟩ := hs.leaves s hle
    obtain rfl := leaf.inj (some_unique hl' hl₀)
    rwa [if_neg hne] at hcount
  have hway := rebalanceLeaf_way hx hs.cell hs.index_le hs.one_le
    (fun s h => (hs.leaves s h).imp fun _ h => h.1) hl
  rw [show path.branches.length = up.length + 1 by simp [hs.branches], hs.leaf]
  generalize rebalanceLeaf path (up.length + 1) t (b.children p) = run at hway ⊢
  cases hway with
  | enough h => omega
  | @borrowRight r _ hi hr hlend =>
    obtain ⟨-, hp⟩ := hs.leafPair hi hl hr
    have hrs := hsize (p + 1) hi (by omega) r hr
    obtain ⟨h', l', r', hop, hshared, hlc, hrc⟩ := Leaf.borrowRight_shared hp hnext hx (by omega)
    exact ⟨h', none, by rw [hop]; rfl,
      hs.borrowed hi (Or.inl rfl) hl hr hshared (by omega) (by omega)⟩
  | @borrowLeft j s _ hj hright hleft hlend =>
    subst hj
    have hlt : j < b.count := hs.index_le
    obtain ⟨-, hp⟩ := hs.leafPair hlt hleft hl
    have hss := hsize j (le_of_lt hlt) (by omega) s hleft
    obtain ⟨h', l', r', hop, hshared, hlc, hrc⟩ := Leaf.borrowLeft_shared hp hnext hx (by omega)
    exact ⟨h', none, by rw [hop]; rfl,
      hs.borrowed hlt (Or.inr rfl) hleft hl hshared (by omega) (by omega)⟩
  | @mergeRight r _ hi hr hright hleft =>
    obtain ⟨-, hp⟩ := hs.leafPair hi hl hr
    obtain ⟨h₁, l', hop, hmerged⟩ := Leaf.mergeRight_merged path up.length hp
    rw [hop]
    by_cases hzero : p = 0
    · subst hzero
      obtain ⟨h₂, hup, hframe⟩ := hs.updateKey hmerged
      rw [if_pos rfl, hup]
      exact hs.merged hi (Or.inl rfl) hl hr hmerged (by omega) hframe
    · rw [if_neg hzero]
      exact hs.merged hi (Or.inl rfl) hl hr hmerged (by omega) fun _ _ => rfl
  | @mergeLeft j s _ hj hlast hleft hle =>
    subst hj
    have hlt : j < b.count := hs.index_le
    obtain ⟨-, hp⟩ := hs.leafPair hlt hleft hl
    obtain ⟨h₁, l', hop, hmerged⟩ := Leaf.mergeLeft_merged hp
    rw [hop]
    exact hs.merged hlt (Or.inr rfl) hleft hl hmerged (by omega) fun _ _ => rfl

end Step

def twoLeaves : BTree ℕ ℕ where
  keyType := ScalarType.ofOrder ℕ
  keyOnly := false
  root := 0
  count := 3
  listCapacity := 4
  cells z :=
    if z = 0 then some (.branch ⟨1, fun _ => 2, fun s => s + 1⟩)
    else if z = 1 then some (.leaf ⟨1, fun i => i, some fun i => i⟩)
    else if z = 2 then some (.leaf ⟨2, fun i => i + 2, some fun i => i⟩)
    else none
  next := 3
  rawKeys _ _ := 0
  rawValues _ _ := 0
  rawNodes _ _ := 0

theorem twoLeaves_shortLeaf : ShortLeaf twoLeaves 1 ⟨[⟨0, 0⟩], 1, 0, true⟩ [] 0
    ⟨1, fun _ => 2, fun s => s + 1⟩ 0 where
  capacity := le_refl _
  keyValue := rfl
  nodup := by decide
  fresh := by decide
  walk := .nil ..
  branches := rfl
  leaf := rfl
  cell := rfl
  index_le := Nat.zero_le _
  children := by decide
  children_le := by decide
  leaves := by
    intro s hs
    obtain rfl | rfl : s = 0 ∨ s = 1 := by simp only at hs; omega
    · exact ⟨_, rfl, rfl, by decide, by decide⟩
    · exact ⟨_, rfl, rfl, by decide, by decide⟩
  divides := by
    intro j hj
    obtain rfl : j = 0 := by simp only at hj; omega
    refine ⟨fun s hs => ?_, fun s hs hs' => ?_⟩
    · obtain rfl : s = 0 := by omega
      decide
    · obtain rfl : s = 1 := by simp only at hs'; omega
      decide

/-- The two leaves become one, which takes the place of the root. -/
theorem rebalanceLeaf_outcome_twoLeaves : ∃ h' root,
    rebalanceLeaf ⟨[⟨0, 0⟩], 1, 0, true⟩ 1 twoLeaves 1 =
      .ok ({ twoLeaves with cells := h' }, root) ∧
    LeafOutcome twoLeaves 0 ⟨1, fun _ => 2, fun s => s + 1⟩ 0 h' root :=
  rebalanceLeaf_outcome twoLeaves_shortLeaf

end Fastore.Tree
