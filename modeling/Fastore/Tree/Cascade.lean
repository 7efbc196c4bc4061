import Fastore.Tree.Damage

/-!
Rebalancing from the leaf to the root.

`Short` is the state at every level: the tree is in order except that the
node reached is one item short, and above and beside this node nothing
but keys has changed since before the deletion. From it the rebalancing
restores the tree, unless `leftCase` says that it will come to use the
left sibling of a branch; then it fails, or leaves a broken tree if the
slots beyond the children of its branches are dangling
(`Node.rebalanceBranch_spec`, `Node.rebalanceLeaf_spec`).
-/

namespace Fastore.Tree

open Lib List Node

variable {K V : Type}

/-- The leaf `this` loses an entry, with `up` the way from it to the root:
does the rebalancing come to use the left sibling of a branch? -/
def leftCaseLeaf (h : Cells K V) (half : ℕ) : List PathNode → NodeId → Bool
  | [], _ => false
  | ⟨p, i⟩ :: up, this =>
    if half < countOf h this then false
    else if i < countOf h p ∧ half < countOf h (childOf h p (i + 1)) then false
    else if 0 < i ∧ half < countOf h (childOf h p (i - 1)) then false
    else leftCase h half up p

section Decision

variable {h₀ h : Cells K V} {n m i c half : ℕ} {root p q : NodeId} {bs up : List PathNode}
  {b : Branch K}

theorem TracesParent.sibling_counts (hp : TracesParent h₀ h n root bs m p i q b) :
    countOf h₀ p = b.count ∧
      (i < b.count → countOf h₀ (childOf h₀ p (i + 1)) = countOf h (b.children (i + 1))) ∧
      (0 < i → countOf h₀ (childOf h₀ p (i - 1)) = countOf h (b.children (i - 1))) := by
  have hile := hp.index_le
  rw [hp.children]
  refine ⟨hp.count, fun hi => ?_, fun hi => ?_⟩
  · exact (hp.siblings (i + 1) hi (by omega) _ (mem_nodes_self ..)).2.2.countOf.symm
  · exact (hp.siblings (i - 1) (by omega) (by omega) _ (mem_nodes_self ..)).2.2.countOf.symm

theorem TracesParent.leftCase_eq (hp : TracesParent h₀ h n root bs m p i q b)
    (hq : countOf h₀ q = c + 1) : leftCase h₀ half (⟨p, i⟩ :: up) q =
      if half ≤ c + 1 then false
      else if i < b.count ∧ half < countOf h (b.children (i + 1)) + 1 then false
      else if 0 < i ∧ half < countOf h (b.children (i - 1)) + 1 then true
      else if i < b.count then leftCase h₀ half up p
      else true := by
  obtain ⟨hpc, hrc, hlc⟩ := hp.sibling_counts
  rw [leftCase, hq, hpc]
  by_cases hi : i < b.count <;> by_cases h0 : 0 < i <;>
    simp only [hi, h0, hrc, hlc, true_and, false_and, if_true, if_false]

theorem TracesParent.leftCaseLeaf_eq (hp : TracesParent h₀ h n root bs m p i q b)
    (hq : countOf h₀ q = c + 1) : leftCaseLeaf h₀ half (⟨p, i⟩ :: up) q =
      if half ≤ c then false
      else if i < b.count ∧ half < countOf h (b.children (i + 1)) then false
      else if 0 < i ∧ half < countOf h (b.children (i - 1)) then false
      else leftCase h₀ half up p := by
  obtain ⟨hpc, hrc, hlc⟩ := hp.sibling_counts
  rw [leftCaseLeaf, hq, hpc]
  by_cases hi : i < b.count <;> by_cases h0 : 0 < i <;>
    simp only [hi, h0, hrc, hlc, true_and, false_and, if_false, Nat.lt_succ_iff]

end Decision

variable [LinearOrder K]

variable {h' : Cells K V} {E : List (K × Option V)} {q : NodeId} {m n : ℕ}

variable {t : BTree K V}

theorem Loose.settled {bs : List PathNode} (hl : Loose t n q E) (hw : Walk t.cells n t.root bs m q)
    (hq : WF t.cells (t.bounds n) m q) : Settled t n E := by
  refine ⟨⟨?_, hl.under.nodup, hl.under.fresh⟩, hl.contents⟩
  refine hw.wf (B := (t.bounds n).slack q) hl.under.nodup rfl rfl (fun _ _ _ => rfl)
    (fun z _ hz => ?_) hl.under.wf hq fun k hk => Or.inl hk
  have hzq : z ≠ q := fun h => hz (h ▸ mem_nodes_self ..)
  simp [Bounds.slack, hzq]

theorem Loose.wf_branch {bs : List PathNode} {b : Branch K} (hl : Loose t n q E)
    (hw : Walk t.cells n t.root bs (m + 1) q) (hq : t.cells q = some (.branch b))
    (hmin : (t.bounds n).min q ≤ b.count + 1) : WF t.cells (t.bounds n) (m + 1) q := by
  obtain ⟨b₀, hb₀, -, hhi, hkids, hsep⟩ := hw.wf_end hl.under.wf
  obtain rfl := branch.inj (some_unique hq hb₀)
  refine ⟨b, hq, hmin, hhi, fun c hc => ?_, hsep⟩
  refine (hkids c hc).congr rfl rfl (fun _ _ => rfl) fun z hz => ?_
  have hzq : z ≠ q := by
    rintro rfl
    have hnd := hw.nodup hl.under.nodup
    rw [nodes_branch m hq, nodup_cons] at hnd
    exact hnd.1 (mem_flatMap.mpr ⟨c, hc, hz⟩)
  simp [Bounds.slack, hzq]

/-- The root may be short. -/
theorem Node.rebalanceBranch_root {path : Path} (hl : Loose t n q E)
    (hw : Walk t.cells n t.root [] (m + 1) q) :
    ∃ h' r n', rebalanceBranch path 0 t q = .ok ({ t with cells := h' }, r) ∧
      Settled { t with cells := h', root := r.getD t.root } n' E := by
  obtain ⟨rfl, rfl⟩ := hw.of_nil
  obtain ⟨b, hb, -, hhi, hkids, -⟩ := id hl.under.wf
  by_cases hc : b.count = 0
  · have hkid : b.kids = [b.children 0] := by
      rw [Branch.kids, hc]
      exact window_one ..
    have hnd := hl.under.nodup
    rw [nodes_branch m hb, hkid, flatMap_singleton, nodup_cons] at hnd
    have hframe : ∀ z ∈ nodes t.cells m (b.children 0),
        Function.update t.cells t.root none z = t.cells z := fun z hz =>
      Function.update_of_ne (by rintro rfl; exact hnd.1 hz) ..
    have hnodes := nodes_congr hframe
    refine ⟨Function.update t.cells t.root none, some (b.children 0), m, ?_, ⟨?_, ?_, ?_⟩, ?_⟩
    · simp only [rebalanceBranch, BTree.branchAt, hb, bind, Except.bind, hc, if_true]
      rfl
    · refine (hkids _ (by simp [hkid])).congr rfl rfl hframe fun z hz => ?_
      have hcap := hl.capacity
      have hzroot : z ≠ t.root := fun h => hnd.1 (h ▸ hz)
      simp only [BTree.bounds, Bounds.slack, hzroot, if_false]
      split
      · split <;> omega
      · exact le_refl _
    · exact hnodes ▸ hnd.2
    · intro z hz
      refine hl.under.fresh z ?_
      rw [nodes_branch m hb, hkid, flatMap_singleton]
      exact mem_cons_of_mem _ (hnodes ▸ hz)
    · change entries (Function.update t.cells t.root none) m (b.children 0) = E
      rw [entries_congr hframe, ← hl.contents, BTree.contents, entries_branch m hb, hkid,
        flatMap_singleton]
  · refine ⟨t.cells, none, m + 1, ?_, hl.settled hw (hl.wf_branch hw hb ?_)⟩
    · simp only [rebalanceBranch, BTree.branchAt, hb, bind, Except.bind, hc, if_false]
    · simp only [BTree.bounds, if_true]
      split <;> omega


/-! ### One level -/

/-- The tree `h₀` on the way back to the root: the node `q`, reached along
`bs`, is one item short. -/
structure Short (h₀ : Cells K V) (t : BTree K V) (n : ℕ) (bs : List PathNode) (m : ℕ) (q : NodeId)
    (E : List (K × Option V)) : Prop extends Traces h₀ n t.root bs m q t.cells where
  loose : Loose t n q E
  way : Walk t.cells n t.root bs m q
  sub : nodes t.cells m q ⊆ nodes h₀ m q
  count : countOf t.cells q + 1 = countOf h₀ q
  unused : ∀ d, h₀ d = none → t.cells d = none

/-- How a rebalancing ends, `bad` being whether it comes to use the left
sibling of a branch. -/
structure Rebalanced (h₀ : Cells K V) (t : BTree K V) (n : ℕ) (E : List (K × Option V)) (bad : Bool)
    (run : Except Fault (BTree K V × Option NodeId)) : Prop where
  restored : bad = false → ∃ h' r n', run = .ok ({ t with cells := h' }, r) ∧
    Settled { t with cells := h', root := r.getD t.root } n' E
  broken : bad = true → ∀ d, Stale h₀ n t.root d → ∀ t' r, run = .ok (t', r) →
    t'.root = t.root ∧ ∃ S k, Broken t'.cells S k (r.getD t.root)

section Level

variable {h₀ : Cells K V} {t : BTree K V} {n m i depth : ℕ} {bs : List PathNode} {p q : NodeId}
  {E : List (K × Option V)} {b : Branch K} {path : Path}

theorem Short.level (hs : Short h₀ t n (bs ++ [⟨p, i⟩]) m q E) (hnd : (nodes h₀ n t.root).Nodup) :
    ∃ b, TracesParent h₀ t.cells n t.root bs m p i q b ∧ Walk t.cells n t.root bs (m + 1) p ∧
      1 ≤ b.count ∧ ∀ s ≤ b.count, t.cells (b.children s) ≠ none := by
  obtain ⟨b, hp⟩ := hs.toTraces.parent hnd
  obtain ⟨b', hw, hb', -, -⟩ := hs.way.unsnoc
  obtain rfl := branch.inj (some_unique hp.cell hb')
  obtain ⟨b₀, hb₀, hlo, -, hkids, -⟩ := hw.wf_end hs.loose.under.wf
  obtain rfl := branch.inj (some_unique hb' hb₀)
  have hpq : p ≠ q := fun h => hp.not_mem (h ▸ mem_nodes_self ..)
  have hcap := hs.loose.capacity
  have hn : n ≠ 0 := by have := hw.height; omega
  refine ⟨b, hp, hw, ?_, fun s hs' => ?_⟩
  · simp only [Bounds.slack, BTree.bounds, if_neg hpq, if_neg hn] at hlo
    split at hlo <;> omega
  · exact (hkids _ (Branch.mem_kids.mpr ⟨s, hs', rfl⟩)).cells_ne_none _ (mem_nodes_self ..)

theorem Joined.short {j : ℕ} (hj : Joined t n bs m p b j E h')
    (hs : Short h₀ t n (bs ++ [⟨p, i⟩]) m q E) (hp : TracesParent h₀ t.cells n t.root bs m p i q b)
    (hlt : j < b.count) : Short h₀ { t with cells := h' } n bs (m + 1) p E := by
  obtain ⟨b', hb', hcount⟩ := hj.parent
  have hsubset := hp.subset hs.sub
  obtain ⟨b₁, hw, hb₁, -, -⟩ := hs.way.unsnoc
  obtain rfl := Node.branch.inj (some_unique hp.cell hb₁)
  refine ⟨⟨hp.walk, fun z hz hzp => ?_⟩, hj.loose, hj.walk, fun z hz => ?_, ?_, fun d hd => ?_⟩
  · refine (hs.frame z hz fun hzq => hzp ?_).trans (hj.frame z ?_ ?_ ?_)
    · exact hp.kid_subset i hp.index_le (hp.child ▸ hzq)
    · exact fun h => hzp (h ▸ mem_nodes_self ..)
    · exact fun hmem => hzp (hsubset j (le_of_lt hlt) hmem)
    · exact fun hmem => hzp (hsubset (j + 1) hlt hmem)
  · have hz' := hj.sub z hz
    rw [nodes_branch m hp.cell] at hz'
    rcases mem_cons.mp hz' with rfl | hz'
    · exact mem_nodes_self ..
    · obtain ⟨c, hc, hz'⟩ := mem_flatMap.mp hz'
      obtain ⟨s, hs', rfl⟩ := Branch.mem_kids.mp hc
      exact hsubset s hs' hz'
  · rw [hp.count, ← hcount]
    simp only [countOf, hb', Node.count]
  · have hnone := hs.unused d hd
    have hkids := (hw.wf_end hs.loose.under.wf).cells_ne_none
    refine (hj.frame d ?_ (fun hmem => ?_) fun hmem => ?_).none_iff.mpr hnone
    · rintro rfl
      simp [hp.cell] at hnone
    · exact hkids d (kid_nodes_subset hp.cell (Branch.mem_kids.mpr ⟨j, le_of_lt hlt, rfl⟩) hmem)
        hnone
    · exact hkids d (kid_nodes_subset hp.cell (Branch.mem_kids.mpr ⟨j + 1, hlt, rfl⟩) hmem) hnone

theorem Rebalanced.of_settled {run : Except Fault (BTree K V × Option NodeId)}
    (hrun : run = .ok ({ t with cells := h' }, none)) (hset : Settled { t with cells := h' } n E) :
    Rebalanced h₀ t n E false run :=
  ⟨fun _ => ⟨h', none, n, hrun, hset⟩, fun h => absurd h (by simp)⟩

theorem Rebalanced.of_cells {bad : Bool} {run : Except Fault (BTree K V × Option NodeId)}
    (hr : Rebalanced h₀ { t with cells := h' } n E bad run) : Rebalanced h₀ t n E bad run :=
  ⟨hr.restored, hr.broken⟩

theorem Short.branchWay (hs : Short h₀ t n (bs ++ [⟨p, i⟩]) (m + 1) q E)
    (hnd : (nodes h₀ n t.root).Nodup) (hx : path.branches[depth]? = some ⟨p, i⟩) :
    ∃ b bq, TracesParent h₀ t.cells n t.root bs (m + 1) p i q b ∧
      Walk t.cells n t.root bs (m + 2) p ∧ t.cells q = some (.branch bq) ∧
      countOf h₀ q = bq.count + 1 ∧
      BranchWay path depth t p b i bq (rebalanceBranch path (depth + 1) t q) := by
  obtain ⟨b, hp, hw, hone, -⟩ := hs.level hnd
  obtain ⟨bq, hq, -⟩ := hs.way.wf_end hs.loose.under.wf
  refine ⟨b, bq, hp, hw, hq, by rw [← countOf_branch hq, hs.count], ?_⟩
  rw [hp.child] at hq ⊢
  refine rebalanceBranch_way hx hp.cell hp.index_le hone (fun s hs' => ?_) hq
  obtain ⟨b', hb', -⟩ := (hw.snoc hp.cell hs').wf_end hs.loose.under.wf
  exact ⟨b', hb'⟩

theorem Short.leafWay (hs : Short h₀ t n (bs ++ [⟨p, i⟩]) 0 q E) (hnd : (nodes h₀ n t.root).Nodup)
    (hx : path.branches[depth]? = some ⟨p, i⟩) :
    ∃ b l, TracesParent h₀ t.cells n t.root bs 0 p i q b ∧ Walk t.cells n t.root bs 1 p ∧
      t.cells q = some (.leaf l) ∧ countOf h₀ q = l.count + 1 ∧
      LeafWay path depth t p b i l (rebalanceLeaf path (depth + 1) t q) := by
  obtain ⟨b, hp, hw, hone, -⟩ := hs.level hnd
  obtain ⟨l, hq, -⟩ := hs.way.wf_end hs.loose.under.wf
  refine ⟨b, l, hp, hw, hq, by rw [← countOf_leaf hq, hs.count], ?_⟩
  rw [hp.child] at hq ⊢
  refine rebalanceLeaf_way hx hp.cell hp.index_le hone (fun s hs' => ?_) hq
  obtain ⟨l', hl', -⟩ := (hw.snoc hp.cell hs').wf_end hs.loose.under.wf
  exact ⟨l', hl'⟩

/-- **`RebalanceBranch`** restores the tree unless it comes to use the left
sibling. -/
theorem Node.rebalanceBranch_spec {B : Bounds} {root : NodeId} (hwf : WF h₀ B n root)
    (hnd : (nodes h₀ n root).Nodup) : ∀ {depth m : ℕ} {q : NodeId} {t : BTree K V},
      t.root = root → depth ≤ path.branches.length →
      Short h₀ t n (path.branches.take depth) (m + 1) q E →
      Rebalanced h₀ t n E (leftCase h₀ (t.listCapacity / 2) (path.branches.take depth).reverse q)
        (rebalanceBranch path depth t q) := by
  intro depth
  induction depth with
  | zero =>
    intro m q t _ _ hs
    refine ⟨fun _ => rebalanceBranch_root hs.loose hs.way, fun h => ?_⟩
    simp [leftCase] at h
  | succ depth ih =>
    rintro m q t rfl hlen hs
    have hlt : depth < path.branches.length := hlen
    rw [take_succ_eq_append_getElem hlt] at hs ⊢
    obtain ⟨p, i, hx⟩ : ∃ p i, path.branches[depth] = ⟨p, i⟩ := ⟨_, _, rfl⟩
    rw [hx] at hs ⊢
    have hx' : path.branches[depth]? = some ⟨p, i⟩ := by rw [getElem?_eq_getElem hlt, hx]
    obtain ⟨b, bq, hp, hw, hq, hqc, hway⟩ := hs.branchWay hnd hx'
    rw [reverse_append, reverse_singleton, singleton_append, hp.leftCase_eq hqc]
    obtain rfl := hp.child
    generalize rebalanceBranch path (depth + 1) t (b.children i) = run at hway ⊢
    cases hway with
    | enough hhalf =>
      rw [if_pos hhalf]
      have hroot : b.children i ≠ t.root := fun h =>
        hs.way.top_not_mem hs.loose.under.nodup (by simp) (h ▸ mem_nodes_self ..)
      refine .of_settled rfl (hs.loose.settled hs.way (hs.loose.wf_branch hs.way hq ?_))
      simpa [BTree.bounds, hroot] using hhalf
    | borrowRight hshort hi hr hlend =>
      rw [if_neg (by omega), if_pos ⟨hi, countOf_branch hr ▸ hlend⟩]
      obtain ⟨h', hop, hset⟩ := Branch.borrowRight_spec ⟨⟨hw, hp.cell, hi⟩, hq, hr⟩ hs.loose hx'
        (by omega) hlend
      rw [hop]
      exact .of_settled rfl hset
    | @borrowLeft j s hshort hj hright hs' hlend =>
      subst hj
      have hsc := countOf_branch hs'
      rw [if_neg (by omega), if_neg (by omega), Nat.add_sub_cancel, if_pos (by omega)]
      refine ⟨fun h => absurd h (by simp), fun _ d _ t' r hrun => ?_⟩
      obtain ⟨t₁, hop, -⟩ := eq_ok_of_bind hrun
      exact (Branch.borrowLeft_error _ _ _ _ _ _ _ _ hop).elim
    | @mergeRight r hshort hi hr hright hleft =>
      have hrc := countOf_branch hr
      rw [if_neg (by omega), if_neg (by omega), if_neg (by omega), if_pos hi]
      obtain ⟨h', hop, hjoined⟩ := Branch.mergeRight_spec ⟨⟨hw, hp.cell, hi⟩, hq, hr⟩ hs.loose
        hx' (by omega)
      rw [hop]
      exact (ih (t := { t with cells := h' }) rfl (le_of_lt hlt)
        (hjoined.short hs hp hi)).of_cells
    | @mergeLeft j s hshort hj hlast hs' hleft =>
      subst hj
      have hsc := countOf_branch hs'
      rw [if_neg (by omega), if_neg (by omega), Nat.add_sub_cancel, if_neg (by omega),
        if_neg (by omega)]
      refine ⟨fun h => absurd h (by simp), fun _ d hst t' r hrun => ?_⟩
      obtain ⟨t₁, hop, hrun⟩ := eq_ok_of_bind hrun
      obtain ⟨h', rfl, hdm⟩ := Branch.mergeLeft_damaged hs.toTraces hp hst
        (hs.unused d hst.dangling) (Nat.succ_pos j) hop
      exact rebalanceBranch_damaged (t := { t with cells := h' }) hwf hnd hst
        (le_of_lt hlt) hdm hrun

/-- **`RebalanceLeaf`** restores the tree unless the rebalancing comes to
use the left sibling of a branch. -/
theorem Node.rebalanceLeaf_spec {B : Bounds} (hwf : WF h₀ B n t.root)
    (hnd : (nodes h₀ n t.root).Nodup) (hko : t.keyOnly = false) (hlt : depth < path.branches.length)
    (hs : Short h₀ t n (path.branches.take (depth + 1)) 0 q E) :
    Rebalanced h₀ t n E
      (leftCaseLeaf h₀ (t.listCapacity / 2) (path.branches.take (depth + 1)).reverse q)
      (rebalanceLeaf path (depth + 1) t q) := by
  rw [take_succ_eq_append_getElem hlt] at hs ⊢
  obtain ⟨p, i, hx⟩ : ∃ p i, path.branches[depth] = ⟨p, i⟩ := ⟨_, _, rfl⟩
  rw [hx] at hs ⊢
  have hx' : path.branches[depth]? = some ⟨p, i⟩ := by rw [getElem?_eq_getElem hlt, hx]
  obtain ⟨b, l, hp, hw, hq, hqc, hway⟩ := hs.leafWay hnd hx'
  rw [reverse_append, reverse_singleton, singleton_append, hp.leftCaseLeaf_eq hqc]
  obtain rfl := hp.child
  generalize rebalanceLeaf path (depth + 1) t (b.children i) = run at hway ⊢
  cases hway with
  | enough hhalf =>
    rw [if_pos hhalf]
    obtain ⟨l', hl', hok⟩ := hs.way.wf_end hs.loose.under.wf
    obtain rfl := leaf.inj (some_unique hq hl')
    refine .of_settled rfl (hs.loose.settled hs.way ⟨l, hq, ?_, hok.le_cap, hok.sorted,
      hok.layout⟩)
    have hroot : b.children i ≠ t.root := fun h =>
      hs.way.top_not_mem hs.loose.under.nodup (by simp) (h ▸ mem_nodes_self ..)
    simpa [BTree.bounds, hroot] using hhalf
  | borrowRight hshort hi hr hlend =>
    rw [if_neg (by omega), if_pos ⟨hi, countOf_leaf hr ▸ hlend⟩]
    obtain ⟨h', hop, hset⟩ := Leaf.borrowRight_spec ⟨hw, hp.cell, hi⟩ hs.loose hko hx' hq hr
      hshort hlend
    rw [hop]
    exact .of_settled rfl hset
  | @borrowLeft j s hshort hj hright hs' hlend =>
    subst hj
    have hsc := countOf_leaf hs'
    rw [if_neg (by omega), if_neg (by omega), Nat.add_sub_cancel, if_pos (by omega)]
    obtain ⟨h', hop, hset⟩ := Leaf.borrowLeft_spec ⟨hw, hp.cell, hp.index_le⟩ hs.loose hko hx'
      hs' hq hshort hlend
    rw [hop]
    exact .of_settled rfl hset
  | @mergeRight r hshort hi hr hright hleft =>
    have hrc := countOf_leaf hr
    rw [if_neg (by omega), if_neg (by omega), if_neg (by omega)]
    obtain ⟨h', hop, hjoined⟩ := Leaf.mergeRight_spec ⟨hw, hp.cell, hi⟩ hs.loose hko hx' hq hr
      (by omega)
    rw [hop]
    exact (rebalanceBranch_spec (t := { t with cells := h' }) hwf hnd rfl (le_of_lt hlt)
      (hjoined.short hs hp hi)).of_cells
  | @mergeLeft j s hshort hj hlast hs' hleft =>
    subst hj
    have hsc := countOf_leaf hs'
    rw [if_neg (by omega), if_neg (by omega), Nat.add_sub_cancel, if_neg (by omega)]
    obtain ⟨h', hop, hjoined⟩ := Leaf.mergeLeft_spec ⟨hw, hp.cell, hp.index_le⟩ hs.loose hko hs'
      hq (by omega)
    rw [hop]
    exact (rebalanceBranch_spec (t := { t with cells := h' }) hwf hnd rfl (le_of_lt hlt)
      (hjoined.short hs hp hp.index_le)).of_cells

end Level

end Fastore.Tree
