import Fastore.Tree.Levels
import Fastore.Lib.Runs

/-!
A child that is lost stays lost.

Merging a branch with its left sibling copies one child pointer too few:
the last child of the joined branch is whatever lay beyond the children
of the left sibling (`Branch.mergeLeft_damaged`). Where these slots are
dangling (`Stale`), there is a way from the joined branch to memory that
holds no node, and no step further up removes it
(`Node.rebalanceBranch_damaged`). A tree with such a way is not well
formed, whatever its height (`Broken.not_wf`).
-/

namespace Fastore.Tree

open Lib Function List BTree

variable {K V : Type}

/-- A way of `k` steps down from `p`, through nodes of `S`, to memory that
holds no node. -/
def Broken (h : Cells K V) (S : NodeId → Prop) : ℕ → NodeId → Prop
  | 0, p => h p = none
  | k + 1, p => S p ∧ ∃ c ∈ kidsAt h p, Broken h S k c

/-- The branches of the tree have the dangling pointer `d` in the slots
beyond their children. -/
structure Stale (h : Cells K V) (n : ℕ) (root d : NodeId) : Prop where
  dangling : h d = none
  slots : ∀ z ∈ nodes h n root, ∀ b : Branch K, h z = some (.branch b) →
    ∀ s, b.count < s → b.children s = d

variable {h : Cells K V} {p q : NodeId} {S : NodeId → Prop} {path : Path} {depth i k : ℕ}

theorem kidsAt_branch {c : NodeId} (hc : c ∈ kidsAt h p) :
    ∃ b : Branch K, h p = some (.branch b) ∧ c ∈ b.kids := by
  unfold kidsAt at hc
  split at hc
  · exact ⟨_, by assumption, hc⟩
  · simp at hc

theorem Broken.mono {h' : Cells K V} {S' : NodeId → Prop} (hb : Broken h S k p)
    (hS : ∀ z, S z → S' z ∧ kidsAt h z ⊆ kidsAt h' z) (hnone : ∀ z, h z = none → h' z = none) :
    Broken h' S' k p := by
  induction k generalizing p with
  | zero => exact hnone p hb
  | succ k ih =>
    obtain ⟨hp, c, hc, hb⟩ := hb
    exact ⟨(hS p hp).1, c, (hS p hp).2 hc, ih hb⟩

theorem Walk.broken {n m : ℕ} {bs : List PathNode} (w : Walk h n p bs m q) (hb : Broken h S k q)
    (hS : ∀ x ∈ bs, S x.pNode) : ∃ k', Broken h S k' p := by
  induction w with
  | nil => exact ⟨k, hb⟩
  | @cons n m i p q b bs hp hi _ ih =>
    obtain ⟨k', hb'⟩ := ih hb fun x hx => hS x (mem_cons_of_mem _ hx)
    refine ⟨k' + 1, hS ⟨p, i⟩ (mem_cons_self ..), b.children i, ?_, hb'⟩
    rw [kidsAt_of_branch hp]
    exact Branch.mem_kids.mpr ⟨i, hi, rfl⟩

section Step

variable {h₀ h h' : Cells K V} {n m i : ℕ} {root p q d : NodeId} {bs : List PathNode} {b : Branch K}

/-- The tree `h₀` after changes at and below `q` that have left a way from
`q` to the dangling pointer. -/
structure Damaged (h₀ : Cells K V) (n : ℕ) (root : NodeId) (bs : List PathNode) (m : ℕ)
    (q d : NodeId) (h : Cells K V) : Prop extends Traces h₀ n root bs m q h where
  dangling : h d = none
  hurt : ∃ S k c, c ∈ kidsAt h q ∧ Broken h S k c ∧ ∀ z, S z → z ∈ nodes h₀ m q ∧ z ≠ q

theorem Damaged.broken (hd : Damaged h₀ n root bs m q d h) (hnd : (nodes h₀ n root).Nodup)
    (hkids : ∀ z, (z ∈ nodes h₀ m q ∨ ∃ x ∈ bs, x.pNode = z) → kidsAt h z ⊆ kidsAt h' z)
    (hnone : ∀ z, h z = none → h' z = none) : ∃ S k, Broken h' S k root := by
  obtain ⟨S, k, c, hc, hb, hS⟩ := hd.hurt
  have hwalk : Walk h n root bs m q := hd.walk.sameFrame fun x hx =>
    hd.frame _ (hd.walk.mem_branches hnd x hx).1 (hd.walk.mem_branches hnd x hx).2
  have hq : Broken h (fun z => z ∈ nodes h₀ m q ∨ ∃ x ∈ bs, x.pNode = z) (k + 1) q :=
    ⟨Or.inl (mem_nodes_self ..), c, hc, hb.mono
      (fun z hz => ⟨Or.inl (hS z hz).1, List.Subset.refl _⟩) fun _ hz => hz⟩
  obtain ⟨k', hroot⟩ := hwalk.broken hq fun x hx => Or.inr ⟨x, hx, rfl⟩
  exact ⟨_, k', hroot.mono (fun z hz => ⟨hz, hkids z hz⟩) hnone⟩

theorem TracesParent.sibling_off (hp : TracesParent h₀ h n root bs m p i q b)
    (hnd : (nodes h₀ n root).Nodup) {s : ℕ} (hs : s ≤ b.count) (hsi : s ≠ i) {z : NodeId}
    (hz : z ∈ nodes h₀ m q ∨ ∃ x ∈ bs ++ [⟨p, i⟩], x.pNode = z) : z ≠ b.children s := by
  obtain ⟨hq, hpc, -⟩ := hp.siblings s hs hsi _ (mem_nodes_self ..)
  rintro rfl
  rcases hz with hz | ⟨x, hx, hz⟩
  · exact hq hz
  · rcases mem_append.mp hx with hx | hx
    · exact (hp.walk.mem_branches hnd x hx).2 (hz ▸ hp.kid_subset s hs (mem_nodes_self ..))
    · rw [mem_singleton.mp hx] at hz
      exact hpc hz.symm

theorem TracesParent.traces (hp : TracesParent h₀ h n root bs m p i q b)
    (ht : Traces h₀ n root (bs ++ [⟨p, i⟩]) m q h) (s s' : ℕ) (hs : s ≤ b.count)
    (hs' : s' ≤ b.count) (hsame : ∀ z, z ≠ p → z ≠ b.children s → z ≠ b.children s' →
      SameFrame (h z) (h' z)) : Traces h₀ n root bs (m + 1) p h' := by
  refine ⟨hp.walk, fun z hz hzp => (ht.frame z hz fun hzq => hzp ?_).trans (hsame z ?_ ?_ ?_)⟩
  · exact hp.kid_subset i hp.index_le (hp.child ▸ hzq)
  · exact fun h => hzp (h ▸ mem_nodes_self ..)
  · exact fun h => hzp (hp.kid_subset s hs (h ▸ mem_nodes_self ..))
  · exact fun h => hzp (hp.kid_subset s' hs' (h ▸ mem_nodes_self ..))

end Step

variable [LinearOrder K]

theorem Broken.not_wf {B : Bounds} {n : ℕ} (hb : Broken h S k p) : ¬ WF h B n p := by
  induction k generalizing n p with
  | zero => exact fun hwf => hwf.cells_ne_none p (mem_nodes_self ..) hb
  | succ k ih =>
    obtain ⟨-, c, hc, hb⟩ := hb
    obtain ⟨b, hp, hc⟩ := kidsAt_branch hc
    intro hwf
    cases n with
    | zero =>
      obtain ⟨l, hl, -⟩ := hwf
      simp [hp] at hl
    | succ n =>
      obtain ⟨b', hb', -, -, hkids, -⟩ := hwf
      obtain rfl := Node.branch.inj (some_unique hp hb')
      exact ih hb (hkids c hc)

/-! ### What the operations have done when they return -/

variable {t t' : BTree K V}

theorem BTree.eq_of_branchAt {b : Branch K} (h : t.branchAt p = .ok b) :
    t.cells p = some (.branch b) := by
  unfold branchAt at h
  split at h
  case h_1 b' hb' => rw [hb', Except.ok.inj h]
  case h_2 => exact absurd h (by simp)

theorem Node.updateKey_rekeyed (h : Node.updateKey path depth t q i = .ok t') :
    ∃ h', t' = { t with cells := h' } ∧ Rekeyed t.cells h' := by
  induction depth generalizing q i with
  | zero =>
    unfold Node.updateKey at h
    obtain ⟨x, -, h⟩ := eq_ok_of_bind h
    split at h
    · obtain ⟨b, hb, h⟩ := eq_ok_of_bind h
      obtain ⟨k, -, h⟩ := eq_ok_of_bind h
      exact ⟨_, (Except.ok.inj h).symm, rekeyed_setSep (eq_of_branchAt hb) i k⟩
    · exact ⟨_, (Except.ok.inj h).symm, .refl _⟩
  | succ depth ih =>
    unfold Node.updateKey at h
    obtain ⟨x, -, h⟩ := eq_ok_of_bind h
    split at h
    · obtain ⟨b, hb, h⟩ := eq_ok_of_bind h
      obtain ⟨k, -, h⟩ := eq_ok_of_bind h
      exact ⟨_, (Except.ok.inj h).symm, rekeyed_setSep (eq_of_branchAt hb) i k⟩
    · exact ih h

theorem BTree.branchDelete_inv {j : ℕ} (h : t.branchDelete p j = .ok t') :
    ∃ b, t.cells p = some (.branch b) ∧
      t' = { t with cells := update t.cells p (some (.branch (b.branchDelete j))) } := by
  obtain ⟨b, hb, h⟩ := eq_ok_of_bind h
  exact ⟨b, eq_of_branchAt hb, (Except.ok.inj h).symm⟩

namespace Branch

theorem borrowRight_inv {r : NodeId} (h : borrowRight path depth t q r p i = .ok t') :
    ∃ bq br : Branch K, t.cells q = some (.branch bq) ∧ t.cells r = some (.branch br) ∧
      ∃ bq' br' h', bq.kids ⊆ bq'.kids ∧ t' = { t with cells := h' } ∧
        Rekeyed (update (update t.cells q (some (.branch bq'))) r
          (some (.branch br'))) h' := by
  obtain ⟨bq, hq, h⟩ := eq_ok_of_bind h
  obtain ⟨br, hr, h⟩ := eq_ok_of_bind h
  obtain ⟨k, -, h⟩ := eq_ok_of_bind h
  obtain ⟨h', rfl, hrek⟩ := Node.updateKey_rekeyed h
  refine ⟨bq, br, eq_of_branchAt hq, eq_of_branchAt hr, _, _, h', ?_, rfl, hrek⟩
  rw [kids, kids, window_append]
  exact subset_append_left ..

theorem mergeRight_inv {r : NodeId} (h : mergeRight path depth t q r p i = .ok t') :
    ∃ bq br : Branch K, t.cells q = some (.branch bq) ∧ t.cells r = some (.branch br) ∧
      ∃ bq' bp h', bq.kids ⊆ bq'.kids ∧
        update (update t.cells q (some (.branch bq'))) r none p =
          some (.branch bp) ∧ t' = { t with cells := h' } ∧
        Rekeyed (update (update (update t.cells q
          (some (.branch bq'))) r none) p (some (.branch (bp.branchDelete i)))) h' := by
  obtain ⟨bq, hq, h⟩ := eq_ok_of_bind h
  obtain ⟨br, hr, h⟩ := eq_ok_of_bind h
  obtain ⟨k, -, h⟩ := eq_ok_of_bind h
  obtain ⟨t₁, ht₁, h⟩ := eq_ok_of_bind h
  obtain ⟨bp, hbp, rfl⟩ := branchDelete_inv ht₁
  have hkids : bq.kids ⊆ kids ⟨bq.count + (br.count + 1),
      update (move bq.keys (bq.count + 1) br.keys 0 br.count) bq.count k,
      move bq.children (bq.count + 1) br.children 0 (br.count + 1)⟩ := by
    rw [kids, kids,
      show bq.count + (br.count + 1) + 1 = bq.count + 1 + (br.count + 1) by omega, window_append]
    exact subset_append_left ..
  split at h
  · obtain ⟨h', rfl, hrek⟩ := Node.updateKey_rekeyed h
    exact ⟨bq, br, eq_of_branchAt hq, eq_of_branchAt hr, _, bp, h', hkids, hbp, rfl,
      hrek⟩
  · exact ⟨bq, br, eq_of_branchAt hq, eq_of_branchAt hr, _, bp, _, hkids, hbp,
      (Except.ok.inj h).symm, .refl _⟩

theorem mergeLeft_inv {l : NodeId} (h : mergeLeft t q l p i = .ok t') :
    ∃ bq bl : Branch K, t.cells q = some (.branch bq) ∧ t.cells l = some (.branch bl) ∧
      ∃ bl' bp, bl.children (bl.count + bq.count + 1) ∈ bl'.kids ∧
        update (update t.cells l (some (.branch bl'))) q none p =
          some (.branch bp) ∧
        t' = { t with cells := update (update (update t.cells l
          (some (.branch bl'))) q none) p (some (.branch (bp.branchDelete (i - 1)))) } := by
  obtain ⟨bq, hq, h⟩ := eq_ok_of_bind h
  obtain ⟨bl, hl, h⟩ := eq_ok_of_bind h
  obtain ⟨k, -, h⟩ := eq_ok_of_bind h
  obtain ⟨bp, hbp, rfl⟩ := branchDelete_inv h
  refine ⟨bq, bl, eq_of_branchAt hq, eq_of_branchAt hl, _, bp, ?_, hbp, rfl⟩
  refine mem_kids.mpr ⟨bl.count + bq.count + 1, by simp only; omega, ?_⟩
  simp only [move_apply]
  rw [if_neg (by omega)]

theorem borrowLeft_error (path : Path) (depth i : ℕ) (t t' : BTree K V)
    (q l p : NodeId) : borrowLeft path depth t q l p i ≠ .ok t' := by
  intro h
  obtain ⟨bq, -, h⟩ := eq_ok_of_bind h
  obtain ⟨bl, -, h⟩ := eq_ok_of_bind h
  obtain ⟨k, hk, -⟩ := eq_ok_of_bind h
  exact absurd hk (by simp [getSlotKey])

end Branch

/-! ### The rest of the rebalancing -/

section Run

variable {h₀ : Cells K V} {n m i depth : ℕ} {root p q d : NodeId} {bs : List PathNode}
  {b : Branch K} {t t' : BTree K V} {path : Path}

theorem Branch.mergeLeft_damaged (ht : Traces h₀ n root (bs ++ [⟨p, i⟩]) m q t.cells)
    (hp : TracesParent h₀ t.cells n root bs m p i q b) (hst : Stale h₀ n root d)
    (hd : t.cells d = none) (hi : 0 < i)
    (hop : Branch.mergeLeft t q (b.children (i - 1)) p i = .ok t') :
    ∃ h', t' = { t with cells := h' } ∧ Damaged h₀ n root bs (m + 1) p d h' := by
  obtain ⟨bq, bl, hq, hl, bl', bp, hslot, hbp, rfl⟩ := Branch.mergeLeft_inv hop
  have hile := hp.index_le
  obtain ⟨hlq, hlp, hlframe⟩ := hp.siblings (i - 1) (by omega) (by omega) _ (mem_nodes_self ..)
  have hpq : p ≠ q := fun h => hp.not_mem (h ▸ mem_nodes_self ..)
  have hlq' : b.children (i - 1) ≠ q := fun h => hlq (h ▸ mem_nodes_self ..)
  obtain rfl : b = bp := by
    rw [update_of_ne hpq, update_of_ne (Ne.symm hlp), hp.cell] at hbp
    exact Node.branch.inj (Option.some.inj hbp)
  -- the slot that becomes the last child has been dangling all along
  have hstale : bl.children (bl.count + bq.count + 1) = d := by
    rw [hl] at hlframe
    rcases hlframe with heq | ⟨b₀, b₁, hb₀, hb₁, hc, hk⟩
    · exact hst.slots _ (hp.walk.subset (hp.kid_subset (i - 1) (by omega) (mem_nodes_self ..))) bl
        heq _ (by omega)
    · obtain rfl := Node.branch.inj (Option.some.inj hb₁)
      rw [hk]
      exact hst.slots _ (hp.walk.subset (hp.kid_subset (i - 1) (by omega) (mem_nodes_self ..))) b₀
        hb₀ _ (by omega)
  rw [hstale] at hslot
  have hdp : d ≠ p := by rintro rfl; simp [hp.cell] at hd
  have hdq : d ≠ q := by rintro rfl; simp [hq] at hd
  have hdl : d ≠ b.children (i - 1) := by rintro rfl; simp [hl] at hd
  generalize hh' : update (update (update t.cells (b.children (i - 1))
    (some (.branch bl'))) q none) p (some (.branch (b.branchDelete (i - 1)))) = h'
  have hd' : h' d = none := by
    rw [← hh', update_of_ne hdp, update_of_ne hdq, update_of_ne hdl, hd]
  refine ⟨h', rfl, hp.traces ht i (i - 1) hile (by omega) ?_, hd',
    (· = b.children (i - 1)), 1, b.children (i - 1), ?_, ⟨rfl, d, ?_, hd'⟩, ?_⟩
  · intro z hzp hzq hzl
    rw [← hh', update_of_ne hzp, update_of_ne (hp.child ▸ hzq),
      update_of_ne hzl]
    exact .refl _
  · rw [← hh', kidsAt_of_branch (update_self ..), b.kids_branchDelete (by omega)]
    refine mem_append_left _ (mem_window.mpr ⟨i - 1, by omega, by simp⟩)
  · have hcell : h' (b.children (i - 1)) = some (.branch bl') := by
      rw [← hh', update_of_ne hlp, update_of_ne hlq', update_self]
    rwa [kidsAt_of_branch hcell]
  · rintro z rfl
    exact ⟨hp.kid_subset (i - 1) (by omega) (mem_nodes_self ..), hlp⟩

theorem Branch.mergeRight_damaged (hdm : Damaged h₀ n root (bs ++ [⟨p, i⟩]) m q d t.cells)
    (hp : TracesParent h₀ t.cells n root bs m p i q b) (hi : i < b.count)
    (hop : Branch.mergeRight path depth t q (b.children (i + 1)) p i = .ok t') :
    ∃ h', t' = { t with cells := h' } ∧ Damaged h₀ n root bs (m + 1) p d h' := by
  obtain ⟨bq, br, hq, hr, bq', bp, h', hkids, hbp, rfl, hrek⟩ := Branch.mergeRight_inv hop
  obtain ⟨hrq, hrp, -⟩ := hp.siblings (i + 1) hi (by omega) _ (mem_nodes_self ..)
  have hpq : p ≠ q := fun h => hp.not_mem (h ▸ mem_nodes_self ..)
  have hrq' : b.children (i + 1) ≠ q := fun h => hrq (h ▸ mem_nodes_self ..)
  obtain rfl : b = bp := by
    rw [update_of_ne (Ne.symm hrp), update_of_ne hpq, hp.cell] at hbp
    exact Node.branch.inj (Option.some.inj hbp)
  have hdang := hdm.dangling
  have hdp : d ≠ p := by rintro rfl; simp [hp.cell] at hdang
  have hdq : d ≠ q := by rintro rfl; simp [hq] at hdang
  have hdr : d ≠ b.children (i + 1) := by rintro rfl; simp [hr] at hdang
  generalize hg : update (update (update t.cells q
    (some (.branch bq'))) (b.children (i + 1)) none) p
    (some (.branch (b.branchDelete i))) = g at hrek
  have hsame : ∀ z, z ≠ p → z ≠ q → z ≠ b.children (i + 1) → g z = t.cells z := by
    intro z hzp hzq hzr
    rw [← hg, update_of_ne hzp, update_of_ne hzr, update_of_ne hzq]
  have hgq : g q = some (.branch bq') := by
    rw [← hg, update_of_ne (Ne.symm hpq), update_of_ne (Ne.symm hrq'),
      update_self]
  obtain ⟨S, k, c, hc, hb, hS⟩ := hdm.hurt
  have hqp : ∀ z ∈ nodes h₀ m q, z ∈ nodes h₀ (m + 1) p ∧ z ≠ p := fun z hz =>
    ⟨hp.kid_subset i hp.index_le (hp.child ▸ hz), fun h => hp.not_mem (h ▸ hz)⟩
  refine ⟨h', rfl, hp.traces hdm.toTraces i (i + 1) hp.index_le hi ?_,
    (hrek d).none_iff.mpr ((hsame d hdp hdq hdr).trans hdang), fun z => S z ∨ z = q, k + 1, q, ?_,
    ⟨Or.inr rfl, c, ?_, ?_⟩, ?_⟩
  · intro z hzp hzq hzr
    rw [← hsame z hzp (hp.child ▸ hzq) hzr]
    exact hrek z
  · rw [hrek.kidsAt, ← hg, kidsAt_of_branch (update_self ..), b.kids_branchDelete hi]
    refine mem_append_left _ (mem_window.mpr ⟨i, by omega, ?_⟩)
    rw [Nat.zero_add, ← hp.child]
  · rw [kidsAt_of_branch hq] at hc
    rw [hrek.kidsAt, kidsAt_of_branch hgq]
    exact hkids hc
  · refine hb.mono (fun z hz => ⟨Or.inl hz, ?_⟩) fun z hz => ?_
    · obtain ⟨hzq, hne⟩ := hS z hz
      have hzg := hsame z (hqp z hzq).2 hne fun h => hrq (h ▸ hzq)
      rw [hrek.kidsAt, kidsAt, kidsAt, hzg]
      exact List.Subset.refl _
    · refine (hrek z).none_iff.mpr ?_
      by_cases hzr : z = b.children (i + 1)
      · rw [← hg, hzr, update_of_ne hrp, update_self]
      · rw [hsame z (by rintro rfl; simp [hp.cell] at hz) (by rintro rfl; simp [hq] at hz) hzr, hz]
  · rintro z (hz | rfl)
    · exact hqp z (hS z hz).1
    · exact hqp z (mem_nodes_self ..)

theorem Branch.borrowRight_damaged (hnd : (nodes h₀ n root).Nodup)
    (hdm : Damaged h₀ n root (bs ++ [⟨p, i⟩]) m q d t.cells)
    (hp : TracesParent h₀ t.cells n root bs m p i q b) (hi : i < b.count)
    (hop : Branch.borrowRight path depth t q (b.children (i + 1)) p i = .ok t') :
    t'.root = t.root ∧ ∃ S k, Broken t'.cells S k root := by
  obtain ⟨bq, br, hq, hr, bq', br', h', hkids, rfl, hrek⟩ := Branch.borrowRight_inv hop
  obtain ⟨hrq, -, -⟩ := hp.siblings (i + 1) hi (by omega) _ (mem_nodes_self ..)
  have hrq' : b.children (i + 1) ≠ q := fun h => hrq (h ▸ mem_nodes_self ..)
  refine ⟨rfl, hdm.broken hnd (fun z hz => ?_) fun z hz => (hrek z).none_iff.mpr ?_⟩
  · have hzr := hp.sibling_off hnd hi (by omega) hz
    rw [hrek.kidsAt, kidsAt, kidsAt, update_of_ne hzr]
    by_cases hzq : z = q
    · subst hzq
      rw [update_self, hq]
      exact hkids
    · rw [update_of_ne hzq]
      exact List.Subset.refl _
  · rw [update_of_ne (by rintro rfl; simp [hr] at hz),
      update_of_ne (by rintro rfl; simp [hq] at hz), hz]

/-- **No repair**: whatever the rebalancing does above a branch with a way
to the dangling pointer, if it returns, the tree is broken. -/
theorem Node.rebalanceBranch_damaged {B : Bounds} (hwf : WF h₀ B n root)
    (hnd : (nodes h₀ n root).Nodup) (hst : Stale h₀ n root d) {r : Option NodeId} :
    ∀ {depth m : ℕ} {q : NodeId} {t : BTree K V}, depth ≤ path.branches.length →
      Damaged h₀ n root (path.branches.take depth) m q d t.cells →
      Node.rebalanceBranch path depth t q = .ok (t', r) →
      t'.root = t.root ∧ ∃ S k, Broken t'.cells S k (r.getD root) := by
  intro depth
  induction depth with
  | zero =>
    intro m q t _ hdm hrun
    obtain ⟨S, k, c, hc, hb, hS⟩ := hdm.hurt
    obtain ⟨bq, hq, hc⟩ := kidsAt_branch hc
    obtain ⟨rfl, rfl⟩ : m = n ∧ q = root := hdm.walk.of_nil
    simp only [Node.rebalanceBranch, branchAt, hq, bind, Except.bind] at hrun
    split at hrun
    case isTrue hzero =>
      -- the only child takes the place of the root
      obtain ⟨rfl, rfl⟩ := Prod.mk.inj (Except.ok.inj hrun)
      obtain ⟨s, hs, rfl⟩ := Branch.mem_kids.mp hc
      obtain rfl : s = 0 := by omega
      refine ⟨rfl, S, k, hb.mono (fun z hz => ⟨hz, ?_⟩) fun z hz => ?_⟩
      · have hzq : z ≠ q := (hS z hz).2
        simp only [free, kidsAt, update_of_ne hzq]
        exact List.Subset.refl _
      · by_cases hzq : z = q
        · rw [hzq]
          exact update_self ..
        · exact (update_of_ne hzq ..).trans hz
    case isFalse =>
      obtain ⟨rfl, rfl⟩ := Prod.mk.inj (Except.ok.inj hrun)
      exact ⟨rfl, hdm.broken hnd (fun _ _ => List.Subset.refl _) fun _ hz => hz⟩
  | succ depth ih =>
    intro m q t hlen hdm hrun
    have hlt : depth < path.branches.length := hlen
    rw [take_succ_eq_append_getElem hlt] at hdm
    obtain ⟨p, i, hx⟩ : ∃ p i, path.branches[depth] = ⟨p, i⟩ := ⟨_, _, rfl⟩
    rw [hx] at hdm
    have hx' : path.branches[depth]? = some ⟨p, i⟩ := by rw [getElem?_eq_getElem hlt, hx]
    obtain ⟨b, hp⟩ := hdm.toTraces.parent hnd
    obtain ⟨S, k, c, hc, -, -⟩ := hdm.hurt
    obtain ⟨bq, hq, -⟩ := kidsAt_branch hc
    have hsib : ∀ s ≤ b.count, s ≠ i → t.cells (b.children s) ≠ none := by
      intro s hs hsi h
      refine hwf.cells_ne_none _ (hp.walk.subset (hp.kid_subset s hs (mem_nodes_self ..))) ?_
      exact (hp.siblings s hs hsi _ (mem_nodes_self ..)).2.2.none_iff.mp h
    have hile := hp.index_le
    rw [Node.rebalanceBranch_succ hx' hq hp.cell (fun hi => hsib (i + 1) hi (by omega))
      fun hi => hsib (i - 1) (by omega) (by omega), rebalanceAt] at hrun
    split at hrun
    · obtain ⟨rfl, rfl⟩ := Prod.mk.inj (Except.ok.inj hrun)
      exact ⟨rfl, hdm.broken hnd (fun _ _ => List.Subset.refl _) fun _ hz => hz⟩
    split at hrun
    case isTrue hcase =>
      obtain ⟨t₁, hop, hrun⟩ := eq_ok_of_bind hrun
      obtain ⟨rfl, rfl⟩ := Prod.mk.inj (Except.ok.inj hrun)
      exact Branch.borrowRight_damaged hnd hdm hp hcase.1 hop
    split at hrun
    · obtain ⟨t₁, hop, -⟩ := eq_ok_of_bind hrun
      exact (Branch.borrowLeft_error _ _ _ _ _ _ _ _ hop).elim
    split at hrun
    case isTrue hcase =>
      obtain ⟨t₁, hop, hrun⟩ := eq_ok_of_bind hrun
      obtain ⟨h', rfl, hdm'⟩ := Branch.mergeRight_damaged hdm hp hcase.1 hop
      exact ih (t := { t with cells := h' }) (le_of_lt hlt) hdm' hrun
    split at hrun
    case isTrue hcase =>
      obtain ⟨t₁, hop, hrun⟩ := eq_ok_of_bind hrun
      obtain ⟨h', rfl, hdm'⟩ :=
        Branch.mergeLeft_damaged hdm.toTraces hp hst hdm.dangling hcase.1 hop
      exact ih (t := { t with cells := h' }) (le_of_lt hlt) hdm' hrun
    · exact absurd hrun (by simp)

end Run

end Fastore.Tree
