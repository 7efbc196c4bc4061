import Fastore.Tree.Separators
import Fastore.Tree.Arrays

/-!
Two neighbouring children of a branch exchange their contents.

Every rebalancing step takes two neighbours below one parent and either
moves one item over (two nodes remain) or joins them (one remains). What
has to be shown about the nodes that remain is the same in both cases:
they are well formed, separated, and hold together what the two held
before (`Walk.pair`). The node that was one item short gets its limit
back, and after a join the parent is the one that is short.
-/

namespace Fastore.Tree

open Lib List

variable {K V : Type}

theorem nodup_splice {α : Type} {A X Y C : List α} (h : (A ++ Y ++ C).Nodup) (hX : X.Nodup)
    (hsub : ∀ x ∈ X, x ∈ Y) : (A ++ X ++ C).Nodup := by
  rw [append_assoc, nodup_append, nodup_append] at h ⊢
  obtain ⟨hA, ⟨-, hC, hYC⟩, hAYC⟩ := h
  refine ⟨hA, ⟨hX, hC, fun a ha c hc => hYC a (hsub a ha) c hc⟩, fun a ha y hy => hAYC a ha y ?_⟩
  rcases mem_append.mp hy with hy | hy
  · exact mem_append_left _ (hsub y hy)
  · exact mem_append_right _ hy

/-- The limits with one item less for the node `q`. -/
def Bounds.slack (B : Bounds) (q : NodeId) : Bounds :=
  { B with min := fun z => if z = q then B.min z - 1 else B.min z }

theorem nodes_around_pair {h : Cells K V} {m j : ℕ} {p : NodeId} {b : Branch K}
    (hp : h p = some (.branch b)) (hj : j < b.count) : nodes h (m + 1) p =
      p :: ((window b.children 0 j).flatMap (nodes h m) ++
        (nodes h m (b.children j) ++ nodes h m (b.children (j + 1))) ++
        (window b.children (j + 2) (b.count - j - 1)).flatMap (nodes h m)) := by
  rw [nodes_branch m hp, b.kids_split_pair hj]
  simp

variable [LinearOrder K]

section Pair

variable {h h' : Cells K V} {B C : Bounds} {n m j : ℕ} {root p : NodeId} {bs : List PathNode}
  {b b' : Branch K} {X : List NodeId} {Y : List K}

omit [LinearOrder K] in
theorem not_mem_of_beside (hpnd : (nodes h (m + 1) p).Nodup) (hp : h p = some (.branch b))
    (hj : j < b.count) {c z : NodeId}
    (hc : c ∈ window b.children 0 j ++ window b.children (j + 2) (b.count - j - 1))
    (hz : z ∈ nodes h m c) : z ≠ p ∧ z ∉ nodes h m (b.children j) ∧
      z ∉ nodes h m (b.children (j + 1)) := by
  rw [nodes_around_pair hp hj, nodup_cons, append_assoc, nodup_append,
    nodup_append] at hpnd
  obtain ⟨hpn, -, ⟨-, -, hmid⟩, hfirst⟩ := hpnd
  rw [← not_or, ← mem_append]
  rcases mem_append.mp hc with hc | hc
  · have hmem := mem_flatMap.mpr ⟨c, hc, hz⟩
    refine ⟨?_, fun hzcd => hfirst z hmem z (mem_append_left _ hzcd) rfl⟩
    rintro rfl
    exact hpn (mem_append_left _ hmem)
  · have hmem := mem_flatMap.mpr ⟨c, hc, hz⟩
    refine ⟨?_, fun hzcd => hmid z hzcd z hmem rfl⟩
    rintro rfl
    exact hpn (mem_append_right _ (mem_append_right _ hmem))

theorem Walk.renew (w : Walk h n root bs m p) (hnd : (nodes h n root).Nodup) (hwf : WF h B n root)
    (hcap : C.cap = B.cap) (hko : C.keyOnly = B.keyOnly)
    (hout : ∀ z ∈ nodes h n root, z ∉ nodes h m p → h' z = h z ∧ C.min z ≤ B.min z)
    (hpwf : WF h' C m p) (hpE : entries h' m p = entries h m p) (hpnd : (nodes h' m p).Nodup)
    (hpsub : ∀ z ∈ nodes h' m p, z ∈ nodes h m p) :
    WF h' C n root ∧ entries h' n root = entries h n root ∧ (nodes h' n root).Nodup ∧
      (∀ z ∈ nodes h' n root, z ∈ nodes h n root) ∧ Walk h' n root bs m p := by
  obtain ⟨A, D, Na, Nb, -, -, hS, hS', hN, hN'⟩ := w.replace hnd fun z hz hzp => (hout z hz hzp).1
  refine ⟨?_, ?_, ?_, ?_, w.frame fun x hx => (hout _ (w.mem_branches hnd x hx).1
    (w.mem_branches hnd x hx).2).1⟩
  · refine w.wf hnd hcap hko (fun z hz hzp => (hout z hz hzp).1) (fun z hz hzp => (hout z hz hzp).2)
      hwf hpwf fun k hk => Or.inl ?_
    rwa [keysOf, hpE] at hk
  · rw [entries, entries, hS, hS', map_append, map_append, map_append,
      map_append]
    exact congrArg (fun E => _ ++ E ++ _) hpE
  · rw [hN']
    rw [hN] at hnd
    exact nodup_splice hnd hpnd hpsub
  · intro z hz
    rw [hN'] at hz
    rw [hN]
    simp only [mem_append] at hz ⊢
    rcases hz with (hz | hz) | hz
    · exact Or.inl (Or.inl hz)
    · exact Or.inl (Or.inr (hpsub z hz))
    · exact Or.inr hz

/-- **Two neighbours replaced** below their parent. -/
theorem Walk.pair (w : Walk h n root bs (m + 1) p) (hnd : (nodes h n root).Nodup)
    (hwf : WF h B n root) (hp : h p = some (.branch b)) (hj : j < b.count)
    (hc : keysOf h m (b.children j) ≠ []) (hd : keysOf h m (b.children (j + 1)) ≠ [])
    (hcap : C.cap = B.cap) (hko : C.keyOnly = B.keyOnly) (hp' : h' p = some (.branch b'))
    (hkids : b'.kids =
      window b.children 0 j ++ X ++ window b.children (j + 2) (b.count - j - 1))
    (hseps : b'.seps = window b.keys 0 j ++ Y ++ window b.keys (j + 1) (b.count - j - 1))
    (hother : ∀ z ∈ nodes h n root, z ≠ p → z ∉ nodes h m (b.children j) →
      z ∉ nodes h m (b.children (j + 1)) → h' z = h z ∧ C.min z ≤ B.min z)
    (hlo : C.min p ≤ b'.count + 1) (hhi : b'.count + 1 ≤ C.cap) (hX : ∀ x ∈ X, WF h' C m x)
    (hsep : Separated Y (X.map (keysOf h' m)))
    (hE : X.flatMap (entries h' m) =
      entries h m (b.children j) ++ entries h m (b.children (j + 1)))
    (hXnd : (X.flatMap (nodes h' m)).Nodup)
    (hXsub : ∀ z ∈ X.flatMap (nodes h' m),
      z ∈ nodes h m (b.children j) ++ nodes h m (b.children (j + 1))) :
    WF h' C n root ∧ entries h' n root = entries h n root ∧ (nodes h' n root).Nodup ∧
      (∀ z ∈ nodes h' n root, z ∈ nodes h n root) ∧ Walk h' n root bs (m + 1) p ∧
      ∀ z ∈ nodes h' (m + 1) p, z ∈ nodes h (m + 1) p := by
  have hpnd := w.nodup hnd
  obtain ⟨b₀, hb₀, -, -, hwfkids, hwfsep⟩ := w.wf_end hwf
  obtain rfl := Node.branch.inj (Option.some.inj (hp.symm.trans hb₀))
  -- the other children keep their cells and limits
  have hrest : ∀ c ∈ window b.children 0 j ++ window b.children (j + 2) (b.count - j - 1),
      c ∈ b.kids ∧ ∀ z ∈ nodes h m c, h' z = h z ∧ C.min z ≤ B.min z := by
    intro c hc
    have hmem : c ∈ b.kids := by
      rw [b.kids_split_pair hj]
      rcases mem_append.mp hc with hc | hc <;> simp [hc]
    refine ⟨hmem, fun z hz => ?_⟩
    obtain ⟨hzp, hzc, hzd⟩ := not_mem_of_beside hpnd hp hj hc hz
    exact hother z (w.subset (kid_nodes_subset hp hmem hz)) hzp hzc hzd
  have hl := fun c hc => hrest c (mem_append_left _ hc)
  have hr := fun c hc => hrest c (mem_append_right _ hc)
  have hpE : entries h' (m + 1) p = entries h (m + 1) p := by
    rw [entries_branch m hp, entries_branch m hp', b.kids_split_pair hj, hkids]
    simp only [flatMap_append, flatMap_cons, hE, append_assoc]
    rw [flatMap_congr fun c hc => entries_congr fun z hz => ((hl c hc).2 z hz).1,
      flatMap_congr fun c hc => entries_congr fun z hz => ((hr c hc).2 z hz).1]
  have hpN : nodes h' (m + 1) p = [p] ++ ((window b.children 0 j).flatMap (nodes h m) ++
      X.flatMap (nodes h' m) ++
        (window b.children (j + 2) (b.count - j - 1)).flatMap (nodes h m)) := by
    rw [nodes_branch m hp', hkids]
    simp only [flatMap_append, singleton_append]
    rw [flatMap_congr fun c hc => nodes_congr fun z hz => ((hl c hc).2 z hz).1,
      flatMap_congr fun c hc => nodes_congr fun z hz => ((hr c hc).2 z hz).1]
  have hpN' : (nodes h' (m + 1) p).Nodup := by
    rw [hpN, ← append_assoc, ← append_assoc]
    rw [nodes_around_pair hp hj, ← singleton_append, ← append_assoc,
      ← append_assoc] at hpnd
    exact nodup_splice hpnd hXnd hXsub
  have hpsub : ∀ z ∈ nodes h' (m + 1) p, z ∈ nodes h (m + 1) p := by
    intro z hz
    rw [hpN] at hz
    rw [nodes_around_pair hp hj]
    simp only [mem_append, mem_cons, not_mem_nil, or_false] at hz hXsub ⊢
    rcases hz with hz | (hz | hz) | hz
    · exact Or.inl hz
    · exact Or.inr (Or.inl (Or.inl hz))
    · exact Or.inr (Or.inl (Or.inr (hXsub z hz)))
    · exact Or.inr (Or.inr hz)
  have hpwf : WF h' C (m + 1) p := by
    refine ⟨b', hp', hlo, hhi, fun c hc => ?_, ?_⟩
    · rw [hkids] at hc
      rcases mem_append.mp hc with hc | hc
      · rcases mem_append.mp hc with hc | hc
        · exact (hwfkids c (hl c hc).1).congr hcap hko (fun z hz => ((hl c hc).2 z hz).1)
            fun z hz => ((hl c hc).2 z hz).2
        · exact hX c hc
      · exact (hwfkids c (hr c hc).1).congr hcap hko (fun z hz => ((hr c hc).2 z hz).1)
          fun z hz => ((hr c hc).2 z hz).2
    · rw [b.seps_split hj, b.kids_split_pair hj] at hwfsep
      rw [hseps, hkids]
      simp only [map_append, map_cons] at hwfsep ⊢
      rw [map_congr_left fun c hc => keysOf_congr fun z hz => ((hl c hc).2 z hz).1,
        map_congr_left fun c hc => keysOf_congr fun z hz => ((hr c hc).2 z hz).1]
      refine separated_splice (by simp) hwfsep hc hd hsep fun x hx => ?_
      have hflat : (X.map (keysOf h' m)).flatten =
          keysOf h m (b.children j) ++ keysOf h m (b.children (j + 1)) := by
        rw [keysOf, keysOf, ← map_append, ← hE, map_flatMap, flatMap_def]
        rfl
      rw [hflat] at hx
      exact mem_append.mp hx
  have hout : ∀ z ∈ nodes h n root, z ∉ nodes h (m + 1) p → h' z = h z ∧ C.min z ≤ B.min z := by
    intro z hz hzp
    rw [nodes_around_pair hp hj] at hzp
    simp only [mem_append, mem_cons, not_or] at hzp
    exact hother z hz hzp.1 hzp.2.1.2.1 hzp.2.1.2.2
  obtain ⟨hwf', hent, hnodup, hsub, hw⟩ := w.renew hnd hwf hcap hko hout hpwf hpE hpN' hpsub
  exact ⟨hwf', hent, hnodup, hsub, hw, hpsub⟩

end Pair

/-! ### Trees with one node short of an item -/

/-- A tree with contents `E` in which the node `q` may be one item short. -/
structure Loose (t : BTree K V) (n : ℕ) (q : NodeId) (E : List (K × Option V)) : Prop where
  under : t.Under n ((t.bounds n).slack q)
  capacity : 4 ≤ t.listCapacity
  contents : t.contents n = E

/-- A tree with contents `E`. -/
structure Settled (t : BTree K V) (n : ℕ) (E : List (K × Option V)) : Prop where
  shaped : t.Shaped n
  contents : t.contents n = E

theorem BTree.slack_min_pos {t : BTree K V} (hcap : 4 ≤ t.listCapacity) (n : ℕ) (q : NodeId)
    {z : NodeId} (hz : z ≠ t.root) : 1 ≤ ((t.bounds n).slack q).min z := by
  simp only [Bounds.slack, BTree.bounds, if_neg hz]
  split <;> omega

structure Neighbours (t : BTree K V) (n : ℕ) (bs : List PathNode) (m : ℕ) (p : NodeId)
    (b : Branch K) (j : ℕ) : Prop where
  walk : Walk t.cells n t.root bs (m + 1) p
  cell : t.cells p = some (.branch b)
  lt : j < b.count

section Neighbours

variable {t : BTree K V} {n m j : ℕ} {p q : NodeId} {bs : List PathNode} {b : Branch K}
  {E : List (K × Option V)}

namespace Neighbours

theorem walk_left (hn : Neighbours t n bs m p b j) :
    Walk t.cells n t.root (bs ++ [⟨p, j⟩]) m (b.children j) :=
  hn.walk.snoc hn.cell (le_of_lt hn.lt)

theorem walk_right (hn : Neighbours t n bs m p b j) :
    Walk t.cells n t.root (bs ++ [⟨p, j + 1⟩]) m (b.children (j + 1)) :=
  hn.walk.snoc hn.cell hn.lt

theorem apart (hn : Neighbours t n bs m p b j) (hnd : (nodes t.cells n t.root).Nodup) :
    (nodes t.cells m (b.children j) ++ nodes t.cells m (b.children (j + 1))).Nodup ∧
      p ∉ nodes t.cells m (b.children j) ∧ p ∉ nodes t.cells m (b.children (j + 1)) := by
  have hpnd := hn.walk.nodup hnd
  rw [nodes_around_pair hn.cell hn.lt, nodup_cons, append_assoc, nodup_append,
    nodup_append] at hpnd
  obtain ⟨hp, -, ⟨hcd, -, -⟩, -⟩ := hpnd
  refine ⟨hcd, fun h => hp ?_, fun h => hp ?_⟩
  · exact mem_append_right _ (mem_append_left _ (mem_append_left _ h))
  · exact mem_append_right _ (mem_append_left _ (mem_append_right _ h))

theorem keys_ne_nil (hn : Neighbours t n bs m p b j) {B : Bounds} (hu : t.Under n B) :
    keysOf t.cells m (b.children j) ≠ [] ∧ keysOf t.cells m (b.children (j + 1)) ≠ [] := by
  have hpos := hu.kid_pos hn.walk hn.cell
  constructor
  · simpa [keysOf] using (hn.walk_left.wf_end hu.wf).entries_ne_nil
      (hpos _ (Branch.mem_kids.mpr ⟨j, le_of_lt hn.lt, rfl⟩))
  · simpa [keysOf] using (hn.walk_right.wf_end hu.wf).entries_ne_nil
      (hpos _ (Branch.mem_kids.mpr ⟨j + 1, hn.lt, rfl⟩))

theorem sorted (hn : Neighbours t n bs m p b j) {B : Bounds} (hu : t.Under n B) :
    (keysOf t.cells m (b.children j) ++ keysOf t.cells m (b.children (j + 1))).Pairwise
      (· < ·) := by
  have hs := (hn.walk.wf_end hu.wf).sorted (hn.walk.nodup hu.nodup) fun z hz hzp => by
    rw [nodes_branch m hn.cell] at hz
    rcases mem_cons.mp hz with rfl | hz
    · exact absurd rfl hzp
    · obtain ⟨c, hc, hz⟩ := mem_flatMap.mp hz
      exact hu.kid_pos hn.walk hn.cell c hc z hz
  rw [keysOf, entries_branch m hn.cell, b.kids_split_pair hn.lt] at hs
  simp only [flatMap_append, flatMap_cons, map_append] at hs
  rw [pairwise_append] at hs
  rw [← append_assoc] at hs
  exact (pairwise_append.mp hs.2.1).1

theorem parent_limits (hn : Neighbours t n bs m p b j) (hl : Loose t n q E)
    (hq : q = b.children j ∨ q = b.children (j + 1)) :
    (t.bounds n).min p ≤ b.count + 1 ∧ b.count + 1 ≤ t.listCapacity := by
  obtain ⟨b₀, hb₀, hlo, hhi, -, -⟩ := hn.walk.wf_end hl.under.wf
  obtain rfl := Node.branch.inj (Option.some.inj (hn.cell.symm.trans hb₀))
  obtain ⟨-, hpc, hpd⟩ := hn.apart hl.under.nodup
  have hpq : p ≠ q := by
    rcases hq with rfl | rfl
    · exact fun h => hpc (h ▸ mem_nodes_self ..)
    · exact fun h => hpd (h ▸ mem_nodes_self ..)
  rw [Bounds.slack] at hlo
  exact ⟨by simpa [hpq] using hlo, hhi⟩

theorem ne_of_not_mem (hq : q = b.children j ∨ q = b.children (j + 1)) {z : NodeId}
    (hzc : z ∉ nodes t.cells m (b.children j)) (hzd : z ∉ nodes t.cells m (b.children (j + 1))) :
    z ≠ q := by
  rintro rfl
  rcases hq with rfl | rfl
  · exact hzc (mem_nodes_self ..)
  · exact hzd (mem_nodes_self ..)

/-- **Borrowing**: the two nodes share their contents anew, and the
separator between them is renewed. -/
theorem keep {h' : Cells K V} {k : K} (hn : Neighbours t n bs m p b j) (hl : Loose t n q E)
    (hq : q = b.children j ∨ q = b.children (j + 1))
    (hp' : h' p = some (.branch (b.setSep (j + 1) k)))
    (hother : ∀ z, z ≠ p → z ∉ nodes t.cells m (b.children j) →
      z ∉ nodes t.cells m (b.children (j + 1)) → h' z = t.cells z)
    (hc : WF h' t.inner m (b.children j)) (hd : WF h' t.inner m (b.children (j + 1)))
    (hE : entries h' m (b.children j) ++ entries h' m (b.children (j + 1)) =
      entries t.cells m (b.children j) ++ entries t.cells m (b.children (j + 1)))
    (hN : (nodes h' m (b.children j) ++ nodes h' m (b.children (j + 1))).Perm
      (nodes t.cells m (b.children j) ++ nodes t.cells m (b.children (j + 1))))
    (hbelow : ∀ x ∈ keysOf h' m (b.children j), x < k)
    (habove : ∀ x ∈ keysOf h' m (b.children (j + 1)), k ≤ x) :
    Settled { t with cells := h' } n E := by
  obtain ⟨hcd, -, -⟩ := hn.apart hl.under.nodup
  obtain ⟨hlo, hhi⟩ := hn.parent_limits hl hq
  obtain ⟨hcne, hdne⟩ := hn.keys_ne_nil hl.under
  obtain ⟨hwf, hent, hnd, hsub, -, -⟩ := hn.walk.pair (C := t.bounds n) (Y := [k])
    (X := [b.children j, b.children (j + 1)]) hl.under.nodup hl.under.wf hn.cell hn.lt hcne hdne
    rfl rfl hp' (by rw [b.kids_setSep, b.kids_split_pair hn.lt]; simp)
    (by rw [b.seps_setSep k hn.lt]; simp)
    (fun z _ hzp hzc hzd => ⟨hother z hzp hzc hzd, by
      simp [Bounds.slack, ne_of_not_mem hq hzc hzd]⟩)
    hlo hhi
    (by
      intro x hx
      rcases mem_pair.mp hx with rfl | rfl
      · exact hc.of_inner hl.capacity
      · exact hd.of_inner hl.capacity)
    ⟨hbelow, habove, trivial⟩ (by simpa using hE) (by simpa using hN.nodup_iff.mpr hcd)
    (fun z hz => hN.mem_iff.mp (by simpa using hz))
  exact ⟨⟨hwf, hnd, fun z hz => hl.under.fresh z (hsub z hz)⟩, hent.trans hl.contents⟩

/-- **Joining**: the left node takes everything, and the parent loses a
child. -/
theorem join {h' : Cells K V} (hn : Neighbours t n bs m p b j) (hl : Loose t n q E)
    (hq : q = b.children j ∨ q = b.children (j + 1))
    (hp' : h' p = some (.branch (b.branchDelete j)))
    (hother : ∀ z, z ≠ p → z ∉ nodes t.cells m (b.children j) →
      z ∉ nodes t.cells m (b.children (j + 1)) → h' z = t.cells z)
    (hc : WF h' t.inner m (b.children j))
    (hE : entries h' m (b.children j) =
      entries t.cells m (b.children j) ++ entries t.cells m (b.children (j + 1)))
    (hN : (nodes h' m (b.children j)).Nodup)
    (hNsub : ∀ z ∈ nodes h' m (b.children j),
      z ∈ nodes t.cells m (b.children j) ++ nodes t.cells m (b.children (j + 1))) :
    Loose { t with cells := h' } n p E ∧ Walk h' n t.root bs (m + 1) p ∧
      ∀ z ∈ nodes h' (m + 1) p, z ∈ nodes t.cells (m + 1) p := by
  obtain ⟨hlo, hhi⟩ := hn.parent_limits hl hq
  obtain ⟨hcne, hdne⟩ := hn.keys_ne_nil hl.under
  have hlt := hn.lt
  have hcount : (b.branchDelete j).count = b.count - 1 := rfl
  obtain ⟨hwf, hent, hnd, hsub, hw, hpsub⟩ := hn.walk.pair (C := (t.bounds n).slack p) (Y := [])
    (X := [b.children j]) hl.under.nodup hl.under.wf hn.cell hn.lt hcne hdne rfl rfl hp'
    (by rw [b.kids_branchDelete hn.lt, window_succ_last]; simp)
    (by rw [b.seps_branchDelete hn.lt]; simp)
    (fun z _ hzp hzc hzd => ⟨hother z hzp hzc hzd, by
      simp [Bounds.slack, ne_of_not_mem hq hzc hzd, hzp]⟩)
    (by simp only [Bounds.slack, if_true]; omega)
    (by rw [hcount]; simp only [Bounds.slack, BTree.bounds]; omega)
    (by
      intro x hx
      obtain rfl := mem_singleton.mp hx
      refine (hc.of_inner (n := n) hl.capacity).congr rfl rfl (fun _ _ => rfl) fun z _ => ?_
      simp only [Bounds.slack]
      split <;> omega)
    trivial (by simpa using hE) (by simpa using hN) (fun z hz => hNsub z (by simpa using hz))
  exact ⟨⟨⟨hwf, hnd, fun z hz => hl.under.fresh z (hsub z hz),
    fun z _ hz => BTree.slack_min_pos hl.capacity n p hz⟩, hl.capacity, hent.trans hl.contents⟩,
    hw, hpsub⟩

end Neighbours

end Neighbours

end Fastore.Tree
