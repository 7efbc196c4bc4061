import Fastore.Tree.Search

/-!
Renewing separators.

A deletion renews the separator on the left of a child whose first key
has changed. This writes a key and nothing else: `Rekeyed` relates two
heaps that differ only in the keys of branches, and contents, addresses
and walks are the same in both. The new separator is the first key below
the child, which is always a legal one, so every limit a tree kept before
it keeps afterwards (`setSep_wf`, `Node.updateKey_spec`).
-/

namespace Fastore.Tree

open Lib List Function

variable {K V : Type}

def SameFrame (x y : Option (Node K V)) : Prop :=
  x = y ∨ ∃ b b' : Branch K, x = some (.branch b) ∧ y = some (.branch b') ∧ b'.count = b.count ∧
    b'.children = b.children

def Rekeyed (h h' : Cells K V) : Prop := ∀ z, SameFrame (h z) (h' z)

theorem SameFrame.refl (x : Option (Node K V)) : SameFrame x x := Or.inl rfl

variable {B : Bounds} {b : Branch K} {h h' : Cells K V} {k : K} {bs : List PathNode} {p q : NodeId}
  {x : Option (Node K V)} {path : Path} {j m n : ℕ}

theorem SameFrame.trans {y z : Option (Node K V)} (h₁ : SameFrame x y) (h₂ : SameFrame y z) :
    SameFrame x z := by
  rcases h₁ with rfl | ⟨b, b', rfl, rfl, hc, hk⟩
  · exact h₂
  · rcases h₂ with rfl | ⟨b₂, b₃, h₂, rfl, hc', hk'⟩
    · exact Or.inr ⟨b, b', rfl, rfl, hc, hk⟩
    · obtain rfl := Node.branch.inj (Option.some.inj h₂)
      exact Or.inr ⟨b, b₃, rfl, rfl, hc'.trans hc, hk'.trans hk⟩

theorem SameFrame.branch (h : SameFrame (some (.branch b)) x) :
    ∃ b' : Branch K, x = some (.branch b') ∧
      b'.count = b.count ∧ b'.children = b.children := by
  rcases h with rfl | ⟨b₁, b₂, h₁, rfl, hc, hk⟩
  · exact ⟨b, rfl, rfl, rfl⟩
  · obtain rfl := Node.branch.inj (Option.some.inj h₁)
    exact ⟨b₂, rfl, hc, hk⟩

theorem SameFrame.leaf {l : Leaf K V} (h : SameFrame (some (.leaf l)) x) : x = some (.leaf l) := by
  rcases h with rfl | ⟨b₁, b₂, h₁, -⟩
  · rfl
  · exact absurd (Option.some.inj h₁) (by simp)

theorem SameFrame.none_iff {y : Option (Node K V)} (h : SameFrame x y) : y = none ↔ x = none := by
  rcases h with rfl | ⟨b₁, b₂, rfl, rfl, -⟩
  · exact Iff.rfl
  · simp

theorem Rekeyed.refl (h : Cells K V) : Rekeyed h h := fun z => .refl (h z)

theorem SameFrame.kidsAt {z : NodeId} (hs : SameFrame (h z) (h' z)) : kidsAt h' z = kidsAt h z := by
  rcases hs with heq | ⟨b, b', hb, hb', hc, hk⟩
  · simp only [Tree.kidsAt, heq]
  · rw [kidsAt_of_branch hb, kidsAt_of_branch hb', Branch.kids, Branch.kids, hc, hk]

theorem Rekeyed.kidsAt (hr : Rekeyed h h') (z : NodeId) :
    kidsAt h' z = kidsAt h z := (hr z).kidsAt

theorem Rekeyed.leafSpots (hr : Rekeyed h h') (z : NodeId) : leafSpots h' z = leafSpots h z := by
  rcases hr z with heq | ⟨b, b', hb, hb', -⟩
  · simp only [Tree.leafSpots, heq]
  · simp only [Tree.leafSpots, hb, hb']

theorem Rekeyed.nodes (hr : Rekeyed h h') (n : ℕ) (p : NodeId) :
    nodes h' n p = nodes h n p := nodes_of_kidsAt fun z _ => hr.kidsAt z

theorem Rekeyed.spots (hr : Rekeyed h h') (n : ℕ) (p : NodeId) :
    spots h' n p = spots h n p := spots_of_kidsAt (fun z _ => hr.kidsAt z) fun z _ => hr.leafSpots z

theorem Rekeyed.entries (hr : Rekeyed h h') (n : ℕ) (p : NodeId) :
    entries h' n p = entries h n p := by
  rw [Tree.entries, Tree.entries, hr.spots]

theorem Rekeyed.keysOf (hr : Rekeyed h h') (n : ℕ) (p : NodeId) : keysOf h' n p = keysOf h n p := by
  rw [Tree.keysOf, Tree.keysOf, hr.entries]

theorem Walk.sameFrame (w : Walk h n p bs m q) (hs : ∀ x ∈ bs, SameFrame (h x.pNode) (h' x.pNode)) :
    Walk h' n p bs m q := by
  induction w with
  | nil => exact .nil _ _
  | @cons n m i p q b bs hp hi _ ih =>
    obtain ⟨b', hb', hc, hk⟩ := SameFrame.branch (hp ▸ hs ⟨p, i⟩ (mem_cons_self ..))
    exact .cons hb' (hc ▸ hi) (hk ▸ ih fun x hx => hs x (mem_cons_of_mem _ hx))

theorem Rekeyed.walk (hr : Rekeyed h h') (w : Walk h n p bs m q) : Walk h' n p bs m q :=
  w.sameFrame fun x _ => hr x.pNode

/-! ### One separator -/

def Branch.setSep (b : Branch K) (i : ℕ) (k : K) : Branch K :=
  { b with keys := update b.keys (i - 1) k }

theorem Branch.seps_setSep (b : Branch K) (k : K) (hj : j < b.count) :
    (b.setSep (j + 1) k).seps =
      window b.keys 0 j ++ k :: window b.keys (j + 1) (b.count - j - 1) := by
  rw [Branch.seps_split (b.setSep (j + 1) k) hj]
  simp only [Branch.setSep, Nat.add_sub_cancel]
  rw [window_update_outside _ _ _ (by omega), window_update_outside _ _ _ (by omega),
    update_self]

theorem Branch.kids_setSep (b : Branch K) (i : ℕ) (k : K) : (b.setSep i k).kids = b.kids := rfl

theorem rekeyed_setSep (hq : h q = some (.branch b)) (i : ℕ) (k : K) :
    Rekeyed h (update h q (some (.branch (b.setSep i k)))) := by
  intro z
  by_cases hz : z = q
  · subst hz
    rw [update_self, hq]
    exact Or.inr ⟨b, _, rfl, rfl, rfl, rfl⟩
  · rw [update_of_ne hz]
    exact .refl _

variable [LinearOrder K]

/-- A separator may be the first key behind it. -/
theorem setSep_wf (w : Walk h n p bs (m + 1) q) (hnd : (nodes h n p).Nodup) (hwf : WF h B n p)
    (hq : h q = some (.branch b)) (hj : j < b.count)
    (hpos : ∀ c ∈ b.kids, ∀ z ∈ nodes h m c, 1 ≤ B.min z)
    (hk : (keysOf h m (b.children (j + 1))).head? = some k) :
    WF (update h q (some (.branch (b.setSep (j + 1) k)))) B n p := by
  have hr := rekeyed_setSep hq (j + 1) k
  have hout : ∀ z ∈ nodes h n p, z ∉ nodes h (m + 1) q →
      update h q (some (.branch (b.setSep (j + 1) k))) z = h z := by
    intro z _ hz
    refine update_of_ne ?_ ..
    rintro rfl
    exact hz (mem_nodes_self ..)
  have hqnd := w.nodup hnd
  have hqwf := w.wf_end hwf
  refine w.wf hnd rfl rfl hout (fun _ _ _ => le_refl _) hwf ?_ fun k' hk' => Or.inl ?_
  · obtain ⟨b₀, hb₀, hlo, hhi, hkids, hsep⟩ := id hqwf
    obtain rfl := Node.branch.inj (Option.some.inj (hq.symm.trans hb₀))
    have hapart : ∀ c ∈ b.kids, ∀ z ∈ nodes h m c, z ≠ q := by
      rw [nodes_branch m hq, nodup_cons] at hqnd
      intro c hc z hz heq
      exact hqnd.1 (heq ▸ mem_flatMap.mpr ⟨c, hc, hz⟩)
    refine .branch (update_self ..) (fun c hc z hz => ?_) hlo hhi hkids ?_
    · exact update_of_ne (hapart c hc z hz) ..
    · rw [b.seps_setSep k hj, b.kids_setSep, b.kids_split_pair hj]
      rw [b.seps_split hj, b.kids_split_pair hj] at hsep
      simp only [map_append, map_cons] at hsep ⊢
      obtain ⟨h₁, h₂, h₃, h₄⟩ := (separated_cut (by simp)).mp hsep
      obtain ⟨R, hR⟩ := head?_eq_some_iff.mp hk
      refine (separated_cut (by simp)).mpr ⟨h₁, fun x hx => ?_, fun x hx => ?_, h₄⟩
      · exact lt_of_lt_of_le (h₂ x hx) (h₃ k (by simp [hR]))
      · have hkid : b.children (j + 1) ∈ b.kids := Branch.mem_kids.mpr ⟨j + 1, by omega, rfl⟩
        have hcnd : (nodes h m (b.children (j + 1))).Nodup := by
          rw [nodes_branch m hq, nodup_cons, nodup_flatMap] at hqnd
          exact hqnd.2.1 _ hkid
        have hs := (hkids _ hkid).sorted hcnd fun z hz _ => hpos _ hkid z hz
        exact (lt_and_le_of_head (L := []) (by simpa using hs) hk).2 x hx
  · rwa [hr.keysOf] at hk'

/-! ### `UpdateKey` -/

/-- What holds of a tree while it is rebalanced: well formed under some
limits, all of them positive below the root. -/
structure BTree.Under (t : BTree K V) (n : ℕ) (B : Bounds) : Prop where
  wf : WF t.cells B n t.root
  nodup : (nodes t.cells n t.root).Nodup
  fresh : ∀ z ∈ nodes t.cells n t.root, z < t.next
  pos : ∀ z ∈ nodes t.cells n t.root, z ≠ t.root → 1 ≤ B.min z

variable {t : BTree K V}

theorem BTree.Under.height_lt_next (ht : t.Under n B) :
    n < t.next := height_lt_next_of ht.wf ht.nodup ht.fresh

theorem BTree.Under.kid_pos (ht : t.Under n B) (w : Walk t.cells n t.root bs (m + 1) q)
    (hq : t.cells q = some (.branch b)) : ∀ c ∈ b.kids, ∀ z ∈ nodes t.cells m c, 1 ≤ B.min z := by
  intro c hc z hz
  obtain ⟨i, hi, rfl⟩ := Branch.mem_kids.mp hc
  have hw := w.snoc hq hi
  refine ht.pos z (hw.subset hz) ?_
  rintro rfl
  exact hw.top_not_mem ht.nodup (by simp) hz

theorem BTree.Under.childKey {i : ℕ} (ht : t.Under n B) (w : Walk t.cells n t.root bs (m + 1) q)
    (hq : t.cells q = some (.branch b)) (hi : i ≤ b.count) :
    ∃ k, t.childKey (b.children i) = .ok k ∧
      (keysOf t.cells m (b.children i)).head? = some k := by
  have hm : m < t.next := by
    have := w.height
    have := ht.height_lt_next
    omega
  exact Node.getChildKey_eq t hm ((w.snoc hq hi).wf_end ht.wf)
    (ht.kid_pos w hq _ (Branch.mem_kids.mpr ⟨i, hi, rfl⟩))

def BTree.renewKey (t : BTree K V) (x : PathNode) : Except Fault (BTree K V) := do
  let b ← t.branchAt x.pNode
  let key ← t.childKey (b.children x.index)
  .ok (t.set x.pNode (.branch (b.setSep x.index key)))

theorem BTree.renewKey_eq {x : PathNode} (hx : t.cells x.pNode = some (.branch b))
    (hk : t.childKey (b.children x.index) = .ok k) :
    t.renewKey x = .ok (t.set x.pNode (.branch (b.setSep x.index k))) := by
  simp only [BTree.renewKey, BTree.branchAt, hx, bind, Except.bind, hk]

/-- The branch whose separator `UpdateKey` renews, if any: for the first
child of a branch the search goes on along the path, but never reaches its
first branch. -/
def Path.keyHolder (path : Path) : ℕ → PathNode → Option PathNode
  | 0, x => if x.index ≠ 0 then some x else none
  | depth + 1, x =>
    if x.index ≠ 0 then some x else path.branches[depth + 1]?.bind (path.keyHolder depth)

theorem Path.keyHolder_self {x : PathNode} (hx : x.index ≠ 0) (depth : ℕ) :
    path.keyHolder depth x = some x := by
  cases depth with
  | zero => exact if_pos hx
  | succ depth => exact if_pos hx

theorem Path.keyHolder_some : ∀ {depth : ℕ} {x y : PathNode},
    path.keyHolder depth x = some y → y.index ≠ 0 ∧ (y = x ∨ x.index = 0 ∧
      ∃ k, 0 < k ∧ k ≤ depth ∧ path.branches[k]? = some y ∧
        ∀ k', k < k' → k' ≤ depth → ∀ z, path.branches[k']? = some z → z.index = 0) := by
  intro depth
  induction depth with
  | zero =>
    intro x y h
    rw [Path.keyHolder] at h
    split at h
    case isTrue hx =>
      obtain rfl := Option.some.inj h
      exact ⟨hx, Or.inl rfl⟩
    case isFalse => simp at h
  | succ depth ih =>
    intro x y h
    by_cases hx : x.index = 0
    · rw [Path.keyHolder, if_neg (not_not.mpr hx)] at h
      obtain ⟨z, hz, h⟩ := Option.bind_eq_some_iff.mp h
      obtain ⟨hy, rfl | ⟨hz0, k, hpos, hle, hk, hlater⟩⟩ := ih h
      · exact ⟨hy, Or.inr ⟨hx, depth + 1, by omega, le_refl _, hz, fun k' _ _ => by omega⟩⟩
      · refine ⟨hy, Or.inr ⟨hx, k, hpos, by omega, hk, fun k' hk' hle' z' hz' => ?_⟩⟩
        by_cases hlast : k' = depth + 1
        · obtain rfl := Option.some.inj (hz.symm.trans (hlast ▸ hz'))
          exact hz0
        · exact hlater k' hk' (by omega) z' hz'
    · rw [Path.keyHolder_self hx] at h
      obtain rfl := Option.some.inj h
      exact ⟨hx, Or.inl rfl⟩

theorem Node.updateKey_eq : ∀ {depth : ℕ} {x : PathNode},
    depth < path.branches.length → Node.updateKey path depth t x.pNode x.index =
      ((path.keyHolder depth x).map t.renewKey).getD (.ok t) := by
  intro depth
  induction depth with
  | zero =>
    intro x hlen
    have hx : path.branches[0]? = some path.branches[0] := getElem?_eq_getElem hlen
    unfold Node.updateKey
    simp only [Path.at, hx, bind, Except.bind, Path.keyHolder]
    split <;> rfl
  | succ depth ih =>
    intro x hlen
    have hx : path.branches[depth + 1]? = some path.branches[depth + 1] :=
      getElem?_eq_getElem hlen
    unfold Node.updateKey
    simp only [Path.at, hx, bind, Except.bind, Path.keyHolder, Option.bind_some]
    split
    case isTrue => rfl
    case isFalse => exact ih (by omega)

theorem Node.updateKey_direct {x : PathNode} {depth : ℕ} (hx : path.branches[depth]? = some x)
    (hq : t.cells q = some (.branch b)) (hk : t.childKey (b.children (j + 1)) = .ok k) :
    Node.updateKey path depth t q (j + 1) = .ok (t.set q (.branch (b.setSep (j + 1) k))) := by
  have hlen : depth < path.branches.length := (List.getElem?_eq_some_iff.mp hx).1
  rw [Node.updateKey_eq (x := ⟨q, j + 1⟩) hlen, Path.keyHolder_self (Nat.succ_ne_zero j)]
  exact BTree.renewKey_eq hq hk

theorem Rekeyed.under (ht : t.Under n B) (hr : Rekeyed t.cells h') (hwf : WF h' B n t.root) :
    { t with cells := h' }.Under n B := by
  refine ⟨hwf, ?_, ?_, ?_⟩
  · exact hr.nodes n t.root ▸ ht.nodup
  · exact fun z hz => ht.fresh z (hr.nodes n t.root ▸ hz)
  · exact fun z hz => ht.pos z (hr.nodes n t.root ▸ hz)

/-- **`UpdateKey`** changes at most one separator, and keeps every limit
the tree is under. -/
theorem Node.updateKey_spec (path : Path) (ht : t.Under n B) {depth i : ℕ}
    (w : Walk t.cells n t.root bs (m + 1) q) (hq : t.cells q = some (.branch b)) (hi : i ≤ b.count)
    (hpath : ∃ m c, Walk t.cells n t.root (path.branches.take (depth + 1)) m c)
    (hlen : depth < path.branches.length) :
    ∃ h', Node.updateKey path depth t q i = .ok { t with cells := h' } ∧
      Rekeyed t.cells h' ∧ { t with cells := h' }.Under n B := by
  rw [Node.updateKey_eq (x := ⟨q, i⟩) hlen]
  cases hy : path.keyHolder depth ⟨q, i⟩ with
  | none => exact ⟨t.cells, rfl, .refl _, ht⟩
  | some y =>
    obtain ⟨hne, hat⟩ := Path.keyHolder_some hy
    -- the holder is the branch that is called or one of the path
    obtain ⟨bs', l, b', hw', hb', hi'⟩ : ∃ bs' l, ∃ b' : Branch K,
        Walk t.cells n t.root bs' (l + 1) y.pNode ∧ t.cells y.pNode = some (.branch b') ∧
          y.index ≤ b'.count := by
      rcases hat with rfl | ⟨-, k, -, hle, hk, -⟩
      · exact ⟨bs, m, b, w, hq, hi⟩
      · obtain ⟨m', c, w'⟩ := hpath
        have hk' : (path.branches.take (depth + 1))[k]? = some y := by
          rw [getElem?_take_of_lt (by omega), hk]
        obtain ⟨b', l, hw', hb', hi', -⟩ := w'.at hk'
        exact ⟨_, l, b', hw', hb', hi'⟩
    obtain ⟨j, hj⟩ : ∃ j, y.index = j + 1 := ⟨y.index - 1, by omega⟩
    obtain ⟨key, hk, hhead⟩ := ht.childKey hw' hb' hi'
    rw [hj] at hi' hhead
    refine ⟨_, BTree.renewKey_eq hb' hk, rekeyed_setSep hb' _ _,
      Rekeyed.under ht (rekeyed_setSep hb' _ _) ?_⟩
    rw [hj]
    exact setSep_wf hw' ht.nodup ht.wf hb' hi' (ht.kid_pos hw' hb') hhead

end Fastore.Tree
