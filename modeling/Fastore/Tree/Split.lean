import Fastore.Tree.Search
import Fastore.Tree.Arrays
import Mathlib.Data.List.Perm.Basic

/-!
Splits, and how they travel up the tree.

A split hands a new node up to the parent, and until some branch has room
for it (or a new root is made) the tree is without the contents of that
node. `Pending` is this intermediate state: a well-formed tree, a node of
it on the way to the key, and beside it a detached subtree that belongs
immediately to its right. The loop of `BTree::Insert` moves a pending
state one level up with every turn (`Branch.insert_spec`), and what the
tree will hold in the end, `S`, stays the same throughout.
-/

namespace Fastore.Tree

open Lib List Function BTree

variable {K V : Type} [LinearOrder K]

/-- The split `s` of the node `c`, at the end of the walk `bs`, is still to
be entered into the tree. -/
structure Pending (t : BTree K V) (n : ℕ) (bs : List PathNode) (m : ℕ) (c : NodeId) (s : Split K)
    (S : List (NodeId × K × Option V)) : Prop where
  /-- Nothing is split before the nodes have their full size. -/
  capacity : t.listCapacity = defaultListCapacity
  shaped : t.Shaped n
  walk : Walk t.cells n t.root bs m c
  left : WF t.cells t.inner m c
  right : WF t.cells t.inner m s.right
  nodup : (nodes t.cells n t.root ++ nodes t.cells m s.right).Nodup
  fresh : ∀ z ∈ nodes t.cells m s.right, z < t.next
  sorted : (keysOf t.cells m c ++ keysOf t.cells m s.right).Pairwise (· < ·)
  head : (keysOf t.cells m s.right).head? = some s.key
  fits : ∀ k ∈ keysOf t.cells m s.right, Fits t.cells bs k
  /-- The contents once the split is entered. -/
  contents : S = fill t.cells n bs (spots t.cells m c ++ spots t.cells m s.right)

/-- The branch `b` at `q` with the pending child in it is `b'`, whatever
the capacity allows. -/
structure Overfull (t : BTree K V) (n : ℕ) (bs : List PathNode) (m : ℕ) (q : NodeId) (s : Split K)
    (S : List (NodeId × K × Option V)) (b b' : Branch K) : Prop where
  walk : Walk t.cells n t.root bs (m + 1) q
  cell : t.cells q = some (.branch b)
  kids : ∀ c ∈ b'.kids, WF t.cells t.inner m c
  separated : Separated b'.seps (b'.kids.map (keysOf t.cells m))
  perm : (b'.kids.flatMap (nodes t.cells m)).Perm
    (nodes t.cells m s.right ++ b.kids.flatMap (nodes t.cells m))
  apart : ∀ c ∈ b'.kids, ∀ z ∈ nodes t.cells m c, z ≠ q ∧ z < t.next
  fits : ∀ c ∈ b'.kids, ∀ k ∈ keysOf t.cells m c, Fits t.cells bs k
  contents : S = fill t.cells n bs (b'.kids.flatMap (spots t.cells m))

variable {b b' : Branch K} {h' : Cells K V} {l' : Leaf K V} {v : Option V}

section Step

variable {t : BTree K V} {n m i : ℕ} {q c : NodeId} {bs : List PathNode} {s : Split K}
  {S : List (NodeId × K × Option V)}

theorem Pending.four_le (hp : Pending t n bs m c s S) : 4 ≤ t.listCapacity := by
  rw [hp.capacity]
  decide

/-- The parent takes the new child, and may be too full. -/
theorem Pending.overfull (hp : Pending t n (bs ++ [⟨q, i⟩]) m c s S) :
    ∃ b : Branch K, i ≤ b.count ∧
      Overfull t n bs m q s S b (b.internalInsertIndex i s.key s.right) := by
  obtain ⟨b, hw, hq, hi, rfl⟩ := hp.walk.unsnoc
  obtain ⟨hnd, -, hdis⟩ := nodup_append.mp hp.nodup
  have hqnd := hw.nodup hnd
  have hmem : ∀ c ∈ (b.internalInsertIndex i s.key s.right).kids, c = s.right ∨ c ∈ b.kids :=
    fun c hc => mem_cons.mp ((b.kids_insert_perm s.key s.right hi).mem_iff.mp hc)
  obtain ⟨hbelow, habove⟩ := lt_and_le_of_head hp.sorted hp.head
  refine ⟨b, hi, ⟨hw, hq, ?_, ?_, ?_, ?_, ?_, ?_⟩⟩
  · intro c hc
    rcases hmem c hc with rfl | hc
    · exact hp.right
    · obtain ⟨j, hj, rfl⟩ := Branch.mem_kids.mp hc
      exact hp.shaped.inner (hw.snoc hq hj) (by simp)
  · have hsep := (hw.wf_end hp.shaped.wf).separated hq
    rw [b.kids_split hi, b.seps_cut hi, map_append, map_cons] at hsep
    rw [b.kids_internalInsertIndex _ _ hi, b.seps_internalInsertIndex _ _ hi, window_succ_last,
      append_assoc, singleton_append, map_append, map_cons, map_cons,
      Nat.zero_add]
    refine separated_insert (by simp) hsep hbelow habove fun x hx => ?_
    exact (hp.fits x hx ⟨q, i⟩ (by simp) b hq).2
  · exact (b.kids_insert_perm s.key s.right hi).flatMap_right _
  · intro c hc z hz
    rcases hmem c hc with rfl | hc
    · refine ⟨fun heq => ?_, hp.fresh z hz⟩
      exact hdis q (hw.subset (mem_nodes_self _ _ q)) z hz heq.symm
    · refine ⟨?_, hp.shaped.fresh z (hw.subset (kid_nodes_subset hq hc hz))⟩
      rintro rfl
      rw [nodes_branch m hq, nodup_cons] at hqnd
      exact hqnd.1 (mem_flatMap.mpr ⟨c, hc, hz⟩)
  · intro c hc k hk
    rcases hmem c hc with rfl | hc
    · exact fun x hx => hp.fits k hk x (mem_append_left _ hx)
    · obtain ⟨e, he, rfl⟩ := mem_map.mp hk
      refine (hw.fits hp.shaped.wf hnd (bounds_min_pos fun _ => hp.four_le) ?_).1
      rw [keysOf, entries_branch m hq]
      exact mem_map_of_mem (mem_flatMap.mpr ⟨c, hc, he⟩)
  · rw [hp.contents, hw.fill_snoc hq hi, b.kids_internalInsertIndex _ _ hi, window_succ_last]
    simp

/-- What an insertion step leaves: a tree with the new contents, or a
pending split. -/
def Outcome (t : BTree K V) (n : ℕ) (bs : List PathNode) (m : ℕ) (c : NodeId)
    (S : List (NodeId × K × Option V)) : Option (Split K) → Prop
  | none => t.Shaped n ∧ spots t.cells n t.root = S
  | some s => Pending t n bs m c s S

/-- There was room for the child. -/
theorem Overfull.attach (ho : Overfull t n bs m q s S b b')
    (hp : Pending t n (bs ++ [⟨q, i⟩]) m c s S) (hcount : b'.count = b.count + 1)
    (hroom : b.count + 2 ≤ t.listCapacity) :
    Outcome { t with cells := update t.cells q (some (.branch b')) } n bs (m + 1) q S
      none := by
  obtain ⟨hnd, -, -⟩ := nodup_append.mp hp.nodup
  have hq' : update t.cells q (some (.branch b')) q = some (.branch b') :=
    update_self ..
  have hout : ∀ z ∈ nodes t.cells n t.root, z ∉ nodes t.cells (m + 1) q →
      update t.cells q (some (.branch b')) z = t.cells z := by
    intro z _ hz
    refine update_of_ne ?_ ..
    rintro rfl
    exact hz (mem_nodes_self ..)
  have hframe : ∀ c ∈ b'.kids, ∀ z ∈ nodes t.cells m c,
      update t.cells q (some (.branch b')) z = t.cells z := fun c hc z hz =>
    update_of_ne (ho.apart c hc z hz).1 ..
  obtain ⟨hspots, hnodes, -⟩ := branch_over hq' hframe
  obtain ⟨A, D, Na, Nb, hF, -, -, hE', hN, hN'⟩ := ho.walk.replace hnd hout
  obtain ⟨b₀, hb₀, hlo, -, -, -⟩ := ho.walk.wf_end hp.shaped.wf
  obtain rfl := Node.branch.inj (Option.some.inj (ho.cell.symm.trans hb₀))
  have hwf : WF (update t.cells q (some (.branch b'))) (t.bounds n) (m + 1) q :=
    .branch hq' hframe (by omega) (by rw [hcount]; exact hroom)
      (fun c hc => (ho.kids c hc).of_inner hp.four_le) ho.separated
  have hperm : (nodes (update t.cells q (some (.branch b'))) n t.root).Perm
      (nodes t.cells n t.root ++ nodes t.cells m s.right) := by
    rw [hN, hN', hnodes, nodes_branch m ho.cell]
    refine perm_iff_count.mpr fun z => ?_
    have := ho.perm.count_eq z
    simp only [count_append, count_cons] at this ⊢
    omega
  refine ⟨⟨?_, hperm.nodup_iff.mpr hp.nodup, fun z hz => ?_⟩, ?_⟩
  · refine ho.walk.wf hnd rfl rfl hout (fun _ _ _ => le_refl _) hp.shaped.wf hwf fun k hk => ?_
    obtain ⟨e, he, rfl⟩ := mem_map.mp hk
    rw [entries, hspots, map_flatMap] at he
    obtain ⟨c, hc, he⟩ := mem_flatMap.mp he
    exact Or.inr (ho.fits c hc _ (mem_map_of_mem he))
  · rcases mem_append.mp (hperm.mem_iff.mp hz) with hz | hz
    · exact hp.shaped.fresh z hz
    · exact hp.fresh z hz
  · rw [ho.contents, hF]
    exact hE'.trans (by rw [hspots])

theorem Overfull.sorted (ho : Overfull t n bs m q s S b b')
    (hp : Pending t n (bs ++ [⟨q, i⟩]) m c s S) :
    (b'.kids.map (keysOf t.cells m)).flatten.Pairwise (· < ·) := by
  obtain ⟨hnd, hrnd, hdis⟩ := nodup_append.mp hp.nodup
  have hqnd := ho.walk.nodup hnd
  rw [nodes_branch m ho.cell, nodup_cons] at hqnd
  have hkidnd : (b'.kids.flatMap (nodes t.cells m)).Nodup := by
    refine ho.perm.nodup_iff.mpr (nodup_append.mpr ⟨hrnd, hqnd.2, ?_⟩)
    intro z hz y hy heq
    refine hdis y (ho.walk.subset ?_) z hz heq.symm
    rw [nodes_branch m ho.cell]
    exact mem_cons_of_mem _ hy
  refine separated_flatten_sorted ho.separated ?_ ?_
  · intro g hg
    obtain ⟨c, hc, rfl⟩ := mem_map.mp hg
    simpa [keysOf] using (ho.kids c hc).entries_ne_nil fun z _ =>
      inner_min_pos hp.four_le z
  · intro g hg
    obtain ⟨c, hc, rfl⟩ := mem_map.mp hg
    exact (ho.kids c hc).sorted ((nodup_flatMap.mp hkidnd).1 c hc)
      fun z _ _ => inner_min_pos hp.four_le z

/-- There is no room: the branch is cut into `l` and `r`, which takes the
next address, and the split is pending one level up. -/
theorem Overfull.split {l r : Branch K} {k sep : K} (ho : Overfull t n bs m q s S b b')
    (hp : Pending t n (bs ++ [⟨q, i⟩]) m c s S) (hkids : l.kids ++ r.kids = b'.kids)
    (hseps : l.seps ++ sep :: r.seps = b'.seps)
    (hl : t.listCapacity / 2 ≤ l.count + 1 ∧ l.count + 1 ≤ t.listCapacity)
    (hr : t.listCapacity / 2 ≤ r.count + 1 ∧ r.count + 1 ≤ t.listCapacity)
    (hk : (keysOf t.cells m (r.children 0)).head? = some k) (hq' : h' q = some (.branch l))
    (hnext : h' t.next = some (.branch r)) (hother : ∀ z, z ≠ q → z ≠ t.next → h' z = t.cells z) :
    Pending { t with cells := h', next := t.next + 1 } n bs (m + 1) q ⟨k, t.next⟩ S := by
  obtain ⟨hnd, -, -⟩ := nodup_append.mp hp.nodup
  have hout : ∀ z ∈ nodes t.cells n t.root, z ∉ nodes t.cells (m + 1) q →
      h' z = t.cells z := by
    intro z hz hzq
    refine hother z ?_ (Nat.ne_of_lt (hp.shaped.fresh z hz))
    rintro rfl
    exact hzq (mem_nodes_self ..)
  have hsame : ∀ x ∈ bs, h' x.pNode = t.cells x.pNode := fun x hx =>
    hout _ (ho.walk.mem_branches hnd x hx).1 (ho.walk.mem_branches hnd x hx).2
  have hframe : ∀ c ∈ b'.kids, ∀ z ∈ nodes t.cells m c, h' z = t.cells z := fun c hc z hz =>
    hother z (ho.apart c hc z hz).1 (Nat.ne_of_lt (ho.apart c hc z hz).2)
  have hlsub : ∀ c ∈ l.kids, c ∈ b'.kids := fun c hc => by
    rw [← hkids]
    exact mem_append_left _ hc
  have hrsub : ∀ c ∈ r.kids, c ∈ b'.kids := fun c hc => by
    rw [← hkids]
    exact mem_append_right _ hc
  obtain ⟨hlspots, hlnodes, hlkeys⟩ := branch_over hq' fun c hc => hframe c (hlsub c hc)
  obtain ⟨hrspots, hrnodes, hrkeys⟩ := branch_over hnext fun c hc => hframe c (hrsub c hc)
  obtain ⟨A, D, Na, Nb, hF, hF', -, -, hN, hN'⟩ := ho.walk.replace hnd hout
  have hsep := ho.separated
  rw [← hkids, ← hseps, map_append] at hsep
  obtain ⟨hlsep, hrsep⟩ := separated_halves (by simp) hsep
  have hlwf : WF h' t.inner (m + 1) q :=
    .branch hq' (fun c hc => hframe c (hlsub c hc)) hl.1 hl.2
      (fun c hc => ho.kids c (hlsub c hc)) hlsep
  have hrwf : WF h' t.inner (m + 1) t.next :=
    .branch hnext (fun c hc => hframe c (hrsub c hc)) hr.1 hr.2
      (fun c hc => ho.kids c (hrsub c hc)) hrsep
  have hperm : (nodes h' n t.root ++ nodes h' (m + 1) t.next).Perm
      (t.next :: (nodes t.cells n t.root ++ nodes t.cells m s.right)) := by
    rw [hN, hN', hlnodes, hrnodes, nodes_branch m ho.cell]
    refine perm_iff_count.mpr fun z => ?_
    have := ho.perm.count_eq z
    simp only [← hkids, flatMap_append, count_append, count_cons] at this ⊢
    omega
  have hfresh : ∀ z ∈ nodes t.cells n t.root ++ nodes t.cells m s.right, z < t.next := by
    intro z hz
    rcases mem_append.mp hz with hz | hz
    · exact hp.shaped.fresh z hz
    · exact hp.fresh z hz
  have hfresh' : ∀ z ∈ nodes h' n t.root ++ nodes h' (m + 1) t.next, z < t.next + 1 := by
    intro z hz
    rcases mem_cons.mp (hperm.mem_iff.mp hz) with rfl | hz
    · exact Nat.lt_succ_self _
    · exact Nat.lt_succ_of_lt (hfresh z hz)
  have hnodup' : (nodes h' n t.root ++ nodes h' (m + 1) t.next).Nodup := by
    refine hperm.nodup_iff.mpr (nodup_cons.mpr ⟨fun hmem => ?_, hp.nodup⟩)
    exact Nat.lt_irrefl _ (hfresh _ hmem)
  have hkeys : ∀ {p : NodeId} {d : Branch K}, spots h' (m + 1) p = d.kids.flatMap (spots t.cells m) →
      keysOf h' (m + 1) p = (d.kids.map (keysOf t.cells m)).flatten := by
    intro p d h
    rw [keysOf, entries, h, map_flatMap, map_flatMap, flatMap_def]
    rfl
  have hfits : ∀ {p : NodeId} {d : Branch K}, keysOf h' (m + 1) p =
      (d.kids.map (keysOf t.cells m)).flatten → (∀ c ∈ d.kids, c ∈ b'.kids) →
      ∀ k ∈ keysOf h' (m + 1) p, Fits t.cells bs k := by
    intro p d h hsub k hk
    rw [h] at hk
    obtain ⟨g, hg, hk⟩ := mem_flatten.mp hk
    obtain ⟨c, hc, rfl⟩ := mem_map.mp hg
    exact ho.fits c (hsub c hc) k hk
  refine ⟨hp.capacity, ⟨?_, ?_, ?_⟩, ho.walk.frame hsame, hlwf, hrwf, hnodup', ?_, ?_, ?_, ?_, ?_⟩
  · refine ho.walk.wf hnd rfl rfl hout (fun _ _ _ => le_refl _) hp.shaped.wf
      (hlwf.of_inner hp.four_le) fun k hk => Or.inr (hfits (hkeys hlspots) hlsub k hk)
  · exact (nodup_append.mp hnodup').1
  · exact fun z hz => hfresh' z (mem_append_left _ hz)
  · exact fun z hz => hfresh' z (mem_append_right _ hz)
  · rw [hkeys hlspots, hkeys hrspots, ← flatten_append, ← map_append, hkids]
    exact ho.sorted hp
  · rw [hkeys hrspots, r.kids_split (Nat.zero_le _)]
    obtain ⟨R, hR⟩ := head?_eq_some_iff.mp hk
    simp [hR]
  · exact fun k hk => (hfits (hkeys hrspots) hrsub k hk).frame hsame
  · change S = fill h' n bs (spots h' (m + 1) q ++ spots h' (m + 1) t.next)
    rw [hF', hlspots, hrspots, ← flatMap_append, hkids, ← hF, ho.contents]

theorem Branch.insert_full {node l r : Branch K} {mid : ℕ} {key k : K} {child : NodeId}
    (hq : t.cells q = some (.branch b)) (hfull : ¬ b.count ≠ t.listCapacity - 1)
    (hmid : (b.count + 1) / 2 = mid) (hnode : t.newBranch (b.count - mid) = node)
    (hk : (t.alloc (.branch (b.rightHalf node mid))).childKey t.next = .ok k)
    (hlr : (if i ≤ (b.leftHalf mid).count then
        ((b.leftHalf mid).internalInsertIndex i key child, b.rightHalf node mid)
      else (b.leftHalf mid, (b.rightHalf node mid).internalInsertIndex
        (i - ((b.leftHalf mid).count + 1)) key child)) = (l, r)) :
    Branch.insert t q i key child = .ok ((((t.alloc (.branch (b.rightHalf node mid))).set t.next
      (.branch r)).set q (.branch l)), some ⟨k, t.next⟩) := by
  subst hnode hmid
  simp only [Branch.insert, branchAt, hq, bind, Except.bind, if_neg hfull]
  rw [hk]
  simp only [hlr]

theorem Overfull.childKey (ho : Overfull t n bs m q s S b b') (node : Branch K) (mid : ℕ)
    (ht : t.Shaped n) (hcap : 4 ≤ t.listCapacity) (hmid : mid ≤ b.count) :
    ∃ k, (t.alloc (.branch (b.rightHalf node mid))).childKey t.next = .ok k ∧
      (keysOf t.cells m (b.children mid)).head? = some k := by
  have hkid : b.children mid ∈ b.kids := Branch.mem_kids.mpr ⟨mid, hmid, rfl⟩
  have hwf := ht.inner (ho.walk.snoc ho.cell hmid) (by simp)
  have hframe : ∀ z ∈ nodes t.cells m (b.children mid),
      (t.alloc (.branch (b.rightHalf node mid))).cells z = t.cells z := by
    intro z hz
    refine update_of_ne (Nat.ne_of_lt ?_) ..
    exact ht.fresh z (ho.walk.subset (kid_nodes_subset ho.cell hkid hz))
  have hm : m < t.next := by
    have := ho.walk.height
    have := ht.height_lt_next
    omega
  obtain ⟨k, hk, hhead⟩ := Node.getChildKey_eq (t.alloc (.branch (b.rightHalf node mid)))
    hm (hwf.congr rfl rfl hframe fun _ _ => le_refl _) fun z _ => BTree.inner_min_pos hcap z
  refine ⟨k, ?_, by rwa [keysOf_congr hframe] at hhead⟩
  have hcell : (t.alloc (.branch (b.rightHalf node mid))).cells t.next =
      some (.branch (b.rightHalf node mid)) := update_self ..
  have hfirst : (b.rightHalf node mid).children 0 = b.children mid := by
    simp [Branch.rightHalf, move_apply]
  rw [BTree.childKey, show (t.alloc (.branch (b.rightHalf node mid))).next = t.next + 1 from rfl,
    Node.getChildKey, hcell]
  simp only [hfirst]
  exact hk

/-- **One turn of the loop**: a pending split is entered, or becomes a
pending split one level up. -/
theorem Branch.insert_spec (hp : Pending t n (bs ++ [⟨q, i⟩]) m c s S) :
    ∃ h' next' s', Branch.insert t q i s.key s.right =
        .ok ({ t with cells := h', next := next' }, s') ∧
      Outcome { t with cells := h', next := next' } n bs (m + 1) q S s' := by
  obtain ⟨b, hi, ho⟩ := hp.overfull
  have hcap : t.listCapacity = 64 := hp.capacity
  have hle : b.count + 1 ≤ t.listCapacity := by
    obtain ⟨b₀, hb₀, -, hle, -, -⟩ := ho.walk.wf_end hp.shaped.wf
    obtain rfl := Node.branch.inj (Option.some.inj (ho.cell.symm.trans hb₀))
    exact hle
  have hqnext : t.next ≠ q :=
    (Nat.ne_of_lt (hp.shaped.fresh q (ho.walk.subset (mem_nodes_self ..)))).symm
  by_cases hfull : b.count ≠ t.listCapacity - 1
  · refine ⟨_, t.next, none, ?_, ho.attach hp rfl (by omega)⟩
    simp only [Branch.insert, BTree.branchAt, ho.cell, bind, Except.bind, if_pos hfull]
    rfl
  · generalize hnode : t.newBranch (b.count - 32) = node
    obtain ⟨k, hk, hhead⟩ := ho.childKey node 32 hp.shaped (by omega)
      (by omega)
    obtain ⟨⟨l, r⟩, hlr⟩ : ∃ lr, (if i ≤ (b.leftHalf 32).count then
        ((b.leftHalf 32).internalInsertIndex i s.key s.right, b.rightHalf node 32)
      else (b.leftHalf 32, (b.rightHalf node 32).internalInsertIndex
        (i - ((b.leftHalf 32).count + 1)) s.key s.right)) = lr := ⟨_, rfl⟩
    obtain ⟨⟨hkids, hseps⟩, hl, hl', hr, hr', hfirst⟩ :=
      b.halves_insert node s.key s.right hi (by omega) (by omega) (by rw [← hnode]; rfl) hlr
    refine ⟨_, _, _, Branch.insert_full ho.cell hfull (by omega) hnode hk hlr, ?_⟩
    refine ho.split hp hkids hseps ⟨by omega, by omega⟩ ⟨by omega, by omega⟩
      (by rwa [hfirst]) (update_self ..) ?_ fun z hzq hznext => ?_
    · simp [BTree.set, update_of_ne hqnext]
    · simp [BTree.set, BTree.alloc, update_of_ne hzq, update_of_ne hznext]

/-- **The loop**: every pending split ends up in the tree or beside the root. -/
theorem BTree.insertLoop_spec {r : Option (Split K)} (ho : Outcome t n bs m c S r) :
    ∃ h' next' r' m' c', t.insertLoop bs.reverse r =
        .ok ({ t with cells := h', next := next' }, r') ∧
      Outcome { t with cells := h', next := next' } n [] m' c' S r' := by
  induction bs using List.reverseRecOn generalizing t m c r with
  | nil =>
    refine ⟨t.cells, t.next, r, m, c, ?_, ho⟩
    simp only [reverse_nil, insertLoop]
  | append_singleton bs x ih =>
    rw [reverse_append, reverse_singleton, singleton_append]
    cases r with
    | none => exact ⟨t.cells, t.next, none, m, c, rfl, ho⟩
    | some s =>
      obtain ⟨h₁, next₁, r₁, hins, ho₁⟩ := Branch.insert_spec ho
      obtain ⟨h', next', r', m', c', hloop, ho'⟩ := ih ho₁
      refine ⟨h', next', r', m', c', ?_, ho'⟩
      simp only [insertLoop, hins, bind, Except.bind]
      exact hloop

end Step

/-! ### The leaf -/

def movedTo (p : NodeId) (R : List (K × Option V)) : List (V × NodeId) :=
  R.filterMap fun e => e.2.map fun value => (value, p)

omit [LinearOrder K] in
theorem Leaf.valuesMoved_eq (l : Leaf K V) (p : NodeId) :
    l.valuesMoved p = movedTo p l.entries := by
  cases hv : l.values with
  | none =>
    have : ∀ e ∈ l.entries, e.2 = none := by
      intro e he
      obtain ⟨i, -, rfl⟩ := mem_window.mp he
      simp [Leaf.entry, hv]
    rw [Leaf.valuesMoved, hv, movedTo, filterMap_eq_nil_iff.mpr]
    exact fun e he => by simp [this e he]
  | some values =>
    simp only [Leaf.valuesMoved, hv, movedTo, Leaf.entries, window, filterMap_map,
      map_map]
    rw [← filterMap_eq_map]
    refine filterMap_congr fun i _ => ?_
    simp [Leaf.entry, hv]

section LeafStep

variable {t : BTree K V} {n : ℕ} {q : NodeId} {bs : List PathNode} {l : Leaf K V} {key : K}
  {value : V} {E₁ E₂ : List (K × Option V)}

/-- A leaf of the tree, and the gap of it a key belongs into. -/
structure Gap (t : BTree K V) (n : ℕ) (bs : List PathNode) (q : NodeId) (l : Leaf K V) (key : K)
    (E₁ E₂ : List (K × Option V)) : Prop where
  walk : Walk t.cells n t.root bs 0 q
  cell : t.cells q = some (.leaf l)
  fits : Fits t.cells bs key
  entries : l.entries = E₁ ++ E₂
  below : ∀ e ∈ E₁, e.1 < key
  above : ∀ e ∈ E₂, key < e.1

theorem Gap.ok (hg : Gap t n bs q l key E₁ E₂) (ht : t.Shaped n) :
    l.Ok t.keyOnly t.listCapacity ((t.bounds n).min q) := by
  obtain ⟨l', hl', hok⟩ := hg.walk.wf_end ht.wf
  obtain rfl := Node.leaf.inj (Option.some.inj (hg.cell.symm.trans hl'))
  exact hok

theorem Gap.sorted (hg : Gap t n bs q l key E₁ E₂) (ht : t.Shaped n) (v : Option V) :
    (E₁ ++ (key, v) :: E₂).Pairwise fun x y => x.1 < y.1 := by
  have hs := (hg.ok ht).sorted
  rw [hg.entries, pairwise_append] at hs
  rw [pairwise_append, pairwise_cons]
  refine ⟨hs.1, ⟨fun y hy => hg.above y hy, hs.2.1⟩, fun x hx y hy => ?_⟩
  rcases mem_cons.mp hy with rfl | hy
  · exact hg.below x hx
  · exact hs.2.2 x hx y hy

theorem Gap.fits_all (hg : Gap t n bs q l key E₁ E₂) (ht : t.Shaped n)
    (hcap : n ≠ 0 → 4 ≤ t.listCapacity) {e : K × Option V} (he : e ∈ E₁ ++ (key, v) :: E₂) :
    Fits t.cells bs e.1 := by
  by_cases hkey : e.1 = key
  · rw [hkey]
    exact hg.fits
  · have hold : e ∈ E₁ ++ E₂ := by
      simp only [mem_append, mem_cons] at he ⊢
      rcases he with he | rfl | he
      · exact Or.inl he
      · exact absurd rfl hkey
      · exact Or.inr he
    refine (hg.walk.fits ht.wf ht.nodup (bounds_min_pos hcap) ?_).1
    rw [keysOf, entries_leaf hg.cell, hg.entries]
    exact mem_map_of_mem hold

theorem Gap.shaped (hg : Gap t n bs q l key E₁ E₂) (next' : NodeId) (ht : t.Shaped n)
    (hcap : n ≠ 0 → 4 ≤ t.listCapacity) (hq : h' q = some (.leaf l'))
    (hother : ∀ z ∈ nodes t.cells n t.root, z ≠ q → h' z = t.cells z) (hnext : t.next ≤ next')
    (hok : l'.Ok t.keyOnly t.listCapacity ((t.bounds n).min q))
    (hsub : ∀ e ∈ l'.entries, e ∈ E₁ ++ (key, v) :: E₂) :
    { t with cells := h', next := next' }.Shaped n ∧
      nodes h' n t.root = nodes t.cells n t.root ∧ (∀ X, fill h' n bs X = fill t.cells n bs X) ∧
      spots h' n t.root = fill t.cells n bs (l'.entries.map (Prod.mk q)) ∧
      Walk h' n t.root bs 0 q ∧ ∀ k, Fits t.cells bs k → Fits h' bs k := by
  have hout : ∀ z ∈ nodes t.cells n t.root, z ∉ nodes t.cells 0 q → h' z = t.cells z :=
    fun z hz hzq => hother z hz fun heq => hzq (by simp [nodes, heq])
  have hsame : ∀ x ∈ bs, h' x.pNode = t.cells x.pNode := fun x hx =>
    hout _ (hg.walk.mem_branches ht.nodup x hx).1 (hg.walk.mem_branches ht.nodup x hx).2
  obtain ⟨A, D, Na, Nb, hF, hF', -, hE', hN, hN'⟩ := hg.walk.replace ht.nodup hout
  have hnodes : nodes h' n t.root = nodes t.cells n t.root := by
    rw [hN, hN']
    rfl
  refine ⟨⟨?_, ?_, ?_⟩, hnodes, fun X => by rw [hF, hF'], ?_, hg.walk.frame hsame,
    fun k hk => hk.frame hsame⟩
  · refine hg.walk.wf ht.nodup rfl rfl hout (fun _ _ _ => le_refl _) ht.wf ⟨l', hq, hok⟩
      fun k hk => Or.inr ?_
    rw [keysOf, entries_leaf hq] at hk
    obtain ⟨e, he, rfl⟩ := mem_map.mp hk
    exact hg.fits_all ht hcap (hsub e he)
  · exact hnodes ▸ ht.nodup
  · intro z hz
    exact lt_of_lt_of_le (ht.fresh z (hnodes ▸ hz)) hnext
  · rw [hE', hF, spots_leaf hq]

/-- A full leaf leaves half of its entries to a new one. -/
theorem Gap.pending {r' : Leaf K V} (hg : Gap t n bs q l key E₁ E₂) (ht : t.Shaped n)
    (hcap : t.listCapacity = defaultListCapacity) (hq : h' q = some (.leaf l'))
    (hr : h' t.next = some (.leaf r')) (hother : ∀ z, z ≠ q → z ≠ t.next → h' z = t.cells z)
    (hlok : l'.Ok t.keyOnly t.listCapacity (t.listCapacity / 2))
    (hrok : r'.Ok t.keyOnly t.listCapacity (t.listCapacity / 2))
    (hlr : l'.entries ++ r'.entries = E₁ ++ (key, v) :: E₂) :
    Pending { t with cells := h', next := t.next + 1 } n bs 0 q ⟨r'.keys 0, t.next⟩
      (fill t.cells n bs (l'.entries.map (Prod.mk q) ++ r'.entries.map (Prod.mk t.next))) := by
  have hfour : 4 ≤ t.listCapacity := by
    rw [hcap]
    decide
  have hlwf : WF h' t.inner 0 q := ⟨l', hq, hlok⟩
  have hrwf : WF h' t.inner 0 t.next := ⟨r', hr, hrok⟩
  obtain ⟨l₀, hl₀, hok₀⟩ := hlwf.of_inner (n := n) hfour
  obtain rfl := Node.leaf.inj (Option.some.inj (hq.symm.trans hl₀))
  obtain ⟨hshaped, hnodes, hfill, -, hwalk, hfits⟩ := hg.shaped (v := v) (t.next + 1) ht
    (fun _ => hfour) hq (fun z hz hzq => hother z hzq (Nat.ne_of_lt (ht.fresh z hz)))
    (Nat.le_succ _) hok₀ fun e he => hlr ▸ mem_append_left _ he
  have hkeys : keysOf h' 0 q ++ keysOf h' 0 t.next = (E₁ ++ (key, v) :: E₂).map Prod.fst := by
    rw [keysOf, keysOf, entries_leaf hq, entries_leaf hr, ← map_append, hlr]
  refine ⟨hcap, hshaped, hwalk, hlwf, hrwf, ?_, ?_, ?_, ?_, ?_, ?_⟩
  · refine nodup_append.mpr ⟨hshaped.nodup, by simp [nodes], fun z hz y hy heq => ?_⟩
    simp only [nodes, mem_singleton] at hy
    exact Nat.ne_of_lt (ht.fresh z (hnodes ▸ hz)) (heq.trans hy)
  · simp [nodes]
  · exact hkeys ▸ pairwise_map.mpr (hg.sorted ht v)
  · have hpos : 1 ≤ r'.count := le_trans (by omega) hrok.min_le
    change (keysOf h' 0 t.next).head? = some (r'.keys 0)
    rw [keysOf, entries_leaf hr, r'.map_fst_entries, show r'.count = r'.count - 1 + 1 by omega,
      window_succ]
    rfl
  · intro k hk
    have hk' : k ∈ (E₁ ++ (key, v) :: E₂).map Prod.fst := hkeys ▸ mem_append_right _ hk
    obtain ⟨e, he, rfl⟩ := mem_map.mp hk'
    exact hfits _ (hg.fits_all ht (fun _ => hfour) he)
  · change _ = fill h' n bs (spots h' 0 q ++ spots h' 0 t.next)
    rw [hfill, spots_leaf hq, spots_leaf hr]

namespace Leaf

theorem halves_insert (t : BTree K V) {half : ℕ} (hlay : l.values.isSome = !t.keyOnly)
    (hcount : l.count = 2 * half) (hE : l.entries = E₁ ++ E₂) (key : K) (value : V) :
    ∃ values l' r', (if t.keyOnly = false then
          moveValues (t.newLeaf half).values 0 l.values half half
        else .ok (t.newLeaf half).values) = .ok values ∧
      insertHalves t ⟨half, l.keys, l.values⟩
        ⟨half, move (t.newLeaf half).keys 0 l.keys half half, values⟩ E₁.length key value =
          .ok (l', r') ∧
      l'.entries ++ r'.entries = E₁ ++ (key, t.stored value) :: E₂ ∧
      (l'.values.isSome = !t.keyOnly ∧ half ≤ l'.count ∧ l'.count ≤ half + 1) ∧
      r'.values.isSome = !t.keyOnly ∧ half ≤ r'.count ∧ r'.count ≤ half + 1 := by
  obtain ⟨values, hv, hvlay, hent⟩ := copy_spec _ (t.newLeaf_layout half) hlay 0 half half
  have hleft : (mk half l.keys l.values).entries = window l.entry 0 half := rfl
  have hright : (mk half (move (t.newLeaf half).keys 0 l.keys half half) values).entries =
      window l.entry half half := by
    rw [entries, hent, window_move_inside _ _ _ _ _ (le_refl _) (le_refl _)]
    rfl
  have hcut : E₁ ++ E₂ = window l.entry 0 half ++ window l.entry half half := by
    rw [← hE, entries, hcount, window_cut l.entry 0 (show half ≤ 2 * half by omega),
      Nat.zero_add, show 2 * half - half = half by omega]
  have hlen₁ : (window l.entry 0 half).length = half := length_window ..
  refine ⟨values, ?_⟩
  by_cases hlt : E₁.length < half
  · obtain ⟨X, hX, hE₂⟩ : ∃ X, window l.entry 0 half = E₁ ++ X ∧
        E₂ = X ++ window l.entry half half := by
      rcases append_eq_append_iff.mp hcut with ⟨X, h₁, h₂⟩ | ⟨X, h₁, h₂⟩
      · exact ⟨X, h₁, h₂⟩
      · rw [h₁, length_append, hlen₁] at hlt
        omega
    obtain ⟨l', hl', hle, hllay, hlcount⟩ := internalInsertIndex_spec t
      (l := ⟨half, l.keys, l.values⟩) E₁.length key value hlay (hleft.trans hX) rfl
    refine ⟨l', ⟨half, move (t.newLeaf half).keys 0 l.keys half half, values⟩, hv, ?_, ?_,
      ⟨hllay, by simp [hlcount], by simp [hlcount]⟩, hvlay, le_refl _, Nat.le_succ _⟩
    · rw [insertHalves, if_pos hlt, hl']
      rfl
    · rw [hle, hright, hE₂]
      simp
  · obtain ⟨X, hX, hE₁⟩ : ∃ X, window l.entry half half = X ++ E₂ ∧
        E₁ = window l.entry 0 half ++ X := by
      rcases append_eq_append_iff.mp hcut with ⟨X, h₁, h₂⟩ | ⟨X, h₁, h₂⟩
      · have := congrArg List.length h₁
        rw [hlen₁, length_append] at this
        obtain rfl : X = [] := length_eq_zero_iff.mp (by omega)
        exact ⟨[], by simpa using h₂.symm, by simpa using h₁.symm⟩
      · exact ⟨X, h₂, h₁⟩
    obtain ⟨r', hr', hre, hrlay, hrcount⟩ :=
      internalInsertIndex_spec t (E₁.length - half) key value hvlay (hright.trans hX)
        (by rw [hE₁, length_append, hlen₁]; omega)
    refine ⟨⟨half, l.keys, l.values⟩, r', hv, ?_, ?_, ⟨hlay, le_refl _, Nat.le_succ _⟩, hrlay,
      by simp [hrcount], by simp [hrcount]⟩
    · rw [insertHalves, if_neg hlt, hr']
      rfl
    · rw [hleft, hre, hE₁]
      simp

theorem insert_full {half index : ℕ} {values : Option (ℕ → V)} {r' : Leaf K V}
    (hq : t.cells q = some (.leaf l)) (hfull : ¬ l.count ≠ t.listCapacity)
    (hhalf : t.listCapacity = 2 * half)
    (hv : (if t.keyOnly = false then moveValues (t.newLeaf half).values 0 l.values half half
      else .ok (t.newLeaf half).values) = .ok values)
    (hlr : insertHalves t ⟨half, l.keys, l.values⟩
      ⟨half, move (t.newLeaf half).keys 0 l.keys half half, values⟩ index key value =
        .ok (l', r')) :
    insert t q index key value = .ok ((t.alloc (.leaf r')).set q (.leaf l'),
      some ⟨r'.keys 0, t.next⟩, movedTo t.next r'.entries) := by
  have h₁ : (t.listCapacity + 1) / 2 = half := by omega
  have h₂ : l.count - half = half := by omega
  have h₃ : (t.newLeaf half).count = half := rfl
  simp only [insert, leafAt, hq, bind, Except.bind, if_neg hfull, h₁, h₂, h₃, hv, hlr,
    valuesMoved_eq]

theorem insert_room (hg : Gap t n bs q l key E₁ E₂) (ht : t.Shaped n)
    (hcap : n ≠ 0 → 4 ≤ t.listCapacity) (value : V) (hc : l.count ≠ t.listCapacity) :
    ∃ l' : Leaf K V, l'.entries = E₁ ++ (key, t.stored value) :: E₂ ∧
      insert t q E₁.length key value = .ok (t.set q (.leaf l'), none, []) ∧
      (t.set q (.leaf l')).Shaped n ∧
      spots (t.set q (.leaf l')).cells n t.root =
        fill t.cells n bs (l'.entries.map (Prod.mk q)) := by
  have hok := hg.ok ht
  obtain ⟨l', hl', hle, hlay, hcount⟩ :=
    internalInsertIndex_spec t E₁.length key value hok.layout hg.entries rfl
  have hok' : l'.Ok t.keyOnly t.listCapacity ((t.bounds n).min q) :=
    ⟨by have := hok.min_le; omega, by have := hok.le_cap; omega,
      hle ▸ hg.sorted ht (t.stored value), hlay⟩
  obtain ⟨hshaped, -, -, hspots, -, -⟩ := hg.shaped t.next ht hcap
    (update_self q (some (.leaf l')) t.cells)
    (fun z _ hz => update_of_ne hz _ _) (le_refl _) hok' fun e he => hle ▸ he
  refine ⟨l', hle, ?_, hshaped, hspots⟩
  simp only [insert, leafAt, hg.cell, bind, Except.bind, if_pos hc, hl']

/-- **The leaf step**: the entry goes into its gap, in the leaf or in one
of its halves. The calls of the values-moved callback are about the
entries that changed their leaf. -/
theorem insert_spec (hg : Gap t n bs q l key E₁ E₂) (ht : t.Shaped n)
    (hcap : n ≠ 0 → 4 ≤ t.listCapacity) (value : V)
    (hfull : l.count = t.listCapacity → t.listCapacity = defaultListCapacity) :
    ∃ h' next' r L R, insert t q E₁.length key value =
        .ok ({ t with cells := h', next := next' }, r, movedTo t.next R) ∧
      L ++ R = E₁ ++ (key, t.stored value) :: E₂ ∧
      Outcome { t with cells := h', next := next' } n bs 0 q
        (fill t.cells n bs (L.map (Prod.mk q) ++ R.map (Prod.mk t.next))) r := by
  by_cases hc : l.count ≠ t.listCapacity
  · obtain ⟨l', hle, hins, hshaped, hspots⟩ := insert_room hg ht hcap value hc
    refine ⟨_, _, none, l'.entries, [], hins, by simp [hle], hshaped, ?_⟩
    rw [map_nil, append_nil]
    exact hspots
  · have hdef := hfull (not_ne_iff.mp hc)
    have hhalf : t.listCapacity = 2 * 32 := hdef
    obtain ⟨values, l', r', hv, hlr, hE, ⟨hl₁, hl₂, hl₃⟩, hr₁, hr₂, hr₃⟩ :=
      halves_insert t (hg.ok ht).layout ((not_ne_iff.mp hc).trans hhalf) hg.entries key value
    have hqnext : t.next ≠ q :=
      (Nat.ne_of_lt (ht.fresh q (hg.walk.subset (mem_nodes_self ..)))).symm
    have hs := hg.sorted ht (t.stored value)
    rw [← hE, pairwise_append] at hs
    refine ⟨_, _, _, l'.entries, r'.entries, insert_full hg.cell hc hhalf hv hlr, hE, ?_⟩
    refine hg.pending ht hdef (update_self ..) ?_ (fun z hzq hznext => ?_)
      ⟨by omega, by omega, hs.1, hl₁⟩ ⟨by omega, by omega, hs.2.1, hr₁⟩ hE
    · simp [alloc, update_of_ne hqnext]
    · simp [alloc, update_of_ne hzq, update_of_ne hznext]

end Leaf

end LeafStep

end Fastore.Tree
