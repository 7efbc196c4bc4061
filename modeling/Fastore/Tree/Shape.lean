import Fastore.Tree.Node
import Fastore.Lib.Separated
import Mathlib.Data.List.Nodup
import Mathlib.Data.List.Flatten
import Mathlib.Order.Nat

/-!
What a heap of nodes means as a tree.

`entries h n p` is the in-order contents of the subtree of height `n` at
address `p`, `spots h n p` the same with the leaf each entry is in,
`nodes h n p` the addresses it occupies, and `WF h B n p` says that it is
a well-formed B-tree under the limits `B`. All are recursions on the
height, so that all leaves are at one depth.

The lower limit of a node is a function of its address: the root has one
of its own, and in the middle of a deletion a node that has just lost an
item is allowed one item less.

Two facts carry every proof about an operation. The frame lemmas
(`entries_congr`, `WF.congr`) say that a subtree only depends on the
cells it occupies. `Walk.replace` and `Walk.wf` say what a change inside
one subtree does to the whole: it is well formed again as soon as the
changed part is and its new keys lie on the right side of the separators
on the way to it.
-/

namespace Fastore.Tree

open Lib List

variable {K V : Type}

abbrev Cells (K V : Type) := NodeId → Option (Node K V)

/-! ### Contents of one node -/

/-- The key and the value in slot `i`; there is no value in a key-only leaf. -/
def Leaf.entry (l : Leaf K V) (i : ℕ) : K × Option V :=
  (l.keys i, l.values.map fun values => values i)

def Leaf.entries (l : Leaf K V) : List (K × Option V) := window l.entry 0 l.count

def Branch.kids (b : Branch K) : List NodeId := window b.children 0 (b.count + 1)

def Branch.seps (b : Branch K) : List K := window b.keys 0 b.count

@[simp] theorem Leaf.length_entries (l : Leaf K V) : l.entries.length = l.count := by
  simp [Leaf.entries]

@[simp] theorem Branch.length_kids (b : Branch K) : b.kids.length = b.count + 1 := by
  simp [Branch.kids]

@[simp] theorem Branch.length_seps (b : Branch K) : b.seps.length = b.count := by
  simp [Branch.seps]

theorem Leaf.map_fst_entries (l : Leaf K V) : l.entries.map Prod.fst = window l.keys 0 l.count := by
  simp [Leaf.entries, map_window, Leaf.entry]

variable {B : Bounds} {b : Branch K} {h h' : Cells K V} {l : Leaf K V} {bs : List PathNode}
  {p q : NodeId} {i m n : ℕ}

theorem Leaf.entry_of_entries {A D : List (K × Option V)} {e : K × Option V}
    (h : l.entries = A ++ e :: D) : A.length < l.count ∧ l.entry A.length = e := by
  have hlt : A.length < l.count := by
    rw [← l.length_entries, h]
    simp
  rw [Leaf.entries, window_split _ hlt] at h
  obtain ⟨-, h⟩ := append_inj h (by simp)
  exact ⟨hlt, (List.cons.inj h).1⟩

theorem Leaf.getElem?_entries (l : Leaf K V) {a : ℕ} (ha : a < l.count) :
    l.entries[a]? = some (l.entry a) := by
  simp [Leaf.entries, window, ha]

namespace Branch

theorem mem_kids {c : NodeId} : c ∈ b.kids ↔ ∃ i ≤ b.count, b.children i = c := by
  simp only [kids, mem_window, Nat.lt_succ_iff, Nat.zero_add]

theorem kids_split (b : Branch K) (hi : i ≤ b.count) :
    b.kids = window b.children 0 i ++ b.children i :: window b.children (i + 1) (b.count - i) := by
  rw [kids, window_split b.children (Nat.lt_succ_of_le hi)]
  congr 3
  omega

theorem seps_cut (b : Branch K) (hi : i ≤ b.count) :
    b.seps = window b.keys 0 i ++ window b.keys i (b.count - i) := by
  rw [seps, window_cut b.keys 0 hi, Nat.zero_add]

theorem seps_split (b : Branch K) (hi : i < b.count) :
    b.seps = window b.keys 0 i ++ b.keys i :: window b.keys (i + 1) (b.count - i - 1) := by
  rw [seps, window_split b.keys hi]

theorem kids_split_pair (b : Branch K) (hi : i < b.count) :
    b.kids = window b.children 0 i ++ b.children i :: b.children (i + 1) ::
      window b.children (i + 2) (b.count - i - 1) := by
  have hn : b.count - i = (b.count - i - 1) + 1 := by omega
  rw [b.kids_split hi.le]
  conv_lhs => rw [hn, window_succ]

theorem kids_cut (b : Branch K) (hi : i ≤ b.count) :
    b.kids = window b.children 0 (i + 1) ++ window b.children (i + 1) (b.count - i) := by
  rw [kids, window_cut b.children 0 (show i + 1 ≤ b.count + 1 by omega), Nat.zero_add,
    Nat.add_sub_add_right]

end Branch

/-! ### Subtrees -/

def leafSpots (h : Cells K V) (p : NodeId) : List (NodeId × K × Option V) :=
  match h p with
  | some (.leaf l) => l.entries.map (Prod.mk p)
  | _ => []

def kidsAt (h : Cells K V) (p : NodeId) : List NodeId :=
  match h p with
  | some (.branch b) => b.kids
  | _ => []

/-- The contents of the subtree of height `n` at `p`, in order, each entry
with the leaf it is in. -/
def spots (h : Cells K V) : ℕ → NodeId → List (NodeId × K × Option V)
  | 0, p => leafSpots h p
  | n + 1, p => (kidsAt h p).flatMap (spots h n)

def entries (h : Cells K V) (n : ℕ) (p : NodeId) : List (K × Option V) :=
  (spots h n p).map Prod.snd

/-- The addresses the subtree of height `n` at `p` occupies. -/
def nodes (h : Cells K V) : ℕ → NodeId → List NodeId
  | 0, p => [p]
  | n + 1, p => p :: (kidsAt h p).flatMap (nodes h n)

def keysOf (h : Cells K V) (n : ℕ) (p : NodeId) : List K := (entries h n p).map Prod.fst

theorem spots_leaf (hp : h p = some (.leaf l)) : spots h 0 p = l.entries.map (Prod.mk p) := by
  simp [spots, leafSpots, hp]

theorem kidsAt_of_branch (hp : h p = some (.branch b)) : kidsAt h p = b.kids := by
  simp [kidsAt, hp]

theorem entries_leaf (hp : h p = some (.leaf l)) : entries h 0 p = l.entries := by
  rw [entries, spots_leaf hp, map_map]
  exact map_id _

theorem spots_branch (n : ℕ) (hp : h p = some (.branch b)) :
    spots h (n + 1) p = b.kids.flatMap (spots h n) := by
  rw [spots, kidsAt_of_branch hp]

theorem entries_branch (n : ℕ) (hp : h p = some (.branch b)) :
    entries h (n + 1) p = b.kids.flatMap (entries h n) := by
  rw [entries, spots_branch n hp, map_flatMap]
  rfl

theorem keysOf_branch (n : ℕ) (hp : h p = some (.branch b)) :
    keysOf h (n + 1) p = (b.kids.map (keysOf h n)).flatten := by
  rw [keysOf, entries_branch n hp, map_flatMap, flatMap_def]
  rfl

theorem nodes_branch (n : ℕ) (hp : h p = some (.branch b)) :
    nodes h (n + 1) p = p :: b.kids.flatMap (nodes h n) := by
  rw [nodes, kidsAt_of_branch hp]

theorem mem_nodes_self (h : Cells K V) (n : ℕ) (p : NodeId) : p ∈ nodes h n p := by
  cases n <;> simp [nodes]

/-! ### Frames -/

theorem nodes_of_kidsAt (hkids : ∀ z ∈ nodes h n p, kidsAt h' z = kidsAt h z) :
    nodes h' n p = nodes h n p := by
  induction n generalizing p with
  | zero => rfl
  | succ n ih =>
    rw [nodes, nodes, hkids p (mem_nodes_self h _ p)]
    refine congrArg _ (flatMap_congr fun c hc => ih fun z hz => hkids z ?_)
    exact mem_cons_of_mem _ (mem_flatMap.mpr ⟨c, hc, hz⟩)

theorem spots_of_kidsAt (hkids : ∀ z ∈ nodes h n p, kidsAt h' z = kidsAt h z)
    (hleaf : ∀ z ∈ nodes h n p, leafSpots h' z = leafSpots h z) : spots h' n p = spots h n p := by
  induction n generalizing p with
  | zero => exact hleaf p (mem_nodes_self h _ p)
  | succ n ih =>
    rw [spots, spots, hkids p (mem_nodes_self h _ p)]
    refine flatMap_congr fun c hc => ?_
    have hsub : ∀ z ∈ nodes h n c, z ∈ nodes h (n + 1) p := fun z hz =>
      mem_cons_of_mem _ (mem_flatMap.mpr ⟨c, hc, hz⟩)
    exact ih (fun z hz => hkids z (hsub z hz)) fun z hz => hleaf z (hsub z hz)

theorem nodes_congr (heq : ∀ z ∈ nodes h n p, h' z = h z) : nodes h' n p = nodes h n p :=
  nodes_of_kidsAt fun z hz => by simp only [kidsAt, heq z hz]

theorem spots_congr (heq : ∀ z ∈ nodes h n p, h' z = h z) : spots h' n p = spots h n p :=
  spots_of_kidsAt (fun z hz => by simp only [kidsAt, heq z hz]) fun z hz => by
    simp only [leafSpots, heq z hz]

theorem entries_congr (heq : ∀ z ∈ nodes h n p, h' z = h z) : entries h' n p = entries h n p := by
  rw [entries, entries, spots_congr heq]

theorem keysOf_congr (heq : ∀ z ∈ nodes h n p, h' z = h z) : keysOf h' n p = keysOf h n p := by
  rw [keysOf, keysOf, entries_congr heq]

theorem kid_nodes_subset {c : NodeId} (hp : h p = some (.branch b)) (hc : c ∈ b.kids) :
    nodes h n c ⊆ nodes h (n + 1) p := by
  intro z hz
  rw [nodes_branch n hp]
  exact mem_cons_of_mem _ (mem_flatMap.mpr ⟨c, hc, hz⟩)

/-! ### The way down to a subtree -/

/-- Following `bs` from the subtree of height `n` at `p` leads to the
subtree of height `m` at `q`. -/
inductive Walk (h : Cells K V) : ℕ → NodeId → List PathNode → ℕ → NodeId → Prop
  | nil (n : ℕ) (p : NodeId) : Walk h n p [] n p
  | cons {n m i : ℕ} {p q : NodeId} {b : Branch K} {bs : List PathNode}
      (hp : h p = some (.branch b)) (hi : i ≤ b.count) (hw : Walk h n (b.children i) bs m q) :
      Walk h (n + 1) p (⟨p, i⟩ :: bs) m q

theorem Walk.of_nil (w : Walk h n p [] m q) : m = n ∧ q = p := by
  cases w
  exact ⟨rfl, rfl⟩

theorem Walk.height (w : Walk h n p bs m q) : n = m + bs.length := by
  induction w with
  | nil => simp
  | cons _ _ _ ih => simp only [length_cons]; omega

theorem Walk.append {l : ℕ} {r : NodeId} {cs : List PathNode} (w : Walk h n p bs m q)
    (w' : Walk h m q cs l r) : Walk h n p (bs ++ cs) l r := by
  induction w with
  | nil => exact w'
  | cons hp hi _ ih => exact .cons hp hi (ih w')

theorem Walk.snoc (w : Walk h n p bs (m + 1) q) (hq : h q = some (.branch b)) (hi : i ≤ b.count) :
    Walk h n p (bs ++ [⟨q, i⟩]) m (b.children i) :=
  w.append (.cons hq hi (.nil _ _))

theorem Walk.unsnoc {r : NodeId} (w : Walk h n p (bs ++ [⟨q, i⟩]) m r) :
    ∃ b : Branch K, Walk h n p bs (m + 1) q ∧ h q = some (.branch b) ∧ i ≤ b.count ∧
      r = b.children i := by
  induction bs generalizing n p with
  | nil =>
    cases w with
    | cons hp hi hw =>
      cases hw with
      | nil => exact ⟨_, .nil _ _, hp, hi, rfl⟩
  | cons _ bs ih =>
    cases w with
    | cons hp hi hw =>
      obtain ⟨b, hw', hq, hi', hr⟩ := ih hw
      exact ⟨b, .cons hp hi hw', hq, hi', hr⟩

theorem Walk.split {x : PathNode} {as cs : List PathNode} (w : Walk h n p (as ++ x :: cs) m q) :
    ∃ (b : Branch K) (l : ℕ), Walk h n p as (l + 1) x.pNode ∧ h x.pNode = some (.branch b) ∧
      x.index ≤ b.count ∧ Walk h l (b.children x.index) cs m q := by
  induction as generalizing n p with
  | nil =>
    cases w with
    | cons hp hi hw => exact ⟨_, _, .nil _ _, hp, hi, hw⟩
  | cons _ as ih =>
    cases w with
    | cons hp hi hw =>
      obtain ⟨b, l, hw', hx, hi', hrest⟩ := ih hw
      exact ⟨b, l, .cons hp hi hw', hx, hi', hrest⟩

theorem Walk.at {k : ℕ} {x : PathNode} (w : Walk h n p bs m q) (hx : bs[k]? = some x) :
    ∃ (b : Branch K) (l : ℕ),
      Walk h n p (bs.take k) (l + 1) x.pNode ∧ h x.pNode = some (.branch b) ∧
      x.index ≤ b.count ∧ Walk h l (b.children x.index) (bs.drop (k + 1)) m q := by
  obtain ⟨hk, rfl⟩ := List.getElem?_eq_some_iff.mp hx
  rw [← List.take_append_drop k bs, List.drop_eq_getElem_cons hk] at w
  exact w.split

theorem Walk.subset (w : Walk h n p bs m q) : nodes h m q ⊆ nodes h n p := by
  induction w with
  | nil => exact List.Subset.refl _
  | cons hp hi _ ih =>
    exact List.Subset.trans ih
      (kid_nodes_subset hp (Branch.mem_kids.mpr ⟨_, hi, rfl⟩))

theorem Walk.spots_subset (w : Walk h n p bs m q) : spots h m q ⊆ spots h n p := by
  induction w with
  | nil => exact List.Subset.refl _
  | cons hp hi _ ih =>
    intro x hx
    rw [spots_branch _ hp]
    exact mem_flatMap.mpr ⟨_, Branch.mem_kids.mpr ⟨_, hi, rfl⟩, ih hx⟩

theorem Walk.nodup (w : Walk h n p bs m q) (hnd : (nodes h n p).Nodup) : (nodes h m q).Nodup := by
  induction w with
  | nil => exact hnd
  | cons hp hi _ ih =>
    rw [nodes_branch _ hp, nodup_cons, nodup_flatMap] at hnd
    exact ih (hnd.2.1 _ (Branch.mem_kids.mpr ⟨_, hi, rfl⟩))

theorem branch_over (hp : h' p = some (.branch b))
    (hframe : ∀ c ∈ b.kids, ∀ z ∈ nodes h n c, h' z = h z) :
    spots h' (n + 1) p = b.kids.flatMap (spots h n) ∧
      nodes h' (n + 1) p = p :: b.kids.flatMap (nodes h n) ∧
      b.kids.map (keysOf h' n) = b.kids.map (keysOf h n) := by
  refine ⟨?_, ?_, map_congr_left fun c hc => keysOf_congr (hframe c hc)⟩
  · rw [spots_branch n hp]
    exact flatMap_congr fun c hc => spots_congr (hframe c hc)
  · rw [nodes_branch n hp]
    exact congrArg _ (flatMap_congr fun c hc => nodes_congr (hframe c hc))

theorem nodes_around (hp : h p = some (.branch b)) (hi : i ≤ b.count)
    (hnd : (nodes h (n + 1) p).Nodup) :
    (nodes h n (b.children i)).Nodup ∧ p ∉ nodes h n (b.children i) ∧
      (∀ c ∈ window b.children 0 i, ∀ z ∈ nodes h n c, z ∉ nodes h n (b.children i)) ∧
      ∀ c ∈ window b.children (i + 1) (b.count - i), ∀ z ∈ nodes h n c,
        z ∉ nodes h n (b.children i) := by
  rw [nodes_branch n hp, b.kids_split hi, flatMap_append, flatMap_cons,
    nodup_cons, nodup_append, nodup_append] at hnd
  obtain ⟨hp', -, ⟨hc, -, hcr⟩, hl⟩ := hnd
  refine ⟨hc, fun hmem => hp' ?_, fun c hc z hz hz' => ?_, fun c hc z hz hz' => ?_⟩
  · exact mem_append_right _ (mem_append_left _ hmem)
  · exact hl z (mem_flatMap.mpr ⟨c, hc, hz⟩) z (mem_append_left _ hz') rfl
  · exact hcr z hz' z (mem_flatMap.mpr ⟨c, hc, hz⟩) rfl

theorem Walk.mem_branches (w : Walk h n p bs m q) (hnd : (nodes h n p).Nodup) :
    ∀ x ∈ bs, x.pNode ∈ nodes h n p ∧ x.pNode ∉ nodes h m q := by
  induction w with
  | nil => simp
  | @cons n m i p q b bs hp hi w ih =>
    obtain ⟨hcnd, hpc, -⟩ := nodes_around hp hi hnd
    intro x hx
    rcases mem_cons.mp hx with rfl | hx
    · exact ⟨mem_nodes_self h _ p, fun hmem => hpc (w.subset hmem)⟩
    · obtain ⟨h₁, h₂⟩ := ih hcnd x hx
      exact ⟨kid_nodes_subset hp (Branch.mem_kids.mpr ⟨i, hi, rfl⟩) h₁, h₂⟩

theorem Walk.top_not_mem (w : Walk h n p bs m q) (hnd : (nodes h n p).Nodup) (hbs : bs ≠ []) :
    p ∉ nodes h m q := by
  cases w with
  | nil => exact absurd rfl hbs
  | cons hp hi w => exact fun hmem => (nodes_around hp hi hnd).2.1 (w.subset hmem)

theorem Walk.frame (w : Walk h n p bs m q) (hsame : ∀ x ∈ bs, h' x.pNode = h x.pNode) :
    Walk h' n p bs m q := by
  induction w with
  | nil => exact .nil _ _
  | cons hp hi _ ih =>
    refine .cons ?_ hi (ih fun x hx => hsame x (mem_cons_of_mem _ hx))
    rw [← hp]
    exact hsame _ (mem_cons_self ..)

/-- The contents of a tree around the end of a walk, with `X` in place of
what is there. -/
def fill (h : Cells K V) : ℕ → List PathNode → List (NodeId × K × Option V) →
    List (NodeId × K × Option V)
  | n + 1, x :: bs, X => ((kidsAt h x.pNode).take x.index).flatMap (spots h n) ++
      fill h n bs X ++ ((kidsAt h x.pNode).drop (x.index + 1)).flatMap (spots h n)
  | _, _, X => X

theorem fill_nil (h : Cells K V) (n : ℕ) (X : List (NodeId × K × Option V)) :
    fill h n [] X = X := by
  cases n <;> rfl

theorem fill_cons (bs : List PathNode) (X : List (NodeId × K × Option V))
    (hp : h p = some (.branch b)) (hi : i ≤ b.count) :
    fill h (n + 1) (⟨p, i⟩ :: bs) X = (window b.children 0 i).flatMap (spots h n) ++
      fill h n bs X ++ (window b.children (i + 1) (b.count - i)).flatMap (spots h n) := by
  rw [fill, kidsAt_of_branch hp, b.kids_split hi, take_left' (by simp), append_cons,
    drop_left' (by simp)]

theorem Walk.fill_snoc (w : Walk h n p bs (m + 1) q) (hq : h q = some (.branch b))
    (hi : i ≤ b.count) (X : List (NodeId × K × Option V)) :
    fill h n (bs ++ [⟨q, i⟩]) X = fill h n bs ((window b.children 0 i).flatMap (spots h m) ++ X ++
      (window b.children (i + 1) (b.count - i)).flatMap (spots h m)) := by
  generalize hm : m + 1 = m' at w
  induction w with
  | nil =>
    subst hm
    rw [nil_append, fill_cons _ _ hq hi, fill_nil, fill_nil]
  | cons hp hi' _ ih => rw [cons_append, fill_cons _ _ hp hi', fill_cons _ _ hp hi', ih hq hm]

def before (h : Cells K V) : ℕ → List PathNode → List (NodeId × K × Option V)
  | n + 1, x :: bs => ((kidsAt h x.pNode).take x.index).flatMap (spots h n) ++ before h n bs
  | _, _ => []

def after (h : Cells K V) : ℕ → List PathNode → List (NodeId × K × Option V)
  | n + 1, x :: bs => after h n bs ++ ((kidsAt h x.pNode).drop (x.index + 1)).flatMap (spots h n)
  | _, _ => []

theorem before_nil (h : Cells K V) (n : ℕ) : before h n [] = [] := by cases n <;> rfl

theorem after_nil (h : Cells K V) (n : ℕ) : after h n [] = [] := by cases n <;> rfl

theorem before_cons (hp : h p = some (.branch b)) (hi : i ≤ b.count) :
    before h (n + 1) (⟨p, i⟩ :: bs) =
      (window b.children 0 i).flatMap (spots h n) ++ before h n bs := by
  rw [before, kidsAt_of_branch hp, b.kids_split hi, take_left' (by simp)]

theorem after_cons (hp : h p = some (.branch b)) (hi : i ≤ b.count) :
    after h (n + 1) (⟨p, i⟩ :: bs) =
      after h n bs ++ (window b.children (i + 1) (b.count - i)).flatMap (spots h n) := by
  rw [after, kidsAt_of_branch hp, b.kids_split hi, append_cons, drop_left' (by simp)]

theorem Walk.fill_eq (w : Walk h n p bs m q) (X : List (NodeId × K × Option V)) :
    fill h n bs X = before h n bs ++ X ++ after h n bs := by
  induction w with
  | nil => simp [fill_nil, before_nil, after_nil]
  | cons hp hi _ ih =>
    rw [fill_cons _ _ hp hi, before_cons hp hi, after_cons hp hi, ih]
    simp only [append_assoc]

theorem Walk.spots_eq (w : Walk h n p bs m q) :
    spots h n p = before h n bs ++ spots h m q ++ after h n bs := by
  induction w with
  | nil => simp [before_nil, after_nil]
  | @cons n m i p q b bs hp hi w ih =>
    rw [spots_branch n hp, b.kids_split hi, flatMap_append, flatMap_cons, ih,
      before_cons hp hi, after_cons hp hi]
    simp only [append_assoc]

/-- **A change inside one subtree**, read off the whole: what surrounds
the subtree is the same list of spots and the same list of addresses
before and after. -/
theorem Walk.replace (w : Walk h n p bs m q) (hnd : (nodes h n p).Nodup)
    (hout : ∀ z ∈ nodes h n p, z ∉ nodes h m q → h' z = h z) :
    ∃ A B Na Nb, (∀ X, fill h n bs X = A ++ X ++ B) ∧ (∀ X, fill h' n bs X = A ++ X ++ B) ∧
      spots h n p = A ++ spots h m q ++ B ∧ spots h' n p = A ++ spots h' m q ++ B ∧
      nodes h n p = Na ++ nodes h m q ++ Nb ∧ nodes h' n p = Na ++ nodes h' m q ++ Nb := by
  induction w with
  | nil => exact ⟨[], [], [], [], by simp [fill_nil], by simp [fill_nil], by simp, by simp,
      by simp, by simp⟩
  | @cons n m i p q b bs hp hi w ih =>
    obtain ⟨hcnd, hpc, hleft, hright⟩ := nodes_around hp hi hnd
    have hsub := w.subset
    have hkid := kid_nodes_subset (n := n) hp (Branch.mem_kids.mpr ⟨i, hi, rfl⟩)
    have hp' : h' p = some (.branch b) := by
      rw [hout p (mem_nodes_self h _ p) fun hmem => hpc (hsub hmem), hp]
    obtain ⟨A, B, Na, Nb, hF, hF', hE, hE', hN, hN'⟩ := ih hcnd fun z hz hzq => hout z (hkid hz) hzq
    -- the other children keep their cells
    have hframe : ∀ c ∈ window b.children 0 i ++ window b.children (i + 1) (b.count - i),
        ∀ z ∈ nodes h n c, h' z = h z := by
      intro c hc z hz
      have hcb : c ∈ b.kids := by
        rw [b.kids_split hi]
        rcases mem_append.mp hc with hc | hc <;> simp [hc]
      refine hout z (kid_nodes_subset hp hcb hz) fun hzq => ?_
      rcases mem_append.mp hc with hc | hc
      · exact hleft c hc z hz (hsub hzq)
      · exact hright c hc z hz (hsub hzq)
    have hl : ∀ c ∈ window b.children 0 i, spots h' n c = spots h n c ∧
        nodes h' n c = nodes h n c := fun c hc =>
      ⟨spots_congr (hframe c (mem_append_left _ hc)),
        nodes_congr (hframe c (mem_append_left _ hc))⟩
    have hr : ∀ c ∈ window b.children (i + 1) (b.count - i),
        spots h' n c = spots h n c ∧ nodes h' n c = nodes h n c := fun c hc =>
      ⟨spots_congr (hframe c (mem_append_right _ hc)),
        nodes_congr (hframe c (mem_append_right _ hc))⟩
    refine ⟨(window b.children 0 i).flatMap (spots h n) ++ A,
      B ++ (window b.children (i + 1) (b.count - i)).flatMap (spots h n),
      p :: ((window b.children 0 i).flatMap (nodes h n) ++ Na),
      Nb ++ (window b.children (i + 1) (b.count - i)).flatMap (nodes h n), fun X => ?_,
      fun X => ?_, ?_, ?_, ?_, ?_⟩
    · rw [fill_cons _ _ hp hi, hF]
      simp only [append_assoc]
    · rw [fill_cons _ _ hp' hi, hF', flatMap_congr fun c hc => (hl c hc).1,
        flatMap_congr fun c hc => (hr c hc).1]
      simp only [append_assoc]
    · rw [spots_branch n hp, b.kids_split hi, flatMap_append, flatMap_cons, hE]
      simp only [append_assoc]
    · rw [spots_branch n hp', b.kids_split hi, flatMap_append, flatMap_cons, hE',
        flatMap_congr fun c hc => (hl c hc).1, flatMap_congr fun c hc => (hr c hc).1]
      simp only [append_assoc]
    · rw [nodes_branch n hp, b.kids_split hi, flatMap_append, flatMap_cons, hN]
      simp only [append_assoc, cons_append]
    · rw [nodes_branch n hp', b.kids_split hi, flatMap_append, flatMap_cons, hN',
        flatMap_congr fun c hc => (hl c hc).2, flatMap_congr fun c hc => (hr c hc).2]
      simp only [append_assoc, cons_append]

/-! ### Well-formed subtrees -/

variable [LinearOrder K]

structure Bounds where
  cap : ℕ
  keyOnly : Bool
  /-- The least number of entries or children of the node at an address. -/
  min : NodeId → ℕ

/-- A leaf within its limits, its keys ascending, with a value array
unless the tree is key-only. -/
structure Leaf.Ok (keyOnly : Bool) (cap min : ℕ) (l : Leaf K V) : Prop where
  min_le : min ≤ l.count
  le_cap : l.count ≤ cap
  sorted : l.entries.Pairwise fun x y => x.1 < y.1
  layout : l.values.isSome = !keyOnly

/-- The subtree of height `n` at `p` is a well-formed B-tree. -/
def WF (h : Cells K V) (B : Bounds) : ℕ → NodeId → Prop
  | 0, p => ∃ l, h p = some (.leaf l) ∧ l.Ok B.keyOnly B.cap (B.min p)
  | n + 1, p => ∃ b, h p = some (.branch b) ∧ B.min p ≤ b.count + 1 ∧ b.count + 1 ≤ B.cap ∧
      (∀ c ∈ b.kids, WF h B n c) ∧ Separated b.seps (b.kids.map (keysOf h n))

theorem height_lt_length_nodes (hwf : WF h B n p) : n < (nodes h n p).length := by
  induction n generalizing p with
  | zero => simp [nodes]
  | succ n ih =>
    obtain ⟨b, hb, -, -, hkids, -⟩ := hwf
    have hc : b.children 0 ∈ b.kids := Branch.mem_kids.mpr ⟨0, by omega, rfl⟩
    have hlt := ih (hkids _ hc)
    rw [nodes_branch n hb, b.kids_split (Nat.zero_le _)]
    simp only [window_zero, nil_append, flatMap_cons, length_cons,
      length_append]
    omega

theorem WF.congr {B' : Bounds} (hwf : WF h B n p) (hcap : B'.cap = B.cap)
    (hko : B'.keyOnly = B.keyOnly) (heq : ∀ z ∈ nodes h n p, h' z = h z)
    (hmin : ∀ z ∈ nodes h n p, B'.min z ≤ B.min z) : WF h' B' n p := by
  induction n generalizing p with
  | zero =>
    obtain ⟨l, hl, hok⟩ := hwf
    have hp := mem_nodes_self h 0 p
    refine ⟨l, by rw [heq p hp, hl], ⟨le_trans (hmin p hp) hok.min_le, ?_, hok.sorted, ?_⟩⟩
    · rw [hcap]; exact hok.le_cap
    · rw [hko]; exact hok.layout
  | succ n ih =>
    obtain ⟨b, hb, hlo, hhi, hkids, hsep⟩ := hwf
    have hp := mem_nodes_self h (n + 1) p
    have hsub : ∀ c ∈ b.kids, ∀ z ∈ nodes h n c, z ∈ nodes h (n + 1) p :=
      fun c hc => kid_nodes_subset hb hc
    refine ⟨b, by rw [heq p hp, hb], le_trans (hmin p hp) hlo, by rw [hcap]; exact hhi,
      fun c hc => ih (hkids c hc) (fun z hz => heq z (hsub c hc z hz))
        fun z hz => hmin z (hsub c hc z hz), ?_⟩
    rwa [map_congr_left fun c hc => keysOf_congr fun z hz => heq z (hsub c hc z hz)]

theorem WF.branch (hp : h' p = some (.branch b))
    (hframe : ∀ c ∈ b.kids, ∀ z ∈ nodes h n c, h' z = h z) (hlo : B.min p ≤ b.count + 1)
    (hhi : b.count + 1 ≤ B.cap) (hkids : ∀ c ∈ b.kids, WF h B n c)
    (hsep : Separated b.seps (b.kids.map (keysOf h n))) : WF h' B (n + 1) p := by
  refine ⟨b, hp, hlo, hhi, fun c hc => ?_, ?_⟩
  · exact (hkids c hc).congr rfl rfl (hframe c hc) fun _ _ => le_refl _
  · rwa [(branch_over hp hframe).2.2]

theorem Walk.wf_end (w : Walk h n p bs m q) (hwf : WF h B n p) : WF h B m q := by
  induction w with
  | nil => exact hwf
  | cons hp hi _ ih =>
    obtain ⟨b', hb', -, -, hkids, -⟩ := hwf
    obtain rfl := Node.branch.inj (Option.some.inj (hp.symm.trans hb'))
    exact ih (hkids _ (Branch.mem_kids.mpr ⟨_, hi, rfl⟩))

theorem WF.cells_ne_none (hwf : WF h B n p) : ∀ z ∈ nodes h n p, h z ≠ none := by
  induction n generalizing p with
  | zero =>
    obtain ⟨l, hl, -⟩ := hwf
    simp [nodes, hl]
  | succ n ih =>
    obtain ⟨b, hb, -, -, hkids, -⟩ := hwf
    intro z hz
    rw [nodes_branch n hb] at hz
    rcases mem_cons.mp hz with rfl | hz
    · simp [hb]
    · obtain ⟨c, hc, hz⟩ := mem_flatMap.mp hz
      exact ih (hkids c hc) z hz

theorem WF.entries_ne_nil (hwf : WF h B n p) (hpos : ∀ z ∈ nodes h n p, 1 ≤ B.min z) :
    entries h n p ≠ [] := by
  induction n generalizing p with
  | zero =>
    obtain ⟨l, hl, hok⟩ := hwf
    rw [entries_leaf hl, ← length_pos_iff, l.length_entries]
    exact le_trans (hpos p (mem_nodes_self h 0 p)) hok.min_le
  | succ n ih =>
    obtain ⟨b, hb, -, -, hkids, -⟩ := hwf
    have hc : b.children 0 ∈ b.kids := Branch.mem_kids.mpr ⟨0, by omega, rfl⟩
    have := ih (hkids _ hc) fun z hz => hpos z (kid_nodes_subset hb hc hz)
    rw [entries_branch n hb, b.kids_split (Nat.zero_le _)]
    simp [this]

theorem WF.sorted (hwf : WF h B n p) (hnd : (nodes h n p).Nodup)
    (hpos : ∀ z ∈ nodes h n p, z ≠ p → 1 ≤ B.min z) : (keysOf h n p).Pairwise (· < ·) := by
  induction n generalizing p with
  | zero =>
    obtain ⟨l, hl, hok⟩ := hwf
    rw [keysOf, entries_leaf hl]
    exact pairwise_map.mpr hok.sorted
  | succ n ih =>
    obtain ⟨b, hb, -, -, hkids, hsep⟩ := hwf
    rw [nodes_branch n hb, nodup_cons, nodup_flatMap] at hnd
    obtain ⟨hp, hnd, -⟩ := hnd
    have hkpos : ∀ c ∈ b.kids, ∀ z ∈ nodes h n c, 1 ≤ B.min z := by
      intro c hc z hz
      refine hpos z (kid_nodes_subset hb hc hz) fun heq => hp ?_
      exact heq ▸ mem_flatMap.mpr ⟨c, hc, hz⟩
    rw [keysOf_branch n hb]
    refine separated_flatten_sorted hsep ?_ ?_
    · intro g hg
      obtain ⟨c, hc, rfl⟩ := mem_map.mp hg
      simpa [keysOf] using (hkids c hc).entries_ne_nil (hkpos c hc)
    · intro g hg
      obtain ⟨c, hc, rfl⟩ := mem_map.mp hg
      exact ih (hkids c hc) (hnd c hc) fun z hz _ => hkpos c hc z hz

/-- The key `k` lies on the right side of every separator along `bs`. -/
def Fits (h : Cells K V) (bs : List PathNode) (k : K) : Prop :=
  ∀ x ∈ bs, ∀ b : Branch K, h x.pNode = some (.branch b) →
    (∀ u ∈ window b.keys 0 x.index, u ≤ k) ∧
      ∀ u ∈ window b.keys x.index (b.count - x.index), k < u

theorem Fits.frame {k : K} (hfit : Fits h bs k) (hsame : ∀ x ∈ bs, h' x.pNode = h x.pNode) :
    Fits h' bs k :=
  fun x hx b hb => hfit x hx b (by rw [← hsame x hx, hb])

/-- **Frame rule**: a subtree may be replaced by one whose keys fit. -/
theorem Walk.wf {B' : Bounds} (w : Walk h n p bs m q) (hnd : (nodes h n p).Nodup)
    (hcap : B'.cap = B.cap) (hko : B'.keyOnly = B.keyOnly)
    (hout : ∀ z ∈ nodes h n p, z ∉ nodes h m q → h' z = h z)
    (hmin : ∀ z ∈ nodes h n p, z ∉ nodes h m q → B'.min z ≤ B.min z) (hwf : WF h B n p)
    (hq : WF h' B' m q) (hnew : ∀ k ∈ keysOf h' m q, k ∈ keysOf h m q ∨ Fits h bs k) :
    WF h' B' n p := by
  induction w with
  | nil => exact hq
  | @cons n m i p q b bs hp hi w ih =>
    obtain ⟨hcnd, hpc, hleft, hright⟩ := nodes_around hp hi hnd
    have hsub := w.subset
    have hkid := kid_nodes_subset (n := n) hp (Branch.mem_kids.mpr ⟨i, hi, rfl⟩)
    have hpq : p ∉ nodes h m q := fun hmem => hpc (hsub hmem)
    have hp' : h' p = some (.branch b) := by rw [hout p (mem_nodes_self h _ p) hpq, hp]
    obtain ⟨b₀, hb₀, hlo, hhi, hkids, hsep⟩ := hwf
    obtain rfl : b = b₀ := by rw [hp] at hb₀; simpa using hb₀
    have hc := ih hcnd (fun z hz => hout z (hkid hz)) (fun z hz => hmin z (hkid hz))
      (hkids _ (Branch.mem_kids.mpr ⟨i, hi, rfl⟩)) hq fun k hk => (hnew k hk).imp id
        fun hfit x hx => hfit x (mem_cons_of_mem _ hx)
    have hother : ∀ c ∈ window b.children 0 i ++ window b.children (i + 1) (b.count - i),
        c ∈ b.kids ∧ ∀ z ∈ nodes h n c, z ∉ nodes h m q := by
      intro c hc
      refine ⟨?_, fun z hz hzq => ?_⟩
      · rw [b.kids_split hi]
        rcases mem_append.mp hc with hc | hc <;> simp [hc]
      · rcases mem_append.mp hc with hc | hc
        · exact hleft c hc z hz (hsub hzq)
        · exact hright c hc z hz (hsub hzq)
    have hframe : ∀ c ∈ window b.children 0 i ++ window b.children (i + 1) (b.count - i),
        ∀ z ∈ nodes h n c, h' z = h z := fun c hc z hz =>
      hout z (kid_nodes_subset hp (hother c hc).1 hz) ((hother c hc).2 z hz)
    refine ⟨b, hp', le_trans (hmin p (mem_nodes_self h _ p) hpq) hlo, by rw [hcap]; exact hhi,
      fun c hcb => ?_, ?_⟩
    · have hsame : c = b.children i ∨
          c ∈ window b.children 0 i ++ window b.children (i + 1) (b.count - i) := by
        rw [b.kids_split hi] at hcb
        simp only [mem_append, mem_cons] at hcb ⊢
        tauto
      rcases hsame with rfl | hcb'
      · exact hc
      · exact (hkids c hcb).congr hcap hko (hframe c hcb') fun z hz =>
          hmin z (kid_nodes_subset hp hcb hz) ((hother c hcb').2 z hz)
    · -- only the group of the child on the way has changed
      obtain ⟨A, D, -, -, -, -, hE, hE', -, -⟩ := w.replace hcnd fun z hz hzq => hout z (hkid hz) hzq
      rw [b.kids_split hi, b.seps_cut hi, map_append, map_cons] at hsep ⊢
      rw [map_congr_left fun c hc => keysOf_congr (hframe c (mem_append_left _ hc)),
        map_congr_left fun c hc => keysOf_congr (hframe c (mem_append_right _ hc))]
      refine separated_replace (by simp) hsep fun k hk => ?_
      simp only [keysOf, entries, hE, hE', map_append, mem_append] at hk hnew ⊢
      rcases hk with (hk | hk) | hk
      · exact Or.inl (Or.inl (Or.inl hk))
      · rcases hnew k hk with hold | hfit
        · exact Or.inl (Or.inl (Or.inr hold))
        · exact Or.inr (hfit ⟨p, i⟩ (by simp) b hp)
      · exact Or.inl (Or.inr hk)

end Fastore.Tree
