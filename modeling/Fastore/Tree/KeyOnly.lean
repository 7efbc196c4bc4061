import Fastore.Tree.Delete
import Fastore.Tree.Insert

/-!
Trees without values.

The row trees of a buffer and the tree of an identity column are
key-only: their leaves have no value array. Insertion and deletion test
for this at every access, but `RebalanceLeaf` does not: each of its four
cases moves values, so a deletion that leaves a leaf short ends there
(`BTree.delete_underflow`). All other operations keep the tree in order,
and a run of insertions and deletions goes through, with the keys the
tree should have, exactly when none of its deletions leaves a leaf short
(`BTree.run_keyOnly_iff`).
-/

namespace Fastore.Tree

open Lib List BTree

variable {K V : Type} [LinearOrder K]

/-! ### Leaves left short -/

omit [LinearOrder K] in
theorem moveValues_none {dst src : Option (ℕ → V)} (h : dst.isSome = false) (d s n : ℕ) :
    moveValues dst d src s n = .error .nullValues := by
  cases dst with
  | none => rfl
  | some _ => simp at h

section Underflow

variable {t : BTree K V} {n : ℕ} {key : K} {path : Path} {l l' : Leaf K V}

/-- A tree without values cannot rebalance a leaf. -/
theorem Node.rebalanceLeaf_keyOnly {h₀ : Cells K V} {depth : ℕ} {q : NodeId}
    {E : List (K × Option V)} (hnd : (nodes h₀ n t.root).Nodup) (hko : t.keyOnly = true)
    (hlt : depth < path.branches.length) (hs : Short h₀ t n (path.branches.take (depth + 1)) 0 q E)
    (hq : t.cells q = some (.leaf l)) (hshort : l.count < t.listCapacity / 2) :
    Node.rebalanceLeaf path (depth + 1) t q = .error .nullValues := by
  rw [take_succ_eq_append_getElem hlt] at hs
  obtain ⟨p, i, hx⟩ : ∃ p i, path.branches[depth] = ⟨p, i⟩ := ⟨_, _, rfl⟩
  rw [hx] at hs
  have hx' : path.branches[depth]? = some ⟨p, i⟩ := by rw [getElem?_eq_getElem hlt, hx]
  obtain ⟨b, hp, hw, hone, hkids⟩ := hs.level hnd
  have hile := hp.index_le
  -- the leaf and its siblings have no values
  have hleaf : ∀ s ≤ b.count, ∃ r : Leaf K V, t.cells (b.children s) = some (.leaf r) ∧
      countOf t.cells (b.children s) = r.count ∧ r.values.isSome = false := by
    intro s hs'
    obtain ⟨r, hr, hok⟩ := (hw.snoc hp.cell hs').wf_end hs.loose.under.wf
    refine ⟨r, hr, by simp only [countOf, hr, Node.count], hok.layout.trans ?_⟩
    simp [Bounds.slack, bounds, hko]
  have hlnone : l.values.isSome = false := by
    obtain ⟨r, hr, -, hnone⟩ := hleaf i hile
    rw [← hp.child, hq] at hr
    rwa [Node.leaf.inj (Option.some.inj hr)]
  rw [Node.rebalanceLeaf_succ hx' hq hp.cell (fun hi => hkids (i + 1) hi)
    fun hi => hkids (i - 1) (by omega), rebalanceAt, if_neg (by omega)]
  split
  case isTrue hcase =>
    obtain ⟨r, hr, -, -⟩ := hleaf (i + 1) hcase.1
    simp only [Leaf.borrowRight, leafAt, hq, hr, bind, Except.bind, moveValues_none hlnone]
  case isFalse hright =>
    split
    case isTrue hcase =>
      obtain ⟨r, hr, -, -⟩ := hleaf (i - 1) (by omega)
      simp only [Leaf.borrowLeft, leafAt, hq, hr, bind, Except.bind, moveValues_none hlnone]
    case isFalse hleft =>
      split
      case isTrue hcase =>
        obtain ⟨r, hr, -, -⟩ := hleaf (i + 1) hcase.1
        simp only [Leaf.mergeRight, leafAt, hq, hr, bind, Except.bind, moveValues_none hlnone]
      case isFalse hmerge =>
        -- without a right sibling there is a left one, with nothing to lend
        have hpos : 0 < i := by omega
        obtain ⟨r, hr, -, hrnone⟩ := hleaf (i - 1) (by omega)
        rw [if_pos ⟨hpos, by omega⟩]
        simp only [Leaf.mergeLeft, leafAt, hq, hr, bind, Except.bind, moveValues_none hrnone]

theorem BTree.delete_underflow (ht : t.WellFormed n) (hko : t.keyOnly = true)
    (he : Erased t n path key l l') (hroot : path.leaf ≠ t.root)
    (hcount : l.count ≤ t.listCapacity / 2) : t.delete path = .error .nullValues := by
  obtain ⟨h₂, hr, hu, hop⟩ := he.delete_inner ht hroot
  obtain ⟨d, hd⟩ : ∃ d, path.branches.length = d + 1 := ⟨path.branches.length - 1, by
    have := length_pos_iff.mpr fun h => hroot ((he.branches_nil ht).mp h)
    omega⟩
  have hn : n ≠ 0 := by
    have hw := he.walk.height
    omega
  have htake : path.branches.take (d + 1) = path.branches := by rw [← hd, take_length]
  have hc := he.count
  have hfail := Node.rebalanceLeaf_keyOnly (t := { t with cells := h₂ }) ht.nodup hko
    (show d < path.branches.length by omega) (htake.symm ▸ he.short ht hn hr hu)
    (Erased.leaf_cell hr) (show l'.count < t.listCapacity / 2 by omega)
  rw [hop, hd, hfail]
  rfl

end Underflow

/-! ### Runs -/

inductive Op (K V : Type)
  | insert (key : K) (value : V)
  | delete (key : K)

def BTree.apply (t : BTree K V) : Op K V → Except Fault (BTree K V)
  | .insert key value => do
    let path ← t.getPath key
    let (t, _) ← t.insert path key value
    .ok t
  | .delete key => do
    let path ← t.getPath key
    t.delete path

def BTree.run (t : BTree K V) : List (Op K V) → Except Fault (BTree K V)
  | [] => .ok t
  | op :: ops => do
    let t ← t.apply op
    t.run ops

def keysAfter : Finset K → List (Op K V) → Finset K
  | S, [] => S
  | S, .insert key _ :: ops => keysAfter (insert key S) ops
  | S, .delete key :: ops => keysAfter (S.erase key) ops

/-- Keys are inserted when absent and deleted when present. -/
def Legal : Finset K → List (Op K V) → Prop
  | _, [] => True
  | S, .insert key _ :: ops => key ∉ S ∧ Legal (insert key S) ops
  | S, .delete key :: ops => key ∈ S ∧ Legal (S.erase key) ops

instance Legal.decidable : (S : Finset K) → (ops : List (Op K V)) → Decidable (Legal S ops)
  | _, [] => .isTrue trivial
  | S, .insert key _ :: ops => @instDecidableAnd _ _ _ (Legal.decidable (insert key S) ops)
  | S, .delete key :: ops => @instDecidableAnd _ _ _ (Legal.decidable (S.erase key) ops)

/-- Deleting `key` leaves a leaf other than the root short. -/
def BTree.underflows (t : BTree K V) (key : K) : Bool :=
  match t.getPath key with
  | .ok path => decide (path.leaf ≠ t.root) &&
      decide (countOf t.cells path.leaf ≤ t.listCapacity / 2)
  | .error _ => false

def BTree.neverUnderflows (t : BTree K V) : List (Op K V) → Bool
  | [] => true
  | op :: ops =>
    (match op with
      | .insert _ _ => true
      | .delete key => !t.underflows key) &&
    match t.apply op with
    | .ok t => t.neverUnderflows ops
    | .error _ => true

/-- A key-only tree of exactly the keys `S`. -/
structure KeyTree (t : BTree K V) (n : ℕ) (S : Finset K) : Prop where
  wellFormed : t.WellFormed n
  sized : t.Sized n
  keyOnly : t.keyOnly = true
  keys : ∀ k, k ∈ (t.contents n).map Prod.fst ↔ k ∈ S

section Step

variable {t : BTree K V} {n : ℕ} {S : Finset K} {key : K}

theorem Inserted.keys {t' : BTree K V} {n' : ℕ} {leaf : NodeId} {value : V}
    {moved : List (V × NodeId)} (hi : Inserted t n leaf key value t' n' moved)
    (hkeys : ∀ k, k ∈ (t.contents n).map Prod.fst ↔ k ∈ S) (k : K) :
    k ∈ (t'.contents n').map Prod.fst ↔ k ∈ insert key S := by
  obtain ⟨C₁, C₂, hC, hC', -, -⟩ := hi.contents
  have hk := hkeys k
  rw [hC, map_append, mem_append] at hk
  rw [hC', map_append, map_cons, mem_append, mem_cons, Finset.mem_insert, ← hk]
  tauto

theorem keys_erase {C : List (K × Option V)} (hkeys : ∀ k, k ∈ C.map Prod.fst ↔ k ∈ S) (key k : K) :
    k ∈ (C.filter fun e => decide (e.1 ≠ key)).map Prod.fst ↔ k ∈ S.erase key := by
  rw [Finset.mem_erase, ← hkeys k]
  simp only [mem_map, mem_filter, decide_eq_true_eq]
  constructor
  · rintro ⟨e, ⟨he, hne⟩, rfl⟩
    exact ⟨hne, e, he, rfl⟩
  · rintro ⟨hne, e, he, rfl⟩
    exact ⟨e, ⟨he, hne⟩, rfl⟩

theorem BTree.delete_keys {path : Path} {l l' : Leaf K V} (ht : t.WellFormed n)
    (he : Erased t n path key l l') (hplain : path.leaf = t.root ∨ t.listCapacity / 2 < l.count) :
    ∃ h', t.delete path = .ok { t with cells := h', count := t.count - 1 } ∧
      { t with cells := h', count := t.count - 1 }.WellFormed n ∧
      { t with cells := h', count := t.count - 1 }.contents n =
        (t.contents n).filter fun e => decide (e.1 ≠ key) := by
  obtain ⟨h', hop, hw, A, v, D, hS, hS'⟩ := delete_plain ht he hplain
  have hE : t.contents n = A.map Prod.snd ++ (key, v) :: D.map Prod.snd := by
    rw [contents, entries, hS]
    simp
  refine ⟨h', hop, hw, ?_⟩
  rw [ht.filter_ne hE, ← map_append, ← hS']
  rfl

theorem KeyTree.insert (ht : KeyTree t n S) (value : V) (hkey : key ∉ S) :
    ∃ t' n', t.apply (.insert key value) = .ok t' ∧ KeyTree t' n' (insert key S) := by
  obtain ⟨path, hpath, hland⟩ := ht.wellFormed.getPath key
  have hm : path.isMatch = false := by
    rw [← Bool.not_eq_true, ht.wellFormed.lands_iff hland, ht.keys]
    exact hkey
  obtain ⟨t', n', moved, hins, hi⟩ :=
    insert_spec ht.wellFormed ht.sized hland hm value
  refine ⟨t', n', ?_, hi.wellFormed, hi.sized, hi.keyOnly.trans ht.keyOnly, hi.keys ht.keys⟩
  simp only [apply, hpath, hins, bind, Except.bind]

theorem Erased.plain {path : Path} {l l' : Leaf K V} (he : Erased t n path key l l')
    (hpath : t.getPath key = .ok path) (hunder : t.underflows key = false) :
    path.leaf = t.root ∨ t.listCapacity / 2 < l.count := by
  have hcount : countOf t.cells path.leaf = l.count := by simp only [countOf, he.cell, Node.count]
  by_cases hroot : path.leaf = t.root
  · exact Or.inl hroot
  · refine Or.inr (not_le.mp fun h => ?_)
    simp [underflows, hpath, hroot, hcount, h] at hunder

theorem KeyTree.delete (ht : KeyTree t n S) (hkey : key ∈ S) :
    if t.underflows key then t.apply (.delete key) = .error .nullValues
    else ∃ t', t.apply (.delete key) = .ok t' ∧ KeyTree t' n (S.erase key) := by
  obtain ⟨path, hpath, hland⟩ := ht.wellFormed.getPath key
  obtain ⟨l, l', he⟩ := hland.erased ht.wellFormed
    ((ht.wellFormed.lands_iff hland).mpr ((ht.keys key).mpr hkey))
  have happly : t.apply (.delete key) = t.delete path := by
    simp only [apply, hpath, bind, Except.bind]
  rw [happly]
  split
  case isTrue hcase =>
    have hcount : countOf t.cells path.leaf = l.count := by simp only [countOf, he.cell, Node.count]
    simp only [underflows, hpath, hcount, Bool.and_eq_true, decide_eq_true_eq] at hcase
    exact delete_underflow ht.wellFormed ht.keyOnly he hcase.1 hcase.2
  case isFalse hcase =>
    obtain ⟨h', hop, hw, hE⟩ := delete_keys ht.wellFormed he
      (he.plain hpath (by simpa using hcase))
    exact ⟨_, hop, hw, ht.sized, ht.keyOnly, hE ▸ keys_erase ht.keys key⟩

theorem KeyTree.run (ops : List (Op K V)) (ht : KeyTree t n S) (hlegal : Legal S ops) :
    if t.neverUnderflows ops then
      ∃ t' n', t.run ops = .ok t' ∧ KeyTree t' n' (keysAfter S ops)
    else t.run ops = .error .nullValues := by
  induction ops generalizing t n S with
  | nil => exact ⟨t, n, rfl, ht⟩
  | cons op ops ih =>
    cases op with
    | insert key value =>
      obtain ⟨t₁, n₁, hop, ht₁⟩ := ht.insert value hlegal.1
      simp only [neverUnderflows, run, hop, Bool.true_and, bind, Except.bind]
      exact ih ht₁ hlegal.2
    | delete key =>
      have hstep := ht.delete hlegal.1
      cases hunder : t.underflows key with
      | true =>
        rw [hunder, if_pos rfl] at hstep
        simp [neverUnderflows, run, hunder, hstep, bind, Except.bind]
      | false =>
        rw [hunder, if_neg (by simp)] at hstep
        obtain ⟨t₁, hop, ht₁⟩ := hstep
        simp only [neverUnderflows, run, hunder, hop, Bool.not_false,
          Bool.true_and, bind, Except.bind]
        exact ih ht₁ hlegal.2

theorem KeyTree.run_error {ops : List (Op K V)} (ht : KeyTree t n S) (hlegal : Legal S ops)
    (hunder : t.neverUnderflows ops = false) : t.run ops = .error .nullValues := by
  have hrun := ht.run ops hlegal
  rwa [hunder, if_neg (by simp)] at hrun

theorem KeyTree.new (T : ScalarType K) (rawKeys : NodeId → ℕ → K) (rawValues : NodeId → ℕ → V)
    (rawNodes : NodeId → ℕ → NodeId) :
    KeyTree (new T true rawKeys rawValues rawNodes) 0 ∅ := by
  obtain ⟨hw, hs, hempty⟩ := new_wellFormed T true rawKeys rawValues rawNodes
  exact ⟨hw, hs, rfl, by simp [hempty]⟩

end Step

/-- **Key-only trees**: a run of insertions and deletions returns the tree
of the keys inserted and not since deleted if and only if no deletion
leaves a leaf short. -/
theorem BTree.run_keyOnly_iff (T : ScalarType K) (rawKeys : NodeId → ℕ → K)
    (rawValues : NodeId → ℕ → V) (rawNodes : NodeId → ℕ → NodeId) (ops : List (Op K V))
    (hlegal : Legal ∅ ops) :
    (∃ t n, (new T true rawKeys rawValues rawNodes).run ops = .ok t ∧ t.WellFormed n ∧
        ((t.contents n).map Prod.fst).Pairwise (· < ·) ∧
        ∀ k, k ∈ (t.contents n).map Prod.fst ↔ k ∈ keysAfter ∅ ops) ↔
      (new T true rawKeys rawValues rawNodes).neverUnderflows ops = true := by
  have hnew := KeyTree.new T rawKeys rawValues rawNodes
  constructor
  · rintro ⟨t, n, hok, -⟩
    by_contra hunder
    rw [hnew.run_error hlegal (by simpa using hunder)] at hok
    exact absurd hok (by simp)
  · intro hnever
    have hrun := hnew.run ops hlegal
    rw [if_pos hnever] at hrun
    obtain ⟨t, n, hok, ht⟩ := hrun
    exact ⟨t, n, hok, ht.wellFormed, ht.wellFormed.sorted, ht.keys⟩

def emptyKeys : BTree ℕ Unit :=
  new (ScalarType.ofOrder ℕ) true (fun _ _ => 0) (fun _ _ => ()) fun _ _ => 0

theorem emptyKeys_keyTree : KeyTree emptyKeys 0 ∅ := KeyTree.new ..

/-- Seventy keys fill two leaves, and the larger one can spare a key. -/
theorem BTree.run_keyOnly_iff_seventy : ∃ t n,
    emptyKeys.run ((List.range 70).map (.insert · ()) ++ [.delete 69]) = .ok t ∧ t.WellFormed n := by
  obtain ⟨t, n, hok, hw, -⟩ := (run_keyOnly_iff (ScalarType.ofOrder ℕ) (fun _ _ => 0)
    (fun _ _ => ()) (fun _ _ => 0) ((List.range 70).map (.insert · ()) ++ [.delete 69])
    (by decide +kernel)).mpr (by decide +kernel)
  exact ⟨t, n, hok, hw⟩

/-- After 65 insertions in ascending order the first leaf has 32 keys and
the second 33. Deleting a key of the first borrows from the second, and
with the key a value. -/
theorem BTree.run_keyOnly_fails :
    Legal ∅ ((List.range 65).map (Op.insert · ()) ++ [.delete 0]) ∧
      emptyKeys.run ((List.range 65).map (.insert · ()) ++ [.delete 0]) = .error .nullValues :=
  have hlegal : Legal ∅ ((List.range 65).map (Op.insert · ()) ++ [.delete 0]) := by
    decide +kernel
  ⟨hlegal, emptyKeys_keyTree.run_error hlegal (by decide +kernel)⟩

end Fastore.Tree
