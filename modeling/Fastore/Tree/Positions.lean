import Fastore.Tree.Iterator
import Fastore.Tree.Memory
import Mathlib.Data.Set.Finite.Lemmas

/-!
Iterators as positions.

The entries of a tree are numbered by their keys in ascending order, and
an iterator stands before one of them or behind the last one
(`Iterator.Stands`). Moving counts the number up or down, and two
iterators are equal exactly when their numbers are
(`Iterator.Stands.same_iff`).

A search is a position as well, with one exception: the constructor looks
for a further child in the parent of the leaf only. A key that belongs
behind the last leaf of one branch of leaves and before the first leaf of
the next one ends in an iterator that is neither on an entry nor the end
(`BTree.Strays`).
-/

namespace Fastore.Tree

open Lib List Iterator BTree

variable {K V : Type} [LinearOrder K]

/-- The iterator stands before entry number `i`, or behind the last one. -/
structure Iterator.Stands (t : BTree K V) (n : ℕ) (it : Iterator) (i : ℕ) : Prop where
  walk : Walk t.cells n t.root it.path.branches 0 it.path.leaf
  index_le : it.path.leafIndex ≤ countOf t.cells it.path.leaf
  eof_iff_index : it.eof = true ↔ it.path.leafIndex = countOf t.cells it.path.leaf
  /-- Only the last leaf has a position behind its entries. -/
  last : it.eof = true → after t.cells n it.path.branches = []
  number : i = (before t.cells n it.path.branches).length + it.path.leafIndex

section Positions

variable {t : BTree K V} {n i j : ℕ} {it it' : Iterator}

theorem BTree.WellFormed.spots_sorted (ht : t.WellFormed n) :
    (spots t.cells n t.root).Pairwise fun x y => x.2.1 < y.2.1 := by
  have hsorted := ht.sorted
  rw [contents, entries, map_map, pairwise_map] at hsorted
  exact hsorted

variable {bs : List PathNode}

theorem Walk.length_spots {q : NodeId} (ht : t.WellFormed n)
    (w : Walk t.cells n t.root bs 0 q) : (spots t.cells n t.root).length =
      (before t.cells n bs).length + countOf t.cells q + (after t.cells n bs).length := by
  obtain ⟨l, hl, -⟩ := w.wf_end ht.wf
  rw [w.spots_eq, spots_leaf hl, length_append, length_append, length_map,
    l.length_entries]
  simp only [countOf, hl, Node.count]

theorem Walk.eq_lastLeaf {q : NodeId} (ht : t.WellFormed n) (w : Walk t.cells n t.root bs 0 q)
    (hafter : after t.cells n bs = []) :
    q = lastLeaf t.cells n t.root := by
  have hfull := (w.after_eq_nil_iff ht.wf ht.nodup ht.min_pos).mp hafter
  exact (w.lastLeaf_of_full hfull).symm

theorem Walk.leaf_sorted {q : NodeId} {l : Leaf K V} (ht : t.WellFormed n)
    (w : Walk t.cells n t.root bs 0 q) (hl : t.cells q = some (.leaf l)) :
    l.entries.Pairwise fun x y => x.1 < y.1 := by
  obtain ⟨l', hl', hok⟩ := w.wf_end ht.wf
  rw [hl] at hl'
  obtain rfl := Node.leaf.inj (Option.some.inj hl')
  exact hok.sorted

theorem Leaf.entry_inj {l : Leaf K V} (hs : l.entries.Pairwise fun x y => x.1 < y.1) {a b : ℕ}
    (ha : a < l.count) (hb : b < l.count) (heq : l.entry a = l.entry b) : a = b := by
  have hnodup : l.entries.Nodup := hs.imp fun hlt heq => absurd (heq ▸ hlt) (lt_irrefl _)
  refine (getElem?_inj (by simpa using ha) hnodup).mp ?_
  rw [l.getElem?_entries ha, l.getElem?_entries hb, heq]

theorem BTree.length_contents : (t.contents n).length = (spots t.cells n t.root).length := by
  rw [contents, entries, length_map]

theorem Iterator.Stands.eof_iff (h : it.Stands t n i) (ht : t.WellFormed n) :
    it.eof = true ↔ i = (t.contents n).length := by
  have hlen := h.walk.length_spots ht
  rw [length_contents]
  refine ⟨fun heof => ?_, fun hi => h.eof_iff_index.mpr ?_⟩
  · rw [h.number, h.eof_iff_index.mp heof, hlen, h.last heof]
    rfl
  · have := h.number
    have := h.index_le
    omega

theorem Iterator.Stands.le (h : it.Stands t n i) (ht : t.WellFormed n) :
    i ≤ (t.contents n).length := by
  have := h.walk.length_spots ht
  have := h.number
  have := h.index_le
  rw [length_contents]
  omega

theorem Iterator.Stands.spot (h : it.Stands t n i) (ht : t.WellFormed n)
    (hi : i ≠ (t.contents n).length) : ∃ l, t.cells it.path.leaf = some (.leaf l) ∧
      it.path.leafIndex < l.count ∧
      (spots t.cells n t.root)[i]? = some (it.path.leaf, l.entry it.path.leafIndex) := by
  obtain ⟨l, hl, -⟩ := h.walk.wf_end ht.wf
  have hlt : it.path.leafIndex < l.count := by
    have hne : ¬ it.path.leafIndex = countOf t.cells it.path.leaf :=
      fun heq => hi ((h.eof_iff ht).mp (h.eof_iff_index.mpr heq))
    have hle := h.index_le
    simp only [countOf, hl, Node.count] at hne hle
    omega
  refine ⟨l, hl, hlt, ?_⟩
  rw [h.walk.spots_eq, spots_leaf hl, h.number, append_assoc,
    getElem?_append_right (by omega), Nat.add_sub_cancel_left,
    getElem?_append_left (by simpa using hlt), getElem?_map,
    l.getElem?_entries hlt, Option.map_some]

theorem Iterator.Stands.get (h : it.Stands t n i) (ht : t.WellFormed n) :
    it.get t = match (t.contents n)[i]? with
      | some e => .ok e
      | none => .error (.thrown "Iterator not dereferenceable") := by
  by_cases hi : i = (t.contents n).length
  · obtain ⟨l, hl, -⟩ := h.walk.wf_end ht.wf
    have hge : l.count ≤ it.path.leafIndex := by
      have heq := h.eof_iff_index.mp ((h.eof_iff ht).mpr hi)
      simp only [countOf, hl, Node.count] at heq
      omega
    rw [getElem?_eq_none (by omega)]
    simp only [Iterator.get, leafAt, hl, bind, Except.bind, if_pos hge]
  · obtain ⟨l, hl, hlt, hspot⟩ := h.spot ht hi
    have hentry : (t.contents n)[i]? = some (l.entry it.path.leafIndex) := by
      rw [contents, entries, getElem?_map, hspot, Option.map_some]
    have hnot : ¬ l.count ≤ it.path.leafIndex := by omega
    simp only [hentry, Iterator.get, leafAt, hl, bind, Except.bind, if_neg hnot]

/-- **`operator==`** compares positions. -/
theorem Iterator.Stands.same_iff (h : it.Stands t n i) (h' : it'.Stands t n j)
    (ht : t.WellFormed n) : it.same it' = true ↔ i = j := by
  have hsame : it.same it' = true ↔ it.path.leaf = it'.path.leaf ∧
      it.path.leafIndex = it'.path.leafIndex ∧ it.eof = it'.eof := by
    simp [same, and_assoc]
  rw [hsame]
  by_cases hi : i = (t.contents n).length
  · have heof := (h.eof_iff ht).mpr hi
    constructor
    · rintro ⟨-, -, heq⟩
      rw [hi, (h'.eof_iff ht).mp (heq ▸ heof)]
    · rintro rfl
      have heof' := (h'.eof_iff ht).mpr hi
      -- both are behind the last leaf
      have hleaf : it.path.leaf = it'.path.leaf :=
        (h.walk.eq_lastLeaf ht (h.last heof)).trans (h'.walk.eq_lastLeaf ht (h'.last heof')).symm
      refine ⟨hleaf, ?_, heof.trans heof'.symm⟩
      rw [h.eof_iff_index.mp heof, h'.eof_iff_index.mp heof', hleaf]
  · obtain ⟨l, hl, hlt, hspot⟩ := h.spot ht hi
    have heof : it.eof = false := by
      rw [Bool.eq_false_iff, ne_eq, h.eof_iff ht]
      exact hi
    constructor
    · rintro ⟨hleaf, hindex, heq⟩
      have hj : j ≠ (t.contents n).length := by
        rw [ne_eq, ← h'.eof_iff ht, ← heq, heof]
        simp
      obtain ⟨l', hl', hlt', hspot'⟩ := h'.spot ht hj
      rw [← hleaf, hl] at hl'
      obtain rfl := Node.leaf.inj (Option.some.inj hl')
      have hnodup : (spots t.cells n t.root).Nodup :=
        ht.spots_sorted.imp fun hlt heq => absurd (heq ▸ hlt) (lt_irrefl _)
      rw [← hleaf, ← hindex, ← hspot] at hspot'
      have hlen : i < (spots t.cells n t.root).length := by
        have := h.le ht
        rw [length_contents] at this hi
        omega
      exact (getElem?_inj hlen hnodup).mp hspot'.symm
    · rintro rfl
      obtain ⟨l', hl', hlt', hspot'⟩ := h'.spot ht hi
      obtain ⟨hleaf, hentry⟩ := Prod.mk.inj (some_unique hspot hspot')
      rw [← hleaf, hl] at hl'
      obtain rfl := Node.leaf.inj (Option.some.inj hl')
      refine ⟨hleaf, l.entry_inj (h.walk.leaf_sorted ht hl) hlt hlt' hentry, ?_⟩
      rw [heof, eq_comm, Bool.eq_false_iff, ne_eq, h'.eof_iff ht]
      exact hi

/-! ### Moves -/

theorem BTree.WellFormed.beginIter_stands (ht : t.WellFormed n) :
    ∃ it, t.beginIter = .ok it ∧ it.Stands t n 0 := by
  obtain ⟨bs, q, hbegin, hw, hS, hroot⟩ := ht.beginIter_eq
  have hbefore : before t.cells n bs = [] := by
    have hlen := congrArg List.length (hw.spots_eq.symm.trans hS)
    simp only [length_append] at hlen
    exact eq_nil_of_length_eq_zero (by omega)
  obtain ⟨l, hl, -⟩ := hw.wf_end ht.wf
  have hempty : spots t.cells n t.root = [] ↔ 0 = countOf t.cells q := by
    have hlen := hw.length_spots ht
    rw [hbefore, length_nil, Nat.zero_add] at hlen
    have hq : spots t.cells 0 q = [] ↔ 0 = countOf t.cells q := by
      rw [spots_leaf hl, map_eq_nil_iff, ← length_eq_zero_iff, l.length_entries]
      simp only [countOf, hl, Node.count, eq_comm]
    rw [← hq]
    refine ⟨fun hnil => ?_, fun hnil => ?_⟩
    · rw [hS] at hnil
      exact (append_eq_nil_iff.mp hnil).1
    · rw [hS, hnil, hroot hnil, after_nil, nil_append]
  refine ⟨_, hbegin, hw, Nat.zero_le _, ?_, fun heof => ?_, ?_⟩
  · rw [decide_eq_true_iff]
    exact hempty
  · rw [hS] at heof
    exact (append_eq_nil_iff.mp (of_decide_eq_true heof)).2
  · simp [hbefore]

theorem BTree.WellFormed.endIter_stands (ht : t.WellFormed n) :
    ∃ it, t.endIter = .ok it ∧ it.Stands t n (t.contents n).length := by
  obtain ⟨bs, hend, hw, hafter⟩ := ht.endIter_eq
  refine ⟨_, hend, hw, le_refl _, by simp, fun _ => hafter, ?_⟩
  have := hw.length_spots ht
  rw [hafter] at this
  rw [length_contents]
  simpa using this

/-- **`operator++`** moves to the next position. -/
theorem Iterator.Stands.moveNext (h : it.Stands t n i) (ht : t.WellFormed n)
    (heof : it.eof = false) : ∃ it', it.moveNext t = .ok it' ∧ it'.Stands t n (i + 1) := by
  obtain ⟨l, hl, -⟩ := h.walk.wf_end ht.wf
  have hcount : countOf t.cells it.path.leaf = l.count := by simp only [countOf, hl, Node.count]
  have hlt : it.path.leafIndex < l.count := by
    have hne : ¬ it.path.leafIndex = countOf t.cells it.path.leaf := by
      rw [← h.eof_iff_index, heof]
      simp
    have := h.index_le
    omega
  have hnumber := h.number
  rcases Nat.lt_or_ge (it.path.leafIndex + 1) l.count with hnext | hlast
  · -- the leaf goes on
    have hnot : ¬ l.count ≤ it.path.leafIndex + 1 := by omega
    refine ⟨⟨{ it.path with leafIndex := it.path.leafIndex + 1 }, false⟩, ?_, h.walk, ?_, ?_, ?_, ?_⟩
    · simp only [Iterator.moveNext, heof, Bool.false_eq_true, if_false, leafAt, hl, bind,
        Except.bind, if_neg hnot]
    · rw [hcount]
      exact hnext.le
    · simp only [hcount, Bool.false_eq_true, false_iff]
      omega
    · intro hfalse
      simp at hfalse
    · simp only
      omega
  · have hindex : it.path.leafIndex + 1 = l.count := by omega
    rcases Iterator.moveNext_last ht heof h.walk hl hlast with
      ⟨hmove, hafter, -⟩ | ⟨bs, q, hmove, hw, hbs, hafter⟩
    · refine ⟨_, hmove, h.walk, ?_, ?_, fun _ => hafter, ?_⟩
      · exact hcount.ge
      · simp only [hcount]
      · simp only
        omega
    · have hlen := h.walk.length_spots ht
      have hlen' := hw.length_spots ht
      have hq : countOf t.cells q = (spots t.cells 0 q).length ∧ countOf t.cells q ≠ 0 := by
        have hne := ht.subtree_ne_nil hw hbs
        obtain ⟨l', hl', -⟩ := hw.wf_end ht.wf
        rw [spots_leaf hl'] at hne ⊢
        simp only [countOf, hl', Node.count, length_map, l'.length_entries, true_and]
        rw [ne_eq, map_eq_nil_iff, ← length_eq_zero_iff, l'.length_entries] at hne
        exact hne
      have hrest := congrArg List.length hafter
      rw [length_append, ← hq.1] at hrest
      refine ⟨_, hmove, hw, Nat.zero_le _, ?_, ?_, ?_⟩
      · simp only [Bool.false_eq_true, false_iff]
        exact hq.2.symm
      · intro hfalse
        simp at hfalse
      · simp only
        omega

theorem Iterator.moveNext_eof (heof : it.eof = true) :
    it.moveNext t = .error (.thrown "Iteration past end of tree") := by
  rw [moveNext, if_pos heof]

/-- **`operator--`** moves to the position before. -/
theorem Iterator.Stands.movePrior (h : it.Stands t n (i + 1)) (ht : t.WellFormed n) :
    ∃ it', it.movePrior t = .ok it' ∧ it'.Stands t n i := by
  have hnumber := h.number
  have hle := h.index_le
  by_cases hzero : it.path.leafIndex = 0
  · rcases h.walk.dropWhile_first with ⟨-, hbefore⟩ | ⟨x, up, b, k, hdrop, hb, hw, hbefore⟩
    · rw [hbefore, hzero] at hnumber
      simp at hnumber
    · have hk : k < t.next := by
        have := hw.height
        have := ht.toShaped.height_lt_next
        omega
      obtain ⟨bs, hseek, hwq, hlast⟩ := Node.seekToLast_spec t
        (up.reverse ++ [⟨x.pNode, x.index - 1⟩]) hk (hw.wf_end ht.wf)
      have hwhole := hw.append hwq
      have hpos : countOf t.cells (lastLeaf t.cells k (b.children (x.index - 1))) ≠ 0 := by
        have hne := ht.subtree_ne_nil hwhole (by simp)
        obtain ⟨l, hl, -⟩ := hwhole.wf_end ht.wf
        rw [spots_leaf hl, ne_eq, map_eq_nil_iff, ← length_eq_zero_iff,
          l.length_entries] at hne
        simpa only [countOf, hl, Node.count] using hne
      -- what was before the leaf is now before it or in its end
      have hafter : after t.cells k bs = [] := by
        refine hwq.after_of_full fun z hz => ?_
        obtain ⟨c, hc, -⟩ := hwq.branch_of_mem hz
        rw [hlast z hz c hc]
        simp only [countOf, hc, Node.count]
      have hplace : (before t.cells n it.path.branches).length =
          (before t.cells n (up.reverse ++ [⟨x.pNode, x.index - 1⟩] ++ bs)).length +
            countOf t.cells (lastLeaf t.cells k (b.children (x.index - 1))) := by
        obtain ⟨l, hl, -⟩ := hwhole.wf_end ht.wf
        rw [hbefore, hw.before_append, hwq.spots_eq, hafter, spots_leaf hl]
        simp only [append_nil, length_append, length_map, l.length_entries, countOf,
          hl, Node.count]
        omega
      have hmove : it.movePrior t = .ok ⟨⟨up.reverse ++ [⟨x.pNode, x.index - 1⟩] ++ bs,
          lastLeaf t.cells k (b.children (x.index - 1)),
          countOf t.cells (lastLeaf t.cells k (b.children (x.index - 1))) - 1, false⟩, false⟩ := by
        simp only [Iterator.movePrior, if_pos hzero, hdrop, branchAt, hb, bind, Except.bind,
          hseek]
      refine ⟨_, hmove, hwhole, Nat.sub_le _ _, ?_, ?_, ?_⟩
      · simp only [Bool.false_eq_true, false_iff]
        omega
      · intro hfalse
        simp at hfalse
      · simp only
        omega
  · refine ⟨⟨{ it.path with leafIndex := it.path.leafIndex - 1 }, false⟩,
      by rw [Iterator.movePrior, if_neg hzero], h.walk, ?_, ?_, ?_, ?_⟩
    · simp only
      omega
    · simp only [Bool.false_eq_true, false_iff]
      omega
    · intro hfalse
      simp at hfalse
    · simp only
      omega

theorem Iterator.Stands.movePrior_first (h : it.Stands t n 0) (ht : t.WellFormed n) :
    it.movePrior t = .error (.thrown "Iteration past start of tree") := by
  have hnumber := h.number
  have hzero : it.path.leafIndex = 0 := by omega
  rcases h.walk.dropWhile_first with ⟨hdrop, -⟩ | ⟨x, up, b, k, -, -, hw, hbefore⟩
  · simp only [Iterator.movePrior, if_pos hzero, hdrop]
  · have hlen := congrArg List.length hbefore
    have hne := length_pos_of_ne_nil (ht.subtree_ne_nil hw (by simp))
    rw [length_append] at hlen
    omega

end Positions

/-! ### Whole runs -/

/-- `begin()`, moved on `i` times. -/
def BTree.forward (t : BTree K V) : ℕ → Except Fault Iterator
  | 0 => t.beginIter
  | i + 1 => do
    let it ← t.forward i
    it.moveNext t

/-- `end()`, moved back `i` times. -/
def BTree.backward (t : BTree K V) : ℕ → Except Fault Iterator
  | 0 => t.endIter
  | i + 1 => do
    let it ← t.backward i
    it.movePrior t

/-- The iterators a program gets from the two ends and from `find`, moving
on and back as often as it likes. -/
inductive BTree.Reaches (t : BTree K V) : Iterator → Prop
  | first {it : Iterator} (h : t.beginIter = .ok it) : t.Reaches it
  | last {it : Iterator} (h : t.endIter = .ok it) : t.Reaches it
  | found {it : Iterator} {key : K} (h : t.find key = .ok it) : t.Reaches it
  | next {it it' : Iterator} (h : t.Reaches it) (hmove : it.moveNext t = .ok it') : t.Reaches it'
  | prior {it it' : Iterator} (h : t.Reaches it) (hmove : it.movePrior t = .ok it') :
      t.Reaches it'

section Runs

variable {t : BTree K V} {n i : ℕ} {it : Iterator}

theorem Iterator.stands_inside {path : Path} {l : Leaf K V}
    (w : Walk t.cells n t.root path.branches 0 path.leaf) (hl : t.cells path.leaf = some (.leaf l))
    (hi : path.leafIndex < l.count) :
    Iterator.Stands t n ⟨path, false⟩
      ((before t.cells n path.branches).length + path.leafIndex) := by
  have hcount : countOf t.cells path.leaf = l.count := by simp only [countOf, hl, Node.count]
  refine ⟨w, ?_, ?_, fun hfalse => by simp at hfalse, rfl⟩
  · rw [hcount]
    exact hi.le
  · simp only [hcount, Bool.false_eq_true, false_iff]
    omega

theorem Iterator.Stands.next_of_ok {it' : Iterator} (h : it.Stands t n i) (ht : t.WellFormed n)
    (hmove : it.moveNext t = .ok it') : it'.Stands t n (i + 1) := by
  cases heof : it.eof with
  | true =>
    rw [moveNext_eof heof] at hmove
    simp at hmove
  | false =>
    obtain ⟨it₁, hmove', h'⟩ := h.moveNext ht heof
    rw [hmove] at hmove'
    obtain rfl := Except.ok.inj hmove'
    exact h'

theorem Iterator.Stands.prior_of_ok {it' : Iterator} (h : it.Stands t n i) (ht : t.WellFormed n)
    (hmove : it.movePrior t = .ok it') : ∃ k, i = k + 1 ∧ it'.Stands t n k := by
  cases i with
  | zero =>
    rw [h.movePrior_first ht] at hmove
    simp at hmove
  | succ k =>
    obtain ⟨it₁, hmove', h'⟩ := h.movePrior ht
    rw [hmove] at hmove'
    obtain rfl := Except.ok.inj hmove'
    exact ⟨k, rfl, h'⟩

namespace BTree

theorem WellFormed.find_stands {key : K} (ht : t.WellFormed n)
    (hfind : t.find key = .ok it) : ∃ i, it.Stands t n i := by
  obtain ⟨path, hpath, hland⟩ := ht.getPath key
  simp only [find, hpath, bind, Except.bind] at hfind
  cases hm : path.isMatch with
  | true =>
    rw [if_pos hm, iterator, if_pos hm] at hfind
    obtain rfl := Except.ok.inj hfind
    obtain ⟨l, v, hl, hlt, -⟩ := hland.entry hm
    obtain ⟨bs, hbs, hw, -⟩ := hland.walk
    rw [nil_append] at hbs
    subst hbs
    exact ⟨_, stands_inside hw hl hlt⟩
  | false =>
    rw [if_neg (by simp [hm])] at hfind
    obtain ⟨stop, hend, hstop⟩ := ht.endIter_stands
    rw [hfind] at hend
    obtain rfl := Except.ok.inj hend
    exact ⟨_, hstop⟩

/-- **Every iterator a program can get is a position.** -/
theorem Reaches.stands (ht : t.WellFormed n) (h : t.Reaches it) : ∃ i, it.Stands t n i := by
  induction h with
  | first hbegin =>
    obtain ⟨start, hstart, h⟩ := ht.beginIter_stands
    obtain rfl := ok_unique hbegin hstart
    exact ⟨0, h⟩
  | last hend =>
    obtain ⟨stop, hstop, h⟩ := ht.endIter_stands
    obtain rfl := ok_unique hend hstop
    exact ⟨_, h⟩
  | found hfind => exact ht.find_stands hfind
  | next _ hmove ih =>
    obtain ⟨i, h⟩ := ih
    exact ⟨i + 1, h.next_of_ok ht hmove⟩
  | prior _ hmove ih =>
    obtain ⟨i, h⟩ := ih
    obtain ⟨k, -, h'⟩ := h.prior_of_ok ht hmove
    exact ⟨k, h'⟩

theorem WellFormed.forward_stands (ht : t.WellFormed n) (hi : i ≤ (t.contents n).length) :
    ∃ it, t.forward i = .ok it ∧ it.Stands t n i := by
  induction i with
  | zero => exact ht.beginIter_stands
  | succ i ih =>
    obtain ⟨it, hit, h⟩ := ih (by omega)
    have heof : it.eof = false := by
      rw [Bool.eq_false_iff, ne_eq, h.eof_iff ht]
      omega
    obtain ⟨it', hmove, h'⟩ := h.moveNext ht heof
    refine ⟨it', ?_, h'⟩
    simp only [forward, hit, bind, Except.bind, hmove]

theorem WellFormed.backward_stands (ht : t.WellFormed n) (hi : i ≤ (t.contents n).length) :
    ∃ it, t.backward i = .ok it ∧ it.Stands t n ((t.contents n).length - i) := by
  induction i with
  | zero => exact ht.endIter_stands
  | succ i ih =>
    obtain ⟨it, hit, h⟩ := ih (by omega)
    rw [show (t.contents n).length - i = (t.contents n).length - (i + 1) + 1 by omega] at h
    obtain ⟨it', hmove, h'⟩ := h.movePrior ht
    refine ⟨it', ?_, h'⟩
    simp only [backward, hit, bind, Except.bind, hmove]

/-- What a program sees of the iterators of a tree, with those of `begin()`
and `end()` given. -/
structure Iterates (t : BTree K V) (n : ℕ) (start stop : Iterator) : Prop where
  ascending : ((t.contents n).map Prod.fst).Pairwise (· < ·)
  /-- Moving on from the start visits entry by entry and comes to the end. -/
  forward : ∀ i e, (t.contents n)[i]? = some e →
    ∃ it, t.forward i = .ok it ∧ it.get t = .ok e ∧ it.same stop = false
  forward_end : ∃ it, t.forward (t.contents n).length = .ok it ∧ it.same stop = true
  /-- Moving back from the end visits the same entries and comes to the
  start with the last of them. -/
  backward : ∀ i e, (t.contents n).reverse[i]? = some e →
    ∃ it, t.backward (i + 1) = .ok it ∧ it.get t = .ok e ∧
      (it.same start = true ↔ i + 1 = (t.contents n).length)
  backward_end : ∃ it, t.backward (t.contents n).length = .ok it ∧ it.same start = true
  next_prior : ∀ it it', t.Reaches it → it.moveNext t = .ok it' →
    ∃ back, it'.movePrior t = .ok back ∧ back.same it = true
  prior_next : ∀ it it', t.Reaches it → it.movePrior t = .ok it' →
    ∃ back, it'.moveNext t = .ok back ∧ back.same it = true
  /-- The calls that throw. -/
  next_throws : ∀ it, t.Reaches it → if it.same stop then
    it.moveNext t = .error (.thrown "Iteration past end of tree") else ∃ it', it.moveNext t = .ok it'
  prior_throws : ∀ it, t.Reaches it → if it.same start then
    it.movePrior t = .error (.thrown "Iteration past start of tree")
    else ∃ it', it.movePrior t = .ok it'
  get_throws : ∀ it, t.Reaches it → if it.same stop then
    it.get t = .error (.thrown "Iterator not dereferenceable") else ∃ e, it.get t = .ok e

/-- **Iterators** of a well-formed tree run through its entries in both
directions. -/
theorem iterates (ht : t.WellFormed n) : ∃ start stop, t.beginIter = .ok start ∧
    t.endIter = .ok stop ∧ t.Iterates n start stop := by
  obtain ⟨start, hstart, hfirst⟩ := ht.beginIter_stands
  obtain ⟨stop, hstop, hlast⟩ := ht.endIter_stands
  refine ⟨start, stop, hstart, hstop, ht.sorted, fun i e he => ?_, ?_, fun i e he => ?_, ?_,
    fun it it' hit hmove => ?_, fun it it' hit hmove => ?_, fun it hit => ?_, fun it hit => ?_,
    fun it hit => ?_⟩
  · have hlt := (List.getElem?_eq_some_iff.mp he).1
    obtain ⟨it, hit, h⟩ := ht.forward_stands hlt.le
    refine ⟨it, hit, by simp only [h.get ht, he], ?_⟩
    rw [Bool.eq_false_iff, ne_eq, h.same_iff hlast ht]
    omega
  · obtain ⟨it, hit, h⟩ := ht.forward_stands (le_refl _)
    exact ⟨it, hit, (h.same_iff hlast ht).mpr rfl⟩
  · have hlt := (List.getElem?_eq_some_iff.mp he).1
    rw [List.length_reverse] at hlt
    obtain ⟨it, hit, h⟩ := ht.backward_stands (show i + 1 ≤ (t.contents n).length from hlt)
    rw [getElem?_reverse hlt, show (t.contents n).length - 1 - i =
      (t.contents n).length - (i + 1) by omega] at he
    refine ⟨it, hit, by simp only [h.get ht, he], ?_⟩
    rw [h.same_iff hfirst ht]
    omega
  · obtain ⟨it, hit, h⟩ := ht.backward_stands (le_refl _)
    exact ⟨it, hit, (h.same_iff hfirst ht).mpr (Nat.sub_self _)⟩
  · obtain ⟨i, h⟩ := hit.stands ht
    obtain ⟨back, hback, h'⟩ := (h.next_of_ok ht hmove).movePrior ht
    exact ⟨back, hback, (h'.same_iff h ht).mpr rfl⟩
  · obtain ⟨i, h⟩ := hit.stands ht
    obtain ⟨k, rfl, h'⟩ := h.prior_of_ok ht hmove
    have heof : it'.eof = false := by
      have := h.le ht
      rw [Bool.eq_false_iff, ne_eq, h'.eof_iff ht]
      omega
    obtain ⟨back, hback, h''⟩ := h'.moveNext ht heof
    exact ⟨back, hback, (h''.same_iff h ht).mpr rfl⟩
  · obtain ⟨i, h⟩ := hit.stands ht
    have hsame : it.same stop = true ↔ it.eof = true :=
      (h.same_iff hlast ht).trans (h.eof_iff ht).symm
    split
    case isTrue hend => exact moveNext_eof (hsame.mp hend)
    case isFalse hend =>
      obtain ⟨it', hmove, -⟩ := h.moveNext ht (by simpa [hsame] using hend)
      exact ⟨it', hmove⟩
  · obtain ⟨i, h⟩ := hit.stands ht
    split
    case isTrue hbegin =>
      obtain rfl := (h.same_iff hfirst ht).mp hbegin
      exact h.movePrior_first ht
    case isFalse hbegin =>
      cases i with
      | zero => exact absurd ((h.same_iff hfirst ht).mpr rfl) hbegin
      | succ i =>
        obtain ⟨it', hmove, -⟩ := h.movePrior ht
        exact ⟨it', hmove⟩
  · obtain ⟨i, h⟩ := hit.stands ht
    rw [h.get ht]
    split
    case isTrue hend =>
      rw [getElem?_eq_none ((h.same_iff hlast ht).mp hend).ge]
    case isFalse hend =>
      have hlt : i < (t.contents n).length := by
        have hne : i ≠ (t.contents n).length := fun heq => hend ((h.same_iff hlast ht).mpr heq)
        have := h.le ht
        omega
      rw [getElem?_eq_getElem hlt]
      exact ⟨_, rfl⟩

/-- The iterators of a tree of three levels. -/
theorem iterates_wide : ∃ start stop, wide.beginIter = .ok start ∧
    wide.endIter = .ok stop ∧ wide.Iterates 2 start stop :=
  iterates wide_wellFormed

end BTree

end Runs

/-! ### A tree with gaps between its keys -/

section Spaced

def Node.mapKeys (f : K → K) : Node K V → Node K V
  | .leaf l => .leaf ⟨l.count, fun i => f (l.keys i), l.values⟩
  | .branch b => .branch ⟨b.count, fun i => f (b.keys i), b.children⟩

def BTree.mapKeys (f : K → K) (t : BTree K V) : BTree K V :=
  { t with cells := fun z => (t.cells z).map (Node.mapKeys f) }

variable {t : BTree K V} {n : ℕ} {f : K → K}

namespace BTree

theorem kidsAt_mapKeys (z : NodeId) :
    kidsAt (t.mapKeys f).cells z = kidsAt t.cells z := by
  simp only [kidsAt, mapKeys]
  cases t.cells z with
  | none => rfl
  | some node => cases node <;> rfl

theorem spots_mapKeys (p : NodeId) : spots (t.mapKeys f).cells n p =
    (spots t.cells n p).map fun x => (x.1, f x.2.1, x.2.2) := by
  induction n generalizing p with
  | zero =>
    simp only [spots, leafSpots, mapKeys]
    cases t.cells p with
    | none => rfl
    | some node =>
      cases node with
      | leaf l => simp [Node.mapKeys, Leaf.entries, Leaf.entry, map_window]
      | branch b => rfl
  | succ n ih =>
    simp only [spots, kidsAt_mapKeys, map_flatMap]
    exact flatMap_congr fun c _ => ih c

theorem keysOf_mapKeys (p : NodeId) :
    keysOf (t.mapKeys f).cells n p = (keysOf t.cells n p).map f := by
  simp only [keysOf, entries, spots_mapKeys, map_map, Function.comp_def]

theorem wf_mapKeys {B : Bounds} (hf : StrictMono f) {p : NodeId} (hwf : WF t.cells B n p) :
    WF (t.mapKeys f).cells B n p := by
  induction n generalizing p with
  | zero =>
    obtain ⟨l, hl, hok⟩ := hwf
    refine ⟨⟨l.count, fun i => f (l.keys i), l.values⟩, by simp [mapKeys, hl, Node.mapKeys],
      hok.min_le, hok.le_cap, ?_, hok.layout⟩
    have hsorted := hok.sorted
    rw [Leaf.entries, window, pairwise_map] at hsorted ⊢
    exact hsorted.imp fun hlt => hf hlt
  | succ n ih =>
    obtain ⟨b, hb, hmin, hcap, hkids, hsep⟩ := hwf
    refine ⟨⟨b.count, fun i => f (b.keys i), b.children⟩,
      by simp [mapKeys, hb, Node.mapKeys], hmin, hcap, fun c hc => ih (hkids c hc), ?_⟩
    have hmap := separated_map hf hsep
    rw [Branch.seps, map_window, map_map] at hmap
    rw [map_congr_left fun c _ => keysOf_mapKeys c]
    exact hmap

theorem WellFormed.mapKeys (hf : StrictMono f) (ht : t.WellFormed n) :
    (t.mapKeys f).WellFormed n := by
  have hnodes : nodes (t.mapKeys f).cells n t.root = nodes t.cells n t.root :=
    nodes_of_kidsAt fun z _ => kidsAt_mapKeys z
  refine ⟨⟨wf_mapKeys hf ht.wf, ?_, ?_⟩, ht.capacity, ?_⟩
  · exact hnodes.symm ▸ ht.nodup
  · intro z hz
    exact ht.fresh z (hnodes ▸ hz)
  · rw [length_contents]
    change t.count = ((spots (t.mapKeys f).cells n t.root).length : ℤ)
    rw [spots_mapKeys, length_map, ht.count, length_contents]

end BTree

def spaced : BTree ℕ ℕ := wide.mapKeys (2 * ·)

theorem spaced_wellFormed : spaced.WellFormed 2 :=
  wide_wellFormed.mapKeys fun _ _ hlt => Nat.mul_lt_mul_of_pos_left hlt (by decide)

end Spaced

/-! ### Searches -/

/-- The iterator and the flag are those of a lower bound of the key. -/
structure BTree.LowerBound (t : BTree K V) (n : ℕ) (key : K) (it : Iterator) (isMatch : Bool) :
    Prop where
  isMatch : isMatch = true ↔ key ∈ (t.contents n).map Prod.fst
  /-- The iterator points to the least entry that is not below the key. -/
  least : ∀ e ∈ t.contents n, key ≤ e.1 → (∀ e' ∈ t.contents n, key ≤ e'.1 → e.1 ≤ e'.1) →
    it.eof = false ∧ it.get t = .ok e
  /-- Without such an entry it is the end. -/
  beyond : (∀ e ∈ t.contents n, e.1 < key) → ∃ stop, t.endIter = .ok stop ∧ it.same stop = true

/-- The search for the key stops behind a leaf that is the last child of
its parent, but not the last leaf of the tree. -/
def BTree.Strays (t : BTree K V) (key : K) : Prop :=
  ∃ path x, t.getPath key = .ok path ∧ path.leafIndex = countOf t.cells path.leaf ∧
    path.branches.getLast? = some x ∧ x.index = countOf t.cells x.pNode ∧
    ∃ y ∈ path.branches, y.index < countOf t.cells y.pNode

section Searches

variable {t : BTree K V} {n i : ℕ} {it : Iterator} {key : K} {path : Path}

/-- A place between smaller and greater keys is the lower bound. -/
theorem Iterator.Stands.lowerBound {isMatch : Bool} (h : it.Stands t n i) (ht : t.WellFormed n)
    (hmatch : isMatch = true ↔ key ∈ (t.contents n).map Prod.fst)
    (hlo : ∀ e ∈ (t.contents n).take i, e.1 < key)
    (hhi : ∀ e ∈ (t.contents n).drop i, key ≤ e.1) : t.LowerBound n key it isMatch := by
  refine ⟨hmatch, fun e he hkey hleast => ?_, fun hall => ?_⟩
  · have hmem : e ∈ (t.contents n).drop i := by
      rw [← take_append_drop i (t.contents n), mem_append] at he
      rcases he with he | he
      · exact absurd (hlo e he) (not_lt_of_ge hkey)
      · exact he
    have hlt : i < (t.contents n).length := by
      by_contra hge
      rw [drop_eq_nil_of_le (by omega)] at hmem
      simp at hmem
    have heof : it.eof = false := by
      rw [Bool.eq_false_iff, ne_eq, h.eof_iff ht]
      omega
    have hsorted := ht.sorted
    rw [pairwise_map, ← take_append_drop i (t.contents n),
      pairwise_append] at hsorted
    obtain ⟨-, hsorted, -⟩ := hsorted
    rw [drop_eq_getElem_cons hlt] at hmem hsorted hhi
    refine ⟨heof, ?_⟩
    rw [h.get ht, getElem?_eq_getElem hlt]
    rcases mem_cons.mp hmem with rfl | hrest
    · rfl
    · -- an entry further on is not the least one
      have hle := hleast _ (getElem_mem hlt) (hhi _ mem_cons_self)
      exact absurd ((pairwise_cons.mp hsorted).1 e hrest) (not_lt_of_ge hle)
  · obtain ⟨stop, hstop, hlast⟩ := ht.endIter_stands
    refine ⟨stop, hstop, (h.same_iff hlast ht).mpr ?_⟩
    by_contra hne
    have hlt : i < (t.contents n).length := by
      have := h.le ht
      omega
    rw [drop_eq_getElem_cons hlt] at hhi
    exact absurd (hall _ (getElem_mem hlt)) (not_lt_of_ge (hhi _ mem_cons_self))

theorem Lands.cut (hland : Lands t.cells n t.root [] key path) (ht : t.WellFormed n) :
    ∃ l A D, t.cells path.leaf = some (.leaf l) ∧ l.entries = A ++ D ∧
      path.leafIndex = A.length ∧ (∀ e ∈ A, e.1 < key) ∧ (∀ e ∈ D, key ≤ e.1) ∧
      (path.isMatch = true → D ≠ []) := by
  obtain ⟨⟨bs, -, hw, -⟩, l, hl, hfinds⟩ := hland
  cases hm : path.isMatch with
  | true =>
    rw [hm, Leaf.Finds, if_pos rfl] at hfinds
    obtain ⟨A, v, D, hE, hi⟩ := hfinds
    have hsorted := hw.leaf_sorted ht hl
    rw [hE, pairwise_append] at hsorted
    refine ⟨l, A, (key, v) :: D, hl, hE, hi, fun e he => hsorted.2.2 e he (key, v) (by simp), ?_,
      by simp⟩
    intro e he
    rcases mem_cons.mp he with rfl | he
    · exact le_refl _
    · exact ((pairwise_cons.mp hsorted.2.1).1 e he).le
  | false =>
    rw [hm, Leaf.Finds, if_neg (by simp)] at hfinds
    obtain ⟨A, D, hE, hi, hA, hD⟩ := hfinds
    exact ⟨l, A, D, hl, hE, hi, hA, fun e he => (hD e he).le, by simp⟩

theorem Lands.sides (hland : Lands t.cells n t.root [] key path) (ht : t.WellFormed n)
    (hnumber : i = (before t.cells n path.branches).length + path.leafIndex) :
    (∀ e ∈ (t.contents n).take i, e.1 < key) ∧ ∀ e ∈ (t.contents n).drop i, key ≤ e.1 := by
  obtain ⟨l, A, D, hl, hE, hi, hA, hD, -⟩ := hland.cut ht
  obtain ⟨⟨bs, hbs, hw, hfit⟩, -⟩ := hland
  rw [nil_append] at hbs
  subst hbs
  obtain ⟨hbefore, hafter⟩ := hw.sides ht.wf ht.nodup ht.min_pos hfit
  have hS : t.contents n = ((before t.cells n path.branches).map Prod.snd ++ A) ++
      (D ++ (after t.cells n path.branches).map Prod.snd) := by
    rw [contents, entries, hw.spots_eq, spots_leaf hl, hE]
    simp [Function.comp_def]
  have hlen : i = ((before t.cells n path.branches).map Prod.snd ++ A).length := by
    rw [hnumber, hi, length_append, length_map]
  rw [hS, hlen, take_left, drop_left]
  refine ⟨fun e he => ?_, fun e he => ?_⟩
  · rcases mem_append.mp he with he | he
    · obtain ⟨x, hx, rfl⟩ := mem_map.mp he
      exact hbefore x hx
    · exact hA e he
  · rcases mem_append.mp he with he | he
    · exact hD e he
    · obtain ⟨x, hx, rfl⟩ := mem_map.mp he
      exact (hafter x hx).le

theorem BTree.LowerBound.eof_false {isMatch : Bool} {e : K × Option V}
    (hbound : t.LowerBound n key it isMatch) (he : e ∈ t.contents n) (hkey : key ≤ e.1) :
    it.eof = false := by
  obtain ⟨e₀, ⟨hmem, hkey₀⟩, hleast⟩ := Set.exists_min_image
    {e | e ∈ t.contents n ∧ key ≤ e.1} Prod.fst
    ((finite_toSet (t.contents n)).subset fun _ h => h.1) ⟨e, he, hkey⟩
  exact (hbound.least e₀ hmem hkey₀ fun e' he' hkey' => hleast e' ⟨he', hkey'⟩).1

theorem BTree.WellFormed.strays_iff (ht : t.WellFormed n) (hpath : t.getPath key = .ok path)
    (hw : Walk t.cells n t.root path.branches 0 path.leaf) :
    t.Strays key ↔ path.leafIndex = countOf t.cells path.leaf ∧
      (∀ x, path.branches.getLast? = some x → x.index = countOf t.cells x.pNode) ∧
      after t.cells n path.branches ≠ [] := by
  constructor
  · rintro ⟨path', x, hpath', hindex, hx, hfull, y, hy, hopen⟩
    obtain rfl := ok_unique hpath hpath'
    refine ⟨hindex, fun z hz => ?_, fun hnil => ?_⟩
    · obtain rfl := some_unique hx hz
      exact hfull
    · exact hopen.ne ((hw.after_eq_nil_iff ht.wf ht.nodup ht.min_pos).mp hnil y hy)
  · rintro ⟨hindex, hfull, hafter⟩
    obtain ⟨y, hy, hne⟩ : ∃ y ∈ path.branches, y.index ≠ countOf t.cells y.pNode := by
      by_contra hnone
      push Not at hnone
      exact hafter (hw.after_of_full hnone)
    obtain ⟨x, hx⟩ :=
      Option.isSome_iff_exists.mp (getLast?_isSome.mpr (ne_nil_of_mem hy))
    exact ⟨path, x, hpath, hindex, hx, hfull x hx, y, hy, (hw.index_le hy).lt_of_ne hne⟩

namespace Iterator

/-- The iterator of a search that strays: it is behind the entries of a leaf and taken for
the end, although leaves follow. -/
structure Astray (t : BTree K V) (n : ℕ) (it : Iterator) (i : ℕ) : Prop where
  walk : Walk t.cells n t.root it.path.branches 0 it.path.leaf
  eof : it.eof = true
  index : it.path.leafIndex = countOf t.cells it.path.leaf
  more : after t.cells n it.path.branches ≠ []
  number : i = (before t.cells n it.path.branches).length + it.path.leafIndex

theorem Astray.count_pos (h : it.Astray t n i) (ht : t.WellFormed n) :
    0 < it.path.leafIndex := by
  have hbranches : it.path.branches ≠ [] := fun hnil => h.more (by rw [hnil, after_nil])
  obtain ⟨l, hl, -⟩ := h.walk.wf_end ht.wf
  have hne := ht.subtree_ne_nil h.walk hbranches
  rw [spots_leaf hl, ne_eq, map_eq_nil_iff, ← length_eq_zero_iff, l.length_entries] at hne
  rw [h.index]
  simp only [countOf, hl, Node.count]
  omega

theorem Astray.inside (h : it.Astray t n i) (ht : t.WellFormed n) :
    0 < i ∧ i < (t.contents n).length := by
  have hpos := h.count_pos ht
  have hmore := length_pos_of_ne_nil h.more
  have hlen := h.walk.length_spots ht
  have hindex := h.index
  have hnumber := h.number
  rw [length_contents]
  omega

theorem Astray.get (h : it.Astray t n i) (ht : t.WellFormed n) :
    it.get t = .error (.thrown "Iterator not dereferenceable") := by
  obtain ⟨l, hl, -⟩ := h.walk.wf_end ht.wf
  have hle : l.count ≤ it.path.leafIndex := by
    rw [h.index]
    simp only [countOf, hl, Node.count, le_refl]
  simp only [Iterator.get, leafAt, hl, bind, Except.bind, if_pos hle]

def back (it : Iterator) : Iterator :=
  ⟨{ it.path with leafIndex := it.path.leafIndex - 1 }, false⟩

theorem movePrior_eq (hindex : 0 < it.path.leafIndex) : it.movePrior t = .ok it.back := by
  rw [movePrior, if_neg (by omega), back]

theorem Astray.back (h : it.Astray t n (i + 1)) (ht : t.WellFormed n) :
    it.back.Stands t n i := by
  have hpos := h.count_pos ht
  have hindex := h.index
  have hnumber := h.number
  simp only [Iterator.back]
  refine ⟨h.walk, ?_, ?_, fun hfalse => by simp at hfalse, ?_⟩
  · simp only
    omega
  · simp only [Bool.false_eq_true, false_iff]
    omega
  · simp only
    omega

theorem Astray.movePrior (h : it.Astray t n (i + 1)) (ht : t.WellFormed n) :
    ∃ it', it.movePrior t = .ok it' ∧ it'.Stands t n i :=
  ⟨it.back, movePrior_eq (h.count_pos ht), h.back ht⟩

theorem Astray.same_iff {it' : Iterator} {j : ℕ} (h : it.Astray t n i) (h' : it'.Astray t n j)
    (ht : t.WellFormed n) : it.same it' = true ↔ i = j := by
  obtain ⟨i, rfl⟩ : ∃ k, i = k + 1 := ⟨i - 1, by have := (h.inside ht).1; omega⟩
  obtain ⟨j, rfl⟩ : ∃ k, j = k + 1 := ⟨j - 1, by have := (h'.inside ht).1; omega⟩
  have hpos := h.count_pos ht
  have hpos' := h'.count_pos ht
  rw [Nat.add_right_cancel_iff, ← (h.back ht).same_iff (h'.back ht) ht]
  simp only [same, Iterator.back, h.eof, h'.eof, Bool.and_eq_true, beq_iff_eq, and_true]
  exact and_congr_right fun _ => by omega

theorem Astray.same_stands {it' : Iterator} {j : ℕ} (h : it.Astray t n i) (h' : it'.Stands t n j)
    (ht : t.WellFormed n) : it.same it' = false ∧ it'.same it = false := by
  have hne : ¬ (it.path.leaf = it'.path.leaf ∧ it'.eof = true) := by
    rintro ⟨hleaf, heof⟩
    -- the entries before the two would be the same one
    have hindex : it.path.leafIndex = it'.path.leafIndex := by
      rw [h.index, hleaf, h'.eof_iff_index.mp heof]
    obtain ⟨hpos, hlt⟩ := h.inside ht
    obtain ⟨i, rfl⟩ : ∃ k, i = k + 1 := ⟨i - 1, by omega⟩
    have hend := (h'.eof_iff ht).mp heof
    obtain ⟨j, rfl⟩ : ∃ k, j = k + 1 := ⟨j - 1, by omega⟩
    obtain ⟨it₁, hmove, hprior⟩ := h'.movePrior ht
    rw [movePrior_eq (by rw [← hindex]; exact h.count_pos ht)] at hmove
    obtain rfl := Except.ok.inj hmove
    have hsame := ((h.back ht).same_iff hprior ht).mp (by simp [same, Iterator.back, hleaf, hindex])
    omega
  rw [same, same, h.eof]
  cases heof : it'.eof with
  | false => simp
  | true =>
    have hleaf : ¬ it.path.leaf = it'.path.leaf := fun hleaf => hne ⟨hleaf, heof⟩
    simp [hleaf, Ne.symm hleaf]

end Iterator

/-- **`findNearest`** returns the place before the first entry that is not below the key, and
if the search strays an iterator that is not at any place. -/
theorem BTree.WellFormed.findNearest_place (ht : t.WellFormed n) (key : K) :
    ∃ it isMatch i, t.findNearest key = .ok (it, isMatch) ∧
      (isMatch = true ↔ key ∈ (t.contents n).map Prod.fst) ∧
      ((∀ e ∈ (t.contents n).take i, e.1 < key) ∧ ∀ e ∈ (t.contents n).drop i, key ≤ e.1) ∧
      (¬ t.Strays key ∧ it.Stands t n i ∨ t.Strays key ∧ isMatch = false ∧ it.Astray t n i) := by
  obtain ⟨path, hpath, hland⟩ := ht.getPath key
  have hmatch := ht.lands_iff hland
  obtain ⟨l, A, D, hl, hE, hi, -, -, hD⟩ := hland.cut ht
  obtain ⟨bs, hbs, hw, hfit⟩ := hland.walk
  rw [nil_append] at hbs
  subst hbs
  have hcount : countOf t.cells path.leaf = l.count := by simp only [countOf, hl, Node.count]
  -- the iterator of the path decides
  have hfound : ∀ {it : Iterator} {j : ℕ}, t.iterator path = .ok it →
      j = (before t.cells n path.branches).length + path.leafIndex →
      (¬ t.Strays key ∧ it.Stands t n j ∨
        t.Strays key ∧ path.isMatch = false ∧ it.Astray t n j) →
      ∃ it isMatch i, t.findNearest key = .ok (it, isMatch) ∧
        (isMatch = true ↔ key ∈ (t.contents n).map Prod.fst) ∧
        ((∀ e ∈ (t.contents n).take i, e.1 < key) ∧ ∀ e ∈ (t.contents n).drop i, key ≤ e.1) ∧
        (¬ t.Strays key ∧ it.Stands t n i ∨ t.Strays key ∧ isMatch = false ∧ it.Astray t n i) := by
    intro it j hit hj h
    refine ⟨it, path.isMatch, j, ?_, hmatch, hland.sides ht hj, h⟩
    simp only [findNearest, hpath, hit, bind, Except.bind]
  rw [ht.strays_iff hpath hw, hcount] at hfound ⊢
  rcases Nat.lt_or_ge path.leafIndex l.count with hlt | hge
  · exact hfound (iterator_inside hw hl hlt) rfl
      (.inl ⟨fun hs => hlt.ne hs.1, stands_inside hw hl hlt⟩)
  have hend : path.leafIndex = l.count := by
    have : A.length ≤ l.count := by
      rw [← l.length_entries, hE, length_append]
      omega
    omega
  have hm : path.isMatch = false := by
    rw [Bool.eq_false_iff]
    intro hm
    have hpos := length_pos_of_ne_nil (hD hm)
    have hlen := congrArg List.length hE
    rw [l.length_entries, length_append] at hlen
    omega
  by_cases hopen : ∃ x, path.branches.getLast? = some x ∧ x.index < countOf t.cells x.pNode
  · -- the parent has a further child: the iterator moves on
    obtain ⟨x, hx, hlt⟩ := hopen
    obtain ⟨bs, q, hit, hwq, hbs, hafter⟩ := iterator_open ht hw hl hm hge hx hlt
    obtain ⟨l', hl', -⟩ := hwq.wf_end ht.wf
    have hpos : 0 < l'.count := by
      have hne := ht.subtree_ne_nil hwq hbs
      rw [spots_leaf hl', ne_eq, map_eq_nil_iff, ← length_eq_zero_iff,
        l'.length_entries] at hne
      omega
    have hlen := congrArg List.length (hw.spots_eq.symm.trans hwq.spots_eq)
    have hrest := congrArg List.length hafter
    rw [spots_leaf hl] at hlen
    simp only [length_append, length_map, l.length_entries] at hlen hrest
    refine hfound hit ?_ (.inl ⟨fun hs => hlt.ne (hs.2.1 x hx), stands_inside hwq hl' hpos⟩)
    simp only
    omega
  · have hfull : ∀ x, path.branches.getLast? = some x → x.index = countOf t.cells x.pNode :=
      fun x hx => (hw.index_le (mem_of_getLast? hx)).antisymm
        (not_lt.mp fun hlt => hopen ⟨x, hx, hlt⟩)
    have hit := iterator_behind hw hl hm hge hfull
    by_cases hafter : after t.cells n path.branches = []
    · refine hfound hit rfl (.inl ⟨fun hs => hs.2.2 hafter, hw, ?_, ?_, fun _ => hafter, rfl⟩)
      · exact (hend.trans hcount.symm).le
      · simp only [hend, hcount]
    · -- the iterator is taken for the end
      exact hfound hit rfl (.inr ⟨⟨hend, hfull, hafter⟩, hm, hw, rfl, hend.trans hcount.symm,
        hafter, rfl⟩)

/-- **`findNearest`** is the lower bound of its key unless the search
strays. -/
theorem BTree.findNearest_iff (ht : t.WellFormed n) (key : K) :
    (∃ it isMatch, t.findNearest key = .ok (it, isMatch) ∧ t.LowerBound n key it isMatch) ↔
      ¬ t.Strays key := by
  obtain ⟨it, isMatch, i, hfind, hmatch, ⟨hlo, hhi⟩, hplace⟩ := ht.findNearest_place key
  rcases hplace with ⟨hstays, h⟩ | ⟨hstrays, -, h⟩
  · exact iff_of_true ⟨it, isMatch, hfind, h.lowerBound ht hmatch hlo hhi⟩ hstays
  · refine iff_of_false ?_ (not_not_intro hstrays)
    rintro ⟨it', isMatch', hfind', hbound⟩
    obtain ⟨rfl, rfl⟩ := Prod.mk.inj (ok_unique hfind hfind')
    -- an entry follows, but the iterator is taken for the end
    have hlt := (h.inside ht).2
    have heof := hbound.eof_false (getElem_mem hlt)
      (hhi _ (by rw [drop_eq_getElem_cons hlt]; exact mem_cons_self))
    rw [h.eof] at heof
    cases heof

/-- A key between two leaves of one branch is found to be before the second
of them. -/
theorem BTree.findNearest_iff_spaced : ¬ spaced.Strays 63 ∧ ∃ it isMatch,
    spaced.findNearest 63 = .ok (it, isMatch) ∧ spaced.LowerBound 2 63 it isMatch := by
  have hparent : (spaced.getPath 63).toOption.map (fun p => p.branches.getLast?.map fun x =>
      (x.index, countOf spaced.cells x.pNode)) = some (some (0, 31)) := by decide +kernel
  have hstays : ¬ spaced.Strays 63 := by
    rintro ⟨path, x, hpath, -, hx, hfull, -⟩
    simp [hpath, Except.toOption, hx] at hparent
    omega
  exact ⟨hstays, (findNearest_iff spaced_wellFormed 63).mpr hstays⟩

/-- A key between the leaves of two branches is taken to be behind the
whole tree, although half of its entries are greater. -/
theorem BTree.findNearest_spaced_fails : spaced.WellFormed 2 ∧
    2048 ∈ (spaced.contents 2).map Prod.fst ∧
    ¬ ∃ it isMatch, spaced.findNearest 2047 = .ok (it, isMatch) ∧
      spaced.LowerBound 2 2047 it isMatch := by
  have hmem : 2048 ∈ (spaced.contents 2).map Prod.fst := by decide +kernel
  refine ⟨spaced_wellFormed, hmem, ?_⟩
  rintro ⟨it, isMatch, hfind, hbound⟩
  have heof : (spaced.findNearest 2047).toOption.map (fun r => r.1.eof) = some true := by
    decide +kernel
  obtain ⟨e, he, hkey⟩ := mem_map.mp hmem
  have hfalse := hbound.eof_false he (by omega)
  simp [hfind, Except.toOption, hfalse] at heof

end Searches

end Fastore.Tree
