import Fastore.Tree.Levels
import Mathlib.Data.List.TakeWhile

/-!
Iterators.

An iterator is a path and a flag for the end. Moving on inside a leaf
counts up the slot; behind its last slot the path is cut back to the last
branch that has a further child, and continued to the first leaf below
that child. What an iterator has still to visit is the rest of its leaf
and what lies to the right of its path (`after`), and a loop from the
first entry to the end visits the contents of the tree in order
(`BTree.forEach_spec`).
-/

namespace Fastore.Tree

open Lib List BTree Node

variable {K V : Type}

structure Iterator where
  path : Path
  eof : Bool
  deriving DecidableEq, Repr

/-- `operator==`. -/
def Iterator.same (a b : Iterator) : Bool :=
  a.path.leaf == b.path.leaf && a.path.leafIndex == b.path.leafIndex && a.eof == b.eof

section Model

variable [LinearOrder K]

def Node.seekToFirst (t : BTree K V) : ℕ → NodeId → List PathNode → Except Fault Path
  | 0, _, _ => .error .stackOverflow
  | fuel + 1, this, branches =>
    match t.cells this with
    | some (.branch b) => seekToFirst t fuel (b.children 0) (branches ++ [⟨this, 0⟩])
    | some (.leaf _) => .ok ⟨branches, this, 0, false⟩
    | none => .error .wildNode

def Node.seekToLast (t : BTree K V) : ℕ → NodeId → List PathNode → Except Fault Path
  | 0, _, _ => .error .stackOverflow
  | fuel + 1, this, branches =>
    match t.cells this with
    | some (.branch b) =>
      seekToLast t fuel (b.children b.count) (branches ++ [⟨this, b.count⟩])
    | some (.leaf l) => .ok ⟨branches, this, if 0 < l.count then l.count - 1 else 0, false⟩
    | none => .error .wildNode

def BTree.seekToBegin (t : BTree K V) : Except Fault Path := seekToFirst t t.next t.root []

def BTree.seekToEnd (t : BTree K V) : Except Fault Path := do
  let result ← seekToLast t t.next t.root []
  let l ← t.leafAt result.leaf
  .ok { result with leafIndex := if 0 < l.count then l.count else 0 }

def BTree.open (t : BTree K V) : List PathNode → Except Fault (List PathNode)
  | [] => .ok []
  | x :: up => do
    let b ← t.branchAt x.pNode
    if x.index = b.count then t.open up else .ok (x :: up)

def Iterator.moveNext (t : BTree K V) (it : Iterator) : Except Fault Iterator :=
  if it.eof then .error (.thrown "Iteration past end of tree")
  else do
    let l ← t.leafAt it.path.leaf
    if l.count ≤ it.path.leafIndex + 1 then
      let branches ← t.open it.path.branches.reverse
      match branches with
      | [] => .ok ⟨{ it.path with leafIndex := l.count }, true⟩
      | x :: up => do
        let b ← t.branchAt x.pNode
        let path ← seekToFirst t t.next (b.children (x.index + 1))
          (up.reverse ++ [⟨x.pNode, x.index + 1⟩])
        .ok ⟨path, it.eof⟩
    else .ok ⟨{ it.path with leafIndex := it.path.leafIndex + 1 }, it.eof⟩

def Iterator.movePrior (t : BTree K V) (it : Iterator) : Except Fault Iterator :=
  if it.path.leafIndex = 0 then
    match it.path.branches.reverse.dropWhile (·.index == 0) with
    | [] => .error (.thrown "Iteration past start of tree")
    | x :: up => do
      let b ← t.branchAt x.pNode
      let path ← seekToLast t t.next (b.children (x.index - 1))
        (up.reverse ++ [⟨x.pNode, x.index - 1⟩])
      .ok ⟨path, false⟩
  else .ok ⟨{ it.path with leafIndex := it.path.leafIndex - 1 }, false⟩

/-- The constructor from a path: a place behind a leaf that is not the last
child of its parent is moved on, any other place behind a leaf is taken
for the end. -/
def BTree.iterator (t : BTree K V) (path : Path) : Except Fault Iterator :=
  if path.isMatch then .ok ⟨path, false⟩
  else do
    let l ← t.leafAt path.leaf
    let it ← (match path.branches.getLast? with
      | some x => do
        let b ← t.branchAt x.pNode
        if l.count ≤ path.leafIndex ∧ x.index < b.count then Iterator.moveNext t ⟨path, false⟩
        else .ok ⟨path, false⟩
      | none => .ok ⟨path, false⟩)
    let l ← t.leafAt it.path.leaf
    .ok (if l.count ≤ it.path.leafIndex then ⟨it.path, true⟩ else it)

def BTree.beginIter (t : BTree K V) : Except Fault Iterator := do
  let path ← t.seekToBegin
  t.iterator path

def BTree.endIter (t : BTree K V) : Except Fault Iterator := do
  let path ← t.seekToEnd
  t.iterator path

def BTree.find (t : BTree K V) (key : K) : Except Fault Iterator := do
  let p ← t.getPath key
  if p.isMatch then t.iterator p else t.endIter

def BTree.findNearest (t : BTree K V) (key : K) : Except Fault (Iterator × Bool) := do
  let p ← t.getPath key
  let it ← t.iterator p
  .ok (it, p.isMatch)

/-- `operator*`. -/
def Iterator.get (t : BTree K V) (it : Iterator) : Except Fault (K × Option V) := do
  let l ← t.leafAt it.path.leaf
  if l.count ≤ it.path.leafIndex then .error (.thrown "Iterator not dereferenceable")
  else .ok (l.entry it.path.leafIndex)

/-- `while (start != end) { body((*start).key); ++start; }`, at most once
for every entry and once more. -/
def BTree.forEachLoop {σ : Type} (t : BTree K V) (body : K → σ → Except Fault σ) :
    ℕ → Iterator → Iterator → σ → Except Fault σ
  | 0, _, _, _ => .error .stackOverflow
  | fuel + 1, start, stop, s =>
    if start.same stop then .ok s
    else do
      let e ← start.get t
      let s ← body e.1 s
      let start ← start.moveNext t
      t.forEachLoop body fuel start stop s

def BTree.forEach {σ : Type} (t : BTree K V) (body : K → σ → Except Fault σ) (s : σ) :
    Except Fault σ := do
  let start ← t.beginIter
  let stop ← t.endIter
  t.forEachLoop body (t.count.toNat + 1) start stop s

end Model

/-! ### What lies to the right of a path -/

def lastLeaf (h : Cells K V) : ℕ → NodeId → NodeId
  | 0, p => p
  | n + 1, p => lastLeaf h n (((kidsAt h p).getLast?).getD 0)

variable {B : Bounds} {rest : List (NodeId × K × Option V)} {x : PathNode}

section Right

variable {h : Cells K V} {n m i : ℕ} {p q : NodeId} {b : Branch K} {bs cs : List PathNode}

theorem Walk.before_append (w : Walk h n p bs m q) :
    before h n (bs ++ cs) = before h n bs ++ before h m cs := by
  induction w with
  | nil => rw [nil_append, before_nil, nil_append]
  | cons hp hi _ ih => rw [cons_append, before_cons hp hi, before_cons hp hi, ih,
      append_assoc]

theorem Walk.after_append (w : Walk h n p bs m q) :
    after h n (bs ++ cs) = after h m cs ++ after h n bs := by
  induction w with
  | nil => rw [nil_append, after_nil, append_nil]
  | cons hp hi _ ih => rw [cons_append, after_cons hp hi, after_cons hp hi, ih,
      append_assoc]

theorem Walk.branch_of_mem (w : Walk h n p bs m q) (hx : x ∈ bs) :
    ∃ b, h x.pNode = some (.branch b) ∧ x.index ≤ b.count := by
  induction w with
  | nil => simp at hx
  | cons hp hi _ ih =>
    rcases mem_cons.mp hx with rfl | hx
    · exact ⟨_, hp, hi⟩
    · exact ih hx

theorem Walk.index_le (w : Walk h n p bs m q) (hx : x ∈ bs) : x.index ≤ countOf h x.pNode := by
  obtain ⟨b, hb, hle⟩ := w.branch_of_mem hx
  simpa only [countOf, hb, Node.count] using hle

theorem lastLeaf_branch (hp : h p = some (.branch b)) :
    lastLeaf h (n + 1) p = lastLeaf h n (b.children b.count) := by
  rw [lastLeaf, kidsAt_of_branch hp, b.kids_split (le_refl _)]
  simp

theorem Walk.lastLeaf_of_full (w : Walk h n p bs m q)
    (hfull : ∀ x ∈ bs, x.index = countOf h x.pNode) : lastLeaf h n p = lastLeaf h m q := by
  induction w with
  | nil => rfl
  | @cons n m i p q b bs hp hi w ih =>
    obtain rfl : i = b.count := by
      rw [show i = countOf h p from hfull ⟨p, i⟩ (by simp)]
      simp only [countOf, hp, Node.count]
    rw [lastLeaf_branch hp, ih fun x hx => hfull x (mem_cons_of_mem _ hx)]

theorem Walk.after_of_full (w : Walk h n p bs m q)
    (hfull : ∀ x ∈ bs, x.index = countOf h x.pNode) : after h n bs = [] := by
  induction w with
  | nil => exact after_nil _ _
  | @cons n m i p q b bs hp hi w ih =>
    obtain rfl : i = b.count := by
      rw [show i = countOf h p from hfull ⟨p, i⟩ (by simp)]
      simp only [countOf, hp, Node.count]
    rw [after_cons hp hi, ih fun x hx => hfull x (mem_cons_of_mem _ hx)]
    simp

theorem Walk.dropWhile_first (w : Walk h n p bs m q) :
    (bs.reverse.dropWhile (·.index == 0) = [] ∧ before h n bs = []) ∨
      ∃ x up b k, bs.reverse.dropWhile (·.index == 0) = x :: up ∧
        h x.pNode = some (.branch b) ∧
        Walk h n p (up.reverse ++ [⟨x.pNode, x.index - 1⟩]) k (b.children (x.index - 1)) ∧
        before h n bs = before h n (up.reverse ++ [⟨x.pNode, x.index - 1⟩]) ++
          spots h k (b.children (x.index - 1)) := by
  induction w with
  | nil => exact Or.inl ⟨rfl, before_nil _ _⟩
  | @cons n m i p q b bs hp hi w ih =>
    rw [reverse_cons]
    rcases ih with ⟨hdrop, hbefore⟩ | ⟨x, up, b', k, hdrop, hb', hw', hbefore⟩
    · have hall : ∀ x ∈ bs.reverse, (x.index == 0) = true := dropWhile_eq_nil_iff.mp hdrop
      rw [dropWhile_append_of_pos hall, before_cons hp hi, hbefore, append_nil]
      rcases Nat.eq_zero_or_pos i with rfl | hpos
      · exact Or.inl ⟨rfl, by simp⟩
      · have hlt : i - 1 ≤ b.count := by omega
        refine Or.inr ⟨⟨p, i⟩, [], b, n, ?_, hp, .cons hp hlt (.nil _ _), ?_⟩
        · rw [dropWhile_cons_of_neg (by simpa using Nat.ne_of_gt hpos)]
        · rw [reverse_nil, nil_append, before_cons hp hlt, before_nil, append_nil]
          conv_lhs => rw [show i = i - 1 + 1 by omega, window_succ_last, Nat.zero_add]
          rw [flatMap_append, flatMap_singleton]
    · refine Or.inr ⟨x, up ++ [⟨p, i⟩], b', k, ?_, hb', ?_, ?_⟩
      · rw [dropWhile_append, hdrop]
        rfl
      · rw [reverse_append, reverse_singleton, append_assoc,
          singleton_append]
        exact .cons hp hi hw'
      · rw [reverse_append, reverse_singleton, append_assoc,
          singleton_append, before_cons hp hi, before_cons hp hi, hbefore, append_assoc]

variable [LinearOrder K]

theorem Node.seekToFirst_spec (t : BTree K V) :
    ∀ {n fuel : ℕ} {p : NodeId} (before : List PathNode), n < fuel → WF t.cells B n p →
      ∃ bs q, seekToFirst t fuel p before = .ok ⟨before ++ bs, q, 0, false⟩ ∧
        Walk t.cells n p bs 0 q ∧ spots t.cells n p = spots t.cells 0 q ++ after t.cells n bs := by
  intro n
  induction n with
  | zero =>
    intro fuel p before hfuel hwf
    obtain ⟨fuel, rfl⟩ : ∃ f, fuel = f + 1 := ⟨fuel - 1, by omega⟩
    obtain ⟨l, hl, -⟩ := hwf
    refine ⟨[], p, by simp only [seekToFirst, hl, append_nil], .nil _ _, ?_⟩
    rw [after_nil, append_nil]
  | succ n ih =>
    intro fuel p before hfuel hwf
    obtain ⟨fuel, rfl⟩ : ∃ f, fuel = f + 1 := ⟨fuel - 1, by omega⟩
    obtain ⟨b, hb, -⟩ := id hwf
    have hfuel : n < fuel := by omega
    obtain ⟨bs, q, hseek, hw, hS⟩ :=
      ih (before ++ [⟨p, 0⟩]) hfuel (hwf.kid hb (Nat.zero_le _))
    refine ⟨⟨p, 0⟩ :: bs, q, ?_, .cons hb (Nat.zero_le _) hw, ?_⟩
    · simp only [seekToFirst, hb, hseek, append_assoc, singleton_append]
    · rw [spots_branch n hb, after_cons hb (Nat.zero_le _), b.kids_split (Nat.zero_le _)]
      simp only [window_zero, nil_append, flatMap_cons, hS, append_assoc]

/-- The path to the last leaf. -/
theorem Node.seekToLast_spec (t : BTree K V) :
    ∀ {n fuel : ℕ} {p : NodeId} (before : List PathNode), n < fuel → WF t.cells B n p →
      ∃ bs, seekToLast t fuel p before =
          .ok ⟨before ++ bs, lastLeaf t.cells n p,
            countOf t.cells (lastLeaf t.cells n p) - 1, false⟩ ∧
        Walk t.cells n p bs 0 (lastLeaf t.cells n p) ∧
        ∀ x ∈ bs, ∀ b : Branch K, t.cells x.pNode = some (.branch b) → x.index = b.count := by
  intro n
  induction n with
  | zero =>
    intro fuel p before hfuel hwf
    obtain ⟨fuel, rfl⟩ : ∃ f, fuel = f + 1 := ⟨fuel - 1, by omega⟩
    obtain ⟨l, hl, -⟩ := hwf
    have hindex : (if 0 < l.count then l.count - 1 else 0) = l.count - 1 := by split <;> omega
    refine ⟨[], ?_, .nil _ _, by simp⟩
    simp only [seekToLast, hl, append_nil, lastLeaf, countOf, count, hindex]
  | succ n ih =>
    intro fuel p before hfuel hwf
    obtain ⟨fuel, rfl⟩ : ∃ f, fuel = f + 1 := ⟨fuel - 1, by omega⟩
    obtain ⟨b, hb, -⟩ := id hwf
    have hfuel : n < fuel := by omega
    obtain ⟨bs, hseek, hw, hlast⟩ :=
      ih (before ++ [⟨p, b.count⟩]) hfuel (hwf.kid hb (le_refl _))
    rw [lastLeaf_branch hb]
    refine ⟨⟨p, b.count⟩ :: bs, ?_, .cons hb (le_refl _) hw, ?_⟩
    · simp only [seekToLast, hb, hseek, append_assoc, singleton_append]
    · intro x hx b' hb'
      rcases mem_cons.mp hx with rfl | hx
      · rw [branch.inj (Option.some.inj (hb.symm.trans hb'))]
      · exact hlast x hx b' hb'

theorem BTree.open_append {t : BTree K V} {xs ys : List PathNode} :
    (t.open xs = .ok [] → t.open (xs ++ ys) = t.open ys) ∧
      ∀ x up, t.open xs = .ok (x :: up) → t.open (xs ++ ys) = .ok (x :: (up ++ ys)) := by
  induction xs with
  | nil => exact ⟨fun _ => rfl, fun x up h => by simp [BTree.open] at h⟩
  | cons z xs ih =>
    simp only [cons_append, BTree.open, bind, Except.bind]
    cases t.branchAt z.pNode with
    | error e => exact ⟨fun h => by simp at h, fun x up h => by simp at h⟩
    | ok b =>
      by_cases hz : z.index = b.count
      · simp only [hz, if_true]
        exact ih
      · simp only [hz, if_false]
        refine ⟨fun h => by simp at h, fun x up h => ?_⟩
        obtain ⟨rfl, rfl⟩ := List.cons.inj (Except.ok.inj h)
        rfl

theorem Walk.open {t : BTree K V} (w : Walk t.cells n p bs m q) :
    (t.open bs.reverse = .ok [] ∧ after t.cells n bs = [] ∧
        lastLeaf t.cells n p = lastLeaf t.cells m q) ∨
      ∃ x up b k, t.open bs.reverse = .ok (x :: up) ∧ t.cells x.pNode = some (.branch b) ∧
        Walk t.cells n p (up.reverse ++ [⟨x.pNode, x.index + 1⟩]) k (b.children (x.index + 1)) ∧
        after t.cells n bs = spots t.cells k (b.children (x.index + 1)) ++
          after t.cells n (up.reverse ++ [⟨x.pNode, x.index + 1⟩]) := by
  induction w with
  | nil => exact Or.inl ⟨rfl, after_nil _ _, rfl⟩
  | @cons n m i p q b bs hp hi w ih =>
    rw [reverse_cons]
    rcases ih with ⟨hopen, hafter, hlast⟩ | ⟨x, up, b', k, hopen, hb', hw', hafter⟩
    · have hop : t.open (bs.reverse ++ [⟨p, i⟩]) = t.open [⟨p, i⟩] := BTree.open_append.1 hopen
      have hat : t.branchAt p = .ok b := by simp only [BTree.branchAt, hp]
      rw [hop, after_cons hp hi, hafter, lastLeaf_branch hp, ← hlast]
      simp only [BTree.open, hat, bind, Except.bind]
      by_cases hmax : i = b.count
      · subst hmax
        exact Or.inl ⟨by simp, by simp, rfl⟩
      · have hlt : i + 1 ≤ b.count := by omega
        refine Or.inr ⟨⟨p, i⟩, [], b, n, by rw [if_neg hmax], hp, .cons hp hlt (.nil _ _), ?_⟩
        rw [reverse_nil, nil_append, nil_append, after_cons hp hlt, after_nil,
          nil_append, show b.count - i = b.count - (i + 1) + 1 by omega, window_succ,
          flatMap_cons]
    · refine Or.inr ⟨x, up ++ [⟨p, i⟩], b', k, BTree.open_append.2 x up hopen, hb', ?_, ?_⟩
      · rw [reverse_append, reverse_singleton, append_assoc,
          singleton_append]
        exact .cons hp hi hw'
      · rw [reverse_append, reverse_singleton, append_assoc,
          singleton_append, after_cons hp hi, after_cons hp hi, hafter, append_assoc]

theorem Walk.after_eq_nil_iff (w : Walk h n p bs m q) (hwf : WF h B n p) (hnd : (nodes h n p).Nodup)
    (hpos : ∀ z ∈ nodes h n p, z ≠ p → 1 ≤ B.min z) :
    after h n bs = [] ↔ ∀ x ∈ bs, x.index = countOf h x.pNode := by
  refine ⟨fun hafter => ?_, w.after_of_full⟩
  induction w with
  | nil => simp
  | @cons n m i p q b bs hp hi w ih =>
    obtain ⟨hkpos, hne⟩ := hwf.kids_ne_nil hp hnd hpos
    have hkid : b.children i ∈ b.kids := Branch.mem_kids.mpr ⟨i, hi, rfl⟩
    rw [after_cons hp hi, append_eq_nil_iff] at hafter
    refine forall_mem_cons.mpr ⟨?_, ih (hwf.kid hp hi) (nodes_around hp hi hnd).1
      (fun z hz _ => hkpos _ hkid z hz) hafter.1⟩
    simp only [countOf, hp, Node.count]
    by_contra hlt
    -- the next child is not empty
    have hmem : b.children (i + 1) ∈ window b.children (i + 1) (b.count - i) :=
      mem_window.mpr ⟨0, by omega, rfl⟩
    have hspots := flatMap_eq_nil_iff.mp hafter.2 _ hmem
    refine hne (keysOf h n (b.children (i + 1))) (mem_map_of_mem
      (Branch.mem_kids.mpr ⟨i + 1, by omega, rfl⟩)) ?_
    rw [keysOf, entries, hspots, map_nil, map_nil]

end Right

/-! ### Positions -/

variable [LinearOrder K]

/-- The iterator is at the first of the entries `rest`. -/
structure Iterator.At (t : BTree K V) (n : ℕ) (it : Iterator)
    (rest : List (NodeId × K × Option V)) : Prop where
  eof : it.eof = false
  walk : Walk t.cells n t.root it.path.branches 0 it.path.leaf
  entry : ∃ l A D, t.cells it.path.leaf = some (.leaf l) ∧ l.entries = A ++ D ∧ D ≠ [] ∧
    it.path.leafIndex = A.length ∧
    rest = D.map (Prod.mk it.path.leaf) ++ after t.cells n it.path.branches

structure Iterator.AtEnd (t : BTree K V) (n : ℕ) (it : Iterator) : Prop where
  eof : it.eof = true
  leaf : it.path.leaf = lastLeaf t.cells n t.root
  index : it.path.leafIndex = countOf t.cells it.path.leaf

section Moves

variable {t : BTree K V} {n : ℕ} {it : Iterator}

theorem Iterator.AtEnd.same {it' : Iterator} (h : it.AtEnd t n) (h' : it'.AtEnd t n) :
    it.same it' = true := by
  have hleaf : it.path.leaf = it'.path.leaf := h.leaf.trans h'.leaf.symm
  simp [Iterator.same, h.eof, h'.eof, hleaf, h.index, h'.index]

theorem Iterator.At.not_same {it' : Iterator} (h : it.At t n rest) (h' : it'.AtEnd t n) :
    it.same it' = false := by
  simp [Iterator.same, h.eof, h'.eof]

theorem Iterator.At.get (h : it.At t n rest) :
    ∃ e rest', rest = e :: rest' ∧ it.get t = .ok e.2 := by
  obtain ⟨l, A, D, hl, hE, hD, hi, rfl⟩ := h.entry
  obtain ⟨e, D, rfl⟩ := exists_cons_of_ne_nil hD
  obtain ⟨hlt, hentry⟩ := Leaf.entry_of_entries hE
  refine ⟨_, _, rfl, ?_⟩
  simp only [Iterator.get, leafAt, hl, bind, Except.bind, hi, hentry]
  rw [if_neg (by omega)]

theorem BTree.WellFormed.subtree_ne_nil {bs : List PathNode} {q : NodeId} {m : ℕ}
    (ht : t.WellFormed n) (w : Walk t.cells n t.root bs m q) (hbs : bs ≠ []) :
    spots t.cells m q ≠ [] := by
  have hroot : ∀ z ∈ nodes t.cells m q, 1 ≤ (t.bounds n).min z := by
    intro z hz
    refine ht.min_pos z (w.subset hz) ?_
    rintro rfl
    exact w.top_not_mem ht.nodup hbs hz
  simpa [entries] using (w.wf_end ht.wf).entries_ne_nil hroot

theorem Iterator.at_leaf {bs : List PathNode} {q : NodeId} (ht : t.WellFormed n)
    (w : Walk t.cells n t.root bs 0 q) (hne : spots t.cells 0 q ≠ []) :
    Iterator.At t n ⟨⟨bs, q, 0, false⟩, false⟩
      (spots t.cells 0 q ++ after t.cells n bs) := by
  obtain ⟨l, hl, -⟩ := w.wf_end ht.wf
  rw [spots_leaf hl] at hne ⊢
  exact ⟨rfl, w, l, [], l.entries, hl, rfl, by simpa using hne, rfl, rfl⟩

/-- From the last entry of a leaf to the next leaf. -/
theorem Iterator.moveNext_last {l : Leaf K V} (ht : t.WellFormed n) (heof : it.eof = false)
    (w : Walk t.cells n t.root it.path.branches 0 it.path.leaf)
    (hl : t.cells it.path.leaf = some (.leaf l)) (hi : l.count ≤ it.path.leafIndex + 1) :
    (it.moveNext t = .ok ⟨{ it.path with leafIndex := l.count }, true⟩ ∧
        after t.cells n it.path.branches = [] ∧ it.path.leaf = lastLeaf t.cells n t.root) ∨
      ∃ bs q, it.moveNext t = .ok ⟨⟨bs, q, 0, false⟩, false⟩ ∧ Walk t.cells n t.root bs 0 q ∧
        bs ≠ [] ∧ after t.cells n it.path.branches = spots t.cells 0 q ++ after t.cells n bs := by
  have hstart : it.moveNext t = (do
      let branches ← t.open it.path.branches.reverse
      match branches with
      | [] => .ok ⟨{ it.path with leafIndex := l.count }, true⟩
      | x :: up => do
        let b ← t.branchAt x.pNode
        let path ← seekToFirst t t.next (b.children (x.index + 1))
          (up.reverse ++ [⟨x.pNode, x.index + 1⟩])
        .ok ⟨path, false⟩) := by
    simp only [Iterator.moveNext, heof, Bool.false_eq_true, if_false, leafAt, hl, bind,
      Except.bind, if_pos hi]
  rw [hstart]
  rcases w.open with ⟨hopen, hafter, hlast⟩ | ⟨x, up, b, k, hopen, hb, hw, hafter⟩
  · exact Or.inl ⟨by simp only [hopen, bind, Except.bind], hafter, hlast.symm⟩
  · have hk : k < t.next := by
      have := hw.height
      have := ht.toShaped.height_lt_next
      omega
    obtain ⟨bs, q, hseek, hwq, hS⟩ := seekToFirst_spec t
      (up.reverse ++ [⟨x.pNode, x.index + 1⟩]) hk (hw.wf_end ht.wf)
    refine Or.inr ⟨up.reverse ++ [⟨x.pNode, x.index + 1⟩] ++ bs, q, ?_, hw.append hwq, by simp, ?_⟩
    · simp only [hopen, branchAt, hb, bind, Except.bind, hseek]
    · rw [hafter, hS, hw.after_append, append_assoc]

/-- **`MoveNext`** moves on to the next entry, or to the end. -/
theorem Iterator.At.moveNext {e : NodeId × K × Option V} (ht : t.WellFormed n)
    (h : it.At t n (e :: rest)) :
    ∃ it', it.moveNext t = .ok it' ∧
      if rest = [] then it'.AtEnd t n else it'.At t n rest := by
  obtain ⟨l, A, D, hl, hE, hD, hi, hrest⟩ := h.entry
  obtain ⟨e', D, rfl⟩ := exists_cons_of_ne_nil hD
  rw [map_cons, cons_append] at hrest
  obtain ⟨rfl, rfl⟩ := List.cons.inj hrest
  have hcount : l.count = A.length + (D.length + 1) := by
    rw [← l.length_entries, hE, length_append, length_cons]
  cases D with
  | cons e₂ D =>
    -- the leaf goes on
    rw [length_cons] at hcount
    have hmove : it.moveNext t = .ok ⟨{ it.path with leafIndex := A.length + 1 }, false⟩ := by
      simp only [Iterator.moveNext, h.eof, Bool.false_eq_true, if_false, leafAt, hl, bind,
        Except.bind, hi]
      rw [if_neg (by omega)]
    refine ⟨_, hmove, ?_⟩
    rw [if_neg (by simp)]
    exact ⟨rfl, h.walk, l, A ++ [e'], e₂ :: D, hl, by simp [hE], by simp, by simp, rfl⟩
  | nil =>
    rw [length_nil] at hcount
    rw [map_nil, nil_append]
    rcases Iterator.moveNext_last ht h.eof h.walk hl (by omega) with
      ⟨hmove, hafter, hlast⟩ | ⟨bs, q, hmove, hw, hbs, hafter⟩
    · refine ⟨_, hmove, ?_⟩
      rw [if_pos hafter]
      exact ⟨rfl, hlast, by simp only [countOf, hl, Node.count]⟩
    · have hne := ht.subtree_ne_nil hw hbs
      refine ⟨_, hmove, ?_⟩
      rw [hafter, if_neg (by simp [hne])]
      exact Iterator.at_leaf ht hw hne

/-! The constructor, by where its path ends. -/

variable {path : Path} {l : Leaf K V}

theorem BTree.iterator_inside (w : Walk t.cells n t.root path.branches 0 path.leaf)
    (hl : t.cells path.leaf = some (.leaf l)) (hi : path.leafIndex < l.count) :
    t.iterator path = .ok ⟨path, false⟩ := by
  have hnot : ¬ l.count ≤ path.leafIndex := by omega
  cases hm : path.isMatch with
  | true => rw [iterator, if_pos hm]
  | false =>
    simp only [iterator, hm, Bool.false_eq_true, if_false, leafAt, hl, bind,
      Except.bind]
    cases hlast : path.branches.getLast? with
    | none => simp only [hl, if_neg hnot]
    | some x =>
      obtain ⟨b, hb, -⟩ := w.branch_of_mem (mem_of_getLast? hlast)
      simp only [branchAt, hb, hnot, false_and, if_false, hl]

theorem BTree.iterator_behind (w : Walk t.cells n t.root path.branches 0 path.leaf)
    (hl : t.cells path.leaf = some (.leaf l)) (hm : path.isMatch = false)
    (hi : l.count ≤ path.leafIndex)
    (hlast : ∀ x, path.branches.getLast? = some x → x.index = countOf t.cells x.pNode) :
    t.iterator path = .ok ⟨path, true⟩ := by
  simp only [iterator, hm, Bool.false_eq_true, if_false, leafAt, hl, bind, Except.bind]
  cases hx : path.branches.getLast? with
  | none => simp only [hl, if_pos hi]
  | some x =>
    obtain ⟨b, hb, -⟩ := w.branch_of_mem (mem_of_getLast? hx)
    have hcount : ¬ x.index < b.count := by
      rw [hlast x hx]
      simp only [countOf, hb, Node.count]
      omega
    simp only [branchAt, hb, hcount, and_false, if_false, hl, if_pos hi]

theorem BTree.iterator_open (ht : t.WellFormed n)
    (w : Walk t.cells n t.root path.branches 0 path.leaf) (hl : t.cells path.leaf = some (.leaf l))
    (hm : path.isMatch = false) (hi : l.count ≤ path.leafIndex)
    (hx : path.branches.getLast? = some x) (hopen : x.index < countOf t.cells x.pNode) :
    ∃ bs q, t.iterator path = .ok ⟨⟨bs, q, 0, false⟩, false⟩ ∧ Walk t.cells n t.root bs 0 q ∧
      bs ≠ [] ∧ after t.cells n path.branches = spots t.cells 0 q ++ after t.cells n bs := by
  obtain ⟨b, hb, -⟩ := w.branch_of_mem (mem_of_getLast? hx)
  have hcase : l.count ≤ path.leafIndex ∧ x.index < b.count := by
    simp only [countOf, hb, Node.count] at hopen
    exact ⟨hi, hopen⟩
  simp only [iterator, hm, Bool.false_eq_true, if_false, leafAt, hl, hx,
    branchAt, hb, if_pos hcase, bind, Except.bind]
  rcases Iterator.moveNext_last ht (show (⟨path, false⟩ : Iterator).eof = false from rfl) w hl
    (Nat.le_succ_of_le hi) with ⟨-, hafter, -⟩ | ⟨bs, q, hmove, hwq, hbs, hafter⟩
  · -- what the open branch has further to the right is not nothing
    exact absurd hopen (not_lt_of_ge (((w.after_eq_nil_iff ht.wf ht.nodup ht.min_pos).mp hafter
      x (mem_of_getLast? hx)).ge))
  · obtain ⟨l', hl', -⟩ := hwq.wf_end ht.wf
    have hpos : ¬ l'.count ≤ 0 := by
      have := ht.subtree_ne_nil hwq hbs
      rw [spots_leaf hl', ne_eq, map_eq_nil_iff, ← length_eq_zero_iff,
        l'.length_entries] at this
      omega
    refine ⟨bs, q, ?_, hwq, hbs, hafter⟩
    simp only [hmove, hl', if_neg hpos]

theorem Lands.iterator {key : K} (ht : t.WellFormed n)
    (hland : Lands t.cells n t.root [] key path) : ∃ it, t.iterator path = .ok it ∧
      (path.isMatch = true → it = ⟨path, false⟩) := by
  obtain ⟨⟨bs, hbs, hw, -⟩, l, hl, -⟩ := hland
  rw [nil_append] at hbs
  subst hbs
  cases hm : path.isMatch with
  | true => exact ⟨⟨path, false⟩, by rw [BTree.iterator, if_pos hm], fun _ => rfl⟩
  | false =>
    simp only [Bool.false_eq_true, false_implies, and_true]
    rcases Nat.lt_or_ge path.leafIndex l.count with hi | hi
    · exact ⟨_, BTree.iterator_inside hw hl hi⟩
    · by_cases hopen : ∃ x, path.branches.getLast? = some x ∧
          x.index < countOf t.cells x.pNode
      · obtain ⟨x, hx, hlt⟩ := hopen
        obtain ⟨bs, q, hit, -⟩ := BTree.iterator_open ht hw hl hm hi hx hlt
        exact ⟨_, hit⟩
      · exact ⟨_, BTree.iterator_behind hw hl hm hi fun x hx =>
          (hw.index_le (mem_of_getLast? hx)).antisymm
            (not_lt.mp fun hlt => hopen ⟨x, hx, hlt⟩)⟩

theorem BTree.WellFormed.beginIter_eq (ht : t.WellFormed n) : ∃ bs q,
    t.beginIter = .ok ⟨⟨bs, q, 0, false⟩, decide (spots t.cells n t.root = [])⟩ ∧
      Walk t.cells n t.root bs 0 q ∧
      spots t.cells n t.root = spots t.cells 0 q ++ after t.cells n bs ∧
      (spots t.cells 0 q = [] → bs = []) := by
  obtain ⟨bs, q, hseek, hw, hS⟩ := seekToFirst_spec t [] ht.toShaped.height_lt_next ht.wf
  obtain ⟨l, hl, -⟩ := hw.wf_end ht.wf
  rw [nil_append] at hseek
  have hbegin : t.beginIter = t.iterator ⟨bs, q, 0, false⟩ := by
    simp only [beginIter, seekToBegin, hseek, bind, Except.bind]
  have hlen : (spots t.cells 0 q).length = l.count := by
    rw [spots_leaf hl, length_map, l.length_entries]
  have hroot : spots t.cells 0 q = [] → bs = [] := by
    intro hnil
    by_contra hbs
    exact ht.subtree_ne_nil hw hbs hnil
  refine ⟨bs, q, ?_, hw, hS, hroot⟩
  rw [hbegin]
  rcases Nat.eq_zero_or_pos l.count with hzero | hpos
  · -- the tree is an empty leaf
    have hnil : spots t.cells 0 q = [] := eq_nil_of_length_eq_zero (hlen.trans hzero)
    have hempty : spots t.cells n t.root = [] := by
      rw [hS, hnil, hroot hnil, after_nil, nil_append]
    rw [decide_eq_true hempty]
    refine iterator_behind hw hl rfl (Nat.le_of_eq hzero) fun x hx => ?_
    rw [hroot hnil] at hx
    simp at hx
  · have hne : spots t.cells n t.root ≠ [] := by
      rw [hS]
      intro hnil
      rw [append_eq_nil_iff] at hnil
      rw [hnil.1] at hlen
      simp only [length_nil] at hlen
      omega
    rw [decide_eq_false hne]
    exact iterator_inside hw hl hpos

theorem BTree.WellFormed.beginIter (ht : t.WellFormed n) : ∃ it, t.beginIter = .ok it ∧
    if spots t.cells n t.root = [] then it.AtEnd t n else it.At t n (spots t.cells n t.root) := by
  obtain ⟨bs, q, hbegin, hw, hS, hroot⟩ := ht.beginIter_eq
  refine ⟨_, hbegin, ?_⟩
  by_cases hnil : spots t.cells n t.root = []
  · rw [if_pos hnil, decide_eq_true hnil]
    have hq : spots t.cells 0 q = [] := (append_eq_nil_iff.mp (hS ▸ hnil)).1
    have hbs := hroot hq
    subst hbs
    obtain ⟨rfl, rfl⟩ := hw.of_nil
    obtain ⟨l, hl, -⟩ := hw.wf_end ht.wf
    rw [spots_leaf hl, map_eq_nil_iff, ← length_eq_zero_iff, l.length_entries] at hq
    exact ⟨rfl, rfl, by simp [countOf, hl, Node.count, hq]⟩
  · rw [if_neg hnil, decide_eq_false hnil, hS]
    refine Iterator.at_leaf ht hw fun hq => hnil ?_
    rw [hS, hq, hroot hq, after_nil, nil_append]

theorem BTree.WellFormed.endIter_eq (ht : t.WellFormed n) : ∃ bs,
    t.endIter = .ok ⟨⟨bs, lastLeaf t.cells n t.root,
      countOf t.cells (lastLeaf t.cells n t.root), false⟩, true⟩ ∧
      Walk t.cells n t.root bs 0 (lastLeaf t.cells n t.root) ∧ after t.cells n bs = [] := by
  obtain ⟨bs, hseek, hw, hlast⟩ := Node.seekToLast_spec t [] ht.toShaped.height_lt_next ht.wf
  obtain ⟨l, hl, -⟩ := hw.wf_end ht.wf
  rw [nil_append] at hseek
  have hcount : countOf t.cells (lastLeaf t.cells n t.root) = l.count := by
    simp only [countOf, hl, Node.count]
  have hindex : (if 0 < l.count then l.count else 0) = l.count := by split <;> omega
  have hend : t.endIter = t.iterator ⟨bs, lastLeaf t.cells n t.root, l.count, false⟩ := by
    simp only [endIter, seekToEnd, hseek, leafAt, hl, bind, Except.bind, hindex]
  have hfull : ∀ x ∈ bs, x.index = countOf t.cells x.pNode := by
    intro x hx
    obtain ⟨b, hb, -⟩ := hw.branch_of_mem hx
    rw [hlast x hx b hb]
    simp only [countOf, hb, Node.count]
  refine ⟨bs, ?_, hw, (hw.after_eq_nil_iff ht.wf ht.nodup ht.min_pos).mpr hfull⟩
  rw [hend, hcount]
  exact iterator_behind hw hl rfl (le_refl _)
    fun x hx => hfull x (mem_of_getLast? hx)

theorem BTree.WellFormed.endIter (ht : t.WellFormed n) : ∃ it, t.endIter = .ok it ∧
    it.AtEnd t n := by
  obtain ⟨bs, hend, -⟩ := ht.endIter_eq
  exact ⟨_, hend, rfl, rfl, rfl⟩

end Moves

/-! ### Loops -/

section Loops

variable {σ : Type} {t : BTree K V} {n : ℕ}

/-- The loop meets every key in order. -/
theorem BTree.forEachLoop_spec (ht : t.WellFormed n) (body : K → σ → Except Fault σ)
    {stop : Iterator} (hstop : stop.AtEnd t n) :
    ∀ (rest : List (NodeId × K × Option V)) (fuel : ℕ) (it : Iterator) (s : σ),
      rest.length < fuel → (if rest = [] then it.AtEnd t n else it.At t n rest) →
      t.forEachLoop body fuel it stop s =
        (rest.map (·.2.1)).foldlM (fun s k => body k s) s := by
  intro rest
  induction rest with
  | nil =>
    intro fuel it s hfuel hit
    obtain ⟨fuel, rfl⟩ : ∃ f, fuel = f + 1 := ⟨fuel - 1, by omega⟩
    rw [if_pos rfl] at hit
    rw [forEachLoop, if_pos (hit.same hstop)]
    rfl
  | cons e rest ih =>
    intro fuel it s hfuel hit
    obtain ⟨fuel, rfl⟩ : ∃ f, fuel = f + 1 := ⟨fuel - 1, by omega⟩
    rw [if_neg (by simp)] at hit
    obtain ⟨e', rest', hcons, hget⟩ := hit.get
    obtain ⟨rfl, rfl⟩ := List.cons.inj hcons
    obtain ⟨it', hmove, hit'⟩ := hit.moveNext ht
    have hfuel : rest.length < fuel := by simpa using hfuel
    rw [forEachLoop, if_neg (by simp [hit.not_same hstop]), hget]
    simp only [map_cons, foldlM_cons, hmove, bind, Except.bind]
    cases body e.2.1 s with
    | error f => rfl
    | ok s' => exact ih fuel it' s' hfuel hit'

/-- **A loop from `begin()` to `end()`** visits the entries in order. -/
theorem BTree.forEach_spec (ht : t.WellFormed n) (body : K → σ → Except Fault σ) (s : σ) :
    t.forEach body s = ((t.contents n).map Prod.fst).foldlM (fun s k => body k s) s := by
  obtain ⟨it, hbegin, hit⟩ := ht.beginIter
  obtain ⟨stop, hend, hstop⟩ := ht.endIter
  have hlen : (spots t.cells n t.root).length < t.count.toNat + 1 := by
    have := ht.count
    simp [contents, entries] at this
    omega
  rw [forEach, hbegin, hend]
  simp only [bind, Except.bind]
  rw [forEachLoop_spec ht body hstop _ _ it s hlen hit, contents, entries,
    map_map]
  rfl

end Loops

end Fastore.Tree
