import Fastore.Lib.SortedMap
import Fastore.Tree.Node

/-!
Range requests over a tree that keeps its contract.

A column buffer answers a range request by walking a tree between two
iterators. Here the tree is a sorted map and an iterator is a position in
it; moving and reading fail where the code throws. All buffers find the
two ends in the same way (`setUp`), and walk in the same way: upwards by
reading and then moving, downwards by moving and then reading. `Walks`
says what a walk between two positions still has to read, so that nothing
after `setUp_spec` has to tell the directions apart.
-/

namespace Fastore.Buffer

open Lib Fastore.Tree List

structure RangeBound (A : Type) where
  value : A
  inclusive : Bool
  deriving DecidableEq, Repr

structure RangeRequest (A R : Type) where
  ascending : Bool := true
  limit : ℤ := 500
  first : Option (RangeBound A) := none
  last : Option (RangeBound A) := none
  rowID : Option R := none
  deriving DecidableEq, Repr

structure ValueRows (A R : Type) where
  value : A
  rowIDs : List R
  deriving DecidableEq, Repr

structure RangeResult (A R : Type) where
  valueRowsList : List (ValueRows A R) := []
  eof : Bool := false
  bof : Bool := false
  limited : Bool := false
  deriving DecidableEq, Repr

variable {A R X : Type} [LinearOrder A]

/-! ### Iterators -/

/-- `GetPath`: the place of the key, and whether the key is there. -/
def getPath (m : SortedMap A X) (key : A) : ℕ × Bool := (m.rank key, (m.get? key).isSome)

/-- `findNearest`: the entry of the key or the one after it. -/
def findNearest (m : SortedMap A X) (key : A) : ℕ × Bool := getPath m key

def find (m : SortedMap A X) (key : A) : ℕ := if (m.get? key).isSome then m.rank key else m.size

/-- `operator++`. -/
def moveNext (m : SortedMap A X) (i : ℕ) : Except Fault ℕ :=
  if i < m.size then .ok (i + 1) else .error (.thrown "Iteration past end of tree")

/-- `operator--`. -/
def movePrior : ℕ → Except Fault ℕ
  | 0 => .error (.thrown "Iteration past start of tree")
  | i + 1 => .ok i

/-- `operator*`. -/
def deref (m : SortedMap A X) (i : ℕ) : Except Fault (A × X) :=
  match m.entries[i]? with
  | some e => .ok e
  | none => .error (.thrown "Iterator not dereferenceable")

def moveBefore (ascending : Bool) (i : ℕ) : Except Fault ℕ :=
  if ascending then .ok i else movePrior i

def moveAfter (m : SortedMap A X) (ascending : Bool) (i : ℕ) : Except Fault ℕ :=
  if ascending then moveNext m i else .ok i

def moveIf (m : SortedMap A X) (condition : Bool) (i : ℕ) : Except Fault ℕ :=
  if condition then moveNext m i else .ok i

/-! ### The two ends -/

structure SetUp (A R : Type) where
  begin : ℕ
  stop : ℕ
  result : RangeResult A R

def RangeRequest.disjoint (range : RangeRequest A R) : Bool :=
  match range.first, range.last with
  | some first, some last =>
    range.ascending && decide (last.value < first.value) ||
      !range.ascending && decide (first.value < last.value)
  | _, _ => false

def RangeRequest.bInclusive (range : RangeRequest A R) : Bool :=
  match range.first with
  | some first => first.inclusive
  | none => true

def RangeRequest.eInclusive (range : RangeRequest A R) : Bool :=
  match range.last with
  | some last => last.inclusive
  | none => true

/-- Where the values begin. `startKey` is the value of the row the request
names, if it names one. -/
def beginAt (m : SortedMap A X) (range : RangeRequest A R) (startKey : Option A) : ℕ × Bool :=
  match startKey, range.first with
  | some key, _ => findNearest m key
  | none, some first => findNearest m first.value
  | none, none => (if range.ascending then 0 else m.size, false)

def stopAt (m : SortedMap A X) (range : RangeRequest A R) : ℕ × Bool :=
  match range.last with
  | some last => findNearest m last.value
  | none => (if range.ascending then m.size else 0, false)

/-- The start of `GetRows`, up to its loop. Disjoint bounds set an empty
result, but the function does not return there, and what was set is set
again. -/
def setUp (m : SortedMap A X) (range : RangeRequest A R) (startKey : Option A) :
    Except Fault (SetUp A R) := do
  let result : RangeResult A R := {}
  let result := if range.disjoint then
    { result with valueRowsList := [], bof := true, eof := true, limited := false } else result
  let firstMarker := if range.ascending then 0 else m.size
  let lastMarker := if range.ascending then m.size else 0
  let (begin, beginMatch) := beginAt m range startKey
  let (stop, endMatch) := stopAt m range
  let result := { result with bof := begin == firstMarker, eof := stop == lastMarker }
  -- upwards an entry is read before the move, downwards after it
  let skipBegin := (if range.ascending then !range.bInclusive else range.bInclusive) && beginMatch
  let skipEnd := (if range.ascending then range.eInclusive else !range.eInclusive) && endMatch
  let begin ← moveIf m skipBegin begin
  let result := if skipBegin then { result with bof := false } else result
  let stop ← moveIf m skipEnd stop
  let result := if skipEnd then { result with eof := stop == lastMarker } else result
  .ok ⟨begin, stop, result⟩

/-! ### What a request asks for -/

def RangeBound.lower (bound : RangeBound A) (a : A) : Bool :=
  if bound.inclusive then bound.value ≤ a else bound.value < a

def RangeBound.upper (bound : RangeBound A) (a : A) : Bool :=
  if bound.inclusive then a ≤ bound.value else a < bound.value

def RangeRequest.lowest (range : RangeRequest A R) : Option (RangeBound A) :=
  if range.ascending then range.first else range.last

def RangeRequest.highest (range : RangeRequest A R) : Option (RangeBound A) :=
  if range.ascending then range.last else range.first

def RangeRequest.admits (range : RangeRequest A R) (a : A) : Bool :=
  range.lowest.all (·.lower a) && range.highest.all (·.upper a)

def RangeRequest.direct {B : Type} (range : RangeRequest A R) (l : List B) : List B :=
  if range.ascending then l else l.reverse

/-- The interval is not empty: a bound is missing, or the first lies before
the last in the direction of the request, or they are the same and both
included. -/
def RangeRequest.Proper (range : RangeRequest A R) : Prop :=
  ∀ low ∈ range.lowest, ∀ high ∈ range.highest,
    low.value < high.value ∨ low.value = high.value ∧ low.inclusive ∧ high.inclusive

def lowCut (m : SortedMap A X) : Option (RangeBound A) → ℕ
  | none => 0
  | some bound => m.rank bound.value +
      if !bound.inclusive && (m.get? bound.value).isSome then 1 else 0

def highCut (m : SortedMap A X) : Option (RangeBound A) → ℕ
  | none => m.size
  | some bound => m.rank bound.value +
      if bound.inclusive && (m.get? bound.value).isSome then 1 else 0

section Cuts

variable (m : SortedMap A X)

theorem lowCut_eq (bound : Option (RangeBound A)) :
    lowCut m bound = m.entries.countP fun e => !bound.all (·.lower e.1) := by
  cases bound with
  | none => simp [lowCut]
  | some bound =>
    obtain ⟨value, inclusive⟩ := bound
    cases inclusive
    · simpa [lowCut, RangeBound.lower, ← decide_not] using (m.countP_le value).symm
    · simpa [lowCut, RangeBound.lower, ← decide_not] using (m.countP_lt value).symm

theorem highCut_eq (bound : Option (RangeBound A)) :
    highCut m bound = m.entries.countP fun e => bound.all (·.upper e.1) := by
  cases bound with
  | none => simp [highCut, SortedMap.size]
  | some bound =>
    obtain ⟨value, inclusive⟩ := bound
    cases inclusive
    · simpa [highCut, RangeBound.upper] using (m.countP_lt value).symm
    · simpa [highCut, RangeBound.upper] using (m.countP_le value).symm

theorem highCut_le (bound : Option (RangeBound A)) : highCut m bound ≤ m.size := by
  rw [highCut_eq]
  exact countP_le_length

theorem lower_mono (bound : Option (RangeBound A)) {a b : A} (hab : a < b)
    (ha : bound.all (·.lower a)) : bound.all (·.lower b) := by
  cases bound with
  | none => rfl
  | some low =>
    simp only [Option.all_some, RangeBound.lower] at ha ⊢
    split at ha <;> simp_all
    · exact ha.trans hab.le
    · exact ha.trans hab

theorem upper_mono (bound : Option (RangeBound A)) {a b : A} (hab : a < b)
    (hb : bound.all (·.upper b)) : bound.all (·.upper a) := by
  cases bound with
  | none => rfl
  | some high =>
    simp only [Option.all_some, RangeBound.upper] at hb ⊢
    split at hb <;> simp_all
    · exact hab.le.trans hb
    · exact hab.trans hb

theorem RangeRequest.filter_admits (range : RangeRequest A R) :
    m.entries.filter (fun e => range.admits e.1) =
      (m.entries.take (highCut m range.highest)).drop (lowCut m range.lowest) := by
  rw [lowCut_eq, highCut_eq, ← m.filter_and_eq]
  · simp only [RangeRequest.admits, Bool.not_not]
  · intro a b hab hb
    rw [Bool.not_eq_true'] at hb ⊢
    rw [← Bool.not_eq_true] at hb ⊢
    exact fun ha => hb (lower_mono _ hab ha)
  · exact fun a b hab hb => upper_mono _ hab hb

theorem RangeRequest.Proper.cut_le {range : RangeRequest A R} (h : range.Proper) :
    lowCut m range.lowest ≤ highCut m range.highest := by
  cases hl : range.lowest with
  | none => exact Nat.zero_le _
  | some low =>
    cases hh : range.highest with
    | none =>
      rw [lowCut_eq]
      exact countP_le_length
    | some high =>
      rcases h low hl high hh with hlt | ⟨heq, hlow, hhigh⟩
      · -- what is not above the lower bound is below the upper one
        rw [lowCut_eq, highCut_eq]
        refine countP_mono_left fun e _ he => ?_
        have hle : e.1 ≤ low.value := by
          simp only [Option.all_some, RangeBound.lower] at he
          split at he <;> simp at he
          · exact he.le
          · exact he
        simp only [Option.all_some, RangeBound.upper]
        split <;> simp
        · exact (hle.trans_lt hlt).le
        · exact hle.trans_lt hlt
      · simp [lowCut, highCut, heq, hlow, hhigh]

end Cuts

/-! ### Walks -/

/-- A walk from `begin` to `stop` reads the entries `rest`, in this order. -/
def Walks (m : SortedMap A X) (ascending : Bool) (begin stop : ℕ) (rest : List (A × X)) : Prop :=
  if ascending then begin ≤ stop ∧ stop ≤ m.size ∧ rest = (m.entries.take stop).drop begin
  else stop ≤ begin ∧ begin ≤ m.size ∧ rest = ((m.entries.take begin).drop stop).reverse

section Walks

variable {m : SortedMap A X} {ascending : Bool} {begin stop : ℕ} {e : A × X}
  {rest : List (A × X)}

theorem Walks.length (h : Walks m ascending begin stop rest) :
    begin + rest.length = stop ∨ stop + rest.length = begin := by
  cases ascending
  · obtain ⟨hle, hsize, rfl⟩ := h
    rw [SortedMap.size] at hsize
    simp only [length_reverse, length_drop, length_take]
    omega
  · obtain ⟨hle, hsize, rfl⟩ := h
    rw [SortedMap.size] at hsize
    simp only [length_drop, length_take]
    omega

theorem Walks.eq_of_nil (h : Walks m ascending begin stop []) : begin = stop := by
  have := h.length
  simp only [length_nil] at this
  omega

theorem Walks.length_le (h : Walks m ascending begin stop rest) : rest.length ≤ m.size := by
  have := h.length
  cases ascending
  · obtain ⟨hle, hsize, -⟩ := h
    omega
  · obtain ⟨hle, hsize, -⟩ := h
    omega

theorem Walks.step (h : Walks m ascending begin stop (e :: rest)) : begin ≠ stop ∧
    ∃ i j, moveBefore ascending begin = .ok i ∧ deref m i = .ok e ∧
      moveAfter m ascending i = .ok j ∧ Walks m ascending j stop rest := by
  have hlen := h.length
  rw [length_cons] at hlen
  refine ⟨by omega, ?_⟩
  cases ascending
  · obtain ⟨hle, hsize, hrest⟩ := h
    obtain ⟨i, rfl⟩ : ∃ i, begin = i + 1 := ⟨begin - 1, by omega⟩
    have hi : i < m.entries.length := hsize
    rw [← take_append_getElem hi, drop_append_of_le_length (by simp; omega),
      reverse_append, reverse_singleton, singleton_append] at hrest
    obtain ⟨rfl, rfl⟩ := List.cons.inj hrest
    refine ⟨i, i, rfl, ?_, rfl, by omega, by omega, rfl⟩
    simp only [deref, getElem?_eq_getElem hi]
  · obtain ⟨hle, hsize, hrest⟩ := h
    have hi : begin < (m.entries.take stop).length := by
      rw [SortedMap.size] at hsize
      simp only [length_take]
      omega
    have hlt : begin < m.size := by omega
    rw [drop_eq_getElem_cons hi] at hrest
    obtain ⟨rfl, rfl⟩ := List.cons.inj hrest
    refine ⟨begin, begin + 1, rfl, ?_, by simp [moveAfter, moveNext, hlt], by omega, hsize, rfl⟩
    simp only [deref, getElem_take, getElem?_eq_getElem (show begin < m.entries.length from hlt)]

end Walks

/-! ### What the two ends enclose -/

/-- The request with the bound it begins at: the value of the start row, if
there is one, with the inclusiveness that is meant for the first bound. -/
def RangeRequest.from (range : RangeRequest A R) (startKey : Option A) : RangeRequest A R :=
  match startKey with
  | some key => { range with first := some ⟨key, range.bInclusive⟩ }
  | none => range

section Ends

variable (m : SortedMap A X) (range : RangeRequest A R) (startKey : Option A)

theorem moveIf_rank (condition : Bool) (key : A) :
    moveIf m (condition && (m.get? key).isSome) (m.rank key) =
      .ok (m.rank key + if condition && (m.get? key).isSome then 1 else 0) := by
  by_cases h : (condition && (m.get? key).isSome) = true
  · obtain ⟨v, hv⟩ := Option.isSome_iff_exists.mp (Bool.and_eq_true_iff.mp h).2
    rw [moveIf, if_pos h, if_pos h, moveNext, if_pos (SortedMap.rank_lt hv)]
  · rw [moveIf, if_neg h, if_neg h]
    rfl

theorem moveIf_beginAt :
    moveIf m ((if range.ascending then !range.bInclusive else range.bInclusive) &&
        (beginAt m range startKey).2) (beginAt m range startKey).1 =
      .ok (if range.ascending then lowCut m (range.from startKey).first
        else highCut m (range.from startKey).first) := by
  cases startKey with
  | some key =>
    simp only [beginAt, findNearest, getPath, moveIf_rank, RangeRequest.from, lowCut, highCut]
    cases range.ascending <;> rfl
  | none =>
    cases h : range.first with
    | some first =>
      simp only [beginAt, h, findNearest, getPath, moveIf_rank, RangeRequest.from, lowCut, highCut,
        RangeRequest.bInclusive]
      cases range.ascending <;> rfl
    | none =>
      simp only [beginAt, h, RangeRequest.from, lowCut, highCut, moveIf, Bool.and_false]
      rfl

theorem moveIf_stopAt :
    moveIf m ((if range.ascending then range.eInclusive else !range.eInclusive) &&
        (stopAt m range).2) (stopAt m range).1 =
      .ok (if range.ascending then highCut m range.last else lowCut m range.last) := by
  cases h : range.last with
  | some last =>
    simp only [stopAt, h, findNearest, getPath, moveIf_rank, lowCut, highCut, RangeRequest.eInclusive]
    cases range.ascending <;> rfl
  | none =>
    simp only [stopAt, h, lowCut, highCut, moveIf, Bool.and_false]
    rfl

theorem setUp_ends : ∃ s, setUp m range startKey = .ok s ∧ s.result.valueRowsList = [] ∧
    s.result.limited = false ∧
    s.begin = (if range.ascending then lowCut m (range.from startKey).first
      else highCut m (range.from startKey).first) ∧
    s.stop = (if range.ascending then highCut m range.last else lowCut m range.last) := by
  simp only [setUp, moveIf_beginAt, moveIf_stopAt, bind, Except.bind]
  refine ⟨_, rfl, ?_, ?_, rfl, rfl⟩
  · split_ifs <;> rfl
  · split_ifs <;> rfl

theorem setUp_spec (hle : lowCut m (range.from startKey).lowest ≤
      highCut m (range.from startKey).highest) :
    ∃ s, setUp m range startKey = .ok s ∧ s.result.valueRowsList = [] ∧
      s.result.limited = false ∧ Walks m range.ascending s.begin s.stop
        (range.direct (m.entries.filter fun e => (range.from startKey).admits e.1)) := by
  have hasc : (range.from startKey).ascending = range.ascending := by cases startKey <;> rfl
  have hlast : (range.from startKey).last = range.last := by cases startKey <;> rfl
  obtain ⟨s, hok, hnil, hlim, hbegin, hstop⟩ := setUp_ends m range startKey
  refine ⟨s, hok, hnil, hlim, ?_⟩
  have hsize := highCut_le m (range.from startKey).highest
  rw [RangeRequest.filter_admits, hbegin, hstop]
  simp only [Walks, RangeRequest.lowest, RangeRequest.highest, hasc, hlast,
    RangeRequest.direct] at hle hsize ⊢
  cases h : range.ascending
  · simp only [h] at hle hsize ⊢
    exact ⟨hle, hsize, rfl⟩
  · simp only [h] at hle hsize ⊢
    exact ⟨hle, hsize, rfl⟩

end Ends

end Fastore.Buffer
