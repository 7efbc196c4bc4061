import Fastore.Lib.Runs
import Fastore.Buffer.Paging

/-!
The two ends of a range.

Before its loop `GetRows` compares the places of the two bounds with the ends
of the tree and sets `bof` and `eof`. Downwards the place of an inclusive first
bound is compared before it is moved behind its value, and `bof` is reset when
it is moved, so a range that begins at the greatest value is not said to begin
at the beginning (`Index.flags_iff`).

The loop itself ends where the places meet. If the interval of a request is
empty, they have to be the same from the start, or the loop goes on to the end
of the tree: for this no value may lie outside of both bounds (`Index.getRows_empty_iff`).
-/

namespace Fastore.Buffer

open Lib Fastore.Tree List RangeRequest SortedMap

variable {R A X : Type} [LinearOrder A]

/-! ### Places of bounds -/

section Places

variable (m : SortedMap A X)

theorem lowCut_eq_highCut_iff (low high : Option (RangeBound A)) :
    lowCut m low = highCut m high ↔
      ∀ e ∈ m.entries, low.all (·.lower e.1) ≠ high.all (·.upper e.1) := by
  have hlow : ∀ a b : A × X, a.1 < b.1 → (!low.all (·.lower b.1)) = true →
      (!low.all (·.lower a.1)) = true := by
    intro a b hab hb
    rw [Bool.not_eq_true', ← Bool.not_eq_true] at hb ⊢
    exact fun ha => hb (lower_mono low hab ha)
  have hhigh : ∀ a b : A × X, a.1 < b.1 → high.all (·.upper b.1) = true →
      high.all (·.upper a.1) = true := fun a b hab hb => upper_mono high hab hb
  rw [lowCut_eq, highCut_eq]
  constructor
  · intro h e he heq
    have hfilter := (m.filter_eq_take hlow).trans (h ▸ (m.filter_eq_take hhigh).symm)
    have hmem : e ∈ m.entries.filter (fun e => !low.all (·.lower e.1)) ↔
        e ∈ m.entries.filter fun e => high.all (·.upper e.1) := by rw [hfilter]
    simp only [mem_filter, he, true_and, heq] at hmem
    cases hv : high.all (·.upper e.1) <;> simp [hv] at hmem
  · intro h
    refine countP_congr fun e he => ?_
    have hne := h e he
    cases hl : low.all (·.lower e.1) <;> cases hh : high.all (·.upper e.1) <;> simp_all

theorem lowCut_eq_zero_iff (low : Option (RangeBound A)) :
    lowCut m low = 0 ↔ ∀ e ∈ m.entries, low.all (·.lower e.1) = true := by
  rw [lowCut_eq, countP_eq_zero]
  simp

theorem highCut_eq_size_iff (high : Option (RangeBound A)) :
    highCut m high = m.size ↔ ∀ e ∈ m.entries, high.all (·.upper e.1) = true := by
  rw [highCut_eq, size, countP_eq_length]

end Places

/-! ### The flags -/

section Flags

variable {m : SortedMap A X} {range : RangeRequest A R}

def RangeRequest.satisfiesFirst (range : RangeRequest A R) (a : A) : Bool :=
  range.first.all fun bound => if range.ascending then bound.lower a else bound.upper a

def RangeRequest.satisfiesLast (range : RangeRequest A R) (a : A) : Bool :=
  range.last.all fun bound => if range.ascending then bound.upper a else bound.lower a

/-- Downwards from an inclusive bound that is the greatest of the values. -/
def RangeRequest.FromGreatest (range : RangeRequest A R) (values : Set A) : Prop :=
  range.ascending = false ∧
    ∃ bound ∈ range.first, bound.inclusive = true ∧ bound.value ∈ values ∧
      ∀ a ∈ values, a ≤ bound.value

structure RangeResult.FlagsRight (range : RangeRequest A R) (values : Set A)
    (result : RangeResult A R) : Prop where
  bof : result.bof = true ↔ ∀ a ∈ values, range.satisfiesFirst a = true
  eof : result.eof = true ↔ ∀ a ∈ values, range.satisfiesLast a = true

/-- The flags are set from the two places alone. -/
theorem setUp_flags (m : SortedMap A X) (range : RangeRequest A R) :
    ∃ s, setUp m range none = .ok s ∧
      (s.result.bof = true ↔
        ((if range.ascending then !range.bInclusive else range.bInclusive) &&
          (beginAt m range none).2) = false ∧
        s.begin = if range.ascending then 0 else m.size) ∧
      (s.result.eof = true ↔ s.stop = if range.ascending then m.size else 0) := by
  have hbegin := moveIf_beginAt m range none
  have hstop := moveIf_stopAt m range
  simp only [setUp, hbegin, hstop, bind, Except.bind]
  refine ⟨_, rfl, ?_, ?_⟩
  · generalize ((if range.ascending then !range.bInclusive else range.bInclusive) &&
      (beginAt m range none).2) = skip at hbegin ⊢
    cases skip with
    | true =>
      simp only [if_true, Bool.true_eq_false, false_and, iff_false]
      split_ifs <;> simp
    | false =>
      rw [← Except.ok.inj hbegin]
      simp only [Bool.false_eq_true, if_false, true_and]
      split_ifs <;> simp
  · generalize ((if range.ascending then range.eInclusive else !range.eInclusive) &&
      (stopAt m range).2) = skip at hstop ⊢
    cases skip with
    | true => simp
    | false =>
      rw [← Except.ok.inj hstop]
      simp only [Bool.false_eq_true, if_false]
      split_ifs <;> simp

theorem lowCut_ne_zero_of_moved (hmoved : (!range.bInclusive && (beginAt m range none).2) = true) :
    lowCut m range.first ≠ 0 := by
  cases hfirst : range.first with
  | none => simp [beginAt, hfirst] at hmoved
  | some first =>
    simp only [beginAt, hfirst, findNearest, getPath, bInclusive] at hmoved
    rw [lowCut, if_pos hmoved]
    exact Nat.succ_ne_zero _

theorem moved_iff_fromGreatest (hasc : range.ascending = false)
    (hall : ∀ a ∈ m.keys, range.satisfiesFirst a = true) :
    (range.bInclusive && (beginAt m range none).2) = true ↔ range.FromGreatest {a | a ∈ m.keys} := by
  rw [RangeRequest.FromGreatest, and_iff_right hasc]
  cases hfirst : range.first with
  | none => simp [beginAt, hfirst]
  | some first =>
    have hmatch : (m.get? first.value).isSome = true ↔ first.value ∈ m.keys := by
      rw [SortedMap.mem_keys, Option.isSome_iff_exists]
    simp only [beginAt, hfirst, findNearest, getPath, bInclusive, Bool.and_eq_true,
      hmatch, Option.mem_some_iff, exists_eq_left']
    refine and_congr_right fun hinclusive => ⟨fun hkey => ⟨hkey, fun a ha => ?_⟩, fun h => h.1⟩
    have hupper := hall a ha
    simpa [satisfiesFirst, hfirst, hasc, RangeBound.upper, hinclusive] using hupper

/-- The flags in terms of the stored values. -/
theorem setUp_bof (m : SortedMap A X) (range : RangeRequest A R) :
    ∃ s, setUp m range none = .ok s ∧
      (s.result.bof = true ↔ (∀ a ∈ m.keys, range.satisfiesFirst a = true) ∧
        ¬ range.FromGreatest {a | a ∈ m.keys}) ∧
      (s.result.eof = true ↔ ∀ a ∈ m.keys, range.satisfiesLast a = true) := by
  obtain ⟨s, hs, hbof, heof⟩ := setUp_flags m range
  obtain ⟨s', hs', -, -, hbegin, hstop⟩ := setUp_ends m range none
  obtain rfl := ok_unique hs hs'
  refine ⟨s, hs, ?_, ?_⟩
  · rw [hbof, hbegin]
    cases hasc : range.ascending with
    | true =>
      have hnot : ¬ range.FromGreatest {a | a ∈ m.keys} := fun h =>
        Bool.noConfusion (hasc.symm.trans h.1)
      have hkept : lowCut m range.first = 0 →
          (!range.bInclusive && (beginAt m range none).2) = false := fun h =>
        Bool.eq_false_iff.mpr fun hmoved => lowCut_ne_zero_of_moved hmoved h
      simp only [if_true, hnot, not_false_eq_true, and_true, RangeRequest.from]
      rw [and_iff_right_of_imp hkept, lowCut_eq_zero_iff]
      simp only [RangeRequest.satisfiesFirst, hasc, if_true, SortedMap.keys, forall_mem_map]
    | false =>
      have hall : highCut m range.first = m.size ↔
          ∀ a ∈ m.keys, range.satisfiesFirst a = true := by
        simp only [highCut_eq_size_iff, RangeRequest.satisfiesFirst, hasc, Bool.false_eq_true,
          if_false, SortedMap.keys, forall_mem_map]
      simp only [Bool.false_eq_true, if_false, RangeRequest.from, hall]
      rw [and_comm]
      refine and_congr_right fun h => ?_
      rw [← moved_iff_fromGreatest hasc h, Bool.not_eq_true]
  · rw [heof, hstop]
    cases hasc : range.ascending with
    | true =>
      simp only [if_true, highCut_eq_size_iff, RangeRequest.satisfiesLast, hasc, SortedMap.keys,
        forall_mem_map]
    | false =>
      simp only [Bool.false_eq_true, if_false, lowCut_eq_zero_iff, RangeRequest.satisfiesLast,
        hasc, SortedMap.keys, forall_mem_map]

theorem RangeRequest.FromGreatest.satisfiesFirst {values : Set A}
    (h : range.FromGreatest values) : ∀ a ∈ values, range.satisfiesFirst a = true := by
  obtain ⟨hasc, bound, hfirst, hinclusive, -, hgreatest⟩ := h
  intro a ha
  rw [RangeRequest.satisfiesFirst, hfirst]
  simpa [hasc, RangeBound.upper, hinclusive] using hgreatest a ha

theorem flagsRight_resetEof {s : SetUp A R} (hs : setUp m range none = .ok s)
    {result : RangeResult A R} (hbof : result.bof = s.result.bof)
    (heof : result.eof = s.result.eof) :
    (result.resetEof.limited = true → result.resetEof.eof = false) ∧
    (result.resetEof.limited = false →
      (result.resetEof.FlagsRight range {a | a ∈ m.keys} ↔ ¬ range.FromGreatest {a | a ∈ m.keys})) := by
  obtain ⟨s', hs', hfirst, hlast⟩ := setUp_bof m range
  obtain rfl := ok_unique hs hs'
  rw [RangeResult.limited_resetEof]
  refine ⟨fun hlimited => ?_, fun hlimited => ?_⟩
  · cases h : result.eof <;> simp [RangeResult.resetEof, hlimited, h]
  · have hreset : result.resetEof = result := by simp [RangeResult.resetEof, hlimited]
    rw [hreset]
    constructor
    · intro hright hgreatest
      have htrue := hright.bof.mpr hgreatest.satisfiesFirst
      rw [hbof, hfirst] at htrue
      exact htrue.2 hgreatest
    · intro hnot
      refine ⟨?_, ?_⟩
      · rw [hbof, hfirst, and_iff_left hnot]
        rfl
      · rw [heof, hlast]
        rfl

end Flags

section Loops

variable [LinearOrder R] {m : SortedMap A X} {row : A × X → R} {range : RangeRequest A R}

/-- What a loop does to its result: it adds rows behind those it has, does not set `eof`,
and sets `bof` only for a start row. -/
structure RangeResult.Extends (startId : Option R) (result result' : RangeResult A R) : Prop where
  rows : result.valueRowsList <+: result'.valueRowsList
  bof : startId = none → result'.bof = result.bof
  eof : result'.eof = result.eof

omit [LinearOrder A] [LinearOrder R] in
theorem RangeResult.Extends.refl (startId : Option R) (result : RangeResult A R) :
    result.Extends startId result :=
  ⟨prefix_rfl, fun _ => rfl, rfl⟩

omit [LinearOrder A] [LinearOrder R] in
theorem RangeResult.Extends.after {startId startId' : Option R} {first next last : RangeResult A R}
    (h' : next.Extends startId' last) (h : first.Extends startId next)
    (hstart : startId = none → startId' = none) : first.Extends startId last :=
  ⟨h.rows.trans h'.rows, fun hnone => (h'.bof (hstart hnone)).trans (h.bof hnone),
    h'.eof.trans h.eof⟩

theorem scanLoop_extends {stop fuel begin : ℕ} {startId : Option R}
    {result result' : RangeResult A R}
    (h : scanLoop m row range stop fuel begin startId result = .ok result') :
    result.Extends startId result' := by
  induction fuel generalizing begin startId result with
  | zero => cases h
  | succ fuel ih =>
    rw [scanLoop] at h
    split at h
    · obtain rfl := Except.ok.inj h
      exact .refl _ _
    · obtain ⟨i, -, h⟩ := eq_ok_of_bind h
      obtain ⟨e, -, h⟩ := eq_ok_of_bind h
      split at h
      · rename_i hstart
        obtain ⟨j, -, h⟩ := eq_ok_of_bind h
        refine (ih h).after ⟨prefix_rfl, fun hnone => ?_, rfl⟩ fun _ => rfl
        simp [hnone] at hstart
      · obtain ⟨j, -, h⟩ := eq_ok_of_bind h
        exact (ih h).after ⟨prefix_append .., fun _ => rfl, rfl⟩ id

theorem scanLoop_ok (row : A × X → R) {stop : ℕ} (rest : List (A × X)) {fuel begin : ℕ}
    (result : RangeResult A R) (hw : Walks m range.ascending begin stop rest)
    (hfuel : rest.length < fuel) :
    ∃ result', scanLoop m row range stop fuel begin none result = .ok result' := by
  induction rest generalizing fuel begin result with
  | nil =>
    obtain ⟨fuel, rfl⟩ : ∃ f, fuel = f + 1 := ⟨fuel - 1, by omega⟩
    exact ⟨result, by rw [scanLoop, if_pos (Or.inl hw.eq_of_nil)]⟩
  | cons e rest ih =>
    obtain ⟨fuel, rfl⟩ : ∃ f, fuel = f + 1 := ⟨fuel - 1, by omega⟩
    obtain ⟨-, i, j, hbefore, hderef, hafter, hw'⟩ := hw.step
    rw [scanLoop]
    split
    · exact ⟨result, rfl⟩
    · simp only [hbefore, hderef, bind, Except.bind, hafter, reduceCtorEq, if_false]
      exact ih _ hw' (by simpa using hfuel)

theorem scanRows_ok (m : SortedMap A X) (row : A × X → R) (hrow : range.rowID = none)
    (hproper : range.Proper) : ∃ result, scanRows m row range none = .ok result := by
  obtain ⟨s, hs, -, -, hw⟩ := setUp_spec m range none (hproper.cut_le m)
  obtain ⟨result, hloop⟩ := scanLoop_ok row _ s.result hw (Nat.lt_succ_of_le hw.length_le)
  exact ⟨result.resetEof, by simp only [scanRows, hs, hrow, hloop, bind, Except.bind]⟩

namespace TreeBuffer

variable {m : SortedMap A (SortedMap R Unit)}

theorem valuesLoop_extends {stop fuel begin num : ℕ} {startId : Option R}
    {result result' : RangeResult A R}
    (h : valuesLoop m range stop fuel begin startId num result = .ok result') :
    result.Extends startId result' := by
  induction fuel generalizing begin num startId result with
  | zero => cases h
  | succ fuel ih =>
    rw [valuesLoop] at h
    split at h
    · obtain rfl := Except.ok.inj h
      exact .refl _ _
    · obtain ⟨i, -, h⟩ := eq_ok_of_bind h
      obtain ⟨e, -, h⟩ := eq_ok_of_bind h
      obtain ⟨idStart, -, h⟩ := eq_ok_of_bind h
      obtain ⟨⟨rowIds, num, limited⟩, -, h⟩ := eq_ok_of_bind h
      obtain ⟨j, -, h⟩ := eq_ok_of_bind h
      refine (ih h).after ⟨?_, fun hnone => ?_, rfl⟩ fun _ => rfl
      · split
        · exact prefix_append ..
        · exact prefix_rfl
      · simp [hnone]

end TreeBuffer

end Loops

/-! ### Empty intervals -/

section Empty

def Empties (x : Except Fault (RangeResult A R)) : Prop :=
  ∃ result, x = .ok result ∧ result.valueRowsList = []

/-- Each value is on the inner side of exactly one of the two bounds. -/
def RangeRequest.Parted (range : RangeRequest A R) (values : Set A) : Prop :=
  ∀ a ∈ values, range.lowest.all (·.lower a) ≠ range.highest.all (·.upper a)

def RangeRequest.startAt (range : RangeRequest A R) (key : A) (inclusive : Bool) :
    RangeRequest A R :=
  { range with first := some ⟨key, inclusive⟩ }

/-- Nothing is read from the value of a start row on: no value lies between this value and the
last bound, or it is this value alone and the row is the last one it has. -/
def RangeRequest.Ended (range : RangeRequest A R) (values : Set A) (key : A) (lastRow : Prop) :
    Prop :=
  (range.startAt key false).Parted values ∧ (range.bInclusive = true → lastRow) ∨
    range.bInclusive = true ∧ (range.startAt key true).Parted values

variable {m : SortedMap A X} {range : RangeRequest A R} {stop : ℕ}

theorem deref_eq_ok_iff {i : ℕ} {key : A} {x : X} :
    deref m i = .ok (key, x) ↔ i = m.rank key ∧ m.get? key = some x := by
  constructor
  · intro h
    have hi : m.entries[i]? = some (key, x) := by
      rw [deref] at h
      split at h
      · rename_i e he
        rw [he, Except.ok.inj h]
      · cases h
    exact ⟨eq_rank_of_getElem? hi, get?_eq_some.mpr (mem_of_getElem? hi)⟩
  · rintro ⟨rfl, h⟩
    rw [deref, getElem?_rank h]

theorem cut_eq_iff (m : SortedMap A X) (range : RangeRequest A R) :
    ((if range.ascending then lowCut m range.first else highCut m range.first) =
      if range.ascending then highCut m range.last else lowCut m range.last) ↔
      range.Parted {a | a ∈ m.keys} := by
  simp only [RangeRequest.Parted, Set.mem_ofPred_eq, SortedMap.keys, forall_mem_map]
  cases hasc : range.ascending with
  | true =>
    simp only [if_true, lowCut_eq_highCut_iff, lowest, highest, hasc]
  | false =>
    simp only [Bool.false_eq_true, if_false, lowest, highest, hasc]
    rw [eq_comm, lowCut_eq_highCut_iff]

variable [LinearOrder R] {row : A × X → R}

variable {result : RangeResult A R}

omit [LinearOrder A] [LinearOrder R] in
theorem empties_resetEof {x : Except Fault (RangeResult A R)} :
    Empties (do let result ← x; .ok result.resetEof) ↔ Empties x := by
  constructor
  · rintro ⟨result', h, hnil⟩
    obtain ⟨result, hx, rfl⟩ := eq_ok_of_map h
    exact ⟨result, hx, by simpa using hnil⟩
  · rintro ⟨result, rfl, hnil⟩
    exact ⟨result.resetEof, rfl, by simpa using hnil⟩

namespace TreeBuffer

variable {m : SortedMap A (SortedMap R Unit)}

omit [LinearOrder A] in
theorem rowsLoop_grows {rows : SortedMap R Unit} {idEnd fuel idStart num num' : ℕ}
    {rowIds ids : List R} {limited limited' : Bool}
    (h : rowsLoop rows range idEnd fuel idStart rowIds num limited = .ok (ids, num', limited')) :
    rowIds <+: ids := by
  induction fuel generalizing idStart rowIds num limited with
  | zero => cases h
  | succ fuel ih =>
    rw [rowsLoop] at h
    split at h
    · obtain ⟨rfl, -⟩ := Prod.mk.inj (Except.ok.inj h)
      exact prefix_rfl
    · obtain ⟨i, -, h⟩ := eq_ok_of_bind h
      obtain ⟨e, -, h⟩ := eq_ok_of_bind h
      obtain ⟨j, -, h⟩ := eq_ok_of_bind h
      exact (prefix_append ..).trans (ih h)

omit [LinearOrder A] in
theorem rowsLoop_eq_nil {rows : SortedMap R Unit} {idEnd fuel idStart num num' : ℕ}
    {limited' : Bool}
    (h : rowsLoop rows range idEnd fuel idStart [] num false = .ok ([], num', limited')) :
    idStart = idEnd ∧ limited' = false := by
  cases fuel with
  | zero => cases h
  | succ fuel =>
    rw [rowsLoop] at h
    split at h
    · rename_i hend
      exact ⟨by simpa using hend, (Prod.mk.inj (Prod.mk.inj (Except.ok.inj h)).2).2.symm⟩
    · obtain ⟨i, -, h⟩ := eq_ok_of_bind h
      obtain ⟨e, -, h⟩ := eq_ok_of_bind h
      obtain ⟨j, -, h⟩ := eq_ok_of_bind h
      have hgrows := rowsLoop_grows h
      simp at hgrows

variable {result : RangeResult A R}

theorem valuesLoop_turn_empties {fuel begin num : ℕ} {startId : Option R}
    (hlimited : result.limited = false) (hne : begin ≠ stop)
    (h : Empties (valuesLoop m range stop (fuel + 1) begin startId num result)) :
    ∃ i e j, moveBefore range.ascending begin = .ok i ∧ deref m i = .ok e ∧
      idStartAt e.2 range startId = .ok (if range.ascending then e.2.size else 0) ∧
      moveAfter m range.ascending i = .ok j ∧
      ∃ num bof, Empties (valuesLoop m range stop fuel j none num
        { result with bof := bof, limited := false }) := by
  obtain ⟨result', h, hnil⟩ := h
  rw [valuesLoop, if_neg (by simp [hne, hlimited])] at h
  obtain ⟨i, hi, h⟩ := eq_ok_of_bind h
  obtain ⟨e, he, h⟩ := eq_ok_of_bind h
  obtain ⟨idStart, hid, h⟩ := eq_ok_of_bind h
  obtain ⟨⟨rowIds, num', limited⟩, hrows, h⟩ := eq_ok_of_bind h
  obtain ⟨j, hj, h⟩ := eq_ok_of_bind h
  have hgrows := (valuesLoop_extends h).rows
  rw [hnil, prefix_nil] at hgrows
  cases rowIds with
  | cons r rowIds => simp at hgrows
  | nil =>
    rw [hlimited] at hrows
    obtain ⟨hend, rfl⟩ := rowsLoop_eq_nil hrows
    exact ⟨i, e, j, hi, he, hend ▸ hid, hj, num', _, result', h, hnil⟩

theorem valuesLoop_none_empties_iff (hnonempty : ∀ a T, m.get? a = some T → T.size ≠ 0)
    {fuel begin num : ℕ} (hlimited : result.limited = false) (hnil : result.valueRowsList = []) :
    Empties (valuesLoop m range stop (fuel + 1) begin none num result) ↔ begin = stop := by
  constructor
  · intro h
    by_contra hne
    obtain ⟨i, e, j, -, he, hid, -⟩ := valuesLoop_turn_empties hlimited hne h
    have hsize := hnonempty e.1 e.2 (deref_eq_ok_iff.mp he).2
    have hends := Except.ok.inj hid
    cases hasc : range.ascending <;> simp only [hasc] at hends <;> simp at hends <;> omega
  · intro h
    exact ⟨result, by rw [valuesLoop, if_pos (Or.inl h)], hnil⟩

theorem valuesRows_empties_iff (hnonempty : ∀ a T, m.get? a = some T → T.size ≠ 0)
    (hrow : range.rowID = none) :
    Empties (valuesRows m range none) ↔ range.Parted {a | a ∈ m.keys} := by
  obtain ⟨s, hs, hnil, hlimited, hbegin, hstop⟩ := setUp_ends m range none
  have hrun : valuesRows m range none = (do
      let result ← valuesLoop m range s.stop (m.size + 1) s.begin none 0 s.result
      .ok result.resetEof) := by
    simp only [valuesRows, hs, hrow, bind, Except.bind]
  rw [hrun, empties_resetEof, valuesLoop_none_empties_iff hnonempty hlimited hnil, hbegin, hstop]
  exact cut_eq_iff m range

end TreeBuffer

end Empty

end Fastore.Buffer
