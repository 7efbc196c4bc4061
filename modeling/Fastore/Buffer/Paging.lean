import Fastore.Buffer.Apply
import Fastore.Buffer.Rows

/-!
Paging.

A client reads a range in pages: each request after the first names the
last row of the page before and keeps the bounds. The buffers with one row
to a value continue behind that row, whatever the bounds are. `TreeBuffer`
looks for the row among the rows of the first value it walks over, and
with an exclusive first bound that is not the value of the row any more:
`setUp` applies the exclusiveness that is meant for the first bound to the
value of the start row. So paging loses nothing unless the first bound is
exclusive and there is more than one page (`pages_lossless_iff`).
-/

namespace Fastore.Buffer

open Lib Fastore.Tree List RangeRequest SortedMap

variable {R A X : Type}

def pages (getRows : RangeRequest A R → Except Fault (RangeResult A R)) (range : RangeRequest A R) :
    ℕ → Option R → Except Fault (List (A × R))
  | 0, _ => .error .stackOverflow
  | fuel + 1, start => do
    let result ← getRows { range with rowID := start }
    let cells := flatten result.valueRowsList
    match result.limited, cells.getLast? with
    | true, some last => do
      let rest ← pages getRows range fuel (some last.2)
      .ok (cells ++ rest)
    | _, _ => .ok cells

/-- The pages together are what a single request without an effective limit
returns. -/
def Lossless (getRows : RangeRequest A R → Except Fault (RangeResult A R))
    (range : RangeRequest A R) : Prop :=
  ∃ fuel cells, pages getRows range fuel none = .ok cells ∧
    ∀ limit : ℤ, (cells.length : ℤ) < limit → ∃ result,
      getRows { range with limit := limit, rowID := none } = .ok result ∧
        flatten result.valueRowsList = cells ∧ result.limited = false

/-! ### Pages that continue where the last one ended -/

/-- The first page starts at the first of the cells, and the next one behind
the row it names. -/
structure Continues (getRows : RangeRequest A R → Except Fault (RangeResult A R))
    (range : RangeRequest A R) (cells : List (A × R)) (n : ℕ) : Prop where
  first : ∃ result, getRows { range with rowID := none } = .ok result ∧ result.Answers cells n
  next : ∀ P a r Q, cells = P ++ (a, r) :: Q →
    ∃ result, getRows { range with rowID := some r } = .ok result ∧ result.Answers Q n

section Pages

variable {getRows : RangeRequest A R → Except Fault (RangeResult A R)} {range : RangeRequest A R}
  {cells : List (A × R)} {n : ℕ}

theorem pages_last (fuel : ℕ) {start : Option R} {result : RangeResult A R}
    (hok : getRows { range with rowID := start } = .ok result) (hans : result.Answers cells n)
    (hlt : cells.length < n) : pages getRows range (fuel + 1) start = .ok cells := by
  have hcells : flatten result.valueRowsList = cells := by
    rw [hans.cells, take_of_length_le hlt.le]
  have hlim : result.limited = false := by
    rw [← Bool.not_eq_true, hans.limited, hcells]
    omega
  simp only [pages, hok, bind, Except.bind, hlim, hcells]

theorem pages_more {start : Option R} {result : RangeResult A R}
    (hok : getRows { range with rowID := start } = .ok result) (hans : result.Answers cells n)
    (hn : 1 ≤ n) (hle : n ≤ cells.length) :
    ∃ page a r, cells = page ++ (a, r) :: cells.drop n ∧ cells.take n = page ++ [(a, r)] ∧
      ∀ fuel, pages getRows range (fuel + 1) start =
        (pages getRows range fuel (some r)).map (cells.take n ++ ·) := by
  have hlen : (cells.take n).length = n := by
    rw [length_take]
    omega
  have hne : cells.take n ≠ [] := by
    intro hnil
    rw [hnil, length_nil] at hlen
    omega
  obtain ⟨page, ⟨a, r⟩, hpage⟩ := (eq_nil_or_concat (cells.take n)).resolve_left hne
  rw [concat_eq_append] at hpage
  refine ⟨page, a, r, ?_, hpage, fun fuel => ?_⟩
  · calc
      cells = cells.take n ++ cells.drop n := (take_append_drop n cells).symm
      _ = page ++ (a, r) :: cells.drop n := by rw [hpage]; simp
  · have hlim : result.limited = true := hans.limited.mpr (by rw [hans.cells, hlen])
    have hlast : (cells.take n).getLast? = some (a, r) := by simp [hpage]
    simp only [pages, hok, bind, Except.bind, hlim, hans.cells, hlast]
    cases pages getRows range fuel (some r) <;> rfl

theorem Continues.pages_from (h : Continues getRows range cells n) (hn : 1 ≤ n) :
    ∀ (fuel : ℕ) (start : Option R) (P Q : List (A × R)), cells = P ++ Q → Q.length < fuel →
      (∃ result, getRows { range with rowID := start } = .ok result ∧ result.Answers Q n) →
      pages getRows range fuel start = .ok Q := by
  intro fuel
  induction fuel with
  | zero => exact fun _ _ _ _ hlen => absurd hlen (Nat.not_lt_zero _)
  | succ fuel ih =>
    rintro start P Q hcells hlen ⟨result, hok, hans⟩
    by_cases hlt : Q.length < n
    · exact pages_last _ hok hans hlt
    · obtain ⟨page, a, r, hQ, htake, hmore⟩ := pages_more hok hans hn (not_lt.mp hlt)
      have hwhole : cells = P ++ page ++ (a, r) :: Q.drop n := by
        rw [append_assoc, ← hQ, hcells]
      have hrest := ih (some r) (P ++ page ++ [(a, r)]) (Q.drop n) (by rw [hwhole]; simp)
        (by rw [length_drop]; omega) (h.next (P ++ page) a r (Q.drop n) hwhole)
      rw [hmore, hrest]
      exact congrArg Except.ok (take_append_drop n Q)

theorem Continues.pages_eq (h : Continues getRows range cells n) (hn : 1 ≤ n) :
    pages getRows range (cells.length + 1) none = .ok cells :=
  h.pages_from hn _ none [] cells rfl (Nat.lt_succ_self _) h.first

theorem lossless_of_pages (fuel : ℕ) (hpages : pages getRows range fuel none = .ok cells)
    (hall : ∀ limit : ℤ, 1 ≤ limit → ∃ result,
      getRows { range with limit := limit, rowID := none } = .ok result ∧
        result.Answers cells limit.toNat) : Lossless getRows range := by
  refine ⟨fuel, cells, hpages, fun limit hlt => ?_⟩
  obtain ⟨result, hok, hans⟩ := hall limit (by omega)
  have hcells : flatten result.valueRowsList = cells := by
    rw [hans.cells, take_of_length_le (by omega)]
  refine ⟨result, hok, hcells, ?_⟩
  rw [← Bool.not_eq_true, hans.limited, hcells]
  omega

theorem lossless_of_continues (cells : List (A × R)) (hlimit : 1 ≤ range.limit)
    (h : ∀ n : ℕ, 1 ≤ n → Continues getRows { range with limit := n } cells n) :
    Lossless getRows range := by
  obtain ⟨n, hn⟩ := Int.eq_ofNat_of_zero_le (show 0 ≤ range.limit by omega)
  have hrange : { range with limit := (n : ℤ) } = range := by rw [← hn]
  have hcontinues := h n (by omega)
  rw [hrange] at hcontinues
  refine lossless_of_pages _ (hcontinues.pages_eq (by omega)) fun limit hlim => ?_
  obtain ⟨m, rfl⟩ := Int.eq_ofNat_of_zero_le (show 0 ≤ limit by omega)
  exact (h m (by omega)).first

end Pages

/-! ### Behind a start row -/

theorem suffix_unique {B : Type} {l P Q Q' : List B} {c : B} (P' : List B) (hnd : l.Nodup)
    (h : l = P ++ c :: Q) (h' : l = P' ++ c :: Q') : Q = Q' := by
  rw [h, nodup_append, nodup_cons] at hnd
  obtain ⟨-, ⟨hQ, -⟩, hP⟩ := hnd
  have hP : c ∉ P := fun hc => hP c hc c (mem_cons_self ..) rfl
  exact ((append_cons_inj_of_notMem hP hQ).mp (h.symm.trans h')).2.2

variable [LinearOrder A]

section Start

variable {m : SortedMap A X} {range : RangeRequest A R} {a : A} {x : X}

namespace RangeRequest

theorem from_admits_self (hadm : range.admits a) :
    (range.from (some a)).admits a = range.bInclusive := by
  rw [admits, Bool.and_eq_true_iff] at hadm
  cases hasc : range.ascending <;> cases hinc : range.bInclusive <;>
    simp_all [admits, lowest, highest, RangeRequest.from,
      RangeBound.lower, RangeBound.upper]

theorem from_admits_above (hadm : range.admits a) {c : A} (hc : a < c) :
    (range.from (some a)).admits c = (range.ascending && range.admits c) := by
  rw [admits, Bool.and_eq_true_iff] at hadm
  have hlow := lower_mono range.lowest hc hadm.1
  cases hasc : range.ascending
  · cases hinc : range.bInclusive <;>
      simp [admits, lowest, highest, RangeRequest.from, hasc,
        hinc, RangeBound.upper, hc, hc.le]
  · cases hinc : range.bInclusive <;>
      simp_all [admits, lowest, highest, RangeRequest.from,
        RangeBound.lower, hc.le]

theorem from_admits_below (hadm : range.admits a) {c : A} (hc : c < a) :
    (range.from (some a)).admits c = (!range.ascending && range.admits c) := by
  rw [admits, Bool.and_eq_true_iff] at hadm
  have hhigh := upper_mono range.highest hc hadm.2
  cases hasc : range.ascending
  · cases hinc : range.bInclusive <;>
      simp_all [admits, lowest, highest, RangeRequest.from,
        RangeBound.upper, hc.le]
  · cases hinc : range.bInclusive <;>
      simp [admits, lowest, highest, RangeRequest.from, hasc,
        hinc, RangeBound.lower, hc, hc.le]

/-- The entries from a key on. -/
theorem direct_from (ha : m.get? a = some x) (hadm : range.admits a) :
    ∃ P Q, range.direct (m.entries.filter fun e => range.admits e.1) = P ++ (a, x) :: Q ∧
      range.direct (m.entries.filter fun e => (range.from (some a)).admits e.1) =
        (if range.bInclusive then [(a, x)] else []) ++ Q ∧ ∀ e ∈ Q, e.1 ≠ a := by
  have hbelow : ∀ e ∈ m.below a, e.1 < a := fun e he => by simpa using (mem_filter.mp he).2
  have habove : ∀ e ∈ m.above a, a < e.1 := fun e he => by simpa using (mem_filter.mp he).2
  have hlo : (m.below a).filter (fun e => (range.from (some a)).admits e.1) =
      (m.below a).filter (fun e => !range.ascending && range.admits e.1) :=
    filter_congr fun e he => range.from_admits_below hadm (hbelow e he)
  have hhi : (m.above a).filter (fun e => (range.from (some a)).admits e.1) =
      (m.above a).filter (fun e => range.ascending && range.admits e.1) :=
    filter_congr fun e he => range.from_admits_above hadm (habove e he)
  rw [entries_of_get? ha, filter_append, filter_append, filter_cons_of_pos
    (by simpa using hadm), filter_cons, range.from_admits_self hadm, hlo, hhi]
  cases hasc : range.ascending
  · refine ⟨((m.above a).filter fun e => range.admits e.1).reverse,
      ((m.below a).filter fun e => range.admits e.1).reverse, ?_, ?_, fun e he => ?_⟩
    · simp [direct, hasc]
    · simp only [direct, hasc]
      cases range.bInclusive <;> simp
    · exact (hbelow e (mem_filter.mp (mem_reverse.mp he)).1).ne
  · refine ⟨(m.below a).filter fun e => range.admits e.1,
      (m.above a).filter fun e => range.admits e.1, ?_, ?_, fun e he => ?_⟩
    · simp [direct, hasc]
    · simp only [direct, hasc]
      cases range.bInclusive <;> simp
    · exact (habove e (mem_filter.mp he).1).ne'

theorem cut_from_le (m : SortedMap A X) (hadm : range.admits a) :
    lowCut m (range.from (some a)).lowest ≤ highCut m (range.from (some a)).highest := by
  rw [admits, Bool.and_eq_true_iff] at hadm
  rw [lowCut_eq, highCut_eq]
  refine countP_mono_left fun e _ hlow => ?_
  rw [Bool.not_eq_true'] at hlow
  cases hasc : range.ascending
  · simp only [lowest, highest, hasc, RangeRequest.from,
      Bool.false_eq_true, if_false] at hadm hlow ⊢
    have hlt : e.1 < a := by
      rcases lt_trichotomy e.1 a with h | h | h
      · exact h
      · rw [h, hadm.1] at hlow
        exact absurd hlow (by simp)
      · rw [lower_mono range.last h hadm.1] at hlow
        exact absurd hlow (by simp)
    cases range.bInclusive <;> simp [RangeBound.upper, hlt, hlt.le]
  · simp only [lowest, highest, hasc, RangeRequest.from, if_true,
      Option.all_some] at hadm hlow ⊢
    have hle : e.1 ≤ a := by
      cases hinc : range.bInclusive <;> simp [RangeBound.lower, hinc] at hlow
      · exact hlow
      · exact hlow.le
    rcases hle.lt_or_eq with h | h
    · exact upper_mono range.last h hadm.2
    · rw [h]
      exact hadm.2

end RangeRequest

end Start

/-! ### Single rows -/

section Single

variable [LinearOrder R] {m : SortedMap A X} {row : A × X → R} {range : RangeRequest A R} {n : ℕ}

theorem scanLoop_start (row : A × X → R) (range : RangeRequest A R) (fuel : ℕ) {e : A × X}
    {rest : List (A × X)} {begin stop : ℕ} {result : RangeResult A R}
    (hw : Walks m range.ascending begin stop (e :: rest))
    (hlim : result.limited = false) :
    ∃ j, Walks m range.ascending j stop rest ∧
      scanLoop m row range stop (fuel + 1) begin (some (row e)) result =
        scanLoop m row range stop fuel j none { result with bof := false } := by
  obtain ⟨hne, i, j, hbefore, hderef, hafter, hw'⟩ := hw.step
  have hgo : ¬ (begin = stop ∨ result.limited = true) := by simp [hne, hlim]
  refine ⟨j, hw', ?_⟩
  rw [scanLoop, if_neg hgo]
  simp only [hbefore, hderef, bind, Except.bind, hafter, if_true]

omit [LinearOrder R] in
theorem RangeRequest.select_map (range : RangeRequest A R) (m : SortedMap A X)
    (row : A × X → R) : range.select (m.entries.map fun e => (e.1, row e)) =
      (range.direct (m.entries.filter fun e => range.admits e.1)).map fun e => (e.1, row e) := by
  rw [select, filter_map, range.direct_map]
  rfl

/-- A walk that names a row answers with the cells behind it. -/
theorem scanRows_next (hlimit : range.limit = n) (hn : 1 ≤ n)
    (hinj : ∀ e ∈ m.entries, ∀ e' ∈ m.entries, row e = row e' → e = e') {P Q : List (A × R)} {a : A}
    {r : R} (hcells : range.select (m.entries.map fun e => (e.1, row e)) = P ++ (a, r) :: Q) :
    ∃ result, scanRows m row { range with rowID := some r } (some a) = .ok result ∧
      result.Answers Q n := by
  rw [range.select_map] at hcells
  obtain ⟨x, hx, hadm, hr⟩ : ∃ x, m.get? a = some x ∧ range.admits a ∧ row (a, x) = r := by
    have hmem : (a, r) ∈ P ++ (a, r) :: Q := by simp
    rw [← hcells, mem_map] at hmem
    obtain ⟨⟨a', x⟩, he, heq⟩ := hmem
    obtain ⟨rfl, rfl⟩ := Prod.mk.inj heq
    obtain ⟨he, hadm⟩ := mem_filter.mp (range.mem_direct.mp he)
    exact ⟨x, get?_eq_some.mpr he, hadm, rfl⟩
  obtain ⟨P', Q', hall, hfrom, hne⟩ := range.direct_from hx hadm
  have hkeys := range.nodup_keys m fun e => range.admits e.1
  have hQ : Q = Q'.map fun e => (e.1, row e) := by
    refine suffix_unique (P'.map fun e => (e.1, row e)) ?_ hcells ?_
    · refine List.Nodup.of_map Prod.fst ?_
      rwa [map_map]
    · rw [hall, map_append, map_cons, hr]
  obtain ⟨s, hs, hnil, hlim, hw⟩ := setUp_spec m { range with rowID := some r } (some a)
    (range.cut_from_le m hadm)
  have hw : Walks m range.ascending s.begin s.stop
      ((if range.bInclusive then [(a, x)] else []) ++ Q') := hfrom ▸ hw
  have hnd : (Q'.map Prod.fst).Nodup := by
    rw [hall, map_append, nodup_append] at hkeys
    exact (nodup_cons.mp hkeys.2.1).2
  have hlen := hw.length_le
  -- the loop from the first entry behind the start row on
  obtain ⟨result, hloop, hext⟩ : ∃ result,
      scanLoop m row { range with rowID := some r } s.stop (m.size + 1) s.begin (some r) s.result =
        .ok result ∧
      ∃ first : RangeResult A R, first.valueRowsList = [] ∧
        Extends first result (Q'.map fun e => (e.1, row e)) (Q'.map Prod.fst) 0 n := by
    cases hinc : range.bInclusive
    · rw [hinc] at hw hlen
      have hno : ∀ e ∈ Q', some r ≠ some (row e) := by
        intro e he heq
        have hmem : e ∈ m.entries := by
          have : e ∈ range.direct (m.entries.filter fun e => range.admits e.1) := by simp [hall, he]
          exact (mem_filter.mp (range.mem_direct.mp this)).1
        have := hinj e hmem (a, x) (get?_eq_some.mp hx)
          (by rw [hr]; exact (Option.some.inj heq).symm)
        exact hne e he (congrArg Prod.fst this)
      obtain ⟨result, hloop, hext⟩ := scanLoop_spec row
        { range with rowID := some r } hlimit Q' (m.size + 1) s.begin (some r) s.result
        hw (Nat.lt_succ_of_le hlen) hno hlim (by simp [hnil]; omega)
      rw [hnil] at hext
      exact ⟨result, hloop, s.result, hnil, hext⟩
    · rw [hinc] at hw hlen
      obtain ⟨j, hw', hstart⟩ := scanLoop_start row
        { range with rowID := some r } m.size hw hlim
      rw [hr] at hstart
      obtain ⟨result, hloop, hext⟩ := scanLoop_spec row
        { range with rowID := some r } hlimit Q' m.size j none
        { s.result with bof := false } hw' hlen (by simp) hlim (by simp [hnil]; omega)
      refine ⟨result, by rw [hstart, hloop], { s.result with bof := false }, hnil, ?_⟩
      simpa only [hnil, length_nil] using hext
  obtain ⟨first, hfirst, hext⟩ := hext
  refine ⟨result.resetEof, ?_, ?_⟩
  · simp only [scanRows, hs, hloop, bind, Except.bind]
  · rw [hQ]
    exact hext.answers hfirst hnd

theorem continues_of_scanRows (m : SortedMap A X) (row : A × X → R)
    {getRows : RangeRequest A R → Except Fault (RangeResult A R)} (hproper : range.Proper)
    (hlimit : range.limit = n) (hn : 1 ≤ n)
    (hinj : ∀ e ∈ m.entries, ∀ e' ∈ m.entries, row e = row e' → e = e')
    (hfirst : getRows { range with rowID := none } =
      scanRows m row { range with rowID := none } none)
    (hnext : ∀ e ∈ m.entries, getRows { range with rowID := some (row e) } =
      scanRows m row { range with rowID := some (row e) } (some e.1)) :
    Continues getRows range (range.select (m.entries.map fun e => (e.1, row e))) n := by
  refine ⟨?_, fun P a r Q hcells => ?_⟩
  · obtain ⟨result, hok, hans⟩ := scanRows_answers m row { range with rowID := none } rfl hproper
      (show 1 ≤ range.limit by omega)
    rw [show limit { range with rowID := none } = n from hlimit] at hans
    exact ⟨result, hfirst.trans hok, hans⟩
  · obtain ⟨result, hok, hans⟩ := scanRows_next hlimit hn hinj hcells
    have hmem : (a, r) ∈ P ++ (a, r) :: Q := by simp
    rw [← hcells, range.select_map, mem_map] at hmem
    obtain ⟨e, he, heq⟩ := hmem
    obtain ⟨rfl, rfl⟩ := Prod.mk.inj heq
    exact ⟨result, by rw [hnext e (mem_filter.mp (range.mem_direct.mp he)).1, hok], hans⟩

end Single

variable [LinearOrder R] {range : RangeRequest A R} {n : ℕ}

theorem IdentityBuffer.continues (b : IdentityBuffer R) (range : RangeRequest R R)
    (hproper : range.Proper) (hlimit : range.limit = n) (hn : 1 ≤ n) :
    Continues b.getRows range (range.select b.pairs) n := by
  have h : Continues b.getRows range (range.select (b.rows.entries.map fun e => (e.1, e.1))) n :=
    continues_of_scanRows b.rows Prod.fst hproper hlimit hn (fun _ _ _ _ h => Prod.ext h rfl) rfl
      fun _ _ => rfl
  rwa [IdentityBuffer.pairs, SortedMap.keys, map_map]

theorem UniqueIndex.Holds.continues {P : Type} {payload : A → P} {b : UniqueIndex P R A}
    {M : R → Option A} (h : b.Holds payload M) {getValue : R → Except Fault (Option A)}
    (hget : ∀ r, getValue r = .ok (M r)) (range : RangeRequest A R) (hproper : range.Proper)
    (hlimit : range.limit = n) (hn : 1 ≤ n) :
    Continues (fun range => do
      let startKey ← startKeyOf (b.values.size = 0) getValue range
      scanRows b.values Prod.snd range startKey) range (range.select b.pairs) n := by
  have hrow : ∀ e ∈ b.values.entries, M e.2 = some e.1 := fun e he =>
    (h.values e.1 e.2).mp (get?_eq_some.mpr he)
  have hpairs : b.pairs = b.values.entries.map fun e => (e.1, e.2) := by simp [UniqueIndex.pairs]
  rw [hpairs]
  refine continues_of_scanRows b.values Prod.snd hproper hlimit hn
    (fun e he e' he' heq => ?_) rfl (fun e he => ?_)
  · refine Prod.ext (Option.some.inj ?_) heq
    rw [← hrow e he, heq, hrow e' he']
  · have hid : ({ range with rowID := some e.2 } : RangeRequest A R).rowID = some e.2 := rfl
    simp only [startKeyOf_some hid ((hget e.2).trans (congrArg _ (hrow e he))), bind, Except.bind]

/-! ### Rows of values -/

section Trees

variable {b : TreeBuffer R A} {M : R → Option A} {n : ℕ} {P Q : List (A × R)} {a : A} {r : R}

namespace TreeBuffer

theorem nodup_pairs (b : TreeBuffer R A) : b.pairs.Nodup := by
  rw [pairs, nodup_flatMap]
  refine ⟨fun e _ => ?_, ?_⟩
  · exact e.2.keys_nodup.map fun _ _ h => (Prod.mk.inj h).2
  · refine b.values.sorted.imp fun {e e'} hlt => ?_
    refine disjoint_left.mpr fun c hc hc' => ?_
    obtain ⟨_, _, rfl⟩ := mem_map.mp hc
    obtain ⟨_, _, heq⟩ := mem_map.mp hc'
    exact hlt.ne (Prod.mk.inj heq).1.symm

theorem Holds.mem_pairs (h : b.Holds M) {a : A} {r : R} :
    (a, r) ∈ b.pairs ↔ M r = some a := by
  rw [← h.values, pairs, mem_flatMap]
  constructor
  · rintro ⟨⟨a', T⟩, he, hc⟩
    obtain ⟨r', hr', heq⟩ := mem_map.mp hc
    obtain ⟨rfl, rfl⟩ := Prod.mk.inj heq
    obtain ⟨⟨⟩, hr'⟩ := SortedMap.mem_keys.mp hr'
    exact ⟨T, get?_eq_some.mpr he, hr'⟩
  · rintro ⟨T, hT, hr⟩
    exact ⟨(a, T), get?_eq_some.mp hT, mem_map.mpr
      ⟨r, SortedMap.mem_keys.mpr ⟨(), hr⟩, rfl⟩⟩

theorem Holds.length_pairs (h : b.Holds M) : (b.pairs.length : ℤ) = b.total := by
  have hnodup : (b.pairs.map Prod.snd).Nodup := by
    refine b.nodup_pairs.map_on ?_
    rintro ⟨a, r⟩ ha ⟨a', r'⟩ ha' rfl
    rw [h.mem_pairs] at ha ha'
    rw [Option.some.inj (ha.symm.trans ha')]
  have hperm : (b.pairs.map Prod.snd).Perm b.rows.keys := by
    refine (perm_ext_iff_of_nodup hnodup b.rows.keys_nodup).mpr fun r => ?_
    rw [SortedMap.mem_keys, h.rows, mem_map]
    constructor
    · rintro ⟨⟨a, r'⟩, ha, rfl⟩
      exact ⟨(), by simp [h.mem_pairs.mp ha]⟩
    · rintro ⟨u, hu⟩
      obtain ⟨a, ha, -⟩ := Option.map_eq_some_iff.mp hu
      exact ⟨(a, r), h.mem_pairs.mpr ha, rfl⟩
  rw [h.total, ← length_map Prod.snd, hperm.length_eq, SortedMap.keys, length_map]
  rfl

omit [LinearOrder A] in
theorem idStartAt_some (range : RangeRequest A R) {T : SortedMap R Unit} (hr : T.get? r = some ()) :
    ∃ idStart pre ids, idStartAt T range (some r) = .ok idStart ∧
      Walks T range.ascending idStart (if range.ascending then T.size else 0) ids ∧
      range.direct T.entries = pre ++ (r, ()) :: ids := by
  have hE := entries_of_get? hr
  have hlt := rank_lt hr
  have hstart : idStartAt T range (some r) = moveIf T range.ascending (T.rank r) := by
    simp [idStartAt, find, hr, hlt.ne]
  rw [hstart]
  cases hasc : range.ascending
  · refine ⟨T.rank r, (T.above r).reverse, (T.below r).reverse, rfl,
      ⟨Nat.zero_le _, hlt.le, ?_⟩, ?_⟩
    · rw [hE, rank, take_left]
      simp
    · simp [direct, hasc, hE]
  · refine ⟨T.rank r + 1, T.below r, T.above r, ?_, ⟨hlt, le_refl _, ?_⟩, ?_⟩
    · rw [moveIf, if_pos rfl, moveNext, if_pos hlt]
    · rw [if_pos rfl, size, take_length, hE, rank, append_cons,
        drop_left' (by simp)]
    · simp [direct, hasc, hE]

theorem Holds.setUp_next (h : b.Holds M) (hcells : range.select b.pairs = P ++ (a, r) :: Q) :
    ∃ T P' Q' s, b.values.get? a = some T ∧ T.get? r = some () ∧ M r = some a ∧
      range.direct (b.values.entries.filter fun e => range.admits e.1) = P' ++ (a, T) :: Q' ∧
      (∀ e ∈ Q', e.1 ≠ a) ∧
      startKeyOf (b.values.size = 0) b.getValue { range with rowID := some r } = .ok (some a) ∧
      setUp b.values { range with rowID := some r } (some a) = .ok s ∧
      s.result.valueRowsList = [] ∧ s.result.limited = false ∧
      Walks b.values range.ascending s.begin s.stop
        ((if range.bInclusive then [(a, T)] else []) ++ Q') := by
  have hmem : (a, r) ∈ range.select b.pairs := by simp [hcells]
  rw [select, range.mem_direct, mem_filter, pairs,
    mem_flatMap] at hmem
  obtain ⟨⟨⟨a', T⟩, he, hc⟩, hadm⟩ := hmem
  obtain ⟨r', hr', heq⟩ := mem_map.mp hc
  obtain ⟨rfl, rfl⟩ := Prod.mk.inj heq
  have hT : b.values.get? a' = some T := get?_eq_some.mpr he
  obtain ⟨⟨⟩, hr⟩ := SortedMap.mem_keys.mp hr'
  have hM : M r' = some a' := (h.get?_tree hT r').mp hr
  obtain ⟨P', Q', hall, hfrom, hne⟩ := range.direct_from hT hadm
  obtain ⟨s, hs, hnil, hlim, hw⟩ := setUp_spec b.values { range with rowID := some r' } (some a')
    (range.cut_from_le b.values hadm)
  refine ⟨T, P', Q', s, hT, hr, hM, hall, hne, ?_, hs, hnil, hlim, hfrom ▸ hw⟩
  exact startKeyOf_some rfl ((getValue_eq h r').trans (congrArg _ hM))

theorem cells_behind {T : SortedMap R Unit} {P' Q' : List (A × SortedMap R Unit)}
    {pre ids : List (R × Unit)} (hcells : range.select b.pairs = P ++ (a, r) :: Q)
    (hall : range.direct (b.values.entries.filter fun e => range.admits e.1) =
      P' ++ (a, T) :: Q')
    (hids : range.direct T.entries = pre ++ (r, ()) :: ids) :
    Q = (ids.map fun id => (a, id.1)) ++ Q'.flatMap range.cellsOf := by
  have hnd : (range.select b.pairs).Nodup :=
    range.nodup_direct.mpr (b.nodup_pairs.filter _)
  have hof : range.cellsOf (a, T) =
      (pre.map fun id => (a, id.1)) ++ (a, r) :: ids.map fun id => (a, id.1) := by
    rw [cellsOf, SortedMap.keys, ← range.direct_map, hids]
    simp [Function.comp_def]
  refine suffix_unique (P'.flatMap range.cellsOf ++ pre.map fun id => (a, id.1)) hnd hcells ?_
  rw [b.select_pairs, hall, flatMap_append, flatMap_cons, hof]
  simp

theorem Holds.getRows_next (h : b.Holds M) (hlimit : range.limit = n) (hn : 1 ≤ n)
    (hinc : range.bInclusive = true) (hcells : range.select b.pairs = P ++ (a, r) :: Q) :
    ∃ result, b.getRows { range with rowID := some r } = .ok result ∧ result.Answers Q n := by
  obtain ⟨T, P', Q', s, hT, hr, -, hall, -, hkey, hs, hnil, hlim, hw⟩ := h.setUp_next hcells
  obtain ⟨idStart, pre, ids, hstart, hids, hdir⟩ := idStartAt_some range hr
  rw [hinc] at hw
  have hlen := hw.length_le
  obtain ⟨result, hloop, hext⟩ := valuesLoop_cons
    { range with rowID := some r } b.values.size (some r) s.result hlimit hw
    (Nat.lt_succ_of_le hlen) hstart hids
    (show 0 < n by omega) hlim
    (valuesLoop_spec { range with rowID := some r } hlimit Q')
  refine ⟨result.resetEof, ?_, ?_⟩
  · simp only [getRows, valuesRows, hkey, bind, Except.bind, hs, hloop]
  · rw [cells_behind hcells hall hdir]
    refine hext.answers hnil ?_
    have hkeys := range.nodup_keys b.values fun e => range.admits e.1
    rw [hall, map_append, nodup_append] at hkeys
    exact hkeys.2.1

theorem Holds.continues (h : b.Holds M) (range : RangeRequest A R) (hproper : range.Proper)
    (hlimit : range.limit = n) (hn : 1 ≤ n) (hinc : range.bInclusive = true) :
    Continues b.getRows range (range.select b.pairs) n := by
  refine ⟨?_, fun P a r Q hcells => h.getRows_next hlimit hn hinc hcells⟩
  obtain ⟨result, hok, hans⟩ := b.getRows_spec { range with rowID := none } rfl hproper
    (show 1 ≤ range.limit by omega)
  rw [show limit { range with rowID := none } = n from hlimit] at hans
  exact ⟨result, hok, hans⟩

/-- Without its first key, a range cannot be read on from a row. -/
theorem Holds.getRows_next_exclusive (h : b.Holds M) (hinc : range.bInclusive = false)
    (hcells : range.select b.pairs = P ++ (a, r) :: Q) :
    (∃ result, b.getRows { range with rowID := some r } = .ok result ∧
      result.valueRowsList = [] ∧ result.limited = false) ∨
    Q ≠ [] ∧ b.getRows { range with rowID := some r } =
      .error (.thrown "Start id not found in given value") := by
  obtain ⟨T, P', Q', s, hT, hr, hM, hall, hne, hkey, hs, hnil, hlim, hw⟩ := h.setUp_next hcells
  rw [hinc] at hw
  cases hQ' : Q' with
  | nil =>
    rw [hQ'] at hw
    refine Or.inl ⟨s.result.resetEof, ?_, by simpa using hnil, by simpa using hlim⟩
    simp only [getRows, valuesRows, hkey, bind, Except.bind, hs]
    rw [valuesLoop, if_pos (Or.inl hw.eq_of_nil)]
  | cons e rest =>
    have hmem : e ∈ b.values.entries := by
      have : e ∈ range.direct (b.values.entries.filter fun e => range.admits e.1) := by
        simp [hall, hQ']
      exact (mem_filter.mp (range.mem_direct.mp this)).1
    have hget : b.values.get? e.1 = some e.2 := get?_eq_some.mpr hmem
    refine Or.inr ⟨?_, ?_⟩
    · -- the values behind have rows
      obtain ⟨idStart, pre, ids, -, -, hdir⟩ := idStartAt_some range hr
      rw [cells_behind hcells hall hdir, hQ', flatMap_cons]
      have hrows : e.2.keys ≠ [] := by
        intro hkeys
        refine h.nonempty e.1 e.2 hget ?_
        rw [SortedMap.keys, map_eq_nil_iff] at hkeys
        rw [size, hkeys, length_nil]
      have hcellsOf : range.cellsOf e ≠ [] := by
        rw [cellsOf, ne_eq, map_eq_nil_iff, direct]
        split
        · exact hrows
        · simpa using hrows
      simp [hcellsOf]
    · have hno : e.2.get? r = none := by
        by_contra hsome
        obtain ⟨⟨⟩, hx⟩ := Option.ne_none_iff_exists'.mp hsome
        have := (h.get?_tree hget r).mp hx
        exact hne e (by simp [hQ']) (Option.some.inj (this.symm.trans hM))
      rw [hQ'] at hw
      obtain ⟨hbegin, i, j, hbefore, hderef, -, -⟩ := Walks.step hw
      have hgo : ¬ (s.begin = s.stop ∨ s.result.limited = true) := by simp [hbegin, hlim]
      simp only [getRows, valuesRows, hkey, bind, Except.bind, hs]
      rw [valuesLoop, if_neg hgo]
      simp [hbefore, hderef, bind, Except.bind, idStartAt, find, hno]

/-- Pages miss nothing if the first key is inside, or if there is one page. -/
theorem Holds.lossless_iff (h : b.Holds M) (hproper : range.Proper)
    (hlimit : 1 ≤ range.limit) : Lossless b.getRows range ↔
      (range.bInclusive = true ∨ ((range.select b.pairs).length : ℤ) ≤ range.limit) := by
  obtain ⟨n, hn⟩ := Int.eq_ofNat_of_zero_le (show 0 ≤ range.limit by omega)
  have hall : ∀ limit : ℤ, 1 ≤ limit → ∃ result,
      b.getRows { range with limit := limit, rowID := none } = .ok result ∧
        result.Answers (range.select b.pairs) limit.toNat := fun limit hlim =>
    b.getRows_spec { range with limit := limit, rowID := none } rfl hproper hlim
  obtain ⟨result, hok, hans⟩ := hall range.limit hlimit
  rw [hn, Int.toNat_natCast] at hans
  rw [hn]
  cases hinc : range.bInclusive with
  | true =>
    refine ⟨fun _ => Or.inl rfl, fun _ => ?_⟩
    exact lossless_of_continues (range.select b.pairs) hlimit fun n hn =>
      h.continues { range with limit := (n : ℤ) } hproper rfl hn hinc
  | false =>
    have hempty : ∀ {result : RangeResult A R} {r : R} (fuel : ℕ),
        b.getRows { range with rowID := some r } = .ok result → result.valueRowsList = [] →
        pages b.getRows range (fuel + 1) (some r) = .ok [] := by
      intro result r fuel hok hnil
      simp [pages, hok, bind, Except.bind, hnil, flatten]
    simp only [Bool.false_eq_true, false_or]
    constructor
    · rintro ⟨fuel, cells, hpages, hsingle⟩
      by_contra hgt
      obtain ⟨page, a, r, hcells, -, hmore⟩ := pages_more hok hans (by omega) (by omega)
      obtain ⟨fuel, rfl⟩ : ∃ f, fuel = f + 2 := by
        rcases fuel with _ | _ | f
        · exact absurd hpages (by simp [pages])
        · exact absurd hpages (by rw [hmore 0]; simp [pages, Except.map])
        · exact ⟨f, rfl⟩
      rw [hmore] at hpages
      rcases h.getRows_next_exclusive hinc hcells with ⟨next, hnext, hnil, -⟩ | ⟨-, hfail⟩
      · -- the rows behind the start row are missing
        rw [hempty fuel hnext hnil] at hpages
        have hcells' : (range.select b.pairs).take n = cells := by
          simpa [Except.map] using hpages
        have hlen : cells.length = n := by
          rw [← hcells', length_take]
          omega
        obtain ⟨one, hone, hflat, -⟩ := hsingle (range.select b.pairs).length (by omega)
        obtain ⟨two, htwo, hans'⟩ := hall (range.select b.pairs).length (by omega)
        obtain rfl := Except.ok.inj (hone.symm.trans htwo)
        have := congrArg List.length (hflat.symm.trans hans'.cells)
        rw [length_take, Int.toNat_natCast] at this
        omega
      · simp [pages, hfail, bind, Except.bind, Except.map] at hpages
    · intro hle
      by_cases hlt : (range.select b.pairs).length < n
      · exact lossless_of_pages _ (pages_last 0 hok hans hlt) hall
      · obtain ⟨page, a, r, hcells, -, hmore⟩ := pages_more hok hans (by omega) (by omega)
        have hdrop : (range.select b.pairs).drop n = [] := drop_of_length_le (by omega)
        rw [hdrop] at hcells
        rcases h.getRows_next_exclusive hinc hcells with ⟨next, hnext, hnil, -⟩ | ⟨hne, -⟩
        · refine lossless_of_pages 2 ?_ hall
          rw [hmore, hempty 0 hnext hnil]
          simp only [Except.map, append_nil]
          rw [take_of_length_le (by omega)]
        · exact absurd rfl hne

end TreeBuffer

end Trees

/-- **Paging**: the pages of a proper interval are together the answer to a
single request, in every buffer but the tree buffer. There it is so exactly
if the first bound is not exclusive or everything fits into one page. -/
theorem pages_lossless_iff :
    (∀ (ws : List (ColumnWrites R R)) (b : IdentityBuffer R) (range : RangeRequest R R),
      ws.foldlM IdentityBuffer.apply IdentityBuffer.new = .ok b → range.Proper →
      1 ≤ range.limit → Lossless b.getRows range) ∧
    (∀ (ws : List (ColumnWrites R A)) (b : UniqueInlineBuffer R A) (range : RangeRequest A R),
      ws.foldlM UniqueInlineBuffer.apply UniqueIndex.new = .ok b → range.Proper →
      1 ≤ range.limit → Lossless (UniqueInlineBuffer.getRows b) range) ∧
    (∀ (ws : List (ColumnWrites R A)) (b : UniqueBuffer R A) (range : RangeRequest A R),
      ws.foldlM UniqueBuffer.apply UniqueIndex.new = .ok b → range.Proper →
      1 ≤ range.limit → Lossless (UniqueBuffer.getRows b) range) ∧
    (∀ (ws : List (ColumnWrites R A)) (b : TreeBuffer R A) (range : RangeRequest A R),
      ws.foldlM TreeBuffer.apply TreeBuffer.new = .ok b → range.Proper → 1 ≤ range.limit →
      (Lossless b.getRows range ↔
        (range.bInclusive = true ∨ ((range.select b.pairs).length : ℤ) ≤ range.limit))) := by
  refine ⟨fun ws b range _ hproper hlimit => ?_, fun ws b range hb hproper hlimit => ?_,
    fun ws b range hb hproper hlimit => ?_, fun ws b range hb hproper hlimit => ?_⟩
  · exact lossless_of_continues (range.select b.pairs) hlimit fun n hn =>
      b.continues { range with limit := (n : ℤ) } hproper rfl hn
  · obtain ⟨b', hb', h⟩ := UniqueInlineBuffer.foldlM_apply ws
    obtain rfl := Except.ok.inj (hb.symm.trans hb')
    exact lossless_of_continues (range.select b.pairs) hlimit fun n hn => h.continues
      (fun r => UniqueInlineBuffer.getValue_eq h r) { range with limit := (n : ℤ) } hproper rfl hn
  · obtain ⟨b', hb', h⟩ := UniqueBuffer.foldlM_apply ws
    obtain rfl := Except.ok.inj (hb.symm.trans hb')
    exact lossless_of_continues (range.select b.pairs) hlimit fun n hn => h.continues
      (fun r => UniqueBuffer.getValue_eq h r) { range with limit := (n : ℤ) } hproper rfl hn
  · obtain ⟨b', hb', h⟩ := TreeBuffer.foldlM_apply ws
    obtain rfl := Except.ok.inj (hb.symm.trans hb')
    exact h.lossless_iff hproper hlimit

/-- The cells of `twoValues`, one to a page and with no bounds. -/
theorem pages_lossless_twoValues : Lossless twoValues.getRows { limit := 1 } :=
  ((pages_lossless_iff (R := ℕ) (A := ℕ)).2.2.2
    [{ includes := [⟨10, 1⟩, ⟨11, 1⟩, ⟨12, 2⟩] }] twoValues { limit := 1 } (by decide)
    (by simp [RangeRequest.Proper, lowest]) (by decide)).mpr (Or.inl rfl)

/-- The same with an exclusive bound below all values: the second page fails. -/
theorem pages_exclusive_fails :
    [{ includes := [⟨10, 1⟩, ⟨11, 1⟩, ⟨12, 2⟩] }].foldlM TreeBuffer.apply TreeBuffer.new =
      .ok twoValues ∧
    twoValues.getRows { limit := 1, first := some ⟨0, false⟩ } =
      .ok { valueRowsList := [⟨1, [10]⟩], eof := false, bof := true, limited := true } ∧
    twoValues.getRows { limit := 1, first := some ⟨0, false⟩, rowID := some 10 } =
      .error (.thrown "Start id not found in given value") ∧
    ¬ Lossless twoValues.getRows { limit := 1, first := some ⟨0, false⟩ } := by
  refine ⟨by decide, by decide, by decide, ?_⟩
  obtain ⟨b', hb', h⟩ := TreeBuffer.foldlM_apply (R := ℕ) (A := ℕ)
    [{ includes := [⟨10, 1⟩, ⟨11, 1⟩, ⟨12, 2⟩] }]
  obtain rfl := Except.ok.inj (hb'.symm.trans (show _ = Except.ok twoValues by decide))
  rw [h.lossless_iff (by simp [RangeRequest.Proper, highest]) (by decide)]
  decide

end Fastore.Buffer
