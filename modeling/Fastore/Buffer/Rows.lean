import Fastore.Buffer.Columns

/-!
What `GetRows` returns.

The loops of the buffers gather the cells of the entries they walk over
into groups, one for each value, until the limit is reached. `Gathers` is
what both kinds of loop have in common: the groups hold the first cells in
walking order, none is empty, and their values come in walking order. The
answer of every buffer to a request without a start row follows
(`getRows_answers`).
-/

namespace Fastore.Buffer

open Lib Fastore.Tree List TreeBuffer

variable {R A X : Type}

def flatten (vrl : List (ValueRows A R)) : List (A × R) :=
  vrl.flatMap fun g => g.rowIDs.map fun r => (g.value, r)

/-- The groups `gs` hold the first `k` of the cells, which belong to the
values given. -/
structure Gathers (cells : List (A × R)) (values : List A) (k : ℕ) (gs : List (ValueRows A R)) :
    Prop where
  cells : flatten gs = cells.take k
  nonempty : ∀ g ∈ gs, g.rowIDs ≠ []
  values : (gs.map (·.value)).Sublist values

/-- `result` answers a request for the first `n` of the cells `wanted`. -/
structure RangeResult.Answers (result : RangeResult A R) (wanted : List (A × R)) (n : ℕ) :
    Prop where
  /-- It has the first `n` of the cells, in their order. -/
  cells : flatten result.valueRowsList = wanted.take n
  /-- No group is empty. -/
  nonempty : ∀ g ∈ result.valueRowsList, g.rowIDs ≠ []
  /-- There is one group for each value. -/
  grouped : (result.valueRowsList.map (·.value)).Nodup
  /-- The result is limited exactly if it has `n` cells. -/
  limited : result.limited = true ↔ (flatten result.valueRowsList).length = n

def RangeRequest.select [LinearOrder A] (range : RangeRequest A R) (pairs : List (A × R)) :
    List (A × R) :=
  range.direct (pairs.filter fun c => range.admits c.1)

/-! ### Directions -/

section Direct

variable (range : RangeRequest A R) {B C : Type}

namespace RangeRequest

theorem direct_map (f : B → C) (l : List B) :
    (range.direct l).map f = range.direct (l.map f) := by
  simp only [direct]
  split <;> simp

theorem direct_flatMap (f : B → List C) (l : List B) :
    range.direct (l.flatMap f) = (range.direct l).flatMap fun b => range.direct (f b) := by
  simp only [direct]
  split
  · rfl
  · rw [reverse_flatMap]
    rfl

theorem mem_direct {b : B} {l : List B} : b ∈ range.direct l ↔ b ∈ l := by
  simp only [direct]
  split <;> simp

theorem nodup_direct {l : List B} : (range.direct l).Nodup ↔ l.Nodup := by
  simp only [direct]
  split <;> simp

theorem nodup_keys [LinearOrder A] (m : SortedMap A X) (p : A × X → Bool) :
    ((range.direct (m.entries.filter p)).map Prod.fst).Nodup := by
  rw [range.direct_map, range.nodup_direct]
  exact (filter_sublist.map Prod.fst).nodup m.keys_nodup

end RangeRequest

end Direct

@[simp] theorem RangeResult.valueRowsList_resetEof (result : RangeResult A R) :
    result.resetEof.valueRowsList = result.valueRowsList := by
  rw [RangeResult.resetEof]
  split <;> rfl

@[simp] theorem RangeResult.limited_resetEof (result : RangeResult A R) :
    result.resetEof.limited = result.limited := by
  rw [RangeResult.resetEof]
  split <;> rfl

/-! ### Groups -/

theorem flatten_append (gs hs : List (ValueRows A R)) :
    flatten (gs ++ hs) = flatten gs ++ flatten hs := flatMap_append

theorem Gathers.nil (values : List A) (k : ℕ) : Gathers ([] : List (A × R)) values k [] :=
  ⟨by simp [flatten], by simp, by simp⟩

theorem Gathers.zero (cells : List (A × R)) (values : List A) :
    Gathers cells values 0 [] :=
  ⟨by simp [flatten], by simp, by simp⟩

variable {cells : List (A × R)} {values : List A} {result : RangeResult A R} {begin n num : ℕ}

theorem Gathers.cons (a : A) (rows : List R) {k : ℕ} {gs : List (ValueRows A R)}
    (h : Gathers cells values (k - rows.length) gs) :
    Gathers ((rows.map fun r => (a, r)) ++ cells) (a :: values) k
      ((if 0 < (rows.take k).length then [⟨a, rows.take k⟩] else []) ++ gs) := by
  have hcells : flatten (if 0 < (rows.take k).length then [⟨a, rows.take k⟩] else []) =
      (rows.map fun r => (a, r)).take k := by
    rw [← map_take]
    split
    · simp [flatten]
    · rename_i hnil
      rw [length_pos_iff, not_not] at hnil
      simp [flatten, hnil]
  refine ⟨?_, ?_, ?_⟩
  · rw [flatten_append, hcells, h.cells, take_append, length_map]
  · intro g hg
    rcases mem_append.mp hg with hg | hg
    · split at hg
      · rename_i hpos
        rw [mem_singleton.mp hg]
        exact length_pos_iff.mp hpos
      · simp at hg
    · exact h.nonempty g hg
  · rw [map_append]
    change List.Sublist _ ([a] ++ values)
    refine List.Sublist.append ?_ h.values
    split <;> simp

/-- `result'` is `result` with the first of the cells added to the `num`
cells it has, until there are `n`. -/
structure Extends (result result' : RangeResult A R) (cells : List (A × R)) (values : List A)
    (num n : ℕ) : Prop where
  groups : ∃ gs, result'.valueRowsList = result.valueRowsList ++ gs ∧
    Gathers cells values (n - num) gs
  limited : result'.limited = decide (n ≤ num + cells.length)

theorem Extends.refl (hlim : result.limited = false) (hlt : num < n) :
    Extends result result [] values num n :=
  ⟨⟨[], by simp, .nil _ _⟩, by simpa [hlim] using hlt⟩

theorem Extends.full (hlim : result.limited = true) : Extends result result cells values n n :=
  ⟨⟨[], by simp, by simpa using .zero cells values⟩, by simp [hlim]⟩

theorem Extends.cons (rows : List R) (result₁ : RangeResult A R) {result' : RangeResult A R} {a : A}
    (hfirst : result₁.valueRowsList = result.valueRowsList ++
      if 0 < (rows.take (n - num)).length then [⟨a, rows.take (n - num)⟩] else [])
    (h : Extends result₁ result' cells values (min n (num + rows.length)) n) :
    Extends result result' ((rows.map fun r => (a, r)) ++ cells) (a :: values) num n := by
  obtain ⟨⟨gs, hgs, hgather⟩, hlim⟩ := h
  refine ⟨⟨_, by rw [hgs, hfirst, append_assoc], Gathers.cons _ _ ?_⟩, ?_⟩
  · rwa [show n - num - rows.length = n - min n (num + rows.length) by omega]
  · rw [hlim, length_append, length_map]
    congr 1
    simp only [eq_iff_iff]
    omega

theorem Extends.answers {result' : RangeResult A R} (h : Extends result result' cells values 0 n)
    (hnil : result.valueRowsList = []) (hnd : values.Nodup) : result'.resetEof.Answers cells n := by
  obtain ⟨⟨gs, hgs, hgather⟩, hlim⟩ := h
  rw [hnil, nil_append] at hgs
  subst hgs
  rw [Nat.sub_zero] at hgather
  rw [Nat.zero_add] at hlim
  refine ⟨?_, ?_, ?_, ?_⟩
  · rw [RangeResult.valueRowsList_resetEof, hgather.cells]
  · rw [RangeResult.valueRowsList_resetEof]
    exact hgather.nonempty
  · rw [RangeResult.valueRowsList_resetEof]
    exact hgather.values.nodup hnd
  · rw [RangeResult.limited_resetEof, RangeResult.valueRowsList_resetEof, hlim, hgather.cells,
      length_take, decide_eq_true_eq]
    omega

/-! ### The loop over single rows -/

variable [LinearOrder A]

section Scan

variable [LinearOrder R] {m : SortedMap A X} {row : A × X → R} {range : RangeRequest A R}
  {stop n : ℕ}

theorem scanLoop_turn (fuel : ℕ) (hlimit : range.limit = n) {e : A × X} {rest : List (A × X)}
    {startId : Option R} (hw : Walks m range.ascending begin stop (e :: rest))
    (hstart : startId ≠ some (row e)) (hlim : result.limited = false) :
    ∃ j next, Walks m range.ascending j stop rest ∧
      next.valueRowsList = result.valueRowsList ++ [⟨e.1, [row e]⟩] ∧
      next.limited = decide (result.valueRowsList.length + 1 = n) ∧
      scanLoop m row range stop (fuel + 1) begin startId result =
        scanLoop m row range stop fuel j startId next := by
  obtain ⟨hne, i, j, hbefore, hderef, hafter, hw'⟩ := hw.step
  have hgo : ¬ (begin = stop ∨ result.limited = true) := by simp [hne, hlim]
  refine ⟨j, { result with
    valueRowsList := result.valueRowsList ++ [⟨e.1, [row e]⟩]
    limited := decide (result.valueRowsList.length + 1 = n) }, hw', rfl, rfl, ?_⟩
  have hcount : decide (((result.valueRowsList ++ [(⟨e.1, [row e]⟩ : ValueRows A R)]).length : ℤ) =
      n) = decide (result.valueRowsList.length + 1 = n) := by
    rw [length_append, length_singleton]
    norm_cast
  rw [scanLoop, if_neg hgo]
  simp only [hbefore, hderef, bind, Except.bind, hafter, hlimit, if_neg hstart, hcount]

/-- The loop reads on to the limit. -/
theorem scanLoop_spec (row : A × X → R) (range : RangeRequest A R) (hlimit : range.limit = n) :
    ∀ (rest : List (A × X)) (fuel begin : ℕ) (startId : Option R) (result : RangeResult A R),
      Walks m range.ascending begin stop rest → rest.length < fuel →
      (∀ e ∈ rest, startId ≠ some (row e)) → result.limited = false →
      result.valueRowsList.length < n →
      ∃ result', scanLoop m row range stop fuel begin startId result = .ok result' ∧
        Extends result result' (rest.map fun e => (e.1, row e)) (rest.map Prod.fst)
          result.valueRowsList.length n := by
  intro rest
  induction rest with
  | nil =>
    intro fuel begin startId result hw hfuel _ hlim hlt
    obtain ⟨fuel, rfl⟩ : ∃ f, fuel = f + 1 := ⟨fuel - 1, by omega⟩
    exact ⟨result, by rw [scanLoop, if_pos (Or.inl hw.eq_of_nil)], .refl hlim hlt⟩
  | cons e rest ih =>
    intro fuel begin startId result hw hfuel hstart hlim hlt
    obtain ⟨fuel, rfl⟩ : ∃ f, fuel = f + 1 := ⟨fuel - 1, by omega⟩
    rw [length_cons] at hfuel
    obtain ⟨j, next, hw', hvrl, hnextlim, hturn⟩ :=
      scanLoop_turn fuel hlimit hw (hstart e (mem_cons_self ..)) hlim
    have hlen : next.valueRowsList.length = result.valueRowsList.length + 1 := by simp [hvrl]
    have hone : [row e].take (n - result.valueRowsList.length) = [row e] :=
      take_of_length_le (by simp; omega)
    have hcons : ∀ result', Extends next result' (rest.map fun e => (e.1, row e))
        (rest.map Prod.fst) next.valueRowsList.length n → Extends result result'
          ((e :: rest).map fun e => (e.1, row e)) ((e :: rest).map Prod.fst)
          result.valueRowsList.length n := by
      intro result' h
      refine Extends.cons [row e] next ?_ ?_
      · rw [hvrl, hone]
        simp
      · rwa [show min n (result.valueRowsList.length + [row e].length) =
          next.valueRowsList.length by simp; omega]
    rw [hturn]
    by_cases hend : next.valueRowsList.length = n
    · -- the limit is reached
      obtain ⟨fuel, rfl⟩ : ∃ f, fuel = f + 1 := ⟨fuel - 1, by omega⟩
      have hfull : next.limited = true := by simpa [hnextlim, ← hlen] using hend
      refine ⟨next, by rw [scanLoop, if_pos (Or.inr hfull)], hcons next ?_⟩
      rw [hend]
      exact .full hfull
    · obtain ⟨result', hloop, hext⟩ := ih fuel j startId next hw' (by omega)
        (fun e he => hstart e (mem_cons_of_mem _ he))
        (by simpa [hnextlim, ← hlen] using hend) (by omega)
      exact ⟨result', hloop, hcons result' hext⟩

theorem scanRows_spec (m : SortedMap A X) (row : A × X → R) (startKey : Option A)
    (hlimit : range.limit = n) (hn : 1 ≤ n)
    (hle : lowCut m (range.from startKey).lowest ≤ highCut m (range.from startKey).highest)
    (hstart : ∀ e ∈ m.entries, (range.from startKey).admits e.1 → range.rowID ≠ some (row e)) :
    ∃ result, scanRows m row range startKey = .ok result ∧
      result.Answers (range.direct ((m.entries.filter fun e =>
        (range.from startKey).admits e.1).map fun e => (e.1, row e))) n := by
  obtain ⟨s, hs, hnil, hlim, hw⟩ := setUp_spec m range startKey hle
  have hrows : ∀ e ∈ range.direct (m.entries.filter fun e => (range.from startKey).admits e.1),
      range.rowID ≠ some (row e) := by
    intro e he
    obtain ⟨hmem, hadm⟩ := mem_filter.mp (range.mem_direct.mp he)
    exact hstart e hmem hadm
  obtain ⟨result, hloop, hext⟩ := scanLoop_spec row range hlimit _ (m.size + 1) s.begin
    range.rowID s.result hw (Nat.lt_succ_of_le hw.length_le) hrows hlim (by simp [hnil]; omega)
  rw [hnil, length_nil, range.direct_map] at hext
  refine ⟨_, by simp only [scanRows, hs, hloop, bind, Except.bind],
    hext.answers hnil (range.nodup_keys m _)⟩

end Scan

/-! ### The loops over the rows of values -/

def RangeRequest.cellsOf [LinearOrder R] (range : RangeRequest A R) (e : A × SortedMap R Unit) :
    List (A × R) :=
  (range.direct e.2.keys).map fun r => (e.1, r)

variable [LinearOrder R]

section Trees

variable {range : RangeRequest A R} {n : ℕ}

omit [LinearOrder A] in
/-- The loop over the rows of one value. -/
theorem TreeBuffer.rowsLoop_spec {rows : SortedMap R Unit} {idEnd : ℕ} (hlimit : range.limit = n) :
    ∀ (rest : List (R × Unit)) (fuel idStart : ℕ) (rowIds : List R) (num : ℕ),
      Walks rows range.ascending idStart idEnd rest → rest.length < fuel → num < n →
      rowsLoop rows range idEnd fuel idStart rowIds num false =
        .ok (rowIds ++ (rest.map Prod.fst).take (n - num), min n (num + rest.length),
          decide (n ≤ num + rest.length)) := by
  intro rest
  induction rest with
  | nil =>
    intro fuel idStart rowIds num hw hfuel hlt
    obtain ⟨fuel, rfl⟩ : ∃ f, fuel = f + 1 := ⟨fuel - 1, by omega⟩
    rw [rowsLoop, if_pos (Or.inl hw.eq_of_nil)]
    simp [hlt, hlt.le]
  | cons e rest ih =>
    intro fuel idStart rowIds num hw hfuel hlt
    obtain ⟨fuel, rfl⟩ : ∃ f, fuel = f + 1 := ⟨fuel - 1, by omega⟩
    obtain ⟨hne, i, j, hbefore, hderef, hafter, hw'⟩ := hw.step
    rw [length_cons] at hfuel
    rw [rowsLoop, if_neg (by simp [hne])]
    simp only [hbefore, hderef, bind, Except.bind, hafter, hlimit]
    by_cases hend : num + 1 = n
    · obtain ⟨fuel, rfl⟩ : ∃ f, fuel = f + 1 := ⟨fuel - 1, by omega⟩
      have hfull : decide (((num + 1 : ℕ) : ℤ) = n) = true := by simp [← hend]
      have hle : decide (n ≤ num + (rest.length + 1)) = true := by
        simp
        omega
      rw [hfull, rowsLoop, if_pos (Or.inr rfl), length_cons, hle,
        show n - num = 1 by omega, show min n (num + (rest.length + 1)) = num + 1 by omega]
      rfl
    · have hmore : decide (((num + 1 : ℕ) : ℤ) = n) = false := by
        simp
        omega
      rw [hmore, ih fuel j _ (num + 1) hw' (by omega) (by omega), length_cons,
        show num + 1 + rest.length = num + (rest.length + 1) by omega,
        show n - num = n - (num + 1) + 1 by omega, map_cons, take_succ_cons,
        append_assoc, singleton_append]

omit [LinearOrder A] in
theorem walks_all (rows : SortedMap R Unit) (range : RangeRequest A R) :
    Walks rows range.ascending (if range.ascending then 0 else rows.size)
      (if range.ascending then rows.size else 0) (range.direct rows.entries) := by
  simp only [Walks, RangeRequest.direct, SortedMap.size]
  cases range.ascending <;> simp

variable {m : SortedMap A (SortedMap R Unit)} {stop : ℕ}

theorem TreeBuffer.valuesLoop_turn (fuel : ℕ) (hlimit : range.limit = n) {e : A × SortedMap R Unit}
    {rest : List (A × SortedMap R Unit)} {ids : List (R × Unit)} {idStart : ℕ} {startId : Option R}
    (hw : Walks m range.ascending begin stop (e :: rest))
    (hstart : idStartAt e.2 range startId = .ok idStart)
    (hids : Walks e.2 range.ascending idStart (if range.ascending then e.2.size else 0) ids)
    (hlt : num < n) (hlim : result.limited = false) :
    ∃ j next, Walks m range.ascending j stop rest ∧
      next.valueRowsList = result.valueRowsList ++
        (if 0 < ((ids.map Prod.fst).take (n - num)).length then
          [⟨e.1, (ids.map Prod.fst).take (n - num)⟩] else []) ∧
      next.limited = decide (n ≤ num + ids.length) ∧
      valuesLoop m range stop (fuel + 1) begin startId num result =
        valuesLoop m range stop fuel j none (min n (num + ids.length)) next := by
  obtain ⟨hne, i, j, hbefore, hderef, hafter, hw'⟩ := hw.step
  have hgo : ¬ (begin = stop ∨ result.limited = true) := by simp [hne, hlim]
  have hrows := rowsLoop_spec hlimit ids (e.2.size + 1) _ [] num hids
    (Nat.lt_succ_of_le hids.length_le) hlt
  refine ⟨j, { result with
    valueRowsList := result.valueRowsList ++
      (if 0 < ((ids.map Prod.fst).take (n - num)).length then
        [⟨e.1, (ids.map Prod.fst).take (n - num)⟩] else [])
    bof := if startId.isSome then false else result.bof
    limited := decide (n ≤ num + ids.length) }, hw', rfl, rfl, ?_⟩
  rw [valuesLoop, if_neg hgo]
  simp only [hbefore, hderef, bind, Except.bind, hafter, hstart, hlim, hrows, nil_append]
  split <;> simp

/-- One turn: the rows of a value, as far as the limit allows. -/
theorem TreeBuffer.valuesLoop_cons (range : RangeRequest A R) (fuel : ℕ) (startId : Option R)
    (result : RangeResult A R) (hlimit : range.limit = n) {e : A × SortedMap R Unit}
    {rest : List (A × SortedMap R Unit)} {ids : List (R × Unit)} {idStart : ℕ}
    (hw : Walks m range.ascending begin stop (e :: rest)) (hfuel : rest.length + 1 < fuel + 1)
    (hstart : idStartAt e.2 range startId = .ok idStart)
    (hids : Walks e.2 range.ascending idStart (if range.ascending then e.2.size else 0) ids)
    (hlt : num < n) (hlim : result.limited = false)
    (hrest : ∀ (fuel begin num : ℕ) (result : RangeResult A R),
      Walks m range.ascending begin stop rest → rest.length < fuel → num < n →
      result.limited = false →
      ∃ result', valuesLoop m range stop fuel begin none num result = .ok result' ∧
        Extends result result' (rest.flatMap range.cellsOf) (rest.map Prod.fst) num n) :
    ∃ result', valuesLoop m range stop (fuel + 1) begin startId num result =
        .ok result' ∧
      Extends result result' ((ids.map fun r => (e.1, r.1)) ++ rest.flatMap range.cellsOf)
        ((e :: rest).map Prod.fst) num n := by
  obtain ⟨j, next, hw', hvrl, hnextlim, hturn⟩ :=
    valuesLoop_turn fuel hlimit hw hstart hids hlt hlim
  have hcells : (ids.map fun r => (e.1, r.1)) = (ids.map Prod.fst).map fun r => (e.1, r) := by
    rw [map_map]
    rfl
  rw [hturn, hcells]
  by_cases hend : n ≤ num + ids.length
  · obtain ⟨fuel, rfl⟩ : ∃ f, fuel = f + 1 := ⟨fuel - 1, by omega⟩
    have hfull : next.limited = true := by simpa [hnextlim] using hend
    refine ⟨next, by rw [valuesLoop, if_pos (Or.inr hfull)], Extends.cons _ _ hvrl ?_⟩
    rw [length_map, show min n (num + ids.length) = n by omega]
    exact .full hfull
  · obtain ⟨result', hloop, hext⟩ := hrest fuel j (min n (num + ids.length)) next hw' (by omega)
      (by omega) (by simpa [hnextlim] using hend)
    refine ⟨result', hloop, Extends.cons _ _ hvrl ?_⟩
    rwa [length_map]

theorem TreeBuffer.valuesLoop_spec (range : RangeRequest A R) (hlimit : range.limit = n) :
    ∀ (rest : List (A × SortedMap R Unit)) (fuel begin num : ℕ) (result : RangeResult A R),
      Walks m range.ascending begin stop rest → rest.length < fuel → num < n →
      result.limited = false →
      ∃ result', valuesLoop m range stop fuel begin none num result = .ok result' ∧
        Extends result result' (rest.flatMap range.cellsOf) (rest.map Prod.fst) num n := by
  intro rest
  induction rest with
  | nil =>
    intro fuel begin num result hw hfuel hlt hlim
    obtain ⟨fuel, rfl⟩ : ∃ f, fuel = f + 1 := ⟨fuel - 1, by omega⟩
    exact ⟨result, by rw [valuesLoop, if_pos (Or.inl hw.eq_of_nil)], .refl hlim hlt⟩
  | cons e rest ih =>
    intro fuel begin num result hw hfuel hlt hlim
    obtain ⟨fuel, rfl⟩ : ∃ f, fuel = f + 1 := ⟨fuel - 1, by omega⟩
    obtain ⟨result', hloop, hext⟩ :=
      valuesLoop_cons range _ none _ hlimit hw hfuel rfl (walks_all e.2 range) hlt
        hlim ih
    refine ⟨result', hloop, ?_⟩
    have hcells : range.cellsOf e = (range.direct e.2.entries).map fun r => (e.1, r.1) := by
      rw [RangeRequest.cellsOf, SortedMap.keys, ← range.direct_map, map_map]
      rfl
    rwa [flatMap_cons, hcells]

end Trees

/-! ### The answers of the buffers -/

theorem TreeBuffer.select_pairs (b : TreeBuffer R A) (range : RangeRequest A R) :
    range.select b.pairs = (range.direct (b.values.entries.filter fun e =>
      range.admits e.1)).flatMap range.cellsOf := by
  have hfilter : b.pairs.filter (fun c => range.admits c.1) =
      (b.values.entries.filter fun e => range.admits e.1).flatMap
        fun e => e.2.keys.map fun r => (e.1, r) := by
    rw [pairs, filter_flatMap]
    induction b.values.entries with
    | nil => rfl
    | cons e l ih =>
      rw [flatMap_cons, ih]
      rw [filter_cons]
      split
      · rename_i he
        rw [flatMap_cons, filter_eq_self.mpr (by simp [he])]
      · rename_i he
        rw [filter_eq_nil_iff.mpr (by simp [he]), nil_append]
  rw [RangeRequest.select, hfilter, range.direct_flatMap]
  congr 1
  funext e
  rw [RangeRequest.cellsOf, range.direct_map]

theorem scanRows_answers {X : Type} (m : SortedMap A X) (row : A × X → R) (range : RangeRequest A R)
    (hrow : range.rowID = none) (hproper : range.Proper)
    (hlimit : 1 ≤ range.limit) : ∃ result, scanRows m row range none = .ok result ∧
      result.Answers (range.select (m.entries.map fun e => (e.1, row e))) range.limit.toNat := by
  obtain ⟨n, hn⟩ := Int.eq_ofNat_of_zero_le (show 0 ≤ range.limit by omega)
  obtain ⟨result, hok, hans⟩ := scanRows_spec m row none hn
    (by omega) (hproper.cut_le m) (by simp [hrow])
  refine ⟨result, hok, ?_⟩
  rw [hn, Int.toNat_natCast, RangeRequest.select, filter_map]
  exact hans

theorem TreeBuffer.getRows_of_cut (b : TreeBuffer R A) (range : RangeRequest A R)
    (hrow : range.rowID = none)
    (hcut : lowCut b.values range.lowest ≤ highCut b.values range.highest)
    (hlimit : 1 ≤ range.limit) : ∃ result, b.getRows range = .ok result ∧
      result.Answers (range.select b.pairs) range.limit.toNat := by
  obtain ⟨n, hn⟩ := Int.eq_ofNat_of_zero_le (show 0 ≤ range.limit by omega)
  obtain ⟨s, hs, hnil, hlim, hw⟩ := setUp_spec b.values range none hcut
  obtain ⟨result, hloop, hext⟩ := valuesLoop_spec range hn _ (b.values.size + 1) s.begin 0
    s.result hw (Nat.lt_succ_of_le hw.length_le) (by omega) hlim
  refine ⟨result.resetEof, ?_, ?_⟩
  · simp only [getRows, valuesRows, startKeyOf_none hrow, hrow, bind, Except.bind, hs, hloop]
  · rw [hn, Int.toNat_natCast, b.select_pairs]
    exact hext.answers hnil (range.nodup_keys b.values _)

theorem TreeBuffer.getRows_spec (b : TreeBuffer R A) (range : RangeRequest A R)
    (hrow : range.rowID = none) (hproper : range.Proper) (hlimit : 1 ≤ range.limit) :
    ∃ result, b.getRows range = .ok result ∧
      result.Answers (range.select b.pairs) range.limit.toNat :=
  b.getRows_of_cut range hrow (hproper.cut_le b.values) hlimit

/-- **Range requests**: without a start row, every buffer answers a request
for a proper interval with the first cells in it. -/
theorem getRows_answers :
    (∀ (b : IdentityBuffer R) (range : RangeRequest R R), range.rowID = none → range.Proper →
      1 ≤ range.limit → ∃ result, b.getRows range = .ok result ∧
        result.Answers (range.select b.pairs) range.limit.toNat) ∧
    (∀ (b : UniqueInlineBuffer R A) (range : RangeRequest A R), range.rowID = none →
      range.Proper → 1 ≤ range.limit →
      ∃ result, UniqueInlineBuffer.getRows b range = .ok result ∧
        result.Answers (range.select b.pairs) range.limit.toNat) ∧
    (∀ (b : UniqueBuffer R A) (range : RangeRequest A R), range.rowID = none →
      range.Proper → 1 ≤ range.limit → ∃ result, UniqueBuffer.getRows b range = .ok result ∧
        result.Answers (range.select b.pairs) range.limit.toNat) ∧
    (∀ (b : TreeBuffer R A) (range : RangeRequest A R), range.rowID = none →
      range.Proper → 1 ≤ range.limit → ∃ result, b.getRows range = .ok result ∧
        result.Answers (range.select b.pairs) range.limit.toNat) := by
  refine ⟨fun b range hrow hproper hlimit => ?_, fun b range hrow hproper hlimit => ?_,
    fun b range hrow hproper hlimit => ?_,
    fun b range hrow hproper hlimit => b.getRows_spec range hrow hproper hlimit⟩
  · obtain ⟨result, hok, hans⟩ := scanRows_answers b.rows Prod.fst range hrow hproper hlimit
    refine ⟨result, by rw [IdentityBuffer.getRows, hrow, hok], ?_⟩
    rwa [IdentityBuffer.pairs, SortedMap.keys, map_map]
  · obtain ⟨result, hok, hans⟩ := scanRows_answers b.values Prod.snd range hrow hproper hlimit
    refine ⟨result, ?_, by simpa [UniqueIndex.pairs] using hans⟩
    simp only [UniqueInlineBuffer.getRows, startKeyOf_none hrow, bind, Except.bind, hok]
  · obtain ⟨result, hok, hans⟩ := scanRows_answers b.values Prod.snd range hrow hproper hlimit
    refine ⟨result, ?_, by simpa [UniqueIndex.pairs] using hans⟩
    simp only [UniqueBuffer.getRows, startKeyOf_none hrow, bind, Except.bind, hok]

def twoValues : TreeBuffer ℕ ℕ where
  rows := ⟨[(10, ()), (11, ()), (12, ())], by decide⟩
  values := ⟨[(1, ⟨[(10, ()), (11, ())], by decide⟩), (2, ⟨[(12, ())], by decide⟩)], by decide⟩
  unique := 2
  total := 3

/-- Downwards from the second value, two cells. -/
theorem getRows_answers_twoValues : ∃ result,
    twoValues.getRows { ascending := false, limit := 2, first := some ⟨2, true⟩ } = .ok result ∧
      flatten result.valueRowsList = [(2, 12), (1, 11)] ∧ result.limited = true := by
  obtain ⟨result, hok, hans⟩ := (getRows_answers (R := ℕ) (A := ℕ)).2.2.2 twoValues
    { ascending := false, limit := 2, first := some ⟨2, true⟩ } rfl
    (by simp [RangeRequest.Proper, RangeRequest.lowest]) (by decide)
  have hcells := hans.cells
  refine ⟨result, hok, hcells.trans (by decide), hans.limited.mpr ?_⟩
  rw [hcells]
  decide

end Fastore.Buffer
