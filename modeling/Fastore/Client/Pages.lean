import Fastore.Buffer.Serialization
import Fastore.Client.Merge

/-!
Pages of rows from the database.

`getRange` of a database asks the range column for its groups of row IDs,
asks the other columns for the values of these rows, and puts the answers
together by position. The first row of each group is marked as a new group.
The value of a range column that has not been selected is written behind
the end of the row.

The values of a row are in the order of the columns asked for, and the rows
in the order of the groups (`resultsToRangeSet_arranges`). They are those of
the cells that the range column answers with (`getRange_shows`). A range
without an exclusive first bound is served in pages by every kind of column
(`Column.serves`). A transaction merges its changes into these pages.
-/

namespace Fastore.Client

open Lib Buffer Function
open List hiding flatten

variable {R A : Type} [LinearOrder R] [LinearOrder A]

/-! ### Ranges of a column -/

/-- How row IDs are written as values and read back. The values of an identity
column compare as its row IDs do. -/
structure RowText (R A : Type) [LinearOrder R] [LinearOrder A] where
  encode : R → A
  decode : A → Option R
  strictMono : StrictMono encode
  decode_eq_some : ∀ a r, decode a = some r ↔ encode r = a

def decodeBound (text : RowText R A) (bound : RangeBound A) : Except Fault (RangeBound R) :=
  match text.decode bound.value with
  | some rowId => .ok ⟨rowId, bound.inclusive⟩
  | none => .error .outOfRange

def decodeRequest (text : RowText R A) (range : RangeRequest A R) :
    Except Fault (RangeRequest R R) := do
  let first ← range.first.mapM (decodeBound text)
  let last ← range.last.mapM (decodeBound text)
  .ok { ascending := range.ascending, limit := range.limit, first := first, last := last,
        rowID := range.rowID }

def encodeResult (text : RowText R A) (result : RangeResult R R) : RangeResult A R :=
  { valueRowsList := result.valueRowsList.map fun g => ⟨text.encode g.value, g.rowIDs⟩
    eof := result.eof
    bof := result.bof
    limited := result.limited }

def Column.getRows (text : RowText R A) : Column R A → RangeRequest A R →
    Except Fault (RangeResult A R)
  | identity b, range => do
    let range ← decodeRequest text range
    let result ← ofBuffer (b.getRows range)
    .ok (encodeResult text result)
  | uniqueInline b, range => ofBuffer (UniqueInlineBuffer.getRows b range)
  | unique b, range => ofBuffer (UniqueBuffer.getRows b range)
  | multi b, range => ofBuffer (b.getRows range)

def encodeCell (text : RowText R A) (cell : R × R) : A × R := (text.encode cell.1, cell.2)

def Column.pairs (text : RowText R A) : Column R A → List (A × R)
  | identity b => b.pairs.map (encodeCell text)
  | uniqueInline b => UniqueIndex.pairs b
  | unique b => UniqueIndex.pairs b
  | multi b => b.pairs

/-! ### The database -/

structure PageRow (R A : Type) extends DataSetRow R A where
  newGroup : Bool
  deriving DecidableEq, Repr

structure Page (R A : Type) where
  eof : Bool := false
  bof : Bool := false
  limited : Bool := false
  data : List (PageRow R A) := []
  deriving DecidableEq, Repr

def getRowsQuery (rangeResult : RangeResult A R) : List R :=
  rangeResult.valueRowsList.flatMap (·.rowIDs)

/-- `ResultsToDataSet`. A column without an answer is left unset. -/
def resultsToDataSet (columnIds : List ColumnID) (rowIDs : List R)
    (rowResults : List (ColumnID × List (Option A))) : Except Fault (List (DataSetRow R A)) :=
  rowIDs.zipIdx.mapM fun (rowId, y) => do
    let values ← columnIds.mapM fun columnId =>
      match rowResults.lookup columnId with
      | some rowIDValues =>
        match rowIDValues[y]? with
        | some value => .ok value
        | none => .error .outOfRange
      | none => .ok none
    .ok ⟨rowId, values⟩

def Column.rowIDValues (text : RowText R A) (col : Column R A) (rowIDs : List R) :
    Except Fault (List (Option A)) :=
  rowIDs.mapM fun rowId => ofBuffer (col.getValue text.encode rowId)

/-- `InternalGetValues`: every column but one is asked for its values. -/
def internalGetValues (text : RowText R A) (columns : ColumnID → Column R A)
    (columnIds : List ColumnID) (exclusionColumnId : ColumnID) (rowIDs : List R) :
    Except Fault (List (DataSetRow R A)) := do
  let resultsByColumn ← (columnIds.filter (· ≠ exclusionColumnId)).mapM fun columnId => do
    let rowIDValues ← (columns columnId).rowIDValues text rowIDs
    .ok (columnId, rowIDValues)
  resultsToDataSet columnIds rowIDs resultsByColumn

def fillRange (groups : List (ValueRows A R)) (rangeColumnIndex : ℕ) :
    List (DataSetRow R A) → ℕ → ℕ → Bool → Except Fault (List (PageRow R A))
  | [], _, _, _ => .ok []
  | row :: rows, valueRowValue, valueRowRow, newGroup =>
    match groups[valueRowValue]? with
    | none => .error .outOfRange
    | some group =>
      if rangeColumnIndex < row.values.length then do
        let ended := group.rowIDs.length ≤ valueRowRow + 1
        let rest ← fillRange groups rangeColumnIndex rows
          (if ended then valueRowValue + 1 else valueRowValue)
          (if ended then 0 else valueRowRow + 1) ended
        .ok (⟨⟨row.ID, row.values.set rangeColumnIndex (some group.value)⟩, newGroup⟩ :: rest)
      else .error .outOfRange

def resultsToRangeSet (set : List (DataSetRow R A)) (rangeColumnIndex : ℕ)
    (rangeResult : RangeResult A R) : Except Fault (Page R A) := do
  let data ← fillRange rangeResult.valueRowsList rangeColumnIndex set 0 0 true
  .ok ⟨rangeResult.eof, rangeResult.bof, rangeResult.limited, data⟩

def createQuery (range : Range A) (limit : ℤ) (startId : Option R) : RangeRequest A R :=
  { (rangeToRangeRequest range limit : RangeRequest A R) with rowID := startId }

def getRange (text : RowText R A) (columns : ColumnID → Column R A) (columnIds : List ColumnID)
    (range : Range A) (limit : ℤ) (startId : Option R) : Except Fault (Page R A) := do
  let rangeResult ← (columns range.columnID).getRows text (createQuery range limit startId)
  let set ← internalGetValues text columns columnIds range.columnID (getRowsQuery rangeResult)
  resultsToRangeSet set (columnIds.idxOf range.columnID) rangeResult

/-! ### Identity columns -/

variable {a : A} {cells : List (A × R)} {columnIds : List ColumnID} {startId : Option R} {r : R}
  {range : Range A} {result : RangeResult A R} {i n : ℕ} {limit : ℤ}

section Identity

variable (text : RowText R A)

def encodeBound (bound : RangeBound R) : RangeBound A := ⟨text.encode bound.value, bound.inclusive⟩

def encodeRequest (range : RangeRequest R R) : RangeRequest A R :=
  { ascending := range.ascending, limit := range.limit
    first := range.first.map (encodeBound text), last := range.last.map (encodeBound text)
    rowID := range.rowID }

theorem mapM_decodeBound (bound : Option (RangeBound A)) :
    bound.mapM (decodeBound text) = .error .outOfRange ∨
      ∃ bound', bound.mapM (decodeBound text) = .ok bound' ∧
        bound = bound'.map (encodeBound text) := by
  cases bound with
  | none => exact .inr ⟨none, rfl, rfl⟩
  | some bound =>
    cases hdecode : text.decode bound.value with
    | none =>
      have hbound : decodeBound text bound = .error .outOfRange := by rw [decodeBound, hdecode]
      exact .inl (by simp [hbound, Functor.map, Except.map])
    | some r =>
      have hbound : decodeBound text bound = .ok ⟨r, bound.inclusive⟩ := by
        rw [decodeBound, hdecode]
      refine .inr ⟨some ⟨r, bound.inclusive⟩, by simp [hbound, Functor.map, Except.map], ?_⟩
      rw [Option.map_some, encodeBound, (text.decode_eq_some _ r).mp hdecode]

theorem decodeRequest_cases (range : RangeRequest A R) :
    (∀ rowID, decodeRequest text { range with rowID := rowID } = .error .outOfRange) ∨
      ∃ range', range = encodeRequest text range' ∧
        ∀ rowID, decodeRequest text { range with rowID := rowID } =
          .ok { range' with rowID := rowID } := by
  rcases mapM_decodeBound text range.first with hfirst | ⟨first, hfirst, hfirst'⟩
  · exact .inl fun rowID => by simp only [decodeRequest, hfirst, bind, Except.bind]
  rcases mapM_decodeBound text range.last with hlast | ⟨last, hlast, hlast'⟩
  · exact .inl fun rowID => by simp only [decodeRequest, hfirst, hlast, bind, Except.bind]
  refine .inr ⟨⟨range.ascending, range.limit, first, last, range.rowID⟩, ?_, fun rowID => ?_⟩
  · rw [encodeRequest, ← hfirst', ← hlast']
  · simp only [decodeRequest, hfirst, hlast, bind, Except.bind]

theorem lowest_encodeRequest (range : RangeRequest R R) :
    (encodeRequest text range).lowest = range.lowest.map (encodeBound text) := by
  cases hasc : range.ascending <;> simp [RangeRequest.lowest, encodeRequest, hasc]

theorem highest_encodeRequest (range : RangeRequest R R) :
    (encodeRequest text range).highest = range.highest.map (encodeBound text) := by
  cases hasc : range.ascending <;> simp [RangeRequest.highest, encodeRequest, hasc]

theorem admits_encodeRequest (range : RangeRequest R R) (r : R) :
    (encodeRequest text range).admits (text.encode r) = range.admits r := by
  have hlower : ∀ bound : RangeBound R,
      (encodeBound text bound).lower (text.encode r) = bound.lower r := fun bound => by
    simp only [RangeBound.lower, encodeBound, text.strictMono.le_iff_le, text.strictMono.lt_iff_lt]
  have hupper : ∀ bound : RangeBound R,
      (encodeBound text bound).upper (text.encode r) = bound.upper r := fun bound => by
    simp only [RangeBound.upper, encodeBound, text.strictMono.le_iff_le, text.strictMono.lt_iff_lt]
  simp only [RangeRequest.admits, lowest_encodeRequest, highest_encodeRequest, Option.all_map,
    hlower, hupper]

theorem select_encodeRequest (range : RangeRequest R R) (pairs : List (R × R)) :
    (encodeRequest text range).select (pairs.map (encodeCell text)) =
      (range.select pairs).map (encodeCell text) := by
  have hdirect : ∀ l : List (A × R), (encodeRequest text range).direct l = range.direct l :=
    fun _ => rfl
  rw [RangeRequest.select, RangeRequest.select, hdirect, range.direct_map, filter_map]
  simp only [comp_def, encodeCell, admits_encodeRequest]

theorem proper_encodeRequest {range : RangeRequest R R} (h : (encodeRequest text range).Proper) :
    range.Proper := by
  intro low hlow high hhigh
  have hbounds := h (encodeBound text low) ?_ (encodeBound text high) ?_
  · simpa only [encodeBound, text.strictMono.lt_iff_lt, text.strictMono.injective.eq_iff]
      using hbounds
  · rw [lowest_encodeRequest]
    exact Option.mem_map_of_mem _ hlow
  · rw [highest_encodeRequest]
    exact Option.mem_map_of_mem _ hhigh

theorem flatten_encodeResult (result : RangeResult R R) :
    flatten (encodeResult text result).valueRowsList =
      (flatten result.valueRowsList).map (encodeCell text) := by
  simp only [flatten, encodeResult, flatMap_map, map_flatMap, map_map,
    comp_def, encodeCell]

theorem answers_encodeResult {result : RangeResult R R} {cells : List (R × R)}
    (h : result.Answers cells n) :
    (encodeResult text result).Answers (cells.map (encodeCell text)) n where
  cells := by rw [flatten_encodeResult, h.cells, map_take]
  nonempty := by
    intro g hg
    obtain ⟨g', hg', rfl⟩ := mem_map.mp hg
    exact h.nonempty g' hg'
  grouped := by
    have hvalues : (encodeResult text result).valueRowsList.map (·.value) =
        (result.valueRowsList.map (·.value)).map text.encode := by
      simp [encodeResult]
    rw [hvalues]
    exact h.grouped.map text.strictMono.injective
  limited := by
    rw [flatten_encodeResult, length_map]
    exact h.limited

end Identity

/-! ### Columns in pages -/

/-- The column answers the request with the cells, page by page. -/
structure Column.Serves (text : RowText R A) (col : Column R A) (range : RangeRequest A R)
    (cells : List (A × R)) (n : ℕ) : Prop where
  first : ∃ result, col.getRows text { range with rowID := none } = .ok result ∧
    result.Answers cells n
  next : ∀ P a r Q, cells = P ++ (a, r) :: Q →
    ∃ result, col.getRows text { range with rowID := some r } = .ok result ∧ result.Answers Q n

section Columns

variable {text : RowText R A} {col : Column R A} {M : R → Option A}

theorem Column.mem_pairs (h : col.Holds text.encode M) :
    (a, r) ∈ col.pairs text ↔ M r = some a := by
  cases col with
  | identity b =>
    obtain ⟨N, hN, rfl⟩ := h
    rw [Column.pairs, mem_map, Option.map_eq_some_iff]
    constructor
    · rintro ⟨⟨a', r'⟩, hmem, heq⟩
      obtain ⟨rfl, rfl⟩ := Prod.mk.inj heq
      exact ⟨a', (hN.mem_pairs a' r').mp hmem, rfl⟩
    · rintro ⟨a', hr, rfl⟩
      exact ⟨(a', r), (hN.mem_pairs a' r).mpr hr, rfl⟩
  | uniqueInline b => exact UniqueIndex.Holds.mem_pairs h a r
  | unique b => exact UniqueIndex.Holds.mem_pairs h a r
  | multi b => exact TreeBuffer.Holds.mem_pairs h

theorem Column.Serves.of_continues {range : RangeRequest A R}
    {getRows : RangeRequest A R → Except Tree.Fault (RangeResult A R)}
    (hcol : ∀ range, col.getRows text range = ofBuffer (getRows range))
    (h : Continues getRows range cells n) : col.Serves text range cells n := by
  refine ⟨?_, fun P a r Q hcells => ?_⟩
  · obtain ⟨result, hok, hans⟩ := h.first
    exact ⟨result, by rw [hcol, hok]; rfl, hans⟩
  · obtain ⟨result, hok, hans⟩ := h.next P a r Q hcells
    exact ⟨result, by rw [hcol, hok]; rfl, hans⟩

/-- **A column serves a range in pages**, if the first bound is not exclusive.
The bounds of an identity column have to be row IDs. -/
theorem Column.serves (h : col.Holds text.encode M) {range : RangeRequest A R}
    (hproper : range.Proper) (hinc : range.bInclusive = true) (hlimit : range.limit = n)
    (hn : 1 ≤ n) :
    col.Serves text range (range.select (col.pairs text)) n ∨
      ∀ rowID, col.getRows text { range with rowID := rowID } = .error .outOfRange := by
  cases col with
  | identity b =>
    rcases decodeRequest_cases text range with hfail | ⟨range', rfl, hdecode⟩
    · exact .inr fun rowID => by simp only [Column.getRows, hfail, bind, Except.bind]
    · have hcontinues := b.continues range' (proper_encodeRequest text hproper) hlimit hn
      have hselect : (encodeRequest text range').select (Column.pairs text (.identity b)) =
          (range'.select b.pairs).map (encodeCell text) :=
        select_encodeRequest text range' b.pairs
      have hgetRows : ∀ {rowID : Option R} {result : RangeResult R R},
          b.getRows { range' with rowID := rowID } = .ok result →
          Column.getRows text (.identity b) { encodeRequest text range' with rowID := rowID } =
            .ok (encodeResult text result) := by
        intro rowID result hok
        simp only [Column.getRows, hdecode, hok, ofBuffer, Except.mapError, bind, Except.bind]
      rw [hselect]
      refine .inl ⟨?_, fun P a r Q hcells => ?_⟩
      · obtain ⟨result, hok, hans⟩ := hcontinues.first
        exact ⟨_, hgetRows hok, answers_encodeResult text hans⟩
      · obtain ⟨P', rest, hcells', -, hrest⟩ := map_eq_append_iff.mp hcells
        obtain ⟨⟨a', r'⟩, Q', rfl, hcell, rfl⟩ := map_eq_cons_iff.mp hrest
        obtain ⟨-, rfl⟩ := Prod.mk.inj hcell
        obtain ⟨result, hok, hans⟩ := hcontinues.next P' a' r' Q' hcells'
        exact ⟨_, hgetRows hok, answers_encodeResult text hans⟩
  | uniqueInline b =>
    exact .inl (.of_continues (fun _ => rfl) (UniqueIndex.Holds.continues h
      (fun r => UniqueInlineBuffer.getValue_eq h r) range hproper hlimit hn))
  | unique b =>
    exact .inl (.of_continues (fun _ => rfl) (UniqueIndex.Holds.continues h
      (fun r => UniqueBuffer.getValue_eq h r) range hproper hlimit hn))
  | multi b =>
    exact .inl (.of_continues (fun _ => rfl)
      (TreeBuffer.Holds.continues h range hproper hlimit hn hinc))

end Columns

/-! ### The rows of a page -/

section Rows

variable {text : RowText R A} {columns : ColumnID → Column R A} {M : ColumnID → R → Option A}

theorem Column.rowIDValues_eq {col : Column R A} {N : R → Option A} (h : col.Holds text.encode N)
    (rowIDs : List R) : col.rowIDValues text rowIDs = .ok (rowIDs.map N) :=
  mapM_eq_ok fun r _ => by rw [Column.getValue_eq h]; rfl

omit [LinearOrder R] [LinearOrder A] in
theorem resultsToDataSet_eq (columnIds : List ColumnID) (rowIDs : List R)
    {rowResults : List (ColumnID × List (Option A))} {f : ColumnID → R → Option A}
    (h : ∀ d ∈ columnIds, match rowResults.lookup d with
      | some rowIDValues => rowIDValues = rowIDs.map (f d)
      | none => ∀ r, f d r = none) :
    resultsToDataSet columnIds rowIDs rowResults =
      .ok (rowIDs.map fun r => ⟨r, columnIds.map fun d => f d r⟩) := by
  rw [resultsToDataSet, mapM_eq_ok (g := fun e => ⟨e.1, columnIds.map fun d => f d e.1⟩)]
  · congr 1
    conv_rhs => rw [← zipIdx_map_fst 0 rowIDs, map_map, comp_def]
  · rintro ⟨r, y⟩ he
    have hy : rowIDs[y]? = some r := mk_mem_zipIdx_iff_getElem?.mp he
    dsimp only
    rw [mapM_eq_ok (g := fun d => f d r)]
    · rfl
    · intro d hd
      have hanswer := h d hd
      cases hlookup : rowResults.lookup d with
      | none =>
        rw [hlookup] at hanswer
        rw [hanswer]
      | some rowIDValues =>
        rw [hlookup] at hanswer
        simp only [hanswer, getElem?_map, hy, Option.map_some]

def unfilledRow (columnIds : List ColumnID) (c : ColumnID) (M : ColumnID → R → Option A) (r : R) :
    DataSetRow R A :=
  ⟨r, columnIds.map fun d => if d = c then none else M d r⟩

def resultsByColumn (columnIds : List ColumnID) (c : ColumnID) (M : ColumnID → R → Option A)
    (rowIDs : List R) : List (ColumnID × List (Option A)) :=
  (columnIds.filter (· ≠ c)).map fun d => (d, rowIDs.map (M d))

omit [LinearOrder R] [LinearOrder A] in
theorem resultsToDataSet_unfilled (columnIds : List ColumnID) (c : ColumnID) (rowIDs : List R)
    (M : ColumnID → R → Option A) :
    resultsToDataSet columnIds rowIDs (resultsByColumn columnIds c M rowIDs) =
      .ok (rowIDs.map (unfilledRow columnIds c M)) := by
  refine resultsToDataSet_eq columnIds rowIDs fun d hd => ?_
  by_cases hdc : d = c
  · subst hdc
    have hnone : (resultsByColumn columnIds d M rowIDs).lookup d = none := by
      rw [lookup_eq_none_iff]
      simp only [resultsByColumn, mem_map, mem_filter]
      rintro _ ⟨d', ⟨-, hd'⟩, rfl⟩
      exact bne_iff_ne.mpr (of_decide_eq_true hd').symm
    rw [hnone]
    exact fun r => if_pos rfl
  · rw [resultsByColumn, lookup_graph _ (mem_filter.mpr ⟨hd, by simpa using hdc⟩)]
    simp only [if_neg hdc]

theorem internalGetValues_eq (hM : ∀ c, (columns c).Holds text.encode (M c))
    (columnIds : List ColumnID) (c : ColumnID) (rowIDs : List R) :
    internalGetValues text columns columnIds c rowIDs =
      .ok (rowIDs.map (unfilledRow columnIds c M)) := by
  have hresults : ((columnIds.filter (· ≠ c)).mapM fun d => do
      let rowIDValues ← (columns d).rowIDValues text rowIDs
      (.ok (d, rowIDValues) : Except Fault (ColumnID × List (Option A)))) =
      .ok ((columnIds.filter (· ≠ c)).map fun d => (d, rowIDs.map (M d))) :=
    mapM_eq_ok fun d _ => by rw [Column.rowIDValues_eq (hM d)]; rfl
  rw [internalGetValues, hresults]
  exact resultsToDataSet_unfilled columnIds c rowIDs M

def groupRows (row : A → R → DataSetRow R A) (g : ValueRows A R) : List (PageRow R A) :=
  g.rowIDs.zipIdx.map fun e => ⟨row g.value e.1, e.2 == 0⟩

section

omit [LinearOrder R] [LinearOrder A]

theorem fillRange_group {groups : List (ValueRows A R)} {v : ℕ} {g : ValueRows A R}
    {f : R → DataSetRow R A} {rest : List (DataSetRow R A)} (hg : groups[v]? = some g)
    (hf : ∀ r, i < (f r).values.length) (ids : List R) (k : ℕ)
    (hids : g.rowIDs.length = k + ids.length) (hne : ids ≠ []) :
    fillRange groups i (ids.map f ++ rest) v k (k == 0) =
      (fillRange groups i rest (v + 1) 0 true).map fun rows =>
        ((ids.zipIdx k).map fun e =>
          (⟨⟨(f e.1).ID, (f e.1).values.set i (some g.value)⟩, e.2 == 0⟩ : PageRow R A)) ++ rows := by
  induction ids generalizing k with
  | nil => exact absurd rfl hne
  | cons r ids ih =>
    rw [map_cons, cons_append, fillRange, hg]
    simp only [if_pos (hf r), zipIdx_cons, map_cons]
    rw [length_cons] at hids
    cases ids with
    | nil =>
      have hended : g.rowIDs.length ≤ k + 1 := by simp [hids]
      simp only [hended, if_true, decide_true, map_nil, nil_append]
      cases fillRange groups i rest (v + 1) 0 true <;> rfl
    | cons r' ids =>
      have hended : ¬ g.rowIDs.length ≤ k + 1 := by simp [hids]
      have hrest := ih (k + 1) (by rw [hids]; omega) (by simp)
      simp only [hended, if_false, decide_false]
      rw [show (false : Bool) = (k + 1 == 0) from rfl, hrest]
      cases fillRange groups i rest (v + 1) 0 true <;> rfl

theorem fillRange_groups {f : R → DataSetRow R A} (hf : ∀ r, i < (f r).values.length)
    (pre gs : List (ValueRows A R)) (hne : ∀ g ∈ gs, g.rowIDs ≠ []) :
    fillRange (pre ++ gs) i ((gs.flatMap (·.rowIDs)).map f) pre.length 0 true =
      .ok (gs.flatMap (groupRows fun a r => ⟨(f r).ID, (f r).values.set i (some a)⟩)) := by
  induction gs generalizing pre with
  | nil => rfl
  | cons g gs ih =>
    have hg : (pre ++ g :: gs)[pre.length]? = some g := by simp
    have hrest := ih (pre ++ [g]) fun g' hg' => hne g' (mem_cons_of_mem _ hg')
    rw [append_assoc, singleton_append, length_append] at hrest
    rw [flatMap_cons, map_append]
    refine (fillRange_group hg hf g.rowIDs 0 (by simp) (hne g mem_cons_self)).trans ?_
    rw [show pre.length + 1 = pre.length + [g].length from rfl, hrest]
    rfl

/-- The page has the first `n` of the cells, each with the values of its row in
the columns selected. -/
structure Page.Shows (page : Page R A) (columnIds : List ColumnID) (M : ColumnID → R → Option A)
    (cells : List (A × R)) (n : ℕ) : Prop where
  rows : page.data.map PageRow.toDataSetRow =
    (cells.take n).map fun cell => rowOf columnIds M cell.2
  limited : page.limited = true ↔ page.data.length = n
  /-- If all cells have one value, the first row is the only one that is marked. -/
  marked : ∀ a, (∀ cell ∈ cells, cell.1 = a) →
    ∀ i row, page.data[i]? = some row → row.newGroup = (i == 0)

theorem Page.Shows.length {page : Page R A} (h : page.Shows columnIds M cells n) :
    page.data.length = min n cells.length := by
  have hlength := congrArg List.length h.rows
  rwa [length_map, length_map, length_take] at hlength

theorem Page.Shows.row {page : Page R A} (h : page.Shows columnIds M cells n) {row : PageRow R A}
    (hrow : page.data[i]? = some row) :
    ∃ cell, cells[i]? = some cell ∧ row.toDataSetRow = rowOf columnIds M cell.2 := by
  have heq : (page.data.map PageRow.toDataSetRow)[i]? = some row.toDataSetRow := by
    rw [getElem?_map, hrow, Option.map_some]
  rw [h.rows, getElem?_map, Option.map_eq_some_iff] at heq
  obtain ⟨cell, hcell, heq⟩ := heq
  refine ⟨cell, ?_, heq.symm⟩
  rw [getElem?_take] at hcell
  split_ifs at hcell
  exact hcell

theorem map_groupRows (row : R → DataSetRow R A) (gs : List (ValueRows A R)) :
    (gs.flatMap (groupRows fun _ r => row r)).map PageRow.toDataSetRow =
      (flatten gs).map fun cell => row cell.2 := by
  simp only [flatten, groupRows, map_flatMap, map_map, comp_def]
  refine flatMap_congr fun g _ => ?_
  conv_rhs => rw [← zipIdx_map_fst 0 g.rowIDs, map_map, comp_def]

/-- A page shows the cells that the buffer answers with. -/
theorem shows_of_answers (columnIds : List ColumnID) (hans : result.Answers cells n) :
    Page.Shows ⟨result.eof, result.bof, result.limited,
      result.valueRowsList.flatMap (groupRows fun _ r => rowOf columnIds M r)⟩ columnIds M cells n where
  rows := by rw [map_groupRows, hans.cells]
  limited := by
    have hlength := congrArg List.length
      (map_groupRows (rowOf columnIds M) result.valueRowsList)
    rw [length_map, length_map] at hlength
    rw [hlength]
    exact hans.limited
  marked := by
    intro a hvalue i row hrow
    have hgroup : ∀ g ∈ result.valueRowsList, g.value = a := by
      intro g hg
      obtain ⟨r, hr⟩ := exists_mem_of_ne_nil _ (hans.nonempty g hg)
      have hcell : (g.value, r) ∈ flatten result.valueRowsList :=
        mem_flatMap.mpr ⟨g, hg, mem_map_of_mem hr⟩
      rw [hans.cells] at hcell
      exact hvalue _ (mem_of_mem_take hcell)
    have hgrouped := hans.grouped
    match hlist : result.valueRowsList, hrow with
    | [], hrow => simp at hrow
    | [g], hrow =>
      simp only [flatMap_cons, flatMap_nil, append_nil, groupRows,
        getElem?_map, getElem?_zipIdx, Option.map_map, Option.map_eq_some_iff] at hrow
      obtain ⟨r, -, rfl⟩ := hrow
      simp
    | g :: g' :: gs, _ =>
      rw [hlist] at hgroup hgrouped
      have hg := hgroup g (by simp)
      have hg' := hgroup g' (by simp)
      simp [hg, hg'] at hgrouped

theorem fill_unfilledRow (hnodup : columnIds.Nodup) {c : ColumnID} (hmem : c ∈ columnIds)
    (hcell : M c r = some a) :
    (⟨(unfilledRow columnIds c M r).ID,
      (unfilledRow columnIds c M r).values.set (columnIds.idxOf c) (some a)⟩ : DataSetRow R A) =
      rowOf columnIds M r := by
  rw [rowOf, DataSetRow.mk.injEq]
  refine ⟨rfl, ext_getElem? fun i => ?_⟩
  simp only [unfilledRow, getElem?_set, getElem?_map, length_map]
  by_cases hi : columnIds.idxOf c = i
  · subst hi
    have hlt := idxOf_lt_length_of_mem hmem
    simp [hlt, hcell]
  · rw [if_neg hi]
    cases hd : columnIds[i]? with
    | none => rfl
    | some d =>
      have hne : d ≠ c := by
        rintro rfl
        obtain ⟨hlt, rfl⟩ := List.getElem?_eq_some_iff.mp hd
        exact hi (hnodup.idxOf_getElem i hlt)
      simp [hne]

end

/-- **A page of the database** shows the cells that its range column answers
with. -/
theorem getRange_shows (hM : ∀ c, (columns c).Holds text.encode (M c)) (hnodup : columnIds.Nodup)
    (hok : (columns range.columnID).getRows text (createQuery range limit startId) = .ok result)
    (hans : result.Answers cells n) (hcells : ∀ cell ∈ cells, M range.columnID cell.2 = some cell.1)
    (hmem : range.columnID ∈ columnIds) :
    ∃ page, getRange text columns columnIds range limit startId = .ok page ∧
      page.Shows columnIds M cells n := by
  refine ⟨_, ?_, shows_of_answers columnIds hans⟩
  have hlength : ∀ r, columnIds.idxOf range.columnID <
      (unfilledRow columnIds range.columnID M r).values.length := fun r => by
    rw [unfilledRow, length_map]
    exact idxOf_lt_length_of_mem hmem
  have hfill := fillRange_groups hlength [] result.valueRowsList hans.nonempty
  simp only [getRange, hok, internalGetValues_eq hM, resultsToRangeSet, getRowsQuery, bind,
    Except.bind]
  rw [nil_append, length_nil] at hfill
  rw [hfill]
  refine congrArg (fun data => Except.ok (Page.mk _ _ _ data)) (flatMap_congr fun g hg => ?_)
  refine map_congr_left fun e he => ?_
  have hcell : (g.value, e.1) ∈ flatten result.valueRowsList :=
    mem_flatMap.mpr ⟨g, hg, mem_map_of_mem (fst_mem_of_mem_zipIdx he)⟩
  rw [hans.cells] at hcell
  exact congrArg (fun row => PageRow.mk row (e.2 == 0))
    (fill_unfilledRow hnodup hmem (hcells _ (mem_of_mem_take hcell)))

theorem getRange_unselected (hM : ∀ c, (columns c).Holds text.encode (M c)) (hn : 1 ≤ n)
    (hok : (columns range.columnID).getRows text (createQuery range limit startId) = .ok result)
    (hans : result.Answers cells n) (hne : cells ≠ []) (hmem : range.columnID ∉ columnIds) :
    getRange text columns columnIds range limit startId = .error .outOfRange := by
  have hindex : columnIds.idxOf range.columnID = columnIds.length := idxOf_eq_length hmem
  simp only [getRange, hok, internalGetValues_eq hM, resultsToRangeSet, getRowsQuery, bind,
    Except.bind, hindex]
  cases hgroups : result.valueRowsList with
  | nil =>
    have hnil := hans.cells
    rw [hgroups, show flatten ([] : List (ValueRows A R)) = [] from rfl, eq_comm,
      take_eq_nil_iff] at hnil
    exact absurd (hnil.resolve_left (by omega)) hne
  | cons g gs =>
    cases hids : g.rowIDs with
    | nil => exact absurd hids (hans.nonempty g (by simp [hgroups]))
    | cons r ids => simp [hids, fillRange, unfilledRow]

theorem getRange_nil (hM : ∀ c, (columns c).Holds text.encode (M c))
    (hok : (columns range.columnID).getRows text (createQuery range limit startId) = .ok result)
    (hans : result.Answers [] n) :
    ∃ page, getRange text columns columnIds range limit startId = .ok page ∧ page.data = [] := by
  have hgroups : result.valueRowsList = [] := by
    cases hgroups : result.valueRowsList with
    | nil => rfl
    | cons g gs =>
      have hcells := hans.cells
      rw [hgroups, take_nil] at hcells
      have hnil := hans.nonempty g (by simp [hgroups])
      simp [flatten] at hcells
      exact absurd hcells.1 hnil
  refine ⟨⟨result.eof, result.bof, result.limited, []⟩, ?_, rfl⟩
  simp only [getRange, hok, internalGetValues_eq hM, resultsToRangeSet, getRowsQuery, bind,
    Except.bind, hgroups]
  rfl

omit [LinearOrder R] [LinearOrder A] in
theorem getElem?_fill {c : ColumnID} {x : ℕ} {d : ColumnID} (hd : columnIds[x]? = some d)
    (hne : d ≠ c) :
    ((unfilledRow columnIds c M r).values.set (columnIds.idxOf c) (some a))[x]? =
      some (M d r) := by
  have hindex : columnIds.idxOf c ≠ x := by
    rintro rfl
    obtain ⟨hlt, rfl⟩ := List.getElem?_eq_some_iff.mp hd
    exact hne (List.getElem_idxOf hlt)
  rw [getElem?_set_ne hindex, unfilledRow, getElem?_map, hd, Option.map_some, if_neg hne]

theorem getElem?_flatMap {X Y : Type} {l : List X} {f : X → List Y} {v k : ℕ} {x : X} {y : Y}
    (hv : l[v]? = some x) (hk : (f x)[k]? = some y) :
    (l.flatMap f)[((l.take v).flatMap f).length + k]? = some y := by
  obtain ⟨hlt, rfl⟩ := List.getElem?_eq_some_iff.mp hv
  have hsplit : l.flatMap f =
      (l.take v).flatMap f ++ (f l[v] ++ (l.drop (v + 1)).flatMap f) := by
    rw [← flatMap_cons, ← drop_eq_getElem_cons hlt, ← flatMap_append,
      take_append_drop]
  rw [hsplit, getElem?_append_right (Nat.le_add_right _ _), Nat.add_sub_cancel_left,
    List.getElem?_append_left (List.getElem?_eq_some_iff.mp hk).1, hk]

/-- The rows of a page are the rows of the groups, in their order: the value of the group
stands in the range column, the answers for the row in the others, and the first row of
each group is marked. -/
structure Page.Arranges (page : Page R A) (rangeResult : RangeResult A R)
    (columnIds : List ColumnID) (c : ColumnID) (answer : ColumnID → R → Option A) : Prop where
  rows : page.data.map (·.ID) = getRowsQuery rangeResult
  place : ∀ (v k : ℕ) g r, rangeResult.valueRowsList[v]? = some g → g.rowIDs[k]? = some r →
    ∃ row, page.data[((rangeResult.valueRowsList.take v).flatMap (·.rowIDs)).length + k]? =
        some row ∧
      row.ID = r ∧ row.values[columnIds.idxOf c]? = some (some g.value) ∧
      (∀ (x : ℕ) d, columnIds[x]? = some d → d ≠ c → row.values[x]? = some (answer d r)) ∧
      (row.newGroup = true ↔ k = 0)

omit [LinearOrder R] [LinearOrder A] in
/-- **From groups to rows**: whatever the groups and the answers of the other columns, the
rows of a page are arranged by them. -/
theorem resultsToRangeSet_arranges {rangeResult : RangeResult A R}
    (hgroups : ∀ g ∈ rangeResult.valueRowsList, g.rowIDs ≠ []) {columnIds : List ColumnID}
    {c : ColumnID} (hc : c ∈ columnIds) (answer : ColumnID → R → Option A) :
    ∃ set page,
      resultsToDataSet columnIds (getRowsQuery rangeResult)
        (resultsByColumn columnIds c answer (getRowsQuery rangeResult)) = .ok set ∧
      resultsToRangeSet set (columnIds.idxOf c) rangeResult = .ok page ∧
      page.Arranges rangeResult columnIds c answer := by
  have hlength : ∀ r, columnIds.idxOf c < (unfilledRow columnIds c answer r).values.length :=
    fun r => by
      rw [unfilledRow, length_map]
      exact idxOf_lt_length_of_mem hc
  have hfill := fillRange_groups hlength [] rangeResult.valueRowsList hgroups
  rw [nil_append, length_nil] at hfill
  refine ⟨_, _, resultsToDataSet_unfilled columnIds c _ answer,
    by rw [resultsToRangeSet, getRowsQuery, hfill]; rfl, ?_, ?_⟩
  · rw [map_flatMap, getRowsQuery]
    refine flatMap_congr fun g _ => ?_
    rw [groupRows, map_map]
    exact zipIdx_map_fst 0 g.rowIDs
  · intro v k g r hg hr
    have hcount : ((rangeResult.valueRowsList.take v).flatMap (·.rowIDs)).length =
        ((rangeResult.valueRowsList.take v).flatMap (groupRows fun a r =>
          ⟨(unfilledRow columnIds c answer r).ID, (unfilledRow columnIds c answer r).values.set
            (columnIds.idxOf c) (some a)⟩)).length := by
      simp only [length_flatMap, groupRows, length_map, length_zipIdx]
    rw [hcount]
    refine ⟨_, getElem?_flatMap hg (by
      rw [groupRows, getElem?_map, getElem?_zipIdx, hr]
      rfl), rfl, ?_, fun x d hd hne => getElem?_fill hd hne, ?_⟩
    · exact getElem?_set_self (hlength r)
    · rw [Nat.zero_add, beq_iff_eq]

def twoGroups : RangeResult ℕ ℕ := ⟨[⟨10, [1, 2]⟩, ⟨20, [3]⟩], true, true, false⟩

/-- Two groups, with the range column second. -/
theorem resultsToRangeSet_arranges_two : ∃ set page,
    resultsToDataSet [7, 5] (getRowsQuery twoGroups)
      (resultsByColumn [7, 5] 5 (fun d r => some (d + r)) (getRowsQuery twoGroups)) = .ok set ∧
    resultsToRangeSet set 1 twoGroups = .ok page ∧
    page.Arranges twoGroups [7, 5] 5 fun d r => some (d + r) := by
  have hgroups : ∀ g ∈ twoGroups.valueRowsList, g.rowIDs ≠ [] := by decide
  have hselected : 5 ∈ [7, 5] := by decide
  exact resultsToRangeSet_arranges hgroups hselected fun d r => some (d + r)

end Rows

end Fastore.Client
