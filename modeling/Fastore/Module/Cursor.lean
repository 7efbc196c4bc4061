import Mathlib.Data.Int.Bitwise
import Fastore.Client.Pages
import Fastore.Module.Plan

/-!
Cursors.

A cursor reads a range of a table in pages and keeps the last one. When it
is filtered again in the same way, it does not always ask the table anew.
A range filter with the same values goes back to the first row, if the page
is still the first one. An equality filter stays at the row it points at if
that row has the value, and looks for the value in the page otherwise.

The page of an equality has rows of one value only. So all that an equality
can find there are the rows of the last filter, and it finds them where the
last scan has left the cursor: the rows before are missing
(`filter_invisible_iff`).
-/

namespace Fastore.Module

open Lib Buffer Client List RangeRequest

open Hive (ColumnDef)

/-! ### The cursor -/

inductive Code
  | ok
  | constraint
  | mismatch
  deriving DecidableEq, Repr

def rowsPerQuery : ℕ := 1000

structure Cursor (R A : Type) where
  set : Page R A := {}
  range : Range A := { columnID := 0 }
  index : ℤ := -1
  initialUse : Bool := true
  values : List A := []
  idxString : List Char := []
  idxNum : ℤ := 0
  colIndex : ℤ := 0
  colUsed : List ColumnID := []
  colIndexToDataSetIndex : SortedMap ℤ ℕ := .empty
  endOfFilter : Bool := true
  isEquality : Bool := false
  needsReset : Bool := true

structure ResultRow (R A : Type) where
  rowId : R
  columns : List (Option (Option A))
  deriving DecidableEq, Repr

def bitMask (idx : List Char) : Ranged (-2 ^ 63) (2 ^ 63 - 1) :=
  let bitString := if idx.contains ';' then (idx.dropWhile (· ≠ ';')).tail else idx
  .clamp int64_le ((scan (bitString.dropWhile isSpace)).1.getD 0)

/-- The columns that are fetched, with their indexes: those that the mask has,
and the range column. The last bit stands for all columns behind. -/
def usedColumns (t : Table) (bitMask : ℤ) (rangeColumnID : ColumnID) : List (ColumnDef × ℕ) :=
  (t.columns.zipIdx.take 64).filter
      (fun e => bitMask.testBit e.2 || rangeColumnID == e.1.columnID) ++
    if bitMask.testBit 63 then t.columns.zipIdx.drop 64 else []

def mapColumn (m : SortedMap ℤ ℕ × List ColumnID) (e : ColumnDef × ℕ) :
    SortedMap ℤ ℕ × List ColumnID :=
  (m.1.insert e.2 m.2.length, m.2 ++ [e.1.columnID])

def columnMap (t : Table) (idx : List Char) (rangeColumnID : ColumnID) :
    SortedMap ℤ ℕ × List ColumnID :=
  (usedColumns t (bitMask idx).val rangeColumnID).foldl mapColumn (.empty, [])

section Model

variable {V R A : Type} [LinearOrder R] [LinearOrder A]

def Table.getRange (text : RowText R A) (columns : ColumnID → Column R A) (range : Range A)
    (columnIds : List ColumnID) (startId : Option R) : Except Fault (Page R A) :=
  Client.getRange text columns columnIds range rowsPerQuery startId

variable (t : Table) (fetch : Range A → List ColumnID → Option R → Except Fault (Page R A))
  (tryConvertValue : ℤ → V → Option A)

def getVector (colIndex : ℤ) (argv : List V) : Option (List A) :=
  argv.mapM (tryConvertValue colIndex)

namespace Cursor

def setPage (c : Cursor R A) (page : Page R A) : Cursor R A :=
  if 0 < page.data.length then { c with set := page, index := 0, endOfFilter := false }
  else { c with set := page, index := -1, endOfFilter := true }

def getNextSet (c : Cursor R A) : Except Fault (Cursor R A) :=
  if c.set.data.length = 0 then do
    let page ← fetch c.range c.colUsed none
    .ok (c.setPage page)
  else if !c.set.limited then .ok { c with index := -1, endOfFilter := true }
  else do
    let last ← vectorAt c.set.data (c.index - 1)
    let page ← fetch c.range c.colUsed (some last.ID)
    .ok ({ c with needsReset := true }.setPage page)

def dataSetIndex (c : Cursor R A) (colIndex : ℤ) : ℕ :=
  (c.colIndexToDataSetIndex.get? colIndex).getD 0

def valueAt (c : Cursor R A) (i : ℤ) : Except Fault A := do
  let row ← vectorAt c.set.data i
  match row.values[c.dataSetIndex c.colIndex]? with
  | some (some value) => .ok value
  | some none => .error .noValue
  | none => .error .outOfRange

/-- The end of `next`: an equality ends with its value. -/
def checkValue (c : Cursor R A) : Except Fault (Cursor R A) :=
  if c.isEquality && !c.endOfFilter then
    if c.index = 0 then do
      let value ← c.valueAt c.index
      let filterValue ← vectorAt c.values 0
      .ok (if value ≠ filterValue then { c with endOfFilter := true } else c)
    else do
      let row ← vectorAt c.set.data c.index
      .ok (if row.newGroup then { c with endOfFilter := true } else c)
  else .ok c

def next (c : Cursor R A) : Except Fault (Cursor R A) := do
  let c : Cursor R A := { c with index := c.index + 1 }
  let c ← if c.index = c.set.data.length then c.getNextSet fetch else .ok c
  c.checkValue

def eof (c : Cursor R A) : Bool := c.endOfFilter

def resultRow (c : Cursor R A) (row : DataSetRow R A) : ResultRow R A :=
  ⟨row.ID, (List.range t.columns.length).map fun i => row.values[c.dataSetIndex i]?⟩

def seekLoop (c : Cursor R A) (value : A) : ℕ → ℤ → ℤ → Except Fault (Option ℤ)
  | 0, _, _ => .ok none
  | fuel + 1, lo, hi =>
    if lo ≤ hi then do
      let split := (lo + hi) / 2
      let other ← c.valueAt split
      if value = other then .ok (some split)
      else if value < other then seekLoop c value fuel lo (split - 1)
      else seekLoop c value fuel (split + 1) hi
    else .ok none

def groupStart (data : List (PageRow R A)) : ℕ → ℕ
  | 0 => 0
  | lo + 1 => if data[lo + 1]?.any (·.newGroup) then lo + 1 else groupStart data lo

def seekIndex (c : Cursor R A) (value : A) : Except Fault ℤ := do
  let found ← c.seekLoop value (c.set.data.length + 1) 0 (c.set.data.length - 1)
  match found with
  | some lo => .ok (groupStart c.set.data lo.toNat)
  | none => .ok (-1)

def pointsAt (c : Cursor R A) (value : A) : Except Fault Bool :=
  if 0 ≤ c.index then do
    let other ← c.valueAt c.index
    .ok (other == value)
  else .ok false

def setRange (c : Cursor R A) : Except Fault (Cursor R A) := do
  let (range, isEquality) ← createRange t c.colIndex c.idxNum c.idxString c.values
  .ok { c with range := range, isEquality := isEquality }

def reuse (c : Cursor R A) (idxNum : ℤ) (idx : List Char) (values : List A) :
    Except Fault (Option (Cursor R A)) :=
  if !c.initialUse ∧ c.idxNum = idxNum ∧ c.idxString = idx then
    if c.isEquality then do
      let value ← vectorAt values 0
      let here ← c.pointsAt value
      let index ← if here then .ok c.index else c.seekIndex value
      if 0 ≤ index then do
        let c ← setRange t { c with index := index, values := values, endOfFilter := false }
        .ok (some c)
      else .ok none
    else if c.values = values ∧ !c.needsReset then
      let index := if 0 < c.set.data.length then 0 else -1
      .ok (some { c with index := index, endOfFilter := index < 0, needsReset := false })
    else .ok none
  else .ok none

def mapColumns (c : Cursor R A) : Cursor R A :=
  let m := columnMap t c.idxString c.range.columnID
  { c with colIndexToDataSetIndex := m.1, colUsed := m.2 }

def restart (c : Cursor R A) (idxNum : ℤ) (idx : List Char) (values : List A) :
    Except Fault (Cursor R A) := do
  let c ← setRange t { c with index := -1, set := {}, initialUse := false, needsReset := false,
                              idxNum := idxNum, idxString := idx, values := values }
  (c.mapColumns t).getNextSet fetch

def filter (c : Cursor R A) (idxNum : ℤ) (idx : List Char) (argv : List V) :
    Except Fault (Cursor R A × Code) :=
  let c : Cursor R A := { c with colIndex := decodeColumn idxNum }
  match getVector tryConvertValue c.colIndex argv with
  | none => .ok (c, .mismatch)
  | some values => do
    let reused ← c.reuse t idxNum idx values
    match reused with
    | some c => .ok (c, .ok)
    | none => do
      let c ← c.restart t fetch idxNum idx values
      .ok (c, .ok)

end Cursor

/-! ### Scans -/

/-- The arguments of `filter` as SQLite takes them from a plan: there is a value
for each operator. -/
structure FilterCall (V : Type) where
  idxNum : ℤ
  operators : List Operator
  colUsed : ℕ
  argv : List V
  argc : argv.length = operators.length

def FilterCall.idxStr (call : FilterCall V) : List Char :=
  call.operators.map Operator.code ++ ';' :: decimal call.colUsed

/-- The call, and how many calls of `next` follow, unless the end comes first. -/
structure Scan (V : Type) where
  call : FilterCall V
  steps : ℕ

namespace Cursor

def filterBy (c : Cursor R A) (call : FilterCall V) : Except Fault (Cursor R A × Code) :=
  c.filter t fetch tryConvertValue call.idxNum call.idxStr call.argv

def steps : ℕ → Cursor R A → Except Fault (Cursor R A)
  | 0, c => .ok c
  | k + 1, c => if c.eof then .ok c else do
      let c ← c.next fetch
      steps k c

def scan (c : Cursor R A) (s : Scan V) : Except Fault (Cursor R A) := do
  let (c, code) ← c.filterBy t fetch tryConvertValue s.call
  if code = .ok then steps fetch s.steps c else .ok c

def run (history : List (Scan V)) : Except Fault (Cursor R A) :=
  history.foldlM (scan t fetch tryConvertValue) {}

end Cursor

inductive Stop
  /-- Nobody has asked for more. -/
  | more
  | eof
  | returned (code : Code)
  | failed (fault : Fault)
  deriving DecidableEq, Repr

namespace Cursor

def readRows : ℕ → Cursor R A → List (ResultRow R A) × Stop
  | 0, _ => ([], .more)
  | n + 1, c =>
    if c.eof then ([], .eof)
    else match vectorAt c.set.data c.index with
      | .error fault => ([], .failed fault)
      | .ok row =>
        match c.next fetch with
        | .error fault => ([c.resultRow t row.toDataSetRow], .failed fault)
        | .ok c' =>
          let (rows, stop) := readRows n c'
          (c.resultRow t row.toDataSetRow :: rows, stop)

/-- The rows that a call of `filter` and the following calls of `next` produce,
`n` of them at most. -/
def produce (c : Cursor R A) (call : FilterCall V) (n : ℕ) : List (ResultRow R A) × Stop :=
  match c.filterBy t fetch tryConvertValue call with
  | .error fault => ([], .failed fault)
  | .ok (c, .ok) => c.readRows t fetch n
  | .ok (_, code) => ([], .returned code)

end Cursor

end Model

/-! ### The places of the columns -/

variable {colIndex : ℤ}

section Columns

variable {t : Table}

theorem vectorAt_eq_ok {X : Type} {xs : List X} {i : ℤ} {x : X} :
    vectorAt xs i = .ok x ↔ 0 ≤ i ∧ xs[i.toNat]? = some x := by
  rw [vectorAt]
  by_cases hi : i < 0
  · simp [hi]
  · rw [if_neg hi, and_iff_right (not_lt.mp hi)]
    cases xs[i.toNat]? <;> simp

theorem usedColumns_sublist (t : Table) (mask : ℤ) (id : ColumnID) :
    (usedColumns t mask id).Sublist t.columns.zipIdx := by
  have hrest : (if mask.testBit 63 then t.columns.zipIdx.drop 64 else []).Sublist
      (t.columns.zipIdx.drop 64) := by
    split
    · exact List.Sublist.refl _
    · exact nil_sublist _
  have happend := (filter_sublist (p := fun e : ColumnDef × ℕ =>
    mask.testBit e.2 || id == e.1.columnID) (l := t.columns.zipIdx.take 64)).append hrest
  rwa [take_append_drop] at happend

theorem foldl_mapColumn (used : List (ColumnDef × ℕ)) (hnodup : (used.map Prod.snd).Nodup) :
    (used.foldl mapColumn (.empty, [])).2 = used.map (·.1.columnID) ∧
      ∀ p e, used[p]? = some e → (used.foldl mapColumn (.empty, [])).1.get? e.2 = some p := by
  induction used using List.reverseRecOn with
  | nil => simp
  | append_singleton used e ih =>
    rw [map_append, nodup_append] at hnodup
    obtain ⟨hids, hplaces⟩ := ih hnodup.1
    simp only [foldl_append, foldl_cons, foldl_nil]
    refine ⟨by simp [mapColumn, hids], fun p e' hp => ?_⟩
    rw [mapColumn, SortedMap.get?_insert, hids, length_map]
    rcases lt_trichotomy p used.length with hlt | rfl | hgt
    · -- a column before the last one has another index
      rw [getElem?_append_left hlt] at hp
      have hne : e'.2 ≠ e.2 := fun heq =>
        hnodup.2.2 e'.2 (mem_map_of_mem (mem_of_getElem? hp)) e.2 (by simp) heq
      rw [if_neg (by exact_mod_cast hne)]
      exact hplaces p e' hp
    · simp only [getElem?_concat_length, Option.some.injEq] at hp
      rw [hp, if_pos rfl]
    · rw [getElem?_eq_none (by simp; omega)] at hp
      cases hp

theorem columnMap_spec (t : Table) (idx : List Char) (id : ColumnID) :
    (columnMap t idx id).2 = (usedColumns t (bitMask idx).val id).map (·.1.columnID) ∧
      ∀ p e, (usedColumns t (bitMask idx).val id)[p]? = some e →
        (columnMap t idx id).1.get? e.2 = some p := by
  refine foldl_mapColumn _ (((usedColumns_sublist t _ id).map Prod.snd).nodup ?_)
  rw [zipIdx_map_snd]
  exact nodup_range' _

theorem nodup_colUsed (hids : (t.columns.map (·.columnID)).Nodup) (idx : List Char)
    (id : ColumnID) : (columnMap t idx id).2.Nodup := by
  rw [(columnMap_spec t idx id).1]
  refine ((usedColumns_sublist t _ id).map (·.1.columnID)).nodup ?_
  have hmap : t.columns.zipIdx.map (·.1.columnID) = t.columns.map (·.columnID) := by
    conv_rhs => rw [← zipIdx_map_fst 0 t.columns, map_map, Function.comp_def]
  rwa [hmap]

theorem columnID_inj (hids : (t.columns.map (·.columnID)).Nodup) {i j : ℕ} {column column' : ColumnDef}
    (hi : t.columns[i]? = some column) (hj : t.columns[j]? = some column')
    (hid : column.columnID = column'.columnID) : i = j := by
  have heq : (t.columns.map (·.columnID))[i]? = (t.columns.map (·.columnID))[j]? := by
    rw [getElem?_map, getElem?_map, hi, hj, Option.map_some, Option.map_some, hid]
  refine (getElem?_inj ?_ hids).mp heq
  rw [length_map]
  exact (List.getElem?_eq_some_iff.mp hi).1

theorem place_of_mem (hids : (t.columns.map (·.columnID)).Nodup) {idx : List Char}
    {column : ColumnDef} (hcol : vectorAt t.columns colIndex = .ok column)
    (hmem : column.columnID ∈ (columnMap t idx column.columnID).2) :
    (columnMap t idx column.columnID).2[((columnMap t idx column.columnID).1.get?
      colIndex).getD 0]? = some column.columnID := by
  obtain ⟨hused, hplaces⟩ := columnMap_spec t idx column.columnID
  rw [hused, mem_map] at hmem
  obtain ⟨e, he, hid⟩ := hmem
  obtain ⟨p, hp⟩ := mem_iff_getElem?.mp he
  have hindex : (e.2 : ℤ) = colIndex := by
    obtain ⟨hpos, hcol⟩ := vectorAt_eq_ok.mp hcol
    have he' : t.columns[e.2]? = some e.1 :=
      mem_zipIdx_iff_getElem?.mp ((usedColumns_sublist t _ _).subset he)
    have := columnID_inj hids he' hcol hid
    omega
  rw [← hindex, hplaces p e hp, Option.getD_some, hused, getElem?_map, hp]
  exact congrArg some hid

end Columns

theorem FilterCall.value_of_equality {V A : Type} {tryConvertValue : ℤ → V → Option A}
    {call : FilterCall V} {values : List A} (hop : call.idxStr.head? = some Operator.eq.code)
    (hvalues : getVector tryConvertValue colIndex call.argv = some values) :
    ∃ v, values[0]? = some v := by
  cases hargv : call.argv with
  | nil =>
    have hnone : call.operators = [] := by
      rw [← length_eq_zero_iff, ← call.argc, hargv, length_nil]
    rw [FilterCall.idxStr, hnone] at hop
    exact absurd (Option.some.inj hop) (by decide)
  | cons a argv =>
    rw [getVector, hargv, mapM_cons, Option.bind_eq_bind, Option.bind_eq_some_iff] at hvalues
    obtain ⟨v, -, hvalues⟩ := hvalues
    obtain ⟨vs, -, hvalues⟩ := Option.bind_eq_some_iff.mp hvalues
    obtain rfl := Option.some.inj hvalues
    exact ⟨v, rfl⟩

/-! ### The range of a filter -/

section Ranges

variable {R A : Type} {t : Table} {colIndex idxNum : ℤ} {idx : List Char}
  {values values' : List A} {range : Range A}

theorem columnID_foldl_addBound (bounds : List (Char × A)) (range : Range A) :
    (bounds.foldl addBound range).columnID = range.columnID := by
  induction bounds generalizing range with
  | nil => rfl
  | cons e bounds ih =>
    rw [foldl_cons, ih]
    simp only [addBound]
    split_ifs <;> rfl

theorem createRange_column {isEquality : Bool}
    (h : createRange t colIndex idxNum idx values = .ok (range, isEquality)) :
    ∃ column, vectorAt t.columns colIndex = .ok column ∧ range.columnID = column.columnID := by
  obtain ⟨column, hcolumn, h⟩ := eq_ok_of_bind h
  refine ⟨column, hcolumn, ?_⟩
  cases values with
  | nil =>
    obtain ⟨rfl, -⟩ := Prod.mk.inj (Except.ok.inj h)
    rfl
  | cons v values =>
    simp only at h
    split_ifs at h
    · obtain ⟨rfl, -⟩ := Prod.mk.inj (Except.ok.inj h)
      rfl
    · obtain ⟨rfl, -⟩ := Prod.mk.inj (Except.ok.inj h)
      exact columnID_foldl_addBound _ _

theorem createRange_equality (h : createRange t colIndex idxNum idx values = .ok (range, true)) :
    idx.head? = some Operator.eq.code ∧ ∃ v, values[0]? = some v ∧
      range.start = some ⟨v, true⟩ ∧ range.stop = some ⟨v, true⟩ := by
  obtain ⟨column, hcolumn, h⟩ := eq_ok_of_bind h
  cases values with
  | nil => cases h
  | cons v values =>
    simp only at h
    split_ifs at h with hop
    · obtain ⟨rfl, -⟩ := Prod.mk.inj (Except.ok.inj h)
      exact ⟨hop, v, rfl, rfl, rfl⟩
    · cases h

theorem createRange_congr (h : createRange t colIndex idxNum idx values = .ok (range, true))
    (hvalue : values'[0]? = values[0]?) :
    createRange t colIndex idxNum idx values' = .ok (range, true) := by
  obtain ⟨hop, v, hv, -⟩ := createRange_equality h
  cases values with
  | nil => cases hv
  | cons v values =>
    cases values' with
    | nil => cases hvalue
    | cons v' values' =>
      obtain rfl : v' = v := Option.some.inj hvalue
      rw [← h]
      simp only [createRange, if_pos hop]

variable [LinearOrder A]

theorem admits_equality {v a : A} {limit : ℤ} (hstart : range.start = some ⟨v, true⟩)
    (hstop : range.stop = some ⟨v, true⟩) :
    (createQuery (R := R) range limit none).admits a = true ↔ a = v := by
  have hadmits : (createQuery (R := R) range limit none).admits a =
      (decide (v ≤ a) && decide (a ≤ v)) := by
    cases hasc : range.ascending <;>
      simp [createQuery, rangeToRangeRequest, admits, lowest,
        highest, RangeBound.lower, RangeBound.upper, hstart, hstop, hasc]
  rw [hadmits, Bool.and_eq_true, decide_eq_true_eq, decide_eq_true_eq]
  exact ⟨fun h => le_antisymm h.2 h.1, fun h => ⟨h.ge, h.le⟩⟩

theorem proper_equality {v : A} (limit : ℤ) (hstart : range.start = some ⟨v, true⟩)
    (hstop : range.stop = some ⟨v, true⟩) :
    (createQuery (R := R) range limit none).Proper ∧
      (createQuery (R := R) range limit none).bInclusive = true := by
  refine ⟨fun low hlow high hhigh => .inr ?_, ?_⟩
  · have hbounds : low = ⟨v, true⟩ ∧ high = ⟨v, true⟩ := by
      simp only [createQuery, rangeToRangeRequest, lowest, highest,
        hstart, hstop, ite_self, Option.mem_def, Option.some.injEq] at hlow hhigh
      exact ⟨hlow.symm, hhigh.symm⟩
    simp [hbounds]
  · simp [createQuery, rangeToRangeRequest, bInclusive, hstart]

end Ranges

/-! ### Standing in a page -/

def cellsOf {R A : Type} [LinearOrder R] [LinearOrder A] (text : RowText R A)
    (columns : ColumnID → Column R A) (range : Range A) : List (A × R) :=
  (createQuery range rowsPerQuery none).select ((columns range.columnID).pairs text)

namespace Cursor

section Pages

variable {R A : Type} [LinearOrder R] [LinearOrder A]

variable (text : RowText R A) (columns : ColumnID → Column R A) (M : ColumnID → R → Option A)

/-- The table serves the range of the cursor in pages of its cells. -/
structure Serving (c : Cursor R A) (cells : List (A × R)) : Prop where
  serves : (columns c.range.columnID).Serves text (createQuery c.range rowsPerQuery none) cells
    rowsPerQuery
  held : ∀ cell ∈ cells, M c.range.columnID cell.2 = some cell.1
  nodup : c.colUsed.Nodup
  /-- The values of the range column are where the cursor looks for them. -/
  place : c.colUsed[c.dataSetIndex c.colIndex]? = some c.range.columnID
  equality : c.isEquality = true → ∃ v, c.values[0]? = some v ∧ ∀ cell ∈ cells, cell.1 = v

/-- The page of the cursor starts at the cell `k`. -/
structure Window (c : Cursor R A) (cells : List (A × R)) (k : ℕ) : Prop where
  shows : c.set.Shows c.colUsed M (cells.drop k) rowsPerQuery
  first : c.needsReset = false ↔ k = 0

structure Located (c : Cursor R A) (cells : List (A × R)) (k : ℕ) : Prop
    extends c.Window M cells k where
  going : c.endOfFilter = false
  bounds : 0 ≤ c.index ∧ c.index < c.set.data.length

/-- The cursor has come to the end, with the last page or an empty one. -/
structure Ended (c : Cursor R A) (cells : List (A × R)) : Prop where
  ended : c.endOfFilter = true
  index : c.index = -1
  page : c.set.data = [] ∨ ∃ k, c.Window M cells k

/-- Only the page and the position change, and the page not without the flag. -/
def Moves (c c' : Cursor R A) : Prop :=
  ∃ set index endOfFilter needsReset,
    (needsReset = false → c.needsReset = false ∧ set = c.set) ∧
      c' = { c with
        set := set, index := index, endOfFilter := endOfFilter, needsReset := needsReset }

variable {text columns M} {c c' : Cursor R A} {cells : List (A × R)} {k : ℕ}

theorem Moves.serving (h : c.Moves c') (hs : c.Serving text columns M cells) :
    c'.Serving text columns M cells := by
  obtain ⟨_, _, _, _, -, rfl⟩ := h
  exact ⟨hs.serves, hs.held, hs.nodup, hs.place, hs.equality⟩

theorem Serving.valueAt (hs : c.Serving text columns M cells) {n i : ℕ}
    (hw : c.set.Shows c.colUsed M (cells.drop k) n) (hi : i < c.set.data.length) :
    ∃ cell, cells[k + i]? = some cell ∧ c.valueAt i = .ok cell.1 := by
  obtain ⟨row, hrow⟩ : ∃ row, c.set.data[i]? = some row := ⟨_, getElem?_eq_getElem hi⟩
  obtain ⟨cell, hcell, hrowOf⟩ := hw.row hrow
  rw [getElem?_drop] at hcell
  have hvalue : row.values[c.dataSetIndex c.colIndex]? = some (some cell.1) := by
    rw [show row.values = (rowOf c.colUsed M cell.2).values from congrArg _ hrowOf, rowOf,
      getElem?_map, hs.place, Option.map_some, hs.held cell (mem_of_getElem? hcell)]
  have hat : vectorAt c.set.data i = .ok row := vectorAt_eq_ok.mpr ⟨by omega, by simpa using hrow⟩
  refine ⟨cell, hcell, ?_⟩
  simp only [Cursor.valueAt, hat, bind, Except.bind, hvalue]

theorem Serving.checkValue (hs : c.Serving text columns M cells)
    (hl : c.Located M cells k) : c.checkValue = .ok c := by
  rw [Cursor.checkValue]
  split_ifs with heq hzero
  · obtain ⟨v, hv, hcells⟩ := hs.equality (by simp_all)
    obtain ⟨cell, hcell, hvalue⟩ := hs.valueAt hl.shows (i := 0) (by have := hl.bounds; omega)
    have hv' : vectorAt c.values 0 = .ok v := vectorAt_eq_ok.mpr ⟨le_refl _, hv⟩
    rw [Nat.cast_zero] at hvalue
    rw [hzero, hvalue, hv']
    simp [bind, Except.bind, hcells cell (mem_of_getElem? hcell)]
  · obtain ⟨v, -, hcells⟩ := hs.equality (by simp_all)
    obtain ⟨i, hi⟩ := Int.eq_ofNat_of_zero_le hl.bounds.1
    have hlt : i < c.set.data.length := by have := hl.bounds; omega
    obtain ⟨row, hrow⟩ : ∃ row, c.set.data[i]? = some row := ⟨_, getElem?_eq_getElem hlt⟩
    have hmark := hl.shows.marked v (fun cell hcell => hcells cell (mem_of_mem_drop hcell)) i
      row hrow
    have hat : vectorAt c.set.data c.index = .ok row :=
      vectorAt_eq_ok.mpr ⟨hl.bounds.1, by rw [hi]; simpa using hrow⟩
    rw [hat]
    simp [bind, Except.bind, hmark, show i ≠ 0 by omega]
  · rfl

omit [LinearOrder R] [LinearOrder A] in
theorem setPage_cases (c : Cursor R A) (page : Page R A) :
    0 < page.data.length ∧ c.setPage page =
        { c with set := page, index := 0, endOfFilter := false } ∨
      page.data = [] ∧ c.setPage page =
        { c with set := page, index := -1, endOfFilter := true } := by
  rw [setPage]
  split_ifs with h
  · exact .inl ⟨h, rfl⟩
  · exact .inr ⟨length_eq_zero_iff.mp (by omega), rfl⟩

variable {fetch : Range A → List ColumnID → Option R → Except Fault (Page R A)}

omit [LinearOrder R] in
theorem next_within (h : c.index + 1 < c.set.data.length) :
    c.next fetch = checkValue { c with index := c.index + 1 } := by
  rw [next, if_neg (show ¬ c.index + 1 = c.set.data.length by omega)]
  rfl

omit [LinearOrder R] in
theorem next_last (h : c.index + 1 = c.set.data.length) (hne : c.set.data.length ≠ 0)
    (hlim : c.set.limited = false) :
    c.next fetch = .ok { c with index := -1, endOfFilter := true } := by
  rw [next, if_pos h, getNextSet, if_neg hne, if_pos (by simp [hlim])]
  simp [bind, Except.bind, checkValue]

omit [LinearOrder R] in
theorem next_more {last : PageRow R A} (h : c.index + 1 = c.set.data.length)
    (hne : c.set.data.length ≠ 0) (hlim : c.set.limited = true)
    (hlast : vectorAt c.set.data c.index = .ok last) :
    c.next fetch = (do
      let page ← fetch c.range c.colUsed (some last.ID)
      (setPage { c with index := c.index + 1, needsReset := true } page).checkValue) := by
  have hsub : c.index + 1 - 1 = c.index := by omega
  rw [next, if_pos h, getNextSet, if_neg hne, if_neg (by simp [hlim])]
  simp only [hsub, hlast, bind, Except.bind]
  cases fetch c.range c.colUsed (some last.ID) <;> rfl

/-- **One step** of a cursor: to the next cell, or to the end behind the last
one. -/
theorem Serving.next (hM : ∀ c, (columns c).Holds text.encode (M c))
    (hs : c.Serving text columns M cells) (hl : c.Located M cells k) :
    ∃ c', c.next (Table.getRange text columns) = .ok c' ∧ c.Moves c' ∧
      ((∃ k', c'.Located M cells k' ∧ k' + c'.index.toNat = k + c.index.toNat + 1) ∨
        c'.Ended M cells ∧ cells.length = k + c.index.toNat + 1) := by
  obtain ⟨i, hi⟩ := Int.eq_ofNat_of_zero_le hl.bounds.1
  have hlt := hl.bounds.2
  have hlength := hl.shows.length
  rw [length_drop] at hlength
  rcases lt_or_eq_of_le (show c.index + 1 ≤ c.set.data.length by omega) with hwithin | hend
  · have hl' : Located M { c with index := c.index + 1 } cells k :=
      ⟨⟨hl.shows, hl.first⟩, hl.going, show 0 ≤ c.index + 1 by omega, hwithin⟩
    have hmoves : c.Moves { c with index := c.index + 1 } :=
      ⟨c.set, c.index + 1, c.endOfFilter, c.needsReset, fun h => ⟨h, rfl⟩, rfl⟩
    refine ⟨_, ?_, hmoves, .inl ⟨k, hl', ?_⟩⟩
    · rw [next_within hwithin]
      exact (hmoves.serving hs).checkValue hl'
    · show k + (c.index + 1).toNat = k + c.index.toNat + 1
      omega
  · have hne : c.set.data.length ≠ 0 := by omega
    cases hlim : c.set.limited with
    | false =>
      have hshort : c.set.data.length ≠ rowsPerQuery := fun heq => by
        rw [hl.shows.limited.mpr heq] at hlim
        cases hlim
      refine ⟨_, next_last hend hne hlim, ⟨c.set, -1, true, c.needsReset, fun h => ⟨h, rfl⟩, rfl⟩,
        .inr ⟨⟨rfl, rfl, .inr ⟨k, hl.shows, hl.first⟩⟩, ?_⟩⟩
      omega
    | true =>
      have hfull := hl.shows.limited.mp hlim
      obtain ⟨row, hrow⟩ : ∃ row, c.set.data[i]? = some row :=
        ⟨_, getElem?_eq_getElem (by omega)⟩
      obtain ⟨⟨a, r⟩, hcell, hrowOf⟩ := hl.shows.row hrow
      rw [getElem?_drop] at hcell
      have hat : vectorAt c.set.data c.index = .ok row :=
        vectorAt_eq_ok.mpr ⟨hl.bounds.1, by rw [hi]; simpa using hrow⟩
      have hID : row.ID = r := congrArg DataSetRow.ID hrowOf
      -- the cells are cut behind the last row of the page
      obtain ⟨hklt, hget⟩ := List.getElem?_eq_some_iff.mp hcell
      have hsplit : cells = cells.take (k + i) ++ (a, r) :: cells.drop (k + i + 1) := by
        rw [← hget, getElem_cons_drop, take_append_drop]
      obtain ⟨result, hok, hans⟩ := hs.serves.next _ a r _ hsplit
      obtain ⟨page, hpage, hshows⟩ := getRange_shows hM hs.nodup hok hans
        (fun cell hcell => hs.held cell (mem_of_mem_drop hcell))
        (mem_of_getElem? hs.place)
      have hfetch : Table.getRange text columns c.range c.colUsed (some row.ID) = .ok page := by
        rw [hID]
        exact hpage
      have hpagelength := hshows.length
      rw [length_drop] at hpagelength
      rw [next_more hend hne hlim hat, hfetch]
      simp only [bind, Except.bind]
      rcases setPage_cases { c with index := c.index + 1, needsReset := true } page with
        ⟨hpos, hset⟩ | ⟨hnil, hset⟩
      · have hl' : Located M (setPage
            { c with index := c.index + 1, needsReset := true } page) cells (k + i + 1) := by
          rw [hset]
          exact ⟨⟨hshows, by simp⟩, rfl, le_refl _, by simpa using hpos⟩
        have hmoves : c.Moves (setPage
            { c with index := c.index + 1, needsReset := true } page) := by
          rw [hset]
          exact ⟨page, 0, false, true, by simp, rfl⟩
        refine ⟨_, (hmoves.serving hs).checkValue hl', hmoves, .inl ⟨k + i + 1, hl', ?_⟩⟩
        rw [hset, hi]
        rfl
      · rw [hset]
        refine ⟨{ c with set := page, index := -1, endOfFilter := true, needsReset := true },
          by simp [Cursor.checkValue], ⟨page, -1, true, true, by simp, rfl⟩,
          .inr ⟨⟨rfl, rfl, .inl hnil⟩, ?_⟩⟩
        rw [hnil, length_nil] at hpagelength
        have hcut : cells.length - (k + i + 1) = 0 := by
          rw [rowsPerQuery] at hpagelength
          omega
        omega

omit [LinearOrder R] in
theorem readRows_ended (t : Table) (h : c.endOfFilter = true) (n : ℕ) :
    c.readRows t fetch n = ([], if n ≤ 0 then .more else .eof) := by
  cases n with
  | zero => rfl
  | succ n => simp [readRows, eof, h]

/-- **The rows from a cursor on** are those of the cells that are left. -/
theorem Serving.readRows (hM : ∀ c, (columns c).Holds text.encode (M c)) (t : Table)
    (hs : c.Serving text columns M cells) (hl : c.Located M cells k) (n : ℕ) :
    c.readRows t (Table.getRange text columns) n =
      (((cells.drop (k + c.index.toNat)).take n).map fun cell =>
          c.resultRow t (rowOf c.colUsed M cell.2),
        if n ≤ (cells.drop (k + c.index.toNat)).length then .more else .eof) := by
  induction n generalizing c k with
  | zero => simp [Cursor.readRows]
  | succ n ih =>
    obtain ⟨i, hi⟩ := Int.eq_ofNat_of_zero_le hl.bounds.1
    have hlt := hl.bounds.2
    obtain ⟨row, hrow⟩ : ∃ row, c.set.data[i]? = some row :=
      ⟨_, getElem?_eq_getElem (by omega)⟩
    obtain ⟨cell, hcell, hrowOf⟩ := hl.shows.row hrow
    rw [getElem?_drop] at hcell
    have hat : vectorAt c.set.data c.index = .ok row :=
      vectorAt_eq_ok.mpr ⟨hl.bounds.1, by rw [hi]; simpa using hrow⟩
    obtain ⟨hklt, hget⟩ := List.getElem?_eq_some_iff.mp hcell
    have hdrop : cells.drop (k + c.index.toNat) = cell :: cells.drop (k + c.index.toNat + 1) := by
      rw [hi, Int.toNat_natCast, ← hget, getElem_cons_drop]
    obtain ⟨c', hnext, hmoves, hplace⟩ := hs.next hM hl
    have hsame : c'.readRows t (Table.getRange text columns) n =
        (((cells.drop (k + c.index.toNat + 1)).take n).map fun cell =>
            c.resultRow t (rowOf c.colUsed M cell.2),
          if n ≤ (cells.drop (k + c.index.toNat + 1)).length then .more else .eof) := by
      rcases hplace with ⟨k', hl', hk'⟩ | ⟨hended, hlength⟩
      · rw [ih (hmoves.serving hs) hl', hk']
        obtain ⟨_, _, _, _, -, rfl⟩ := hmoves
        rfl
      · rw [readRows_ended t hended.ended, drop_of_length_le (by omega)]
        simp
    rw [Cursor.readRows, if_neg (by simp [eof, hl.going]), hat]
    simp only [hnext, hsame, hdrop, hrowOf, take_succ_cons, map_cons, length_cons,
      Nat.add_le_add_iff_right]

end Pages

/-! ### Filtered cursors -/

section Filtered

variable {R A : Type} [LinearOrder R] [LinearOrder A]

/-- The range and the columns of the cursor are those of its filter. -/
structure SetUp (t : Table) (c : Cursor R A) : Prop where
  used : c.initialUse = false
  column : c.colIndex = decodeColumn c.idxNum
  range : createRange t c.colIndex c.idxNum c.idxString c.values = .ok (c.range, c.isEquality)
  mapped : (c.colIndexToDataSetIndex, c.colUsed) = columnMap t c.idxString c.range.columnID

variable (text : RowText R A) (columns : ColumnID → Column R A) (M : ColumnID → R → Option A)

/-- What holds of a cursor after every call: where it stands, that its page is
the first one as long as it needs no reset, and that the page of an equality
is one of the pages of its value. -/
structure Running (t : Table) (c : Cursor R A) : Prop extends c.SetUp t where
  ended : c.endOfFilter = true ↔ c.index = -1
  bounds : -1 ≤ c.index ∧ c.index < c.set.data.length
  first : c.needsReset = false → Table.getRange text columns c.range c.colUsed none = .ok c.set
  page : c.isEquality = true → c.set.data ≠ [] →
    c.Serving text columns M (cellsOf text columns c.range) ∧
      ∃ k, c.Window M (cellsOf text columns c.range) k

def prepared (t : Table) (idxNum : ℤ) (idx : List Char) (values : List A) (range : Range A)
    (isEquality : Bool) : Cursor R A :=
  { range := range, initialUse := false, values := values, idxString := idx, idxNum := idxNum
    colIndex := decodeColumn idxNum
    colUsed := (columnMap t idx range.columnID).2
    colIndexToDataSetIndex := (columnMap t idx range.columnID).1
    isEquality := isEquality, needsReset := false }

def started (t : Table) (fetch : Range A → List ColumnID → Option R → Except Fault (Page R A))
    (idxNum : ℤ) (idx : List Char)
    (values : List A) : Except Fault (Cursor R A) := do
  let r ← createRange t (decodeColumn idxNum) idxNum idx values
  let page ← fetch r.1 (columnMap t idx r.1.columnID).2 none
  .ok ((prepared t idxNum idx values r.1 r.2).setPage page)

variable {text columns M} {t : Table} {c c' : Cursor R A} {idxNum : ℤ} {idx : List Char}
  {values : List A}

omit [LinearOrder R] [LinearOrder A] in
theorem Moves.setUp (h : c.Moves c') (hset : c.SetUp t) : c'.SetUp t := by
  obtain ⟨_, _, _, _, -, rfl⟩ := h
  exact ⟨hset.used, hset.column, hset.range, hset.mapped⟩

omit [LinearOrder R] [LinearOrder A] in
theorem restart_eq (fetch : Range A → List ColumnID → Option R → Except Fault (Page R A))
    (hcol : c.colIndex = decodeColumn idxNum) :
    c.restart t fetch idxNum idx values = started t fetch idxNum idx values := by
  simp only [restart, started, setRange, hcol, bind, Except.bind]
  cases createRange t (decodeColumn idxNum) idxNum idx values with
  | error f => rfl
  | ok r =>
    simp only [mapColumns, getNextSet, length_nil, if_true, bind, Except.bind]
    cases fetch r.1 (columnMap t idx r.1.columnID).2 none with
    | error f => rfl
    | ok page =>
      simp only [setPage, prepared]

theorem Running.setPage (hset : c.SetUp t) {page : Page R A}
    (hfirst : c.needsReset = false →
      Table.getRange text columns c.range c.colUsed none = .ok page)
    (hpage : c.isEquality = true → page.data ≠ [] →
      c.Serving text columns M (cellsOf text columns c.range) ∧
        ∃ k, page.Shows c.colUsed M ((cellsOf text columns c.range).drop k) rowsPerQuery ∧
          (c.needsReset = false ↔ k = 0)) :
    (c.setPage page).Running text columns M t := by
  rcases c.setPage_cases page with ⟨hpos, hc⟩ | ⟨hnil, hc⟩
  · rw [hc]
    refine ⟨⟨hset.used, hset.column, hset.range, hset.mapped⟩, by simp, ⟨by simp, by simpa using hpos⟩,
      hfirst, fun heq hne => ?_⟩
    obtain ⟨hs, k, hshows, hk⟩ := hpage heq hne
    exact ⟨⟨hs.serves, hs.held, hs.nodup, hs.place, hs.equality⟩, k, hshows, hk⟩
  · rw [hc]
    exact ⟨⟨hset.used, hset.column, hset.range, hset.mapped⟩, by simp, ⟨le_refl _, by simp [hnil]⟩,
      hfirst, fun _ hne => absurd hnil hne⟩

/-- The next row of a range. -/
theorem Running.next_range (h : c.Running text columns M t) (hgoing : c.endOfFilter = false)
    (hrange : c.isEquality = false) (hnext : c.next (Table.getRange text columns) = .ok c') :
    c'.Running text columns M t := by
  have hcheck : ∀ c : Cursor R A, c.isEquality = false → c.checkValue = .ok c := fun c hc => by
    simp [checkValue, hc]
  have hindex : 0 ≤ c.index := by
    have hne : c.index ≠ -1 := fun heq => by simp [h.ended.mpr heq] at hgoing
    have := h.bounds
    omega
  rcases lt_or_eq_of_le (show c.index + 1 ≤ c.set.data.length by have := h.bounds; omega) with
    hwithin | hend
  · rw [next_within hwithin, hcheck { c with index := c.index + 1 } hrange] at hnext
    obtain rfl := Except.ok.inj hnext
    refine ⟨⟨h.used, h.column, h.range, h.mapped⟩, ?_, ⟨?_, hwithin⟩, h.first, fun heq => ?_⟩
    · simp only [hgoing, Bool.false_eq_true, false_iff]
      omega
    · show -1 ≤ c.index + 1
      omega
    · simp [hrange] at heq
  · have hne : c.set.data.length ≠ 0 := by omega
    cases hlim : c.set.limited with
    | false =>
      rw [next_last hend hne hlim] at hnext
      obtain rfl := Except.ok.inj hnext
      refine ⟨⟨h.used, h.column, h.range, h.mapped⟩, by simp, ⟨le_refl _, ?_⟩, h.first,
        fun heq => ?_⟩
      · show -1 < (c.set.data.length : ℤ)
        omega
      · simp [hrange] at heq
    | true =>
      obtain ⟨last, hlast⟩ := vectorAt_isOk_iff.mpr ⟨hindex, h.bounds.2⟩
      rw [next_more hend hne hlim hlast] at hnext
      obtain ⟨page, -, hnext⟩ := eq_ok_of_bind hnext
      have hset : SetUp t { c with index := c.index + 1, needsReset := true } :=
        ⟨h.used, h.column, h.range, h.mapped⟩
      have hrunning : (Cursor.setPage
          { c with index := c.index + 1, needsReset := true } page).Running text columns M t :=
        .setPage hset (fun hreset => by cases hreset) fun heq => by simp [hrange] at heq
      rw [hcheck] at hnext
      · obtain rfl := Except.ok.inj hnext
        exact hrunning
      · rcases setPage_cases { c with index := c.index + 1, needsReset := true } page with
          ⟨-, hc⟩ | ⟨-, hc⟩ <;> rw [hc] <;> exact hrange

theorem Running.located (h : c.Running text columns M t) (hgoing : c.endOfFilter = false)
    (heq : c.isEquality = true) :
    c.Serving text columns M (cellsOf text columns c.range) ∧
      ∃ k, c.Located M (cellsOf text columns c.range) k := by
  have hindex : 0 ≤ c.index := by
    have hne : c.index ≠ -1 := fun heq => by simp [h.ended.mpr heq] at hgoing
    have := h.bounds
    omega
  have hne : c.set.data ≠ [] := fun hnil => by
    have := h.bounds.2
    rw [hnil, length_nil] at this
    omega
  obtain ⟨hs, k, hw⟩ := h.page heq hne
  exact ⟨hs, k, hw, hgoing, hindex, h.bounds.2⟩

section Served

variable (hM : ∀ c, (columns c).Holds text.encode (M c))

include hM

theorem mem_cellsOf {range : Range A}
    {cell : A × R} : cell ∈ cellsOf text columns range ↔
      M range.columnID cell.2 = some cell.1 ∧
        (createQuery (R := R) range rowsPerQuery none).admits cell.1 = true := by
  rw [cellsOf, select, mem_direct, mem_filter,
    Column.mem_pairs (hM range.columnID)]

theorem SetUp.serving (hids : (t.columns.map (·.columnID)).Nodup) (hset : c.SetUp t)
    (hserves : (columns c.range.columnID).Serves text (createQuery c.range rowsPerQuery none)
      (cellsOf text columns c.range) rowsPerQuery)
    (hmem : c.range.columnID ∈ c.colUsed)
    (hequality : c.isEquality = true →
      ∃ v, c.values[0]? = some v ∧ ∀ cell ∈ cellsOf text columns c.range, cell.1 = v) :
    c.Serving text columns M (cellsOf text columns c.range) := by
  obtain ⟨column, hcolumn, hid⟩ := createRange_column hset.range
  obtain ⟨hmap, hused⟩ := Prod.mk.inj hset.mapped
  refine ⟨hserves, fun cell hcell => ((mem_cellsOf hM).mp hcell).1, ?_, ?_, hequality⟩
  · rw [hused]
    exact nodup_colUsed hids _ _
  · rw [hused, hid] at hmem
    rw [dataSetIndex, hmap, hused, hid]
    exact place_of_mem hids hcolumn hmem

theorem Serving.first_page {cells : List (A × R)} (hs : c.Serving text columns M cells) :
    ∃ page, Table.getRange text columns c.range c.colUsed none = .ok page ∧
      page.Shows c.colUsed M cells rowsPerQuery := by
  obtain ⟨result, hok, hans⟩ := hs.serves.first
  exact getRange_shows hM hs.nodup hok hans hs.held (mem_of_getElem? hs.place)

theorem not_fetched
    (hserves : (columns c.range.columnID).Serves text (createQuery c.range rowsPerQuery none)
      (cellsOf text columns c.range) rowsPerQuery)
    (hmem : c.range.columnID ∉ c.colUsed) :
    (cellsOf text columns c.range ≠ [] →
      Table.getRange text columns c.range c.colUsed none = .error .outOfRange) ∧
    (cellsOf text columns c.range = [] →
      ∃ page, Table.getRange text columns c.range c.colUsed none = .ok page ∧ page.data = []) := by
  obtain ⟨result, hok, hans⟩ := hserves.first
  refine ⟨fun hne => getRange_unselected hM (by decide) hok hans hne hmem, fun hnil => ?_⟩
  rw [hnil] at hans
  exact getRange_nil hM hok hans

theorem SetUp.equality (hset : c.SetUp t) (heq : c.isEquality = true) :
    ∃ v, c.values[0]? = some v ∧ ∀ cell ∈ cellsOf text columns c.range, cell.1 = v := by
  have hrange := hset.range
  rw [heq] at hrange
  obtain ⟨-, v, hv, hstart, hstop⟩ := createRange_equality hrange
  exact ⟨v, hv, fun cell hcell => (admits_equality hstart hstop).mp ((mem_cellsOf hM).mp hcell).2⟩

/-- A page for an equality has all of its rows. -/
theorem SetUp.equality_page (hids : (t.columns.map (·.columnID)).Nodup) (hset : c.SetUp t)
    (heq : c.isEquality = true) {page : Page R A}
    (hpage : Table.getRange text columns c.range c.colUsed none = .ok page) (hne : page.data ≠ []) :
    c.Serving text columns M (cellsOf text columns c.range) ∧
      page.Shows c.colUsed M (cellsOf text columns c.range) rowsPerQuery := by
  have hrange := hset.range
  rw [heq] at hrange
  obtain ⟨-, v, hv, hstart, hstop⟩ := createRange_equality hrange
  obtain ⟨hproper, hinc⟩ := proper_equality (R := R) rowsPerQuery hstart hstop
  have hserves : (columns c.range.columnID).Serves text (createQuery c.range rowsPerQuery none)
      (cellsOf text columns c.range) rowsPerQuery := by
    refine (Column.serves (hM c.range.columnID) hproper hinc rfl (by decide)).resolve_right
      fun hfail => ?_
    have hfirst : (columns c.range.columnID).getRows text (createQuery c.range rowsPerQuery none) =
        .error .outOfRange := hfail none
    simp only [Table.getRange, getRange, hfirst, bind, Except.bind] at hpage
    cases hpage
  have hmem : c.range.columnID ∈ c.colUsed := by
    by_contra hmem
    obtain ⟨hfail, hnone⟩ := not_fetched hM hserves hmem
    by_cases hcells : cellsOf text columns c.range = []
    · obtain ⟨page', hpage', hnil⟩ := hnone hcells
      obtain rfl := ok_unique hpage hpage'
      exact hne hnil
    · rw [hfail hcells] at hpage
      cases hpage
  have hs := hset.serving hM hids hserves hmem fun _ => hset.equality hM heq
  obtain ⟨page', hpage', hshows⟩ := hs.first_page hM
  obtain rfl := ok_unique hpage hpage'
  exact ⟨hs, hshows⟩

/-- **A restart** leaves a cursor on the first page of its filter. -/
theorem Running.restart (hids : (t.columns.map (·.columnID)).Nodup)
    (hcol : c.colIndex = decodeColumn idxNum)
    (h : c.restart t (Table.getRange text columns) idxNum idx values = .ok c') :
    c'.Running text columns M t := by
  rw [restart_eq _ hcol] at h
  obtain ⟨⟨range, isEquality⟩, hrange, h⟩ := eq_ok_of_bind h
  obtain ⟨page, hpage, rfl⟩ := eq_ok_of_map h
  have hset : (prepared (R := R) t idxNum idx values range isEquality).SetUp t :=
    ⟨rfl, rfl, hrange, rfl⟩
  refine .setPage hset (fun _ => hpage) fun heq hne => ?_
  obtain ⟨hs, hshows⟩ := hset.equality_page hM hids heq hpage hne
  exact ⟨hs, 0, hshows, iff_of_true rfl rfl⟩

theorem Running.next_equality (h : c.Running text columns M t) (hgoing : c.endOfFilter = false)
    (heq : c.isEquality = true) (hnext : c.next (Table.getRange text columns) = .ok c') :
    c'.Running text columns M t := by
  obtain ⟨hs, k, hl⟩ := h.located hgoing heq
  obtain ⟨c'', hnext', hmoves, hplace⟩ := hs.next hM hl
  obtain rfl := ok_unique hnext hnext'
  have hs' := hmoves.serving hs
  have hset := hmoves.setUp h.toSetUp
  obtain ⟨set, index, ended, reset, hreset, rfl⟩ := hmoves
  have hfirst : reset = false → Table.getRange text columns c.range c.colUsed none = .ok set := by
    intro hr
    obtain ⟨hr', rfl⟩ := hreset hr
    exact h.first hr'
  rcases hplace with ⟨k', hl', -⟩ | ⟨hended, -⟩
  · have hgoing' : ended = false := hl'.going
    have hindex : 0 ≤ index := hl'.bounds.1
    refine ⟨hset, ?_, ⟨show -1 ≤ index by omega, hl'.bounds.2⟩, hfirst,
      fun _ _ => ⟨hs', k', hl'.toWindow⟩⟩
    show ended = true ↔ index = -1
    simp only [hgoing', Bool.false_eq_true, false_iff]
    omega
  · refine ⟨hset, iff_of_true hended.ended hended.index, ⟨hended.index.ge, ?_⟩, hfirst,
      fun _ hne => ⟨hs', hended.page.resolve_left hne⟩⟩
    have hindex := hended.index
    omega

theorem Running.next (h : c.Running text columns M t) (hgoing : c.endOfFilter = false)
    (hnext : c.next (Table.getRange text columns) = .ok c') : c'.Running text columns M t := by
  cases heq : c.isEquality with
  | false => exact h.next_range hgoing heq hnext
  | true => exact h.next_equality hM hgoing heq hnext

theorem Running.steps {k : ℕ} (h : c.Running text columns M t)
    (hok : Cursor.steps (Table.getRange text columns) k c = .ok c') :
    c'.Running text columns M t := by
  induction k generalizing c with
  | zero =>
    obtain rfl := Except.ok.inj hok
    exact h
  | succ k ih =>
    rw [Cursor.steps] at hok
    split_ifs at hok with heof
    · obtain rfl := Except.ok.inj hok
      exact h
    · obtain ⟨c₁, hnext, hok⟩ := eq_ok_of_bind hok
      exact ih (h.next hM (by simpa [eof] using heof) hnext) hok

end Served

end Filtered

/-! ### Looking for a value in the page -/

section Seek

variable {R A : Type} [LinearOrder A] {c : Cursor R A} {v value : A}

theorem seekLoop_none (hvalue : value ≠ v)
    (hat : ∀ i : ℕ, i < c.set.data.length → c.valueAt i = .ok v) (fuel : ℕ) {lo hi : ℤ}
    (hlo : 0 ≤ lo) (hhi : hi < c.set.data.length) : c.seekLoop value fuel lo hi = .ok none := by
  induction fuel generalizing lo hi with
  | zero => rfl
  | succ fuel ih =>
    rw [seekLoop]
    split_ifs with hle
    · obtain ⟨i, hi'⟩ := Int.eq_ofNat_of_zero_le (show 0 ≤ (lo + hi) / 2 by omega)
      simp only [hi', hat i (by omega), bind, Except.bind, if_neg hvalue]
      split_ifs
      · exact ih hlo (by omega)
      · exact ih (by omega) hhi
    · rfl

theorem seekIndex_none (hvalue : value ≠ v)
    (hat : ∀ i : ℕ, i < c.set.data.length → c.valueAt i = .ok v) :
    c.seekIndex value = .ok (-1) := by
  rw [seekIndex, seekLoop_none hvalue hat _ (le_refl 0) (by omega)]
  rfl

omit [LinearOrder A] in
theorem groupStart_eq_zero {data : List (PageRow R A)}
    (h : ∀ i row, data[i]? = some row → row.newGroup = (i == 0)) (lo : ℕ) :
    groupStart data lo = 0 := by
  induction lo with
  | zero => rfl
  | succ lo ih =>
    rw [groupStart, if_neg, ih]
    cases hrow : data[lo + 1]? with
    | none => simp
    | some row => simp [h _ _ hrow]

theorem seekIndex_zero (hne : c.set.data ≠ [])
    (hat : ∀ i : ℕ, i < c.set.data.length → c.valueAt i = .ok v)
    (hmarked : ∀ i row, c.set.data[i]? = some row → row.newGroup = (i == 0)) :
    c.seekIndex v = .ok 0 := by
  have hpos := length_pos_iff.mpr hne
  obtain ⟨i, hi⟩ := Int.eq_ofNat_of_zero_le
    (show (0 : ℤ) ≤ (0 + ((c.set.data.length : ℤ) - 1)) / 2 by omega)
  have hfound : c.seekLoop v (c.set.data.length + 1) 0 (c.set.data.length - 1) =
      .ok (some ((0 + ((c.set.data.length : ℤ) - 1)) / 2)) := by
    rw [seekLoop, if_pos (by omega)]
    simp only [hi, hat i (by omega), bind, Except.bind, if_true]
  rw [seekIndex, hfound]
  simp only [bind, Except.bind, groupStart_eq_zero hmarked]
  rfl

end Seek

/-! ### Filtering again -/

section Reuse

variable {R A : Type} [LinearOrder R] [LinearOrder A] {text : RowText R A}
  {columns : ColumnID → Column R A} {M : ColumnID → R → Option A} {t : Table} {c c' : Cursor R A}
  {values : List A} {v : A}

theorem Running.equality_page (h : c.Running text columns M t) (heq : c.isEquality = true)
    (hne : c.set.data ≠ []) :
    ∃ v, c.values[0]? = some v ∧ (∀ i : ℕ, i < c.set.data.length → c.valueAt i = .ok v) ∧
      ∀ i row, c.set.data[i]? = some row → row.newGroup = (i == 0) := by
  obtain ⟨hs, k, hw⟩ := h.page heq hne
  obtain ⟨v, hv, hcells⟩ := hs.equality heq
  refine ⟨v, hv, fun i hi => ?_, hw.shows.marked v fun cell hcell =>
    hcells cell (mem_of_mem_drop hcell)⟩
  obtain ⟨cell, hcell, hvalue⟩ := hs.valueAt hw.shows hi
  rw [hvalue, hcells cell (mem_of_getElem? hcell)]

/-- **An equality is filtered again**: it finds its last value, where the cursor
stands or at the start of the page, and no other. -/
theorem Running.reuse_equality (h : c.Running text columns M t) (heq : c.isEquality = true)
    (hv : values[0]? = some v) :
    c.reuse t c.idxNum c.idxString values =
      .ok (if c.values[0]? = some v ∧ c.set.data ≠ [] then
        some { c with index := max c.index 0, values := values, endOfFilter := false } else none) := by
  have hv' : vectorAt values 0 = .ok v := vectorAt_eq_ok.mpr ⟨le_refl _, hv⟩
  rw [Cursor.reuse, if_pos (by simp [h.used]), if_pos heq, hv']
  simp only [bind, Except.bind]
  by_cases hne : c.set.data = []
  · have hindex : c.index = -1 := by
      have hbounds := h.bounds
      rw [hne, length_nil] at hbounds
      omega
    have hpoints : c.pointsAt v = .ok false := by rw [pointsAt, if_neg (by omega)]
    have hseek : c.seekIndex v = .ok (-1) := by
      simp [seekIndex, hne, seekLoop, bind, Except.bind]
    simp [hpoints, hseek, hne]
  · obtain ⟨v₀, hv₀, hat, hmarked⟩ := h.equality_page heq hne
    have hpoints : c.pointsAt v = .ok (decide (0 ≤ c.index) && (v₀ == v)) := by
      rw [pointsAt]
      split_ifs with hindex
      · obtain ⟨i, hi⟩ := Int.eq_ofNat_of_zero_le hindex
        have hlt := h.bounds.2
        rw [hi, hat i (by omega)]
        simp [bind, Except.bind]
      · simp [hindex]
    rw [hpoints, hv₀]
    by_cases hvalue : v₀ = v
    · subst hvalue
      have hrange : createRange t c.colIndex c.idxNum c.idxString values =
          .ok (c.range, c.isEquality) := by
        have hrange := h.range
        rw [heq] at hrange ⊢
        exact createRange_congr hrange (hv.trans hv₀.symm)
      have hset : ∀ index : ℤ, setRange t
          { c with index := index, values := values, endOfFilter := false } =
            .ok { c with index := index, values := values, endOfFilter := false } := fun index => by
        simp only [setRange, hrange, bind, Except.bind]
      by_cases hindex : 0 ≤ c.index
      · simp [hindex, hset, hne]
      · simp [hindex, seekIndex_zero hne hat hmarked, hset, hne,
          max_eq_right (not_le.mp hindex).le]
    · have hseek := seekIndex_none (Ne.symm hvalue) hat
      simp [hvalue, hseek]

theorem Running.reuse_range (h : c.Running text columns M t) (hrange : c.isEquality = false) :
    c.reuse t c.idxNum c.idxString values =
      .ok (if c.values = values ∧ c.needsReset = false then some (c.setPage c.set) else none) := by
  rw [Cursor.reuse, if_pos (by simp [h.used]), if_neg (by simp [hrange])]
  simp only [Bool.not_eq_true']
  by_cases hsame : c.values = values ∧ c.needsReset = false
  · rw [if_pos hsame, if_pos hsame, Cursor.setPage]
    by_cases hpos : 0 < c.set.data.length <;> simp [hpos, hsame.2]
  · rw [if_neg hsame, if_neg hsame]

theorem Running.resume (h : c.Running text columns M t) (heq : c.isEquality = true)
    (hne : c.set.data ≠ []) (hvalues : values[0]? = c.values[0]?) :
    Running text columns M t
      { c with index := max c.index 0, values := values, endOfFilter := false } := by
  have hpos := length_pos_iff.mpr hne
  have hbounds := h.bounds
  obtain ⟨hs, hw⟩ := h.page heq hne
  refine ⟨⟨h.used, h.column, ?_, h.mapped⟩, ?_, ⟨?_, ?_⟩, h.first, fun _ _ => ⟨?_, ?_⟩⟩
  · have hrange := h.range
    rw [heq] at hrange
    show createRange t c.colIndex c.idxNum c.idxString values = .ok (c.range, c.isEquality)
    rw [heq]
    exact createRange_congr hrange hvalues
  · show false = true ↔ max c.index 0 = -1
    simp only [Bool.false_eq_true, false_iff]
    omega
  · show -1 ≤ max c.index 0
    omega
  · show max c.index 0 < c.set.data.length
    omega
  · refine ⟨hs.serves, hs.held, hs.nodup, hs.place, fun _ => ?_⟩
    obtain ⟨v, hv, hcells⟩ := hs.equality heq
    exact ⟨v, hvalues.trans hv, hcells⟩
  · obtain ⟨k, hw⟩ := hw
    exact ⟨k, hw.shows, hw.first⟩

/-- What is kept between two scans: only the column may have been changed, by a
call that has not got further. -/
def Kept (text : RowText R A) (columns : ColumnID → Column R A) (M : ColumnID → R → Option A)
    (t : Table) (c : Cursor R A) : Prop :=
  c.initialUse = true ∨
    Running text columns M t { c with colIndex := decodeColumn c.idxNum }

variable {V : Type} {tryConvertValue : ℤ → V → Option A}

variable {call : FilterCall V}

/-- The cursor has been filtered in the same way, up to the values. -/
def SameFilter (c : Cursor R A) (call : FilterCall V) : Prop :=
  c.initialUse = false ∧ c.idxNum = call.idxNum ∧ c.idxString = call.idxStr

omit [LinearOrder R] in
theorem reuse_other (h : ¬ c.SameFilter call) :
    reuse t { c with colIndex := colIndex } call.idxNum call.idxStr values = .ok none := by
  rw [reuse, if_neg]
  simpa [SameFilter] using h

theorem Kept.running (h : c.Kept text columns M t) (hsame : c.SameFilter call) :
    Running text columns M t { c with colIndex := decodeColumn call.idxNum } := by
  obtain ⟨hused, hnum, -⟩ := hsame
  rw [← hnum]
  exact h.resolve_left (by simp [hused])

def reused (c : Cursor R A) (values : List A) : Option (Cursor R A) :=
  if c.isEquality then
    if c.values[0]? = values[0]? ∧ c.set.data ≠ [] then
      some { c with index := max c.index 0, values := values, endOfFilter := false }
    else none
  else if c.values = values ∧ c.needsReset = false then some (c.setPage c.set)
  else none

theorem Running.reuse (h : c.Running text columns M t) (values : List A)
    (hvalue : c.isEquality = true → ∃ v, values[0]? = some v) :
    c.reuse t c.idxNum c.idxString values = .ok (c.reused values) := by
  by_cases heq : c.isEquality = true
  · obtain ⟨v, hv⟩ := hvalue heq
    rw [h.reuse_equality heq hv, Cursor.reused, if_pos heq, hv]
  · rw [h.reuse_range (by simpa using heq), Cursor.reused, if_neg heq]

theorem Kept.reuse (h : c.Kept text columns M t) (hsame : c.SameFilter call)
    (hvalues : getVector tryConvertValue (decodeColumn call.idxNum) call.argv = some values) :
    Cursor.reuse t { c with colIndex := decodeColumn call.idxNum } call.idxNum call.idxStr values =
      .ok (reused { c with colIndex := decodeColumn call.idxNum } values) := by
  have hrun := h.running hsame
  obtain ⟨-, hnum, hidx⟩ := hsame
  have hreuse := hrun.reuse values fun heq => by
    have hrange := hrun.range
    rw [heq] at hrange
    refine FilterCall.value_of_equality ?_ hvalues
    rw [← hidx]
    exact (createRange_equality hrange).1
  rw [← hidx]
  rw [← hnum] at hreuse ⊢
  exact hreuse

theorem Running.reused (h : c.Running text columns M t) (hreused : c.reused values = some c') :
    c'.Running text columns M t := by
  rw [Cursor.reused] at hreused
  split_ifs at hreused with heq hfound hsame
  · obtain rfl := Option.some.inj hreused
    exact h.resume heq hfound.2 hfound.1.symm
  · obtain rfl := Option.some.inj hreused
    exact .setPage h.toSetUp h.first fun heq' => absurd heq' heq

/-- **A filter** leaves a running cursor. -/
theorem Kept.filter (hM : ∀ c, (columns c).Holds text.encode (M c))
    (hids : (t.columns.map (·.columnID)).Nodup) (h : c.Kept text columns M t) {code : Code}
    (hok : c.filterBy t (Table.getRange text columns) tryConvertValue call = .ok (c', code)) :
    code = .ok ∧ c'.Running text columns M t ∨ code ≠ .ok ∧ c'.Kept text columns M t := by
  simp only [filterBy, Cursor.filter] at hok
  cases hvalues : getVector tryConvertValue (decodeColumn call.idxNum) call.argv with
  | none =>
    rw [hvalues] at hok
    obtain ⟨rfl, rfl⟩ := Prod.mk.inj (Except.ok.inj hok)
    exact .inr ⟨by simp, h⟩
  | some values =>
    rw [hvalues] at hok
    obtain ⟨reused, hreuse, hok⟩ := eq_ok_of_bind hok
    cases reused with
    | none =>
      obtain ⟨c₁, hrestart, hok⟩ := eq_ok_of_bind hok
      obtain ⟨rfl, rfl⟩ := Prod.mk.inj (Except.ok.inj hok)
      exact .inl ⟨rfl, .restart hM hids rfl hrestart⟩
    | some c₁ =>
      obtain ⟨rfl, rfl⟩ := Prod.mk.inj (Except.ok.inj hok)
      by_cases hsame : c.SameFilter call
      · rw [h.reuse hsame hvalues] at hreuse
        exact .inl ⟨rfl, (h.running hsame).reused (Except.ok.inj hreuse)⟩
      · rw [reuse_other hsame] at hreuse
        cases hreuse

theorem Running.kept (h : c.Running text columns M t) : c.Kept text columns M t := by
  refine .inr ?_
  rw [← h.column]
  exact h

theorem kept_of_run (hM : ∀ c, (columns c).Holds text.encode (M c))
    (hids : (t.columns.map (·.columnID)).Nodup) {history : List (Scan V)}
    (h : run t (Table.getRange text columns) tryConvertValue history = .ok c) :
    c.Kept text columns M t := by
  refine foldlM_preserves ?_ (.inl rfl) h
  intro c s c' hc hok
  obtain ⟨⟨c₁, code⟩, hfilter, hok⟩ := eq_ok_of_bind hok
  rcases hc.filter hM hids hfilter with ⟨rfl, hrun⟩ | ⟨hcode, hkept⟩
  · exact (hrun.steps hM hok).kept
  · simp only [if_neg hcode] at hok
    obtain rfl := Except.ok.inj hok
    exact hkept

/-! ### What a reused cursor shows -/

/-- The filter finds rows of its value, but not from the first one on: the last
scan has gone beyond the first row, or beyond the first page. -/
def Stale (tryConvertValue : ℤ → V → Option A) (c : Cursor R A) (call : FilterCall V) :
    Prop :=
  c.SameFilter call ∧ c.isEquality = true ∧ c.set.data ≠ [] ∧
    (c.needsReset = true ∨ 0 < c.index) ∧
    ∃ values, getVector tryConvertValue (decodeColumn call.idxNum) call.argv = some values ∧
      c.values[0]? = values[0]?

omit [LinearOrder R] in
theorem produce_restart {fetch : Range A → List ColumnID → Option R → Except Fault (Page R A)}
    (hvalues : getVector tryConvertValue (decodeColumn call.idxNum) call.argv = some values)
    (hreuse : reuse t { c with colIndex := decodeColumn call.idxNum } call.idxNum call.idxStr
      values = .ok none) (n : ℕ) :
    c.produce t fetch tryConvertValue call n =
      match started t fetch call.idxNum call.idxStr values with
      | .error fault => ([], .failed fault)
      | .ok c => c.readRows t fetch n := by
  have hrestart : restart t fetch { c with colIndex := decodeColumn call.idxNum } call.idxNum
      call.idxStr values = started t fetch call.idxNum call.idxStr values :=
    restart_eq fetch rfl
  simp only [produce, filterBy, filter, hvalues, hreuse, hrestart, bind,
    Except.bind]
  cases started t fetch call.idxNum call.idxStr values <;> rfl

omit [LinearOrder R] in
theorem produce_reused {fetch : Range A → List ColumnID → Option R → Except Fault (Page R A)}
    (hvalues : getVector tryConvertValue (decodeColumn call.idxNum) call.argv = some values)
    (hreuse : reuse t { c with colIndex := decodeColumn call.idxNum } call.idxNum call.idxStr
      values = .ok (some c')) (n : ℕ) :
    c.produce t fetch tryConvertValue call n = c'.readRows t fetch n := by
  simp only [produce, filterBy, filter, hvalues, hreuse, bind, Except.bind]

omit [LinearOrder R] [LinearOrder A] in
theorem SetUp.started (h : c.SetUp t)
    (fetch : Range A → List ColumnID → Option R → Except Fault (Page R A)) :
    Cursor.started t fetch c.idxNum c.idxString c.values = (do
      let page ← fetch c.range c.colUsed none
      .ok (setPage { c with needsReset := false } page)) := by
  have hmap : (columnMap t c.idxString c.range.columnID).1 = c.colIndexToDataSetIndex :=
    congrArg Prod.fst h.mapped.symm
  have hused : (columnMap t c.idxString c.range.columnID).2 = c.colUsed :=
    congrArg Prod.snd h.mapped.symm
  have hrange := h.range
  rw [h.column] at hrange
  simp only [Cursor.started, hrange, bind, Except.bind, hused]
  cases fetch c.range c.colUsed none with
  | error f => rfl
  | ok page => simp only [setPage, prepared, hused, hmap, ← h.column, ← h.used]

theorem Running.started_range (h : c.Running text columns M t) (hreset : c.needsReset = false) :
    started t (Table.getRange text columns) c.idxNum c.idxString c.values =
      .ok (c.setPage c.set) := by
  rw [h.started, h.first hreset]
  simp only [bind, Except.bind, ← hreset]

theorem SetUp.started_serving (hM : ∀ c, (columns c).Holds text.encode (M c)) (h : c.SetUp t)
    {cells : List (A × R)} (hs : c.Serving text columns M cells) :
    ∃ c₀, Cursor.started t (Table.getRange text columns) c.idxNum c.idxString c.values = .ok c₀ ∧
      ∀ n, c₀.readRows t (Table.getRange text columns) n =
        ((cells.take n).map fun cell => c.resultRow t (rowOf c.colUsed M cell.2),
          if n ≤ cells.length then .more else .eof) := by
  obtain ⟨page, hpage, hshows⟩ := hs.first_page hM
  refine ⟨_, by rw [h.started, hpage]; rfl, fun n => ?_⟩
  rcases setPage_cases { c with needsReset := false } page with ⟨hpos, hset⟩ | ⟨hnil, hset⟩
  · have hs₀ : Serving text columns M
        { c with set := page, index := 0, endOfFilter := false, needsReset := false } cells :=
      ⟨hs.serves, hs.held, hs.nodup, hs.place, hs.equality⟩
    have hl₀ : Located M
        { c with set := page, index := 0, endOfFilter := false, needsReset := false } cells 0 :=
      ⟨⟨hshows, iff_of_true rfl rfl⟩, rfl, le_refl _, by simpa using hpos⟩
    rw [hset, hs₀.readRows hM t hl₀]
    rfl
  · have hcells : cells = [] := by
      have hlength := hshows.length
      rw [hnil, length_nil, rowsPerQuery] at hlength
      exact length_eq_zero_iff.mp (by omega)
    rw [hset, readRows_ended t rfl, hcells]
    simp

omit [LinearOrder R] [LinearOrder A] in
theorem rows_eq_iff {B : Type} {cells : List (A × R)} {f : A × R → B} {j : ℕ} (hj : j < cells.length) :
    (∀ n, (((cells.drop j).take n).map f, if n ≤ (cells.drop j).length then Stop.more else .eof) =
      ((cells.take n).map f, if n ≤ cells.length then Stop.more else .eof)) ↔ j = 0 := by
  constructor
  · intro h
    have hlength := congrArg (fun rows => rows.1.length) (h cells.length)
    simp only [length_map, length_take, length_drop] at hlength
    omega
  · rintro rfl n
    rw [drop_zero]

theorem Running.resume_reads_iff (hM : ∀ c, (columns c).Holds text.encode (M c))
    (h : c.Running text columns M t) (heq : c.isEquality = true) (hgoing : c.endOfFilter = false) :
    (∀ n, c.readRows t (Table.getRange text columns) n =
      match started t (Table.getRange text columns) c.idxNum c.idxString c.values with
      | .error fault => ([], .failed fault)
      | .ok c => c.readRows t (Table.getRange text columns) n) ↔
        c.needsReset = false ∧ c.index = 0 := by
  obtain ⟨hs, k, hl⟩ := h.located hgoing heq
  have hbounds := hl.bounds
  have hlength := hl.shows.length
  rw [length_drop] at hlength
  obtain ⟨c₀, hstarted, hall⟩ := h.started_serving hM hs
  simp only [hstarted, hall, hs.readRows hM t hl]
  rw [rows_eq_iff (by omega), hl.first]
  omega

end Reuse

end Cursor

/-- **Reusing a cursor**: after any history of scans, a filter and the steps that
follow produce what they produce on a new cursor, exactly if the filter is not
an equality on the value of the last scan that has gone beyond the first row. -/
theorem filter_invisible_iff {V R A : Type} [LinearOrder R] [LinearOrder A] {text : RowText R A}
    {columns : ColumnID → Column R A} {M : ColumnID → R → Option A}
    (hM : ∀ c, (columns c).Holds text.encode (M c)) {t : Table}
    (hids : (t.columns.map (·.columnID)).Nodup) {tryConvertValue : ℤ → V → Option A}
    {history : List (Scan V)} {c : Cursor R A}
    (hrun : Cursor.run t (Table.getRange text columns) tryConvertValue history = .ok c)
    (call : FilterCall V) :
    (∀ n, c.produce t (Table.getRange text columns) tryConvertValue call n =
      Cursor.produce t (Table.getRange text columns) tryConvertValue {} call n) ↔
        ¬ c.Stale tryConvertValue call := by
  have hkept := Cursor.kept_of_run hM hids hrun
  cases hvalues : getVector tryConvertValue (decodeColumn call.idxNum) call.argv with
  | none =>
    -- the call returns before it looks at the cursor
    refine iff_of_true (fun n => ?_) ?_
    · simp only [Cursor.produce, Cursor.filterBy, Cursor.filter, hvalues]
    · rintro ⟨-, -, -, -, values, hvalues', -⟩
      rw [hvalues] at hvalues'
      cases hvalues'
  | some values =>
    have hnew : ∀ n, Cursor.produce t (Table.getRange text columns) tryConvertValue {} call n =
        match Cursor.started t (Table.getRange text columns) call.idxNum call.idxStr values with
        | .error fault => ([], .failed fault)
        | .ok c => c.readRows t (Table.getRange text columns) n :=
      Cursor.produce_restart hvalues (Cursor.reuse_other (by simp [Cursor.SameFilter]))
    by_cases hsame : c.SameFilter call
    · have hrunning := hkept.running hsame
      have hreuse := hkept.reuse hsame hvalues
      have hstart : ∀ values, Cursor.started t (Table.getRange text columns) call.idxNum
          call.idxStr values = Cursor.started t (Table.getRange text columns) c.idxNum c.idxString
            values := by
        rw [hsame.2.1, hsame.2.2]
        exact fun _ => rfl
      rw [Cursor.reused] at hreuse
      split_ifs at hreuse with heq hfound hrewind
      · -- the equality has found its value
        have hresumed := hrunning.resume heq hfound.2 hfound.1.symm
        have hiff := hresumed.resume_reads_iff hM heq rfl
        simp only [Cursor.produce_reused hvalues hreuse, hnew, hstart]
        rw [hiff]
        constructor
        · rintro ⟨hreset, hindex⟩ ⟨-, -, -, hgone, -⟩
          rcases hgone with hgone | hgone
          · exact absurd (hgone.symm.trans hreset) (by decide)
          · have hmax : max c.index 0 = 0 := hindex
            omega
        · intro hfresh
          have hgone : ¬ (c.needsReset = true ∨ 0 < c.index) := fun hgone =>
            hfresh ⟨hsame, heq, hfound.2, hgone, values, hvalues, hfound.1⟩
          rw [not_or] at hgone
          exact ⟨Bool.eq_false_iff.mpr hgone.1, max_eq_right (not_lt.mp hgone.2)⟩
      · -- another value
        refine iff_of_true (fun n => ?_) ?_
        · rw [Cursor.produce_restart hvalues hreuse, hnew]
        · rintro ⟨-, -, hne, -, values', hvalues', hvalue⟩
          obtain rfl := some_unique hvalues hvalues'
          exact hfound ⟨hvalue, hne⟩
      · -- a range from its first row on
        refine iff_of_true (fun n => ?_) fun hstale => heq hstale.2.1
        obtain ⟨rfl, hreset⟩ := hrewind
        rw [Cursor.produce_reused hvalues hreuse, hnew, hstart,
          show Cursor.started t _ c.idxNum c.idxString c.values = _ from
            hrunning.started_range hreset]
      · refine iff_of_true (fun n => ?_) fun hstale => heq hstale.2.1
        rw [Cursor.produce_restart hvalues hreuse, hnew]
    · refine iff_of_true (fun n => ?_) fun hstale => hsame hstale.1
      rw [Cursor.produce_restart hvalues (Cursor.reuse_other hsame), hnew]

def plainText : RowText ℤ ℤ := ⟨id, some, strictMono_id, by simp [eq_comm]⟩

def fiveTwice : TreeBuffer ℤ ℤ where
  rows := ⟨[(1, ()), (2, ())], by decide⟩
  values := ⟨[(5, ⟨[(1, ()), (2, ())], by decide⟩)], by decide⟩
  unique := 1
  total := 2

/-- `WHERE a = 5`. -/
def equalsFive : FilterCall ℤ := ⟨1, [.eq], 1, [5], rfl⟩

/-- The equality is left at its first row. -/
theorem filter_invisible_first : ∃ c : Cursor ℤ ℤ,
    Cursor.run oneColumn (Table.getRange plainText fun _ => .multi fiveTwice) (fun _ => some)
      [⟨equalsFive, 0⟩] = .ok c ∧
    ∀ n, c.produce oneColumn (Table.getRange plainText fun _ => .multi fiveTwice) (fun _ => some)
        equalsFive n =
      Cursor.produce oneColumn (Table.getRange plainText fun _ => .multi fiveTwice) (fun _ => some)
        {} equalsFive n := by
  -- the rows are what two cells leave in a new column
  have hcells : (Column.multi .new).apply plainText.encode ⟨[⟨1, 5⟩, ⟨2, 5⟩], []⟩ =
      .ok (.multi fiveTwice) := rfl
  have hnew : (Column.multi .new).Holds plainText.encode fun _ => none := TreeBuffer.holds_new
  obtain ⟨M, hM⟩ := Column.holds_of_apply hnew hcells
  obtain ⟨c, hrun, hfirst⟩ : ∃ c : Cursor ℤ ℤ,
      Cursor.run oneColumn (Table.getRange plainText fun _ => .multi fiveTwice) (fun _ => some)
        [⟨equalsFive, 0⟩] = .ok c ∧ ¬ (c.needsReset = true ∨ 0 < c.index) :=
    ⟨_, rfl, by decide +kernel⟩
  exact ⟨c, hrun, (filter_invisible_iff (fun _ => hM) (by decide) hrun equalsFive).mpr
    fun hstale => hfirst hstale.2.2.2.1⟩

/-- The equality is left at its second row. -/
theorem filter_second : ∃ c : Cursor ℤ ℤ,
    Cursor.run oneColumn (Table.getRange plainText fun _ => .multi fiveTwice) (fun _ => some)
      [⟨equalsFive, 1⟩] = .ok c ∧
    c.produce oneColumn (Table.getRange plainText fun _ => .multi fiveTwice) (fun _ => some)
        equalsFive 3 = ([⟨2, [some (some 5)]⟩], .eof) ∧
    Cursor.produce oneColumn (Table.getRange plainText fun _ => .multi fiveTwice) (fun _ => some)
        {} equalsFive 3 = ([⟨1, [some (some 5)]⟩, ⟨2, [some (some 5)]⟩], .eof) := by
  refine ⟨_, rfl, ?_, ?_⟩
  · decide +kernel
  · decide +kernel

end Fastore.Module
