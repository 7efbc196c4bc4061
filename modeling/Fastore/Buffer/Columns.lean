import Fastore.Buffer.Range

/-!
The column buffers over trees that keep their contract.

A buffer holds the cells of one column, at most one for each row. The four
kinds differ in how they index them: an identity column has only rows, a
unique column has one row for each value, and the column of `TreeBuffer`
has a tree of rows for each value. A unique column comes in two layouts
with the same code but for what the row index keeps: `UniqueInlineBuffer`
keeps the value, `UniqueBuffer` the leaf the value is in. Leaves are below
the contract; looking a value up through its leaf is taken to find it.

Changes are made by `apply`, all excludes before all includes.
-/

namespace Fastore.Buffer

open Lib Fastore.Tree

structure Cell (R A : Type) where
  rowID : R
  value : A
  deriving DecidableEq, Repr

/-- `ColumnWrites`. Of a cell to exclude only the row is ever read. -/
structure ColumnWrites (R A : Type) where
  includes : List (Cell R A) := []
  excludes : List R := []
  deriving DecidableEq, Repr

structure Statistic where
  total : ℤ
  unique : ℤ
  deriving DecidableEq, Repr

variable {P R A X : Type} [LinearOrder R] [LinearOrder A]

def pointee : Option A → Except Fault A
  | some key => .ok key
  | none => .error .nullKey

/-! ### Walking a tree of single rows -/

/-- The loop of `GetRows` over a tree with one row to an entry, with the start
row as long as it is looked for. -/
def scanLoop (m : SortedMap A X) (row : A × X → R) (range : RangeRequest A R) (stop : ℕ) :
    ℕ → ℕ → Option R → RangeResult A R → Except Fault (RangeResult A R)
  | 0, _, _, _ => .error .stackOverflow
  | fuel + 1, begin, startId, result =>
    if begin = stop ∨ result.limited then .ok result
    else do
      let begin ← moveBefore range.ascending begin
      let e ← deref m begin
      if startId = some (row e) then
        let begin ← moveAfter m range.ascending begin
        scanLoop m row range stop fuel begin none { result with bof := false }
      else
        let vrl := result.valueRowsList ++ [⟨e.1, [row e]⟩]
        let begin ← moveAfter m range.ascending begin
        scanLoop m row range stop fuel begin startId
          { result with valueRowsList := vrl, limited := decide ((vrl.length : ℤ) = range.limit) }

def RangeResult.resetEof (result : RangeResult A R) : RangeResult A R :=
  if result.limited && result.eof then { result with eof := false } else result

def scanRows (m : SortedMap A X) (row : A × X → R) (range : RangeRequest A R)
    (startKey : Option A) : Except Fault (RangeResult A R) := do
  let s ← setUp m range startKey
  let result ← scanLoop m row range s.stop (m.size + 1) s.begin range.rowID s.result
  .ok result.resetEof

/-- The key a request starts at: the value of its row. For a row without a value this is
the null pointer, which is only looked for in an empty tree without being read. -/
def startKeyOf (empty : Bool) (getValue : R → Except Fault (Option A))
    (range : RangeRequest A R) : Except Fault (Option A) :=
  match range.rowID with
  | some startId => do
    let value ← getValue startId
    if empty then .ok value
    else do
      let key ← pointee value
      .ok (some key)
  | none => .ok none

section StartKey

variable {empty : Bool} {getValue : R → Except Fault (Option A)} {range : RangeRequest A R}

omit [LinearOrder R] [LinearOrder A] in
theorem startKeyOf_none (h : range.rowID = none) : startKeyOf empty getValue range = .ok none := by
  rw [startKeyOf, h]

omit [LinearOrder R] [LinearOrder A] in
theorem startKeyOf_some {r : R} {a : A} (h : range.rowID = some r)
    (hget : getValue r = .ok (some a)) : startKeyOf empty getValue range = .ok (some a) := by
  simp only [startKeyOf, h, hget, pointee, bind, Except.bind, ite_self]

end StartKey

/-! ### IdentityBuffer -/

structure IdentityBuffer (R : Type) [LinearOrder R] where
  rows : SortedMap R Unit
  count : ℤ
  deriving DecidableEq

namespace IdentityBuffer

def new : IdentityBuffer R := ⟨.empty, 0⟩

def getStatistic (b : IdentityBuffer R) : Statistic := ⟨b.count, b.count⟩

def getValue (b : IdentityBuffer R) (rowId : R) : Option R :=
  if (getPath b.rows rowId).2 then some rowId else none

def includeRow (b : IdentityBuffer R) (rowId : R) : IdentityBuffer R × Bool :=
  if (getPath b.rows rowId).2 then (b, false)
  else (⟨b.rows.insert rowId (), b.count + 1⟩, true)

def excludeRow (b : IdentityBuffer R) (rowId : R) : IdentityBuffer R × Bool :=
  let rowpath := getPath b.rows rowId
  if !rowpath.2 then (b, false)
  else (⟨b.rows.eraseAt rowpath.1, b.count - 1⟩, true)

def applyIncludes : IdentityBuffer R → List (Cell R R) → Except Fault (IdentityBuffer R)
  | b, [] => .ok b
  | b, cell :: cells =>
    if cell.value ≠ cell.rowID then
      .error (.thrown "Identity buffer requires the rowId and value to be the same")
    else applyIncludes (b.includeRow cell.rowID).1 cells

def apply (b : IdentityBuffer R) (writes : ColumnWrites R R) : Except Fault (IdentityBuffer R) :=
  applyIncludes (writes.excludes.foldl (fun b rowId => (b.excludeRow rowId).1) b) writes.includes

def getRows (b : IdentityBuffer R) (range : RangeRequest R R) : Except Fault (RangeResult R R) :=
  scanRows b.rows Prod.fst range range.rowID

def pairs (b : IdentityBuffer R) : List (R × R) := b.rows.keys.map fun r => (r, r)

end IdentityBuffer

/-! ### UniqueInlineBuffer and UniqueBuffer -/

/-- The two indexes of a unique column, with `P` kept for a row. -/
structure UniqueIndex (P R A : Type) [LinearOrder R] [LinearOrder A] where
  rows : SortedMap R P
  values : SortedMap A R
  count : ℤ
  deriving DecidableEq

namespace UniqueIndex

def new : UniqueIndex P R A := ⟨.empty, .empty, 0⟩

def getStatistic (b : UniqueIndex P R A) : Statistic := ⟨b.count, b.count⟩

def includeRow (b : UniqueIndex P R A) (rowId : R) (value : A) (payload : P) :
    UniqueIndex P R A × Bool :=
  if (getPath b.rows rowId).2 then (b, false)
  else if (getPath b.values value).2 then (b, false)
  else (⟨b.rows.insert rowId payload, b.values.insert value rowId, b.count + 1⟩, true)

/-- `Exclude(rowId, value)`. -/
def excludeRow (b : UniqueIndex P R A) (rowId : R) (value : Option A) :
    Except Fault (UniqueIndex P R A × Bool) :=
  let rowpath := getPath b.rows rowId
  if !rowpath.2 then .ok (b, false)
  else do
    let value ← pointee value
    let path := getPath b.values value
    if path.2 then
      let existing ← deref b.values path.1
      if rowId = existing.2 then
        .ok (⟨b.rows.eraseAt rowpath.1, b.values.eraseAt path.1, b.count - 1⟩, true)
      else .ok (b, false)
    else .ok (b, false)

def applyExcludes (getValue : UniqueIndex P R A → R → Except Fault (Option A)) :
    UniqueIndex P R A → List R → Except Fault (UniqueIndex P R A)
  | b, [] => .ok b
  | b, rowId :: rowIds => do
    let val ← getValue b rowId
    let (b, _) ← b.excludeRow rowId val
    applyExcludes getValue b rowIds

def pairs (b : UniqueIndex P R A) : List (A × R) := b.values.entries

end UniqueIndex

abbrev UniqueInlineBuffer (R A : Type) [LinearOrder R] [LinearOrder A] := UniqueIndex A R A

namespace UniqueInlineBuffer

def getValue (b : UniqueInlineBuffer R A) (rowId : R) : Except Fault (Option A) :=
  let (i, isMatch) := findNearest b.rows rowId
  if isMatch then do
    let e ← deref b.rows i
    .ok (some e.2)
  else .ok none

def includeRow (b : UniqueInlineBuffer R A) (cell : Cell R A) : UniqueInlineBuffer R A :=
  (UniqueIndex.includeRow b cell.rowID cell.value cell.value).1

def apply (b : UniqueInlineBuffer R A) (writes : ColumnWrites R A) :
    Except Fault (UniqueInlineBuffer R A) := do
  let b ← UniqueIndex.applyExcludes getValue b writes.excludes
  .ok (writes.includes.foldl includeRow b)

def getRows (b : UniqueInlineBuffer R A) (range : RangeRequest A R) :
    Except Fault (RangeResult A R) := do
  let startKey ← startKeyOf (b.values.size = 0) (getValue b) range
  scanRows b.values Prod.snd range startKey

end UniqueInlineBuffer

abbrev UniqueBuffer (R A : Type) [LinearOrder R] [LinearOrder A] := UniqueIndex Unit R A

namespace UniqueBuffer

def getValue (b : UniqueBuffer R A) (rowId : R) : Except Fault (Option A) :=
  let (_, isMatch) := findNearest b.rows rowId
  if isMatch then
    match b.values.entries.find? (·.2 = rowId) with
    | some e => .ok (some e.1)
    | none => .error (.thrown "Value not found in Node!")
  else .ok none

def includeRow (b : UniqueBuffer R A) (cell : Cell R A) : UniqueBuffer R A :=
  (UniqueIndex.includeRow b cell.rowID cell.value ()).1

def apply (b : UniqueBuffer R A) (writes : ColumnWrites R A) :
    Except Fault (UniqueBuffer R A) := do
  let b ← UniqueIndex.applyExcludes getValue b writes.excludes
  .ok (writes.includes.foldl includeRow b)

def getRows (b : UniqueBuffer R A) (range : RangeRequest A R) :
    Except Fault (RangeResult A R) := do
  let startKey ← startKeyOf (b.values.size = 0) (getValue b) range
  scanRows b.values Prod.snd range startKey

end UniqueBuffer

/-! ### TreeBuffer -/

structure TreeBuffer (R A : Type) [LinearOrder R] [LinearOrder A] where
  rows : SortedMap R Unit
  values : SortedMap A (SortedMap R Unit)
  unique : ℤ
  total : ℤ
  deriving DecidableEq

namespace TreeBuffer

def new : TreeBuffer R A := ⟨.empty, .empty, 0, 0⟩

def getStatistic (b : TreeBuffer R A) : Statistic := ⟨b.total, b.unique⟩

def getValue (b : TreeBuffer R A) (rowId : R) : Except Fault (Option A) :=
  let (_, isMatch) := findNearest b.rows rowId
  if isMatch then
    match b.values.entries.find? fun kt => (getPath kt.2 rowId).2 with
    | some e => .ok (some e.1)
    | none => .error (.thrown "Value not found in Node!")
  else .ok none

/-- `Include`. The tree of a value is changed in place. -/
def includeRow (b : TreeBuffer R A) (rowId : R) (value : A) : Except Fault (TreeBuffer R A × Bool) :=
  if (getPath b.rows rowId).2 then .ok (b, false)
  else
    let path := getPath b.values value
    if path.2 then do
      let existing ← deref b.values path.1
      .ok (⟨b.rows.insert rowId (), b.values.insert value (existing.2.insert rowId ()), b.unique,
        b.total + 1⟩, true)
    else
      let newRows : SortedMap R Unit := SortedMap.empty.insert rowId ()
      .ok (⟨b.rows.insert rowId (), b.values.insert value newRows, b.unique + 1, b.total + 1⟩, true)

/-- `Exclude(value, rowId)`. -/
def excludeValue (b : TreeBuffer R A) (value : Option A) (rowId : R) :
    Except Fault (TreeBuffer R A × Bool) :=
  let rowpath := getPath b.rows rowId
  if !rowpath.2 then .ok (b, false)
  else do
    let value ← pointee value
    let path := getPath b.values value
    if path.2 then
      let existing ← deref b.values path.1
      let keypath := getPath existing.2 rowId
      let existing := existing.2.eraseAt keypath.1
      let values := b.values.insert value existing
      let (values, unique) :=
        if existing.size = 0 then (values.eraseAt path.1, b.unique - 1) else (values, b.unique)
      .ok (⟨b.rows.eraseAt rowpath.1, values, unique, b.total - 1⟩, true)
    else .ok (b, false)

/-- `Exclude(rowId)`. -/
def excludeRow (b : TreeBuffer R A) (rowId : R) : Except Fault (TreeBuffer R A × Bool) := do
  let val ← b.getValue rowId
  b.excludeValue val rowId

def applyExcludes : TreeBuffer R A → List R → Except Fault (TreeBuffer R A)
  | b, [] => .ok b
  | b, rowId :: rowIds => do
    let (b, _) ← b.excludeRow rowId
    applyExcludes b rowIds

def applyIncludes : TreeBuffer R A → List (Cell R A) → Except Fault (TreeBuffer R A)
  | b, [] => .ok b
  | b, cell :: cells => do
    let (b, _) ← b.includeRow cell.rowID cell.value
    applyIncludes b cells

def apply (b : TreeBuffer R A) (writes : ColumnWrites R A) : Except Fault (TreeBuffer R A) := do
  let b ← b.applyExcludes writes.excludes
  b.applyIncludes writes.includes

/-- The inner loop of `GetRows`, with the rows of one value, the number of
rows so far and whether the limit is reached. -/
def rowsLoop (rows : SortedMap R Unit) (range : RangeRequest A R) (idEnd : ℕ) :
    ℕ → ℕ → List R → ℕ → Bool → Except Fault (List R × ℕ × Bool)
  | 0, _, _, _, _ => .error .stackOverflow
  | fuel + 1, idStart, rowIds, num, limited =>
    if idStart = idEnd ∨ limited then .ok (rowIds, num, limited)
    else do
      let idStart ← moveBefore range.ascending idStart
      let e ← deref rows idStart
      let rowIds := rowIds ++ [e.1]
      let idStart ← moveAfter rows range.ascending idStart
      rowsLoop rows range idEnd fuel idStart rowIds (num + 1)
        (decide (((num + 1 : ℕ) : ℤ) = range.limit))

def idStartAt (rows : SortedMap R Unit) (range : RangeRequest A R) (startId : Option R) :
    Except Fault ℕ :=
  match startId with
  | some startId =>
    let idStart := find rows startId
    if idStart ≠ rows.size then moveIf rows range.ascending idStart
    else .error (.thrown "Start id not found in given value")
  | none => .ok (if range.ascending then 0 else rows.size)

def valuesLoop (m : SortedMap A (SortedMap R Unit)) (range : RangeRequest A R) (stop : ℕ) :
    ℕ → ℕ → Option R → ℕ → RangeResult A R → Except Fault (RangeResult A R)
  | 0, _, _, _, _ => .error .stackOverflow
  | fuel + 1, begin, startId, num, result =>
    if begin = stop ∨ result.limited then .ok result
    else do
      let begin ← moveBefore range.ascending begin
      let e ← deref m begin
      let idEnd := if range.ascending then e.2.size else 0
      let idStart ← idStartAt e.2 range startId
      let bof := if startId.isSome then false else result.bof
      let (rowIds, num, limited) ←
        rowsLoop e.2 range idEnd (e.2.size + 1) idStart [] num result.limited
      let vrl :=
        if 0 < rowIds.length then result.valueRowsList ++ [⟨e.1, rowIds⟩]
        else result.valueRowsList
      let begin ← moveAfter m range.ascending begin
      valuesLoop m range stop fuel begin none num
        { result with valueRowsList := vrl, bof := bof, limited := limited }

def valuesRows (m : SortedMap A (SortedMap R Unit)) (range : RangeRequest A R)
    (startKey : Option A) : Except Fault (RangeResult A R) := do
  let s ← setUp m range startKey
  let result ← valuesLoop m range s.stop (m.size + 1) s.begin range.rowID 0 s.result
  .ok result.resetEof

def getRows (b : TreeBuffer R A) (range : RangeRequest A R) : Except Fault (RangeResult A R) := do
  let startKey ← startKeyOf (b.values.size = 0) b.getValue range
  valuesRows b.values range startKey

def pairs (b : TreeBuffer R A) : List (A × R) :=
  b.values.entries.flatMap fun e => e.2.keys.map fun r => (e.1, r)

end TreeBuffer

end Fastore.Buffer
