import Fastore.Tree.Map
import Fastore.Buffer.Columns

/-!
The column buffers with their trees in memory.

`IdentityBuffer` has a tree of its rows, `UniqueInlineBuffer` a tree of the
values by row and a tree of the rows by value. The other two find the value
of a row through a leaf: `UniqueBuffer` and `TreeBuffer` keep for every row
the address of the leaf of their value tree that has the value of the row,
and look the value up in that leaf. The callback of the value
tree writes the new address of every value that an insertion has moved to
another leaf. The code calls it in the middle of the insertion; as it
touches the row tree only, the calls are collected and made at its end.
-/

namespace Fastore.Index

open Fastore.Tree Buffer

variable {R A X : Type} [LinearOrder R] [LinearOrder A]

def iteratorValue (t : BTree A X) (it : Iterator) : Except Fault X := do
  let e ← it.get t
  match e.2 with
  | some value => .ok value
  | none => .error .nullValues

def getValue (rows : BTree R NodeId) (values : BTree A X) (rowId : R)
    (predicate : X → Except Fault Bool) : Except Fault (Option A) := do
  let (iterator, isMatch) ← rows.findNearest rowId
  if isMatch then
    let leaf ← iteratorValue rows iterator
    let l ← values.leafAt leaf
    let key ← l.getKey predicate
    .ok (some key)
  else .ok none

/-- The end of `Include` for a value that is new: the row is given the leaf
the path leads to, and the callback corrects what the insertion moves. -/
def insertBoth (rows : BTree R NodeId) (values : BTree A X) (rowpath path : Path) (rowId : R)
    (value : A) (x : X) (valuesMoved : BTree R NodeId → X × NodeId → Except Fault (BTree R NodeId)) :
    Except Fault (BTree R NodeId × BTree A X) := do
  let (rows, _) ← rows.insert rowpath rowId path.leaf
  let (values, moved) ← values.insert path value x
  let rows ← moved.foldlM valuesMoved rows
  .ok (rows, values)

inductive Write (R A : Type)
  | exclude (rowId : R)
  | put (cell : Cell R A)

def writesOf (writes : ColumnWrites R A) : List (Write R A) :=
  writes.excludes.map .exclude ++ writes.includes.map .put

/-! ### IdentityBuffer -/

structure IdentityBuffer (R : Type) [LinearOrder R] where
  rows : BTree R R
  count : ℤ

namespace IdentityBuffer

def getValue (b : IdentityBuffer R) (rowId : R) : Except Fault (Option R) := do
  let path ← b.rows.getPath rowId
  .ok (if path.isMatch then some rowId else none)

def includeRow (b : IdentityBuffer R) (rowId : R) : Except Fault (IdentityBuffer R × Bool) := do
  let rowpath ← b.rows.getPath rowId
  if rowpath.isMatch then .ok (b, false)
  else
    let (rows, _) ← b.rows.insert rowpath rowId rowId
    .ok (⟨rows, b.count + 1⟩, true)

def excludeRow (b : IdentityBuffer R) (rowId : R) : Except Fault (IdentityBuffer R × Bool) := do
  let rowpath ← b.rows.getPath rowId
  if !rowpath.isMatch then .ok (b, false)
  else
    let rows ← b.rows.delete rowpath
    .ok (⟨rows, b.count - 1⟩, true)

def write (rowText : R → A) (b : IdentityBuffer R) : Write R A → Except Fault (IdentityBuffer R)
  | .exclude rowId => do
    let (b, _) ← b.excludeRow rowId
    .ok b
  | .put cell =>
    if cell.value ≠ rowText cell.rowID then
      .error (.thrown "Identity buffer requires the rowId and value to be the same")
    else do
      let (b, _) ← b.includeRow cell.rowID
      .ok b

end IdentityBuffer

/-! ### UniqueInlineBuffer -/

structure UniqueInlineBuffer (R A : Type) [LinearOrder R] [LinearOrder A] where
  rowType : ScalarType R
  rows : BTree R A
  values : BTree A R
  count : ℤ

namespace UniqueInlineBuffer

def getValue (b : UniqueInlineBuffer R A) (rowId : R) : Except Fault (Option A) := do
  let (iterator, isMatch) ← b.rows.findNearest rowId
  if isMatch then
    let value ← iteratorValue b.rows iterator
    .ok (some value)
  else .ok none

def includeRow (b : UniqueInlineBuffer R A) (rowId : R) (value : A) :
    Except Fault (UniqueInlineBuffer R A × Bool) := do
  let rowpath ← b.rows.getPath rowId
  if rowpath.isMatch then .ok (b, false)
  else
    let path ← b.values.getPath value
    if path.isMatch then .ok (b, false)
    else
      let (rows, _) ← b.rows.insert rowpath rowId value
      let (values, _) ← b.values.insert path value rowId
      .ok ({ b with rows := rows, values := values, count := b.count + 1 }, true)

/-- `Exclude(rowId, value)`. -/
def excludeValue (b : UniqueInlineBuffer R A) (rowId : R) (value : Option A) :
    Except Fault (UniqueInlineBuffer R A × Bool) := do
  let rowpath ← b.rows.getPath rowId
  if !rowpath.isMatch then .ok (b, false)
  else
    let value ← pointee value
    let path ← b.values.getPath value
    if path.isMatch then
      let existing ← b.values.valueAt path
      if b.rowType.compare rowId existing = 0 then
        let values ← b.values.delete path
        let rows ← b.rows.delete rowpath
        .ok ({ b with rows := rows, values := values, count := b.count - 1 }, true)
      else .ok (b, false)
    else .ok (b, false)

def write (b : UniqueInlineBuffer R A) : Write R A → Except Fault (UniqueInlineBuffer R A)
  | .exclude rowId => do
    let val ← b.getValue rowId
    let (b, _) ← b.excludeValue rowId val
    .ok b
  | .put cell => do
    let (b, _) ← b.includeRow cell.rowID cell.value
    .ok b

end UniqueInlineBuffer

/-! ### UniqueBuffer -/

structure UniqueBuffer (R A : Type) [LinearOrder R] [LinearOrder A] where
  rowType : ScalarType R
  rows : BTree R NodeId
  values : BTree A R
  count : ℤ

namespace UniqueBuffer

def getValue (b : UniqueBuffer R A) (rowId : R) : Except Fault (Option A) :=
  Index.getValue b.rows b.values rowId fun foundId =>
    .ok (decide (b.rowType.compare rowId foundId = 0))

def valuesMoved (rows : BTree R NodeId) (moved : R × NodeId) : Except Fault (BTree R NodeId) := do
  let result ← rows.getPath moved.1
  if result.isMatch then rows.setValue result moved.2 else .ok rows

def includeRow (b : UniqueBuffer R A) (rowId : R) (value : A) :
    Except Fault (UniqueBuffer R A × Bool) := do
  let rowpath ← b.rows.getPath rowId
  if rowpath.isMatch then .ok (b, false)
  else
    let path ← b.values.getPath value
    if path.isMatch then .ok (b, false)
    else
      let (rows, values) ←
        insertBoth b.rows b.values rowpath path rowId value rowId valuesMoved
      .ok ({ b with rows := rows, values := values, count := b.count + 1 }, true)

/-- `Exclude(rowId, value)`. -/
def excludeValue (b : UniqueBuffer R A) (rowId : R) (value : Option A) :
    Except Fault (UniqueBuffer R A × Bool) := do
  let rowpath ← b.rows.getPath rowId
  if !rowpath.isMatch then .ok (b, false)
  else
    let value ← pointee value
    let path ← b.values.getPath value
    if path.isMatch then
      let existing ← b.values.valueAt path
      if b.rowType.compare rowId existing = 0 then
        let values ← b.values.delete path
        let rows ← b.rows.delete rowpath
        .ok ({ b with rows := rows, values := values, count := b.count - 1 }, true)
      else .ok (b, false)
    else .ok (b, false)

/-- `Exclude(rowId)`. -/
def excludeRow (b : UniqueBuffer R A) (rowId : R) : Except Fault (UniqueBuffer R A × Bool) := do
  let val ← b.getValue rowId
  b.excludeValue rowId val

def write (b : UniqueBuffer R A) : Write R A → Except Fault (UniqueBuffer R A)
  | .exclude rowId => do
    let (b, _) ← b.excludeRow rowId
    .ok b
  | .put cell => do
    let (b, _) ← b.includeRow cell.rowID cell.value
    .ok b

def new (rowType : ScalarType R) (valueType : ScalarType A) (rawRows : NodeId → ℕ → R)
    (rawLeaves rawNodes : NodeId → ℕ → NodeId) (rawValues : NodeId → ℕ → A) : UniqueBuffer R A where
  rowType := rowType
  rows := BTree.new rowType false rawRows rawLeaves rawNodes
  values := BTree.new valueType false rawValues rawRows rawNodes
  count := 0

end UniqueBuffer

/-! ### TreeBuffer -/

abbrev TreeId := ℕ

structure TreeBuffer (R A : Type) [LinearOrder R] [LinearOrder A] where
  rowType : ScalarType R
  rows : BTree R NodeId
  values : BTree A TreeId
  /-- The trees by address. -/
  trees : TreeId → Option (BTree R R)
  /-- The first address never handed out. -/
  nextTree : TreeId
  /-- What the arrays of a tree happen to hold, by its address. -/
  rawRows : TreeId → NodeId → ℕ → R
  rawNodes : TreeId → NodeId → ℕ → NodeId
  unique : ℤ
  total : ℤ

namespace TreeBuffer

def treeAt (trees : TreeId → Option (BTree R R)) (x : TreeId) : Except Fault (BTree R R) :=
  match trees x with
  | some t => .ok t
  | none => .error .wildNode

def getValue (b : TreeBuffer R A) (rowId : R) : Except Fault (Option A) :=
  Index.getValue b.rows b.values rowId fun kt => do
    let t ← treeAt b.trees kt
    let p ← t.getPath rowId
    .ok p.isMatch

def rowMoved (leaf : NodeId) (rowId : R) (rows : BTree R NodeId) : Except Fault (BTree R NodeId) := do
  let result ← rows.getPath rowId
  if result.isMatch then rows.setValue result leaf
  else
    .error (.thrown "Attempted to update reverse index and found a value in the forward index that didn't exist in the reverse")

def valuesMoved (trees : TreeId → Option (BTree R R)) (rows : BTree R NodeId)
    (moved : TreeId × NodeId) : Except Fault (BTree R NodeId) := do
  let existingValues ← treeAt trees moved.1
  existingValues.forEach (rowMoved moved.2) rows

def includeRow (b : TreeBuffer R A) (rowId : R) (value : A) :
    Except Fault (TreeBuffer R A × Bool) := do
  let rowpath ← b.rows.getPath rowId
  if rowpath.isMatch then .ok (b, false)
  else
    let path ← b.values.getPath value
    if path.isMatch then
      let existing ← b.values.valueAt path
      let t ← treeAt b.trees existing
      let t ← t.apply (.insert rowId rowId)
      let (rows, _) ← b.rows.insert rowpath rowId path.leaf
      .ok ({ b with
        rows := rows
        trees := Function.update b.trees existing (some t)
        total := b.total + 1 }, true)
    else
      let newRows := BTree.new b.rowType true (b.rawRows b.nextTree) (b.rawRows b.nextTree)
        (b.rawNodes b.nextTree)
      let newRows ← newRows.apply (.insert rowId rowId)
      let trees := Function.update b.trees b.nextTree (some newRows)
      let (rows, values) ←
        insertBoth b.rows b.values rowpath path rowId value b.nextTree (valuesMoved trees)
      .ok ({ b with
        rows := rows
        values := values
        trees := trees
        nextTree := b.nextTree + 1
        unique := b.unique + 1
        total := b.total + 1 }, true)

/-- `Exclude(value, rowId)`. A tree that is left empty is released with its
entry. -/
def excludeValue (b : TreeBuffer R A) (value : Option A) (rowId : R) :
    Except Fault (TreeBuffer R A × Bool) := do
  let rowpath ← b.rows.getPath rowId
  if !rowpath.isMatch then .ok (b, false)
  else
    let value ← pointee value
    let path ← b.values.getPath value
    if path.isMatch then
      let existing ← b.values.valueAt path
      let t ← treeAt b.trees existing
      let t ← t.apply (.delete rowId)
      let (values, trees, unique) ←
        (if t.count = 0 then do
          let values ← b.values.delete path
          .ok (values, Function.update b.trees existing none, b.unique - 1)
        else .ok (b.values, Function.update b.trees existing (some t), b.unique) :
          Except Fault (BTree A TreeId × (TreeId → Option (BTree R R)) × ℤ))
      let rows ← b.rows.delete rowpath
      .ok ({ b with
        rows := rows
        values := values
        trees := trees
        unique := unique
        total := b.total - 1 }, true)
    else .ok (b, false)

/-- `Exclude(rowId)`. -/
def excludeRow (b : TreeBuffer R A) (rowId : R) : Except Fault (TreeBuffer R A × Bool) := do
  let val ← b.getValue rowId
  b.excludeValue val rowId

def write (b : TreeBuffer R A) : Write R A → Except Fault (TreeBuffer R A)
  | .exclude rowId => do
    let (b, _) ← b.excludeRow rowId
    .ok b
  | .put cell => do
    let (b, _) ← b.includeRow cell.rowID cell.value
    .ok b

def apply (b : TreeBuffer R A) (writes : ColumnWrites R A) : Except Fault (TreeBuffer R A) :=
  (writesOf writes).foldlM write b

def new (rowType : ScalarType R) (valueType : ScalarType A) (rawRows : TreeId → NodeId → ℕ → R)
    (rawLeaves : NodeId → ℕ → NodeId) (rawTrees : NodeId → ℕ → TreeId)
    (rawNodes : TreeId → NodeId → ℕ → NodeId) (rawValues : NodeId → ℕ → A) : TreeBuffer R A where
  rowType := rowType
  rows := BTree.new rowType false (rawRows 0) rawLeaves (rawNodes 0)
  values := BTree.new valueType false rawValues rawTrees (rawNodes 0)
  trees _ := none
  nextTree := 0
  rawRows := rawRows
  rawNodes := rawNodes
  unique := 0
  total := 0

end TreeBuffer

end Fastore.Index
