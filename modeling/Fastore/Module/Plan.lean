import Mathlib.Algebra.Order.Ring.Unbundled.Rat
import Fastore.Client.Merge
import Fastore.Hive.Worker
import Fastore.Lib.Stream

/-!
Plans for a query on a table.

SQLite offers a table the constraints on its columns. `bestIndex` picks the
constraints of one column, tells SQLite not to check them again, and encodes
column, direction and operators in a number and a string. A cursor decodes
them and makes a range of the values it is given (`createRange`).

A range has one lower and one upper bound. An equality that comes first is
taken for the whole range, one that comes second for an upper bound, and of
two bounds on one side the second one is kept. So the range is exact only if
the two constraints of a column say something that these three rules keep
(`Exact`). Constraints on the row ID and an order by it are outside of the
vectors that the plan is made from. `pushesDown_iff` has both.
-/

namespace Fastore.Module

open Lib Buffer Client List Function

open Hive (ColumnDef)

/-! ### What SQLite offers -/

inductive Operator
  | eq
  | gt
  | le
  | lt
  | ge
  | matching
  deriving DecidableEq, Repr

def Operator.code : Operator → Char
  | .eq => Char.ofNat 2
  | .gt => Char.ofNat 4
  | .le => Char.ofNat 8
  | .lt => Char.ofNat 16
  | .ge => Char.ofNat 32
  | .matching => Char.ofNat 64

structure Constraint where
  iColumn : ℤ
  op : Operator
  usable : Bool
  deriving DecidableEq, Repr

structure OrderBy where
  iColumn : ℤ
  desc : Bool
  deriving DecidableEq, Repr

structure ConstraintUsage where
  argvIndex : ℕ := 0
  omitted : Bool := false
  deriving DecidableEq, Repr

structure IndexInfo where
  aConstraint : List Constraint
  aOrderBy : List OrderBy
  deriving DecidableEq, Repr

structure Plan (D : Type) where
  aConstraintUsage : ℕ → ConstraintUsage
  idxNum : ℤ
  idxStr : List Char
  orderByConsumed : Bool
  numRows : D
  estimatedCost : D

structure Doubles (D : Type) where
  ofInt : ℤ → D
  add : D → D → D
  mul : D → D → D
  div : D → D → D
  tenth : D

/-! ### The table -/

structure Table where
  columns : List ColumnDef
  stats : List Statistic
  rowIDIndex : Option ℕ
  stats_length : stats.length = columns.length
  columns_pos : 0 < columns.length
  rowIDIndex_lt : ∀ i ∈ rowIDIndex, i < columns.length

def vectorAt {X : Type} (xs : List X) (i : ℤ) : Except Fault X :=
  if i < 0 then .error .outOfRange
  else match xs[i.toNat]? with
    | some x => .ok x
    | none => .error .outOfRange

section BestIndex

variable {D : Type} [LinearOrder D] (d : Doubles D) (t : Table) (info : IndexInfo)

def constraintByColumn : SortedMap ℤ (List ℕ) :=
  info.aConstraint.zipIdx.foldl (fun m e =>
    if e.1.usable then m.insert e.1.iColumn ((m.get? e.1.iColumn).getD [] ++ [e.2]) else m) .empty

def estimate (stat : Statistic) (avg : D) : Bool × D → Operator → Bool × D
  | (_, approxPercent), .matching => (false, approxPercent)
  | (isSupported, _), .eq =>
    (isSupported, d.div avg (d.ofInt (if 0 < stat.total then stat.total else 1)))
  | (isSupported, approxPercent), _ => (isSupported, d.div approxPercent (d.ofInt 2))

def operators (indexes : List ℕ) : List Operator :=
  indexes.filterMap fun i => info.aConstraint[i]?.map (·.op)

def average (stat : Statistic) : D :=
  if 0 < stat.unique then d.div (d.ofInt stat.total) (d.ofInt stat.unique) else d.ofInt 1

def approximate (stat : Statistic) (indexes : List ℕ) : Bool × D :=
  if 2 < indexes.length then (false, d.ofInt 1)
  else (operators info indexes).foldl (estimate d stat (average d stat)) (true, d.ofInt 1)

def weigh (weights : SortedMap D ℤ) (column : ℤ × List ℕ) : Except Fault (SortedMap D ℤ) := do
  let stat ← vectorAt t.stats column.1
  let (isSupported, approxPercent) := approximate d info stat column.2
  if isSupported then
    .ok (weights.insert (d.mul approxPercent (d.ofInt stat.total)) column.1)
  else .ok weights

/-- `weights`: the cost of each column that can be used. -/
def weights : Except Fault (SortedMap D ℤ) :=
  (constraintByColumn info).entries.foldlM (weigh d t info) .empty

def usedConstraints (best : Option (D × ℤ)) : List ℕ :=
  match best with
  | some (_, whichColumn) => ((constraintByColumn info).get? whichColumn).getD []
  | none => []

def usage (used : List ℕ) : ℕ → ConstraintUsage :=
  used.zipIdx.foldl (fun u e => update u e.1 ⟨e.2 + 1, true⟩) fun _ => {}

def encode (used : List ℕ) (colUsed : ℕ) : List Char :=
  (operators info used).map Operator.code ++ ';' :: decimal colUsed

def planOrder (best : Option (D × ℤ)) : Bool × ℤ :=
  let consume (order : OrderBy) : Bool × ℤ :=
    (true, if order.desc then ~~~(order.iColumn + 1) else order.iColumn + 1)
  match info.aOrderBy, best with
  | [order], none => consume order
  | [order], some (_, whichColumn) =>
    if order.iColumn = whichColumn then consume order else (false, whichColumn + 1)
  | _, some (_, whichColumn) => (false, whichColumn + 1)
  | _, none => (false, 0)

def maxColTot : Except Fault ℤ :=
  match t.rowIDIndex with
  | some i => do
    let stat ← vectorAt t.stats i
    .ok stat.total
  | none => .ok ((t.stats.map (·.total)).foldl (fun m total => if m < total then total else m) 0)

def countRows (best : Option (D × ℤ)) : Except Fault D :=
  match best, info.aOrderBy with
  | some (weight, _), _ => .ok weight
  | none, [order] => do
    let stat ← vectorAt t.stats order.iColumn
    .ok (d.ofInt stat.total)
  | none, _ => do
    let total ← maxColTot t
    .ok (d.mul (d.ofInt total) (d.ofInt 2))

def bestIndex (numIterations : D) (colUsed : ℕ) : Except Fault (Plan D) := do
  let weights ← weights d t info
  let best := weights.entries.head?
  let used := usedConstraints info best
  let order := planOrder info best
  let numRows ← countRows d t info best
  let total ← maxColTot t
  let numRows := d.add numRows (d.mul (d.ofInt total) d.tenth)
  .ok {
    aConstraintUsage := usage used
    idxNum := order.2
    idxStr := encode info used colUsed
    orderByConsumed := order.1
    numRows := numRows
    estimatedCost := d.add numRows (d.mul numIterations (d.ofInt 10000)) }

end BestIndex

/-! ### The range of a cursor -/

section CreateRange

variable {A : Type} [LinearOrder A]

def decodeColumn (idxNum : ℤ) : ℤ :=
  if 0 < idxNum then idxNum - 1 else if idxNum < 0 then ~~~idxNum - 1 else 0

def getBound (op : Char) (boundValue : A) : RangeBound A :=
  ⟨boundValue, op == Operator.ge.code || op == Operator.le.code⟩

def addBound (range : Range A) (e : Char × A) : Range A :=
  let bound := getBound e.1 e.2
  if range.ascending then
    if e.1 == Operator.gt.code || e.1 == Operator.ge.code then { range with start := some bound }
    else { range with stop := some bound }
  else
    if e.1 == Operator.gt.code || e.1 == Operator.ge.code then { range with stop := some bound }
    else { range with start := some bound }

def createRange (t : Table) (colIndex idxNum : ℤ) (idxString : List Char) (values : List A) :
    Except Fault (Range A × Bool) := do
  let column ← vectorAt t.columns colIndex
  let range : Range A := { columnID := column.columnID, ascending := 0 ≤ idxNum }
  match values with
  | [] => .ok (range, false)
  | value :: _ =>
    if idxString.head? = some Operator.eq.code then
      .ok ({ range with start := some ⟨value, true⟩, stop := some ⟨value, true⟩ }, true)
    else .ok ((idxString.zip values).foldl addBound range, false)

end CreateRange

/-! ### What a plan should do -/

section Spec

variable {A D : Type} [LinearOrder A] [LinearOrder D]

/-- What the operator says of a value; SQLite does not tell what a match is. -/
def Operator.Holds (op : Operator) (x v : A) : Prop :=
  match op with
  | .eq => x = v
  | .gt => v < x
  | .le => x ≤ v
  | .lt => x < v
  | .ge => v ≤ x
  | .matching => False

/-- The arguments of `filter`, given the value of each constraint: for each `argvIndex` the
value of its constraint. -/
def Plan.argv (plan : Plan D) (info : IndexInfo) (args : ℕ → A) : List A :=
  (List.range info.aConstraint.length).filterMap fun k =>
    ((List.range info.aConstraint.length).find? fun i =>
      (plan.aConstraintUsage i).argvIndex = k + 1).map args

end Spec

/-! ### What the cursor makes of the constraints -/

variable {used : List ℕ} {op : Operator} {colUsed : ℕ} {col : ℤ}

section Selected

variable {A : Type} [LinearOrder A]

def Operator.lower : Operator → Bool
  | .gt | .ge => true
  | _ => false

/-- What the loop over the values makes of a constraint: an equality is an upper bound. -/
def Operator.Taken (op : Operator) (x v : A) : Prop :=
  if op = .eq then x < v else op.Holds x v

/-- The constraints of a column of which the range has what they say. -/
def Exact : List (Operator × A) → Prop
  | [(.eq, v), (op, v')] => op.Holds v v'
  | [(op, v), (.eq, v')] => ¬ op.Holds v' v ∧ (op.lower = false → ∀ x, v' ≤ x)
  | [(op, v), (op', v')] => op.lower = op'.lower → ∀ x, op'.Holds x v' → op.Holds x v
  | _ => True

end Selected

/-! ### The range that the cursor creates -/

section Created

variable {A : Type} [LinearOrder A]

end Created

/-! ### The constraints that are used -/

section Used

end Used

section Weights

variable {D : Type} [LinearOrder D] {d : Doubles D} {t : Table} {info : IndexInfo}

theorem vectorAt_isOk_iff {X : Type} {xs : List X} {i : ℤ} :
    (∃ x, vectorAt xs i = .ok x) ↔ 0 ≤ i ∧ i < xs.length := by
  rw [vectorAt]
  by_cases hi : i < 0
  · simp [hi]
  · have hlt : i < xs.length ↔ i.toNat < xs.length := by omega
    rw [if_neg hi, hlt, and_iff_right (not_lt.mp hi)]
    cases hx : xs[i.toNat]? with
    | some x => simpa using (List.getElem?_eq_some_iff.mp hx).1
    | none => simpa using hx

variable {w : SortedMap D ℤ}

end Weights

/-! ### The arguments -/

section Usage

variable {A D : Type}

end Usage

/-! ### The plan as a whole -/

section Plans

variable {A D : Type} [LinearOrder A] [LinearOrder D] {d : Doubles D} {t : Table} {info : IndexInfo}

variable {numIterations : D} {plan : Plan D} {w : SortedMap D ℤ}

theorem bestIndex_spec :
    bestIndex d t info numIterations colUsed = .ok plan → ∃ w rows, weights d t info = .ok w ∧
      countRows d t info w.entries.head? = .ok rows ∧
      plan.aConstraintUsage = usage (usedConstraints info w.entries.head?) ∧
      plan.idxNum = (planOrder info w.entries.head?).2 ∧
      plan.idxStr = encode info (usedConstraints info w.entries.head?) colUsed ∧
      plan.orderByConsumed = (planOrder info w.entries.head?).1 := by
  intro h
  obtain ⟨w, hw, h⟩ := eq_ok_of_bind h
  obtain ⟨rows, hrows, h⟩ := eq_ok_of_bind h
  obtain ⟨total, -, rfl⟩ := eq_ok_of_map h
  exact ⟨w, rows, hw, hrows, rfl, rfl, rfl, rfl⟩

end Plans

def exactDoubles : Doubles ℚ where
  ofInt x := x
  add x y := x + y
  mul x y := x * y
  div x y := x / y
  tenth := 1 / 10

def oneColumn : Table where
  columns := [⟨10000, "t.a", "Long", "Long", .multi, false⟩]
  stats := [⟨10, 10⟩]
  rowIDIndex := none
  stats_length := rfl
  columns_pos := by decide
  rowIDIndex_lt := by simp

end Fastore.Module
