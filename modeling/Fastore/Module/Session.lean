import Fastore.Module.Cursor

/-!
Tables in use.

SQLite writes a row with `update`. The first argument is the row to delete,
the second one the new row ID, and the others are the values of the new
row. A value that is NULL gives no cell. In a transaction the cells go to
its log; otherwise they are written at once, and nothing is deleted, since
the `exclude` of a database has no body.

The old row is deleted before the values of the new one are looked at. So an
update that is refused has deleted it, unless there was nothing to delete
(`update_atomic_iff`).
-/

namespace Fastore.Module

open Lib Buffer Client Function

open Hive (ColumnDef)

/-- What a table makes of a value of SQLite: `sqlite3_value_int64`, also of NULL,
and `tryConvertValue`. -/
structure Values (V R A : Type) where
  int64 : Option V → R
  tryConvertValue : ℤ → V → Option A

structure Session (R A : Type) [LinearOrder R] [LinearOrder A] where
  columns : ColumnID → Column R A
  transaction : Option (Transaction R A) := none

def Table.columnIds (t : Table) : List ColumnID := t.columns.map (·.columnID)

section Model

variable {V R A : Type} [LinearOrder R] [LinearOrder A]

/-- `convertValues`, for the columns with their indexes: the cells of the row, or
the code that is returned. -/
def convertValues (tryConvertValue : ℤ → V → Option A) (argv : List (Option V)) :
    List (ColumnDef × ℕ) → Except Fault (Except Code (List (ColumnID × A)))
  | [] => .ok (.ok [])
  | (column, i) :: columns => do
    let pValue ← vectorAt argv (i + 2)
    match pValue with
    | some value =>
      match tryConvertValue i value with
      | some value => do
        let cells ← convertValues tryConvertValue argv columns
        .ok (cells.map ((column.columnID, value) :: ·))
      | none => .ok (.error .mismatch)
    | none =>
      if column.required then .ok (.error .constraint)
      else convertValues tryConvertValue argv columns

def includeCells (text : RowText R A) (rowId : R) (cells : List (ColumnID × A))
    (columns : ColumnID → Column R A) : Except Fault (ColumnID → Column R A) :=
  cells.foldlM (fun columns cell => do
    let column ← ofBuffer ((columns cell.1).apply text.encode ⟨[⟨rowId, cell.2⟩], []⟩)
    .ok (update columns cell.1 column)) columns

namespace Session

variable (env : Env R A) (text : RowText R A) (t : Table) (sqlite : Values V R A)

def commit (s : Session R A) : Except Fault (Session R A) :=
  match s.transaction with
  | none => .ok s
  | some transaction => do
    let columns ← t.columnIds.foldlM (fun columns c => do
      let column ← transaction.commit env (Column.apply text.encode) columns c
      .ok (update columns c column)) s.columns
    .ok { columns := columns }

def exclude (s : Session R A) (rowId : R) : Except Fault (Session R A) :=
  match s.transaction with
  | some transaction => do
    let transaction ← transaction.excludeRow env rowId t.columnIds
    .ok { s with transaction := some transaction }
  | none => .ok s

def includeRow (s : Session R A) (rowId : R) (cells : List (ColumnID × A)) :
    Except Fault (Session R A) :=
  match s.transaction with
  | some transaction => do
    let transaction ← transaction.includeRow env (cells.map Prod.fst) rowId (cells.map Prod.snd)
    .ok { s with transaction := some transaction }
  | none => do
    let columns ← includeCells text rowId cells s.columns
    .ok { s with columns := columns }

/-- The ID of the new row: the one that SQLite supplies, the value of the identity
column, or a new one. -/
def newRowId (argv : List (Option V)) (generated : R) : Except Fault R := do
  let supplied ← vectorAt argv 1
  match supplied, t.rowIDIndex with
  | some value, _ => .ok (sqlite.int64 (some value))
  | none, some i => do
    let value ← vectorAt argv (2 + i)
    .ok (sqlite.int64 value)
  | none, none => .ok generated

def deleteRow (s : Session R A) (oldRowId : Option V) : Except Fault (Session R A) :=
  match oldRowId with
  | some value => s.exclude env t (sqlite.int64 (some value))
  | none => .ok s

/-- `update`, with the row ID that is generated if one is needed. It returns a
code and, if there is a new row, its ID. -/
def update (s : Session R A) (argv : List (Option V)) (generated : R) :
    Except Fault (Session R A × Code × Option R) := do
  let oldRowId ← vectorAt argv 0
  let s ← s.deleteRow env t sqlite oldRowId
  if argv.length = 1 then .ok (s, .ok, none)
  else do
    let rowId ← newRowId t sqlite argv generated
    let converted ← convertValues sqlite.tryConvertValue argv t.columns.zipIdx
    match converted with
    | .error code => .ok (s, code, some rowId)
    | .ok cells => do
      let s ← s.includeRow env text rowId cells
      .ok (s, .ok, some rowId)

def getValues (s : Session R A) (columnIds : List ColumnID) (rowIds : List R) :
    Except Fault (List (DataSetRow R A)) :=
  match s.transaction with
  | some transaction => transaction.getValues text.encode s.columns columnIds rowIds
  | none => Client.getValues text.encode s.columns columnIds rowIds

end Session

end Model

/-! ### Refused updates -/

section Atomic

variable {V R A : Type} [LinearOrder R] [LinearOrder A] {env : Env R A} {rowId : R}
  {t t' : Transaction R A}

def Excluded (t : Transaction R A) (rowId : R) (c : ColumnID) : Prop :=
  ∃ column, t.log c = some column ∧ rowId ∈ column.excludes

theorem Excluded.setColumn {c c' : ColumnID} {column : LogColumn R A} (h : Excluded t rowId c)
    (hcolumn : rowId ∈ column.excludes) :
    Excluded (t.setColumn c' column) rowId c := by
  obtain ⟨old, hlog, hold⟩ := h
  by_cases heq : c = c'
  · subst heq
    exact ⟨column, update_self .., hcolumn⟩
  · exact ⟨old, (update_of_ne heq ..).trans hlog, hold⟩

theorem mem_excludes (rowId : R) (excludes : List R) :
    rowId ∈ if rowId ∈ excludes then excludes else excludes ++ [rowId] := by
  split_ifs with h
  · exact h
  · simp

variable {columnIds : List ColumnID}

theorem Excluded.excludeRow {c : ColumnID} (h : Excluded t rowId c)
    (hok : t.excludeRow env rowId columnIds = .ok t') :
    Excluded t' rowId c := by
  induction columnIds generalizing t with
  | nil =>
    obtain rfl := Except.ok.inj hok
    exact h
  | cons columnId columnIds ih =>
    obtain ⟨column, -, hok⟩ := eq_ok_of_bind hok
    exact ih (h.setColumn (mem_excludes ..)) hok

theorem excluded_of_excludeRow (hok : t.excludeRow env rowId columnIds = .ok t') :
    ∀ c ∈ columnIds, Excluded t' rowId c := by
  induction columnIds generalizing t with
  | nil => simp
  | cons columnId columnIds ih =>
    obtain ⟨column, -, hok⟩ := eq_ok_of_bind hok
    rw [List.forall_mem_cons]
    refine ⟨Excluded.excludeRow ?_ hok, ih hok⟩
    exact ⟨_, update_self .., mem_excludes rowId column.excludes⟩

theorem excludeRow_of_excluded (h : ∀ c ∈ columnIds, Excluded t rowId c) :
    t.excludeRow env rowId columnIds = .ok t := by
  induction columnIds with
  | nil => rfl
  | cons columnId columnIds ih =>
    rw [List.forall_mem_cons] at h
    obtain ⟨⟨column, hlog, hmem⟩, h⟩ := h
    have hensure : t.ensureColumnLog env columnId = .ok column := by
      rw [Transaction.ensureColumnLog, hlog]
    have hset : t.setColumn columnId { column with excludes := column.excludes } = t := by
      rw [Transaction.setColumn, ← hlog, update_eq_self]
    rw [Transaction.excludeRow, hensure]
    change Transaction.excludeRow env rowId columnIds (t.setColumn columnId { column with
      excludes := if rowId ∈ column.excludes then column.excludes else _ }) = .ok t
    rw [if_pos hmem, hset]
    exact ih h

/-- **An update that is refused** leaves the session as it was if and only if the old row,
if there is one, had been deleted from every column before. -/
theorem update_atomic_iff {text : RowText R A} {table : Table} {sqlite : Values V R A}
    {s s' : Session R A} {argv : List (Option V)} {generated : R} {code : Code} {newId : Option R}
    (hok : s.update env text table sqlite argv generated = .ok (s', code, newId))
    (hcode : code ≠ .ok) :
    s' = s ↔ ∀ transaction ∈ s.transaction, ∀ value, argv[0]? = some (some value) →
      ∀ c ∈ table.columnIds, Excluded transaction (sqlite.int64 (some value)) c := by
  obtain ⟨oldRowId, hold, hok⟩ := eq_ok_of_bind hok
  obtain ⟨s₁, hs₁, hok⟩ := eq_ok_of_bind hok
  -- what is returned with a code is the session after the old row has been deleted
  have hdeleted : s' = s₁ := by
    split at hok
    · exact absurd (Prod.mk.inj (Prod.mk.inj (Except.ok.inj hok)).2).1.symm hcode
    · obtain ⟨rowId, -, hok⟩ := eq_ok_of_bind hok
      obtain ⟨converted, -, hok⟩ := eq_ok_of_bind hok
      cases converted with
      | error code => exact (Prod.mk.inj (Except.ok.inj hok)).1.symm
      | ok cells =>
        obtain ⟨s₂, -, hok⟩ := eq_ok_of_bind hok
        exact absurd (Prod.mk.inj (Prod.mk.inj (Except.ok.inj hok)).2).1.symm hcode
  subst hdeleted
  have hfirst : argv[0]? = some oldRowId := (vectorAt_eq_ok.mp hold).2
  cases oldRowId with
  | none =>
    obtain rfl := Except.ok.inj hs₁
    simp [hfirst]
  | some value =>
    rw [Session.deleteRow, Session.exclude] at hs₁
    cases htransaction : s.transaction with
    | none =>
      rw [htransaction] at hs₁
      obtain rfl := Except.ok.inj hs₁
      simp
    | some transaction =>
      rw [htransaction] at hs₁
      obtain ⟨transaction', hexclude, rfl⟩ := eq_ok_of_map hs₁
      constructor
      · rintro hsame _ ⟨⟩ value' hvalue'
        obtain rfl := Option.some.inj (some_unique hfirst hvalue')
        have heq : transaction' = transaction :=
          Option.some.inj ((congrArg Session.transaction hsame).trans htransaction)
        rw [← heq]
        exact excluded_of_excludeRow hexclude
      · intro hexcluded
        rw [excludeRow_of_excluded (hexcluded transaction rfl value hfirst)] at hexclude
        obtain rfl := Except.ok.inj hexclude
        rw [← htransaction]

def requiredColumn : Table where
  columns := [⟨30000, "t.a", "Long", "Long", .multi, true⟩]
  stats := [⟨10, 10⟩]
  rowIDIndex := none
  stats_length := List.length_singleton
  columns_pos := Nat.one_pos
  rowIDIndex_lt := fun i h => absurd h (Option.not_mem_none i)

def openSession : Session ℤ ℤ := { columns := fun _ => .multi fiveTwice, transaction := some {} }

def updateAndCommit (argv : List (Option ℤ)) : Except Fault (Code × Session ℤ ℤ × Session ℤ ℤ) := do
  let env : Env ℤ ℤ := ⟨fun _ => true, Int.toNat, ⟨0, 0⟩⟩
  let r ← openSession.update env plainText requiredColumn ⟨fun value => value.getD 0, fun _ => some⟩
    argv 3
  let s ← r.1.commit env plainText requiredColumn
  .ok (r.2.1, r.1, s)

theorem insert_refused : ∃ s s', updateAndCommit [none, some 3, none] = .ok (.constraint, s, s') ∧
    s = openSession := by
  have hrun : (updateAndCommit [none, some 3, none]).toOption.any (fun r => r.1 == .constraint) =
      true := by decide +kernel
  obtain ⟨⟨code, s, s'⟩, hr, hcode⟩ := exists_ok_of_any hrun
  obtain rfl : code = .constraint := by simpa using hcode
  refine ⟨s, s', hr, ?_⟩
  obtain ⟨⟨s₁, code, newId⟩, hupdate, hr⟩ := eq_ok_of_bind hr
  obtain ⟨s₂, -, hr⟩ := eq_ok_of_bind hr
  obtain ⟨rfl, rfl, -⟩ : code = .constraint ∧ s₁ = s ∧ s₂ = s' := by
    simpa [Prod.ext_iff] using Except.ok.inj hr
  exact (update_atomic_iff hupdate (by decide)).mpr fun _ _ value hvalue => by simp at hvalue

/-- `UPDATE t SET a = NULL` for row 1 is refused, and the row is gone after the commit. -/
theorem update_refused : ∃ s s', updateAndCommit [some 1, some 1, none] = .ok (.constraint, s, s') ∧
    openSession.getValues plainText [30000] [1] = .ok [⟨1, [some 5]⟩] ∧
    s.getValues plainText [30000] [1] = .ok [⟨1, [none]⟩] ∧
    s'.getValues plainText [30000] [1] = .ok [⟨1, [none]⟩] := by
  have hrun : (updateAndCommit [some 1, some 1, none]).toOption.any (fun r =>
      r.1 == .constraint &&
      (r.2.1.getValues plainText [30000] [1]).toOption == some [⟨1, [none]⟩] &&
      (r.2.2.getValues plainText [30000] [1]).toOption == some [⟨1, [none]⟩]) = true := by
    decide +kernel
  obtain ⟨⟨code, s, s'⟩, hr, htest⟩ := exists_ok_of_any hrun
  simp only [Bool.and_eq_true, beq_iff_eq] at htest
  obtain ⟨⟨rfl, hs⟩, hs'⟩ := htest
  exact ⟨s, s', hr, rfl, eq_ok_of_toOption hs, eq_ok_of_toOption hs'⟩

end Atomic

end Fastore.Module
