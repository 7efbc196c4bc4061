import Mathlib.Data.List.DropRight
import Mathlib.Data.List.ReduceOption
import Fastore.Buffer.Paging
import Fastore.Lib.Runs

/-!
Transactions of a client.

A transaction keeps a log for every column it writes: a buffer with the
cells it includes and a set of the rows it excludes. An include does not
look at the excludes and an exclude does not look at the includes, so the
log does not know in which order they came. At the commit the log becomes
a list of writes for each column (`gatherWrites`), in which all excludes
come before all includes.

Row IDs and values are those of the buffers, types `R` and `A` with the
order of their scalar type. A database has columns of many types; as no
operation compares values of different columns, one type `A` with all of
them side by side is no restriction.
-/

namespace Fastore.Client

open Buffer

abbrev ColumnID := ℕ

inductive Fault
  /-- An exception with its text. -/
  | thrown (message : String)
  /-- A buffer fails. -/
  | buffer (fault : Tree.Fault)
  /-- A vector is read beyond its end. -/
  | outOfRange
  /-- The text of a value that is not set is used as a value. -/
  | noValue
  deriving DecidableEq, Repr

def ofBuffer {α : Type} (x : Except Tree.Fault α) : Except Fault α := x.mapError .buffer

/-- `Dictionary::ColumnColumns`: the columns of the table of all columns. -/
def columnColumns : List ColumnID := [0, 1, 2, 3, 4, 5]

/-- `std::numeric_limits<decltype(RangeRequest::limit)>::max()`. -/
def maxLimit : ℤ := 2147483647

section Model

variable {R A : Type} [LinearOrder R] [LinearOrder A]

/-- The rows excluded are a set of byte strings. Row IDs of a type `R` have the same bytes if
they are equal in its order, as in every type but that of doubles with its two zeros. -/
scoped instance decidableMemRows (rowId : R) (rowIds : List R) : Decidable (rowId ∈ rowIds) :=
  inferInstance

/-- `LogColumn`. No operation adds to the reads. -/
structure LogColumn (R A : Type) [LinearOrder R] [LinearOrder A] where
  includes : TreeBuffer R A := .new
  excludes : List R := []
  reads : List R := []

/-- The state of a transaction; of a column that it has added to the schema
itself, only the ID is used. -/
structure Transaction (R A : Type) [LinearOrder R] [LinearOrder A] where
  log : ColumnID → Option (LogColumn R A) := fun _ => none
  localSchema : List ColumnID := []

/-- What a client uses of its surroundings: the schema of the database, the
decoding of a value that is a column ID, and the cell with nothing set. -/
structure Env (R A : Type) where
  schema : ColumnID → Bool
  decode : A → ColumnID
  blank : Cell R A

variable (env : Env R A)

namespace Transaction

def ensureColumnLog (t : Transaction R A) (columnId : ColumnID) : Except Fault (LogColumn R A) :=
  match t.log columnId with
  | some column => .ok column
  | none =>
    if columnId ∈ t.localSchema ∨ env.schema columnId then .ok {}
    else .error (.thrown
      ("Unable to locate column (" ++ toString columnId ++ ") in the schema."))

def setColumn (t : Transaction R A) (columnId : ColumnID) (column : LogColumn R A) :
    Transaction R A :=
  { t with log := Function.update t.log columnId (some column) }

def includeLoop (rowId : R) : List ColumnID → List A → Transaction R A →
    Except Fault (Transaction R A)
  | [], _, t => .ok t
  | _ :: _, [], _ => .error .outOfRange
  | columnId :: columnIds, value :: row, t => do
    let column ← t.ensureColumnLog env columnId
    let includes ← ofBuffer (column.includes.apply ⟨[⟨rowId, value⟩], []⟩)
    includeLoop rowId columnIds row (t.setColumn columnId { column with includes := includes })

/-- `include`. A row of the table of all columns is a new column. -/
def includeRow (t : Transaction R A) (columnIds : List ColumnID) (rowId : R) (row : List A) :
    Except Fault (Transaction R A) := do
  let t ← includeLoop env rowId columnIds row t
  if columnIds.length = columnColumns.length ∧ columnIds.head? = columnColumns.head? then
    match row with
    | id :: _ => .ok { t with localSchema := t.localSchema ++ [env.decode id] }
    | [] => .error .outOfRange
  else .ok t

/-- The loop of `exclude`. -/
def excludeRow (rowId : R) : List ColumnID → Transaction R A → Except Fault (Transaction R A)
  | [], t => .ok t
  | columnId :: columnIds, t => do
    let column ← t.ensureColumnLog env columnId
    let excludes :=
      if rowId ∈ column.excludes then column.excludes else column.excludes ++ [rowId]
    excludeRow rowId columnIds (t.setColumn columnId { column with excludes := excludes })

end Transaction

def fillIncludes (total : ℤ) (cells : List (Cell R A)) : Except Fault (List (Cell R A)) :=
  if (cells.length : ℤ) ≤ total then
    .ok (cells ++ List.replicate (total.toNat - cells.length) env.blank)
  else .error .outOfRange

def LogColumn.gatherWrites (column : LogColumn R A) :
    Except Fault (Option (ColumnWrites R A)) :=
  let includeTotal := column.includes.getStatistic.total
  if includeTotal = 0 ∧ column.excludes.length = 0 ∧ column.reads.length = 0 then .ok none
  else do
    let includes ←
      (if 0 < includeTotal then do
        let rows ← ofBuffer (column.includes.getRows { limit := maxLimit })
        fillIncludes env includeTotal
          ((flatten rows.valueRowsList).map fun cell => ⟨cell.2, cell.1⟩)
      else .ok [])
    .ok (some ⟨includes, column.excludes⟩)

def Transaction.gatherWrites (t : Transaction R A) (columnId : ColumnID) :
    Except Fault (Option (ColumnWrites R A)) :=
  match t.log columnId with
  | some column => column.gatherWrites env
  | none => .ok none

def Transaction.commit {B : Type} (apply : B → ColumnWrites R A → Except Tree.Fault B)
    (t : Transaction R A) (columns : ColumnID → B) (columnId : ColumnID) : Except Fault B := do
  let writes ← t.gatherWrites env columnId
  match writes with
  | some writes => ofBuffer (apply (columns columnId) writes)
  | none => .ok (columns columnId)

end Model

/-! ### The log as a map of cells

Seen from outside, the log of a column is two things: the value included
for a row, if any, and the rows excluded. -/

section Log

variable {R A : Type} [LinearOrder R] [LinearOrder A]

/-- The log of a column has the includes `L` and the excludes `X`. -/
structure LogColumn.Has (column : LogColumn R A) (L : R → Option A) (X : R → Prop) : Prop where
  includes : column.includes.Holds L
  excludes : ∀ r, r ∈ column.excludes ↔ X r
  reads : column.reads = []

theorem LogColumn.has_new : ({} : LogColumn R A).Has (fun _ => none) fun _ => False :=
  ⟨TreeBuffer.holds_new, fun _ => by simp, rfl⟩

/-- The log of every column has the includes and excludes given. -/
def Transaction.Has (t : Transaction R A) (L : ColumnID → R → Option A)
    (X : ColumnID → R → Prop) : Prop :=
  ∀ c, match t.log c with
    | some column => column.Has (L c) (X c)
    | none => L c = (fun _ => none) ∧ X c = fun _ => False

namespace Transaction

variable {env : Env R A} {t : Transaction R A} {L : ColumnID → R → Option A}
  {X : ColumnID → R → Prop}

theorem has_new : ({} : Transaction R A).Has (fun _ _ => none) fun _ _ => False :=
  fun _ => ⟨rfl, rfl⟩

theorem Has.column (h : t.Has L X) {c : ColumnID} {column : LogColumn R A}
    (hc : t.log c = some column) : column.Has (L c) (X c) := by
  have h := h c
  rwa [hc] at h

theorem Has.ensureColumnLog (h : t.Has L X) {c : ColumnID} {column : LogColumn R A}
    (hok : t.ensureColumnLog env c = .ok column) : column.Has (L c) (X c) := by
  have h := h c
  rw [Transaction.ensureColumnLog] at hok
  split at hok
  · rename_i hc
    rw [hc, Except.ok.inj hok] at h
    exact h
  · rename_i hc
    rw [hc] at h
    split at hok
    · rw [← Except.ok.inj hok, h.1, h.2]
      exact LogColumn.has_new
    · cases hok

end Transaction

structure Lists (writes : ColumnWrites R A) (L : R → Option A) (X : R → Prop) : Prop where
  includes : ∀ cell, cell ∈ writes.includes ↔ L cell.rowID = some cell.value
  excludes : ∀ r, r ∈ writes.excludes ↔ X r

/-- The writes gathered from a log are what the log has. -/
theorem LogColumn.Has.gatherWrites (env : Env R A) {column : LogColumn R A} {L : R → Option A}
    {X : R → Prop} (h : column.Has L X) (htotal : column.includes.total ≤ maxLimit) :
    ∃ w, column.gatherWrites env = .ok w ∧ Lists (w.getD {}) L X := by
  rw [LogColumn.gatherWrites]
  have hlength := h.includes.length_pairs
  split
  · rename_i hempty
    refine ⟨none, rfl, fun cell => ?_, fun r => ?_⟩
    · have hnil : column.includes.pairs = [] := by
        rw [← List.length_eq_zero_iff]
        have := hempty.1
        simp only [TreeBuffer.getStatistic] at this
        omega
      rw [← h.includes.mem_pairs, hnil]
      simp
    · rw [← h.excludes, List.length_eq_zero_iff.mp hempty.2.1]
      simp
  · by_cases hpos : 0 < column.includes.getStatistic.total
    · obtain ⟨rows, hrows, hans⟩ := column.includes.getRows_spec { limit := maxLimit } rfl
        (by simp [RangeRequest.Proper, RangeRequest.lowest]) (show (1 : ℤ) ≤ maxLimit by decide)
      have hall : flatten rows.valueRowsList = column.includes.pairs := by
        rw [hans.cells, RangeRequest.select, List.filter_eq_self.mpr (by
          simp [RangeRequest.admits, RangeRequest.lowest, RangeRequest.highest])]
        refine List.take_of_length_le ?_
        change column.includes.pairs.length ≤ maxLimit.toNat
        omega
      refine ⟨some ⟨column.includes.pairs.map fun cell => ⟨cell.2, cell.1⟩, column.excludes⟩, ?_,
        fun cell => ?_, h.excludes⟩
      · simp only [if_pos hpos, hrows, ofBuffer, Except.mapError, bind, Except.bind, fillIncludes,
          hall, List.length_map, hlength]
        simp [TreeBuffer.getStatistic, ← hlength]
      · rw [← h.includes.mem_pairs]
        simp only [Option.getD_some, List.mem_map]
        constructor
        · rintro ⟨⟨a, r⟩, hm, rfl⟩
          exact hm
        · exact fun hm => ⟨_, hm, rfl⟩
    · refine ⟨some ⟨[], column.excludes⟩, by simp only [if_neg hpos, bind, Except.bind],
        fun cell => ?_, h.excludes⟩
      have hnil : column.includes.pairs = [] := by
        rw [← List.length_eq_zero_iff]
        simp only [TreeBuffer.getStatistic] at hpos
        omega
      rw [← h.includes.mem_pairs, hnil]
      simp

theorem Transaction.Has.gatherWrites (env : Env R A) {t : Transaction R A}
    {L : ColumnID → R → Option A} {X : ColumnID → R → Prop} (h : t.Has L X) {c : ColumnID}
    (htotal : ∀ column, t.log c = some column → column.includes.total ≤ maxLimit) :
    ∃ w, t.gatherWrites env c = .ok w ∧ Lists (w.getD {}) (L c) (X c) := by
  have hc := h c
  rw [Transaction.gatherWrites]
  cases hlog : t.log c with
  | some column =>
    rw [hlog] at hc
    exact LogColumn.Has.gatherWrites env hc (htotal column hlog)
  | none =>
    rw [hlog] at hc
    exact ⟨none, rfl, fun cell => by simp [hc.1], fun r => by simp [hc.2]⟩

end Log

end Fastore.Client
