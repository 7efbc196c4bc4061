import Fastore.Lib.Groups
import Fastore.Store.Log

/-!
The manager of the log files.

The manager writes the records of a commit to its current file, which it
completes and replaces by a new one when a record would not fit. It keeps an
index: the files by their sequence numbers (LSN), the transactions, and for each
column the files with revisions of it, each with its first revision and the
offsets of its records. The index is kept up to date by the functions that
write, and made anew by those that scan the files of a directory.

Both take the entry of a column by value, so what they add to it is lost; the
entry itself is there (`writeRevision`, `indexRevisionRecord`).
-/

namespace Fastore.Store

open Lib

structure LogFile where
  filename : String
  complete : Bool
  size : ℤ

inductive TransactionState
  | begun
  | ended
  | rolledBack
  deriving DecidableEq, Repr

def TransactionState.code : TransactionState → ℕ
  | begun => 10
  | ended => 20
  | rolledBack => 30

structure TransactionInfo where
  revisions : SortedMap Long Long := .empty
  state : TransactionState

structure RevisionFileInfo where
  lsn : Long
  startingRevision : Long
  offsets : List ℤ

structure ColumnInfo where
  revisions : List RevisionFileInfo := []

structure Placement where
  columnId : Long
  revision : Long
  lsn : Long
  offset : ℤ
  deriving DecidableEq

structure LogManager where
  files : SortedMap Long LogFile := .empty
  transactions : SortedMap Long TransactionInfo := .empty
  columns : SortedMap Long ColumnInfo := .empty
  /-- The current file, with its name. -/
  writer : Option (String × LogWriter) := none
  /-- The files that have been closed. -/
  closed : List (String × File) := []
  /-- How often the surroundings have been asked. -/
  ticks : ℕ := 0
  /-- All records of revisions, for the specification. -/
  history : List Placement := []

/-- What the manager finds around it: where the files are, the clock, the random numbers,
and what a new writer holds in its unset `_size`. -/
structure Host where
  path : String
  time : ℕ → Long
  rand : ℕ → Word
  unsetSize : ℕ → Long

structure Commit where
  transactionID : Long
  revisions : SortedMap Long Long
  /-- The writes of each column, as they are serialised. -/
  writes : SortedMap Long (List Char)

def transactionBeginSize : ℤ := 48

def transactionEndSize : ℤ := 26

def revisionSize : ℤ := 48

namespace LogManager

variable (h : Host) (m : LogManager)

/-! ### Files -/

def reuseFileOldLsn : Except Fault Long :=
  match m.files.entries.getLast? with
  | some (lsn, _) =>
    if hlsn : lsn.val + 1 ≤ 2 ^ 63 - 1 then
      .ok ⟨lsn.val + 1, by have := lsn.property; omega, hlsn⟩
    else .error .overflow
  | none => .ok ⟨0, zero_mem_long⟩

def resetWriter : LogManager :=
  match m.writer with
  | some (filename, w) =>
    { m with closed := m.closed ++ [(filename, w.updateLogHeader.file)], writer := none }
  | none => m

def createLogFile : Except Fault LogManager := do
  let newLsn ← m.reuseFileOldLsn
  let filename := h.path ++ toString newLsn.val ++ ".fastlog"
  let w := LogWriter.create newLsn (h.time m.ticks) (h.unsetSize m.ticks) (h.rand m.ticks)
  .ok { m.resetWriter with
    files := m.files.insert newLsn ⟨filename, false, 0⟩
    writer := some (filename, w)
    ticks := m.ticks + 1 }

def completeCurrentLog : LogManager :=
  resetWriter { m with writer := m.writer.map fun (filename, w) => (filename, w.setComplete) }

/-- `if (_writer == NULL) createLogFile()`. -/
def ensureWriter : Except Fault LogManager :=
  if m.writer.isNone then m.createLogFile h else .ok m

def prepLog (size : ℤ) : Except Fault LogManager := do
  let m ← m.ensureWriter h
  match m.writer with
  | some (_, w) =>
    if w.size + size > maxLogSize then m.completeCurrentLog.createLogFile h else .ok m
  | none => .ok m

/-! ### Writing -/

def append (write : LogWriter → Long → LogWriter) : LogManager :=
  { m with
    writer := m.writer.map fun (filename, w) => (filename, write w (h.time m.ticks))
    ticks := m.ticks + 1 }

def writeTransactionBegin (transactionID : Long) (revisions : SortedMap Long Long) :
    Except Fault LogManager := do
  let m ← m.prepLog h (transactionBeginSize + 16 * revisions.entries.length)
  let m := m.append h fun w now => w.writeTransactionBegin transactionID revisions now
  .ok { m with transactions := m.transactions.insert transactionID ⟨revisions, .begun⟩ }

def addRevision (column : ColumnInfo) (lsn revision : Long) (offset : ℤ) : ColumnInfo :=
  match column.revisions.getLast? with
  | some last =>
    if last.lsn = lsn then
      ⟨column.revisions.dropLast ++ [{ last with offsets := last.offsets ++ [offset] }]⟩
    else ⟨column.revisions ++ [⟨lsn, revision, [offset]⟩]⟩
  | none => ⟨column.revisions ++ [⟨lsn, revision, [offset]⟩]⟩

def writeRevision (columnId revision : Long) (buffer : List Char) : Except Fault LogManager := do
  let m ← m.prepLog h (buffer.length + revisionSize)
  match m.writer with
  | some (_, w) =>
    let offset : ℤ := w.size
    let m := m.append h fun w now => w.writeRevision columnId revision buffer now
    -- `_columns[columnId]` makes an entry; `column` is a copy of it
    let columns := m.columns.update {} columnId id
    let _column := addRevision ((columns.get? columnId).getD {}) w.lsn revision offset
    .ok { m with
      columns := columns
      history := m.history ++ [⟨columnId, revision, w.lsn, offset⟩] }
  | none => .error .unset

def writeTransactionEnd (transactionID : Long) : Except Fault LogManager := do
  let m ← m.prepLog h transactionEndSize
  let m := m.append h fun w now => w.writeTransactionEnd transactionID now
  .ok { m with
    transactions := m.transactions.update ⟨.empty, .ended⟩ transactionID fun info =>
      { info with state := .ended } }

def writeRevisions (revisions : SortedMap Long Long) (write : Long × List Char) :
    Except Fault LogManager :=
  match revisions.get? write.1 with
  | some revision => m.writeRevision h write.1 revision write.2
  | none => .error .noRevision

def internalCommit (commit : Commit) : Except Fault LogManager := do
  let m ← m.writeTransactionBegin h commit.transactionID commit.revisions
  let m ← commit.writes.entries.foldlM (fun m write => m.writeRevisions h commit.revisions write) m
  m.writeTransactionEnd h commit.transactionID

/-! ### Scanning -/

def revisionFileInfoByLsn (info : ColumnInfo) (lsn : Long) : Option ℕ :=
  info.revisions.findIdx? fun file => file.lsn = lsn

/-- A new `RevisionFileInfo` is not even added to the copy. -/
def indexRevisionRecord (header : RecordHeader) (columnId : Long) : LogManager :=
  let columns := m.columns.update {} columnId id
  let info := (columns.get? columnId).getD {}
  let _info : ColumnInfo :=
    match revisionFileInfoByLsn info header.lsn with
    | some index =>
      ⟨info.revisions.modify index fun file =>
        { file with offsets := file.offsets ++ [header.offset] }⟩
    | none => info
  { m with columns := columns }

/-- `std::map::insert`, which keeps an entry that is there. -/
def insertTransaction (transactionId : Long) (info : TransactionInfo) : LogManager :=
  { m with transactions :=
      if (m.transactions.get? transactionId).isSome then m.transactions
      else m.transactions.insert transactionId info }

def indexTransactionBeginRecord (transactionId : Long) (revisions : SortedMap Long Long) :
    LogManager :=
  match m.transactions.get? transactionId with
  | some info =>
    if info.revisions.entries.length = 0 then
      { m with transactions :=
          m.transactions.insert transactionId { info with revisions := revisions } }
    else m.insertTransaction transactionId ⟨revisions, .begun⟩
  | none => m.insertTransaction transactionId ⟨revisions, .begun⟩

/-- `indexTransactionEndRecord` and `indexRollbackRecord`. -/
def indexState (transactionId : Long) (state : TransactionState) : LogManager :=
  match m.transactions.get? transactionId with
  | some info =>
    if info.state.code < state.code then
      { m with transactions := m.transactions.insert transactionId { info with state := state } }
    else m.insertTransaction transactionId ⟨.empty, state⟩
  | none => m.insertTransaction transactionId ⟨.empty, state⟩

def indexTransactionEndRecord (transactionId : Long) : LogManager :=
  m.indexState transactionId .ended

def indexRollbackRecord (transactionId : Long) : LogManager := m.indexState transactionId .rolledBack

def indexRecord : RecordHeader × Record → LogManager
  | (header, .columnRevision columnId _ _) => m.indexRevisionRecord header columnId
  | (_, .checkpoint ..) => m
  | (_, .transactionBegin transactionId revisions) =>
    m.indexTransactionBeginRecord transactionId revisions
  | (_, .transactionEnd transactionId) => m.indexTransactionEndRecord transactionId
  | (_, .rollback transactionId) => m.indexRollbackRecord transactionId

def indexLogFile (file : String × File) : Except Fault LogManager := do
  let l ← LogStream.readLogHeader file.2
  let m := { m with files := m.files.insert l.lsn ⟨file.1, l.complete.val == 1, l.size⟩ }
  let records ← l.readRecords (file.2.length + 2)
  .ok (records.foldl indexRecord m)

/-! ### Lookups -/

def offsetByRevision (info : ColumnInfo) (revision : Long) : Option (Long × ℤ) :=
  info.revisions.findSome? fun file =>
    let diff := revision.val - file.startingRevision.val
    if 0 ≤ diff then (file.offsets[diff.toNat]?).map fun offset => (file.lsn, offset) else none

def getLatestRevisions : Except Fault (SortedMap Long ℤ) :=
  m.columns.entries.foldlM (fun results column =>
    match column.2.revisions.getLast? with
    | some last =>
      .ok (results.insert column.1 (last.startingRevision.val + last.offsets.length - 1))
    | none => .error .noElement) .empty

end LogManager

end Fastore.Store
