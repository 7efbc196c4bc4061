import Fastore.Lib.SortedMap
import Fastore.Lib.Stream

/-!
Log files.

A log file is filled with zeros, starts with a header and has its records
behind it. Everything is written as text (`operator<<`), a field directly
after the other; a record is followed by a gap of 16 characters for a checksum
that is not written yet.

What C++ leaves undefined is a fault: the use of a variable that a stream was to
set and has not (`unset`), a string that is made of a buffer without a zero
(`overread`).
-/

namespace Fastore.Store

open Lib

/-- `int64_t`. -/
abbrev Long := Ranged (-2 ^ 63) (2 ^ 63 - 1)

/-- `int`. -/
abbrev Word := Ranged (-2 ^ 31) (2 ^ 31 - 1)

theorem zero_mem_long : (-2 ^ 63 : ℤ) ≤ 0 ∧ (0 : ℤ) ≤ 2 ^ 63 - 1 := by decide

theorem one_mem_long : (-2 ^ 63 : ℤ) ≤ 1 ∧ (1 : ℤ) ≤ 2 ^ 63 - 1 := by decide

theorem column_mem_long : (-2 ^ 63 : ℤ) ≤ 10000 ∧ (10000 : ℤ) ≤ 2 ^ 63 - 1 := by decide

def logHeaderSize : ℕ := 1024

def maxLogSize : ℕ := 104857600

def version : ℤ := 0

def signature : List Char := "Fastore".toList

inductive RecordType
  | null
  | transactionBegin
  | transactionEnd
  | columnRevision
  | transactionRollback
  | checkpoint
  deriving DecidableEq, Repr

def RecordType.code : RecordType → ℤ
  | null => 0
  | transactionBegin => 100
  | transactionEnd => 101
  | columnRevision => 200
  | transactionRollback => 300
  | checkpoint => 400

def RecordType.ofCode (code : ℤ) : Option RecordType :=
  [null, transactionBegin, transactionEnd, columnRevision, transactionRollback, checkpoint].find?
    fun type => type.code = code

structure RecordHeader where
  timeStamp : Long
  lsn : Long
  offset : ℤ

inductive Record
  | transactionBegin (transactionId : Long) (revisions : SortedMap Long Long)
  | transactionEnd (transactionId : Long)
  | columnRevision (columnId revision : Long) (data : List Char)
  | checkpoint (columnId revision : Long)
  | rollback (transactionId : Long)

inductive Fault
  /-- "Signature mismatch. File isn't fastore log!" -/
  | signature
  /-- "Version mistmatch: Upgrade log file before using" -/
  | version
  /-- "Unknown Record Type encountered while indexing log file" -/
  | unknownType
  /-- "No revision associated with columns writes." -/
  | noRevision
  | unset
  | badAlloc
  | overread
  | overflow
  /-- The last element of an empty vector. -/
  | noElement
  /-- The model has run out of fuel. -/
  | fuel
  deriving DecidableEq, Repr

/-! ### Writing -/

structure LogWriter where
  file : File
  lsn : Long
  complete : Word
  size : ℕ

/-- The text of the header. The third field is `_complete`; `size` is what `_size` holds
before it is set. -/
def headerText (lsn now size : Long) (rand complete : Word) : List Char :=
  signature ++ decimal version ++ decimal lsn ++ decimal complete ++ decimal now ++ decimal rand ++
    decimal logHeaderSize ++ decimal complete ++ decimal size

def LogWriter.create (lsn now size : Long) (rand : Word) : LogWriter where
  file := (File.zeros maxLogSize).write 0 (headerText lsn now size rand ⟨0, by decide⟩)
  lsn := lsn
  complete := ⟨0, by decide⟩
  size := logHeaderSize

namespace LogWriter

variable (w : LogWriter)

def append (cs : List Char) : LogWriter :=
  { w with file := w.file.write w.size cs, size := w.size + cs.length + 16 }

def writeTransactionBegin (transactionId : Long) (revisions : SortedMap Long Long) (now : Long) :
    LogWriter :=
  w.append (decimal RecordType.transactionBegin.code ++ decimal transactionId ++ decimal now ++
    decimal revisions.entries.length ++
    revisions.entries.flatMap fun e => decimal e.1 ++ decimal e.2)

def writeTransactionEnd (transactionId now : Long) : LogWriter :=
  w.append (decimal RecordType.transactionEnd.code ++ decimal transactionId ++ decimal now)

def writeRevision (columnId revision : Long) (buffer : List Char) (now : Long) : LogWriter :=
  w.append (decimal RecordType.columnRevision.code ++ decimal columnId ++ decimal revision ++
    decimal now ++ decimal buffer.length ++ buffer)

def writeCheckpoint (columnId revision now : Long) : LogWriter :=
  w.append (decimal RecordType.checkpoint.code ++ decimal columnId ++ decimal revision ++
    decimal now)

def writeRollback (transactionId now : Long) : LogWriter :=
  w.append (decimal RecordType.transactionRollback.code ++ decimal transactionId ++ decimal now)

def write : Long × Record → LogWriter
  | (now, .transactionBegin transactionId revisions) =>
    w.writeTransactionBegin transactionId revisions now
  | (now, .transactionEnd transactionId) => w.writeTransactionEnd transactionId now
  | (now, .columnRevision columnId revision data) => w.writeRevision columnId revision data now
  | (now, .checkpoint columnId revision) => w.writeCheckpoint columnId revision now
  | (now, .rollback transactionId) => w.writeRollback transactionId now

def setComplete : LogWriter := { w with complete := ⟨1, by decide⟩ }

def updateLogHeader : LogWriter :=
  { w with file := w.file.write 32 (decimal w.complete ++ decimal w.size) }

end LogWriter

/-! ### Reading -/

def get {α : Type} : Option α × Stream → Except Fault (α × Stream)
  | (some x, s) => .ok (x, s)
  | (none, _) => .error .unset

def extractLong (s : Stream) : Option Long × Stream := s.extract (by decide)

def extractWord (s : Stream) : Option Word × Stream := s.extract (by decide)

def long (s : Stream) : Except Fault (Long × Stream) := get (extractLong s)

def word (s : Stream) : Except Fault (Word × Stream) := get (extractWord s)

/-- The characters before the first zero, as `strcmp` and `std::string` see them. -/
def cString (cs : List Char) : List Char := cs.takeWhile (· ≠ '\x00')

structure LogStream where
  stream : Stream
  lsn : Long
  complete : Word
  size : ℤ
  /-- `_timeStamp`, once it is set. -/
  timeStamp : Option Long := none

namespace LogStream

def readLogHeader (file : File) : Except Fault LogStream := do
  let (sig, s) := (Stream.start file 0).extractWord
  if cString (sig.getD []) = signature then
    let (fileVersion, s) ← word s
    if fileVersion.val = version then
      let (lsn, s) := extractLong s
      let (timeStamp, s) := extractLong s
      let (_salt, s) := extractWord s
      let (headerSize, s) ← word s
      let (complete, s) := extractWord s
      let (size, s) ← long s
      .ok { stream := (s.seekg (headerSize - 16)).skip 16
            lsn := lsn.getD ⟨0, by decide⟩
            complete := complete.getD ⟨0, by decide⟩
            size := size
            timeStamp := timeStamp }
    else .error .version
  else .error .signature

variable (l : LogStream)

def readNextRecordType : Except Fault (ℤ × Stream) :=
  if l.stream.eof then .ok (RecordType.null.code, l.stream)
  else
    let (pos, s) := l.stream.tellg
    if pos ≤ l.size then do
      let (type, s) ← word s
      .ok (type, s)
    else .ok (RecordType.null.code, s)

def readRevisions : ℕ → SortedMap Long Long → Stream → Except Fault (SortedMap Long Long × Stream)
  | 0, revisions, s => .ok (revisions, s)
  | n + 1, revisions, s => do
    let (columnID, s) ← long s
    let (revision, s) ← long s
    readRevisions n (revisions.insert columnID revision) s

def readTransactionBegin (s : Stream) : Except Fault (RecordHeader × Record × Stream) := do
  let (offset, s) := s.tellg
  let (transactionId, s) ← long s
  let (timeStamp, s) ← long s
  let (size, s) ← word s
  let (revisions, s) ← readRevisions size.val.toNat .empty s
  .ok (⟨timeStamp, l.lsn, offset - 4⟩, .transactionBegin transactionId revisions, s.skip 16)

def readTransactionEnd (s : Stream) : Except Fault (RecordHeader × Record × Stream) := do
  let (offset, s) := s.tellg
  let (transactionId, s) ← long s
  let (timeStamp, s) ← long s
  .ok (⟨timeStamp, l.lsn, offset - 4⟩, .transactionEnd transactionId, s.skip 16)

def readRevision (s : Stream) : Except Fault (RecordHeader × Record × Stream) := do
  let (offset, s) := s.tellg
  let (columnId, s) ← long s
  let (revision, s) ← long s
  let (timeStamp, s) ← long s
  let (size, s) ← word s
  if size.val < 0 then .error .badAlloc
  else
    let (buffer, s) := s.read size.val.toNat
    if '\x00' ∈ buffer then
      .ok (⟨timeStamp, l.lsn, offset - 4⟩, .columnRevision columnId revision (cString buffer),
        s.skip 16)
    else .error .overread

def readCheckpoint (s : Stream) : Except Fault (RecordHeader × Record × Stream) := do
  let (offset, s) := s.tellg
  let (columnId, s) ← long s
  let (revision, s) ← long s
  let (timeStamp, s) ← long s
  .ok (⟨timeStamp, l.lsn, offset - 4⟩, .checkpoint columnId revision, s.skip 16)

def readRollBack (s : Stream) : Except Fault (RecordHeader × Record × Stream) := do
  let (offset, s) := s.tellg
  let (transactionId, s) ← long s
  let (timeStamp, s) ← long s
  .ok (⟨timeStamp, l.lsn, offset - 4⟩, .rollback transactionId, s.skip 16)

/-- The record of a type. There is none of type `Null`. -/
def readRecord : RecordType → Stream → Except Fault (RecordHeader × Record × Stream)
  | .columnRevision, s => l.readRevision s
  | .checkpoint, s => l.readCheckpoint s
  | .transactionBegin, s => l.readTransactionBegin s
  | .transactionEnd, s => l.readTransactionEnd s
  | .transactionRollback, s => l.readRollBack s
  | .null, _ => .error .unknownType

/-- The records up to the first one of type `Null`. -/
def readRecords : ℕ → LogStream → Except Fault (List (RecordHeader × Record))
  | 0, _ => .error .fuel
  | fuel + 1, l => do
    let (code, s) ← l.readNextRecordType
    match RecordType.ofCode code with
    | none => .error .unknownType
    | some .null => .ok []
    | some type =>
      let (header, record, s) ← l.readRecord type s
      let records ← readRecords fuel { l with stream := s }
      .ok ((header, record) :: records)

end LogStream

end Fastore.Store
