import Fastore.Lib.Loops
import Fastore.Store.Format
import Fastore.Store.Index

/-!
Files that are opened again, and the revisions that are read from them.

A writer rewrites a part of the header when it is closed. Neither that part nor
the records reach the first eight characters, so no file that a writer has
closed can be opened again (`reopens_iff`).

`getRange` reads the revisions of a column one after the other, or so it seems:
the loop counts up its bound instead of the revision. It is right if there is
nothing to read or the first revision is missing (`getRange_iff`); otherwise it
reads the first revision over and over (`getRange_rereads`).
-/

namespace Fastore.Store

open Lib

/-! ### Opening a file again -/

structure Work where
  records : List (Long × Record)
  complete : Bool

namespace LogWriter

variable (w : LogWriter)

def work (k : Work) : LogWriter :=
  let w := k.records.foldl write w
  if k.complete then w.setComplete else w

def close : File := w.updateLogHeader.file

end LogWriter

structure HeaderRead (w : LogWriter) (created : Long) (l : LogStream) : Prop where
  lsn : l.lsn = w.lsn
  complete : l.complete = w.complete
  size : l.size = w.size
  timeStamp : l.timeStamp = some created

/-- Each time the writer has been closed the header is read as it should be, and the next
writer takes over what is read. -/
def Reopens (created : Long) : LogWriter → List Work → Prop
  | _, [] => True
  | w, k :: ks =>
    let w := w.work k
    (∃ l, LogStream.readLogHeader w.close = .ok l ∧ HeaderRead w created l) ∧
      Reopens created { w with file := w.close } ks

structure Behind (w : LogWriter) : Prop where
  headed : Headed w.file
  size : logHeaderSize ≤ w.size

theorem behind_create (lsn now size : Long) (rand : Word) :
    Behind (LogWriter.create lsn now size rand) :=
  ⟨headed_create lsn now size rand, le_refl _⟩

variable {w : LogWriter}

theorem Behind.write (h : Behind w) (e : Long × Record) : Behind (w.write e) := by
  have hheader : 8 ≤ logHeaderSize := by decide
  have hsize := h.size
  rw [write_eq]
  exact ⟨h.headed.write (by omega) _, by simp only [LogWriter.append]; omega⟩

theorem Behind.work (h : Behind w) (k : Work) : Behind (w.work k) := by
  have hrecords : ∀ (es : List (Long × Record)) {w : LogWriter}, Behind w →
      Behind (es.foldl LogWriter.write w) := by
    intro es
    induction es with
    | nil => exact id
    | cons e es ih => exact fun hw => ih (hw.write e)
  rw [LogWriter.work]
  split
  · exact ⟨(hrecords _ h).headed, (hrecords _ h).size⟩
  · exact hrecords _ h

theorem Behind.readLogHeader (h : Behind w) (k : Work) :
    LogStream.readLogHeader (w.work k).close = .error .signature :=
  ((h.work k).headed.write (by decide) _).readLogHeader

/-- **The header** of a file is read as it was written if and only if it is not read. -/
theorem reopens_iff (lsn now size : Long) (rand : Word) (works : List Work) :
    Reopens now (LogWriter.create lsn now size rand) works ↔ works = [] := by
  cases works with
  | nil => simp [Reopens]
  | cons k ks =>
    have hread := (behind_create lsn now size rand).readLogHeader k
    simp [Reopens, hread]

/-- A file without records that has been completed. -/
theorem completed_not_reopened :
    ¬ Reopens ⟨1352000000, clock_mem_long⟩
      (LogWriter.create ⟨0, zero_mem_long⟩ ⟨1352000000, clock_mem_long⟩ ⟨0, zero_mem_long⟩
        ⟨41, rand_mem_word⟩) [⟨[], true⟩] := by
  rintro ⟨⟨l, hl, -⟩, -⟩
  rw [(behind_create ..).readLogHeader] at hl
  cases hl

/-! ### Reading a revision -/

inductive ReadFault
  /-- "Can't file a log file that corresponds to LSN: " -/
  | noFile (lsn : Long)
  /-- "Attempt to seek log reader past file!" -/
  | pastFile
  | stream (fault : Fault)
  /-- The data are not those of a structure. -/
  | protocol

inductive RangeFault
  /-- "Missing column revision!" -/
  | missing
  | read (fault : ReadFault)
  | overflow

structure GetWritesResult (W : Type) where
  minFrom : Long
  maxTo : Long
  writes : Option (SortedMap Long W)

def Record.data : Record → List Char
  | .columnRevision _ _ data => data
  | .transactionBegin .. => []
  | .transactionEnd _ => []
  | .checkpoint .. => []
  | .rollback _ => []

/-- `LogReader(filename)`. A stream that is not open has no signature. -/
def openReader (disk : String → Option File) (filename : String) : Except Fault LogStream :=
  match disk filename with
  | some file => LogStream.readLogHeader file
  | none => .error .signature

def LogStream.seekReadToOffset (l : LogStream) (offset : ℤ) : Except ReadFault LogStream :=
  if offset ≤ l.size then .ok { l with stream := l.stream.seekg offset } else .error .pastFile

namespace LogManager

section Model

variable {W : Type} (disk : String → Option File) (parse : List Char → Option W) (m : LogManager)

def createReader (lsn : Long) : Except ReadFault LogStream :=
  match m.files.get? lsn with
  | some file => (openReader disk file.filename).mapError .stream
  | none => .error (.noFile lsn)

def readWrites (lsn : Long) (offset : ℤ) : Except ReadFault W := do
  let reader ← m.createReader disk lsn
  let reader ← reader.seekReadToOffset (offset + 4)
  let (_, record, _) ← (reader.readRevision reader.stream).mapError .stream
  match parse record.data with
  | some writes => .ok writes
  | none => .error .protocol

def placeOf (columnId revision : Long) : Option (Long × ℤ) :=
  (offsetByRevision ((m.columns.get? columnId).getD {}) revision).filter fun place =>
    place.1.val ≠ -1

structure RangeState (W : Type) where
  revTo : Long
  revisions : SortedMap Long W := .empty

/-- The loop of `getRange`. The `++to` of its header is a fault at the greatest number. -/
def getRangeTurn (columnId revFrom revTo : Long) :
    Loop (RangeState W) (Except RangeFault (GetWritesResult W)) := fun s =>
  if revFrom.val ≤ s.revTo.val then
    match m.placeOf columnId revFrom with
    | some (lsn, offset) =>
      match m.readWrites disk parse lsn offset with
      | .ok writes =>
        if h : s.revTo.val + 1 ≤ 2 ^ 63 - 1 then
          .inl ⟨⟨s.revTo.val + 1, by have := s.revTo.property; omega, h⟩,
            s.revisions.insert revFrom writes⟩
        else .inr (.error .overflow)
      | .error fault => .inr (.error (.read fault))
    | none => .inr (.error .missing)
  else .inr (.ok ⟨revFrom, revTo, if s.revisions.size > 0 then some s.revisions else none⟩)

/-- What `getRange` comes to, if it comes to anything. -/
def GetRange (columnId revFrom revTo : Long) (result : Except RangeFault (GetWritesResult W)) : Prop :=
  (m.getRangeTurn disk parse columnId revFrom revTo).Ends ⟨revTo, .empty⟩ result

/-- The result has the revisions of the range and no others, each with the writes of its
record. -/
structure HasRange (columnId revFrom revTo : Long) (result : GetWritesResult W) : Prop where
  inside : ∀ rev : Long, revFrom.val ≤ rev.val → rev.val ≤ revTo.val → ∃ place writes,
    m.placeOf columnId rev = some place ∧ m.readWrites disk parse place.1 place.2 = .ok writes ∧
      (result.writes.getD .empty).get? rev = some writes
  outside : ∀ rev : Long, ¬ (revFrom.val ≤ rev.val ∧ rev.val ≤ revTo.val) →
    (result.writes.getD .empty).get? rev = none

/-- `getRange` gives the range if the index has all of it, and throws if it has not. -/
structure RangeRight (columnId revFrom revTo : Long) : Prop where
  all : (∀ rev : Long, revFrom.val ≤ rev.val → rev.val ≤ revTo.val →
      (m.placeOf columnId rev).isSome) →
    ∃ result, m.GetRange disk parse columnId revFrom revTo (.ok result) ∧
      m.HasRange disk parse columnId revFrom revTo result
  missing : (∃ rev : Long, revFrom.val ≤ rev.val ∧ rev.val ≤ revTo.val ∧
      m.placeOf columnId rev = none) →
    m.GetRange disk parse columnId revFrom revTo (.error .missing)

end Model

/-! ### The loop -/

section Turns

variable {W : Type} {disk : String → Option File} {parse : List Char → Option W} {m : LogManager}
  {columnId revFrom revTo : Long}

variable {result : Except RangeFault (GetWritesResult W)}

theorem getRange_empty (h : revTo.val < revFrom.val) :
    m.GetRange disk parse columnId revFrom revTo result ↔ result = .ok ⟨revFrom, revTo, none⟩ := by
  refine Loop.ends_done ?_
  rw [getRangeTurn, if_neg (not_le.mpr h)]
  rfl

theorem getRange_missing (h : revFrom.val ≤ revTo.val)
    (hplace : m.placeOf columnId revFrom = none) :
    m.GetRange disk parse columnId revFrom revTo result ↔ result = .error .missing := by
  refine Loop.ends_done ?_
  rw [getRangeTurn, if_pos h, hplace]

theorem getRange_fault (h : revFrom.val ≤ revTo.val) {place : Long × ℤ}
    (hplace : m.placeOf columnId revFrom = some place)
    (hrange : m.GetRange disk parse columnId revFrom revTo result) :
    (∃ fault, result = .error (.read fault)) ∨ result = .error .overflow := by
  obtain ⟨s, hs, hlast⟩ := hrange.last (I := fun s => revFrom.val ≤ s.revTo.val) (by
    intro s s' hs hturn
    rw [getRangeTurn, if_pos hs, hplace] at hturn
    dsimp only at hturn
    split at hturn
    · split at hturn
      · obtain rfl := Sum.inl.inj hturn
        simp only
        omega
      · cases hturn
    · cases hturn) h
  rw [getRangeTurn, if_pos hs, hplace] at hlast
  dsimp only at hlast
  split at hlast
  · split at hlast
    · cases hlast
    · exact .inr (Sum.inr.inj hlast).symm
  · rename_i fault _
    exact .inl ⟨fault, (Sum.inr.inj hlast).symm⟩

variable (parse) in
theorem readWrites_eq (lsn : Long) (offset : ℤ) :
    m.readWrites disk parse lsn offset =
      (m.readWrites disk some lsn offset).bind fun data =>
        (parse data).elim (.error .protocol) .ok := by
  rw [readWrites, readWrites]
  cases m.createReader disk lsn with
  | error fault => rfl
  | ok reader =>
    cases hseek : reader.seekReadToOffset (offset + 4) with
    | error fault => simp only [bind, Except.bind, hseek]
    | ok reader =>
      simp only [bind, Except.bind, hseek]
      cases reader.readRevision reader.stream with
      | error fault => rfl
      | ok read => cases hparse : parse read.2.1.data <;> simp [Except.mapError, hparse]

theorem getRange_rereads {place : Long × ℤ} {writes : W}
    (hplace : m.placeOf columnId revFrom = some place)
    (hread : m.readWrites disk parse place.1 place.2 = .ok writes) (turns : ℕ) (s : RangeState W)
    (h : revFrom.val ≤ s.revTo.val) (hturns : s.revTo.val + turns ≤ 2 ^ 63 - 1) :
    (m.getRangeTurn disk parse columnId revFrom revTo).run turns s = none := by
  induction turns generalizing s with
  | zero => rfl
  | succ turns ih =>
    have hlt : s.revTo.val + 1 ≤ 2 ^ 63 - 1 := by omega
    rw [Loop.run, getRangeTurn, if_pos h, hplace]
    dsimp only
    rw [hread]
    dsimp only
    rw [dif_pos hlt]
    exact ih _ (by simp only; omega) (by simp only; omega)

end Turns

end LogManager

open LogManager in
/-- **Reading a range** is right if and only if there is nothing in it or its first
revision is missing. -/
theorem getRange_iff {W : Type} (disk : String → Option File) (parse : List Char → Option W)
    (m : LogManager) (columnId revFrom revTo : Long) :
    m.RangeRight disk parse columnId revFrom revTo ↔
      revTo.val < revFrom.val ∨ m.placeOf columnId revFrom = none := by
  constructor
  · intro hright
    by_contra hnot
    rw [not_or, not_lt, ← ne_eq, Option.ne_none_iff_exists'] at hnot
    obtain ⟨hle, place, hplace⟩ := hnot
    by_cases hall : ∀ rev : Long, revFrom.val ≤ rev.val → rev.val ≤ revTo.val →
        (m.placeOf columnId rev).isSome
    · obtain ⟨result, hrange, -⟩ := hright.all hall
      rcases getRange_fault hle hplace hrange with ⟨fault, h⟩ | h <;> cases h
    · push Not at hall
      obtain ⟨rev, hlow, hhigh, hnone⟩ := hall
      have hrange := hright.missing ⟨rev, hlow, hhigh, by simpa using hnone⟩
      rcases getRange_fault hle hplace hrange with ⟨fault, h⟩ | h <;> cases h
  · intro h
    by_cases hlt : revTo.val < revFrom.val
    · refine ⟨fun _ => ⟨_, (getRange_empty hlt).mpr rfl, fun rev hlow hhigh => ?_, fun _ _ => rfl⟩, ?_⟩
      · omega
      · rintro ⟨rev, hlow, hhigh, -⟩
        omega
    · have hnone := h.resolve_left hlt
      refine ⟨fun hall => ?_, fun _ => (getRange_missing (not_lt.mp hlt) hnone).mpr rfl⟩
      have hsome := hall revFrom (le_refl _) (not_lt.mp hlt)
      rw [hnone] at hsome
      cases hsome

/-! ### A file that can be read -/

/-- The fields of a structure of the binary protocol, up to the zero (`T_STOP`) that ends
it. -/
def readStruct (data : List Char) : Option (List Char) :=
  if data.any (· = '\x00') then some (data.takeWhile (· ≠ '\x00')) else none

/-- A file with blanks between its fields, and the record of revision 1 of column 10000.
Its data are a structure without fields: one zero. -/
def spacedFile : File :=
  ((File.zeros 1200).write 0 "Fastore 0 0 1352000000 41 1024 0 1100".toList).write 1024
    "200 10000 1 1352000000 1".toList

def spacedManager : LogManager where
  files := .insert .empty ⟨0, zero_mem_long⟩ ⟨"log/0.fastlog", false, 1100⟩
  columns := .insert .empty ⟨10000, column_mem_long⟩
    ⟨[⟨⟨0, zero_mem_long⟩, ⟨1, one_mem_long⟩, [1024]⟩]⟩

open LogManager in
/-- The index has the revision, and its writes are in the file, but the data that are read end
before the zero, so the first turn throws. If the data were enough, as they are for `some`,
the loop would still be reading them after a billion turns. -/
theorem spaced_not_returned :
    let disk : String → Option File := fun _ => some spacedFile
    (∃ place, spacedManager.placeOf ⟨10000, by decide⟩ ⟨1, by decide⟩ = some place ∧
      readStruct ((spacedFile.rest 1048).take 1) = some [] ∧
      spacedManager.readWrites disk some place.1 place.2 = .ok []) ∧
    spacedManager.GetRange disk readStruct ⟨10000, by decide⟩ ⟨1, by decide⟩ ⟨1, by decide⟩
      (.error (.read .protocol)) ∧
    (¬ ∃ result, spacedManager.GetRange disk readStruct ⟨10000, by decide⟩ ⟨1, by decide⟩
      ⟨1, by decide⟩ (.ok result)) ∧
    (spacedManager.getRangeTurn disk some ⟨10000, by decide⟩ ⟨1, by decide⟩ ⟨1, by decide⟩).run
      (10 ^ 9) ⟨⟨1, by decide⟩, .empty⟩ = none := by
  have hplace : spacedManager.placeOf ⟨10000, by decide⟩ ⟨1, by decide⟩ =
      some (⟨0, zero_mem_long⟩, 1024) := by decide +kernel
  have hread : spacedManager.readWrites (fun _ => some spacedFile) some ⟨0, zero_mem_long⟩ 1024 =
      .ok [] := eq_ok_of_toOption (by decide +kernel)
  refine ⟨⟨_, hplace, by decide +kernel, hread⟩, ?_, ?_, ?_⟩
  · refine (Loop.ends_done ?_).mpr rfl
    rw [getRangeTurn, if_pos (le_refl _), hplace]
    simp only [readWrites_eq readStruct, hread]
    rfl
  · rintro ⟨result, hrange⟩
    rcases getRange_fault (le_refl _) hplace hrange with ⟨fault, h⟩ | h <;> cases h
  · exact getRange_rereads hplace hread _ _ (le_refl _) (by decide)

end Fastore.Store
