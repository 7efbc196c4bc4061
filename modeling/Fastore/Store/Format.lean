import Fastore.Lib.Runs
import Fastore.Store.Log
import Mathlib.Data.List.GetD

/-!
Reading a log file back.

The fields of a record are written one directly after the other, so a field
that does not start with a sign is read as a part of the field before it. A
type is followed by an ID, an ID or a revision by the next one or by the time,
and the time of a `TransactionBegin` or `ColumnRevision` record by a count. So
the only records that are read as they were written are those without a count
in which every number behind the type is negative, the time as well
(`Apart`).

The number of the type `Null` is what the stream stores if it finds no digit;
for that it needs a character to look at, so the records have to end before
the file does (`roundTrips_iff`).
-/

namespace Fastore.Store

open Lib List LogStream LogWriter Stream

/-! ### Numbers that follow each other -/

variable {f : File} {cs : List Char} {w : LogWriter} {record : Record} {p : ℕ} {code : ℤ}

section Fields

variable {s s' : Stream} {x v : Long} {cs : List Char}

structure Ahead (s : Stream) (cs : List Char) : Prop where
  good : s.good = true
  rest : s.file.rest s.pos = cs

theorem ahead_start (h : f.rest p = cs) : Ahead (.start f p) cs := ⟨rfl, h⟩

structure Passed (s s' : Stream) (n : ℕ) : Prop where
  file : s'.file = s.file
  pos : s'.pos = s.pos + n
  fail : s'.fail = false

theorem Passed.skip {n : ℕ} (h : Passed s s' n) (k : ℕ) :
    s'.skip k = .start s.file (s.pos + n + k) := by
  rw [Stream.skip, Stream.seekg, h.fail, if_neg (by simp), if_neg (by omega), h.file, h.pos]
  rfl

theorem Passed.trans {s'' : Stream} {n m : ℕ} (h : Passed s s' n) (h' : Passed s' s'' m) :
    Passed s s'' (n + m) :=
  ⟨h'.file.trans h.file, by rw [h'.pos, h.pos, Nat.add_assoc], h'.fail⟩

theorem extract_exact {low high : ℤ} {h : low ≤ high} {x : Ranged low high}
    (hs : Ahead s (decimal x ++ cs)) (hcs : NoDigit cs) :
    ∃ s', s.extract h = (some x, s') ∧ Passed s s' (decimal x).length ∧ (cs ≠ [] → Ahead s' cs) := by
  have hread := extract_decimal (h := h) hs.good hs.rest
  have hdrop : cs.dropWhile Char.isDigit = cs := by
    have hsplit := takeWhile_append_dropWhile (p := Char.isDigit) (l := cs)
    rwa [takeWhile_of_noDigit hcs, nil_append] at hsplit
  simp only [takeWhile_of_noDigit hcs, followed_nil, Ranged.clamp_val, x.property, and_self,
    decide_true, Bool.not_true, hdrop, length_nil, Nat.add_zero] at hread
  refine ⟨_, hread, ⟨rfl, rfl, rfl⟩, fun hne => ⟨?_, ?_⟩⟩
  · simp [good, hne]
  · dsimp only
    rw [File.rest_add, hs.rest, drop_left]

theorem long_exact (hs : Ahead s (decimal x ++ cs)) (hcs : NoDigit cs) :
    ∃ s', long s = .ok (x, s') ∧ Passed s s' (decimal x).length ∧ (cs ≠ [] → Ahead s' cs) := by
  obtain ⟨s', hread, h⟩ := extract_exact (h := by decide) hs hcs
  exact ⟨s', by rw [long, extractLong, hread]; rfl, h⟩

theorem takeWhile_ne_nil (hcs : ¬ NoDigit cs) : cs.takeWhile Char.isDigit ≠ [] := by
  intro hnil
  apply hcs
  have hsplit := takeWhile_append_dropWhile (p := Char.isDigit) (l := cs)
  rw [hnil, nil_append] at hsplit
  exact hsplit ▸ noDigit_dropWhile cs

theorem long_misread (hs : Ahead s (decimal x ++ cs)) (hx : x.val ≠ 0) (hcs : ¬ NoDigit cs)
    (hread : long s = .ok (v, s')) (hfail : s'.fail = false) : v ≠ x := by
  have hgreater := natAbs_followed (x := x.val) (takeWhile_ne_nil hcs)
  rw [long, extractLong, extract_decimal hs.good hs.rest] at hread
  obtain ⟨rfl, rfl⟩ := Prod.mk.inj (Except.ok.inj hread)
  rintro hv
  have hrange : -2 ^ 63 ≤ followed x (cs.takeWhile Char.isDigit) ∧
      followed x (cs.takeWhile Char.isDigit) ≤ 2 ^ 63 - 1 := by simpa using hfail
  have hval := congrArg Subtype.val hv
  simp only [Ranged.clamp] at hval
  omega

theorem fail_of_long {r : Long × Stream} (h : long s = .ok r) : s.fail = false := by
  by_contra hfail
  rw [long, extractLong, extract_of_not_good (by simp [good, hfail])] at h
  cases h

theorem fail_of_word {r : Word × Stream} (h : word s = .ok r) : s.fail = false := by
  by_contra hfail
  rw [word, extractWord, extract_of_not_good (by simp [good, hfail])] at h
  cases h

theorem not_noDigit_decimal {y : ℤ} (hy : 0 ≤ y) (cs : List Char) :
    ¬ NoDigit (decimal y ++ cs) := by
  obtain ⟨d, ds, hd, hdigit⟩ := exists_digit_decimal hy
  intro h
  have hfalse := h d (by simp [hd])
  rw [hdigit] at hfalse
  cases hfalse

end Fields

/-! ### The text of a record -/

def fields : Long × Record → List Long
  | (now, .transactionBegin transactionId _) => [transactionId, now]
  | (now, .transactionEnd transactionId) => [transactionId, now]
  | (now, .columnRevision columnId revision _) => [columnId, revision, now]
  | (now, .checkpoint columnId revision) => [columnId, revision, now]
  | (now, .rollback transactionId) => [transactionId, now]

def typeOf : Record → RecordType
  | .transactionBegin .. => .transactionBegin
  | .transactionEnd .. => .transactionEnd
  | .columnRevision .. => .columnRevision
  | .checkpoint .. => .checkpoint
  | .rollback .. => .transactionRollback

def rear : Record → List Char
  | .transactionBegin _ revisions => decimal revisions.entries.length ++
      revisions.entries.flatMap fun e => decimal e.1 ++ decimal e.2
  | .columnRevision _ _ data => decimal data.length ++ data
  | _ => []

def text (e : Long × Record) : List Char :=
  decimal (typeOf e.2).code ++ ((fields e).flatMap (fun x : Long => decimal x) ++ rear e.2)

theorem write_eq (w : LogWriter) (e : Long × Record) : w.write e = w.append (text e) := by
  obtain ⟨now, record⟩ := e
  cases record <;>
    simp [write, writeTransactionBegin, writeTransactionEnd,
      writeRevision, writeCheckpoint, writeRollback, text, fields,
      rear, typeOf, append_assoc]

/-- A record that can be read back: it has no count, and all of its numbers are negative. -/
def Apart (e : Long × Record) : Prop := rear e.2 = [] ∧ ∀ x ∈ fields e, x.val < 0

/-! ### Reading the numbers -/

def longs : ℕ → Stream → Except Fault (List Long × Stream)
  | 0, s => .ok ([], s)
  | n + 1, s => do
    let (x, s) ← long s
    let (xs, s) ← longs n s
    .ok (x :: xs, s)

section Numbers

variable {s s' : Stream} {x : Long} {xs ys : List Long} {cs : List Char} {n : ℕ}

theorem longs_succ_eq_ok (h : longs (n + 1) s = .ok (ys, s')) :
    ∃ y s₁ ys', long s = .ok (y, s₁) ∧ longs n s₁ = .ok (ys', s') ∧ ys = y :: ys' := by
  obtain ⟨⟨y, s₁⟩, hy, h⟩ := eq_ok_of_bind h
  obtain ⟨⟨ys', s₂⟩, hys, h⟩ := eq_ok_of_bind h
  obtain ⟨rfl, rfl⟩ := Prod.mk.inj (Except.ok.inj h)
  exact ⟨y, s₁, ys', hy, hys, rfl⟩

theorem noDigit_flatMap (hxs : ∀ y ∈ xs, y.val < 0) (hcs : NoDigit cs) :
    NoDigit (xs.flatMap (fun x : Long => decimal x) ++ cs) := by
  cases xs with
  | nil => exact hcs
  | cons y ys =>
    rw [flatMap_cons, append_assoc]
    exact noDigit_decimal_append (hxs y mem_cons_self) _

theorem longs_exact (hs : Ahead s ((x :: xs).flatMap (fun x : Long => decimal x) ++ cs))
    (hxs : ∀ y ∈ xs, y.val < 0) (hcs : NoDigit cs) :
    ∃ s', longs (x :: xs).length s = .ok (x :: xs, s') ∧
      Passed s s' ((x :: xs).flatMap (fun x : Long => decimal x)).length := by
  induction xs generalizing x s with
  | nil =>
    simp only [flatMap_cons, flatMap_nil, append_nil] at hs ⊢
    obtain ⟨s', hread, hpassed, -⟩ := long_exact hs hcs
    refine ⟨s', ?_, hpassed⟩
    simp only [length_cons, length_nil, longs, hread, bind, Except.bind]
  | cons y ys ih =>
    rw [flatMap_cons, append_assoc] at hs
    obtain ⟨s₁, hread, hpassed, hahead⟩ := long_exact hs (noDigit_flatMap hxs hcs)
    obtain ⟨s', hrest, hpassed'⟩ := ih (hahead (by simp [decimal_ne_nil]))
      fun z hz => hxs z (mem_cons_of_mem _ hz)
    refine ⟨s', ?_, ?_⟩
    · rw [length_cons, longs, hread]
      simp only [bind, Except.bind, hrest]
    · rw [flatMap_cons, length_append]
      exact hpassed.trans hpassed'

/-- A negative number in front of digits is misread. -/
theorem longs_misread (hs : Ahead s ((x :: xs).flatMap (fun x : Long => decimal x) ++ cs))
    (hx : x.val < 0) (hbad : ¬ ((∀ y ∈ xs, y.val < 0) ∧ NoDigit cs))
    (hread : longs (x :: xs).length s = .ok (ys, s')) (hfail : ¬ NoDigit cs → s'.fail = false) :
    ys ≠ x :: xs := by
  induction xs generalizing x s ys with
  | nil =>
    obtain ⟨y, s₁, ys', hy, hys, rfl⟩ := longs_succ_eq_ok hread
    obtain ⟨rfl, rfl⟩ := Prod.mk.inj (Except.ok.inj hys)
    have hcs : ¬ NoDigit cs := fun hcs => hbad ⟨by simp, hcs⟩
    simp only [flatMap_cons, flatMap_nil, append_nil] at hs
    intro heq
    exact long_misread hs (by omega) hcs hy (hfail hcs) (List.cons.inj heq).1
  | cons z zs ih =>
    obtain ⟨y, s₁, ys', hy, hys, rfl⟩ := longs_succ_eq_ok hread
    rw [flatMap_cons, append_assoc] at hs
    by_cases hz : z.val < 0
    · have hno : NoDigit ((z :: zs).flatMap (fun x : Long => decimal x) ++ cs) := by
        rw [flatMap_cons, append_assoc]
        exact noDigit_decimal_append hz _
      obtain ⟨s₂, hread', -, hahead⟩ := long_exact hs hno
      obtain ⟨rfl, rfl⟩ := Prod.mk.inj (ok_unique hy hread')
      have hrest := ih (hahead (by simp [decimal_ne_nil])) hz (fun h => hbad ⟨fun w hw => ?_, h.2⟩)
        hys
      · exact fun heq => hrest (List.cons.inj heq).2
      · rcases mem_cons.mp hw with rfl | hw
        · exact hz
        · exact h.1 w hw
    · -- the digits of the next number are taken for digits of this one
      obtain ⟨y', s₂, -, hy', -, -⟩ := longs_succ_eq_ok hys
      have hno : ¬ NoDigit ((z :: zs).flatMap (fun x : Long => decimal x) ++ cs) := by
        rw [flatMap_cons, append_assoc]
        exact not_noDigit_decimal (not_lt.mp hz) _
      intro heq
      exact long_misread hs (by omega) hno hy (fail_of_long hy') (List.cons.inj heq).1

end Numbers

/-! ### Reading a record -/

section Records

variable {l : LogStream} {s s' : Stream} {cs : List Char} {e : Long × Record}

theorem readNextRecordType_eq (hs : l.stream.good = true) (hpos : (l.stream.pos : ℤ) ≤ l.size) :
    l.readNextRecordType = (word l.stream).map fun r => (r.1.val, r.2) := by
  have heof : l.stream.eof = false := by
    have hgood := hs
    simp only [good, Bool.and_eq_true, Bool.not_eq_true'] at hgood
    exact hgood.1
  rw [readNextRecordType, heof, tellg, hs]
  simp only [Bool.false_eq_true, if_false, if_true, if_pos hpos]
  cases word l.stream <;> rfl

theorem typeOf_code (record : Record) : 100 ≤ (typeOf record).code ∧ (typeOf record).code ≤ 400 := by
  cases record <;> simp [typeOf, RecordType.code]

theorem ofCode_typeOf (record : Record) :
    RecordType.ofCode (typeOf record).code = some (typeOf record) := by
  cases record <;> rfl

theorem ofCode_eq_none (h : 400 < code) : RecordType.ofCode code = none := by
  rw [RecordType.ofCode, find?_eq_none]
  intro type _
  rw [decide_eq_true_eq]
  cases type <;> simp only [RecordType.code] <;> omega

theorem readType_exact (hs : Ahead l.stream (decimal (typeOf record).code ++ cs))
    (hpos : (l.stream.pos : ℤ) ≤ l.size) (hcs : NoDigit cs) :
    ∃ s', l.readNextRecordType = .ok ((typeOf record).code, s') ∧
      Passed l.stream s' (decimal (typeOf record).code).length ∧ (cs ≠ [] → Ahead s' cs) := by
  have hcode := typeOf_code record
  let type : Word := ⟨(typeOf record).code, by omega, by omega⟩
  obtain ⟨s', hread, h⟩ := extract_exact (h := by decide) (x := type) hs hcs
  refine ⟨s', ?_, h⟩
  rw [readNextRecordType_eq hs.good hpos, word, extractWord, hread]
  rfl

theorem readType_misread (hs : Ahead l.stream (decimal (typeOf record).code ++ cs))
    (hpos : (l.stream.pos : ℤ) ≤ l.size) (hcs : ¬ NoDigit cs)
    (hread : l.readNextRecordType = .ok (code, s')) : RecordType.ofCode code = none := by
  have hcode := typeOf_code record
  have hgreater := natAbs_followed (x := (typeOf record).code) (takeWhile_ne_nil hcs)
  rw [readNextRecordType_eq hs.good hpos, word, extractWord,
    extract_decimal hs.good hs.rest] at hread
  obtain ⟨rfl, -⟩ := Prod.mk.inj (Except.ok.inj hread)
  apply ofCode_eq_none
  have hnonneg := followed_nonneg (x := (typeOf record).code) (by omega) (cs.takeWhile Char.isDigit)
  simp only [Ranged.clamp]
  omega

/-- A record that is read was read as numbers. -/
theorem longs_of_readRecord {type : RecordType} {header : RecordHeader} (hs : s.good = true)
    (hread : l.readRecord type s = .ok (header, record, s')) :
    typeOf record = type ∧
    ∃ s₁, longs (fields (header.timeStamp, record)).length s =
        .ok (fields (header.timeStamp, record), s₁) ∧
      (rear record ≠ [] → s₁.fail = false) := by
  have htell : s.tellg = ((s.pos : ℤ), s) := if_pos hs
  cases type with
  | null => cases hread
  | transactionBegin =>
    simp only [readRecord, readTransactionBegin, htell] at hread
    obtain ⟨⟨transactionId, s₁⟩, h₁, hread⟩ := eq_ok_of_bind hread
    obtain ⟨⟨timeStamp, s₂⟩, h₂, hread⟩ := eq_ok_of_bind hread
    obtain ⟨⟨size, s₃⟩, h₃, hread⟩ := eq_ok_of_bind hread
    obtain ⟨⟨revisions, s₄⟩, -, hread⟩ := eq_ok_of_bind hread
    cases hread
    refine ⟨rfl, s₂, ?_, fun _ => fail_of_word h₃⟩
    simp only [fields, length_cons, length_nil, longs, h₁, h₂, bind, Except.bind]
  | transactionEnd =>
    simp only [readRecord, readTransactionEnd, htell] at hread
    obtain ⟨⟨transactionId, s₁⟩, h₁, hread⟩ := eq_ok_of_bind hread
    obtain ⟨⟨timeStamp, s₂⟩, h₂, hread⟩ := eq_ok_of_bind hread
    cases hread
    refine ⟨rfl, s₂, ?_, fun h => absurd rfl h⟩
    simp only [fields, length_cons, length_nil, longs, h₁, h₂, bind, Except.bind]
  | columnRevision =>
    simp only [readRecord, readRevision, htell] at hread
    obtain ⟨⟨columnId, s₁⟩, h₁, hread⟩ := eq_ok_of_bind hread
    obtain ⟨⟨revision, s₂⟩, h₂, hread⟩ := eq_ok_of_bind hread
    obtain ⟨⟨timeStamp, s₃⟩, h₃, hread⟩ := eq_ok_of_bind hread
    obtain ⟨⟨size, s₄⟩, h₄, hread⟩ := eq_ok_of_bind hread
    dsimp only at hread
    split at hread
    · cases hread
    · split at hread
      · cases hread
        refine ⟨rfl, s₃, ?_, fun _ => fail_of_word h₄⟩
        simp only [fields, length_cons, length_nil, longs, h₁, h₂, h₃, bind, Except.bind]
      · cases hread
  | transactionRollback =>
    simp only [readRecord, readRollBack, htell] at hread
    obtain ⟨⟨transactionId, s₁⟩, h₁, hread⟩ := eq_ok_of_bind hread
    obtain ⟨⟨timeStamp, s₂⟩, h₂, hread⟩ := eq_ok_of_bind hread
    cases hread
    refine ⟨rfl, s₂, ?_, fun h => absurd rfl h⟩
    simp only [fields, length_cons, length_nil, longs, h₁, h₂, bind, Except.bind]
  | checkpoint =>
    simp only [readRecord, readCheckpoint, htell] at hread
    obtain ⟨⟨columnId, s₁⟩, h₁, hread⟩ := eq_ok_of_bind hread
    obtain ⟨⟨revision, s₂⟩, h₂, hread⟩ := eq_ok_of_bind hread
    obtain ⟨⟨timeStamp, s₃⟩, h₃, hread⟩ := eq_ok_of_bind hread
    cases hread
    refine ⟨rfl, s₃, ?_, fun h => absurd rfl h⟩
    simp only [fields, length_cons, length_nil, longs, h₁, h₂, h₃, bind, Except.bind]

theorem readRecord_of_longs (hs : s.good = true) (hrear : rear e.2 = [])
    (hlongs : longs (fields e).length s = .ok (fields e, s')) :
    l.readRecord (typeOf e.2) s = .ok (⟨e.1, l.lsn, s.pos - 4⟩, e.2, s'.skip 16) := by
  have htell : s.tellg = ((s.pos : ℤ), s) := if_pos hs
  obtain ⟨now, record⟩ := e
  cases record with
  | transactionBegin transactionId revisions =>
    exact absurd (append_eq_nil_iff.mp hrear).1 (decimal_ne_nil _)
  | columnRevision columnId revision data =>
    exact absurd (append_eq_nil_iff.mp hrear).1 (decimal_ne_nil _)
  | transactionEnd transactionId =>
    obtain ⟨a, s₁, ys, h₁, h, ha⟩ := longs_succ_eq_ok hlongs
    obtain ⟨b, s₂, zs, h₂, h, hb⟩ := longs_succ_eq_ok h
    cases h
    cases ha
    cases hb
    simp only [typeOf, readRecord, readTransactionEnd, htell, h₁, h₂, bind,
      Except.bind]
  | checkpoint columnId revision =>
    obtain ⟨a, s₁, ys, h₁, h, ha⟩ := longs_succ_eq_ok hlongs
    obtain ⟨b, s₂, zs, h₂, h, hb⟩ := longs_succ_eq_ok h
    obtain ⟨c, s₃, ws, h₃, h, hc⟩ := longs_succ_eq_ok h
    cases h
    cases ha
    cases hb
    cases hc
    simp only [typeOf, readRecord, readCheckpoint, htell, h₁, h₂, h₃, bind,
      Except.bind]
  | rollback transactionId =>
    obtain ⟨a, s₁, ys, h₁, h, ha⟩ := longs_succ_eq_ok hlongs
    obtain ⟨b, s₂, zs, h₂, h, hb⟩ := longs_succ_eq_ok h
    cases h
    cases ha
    cases hb
    simp only [typeOf, readRecord, readRollBack, htell, h₁, h₂, bind,
      Except.bind]

theorem noDigit_rear (record : Record) (hcs : NoDigit cs) :
    NoDigit (rear record ++ cs) ↔ rear record = [] := by
  constructor
  · intro h
    cases record with
    | transactionBegin transactionId revisions =>
      rw [rear, append_assoc] at h
      exact absurd h (not_noDigit_decimal (by omega) _)
    | columnRevision columnId revision data =>
      rw [rear, append_assoc] at h
      exact absurd h (not_noDigit_decimal (by omega) _)
    | transactionEnd transactionId => rfl
    | checkpoint columnId revision => rfl
    | rollback transactionId => rfl
  · intro h
    rwa [h]

theorem exists_fields (e : Long × Record) : ∃ x xs, fields e = x :: xs := by
  obtain ⟨now, record⟩ := e
  cases record <;> exact ⟨_, _, rfl⟩

theorem typeOf_ne_null (record : Record) : typeOf record ≠ .null := by
  cases record <;> simp [typeOf]

theorem readRecords_succ {type : RecordType} (htype : l.readNextRecordType = .ok (code, s))
    (hcode : RecordType.ofCode code = some type) (hnull : type ≠ .null) (fuel : ℕ) :
    l.readRecords (fuel + 1) = l.readRecord type s >>= fun r =>
      (readRecords fuel { l with stream := r.2.2 }).map ((r.1, r.2.1) :: ·) := by
  have hmap : ∀ (x : Except Fault (List (RecordHeader × Record))) (a : RecordHeader × Record),
      (x >>= fun rs => .ok (a :: rs)) = x.map (a :: ·) := fun x a => by cases x <;> rfl
  rw [readRecords, htype]
  simp only [bind, Except.bind, hcode]
  cases type with
  | null => exact absurd rfl hnull
  | _ =>
    cases l.readRecord _ s with
    | error fault => rfl
    | ok r => exact hmap _ _

theorem readRecords_of_apart (hs : Ahead l.stream (text e ++ cs)) (hcs : NoDigit cs)
    (hpos : (l.stream.pos : ℤ) ≤ l.size) (he : Apart e) (fuel : ℕ) :
    ∃ header : RecordHeader, header.timeStamp = e.1 ∧
      l.readRecords (fuel + 1) =
        (readRecords fuel { l with
          stream := .start l.stream.file (l.stream.pos + (text e).length + 16) }).map
            ((header, e.2) :: ·) := by
  obtain ⟨x, xs, hxs⟩ := exists_fields e
  have hneg : ∀ y ∈ x :: xs, y.val < 0 := hxs ▸ he.2
  rw [text, he.1, append_nil, append_assoc] at hs
  have hno : NoDigit ((fields e).flatMap (fun x : Long => decimal x) ++ cs) :=
    noDigit_flatMap he.2 hcs
  obtain ⟨s₁, htype, hpassed, hahead⟩ := readType_exact hs hpos hno
  have hahead₁ := hahead (by simp [hxs, decimal_ne_nil])
  rw [hxs] at hahead₁
  obtain ⟨s₂, hlongs, hpassed₂⟩ := longs_exact hahead₁
    (fun y hy => hneg y (mem_cons_of_mem _ hy)) hcs
  rw [← hxs] at hlongs hpassed₂
  have hrecord := readRecord_of_longs (l := l) hahead₁.good he.1 hlongs
  refine ⟨⟨e.1, l.lsn, s₁.pos - 4⟩, rfl, ?_⟩
  have hskip : s₂.skip 16 = .start l.stream.file (l.stream.pos + (text e).length + 16) := by
    rw [(hpassed.trans hpassed₂).skip, text, he.1, append_nil, length_append]
  rw [readRecords_succ htype (ofCode_typeOf _) (typeOf_ne_null _), hrecord, ← hskip]
  rfl

/-- A record whose fields run together is not read back. -/
theorem readRecords_of_not_apart (hs : Ahead l.stream (text e ++ cs)) (hcs : NoDigit cs)
    (hpos : (l.stream.pos : ℤ) ≤ l.size) (he : ¬ Apart e) {fuel : ℕ}
    {rs : List (RecordHeader × Record)} (hread : l.readRecords fuel = .ok rs)
    (es : List (Long × Record)) : rs.map (fun r => (r.1.timeStamp, r.2)) ≠ e :: es := by
  obtain ⟨x, xs, hxs⟩ := exists_fields e
  rw [text, append_assoc, append_assoc, hxs] at hs
  cases fuel with
  | zero => cases hread
  | succ fuel =>
    by_cases hx : x.val < 0
    · have hno : NoDigit ((x :: xs).flatMap (fun x : Long => decimal x) ++ (rear e.2 ++ cs)) := by
        rw [flatMap_cons, append_assoc]
        exact noDigit_decimal_append hx _
      obtain ⟨s₁, htype, -, hahead⟩ := readType_exact hs hpos hno
      have hahead₁ := hahead (by simp [decimal_ne_nil])
      rw [readRecords_succ htype (ofCode_typeOf _) (typeOf_ne_null _)] at hread
      obtain ⟨⟨header, record, s₂⟩, hrecord, hread⟩ := eq_ok_of_bind hread
      obtain ⟨-, s₃, hlongs, hfail⟩ := longs_of_readRecord hahead₁.good hrecord
      intro heq
      cases hrest : readRecords fuel { l with stream := s₂ } with
      | error fault =>
        rw [hrest] at hread
        cases hread
      | ok rs' =>
        rw [hrest] at hread
        obtain rfl := Except.ok.inj hread
        obtain rfl : (header.timeStamp, record) = e := (List.cons.inj heq).1
        rw [hxs] at hlongs
        refine longs_misread hahead₁ hx (fun h => he ?_) hlongs (fun h => hfail ?_) rfl
        · refine ⟨(noDigit_rear record hcs).mp h.2, ?_⟩
          rw [hxs]
          exact forall_mem_cons.mpr ⟨hx, h.1⟩
        · exact fun hrear => h ((noDigit_rear record hcs).mpr hrear)
    · -- the first number is read as a part of the type
      have hno : ¬ NoDigit ((x :: xs).flatMap (fun x : Long => decimal x) ++ (rear e.2 ++ cs)) := by
        rw [flatMap_cons, append_assoc]
        exact not_noDigit_decimal (not_lt.mp hx) _
      rw [readRecords] at hread
      obtain ⟨⟨code, s₁⟩, htype, hread⟩ := eq_ok_of_bind hread
      simp only [readType_misread hs hpos hno htype] at hread
      cases hread

end Records

/-! ### Reading a file -/

/-- The records stand in the file from a position on, and end at `size`. -/
def Stands (f : File) (size : ℕ) : ℕ → List (Long × Record) → Prop
  | p, [] => p = size ∧ f.char p = '\x00'
  | p, e :: es => p ≤ size ∧ f.rest p = text e ++ f.rest (p + (text e).length) ∧
      NoDigit (f.rest (p + (text e).length)) ∧ Stands f size (p + (text e).length + 16) es

theorem readRecords_null {l : LogStream} (hl : l.stream = .start f p) (hsize : l.size = p)
    (hchar : f.char p = '\x00') (fuel : ℕ) :
    l.readRecords (fuel + 1) = if p < f.length then .ok [] else .error .unset := by
  have htype := readNextRecordType_eq (l := l) (by rw [hl]; rfl) (by rw [hl, hsize]; rfl)
  rw [readRecords, htype, word, extractWord, Stream.extract, hl, if_pos (by rfl)]
  by_cases hp : p < f.length
  · have hrest : f.rest p = '\x00' :: f.rest (p + 1) := by rw [File.rest_of_lt hp, hchar]
    have hspace : isSpace '\x00' = false := by decide
    have hscan : scan ('\x00' :: f.rest (p + 1)) = (none, 0) := by
      simp [scan]
    simp only [Stream.start, hrest, dropWhile_cons, hspace, Bool.false_eq_true, if_false,
      isEmpty_cons, hscan, if_pos hp]
    rfl
  · have hrest : f.rest p = [] := File.rest_eq_nil.mpr (not_lt.mp hp)
    simp only [Stream.start, hrest, dropWhile_nil, isEmpty_nil, if_true, if_neg hp]
    rfl

theorem eq_ok_of_map {α β : Type} {x : Except Fault α} {g : α → β} {b : β}
    (h : x.map g = .ok b) : ∃ a, x = .ok a ∧ g a = b := by
  cases x with
  | error fault => cases h
  | ok a => exact ⟨a, rfl, Except.ok.inj h⟩

/-- Records are read back if they are apart and the file goes on behind them. -/
theorem readRecords_stands {size : ℕ} {es : List (Long × Record)} {lsn : Long} {complete : Word}
    (h : Stands f size p es) :
    (∃ fuel rs, readRecords fuel { stream := .start f p, lsn, complete, size } = .ok rs ∧
      rs.map (fun r => (r.1.timeStamp, r.2)) = es) ↔
    (∀ e ∈ es, Apart e) ∧ size < f.length := by
  induction es generalizing p with
  | nil =>
    obtain ⟨rfl, hchar⟩ := h
    constructor
    · rintro ⟨fuel, rs, hread, -⟩
      refine ⟨by simp, ?_⟩
      cases fuel with
      | zero => cases hread
      | succ fuel =>
        rw [readRecords_null rfl rfl hchar] at hread
        by_contra hp
        rw [if_neg hp] at hread
        cases hread
    · rintro ⟨-, hp⟩
      exact ⟨1, [], by rw [readRecords_null rfl rfl hchar, if_pos hp], rfl⟩
  | cons e es ih =>
    obtain ⟨hpos, hrest, hno, h⟩ := h
    have hahead : Ahead (.start f p) (text e ++ f.rest (p + (text e).length)) := ahead_start hrest
    have hpos' : ((start f p).pos : ℤ) ≤ size := by exact_mod_cast hpos
    let l : LogStream := { stream := .start f p, lsn, complete, size }
    constructor
    · rintro ⟨fuel, rs, hread, hes⟩
      by_cases he : Apart e
      · cases fuel with
        | zero => cases hread
        | succ fuel =>
          obtain ⟨header, -, hstep⟩ := readRecords_of_apart (l := l) hahead hno hpos' he fuel
          rw [hstep] at hread
          obtain ⟨rs', hread', rfl⟩ := eq_ok_of_map hread
          have hrest := (ih h).mp ⟨fuel, rs', hread', (List.cons.inj hes).2⟩
          exact ⟨forall_mem_cons.mpr ⟨he, hrest.1⟩, hrest.2⟩
      · exact absurd hes (readRecords_of_not_apart (l := l) hahead hno hpos' he hread es)
    · rintro ⟨hall, hlength⟩
      rw [forall_mem_cons] at hall
      obtain ⟨fuel, rs, hread, hes⟩ := (ih h).mpr ⟨hall.2, hlength⟩
      obtain ⟨header, htime, hstep⟩ := readRecords_of_apart (l := l) hahead hno hpos' hall.1 fuel
      refine ⟨fuel + 1, (header, e.2) :: rs, ?_, ?_⟩
      · rw [hstep]
        exact congrArg (Except.map ((header, e.2) :: ·)) hread
      · rw [map_cons, hes, htime]

/-! ### Writing a file -/

/-- What has been written behind the header, with the gaps. -/
structure Written (w : LogWriter) (cs : List Char) : Prop where
  size : w.size = logHeaderSize + cs.length
  length : w.file.length = max maxLogSize (w.size - 16)
  char : ∀ i, w.file.char (logHeaderSize + i) = cs.getD i '\x00'

theorem length_headerText (lsn now size : Long) (rand complete : Word) :
    (headerText lsn now size rand complete).length ≤ logHeaderSize := by
  have hlong : ∀ x : Long, (decimal x).length ≤ 20 := fun x =>
    length_decimal (k := 19) (by decide) (by obtain ⟨x, hx⟩ := x; simp only; omega)
  have hword : ∀ x : Word, (decimal x).length ≤ 20 := fun x =>
    length_decimal (k := 19) (by decide) (by obtain ⟨x, hx⟩ := x; simp only; omega)
  have hversion : (decimal version).length = 1 := by decide
  have hsize : (decimal logHeaderSize).length = 4 := by decide
  have hsignature : signature.length = 7 := by decide
  have hbound : 172 ≤ logHeaderSize := by decide
  have h₁ := hlong lsn
  have h₂ := hlong now
  have h₃ := hlong size
  have h₄ := hword rand
  have h₅ := hword complete
  simp only [headerText, length_append]
  omega

theorem written_create (lsn now size : Long) (rand : Word) :
    Written (.create lsn now size rand) [] := by
  have hheader := length_headerText lsn now size rand ⟨0, by decide⟩
  have hmax : logHeaderSize ≤ maxLogSize := by decide
  have hne : headerText lsn now size rand ⟨0, by decide⟩ ≠ [] := by
    simp [headerText, decimal_ne_nil]
  refine ⟨rfl, ?_, fun i => ?_⟩
  · simp only [create, File.write, File.zeros, List.isEmpty_iff, if_neg hne]
    omega
  · simp only [create, File.write, File.zeros, Nat.zero_le, if_true, Nat.sub_zero]
    rw [getD_eq_default _ _ (by omega)]
    rfl

theorem Written.append {t : List Char} (h : Written w cs) (ht : t ≠ []) :
    Written (w.append t) (cs ++ (t ++ List.replicate 16 '\x00')) := by
  refine ⟨?_, ?_, fun i => ?_⟩
  · simp [LogWriter.append, h.size]
    omega
  · simp only [LogWriter.append, File.write, h.length, h.size, List.isEmpty_iff, if_neg ht]
    omega
  · simp only [LogWriter.append, File.write, h.char, h.size, Nat.add_le_add_iff_left,
      Nat.add_sub_add_left]
    by_cases hi : cs.length ≤ i
    · rw [if_pos hi, getD_append_right _ _ _ _ hi, getD_eq_default cs _ hi]
      by_cases hj : t.length ≤ i - cs.length
      · rw [getD_append_right _ _ _ _ hj, getD_eq_default t _ hj,
          getD_eq_getElem?_getD, getElem?_getD_replicate_default_eq]
      · rw [getD_append _ _ _ _ (not_le.mp hj)]
    · rw [if_neg hi, getD_append _ _ _ _ (not_le.mp hi)]

def image (es : List (Long × Record)) : List Char :=
  es.flatMap fun e => text e ++ List.replicate 16 '\x00'

theorem text_ne_nil (e : Long × Record) : text e ≠ [] := by simp [text, decimal_ne_nil]

theorem Written.foldl (h : Written w cs) (es : List (Long × Record)) :
    Written (es.foldl write w) (cs ++ image es) := by
  induction es generalizing w cs with
  | nil => simpa [image] using h
  | cons e es ih =>
    have hstep := ih (h.append (text_ne_nil e))
    rw [← write_eq, append_assoc] at hstep
    exact hstep

theorem Written.stands {es : List (Long × Record)} (h : Written w (cs ++ image es)) :
    Stands w.file w.size (logHeaderSize + cs.length) es := by
  induction es generalizing cs with
  | nil =>
    rw [image, flatMap_nil, append_nil] at h
    exact ⟨h.size.symm, by rw [h.char, getD_eq_default _ _ (le_refl _)]⟩
  | cons e es ih =>
    have himage : cs ++ image (e :: es) =
        cs ++ (text e ++ List.replicate 16 '\x00') ++ image es := by
      simp [image]
    rw [himage] at h
    have hsize := h.size
    have hlength := h.length
    simp only [length_append, length_replicate] at hsize
    have hchar : ∀ i c, (text e ++ List.replicate 16 '\x00')[i]? = some c →
        w.file.char (logHeaderSize + cs.length + i) = c := by
      intro i c hc
      obtain ⟨hi, -⟩ := List.getElem?_eq_some_iff.mp hc
      rw [Nat.add_assoc, h.char, List.append_assoc, List.getD_append_right _ _ _ _ (by omega),
        Nat.add_sub_cancel_left, getD_append _ _ _ _ hi, getD_eq_getElem?_getD, hc]
      rfl
    refine ⟨by omega, ?_, ?_, ?_⟩
    · refine File.rest_eq_append (by omega) fun i c hc => hchar i c ?_
      obtain ⟨hi, -⟩ := List.getElem?_eq_some_iff.mp hc
      rw [List.getElem?_append_left hi, hc]
    · by_cases hend : w.file.length ≤ logHeaderSize + cs.length + (text e).length
      · rw [File.rest_eq_nil.mpr hend]
        exact noDigit_nil
      · rw [File.rest_of_lt (not_le.mp hend), hchar (text e).length '\x00' (by simp)]
        exact noDigit_cons (by decide)
    · have hrest := ih h
      rwa [length_append, length_append, length_replicate, ← Nat.add_assoc,
        ← Nat.add_assoc] at hrest

def LogWriter.reader (w : LogWriter) : LogStream :=
  { stream := .start w.file logHeaderSize, lsn := w.lsn, complete := w.complete, size := w.size }

/-- The records are read as they have been written, each with its time, and then `Null`. -/
def RoundTrips (w : LogWriter) (es : List (Long × Record)) : Prop :=
  ∃ fuel rs, (es.foldl write w).reader.readRecords fuel = .ok rs ∧
    rs.map (fun r => (r.1.timeStamp, r.2)) = es

/-- **The format**: records that are written to a new file are read back if and only if
they have no counts, all of their numbers and times are negative, and they end
before the end of the file. -/
theorem roundTrips_iff (lsn now size : Long) (rand : Word) (es : List (Long × Record)) :
    RoundTrips (.create lsn now size rand) es ↔
      (∀ e ∈ es, Apart e) ∧
        (es.foldl LogWriter.write (.create lsn now size rand)).size < maxLogSize := by
  have hwritten := (written_create lsn now size rand).foldl es
  have hlength : (es.foldl write (.create lsn now size rand)).size <
      (es.foldl write (.create lsn now size rand)).file.length ↔
      (es.foldl LogWriter.write (.create lsn now size rand)).size < maxLogSize := by
    rw [hwritten.length]
    have hsize := hwritten.size
    have hheader : 0 < logHeaderSize := by decide
    omega
  rw [← hlength]
  exact readRecords_stands hwritten.stands

/-- The end of transaction 5 is read as a record of type 2147483647. -/
theorem transactionEnd_misread :
    (match ((LogWriter.create ⟨0, by decide⟩ ⟨1352000000, by decide⟩ ⟨0, by decide⟩
        ⟨41, by decide⟩).writeTransactionEnd ⟨5, by decide⟩
          ⟨1352000001, by decide⟩).reader.readNextRecordType with
      | .ok (code, _) => some code
      | .error _ => none) = some 2147483647 ∧
    ¬ RoundTrips (.create ⟨0, by decide⟩ ⟨1352000000, by decide⟩ ⟨0, by decide⟩ ⟨41, by decide⟩)
      [(⟨1352000001, by decide⟩, .transactionEnd ⟨5, by decide⟩)] := by
  refine ⟨by decide +kernel, ?_⟩
  intro h
  have hapart := ((readRecords_stands ((written_create ..).foldl _).stands).mp h).1 _
    (mem_singleton_self _)
  exact absurd (hapart.2 ⟨5, by decide⟩ (by simp [fields])) (by decide)

end Fastore.Store
