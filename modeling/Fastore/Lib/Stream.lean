import Mathlib.Algebra.Order.Ring.Int
import Mathlib.Data.Finset.Card
import Mathlib.Data.List.Basic
import Mathlib.Order.Lattice

/-!
Files, and streams that read numbers from them.

Numbers are written as decimal text (`decimal`). A stream that reads a number
skips white space, takes a sign and all the digits that follow, also those of
other text (`Stream.extract_decimal`), and stores the number if its type has it;
the nearest number of the type otherwise, with the stream failed. A stream that
is not good reads nothing: the variable is left as it was.
-/

namespace Fastore.Lib

open List

/-! ### Numbers as text -/

abbrev Ranged (low high : ℤ) := { x : ℤ // low ≤ x ∧ x ≤ high }

theorem int64_le : (-2 ^ 63 : ℤ) ≤ 2 ^ 63 - 1 := by decide

def Ranged.clamp {low high : ℤ} (h : low ≤ high) (x : ℤ) : Ranged low high :=
  ⟨max low (min high x), by omega⟩

theorem Ranged.clamp_val {low high : ℤ} (h : low ≤ high) (x : Ranged low high) :
    Ranged.clamp h x.val = x := by
  obtain ⟨x, hlow, hhigh⟩ := x
  apply Subtype.ext
  simp only [clamp]
  omega

def decimal (x : ℤ) : List Char :=
  if x < 0 then '-' :: Nat.toDigits 10 x.natAbs else Nat.toDigits 10 x.natAbs

def followed (x : ℤ) (ds : List Char) : ℤ :=
  if x < 0 then -(Nat.ofDigitChars 10 ds x.natAbs : ℤ) else Nat.ofDigitChars 10 ds x.natAbs

def NoDigit (cs : List Char) : Prop := ∀ c ∈ cs.head?, c.isDigit = false

theorem noDigit_nil : NoDigit [] := by simp [NoDigit]

theorem noDigit_cons {c : Char} {cs : List Char} (h : c.isDigit = false) : NoDigit (c :: cs) := by
  simp [NoDigit, h]

theorem noDigit_dropWhile (cs : List Char) : NoDigit (cs.dropWhile Char.isDigit) := by
  intro c hc
  have h := head?_dropWhile_not Char.isDigit cs
  rw [Option.mem_def.mp hc] at h
  simpa using h

theorem takeWhile_of_noDigit {cs : List Char} (h : NoDigit cs) : cs.takeWhile Char.isDigit = [] := by
  cases cs with
  | nil => rfl
  | cons c cs => simp [h c rfl]

@[simp] theorem followed_nil (x : ℤ) : followed x [] = x := by
  simp only [followed, Nat.ofDigitChars_nil]
  split <;> omega

theorem decimal_ne_nil (x : ℤ) : decimal x ≠ [] := by
  rw [decimal]
  split <;> simp

variable {x : ℤ}

theorem length_decimal {k : ℕ} (hk : 0 < k) (hx : x.natAbs < 10 ^ k) :
    (decimal x).length ≤ k + 1 := by
  have hdigits := (Nat.length_toDigits_le_iff (by decide) hk).mpr hx
  rw [decimal]
  split
  · rw [length_cons]
    omega
  · omega

theorem noDigit_decimal_append (hx : x < 0) (cs : List Char) :
    NoDigit (decimal x ++ cs) := by
  rw [decimal, if_pos hx]
  exact noDigit_cons (by decide)

theorem exists_digit_decimal (hx : 0 ≤ x) : ∃ d ds, decimal x = d :: ds ∧ d.isDigit := by
  rw [decimal, if_neg (not_lt.mpr hx)]
  cases hd : Nat.toDigits 10 x.natAbs with
  | nil => exact absurd hd Nat.toDigits_ne_nil
  | cons d ds =>
    exact ⟨d, ds, rfl, Nat.isDigit_of_mem_toDigits (by decide) (le_refl 10) (n := x.natAbs)
      (hd ▸ mem_cons_self)⟩

theorem natAbs_followed {ds : List Char} (hds : ds ≠ []) :
    10 * x.natAbs ≤ (followed x ds).natAbs := by
  have hlength : 10 ^ 1 ≤ 10 ^ ds.length :=
    Nat.pow_le_pow_right (by decide) (length_pos_iff.mpr hds)
  have hle : 10 * x.natAbs ≤ Nat.ofDigitChars 10 ds x.natAbs := by
    rw [Nat.ofDigitChars_eq_ofDigitChars_zero]
    calc 10 * x.natAbs ≤ 10 ^ ds.length * x.natAbs := Nat.mul_le_mul_right _ (by simpa using hlength)
      _ ≤ _ := Nat.le_add_right _ _
  rw [followed]
  split <;> omega

theorem followed_nonneg (hx : 0 ≤ x) (ds : List Char) : 0 ≤ followed x ds := by
  rw [followed, if_neg (not_lt.mpr hx)]
  exact Int.natCast_nonneg _

/-- The number in front of a text and the count of its characters. There is no
number without a digit. -/
def scan (cs : List Char) : Option ℤ × ℕ :=
  let sign := if cs.head? == some '-' || cs.head? == some '+' then 1 else 0
  let digits := (cs.drop sign).takeWhile Char.isDigit
  let value : ℤ := Nat.ofDigitChars 10 digits 0
  (if digits.isEmpty then none else some (if cs.head? == some '-' then -value else value),
    sign + digits.length)

theorem scan_decimal (x : ℤ) (cs : List Char) :
    scan (decimal x ++ cs) = (some (followed x (cs.takeWhile Char.isDigit)),
      (decimal x).length + (cs.takeWhile Char.isDigit).length) := by
  have hdigits : ∀ n, (Nat.toDigits 10 n ++ cs).takeWhile Char.isDigit =
      Nat.toDigits 10 n ++ cs.takeWhile Char.isDigit := fun n =>
    takeWhile_append_of_pos fun c hc =>
      Nat.isDigit_of_mem_toDigits (by decide) (le_refl 10) hc
  have hvalue : ∀ n, Nat.ofDigitChars 10 (Nat.toDigits 10 n ++ cs.takeWhile Char.isDigit) 0 =
      Nat.ofDigitChars 10 (cs.takeWhile Char.isDigit) n := fun n => by
    rw [Nat.ofDigitChars_append, Nat.ofDigitChars_ten_toDigits]
  by_cases hx : x < 0
  · rw [scan, decimal, if_pos hx]
    simp only [cons_append, head?_cons, BEq.rfl, Bool.true_or, if_pos, drop_one,
      tail_cons, hdigits, hvalue, followed, if_pos hx]
    simp
    omega
  · obtain ⟨d, ds, hd, hdigit⟩ := exists_digit_decimal (not_lt.mp hx)
    have hhead : (decimal x ++ cs).head? = some d := by simp [hd]
    have hminus : d ≠ '-' := by
      rintro rfl
      cases hdigit
    have hplus : d ≠ '+' := by
      rintro rfl
      cases hdigit
    rw [scan, hhead]
    rw [decimal, if_neg hx]
    simp [hminus, hplus, hdigits, hvalue, followed, hx]

/-! ### Files -/

structure File where
  length : ℕ
  char : ℕ → Char

namespace File

def zeros (n : ℕ) : File := ⟨n, fun _ => '\x00'⟩

def write (f : File) (p : ℕ) (cs : List Char) : File where
  length := if cs.isEmpty then f.length else max f.length (p + cs.length)
  char i := if p ≤ i then cs.getD (i - p) (f.char i) else f.char i

def rest (f : File) (p : ℕ) : List Char := (List.range' p (f.length - p)).map f.char

variable {f : File} {p : ℕ}

theorem rest_eq_nil : f.rest p = [] ↔ f.length ≤ p := by
  simp [rest, List.range'_eq_nil_iff, Nat.sub_eq_zero_iff_le]

theorem rest_of_lt (h : p < f.length) : f.rest p = f.char p :: f.rest (p + 1) := by
  obtain ⟨n, hn⟩ := Nat.exists_eq_add_of_lt h
  have hlength : f.length - p = n + 1 := by omega
  have hlength' : f.length - (p + 1) = n := by omega
  rw [rest, rest, hlength, hlength', List.range'_succ, map_cons]

theorem rest_add (k : ℕ) : f.rest (p + k) = (f.rest p).drop k := by
  rw [rest, rest, ← map_drop, drop_range', Nat.mul_one, Nat.sub_sub]

theorem rest_eq_append {cs : List Char} (hlength : p + cs.length ≤ f.length)
    (hchar : ∀ i c, cs[i]? = some c → f.char (p + i) = c) :
    f.rest p = cs ++ f.rest (p + cs.length) := by
  induction cs generalizing p with
  | nil => rfl
  | cons c cs ih =>
    rw [length_cons] at hlength
    have hhead : f.char p = c := hchar 0 c rfl
    have htail : f.rest (p + 1) = cs ++ f.rest (p + 1 + cs.length) := by
      refine ih (by omega) fun i c' hc => ?_
      rw [← hchar (i + 1) c' hc, Nat.add_assoc, Nat.add_comm 1 i]
    have hend : p + 1 + cs.length = p + (cs.length + 1) := by omega
    rw [rest_of_lt (by omega), hhead, htail, hend]
    rfl

end File

/-! ### Streams -/

def isSpace (c : Char) : Bool := c == ' ' || ('\t' ≤ c && c ≤ '\r')

theorem isSpace_of_isDigit {c : Char} (h : c.isDigit = true) : isSpace c = false := by
  have hlow : 48 ≤ c.toNat := (Char.isDigit_iff_toNat.mp h).1
  have hblank : c ≠ ' ' := by
    rintro rfl
    cases h
  have hcontrol : ¬ c ≤ '\r' := by
    intro hle
    have hnat : c.toNat ≤ 13 := hle
    omega
  simp [isSpace, hblank, hcontrol]

structure Stream where
  file : File
  pos : ℕ
  eof : Bool
  fail : Bool

namespace Stream

def start (file : File) (pos : ℕ) : Stream := ⟨file, pos, false, false⟩

def good (s : Stream) : Bool := !s.eof && !s.fail

def extract {low high : ℤ} (h : low ≤ high) (s : Stream) : Option (Ranged low high) × Stream :=
  if s.good then
    let cs := s.file.rest s.pos
    let pos := s.pos + (cs.takeWhile isSpace).length
    let cs := cs.dropWhile isSpace
    if cs.isEmpty then (none, { s with pos := pos, eof := true, fail := true })
    else
      let (value, n) := scan cs
      let s := { s with pos := pos + n, eof := (cs.drop n).isEmpty }
      match value with
      | some x => (some (.clamp h x), { s with fail := !decide (low ≤ x ∧ x ≤ high) })
      | none => (some (.clamp h 0), { s with fail := true })
  else (none, { s with fail := true })

def extractWord (s : Stream) : Option (List Char) × Stream :=
  if s.good then
    let cs := s.file.rest s.pos
    let pos := s.pos + (cs.takeWhile isSpace).length
    let cs := cs.dropWhile isSpace
    if cs.isEmpty then (none, { s with pos := pos, eof := true, fail := true })
    else
      let word := cs.takeWhile fun c => !isSpace c
      (some word,
        { s with pos := pos + word.length, eof := (cs.dropWhile fun c => !isSpace c).isEmpty })
  else (none, { s with fail := true })

/-- The position, `-1` if the stream is not good. -/
def tellg (s : Stream) : ℤ × Stream :=
  if s.good then (s.pos, s) else (-1, { s with fail := true })

def seekg (s : Stream) (pos : ℤ) : Stream :=
  if s.fail then { s with eof := false }
  else if pos < 0 then { s with eof := false, fail := true }
  else { s with eof := false, pos := pos.toNat }

def skip (s : Stream) (n : ℕ) : Stream := s.seekg (s.pos + n : ℕ)

def read (s : Stream) (n : ℕ) : List Char × Stream :=
  if s.good then
    let cs := (s.file.rest s.pos).take n
    let short := decide (cs.length < n)
    (cs, { s with pos := s.pos + cs.length, eof := short, fail := short })
  else ([], { s with fail := true })

variable {s : Stream} {low high : ℤ} {h : low ≤ high} {cs : List Char}

theorem extract_of_not_good (hs : s.good = false) : s.extract h = (none, { s with fail := true }) := by
  simp [extract, hs]

theorem decimal_isSpace (x : ℤ) (cs : List Char) :
    (decimal x ++ cs).takeWhile isSpace = [] ∧
      (decimal x ++ cs).dropWhile isSpace = decimal x ++ cs := by
  obtain ⟨c, ds, hc, hspace⟩ : ∃ c ds, decimal x = c :: ds ∧ isSpace c = false := by
    by_cases hx : x < 0
    · exact ⟨'-', _, if_pos hx, by decide⟩
    · obtain ⟨d, ds, hd, hdigit⟩ := exists_digit_decimal (not_lt.mp hx)
      exact ⟨d, ds, hd, isSpace_of_isDigit hdigit⟩
  simp [hc, hspace]

/-- **Reading a number** that stands at the position: the digits that follow are
taken as well. -/
theorem extract_decimal (hs : s.good = true) {x : ℤ} (hcs : s.file.rest s.pos = decimal x ++ cs) :
    s.extract h =
      (some (.clamp h (followed x (cs.takeWhile Char.isDigit))),
        { file := s.file
          pos := s.pos + (decimal x).length + (cs.takeWhile Char.isDigit).length
          eof := (cs.dropWhile Char.isDigit).isEmpty
          fail := !decide (low ≤ followed x (cs.takeWhile Char.isDigit) ∧
            followed x (cs.takeWhile Char.isDigit) ≤ high) }) := by
  obtain ⟨htake, hdrop⟩ := decimal_isSpace x cs
  have hne : (decimal x ++ cs).isEmpty = false := by simp [decimal_ne_nil]
  have hrest : (decimal x ++ cs).drop ((decimal x).length + (cs.takeWhile Char.isDigit).length) =
      cs.dropWhile Char.isDigit := by
    have hsplit : decimal x ++ cs =
        (decimal x ++ cs.takeWhile Char.isDigit) ++ cs.dropWhile Char.isDigit := by
      rw [append_assoc, takeWhile_append_dropWhile]
    rw [hsplit, drop_left' (by simp)]
  simp only [extract, hs, if_true, hcs, htake, hdrop, hne, scan_decimal, hrest]
  simp [Nat.add_assoc]

end Stream

end Fastore.Lib
