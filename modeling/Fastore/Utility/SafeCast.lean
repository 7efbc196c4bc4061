import Fastore.Lib.Machine

/-!
Checked conversions between integer types.

`safe_cast` is to return a number as it is when the target type represents
it, and to throw otherwise. It compares the number with the greatest one of
the target type, and both are converted to `size_t` for this. A number that
is not negative stays what it is, so that the check is right; a negative one
becomes greater than anything a signed type holds and is refused. The check
is wrong for the negative numbers of signed types, and for no others
(`safeCast_iff`).
-/

namespace Fastore.Utility

open Lib

def sizeT : IntType := ⟨false, 64, by decide, by decide⟩

def sizeof (T : IntType) : ℕ := (T.width + 7) / 8

def shown {F : IntType} (input : F.Value) : String :=
  if F.width = 8 then String.singleton (Char.ofNat (input.val % 256).toNat)
  else toString input.val

def safeCast (T : IntType) {F : IntType} (file : String) (line : ℕ) (input : F.Value) :
    Except String T.Value :=
  let text := shown input
  if F.signed = true ∧ T.signed = false ∧ input.val < 0 then
    .error s!"{file}:{line}: signed value {text} cannot be cast to unsigned type"
  else if (sizeT.convert T.max).val < (sizeT.convert input.val).val then
    let size := sizeof F
    let target := sizeof T
    .error s!"{file}:{line}: {text}, size {size}, cannot be cast to unsigned type of size{target}"
  else .ok (T.convert input.val)

/-- The cast returns the numbers of the target type unchanged and throws for all others. -/
structure CastsRight (T : IntType) {F : IntType} (file : String) (line : ℕ) (input : F.Value) :
    Prop where
  returns : T.Represents input.val →
    ∃ result, safeCast T file line input = .ok result ∧ result.val = input.val
  throws : ¬ T.Represents input.val → ∃ message, safeCast T file line input = .error message

variable {T F : IntType} {x : ℤ}

/-! ### The comparison -/

theorem sizeT_represents_iff : sizeT.Represents x ↔ 0 ≤ x ∧ x < 2 ^ 64 := by
  simp only [IntType.Represents, IntType.min, IntType.max, sizeT, Bool.false_eq_true, if_false]
  omega

theorem sizeT_convert_max (T : IntType) : (sizeT.convert T.max).val = T.max :=
  IntType.convert_of_represents (sizeT_represents_iff.mpr ⟨T.zero_le_max, T.max_lt⟩)

theorem sizeT_convert_of_nonneg (input : F.Value) (h : 0 ≤ input.val) :
    (sizeT.convert input.val).val = input.val := by
  have hhigh := input.property.2
  have hmax := F.max_lt
  exact IntType.convert_of_represents (sizeT_represents_iff.mpr ⟨h, by omega⟩)

theorem sizeT_convert_of_negative (input : F.Value) (h : input.val < 0) :
    2 ^ 63 ≤ (sizeT.convert input.val).val := by
  obtain ⟨-, hlow⟩ := input.negative h
  change 2 ^ 63 ≤ input.val % 2 ^ 64
  omega

/-! ### The cast -/

theorem safeCast_eq_of_nonneg (file : String) (line : ℕ) (input : F.Value) (h : 0 ≤ input.val) :
    (input.val ≤ T.max → safeCast T file line input = .ok (T.convert input.val)) ∧
      (¬ input.val ≤ T.max → ∃ message, safeCast T file line input = .error message) := by
  have hsign : ¬ (F.signed = true ∧ T.signed = false ∧ input.val < 0) := fun hs => by omega
  rw [safeCast, if_neg hsign, sizeT_convert_max, sizeT_convert_of_nonneg input h]
  exact ⟨fun hle => if_neg (not_lt.mpr hle), fun hlt => ⟨_, if_pos (not_le.mp hlt)⟩⟩

theorem safeCast_of_nonneg (file : String) (line : ℕ) (input : F.Value) (h : 0 ≤ input.val) :
    CastsRight T file line input := by
  obtain ⟨hok, herror⟩ := safeCast_eq_of_nonneg (T := T) file line input h
  refine ⟨fun hrep => ⟨_, hok hrep.2, IntType.convert_of_represents hrep⟩, fun hrep => herror ?_⟩
  rwa [IntType.represents_iff_of_nonneg h] at hrep

theorem safeCast_of_negative (file : String) (line : ℕ) (input : F.Value) (h : input.val < 0) :
    ∃ message, safeCast T file line input = .error message := by
  obtain ⟨hF, -⟩ := input.negative h
  unfold safeCast
  cases hT : T.signed with
  | false => exact ⟨_, if_pos ⟨hF, rfl, h⟩⟩
  | true =>
    have hmax := IntType.max_lt_of_signed hT
    have hinput := sizeT_convert_of_negative input h
    have hlt : (sizeT.convert T.max).val < (sizeT.convert input.val).val := by
      rw [sizeT_convert_max]
      omega
    refine ⟨_, (if_neg fun hs => ?_).trans (if_pos hlt)⟩
    exact absurd hs.2.1 (by simp)

/-- **`safe_cast`** is right if and only if the number is not a negative one of the target
type. -/
theorem safeCast_iff (T F : IntType) (file : String) (line : ℕ) (input : F.Value) :
    CastsRight T file line input ↔ ¬ (input.val < 0 ∧ T.Represents input.val) := by
  by_cases h : input.val < 0
  · obtain ⟨message, hthrows⟩ := safeCast_of_negative (T := T) file line input h
    constructor
    · rintro hright ⟨-, hrep⟩
      obtain ⟨result, hok, -⟩ := hright.returns hrep
      simp [hthrows] at hok
    · intro hnot
      exact ⟨fun hrep => absurd ⟨h, hrep⟩ hnot, fun _ => ⟨message, hthrows⟩⟩
  · exact ⟨fun _ hnot => h hnot.1, fun _ => safeCast_of_nonneg file line input (not_lt.mp h)⟩

def int : IntType := ⟨true, 32, by decide, by decide⟩

def intCast {F : IntType} (file : String) (line : ℕ) (input : F.Value) : Except String int.Value :=
  safeCast int file line input

/-- **A number that is cast comes back**: what the cast returns is the number, and the cast to the
type it had returns it. -/
theorem safeCast_roundTrips {file file' : String} {line : ℕ} (line' : ℕ) {input : F.Value}
    {result : T.Value} (hok : safeCast T file line input = .ok result) :
    result.val = input.val ∧ safeCast F file' line' result = .ok input := by
  have hnonneg : 0 ≤ input.val := by
    by_contra hneg
    obtain ⟨message, herror⟩ := safeCast_of_negative (T := T) file line input (not_le.mp hneg)
    simp [herror] at hok
  obtain ⟨hfits, hthrows⟩ := safeCast_eq_of_nonneg (T := T) file line input hnonneg
  have hle : input.val ≤ T.max := by
    by_contra hlt
    obtain ⟨message, herror⟩ := hthrows hlt
    simp [herror] at hok
  have hval : result.val = input.val := by
    rw [← Except.ok.inj ((hfits hle).symm.trans hok)]
    exact IntType.convert_of_represents ((IntType.represents_iff_of_nonneg hnonneg).mpr hle)
  have hback := (safeCast_eq_of_nonneg (T := F) file' line' result (by omega)).1
  rw [hval] at hback
  refine ⟨hval, (hback input.property.2).trans (congrArg _ (Subtype.ext ?_))⟩
  exact IntType.convert_of_represents input.property

theorem safeCast_roundTrips_seven : ∃ result : int.Value,
    safeCast int "Scalar.h" 156 (sizeT.convert 7) = .ok result ∧ result.val = 7 ∧
      safeCast sizeT "Scalar.h" 156 result = .ok (sizeT.convert 7) := by
  have hok := (safeCast_eq_of_nonneg (T := int) "Scalar.h" 156 (sizeT.convert 7) (by decide)).1
    (by decide)
  exact ⟨_, hok, safeCast_roundTrips 156 hok⟩

theorem minusOne_mem_int : int.min ≤ -1 ∧ -1 ≤ int.max := by decide

def minusOne : int.Value := ⟨-1, minusOne_mem_int⟩

/-- `INT_CAST(~pos)` for a position of type `int`: the number is one of the type and is
refused. -/
theorem intCast_minusOne : int.Represents minusOne.val ∧
    ∃ message, intCast "Scalar.h" 156 minusOne = .error message :=
  ⟨minusOne_mem_int, safeCast_of_negative "Scalar.h" 156 minusOne (by decide)⟩

end Fastore.Utility
