import Fastore.Lib.Stream
import Mathlib.Tactic.Ring
import Mathlib.Tactic.Linarith

/-!
Integer types of a machine.

A type is a width of up to 64 bits with or without a sign. Its values are
the numbers of its range, and a conversion into it takes a number modulo two
to the width (`IntType.convert`): a number the type represents stays as it
is, and a negative one becomes large in an unsigned type.
-/

namespace Fastore.Lib

structure IntType where
  signed : Bool
  width : ℕ
  width_pos : 0 < width
  width_le : width ≤ 64
  deriving DecidableEq

namespace IntType

def min (T : IntType) : ℤ := if T.signed then -2 ^ (T.width - 1) else 0

def max (T : IntType) : ℤ := if T.signed then 2 ^ (T.width - 1) - 1 else 2 ^ T.width - 1

abbrev Value (T : IntType) := Ranged T.min T.max

def Represents (T : IntType) (x : ℤ) : Prop := T.min ≤ x ∧ x ≤ T.max

instance (T : IntType) (x : ℤ) : Decidable (T.Represents x) := instDecidableAnd

def wrap (T : IntType) (x : ℤ) : ℤ :=
  if T.signed then x.bmod (2 ^ T.width) else x % 2 ^ T.width

variable {T F : IntType} {x : ℤ}

theorem two_pow_width (T : IntType) : (2 : ℤ) ^ T.width = 2 * 2 ^ (T.width - 1) := by
  conv_lhs => rw [← Nat.sub_add_cancel T.width_pos, pow_succ, mul_comm]

theorem half_pos (T : IntType) : (0 : ℤ) < 2 ^ (T.width - 1) := by positivity

theorem half_le (T : IntType) : (2 : ℤ) ^ (T.width - 1) ≤ 2 ^ 63 :=
  pow_le_pow_right₀ (by norm_num) (by have := T.width_le; omega)

theorem wrap_represents (T : IntType) (x : ℤ) : T.Represents (T.wrap x) := by
  have hpow := T.two_pow_width
  have hhalf := T.half_pos
  unfold Represents wrap min max
  cases T.signed with
  | false =>
    have hlow := Int.emod_nonneg x (show (2 : ℤ) ^ T.width ≠ 0 by positivity)
    have hhigh := Int.emod_lt_of_pos x (show (0 : ℤ) < 2 ^ T.width by positivity)
    simp only [Bool.false_eq_true, if_false]
    omega
  | true =>
    have hlow := Int.le_bmod (x := x) (m := 2 ^ T.width) (by positivity)
    have hhigh := Int.bmod_lt (x := x) (m := 2 ^ T.width) (by positivity)
    push_cast at hlow hhigh
    simp only [if_true]
    omega

/-- `static_cast`: the conversion into an integer type. -/
def convert (T : IntType) (x : ℤ) : T.Value := ⟨T.wrap x, T.wrap_represents x⟩

theorem convert_of_represents (h : T.Represents x) : (T.convert x).val = x := by
  have hpow := T.two_pow_width
  have hhalf := T.half_pos
  obtain ⟨hlow, hhigh⟩ := h
  change T.wrap x = x
  unfold wrap
  unfold min at hlow
  unfold max at hhigh
  cases hsigned : T.signed with
  | false =>
    simp only [hsigned, Bool.false_eq_true, if_false] at hlow hhigh ⊢
    exact Int.emod_eq_of_lt hlow (by omega)
  | true =>
    simp only [hsigned, if_true] at hlow hhigh ⊢
    refine Int.bmod_eq_of_le_mul_two ?_ ?_ <;>
    · push_cast
      omega

theorem zero_le_max (T : IntType) : 0 ≤ T.max := by
  have hpow := T.two_pow_width
  have hhalf := T.half_pos
  unfold max
  split <;> omega

theorem Value.negative (x : F.Value) (h : x.val < 0) : F.signed = true ∧ -2 ^ 63 ≤ x.val := by
  have hlow := x.property.1
  have hhalf := F.half_le
  unfold min at hlow
  cases hsigned : F.signed with
  | false =>
    simp only [hsigned, Bool.false_eq_true, if_false] at hlow
    omega
  | true =>
    simp only [hsigned, if_true] at hlow
    exact ⟨rfl, by omega⟩

theorem max_lt (T : IntType) : T.max < 2 ^ 64 := by
  have hpow := T.two_pow_width
  have hhalf := T.half_le
  unfold max
  split <;> omega

theorem max_lt_of_signed (h : T.signed = true) : T.max < 2 ^ 63 := by
  have hhalf := T.half_le
  unfold max
  simp only [h, if_true]
  omega

theorem represents_iff_of_nonneg (hx : 0 ≤ x) : T.Represents x ↔ x ≤ T.max := by
  refine ⟨And.right, fun h => ⟨?_, h⟩⟩
  have hhalf := T.half_pos
  unfold min
  split <;> omega

end IntType

end Fastore.Lib
