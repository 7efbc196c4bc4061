import Fastore.Lib.Slots
import Mathlib.Order.Basic
import Mathlib.Data.Int.Order.Basic

/-!
The scalar types of the store, as far as a tree uses them: the three-way
comparison of two keys and the binary search over a packed key array
that is built from it.

`compareIndexOf` is the search as the code runs it, over whatever
comparison it is given; `ScalarType` is a comparison that agrees with a
linear order of the keys. The result of a search is one integer, a
position when the key is there and the complement of the place it would
take when it is not (`ScalarType.indexOf_cases`).
-/

namespace Fastore.Tree

open Lib

variable {K : Type}

/-- The loop of `CompareIndexOf`. The interval `lo..hi` loses at least
one element per turn, so `fuel` is how many turns are left at most. -/
def compareIndexOfLoop (compare : K → K → ℤ) (items : ℕ → K) (key : K) : ℕ → ℤ → ℤ → ℤ
  | 0, lo, _ => -lo - 1
  | fuel + 1, lo, hi =>
    if lo ≤ hi then
      let split := (lo + hi) / 2
      let result := compare key (items split.toNat)
      if result = 0 then split
      else if result < 0 then compareIndexOfLoop compare items key fuel lo (split - 1)
      else compareIndexOfLoop compare items key fuel (split + 1) hi
    -- `~lo` in two's complement
    else -lo - 1

/-- `CompareIndexOf`: binary search for `key` among the first `count` items. -/
def compareIndexOf (compare : K → K → ℤ) (items : ℕ → K) (count : ℕ) (key : K) : ℤ :=
  compareIndexOfLoop compare items key count 0 (count - 1)

variable {count : ℕ}

theorem compareIndexOfLoop_congr (compare : K → K → ℤ) {items items' : ℕ → K} (key : K)
    (h : ∀ j < count, items' j = items j) : ∀ (fuel : ℕ) (lo hi : ℤ), 0 ≤ lo → hi < count →
      compareIndexOfLoop compare items' key fuel lo hi =
        compareIndexOfLoop compare items key fuel lo hi := by
  intro fuel
  induction fuel with
  | zero => exact fun _ _ _ _ => rfl
  | succ fuel ih =>
    intro lo hi hlo hhi
    simp only [compareIndexOfLoop]
    split
    · rw [h _ (by omega), ih _ _ hlo (by omega), ih _ _ (by omega) hhi]
    · rfl

structure ScalarType (K : Type) [LinearOrder K] where
  /-- `Compare`: negative, zero or positive. -/
  compare : K → K → ℤ
  compare_neg : ∀ a b, compare a b < 0 ↔ a < b
  compare_zero : ∀ a b, compare a b = 0 ↔ a = b

/-- The scalar type of a linear order, with `-1`, `0` and `1` for an answer. -/
def ScalarType.ofOrder (K : Type) [LinearOrder K] : ScalarType K where
  compare a b := if a < b then -1 else if a = b then 0 else 1
  compare_neg a b := by
    split
    · simpa
    · split <;> simp_all
  compare_zero a b := by
    split
    · rename_i h; simp [h.ne]
    · split <;> simp_all

variable [LinearOrder K]

/-- `IndexOf`, which every scalar type takes from `CompareIndexOf`. -/
def ScalarType.indexOf (T : ScalarType K) (items : ℕ → K) (count : ℕ) (key : K) : ℤ :=
  compareIndexOf T.compare items count key

theorem ScalarType.indexOf_congr (T : ScalarType K) {items items' : ℕ → K} (key : K)
    (h : ∀ j < count, items' j = items j) : T.indexOf items' count key = T.indexOf items count key :=
  compareIndexOfLoop_congr T.compare key h count 0 (count - 1) (le_refl 0) (by omega)

theorem ScalarType.compare_pos (T : ScalarType K) (a b : K) : 0 < T.compare a b ↔ b < a := by
  have h₁ := T.compare_neg a b
  have h₂ := T.compare_zero a b
  constructor
  · intro h
    exact lt_of_le_of_ne (not_lt.mp fun hab => by have := h₁.mpr hab; omega)
      fun heq => by have := h₂.mpr heq.symm; omega
  · intro h
    have hn : ¬ T.compare a b < 0 := fun hc => absurd (h₁.mp hc) (not_lt.mpr h.le)
    have hz : T.compare a b ≠ 0 := fun hc => h.ne (h₂.mp hc).symm
    omega

/-- What a finished search says about the first `count` items: the key is
at the place named, or everything before that place is smaller and
everything from it on is larger. -/
def Located (items : ℕ → K) (count : ℕ) (key : K) (result : ℤ) : Prop :=
  (∃ i : ℕ, i < count ∧ items i = key ∧ result = i) ∨
    ∃ i : ℕ, i ≤ count ∧ (∀ j < i, items j < key) ∧
      (∀ j, i ≤ j → j < count → key < items j) ∧ result = -(i : ℤ) - 1

variable {items : ℕ → K}

/-- The binary search finds a key or its place. -/
theorem compareIndexOfLoop_located (T : ScalarType K) {key : K}
    (hs : ∀ i j, i < j → j < count → items i < items j) :
    ∀ (fuel : ℕ) (lo hi : ℤ), 0 ≤ lo → lo ≤ hi + 1 → hi < count → hi - lo + 1 ≤ fuel →
      (∀ j : ℕ, (j : ℤ) < lo → items j < key) →
      (∀ j : ℕ, hi < j → j < count → key < items j) →
      Located items count key (compareIndexOfLoop T.compare items key fuel lo hi) := by
  intro fuel
  induction fuel with
  | zero =>
    intro lo hi hlo hlohi hhi hf hsm hlg
    refine Or.inr ⟨lo.toNat, by omega, fun j hj => hsm j (by omega),
      fun j hj hjc => hlg j (by simp at hf; omega) hjc, ?_⟩
    simp only [compareIndexOfLoop]
    omega
  | succ fuel ih =>
    intro lo hi hlo hlohi hhi hf hsm hlg
    simp only [compareIndexOfLoop]
    by_cases hle : lo ≤ hi
    · rw [if_pos hle]
      have hmid : lo ≤ (lo + hi) / 2 ∧ (lo + hi) / 2 ≤ hi := by omega
      have hcount : ((lo + hi) / 2).toNat < count := by omega
      split
      · rename_i hz
        exact Or.inl ⟨((lo + hi) / 2).toNat, hcount, ((T.compare_zero _ _).mp hz).symm, by omega⟩
      · rename_i hz
        split
        · -- the key is below the middle item, hence below everything after it
          rename_i hn
          have hlt := (T.compare_neg _ _).mp hn
          refine ih lo _ hlo (by omega) (by omega) (by push_cast at hf; omega) hsm
            fun j hj hjc => ?_
          rcases Nat.lt_or_ge ((lo + hi) / 2).toNat j with h | h
          · exact lt_trans hlt (hs _ _ h hjc)
          · rwa [show j = ((lo + hi) / 2).toNat by omega]
        · -- the key is above the middle item, hence above everything before it
          rename_i hn
          have hgt : items ((lo + hi) / 2).toNat < key :=
            (T.compare_pos _ _).mp (lt_of_le_of_ne (not_lt.mp hn) (Ne.symm hz))
          refine ih _ hi (by omega) (by omega) hhi (by push_cast at hf; omega)
            (fun j hj => ?_) hlg
          rcases Nat.lt_or_ge j ((lo + hi) / 2).toNat with h | h
          · exact lt_trans (hs _ _ h hcount) hgt
          · rwa [show j = ((lo + hi) / 2).toNat by omega]
    · rw [if_neg hle]
      refine Or.inr ⟨lo.toNat, by omega, fun j hj => hsm j (by omega),
        fun j hj hjc => hlg j (by omega) hjc, by omega⟩

theorem ScalarType.indexOf_located (T : ScalarType K) (key : K)
    (hs : ∀ i j, i < j → j < count → items i < items j) :
    Located items count key (T.indexOf items count key) :=
  compareIndexOfLoop_located T hs count 0 (count - 1) (le_refl 0) (by omega) (by omega)
    (by omega) (fun j hj => by omega) fun j hj hjc => by omega

theorem ScalarType.indexOf_cases (T : ScalarType K) (key : K)
    (hs : (window items 0 count).Pairwise (· < ·)) :
    (∃ A B, window items 0 count = A ++ key :: B ∧
        T.indexOf items count key = A.length) ∨
      ∃ A B, window items 0 count = A ++ B ∧ (∀ x ∈ A, x < key) ∧ (∀ x ∈ B, key < x) ∧
        T.indexOf items count key = -(A.length : ℤ) - 1 := by
  have hs' : ∀ i j, i < j → j < count → items i < items j := by
    intro i j hij hj
    have h := List.pairwise_iff_getElem.mp hs i j (by simpa using by omega) (by simpa) hij
    simpa using h
  rcases T.indexOf_located key hs' with ⟨i, hi, rfl, hr⟩ | ⟨i, hi, hlo, hhi, hr⟩
  · exact Or.inl ⟨_, _, window_split items hi, by simpa using hr⟩
  · refine Or.inr ⟨_, _, window_cut items 0 hi, fun x hx => ?_, fun x hx => ?_, by simpa using hr⟩
    · obtain ⟨j, hj, rfl⟩ := mem_window.mp hx
      exact hlo _ (by omega)
    · obtain ⟨j, hj, rfl⟩ := mem_window.mp hx
      exact hhi _ (by omega) (by omega)

end Fastore.Tree
