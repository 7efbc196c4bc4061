import Fastore.Lib.Stream
import Fastore.Tree.Scalar

/-!
The search over machine integers.

The comparisons of `IntType` and `LongType` subtract, so the sign of a result
is wrong when the difference does not fit, and `CompareIndexOf` adds its
bounds in an `int`. A search that is misled once has left the part of the
array where its key belongs and does not come back to it
(`indexOfLoop_within`), so its result is right exactly if nothing that it
meets is too far apart (`indexOf_iff`).

Trees search arrays of a few hundred keys, where only the differences matter;
for such arrays this is the search of `Fastore.Tree.Scalar`
(`indexOf_eq_compareIndexOf`).
-/

namespace Fastore.Tree

open Lib List

abbrev IntKey := Ranged (-2 ^ 31) (2 ^ 31 - 1)

abbrev LongKey := Ranged (-2 ^ 63) (2 ^ 63 - 1)

def intCompare (left right : IntKey) : ℤ := (left.val - right.val).bmod (2 ^ 32)

def longCompare (left right : LongKey) : ℤ :=
  let result := (left.val - right.val).bmod (2 ^ 64)
  if 0 < result then 1
  else if result = 0 then 0
  else -1

theorem bmod_int {x : ℤ} (hlow : -2 ^ 32 < x) (hhigh : x < 2 ^ 32) :
    x.bmod (2 ^ 32) =
      if x < -2 ^ 31 then x + 2 ^ 32 else if x < 2 ^ 31 then x else x - 2 ^ 32 := by
  rw [Int.bmod_def]
  omega

theorem bmod_long {x : ℤ} (hlow : -2 ^ 64 < x) (hhigh : x < 2 ^ 64) :
    x.bmod (2 ^ 64) =
      if x < -2 ^ 63 then x + 2 ^ 64 else if x < 2 ^ 63 then x else x - 2 ^ 64 := by
  rw [Int.bmod_def]
  omega

variable {K : Type}

/-- The loop of `CompareIndexOf`, with `none` for a look outside of the array. -/
def indexOfLoop (compare : K → K → ℤ) (items : List K) (key : K) : ℕ → ℤ → ℤ → Option ℤ
  | 0, lo, _ => some (-lo - 1)
  | fuel + 1, lo, hi =>
    if lo ≤ hi then
      -- the sum is an `int`, and the shift keeps its sign
      let split := (lo + hi).bmod (2 ^ 32) / 2
      if split < 0 then none
      else match items[split.toNat]? with
        | none => none
        | some item =>
          let result := compare key item
          if result = 0 then some split
          else if result < 0 then indexOfLoop compare items key fuel lo (split - 1)
          else indexOfLoop compare items key fuel (split + 1) hi
    else some (-lo - 1)

/-- `CompareIndexOf`. -/
def indexOf (compare : K → K → ℤ) (items : List K) (key : K) : Option ℤ :=
  indexOfLoop compare items key items.length 0 (items.length - 1)

/-- **Arrays of up to `2 ^ 30` items**: whatever the comparison, no sum of the bounds overflows
and no item outside is read. -/
theorem indexOf_eq_compareIndexOf (compare : K → K → ℤ) {items : List K} (key : K)
    (hlength : items.length ≤ 2 ^ 30) :
    indexOf compare items key =
      some (compareIndexOf compare (fun i => items.getD i key) items.length key) := by
  have hloop : ∀ (fuel : ℕ) (lo hi : ℤ), 0 ≤ lo → hi < items.length →
      indexOfLoop compare items key fuel lo hi =
        some (compareIndexOfLoop compare (fun i => items.getD i key) key fuel lo hi) := by
    intro fuel
    induction fuel with
    | zero => exact fun _ _ _ _ => rfl
    | succ fuel ih =>
      intro lo hi hlo hhi
      rw [indexOfLoop, compareIndexOfLoop]
      by_cases hle : lo ≤ hi
      · have hsum : (lo + hi).bmod (2 ^ 32) = lo + hi := by
          rw [bmod_int (by omega) (by omega)]
          omega
        have hsplit : ((lo + hi) / 2).toNat < items.length := by omega
        simp only [if_pos hle, hsum, if_neg (show ¬ (lo + hi) / 2 < 0 by omega),
          getD_eq_getElem?_getD, getElem?_eq_getElem hsplit, Option.getD_some]
        rw [ih lo _ hlo (by omega), ih _ hi (by omega) hhi]
        split
        · rfl
        · split <;> rfl
      · simp only [if_neg hle]
  exact hloop _ _ _ (le_refl 0) (by omega)

/-! ### Searches that go wrong -/

section Search

variable [LinearOrder K] {compare : K → K → ℤ} {items : List K} {key : K}

/-- The result of a search: the index of the key, or the complement of the number of the
smaller items. -/
def Finds (items : List K) (key : K) (result : ℤ) : Prop :=
  (∃ i : ℕ, items[i]? = some key ∧ result = i) ∨
    key ∉ items ∧ result = -(items.countP (· < key) : ℤ) - 1

/-- What a search meets if it always goes the right way: the sums of its bounds, and the
items between them. -/
def probesLoop (items : List K) (key : K) : ℕ → ℤ → ℤ → List (ℤ × K)
  | 0, _, _ => []
  | fuel + 1, lo, hi =>
    if lo ≤ hi then
      match items[((lo + hi) / 2).toNat]? with
      | none => []
      | some item =>
        (lo + hi, item) ::
          if key = item then []
          else if key < item then probesLoop items key fuel lo ((lo + hi) / 2 - 1)
          else probesLoop items key fuel ((lo + hi) / 2 + 1) hi
    else []

def probes (items : List K) (key : K) : List (ℤ × K) :=
  probesLoop items key items.length 0 (items.length - 1)

theorem lt_key_iff (hs : items.Pairwise (· < ·)) {i : ℕ} {item : K} (hi : items[i]? = some item) :
    item < key ↔ i < items.countP (· < key) := by
  induction items generalizing i with
  | nil => simp at hi
  | cons x items ih =>
    rw [pairwise_cons] at hs
    rw [countP_cons]
    cases i with
    | zero =>
      obtain rfl : x = item := by simpa using hi
      by_cases hx : x < key
      · simp [hx]
      · have hnone : items.countP (· < key) = 0 := by
          rw [countP_eq_zero]
          intro y hy
          simpa using (not_lt.mp hx).trans (hs.1 y hy).le
        simp [hx, hnone]
    | succ i =>
      rw [getElem?_cons_succ] at hi
      have hrest := ih hs.2 hi
      by_cases hx : x < key
      · simp only [hrest, hx, decide_true, if_true]
        omega
      · have hitem := hs.1 item (mem_of_getElem? hi)
        have hno : ¬ item < key := fun h => hx (hitem.trans h)
        simp only [hx, decide_false, Bool.false_eq_true, if_false]
        constructor
        · exact fun h => absurd h hno
        · intro h
          exact absurd (hrest.mpr (by omega)) hno

theorem index_eq_countP (hs : items.Pairwise (· < ·)) {i : ℕ} (hi : items[i]? = some key) :
    i = items.countP (· < key) := by
  refine le_antisymm ?_ (not_lt.mp fun hlt => ?_)
  · by_contra hlt
    obtain ⟨j, hj⟩ : ∃ j, items[items.countP (· < key)]? = some j := by
      have hlength := (List.getElem?_eq_some_iff.mp hi).1
      exact ⟨_, List.getElem?_eq_getElem (by omega)⟩
    have hlt' : j < key := by
      obtain ⟨hi', hi⟩ := List.getElem?_eq_some_iff.mp hi
      obtain ⟨hj', hj⟩ := List.getElem?_eq_some_iff.mp hj
      rw [← hi, ← hj]
      exact pairwise_iff_getElem.mp hs _ _ hj' hi' (by omega)
    exact lt_irrefl _ ((lt_key_iff hs hj).mp hlt')
  · exact lt_irrefl _ ((lt_key_iff hs hi).mpr hlt)

omit [LinearOrder K] in
theorem indexOfLoop_within (hzero : ∀ a b, compare a b = 0 ↔ a = b) :
    ∀ (fuel : ℕ) (lo hi result : ℤ), 0 ≤ lo → lo ≤ hi + 1 → hi < 2 ^ 31 - 1 → hi - lo + 1 ≤ fuel →
      indexOfLoop compare items key fuel lo hi = some result →
      (∃ i : ℕ, lo ≤ i ∧ i ≤ hi ∧ items[i]? = some key ∧ result = i) ∨
        ∃ l, lo ≤ l ∧ l ≤ hi + 1 ∧ result = -l - 1 := by
  intro fuel
  induction fuel with
  | zero =>
    intro lo hi result _ hlohi _ hfuel h
    rw [indexOfLoop, Option.some.injEq] at h
    exact .inr ⟨lo, le_refl _, hlohi, h.symm⟩
  | succ fuel ih =>
    intro lo hi result hlo hlohi hhi hfuel h
    rw [indexOfLoop] at h
    split at h
    · rename_i hle
      simp only at h
      split at h
      · cases h
      · rename_i hpos
        -- a sum that does not fit has a negative half
        have hsum : (lo + hi).bmod (2 ^ 32) = lo + hi := by
          rw [bmod_int (by omega) (by omega)] at hpos ⊢
          omega
        rw [hsum] at h
        push_cast at hfuel
        split at h
        · cases h
        · rename_i item hitem
          split at h
          · rename_i hcompare
            rw [hzero] at hcompare
            obtain rfl := hcompare
            exact .inl ⟨((lo + hi) / 2).toNat, by omega, by omega, hitem, by
              rw [← Option.some.inj h]; omega⟩
          · split at h
            · rcases ih lo _ result hlo (by omega) (by omega) (by omega) h with
                ⟨i, hlow, hhigh, hi'⟩ | ⟨l, hlow, hhigh, hl⟩
              · exact .inl ⟨i, hlow, by omega, hi'⟩
              · exact .inr ⟨l, hlow, by omega, hl⟩
            · rcases ih _ hi result (by omega) (by omega) hhi (by omega) h with
                ⟨i, hlow, hhigh, hi'⟩ | ⟨l, hlow, hhigh, hl⟩
              · exact .inl ⟨i, by omega, hhigh, hi'⟩
              · exact .inr ⟨l, by omega, hhigh, hl⟩
    · exact .inr ⟨lo, le_refl _, hlohi, (Option.some.inj h).symm⟩

theorem indexOfLoop_misled (hzero : ∀ a b, compare a b = 0 ↔ a = b) (hs : items.Pairwise (· < ·))
    {fuel : ℕ} {lo hi : ℤ} (hlo : 0 ≤ lo) (hlohi : lo ≤ hi + 1) (hhi : hi < 2 ^ 31 - 1)
    (hfuel : hi - lo + 1 ≤ fuel)
    (hpast : (items.countP (· < key) : ℤ) < lo ∨ hi + 1 < items.countP (· < key)) :
    ¬ ∃ result, indexOfLoop compare items key fuel lo hi = some result ∧ Finds items key result := by
  rintro ⟨result, hresult, hfinds⟩
  rcases indexOfLoop_within hzero fuel lo hi result hlo hlohi hhi hfuel hresult with
    ⟨i, hlow, hhigh, hi', rfl⟩ | ⟨l, hlow, hhigh, rfl⟩
  · have := index_eq_countP hs hi'
    omega
  · rcases hfinds with ⟨i, -, hi'⟩ | ⟨-, hcount⟩ <;> omega

/-- The key belongs between the bounds: what holds before each turn. -/
structure Between (items : List K) (key : K) (lo hi : ℤ) : Prop where
  nonneg : 0 ≤ lo
  lt_length : hi < items.length
  low : lo ≤ items.countP (· < key)
  high : (items.countP (· < key) : ℤ) ≤ hi + 1
  mem : key ∈ items → (items.countP (· < key) : ℤ) ≤ hi

theorem between_all (hs : items.Pairwise (· < ·)) (key : K) :
    Between items key 0 (items.length - 1) := by
  have hcount : items.countP (· < key) ≤ items.length := List.countP_le_length
  refine ⟨le_refl 0, by omega, by omega, by omega, fun hkey => ?_⟩
  obtain ⟨i, hi⟩ := mem_iff_getElem?.mp hkey
  have hlt := (List.getElem?_eq_some_iff.mp hi).1
  have hindex := index_eq_countP hs hi
  omega

section Turn

variable {lo hi split : ℤ} {item : K} (h : Between items key lo hi)

include h

theorem Between.finds (hlt : hi < lo) : Finds items key (-lo - 1) := by
  refine .inr ⟨fun hkey => ?_, ?_⟩
  · have := h.low
    have := h.mem hkey
    omega
  · have := h.low
    have := h.high
    omega

variable (hs : items.Pairwise (· < ·)) (hlo : lo ≤ split)
  (hitem : items[split.toNat]? = some item)

include hs hlo hitem

theorem Between.left (hhi : split ≤ hi) (hlt : key < item) :
    Between items key lo (split - 1) := by
  obtain ⟨hnonneg, hlength, hlow, -, -⟩ := h
  have hcount := mt (lt_key_iff hs hitem).mpr (not_lt.mpr hlt.le)
  refine ⟨hnonneg, by omega, hlow, by omega, fun hkey => ?_⟩
  obtain ⟨i, hi⟩ := mem_iff_getElem?.mp hkey
  have hne : i ≠ split.toNat := by
    rintro rfl
    exact hlt.ne (Option.some.inj (hi.symm.trans hitem))
  have hindex := index_eq_countP hs hi
  omega

theorem Between.right (hgt : item < key) : Between items key (split + 1) hi := by
  obtain ⟨hnonneg, hlength, -, hhigh, hmem⟩ := h
  have hcount := (lt_key_iff hs hitem).mp hgt
  exact ⟨by omega, hlength, by omega, hhigh, hmem⟩

end Turn

/-- The search is right if no probe overflows and every comparison is. -/
theorem indexOfLoop_iff (hzero : ∀ a b, compare a b = 0 ↔ a = b) (hs : items.Pairwise (· < ·))
    (hlength : (items.length : ℤ) < 2 ^ 31) :
    ∀ (fuel : ℕ) (lo hi : ℤ), Between items key lo hi → hi - lo + 1 ≤ fuel →
      ((∃ result, indexOfLoop compare items key fuel lo hi = some result ∧ Finds items key result) ↔
        ∀ probe ∈ probesLoop items key fuel lo hi,
          probe.1 < 2 ^ 31 ∧ (compare key probe.2 < 0 ↔ key < probe.2)) := by
  intro fuel
  induction fuel with
  | zero =>
    intro lo hi h hfuel
    simp only [probesLoop, not_mem_nil, false_implies, implies_true, iff_true]
    exact ⟨_, rfl, h.finds (by simp at hfuel; omega)⟩
  | succ fuel ih =>
    intro lo hi h hfuel
    obtain ⟨hnonneg, hhi, -, -, -⟩ := id h
    push_cast at hfuel
    rw [indexOfLoop, probesLoop]
    by_cases hle : lo ≤ hi
    · obtain ⟨item, hitem⟩ : ∃ item, items[((lo + hi) / 2).toNat]? = some item :=
        ⟨_, getElem?_eq_getElem (by omega)⟩
      simp only [if_pos hle, hitem, forall_mem_cons]
      by_cases hsum : lo + hi < 2 ^ 31
      · have hwrap : (lo + hi).bmod (2 ^ 32) = lo + hi := by
          rw [bmod_int (by omega) (by omega)]
          omega
        simp only [hwrap, if_neg (show ¬ (lo + hi) / 2 < 0 by omega), hitem, hsum, true_and]
        rcases lt_trichotomy key item with hlt | rfl | hgt
        · -- the key belongs to the left
          have hleft := h.left hs (by omega) hitem (by omega) hlt
          have hne : compare key item ≠ 0 := fun h => hlt.ne ((hzero _ _).mp h)
          simp only [if_neg hne, if_neg hlt.ne, if_pos hlt, iff_true_right hlt]
          by_cases hneg : compare key item < 0
          · simp only [hneg, if_true, true_and]
            exact ih lo _ hleft (by omega)
          · simp only [hneg, if_false, false_and, iff_false]
            have := hleft.high
            exact indexOfLoop_misled hzero hs (by omega) (by omega) (by omega) (by omega)
              (.inl (by omega))
        · simp only [(hzero key key).mpr rfl, if_true, lt_irrefl, true_and, not_mem_nil,
            false_implies, implies_true, iff_true]
          exact ⟨_, rfl, .inl ⟨_, hitem, by omega⟩⟩
        · -- the key belongs to the right
          have hright := h.right hs (by omega) hitem hgt
          have hne : compare key item ≠ 0 := fun h => hgt.ne' ((hzero _ _).mp h)
          simp only [if_neg hne, if_neg hgt.ne', if_neg hgt.not_gt, iff_false_right hgt.not_gt]
          by_cases hneg : compare key item < 0
          · simp only [hneg, if_true, not_true, false_and, iff_false]
            have := hright.low
            exact indexOfLoop_misled hzero hs hnonneg (by omega) (by omega) (by omega)
              (.inr (by omega))
          · simp only [hneg, if_false, not_false_iff, true_and]
            exact ih _ hi hright (by omega)
      · -- the sum is negative
        have hneg : (lo + hi).bmod (2 ^ 32) / 2 < 0 := by
          rw [bmod_int (by omega) (by omega)]
          omega
        simp only [hneg, hsum, if_true, reduceCtorEq, false_and, exists_false]
    · simp only [if_neg hle, not_mem_nil, false_implies, implies_true, iff_true]
      exact ⟨_, rfl, h.finds (by omega)⟩

theorem indexOf_right_iff (hzero : ∀ a b, compare a b = 0 ↔ a = b) (hs : items.Pairwise (· < ·))
    (hlength : items.length < 2 ^ 31) :
    (∃ result, indexOf compare items key = some result ∧ Finds items key result) ↔
      ∀ probe ∈ probes items key,
        probe.1 < 2 ^ 31 ∧ (compare key probe.2 < 0 ↔ key < probe.2) :=
  indexOfLoop_iff hzero hs (by exact_mod_cast hlength) _ _ _ (between_all hs key) (by omega)

end Search

/-! ### Differences that do not fit -/

theorem intCompare_eq_zero (a b : IntKey) : intCompare a b = 0 ↔ a = b := by
  obtain ⟨a, _, _⟩ := a
  obtain ⟨b, _, _⟩ := b
  rw [intCompare, bmod_int (by simp only; omega) (by simp only; omega), Subtype.mk.injEq]
  simp only
  omega

theorem intCompare_right_iff (a b : IntKey) :
    (intCompare a b < 0 ↔ a < b) ↔ -2 ^ 31 ≤ a.val - b.val ∧ a.val - b.val < 2 ^ 31 := by
  obtain ⟨a, _, _⟩ := a
  obtain ⟨b, _, _⟩ := b
  rw [intCompare, bmod_int (by simp only; omega) (by simp only; omega), Subtype.mk_lt_mk]
  simp only
  omega

theorem longCompare_eq_zero (a b : LongKey) : longCompare a b = 0 ↔ a = b := by
  obtain ⟨a, _, _⟩ := a
  obtain ⟨b, _, _⟩ := b
  simp only [longCompare, bmod_long (show -2 ^ 64 < a - b by omega) (show a - b < 2 ^ 64 by omega),
    Subtype.mk.injEq]
  omega

theorem longCompare_right_iff (a b : LongKey) :
    (longCompare a b < 0 ↔ a < b) ↔ -2 ^ 63 ≤ a.val - b.val ∧ a.val - b.val < 2 ^ 63 := by
  obtain ⟨a, _, _⟩ := a
  obtain ⟨b, _, _⟩ := b
  simp only [longCompare, bmod_long (show -2 ^ 64 < a - b by omega) (show a - b < 2 ^ 64 by omega),
    Subtype.mk_lt_mk]
  omega

/-- **Searches over integers** are right exactly if the key and each item they meet are no
further apart than their type allows, and the sums of the bounds fit. -/
theorem indexOf_iff (ints : List IntKey) (int : IntKey) (longs : List LongKey) (long : LongKey) :
    (ints.Pairwise (· < ·) → ints.length < 2 ^ 31 →
      ((∃ result, indexOf intCompare ints int = some result ∧ Finds ints int result) ↔
        ∀ probe ∈ probes ints int, probe.1 < 2 ^ 31 ∧
          -2 ^ 31 ≤ int.val - probe.2.val ∧ int.val - probe.2.val < 2 ^ 31)) ∧
    (longs.Pairwise (· < ·) → longs.length < 2 ^ 31 →
      ((∃ result, indexOf longCompare longs long = some result ∧ Finds longs long result) ↔
        ∀ probe ∈ probes longs long, probe.1 < 2 ^ 31 ∧
          -2 ^ 63 ≤ long.val - probe.2.val ∧ long.val - probe.2.val < 2 ^ 63)) := by
  refine ⟨fun hs hlength => ?_, fun hs hlength => ?_⟩
  · simp only [indexOf_right_iff intCompare_eq_zero hs hlength, intCompare_right_iff]
  · simp only [indexOf_right_iff longCompare_eq_zero hs hlength, longCompare_right_iff]

theorem int_le : (-2 ^ 31 : ℤ) ≤ 2 ^ 31 - 1 := by decide

def intKey (x : ℤ) : IntKey := .clamp int_le x

def longKey (x : ℤ) : LongKey := .clamp int64_le x

theorem indexOf_iff_near : ∃ result,
    indexOf intCompare [intKey (-5), intKey 0, intKey 7] (intKey 7) = some result ∧
    Finds [intKey (-5), intKey 0, intKey 7] (intKey 7) result :=
  ((indexOf_iff [intKey (-5), intKey 0, intKey 7] (intKey 7) [] (longKey 0)).1 (by decide)
    (by decide)).mpr (by decide)

/-- Two keys that are not found where they are. -/
theorem indexOf_far :
    ([intKey (-2000000000), intKey 1500000000].Pairwise (· < ·) ∧
      [intKey (-2000000000), intKey 1500000000][1]? = some (intKey 1500000000) ∧
      indexOf intCompare [intKey (-2000000000), intKey 1500000000] (intKey 1500000000) =
        some (-1)) ∧
    [longKey (-9000000000000000000), longKey 1000000000000000000].Pairwise (· < ·) ∧
      [longKey (-9000000000000000000), longKey 1000000000000000000][1]? =
        some (longKey 1000000000000000000) ∧
      indexOf longCompare [longKey (-9000000000000000000), longKey 1000000000000000000]
        (longKey 1000000000000000000) = some (-1) := by
  decide

end Fastore.Tree
