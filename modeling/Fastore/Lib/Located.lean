import Mathlib.Algebra.Order.Ring.Int
import Mathlib.Data.Finset.Card
import Mathlib.Data.Option.Basic
import Mathlib.Logic.Function.Basic

/-!
Tables of places.

Items have a place and a label each, and `P r l a` is the fact that item
`r` is found at place `l` under label `a`. Two tables that are kept on the
side, one of places and one of labels, describe these facts
(`Located`) if an item has either both entries or none and is found just
where the tables have it. What has to happen to the tables when an item is
added or removed, or when items change their place, is said here once.
-/

namespace Fastore.Lib

open Function

variable {R L A : Type}

/-- `ρ` and `M` are the places and the labels of the items. -/
structure Located (P : R → L → A → Prop) (ρ : R → Option L) (M : R → Option A) : Prop where
  iff : ∀ r l a, P r l a ↔ ρ r = some l ∧ M r = some a
  same : ∀ r, (ρ r).isSome = (M r).isSome

namespace Located

variable {P P' : R → L → A → Prop} {ρ : R → Option L} {M : R → Option A} {r : R} {l : L} {a : A}

theorem empty : Located (fun _ _ _ => False : R → L → A → Prop) (fun _ => none) fun _ => none :=
  ⟨by simp, fun _ => rfl⟩

theorem of_place (h : Located P ρ M) (hr : ρ r = some l) : ∃ a, M r = some a ∧ P r l a := by
  have hsome := h.same r
  rw [hr] at hsome
  obtain ⟨a, ha⟩ := Option.isSome_iff_exists.mp hsome.symm
  exact ⟨a, ha, (h.iff r l a).mpr ⟨hr, ha⟩⟩

theorem of_label (h : Located P ρ M) (hr : M r = some a) : ∃ l, ρ r = some l ∧ P r l a := by
  have hsome := h.same r
  rw [hr] at hsome
  obtain ⟨l, hl⟩ := Option.isSome_iff_exists.mp hsome
  exact ⟨l, hl, (h.iff r l a).mpr ⟨hl, hr⟩⟩

theorem place_none (h : Located P ρ M) : ρ r = none ↔ M r = none := by
  rw [← Option.not_isSome_iff_eq_none, ← Option.not_isSome_iff_eq_none, h.same]

theorem congr (h : Located P ρ M) (hP : ∀ r l a, P' r l a ↔ P r l a) : Located P' ρ M :=
  ⟨fun r l a => (hP r l a).trans (h.iff r l a), h.same⟩

theorem add [DecidableEq R] (h : Located P ρ M) (hr : ρ r = none)
    (hP : ∀ r' l' a', P' r' l' a' ↔ P r' l' a' ∨ r' = r ∧ l' = l ∧ a' = a) :
    Located P' (update ρ r (some l)) (update M r (some a)) := by
  refine ⟨fun r' l' a' => ?_, fun r' => ?_⟩
  · rw [hP, h.iff, update_apply, update_apply]
    by_cases hr' : r' = r
    · subst hr'
      simp [hr, eq_comm]
    · simp [hr']
  · rw [update_apply, update_apply]
    split
    · rfl
    · exact h.same r'

theorem erase [DecidableEq R] (h : Located P ρ M)
    (hP : ∀ r' l' a', P' r' l' a' ↔ P r' l' a' ∧ r' ≠ r) :
    Located P' (update ρ r none) (update M r none) := by
  refine ⟨fun r' l' a' => ?_, fun r' => ?_⟩
  · rw [hP, h.iff, update_apply, update_apply]
    by_cases hr' : r' = r <;> simp [hr']
  · rw [update_apply, update_apply]
    split
    · rfl
    · exact h.same r'

open Classical in
theorem move (h : Located P ρ M) {moved : R → Prop} (hmoved : ∀ r, moved r → (ρ r).isSome = true)
    (hP : ∀ r' l' a', P' r' l' a' ↔
      if moved r' then l' = l ∧ ∃ l₀, P r' l₀ a' else P r' l' a') :
    Located P' (fun r => if moved r then some l else ρ r) M := by
  refine ⟨fun r' l' a' => ?_, fun r' => ?_⟩
  · rw [hP]
    by_cases hr' : moved r'
    · obtain ⟨l₀, hl₀⟩ := Option.isSome_iff_exists.mp (hmoved r' hr')
      simp [hr', h.iff, hl₀, eq_comm]
    · simp [hr', h.iff]
  · by_cases hr' : moved r'
    · rw [if_pos hr', ← h.same, hmoved r' hr']
      rfl
    · rw [if_neg hr', h.same]

end Located

end Fastore.Lib
