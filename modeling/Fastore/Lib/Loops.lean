import Mathlib.Data.Nat.Find
import Mathlib.Algebra.Order.Ring.Int
import Mathlib.Data.Finset.Card

/-!
Loops that need not end.

A loop takes turns: each leads to another state or to the result. What a loop
ends with is what some number of turns leads to (`Ends`). A turn can be taken
before the loop is looked at (`ends_again`, `ends_done`); a loop ends if its
turns use something up (`exists_ends`), and does not end if it can always take
another turn (`not_ends`). A loop that tries something in each turn until it
works stops at the first chance, or never (`ends_at_first`, `Ends.first`).
-/

namespace Fastore.Lib

abbrev Loop (S O : Type) := S → S ⊕ O

namespace Loop

variable {S O : Type} {loop : Loop S O} {s s' : S} {o o' : O}

def run (loop : Loop S O) : ℕ → S → Option O
  | 0, _ => none
  | turns + 1, s =>
    match loop s with
    | .inl s => run loop turns s
    | .inr o => some o

def Ends (loop : Loop S O) (s : S) (o : O) : Prop := ∃ turns, loop.run turns s = some o

theorem ends_again (h : loop s = .inl s') : loop.Ends s o ↔ loop.Ends s' o := by
  constructor
  · rintro ⟨turns, hrun⟩
    cases turns with
    | zero => cases hrun
    | succ turns =>
      rw [run, h] at hrun
      exact ⟨turns, hrun⟩
  · rintro ⟨turns, hrun⟩
    refine ⟨turns + 1, ?_⟩
    rw [run, h]
    exact hrun

theorem ends_done (h : loop s = .inr o') : loop.Ends s o ↔ o = o' := by
  constructor
  · rintro ⟨turns, hrun⟩
    cases turns with
    | zero => cases hrun
    | succ turns =>
      rw [run, h] at hrun
      exact (Option.some.inj hrun).symm
  · rintro rfl
    exact ⟨1, by rw [run, h]⟩

/-- **Invariants**: what the turns keep holds when the last one is taken. -/
theorem Ends.last {I : S → Prop} (hturn : ∀ s s', I s → loop s = .inl s' → I s') (hs : I s)
    (h : loop.Ends s o) : ∃ s', I s' ∧ loop s' = .inr o := by
  obtain ⟨turns, hrun⟩ := h
  induction turns generalizing s with
  | zero => cases hrun
  | succ turns ih =>
    rw [run] at hrun
    cases hloop : loop s with
    | inl s' =>
      rw [hloop] at hrun
      exact ih (hturn s s' hs hloop) hrun
    | inr o' =>
      rw [hloop] at hrun
      exact ⟨s, hs, hloop.trans (congrArg _ (Option.some.inj hrun))⟩

theorem not_ends {I : S → Prop} (hturn : ∀ s, I s → ∃ s', loop s = .inl s' ∧ I s') (hs : I s) :
    ¬ loop.Ends s o := by
  intro h
  have hkeep : ∀ s s', I s → loop s = .inl s' → I s' := by
    intro s s' hs hloop
    obtain ⟨s₁, hs₁, hI⟩ := hturn s hs
    rwa [Sum.inl.inj (hloop.symm.trans hs₁)]
  obtain ⟨s', hs', hdone⟩ := h.last hkeep hs
  obtain ⟨s₁, hs₁, -⟩ := hturn s' hs'
  rw [hdone] at hs₁
  cases hs₁

theorem exists_ends {I : S → Prop} {m : S → ℕ}
    (hturn : ∀ s s', I s → loop s = .inl s' → I s' ∧ m s' < m s) (hs : I s) :
    ∃ o, loop.Ends s o := by
  induction hn : m s using Nat.strong_induction_on generalizing s with
  | _ n ih =>
    cases hloop : loop s with
    | inl s' =>
      obtain ⟨hs', hlt⟩ := hturn s s' hs hloop
      obtain ⟨o, ho⟩ := ih (m s') (hn ▸ hlt) hs' rfl
      exact ⟨o, (ends_again hloop).mpr ho⟩
    | inr o => exact ⟨o, (ends_done hloop).mpr rfl⟩

/-! ### Loops that stop at the first chance -/

section First

variable {I : ℕ → S → Prop} {P : ℕ → Prop} {Q : ℕ → O → Prop}

theorem ends_at_first (hgo : ∀ k s, I k s → ¬ P k → ∃ s', loop s = .inl s' ∧ I (k + 1) s')
    (hstop : ∀ k s, I k s → P k → ∃ o, loop s = .inr o ∧ Q k o) (hs : I 0 s) {k : ℕ} (hk : P k)
    (hfirst : ∀ j < k, ¬ P j) : ∃ o, loop.Ends s o ∧ Q k o := by
  -- the turns before `k` that are still to be taken
  have hfrom : ∀ n s, n ≤ k → I n s → ∃ o, loop.Ends s o ∧ Q k o := by
    intro n s hle hs
    induction hd : k - n generalizing n s with
    | zero =>
      obtain rfl : n = k := by omega
      obtain ⟨o, hdone, hQ⟩ := hstop n s hs hk
      exact ⟨o, (ends_done hdone).mpr rfl, hQ⟩
    | succ d ih =>
      obtain ⟨s', hturn, hs'⟩ := hgo n s hs (hfirst n (by omega))
      obtain ⟨o, hends, hQ⟩ := ih (n + 1) s' (by omega) hs' (by omega)
      exact ⟨o, (ends_again hturn).mpr hends, hQ⟩
  exact hfrom 0 s (Nat.zero_le k) hs

theorem Ends.first (hgo : ∀ k s, I k s → ¬ P k → ∃ s', loop s = .inl s' ∧ I (k + 1) s')
    (hstop : ∀ k s, I k s → P k → ∃ o, loop s = .inr o ∧ Q k o) (hs : I 0 s)
    (h : loop.Ends s o) : ∃ k, P k ∧ (∀ j < k, ¬ P j) ∧ Q k o := by
  obtain ⟨s', ⟨k, hs', hbefore⟩, hdone⟩ :=
    h.last (I := fun s => ∃ k, I k s ∧ ∀ j < k, ¬ P j) (by
      rintro s₁ s₂ ⟨k, hs₁, hbefore⟩ hturn
      by_cases hk : P k
      · obtain ⟨o', hdone, -⟩ := hstop k s₁ hs₁ hk
        rw [hdone] at hturn
        cases hturn
      · obtain ⟨s', hturn', hs'⟩ := hgo k s₁ hs₁ hk
        obtain rfl := Sum.inl.inj (hturn'.symm.trans hturn)
        refine ⟨k + 1, hs', fun j hj => ?_⟩
        rcases Nat.lt_succ_iff_lt_or_eq.mp hj with hj | rfl
        · exact hbefore j hj
        · exact hk) ⟨0, hs, fun j hj => absurd hj (Nat.not_lt_zero j)⟩
  have hk : P k := by
    by_contra hk
    obtain ⟨s₁, hturn, -⟩ := hgo k s' hs' hk
    rw [hdone] at hturn
    cases hturn
  obtain ⟨o', hdone', hQ⟩ := hstop k s' hs' hk
  obtain rfl := Sum.inr.inj (hdone'.symm.trans hdone)
  exact ⟨k, hk, hbefore, hQ⟩

end First

end Loop

theorem exists_first {P : ℕ → Prop} {k : ℕ} (hk : P k) :
    ∃ j ≤ k, P j ∧ ∀ i < j, ¬ P i := by
  classical
  exact ⟨Nat.find ⟨k, hk⟩, Nat.find_min' _ hk, Nat.find_spec ⟨k, hk⟩, fun i hi => Nat.find_min _ hi⟩

end Fastore.Lib
