import Mathlib.Algebra.Order.Ring.Int
import Mathlib.Data.Finset.Card
import Mathlib.Data.List.Basic
import Mathlib.Logic.Function.Basic

/-!
Raw arrays: a block of memory is the function from slot numbers to what
the slot holds, and the part of it that counts as contents is a *window*.

Code that keeps its data in a plain array plus a counter never clears
what it no longer uses. A list models the slots below the counter and
loses those above it; a total function keeps both, and `window s a n`
reads off the list a run of slots amounts to.

The one bulk operation is `move`, the block copy of `memcpy` and
`memmove`: the source is read as a whole before the target is written,
so overlapping blocks are no special case. A `move` and a single store
are described by what they do to a window they meet and to one they miss.
-/

namespace Fastore.Lib

open List

variable {α β : Type*}

def window (s : ℕ → α) (a n : ℕ) : List α := (List.range n).map fun i => s (a + i)

/-- Copy `n` slots of `src` from `s` on over the slots of `dst` from `d` on. -/
def move (dst : ℕ → α) (d : ℕ) (src : ℕ → α) (s n : ℕ) : ℕ → α :=
  fun i => if d ≤ i ∧ i < d + n then src (s + (i - d)) else dst i

@[simp] theorem length_window (s : ℕ → α) (a n : ℕ) : (window s a n).length = n := by
  simp [window]

@[simp] theorem window_zero (s : ℕ → α) (a : ℕ) : window s a 0 = [] := rfl

@[simp] theorem window_one (s : ℕ → α) (a : ℕ) : window s a 1 = [s a] := rfl

@[simp] theorem getElem_window (s : ℕ → α) (a n i : ℕ) (h : i < (window s a n).length) :
    (window s a n)[i] = s (a + i) := by
  simp [window]

theorem mem_window {s : ℕ → α} {a n : ℕ} {x : α} :
    x ∈ window s a n ↔ ∃ i < n, s (a + i) = x := by
  simp [window]

theorem window_congr {s s' : ℕ → α} {a b n : ℕ} (h : ∀ i < n, s (a + i) = s' (b + i)) :
    window s a n = window s' b n := by
  refine map_congr_left fun i hi => h i (mem_range.mp hi)

theorem window_add (s : ℕ → α) (a m n : ℕ) :
    window s a (m + n) = window s a m ++ window s (a + m) n := by
  simp only [window, range_add, map_append, map_map]
  congr 1
  refine map_congr_left fun i _ => ?_
  simp [Nat.add_assoc]

theorem window_succ (s : ℕ → α) (a n : ℕ) :
    window s a (n + 1) = s a :: window s (a + 1) n := by
  rw [Nat.add_comm n 1, window_add, window_one, singleton_append]

theorem window_succ_last (s : ℕ → α) (a n : ℕ) :
    window s a (n + 1) = window s a n ++ [s (a + n)] := by
  rw [window_add, window_one]

theorem window_cut (s : ℕ → α) (a : ℕ) {i n : ℕ} (h : i ≤ n) :
    window s a n = window s a i ++ window s (a + i) (n - i) := by
  rw [← window_add, Nat.add_sub_cancel' h]

theorem window_split (s : ℕ → α) {i n : ℕ} (h : i < n) :
    window s 0 n = window s 0 i ++ s i :: window s (i + 1) (n - i - 1) := by
  rw [window_cut s 0 (Nat.le_of_lt h), show n - i = n - i - 1 + 1 by omega, window_succ]
  simp

theorem map_window (f : α → β) (s : ℕ → α) (a n : ℕ) :
    (window s a n).map f = window (fun i => f (s i)) a n := by
  simp [window]

theorem apply_eq_of_window_eq {s s' : ℕ → α} {a b n i : ℕ} (h : window s a n = window s' b n)
    (hi : i < n) : s (a + i) = s' (b + i) := by
  have hs : (window s a n)[i]? = some (s (a + i)) := by
    rw [getElem?_eq_getElem (by simpa using hi), getElem_window]
  have hs' : (window s' b n)[i]? = some (s' (b + i)) := by
    rw [getElem?_eq_getElem (by simpa using hi), getElem_window]
  rw [h, hs'] at hs
  exact (Option.some.inj hs).symm

/-! ### Block copies and stores against a window -/

theorem move_apply (dst : ℕ → α) (d : ℕ) (src : ℕ → α) (s n i : ℕ) :
    move dst d src s n i = if d ≤ i ∧ i < d + n then src (s + (i - d)) else dst i := rfl

theorem window_move_inside (dst : ℕ → α) (d : ℕ) (src : ℕ → α) (s n : ℕ) {a m : ℕ} (hlo : d ≤ a)
    (hhi : a + m ≤ d + n) :
    window (move dst d src s n) a m = window src (s + (a - d)) m := by
  refine window_congr fun i hi => ?_
  rw [move_apply, if_pos (by omega)]
  congr 1
  omega

theorem window_move_outside (dst : ℕ → α) (d : ℕ) (src : ℕ → α) (s n : ℕ) {a m : ℕ}
    (h : a + m ≤ d ∨ d + n ≤ a) :
    window (move dst d src s n) a m = window dst a m := by
  refine window_congr fun i hi => ?_
  rw [move_apply, if_neg (by omega)]

theorem window_update_outside (s : ℕ → α) (j : ℕ) (x : α) {a m : ℕ} (h : a + m ≤ j ∨ j < a) :
    window (Function.update s j x) a m = window s a m := by
  refine window_congr fun i hi => ?_
  rw [Function.update_of_ne (by omega)]

@[simp] theorem move_zero (dst : ℕ → α) (d : ℕ) (src : ℕ → α) (s : ℕ) :
    move dst d src s 0 = dst := by
  funext i
  rw [move_apply, if_neg (by omega)]

theorem window_insert (s : ℕ → α) (x : α) {i n : ℕ} (h : i ≤ n) :
    window (Function.update (move s (i + 1) s i (n - i)) i x) 0 (n + 1) =
      window s 0 i ++ x :: window s i (n - i) := by
  rw [window_split _ (Nat.lt_succ_of_le h), window_update_outside _ _ _ (by omega),
    window_update_outside _ _ _ (by omega), window_move_outside _ _ _ _ _ (by omega),
    window_move_inside _ _ _ _ _ (by omega) (by omega), Function.update_self]
  congr 3 <;> omega

theorem window_erase (s : ℕ → α) {i n m : ℕ} (h : i < n) (hm : n - i - 1 ≤ m) :
    window (move s i s (i + 1) m) 0 (n - 1) = window s 0 i ++ window s (i + 1) (n - i - 1) := by
  rw [window_cut _ 0 (show i ≤ n - 1 by omega), window_move_outside _ _ _ _ _ (by omega),
    window_move_inside _ _ _ _ _ (by omega) (by omega)]
  congr 2 <;> omega

theorem window_append (dst : ℕ → α) (src : ℕ → α) (s n m : ℕ) :
    window (move dst n src s m) 0 (n + m) = window dst 0 n ++ window src s m := by
  rw [window_add, window_move_outside _ _ _ _ _ (by omega),
    window_move_inside _ _ _ _ _ (by omega) (by omega)]
  congr 2
  omega

end Fastore.Lib
