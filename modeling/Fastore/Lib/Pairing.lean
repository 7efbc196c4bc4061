import Mathlib.Data.List.Dedup
import Mathlib.Data.List.TakeWhile
import Mathlib.Order.Lattice

/-!
Relations in the order of their left values.

A `Pairing` has no pair twice and keeps the pairs of one left value together,
in the order they have been added in. In such a list the pairs before, with and
behind a left value follow one another (`filter_lt_append`), which says where a
walk along the pairs of one value ends (`takeWhile_dropWhile_ne`,
`dropWhile_dropWhile_ne`).
-/

namespace Fastore.Lib

open List

variable {A B : Type} [LinearOrder A]

/-! ### Lists in the order of their left values -/

section Lists

variable {l : List (A × B)} {a : A}

theorem filter_lt_append (h : l.Pairwise (·.1 ≤ ·.1)) (a : A) :
    l.filter (·.1 < a) ++ (l.filter (·.1 = a) ++ l.filter (a < ·.1)) = l := by
  induction l with
  | nil => rfl
  | cons x l ih =>
    rw [pairwise_cons] at h
    have hsplit := ih h.2
    rcases lt_trichotomy x.1 a with hlt | heq | hgt
    · simp [hlt, hlt.ne, hlt.not_gt, hsplit]
    · have hbefore : l.filter (·.1 < a) = [] := by
        rw [filter_eq_nil_iff]
        intro y hy
        simpa [heq] using h.1 y hy
      rw [hbefore, nil_append] at hsplit
      simp [heq, hbefore, hsplit]
    · have hbehind : ∀ y ∈ l, a < y.1 := fun y hy => hgt.trans_le (h.1 y hy)
      have hbefore : l.filter (·.1 < a) = [] := by
        rw [filter_eq_nil_iff]
        intro y hy
        simpa using (hbehind y hy).le
      have hat : l.filter (·.1 = a) = [] := by
        rw [filter_eq_nil_iff]
        intro y hy
        simpa using (hbehind y hy).ne'
      rw [hbefore, hat, nil_append, nil_append] at hsplit
      simp [hgt, hgt.ne', hgt.not_gt, hbefore, hat, hsplit]

section Split

variable {before run after : List (A × B)} (hbefore : ∀ x ∈ before, x.1 < a)
  (hrun : ∀ x ∈ run, x.1 = a) (hafter : ∀ x ∈ after, a < x.1)

include hbefore hrun hafter

theorem filter_eq_run : (before ++ (run ++ after)).filter (·.1 = a) = run := by
  have h₁ : before.filter (·.1 = a) = [] :=
    filter_eq_nil_iff.mpr fun x hx => by simpa using (hbefore x hx).ne
  have h₂ : run.filter (·.1 = a) = run :=
    filter_eq_self.mpr fun x hx => by simpa using hrun x hx
  have h₃ : after.filter (·.1 = a) = [] :=
    filter_eq_nil_iff.mpr fun x hx => by simpa using (hafter x hx).ne'
  rw [filter_append, filter_append, h₁, h₂, h₃, append_nil, nil_append]

theorem filter_lt_rest : (before ++ (run ++ after)).filter (a < ·.1) = after := by
  have h₁ : before.filter (a < ·.1) = [] :=
    filter_eq_nil_iff.mpr fun x hx => by simpa using (hbefore x hx).le
  have h₂ : run.filter (a < ·.1) = [] :=
    filter_eq_nil_iff.mpr fun x hx => by simpa using (hrun x hx).le
  have h₃ : after.filter (a < ·.1) = after :=
    filter_eq_self.mpr fun x hx => by simpa using hafter x hx
  rw [filter_append, filter_append, h₁, h₂, h₃, nil_append, nil_append]

end Split

theorem dropWhile_ne (h : l.Pairwise (·.1 ≤ ·.1)) (ha : a ∈ l.map Prod.fst) :
    l.dropWhile (·.1 ≠ a) = l.filter (·.1 = a) ++ l.filter (a < ·.1) := by
  have hbefore : ∀ x ∈ l.filter (·.1 < a), decide (x.1 ≠ a) = true := by
    intro x hx
    have hlt : x.1 < a := by simpa using (mem_filter.mp hx).2
    simpa using hlt.ne
  obtain ⟨x, hx, hxa⟩ := mem_map.mp ha
  obtain ⟨y, run, hrun⟩ := exists_cons_of_ne_nil
    (ne_nil_of_mem (mem_filter.mpr ⟨hx, by simpa using hxa⟩ :
      x ∈ l.filter (·.1 = a)))
  have hy : y.1 = a := by
    have hmem : y ∈ l.filter (·.1 = a) := hrun ▸ mem_cons_self
    simpa using (mem_filter.mp hmem).2
  conv_lhs => rw [← filter_lt_append h a, dropWhile_append_of_pos hbefore, hrun]
  rw [hrun, cons_append, dropWhile_cons_of_neg (by simp [hy])]

theorem filter_eq_all (l : List (A × B)) (a : A) :
    ∀ x ∈ l.filter (·.1 = a), decide (x.1 = a) = true :=
  fun _ hx => (mem_filter.mp hx).2

theorem takeWhile_dropWhile_ne (h : l.Pairwise (·.1 ≤ ·.1)) (ha : a ∈ l.map Prod.fst) :
    (l.dropWhile (·.1 ≠ a)).takeWhile (·.1 = a) = l.filter (·.1 = a) := by
  rw [dropWhile_ne h ha, takeWhile_append_of_pos (filter_eq_all l a)]
  cases hrest : l.filter (a < ·.1) with
  | nil => simp
  | cons x rest =>
    have hx : x ∈ l.filter (a < ·.1) := hrest ▸ mem_cons_self
    have hlt : a < x.1 := by simpa using (mem_filter.mp hx).2
    simp [hlt.ne']

theorem dropWhile_dropWhile_ne (h : l.Pairwise (·.1 ≤ ·.1)) (ha : a ∈ l.map Prod.fst) :
    (l.dropWhile (·.1 ≠ a)).dropWhile (·.1 = a) = l.filter (a < ·.1) := by
  rw [dropWhile_ne h ha, dropWhile_append_of_pos (filter_eq_all l a)]
  cases hrest : l.filter (a < ·.1) with
  | nil => rfl
  | cons x rest =>
    have hx : x ∈ l.filter (a < ·.1) := hrest ▸ mem_cons_self
    have hlt : a < x.1 := by simpa using (mem_filter.mp hx).2
    simp [hlt.ne']

end Lists

/-! ### Relations -/

structure Pairing (A B : Type) [LinearOrder A] where
  pairs : List (A × B)
  sorted : pairs.Pairwise (·.1 ≤ ·.1)
  nodup : pairs.Nodup

section Insert

variable [DecidableEq B] {l : List (A × B)} {x : A × B}

def insertPair (l : List (A × B)) (x : A × B) : List (A × B) :=
  if l.contains x then l else l.filter (·.1 ≤ x.1) ++ x :: l.filter (x.1 < ·.1)

theorem insertPair_sorted (h : l.Pairwise (·.1 ≤ ·.1)) (x : A × B) :
    (insertPair l x).Pairwise (·.1 ≤ ·.1) := by
  rw [insertPair]
  split
  · exact h
  · rw [pairwise_append, pairwise_cons]
    refine ⟨h.filter _, ⟨fun y hy => ?_, h.filter _⟩, fun y hy z hz => ?_⟩
    · have hlt : x.1 < y.1 := by simpa using (mem_filter.mp hy).2
      exact hlt.le
    · have hle : y.1 ≤ x.1 := by simpa using (mem_filter.mp hy).2
      rcases mem_cons.mp hz with rfl | hz
      · exact hle
      · have hlt : x.1 < z.1 := by simpa using (mem_filter.mp hz).2
        exact hle.trans hlt.le

theorem insertPair_nodup (h : l.Nodup) (x : A × B) : (insertPair l x).Nodup := by
  rw [insertPair]
  split
  · exact h
  · rename_i hx
    have hx : x ∉ l := by simpa using hx
    rw [nodup_append, nodup_cons]
    refine ⟨h.filter _, ⟨fun hm => hx (mem_filter.mp hm).1, h.filter _⟩, ?_⟩
    intro y hy z hz
    have hle : y.1 ≤ x.1 := by simpa using (mem_filter.mp hy).2
    rintro rfl
    rcases mem_cons.mp hz with rfl | hz
    · exact hx (mem_filter.mp hy).1
    · have hlt : x.1 < y.1 := by simpa using (mem_filter.mp hz).2
      exact absurd hle hlt.not_ge

end Insert

namespace Pairing

def empty : Pairing A B := ⟨[], List.Pairwise.nil, nodup_nil⟩

def insert [DecidableEq B] (r : Pairing A B) (x : A × B) : Pairing A B where
  pairs := insertPair r.pairs x
  sorted := insertPair_sorted r.sorted x
  nodup := insertPair_nodup r.nodup x

def lefts (r : Pairing A B) : List A := (r.pairs.map Prod.fst).dedup

section

variable {r : Pairing A B} {a : A}

theorem mem_lefts : a ∈ r.lefts ↔ a ∈ r.pairs.map Prod.fst := mem_dedup

theorem lefts_sorted (r : Pairing A B) : r.lefts.Pairwise (· < ·) := by
  have hle : (r.pairs.map Prod.fst).Pairwise (· ≤ ·) := pairwise_map.mpr r.sorted
  exact (hle.sublist (dedup_sublist _)).imp₂ (fun _ _ => lt_of_le_of_ne)
    (nodup_dedup _)

theorem filter_lt_eq_nil {done todo : List A} (h : r.lefts = done ++ a :: todo) :
    r.pairs.filter (a < ·.1) = [] ↔ todo = [] := by
  have hsorted := r.lefts_sorted
  rw [h, pairwise_append, pairwise_cons] at hsorted
  obtain ⟨-, ⟨htodo, -⟩, hdone⟩ := hsorted
  rw [filter_eq_nil_iff]
  constructor
  · intro hnone
    rw [eq_nil_iff_forall_not_mem]
    intro b hb
    have hleft : b ∈ r.lefts := h ▸ mem_append_right _ (mem_cons_of_mem _ hb)
    obtain ⟨x, hx, rfl⟩ := mem_map.mp (mem_lefts.mp hleft)
    exact hnone x hx (by simpa using htodo _ hb)
  · rintro rfl x hx
    have hleft : x.1 ∈ r.lefts := mem_lefts.mpr (mem_map_of_mem hx)
    rw [h] at hleft
    rcases mem_append.mp hleft with hx | hx
    · simpa using (hdone _ hx _ mem_cons_self).le
    · simpa using (mem_singleton.mp hx).le

end

/-- Pairs that come in order are put behind the others. -/
theorem pairs_foldl_insert [DecidableEq B] {r : Pairing A B} {new : List (A × B)}
    (hsorted : (r.pairs ++ new).Pairwise (·.1 ≤ ·.1)) (hnodup : (r.pairs ++ new).Nodup) :
    (new.foldl insert r).pairs = r.pairs ++ new := by
  induction new generalizing r with
  | nil => exact (append_nil _).symm
  | cons x new ih =>
    have hle : ∀ y ∈ r.pairs, y.1 ≤ x.1 := fun y hy =>
      (pairwise_append.mp hsorted).2.2 y hy x mem_cons_self
    have hx : x ∉ r.pairs := fun hx =>
      (nodup_append.mp hnodup).2.2 x hx x mem_cons_self rfl
    have hpairs : (r.insert x).pairs = r.pairs ++ [x] := by
      change insertPair r.pairs x = _
      rw [insertPair, if_neg (by simpa using hx), filter_eq_self.mpr (by simpa using hle),
        filter_eq_nil_iff.mpr (by simpa using hle)]
    rw [append_cons] at hsorted hnodup
    rw [foldl_cons, ih (by rwa [hpairs]) (by rwa [hpairs]), hpairs, append_assoc,
      singleton_append]

end Pairing

end Fastore.Lib
