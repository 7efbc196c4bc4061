import Fastore.Lib.Slots
import Mathlib.Order.Monotone.Basic

/-!
Separators: a list of keys interleaved with one more group of keys than
it is long, each separator strictly above the group on its left and at
most the group on its right.

This is the local form of the search-tree property of a multiway node:
an edit between two neighbouring groups has to be checked against these
and the separators that touch them only. `separated_cut` and
`separated_join` take the chain apart at a separator and at a group, and
put it together again. That the separators ascend and that groups further
apart are ordered follows as long as no group is empty.
-/

namespace Fastore.Lib

open List

variable {K : Type*} [LinearOrder K]

/-- Every separator is strictly above the group on its left and at most
the group on its right. -/
def Separated : List K → List (List K) → Prop
  | [], [_] => True
  | s :: ss, a :: b :: gs => (∀ x ∈ a, x < s) ∧ (∀ x ∈ b, s ≤ x) ∧ Separated ss (b :: gs)
  | _, _ => False

theorem separated_length : ∀ {ss : List K} {gs : List (List K)}, Separated ss gs →
    gs.length = ss.length + 1
  | [], [_], _ => rfl
  | _ :: ss, _ :: b :: gs, h => by
    have hrest : Separated ss (b :: gs) := h.2.2
    have := separated_length hrest
    simpa using this
  | [], [], h => h.elim
  | [], _ :: _ :: _, h => h.elim
  | _ :: _, [], h => h.elim
  | _ :: _, [_], h => h.elim

theorem separated_window {f : ℕ → K} {g : ℕ → List K} {a n : ℕ}
    (h : ∀ i < n, (∀ x ∈ g (a + i), x < f (a + i)) ∧ ∀ x ∈ g (a + i + 1), f (a + i) ≤ x) :
    Separated (window f a n) (window g a (n + 1)) := by
  induction n generalizing a with
  | zero => trivial
  | succ n ih =>
    have hrest := ih (a := a + 1) fun i hi => by
      have := h (i + 1) (by omega)
      rwa [show a + (i + 1) = a + 1 + i by omega] at this
    rw [window_succ] at hrest
    rw [window_succ, window_succ, window_succ]
    exact ⟨(h 0 (Nat.succ_pos n)).1, (h 0 (Nat.succ_pos n)).2, hrest⟩

theorem separated_map {f : K → K} (hf : StrictMono f) :
    ∀ {ss : List K} {gs : List (List K)}, Separated ss gs →
      Separated (ss.map f) (gs.map (List.map f))
  | [], [_], _ => trivial
  | _ :: ss, _ :: b :: gs, h => by
    have hrest : Separated (ss.map f) ((b :: gs).map (List.map f)) := separated_map hf h.2.2
    refine ⟨fun x hx => ?_, fun x hx => ?_, hrest⟩
    · obtain ⟨y, hy, rfl⟩ := mem_map.mp hx
      exact hf (h.1 y hy)
    · obtain ⟨y, hy, rfl⟩ := mem_map.mp hx
      exact hf.monotone (h.2.1 y hy)
  | [], [], h => h.elim
  | [], _ :: _ :: _, h => h.elim
  | _ :: _, [], h => h.elim
  | _ :: _, [_], h => h.elim

variable {k s : K} {A B : List (List K)} {S T a a' : List K}

theorem separated_join (hlen : A.length = S.length) :
    Separated (S ++ T) (A ++ a :: B) ↔ Separated S (A ++ [a]) ∧ Separated T (a :: B) := by
  induction S generalizing A with
  | nil =>
    obtain rfl := length_eq_zero_iff.mp hlen
    simp [Separated]
  | cons u S ih =>
    match A, hlen with
    | [c], hlen =>
      obtain rfl := length_eq_zero_iff.mp (by simpa using hlen.symm : S.length = 0)
      simp only [cons_append, nil_append, Separated]
      tauto
    | c :: d :: A, hlen =>
      have h := ih (A := d :: A) (by simpa using hlen)
      simp only [cons_append, Separated] at h ⊢
      rw [h]
      tauto

theorem separated_cut {b : List K} (hlen : A.length = S.length) :
    Separated (S ++ s :: T) (A ++ a :: b :: B) ↔
      Separated S (A ++ [a]) ∧ (∀ x ∈ a, x < s) ∧ (∀ x ∈ b, s ≤ x) ∧ Separated T (b :: B) := by
  rw [separated_join hlen, Separated]

theorem separated_last (h : Separated S (A ++ [a]))
    (hle : ∀ x ∈ a', (∃ y ∈ a, y ≤ x) ∨ ∀ u ∈ S, u ≤ x) : Separated S (A ++ [a']) := by
  have hlen : A.length = S.length := by simpa using separated_length h
  rcases eq_nil_or_concat S with rfl | ⟨S, s, rfl⟩
  · obtain rfl := length_eq_zero_iff.mp hlen
    trivial
  rcases eq_nil_or_concat A with rfl | ⟨A, c, rfl⟩
  · simp at hlen
  simp only [concat_eq_append, append_assoc, cons_append,
    nil_append] at h ⊢
  have hlen' : A.length = S.length := by simpa using hlen
  obtain ⟨h₁, h₂, h₃, -⟩ := (separated_cut hlen').mp h
  refine (separated_cut hlen').mpr ⟨h₁, h₂, fun x hx => ?_, trivial⟩
  rcases hle x hx with ⟨y, hy, hyx⟩ | hu
  · exact le_trans (h₃ y hy) hyx
  · exact hu s (by simp)

theorem separated_head (h : Separated S (a :: A))
    (hle : ∀ x ∈ a', (∃ y ∈ a, x ≤ y) ∨ ∀ u ∈ S, x < u) : Separated S (a' :: A) := by
  match S, A, h with
  | [], [], _ => trivial
  | s :: S, b :: A, h =>
    refine ⟨fun x hx => ?_, h.2⟩
    rcases hle x hx with ⟨y, hy, hxy⟩ | hu
    · exact lt_of_le_of_lt hxy (h.1 y hy)
    · exact hu s (by simp)

theorem separated_replace (hlen : A.length = S.length) (h : Separated (S ++ T) (A ++ a :: B))
    (hnew : ∀ x ∈ a', x ∈ a ∨ (∀ u ∈ S, u ≤ x) ∧ ∀ u ∈ T, x < u) :
    Separated (S ++ T) (A ++ a' :: B) := by
  obtain ⟨h₁, h₂⟩ := (separated_join hlen).mp h
  refine (separated_join hlen).mpr ⟨separated_last h₁ fun x hx => ?_,
    separated_head h₂ fun x hx => ?_⟩
  · exact (hnew x hx).imp (fun hx => ⟨x, hx, le_refl x⟩) And.left
  · exact (hnew x hx).imp (fun hx => ⟨x, hx, le_refl x⟩) And.right

theorem separated_halves (hlen : A.length = S.length + 1) (h : Separated (S ++ s :: T) (A ++ B)) :
    Separated S A ∧ Separated T B := by
  have hB := separated_length h
  simp only [length_append, length_cons] at hB
  match B, hB with
  | [], hB => simp only [length_nil] at hB; omega
  | b :: B, _ =>
    rcases eq_nil_or_concat A with rfl | ⟨A, a, rfl⟩
    · simp at hlen
    · rw [concat_eq_append, append_assoc, singleton_append] at h
      obtain ⟨h₁, -, -, h₂⟩ := (separated_cut (by simpa using hlen)).mp h
      exact ⟨by rwa [concat_eq_append], h₂⟩

theorem separated_append (hA : Separated S A) (hB : Separated T B) (hlt : ∀ x ∈ A.flatten, x < k)
    (hle : ∀ x ∈ B.flatten, k ≤ x) : Separated (S ++ k :: T) (A ++ B) := by
  have hlen := separated_length hA
  cases B with
  | nil => exact absurd (separated_length hB) (by simp)
  | cons b B =>
    rcases eq_nil_or_concat A with rfl | ⟨A, a, rfl⟩
    · simp at hlen
    · rw [concat_eq_append] at *
      rw [append_assoc, singleton_append]
      refine (separated_cut (by simpa using hlen)).mpr ⟨hA, ?_, ?_, hB⟩
      · exact fun x hx => hlt x (mem_flatten.mpr ⟨a, by simp, hx⟩)
      · exact fun x hx => hle x (mem_flatten.mpr ⟨b, by simp, hx⟩)

theorem separated_insert {r : List K} (hlen : A.length = S.length)
    (h : Separated (S ++ T) (A ++ a :: B)) (ha : ∀ x ∈ a, x < k) (hr : ∀ x ∈ r, k ≤ x)
    (hT : ∀ x ∈ r, ∀ u ∈ T, x < u) : Separated (S ++ k :: T) (A ++ a :: r :: B) := by
  obtain ⟨h₁, h₂⟩ := (separated_join hlen).mp h
  exact (separated_cut hlen).mpr ⟨h₁, ha, hr, separated_head h₂ fun x hx => Or.inr (hT x hx)⟩

/-! ### Order along the chain

With every group inhabited the separators ascend, and a key that is
placed between two neighbouring separators is placed with respect to
all groups. -/

theorem separated_le (h : Separated (s :: S) (a :: A)) (hne : ∀ g ∈ A, g ≠ []) :
    (∀ u ∈ S, s < u) ∧ ∀ g ∈ A, ∀ x ∈ g, s ≤ x := by
  induction S generalizing s a A with
  | nil =>
    match A, h with
    | [b], h => exact ⟨by simp, by simpa using h.2.1⟩
  | cons u S ih =>
    match A, h with
    | b :: A, h =>
      obtain ⟨x, hx⟩ := exists_mem_of_ne_nil b (hne b (by simp))
      have hsx := h.2.1 x hx
      obtain ⟨hS, hA⟩ := ih h.2.2 fun g hg => hne g (by simp [hg])
      have hxu : x < u := by
        match A, h.2.2 with
        | _ :: _, h => exact h.1 x hx
      have hsu : s < u := lt_of_le_of_lt hsx hxu
      refine ⟨?_, ?_⟩
      · intro w hw
        rcases mem_cons.mp hw with rfl | hw
        · exact hsu
        · exact lt_trans hsu (hS w hw)
      · intro g hg y hy
        rcases mem_cons.mp hg with rfl | hg
        · exact h.2.1 y hy
        · exact le_trans (le_of_lt hsu) (hA g hg y hy)

theorem separated_sorted : ∀ {S : List K} {A : List (List K)}, Separated S A →
    (∀ g ∈ A, g ≠ []) → S.Pairwise (· < ·)
  | [], _, _, _ => List.Pairwise.nil
  | s :: S, a :: b :: A, h, hne => by
    refine List.Pairwise.cons (separated_le h fun g hg => hne g (by simp [hg])).1 ?_
    exact separated_sorted h.2.2 fun g hg => hne g (by simp [hg])

theorem separated_lt_tail (h : Separated S (a :: A)) (hne : ∀ g ∈ A, g ≠ []) (hk : ∀ u ∈ S, k < u) :
    ∀ g ∈ A, ∀ x ∈ g, k < x := by
  match S, A, h with
  | [], [], _ => simp
  | s :: S, b :: A, h =>
    intro g hg x hx
    exact lt_of_lt_of_le (hk s (by simp)) ((separated_le h hne).2 g hg x hx)

theorem separated_init_lt (h : Separated S (A ++ [a])) (hne : ∀ g ∈ A, g ≠ [])
    (hk : ∀ u ∈ S, u ≤ k) : ∀ g ∈ A, ∀ x ∈ g, x < k := by
  induction S generalizing A with
  | nil =>
    have : A.length = 0 := by simpa using separated_length h
    simp [length_eq_zero_iff.mp this]
  | cons s S ih =>
    match A, h with
    | [c], h =>
      intro g hg x hx
      obtain rfl : g = c := by simpa using hg
      exact lt_of_lt_of_le (h.1 x hx) (hk s (by simp))
    | c :: d :: A, h =>
      intro g hg x hx
      rcases mem_cons.mp hg with rfl | hg
      · exact lt_of_lt_of_le (h.1 x hx) (hk s (by simp))
      · exact ih h.2.2 (fun g hg => hne g (by simp [hg])) (fun u hu => hk u (by simp [hu]))
          g hg x hx

theorem separated_mem_lt (h : Separated S (a :: A)) (hne : ∀ g ∈ A, g ≠ []) :
    ∀ x ∈ a, ∀ u ∈ S, x < u := by
  match S, A, h with
  | [], [], _ => simp
  | s :: S, b :: A, h =>
    intro x hx u hu
    rcases mem_cons.mp hu with rfl | hu
    · exact h.1 x hx
    · exact lt_trans (h.1 x hx) ((separated_le h hne).1 u hu)

theorem separated_le_mem (h : Separated S (A ++ [a])) (hne : ∀ g ∈ A ++ [a], g ≠ []) :
    ∀ x ∈ a, ∀ u ∈ S, u ≤ x := by
  induction S generalizing A with
  | nil => simp
  | cons s S ih =>
    match A, h with
    | c :: A, h =>
      intro x hx u hu
      rcases mem_cons.mp hu with rfl | hu
      · have hrest : ∀ g ∈ A ++ [a], g ≠ [] := fun g hg => hne g (mem_cons_of_mem _ hg)
        exact (separated_le h hrest).2 a (mem_append_right A (by simp)) x hx
      · have h' : Separated S (A ++ [a]) := by
          match A, h with
          | [], h => exact h.2.2
          | _ :: _, h => exact h.2.2
        exact ih h' (fun g hg => hne g (by simp [hg])) x hx u hu

theorem lt_and_le_of_head {L R : List K} (hs : (L ++ R).Pairwise (· < ·)) (hk : R.head? = some k) :
    (∀ x ∈ L, x < k) ∧ ∀ x ∈ R, k ≤ x := by
  obtain ⟨R, rfl⟩ := head?_eq_some_iff.mp hk
  rw [pairwise_append, pairwise_cons] at hs
  refine ⟨fun x hx => hs.2.2 x hx k (by simp), fun x hx => ?_⟩
  rcases mem_cons.mp hx with rfl | hx
  · exact le_refl _
  · exact le_of_lt (hs.2.1.1 x hx)

theorem separated_splice {S₁ S₂ Y : List K} {G₁ G₂ X : List (List K)} {b : List K}
    (hlen : G₁.length = S₁.length) (h : Separated (S₁ ++ s :: S₂) (G₁ ++ a :: b :: G₂))
    (ha : a ≠ []) (hb : b ≠ []) (hX : Separated Y X) (hmem : ∀ x ∈ X.flatten, x ∈ a ∨ x ∈ b) :
    Separated (S₁ ++ Y ++ S₂) (G₁ ++ X ++ G₂) := by
  obtain ⟨h₁, has, hsb, h₂⟩ := (separated_cut hlen).mp h
  obtain ⟨y, hy⟩ := exists_mem_of_ne_nil a ha
  obtain ⟨z, hz⟩ := exists_mem_of_ne_nil b hb
  have hleft : ∀ x₀ ∈ X, Separated S₁ (G₁ ++ [x₀]) := fun x₀ hx₀ =>
    separated_last h₁ fun x hx => Or.inl (by
      rcases hmem x (mem_flatten.mpr ⟨x₀, hx₀, hx⟩) with hxa | hxb
      · exact ⟨x, hxa, le_refl x⟩
      · exact ⟨y, hy, le_trans (le_of_lt (has y hy)) (hsb x hxb)⟩)
  have hright : ∀ x₀ ∈ X, Separated S₂ (x₀ :: G₂) := fun x₀ hx₀ =>
    separated_head h₂ fun x hx => Or.inl (by
      rcases hmem x (mem_flatten.mpr ⟨x₀, hx₀, hx⟩) with hxa | hxb
      · exact ⟨z, hz, le_trans (le_of_lt (has x hxa)) (hsb z hz)⟩
      · exact ⟨x, hxb, le_refl x⟩)
  have hXlen := separated_length hX
  rcases eq_nil_or_concat X with rfl | ⟨X, l, rfl⟩
  · simp at hXlen
  · rw [concat_eq_append] at *
    have hjoin : Separated (Y ++ S₂) (X ++ l :: G₂) :=
      (separated_join (by simpa using hXlen)).mpr ⟨hX, hright l (by simp)⟩
    cases X with
    | nil =>
      rw [append_assoc]
      simpa using (separated_join hlen).mpr ⟨hleft l (by simp), by simpa using hjoin⟩
    | cons x₀ X =>
      rw [append_assoc]
      simpa using (separated_join hlen).mpr ⟨hleft x₀ (by simp), by simpa using hjoin⟩

theorem separated_flatten_sorted (h : Separated S A) (hne : ∀ g ∈ A, g ≠ [])
    (hs : ∀ g ∈ A, g.Pairwise (· < ·)) : A.flatten.Pairwise (· < ·) := by
  induction A generalizing S with
  | nil => exact List.Pairwise.nil
  | cons a A ih =>
    have hrest : A.flatten.Pairwise (· < ·) := by
      match S, A, h with
      | [], [], _ => exact List.Pairwise.nil
      | s :: S, b :: A, h =>
        exact ih h.2.2 (fun g hg => hne g (by simp [hg])) fun g hg => hs g (by simp [hg])
    rw [flatten_cons, pairwise_append]
    refine ⟨hs a (by simp), hrest, fun x hx y hy => ?_⟩
    obtain ⟨g, hg, hyg⟩ := mem_flatten.mp hy
    match S, A, h with
    | [], [], _ => simp at hg
    | s :: S, b :: A, h =>
      exact lt_of_lt_of_le (h.1 x hx)
        ((separated_le h fun g hg => hne g (by simp [hg])).2 g hg y hyg)

end Fastore.Lib
