import Mathlib.Algebra.Order.Ring.Int
import Mathlib.Data.Finset.Card
import Mathlib.Data.List.Basic

/-!
Runs of a machine whose steps may fail, next to a specification.

A machine takes a step for each input, or fails. A guard says of a state
and an input that the step is a good one; a run is guarded if each of its
steps is good in the state it is taken in (`guarded`). If every good step
from a state that represents `m` succeeds and represents the next state
of the specification, so does every guarded run (`foldlM_of_guarded`), and
with it every part of the run from its start (`guarded_append`).
-/

namespace Fastore.Lib

open List

variable {S T I F : Type}

theorem eq_ok_of_bind {α β ε : Type} {x : Except ε α} {f : α → Except ε β} {y : β}
    (h : (x >>= f) = .ok y) : ∃ a, x = .ok a ∧ f a = .ok y := by
  cases x with
  | error e => exact absurd h (by simp [bind, Except.bind])
  | ok a => exact ⟨a, rfl, h⟩

theorem ok_unique {α ε : Type} {x : Except ε α} {a b : α} (ha : x = .ok a) (hb : x = .ok b) :
    a = b :=
  Except.ok.inj (ha.symm.trans hb)

theorem some_unique {α : Type} {x : Option α} {a b : α} (ha : x = some a) (hb : x = some b) :
    a = b :=
  Option.some.inj (ha.symm.trans hb)

theorem eq_ok_of_map {α β ε : Type} {x : Except ε α} {f : α → β} {y : β}
    (h : (x >>= fun a => .ok (f a)) = .ok y) : ∃ a, x = .ok a ∧ f a = y := by
  obtain ⟨a, hx, ha⟩ := eq_ok_of_bind h
  exact ⟨a, hx, Except.ok.inj ha⟩

theorem exists_ok_of_any {α ε : Type} {x : Except ε α} {p : α → Bool}
    (h : x.toOption.any p = true) : ∃ a, x = .ok a ∧ p a = true := by
  cases x with
  | error e => cases h
  | ok a => exact ⟨a, rfl, h⟩

theorem eq_ok_of_toOption {α ε : Type} {x : Except ε α} {a : α} (h : x.toOption = some a) :
    x = .ok a := by
  cases x with
  | error e => cases h
  | ok b => exact congrArg _ (Option.some.inj h)

theorem mapM_eq_ok {α β ε : Type} {f : α → Except ε β} {g : α → β} {l : List α}
    (h : ∀ a ∈ l, f a = .ok (g a)) : l.mapM f = .ok (l.map g) := by
  induction l with
  | nil => rfl
  | cons a l ih =>
    rw [mapM_cons, h a mem_cons_self, ih fun b hb => h b (mem_cons_of_mem _ hb)]
    rfl

theorem mapM_eq_ok_iff {α β ε : Type} {f : α → Except ε β} {g : α → Option β}
    (h : ∀ a b, f a = .ok b ↔ g a = some b) {l : List α} {l' : List β} :
    l.mapM f = .ok l' ↔ (∀ a ∈ l, (g a).isSome) ∧ l' = l.filterMap g := by
  induction l generalizing l' with
  | nil => exact ⟨fun hok => ⟨by simp, (Except.ok.inj hok).symm⟩, fun h => h.2 ▸ rfl⟩
  | cons a l ih =>
    rw [mapM_cons, forall_mem_cons]
    constructor
    · intro hok
      obtain ⟨b, hb, hok⟩ := eq_ok_of_bind hok
      obtain ⟨bs, hbs, hok⟩ := eq_ok_of_bind hok
      obtain ⟨hall, rfl⟩ := ih.mp hbs
      rw [h] at hb
      exact ⟨⟨by simp [hb], hall⟩, by rw [filterMap_cons_some hb, ← Except.ok.inj hok]⟩
    · rintro ⟨⟨ha, hall⟩, rfl⟩
      obtain ⟨b, hb⟩ := Option.isSome_iff_exists.mp ha
      rw [(h a b).mpr hb, filterMap_cons_some hb, ih.mpr ⟨hall, rfl⟩]
      rfl

/-- Two computations end in the same way: both fail with the same failure, or both return,
and what they return is related. -/
inductive Agree {α β ε : Type} (r : α → β → Prop) : Except ε α → Except ε β → Prop
  | ok {a : α} {b : β} (h : r a b) : Agree r (.ok a) (.ok b)
  | error (e : ε) : Agree r (.error e) (.error e)

section Agree

variable {α β α' β' ε : Type} {r : α → β → Prop} {r' : α' → β' → Prop} {x : Except ε α}
  {y : Except ε β} {f : α → Except ε α'} {g : β → Except ε β'}

theorem Agree.bind (h : Agree r x y) (hf : ∀ a b, r a b → Agree r' (f a) (g b)) :
    Agree r' (x >>= f) (y >>= g) := by
  cases h with
  | ok h => exact hf _ _ h
  | error e => exact .error e

theorem Agree.eq_ok {a : α} (h : Agree r x y) (hx : x = .ok a) : ∃ b, y = .ok b ∧ r a b := by
  cases h with
  | ok h =>
    obtain rfl := Except.ok.inj hx
    exact ⟨_, rfl, h⟩
  | error e => cases hx

end Agree

theorem foldlM_preserves_of_mem {S I F : Type} {step : S → I → Except F S} {P : S → Prop}
    {is : List I} (hstep : ∀ i ∈ is, ∀ s s', P s → step s i = .ok s' → P s') {s s' : S} (hs : P s)
    (h : is.foldlM step s = .ok s') : P s' := by
  induction is generalizing s with
  | nil =>
    obtain rfl := Except.ok.inj h
    exact hs
  | cons i is ih =>
    rw [foldlM_cons] at h
    obtain ⟨s₁, hs₁, h⟩ := eq_ok_of_bind h
    exact ih (fun j hj => hstep j (mem_cons_of_mem _ hj))
      (hstep i mem_cons_self s s₁ hs hs₁) h

theorem foldlM_preserves {S I F : Type} {step : S → I → Except F S} {P : S → Prop}
    (hstep : ∀ s i s', P s → step s i = .ok s' → P s') {is : List I} {s s' : S} (hs : P s)
    (h : is.foldlM step s = .ok s') : P s' :=
  foldlM_preserves_of_mem (fun i _ s s' => hstep s i s') hs h

theorem foldlM_flatMap {step : S → T → Except F S} (g : I → List T) (is : List I) (s : S) :
    is.foldlM (fun s i => (g i).foldlM step s) s = (is.flatMap g).foldlM step s := by
  induction is generalizing s with
  | nil => rfl
  | cons i is ih =>
    rw [foldlM_cons, flatMap_cons, foldlM_append]
    exact congrArg _ (funext fun s => ih s)

/-- A run that changes its state in place: the state it ends in, and the failure that ends
it early. A step that fails leaves the state as it is. -/
def keeping (step : S → I → Except F S) : S → List I → S × Option F
  | s, [] => (s, none)
  | s, i :: is =>
    match step s i with
    | .ok s => keeping step s is
    | .error f => (s, some f)

/-- The step that fails ends the run. -/
theorem keeping_eq_some {step : S → I → Except F S} {is : List I} {s s' : S} {f : F} :
    keeping step s is = (s', some f) ↔ ∃ pre i post, is = pre ++ i :: post ∧
      pre.foldlM step s = .ok s' ∧ step s' i = .error f := by
  induction is generalizing s with
  | nil => simp [keeping]
  | cons i is ih =>
    rw [keeping]
    constructor
    · intro h
      cases hs : step s i with
      | ok s₁ =>
        rw [hs] at h
        obtain ⟨pre, j, post, rfl, hpre, hj⟩ := ih.mp h
        refine ⟨i :: pre, j, post, rfl, ?_, hj⟩
        rw [foldlM_cons, hs]
        exact hpre
      | error g =>
        rw [hs] at h
        obtain ⟨rfl, hg⟩ := Prod.mk.inj h
        exact ⟨[], i, is, rfl, rfl, hs.trans (congrArg _ (Option.some.inj hg))⟩
    · rintro ⟨pre, j, post, heq, hpre, hj⟩
      cases pre with
      | nil =>
        obtain ⟨rfl, rfl⟩ := List.cons.inj heq
        obtain rfl := Except.ok.inj hpre
        rw [hj]
      | cons k pre =>
        obtain ⟨rfl, rfl⟩ := List.cons.inj heq
        rw [foldlM_cons] at hpre
        obtain ⟨s₁, hs₁, hpre⟩ := eq_ok_of_bind hpre
        rw [hs₁]
        exact ih.mpr ⟨pre, j, post, rfl, hpre, hj⟩

def guarded (step : S → I → Except F S) (good : S → I → Bool) : S → List I → Bool
  | _, [] => true
  | s, i :: is =>
    good s i &&
    match step s i with
    | .ok s => guarded step good s is
    | .error _ => true

variable {step : S → I → Except F S} {good : S → I → Bool}

theorem guarded_append {s : S} {is js : List I} (h : guarded step good s (is ++ js) = true) :
    guarded step good s is = true := by
  induction is generalizing s with
  | nil => rfl
  | cons i is ih =>
    rw [cons_append, guarded, Bool.and_eq_true] at h
    rw [guarded, h.1, Bool.true_and]
    cases hs : step s i with
    | error f => rfl
    | ok s' =>
      rw [hs] at h
      exact ih h.2

/-- **Runs**: what good steps preserve, guarded runs preserve. -/
theorem foldlM_of_guarded {Represents : S → T → Prop} {next : T → I → T}
    (hstep : ∀ s m i, Represents s m → good s i = true →
      ∃ s', step s i = .ok s' ∧ Represents s' (next m i)) :
    ∀ {s : S} {m : T} (is : List I), Represents s m → guarded step good s is = true →
      ∃ s', is.foldlM step s = .ok s' ∧ Represents s' (is.foldl next m) := by
  intro s m is
  induction is generalizing s m with
  | nil => exact fun hs _ => ⟨s, rfl, hs⟩
  | cons i is ih =>
    intro hs hg
    rw [guarded, Bool.and_eq_true] at hg
    obtain ⟨s₁, hs₁, hr₁⟩ := hstep s m i hs hg.1
    rw [hs₁] at hg
    obtain ⟨s', hs', hr'⟩ := ih hr₁ hg.2
    refine ⟨s', ?_, hr'⟩
    rw [foldlM_cons, hs₁]
    exact hs'

end Fastore.Lib
