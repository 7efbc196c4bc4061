import Fastore.Lib.SortedMap

/-!
Updating the entries of a map in place, and maps of groups.

`update` changes the value of a key, from a default if the key is new, as
an index operator that creates entries does. A map of lists that is only
ever appended to (`push`) groups a list of pairs by their keys (`Groups`):
the groups together are as long as the list, and the last one is that of
the greatest key.
-/

namespace Fastore.Lib

open List

namespace SortedMap

variable {K V : Type} [LinearOrder K] {m : SortedMap K V} {k j : K}

/-- Change the value of a key, which is `d` if there is none. -/
def update (m : SortedMap K V) (d : V) (k : K) (f : V → V) : SortedMap K V :=
  m.insert k (f ((m.get? k).getD d))

theorem get?_update (d : V) (f : V → V) :
    (m.update d k f).get? j = if j = k then some (f ((m.get? k).getD d)) else m.get? j := by
  rw [update, get?_insert]

theorem get?_foldl_update (d : V) (f : K → V → V) {ks : List K} (hks : ks.Nodup) :
    (ks.foldl (fun m k => m.update d k (f k)) m).get? j =
      if j ∈ ks then some (f j ((m.get? j).getD d)) else m.get? j := by
  induction ks generalizing m with
  | nil => rfl
  | cons k ks ih =>
    rw [nodup_cons] at hks
    rw [foldl_cons, ih hks.2, get?_update]
    by_cases hj : j = k
    · subst hj
      simp [hks.1]
    · simp [hj]

theorem getLast?_eq_some {v : V} (h : m.entries.getLast? = some (k, v)) :
    m.get? k = some v ∧ ∀ e ∈ m.entries, e.1 ≤ k := by
  obtain ⟨l, hl⟩ := getLast?_eq_some_iff.mp h
  refine ⟨get?_eq_some.mpr (by simp [hl]), fun e he => ?_⟩
  have hsorted := m.sorted
  rw [hl] at he hsorted
  rcases mem_append.mp he with he | he
  · exact ((pairwise_append.mp hsorted).2.2 e he _ mem_cons_self).le
  · rw [mem_singleton.mp he]

end SortedMap

variable {K P : Type} [LinearOrder K]

def insertNew {V : Type} (m : SortedMap K V) (k : K) (v : V) : SortedMap K V :=
  if (m.get? k).isNone then m.insert k v else m

theorem insertNew_of_none {V : Type} {m : SortedMap K V} {k : K} {v : V} (h : m.get? k = none) :
    insertNew m k v = m.insert k v := by
  rw [insertNew, h, Option.isNone_none, if_pos rfl]

theorem get?_insertNew {V : Type} {m : SortedMap K V} {k j : K} {v : V} :
    (insertNew m k v).get? j = if j = k then some ((m.get? k).getD v) else m.get? j := by
  obtain hk | ⟨w, hk⟩ := Option.eq_none_or_eq_some (m.get? k)
  · rw [insertNew_of_none hk, SortedMap.get?_insert, hk, Option.getD_none]
  · rw [insertNew, hk, Option.isNone_some, if_neg Bool.false_ne_true, Option.getD_some]
    split
    · rename_i h
      rw [h, hk]
    · rfl

def push (m : SortedMap K (List P)) (k : K) (p : P) : SortedMap K (List P) :=
  m.update [] k (· ++ [p])

structure Groups (m : SortedMap K (List P)) (l : List (K × P)) : Prop where
  get : ∀ k, (m.get? k).getD [] = (l.filter (·.1 = k)).map Prod.snd
  nonempty : ∀ k ps, m.get? k = some ps → ps ≠ []
  total : (m.entries.map (·.2.length)).sum = l.length

namespace Groups

variable {m : SortedMap K (List P)} {l : List (K × P)}

theorem empty : Groups (SortedMap.empty : SortedMap K (List P)) [] :=
  ⟨fun _ => rfl, fun _ _ h => by simp at h, rfl⟩

theorem push (h : Groups m l) (k : K) (p : P) : Groups (push m k p) (l ++ [(k, p)]) := by
  refine ⟨fun j => ?_, fun j ps hps => ?_, ?_⟩
  · rw [Lib.push, SortedMap.get?_update, filter_append, map_append, ← h.get]
    by_cases hj : j = k
    · subst hj
      simp
    · simp [hj, Ne.symm hj]
  · rw [Lib.push, SortedMap.get?_update] at hps
    split at hps
    · rw [← Option.some.inj hps]
      simp
    · exact h.nonempty j ps hps
  · have htotal := h.total
    cases hk : m.get? k with
    | none =>
      rw [SortedMap.entries_of_none hk] at htotal
      simp only [Lib.push, SortedMap.update, hk, SortedMap.insert, map_append, map_cons,
        sum_append, sum_cons, length_append] at htotal ⊢
      simp
      omega
    | some ps =>
      rw [SortedMap.entries_of_get? hk] at htotal
      simp only [Lib.push, SortedMap.update, hk, SortedMap.insert, map_append, map_cons,
        sum_append, sum_cons, length_append] at htotal ⊢
      simp
      omega

theorem getLast?_eq_none (h : Groups m l) : m.entries.getLast? = none ↔ l = [] := by
  rw [getLast?_eq_none_iff]
  constructor
  · intro hm
    rw [← length_eq_zero_iff, ← h.total, hm]
    rfl
  · rintro rfl
    rw [eq_nil_iff_forall_not_mem]
    rintro ⟨k, ps⟩ he
    have hk := SortedMap.get?_eq_some.mpr he
    have hget := h.get k
    rw [hk] at hget
    exact h.nonempty k ps hk (by simpa using hget)

theorem last (h : Groups m l) {k : K} {ps : List P} (hlast : m.entries.getLast? = some (k, ps)) :
    ps = (l.filter (·.1 = k)).map Prod.snd ∧ ps ≠ [] ∧ ∀ kp ∈ l, kp.1 ≤ k := by
  obtain ⟨hk, hmax⟩ := SortedMap.getLast?_eq_some hlast
  have hget := h.get k
  rw [hk, Option.getD_some] at hget
  refine ⟨hget, h.nonempty k ps hk, fun kp hkp => ?_⟩
  have hne : (m.get? kp.1).getD [] ≠ [] := by
    rw [h.get, ne_eq, map_eq_nil_iff, filter_eq_nil_iff]
    exact fun hnone => hnone kp hkp (by simp)
  cases hkey : m.get? kp.1 with
  | none => simp [hkey] at hne
  | some qs => exact hmax (kp.1, qs) (SortedMap.get?_eq_some.mp hkey)

end Groups

end Fastore.Lib
