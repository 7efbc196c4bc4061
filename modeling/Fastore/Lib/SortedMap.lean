import Mathlib.Algebra.Order.Ring.Int
import Mathlib.Data.Finset.Card
import Mathlib.Data.List.Sort
import Mathlib.Order.Basic

/-!
Maps as sorted lists of entries, with positions.

A map is a list of entries with ascending keys. It is read in two ways: by
key (`get?`), which is how its operations are specified, and by position,
which is how it is walked. The two meet in `rank`, the number of keys below
a given one: the entry of a key is at its rank, and cutting the list at a
rank separates the keys below it from the others.
-/

namespace Fastore.Lib

open List

@[ext]
structure SortedMap (K V : Type) [LinearOrder K] where
  entries : List (K × V)
  sorted : entries.Pairwise fun a b => a.1 < b.1

namespace SortedMap

variable {K V : Type} [LinearOrder K]

instance [DecidableEq V] : DecidableEq (SortedMap K V) := fun m m' =>
  decidable_of_iff (m.entries = m'.entries) SortedMap.ext_iff.symm

def empty : SortedMap K V := ⟨[], List.Pairwise.nil⟩

def size (m : SortedMap K V) : ℕ := m.entries.length

def keys (m : SortedMap K V) : List K := m.entries.map Prod.fst

def get? (m : SortedMap K V) (k : K) : Option V := (m.entries.find? (·.1 = k)).map Prod.snd

def below (m : SortedMap K V) (k : K) : List (K × V) := m.entries.filter (·.1 < k)

def above (m : SortedMap K V) (k : K) : List (K × V) := m.entries.filter (k < ·.1)

def rank (m : SortedMap K V) (k : K) : ℕ := (m.below k).length

def insert (m : SortedMap K V) (k : K) (v : V) : SortedMap K V where
  entries := m.below k ++ (k, v) :: m.above k
  sorted := by
    refine pairwise_append.mpr ⟨m.sorted.filter _, pairwise_cons.mpr
      ⟨fun e he => ?_, m.sorted.filter _⟩, fun a ha e he => ?_⟩
    · simpa using (mem_filter.mp he).2
    · have hlt : a.1 < k := by simpa using (mem_filter.mp ha).2
      rcases mem_cons.mp he with rfl | he
      · exact hlt
      · exact hlt.trans (by simpa using (mem_filter.mp he).2)

def eraseAt (m : SortedMap K V) (i : ℕ) : SortedMap K V where
  entries := m.entries.eraseIdx i
  sorted := m.sorted.sublist (eraseIdx_sublist ..)

/-! ### Reading by key -/

variable {m m' : SortedMap K V} {k j : K} {v w : V}

theorem keys_nodup (m : SortedMap K V) : m.keys.Nodup := by
  rw [keys, List.Nodup, pairwise_map]
  exact m.sorted.imp fun h => ne_of_lt h

theorem keys_sorted (m : SortedMap K V) : m.keys.Pairwise (· < ·) := by
  rw [keys, pairwise_map]
  exact m.sorted

theorem entry_unique (h : (k, v) ∈ m.entries) (h' : (k, w) ∈ m.entries) : v = w :=
  congrArg Prod.snd (inj_on_of_nodup_map m.keys_nodup h h' rfl)

theorem get?_eq_some : m.get? k = some v ↔ (k, v) ∈ m.entries := by
  constructor
  · intro h
    obtain ⟨e, he, rfl⟩ := Option.map_eq_some_iff.mp h
    have hk : e.1 = k := by simpa using find?_some he
    rw [← hk]
    exact mem_of_find?_eq_some he
  · intro h
    cases hf : m.entries.find? (·.1 = k) with
    | none => exact absurd h (by simpa using fun hm => find?_eq_none.mp hf _ hm (by simp))
    | some e =>
      have hk : e.1 = k := by simpa using find?_some hf
      have he : (k, e.2) ∈ m.entries := hk ▸ mem_of_find?_eq_some hf
      rw [get?, hf, Option.map_some, entry_unique h he]

theorem get?_eq_none : m.get? k = none ↔ k ∉ m.keys := by
  rw [Option.eq_none_iff_forall_ne_some, keys, mem_map]
  constructor
  · rintro h ⟨⟨k', v⟩, he, rfl⟩
    exact h v (get?_eq_some.mpr he)
  · intro h v hv
    exact h ⟨_, get?_eq_some.mp hv, rfl⟩

theorem mem_keys : k ∈ m.keys ↔ ∃ v, m.get? k = some v := by
  rw [← Option.ne_none_iff_exists', ne_eq, get?_eq_none, not_not]

theorem ext_get? (h : ∀ k, m.get? k = m'.get? k) : m = m' := by
  have hmem : ∀ e, e ∈ m.entries ↔ e ∈ m'.entries := by
    rintro ⟨k, v⟩
    rw [← get?_eq_some, ← get?_eq_some, h]
  have hnd : ∀ m : SortedMap K V, m.entries.Nodup := fun m => m.keys_nodup.of_map
  have hperm := (perm_ext_iff_of_nodup (hnd m) (hnd m')).mpr hmem
  exact SortedMap.ext (hperm.eq_of_pairwise
    (fun a b _ _ hab hba => absurd hab (lt_asymm hba)) m.sorted m'.sorted)

@[simp] theorem get?_empty : (empty : SortedMap K V).get? k = none := rfl

/-! ### Cutting at a key -/

variable {p : K × V → Bool}

theorem filter_append_filter_not (m : SortedMap K V) (hp : ∀ a b : K × V, a.1 < b.1 → p b → p a) :
    m.entries.filter p ++ m.entries.filter (fun e => !p e) = m.entries := by
  obtain ⟨l, hl⟩ := m
  induction l with
  | nil => rfl
  | cons a l ih =>
    obtain ⟨ha, hl⟩ := pairwise_cons.mp hl
    simp only at ih ⊢
    by_cases h : p a
    · rw [filter_cons_of_pos h, filter_cons_of_neg (by simpa using h),
        cons_append, ih hl]
    · have hnone : ∀ e ∈ l, ¬ p e := fun e he hpe => h (hp a e (ha e he) hpe)
      rw [filter_cons_of_neg h, filter_cons_of_pos (by simpa using h),
        filter_eq_nil_iff.mpr hnone, filter_eq_self.mpr (by simpa using hnone),
        nil_append]

theorem filter_eq_take (m : SortedMap K V) (hp : ∀ a b : K × V, a.1 < b.1 → p b → p a) :
    m.entries.filter p = m.entries.take (m.entries.countP p) := by
  have h := congrArg (List.take (m.entries.filter p).length) (m.filter_append_filter_not hp)
  rwa [take_left, ← countP_eq_length_filter] at h

theorem filter_not_eq_drop (m : SortedMap K V) (hp : ∀ a b : K × V, a.1 < b.1 → p b → p a) :
    m.entries.filter (fun e => !p e) = m.entries.drop (m.entries.countP p) := by
  have h := congrArg (List.drop (m.entries.filter p).length) (m.filter_append_filter_not hp)
  rwa [drop_left, ← countP_eq_length_filter] at h

theorem below_append (m : SortedMap K V) (k : K) :
    m.below k ++ m.entries.filter (k ≤ ·.1) = m.entries := by
  have h := m.filter_append_filter_not (p := fun e => e.1 < k)
    fun a b hab hb => by simpa using hab.trans (by simpa using hb)
  simpa only [below, ← decide_not, not_lt] using h

theorem filter_le_of_get? (h : m.get? k = some v) :
    m.entries.filter (k ≤ ·.1) = (k, v) :: m.above k := by
  have hmem : (k, v) ∈ m.entries.filter (k ≤ ·.1) :=
    mem_filter.mpr ⟨get?_eq_some.mp h, by simp⟩
  have hs : (m.entries.filter (k ≤ ·.1)).Pairwise fun a b => a.1 < b.1 := m.sorted.filter _
  have habove : m.above k = (m.entries.filter (k ≤ ·.1)).filter (k < ·.1) := by
    rw [filter_filter]
    exact filter_congr fun e _ => by simpa using le_of_lt
  rw [habove]
  -- nothing that is not below the key comes before its entry
  cases hF : m.entries.filter (k ≤ ·.1) with
  | nil => simp [hF] at hmem
  | cons e D =>
    rw [hF] at hmem hs
    obtain ⟨hD, -⟩ := pairwise_cons.mp hs
    have hle : k ≤ e.1 := by
      simpa using (mem_filter.mp (hF ▸ mem_cons_self .. :
        e ∈ m.entries.filter (k ≤ ·.1))).2
    have he : e = (k, v) := by
      rcases mem_cons.mp hmem with h | h
      · exact h.symm
      · exact absurd (hD _ h) (not_lt.mpr hle)
    subst he
    rw [filter_cons_of_neg (by simp), filter_eq_self.mpr fun e he => by
      simpa using hD e he]

theorem filter_le_of_none (h : m.get? k = none) : m.entries.filter (k ≤ ·.1) = m.above k := by
  refine filter_congr fun e he => ?_
  have hne : k ≠ e.1 := by
    rintro rfl
    exact get?_eq_none.mp h (mem_map_of_mem he)
  simp [le_iff_lt_or_eq, hne]

theorem entries_of_get? (h : m.get? k = some v) :
    m.entries = m.below k ++ (k, v) :: m.above k := by
  rw [← filter_le_of_get? h, below_append]

theorem entries_of_none (h : m.get? k = none) : m.entries = m.below k ++ m.above k := by
  rw [← filter_le_of_none h, below_append]

theorem filter_key (m : SortedMap K V) (k : K) :
    m.entries.filter (fun e => e.1 = k) = (m.get? k).toList.map (k, ·) := by
  cases h : m.get? k with
  | none =>
    rw [get?_eq_none, keys, mem_map] at h
    refine filter_eq_nil_iff.mpr fun e he hk => h ⟨e, he, by simpa using hk⟩
  | some v =>
    have hbelow : (m.below k).filter (fun e => e.1 = k) = [] :=
      filter_eq_nil_iff.mpr fun e he => by
        simpa using (show e.1 < k by simpa using (mem_filter.mp he).2).ne
    have habove : (m.above k).filter (fun e => e.1 = k) = [] :=
      filter_eq_nil_iff.mpr fun e he => by
        simpa using (show k < e.1 by simpa using (mem_filter.mp he).2).ne'
    rw [entries_of_get? h, filter_append, hbelow, nil_append,
      filter_cons_of_pos (by simp), habove]
    rfl

theorem getElem?_rank (h : m.get? k = some v) : m.entries[m.rank k]? = some (k, v) := by
  rw [entries_of_get? h, rank, getElem?_append_right (le_refl _), Nat.sub_self]
  rfl

theorem eq_rank_of_getElem? {i : ℕ} (h : m.entries[i]? = some (k, v)) : i = m.rank k := by
  have hk := getElem?_rank (get?_eq_some.mpr (mem_of_getElem? h))
  obtain ⟨hi, hget⟩ := List.getElem?_eq_some_iff.mp h
  obtain ⟨hr, hget'⟩ := List.getElem?_eq_some_iff.mp hk
  have hnodup : m.entries.Nodup := m.keys_nodup.of_map
  exact (hnodup.getElem_inj_iff).mp (hget.trans hget'.symm)

theorem rank_lt (h : m.get? k = some v) : m.rank k < m.size :=
  (List.getElem?_eq_some_iff.mp (getElem?_rank h)).1

theorem countP_lt (m : SortedMap K V) (k : K) : m.entries.countP (·.1 < k) = m.rank k := by
  rw [countP_eq_length_filter, rank, below]

theorem countP_le (m : SortedMap K V) (k : K) :
    m.entries.countP (·.1 ≤ k) = m.rank k + if (m.get? k).isSome then 1 else 0 := by
  have hbelow : ∀ e ∈ m.below k, e.1 ≤ k := fun e he => by
    simpa using (show e.1 < k by simpa using (mem_filter.mp he).2).le
  have habove : ∀ e ∈ m.above k, ¬ e.1 ≤ k := fun e he => by
    simpa using (mem_filter.mp he).2
  cases h : m.get? k with
  | none =>
    rw [entries_of_none h, countP_append, countP_eq_length.mpr (by simpa using hbelow),
      countP_eq_zero.mpr (by simpa using habove)]
    rfl
  | some v =>
    rw [entries_of_get? h, countP_append, countP_cons,
      countP_eq_length.mpr (by simpa using hbelow),
      countP_eq_zero.mpr (by simpa using habove)]
    simp [rank]

theorem filter_and_eq (m : SortedMap K V) {p q : K × V → Bool}
    (hp : ∀ a b : K × V, a.1 < b.1 → p b → p a) (hq : ∀ a b : K × V, a.1 < b.1 → q b → q a) :
    m.entries.filter (fun e => !p e && q e) =
      (m.entries.take (m.entries.countP q)).drop (m.entries.countP p) := by
  have hsplit : m.entries.filter (fun e => !p e && q e) =
      (m.entries.drop (m.entries.countP p)).filter q := by
    rw [← m.filter_not_eq_drop hp, filter_filter]
    simp only [Bool.and_comm]
  have hall : ∀ e ∈ m.entries.take (m.entries.countP q), q e := fun e he => by
    rw [← m.filter_eq_take hq] at he
    exact (mem_filter.mp he).2
  have hnone : ∀ e ∈ m.entries.drop (m.entries.countP q), ¬ q e := fun e he => by
    rw [← m.filter_not_eq_drop hq] at he
    simpa using (mem_filter.mp he).2
  rw [hsplit]
  generalize m.entries.countP p = i
  nth_rewrite 1 [← take_append_drop (m.entries.countP q) m.entries]
  rw [drop_append, filter_append,
    filter_eq_self.mpr fun e he => hall e (mem_of_mem_drop he),
    filter_eq_nil_iff.mpr fun e he => hnone e (mem_of_mem_drop he), append_nil]

/-! ### The operations by key -/

theorem mem_insert {e : K × V} :
    e ∈ (m.insert k v).entries ↔ e = (k, v) ∨ e ∈ m.entries ∧ e.1 ≠ k := by
  simp only [insert, below, above, mem_append, mem_cons, mem_filter,
    decide_eq_true_eq, ne_iff_lt_or_gt]
  tauto

@[simp] theorem get?_insert :
    (m.insert k v).get? j = if j = k then some v else m.get? j := by
  ext w
  rw [get?_eq_some, mem_insert]
  split
  · subst j
    simp [eq_comm]
  · rename_i hj
    simp [hj, get?_eq_some]

theorem entries_eraseAt_rank (h : m.get? k = some v) :
    (m.eraseAt (m.rank k)).entries = m.below k ++ m.above k := by
  change m.entries.eraseIdx (m.below k).length = _
  rw [entries_of_get? h, eraseIdx_append_of_length_le (le_refl _), Nat.sub_self]
  rfl

theorem get?_eraseAt_rank (h : m.get? k = some v) :
    (m.eraseAt (m.rank k)).get? j = if j = k then none else m.get? j := by
  ext w
  rw [get?_eq_some, entries_eraseAt_rank h]
  simp only [below, above, mem_append, mem_filter, decide_eq_true_eq]
  split
  · subst j
    simp
  · rename_i hj
    rw [get?_eq_some]
    have := ne_iff_lt_or_gt.mp hj
    tauto

theorem size_insert (h : m.get? k = none) : (m.insert k v).size = m.size + 1 := by
  rw [size, size, entries_of_none h]
  simp [insert]
  omega

theorem below_insert : (m.insert k v).below k = m.below k := by
  have hbelow : ∀ e ∈ m.below k, decide (e.1 < k) = true := fun e he => (mem_filter.mp he).2
  have habove : ∀ e ∈ m.above k, ¬ decide (e.1 < k) = true := fun e he => by
    simpa using (show k < e.1 by simpa using (mem_filter.mp he).2).le
  change List.filter _ (m.below k ++ (k, v) :: m.above k) = _
  rw [filter_append, filter_cons_of_neg (by simp), filter_eq_self.mpr hbelow,
    filter_eq_nil_iff.mpr habove, append_nil]

theorem rank_insert : (m.insert k v).rank k = m.rank k := by rw [rank, below_insert, rank]

theorem size_insert_of_some (h : m.get? k = some w) : (m.insert k v).size = m.size := by
  rw [size, size, entries_of_get? h]
  simp [insert]

theorem size_eq_zero : m.size = 0 ↔ ∀ k, m.get? k = none := by
  rw [size, length_eq_zero_iff]
  constructor
  · intro h k
    rw [get?, h]
    rfl
  · intro h
    rw [eq_nil_iff_forall_not_mem]
    rintro ⟨k, v⟩ he
    rw [← get?_eq_some, h] at he
    exact absurd he (by simp)

theorem size_eraseAt_rank (h : m.get? k = some v) :
    (m.eraseAt (m.rank k)).size + 1 = m.size := by
  rw [size, size, entries_eraseAt_rank h, entries_of_get? h]
  simp
  omega

end SortedMap

end Fastore.Lib
