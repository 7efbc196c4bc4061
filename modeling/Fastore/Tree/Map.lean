import Fastore.Tree.Memory
import Fastore.Tree.KeyOnly
import Fastore.Tree.Iterator

/-!
A tree as a map.

A tree with values stands for a partial map from keys to values
(`BTree.Maps`). Search finds what the map has, insertion adds a key,
deletion takes one away, and a value can be overwritten in place, which
is how an index is kept up to date from outside.

Some users of a tree also hold on to the leaf an entry is in. For them an
insertion reports which entries have a new leaf (`Inserted.spots_iff`), and
a deletion that leaves no leaf short keeps all others in place
(`BTree.Maps.delete_plain`).
-/

namespace Fastore.Tree

open Lib List Function BTree

variable {K V : Type}

/-! ### Reading and writing through a leaf -/

def Leaf.getKeyLoop (l : Leaf K V) (predicate : V → Except Fault Bool) : ℕ → ℕ → Except Fault K
  | 0, _ => .error (.thrown "Value not found in Node!")
  | rest + 1, i =>
    match l.values with
    | some values => do
      let found ← predicate (values i)
      if found then .ok (l.keys i) else l.getKeyLoop predicate rest (i + 1)
    | none => .error .nullValues

/-- `GetKey`: the first key of a leaf whose value satisfies the predicate. -/
def Leaf.getKey (l : Leaf K V) (predicate : V → Except Fault Bool) : Except Fault K :=
  l.getKeyLoop predicate l.count 0

section Model

variable [LinearOrder K]

def BTree.valueAt (t : BTree K V) (path : Path) : Except Fault V := do
  let l ← t.leafAt path.leaf
  match l.values with
  | some values => .ok (values path.leafIndex)
  | none => .error .nullValues

def BTree.setValue (t : BTree K V) (path : Path) (value : V) : Except Fault (BTree K V) := do
  let l ← t.leafAt path.leaf
  let values ← putValue l.values path.leafIndex value
  .ok (t.set path.leaf (.leaf { l with values := values }))

end Model

variable {h : Cells K V} {key : K} {e : K × Option V} {l : Leaf K V} {q : NodeId} {value : V}
  {n : ℕ}

theorem Leaf.getKeyLoop_spec {predicate : V → Except Fault Bool} {P : V → Prop}
    (hlay : l.values.isSome = true)
    (hpred : ∀ k x, (k, some x) ∈ l.entries → ∃ b, predicate x = .ok b ∧ (b = true ↔ P x))
    (hkey : ∀ k x, (k, some x) ∈ l.entries → P x → k = key) (rest i : ℕ)
    (hcount : i + rest = l.count) (hfound : ∃ j x, i ≤ j ∧ j < l.count ∧
      l.entry j = (key, some x) ∧ P x) : l.getKeyLoop predicate rest i = .ok key := by
  obtain ⟨values, hv⟩ := Option.isSome_iff_exists.mp hlay
  have hentry : ∀ j, l.entry j = (l.keys j, some (values j)) := fun j => by simp [Leaf.entry, hv]
  induction rest generalizing i with
  | zero =>
    obtain ⟨j, -, hij, hj, -⟩ := hfound
    omega
  | succ rest ih =>
    have hmem : (l.keys i, some (values i)) ∈ l.entries :=
      mem_window.mpr ⟨i, by omega, by rw [Nat.zero_add, hentry]⟩
    obtain ⟨b, hb, hiff⟩ := hpred _ _ hmem
    simp only [Leaf.getKeyLoop, hv, hb, bind, Except.bind]
    cases b with
    | true =>
      rw [if_pos rfl, hkey _ _ hmem (hiff.mp rfl)]
    | false =>
      rw [if_neg (by simp)]
      refine ih (i + 1) (by omega) ?_
      obtain ⟨j, x, hij, hj, he, hx⟩ := hfound
      refine ⟨j, x, Nat.lt_of_le_of_ne hij fun heq => ?_, hj, he, hx⟩
      rw [← heq, hentry] at he
      obtain ⟨-, rfl⟩ : l.keys i = key ∧ values i = x := by simpa using he
      exact absurd (hiff.mpr hx) (by simp)

theorem Leaf.getKey_spec {predicate : V → Except Fault Bool} {P : V → Prop}
    (hlay : l.values.isSome = true)
    (hpred : ∀ k x, (k, some x) ∈ l.entries → ∃ b, predicate x = .ok b ∧ (b = true ↔ P x))
    (hkey : ∀ k x, (k, some x) ∈ l.entries → P x → k = key) (hmem : (key, some value) ∈ l.entries)
    (hP : P value) : l.getKey predicate = .ok key := by
  obtain ⟨j, hj, he⟩ := mem_window.mp hmem
  refine Leaf.getKeyLoop_spec hlay hpred hkey _ _ (by omega)
    ⟨j, value, Nat.zero_le _, hj, ?_, hP⟩
  rw [← Nat.zero_add j]
  exact he

/-! ### The leaf of an entry -/

theorem mem_entries {p : NodeId} : e ∈ entries h n p ↔ ∃ q, (q, e) ∈ spots h n p := by
  simp [entries]

variable [LinearOrder K]

theorem WF.spot {B : Bounds} {p : NodeId} (hwf : WF h B n p) (hq : (q, e) ∈ spots h n p) :
    ∃ l, h q = some (.leaf l) ∧ e ∈ l.entries ∧ l.values.isSome = !B.keyOnly ∧
      ∀ e ∈ l.entries, (q, e) ∈ spots h n p := by
  induction n generalizing p with
  | zero =>
    obtain ⟨l, hl, hok⟩ := hwf
    rw [spots_leaf hl] at hq ⊢
    obtain ⟨e', he', heq⟩ := mem_map.mp hq
    obtain ⟨rfl, rfl⟩ := Prod.mk.inj heq
    exact ⟨l, hl, he', hok.layout, fun e he => mem_map_of_mem he⟩
  | succ n ih =>
    obtain ⟨b, hb, -, -, hkids, -⟩ := hwf
    rw [spots_branch n hb] at hq ⊢
    obtain ⟨c, hc, hq⟩ := mem_flatMap.mp hq
    obtain ⟨l, hl, he, hlay, hall⟩ := ih (hkids c hc) hq
    exact ⟨l, hl, he, hlay, fun e he => mem_flatMap.mpr ⟨c, hc, hall e he⟩⟩

variable {t : BTree K V}

theorem BTree.WellFormed.value_isSome (ht : t.WellFormed n) (hko : t.keyOnly = false)
    (he : e ∈ t.contents n) : e.2.isSome = true := by
  obtain ⟨q, hq⟩ := mem_entries.mp he
  obtain ⟨l, -, he, hlay, -⟩ := ht.wf.spot hq
  obtain ⟨i, -, rfl⟩ := mem_window.mp he
  simpa [Leaf.entry, bounds, hko] using hlay

theorem BTree.WellFormed.spot_unique {q' : NodeId} {v v' : Option V} (ht : t.WellFormed n)
    (hq : (q, key, v) ∈ spots t.cells n t.root) (hq' : (q', key, v') ∈ spots t.cells n t.root) :
    q = q' := by
  have hnd : ((spots t.cells n t.root).map fun s => s.2.1).Nodup := by
    have := ht.sorted.imp fun h => ne_of_lt h
    rw [contents, entries, map_map] at this
    exact this
  exact (Prod.mk.inj (inj_on_of_nodup_map hnd hq hq' rfl)).1

/-! ### Maps -/

/-- The tree is the map `f`. -/
structure BTree.Maps (t : BTree K V) (n : ℕ) (f : K → Option V) : Prop where
  wellFormed : t.WellFormed n
  sized : t.Sized n
  keyOnly : t.keyOnly = false
  get : ∀ k v, (k, some v) ∈ t.contents n ↔ f k = some v

section Maps

variable {t : BTree K V} {n : ℕ} {f : K → Option V} {key : K} {path : Path}

namespace BTree

theorem Maps.mem_keys (ht : t.Maps n f) (key : K) :
    key ∈ (t.contents n).map Prod.fst ↔ (f key).isSome = true := by
  rw [Option.isSome_iff_exists]
  constructor
  · intro h
    obtain ⟨⟨k, v⟩, he, rfl⟩ := mem_map.mp h
    obtain ⟨x, rfl⟩ : ∃ x, v = some x := Option.isSome_iff_exists.mp
      (ht.wellFormed.value_isSome ht.keyOnly he)
    exact ⟨x, (ht.get k x).mp he⟩
  · rintro ⟨x, hx⟩
    exact mem_map_of_mem (f := Prod.fst) ((ht.get key x).mpr hx)

theorem Maps.new (T : ScalarType K) (rawKeys : NodeId → ℕ → K) (rawValues : NodeId → ℕ → V)
    (rawNodes : NodeId → ℕ → NodeId) :
    (new T false rawKeys rawValues rawNodes).Maps 0 fun _ => none := by
  obtain ⟨hw, hs, hempty⟩ := new_wellFormed T false rawKeys rawValues rawNodes
  exact ⟨hw, hs, rfl, by simp [hempty]⟩

/-- **Search** reports whether the map has the key. -/
theorem Maps.getPath (ht : t.Maps n f) (key : K) :
    ∃ path, t.getPath key = .ok path ∧ Lands t.cells n t.root [] key path ∧
      path.isMatch = (f key).isSome := by
  obtain ⟨path, hpath, hland⟩ := ht.wellFormed.getPath key
  refine ⟨path, hpath, hland, ?_⟩
  rw [Bool.eq_iff_iff, ht.wellFormed.lands_iff hland, ht.mem_keys]

theorem Maps.at_match (ht : t.Maps n f) (hland : Lands t.cells n t.root [] key path)
    (hkey : f key = some value) :
    ∃ l, t.cells path.leaf = some (.leaf l) ∧ path.leafIndex < l.count ∧
      l.entry path.leafIndex = (key, some value) ∧
      (path.leaf, key, some value) ∈ spots t.cells n t.root := by
  have hm : path.isMatch = true := by
    rw [ht.wellFormed.lands_iff hland, ht.mem_keys, hkey]
    rfl
  obtain ⟨l, v, hl, hlt, hentry, hspot⟩ := hland.entry hm
  obtain rfl : v = some value := ht.wellFormed.entry_unique
    (mem_entries.mpr ⟨_, hspot⟩) ((ht.get key value).mpr hkey)
  exact ⟨l, hl, hlt, hentry, hspot⟩

theorem Maps.valueAt (ht : t.Maps n f) (hland : Lands t.cells n t.root [] key path)
    (hkey : f key = some value) : t.valueAt path = .ok value := by
  obtain ⟨l, hl, -, hentry, -⟩ := ht.at_match hland hkey
  cases hv : l.values with
  | none => simp [Leaf.entry, hv] at hentry
  | some values =>
    have hvalue : values path.leafIndex = value := by
      have := congrArg Prod.snd hentry
      simpa [Leaf.entry, hv] using this
    simp only [BTree.valueAt, leafAt, hl, bind, Except.bind, hv, hvalue]

theorem Maps.findNearest (ht : t.Maps n f) (key : K) :
    ∃ it, t.findNearest key = .ok (it, (f key).isSome) ∧
      ∀ value, f key = some value → it.get t = .ok (key, some value) := by
  obtain ⟨path, hpath, hland, hm⟩ := ht.getPath key
  obtain ⟨it, hit, hmatch⟩ := hland.iterator ht.wellFormed
  refine ⟨it, ?_, fun value hkey => ?_⟩
  · simp only [BTree.findNearest, hpath, hit, bind, Except.bind, hm]
  · obtain ⟨l, hl, hlt, hentry, -⟩ := ht.at_match hland hkey
    rw [hmatch (by rw [hm, hkey]; rfl)]
    simp only [Iterator.get, leafAt, hl, bind, Except.bind, hentry]
    rw [if_neg (by omega)]

/-- **Insertion** of a key the map does not have. -/
theorem Maps.insert (ht : t.Maps n f) (hland : Lands t.cells n t.root [] key path)
    (hkey : f key = none) (value : V) :
    ∃ t' n' moved, t.insert path key value = .ok (t', moved) ∧
      t'.Maps n' (update f key (some value)) ∧
      Inserted t n path.leaf key value t' n' moved := by
  have hm : path.isMatch = false := by
    rw [← Bool.not_eq_true, ht.wellFormed.lands_iff hland, ht.mem_keys, hkey]
    simp
  obtain ⟨t', n', moved, hins, hi⟩ := insert_spec ht.wellFormed ht.sized hland hm value
  refine ⟨t', n', moved, hins, ⟨hi.wellFormed, hi.sized, hi.keyOnly.trans ht.keyOnly,
    fun k v => ?_⟩, hi⟩
  obtain ⟨C₁, C₂, hC, hC', -, -⟩ := hi.contents
  have hold := ht.get k v
  rw [hC, mem_append] at hold
  rw [hC', mem_append, mem_cons, update_apply]
  have hstored : t.stored value = some value := by simp [stored, ht.keyOnly]
  rw [hstored]
  by_cases hk : k = key
  · subst hk
    rw [hkey] at hold
    simp only [if_true, Option.some.injEq, Prod.mk.injEq, true_and]
    constructor
    · rintro (h | h | h)
      · exact absurd (hold.mp (Or.inl h)) (by simp)
      · exact h.symm
      · exact absurd (hold.mp (Or.inr h)) (by simp)
    · exact fun h => Or.inr (Or.inl h.symm)
  · rw [if_neg hk, ← hold]
    simp [hk]

theorem Maps.of_filter {t' : BTree K V} {n' : ℕ} (ht : t.Maps n f) (hw : t'.WellFormed n')
    (hs : t'.Sized n') (hko : t'.keyOnly = false)
    (hE : t'.contents n' = (t.contents n).filter fun e => decide (e.1 ≠ key)) :
    t'.Maps n' (update f key none) := by
  refine ⟨hw, hs, hko, fun k v => ?_⟩
  rw [hE, mem_filter, ht.get, update_apply]
  by_cases hk : k = key <;> simp [hk]

/-- **Deletion**, unless it uses the left sibling of a branch. -/
theorem Maps.delete (ht : t.Maps n f) (hpath : t.getPath key = .ok path)
    (hkey : (f key).isSome = true) (hleft : t.deleteUsesLeft key = false) :
    ∃ t' n', t.delete path = .ok t' ∧ t'.Maps n' (update f key none) := by
  obtain ⟨path', l, l', hpath', he⟩ := ht.wellFormed.erased ((ht.mem_keys key).mpr hkey)
  obtain rfl := ok_unique hpath hpath'
  rw [deleteUsesLeft, hpath] at hleft
  obtain ⟨t', n', hdel, hw, hE, -, hko, hs⟩ :=
    (delete_spec ht.wellFormed ht.keyOnly he).1 hleft
  exact ⟨t', n', hdel, ht.of_filter hw (hs ht.sized) hko hE⟩

/-- **Deletion that leaves no leaf short**: all other entries stay where
they are. -/
theorem Maps.delete_plain (ht : t.Maps n f) (hpath : t.getPath key = .ok path)
    (hkey : (f key).isSome = true) (hunder : t.underflows key = false) :
    ∃ t', t.delete path = .ok t' ∧ t'.Maps n (update f key none) ∧
      ∀ q e, (q, e) ∈ spots t'.cells n t'.root ↔ (q, e) ∈ spots t.cells n t.root ∧ e.1 ≠ key := by
  obtain ⟨path', l, l', hpath', he⟩ := ht.wellFormed.erased ((ht.mem_keys key).mpr hkey)
  obtain rfl := ok_unique hpath hpath'
  obtain ⟨h', hdel, hw, A, v, D, hS, hS'⟩ :=
    BTree.delete_plain ht.wellFormed he (he.plain hpath hunder)
  have hE : t.contents n = A.map Prod.snd ++ (key, v) :: D.map Prod.snd := by
    rw [contents, entries, hS]
    simp
  have hfilter := ht.wellFormed.filter_ne hE
  refine ⟨_, hdel, ht.of_filter hw ht.sized ht.keyOnly ?_, fun q e => ?_⟩
  · rw [hfilter, ← map_append, ← hS']
    rfl
  · have hmem : e ∈ A.map Prod.snd ++ D.map Prod.snd → e.1 ≠ key := by
      rw [← hfilter]
      exact fun h => by simpa using (mem_filter.mp h).2
    change (q, e) ∈ spots h' n t.root ↔ _
    rw [hS', hS]
    simp only [mem_append, mem_cons, Prod.mk.injEq]
    constructor
    · rintro (h | h)
      · exact ⟨Or.inl h, hmem (mem_append_left _ (mem_map_of_mem (f := Prod.snd) h))⟩
      · exact ⟨Or.inr (Or.inr h),
          hmem (mem_append_right _ (mem_map_of_mem (f := Prod.snd) h))⟩
    · rintro ⟨h | ⟨-, rfl⟩ | h, hne⟩
      · exact Or.inl h
      · exact absurd rfl hne
      · exact Or.inr h

/-- Values are overwritten in their leaf. -/
theorem WellFormed.set_leaf {bs : List PathNode} {l' : Leaf K V} (ht : t.WellFormed n)
    (hw : Walk t.cells n t.root bs 0 q) (hl : t.cells q = some (.leaf l))
    (hkeys : l'.entries.map Prod.fst = l.entries.map Prod.fst)
    (hlay : l'.values.isSome = !t.keyOnly) :
    (t.set q (.leaf l')).WellFormed n ∧ ∃ C₁ C₂, t.contents n = C₁ ++ l.entries ++ C₂ ∧
      (t.set q (.leaf l')).contents n = C₁ ++ l'.entries ++ C₂ := by
  obtain ⟨l₀, hl₀, hok⟩ := hw.wf_end ht.wf
  obtain rfl := Node.leaf.inj (some_unique hl hl₀)
  have hcount : l'.count = l.count := by
    rw [← l'.length_entries, ← l.length_entries, ← length_map (f := Prod.fst), hkeys,
      length_map]
  have hsorted : l'.entries.Pairwise fun x y => x.1 < y.1 := by
    have := pairwise_map.mpr hok.sorted
    rw [← hkeys] at this
    exact pairwise_map.mp this
  have hcell : (t.set q (.leaf l')).cells q = some (.leaf l') := update_self ..
  have hout : ∀ z ∈ nodes t.cells n t.root, z ∉ nodes t.cells 0 q →
      (t.set q (.leaf l')).cells z = t.cells z := by
    intro z _ hz
    exact update_of_ne (by simpa [nodes] using hz) ..
  obtain ⟨A, D, Na, Nb, -, -, hS, hS', hN, hN'⟩ := hw.replace ht.nodup hout
  have hnodes : nodes (t.set q (.leaf l')).cells n t.root = nodes t.cells n t.root := by
    rw [hN, hN']
    rfl
  have hE : t.contents n = A.map Prod.snd ++ l.entries ++ D.map Prod.snd := by
    rw [contents, entries, hS, map_append, map_append, ← entries_leaf hl]
    rfl
  have hE' : (t.set q (.leaf l')).contents n = A.map Prod.snd ++ l'.entries ++ D.map Prod.snd := by
    rw [← entries_leaf hcell, entries, ← map_append, ← map_append, ← hS']
    rfl
  refine ⟨⟨⟨?_, hnodes ▸ ht.nodup, hnodes ▸ ht.fresh⟩, ht.capacity, ?_⟩, _, _, hE, hE'⟩
  · refine hw.wf (B := t.bounds n) ht.nodup rfl rfl hout (fun _ _ _ => le_refl _) ht.wf
      ⟨l', hcell, ?_, ?_, hsorted, hlay⟩ fun k hk => Or.inl ?_
    · rw [hcount]
      exact hok.min_le
    · rw [hcount]
      exact hok.le_cap
    · rw [keysOf, entries_leaf hcell, hkeys] at hk
      rwa [keysOf, entries_leaf hl]
  · change t.count = _
    rw [ht.count, hE, hE']
    simp only [length_append, Leaf.length_entries, hcount]

/-- **Overwriting** the value of a key the map has. -/
theorem Maps.setValue (ht : t.Maps n f) (hland : Lands t.cells n t.root [] key path)
    (hkey : (f key).isSome = true) (value : V) :
    ∃ t', t.setValue path value = .ok t' ∧ t'.Maps n (update f key (some value)) := by
  have hm : path.isMatch = true := by rw [ht.wellFormed.lands_iff hland, ht.mem_keys, hkey]
  obtain ⟨⟨bs, -, hw, -⟩, l, hl, hfinds⟩ := hland
  rw [hm, Leaf.Finds, if_pos rfl] at hfinds
  obtain ⟨A, v, D, hE, hi⟩ := hfinds
  obtain ⟨l₀, hl₀, hok⟩ := hw.wf_end ht.wellFormed.wf
  obtain rfl := Node.leaf.inj (some_unique hl hl₀)
  obtain ⟨hlt, hentry⟩ := Leaf.entry_of_entries hE
  have hlay : l.values.isSome = !t.keyOnly := hok.layout
  -- storing the key again changes nothing, so this is the store of an entry
  obtain ⟨values, hput, hlay', hent⟩ := Leaf.put_spec hlay path.leafIndex (l.keys path.leafIndex)
    value
  have hE' : (Leaf.mk l.count l.keys values).entries = A ++ (key, some value) :: D := by
    have hfun := hent l.count l.count l.keys
    rw [update_eq_self, ht.keyOnly, if_neg (by simp), hi,
      show l.keys A.length = key from congrArg Prod.fst hentry] at hfun
    rw [Leaf.entries, hfun, window_split _ (show A.length < l.count from hlt),
      update_self, window_update_outside _ _ _ (by omega),
      window_update_outside _ _ _ (by omega)]
    rw [Leaf.entries, window_split _ hlt] at hE
    obtain ⟨h₁, h₂⟩ := append_inj hE (by simp)
    rw [h₁, (List.cons.inj h₂).2]
  have hkeys : (Leaf.mk l.count l.keys values).entries.map Prod.fst = l.entries.map Prod.fst := by
    simp [hE, hE']
  obtain ⟨hwell, C₁, C₂, hC, hC'⟩ := ht.wellFormed.set_leaf hw hl hkeys hlay'
  refine ⟨t.set path.leaf (.leaf ⟨l.count, l.keys, values⟩), ?_, hwell, ht.sized, ht.keyOnly,
    fun k w => ?_⟩
  · rw [if_pos ht.keyOnly] at hput
    simp only [BTree.setValue, leafAt, hl, bind, Except.bind, hput]
  · have hall : t.contents n = (C₁ ++ A) ++ (key, v) :: (D ++ C₂) := by rw [hC, hE]; simp
    have hother : (k, some w) ∈ (C₁ ++ A) ++ (D ++ C₂) ↔ f k = some w ∧ k ≠ key := by
      rw [← ht.wellFormed.filter_ne hall, mem_filter, ht.get]
      simp
    have hall' : (t.set path.leaf (.leaf ⟨l.count, l.keys, values⟩)).contents n =
        (C₁ ++ A) ++ (key, some value) :: (D ++ C₂) := by rw [hC', hE']; simp
    rw [hall', mem_append, mem_cons, update_apply]
    rw [mem_append] at hother
    by_cases hk : k = key
    · subst hk
      simp only [ne_eq, not_true_eq_false, and_false, iff_false, not_or] at hother
      simp [hother.1, hother.2, eq_comm]
    · rw [if_neg hk]
      simp only [ne_eq, hk, not_false_eq_true, and_true] at hother
      rw [← hother]
      simp [hk]

end BTree

/-- **Where the entries are after an insertion**: those of `R` in the node
that is new, the others where they were, and the new entry, unless it is
among `R`, in the leaf of the path. -/
theorem Inserted.spots_iff {t' : BTree K V} {n' : ℕ} {leaf : NodeId} {moved : List (V × NodeId)}
    (h : Inserted t n leaf key value t' n' moved) :
    ∃ R, moved = movedTo t.next R ∧
      (∀ e ∈ R, (leaf, e) ∈ spots t.cells n t.root ∨ e = (key, t.stored value)) ∧
      ∀ q e, (q, e) ∈ spots t'.cells n' t'.root ↔ e ∈ R ∧ q = t.next ∨
        e ∉ R ∧ ((q, e) ∈ spots t.cells n t.root ∨ q = leaf ∧ e = (key, t.stored value)) := by
  obtain ⟨A, E₁, E₂, D, L, R, hS, hLR, hS', hmoved, -, -⟩ := h.change
  have hmid : ∀ e, e ∈ L ∨ e ∈ R ↔ e ∈ E₁ ++ E₂ ∨ e = (key, t.stored value) := by
    intro e
    rw [← mem_append, hLR]
    simp only [mem_append, mem_cons]
    tauto
  -- an entry occurs once, so those of `R` are nowhere else
  have hnd : (A.map Prod.snd ++ (L ++ R) ++ D.map Prod.snd).Nodup := by
    have hs := h.wellFormed.sorted
    rw [BTree.contents, entries, hS'] at hs
    have : (A ++ (L.map (Prod.mk leaf) ++ R.map (Prod.mk t.next)) ++ D).map Prod.snd =
        A.map Prod.snd ++ (L ++ R) ++ D.map Prod.snd := by
      simp [comp_def]
    rw [this] at hs
    exact List.Nodup.of_map Prod.fst (hs.imp fun hlt => ne_of_lt hlt)
  have honly : ∀ e ∈ R, e ∉ A.map Prod.snd ∧ e ∉ L ∧ e ∉ D.map Prod.snd := by
    intro e he
    simp only [nodup_append, mem_append] at hnd
    obtain ⟨⟨-, ⟨-, -, hLR⟩, hA⟩, -, hD⟩ := hnd
    exact ⟨fun h => hA e h e (Or.inr he) rfl, fun h => hLR e h e he rfl,
      fun h => hD e (Or.inr (Or.inr he)) e h rfl⟩
  have hmem : ∀ q e, (q, e) ∈ spots t.cells n t.root ↔
      (q, e) ∈ A ∨ (q = leaf ∧ e ∈ E₁ ++ E₂) ∨ (q, e) ∈ D := by
    intro q e
    rw [hS]
    simp only [mem_append, mem_map, Prod.mk.injEq]
    constructor
    · rintro ((h | ⟨a, ha, rfl, rfl⟩) | h)
      · exact Or.inl h
      · exact Or.inr (Or.inl ⟨rfl, ha⟩)
      · exact Or.inr (Or.inr h)
    · rintro (h | ⟨rfl, ha⟩ | h)
      · exact Or.inl (Or.inl h)
      · exact Or.inl (Or.inr ⟨e, ha, rfl, rfl⟩)
      · exact Or.inr h
  have hmem' : ∀ q e, (q, e) ∈ spots t'.cells n' t'.root ↔
      (q, e) ∈ A ∨ (q = leaf ∧ e ∈ L) ∨ (q = t.next ∧ e ∈ R) ∨ (q, e) ∈ D := by
    intro q e
    rw [hS']
    simp only [mem_append, mem_map, Prod.mk.injEq]
    constructor
    · rintro ((h | ⟨a, ha, rfl, rfl⟩ | ⟨a, ha, rfl, rfl⟩) | h)
      · exact Or.inl h
      · exact Or.inr (Or.inl ⟨rfl, ha⟩)
      · exact Or.inr (Or.inr (Or.inl ⟨rfl, ha⟩))
      · exact Or.inr (Or.inr (Or.inr h))
    · rintro (h | ⟨rfl, ha⟩ | ⟨rfl, ha⟩ | h)
      · exact Or.inl (Or.inl h)
      · exact Or.inl (Or.inr (Or.inl ⟨e, ha, rfl, rfl⟩))
      · exact Or.inl (Or.inr (Or.inr ⟨e, ha, rfl, rfl⟩))
      · exact Or.inr h
  refine ⟨R, hmoved, fun e he => ?_, fun q e => ?_⟩
  · rcases (hmid e).mp (Or.inr he) with h | h
    · exact Or.inl ((hmem leaf e).mpr (Or.inr (Or.inl ⟨rfl, h⟩)))
    · exact Or.inr h
  · rw [hmem']
    by_cases he : e ∈ R
    · obtain ⟨hA, hL, hD⟩ := honly e he
      have hA : (q, e) ∉ A := fun h => hA (mem_map_of_mem (f := Prod.snd) h)
      have hD : (q, e) ∉ D := fun h => hD (mem_map_of_mem (f := Prod.snd) h)
      simp [hA, hL, hD, he]
    · have hmid := hmid e
      rw [hmem]
      simp only [he, or_false] at hmid
      simp only [he, and_false, false_and, false_or, hmid, not_false_eq_true, true_and]
      tauto

/-! ### Runs -/

/-- An operation through the path of its key: a value is stored, over that of the key or with a
new entry, and the entry of a key is deleted if there is one. -/
def BTree.store (t : BTree K V) : Op K V → Except Fault (BTree K V)
  | .insert key value => do
    let path ← t.getPath key
    if path.isMatch then t.setValue path value
    else
      let (t, _) ← t.insert path key value
      .ok t
  | .delete key => do
    let path ← t.getPath key
    if path.isMatch then t.delete path else .ok t

def BTree.sound (t : BTree K V) : Op K V → Bool
  | .insert _ _ => true
  | .delete key => !t.deleteUsesLeft key

def Op.on (f : K → Option V) : Op K V → K → Option V
  | .insert key value => update f key (some value)
  | .delete key => update f key none

theorem BTree.Maps.store (ht : t.Maps n f) (op : Op K V) (hop : t.sound op = true) :
    ∃ t', t.store op = .ok t' ∧ ∃ n', t'.Maps n' (op.on f) := by
  cases op with
  | insert key value =>
    obtain ⟨path, hpath, hland, hm⟩ := ht.getPath key
    cases hkey : f key with
    | none =>
      obtain ⟨t', n', moved, hins, ht', -⟩ := ht.insert hland hkey value
      refine ⟨t', ?_, n', ht'⟩
      simp [BTree.store, hpath, hm, hkey, hins, bind, Except.bind]
    | some old =>
      obtain ⟨t', hset, ht'⟩ := ht.setValue hland (by simp [hkey]) value
      refine ⟨t', ?_, n, ht'⟩
      simp [BTree.store, hpath, hm, hkey, hset, bind, Except.bind]
  | delete key =>
    obtain ⟨path, hpath, hland, hm⟩ := ht.getPath key
    cases hkey : f key with
    | none =>
      refine ⟨t, ?_, n, ?_⟩
      · simp [BTree.store, hpath, hm, hkey, bind, Except.bind]
      · rwa [Op.on, update_eq_self_iff.mpr hkey.symm]
    | some old =>
      obtain ⟨t', n', hdel, ht'⟩ := ht.delete hpath (by simp [hkey]) (by simpa [BTree.sound] using hop)
      refine ⟨t', ?_, n', ht'⟩
      simp [BTree.store, hpath, hm, hkey, hdel, bind, Except.bind]

/-- **The tree is a map**: after any sound operations on an empty tree, every search finds what
they make of the empty map. -/
theorem BTree.run_refines_map (T : ScalarType K) (rawKeys : NodeId → ℕ → K)
    (rawValues : NodeId → ℕ → V) (rawNodes : NodeId → ℕ → NodeId) (ops : List (Op K V))
    (hsound : guarded store sound (new T false rawKeys rawValues rawNodes) ops =
      true) :
    ∃ t n, ops.foldlM store (new T false rawKeys rawValues rawNodes) = .ok t ∧
      t.WellFormed n ∧ ((t.contents n).map Prod.fst).Pairwise (· < ·) ∧
      (∀ k v, (k, some v) ∈ t.contents n ↔ ops.foldl Op.on (fun _ => none) k = some v) ∧
      ∀ key, ∃ it, t.findNearest key =
          .ok (it, (ops.foldl Op.on (fun _ => none) key).isSome) ∧
        ∀ value, ops.foldl Op.on (fun _ => none) key = some value →
          it.get t = .ok (key, some value) := by
  have hstep : ∀ (t : BTree K V) f op, (∃ n, t.Maps n f) → t.sound op = true →
      ∃ t', t.store op = .ok t' ∧ ∃ n', t'.Maps n' (op.on f) := by
    rintro t f op ⟨n, ht⟩ hop
    exact ht.store op hop
  obtain ⟨t, hrun, n, ht⟩ := foldlM_of_guarded hstep ops
    ⟨0, BTree.Maps.new T rawKeys rawValues rawNodes⟩ hsound
  exact ⟨t, n, hrun, ht.wellFormed, ht.wellFormed.sorted, ht.get, ht.findNearest⟩

theorem BTree.run_refines_map_few : ∃ (t : BTree ℕ ℕ) (it it' : Iterator),
    [Op.insert 2 20, .insert 1 10, .insert 2 21, .delete 1].foldlM store
      (.new (ScalarType.ofOrder ℕ) false (fun _ _ => 0) (fun _ _ => 0) fun _ _ => 0) = .ok t ∧
    t.findNearest 2 = .ok (it, true) ∧ it.get t = .ok (2, some 21) ∧
    t.findNearest 1 = .ok (it', false) := by
  obtain ⟨t, -, hrun, -, -, -, hfind⟩ := run_refines_map (ScalarType.ofOrder ℕ)
    (fun _ _ => 0) (fun _ _ => 0) (fun _ _ => 0) [.insert 2 20, .insert 1 10, .insert 2 21, .delete 1]
    (by decide +kernel)
  obtain ⟨it, hit, hget⟩ := hfind 2
  obtain ⟨it', hit', -⟩ := hfind 1
  exact ⟨t, it, it', hrun, hit, hget 21 rfl, hit'⟩

end Maps

/-! ### Small trees -/

theorem le_length_flatMap {α β : Type} {g : α → List β} {k : ℕ} :
    ∀ {l : List α}, (∀ c ∈ l, k ≤ (g c).length) → l.length * k ≤ (l.flatMap g).length := by
  intro l
  induction l with
  | nil => simp
  | cons c l ih =>
    intro h
    have hc := h c (by simp)
    have hl := ih fun c hc => h c (by simp [hc])
    rw [flatMap_cons, length_append, length_cons, Nat.succ_mul]
    omega

theorem WF.pow_le_length {m : ℕ} (hwf : WF h t.inner m q) :
    (t.listCapacity / 2) ^ (m + 1) ≤ (entries h m q).length := by
  induction m generalizing q with
  | zero =>
    obtain ⟨l, hl, hok⟩ := hwf
    rw [entries_leaf hl, l.length_entries, Nat.zero_add, Nat.pow_one]
    exact hok.min_le
  | succ m ih =>
    obtain ⟨b, hb, hmin, -, hkids, -⟩ := hwf
    rw [entries_branch m hb, Nat.pow_succ, Nat.mul_comm]
    calc t.listCapacity / 2 * (t.listCapacity / 2) ^ (m + 1)
        ≤ b.kids.length * (t.listCapacity / 2) ^ (m + 1) :=
          Nat.mul_le_mul_right _ (by rw [b.length_kids]; exact hmin)
      _ ≤ (b.kids.flatMap (entries h m)).length :=
          le_length_flatMap fun c hc => ih (hkids c hc)

theorem BTree.WellFormed.height_le_one (ht : t.WellFormed n) (hs : t.Sized n)
    (hlen : (t.contents n).length < 2048) : n ≤ 1 := by
  by_contra hn
  obtain ⟨k, rfl⟩ : ∃ k, n = k + 2 := ⟨n - 2, by omega⟩
  have hcap : t.listCapacity / 2 = 32 := by
    rcases hs with h | ⟨h, -⟩
    · rw [h]
      rfl
    · omega
  obtain ⟨b, hb, hmin, -, -, -⟩ := id ht.wf
  have hkid : ∀ c ∈ b.kids, 1024 ≤ (entries t.cells (k + 1) c).length := by
    intro c hc
    obtain ⟨i, hi, rfl⟩ := Branch.mem_kids.mp hc
    have hinner := ht.toShaped.inner (.cons hb hi (.nil _ _)) (by simp)
    calc 1024 = 32 ^ 2 := rfl
      _ ≤ 32 ^ (k + 1 + 1) := Nat.pow_le_pow_right (by omega) (by omega)
      _ ≤ (entries t.cells (k + 1) (b.children i)).length := hcap ▸ hinner.pow_le_length
  have htotal := le_length_flatMap hkid
  have htwo : 2 ≤ b.count + 1 := by simpa [bounds] using hmin
  rw [contents, entries_branch (k + 1) hb] at hlen
  rw [b.length_kids] at htotal
  omega

theorem BTree.WellFormed.deleteUsesLeft_small (ht : t.WellFormed n) (hs : t.Sized n)
    (hlen : (t.contents n).length < 2048) (key : K) : t.deleteUsesLeft key = false := by
  obtain ⟨path, hpath, ⟨bs, hbs, hw, -⟩, -⟩ := ht.getPath key
  have hheight := hw.height
  have hone := ht.height_le_one hs hlen
  rw [nil_append] at hbs
  simp only [deleteUsesLeft, hpath, usesLeft, hbs]
  rcases bs with _ | ⟨⟨p, i⟩, _ | ⟨e, bs⟩⟩
  · rfl
  · simp [leftCaseLeaf, leftCase]
  · simp only [length_cons] at hheight
    omega

end Fastore.Tree
