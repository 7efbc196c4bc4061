import Fastore.Tree.Shape

/-!
Well-formed trees, and what a search in one finds.

`BTree.WellFormed t n` is the invariant of the tree object at height `n`:
its nodes are a well-formed subtree under the limits of the object, no
address is used twice, and the counter is the number of entries.
`getPath` then always reaches a leaf (`BTree.WellFormed.getPath`), along
branches whose separators enclose the key, and what it reports about that
leaf is true of the whole tree.
-/

namespace Fastore.Tree

open Lib List

variable {K V : Type} [LinearOrder K]

/-- The limits of a tree of height `n`: an inner node is at least half
full, a root leaf may be empty and a root branch has two children. -/
def BTree.bounds (t : BTree K V) (n : ℕ) : Bounds where
  cap := t.listCapacity
  keyOnly := t.keyOnly
  min z := if z = t.root then (if n = 0 then 0 else 2) else t.listCapacity / 2

def BTree.contents (t : BTree K V) (n : ℕ) : List (K × Option V) := entries t.cells n t.root

/-- The nodes of the tree object make a well-formed B-tree of height `n`. -/
structure BTree.Shaped (t : BTree K V) (n : ℕ) : Prop where
  wf : WF t.cells (t.bounds n) n t.root
  /-- The nodes are all different. -/
  nodup : (nodes t.cells n t.root).Nodup
  /-- Their addresses have been handed out. -/
  fresh : ∀ z ∈ nodes t.cells n t.root, z < t.next

/-- The tree object is a well-formed B-tree of height `n`. -/
structure BTree.WellFormed (t : BTree K V) (n : ℕ) : Prop extends t.Shaped n where
  /-- Only a tree that is a single leaf may have a smaller capacity. -/
  capacity : n ≠ 0 → 4 ≤ t.listCapacity
  /-- `_count` is the number of entries. -/
  count : t.count = (t.contents n).length

/-- Capacities: the root leaf doubles from one to the full size, and only a
tree of full-sized nodes has branches. -/
def BTree.Sized (t : BTree K V) (n : ℕ) : Prop :=
  t.listCapacity = defaultListCapacity ∨ n = 0 ∧ t.listCapacity ∈ [1, 2, 4, 8, 16, 32]

def BTree.inner (t : BTree K V) : Bounds where
  cap := t.listCapacity
  keyOnly := t.keyOnly
  min _ := t.listCapacity / 2

variable {t : BTree K V} {B : Bounds} {b : Branch K} {h : Cells K V} {key : K} {bs : List PathNode}
  {p q : NodeId} {m n : ℕ}

theorem BTree.bounds_min_pos (hcap : n ≠ 0 → 4 ≤ t.listCapacity) :
    ∀ z ∈ nodes t.cells n t.root, z ≠ t.root → 1 ≤ (t.bounds n).min z := by
  intro z hz hne
  have hn : n ≠ 0 := by
    rintro rfl
    simp only [nodes, mem_singleton] at hz
    exact hne hz
  have := hcap hn
  simp only [BTree.bounds, if_neg hne]
  omega

theorem BTree.WellFormed.min_pos (ht : t.WellFormed n) :
    ∀ z ∈ nodes t.cells n t.root, z ≠ t.root → 1 ≤ (t.bounds n).min z :=
  BTree.bounds_min_pos ht.capacity

theorem BTree.Shaped.inner (ht : t.Shaped n) (w : Walk t.cells n t.root bs m q) (hbs : bs ≠ []) :
    WF t.cells t.inner m q := by
  refine (w.wf_end ht.wf).congr rfl rfl (fun _ _ => rfl) fun z hz => ?_
  have hne : z ≠ t.root := fun h => w.top_not_mem ht.nodup hbs (h ▸ hz)
  simp [BTree.bounds, BTree.inner, hne]

theorem WF.of_inner (hwf : WF h t.inner m q) (hcap : 4 ≤ t.listCapacity) :
    WF h (t.bounds n) m q := by
  refine hwf.congr rfl rfl (fun _ _ => rfl) fun z _ => ?_
  simp only [BTree.bounds, BTree.inner]
  split
  · split <;> omega
  · exact le_refl _

theorem BTree.inner_min_pos (hcap : 4 ≤ t.listCapacity) (z : NodeId) : 1 ≤ t.inner.min z := by
  simp only [BTree.inner]
  omega

theorem BTree.WellFormed.sorted (ht : t.WellFormed n) :
    ((t.contents n).map Prod.fst).Pairwise (· < ·) :=
  ht.wf.sorted ht.nodup ht.min_pos

theorem BTree.WellFormed.entry_unique (ht : t.WellFormed n) {v w : Option V}
    (hv : (key, v) ∈ t.contents n) (hw : (key, w) ∈ t.contents n) : v = w := by
  have hnd : ((t.contents n).map Prod.fst).Nodup := ht.sorted.imp fun h => ne_of_lt h
  exact (Prod.mk.inj (inj_on_of_nodup_map hnd hv hw rfl)).2

omit [LinearOrder K] in
theorem length_nodes_le {next : NodeId} (hnd : (nodes h n p).Nodup)
    (hfresh : ∀ z ∈ nodes h n p, z < next) : (nodes h n p).length ≤ next := by
  have hsub : (nodes h n p).toFinset ⊆ Finset.range next := fun z hz =>
    Finset.mem_range.mpr (hfresh z (mem_toFinset.mp hz))
  have hcard := Finset.card_le_card hsub
  rwa [toFinset_card_of_nodup hnd, Finset.card_range] at hcard

theorem height_lt_next_of {next : NodeId} (hwf : WF h B n p) (hnd : (nodes h n p).Nodup)
    (hfresh : ∀ z ∈ nodes h n p, z < next) :
    n < next :=
  lt_of_lt_of_le (height_lt_length_nodes hwf) (length_nodes_le hnd hfresh)

theorem BTree.Shaped.height_lt_next (ht : t.Shaped n) : n < t.next :=
  height_lt_next_of ht.wf ht.nodup ht.fresh

/-! ### Inside one node -/

/-- The child a key belongs to. -/
theorem Branch.indexOf_spec (t : BTree K V) (b : Branch K) (key : K)
    (hs : b.seps.Pairwise (· < ·)) :
    b.indexOf t key ≤ b.count ∧ (∀ u ∈ window b.keys 0 (b.indexOf t key), u ≤ key) ∧
      ∀ u ∈ window b.keys (b.indexOf t key) (b.count - b.indexOf t key), key < u := by
  -- whatever the code of the result, it names a cut of the separators
  suffices h : ∃ S T, b.seps = S ++ T ∧ b.indexOf t key = S.length ∧ (∀ u ∈ S, u ≤ key) ∧
      ∀ u ∈ T, key < u by
    obtain ⟨S, T, hST, hi, hS, hT⟩ := h
    have hle : S.length ≤ b.count := by
      rw [← b.length_seps, hST, length_append]
      omega
    rw [b.seps_cut hle] at hST
    obtain ⟨h₁, h₂⟩ := append_inj hST (by simp)
    rw [hi, h₁, h₂]
    exact ⟨hle, hS, hT⟩
  rcases t.keyType.indexOf_cases key hs with ⟨A, C, hAC, hr⟩ | ⟨A, C, hAC, hA, hC, hr⟩
  · rw [Branch.seps, hAC, pairwise_append] at hs
    refine ⟨A ++ [key], C, by rw [Branch.seps, hAC]; simp, ?_, ?_, ?_⟩
    · simp only [Branch.indexOf, hr, length_append, length_singleton]
      rw [if_pos (by omega)]
      omega
    · intro u hu
      rcases mem_append.mp hu with hu | hu
      · exact le_of_lt (hs.2.2 u hu key (by simp))
      · exact le_of_eq (by simpa using hu)
    · exact (pairwise_cons.mp hs.2.1).1
  · refine ⟨A, C, hAC, ?_, fun u hu => le_of_lt (hA u hu), hC⟩
    simp only [Branch.indexOf, hr]
    rw [if_neg (by omega)]
    omega

/-- The entry a leaf reports, or the gap the key belongs into. -/
def Leaf.Finds (l : Leaf K V) (key : K) (index : ℕ) (isMatch : Bool) : Prop :=
  if isMatch then ∃ A v B, l.entries = A ++ (key, v) :: B ∧ index = A.length
  else ∃ A B, l.entries = A ++ B ∧ index = A.length ∧ (∀ e ∈ A, e.1 < key) ∧
    ∀ e ∈ B, key < e.1

/-- The place a key has in a leaf. -/
theorem Leaf.indexOf_spec (t : BTree K V) (l : Leaf K V) (key : K)
    (hs : l.entries.Pairwise fun x y => x.1 < y.1) :
    l.Finds key (l.indexOf t key).1 (l.indexOf t key).2 := by
  have hkeys : (window l.keys 0 l.count).Pairwise (· < ·) := by
    rw [← l.map_fst_entries]
    exact pairwise_map.mpr hs
  rcases t.keyType.indexOf_cases key hkeys with ⟨A, C, hAC, hr⟩ | ⟨A, C, hAC, hA, hC, hr⟩
  · rw [← l.map_fst_entries] at hAC
    obtain ⟨A', D, hE, rfl, hD⟩ := map_eq_append_iff.mp hAC
    obtain ⟨⟨k, v⟩, C', rfl, hk, rfl⟩ := map_eq_cons_iff.mp hD
    obtain rfl : k = key := hk
    rw [length_map] at hr
    have hi : l.indexOf t k = (A'.length, true) := by
      simp [Leaf.indexOf, hr]
    rw [hi, Leaf.Finds, if_pos rfl]
    exact ⟨A', v, C', hE, rfl⟩
  · rw [← l.map_fst_entries] at hAC
    obtain ⟨A', C', hE, rfl, rfl⟩ := map_eq_append_iff.mp hAC
    rw [length_map] at hr
    have hi : l.indexOf t key = (A'.length, false) := by
      simp only [Leaf.indexOf, hr]
      rw [if_neg (by omega)]
      congr 1
      omega
    rw [hi, Leaf.Finds, if_neg (by simp)]
    refine ⟨A', C', hE, rfl, fun e he => ?_, fun e he => ?_⟩
    · exact hA _ (mem_map_of_mem he)
    · exact hC _ (mem_map_of_mem he)

/-! ### Down the tree -/

theorem WF.kids_ne_nil (hp : h p = some (.branch b)) (hwf : WF h B (n + 1) p)
    (hnd : (nodes h (n + 1) p).Nodup) (hpos : ∀ z ∈ nodes h (n + 1) p, z ≠ p → 1 ≤ B.min z) :
    (∀ c ∈ b.kids, ∀ z ∈ nodes h n c, 1 ≤ B.min z) ∧
      ∀ g ∈ b.kids.map (keysOf h n), g ≠ [] := by
  obtain ⟨b', hb', -, -, hkids, -⟩ := hwf
  obtain rfl : b = b' := by rw [hp] at hb'; simpa using hb'
  have hkpos : ∀ c ∈ b.kids, ∀ z ∈ nodes h n c, 1 ≤ B.min z := by
    intro c hc z hz
    refine hpos z (kid_nodes_subset hp hc hz) fun heq => ?_
    rw [nodes_branch n hp, nodup_cons] at hnd
    exact hnd.1 (heq ▸ mem_flatMap.mpr ⟨c, hc, hz⟩)
  refine ⟨hkpos, fun g hg => ?_⟩
  obtain ⟨c, hc, rfl⟩ := mem_map.mp hg
  simpa [keysOf] using (hkids c hc).entries_ne_nil (hkpos c hc)

theorem WF.kid {i : ℕ} (hp : h p = some (.branch b)) (hi : i ≤ b.count) (hwf : WF h B (n + 1) p) :
    WF h B n (b.children i) := by
  obtain ⟨b', hb', -, -, hkids, -⟩ := hwf
  obtain rfl : b = b' := by rw [hp] at hb'; simpa using hb'
  exact hkids _ (Branch.mem_kids.mpr ⟨i, hi, rfl⟩)

theorem WF.separated (hp : h p = some (.branch b)) (hwf : WF h B (n + 1) p) :
    Separated b.seps (b.kids.map (keysOf h n)) := by
  obtain ⟨b', hb', -, -, -, hsep⟩ := hwf
  obtain rfl : b = b' := by rw [hp] at hb'; simpa using hb'
  exact hsep

theorem WF.seps_sorted (hp : h p = some (.branch b)) (hwf : WF h B (n + 1) p)
    (hnd : (nodes h (n + 1) p).Nodup) (hpos : ∀ z ∈ nodes h (n + 1) p, z ≠ p → 1 ≤ B.min z) :
    b.seps.Pairwise (· < ·) :=
  separated_sorted (hwf.separated hp) (hwf.kids_ne_nil hp hnd hpos).2

/-- Where a search that has passed `before` ends. -/
structure Lands (h : Cells K V) (n : ℕ) (p : NodeId) (before : List PathNode) (key : K)
    (path : Path) : Prop where
  walk : ∃ bs, path.branches = before ++ bs ∧ Walk h n p bs 0 path.leaf ∧ Fits h bs key
  finds : ∃ l, h path.leaf = some (.leaf l) ∧ l.Finds key path.leafIndex path.isMatch

/-- A search lands in the one leaf where the key can be. -/
theorem Node.getPath_lands (t : BTree K V) (key : K) :
    ∀ {n fuel : ℕ} {p : NodeId} (before : List PathNode), n < fuel → WF t.cells B n p →
      (nodes t.cells n p).Nodup → (∀ z ∈ nodes t.cells n p, z ≠ p → 1 ≤ B.min z) →
      ∃ path, Node.getPath t key fuel p before = .ok path ∧ Lands t.cells n p before key path := by
  intro n
  induction n with
  | zero =>
    intro fuel p before hfuel hwf _ _
    obtain ⟨fuel, rfl⟩ : ∃ f, fuel = f + 1 := ⟨fuel - 1, by omega⟩
    obtain ⟨l, hl, hok⟩ := hwf
    refine ⟨⟨before, p, (l.indexOf t key).1, (l.indexOf t key).2⟩, ?_, ?_, ?_⟩
    · simp only [Node.getPath, hl]
    · exact ⟨[], by simp, .nil _ _, fun x hx => by simp at hx⟩
    · exact ⟨l, hl, l.indexOf_spec t key hok.sorted⟩
  | succ n ih =>
    intro fuel p before hfuel hwf hnd hpos
    obtain ⟨fuel, rfl⟩ : ∃ f, fuel = f + 1 := ⟨fuel - 1, by omega⟩
    obtain ⟨b, hb, -⟩ := id hwf
    obtain ⟨hi, hlo, hhi⟩ := b.indexOf_spec t key (hwf.seps_sorted hb hnd hpos)
    have hkid := Branch.mem_kids.mpr ⟨_, hi, rfl⟩
    obtain ⟨hcnd, -⟩ := nodes_around hb hi hnd
    have hfuel : n < fuel := by omega
    obtain ⟨path, hpath, ⟨bs, hbs, hw, hfit⟩, hfinds⟩ :=
      ih (before ++ [⟨p, b.indexOf t key⟩]) hfuel (hwf.kid hb hi) hcnd
        fun z hz _ => (hwf.kids_ne_nil hb hnd hpos).1 _ hkid z hz
    refine ⟨path, ?_, ⟨⟨p, b.indexOf t key⟩ :: bs, by simp [hbs], .cons hb hi hw, ?_⟩, hfinds⟩
    · simp only [Node.getPath, hb]
      exact hpath
    · intro x hx b' hb'
      rcases mem_cons.mp hx with rfl | hx
      · obtain rfl : b = b' := by
          have : some (Node.branch (V := V) b) = some (.branch b') := hb.symm.trans hb'
          simpa using this
        exact ⟨hlo, hhi⟩
      · exact hfit x hx b' hb'

/-- **Search**: `getPath` reaches a leaf of a well-formed tree, along
separators that enclose the key. -/
theorem BTree.WellFormed.getPath (ht : t.WellFormed n) (key : K) :
    ∃ path, t.getPath key = .ok path ∧ Lands t.cells n t.root [] key path :=
  Node.getPath_lands t key [] ht.toShaped.height_lt_next ht.wf ht.nodup ht.min_pos

/-- The keys on the two sides of a path. -/
theorem Walk.sides (w : Walk h n p bs m q) (hwf : WF h B n p) (hnd : (nodes h n p).Nodup)
    (hpos : ∀ z ∈ nodes h n p, z ≠ p → 1 ≤ B.min z) (hfit : Fits h bs key) :
    (∀ x ∈ before h n bs, x.2.1 < key) ∧ ∀ x ∈ after h n bs, key < x.2.1 := by
  induction w with
  | nil => simp [before_nil, after_nil]
  | @cons n m i p q b bs hp hi w ih =>
    obtain ⟨hcnd, -⟩ := nodes_around hp hi hnd
    obtain ⟨hkpos, hne⟩ := hwf.kids_ne_nil hp hnd hpos
    obtain ⟨hA, hD⟩ := ih (hwf.kid hp hi) hcnd
      (fun z hz _ => hkpos _ (Branch.mem_kids.mpr ⟨i, hi, rfl⟩) z hz)
      fun x hx => hfit x (mem_cons_of_mem _ hx)
    obtain ⟨hlo, hhi⟩ := hfit ⟨p, i⟩ (by simp) b hp
    have hsep := hwf.separated hp
    rw [b.kids_split hi, b.seps_cut hi, map_append, map_cons] at hsep
    rw [b.kids_split hi, map_append, map_cons] at hne
    obtain ⟨hs₁, hs₂⟩ := (separated_join (by simp)).mp hsep
    rw [before_cons hp hi, after_cons hp hi]
    refine ⟨fun x hx => ?_, fun x hx => ?_⟩
    · rcases mem_append.mp hx with hx | hx
      · obtain ⟨c, hc, hx⟩ := mem_flatMap.mp hx
        exact separated_init_lt hs₁ (fun g hg => hne g (mem_append_left _ hg)) hlo _
          (mem_map_of_mem hc) _ (mem_map_of_mem (mem_map_of_mem hx))
      · exact hA x hx
    · rcases mem_append.mp hx with hx | hx
      · exact hD x hx
      · obtain ⟨c, hc, hx⟩ := mem_flatMap.mp hx
        exact separated_lt_tail hs₂ (fun g hg => hne g (by simp [hg])) hhi _
          (mem_map_of_mem hc) _ (mem_map_of_mem (mem_map_of_mem hx))

theorem Walk.around (w : Walk h n p bs m q) (hwf : WF h B n p) (hnd : (nodes h n p).Nodup)
    (hpos : ∀ z ∈ nodes h n p, z ≠ p → 1 ≤ B.min z) (hfit : Fits h bs key) :
    ∃ A D, (∀ X, fill h n bs X = A ++ X ++ D) ∧ spots h n p = A ++ spots h m q ++ D ∧
      (∀ x ∈ A, x.2.1 < key) ∧ ∀ x ∈ D, key < x.2.1 :=
  ⟨before h n bs, after h n bs, w.fill_eq, w.spots_eq, w.sides hwf hnd hpos hfit⟩

theorem Walk.fits (w : Walk h n p bs m q) (hwf : WF h B n p) (hnd : (nodes h n p).Nodup)
    (hpos : ∀ z ∈ nodes h n p, z ≠ p → 1 ≤ B.min z) (hkey : key ∈ keysOf h m q) :
    Fits h bs key ∧ key ∈ keysOf h n p := by
  induction w with
  | nil => exact ⟨fun x hx => by simp at hx, hkey⟩
  | @cons n m i p q b bs hp hi w ih =>
    obtain ⟨hcnd, -⟩ := nodes_around hp hi hnd
    obtain ⟨hkpos, hne⟩ := hwf.kids_ne_nil hp hnd hpos
    have hkid := Branch.mem_kids.mpr ⟨i, hi, rfl⟩
    obtain ⟨hfit, hmem⟩ := ih (hwf.kid hp hi) hcnd (fun z hz _ => hkpos _ hkid z hz) hkey
    have hsep := hwf.separated hp
    rw [b.kids_split hi, b.seps_cut hi, map_append, map_cons] at hsep
    rw [b.kids_split hi, map_append, map_cons] at hne
    obtain ⟨hs₁, hs₂⟩ := (separated_join (by simp)).mp hsep
    refine ⟨fun x hx b' hb' => ?_, ?_⟩
    · rcases mem_cons.mp hx with rfl | hx
      · obtain rfl := Node.branch.inj (Option.some.inj (hp.symm.trans hb'))
        refine ⟨separated_le_mem hs₁ (fun g hg => hne g ?_) key hmem,
          separated_mem_lt hs₂ (fun g hg => hne g (by simp [hg])) key hmem⟩
        rcases mem_append.mp hg with hg | hg
        · exact mem_append_left _ hg
        · simp_all
      · exact hfit x hx b' hb'
    · obtain ⟨e, he, rfl⟩ := mem_map.mp hmem
      rw [keysOf, entries_branch n hp]
      exact mem_map_of_mem (mem_flatMap.mpr ⟨_, hkid, he⟩)

/-- A search tells whether the key is there. -/
theorem BTree.WellFormed.lands_iff (ht : t.WellFormed n) {path : Path}
    (hland : Lands t.cells n t.root [] key path) :
    path.isMatch = true ↔ key ∈ (t.contents n).map Prod.fst := by
  obtain ⟨⟨bs, -, hw, hfit⟩, l, hl, hfinds⟩ := hland
  obtain ⟨A, D, -, hE, hA, hD⟩ := hw.around ht.wf ht.nodup ht.min_pos hfit
  have hkey : key ∈ (t.contents n).map Prod.fst ↔ key ∈ l.entries.map Prod.fst := by
    rw [← entries_leaf hl, BTree.contents, entries, entries, hE, map_append, map_append,
      map_append, map_append]
    simp only [mem_append]
    refine ⟨?_, fun h => Or.inl (Or.inr h)⟩
    rintro ((h | h) | h)
    · obtain ⟨_, he, rfl⟩ := mem_map.mp h
      obtain ⟨x, hx, rfl⟩ := mem_map.mp he
      exact absurd (hA x hx) (lt_irrefl _)
    · exact h
    · obtain ⟨_, he, rfl⟩ := mem_map.mp h
      obtain ⟨x, hx, rfl⟩ := mem_map.mp he
      exact absurd (hD x hx) (lt_irrefl _)
  rw [hkey]
  cases hm : path.isMatch with
  | true =>
    rw [hm, Leaf.Finds, if_pos rfl] at hfinds
    obtain ⟨C, v, F, hl', -⟩ := hfinds
    simp [hl']
  | false =>
    rw [hm, Leaf.Finds, if_neg (by simp)] at hfinds
    obtain ⟨C, F, hl', -, hC, hF⟩ := hfinds
    simp only [Bool.false_eq_true, false_iff, hl', map_append, mem_append]
    rintro (h | h)
    · obtain ⟨e, he, rfl⟩ := mem_map.mp h
      exact absurd (hC e he) (lt_irrefl _)
    · obtain ⟨e, he, rfl⟩ := mem_map.mp h
      exact absurd (hF e he) (lt_irrefl _)

theorem Lands.entry {before : List PathNode} {path : Path} (hland : Lands h n p before key path)
    (hm : path.isMatch = true) :
    ∃ l v, h path.leaf = some (.leaf l) ∧ path.leafIndex < l.count ∧
      l.entry path.leafIndex = (key, v) ∧ (path.leaf, key, v) ∈ spots h n p := by
  obtain ⟨⟨bs, -, hw, -⟩, l, hl, hfinds⟩ := hland
  rw [hm, Leaf.Finds, if_pos rfl] at hfinds
  obtain ⟨A, v, D, hE, hi⟩ := hfinds
  obtain ⟨hlt, hentry⟩ := Leaf.entry_of_entries hE
  refine ⟨l, v, hl, hi ▸ hlt, hi ▸ hentry, hw.spots_subset ?_⟩
  rw [spots_leaf hl, hE]
  exact mem_map_of_mem (by simp)

/-! ### The first key of a subtree -/

theorem Node.getChildKey_eq (t : BTree K V) :
    ∀ {n fuel : ℕ} {p : NodeId}, n < fuel → WF t.cells B n p →
      (∀ z ∈ nodes t.cells n p, 1 ≤ B.min z) →
      ∃ k, Node.getChildKey t fuel p = .ok k ∧ (keysOf t.cells n p).head? = some k := by
  intro n
  induction n with
  | zero =>
    intro fuel p hfuel hwf hpos
    obtain ⟨fuel, rfl⟩ : ∃ f, fuel = f + 1 := ⟨fuel - 1, by omega⟩
    obtain ⟨l, hl, hok⟩ := hwf
    have hcount : 1 ≤ l.count := le_trans (hpos p (mem_nodes_self _ 0 p)) hok.min_le
    refine ⟨l.keys 0, by simp only [Node.getChildKey, hl], ?_⟩
    rw [keysOf, entries_leaf hl, l.map_fst_entries, show l.count = l.count - 1 + 1 by omega,
      window_succ]
    rfl
  | succ n ih =>
    intro fuel p hfuel hwf hpos
    obtain ⟨fuel, rfl⟩ : ∃ f, fuel = f + 1 := ⟨fuel - 1, by omega⟩
    obtain ⟨b, hb, -⟩ := id hwf
    have hkid : b.children 0 ∈ b.kids := Branch.mem_kids.mpr ⟨0, Nat.zero_le _, rfl⟩
    have hfuel : n < fuel := by omega
    obtain ⟨k, hk, hhead⟩ := ih hfuel (hwf.kid hb (Nat.zero_le _))
      fun z hz => hpos z (kid_nodes_subset hb hkid hz)
    refine ⟨k, by simp only [Node.getChildKey, hb]; exact hk, ?_⟩
    rw [keysOf, entries_branch n hb, b.kids_split (Nat.zero_le _)]
    simp only [window_zero, nil_append, flatMap_cons, map_append]
    rw [head?_append_of_ne_nil _ (by
      intro hnil
      rw [keysOf, hnil] at hhead
      simp at hhead)]
    exact hhead

end Fastore.Tree
