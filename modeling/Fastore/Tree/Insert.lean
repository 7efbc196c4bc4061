import Fastore.Tree.Split

/-!
Insertion as a whole, and trees built by insertions.

`BTree.insert_spec` puts the three regimes together: a root leaf that
doubles its capacity, a leaf with room, and a split that travels up the
path and may end in a new root. In each of them the contents gain one
entry in its place and nothing else changes order. The record `Inserted`
also says where every entry is afterwards, because other structures keep
the leaves of entries and are told about moves by a callback.
-/

namespace Fastore.Tree

open Lib List Function

variable {K V : Type} [LinearOrder K]

/-- `t'` is `t` with the entry of a new key. `R` are the entries that have
changed their leaf: the callback is called for exactly these, and they
are all in the node that was allocated first. -/
structure Inserted (t : BTree K V) (n : ℕ) (leaf : NodeId) (key : K) (value : V) (t' : BTree K V)
    (n' : ℕ) (moved : List (V × NodeId)) : Prop where
  wellFormed : t'.WellFormed n'
  sized : t'.Sized n'
  keyOnly : t'.keyOnly = t.keyOnly
  change : ∃ A E₁ E₂ D L R, spots t.cells n t.root = A ++ (E₁ ++ E₂).map (Prod.mk leaf) ++ D ∧
    L ++ R = E₁ ++ (key, t.stored value) :: E₂ ∧
    spots t'.cells n' t'.root =
      A ++ (L.map (Prod.mk leaf) ++ R.map (Prod.mk t.next)) ++ D ∧
    moved = movedTo t.next R ∧ (∀ e ∈ A.map Prod.snd ++ E₁, e.1 < key) ∧
    ∀ e ∈ E₂ ++ D.map Prod.snd, key < e.1

/-- A root that is split gets a root above it. -/
theorem Pending.growRoot {t : BTree K V} {n m : ℕ} {c : NodeId} {s : Split K}
    {S : List (NodeId × K × Option V)} (hp : Pending t n [] m c s S) :
    (t.growRoot s).Shaped (n + 1) ∧
      spots (t.growRoot s).cells (n + 1) (t.growRoot s).root = S := by
  obtain ⟨rfl, rfl⟩ := hp.walk.of_nil
  generalize hb : (⟨1, update (t.newBranch 1).keys 0 s.key,
    update (update (t.newBranch 1).children 0 t.root) 1 s.right⟩ : Branch K) = b
  have hkids : b.kids = [t.root, s.right] := by
    subst hb
    simp [Branch.kids, window, range_succ]
  have hseps : b.seps = [s.key] := by
    subst hb
    simp [Branch.seps]
  have hgrow : t.growRoot s = { t.alloc (.branch b) with root := t.next } := by
    subst hb
    rfl
  rw [hgrow]
  have hcell : (t.alloc (.branch b)).cells t.next = some (.branch b) := update_self ..
  have hfresh : ∀ z ∈ nodes t.cells m t.root ++ nodes t.cells m s.right, z < t.next := by
    intro z hz
    rcases mem_append.mp hz with hz | hz
    · exact hp.shaped.fresh z hz
    · exact hp.fresh z hz
  have hframe : ∀ c ∈ b.kids, ∀ z ∈ nodes t.cells m c, (t.alloc (.branch b)).cells z = t.cells z := by
    intro c hc z hz
    refine update_of_ne (Nat.ne_of_lt (hfresh z ?_)) ..
    rw [hkids] at hc
    rcases mem_pair.mp hc with rfl | rfl
    · exact mem_append_left _ hz
    · exact mem_append_right _ hz
  obtain ⟨hspots, hnodes, -⟩ := branch_over hcell hframe
  obtain ⟨hbelow, habove⟩ := lt_and_le_of_head hp.sorted hp.head
  rw [hkids] at hspots hnodes
  simp only [flatMap_cons, flatMap_nil, append_nil] at hspots hnodes
  have hfour := hp.four_le
  refine ⟨⟨?_, ?_, ?_⟩, ?_⟩
  · refine .branch hcell hframe ?_ ?_ (fun c hc => ?_) ?_
    · subst hb
      simp [BTree.bounds]
    · subst hb
      simp only [BTree.bounds]
      change 2 ≤ t.listCapacity
      omega
    · -- below the new root the inner limits apply
      have hwf : WF t.cells t.inner m c := by
        rw [hkids] at hc
        rcases mem_pair.mp hc with rfl | rfl
        · exact hp.left
        · exact hp.right
      exact WF.of_inner (t := { t.alloc (.branch b) with root := t.next }) hwf hfour
    · rw [hseps, hkids]
      exact ⟨hbelow, habove, trivial⟩
  · change (nodes (t.alloc (.branch b)).cells (m + 1) t.next).Nodup
    rw [hnodes, nodup_cons]
    exact ⟨fun hmem => Nat.lt_irrefl _ (hfresh _ hmem), hp.nodup⟩
  · intro z hz
    change z ∈ nodes (t.alloc (.branch b)).cells (m + 1) t.next at hz
    rw [hnodes] at hz
    rcases mem_cons.mp hz with rfl | hz
    · exact Nat.lt_succ_self _
    · exact Nat.lt_succ_of_lt (hfresh z hz)
  · rw [hp.contents, fill_nil]
    exact hspots

theorem BTree.expandRoot_spec {t : BTree K V} {l : Leaf K V} (hl : t.cells t.root = some (.leaf l))
    (hlay : l.values.isSome = !t.keyOnly) :
    ∃ l' : Leaf K V, l'.entries = l.entries ∧ l'.values.isSome = !t.keyOnly ∧
      t.expandRoot = .ok { t with
        cells := update (update t.cells t.root none) t.next (some (.leaf l'))
        next := t.next + 1
        root := t.next } := by
  obtain ⟨values, hv, hvlay, hent⟩ :=
    Leaf.copy_spec _ (t.newLeaf_layout l.count) hlay 0 0 l.count
  refine ⟨⟨l.count, move (t.newLeaf l.count).keys 0 l.keys 0 l.count, values⟩, ?_, hvlay, ?_⟩
  · rw [Leaf.entries, hent, window_move_inside _ _ _ _ _ (le_refl _) (le_refl _)]
    rfl
  · have hc : (t.newLeaf l.count).count = l.count := rfl
    simp only [BTree.expandRoot, BTree.leafAt, hl, bind, Except.bind, hc, hv]
    rfl

theorem Lands.gap {t : BTree K V} {n : ℕ} {key : K} {path : Path}
    (hland : Lands t.cells n t.root [] key path) (hm : path.isMatch = false) :
    ∃ l E₁ E₂, Gap t n path.branches path.leaf l key E₁ E₂ ∧ path.leafIndex = E₁.length := by
  obtain ⟨⟨bs, hbs, hw, hfit⟩, l, hl, hfinds⟩ := hland
  rw [nil_append] at hbs
  subst hbs
  rw [hm, Leaf.Finds, if_neg (by simp)] at hfinds
  obtain ⟨E₁, E₂, hE, hi, h₁, h₂⟩ := hfinds
  exact ⟨l, E₁, E₂, ⟨hw, hl, hfit, hE, h₁, h₂⟩, hi⟩

section Whole

variable {t : BTree K V} {n : ℕ} {key : K} {path : Path} {l : Leaf K V}
  {E₁ E₂ : List (K × Option V)}

theorem Gap.around (hg : Gap t n path.branches path.leaf l key E₁ E₂) (ht : t.WellFormed n) :
    ∃ A D, (∀ X, fill t.cells n path.branches X = A ++ X ++ D) ∧
      spots t.cells n t.root = A ++ (E₁ ++ E₂).map (Prod.mk path.leaf) ++ D ∧
      (∀ e ∈ A.map Prod.snd ++ E₁, e.1 < key) ∧ ∀ e ∈ E₂ ++ D.map Prod.snd, key < e.1 := by
  obtain ⟨A, D, hF, hE, hA, hD⟩ := hg.walk.around ht.wf ht.nodup ht.min_pos hg.fits
  rw [spots_leaf hg.cell, hg.entries] at hE
  refine ⟨A, D, hF, hE, fun e he => ?_, fun e he => ?_⟩
  · rcases mem_append.mp he with he | he
    · obtain ⟨x, hx, rfl⟩ := mem_map.mp he
      exact hA x hx
    · exact hg.below e he
  · rcases mem_append.mp he with he | he
    · exact hg.above e he
    · obtain ⟨x, hx, rfl⟩ := mem_map.mp he
      exact hD x hx

theorem Inserted.of_shaped {t' : BTree K V} {n' : ℕ} {value : V} {moved : List (V × NodeId)}
    {L R : List (K × Option V)} {A D : List (NodeId × K × Option V)} {leaf : NodeId}
    (ht : t.WellFormed n) (hshaped : t'.Shaped n') (hsized : t'.Sized n')
    (hko : t'.keyOnly = t.keyOnly) (hcount : t'.count = t.count + 1)
    (hE : spots t.cells n t.root = A ++ (E₁ ++ E₂).map (Prod.mk leaf) ++ D)
    (hLR : L ++ R = E₁ ++ (key, t.stored value) :: E₂)
    (hE' : spots t'.cells n' t'.root =
      A ++ (L.map (Prod.mk leaf) ++ R.map (Prod.mk t.next)) ++ D)
    (hmoved : moved = movedTo t.next R) (hA : ∀ e ∈ A.map Prod.snd ++ E₁, e.1 < key)
    (hD : ∀ e ∈ E₂ ++ D.map Prod.snd, key < e.1) :
    Inserted t n leaf key value t' n' moved := by
  refine ⟨⟨hshaped, fun hn => ?_, ?_⟩, hsized, hko, A, E₁, E₂, D, L, R, hE, hLR, hE', hmoved, hA, hD⟩
  · rcases hsized with h | ⟨h, -⟩
    · rw [h]
      decide
    · exact absurd h hn
  · have hlen := congrArg List.length hLR
    rw [hcount, ht.count, BTree.contents, BTree.contents, entries, entries, hE, hE']
    simp only [length_map, length_append, length_cons] at hlen ⊢
    push_cast
    omega

theorem Gap.small_root (hg : Gap t n path.branches path.leaf l key E₁ E₂) (hs : t.Sized n)
    (hsmall : t.listCapacity < defaultListCapacity) :
    n = 0 ∧ path.branches = [] ∧ t.root = path.leaf ∧
      t.listCapacity ∈ [1, 2, 4, 8, 16, 32] := by
  obtain ⟨rfl, hcap⟩ : n = 0 ∧ t.listCapacity ∈ [1, 2, 4, 8, 16, 32] := by
    rcases hs with h | h
    · omega
    · exact h
  have hbs : path.branches = [] := length_eq_zero_iff.mp (by have := hg.walk.height; omega)
  refine ⟨rfl, hbs, ?_, hcap⟩
  have hw := hg.walk
  rw [hbs] at hw
  exact hw.of_nil.2.symm

namespace BTree

theorem Sized.default_of_full (hs : t.Sized n)
    (hfit : ¬ (t.listCapacity < defaultListCapacity ∧ l.count = t.listCapacity)) :
    l.count = t.listCapacity → t.listCapacity = defaultListCapacity := by
  intro hc
  rcases hs with h | ⟨-, h⟩
  · exact h
  · have hsmall : ∀ c ∈ [1, 2, 4, 8, 16, 32], c < defaultListCapacity := by decide
    exact absurd ⟨hsmall _ h, hc⟩ hfit

/-- The root leaf is full and small: the entry goes into a leaf of twice
the capacity, which holds all entries from now on. -/
theorem insert_grow (hg : Gap t n path.branches path.leaf l key E₁ E₂)
    (hi : path.leafIndex = E₁.length) (ht : t.WellFormed n) (hs : t.Sized n) (value : V)
    (hgrow : t.listCapacity < defaultListCapacity ∧ l.count = t.listCapacity) :
    ∃ t' n' moved, t.insert path key value = .ok (t', moved) ∧
      Inserted t n path.leaf key value t' n' moved := by
  obtain ⟨rfl, hbs, hroot, hcap⟩ := hg.small_root hs hgrow.1
  have hl : t.cells t.root = some (.leaf l) := hroot ▸ hg.cell
  have hok := hg.ok ht.toShaped
  obtain ⟨l₁, hE₁, hlay₁, hexp⟩ := expandRoot_spec
    (t := { t with listCapacity := t.listCapacity * 2 }) hl hok.layout
  have hcount₁ : l₁.count = l.count := by rw [← l₁.length_entries, hE₁, l.length_entries]
  generalize ht₁ : ({ t with
    listCapacity := t.listCapacity * 2
    cells := update (update t.cells t.root none) t.next (some (.leaf l₁))
    next := t.next + 1
    root := t.next } : BTree K V) = t₁ at hexp
  have hcell₁ : t₁.cells t₁.root = some (.leaf l₁) := by
    subst ht₁
    exact update_self ..
  have hcap₁ : t₁.listCapacity = t.listCapacity * 2 := by rw [← ht₁]
  have hpos : 1 ≤ t.listCapacity := by
    simp only [mem_cons, not_mem_nil, or_false] at hcap
    omega
  have hshaped₁ : t₁.Shaped 0 := by
    refine ⟨⟨l₁, hcell₁, by simp [bounds], ?_, hE₁ ▸ hok.sorted, ?_⟩, by simp [nodes], ?_⟩
    · simp only [bounds, hcap₁]
      omega
    · rw [hlay₁, ← ht₁]
      rfl
    · subst ht₁
      simp [nodes]
  have hg₁ : Gap t₁ 0 [] t₁.root l₁ key E₁ E₂ :=
    ⟨.nil _ _, hcell₁, fun x hx => by simp at hx, hE₁.trans hg.entries, hg.below, hg.above⟩
  obtain ⟨l₂, hE₂, hins, hshaped₂, hspots₂⟩ :=
    Leaf.insert_room hg₁ hshaped₁ (fun h => absurd rfl h) value (by omega)
  have hcell₂ : (t₁.set t₁.root (.leaf l₂)).cells t₁.root = some (.leaf l₂) :=
    update_self ..
  have hstored : t₁.stored value = t.stored value := by rw [← ht₁]; rfl
  obtain ⟨A, D, hF, hE, hA, hD⟩ := hg.around ht
  have hAD : A = [] ∧ D = [] := by
    have := hF []
    rw [hbs, fill_nil] at this
    simpa using this.symm
  refine ⟨{ t₁.set t₁.root (.leaf l₂) with count := t₁.count + 1 }, 0, movedTo t.next l₂.entries,
    ?_, ?_⟩
  · simp only [insert, insertLeaf, leafAt, hg.cell, bind, Except.bind,
      if_pos hgrow, hexp, hi, hins, hbs, reverse_nil, insertLoop]
    rw [show (t₁.set t₁.root (.leaf l₂)).root = t₁.root from rfl, hcell₂]
    simp only [Leaf.valuesMoved_eq, nil_append]
    rw [← ht₁]
    rfl
  · refine Inserted.of_shaped (L := []) (R := l₂.entries) ht ⟨hshaped₂.wf, hshaped₂.nodup,
      hshaped₂.fresh⟩ ?_ ?_ ?_ hE ?_ ?_ rfl hA hD
    · change t₁.listCapacity = defaultListCapacity ∨ 0 = 0 ∧ t₁.listCapacity ∈ [1, 2, 4, 8, 16, 32]
      rw [hcap₁]
      simp only [mem_cons, not_mem_nil, or_false] at hcap
      rcases hcap with h | h | h | h | h | h <;> simp [h, defaultListCapacity]
    · rw [← ht₁]
      rfl
    · rw [← ht₁]
    · rw [nil_append, hE₂, hstored]
    · rw [hAD.1, hAD.2]
      change spots (t₁.set t₁.root (.leaf l₂)).cells 0 t₁.root = _
      rw [hspots₂, fill_nil, ← ht₁]
      simp

/-- An insertion for which no list has to grow. -/
theorem insert_fit (hg : Gap t n path.branches path.leaf l key E₁ E₂)
    (hi : path.leafIndex = E₁.length) (ht : t.WellFormed n) (hs : t.Sized n) (value : V)
    (hfit : ¬ (t.listCapacity < defaultListCapacity ∧ l.count = t.listCapacity)) :
    ∃ t' n' moved, t.insert path key value = .ok (t', moved) ∧
      Inserted t n path.leaf key value t' n' moved := by
  have hfull := hs.default_of_full hfit
  obtain ⟨A, D, hF, hE, hA, hD⟩ := hg.around ht
  obtain ⟨h₁, next₁, r₁, L, R, hleaf, hLR, ho₁⟩ :=
    Leaf.insert_spec hg ht.toShaped ht.capacity value hfull
  obtain ⟨h₂, next₂, r₂, m, c, hloop, ho₂⟩ := insertLoop_spec ho₁
  rw [hF] at ho₂
  cases r₂ with
  | none =>
    obtain ⟨hshaped, hspots⟩ := ho₂
    have hins : t.insert path key value =
        .ok ({ t with cells := h₂, next := next₂, count := t.count + 1 }, movedTo t.next R) := by
      simp only [insert, insertLeaf, leafAt, hg.cell, bind, Except.bind,
        if_neg hfit, hi, hleaf]
      rw [hloop]
    exact ⟨_, n, _, hins, .of_shaped ht ⟨hshaped.wf, hshaped.nodup, hshaped.fresh⟩ hs rfl rfl hE
      hLR hspots rfl hA hD⟩
  | some s =>
    obtain ⟨hshaped, hspots⟩ := ho₂.growRoot
    have hins : t.insert path key value =
        .ok ({ { t with cells := h₂, next := next₂ }.growRoot s with count := t.count + 1 },
          movedTo t.next R) := by
      simp only [insert, insertLeaf, leafAt, hg.cell, bind, Except.bind,
        if_neg hfit, hi, hleaf]
      rw [hloop]
      rfl
    exact ⟨_, n + 1, _, hins, .of_shaped ht ⟨hshaped.wf, hshaped.nodup, hshaped.fresh⟩
      (Or.inl ho₂.capacity) rfl rfl hE hLR hspots rfl hA hD⟩

/-- **Insertion** of an absent key at the place `getPath` found. -/
theorem insert_spec (ht : t.WellFormed n) (hs : t.Sized n)
    (hland : Lands t.cells n t.root [] key path) (hm : path.isMatch = false) (value : V) :
    ∃ t' n' moved, t.insert path key value = .ok (t', moved) ∧
      Inserted t n path.leaf key value t' n' moved := by
  obtain ⟨l, E₁, E₂, hg, hi⟩ := hland.gap hm
  by_cases hgrow : t.listCapacity < defaultListCapacity ∧ l.count = t.listCapacity
  · exact insert_grow hg hi ht hs value hgrow
  · exact insert_fit hg hi ht hs value hgrow

end BTree

end Whole

theorem Inserted.contents {t t' : BTree K V} {n n' : ℕ} {leaf : NodeId} {key : K} {value : V}
    {moved : List (V × NodeId)} (h : Inserted t n leaf key value t' n' moved) :
    ∃ C₁ C₂, t.contents n = C₁ ++ C₂ ∧ t'.contents n' = C₁ ++ (key, t.stored value) :: C₂ ∧
      (∀ e ∈ C₁, e.1 < key) ∧ ∀ e ∈ C₂, key < e.1 := by
  obtain ⟨A, E₁, E₂, D, L, R, hE, hLR, hE', -, hA, hD⟩ := h.change
  refine ⟨A.map Prod.snd ++ E₁, E₂ ++ D.map Prod.snd, ?_, ?_, hA, hD⟩
  · rw [BTree.contents, entries, hE]
    simp [comp_def]
  · have : (L ++ R).map id = E₁ ++ (key, t.stored value) :: E₂ := by simpa using hLR
    rw [map_append] at this
    rw [BTree.contents, entries, hE']
    simp only [map_append, map_map]
    change A.map Prod.snd ++ (L.map id ++ R.map id) ++ D.map Prod.snd = _
    rw [this]
    simp

/-! ### Trees built by insertions -/

namespace BTree

/-- Insert entries one after the other, each at the place `getPath` finds
for its key. -/
def insertAll (t : BTree K V) : List (K × V) → Except Fault (BTree K V)
  | [] => .ok t
  | (key, value) :: rest => do
    let path ← t.getPath key
    let (t, _) ← t.insert path key value
    t.insertAll rest

theorem new_wellFormed (T : ScalarType K) (keyOnly : Bool) (rawKeys : NodeId → ℕ → K)
    (rawValues : NodeId → ℕ → V) (rawNodes : NodeId → ℕ → NodeId) :
    (new T keyOnly rawKeys rawValues rawNodes).WellFormed 0 ∧
      (new T keyOnly rawKeys rawValues rawNodes).Sized 0 ∧
      (new T keyOnly rawKeys rawValues rawNodes).contents 0 = [] := by
  have hcell : (new T keyOnly rawKeys rawValues rawNodes).cells 0 = some (.leaf
      ⟨0, rawKeys 0, if keyOnly then none else some (rawValues 0)⟩) := by
    simp [new]
  have hempty : (new T keyOnly rawKeys rawValues rawNodes).contents 0 = [] := by
    rw [contents, show (new T keyOnly rawKeys rawValues rawNodes).root = 0 from rfl,
      entries_leaf hcell]
    rfl
  refine ⟨⟨⟨⟨_, hcell, Nat.zero_le _, Nat.zero_le _, List.Pairwise.nil, ?_⟩, by simp [nodes], ?_⟩,
    fun h => absurd rfl h, by rw [hempty]; rfl⟩, Or.inr ⟨rfl, by simp [new]⟩, hempty⟩
  · cases keyOnly <;> rfl
  · simp [nodes, new]

/-- A run of insertions. -/
theorem insertAll_spec (kvs : List (K × V)) {t : BTree K V} {n : ℕ} (ht : t.WellFormed n)
    (hs : t.Sized n) (hnd : ((t.contents n).map Prod.fst ++ kvs.map Prod.fst).Nodup) :
    ∃ t' n', t.insertAll kvs = .ok t' ∧ t'.WellFormed n' ∧ t'.Sized n' ∧
      (t'.contents n').Perm
        (t.contents n ++ kvs.map fun kv => (kv.1, t.stored kv.2)) := by
  induction kvs generalizing t n with
  | nil => exact ⟨t, n, rfl, ht, hs, by simp⟩
  | cons kv kvs ih =>
    obtain ⟨key, value⟩ := kv
    obtain ⟨path, hpath, hland⟩ := ht.getPath key
    have hm : path.isMatch = false := by
      rw [← Bool.not_eq_true, ht.lands_iff hland]
      intro hmem
      exact (nodup_append.mp hnd).2.2 key hmem key (by simp) rfl
    obtain ⟨t₁, n₁, moved, hins, hinserted⟩ := insert_spec ht hs hland hm value
    obtain ⟨C₁, C₂, hC, hC', -, -⟩ := hinserted.contents
    have hperm : (t₁.contents n₁).Perm (t.contents n ++ [(key, t.stored value)]) := by
      rw [hC, hC', append_assoc]
      exact (List.Perm.append_left C₁ (perm_append_singleton _ C₂).symm)
    obtain ⟨t', n', hall, ht', hs', hperm'⟩ := ih hinserted.wellFormed hinserted.sized (by
      refine (((hperm.map Prod.fst).append_right _).nodup_iff).mpr ?_
      simpa using hnd)
    refine ⟨t', n', ?_, ht', hs', hperm'.trans ?_⟩
    · simp only [insertAll, hpath, hins, bind, Except.bind, hall]
    · refine (hperm.append_right _).trans ?_
      have hst : t₁.stored = t.stored := by
        funext v
        simp only [stored, hinserted.keyOnly]
      simp [hst]

/-- **Insertion builds a B-tree**: entries with distinct keys, inserted in
any order into an empty tree, make a well-formed tree of just these
entries in order, in which every search tells the truth. -/
theorem insertAll_new (T : ScalarType K) (keyOnly : Bool) (rawKeys : NodeId → ℕ → K)
    (rawValues : NodeId → ℕ → V) (rawNodes : NodeId → ℕ → NodeId) (kvs : List (K × V))
    (hnd : (kvs.map Prod.fst).Nodup) :
    ∃ t n, (new T keyOnly rawKeys rawValues rawNodes).insertAll kvs = .ok t ∧
      t.WellFormed n ∧ t.Sized n ∧ ((t.contents n).map Prod.fst).Pairwise (· < ·) ∧
      (t.contents n).Perm (kvs.map fun kv => (kv.1, if keyOnly then none else some kv.2)) ∧
      t.count = kvs.length ∧
      ∀ key, ∃ path, t.getPath key = .ok path ∧
        (path.isMatch = true ↔ key ∈ kvs.map Prod.fst) ∧
        ∀ value, (key, value) ∈ kvs → ∃ l, t.cells path.leaf = some (.leaf l) ∧
          path.leafIndex < l.count ∧
          l.entry path.leafIndex = (key, if keyOnly then none else some value) ∧
          (path.leaf, l.entry path.leafIndex) ∈ spots t.cells n t.root := by
  obtain ⟨hw₀, hs₀, hempty⟩ := new_wellFormed T keyOnly rawKeys rawValues rawNodes
  obtain ⟨t, n, hall, ht, hs, hperm⟩ := insertAll_spec kvs hw₀ hs₀ (by simpa [hempty] using hnd)
  rw [hempty, nil_append] at hperm
  refine ⟨t, n, hall, ht, hs, ht.sorted, hperm, by rw [ht.count, hperm.length_eq, length_map],
    fun key => ?_⟩
  obtain ⟨path, hpath, hland⟩ := ht.getPath key
  have hiff : path.isMatch = true ↔ key ∈ kvs.map Prod.fst := by
    rw [ht.lands_iff hland, (hperm.map Prod.fst).mem_iff, map_map]
    rfl
  refine ⟨path, hpath, hiff, fun value hmem => ?_⟩
  obtain ⟨l, v, hl, hlt, hentry, hspot⟩ :=
    hland.entry (hiff.mpr (mem_map_of_mem (f := Prod.fst) hmem))
  refine ⟨l, hl, hlt, ?_, by rwa [hentry]⟩
  have h₁ : (key, v) ∈ t.contents n := mem_map_of_mem (f := Prod.snd) hspot
  have h₂ : (key, if keyOnly then none else some value) ∈ t.contents n :=
    hperm.mem_iff.mpr (mem_map_of_mem hmem)
  rw [hentry, ht.entry_unique h₁ h₂]

/-- Three hundred keys in descending order, more than two leaves have room for. -/
theorem insertAll_new_descending : ∃ t n,
    (new (ScalarType.ofOrder ℕ) false (fun _ _ => 0) (fun _ _ => 0) (fun _ _ => 0)).insertAll
      ((range 300).reverse.map fun k => (k, 10 * k)) = .ok t ∧ t.WellFormed n ∧ t.count = 300 := by
  have hnd : (((range 300).reverse.map fun k => (k, 10 * k)).map Prod.fst).Nodup := by
    simp [Function.comp_def, nodup_range]
  obtain ⟨t, n, hall, ht, -, -, -, hcount, -⟩ := insertAll_new (ScalarType.ofOrder ℕ) false
    (fun _ _ => 0) (fun _ _ => 0) (fun _ _ => 0) _ hnd
  exact ⟨t, n, hall, ht, by simpa using hcount⟩

end BTree

end Fastore.Tree
