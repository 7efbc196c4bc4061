import Fastore.Index.Buffers
import Fastore.Lib.Located

/-!
What the row tree and the value tree of a buffer have to do with each other.

An entry of the value tree belongs to one or more rows (`owns`): in a
unique column to the row it holds, otherwise to the rows of its tree. The
row tree is exact (`Reverse`) if it has just the rows that own an entry,
each with the leaf this entry is in. The operations on the two trees keep
it so, if the callback does its part and no deletion leaves a leaf of the
value tree short.
-/

namespace Fastore.Index

open Fastore.Tree Lib Function

variable {R A X : Type} [LinearOrder R] [LinearOrder A]

/-- Row `r` owns an entry of `a` in the leaf `q` of the value tree. -/
def OwnedAt (values : BTree A X) (m : ℕ) (owns : X → R → Prop) (r : R) (q : NodeId) (a : A) : Prop :=
  ∃ x, (q, a, some x) ∈ spots values.cells m values.root ∧ owns x r

/-- The row tree `ρ` is exact for the value tree `f`, and the rows have the
values `M`. -/
structure Reverse (rows : BTree R NodeId) (values : BTree A X) (owns : X → R → Prop)
    (M : R → Option A) (n m : ℕ) (ρ : R → Option NodeId) (f : A → Option X) : Prop where
  rowTree : rows.Maps n ρ
  valueTree : values.Maps m f
  located : Located (OwnedAt values m owns) ρ M

theorem mem_map_of_spot {values : BTree A X} {m : ℕ} {f : A → Option X} {q : NodeId} {a : A} {x : X}
    (hv : values.Maps m f) (h : (q, a, some x) ∈ spots values.cells m values.root) :
    f a = some x :=
  (hv.get a x).mp (mem_entries.mpr ⟨q, h⟩)

section Reading

variable {rows : BTree R NodeId} {values : BTree A X} {owns : X → R → Prop} {M : R → Option A}
  {n m : ℕ} {ρ : R → Option NodeId} {f : A → Option X} {r : R} {a : A} {x : X}

theorem Reverse.owned (h : Reverse rows values owns M n m ρ f) (hr : M r = some a) :
    ∃ x, f a = some x ∧ owns x r := by
  obtain ⟨q, -, x, hx, ho⟩ := h.located.of_label hr
  exact ⟨x, mem_map_of_spot h.valueTree hx, ho⟩

theorem Reverse.label (h : Reverse rows values owns M n m ρ f) (ha : f a = some x)
    (ho : owns x r) : M r = some a := by
  obtain ⟨q, hq⟩ := mem_entries.mp ((h.valueTree.get a x).mpr ha)
  exact ((h.located.iff r q a).mp ⟨x, hq, ho⟩).2

/-- **`GetValue`** returns the value of the row. -/
theorem Reverse.getValue (h : Reverse rows values owns M n m ρ f)
    {predicate : X → Except Fault Bool}
    (hpred : ∀ a x, f a = some x → ∃ b, predicate x = .ok b ∧ (b = true ↔ owns x r)) :
    Index.getValue rows values r predicate = .ok (M r) := by
  obtain ⟨it, hfind, hget⟩ := h.rowTree.findNearest r
  cases hρ : ρ r with
  | none =>
    rw [hρ] at hfind
    simp only [Index.getValue, hfind, bind, Except.bind, Option.isSome_none, Bool.false_eq_true,
      if_false, h.located.place_none.mp hρ]
  | some q =>
    obtain ⟨a, ha, x, hx, ho⟩ := h.located.of_place hρ
    obtain ⟨l, hl, he, hlay, hall⟩ := h.valueTree.wellFormed.wf.spot hx
    have hkey : l.getKey predicate = .ok a := by
      refine Leaf.getKey_spec (P := fun x => owns x r) ?_ (fun k y hy => ?_)
        (fun k y hy hyr => ?_) he ho
      · rw [hlay]
        simp [BTree.bounds, h.valueTree.keyOnly]
      · exact hpred k y (mem_map_of_spot h.valueTree (hall _ hy))
      · -- any entry of the row is under its value
        have := h.label (mem_map_of_spot h.valueTree (hall _ hy)) hyr
        exact some_unique this ha
    rw [hρ] at hfind
    simp only [Index.getValue, hfind, bind, Except.bind, Option.isSome_some, if_true,
      iteratorValue, hget q hρ, BTree.leafAt, hl, hkey, ha]

end Reading

/-! ### Including a value that is new -/

section Insert

variable {owns : X → R → Prop}
  {valuesMoved : BTree R NodeId → X × NodeId → Except Fault (BTree R NodeId)}

open Classical in
/-- The callback for one value: all its rows are given the new leaf. -/
def Moves (valuesMoved : BTree R NodeId → X × NodeId → Except Fault (BTree R NodeId))
    (owns : X → R → Prop) (x : X) : Prop :=
  ∀ (rows : BTree R NodeId) (n : ℕ) (ρ : R → Option NodeId) (q : NodeId), rows.Maps n ρ →
    (∀ r, owns x r → (ρ r).isSome = true) →
    ∃ rows', valuesMoved rows (x, q) = .ok rows' ∧
      rows'.Maps n fun r => if owns x r then some q else ρ r

omit [LinearOrder A] in
open Classical in
theorem foldlM_moves (q : NodeId) (L : List (A × Option X)) {rows : BTree R NodeId} {n : ℕ}
    {ρ : R → Option NodeId} (hrows : rows.Maps n ρ)
    (hmoves : ∀ a x, (a, some x) ∈ L → Moves valuesMoved owns x)
    (hsome : ∀ a x r, (a, some x) ∈ L → owns x r → (ρ r).isSome = true) :
    ∃ rows', (movedTo q L).foldlM valuesMoved rows = .ok rows' ∧
      rows'.Maps n fun r => if ∃ a x, (a, some x) ∈ L ∧ owns x r then some q else ρ r := by
  induction L generalizing rows ρ with
  | nil => exact ⟨rows, rfl, by simpa using hrows⟩
  | cons e L ih =>
    obtain ⟨a, _ | x⟩ := e
    · obtain ⟨rows', hrun, hmaps⟩ := ih hrows (fun a x h => hmoves a x (by simp [h]))
        fun a x r h => hsome a x r (by simp [h])
      refine ⟨rows', ?_, by simpa using hmaps⟩
      simpa [movedTo] using hrun
    · obtain ⟨rows₁, hstep, hmaps₁⟩ := hmoves a x (by simp) rows n ρ q hrows
        fun r => hsome a x r (by simp)
      obtain ⟨rows', hrun, hmaps⟩ := ih hmaps₁ (fun a x h => hmoves a x (by simp [h]))
        fun a x r h ho => by
          split
          · rfl
          · exact hsome a x r (by simp [h]) ho
      refine ⟨rows', ?_, ?_⟩
      · simp only [movedTo, List.filterMap_cons, Option.map_some, List.foldlM_cons, hstep, bind,
          Except.bind]
        exact hrun
      · convert hmaps using 2 with r
        by_cases ho : owns x r
        · rw [if_pos ⟨a, x, by simp, ho⟩, if_pos ho]
          split <;> rfl
        · have hiff : (∃ a' x', (a', some x') ∈ (a, some x) :: L ∧ owns x' r) ↔
              ∃ a' x', (a', some x') ∈ L ∧ owns x' r := by
            constructor
            · rintro ⟨a', x', hmem, ho'⟩
              rcases List.mem_cons.mp hmem with heq | hmem
              · obtain ⟨-, rfl⟩ : a' = a ∧ x' = x := by simpa using heq
                exact absurd ho' ho
              · exact ⟨a', x', hmem, ho'⟩
            · rintro ⟨a', x', hmem, ho'⟩
              exact ⟨a', x', by simp [hmem], ho'⟩
          simp only [hiff, if_neg ho]

variable {rows : BTree R NodeId} {values : BTree A X} {owns' : X → R → Prop} {M : R → Option A}
  {n m : ℕ} {ρ : R → Option NodeId} {f : A → Option X} {rowId : R} {value : A} {x : X}
  {rowpath path : Path}

open Classical in
/-- Where the rows of a new entry and of those it has moved are to be
found. -/
theorem located_inserted {values' : BTree A X} {m' : ℕ} {moved : List (X × NodeId)}
    (hloc : Located (OwnedAt values m owns) ρ M) (hv : values.Maps m f)
    (hv' : values'.Maps m' (update f value (some x)))
    (hi : Inserted values m path.leaf value x values' m' moved) (hrow : ρ rowId = none)
    (hnew : ∀ r, owns' x r ↔ r = rowId) (hold : ∀ a y, f a = some y → ∀ r, owns' y r ↔ owns y r) :
    ∃ L, moved = movedTo values.next L ∧
      (∀ a y, (a, some y) ∈ L → update f value (some x) a = some y) ∧
      (∀ a y r, (a, some y) ∈ L → owns' y r →
        (update ρ rowId (some path.leaf) r).isSome = true) ∧
      Located (OwnedAt values' m' owns')
        (fun r => if ∃ a y, (a, some y) ∈ L ∧ owns' y r then some values.next
          else update ρ rowId (some path.leaf) r)
        (update M rowId (some value)) := by
  obtain ⟨L, hmoved, hfrom, hspots⟩ := hi.spots_iff
  have hstored : values.stored x = some x := by simp [BTree.stored, hv.keyOnly]
  rw [hstored] at hfrom hspots
  -- first as if the entry had gone to the leaf of the path and nothing had moved
  have hadd : Located (fun r q a => ∃ y, ((q, a, some y) ∈ spots values.cells m values.root ∨
      q = path.leaf ∧ (a, some y) = (value, some x)) ∧ owns' y r)
      (update ρ rowId (some path.leaf)) (update M rowId (some value)) := by
    refine hloc.add hrow fun r q a => ?_
    constructor
    · rintro ⟨y, hy | ⟨rfl, hy⟩, ho⟩
      · exact Or.inl ⟨y, hy, (hold a y (mem_map_of_spot hv hy) r).mp ho⟩
      · obtain ⟨rfl, rfl⟩ : a = value ∧ y = x := by simpa using hy
        exact Or.inr ⟨(hnew r).mp ho, rfl, rfl⟩
    · rintro (⟨y, hy, ho⟩ | ⟨rfl, rfl, rfl⟩)
      · exact ⟨y, Or.inl hy, (hold a y (mem_map_of_spot hv hy) r).mpr ho⟩
      · exact ⟨x, Or.inr ⟨rfl, rfl⟩, (hnew r).mpr rfl⟩
  have hplace : ∀ a y r, (a, some y) ∈ L → owns' y r →
      update ρ rowId (some path.leaf) r = some path.leaf ∧
        update M rowId (some value) r = some a := by
    intro a y r hmem ho
    refine (hadd.iff r path.leaf a).mp ⟨y, ?_, ho⟩
    exact (hfrom _ hmem).imp id fun h => ⟨rfl, h⟩
  have hentry : ∀ a y, (a, some y) ∈ L → (values.next, a, some y) ∈
      spots values'.cells m' values'.root := fun a y hmem => (hspots _ _).mpr (Or.inl ⟨hmem, rfl⟩)
  refine ⟨L, hmoved, fun a y hmem => mem_map_of_spot hv' (hentry a y hmem), fun a y r hmem ho => ?_,
    hadd.move (fun r hr => ?_) fun r q a => ?_⟩
  · rw [(hplace a y r hmem ho).1]
    rfl
  · obtain ⟨a, y, hmem, ho⟩ := hr
    rw [(hplace a y r hmem ho).1]
    rfl
  · split
    case isTrue hr =>
      obtain ⟨a', y', hmem, ho'⟩ := hr
      have hM := (hplace a' y' r hmem ho').2
      constructor
      · rintro ⟨y, hy, ho⟩
        rcases (hspots _ _).mp hy with ⟨hyL, rfl⟩ | ⟨hyL, hy'⟩
        · exact ⟨rfl, path.leaf, y, (hfrom _ hyL).imp id fun h => ⟨rfl, h⟩, ho⟩
        · -- the row has one value, and its entry is among those that moved
          have hM' := ((hadd.iff r q a).mp ⟨y, hy', ho⟩).2
          obtain rfl : a = a' := some_unique hM' hM
          obtain rfl : y = y' := Option.some.inj ((mem_map_of_spot hv' hy).symm.trans
            (mem_map_of_spot hv' (hentry a y' hmem)))
          exact absurd hmem hyL
      · rintro ⟨rfl, q₀, y, hy, ho⟩
        have hM' := ((hadd.iff r q₀ a).mp ⟨y, hy, ho⟩).2
        obtain rfl : a = a' := some_unique hM' hM
        exact ⟨y', hentry a y' hmem, ho'⟩
    case isFalse hr =>
      constructor
      · rintro ⟨y, hy, ho⟩
        rcases (hspots _ _).mp hy with ⟨hyL, rfl⟩ | ⟨-, hy'⟩
        · exact absurd ⟨a, y, hyL, ho⟩ hr
        · exact ⟨y, hy', ho⟩
      · rintro ⟨y, hy, ho⟩
        exact ⟨y, (hspots _ _).mpr (Or.inr ⟨fun hyL => hr ⟨a, y, hyL, ho⟩, hy⟩), ho⟩

/-- **Including a value that is new** keeps the row tree exact: whatever
the insertion moves, the callback follows. -/
theorem Reverse.insertBoth (owns' : X → R → Prop) (x : X) (h : Reverse rows values owns M n m ρ f)
    (hrowland : Lands rows.cells n rows.root [] rowId rowpath)
    (hland : Lands values.cells m values.root [] value path) (hrow : ρ rowId = none)
    (hvalue : f value = none) (hnew : ∀ r, owns' x r ↔ r = rowId)
    (hold : ∀ a y, f a = some y → ∀ r, owns' y r ↔ owns y r)
    (hmoves : ∀ a y, update f value (some x) a = some y → Moves valuesMoved owns' y) :
    ∃ rows' values' n' m' ρ' moved,
      Index.insertBoth rows values rowpath path rowId value x valuesMoved = .ok (rows', values') ∧
      values.insert path value x = .ok (values', moved) ∧
      Reverse rows' values' owns' (update M rowId (some value)) n' m' ρ'
        (update f value (some x)) := by
  obtain ⟨rows₁, n₁, moved₁, hins₁, hmaps₁, -⟩ := h.rowTree.insert hrowland hrow path.leaf
  obtain ⟨values', m', moved, hins, hv', hi⟩ := h.valueTree.insert hland hvalue x
  obtain ⟨L, rfl, hL, hsome, hloc⟩ :=
    located_inserted h.located h.valueTree hv' hi hrow hnew hold
  obtain ⟨rows', hrun, hmaps'⟩ := foldlM_moves values.next L hmaps₁
    (fun a y hmem => hmoves a y (hL a y hmem)) hsome
  refine ⟨rows', values', n₁, m', _, _, ?_, hins, hmaps', hv', hloc⟩
  simp only [Index.insertBoth, hins₁, hins, bind, Except.bind, hrun]

end Insert

/-! ### Other changes -/

section Change

variable {rows : BTree R NodeId} {values : BTree A X} {owns owns' : X → R → Prop} {M : R → Option A}
  {n m : ℕ} {ρ : R → Option NodeId} {f : A → Option X} {rowId : R} {value : A} {x : X}
  {rowpath path : Path}

/-- A row joins its value in the reverse index. -/
theorem Reverse.insertRow (owns' : X → R → Prop) (h : Reverse rows values owns M n m ρ f)
    (hrowland : Lands rows.cells n rows.root [] rowId rowpath)
    (hland : Lands values.cells m values.root [] value path) (hrow : ρ rowId = none)
    (hvalue : f value = some x) (hnew : ∀ r, owns' x r ↔ owns x r ∨ r = rowId)
    (hold : ∀ a y, f a = some y → a ≠ value → ∀ r, owns' y r ↔ owns y r) :
    ∃ rows' n' moved, rows.insert rowpath rowId path.leaf = .ok (rows', moved) ∧
      Reverse rows' values owns' (update M rowId (some value)) n' m
        (update ρ rowId (some path.leaf)) f := by
  obtain ⟨rows', n', moved, hins, hmaps, -⟩ := h.rowTree.insert hrowland hrow path.leaf
  obtain ⟨l, -, -, -, hspot⟩ := h.valueTree.at_match hland hvalue
  refine ⟨rows', n', moved, hins, hmaps, h.valueTree, h.located.add hrow fun r q a => ?_⟩
  constructor
  · rintro ⟨y, hy, ho⟩
    by_cases ha : a = value
    · subst ha
      obtain rfl : y = x := Option.some.inj ((mem_map_of_spot h.valueTree hy).symm.trans hvalue)
      rcases (hnew r).mp ho with ho | rfl
      · exact Or.inl ⟨y, hy, ho⟩
      · exact Or.inr ⟨rfl, h.valueTree.wellFormed.spot_unique hy hspot, rfl⟩
    · exact Or.inl ⟨y, hy, (hold a y (mem_map_of_spot h.valueTree hy) ha r).mp ho⟩
  · rintro (⟨y, hy, ho⟩ | ⟨rfl, rfl, rfl⟩)
    · by_cases ha : a = value
      · subst ha
        obtain rfl : y = x := Option.some.inj ((mem_map_of_spot h.valueTree hy).symm.trans hvalue)
        exact ⟨y, hy, (hnew r).mpr (Or.inl ho)⟩
      · exact ⟨y, hy, (hold a y (mem_map_of_spot h.valueTree hy) ha r).mpr ho⟩
    · exact ⟨x, hspot, (hnew r).mpr (Or.inr rfl)⟩

/-- A row leaves its value in the reverse index. -/
theorem Reverse.eraseRow (owns' : X → R → Prop) (h : Reverse rows values owns M n m ρ f)
    (hrowpath : rows.getPath rowId = .ok rowpath) (hM : M rowId = some value)
    (hleft : rows.deleteUsesLeft rowId = false) (hvalue : f value = some x)
    (hnew : ∀ r, owns' x r ↔ owns x r ∧ r ≠ rowId)
    (hold : ∀ a y, f a = some y → a ≠ value → ∀ r, owns' y r ↔ owns y r) :
    ∃ rows' n', rows.delete rowpath = .ok rows' ∧
      Reverse rows' values owns' (update M rowId none) n' m
        (update ρ rowId none) f := by
  obtain ⟨rows', n', hdel, hmaps⟩ := h.rowTree.delete hrowpath
    (by rw [h.located.same, hM]; rfl) hleft
  refine ⟨rows', n', hdel, hmaps, h.valueTree, h.located.erase fun r q a => ?_⟩
  constructor
  · rintro ⟨y, hy, ho⟩
    by_cases ha : a = value
    · subst ha
      obtain rfl : y = x := Option.some.inj ((mem_map_of_spot h.valueTree hy).symm.trans hvalue)
      exact ⟨⟨y, hy, ((hnew r).mp ho).1⟩, ((hnew r).mp ho).2⟩
    · have ho := (hold a y (mem_map_of_spot h.valueTree hy) ha r).mp ho
      refine ⟨⟨y, hy, ho⟩, ?_⟩
      rintro rfl
      exact ha (Option.some.inj ((h.label (mem_map_of_spot h.valueTree hy) ho).symm.trans hM))
  · rintro ⟨⟨y, hy, ho⟩, hr⟩
    by_cases ha : a = value
    · subst ha
      obtain rfl : y = x := Option.some.inj ((mem_map_of_spot h.valueTree hy).symm.trans hvalue)
      exact ⟨y, hy, (hnew r).mpr ⟨ho, hr⟩⟩
    · exact ⟨y, hy, (hold a y (mem_map_of_spot h.valueTree hy) ha r).mpr ho⟩

/-- **Excluding the last row of a value** keeps the row tree exact, if no
leaf of the value tree is left short. -/
theorem Reverse.eraseValue (owns' : X → R → Prop) (h : Reverse rows values owns M n m ρ f)
    (hrowpath : rows.getPath rowId = .ok rowpath) (hpath : values.getPath value = .ok path)
    (hM : M rowId = some value) (hleft : rows.deleteUsesLeft rowId = false)
    (hunder : values.underflows value = false)
    (honly : ∀ x r, f value = some x → owns x r → r = rowId)
    (hold : ∀ a y, f a = some y → a ≠ value → ∀ r, owns' y r ↔ owns y r) :
    ∃ rows' values' n', rows.delete rowpath = .ok rows' ∧ values.delete path = .ok values' ∧
      Reverse rows' values' owns' (update M rowId none) n' m
        (update ρ rowId none) (update f value none) := by
  obtain ⟨rows', n', hdel, hmaps⟩ := h.rowTree.delete hrowpath
    (by rw [h.located.same, hM]; rfl) hleft
  obtain ⟨x₀, hx₀, -⟩ := h.owned hM
  obtain ⟨values', hdel', hv', hspots⟩ := h.valueTree.delete_plain hpath
    (by rw [hx₀]; rfl) hunder
  refine ⟨rows', values', n', hdel, hdel', hmaps, hv', h.located.erase fun r q a => ?_⟩
  constructor
  · rintro ⟨y, hy, ho⟩
    obtain ⟨hy, ha⟩ := (hspots _ _).mp hy
    have ho := (hold a y (mem_map_of_spot h.valueTree hy) ha r).mp ho
    refine ⟨⟨y, hy, ho⟩, ?_⟩
    rintro rfl
    exact ha (Option.some.inj ((h.label (mem_map_of_spot h.valueTree hy) ho).symm.trans hM))
  · rintro ⟨⟨y, hy, ho⟩, hr⟩
    have hy' := mem_map_of_spot h.valueTree hy
    have ha : a ≠ value := by
      rintro rfl
      exact hr (honly y r hy' ho)
    exact ⟨y, (hspots _ _).mpr ⟨hy, ha⟩, (hold a y hy' ha r).mpr ho⟩

end Change

end Fastore.Index
