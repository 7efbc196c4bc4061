import Fastore.Buffer.Apply
import Fastore.Index.Inline
import Fastore.Lib.Runs

/-!
The columns of a database.

A column is kept in a buffer of one of four kinds. There are two models of it.
`Client.Column` takes the trees of its buffer as sorted maps, `Index.Column`
has their nodes in memory. As long as no exclude makes a tree move its
entries in one of the ways it does not get right (`Index.Column.good`), the
second does what the first does (`Refines.apply`, and for runs `Refines.run`):
it shows the same values (`Refines.getValue`), and takes or refuses the same
writes. So what is proved of sorted maps is true of the buffers in memory.

The value of a row of an identity column is the text of its row ID, `rowText`.
-/

namespace Fastore.Client

open Lib Buffer List

variable {R A : Type} [LinearOrder R] [LinearOrder A]

/-! ### Columns of the database -/

inductive Column (R A : Type) [LinearOrder R] [LinearOrder A]
  | identity (b : IdentityBuffer R)
  | uniqueInline (b : UniqueInlineBuffer R A)
  | unique (b : UniqueBuffer R A)
  | multi (b : TreeBuffer R A)

def applyIdentity (rowText : R → A) : IdentityBuffer R → List (Cell R A) →
    Except Tree.Fault (IdentityBuffer R)
  | b, [] => .ok b
  | b, cell :: cells =>
    if cell.value ≠ rowText cell.rowID then
      .error (.thrown "Identity buffer requires the rowId and value to be the same")
    else applyIdentity rowText (b.includeRow cell.rowID).1 cells

/-- What comes of the includes of an identity column: they are taken if every value is
the text of its row, and refused otherwise. -/
def Identified {B : Type} (rowText : R → A) (Rep : B → (R → Option R) → Prop) (N : R → Option R)
    (cells : List (Cell R A)) (x : Except Tree.Fault B) : Prop :=
  (∃ b, x = .ok b ∧
    Rep b ((cells.map fun cell => (⟨cell.rowID, cell.rowID⟩ : Cell R R)).foldl (put False) N)) ∧
      (∀ cell ∈ cells, cell.value = rowText cell.rowID) ∨
  x = .error (.thrown "Identity buffer requires the rowId and value to be the same") ∧
    ∃ cell ∈ cells, cell.value ≠ rowText cell.rowID

omit [LinearOrder A] in
theorem identified {B : Type} {rowText : R → A} {Rep : B → (R → Option R) → Prop}
    (run : B → List (Cell R A) → Except Tree.Fault B) (hnil : ∀ b, run b [] = .ok b)
    (hstep : ∀ b N cell cells, Rep b N → cell.value = rowText cell.rowID →
      ∃ b', run b (cell :: cells) = run b' cells ∧ Rep b' (put False N ⟨cell.rowID, cell.rowID⟩))
    (hbad : ∀ b cell cells, cell.value ≠ rowText cell.rowID → run b (cell :: cells) =
      .error (.thrown "Identity buffer requires the rowId and value to be the same"))
    {b : B} {N : R → Option R} (hb : Rep b N) (cells : List (Cell R A)) :
    Identified rowText Rep N cells (run b cells) := by
  induction cells generalizing b N with
  | nil => exact .inl ⟨⟨b, hnil b, hb⟩, fun cell h => by simp at h⟩
  | cons cell cells ih =>
    by_cases hcell : cell.value = rowText cell.rowID
    · obtain ⟨b', hrun, hb'⟩ := hstep b N cell cells hb hcell
      rw [hrun]
      rcases ih hb' with ⟨hok, hall⟩ | ⟨hf, c, hc⟩
      · exact .inl ⟨hok, forall_mem_cons.mpr ⟨hcell, hall⟩⟩
      · exact .inr ⟨hf, c, mem_cons_of_mem _ hc.1, hc.2⟩
    · exact .inr ⟨hbad b cell cells hcell, cell, mem_cons_self, hcell⟩

theorem applyIdentity_spec (rowText : R → A) {b : IdentityBuffer R} {N : R → Option R}
    (hN : b.Holds N) (cells : List (Cell R A)) :
    Identified rowText IdentityBuffer.Holds N cells (applyIdentity rowText b cells) := by
  refine identified _ (fun _ => rfl) (fun b N cell cells hb hcell => ?_)
    (fun b cell cells hcell => ?_) hN cells
  · exact ⟨_, by rw [applyIdentity, if_neg (not_not.mpr hcell)],
      hb.includeRow rfl⟩
  · rw [applyIdentity, if_pos hcell]

namespace Column

def getValue (rowText : R → A) : Column R A → R → Except Tree.Fault (Option A)
  | identity b, rowId => .ok ((b.getValue rowId).map rowText)
  | uniqueInline b, rowId => UniqueInlineBuffer.getValue b rowId
  | unique b, rowId => UniqueBuffer.getValue b rowId
  | multi b, rowId => b.getValue rowId

def apply (rowText : R → A) : Column R A → ColumnWrites R A → Except Tree.Fault (Column R A)
  | identity b, writes => do
    let b ← applyIdentity rowText
      (writes.excludes.foldl (fun b rowId => (b.excludeRow rowId).1) b) writes.includes
    .ok (identity b)
  | uniqueInline b, writes => do
    let b ← UniqueInlineBuffer.apply b writes
    .ok (uniqueInline b)
  | unique b, writes => do
    let b ← UniqueBuffer.apply b writes
    .ok (unique b)
  | multi b, writes => do
    let b ← b.apply writes
    .ok (multi b)

/-- The column holds the cells `M`. -/
def Holds (rowText : R → A) : Column R A → (R → Option A) → Prop
  | identity b, M => ∃ N, b.Holds N ∧ M = fun r => (N r).map rowText
  | uniqueInline b, M => UniqueIndex.Holds id b M
  | unique b, M => UniqueIndex.Holds (fun _ => ()) b M
  | multi b, M => b.Holds M

variable {rowText : R → A} {col : Column R A} {M M' : R → Option A}

theorem getValue_eq (h : col.Holds rowText M) (r : R) : col.getValue rowText r = .ok (M r) := by
  cases col with
  | identity b =>
    obtain ⟨N, hN, rfl⟩ := h
    have hrow := hN.rows r
    simp only [Column.getValue, IdentityBuffer.getValue, getPath_snd, hrow]
    cases hr : N r with
    | none => rfl
    | some a => simp [hN.own r a hr]
  | uniqueInline b => exact UniqueInlineBuffer.getValue_eq h r
  | unique b => exact UniqueBuffer.getValue_eq h r
  | multi b => exact TreeBuffer.getValue_eq h r

theorem holds_of_apply {col' : Column R A} {writes : ColumnWrites R A} (hM : col.Holds rowText M)
    (hok : col.apply rowText writes = .ok col') : ∃ M', col'.Holds rowText M' := by
  cases col with
  | identity b =>
    obtain ⟨N, hN, rfl⟩ := hM
    obtain ⟨b', hb', rfl⟩ := eq_ok_of_map hok
    rcases applyIdentity_spec rowText (hN.foldl_excludeRow writes.excludes) writes.includes with
      ⟨⟨b₁, hb₁, hholds⟩, -⟩ | ⟨hf, -⟩
    · obtain rfl := ok_unique hb₁ hb'
      exact ⟨_, _, hholds, rfl⟩
    · exact absurd (hf.symm.trans hb') (by simp)
  | uniqueInline b =>
    obtain ⟨b', hb', rfl⟩ := eq_ok_of_map hok
    obtain ⟨b₁, hb₁, hholds⟩ := UniqueInlineBuffer.apply_holds hM writes
    obtain rfl := ok_unique hb₁ hb'
    exact ⟨_, hholds⟩
  | unique b =>
    obtain ⟨b', hb', rfl⟩ := eq_ok_of_map hok
    obtain ⟨b₁, hb₁, hholds⟩ := UniqueBuffer.apply_holds hM writes
    obtain rfl := ok_unique hb₁ hb'
    exact ⟨_, hholds⟩
  | multi b =>
    obtain ⟨b', hb', rfl⟩ := eq_ok_of_map hok
    obtain ⟨b₁, hb₁, hholds⟩ := TreeBuffer.apply_holds hM writes
    obtain rfl := ok_unique hb₁ hb'
    exact ⟨_, hholds⟩

end Column

end Fastore.Client

namespace Fastore.Index

open Fastore.Tree Buffer Lib List

variable {R A : Type} [LinearOrder R] [LinearOrder A]

/-! ### Columns in memory -/

inductive Column (R A : Type) [LinearOrder R] [LinearOrder A]
  | identity (b : IdentityBuffer R)
  | uniqueInline (b : UniqueInlineBuffer R A)
  | unique (b : UniqueBuffer R A)
  | multi (b : TreeBuffer R A)

/-- The types of the rows and of the values, and what the arrays of a new tree happen to hold. -/
class Memory (R A : Type) [LinearOrder R] [LinearOrder A] where
  rowType : ScalarType R
  valueType : ScalarType A
  rawRows : TreeId → NodeId → ℕ → R
  rawValues : NodeId → ℕ → A
  rawNodes : TreeId → NodeId → ℕ → NodeId

namespace Memory

variable (memory : Memory R A)

def newIdentity : IdentityBuffer R where
  rows := BTree.new memory.rowType true (memory.rawRows 0) (memory.rawRows 0) (memory.rawNodes 0)
  count := 0

def newUniqueInline : UniqueInlineBuffer R A where
  rowType := memory.rowType
  rows := BTree.new memory.rowType false (memory.rawRows 0) memory.rawValues (memory.rawNodes 0)
  values := BTree.new memory.valueType false memory.rawValues (memory.rawRows 0) (memory.rawNodes 0)
  count := 0

def newUnique : UniqueBuffer R A :=
  .new memory.rowType memory.valueType (memory.rawRows 0) (memory.rawNodes 0) (memory.rawNodes 0)
    memory.rawValues

def newTree : TreeBuffer R A :=
  .new memory.rowType memory.valueType memory.rawRows (memory.rawNodes 0) (memory.rawNodes 0)
    memory.rawNodes memory.rawValues

end Memory

namespace Column

def getValue (rowText : R → A) : Column R A → R → Except Fault (Option A)
  | identity b, rowId => do
    let value ← b.getValue rowId
    .ok (value.map rowText)
  | uniqueInline b, rowId => b.getValue rowId
  | unique b, rowId => b.getValue rowId
  | multi b, rowId => b.getValue rowId

def write (rowText : R → A) : Column R A → Write R A → Except Fault (Column R A)
  | identity b, w => do
    let b ← b.write rowText w
    .ok (identity b)
  | uniqueInline b, w => do
    let b ← b.write w
    .ok (uniqueInline b)
  | unique b, w => do
    let b ← b.write w
    .ok (unique b)
  | multi b, w => do
    let b ← b.write w
    .ok (multi b)

def apply (rowText : R → A) (col : Column R A) (writes : ColumnWrites R A) :
    Except Fault (Column R A) :=
  (writesOf writes).foldlM (write rowText) col

def good : Column R A → Write R A → Bool
  | identity b, w => b.good w
  | uniqueInline b, w => b.good w
  | unique b, w => b.good w
  | multi b, w => b.good w

def takes (rowText : R → A) (col : Column R A) (writes : ColumnWrites R A) : Bool :=
  guarded (write rowText) good col (writesOf writes)

/-- The column has the cells `M`, and its trees are as they should be. -/
def Exact (rowText : R → A) : Column R A → (R → Option A) → Prop
  | identity b, M => ∃ N, b.Exact N ∧ M = fun r => (N r).map rowText
  | uniqueInline b, M => b.Exact M
  | unique b, M => b.Exact M
  | multi b, M => b.Exact M

inductive Refines : Column R A → Client.Column R A → Prop
  | identity {b : IdentityBuffer R} {b' : Buffer.IdentityBuffer R} {N : R → Option R} :
    b.Exact N → b'.Holds N → Refines (.identity b) (.identity b')
  | uniqueInline {b : UniqueInlineBuffer R A} {b' : Buffer.UniqueInlineBuffer R A}
    {M : R → Option A} : b.Exact M → UniqueIndex.Holds id b' M →
      Refines (.uniqueInline b) (.uniqueInline b')
  | unique {b : UniqueBuffer R A} {b' : Buffer.UniqueBuffer R A} {M : R → Option A} :
    b.Exact M → UniqueIndex.Holds (fun _ => ()) b' M → Refines (.unique b) (.unique b')
  | multi {b : TreeBuffer R A} {b' : Buffer.TreeBuffer R A} {M : R → Option A} :
    b.Exact M → b'.Holds M → Refines (.multi b) (.multi b')

variable {rowText : R → A} {col : Column R A} {col' : Client.Column R A}

variable {M M' : R → Option A}

theorem Exact.getValue (h : col.Exact rowText M) (r : R) : col.getValue rowText r = .ok (M r) := by
  cases col with
  | identity b =>
    obtain ⟨N, hN, rfl⟩ := h
    simp only [Column.getValue, hN.getValue, bind, Except.bind]
  | uniqueInline b => exact UniqueInlineBuffer.Exact.getValue h r
  | unique b => exact UniqueBuffer.Exact.getValue h r
  | multi b => exact TreeBuffer.Exact.getValue h r

theorem Refines.getValue (h : Refines col col') (r : R) :
    col.getValue rowText r = col'.getValue rowText r := by
  obtain ⟨M, hM, hM'⟩ : ∃ M, col.Exact rowText M ∧ col'.Holds rowText M := by
    cases h with
    | identity hb hb' => exact ⟨_, ⟨_, hb, rfl⟩, _, hb', rfl⟩
    | uniqueInline hb hb' => exact ⟨_, hb, hb'⟩
    | unique hb hb' => exact ⟨_, hb, hb'⟩
    | multi hb hb' => exact ⟨_, hb, hb'⟩
  rw [hM.getValue, Client.Column.getValue_eq hM']

/-- The writes to a column are the writes to its buffer. -/
theorem foldlM_wrap {B : Type} (wrap : B → Column R A) (write' : B → Write R A → Except Fault B)
    (good' : B → Write R A → Bool)
    (hwrite : ∀ b w, write rowText (wrap b) w = (write' b w >>= fun b => .ok (wrap b)))
    (hgood : ∀ b w, good (wrap b) w = good' b w) (ws : List (Write R A)) (b : B) :
    ws.foldlM (write rowText) (wrap b) = (ws.foldlM write' b >>= fun b => .ok (wrap b)) ∧
      guarded (write rowText) good (wrap b) ws = guarded write' good' b ws := by
  induction ws generalizing b with
  | nil => exact ⟨rfl, rfl⟩
  | cons w ws ih =>
    simp only [foldlM_cons, guarded, hwrite, hgood]
    cases write' b w with
    | error f => exact ⟨rfl, rfl⟩
    | ok b₁ => exact ⟨(ih b₁).1, congrArg (good' b w && ·) (ih b₁).2⟩

variable {writes : ColumnWrites R A}

/-- A column that shows the cells of its buffer takes the writes as they are applied to cells. -/
theorem apply_of_exact {B : Type} {wrap : B → Column R A} {write' : B → Write R A → Except Fault B}
    {good' : B → Write R A → Bool} {unique : Prop} {Exact : B → (R → Option A) → Prop}
    {M : R → Option A} {b : B}
    (hwrite : ∀ b w, write rowText (wrap b) w = (write' b w >>= fun b => .ok (wrap b)))
    (hgood : ∀ b w, good (wrap b) w = good' b w)
    (hexact : ∀ b M w, Exact b M → good' b w = true →
      ∃ b', write' b w = .ok b' ∧ Exact b' (afterWrite unique M w))
    (hb : Exact b M) (htakes : takes rowText (wrap b) writes = true) :
    ∃ b', apply rowText (wrap b) writes = .ok (wrap b') ∧ Exact b' (applyTo unique M writes) := by
  obtain ⟨hrun, hguarded⟩ := foldlM_wrap _ _ _ hwrite hgood (writesOf writes) b
  rw [takes, hguarded] at htakes
  obtain ⟨b', hb', hM⟩ := foldlM_of_guarded hexact _ hb htakes
  refine ⟨b', ?_, foldl_writesOf M writes ▸ hM⟩
  rw [Column.apply, hrun, hb']
  rfl

section Kinds

variable {M : R → Option A} {writes : ColumnWrites R A}

theorem apply_uniqueInline {b : UniqueInlineBuffer R A} (hb : b.Exact M)
    (htakes : takes rowText (.uniqueInline b) writes = true) :
    ∃ b', apply rowText (.uniqueInline b) writes = .ok (.uniqueInline b') ∧
      b'.Exact (applyTo True M writes) :=
  apply_of_exact (fun _ _ => rfl) (fun _ _ => rfl) UniqueInlineBuffer.write_exact hb htakes

theorem apply_unique {b : UniqueBuffer R A} (hb : b.Exact M)
    (htakes : takes rowText (.unique b) writes = true) :
    ∃ b', apply rowText (.unique b) writes = .ok (.unique b') ∧
      b'.Exact (applyTo True M writes) :=
  apply_of_exact (fun _ _ => rfl) (fun _ _ => rfl) UniqueBuffer.write_exact hb htakes

theorem apply_multi {b : TreeBuffer R A} (hb : b.Exact M)
    (htakes : takes rowText (.multi b) writes = true) :
    ∃ b', apply rowText (.multi b) writes = .ok (.multi b') ∧
      b'.Exact (applyTo False M writes) :=
  apply_of_exact (fun _ _ => rfl) (fun _ _ => rfl) TreeBuffer.write_exact hb htakes

end Kinds

theorem foldlM_exclude {b : IdentityBuffer R} {N : R → Option R} (hb : b.Exact N) (rowIds : List R)
    (hguarded : guarded (IdentityBuffer.write rowText) IdentityBuffer.good b
      (rowIds.map .exclude) = true) :
    ∃ b', (rowIds.map .exclude).foldlM (IdentityBuffer.write rowText) b = .ok b' ∧
      b'.Exact (rowIds.foldl remove N) := by
  induction rowIds generalizing b N with
  | nil => exact ⟨b, rfl, hb⟩
  | cons rowId rowIds ih =>
    rw [map_cons, guarded, Bool.and_eq_true] at hguarded
    obtain ⟨b₁, removed, hop, hb₁⟩ := hb.excludeRow hguarded.1
    have hwrite : b.write rowText (.exclude rowId) = .ok b₁ := by
      simp only [IdentityBuffer.write, hop, bind, Except.bind]
    rw [hwrite] at hguarded
    obtain ⟨b', hrun, hb'⟩ := ih hb₁ hguarded.2
    refine ⟨b', ?_, hb'⟩
    rw [map_cons, foldlM_cons, hwrite]
    exact hrun

/-- The writes to an identity column in memory. -/
theorem apply_identity {b : IdentityBuffer R} {N : R → Option R} (hb : b.Exact N)
    (htakes : takes rowText (.identity b) writes = true) :
    ∃ x, apply rowText (.identity b) writes = (x >>= fun b => .ok (.identity b)) ∧
      Client.Identified rowText IdentityBuffer.Exact (writes.excludes.foldl remove N)
        writes.includes x := by
  obtain ⟨hrun, hguarded⟩ := foldlM_wrap Column.identity
    (IdentityBuffer.write rowText) IdentityBuffer.good (fun _ _ => rfl) (fun _ _ => rfl)
    (writesOf writes) b
  rw [takes, hguarded, writesOf] at htakes
  obtain ⟨b₁, hrun₁, hb₁⟩ := foldlM_exclude hb writes.excludes (guarded_append htakes)
  refine ⟨(writes.includes.map .put).foldlM (IdentityBuffer.write rowText) b₁, ?_, ?_⟩
  · rw [Column.apply, hrun, writesOf, foldlM_append, hrun₁]
    rfl
  · refine Client.identified (fun b cells =>
      (cells.map .put).foldlM (IdentityBuffer.write rowText) b) (fun _ => rfl)
      (fun b N cell cells hb hcell => ?_) (fun b cell cells hcell => ?_) hb₁ writes.includes
    · obtain ⟨b', added, hop, hb'⟩ := hb.includeRow cell.rowID
      refine ⟨b', ?_, hb'⟩
      simp only [map_cons, foldlM_cons, IdentityBuffer.write, hcell, ne_eq, not_true_eq_false,
        if_false, hop, bind, Except.bind]
    · simp only [map_cons, foldlM_cons, IdentityBuffer.write, hcell, ne_eq, not_false_eq_true,
        if_true, bind, Except.bind]

variable (rowText) in
theorem takes_multi (b : TreeBuffer R A) (writes : ColumnWrites R A) :
    takes rowText (.multi b) writes = b.takes writes :=
  (foldlM_wrap _ _ _ (fun _ _ => rfl) (fun _ _ => rfl) (writesOf writes) b).2

/-- **Refinement**: a column in memory that takes the writes does with them what a column
of sorted maps does. -/
theorem Refines.apply (h : Refines col col') (htakes : col.takes rowText writes = true) :
    Agree Refines (col.apply rowText writes) (col'.apply rowText writes) := by
  cases h with
  | @identity b b' N hb hb' =>
    obtain ⟨x, hx, hspec⟩ := apply_identity hb htakes
    have hspec' := Client.applyIdentity_spec rowText (hb'.foldl_excludeRow writes.excludes)
      writes.includes
    rw [hx, Client.Column.apply]
    rcases hspec with ⟨⟨b₁, rfl, hb₁⟩, hall⟩ | ⟨rfl, cell, hcell, hne⟩
    · rcases hspec' with ⟨⟨b₁', hb₁', hholds⟩, -⟩ | ⟨-, cell, hcell, hne⟩
      · rw [hb₁']
        exact .ok (.identity hb₁ hholds)
      · exact absurd (hall cell hcell) hne
    · rcases hspec' with ⟨-, hall⟩ | ⟨hf, -⟩
      · exact absurd (hall cell hcell) hne
      · rw [hf]
        exact .error _
  | @uniqueInline b b' M hb hb' =>
    obtain ⟨b₁, hok, hb₁⟩ := apply_uniqueInline hb htakes
    obtain ⟨b₁', hok', hb₁'⟩ := Buffer.UniqueInlineBuffer.apply_holds hb' writes
    rw [hok, Client.Column.apply, hok']
    exact .ok (.uniqueInline hb₁ hb₁')
  | @unique b b' M hb hb' =>
    obtain ⟨b₁, hok, hb₁⟩ := apply_unique hb htakes
    obtain ⟨b₁', hok', hb₁'⟩ := Buffer.UniqueBuffer.apply_holds hb' writes
    rw [hok, Client.Column.apply, hok']
    exact .ok (.unique hb₁ hb₁')
  | @multi b b' M hb hb' =>
    obtain ⟨b₁, hok, hb₁⟩ := apply_multi hb htakes
    obtain ⟨b₁', hok', hb₁'⟩ := Buffer.TreeBuffer.apply_holds hb' writes
    rw [hok, Client.Column.apply, hok']
    exact .ok (.multi hb₁ hb₁')

/-- **Refinement of runs**: through every run of guarded writes the two columns stay in step,
and the first write that one refuses is the first that the other refuses. -/
theorem Refines.run {ws : List (ColumnWrites R A)} (h : Refines col col')
    (hguarded : guarded (Column.apply rowText) (takes rowText) col ws = true) :
    Agree Refines (ws.foldlM (Column.apply rowText) col)
      (ws.foldlM (Client.Column.apply rowText) col') := by
  induction ws generalizing col col' with
  | nil => exact .ok h
  | cons writes ws ih =>
    obtain ⟨htakes, hrest⟩ := Bool.and_eq_true_iff.mp hguarded
    have hstep := h.apply htakes
    rw [foldlM_cons, foldlM_cons]
    generalize col.apply rowText writes = x, col'.apply rowText writes = y at hstep hrest ⊢
    cases hstep with
    | ok h₁ => exact ih h₁ hrest
    | error fault => exact .error fault

end Column

end Fastore.Index
