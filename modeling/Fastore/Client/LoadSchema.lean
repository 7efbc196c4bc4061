import Fastore.Client.Pages
import Fastore.Hive.Worker
import Fastore.Lib.Loops

/-!
Loading the schema.

Both clients read the `Column` table in pages and stop at a page that is not
limited. A page is limited if it is full, so a schema that fills its last page
takes one more turn, with an empty page.

The C++ client asks for the page behind the last row it has got, and gets through
the table (`loadSchema_ends`). The C# client asks for the first page in every
turn. It is done if that page is all there is, and adds a column twice otherwise,
which a dictionary refuses (`Alphora.loadSchema_throws`).
-/

namespace Fastore.Client

open Lib Buffer List
open Hive (ColumnDef BufferType Formats)

variable {R A : Type}

/-! ### The C++ client -/

def maxFetchLimit : ℕ := 500

abbrev Schema := SortedMap ColumnID ColumnDef

abbrev GetRange (R A : Type) :=
  List ColumnID → Range A → ℤ → Option R → Except Fault (Page R A)

def schemaRange : Range A := { columnID := Hive.columnID, ascending := true }

def DataSetRow.value (row : DataSetRow R A) (i : ℕ) : Except Fault (Option A) :=
  match row.values[i]? with
  | some value => .ok value
  | none => .error .outOfRange

/-- The definition in a row of the `Column` table. A text that is not set is empty, and
its first byte is zero; the four bytes of a number that is not set are not there. -/
def readDef (f : Formats R A) (column : DataSetRow R A) : Except Fault ColumnDef := do
  let name ← column.value 1
  let valueType ← column.value 2
  let rowIDType ← column.value 3
  let bufferType ← column.value 4
  let required ← column.value 5
  match bufferType with
  | none => .error .noValue
  | some bufferType =>
    .ok ⟨f.columnOf (f.rowText column.ID), (name.map f.text).getD "",
      (valueType.map f.text).getD "", (rowIDType.map f.text).getD "", f.bufferType bufferType,
      (required.map f.bool).getD false⟩

/-- `schema.insert`, which keeps a definition that is there. -/
def loadColumn (f : Formats R A) (schema : Schema) (column : DataSetRow R A) :
    Except Fault Schema := do
  let columnDef ← readDef f column
  .ok (insertNew schema columnDef.columnID columnDef)

/-- A turn of the loop of `LoadSchema`, with the schema so far and `startId`. -/
def loadSchema (f : Formats R A) (getRange : GetRange R A) :
    Loop (Schema × Option R) (Except Fault Schema) := fun (schema, startId) =>
  match getRange columnColumns schemaRange maxFetchLimit startId with
  | .error fault => .inr (.error fault)
  | .ok columns =>
    match columns.data.foldlM (fun schema column => loadColumn f schema column.toDataSetRow)
        schema with
    | .error fault => .inr (.error fault)
    | .ok schema =>
      if columns.limited then .inl (schema, (columns.data.getLast?.map (·.ID)).or startId)
      else .inr (.ok schema)

/-! ### The C# client -/

namespace Alphora

def columnColumns : List ColumnID := [0, 1, 2, 3, 4]

/-- The `ColumnDef` of the C# client. A text may be null. -/
structure ColumnDef where
  columnID : ColumnID
  name : Option String
  type : Option String
  idType : Option String
  bufferType : BufferType
  deriving DecidableEq, Repr

abbrev Schema := SortedMap ColumnID ColumnDef

def readDef (f : Formats R A) (column : DataSetRow R A) : Except Fault ColumnDef := do
  let id ← column.value 0
  let name ← column.value 1
  let type ← column.value 2
  let idType ← column.value 3
  let bufferType ← column.value 4
  match id, bufferType with
  | some id, some bufferType =>
    .ok ⟨f.columnOf id, name.map f.text, type.map f.text, idType.map f.text,
      f.bufferType bufferType⟩
  | _, _ => .error .noValue

/-- `schema.Add`, which refuses a key that is there. -/
def loadColumn (f : Formats R A) (schema : Schema) (column : DataSetRow R A) :
    Except Fault Schema := do
  let columnDef ← readDef f column
  if (schema.get? columnDef.columnID).isSome then
    .error (.thrown "An item with the same key has already been added.")
  else .ok (schema.insert columnDef.columnID columnDef)

/-- A turn of the loop of `LoadSchema`. There is no start row. -/
def loadSchema (f : Formats R A) (getRange : GetRange R A) :
    Loop Schema (Except Fault Schema) := fun schema =>
  match getRange columnColumns schemaRange maxFetchLimit none with
  | .error fault => .inr (.error fault)
  | .ok columns =>
    match columns.data.foldlM (fun schema column => loadColumn f schema column.toDataSetRow)
        schema with
    | .error fault => .inr (.error fault)
    | .ok schema => if columns.limited then .inl schema else .inr (.ok schema)

def ofDef (columnDef : Hive.ColumnDef) : ColumnDef :=
  ⟨columnDef.columnID, some columnDef.name, some columnDef.valueTypeName,
    some columnDef.rowIDTypeName, columnDef.bufferType⟩

end Alphora

/-! ### The table and its pages -/

structure Reads (f : Formats R A) : Prop where
  columnOf : ∀ id, f.columnOf (f.columnText id) = id
  text : ∀ s, f.text (f.nameText s) = s
  bufferType : ∀ t, f.bufferType (f.bufferText t) = t
  bool : ∀ b, f.bool (f.boolText b) = b

structure Catalog where
  schema : Schema
  named : ∀ e ∈ schema.entries, e.2.columnID = e.1

def schemaRow (f : Formats R A) (n : ℕ) (e : ColumnID × ColumnDef) : DataSetRow R A :=
  ⟨f.columnRow e.1, ((Hive.Worker.schemaValues f e.2).map fun value => some value.2).take n⟩

/-- The page has the first `n` rows, and is limited if these are as many. -/
structure Page.Has (page : Page R A) (rows : List (DataSetRow R A)) (n : ℕ) : Prop where
  rows : page.data.map PageRow.toDataSetRow = rows.take n
  limited : page.limited = true ↔ page.data.length = n

/-- The rows are served with heed to the limit and to the start row. -/
structure Honours (getRange : GetRange R A) (columnIds : List ColumnID) (range : Range A)
    (rows : List (DataSetRow R A)) : Prop where
  first : ∀ n : ℕ, 1 ≤ n → ∃ page, getRange columnIds range n none = .ok page ∧ page.Has rows n
  next : ∀ n : ℕ, 1 ≤ n → ∀ P row Q, rows = P ++ row :: Q →
    ∃ page, getRange columnIds range n (some row.ID) = .ok page ∧ page.Has Q n

theorem Page.Has.limited_iff {page : Page R A} {rows : List (DataSetRow R A)} {n : ℕ}
    (h : page.Has rows n) : page.limited = true ↔ n ≤ rows.length := by
  have hlength := congrArg List.length h.rows
  rw [length_map, length_take] at hlength
  rw [h.limited, hlength]
  omega

/-! ### Loading rows -/

section Load

variable {f : Formats R A} {D : Type}

def Loaded (g : ColumnDef → D) (schema : SortedMap ColumnID D)
    (entries : List (ColumnID × ColumnDef)) : Prop :=
  ∀ id d, schema.get? id = some d ↔ ∃ columnDef, (id, columnDef) ∈ entries ∧ g columnDef = d

theorem loaded_nil (g : ColumnDef → D) : Loaded g .empty [] := by
  intro id d
  simp

theorem Loaded.get?_eq_none {g : ColumnDef → D} {schema : SortedMap ColumnID D}
    {entries : List (ColumnID × ColumnDef)} (h : Loaded g schema entries) {id : ColumnID}
    (hid : id ∉ entries.map Prod.fst) : schema.get? id = none := by
  rw [Option.eq_none_iff_forall_not_mem]
  intro d hd
  obtain ⟨columnDef, hmem, -⟩ := (h id d).mp hd
  exact hid (mem_map_of_mem hmem)

theorem Loaded.foldlM {g : ColumnDef → D} (row : ColumnID × ColumnDef → DataSetRow R A)
    (step : SortedMap ColumnID D → DataSetRow R A → Except Fault (SortedMap ColumnID D))
    {new : List (ColumnID × ColumnDef)}
    (hstep : ∀ schema, ∀ e ∈ new, schema.get? e.1 = none →
      step schema (row e) = .ok (schema.insert e.1 (g e.2)))
    {schema : SortedMap ColumnID D} {old : List (ColumnID × ColumnDef)}
    (h : Loaded g schema old) (hnodup : ((old ++ new).map Prod.fst).Nodup) :
    ∃ schema', (new.map row).foldlM step schema = .ok schema' ∧ Loaded g schema' (old ++ new) := by
  induction new generalizing schema old with
  | nil => exact ⟨schema, rfl, by rwa [append_nil]⟩
  | cons e new ih =>
    have hfresh : e.1 ∉ old.map Prod.fst := by
      rw [map_append, nodup_append] at hnodup
      exact fun hmem => hnodup.2.2 e.1 hmem e.1 (by simp) rfl
    have hget := h.get?_eq_none hfresh
    have hnext : Loaded g (schema.insert e.1 (g e.2)) (old ++ [e]) := by
      intro id d
      rw [SortedMap.get?_insert]
      by_cases hid : id = e.1
      · subst hid
        rw [if_pos rfl]
        constructor
        · intro hd
          exact ⟨e.2, by simp, Option.some.inj hd⟩
        · rintro ⟨columnDef, hmem, rfl⟩
          rcases mem_append.mp hmem with hmem | hmem
          · exact absurd (mem_map_of_mem hmem) hfresh
          · rw [← mem_singleton.mp hmem]
      · rw [if_neg hid, h id d]
        constructor
        · rintro ⟨columnDef, hmem, hd⟩
          exact ⟨columnDef, mem_append_left _ hmem, hd⟩
        · rintro ⟨columnDef, hmem, hd⟩
          rcases mem_append.mp hmem with hmem | hmem
          · exact ⟨columnDef, hmem, hd⟩
          · exact absurd (congrArg Prod.fst (mem_singleton.mp hmem)) hid
    obtain ⟨schema', hrun, hloaded⟩ := ih
      (fun schema e' he' => hstep schema e' (mem_cons_of_mem _ he')) hnext
      (by rwa [append_assoc, singleton_append])
    refine ⟨schema', ?_, by rwa [append_assoc, singleton_append] at hloaded⟩
    rw [map_cons, foldlM_cons, hstep schema e mem_cons_self hget]
    exact hrun

theorem readDef_schemaRow (hf : Reads f) {e : ColumnID × ColumnDef} (he : e.2.columnID = e.1) :
    readDef f (schemaRow f 6 e) = .ok e.2 := by
  obtain ⟨id, columnDef⟩ := e
  obtain rfl : columnDef.columnID = id := he
  simp [readDef, schemaRow, Hive.Worker.schemaValues, DataSetRow.value, bind, Except.bind,
    f.rowText_columnRow, hf.columnOf, hf.text, hf.bufferType, hf.bool]

theorem Alphora.readDef_schemaRow (hf : Reads f) (e : ColumnID × Hive.ColumnDef) :
    Alphora.readDef f (schemaRow f 5 e) = .ok (ofDef e.2) := by
  simp [Alphora.readDef, schemaRow, Hive.Worker.schemaValues, DataSetRow.value, bind, Except.bind,
    ofDef, hf.columnOf, hf.text, hf.bufferType]

variable {schema : Schema}

theorem loadColumn_new (hf : Reads f) {e : ColumnID × ColumnDef} (he : e.2.columnID = e.1)
    (hnew : schema.get? e.1 = none) :
    loadColumn f schema (schemaRow f 6 e) = .ok (schema.insert e.1 e.2) := by
  rw [loadColumn, readDef_schemaRow hf he]
  simp only [bind, Except.bind, he, insertNew_of_none hnew]

theorem Alphora.loadColumn_new (hf : Reads f) {schema : Alphora.Schema}
    {e : ColumnID × Hive.ColumnDef} (he : e.2.columnID = e.1) (hnew : schema.get? e.1 = none) :
    Alphora.loadColumn f schema (schemaRow f 5 e) = .ok (schema.insert e.1 (ofDef e.2)) := by
  rw [Alphora.loadColumn, Alphora.readDef_schemaRow hf]
  simp only [bind, Except.bind, ofDef, he, hnew, Option.isSome_none, Bool.false_eq_true, if_false]

theorem Alphora.loadColumn_again (hf : Reads f) {schema : Alphora.Schema} {d : Alphora.ColumnDef}
    {e : ColumnID × Hive.ColumnDef} (he : e.2.columnID = e.1) (hold : schema.get? e.1 = some d) :
    Alphora.loadColumn f schema (schemaRow f 5 e) =
      .error (.thrown "An item with the same key has already been added.") := by
  rw [Alphora.loadColumn, Alphora.readDef_schemaRow hf]
  simp only [bind, Except.bind, ofDef, he, hold, Option.isSome_some, if_true]

/-! ### The loops -/

variable {getRange : GetRange R A} {columnIds : List ColumnID} {range : Range A}
  {catalog : Catalog}

def Catalog.rows (catalog : Catalog) (f : Formats R A) (n : ℕ) : List (DataSetRow R A) :=
  catalog.schema.entries.map (schemaRow f n)

def lastID (rows : List (DataSetRow R A)) : Option R := rows.getLast?.map (·.ID)

theorem Honours.page {rows P Q : List (DataSetRow R A)} (h : Honours getRange columnIds range rows)
    (hrows : rows = P ++ Q) {n : ℕ} (hn : 1 ≤ n) :
    ∃ page, getRange columnIds range n (lastID P) = .ok page ∧ page.Has Q n := by
  rcases P.eq_nil_or_concat' with rfl | ⟨P, row, rfl⟩
  · rw [nil_append] at hrows
    rw [← hrows]
    exact h.first n hn
  · rw [lastID, getLast?_concat]
    refine h.next n hn P row Q ?_
    rw [hrows, append_assoc, singleton_append]

/-- One page of the schema. -/
theorem loadSchema_turn (hf : Reads f)
    (hget : Honours getRange columnColumns schemaRange (catalog.rows f 6))
    {old rest : List (ColumnID × ColumnDef)} (hsplit : catalog.schema.entries = old ++ rest)
    (hloaded : Loaded id schema old) :
    ∃ schema', Loaded id schema' (old ++ rest.take maxFetchLimit) ∧
      loadSchema f getRange (schema, lastID (old.map (schemaRow f 6))) =
        if maxFetchLimit ≤ rest.length then
          .inl (schema', lastID ((old ++ rest.take maxFetchLimit).map (schemaRow f 6)))
        else .inr (.ok schema') := by
  have hrows : catalog.rows f 6 = old.map (schemaRow f 6) ++ rest.map (schemaRow f 6) := by
    rw [Catalog.rows, hsplit, map_append]
  obtain ⟨page, hpage, hhas⟩ := hget.page hrows (n := maxFetchLimit) (by decide)
  have hkeys : ((old ++ rest.take maxFetchLimit).map Prod.fst).Nodup := by
    have hnodup : (catalog.schema.entries.map Prod.fst).Nodup := catalog.schema.keys_nodup
    rw [hsplit] at hnodup
    exact hnodup.sublist (((take_sublist _ _).append_left old).map _)
  obtain ⟨schema', hrun, hloaded'⟩ := hloaded.foldlM (schemaRow f 6)
    (loadColumn f) (fun schema e he hnew => loadColumn_new hf
      (catalog.named e (hsplit ▸ mem_append_right old (mem_of_mem_take he))) hnew) hkeys
  refine ⟨schema', hloaded', ?_⟩
  have hdata : page.data.map PageRow.toDataSetRow =
      (rest.take maxFetchLimit).map (schemaRow f 6) := by rw [hhas.rows, map_take]
  have hlast : (page.data.getLast?.map (·.ID)).or (lastID (old.map (schemaRow f 6))) =
      lastID ((old ++ rest.take maxFetchLimit).map (schemaRow f 6)) := by
    have hpageLast : page.data.getLast?.map (·.ID) =
        lastID (page.data.map PageRow.toDataSetRow) := by
      rw [lastID, getLast?_map, Option.map_map]
      rfl
    rw [hpageLast, hdata, lastID, lastID, lastID, ← Option.map_or, ← getLast?_append,
      map_append]
  have hlimited := hhas.limited_iff
  rw [length_map] at hlimited
  rw [← hdata, foldlM_map] at hrun
  simp only [loadSchema, hpage, hrun, hlast]
  exact if_congr hlimited rfl rfl

theorem Loaded.eq_schema (h : Loaded id schema catalog.schema.entries) :
    schema = catalog.schema := by
  refine SortedMap.ext_get? fun id => Option.ext fun d => ?_
  rw [h id d, SortedMap.get?_eq_some]
  exact ⟨fun ⟨columnDef, hmem, heq⟩ => heq ▸ hmem, fun hmem => ⟨d, hmem, rfl⟩⟩

/-- **The C++ client** gets the whole schema, however many pages it has. -/
theorem loadSchema_ends (hf : Reads f)
    (hget : Honours getRange columnColumns schemaRange (catalog.rows f 6)) :
    (loadSchema f getRange).Ends (.empty, none) (.ok catalog.schema) := by
  have hfrom : ∀ (n : ℕ) (old rest : List (ColumnID × ColumnDef)) (schema : Schema),
      rest.length = n → catalog.schema.entries = old ++ rest → Loaded id schema old →
      (loadSchema f getRange).Ends (schema, lastID (old.map (schemaRow f 6)))
        (.ok catalog.schema) := by
    intro n
    induction n using Nat.strong_induction_on with
    | _ n ih =>
      intro old rest schema hn hsplit hloaded
      obtain ⟨schema', hloaded', hturn⟩ := loadSchema_turn hf hget hsplit hloaded
      split_ifs at hturn with hfull
      · refine (Loop.ends_again hturn).mpr (ih (n - maxFetchLimit) ?_ _ (rest.drop maxFetchLimit)
          schema' ?_ ?_ hloaded')
        · have hpos : 0 < maxFetchLimit := by decide
          omega
        · rw [length_drop, hn]
        · rw [hsplit, append_assoc, take_append_drop]
      · refine (Loop.ends_done hturn).mpr ?_
        rw [take_of_length_le (by omega), ← hsplit] at hloaded'
        rw [hloaded'.eq_schema]
  exact hfrom _ [] catalog.schema.entries .empty rfl rfl (loaded_nil id)

namespace Alphora

theorem loadSchema_first (hf : Reads f)
    (hget : Honours getRange columnColumns schemaRange (catalog.rows f 5)) :
    ∃ schema, Loaded ofDef schema (catalog.schema.entries.take maxFetchLimit) ∧
      loadSchema f getRange .empty =
        if maxFetchLimit ≤ catalog.schema.size then .inl schema else .inr (.ok schema) := by
  obtain ⟨page, hpage, hhas⟩ := hget.first maxFetchLimit (by decide)
  have hkeys : (([] ++ catalog.schema.entries.take maxFetchLimit).map Prod.fst).Nodup :=
    catalog.schema.keys_nodup.sublist ((take_sublist _ _).map _)
  obtain ⟨schema, hrun, hloaded⟩ := (loaded_nil ofDef).foldlM (schemaRow f 5)
    (loadColumn f) (fun schema e he hnew => loadColumn_new hf
      (catalog.named e (mem_of_mem_take he)) hnew) hkeys
  refine ⟨schema, hloaded, ?_⟩
  have hlimited := hhas.limited_iff
  rw [Catalog.rows, length_map] at hlimited
  rw [map_take, ← Catalog.rows, ← hhas.rows, foldlM_map] at hrun
  simp only [loadSchema, hpage, hrun]
  exact if_congr hlimited rfl rfl

/-- **The C# client** ends with an exception if the first page is full. -/
theorem loadSchema_throws (hf : Reads f)
    (hget : Honours getRange columnColumns schemaRange (catalog.rows f 5))
    (hfull : maxFetchLimit ≤ catalog.schema.size) {result : Except Fault Schema} :
    (loadSchema f getRange).Ends .empty result ↔
      result = .error (.thrown "An item with the same key has already been added.") := by
  obtain ⟨schema, hloaded, hturn⟩ := loadSchema_first hf hget
  rw [if_pos hfull] at hturn
  rw [Loop.ends_again hturn]
  -- the first row of the page is there already
  obtain ⟨e, es, hentries⟩ : ∃ e es, catalog.schema.entries = e :: es := by
    refine exists_cons_of_length_pos (lt_of_lt_of_le ?_ hfull)
    decide
  have hhead : catalog.schema.entries.take maxFetchLimit = e :: es.take (maxFetchLimit - 1) := by
    rw [hentries]
    rfl
  have hold : schema.get? e.1 = some (ofDef e.2) :=
    (hloaded _ _).mpr ⟨e.2, by simp [hhead], rfl⟩
  have hagain := loadColumn_again hf (catalog.named e (by simp [hentries])) hold
  obtain ⟨page, hpage, hhas⟩ := hget.first maxFetchLimit (by decide)
  have hdata : page.data.map PageRow.toDataSetRow =
      schemaRow f 5 e :: (es.take (maxFetchLimit - 1)).map (schemaRow f 5) := by
    rw [hhas.rows, Catalog.rows, ← map_take, hhead, map_cons]
  refine Loop.ends_done ?_
  have hrun : page.data.foldlM (fun schema column => loadColumn f schema column.toDataSetRow)
      schema = .error (.thrown "An item with the same key has already been added.") := by
    rw [← foldlM_map, hdata, foldlM_cons, hagain]
    rfl
  simp only [loadSchema, hpage, hrun]

theorem loadSchema_ends (hf : Reads f)
    (hget : Honours getRange columnColumns schemaRange (catalog.rows f 5))
    (hsmall : catalog.schema.size < maxFetchLimit) :
    ∃ schema, (loadSchema f getRange).Ends .empty (.ok schema) ∧
      ∀ id, schema.get? id = (catalog.schema.get? id).map ofDef := by
  obtain ⟨schema, hloaded, hturn⟩ := loadSchema_first hf hget
  rw [if_neg (not_le.mpr hsmall)] at hturn
  refine ⟨schema, (Loop.ends_done hturn).mpr rfl, fun id => Option.ext fun d => ?_⟩
  rw [take_of_length_le (le_of_lt hsmall)] at hloaded
  rw [hloaded id d, Option.map_eq_some_iff]
  simp only [SortedMap.get?_eq_some]

end Alphora

structure LoadsSchema (f : Formats R A) (getRange : GetRange R A) (catalog : Catalog) : Prop where
  native : (loadSchema f getRange).Ends (.empty, none) (.ok catalog.schema)
  managed : ∃ schema, (Alphora.loadSchema f getRange).Ends .empty (.ok schema) ∧
    ∀ id, schema.get? id = (catalog.schema.get? id).map Alphora.ofDef

/-- **Loading the schema** is right in both clients if and only if the schema is smaller
than a page. -/
theorem loadsSchema_iff (hf : Reads f)
    (hnative : Honours getRange columnColumns schemaRange (catalog.rows f 6))
    (hmanaged : Honours getRange Alphora.columnColumns schemaRange (catalog.rows f 5)) :
    LoadsSchema f getRange catalog ↔ catalog.schema.size < maxFetchLimit := by
  constructor
  · rintro ⟨-, schema, hends, -⟩
    by_contra hfull
    cases (Alphora.loadSchema_throws hf hmanaged (not_lt.mp hfull)).mp hends
  · intro hsmall
    exact ⟨loadSchema_ends hf hnative, Alphora.loadSchema_ends hf hmanaged hsmall⟩

end Load

/-! ### Rows in pages -/

def servePages [DecidableEq R] (rows : List ColumnID → List (DataSetRow R A)) : GetRange R A :=
  fun columnIds _ limit startId =>
    let rest := match startId with
      | none => rows columnIds
      | some rowId => ((rows columnIds).dropWhile fun row : DataSetRow R A => row.ID ≠ rowId).tail
    let data := rest.take limit.toNat
    .ok { limited := data.length = limit.toNat, data := data.map fun row => ⟨row, true⟩ }

theorem servePages_honours [DecidableEq R] {rows : List ColumnID → List (DataSetRow R A)}
    {columnIds : List ColumnID} {range : Range A} (hnodup : ((rows columnIds).map (·.ID)).Nodup) :
    Honours (servePages rows) columnIds range (rows columnIds) := by
  have hhas : ∀ (Q : List (DataSetRow R A)) (n : ℕ), Page.Has
      { limited := decide ((Q.take n).length = n), data := (Q.take n).map fun row => ⟨row, true⟩ }
      Q n := fun Q n => ⟨by simp [Function.comp_def], by simp⟩
  refine ⟨fun n _ => ⟨_, rfl, hhas _ n⟩, fun n _ P row Q hrows => ⟨_, rfl, ?_⟩⟩
  have hbefore : ∀ x ∈ P, decide (x.ID ≠ row.ID) = true := by
    intro x hx
    rw [hrows, map_append, nodup_append] at hnodup
    exact decide_eq_true (hnodup.2.2 x.ID (mem_map_of_mem hx) row.ID (by simp))
  have hrest : ((rows columnIds).dropWhile fun x : DataSetRow R A => x.ID ≠ row.ID).tail = Q := by
    rw [hrows, dropWhile_append_of_pos hbefore]
    simp
  simp only [hrest]
  exact hhas Q n

inductive SchemaValue
  | number (n : ℕ)
  | text (s : String)
  | buffer (t : BufferType)
  | bool (b : Bool)
  deriving DecidableEq, Repr

def schemaFormats : Formats ℕ SchemaValue where
  rowText := .number
  columnRow := id
  columnText := .number
  columnOf
    | .number n => n
    | _ => 0
  podText := .number
  nameText := .text
  text
    | .text s => s
    | _ => ""
  bufferText := .buffer
  bufferType
    | .buffer t => t
    | _ => .identity
  boolText := .bool
  bool
    | .bool b => b
    | _ => false
  typeSize _ := 8
  rowText_columnRow _ := rfl

theorem reads_schemaFormats : Reads schemaFormats :=
  ⟨fun _ => rfl, fun _ => rfl, fun _ => rfl, fun _ => rfl⟩

def Catalog.pages (catalog : Catalog) : GetRange ℕ SchemaValue :=
  servePages fun columnIds => catalog.rows schemaFormats columnIds.length

theorem Catalog.pages_honours (catalog : Catalog) (columnIds : List ColumnID)
    (range : Range SchemaValue) :
    Honours catalog.pages columnIds range (catalog.rows schemaFormats columnIds.length) := by
  refine servePages_honours ?_
  have hids : (catalog.rows schemaFormats columnIds.length).map (·.ID) = catalog.schema.keys := by
    rw [Catalog.rows, map_map]
    rfl
  rw [hids]
  exact catalog.schema.keys_nodup

def defaultCatalog : Catalog where
  schema := ⟨Hive.defaults.map fun columnDef => (columnDef.columnID, columnDef), by decide⟩
  named e he := by
    obtain ⟨columnDef, -, rfl⟩ := mem_map.mp he
    rfl

/-- Both clients load the schema of a new hive. -/
theorem loadsSchema_default : LoadsSchema schemaFormats defaultCatalog.pages defaultCatalog :=
  (loadsSchema_iff reads_schemaFormats (defaultCatalog.pages_honours columnColumns schemaRange)
    (defaultCatalog.pages_honours Alphora.columnColumns schemaRange)).mpr (by decide)

def manyColumns (n : ℕ) : Catalog where
  schema := ⟨(List.range n).map fun i => (i, ⟨i, "", "Long", "Long", .multi, true⟩), by
    rw [pairwise_map]
    exact pairwise_lt_range⟩
  named e he := by
    obtain ⟨i, -, rfl⟩ := mem_map.mp he
    rfl

/-- The C# client does not load a schema of 501 columns. -/
theorem secondPage_throws :
    ¬ LoadsSchema schemaFormats (manyColumns 501).pages (manyColumns 501) := by
  rintro ⟨-, schema, hends, -⟩
  have hfull : maxFetchLimit ≤ (manyColumns 501).schema.size := by
    rw [manyColumns, SortedMap.size, length_map, length_range, maxFetchLimit]
    decide
  cases (Alphora.loadSchema_throws reads_schemaFormats
    ((manyColumns 501).pages_honours Alphora.columnColumns schemaRange) hfull).mp hends

end Fastore.Client
