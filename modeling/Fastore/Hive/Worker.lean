import Fastore.Client.Reads
import Fastore.Hive.Prepare
import Fastore.Index.Ranges

/-!
A worker and its repositories.

A worker has a repository for each system column and for each column that
the `PodColumn` table assigns to its pod. The table has two columns, 400
with the pod of a row and 401 with its column. `commit` writes to the
repositories in the order of their columns and, if one of these two
columns is among them, goes through the table once behind them, before it
writes to the next repository it finds (`syncToSchema`): it erases
repositories and creates others, and then goes on with the repository it
has found before.

`commit_eq` takes this apart into the writes before, the table, and the
writes behind.
-/

namespace Fastore.Hive

open Lib Buffer List

variable {R A B : Type}

inductive WorkerFault
  /-- An exception with its text. -/
  | thrown (message : String)
  /-- A fault of a buffer. -/
  | buffer (fault : Tree.Fault)
  /-- A column is asked for that the worker does not have. -/
  | noRepository
  /-- The bytes of a value are read that is not set. -/
  | noValue
  /-- A repository is used that has been erased. -/
  | erased
  deriving DecidableEq, Repr

def ofBuffer {α : Type} (x : Except Tree.Fault α) : Except WorkerFault α := x.mapError .buffer

/-! ### Buffers -/

inductive BufferKind
  | identity
  | uniqueInline
  | unique
  | multi

/-- `IColumnBuffer`: what a worker does with the buffer of a column. -/
class ColumnBuffer (R A : outParam Type) (B : Type) where
  new : BufferKind → B
  /-- The value of a row, given the text of the rows of an identity column. -/
  getValue : (R → A) → B → R → Except Tree.Fault (Option A)
  getRows : B → RangeRequest A R → Except WorkerFault (RangeResult A R)
  apply : (R → A) → B → ColumnWrites R A → Except Tree.Fault B

section Instances

variable [LinearOrder R] [LinearOrder A]

instance : ColumnBuffer R A (Client.Column R A) where
  new
    | .identity => .identity .new
    | .uniqueInline => .uniqueInline .new
    | .unique => .unique .new
    | .multi => .multi .new
  getValue := Client.Column.getValue
  getRows
    | .multi b, range => ofBuffer (b.getRows range)
    -- the only ranges a worker reads are those of column 400
    | _, _ => .error .noRepository
  apply := Client.Column.apply

instance [memory : Index.Memory R A] : ColumnBuffer R A (Index.Column R A) where
  new
    | .identity => .identity memory.newIdentity
    | .uniqueInline => .uniqueInline memory.newUniqueInline
    | .unique => .unique memory.newUnique
    | .multi => .multi memory.newTree
  getValue := Index.Column.getValue
  getRows
    | .multi b, range => ofBuffer (b.getRows range)
    | _, _ => .error .noRepository
  apply := Index.Column.apply

end Instances

/-! ### Repositories -/

inductive BufferType
  | identity
  | unique
  | multi
  deriving DecidableEq, Repr

structure ColumnDef where
  columnID : ColumnID
  name : String
  valueTypeName : String
  rowIDTypeName : String
  bufferType : BufferType
  required : Bool
  deriving DecidableEq, Repr

structure Formats (R A : Type) where
  /-- The value of a row in an identity column. -/
  rowText : R → A
  /-- The row of a column in the `Column` table. -/
  columnRow : ColumnID → R
  columnText : ColumnID → A
  columnOf : A → ColumnID
  podText : PodID → A
  nameText : String → A
  text : A → String
  bufferText : BufferType → A
  bufferType : A → BufferType
  boolText : Bool → A
  bool : A → Bool
  /-- The size of the values of a type. -/
  typeSize : String → ℕ
  /-- The row of a column and its value have the same bytes. -/
  rowText_columnRow : ∀ id, rowText (columnRow id) = columnText id

variable [ColumnBuffer R A B]

def createBuffer (f : Formats R A) (columnDef : ColumnDef) : Except WorkerFault B :=
  match columnDef.bufferType with
  | .identity =>
    if columnDef.valueTypeName ≠ columnDef.rowIDTypeName then
      .error (.thrown "Identity Buffers require rowType and ValueType to be the same")
    else .ok (ColumnBuffer.new .identity)
  | .unique =>
    if f.typeSize columnDef.valueTypeName ≤ 8 then .ok (ColumnBuffer.new .uniqueInline)
    else .ok (ColumnBuffer.new .unique)
  | .multi => .ok (ColumnBuffer.new .multi)

structure Repository (B : Type) where
  buffer : B
  revision : Revision

def Repository.apply (f : Formats R A) (repo : Repository B) (revision : Revision)
    (writes : ColumnWrites R A) : Except WorkerFault (Repository B) := do
  let buffer ← ofBuffer (ColumnBuffer.apply f.rowText repo.buffer writes)
  .ok ⟨buffer, revision⟩

/-! ### The worker -/

/-- The columns of the `Column` table and of the `PodColumn` table in the
`Dictionary`. -/
def columnID : ColumnID := 0

def columnName : ColumnID := 1

def columnValueType : ColumnID := 2

def columnRowIDType : ColumnID := 3

def columnBufferType : ColumnID := 4

def columnRequired : ColumnID := 5

def podColumnPodID : ColumnID := 400

def podColumnColumnID : ColumnID := 401

structure Worker (B : Type) where
  podId : PodID
  repositories : ColumnID → Option (Repository B)

namespace Worker

variable (f : Formats R A) (w : Worker B)

def set (id : ColumnID) (repo : Option (Repository B)) : Worker B :=
  { w with repositories := Function.update w.repositories id repo }

/-- `_repositories[id]`. -/
def repository (id : ColumnID) : Except WorkerFault (Repository B) :=
  match w.repositories id with
  | some repo => .ok repo
  | none => .error .noRepository

def query (id : ColumnID) (rowId : R) : Except WorkerFault (Option A) := do
  let repo ← w.repository id
  ofBuffer (ColumnBuffer.getValue f.rowText repo.buffer rowId)

/-- `GetDefFromSchema`. A text that is not set is empty, and its first byte is
zero; the four bytes of a number that is not set are not there. -/
def getDefFromSchema (id : ColumnID) : Except WorkerFault ColumnDef := do
  let name ← w.query f columnName (f.columnRow id)
  let valueType ← w.query f columnValueType (f.columnRow id)
  let rowType ← w.query f columnRowIDType (f.columnRow id)
  let bType ← w.query f columnBufferType (f.columnRow id)
  let req ← w.query f columnRequired (f.columnRow id)
  match bType with
  | none => .error .noValue
  | some bType =>
    .ok ⟨id, (name.map f.text).getD "", (valueType.map f.text).getD "",
      (rowType.map f.text).getD "", f.bufferType bType, (req.map f.bool).getD false⟩

def createRepo (columnDef : ColumnDef) : Except WorkerFault (Worker B) := do
  let buffer ← createBuffer f columnDef
  .ok (w.set columnDef.columnID (some ⟨buffer, 0⟩))

def podRange (podId : PodID) : RangeRequest A R where
  limit := 200000
  ascending := true
  first := some ⟨f.podText podId, true⟩
  last := some ⟨f.podText podId, true⟩

def podRows : Except WorkerFault (Option (List R)) := do
  let repo ← w.repository podColumnPodID
  let result ← ColumnBuffer.getRows repo.buffer (podRange f w.podId)
  .ok (result.valueRowsList.head?.map (·.rowIDs))

def schemaIds (rows : List R) : Except WorkerFault (List ColumnID) :=
  rows.mapM fun row => do
    let value ← w.query f podColumnColumnID row
    match value with
    | some value => .ok (f.columnOf value)
    | none => .error .noValue

def dropRepos (ids : List ColumnID) : Worker B :=
  { w with
    repositories := fun id =>
      if id ∉ ids ∧ maxSystemColumnID < id then none else w.repositories id }

def createRepos (ids : List ColumnID) : Except WorkerFault (Worker B) :=
  ids.foldlM (fun w id =>
    if (w.repositories id).isSome then .ok w
    else do
      let columnDef ← w.getDefFromSchema f id
      w.createRepo f columnDef) w

def syncToSchema : Except WorkerFault (Worker B) := do
  let rows ← w.podRows f
  match rows with
  | none => .ok w
  | some rows => do
    let ids ← w.schemaIds f rows
    (w.dropRepos ids).createRepos f ids

/-- The loop body of `commit`, with whether the `PodColumn` table is still to be
gone through. -/
def commitWrite (s : Worker B × Bool) (write : ColumnID × ColumnWrites R A) :
    Except WorkerFault (Worker B × Bool) :=
  let syncSchema := s.2 || write.1 = podColumnPodID || write.1 = podColumnColumnID
  match s.1.repositories write.1 with
  | none => .ok (s.1, syncSchema)
  | some _ => do
    let w ← if syncSchema && podColumnColumnID < write.1 then s.1.syncToSchema f else .ok s.1
    -- the repository is reached through the iterator from before
    match w.repositories write.1 with
    | none => .error .erased
    | some repo => do
      let repo ← repo.apply f (repo.revision + 1) write.2
      .ok (w.set write.1 (some repo), syncSchema && !(podColumnColumnID < write.1))

def commit (writes : SortedMap ColumnID (ColumnWrites R A)) : Except WorkerFault (Worker B) := do
  let (w, syncSchema) ← writes.entries.foldlM (commitWrite f) (w, false)
  if syncSchema then w.syncToSchema f else .ok w

end Worker

/-! ### A new worker -/

def defaults : List ColumnDef :=
  [⟨0, "Column.ID", "Long", "Long", .identity, true⟩,
    ⟨1, "Column.Name", "String", "Long", .unique, true⟩,
    ⟨2, "Column.ValueType", "String", "Long", .multi, true⟩,
    ⟨3, "Column.RowIDType", "String", "Long", .multi, true⟩,
    ⟨4, "Column.BufferType", "Int", "Long", .multi, true⟩,
    ⟨5, "Column.Required", "Bool", "Long", .multi, true⟩,
    ⟨100, "Topology.ID", "Long", "Long", .identity, true⟩,
    ⟨200, "Host.ID", "Long", "Long", .identity, true⟩,
    ⟨300, "Pod.ID", "Long", "Long", .unique, true⟩,
    ⟨301, "Pod.HostID", "Long", "Long", .multi, true⟩,
    ⟨400, "PodColumn.PodID", "Long", "Long", .multi, true⟩,
    ⟨401, "PodColumn.ColumnID", "Long", "Long", .multi, true⟩,
    ⟨500, "Stash.ID", "Long", "Long", .unique, true⟩,
    ⟨501, "Stash.HostID", "Long", "Long", .multi, true⟩,
    ⟨600, "StashColumn.StashID", "Long", "Long", .multi, true⟩,
    ⟨601, "StashColumn.ColumnID", "Long", "Long", .multi, true⟩]

namespace Worker

def addToSchema (f : Formats R A) (id : ColumnID) (w : Worker B) (value : ColumnID × A) :
    Except WorkerFault (Worker B) := do
  let repo ← w.repository value.1
  let repo ← repo.apply f 0 { includes := [⟨f.columnRow id, value.2⟩] }
  .ok (w.set value.1 (some repo))

def schemaValues (f : Formats R A) (columnDef : ColumnDef) : List (ColumnID × A) :=
  [(columnID, f.columnText columnDef.columnID), (columnName, f.nameText columnDef.name),
    (columnValueType, f.nameText columnDef.valueTypeName),
    (columnRowIDType, f.nameText columnDef.rowIDTypeName),
    (columnBufferType, f.bufferText columnDef.bufferType),
    (columnRequired, f.boolText columnDef.required)]

def addColumnToSchema (f : Formats R A) (w : Worker B) (columnDef : ColumnDef) :
    Except WorkerFault (Worker B) :=
  (schemaValues f columnDef).foldlM (addToSchema f columnDef.columnID) w

def bootstrap (f : Formats R A) (podId : PodID) : Except WorkerFault (Worker B) := do
  let w ← defaults.foldlM (createRepo f) ⟨podId, fun _ => none⟩
  defaults.foldlM (addColumnToSchema f) w

end Worker

/-! ### Plain writes -/

theorem ofBuffer_eq_ok {α : Type} {x : Except Tree.Fault α} {a : α} :
    ofBuffer x = .ok a ↔ x = .ok a := by
  cases x <;> simp [ofBuffer, Except.mapError]

def written (f : Formats R A) : Option (Repository B) → Option (ColumnWrites R A) →
    Except WorkerFault (Option (Repository B))
  | some repo, some writes => do
    let repo ← repo.apply f (repo.revision + 1) writes
    .ok (some repo)
  | repo, _ => .ok repo

def writesTo (entries : List (ColumnID × ColumnWrites R A)) (id : ColumnID) :
    Option (ColumnWrites R A) :=
  (entries.find? (·.1 = id)).map Prod.snd

def touches (write : ColumnID × ColumnWrites R A) : Bool :=
  write.1 = podColumnPodID || write.1 = podColumnColumnID

variable {entries : List (ColumnID × ColumnWrites R A)}

namespace Worker

variable {f : Formats R A} {w w' : Worker B}

def applyWrite (f : Formats R A) (w : Worker B) (write : ColumnID × ColumnWrites R A) :
    Except WorkerFault (Worker B) :=
  match w.repositories write.1 with
  | none => .ok w
  | some repo => do
    let repo ← repo.apply f (repo.revision + 1) write.2
    .ok (w.set write.1 (some repo))

def applyWrites (f : Formats R A) (w : Worker B) (entries : List (ColumnID × ColumnWrites R A)) :
    Except WorkerFault (Worker B) :=
  entries.foldlM (applyWrite f) w

@[simp] theorem repositories_set (id : ColumnID) (repo : Option (Repository B)) (id' : ColumnID) :
    (w.set id repo).repositories id' = if id' = id then repo else w.repositories id' :=
  Function.update_apply ..

theorem set_self {id : ColumnID} {repo : Option (Repository B)} (h : w.repositories id = repo) :
    w.set id repo = w := by
  rw [set, ← h, Function.update_eq_self]

theorem applyWrite_eq (write : ColumnID × ColumnWrites R A) : w.applyWrite f write =
    (written f (w.repositories write.1) (some write.2) >>= fun repo => .ok (w.set write.1 repo)) := by
  rw [applyWrite]
  cases h : w.repositories write.1 with
  | none => simp only [written, bind, Except.bind, set_self h]
  | some repo =>
    simp only [written]
    cases repo.apply f (repo.revision + 1) write.2 <;> rfl

theorem writesTo_cons (write : ColumnID × ColumnWrites R A)
    (entries : List (ColumnID × ColumnWrites R A)) (id : ColumnID) :
    writesTo (write :: entries) id = if id = write.1 then some write.2 else writesTo entries id := by
  rw [writesTo, find?_cons]
  by_cases h : write.1 = id
  · simp [h]
  · simp [h, Ne.symm h, writesTo]

theorem writesTo_eq_none {id : ColumnID} :
    writesTo entries id = none ↔ id ∉ entries.map Prod.fst := by
  rw [writesTo, Option.map_eq_none_iff, find?_eq_none, mem_map]
  simp only [decide_eq_true_eq, not_exists, not_and]

theorem written_none (repo : Option (Repository B)) : written f repo none = .ok repo := by
  cases repo <;> rfl

/-- Writes to different columns do not meet. -/
theorem applyWrites_iff (hnodup : (entries.map Prod.fst).Nodup) : w.applyWrites f entries = .ok w' ↔
      w'.podId = w.podId ∧
        ∀ id, written f (w.repositories id) (writesTo entries id) = .ok (w'.repositories id) := by
  induction entries generalizing w with
  | nil =>
    obtain ⟨podId, repositories⟩ := w
    obtain ⟨podId', repositories'⟩ := w'
    simp only [applyWrites, foldlM_nil, writesTo, find?_nil, Option.map_none, written_none,
      Except.ok.injEq, pure, Except.pure, mk.injEq]
    rw [funext_iff, eq_comm]
  | cons write entries ih =>
    rw [map_cons, nodup_cons] at hnodup
    have hrest : writesTo entries write.1 = none := writesTo_eq_none.mpr hnodup.1
    rw [applyWrites, foldlM_cons, applyWrite_eq]
    constructor
    · intro hok
      obtain ⟨w₁, hw₁, hok⟩ := eq_ok_of_bind hok
      obtain ⟨repo, hrepo, rfl⟩ := eq_ok_of_map hw₁
      obtain ⟨hpod, hall⟩ := (ih hnodup.2).mp hok
      refine ⟨hpod, fun id => ?_⟩
      rw [← hall id, writesTo_cons, repositories_set]
      split
      · rename_i h
        rw [h, hrest, hrepo, written_none]
      · rfl
    · rintro ⟨hpod, hall⟩
      have hrepo := hall write.1
      rw [writesTo_cons, if_pos rfl] at hrepo
      have hok : (w.set write.1 (w'.repositories write.1)).applyWrites f entries = .ok w' := by
        refine (ih hnodup.2).mpr ⟨hpod, fun id => ?_⟩
        rw [repositories_set]
        split
        · rename_i h
          rw [h, hrest, written_none]
        · rename_i h
          rw [← hall id, writesTo_cons, if_neg h]
      rw [hrepo]
      exact hok

/-! ### The parts of a commit -/

theorem touches_of_lt {write : ColumnID × ColumnWrites R A} (h : podColumnColumnID < write.1) :
    touches write = false := by
  have hne : write.1 ≠ podColumnPodID ∧ write.1 ≠ podColumnColumnID :=
    ⟨((by decide : podColumnPodID < podColumnColumnID).trans h).ne', h.ne'⟩
  simp [touches, hne]

theorem any_touches_of_lt (h : ∀ e ∈ entries, podColumnColumnID < e.1) :
    entries.any touches = false :=
  any_eq_false.mpr fun e he => by simp [touches_of_lt (h e he)]

theorem commitWrite_plain {s : Bool} {write : ColumnID × ColumnWrites R A}
    (h : ((s || touches write) && decide (podColumnColumnID < write.1)) = false) :
    commitWrite f (w, s) write =
      (w.applyWrite f write >>= fun w => .ok (w, s || touches write)) := by
  have hs : (s || decide (write.1 = podColumnPodID) || decide (write.1 = podColumnColumnID)) =
      (s || touches write) := by rw [touches, Bool.or_assoc]
  simp only [commitWrite, applyWrite, hs, h]
  cases hrepo : w.repositories write.1 with
  | none => rfl
  | some repo =>
    have hflag : ((s || touches write) && !decide (podColumnColumnID < write.1)) =
        (s || touches write) := by
      cases hflag : s || touches write with
      | false => rfl
      | true =>
        rw [hflag, Bool.true_and] at h
        rw [h]
        rfl
    simp only [Bool.false_eq_true, if_false, hrepo, hflag, bind, Except.bind]
    cases repo.apply f (repo.revision + 1) write.2 <;> rfl

theorem foldlM_commitWrite_plain {s : Bool} (h : (∀ e ∈ entries, ¬ podColumnColumnID < e.1) ∨
      s = false ∧ ∀ e ∈ entries, podColumnColumnID < e.1) :
    entries.foldlM (commitWrite f) (w, s) =
      (w.applyWrites f entries >>= fun w => .ok (w, s || entries.any touches)) := by
  induction entries generalizing w s with
  | nil => simp [applyWrites, bind, Except.bind, pure, Except.pure]
  | cons write entries ih =>
    have hplain : ((s || touches write) && decide (podColumnColumnID < write.1)) = false := by
      rcases h with h | ⟨rfl, h⟩
      · simp [h write mem_cons_self]
      · rw [touches_of_lt (h write mem_cons_self)]
        rfl
    rw [foldlM_cons, commitWrite_plain hplain, applyWrites, foldlM_cons]
    cases hw : w.applyWrite f write with
    | error e => rfl
    | ok w₁ =>
      have hrest : (∀ e ∈ entries, ¬ podColumnColumnID < e.1) ∨
          (s || touches write) = false ∧ ∀ e ∈ entries, podColumnColumnID < e.1 := by
        rcases h with h | ⟨rfl, h⟩
        · exact .inl fun e he => h e (mem_cons_of_mem _ he)
        · exact .inr ⟨touches_of_lt (h write mem_cons_self),
            fun e he => h e (mem_cons_of_mem _ he)⟩
      simp only [bind, Except.bind]
      have hih := ih (w := w₁) hrest
      simp only [bind, Except.bind] at hih
      rw [hih, any_cons, Bool.or_assoc]
      rfl

def finish (f : Formats R A) (w : Worker B) (writes : List (ColumnID × ColumnWrites R A)) :
    Except WorkerFault (Worker B) := do
  let w' ← w.syncToSchema f
  match writes.dropWhile fun e => (w.repositories e.1).isNone with
  | [] => .ok w'
  | write :: rest =>
    -- the repository found first is used even if it is gone
    if (w'.repositories write.1).isNone then .error .erased
    else w'.applyWrites f (write :: rest)

/-- From the first column behind the table on, writes follow the new table. -/
theorem foldlM_commitWrite_sync (h : ∀ e ∈ entries, podColumnColumnID < e.1) :
    (do
      let (w, syncSchema) ← entries.foldlM (commitWrite f) (w, true)
      if syncSchema then w.syncToSchema f else .ok w) = w.finish f entries := by
  induction entries with
  | nil =>
    simp only [foldlM_nil, pure, Except.pure, bind, Except.bind, if_true, finish,
      dropWhile_nil]
    cases w.syncToSchema f <;> rfl
  | cons write entries ih =>
    have hlt := h write mem_cons_self
    have hrest : ∀ e ∈ entries, podColumnColumnID < e.1 :=
      fun e he => h e (mem_cons_of_mem _ he)
    rw [foldlM_cons, finish]
    cases hrepo : w.repositories write.1 with
    | none =>
      have hskip : commitWrite f (w, true) write = .ok (w, true) := by
        simp only [commitWrite, hrepo, Bool.true_or]
      rw [dropWhile_cons_of_pos (by simp [hrepo]), hskip]
      exact ih hrest
    | some repo =>
      have hstep : commitWrite f (w, true) write = (w.syncToSchema f >>= fun w' =>
          if (w'.repositories write.1).isNone then .error .erased
          else w'.applyWrite f write >>= fun w' => .ok (w', false)) := by
        simp only [commitWrite, hrepo, Bool.true_or, Bool.true_and, hlt, decide_true, if_true,
          bind, Except.bind, Bool.not_true, applyWrite]
        cases w.syncToSchema f with
        | error e => rfl
        | ok w' =>
          dsimp only
          cases hrepo' : w'.repositories write.1 with
          | none => rfl
          | some repo' =>
            simp only [Option.isNone_some, Bool.false_eq_true, if_false]
            cases repo'.apply f (repo'.revision + 1) write.2 <;> rfl
      rw [dropWhile_cons_of_neg (by simp [hrepo]), hstep]
      cases w.syncToSchema f with
      | error e => rfl
      | ok w' =>
        simp only [bind, Except.bind]
        by_cases hgone : (w'.repositories write.1).isNone = true
        · simp only [if_pos hgone]
        · simp only [if_neg hgone, applyWrites, foldlM_cons]
          cases w'.applyWrite f write with
          | error e => rfl
          | ok w₂ =>
            have hplain := foldlM_commitWrite_plain (f := f) (w := w₂) (.inr ⟨rfl, hrest⟩)
            rw [any_touches_of_lt hrest] at hplain
            simp only [bind, Except.bind] at hplain ⊢
            rw [hplain, applyWrites]
            cases entries.foldlM (applyWrite f) w₂ <;> rfl

def upTo (writes : SortedMap ColumnID (ColumnWrites R A)) : List (ColumnID × ColumnWrites R A) :=
  writes.entries.filter (·.1 ≤ podColumnColumnID)

def behind (writes : SortedMap ColumnID (ColumnWrites R A)) : List (ColumnID × ColumnWrites R A) :=
  writes.entries.filter fun e => !(e.1 ≤ podColumnColumnID)

variable {writes : SortedMap ColumnID (ColumnWrites R A)}

theorem upTo_append_behind : upTo writes ++ behind writes = writes.entries :=
  writes.filter_append_filter_not fun a b hab hb => by
    simpa using hab.le.trans (by simpa using hb)

theorem lt_of_mem_behind {e : ColumnID × ColumnWrites R A} (h : e ∈ behind writes) :
    podColumnColumnID < e.1 := by
  simpa using (mem_filter.mp h).2

theorem nodup_upTo (writes : SortedMap ColumnID (ColumnWrites R A)) :
    ((upTo writes).map Prod.fst).Nodup :=
  writes.keys_nodup.sublist (filter_sublist.map _)

theorem nodup_behind (writes : SortedMap ColumnID (ColumnWrites R A)) :
    ((behind writes).map Prod.fst).Nodup :=
  writes.keys_nodup.sublist (filter_sublist.map _)

theorem nodup_dropWhile_behind (writes : SortedMap ColumnID (ColumnWrites R A))
    (p : ColumnID × ColumnWrites R A → Bool) : (((behind writes).dropWhile p).map Prod.fst).Nodup :=
  (nodup_behind writes).sublist ((dropWhile_sublist p).map _)

theorem any_touches : writes.entries.any touches = (upTo writes).any touches := by
  rw [← upTo_append_behind, any_append, any_touches_of_lt fun e he => lt_of_mem_behind he,
    Bool.or_false]

theorem commit_eq : w.commit f writes = (w.applyWrites f (upTo writes) >>= fun w =>
    if writes.entries.any touches then w.finish f (behind writes)
    else w.applyWrites f (behind writes)) := by
  have hupTo : ∀ e ∈ upTo writes, ¬ podColumnColumnID < e.1 := fun e he => by
    simpa using (mem_filter.mp he).2
  have hbehind : ∀ e ∈ behind writes, podColumnColumnID < e.1 := fun e he => lt_of_mem_behind he
  rw [commit, any_touches, ← upTo_append_behind, foldlM_append,
    foldlM_commitWrite_plain (.inl hupTo), Bool.false_or]
  cases w.applyWrites f (upTo writes) with
  | error e => rfl
  | ok w₁ =>
    simp only [bind, Except.bind]
    cases (upTo writes).any touches with
    | true => exact foldlM_commitWrite_sync hbehind
    | false =>
      have hplain := foldlM_commitWrite_plain (f := f) (w := w₁) (.inr ⟨rfl, hbehind⟩)
      rw [hplain, any_touches_of_lt hbehind]
      cases w₁.applyWrites f (behind writes) <;> rfl

def WritesTable (writes : SortedMap ColumnID (ColumnWrites R A)) : Prop :=
  podColumnPodID ∈ writes.keys ∨ podColumnColumnID ∈ writes.keys

theorem any_touches_iff : writes.entries.any touches = true ↔ WritesTable writes := by
  simp only [WritesTable, SortedMap.keys, any_eq_true, mem_map, touches, Bool.or_eq_true,
    decide_eq_true_eq]
  constructor
  · rintro ⟨e, he, h | h⟩
    · exact .inl ⟨e, he, h⟩
    · exact .inr ⟨e, he, h⟩
  · rintro (⟨e, he, h⟩ | ⟨e, he, h⟩)
    · exact ⟨e, he, .inl h⟩
    · exact ⟨e, he, .inr h⟩

theorem commit_of_table {w₁ : Worker B} (hw₁ : w.applyWrites f (upTo writes) = .ok w₁)
    (htable : WritesTable writes) : w.commit f writes = w₁.finish f (behind writes) := by
  rw [commit_eq, hw₁]
  exact if_pos (any_touches_iff.mpr htable)

end Worker

end Fastore.Hive
