import Mathlib.Data.List.Nodup
import Mathlib.Data.List.Induction
import Fastore.Store.Manager

/-!
The index of transactions.

The files of a directory are scanned in the order the directory has them in, so
the end of a transaction may be met before its beginning. The functions that
index a record look at nothing but the entry of its transaction (`indexed`), and
what they make of that entry can be said without an order: its state is the
greatest one of its records, its revisions are those of the `TransactionBegin`
record (`Describes`). So the order does not matter, as long as no transaction
begins twice.
-/

namespace Fastore.Store

open Lib List Record

def Record.transaction : Record → Option (Long × TransactionState)
  | .transactionBegin transactionId _ => some (transactionId, .begun)
  | .transactionEnd transactionId => some (transactionId, .ended)
  | .rollback transactionId => some (transactionId, .rolledBack)
  | .columnRevision .. => none
  | .checkpoint .. => none

def Record.begins : Record → Option Long
  | .transactionBegin transactionId _ => some transactionId
  | .transactionEnd _ => none
  | .rollback _ => none
  | .columnRevision .. => none
  | .checkpoint .. => none

def statesOf (records : List Record) (id : Long) : List TransactionState :=
  (records.filterMap transaction).filterMap fun t => if t.1 = id then some t.2 else none

/-- What records say of a transaction, in whatever order they come. -/
structure Describes (records : List Record) (id : Long) (entry : Option TransactionInfo) : Prop where
  present : entry.isSome ↔ statesOf records id ≠ []
  reported : ∀ info ∈ entry, info.state ∈ statesOf records id
  greatest : ∀ info ∈ entry, ∀ state ∈ statesOf records id, state.code ≤ info.state.code
  begun : ∀ info ∈ entry, ∀ revisions, .transactionBegin id revisions ∈ records →
    info.revisions = revisions
  notBegun : ∀ info ∈ entry, (∀ revisions, .transactionBegin id revisions ∉ records) →
    info.revisions = .empty

/-! ### One entry -/

def indexed (id : Long) (entry : Option TransactionInfo) (record : Record) :
    Option TransactionInfo :=
  match record with
  | .transactionBegin transactionId revisions =>
    if transactionId = id then begun revisions entry else entry
  | .transactionEnd transactionId => if transactionId = id then raised .ended entry else entry
  | .rollback transactionId => if transactionId = id then raised .rolledBack entry else entry
  | .columnRevision .. => entry
  | .checkpoint .. => entry
where
  /-- The entry with the revisions of a beginning, unless it has some. -/
  begun (revisions : SortedMap Long Long) : Option TransactionInfo → Option TransactionInfo
    | some info => some (if info.revisions.entries.length = 0 then { info with revisions } else info)
    | none => some ⟨revisions, .begun⟩
  /-- The entry with a state, unless it has a greater one. -/
  raised (state : TransactionState) : Option TransactionInfo → Option TransactionInfo
    | some info => some (if info.state.code < state.code then { info with state } else info)
    | none => some ⟨.empty, state⟩

namespace LogManager

variable {m : LogManager} {id : Long}

theorem get?_insertTransaction (transactionId : Long) (info : TransactionInfo) :
    (m.insertTransaction transactionId info).transactions.get? id =
      if id = transactionId then some ((m.transactions.get? transactionId).getD info)
      else m.transactions.get? id := by
  rw [insertTransaction]
  cases hold : m.transactions.get? transactionId with
  | none => simp
  | some old =>
    by_cases hid : id = transactionId
    · simp [hid, hold]
    · simp [hid]

theorem get?_indexTransactionBeginRecord (transactionId : Long) (revisions : SortedMap Long Long) :
    (m.indexTransactionBeginRecord transactionId revisions).transactions.get? id =
      indexed id (m.transactions.get? id) (.transactionBegin transactionId revisions) := by
  rw [indexTransactionBeginRecord, indexed]
  by_cases hid : transactionId = id
  · subst hid
    cases hold : m.transactions.get? transactionId with
    | none => simp [get?_insertTransaction, hold, indexed.begun]
    | some info =>
      by_cases hempty : info.revisions.entries.length = 0
      · simp [hempty, indexed.begun]
      · simp [hempty, get?_insertTransaction, hold, indexed.begun]
  · cases hold : m.transactions.get? transactionId with
    | none => simp [get?_insertTransaction, hid, Ne.symm hid]
    | some info =>
      by_cases hempty : info.revisions.entries.length = 0
      · simp [hempty, hid, Ne.symm hid]
      · simp [hempty, get?_insertTransaction, hid, Ne.symm hid]

theorem get?_indexState (transactionId : Long) (state : TransactionState) :
    (m.indexState transactionId state).transactions.get? id =
      if transactionId = id then indexed.raised state (m.transactions.get? id)
      else m.transactions.get? id := by
  rw [indexState]
  by_cases hid : transactionId = id
  · subst hid
    cases hold : m.transactions.get? transactionId with
    | none => simp [get?_insertTransaction, hold, indexed.raised]
    | some info =>
      by_cases hlt : info.state.code < state.code
      · simp [hlt, indexed.raised]
      · simp [hlt, get?_insertTransaction, hold, indexed.raised]
  · cases hold : m.transactions.get? transactionId with
    | none => simp [get?_insertTransaction, hid, Ne.symm hid]
    | some info =>
      by_cases hlt : info.state.code < state.code
      · simp [hlt, hid, Ne.symm hid]
      · simp [hlt, get?_insertTransaction, hid, Ne.symm hid]

theorem get?_indexRecord (record : RecordHeader × Record) :
    (m.indexRecord record).transactions.get? id = indexed id (m.transactions.get? id) record.2 := by
  obtain ⟨header, record⟩ := record
  cases record with
  | transactionBegin transactionId revisions =>
    exact get?_indexTransactionBeginRecord transactionId revisions
  | transactionEnd transactionId => exact get?_indexState transactionId .ended
  | columnRevision columnId revision data => rfl
  | checkpoint columnId revision => rfl
  | rollback transactionId => exact get?_indexState transactionId .rolledBack

theorem get?_foldl_indexRecord (records : List (RecordHeader × Record)) (m : LogManager) :
    (records.foldl indexRecord m).transactions.get? id =
      (records.map Prod.snd).foldl (indexed id) (m.transactions.get? id) := by
  induction records generalizing m with
  | nil => rfl
  | cons record records ih => rw [foldl_cons, ih, get?_indexRecord, map_cons, foldl_cons]

end LogManager

/-! ### What a record adds -/

variable {records : List Record} {record : Record} {id : Long} {entry : Option TransactionInfo}

theorem mem_statesOf {state : TransactionState} :
    state ∈ statesOf records id ↔ ∃ record ∈ records, record.transaction = some (id, state) := by
  simp only [statesOf, mem_filterMap]
  constructor
  · rintro ⟨⟨i, s⟩, ⟨record, hmem, hrecord⟩, h⟩
    split at h
    · rename_i hi
      obtain rfl := Option.some.inj h
      exact ⟨record, hmem, by rw [hrecord, ← hi]⟩
    · cases h
  · rintro ⟨record, hmem, hrecord⟩
    exact ⟨(id, state), ⟨record, hmem, hrecord⟩, if_pos rfl⟩

theorem statesOf_concat : statesOf (records ++ [record]) id = statesOf records id ++
    statesOf [record] id := by
  rw [statesOf, filterMap_append, filterMap_append, statesOf, statesOf]

theorem begin_mem_concat (records : List Record)
    (hne : ∀ revisions, transactionBegin id revisions ≠ record)
    (revisions : SortedMap Long Long) :
    .transactionBegin id revisions ∈ records ++ [record] ↔
      .transactionBegin id revisions ∈ records := by
  rw [mem_append, mem_singleton, or_iff_left (hne revisions)]

theorem Describes.other (h : Describes records id entry)
    (hrecord : ∀ state, record.transaction ≠ some (id, state)) :
    Describes (records ++ [record]) id entry := by
  have hstates : statesOf (records ++ [record]) id = statesOf records id := by
    have hnil : statesOf [record] id = [] := eq_nil_iff_forall_not_mem.mpr fun state hstate => by
      obtain ⟨r, hr, htransaction⟩ := mem_statesOf.mp hstate
      rw [mem_singleton.mp hr] at htransaction
      exact hrecord state htransaction
    rw [statesOf_concat, hnil, append_nil]
  have hne : ∀ revisions, transactionBegin id revisions ≠ record := by
    rintro revisions rfl
    exact hrecord .begun rfl
  have hbegin := begin_mem_concat records hne
  refine ⟨?_, ?_, ?_, ?_, ?_⟩
  · rw [hstates]
    exact h.present
  · rw [hstates]
    exact h.reported
  · rw [hstates]
    exact h.greatest
  · simp only [hbegin]
    exact h.begun
  · simp only [hbegin]
    exact h.notBegun

theorem raised_some (state : TransactionState) (info : TransactionInfo) :
    ∃ state', indexed.raised state (some info) = some { info with state := state' } ∧
      (state' = info.state ∨ state' = state) ∧ info.state.code ≤ state'.code ∧
      state.code ≤ state'.code := by
  by_cases hlt : info.state.code < state.code
  · exact ⟨state, by rw [indexed.raised, if_pos hlt], .inr rfl, hlt.le, le_refl _⟩
  · exact ⟨info.state, by rw [indexed.raised, if_neg hlt], .inl rfl, le_refl _, not_lt.mp hlt⟩

/-- A record raises the state of its transaction. -/
theorem Describes.raised {state : TransactionState} (h : Describes records id entry)
    (hrecord : record.transaction = some (id, state)) (hbegins : record.begins = none) :
    Describes (records ++ [record]) id (indexed.raised state entry) := by
  have hstates : statesOf (records ++ [record]) id = statesOf records id ++ [state] := by
    rw [statesOf_concat]
    simp [statesOf, hrecord]
  have hne : ∀ revisions, transactionBegin id revisions ≠ record := by
    rintro revisions rfl
    cases hbegins
  have hbegin := begin_mem_concat records hne
  cases entry with
  | none =>
    have hnil : statesOf records id = [] := by simpa using h.present
    have hnone : ∀ revisions, transactionBegin id revisions ∉ records :=
      fun revisions hmem => by
        have := mem_statesOf.mpr ⟨_, hmem, rfl⟩
        simp [hnil] at this
    refine ⟨?_, ?_, ?_, ?_, ?_⟩
    · simp [indexed.raised, hstates]
    · simp [indexed.raised, hstates]
    · simp [indexed.raised, hstates, hnil]
    · simp only [hbegin]
      exact fun info _ revisions hmem => absurd hmem (hnone revisions)
    · simp [indexed.raised]
  | some info =>
    obtain ⟨state', heq, hchoice, hle, hle'⟩ := raised_some state info
    rw [heq]
    refine ⟨by simp [hstates], ?_, ?_, ?_, ?_⟩
    · rintro _ ⟨⟩
      rw [hstates]
      rcases hchoice with rfl | rfl
      · exact mem_append_left _ (h.reported info rfl)
      · exact mem_append_right _ (mem_singleton.mpr rfl)
    · rintro _ ⟨⟩ s hs
      rw [hstates] at hs
      rcases mem_append.mp hs with hs | hs
      · exact (h.greatest info rfl s hs).trans hle
      · rw [mem_singleton.mp hs]
        exact hle'
    · rintro _ ⟨⟩ revisions hmem
      exact h.begun info rfl revisions ((hbegin revisions).mp hmem)
    · rintro _ ⟨⟩ hnone
      exact h.notBegun info rfl fun revisions hmem => hnone revisions ((hbegin revisions).mpr hmem)

theorem begun_code_le (state : TransactionState) : TransactionState.begun.code ≤ state.code := by
  cases state <;> decide

/-- The first record of a transaction begins it. -/
theorem Describes.first {revisions : SortedMap Long Long} (h : Describes records id entry)
    (hfirst : ∀ revisions, .transactionBegin id revisions ∉ records) :
    Describes (records ++ [.transactionBegin id revisions]) id
      (indexed.begun revisions entry) := by
  have hstates : statesOf (records ++ [.transactionBegin id revisions]) id =
      statesOf records id ++ [.begun] := by
    rw [statesOf_concat]
    simp [statesOf, transaction]
  have hbegin : ∀ revs, .transactionBegin id revs ∈ records ++ [.transactionBegin id revisions] ↔
      revs = revisions := fun revs => by
    simp [hfirst revs]
  cases entry with
  | none =>
    have hnil : statesOf records id = [] := by simpa using h.present
    refine ⟨?_, ?_, ?_, ?_, ?_⟩
    · simp [indexed.begun, hstates]
    · simp [indexed.begun, hstates]
    · simp [indexed.begun, hstates, hnil]
    · simp [indexed.begun, hbegin]
    · simp [hbegin]
  | some info =>
    -- without a beginning there are no revisions yet, so those of the record are taken
    have hempty : info.revisions = .empty := h.notBegun info rfl hfirst
    have hlength : info.revisions.entries.length = 0 := by rw [hempty]; rfl
    refine ⟨?_, ?_, ?_, ?_, ?_⟩
    · simp [indexed.begun, hstates]
    · simp only [indexed.begun, hlength, hstates, if_true, Option.mem_some_iff]
      rintro _ rfl
      exact mem_append_left _ (h.reported info rfl)
    · simp only [indexed.begun, hlength, hstates, if_true, Option.mem_some_iff]
      rintro _ rfl state hstate
      rcases mem_append.mp hstate with hstate | hstate
      · exact h.greatest info rfl state hstate
      · rw [mem_singleton.mp hstate]
        exact begun_code_le _
    · simp only [indexed.begun, hlength, hbegin, if_true, Option.mem_some_iff]
      rintro _ rfl revs rfl
      rfl
    · simp [hbegin]

theorem Describes.step (h : Describes records id entry)
    (honce : ((records ++ [record]).filterMap begins).Nodup) :
    Describes (records ++ [record]) id (indexed id entry record) := by
  cases record with
  | transactionBegin transactionId revisions =>
    rw [indexed]
    split_ifs with hid
    · subst hid
      refine h.first fun revs hmem => ?_
      rw [filterMap_append, nodup_append] at honce
      exact honce.2.2 transactionId (mem_filterMap.mpr ⟨_, hmem, rfl⟩) transactionId
        (by simp [begins]) rfl
    · exact h.other fun state => by simp [transaction, hid]
  | transactionEnd transactionId =>
    rw [indexed]
    split_ifs with hid
    · exact h.raised (by rw [transaction, hid]) rfl
    · exact h.other fun state => by simp [transaction, hid]
  | rollback transactionId =>
    rw [indexed]
    split_ifs with hid
    · exact h.raised (by rw [transaction, hid]) rfl
    · exact h.other fun state => by simp [transaction, hid]
  | columnRevision columnId revision data => exact h.other fun state => by simp [transaction]
  | checkpoint columnId revision => exact h.other fun state => by simp [transaction]

theorem describes_foldl (honce : (records.filterMap begins).Nodup) :
    Describes records id (records.foldl (indexed id) none) := by
  induction records using List.reverseRecOn with
  | nil => exact ⟨by simp [statesOf], by simp, by simp, by simp, by simp⟩
  | append_singleton records record ih =>
    rw [foldl_append, foldl_cons, foldl_nil]
    refine (ih ?_).step honce
    rw [filterMap_append] at honce
    exact (nodup_append.mp honce).1

/-! ### Any order -/

theorem TransactionState.code_inj {state state' : TransactionState} (h : state.code = state'.code) :
    state = state' := by
  cases state <;> cases state' <;> first | rfl | cases h

/-- The order of the records does not matter. -/
theorem Describes.unique {records' : List Record} {entry' : Option TransactionInfo}
    (hperm : records'.Perm records) (h : Describes records id entry)
    (h' : Describes records' id entry') : entry' = entry := by
  have hstates : ∀ state, state ∈ statesOf records' id ↔ state ∈ statesOf records id :=
    fun state => by simp only [mem_statesOf, hperm.mem_iff]
  have hnil : statesOf records' id = [] ↔ statesOf records id = [] := by
    simp only [eq_nil_iff_forall_not_mem, hstates]
  cases entry with
  | none =>
    have hnone : statesOf records id = [] := by simpa using h.present
    have : entry'.isSome = false := by simpa [hnil, hnone] using h'.present
    simpa using this
  | some info =>
    have hsome : statesOf records id ≠ [] := h.present.mp rfl
    obtain ⟨info', rfl⟩ := Option.isSome_iff_exists.mp (h'.present.mpr (mt hnil.mp hsome))
    have hstate : info'.state = info.state := by
      refine TransactionState.code_inj (le_antisymm ?_ ?_)
      · exact h.greatest info rfl _ ((hstates _).mp (h'.reported info' rfl))
      · exact h'.greatest info' rfl _ ((hstates _).mpr (h.reported info rfl))
    have hrevisions : info'.revisions = info.revisions := by
      by_cases hbegin : ∃ revisions, .transactionBegin id revisions ∈ records
      · obtain ⟨revisions, hmem⟩ := hbegin
        rw [h.begun info rfl revisions hmem, h'.begun info' rfl revisions (hperm.mem_iff.mpr hmem)]
      · rw [not_exists] at hbegin
        rw [h.notBegun info rfl hbegin,
          h'.notBegun info' rfl fun revisions hmem => hbegin revisions (hperm.mem_iff.mp hmem)]
    obtain ⟨revisions, state⟩ := info
    obtain ⟨revisions', state'⟩ := info'
    obtain rfl : state' = state := hstate
    obtain rfl : revisions' = revisions := hrevisions
    rfl

open LogManager in
/-- **Indexing transactions** does not depend on the order of the records: each
transaction is in the index if and only if a record names it, with the greatest state
that is reported and the revisions it began with. -/
theorem transactions_orderFree {m : LogManager} (hm : m.transactions = .empty)
    {records : List (RecordHeader × Record)}
    (honce : (records.filterMap fun record => record.2.begins).Nodup) :
    (∀ id, Describes (records.map Prod.snd) id
      ((records.foldl indexRecord m).transactions.get? id)) ∧
    ∀ records' : List (RecordHeader × Record), records'.Perm records →
      (records'.foldl indexRecord m).transactions = (records.foldl indexRecord m).transactions := by
  have hdescribes : ∀ (rs : List (RecordHeader × Record)) (id : Long), rs.Perm records →
      Describes (rs.map Prod.snd) id ((rs.foldl indexRecord m).transactions.get? id) := by
    intro rs id hperm
    rw [get?_foldl_indexRecord, hm, SortedMap.get?_empty]
    refine describes_foldl ?_
    rw [filterMap_map]
    exact (hperm.filterMap _).nodup_iff.mpr honce
  refine ⟨fun id => hdescribes records id (.refl _), fun records' hperm => ?_⟩
  refine SortedMap.ext_get? fun id => ?_
  exact (hdescribes records id (.refl _)).unique (hperm.map Prod.snd) (hdescribes records' id hperm)

theorem seven_mem_long : (-2 ^ 63 : ℤ) ≤ 7 ∧ (7 : ℤ) ≤ 2 ^ 63 - 1 := by decide

/-- A transaction that is rolled back, and has begun with revision 1 of column 10000, the
records from the last one to the first. -/
def lateBegin : List (RecordHeader × Record) :=
  let header : RecordHeader := ⟨⟨0, zero_mem_long⟩, ⟨0, zero_mem_long⟩, 1024⟩
  [(header, .rollback ⟨7, seven_mem_long⟩), (header, .transactionEnd ⟨7, seven_mem_long⟩),
    (header, .transactionBegin ⟨7, seven_mem_long⟩
      (.insert .empty ⟨10000, column_mem_long⟩ ⟨1, one_mem_long⟩))]

open LogManager in
theorem transactions_orderFree_late :
    Describes (lateBegin.map Prod.snd) ⟨7, by decide⟩
      ((lateBegin.foldl indexRecord {}).transactions.get? ⟨7, by decide⟩) ∧
    (lateBegin.reverse.foldl indexRecord {}).transactions =
      (lateBegin.foldl indexRecord {}).transactions := by
  have honce : (lateBegin.filterMap fun record => record.2.begins).Nodup := by decide
  obtain ⟨hdescribes, hperm⟩ := transactions_orderFree (m := {}) rfl honce
  exact ⟨hdescribes _, hperm _ lateBegin.reverse_perm⟩

end Fastore.Store
