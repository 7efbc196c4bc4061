import Fastore.Client.Reads
import Fastore.Lib.Loops

/-!
Ranges within a transaction.

`getRange` of a transaction goes through the rows of the database and, with
two indexes, through the groups of the log. The inner loop is entered for a
row of the log that comes before the row of the database or is the same, but
its body moves on only from one that comes before. A row of the log with the
value and the ID of the row of the database is therefore met again in every
turn (`merge_ends_iff`).

The values are handed to `Compare` by their bytes. For the types of raw data
this is how they are compared everywhere; the comparison of strings takes the
address for that of a string object, and a row of the database without a
value has no bytes at all. What it answers is then anything, so the loops are
taken here with any answers (`Comparisons`).
-/

namespace Fastore.Client

open Lib Buffer
open List hiding flatten

variable {R A : Type} [LinearOrder R] [LinearOrder A]

/-! ### Ranges -/

structure Range (A : Type) where
  columnID : ColumnID
  start : Option (RangeBound A) := none
  stop : Option (RangeBound A) := none
  ascending : Bool := true
  deriving DecidableEq, Repr

def rangeToRangeRequest (range : Range A) (limit : ℤ) : RangeRequest A R :=
  { ascending := range.ascending, limit := limit, first := range.start, last := range.stop }

def rowOf (columnIds : List ColumnID) (M : ColumnID → R → Option A) (r : R) : DataSetRow R A :=
  ⟨r, columnIds.map fun c => M c r⟩

section Model

variable (rowText : R → A) (logMap : List (Option (LogColumn R A))) (rangeColumnID : ℕ)

/-- `addRow`. The text of the row ID becomes the value of the range column. -/
def addRow (rowId : R) : Except Fault (DataSetRow R A) := do
  let values ← logMap.zipIdx.mapM fun (colLog, i) =>
    if i = rangeColumnID then .ok (some (rowText rowId))
    else match colLog with
      | some colLog => ofBuffer (colLog.includes.getValue rowId)
      | none => .ok none
  .ok ⟨rowId, values⟩

end Model

/-! ### The turns of a merge -/

/-- The answers of `Compare` for the values and for the row IDs of a row of the log and a row
of the database, which may have no value. -/
structure Comparisons (R A : Type) where
  value : A → Option A → ℤ
  row : R → R → ℤ

/-- The variables of the merge: the rows of the database from the current one on,
the indexes into the groups of the log, and the rows of the result. -/
structure MergeState (R A : Type) where
  remote : List (DataSetRow R A)
  valueIndex : ℕ := 0
  rowIndex : ℕ := 0
  data : List (DataSetRow R A) := []

section Model

variable (cmp : Comparisons R A) (rowText : R → A) (logMap : List (Option (LogColumn R A)))
  (rangeColumnID : ℕ)
  (rangeLog : Option (LogColumn R A)) (localRange : List (ValueRows A R))

def addLocal (s : MergeState R A) : Except Fault (MergeState R A) :=
  match localRange[s.valueIndex]? with
  | none => .error .outOfRange
  | some group =>
    match group.rowIDs[s.rowIndex]? with
    | none => .error .outOfRange
    | some rowId => do
      let row ← addRow rowText logMap rangeColumnID rowId
      let s := { s with data := s.data ++ [row] }
      if group.rowIDs.length ≤ s.rowIndex + 1 then
        .ok { s with valueIndex := s.valueIndex + 1, rowIndex := 0 }
      else .ok { s with rowIndex := s.rowIndex + 1 }

def keepRemote (remoteRow : DataSetRow R A) : Except Fault (List (DataSetRow R A)) :=
  if rangeLog.all fun rangeLog => remoteRow.ID ∈ rangeLog.excludes then do
    let values ← overrideValues remoteRow.ID (logMap.set rangeColumnID none) remoteRow.values
    .ok [{ remoteRow with values := values }]
  else .ok []

def passRemote (remoteRow : DataSetRow R A) (remote : List (DataSetRow R A))
    (s : MergeState R A) : Except Fault (MergeState R A) := do
  let kept ← keepRemote logMap rangeColumnID rangeLog remoteRow
  .ok { s with remote := remote, data := s.data ++ kept }

def remoteTurn (remoteRow : DataSetRow R A) (remote : List (DataSetRow R A))
    (s : MergeState R A) : Except Fault (MergeState R A) :=
  match rangeLog, localRange[s.valueIndex]? with
  | some _, some group =>
    let valueComp := cmp.value group.value (remoteRow.values.getD rangeColumnID none)
    if valueComp < 0 then addLocal rowText logMap rangeColumnID localRange s
    else if valueComp = 0 then
      match group.rowIDs[s.rowIndex]? with
      | none => .error .outOfRange
      | some rowId =>
        let rowComp := cmp.row rowId remoteRow.ID
        if rowComp < 0 then addLocal rowText logMap rangeColumnID localRange s
        -- the loop is entered, and nothing is done
        else if rowComp = 0 then .ok s
        else passRemote logMap rangeColumnID rangeLog remoteRow remote s
    else passRemote logMap rangeColumnID rangeLog remoteRow remote s
  | _, _ => passRemote logMap rangeColumnID rangeLog remoteRow remote s

def orFault {S O : Type} : Except Fault S → S ⊕ Except Fault O
  | .ok s => .inl s
  | .error f => .inr (.error f)

def mergeTurn : Loop (MergeState R A) (Except Fault (List (DataSetRow R A))) := fun s =>
  match s.remote with
  | remoteRow :: remote =>
    orFault (remoteTurn cmp rowText logMap rangeColumnID rangeLog localRange remoteRow remote s)
  | [] =>
    match rangeLog, localRange[s.valueIndex]? with
    | some _, some _ => orFault (addLocal rowText logMap rangeColumnID localRange s)
    | _, _ => .inr (.ok s.data)

end Model

/-! ### The rows that are left -/

section Left

variable {localRange : List (ValueRows A R)} {s : MergeState R A}

def MergeState.At (localRange : List (ValueRows A R)) (s : MergeState R A) : Prop :=
  ∀ group, localRange[s.valueIndex]? = some group → s.rowIndex < group.rowIDs.length

def MergeState.left (localRange : List (ValueRows A R)) (s : MergeState R A) : List (A × R) :=
  (flatten (localRange.drop s.valueIndex)).drop s.rowIndex

section

omit [LinearOrder R] [LinearOrder A]

theorem left_of_none (h : localRange[s.valueIndex]? = none) : s.left localRange = [] := by
  rw [MergeState.left, drop_eq_nil_of_le (getElem?_eq_none_iff.mp h)]
  exact drop_nil

theorem flatten_drop {i : ℕ} {group : ValueRows A R} (h : localRange[i]? = some group) :
    flatten (localRange.drop i) =
      group.rowIDs.map (group.value, ·) ++ flatten (localRange.drop (i + 1)) := by
  obtain ⟨hi, rfl⟩ := List.getElem?_eq_some_iff.mp h
  rw [List.drop_eq_getElem_cons hi]
  rfl

theorem left_of_some (hat : s.At localRange) {group : ValueRows A R}
    (h : localRange[s.valueIndex]? = some group) : ∃ rowId, group.rowIDs[s.rowIndex]? = some rowId ∧
      s.left localRange = (group.value, rowId) ::
        (flatten (localRange.drop s.valueIndex)).drop (s.rowIndex + 1) := by
  have hrow := hat group h
  refine ⟨_, getElem?_eq_getElem hrow, ?_⟩
  have hlength : s.rowIndex < (flatten (localRange.drop s.valueIndex)).length := by
    rw [flatten_drop h, length_append, length_map]
    omega
  rw [MergeState.left, drop_eq_getElem_cons hlength]
  congr 1
  simp only [flatten_drop h]
  rw [getElem_append_left (by simpa using hrow), getElem_map]

end

variable {rowText : R → A} {logMap : List (Option (LogColumn R A))} {p : ℕ}

/-- The next local row is added where the merge stands. -/
theorem addLocal_spec (hadd : ∀ r, ∃ row, addRow rowText logMap p r = .ok row)
    (hgroups : ∀ g ∈ localRange, g.rowIDs ≠ []) (hat : s.At localRange) {cell : A × R}
    {cells : List (A × R)} (hleft : s.left localRange = cell :: cells) :
    ∃ s' : MergeState R A, addLocal rowText logMap p localRange s = .ok s' ∧
      s'.remote = s.remote ∧ s'.At localRange ∧ s'.left localRange = cells := by
  cases hgroup : localRange[s.valueIndex]? with
  | none =>
    rw [left_of_none hgroup] at hleft
    cases hleft
  | some group =>
    obtain ⟨rowId, hrowId, hcons⟩ := left_of_some hat hgroup
    obtain ⟨rfl, rfl⟩ := List.cons.inj (hcons.symm.trans hleft)
    obtain ⟨row, hrow⟩ := hadd rowId
    simp only [addLocal, hgroup, hrowId, hrow, bind, Except.bind]
    have hlt := hat group hgroup
    by_cases hlast : group.rowIDs.length ≤ s.rowIndex + 1
    · -- the group is through
      rw [if_pos hlast]
      refine ⟨_, rfl, rfl, fun g hg => length_pos_iff.mpr (hgroups g (mem_of_getElem? hg)), ?_⟩
      have hend : s.rowIndex + 1 = (group.rowIDs.map (group.value, ·)).length := by
        rw [length_map]
        omega
      simp only [MergeState.left, flatten_drop hgroup, hend, drop_left, drop_zero]
    · rw [if_neg hlast]
      refine ⟨_, rfl, rfl, fun g hg => ?_, rfl⟩
      obtain rfl := some_unique hgroup hg
      simp only
      omega

end Left

/-! ### Ties -/

section Ties

variable {cmp : Comparisons R A} {rowText : R → A} {logMap : List (Option (LogColumn R A))} {p : ℕ}
  {rangeLog : Option (LogColumn R A)} {localRange : List (ValueRows A R)} {s : MergeState R A}

def Comparisons.before (cmp : Comparisons R A) (p : ℕ) (remoteRow : DataSetRow R A)
    (cell : A × R) : Bool :=
  cmp.value cell.1 (remoteRow.values.getD p none) < 0 ||
    cmp.value cell.1 (remoteRow.values.getD p none) = 0 && cmp.row cell.2 remoteRow.ID < 0

def Comparisons.same (cmp : Comparisons R A) (p : ℕ) (remoteRow : DataSetRow R A)
    (cell : A × R) : Bool :=
  cmp.value cell.1 (remoteRow.values.getD p none) = 0 && cmp.row cell.2 remoteRow.ID = 0

/-- Of the cells of the log that are left when a row of the database is reached, and that
do not come before it, the first is the row itself. -/
def Ties (cmp : Comparisons R A) (p : ℕ) : List (DataSetRow R A) → List (A × R) → Prop
  | [], _ => False
  | remoteRow :: remote, cells =>
    (cells.dropWhile (cmp.before p remoteRow)).head?.any (cmp.same p remoteRow) = true ∨
      Ties cmp p remote (cells.dropWhile (cmp.before p remoteRow))

omit [LinearOrder R] [LinearOrder A] in
theorem not_ties_nil (remote : List (DataSetRow R A)) : ¬ Ties cmp p remote [] := by
  induction remote with
  | nil => exact id
  | cons remoteRow remote ih =>
    rintro (htie | htie)
    · cases htie
    · exact ih htie

def MergeState.pending (rangeLog : Option (LogColumn R A)) (localRange : List (ValueRows A R))
    (s : MergeState R A) : List (A × R) :=
  if rangeLog.isSome then s.left localRange else []

variable {cell : A × R} {cells : List (A × R)}

theorem pending_cons (hpending : s.pending rangeLog localRange = cell :: cells) :
    rangeLog.isSome ∧ s.left localRange = cell :: cells := by
  rw [MergeState.pending] at hpending
  split at hpending
  · rename_i hsome
    exact ⟨hsome, hpending⟩
  · cases hpending

theorem group_of_pending (hat : s.At localRange)
    (hpending : s.pending rangeLog localRange = cell :: cells) :
    ∃ log group, rangeLog = some log ∧ localRange[s.valueIndex]? = some group ∧
      group.rowIDs[s.rowIndex]? = some cell.2 ∧ group.value = cell.1 := by
  obtain ⟨hsome, hleft⟩ := pending_cons hpending
  obtain ⟨log, rfl⟩ := Option.isSome_iff_exists.mp hsome
  cases hgroup : localRange[s.valueIndex]? with
  | none =>
    rw [left_of_none hgroup] at hleft
    cases hleft
  | some group =>
    obtain ⟨rowId, hrowId, hcons⟩ := left_of_some hat hgroup
    obtain ⟨rfl, -⟩ := List.cons.inj (hcons.symm.trans hleft)
    exact ⟨log, group, rfl, rfl, hrowId, rfl⟩

theorem no_group_of_pending (hat : s.At localRange)
    (hpending : s.pending rangeLog localRange = []) :
    rangeLog = none ∨ localRange[s.valueIndex]? = none := by
  cases rangeLog with
  | none => exact .inl rfl
  | some log =>
    refine .inr ?_
    by_contra hgroup
    obtain ⟨group, hgroup⟩ := Option.ne_none_iff_exists'.mp hgroup
    obtain ⟨rowId, -, hcons⟩ := left_of_some hat hgroup
    simp [MergeState.pending, hcons] at hpending

theorem turn_nil (hat : s.At localRange) (hpending : s.pending rangeLog localRange = [])
    (hremote : s.remote = []) :
    mergeTurn cmp rowText logMap p rangeLog localRange s = .inr (.ok s.data) := by
  rcases no_group_of_pending hat hpending with rfl | hgroup
  · simp only [mergeTurn, hremote]
  · cases rangeLog <;> simp only [mergeTurn, hremote, hgroup]

theorem turn_last (hat : s.At localRange) (hpending : s.pending rangeLog localRange = cell :: cells)
    (hremote : s.remote = []) :
    mergeTurn cmp rowText logMap p rangeLog localRange s =
      orFault (addLocal rowText logMap p localRange s) := by
  obtain ⟨log, group, rfl, hgroup, -, -⟩ := group_of_pending hat hpending
  simp only [mergeTurn, hremote, hgroup]

theorem remoteTurn_nil (hat : s.At localRange) (hpending : s.pending rangeLog localRange = [])
    {remoteRow : DataSetRow R A} {remote : List (DataSetRow R A)} :
    remoteTurn cmp rowText logMap p rangeLog localRange remoteRow remote s =
      passRemote logMap p rangeLog remoteRow remote s := by
  rcases no_group_of_pending hat hpending with rfl | hgroup
  · rfl
  · cases rangeLog <;> simp only [remoteTurn, hgroup]

theorem remoteTurn_cons (hat : s.At localRange)
    (hpending : s.pending rangeLog localRange = cell :: cells) {remoteRow : DataSetRow R A}
    {remote : List (DataSetRow R A)} :
    remoteTurn cmp rowText logMap p rangeLog localRange remoteRow remote s =
      if cmp.before p remoteRow cell then addLocal rowText logMap p localRange s
      else if cmp.same p remoteRow cell then .ok s
      else passRemote logMap p rangeLog remoteRow remote s := by
  obtain ⟨log, group, rfl, hgroup, hrow, hvalue⟩ := group_of_pending hat hpending
  simp only [remoteTurn, hgroup, hrow, hvalue, Comparisons.before, Comparisons.same]
  rcases lt_trichotomy (cmp.value cell.1 (remoteRow.values.getD p none)) 0 with hneg | hzero | hpos
  · simp only [hneg, if_true, decide_true, Bool.true_or]
  · simp only [hzero, lt_irrefl, if_false, if_true, decide_true, decide_false, Bool.false_or,
      Bool.true_and, decide_eq_true_eq]
  · simp only [hpos.not_gt, hpos.ne', if_false, decide_false, Bool.false_or, Bool.false_and,
      Bool.false_eq_true]

theorem ends_orFault {s s' : MergeState R A} {x : Except Fault (MergeState R A)}
    (hturn : mergeTurn cmp rowText logMap p rangeLog localRange s = orFault x) (hx : x = .ok s') :
    (∃ o, (mergeTurn cmp rowText logMap p rangeLog localRange).Ends s o) ↔
      ∃ o, (mergeTurn cmp rowText logMap p rangeLog localRange).Ends s' o := by
  subst hx
  exact exists_congr fun o => Loop.ends_again hturn

/-- Each turn uses up a row of one of the sides, or is taken again and again. -/
theorem ends_iff_not_ties (hadd : ∀ r, ∃ row, addRow rowText logMap p r = .ok row)
    (hkeep : ∀ remoteRow, ∃ kept, keepRemote logMap p rangeLog remoteRow = .ok kept)
    (hgroups : ∀ g ∈ localRange, g.rowIDs ≠ []) (hat : s.At localRange) :
    (∃ o, (mergeTurn cmp rowText logMap p rangeLog localRange).Ends s o) ↔
      ¬ Ties cmp p s.remote (s.pending rangeLog localRange) := by
  induction hn : s.remote.length + (s.pending rangeLog localRange).length
    using Nat.strong_induction_on generalizing s with
  | _ n ih =>
    -- a row of the log is added
    have hlocal : ∀ {cell cells}, s.pending rangeLog localRange = cell :: cells →
        mergeTurn cmp rowText logMap p rangeLog localRange s =
          orFault (addLocal rowText logMap p localRange s) →
        ((∃ o, (mergeTurn cmp rowText logMap p rangeLog localRange).Ends s o) ↔
          ¬ Ties cmp p s.remote cells) := by
      intro cell cells hpending hturn
      obtain ⟨hsome, hleft⟩ := pending_cons hpending
      obtain ⟨s', hs', hremote, hat', hleft'⟩ := addLocal_spec hadd hgroups hat hleft
      have hpending' : s'.pending rangeLog localRange = cells := by
        rw [MergeState.pending, if_pos hsome, hleft']
      rw [ends_orFault hturn hs', ih _ ?_ hat' rfl, hremote, hpending']
      rw [← hn, hremote, hpending, hpending', length_cons]
      omega
    -- a row of the database is passed
    have hpass : ∀ {remoteRow remote}, s.remote = remoteRow :: remote →
        mergeTurn cmp rowText logMap p rangeLog localRange s =
          orFault (passRemote logMap p rangeLog remoteRow remote s) →
        ((∃ o, (mergeTurn cmp rowText logMap p rangeLog localRange).Ends s o) ↔
          ¬ Ties cmp p remote (s.pending rangeLog localRange)) := by
      intro remoteRow remote hremote hturn
      obtain ⟨kept, hkept⟩ := hkeep remoteRow
      have hs' : passRemote logMap p rangeLog remoteRow remote s =
          .ok { s with remote := remote, data := s.data ++ kept } := by
        rw [passRemote, hkept]
        rfl
      rw [ends_orFault hturn hs', ih _ ?_ (by exact hat) rfl]
      · rfl
      · rw [← hn, hremote, length_cons]
        exact Nat.add_lt_add_right (Nat.lt_succ_self _) _
    cases hremote : s.remote with
    | nil =>
      refine iff_of_true ?_ id
      cases hpending : s.pending rangeLog localRange with
      | nil => exact ⟨_, (Loop.ends_done (turn_nil hat hpending hremote)).mpr rfl⟩
      | cons cell cells =>
        refine (hlocal hpending (turn_last hat hpending hremote)).mpr ?_
        rw [hremote]
        exact id
    | cons remoteRow remote =>
      have hturn : mergeTurn cmp rowText logMap p rangeLog localRange s = orFault
          (remoteTurn cmp rowText logMap p rangeLog localRange remoteRow remote s) := by
        simp only [mergeTurn, hremote]
      cases hpending : s.pending rangeLog localRange with
      | nil =>
        rw [remoteTurn_nil hat hpending] at hturn
        rw [hpass hremote hturn, hpending]
        simp [Ties]
      | cons cell cells =>
        rw [remoteTurn_cons hat hpending] at hturn
        by_cases hbefore : cmp.before p remoteRow cell = true
        · rw [if_pos hbefore] at hturn
          rw [hlocal hpending hturn, hremote, Ties, Ties, dropWhile_cons_of_pos hbefore]
        · rw [Ties, dropWhile_cons_of_neg hbefore, head?_cons, Option.any_some]
          rw [if_neg hbefore] at hturn
          by_cases hsame : cmp.same p remoteRow cell = true
          · -- the same state, again and again
            rw [if_pos hsame] at hturn
            refine iff_of_false ?_ (not_not.mpr (.inl hsame))
            rintro ⟨o, ho⟩
            refine Loop.not_ends (I := (· = s)) ?_ rfl ho
            rintro _ rfl
            exact ⟨_, hturn, rfl⟩
          · rw [if_neg hsame] at hturn
            rw [hpass hremote hturn, hpending]
            simp [hsame]

theorem overrideValues_isOk (r : R) (values : List (Option A))
    (h : ∀ colLog, some colLog ∈ logMap → ∃ L, colLog.includes.Holds L) :
    ∃ values', overrideValues r logMap values = .ok values' := by
  induction logMap generalizing values with
  | nil => exact ⟨values, rfl⟩
  | cons colLog logMap ih =>
    cases values with
    | nil => exact ⟨[], rfl⟩
    | cons value values =>
      obtain ⟨rest, hrest⟩ := ih values fun colLog hmem => h colLog (mem_cons_of_mem _ hmem)
      cases colLog with
      | none =>
        simp only [overrideValues, hrest]
        exact ⟨_, rfl⟩
      | some colLog =>
        obtain ⟨L, hL⟩ := h colLog mem_cons_self
        simp only [overrideValues, LogColumn.applyColumnOverrides, TreeBuffer.getValue_eq hL,
          hrest]
        exact ⟨_, rfl⟩

theorem keepRemote_isOk (remoteRow : DataSetRow R A)
    (h : ∀ colLog, some colLog ∈ logMap → ∃ L, colLog.includes.Holds L) :
    ∃ kept, keepRemote logMap p rangeLog remoteRow = .ok kept := by
  rw [keepRemote]
  split
  · have hset : ∀ colLog, some colLog ∈ logMap.set p none → ∃ L, colLog.includes.Holds L := by
      intro colLog hmem
      rcases mem_or_eq_of_mem_set hmem with hmem | heq
      · exact h colLog hmem
      · cases heq
    obtain ⟨values, hvalues⟩ := overrideValues_isOk remoteRow.ID remoteRow.values hset
    rw [hvalues]
    exact ⟨_, rfl⟩
  · exact ⟨[], rfl⟩

theorem Transaction.Logs.addRow {t : Transaction R A} {E : ColumnID → R → List (Option A)}
    (h : t.Logs E) (rowText : R → A) (columnIds : List ColumnID) (p : ℕ) (r : R) :
    ∃ row, addRow rowText (columnIds.map t.log) p r = .ok row := by
  have hvalues : ((columnIds.map t.log).zipIdx.mapM fun (colLog, i) =>
      if i = p then Except.ok (some (rowText r))
      else match colLog with
        | some colLog => ofBuffer (colLog.includes.getValue r)
        | none => .ok none) = .ok (columnIds.zipIdx.map fun ci =>
          if ci.2 = p then some (rowText r) else firstInclude (E ci.1 r)) := by
    rw [zipIdx_map, mapM_map]
    refine mapM_eq_ok fun ci _ => ?_
    obtain ⟨c, i⟩ := ci
    simp only [Function.comp_apply, Prod.map_apply, id]
    by_cases hi : i = p
    · simp only [if_pos hi]
    · simp only [if_neg hi]
      cases hc : t.log c with
      | some colLog =>
        exact congrArg ofBuffer (TreeBuffer.getValue_eq (Has.column h hc).includes r)
      | none =>
        have hlog := h c
        rw [hc] at hlog
        exact congrArg Except.ok (congrFun hlog.1 r).symm
  rw [Client.addRow, hvalues]
  exact ⟨_, rfl⟩

/-- **When a merge ends**: for every list of rows from the database and all groups of the
log, and whatever the comparisons answer, the loops end exactly if no tie is met. -/
theorem merge_ends_iff {env : Env R A} {calls : List (Call R A)} {t : Transaction R A}
    (hcalls : calls.foldlM (Transaction.call env) {} = .ok t) (cmp : Comparisons R A)
    (rowText : R → A) (columnIds : List ColumnID) (p : ℕ) (rangeLog : Option (LogColumn R A))
    (remote : List (DataSetRow R A)) {localRange : List (ValueRows A R)}
    (hgroups : ∀ g ∈ localRange, g.rowIDs ≠ []) :
    (∃ o, (mergeTurn cmp rowText (columnIds.map t.log) p rangeLog localRange).Ends
        { remote := remote } o) ↔
      rangeLog = none ∨ ¬ Ties cmp p remote (flatten localRange) := by
  have hlogs : t.Logs (events calls) := Transaction.has_of_calls hcalls
  have hread : ∀ colLog, some colLog ∈ columnIds.map t.log → ∃ L, colLog.includes.Holds L := by
    intro colLog hmem
    obtain ⟨c, -, hc⟩ := mem_map.mp hmem
    exact ⟨_, (Transaction.Has.column hlogs hc).includes⟩
  have hat : ({ remote := remote } : MergeState R A).At localRange := fun g hg =>
    length_pos_iff.mpr (hgroups g (mem_of_getElem? hg))
  rw [ends_iff_not_ties (hlogs.addRow rowText columnIds p)
    (fun remoteRow => keepRemote_isOk remoteRow hread) hgroups hat, MergeState.pending]
  cases rangeLog with
  | none => simp [not_ties_nil]
  | some log => simp [MergeState.left]

def byOrder : Comparisons ℕ ℕ where
  value a b := b.elim 0 fun b => (Tree.ScalarType.ofOrder ℕ).compare a b
  row := (Tree.ScalarType.ofOrder ℕ).compare

/-- Rows of the log before and between those of the database. -/
theorem merge_ends_apart : ∃ t log localRange,
    ([.includeRow [0] 5 [5], .includeRow [0] 7 [7]] : List (Call ℕ ℕ)).foldlM
      (Transaction.call anyColumns) {} = .ok t ∧
    t.log 0 = some log ∧
    log.includes.getRows (rangeToRangeRequest { columnID := 0 } 10) = .ok localRange ∧
    ∃ o, (mergeTurn byOrder id ([0].map t.log) 0 (some log) localRange.valueRowsList).Ends
      { remote := [⟨6, [some 6]⟩, ⟨8, [some 8]⟩] } o := by
  obtain ⟨t, log, hcalls, hlog, hlocal⟩ : ∃ t log,
      ([.includeRow [0] 5 [5], .includeRow [0] 7 [7]] : List (Call ℕ ℕ)).foldlM
        (Transaction.call anyColumns) {} = .ok t ∧
      t.log 0 = some log ∧ log.includes.getRows (rangeToRangeRequest { columnID := 0 } 10) =
        .ok ⟨[⟨5, [5]⟩, ⟨7, [7]⟩], true, true, false⟩ := ⟨_, _, rfl, rfl, by decide +kernel⟩
  refine ⟨t, log, _, hcalls, hlog, hlocal,
    (merge_ends_iff hcalls byOrder id [0] 0 _ _ (by simp)).mpr (.inr ?_)⟩
  simp only [Ties, or_false]
  decide +kernel

/-- The transaction includes a cell that the database has. -/
theorem merge_tie : ∃ t log localRange,
    ([.includeRow [0] 5 [5]] : List (Call ℕ ℕ)).foldlM (Transaction.call anyColumns) {} = .ok t ∧
    t.log 0 = some log ∧
    log.includes.getRows (rangeToRangeRequest { columnID := 0 } 10) = .ok localRange ∧
    ∀ o, ¬ (mergeTurn byOrder id ([0].map t.log) 0 (some log) localRange.valueRowsList).Ends
      { remote := [⟨5, [some 5]⟩] } o := by
  refine ⟨_, _, ⟨[⟨5, [5]⟩], true, true, false⟩, rfl, rfl, ?_, fun o => ?_⟩
  · decide +kernel
  · refine Loop.not_ends (I := (· = { remote := [⟨5, [some 5]⟩] })) ?_ rfl
    rintro _ rfl
    exact ⟨_, rfl, rfl⟩

end Ties

end Fastore.Client
