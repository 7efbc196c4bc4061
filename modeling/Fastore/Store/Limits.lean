import Fastore.Store.Format
import Fastore.Store.Index

/-!
The limit of a log file.

Before a record is written, its size is estimated and a new file is begun if the
current one would get too long. If no record is longer than its estimate, no
file outgrows the limit (`writeEntry_limit`).

The estimate of the end of a transaction is less than what the documented
layout needs, so every commit has a record that is not covered
(`limits_iff`). As text, the records may be longer or shorter than documented.
-/

namespace Fastore.Store

open Lib List

/-! ### Records of a commit -/

inductive Entry
  | transactionBegin (transactionID : Long) (revisions : SortedMap Long Long)
  | columnRevision (columnId revision : Long) (buffer : List Char)
  | transactionEnd (transactionID : Long)

namespace Entry

def record : Entry → Record
  | .transactionBegin transactionID revisions => .transactionBegin transactionID revisions
  | .columnRevision columnId revision buffer => .columnRevision columnId revision buffer
  | .transactionEnd transactionID => .transactionEnd transactionID

def estimate : Entry → ℤ
  | .transactionBegin _ revisions => transactionBeginSize + 16 * revisions.entries.length
  | .columnRevision _ _ buffer => buffer.length + revisionSize
  | .transactionEnd _ => transactionEndSize

/-- The size by the layout of `LogConstants.h`. -/
def documentedSize : Entry → ℤ
  | .transactionBegin _ revisions => 4 + 8 + 8 + 8 + (8 + 8) * revisions.entries.length + 16
  | .columnRevision _ _ buffer => 4 + 8 + 8 + 8 + 4 + buffer.length + 16
  | .transactionEnd _ => 4 + 8 + 8 + 16

def emittedSize (e : Entry) (now : Long) : ℕ := (text (now, e.record)).length + 16

end Entry

def Commit.entries (commit : Commit) : List Entry :=
  .transactionBegin commit.transactionID commit.revisions ::
    (commit.writes.entries.filterMap fun write =>
      (commit.revisions.get? write.1).map fun revision => .columnRevision write.1 revision write.2) ++
    [.transactionEnd commit.transactionID]

namespace LogManager

variable {h : Host} {m m' : LogManager}

def writeEntry (h : Host) (m : LogManager) : Entry → Except Fault LogManager
  | .transactionBegin transactionID revisions => m.writeTransactionBegin h transactionID revisions
  | .columnRevision columnId revision buffer => m.writeRevision h columnId revision buffer
  | .transactionEnd transactionID => m.writeTransactionEnd h transactionID

theorem internalCommit_entries {commit : Commit} (hok : m.internalCommit h commit = .ok m') :
    commit.entries.foldlM (writeEntry h) m = .ok m' := by
  have hwrites : ∀ {ws : List (Long × List Char)} {m m' : LogManager},
      ws.foldlM (fun m write => m.writeRevisions h commit.revisions write) m = .ok m' →
      (ws.filterMap fun write => (commit.revisions.get? write.1).map fun revision =>
        Entry.columnRevision write.1 revision write.2).foldlM (writeEntry h) m = .ok m' := by
    intro ws
    induction ws with
    | nil => exact id
    | cons write ws ih =>
      intro m m' hok
      rw [foldlM_cons] at hok
      obtain ⟨m₁, hm₁, hok⟩ := eq_ok_of_bind hok
      rw [writeRevisions] at hm₁
      split at hm₁
      · rename_i revision hrevision
        rw [filterMap_cons, hrevision, Option.map_some, foldlM_cons, writeEntry, hm₁]
        exact ih hok
      · cases hm₁
  obtain ⟨m₁, hm₁, hok⟩ := eq_ok_of_bind hok
  obtain ⟨m₂, hm₂, hok⟩ := eq_ok_of_bind hok
  rw [Commit.entries, cons_append, foldlM_cons, writeEntry, hm₁]
  change List.foldlM (writeEntry h) m₁ _ = _
  rw [foldlM_append, hwrites hm₂]
  change List.foldlM (writeEntry h) m₂ _ = _
  rw [foldlM_cons, writeEntry, hok]
  rfl

/-! ### Room for a record -/

def Limited (m : LogManager) : Prop := ∀ w ∈ m.writer, w.2.size ≤ maxLogSize

theorem createLogFile_size (hok : m.createLogFile h = .ok m') :
    ∃ w, m'.writer = some w ∧ w.2.size = logHeaderSize := by
  obtain ⟨newLsn, -, rfl⟩ := eq_ok_of_map hok
  exact ⟨_, rfl, rfl⟩

theorem prepLog_room {size : ℤ} (hfits : logHeaderSize + size ≤ maxLogSize)
    (hok : m.prepLog h size = .ok m') :
    ∃ w, m'.writer = some w ∧ w.2.size + size ≤ maxLogSize := by
  obtain ⟨-, hwriter⟩ := prepLog_spec hok
  obtain ⟨m₁, hm₁, hok⟩ := eq_ok_of_bind hok
  split at hok
  · rename_i filename w hw
    split at hok
    · obtain ⟨w', hw', hsize⟩ := createLogFile_size hok
      exact ⟨w', hw', by rw [hsize]; exact hfits⟩
    · rename_i hroom
      obtain rfl := Except.ok.inj hok
      exact ⟨_, hw, not_lt.mp hroom⟩
  · rename_i hnone
    obtain rfl := Except.ok.inj hok
    rw [hnone] at hwriter
    cases hwriter

theorem writeEntry_spec {e : Entry} (hok : m.writeEntry h e = .ok m') :
    ∃ m₁, m.prepLog h e.estimate = .ok m₁ ∧ m'.ticks = m₁.ticks + 1 ∧
      m'.writer = m₁.writer.map fun w => (w.1, w.2.write (h.time m₁.ticks, e.record)) := by
  cases e with
  | transactionBegin transactionID revisions =>
    obtain ⟨m₁, hm₁, rfl⟩ := eq_ok_of_map hok
    exact ⟨m₁, hm₁, rfl, rfl⟩
  | columnRevision columnId revision buffer =>
    obtain ⟨m₁, hm₁, hok⟩ := eq_ok_of_bind hok
    split at hok
    · obtain rfl := Except.ok.inj hok
      exact ⟨m₁, hm₁, rfl, rfl⟩
    · cases hok
  | transactionEnd transactionID =>
    obtain ⟨m₁, hm₁, rfl⟩ := eq_ok_of_map hok
    exact ⟨m₁, hm₁, rfl, rfl⟩

theorem size_write (w : LogWriter) (now : Long) (e : Entry) :
    (w.write (now, e.record)).size = w.size + e.emittedSize now := by
  rw [write_eq, LogWriter.append, Entry.emittedSize, Nat.add_assoc]

theorem prepLog_of_room {size : ℤ} {w : String × LogWriter} (hw : m.writer = some w)
    (hroom : w.2.size + size ≤ maxLogSize) : m.prepLog h size = .ok m := by
  have hensure : m.ensureWriter h = .ok m := by simp [ensureWriter, hw]
  simp only [prepLog, hensure, bind, Except.bind, hw]
  exact if_neg (not_lt.mpr hroom)

theorem writeEntry_of_room {e : Entry} {w : String × LogWriter} (hw : m.writer = some w)
    (hroom : w.2.size + e.estimate ≤ maxLogSize) :
    ∃ m', m.writeEntry h e = .ok m' ∧ m'.ticks = m.ticks + 1 ∧
      m'.writer = some (w.1, w.2.write (h.time m.ticks, e.record)) := by
  have hprep := prepLog_of_room (h := h) hw hroom
  have hok : ∃ m', m.writeEntry h e = .ok m' := by
    cases e with
    | transactionBegin transactionID revisions =>
      rw [Entry.estimate] at hprep
      exact ⟨_, by rw [writeEntry, writeTransactionBegin, hprep]; rfl⟩
    | columnRevision columnId revision buffer =>
      rw [Entry.estimate] at hprep
      exact ⟨_, by simp only [writeEntry, writeRevision, hprep, bind, Except.bind, hw]; rfl⟩
    | transactionEnd transactionID =>
      rw [Entry.estimate] at hprep
      exact ⟨_, by rw [writeEntry, writeTransactionEnd, hprep]; rfl⟩
  obtain ⟨m', hok⟩ := hok
  obtain ⟨m₁, hm₁, hticks, hwriter⟩ := writeEntry_spec hok
  obtain rfl := ok_unique hprep hm₁
  exact ⟨m', hok, hticks, by rw [hwriter, hw]; rfl⟩

/-- The estimate covers the record, in both layouts, when it is written next. -/
structure Covered (h : Host) (m : LogManager) (e : Entry) : Prop where
  documented : e.documentedSize ≤ e.estimate
  emitted : ∀ m₁, m.prepLog h e.estimate = .ok m₁ → e.emittedSize (h.time m₁.ticks) ≤ e.estimate

/-- **The limit**: a record that is not longer than its estimate leaves the file within it. -/
theorem writeEntry_limit {e : Entry} (hfits : logHeaderSize + e.estimate ≤ maxLogSize)
    (hemitted : ∀ m₁, m.prepLog h e.estimate = .ok m₁ →
      e.emittedSize (h.time m₁.ticks) ≤ e.estimate)
    (hok : m.writeEntry h e = .ok m') : m'.Limited := by
  obtain ⟨m₁, hm₁, -, hwriter⟩ := writeEntry_spec hok
  obtain ⟨w, hw, hroom⟩ := prepLog_room hfits hm₁
  have hsize := hemitted m₁ hm₁
  rintro w' hw'
  rw [hwriter, hw, Option.map_some] at hw'
  obtain rfl := Option.some.inj hw'
  rw [size_write]
  omega

/-! ### Runs -/

def Throughout (P : LogManager → Entry → Prop) (h : Host) (m₀ : LogManager) (es : List Entry) : Prop :=
  ∀ before e after m, es = before ++ e :: after → before.foldlM (writeEntry h) m₀ = .ok m → P m e

/-- Every estimate covers its record, and no file outgrows the limit. -/
def WithinLimits (h : Host) (m₀ : LogManager) (commits : List Commit) : Prop :=
  Throughout (fun m e => Covered h m e ∧ ∀ m', m.writeEntry h e = .ok m' → m'.Limited) h m₀
    (commits.flatMap Commit.entries)

/-- Every record is written as a text that is not longer than its estimate. -/
def TextsCovered (h : Host) (m₀ : LogManager) (commits : List Commit) : Prop :=
  Throughout (fun m e => ∀ m₁, m.prepLog h e.estimate = .ok m₁ →
    e.emittedSize (h.time m₁.ticks) ≤ e.estimate) h m₀ (commits.flatMap Commit.entries)

end LogManager

theorem transactionEnd_not_documented (transactionID : Long) :
    ¬ (Entry.transactionEnd transactionID).documentedSize ≤
      (Entry.transactionEnd transactionID).estimate := by
  simp only [Entry.documentedSize, Entry.estimate]
  decide

open LogManager in
/-- **The limit of the log files** is kept by estimates that cover their records if and
only if there are no records; and whenever the texts are covered no file outgrows it. -/
theorem limits_iff {h : Host} {m₀ m : LogManager} {commits : List Commit}
    (hrun : commits.foldlM (internalCommit h) m₀ = .ok m)
    (hfits : ∀ e ∈ commits.flatMap Commit.entries, logHeaderSize + e.estimate ≤ maxLogSize) :
    (WithinLimits h m₀ commits ↔ commits = []) ∧
    (TextsCovered h m₀ commits → Throughout (fun m e => ∀ m', m.writeEntry h e = .ok m' → m'.Limited)
      h m₀ (commits.flatMap Commit.entries)) := by
  refine ⟨⟨fun hwithin => ?_, ?_⟩, fun hcovered before e after m₁ hes hbefore m₂ hm₂ => ?_⟩
  · cases commits with
    | nil => rfl
    | cons commit commits =>
      rw [foldlM_cons] at hrun
      obtain ⟨m₁, hm₁, -⟩ := eq_ok_of_bind hrun
      have hentries := internalCommit_entries hm₁
      rw [Commit.entries, foldlM_append] at hentries
      obtain ⟨m₂, hm₂, -⟩ := eq_ok_of_bind hentries
      -- the last record of the first commit
      have hlast := hwithin _ (.transactionEnd commit.transactionID)
        (commits.flatMap Commit.entries) m₂ (by
          rw [flatMap_cons, Commit.entries, append_assoc, singleton_append]) hm₂
      exact absurd hlast.1.documented (transactionEnd_not_documented _)
  · rintro rfl before e after m₁ hes
    simp at hes
  · have hmem : e ∈ commits.flatMap Commit.entries := by
      rw [hes]
      simp
    exact writeEntry_limit (hfits e hmem) (hcovered before e after m₁ hes hbefore) hm₂

open LogManager in
/-- The first commit has a record that is not covered. -/
theorem limits_iff_first : ∃ m, [firstCommit].foldlM (internalCommit stillHost) {} = .ok m ∧
    ¬ WithinLimits stillHost {} [firstCommit] := by
  have hok : ([firstCommit].foldlM (internalCommit stillHost) {}).toOption.any (fun _ => true) =
    true := by
    decide +kernel
  obtain ⟨m, hrun, -⟩ := exists_ok_of_any hok
  have hfits : ∀ e ∈ [firstCommit].flatMap Commit.entries,
      logHeaderSize + e.estimate ≤ maxLogSize := by decide
  exact ⟨m, hrun, fun hwithin => absurd ((limits_iff hrun hfits).1.mp hwithin) (by simp)⟩

/-! ### A file that is too long -/

def commitOf (buffer : List Char) : Commit :=
  { firstCommit with writes := .insert .empty ⟨10000, column_mem_long⟩ buffer }

theorem emittedSize_columnRevision (columnId revision now : Long) (buffer : List Char) :
    (Entry.columnRevision columnId revision buffer).emittedSize now =
      3 + (decimal columnId).length + (decimal revision).length + (decimal now).length +
        (decimal buffer.length).length + buffer.length + 16 := by
  have htype : (decimal RecordType.columnRevision.code).length = 3 := by decide
  simp only [Entry.emittedSize, Entry.record, text, typeOf, fields, rear, length_append, htype,
    flatMap_cons, flatMap_nil, length_nil]
  omega

namespace LogManager

def Sized (m : LogManager) (size : ℕ) : Prop := ∃ w, m.writer = some w ∧ w.2.size = size

theorem Sized.writeEntry {m : LogManager} {e : Entry} {size n : ℕ} (hm : m.Sized size)
    (he : e.emittedSize ⟨1352000000, clock_mem_long⟩ = n) (hroom : size + e.estimate ≤ maxLogSize) :
    ∃ m', m.writeEntry stillHost e = .ok m' ∧ m'.Sized (size + n) := by
  obtain ⟨w, hw, rfl⟩ := hm
  obtain ⟨m', hm', -, hw'⟩ := writeEntry_of_room (h := stillHost) hw hroom
  exact ⟨m', hm', _, hw', by rw [size_write, ← he]; rfl⟩

theorem internalCommit_commitOf {m₀ : LogManager} {buffer : List Char} (hm₀ : m₀.Sized logHeaderSize)
    (hlength : buffer.length = 104856469) :
    ∃ m, m₀.internalCommit stillHost (commitOf buffer) = .ok m ∧ m.Sized (maxLogSize + 4) := by
  obtain ⟨m₁, hm₁, hsize₁⟩ := hm₀.writeEntry (n := 37)
    (e := .transactionBegin firstCommit.transactionID firstCommit.revisions)
    (by decide +kernel) (by decide)
  obtain ⟨m₂, hm₂, hsize₂⟩ := hsize₁.writeEntry (n := 104856513)
    (e := .columnRevision ⟨10000, by decide⟩ ⟨1, by decide⟩ buffer)
    (by rw [emittedSize_columnRevision, hlength]; decide +kernel)
    (by rw [Entry.estimate, hlength]; decide)
  obtain ⟨m₃, hm₃, hsize₃⟩ := hsize₂.writeEntry (n := 30)
    (e := .transactionEnd firstCommit.transactionID) (by decide +kernel) (by decide)
  refine ⟨m₃, ?_, hsize₃⟩
  have hwrites : (commitOf buffer).writes.entries = [(⟨10000, by decide⟩, buffer)] := rfl
  have hrevision : m₁.writeRevisions stillHost firstCommit.revisions (⟨10000, by decide⟩, buffer) =
      .ok m₂ := hm₂
  change m₀.writeTransactionBegin stillHost firstCommit.transactionID firstCommit.revisions = _ at hm₁
  rw [internalCommit, hwrites, commitOf, hm₁]
  change (List.foldlM (fun m write => m.writeRevisions stillHost firstCommit.revisions write) m₁
    [(⟨10000, by decide⟩, buffer)] >>= fun m =>
      m.writeTransactionEnd stillHost firstCommit.transactionID) = .ok m₃
  rw [foldlM_cons, hrevision]
  exact hm₃

end LogManager

open LogManager in
/-- A commit whose records all fit into an empty file, and leave one that is longer than the
limit. -/
theorem commit_outgrows :
    (∀ e ∈ (commitOf (List.replicate 104856469 'w')).entries,
      logHeaderSize + e.estimate ≤ maxLogSize) ∧
    ∃ m₀ m w, createLogFile stillHost {} = .ok m₀ ∧
      m₀.internalCommit stillHost (commitOf (List.replicate 104856469 'w')) = .ok m ∧
      m.writer = some w ∧ maxLogSize < w.2.size := by
  have hlength : (List.replicate 104856469 'w').length = 104856469 := length_replicate
  refine ⟨?_, ?_⟩
  · generalize List.replicate 104856469 'w' = buffer at hlength
    have hentries : (commitOf buffer).entries =
        [.transactionBegin firstCommit.transactionID firstCommit.revisions,
          .columnRevision ⟨10000, by decide⟩ ⟨1, by decide⟩ buffer,
          .transactionEnd firstCommit.transactionID] := rfl
    rw [hentries]
    simp only [forall_mem_cons, Entry.estimate, hlength]
    decide
  · obtain ⟨m₀, hm₀⟩ : ∃ m₀, createLogFile stillHost {} = .ok m₀ := ⟨_, rfl⟩
    obtain ⟨m, hm, w, hw, hsize⟩ := internalCommit_commitOf (createLogFile_size hm₀) hlength
    exact ⟨m₀, m, w, hm₀, hm, hw, by omega⟩

end Fastore.Store
