import Fastore.Store.Limits
import Fastore.Store.Readers

/-!
Flushed records and their readers.

Three places hold the size of a log file: its writer, the index of the manager and
the header. A reader takes its size from the header when it is opened, and
from the index when it comes out of the pool.

A flush writes the size to a copy of the entry of the index, as does the
completion of a file; so the index has the size with which the file was entered,
and every record lies behind it (`Journal.Ahead`). No record can be read by a
reader of the pool (`readers_of_run`). The pool itself is in order in every run
(`queues_kept`).
-/

namespace Fastore.Store

open Lib List SortedMap

/-! ### Headers -/

structure Header where
  lsn : Long
  complete : Word
  size : ℤ

structure Journal where
  manager : LogManager := {}
  headers : SortedMap Long Header := .empty

namespace Journal

section Model

variable (h : Host) (j : Journal)

def closeHeader : SortedMap Long Header :=
  match j.manager.writer with
  | some (_, w) => j.headers.insert w.lsn ⟨w.lsn, w.complete, w.size⟩
  | none => j.headers

/-- The new writer has written its header before its `_size` was set. -/
def createLogFile : Except Fault Journal := do
  let manager ← j.manager.createLogFile h
  match manager.writer with
  | some (_, w) =>
    .ok ⟨manager, j.closeHeader.insert w.lsn ⟨w.lsn, w.complete, h.unsetSize j.manager.ticks⟩⟩
  | none => .ok ⟨manager, j.closeHeader⟩

def completeCurrentLog : Journal :=
  let completed : LogManager :=
    { j.manager with writer := j.manager.writer.map fun (filename, w) => (filename, w.setComplete) }
  ⟨j.manager.completeCurrentLog, closeHeader ⟨completed, j.headers⟩⟩

def ensureWriter : Except Fault Journal :=
  if j.manager.writer.isNone then j.createLogFile h else .ok j

def prepLog (size : ℤ) : Except Fault Journal := do
  let j ← j.ensureWriter h
  match j.manager.writer with
  | some (_, w) =>
    if w.size + size > maxLogSize then j.completeCurrentLog.createLogFile h else .ok j
  | none => .ok j

def writeEntry (e : Entry) : Except Fault Journal := do
  let prepared ← j.prepLog h e.estimate
  let manager ← j.manager.writeEntry h e
  .ok ⟨manager, prepared.headers⟩

def internalCommit (commit : Commit) : Except Fault Journal := do
  let manager ← j.manager.internalCommit h commit
  let written ← commit.entries.foldlM (writeEntry h) j
  .ok ⟨manager, written.headers⟩

/-- The size is written to `file`, which is a copy of the entry. Without a writer a null
pointer is used. -/
def internalFlush : Except Fault Journal :=
  match j.manager.writer with
  | some (_, w) =>
    let files := j.manager.files.update ⟨"", false, 0⟩ w.lsn id
    let _file : Option LogFile := (files.get? w.lsn).map fun file => { file with size := w.size }
    .ok { j with manager := { j.manager with files := files } }
  | none => .error .unset

end Model

end Journal

inductive LogEvent
  | commit (commit : Commit)
  | flush

def Journal.step (h : Host) (j : Journal) : LogEvent → Except Fault Journal
  | .commit commit => j.internalCommit h commit
  | .flush => j.internalFlush

/-! ### Readers -/

structure LogReaderPool where
  readers : SortedMap Long (List LogStream) := .empty

namespace LogReaderPool

def defaultMaxReadersPerKey : ℕ := 3

def queue (pool : LogReaderPool) (lsn : Long) : List LogStream := (pool.readers.get? lsn).getD []

def release (pool : LogReaderPool) (reader : LogStream) : LogReaderPool :=
  let queue := pool.queue reader.lsn ++ [reader]
  ⟨pool.readers.insert reader.lsn (queue.drop (queue.length - defaultMaxReadersPerKey))⟩

def take (create : Except ReadFault LogStream) (validate : LogStream → Option LogStream) :
    List LogStream → Except ReadFault (LogStream × List LogStream)
  | [] => do
    let reader ← create
    .ok (reader, [])
  | reader :: readers =>
    match validate reader with
    | some reader => .ok (reader, readers)
    | none => take create validate readers

def Sorted (pool : LogReaderPool) : Prop := ∀ lsn, ∀ reader ∈ pool.queue lsn, reader.lsn = lsn

theorem Sorted.release {pool : LogReaderPool} (hpool : pool.Sorted) (reader : LogStream) :
    (pool.release reader).Sorted := by
  intro lsn r hr
  rw [queue, LogReaderPool.release, get?_insert] at hr
  split at hr
  · rename_i hlsn
    rcases mem_append.mp (mem_of_mem_drop hr) with hr | hr
    · rw [hpool _ r hr, hlsn]
    · rw [mem_singleton.mp hr, hlsn]
  · exact hpool lsn r hr

/-- `operator[]`. An entry goes with its last reader, before another one is opened. An entry
without readers is taken for none: `queues_kept` says that there is none such. -/
def get (pool : LogReaderPool) (create : Long → Except ReadFault LogStream)
    (validate : LogStream → Option LogStream) (lsn : Long) :
    Except ReadFault LogStream × LogReaderPool :=
  match pool.readers.get? lsn with
  | none => (create lsn, pool)
  | some queue =>
    let result := take (create lsn) validate queue
    let rest := (result.map Prod.snd).toOption.getD []
    (result.map Prod.fst, ⟨if rest.isEmpty then pool.readers.eraseAt (pool.readers.rank lsn)
      else pool.readers.insert lsn rest⟩)

inductive Call
  | release (reader : LogStream)
  | get (create : Long → Except ReadFault LogStream) (validate : LogStream → Option LogStream)
      (lsn : Long)

def call (pool : LogReaderPool) : Call → LogReaderPool
  | .release reader => pool.release reader
  | .get create validate lsn => (pool.get create validate lsn).2

/-- Every queue has a reader, no more than the maximum, and only readers of its LSN. -/
def Kept (pool : LogReaderPool) : Prop := ∀ lsn queue, pool.readers.get? lsn = some queue →
  queue ≠ [] ∧ queue.length ≤ defaultMaxReadersPerKey ∧ ∀ reader ∈ queue, reader.lsn = lsn

variable {pool : LogReaderPool}

theorem take_suffix {create : Except ReadFault LogStream} {validate : LogStream → Option LogStream}
    {queue rest : List LogStream} {reader : LogStream}
    (h : take create validate queue = .ok (reader, rest)) : rest <:+ queue := by
  induction queue with
  | nil =>
    obtain ⟨_, -, h⟩ := eq_ok_of_bind h
    rw [← (Prod.mk.inj (Except.ok.inj h)).2]
  | cons r queue ih =>
    rw [take] at h
    split at h
    · rw [← (Prod.mk.inj (Except.ok.inj h)).2]
      exact suffix_cons ..
    · exact (ih h).trans (suffix_cons ..)

/-- Every call keeps the queues. -/
theorem Kept.call (h : pool.Kept) (c : Call) : (pool.call c).Kept := by
  intro lsn queue hqueue
  cases c with
  | release reader =>
    have hsorted : pool.Sorted := by
      intro lsn r hr
      cases hq : pool.readers.get? lsn with
      | none => simp [LogReaderPool.queue, hq] at hr
      | some q => exact (h lsn q hq).2.2 r (by simpa [LogReaderPool.queue, hq] using hr)
    have hown := hsorted.release reader lsn
    rw [LogReaderPool.queue, show (pool.release reader).readers.get? lsn = some queue from hqueue]
      at hown
    rw [LogReaderPool.call, release, get?_insert] at hqueue
    split at hqueue
    · have hlen := congrArg length (Option.some.inj hqueue)
      simp only [length_drop, length_append, length_singleton, defaultMaxReadersPerKey] at hlen ⊢
      exact ⟨length_pos_iff.mp (by omega), by omega, hown⟩
    · exact h lsn queue hqueue
  | get create validate key =>
    rw [LogReaderPool.call, LogReaderPool.get] at hqueue
    split at hqueue
    · exact h lsn queue hqueue
    · rename_i q hq
      dsimp only at hqueue
      split at hqueue
      · rw [get?_eraseAt_rank hq] at hqueue
        split at hqueue
        · cases hqueue
        · exact h lsn queue hqueue
      · rename_i hne
        rw [get?_insert] at hqueue
        split at hqueue
        · rename_i heq
          subst heq
          obtain rfl := Option.some.inj hqueue
          obtain ⟨-, hmax, hown⟩ := h lsn q hq
          cases htake : take (create lsn) validate q with
          | error fault => simp [htake, Except.map, Except.toOption] at hne
          | ok result =>
            have hsuffix : result.2 <:+ q := take_suffix htake
            simp only [htake, Except.map, Except.toOption, Option.getD_some,
              List.isEmpty_iff] at hne ⊢
            exact ⟨hne, hsuffix.length_le.trans hmax, fun r hr => hown r (hsuffix.subset hr)⟩
        · exact h lsn queue hqueue

/-- **The pool of readers**: in every run of releases and requests, whatever becomes of the
files, no queue is empty or holds more than three readers, and a reader is in the queue of its
LSN. -/
theorem queues_kept (calls : List Call) : (calls.foldl LogReaderPool.call {}).Kept := by
  have hrun : ∀ pool : LogReaderPool, pool.Kept → (calls.foldl LogReaderPool.call pool).Kept := by
    induction calls with
    | nil => exact fun _ h => h
    | cons c calls ih => exact fun pool h => ih _ (h.call c)
  exact hrun {} fun _ _ h => by cases h

end LogReaderPool

def LogManager.validateReader (m : LogManager) (reader : LogStream) : Option LogStream :=
  (m.files.get? reader.lsn).map fun file => { reader with size := file.size }

namespace Journal

/-- A reader that is opened sees the header that was written last; where its stream is then
is left open. -/
def createReader (j : Journal) (stream : Stream) (lsn : Long) : Except ReadFault LogStream :=
  match j.manager.files.get? lsn, j.headers.get? lsn with
  | some _, some header =>
    .ok { stream := stream, lsn := header.lsn, complete := header.complete, size := header.size }
  | some _, none => .error (.stream .signature)
  | none, _ => .error (.noFile lsn)

/-- `_readers[lsn]`. -/
def getReader (j : Journal) (stream : Stream) (pool : LogReaderPool) (lsn : Long) :
    Except ReadFault (LogStream × List LogStream) :=
  LogReaderPool.take (j.createReader stream lsn) j.manager.validateReader (pool.queue lsn)

/-- Every record of a revision starts within the size of its file in the index, and whatever
is in the pool, there is a reader that can go to it. -/
def Readable (j : Journal) : Prop :=
  ∀ p ∈ j.manager.history,
    (∃ file, j.manager.files.get? p.lsn = some file ∧ p.offset < file.size) ∧
    ∀ stream pool, pool.Sorted → ∃ reader readers,
      j.getReader stream pool p.lsn = .ok (reader, readers) ∧
        ∃ reader', reader.seekReadToOffset p.offset = .ok reader'

/-! ### The manager of a journal -/

variable {h : Host} {j j' : Journal} {m' : LogManager}

theorem createLogFile_manager (j : Journal) :
    (j.createLogFile h).map (·.manager) = j.manager.createLogFile h := by
  rw [createLogFile]
  cases j.manager.createLogFile h with
  | error fault => rfl
  | ok m =>
    dsimp only [bind, Except.bind]
    split <;> rfl

theorem ensureWriter_manager (j : Journal) :
    (j.ensureWriter h).map (·.manager) = j.manager.ensureWriter h := by
  rw [ensureWriter, LogManager.ensureWriter]
  split
  · exact createLogFile_manager j
  · rfl

theorem prepLog_manager (j : Journal) (size : ℤ) :
    (j.prepLog h size).map (·.manager) = j.manager.prepLog h size := by
  rw [prepLog, LogManager.prepLog, ← ensureWriter_manager]
  cases j.ensureWriter h with
  | error fault => rfl
  | ok j =>
    cases hw : j.manager.writer with
    | none => simp only [bind, Except.bind, Except.map, hw]
    | some w =>
      by_cases hroom : w.2.size + size > maxLogSize
      · simp only [bind, Except.bind, Except.map, hw, hroom, if_true]
        exact createLogFile_manager j.completeCurrentLog
      · simp only [bind, Except.bind, Except.map, hw, hroom, if_false]

variable {e : Entry}

theorem exists_writeEntry (hok : j.manager.writeEntry h e = .ok m') :
    ∃ j', j.writeEntry h e = .ok j' ∧ j'.manager = m' := by
  obtain ⟨m₁, hm₁, -⟩ := LogManager.writeEntry_spec hok
  rw [← prepLog_manager] at hm₁
  obtain ⟨prepared, hprepared, -⟩ := eq_ok_of_map hm₁
  exact ⟨⟨m', prepared.headers⟩, by rw [writeEntry, hprepared, hok]; rfl, rfl⟩

theorem exists_writeEntries {es : List Entry}
    (hok : es.foldlM (LogManager.writeEntry h) j.manager = .ok m') :
    ∃ j', es.foldlM (writeEntry h) j = .ok j' ∧ j'.manager = m' := by
  induction es generalizing j with
  | nil => exact ⟨j, rfl, Except.ok.inj hok⟩
  | cons e es ih =>
    rw [foldlM_cons] at hok ⊢
    obtain ⟨m₁, hm₁, hok⟩ := eq_ok_of_bind hok
    obtain ⟨j₁, hj₁, rfl⟩ := exists_writeEntry hm₁
    rw [hj₁]
    exact ih hok

theorem exists_internalCommit {commit : Commit} (hok : j.manager.internalCommit h commit = .ok m') :
    ∃ j', j.internalCommit h commit = .ok j' ∧ j'.manager = m' ∧
      commit.entries.foldlM (writeEntry h) j = .ok j' := by
  obtain ⟨j', hj', rfl⟩ := exists_writeEntries (LogManager.internalCommit_entries hok)
  exact ⟨j', by rw [internalCommit, hok, hj']; rfl, rfl, hj'⟩

/-! ### The index is behind -/

/-- The index has a size for the current file and for that of every record, from which
neither the writer nor the records fall short; the header of a file that has been closed is
ahead of its records. -/
structure Ahead (j : Journal) : Prop where
  entered : ∀ w ∈ j.manager.writer,
    ∃ file, j.manager.files.get? w.2.lsn = some file ∧ file.size ≤ w.2.size
  placed : ∀ p ∈ j.manager.history,
    ∃ file, j.manager.files.get? p.lsn = some file ∧ file.size < p.offset
  current : ∀ w ∈ j.manager.writer, ∀ p ∈ j.manager.history, p.lsn = w.2.lsn → p.offset < w.2.size
  closed : ∀ p ∈ j.manager.history, (∀ w ∈ j.manager.writer, w.2.lsn ≠ p.lsn) →
    ∃ header, j.headers.get? p.lsn = some header ∧ p.offset < header.size

/-- The writer is past the size of the index, as it is behind the first record. -/
def Past (j : Journal) : Prop :=
  ∀ w ∈ j.manager.writer, ∃ file, j.manager.files.get? w.2.lsn = some file ∧ file.size < w.2.size

theorem Ahead.closeHeader (hj : j.Ahead) {p : Placement} (hp : p ∈ j.manager.history) :
    ∃ header, j.closeHeader.get? p.lsn = some header ∧ p.offset < header.size := by
  rw [Journal.closeHeader]
  split
  · rename_i filename w hw
    rw [get?_insert]
    split
    · rename_i hlsn
      exact ⟨_, rfl, hj.current _ hw p hp hlsn⟩
    · rename_i hlsn
      refine hj.closed p hp fun w' hw' => ?_
      obtain rfl := some_unique hw hw'
      exact fun heq => hlsn heq.symm
  · rename_i hw
    exact hj.closed p hp (by simp [hw])

theorem get?_reuseFileOldLsn {m : LogManager} {lsn : Long} (hok : m.reuseFileOldLsn = .ok lsn) :
    m.files.get? lsn = none := by
  rw [LogManager.reuseFileOldLsn] at hok
  split at hok
  · rename_i last file hlast
    split at hok
    · obtain rfl := Except.ok.inj hok
      obtain ⟨front, hfront⟩ := getLast?_eq_some_iff.mp hlast
      rw [get?_eq_none]
      intro hmem
      have hkeys : m.files.keys = front.map Prod.fst ++ [last] := by simp [SortedMap.keys, hfront]
      have hsorted := m.files.keys_sorted
      rw [hkeys, pairwise_append] at hsorted
      rw [hkeys, mem_append, mem_singleton] at hmem
      -- the last key is the greatest one
      rcases hmem with hmem | heq
      · have hlt := hsorted.2.2 _ hmem last (by simp)
        have hlt : last.val + 1 < last.val := hlt
        omega
      · have heq := congrArg Subtype.val heq
        dsimp only at heq
        omega
    · cases hok
  · rename_i hnone
    have hnil := getLast?_eq_none_iff.mp hnone
    rw [get?_eq_none, SortedMap.keys, hnil]
    simp

theorem createLogFile_inv (hok : j.createLogFile h = .ok j') :
    ∃ filename w header, j.manager.files.get? w.lsn = none ∧ w.size = logHeaderSize ∧
      j'.manager.files = j.manager.files.insert w.lsn ⟨filename, false, 0⟩ ∧
      j'.manager.writer = some (filename, w) ∧ j'.manager.history = j.manager.history ∧
      j'.headers = j.closeHeader.insert w.lsn header := by
  obtain ⟨m, hm, hok⟩ := eq_ok_of_bind hok
  obtain ⟨lsn, hlsn, rfl⟩ := eq_ok_of_map hm
  obtain rfl := Except.ok.inj hok
  exact ⟨_, _, _, get?_reuseFileOldLsn hlsn, rfl, rfl, rfl,
    (LogManager.resetWriter_filesOnly j.manager).history, rfl⟩

/-- A new file begins ahead of all records. -/
theorem Ahead.createLogFile (hj : j.Ahead) (hok : j.createLogFile h = .ok j') :
    j'.Ahead ∧ j'.Past := by
  obtain ⟨filename, w, header, hnew, hsize, hfiles, hwriter, hhistory, hheaders⟩ :=
    createLogFile_inv hok
  have hother : ∀ p ∈ j.manager.history, p.lsn ≠ w.lsn := by
    intro p hp hlsn
    obtain ⟨file, hfile, -⟩ := hj.placed p hp
    rw [hlsn, hnew] at hfile
    cases hfile
  have hpast : j'.Past := by
    intro w' hw'
    rw [hwriter] at hw'
    obtain rfl := Option.some.inj hw'
    refine ⟨⟨filename, false, 0⟩, by rw [hfiles, get?_insert, if_pos rfl], ?_⟩
    rw [hsize]
    show (0 : ℤ) < logHeaderSize
    decide
  refine ⟨⟨fun w' hw' => ?_, fun p hp => ?_, fun w' hw' p hp hlsn => ?_, fun p hp _ => ?_⟩, hpast⟩
  · obtain ⟨file, hfile, hlt⟩ := hpast w' hw'
    exact ⟨file, hfile, hlt.le⟩
  · rw [hhistory] at hp
    rw [hfiles, get?_insert, if_neg (hother p hp)]
    exact hj.placed p hp
  · rw [hwriter] at hw'
    obtain rfl := Option.some.inj hw'
    rw [hhistory] at hp
    exact absurd hlsn (hother p hp)
  · rw [hhistory] at hp
    rw [hheaders, get?_insert, if_neg (hother p hp)]
    exact hj.closeHeader hp

theorem Ahead.completeCurrentLog (hj : j.Ahead) : j.completeCurrentLog.Ahead := by
  have hcompleted : Ahead ⟨{ j.manager with
      writer := j.manager.writer.map fun w => (w.1, w.2.setComplete) }, j.headers⟩ := by
    refine ⟨fun w hw => ?_, hj.placed, fun w hw => ?_, fun p hp hw => hj.closed p hp fun w hw' => ?_⟩
    · obtain ⟨w', hw', rfl⟩ := Option.mem_map.mp hw
      exact hj.entered w' hw'
    · obtain ⟨w', hw', rfl⟩ := Option.mem_map.mp hw
      exact hj.current w' hw'
    · exact hw (w.1, w.2.setComplete) (Option.mem_map.mpr ⟨w, hw', rfl⟩)
  have hfiles : j.completeCurrentLog.manager.files = j.manager.files := by
    rw [Journal.completeCurrentLog, LogManager.completeCurrentLog, LogManager.resetWriter]
    split <;> rfl
  have hhistory : j.completeCurrentLog.manager.history = j.manager.history :=
    (LogManager.completeCurrentLog_filesOnly j.manager).history
  have hwriter : j.completeCurrentLog.manager.writer = none := by
    rw [Journal.completeCurrentLog, LogManager.completeCurrentLog, LogManager.resetWriter]
    split
    · rfl
    · assumption
  refine ⟨by simp [hwriter], ?_, by simp [hwriter], ?_⟩
  · rw [hfiles, hhistory]
    exact hj.placed
  · rw [hhistory]
    exact fun p hp _ => hcompleted.closeHeader hp

theorem Ahead.prepLog {size : ℤ} (hj : j.Ahead) (hok : j.prepLog h size = .ok j') :
    j'.Ahead ∧ (j.Past → j'.Past) := by
  obtain ⟨j₁, hj₁, hok⟩ := eq_ok_of_bind hok
  have h₁ : j₁.Ahead ∧ (j.Past → j₁.Past) := by
    rw [ensureWriter] at hj₁
    split at hj₁
    · obtain ⟨hahead, hpast⟩ := hj.createLogFile hj₁
      exact ⟨hahead, fun _ => hpast⟩
    · obtain rfl := Except.ok.inj hj₁
      exact ⟨hj, id⟩
  split at hok
  · split at hok
    · obtain ⟨hahead, hpast⟩ := h₁.1.completeCurrentLog.createLogFile hok
      exact ⟨hahead, fun _ => hpast⟩
    · obtain rfl := Except.ok.inj hok
      exact h₁
  · obtain rfl := Except.ok.inj hok
    exact h₁

def placements (w : LogWriter) : Entry → List Placement
  | .columnRevision columnId revision _ => [⟨columnId, revision, w.lsn, w.size⟩]
  | .transactionBegin .. => []
  | .transactionEnd _ => []

theorem placements_at {w : LogWriter} {p : Placement} (hp : p ∈ placements w e) :
    p.lsn = w.lsn ∧ p.offset = w.size := by
  cases e with
  | transactionBegin transactionID revisions => cases hp
  | columnRevision columnId revision buffer =>
    rw [placements, mem_singleton] at hp
    rw [hp]
    exact ⟨rfl, rfl⟩
  | transactionEnd transactionID => cases hp

theorem writeEntry_index {m m₁ : LogManager} (hok : m.writeEntry h e = .ok m')
    (hm₁ : m.prepLog h e.estimate = .ok m₁) : m'.files = m₁.files ∧
      ∃ w, m₁.writer = some w ∧ m'.history = m₁.history ++ placements w.2 e := by
  obtain ⟨-, hsome⟩ := LogManager.prepLog_spec hm₁
  obtain ⟨w, hw⟩ := Option.isSome_iff_exists.mp hsome
  cases e with
  | transactionBegin transactionID revisions =>
    obtain ⟨m₂, hm₂, hok⟩ := eq_ok_of_bind hok
    obtain rfl := ok_unique hm₁ hm₂
    obtain rfl := Except.ok.inj hok
    exact ⟨rfl, w, hw, (append_nil _).symm⟩
  | columnRevision columnId revision buffer =>
    obtain ⟨m₂, hm₂, hok⟩ := eq_ok_of_bind hok
    obtain rfl := ok_unique hm₁ hm₂
    rw [hw] at hok
    obtain rfl := Except.ok.inj hok
    exact ⟨rfl, w, hw, rfl⟩
  | transactionEnd transactionID =>
    obtain ⟨m₂, hm₂, hok⟩ := eq_ok_of_bind hok
    obtain rfl := ok_unique hm₁ hm₂
    obtain rfl := Except.ok.inj hok
    exact ⟨rfl, w, hw, (append_nil _).symm⟩

/-- A record. That of a revision must not be the first one behind the size of the index. -/
theorem Ahead.writeEntry (hj : j.Ahead) (hpast : j.Past ∨ ∀ w : LogWriter, placements w e = [])
    (hok : j.writeEntry h e = .ok j') :
    j'.Ahead ∧ j'.Past := by
  obtain ⟨prepared, hprepared, hok⟩ := eq_ok_of_bind hok
  obtain ⟨m', hm', rfl⟩ := eq_ok_of_map hok
  obtain ⟨hahead, hkeeps⟩ := hj.prepLog hprepared
  obtain ⟨m₁, hm₁, -, hwriter⟩ := LogManager.writeEntry_spec hm'
  obtain ⟨hfiles, w, hw, hhistory⟩ := writeEntry_index hm' hm₁
  rw [← prepLog_manager, hprepared] at hm₁
  obtain rfl := Except.ok.inj hm₁
  rw [hw, Option.map_some] at hwriter
  have hlsn : (w.2.write (h.time prepared.manager.ticks, e.record)).lsn = w.2.lsn := by
    rw [write_eq, LogWriter.append]
  have hgrows : w.2.size < (w.2.write (h.time prepared.manager.ticks, e.record)).size := by
    rw [write_eq, LogWriter.append]
    dsimp only
    omega
  have hpast' : Past ⟨m', prepared.headers⟩ := by
    intro w' hw'
    dsimp only at hw' ⊢
    rw [hwriter] at hw'
    obtain rfl := Option.some.inj hw'
    obtain ⟨file, hfile, hle⟩ := hahead.entered w hw
    dsimp only
    rw [hfiles, hlsn]
    exact ⟨file, hfile, by omega⟩
  refine ⟨⟨fun w' hw' => ?_, fun p hp => ?_, fun w' hw' p hp heq => ?_, fun p hp hp' => ?_⟩, hpast'⟩
  · obtain ⟨file, hfile, hlt⟩ := hpast' w' hw'
    exact ⟨file, hfile, hlt.le⟩
  · dsimp only at hp ⊢
    rw [hhistory, mem_append] at hp
    rw [hfiles]
    rcases hp with hp | hp
    · exact hahead.placed p hp
    · rcases hpast with hpast | hnone
      · obtain ⟨heq, hoffset⟩ := placements_at hp
        rw [heq, hoffset]
        exact hkeeps hpast w hw
      · rw [hnone] at hp
        cases hp
  · dsimp only at hw' hp
    rw [hwriter] at hw'
    obtain rfl := Option.some.inj hw'
    dsimp only at heq ⊢
    rw [hlsn] at heq
    rw [hhistory, mem_append] at hp
    rcases hp with hp | hp
    · have hlt := hahead.current w hw p hp heq
      omega
    · obtain ⟨-, hoffset⟩ := placements_at hp
      omega
  · dsimp only at hp hp' ⊢
    rw [hwriter] at hp'
    have hne := hp' _ rfl
    dsimp only at hne
    rw [hlsn] at hne
    rw [hhistory, mem_append] at hp
    rcases hp with hp | hp
    · refine hahead.closed p hp fun w' hw' => ?_
      obtain rfl := some_unique hw hw'
      exact hne
    · exact absurd (placements_at hp).1.symm hne

theorem Ahead.internalCommit {commit : Commit} (hj : j.Ahead)
    (hok : j.internalCommit h commit = .ok j') : j'.Ahead := by
  obtain ⟨m', hm', -⟩ := eq_ok_of_bind hok
  obtain ⟨j₁, hj₁, -, hentries⟩ := exists_internalCommit hm'
  obtain rfl := ok_unique hok hj₁
  rw [Commit.entries, cons_append, foldlM_cons] at hentries
  obtain ⟨j₂, hj₂, hentries⟩ := eq_ok_of_bind hentries
  have hbegun := hj.writeEntry (.inr fun w => rfl) hj₂
  exact (foldlM_preserves (P := fun j : Journal => j.Ahead ∧ j.Past)
    (fun _ _ _ hj hok => hj.1.writeEntry (.inl hj.2) hok) hbegun hentries).1

theorem Ahead.internalFlush (hj : j.Ahead) (hok : j.internalFlush = .ok j') : j' = j := by
  rw [Journal.internalFlush] at hok
  split at hok
  · rename_i filename w hw
    obtain rfl := Except.ok.inj hok
    obtain ⟨file, hfile, -⟩ := hj.entered _ hw
    have hfiles : j.manager.files.update ⟨"", false, 0⟩ w.lsn id = j.manager.files := by
      refine ext_get? fun lsn => ?_
      rw [get?_update]
      split
      · rename_i hlsn
        rw [hlsn, hfile]
        rfl
      · rfl
    simp only [hfiles]
  · cases hok

theorem Ahead.step {event : LogEvent} (hj : j.Ahead) (hok : j.step h event = .ok j') : j'.Ahead := by
  cases event with
  | commit commit => exact hj.internalCommit hok
  | flush => rwa [hj.internalFlush hok]

theorem Ahead.run {events : List LogEvent} (hj : j.Ahead)
    (hok : events.foldlM (Journal.step h) j = .ok j') : j'.Ahead :=
  foldlM_preserves (P := Ahead) (fun _ _ _ hj hok => hj.step hok) hj hok

theorem Ahead.readable_iff_history (hj : j.Ahead) : j.Readable ↔ j.manager.history = [] := by
  constructor
  · intro hreadable
    cases hhistory : j.manager.history with
    | nil => rfl
    | cons p ps =>
      have hp : p ∈ j.manager.history := by simp [hhistory]
      obtain ⟨⟨file, hfile, hwithin⟩, -⟩ := hreadable p hp
      obtain ⟨file', hfile', hlt⟩ := hj.placed p hp
      obtain rfl := some_unique hfile hfile'
      omega
  · intro hhistory p hp
    rw [hhistory] at hp
    cases hp

/-- Nothing has been committed yet, and the index has the current file no longer than it is:
a new file is entered with size 0, a file that was found with the size of its header. -/
structure Started (j : Journal) : Prop where
  entered : ∀ w ∈ j.manager.writer,
    ∃ file, j.manager.files.get? w.2.lsn = some file ∧ file.size ≤ w.2.size
  history : j.manager.history = []

theorem Started.ahead (hj : j.Started) : j.Ahead :=
  ⟨hj.entered, by simp [hj.history], by simp [hj.history], by simp [hj.history]⟩

theorem started_createLogFile (hok : createLogFile h {} = .ok j) : j.Started := by
  have hnew : Started {} := ⟨by simp, rfl⟩
  obtain ⟨-, -, -, -, -, -, -, hhistory, -⟩ := createLogFile_inv hok
  exact ⟨(hnew.ahead.createLogFile hok).1.entered, hhistory⟩

/-- There is a history from the first commit with writes on. -/
theorem Started.history_iff {events : List LogEvent} (hj : j.Started)
    (hok : events.foldlM (Journal.step h) j = .ok j') :
    j'.manager.history = [] ↔ ∀ commit, .commit commit ∈ events → commit.writes.entries = [] := by
  have hrun : ∀ {events : List LogEvent} {j j' : Journal}, j.Ahead →
      events.foldlM (Journal.step h) j = .ok j' →
      (j'.manager.history = [] ↔ j.manager.history = [] ∧
        ∀ commit, .commit commit ∈ events → commit.writes.entries = []) := by
    intro events
    induction events with
    | nil =>
      intro j j' _ hok
      obtain rfl := Except.ok.inj hok
      simp
    | cons event events ih =>
      intro j j' hj hok
      rw [foldlM_cons] at hok
      obtain ⟨j₁, hj₁, hok⟩ := eq_ok_of_bind hok
      rw [ih (hj.step hj₁) hok]
      cases event with
      | commit commit =>
        obtain ⟨m', hm', -⟩ := eq_ok_of_bind hj₁
        obtain ⟨j₂, hj₂, rfl, -⟩ := exists_internalCommit hm'
        obtain rfl := ok_unique hj₂ hj₁
        rw [LogManager.internalCommit_history_eq_nil hm']
        simp [and_assoc]
      | flush =>
        rw [hj.internalFlush hj₁]
        simp
  rw [hrun hj.ahead hok, hj.history]
  simp

/-- **Readers**: in every run, a reader that comes out of the pool can go to no record of a
revision. -/
theorem readers_of_run {j₀ : Journal} {events : List LogEvent} (hj₀ : j₀.Started)
    (hrun : events.foldlM (Journal.step h) j₀ = .ok j) {p : Placement} (hp : p ∈ j.manager.history)
    (reader : LogStream) (hlsn : reader.lsn = p.lsn) :
    ∃ reader', j.manager.validateReader reader = some reader' ∧
      reader'.seekReadToOffset p.offset = .error .pastFile := by
  obtain ⟨file, hfile, hlt⟩ := (hj₀.ahead.run hrun).placed p hp
  refine ⟨{ reader with size := file.size }, ?_, ?_⟩
  · rw [LogManager.validateReader, hlsn, hfile]
    rfl
  · rw [LogStream.seekReadToOffset, if_neg (not_le.mpr hlt)]

end Journal

open Journal in
/-- **Flushed records** can be read if and only if there are none. -/
theorem readable_iff {h : Host} {j₀ j : Journal} {events : List LogEvent} (hj₀ : j₀.Started)
    (hrun : (events ++ [LogEvent.flush]).foldlM (Journal.step h) j₀ = .ok j) :
    j.Readable ↔ ∀ commit, .commit commit ∈ events → commit.writes.entries = [] := by
  rw [(hj₀.ahead.run hrun).readable_iff_history, hj₀.history_iff hrun]
  simp

open Journal in
def firstFlush : Except Fault Journal := do
  let j ← createLogFile stillHost {}
  [LogEvent.commit firstCommit, .flush].foldlM (Journal.step stillHost) j

open Journal in
/-- The record of the first commit can not be read after the flush. -/
theorem readable_iff_first : ∃ j₀ j : Journal, j₀.Started ∧
    ([LogEvent.commit firstCommit] ++ [LogEvent.flush]).foldlM (Journal.step stillHost) j₀ = .ok j ∧
    ¬ j.Readable := by
  have hok : firstFlush.toOption.any (fun _ => true) = true := by decide +kernel
  obtain ⟨j, hj, -⟩ := exists_ok_of_any hok
  obtain ⟨j₀, hj₀, hj⟩ := eq_ok_of_bind hj
  have hrun : ([LogEvent.commit firstCommit] ++ [LogEvent.flush]).foldlM
    (Journal.step stillHost) j₀ = .ok j := hj
  have hstarted := started_createLogFile hj₀
  refine ⟨j₀, j, hstarted, hrun, fun hreadable => ?_⟩
  exact absurd ((readable_iff hstarted hrun).mp hreadable firstCommit (by simp)) (by decide)

open Journal in
/-- Two commits, each with a flush: none of the records can be gone to. -/
theorem readers_of_run_first : ∃ j₀ j, createLogFile stillHost {} = .ok j₀ ∧
    [.commit firstCommit, .flush, .commit firstCommit, .flush].foldlM (Journal.step stillHost) j₀ =
      .ok j ∧
    j.manager.history.length = 2 ∧ ∀ p ∈ j.manager.history, ∀ reader : LogStream,
      reader.lsn = p.lsn → ∃ reader', j.manager.validateReader reader = some reader' ∧
        reader'.seekReadToOffset p.offset = .error .pastFile := by
  have hok : (createLogFile stillHost {} >>= fun j₀ => [LogEvent.commit firstCommit, .flush,
      .commit firstCommit, .flush].foldlM (Journal.step stillHost) j₀).toOption.any
        (fun j => j.manager.history.length = 2) = true := by
    decide +kernel
  obtain ⟨j, hj, hlength⟩ := exists_ok_of_any hok
  obtain ⟨j₀, hj₀, hrun⟩ := eq_ok_of_bind hj
  exact ⟨j₀, j, hj₀, hrun, by simpa using hlength, fun p hp reader hlsn =>
    readers_of_run (started_createLogFile hj₀) hrun hp reader hlsn⟩

open Journal in
/-- The record of the first commit is at offset 1061, and the size of file 0 is 0 in the
index and in the header. -/
theorem firstFlush_unreadable : ∃ j, firstFlush = .ok j ∧ ¬ j.Readable ∧
    j.manager.history = [⟨⟨10000, column_mem_long⟩, ⟨1, one_mem_long⟩, ⟨0, zero_mem_long⟩, 1061⟩] ∧
    (j.manager.files.get? ⟨0, zero_mem_long⟩).map (·.size) = some 0 ∧
    (j.headers.get? ⟨0, zero_mem_long⟩).map (·.size) = some 0 := by
  have hok : firstFlush.toOption.any (fun j =>
      j.manager.history == [⟨⟨10000, column_mem_long⟩, ⟨1, one_mem_long⟩, ⟨0, zero_mem_long⟩, 1061⟩] &&
      (j.manager.files.get? ⟨0, zero_mem_long⟩).map (·.size) == some 0 &&
      (j.headers.get? ⟨0, zero_mem_long⟩).map (·.size) == some 0) = true := by
    decide +kernel
  obtain ⟨j, hj, hok⟩ := exists_ok_of_any hok
  simp only [Bool.and_eq_true, beq_iff_eq] at hok
  obtain ⟨⟨hhistory, hfile⟩, hheader⟩ := hok
  refine ⟨j, hj, fun hreadable => ?_, hhistory, hfile, hheader⟩
  obtain ⟨⟨file, hfile', hwithin⟩, -⟩ := hreadable _ (by rw [hhistory]; exact mem_singleton_self _)
  rw [hfile'] at hfile
  have hsize : file.size = 0 := Option.some.inj hfile
  rw [hsize] at hwithin
  exact absurd hwithin (by decide)

end Fastore.Store
