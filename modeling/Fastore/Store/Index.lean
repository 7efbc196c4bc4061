import Fastore.Lib.Runs
import Fastore.Store.Manager

/-!
The index of the log files.

Whatever has been committed, the index has an entry for each written column
and no file in any of them (`Kept`). So the offsets of revisions are not found,
and the latest revision of a column is taken from the last element of an empty
vector.

The files can not be scanned either: the signature is written without anything
behind it and read as a word, which goes on with the digits of the version
(`Headed`).
-/

namespace Fastore.Store

open Lib List

/-! ### Headers -/

structure Headed (f : File) : Prop where
  length : 8 ≤ f.length
  char : ∀ i c, (signature ++ ['0'])[i]? = some c → f.char i = c

theorem Headed.write {f : File} (h : Headed f) {p : ℕ} (hp : 8 ≤ p) (cs : List Char) :
    Headed (f.write p cs) := by
  refine ⟨?_, fun i c hc => ?_⟩
  · have hlength := h.length
    simp only [File.write]
    split <;> omega
  · obtain ⟨hi, -⟩ := List.getElem?_eq_some_iff.mp hc
    have hlt : i < 8 := hi
    simp only [File.write]
    rw [if_neg (by omega), h.char i c hc]

theorem headed_create (lsn now size : Long) (rand : Word) :
    Headed (LogWriter.create lsn now size rand).file := by
  have hversion : decimal version = ['0'] := by decide
  obtain ⟨cs, hcs⟩ :
      ∃ cs, headerText lsn now size rand ⟨0, by decide⟩ = (signature ++ ['0']) ++ cs := by
    simp only [headerText, hversion, append_assoc]
    exact ⟨_, rfl⟩
  refine ⟨?_, fun i c hc => ?_⟩
  · have hmax : 8 ≤ maxLogSize := by decide
    simp only [LogWriter.create, File.write, File.zeros]
    split <;> omega
  · obtain ⟨hi, -⟩ := List.getElem?_eq_some_iff.mp hc
    simp only [LogWriter.create, File.write, File.zeros, Nat.zero_le, if_true, Nat.sub_zero, hcs]
    rw [getD_eq_getElem?_getD, getElem?_append_left hi, hc]
    rfl

theorem Headed.readLogHeader {f : File} (h : Headed f) :
    LogStream.readLogHeader f = .error .signature := by
  have hsignature : signature = ['F', 'a', 's', 't', 'o', 'r', 'e'] := by decide
  have hrest : f.rest 0 = (signature ++ ['0']) ++ f.rest 8 :=
    File.rest_eq_append h.length fun i c hc => by rw [Nat.zero_add, h.char i c hc]
  obtain ⟨cs, hword⟩ :
      ∃ cs, ((Stream.start f 0).extractWord).1 = some (signature ++ '0' :: cs) := by
    refine ⟨(f.rest 8).takeWhile fun c => !isSpace c, ?_⟩
    rw [hsignature] at hrest ⊢
    simp [Stream.extractWord, Stream.start, Stream.good, hrest, isSpace]
  have hne : cString (signature ++ '0' :: cs) ≠ signature := by
    simp [hsignature, cString]
  rw [LogStream.readLogHeader]
  simp only [hword, Option.getD_some, if_neg hne]

namespace LogManager

variable {h : Host} {m m' : LogManager}

/-! ### Files -/

def directory (m : LogManager) : List (String × File) := m.resetWriter.closed

/-- The files have their headers, and the writer is behind its own. -/
structure FilesKept (m : LogManager) : Prop where
  closed : ∀ f ∈ m.closed, Headed f.2
  writer : ∀ w ∈ m.writer, Headed w.2.file ∧ logHeaderSize ≤ w.2.size

theorem FilesKept.resetWriter (hm : FilesKept m) : FilesKept m.resetWriter := by
  rw [LogManager.resetWriter]
  split
  · rename_i filename w hw
    refine ⟨fun f hf => ?_, by simp⟩
    rcases mem_append.mp hf with hf | hf
    · exact hm.closed f hf
    · rw [mem_singleton.mp hf]
      exact (hm.writer _ hw).1.write (by decide) _
  · exact hm

structure FilesOnly (m m' : LogManager) : Prop where
  columns : m'.columns = m.columns
  history : m'.history = m.history
  files : FilesKept m → FilesKept m'

theorem FilesOnly.refl (m : LogManager) : FilesOnly m m := ⟨rfl, rfl, id⟩

theorem FilesOnly.trans {m'' : LogManager} (h₁ : FilesOnly m m') (h₂ : FilesOnly m' m'') :
    FilesOnly m m'' :=
  ⟨h₂.columns.trans h₁.columns, h₂.history.trans h₁.history, h₂.files ∘ h₁.files⟩

theorem resetWriter_filesOnly (m : LogManager) : FilesOnly m m.resetWriter := by
  refine ⟨?_, ?_, FilesKept.resetWriter⟩ <;>
    rw [resetWriter] <;> split <;> rfl

theorem createLogFile_spec (hok : m.createLogFile h = .ok m') :
    FilesOnly m m' ∧ m'.writer.isSome := by
  obtain ⟨newLsn, -, rfl⟩ := eq_ok_of_map hok
  have hreset := resetWriter_filesOnly m
  refine ⟨⟨hreset.columns, hreset.history, fun hm => ⟨(hreset.files hm).closed, ?_⟩⟩, rfl⟩
  rintro _ ⟨⟩
  exact ⟨headed_create .., le_refl _⟩

theorem completeCurrentLog_filesOnly (m : LogManager) : FilesOnly m m.completeCurrentLog := by
  have hcomplete : FilesOnly m
      { m with writer := m.writer.map fun w => (w.1, w.2.setComplete) } := by
    refine ⟨rfl, rfl, fun hm => ⟨hm.closed, fun w hw => ?_⟩⟩
    obtain ⟨w', hw', rfl⟩ := Option.mem_map.mp hw
    exact hm.writer w' hw'
  exact hcomplete.trans (resetWriter_filesOnly _)

theorem prepLog_spec {size : ℤ} (hok : m.prepLog h size = .ok m') :
    FilesOnly m m' ∧ m'.writer.isSome := by
  obtain ⟨m₁, hm₁, hok⟩ := eq_ok_of_bind hok
  have h₁ : FilesOnly m m₁ ∧ m₁.writer.isSome := by
    rw [ensureWriter] at hm₁
    split at hm₁
    · exact createLogFile_spec hm₁
    · rename_i hsome
      obtain rfl := Except.ok.inj hm₁
      exact ⟨.refl m, by simpa [Option.isSome_iff_ne_none] using hsome⟩
  split at hok
  · split at hok
    · obtain ⟨h₂, hwriter⟩ := createLogFile_spec hok
      exact ⟨h₁.1.trans ((completeCurrentLog_filesOnly m₁).trans h₂), hwriter⟩
    · obtain rfl := Except.ok.inj hok
      exact h₁
  · obtain rfl := Except.ok.inj hok
    exact h₁

theorem append_filesOnly {write : LogWriter → Long → LogWriter}
    (hwrite : ∀ w now, ∃ cs, write w now = w.append cs) : FilesOnly m (m.append h write) := by
  refine ⟨rfl, rfl, fun hm => ⟨hm.closed, fun w hw => ?_⟩⟩
  obtain ⟨w', hw', rfl⟩ := Option.mem_map.mp hw
  obtain ⟨cs, hcs⟩ := hwrite w'.2 (h.time m.ticks)
  obtain ⟨hheaded, hsize⟩ := hm.writer w' hw'
  have hheader : 8 ≤ logHeaderSize := by decide
  dsimp only
  rw [hcs]
  exact ⟨hheaded.write (by omega) _, by simp only [LogWriter.append]; omega⟩

/-! ### Commits -/

/-- The index has an entry without files for each column that has been written. -/
structure Kept (m : LogManager) : Prop where
  files : FilesKept m
  empty : ∀ c info, m.columns.get? c = some info → info.revisions = []
  columns : ∀ c, (m.columns.get? c).isSome ↔ ∃ p ∈ m.history, p.columnId = c

theorem Kept.filesOnly (hm : Kept m) (h' : FilesOnly m m') : Kept m' :=
  ⟨h'.files hm.files, by rw [h'.columns]; exact hm.empty, by
    rw [h'.columns, h'.history]
    exact hm.columns⟩

variable {revisions : SortedMap Long Long}

theorem writeTransactionBegin_spec {transactionID : Long}
    (hok : m.writeTransactionBegin h transactionID revisions = .ok m') :
    FilesOnly m m' ∧ m'.writer.isSome := by
  obtain ⟨m₁, hm₁, rfl⟩ := eq_ok_of_map hok
  obtain ⟨h₁, hwriter⟩ := prepLog_spec hm₁
  have happend : FilesOnly m₁ (m₁.append h fun w now =>
      w.writeTransactionBegin transactionID revisions now) := append_filesOnly fun w now => ⟨_, rfl⟩
  exact ⟨h₁.trans ⟨happend.columns, happend.history, fun hm => ⟨(happend.files hm).closed,
    (happend.files hm).writer⟩⟩, by simpa [append] using hwriter⟩

theorem writeTransactionEnd_spec {transactionID : Long}
    (hok : m.writeTransactionEnd h transactionID = .ok m') :
    FilesOnly m m' ∧ m'.writer.isSome := by
  obtain ⟨m₁, hm₁, rfl⟩ := eq_ok_of_map hok
  obtain ⟨h₁, hwriter⟩ := prepLog_spec hm₁
  have happend : FilesOnly m₁ (m₁.append h fun w now => w.writeTransactionEnd transactionID now) :=
    append_filesOnly fun w now => ⟨_, rfl⟩
  exact ⟨h₁.trans ⟨happend.columns, happend.history, fun hm => ⟨(happend.files hm).closed,
    (happend.files hm).writer⟩⟩, by simpa [append] using hwriter⟩

theorem Kept.writeRevision {columnId revision : Long} {buffer : List Char} (hm : Kept m)
    (hok : m.writeRevision h columnId revision buffer = .ok m') : Kept m' := by
  obtain ⟨m₁, hm₁, hok⟩ := eq_ok_of_bind hok
  obtain ⟨h₁, -⟩ := prepLog_spec hm₁
  split at hok
  · rename_i filename w hw
    obtain rfl := Except.ok.inj hok
    have happend : FilesOnly m₁ (m₁.append h fun w now =>
        w.writeRevision columnId revision buffer now) := append_filesOnly fun w now => ⟨_, rfl⟩
    have hkept := (hm.filesOnly h₁).filesOnly happend
    refine ⟨⟨hkept.files.closed, hkept.files.writer⟩, fun c info hc => ?_, fun c => ?_⟩
    · dsimp only at hc
      rw [SortedMap.get?_update] at hc
      split at hc
      · obtain rfl := Option.some.inj hc
        rw [id]
        cases hold : SortedMap.get? (m₁.append h fun w now =>
            w.writeRevision columnId revision buffer now).columns columnId with
        | none => rfl
        | some info => exact hkept.empty columnId info hold
      · exact hkept.empty c info hc
    · dsimp only
      rw [SortedMap.get?_update]
      have hcolumns := hkept.columns c
      by_cases hc : c = columnId
      · simp [hc]
      · rw [if_neg hc, hcolumns]
        simp [Ne.symm hc]
  · cases hok

theorem Kept.writeRevisions {write : Long × List Char} (hm : Kept m)
    (hok : m.writeRevisions h revisions write = .ok m') : Kept m' := by
  rw [LogManager.writeRevisions] at hok
  split at hok
  · exact hm.writeRevision hok
  · cases hok

variable {commit : Commit}

theorem Kept.internalCommit (hm : Kept m)
    (hok : m.internalCommit h commit = .ok m') : Kept m' ∧ m'.writer.isSome := by
  obtain ⟨m₁, hm₁, hok⟩ := eq_ok_of_bind hok
  obtain ⟨m₂, hm₂, hok⟩ := eq_ok_of_bind hok
  obtain ⟨h₁, -⟩ := writeTransactionBegin_spec hm₁
  obtain ⟨h₃, hwriter⟩ := writeTransactionEnd_spec hok
  have hkept : Kept m₂ := foldlM_preserves (fun _ _ _ hm hok => hm.writeRevisions hok)
    (hm.filesOnly h₁) hm₂
  exact ⟨hkept.filesOnly h₃, hwriter⟩

theorem writeRevisions_history {write : Long × List Char}
    (hok : m.writeRevisions h revisions write = .ok m') :
    m'.history.length = m.history.length + 1 := by
  rw [LogManager.writeRevisions] at hok
  split at hok
  · obtain ⟨m₁, hm₁, hok⟩ := eq_ok_of_bind hok
    obtain ⟨h₁, -⟩ := prepLog_spec hm₁
    split at hok
    · obtain rfl := Except.ok.inj hok
      simp [append, h₁.history]
    · cases hok
  · cases hok

theorem internalCommit_history (hok : m.internalCommit h commit = .ok m') :
    m'.history.length = m.history.length + commit.writes.entries.length := by
  obtain ⟨m₁, hm₁, hok⟩ := eq_ok_of_bind hok
  obtain ⟨m₂, hm₂, hok⟩ := eq_ok_of_bind hok
  have hwrites : ∀ {ws : List (Long × List Char)} {m₁ m₂ : LogManager},
      ws.foldlM (fun m write => m.writeRevisions h commit.revisions write) m₁ = .ok m₂ →
      m₂.history.length = m₁.history.length + ws.length := by
    intro ws
    induction ws with
    | nil =>
      intro m₁ m₂ hok
      obtain rfl := Except.ok.inj hok
      rfl
    | cons write ws ih =>
      intro m₁ m₂ hok
      rw [foldlM_cons] at hok
      obtain ⟨m₃, hm₃, hok⟩ := eq_ok_of_bind hok
      rw [ih hok, writeRevisions_history hm₃, length_cons]
      omega
  rw [(writeTransactionEnd_spec hok).1.history, hwrites hm₂,
    (writeTransactionBegin_spec hm₁).1.history]

theorem internalCommit_history_eq_nil (hok : m.internalCommit h commit = .ok m') :
    m'.history = [] ↔ m.history = [] ∧ commit.writes.entries = [] := by
  rw [← length_eq_zero_iff, internalCommit_history hok, Nat.add_eq_zero_iff,
    length_eq_zero_iff, length_eq_zero_iff]

theorem Kept.run {commits : List Commit} (hm : Kept m)
    (hok : commits.foldlM (LogManager.internalCommit h) m = .ok m') :
    Kept m' ∧ (commits ≠ [] → m'.writer.isSome) ∧
      (m'.history = [] ↔ m.history = [] ∧ ∀ commit ∈ commits, commit.writes.entries = []) := by
  induction commits generalizing m with
  | nil =>
    obtain rfl := Except.ok.inj hok
    exact ⟨hm, by simp, by simp⟩
  | cons commit commits ih =>
    rw [foldlM_cons] at hok
    obtain ⟨m₁, hm₁, hok⟩ := eq_ok_of_bind hok
    obtain ⟨hkept, hwriter⟩ := hm.internalCommit hm₁
    obtain ⟨hkept', hwriter', hhistory⟩ := ih hkept hok
    refine ⟨hkept', fun _ => ?_, ?_⟩
    · by_cases hnil : commits = []
      · subst hnil
        obtain rfl := Except.ok.inj hok
        exact hwriter
      · exact hwriter' hnil
    · rw [hhistory, internalCommit_history_eq_nil hm₁, forall_mem_cons, and_assoc]

/-! ### The index -/

def lookup (m : LogManager) (c revision : Long) : Option (Long × ℤ) :=
  (m.columns.get? c).bind fun info => offsetByRevision info revision

def Lookups (m : LogManager) : Prop :=
  ∀ p ∈ m.history, m.lookup p.columnId p.revision = some (p.lsn, p.offset)

/-- `getLatestRevisions` has the last revision of each column. -/
def Latest (m : LogManager) : Prop :=
  ∃ results, m.getLatestRevisions = .ok results ∧
    ∀ c, results.get? c = ((m.history.filter fun p => p.columnId = c).getLast?).map (·.revision.val)

/-- Scanning the files, in any order, makes an index with the same lookups. -/
def Reindexed (m : LogManager) : Prop :=
  ∀ files : List (String × File), files.Perm m.directory → ∃ m', files.foldlM indexLogFile {} = .ok m' ∧
    ∀ c revision, m'.lookup c revision = m.lookup c revision

structure Indexed (m : LogManager) : Prop where
  lookups : m.Lookups
  latest : m.Latest
  reindexed : m.Reindexed

theorem Kept.lookup (hm : Kept m) (c revision : Long) : m.lookup c revision = none := by
  rw [LogManager.lookup]
  cases hc : m.columns.get? c with
  | none => rfl
  | some info => simp [offsetByRevision, hm.empty c info hc]

theorem Kept.columns_of_history (hm : Kept m) (hhistory : m.history = []) :
    m.columns.entries = [] := by
  cases hentries : m.columns.entries with
  | nil => rfl
  | cons e es =>
    have hmem : e ∈ m.columns.entries := by simp [hentries]
    have hsome := (hm.columns e.1).mp (by rw [SortedMap.get?_eq_some.mpr hmem]; rfl)
    simp [hhistory] at hsome

theorem Kept.lookups_iff (hm : Kept m) : m.Lookups ↔ m.history = [] := by
  constructor
  · intro h
    cases hhistory : m.history with
    | nil => rfl
    | cons p ps =>
      have hp := h p (by simp [hhistory])
      rw [hm.lookup] at hp
      cases hp
  · intro h p hp
    rw [h] at hp
    cases hp

theorem Kept.latest_iff (hm : Kept m) : m.Latest ↔ m.history = [] := by
  constructor
  · rintro ⟨results, hresults, -⟩
    cases hhistory : m.history with
    | nil => rfl
    | cons p ps =>
      -- the first column of the index has no file
      have hsome := (hm.columns p.columnId).mpr ⟨p, by simp [hhistory], rfl⟩
      obtain ⟨info, hinfo⟩ := Option.isSome_iff_exists.mp hsome
      have hmem := SortedMap.get?_eq_some.mp hinfo
      cases hentries : m.columns.entries with
      | nil =>
        rw [hentries] at hmem
        cases hmem
      | cons e es =>
        have he : m.columns.get? e.1 = some e.2 :=
          SortedMap.get?_eq_some.mpr (by simp [hentries])
        rw [getLatestRevisions, hentries, foldlM_cons] at hresults
        simp only [hm.empty e.1 e.2 he, getLast?_nil] at hresults
        cases hresults
  · intro h
    refine ⟨.empty, ?_, fun c => ?_⟩
    · rw [getLatestRevisions, hm.columns_of_history h]
      rfl
    · rw [h]
      rfl

theorem Kept.directory (hm : Kept m) : ∀ f ∈ m.directory, Headed f.2 := hm.files.resetWriter.closed

theorem Kept.reindexed_iff (hm : Kept m) : m.Reindexed ↔ m.directory = [] := by
  constructor
  · intro h
    obtain ⟨m', hm', -⟩ := h m.directory (.refl _)
    cases hdirectory : m.directory with
    | nil => rfl
    | cons f fs =>
      have hf := (hm.directory f (by simp [hdirectory])).readLogHeader
      rw [hdirectory, foldlM_cons, indexLogFile, hf] at hm'
      cases hm'
  · intro h files hfiles
    rw [h] at hfiles
    obtain rfl := hfiles.eq_nil
    exact ⟨{}, rfl, fun c revision => (hm.lookup c revision).symm⟩

theorem directory_eq_nil : m.directory = [] ↔ m.closed = [] ∧ m.writer = none := by
  rw [LogManager.directory, resetWriter]
  split
  · rename_i hw
    simp [hw]
  · rename_i hw
    simp [hw]

structure Fresh (m : LogManager) : Prop where
  files : FilesKept m
  columns : m.columns = .empty
  history : m.history = []

theorem Fresh.kept (hm : Fresh m) : Kept m :=
  ⟨hm.files, by simp [hm.columns], by simp [hm.columns, hm.history]⟩

end LogManager

open LogManager in
/-- **The index** is right if and only if nothing has been committed and there is no
file: the offsets and the latest revisions if and only if no revision has been
committed, the scan of the files if and only if there are none. -/
theorem indexed_iff {h : Host} {m₀ m : LogManager} {commits : List Commit} (hm₀ : Fresh m₀)
    (hrun : commits.foldlM (internalCommit h) m₀ = .ok m) :
    (Indexed m ↔ m₀.directory = [] ∧ commits = []) ∧
    (m.Lookups ↔ ∀ commit ∈ commits, commit.writes.entries = []) ∧
    (m.Latest ↔ ∀ commit ∈ commits, commit.writes.entries = []) := by
  obtain ⟨hkept, hwriter, hhistory⟩ := hm₀.kept.run hrun
  simp only [hm₀.history, true_and] at hhistory
  have hdirectory : m.directory = [] ↔ m₀.directory = [] ∧ commits = [] := by
    by_cases hnil : commits = []
    · subst hnil
      obtain rfl := Except.ok.inj hrun
      simp
    · have hsome := hwriter hnil
      rw [directory_eq_nil]
      simp only [hnil, and_false, iff_false, not_and]
      rintro - hnone
      rw [hnone] at hsome
      cases hsome
  refine ⟨⟨fun hindexed => hdirectory.mp (hkept.reindexed_iff.mp hindexed.reindexed), ?_⟩,
    hkept.lookups_iff.trans hhistory, hkept.latest_iff.trans hhistory⟩
  rintro ⟨hfiles, rfl⟩
  have hempty := hhistory.mpr (by simp)
  exact ⟨hkept.lookups_iff.mpr hempty, hkept.latest_iff.mpr hempty,
    hkept.reindexed_iff.mpr (hdirectory.mpr ⟨hfiles, rfl⟩)⟩

theorem clock_mem_long : (-2 ^ 63 : ℤ) ≤ 1352000000 ∧ (1352000000 : ℤ) ≤ 2 ^ 63 - 1 := by decide

theorem rand_mem_word : (-2 ^ 31 : ℤ) ≤ 41 ∧ (41 : ℤ) ≤ 2 ^ 31 - 1 := by decide

def stillHost : Host where
  path := "log/"
  time _ := ⟨1352000000, clock_mem_long⟩
  rand _ := ⟨41, rand_mem_word⟩
  unsetSize _ := ⟨0, zero_mem_long⟩

def firstCommit : Commit where
  transactionID := ⟨1, by decide⟩
  revisions := .insert .empty ⟨10000, by decide⟩ ⟨1, by decide⟩
  writes := .insert .empty ⟨10000, by decide⟩ ['w']

open LogManager in
/-- After the first commit the offset of its revision is not found. -/
theorem indexed_iff_first : ∃ m, [firstCommit].foldlM (internalCommit stillHost) {} = .ok m ∧
    ¬ Indexed m ∧ ¬ m.Lookups := by
  have hok : ([firstCommit].foldlM (internalCommit stillHost) {}).isOk = true := by decide +kernel
  cases hrun : [firstCommit].foldlM (internalCommit stillHost) {} with
  | error fault =>
    rw [hrun] at hok
    cases hok
  | ok m =>
    obtain ⟨hindexed, hlookups, -⟩ := indexed_iff ⟨⟨by simp, by simp⟩, rfl, rfl⟩ hrun
    refine ⟨m, rfl, fun h => ?_, fun h => ?_⟩
    · exact absurd (hindexed.mp h).2 (by simp)
    · exact absurd (hlookups.mp h firstCommit (by simp)) (by decide)

open LogManager in
/-- The first commit after the start: its record is in file 0 at offset 1061, and neither
the index nor the file can tell. -/
theorem firstCommit_lost : ∃ m₀ m, createLogFile stillHost {} = .ok m₀ ∧
    m₀.internalCommit stillHost firstCommit = .ok m ∧
    m.history = [⟨⟨10000, by decide⟩, ⟨1, by decide⟩, ⟨0, by decide⟩, 1061⟩] ∧
    m.lookup ⟨10000, by decide⟩ ⟨1, by decide⟩ = none ∧
    m.getLatestRevisions.isOk = false ∧ (m.directory.foldlM indexLogFile {}).isOk = false := by
  have hrun : (createLogFile stillHost {} >>= fun m₀ =>
      m₀.internalCommit stillHost firstCommit).toOption.any (fun m =>
        m.history == [⟨⟨10000, by decide⟩, ⟨1, by decide⟩, ⟨0, by decide⟩, 1061⟩] &&
        (m.lookup ⟨10000, by decide⟩ ⟨1, by decide⟩).isNone &&
        !m.getLatestRevisions.isOk && !(m.directory.foldlM indexLogFile {}).isOk) = true := by
    decide +kernel
  obtain ⟨m, hm, hrun⟩ := exists_ok_of_any hrun
  obtain ⟨m₀, hm₀, hm⟩ := eq_ok_of_bind hm
  simp only [Bool.and_eq_true, beq_iff_eq, Option.isNone_iff_eq_none, Bool.not_eq_true'] at hrun
  obtain ⟨⟨⟨hhistory, hlookup⟩, hlatest⟩, hdirectory⟩ := hrun
  exact ⟨m₀, m, hm₀, hm, hhistory, hlookup, hlatest, hdirectory⟩

end Fastore.Store
