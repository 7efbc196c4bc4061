import Fastore.Buffer.Ends

/-!
Saving and loading a buffer.

`BufferSerializer` asks a buffer for its cells in chunks, each request
starting behind the last row of the chunk before, and writes the groups it
gets as records of a file. `BufferDeserializer` reads records until it has a
chunk of cells and applies them as includes. A chunk may end between two rows
of a value, so the groups of the file are not those of the buffer; what is
kept is the list of cells (`Serves.save`, `load_holds`). Records are taken to
be read as they were written.
-/

namespace Fastore.Buffer

open Lib Fastore.Tree List RangeRequest ValueRows

variable {B P R A X : Type}

/-! ### Writing -/

def bufferChunkSize : ℕ := 500

/-- `BufferSerializer`, with the records written so far. -/
structure BufferSerializer (A R : Type) where
  firstWrite : Bool := true
  /-- Set with the first chunk, as is the row. -/
  lastValue : Option A := none
  lastRowId : Option R := none
  disposed : Bool := true
  records : List (ValueRows A R) := []

def BufferSerializer.open (s : BufferSerializer A R) : Except Fault (BufferSerializer A R) :=
  if !s.disposed then .error (.thrown "Serializer already open!")
  else .ok { s with disposed := false }

def BufferSerializer.close (s : BufferSerializer A R) : Except Fault (BufferSerializer A R) :=
  if s.disposed then .error (.thrown "Serializer already closed!")
  else .ok { s with disposed := true }

def BufferSerializer.range (s : BufferSerializer A R) : RangeRequest A R :=
  if !s.firstWrite then
    { ascending := true, limit := bufferChunkSize, first := s.lastValue.map (⟨·, true⟩),
      rowID := s.lastRowId }
  else { ascending := true, limit := bufferChunkSize }

def BufferSerializer.writeNextChunk
    (getRows : RangeRequest A R → Except Fault (RangeResult A R)) (s : BufferSerializer A R) :
    Except Fault (BufferSerializer A R × Bool) :=
  if s.disposed then .error (.thrown "Serializer not opened!")
  else do
    let result ← getRows s.range
    let s := { s with firstWrite := false }
    match result.valueRowsList.getLast? with
    | none => .ok (s, false)
    | some lastValueRows =>
      match lastValueRows.rowIDs.getLast? with
      | none => .error (.thrown "out_of_range")
      | some lastRowId =>
        .ok (⟨false, some lastValueRows.value, some lastRowId, false,
          s.records ++ result.valueRowsList⟩, !result.eof)

def BufferSerializer.writeChunks (getRows : RangeRequest A R → Except Fault (RangeResult A R)) :
    ℕ → BufferSerializer A R → Except Fault (BufferSerializer A R)
  | 0, _ => .error .stackOverflow
  | fuel + 1, s => do
    let (s, more) ← s.writeNextChunk getRows
    if more then BufferSerializer.writeChunks getRows fuel s else .ok s

def save (getRows : RangeRequest A R → Except Fault (RangeResult A R)) (fuel : ℕ) :
    Except Fault (List (ValueRows A R)) := do
  let s ← BufferSerializer.open {}
  let s ← s.writeChunks getRows fuel
  let s ← s.close
  .ok s.records

/-! ### Reading -/

/-- `BufferDeserializer`, with the buffer and the records still to be read. -/
structure BufferDeserializer (B A R : Type) where
  buffer : B
  records : List (ValueRows A R)
  disposed : Bool := true
  iteration : ℕ := 0

def BufferDeserializer.open (s : BufferDeserializer B A R) : Except Fault (BufferDeserializer B A R) :=
  if !s.disposed then .error (.thrown "Serializer already open!")
  else .ok { s with disposed := false }

def BufferDeserializer.close (s : BufferDeserializer B A R) :
    Except Fault (BufferDeserializer B A R) :=
  if s.disposed then .error (.thrown "Serializer already closed!")
  else .ok { s with disposed := true }

def ValueRows.cells (vr : ValueRows A R) : List (Cell R A) := vr.rowIDs.map fun r => ⟨r, vr.value⟩

def readRecords : List (ValueRows A R) → ℕ → List (Cell R A) →
    List (Cell R A) × List (ValueRows A R)
  | [], _, includes => (includes, [])
  | vr :: records, totalWritesMade, includes =>
    if totalWritesMade < bufferChunkSize then
      readRecords records (totalWritesMade + vr.rowIDs.length) (includes ++ vr.cells)
    else (includes, vr :: records)

def BufferDeserializer.readNextChunk (apply : B → ColumnWrites R A → Except Fault B)
    (s : BufferDeserializer B A R) : Except Fault (BufferDeserializer B A R × Bool) :=
  if s.disposed then .error (.thrown "Serializer not opened!")
  else if s.records.isEmpty then .ok (s, false)
  else do
    let chunk := readRecords s.records 0 []
    let buffer ← apply s.buffer { includes := chunk.1 }
    .ok (⟨buffer, chunk.2, false, s.iteration + 1⟩, true)

def BufferDeserializer.readChunks (apply : B → ColumnWrites R A → Except Fault B) :
    ℕ → BufferDeserializer B A R → Except Fault (BufferDeserializer B A R)
  | 0, _ => .error .stackOverflow
  | fuel + 1, s => do
    let (s, more) ← s.readNextChunk apply
    if more then BufferDeserializer.readChunks apply fuel s else .ok s

def load (apply : B → ColumnWrites R A → Except Fault B) (buffer : B)
    (records : List (ValueRows A R)) (fuel : ℕ) : Except Fault B := do
  let s ← BufferDeserializer.open (⟨buffer, records, true, 0⟩ : BufferDeserializer B A R)
  let s ← s.readChunks apply fuel
  let s ← s.close
  .ok s.buffer

/-! ### What is written -/

/-- The buffer answers requests for chunks with the cells in order, from the
first one on or behind a row, and tells the end. -/
structure Serves (getRows : RangeRequest A R → Except Fault (RangeResult A R))
    (cells : List (A × R)) : Prop where
  first : ∃ result, getRows { limit := bufferChunkSize } = .ok result ∧
    result.Answers cells bufferChunkSize ∧ result.eof = !result.limited
  next : ∀ P a r Q, cells = P ++ (a, r) :: Q → ∃ result,
    getRows { limit := bufferChunkSize, first := some ⟨a, true⟩, rowID := some r } = .ok result ∧
      result.Answers Q bufferChunkSize ∧ result.eof = !result.limited

/-- The cells `P` are written, and the next request continues behind them. -/
structure BufferSerializer.Written (s : BufferSerializer A R) (P : List (A × R)) : Prop where
  records : flatten s.records = P
  disposed : s.disposed = false
  range : s.range = { limit := bufferChunkSize } ∧ P = [] ∨
    ∃ P' a r, P = P' ++ [(a, r)] ∧
      s.range = { limit := bufferChunkSize, first := some ⟨a, true⟩, rowID := some r }

theorem flatten_concat {gs : List (ValueRows A R)} {g : ValueRows A R} {r : R} {rows : List R}
    (hrows : g.rowIDs = rows ++ [r]) :
    flatten (gs ++ [g]) = (flatten gs ++ rows.map fun r => (g.value, r)) ++ [(g.value, r)] := by
  rw [flatten_append]
  simp [flatten, hrows]

section Writing

variable {getRows : RangeRequest A R → Except Fault (RangeResult A R)} {cells P Q : List (A × R)}
  {s : BufferSerializer A R}

/-- **A chunk**: the cells that are left, or as many as fit; there is more
exactly if as many have been written. -/
theorem Serves.writeNextChunk (h : Serves getRows cells) (hs : s.Written P)
    (hcells : cells = P ++ Q) : ∃ s', s.writeNextChunk getRows =
        .ok (s', decide (bufferChunkSize ≤ Q.length)) ∧
      s'.disposed = false ∧ flatten s'.records = P ++ Q.take bufferChunkSize ∧
      (bufferChunkSize ≤ Q.length → s'.Written (P ++ Q.take bufferChunkSize)) := by
  obtain ⟨result, hget, hans, heof⟩ : ∃ result, getRows s.range = .ok result ∧
      result.Answers Q bufferChunkSize ∧ result.eof = !result.limited := by
    rcases hs.range with ⟨hrange, rfl⟩ | ⟨P', a, r, rfl, hrange⟩
    · rw [hrange]
      obtain rfl : cells = Q := by simpa using hcells
      exact h.first
    · rw [hrange]
      exact h.next P' a r Q (by simpa using hcells)
  have hlimited : result.limited = decide (bufferChunkSize ≤ Q.length) := by
    rw [Bool.eq_iff_iff, hans.limited, hans.cells, length_take, decide_eq_true_iff]
    omega
  have hwrite : s.writeNextChunk getRows = (do
      let s := { s with firstWrite := false }
      match result.valueRowsList.getLast? with
      | none => .ok (s, false)
      | some lastValueRows =>
        match lastValueRows.rowIDs.getLast? with
        | none => .error (.thrown "out_of_range")
        | some lastRowId =>
          .ok (⟨false, some lastValueRows.value, some lastRowId, false,
            s.records ++ result.valueRowsList⟩, !result.eof)) := by
    simp only [BufferSerializer.writeNextChunk, hs.disposed, Bool.false_eq_true, if_false, hget,
      bind, Except.bind]
  have hflat := hans.cells
  rcases eq_nil_or_concat result.valueRowsList with hnil | ⟨gs, g, hgs⟩
  · -- nothing is left
    obtain rfl : Q = [] := by
      rw [hnil] at hflat
      have hlen := congrArg List.length hflat
      rw [length_take] at hlen
      refine eq_nil_of_length_eq_zero ?_
      simp only [flatten, flatMap_nil, length_nil, bufferChunkSize] at hlen
      omega
    refine ⟨{ s with firstWrite := false }, ?_, hs.disposed, ?_, ?_⟩
    · rw [hwrite, hnil]
      rfl
    · simpa using hs.records
    · intro hle
      simp [bufferChunkSize] at hle
  · rw [concat_eq_append] at hgs
    obtain ⟨rows, r, hrows⟩ := (eq_nil_or_concat g.rowIDs).resolve_left
      (hans.nonempty g (by simp [hgs]))
    rw [concat_eq_append] at hrows
    have hrecords : flatten (s.records ++ result.valueRowsList) = P ++ Q.take bufferChunkSize := by
      rw [flatten_append, hs.records, hflat]
    refine ⟨⟨false, some g.value, some r, false, s.records ++ result.valueRowsList⟩, ?_, rfl,
      hrecords, fun _ => ⟨hrecords, rfl, Or.inr ?_⟩⟩
    · rw [hwrite, hgs]
      simp only [getLast?_append, getLast?_singleton, Option.some_or, hrows, heof,
        hlimited, Bool.not_not]
    · rw [← hrecords, hgs, ← append_assoc, flatten_concat hrows]
      exact ⟨_, g.value, r, rfl, rfl⟩

/-- **All chunks**: the records hold all cells in order. -/
theorem Serves.writeChunks (h : Serves getRows cells) :
    ∀ (Q P : List (A × R)) (s : BufferSerializer A R), cells = P ++ Q → s.Written P →
      ∃ s', (∀ fuel, Q.length < fuel → s.writeChunks getRows fuel = .ok s') ∧
        s'.disposed = false ∧ flatten s'.records = cells := by
  intro Q
  induction hn : Q.length using Nat.strong_induction_on generalizing Q with
  | _ n ih =>
    subst hn
    intro P s hcells hs
    obtain ⟨s₁, hwrite, hdisposed, hrecords, hmore⟩ := h.writeNextChunk hs hcells
    by_cases hle : bufferChunkSize ≤ Q.length
    · have hlen : (Q.drop bufferChunkSize).length < Q.length := by
        rw [length_drop, bufferChunkSize] at *
        omega
      obtain ⟨s', hrest, hs'⟩ := ih _ hlen (Q.drop bufferChunkSize) rfl
        (P ++ Q.take bufferChunkSize) s₁ (by simpa using hcells) (hmore hle)
      refine ⟨s', fun fuel hfuel => ?_, hs'⟩
      obtain ⟨fuel, rfl⟩ : ∃ f, fuel = f + 1 := ⟨fuel - 1, by omega⟩
      simp only [BufferSerializer.writeChunks, hwrite, hle, decide_true, bind, Except.bind, if_true]
      exact hrest fuel (by omega)
    · refine ⟨s₁, fun fuel hfuel => ?_, hdisposed, ?_⟩
      · obtain ⟨fuel, rfl⟩ : ∃ f, fuel = f + 1 := ⟨fuel - 1, by omega⟩
        simp only [BufferSerializer.writeChunks, hwrite, hle, decide_false, bind, Except.bind,
          Bool.false_eq_true, if_false]
      · rw [hrecords, hcells, take_of_length_le (by omega)]

theorem Serves.save (h : Serves getRows cells) : ∃ records,
    (∀ fuel, cells.length < fuel → save getRows fuel = .ok records) ∧ flatten records = cells := by
  obtain ⟨s, hwrite, hdisposed, hrecords⟩ := h.writeChunks cells [] ⟨true, none, none, false, []⟩
    rfl ⟨rfl, rfl, Or.inl ⟨rfl, rfl⟩⟩
  refine ⟨s.records, fun fuel hfuel => ?_, hrecords⟩
  simp only [Buffer.save, BufferSerializer.open, Bool.not_true, Bool.false_eq_true, if_false, bind,
    Except.bind, hwrite fuel hfuel, BufferSerializer.close, hdisposed]

end Writing

/-! ### What is read -/

variable {Holds : B → (R → Option A) → Prop} {fine : Cell R A → Prop} {pairs : List (A × R)}
  {unique : Prop} {M : R → Option A} {result : RangeResult A R}

section Reading

variable {apply : B → ColumnWrites R A → Except Fault B}

theorem flatMap_cells (records : List (ValueRows A R)) :
    records.flatMap cells = (flatten records).map fun c => ⟨c.2, c.1⟩ := by
  rw [flatten, map_flatMap]
  refine flatMap_congr fun vr _ => ?_
  rw [cells, map_map]
  rfl

theorem readRecords_eq (records : List (ValueRows A R)) (total : ℕ) (includes : List (Cell R A)) :
    (readRecords records total includes).1 ++
        (readRecords records total includes).2.flatMap cells =
      includes ++ records.flatMap cells := by
  induction records generalizing total includes with
  | nil => rfl
  | cons vr records ih =>
    rw [readRecords]
    split
    · rw [ih, flatMap_cons, append_assoc]
    · rfl

theorem readRecords_length_le (records : List (ValueRows A R)) (total : ℕ)
    (includes : List (Cell R A)) : (readRecords records total includes).2.length ≤ records.length := by
  induction records generalizing total includes with
  | nil => exact le_rfl
  | cons vr records ih =>
    rw [readRecords]
    split
    · exact (ih _ _).trans (Nat.le_succ _)
    · exact le_rfl

theorem readRecords_length_lt {records : List (ValueRows A R)} (h : records ≠ []) :
    (readRecords records 0 []).2.length < records.length := by
  obtain ⟨vr, records, rfl⟩ := exists_cons_of_ne_nil h
  rw [readRecords, if_pos (by decide)]
  exact Nat.lt_succ_of_le (readRecords_length_le _ _ _)

variable [DecidableEq R]

/-- **All chunks**, for a buffer that takes the cells it is given. -/
theorem readChunks_holds (happly : ∀ b M cells, Holds b M → (∀ c ∈ cells, fine c) →
      ∃ b', apply b { includes := cells } = .ok b' ∧ Holds b' (cells.foldl (put unique) M)) :
    ∀ (records : List (ValueRows A R)) (b : B) (M : R → Option A) (iteration : ℕ), Holds b M →
      (∀ c ∈ records.flatMap cells, fine c) →
      ∃ s, (∀ fuel, records.length < fuel →
          BufferDeserializer.readChunks apply fuel ⟨b, records, false, iteration⟩ = .ok s) ∧
        s.disposed = false ∧
        Holds s.buffer ((records.flatMap cells).foldl (put unique) M) := by
  intro records
  induction hn : records.length using Nat.strong_induction_on generalizing records with
  | _ n ih =>
    subst hn
    intro b M iteration hb hfine
    by_cases hnil : records = []
    · subst hnil
      refine ⟨⟨b, [], false, iteration⟩, fun fuel hfuel => ?_, rfl, hb⟩
      obtain ⟨fuel, rfl⟩ : ∃ f, fuel = f + 1 := ⟨fuel - 1, by omega⟩
      rfl
    · have hall := readRecords_eq records 0 []
      rw [nil_append] at hall
      have hlt := readRecords_length_lt hnil
      obtain ⟨b₁, hb₁, h₁⟩ := happly b M (readRecords records 0 []).1 hb fun c hc =>
        hfine c (hall ▸ mem_append_left _ hc)
      obtain ⟨s, hrest, hdisposed, hs⟩ := ih _ hlt (readRecords records 0 []).2 rfl b₁ _
        (iteration + 1) h₁ fun c hc => hfine c (hall ▸ mem_append_right _ hc)
      refine ⟨s, fun fuel hfuel => ?_, hdisposed, ?_⟩
      · obtain ⟨fuel, rfl⟩ : ∃ f, fuel = f + 1 := ⟨fuel - 1, by omega⟩
        have hempty : records.isEmpty = false := by simpa using hnil
        simp only [BufferDeserializer.readChunks, BufferDeserializer.readNextChunk,
          Bool.false_eq_true, if_false, hempty, hb₁, bind, Except.bind, if_true]
        exact hrest fuel (by omega)
      · rw [← foldl_append, hall] at hs
        exact hs

theorem load_holds (happly : ∀ b M cells, Holds b M → (∀ c ∈ cells, fine c) →
      ∃ b', apply b { includes := cells } = .ok b' ∧ Holds b' (cells.foldl (put unique) M)) {b : B}
    (hb : Holds b M) {records : List (ValueRows A R)}
    (hfine : ∀ c ∈ records.flatMap cells, fine c) :
    ∃ b', (∀ fuel, records.length < fuel → load apply b records fuel = .ok b') ∧
      Holds b' ((records.flatMap cells).foldl (put unique) M) := by
  obtain ⟨s, hread, hdisposed, hs⟩ := readChunks_holds happly records b M 0 hb hfine
  refine ⟨s.buffer, fun fuel hfuel => ?_, hs⟩
  simp only [load, BufferDeserializer.open, Bool.not_true, Bool.false_eq_true, if_false, bind,
    Except.bind, hread fuel hfuel, BufferDeserializer.close, hdisposed]

/-- What is put of a buffer's own cells is there, and nothing else is new. -/
theorem foldl_put_part {N : R → Option A} (hM : unique → Unambiguous M)
    (hN : ∀ r a, N r = some a → M r = some a) {cells : List (Cell R A)}
    (hcells : ∀ c ∈ cells, M c.rowID = some c.value) (r : R) :
    cells.foldl (put unique) N r = if r ∈ cells.map (·.rowID) then M r else N r := by
  induction cells generalizing N with
  | nil => simp
  | cons c cells ih =>
    have hc := hcells c mem_cons_self
    have hput : ∀ r, put unique N c r = if r = c.rowID then M r else N r := by
      intro r
      by_cases hnone : N c.rowID = none
      · rw [put_new_apply hnone fun hu r' hr' => ?_]
        · split
          case isTrue heq => rw [heq, hc]
          case isFalse => rfl
        · -- the row that has the value already is the row of the cell
          rw [hM hu r' c.rowID c.value (hN r' _ hr') hc, hnone] at hr'
          simp at hr'
      · rw [put_of_row hnone]
        split
        case isTrue heq =>
          obtain ⟨a, ha⟩ := Option.ne_none_iff_exists'.mp hnone
          rw [heq, ha, hN _ a ha]
        case isFalse => rfl
    rw [foldl_cons, ih (fun r a hr => ?_) fun c hc => hcells c (mem_cons_of_mem _ hc),
      hput, map_cons]
    · by_cases hmem : r ∈ cells.map (·.rowID)
      · simp [hmem]
      · simp only [hmem, if_false, mem_cons, or_false]
    · rw [hput] at hr
      split at hr
      case isTrue => exact hr
      case isFalse => exact hN r a hr

theorem foldl_put_all (hM : unique → Unambiguous M)
    (hpairs : ∀ a r, (a, r) ∈ pairs ↔ M r = some a) :
    (pairs.map fun c => (⟨c.2, c.1⟩ : Cell R A)).foldl (put unique) (fun _ => none) = M := by
  have hcells : ∀ c ∈ pairs.map fun c => (⟨c.2, c.1⟩ : Cell R A), M c.rowID = some c.value := by
    intro c hc
    obtain ⟨⟨a, r⟩, hmem, rfl⟩ := mem_map.mp hc
    exact (hpairs a r).mp hmem
  funext r
  rw [foldl_put_part hM (by simp) hcells r, map_map]
  split
  case isTrue => rfl
  case isFalse hr =>
    rw [eq_comm, Option.eq_none_iff_forall_ne_some]
    intro a ha
    exact hr (mem_map.mpr ⟨(a, r), (hpairs a r).mpr ha, rfl⟩)

/-- Saving a buffer and loading the file ends with the buffer `b'`. -/
def RoundTrip (getRows : RangeRequest A R → Except Fault (RangeResult A R))
    (apply : B → ColumnWrites R A → Except Fault B) (empty b' : B) : Prop :=
  ∃ records fuel fuel', save getRows fuel = .ok records ∧ load apply empty records fuel' = .ok b'

theorem Serves.roundTrip {getRows : RangeRequest A R → Except Fault (RangeResult A R)}
    {apply : B → ColumnWrites R A → Except Fault B} {empty : B} (h : Serves getRows pairs)
    (happly : ∀ b M cells, Holds b M → (∀ c ∈ cells, fine c) →
      ∃ b', apply b { includes := cells } = .ok b' ∧ Holds b' (cells.foldl (put unique) M))
    (hempty : Holds empty fun _ => none) (hM : unique → Unambiguous M)
    (hpairs : ∀ a r, (a, r) ∈ pairs ↔ M r = some a) (hfine : ∀ c ∈ pairs, fine ⟨c.2, c.1⟩) :
    ∃ b', RoundTrip getRows apply empty b' ∧ Holds b' M := by
  obtain ⟨records, hsave, hrecords⟩ := h.save
  have hcells : records.flatMap cells =
      pairs.map fun c => (⟨c.2, c.1⟩ : Cell R A) := by rw [flatMap_cells, hrecords]
  have hall : ∀ c ∈ records.flatMap cells, fine c := by
    intro c hc
    rw [hcells] at hc
    obtain ⟨c', hc', rfl⟩ := mem_map.mp hc
    exact hfine c' hc'
  obtain ⟨b', hload, hb'⟩ := load_holds happly hempty hall
  rw [hcells, foldl_put_all hM hpairs] at hb'
  exact ⟨b', ⟨records, _, _, hsave _ (Nat.lt_succ_self _), hload _ (Nat.lt_succ_self _)⟩, hb'⟩

end Reading

/-! ### The buffers -/

section Ends

variable [LinearOrder A] {range : RangeRequest A R}

theorem setUp_eof (m : SortedMap A X) (hasc : range.ascending = true) (hlast : range.last = none)
    {startKey : Option A} {s : SetUp A R} (h : setUp m range startKey = .ok s) :
    s.result.eof = true := by
  simp only [setUp, stopAt, hlast, hasc, if_true, Bool.and_false, Bool.false_eq_true,
    if_false] at h
  obtain ⟨begin, -, h⟩ := eq_ok_of_bind h
  obtain ⟨stop, -, rfl⟩ := eq_ok_of_map h
  simp only
  split_ifs <;> simp

omit [LinearOrder A] in
theorem eof_resetEof (h : result.eof = true) : result.resetEof.eof = !result.resetEof.limited := by
  cases hl : result.limited <;> simp [RangeResult.resetEof, hl, h]

variable [LinearOrder R]

theorem scanRows_eof {m : SortedMap A X} {row : A × X → R} {startKey : Option A}
    (hasc : range.ascending = true) (hlast : range.last = none)
    (h : scanRows m row range startKey = .ok result) : result.eof = !result.limited := by
  obtain ⟨s, hs, h⟩ := eq_ok_of_bind h
  obtain ⟨result', hloop, rfl⟩ := eq_ok_of_map h
  exact eof_resetEof ((scanLoop_extends hloop).eof.trans (setUp_eof m hasc hlast hs))

theorem TreeBuffer.getRows_eof {b : TreeBuffer R A} (hasc : range.ascending = true)
    (hlast : range.last = none) (h : b.getRows range = .ok result) :
    result.eof = !result.limited := by
  obtain ⟨startKey, -, h⟩ := eq_ok_of_bind h
  obtain ⟨s, hs, h⟩ := eq_ok_of_bind h
  obtain ⟨result', hloop, rfl⟩ := eq_ok_of_map h
  exact eof_resetEof ((TreeBuffer.valuesLoop_extends hloop).eof.trans
    (setUp_eof b.values hasc hlast hs))

end Ends

section Buffers

variable [LinearOrder A]

theorem select_all (pairs : List (A × R)) :
    select { limit := bufferChunkSize } pairs = pairs := by
  rw [select, direct, if_pos rfl, filter_eq_self]
  exact fun _ _ => rfl

theorem select_from {P Q : List (A × R)} {a : A} {r : R}
    (hsorted : pairs.Pairwise fun x y => x.1 ≤ y.1) (hpairs : pairs = P ++ (a, r) :: Q) :
    ∃ P', select { limit := bufferChunkSize, first := some ⟨a, true⟩ } pairs =
      P' ++ (a, r) :: Q := by
  have hadmits : ∀ c : A, admits
      ({ limit := bufferChunkSize, first := some ⟨a, true⟩ } : RangeRequest A R) c =
        decide (a ≤ c) := by
    intro c
    simp [admits, lowest, highest, RangeBound.lower]
  rw [hpairs, pairwise_append, pairwise_cons] at hsorted
  have hQ : Q.filter (fun c => admits
      ({ limit := bufferChunkSize, first := some ⟨a, true⟩ } : RangeRequest A R) c.1) = Q := by
    refine filter_eq_self.mpr fun c hc => ?_
    rw [hadmits]
    exact decide_eq_true (hsorted.2.1.1 c hc)
  rw [select, direct, if_pos rfl, hpairs, filter_append,
    filter_cons_of_pos (by simp [hadmits]), hQ]
  exact ⟨_, rfl⟩

variable [LinearOrder R]

theorem serves_of_scanRows (m : SortedMap A X) (row : A × X → R)
    {getRows : RangeRequest A R → Except Fault (RangeResult A R)}
    (hinj : ∀ e ∈ m.entries, ∀ e' ∈ m.entries, row e = row e' → e = e')
    (hfirst : getRows { limit := bufferChunkSize } =
      scanRows m row { limit := bufferChunkSize } none)
    (hnext : ∀ e ∈ m.entries, ∀ range : RangeRequest A R, range.rowID = some (row e) →
      getRows range = scanRows m row range (some e.1)) :
    Serves getRows (m.entries.map fun e => (e.1, row e)) := by
  refine ⟨?_, fun P a r Q hcells => ?_⟩
  · obtain ⟨result, hok, hans⟩ := scanRows_answers m row { limit := bufferChunkSize } rfl
      (by simp [RangeRequest.Proper, lowest]) (by simp [bufferChunkSize])
    rw [select_all] at hans
    exact ⟨result, hfirst.trans hok, hans, scanRows_eof rfl rfl hok⟩
  · have hsorted : (m.entries.map fun e => (e.1, row e)).Pairwise fun x y => x.1 ≤ y.1 := by
      rw [pairwise_map]
      exact m.sorted.imp fun hlt => hlt.le
    obtain ⟨P', hselect⟩ := select_from hsorted hcells
    obtain ⟨result, hok, hans⟩ := scanRows_next (n := bufferChunkSize) rfl (by decide) hinj hselect
    have hmem : (a, r) ∈ m.entries.map fun e => (e.1, row e) := by simp [hcells]
    obtain ⟨e, he, heq⟩ := mem_map.mp hmem
    obtain ⟨rfl, rfl⟩ := Prod.mk.inj heq
    exact ⟨result, (hnext e he _ rfl).trans hok, hans, scanRows_eof rfl rfl hok⟩

theorem IdentityBuffer.serves (b : IdentityBuffer R) : Serves b.getRows b.pairs := by
  have hserves : Serves b.getRows (b.rows.entries.map fun e => (e.1, e.1)) :=
    serves_of_scanRows b.rows Prod.fst (fun _ _ _ _ h => Prod.ext h rfl) rfl
      (fun e _ range hrow => by rw [IdentityBuffer.getRows, hrow])
  rwa [IdentityBuffer.pairs, SortedMap.keys, map_map]

theorem UniqueIndex.Holds.serves {payload : A → P} {b : UniqueIndex P R A} (h : b.Holds payload M)
    {getValue : R → Except Fault (Option A)} (hget : ∀ r, getValue r = .ok (M r)) :
    Serves (fun range => do
      let startKey ← startKeyOf (b.values.size = 0) getValue range
      scanRows b.values Prod.snd range startKey) b.pairs := by
  have hrow : ∀ e ∈ b.values.entries, M e.2 = some e.1 := fun e he =>
    (h.values e.1 e.2).mp (SortedMap.get?_eq_some.mpr he)
  have hpairs : b.pairs = b.values.entries.map fun e => (e.1, e.2) := by simp [UniqueIndex.pairs]
  rw [hpairs]
  refine serves_of_scanRows b.values Prod.snd (fun e he e' he' heq => ?_) rfl
    (fun e he range hid => ?_)
  · refine Prod.ext (Option.some.inj ?_) heq
    rw [← hrow e he, heq, hrow e' he']
  · simp only [startKeyOf_some hid ((hget e.2).trans (congrArg _ (hrow e he))), bind, Except.bind]

theorem TreeBuffer.pairs_sorted (b : TreeBuffer R A) :
    b.pairs.Pairwise fun x y => x.1 ≤ y.1 := by
  rw [TreeBuffer.pairs, pairwise_flatMap]
  refine ⟨fun e _ => ?_, b.values.sorted.imp fun {e e'} hlt c hc c' hc' => ?_⟩
  · rw [pairwise_map]
    exact pairwise_of_forall fun _ _ => le_refl _
  · obtain ⟨_, _, rfl⟩ := mem_map.mp hc
    obtain ⟨_, _, rfl⟩ := mem_map.mp hc'
    exact hlt.le

theorem TreeBuffer.Holds.serves {b : TreeBuffer R A} (h : b.Holds M) :
    Serves b.getRows b.pairs := by
  refine ⟨?_, fun P a r Q hcells => ?_⟩
  · obtain ⟨result, hok, hans⟩ := b.getRows_spec { limit := bufferChunkSize } rfl
      (by simp [RangeRequest.Proper, lowest]) (by simp [bufferChunkSize])
    rw [select_all] at hans
    exact ⟨result, hok, hans, TreeBuffer.getRows_eof rfl rfl hok⟩
  · obtain ⟨P', hselect⟩ := select_from b.pairs_sorted hcells
    obtain ⟨result, hok, hans⟩ := h.getRows_next (n := bufferChunkSize) rfl (by decide) rfl hselect
    exact ⟨result, hok, hans, TreeBuffer.getRows_eof rfl rfl hok⟩

theorem IdentityBuffer.Holds.mem_pairs {b : IdentityBuffer R} {M : R → Option R} (h : b.Holds M)
    (a r : R) : (a, r) ∈ b.pairs ↔ M r = some a := by
  have hkey : r ∈ b.rows.keys ↔ ∃ a, M r = some a := by
    rw [SortedMap.mem_keys, h.rows]
    simp
  rw [IdentityBuffer.pairs, mem_map]
  constructor
  · rintro ⟨r', hr', heq⟩
    obtain ⟨rfl, rfl⟩ := Prod.mk.inj heq
    obtain ⟨a, ha⟩ := hkey.mp hr'
    rw [ha, h.own _ a ha]
  · intro hr
    obtain rfl := h.own r a hr
    exact ⟨a, hkey.mpr ⟨a, hr⟩, rfl⟩

theorem UniqueIndex.Holds.mem_pairs {payload : A → P} {b : UniqueIndex P R A}
    (h : b.Holds payload M) (a : A) (r : R) : (a, r) ∈ b.pairs ↔ M r = some a := by
  rw [← h.values, UniqueIndex.pairs, SortedMap.get?_eq_some]

theorem IdentityBuffer.Holds.apply_own {b : IdentityBuffer R} {M : R → Option R} (h : b.Holds M)
    {cells : List (Cell R R)} (hcells : ∀ c ∈ cells, c.value = c.rowID) :
    ∃ b', b.apply { includes := cells } = .ok b' ∧ b'.Holds (cells.foldl (put False) M) := by
  rw [IdentityBuffer.apply, foldl_nil]
  induction cells generalizing b M with
  | nil => exact ⟨b, rfl, h⟩
  | cons c cells ih =>
    obtain ⟨b', hrest, hb'⟩ := ih (h.includeRow (hcells c mem_cons_self))
      fun c hc => hcells c (mem_cons_of_mem _ hc)
    refine ⟨b', ?_, hb'⟩
    rw [IdentityBuffer.applyIncludes, if_neg (not_not.mpr (hcells c mem_cons_self))]
    exact hrest

/-- **Serialization round-trips**: whatever has been written to a buffer,
saving it and loading the file into an empty one makes the same cells and
statistics. -/
theorem serialization_roundTrips :
    (∀ (ws : List (ColumnWrites R R)) (b : IdentityBuffer R),
      ws.foldlM IdentityBuffer.apply IdentityBuffer.new = .ok b →
      ∃ b', RoundTrip b.getRows IdentityBuffer.apply IdentityBuffer.new b' ∧
        b'.pairs = b.pairs ∧ b'.getStatistic = b.getStatistic) ∧
    (∀ (ws : List (ColumnWrites R A)) (b : UniqueInlineBuffer R A),
      ws.foldlM UniqueInlineBuffer.apply UniqueIndex.new = .ok b →
      ∃ b' : UniqueInlineBuffer R A, RoundTrip (UniqueInlineBuffer.getRows b)
          UniqueInlineBuffer.apply UniqueIndex.new b' ∧
        b'.pairs = b.pairs ∧ b'.getStatistic = b.getStatistic) ∧
    (∀ (ws : List (ColumnWrites R A)) (b : UniqueBuffer R A),
      ws.foldlM UniqueBuffer.apply UniqueIndex.new = .ok b →
      ∃ b' : UniqueBuffer R A, RoundTrip (UniqueBuffer.getRows b) UniqueBuffer.apply
          UniqueIndex.new b' ∧
        b'.pairs = b.pairs ∧ b'.getStatistic = b.getStatistic) ∧
    (∀ (ws : List (ColumnWrites R A)) (b : TreeBuffer R A),
      ws.foldlM TreeBuffer.apply TreeBuffer.new = .ok b →
      ∃ b', RoundTrip b.getRows TreeBuffer.apply TreeBuffer.new b' ∧
        b'.pairs = b.pairs ∧ b'.getStatistic = b.getStatistic) := by
  refine ⟨fun ws b hb => ?_, fun ws b hb => ?_, fun ws b hb => ?_, fun ws b hb => ?_⟩
  · obtain ⟨M, h⟩ := IdentityBuffer.holds_of_foldlM IdentityBuffer.holds_new hb
    have hown : ∀ c ∈ b.pairs, c.1 = c.2 := by
      rintro ⟨a, r⟩ hc
      exact h.own r a ((h.mem_pairs a r).mp hc)
    obtain ⟨b', htrip, hb'⟩ := b.serves.roundTrip (fun _ _ _ hb => hb.apply_own)
      IdentityBuffer.holds_new (fun hu => hu.elim) h.mem_pairs hown
    obtain rfl := hb'.eq h
    exact ⟨b', htrip, rfl, rfl⟩
  · obtain ⟨b₁, hb₁, h⟩ := UniqueInlineBuffer.foldlM_apply ws
    obtain rfl := ok_unique hb hb₁
    have happly : ∀ (b : UniqueInlineBuffer R A) (M : R → Option A) (cells : List (Cell R A)),
        UniqueIndex.Holds id b M → (∀ c ∈ cells, True) →
        ∃ b', UniqueInlineBuffer.apply b { includes := cells } = .ok b' ∧
          UniqueIndex.Holds id b' (cells.foldl (put True) M) :=
      fun _ _ cells hb _ => UniqueInlineBuffer.apply_holds hb { includes := cells }
    obtain ⟨b', htrip, hb'⟩ := (h.serves (UniqueInlineBuffer.getValue_eq h)).roundTrip happly
      UniqueIndex.holds_new (fun _ => h.unambiguous) h.mem_pairs (fun _ _ => trivial)
    obtain rfl := hb'.eq h
    exact ⟨b', htrip, rfl, rfl⟩
  · obtain ⟨b₁, hb₁, h⟩ := UniqueBuffer.foldlM_apply ws
    obtain rfl := ok_unique hb hb₁
    have happly : ∀ (b : UniqueBuffer R A) (M : R → Option A) (cells : List (Cell R A)),
        UniqueIndex.Holds (fun _ => ()) b M → (∀ c ∈ cells, True) →
        ∃ b', UniqueBuffer.apply b { includes := cells } = .ok b' ∧
          UniqueIndex.Holds (fun _ => ()) b' (cells.foldl (put True) M) :=
      fun _ _ cells hb _ => UniqueBuffer.apply_holds hb { includes := cells }
    obtain ⟨b', htrip, hb'⟩ := (h.serves (UniqueBuffer.getValue_eq h)).roundTrip happly
      UniqueIndex.holds_new (fun _ => h.unambiguous) h.mem_pairs (fun _ _ => trivial)
    obtain rfl := hb'.eq h
    exact ⟨b', htrip, rfl, rfl⟩
  · obtain ⟨b₁, hb₁, h⟩ := TreeBuffer.foldlM_apply ws
    obtain rfl := ok_unique hb hb₁
    have happly : ∀ (b : TreeBuffer R A) (M : R → Option A) (cells : List (Cell R A)),
        b.Holds M → (∀ c ∈ cells, True) →
        ∃ b', b.apply { includes := cells } = .ok b' ∧
          b'.Holds (cells.foldl (put False) M) :=
      fun _ _ cells hb _ => TreeBuffer.apply_holds hb { includes := cells }
    obtain ⟨b', htrip, hb'⟩ := h.serves.roundTrip happly TreeBuffer.holds_new (fun hu => hu.elim)
      (fun _ _ => h.mem_pairs) (fun _ _ => trivial)
    obtain rfl := hb'.eq h
    exact ⟨b', htrip, rfl, rfl⟩

/-- The tree buffer with two values. -/
theorem serialization_roundTrips_twoValues : ∃ b', RoundTrip twoValues.getRows TreeBuffer.apply
    TreeBuffer.new b' ∧ b'.pairs = [(1, 10), (1, 11), (2, 12)] ∧ b'.getStatistic = ⟨3, 2⟩ := by
  obtain ⟨b', htrip, hpairs, hstatistic⟩ := (serialization_roundTrips (R := ℕ) (A := ℕ)).2.2.2
    [{ includes := [⟨10, 1⟩, ⟨11, 1⟩, ⟨12, 2⟩] }] twoValues (by decide)
  refine ⟨b', htrip, hpairs.trans (by decide), hstatistic.trans (by decide)⟩

end Buffers

end Fastore.Buffer
