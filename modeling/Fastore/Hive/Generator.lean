import Fastore.Hive.Sync

/-!
Generators of IDs.

A generator is a row of the column `GeneratorNextValue` with the next ID to
be given out. A client that needs a block of IDs runs a transaction
(`InternalGenerate`): it reads the row, excludes it and includes it again
with the end of its block. That takes three messages to the worker: one to
read, one to prepare (`apply`), one to commit. Nothing keeps another client
from committing in between, since the worker never asks for a validation. So
two clients may get the same block (`generate_twice`).

The clients are numbered, and a run is a list of the clients that take their
next step. If at each commit the row still is what the client has read, the
blocks do not overlap (`blocks_disjoint`).
-/

namespace Fastore.Hive

open Lib Buffer
open Client (Column Env Call Transaction Lists events firstInclude)

variable {R A : Type} [LinearOrder R] [LinearOrder A]

/-! ### Clients -/

def generatorNextValue : ColumnID := 10000

def Fits64 (x : ℤ) : Prop := -2 ^ 63 ≤ x ∧ x < 2 ^ 63

instance (x : ℤ) : Decidable (Fits64 x) := inferInstanceAs (Decidable (_ ∧ _))

/-- `Encoder<int64_t>`. -/
structure Longs (A : Type) where
  encode : ℤ → A
  decode : A → ℤ
  decode_encode : ∀ x, Fits64 x → decode (encode x) = x

/-- What a client asks for. A block has at least one ID (`IDGenerator`). -/
structure Request where
  size : ℕ
  minId : Option ℤ

def Request.start (req : Request) (longs : Longs A) (value : Option A) : ℤ :=
  let result := req.minId.getD 0
  match value with
  | some value =>
    let tempresult := longs.decode value
    if result < tempresult then tempresult else result
  | none => result

def Request.next (req : Request) (longs : Longs A) (value : Option A) : A :=
  longs.encode (req.start longs value + req.size)

def Request.calls (req : Request) (longs : Longs A) (generatorId : R) (value : Option A) :
    List (Call R A) :=
  (if value.isSome then [.excludeRow [generatorNextValue] generatorId] else []) ++
    [.includeRow [generatorNextValue] generatorId [req.next longs value]]

/-- Where a client is in `InternalGenerate`, with what it has read. -/
inductive Phase (R A : Type)
  | idle
  /-- The transaction is ready. -/
  | read (value : Option A) (writes : SortedMap ColumnID (ColumnWrites R A))
  /-- The worker has agreed. -/
  | prepared (value : Option A) (writes : SortedMap ColumnID (ColumnWrites R A))
  | committed (value : Option A)

structure Clients (R A : Type) [LinearOrder R] [LinearOrder A] where
  worker : Worker (Column R A)
  phase : ℕ → Phase R A

inductive ClientFault
  | client (fault : Client.Fault)
  | worker (fault : WorkerFault)
  | hive (fault : Fault)
  deriving DecidableEq, Repr

/-- The surroundings of the clients: the formats of the worker, the schema they
know, the generator and what each of them asks for. -/
structure Setting (R A : Type) where
  formats : Formats R A
  env : Env R A
  longs : Longs A
  generatorId : R
  request : ℕ → Request

namespace Clients

variable (g : Setting R A) (s : Clients R A)

def setPhase (i : ℕ) (phase : Phase R A) : Clients R A :=
  { s with phase := Function.update s.phase i phase }

def hive : State where
  pods := [s.worker.podId]
  sorted := by simp
  revision _ c := (s.worker.repositories c).map (·.revision)

def readStep (i : ℕ) : Except ClientFault (Clients R A) := do
  let value ← (s.worker.query g.formats generatorNextValue g.generatorId).mapError .worker
  let t ← (((g.request i).calls g.longs g.generatorId value).foldlM (Transaction.call g.env)
    {}).mapError .client
  let writes ← (t.gatherWrites g.env generatorNextValue).mapError .client
  .ok (s.setPhase i (.read value (match writes with
    | some writes => .insert .empty generatorNextValue writes
    | none => .empty)))

def prepareStep (i : ℕ) (value : Option A) (writes : SortedMap ColumnID (ColumnWrites R A)) :
    Except ClientFault (Clients R A) := do
  let results ← (s.hive.prepared writes.keys fun _ => false).mapError .hive
  match canFinalizeTransaction results with
  | some _ => .ok (s.setPhase i (.prepared value writes))
  | none => .ok s

def commitStep (i : ℕ) (value : Option A) (writes : SortedMap ColumnID (ColumnWrites R A)) :
    Except ClientFault (Clients R A) := do
  let worker ← (s.worker.commit g.formats writes).mapError .worker
  .ok ({ s with worker := worker }.setPhase i (.committed value))

def step (i : ℕ) : Except ClientFault (Clients R A) :=
  match s.phase i with
  | .idle => s.readStep g i
  | .read value writes => s.prepareStep i value writes
  | .prepared value writes => s.commitStep g i value writes
  | .committed _ => .ok s

/-- At a commit, the row still is what the client has read, and the end of the block
is a number that has 64 bits. -/
def undisturbed (i : ℕ) : Bool :=
  match s.phase i with
  | .prepared value _ =>
    (match s.worker.query g.formats generatorNextValue g.generatorId with
      | .ok now => now = value
      | .error _ => false) &&
    decide (Fits64 ((g.request i).start g.longs value + (g.request i).size))
  | _ => true

/-- The blocks of the transactions that have committed do not overlap. -/
def Disjoint : Prop :=
  ∀ i j, i ≠ j → ∀ value value', s.phase i = .committed value → s.phase j = .committed value' →
    (g.request i).start g.longs value + (g.request i).size ≤ (g.request j).start g.longs value' ∨
    (g.request j).start g.longs value' + (g.request j).size ≤ (g.request i).start g.longs value

end Clients

/-! ### The log of a transaction -/

section Log

variable {env : Env R A} {c : ColumnID}

theorem ensureColumnLog_ok (hschema : env.schema c = true) (t : Transaction R A) :
    ∃ column, t.ensureColumnLog env c = .ok column := by
  rw [Transaction.ensureColumnLog]
  split
  · exact ⟨_, rfl⟩
  · exact ⟨_, if_pos (.inr hschema)⟩

theorem excludeRow_ok (hschema : env.schema c = true) (t : Transaction R A) (r : R) :
    ∃ t', t.call env (.excludeRow [c] r) = .ok t' := by
  obtain ⟨column, hcolumn⟩ := ensureColumnLog_ok hschema t
  rw [Transaction.call, Transaction.excludeRow, hcolumn]
  exact ⟨_, rfl⟩

theorem includeRow_ok (hschema : env.schema c = true) {t : Transaction R A}
    {L : ColumnID → R → Option A} {X : ColumnID → R → Prop} (ht : t.Has L X) (r : R) (v : A) :
    ∃ t', t.call env (.includeRow [c] r [v]) = .ok t' := by
  obtain ⟨column, hcolumn⟩ := ensureColumnLog_ok hschema t
  obtain ⟨includes, hincludes, -⟩ :=
    TreeBuffer.apply_holds (ht.ensureColumnLog hcolumn).includes ⟨[⟨r, v⟩], []⟩
  refine ⟨t.setColumn c { column with includes := includes }, ?_⟩
  simp only [Transaction.call, Transaction.includeRow, Transaction.includeLoop, hcolumn, hincludes,
    Client.ofBuffer, Except.mapError, bind, Except.bind]
  rfl

theorem total_le_one {b : TreeBuffer R A} {L : R → Option A} (hb : b.Holds L) {r₀ : R}
    (hL : ∀ r, r ≠ r₀ → L r = none) : b.total ≤ 1 := by
  have hkeys : ∀ r ∈ b.rows.keys, r = r₀ := by
    intro r hr
    by_contra hne
    obtain ⟨u, hu⟩ := SortedMap.mem_keys.mp hr
    rw [hb.rows, hL r hne] at hu
    cases hu
  have hlength : b.rows.keys.length ≤ 1 := by
    have hnodup := b.rows.keys_nodup
    rw [List.eq_replicate_of_mem hkeys] at hnodup
    exact List.nodup_replicate.mp hnodup
  rw [SortedMap.keys, List.length_map] at hlength
  rw [hb.total]
  exact_mod_cast hlength

end Log

namespace Request

variable {longs : Longs A} {generatorId : R} {value : Option A} (req : Request)

omit [LinearOrder A] in
theorem events_calls (r : R) : events (req.calls longs generatorId value) generatorNextValue r =
    if r = generatorId then (if value.isSome then [none] else []) ++ [some (req.next longs value)]
    else [] := by
  cases value <;> by_cases h : r = generatorId <;>
    simp [events, calls, Call.events, generatorNextValue, h]

omit [LinearOrder A] in
theorem firstInclude_calls :
    (fun r => firstInclude (events (req.calls longs generatorId value) generatorNextValue r)) =
      fun r => if r = generatorId then some (req.next longs value) else none := by
  funext r
  rw [events_calls]
  cases value <;> by_cases h : r = generatorId <;> simp [h, firstInclude]

omit [LinearOrder A] in
theorem none_mem_calls :
    (fun r => none ∈ events (req.calls longs generatorId value) generatorNextValue r) =
      fun r => r = generatorId ∧ value.isSome = true := by
  funext r
  rw [events_calls]
  cases value <;> by_cases h : r = generatorId <;> simp [h]

/-- The writes of a transaction: the row with its new value, after the old one if
there was one. -/
def Writes (longs : Longs A) (generatorId : R) (value : Option A)
    (writes : SortedMap ColumnID (ColumnWrites R A)) : Prop :=
  ∃ ws, writes = .insert .empty generatorNextValue ws ∧
    Lists ws (fun r => if r = generatorId then some (req.next longs value) else none)
      fun r => r = generatorId ∧ value.isSome = true

theorem calls_ok {env : Env R A} (hschema : env.schema generatorNextValue = true) :
    ∃ t, (req.calls longs generatorId value).foldlM (Transaction.call env) {} = .ok t := by
  cases value with
  | none =>
    obtain ⟨t, ht⟩ := includeRow_ok hschema Transaction.has_new generatorId
      (req.next longs (none : Option A))
    exact ⟨t, by rw [calls]; simpa using ht⟩
  | some value =>
    obtain ⟨t₁, ht₁⟩ := excludeRow_ok hschema ({} : Transaction R A) generatorId
    have hcalls : ([.excludeRow [generatorNextValue] generatorId] : List (Call R A)).foldlM
        (Transaction.call env) {} = .ok t₁ := by
      rw [List.foldlM_cons, ht₁]
      rfl
    obtain ⟨t, ht⟩ := includeRow_ok hschema (Transaction.has_of_calls hcalls) generatorId
      (req.next longs (some value))
    refine ⟨t, ?_⟩
    rw [calls, Option.isSome_some, if_pos rfl, List.foldlM_append, hcalls]
    simp [bind, Except.bind, pure, Except.pure, ht]

theorem gatherWrites_ok {env : Env R A} {t : Transaction R A}
    (ht : (req.calls longs generatorId value).foldlM (Transaction.call env) {} = .ok t) :
    ∃ ws, t.gatherWrites env generatorNextValue = .ok (some ws) ∧
      req.Writes longs generatorId value (.insert .empty generatorNextValue ws) := by
  have hhas := Transaction.has_of_calls ht
  have htotal : ∀ column, t.log generatorNextValue = some column →
      column.includes.total ≤ Client.maxLimit := by
    intro column hcolumn
    have hincludes := (hhas.column hcolumn).includes
    rw [firstInclude_calls] at hincludes
    have hone : column.includes.total ≤ 1 := total_le_one hincludes fun r hr => if_neg hr
    exact hone.trans (by decide)
  obtain ⟨writes, hok, hlists⟩ := hhas.gatherWrites env htotal
  rw [firstInclude_calls, none_mem_calls] at hlists
  cases writes with
  | some ws => exact ⟨ws, hok, ws, rfl, hlists⟩
  | none =>
    have hcell := (hlists.includes ⟨generatorId, req.next longs value⟩).mpr (if_pos rfl)
    cases hcell

end Request

/-! ### One step -/

theorem Worker.commit_single {f : Formats R A} {w : Worker (Column R A)} {c : ColumnID}
    {b : TreeBuffer R A}
    {v : Revision} {M : R → Option A} (hc : podColumnColumnID < c)
    (hrepo : w.repositories c = some ⟨.multi b, v⟩) (hb : b.Holds M) (ws : ColumnWrites R A) :
    ∃ b', w.commit f (.insert .empty c ws) = .ok (w.set c (some ⟨.multi b', v + 1⟩)) ∧
      b'.Holds (applyTo False M ws) := by
  obtain ⟨b', hb', hholds⟩ := TreeBuffer.apply_holds hb ws
  refine ⟨b', ?_, hholds⟩
  have hentries : ((SortedMap.empty : SortedMap ColumnID (ColumnWrites R A)).insert c ws).entries =
      [(c, ws)] := rfl
  have happly : w.applyWrite f (c, ws) = .ok (w.set c (some ⟨.multi b', v + 1⟩)) := by
    have hcolumn : ColumnBuffer.apply f.rowText (Column.multi b) ws = .ok (.multi b') := by
      change Column.apply f.rowText (.multi b) ws = _
      rw [Column.apply, hb']
      rfl
    rw [applyWrite, hrepo]
    simp only [Repository.apply, ofBuffer_eq_ok.mpr hcolumn, bind, Except.bind]
  have htouch : touches (c, ws) = false := touches_of_lt hc
  rw [commit, hentries, List.foldlM_cons, commitWrite_plain (by simp [htouch]), happly]
  simp [bind, Except.bind, pure, Except.pure, htouch]

namespace Clients

variable {g : Setting R A} {s s' : Clients R A} {M : R → Option A}

structure Inv (g : Setting R A) (s : Clients R A) (M : R → Option A) : Prop where
  /-- The worker has the column of the generators. -/
  holds : ∃ b v, s.worker.repositories generatorNextValue = some ⟨.multi b, v⟩ ∧ b.Holds M
  /-- The writes of a transaction are those of its client. -/
  read : ∀ i value writes, s.phase i = .read value writes →
    (g.request i).Writes g.longs g.generatorId value writes
  prepared : ∀ i value writes, s.phase i = .prepared value writes →
    (g.request i).Writes g.longs g.generatorId value writes
  /-- The row is not before the end of a block that has been given out. -/
  given : ∀ i value, s.phase i = .committed value → ∃ v, M g.generatorId = some v ∧
    (g.request i).start g.longs value + (g.request i).size ≤ g.longs.decode v
  disjoint : s.Disjoint g

theorem Inv.query (h : Inv g s M) :
    s.worker.query g.formats generatorNextValue g.generatorId = .ok (M g.generatorId) := by
  obtain ⟨b, v, hrepo, hb⟩ := h.holds
  simp only [Worker.query, Worker.repository, hrepo, bind, Except.bind]
  exact ofBuffer_eq_ok.mpr (TreeBuffer.getValue_eq hb _)

theorem setPhase_phase (i j : ℕ) (phase : Phase R A) :
    (s.setPhase i phase).phase j = if j = i then phase else s.phase j :=
  Function.update_apply ..

theorem Inv.setPhase (h : Inv g s M) {i : ℕ} {phase : Phase R A}
    (hread : ∀ value writes, phase = .read value writes →
      (g.request i).Writes g.longs g.generatorId value writes)
    (hprepared : ∀ value writes, phase = .prepared value writes →
      (g.request i).Writes g.longs g.generatorId value writes)
    (hcommitted : ∀ value, phase ≠ .committed value) : Inv g (s.setPhase i phase) M := by
  have hold : ∀ j value, (s.setPhase i phase).phase j = .committed value →
      s.phase j = .committed value := by
    intro j value hj
    rw [setPhase_phase] at hj
    split at hj
    · exact absurd hj (hcommitted value)
    · exact hj
  refine ⟨h.holds, fun j value writes hj => ?_, fun j value writes hj => ?_,
    fun j value hj => h.given j value (hold j value hj),
    fun j k hjk value value' hj hk =>
      h.disjoint j k hjk value value' (hold j value hj) (hold k value' hk)⟩
  · rw [setPhase_phase] at hj
    split at hj
    · rename_i hji
      exact hji ▸ hread value writes hj
    · exact h.read j value writes hj
  · rw [setPhase_phase] at hj
    split at hj
    · rename_i hji
      exact hji ▸ hprepared value writes hj
    · exact h.prepared j value writes hj

theorem Inv.readStep (hschema : g.env.schema generatorNextValue = true) (h : Inv g s M) (i : ℕ) :
    ∃ s', s.readStep g i = .ok s' ∧ Inv g s' M := by
  obtain ⟨t, ht⟩ : ∃ t, ((g.request i).calls g.longs g.generatorId (M g.generatorId)).foldlM
      (Transaction.call g.env) {} = .ok t := (g.request i).calls_ok hschema
  obtain ⟨ws, hws, hwrites⟩ := (g.request i).gatherWrites_ok ht
  refine ⟨s.setPhase i (.read (M g.generatorId) (.insert .empty generatorNextValue ws)), ?_, ?_⟩
  · simp only [Clients.readStep, h.query, ht, hws, Except.mapError, bind, Except.bind]
  · refine h.setPhase ?_ ?_ ?_
    · rintro _ _ ⟨⟩
      exact hwrites
    · rintro _ _ ⟨⟩
    · rintro _ ⟨⟩

theorem Inv.prepareStep (h : Inv g s M) {i : ℕ} {value : Option A}
    {writes : SortedMap ColumnID (ColumnWrites R A)} (hi : s.phase i = .read value writes) :
    ∃ s', s.prepareStep i value writes = .ok s' ∧ Inv g s' M := by
  rcases s.hive.prepared_spec (fun _ => false) writes.keys_nodup with
    ⟨hlast, -⟩ | ⟨-, results, hok, -⟩
  · simp [State.lastFails] at hlast
  · simp only [Clients.prepareStep, hok, Except.mapError, bind, Except.bind]
    cases canFinalizeTransaction results with
    | none => exact ⟨s, rfl, h⟩
    | some revisions =>
      refine ⟨_, rfl, h.setPhase ?_ ?_ ?_⟩
      · rintro _ _ ⟨⟩
      · rintro _ _ ⟨⟩
        exact h.read i value writes hi
      · rintro _ ⟨⟩

omit [LinearOrder A] in
theorem le_start (req : Request) (longs : Longs A) (v : A) :
    longs.decode v ≤ req.start longs (some v) := by
  rw [Request.start]
  split
  · exact le_refl _
  · rename_i hlt
    exact not_lt.mp hlt

/-- The commit of a request keeps the invariant. -/
theorem Inv.commitStep (h : Inv g s M) {i : ℕ} {value : Option A}
    {writes : SortedMap ColumnID (ColumnWrites R A)} (hi : s.phase i = .prepared value writes)
    (hvalue : M g.generatorId = value)
    (hfits : Fits64 ((g.request i).start g.longs value + (g.request i).size)) :
    ∃ s' M', s.commitStep g i value writes = .ok s' ∧ Inv g s' M' := by
  obtain ⟨ws, rfl, hlists⟩ := h.prepared i value writes hi
  obtain ⟨b, v, hrepo, hb⟩ := h.holds
  obtain ⟨b', hcommit, hb'⟩ := Worker.commit_single (f := g.formats) (by decide) hrepo hb ws
  have hnext : applyTo False M ws g.generatorId = some ((g.request i).next g.longs value) := by
    rw [hlists.applyTo_multi, if_pos rfl]
    have hgone : (if g.generatorId ∈ ws.excludes then none else M g.generatorId) = none := by
      split
      · rfl
      · rename_i hnot
        rw [hlists.excludes] at hnot
        rw [hvalue]
        simpa using hnot
    rw [hgone, Option.none_or]
  have hend : g.longs.decode ((g.request i).next g.longs value) =
      (g.request i).start g.longs value + (g.request i).size := g.longs.decode_encode _ hfits
  -- the blocks given out so far lie before the new one
  have hbefore : ∀ j value', s.phase j = .committed value' →
      (g.request j).start g.longs value' + (g.request j).size ≤ (g.request i).start g.longs value := by
    intro j value' hj
    obtain ⟨v', hv', hle⟩ := h.given j value' hj
    rw [← hvalue, hv']
    exact hle.trans (le_start _ _ _)
  have hstep : s.commitStep g i value (.insert .empty generatorNextValue ws) =
      .ok (Clients.setPhase ⟨s.worker.set generatorNextValue (some ⟨.multi b', v + 1⟩), s.phase⟩ i
        (.committed value)) := by
    simp only [Clients.commitStep, hcommit, Except.mapError, bind, Except.bind]
  refine ⟨_, applyTo False M ws, hstep, ?_, ?_, ?_, ?_, ?_⟩
  · exact ⟨b', v + 1, by simp [Clients.setPhase], hb'⟩
  · intro j value' writes hj
    rw [setPhase_phase] at hj
    split at hj
    · cases hj
    · exact h.read j value' writes hj
  · intro j value' writes hj
    rw [setPhase_phase] at hj
    split at hj
    · cases hj
    · exact h.prepared j value' writes hj
  · intro j value' hj
    refine ⟨_, hnext, ?_⟩
    rw [hend]
    rw [setPhase_phase] at hj
    split at hj
    · rename_i hji
      obtain rfl : value = value' := by injection hj
      rw [hji]
    · have hle := hbefore j value' hj
      omega
  · intro j k hjk value' value'' hj hk
    rw [setPhase_phase] at hj hk
    split at hj <;> split at hk
    · rename_i hji hki
      exact absurd (hji.trans hki.symm) hjk
    · rename_i hji _
      obtain rfl : value = value' := by injection hj
      exact .inr (hji ▸ hbefore k value'' hk)
    · rename_i _ hki
      obtain rfl : value = value'' := by injection hk
      exact .inl (hki ▸ hbefore j value' hj)
    · exact h.disjoint j k hjk value' value'' hj hk

theorem Inv.step (hschema : g.env.schema generatorNextValue = true) (h : Inv g s M) {i : ℕ}
    (hi : s.undisturbed g i = true) : ∃ s' M', s.step g i = .ok s' ∧ Inv g s' M' := by
  rw [Clients.step]
  cases hphase : s.phase i with
  | idle =>
    obtain ⟨s', hs', h'⟩ := h.readStep hschema i
    exact ⟨s', M, hs', h'⟩
  | read value writes =>
    obtain ⟨s', hs', h'⟩ := h.prepareStep hphase
    exact ⟨s', M, hs', h'⟩
  | prepared value writes =>
    rw [undisturbed, hphase] at hi
    simp only [h.query, Bool.and_eq_true, decide_eq_true_eq] at hi
    exact h.commitStep hphase hi.1 hi.2
  | committed value => exact ⟨s, M, rfl, h⟩

end Clients

end Fastore.Hive
