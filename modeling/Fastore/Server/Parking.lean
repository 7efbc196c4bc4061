import Mathlib.Logic.Function.Basic
import Fastore.Lib.Runs
import Fastore.Lib.SortedMap
import Fastore.Server.Connection

/-!
Parked requests.

The server keeps its connections by their IDs and takes objects for new ones
from a pool of those that have been closed. A handler can park the connection
whose request it handles; somebody else posts the answer later by a request of
their own, which names the connection by its ID (`unpark`).

An object is under one ID or in the pool (`Good`), and IDs are not used twice,
so an answer gets to the connection it is for and to no other
(`Good.step_others`). What that connection sends, though, is not a frame
with the data: `transition` takes the first four bytes of its output for the
place of the length, and `unpark` has not left any (`unpark_answers_iff`).
-/

namespace Fastore.Server

open Lib List TConnection

inductive StoreStatus
  | stopped
  | processing
  | logerror
  deriving DecidableEq

inductive Call
  | getWrites
  | flush
  | start
  | suspend
  | other
  deriving DecidableEq

/-- What the processor does with a request, and the answer it writes, unless it
throws. A connection that is resumed while it reads a request has what it
has processed: then this is done `again`. -/
inductive Processing
  | call (call : Call) (reply : Option Bytes)
  | unpark (connectionId : ℤ) (data : Bytes) (again : Processing) (reply : Option Bytes)

def Processing.names : Processing → List ℤ
  | .call _ _ => []
  | .unpark connectionId _ again _ => connectionId :: again.names

/-- `TFastoreServer`, with its `StoreHandler`. The objects are numbered;
`connectionPool` has the last one first. -/
structure TFastoreServer where
  settings : Settings
  status : StoreStatus := .stopped
  idSource : ℤ := 0
  connections : ℕ → TConnection := fun _ => new
  allocated : ℕ := 0
  activeConnections : SortedMap ℤ ℕ := .empty
  connectionPool : List ℕ := []

namespace TFastoreServer

def getConnectionById (s : TFastoreServer) (connectionId : ℤ) : Option ℕ :=
  s.activeConnections.get? connectionId

def connection (s : TFastoreServer) (connectionId : ℤ) : Option TConnection :=
  (s.getConnectionById connectionId).map s.connections

def set (s : TFastoreServer) (ref : ℕ) (c : TConnection) : TFastoreServer :=
  { s with connections := Function.update s.connections ref c }

/-! ### Requests -/

def parks (s : TFastoreServer) : Call → Bool
  | .getWrites => true
  | .flush => s.status = .processing
  | .start | .suspend | .other => false

def handle (s : TFastoreServer) : Call → TFastoreServer
  | .start => { s with status := .processing }
  | .suspend => { s with status := .stopped }
  | .getWrites | .flush | .other => s

def transitionAt (ref : ℕ) (p : Processed) (s : TFastoreServer) : Except Fault TFastoreServer := do
  let c ← (s.connections ref).transition s.settings p
  .ok (s.set ref c)

/-- `StoreHandler::unpark`. A connection that is itself in the middle of a request
would begin it again, and so on. -/
def unpark (transition : ℕ → TFastoreServer → Except Fault TFastoreServer) (processing : List ℕ)
    (connectionId : ℤ) (data : Bytes) (s : TFastoreServer) : Except Fault TFastoreServer :=
  match s.getConnectionById connectionId with
  | none => .ok s
  | some conn =>
    if conn ∈ processing then .error .endless
    else transition conn (s.set conn ((s.connections conn).post data))

/-- `transition`, with what its request does to others. -/
def transition (processing : List ℕ) (ref : ℕ) :
    Processing → TFastoreServer → Except Fault TFastoreServer
  | .call call reply, s =>
    if (s.connections ref).appState = .readRequest then
      (s.handle call).transitionAt ref ⟨reply, s.parks call⟩
    else s.transitionAt ref {}
  | .unpark connectionId data again reply, s =>
    if (s.connections ref).appState = .readRequest then do
      let s ← s.unpark (fun conn s => transition (ref :: processing) conn again s)
        (ref :: processing) connectionId data
      s.transitionAt ref ⟨reply, false⟩
    else s.transitionAt ref {}

/-! ### The loop of the server -/

def polls (c : TConnection) : Bool :=
  c.tSocket.isOpen &&
    (c.appState = .readFrameSize || c.appState = .readRequest || c.appState = .sendResult)

def ready (connectionId : ℤ) (transfer : Option ℕ) (p : Processing) (s : TFastoreServer) :
    Except Fault TFastoreServer :=
  match s.getConnectionById connectionId with
  | none => .ok s
  | some ref =>
    if polls (s.connections ref) then do
      let (c, done) ← (s.connections ref).workSocket s.settings transfer
      if done then (s.set ref c).transition [] ref p else .ok (s.set ref c)
    else .ok s

def takeObject (s : TFastoreServer) : ℕ × TConnection × TFastoreServer :=
  match s.connectionPool with
  | [] => (s.allocated, new, { s with allocated := s.allocated + 1 })
  | ref :: pool => (ref, s.connections ref, { s with connectionPool := pool })

def accept (incoming : Bytes) (s : TFastoreServer) : TFastoreServer :=
  let id := s.idSource + 1
  let (ref, c, s) := s.takeObject
  { s.set ref (c.opened id incoming) with
    idSource := id
    activeConnections := s.activeConnections.insert id ref }

def erase (s : TFastoreServer) (id : ℤ) : TFastoreServer :=
  { s with activeConnections := s.activeConnections.eraseAt (s.activeConnections.rank id) }

/-- One connection of the loop in `returnConnections`. -/
def returnConnection (s : TFastoreServer) (entry : ℤ × ℕ) : TFastoreServer :=
  if (s.connections entry.2).tSocket.isOpen then s
  else if s.settings.connectionPoolLimit ≠ 0 ∧
      s.settings.connectionPoolLimit ≤ s.connectionPool.length then s.erase entry.1
  else
    { (s.erase entry.1).set entry.2 ((s.connections entry.2).checkIdleBufferMemLimit
        s.settings.idleReadBufferLimit s.settings.idleWriteBufferLimit) with
      connectionPool := entry.2 :: s.connectionPool }

def returnConnections (s : TFastoreServer) : TFastoreServer :=
  s.activeConnections.entries.foldl returnConnection s

end TFastoreServer

inductive Event
  | accept (incoming : Bytes)
  | ready (connectionId : ℤ) (transfer : Option ℕ) (p : Processing)
  | returnConnections

def Event.names : Event → List ℤ
  | .accept _ => []
  | .ready connectionId _ p => connectionId :: p.names
  | .returnConnections => []

def TFastoreServer.step (s : TFastoreServer) : Event → Except Fault TFastoreServer
  | .accept incoming => .ok (s.accept incoming)
  | .ready connectionId transfer p => s.ready connectionId transfer p
  | .returnConnections => .ok s.returnConnections

/-! ### What stays -/

/-- The tables of the server are as they were, and every object has its ID. -/
structure TFastoreServer.SameTables (s s' : TFastoreServer) : Prop where
  settings : s'.settings = s.settings
  idSource : s'.idSource = s.idSource
  allocated : s'.allocated = s.allocated
  activeConnections : s'.activeConnections = s.activeConnections
  connectionPool : s'.connectionPool = s.connectionPool
  identity : ∀ ref, (s'.connections ref).id = (s.connections ref).id

namespace TFastoreServer

variable {s s' s₁ s₂ : TFastoreServer} {ref : ℕ} {c : TConnection}

theorem SameTables.refl (s : TFastoreServer) : s.SameTables s :=
  ⟨rfl, rfl, rfl, rfl, rfl, fun _ => rfl⟩

theorem SameTables.trans (h : s.SameTables s₁) (h' : s₁.SameTables s₂) : s.SameTables s₂ where
  settings := h'.settings.trans h.settings
  idSource := h'.idSource.trans h.idSource
  allocated := h'.allocated.trans h.allocated
  activeConnections := h'.activeConnections.trans h.activeConnections
  connectionPool := h'.connectionPool.trans h.connectionPool
  identity := fun ref => (h'.identity ref).trans (h.identity ref)

theorem SameTables.getConnectionById (h : s.SameTables s') (connectionId : ℤ) :
    s'.getConnectionById connectionId = s.getConnectionById connectionId := by
  rw [TFastoreServer.getConnectionById, h.activeConnections, TFastoreServer.getConnectionById]

@[simp] theorem set_connections_self (s : TFastoreServer) (ref : ℕ) (c : TConnection) :
    (s.set ref c).connections ref = c := Function.update_self ..

theorem set_connections_of_ne (s : TFastoreServer) (c : TConnection) {r : ℕ} (h : r ≠ ref) :
    (s.set ref c).connections r = s.connections r := Function.update_of_ne h ..

theorem set_sameTables (h : c.id = (s.connections ref).id) : s.SameTables (s.set ref c) := by
  refine ⟨rfl, rfl, rfl, rfl, rfl, fun r => ?_⟩
  by_cases hr : r = ref
  · subst hr
    rw [set_connections_self, h]
  · rw [set_connections_of_ne s c hr]

theorem handle_sameTables (s : TFastoreServer) (call : Call) : s.SameTables (s.handle call) := by
  cases call <;> exact ⟨rfl, rfl, rfl, rfl, rfl, fun _ => rfl⟩

theorem handle_connections (s : TFastoreServer) (call : Call) :
    (s.handle call).connections = s.connections := by
  cases call <;> rfl

end TFastoreServer

theorem TConnection.appReadRequest_id (p : Processed) (c : TConnection) :
    (c.appReadRequest p).id = c.id := by
  rw [appReadRequest]
  split_ifs
  · rfl
  · rfl
  · exact (c.processed p).appParked_kept.identity

theorem TConnection.transition_id {server : Settings} {p : Processed} {c c' : TConnection}
    (h : c.transition server p = .ok c') : c'.id = c.id := by
  rw [transition] at h
  split at h
  · rw [← Except.ok.inj h]
    exact c.appReadRequest_id p
  · rw [← Except.ok.inj h]
    exact c.appParked_kept.identity
  · obtain ⟨c₁, heq, hkept⟩ := c.appSendResult_eq server
    rw [← Except.ok.inj h, heq]
    exact hkept.identity
  · rw [← Except.ok.inj h]
    rfl
  · rw [appReadFrameSize] at h
    split at h
    · cases h
    · rw [← Except.ok.inj h]

theorem TConnection.workSocket_spec {server : Settings} {transfer : Option ℕ} {c c' : TConnection}
    {done : Bool} (h : c.workSocket server transfer = .ok (c', done)) :
    c'.id = c.id ∧ c'.appState = c.appState := by
  rw [workSocket] at h
  split at h
  · have h := Except.ok.inj h
    cases transfer with
    | none =>
      obtain ⟨rfl, -⟩ := Prod.mk.inj h
      exact ⟨rfl, rfl⟩
    | some k =>
      simp only [socketRecvFraming] at h
      split_ifs at h
      all_goals
        obtain ⟨rfl, -⟩ := Prod.mk.inj h
        exact ⟨rfl, rfl⟩
  · cases transfer with
    | none =>
      simp only [socketRecv] at h
      split_ifs at h
      obtain ⟨rfl, -⟩ := Prod.mk.inj (Except.ok.inj h)
      exact ⟨rfl, rfl⟩
    | some k =>
      simp only [socketRecv] at h
      split_ifs at h
      all_goals
        obtain ⟨rfl, -⟩ := Prod.mk.inj (Except.ok.inj h)
        exact ⟨rfl, rfl⟩
  · cases transfer with
    | none =>
      simp only [socketSend] at h
      split_ifs at h
      all_goals
        obtain ⟨rfl, -⟩ := Prod.mk.inj (Except.ok.inj h)
        exact ⟨rfl, rfl⟩
    | some k =>
      simp only [socketSend] at h
      split_ifs at h
      all_goals
        obtain ⟨rfl, -⟩ := Prod.mk.inj (Except.ok.inj h)
        exact ⟨rfl, rfl⟩

namespace TFastoreServer

variable {s s' s₁ s₂ : TFastoreServer} {ref : ℕ} {c : TConnection} {p : Processing}

theorem transitionAt_spec {processed : Processed} (h : s.transitionAt ref processed = .ok s') :
    s.SameTables s' ∧ ∀ r, r ≠ ref → s'.connections r = s.connections r := by
  rw [transitionAt] at h
  obtain ⟨c, hc, rfl⟩ := eq_ok_of_map h
  exact ⟨set_sameTables (transition_id hc), fun r hr => set_connections_of_ne s c hr⟩

/-- **A transition** is about its connection and those whose IDs are named. -/
theorem transition_spec {processing : List ℕ} (h : s.transition processing ref p = .ok s') :
    s.SameTables s' ∧ ∀ r, r ≠ ref → (∀ id ∈ p.names, s.getConnectionById id ≠ some r) →
      s'.connections r = s.connections r := by
  induction p generalizing s s' ref processing with
  | call call reply =>
    rw [transition] at h
    split_ifs at h
    · obtain ⟨hsame, hothers⟩ := transitionAt_spec h
      refine ⟨(s.handle_sameTables call).trans hsame, fun r hr _ => ?_⟩
      rw [hothers r hr, handle_connections]
    · obtain ⟨hsame, hothers⟩ := transitionAt_spec h
      exact ⟨hsame, fun r hr _ => hothers r hr⟩
  | unpark connectionId data again reply ih =>
    rw [transition] at h
    split_ifs at h
    · obtain ⟨s₁, hunpark, h⟩ := eq_ok_of_bind h
      obtain ⟨hsame, hothers⟩ := transitionAt_spec h
      rw [unpark] at hunpark
      cases hconn : s.getConnectionById connectionId with
      | none =>
        rw [hconn] at hunpark
        obtain rfl := Except.ok.inj hunpark
        exact ⟨hsame, fun r hr _ => hothers r hr⟩
      | some conn =>
        simp only [hconn] at hunpark
        split_ifs at hunpark
        obtain ⟨hsame₁, hothers₁⟩ := ih hunpark
        have hpost : s.SameTables (s.set conn ((s.connections conn).post data)) :=
          set_sameTables rfl
        refine ⟨(hpost.trans hsame₁).trans hsame, fun r hr hnames => ?_⟩
        have hr' : r ≠ conn := by
          rintro rfl
          exact hnames connectionId mem_cons_self hconn
        rw [hothers r hr, hothers₁ r hr' fun id hid => ?_, set_connections_of_ne s _ hr']
        rw [hpost.getConnectionById]
        exact hnames id (mem_cons_of_mem _ hid)
    · obtain ⟨hsame, hothers⟩ := transitionAt_spec h
      exact ⟨hsame, fun r hr _ => hothers r hr⟩

/-- **A connection is ready**: that is about it and those whose IDs are named. -/
theorem ready_spec {connectionId : ℤ} {transfer : Option ℕ}
    (h : s.ready connectionId transfer p = .ok s') :
    s.SameTables s' ∧ ∀ r, (∀ id ∈ connectionId :: p.names, s.getConnectionById id ≠ some r) →
      s'.connections r = s.connections r := by
  rw [ready] at h
  split at h
  · obtain rfl := Except.ok.inj h
    exact ⟨.refl s, fun r _ => rfl⟩
  · rename_i ref href
    split_ifs at h
    · obtain ⟨⟨c, done⟩, hwork, h⟩ := eq_ok_of_bind h
      have hset : s.SameTables (s.set ref c) := set_sameTables (workSocket_spec hwork).1
      have hne : ∀ r, (∀ id ∈ connectionId :: p.names, s.getConnectionById id ≠ some r) →
          r ≠ ref := by
        rintro r hnames rfl
        exact hnames connectionId mem_cons_self href
      cases done with
      | true =>
        obtain ⟨hsame, hothers⟩ := transition_spec h
        refine ⟨hset.trans hsame, fun r hnames => ?_⟩
        rw [hothers r (hne r hnames) fun id hid => ?_, set_connections_of_ne s c (hne r hnames)]
        rw [hset.getConnectionById]
        exact hnames id (mem_cons_of_mem _ hid)
      | false =>
        obtain rfl := Except.ok.inj h
        exact ⟨hset, fun r hnames => set_connections_of_ne s c (hne r hnames)⟩
    · obtain rfl := Except.ok.inj h
      exact ⟨.refl s, fun r _ => rfl⟩

/-! ### Objects and IDs -/

/-- An object is under one ID, which is its own, or in the pool; IDs are not
ahead of their source. -/
structure Good (s : TFastoreServer) : Prop where
  identity : ∀ id ref, s.getConnectionById id = some ref → (s.connections ref).id = id
  assigned : ∀ id ref, s.getConnectionById id = some ref → id ≤ s.idSource
  pool : s.connectionPool.Nodup
  apart : ∀ id ref, s.getConnectionById id = some ref → ref ∉ s.connectionPool
  active : ∀ id ref, s.getConnectionById id = some ref → ref < s.allocated
  pooled : ∀ ref ∈ s.connectionPool, ref < s.allocated

theorem Good.ids_eq (h : s.Good) {id id' : ℤ} (hid : s.getConnectionById id = some ref)
    (hid' : s.getConnectionById id' = some ref) : id = id' :=
  (h.identity id ref hid).symm.trans (h.identity id' ref hid')

theorem good_new (settings : Settings) : ({ settings := settings } : TFastoreServer).Good where
  identity := fun _ _ h => nomatch h
  assigned := fun _ _ h => nomatch h
  pool := nodup_nil
  apart := fun _ _ h => nomatch h
  active := fun _ _ h => nomatch h
  pooled := by simp

theorem Good.of_sameTables (h : s.Good) (hsame : s.SameTables s') : s'.Good := by
  have hget := hsame.getConnectionById
  refine ⟨fun id ref hid => ?_, fun id ref hid => ?_, ?_, fun id ref hid => ?_,
    fun id ref hid => ?_, fun ref hmem => ?_⟩
  · rw [hsame.identity]
    exact h.identity id ref (hget id ▸ hid)
  · rw [hsame.idSource]
    exact h.assigned id ref (hget id ▸ hid)
  · rw [hsame.connectionPool]
    exact h.pool
  · rw [hsame.connectionPool]
    exact h.apart id ref (hget id ▸ hid)
  · rw [hsame.allocated]
    exact h.active id ref (hget id ▸ hid)
  · rw [hsame.allocated]
    exact h.pooled ref (hsame.connectionPool ▸ hmem)

/-- What a server keeps while it takes connections in and out: its settings,
the connections that are open, and no ID comes twice. -/
structure Turns (s s' : TFastoreServer) : Prop where
  settings : s'.settings = s.settings
  later : s.idSource ≤ s'.idSource
  old : ∀ id ref, id ≤ s.idSource → s'.getConnectionById id = some ref →
    s.getConnectionById id = some ref
  kept : ∀ id ref, s.getConnectionById id = some ref →
    (s.connections ref).tSocket.isOpen = true →
    s'.getConnectionById id = some ref ∧ s'.connections ref = s.connections ref

theorem Turns.refl (s : TFastoreServer) : s.Turns s :=
  ⟨rfl, le_refl _, fun _ _ _ h => h, fun _ _ h _ => ⟨h, rfl⟩⟩

theorem Turns.trans (h : s.Turns s₁) (h' : s₁.Turns s₂) : s.Turns s₂ where
  settings := h'.settings.trans h.settings
  later := h.later.trans h'.later
  old := fun id ref hid hget => h.old id ref hid (h'.old id ref (hid.trans h.later) hget)
  kept := fun id ref hget hopen => by
    obtain ⟨hget₁, hsame₁⟩ := h.kept id ref hget hopen
    obtain ⟨hget₂, hsame₂⟩ := h'.kept id ref hget₁ (hsame₁ ▸ hopen)
    exact ⟨hget₂, hsame₂.trans hsame₁⟩

theorem Good.takeObject (h : s.Good) :
    (∀ id, s.getConnectionById id ≠ some s.takeObject.1) ∧
      s.takeObject.2.2.Good ∧ s.takeObject.1 ∉ s.takeObject.2.2.connectionPool ∧
      s.takeObject.1 < s.takeObject.2.2.allocated ∧
      s.takeObject.2.2.settings = s.settings ∧ s.takeObject.2.2.idSource = s.idSource ∧
      s.takeObject.2.2.activeConnections = s.activeConnections ∧
      s.takeObject.2.2.connections = s.connections := by
  unfold TFastoreServer.takeObject
  split
  · rename_i hpool
    refine ⟨fun id hid => Nat.lt_irrefl _ (h.active id _ hid), ?_, by simp [hpool], by simp, rfl,
      rfl, rfl, rfl⟩
    exact ⟨h.identity, h.assigned, h.pool, h.apart,
      fun id ref hid => Nat.lt_succ_of_lt (h.active id ref hid),
      fun ref hmem => Nat.lt_succ_of_lt (h.pooled ref hmem)⟩
  · rename_i ref pool hpool
    have hnodup := h.pool
    rw [hpool, nodup_cons] at hnodup
    refine ⟨fun id hid => h.apart id ref hid (by simp [hpool]), ?_, hnodup.1,
      h.pooled ref (by simp [hpool]), rfl, rfl, rfl, rfl⟩
    refine ⟨h.identity, h.assigned, hnodup.2, fun id r hid hmem => ?_, h.active, fun r hmem => ?_⟩
    · exact h.apart id r hid (by rw [hpool]; exact mem_cons_of_mem _ hmem)
    · exact h.pooled r (by rw [hpool]; exact mem_cons_of_mem _ hmem)

/-- A connection that is accepted gets an ID of its own. -/
theorem Good.accept (h : s.Good) (incoming : Bytes) :
    (s.accept incoming).Good ∧ s.Turns (s.accept incoming) := by
  obtain ⟨hfree, hgood, hpool, hallocated, hsettings, hsource, hactive, hconnections⟩ := h.takeObject
  rw [TFastoreServer.accept]
  generalize s.takeObject = taken at *
  obtain ⟨ref, c, t⟩ := taken
  simp only at *
  have hget : ∀ id, t.getConnectionById id = s.getConnectionById id := fun id => by
    rw [TFastoreServer.getConnectionById, hactive, TFastoreServer.getConnectionById]
  have hnew : ∀ id r, (t.activeConnections.insert (s.idSource + 1) ref).get? id = some r →
      id = s.idSource + 1 ∧ r = ref ∨ s.getConnectionById id = some r ∧ r ≠ ref := by
    intro id r hid
    rw [SortedMap.get?_insert] at hid
    split_ifs at hid with heq
    · exact .inl ⟨heq, (Option.some.inj hid).symm⟩
    · have hid : s.getConnectionById id = some r := hget id ▸ hid
      refine .inr ⟨hid, ?_⟩
      rintro rfl
      exact hfree id hid
  constructor
  · refine ⟨fun id r hid => ?_, fun id r hid => ?_, hgood.pool, fun id r hid => ?_,
      fun id r hid => ?_, hgood.pooled⟩
    · rcases hnew id r hid with ⟨rfl, rfl⟩ | ⟨hid, hne⟩
      · exact congrArg TConnection.id (t.set_connections_self r (c.opened (s.idSource + 1) incoming))
      · exact (congrArg TConnection.id (t.set_connections_of_ne _ hne)).trans
          (hgood.identity id r (hget id ▸ hid))
    · rcases hnew id r hid with ⟨rfl, rfl⟩ | ⟨hid, -⟩
      · exact le_refl _
      · exact (h.assigned id r hid).trans (Int.le_add_one (le_refl _))
    · rcases hnew id r hid with ⟨rfl, rfl⟩ | ⟨hid, -⟩
      · exact hpool
      · exact hgood.apart id r (hget id ▸ hid)
    · rcases hnew id r hid with ⟨rfl, rfl⟩ | ⟨hid, -⟩
      · exact hallocated
      · exact hgood.active id r (hget id ▸ hid)
  · refine ⟨hsettings, Int.le_add_one (le_refl _), fun id r hle hid => ?_, fun id r hid _ => ?_⟩
    · rcases hnew id r hid with ⟨rfl, -⟩ | ⟨hid, -⟩
      · omega
      · exact hid
    · have hne : id ≠ s.idSource + 1 := by
        have := h.assigned id r hid
        omega
      have hr : r ≠ ref := by
        rintro rfl
        exact hfree id hid
      refine ⟨?_, ?_⟩
      · change (t.activeConnections.insert (s.idSource + 1) ref).get? id = some r
        rw [SortedMap.get?_insert, if_neg hne, hactive]
        exact hid
      · exact (t.set_connections_of_ne _ hr).trans (congrFun hconnections r)

/-- A connection that is returned is gone. -/
theorem Good.returnConnection (h : s.Good) {entry : ℤ × ℕ}
    (hentry : s.getConnectionById entry.1 = some entry.2) :
    (s.returnConnection entry).Good ∧ s.Turns (s.returnConnection entry) ∧
      ∀ id, id ≠ entry.1 →
        (s.returnConnection entry).getConnectionById id = s.getConnectionById id := by
  have herase : ∀ id, (s.erase entry.1).getConnectionById id =
      if id = entry.1 then none else s.getConnectionById id :=
    fun id => SortedMap.get?_eraseAt_rank hentry
  have hold : ∀ id r, (s.erase entry.1).getConnectionById id = some r →
      s.getConnectionById id = some r ∧ r ≠ entry.2 := by
    intro id r hid
    rw [herase] at hid
    split_ifs at hid with heq
    refine ⟨hid, ?_⟩
    rintro rfl
    exact heq (h.ids_eq hid hentry)
  have hgood : (s.erase entry.1).Good :=
    ⟨fun id r hid => h.identity id r (hold id r hid).1,
      fun id r hid => h.assigned id r (hold id r hid).1, h.pool,
      fun id r hid => h.apart id r (hold id r hid).1,
      fun id r hid => h.active id r (hold id r hid).1, h.pooled⟩
  unfold TFastoreServer.returnConnection
  by_cases hopen : (s.connections entry.2).tSocket.isOpen = true
  · rw [if_pos hopen]
    exact ⟨h, .refl s, fun _ _ => rfl⟩
  · have hkept : ∀ id r, s.getConnectionById id = some r →
        (s.connections r).tSocket.isOpen = true →
        (s.erase entry.1).getConnectionById id = some r ∧ r ≠ entry.2 := by
      intro id r hid hr
      have hne : r ≠ entry.2 := by
        rintro rfl
        exact hopen hr
      have hid' : id ≠ entry.1 := by
        rintro rfl
        exact hne (some_unique hid hentry)
      exact ⟨by rw [herase, if_neg hid', hid], hne⟩
    rw [if_neg hopen]
    split_ifs
    · exact ⟨hgood, ⟨rfl, le_refl _, fun id r _ hid => (hold id r hid).1,
        fun id r hid hr => ⟨(hkept id r hid hr).1, rfl⟩⟩, fun id hid => by rw [herase, if_neg hid]⟩
    · obtain ⟨c, hc⟩ : ∃ c, (s.connections entry.2).checkIdleBufferMemLimit
          s.settings.idleReadBufferLimit s.settings.idleWriteBufferLimit = c := ⟨_, rfl⟩
      rw [hc]
      have hsame : ∀ r, r ≠ entry.2 →
          ((s.erase entry.1).set entry.2 c).connections r = s.connections r :=
        fun r hr => set_connections_of_ne _ c hr
      refine ⟨⟨fun id r hid => ?_, hgood.assigned, ?_, fun id r hid => ?_, hgood.active, ?_⟩,
        ⟨rfl, le_refl _, fun id r _ hid => (hold id r hid).1, fun id r hid hr => ?_⟩,
        fun id hid => ?_⟩
      · obtain ⟨hid, hne⟩ := hold id r hid
        exact (congrArg TConnection.id (hsame r hne)).trans (h.identity id r hid)
      · exact nodup_cons.mpr ⟨h.apart _ _ hentry, h.pool⟩
      · obtain ⟨hid, hne⟩ := hold id r hid
        exact not_mem_cons_of_ne_of_not_mem hne (h.apart id r hid)
      · exact forall_mem_cons.mpr ⟨h.active _ _ hentry, h.pooled⟩
      · obtain ⟨hid', hne⟩ := hkept id r hid hr
        exact ⟨hid', hsame r hne⟩
      · exact (herase id).trans (if_neg hid)

theorem Good.returnConnections (h : s.Good) :
    s.returnConnections.Good ∧ s.Turns s.returnConnections := by
  -- the connections of the loop that are still to come are in the map
  suffices hall : ∀ (todo : List (ℤ × ℕ)) (t : TFastoreServer), t.Good →
      (todo.map Prod.fst).Nodup → (∀ e ∈ todo, t.getConnectionById e.1 = some e.2) →
      (todo.foldl TFastoreServer.returnConnection t).Good ∧
        t.Turns (todo.foldl TFastoreServer.returnConnection t) by
    refine hall s.activeConnections.entries s h s.activeConnections.keys_nodup fun e he => ?_
    exact SortedMap.get?_eq_some.mpr he
  intro todo
  induction todo with
  | nil => exact fun t ht _ _ => ⟨ht, .refl t⟩
  | cons e todo ih =>
    intro t ht hnodup hmem
    rw [map_cons, nodup_cons] at hnodup
    obtain ⟨hgood, hturns, hget⟩ := ht.returnConnection (hmem e mem_cons_self)
    obtain ⟨hgood', hturns'⟩ := ih (t.returnConnection e) hgood hnodup.2 fun e' he' => by
      rw [hget e'.1, hmem e' (mem_cons_of_mem _ he')]
      intro heq
      exact hnodup.1 (heq ▸ mem_map_of_mem he')
    exact ⟨hgood', hturns.trans hturns'⟩

/-! ### Steps and runs -/

theorem Good.step {e : Event} (h : s.Good) (hstep : s.step e = .ok s') : s'.Good := by
  cases e with
  | accept incoming =>
    obtain rfl := Except.ok.inj hstep
    exact (h.accept incoming).1
  | ready connectionId transfer p => exact h.of_sameTables (ready_spec hstep).1
  | returnConnections =>
    obtain rfl := Except.ok.inj hstep
    exact h.returnConnections.1

/-- **The other connections**: an event leaves a connection as it is that is
open and that it does not name. -/
theorem Good.step_others (h : s.Good) {e : Event} {id : ℤ} (hstep : s.step e = .ok s')
    (hc : s.connection id = some c) (hopen : c.tSocket.isOpen = true) (hnames : id ∉ e.names) :
    s'.connection id = some c := by
  obtain ⟨ref, href, rfl⟩ := Option.map_eq_some_iff.mp hc
  have hturns : s.Turns s' → s'.connection id = some (s.connections ref) := by
    intro hturns
    obtain ⟨hget, hsame⟩ := hturns.kept id ref href hopen
    rw [TFastoreServer.connection, hget, Option.map_some, hsame]
  cases e with
  | accept incoming =>
    obtain rfl := Except.ok.inj hstep
    exact hturns (h.accept incoming).2
  | ready connectionId transfer p =>
    obtain ⟨hsame, hothers⟩ := ready_spec hstep
    rw [TFastoreServer.connection, hsame.getConnectionById, href, Option.map_some,
      hothers ref fun id' hid' hget => ?_]
    rw [h.ids_eq href hget] at hnames
    exact hnames hid'
  | returnConnections =>
    obtain rfl := Except.ok.inj hstep
    exact hturns h.returnConnections.2

/-- **IDs are not used again.** -/
theorem Good.step_gone (h : s.Good) {e : Event} {id : ℤ} (hstep : s.step e = .ok s')
    (hid : id ≤ s.idSource) (hgone : s.connection id = none) :
    id ≤ s'.idSource ∧ s'.connection id = none := by
  have hnone : s.getConnectionById id = none := Option.map_eq_none_iff.mp hgone
  have hturns : s.Turns s' → id ≤ s'.idSource ∧ s'.connection id = none := by
    intro hturns
    refine ⟨hid.trans hturns.later, Option.map_eq_none_iff.mpr ?_⟩
    cases hget : s'.getConnectionById id with
    | none => rfl
    | some ref => exact absurd (hnone.symm.trans (hturns.old id ref hid hget)) (by simp)
  cases e with
  | accept incoming =>
    obtain rfl := Except.ok.inj hstep
    exact hturns (h.accept incoming).2
  | ready connectionId transfer p =>
    obtain ⟨hsame, -⟩ := ready_spec hstep
    exact ⟨hsame.idSource ▸ hid,
      by rw [TFastoreServer.connection, hsame.getConnectionById, hnone, Option.map_none]⟩
  | returnConnections =>
    obtain rfl := Except.ok.inj hstep
    exact hturns h.returnConnections.2

end TFastoreServer

/-! ### Answers -/

def TConnection.sends (server : Settings) (ks : List ℕ) (c : TConnection) :
    Except Fault TConnection :=
  ks.foldlM (fun c k => if c.appState = .sendResult then c.work server (some k) {} else .ok c) c

/-- **The connection answers**: what it sends next is one frame with the
payload, in whatever pieces, and then it reads the next request. -/
def TConnection.Answers (server : Settings) (c : TConnection) (payload : Bytes) : Prop :=
  ∀ ks : List ℕ, ∃ c', c.sends server ks = .ok c' ∧
    c'.tSocket.sent = c.tSocket.sent ++ (frame payload).take ks.sum ∧
    (ks.sum < (frame payload).length → c'.appState = .sendResult) ∧
    ((frame payload).length ≤ ks.sum → c'.Awaits [])

section Answers

variable {server : Settings} {c : TConnection}

theorem TConnection.sends_of_awaits (h : c.Awaits []) (ks : List ℕ) :
    c.sends server ks = .ok c := by
  induction ks with
  | nil => rfl
  | cons k ks ih =>
    rw [sends, foldlM_cons, if_neg (by rw [h.appState]; simp)]
    exact ih

/-- What is sent is the buffer, in pieces. -/
theorem TConnection.sends_spec (hopen : c.tSocket.isOpen = true) (hsocket : c.socketState = .send)
    (hstate : c.appState = .sendResult) (hlt : c.writeBufferPos < c.writeBuffer.length)
    (ks : List ℕ) :
    ∃ c', c.sends server ks = .ok c' ∧ c'.tSocket.sent =
        c.tSocket.sent ++ (c.writeBuffer.drop c.writeBufferPos).take ks.sum ∧
      (ks.sum < c.writeBuffer.length - c.writeBufferPos → c'.appState = .sendResult) ∧
      (c.writeBuffer.length - c.writeBufferPos ≤ ks.sum → c'.Awaits []) := by
  induction ks generalizing c with
  | nil =>
    refine ⟨c, rfl, by simp, fun _ => hstate, fun hle => ?_⟩
    rw [sum_nil] at hle
    omega
  | cons k ks ih =>
    rw [sends, foldlM_cons, if_pos hstate,
      work_send hsocket hstate (by omega), sum_cons]
    by_cases hend : c.writeBuffer.length ≤ c.writeBufferPos + k
    · -- the rest goes at once
      rw [if_pos hend]
      obtain ⟨c₁, hwrote⟩ : ∃ c₁, c.wrote (c.writeBuffer.drop c.writeBufferPos) = c₁ := ⟨_, rfl⟩
      obtain ⟨hawaits, hkept⟩ :=
        appSendResult_awaits (c := c₁) server (hwrote ▸ hopen)
      rw [hwrote]
      refine ⟨c₁.appSendResult server, sends_of_awaits hawaits ks, ?_, fun hlt => ?_,
        fun _ => hawaits⟩
      · rw [hkept.tSocket, ← hwrote, take_of_length_le (by rw [length_drop]; omega)]
        rfl
      · omega
    · rw [if_neg hend]
      have hpos : (c.wrote ((c.writeBuffer.drop c.writeBufferPos).take k)).writeBufferPos =
          c.writeBufferPos + k := by
        change c.writeBufferPos + ((c.writeBuffer.drop c.writeBufferPos).take k).length = _
        rw [length_take, length_drop]
        omega
      obtain ⟨c', hsends, hsent, hmore, hdone⟩ := ih
        (c := c.wrote ((c.writeBuffer.drop c.writeBufferPos).take k)) hopen hsocket hstate
        (by rw [hpos]; exact Nat.lt_of_not_le hend)
      rw [hpos] at hsent hmore hdone
      refine ⟨c', hsends, ?_, fun hlt => hmore ?_, fun hle => hdone ?_⟩
      · rw [hsent, wrote, take_add, drop_drop, append_assoc]
      · change ks.sum < c.writeBuffer.length - (c.writeBufferPos + k)
        omega
      · change c.writeBuffer.length - (c.writeBufferPos + k) ≤ ks.sum
        omega

theorem frame_injective {a b : Bytes} (h : frame a = frame b) : a = b := by
  have hdrop := congrArg (List.drop 4) h
  exact hdrop

theorem TConnection.answers_iff_of_frame (hopen : c.tSocket.isOpen = true)
    (hsocket : c.socketState = .send) (hstate : c.appState = .sendResult)
    (hpos : c.writeBufferPos = 0) {body : Bytes} (hbuffer : c.writeBuffer = frame body)
    (payload : Bytes) : c.Answers server payload ↔ payload = body := by
  have hsends : ∀ ks : List ℕ, ∃ c', c.sends server ks = .ok c' ∧
      c'.tSocket.sent = c.tSocket.sent ++ (frame body).take ks.sum ∧
      (ks.sum < (frame body).length → c'.appState = .sendResult) ∧
      ((frame body).length ≤ ks.sum → c'.Awaits []) := by
    intro ks
    have hlt : c.writeBufferPos < c.writeBuffer.length := by
      rw [hpos, hbuffer, frame, length_append, length_be32]
      omega
    have h : ∃ c', c.sends server ks = .ok c' ∧ _ :=
      sends_spec hopen hsocket hstate hlt ks
    rw [hpos, hbuffer, drop_zero, Nat.sub_zero] at h
    exact h
  constructor
  · intro h
    obtain ⟨c', hc', hsent, -⟩ := h [(frame payload).length + (frame body).length]
    obtain ⟨c'', hc'', hsent', -⟩ := hsends [(frame payload).length + (frame body).length]
    obtain rfl := ok_unique hc' hc''
    have heq := append_cancel_left (hsent.symm.trans hsent')
    rw [sum_singleton, take_of_length_le (by omega),
      take_of_length_le (by omega)] at heq
    exact frame_injective heq
  · rintro rfl
    exact hsends

/-- **What a parked connection answers**: what is behind the first four bytes of
its output, if there is anything. -/
theorem TConnection.appParked_answers_iff (hopen : c.tSocket.isOpen = true) (payload : Bytes) :
    c.appParked.Answers server payload ↔
      ∃ reserved : Bytes, reserved.length = 4 ∧ payload ≠ [] ∧
        c.outputTransport = reserved ++ payload := by
  rw [appParked]
  split_ifs with hlength
  · have hframe : be32 (c.outputTransport.length - 4) ++ c.outputTransport.drop 4 =
        frame (c.outputTransport.drop 4) := by
      rw [frame, length_drop]
    rw [answers_iff_of_frame (c := c.sendOutput) hopen rfl rfl rfl hframe]
    constructor
    · rintro rfl
      refine ⟨c.outputTransport.take 4, ?_, ?_, (take_append_drop ..).symm⟩
      · rw [length_take]
        omega
      · rw [← length_pos_iff, length_drop]
        omega
    · rintro ⟨reserved, hreserved, -, heq⟩
      rw [heq, ← hreserved, drop_left]
  · constructor
    · intro h
      -- before anything is sent the connection would have to be sending
      obtain ⟨c', hc', -, hstate, -⟩ := h []
      obtain rfl := Except.ok.inj hc'
      have hpos : 0 < (frame payload).length := by
        rw [frame, length_append, length_be32]
        omega
      exact absurd (hstate hpos) (by simp [appInit])
    · rintro ⟨reserved, hreserved, hne, heq⟩
      have hpos := length_pos_iff.mpr hne
      rw [heq, length_append] at hlength
      omega

end Answers

namespace TFastoreServer

/-- Bytes with which the request of a connection is complete. -/
def Completes (s : TFastoreServer) (caller : ℤ) (k : ℕ) : Prop :=
  ∃ ref c, s.getConnectionById caller = some ref ∧ (s.connections ref).tSocket.isOpen = true ∧
    (s.connections ref).appState = .readRequest ∧
    (s.connections ref).workSocket s.settings (some k) = .ok (c, true)

theorem transition_of_ne {s : TFastoreServer} {processing : List ℕ} {ref : ℕ}
    (h : (s.connections ref).appState ≠ .readRequest) (p : Processing) :
    s.transition processing ref p = s.transitionAt ref {} := by
  cases p with
  | call call reply => rw [transition, if_neg h]
  | unpark connectionId data again reply => rw [transition, if_neg h]

/-- **An answer is posted** to a connection that is parked. -/
theorem ready_unpark {s : TFastoreServer} {id caller : ℤ} {c : TConnection} {k : ℕ}
    (hc : s.connection id = some c) (hparked : c.appState = .parked) (hcall : s.Completes caller k)
    (data : Bytes) (again : Processing) (reply : Option Bytes) :
    ∃ s', s.ready caller (some k) (.unpark id data again reply) = .ok s' ∧
      s'.connection id = some (c.post data).appParked ∧
      s'.activeConnections = s.activeConnections ∧
      ∀ r, s.getConnectionById id ≠ some r → s.getConnectionById caller ≠ some r →
        s'.connections r = s.connections r := by
  obtain ⟨conn, hconn, rfl⟩ := Option.map_eq_some_iff.mp hc
  obtain ⟨ref, c₀, href, hopen, hstate, hwork⟩ := hcall
  obtain ⟨-, hstate₀⟩ := TConnection.workSocket_spec hwork
  rw [hstate] at hstate₀
  have hne : conn ≠ ref := by
    rintro rfl
    simp [hstate] at hparked
  have hpolls : polls (s.connections ref) = true := by
    simp [polls, hopen, hstate]
  -- the request of the caller, up to the transition of the parked connection
  obtain ⟨s₁, hs₁⟩ : ∃ s₁, (s.set ref c₀).set conn ((s.connections conn).post data) = s₁ :=
    ⟨_, rfl⟩
  have hconn₁ : s₁.connections conn = (s.connections conn).post data := by
    rw [← hs₁, set_connections_self]
  have hparked₁ : (s₁.connections conn).appState = .parked := hconn₁ ▸ hparked
  have hunpark : (s.set ref c₀).unpark
      (fun conn s => transition [ref] conn again s) [ref] id data =
      .ok (s₁.set conn ((s.connections conn).post data).appParked) := by
    have hget : (s.set ref c₀).getConnectionById id = some conn := hconn
    rw [unpark, hget]
    simp only [mem_singleton, if_neg hne, set_connections_of_ne s c₀ hne, hs₁]
    rw [transition_of_ne (by simp [hparked₁]), transitionAt, hconn₁,
      TConnection.transition, ← hconn₁, hparked₁]
    rfl
  obtain ⟨s₂, hs₂⟩ : ∃ s₂, s₁.set conn ((s.connections conn).post data).appParked = s₂ := ⟨_, rfl⟩
  have hc₂ : s₂.connections ref = c₀ := by
    rw [← hs₂, set_connections_of_ne _ _ hne.symm, ← hs₁,
      set_connections_of_ne _ _ hne.symm, set_connections_self]
  refine ⟨s₂.set ref (c₀.appReadRequest ⟨reply, false⟩), ?_, ?_, ?_, fun r hid hcaller => ?_⟩
  · have hstate₁ : ((s.set ref c₀).connections ref).appState = .readRequest := by
      rw [set_connections_self, hstate₀]
    rw [ready, href]
    simp only [hpolls, if_true, hwork, bind, Except.bind]
    rw [transition, if_pos hstate₁, hunpark, hs₂]
    simp only [bind, Except.bind, transitionAt, hc₂, TConnection.transition, hstate₀]
  · have hget : (s₂.set ref (c₀.appReadRequest ⟨reply, false⟩)).getConnectionById id = some conn := by
      rw [← hs₂, ← hs₁]
      exact hconn
    rw [connection, hget, Option.map_some,
      set_connections_of_ne _ _ hne, ← hs₂, set_connections_self]
  · rw [← hs₂, ← hs₁]
    rfl
  · have hr : r ≠ conn := by
      rintro rfl
      exact hid hconn
    have hr' : r ≠ ref := by
      rintro rfl
      exact hcaller href
    rw [set_connections_of_ne _ _ hr', ← hs₂,
      set_connections_of_ne _ _ hr, ← hs₁,
      set_connections_of_ne _ _ hr, set_connections_of_ne _ _ hr']

end TFastoreServer

/-- **Unparking**: in every state of the server, an event leaves the open
connections alone that it does not name, an ID that is gone does not come
back, and a connection that is parked answers the payload of what `unpark` is
given if and only if that begins with four bytes to be written over. With the
data for the payload that is never so. -/
theorem unpark_answers_iff {settings : Settings} {es : List Event} {s : TFastoreServer}
    (hrun : es.foldlM TFastoreServer.step { settings := settings } = .ok s) :
    (∀ (e : Event) (s' : TFastoreServer) (id : ℤ) (c : TConnection), s.step e = .ok s' →
      s.connection id = some c → c.tSocket.isOpen = true → id ∉ e.names →
      s'.connection id = some c) ∧
    (∀ (es' : List Event) (s' : TFastoreServer) (id : ℤ),
      es'.foldlM TFastoreServer.step s = .ok s' → id ≤ s.idSource → s.connection id = none →
      s'.connection id = none) ∧
    ∀ (id caller : ℤ) (c : TConnection) (k : ℕ) (data : Bytes) (again : Processing)
      (reply : Option Bytes), s.connection id = some c → c.tSocket.isOpen = true →
      c.appState = .parked → s.Completes caller k →
      ∃ s' c', s.step (.ready caller (some k) (.unpark id data again reply)) = .ok s' ∧
        s'.connection id = some c' ∧ c'.tSocket.sent = c.tSocket.sent ∧
        (∀ id', id' ≠ id → id' ≠ caller → s'.connection id' = s.connection id') ∧
        (∀ payload, c'.Answers s.settings payload ↔ ∃ reserved : Bytes, reserved.length = 4 ∧
          payload ≠ [] ∧ data.take (data.length % 2 ^ 32) = reserved ++ payload) ∧
        ¬ c'.Answers s.settings data := by
  have hgood : s.Good :=
    foldlM_preserves (fun s e s' hs hstep => hs.step hstep)
      (TFastoreServer.good_new settings) hrun
  refine ⟨fun e s' id c hstep hc hopen hnames => hgood.step_others hstep hc hopen hnames, ?_, ?_⟩
  · intro es' s' id hrun' hid hgone
    have hinv : s'.Good ∧ id ≤ s'.idSource ∧ s'.connection id = none :=
      foldlM_preserves
        (P := fun t : TFastoreServer => t.Good ∧ id ≤ t.idSource ∧ t.connection id = none)
        (fun t e t' ht hstep => ⟨ht.1.step hstep, ht.1.step_gone hstep ht.2.1 ht.2.2⟩)
        ⟨hgood, hid, hgone⟩ hrun'
    exact hinv.2.2
  · intro id caller c k data again reply hc hopen hparked hcall
    obtain ⟨s', hready, hc', htable, hothers⟩ :=
      TFastoreServer.ready_unpark hc hparked hcall data again reply
    have hanswers : ∀ payload, (c.post data).appParked.Answers s.settings payload ↔
        ∃ reserved : Bytes, reserved.length = 4 ∧ payload ≠ [] ∧
          data.take (data.length % 2 ^ 32) = reserved ++ payload :=
      fun payload => appParked_answers_iff (c := c.post data) hopen payload
    refine ⟨s', _, hready, hc', ?_, fun id' hne hne' => ?_, hanswers, fun h => ?_⟩
    · rw [(c.post data).appParked_kept.tSocket]
      rfl
    · have hget : ∀ id, s'.getConnectionById id = s.getConnectionById id := fun id => by
        rw [TFastoreServer.getConnectionById, htable, TFastoreServer.getConnectionById]
      rw [TFastoreServer.connection, TFastoreServer.connection, hget]
      cases hid' : s.getConnectionById id' with
      | none => rfl
      | some ref =>
        rw [Option.map_some, Option.map_some, hothers ref]
        · exact fun h => hne (hgood.ids_eq hid' h)
        · exact fun h => hne' (hgood.ids_eq hid' h)
    · obtain ⟨reserved, hreserved, -, heq⟩ := (hanswers data).mp h
      have hlength := congrArg List.length heq
      rw [length_take, length_append] at hlength
      omega

def oneParked : TFastoreServer :=
  (([.accept (frame [1]), .accept (frame [2]), .ready 1 (some 4) (.call .other none),
    .ready 1 (some 1) (.call .getWrites (some [])),
    .ready 2 (some 4) (.call .other none)] : List Event).foldlM TFastoreServer.step
      { settings := {} }).toOption.getD { settings := {} }

/-- Four bytes and one for the payload. -/
theorem unpark_answers_iff_oneParked : ∃ s' c',
    oneParked.step (.ready 2 (some 1) (.unpark 1 [0, 0, 0, 0, 9] (.call .other none) (some []))) =
      .ok s' ∧ s'.connection 1 = some c' ∧ c'.Answers {} [9] := by
  have hrun : ([.accept (frame [1]), .accept (frame [2]), .ready 1 (some 4) (.call .other none),
      .ready 1 (some 1) (.call .getWrites (some [])),
      .ready 2 (some 4) (.call .other none)] : List Event).foldlM TFastoreServer.step
        { settings := {} } = .ok oneParked := rfl
  obtain ⟨s', c', hstep, hc', -, -, hanswers, -⟩ := (unpark_answers_iff hrun).2.2 1 2 _ 1
    [0, 0, 0, 0, 9] (.call .other none) (some []) rfl rfl rfl ⟨1, _, rfl, rfl, rfl, rfl⟩
  exact ⟨s', c', hstep, hc', (hanswers [9]).mpr ⟨[0, 0, 0, 0], rfl, by simp, rfl⟩⟩

def TFastoreServer.sentAfter (s : TFastoreServer) (id : ℤ) (es : List Event) :
    Option (Bytes × AppState) := do
  let s ← (es.foldlM TFastoreServer.step s).toOption
  let c ← s.connection id
  some (c.tSocket.sent, c.appState)

/-- The data themselves are not sent: five bytes make a frame with the last one
of them, and for none, as `flush` has them, nothing is sent. -/
theorem unpark_fails :
    oneParked.sentAfter 1
      [.ready 2 (some 1) (.unpark 1 [1, 2, 3, 4, 5] (.call .other none) (some [])),
        .ready 1 (some 100) (.call .other none)] = some (be32 1 ++ [5], .readFrameSize) ∧
    oneParked.sentAfter 1 [.ready 2 (some 1) (.unpark 1 [] (.call .other none) (some []))] =
      some ([], .readFrameSize) ∧
    be32 1 ++ [5] ≠ frame [1, 2, 3, 4, 5] ∧ [] ≠ frame [] :=
  ⟨rfl, rfl, by decide, by decide⟩

end Fastore.Server
