import Fastore.Server.Parking

/-!
The array of the poll.

`run` allocates an array with a place for the listening socket and one for each
connection there may be. In every turn it sets up the places of the active
connections, by their order, and goes through them again when the poll is over.
Connections are accepted and returned behind that, so that in both loops a place
is that of the same connection.

There is not a place for each of them, though. `serverOverloaded` asks whether
there are more connections than the maximum, before it lets another one in, and
without an overload action nobody asks. So it depends on the sockets that wait
and on the connections that close whether the places are within the array
(`polls_right_iff`). The model stops at a place that is outside, where the
source would go on.
-/

namespace Fastore.Server

open Lib List TFastoreServer

inductive OverloadAction
  | noAction
  | closeOnAccept
  deriving DecidableEq, Repr

inductive PollEvents
  | nothing
  | pollIn
  | pollOut
  deriving DecidableEq, Repr

/-- `pollfd`, with the connection it has been set up for. One that is not polled has the
socket -1. -/
structure PollFd where
  connectionId : Option ℤ := none
  events : PollEvents := .nothing
  polled : Bool := false
  deriving DecidableEq, Repr

inductive PollFault
  | outOfBounds (index : ℕ)
  | otherConnection (index : ℕ)
  /-- A connection fails. -/
  | connection (fault : Fault)

/-- What comes of a poll. A connection that is ready moves some bytes and handles what it has
got then; if the listening socket is ready, sockets are accepted. -/
inductive PollResult
  | interrupted
  | failed
  | timeout
  | ready (work : ℕ → Option (Option ℕ × Processing)) (sockets : Option (List Bytes))

def PollResult.waiting : PollResult → ℕ
  | .ready _ sockets => (sockets.getD []).length
  | .interrupted | .failed | .timeout => 0

def TFastoreServer.opens (s : TFastoreServer) : ℕ :=
  s.activeConnections.entries.countP fun e => (s.connections e.2).tSocket.isOpen

/-- The server in its loop. `lowered` is the maximum times `overloadHysteresis_`. -/
structure Polling where
  server : TFastoreServer
  maxConnections : ℕ
  overloadAction : OverloadAction := .noAction
  lowered : ℕ
  overloaded : Bool := false
  fds : List PollFd

namespace Polling

def start (settings : Settings) (maxConnections : ℕ) (overloadAction : OverloadAction)
    (lowered : ℕ) : Polling where
  server := { settings := settings }
  maxConnections
  overloadAction
  lowered
  fds := (List.replicate (maxConnections + 1) ({} : PollFd)).set 0
    { events := .pollIn, polled := true }

def serverOverloaded (s : Polling) : Polling :=
  if s.maxConnections < s.server.activeConnections.size then { s with overloaded := true }
  else if s.overloaded ∧ s.server.activeConnections.size ≤ s.lowered then
    { s with overloaded := false }
  else s

def accept (incoming : Bytes) (s : Polling) : Polling :=
  { s with server := s.server.accept incoming }

def acceptConnections : List Bytes → Polling → Polling
  | [], s => s
  | incoming :: sockets, s =>
    if s.overloadAction = .noAction then acceptConnections sockets (s.accept incoming)
    else if s.serverOverloaded.overloaded then s.serverOverloaded
    else acceptConnections sockets (s.serverOverloaded.accept incoming)

def returnConnections (s : Polling) : Polling := { s with server := s.server.returnConnections }

def pollFd (connectionId : ℤ) (conn : TConnection) : PollFd where
  connectionId
  events :=
    match conn.appState with
    | .readFrameSize | .readRequest => .pollIn
    | .sendResult => .pollOut
    | .init | .parked => .nothing
  polled := polls conn

def setUp (s : Polling) (entry : (ℤ × ℕ) × ℕ) : Except PollFault Polling :=
  let conn := s.server.connections entry.1.2
  let fdindex := entry.2 + 1
  if fdindex < s.fds.length then
    .ok { s with
      fds := s.fds.set fdindex (pollFd entry.1.1 conn)
      server := if conn.appState = .init then s.server.set entry.1.2 conn.appInit else s.server }
  else .error (.outOfBounds fdindex)

def workSocket (work : ℕ → Option (Option ℕ × Processing)) (s : Polling) (i : ℕ) :
    Except PollFault Polling :=
  let fdindex := i + 1
  match s.server.activeConnections.entries[i]?, s.fds[fdindex]? with
  | none, _ => .ok s
  | some _, none => .error (.outOfBounds fdindex)
  | some entry, some fd =>
    if fd.connectionId ≠ some entry.1 then .error (.otherConnection fdindex)
    else
      match work fdindex with
      | none => .ok s
      | some (transfer, p) =>
        if fd.polled then
          match s.server.ready entry.1 transfer p with
          | .ok server => .ok { s with server := server }
          | .error fault => .error (.connection fault)
        else .ok s

def places (s : Polling) : List ((ℤ × ℕ) × ℕ) := s.server.activeConnections.entries.zipIdx

def workSockets (s : Polling) (result : PollResult) : Except PollFault Polling := do
  let s ← s.places.foldlM setUp s
  match result with
  | .ready work _ => (List.range s.server.activeConnections.size).foldlM (workSocket work) s
  | .interrupted | .failed | .timeout => .ok s

def finish (s : Polling) : PollResult → Polling
  | .interrupted => s
  | .failed | .timeout => s.returnConnections
  | .ready _ sockets => (acceptConnections (sockets.getD []) s).returnConnections

def turn (s : Polling) (result : PollResult) : Except PollFault Polling := do
  let s ← s.workSockets result
  .ok (s.finish result)

/-- No place is outside the array, and none is taken for that of another connection. -/
def Harmless {α : Type} (x : Except PollFault α) : Prop :=
  ∀ index, x ≠ .error (.outOfBounds index) ∧ x ≠ .error (.otherConnection index)

def PollsRight (s : Polling) (results : List PollResult) : Prop :=
  Harmless (results.foldlM turn s)

def fits (s : Polling) : Bool := s.server.activeConnections.size ≤ s.maxConnections

/-- What leaves room for the next turn. Without an overload action the sockets that wait and
the connections that are still open then must not be too many. With it there must be
room for all that wait, or a connection that closes makes it for the one that is let in too
many, or the server has not recovered from an earlier overload. -/
def makesRoom (s : Polling) (result : PollResult) : Bool :=
  match s.workSockets result with
  | .error _ => true
  | .ok worked =>
    match s.overloadAction with
    | .noAction => worked.server.opens + result.waiting ≤ s.maxConnections
    | .closeOnAccept =>
      s.server.activeConnections.size + result.waiting ≤ s.maxConnections ||
        worked.server.opens < s.server.activeConnections.size ||
        s.overloaded && s.lowered < s.server.activeConnections.size

/-! ### Loops -/

variable {s s' : Polling}

/-- Nothing but the connections themselves and the places has changed. -/
structure Steady (s s' : Polling) : Prop where
  maxConnections : s'.maxConnections = s.maxConnections
  overloadAction : s'.overloadAction = s.overloadAction
  lowered : s'.lowered = s.lowered
  overloaded : s'.overloaded = s.overloaded
  length : s'.fds.length = s.fds.length
  tables : s.server.SameTables s'.server

theorem Steady.refl (s : Polling) : s.Steady s := ⟨rfl, rfl, rfl, rfl, rfl, .refl _⟩

theorem Steady.trans {s₁ s₂ : Polling} (h : s.Steady s₁) (h' : s₁.Steady s₂) : s.Steady s₂ where
  maxConnections := h'.maxConnections.trans h.maxConnections
  overloadAction := h'.overloadAction.trans h.overloadAction
  lowered := h'.lowered.trans h.lowered
  overloaded := h'.overloaded.trans h.overloaded
  length := h'.length.trans h.length
  tables := h.tables.trans h'.tables

theorem foldlM_setUp (entries : List (ℤ × ℕ)) (k : ℕ) (s : Polling) :
    (k + entries.length < s.fds.length →
      ∃ s', (entries.zipIdx k).foldlM setUp s = .ok s' ∧ s.Steady s' ∧
        (∀ i ≤ k, s'.fds[i]? = s.fds[i]?) ∧
        ∀ e i, (e, i) ∈ entries.zipIdx k →
          ∃ fd, s'.fds[i + 1]? = some fd ∧ fd.connectionId = some e.1) ∧
    (k < s.fds.length → s.fds.length ≤ k + entries.length →
      (entries.zipIdx k).foldlM setUp s = .error (.outOfBounds s.fds.length)) := by
  induction entries generalizing k s with
  | nil =>
    refine ⟨fun _ => ⟨s, rfl, .refl s, fun _ _ => rfl, fun e i h => by simp at h⟩,
      fun h h' => ?_⟩
    rw [length_nil] at h'
    omega
  | cons e entries ih =>
    rw [zipIdx_cons, foldlM_cons, length_cons]
    by_cases hlt : k + 1 < s.fds.length
    · obtain ⟨s₁, hs₁, hsteady, hfds⟩ : ∃ s₁, setUp s (e, k) = .ok s₁ ∧ s.Steady s₁ ∧
          s₁.fds = s.fds.set (k + 1) (pollFd e.1 (s.server.connections e.2)) := by
        refine ⟨_, if_pos hlt, ⟨rfl, rfl, rfl, rfl, length_set, ?_⟩, rfl⟩
        dsimp only
        split
        · exact set_sameTables rfl
        · exact .refl _
      obtain ⟨hok, herror⟩ := ih (k + 1) s₁
      rw [hs₁]
      rw [hsteady.length] at hok herror
      refine ⟨fun hfit => ?_, fun _ hfull => herror hlt (by omega)⟩
      obtain ⟨s', hrun, hsteady', hbelow, hset⟩ := hok (by omega)
      refine ⟨s', hrun, hsteady.trans hsteady', fun i hi => ?_, fun e' i hmem => ?_⟩
      · rw [hbelow i (by omega), hfds, getElem?_set_ne (by omega)]
      · rcases mem_cons.mp hmem with heq | hmem
        · obtain ⟨rfl, rfl⟩ := Prod.mk.inj heq
          refine ⟨pollFd e'.1 (s.server.connections e'.2), ?_, rfl⟩
          rw [hbelow (i + 1) (le_refl _), hfds, getElem?_set_self hlt]
        · exact hset e' i hmem
    · refine ⟨fun hfit => absurd hfit (by omega), fun hk _ => ?_⟩
      have hlength : s.fds.length = k + 1 := by omega
      have herror : setUp s (e, k) = .error (.outOfBounds (k + 1)) := if_neg hlt
      rw [herror, hlength]
      rfl

theorem harmless_ok {α : Type} (a : α) : Harmless (.ok a : Except PollFault α) :=
  fun _ => ⟨by simp, by simp⟩

theorem harmless_connection {α : Type} (fault : Fault) :
    Harmless (.error (.connection fault) : Except PollFault α) :=
  fun _ => ⟨by simp, by simp⟩

def Placed (s : Polling) : Prop :=
  ∀ i e, s.server.activeConnections.entries[i]? = some e →
    ∃ fd, s.fds[i + 1]? = some fd ∧ fd.connectionId = some e.1

theorem Placed.workSocket (h : s.Placed) (work : ℕ → Option (Option ℕ × Processing)) (i : ℕ) :
    (∃ fault, Polling.workSocket work s i = .error (.connection fault)) ∨
      ∃ s', Polling.workSocket work s i = .ok s' ∧ s'.Placed ∧ s.Steady s' := by
  cases hentry : s.server.activeConnections.entries[i]? with
  | none => exact .inr ⟨s, by simp only [Polling.workSocket, hentry], h, .refl s⟩
  | some e =>
    obtain ⟨fd, hfd, hid⟩ := h i e hentry
    simp only [Polling.workSocket, hentry, hfd, hid, ne_eq, not_true_eq_false, if_false]
    split
    · exact .inr ⟨s, rfl, h, .refl s⟩
    · split_ifs
      · split
        · rename_i server hready
          have htables := (ready_spec hready).1
          refine .inr ⟨_, rfl, fun j e' hj => h j e' ?_, ⟨rfl, rfl, rfl, rfl, rfl, htables⟩⟩
          rwa [← htables.activeConnections]
        · exact .inl ⟨_, rfl⟩
      · exact .inr ⟨s, rfl, h, .refl s⟩

theorem Placed.foldlM_workSocket (h : s.Placed) (work : ℕ → Option (Option ℕ × Processing))
    (positions : List ℕ) :
    (∃ fault, positions.foldlM (Polling.workSocket work) s = .error (.connection fault)) ∨
      ∃ s', positions.foldlM (Polling.workSocket work) s = .ok s' ∧ s.Steady s' := by
  induction positions generalizing s with
  | nil => exact .inr ⟨s, rfl, .refl s⟩
  | cons i positions ih =>
    rw [foldlM_cons]
    rcases h.workSocket work i with ⟨fault, hstep⟩ | ⟨s₁, hstep, hplaced, hsteady⟩
    · rw [hstep]
      exact .inl ⟨fault, rfl⟩
    · rw [hstep]
      rcases ih hplaced with herror | ⟨s', hrun, hsteady'⟩
      · exact .inl herror
      · exact .inr ⟨s', hrun, hsteady.trans hsteady'⟩

theorem workSockets_of_fits (hlength : s.fds.length = s.maxConnections + 1) (hfits : s.fits = true)
    (result : PollResult) :
    (∃ fault, s.workSockets result = .error (.connection fault)) ∨
      ∃ s', s.workSockets result = .ok s' ∧ s.Steady s' := by
  have hsize : s.server.activeConnections.entries.length ≤ s.maxConnections :=
    of_decide_eq_true hfits
  obtain ⟨s₁, hrun, hsteady, -, hset⟩ :=
    (foldlM_setUp s.server.activeConnections.entries 0 s).1 (by omega)
  have hplaced : s₁.Placed := by
    intro i e hentry
    rw [hsteady.tables.activeConnections] at hentry
    exact hset e i (mk_mem_zipIdx_iff_getElem?.mpr hentry)
  rw [workSockets, places, hrun]
  cases result with
  | interrupted | failed | timeout => exact .inr ⟨s₁, rfl, hsteady⟩
  | ready work sockets =>
    rcases hplaced.foldlM_workSocket work (List.range s₁.server.activeConnections.size) with
      herror | ⟨s', hwork, hsteady'⟩
    · exact .inl herror
    · exact .inr ⟨s', hwork, hsteady.trans hsteady'⟩

theorem turn_of_not_fits (hlength : s.fds.length = s.maxConnections + 1) (hfits : s.fits = false)
    (result : PollResult) :
    s.turn result = .error (.outOfBounds (s.maxConnections + 1)) := by
  have hsize : ¬ s.server.activeConnections.entries.length ≤ s.maxConnections :=
    of_decide_eq_false hfits
  have herror := (foldlM_setUp s.server.activeConnections.entries 0 s).2 (by omega) (by omega)
  rw [turn, workSockets, places, herror, hlength]
  rfl

end Polling

/-! ### Accepting and returning -/

namespace TFastoreServer

variable {s : TFastoreServer}

/-- A new connection is open, and the others are as they were. -/
theorem Good.accept_counts (h : s.Good) (incoming : Bytes) :
    (s.accept incoming).activeConnections.size = s.activeConnections.size + 1 ∧
      (s.accept incoming).opens = s.opens + 1 := by
  obtain ⟨hfree, -, -, -, -, -, hactive, hconnections⟩ := h.takeObject
  rw [opens, TFastoreServer.accept]
  generalize s.takeObject = taken at *
  obtain ⟨ref, c, t⟩ := taken
  simp only at *
  have hnone : t.activeConnections.get? (s.idSource + 1) = none := by
    rw [hactive, Option.eq_none_iff_forall_ne_some]
    intro r hr
    have := h.assigned _ r hr
    omega
  refine ⟨(SortedMap.size_insert hnone).trans (by rw [hactive]), ?_⟩
  have hopen : ((t.set ref (c.opened (s.idSource + 1) incoming)).connections ref).tSocket.isOpen =
      true := by
    rw [set_connections_self]
    rfl
  have hothers : ∀ e ∈ s.activeConnections.entries,
      (t.set ref (c.opened (s.idSource + 1) incoming)).connections e.2 = s.connections e.2 := by
    intro e he
    rw [set_connections_of_ne, hconnections]
    rintro rfl
    exact hfree e.1 (SortedMap.get?_eq_some.mpr he)
  have hcount : s.opens = countP (fun e => ((t.set ref
      (c.opened (s.idSource + 1) incoming)).connections e.2).tSocket.isOpen)
        t.activeConnections.entries := by
    rw [hactive]
    exact countP_congr fun e he => by rw [hothers e he]
  rw [hcount, SortedMap.entries_of_none hnone, countP_append, Nat.add_assoc]
  change countP _ (_ ++ (s.idSource + 1, ref) :: _) = _
  rw [countP_append, countP_cons_of_pos (by exact hopen)]

/-- The connections that were closed are given back. -/
theorem Good.size_returnConnections (h : s.Good) :
    s.returnConnections.activeConnections.size = s.opens := by
  -- the connections of the loop that are still to come are in the map
  suffices hall : ∀ (todo : List (ℤ × ℕ)) (t : TFastoreServer), t.Good →
      (todo.map Prod.fst).Nodup → (∀ e ∈ todo, t.getConnectionById e.1 = some e.2) →
      (todo.foldl TFastoreServer.returnConnection t).activeConnections.size + todo.length =
        t.activeConnections.size +
          todo.countP fun e => (t.connections e.2).tSocket.isOpen by
    have hcount := hall s.activeConnections.entries s h s.activeConnections.keys_nodup
      fun e he => SortedMap.get?_eq_some.mpr he
    have hsize : s.activeConnections.size = s.activeConnections.entries.length := rfl
    rw [TFastoreServer.returnConnections, opens]
    omega
  intro todo
  induction todo with
  | nil => exact fun t _ _ _ => rfl
  | cons e todo ih =>
    intro t ht hnodup hmem
    rw [map_cons, nodup_cons] at hnodup
    have hentry := hmem e mem_cons_self
    obtain ⟨hgood, -, hget⟩ := ht.returnConnection hentry
    have hlater := ih (t.returnConnection e) hgood hnodup.2 fun e' he' => by
      rw [hget e'.1, hmem e' (mem_cons_of_mem _ he')]
      intro heq
      exact hnodup.1 (heq ▸ mem_map_of_mem he')
    rw [foldl_cons, length_cons]
    by_cases hopen : (t.connections e.2).tSocket.isOpen = true
    · rw [TFastoreServer.returnConnection, if_pos hopen] at hlater ⊢
      rw [countP_cons_of_pos (by exact hopen)]
      omega
    · have hsize : (t.returnConnection e).activeConnections.size + 1 = t.activeConnections.size := by
        rw [TFastoreServer.returnConnection, if_neg hopen]
        split <;> exact SortedMap.size_eraseAt_rank hentry
      have hothers : todo.countP (fun e' => ((t.returnConnection e).connections e'.2).tSocket.isOpen) =
          todo.countP fun e' => (t.connections e'.2).tSocket.isOpen := by
        refine countP_congr fun e' he' => ?_
        have hne : e'.2 ≠ e.2 := fun heq => hnodup.1 (ht.ids_eq
          (heq ▸ hmem e' (mem_cons_of_mem _ he')) hentry ▸ mem_map_of_mem he')
        rw [TFastoreServer.returnConnection, if_neg hopen]
        split
        · rfl
        · simp only [set_connections_of_ne _ _ hne]
          rfl
      rw [countP_cons_of_neg (by exact hopen), ← hothers]
      omega

end TFastoreServer

namespace Polling

variable {s s' : Polling}

def admitted (s : Polling) (waiting : ℕ) : ℕ :=
  if s.overloadAction = .noAction then waiting
  else if s.overloaded ∧ s.lowered < s.server.activeConnections.size then 0
  else min waiting (s.maxConnections + 1 - s.server.activeConnections.size)

theorem serverOverloaded_eq (s : Polling) : s.serverOverloaded = { s with
    overloaded := decide (s.maxConnections < s.server.activeConnections.size ∨
      s.overloaded ∧ s.lowered < s.server.activeConnections.size) } := by
  rw [serverOverloaded]
  split_ifs with hmax hlow
  · simp [hmax]
  · simp [hmax, hlow.2]
  · have hsame : decide (s.maxConnections < s.server.activeConnections.size ∨
        s.overloaded ∧ s.lowered < s.server.activeConnections.size) = s.overloaded := by
      cases hover : s.overloaded with
      | false => simp [hmax]
      | true => simpa [hover, hmax] using hlow
    rw [hsame]

/-- The array and the limits do not change, and the tables are those of a server. -/
structure Keeps (s s' : Polling) : Prop where
  maxConnections : s'.maxConnections = s.maxConnections
  length : s'.fds.length = s.fds.length
  good : s'.server.Good

/-- As many are accepted as the policy admits. -/
theorem acceptConnections_spec (hgood : s.server.Good) (sockets : List Bytes) :
    s.Keeps (acceptConnections sockets s) ∧
    (acceptConnections sockets s).server.opens =
      s.server.opens + s.admitted sockets.length := by
  induction sockets generalizing s with
  | nil =>
    refine ⟨⟨rfl, rfl, hgood⟩, ?_⟩
    rw [acceptConnections, admitted, length_nil]
    split_ifs <;> simp
  | cons incoming sockets ih =>
    obtain ⟨hsize, hopens⟩ := hgood.accept_counts incoming
    -- the flag makes no difference to the connections
    have haccept : ∀ overloaded : Bool,
        s.Keeps (acceptConnections sockets ({ s with overloaded := overloaded }.accept incoming)) ∧
        (acceptConnections sockets ({ s with overloaded := overloaded }.accept incoming)).server.opens =
          s.server.opens + 1 +
            ({ s with overloaded := overloaded }.accept incoming).admitted sockets.length := by
      intro overloaded
      obtain ⟨hkeeps, hcount⟩ :=
        ih (s := { s with overloaded := overloaded }.accept incoming) (hgood.accept incoming).1
      exact ⟨⟨hkeeps.maxConnections, hkeeps.length, hkeeps.good⟩, hcount.trans (by rw [← hopens]; rfl)⟩
    rw [acceptConnections, length_cons, serverOverloaded_eq]
    by_cases hnone : s.overloadAction = .noAction
    · obtain ⟨hkeeps, hcount⟩ := haccept s.overloaded
      rw [if_pos hnone]
      refine ⟨hkeeps, hcount.trans ?_⟩
      have haction : (s.accept incoming).overloadAction = .noAction := hnone
      rw [admitted, admitted, if_pos hnone, if_pos haction]
      omega
    · rw [if_neg hnone, admitted, if_neg hnone]
      by_cases hover : s.maxConnections < s.server.activeConnections.size ∨
          s.overloaded ∧ s.lowered < s.server.activeConnections.size
      · rw [if_pos (decide_eq_true hover)]
        refine ⟨⟨rfl, rfl, hgood⟩, ?_⟩
        simp only
        split_ifs with hlow
        · rfl
        · have := hover.resolve_right hlow
          omega
      · rw [decide_eq_false hover]
        rw [not_or] at hover
        obtain ⟨hkeeps, hcount⟩ := haccept false
        refine ⟨hkeeps, hcount.trans ?_⟩
        have hadmitted : ({ s with overloaded := false }.accept incoming).admitted sockets.length =
            min sockets.length (s.maxConnections + 1 - (s.server.activeConnections.size + 1)) := by
          rw [← hsize]
          exact (if_neg hnone).trans (if_neg (by simp [accept]))
        rw [hadmitted, if_neg hover.2]
        omega

theorem returnConnections_spec (hgood : s.server.Good) :
    s.Keeps s.returnConnections ∧
      s.returnConnections.server.activeConnections.size = s.server.opens :=
  ⟨⟨rfl, rfl, hgood.returnConnections.1⟩, hgood.size_returnConnections⟩

/-! ### Turns and runs -/

theorem opens_le (s : TFastoreServer) : s.opens ≤ s.activeConnections.size := countP_le_length

/-- Room is made if and only if those that stay and those that are let in are not too many. -/
theorem makesRoom_iff {result : PollResult} (hwork : s.workSockets result = .ok s')
    (hsize : s.server.activeConnections.size ≤ s.maxConnections)
    (hopens : s'.server.opens ≤ s.server.activeConnections.size) :
    s.makesRoom result = true ↔
      s'.server.opens + s.admitted result.waiting ≤ s.maxConnections := by
  rw [makesRoom, hwork, admitted]
  obtain haction | haction : s.overloadAction = .noAction ∨ s.overloadAction = .closeOnAccept := by
    cases s.overloadAction <;> simp
  · simp only [haction, if_true, decide_eq_true_eq]
  · simp only [haction, reduceCtorEq, if_false, Bool.or_eq_true, Bool.and_eq_true,
      decide_eq_true_eq]
    split_ifs with hlow
    · exact iff_of_true (.inr hlow) (by omega)
    · rw [or_iff_left hlow]
      omega

/-- The next turn has its places if and only if this one makes room. -/
theorem turn_of_fits (hlength : s.fds.length = s.maxConnections + 1) (hgood : s.server.Good)
    (hfits : s.fits = true) (result : PollResult) :
    (∃ fault, s.turn result = .error (.connection fault) ∧ s.makesRoom result = true) ∨
      ∃ s', s.turn result = .ok s' ∧ s.Keeps s' ∧ (s'.fits = true ↔ s.makesRoom result = true) := by
  have hsize : s.server.activeConnections.size ≤ s.maxConnections := of_decide_eq_true hfits
  rcases workSockets_of_fits hlength hfits result with ⟨fault, herror⟩ | ⟨s₁, hwork, hsteady⟩
  · refine .inl ⟨fault, ?_, ?_⟩
    · rw [turn, herror]
      rfl
    · rw [makesRoom, herror]
  have hgood₁ := hgood.of_sameTables hsteady.tables
  have hopens := opens_le s₁.server
  rw [hsteady.tables.activeConnections] at hopens
  have hadmitted : ∀ waiting, s₁.admitted waiting = s.admitted waiting := fun waiting => by
    simp only [admitted, hsteady.overloadAction, hsteady.overloaded, hsteady.lowered,
      hsteady.maxConnections, hsteady.tables.activeConnections]
  have hnobody : s.admitted 0 = 0 := by
    rw [admitted]
    split_ifs <;> simp
  have hroom := makesRoom_iff hwork hsize hopens
  refine .inr ⟨s₁.finish result, by rw [turn, hwork]; rfl, ?_⟩
  rw [hroom, fits, decide_eq_true_eq]
  cases result with
  | interrupted =>
    refine ⟨⟨hsteady.maxConnections, hsteady.length, hgood₁⟩, iff_of_true ?_ ?_⟩
    · simpa only [finish, hsteady.tables.activeConnections, hsteady.maxConnections] using hsize
    · simp only [PollResult.waiting, hnobody]
      omega
  | failed | timeout =>
    obtain ⟨hkeeps, hcount⟩ := returnConnections_spec hgood₁
    refine ⟨⟨hkeeps.maxConnections.trans hsteady.maxConnections,
      hkeeps.length.trans hsteady.length, hkeeps.good⟩, ?_⟩
    simp only [finish, hcount, hkeeps.maxConnections, hsteady.maxConnections, PollResult.waiting,
      hnobody, Nat.add_zero]
  | ready work sockets =>
    obtain ⟨hkeeps, hcount⟩ := acceptConnections_spec hgood₁ (sockets.getD [])
    obtain ⟨hkeeps', hcount'⟩ := returnConnections_spec hkeeps.good
    refine ⟨⟨hkeeps'.maxConnections.trans (hkeeps.maxConnections.trans hsteady.maxConnections),
      hkeeps'.length.trans (hkeeps.length.trans hsteady.length), hkeeps'.good⟩, ?_⟩
    simp only [finish, hcount', hcount, hkeeps'.maxConnections, hkeeps.maxConnections,
      hsteady.maxConnections, PollResult.waiting, hadmitted]

/-- The poll set is right if every turn but the last makes room. -/
theorem pollsRight_iff_makesRoom (hlength : s.fds.length = s.maxConnections + 1)
    (hgood : s.server.Good) (hfits : s.fits = true) (results : List PollResult) :
    s.PollsRight results ↔ guarded turn makesRoom s results.dropLast = true := by
  induction results generalizing s with
  | nil => exact ⟨fun _ => rfl, fun _ => harmless_ok s⟩
  | cons result results ih =>
    rw [PollsRight, foldlM_cons]
    rcases turn_of_fits hlength hgood hfits result with
      ⟨fault, herror, hroom⟩ | ⟨s₁, hturn, hkeeps, hfits₁⟩
    · rw [herror]
      refine iff_of_true (harmless_connection fault) ?_
      cases results with
      | nil => rfl
      | cons next results => rw [dropLast_cons_cons, guarded, hroom, herror, Bool.true_and]
    · have hlength₁ : s₁.fds.length = s₁.maxConnections + 1 := by
        rw [hkeeps.length, hlength, hkeeps.maxConnections]
      rw [hturn]
      cases results with
      | nil => exact iff_of_true (harmless_ok s₁) rfl
      | cons next results =>
        rw [dropLast_cons_cons, guarded, hturn, Bool.and_eq_true]
        by_cases hroom : s.makesRoom result = true
        · exact (ih hlength₁ hkeeps.good (hfits₁.mpr hroom)).trans (and_iff_right hroom).symm
        · refine iff_of_false (fun hharmless => ?_) fun h => hroom h.1
          have herror := turn_of_not_fits hlength₁ (by simpa using mt hfits₁.mp hroom) next
          have hrun : (next :: results).foldlM turn s₁ =
              .error (.outOfBounds (s₁.maxConnections + 1)) := by
            rw [foldlM_cons, herror]
            rfl
          exact (hharmless (s₁.maxConnections + 1)).1 hrun

end Polling

theorem length_start (settings : Settings) (maxConnections : ℕ) (overloadAction : OverloadAction)
    (lowered : ℕ) : (Polling.start settings maxConnections overloadAction lowered).fds.length =
      maxConnections + 1 := by
  rw [Polling.start, length_set, length_replicate]

/-- **The poll array** is large enough in a run if and only if every turn but the last one
makes room for the next. -/
theorem polls_right_iff (settings : Settings) (maxConnections : ℕ) (overloadAction : OverloadAction)
    (lowered : ℕ) (results : List PollResult) :
    (Polling.start settings maxConnections overloadAction lowered).PollsRight results ↔
      guarded Polling.turn Polling.makesRoom
        (Polling.start settings maxConnections overloadAction lowered) results.dropLast = true :=
  Polling.pollsRight_iff_makesRoom (length_start settings maxConnections overloadAction lowered)
    (good_new settings) (decide_eq_true (Nat.zero_le _)) results

def twoSockets : List PollResult := [.ready (fun _ => none) (some [[], []]), .timeout]

/-- With a maximum of one connection, two of them are let in by either action. -/
theorem twoSockets_outOfBounds :
    (¬ (Polling.start {} 1 .noAction 0).PollsRight twoSockets) ∧
      ¬ (Polling.start {} 1 .closeOnAccept 0).PollsRight twoSockets := by
  have hright : ∀ action, (Polling.start {} 1 action 0).PollsRight twoSockets ↔ _ := fun action =>
    Polling.pollsRight_iff_makesRoom (length_start {} 1 action 0) (good_new {})
      rfl twoSockets
  rw [hright, hright]
  decide

end Fastore.Server
