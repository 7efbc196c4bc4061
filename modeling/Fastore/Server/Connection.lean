import Mathlib.Data.Int.Basic
import Mathlib.Tactic.SplitIfs
import Fastore.Lib.Frames

/-!
The connections of the server.

A connection reads the length of a frame, reads the frame, has the processor
answer it and sends the answer, a piece at a time whenever its socket is ready
(`workSocket`), and moves from one of these to the next by `transition`. A
handler can park the connection: then it stays until an answer is posted.

A reader of frames (`Fastore.Lib.Frames`) that has been fed the same bytes tells
what has been read (`Tracks`). It gets stuck at lengths the connection cannot
deal with: after the length 0 it waits for a body without bytes, and a length
above `2 ^ 31` makes the loop that doubles the read buffer endless. A connection
reassembles a sequence of frames if and only if none has such a length
(`reassembles_iff`). The order of bytes is little endian.
-/

namespace Fastore.Server

open Lib List Received

inductive Fault
  | assertion
  /-- A loop or a recursion that does not end. -/
  | endless
  deriving DecidableEq, Repr

inductive SocketState
  | recvFraming
  | recv
  | send
  deriving DecidableEq, Repr

inductive AppState
  | init
  | readFrameSize
  | readRequest
  | parked
  | sendResult
  deriving DecidableEq, Repr

structure Settings where
  maxFrameSize : ℕ := 256 * 1024 * 1024
  connectionPoolLimit : ℕ := 1024
  idleReadBufferLimit : ℕ := 1024
  idleWriteBufferLimit : ℕ := 1024
  resizeBufferEveryN : ℤ := 512

/-- `TSocket`: with what the other side sends and is not read yet, and with
what has been sent to it. -/
structure TSocket where
  isOpen : Bool := false
  incoming : Bytes := []
  sent : Bytes := []
  deriving DecidableEq

/-- `TConnection`. The buffers have the sizes of their lists. -/
structure TConnection where
  id : ℤ
  tSocket : TSocket
  socketState : SocketState
  appState : AppState
  readWant : ℕ
  readBufferPos : ℕ
  readBuffer : Bytes
  writeBuffer : Bytes
  writeBufferPos : ℕ
  largestWriteBufferSize : ℕ
  callsForResize : ℤ
  outputTransport : Bytes
  /-- The requests that have been given to the processor. -/
  handed : List Bytes
  deriving DecidableEq

/-! ### Transitions -/

/-- What the processor did with a request: the answer it wrote, unless it
threw, and whether it parked the connection. -/
structure Processed where
  reply : Option Bytes := some []
  parked : Bool := false
  deriving DecidableEq

namespace TConnection

def close (c : TConnection) : TConnection :=
  { c with tSocket := { c.tSocket with isOpen := false } }

def checkIdleBufferMemLimit (readLimit writeLimit : ℕ) (c : TConnection) :
    TConnection :=
  let c := if 0 < readLimit ∧ readLimit < c.readBuffer.length then { c with readBuffer := [] } else c
  if 0 < writeLimit ∧ writeLimit < c.largestWriteBufferSize then
    { c with outputTransport := [], largestWriteBufferSize := 0 }
  else c

def appInit (c : TConnection) : TConnection :=
  { c with
    writeBuffer := []
    writeBufferPos := 0
    socketState := .recvFraming
    appState := .readFrameSize
    readBufferPos := 0 }

def sendOutput (c : TConnection) : TConnection :=
  { c with
    writeBuffer := be32 (c.outputTransport.length - 4) ++ c.outputTransport.drop 4
    writeBufferPos := 0
    socketState := .send
    appState := .sendResult }

def appParked (c : TConnection) : TConnection :=
  if 4 < c.outputTransport.length then c.sendOutput else c.appInit

/-- The processor has been given the request. Four bytes were left for the
length before its answer. -/
def processed (p : Processed) (c : TConnection) : TConnection :=
  { c with
    handed := c.handed ++ [c.readBuffer.take c.readBufferPos]
    outputTransport := [0, 0, 0, 0] ++ p.reply.getD []
    appState := if p.parked then .parked else c.appState }

def appReadRequest (p : Processed) (c : TConnection) : TConnection :=
  if p.reply.isNone then (c.processed p).close
  else if p.parked then c.processed p
  else (c.processed p).appParked

def countAnswer (server : Settings) (c : TConnection) : TConnection :=
  { c with
    largestWriteBufferSize := max c.largestWriteBufferSize c.writeBuffer.length
    callsForResize := if 0 < server.resizeBufferEveryN then c.callsForResize + 1
      else c.callsForResize }

def appSendResult (server : Settings) (c : TConnection) : TConnection :=
  let c := c.countAnswer server
  let c := if 0 < server.resizeBufferEveryN ∧ server.resizeBufferEveryN ≤ c.callsForResize then
      { c.checkIdleBufferMemLimit server.idleReadBufferLimit server.idleWriteBufferLimit with
        callsForResize := 0 }
    else c
  c.appInit

end TConnection

/-- `while (readWant_ > newSize) newSize *= 2;` in 32 bits, for some rounds. -/
def doubled (readWant : ℕ) : ℕ → ℕ → Option ℕ
  | 0, _ => none
  | rounds + 1, newSize =>
    if newSize < readWant then doubled readWant rounds (newSize * 2 % 2 ^ 32) else some newSize

def readBufferSizeFor (readWant readBufferSize : ℕ) : Option ℕ :=
  if readBufferSize < readWant then
    doubled readWant 33 (if readBufferSize = 0 then 1 else readBufferSize)
  else some readBufferSize

def TConnection.appReadFrameSize (c : TConnection) : Except Fault TConnection :=
  match readBufferSizeFor c.readWant c.readBuffer.length with
  | none => .error .endless
  | some newSize =>
    .ok { c with
      readBuffer := c.readBuffer ++ List.replicate (newSize - c.readBuffer.length) 0
      readBufferPos := 0
      socketState := .recv
      appState := .readRequest }

/-- `transition`; if it is the end of a request, with what the processor did. -/
def TConnection.transition (server : Settings) (p : Processed) (c : TConnection) :
    Except Fault TConnection :=
  match c.appState with
  | .readRequest => .ok (c.appReadRequest p)
  | .parked => .ok c.appParked
  | .sendResult => .ok (c.appSendResult server)
  | .init => .ok c.appInit
  | .readFrameSize => c.appReadFrameSize

/-! ### Work on the socket

Each case tells whether it ends with a transition. The socket moves up to
`transfer` bytes, or throws.
-/

def overwrite (buffer : Bytes) (pos : ℕ) (bs : Bytes) : Bytes :=
  buffer.take pos ++ bs ++ buffer.drop (pos + bs.length)

def TSocket.read (s : TSocket) (transfer size : ℕ) : Bytes := s.incoming.take (min transfer size)

def TSocket.drop (s : TSocket) (n : ℕ) : TSocket := { s with incoming := s.incoming.drop n }

namespace TConnection

def fetched (fetch : Bytes) (readWant : ℕ) (c : TConnection) : TConnection :=
  { c with
    tSocket := c.tSocket.drop fetch.length
    readBufferPos := c.readBufferPos + fetch.length
    readWant := readWant }

def socketRecvFraming (server : Settings) (transfer : Option ℕ) (c : TConnection) :
    TConnection × Bool :=
  match transfer with
  | none => (c.close, false)
  | some k =>
    let fetch := c.tSocket.read k (4 - c.readBufferPos)
    let framing := overwrite (le32 c.readWant) c.readBufferPos fetch
    if fetch.isEmpty then (c.close, false)
    else if c.readBufferPos + fetch.length < 4 then (c.fetched fetch (ofLE framing), false)
    else if server.maxFrameSize < ofBE framing then
      ((c.fetched fetch (ofBE framing)).close, false)
    else (c.fetched fetch (ofBE framing), true)

def received (got : Bytes) (c : TConnection) : TConnection :=
  { c with
    tSocket := c.tSocket.drop got.length
    readBuffer := overwrite c.readBuffer c.readBufferPos got
    readBufferPos := c.readBufferPos + got.length }

def socketRecv (transfer : Option ℕ) (c : TConnection) :
    Except Fault (TConnection × Bool) :=
  if c.readWant ≤ c.readBufferPos then .error .assertion
  else
    match transfer with
    | none => .ok (c.close, false)
    | some k =>
      let got := c.tSocket.read k (c.readWant - c.readBufferPos)
      if got.isEmpty then .ok (c.close, false)
      else if c.readWant < c.readBufferPos + got.length then .error .assertion
      else .ok (c.received got, c.readBufferPos + got.length == c.readWant)

def wrote (sent : Bytes) (c : TConnection) : TConnection :=
  { c with
    tSocket := { c.tSocket with sent := c.tSocket.sent ++ sent }
    writeBufferPos := c.writeBufferPos + sent.length }

def socketSend (transfer : Option ℕ) (c : TConnection) :
    Except Fault (TConnection × Bool) :=
  if c.writeBuffer.length < c.writeBufferPos then .error .assertion
  else if c.writeBufferPos = c.writeBuffer.length then .ok (c, true)
  else
    match transfer with
    | none => .ok (c.close, false)
    | some k =>
      let sent := (c.writeBuffer.drop c.writeBufferPos).take k
      if c.writeBuffer.length < c.writeBufferPos + sent.length then .error .assertion
      else .ok (c.wrote sent, c.writeBufferPos + sent.length == c.writeBuffer.length)

def workSocket (server : Settings) (transfer : Option ℕ) (c : TConnection) :
    Except Fault (TConnection × Bool) :=
  match c.socketState with
  | .recvFraming => .ok (c.socketRecvFraming server transfer)
  | .recv => c.socketRecv transfer
  | .send => c.socketSend transfer

/-! ### A connection from its start -/

def new : TConnection where
  id := 0
  tSocket := {}
  socketState := .recvFraming
  appState := .init
  readWant := 0
  readBufferPos := 0
  readBuffer := []
  writeBuffer := []
  writeBufferPos := 0
  largestWriteBufferSize := 0
  callsForResize := 0
  outputTransport := []
  handed := []

/-- `init`: an object, new or from the pool, gets a socket. -/
def init (id : ℤ) (incoming : Bytes) (c : TConnection) : TConnection :=
  { c with
    id := id
    tSocket := { isOpen := true, incoming := incoming }
    appState := .init
    readBufferPos := 0
    readWant := 0
    writeBuffer := []
    writeBufferPos := 0
    largestWriteBufferSize := 0
    socketState := .recvFraming
    callsForResize := 0
    handed := [] }

/-- The data of `unpark` stand in the output. The size is cast to 32 bits. -/
def post (data : Bytes) (c : TConnection) : TConnection :=
  { c with outputTransport := data.take (data.length % 2 ^ 32) }

def work (server : Settings) (transfer : Option ℕ) (p : Processed) (c : TConnection) :
    Except Fault TConnection := do
  let (c, done) ← c.workSocket server transfer
  if done then c.transition server p else .ok c

end TConnection

inductive Happening
  /-- The socket is ready for some bytes. -/
  | ready (k : ℕ) (p : Processed)
  | unpark (data : Bytes)

def TConnection.step (server : Settings) (c : TConnection) : Happening → Except Fault TConnection
  | .ready k p => c.work server (some k) p
  | .unpark data => (c.post data).transition server {}

def TConnection.Reading (c : TConnection) : Prop :=
  c.appState = .readFrameSize ∨ c.appState = .readRequest

/-- What the server polls for, on a line that works: reads get a byte at
least, the processor returns, and answers are posted to who is parked. -/
def TConnection.Allows (c : TConnection) : Happening → Prop
  | .ready k p => c.tSocket.isOpen = true ∧ p.reply.isSome = true ∧
      (c.Reading ∧ 0 < k ∧ c.tSocket.incoming ≠ [] ∨ c.appState = .sendResult)
  | .unpark _ => c.appState = .parked

inductive Leads (server : Settings) (c : TConnection) : Except Fault TConnection → Prop
  | start : Leads server c (.ok c)
  | next {c' : TConnection} {e : Happening} :
      Leads server c (.ok c') → c'.Allows e → Leads server c (c'.step server e)

variable {input rest : Bytes} {c : TConnection} {readWant size : ℕ}

theorem Leads.trans {server : Settings} {c' : TConnection} {o : Except Fault TConnection}
    (h : Leads server c (.ok c')) (h' : Leads server c' o) : Leads server c o := by
  induction h' with
  | start => exact h
  | next _ hallows ih => exact .next ih hallows

def TConnection.Sized (c : TConnection) : Prop :=
  c.readBuffer = [] ∨ ∃ e ≤ 31, c.readBuffer.length = 2 ^ e

def TConnection.opened (id : ℤ) (incoming : Bytes) (c : TConnection) : TConnection :=
  (c.init id incoming).appInit

/-! ### The size of the read buffer -/

theorem doubled_pow (hwant : readWant ≤ 2 ^ 31) :
    ∀ rounds e, e ≤ 31 → 32 ≤ e + rounds →
      ∃ e', e' ≤ 31 ∧ doubled readWant rounds (2 ^ e) = some (2 ^ e') ∧ readWant ≤ 2 ^ e' ∧
        e ≤ e' := by
  intro rounds
  induction rounds with
  | zero =>
    intro e he hle
    omega
  | succ rounds ih =>
    intro e he hle
    rw [doubled]
    split_ifs with hlt
    · have hne : e ≠ 31 := by
        rintro rfl
        omega
      have hpow : 2 ^ e * 2 % 2 ^ 32 = 2 ^ (e + 1) := by
        rw [← Nat.pow_succ]
        exact Nat.mod_eq_of_lt (Nat.pow_lt_pow_right (by omega) (by omega))
      obtain ⟨e', he', hdouble, hle', hee'⟩ := ih (e + 1) (by omega) (by omega)
      exact ⟨e', he', by rw [hpow, hdouble], hle', by omega⟩
    · exact ⟨e, he, rfl, by omega, le_refl e⟩

theorem readBufferSizeFor_of_le (hwant : readWant ≤ 2 ^ 31)
    (hsize : size = 0 ∨ ∃ e ≤ 31, size = 2 ^ e) :
    ∃ newSize, readBufferSizeFor readWant size = some newSize ∧ readWant ≤ newSize ∧
      size ≤ newSize ∧ (newSize = 0 ∨ ∃ e ≤ 31, newSize = 2 ^ e) := by
  rw [readBufferSizeFor]
  split_ifs with hlt hzero
  · obtain ⟨e, he, hdouble, hle, -⟩ := doubled_pow hwant 33 0 (by omega) (by omega)
    exact ⟨2 ^ e, hdouble, hle, by omega, .inr ⟨e, he, rfl⟩⟩
  · obtain ⟨e, he, rfl⟩ := hsize.resolve_left hzero
    obtain ⟨e', he', hdouble, hle, hee'⟩ := doubled_pow hwant 33 e he (by omega)
    exact ⟨2 ^ e', hdouble, hle, Nat.pow_le_pow_right (by omega) hee', .inr ⟨e', he', rfl⟩⟩
  · exact ⟨size, rfl, by omega, le_refl size, hsize⟩

theorem doubled_zero (hwant : 0 < readWant) (rounds : ℕ) : doubled readWant rounds 0 = none := by
  induction rounds with
  | zero => rfl
  | succ rounds ih => rw [doubled, if_pos hwant, Nat.zero_mul, Nat.zero_mod, ih]

theorem doubled_none (hwant : 2 ^ 31 < readWant) :
    ∀ rounds e, e ≤ 31 → doubled readWant rounds (2 ^ e) = none := by
  intro rounds
  induction rounds with
  | zero => intros; rfl
  | succ rounds ih =>
    intro e he
    have hpow : 2 ^ e ≤ 2 ^ 31 := Nat.pow_le_pow_right (by omega) he
    rw [doubled, if_pos (by omega), ← Nat.pow_succ]
    rcases Nat.lt_or_ge e 31 with hlt | hge
    · rw [Nat.mod_eq_of_lt (Nat.pow_lt_pow_right (by omega) (by omega)), ih (e + 1) (by omega)]
    · obtain rfl : e = 31 := by omega
      rw [Nat.mod_self, doubled_zero (by omega)]

theorem readBufferSizeFor_none (hwant : 2 ^ 31 < readWant)
    (hsize : size = 0 ∨ ∃ e ≤ 31, size = 2 ^ e) : readBufferSizeFor readWant size = none := by
  have hlt : size < readWant := by
    rcases hsize with rfl | ⟨e, he, rfl⟩
    · omega
    · exact Nat.lt_of_le_of_lt (Nat.pow_le_pow_right (by omega) he) hwant
  rw [readBufferSizeFor, if_pos hlt]
  split_ifs with hzero
  · exact doubled_none hwant 33 0 (by omega)
  · obtain ⟨e, he, rfl⟩ := hsize.resolve_left hzero
    exact doubled_none hwant 33 e he

/-! ### What has been read -/

def Settings.verdict (server : Settings) (n : ℕ) : Verdict :=
  if server.maxFrameSize < n then .refused else if n = 0 ∨ 2 ^ 31 < n then .stuck else .taken

/-- The connection is reading a length and has some of its bytes. They are kept
in the variable of the length. -/
structure TConnection.Awaits (c : TConnection) (got : Bytes) : Prop where
  isOpen : c.tSocket.isOpen = true
  appState : c.appState = .readFrameSize
  socketState : c.socketState = .recvFraming
  pos : c.readBufferPos = got.length
  few : got.length < 4
  kept : (le32 c.readWant).take got.length = got

/-- The connection is reading a request and has some of its bytes. -/
structure TConnection.Fills (c : TConnection) (want : ℕ) (got : Bytes) : Prop where
  isOpen : c.tSocket.isOpen = true
  appState : c.appState = .readRequest
  socketState : c.socketState = .recv
  readWant : c.readWant = want
  pos : c.readBufferPos = got.length
  few : got.length < want
  kept : c.readBuffer.take got.length = got
  room : want ≤ c.readBuffer.length

structure TConnection.Answering (c : TConnection) : Prop where
  isOpen : c.tSocket.isOpen = true
  state : c.appState = .parked ∨
    c.appState = .sendResult ∧ c.socketState = .send ∧ c.writeBufferPos ≤ c.writeBuffer.length

/-- The connection is where a reader of the same bytes is. -/
def TConnection.Tracks (c : TConnection) : Reader → Prop
  | .length got => c.Awaits got ∨ got = [] ∧ c.Answering
  | .body want got => c.Fills want got
  | .refused read => read = [] ∧ c.tSocket.isOpen = false ∧ c.appState = .readFrameSize
  | .stuck => False

/-- The connection has taken some bytes, as the reader does. -/
structure TConnection.Moves (server : Settings) (c : TConnection) (reader : Reader) (chunk : Bytes)
    (c' : TConnection) : Prop where
  incoming : c.tSocket.incoming = chunk ++ c'.tSocket.incoming
  sized : c'.Sized
  tracks : ∃ reader', feedAll server.verdict ⟨c.handed, reader⟩ chunk = ⟨c'.handed, reader'⟩ ∧
    c'.Tracks reader'

theorem overwrite_of_take {buffer got : Bytes} (bs : Bytes) (h : buffer.take got.length = got) :
    overwrite buffer got.length bs = got ++ bs ++ buffer.drop (got ++ bs).length := by
  rw [overwrite, h, length_append]

/-- The line is as it was; the read buffer at most is gone. -/
structure TConnection.Kept (c c' : TConnection) : Prop where
  identity : c'.id = c.id
  tSocket : c'.tSocket = c.tSocket
  handed : c'.handed = c.handed
  readBuffer : c'.readBuffer = c.readBuffer ∨ c'.readBuffer = []

section Steps

variable {server : Settings} {c c' : TConnection} {p : Processed} {got : Bytes} {want k : ℕ}

namespace TConnection

theorem Sized.of_kept (h : c.Sized) (hkept : c.Kept c') : c'.Sized := by
  rcases hkept.readBuffer with heq | heq
  · rw [Sized, heq]
    exact h
  · exact .inl heq

theorem appInit_kept (c : TConnection) : c.Kept c.appInit :=
  ⟨rfl, rfl, rfl, .inl rfl⟩

theorem appParked_kept (c : TConnection) : c.Kept c.appParked := by
  rw [appParked]
  split_ifs
  · exact ⟨rfl, rfl, rfl, .inl rfl⟩
  · exact c.appInit_kept

theorem checkIdleBufferMemLimit_kept (c : TConnection) (readLimit writeLimit : ℕ) :
    c.Kept (c.checkIdleBufferMemLimit readLimit writeLimit) := by
  unfold checkIdleBufferMemLimit
  by_cases hread : 0 < readLimit ∧ readLimit < c.readBuffer.length
  · simp only [if_pos hread]
    split_ifs <;> exact ⟨rfl, rfl, rfl, .inr rfl⟩
  · simp only [if_neg hread]
    split_ifs <;> exact ⟨rfl, rfl, rfl, .inl rfl⟩

theorem appSendResult_eq (server : Settings) (c : TConnection) :
    ∃ c₁ : TConnection, c.appSendResult server = c₁.appInit ∧ c.Kept c₁ := by
  unfold appSendResult
  dsimp only
  split_ifs
  · have h := (c.countAnswer server).checkIdleBufferMemLimit_kept server.idleReadBufferLimit
      server.idleWriteBufferLimit
    exact ⟨_, rfl, h.identity, h.tSocket, h.handed, h.readBuffer⟩
  · exact ⟨_, rfl, rfl, rfl, rfl, .inl rfl⟩

theorem appInit_awaits (h : c.tSocket.isOpen = true) : c.appInit.Awaits [] where
  isOpen := h
  appState := rfl
  socketState := rfl
  pos := rfl
  few := by simp
  kept := rfl

theorem appParked_tracks (h : c.tSocket.isOpen = true) :
    c.appParked.Tracks (.length []) := by
  rw [appParked]
  split_ifs
  · exact .inr ⟨rfl, h, .inr ⟨rfl, rfl, Nat.zero_le _⟩⟩
  · exact .inl (appInit_awaits h)

end TConnection

theorem TSocket.read_spec {s : TSocket} (hk : 0 < k) (hsize : 0 < size)
    (hincoming : s.incoming ≠ []) :
    s.read k size ≠ [] ∧ (s.read k size).length ≤ size ∧
      s.incoming = s.read k size ++ s.incoming.drop (s.read k size).length := by
  have hpos : 0 < s.incoming.length := length_pos_iff.mpr hincoming
  have hlength : (s.read k size).length = min (min k size) s.incoming.length := by
    rw [TSocket.read, length_take]
  refine ⟨length_pos_iff.mp (by omega), by omega, ?_⟩
  rw [hlength, TSocket.read, take_eq_take_min, take_append_drop]

namespace TConnection

theorem fetched_readWant (fetch : Bytes) (n : ℕ) (c : TConnection) :
    (c.fetched fetch n).readWant = n := rfl

theorem appReadFrameSize_eq (hopen : c.tSocket.isOpen = true) (hsized : c.Sized)
    (hpos : 0 < c.readWant) (hwant : c.readWant ≤ 2 ^ 31) :
    ∃ c', c.appReadFrameSize = .ok c' ∧ c'.tSocket = c.tSocket ∧ c'.handed = c.handed ∧ c'.Sized ∧
      c'.Fills c.readWant [] := by
  have hlength : c.readBuffer.length = 0 ∨ ∃ e ≤ 31, c.readBuffer.length = 2 ^ e :=
    hsized.imp_left fun h => by rw [h, length_nil]
  obtain ⟨newSize, heq, hle, hgrow, hsize⟩ := readBufferSizeFor_of_le hwant hlength
  have hnew : (c.readBuffer ++ List.replicate (newSize - c.readBuffer.length) 0).length =
      newSize := by
    rw [length_append, length_replicate]
    omega
  rw [appReadFrameSize, heq]
  refine ⟨_, rfl, rfl, rfl, ?_, hopen, rfl, rfl, rfl, rfl, hpos, rfl, ?_⟩
  · rw [← hnew] at hsize
    exact hsize.imp_left eq_nil_of_length_eq_zero
  · rw [hnew]
    exact hle

theorem appReadRequest_spec (c : TConnection) (hp : p.reply.isSome = true)
    (hopen : c.tSocket.isOpen = true) :
    (c.appReadRequest p).tSocket = c.tSocket ∧
      (c.appReadRequest p).handed = c.handed ++ [c.readBuffer.take c.readBufferPos] ∧
      (c.appReadRequest p).readBuffer = c.readBuffer ∧
      (c.appReadRequest p).Tracks (.length []) := by
  rw [appReadRequest, if_neg (by simp [← Option.isSome_iff_ne_none, hp])]
  split_ifs with hparked
  · exact ⟨rfl, rfl, rfl, .inr ⟨rfl, hopen, .inl (if_pos hparked)⟩⟩
  · have h := (c.processed p).appParked_kept
    refine ⟨h.tSocket, h.handed, ?_, appParked_tracks hopen⟩
    rw [appParked]
    split_ifs <;> rfl

theorem Awaits.work_eq (h : c.Awaits got) {fetch : Bytes}
    (hfetch : c.tSocket.read k (4 - got.length) = fetch) (hne : fetch ≠ []) :
    c.work server (some k) p =
      if got.length + fetch.length < 4 then
        .ok (c.fetched fetch (ofLE (got ++ fetch ++ (le32 c.readWant).drop (got ++ fetch).length)))
      else if server.maxFrameSize < ofBE (got ++ fetch) then
        .ok (c.fetched fetch (ofBE (got ++ fetch))).close
      else (c.fetched fetch (ofBE (got ++ fetch))).appReadFrameSize := by
  have hrecv : c.work server (some k) p =
      if (c.socketRecvFraming server (some k)).2 then
        (c.socketRecvFraming server (some k)).1.transition server p
      else .ok (c.socketRecvFraming server (some k)).1 := by
    rw [TConnection.work, workSocket, h.socketState]
    rfl
  rw [hrecv]
  simp only [socketRecvFraming, h.pos, hfetch, overwrite_of_take fetch h.kept,
    List.isEmpty_iff, if_neg hne]
  by_cases hlt : got.length + fetch.length < 4
  · simp only [if_pos hlt, Bool.false_eq_true, if_false]
  · have hdrop : (le32 c.readWant).drop (got ++ fetch).length = [] :=
      drop_eq_nil_of_le (by simp; omega)
    simp only [if_neg hlt, hdrop, append_nil]
    by_cases hmax : server.maxFrameSize < ofBE (got ++ fetch)
    · simp only [if_pos hmax, Bool.false_eq_true, if_false]
    · simp only [if_neg hmax, if_true, transition,
        show (c.fetched fetch (ofBE (got ++ fetch))).appState = .readFrameSize from h.appState]

/-- Bytes of a length are taken. -/
theorem Awaits.work (h : c.Awaits got) (hsized : c.Sized) (hk : 0 < k)
    (hincoming : c.tSocket.incoming ≠ [])
    (hstuck : (feedAll server.verdict ⟨c.handed, .length got⟩
      (c.tSocket.read k (4 - got.length))).reader ≠ .stuck) :
    ∃ c', c.work server (some k) p = .ok c' ∧
      c.Moves server (.length got) (c.tSocket.read k (4 - got.length)) c' := by
  have hfew := h.few
  obtain ⟨hne, hlength, hsplit⟩ := TSocket.read_spec hk (by omega : 0 < 4 - got.length) hincoming
  obtain ⟨fetch, hfetch⟩ : ∃ fetch, c.tSocket.read k (4 - got.length) = fetch := ⟨_, rfl⟩
  rw [h.work_eq rfl hne]
  rw [hfetch] at hne hlength hsplit hstuck ⊢
  by_cases hlt : got.length + fetch.length < 4
  · -- the bytes are kept for the next time
    rw [if_pos hlt]
    refine ⟨_, rfl, hsplit, hsized, .length (got ++ fetch), feedAll_length hlt, .inl ?_⟩
    refine ⟨h.isOpen, h.appState, h.socketState, ?_, by simpa using hlt, ?_⟩
    · rw [fetched, h.pos, length_append]
    · rw [fetched_readWant, le32_ofLE, take_left]
      rw [length_append, length_drop, length_append, length_le32]
      omega
  · have hfull : got.length + fetch.length = 4 := by omega
    have hfeed : feedAll server.verdict ⟨c.handed, .length got⟩ fetch = _ :=
      feedAll_length_end hfull hfew
    rw [hfeed, begin, Settings.verdict] at hstuck
    rw [begin, Settings.verdict] at hfeed
    rw [if_neg hlt]
    by_cases hmax : server.maxFrameSize < ofBE (got ++ fetch)
    · -- the frame is refused
      rw [if_pos hmax] at hfeed ⊢
      exact ⟨_, rfl, hsplit, hsized, .refused [], hfeed, rfl, rfl, h.appState⟩
    · rw [if_neg hmax] at hfeed hstuck ⊢
      by_cases hbad : ofBE (got ++ fetch) = 0 ∨ 2 ^ 31 < ofBE (got ++ fetch)
      · rw [if_pos hbad] at hstuck
        exact absurd rfl hstuck
      · -- a request of this length is read
        rw [if_neg hbad] at hfeed
        obtain ⟨c', heq, hsocket, hhanded, hsized', hfills⟩ :=
          (c.fetched fetch (ofBE (got ++ fetch))).appReadFrameSize_eq (h.isOpen) hsized
            (by rw [fetched_readWant]; omega)
            (by rw [fetched_readWant]; omega)
        refine ⟨c', heq, ?_, hsized', .body _ [], ?_, hfills⟩
        · rw [hsocket]
          exact hsplit
        · rw [hfeed, hhanded]
          rfl

/-- Bytes of a request are taken. -/
theorem Fills.work (h : c.Fills want got) (hsized : c.Sized) (hk : 0 < k)
    (hincoming : c.tSocket.incoming ≠ []) (hp : p.reply.isSome = true) :
    ∃ c', c.work server (some k) p = .ok c' ∧
      c.Moves server (.body want got) (c.tSocket.read k (want - got.length)) c' := by
  have hfew := h.few
  obtain ⟨hne, hlength, hsplit⟩ :=
    TSocket.read_spec hk (by omega : 0 < want - got.length) hincoming
  obtain ⟨chunk, hchunk⟩ : ∃ chunk, c.tSocket.read k (want - got.length) = chunk := ⟨_, rfl⟩
  rw [hchunk] at hne hlength hsplit ⊢
  have hbuffer : (c.received chunk).readBuffer =
      got ++ chunk ++ c.readBuffer.drop (got ++ chunk).length := by
    rw [received, h.pos, overwrite_of_take chunk h.kept]
  have hsize : (c.received chunk).readBuffer.length = c.readBuffer.length := by
    have hroom := h.room
    rw [hbuffer, length_append, length_drop, length_append]
    omega
  have hsized' : (c.received chunk).Sized :=
    hsized.imp (fun h => eq_nil_of_length_eq_zero (by rw [hsize, h, length_nil]))
      fun ⟨e, he, h⟩ => ⟨e, he, hsize.trans h⟩
  have hwork : c.work server (some k) p =
      if got.length + chunk.length == want then (c.received chunk).transition server p
      else .ok (c.received chunk) := by
    simp only [TConnection.work, workSocket, h.socketState, socketRecv,
      h.pos, h.readWant, hchunk, if_neg (by omega : ¬ want ≤ got.length), List.isEmpty_iff,
      if_neg hne, if_neg (by omega : ¬ want < got.length + chunk.length), bind, Except.bind]
  have hpos : (c.received chunk).readBufferPos = (got ++ chunk).length := by
    rw [received, h.pos, length_append]
  rcases Nat.lt_or_ge (got.length + chunk.length) want with hlt | hge
  · rw [if_neg (by simp; omega)] at hwork
    refine ⟨_, hwork, hsplit, hsized', .body want (got ++ chunk), feedAll_body hlt, ?_⟩
    refine ⟨h.isOpen, h.appState, h.socketState, h.readWant, hpos, by simpa using hlt, ?_, ?_⟩
    · rw [hbuffer, take_left]
    · rw [hsize]
      exact h.room
  · -- the request is complete and goes to the processor
    have hfull : got.length + chunk.length = want := by omega
    rw [if_pos (by simpa using hfull), transition,
      show (c.received chunk).appState = .readRequest from h.appState] at hwork
    have hbody : (c.received chunk).readBuffer.take (c.received chunk).readBufferPos =
        got ++ chunk := by
      rw [hpos, hbuffer, take_left]
    have hfeed : feedAll server.verdict ⟨c.handed, .body want got⟩ chunk = _ :=
      feedAll_body_end hfull hfew
    obtain ⟨hsocket, hhanded, hread, htracks⟩ :=
      (c.received chunk).appReadRequest_spec hp h.isOpen
    refine ⟨_, hwork, ?_, ?_, .length [], ?_, htracks⟩
    · rw [hsocket]
      exact hsplit
    · rw [Sized, hread]
      exact hsized'
    · rw [hfeed, hhanded, hbody]
      rfl

theorem work_send (hsocket : c.socketState = .send) (hstate : c.appState = .sendResult)
    (hle : c.writeBufferPos ≤ c.writeBuffer.length) :
    c.work server (some k) p =
      if c.writeBuffer.length ≤ c.writeBufferPos + k then
        .ok ((c.wrote (c.writeBuffer.drop c.writeBufferPos)).appSendResult server)
      else .ok (c.wrote ((c.writeBuffer.drop c.writeBufferPos).take k)) := by
  rcases Nat.lt_or_ge c.writeBufferPos c.writeBuffer.length with hlt | hge
  · obtain ⟨sent, hsent⟩ : ∃ sent, (c.writeBuffer.drop c.writeBufferPos).take k = sent := ⟨_, rfl⟩
    have hlength : sent.length = min k (c.writeBuffer.length - c.writeBufferPos) := by
      rw [← hsent, length_take, length_drop]
    have hwork : c.work server (some k) p =
        if c.writeBufferPos + sent.length == c.writeBuffer.length then
          (c.wrote sent).transition server p
        else .ok (c.wrote sent) := by
      simp only [work, workSocket, hsocket, socketSend, hsent,
        if_neg (Nat.not_lt.mpr hle), if_neg (Nat.ne_of_lt hlt),
        if_neg (by omega : ¬ c.writeBuffer.length < c.writeBufferPos + sent.length), bind,
        Except.bind]
    rw [hwork, hsent]
    by_cases hend : c.writeBuffer.length ≤ c.writeBufferPos + k
    · have hall : sent = c.writeBuffer.drop c.writeBufferPos := by
        rw [← hsent, take_of_length_le]
        rw [length_drop]
        omega
      rw [if_pos hend, if_pos (by simp; omega), transition,
        show (c.wrote sent).appState = .sendResult from hstate, hall]
    · rw [if_neg hend, if_neg (by simp; omega)]
  · have hend : c.writeBufferPos = c.writeBuffer.length := by omega
    have hwrote : c.wrote [] = c := by
      simp [wrote]
    rw [if_pos (by omega), drop_eq_nil_of_le hge, hwrote]
    simp only [work, workSocket, hsocket, socketSend, hend,
      Nat.lt_irrefl, if_false, if_true, bind, Except.bind, transition, hstate]

theorem appSendResult_awaits (server : Settings) (hopen : c.tSocket.isOpen = true) :
    (c.appSendResult server).Awaits [] ∧ c.Kept (c.appSendResult server) := by
  obtain ⟨c₁, heq, hkept⟩ := c.appSendResult_eq server
  rw [heq]
  exact ⟨appInit_awaits (by rw [hkept.tSocket, hopen]), hkept.identity, hkept.tSocket,
    hkept.handed, hkept.readBuffer⟩

theorem Answering.work (h : c.Answering) (hsized : c.Sized) (hstate : c.appState = .sendResult) :
    ∃ c', c.work server (some k) p = .ok c' ∧ c.Moves server (.length []) [] c' := by
  obtain ⟨-, hsocket, hle⟩ := h.state.resolve_left (by rw [hstate]; simp)
  rw [work_send hsocket hstate hle]
  split_ifs with hend
  · obtain ⟨c₁, hwrote⟩ : ∃ c₁, c.wrote (c.writeBuffer.drop c.writeBufferPos) = c₁ := ⟨_, rfl⟩
    have hsized₁ : c₁.Sized := hwrote ▸ hsized
    obtain ⟨hawaits, hkept⟩ := appSendResult_awaits (c := c₁) server (hwrote ▸ h.isOpen)
    rw [hwrote]
    refine ⟨_, rfl, ?_, hsized₁.of_kept hkept, .length [], ?_, .inl hawaits⟩
    · rw [hkept.tSocket, ← hwrote]
      rfl
    · rw [hkept.handed, ← hwrote]
      rfl
  · refine ⟨_, rfl, rfl, hsized, .length [], rfl, .inr ⟨rfl, h.isOpen, .inr ⟨hstate, hsocket, ?_⟩⟩⟩
    simp only [wrote, length_take, length_drop]
    omega

theorem Answering.unpark (h : c.Answering) (hsized : c.Sized) (hstate : c.appState = .parked)
    (data : Bytes) :
    (c.post data).transition server {} = .ok (c.post data).appParked ∧
      c.Moves server (.length []) [] (c.post data).appParked := by
  have hkept := (c.post data).appParked_kept
  refine ⟨?_, ?_, Sized.of_kept (c := c.post data) hsized hkept, .length [], ?_,
    appParked_tracks h.isOpen⟩
  · rw [transition, show (c.post data).appState = .parked from hstate]
  · rw [hkept.tSocket]
    rfl
  · rw [hkept.handed]
    rfl

/-- **One step**: the connection stays with the reader, unless that gets
stuck. If it is one of reading, bytes are read. -/
theorem Tracks.step {reader : Reader} {e : Happening} (h : c.Tracks reader) (hsized : c.Sized)
    (hallows : c.Allows e)
    (hstuck : ∀ chunk rest, c.tSocket.incoming = chunk ++ rest →
      (feedAll server.verdict ⟨c.handed, reader⟩ chunk).reader ≠ .stuck) :
    ∃ c' chunk, c.step server e = .ok c' ∧ c.Moves server reader chunk c' ∧
      (c.Reading → chunk ≠ []) := by
  cases reader with
  | length got =>
    rcases h with h | ⟨rfl, h⟩
    · cases e with
      | ready k p =>
        obtain ⟨-, -, ⟨-, hk, hincoming⟩ | hstate⟩ := hallows
        · have hfew := h.few
          obtain ⟨hne, -, hsplit⟩ :=
            TSocket.read_spec hk (by omega : 0 < 4 - got.length) hincoming
          obtain ⟨c', hwork, hmoves⟩ := h.work hsized hk hincoming (hstuck _ _ hsplit)
          exact ⟨c', _, hwork, hmoves, fun _ => hne⟩
        · exact absurd (h.appState.symm.trans hstate) (by simp)
      | unpark data => exact absurd (h.appState.symm.trans hallows) (by simp)
    · have hreading : ¬ c.Reading := by
        rcases h.state with hs | ⟨hs, -⟩ <;> simp [Reading, hs]
      cases e with
      | ready k p =>
        obtain ⟨-, -, ⟨hreads, -⟩ | hstate⟩ := hallows
        · exact absurd hreads hreading
        · obtain ⟨c', hwork, hmoves⟩ := h.work hsized hstate
          exact ⟨c', [], hwork, hmoves, fun hreads => absurd hreads hreading⟩
      | unpark data =>
        obtain ⟨heq, hmoves⟩ := h.unpark hsized hallows data
        exact ⟨_, [], heq, hmoves, fun hreads => absurd hreads hreading⟩
  | body want got =>
    cases e with
    | ready k p =>
      obtain ⟨-, hp, ⟨-, hk, hincoming⟩ | hstate⟩ := hallows
      · have hfew := h.few
        obtain ⟨hne, -, -⟩ := TSocket.read_spec hk (by omega : 0 < want - got.length) hincoming
        obtain ⟨c', hwork, hmoves⟩ := Fills.work h hsized hk hincoming hp
        exact ⟨c', _, hwork, hmoves, fun _ => hne⟩
      · exact absurd (h.appState.symm.trans hstate) (by simp)
    | unpark data => exact absurd (h.appState.symm.trans hallows) (by simp)
  | refused read =>
    obtain ⟨-, hclosed, hstate⟩ := h
    cases e with
    | ready k p => exact absurd (hclosed.symm.trans hallows.1) (by simp)
    | unpark data => exact absurd (hstate.symm.trans hallows) (by simp)
  | stuck => exact h.elim

/-! ### Runs -/

/-- The connection has read a part of the input and is where a reader of it
is. -/
structure Reads (server : Settings) (input : Bytes) (c : TConnection) : Prop where
  sized : c.Sized
  past : ∃ past reader, input = past ++ c.tSocket.incoming ∧
    feedAll server.verdict ⟨[], .length []⟩ past = ⟨c.handed, reader⟩ ∧ c.Tracks reader

end TConnection

def Readable (server : Settings) (input : Bytes) : Prop :=
  ∀ past rest, input = past ++ rest →
    (feedAll server.verdict ⟨[], .length []⟩ past).reader ≠ .stuck

theorem TConnection.Sized.opened_reads (h : c.Sized) (id : ℤ) (input : Bytes) :
    (c.opened id input).Reads server input where
  sized := h
  past := ⟨[], .length [], rfl, rfl, .inl (appInit_awaits rfl)⟩

theorem TConnection.Reads.of_moves {past chunk : Bytes} {reader : Reader}
    (hinput : input = past ++ c.tSocket.incoming)
    (hfeed : feedAll server.verdict ⟨[], .length []⟩ past = ⟨c.handed, reader⟩)
    (hmoves : c.Moves server reader chunk c') : c'.Reads server input := by
  obtain ⟨reader', hfeed', htracks'⟩ := hmoves.tracks
  refine ⟨hmoves.sized, past ++ chunk, reader', ?_, ?_, htracks'⟩
  · rw [hinput, hmoves.incoming, append_assoc]
  · rw [feedAll_append, hfeed, hfeed']

theorem TConnection.Reads.step {e : Happening} (h : c.Reads server input)
    (hinput : Readable server input) (hallows : c.Allows e) :
    ∃ c', c.step server e = .ok c' ∧ c'.Reads server input ∧
      (c.Reading → c'.tSocket.incoming.length < c.tSocket.incoming.length) := by
  obtain ⟨past, reader, hpast, hfeed, htracks⟩ := h.past
  have hstuck : ∀ chunk rest, c.tSocket.incoming = chunk ++ rest →
      (feedAll server.verdict ⟨c.handed, reader⟩ chunk).reader ≠ .stuck := by
    intro chunk rest hincoming
    rw [← hfeed, ← feedAll_append]
    exact hinput (past ++ chunk) rest (by rw [hpast, hincoming, append_assoc])
  obtain ⟨c', chunk, hstep, hmoves, hne⟩ := htracks.step h.sized hallows hstuck
  refine ⟨c', hstep, .of_moves hpast hfeed hmoves, fun hreading => ?_⟩
  have hpos := length_pos_iff.mpr (hne hreading)
  rw [hmoves.incoming, length_append]
  omega

/-- **A run**: the connection stays with the reader. -/
theorem Leads.reads {o : Except Fault TConnection} (h : Leads server c o)
    (hc : c.Reads server input) (hinput : Readable server input) :
    ∃ c', o = .ok c' ∧ c'.Reads server input := by
  induction h with
  | start => exact ⟨c, rfl, hc⟩
  | next _ hallows ih =>
    obtain ⟨c₁, heq, hc₁⟩ := ih
    obtain rfl := Except.ok.inj heq
    obtain ⟨c₂, hstep, hc₂, -⟩ := hc₁.step hinput hallows
    exact ⟨c₂, hstep, hc₂⟩

theorem TConnection.Answering.settles (h : c.Answering) (hsized : c.Sized) :
    ∃ c', Leads server c (.ok c') ∧ c'.Awaits [] ∧ c'.Sized ∧
      c'.tSocket.incoming = c.tSocket.incoming ∧ c'.handed = c.handed := by
  rcases h.state with hstate | ⟨hstate, hsocket, hle⟩
  · -- an empty answer: there is nothing to send
    have heq : (c.post []).transition server {} = _ := (h.unpark hsized hstate []).1
    have hinit : (c.post []).appParked = (c.post []).appInit := rfl
    rw [hinit] at heq
    refine ⟨_, ?_, appInit_awaits (c := c.post []) h.isOpen, hsized, rfl, rfl⟩
    rw [← heq]
    exact .next (e := .unpark []) .start hstate
  · obtain ⟨c₁, hwrote⟩ : ∃ c₁, c.wrote (c.writeBuffer.drop c.writeBufferPos) = c₁ := ⟨_, rfl⟩
    have hsized₁ : c₁.Sized := hwrote ▸ hsized
    obtain ⟨hawaits, hkept⟩ := appSendResult_awaits (c := c₁) server (hwrote ▸ h.isOpen)
    have heq : c.step server (.ready c.writeBuffer.length {}) = .ok (c₁.appSendResult server) := by
      rw [TConnection.step, work_send hsocket hstate hle, if_pos (by omega), hwrote]
    refine ⟨_, ?_, hawaits, hsized₁.of_kept hkept, ?_, ?_⟩
    · rw [← heq]
      exact .next .start ⟨h.isOpen, rfl, .inr hstate⟩
    · rw [hkept.tSocket, ← hwrote]
      rfl
    · rw [hkept.handed, ← hwrote]
      rfl

theorem TConnection.Reads.reading (h : c.Reads server input) (hopen : c.tSocket.isOpen = true) :
    ∃ c', Leads server c (.ok c') ∧ c'.Reads server input ∧ c'.Reading ∧
      c'.tSocket.isOpen = true ∧ c'.tSocket.incoming = c.tSocket.incoming := by
  obtain ⟨past, reader, hpast, hfeed, htracks⟩ := h.past
  cases reader with
  | length got =>
    rcases htracks with hawaits | ⟨rfl, hanswering⟩
    · exact ⟨c, .start, h, .inl hawaits.appState, hopen, rfl⟩
    · obtain ⟨c', hleads, hawaits, hsized, hincoming, hhanded⟩ := hanswering.settles h.sized
      refine ⟨c', hleads, ⟨hsized, past, .length [], ?_, ?_, .inl hawaits⟩, .inl hawaits.appState,
        hawaits.isOpen, hincoming⟩
      · rw [hincoming, hpast]
      · rw [hhanded, hfeed]
  | body want got => exact ⟨c, .start, h, .inr htracks.appState, hopen, rfl⟩
  | refused read => exact absurd (hopen.symm.trans htracks.2.1) (by simp)
  | stuck => exact htracks.elim

theorem TConnection.Reads.drains (hinput : Readable server input)
    (hopen : ∀ c : TConnection, c.Reads server input → c.tSocket.isOpen = true)
    (h : c.Reads server input) : ∃ c', Leads server c (.ok c') ∧ c'.tSocket.incoming = [] := by
  induction hn : c.tSocket.incoming.length using Nat.strong_induction_on generalizing c with
  | _ n ih =>
    by_cases hnil : c.tSocket.incoming = []
    · exact ⟨c, .start, hnil⟩
    · obtain ⟨c₁, hleads₁, hreads₁, hreading, hopen₁, hincoming⟩ := h.reading (hopen c h)
      have hallows : c₁.Allows (.ready 1 {}) :=
        ⟨hopen₁, rfl, .inl ⟨hreading, Nat.one_pos, hincoming ▸ hnil⟩⟩
      obtain ⟨c₂, hstep, hreads₂, hless⟩ := hreads₁.step hinput hallows
      have hlt : c₂.tSocket.incoming.length < n := by
        rw [← hn, ← hincoming]
        exact hless hreading
      obtain ⟨c', hleads', hdone⟩ := ih _ hlt hreads₂ rfl
      have hleads₂ : Leads server c (.ok c₂) := hstep ▸ .next hleads₁ hallows
      exact ⟨c', hleads₂.trans hleads', hdone⟩

theorem TSocket.read_append {s : TSocket} {bs : Bytes} (h : s.incoming = bs ++ rest) :
    s.read bs.length bs.length = bs := by
  rw [TSocket.read, h, Nat.min_self, take_left]

/-- One frame is read and handed over. -/
theorem TConnection.Awaits.frame (h : c.Awaits []) (hsized : c.Sized) {f : Bytes}
    (hf : server.verdict f.length = .taken) (hpos : 0 < f.length) (hlt : f.length < 2 ^ 32)
    (hincoming : c.tSocket.incoming = frame f ++ rest) :
    ∃ c', Leads server c (.ok c') ∧ c'.Awaits [] ∧ c'.Sized ∧ c'.tSocket.incoming = rest ∧
      c'.handed = c.handed ++ [f] := by
  rw [Lib.frame, append_assoc] at hincoming
  have hne : c.tSocket.incoming ≠ [] := by
    rw [hincoming]
    exact append_ne_nil_of_left_ne_nil (cons_ne_nil _ _) _
  have hbegin : feedAll server.verdict ⟨c.handed, .length []⟩ (be32 f.length) =
      ⟨c.handed, .body f.length []⟩ := by
    rw [feedAll_be32 hlt, Received.begin, hf]
  -- the length in one piece
  have hread : c.tSocket.read 4 (4 - ([] : Bytes).length) = be32 f.length :=
    TSocket.read_append hincoming
  obtain ⟨c₁, hwork₁, hmoves₁⟩ := h.work (p := {}) hsized (by omega : 0 < 4) hne
    (by rw [hread, hbegin]; simp)
  rw [hread] at hmoves₁
  obtain ⟨reader, hfeed₁, htracks₁⟩ := hmoves₁.tracks
  rw [hbegin, Received.mk.injEq] at hfeed₁
  obtain ⟨hhanded₁, rfl⟩ := hfeed₁
  have hincoming₁ : c₁.tSocket.incoming = f ++ rest :=
    append_cancel_left (hmoves₁.incoming.symm.trans hincoming)
  have hallows₁ : c.Allows (.ready 4 {}) :=
    ⟨h.isOpen, rfl, .inl ⟨.inl h.appState, by omega, hne⟩⟩
  have hleads₁ : Leads server c (.ok c₁) := hwork₁ ▸ .next .start hallows₁
  -- the body in one piece
  have hne₁ : c₁.tSocket.incoming ≠ [] := by
    rw [hincoming₁]
    exact append_ne_nil_of_left_ne_nil (length_pos_iff.mp hpos) _
  have hread₁ : c₁.tSocket.read f.length (f.length - ([] : Bytes).length) = f :=
    TSocket.read_append hincoming₁
  obtain ⟨c₂, hwork₂, hmoves₂⟩ := Fills.work (p := {}) htracks₁ hmoves₁.sized hpos hne₁ rfl
  rw [hread₁] at hmoves₂
  have hend : feedAll server.verdict ⟨c₁.handed, .body f.length []⟩ f =
      ⟨c₁.handed ++ [f], .length []⟩ := feedAll_body_end (by simp) hpos
  obtain ⟨reader, hfeed₂, htracks₂⟩ := hmoves₂.tracks
  rw [hend, Received.mk.injEq] at hfeed₂
  obtain ⟨hhanded₂, rfl⟩ := hfeed₂
  have hincoming₂ : c₂.tSocket.incoming = rest :=
    append_cancel_left (hmoves₂.incoming.symm.trans hincoming₁)
  have hallows₂ : c₁.Allows (.ready f.length {}) :=
    ⟨htracks₁.isOpen, rfl, .inl ⟨.inr htracks₁.appState, hpos, hne₁⟩⟩
  have hleads₂ : Leads server c (.ok c₂) := hwork₂ ▸ .next hleads₁ hallows₂
  rcases htracks₂ with hawaits | ⟨-, hanswering⟩
  · exact ⟨c₂, hleads₂, hawaits, hmoves₂.sized, hincoming₂, by rw [← hhanded₂, ← hhanded₁]⟩
  · obtain ⟨c₃, hleads₃, hawaits, hsized₃, hincoming₃, hhanded₃⟩ :=
      hanswering.settles hmoves₂.sized
    exact ⟨c₃, hleads₂.trans hleads₃, hawaits, hsized₃, hincoming₃.trans hincoming₂,
      by rw [hhanded₃, ← hhanded₂, ← hhanded₁]⟩

theorem TConnection.Awaits.frames (h : c.Awaits []) (hsized : c.Sized) {fs : List Bytes}
    (hfs : ∀ f ∈ fs, server.verdict f.length = .taken ∧ 0 < f.length ∧
      f.length < 2 ^ 32) (hincoming : c.tSocket.incoming = stream fs ++ rest) :
    ∃ c', Leads server c (.ok c') ∧ c'.Awaits [] ∧ c'.Sized ∧ c'.tSocket.incoming = rest ∧
      c'.handed = c.handed ++ fs := by
  induction fs generalizing c with
  | nil => exact ⟨c, .start, h, hsized, hincoming, (append_nil _).symm⟩
  | cons f fs ih =>
    rw [stream, flatMap_cons, append_assoc] at hincoming
    obtain ⟨hf, hpos, hlt⟩ := hfs f mem_cons_self
    obtain ⟨c₁, hleads₁, hawaits₁, hsized₁, hincoming₁, hhanded₁⟩ :=
      h.frame hsized hf hpos hlt hincoming
    obtain ⟨c₂, hleads₂, hawaits₂, hsized₂, hincoming₂, hhanded₂⟩ :=
      ih hawaits₁ hsized₁ (fun g hg => hfs g (mem_cons_of_mem _ hg)) hincoming₁
    refine ⟨c₂, hleads₁.trans hleads₂, hawaits₂, hsized₂, hincoming₂, ?_⟩
    rw [hhanded₂, hhanded₁, append_assoc, singleton_append]

end Steps

/-! ### Reassembling frames -/

/-- **The connection reassembles the frames**, in whatever pieces they come and
whatever the processor does about them: no assertion fails, the connection
stays open, the processor gets the bodies in their order, and all of them once
all has been read, which can be reached from anywhere. When the length of
a frame above the maximum follows, the connection is closed before any of
its body is read. -/
structure Reassembles (server : Settings) (frames : List Bytes) : Prop where
  reads : ∀ (c : TConnection) (id : ℤ) (o : Except Fault TConnection), c.Sized →
    Leads server (c.opened id (stream frames)) o →
    ∃ c', o = .ok c' ∧ c'.tSocket.isOpen = true ∧ c'.handed <+: frames ∧
      (c'.tSocket.incoming = [] → c'.handed = frames) ∧
      ∃ c'', Leads server c' (.ok c'') ∧ c''.tSocket.incoming = []
  refuses : ∀ (c : TConnection) (id : ℤ) (o : Except Fault TConnection) (n : ℕ) (body : Bytes),
    c.Sized → server.maxFrameSize < n → n < 2 ^ 32 →
    Leads server (c.opened id (stream frames ++ be32 n ++ body)) o →
    ∃ c', o = .ok c' ∧ c'.handed <+: frames ∧ body <:+ c'.tSocket.incoming ∧
      (c'.tSocket.isOpen = false ↔ c'.tSocket.incoming = body) ∧
      (c'.tSocket.isOpen = false → c'.handed = frames)

section Frames

variable {server : Settings} {frames : List Bytes}

theorem Settings.verdict_eq_taken {n : ℕ} (hmax : n ≤ server.maxFrameSize) (hpos : 0 < n)
    (hle : n ≤ 2 ^ 31) : server.verdict n = .taken := by
  rw [Settings.verdict, if_neg (by omega), if_neg (by omega)]

theorem readable_of_feedAll (h : (feedAll server.verdict ⟨[], .length []⟩ input).reader ≠ .stuck) :
    Readable server input := by
  rintro past rest rfl hstuck
  rw [feedAll_append] at h
  obtain ⟨⟨frames, reader⟩, hpast⟩ : ∃ r, feedAll server.verdict ⟨[], .length []⟩ past = r :=
    ⟨_, rfl⟩
  rw [hpast] at h hstuck
  obtain rfl : reader = .stuck := hstuck
  exact h (by rw [feedAll_stuck])

theorem prefix_of_feedAll {past : Bytes} {received whole : Received}
    (hpast : feedAll server.verdict ⟨[], .length []⟩ past = received)
    (hwhole : feedAll server.verdict ⟨[], .length []⟩ (past ++ rest) = whole) :
    received.frames <+: whole.frames := by
  rw [feedAll_append, hpast] at hwhole
  rw [← hwhole]
  exact frames_prefix received rest

/-- Frames of the right lengths are handed over one by one. -/
theorem reassembles_of_lengths
    (h : ∀ f ∈ frames, f.length ≤ server.maxFrameSize ∧ f ≠ [] ∧ f.length ≤ 2 ^ 31) :
    Reassembles server frames := by
  have hstream : feedAll server.verdict ⟨[], .length []⟩ (stream frames) =
      ⟨frames, .length []⟩ := by
    refine feedAll_stream fun f hf => ?_
    obtain ⟨hmax, hne, hle⟩ := h f hf
    exact ⟨hne, by omega, Settings.verdict_eq_taken hmax (length_pos_iff.mpr hne) hle⟩
  constructor
  · intro c id o hsized hleads
    have hinput : Readable server (stream frames) :=
      readable_of_feedAll (by rw [hstream]; simp)
    have hopen : ∀ c : TConnection, c.Reads server (stream frames) → c.tSocket.isOpen = true := by
      intro c hreads
      obtain ⟨past, reader, hpast, hfeed, htracks⟩ := hreads.past
      cases reader with
      | length got => exact htracks.elim (·.isOpen) (·.2.isOpen)
      | body want got => exact htracks.isOpen
      | refused read =>
        rw [hpast, feedAll_append, hfeed, feedAll_refused] at hstream
        simp at hstream
      | stuck => exact htracks.elim
    obtain ⟨c', rfl, hreads⟩ := hleads.reads (hsized.opened_reads id _) hinput
    obtain ⟨past, reader, hpast, hfeed, -⟩ := hreads.past
    refine ⟨c', rfl, hopen c' hreads, prefix_of_feedAll hfeed (hpast ▸ hstream), ?_,
      hreads.drains hinput hopen⟩
    intro hnil
    rw [hnil, append_nil] at hpast
    rw [hpast, hfeed, mk.injEq] at hstream
    exact hstream.1
  · intro c id o n body hsized hmax hlt hleads
    have hlength : feedAll server.verdict ⟨[], .length []⟩ (stream frames ++ be32 n) =
        ⟨frames, .refused []⟩ := by
      rw [feedAll_append, hstream, feedAll_be32 hlt, begin, Settings.verdict, if_pos hmax]
    have hinput : Readable server (stream frames ++ be32 n ++ body) :=
      readable_of_feedAll (by rw [feedAll_append, hlength, feedAll_refused]; simp)
    obtain ⟨c', rfl, hreads⟩ := hleads.reads (hsized.opened_reads id _) hinput
    obtain ⟨past, reader, hpast, hfeed, htracks⟩ := hreads.past
    refine ⟨c', rfl, ?_⟩
    rcases append_eq_append_iff.mp hpast with ⟨x, rfl, hbody⟩ | ⟨x, hx, hincoming⟩
    · -- all of the length has been read, and nothing else
      rw [feedAll_append, hlength, feedAll_refused, mk.injEq] at hfeed
      obtain ⟨hhanded, rfl⟩ := hfeed
      obtain ⟨hnil, hclosed, -⟩ := htracks
      rw [nil_append] at hnil
      rw [hnil, nil_append] at hbody
      rw [← hhanded, hbody]
      exact ⟨prefix_rfl, suffix_rfl, ⟨fun _ => rfl, fun _ => hclosed⟩, fun _ => rfl⟩
    · -- a part of the length is left
      have hhanded : c'.handed <+: frames := prefix_of_feedAll hfeed (hx ▸ hlength)
      rw [hx, feedAll_append, hfeed] at hlength
      refine ⟨hhanded, hincoming ▸ suffix_append _ _, ?_⟩
      have hclosed : c'.tSocket.isOpen = false ↔ x = [] := by
        cases reader with
        | length got =>
          have hopen : c'.tSocket.isOpen = true := htracks.elim (·.isOpen) (·.2.isOpen)
          refine ⟨fun h => by simp [hopen] at h, ?_⟩
          rintro rfl
          simp [feedAll] at hlength
        | body want got =>
          have hopen : c'.tSocket.isOpen = true := htracks.isOpen
          refine ⟨fun h => by simp [hopen] at h, ?_⟩
          rintro rfl
          simp [feedAll] at hlength
        | refused read =>
          rw [feedAll_refused, mk.injEq, Reader.refused.injEq,
            append_eq_nil_iff] at hlength
          exact ⟨fun _ => hlength.2.2, fun _ => htracks.2.1⟩
        | stuck => exact htracks.elim
      rw [hclosed, hincoming, append_left_eq_self]
      refine ⟨Iff.rfl, ?_⟩
      rintro rfl
      simp only [feedAll, foldl_nil, mk.injEq] at hlength
      exact hlength.1

theorem TConnection.Awaits.empty (h : c.Awaits [])
    (hincoming : c.tSocket.incoming = be32 0 ++ rest) :
    ∃ c', Leads server c (.ok c') ∧ c'.handed = c.handed ∧ c'.tSocket.incoming = rest ∧
      (rest ≠ [] → Leads server c (.error .assertion)) := by
  have hread : c.tSocket.read 4 (4 - ([] : Bytes).length) = be32 0 := TSocket.read_append hincoming
  have hne : c.tSocket.incoming ≠ [] := by
    rw [hincoming]
    exact append_ne_nil_of_left_ne_nil (cons_ne_nil _ _) _
  have hallows : c.Allows (.ready 4 {}) :=
    ⟨h.isOpen, rfl, .inl ⟨.inl h.appState, by omega, hne⟩⟩
  obtain ⟨c', hc'⟩ : ∃ c', c' = { c.fetched (be32 0) 0 with
      readBuffer := c.readBuffer ++ List.replicate (c.readBuffer.length - c.readBuffer.length) 0
      readBufferPos := 0
      socketState := .recv
      appState := .readRequest } := ⟨_, rfl⟩
  have hstep : c.step server (.ready 4 {}) = .ok c' := by
    rw [TConnection.step, h.work_eq hread (cons_ne_nil _ _), if_neg (by simp),
      nil_append, ofBE_be32 (by omega), if_neg (Nat.not_lt_zero _), hc']
    rfl
  have hleads : Leads server c (.ok c') := hstep ▸ .next .start hallows
  have hrest : c'.tSocket.incoming = rest := by
    rw [hc']
    exact (congrArg (List.drop 4) hincoming).trans rfl
  refine ⟨c', hleads, by rw [hc']; rfl, hrest, fun hne' => ?_⟩
  have hallows' : c'.Allows (.ready 1 {}) :=
    ⟨by rw [hc']; exact h.isOpen, rfl, .inl ⟨.inr (by rw [hc']), by omega, hrest ▸ hne'⟩⟩
  have hfails : c'.step server (.ready 1 {}) = .error .assertion := by
    rw [hc']
    rfl
  exact hfails ▸ .next hleads hallows'

theorem TConnection.Awaits.giant (h : c.Awaits []) (hsized : c.Sized) {n : ℕ} (hn : 2 ^ 31 < n)
    (hlt : n < 2 ^ 32) (hmax : n ≤ server.maxFrameSize)
    (hincoming : c.tSocket.incoming = be32 n ++ rest) : Leads server c (.error .endless) := by
  have hread : c.tSocket.read 4 (4 - ([] : Bytes).length) = be32 n := TSocket.read_append hincoming
  have hne : c.tSocket.incoming ≠ [] := by
    rw [hincoming]
    exact append_ne_nil_of_left_ne_nil (cons_ne_nil _ _) _
  have hallows : c.Allows (.ready 4 {}) :=
    ⟨h.isOpen, rfl, .inl ⟨.inl h.appState, by omega, hne⟩⟩
  have hlength : c.readBuffer.length = 0 ∨ ∃ e ≤ 31, c.readBuffer.length = 2 ^ e :=
    hsized.imp_left fun h => by rw [h, length_nil]
  have hstep : c.step server (.ready 4 {}) = .error .endless := by
    rw [TConnection.step, h.work_eq hread (cons_ne_nil _ _), if_neg (by simp),
      nil_append, ofBE_be32 hlt, if_neg (by omega), TConnection.appReadFrameSize,
      TConnection.fetched_readWant]
    have hnone : readBufferSizeFor n (c.fetched (be32 n) n).readBuffer.length = none :=
      readBufferSizeFor_none hn hlength
    rw [hnone]
  exact hstep ▸ .next .start hallows

/-- A frame that is handed over has a right length. -/
theorem Reassembles.usable {done todo : List Bytes} {b : Bytes}
    (h : Reassembles server (done ++ b :: todo))
    (hmax : ∀ f ∈ done ++ b :: todo, f.length ≤ server.maxFrameSize ∧ f.length < 2 ^ 32)
    (hdone : ∀ f ∈ done, f ≠ [] ∧ f.length ≤ 2 ^ 31) : b ≠ [] ∧ b.length ≤ 2 ^ 31 := by
  have hsized : TConnection.new.Sized := .inl rfl
  have hstream : stream (done ++ b :: todo) =
      stream done ++ (be32 b.length ++ (b ++ stream todo)) := by
    simp [stream, frame]
  have hstart : (TConnection.new.opened 1 (stream (done ++ b :: todo))).Awaits [] :=
    TConnection.appInit_awaits rfl
  -- the frames before it are read
  obtain ⟨c, hleads, hawaits, hsized', hincoming, hhanded⟩ :=
    hstart.frames hsized (fun f hf => by
      obtain ⟨hne, hle⟩ := hdone f hf
      obtain ⟨hmax, hlt⟩ := hmax f (mem_append_left _ hf)
      have hpos := length_pos_iff.mpr hne
      exact ⟨Settings.verdict_eq_taken hmax hpos hle, hpos, hlt⟩) hstream
  have hnever : ∀ e, ¬ Leads server c (.error e) := by
    intro e he
    obtain ⟨c', heq, -⟩ := h.reads _ 1 _ hsized (hleads.trans he)
    cases heq
  constructor
  · rintro rfl
    obtain ⟨c', hleads', hhanded', hincoming', hfails⟩ := hawaits.empty hincoming
    by_cases hrest : stream todo = []
    · obtain ⟨c'', heq, -, -, hall, -⟩ := h.reads _ 1 _ hsized (hleads.trans hleads')
      obtain rfl := Except.ok.inj heq
      have hlength := congrArg List.length (hall (hincoming'.trans hrest))
      rw [hhanded', hhanded, length_append, length_append] at hlength
      simp [TConnection.opened, TConnection.appInit, TConnection.init] at hlength
    · exact hnever _ (hfails hrest)
  · by_contra hle
    obtain ⟨hmax, hlt⟩ := hmax b (by simp)
    exact hnever _ (hawaits.giant hsized' (by omega) hlt hmax hincoming)

/-- **Frame reassembly**: frames of lengths that are not refused are reassembled
if and only if none is empty and none has more than `2 ^ 31` bytes. -/
theorem reassembles_iff (hmax : ∀ f ∈ frames, f.length ≤ server.maxFrameSize)
    (hlt : ∀ f ∈ frames, f.length < 2 ^ 32) :
    Reassembles server frames ↔ ∀ f ∈ frames, f ≠ [] ∧ f.length ≤ 2 ^ 31 := by
  constructor
  · intro h
    -- frame by frame, with those before it known to be usable
    suffices hall : ∀ todo done : List Bytes, frames = done ++ todo →
        (∀ f ∈ done, f ≠ [] ∧ f.length ≤ 2 ^ 31) → ∀ f ∈ todo, f ≠ [] ∧ f.length ≤ 2 ^ 31 from
      hall frames [] rfl (by simp)
    intro todo
    induction todo with
    | nil => simp
    | cons b todo ih =>
      rintro done rfl hdone
      have hb := h.usable (fun f hf => ⟨hmax f hf, hlt f hf⟩) hdone
      have hrest := ih (done ++ [b]) (by simp) (by
        rw [forall_mem_append]
        exact ⟨hdone, by simpa using hb⟩)
      exact forall_mem_cons.mpr ⟨hb, hrest⟩
  · intro h
    exact reassembles_of_lengths fun f hf => ⟨hmax f hf, h f hf⟩

/-- A request of three bytes and one of one, with the settings of the server. -/
theorem reassembles_iff_two : Reassembles {} [[1, 2, 3], [4]] :=
  (reassembles_iff (by decide) (by decide)).mpr (by decide)

/-- A request without bytes and another one: the assertion fails. -/
theorem emptyFrame_fails : ¬ Reassembles {} [[], [7]] ∧
    (do
      let c ← (TConnection.new.opened 1 (stream [[], [7]])).step {} (.ready 4 {})
      c.step {} (.ready 4 {})) = .error .assertion := by
  refine ⟨fun h => ?_, by decide⟩
  have h : Reassembles {} ([] ++ [] :: [[7]]) := h
  exact (h.usable (by decide) (by simp)).1 rfl

end Frames

end Fastore.Server
