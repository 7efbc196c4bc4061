import Fastore.Hive.Prepare

/-!
The service of a host, and how it joins a hive.

A service that has not joined answers every question for its state with the
number of workers it could have. `init` makes it a member of a new hive: it
enters the hosts of the topology, in the order of their IDs, with their
addresses into the hive state; for its own host it makes up the workers. A
host without an address ends this with an exception.

The hive state is installed before the first host is looked at. So whenever
`init` throws for a host without an address, the service has joined all the
same (`init_throws`), and it refuses every later `init` (`refuses_ever_after`).
The failure is atomic if and only if it does not happen (`init_atomic_iff`).
-/

namespace Fastore.Service

open Lib Hive

abbrev HostID := ℕ

abbrev TopologyID := ℕ

inductive Fault
  | alreadyJoined
  | notJoined (potentialWorkers : ℤ)
  | runtimeError (message : String)
  /-- The end of a map is read as an entry. -/
  | pastEnd
  deriving DecidableEq, Repr

/-! ### States -/

structure NetworkAddress where
  name : String := ""
  port : ℤ := 0
  deriving DecidableEq, Repr

structure WorkerState where
  podID : PodID
  repositoryStatus : SortedMap ColumnID RepositoryStatus
  port : ℤ

structure StoreState where
  port : ℤ

inductive ServiceStatus
  | unknown
  | offline
  | online
  | unreachable
  deriving DecidableEq, Repr

structure ServiceState where
  status : ServiceStatus
  timeStamp : ℤ
  address : NetworkAddress
  workers : List WorkerState
  store : StoreState

structure HiveState where
  topologyID : TopologyID
  services : SortedMap HostID ServiceState
  reportingHostID : HostID

/-- `Host`, without its stashes. -/
structure Host where
  pods : SortedMap PodID (List ColumnID)

structure Topology where
  topologyID : TopologyID
  hosts : SortedMap HostID Host

abbrev HostAddresses := SortedMap HostID NetworkAddress

/-- `ServiceConfig`. The address has a value also when it was not given. -/
structure ServiceConfig where
  path : String
  address : NetworkAddress := {}
  addressIsSet : Bool := false
  joinedHive : Option HiveState := none

structure Scheduler where
  address : NetworkAddress
  hostID : HostID
  started : Bool

structure Store where
  path : String
  port : ℤ

structure Worker where
  podID : PodID
  port : ℤ

structure ServiceHandler where
  config : ServiceConfig
  hiveState : Option HiveState := none
  scheduler : Option Scheduler := none
  store : Option Store := none
  workers : List Worker := []

structure OptionalServiceState where
  serviceState : Option ServiceState := none
  potentialWorkers : Option ℤ := none

structure OptionalHiveState where
  hiveState : Option HiveState := none
  potentialWorkers : Option ℤ := none

def getRecommendedWorkerCount (hardwareConcurrency : ℕ) : ℤ := max 1 ((hardwareConcurrency : ℤ) - 1)

/-! ### `init` -/

/-- The states of the workers of a host; the first port is that of the service, the second
one that of the store. -/
def workerStates (port : ℤ) : ℤ → List (PodID × List ColumnID) → List WorkerState
  | _, [] => []
  | workerIndex, pod :: pods =>
    ⟨pod.1, pod.2.foldl (fun status column => insertNew status column .online) .empty,
      port + workerIndex + 1⟩ :: workerStates port (workerIndex + 1) pods

structure SetUp where
  hive : HiveState
  config : ServiceConfig
  result : ServiceState

def HiveState.enter (hive : HiveState) (id : HostID) (state : ServiceState) : HiveState :=
  { hive with services := insertNew hive.services id state }

/-- The loop body of `init`, for a host with an address. -/
def SetUp.host (hostID : HostID) (now : ℤ) (s : SetUp) (id : HostID) (host : Host)
    (address : NetworkAddress) : SetUp :=
  if id = hostID then
    -- the ports of the workers are counted from the address before it is set
    let state : ServiceState :=
      ⟨.online, now, address, workerStates s.config.address.port 1 host.pods.entries,
        ⟨address.port + 1⟩⟩
    { hive := s.hive.enter id state
      config := if s.config.addressIsSet then s.config
        else { s.config with address := address, addressIsSet := true }
      result := state }
  else
    { s with hive := s.hive.enter id ⟨.unknown, 0, address, [], ⟨address.port + 1⟩⟩ }

def missingAddress (id : HostID) : Fault :=
  .runtimeError s!"An address has not been given for host ({id})."

/-- The loop of `init` over the hosts, with what it leaves also when it throws. -/
def setUpHosts (addresses : HostAddresses) (hostID : HostID) (now : ℤ) :
    List (HostID × Host) → SetUp → Except Fault Unit × SetUp
  | [], s => (.ok (), s)
  | (id, host) :: hosts, s =>
    match addresses.get? id with
    | none => (.error (missingAddress id), s)
    | some address => setUpHosts addresses hostID now hosts (s.host hostID now id host address)

namespace ServiceHandler

def checkNotInHive (h : ServiceHandler) : Except Fault Unit :=
  if h.hiveState.isSome then .error .alreadyJoined else .ok ()

def initializeWorkers (h : ServiceHandler) (states : List WorkerState) : ServiceHandler :=
  { h with workers := h.workers ++ states.map fun state => ⟨state.podID, state.port⟩ }

def initializeStore (h : ServiceHandler) (store : StoreState) : ServiceHandler :=
  { h with store := some ⟨h.config.path, store.port⟩ }

def start (h : ServiceHandler) (s : SetUp) : ServiceHandler :=
  let config := { s.config with joinedHive := some s.hive }
  let h := { h with hiveState := some s.hive, config := config }
  let h := (h.initializeStore s.result.store).initializeWorkers s.result.workers
  { h with scheduler := some ⟨config.address, s.hive.reportingHostID, true⟩ }

/-- `ServiceHandler::init`, with the handler it leaves also when it throws. -/
def init (h : ServiceHandler) (result : ServiceState) (topology : Topology)
    (addresses : HostAddresses) (hostID : HostID) (now : ℤ) :
    Except Fault ServiceState × ServiceHandler :=
  match h.checkNotInHive with
  | .error fault => (.error fault, h)
  | .ok () =>
    let hive : HiveState := ⟨topology.topologyID, .empty, hostID⟩
    match setUpHosts addresses hostID now topology.hosts.entries ⟨hive, h.config, result⟩ with
    | (.error fault, s) =>
      (.error fault, { h with hiveState := some s.hive, config := s.config })
    | (.ok (), s) => (.ok s.result, h.start s)

/-! ### Questions for the state -/

/-- What a worker says of itself when it is asked at its address, or what is entered for it
when it cannot be asked. -/
def askWorker (answer : String → ℤ → Option WorkerState) (name : String) (worker : WorkerState) :
    WorkerState :=
  match answer name worker.port with
  | some state => { state with port := worker.port }
  | none => ⟨worker.podID, .empty, worker.port⟩

/-- `getState`; `answer` is what a worker at an address and a port answers, if it does. -/
def getState (h : ServiceHandler) (hardwareConcurrency : ℕ) (now : ℤ)
    (answer : String → ℤ → Option WorkerState) : Except Fault OptionalServiceState :=
  match h.hiveState with
  | none => .ok { potentialWorkers := some (getRecommendedWorkerCount hardwareConcurrency) }
  | some hive =>
    match hive.services.get? hive.reportingHostID with
    | none => .error .pastEnd
    | some current => .ok { serviceState := some ⟨.online, now, current.address,
        current.workers.map (askWorker answer current.address.name), current.store⟩ }

def getHiveState (h : ServiceHandler) (forceUpdate : Bool) (hardwareConcurrency : ℕ) (now : ℤ)
    (answer : String → ℤ → Option WorkerState) : Except Fault OptionalHiveState × ServiceHandler :=
  match h.hiveState with
  | none => (.ok { potentialWorkers := some (getRecommendedWorkerCount hardwareConcurrency) }, h)
  | some hive =>
    if forceUpdate then
      match h.getState hardwareConcurrency now answer with
      | .error fault => (.error fault, h)
      | .ok state =>
        let hive := match state.serviceState with
          | some service =>
            { hive with services := hive.services.insert hive.reportingHostID service }
          | none => hive
        (.ok { hiveState := some hive }, { h with hiveState := some hive })
    else (.ok { hiveState := some hive }, h)

end ServiceHandler

/-! ### What a failed `init` leaves -/

def Complete (topology : Topology) (addresses : HostAddresses) : Prop :=
  ∀ id ∈ topology.hosts.keys, id ∈ addresses.keys

instance (topology : Topology) (addresses : HostAddresses) :
    Decidable (Complete topology addresses) := List.decidableBAll ..

structure AnswersUnjoined (h : ServiceHandler) : Prop where
  init : ∀ result topology addresses hostID now, Complete topology addresses →
    (h.init result topology addresses hostID now).1 ≠ .error .alreadyJoined
  getState : ∀ cores now answer, h.getState cores now answer =
    .ok { potentialWorkers := some (getRecommendedWorkerCount cores) }
  getHiveState : ∀ forceUpdate cores now answer,
    (h.getHiveState forceUpdate cores now answer).1 =
      .ok { potentialWorkers := some (getRecommendedWorkerCount cores) }

/-- If `init` throws because a host has no address, the service has not joined. -/
def FailsAtomically (h : ServiceHandler) (result : ServiceState) (topology : Topology)
    (addresses : HostAddresses) (hostID : HostID) (now : ℤ) : Prop :=
  ∀ id h', h.init result topology addresses hostID now = (.error (missingAddress id), h') →
    h'.hiveState = h.hiveState ∧ h'.config = h.config ∧ AnswersUnjoined h'

variable {h : ServiceHandler} {result : ServiceState} {topology : Topology}
  {addresses : HostAddresses} {hostID : HostID} {now : ℤ} {s : SetUp}

def SetUp.hosts (addresses : HostAddresses) (hostID : HostID) (now : ℤ) (s : SetUp)
    (hosts : List (HostID × Host)) : SetUp :=
  hosts.foldl (fun s host => s.host hostID now host.1 host.2 ((addresses.get? host.1).getD {})) s

theorem setUpHosts_append (hostID : HostID) (now : ℤ) {done : List (HostID × Host)}
    (hdone : ∀ host ∈ done, host.1 ∈ addresses.keys) (rest : List (HostID × Host)) (s : SetUp) :
    setUpHosts addresses hostID now (done ++ rest) s =
      setUpHosts addresses hostID now rest (s.hosts addresses hostID now done) := by
  induction done generalizing s with
  | nil => rfl
  | cons host done ih =>
    obtain ⟨address, haddress⟩ := SortedMap.mem_keys.mp (hdone host (by simp))
    simp only [List.cons_append, setUpHosts, haddress]
    rw [ih fun other hother => hdone other (by simp [hother])]
    simp only [SetUp.hosts, List.foldl_cons, haddress, Option.getD_some]

theorem setUpHosts_complete (hostID : HostID) (now : ℤ) (hcomplete : Complete topology addresses)
    (s : SetUp) :
    setUpHosts addresses hostID now topology.hosts.entries s =
      (.ok (), s.hosts addresses hostID now topology.hosts.entries) := by
  have hdone : ∀ host ∈ topology.hosts.entries, host.1 ∈ addresses.keys := fun host hhost =>
    hcomplete host.1 (List.mem_map_of_mem hhost)
  simpa [setUpHosts] using setUpHosts_append hostID now hdone [] s

theorem exists_missing (hmissing : ¬ Complete topology addresses) :
    ∃ done id host rest, topology.hosts.entries = done ++ (id, host) :: rest ∧
      (∀ other ∈ done, other.1 ∈ addresses.keys) ∧ addresses.get? id = none := by
  have hsplit : ∀ hosts : List (HostID × Host), (¬ ∀ host ∈ hosts, host.1 ∈ addresses.keys) →
      ∃ done id host rest, hosts = done ++ (id, host) :: rest ∧
        (∀ other ∈ done, other.1 ∈ addresses.keys) ∧ addresses.get? id = none := by
    intro hosts
    induction hosts with
    | nil => simp
    | cons first hosts ih =>
      intro hnot
      by_cases hfirst : first.1 ∈ addresses.keys
      · obtain ⟨done, id, host, rest, hhosts, hdone, hid⟩ :=
          ih fun hall => hnot (by simpa [hfirst] using hall)
        exact ⟨first :: done, id, host, rest, by rw [hhosts, List.cons_append],
          by simpa [hfirst] using hdone, hid⟩
      · exact ⟨[], first.1, first.2, hosts, rfl, by simp, SortedMap.get?_eq_none.mpr hfirst⟩
  refine hsplit _ fun hall => hmissing fun id hid => ?_
  obtain ⟨host, hhost, rfl⟩ := List.mem_map.mp hid
  exact hall host hhost

/-- The handler after an `init` that has set up the hosts `done` and then met one without an
address. -/
def leftAfter (h : ServiceHandler) (result : ServiceState) (topology : Topology)
    (addresses : HostAddresses) (hostID : HostID) (now : ℤ) (done : List (HostID × Host)) :
    ServiceHandler :=
  let s := SetUp.hosts addresses hostID now
    ⟨⟨topology.topologyID, .empty, hostID⟩, h.config, result⟩ done
  { h with hiveState := some s.hive, config := s.config }

theorem init_throws {done rest : List (HostID × Host)} {id : HostID} {host : Host}
    (hjoined : h.hiveState = none) (hhosts : topology.hosts.entries = done ++ (id, host) :: rest)
    (hdone : ∀ other ∈ done, other.1 ∈ addresses.keys) (hid : addresses.get? id = none) :
    h.init result topology addresses hostID now = (.error (missingAddress id),
      leftAfter h result topology addresses hostID now done) := by
  simp only [ServiceHandler.init, ServiceHandler.checkNotInHive, hjoined, Option.isSome_none,
    Bool.false_eq_true, if_false, hhosts, setUpHosts_append hostID now hdone, setUpHosts, hid,
    leftAfter]

theorem init_complete (result : ServiceState) (hostID : HostID) (now : ℤ)
    (hjoined : h.hiveState = none) (hcomplete : Complete topology addresses) :
    ∃ state h', h.init result topology addresses hostID now = (.ok state, h') := by
  simp only [ServiceHandler.init, ServiceHandler.checkNotInHive, hjoined, Option.isSome_none,
    Bool.false_eq_true, if_false, setUpHosts_complete hostID now hcomplete]
  exact ⟨_, _, rfl⟩

theorem init_joined (hjoined : h.hiveState.isSome = true) :
    h.init result topology addresses hostID now = (.error .alreadyJoined, h) := by
  simp only [ServiceHandler.init, ServiceHandler.checkNotInHive, hjoined, if_true]

theorem answersUnjoined_iff : AnswersUnjoined h ↔ h.hiveState = none := by
  constructor
  · intro hanswers
    have hstate := hanswers.getHiveState false 0 0 fun _ _ => none
    cases hhive : h.hiveState with
    | none => rfl
    | some hive => simp [ServiceHandler.getHiveState, hhive] at hstate
  · intro hnone
    refine ⟨fun result topology addresses hostID now hcomplete => ?_, fun cores now answer => ?_,
      fun forceUpdate cores now answer => ?_⟩
    · obtain ⟨state, h', hok⟩ := init_complete result hostID now hnone hcomplete
      simp [hok]
    · simp only [ServiceHandler.getState, hnone]
    · simp only [ServiceHandler.getHiveState, hnone]

/-- **`init`** is atomic on failure if and only if it does not fail for want of an address:
the service has joined before, or every host has an address. -/
theorem init_atomic_iff (h : ServiceHandler) (result : ServiceState) (topology : Topology)
    (addresses : HostAddresses) (hostID : HostID) (now : ℤ) :
    FailsAtomically h result topology addresses hostID now ↔
      h.hiveState.isSome = true ∨ Complete topology addresses := by
  constructor
  · intro hatomic
    by_contra hnot
    rw [not_or, Bool.not_eq_true, Option.isSome_eq_false_iff, Option.isNone_iff_eq_none] at hnot
    obtain ⟨done, id, host, rest, hhosts, hdone, hid⟩ := exists_missing hnot.2
    obtain ⟨-, -, hanswers⟩ := hatomic id _ (init_throws hnot.1 hhosts hdone hid)
    have hnone := answersUnjoined_iff.mp hanswers
    simp [leftAfter] at hnone
  · intro hcond id h' hinit
    by_cases hjoined : h.hiveState.isSome = true
    · rw [init_joined hjoined] at hinit
      simp [missingAddress] at hinit
    · obtain ⟨state, h'', hok⟩ := init_complete result hostID now (by simpa using hjoined)
        (hcond.resolve_left hjoined)
      simp [hok] at hinit

def newHandler : ServiceHandler := { config := { path := "data" } }

def oneHost : Topology := ⟨1, SortedMap.empty.insert 1 ⟨.empty⟩⟩

/-- The address of the host is left out at first. The service then refuses the complete
addresses, and asked for its state it reads behind the last host. -/
theorem init_leaves_joined : ∃ h',
    newHandler.init ⟨.unknown, 0, {}, [], ⟨0⟩⟩ oneHost .empty 1 0 = (.error (missingAddress 1), h') ∧
      (h'.init ⟨.unknown, 0, {}, [], ⟨0⟩⟩ oneHost
        (SortedMap.empty.insert 1 ⟨"localhost", 8064⟩) 1 1).1 =
        .error .alreadyJoined ∧
      h'.getState 4 1 (fun _ _ => none) = .error .pastEnd :=
  ⟨_, rfl, rfl, rfl⟩

/-! ### The service from then on -/

inductive Request
  | init (result : ServiceState) (topology : Topology) (addresses : HostAddresses)
      (hostID : HostID) (now : ℤ)
  | getState (cores : ℕ) (answer : String → ℤ → Option WorkerState) (now : ℤ)
  | getHiveState (forceUpdate : Bool) (cores : ℕ) (answer : String → ℤ → Option WorkerState)
      (now : ℤ)
  | join
  | leave

/-- The handler after a request. `join` and `leave` only check whether the service has
joined. -/
def ServiceHandler.serve (h : ServiceHandler) : Request → ServiceHandler
  | .init result topology addresses hostID now => (h.init result topology addresses hostID now).2
  | .getHiveState forceUpdate cores answer now => (h.getHiveState forceUpdate cores now answer).2
  | .getState _ _ _ | .join | .leave => h

theorem serve_joined (hjoined : h.hiveState.isSome = true) (request : Request) :
    (h.serve request).hiveState.isSome = true := by
  cases request with
  | init result topology addresses hostID now => rwa [ServiceHandler.serve, init_joined hjoined]
  | getHiveState forceUpdate cores answer now =>
    obtain ⟨hive, hhive⟩ := Option.isSome_iff_exists.mp hjoined
    simp only [ServiceHandler.serve, ServiceHandler.getHiveState, hhive]
    split
    · split <;> simp [hhive]
    · simp [hhive]
  | getState _ _ _ => exact hjoined
  | join => exact hjoined
  | leave => exact hjoined

theorem run_joined (requests : List Request) (hjoined : h.hiveState.isSome = true) :
    (requests.foldl ServiceHandler.serve h).hiveState.isSome = true := by
  induction requests generalizing h with
  | nil => exact hjoined
  | cons request requests ih => exact ih (serve_joined hjoined request)

/-- **`init` is taken once**: after an `init`, also one that has thrown, every other one is
refused, whatever is asked in between. -/
theorem refuses_ever_after (h : ServiceHandler) (requests : List Request) (result' : ServiceState)
    (topology' : Topology) (addresses' : HostAddresses) (hostID' : HostID) (now' : ℤ) :
    ((requests.foldl ServiceHandler.serve (h.init result topology addresses hostID now).2).init
      result' topology' addresses' hostID' now').1 = .error .alreadyJoined := by
  have hjoined : (h.init result topology addresses hostID now).2.hiveState.isSome = true := by
    rw [ServiceHandler.init, ServiceHandler.checkNotInHive]
    cases hstate : h.hiveState with
    | some hive => exact congrArg _ hstate
    | none =>
      simp only [Option.isSome_none, Bool.false_eq_true, if_false]
      split <;> rfl
  rw [init_joined (run_joined requests hjoined)]

end Fastore.Service
