/-
**The servers over the cluster** (`api/kv_service.rs`, `server/mod.rs`).

Every node runs a KV service and an apply loop over one store. The service proposes a write, waits for
the commit index to reach the index of its entry, and then writes its own store; the apply loop takes
the entries of the apply channel and writes them to the store unless the node leads at that moment.
One event is one atomic step: a step of the cluster, one piece of a handler between two points where
others may run, one round of the apply loop, one store call of another service.

* `HandlerPhase` — where a handler stands; from its proposal on it carries the entry it proposed.
* `Deployment.step` — every event.
* `step_moves` — the events, each with what enables it.
* `applications` — the entries that were applied to the store of a node, by either path. It is a record
  of the run: nothing reads it.
-/

import Rusd.Api.Replica
import Rusd.Raft.NodeStep

namespace Rusd

/-! ### A request -/

/-- The requests that are served by way of the log. -/
inductive WriteRequest
  | put (request : PutRequest)
  | deleteRange (request : DeleteRangeRequest)
  deriving DecidableEq, Repr

/-- The store as the handlers read it before they propose; they read no lease. -/
def handlerState (store : MvccStore) : Leader := ⟨store, ⟨fun _ => none, 0⟩, []⟩

/-- A handler up to its proposal: the data it proposes and the store call it will make; `none` where
it returns an error first. -/
def WriteRequest.plan (store : MvccStore) : WriteRequest → Option (Bytes × StoreOp)
  | .put request =>
    match ((planPut request).run (handlerState store)).1 with
    | .ok (key, value, lease) => some (putProposal key value, .put key value lease)
    | .err _ => none
    | .panic => none
  | .deleteRange request =>
    if request.key = [] ∧ request.rangeEnd = [] then none
    else
      let stop := effectiveRangeEnd request.key request.rangeEnd
      let previous := previousKvs request.prevKv request.key stop (fun s => s.currentRevision)
        "failed to get previous values: "
      match (previous.run (handlerState store)).1 with
      | .ok _ => some (deleteProposal request.key request.rangeEnd, .deleteRange request.key stop)
      | .err _ => none
      | .panic => none

/-- Where a handler stands. -/
inductive HandlerPhase
  /-- Before `propose`. -/
  | planned
  /-- `propose` returned an error. -/
  | refused
  /-- Before the commit index is read. -/
  | proposed (entry : LogEntry)
  /-- The commit index was below the entry. -/
  | registering (entry : LogEntry)
  /-- On the receiver that the commit notifier gave it. -/
  | waiting (entry : LogEntry)
  /-- Before the store call. -/
  | ready (entry : LogEntry)
  | returned (entry : LogEntry)
  /-- The store call failed. -/
  | failed (entry : LogEntry)
  | timedOut (entry : LogEntry)
  deriving DecidableEq, Repr

namespace HandlerPhase

/-- The entry whose request is under way. -/
def pending : HandlerPhase → Option LogEntry
  | proposed entry => some entry
  | registering entry => some entry
  | waiting entry => some entry
  | ready entry => some entry
  | planned => none
  | refused => none
  | returned _ => none
  | failed _ => none
  | timedOut _ => none

/-- The entry the handler proposed. -/
def entry : HandlerPhase → Option LogEntry
  | planned => none
  | refused => none
  | proposed entry => some entry
  | registering entry => some entry
  | waiting entry => some entry
  | ready entry => some entry
  | returned entry => some entry
  | failed entry => some entry
  | timedOut entry => some entry

end HandlerPhase

/-- A request that a node serves; it is known by its place in the list of all requests, which is also
the sender that wakes it. -/
structure Request where
  node : Nat
  data : Bytes
  op : StoreOp
  phase : HandlerPhase
  deriving DecidableEq, Repr

/-! ### The state -/

/-- What a node runs over its Raft node. -/
structure Server where
  store : MvccStore
  /-- The apply loop runs. -/
  applying : Bool
  /-- How many entries of the apply channel the loop has taken. -/
  received : Nat
  /-- The entries applied to the store. -/
  applications : List LogEntry

def Server.new : Server := ⟨MvccStore.new .empty, true, 0, []⟩

structure Deployment where
  cluster : Cluster
  servers : Nat → Server
  requests : List Request

namespace Deployment

def start (config : ClusterConfig) : Deployment := ⟨.start config, fun _ => .new, []⟩

def raft (s : Deployment) (id : Nat) : RaftNode := s.cluster.raft id

def setServer (s : Deployment) (id : Nat) (server : Server) : Deployment :=
  { s with servers := Function.update s.servers id server }

/-- Move a request to another phase. -/
def setPhase (s : Deployment) (r : Nat) (request : Request) (phase : HandlerPhase) : Deployment :=
  { s with requests := s.requests.set r { request with phase := phase } }

/-! ### The steps -/

inductive Event
  /-- A step of the cluster; proposals of the other services are among them. -/
  | raft (action : Cluster.Action)
  /-- A handler starts: it validates, sees that the node leads, and reads. -/
  | call (id : Nat) (request : WriteRequest)
  | propose (r : Nat)
  /-- The handler reads the commit index. -/
  | check (r : Nat)
  | register (r : Nat)
  | wake (r : Nat)
  | timeout (r : Nat)
  /-- The handler makes its store call. -/
  | finish (r : Nat)
  /-- The apply loop takes the next entry. -/
  | receive (id : Nat)
  /-- Another service calls the store. -/
  | write (id : Nat) (op : StoreOp)
  deriving DecidableEq, Repr

/-- The other services propose no `PUT` and no `DELETE`. -/
def foreign : Cluster.Action → Bool
  | .propose _ entryType data => entryType ≠ .normal ∨ followerCommand data = none
  | _ => true

/-- The entry that `propose` appends. -/
def nextEntry (node : RaftNode) (data : Bytes) : LogEntry :=
  ⟨node.log.lastIndex + 1, node.state.currentTerm, data, .normal⟩

/-- The proposal of a handler. -/
def propose (s : Deployment) (r : Nat) (request : Request) : Option Deployment :=
  let node := s.raft request.node
  if node.state.isLeader then
    (s.cluster.step (.propose request.node .normal request.data)).map fun cluster =>
      { s.setPhase r request (.proposed (nextEntry node request.data)) with cluster := cluster }
  else some (s.setPhase r request .refused)

/-- Register a waiter on the index of the entry. -/
def register (s : Deployment) (r : Nat) (request : Request) (entry : LogEntry) : Deployment :=
  let node := s.raft request.node
  { s.setPhase r request (.waiting entry) with
    cluster := s.cluster.setRaft request.node
      { node with commitNotifier := node.commitNotifier.register entry.index r } }

/-- The store call of a handler. -/
def finish (s : Deployment) (r : Nat) (request : Request) (entry : LogEntry) : Deployment :=
  let server := s.servers request.node
  let done := request.op.run.run server.store
  match done.1 with
  | .ok _ => (s.setPhase r request (.returned entry)).setServer request.node
      { server with store := done.2, applications := server.applications ++ [entry] }
  | .err _ => (s.setPhase r request (.failed entry)).setServer request.node
      { server with store := done.2 }
  | .panic => (s.setPhase r request (.failed entry)).setServer request.node
      { server with store := done.2 }

end Deployment

/-- One round of the apply loop. -/
def Server.receive (server : Server) (isLeader : Bool) (entry : LogEntry) : Server :=
  let taken := { server with received := server.received + 1 }
  match entry.entryType with
  | .normal =>
    -- the leader applies in the KV service
    if isLeader then taken
    else
      match followerCommand entry.data with
      | none => taken
      | some op =>
        let done := op.run.run server.store
        match done.1 with
        | .ok _ => { taken with store := done.2, applications := server.applications ++ [entry] }
        | .err _ => { taken with store := done.2 }
        | .panic => { taken with store := done.2, applying := false }
  | .configChange => taken
  | .snapshot => taken

namespace Deployment

/-- One event; `none` where it is not enabled. -/
def step (s : Deployment) : Event → Option Deployment
  | .raft action =>
    if foreign action then (s.cluster.step action).map fun cluster => { s with cluster := cluster }
    else none
  | .call id request =>
    if id ∈ s.cluster.ids ∧ (s.raft id).state.isLeader then
      (request.plan (s.servers id).store).map fun (data, op) =>
        { s with requests := s.requests ++ [⟨id, data, op, .planned⟩] }
    else none
  | .propose r =>
    match s.requests[r]? with
    | some request => if request.phase = .planned then s.propose r request else none
    | none => none
  | .check r =>
    match s.requests[r]? with
    | some request =>
      match request.phase with
      | .proposed entry =>
        if (s.raft request.node).state.commitIndex < entry.index then
          some (s.setPhase r request (.registering entry))
        else some (s.setPhase r request (.ready entry))
      | _ => none
    | none => none
  | .register r =>
    match s.requests[r]? with
    | some request =>
      match request.phase with
      | .registering entry => some (s.register r request entry)
      | _ => none
    | none => none
  | .wake r =>
    match s.requests[r]? with
    | some request =>
      match request.phase with
      | .waiting entry =>
        if r ∈ (s.raft request.node).commitNotifier.signalled then
          some (s.setPhase r request (.ready entry))
        else none
      | _ => none
    | none => none
  | .timeout r =>
    match s.requests[r]? with
    | some request =>
      match request.phase with
      | .waiting entry =>
        -- a receiver that was signalled is ready, whatever the clock says
        if r ∈ (s.raft request.node).commitNotifier.signalled then none
        else some (s.setPhase r request (.timedOut entry))
      | _ => none
    | none => none
  | .finish r =>
    match s.requests[r]? with
    | some request =>
      match request.phase with
      | .ready entry => some (s.finish r request entry)
      | _ => none
    | none => none
  | .receive id =>
    let server := s.servers id
    match (s.raft id).applyTx[server.received]? with
    | some entry =>
      if server.applying then
        some (s.setServer id (server.receive (s.raft id).state.isLeader entry))
      else none
    | none => none
  | .write id op =>
    let server := s.servers id
    some (s.setServer id { server with store := (op.run.run server.store).2 })

/-- Run the deployment from its start. -/
def run (config : ClusterConfig) (events : List Event) : Option Deployment :=
  runFrom step (start config) events

/-! ### What an event can do -/

/-- A node with a new waiter. -/
def withWaiter (s : Deployment) (id : Nat) (index r : Nat) : Cluster :=
  s.cluster.setRaft id
    { s.raft id with commitNotifier := (s.raft id).commitNotifier.register index r }

/-- A waiter changes nothing but the notifier of its node. -/
theorem withWaiter_raft (s : Deployment) (id index r other : Nat) :
    (((s.withWaiter id index r).raft other).log = (s.raft other).log ∧
      ((s.withWaiter id index r).raft other).state = (s.raft other).state ∧
      ((s.withWaiter id index r).raft other).applyTx = (s.raft other).applyTx) ∧
    ((s.withWaiter id index r).raft other).commitNotifier.signalled =
      (s.raft other).commitNotifier.signalled ∧
    ∀ waiter ∈ ((s.withWaiter id index r).raft other).commitNotifier.waiters,
      waiter ∈ (s.raft other).commitNotifier.waiters ∨ (other = id ∧ waiter = (index, r)) := by
  rw [withWaiter]
  by_cases here : other = id
  · subst here
    rw [Cluster.setRaft_raft_self]
    refine ⟨⟨rfl, rfl, rfl⟩, rfl, fun waiter member => ?_⟩
    rcases List.mem_append.mp member with before | new
    · exact .inl before
    · exact .inr ⟨rfl, List.mem_singleton.mp new⟩
  · rw [Cluster.setRaft_raft_of_ne _ _ here]
    exact ⟨⟨rfl, rfl, rfl⟩, rfl, fun waiter member => .inl member⟩

/-- **The events, with what enables each.** -/
inductive Moves (s : Deployment) : Event → Deployment → Prop
  | raft {action : Cluster.Action} {cluster : Cluster} (steps : s.cluster.step action = some cluster) :
      Moves s (.raft action) { s with cluster := cluster }
  | call {id : Nat} {write : WriteRequest} (data : Bytes) (op : StoreOp) :
      Moves s (.call id write) { s with requests := s.requests ++ [⟨id, data, op, .planned⟩] }
  | refuse {r : Nat} {request : Request} (found : s.requests[r]? = some request)
      (phase : request.phase = .planned) : Moves s (.propose r) (s.setPhase r request .refused)
  | propose {r : Nat} {request : Request} {cluster : Cluster} (found : s.requests[r]? = some request)
      (phase : request.phase = .planned)
      (steps : s.cluster.step (.propose request.node .normal request.data) = some cluster) :
      Moves s (.propose r)
        { s.setPhase r request (.proposed (nextEntry (s.raft request.node) request.data)) with
          cluster := cluster }
  | below {r : Nat} {request : Request} {entry : LogEntry} (found : s.requests[r]? = some request)
      (phase : request.phase = .proposed entry) :
      Moves s (.check r) (s.setPhase r request (.registering entry))
  | reached {r : Nat} {request : Request} {entry : LogEntry} (found : s.requests[r]? = some request)
      (phase : request.phase = .proposed entry)
      (reached : entry.index ≤ (s.raft request.node).state.commitIndex) :
      Moves s (.check r) (s.setPhase r request (.ready entry))
  | register {r : Nat} {request : Request} {entry : LogEntry} (found : s.requests[r]? = some request)
      (phase : request.phase = .registering entry) :
      Moves s (.register r) { s.setPhase r request (.waiting entry) with
        cluster := s.withWaiter request.node entry.index r }
  | wake {r : Nat} {request : Request} {entry : LogEntry} (found : s.requests[r]? = some request)
      (phase : request.phase = .waiting entry)
      (woken : r ∈ (s.raft request.node).commitNotifier.signalled) :
      Moves s (.wake r) (s.setPhase r request (.ready entry))
  | timeout {r : Nat} {request : Request} {entry : LogEntry} (found : s.requests[r]? = some request)
      (phase : request.phase = .waiting entry) :
      Moves s (.timeout r) (s.setPhase r request (.timedOut entry))
  | finish {r : Nat} {request : Request} {entry : LogEntry} (found : s.requests[r]? = some request)
      (phase : request.phase = .ready entry) : Moves s (.finish r) (s.finish r request entry)
  | receive {id : Nat} {entry : LogEntry}
      (arrives : (s.raft id).applyTx[(s.servers id).received]? = some entry)
      (running : (s.servers id).applying = true) :
      Moves s (.receive id)
        (s.setServer id ((s.servers id).receive (s.raft id).state.isLeader entry))
  | write {id : Nat} {op : StoreOp} :
      Moves s (.write id op)
        (s.setServer id { s.servers id with store := (op.run.run (s.servers id).store).2 })

theorem step_moves {s next : Deployment} {event : Event} (moves : s.step event = some next) :
    Moves s event next := by
  cases event with
  | raft action =>
    rw [step] at moves
    split at moves
    case isFalse => cases moves
    case isTrue =>
      obtain ⟨cluster, steps, rfl⟩ := Option.map_eq_some_iff.mp moves
      exact .raft steps
  | call id write =>
    rw [step] at moves
    split at moves
    case isFalse => cases moves
    case isTrue =>
      obtain ⟨⟨data, op⟩, -, rfl⟩ := Option.map_eq_some_iff.mp moves
      exact .call data op
  | propose r =>
    rw [step] at moves
    split at moves
    case h_2 => cases moves
    case h_1 request found =>
      split at moves
      case isFalse => cases moves
      case isTrue phase =>
        rw [propose] at moves
        dsimp only at moves
        split at moves
        case isTrue leads =>
          obtain ⟨cluster, steps, rfl⟩ := Option.map_eq_some_iff.mp moves
          exact .propose found phase steps
        case isFalse =>
          cases moves
          exact .refuse found phase
  | check r =>
    rw [step] at moves
    split at moves
    case h_2 => cases moves
    case h_1 request found =>
      split at moves
      case h_2 => cases moves
      case h_1 entry phase =>
        split at moves
        case isTrue =>
          cases moves
          exact .below found phase
        case isFalse reached =>
          cases moves
          exact .reached found phase (Nat.not_lt.mp reached)
  | register r =>
    rw [step] at moves
    split at moves
    case h_2 => cases moves
    case h_1 request found =>
      split at moves
      case h_2 => cases moves
      case h_1 entry phase =>
        cases moves
        exact .register found phase
  | wake r =>
    rw [step] at moves
    split at moves
    case h_2 => cases moves
    case h_1 request found =>
      split at moves
      case h_2 => cases moves
      case h_1 entry phase =>
        split at moves
        case isFalse => cases moves
        case isTrue woken =>
          cases moves
          exact .wake found phase woken
  | timeout r =>
    rw [step] at moves
    split at moves
    case h_2 => cases moves
    case h_1 request found =>
      split at moves
      case h_2 => cases moves
      case h_1 entry phase =>
        split at moves
        case isTrue => cases moves
        case isFalse =>
          cases moves
          exact .timeout found phase
  | finish r =>
    rw [step] at moves
    split at moves
    case h_2 => cases moves
    case h_1 request found =>
      split at moves
      case h_2 => cases moves
      case h_1 entry phase =>
        cases moves
        exact .finish found phase
  | receive id =>
    rw [step] at moves
    split at moves
    case h_2 => cases moves
    case h_1 entry arrives =>
      split at moves
      case isFalse => cases moves
      case isTrue running =>
        cases moves
        exact .receive arrives running
  | write id op =>
    rw [step] at moves
    cases moves
    exact .write

end Deployment

end Rusd
