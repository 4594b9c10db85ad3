/-
**Requests that are sent on to the leader** (`api/kv_service.rs`).

A write that reaches a node which does not lead is sent on to the client URL of the node it takes for
the leader. That node handles it as if it came from a client, so it may send it on again, by what it
knows by then. A handler first asks whether its node leads and then, if not, whom the node takes for the
leader; between the two, the node may have won an election, and the request goes to the node itself.

* `getLeaderClient` — the connection that a service uses for the leader, from its cache or a new one.
* `Forwarding` — one request under way in a running cluster: between any two reads of a handler, and
  between two hops, the cluster may take any steps.
* `forwards_ascend` — every hop leaves from a later term than the one before it, so that a request does
  not go round in circles: it comes back to a node only after that node has moved to a later term, or
  when the node itself has just become the leader.
-/

import Rusd.Raft.LeaderPointer

namespace Rusd

/-! ### The service -/

/-- Why a request is neither served nor sent on, with the texts of the source. -/
inductive ForwardError
  | notLeader
  | noLeaderElected
  | urlUnknown (leaderId : Nat)
  | invalidUrl (reason : String)
  | cannotConnect (reason : String)
  deriving DecidableEq, Repr

def ForwardError.message : ForwardError → String
  | notLeader => "not a leader"
  | noLeaderElected => "no leader elected"
  | urlUnknown leaderId => "leader " ++ toString leaderId ++ " client URL unknown"
  | invalidUrl reason => "invalid leader URL: " ++ reason
  | cannotConnect reason => "cannot connect to leader: " ++ reason

/-- What `KvService` keeps for sending requests on: the client URLs of the members, and the URL that each
cached client is connected to. -/
structure LeaderClients where
  peerClientUrls : List (Nat × String)
  leaderClients : Nat → Option String

namespace LeaderClients

def new (peerClientUrls : List (Nat × String)) : LeaderClients := ⟨peerClientUrls, fun _ => none⟩

/-- The URL of a member in `peer_client_urls`. -/
def clientUrl (clients : LeaderClients) (id : Nat) : Option String :=
  (clients.peerClientUrls.find? (·.1 = id)).map (·.2)

/-- The URL that a client for the leader is connected to. `dialled` is the error of a new connection. -/
def getLeaderClient (clients : LeaderClients) (leaderId : Option Nat) (dialled : Option ForwardError) :
    Except ForwardError String × LeaderClients :=
  match leaderId with
  | none => (.error .noLeaderElected, clients)
  | some leaderId =>
    match clients.leaderClients leaderId with
    | some url => (.ok url, clients)
    | none =>
      match clients.clientUrl leaderId with
      | none => (.error (.urlUnknown leaderId), clients)
      | some url =>
        match dialled with
        | some failed => (.error failed, clients)
        | none =>
          (.ok url, { clients with
            leaderClients := Function.update clients.leaderClients leaderId (some url) })

variable {clients : LeaderClients}

/-- Every cached client is connected to a URL of its member. -/
def Cached (clients : LeaderClients) : Prop :=
  ∀ id url, clients.leaderClients id = some url → (id, url) ∈ clients.peerClientUrls

theorem mem_of_clientUrl {id : Nat} {url : String} (found : clients.clientUrl id = some url) :
    (id, url) ∈ clients.peerClientUrls := by
  obtain ⟨entry, first, rfl⟩ := Option.map_eq_some_iff.mp found
  have named := List.find?_some first
  rw [decide_eq_true_eq] at named
  rw [← named]
  exact List.mem_of_find?_eq_some first

/-- **What `get_leader_client` does**: a connection goes to a URL of the node's leader, and the cache
stays right. -/
theorem getLeaderClient_spec (leaderId : Option Nat) (dialled : Option ForwardError)
    (cached : clients.Cached) :
    (clients.getLeaderClient leaderId dialled).2.peerClientUrls = clients.peerClientUrls ∧
    (clients.getLeaderClient leaderId dialled).2.Cached ∧
    ∀ url, (clients.getLeaderClient leaderId dialled).1 = .ok url →
      ∃ leader, leaderId = some leader ∧ (leader, url) ∈ clients.peerClientUrls := by
  cases leaderId with
  | none => exact ⟨rfl, cached, fun url sent => by cases sent⟩
  | some leader =>
    unfold getLeaderClient
    dsimp only
    split
    case h_1 url known =>
      refine ⟨rfl, cached, fun url' sent => ⟨leader, rfl, ?_⟩⟩
      cases sent
      exact cached leader url known
    case h_2 =>
      split
      case h_1 => exact ⟨rfl, cached, fun url sent => by cases sent⟩
      case h_2 url found =>
        have listed := mem_of_clientUrl found
        cases dialled with
        | some failed => exact ⟨rfl, cached, fun url sent => by cases sent⟩
        | none =>
          refine ⟨rfl, fun id url' known => ?_, fun url' sent => ⟨leader, rfl, ?_⟩⟩
          · change Function.update clients.leaderClients leader (some url) id = some url' at known
            by_cases same : id = leader
            · subst same
              rw [Function.update_self] at known
              cases known
              exact listed
            · rw [Function.update_of_ne same] at known
              exact cached id url' known
          · cases sent
            exact listed

end LeaderClients

/-! ### A request under way -/

/-- One time that the request was sent on: by a node in a term, to the node it took for the leader.
`leads` is whether the node led when it read whom to send to. -/
structure Hop where
  node : Nat
  term : Nat
  target : Nat
  leads : Bool
  deriving DecidableEq, Repr

/-- A cluster, the services of its nodes, and one request: the node it is at, whether the handler there
has found that its node does not lead, the hops behind it, and where it was served or why it failed. -/
structure Forwarding where
  cluster : Cluster
  services : Nat → LeaderClients
  holder : Nat
  refused : Bool
  hops : List Hop
  outcome : Option (Except ForwardError Nat)

namespace Forwarding

inductive Action
  | cluster (action : Cluster.Action)
  | check
  | send (dialled : Option ForwardError)

/-- A client sends the request to a node of a new cluster. -/
def start (config : ClusterConfig) (peerClientUrls : Nat → List (Nat × String)) (id : Nat) :
    Forwarding where
  cluster := Cluster.start config
  services := fun id => .new (peerClientUrls id)
  holder := id
  refused := false
  hops := []
  outcome := none

/-- The handler asks whether its node leads: `is_leader`. -/
def check (s : Forwarding) : Forwarding :=
  if (s.cluster.raft s.holder).state.isLeader then { s with outcome := some (.ok s.holder) }
  else if (s.services s.holder).peerClientUrls.isEmpty then
    { s with outcome := some (.error .notLeader) }
  else { s with refused := true }

/-- A handler whose node did not lead sends the request to the node that answers at the leader's URL. It
reads `leader_id` only now. -/
def send (listens : String → Nat) (s : Forwarding) (dialled : Option ForwardError) : Forwarding :=
  let raft := s.cluster.raft s.holder
  let (sent, clients) := (s.services s.holder).getLeaderClient raft.state.leaderId dialled
  let asked := { s with services := Function.update s.services s.holder clients, refused := false }
  match sent with
  | .error failed => { asked with outcome := some (.error failed) }
  | .ok url =>
    { asked with
      holder := listens url
      hops := s.hops ++ [⟨s.holder, raft.state.currentTerm, listens url, raft.state.isLeader⟩] }

def step (listens : String → Nat) (s : Forwarding) : Action → Option Forwarding
  | .cluster action => (s.cluster.step action).map fun cluster => { s with cluster := cluster }
  | .check => if s.outcome.isNone ∧ s.refused = false then some s.check else none
  | .send dialled => if s.outcome.isNone ∧ s.refused = true then some (send listens s dialled) else none

/-- A step of the cluster is timely. -/
def Timely (s : Forwarding) : Action → Prop
  | .cluster action => s.cluster.Timely action
  | .check => True
  | .send _ => True

instance (s : Forwarding) : ∀ action, Decidable (s.Timely action)
  | .cluster action => inferInstanceAs (Decidable (s.cluster.Timely action))
  | .check => .isTrue trivial
  | .send _ => .isTrue trivial

/-! ### The invariant -/

variable {config : ClusterConfig} {peerClientUrls : Nat → List (Nat × String)}
  {listens : String → Nat} {s next : Forwarding} {led : Set (Nat × Nat)}

/-- Every node knows the members by URLs at which they answer. -/
def Wired (config : ClusterConfig) (peerClientUrls : Nat → List (Nat × String))
    (listens : String → Nat) : Prop :=
  ∀ id ∈ config.ids, ∀ entry ∈ peerClientUrls id, listens entry.2 = entry.1

/-- The services of the nodes know the members' URLs and are connected to no others. -/
structure Served (peerClientUrls : Nat → List (Nat × String)) (services : Nat → LeaderClients) :
    Prop where
  urls : ∀ id, (services id).peerClientUrls = peerClientUrls id
  cached : ∀ id, (services id).Cached

theorem Served.update {services : Nat → LeaderClients} (served : Served peerClientUrls services)
    {id : Nat} {clients : LeaderClients} (urls : clients.peerClientUrls = peerClientUrls id)
    (cached : clients.Cached) : Served peerClientUrls (Function.update services id clients) := by
  refine ⟨fun i => ?_, fun i => ?_⟩
  · by_cases same : i = id
    · rw [same, Function.update_self, urls]
    · rw [Function.update_of_ne same, served.urls]
  · by_cases same : i = id
    · rwa [same, Function.update_self]
    · rw [Function.update_of_ne same]
      exact served.cached i

/-- **The request follows the elections.** The hops leave from ascending terms, each to a node that led
the term; the request is at the target of the last one, and a node that refused it does not lead the
term of a hop again. -/
structure Inv (config : ClusterConfig) (peerClientUrls : Nat → List (Nat × String)) (s : Forwarding)
    (led : Set (Nat × Nat)) : Prop where
  election : Cluster.ElectionInv config s.cluster led
  pointers : s.cluster.PointerInv led
  served : Served peerClientUrls s.services
  holder : s.holder ∈ config.ids
  ascending : s.hops.Pairwise fun earlier later => earlier.term < later.term
  elected : ∀ hop ∈ s.hops, (hop.target = hop.node ↔ hop.leads = true) ∧ (hop.target, hop.term) ∈ led
  last : ∀ hop ∈ s.hops, hop.term ≤ (s.cluster.raft s.holder).state.currentTerm ∧
    ((s.cluster.raft s.holder).state.currentTerm = hop.term → (s.holder, hop.term) ∈ led)
  refused : s.refused = true → ∀ hop ∈ s.hops,
    (s.cluster.raft s.holder).state.currentTerm = hop.term →
      (s.cluster.raft s.holder).state.role ≠ .leader

theorem Inv.start {id : Nat} (valid : config.Valid) (two : 2 ≤ config.ids.length)
    (member : id ∈ config.ids) : Inv config peerClientUrls (start config peerClientUrls id) ∅ where
  election := .start valid two
  pointers := .start valid two
  served := ⟨fun _ => rfl, fun _ _ _ known => (by cases known)⟩
  holder := member
  ascending := List.Pairwise.nil
  elected _ inside := absurd inside List.not_mem_nil
  last _ inside := absurd inside List.not_mem_nil
  refused _ _ inside := absurd inside List.not_mem_nil

/-- The cluster moves on, and the request stays where it is. -/
theorem Inv.move {cluster : Cluster} {action : Cluster.Action} (inv : Inv config peerClientUrls s led)
    (valid : config.Valid) (two : 2 ≤ config.ids.length) (moves : s.cluster.step action = some cluster)
    (timely : s.cluster.Timely action) :
    Inv config peerClientUrls { s with cluster := cluster } (led ∪ cluster.leaders) := by
  have after := inv.election.step valid two moves timely
  have steers := Cluster.step_steers inv.pointers inv.election valid two moves timely
  have grows := (steers.turned s.holder).term
  -- a hop of the holder's term leaves that term as it was
  have still : ∀ hop ∈ s.hops, (cluster.raft s.holder).state.currentTerm = hop.term →
      (s.cluster.raft s.holder).state.currentTerm = hop.term := fun hop inside same =>
    le_antisymm (same ▸ grows) (inv.last hop inside).1
  refine ⟨after, inv.pointers.steer valid after steers, inv.served, inv.holder,
    inv.ascending, fun hop inside => (inv.elected hop inside).imp_right .inl, fun hop inside => ?_,
    fun refused hop inside same => ?_⟩
  · obtain ⟨reached, here⟩ := inv.last hop inside
    exact ⟨reached.trans grows, fun same => .inl (here (still hop inside same))⟩
  · have member : s.holder ∈ s.cluster.ids := inv.election.ids ▸ inv.holder
    have before := (inv.last hop inside).2 (still hop inside same)
    exact inv.pointers.led_once member (steers.turned s.holder) before
      (inv.refused refused hop inside) same

/-- A handler whose node did not lead sends the request on. -/
theorem Inv.hop {leader : Nat} {services : Nat → LeaderClients}
    (inv : Inv config peerClientUrls s led)
    (pointer : (s.cluster.raft s.holder).state.leaderId = some leader)
    (refused : s.refused = true) (served : Served peerClientUrls services) :
    Inv config peerClientUrls
      { s with
        services := services
        refused := false
        holder := leader
        hops := s.hops ++ [⟨s.holder, (s.cluster.raft s.holder).state.currentTerm, leader,
          (s.cluster.raft s.holder).state.isLeader⟩] } led := by
  have member : s.holder ∈ s.cluster.ids := inv.election.ids ▸ inv.holder
  have named := inv.pointers.pointer s.holder member leader pointer
  have own := inv.pointers.own s.holder member
  rw [pointer, Option.some_inj] at own
  obtain ⟨inside, reached⟩ := inv.pointers.reached leader _ named
  -- a holder that led the term would name itself, and lead again
  have later : ∀ hop ∈ s.hops, hop.term < (s.cluster.raft s.holder).state.currentTerm := by
    intro hop listed
    obtain ⟨le, same⟩ := inv.last hop listed
    refine lt_of_le_of_ne le fun equal => inv.refused refused hop listed equal.symm (own.mp ?_)
    have elected := same equal.symm
    rw [equal] at elected
    exact inv.election.led_unique named elected
  refine ⟨inv.election, inv.pointers, served, inv.election.ids ▸ inside, ?_, ?_, ?_, ?_⟩
  · refine List.pairwise_append.mpr ⟨inv.ascending, List.pairwise_singleton _ _, ?_⟩
    intro earlier before last single
    rw [List.mem_singleton.mp single]
    exact later earlier before
  · intro hop listed
    rcases List.mem_append.mp listed with before | single
    · exact inv.elected hop before
    · rw [List.mem_singleton.mp single]
      exact ⟨own.trans (by rw [RaftState.isLeader, decide_eq_true_eq]), named⟩
  · intro hop listed
    rcases List.mem_append.mp listed with before | single
    · have short := later hop before
      exact ⟨short.le.trans reached, fun same => absurd (same ▸ reached) (Nat.not_le.mpr short)⟩
    · rw [List.mem_singleton.mp single]
      exact ⟨reached, fun _ => named⟩
  · intro no
    cases no

/-- The request ends, at its node or with an error. -/
theorem Inv.ended {services : Nat → LeaderClients} {refused : Bool}
    {outcome : Option (Except ForwardError Nat)} (inv : Inv config peerClientUrls s led)
    (served : Served peerClientUrls services) (asked : refused = true → s.refused = true) :
    Inv config peerClientUrls { s with services := services, refused := refused, outcome := outcome }
      led :=
  ⟨inv.election, inv.pointers, served, inv.holder, inv.ascending, inv.elected, inv.last,
    fun now => inv.refused (asked now)⟩

theorem Inv.check (inv : Inv config peerClientUrls s led) : Inv config peerClientUrls s.check led := by
  rw [Forwarding.check]
  split
  case isTrue => exact inv.ended inv.served id
  case isFalse follows =>
    split
    case isTrue => exact inv.ended inv.served id
    case isFalse =>
      rw [RaftState.isLeader, decide_eq_true_eq] at follows
      exact ⟨inv.election, inv.pointers, inv.served, inv.holder, inv.ascending, inv.elected, inv.last,
        fun _ _ _ _ => follows⟩

theorem Inv.send (inv : Inv config peerClientUrls s led) (wired : Wired config peerClientUrls listens)
    (refused : s.refused = true) (dialled : Option ForwardError) :
    Inv config peerClientUrls (send listens s dialled) led := by
  rw [Forwarding.send]
  dsimp only
  obtain ⟨urls, cached, sent⟩ := LeaderClients.getLeaderClient_spec
    (s.cluster.raft s.holder).state.leaderId dialled (inv.served.cached s.holder)
  have served := inv.served.update (urls.trans (inv.served.urls s.holder)) cached
  split
  case h_1 failed => exact inv.ended served (by rintro ⟨⟩)
  case h_2 url target =>
    obtain ⟨leader, pointer, listed⟩ := sent url target
    rw [inv.served.urls] at listed
    rw [wired s.holder inv.holder _ listed]
    exact inv.hop pointer refused served

theorem Inv.step (inv : Inv config peerClientUrls s led) (valid : config.Valid)
    (two : 2 ≤ config.ids.length) (wired : Wired config peerClientUrls listens) {action : Action}
    (moves : step listens s action = some next) (timely : s.Timely action) :
    ∃ later, Inv config peerClientUrls next later := by
  cases action with
  | cluster action =>
    obtain ⟨cluster, moved, rfl⟩ := Option.map_eq_some_iff.mp moves
    exact ⟨_, inv.move valid two moved timely⟩
  | check =>
    rw [Forwarding.step] at moves
    split at moves
    case isTrue =>
      cases moves
      exact ⟨led, inv.check⟩
    case isFalse => cases moves
  | send dialled =>
    rw [Forwarding.step] at moves
    split at moves
    case isTrue asks =>
      cases moves
      exact ⟨led, inv.send wired asks.2 dialled⟩
    case isFalse => cases moves

/-! ### Over a whole run -/

/-- **A request does not go round in circles.** In a run whose cluster steps are timely, each hop of a
request leaves from a later term than the one before it; it goes to another node, except where its own
node had won an election when the handler read whom to send to; and once the request is at a node, that
node's term is at least that of every hop behind it. -/
theorem forwards_ascend (config : ClusterConfig) (valid : config.Valid) (two : 2 ≤ config.ids.length)
    (peerClientUrls : Nat → List (Nat × String)) (listens : String → Nat)
    (wired : Wired config peerClientUrls listens) (id : Nat) (member : id ∈ config.ids)
    (actions : List Action) (s : Forwarding)
    (runs : runFrom (step listens) (start config peerClientUrls id) actions = some s)
    (timely : Along (step listens) Timely (start config peerClientUrls id) actions) :
    s.hops.Pairwise (fun earlier later => earlier.term < later.term) ∧
      ∀ hop ∈ s.hops, (hop.target = hop.node ↔ hop.leads = true) ∧
        hop.term ≤ (s.cluster.raft s.holder).state.currentTerm := by
  have invariant : ∃ led, Inv config peerClientUrls s led := by
    have keeps : ∀ s action next, step listens s action = some next → Timely s action →
        (∃ led, Inv config peerClientUrls s led) → ∃ led, Inv config peerClientUrls next led := by
      rintro s action next moves now ⟨led, inv⟩
      exact inv.step valid two wired moves now
    exact run_invariant keeps ⟨∅, .start valid two member⟩ timely runs
  obtain ⟨led, inv⟩ := invariant
  exact ⟨inv.ascending, fun hop listed => ⟨(inv.elected hop listed).1, (inv.last hop listed).1⟩⟩

/-- The client URLs of three nodes, and who answers at them. -/
def threeUrls (_ : Nat) : List (Nat × String) :=
  [(1, "http://one:2379"), (2, "http://two:2379"), (3, "http://three:2379")]

def threeListen (url : String) : Nat :=
  if url = "http://one:2379" then 1 else if url = "http://two:2379" then 2 else 3

theorem threeUrls_wired : Wired Cluster.threeNodes threeUrls threeListen := by
  intro id _
  unfold threeUrls
  decide

/-- Node 1 leads in term 2 and node 2 follows it; a client's request reaches node 2. -/
def sentOn : List Action := Cluster.firstHeartbeat.map .cluster ++ [.check, .send none, .check]

theorem sent_on_once :
    ∃ s, runFrom (step threeListen) (start Cluster.threeNodes threeUrls 2) sentOn = some s ∧
      s.hops = [⟨2, 2, 1, false⟩] ∧ s.outcome = some (.ok 1) ∧
      s.hops.Pairwise (fun earlier later => earlier.term < later.term) ∧
      ∀ hop ∈ s.hops, (hop.target = hop.node ↔ hop.leads = true) ∧
        hop.term ≤ (s.cluster.raft s.holder).state.currentTerm := by
  obtain ⟨s, runs, hops, outcome⟩ :
      ∃ s, runFrom (step threeListen) (start Cluster.threeNodes threeUrls 2) sentOn = some s ∧
        s.hops = [⟨2, 2, 1, false⟩] ∧ s.outcome = some (.ok 1) := ⟨_, rfl, rfl, rfl⟩
  refine ⟨s, runs, hops, outcome, ?_⟩
  exact forwards_ascend Cluster.threeNodes Cluster.threeNodes_valid (by decide) threeUrls threeListen
    threeUrls_wired 2 (by decide) sentOn s runs (by decide +kernel)

-- Node 2 follows when its handler asks, and has won term 4 when the handler reads whom to send to.
example :
    (runFrom (step threeListen) (start Cluster.threeNodes threeUrls 2)
      (Cluster.firstHeartbeat.map .cluster ++ [.check] ++ (Cluster.inTurn.drop 8).map .cluster ++
        [.send none, .check])).map (fun s => (s.hops, s.outcome)) =
      some ([⟨2, 4, 2, true⟩], some (.ok 2)) := rfl

end Forwarding

end Rusd
