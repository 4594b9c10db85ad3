/-
**A cluster of Raft nodes.**

The nodes, the votes they are counting, and the calls under way between them. A call is the task that
sent a request: the request may reach the peer any number of times, at any time or never, each time
leaving a response on its way back; the task takes one of them, or gives up. One action is one atomic
step: a timeout, one handler, one response task, one round of a counting loop, one proposal.

A node counts one campaign at a time, since its tick runs them to the end; `number` tells the calls of
a campaign from those of an earlier one, whose channel is closed.
-/

import Rusd.Lib.Machine
import Rusd.Raft.Node

namespace Rusd

/-! ### The state -/

/-- A spawned call: the node that made it, the campaign or round it belongs to, and the peer. -/
structure CallId where
  owner : Nat
  number : Nat
  peer : Nat
  deriving DecidableEq, Repr

structure VoteCall where
  request : RequestVoteRequest
  replies : List RequestVoteResponse
  answered : Bool
  deriving DecidableEq, Repr

/-- `leaderLastIndex` is the index that the task captured when it was spawned. -/
structure AppendCall where
  request : AppendEntriesRequest
  leaderLastIndex : Nat
  replies : List AppendEntriesResponse
  answered : Bool
  deriving DecidableEq, Repr

/-- A counting loop: the votes received and those waiting in its channel. -/
structure Campaign where
  number : Nat
  request : RequestVoteRequest
  voteCount : Nat
  votes : List Bool
  deriving DecidableEq, Repr

/-- A node, its counting loop if one runs, and the number of campaigns and rounds it has begun. -/
structure Member where
  raft : RaftNode
  campaign : Option Campaign
  campaigns : Nat
  rounds : Nat

structure Cluster where
  ids : List Nat
  members : Nat → Member
  voteCalls : CallId → Option VoteCall
  appendCalls : CallId → Option AppendCall

/-- The nodes of a cluster and the configuration of each. -/
structure ClusterConfig where
  ids : List Nat
  configs : Nat → RaftConfig

/-- Every node lists all the others as its peers, and passed `RaftConfig::validate`. -/
structure ClusterConfig.Valid (config : ClusterConfig) : Prop where
  nodup : config.ids.Nodup
  id : ∀ id ∈ config.ids, (config.configs id).id = id
  peersNodup : ∀ id ∈ config.ids, (config.configs id).peers.Nodup
  peers : ∀ id ∈ config.ids, ∀ peer, peer ∈ (config.configs id).peers ↔ peer ∈ config.ids ∧ peer ≠ id
  perRequest : ∀ id ∈ config.ids, 0 < (config.configs id).maxLogEntriesPerRequest

namespace Cluster

/-- The cluster before any step. -/
def start (config : ClusterConfig) : Cluster where
  ids := config.ids
  members := fun id => ⟨RaftNode.new (config.configs id), none, 0, 0⟩
  voteCalls := fun _ => none
  appendCalls := fun _ => none

def raft (s : Cluster) (id : Nat) : RaftNode := (s.members id).raft

/-- Replace a member. -/
def setMember (s : Cluster) (id : Nat) (member : Member) : Cluster :=
  { s with members := Function.update s.members id member }

/-- Replace the node of a member. -/
def setRaft (s : Cluster) (id : Nat) (raft : RaftNode) : Cluster :=
  s.setMember id { s.members id with raft := raft }

/-! ### What a node sends -/

/-- Begin a counting loop and spawn a call for each peer. -/
def launch (s : Cluster) (id : Nat) (raft : RaftNode) (request : RequestVoteRequest) : Cluster :=
  let number := (s.members id).campaigns
  { s with
    members := Function.update s.members id
      { s.members id with
        raft := raft, campaign := some ⟨number, request, 1, []⟩, campaigns := number + 1 }
    voteCalls := fun call =>
      if call.owner = id ∧ call.number = number ∧ call.peer ∈ raft.peerIds then
        some ⟨request, [], false⟩
      else s.voteCalls call }

/-- A round of append requests, one call for each peer. -/
def sendHeartbeats (s : Cluster) (id : Nat) : Cluster :=
  let raft := s.raft id
  if raft.state.isLeader then
    let number := (s.members id).rounds
    { s with
      members := Function.update s.members id { s.members id with rounds := number + 1 }
      appendCalls := fun call =>
        if call.owner = id ∧ call.number = number ∧ call.peer ∈ raft.peerIds then
          (raft.appendRequest call.peer).map fun request =>
            ⟨request, raft.log.lastIndex, [], false⟩
        else s.appendCalls call }
  else s

def becomeLeader (s : Cluster) (id : Nat) : Cluster :=
  (s.setRaft id (s.raft id).becomeLeader).sendHeartbeats id

def startRealElection (s : Cluster) (id : Nat) : Cluster :=
  let (raft, request) := (s.raft id).startRealElection
  if raft.peerIds.isEmpty then (s.setRaft id raft).becomeLeader id else s.launch id raft request

def startPreVote (s : Cluster) (id : Nat) : Cluster :=
  let (raft, request) := (s.raft id).startPreVote
  if raft.peerIds.isEmpty then (s.setRaft id raft).startRealElection id else s.launch id raft request

def startElection (s : Cluster) (id : Nat) : Cluster :=
  match (s.raft id).state.role with
  | .follower => if (s.raft id).config.preVote then s.startPreVote id else s.startRealElection id
  | .candidate => if (s.raft id).config.preVote then s.startPreVote id else s.startRealElection id
  | .preCandidate => s.startRealElection id
  | .leader => s

/-! ### The steps -/

inductive Action
  | electionTimeout (id : Nat)
  | deliverVote (call : CallId)
  | voteReply (call : CallId) (reply : Nat)
  | voteError (call : CallId)
  | countVote (id : Nat)
  | endCampaign (id : Nat)
  | heartbeat (id : Nat)
  | deliverAppend (call : CallId)
  | appendReply (call : CallId) (reply : Nat)
  | propose (id : Nat) (entryType : EntryType) (data : Bytes)
  | apply (id : Nat)
  deriving DecidableEq, Repr

/-- Put a vote into the channel of its campaign; the channel of an ended campaign is closed. -/
def castVote (member : Member) (number : Nat) (granted : Bool) : Member :=
  match member.campaign with
  | none => member
  | some campaign =>
    if campaign.number = number then
      { member with campaign := some { campaign with votes := campaign.votes ++ [granted] } }
    else member

/-- The request reaches the peer. -/
def deliverVote (s : Cluster) (id : CallId) (call : VoteCall) : Cluster :=
  let (raft, response) := (s.raft id.peer).handleRequestVote call.request
  { s.setRaft id.peer raft with
    voteCalls := Function.update s.voteCalls id
      (some { call with replies := call.replies ++ [response] }) }

/-- The task of a vote request takes a response. -/
def voteReply (s : Cluster) (id : CallId) (call : VoteCall) (response : RequestVoteResponse) :
    Cluster :=
  let raft := (s.raft id.owner).handleVoteReply call.request response
  { s.setMember id.owner
      (castVote { s.members id.owner with raft := raft } id.number response.voteGranted) with
    voteCalls := Function.update s.voteCalls id (some { call with answered := true }) }

/-- The task of a vote request gives up. -/
def voteError (s : Cluster) (id : CallId) (call : VoteCall) : Cluster :=
  { s.setMember id.owner (castVote (s.members id.owner) id.number false) with
    voteCalls := Function.update s.voteCalls id (some { call with answered := true }) }

/-- One round of a counting loop: leave it with a majority, or go on. -/
def countVote (s : Cluster) (id : Nat) (campaign : Campaign) (granted : Bool) (rest : List Bool) :
    Cluster :=
  let voteCount := if granted then campaign.voteCount + 1 else campaign.voteCount
  if voteCount ≥ (s.raft id).majority then
    let counted := s.setMember id { s.members id with campaign := none }
    if campaign.request.preVote then counted.startRealElection id else counted.becomeLeader id
  else
    s.setMember id
      { s.members id with campaign := some { campaign with voteCount := voteCount, votes := rest } }

/-- The request reaches the peer. -/
def deliverAppend (s : Cluster) (id : CallId) (call : AppendCall) : Cluster :=
  let (raft, response) := (s.raft id.peer).handleAppendEntries call.request
  { s.setRaft id.peer raft with
    appendCalls := Function.update s.appendCalls id
      (some { call with replies := call.replies ++ [response] }) }

theorem deliverAppend_eq (s : Cluster) (id : CallId) (call : AppendCall) :
    s.deliverAppend id call =
      { s.setRaft id.peer ((s.raft id.peer).handleAppendEntries call.request).1 with
        appendCalls := Function.update s.appendCalls id (some { call with
          replies := call.replies ++ [((s.raft id.peer).handleAppendEntries call.request).2] }) } :=
  rfl

/-- The task of an append request takes a response. -/
def appendReply (s : Cluster) (id : CallId) (call : AppendCall) (response : AppendEntriesResponse) :
    Cluster :=
  let raft := (s.raft id.owner).handleAppendReply id.peer call.leaderLastIndex response
  { s.setRaft id.owner raft with
    appendCalls := Function.update s.appendCalls id (some { call with answered := true }) }

/-- One step of the cluster; `none` where the action is not enabled. -/
def step (s : Cluster) : Action → Option Cluster
  | .electionTimeout id =>
    if id ∈ s.ids ∧ (s.members id).campaign = none then some (s.startElection id) else none
  | .deliverVote id =>
    match s.voteCalls id with
    | some call => some (s.deliverVote id call)
    | none => none
  | .voteReply id reply =>
    match s.voteCalls id with
    | some call =>
      match call.replies[reply]? with
      | some response => if call.answered then none else some (s.voteReply id call response)
      | none => none
    | none => none
  | .voteError id =>
    match s.voteCalls id with
    | some call => if call.answered then none else some (s.voteError id call)
    | none => none
  | .countVote id =>
    match (s.members id).campaign with
    | some campaign =>
      match campaign.votes with
      | granted :: rest => some (s.countVote id campaign granted rest)
      | [] => none
    | none => none
  | .endCampaign id =>
    match (s.members id).campaign with
    | some _ => some (s.setMember id { s.members id with campaign := none })
    | none => none
  | .heartbeat id =>
    if id ∈ s.ids ∧ (s.members id).campaign = none ∧ (s.raft id).state.isLeader then
      some (s.sendHeartbeats id)
    else none
  | .deliverAppend id =>
    match s.appendCalls id with
    | some call => some (s.deliverAppend id call)
    | none => none
  | .appendReply id reply =>
    match s.appendCalls id with
    | some call =>
      match call.replies[reply]? with
      | some response => if call.answered then none else some (s.appendReply id call response)
      | none => none
    | none => none
  | .propose id entryType data =>
    if id ∈ s.ids ∧ (s.raft id).state.isLeader then
      some ((s.setRaft id ((s.raft id).propose entryType data)).sendHeartbeats id)
    else none
  | .apply id =>
    if id ∈ s.ids ∧ (s.members id).campaign = none then
      some (s.setRaft id (s.raft id).applyCommittedEntries)
    else none

/-- **What each step needs and does.** -/
inductive Moves (s : Cluster) : Action → Cluster → Prop
  | electionTimeout (id : Nat) (member : id ∈ s.ids) (idle : (s.members id).campaign = none) :
      Moves s (.electionTimeout id) (s.startElection id)
  | deliverVote (id : CallId) (call : VoteCall) (found : s.voteCalls id = some call) :
      Moves s (.deliverVote id) (s.deliverVote id call)
  | voteReply (id : CallId) (reply : Nat) (call : VoteCall) (response : RequestVoteResponse)
      (found : s.voteCalls id = some call) (received : call.replies[reply]? = some response)
      (pending : call.answered = false) :
      Moves s (.voteReply id reply) (s.voteReply id call response)
  | voteError (id : CallId) (call : VoteCall) (found : s.voteCalls id = some call)
      (pending : call.answered = false) : Moves s (.voteError id) (s.voteError id call)
  | countVote (id : Nat) (campaign : Campaign) (granted : Bool) (rest : List Bool)
      (running : (s.members id).campaign = some campaign)
      (votes : campaign.votes = granted :: rest) :
      Moves s (.countVote id) (s.countVote id campaign granted rest)
  | endCampaign (id : Nat) (campaign : Campaign)
      (running : (s.members id).campaign = some campaign) :
      Moves s (.endCampaign id) (s.setMember id { s.members id with campaign := none })
  | heartbeat (id : Nat) (member : id ∈ s.ids) (idle : (s.members id).campaign = none)
      (leads : (s.raft id).state.isLeader) : Moves s (.heartbeat id) (s.sendHeartbeats id)
  | deliverAppend (id : CallId) (call : AppendCall) (found : s.appendCalls id = some call) :
      Moves s (.deliverAppend id) (s.deliverAppend id call)
  | appendReply (id : CallId) (reply : Nat) (call : AppendCall) (response : AppendEntriesResponse)
      (found : s.appendCalls id = some call) (received : call.replies[reply]? = some response)
      (pending : call.answered = false) :
      Moves s (.appendReply id reply) (s.appendReply id call response)
  | propose (id : Nat) (entryType : EntryType) (data : Bytes) (member : id ∈ s.ids)
      (leads : (s.raft id).state.isLeader) :
      Moves s (.propose id entryType data)
        ((s.setRaft id ((s.raft id).propose entryType data)).sendHeartbeats id)
  | apply (id : Nat) (member : id ∈ s.ids) (idle : (s.members id).campaign = none) :
      Moves s (.apply id) (s.setRaft id (s.raft id).applyCommittedEntries)

theorem step_moves {s t : Cluster} {action : Action} (moves : s.step action = some t) :
    Moves s action t := by
  unfold step at moves
  split at moves
  case h_1 id =>
    split at moves
    case isFalse => cases moves
    case isTrue enabled =>
      cases moves
      exact .electionTimeout id enabled.1 enabled.2
  case h_2 id =>
    split at moves
    case h_2 => cases moves
    case h_1 call found =>
      cases moves
      exact .deliverVote id call found
  case h_3 id reply =>
    split at moves
    case h_2 => cases moves
    case h_1 call found =>
      split at moves
      case h_2 => cases moves
      case h_1 response received =>
        split at moves
        case isTrue => cases moves
        case isFalse pending =>
          cases moves
          exact .voteReply id reply call response found received (Bool.not_eq_true _ ▸ pending)
  case h_4 id =>
    split at moves
    case h_2 => cases moves
    case h_1 call found =>
      split at moves
      case isTrue => cases moves
      case isFalse pending =>
        cases moves
        exact .voteError id call found (Bool.not_eq_true _ ▸ pending)
  case h_5 id =>
    split at moves
    case h_2 => cases moves
    case h_1 campaign running =>
      split at moves
      case h_2 => cases moves
      case h_1 granted rest votes =>
        cases moves
        exact .countVote id campaign granted rest running votes
  case h_6 id =>
    split at moves
    case h_2 => cases moves
    case h_1 campaign running =>
      cases moves
      exact .endCampaign id campaign running
  case h_7 id =>
    split at moves
    case isFalse => cases moves
    case isTrue enabled =>
      cases moves
      exact .heartbeat id enabled.1 enabled.2.1 enabled.2.2
  case h_8 id =>
    split at moves
    case h_2 => cases moves
    case h_1 call found =>
      cases moves
      exact .deliverAppend id call found
  case h_9 id reply =>
    split at moves
    case h_2 => cases moves
    case h_1 call found =>
      split at moves
      case h_2 => cases moves
      case h_1 response received =>
        split at moves
        case isTrue => cases moves
        case isFalse pending =>
          cases moves
          exact .appendReply id reply call response found received (Bool.not_eq_true _ ▸ pending)
  case h_10 id entryType data =>
    split at moves
    case isFalse => cases moves
    case isTrue enabled =>
      cases moves
      exact .propose id entryType data enabled.1 enabled.2
  case h_11 id =>
    split at moves
    case isFalse => cases moves
    case isTrue enabled =>
      cases moves
      exact .apply id enabled.1 enabled.2

/-- Run the cluster from its start. -/
def run (config : ClusterConfig) (actions : List Action) : Option Cluster :=
  runFrom step (start config) actions

/-! ### Frames -/

variable (s : Cluster) (id i : Nat) (member : Member) (node : RaftNode)

@[simp] theorem setMember_ids : (s.setMember id member).ids = s.ids := rfl

@[simp] theorem setMember_voteCalls : (s.setMember id member).voteCalls = s.voteCalls := rfl

@[simp] theorem setMember_appendCalls : (s.setMember id member).appendCalls = s.appendCalls := rfl

@[simp] theorem setMember_members_self : (s.setMember id member).members id = member :=
  Function.update_self ..

theorem setMember_members_of_ne {i id : Nat} (ne : i ≠ id) :
    (s.setMember id member).members i = s.members i :=
  Function.update_of_ne ne ..

/-- What the new member shares with the old one is unchanged at every node. -/
theorem setMember_frame {δ : Type} (f : Member → δ) {s : Cluster} {id : Nat} {member : Member}
    (same : f member = f (s.members id)) (i : Nat) :
    f ((s.setMember id member).members i) = f (s.members i) := by
  by_cases here : i = id
  · rw [here, setMember_members_self, same]
  · rw [setMember_members_of_ne _ _ here]

theorem setMember_raft {s : Cluster} {id : Nat} {member : Member}
    (same : member.raft = s.raft id) : (s.setMember id member).raft = s.raft :=
  funext (setMember_frame Member.raft same)

theorem castVote_raft (number : Nat) (granted : Bool) :
    (castVote member number granted).raft = member.raft := by
  rw [castVote]
  split
  · rfl
  · split <;> rfl

theorem castVote_campaigns (number : Nat) (granted : Bool) :
    (castVote member number granted).campaigns = member.campaigns := by
  rw [castVote]
  split
  · rfl
  · split <;> rfl

theorem castVote_rounds (number : Nat) (granted : Bool) :
    (castVote member number granted).rounds = member.rounds := by
  rw [castVote]
  split
  · rfl
  · split <;> rfl

@[simp] theorem setRaft_ids : (s.setRaft id node).ids = s.ids := rfl

@[simp] theorem setRaft_voteCalls : (s.setRaft id node).voteCalls = s.voteCalls := rfl

@[simp] theorem setRaft_appendCalls : (s.setRaft id node).appendCalls = s.appendCalls := rfl

@[simp] theorem setRaft_members_self :
    (s.setRaft id node).members id = { s.members id with raft := node } :=
  Function.update_self ..

theorem setRaft_members_of_ne {i id : Nat} (ne : i ≠ id) :
    (s.setRaft id node).members i = s.members i :=
  Function.update_of_ne ne ..

@[simp] theorem setRaft_raft_self : (s.setRaft id node).raft id = node := by
  rw [raft, setRaft_members_self]

theorem setRaft_raft_of_ne {i id : Nat} (ne : i ≠ id) : (s.setRaft id node).raft i = s.raft i := by
  rw [raft, setRaft_members_of_ne _ _ ne, raft]

/-- A reflexive relation between the old and the new node holds at every node. -/
theorem setRaft_rel {R : RaftNode → RaftNode → Prop} {s : Cluster} {id : Nat} {node : RaftNode}
    (refl : ∀ other, R other other) (here : R (s.raft id) node) (i : Nat) :
    R (s.raft i) ((s.setRaft id node).raft i) := by
  by_cases same : i = id
  · rw [same, setRaft_raft_self]
    exact here
  · rw [setRaft_raft_of_ne _ _ same]
    exact refl _

@[simp] theorem setRaft_campaign : ((s.setRaft id node).members i).campaign =
    (s.members i).campaign := by
  by_cases same : i = id
  · rw [same, setRaft_members_self]
  · rw [setRaft_members_of_ne _ _ same]

@[simp] theorem setRaft_campaigns : ((s.setRaft id node).members i).campaigns =
    (s.members i).campaigns := by
  by_cases same : i = id
  · rw [same, setRaft_members_self]
  · rw [setRaft_members_of_ne _ _ same]

@[simp] theorem setRaft_rounds : ((s.setRaft id node).members i).rounds =
    (s.members i).rounds := by
  by_cases same : i = id
  · rw [same, setRaft_members_self]
  · rw [setRaft_members_of_ne _ _ same]

@[simp] theorem sendHeartbeats_ids : (s.sendHeartbeats id).ids = s.ids := by
  rw [sendHeartbeats]
  dsimp only
  split <;> rfl

@[simp] theorem sendHeartbeats_voteCalls : (s.sendHeartbeats id).voteCalls = s.voteCalls := by
  rw [sendHeartbeats]
  dsimp only
  split <;> rfl

/-- A round of heartbeats moves the round counter of its sender. -/
theorem sendHeartbeats_members : (s.sendHeartbeats id).members i =
    { s.members i with rounds := ((s.sendHeartbeats id).members i).rounds } := by
  rw [sendHeartbeats]
  dsimp only
  split
  · dsimp only
    by_cases same : i = id
    · rw [same, Function.update_self]
    · rw [Function.update_of_ne same]
  · rfl

@[simp] theorem sendHeartbeats_raft : (s.sendHeartbeats id).raft i = s.raft i := by
  rw [raft, sendHeartbeats_members, raft]

@[simp] theorem sendHeartbeats_campaign : ((s.sendHeartbeats id).members i).campaign =
    (s.members i).campaign := by
  rw [sendHeartbeats_members]

@[simp] theorem sendHeartbeats_campaigns : ((s.sendHeartbeats id).members i).campaigns =
    (s.members i).campaigns := by
  rw [sendHeartbeats_members]

end Cluster

end Rusd
