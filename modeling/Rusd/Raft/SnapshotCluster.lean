/-
**A cluster that exchanges snapshots.**

The cluster of Raft nodes, with the snapshots its nodes take of their stores and the requests that carry
them to peers whose next index lies behind the first index of a leader. The steps of the cluster without
snapshots are those of `Cluster`; a round of heartbeats sends a snapshot request wherever it sends no
append request.

A snapshot stands for the entries up to its index. The lists `covered` say which entries these were; they
are kept beside the code, which only sees the index, the term and the data.

* `appendRequest_none_iff` — a round sends an append request or a snapshot request, never both.
* `toRaftNode_installSnapshot`, `toRaftNode_takeSnapshot` — the handlers do what those of the node with
  its log on disk do.
-/

import Rusd.Raft.LogShape
import Rusd.Raft.WholeLog

namespace Rusd

/-! ### The handlers -/

namespace RaftNode

def installSnapshot (node : RaftNode) (request : InstallSnapshotRequest) : RaftNode :=
  if request.term < node.state.currentTerm then node
  else
    let observed := node.observeTerm request.term
    let followed := { observed with state := observed.state.setLeaderId request.leaderId }
    if request.done then
      { followed with
        log := (followed.log.saveSnapshotWithData request.lastIncludedIndex request.lastIncludedTerm
          request.data).truncateBefore (request.lastIncludedIndex + 1)
        state := (followed.state.setCommitIndex request.lastIncludedIndex).setLastApplied
          request.lastIncludedIndex }
    else followed

/-- The index of the snapshot that `trigger_snapshot` takes. -/
def snapshotPoint (node : RaftNode) (snapshotThreshold : Nat) : Nat :=
  node.log.lastIndex - snapshotThreshold / 2

/-- `trigger_snapshot`; `data` is what the callback returned, if the node has one. -/
def takeSnapshot (node : RaftNode) (snapshotThreshold : Nat) (data : Option Bytes) : RaftNode :=
  let snapshotIndex := node.snapshotPoint snapshotThreshold
  if snapshotIndex > node.log.snapshotIndex then
    let snapshotTerm := (node.log.termAt snapshotIndex).getD 0
    let saved := match data with
      | some data => node.log.saveSnapshotWithData snapshotIndex snapshotTerm data
      | none => node.log.saveSnapshot snapshotIndex snapshotTerm
    { node with log := saved.truncateBefore (snapshotIndex + 1) }
  else node

/-- The snapshot request for a peer that is behind the first index. -/
def snapshotRequest (node : RaftNode) (peerId : Nat) : Option InstallSnapshotRequest :=
  let nextIdx := (node.state.nextIndex peerId).getD 1
  if nextIdx < node.log.firstIndex then
    node.log.snapshotData.map fun snapshotData =>
      { term := node.state.currentTerm
        leaderId := node.config.id
        lastIncludedIndex := node.log.snapshotIndex
        lastIncludedTerm := node.log.snapshotTerm
        offset := 0
        data := snapshotData
        done := true }
  else none

/-- The task of a snapshot request takes any response as a success. -/
def handleSnapshotReply (node : RaftNode) (peerId snapshotIndex : Nat) : RaftNode :=
  { node with
    state := (node.state.setMatchIndex peerId snapshotIndex).setNextIndex peerId (snapshotIndex + 1) }

/-- **A round sends one request to each peer.** -/
theorem appendRequest_none_iff (node : RaftNode) (peerId : Nat) :
    node.appendRequest peerId = none ↔ (node.snapshotRequest peerId).isSome := by
  rw [appendRequest, snapshotRequest]
  dsimp only
  by_cases behind : (node.state.nextIndex peerId).getD 1 < node.log.firstIndex
  · rw [if_pos behind, Option.isSome_map]
    cases node.log.snapshotData with
    | none => simp
    | some data => simp [behind]
  · rw [if_neg behind, if_neg fun both => behind both.1]
    simp

theorem installSnapshot_config (node : RaftNode) (request : InstallSnapshotRequest) :
    (node.installSnapshot request).config = node.config := by
  rw [installSnapshot]
  split
  · rfl
  · dsimp only
    split
    · exact observeTerm_config node request.term
    · exact observeTerm_config node request.term

theorem takeSnapshot_beside {node : RaftNode} {snapshotThreshold : Nat} {data : Option Bytes} :
    (node.takeSnapshot snapshotThreshold data).config = node.config ∧
    (node.takeSnapshot snapshotThreshold data).state = node.state := by
  rw [takeSnapshot]
  dsimp only
  split <;> exact ⟨rfl, rfl⟩

end RaftNode

/-! ### The handlers of the node with its log on disk -/

namespace SnapshotNode

/-- Only `save_snapshot` stores the snapshot index and the first index, both at once. -/
def Aligned (node : SnapshotNode) : Prop := node.log.firstIndex = node.log.snapshotIndex + 1

variable {node : SnapshotNode}

theorem Aligned.snapshotIndex (aligned : node.Aligned) :
    node.toRaftNode.log.snapshotIndex = node.log.snapshotIndex := by
  show node.log.firstIndex - 1 = _
  rw [aligned, Nat.add_sub_cancel]

theorem Aligned.new (config : RaftConfig) (snapshotThreshold : Nat) (tree : LogTree) :
    (SnapshotNode.new config snapshotThreshold tree).Aligned :=
  DurableLog.new_firstIndex tree

theorem Aligned.step {s next : NodeRun} {event : NodeRun.Event} (moves : s.step event = some next)
    (aligned : s.node.Aligned) : next.node.Aligned := by
  rw [Aligned, NodeRun.step_log moves]
  cases event with
  | appendEntries request =>
    rw [NodeRun.logAfter]
    split
    · obtain ⟨first, index, -⟩ := DurableLog.spliceLog_counters s.node.log request.entries
      rw [first, index]
      exact aligned
    · exact aligned
  | installSnapshot request =>
    rw [NodeRun.logAfter]
    split
    · rfl
    · exact aligned
  | propose entryType data =>
    obtain ⟨first, index, -⟩ := DurableLog.append_counters s.node.log
      [⟨s.node.log.lastIndex + 1, s.node.state.currentTerm, data, entryType⟩]
    rw [NodeRun.logAfter, first, index]
    exact aligned
  | triggerSnapshot data =>
    rw [NodeRun.logAfter, takeSnapshot]
    dsimp only
    split
    · cases data with
      | none => exact ((DurableLog.truncateBefore_after_save _ _ _ []).2).symm ▸ rfl
      | some data => exact ((DurableLog.truncateBefore_after_save _ _ _ data).1).symm ▸ rfl
    · exact aligned
  | _ => exact aligned

/-- **`handle_install_snapshot` without the disk.** -/
theorem toRaftNode_installSnapshot (node : SnapshotNode) (request : InstallSnapshotRequest) :
    (node.installSnapshot request).toRaftNode = node.toRaftNode.installSnapshot request := by
  unfold installSnapshot RaftNode.installSnapshot
  have term : node.toRaftNode.state.currentTerm = node.state.currentTerm := rfl
  have config : (node.toRaftNode.observeTerm request.term).config = node.config :=
    (Unmoved.observeTerm node.toRaftNode request.term).config
  have log : (node.toRaftNode.observeTerm request.term).log = node.log.toRaftLog :=
    (Unmoved.observeTerm node.toRaftNode request.term).log
  rw [term]
  split
  · rfl
  dsimp only
  split
  · rw [(DurableLog.truncateBefore_after_save _ _ _ _).1, log,
      RaftLog.truncateBefore_saveSnapshotWithData]
    unfold toRaftNode observeTerm withRaft
    dsimp only
    congr 1
    exact config.symm
  · unfold toRaftNode observeTerm withRaft
    dsimp only
    congr 1
    · exact config.symm
    · exact log.symm

/-- **`trigger_snapshot` without the disk.** -/
theorem toRaftNode_takeSnapshot (aligned : node.Aligned) (data : Option Bytes) :
    (node.takeSnapshot data).toRaftNode =
      node.toRaftNode.takeSnapshot node.snapshotThreshold data := by
  unfold takeSnapshot RaftNode.takeSnapshot RaftNode.snapshotPoint
  dsimp only
  rw [aligned.snapshotIndex]
  have last : node.toRaftNode.log.lastIndex = node.log.lastIndex := rfl
  rw [last]
  split
  · cases data with
    | none =>
      dsimp only
      rw [(DurableLog.truncateBefore_after_save _ _ _ []).2, RaftLog.truncateBefore_saveSnapshot]
      rfl
    | some data =>
      dsimp only
      rw [(DurableLog.truncateBefore_after_save _ _ _ _).1, RaftLog.truncateBefore_saveSnapshotWithData]
      rfl
  · rfl

end SnapshotNode

/-! ### The state -/

structure SnapshotCall where
  request : InstallSnapshotRequest
  covered : List LogEntry
  replies : List InstallSnapshotResponse
  answered : Bool
  deriving DecidableEq, Repr

structure SnapshotCluster where
  cluster : Cluster
  thresholds : Nat → Nat
  covered : Nat → List LogEntry
  snapshotCalls : CallId → Option SnapshotCall

namespace SnapshotCluster

/-- The cluster before any step; the second argument gives each node's `snapshot_threshold`. -/
def start (config : ClusterConfig) (thresholds : Nat → Nat) : SnapshotCluster where
  cluster := .start config
  thresholds := thresholds
  covered := fun _ => []
  snapshotCalls := fun _ => none

def raft (s : SnapshotCluster) (id : Nat) : RaftNode := s.cluster.raft id

/-- What a node stores at an index: its snapshot below the first index, its log from there on. -/
def stored (s : SnapshotCluster) (id index : Nat) : Option LogEntry :=
  if index < (s.raft id).log.firstIndex then (s.covered id)[index - 1]?
  else (s.raft id).log.get index

def entriesUpTo (s : SnapshotCluster) (id index : Nat) : List LogEntry :=
  (List.range' 1 index).filterMap (s.stored id)

/-! ### The steps -/

inductive Action
  | raft (action : Cluster.Action)
  /-- The tick takes a snapshot; the callback returns the data, if there is one. -/
  | triggerSnapshot (id : Nat) (data : Option Bytes)
  /-- A snapshot request reaches its peer, whose callback restores the store or does not. -/
  | deliverSnapshot (call : CallId) (restored : Bool)
  | snapshotReply (call : CallId) (reply : Nat)
  deriving DecidableEq, Repr

/-- Where the step began a round of requests, the calls of it that carry snapshots. -/
def sendSnapshots (s : SnapshotCluster) (next : Cluster) : SnapshotCluster :=
  { s with
    cluster := next
    snapshotCalls := fun call =>
      if call.number = (s.cluster.members call.owner).rounds ∧
          call.number < (next.members call.owner).rounds ∧ call.peer ∈ (next.raft call.owner).peerIds ∧
          ((next.raft call.owner).snapshotRequest call.peer).isSome then
        ((next.raft call.owner).snapshotRequest call.peer).map fun request =>
          ⟨request, s.covered call.owner, [], false⟩
      else s.snapshotCalls call }

def triggerSnapshot (s : SnapshotCluster) (id : Nat) (data : Option Bytes) : SnapshotCluster :=
  let node := s.raft id
  let snapshotIndex := node.snapshotPoint (s.thresholds id)
  { s with
    cluster := s.cluster.setRaft id (node.takeSnapshot (s.thresholds id) data)
    covered :=
      if snapshotIndex > node.log.snapshotIndex ∧ data.isSome then
        Function.update s.covered id (s.entriesUpTo id snapshotIndex)
      else s.covered }

def deliverSnapshot (s : SnapshotCluster) (id : CallId) (call : SnapshotCall) (restored : Bool) :
    SnapshotCluster :=
  let node := s.raft id.peer
  { s with
    cluster := s.cluster.setRaft id.peer (node.installSnapshot call.request)
    covered :=
      if node.state.currentTerm ≤ call.request.term ∧ call.request.done ∧ restored then
        Function.update s.covered id.peer call.covered
      else s.covered
    snapshotCalls := Function.update s.snapshotCalls id
      (some { call with replies := call.replies ++ [⟨node.state.currentTerm⟩] }) }

def snapshotReply (s : SnapshotCluster) (id : CallId) (call : SnapshotCall) : SnapshotCluster :=
  { s with
    cluster := s.cluster.setRaft id.owner
      ((s.raft id.owner).handleSnapshotReply id.peer call.request.lastIncludedIndex)
    snapshotCalls := Function.update s.snapshotCalls id (some { call with answered := true }) }

/-- One step of the cluster; `none` where the action is not enabled. -/
def step (s : SnapshotCluster) : Action → Option SnapshotCluster
  | .raft action => (s.cluster.step action).map s.sendSnapshots
  | .triggerSnapshot id data =>
    if id ∈ s.cluster.ids ∧ (s.cluster.members id).campaign = none ∧
        (s.raft id).log.lastIndex - (s.raft id).log.firstIndex > s.thresholds id then
      some (s.triggerSnapshot id data)
    else none
  | .deliverSnapshot id restored =>
    match s.snapshotCalls id with
    | some call => some (s.deliverSnapshot id call restored)
    | none => none
  | .snapshotReply id reply =>
    match s.snapshotCalls id with
    | some call =>
      match call.replies[reply]? with
      | some _ => if call.answered then none else some (s.snapshotReply id call)
      | none => none
    | none => none

/-- Run the cluster from its start. -/
def run (config : ClusterConfig) (thresholds : Nat → Nat) (actions : List Action) :
    Option SnapshotCluster :=
  runFrom step (start config thresholds) actions

end SnapshotCluster

end Rusd
