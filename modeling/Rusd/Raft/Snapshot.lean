/-
**A node with its log on disk.**

The node of the cluster model, with the log as it is kept in its tree, and the two handlers that need it:
`handle_install_snapshot` and `trigger_snapshot`. The store behind the snapshot callbacks is a type of
its own; whether it could be restored makes no difference to the node.

* `toRaftNode_handleAppendEntries`, `toRaftNode_propose` — the handlers that write to the log leave the
  node that they leave without the disk.
* `NodeRun` — one node on its own, handling whatever reaches it in any order, with the tasks of its
  elections still waiting for their answers.
-/

import Rusd.Raft.DurableLog
import Rusd.Raft.NodeStep

namespace Rusd

structure InstallSnapshotRequest where
  term : Nat
  leaderId : Nat
  lastIncludedIndex : Nat
  lastIncludedTerm : Nat
  offset : Nat
  data : Bytes
  done : Bool
  deriving DecidableEq, Repr

structure InstallSnapshotResponse where
  term : Nat
  deriving DecidableEq, Repr

/-- The callbacks of a node over its store: a snapshot of it, and its restoration, with what the callback
returned. -/
structure SnapshotCallbacks (σ : Type) where
  create : Option (σ → Bytes)
  restore : Option (Bytes → σ → σ × Except String Unit)

structure SnapshotNode where
  config : RaftConfig
  snapshotThreshold : Nat
  state : RaftState
  log : DurableLog
  commitNotifier : CommitNotifier
  applyTx : List LogEntry

namespace SnapshotNode

/-- `RaftNode::with_snapshot_callbacks`, over the log that is read back from the tree. -/
def new (config : RaftConfig) (snapshotThreshold : Nat) (tree : LogTree) : SnapshotNode where
  config := config
  snapshotThreshold := snapshotThreshold
  state :=
    if config.peers.isEmpty then
      (RaftState.new.setTerm 1).becomeLeader config.id [] (DurableLog.new tree).lastIndex
    else RaftState.new
  log := DurableLog.new tree
  commitNotifier := CommitNotifier.new
  applyTx := []

/-- The node without its disk. -/
def toRaftNode (node : SnapshotNode) : RaftNode :=
  ⟨node.config, node.state, node.log.toRaftLog, node.commitNotifier, node.applyTx⟩

/-- The node after a handler that does not write to the log. -/
def withRaft (node : SnapshotNode) (raft : RaftNode) : SnapshotNode :=
  { node with state := raft.state, commitNotifier := raft.commitNotifier, applyTx := raft.applyTx }

/-! ### The handlers of the cluster model -/

def handleRequestVote (node : SnapshotNode) (request : RequestVoteRequest) :
    SnapshotNode × RequestVoteResponse :=
  let handled := node.toRaftNode.handleRequestVote request
  (node.withRaft handled.1, handled.2)

def startPreVote (node : SnapshotNode) : SnapshotNode × RequestVoteRequest :=
  let started := node.toRaftNode.startPreVote
  (node.withRaft started.1, started.2)

def startRealElection (node : SnapshotNode) : SnapshotNode × RequestVoteRequest :=
  let started := node.toRaftNode.startRealElection
  (node.withRaft started.1, started.2)

def handleVoteReply (node : SnapshotNode) (request : RequestVoteRequest)
    (response : RequestVoteResponse) : SnapshotNode :=
  node.withRaft (node.toRaftNode.handleVoteReply request response)

def becomeLeader (node : SnapshotNode) : SnapshotNode :=
  node.withRaft node.toRaftNode.becomeLeader

def handleAppendReply (node : SnapshotNode) (peerId leaderLastIndex : Nat)
    (response : AppendEntriesResponse) : SnapshotNode :=
  node.withRaft (node.toRaftNode.handleAppendReply peerId leaderLastIndex response)

def applyCommittedEntries (node : SnapshotNode) : SnapshotNode :=
  node.withRaft node.toRaftNode.applyCommittedEntries

def spliceLog (log : DurableLog) (entries : List LogEntry) : DurableLog :=
  match entries with
  | [] => log
  | first :: _ =>
    let truncated :=
      if first.index ≤ log.lastIndex then log.truncateAfter (first.index - 1) else log
    truncated.append entries

def handleAppendEntries (node : SnapshotNode) (request : AppendEntriesRequest) :
    SnapshotNode × AppendEntriesResponse :=
  let handled := node.toRaftNode.handleAppendEntries request
  ({ node.withRaft handled.1 with
      log := if node.toRaftNode.Accepts request then spliceLog node.log request.entries
        else node.log },
    handled.2)

def propose (node : SnapshotNode) (entryType : EntryType) (data : Bytes) : SnapshotNode :=
  { node.withRaft (node.toRaftNode.propose entryType data) with
    log := node.log.append
      [⟨node.log.lastIndex + 1, node.state.currentTerm, data, entryType⟩] }

/-! ### Snapshots -/

/-- Step down for a request from a later term. -/
def observeTerm (node : SnapshotNode) (term : Nat) : SnapshotNode :=
  node.withRaft (node.toRaftNode.observeTerm term)

/-- The part of `handle_install_snapshot` that changes the node. -/
def installSnapshot (node : SnapshotNode) (request : InstallSnapshotRequest) : SnapshotNode :=
  if request.term < node.state.currentTerm then node
  else
    let observed := node.observeTerm request.term
    let followed := { observed with state := observed.state.setLeaderId request.leaderId }
    if request.done then
      { followed with
        log := (followed.log.saveSnapshotWithData request.lastIncludedIndex request.lastIncludedTerm
          request.data).truncateBefore (request.lastIncludedIndex + 1)
        state := (followed.state.setCommitIndex request.lastIncludedIndex).setLastApplied
          request.lastIncludedIndex }
    else followed

/-- The store is restored first; a failure of the callback is only reported in a warning. -/
def handleInstallSnapshot {σ : Type} (callbacks : SnapshotCallbacks σ) (node : SnapshotNode) (store : σ)
    (request : InstallSnapshotRequest) : SnapshotNode × σ × InstallSnapshotResponse :=
  let restored := match callbacks.restore with
    | some restore => (restore request.data store).1
    | none => store
  (node.installSnapshot request,
    if request.term ≥ node.state.currentTerm ∧ request.done then restored else store,
    ⟨node.state.currentTerm⟩)

/-- The part of `trigger_snapshot` that changes the node; `data` is what the callback returned, if the
node has one. -/
def takeSnapshot (node : SnapshotNode) (data : Option Bytes) : SnapshotNode :=
  let snapshotIndex := node.log.lastIndex - node.snapshotThreshold / 2
  if snapshotIndex > node.log.snapshotIndex then
    let snapshotTerm := (node.log.termAt snapshotIndex).getD 0
    let saved := match data with
      | some data => node.log.saveSnapshotWithData snapshotIndex snapshotTerm data
      | none => node.log.saveSnapshot snapshotIndex snapshotTerm
    { node with log := saved.truncateBefore (snapshotIndex + 1) }
  else node

def triggerSnapshot {σ : Type} (callbacks : SnapshotCallbacks σ) (node : SnapshotNode) (store : σ) :
    SnapshotNode :=
  node.takeSnapshot (callbacks.create.map fun create => create store)

/-- The tick takes a snapshot when the log has outgrown the threshold. -/
def snapshotNeeded (node : SnapshotNode) : Prop :=
  node.log.lastIndex - node.log.firstIndex > node.snapshotThreshold

instance (node : SnapshotNode) : Decidable node.snapshotNeeded := inferInstanceAs (Decidable (_ > _))

/-! ### The node without its disk -/

variable (node : SnapshotNode)

theorem toRaftNode_withRaft {raft : RaftNode} (config : raft.config = node.config)
    (log : raft.log = node.log.toRaftLog) : (node.withRaft raft).toRaftNode = raft := by
  unfold withRaft toRaftNode
  rw [← config, ← log]

theorem toRaftLog_spliceLog (log : DurableLog) (entries : List LogEntry) :
    (spliceLog log entries).toRaftLog = RaftNode.spliceLog log.toRaftLog entries := by
  cases entries with
  | nil => rfl
  | cons first rest =>
    rw [spliceLog, RaftNode.spliceLog]
    rw [DurableLog.toRaftLog_append]
    congr 1
    show (if first.index ≤ log.lastIndex then log.truncateAfter (first.index - 1) else log).toRaftLog =
      if first.index ≤ log.lastIndex then log.toRaftLog.truncateAfter (first.index - 1)
      else log.toRaftLog
    split
    · exact DurableLog.toRaftLog_truncateAfter ..
    · rfl

/-- **`handle_append_entries` without the disk.** -/
theorem toRaftNode_handleAppendEntries (request : AppendEntriesRequest) :
    (node.handleAppendEntries request).1.toRaftNode =
      (node.toRaftNode.handleAppendEntries request).1 := by
  by_cases accepts : node.toRaftNode.Accepts request
  · have config : (node.toRaftNode.observeTerm request.term).config = node.config :=
      (Unmoved.observeTerm node.toRaftNode request.term).config
    unfold handleAppendEntries
    dsimp only
    rw [if_pos accepts, (RaftNode.handleAppendEntries_accept accepts).1]
    unfold toRaftNode withRaft
    dsimp only
    rw [toRaftLog_spliceLog]
    congr 1
    exact config.symm
  · have unmoved := RaftNode.handleAppendEntries_unmoved accepts
    unfold handleAppendEntries
    dsimp only
    rw [if_neg accepts]
    exact node.toRaftNode_withRaft unmoved.config unmoved.log

theorem toRaftNode_propose (entryType : EntryType) (data : Bytes) :
    (node.propose entryType data).toRaftNode = node.toRaftNode.propose entryType data := by
  unfold propose toRaftNode
  dsimp only
  rw [DurableLog.toRaftLog_append]
  rfl

theorem toRaftNode_handleRequestVote (request : RequestVoteRequest) :
    (node.handleRequestVote request).1.toRaftNode =
      (node.toRaftNode.handleRequestVote request).1 := by
  have unmoved := Unmoved.handleRequestVote node.toRaftNode request
  exact node.toRaftNode_withRaft unmoved.config unmoved.log

end SnapshotNode

/-! ### One node on its own -/

/-- A node, and the vote requests of its elections. -/
structure NodeRun where
  node : SnapshotNode
  asked : List RequestVoteRequest

namespace NodeRun

/-- What may happen to a node. -/
inductive Event
  | appendEntries (request : AppendEntriesRequest)
  | requestVote (request : RequestVoteRequest)
  | installSnapshot (request : InstallSnapshotRequest)
  | startPreVote
  | startRealElection
  /-- The task of a vote request of an election takes a response. -/
  | voteReply (election : Nat) (response : RequestVoteResponse)
  | becomeLeader
  | appendReply (peer leaderLastIndex : Nat) (response : AppendEntriesResponse)
  | propose (entryType : EntryType) (data : Bytes)
  | applyCommittedEntries
  /-- The callback returns the data, if there is one. -/
  | triggerSnapshot (data : Option Bytes)
  deriving DecidableEq, Repr

/-- A node begins with the log that it finds in its tree. -/
def start (config : RaftConfig) (snapshotThreshold : Nat) (tree : LogTree) : NodeRun :=
  ⟨.new config snapshotThreshold tree, []⟩

/-- One step; `none` where the event cannot happen. -/
def step (s : NodeRun) : Event → Option NodeRun
  | .appendEntries request => some { s with node := (s.node.handleAppendEntries request).1 }
  | .requestVote request => some { s with node := (s.node.handleRequestVote request).1 }
  | .installSnapshot request => some { s with node := s.node.installSnapshot request }
  | .startPreVote => some { s with node := s.node.startPreVote.1 }
  | .startRealElection =>
    some ⟨s.node.startRealElection.1, s.asked ++ [s.node.startRealElection.2]⟩
  | .voteReply election response =>
    match s.asked[election]? with
    | some request => some { s with node := s.node.handleVoteReply request response }
    | none => none
  | .becomeLeader => if s.asked = [] then none else some { s with node := s.node.becomeLeader }
  | .appendReply peer leaderLastIndex response =>
    some { s with node := s.node.handleAppendReply peer leaderLastIndex response }
  | .propose entryType data =>
    if s.node.state.isLeader then some { s with node := s.node.propose entryType data } else none
  | .applyCommittedEntries => some { s with node := s.node.applyCommittedEntries }
  | .triggerSnapshot data => some { s with node := s.node.takeSnapshot data }

end NodeRun

end Rusd
