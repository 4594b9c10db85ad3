/-
**One Raft node.**

The handlers of `RaftNode`, each as a function of the node before it. What a handler sends out (the
requests of an election or of a heartbeat round) is returned as a value; the cluster puts it on the
network. The election and heartbeat timers are not kept: a timeout may happen at any time.

The transport is taken as it is used: a call returns a response of the peer's handler, or an error.
Writes to the tree of the log do not fail.
-/

import Rusd.Raft.Log
import Rusd.Raft.State

namespace Rusd

/-! ### Messages -/

structure RequestVoteRequest where
  term : Nat
  candidateId : Nat
  lastLogIndex : Nat
  lastLogTerm : Nat
  preVote : Bool
  deriving DecidableEq, Repr

structure RequestVoteResponse where
  term : Nat
  voteGranted : Bool
  deriving DecidableEq, Repr

structure AppendEntriesRequest where
  term : Nat
  leaderId : Nat
  prevLogIndex : Nat
  prevLogTerm : Nat
  entries : List LogEntry
  leaderCommit : Nat
  deriving DecidableEq, Repr

structure AppendEntriesResponse where
  term : Nat
  success : Bool
  matchIndex : Nat
  conflictIndex : Nat
  conflictTerm : Nat
  deriving DecidableEq, Repr

/-! ### The node -/

/-- What the handlers read of the configuration. -/
structure RaftConfig where
  id : Nat
  peers : List Nat
  maxLogEntriesPerRequest : Nat
  preVote : Bool
  deriving DecidableEq, Repr

/-- The waiters on an index, each with the sender that wakes it, and the senders used so far. -/
structure CommitNotifier where
  waiters : List (Nat × Nat)
  signalled : List Nat
  deriving DecidableEq, Repr

namespace CommitNotifier

def new : CommitNotifier := ⟨[], []⟩

def register (notifier : CommitNotifier) (index sender : Nat) : CommitNotifier :=
  { notifier with waiters := notifier.waiters ++ [(index, sender)] }

def notifyUpTo (notifier : CommitNotifier) (committedIndex : Nat) : CommitNotifier where
  waiters := notifier.waiters.filter fun waiter => decide (committedIndex < waiter.1)
  signalled := notifier.signalled ++
    (notifier.waiters.filter fun waiter => decide (waiter.1 ≤ committedIndex)).map (·.2)

end CommitNotifier

/-- A node, with the entries it has sent on its apply channel. -/
structure RaftNode where
  config : RaftConfig
  state : RaftState
  log : RaftLog
  commitNotifier : CommitNotifier
  applyTx : List LogEntry

namespace RaftNode

/-- `RaftNode::new`: a node without peers leads at once. -/
def new (config : RaftConfig) : RaftNode where
  config := config
  state :=
    if config.peers.isEmpty then (RaftState.new.setTerm 1).becomeLeader config.id [] 0
    else RaftState.new
  log := RaftLog.new
  commitNotifier := CommitNotifier.new
  applyTx := []

/-- The peers a node sends to. -/
def peerIds (node : RaftNode) : List Nat := node.config.peers.filter (· ≠ node.config.id)

/-- The votes that win an election. -/
def majority (node : RaftNode) : Nat := (node.peerIds.length + 1) / 2 + 1

/-! ### Elections -/

/-- The start of `start_pre_vote`, up to its counting loop. -/
def startPreVote (node : RaftNode) : RaftNode × RequestVoteRequest :=
  ({ node with state := node.state.becomePreCandidate },
    { term := node.state.currentTerm + 1
      candidateId := node.config.id
      lastLogIndex := node.log.lastIndex
      lastLogTerm := node.log.lastTerm
      preVote := true })

/-- The start of `start_real_election`: the requests carry the term that `set_term` stores, and
`become_candidate` moves the node one further. -/
def startRealElection (node : RaftNode) : RaftNode × RequestVoteRequest :=
  let newTerm := node.state.currentTerm + 1
  ({ node with state := ((node.state.setTerm newTerm).becomeCandidate).voteFor node.config.id },
    { term := newTerm
      candidateId := node.config.id
      lastLogIndex := node.log.lastIndex
      lastLogTerm := node.log.lastTerm
      preVote := false })

def becomeLeader (node : RaftNode) : RaftNode :=
  { node with
    state := node.state.becomeLeader node.config.id node.config.peers node.log.lastIndex }

/-- The candidate's log is at least as far as the voter's. -/
def logOk (node : RaftNode) (request : RequestVoteRequest) : Bool :=
  request.lastLogTerm > node.log.lastTerm ∨
    (request.lastLogTerm = node.log.lastTerm ∧ request.lastLogIndex ≥ node.log.lastIndex)

/-- Step down for a request from a later term. -/
def observeTerm (node : RaftNode) (term : Nat) : RaftNode :=
  if term > node.state.currentTerm then { node with state := node.state.becomeFollower term }
  else node

theorem observeTerm_config (node : RaftNode) (term : Nat) :
    (node.observeTerm term).config = node.config := by
  rw [observeTerm]
  split <;> rfl

def handleRequestVote (node : RaftNode) (request : RequestVoteRequest) :
    RaftNode × RequestVoteResponse :=
  let currentTerm := node.state.currentTerm
  if request.term < currentTerm then (node, ⟨currentTerm, false⟩)
  else
    let observed := node.observeTerm request.term
    let canVote := observed.state.votedFor = none ∨
      observed.state.votedFor = some request.candidateId
    let voteGranted : Bool := canVote ∧ observed.logOk request
    if voteGranted ∧ ¬ request.preVote then
      ({ observed with state := observed.state.voteFor request.candidateId },
        ⟨currentTerm, voteGranted⟩)
    else (observed, ⟨currentTerm, voteGranted⟩)

/-- The task of a vote request, before it passes the vote on: a pre-vote's answer changes nothing. -/
def handleVoteReply (node : RaftNode) (request : RequestVoteRequest)
    (response : RequestVoteResponse) : RaftNode :=
  if ¬ request.preVote ∧ response.term > request.term then
    { node with state := node.state.becomeFollower response.term }
  else node

/-! ### Replication -/

/-- The append request for a peer; `none` where a snapshot is sent in its place. -/
def appendRequest (node : RaftNode) (peerId : Nat) : Option AppendEntriesRequest :=
  let nextIdx := (node.state.nextIndex peerId).getD 1
  if nextIdx < node.log.firstIndex ∧ node.log.snapshotData.isSome then none
  else
    let prevLogIndex := nextIdx - 1
    some
      { term := node.state.currentTerm
        leaderId := node.config.id
        prevLogIndex := prevLogIndex
        prevLogTerm := (node.log.termAt prevLogIndex).getD 0
        entries := node.log.getRange nextIdx (nextIdx + node.config.maxLogEntriesPerRequest)
        leaderCommit := node.state.commitIndex }

/-- The append request of `send_heartbeats` for a peer: only a leader sends, and only to the others. -/
def heartbeat (node : RaftNode) (peerId : Nat) : Option AppendEntriesRequest :=
  if node.state.isLeader ∧ peerId ∈ node.peerIds then node.appendRequest peerId else none

/-- Walk down from an index while the entry below it has the conflicting term. -/
def conflictStart (log : RaftLog) (conflictTerm : Nat) : Nat → Nat
  | 0 => 0
  | index + 1 =>
    if index + 1 > log.firstIndex ∧ (log.termAt index).getD 0 = conflictTerm then
      conflictStart log conflictTerm index
    else index + 1

/-- Store the entries of a request that passed the check of the previous entry. -/
def spliceLog (log : RaftLog) (entries : List LogEntry) : RaftLog :=
  match entries with
  | [] => log
  | first :: _ =>
    let truncated :=
      if first.index ≤ log.lastIndex then log.truncateAfter (first.index - 1) else log
    truncated.append entries

/-- The commit index of a follower after an accepted request. -/
def followCommit (state : RaftState) (log : RaftLog) (leaderCommit : Nat) : RaftState :=
  if leaderCommit > state.commitIndex then state.setCommitIndex (min leaderCommit log.lastIndex)
  else state

def handleAppendEntries (node : RaftNode) (request : AppendEntriesRequest) :
    RaftNode × AppendEntriesResponse :=
  let currentTerm := node.state.currentTerm
  if request.term < currentTerm then (node, ⟨currentTerm, false, 0, 0, 0⟩)
  else
    let observed := node.observeTerm request.term
    let followed := { observed with state := observed.state.setLeaderId request.leaderId }
    if ¬ node.log.hasEntry request.prevLogIndex request.prevLogTerm then
      let conflictTerm := (node.log.termAt request.prevLogIndex).getD 0
      (followed,
        ⟨currentTerm, false, 0, conflictStart node.log conflictTerm request.prevLogIndex,
          conflictTerm⟩)
    else
      let log := spliceLog node.log request.entries
      ({ followed with log := log, state := followCommit followed.state log request.leaderCommit },
        ⟨currentTerm, true, request.prevLogIndex + request.entries.length, 0, 0⟩)

/-- The indices a response of a peer leaves with the leader. -/
def noteAppendReply (state : RaftState) (peerId : Nat) (response : AppendEntriesResponse) :
    RaftState :=
  if response.success then
    (state.setMatchIndex peerId response.matchIndex).setNextIndex peerId (response.matchIndex + 1)
  else if response.conflictIndex > 0 then state.setNextIndex peerId response.conflictIndex
  else state.decrementNextIndex peerId

/-- The task of an append request: the commit index follows the majority index, whatever the node has
become since it sent the request. -/
def handleAppendReply (node : RaftNode) (peerId leaderLastIndex : Nat)
    (response : AppendEntriesResponse) : RaftNode :=
  let noted := noteAppendReply node.state peerId response
  let majorityMatchIdx := noted.majorityMatchIndex node.peerIds leaderLastIndex
  if majorityMatchIdx > noted.commitIndex then
    { node with
      state := noted.setCommitIndex majorityMatchIdx
      commitNotifier := node.commitNotifier.notifyUpTo majorityMatchIdx }
  else { node with state := noted }

/-! ### Proposals and application -/

/-- `propose` and `propose_conf_change` up to their heartbeat round; the index of the entry is the last
one of the log after it. -/
def propose (node : RaftNode) (entryType : EntryType) (data : Bytes) : RaftNode :=
  let index := node.log.lastIndex + 1
  let entry : LogEntry := ⟨index, node.state.currentTerm, data, entryType⟩
  { node with
    log := node.log.append [entry]
    state := if node.config.peers.isEmpty then node.state.setCommitIndex index else node.state }

/-- The entries that `apply_committed_entries` sends. -/
def committedEntries (node : RaftNode) : List LogEntry :=
  (List.range' (node.state.lastApplied + 1) (node.state.commitIndex - node.state.lastApplied)).filterMap
    node.log.get

def applyCommittedEntries (node : RaftNode) : RaftNode :=
  { node with
    commitNotifier := node.commitNotifier.notifyUpTo node.state.commitIndex
    applyTx := node.applyTx ++ node.committedEntries
    state := node.state.setLastApplied node.state.commitIndex }

end RaftNode

end Rusd
