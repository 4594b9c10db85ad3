/-
**What a step of the cluster can do to one node.**

Four kinds of steps touch the log of a node, its commit index, its waiters or its apply channel: an
append request it accepts, a response it takes, a proposal, and the application of what is committed.
Every other step leaves them (`Unmoved`), whatever it does to terms, votes and roles. This holds in
every run, timely or not.

* `step_node` — the step, seen from one node.
* `LogsHold` — in every run, each node's log holds a list of entries that carry their indices, and the
  append requests under way carry entries that follow their previous index.
-/

import Rusd.Raft.Cluster

namespace Rusd

open RaftLog

/-- The step leaves the log, the indices, the waiters and the apply channel of a node. -/
structure Unmoved (old new : RaftNode) : Prop where
  config : new.config = old.config
  log : new.log = old.log
  commit : new.state.commitIndex = old.state.commitIndex
  lastApplied : new.state.lastApplied = old.state.lastApplied
  commitNotifier : new.commitNotifier = old.commitNotifier
  applyTx : new.applyTx = old.applyTx

namespace Unmoved

variable {a b c : RaftNode}

theorem refl (node : RaftNode) : Unmoved node node := ⟨rfl, rfl, rfl, rfl, rfl, rfl⟩

theorem trans (first : Unmoved a b) (second : Unmoved b c) : Unmoved a c :=
  ⟨second.config.trans first.config, second.log.trans first.log, second.commit.trans first.commit,
    second.lastApplied.trans first.lastApplied, second.commitNotifier.trans first.commitNotifier,
    second.applyTx.trans first.applyTx⟩

theorem observeTerm (node : RaftNode) (term : Nat) : Unmoved node (node.observeTerm term) := by
  rw [RaftNode.observeTerm]
  split <;> exact ⟨rfl, rfl, rfl, rfl, rfl, rfl⟩

theorem handleRequestVote (node : RaftNode) (request : RequestVoteRequest) :
    Unmoved node (node.handleRequestVote request).1 := by
  have observed := observeTerm node request.term
  rw [RaftNode.handleRequestVote]
  dsimp only
  split
  · exact refl node
  split
  · exact ⟨observed.config, observed.log, observed.commit, observed.lastApplied,
      observed.commitNotifier, observed.applyTx⟩
  · exact observed

theorem handleVoteReply (node : RaftNode) (request : RequestVoteRequest)
    (response : RequestVoteResponse) : Unmoved node (node.handleVoteReply request response) := by
  rw [RaftNode.handleVoteReply]
  split <;> exact ⟨rfl, rfl, rfl, rfl, rfl, rfl⟩

end Unmoved

namespace RaftNode

/-- The entries of a node's log. -/
def entries (node : RaftNode) : List LogEntry := node.log.toList

/-- The request passes the checks of `handle_append_entries`. -/
def Accepts (node : RaftNode) (request : AppendEntriesRequest) : Prop :=
  node.state.currentTerm ≤ request.term ∧
    node.log.hasEntry request.prevLogIndex request.prevLogTerm = true

instance (node : RaftNode) (request : AppendEntriesRequest) : Decidable (node.Accepts request) :=
  inferInstanceAs (Decidable (_ ∧ _))

variable {node : RaftNode} {request : AppendEntriesRequest}

/-- What `handle_append_entries` does with a request it accepts. -/
theorem handleAppendEntries_accept (accepts : node.Accepts request) :
    (node.handleAppendEntries request).1 =
      { node.observeTerm request.term with
        log := spliceLog node.log request.entries
        state := followCommit ((node.observeTerm request.term).state.setLeaderId request.leaderId)
          (spliceLog node.log request.entries) request.leaderCommit } ∧
    (node.handleAppendEntries request).2 = ⟨node.state.currentTerm, true,
      request.prevLogIndex + request.entries.length, 0, 0⟩ := by
  rw [handleAppendEntries]
  dsimp only
  rw [if_neg (Nat.not_lt.mpr accepts.1), if_neg (not_not.mpr accepts.2)]
  exact ⟨rfl, rfl⟩

theorem handleAppendEntries_unmoved (rejects : ¬ node.Accepts request) :
    Unmoved node (node.handleAppendEntries request).1 := by
  rw [handleAppendEntries]
  dsimp only
  split
  case isTrue => exact .refl node
  case isFalse inTime =>
    have observed := Unmoved.observeTerm node request.term
    rw [if_pos fun has => rejects ⟨Nat.not_lt.mp inTime, has⟩]
    exact ⟨observed.config, observed.log, observed.commit, observed.lastApplied,
      observed.commitNotifier, observed.applyTx⟩

theorem noteAppendReply_ballot (state : RaftState) (peerId : Nat) (response : AppendEntriesResponse) :
    (noteAppendReply state peerId response).currentTerm = state.currentTerm ∧
    (noteAppendReply state peerId response).votedFor = state.votedFor ∧
    (noteAppendReply state peerId response).role = state.role ∧
    (noteAppendReply state peerId response).commitIndex = state.commitIndex := by
  rw [noteAppendReply]
  split
  · exact ⟨rfl, rfl, rfl, rfl⟩
  split
  · exact ⟨rfl, rfl, rfl, rfl⟩
  · rw [RaftState.decrementNextIndex]
    split
    · split <;> exact ⟨rfl, rfl, rfl, rfl⟩
    · exact ⟨rfl, rfl, rfl, rfl⟩

theorem noteAppendReply_lastApplied (state : RaftState) (peerId : Nat)
    (response : AppendEntriesResponse) :
    (noteAppendReply state peerId response).lastApplied = state.lastApplied := by
  rw [noteAppendReply]
  split
  · rfl
  split
  · rfl
  · rw [RaftState.decrementNextIndex]
    split
    · split <;> rfl
    · rfl

/-- The node after a response, up to its commit index and its waiters. -/
theorem handleAppendReply_cases (node : RaftNode) (peer leaderLastIndex : Nat)
    (response : AppendEntriesResponse) :
    let noted := noteAppendReply node.state peer response
    let index := noted.majorityMatchIndex node.peerIds leaderLastIndex
    (node.state.commitIndex < index ∧ (node.handleAppendReply peer leaderLastIndex response).state =
      noted.setCommitIndex index) ∨
    (index ≤ node.state.commitIndex ∧
      (node.handleAppendReply peer leaderLastIndex response).state = noted) := by
  intro noted index
  have commit : noted.commitIndex = node.state.commitIndex := (noteAppendReply_ballot _ _ _).2.2.2
  rw [handleAppendReply]
  split
  case isTrue raises => exact .inl ⟨commit ▸ raises, rfl⟩
  case isFalse stays => exact .inr ⟨commit ▸ Nat.not_lt.mp stays, rfl⟩

/-- The two outcomes differ in the commit index only. -/
theorem handleAppendReply_state (node : RaftNode) (peer leaderLastIndex : Nat)
    (response : AppendEntriesResponse) :
    ∃ commit, (node.handleAppendReply peer leaderLastIndex response).state =
      (noteAppendReply node.state peer response).setCommitIndex commit := by
  rcases node.handleAppendReply_cases peer leaderLastIndex response with ⟨-, raised⟩ | ⟨-, kept⟩
  · exact ⟨_, raised⟩
  · exact ⟨_, kept⟩

theorem handleAppendReply_ballot (node : RaftNode) (peer leaderLastIndex : Nat)
    (response : AppendEntriesResponse) :
    (node.handleAppendReply peer leaderLastIndex response).state.currentTerm = node.state.currentTerm ∧
      (node.handleAppendReply peer leaderLastIndex response).state.role = node.state.role := by
  obtain ⟨commit, state⟩ := node.handleAppendReply_state peer leaderLastIndex response
  obtain ⟨term, -, role, -⟩ := noteAppendReply_ballot node.state peer response
  rw [state]
  exact ⟨term, role⟩

theorem handleAppendReply_beside (node : RaftNode) (peer leaderLastIndex : Nat)
    (response : AppendEntriesResponse) :
    (node.handleAppendReply peer leaderLastIndex response).config = node.config ∧
    (node.handleAppendReply peer leaderLastIndex response).log = node.log ∧
    (node.handleAppendReply peer leaderLastIndex response).applyTx = node.applyTx ∧
    (node.handleAppendReply peer leaderLastIndex response).state.lastApplied =
      node.state.lastApplied := by
  have applied := noteAppendReply_lastApplied node.state peer response
  rw [handleAppendReply]
  split <;> exact ⟨rfl, rfl, rfl, applied⟩

end RaftNode

namespace Cluster

/-- **The step, seen from one node.** -/
inductive NodeStep (s : Cluster) (n : Nat) : Action → RaftNode → Prop
  | unmoved {action : Action} {new : RaftNode} (unmoved : Unmoved (s.raft n) new) :
      NodeStep s n action new
  | accept {id : CallId} {call : AppendCall} (peer : id.peer = n)
      (found : s.appendCalls id = some call) (accepts : (s.raft n).Accepts call.request) :
      NodeStep s n (.deliverAppend id) ((s.raft n).handleAppendEntries call.request).1
  | reply {id : CallId} {reply : Nat} {call : AppendCall} {response : AppendEntriesResponse}
      (owner : id.owner = n) (found : s.appendCalls id = some call)
      (received : call.replies[reply]? = some response) :
      NodeStep s n (.appendReply id reply)
        ((s.raft n).handleAppendReply id.peer call.leaderLastIndex response)
  | propose {entryType : EntryType} {data : Bytes} (leads : (s.raft n).state.isLeader = true) :
      NodeStep s n (.propose n entryType data) ((s.raft n).propose entryType data)
  | apply : NodeStep s n (.apply n) (s.raft n).applyCommittedEntries

section Elections

variable (s : Cluster) (n id : Nat)

/-- Elections leave every node where it is. -/
def Stays (s next : Cluster) : Prop := ∀ n, Unmoved (s.raft n) (next.raft n)

variable {s n id}

theorem Stays.setRaft {node : RaftNode} (unmoved : Unmoved (s.raft id) node) :
    Stays s (s.setRaft id node) :=
  setRaft_rel Unmoved.refl unmoved

theorem Stays.trans {t u : Cluster} (first : Stays s t) (second : Stays t u) : Stays s u :=
  fun n => (first n).trans (second n)

theorem Stays.sendHeartbeats : Stays s (s.sendHeartbeats id) := by
  intro n
  rw [sendHeartbeats_raft]
  exact .refl _

theorem Stays.becomeLeader : Stays s (s.becomeLeader id) := by
  have unmoved : Unmoved (s.raft id) (s.raft id).becomeLeader := ⟨rfl, rfl, rfl, rfl, rfl, rfl⟩
  exact (Stays.setRaft unmoved).trans .sendHeartbeats

theorem Stays.launch {node : RaftNode} {request : RequestVoteRequest}
    (unmoved : Unmoved (s.raft id) node) : Stays s (s.launch id node request) := by
  intro n
  rw [raft, raft, Cluster.launch]
  dsimp only
  by_cases same : n = id
  · rw [same, Function.update_self]
    exact unmoved
  · rw [Function.update_of_ne same]
    exact .refl _

theorem Stays.startRealElection : Stays s (s.startRealElection id) := by
  have unmoved : Unmoved (s.raft id) (s.raft id).startRealElection.1 :=
    ⟨rfl, rfl, rfl, rfl, rfl, rfl⟩
  rw [Cluster.startRealElection]
  dsimp only
  split
  · exact (Stays.setRaft unmoved).trans .becomeLeader
  · exact .launch unmoved

theorem Stays.startPreVote : Stays s (s.startPreVote id) := by
  have unmoved : Unmoved (s.raft id) (s.raft id).startPreVote.1 := ⟨rfl, rfl, rfl, rfl, rfl, rfl⟩
  rw [Cluster.startPreVote]
  dsimp only
  split
  · exact (Stays.setRaft unmoved).trans .startRealElection
  · exact .launch unmoved

theorem Stays.startElection : Stays s (s.startElection id) := by
  rw [Cluster.startElection]
  split
  · split
    · exact .startPreVote
    · exact .startRealElection
  · split
    · exact .startPreVote
    · exact .startRealElection
  · exact .startRealElection
  · exact fun n => .refl _

/-- Replacing a counting loop leaves every node. -/
theorem Stays.setMember {member : Member} (same : member.raft = s.raft id) :
    Stays s (s.setMember id member) := by
  intro n
  rw [setMember_raft same]
  exact .refl _

theorem Stays.setCampaign (campaign : Option Campaign) :
    Stays s (s.setMember id { s.members id with campaign := campaign }) :=
  Stays.setMember rfl

theorem Stays.voteReply {call : CallId} {vote : VoteCall} {response : RequestVoteResponse} :
    Stays s (s.voteReply call vote response) := by
  intro n
  have unmoved := Unmoved.handleVoteReply (s.raft call.owner) vote.request response
  show Unmoved (s.raft n) ((s.setMember call.owner _).members n).raft
  by_cases same : n = call.owner
  · rw [same, setMember_members_self, castVote_raft]
    exact unmoved
  · rw [setMember_members_of_ne _ _ same]
    exact .refl _

theorem Stays.countVote {campaign : Campaign} {granted : Bool} {rest : List Bool} :
    Stays s (s.countVote id campaign granted rest) := by
  rw [Cluster.countVote]
  dsimp only
  generalize (if granted = true then campaign.voteCount + 1 else campaign.voteCount) = voteCount
  split
  · split
    · exact (Stays.setCampaign none).trans .startRealElection
    · exact (Stays.setCampaign none).trans .becomeLeader
  · exact .setCampaign _

end Elections

variable {s next : Cluster}

/-- **Every step is one of these for every node.** -/
theorem step_node {action : Action} (moves : s.step action = some next) (n : Nat) :
    NodeStep s n action (next.raft n) := by
  cases step_moves moves with
  | electionTimeout id member idle => exact .unmoved (Stays.startElection n)
  | deliverVote id call found =>
    exact .unmoved (Stays.setRaft (Unmoved.handleRequestVote _ call.request) n)
  | voteReply id reply call response found received pending => exact .unmoved (Stays.voteReply n)
  | voteError id call found pending => exact .unmoved (Stays.setMember (castVote_raft _ _ _) n)
  | countVote id campaign granted rest running votes => exact .unmoved (Stays.countVote n)
  | endCampaign id campaign running => exact .unmoved (Stays.setCampaign none n)
  | heartbeat id member idle leads => exact .unmoved (Stays.sendHeartbeats n)
  | deliverAppend id call found =>
    show NodeStep s n _ ((s.setRaft id.peer _).raft n)
    by_cases same : id.peer = n
    · subst same
      rw [setRaft_raft_self]
      by_cases accepts : (s.raft id.peer).Accepts call.request
      · exact .accept rfl found accepts
      · exact .unmoved (RaftNode.handleAppendEntries_unmoved accepts)
    · rw [setRaft_raft_of_ne _ _ (Ne.symm same)]
      exact .unmoved (.refl _)
  | appendReply id reply call response found received pending =>
    show NodeStep s n _ ((s.setRaft id.owner _).raft n)
    by_cases same : id.owner = n
    · subst same
      rw [setRaft_raft_self]
      exact .reply rfl found received
    · rw [setRaft_raft_of_ne _ _ (Ne.symm same)]
      exact .unmoved (.refl _)
  | propose id entryType data member leads =>
    rw [sendHeartbeats_raft]
    by_cases same : id = n
    · subst same
      rw [setRaft_raft_self]
      exact .propose leads
    · rw [setRaft_raft_of_ne _ _ (Ne.symm same)]
      exact .unmoved (.refl _)
  | apply id member idle =>
    by_cases same : id = n
    · subst same
      rw [setRaft_raft_self]
      exact .apply
    · rw [setRaft_raft_of_ne _ _ (Ne.symm same)]
      exact .unmoved (.refl _)

theorem step_propose {id : Nat} {entryType : EntryType} {data : Bytes}
    (moves : s.step (.propose id entryType data) = some next) :
    next.raft id = (s.raft id).propose entryType data := by
  cases step_moves moves with
  | propose => rw [sendHeartbeats_raft, setRaft_raft_self]

/-! ### The logs of every run -/

theorem sendHeartbeats_found {id : Nat} {call : CallId} {new : AppendCall}
    (found : (s.sendHeartbeats id).appendCalls call = some new) :
    s.appendCalls call = some new ∨
      ((s.raft id).state.role = .leader ∧ call.owner = id ∧ call.peer ∈ (s.raft id).peerIds ∧
        ∃ request, (s.raft id).appendRequest call.peer = some request ∧
          new = ⟨request, (s.raft id).log.lastIndex, [], false⟩) := by
  rw [sendHeartbeats] at found
  dsimp only at found
  split at found
  case isFalse => exact .inl found
  case isTrue leads =>
    dsimp only at found
    split at found
    case isFalse => exact .inl found
    case isTrue fresh =>
      obtain ⟨request, built, same⟩ := Option.map_eq_some_iff.mp found
      exact .inr ⟨by simpa [RaftState.isLeader] using leads, fresh.1, fresh.2.2, request, built,
        same.symm⟩

/-- The append calls of a step: those before it, with their requests, and requests built by the nodes
after it. -/
def Sends (s next : Cluster) : Prop :=
  ∀ id call', next.appendCalls id = some call' →
    (∃ call, s.appendCalls id = some call ∧ call'.request = call.request) ∨
      (next.raft id.owner).appendRequest id.peer = some call'.request

section Sends

variable {id : Nat}

theorem Sends.of_same (same : next.appendCalls = s.appendCalls) : Sends s next :=
  fun _ call' found => .inl ⟨call', same ▸ found, rfl⟩

theorem Sends.sendHeartbeats : Sends s (s.sendHeartbeats id) := by
  intro call call' found
  rcases sendHeartbeats_found found with old | ⟨-, owner, -, request, built, rfl⟩
  · exact .inl ⟨call', old, rfl⟩
  · refine .inr ?_
    rw [sendHeartbeats_raft, owner]
    exact built

/-- Steps that keep the append calls, followed by a round of heartbeats. -/
theorem Sends.then_heartbeats {t : Cluster} (same : t.appendCalls = s.appendCalls) :
    Sends s (t.sendHeartbeats id) := by
  intro call call' found
  rcases Sends.sendHeartbeats call call' found with ⟨old, foundOld, request⟩ | built
  · exact .inl ⟨old, same ▸ foundOld, request⟩
  · exact .inr built

theorem Sends.update {call : CallId} {old new : AppendCall} {t : Cluster}
    (found : s.appendCalls call = some old)
    (calls : t.appendCalls = Function.update s.appendCalls call (some new))
    (request : new.request = old.request) : Sends s t := by
  intro other call' found'
  rw [calls] at found'
  by_cases same : other = call
  · subst same
    rw [Function.update_self] at found'
    cases found'
    exact .inl ⟨old, found, request⟩
  · rw [Function.update_of_ne same] at found'
    exact .inl ⟨call', found', rfl⟩

theorem Sends.startRealElection : Sends s (s.startRealElection id) := by
  rw [Cluster.startRealElection]
  dsimp only
  split
  · exact .then_heartbeats rfl
  · exact .of_same rfl

theorem Sends.startElection : Sends s (s.startElection id) := by
  have preVote : Sends s (s.startPreVote id) := by
    rw [Cluster.startPreVote]
    dsimp only
    split
    · exact Sends.startRealElection
    · exact .of_same rfl
  rw [Cluster.startElection]
  split
  · split
    · exact preVote
    · exact .startRealElection
  · split
    · exact preVote
    · exact .startRealElection
  · exact .startRealElection
  · exact .of_same rfl

end Sends

theorem step_sends {action : Action} (moves : s.step action = some next) : Sends s next := by
  cases step_moves moves with
  | electionTimeout id member idle => exact .startElection
  | deliverVote id call found => exact .of_same rfl
  | voteReply id reply call response found received pending => exact .of_same rfl
  | voteError id call found pending => exact .of_same rfl
  | countVote id campaign granted rest running votes =>
    rw [countVote]
    dsimp only
    generalize (if granted = true then campaign.voteCount + 1 else campaign.voteCount) = voteCount
    split
    · split
      · exact Sends.startRealElection
      · exact .then_heartbeats rfl
    · exact .of_same rfl
  | endCampaign id campaign running => exact .of_same rfl
  | heartbeat id member idle leads => exact .sendHeartbeats
  | deliverAppend id call found => exact .update found rfl rfl
  | appendReply id reply call response found received pending => exact .update found rfl rfl
  | propose id entryType data member leads => exact .then_heartbeats rfl
  | apply id member idle => exact .of_same rfl

/-- **The logs hold lists**, and the requests under way follow their previous index. -/
structure LogsHold (s : Cluster) : Prop where
  holds : ∀ id, (s.raft id).log.Holds (s.raft id).entries
  appends : ∀ id call, s.appendCalls id = some call →
    IndexedFrom call.request.prevLogIndex call.request.entries

end Cluster

/-- Entries that follow a part of the log replace what is behind it. -/
theorem RaftNode.spliceLog_holds {log : RaftLog} {l entries : List LogEntry} {prev : Nat}
    (holds : log.Holds l) (reach : prev ≤ l.length) (indexed : IndexedFrom prev entries) :
    (spliceLog log entries).Holds (if entries = [] then l else l.take prev ++ entries) := by
  split
  case isTrue empty =>
    rw [empty]
    exact holds
  case isFalse ne =>
    have spliced := holds.splice reach ne indexed
    obtain ⟨first, rest, split⟩ := List.exists_cons_of_ne_nil ne
    have firstIndex : first.index = prev + 1 := by
      have := indexed 0 first (by rw [split]; rfl)
      omega
    rw [split] at spliced ⊢
    rw [spliceLog, firstIndex, Nat.add_sub_cancel]
    exact spliced

/-- An accepted request finds its previous entry, so its entries follow the part of the log up to it. -/
theorem RaftNode.Accepts.splice {node : RaftNode} {request : AppendEntriesRequest}
    {l : List LogEntry} (accepts : node.Accepts request) (holds : node.log.Holds l)
    (indexed : IndexedFrom request.prevLogIndex request.entries) :
    request.prevLogIndex ≤ l.length ∧
    (spliceLog node.log request.entries).Holds
      (if request.entries = [] then l else l.take request.prevLogIndex ++ request.entries) := by
  have reach : request.prevLogIndex ≤ l.length := by
    rcases holds.hasEntry_iff.mp accepts.2 with ⟨zero, -⟩ | ⟨positive, entry, found, -⟩
    · omega
    · have := (List.getElem?_eq_some_iff.mp found).1
      omega
  exact ⟨reach, spliceLog_holds holds reach indexed⟩

theorem RaftNode.holds_entries {node : RaftNode} (holds : ∃ l, node.log.Holds l) :
    node.log.Holds node.entries := by
  obtain ⟨l, holds⟩ := holds
  rw [RaftNode.entries, holds.toList_eq]
  exact holds

/-- A proposal is stored behind the log. -/
theorem RaftNode.propose_holds {node : RaftNode} {l : List LogEntry} {entryType : EntryType}
    {data : Bytes} (holds : node.log.Holds l) :
    (node.propose entryType data).log.Holds
      (l ++ [⟨node.log.lastIndex + 1, node.state.currentTerm, data, entryType⟩]) := by
  have indexed : IndexedFrom l.length
      [⟨node.log.lastIndex + 1, node.state.currentTerm, data, entryType⟩] :=
    IndexedFrom.singleton (by rw [holds.last])
  exact holds.append indexed

/-- The request that a node builds from its log carries entries that follow its previous index. -/
theorem RaftNode.appendRequest_indexed {node : RaftNode} {l : List LogEntry} {peer : Nat}
    {request : AppendEntriesRequest} (holds : node.log.Holds l)
    (built : node.appendRequest peer = some request) :
    IndexedFrom request.prevLogIndex request.entries := by
  rw [RaftNode.appendRequest, holds.noSnapshot] at built
  simp only [Option.isSome_none, Bool.false_eq_true, and_false, if_false, Option.some.injEq] at built
  rw [holds.getRange_eq] at built
  subst built
  intro i entry found
  set n := (node.state.nextIndex peer).getD 1
  have short := (List.getElem?_eq_some_iff.mp found).1
  rw [List.length_take] at short
  rw [List.getElem?_take_of_lt (by omega), List.getElem?_drop] at found
  have index := holds.indexed _ entry found
  show entry.index = n - 1 + i + 1
  omega

/-! ### What an accepted request leaves of the log -/

namespace RaftNode

variable {node : RaftNode} {request : AppendEntriesRequest}

/-- The commit index after a request that was accepted. -/
theorem handleAppendEntries_commit (accepts : node.Accepts request) :
    (node.handleAppendEntries request).1.state.commitIndex =
      if node.state.commitIndex < request.leaderCommit then
        min request.leaderCommit (node.handleAppendEntries request).1.log.lastIndex
      else node.state.commitIndex := by
  rw [(handleAppendEntries_accept accepts).1]
  have commit := (Unmoved.observeTerm node request.term).commit
  rw [followCommit]
  dsimp only
  rw [show ((node.observeTerm request.term).state.setLeaderId request.leaderId).commitIndex =
    node.state.commitIndex from commit]
  split
  · rfl
  · exact commit

/-- What an accepted request leaves but for the log, the role and the indices. -/
theorem handleAppendEntries_beside (accepts : node.Accepts request) :
    (node.handleAppendEntries request).1.config = node.config ∧
    (node.handleAppendEntries request).1.state.lastApplied = node.state.lastApplied ∧
    (node.handleAppendEntries request).1.commitNotifier = node.commitNotifier ∧
    (node.handleAppendEntries request).1.applyTx = node.applyTx := by
  have observed := Unmoved.observeTerm node request.term
  rw [(handleAppendEntries_accept accepts).1]
  refine ⟨observed.config, ?_, observed.commitNotifier, observed.applyTx⟩
  rw [followCommit]
  split <;> exact observed.lastApplied

end RaftNode

/-- The log after a request that was accepted. -/
theorem RaftNode.Accepts.holds_after {node : RaftNode} {request : AppendEntriesRequest}
    (accepts : node.Accepts request) (holds : node.log.Holds node.entries)
    (indexed : IndexedFrom request.prevLogIndex request.entries) :
    (node.handleAppendEntries request).1.log.Holds
      (if request.entries = [] then node.entries
        else node.entries.take request.prevLogIndex ++ request.entries) := by
  rw [(handleAppendEntries_accept accepts).1]
  exact (accepts.splice holds indexed).2

/-- The request carries the entry, or leaves what is at its index. -/
def AppendEntriesRequest.Keeps (request : AppendEntriesRequest) (entry : LogEntry) : Prop :=
  request.entries = [] ∨ entry.index ≤ request.prevLogIndex ∨
    request.entries[entry.index - request.prevLogIndex - 1]? = some entry

instance (request : AppendEntriesRequest) (entry : LogEntry) : Decidable (request.Keeps entry) :=
  inferInstanceAs (Decidable (_ ∨ _))

/-- **An entry that an accepted request keeps** stays in the log. -/
theorem RaftNode.Accepts.keeps {node : RaftNode} {request : AppendEntriesRequest}
    (accepts : node.Accepts request) (holds : node.log.Holds node.entries)
    (indexed : IndexedFrom request.prevLogIndex request.entries) {entry : LogEntry}
    (keeps : request.Keeps entry) (found : node.log.get entry.index = some entry) :
    (node.handleAppendEntries request).1.log.get entry.index = some entry := by
  have reach := (accepts.splice holds indexed).1
  have positive := holds.positive_of_get found
  rw [holds.get_eq positive] at found
  rw [(accepts.holds_after holds indexed).get_eq positive]
  rcases keeps with none | below | carried
  · rwa [if_pos none]
  · split
    · exact found
    · rw [List.getElem?_append_left (by rw [List.length_take]; omega),
        List.getElem?_take_of_lt (by omega)]
      exact found
  · have ne : request.entries ≠ [] := by
      intro none
      rw [none] at carried
      cases carried
    rw [if_neg ne]
    by_cases below : entry.index ≤ request.prevLogIndex
    · rw [List.getElem?_append_left (by rw [List.length_take]; omega),
        List.getElem?_take_of_lt (by omega)]
      exact found
    · rw [List.getElem?_append_right (by rw [List.length_take]; omega), List.length_take,
        Nat.min_eq_left reach, Nat.sub_right_comm]
      exact carried

namespace Cluster

variable {s next : Cluster}

/-- **Every step keeps the logs whole.** -/
theorem LogsHold.step (inv : LogsHold s) {action : Action} (moves : s.step action = some next) :
    LogsHold next := by
  have holds : ∀ id, (next.raft id).log.Holds (next.raft id).entries := by
    intro id
    have before := inv.holds id
    have stepped := step_node moves id
    generalize next.raft id = new at stepped ⊢
    refine RaftNode.holds_entries ?_
    cases stepped with
    | unmoved unmoved =>
      rw [unmoved.log]
      exact ⟨_, before⟩
    | accept peer found accepts =>
      exact ⟨_, accepts.holds_after before (inv.appends _ _ found)⟩
    | reply owner found received =>
      rw [(RaftNode.handleAppendReply_beside _ _ _ _).2.1]
      exact ⟨_, before⟩
    | propose leads => exact ⟨_, RaftNode.propose_holds before⟩
    | apply => exact ⟨_, before⟩
  refine ⟨holds, fun id call' found' => ?_⟩
  rcases step_sends moves id call' found' with ⟨call, found, same⟩ | built
  · rw [same]
    exact inv.appends id call found
  · exact RaftNode.appendRequest_indexed (holds id.owner) built

theorem LogsHold.of_same (inv : LogsHold s) (logs : ∀ id, (next.raft id).log = (s.raft id).log)
    (calls : next.appendCalls = s.appendCalls) : LogsHold next := by
  refine ⟨fun id => ?_, fun id call found => inv.appends id call (calls ▸ found)⟩
  rw [RaftNode.entries, logs id]
  exact inv.holds id

theorem LogsHold.start (config : ClusterConfig) : LogsHold (Cluster.start config) :=
  ⟨fun _ => RaftNode.holds_entries ⟨[], .new⟩, fun _ _ found => by cases found⟩

end Cluster

end Rusd
