/-
**The cluster without its waiters.**

A node's `commit_notifier` is written by the services that wait on it and read by nothing of the
protocol: what a node sends, stores and answers is the same whoever waits.

* `RaftNode.unwaited`, `Cluster.unwaited` — the state with the waiters taken out.
* `step_unwaited` — the steps of the cluster are the steps of the cluster without its waiters.
* `safe_unwaited` — so are the conditions under which the steps are safe.
-/

import Rusd.Raft.ReplicationStep

namespace Rusd

namespace RaftNode

/-- The node without its waiters. -/
def unwaited (node : RaftNode) : RaftNode := { node with commitNotifier := .new }

@[simp] theorem unwaited_config (node : RaftNode) : node.unwaited.config = node.config := rfl

@[simp] theorem unwaited_state (node : RaftNode) : node.unwaited.state = node.state := rfl

@[simp] theorem unwaited_log (node : RaftNode) : node.unwaited.log = node.log := rfl

@[simp] theorem unwaited_applyTx (node : RaftNode) : node.unwaited.applyTx = node.applyTx := rfl

variable (node : RaftNode)

theorem unwaited_observeTerm (term : Nat) :
    node.unwaited.observeTerm term = (node.observeTerm term).unwaited := by
  rw [observeTerm, observeTerm, apply_ite unwaited]
  rfl

theorem unwaited_handleRequestVote (request : RequestVoteRequest) :
    node.unwaited.handleRequestVote request =
      Prod.map unwaited id (node.handleRequestVote request) := by
  rw [handleRequestVote, handleRequestVote, unwaited_observeTerm]
  dsimp only
  rw [apply_ite (Prod.map unwaited id), apply_ite (Prod.map unwaited id)]
  rfl

theorem unwaited_handleVoteReply (request : RequestVoteRequest) (response : RequestVoteResponse) :
    node.unwaited.handleVoteReply request response =
      (node.handleVoteReply request response).unwaited := by
  rw [handleVoteReply, handleVoteReply, apply_ite unwaited]
  rfl

theorem unwaited_handleAppendEntries (request : AppendEntriesRequest) :
    node.unwaited.handleAppendEntries request =
      Prod.map unwaited id (node.handleAppendEntries request) := by
  rw [handleAppendEntries, handleAppendEntries, unwaited_observeTerm]
  dsimp only
  rw [apply_ite (Prod.map unwaited id), apply_ite (Prod.map unwaited id)]
  rfl

/-- An advance of the commit index signals nobody. -/
theorem unwaited_handleAppendReply (peerId leaderLastIndex : Nat) (response : AppendEntriesResponse) :
    node.unwaited.handleAppendReply peerId leaderLastIndex response =
      (node.handleAppendReply peerId leaderLastIndex response).unwaited := by
  rw [handleAppendReply, handleAppendReply, apply_ite unwaited]
  rfl

end RaftNode

/-- A member without its waiters. -/
def Member.unwaited (member : Member) : Member := { member with raft := member.raft.unwaited }

namespace Cluster

/-- The cluster without its waiters. -/
def unwaited (s : Cluster) : Cluster := { s with members := Member.unwaited ∘ s.members }

variable (s : Cluster) (id : Nat)

theorem unwaited_raft : s.unwaited.raft id = (s.raft id).unwaited := rfl

/-! ### The steps -/

theorem unwaited_setMember (member : Member) :
    (s.setMember id member).unwaited = s.unwaited.setMember id member.unwaited := by
  unfold unwaited setMember
  rw [Function.comp_update]

theorem unwaited_setRaft (node : RaftNode) :
    (s.setRaft id node).unwaited = s.unwaited.setRaft id node.unwaited :=
  s.unwaited_setMember id _

theorem unwaited_sendHeartbeats : s.unwaited.sendHeartbeats id = (s.sendHeartbeats id).unwaited := by
  rw [sendHeartbeats, sendHeartbeats]
  dsimp only
  rw [apply_ite unwaited]
  unfold unwaited
  dsimp only
  rw [Function.comp_update]
  rfl

theorem unwaited_launch (node : RaftNode) (request : RequestVoteRequest) :
    s.unwaited.launch id node.unwaited request = (s.launch id node request).unwaited := by
  unfold launch unwaited
  dsimp only
  rw [Function.comp_update]
  rfl

theorem unwaited_becomeLeader : s.unwaited.becomeLeader id = (s.becomeLeader id).unwaited := by
  rw [becomeLeader, becomeLeader, ← unwaited_sendHeartbeats, unwaited_setRaft]
  rfl

theorem unwaited_startRealElection :
    s.unwaited.startRealElection id = (s.startRealElection id).unwaited := by
  rw [startRealElection, startRealElection]
  dsimp only
  rw [apply_ite unwaited, ← unwaited_becomeLeader, unwaited_setRaft, ← unwaited_launch]
  rfl

theorem unwaited_startPreVote : s.unwaited.startPreVote id = (s.startPreVote id).unwaited := by
  rw [startPreVote, startPreVote]
  dsimp only
  rw [apply_ite unwaited, ← unwaited_startRealElection, unwaited_setRaft, ← unwaited_launch]
  rfl

theorem unwaited_startElection : s.unwaited.startElection id = (s.startElection id).unwaited := by
  rw [startElection, startElection, unwaited_raft]
  dsimp only [RaftNode.unwaited_state, RaftNode.unwaited_config]
  rw [unwaited_startPreVote, unwaited_startRealElection]
  split
  · exact (apply_ite unwaited ..).symm
  · exact (apply_ite unwaited ..).symm
  · rfl
  · rfl

theorem unwaited_deliverVote (call : CallId) (vote : VoteCall) :
    s.unwaited.deliverVote call vote = (s.deliverVote call vote).unwaited := by
  unfold deliverVote
  dsimp only
  rw [unwaited_raft, RaftNode.unwaited_handleRequestVote]
  unfold setRaft setMember unwaited
  dsimp only
  rw [Function.comp_update]
  rfl

theorem unwaited_castVote (member : Member) (number : Nat) (granted : Bool) :
    castVote member.unwaited number granted = (castVote member number granted).unwaited := by
  unfold castVote
  cases running : member.campaign with
  | none =>
    rw [show member.unwaited.campaign = none from running]
  | some campaign =>
    rw [show member.unwaited.campaign = some campaign from running]
    dsimp only
    rw [apply_ite Member.unwaited]
    rfl

theorem unwaited_voteReply (call : CallId) (vote : VoteCall) (response : RequestVoteResponse) :
    s.unwaited.voteReply call vote response = (s.voteReply call vote response).unwaited := by
  unfold voteReply
  dsimp only
  rw [unwaited_raft, RaftNode.unwaited_handleVoteReply]
  unfold setMember unwaited
  dsimp only
  rw [Function.comp_update, ← unwaited_castVote]
  rfl

theorem unwaited_voteError (call : CallId) (vote : VoteCall) :
    s.unwaited.voteError call vote = (s.voteError call vote).unwaited := by
  unfold voteError
  unfold setMember unwaited
  dsimp only
  rw [Function.comp_update, ← unwaited_castVote]
  rfl

theorem unwaited_countVote (campaign : Campaign) (granted : Bool) (rest : List Bool) :
    s.unwaited.countVote id campaign granted rest = (s.countVote id campaign granted rest).unwaited := by
  unfold countVote
  dsimp only
  rw [apply_ite unwaited, apply_ite unwaited, ← unwaited_startRealElection, ← unwaited_becomeLeader,
    unwaited_setMember, unwaited_setMember]
  rfl

theorem unwaited_deliverAppend (call : CallId) (append : AppendCall) :
    s.unwaited.deliverAppend call append = (s.deliverAppend call append).unwaited := by
  unfold deliverAppend
  dsimp only
  rw [unwaited_raft, RaftNode.unwaited_handleAppendEntries]
  unfold setRaft setMember unwaited
  dsimp only
  rw [Function.comp_update]
  rfl

theorem unwaited_appendReply (call : CallId) (append : AppendCall) (response : AppendEntriesResponse) :
    s.unwaited.appendReply call append response = (s.appendReply call append response).unwaited := by
  unfold appendReply
  dsimp only
  rw [unwaited_raft, RaftNode.unwaited_handleAppendReply]
  unfold setRaft setMember unwaited
  dsimp only
  rw [Function.comp_update]
  rfl

theorem unwaited_propose (entryType : EntryType) (data : Bytes) :
    ((s.unwaited.setRaft id ((s.unwaited.raft id).propose entryType data)).sendHeartbeats id) =
      ((s.setRaft id ((s.raft id).propose entryType data)).sendHeartbeats id).unwaited := by
  rw [← unwaited_sendHeartbeats, unwaited_setRaft]
  rfl

/-- The machine without waiters takes the step too. -/
theorem step_unwaited {t : Cluster} {action : Action} (moves : s.step action = some t) :
    s.unwaited.step action = some t.unwaited := by
  cases step_moves moves with
  | electionTimeout id member idle =>
    rw [← unwaited_startElection]
    exact if_pos ⟨member, idle⟩
  | deliverVote id call found =>
    rw [← unwaited_deliverVote, step, show s.unwaited.voteCalls id = some call from found]
  | voteReply id reply call response found received pending =>
    rw [← unwaited_voteReply, step, show s.unwaited.voteCalls id = some call from found]
    dsimp only
    rw [received]
    exact if_neg (Bool.not_eq_true _ ▸ pending)
  | voteError id call found pending =>
    rw [← unwaited_voteError, step, show s.unwaited.voteCalls id = some call from found]
    exact if_neg (Bool.not_eq_true _ ▸ pending)
  | countVote id campaign granted rest running votes =>
    rw [← unwaited_countVote, step,
      show (s.unwaited.members id).campaign = some campaign from running]
    dsimp only
    rw [votes]
  | endCampaign id campaign running =>
    rw [unwaited_setMember, step, show (s.unwaited.members id).campaign = some campaign from running]
    rfl
  | heartbeat id member idle leads =>
    rw [← unwaited_sendHeartbeats]
    exact if_pos ⟨member, idle, leads⟩
  | deliverAppend id call found =>
    rw [← unwaited_deliverAppend, step, show s.unwaited.appendCalls id = some call from found]
  | appendReply id reply call response found received pending =>
    rw [← unwaited_appendReply, step, show s.unwaited.appendCalls id = some call from found]
    dsimp only
    rw [received]
    exact if_neg (Bool.not_eq_true _ ▸ pending)
  | propose id entryType data member leads =>
    rw [← unwaited_propose]
    exact if_pos ⟨member, leads⟩
  | apply id member idle =>
    rw [unwaited_setRaft]
    exact if_pos ⟨member, idle⟩

/-! ### The conditions -/

theorem safe_unwaited (action : Action) : s.unwaited.Safe action ↔ s.Safe action := by
  cases action <;> exact Iff.rfl

end Cluster

end Rusd
