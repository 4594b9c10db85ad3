/-
**What a message does to the term and the role of a node.**

A request of a later term makes a follower of the node that handles it, a pre-vote as well as any other;
the answer carries the term from before. The tasks of append and snapshot requests do not look at the term
of the response.

* `pre_votes_harmless_iff` — pre-votes leave a node as it is exactly if none has a later term.
* `Observed` — what the three handlers of requests have in common.
* `InOrder` — the messages after which term, role and answer are as they should be (`Disciplined`).
* `disciplined_iff` — these messages and no others.
-/

import Rusd.Raft.Election
import Rusd.Raft.SnapshotCluster

namespace Rusd

/-! ### Pre-votes -/

/-- What a pre-vote must leave as it is. -/
structure Untouched (old new : SnapshotNode) : Prop where
  term : new.state.currentTerm = old.state.currentTerm
  vote : new.state.votedFor = old.state.votedFor
  role : new.state.role = old.state.role
  leader : new.state.leaderId = old.state.leaderId
  commit : new.state.commitIndex = old.state.commitIndex
  log : new.log = old.log

namespace RaftNode

variable {node : RaftNode} {request : RequestVoteRequest}

theorem observeTerm_of_le {term : Nat} (known : term ≤ node.state.currentTerm) :
    node.observeTerm term = node := by
  rw [observeTerm, if_neg (Nat.not_lt.mpr known)]

/-- A pre-vote of no later term changes nothing. -/
theorem handleRequestVote_preVote (preVote : request.preVote = true)
    (known : request.term ≤ node.state.currentTerm) : (node.handleRequestVote request).1 = node := by
  have stays := observeTerm_of_le known
  unfold handleRequestVote
  dsimp only
  rw [stays]
  split
  · rfl
  · rw [if_neg fun both => both.2 preVote]

/-- A vote request leaves the later one of the two terms. -/
theorem handleRequestVote_term :
    (node.handleRequestVote request).1.state.currentTerm = max node.state.currentTerm request.term := by
  rcases node.handleRequestVote_cases request with ⟨late, same, -⟩ | ⟨behind, same, -⟩ |
    ⟨behind, -, -, same⟩
  · rw [same, max_eq_left late.le]
  · rw [same, observeTerm_term behind, max_eq_right behind]
  · rw [same, max_eq_right behind]
    exact observeTerm_term behind

end RaftNode

namespace SnapshotNode

variable {node : SnapshotNode}

/-- A node that handles vote requests one after another. -/
def handleRequestVotes (node : SnapshotNode) (requests : List RequestVoteRequest) : SnapshotNode :=
  requests.foldl (fun node request => (node.handleRequestVote request).1) node

/-- A pre-vote of no later term changes nothing. -/
theorem handleRequestVote_preVote {request : RequestVoteRequest} (preVote : request.preVote = true)
    (known : request.term ≤ node.state.currentTerm) : (node.handleRequestVote request).1 = node := by
  unfold handleRequestVote
  dsimp only
  rw [RaftNode.handleRequestVote_preVote preVote known]
  rfl

theorem handleRequestVote_term (request : RequestVoteRequest) :
    (node.handleRequestVote request).1.state.currentTerm = max node.state.currentTerm request.term :=
  RaftNode.handleRequestVote_term

/-- Requests never take the term back. -/
theorem le_term_handleRequestVotes (requests : List RequestVoteRequest) :
    node.state.currentTerm ≤ (node.handleRequestVotes requests).state.currentTerm := by
  induction requests generalizing node with
  | nil => exact le_rfl
  | cons request rest ih =>
    calc node.state.currentTerm
        ≤ (node.handleRequestVote request).1.state.currentTerm := by
          rw [node.handleRequestVote_term]
          exact le_max_left _ _
      _ ≤ (node.handleRequestVotes (request :: rest)).state.currentTerm := ih

/-- **When pre-votes are harmless.** For every node and all pre-votes that reach it one after another: they
leave its term, vote, role, leader, commit index and log as they are exactly if none of them is of a later
term than the node's. -/
theorem pre_votes_harmless_iff (node : SnapshotNode) (requests : List RequestVoteRequest)
    (preVotes : ∀ request ∈ requests, request.preVote = true) :
    Untouched node (node.handleRequestVotes requests) ↔
      ∀ request ∈ requests, request.term ≤ node.state.currentTerm := by
  induction requests generalizing node with
  | nil => exact iff_of_true ⟨rfl, rfl, rfl, rfl, rfl, rfl⟩ fun _ member => by cases member
  | cons request rest ih =>
    obtain ⟨first, others⟩ := List.forall_mem_cons.mp preVotes
    rw [List.forall_mem_cons]
    by_cases known : request.term ≤ node.state.currentTerm
    · have step : node.handleRequestVotes (request :: rest) = node.handleRequestVotes rest := by
        rw [handleRequestVotes, List.foldl_cons, node.handleRequestVote_preVote first known]
        rfl
      rw [step, ih node others]
      exact (and_iff_right known).symm
    · refine iff_of_false (fun untouched => ?_) fun both => known both.1
      have term := node.handleRequestVote_term request
      have grown : (node.handleRequestVote request).1.state.currentTerm ≤
          (node.handleRequestVotes (request :: rest)).state.currentTerm :=
        le_term_handleRequestVotes rest
      rw [untouched.term] at grown
      omega

/-- A leader of term 1 with two peers. -/
def leading : SnapshotNode :=
  let node := SnapshotNode.new ⟨1, [2, 3], 100, true⟩ 10000 .empty
  { node with state := (node.state.setTerm 1).becomeLeader 1 [2, 3] 0 }

/-- The pre-vote of a node of the same term, which has lost its leader. -/
def lostPeer : RequestVoteRequest := ⟨2, 2, 0, 0, true⟩

/-- **A pre-vote deposes a leader.** -/
theorem pre_vote_deposes : lostPeer.preVote = true ∧ leading.state.isLeader = true ∧
    (leading.handleRequestVote lostPeer).1.state.isLeader = false ∧
    (leading.handleRequestVote lostPeer).1.state.currentTerm = 2 ∧
    ¬ Untouched leading (leading.handleRequestVote lostPeer).1 :=
  ⟨rfl, rfl, rfl, rfl, fun untouched => absurd untouched.term (by decide)⟩

/-- Two pre-votes of the leader's own term. -/
theorem own_term_pre_votes :
    Untouched leading (leading.handleRequestVotes [⟨1, 2, 5, 5, true⟩, ⟨1, 3, 0, 0, true⟩]) :=
  (pre_votes_harmless_iff leading _ (by decide)).mpr (by decide)

/-! ### The six messages -/

/-- The task of a snapshot request. -/
def handleSnapshotReply (node : SnapshotNode) (peerId snapshotIndex : Nat) : SnapshotNode :=
  node.withRaft (node.toRaftNode.handleSnapshotReply peerId snapshotIndex)

end SnapshotNode

/-- What reaches a node: the requests, and the responses to its own requests. -/
inductive RaftMessage
  | appendEntries (request : AppendEntriesRequest)
  | requestVote (request : RequestVoteRequest)
  | installSnapshot (request : InstallSnapshotRequest)
  | appendReply (peer leaderLastIndex : Nat) (response : AppendEntriesResponse)
  | voteReply (request : RequestVoteRequest) (response : RequestVoteResponse)
  | snapshotReply (peer snapshotIndex : Nat) (response : InstallSnapshotResponse)
  deriving DecidableEq, Repr

namespace RaftMessage

def term : RaftMessage → Nat
  | .appendEntries request => request.term
  | .requestVote request => request.term
  | .installSnapshot request => request.term
  | .appendReply _ _ response => response.term
  | .voteReply _ response => response.term
  | .snapshotReply _ _ response => response.term

/-- Only a leader sends the request. -/
def fromLeader : RaftMessage → Bool
  | .appendEntries _ => true
  | .installSnapshot _ => true
  | _ => false

/-- The message belongs to a pre-vote. -/
def ofPreVote : RaftMessage → Bool
  | .requestVote request => request.preVote
  | .voteReply request _ => request.preVote
  | _ => false

end RaftMessage

namespace SnapshotNode

variable {σ : Type}

/-- The node after a message, and the term of its answer to a request. -/
def process (callbacks : SnapshotCallbacks σ) (store : σ) (node : SnapshotNode) :
    RaftMessage → SnapshotNode × Option Nat
  | .appendEntries request =>
    ((node.handleAppendEntries request).1, some (node.handleAppendEntries request).2.term)
  | .requestVote request =>
    ((node.handleRequestVote request).1, some (node.handleRequestVote request).2.term)
  | .installSnapshot request =>
    ((node.handleInstallSnapshot callbacks store request).1,
      some (node.handleInstallSnapshot callbacks store request).2.2.term)
  | .appendReply peer leaderLastIndex response => (node.handleAppendReply peer leaderLastIndex response, none)
  | .voteReply request response => (node.handleVoteReply request response, none)
  | .snapshotReply peer snapshotIndex _ => (node.handleSnapshotReply peer snapshotIndex, none)

/-- **The discipline of terms and roles.** -/
structure Disciplined (node : SnapshotNode) (message : RaftMessage) (after : SnapshotNode × Option Nat) :
    Prop where
  term : message.term ≤ after.1.state.currentTerm
  /-- A later term, or a leader of the term, makes a follower of the node. -/
  role : node.state.currentTerm < message.term ∨
    (message.fromLeader = true ∧ node.state.currentTerm ≤ message.term) → after.1.state.role = .follower
  answer : ∀ term ∈ after.2, term = after.1.state.currentTerm

/-- **The condition.** A request of a leader is late, or of the node's own term with the node following; a
vote request or a response is of no later term, or is a response to a vote request, of a term after the
request's. -/
def InOrder (node : SnapshotNode) : RaftMessage → Prop
  | .appendEntries request => request.term < node.state.currentTerm ∨
      (request.term = node.state.currentTerm ∧ node.state.role = .follower)
  | .installSnapshot request => request.term < node.state.currentTerm ∨
      (request.term = node.state.currentTerm ∧ node.state.role = .follower)
  | .requestVote request => request.term ≤ node.state.currentTerm
  | .appendReply _ _ response => response.term ≤ node.state.currentTerm
  | .snapshotReply _ _ response => response.term ≤ node.state.currentTerm
  | .voteReply request response => request.term < response.term ∨ response.term ≤ node.state.currentTerm

/-! ### What the handlers have in common -/

/-- A request of this term is observed: the later of the terms, and a follower if it is the request's. -/
structure Observed (observedTerm : Nat) (old new : RaftState) : Prop where
  term : new.currentTerm = max old.currentTerm observedTerm
  role : new.role = if old.currentTerm < observedTerm then .follower else old.role

theorem Observed.late {term : Nat} {state : RaftState} (late : term < state.currentTerm) :
    Observed term state state :=
  ⟨(max_eq_left late.le).symm, by rw [if_neg (Nat.lt_asymm late)]⟩

theorem Observed.observeTerm (node : RaftNode) {term : Nat} (behind : node.state.currentTerm ≤ term) :
    Observed term node.state (node.observeTerm term).state where
  term := by rw [RaftNode.observeTerm_term behind, max_eq_right behind]
  role := by
    rw [RaftNode.observeTerm]
    by_cases later : node.state.currentTerm < term
    · rw [if_pos later, if_pos later]
      rfl
    · rw [if_neg later, if_neg later]

/-- The other fields make no difference. -/
theorem Observed.congr {term : Nat} {old new new' : RaftState} (observed : Observed term old new)
    (sameTerm : new'.currentTerm = new.currentTerm) (sameRole : new'.role = new.role) :
    Observed term old new' :=
  ⟨sameTerm.trans observed.term, sameRole.trans observed.role⟩

theorem followCommit_ballot (state : RaftState) (log : RaftLog) (leaderCommit : Nat) :
    (RaftNode.followCommit state log leaderCommit).currentTerm = state.currentTerm ∧
      (RaftNode.followCommit state log leaderCommit).role = state.role := by
  unfold RaftNode.followCommit
  split <;> exact ⟨rfl, rfl⟩

theorem observed_appendEntries (node : RaftNode) (request : AppendEntriesRequest) :
    Observed request.term node.state (node.handleAppendEntries request).1.state ∧
      (node.handleAppendEntries request).2.term = node.state.currentTerm := by
  unfold RaftNode.handleAppendEntries
  dsimp only
  by_cases late : request.term < node.state.currentTerm
  · rw [if_pos late]
    exact ⟨.late late, rfl⟩
  have observed := Observed.observeTerm node (Nat.not_lt.mp late)
  rw [if_neg late]
  by_cases missing : ¬ node.log.hasEntry request.prevLogIndex request.prevLogTerm
  · rw [if_pos missing]
    exact ⟨observed.congr rfl rfl, rfl⟩
  · rw [if_neg missing]
    obtain ⟨term, role⟩ := followCommit_ballot
      ((node.observeTerm request.term).state.setLeaderId request.leaderId)
      (RaftNode.spliceLog node.log request.entries) request.leaderCommit
    exact ⟨observed.congr term role, rfl⟩

theorem observed_requestVote (node : RaftNode) (request : RequestVoteRequest) :
    Observed request.term node.state (node.handleRequestVote request).1.state ∧
      (node.handleRequestVote request).2.term = node.state.currentTerm := by
  constructor
  · rcases node.handleRequestVote_cases request with ⟨late, same, -⟩ | ⟨behind, same, -⟩ |
      ⟨behind, -, -, same⟩
    · rw [same]
      exact .late late
    · rw [same]
      exact .observeTerm node behind
    · rw [same]
      exact (Observed.observeTerm node behind).congr rfl rfl
  · unfold RaftNode.handleRequestVote
    dsimp only
    split
    · rfl
    · split <;> rfl

theorem observed_installSnapshot (node : SnapshotNode) (request : InstallSnapshotRequest) :
    Observed request.term node.state (node.installSnapshot request).state := by
  unfold installSnapshot
  by_cases late : request.term < node.state.currentTerm
  · rw [if_pos late]
    exact .late late
  have observed := Observed.observeTerm node.toRaftNode (Nat.not_lt.mp late)
  rw [if_neg late]
  dsimp only
  split <;> exact observed.congr rfl rfl

section Discipline

variable {node after : SnapshotNode} {message : RaftMessage}

/-- **A request**, which every handler observes and answers with the term from before. -/
theorem disciplined_request_iff (observed : Observed message.term node.state after.state) :
    Disciplined node message (after, some node.state.currentTerm) ↔ message.term ≤ node.state.currentTerm ∧
      (message.fromLeader = true → message.term = node.state.currentTerm → node.state.role = .follower) := by
  constructor
  · intro disciplined
    have answered : node.state.currentTerm = after.state.currentTerm := disciplined.answer _ rfl
    rw [observed.term] at answered
    refine ⟨by omega, fun leads same => ?_⟩
    have followed : after.state.role = .follower := disciplined.role (.inr ⟨leads, same.ge⟩)
    rwa [observed.role, if_neg same.not_gt] at followed
  · rintro ⟨known, follows⟩
    have term : after.state.currentTerm = node.state.currentTerm := observed.term.trans (max_eq_left known)
    refine ⟨known.trans term.ge, fun demanded => ?_, fun _ answered => ?_⟩
    · rcases demanded with later | ⟨leads, reached⟩
      · exact absurd later (Nat.not_lt.mpr known)
      · have follower := follows leads (le_antisymm known reached)
        have role := observed.role
        rw [if_neg (Nat.not_lt.mpr known)] at role
        exact role.trans follower
    · exact (Option.some.inj answered).symm.trans term.symm

/-- **A response whose term nobody reads.** -/
theorem disciplined_response_iff (notLeader : message.fromLeader = false)
    (term : after.state.currentTerm = node.state.currentTerm) :
    Disciplined node message (after, none) ↔ message.term ≤ node.state.currentTerm := by
  constructor
  · exact fun disciplined => disciplined.term.trans term.le
  · intro known
    refine ⟨known.trans term.ge, fun demanded => ?_, fun _ answered => by cases answered⟩
    rcases demanded with later | ⟨leads, -⟩
    · exact absurd later (Nat.not_lt.mpr known)
    · exact absurd (notLeader.symm.trans leads) Bool.false_ne_true

/-- **A response to a vote request**: its term is read if it is later than the request's. -/
theorem disciplined_voteReply_iff {request : RequestVoteRequest} {response : RequestVoteResponse}
    (real : request.preVote = false) :
    Disciplined node (.voteReply request response) (node.handleVoteReply request response, none) ↔
      request.term < response.term ∨ response.term ≤ node.state.currentTerm := by
  have handled : node.handleVoteReply request response =
      node.withRaft (node.toRaftNode.handleVoteReply request response) := rfl
  by_cases later : request.term < response.term
  · rw [handled, RaftNode.handleVoteReply, if_pos ⟨by simp [real], later⟩]
    exact iff_of_true ⟨le_rfl, fun _ => rfl, fun _ answered => by cases answered⟩ (.inl later)
  · rw [handled, RaftNode.handleVoteReply, if_neg fun both => later both.2]
    exact (disciplined_response_iff rfl rfl).trans ⟨.inr, fun known => known.resolve_left later⟩

/-- The condition on a request of a leader. -/
theorem leader_in_order_iff {term : Nat} :
    (term < node.state.currentTerm ∨ (term = node.state.currentTerm ∧ node.state.role = .follower)) ↔
      term ≤ node.state.currentTerm ∧ (term = node.state.currentTerm → node.state.role = .follower) := by
  constructor
  · rintro (late | ⟨same, follows⟩)
    · exact ⟨late.le, fun same => absurd same late.ne⟩
    · exact ⟨same.le, fun _ => follows⟩
  · rintro ⟨known, follows⟩
    rcases known.lt_or_eq with late | same
    · exact .inl late
    · exact .inr ⟨same, follows same⟩

end Discipline

/-- **When a message is processed with discipline.** For every node and every message that does not belong
to a pre-vote. -/
theorem disciplined_iff {σ : Type} (callbacks : SnapshotCallbacks σ) (store : σ) (node : SnapshotNode)
    (message : RaftMessage) (regular : message.ofPreVote = false) :
    Disciplined node message (node.process callbacks store message) ↔ node.InOrder message := by
  cases message with
  | appendEntries request =>
    have observed : Observed (RaftMessage.appendEntries request).term node.state
        (node.handleAppendEntries request).1.state := (observed_appendEntries node.toRaftNode request).1
    have answered : (node.handleAppendEntries request).2.term = node.state.currentTerm :=
      (observed_appendEntries node.toRaftNode request).2
    rw [process, answered, disciplined_request_iff observed, InOrder, leader_in_order_iff]
    exact and_congr_right fun _ => ⟨fun follows => follows rfl, fun follows _ => follows⟩
  | requestVote request =>
    have observed : Observed (RaftMessage.requestVote request).term node.state
        (node.handleRequestVote request).1.state := (observed_requestVote node.toRaftNode request).1
    have answered : (node.handleRequestVote request).2.term = node.state.currentTerm :=
      (observed_requestVote node.toRaftNode request).2
    rw [process, answered, disciplined_request_iff observed, InOrder]
    exact ⟨fun both => both.1, fun known => ⟨known, fun leads => by cases leads⟩⟩
  | installSnapshot request =>
    have observed : Observed (RaftMessage.installSnapshot request).term node.state
        (node.installSnapshot request).state := observed_installSnapshot node request
    rw [process, InOrder, leader_in_order_iff]
    refine (disciplined_request_iff observed).trans ?_
    exact and_congr_right fun _ => ⟨fun follows => follows rfl, fun follows _ => follows⟩
  | appendReply peer leaderLastIndex response =>
    have term : (node.handleAppendReply peer leaderLastIndex response).state.currentTerm =
        node.state.currentTerm :=
      (node.toRaftNode.handleAppendReply_ballot peer leaderLastIndex response).1
    exact disciplined_response_iff rfl term
  | snapshotReply peer snapshotIndex response => exact disciplined_response_iff rfl rfl
  | voteReply request response => exact disciplined_voteReply_iff regular

/-- No callbacks. -/
def noCallbacks : SnapshotCallbacks Unit := ⟨none, none⟩

/-- **A leader that learns of a later term goes on as before**: the response to its append request is of
term 5. -/
theorem stale_leader_stays :
    ¬ Disciplined leading (.appendReply 2 0 ⟨5, false, 0, 0, 0⟩)
        (leading.process noCallbacks () (.appendReply 2 0 ⟨5, false, 0, 0, 0⟩)) ∧
      (leading.process noCallbacks () (.appendReply 2 0 ⟨5, false, 0, 0, 0⟩)).1.state.isLeader = true :=
  ⟨fun disciplined => absurd disciplined.term (by decide +kernel), by decide +kernel⟩

/-- An append request of the follower's own term. -/
theorem heartbeat_disciplined :
    Disciplined (SnapshotNode.new ⟨1, [2, 3], 100, true⟩ 10000 .empty) (.appendEntries ⟨0, 2, 0, 0, [], 0⟩)
      ((SnapshotNode.new ⟨1, [2, 3], 100, true⟩ 10000 .empty).process noCallbacks ()
        (.appendEntries ⟨0, 2, 0, 0, [], 0⟩)) :=
  (disciplined_iff noCallbacks () _ _ rfl).mpr (.inr ⟨rfl, rfl⟩)

end SnapshotNode

end Rusd
