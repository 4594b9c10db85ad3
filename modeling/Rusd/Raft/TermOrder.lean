/-
**Terms along the life of a node.**

The term of a node is overwritten in several places. All of them compare with the term of the moment
except the tasks of vote requests: they compare the term of an answer with that of the election they
were spawned for, and the node may have moved on since.

* `InTime` — the answer that a task takes is not overtaken by the node.
* `terms_ascend_iff` — over a whole run: the term never goes back exactly if every answer is in time.
-/

import Rusd.Raft.Snapshot
import Rusd.Raft.Voter

namespace Rusd.NodeRun

/-- The term of the node. -/
def term (s : NodeRun) : Nat := s.node.state.currentTerm

/-- **The condition.** An answer that is above the term of its own election is not below the term the
node has reached by then. -/
def InTime (s : NodeRun) : Event → Prop
  | .voteReply election response => ∀ request ∈ s.asked[election]?,
      response.term > request.term → s.term ≤ response.term
  | _ => True

instance (s : NodeRun) : DecidablePred (InTime s)
  | .voteReply election response => inferInstanceAs (Decidable (∀ request ∈ s.asked[election]?,
      response.term > request.term → s.term ≤ response.term))
  | .appendEntries _ => .isTrue trivial
  | .requestVote _ => .isTrue trivial
  | .installSnapshot _ => .isTrue trivial
  | .startPreVote => .isTrue trivial
  | .startRealElection => .isTrue trivial
  | .becomeLeader => .isTrue trivial
  | .appendReply _ _ _ => .isTrue trivial
  | .propose _ _ => .isTrue trivial
  | .applyCommittedEntries => .isTrue trivial
  | .triggerSnapshot _ => .isTrue trivial

/-! ### The term after each step -/

theorem installSnapshot_term (node : SnapshotNode) (request : InstallSnapshotRequest) :
    node.state.currentTerm ≤ (node.installSnapshot request).state.currentTerm := by
  have observed : node.state.currentTerm ≤ (node.observeTerm request.term).state.currentTerm :=
    (RaftNode.observeTerm_calm node.config.id node.toRaftNode request.term).term
  rw [SnapshotNode.installSnapshot]
  split
  · exact le_rfl
  dsimp only
  split <;> exact observed

theorem takeSnapshot_state (node : SnapshotNode) (data : Option Bytes) :
    (node.takeSnapshot data).state = node.state := by
  rw [SnapshotNode.takeSnapshot]
  dsimp only
  split <;> rfl

variable {s next : NodeRun}

/-- **No other step takes the term back.** -/
theorem term_le_of_inTime {event : Event} (moves : s.step event = some next)
    (inTime : s.InTime event) : s.term ≤ next.term := by
  cases event with
  | appendEntries request =>
    cases moves
    exact (RaftNode.handleAppendEntries_calm s.node.config.id s.node.toRaftNode request).term
  | requestVote request =>
    cases moves
    exact (Voter.Ballot.handleRequestVote s.node.toRaftNode request).term
  | installSnapshot request =>
    cases moves
    exact installSnapshot_term s.node request
  | startPreVote =>
    cases moves
    exact le_rfl
  | startRealElection =>
    cases moves
    have calm : Calm s.node.config.id s.node.toRaftNode s.node.toRaftNode.startRealElection.1 :=
      RaftNode.startRealElection_calm rfl
    exact calm.term
  | voteReply election response =>
    rw [step] at moves
    split at moves
    case h_2 => cases moves
    case h_1 request found =>
      cases moves
      show s.term ≤ (s.node.toRaftNode.handleVoteReply request response).state.currentTerm
      rw [RaftNode.handleVoteReply]
      split
      case isTrue later => exact inTime request found later.2
      case isFalse => exact le_rfl
  | becomeLeader =>
    rw [step] at moves
    split at moves
    case isTrue => cases moves
    case isFalse =>
      cases moves
      exact le_rfl
  | appendReply peer leaderLastIndex response =>
    cases moves
    exact (RaftNode.handleAppendReply_calm s.node.config.id s.node.toRaftNode peer leaderLastIndex
      response).term
  | propose entryType data =>
    rw [step] at moves
    split at moves
    case isFalse => cases moves
    case isTrue =>
      cases moves
      exact (RaftNode.propose_calm s.node.config.id s.node.toRaftNode entryType data).term
  | applyCommittedEntries =>
    cases moves
    exact le_rfl
  | triggerSnapshot data =>
    cases moves
    exact le_of_eq (congrArg RaftState.currentTerm (takeSnapshot_state s.node data).symm)

/-- **An overtaken answer takes the term back.** Only the task of a real election steps down. -/
theorem inTime_of_term_le (real : ∀ request ∈ s.asked, request.preVote = false) {event : Event}
    (rises : Rises step term s event) : s.InTime event := by
  cases event with
  | voteReply election response =>
    intro request found later
    have follows : s.node.toRaftNode.handleVoteReply request response =
        { s.node.toRaftNode with state := s.node.state.becomeFollower response.term } := by
      rw [RaftNode.handleVoteReply, if_pos]
      · rfl
      · exact ⟨by rw [real request (List.mem_of_getElem? found)]; decide, later⟩
    have moves : s.step (.voteReply election response) =
        some { s with node := s.node.handleVoteReply request response } := by
      rw [step, found]
    have after := rises _ moves
    unfold term SnapshotNode.handleVoteReply at after
    rw [follows] at after
    exact after
  | _ => trivial

/-- A node asks for votes when it starts an election. -/
theorem step_asked {event : Event} (moves : s.step event = some next) :
    next.asked = s.asked ∨ next.asked = s.asked ++ [s.node.startRealElection.2] := by
  cases event with
  | startRealElection =>
    cases moves
    exact .inr rfl
  | voteReply election response =>
    rw [step] at moves
    split at moves <;> cases moves
    exact .inl rfl
  | becomeLeader =>
    rw [step] at moves
    split at moves <;> cases moves
    exact .inl rfl
  | propose entryType data =>
    rw [step] at moves
    split at moves <;> cases moves
    exact .inl rfl
  | _ =>
    cases moves
    exact .inl rfl

/-- The tasks are those of real elections. -/
theorem real_step (real : ∀ request ∈ s.asked, request.preVote = false) {event : Event}
    (moves : s.step event = some next) : ∀ request ∈ next.asked, request.preVote = false := by
  rcases step_asked moves with same | more
  · rw [same]
    exact real
  · rw [more]
    intro request member
    rcases List.mem_append.mp member with old | new
    · exact real request old
    · rw [List.mem_singleton.mp new]
      rfl

/-! ### Whole runs -/

theorem along_iff {events : List Event} : ∀ {s : NodeRun},
    (∀ request ∈ s.asked, request.preVote = false) →
      (Along step (Rises step term) s events ↔ Along step InTime s events) := by
  induction events with
  | nil => exact fun _ => Iff.rfl
  | cons event rest ih =>
    intro s real
    constructor
    · intro along
      refine ⟨inTime_of_term_le real along.head, ?_⟩
      cases moves : s.step event with
      | none => trivial
      | some next => exact (ih (real_step real moves)).mp (along.tail moves)
    · intro along
      refine ⟨fun next moves => term_le_of_inTime moves along.head, ?_⟩
      cases moves : s.step event with
      | none => trivial
      | some next => exact (ih (real_step real moves)).mpr (along.tail moves)

/-- **Terms never go back** in a run of a node exactly if every answer to a vote request that it takes is
in time. -/
theorem terms_ascend_iff (config : RaftConfig) (snapshotThreshold : Nat) (tree : LogTree)
    (events : List Event) :
    Ascends step term (start config snapshotThreshold tree) events ↔
      Along step InTime (start config snapshotThreshold tree) events :=
  ascends_iff.trans (along_iff fun _ member => (by cases member))

/-- A node asks for votes in term 1, hears from the leader of term 10, and then gets the answer to its
request from a peer in term 5. -/
def overtakenAnswer : List Event :=
  [.startRealElection, .appendEntries ⟨10, 2, 0, 0, [], 0⟩, .voteReply 0 ⟨5, false⟩]

/-- **The term goes back from 10 to 5.** -/
theorem overtaken_answer_goes_back :
    (runFrom step (start ⟨1, [2, 3], 100, true⟩ 10000 .empty) (overtakenAnswer.take 2)).map term =
        some 10 ∧
      (runFrom step (start ⟨1, [2, 3], 100, true⟩ 10000 .empty) overtakenAnswer).map term = some 5 ∧
      ¬ Ascends step term (start ⟨1, [2, 3], 100, true⟩ 10000 .empty) overtakenAnswer := by
  refine ⟨by decide +kernel, by decide +kernel, fun ascends => ?_⟩
  have ten : (runFrom step (start ⟨1, [2, 3], 100, true⟩ 10000 .empty)
      (overtakenAnswer.take 2)).map term = some 10 := by
    decide +kernel
  have five : (runFrom step (start ⟨1, [2, 3], 100, true⟩ 10000 .empty)
      (overtakenAnswer.take 3)).map term = some 5 := by
    decide +kernel
  obtain ⟨t, reaches, before⟩ := Option.map_eq_some_iff.mp ten
  obtain ⟨u, reaches', after⟩ := Option.map_eq_some_iff.mp five
  have le := ascends 2 3 t u (by decide) reaches reaches'
  omega

end Rusd.NodeRun
