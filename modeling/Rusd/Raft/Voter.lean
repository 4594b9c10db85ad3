/-
**One vote per term.**

One node on its own, which handles whatever requests reach it, runs elections of its own, takes the
answers to them at any time, and becomes leader when a counting loop says so. Its votes are the requests
it granted and its own elections. Two steps forget a vote without moving to a later term: the answer to
one of its requests, which sets the term of the answer, and becoming leader, which clears `voted_for`
whatever the node has become since it asked.

* `Voter.step` — the steps, with the votes the node has given.
* `Remembers` — the step forgets no vote for another node, and takes the node back to no earlier term.
* `one_vote_per_term` — over a whole run.
-/

import Rusd.Raft.Election

namespace Rusd

/-- A node, the vote requests of its own elections, and the votes it has given, with their terms. -/
structure Voter where
  node : RaftNode
  asked : List RequestVoteRequest
  votes : List (Nat × Nat)

namespace Voter

inductive Action
  | requestVote (request : RequestVoteRequest)
  | appendEntries (request : AppendEntriesRequest)
  | startPreVote
  | startRealElection
  /-- The task of one of its own vote requests takes a response. -/
  | voteReply (election : Nat) (response : RequestVoteResponse)
  | becomeLeader
  deriving DecidableEq, Repr

/-- A node before any step. -/
def start (config : RaftConfig) : Voter := ⟨.new config, [], []⟩

/-- One step; a node asks only its peers, so a request that reaches it is another node's, and it becomes
leader by an election. -/
def step (s : Voter) : Action → Option Voter
  | .requestVote request =>
    if request.candidateId = s.node.config.id then none
    else
      let handled := s.node.handleRequestVote request
      some { s with
        node := handled.1
        votes := if handled.2.voteGranted ∧ ¬ request.preVote then
          (request.term, request.candidateId) :: s.votes else s.votes }
  | .appendEntries request => some { s with node := (s.node.handleAppendEntries request).1 }
  | .startPreVote => some { s with node := s.node.startPreVote.1 }
  | .startRealElection =>
    let (node, request) := s.node.startRealElection
    some ⟨node, s.asked ++ [request], (request.term, s.node.config.id) :: s.votes⟩
  | .voteReply election response =>
    match s.asked[election]? with
    | some request => some { s with node := s.node.handleVoteReply request response }
    | none => none
  | .becomeLeader => if s.asked = [] then none else some { s with node := s.node.becomeLeader }

/-- The node has voted for no other one in its term. -/
def Free (node : RaftNode) : Prop :=
  node.state.votedFor = none ∨ node.state.votedFor = some node.config.id

instance (node : RaftNode) : Decidable (Free node) := inferInstanceAs (Decidable (_ ∨ _))

/-- **The condition.** An answer takes the node to a later term, or to its own if it has voted for no
other node; and it becomes leader only if it has voted for no other node. -/
def Remembers (s : Voter) : Action → Prop
  | .voteReply election response => ∀ request ∈ s.asked[election]?,
      response.term > request.term → s.node.MayFollow response.term
  | .becomeLeader => Free s.node
  | _ => True

instance (s : Voter) : DecidablePred (Remembers s)
  | .voteReply election response => inferInstanceAs (Decidable (∀ request ∈ s.asked[election]?,
      response.term > request.term → s.node.MayFollow response.term))
  | .becomeLeader => inferInstanceAs (Decidable (Free s.node))
  | .requestVote _ => .isTrue trivial
  | .appendEntries _ => .isTrue trivial
  | .startPreVote => .isTrue trivial
  | .startRealElection => .isTrue trivial

/-! ### What a step does to the ballot -/

/-- The term does not go back, and within a term only a free ballot changes. -/
structure Ballot (old new : RaftNode) : Prop where
  config : new.config = old.config
  term : old.state.currentTerm ≤ new.state.currentTerm
  vote : new.state.currentTerm = old.state.currentTerm →
    new.state.votedFor = old.state.votedFor ∨ Free old

theorem Ballot.of_calm {old new : RaftNode} (calm : Calm old.config.id old new) : Ballot old new :=
  ⟨calm.config, calm.term, calm.vote⟩

/-- Granting a vote keeps the ballot of the term. -/
theorem Ballot.handleRequestVote (node : RaftNode) (request : RequestVoteRequest) :
    Ballot node (node.handleRequestVote request).1 := by
  have observed := Ballot.of_calm (RaftNode.observeTerm_calm node.config.id node request.term)
  rcases node.handleRequestVote_cases request with ⟨-, same, -⟩ | ⟨-, same, -⟩ | ⟨behind, free, -, same⟩
  · rw [same]
    exact ⟨rfl, le_rfl, fun _ => .inl rfl⟩
  · rw [same]
    exact observed
  · rw [same]
    refine ⟨observed.config, observed.term, fun now => ?_⟩
    have here : (node.observeTerm request.term).state.currentTerm = request.term :=
      RaftNode.observeTerm_term behind
    have stays : node.observeTerm request.term = node := by
      rw [RaftNode.observeTerm, if_neg]
      have now : (node.observeTerm request.term).state.currentTerm = node.state.currentTerm := now
      omega
    rw [stays] at free
    rcases free with none | again
    · exact .inr (.inl none)
    · exact .inl again.symm

/-! ### The invariant -/

/-- A vote is behind the node, or is the one on its ballot. -/
structure OnePerTerm (s : Voter) : Prop where
  backed : ∀ term candidate, (term, candidate) ∈ s.votes → term < s.node.state.currentTerm ∨
    (term = s.node.state.currentTerm ∧ s.node.state.votedFor = some candidate ∧
      candidate ≠ s.node.config.id)
  unique : ∀ term candidate other, (term, candidate) ∈ s.votes → (term, other) ∈ s.votes →
    candidate = other

variable {s next : Voter}

/-- A step that gives no vote. -/
theorem OnePerTerm.ballot (inv : OnePerTerm s) {node : RaftNode} (ballot : Ballot s.node node) :
    OnePerTerm { s with node := node } := by
  refine ⟨fun term candidate given => ?_, inv.unique⟩
  rcases inv.backed term candidate given with before | ⟨now, voted, other⟩
  · exact .inl (Nat.lt_of_lt_of_le before ballot.term)
  · rcases Nat.eq_or_lt_of_le ballot.term with same | later
    · refine .inr ⟨now.trans same, ?_, by rw [ballot.config]; exact other⟩
      rcases ballot.vote same.symm with kept | free
      · exact kept.trans voted
      · exfalso
        rcases free with none | own
        · rw [none] at voted
          cases voted
        · rw [own] at voted
          exact other (Option.some.inj voted).symm
    · exact .inl (now ▸ later)

/-- **A vote is granted**: the ballot was free, or had the same name on it. -/
theorem OnePerTerm.grant (inv : OnePerTerm s) {request : RequestVoteRequest}
    (foreign : request.candidateId ≠ s.node.config.id) (real : request.preVote = false)
    (granted : (s.node.handleRequestVote request).2.voteGranted = true) :
    OnePerTerm { s with
      node := (s.node.handleRequestVote request).1
      votes := (request.term, request.candidateId) :: s.votes } := by
  have moved := inv.ballot (Ballot.handleRequestVote s.node request)
  rcases s.node.handleRequestVote_cases request with ⟨-, -, refused⟩ | ⟨-, -, preVote⟩ |
    ⟨behind, free, -, same⟩
  · rw [refused] at granted
    cases granted
  · rw [real] at preVote
    cases preVote granted
  · have config : (s.node.handleRequestVote request).1.config = s.node.config :=
      (Ballot.handleRequestVote s.node request).config
    have term : (s.node.handleRequestVote request).1.state.currentTerm = request.term := by
      rw [same]
      exact RaftNode.observeTerm_term behind
    have ballot : (s.node.handleRequestVote request).1.state.votedFor = some request.candidateId := by
      rw [same]
      rfl
    -- a vote of the same term is the one on the ballot
    have agree : ∀ other, (request.term, other) ∈ s.votes → other = request.candidateId := by
      intro other given
      rcases moved.backed request.term other given with before | ⟨-, voted, -⟩
      · have before : request.term < (s.node.handleRequestVote request).1.state.currentTerm := before
        omega
      · have voted : (s.node.handleRequestVote request).1.state.votedFor = some other := voted
        rw [ballot] at voted
        exact (Option.some.inj voted).symm
    refine ⟨fun term' candidate given => ?_, fun term' candidate other given given' => ?_⟩
    · rcases List.mem_cons.mp given with new | old
      · cases new
        exact .inr ⟨term.symm, ballot, by rw [config]; exact foreign⟩
      · exact moved.backed term' candidate old
    · rcases List.mem_cons.mp given with new | old <;> rcases List.mem_cons.mp given' with new' | old'
      · cases new
        cases new'
        rfl
      · cases new
        exact (agree other old').symm
      · cases new'
        exact agree candidate old
      · exact inv.unique term' candidate other old old'

/-- **A node runs an election**: it votes for itself in the term after its own, and moves past it. -/
theorem OnePerTerm.election (inv : OnePerTerm s) (asked : List RequestVoteRequest) :
    OnePerTerm ⟨s.node.startRealElection.1, asked,
      (s.node.state.currentTerm + 1, s.node.config.id) :: s.votes⟩ := by
  have moved := inv.ballot (Ballot.of_calm (RaftNode.startRealElection_calm rfl))
  have none : ∀ candidate, (s.node.state.currentTerm + 1, candidate) ∉ s.votes := by
    intro candidate given
    rcases inv.backed _ candidate given with before | ⟨now, -⟩ <;> omega
  refine ⟨fun term candidate given => ?_, fun term candidate other given given' => ?_⟩
  · rcases List.mem_cons.mp given with new | old
    · cases new
      exact .inl (Nat.lt_succ_self _)
    · exact moved.backed term candidate old
  · rcases List.mem_cons.mp given with new | old <;> rcases List.mem_cons.mp given' with new' | old'
    · cases new
      cases new'
      rfl
    · cases new
      exact absurd old' (none other)
    · cases new'
      exact absurd old (none candidate)
    · exact inv.unique term candidate other old old'

theorem OnePerTerm.step (inv : OnePerTerm s) {action : Action} (moves : s.step action = some next)
    (remembers : Remembers s action) : OnePerTerm next := by
  cases action with
  | requestVote request =>
    rw [Voter.step] at moves
    split at moves
    case isTrue => cases moves
    case isFalse foreign =>
      obtain rfl := Option.some.inj moves
      by_cases granted : (s.node.handleRequestVote request).2.voteGranted ∧ ¬ request.preVote
      · rw [if_pos granted]
        exact inv.grant foreign (by simpa using granted.2) granted.1
      · rw [if_neg granted]
        exact inv.ballot (Ballot.handleRequestVote s.node request)
  | appendEntries request =>
    cases moves
    exact inv.ballot (Ballot.of_calm (RaftNode.handleAppendEntries_calm _ _ request))
  | startPreVote =>
    cases moves
    exact inv.ballot (Ballot.of_calm RaftNode.startPreVote_calm)
  | startRealElection =>
    cases moves
    exact inv.election _
  | voteReply election response =>
    rw [Voter.step] at moves
    split at moves
    case h_2 => cases moves
    case h_1 request found =>
      cases moves
      refine inv.ballot (Ballot.of_calm (RaftNode.handleVoteReply_calm rfl fun _ late => ?_))
      exact remembers request found late
  | becomeLeader =>
    rw [Voter.step] at moves
    split at moves
    case isTrue => cases moves
    case isFalse =>
      cases moves
      exact inv.ballot ⟨rfl, le_rfl, fun _ => .inr remembers⟩

/-- **One vote per term.** In a run whose steps all remember the votes, the node votes for at most one
candidate in each term. -/
theorem one_vote_per_term (config : RaftConfig) (actions : List Action) (s : Voter)
    (runs : runFrom step (start config) actions = some s)
    (remembers : Along step Remembers (start config) actions) (term candidate other : Nat)
    (given : (term, candidate) ∈ s.votes) (given' : (term, other) ∈ s.votes) : candidate = other := by
  have keeps : ∀ s action next, step s action = some next → Remembers s action → OnePerTerm s →
      OnePerTerm next := fun _ _ _ moves remembers inv => inv.step moves remembers
  have none : OnePerTerm (start config) :=
    ⟨fun _ _ given => (by cases given), fun _ _ _ given => (by cases given)⟩
  exact (run_invariant keeps none remembers runs).unique term candidate other given given'

/-- A node that votes in term 5 while its own election is being counted, and then wins it. -/
def lateWinner : List Action :=
  [.startRealElection, .requestVote ⟨5, 2, 0, 0, false⟩, .becomeLeader,
    .requestVote ⟨5, 3, 0, 0, false⟩]

/-- **Two votes in one term.** -/
theorem late_winner_votes_twice :
    (runFrom step (start ⟨1, [2, 3], 100, true⟩) lateWinner).map (·.votes) =
      some [(5, 3), (5, 2), (1, 1)] := by
  decide +kernel

/-- A node that wins its election in time, and votes in a later term. -/
def winnerInTime : List Action :=
  [.startRealElection, .becomeLeader, .requestVote ⟨5, 2, 0, 0, false⟩,
    .requestVote ⟨5, 3, 0, 0, false⟩]

theorem winner_in_time_votes_once :
    ∃ s, runFrom step (start ⟨1, [2, 3], 100, true⟩) winnerInTime = some s ∧
      s.votes = [(5, 2), (1, 1)] ∧
      ∀ term candidate other, (term, candidate) ∈ s.votes → (term, other) ∈ s.votes →
        candidate = other := by
  have ends : (runFrom step (start ⟨1, [2, 3], 100, true⟩) winnerInTime).map (·.votes) =
      some [(5, 2), (1, 1)] := by
    decide +kernel
  obtain ⟨s, runs, votes⟩ := Option.map_eq_some_iff.mp ends
  exact ⟨s, runs, votes, one_vote_per_term _ winnerInTime s runs (by decide +kernel)⟩

end Voter

end Rusd
