/-
**Restarts.**

The term and the vote of a node are in `RaftState`, whose comment says that they should be written to
disk. They are not: a node that is started again over the tree of its log begins in the first term of a
new node, with no vote.

* `Lives` — a node that may be started again at any time, also within an operation on its log, with the
  votes it has given since it was last started.
* `vote_forgotten` — whatever the node did before, no vote it has given is kept by a restart: either its
  term is below that of the vote, or the next candidate of that term gets a second one.
-/

import Rusd.Raft.TermOrder

namespace Rusd

/-- A node and the votes it has given in this life, each with its term. -/
structure Lives where
  run : NodeRun
  votes : List (Nat × Nat)

namespace Lives

inductive Action
  | event (event : NodeRun.Event)
  /-- The process dies after `n` calls to sled of an operation on the log, and starts again. -/
  | restart (op : LogOp) (n : Nat)
  deriving DecidableEq, Repr

/-- The first life. -/
def start (config : RaftConfig) (snapshotThreshold : Nat) (tree : LogTree) : Lives :=
  ⟨.start config snapshotThreshold tree, []⟩

/-- The vote that an event gives: to the candidate of a request, or to the node itself. -/
def given (run : NodeRun) : NodeRun.Event → List (Nat × Nat)
  | .requestVote request =>
    if (run.node.handleRequestVote request).2.voteGranted ∧ ¬ request.preVote then
      [(request.term, request.candidateId)]
    else []
  | .startRealElection => [(run.node.startRealElection.2.term, run.node.config.id)]
  | _ => []

/-- Started again, over what is left of the tree. -/
def restarted (config : RaftConfig) (snapshotThreshold : Nat) (s : Lives) (op : LogOp) (n : Nat) :
    Lives :=
  start config snapshotThreshold
    (s.run.node.log.tree.calls ((s.run.node.log.sledCalls op).take n))

def step (config : RaftConfig) (snapshotThreshold : Nat) (s : Lives) : Action → Option Lives
  | .event event => (s.run.step event).map fun next => ⟨next, given s.run event ++ s.votes⟩
  | .restart op n => some (s.restarted config snapshotThreshold op n)

/-- The vote is kept in every later state: the node is not behind its term, and gives no vote of that
term to another candidate. -/
def KeepsVote (config : RaftConfig) (snapshotThreshold : Nat) (s : Lives) (term candidate : Nat) :
    Prop :=
  ∀ actions t, runFrom (step config snapshotThreshold) s actions = some t →
    term ≤ t.run.term ∧ ∀ other, (term, other) ∈ t.votes → other = candidate

/-! ### Where a node begins -/

/-- The term of a new node. -/
def firstTerm (config : RaftConfig) : Nat := if config.peers.isEmpty then 1 else 0

variable {config : RaftConfig} {snapshotThreshold : Nat} {s next : Lives}

theorem start_term (tree : LogTree) :
    (start config snapshotThreshold tree).run.term = firstTerm config := by
  unfold start NodeRun.start NodeRun.term SnapshotNode.new firstTerm
  dsimp only
  split <;> rfl

theorem start_votedFor (tree : LogTree) :
    (start config snapshotThreshold tree).run.node.state.votedFor = none := by
  unfold start NodeRun.start SnapshotNode.new
  dsimp only
  split <;> rfl

/-- The node and its votes are not below the first term, and its elections are above it. -/
structure Above (config : RaftConfig) (s : Lives) : Prop where
  term : firstTerm config ≤ s.run.term
  asked : ∀ request ∈ s.run.asked, firstTerm config < request.term
  votes : ∀ term candidate, (term, candidate) ∈ s.votes → firstTerm config ≤ term

theorem Above.start (tree : LogTree) : Above config (start config snapshotThreshold tree) :=
  ⟨(start_term tree).ge, fun _ member => (by cases member), fun _ _ member => (by cases member)⟩

/-- An answer may take a node back, but not below its own election. -/
theorem Above.term_event (above : Above config s) {event : NodeRun.Event} {run : NodeRun}
    (moves : s.run.step event = some run) : firstTerm config ≤ run.term := by
  by_cases inTime : s.run.InTime event
  · exact above.term.trans (NodeRun.term_le_of_inTime moves inTime)
  · cases event with
    | voteReply election response =>
      rw [NodeRun.step] at moves
      split at moves
      case h_2 => cases moves
      case h_1 request found =>
        cases moves
        have asked := above.asked request (List.mem_of_getElem? found)
        show _ ≤ (s.run.node.toRaftNode.handleVoteReply request response).state.currentTerm
        rw [RaftNode.handleVoteReply]
        split
        case isTrue later =>
          have later : request.term < response.term := later.2
          show firstTerm config ≤ response.term
          omega
        case isFalse => exact above.term
    | _ => exact absurd trivial inTime

theorem Above.given (above : Above config s) {event : NodeRun.Event} {term candidate : Nat}
    (vote : (term, candidate) ∈ given s.run event) : firstTerm config ≤ term := by
  have low : firstTerm config ≤ s.run.node.state.currentTerm := above.term
  cases event with
  | requestVote request =>
    rw [Lives.given] at vote
    split at vote
    case isFalse => cases vote
    case isTrue granted =>
      obtain ⟨rfl, rfl⟩ := Prod.mk.inj (List.mem_singleton.mp vote)
      rcases s.run.node.toRaftNode.handleRequestVote_cases request with ⟨-, -, refused⟩ | ⟨inTime, -⟩ |
        ⟨inTime, -⟩
      · have granted : (s.run.node.toRaftNode.handleRequestVote request).2.voteGranted = true :=
          granted.1
        rw [refused] at granted
        cases granted
      · exact low.trans inTime
      · exact low.trans inTime
  | startRealElection =>
    obtain ⟨rfl, rfl⟩ := Prod.mk.inj (List.mem_singleton.mp vote)
    exact low.trans (Nat.le_succ _)
  | _ => cases vote

theorem Above.step (above : Above config s) {action : Action}
    (moves : s.step config snapshotThreshold action = some next) : Above config next := by
  cases action with
  | event event =>
    obtain ⟨run, ran, rfl⟩ := Option.map_eq_some_iff.mp moves
    refine ⟨above.term_event ran, fun request member => ?_, fun term candidate vote => ?_⟩
    · rcases NodeRun.step_asked ran with same | more
      · exact above.asked request (same ▸ member)
      · have member : request ∈ run.asked := member
        rw [more] at member
        rcases List.mem_append.mp member with old | new
        · exact above.asked request old
        · rw [List.mem_singleton.mp new]
          exact Nat.lt_succ_of_le above.term
    · rcases List.mem_append.mp vote with new | old
      · exact above.given new
      · exact above.votes term candidate old
  | restart op n =>
    cases moves
    exact Above.start _

/-! ### Every restart forgets -/

/-- A request that a node at the term of the request, without a vote, cannot refuse. -/
def rival (s : Lives) (term candidate : Nat) : RequestVoteRequest :=
  ⟨term, candidate + 1, 0, s.run.node.log.lastTerm + 1, false⟩

theorem rival_wins (s : Lives) (term candidate : Nat) (here : s.run.term = term)
    (free : s.run.node.state.votedFor = none) :
    given s.run (.requestVote (s.rival term candidate)) = [(term, candidate + 1)] := by
  have now : s.run.node.toRaftNode.state.currentTerm = term := here
  have granted :
      (s.run.node.toRaftNode.handleRequestVote (s.rival term candidate)).2.voteGranted = true := by
    have observed : s.run.node.toRaftNode.observeTerm (s.rival term candidate).term =
        s.run.node.toRaftNode := by
      rw [RaftNode.observeTerm, if_neg (by rw [now]; exact Nat.lt_irrefl term)]
    have reaches : s.run.node.toRaftNode.logOk (s.rival term candidate) = true := by
      rw [RaftNode.logOk, decide_eq_true_eq]
      exact .inl (Nat.lt_succ_self _)
    rw [RaftNode.handleRequestVote, if_neg (by rw [now]; exact Nat.lt_irrefl term)]
    dsimp only
    rw [observed, if_pos]
    · rw [decide_eq_true_eq]
      exact ⟨.inl free, reaches⟩
    · exact ⟨by rw [decide_eq_true_eq]; exact ⟨.inl free, reaches⟩, Bool.false_ne_true⟩
  rw [given, if_pos]
  · rfl
  · exact ⟨granted, Bool.false_ne_true⟩

/-- **No vote is kept by a restart.** After any run in which the node gave a vote, and a restart at any
point, there is a later state with a lower term, or with a vote of the same term for another
candidate. -/
theorem vote_forgotten (config : RaftConfig) (snapshotThreshold : Nat) (tree : LogTree)
    (actions : List Action) (s : Lives)
    (runs : runFrom (step config snapshotThreshold) (start config snapshotThreshold tree) actions =
      some s)
    (term candidate : Nat) (vote : (term, candidate) ∈ s.votes) (op : LogOp) (n : Nat) :
    ¬ KeepsVote config snapshotThreshold (s.restarted config snapshotThreshold op n) term
      candidate := by
  have keeps : ∀ s action next, step config snapshotThreshold s action = some next →
      Above config s → Above config next := fun _ _ _ moves above => above.step moves
  have low : firstTerm config ≤ term := (run_always keeps (Above.start tree) runs).votes _ _ vote
  intro kept
  set again := s.restarted config snapshotThreshold op n with againDef
  have begins : again.run.term = firstTerm config := start_term _
  have free : again.run.node.state.votedFor = none := start_votedFor _
  have reached : term ≤ again.run.term := (kept [] again rfl).1
  have wins := rival_wins again term candidate (by omega) free
  have moves : again.step config snapshotThreshold (.event (.requestVote (again.rival term candidate))) =
      some ⟨{ again.run with
        node := (again.run.node.handleRequestVote (again.rival term candidate)).1 },
        given again.run (.requestVote (again.rival term candidate)) ++ again.votes⟩ := rfl
  have after := (kept [.event (.requestVote (again.rival term candidate))] _ (by
    rw [runFrom, moves]
    rfl)).2 (candidate + 1) (by
      show (term, candidate + 1) ∈ given again.run _ ++ again.votes
      rw [wins]
      exact List.mem_append_left _ List.mem_cons_self)
  omega

/-- A vote for node 2 in term 5. -/
def votesInFive : List Action := [.event (.requestVote ⟨5, 2, 0, 0, false⟩)]

/-- **Two votes in term 5.** The node votes for node 2, is started again in term 0, and votes for
node 3. -/
theorem restarted_votes_twice :
    (runFrom (step ⟨1, [2, 3], 100, true⟩ 10000) (start ⟨1, [2, 3], 100, true⟩ 10000 .empty)
        votesInFive).map (fun s => (s.run.term, s.votes)) = some (5, [(5, 2)]) ∧
      (runFrom (step ⟨1, [2, 3], 100, true⟩ 10000) (start ⟨1, [2, 3], 100, true⟩ 10000 .empty)
        (votesInFive ++ [.restart (.append []) 0])).map (fun s => s.run.term) = some 0 ∧
      (runFrom (step ⟨1, [2, 3], 100, true⟩ 10000) (start ⟨1, [2, 3], 100, true⟩ 10000 .empty)
        (votesInFive ++ [.restart (.append []) 0, .event (.requestVote ⟨5, 3, 0, 0, false⟩)])).map
          (fun s => s.votes) = some [(5, 3)] :=
  ⟨by decide +kernel, by decide +kernel, by decide +kernel⟩

theorem votesInFive_forgotten :
    ∃ s, runFrom (step ⟨1, [2, 3], 100, true⟩ 10000) (start ⟨1, [2, 3], 100, true⟩ 10000 .empty)
        votesInFive = some s ∧ (5, 2) ∈ s.votes ∧
      ¬ KeepsVote ⟨1, [2, 3], 100, true⟩ 10000
        (s.restarted ⟨1, [2, 3], 100, true⟩ 10000 (.append []) 0) 5 2 := by
  have ends : (runFrom (step ⟨1, [2, 3], 100, true⟩ 10000)
      (start ⟨1, [2, 3], 100, true⟩ 10000 .empty) votesInFive).map (fun s => s.votes) =
        some [(5, 2)] := by
    decide +kernel
  obtain ⟨s, runs, votes⟩ := Option.map_eq_some_iff.mp ends
  have vote : (5, 2) ∈ s.votes := by
    rw [votes]
    exact List.mem_singleton.mpr rfl
  exact ⟨s, runs, vote, vote_forgotten _ _ .empty votesInFive s runs 5 2 vote (.append []) 0⟩

end Lives

end Rusd
