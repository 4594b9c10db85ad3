/-
**The steps of replication.**

`Safe` is the condition on a step under which replication is safe: the step is timely, and

* a response to an append request is taken by a node that still leads the term of the request, and it
  raises the commit index only to an entry of that term;
* a node that accepts an append request does not cut off entries behind a stretch that already agrees
  with the request, and has not voted for another node in the term of the request;
* a leader does not grant a vote in the term it leads.

Each kind of change has one lemma that carries the replication invariant over it; `ReplicationInv.step`
puts them together, with the history that the step leaves.
-/

import Rusd.Raft.Replication

namespace Rusd

open RaftLog

/-! ### The condition on a step -/

namespace RaftNode

/-- Where the log already has the entries of the request, it has none behind them. -/
def KeepsLog (node : RaftNode) (request : AppendEntriesRequest) : Prop :=
  request.entries ≠ [] →
    node.log.getRange (request.prevLogIndex + 1)
      (request.prevLogIndex + 1 + request.entries.length) = request.entries →
    node.log.lastIndex ≤ request.prevLogIndex + request.entries.length

/-- In the term, the node has not voted for another one. -/
def FreeIn (node : RaftNode) (term : Nat) : Prop :=
  node.state.currentTerm = term →
    node.state.votedFor = none ∨ node.state.votedFor = some node.config.id

/-- The response is taken by a leader of the term of its request, and commits an entry of it. -/
def CommitsOwn (node : RaftNode) (call : AppendCall) (peer : Nat)
    (response : AppendEntriesResponse) : Prop :=
  node.state.role = .leader ∧ node.state.currentTerm = call.request.term ∧
    let index := (noteAppendReply node.state peer response).majorityMatchIndex node.peerIds
      call.leaderLastIndex
    (node.state.commitIndex < index → node.log.termAt index = some node.state.currentTerm)

instance (node : RaftNode) (request : AppendEntriesRequest) : Decidable (node.KeepsLog request) :=
  inferInstanceAs (Decidable (_ → _))

instance (node : RaftNode) (term : Nat) : Decidable (node.FreeIn term) :=
  inferInstanceAs (Decidable (_ → _))

instance (node : RaftNode) (call : AppendCall) (peer : Nat) (response : AppendEntriesResponse) :
    Decidable (node.CommitsOwn call peer response) :=
  inferInstanceAs (Decidable (_ ∧ _ ∧ (_ → _)))

end RaftNode

namespace Cluster

/-- The step is safe for replication. -/
def Replicates (s : Cluster) : Action → Prop
  | .deliverVote id => ∀ call ∈ s.voteCalls id, call.request.preVote = false →
      (s.raft id.peer).state.role = .leader →
      (s.raft id.peer).state.currentTerm = call.request.term →
      (s.raft id.peer).logOk call.request = false
  | .deliverAppend id => ∀ call ∈ s.appendCalls id, (s.raft id.peer).Accepts call.request →
      (s.raft id.peer).KeepsLog call.request ∧ (s.raft id.peer).FreeIn call.request.term
  | .appendReply id reply => ∀ call ∈ s.appendCalls id, ∀ response ∈ call.replies[reply]?,
      (s.raft id.owner).CommitsOwn call id.peer response
  | _ => True

/-- The step is timely and safe for replication. -/
def Safe (s : Cluster) (action : Action) : Prop := s.Timely action ∧ s.Replicates action

instance (s : Cluster) : ∀ action, Decidable (s.Replicates action)
  | .deliverVote id => inferInstanceAs (Decidable (∀ call ∈ s.voteCalls id, _))
  | .deliverAppend id => inferInstanceAs (Decidable (∀ call ∈ s.appendCalls id, _))
  | .appendReply id reply =>
    inferInstanceAs (Decidable (∀ call ∈ s.appendCalls id, ∀ response ∈ call.replies[reply]?, _))
  | .electionTimeout _ => .isTrue trivial
  | .voteReply _ _ => .isTrue trivial
  | .voteError _ => .isTrue trivial
  | .countVote _ => .isTrue trivial
  | .endCampaign _ => .isTrue trivial
  | .heartbeat _ => .isTrue trivial
  | .propose _ _ _ => .isTrue trivial
  | .apply _ => .isTrue trivial

instance (s : Cluster) (action : Action) : Decidable (s.Safe action) :=
  inferInstanceAs (Decidable (_ ∧ _))

/-! ### A history that grows keeps what is committed -/

section Grows

variable {ids : List Nat} {history later : History} {l : List LogEntry} {term n limit : Nat}

theorem EndsInTerm.inside (ends : EndsInTerm history term n) :
    n ≤ (history.leaderLog term).length := by
  obtain ⟨positive, entry, found, -⟩ := ends
  have := (List.getElem?_eq_some_iff.mp found).1
  omega

theorem EndsInTerm.of_grows (ends : EndsInTerm later term n) (grows : history.Grows later)
    (led : history.Led term) (inside : n ≤ (history.leaderLog term).length) :
    EndsInTerm history term n := by
  obtain ⟨positive, entry, found, own⟩ := ends
  refine ⟨positive, entry, ?_, own⟩
  obtain ⟨rest, split⟩ := grows.leaderLog term led
  rwa [← split, List.getElem?_append_left (by omega)] at found

theorem Committed.mono (committed : Committed ids history term n) (grows : history.Grows later) :
    Committed ids later term n := by
  obtain ⟨positive, entry, found, own⟩ := committed.ends
  obtain ⟨voters, major, acked⟩ := committed.majority
  exact ⟨grows.led_of committed.led, ⟨positive, entry, grows.getElem_eq committed.led found, own⟩,
    voters, major, fun voter member => grows.acked (acked voter member)⟩

theorem CommitOk.mono {commit : Nat} (ok : CommitOk ids history l commit limit)
    (grows : history.Grows later) {l' : List LogEntry} (part : l.take commit <+: l') {limit' : Nat}
    (le : limit ≤ limit') : CommitOk ids later l' commit limit' := by
  obtain ⟨inside, ok⟩ := ok
  have size : (l.take commit).length = commit := by
    rw [List.length_take, Nat.min_eq_left inside]
  have same : l'.take commit = l.take commit := by
    have whole := take_eq_of_initial part size.ge
    rwa [List.take_take, Nat.min_self] at whole
  refine ⟨size.ge.trans part.length_le, ?_⟩
  rcases ok with zero | ⟨term, n, committed, below, reaches, agree⟩
  · exact .inl zero
  · refine .inr ⟨term, n, committed.mono grows, below.trans le, reaches, ?_⟩
    rw [grows.take_eq committed.led (reaches.trans committed.ends.inside), agree, same]

theorem Chosen.mono {entry : LogEntry} (chosen : Chosen ids history entry)
    (grows : history.Grows later) : Chosen ids later entry := by
  obtain ⟨term, n, committed, positive, inside, found⟩ := chosen
  exact ⟨term, n, committed.mono grows, positive, inside, grows.getElem_eq committed.led found⟩

end Grows

/-! ### A node that keeps its log -/

/-- **A change beside the log.** The log stays, the term does not go back, and a leader was one before,
in the same term. -/
structure Quiet (old new : RaftNode) : Prop where
  config : new.config = old.config
  log : new.log = old.log
  term : old.term ≤ new.term
  leader : new.state.role = .leader → old.state.role = .leader ∧ new.term = old.term

/-- A quiet change that keeps the commit index, what was applied, and the indices of a leader. -/
structure Still (old new : RaftNode) : Prop extends Quiet old new where
  commit : new.state.commitIndex = old.state.commitIndex
  applyTx : new.applyTx = old.applyTx
  indices : new.state.role = .leader →
    new.state.nextIndex = old.state.nextIndex ∧ new.state.matchIndex = old.state.matchIndex

/-- A candidate was one before, in the same term, or has just moved two terms on. -/
def KeepsStanding (old new : RaftNode) : Prop :=
  new.state.role = .candidate →
    (old.state.role = .candidate ∧ new.term = old.term) ∨ old.term + 1 < new.term

section Still

variable {ids : List Nat} {raft raft' : Nat → RaftNode} {votes votes' : CallId → Option VoteCall}
  {history later : History}

theorem Quiet.refl (node : RaftNode) : Quiet node node :=
  ⟨rfl, rfl, le_rfl, fun role => ⟨role, rfl⟩⟩

theorem Still.refl (node : RaftNode) : Still node node :=
  ⟨.refl node, rfl, rfl, fun _ => ⟨rfl, rfl⟩⟩

theorem KeepsStanding.refl (node : RaftNode) : KeepsStanding node node :=
  fun role => .inl ⟨role, rfl⟩

/-- No term goes back where that of the changed node does not. -/
theorem setRaft_terms {s : Cluster} {id : Nat} {node : RaftNode}
    (forward : (s.raft id).term ≤ node.term) (i : Nat) :
    (s.raft i).term ≤ ((s.setRaft id node).raft i).term :=
  setRaft_rel (R := fun old new => old.term ≤ new.term) (fun _ => le_rfl) forward i

theorem Quiet.entries {old new : RaftNode} (quiet : Quiet old new) : new.entries = old.entries := by
  rw [RaftNode.entries, quiet.log, RaftNode.entries]

theorem NodesInv.quiet (inv : NodesInv ids raft history)
    (quiet : ∀ id, Quiet (raft id) (raft' id)) : NodesInv ids raft' history where
  holds id member := by
    rw [(quiet id).entries, (quiet id).log]
    exact inv.holds id member
  matched id member := by
    rw [(quiet id).entries]
    exact inv.matched id member
  terms id member entry inside := by
    rw [(quiet id).entries] at inside
    exact (inv.terms id member entry inside).trans (quiet id).term
  leading id member role := by
    obtain ⟨role, term⟩ := (quiet id).leader role
    rw [(quiet id).entries, term]
    exact inv.leading id member role

theorem CandidatesInv.quiet (inv : CandidatesInv ids raft votes history)
    (before : ∀ id term, Campaigned votes id term → term < (raft id).term)
    (quiet : ∀ id, Quiet (raft id) (raft' id)) (standing : ∀ id, KeepsStanding (raft id) (raft' id)) :
    CandidatesInv ids raft' votes history where
  request := inv.request
  matched := inv.matched
  terms := inv.terms
  standing id member term asked stands := by
    rcases standing id stands.1 with ⟨role, same⟩ | moved
    · rw [(quiet id).entries]
      exact inv.standing id member term asked ⟨role, same.symm.trans stands.2⟩
    · have now : (raft' id).term = term + 1 := stands.2
      have := before id term asked
      omega
  led id term led := by
    obtain ⟨member, below, base⟩ := inv.led id term led
    exact ⟨member, below.trans (quiet id).term, base⟩
  candidate id member role := by
    rcases standing id role with ⟨role, same⟩ | moved
    · rw [same]
      exact inv.candidate id member role
    · intro led
      have := (inv.led id _ led).2.1
      omega

theorem drop_take_of_initial {α : Type} {l l' : List α} (below : l <+: l') {n k : Nat}
    (inside : n + k ≤ l.length) : (l'.drop n).take k = (l.drop n).take k := by
  obtain ⟨rest, rfl⟩ := below
  rw [List.drop_append_of_le_length (by omega),
    List.take_append_of_le_length (by rw [List.length_drop]; omega)]

theorem ReplyOk.mono {term peer : Nat} {response : AppendEntriesResponse}
    (ok : ReplyOk raft history term peer response) (grows : history.Grows later)
    (led : history.Led term) (terms : (raft peer).term ≤ (raft' peer).term) :
    ReplyOk raft' later term peer response := by
  refine ⟨fun yes => grows.acks (ok.success yes), fun no => ?_⟩
  obtain ⟨inside, stale⟩ := ok.conflict no
  exact ⟨inside.trans (grows.leaderLog term led).length_le, fun zero => (stale zero).trans_le terms⟩

theorem AppendOk.mono {id : CallId} {call : AppendCall} (ok : AppendOk ids raft history id call)
    (grows : history.Grows later) (terms : ∀ id, (raft id).term ≤ (raft' id).term) :
    AppendOk ids raft' later id call := by
  have led : history.Led call.request.term := ⟨_, ok.led⟩
  have below := grows.leaderLog call.request.term led
  refine ⟨ok.peer, ok.ne, grows.led ok.led, ok.inside.trans below.length_le, ?_, ?_,
    ok.last.trans below.length_le, ?_, fun empty => ?_, fun response member => ?_⟩
  · rw [drop_take_of_initial below ok.inside]
    exact ok.stretch
  · rcases ok.prevTerm with zero | ⟨positive, entry, found, same⟩
    · exact .inl zero
    · exact .inr ⟨positive, entry, grows.getElem_eq led found, same⟩
  · exact ok.commit.mono grows ((List.take_prefix _ _).trans below) le_rfl
  · exact (ok.heartbeat empty).imp_right fun stale => stale.trans_le (terms id.peer)
  · exact (ok.replies response member).mono grows led (terms id.peer)

theorem AcksInv.quiet (inv : AcksInv ids raft votes history)
    (quiet : ∀ id, Quiet (raft id) (raft' id)) : AcksInv ids raft' votes history where
  kept id term n acked := by
    obtain ⟨below, kept⟩ := inv.kept id term n acked
    rw [(quiet id).entries]
    exact ⟨below.trans (quiet id).term, kept.imp_right fun bad => bad.mono (quiet id).term⟩
  voted := inv.voted
  leader id member role := by
    obtain ⟨role, same⟩ := (quiet id).leader role
    rw [same]
    exact inv.leader id member role

theorem PeerOk.still {id peer : Nat} (ok : PeerOk raft history id peer)
    (still : ∀ id, Still (raft id) (raft' id)) (role : (raft' id).state.role = .leader) :
    PeerOk raft' history id peer := by
  obtain ⟨-, same⟩ := (still id).leader role
  obtain ⟨next, known⟩ := (still id).indices role
  obtain ⟨m, matchIndex, acked⟩ := ok.acked
  obtain ⟨n, nextIndex, inside, stale⟩ := ok.next
  refine ⟨⟨m, known ▸ matchIndex, ?_⟩, ⟨n, next ▸ nextIndex, ?_, fun zero => ?_⟩⟩
  · rwa [same]
  · rwa [same]
  · rw [same]
    exact (stale zero).trans_le (still peer).term

theorem PeerOk.mono {id peer : Nat} (ok : PeerOk raft history id peer) (grows : history.Grows later)
    (led : history.Led (raft id).term) : PeerOk raft later id peer := by
  obtain ⟨m, matchIndex, acked⟩ := ok.acked
  obtain ⟨n, nextIndex, inside, stale⟩ := ok.next
  refine ⟨⟨m, matchIndex, acked.imp_right fun ack => grows.acks ack⟩, n, nextIndex, ?_, stale⟩
  exact inside.trans (Nat.succ_le_succ (grows.leaderLog _ led).length_le)

theorem CommitsInv.mono (inv : CommitsInv ids raft history) (grows : history.Grows later) :
    CommitsInv ids raft later :=
  ⟨fun id member => (inv.commit id member).mono grows (List.take_prefix _ _) le_rfl,
    fun id member entry sent => (inv.applied id member entry sent).mono grows⟩

theorem CommitsInv.still (inv : CommitsInv ids raft history)
    (still : ∀ id, Still (raft id) (raft' id)) : CommitsInv ids raft' history where
  commit id member := by
    rw [(still id).entries, (still id).commit]
    exact (inv.commit id member).mono (.refl history) (List.take_prefix _ _) (still id).term
  applied id member entry sent := by
    rw [(still id).applyTx] at sent
    exact inv.applied id member entry sent

end Still

variable {config : ClusterConfig} {s next : Cluster} {history : History}

/-- Changes of the nodes beside their logs. -/
theorem ReplicationInv.still (inv : ReplicationInv config s history)
    (election : ElectionInv config next history.led) (ids : next.ids = s.ids)
    (votes : next.voteCalls = s.voteCalls) (appends : next.appendCalls = s.appendCalls)
    (still : ∀ id, Still (s.raft id) (next.raft id))
    (standing : ∀ id, KeepsStanding (s.raft id) (next.raft id)) :
    ReplicationInv config next history := by
  refine ⟨election, inv.sound, ?_, ?_, ?_, ?_, ?_, ?_⟩
  · rw [ids]
    exact inv.nodes.quiet fun id => (still id).toQuiet
  · rw [ids, votes]
    exact inv.candidates.quiet (fun id term asked => (inv.election.campaigned id term asked).1)
      (fun id => (still id).toQuiet) standing
  · rw [ids, appends]
    exact fun id call found =>
      (inv.appends id call found).mono (.refl history) fun id => (still id).term
  · rw [ids, votes]
    exact inv.acks.quiet fun id => (still id).toQuiet
  · rw [ids]
    intro id member role peer inside
    obtain ⟨old, -⟩ := (still id).leader role
    rw [RaftNode.peerIds, (still id).config] at inside
    exact (inv.peers id member old peer inside).still still role
  · rw [ids]
    exact inv.commits.still still

/-- Changes of the counting loops. -/
theorem ReplicationInv.frame (inv : ReplicationInv config s history)
    (election : ElectionInv config next history.led) (ids : next.ids = s.ids)
    (rafts : next.raft = s.raft) (votes : next.voteCalls = s.voteCalls)
    (appends : next.appendCalls = s.appendCalls) : ReplicationInv config next history :=
  inv.still election ids votes appends (fun _ => rafts ▸ Still.refl _)
    fun id role => .inl ⟨rafts ▸ role, congrArg RaftNode.term (congrFun rafts id)⟩

/-- **Changes of the vote calls.** A new vote carries what its node has acknowledged, and is not given
by a leader in its term. -/
theorem ReplicationInv.setVotes (inv : ReplicationInv config s history)
    (election : ElectionInv config next history.led) (ids : next.ids = s.ids)
    (rafts : next.raft = s.raft) (appends : next.appendCalls = s.appendCalls)
    (old : ∀ id call', next.voteCalls id = some call' → call'.request.preVote = false →
      ∃ call, s.voteCalls id = some call ∧ call'.request = call.request)
    (new : ∀ voter term candidate, Granted next.voteCalls voter term candidate →
      Granted s.voteCalls voter term candidate ∨
        ((∀ acked n, history.Acked voter acked n → EndsInTerm history acked n → acked ≤ term →
          (history.leaderLog acked).take n <+: history.asked candidate term ∨
          history.Diverged acked n term) ∧
        ((s.raft voter).state.role = .leader → (s.raft voter).term ≠ term))) :
    ReplicationInv config next history := by
  have campaigned : ∀ id term, Campaigned next.voteCalls id term → Campaigned s.voteCalls id term := by
    rintro id term ⟨callId, call', found', owner, real, asked⟩
    obtain ⟨call, found, same⟩ := old callId call' found' real
    exact ⟨callId, call, found, owner, same ▸ real, same ▸ asked⟩
  refine ⟨election, inv.sound, by rw [ids, rafts]; exact inv.nodes, ⟨?_, ?_, ?_, ?_, ?_, ?_⟩,
    by rw [ids, rafts, appends]; exact inv.appends, ⟨?_, ?_, ?_⟩,
    by rw [ids, rafts]; exact inv.peers, by rw [ids, rafts]; exact inv.commits⟩
  · intro id call' found' real
    obtain ⟨call, found, same⟩ := old id call' found' real
    rw [same] at real ⊢
    exact inv.candidates.request id call found real
  · exact fun id term asked => inv.candidates.matched id term (campaigned id term asked)
  · exact fun id term asked => inv.candidates.terms id term (campaigned id term asked)
  · rw [ids, rafts]
    exact fun id member term asked =>
      inv.candidates.standing id member term (campaigned id term asked)
  · rw [ids, rafts]
    exact inv.candidates.led
  · rw [ids, rafts]
    exact inv.candidates.candidate
  · rw [rafts]
    exact inv.acks.kept
  · intro id term n acked ends later candidate voted le
    rcases voted with granted | ⟨self, asked⟩
    · rcases new id later candidate granted with before | ⟨carries, -⟩
      · exact inv.acks.voted id term n acked ends later candidate (.inl before) le
      · exact carries term n acked ends le
    · exact inv.acks.voted id term n acked ends later candidate
        (.inr ⟨self, campaigned candidate later asked⟩) le
  · rw [ids, rafts]
    intro id member role candidate granted
    rcases new id _ candidate granted with before | ⟨-, notOwn⟩
    · exact inv.acks.leader id member role candidate before
    · exact notOwn role rfl

/-! ### Elections -/

section Handlers

variable {node : RaftNode}

theorem Still.observeTerm (node : RaftNode) (term : Nat) :
    Still node (node.observeTerm term) ∧ KeepsStanding node (node.observeTerm term) := by
  rw [RaftNode.observeTerm]
  split
  case isTrue later =>
    exact ⟨⟨⟨rfl, rfl, later.le, fun role => by cases role⟩, rfl, rfl, fun role => by cases role⟩,
      fun role => by cases role⟩
  case isFalse => exact ⟨.refl node, .refl node⟩

theorem Still.handleRequestVote (node : RaftNode) (request : RequestVoteRequest) :
    Still node (node.handleRequestVote request).1 ∧
      KeepsStanding node (node.handleRequestVote request).1 := by
  obtain ⟨still, standing⟩ := Still.observeTerm node request.term
  rcases node.handleRequestVote_cases request with ⟨-, same, -⟩ | ⟨-, same, -⟩ | ⟨-, -, -, same⟩
  · rw [same]
    exact ⟨.refl node, .refl node⟩
  · rw [same]
    exact ⟨still, standing⟩
  · rw [same]
    exact ⟨⟨⟨still.config, still.log, still.term, still.leader⟩, still.commit, still.applyTx,
      still.indices⟩, standing⟩

theorem Still.handleVoteReply {request : RequestVoteRequest} {response : RequestVoteResponse}
    (timely : request.preVote = false → response.term > request.term →
      node.MayFollow response.term) :
    Still node (node.handleVoteReply request response) ∧
      KeepsStanding node (node.handleVoteReply request response) := by
  rw [RaftNode.handleVoteReply]
  split
  case isFalse => exact ⟨.refl node, .refl node⟩
  case isTrue late =>
    have forward : node.term ≤ response.term := by
      rcases timely (by simpa using late.1) late.2 with later | ⟨same, -⟩
      · exact later.le
      · exact same.le
    exact ⟨⟨⟨rfl, rfl, forward, fun role => by cases role⟩, rfl, rfl, fun role => by cases role⟩,
      fun role => by cases role⟩

theorem Still.startPreVote (node : RaftNode) :
    Still node node.startPreVote.1 ∧ KeepsStanding node node.startPreVote.1 :=
  ⟨⟨⟨rfl, rfl, le_rfl, fun role => by cases role⟩, rfl, rfl, fun role => by cases role⟩,
    fun role => by cases role⟩

theorem Still.startRealElection (node : RaftNode) :
    Still node node.startRealElection.1 ∧ KeepsStanding node node.startRealElection.1 :=
  ⟨⟨⟨rfl, rfl, Nat.le_add_right _ 2, fun role => by cases role⟩, rfl, rfl,
      fun role => by cases role⟩,
    fun _ => .inr (Nat.lt_succ_self _)⟩

end Handlers

/-- A change of one node beside its log. -/
theorem ReplicationInv.setRaft (inv : ReplicationInv config s history) {id : Nat} {node : RaftNode}
    (calm : Calm id (s.raft id) node) (still : Still (s.raft id) node)
    (standing : KeepsStanding (s.raft id) node) :
    ReplicationInv config (s.setRaft id node) history := by
  refine inv.still (inv.election.setRaft calm) rfl rfl rfl ?_ ?_
  · exact setRaft_rel Still.refl still
  · exact setRaft_rel KeepsStanding.refl standing

theorem launch_raft (s : Cluster) (id : Nat) (node : RaftNode) (request : RequestVoteRequest) :
    (s.launch id node request).raft = (s.setRaft id node).raft := by
  funext i
  by_cases same : i = id
  · rw [same, launch_raft_self, setRaft_raft_self]
  · rw [raft, launch_members_of_ne same, setRaft_raft_of_ne _ _ same, raft]

/-- **A pre-vote begins.** -/
theorem ReplicationInv.startPreVote (inv : ReplicationInv config s history) (valid : config.Valid)
    (two : 2 ≤ config.ids.length) {id : Nat} (member : id ∈ s.ids) :
    ReplicationInv config (s.startPreVote id) history := by
  have election := inv.election.startPreVote valid two member
  obtain ⟨still, standing⟩ := Still.startPreVote (s.raft id)
  have moved := inv.setRaft RaftNode.startPreVote_calm still standing
  have others := inv.election.others valid two member (s.raft id).startPreVote.1 rfl
  have launched : s.startPreVote id =
      s.launch id (s.raft id).startPreVote.1 (s.raft id).startPreVote.2 := by
    rw [Cluster.startPreVote]
    dsimp only
    rw [if_neg (by simpa [List.isEmpty_iff] using List.ne_nil_of_mem others.choose_spec)]
  rw [launched] at election ⊢
  refine moved.setVotes election rfl (launch_raft ..) rfl (fun call new found real => ?_)
    fun voter term candidate granted => .inl granted.of_launch
  rcases launch_found found with ⟨-, -, -, rfl⟩ | found
  · cases real
  · exact ⟨new, found, rfl⟩

section Launch

variable {raft : Nat → RaftNode} {id : Nat} {node : RaftNode} {request : RequestVoteRequest}
  {l : List LogEntry}

theorem Campaigned.of_launch {i term : Nat}
    (asks : Campaigned (s.launch id node request).voteCalls i term) :
    Campaigned s.voteCalls i term ∨ (i = id ∧ term = request.term) := by
  obtain ⟨call, new, found, owner, real, same⟩ := asks
  rcases launch_found found with ⟨owner', -, -, rfl⟩ | found
  · exact .inr ⟨owner.symm.trans owner', same.symm⟩
  · exact .inl ⟨call, new, found, owner, real, same⟩

/-- What was asked before a launch in a new term. -/
theorem asked_before (fresh : ∀ term, Campaigned s.voteCalls id term → term < request.term)
    {i term : Nat} (asks : Campaigned s.voteCalls i term) :
    (history.ask id request.term l).asked i term = history.asked i term := by
  refine History.ask_asked_of_ne ?_
  rintro ⟨rfl, rfl⟩
  exact (fresh _ asks).false

/-- A candidate that asks with its log, in a new term beyond every entry of it. -/
theorem CandidatesInv.launch (inv : CandidatesInv s.ids raft s.voteCalls history)
    (fresh : ∀ term, Campaigned s.voteCalls id term → term < request.term)
    (behind : ∀ term, (id, term) ∈ history.led → term < request.term)
    (log : (raft id).entries = l) (lastIndex : request.lastLogIndex = l.length)
    (lastTerm : request.lastLogTerm = lastTermOf l) (matched : Matched history l)
    (terms : ∀ entry ∈ l, entry.term < request.term) :
    CandidatesInv s.ids raft (s.launch id node request).voteCalls
      (history.ask id request.term l) where
  request call new found real := by
    rcases launch_found found with ⟨owner, -, -, rfl⟩ | found
    · dsimp only
      rw [owner, History.ask_asked_self]
      exact ⟨lastIndex, lastTerm⟩
    · rw [asked_before fresh ⟨call, new, found, rfl, real, rfl⟩]
      exact inv.request call new found real
  matched i term asks := by
    rcases asks.of_launch with before | ⟨rfl, rfl⟩
    · rw [asked_before fresh before]
      exact inv.matched i term before
    · rw [History.ask_asked_self]
      exact matched
  terms i term asks := by
    rcases asks.of_launch with before | ⟨rfl, rfl⟩
    · rw [asked_before fresh before]
      exact inv.terms i term before
    · rw [History.ask_asked_self]
      exact terms
  standing i inside term asks stands := by
    rcases asks.of_launch with before | ⟨rfl, rfl⟩
    · rw [asked_before fresh before]
      exact inv.standing i inside term before stands
    · rw [History.ask_asked_self]
      exact .inl log
  led i term led := by
    obtain ⟨inside, below, base⟩ := inv.led i term led
    refine ⟨inside, below, base.trans (History.ask_asked_of_ne ?_).symm⟩
    rintro ⟨rfl, same⟩
    have := behind term led
    omega
  candidate := inv.candidate

/-- The log that a candidate asks with has what it acknowledged. -/
theorem AcksInv.launch (inv : AcksInv s.ids raft s.voteCalls history)
    (fresh : ∀ term, Campaigned s.voteCalls id term → term < request.term)
    (kept : ∀ term n, history.Acked id term n →
      (history.leaderLog term).take n <+: l ∨ history.Diverged term n request.term) :
    AcksInv s.ids raft (s.launch id node request).voteCalls (history.ask id request.term l) where
  kept := inv.kept
  voted i term n acked ends later candidate voted le := by
    rcases voted with granted | ⟨rfl, asks⟩
    · have before : Granted s.voteCalls i later candidate := granted.of_launch
      have asksBefore : Campaigned s.voteCalls candidate later := by
        obtain ⟨call, old, found, owner, -, real, same, -⟩ := before
        exact ⟨call, old, found, owner, real, same⟩
      rw [asked_before fresh asksBefore]
      exact inv.voted i term n acked ends later candidate (.inl before) le
    · rcases asks.of_launch with before | ⟨rfl, rfl⟩
      · rw [asked_before fresh before]
        exact inv.voted i term n acked ends later i (.inr ⟨rfl, before⟩) le
      · rw [History.ask_asked_self]
        exact kept term n acked
  leader i inside role candidate granted := inv.leader i inside role candidate granted.of_launch

end Launch

/-- **A real election begins**: the candidate asks with the log it has, in a term beyond every entry of
it and every acknowledgement it has given. -/
theorem ReplicationInv.startRealElection (inv : ReplicationInv config s history)
    (valid : config.Valid) (two : 2 ≤ config.ids.length) {id : Nat} (member : id ∈ s.ids) :
    ReplicationInv config (s.startRealElection id)
      (history.ask id ((s.raft id).term + 1) (s.raft id).entries) := by
  set node := (s.raft id).startRealElection.1 with nodeDef
  set request := (s.raft id).startRealElection.2 with requestDef
  have term_eq : request.term = (s.raft id).term + 1 := rfl
  have self : (s.raft id).config.id = id := by
    rw [inv.election.config, valid.id id (inv.election.ids ▸ member)]
  have others := inv.election.others valid two member node rfl
  have launched : s.startRealElection id = s.launch id node request := by
    rw [Cluster.startRealElection]
    dsimp only
    rw [if_neg (by simpa [List.isEmpty_iff] using List.ne_nil_of_mem others.choose_spec)]
  have election := inv.election.startRealElection valid two member
  obtain ⟨still, standing⟩ := Still.startRealElection (s.raft id)
  have moved := inv.setRaft (RaftNode.startRealElection_calm self) still standing
  have holds := inv.nodes.holds id member
  have fresh : ∀ term, Campaigned s.voteCalls id term → term < request.term :=
    fun term asks => Nat.lt_succ_of_lt (inv.election.campaigned id term asks).1
  have kept : ∀ term n, history.Acked id term n →
      (history.leaderLog term).take n <+: (s.raft id).entries ∨
        history.Diverged term n request.term := by
    intro term n acked
    obtain ⟨-, kept⟩ := inv.acks.kept id term n acked
    exact kept.imp_right fun bad => bad.mono (Nat.le_succ _)
  have sameEntries : ((s.setRaft id node).raft id).entries = (s.raft id).entries := by
    rw [setRaft_raft_self]
    exact still.entries
  have candidates : CandidatesInv s.ids (s.setRaft id node).raft (s.launch id node request).voteCalls
      (history.ask id request.term (s.raft id).entries) := by
    refine CandidatesInv.launch (s := s) moved.candidates fresh ?_ sameEntries holds.last
      holds.lastTerm (inv.nodes.matched id member) ?_
    · exact fun term led => Nat.lt_succ_of_le (inv.candidates.led id term led).2.1
    · exact fun entry inside => Nat.lt_succ_of_le (inv.nodes.terms id member entry inside)
  have acks : AcksInv s.ids (s.setRaft id node).raft (s.launch id node request).voteCalls
      (history.ask id request.term (s.raft id).entries) :=
    AcksInv.launch (s := s) moved.acks fresh kept
  have nodes := moved.nodes
  rw [launched] at election ⊢
  have rafts := launch_raft s id node request
  refine ⟨election, inv.sound.ask, ?_, ?_, ?_, ?_, ?_, ?_⟩
  · rw [rafts]
    exact ⟨nodes.holds, nodes.matched, nodes.terms, nodes.leading⟩
  · rw [rafts]
    exact candidates
  · rw [rafts]
    exact fun call new found => (moved.appends call new found).mono History.ask_grows fun _ => le_rfl
  · rw [rafts]
    exact acks
  · rw [rafts]
    intro i inside role peer inPeers
    exact (moved.peers i inside role peer inPeers).mono History.ask_grows
      ⟨i, moved.election.leader i inside role⟩
  · rw [rafts]
    exact moved.commits.mono History.ask_grows

theorem ReplicationInv.startElection (inv : ReplicationInv config s history) (valid : config.Valid)
    (two : 2 ≤ config.ids.length) {id : Nat} (member : id ∈ s.ids) :
    ∃ later, ReplicationInv config (s.startElection id) later := by
  rw [Cluster.startElection]
  split
  · split
    · exact ⟨_, inv.startPreVote valid two member⟩
    · exact ⟨_, inv.startRealElection valid two member⟩
  · split
    · exact ⟨_, inv.startPreVote valid two member⟩
    · exact ⟨_, inv.startRealElection valid two member⟩
  · exact ⟨_, inv.startRealElection valid two member⟩
  · exact ⟨_, inv⟩

/-- **A vote request reaches its peer.** A vote is given to a log that is as far as the voter's, so it
contains what the voter has acknowledged or a later leader diverged. -/
theorem ReplicationInv.deliverVote (inv : ReplicationInv config s history) {id : CallId}
    {call : VoteCall} (found : s.voteCalls id = some call)
    (safe : s.Replicates (.deliverVote id)) :
    ReplicationInv config (s.deliverVote id call) history := by
  obtain ⟨-, member, -, -, own⟩ := inv.election.call id call found
  obtain ⟨still, standing⟩ := Still.handleRequestVote (s.raft id.peer) call.request
  have moved := inv.setRaft (RaftNode.handleRequestVote_calm
    (inv.election.candidate id.peer member) call.request) still standing
  have request : ({ call with replies := call.replies ++
      [((s.raft id.peer).handleRequestVote call.request).2] } : VoteCall).request = call.request := rfl
  refine moved.setVotes (inv.election.deliverVote found) rfl rfl rfl (fun other new found' _ => ?_)
    fun voter term candidate granted => ?_
  · obtain ⟨old, foundOld, same, -⟩ := update_found found request found'
    exact ⟨old, foundOld, same⟩
  rcases Granted.of_update found request granted with
    before | ⟨rfl, rfl, real, rfl, response, inside, new, yes⟩
  · exact .inl before
  -- the vote is the answer that was just added
  have last : response = ((s.raft id.peer).handleRequestVote call.request).2 := by
    rcases List.mem_append.mp inside with before | last
    · exact absurd before new
    · exact List.mem_singleton.mp last
  rw [last] at yes
  rcases (s.raft id.peer).handleRequestVote_cases call.request with
    ⟨-, -, refused⟩ | ⟨-, -, pre⟩ | ⟨behind, -, ok, same⟩
  · rw [refused] at yes
    cases yes
  · rw [pre yes] at real
    cases real
  have logs : ((s.raft id.peer).observeTerm call.request.term).log = (s.raft id.peer).log :=
    RaftNode.observeTerm_log ..
  have holds := inv.nodes.holds id.peer member
  obtain ⟨lastIndex, lastTerm⟩ := inv.candidates.request id call found real
  have asks : Campaigned s.voteCalls id.owner call.request.term := ⟨id, call, found, rfl, real, rfl⟩
  refine .inr ⟨fun term n acked ends _ => ?_, fun role now => ?_⟩
  · obtain ⟨-, kept⟩ := inv.acks.kept id.peer term n acked
    rcases kept with kept | bad
    · rw [RaftNode.logOk, logs, decide_eq_true_eq, holds.last, holds.lastTerm, lastIndex, lastTerm]
        at ok
      rcases (inv.nodes.matched id.peer member).reach inv.sound
        (inv.candidates.matched id.owner _ asks) ends.1 ends.2 kept
        (ok.imp (fun less => less) fun both => ⟨both.1.symm, both.2⟩) with carries | bad
      · exact .inl carries
      · refine .inr (bad.mono ?_)
        rcases List.eq_nil_or_concat (history.asked id.owner call.request.term) with empty | ⟨_, e, eq⟩
        · rw [empty]
          exact Nat.zero_le _
        · have inLog : e ∈ history.asked id.owner call.request.term := by
            rw [eq]
            simp
          have below := inv.candidates.terms id.owner _ asks e inLog
          rw [eq, lastTermOf]
          simpa using below.le
    · exact .inr (bad.mono behind)
  · -- a leader that observes a later term is no leader any more
    rw [setRaft_raft_self, same] at role now
    have term : (s.raft id.peer).state.currentTerm = call.request.term ∧
        (s.raft id.peer).state.role = .leader := by
      rw [RaftNode.observeTerm] at role
      split at role
      · cases role
      case isFalse notLater => exact ⟨le_antisymm behind (Nat.le_of_not_lt notLater), role⟩
    have no := safe call found real term.2 term.1
    rw [RaftNode.logOk, logs] at ok
    rw [RaftNode.logOk, ok] at no
    cases no

/-- A call ends: the votes given stay the same. -/
theorem ReplicationInv.answer (inv : ReplicationInv config s history) {id : CallId} {call : VoteCall}
    (found : s.voteCalls id = some call) (pending : call.answered = false) (granted : Bool)
    (given : granted = true → ∃ response ∈ call.replies, response.voteGranted = true) :
    ReplicationInv config
      { s.setMember id.owner (castVote (s.members id.owner) id.number granted) with
        voteCalls := Function.update s.voteCalls id (some { call with answered := true }) } history := by
  have request : ({ call with answered := true } : VoteCall).request = call.request := rfl
  refine inv.setVotes (inv.election.answer found pending granted given) rfl
    (setMember_raft (castVote_raft ..)) rfl (fun other new found' _ => ?_)
    fun voter term candidate grants => .inl ?_
  · obtain ⟨old, foundOld, same, -⟩ := update_found found request found'
    exact ⟨old, foundOld, same⟩
  · rcases Granted.of_update found request grants with old | ⟨-, -, -, -, response, member, new, -⟩
    · exact old
    · exact absurd member new

theorem ReplicationInv.voteReply (inv : ReplicationInv config s history) (valid : config.Valid)
    {id : CallId} {call : VoteCall} (found : s.voteCalls id = some call)
    (pending : call.answered = false) {response : RequestVoteResponse}
    (received : response ∈ call.replies)
    (timely : call.request.preVote = false → response.term > call.request.term →
      (s.raft id.owner).MayFollow response.term) :
    ReplicationInv config (s.voteReply id call response) history := by
  obtain ⟨member, -⟩ := inv.election.call id call found
  have self : (s.raft id.owner).config.id = id.owner := by
    rw [inv.election.config, valid.id _ (inv.election.ids ▸ member)]
  obtain ⟨still, standing⟩ := Still.handleVoteReply timely
  have moved := inv.setRaft (RaftNode.handleVoteReply_calm self timely) still standing
  have answered := moved.answer found pending response.voteGranted fun yes => ⟨response, received, yes⟩
  rw [setRaft_members_self, setRaft_setMember] at answered
  exact answered

theorem other_term {term term' : Nat} (fresh : ¬ history.Led term) (led : history.Led term') :
    term' ≠ term := by
  rintro rfl
  exact fresh led

/-- A candidate has become leader, with the log and in the term it has. -/
structure Promoted (raft raft' : Nat → RaftNode) (id : Nat) : Prop where
  others : ∀ i, i ≠ id → raft' i = raft i
  leads : (raft' id).state.role = .leader
  log : (raft' id).log = (raft id).log
  current : (raft' id).term = (raft id).term
  commit : (raft' id).state.commitIndex = (raft id).state.commitIndex
  applyTx : (raft' id).applyTx = (raft id).applyTx

namespace Promoted

variable {ids : List Nat} {raft raft' : Nat → RaftNode} {votes : CallId → Option VoteCall} {id : Nat}

theorem logs (took : Promoted raft raft' id) (i : Nat) : (raft' i).log = (raft i).log := by
  by_cases same : i = id
  · rw [same, took.log]
  · rw [took.others i same]

theorem entries (took : Promoted raft raft' id) (i : Nat) : (raft' i).entries = (raft i).entries :=
  congrArg RaftLog.toList (took.logs i)

theorem terms (took : Promoted raft raft' id) (i : Nat) : (raft' i).term = (raft i).term := by
  by_cases same : i = id
  · rw [same, took.current]
  · rw [took.others i same]

theorem nodes (took : Promoted raft raft' id) (inv : NodesInv ids raft history)
    (fresh : ¬ history.Led (raft id).term)
    (leader : ∀ i ∈ ids, (raft i).state.role = .leader → (i, (raft i).term) ∈ history.led) :
    NodesInv ids raft' (history.elect id (raft id).term (raft id).entries) where
  holds i inside := by
    rw [took.entries, took.logs]
    exact inv.holds i inside
  matched i inside := by
    rw [took.entries]
    exact (History.elect_grows fresh).matched (inv.matched i inside)
  terms i inside := by
    rw [took.entries, took.terms]
    exact inv.terms i inside
  leading i inside role := by
    rw [took.entries, took.terms]
    by_cases same : i = id
    · rw [same, History.elect_leaderLog_self]
    · rw [took.others i same] at role
      have led : history.Led (raft i).term := ⟨i, leader i inside role⟩
      rw [History.elect_leaderLog_of_ne (other_term fresh led)]
      exact inv.leading i inside role

theorem candidates (took : Promoted raft raft' id) (inv : CandidatesInv ids raft votes history)
    (member : id ∈ ids) {q : Nat} (stands : (raft id).StandsFor q)
    (log : (raft id).entries = history.asked id q) (fresh : ¬ history.Led (raft id).term) :
    CandidatesInv ids raft' votes (history.elect id (raft id).term (raft id).entries) where
  request := inv.request
  matched i asked campaigned := (History.elect_grows fresh).matched (inv.matched i asked campaigned)
  terms := inv.terms
  standing i inside asked campaigned stands' := by
    by_cases same : i = id
    · have role := stands'.1
      rw [same, took.leads] at role
      cases role
    · rw [took.others i same] at stands' ⊢
      exact (inv.standing i inside asked campaigned stands').imp_right
        (History.elect_grows fresh).led_of
  led i term led := by
    have term_eq : (raft id).term = q + 1 := stands.2
    rw [took.terms]
    rcases led with new | old
    · cases new
      rw [History.elect_base_self, term_eq]
      exact ⟨member, le_rfl, log⟩
    · obtain ⟨inside, below, base⟩ := inv.led i term old
      rw [History.elect_base_of_ne (other_term fresh ⟨i, old⟩)]
      exact ⟨inside, below, base⟩
  candidate i inside role := by
    rw [took.terms]
    by_cases same : i = id
    · rw [same, took.leads] at role
      cases role
    · rw [took.others i same] at role
      rintro (new | old)
      · cases new
        exact same rfl
      · exact inv.candidate i inside role old

/-- The log a node is elected with has no entry of its own term. -/
theorem acks (took : Promoted raft raft' id) (inv : AcksInv ids raft votes history)
    (sound : history.Sound) (fresh : ¬ history.Led (raft id).term)
    (earlier : ∀ entry ∈ (raft id).entries, entry.term < (raft id).term)
    (free : ∀ candidate, ¬ Granted votes id (raft id).term candidate) :
    AcksInv ids raft' votes (history.elect id (raft id).term (raft id).entries) where
  kept i term n acked := by
    rw [took.entries, took.terms]
    rcases History.acked_elect acked with old | ⟨rfl, rfl, -⟩
    · obtain ⟨led, inside⟩ := sound.acked old
      obtain ⟨below, kept⟩ := inv.kept i term n old
      rw [(History.elect_grows fresh).take_eq led inside]
      exact ⟨below, kept.imp_right ((History.elect_grows fresh).diverged led inside)⟩
    · rw [History.elect_leaderLog_self]
      exact ⟨le_rfl, .inl (List.take_prefix _ _)⟩
  voted i term n acked ends later candidate voted le := by
    rcases History.acked_elect acked with old | ⟨rfl, rfl, -⟩
    · obtain ⟨led, inside⟩ := sound.acked old
      rw [(History.elect_grows fresh).take_eq led inside]
      exact (inv.voted i term n old (ends.of_grows (History.elect_grows fresh) led inside) later
        candidate voted le).imp_right ((History.elect_grows fresh).diverged led inside)
    · obtain ⟨-, entry, found, own⟩ := ends
      rw [History.elect_leaderLog_self] at found
      exact absurd own (earlier entry (List.mem_of_getElem? found)).ne
  leader i inside role candidate granted := by
    rw [took.terms] at granted
    by_cases same : i = id
    · exact free candidate (same ▸ granted)
    · rw [took.others i same] at role
      exact inv.leader i inside role candidate granted

theorem commits (took : Promoted raft raft' id) (inv : CommitsInv ids raft history) {later : History}
    (grows : history.Grows later) : CommitsInv ids raft' later where
  commit i inside := by
    have same : (raft' i).state.commitIndex = (raft i).state.commitIndex := by
      by_cases same : i = id
      · rw [same, took.commit]
      · rw [took.others i same]
    rw [took.entries, took.terms, same]
    exact (inv.commit i inside).mono grows (List.take_prefix _ _) le_rfl
  applied i inside entry sent := by
    refine (inv.applied i inside entry ?_).mono grows
    by_cases same : i = id
    · rw [same] at sent ⊢
      rwa [took.applyTx] at sent
    · rwa [took.others i same] at sent

end Promoted

/-- The indices that a new leader starts with. -/
theorem PeerOk.becomeLeader {id peer : Nat} (listed : peer ∈ (s.raft id).config.peers)
    (holds : (s.raft id).log.Holds (s.raft id).entries) :
    PeerOk (s.setRaft id (s.raft id).becomeLeader).raft
      (history.elect id (s.raft id).term (s.raft id).entries) id peer := by
  have term : (s.raft id).becomeLeader.term = (s.raft id).term := rfl
  refine ⟨⟨0, ?_, .inl rfl⟩, (s.raft id).log.lastIndex + 1, ?_, ?_, fun zero => ?_⟩
  · rw [setRaft_raft_self]
    exact if_pos listed
  · rw [setRaft_raft_self]
    exact if_pos listed
  · rw [setRaft_raft_self, term, History.elect_leaderLog_self, holds.last]
  · cases zero

/-- **A candidate is elected** with the log it asked votes with: another node that led its term would
have been elected by the same votes. -/
theorem ReplicationInv.elect (inv : ReplicationInv config s history) {id q : Nat}
    (member : id ∈ s.ids) (stands : (s.raft id).StandsFor q) (asks : Campaigned s.voteCalls id q)
    (election : ElectionInv config (s.setRaft id (s.raft id).becomeLeader)
      (insert (id, (s.raft id).term) history.led)) :
    ReplicationInv config (s.setRaft id (s.raft id).becomeLeader)
      (history.elect id (s.raft id).term (s.raft id).entries) := by
  have term_eq : (s.raft id).term = q + 1 := stands.2
  have fresh : ¬ history.Led (s.raft id).term := by
    rintro ⟨other, led⟩
    have same : other = id := election.led_unique (.inr led) (.inl rfl)
    rw [same] at led
    exact inv.candidates.candidate id member stands.1 led
  have log_eq : (s.raft id).entries = history.asked id q :=
    (inv.candidates.standing id member q asks stands).resolve_right (term_eq ▸ fresh)
  have earlier : ∀ entry ∈ (s.raft id).entries, entry.term < (s.raft id).term := by
    intro entry inside
    rw [log_eq] at inside
    exact (inv.candidates.terms id q asks entry inside).trans (by omega)
  have free : ∀ candidate, ¬ Granted s.voteCalls id (s.raft id).term candidate := by
    intro candidate granted
    rcases inv.election.backed id _ candidate granted with before | ⟨-, vote⟩
    · exact before.false
    · rw [inv.election.candidate id member stands.1] at vote
      exact inv.election.granted_ne granted (Option.some.inj vote)
  have grows : history.Grows (history.elect id (s.raft id).term (s.raft id).entries) :=
    History.elect_grows fresh
  have took : Promoted s.raft (s.setRaft id (s.raft id).becomeLeader).raft id := by
    refine ⟨fun i other => setRaft_raft_of_ne _ _ other, ?_, ?_, ?_, ?_, ?_⟩
    all_goals
      rw [setRaft_raft_self]
      rfl
  refine ⟨election, inv.sound.elect fresh (by omega) earlier (inv.nodes.holds id member).indexed
      (inv.nodes.matched id member), took.nodes inv.nodes fresh inv.election.leader,
    took.candidates inv.candidates member stands log_eq fresh,
    fun call new found => (inv.appends call new found).mono grows fun i => (took.terms i).ge,
    took.acks inv.acks inv.sound fresh earlier free, ?_, took.commits inv.commits grows⟩
  intro i inside role peer inPeers
  by_cases same : i = id
  · subst same
    rw [setRaft_raft_self] at inPeers
    exact .becomeLeader (List.mem_filter.mp inPeers).1 (inv.nodes.holds i member)
  · rw [setRaft_raft_of_ne _ _ same] at role inPeers
    have ok := (inv.peers i inside role peer inPeers).mono grows
      ⟨i, inv.election.leader i inside role⟩
    refine ⟨?_, ?_⟩
    · rw [setRaft_raft_of_ne _ _ same]
      exact ok.acked
    · rw [setRaft_raft_of_ne _ _ same, took.terms]
      exact ok.next

/-! ### Heartbeats -/

/-- **The append request of a leader** is a stretch of its log, and an empty one says nothing about
entries beyond it unless its peer has left the term. -/
theorem ReplicationInv.appendRequest (inv : ReplicationInv config s history) (valid : config.Valid)
    {id : Nat} (member : id ∈ s.ids) (role : (s.raft id).state.role = .leader) {call : CallId}
    (owner : call.owner = id) (inPeers : call.peer ∈ (s.raft id).peerIds)
    {request : AppendEntriesRequest} (built : (s.raft id).appendRequest call.peer = some request) :
    AppendOk s.ids s.raft history call ⟨request, (s.raft id).log.lastIndex, [], false⟩ := by
  have holds := inv.nodes.holds id member
  have log := inv.nodes.leading id member role
  obtain ⟨inside, ne⟩ := (inv.election.peers valid member (s.raft id) rfl).1 call.peer inPeers
  obtain ⟨n, next, reach, stale⟩ := (inv.peers id member role call.peer inPeers).next
  have perRequest : 0 < (s.raft id).config.maxLogEntriesPerRequest := by
    rw [inv.election.config]
    exact valid.perRequest id (inv.election.ids ▸ member)
  rw [RaftNode.appendRequest, next, holds.noSnapshot] at built
  simp only [Option.isSome_none, Bool.false_eq_true, and_false, if_false, Option.some.injEq,
    Option.getD_some] at built
  rw [holds.getRange_eq, log] at built
  subst built
  set L := history.leaderLog (s.raft id).term with LDef
  have size : (s.raft id).log.lastIndex = L.length := by rw [holds.last, log]
  have start : max n 1 - 1 = n - 1 := by omega
  refine ⟨inside, owner ▸ ne, owner ▸ inv.election.leader id member role, ?_, ?_, ?_, size.le, ?_, ?_,
    fun response none => by cases none⟩
  · show n - 1 + (List.take _ (List.drop (max n 1 - 1) L)).length ≤ L.length
    rw [start, List.length_take, List.length_drop]
    omega
  · show List.take _ (List.drop (max n 1 - 1) L) =
      List.take (List.take _ (List.drop (max n 1 - 1) L)).length (List.drop (n - 1) L)
    rw [start, List.length_take]
    exact (List.take_eq_take_min).symm ▸ rfl
  · show (n - 1 = 0 ∧ ((s.raft id).log.termAt (n - 1)).getD 0 = 0) ∨ (0 < n - 1 ∧
      ∃ entry, L[n - 1 - 1]? = some entry ∧ entry.term = ((s.raft id).log.termAt (n - 1)).getD 0)
    rcases Nat.eq_zero_or_pos (n - 1) with zero | positive
    · rw [zero]
      exact .inl ⟨rfl, rfl⟩
    · refine .inr ⟨positive, ?_⟩
      rw [holds.termAt_eq positive, log]
      have within : n - 1 - 1 < L.length := by omega
      exact ⟨L[n - 1 - 1], List.getElem?_eq_getElem within, by
        rw [List.getElem?_eq_getElem within]
        rfl⟩
  · have ok := inv.commits.commit id member
    rw [log] at ok
    exact ok
  · intro empty
    have empty : List.take (n + (s.raft id).config.maxLogEntriesPerRequest - max n 1)
        (List.drop (max n 1 - 1) L) = [] := empty
    show (s.raft id).state.commitIndex ≤ n - 1 ∨ (s.raft id).term < (s.raft call.peer).term
    rcases Nat.eq_zero_or_pos n with zero | positive
    · exact .inr (stale zero)
    · have committed := (inv.commits.commit id member).1
      rw [log] at committed
      have none := congrArg List.length empty
      rw [List.length_take, List.length_drop, List.length_nil] at none
      exact .inl (by omega)

theorem ReplicationInv.sendHeartbeats (inv : ReplicationInv config s history) (valid : config.Valid)
    {id : Nat} (member : id ∈ s.ids) : ReplicationInv config (s.sendHeartbeats id) history := by
  have rafts : (s.sendHeartbeats id).raft = s.raft := funext fun i => sendHeartbeats_raft ..
  have ids : (s.sendHeartbeats id).ids = s.ids := sendHeartbeats_ids ..
  have votes : (s.sendHeartbeats id).voteCalls = s.voteCalls := sendHeartbeats_voteCalls ..
  refine ⟨inv.election.sendHeartbeats id, inv.sound, by rw [ids, rafts]; exact inv.nodes,
    by rw [ids, rafts, votes]; exact inv.candidates, ?_, by rw [ids, rafts, votes]; exact inv.acks,
    by rw [ids, rafts]; exact inv.peers, by rw [ids, rafts]; exact inv.commits⟩
  intro call new found
  rw [ids, rafts]
  rcases sendHeartbeats_found found with old | ⟨role, owner, inPeers, request, built, rfl⟩
  · exact inv.appends call new old
  · exact inv.appendRequest valid member role owner inPeers built

/-! ### An append request reaches its peer -/

section Accept

open RaftNode

variable {node : RaftNode} {request : AppendEntriesRequest}

theorem conflictStart_le (log : RaftLog) (term : Nat) : ∀ i, conflictStart log term i ≤ i
  | 0 => le_rfl
  | i + 1 => by
    rw [conflictStart]
    split
    · exact (conflictStart_le log term i).trans (Nat.le_succ i)
    · exact le_rfl

theorem conflictStart_pos {log : RaftLog} (first : log.firstIndex = 1) (term : Nat) :
    ∀ i, 0 < i → 0 < conflictStart log term i
  | i + 1, _ => by
    rw [conflictStart]
    split
    case isTrue walks => exact conflictStart_pos first term i (by omega)
    case isFalse => exact Nat.succ_pos i

/-- A request that is not accepted leaves the log, and its refusal tells whether the term or the
previous entry was wrong. -/
theorem handleAppendEntries_reject (rejects : ¬ node.Accepts request) :
    Still node (node.handleAppendEntries request).1 ∧
    KeepsStanding node (node.handleAppendEntries request).1 ∧
    (node.handleAppendEntries request).2.success = false ∧
    (node.handleAppendEntries request).2.conflictIndex ≤ request.prevLogIndex ∧
    ((node.handleAppendEntries request).2.conflictIndex = 0 →
      request.term < node.term ∨
      (node.log.hasEntry request.prevLogIndex request.prevLogTerm = false ∧
        (node.log.firstIndex = 1 → request.prevLogIndex = 0))) := by
  rw [handleAppendEntries]
  dsimp only
  split
  case isTrue stale =>
    exact ⟨.refl node, fun role => .inl ⟨role, rfl⟩, rfl, Nat.zero_le _, fun _ => .inl stale⟩
  case isFalse inTime =>
    have mismatch : ¬ node.log.hasEntry request.prevLogIndex request.prevLogTerm = true :=
      fun has => rejects ⟨Nat.not_lt.mp inTime, has⟩
    rw [if_pos mismatch]
    obtain ⟨still, standing⟩ := Still.observeTerm node request.term
    refine ⟨⟨⟨still.config, still.log, still.term, still.leader⟩, still.commit, still.applyTx,
      still.indices⟩, standing, rfl, conflictStart_le .., fun zero => .inr ⟨Bool.not_eq_true _ ▸ mismatch,
        fun first => ?_⟩⟩
    by_contra positive
    have := conflictStart_pos first ((node.log.termAt request.prevLogIndex).getD 0)
      request.prevLogIndex (Nat.pos_of_ne_zero positive)
    exact this.ne' zero

end Accept

/-- What an accepted request makes of a log: the stretch of the leader's log is in it, every common
prefix of the two logs stays, and behind new entries there is nothing. -/
structure Spliced (L l l' : List LogEntry) (request : AppendEntriesRequest) : Prop where
  stretch : L.take (request.prevLogIndex + request.entries.length) <+: l'
  keeps : ∀ part, part <+: l → part <+: L → part <+: l'
  same : request.entries = [] → l' = l
  new : request.entries ≠ [] → l' = L.take (request.prevLogIndex + request.entries.length)

/-- The entries of an append request carry the indices from its previous index on. -/
theorem AppendOk.indexed {ids : List Nat} {raft : Nat → RaftNode} {id : CallId} {call : AppendCall}
    (ok : AppendOk ids raft history id call) (sound : history.Sound) :
    IndexedFrom call.request.prevLogIndex call.request.entries := by
  intro i entry found
  have short : i < call.request.entries.length := (List.getElem?_eq_some_iff.mp found).1
  rw [ok.stretch, List.getElem?_take_of_lt short, List.getElem?_drop] at found
  rw [sound.indexed _ ⟨_, ok.led⟩ _ entry found]
  omega

/-- The previous entry of an accepted request has the term it has in the leader's log, so the two logs
agree up to it. -/
theorem ReplicationInv.agree (inv : ReplicationInv config s history) {id : CallId}
    {call : AppendCall} (found : s.appendCalls id = some call)
    (accepts : (s.raft id.peer).Accepts call.request) :
    call.request.prevLogIndex ≤ (s.raft id.peer).entries.length ∧
      (s.raft id.peer).entries.take call.request.prevLogIndex =
        (history.leaderLog call.request.term).take call.request.prevLogIndex := by
  have ok := inv.appends id call found
  have led : history.Led call.request.term := ⟨_, ok.led⟩
  rcases (inv.nodes.holds id.peer ok.peer).hasEntry_iff.mp accepts.2 with
    ⟨zero, -⟩ | ⟨positive, entry, here, term⟩
  · rw [zero]
    exact ⟨Nat.zero_le _, rfl⟩
  · have reach := (List.getElem?_eq_some_iff.mp here).1
    refine ⟨by omega, ?_⟩
    rcases ok.prevTerm with ⟨zero, -⟩ | ⟨-, entry', here', term'⟩
    · exact absurd zero positive.ne'
    · have same := (inv.nodes.matched id.peer ok.peer).take_eq (inv.sound.matched _ led) here here'
        (term.trans term'.symm)
      rwa [Nat.sub_add_cancel positive] at same

/-- Where the log has the stretch of the request, nothing lies behind it. -/
theorem length_le_of_keepsLog {node : RaftNode} {request : AppendEntriesRequest}
    (keeps : node.KeepsLog request) (holds : node.log.Holds node.entries)
    (ne : request.entries ≠ [])
    (has : node.entries.take (request.prevLogIndex + request.entries.length) =
      node.entries.take request.prevLogIndex ++ request.entries) :
    node.entries.length ≤ request.prevLogIndex + request.entries.length := by
  rw [← holds.last]
  refine keeps ne ?_
  rw [holds.getRange_eq, show max (request.prevLogIndex + 1) 1 = request.prevLogIndex + 1 by omega,
    Nat.add_sub_cancel, Nat.add_sub_cancel_left]
  rw [List.take_add] at has
  exact List.append_cancel_left has

/-- **The log of the peer after an accepted request.** -/
theorem ReplicationInv.spliced (inv : ReplicationInv config s history) {id : CallId}
    {call : AppendCall} (found : s.appendCalls id = some call)
    (accepts : (s.raft id.peer).Accepts call.request)
    (keeps : (s.raft id.peer).KeepsLog call.request) :
    ∃ l', (RaftNode.spliceLog (s.raft id.peer).log call.request.entries).Holds l' ∧
      Spliced (history.leaderLog call.request.term) (s.raft id.peer).entries l' call.request := by
  have ok := inv.appends id call found
  have holds := inv.nodes.holds id.peer ok.peer
  obtain ⟨reach, agree⟩ := inv.agree found accepts
  have spliced := RaftNode.spliceLog_holds holds reach (ok.indexed inv.sound)
  set l := (s.raft id.peer).entries with lDef
  set L := history.leaderLog call.request.term with LDef
  set k := call.request.prevLogIndex + call.request.entries.length with kDef
  have size : (L.take k).length = k := by
    rw [List.length_take, Nat.min_eq_left ok.inside]
  refine ⟨_, spliced, ?_⟩
  split
  case isTrue empty =>
    refine ⟨?_, fun part below _ => below, fun _ => rfl, fun ne => absurd empty ne⟩
    change L.take k <+: l
    rw [kDef, empty, List.length_nil, Nat.add_zero, ← agree]
    exact List.take_prefix _ _
  case isFalse ne =>
    have joined : l.take call.request.prevLogIndex ++ call.request.entries = L.take k := by
      rw [kDef, List.take_add, agree, ← ok.stretch]
    rw [joined]
    refine ⟨List.prefix_rfl, fun part below belowL => ?_, fun empty => absurd empty ne, fun _ => rfl⟩
    rcases Nat.le_total part.length k with short | long
    · exact List.prefix_of_prefix_length_le belowL (List.take_prefix _ _) (short.trans size.ge)
    · -- the whole stretch is already there, so nothing lies behind it
      have covered : L.take k <+: part :=
        List.prefix_of_prefix_length_le (List.take_prefix _ _) belowL (size.le.trans long)
      have whole : l.take k = L.take k := by
        have same := take_eq_of_initial (covered.trans below) size.ge
        rwa [List.take_take, Nat.min_self] at same
      have last := length_le_of_keepsLog keeps holds ne (whole.trans joined.symm)
      have all : L.take k = part :=
        covered.eq_of_length (le_antisymm covered.length_le
          (below.length_le.trans (last.trans size.ge)))
      rw [all]

/-- The commit index that a follower takes from an accepted request covers entries that it has checked
against the leader's log. -/
theorem AppendOk.follow {ids : List Nat} {raft : Nat → RaftNode} {id : CallId} {call : AppendCall}
    (ok : AppendOk ids raft history id call) {l l' : List LogEntry}
    (spliced : Spliced (history.leaderLog call.request.term) l l' call.request)
    (accepts : (raft id.peer).Accepts call.request) :
    CommitOk ids history l' (min call.request.leaderCommit l'.length) call.request.term := by
  set L := history.leaderLog call.request.term with LDef
  set c := min call.request.leaderCommit l'.length with cDef
  set k := call.request.prevLogIndex + call.request.entries.length with kDef
  have inside : k ≤ L.length := ok.inside
  have size : (L.take k).length = k := by rw [List.length_take, Nat.min_eq_left inside]
  have checked : c ≤ k := by
    rcases eq_or_ne call.request.entries [] with empty | ne
    · rcases ok.heartbeat empty with below | stale
      · omega
      · exact absurd stale (Nat.not_lt.mpr accepts.1)
    · have whole := congrArg List.length (spliced.new ne)
      rw [size] at whole
      omega
  have agree : l'.take c = L.take c := by
    rw [take_eq_of_initial spliced.stretch (checked.trans size.ge), List.take_take,
      Nat.min_eq_left checked]
  refine ⟨Nat.min_le_right _ _, ?_⟩
  rcases ok.commit.2 with zero | ⟨term, n, committed, le, reaches, same⟩
  · exact .inl (by omega)
  · refine .inr ⟨term, n, committed, le, (Nat.min_le_left _ _).trans reaches, ?_⟩
    have both := congrArg (List.take c) same
    rwa [List.take_take, List.take_take, Nat.min_eq_left (Nat.min_le_left _ _), ← agree] at both

/-- An accepted request: the peer has the log `l'` and is in the request's term, which it does not
lead. -/
structure Accepted (raft raft' : Nat → RaftNode) (peer term : Nat) (l' : List LogEntry) : Prop where
  others : ∀ i, i ≠ peer → raft' i = raft i
  log : (raft' peer).entries = l'
  current : (raft' peer).term = term
  behind : (raft peer).term ≤ term
  notLeader : (raft' peer).state.role ≠ .leader
  candidate : (raft' peer).state.role = .candidate →
    (raft peer).state.role = .candidate ∧ (raft peer).term = term

namespace Accepted

variable {ids : List Nat} {raft raft' : Nat → RaftNode} {votes : CallId → Option VoteCall}
  {later : History} {peer term : Nat} {l' : List LogEntry}

theorem terms (took : Accepted raft raft' peer term l') (i : Nat) :
    (raft i).term ≤ (raft' i).term := by
  by_cases same : i = peer
  · rw [same, took.current]
    exact took.behind
  · rw [took.others i same]

/-- A node that leads afterwards is another one. -/
theorem leads (took : Accepted raft raft' peer term l') {i : Nat}
    (role : (raft' i).state.role = .leader) : raft' i = raft i := by
  by_cases same : i = peer
  · exact absurd (same ▸ role) took.notLeader
  · exact took.others i same

theorem nodes (took : Accepted raft raft' peer term l') (inv : NodesInv ids raft history)
    (holds : (raft' peer).log.Holds l') (matched : Matched history l')
    (terms : ∀ entry ∈ l', entry.term ≤ term) (k : Nat) :
    NodesInv ids raft' (history.acknowledge peer term k) where
  holds i inside := by
    by_cases same : i = peer
    · rw [same, took.log]
      exact holds
    · rw [took.others i same]
      exact inv.holds i inside
  matched i inside := by
    by_cases same : i = peer
    · rw [same, took.log]
      exact matched
    · rw [took.others i same]
      exact inv.matched i inside
  terms i inside entry stored := by
    by_cases same : i = peer
    · rw [same, took.log] at stored
      rw [same, took.current]
      exact terms entry stored
    · rw [took.others i same] at stored ⊢
      exact inv.terms i inside entry stored
  leading i inside role := by
    have same := took.leads role
    rw [same] at role ⊢
    exact inv.leading i inside role

theorem candidates (took : Accepted raft raft' peer term l')
    (inv : CandidatesInv ids raft votes history) (member : peer ∈ ids) (led : history.Led term)
    (k : Nat) : CandidatesInv ids raft' votes (history.acknowledge peer term k) where
  request := inv.request
  matched := inv.matched
  terms := inv.terms
  standing i inside q asks stands := by
    by_cases same : i = peer
    · have now : (raft' peer).term = q + 1 := same ▸ stands.2
      rw [took.current] at now
      exact .inr (now ▸ led)
    · rw [took.others i same] at stands ⊢
      exact inv.standing i inside q asks stands
  led i q leads := by
    obtain ⟨inside, below, base⟩ := inv.led i q leads
    exact ⟨inside, below.trans (took.terms i), base⟩
  candidate i inside role := by
    by_cases same : i = peer
    · subst same
      obtain ⟨before, now⟩ := took.candidate role
      rw [took.current, ← now]
      exact inv.candidate i member before
    · rw [took.others i same] at role ⊢
      exact inv.candidate i inside role

/-- The peer acknowledges the first `k` entries of the leader's log, having given no vote in the term
or later. -/
theorem acks (took : Accepted raft raft' peer term l') (inv : AcksInv ids raft votes history)
    (sound : history.Sound) (led : history.Led term) {k : Nat}
    (stretch : (history.leaderLog term).take k <+: l')
    (keeps : ∀ part, part <+: (raft peer).entries → part <+: history.leaderLog term → part <+: l')
    (voteless : ∀ q candidate, Voted votes peer q candidate → q < term) :
    AcksInv ids raft' votes (history.acknowledge peer term k) where
  kept i q n acked := by
    rcases History.acked_acknowledge acked with old | ⟨rfl, rfl, le⟩
    · obtain ⟨below, kept⟩ := inv.kept i q n old
      refine ⟨below.trans (took.terms i), ?_⟩
      by_cases same : i = peer
      · subst same
        rw [took.log, took.current]
        rcases kept with kept | bad
        · rcases (below.trans took.behind).lt_or_eq with before | now
          · by_cases carried : (history.leaderLog q).take n <+: history.base term
            · exact .inl (keeps _ kept (carried.trans (sound.base term led)))
            · exact .inr ⟨term, led, before, le_rfl, carried⟩
          · subst now
            exact .inl (keeps _ kept (List.take_prefix _ _))
        · exact .inr (bad.mono took.behind)
      · rw [took.others i same]
        exact kept
    · rw [took.log, took.current]
      exact ⟨le_rfl, .inl ((List.take_prefix_take_left le).trans stretch)⟩
  voted i q n acked ends later candidate voted le := by
    rcases History.acked_acknowledge acked with old | ⟨rfl, rfl, -⟩
    · exact inv.voted i q n old ends later candidate voted le
    · exact absurd (voteless later candidate voted) (Nat.not_lt.mpr le)
  leader i inside role := by
    have same := took.leads role
    rw [same] at role ⊢
    exact inv.leader i inside role

theorem peers (took : Accepted raft raft' peer term l') {i other : Nat}
    (ok : PeerOk raft history i other) (role : (raft' i).state.role = .leader) :
    PeerOk raft' history i other := by
  obtain ⟨n, next, reach, stale⟩ := ok.next
  refine ⟨?_, ?_⟩
  · rw [took.leads role]
    exact ok.acked
  · rw [took.leads role]
    exact ⟨n, next, reach, fun zero => (stale zero).trans_le (took.terms other)⟩

theorem commits (took : Accepted raft raft' peer term l') (inv : CommitsInv ids raft history)
    (grows : history.Grows later)
    (commit : CommitOk ids later l' (raft' peer).state.commitIndex term)
    (sent : (raft' peer).applyTx = (raft peer).applyTx) : CommitsInv ids raft' later where
  commit i inside := by
    by_cases same : i = peer
    · subst same
      rw [took.log, took.current]
      exact commit
    · rw [took.others i same]
      exact (inv.commit i inside).mono grows (List.take_prefix _ _) le_rfl
  applied i inside entry applied := by
    refine (inv.applied i inside entry ?_).mono grows
    by_cases same : i = peer
    · rw [same] at applied ⊢
      rwa [sent] at applied
    · rwa [took.others i same] at applied

end Accepted

/-- A node that is free in a term that another node leads has not voted in it or later. -/
theorem ElectionInv.voteless (inv : ElectionInv config s history.led)
    (valid : config.Valid) {peer term : Nat} (member : peer ∈ s.ids)
    (behind : (s.raft peer).term ≤ term) (free : (s.raft peer).FreeIn term) :
    ∀ q candidate, Voted s.voteCalls peer q candidate → q < term := by
  intro q candidate voted
  by_contra reached
  have le : term ≤ q := Nat.not_lt.mp reached
  rcases voted with granted | ⟨self, asks⟩
  · rcases inv.backed peer q candidate granted with before | ⟨now, vote⟩
    · exact absurd (before.trans_le behind) (Nat.not_lt.mpr le)
    · have sameTerm : (s.raft peer).state.currentTerm = term :=
        le_antisymm behind (le.trans now.le)
      have self : (s.raft peer).config.id = peer := by
        rw [inv.config, valid.id _ (inv.ids ▸ member)]
      rcases free sameTerm with none | own
      · rw [vote] at none
        cases none
      · rw [vote, self] at own
        exact inv.granted_ne granted (Option.some.inj own).symm
  · have before := (inv.campaigned candidate q asks).1
    rw [← self] at before
    exact absurd (before.trans_le behind) (Nat.not_lt.mpr le)

section Accept

variable {id : CallId} {call : AppendCall} {l' : List LogEntry}

/-- The node that handles an accepted request. -/
theorem ReplicationInv.accepted (inv : ReplicationInv config s history)
    (found : s.appendCalls id = some call) (accepts : (s.raft id.peer).Accepts call.request)
    (holds : (RaftNode.spliceLog (s.raft id.peer).log call.request.entries).Holds l') :
    Accepted s.raft
      (s.setRaft id.peer ((s.raft id.peer).handleAppendEntries call.request).1).raft id.peer
      call.request.term l' := by
  have ok := inv.appends id call found
  have behind : (s.raft id.peer).term ≤ call.request.term := accepts.1
  have calm := RaftNode.handleAppendEntries_calm id.peer (s.raft id.peer) call.request
  have node_eq := (RaftNode.handleAppendEntries_accept accepts).1
  have term' : ((s.raft id.peer).handleAppendEntries call.request).1.term = call.request.term := by
    rw [RaftNode.term, node_eq, RaftNode.followCommit]
    have observed := RaftNode.observeTerm_term behind
    split
    · exact observed
    · exact observed
  refine ⟨fun i other => setRaft_raft_of_ne _ _ other, ?_, ?_, behind, ?_, ?_⟩
  · rw [setRaft_raft_self, RaftNode.entries, node_eq]
    exact holds.toList_eq
  · rw [setRaft_raft_self, term']
  · rw [setRaft_raft_self]
    intro role
    obtain ⟨leads, same⟩ := calm.leader role
    have here := inv.election.leader id.peer ok.peer leads
    have term_eq : (s.raft id.peer).state.currentTerm = call.request.term := same.symm.trans term'
    rw [term_eq] at here
    exact ok.ne (inv.election.led_unique here ok.led)
  · rw [setRaft_raft_self]
    intro role
    rw [node_eq, RaftNode.followCommit] at role
    have observed : ((s.raft id.peer).observeTerm call.request.term).state.role = .candidate := by
      split at role
      · exact role
      · exact role
    rw [RaftNode.observeTerm] at observed
    split at observed
    · cases observed
    case isFalse notLater => exact ⟨observed, le_antisymm behind (Nat.not_lt.mp notLater)⟩

/-- The commit index of the peer stays, or follows the leader's. -/
theorem ReplicationInv.accepted_commit (inv : ReplicationInv config s history)
    (found : s.appendCalls id = some call) (accepts : (s.raft id.peer).Accepts call.request)
    (holds : (RaftNode.spliceLog (s.raft id.peer).log call.request.entries).Holds l')
    (spliced : Spliced (history.leaderLog call.request.term) (s.raft id.peer).entries l'
      call.request) :
    CommitOk s.ids history l'
      ((s.raft id.peer).handleAppendEntries call.request).1.state.commitIndex call.request.term := by
  have ok := inv.appends id call found
  have led : history.Led call.request.term := ⟨_, ok.led⟩
  have unmoved := (Still.observeTerm (s.raft id.peer) call.request.term).1.commit
  rw [(RaftNode.handleAppendEntries_accept accepts).1, RaftNode.followCommit]
  split
  · have followed := ok.follow spliced accepts
    rw [← holds.last] at followed
    exact followed
  · change CommitOk _ _ l' ((s.raft id.peer).observeTerm call.request.term).state.commitIndex _
    rw [unmoved]
    refine (inv.commits.commit id.peer ok.peer).mono (.refl history) ?_ accepts.1
    refine spliced.keeps _ (List.take_prefix _ _) ?_
    rcases (inv.commits.commit id.peer ok.peer).2 with zero | ⟨term, n, committed, le, reaches, agree⟩
    · rw [zero]
      exact List.nil_prefix
    · rw [← agree]
      exact (List.take_prefix_take_left reaches).trans
        (committed.prefix_leaderLog inv led (le.trans accepts.1))

/-- **A request is accepted.** The peer acknowledges the log of the leader up to the end of the
request. -/
theorem ReplicationInv.accept (inv : ReplicationInv config s history) (valid : config.Valid)
    (found : s.appendCalls id = some call) (accepts : (s.raft id.peer).Accepts call.request)
    (safe : s.Replicates (.deliverAppend id)) :
    ReplicationInv config
      (s.setRaft id.peer ((s.raft id.peer).handleAppendEntries call.request).1)
      (history.acknowledge id.peer call.request.term
        (call.request.prevLogIndex + call.request.entries.length)) := by
  obtain ⟨keepsLog, free⟩ := safe call found accepts
  have ok := inv.appends id call found
  have led : history.Led call.request.term := ⟨_, ok.led⟩
  obtain ⟨l', holds, spliced⟩ := inv.spliced found accepts keepsLog
  have took := inv.accepted found accepts holds
  have node_eq := (RaftNode.handleAppendEntries_accept accepts).1
  have grows : history.Grows (history.acknowledge id.peer call.request.term
      (call.request.prevLogIndex + call.request.entries.length)) := History.acknowledge_grows
  have matched : Matched history l' := by
    rcases eq_or_ne call.request.entries [] with empty | ne
    · rw [spliced.same empty]
      exact inv.nodes.matched id.peer ok.peer
    · rw [spliced.new ne]
      exact (inv.sound.matched _ led).of_initial (List.take_prefix _ _)
  have terms : ∀ entry ∈ l', entry.term ≤ call.request.term := by
    intro entry stored
    rcases eq_or_ne call.request.entries [] with empty | ne
    · rw [spliced.same empty] at stored
      exact (inv.nodes.terms id.peer ok.peer entry stored).trans accepts.1
    · rw [spliced.new ne] at stored
      exact inv.sound.term_le led (List.mem_of_mem_take stored)
  have voteless := inv.election.voteless valid ok.peer accepts.1 free
  refine ⟨inv.election.setRaft (RaftNode.handleAppendEntries_calm _ _ _),
    inv.sound.acknowledge led ok.inside, took.nodes inv.nodes ?_ matched terms _,
    took.candidates inv.candidates ok.peer led _,
    fun other new found' => (inv.appends other new found').mono grows took.terms,
    took.acks inv.acks inv.sound led spliced.stretch spliced.keeps voteless, ?_,
    took.commits inv.commits grows ?_ ?_⟩
  · rw [setRaft_raft_self, node_eq]
    exact holds
  · intro i inside role other inPeers
    have same := took.leads role
    have leads : (s.raft i).state.role = .leader := same ▸ role
    rw [same] at inPeers
    exact took.peers ((inv.peers i inside leads other inPeers).mono grows
      ⟨i, inv.election.leader i inside leads⟩) role
  · rw [setRaft_raft_self]
    exact (inv.accepted_commit found accepts holds spliced).mono grows (List.take_prefix _ _) le_rfl
  · rw [setRaft_raft_self, node_eq]
    exact (Still.observeTerm (s.raft id.peer) call.request.term).1.applyTx

end Accept

/-- A call takes a response, or ends. -/
theorem ReplicationInv.setAppend (inv : ReplicationInv config s history) {id : CallId}
    {call call' : AppendCall} (found : s.appendCalls id = some call)
    (request : call'.request = call.request) (last : call'.leaderLastIndex = call.leaderLastIndex)
    (replies : ∀ response ∈ call'.replies,
      ReplyOk s.raft history call.request.term id.peer response) :
    ReplicationInv config { s with appendCalls := Function.update s.appendCalls id (some call') }
      history := by
  refine ⟨inv.election.setAppendCalls _, inv.sound, inv.nodes, inv.candidates, ?_, inv.acks, inv.peers,
    inv.commits⟩
  intro other new found'
  have found' : Function.update s.appendCalls id (some call') other = some new := found'
  by_cases same : other = id
  · subst same
    rw [Function.update_self] at found'
    cases found'
    have ok := inv.appends other call found
    refine ⟨ok.peer, ok.ne, ?_, ?_, ?_, ?_, ?_, ?_, ?_, ?_⟩
    · exact request ▸ ok.led
    · exact request ▸ ok.inside
    · exact request ▸ ok.stretch
    · exact request ▸ ok.prevTerm
    · exact last ▸ request ▸ ok.last
    · exact request ▸ ok.commit
    · exact request ▸ ok.heartbeat
    · exact request ▸ replies
  · rw [Function.update_of_ne same] at found'
    exact inv.appends other new found'

/-- **An append request reaches its peer.** -/
theorem ReplicationInv.deliverAppend (inv : ReplicationInv config s history) (valid : config.Valid)
    {id : CallId} {call : AppendCall} (found : s.appendCalls id = some call)
    (safe : s.Replicates (.deliverAppend id)) :
    ∃ later, ReplicationInv config (s.deliverAppend id call) later := by
  have ok := inv.appends id call found
  rw [deliverAppend_eq]
  by_cases accepts : (s.raft id.peer).Accepts call.request
  · have moved := inv.accept valid found accepts safe
    refine ⟨_, moved.setAppend found rfl rfl fun response member => ?_⟩
    rcases List.mem_append.mp member with old | new
    · exact (moved.appends id call found).replies response old
    · rw [List.mem_singleton.mp new, (RaftNode.handleAppendEntries_accept accepts).2]
      exact ⟨fun _ => .inl rfl, fun no => by cases no⟩
  · obtain ⟨still, standing, refused, inside, zero⟩ := handleAppendEntries_reject accepts
    have moved := inv.setRaft (RaftNode.handleAppendEntries_calm id.peer _ call.request) still standing
    refine ⟨_, moved.setAppend found rfl rfl fun response member => ?_⟩
    rcases List.mem_append.mp member with old | new
    · exact (moved.appends id call found).replies response old
    · rw [List.mem_singleton.mp new]
      refine ⟨fun yes => ?_, fun _ => ⟨?_, fun none => ?_⟩⟩
      · rw [refused] at yes
        cases yes
      · have := ok.inside
        omega
      · rcases zero none with stale | ⟨mismatch, begins⟩
        · exact stale.trans_le ((setRaft_raft_self s id.peer _).symm ▸ still.term)
        · -- the first entry has no previous one that could be missing
          have holds := inv.nodes.holds id.peer ok.peer
          have start := begins holds.first
          rcases ok.prevTerm with ⟨-, none⟩ | ⟨positive, -⟩
          · have has := holds.hasEntry_iff.mpr (.inl ⟨start, none⟩)
            rw [mismatch] at has
            cases has
          · exact absurd start positive.ne'

end Cluster

end Rusd
