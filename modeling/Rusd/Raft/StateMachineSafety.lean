/-
**State-machine safety.**

A leader commits what a majority has acknowledged, proposals extend its log, and a node applies what
it has committed. With the steps of `ReplicationStep` this gives the invariant over a whole run, and
from it the property: in a run of safe steps, two entries that were applied at one index are the same.

The two runs at the end are a safe one, and one in which a node that voted for another one still
acknowledges an append request of that term.
-/

import Rusd.Raft.ReplicationStep

namespace Rusd

open RaftLog

namespace Cluster

variable {config : ClusterConfig} {s next : Cluster} {history : History}

/-! ### A leader takes a response -/

section Reply

open RaftNode

variable {state : RaftState} {peer : Nat} {response : AppendEntriesResponse}

/-- The indices of the other peers stay. -/
theorem noteAppendReply_of_ne {other : Nat} (ne : other ≠ peer) :
    (noteAppendReply state peer response).nextIndex other = state.nextIndex other ∧
    (noteAppendReply state peer response).matchIndex other = state.matchIndex other := by
  rw [noteAppendReply]
  split
  · exact ⟨Function.update_of_ne ne .., Function.update_of_ne ne ..⟩
  split
  · exact ⟨Function.update_of_ne ne .., rfl⟩
  · rw [RaftState.decrementNextIndex]
    split
    · split
      · exact ⟨Function.update_of_ne ne .., rfl⟩
      · exact ⟨rfl, rfl⟩
    · exact ⟨rfl, rfl⟩

/-- The indices of the peer that answered. -/
theorem noteAppendReply_self {m n : Nat} (known : state.matchIndex peer = some m)
    (next : state.nextIndex peer = some n) :
    (response.success = true ∧
      (noteAppendReply state peer response).matchIndex peer = some response.matchIndex ∧
      (noteAppendReply state peer response).nextIndex peer = some (response.matchIndex + 1)) ∨
    (response.success = false ∧ (noteAppendReply state peer response).matchIndex peer = some m ∧
      (0 < response.conflictIndex ∧
        (noteAppendReply state peer response).nextIndex peer = some response.conflictIndex ∨
      response.conflictIndex = 0 ∧
        (noteAppendReply state peer response).nextIndex peer = some (n - 1))) := by
  rw [noteAppendReply]
  split
  case isTrue yes => exact .inl ⟨yes, Function.update_self .., Function.update_self ..⟩
  case isFalse no =>
    refine .inr ⟨Bool.not_eq_true _ ▸ no, ?_⟩
    split
    case isTrue conflict => exact ⟨known, .inl ⟨conflict, Function.update_self ..⟩⟩
    case isFalse none =>
      rw [RaftState.decrementNextIndex, next]
      dsimp only
      split
      case isTrue => exact ⟨known, .inr ⟨Nat.eq_zero_of_not_pos none, Function.update_self ..⟩⟩
      case isFalse zero =>
        refine ⟨known, .inr ⟨Nat.eq_zero_of_not_pos none, ?_⟩⟩
        rw [next, Nat.eq_zero_of_not_pos zero]

end Reply

/-- A quiet change of one node, with what it does to the indices of a leader and to the commit
index. -/
theorem ReplicationInv.setQuiet (inv : ReplicationInv config s history) {id : Nat} {node : RaftNode}
    (calm : Calm id (s.raft id) node) (quiet : Quiet (s.raft id) node)
    (standing : KeepsStanding (s.raft id) node)
    (peers : id ∈ s.ids → node.state.role = .leader → ∀ peer ∈ node.peerIds,
      PeerOk (s.setRaft id node).raft history id peer)
    (commit : id ∈ s.ids → CommitOk s.ids history node.entries node.state.commitIndex node.term)
    (applied : id ∈ s.ids → ∀ entry ∈ node.applyTx, Chosen s.ids history entry) :
    ReplicationInv config (s.setRaft id node) history := by
  have quiets : ∀ i, Quiet (s.raft i) ((s.setRaft id node).raft i) := setRaft_rel Quiet.refl quiet
  have standings : ∀ i, KeepsStanding (s.raft i) ((s.setRaft id node).raft i) :=
    setRaft_rel KeepsStanding.refl standing
  refine ⟨inv.election.setRaft calm, inv.sound, inv.nodes.quiet quiets,
    inv.candidates.quiet (fun i term asked => (inv.election.campaigned i term asked).1) quiets standings,
    fun call new found => (inv.appends call new found).mono (.refl history) fun i => (quiets i).term,
    inv.acks.quiet quiets, ?_, ⟨?_, ?_⟩⟩
  · intro i inside role peer inPeers
    by_cases same : i = id
    · subst same
      rw [setRaft_raft_self] at role inPeers
      exact peers inside role peer inPeers
    · rw [setRaft_raft_of_ne _ _ same] at role inPeers
      have ok := inv.peers i inside role peer inPeers
      refine ⟨?_, ?_⟩
      · rw [setRaft_raft_of_ne _ _ same]
        exact ok.acked
      · obtain ⟨n, next, reach, stale⟩ := ok.next
        rw [setRaft_raft_of_ne _ _ same]
        exact ⟨n, next, reach, fun zero => (stale zero).trans_le (quiets peer).term⟩
  · intro i inside
    by_cases same : i = id
    · subst same
      rw [setRaft_raft_self]
      exact commit inside
    · rw [setRaft_raft_of_ne _ _ same]
      exact inv.commits.commit i inside
  · intro i inside entry sent
    by_cases same : i = id
    · subst same
      rw [setRaft_raft_self] at sent
      exact applied inside entry sent
    · rw [setRaft_raft_of_ne _ _ same] at sent
      exact inv.commits.applied i inside entry sent

/-- The indices a leader keeps after a response to a request of its term. -/
theorem ReplicationInv.noted (inv : ReplicationInv config s history) {id : CallId} {call : AppendCall}
    (found : s.appendCalls id = some call) {response : AppendEntriesResponse}
    (received : response ∈ call.replies) (member : id.owner ∈ s.ids)
    (role : (s.raft id.owner).state.role = .leader)
    (term : (s.raft id.owner).state.currentTerm = call.request.term) {peer : Nat}
    (inPeers : peer ∈ (s.raft id.owner).peerIds) :
    (∃ n, (RaftNode.noteAppendReply (s.raft id.owner).state id.peer response).matchIndex peer =
      some n ∧ (n = 0 ∨ (peer, (s.raft id.owner).term, n) ∈ history.acks)) ∧
    ∃ n, (RaftNode.noteAppendReply (s.raft id.owner).state id.peer response).nextIndex peer = some n ∧
      n ≤ (history.leaderLog (s.raft id.owner).term).length + 1 ∧
      (n = 0 → (s.raft id.owner).term < (s.raft peer).term) := by
  obtain ⟨⟨m, known, acked⟩, n, next, reach, stale⟩ := inv.peers id.owner member role peer inPeers
  by_cases same : peer = id.peer
  · subst same
    have ok := (inv.appends id call found).replies response received
    rw [← term] at ok
    rcases noteAppendReply_self known next with
      ⟨yes, known', next'⟩ | ⟨no, known', ⟨conflict, next'⟩ | ⟨none, next'⟩⟩
    · have ack := ok.success yes
      obtain ⟨-, inside⟩ := inv.sound.acks _ _ _ ack
      exact ⟨⟨_, known', .inr ack⟩, _, next', Nat.succ_le_succ inside, fun zero => by cases zero⟩
    · exact ⟨⟨m, known', acked⟩, _, next', (ok.conflict no).1.trans (Nat.le_succ _),
        fun zero => absurd zero conflict.ne'⟩
    · exact ⟨⟨m, known', acked⟩, _, next', (Nat.sub_le _ _).trans reach,
        fun _ => (ok.conflict no).2 none⟩
  · obtain ⟨next', known'⟩ := noteAppendReply_of_ne same
    rw [next', known']
    exact ⟨⟨m, known, acked⟩, n, next, reach, stale⟩

/-- **A leader commits.** The index that a majority has reached, and that holds an entry of the leader's
term, is committed. -/
theorem ReplicationInv.commits_own (inv : ReplicationInv config s history) (valid : config.Valid)
    {id : CallId} {call : AppendCall} (found : s.appendCalls id = some call)
    {response : AppendEntriesResponse} (received : response ∈ call.replies) (member : id.owner ∈ s.ids)
    (role : (s.raft id.owner).state.role = .leader)
    (term : (s.raft id.owner).state.currentTerm = call.request.term) {index : Nat}
    (positive : 0 < index)
    (reached : index = (RaftNode.noteAppendReply (s.raft id.owner).state id.peer
      response).majorityMatchIndex (s.raft id.owner).peerIds call.leaderLastIndex)
    (own : (s.raft id.owner).log.termAt index = some (s.raft id.owner).state.currentTerm) :
    CommitOk s.ids history (s.raft id.owner).entries index (s.raft id.owner).term := by
  set node := s.raft id.owner with nodeDef
  have holds := inv.nodes.holds id.owner member
  have log := inv.nodes.leading id.owner member role
  have leads : (id.owner, node.term) ∈ history.led := inv.election.leader id.owner member role
  have ok := inv.appends id call found
  obtain ⟨-, apart, nodup, -⟩ := valid.peerIds (inv.election.ids ▸ member) node
    (inv.election.config id.owner)
  have perm := (inv.election.peers valid member node rfl).2
  rw [holds.termAt_eq positive] at own
  obtain ⟨entry, here, entryTerm⟩ := Option.map_eq_some_iff.mp own
  rw [log] at here
  have ends : EndsInTerm history node.term index := ⟨positive, entry, here, entryTerm⟩
  obtain ⟨voters, major, each⟩ := RaftState.majorityMatchIndex_reached
    (RaftNode.noteAppendReply node.state id.peer response) apart nodup call.leaderLastIndex
  rw [← reached] at each
  have committed : Committed s.ids history node.term index := by
    refine ⟨⟨_, leads⟩, ends, voters, major.perm perm, fun voter inside => ?_⟩
    rcases each voter inside with ⟨rfl, own⟩ | ⟨inPeers, below⟩
    · have last := ok.last
      rw [← term] at last
      exact (inv.sound.self _ _ leads).mono_le (own.trans last)
    · obtain ⟨⟨n, known, acked⟩, -⟩ := inv.noted found received member role term inPeers
      rw [known, Option.getD_some] at below
      rcases acked with zero | ack
      · omega
      · exact ⟨n, below, ack⟩
  refine ⟨?_, .inr ⟨node.term, index, committed, le_rfl, le_rfl, ?_⟩⟩
  · rw [log]
    exact ends.inside
  · rw [log]

/-- **The task of an append request takes a response.** -/
theorem ReplicationInv.appendReply (inv : ReplicationInv config s history) (valid : config.Valid)
    {id : CallId} {call : AppendCall} (found : s.appendCalls id = some call)
    {response : AppendEntriesResponse} (received : response ∈ call.replies)
    (safe : (s.raft id.owner).CommitsOwn call id.peer response) :
    ReplicationInv config (s.appendReply id call response) history := by
  obtain ⟨role, term, own⟩ := safe
  have member : id.owner ∈ s.ids := (inv.candidates.led _ _ (inv.appends id call found).led).1
  set node := (s.raft id.owner).handleAppendReply id.peer call.leaderLastIndex response with nodeDef
  obtain ⟨config_eq, log_eq, applyTx_eq, -⟩ := RaftNode.handleAppendReply_beside (s.raft id.owner) id.peer
    call.leaderLastIndex response
  have calm := RaftNode.handleAppendReply_calm id.owner (s.raft id.owner) id.peer
    call.leaderLastIndex response
  have noted_commit := (RaftNode.noteAppendReply_ballot (s.raft id.owner).state id.peer response).2.2.2
  have outcome := RaftNode.handleAppendReply_cases (s.raft id.owner) id.peer call.leaderLastIndex response
  obtain ⟨commit, state⟩ := RaftNode.handleAppendReply_state (s.raft id.owner) id.peer
    call.leaderLastIndex response
  obtain ⟨node_term, node_role⟩ := RaftNode.handleAppendReply_ballot (s.raft id.owner) id.peer
    call.leaderLastIndex response
  rw [← nodeDef] at config_eq log_eq applyTx_eq calm outcome state node_term node_role
  change node.term = (s.raft id.owner).term at node_term
  have quiet : Quiet (s.raft id.owner) node :=
    ⟨config_eq, log_eq, node_term.ge, fun leads => ⟨node_role ▸ leads, node_term⟩⟩
  have moved := inv.setQuiet calm quiet (fun candidate => .inl ⟨node_role ▸ candidate, node_term⟩)
    (by
      intro _ _ peer inPeers
      rw [RaftNode.peerIds, config_eq] at inPeers
      obtain ⟨⟨m, known, acked⟩, n, next, reach, stale⟩ :=
        inv.noted found received member role term inPeers
      have terms := setRaft_terms node_term.ge peer
      refine ⟨⟨m, ?_, ?_⟩, n, ?_, ?_, fun zero => ?_⟩
      · rw [setRaft_raft_self, state]
        exact known
      · rw [setRaft_raft_self, node_term]
        exact acked
      · rw [setRaft_raft_self, state]
        exact next
      · rw [setRaft_raft_self, node_term]
        exact reach
      · rw [setRaft_raft_self, node_term]
        exact (stale zero).trans_le terms)
    (by
      intro _
      rw [quiet.entries, node_term]
      rcases outcome with ⟨raises, raised⟩ | ⟨-, kept⟩
      · rw [raised]
        exact inv.commits_own valid found received member role term
          ((Nat.zero_le _).trans_lt raises) rfl (own raises)
      · rw [kept, noted_commit]
        exact inv.commits.commit id.owner member)
    (by
      intro _ entry sent
      rw [applyTx_eq] at sent
      exact inv.commits.applied id.owner member entry sent)
  exact moved.setAppend found rfl rfl (moved.appends id call found).replies

/-! ### Proposals and application -/

/-- A leader has appended an entry to its log. -/
structure Appended (raft raft' : Nat → RaftNode) (id : Nat) (entry : LogEntry) : Prop where
  others : ∀ i, i ≠ id → raft' i = raft i
  entries : (raft' id).entries = (raft id).entries ++ [entry]
  state : (raft' id).state = (raft id).state
  config : (raft' id).config = (raft id).config
  applyTx : (raft' id).applyTx = (raft id).applyTx

namespace Appended

variable {ids : List Nat} {raft raft' : Nat → RaftNode} {votes : CallId → Option VoteCall}
  {id : Nat} {entry : LogEntry}

theorem states (took : Appended raft raft' id entry) (i : Nat) :
    (raft' i).state = (raft i).state := by
  by_cases same : i = id
  · rw [same, took.state]
  · rw [took.others i same]

theorem terms (took : Appended raft raft' id entry) (i : Nat) : (raft' i).term = (raft i).term :=
  congrArg RaftState.currentTerm (took.states i)

theorem peerIds (took : Appended raft raft' id entry) (i : Nat) :
    (raft' i).peerIds = (raft i).peerIds := by
  by_cases same : i = id
  · rw [same, RaftNode.peerIds, took.config, RaftNode.peerIds]
  · rw [took.others i same]

/-- No entry of a log is lost. -/
theorem grown (took : Appended raft raft' id entry) (i : Nat) :
    (raft i).entries <+: (raft' i).entries := by
  by_cases same : i = id
  · rw [same, took.entries]
    exact List.prefix_append _ _
  · rw [took.others i same]

theorem leaderLog (took : Appended raft raft' id entry)
    (log : (raft id).entries = history.leaderLog (raft id).term) :
    (history.extend id (raft id).term entry).leaderLog (raft id).term = (raft' id).entries := by
  rw [History.extend_leaderLog_self, ← log, took.entries]

theorem nodes (took : Appended raft raft' id entry) (inv : NodesInv ids raft history)
    (member : id ∈ ids) (log : (raft id).entries = history.leaderLog (raft id).term)
    (alone : ∀ i ∈ ids, (raft i).state.role = .leader → (raft i).term = (raft id).term → i = id)
    (own : entry.term = (raft id).term) (holds : (raft' id).log.Holds (raft' id).entries)
    (matched : Matched (history.extend id (raft id).term entry) (raft' id).entries) :
    NodesInv ids raft' (history.extend id (raft id).term entry) where
  holds i inside := by
    by_cases same : i = id
    · rwa [same]
    · rw [took.others i same]
      exact inv.holds i inside
  matched i inside := by
    by_cases same : i = id
    · rwa [same]
    · rw [took.others i same]
      exact History.extend_grows.matched (inv.matched i inside)
  terms i inside other stored := by
    rw [took.terms]
    by_cases same : i = id
    · rw [same, took.entries] at stored
      rw [same]
      rcases List.mem_append.mp stored with old | new
      · exact inv.terms id member other old
      · rw [List.mem_singleton.mp new, own]
    · rw [took.others i same] at stored
      exact inv.terms i inside other stored
  leading i inside leading := by
    rw [took.states] at leading
    rw [took.terms]
    by_cases same : i = id
    · rw [same, took.leaderLog log]
    · have other : (raft i).term ≠ (raft id).term :=
        fun sameTerm => same (alone i inside leading sameTerm)
      rw [took.others i same, History.extend_leaderLog_of_ne other]
      exact inv.leading i inside leading

theorem candidates (took : Appended raft raft' id entry)
    (inv : CandidatesInv ids raft votes history) (role : (raft id).state.role = .leader) :
    CandidatesInv ids raft' votes (history.extend id (raft id).term entry) where
  request := inv.request
  matched i asked campaigned := History.extend_grows.matched (inv.matched i asked campaigned)
  terms := inv.terms
  standing i inside q asks stands := by
    by_cases same : i = id
    · have candidate := stands.1
      rw [same, took.states, role] at candidate
      cases candidate
    · rw [took.others i same] at stands ⊢
      exact inv.standing i inside q asks stands
  led i term led := by
    rw [took.terms]
    exact inv.led i term led
  candidate i inside candidate := by
    rw [took.states] at candidate
    rw [took.terms]
    exact inv.candidate i inside candidate

/-- The leader has acknowledged its entry, having given no vote in its term or later. -/
theorem acks (took : Appended raft raft' id entry) (inv : AcksInv ids raft votes history)
    (sound : history.Sound) (log : (raft id).entries = history.leaderLog (raft id).term)
    (voteless : ∀ later candidate, Voted votes id later candidate → later < (raft id).term) :
    AcksInv ids raft' votes (history.extend id (raft id).term entry) where
  kept i term n acked := by
    rw [took.terms]
    rcases History.acked_extend acked with old | ⟨rfl, rfl, -⟩
    · obtain ⟨led, inside⟩ := sound.acked old
      obtain ⟨below, kept⟩ := inv.kept i term n old
      refine ⟨below, ?_⟩
      rw [History.extend_grows.take_eq led inside]
      exact kept.imp (fun kept => kept.trans (took.grown i))
        (History.extend_grows.diverged led inside)
    · rw [took.leaderLog log]
      exact ⟨le_rfl, .inl (List.take_prefix _ _)⟩
  voted i term n acked ends later candidate voted le := by
    rcases History.acked_extend acked with old | ⟨rfl, rfl, -⟩
    · obtain ⟨led, inside⟩ := sound.acked old
      rw [History.extend_grows.take_eq led inside]
      exact (inv.voted i term n old (ends.of_grows History.extend_grows led inside) later candidate
        voted le).imp_right (History.extend_grows.diverged led inside)
    · exact absurd (voteless later candidate voted) (Nat.not_lt.mpr le)
  leader i inside leading candidate granted := by
    rw [took.states] at leading
    rw [took.terms] at granted
    exact inv.leader i inside leading candidate granted

theorem peers (took : Appended raft raft' id entry) {later : History} {i peer : Nat}
    (ok : PeerOk raft later i peer) : PeerOk raft' later i peer := by
  refine ⟨?_, ?_⟩
  · rw [took.states, took.terms]
    exact ok.acked
  · rw [took.states, took.terms, took.terms]
    exact ok.next

theorem commits (took : Appended raft raft' id entry) (inv : CommitsInv ids raft history) :
    CommitsInv ids raft' (history.extend id (raft id).term entry) where
  commit i inside := by
    rw [took.states, took.terms]
    exact (inv.commit i inside).mono History.extend_grows
      ((List.take_prefix _ _).trans (took.grown i)) le_rfl
  applied i inside other sent := by
    refine (inv.applied i inside other ?_).mono History.extend_grows
    by_cases same : i = id
    · rw [same] at sent ⊢
      rwa [took.applyTx] at sent
    · rwa [took.others i same] at sent

end Appended

/-- A leader has not voted in its term or later. -/
theorem ReplicationInv.leader_voteless (inv : ReplicationInv config s history) {id : Nat}
    (member : id ∈ s.ids) (role : (s.raft id).state.role = .leader) :
    ∀ later candidate, Voted s.voteCalls id later candidate → later < (s.raft id).term := by
  intro later candidate voted
  by_contra reached
  have le : (s.raft id).term ≤ later := Nat.not_lt.mp reached
  rcases voted with granted | ⟨self, asks⟩
  · rcases inv.election.backed id later candidate granted with before | ⟨now, -⟩
    · exact absurd before (Nat.not_lt.mpr le)
    · rw [now] at granted
      exact inv.acks.leader id member role candidate granted
  · have before := (inv.election.campaigned candidate later asks).1
    rw [← self] at before
    exact absurd before (Nat.not_lt.mpr le)

/-- **A leader appends an entry to its log.** It has not voted in its term, so no candidate was elected
without the entry by its vote. -/
theorem ReplicationInv.propose (inv : ReplicationInv config s history) (valid : config.Valid)
    (two : 2 ≤ config.ids.length) {id : Nat} (member : id ∈ s.ids)
    (role : (s.raft id).state.role = .leader) (entryType : EntryType) (data : Bytes) :
    ∃ later, ReplicationInv config
      (s.setRaft id ((s.raft id).propose entryType data)) later := by
  have holds := inv.nodes.holds id member
  have log := inv.nodes.leading id member role
  have leads : (id, (s.raft id).term) ∈ history.led := inv.election.leader id member role
  set entry : LogEntry := ⟨(s.raft id).log.lastIndex + 1, (s.raft id).term, data, entryType⟩
    with entryDef
  set node := (s.raft id).propose entryType data with nodeDef
  have others : (s.raft id).config.peers.isEmpty = false := by
    obtain ⟨peer, inPeers⟩ := inv.election.others valid two member (s.raft id) rfl
    have listed := (List.mem_filter.mp inPeers).1
    rw [List.isEmpty_eq_false_iff]
    exact List.ne_nil_of_mem listed
  have node_eq : node = { s.raft id with log := (s.raft id).log.append [entry] } := by
    rw [nodeDef, RaftNode.propose, if_neg (by rw [others]; decide)]
    rfl
  have index : entry.index = (s.raft id).entries.length + 1 := by
    change (s.raft id).log.lastIndex + 1 = _
    rw [holds.last]
  have holds' : node.log.Holds ((s.raft id).entries ++ [entry]) := by
    rw [node_eq]
    change ((s.raft id).log.append [entry]).Holds _
    refine holds.append fun i other found => ?_
    have inside : i < 1 := (List.getElem?_eq_some_iff.mp found).1
    rw [List.mem_singleton.mp (List.mem_of_getElem? found), index]
    omega
  have entries' : node.entries = (s.raft id).entries ++ [entry] := holds'.toList_eq
  have took : Appended s.raft (s.setRaft id node).raft id entry := by
    refine ⟨fun i other => setRaft_raft_of_ne _ _ other, ?_, ?_, ?_, ?_⟩
    · rw [setRaft_raft_self, entries']
    · rw [setRaft_raft_self, node_eq]
    · rw [setRaft_raft_self, node_eq]
    · rw [setRaft_raft_self, node_eq]
  have alone : ∀ other, (other, (s.raft id).term) ∈ history.led → other = id :=
    fun other led => inv.election.led_unique led leads
  have sound' : (history.extend id (s.raft id).term entry).Sound :=
    inv.sound.extend leads alone rfl (by rw [index, log])
  refine ⟨history.extend id (s.raft id).term entry,
    inv.election.setRaft (RaftNode.propose_calm id _ entryType data), sound',
    took.nodes inv.nodes member log ?_ rfl ?_ ?_, took.candidates inv.candidates role,
    fun call new found => (inv.appends call new found).mono History.extend_grows
      fun i => (took.terms i).ge,
    took.acks inv.acks inv.sound log (inv.leader_voteless member role), ?_,
    took.commits inv.commits⟩
  · intro i inside leading sameTerm
    exact alone i (sameTerm ▸ inv.election.leader i inside leading)
  · rw [setRaft_raft_self, entries']
    exact holds'
  · rw [← took.leaderLog log]
    exact sound'.matched _ ⟨id, leads⟩
  · intro i inside leading peer inPeers
    rw [took.states] at leading
    rw [took.peerIds] at inPeers
    exact took.peers ((inv.peers i inside leading peer inPeers).mono History.extend_grows
      ⟨i, inv.election.leader i inside leading⟩)

/-- **A node applies what it has committed.** -/
theorem ReplicationInv.apply (inv : ReplicationInv config s history) {id : Nat} (member : id ∈ s.ids) :
    ReplicationInv config (s.setRaft id (s.raft id).applyCommittedEntries) history := by
  have ok := inv.commits.commit id member
  have holds := inv.nodes.holds id member
  refine inv.setQuiet (RaftNode.applyCommittedEntries_calm id _)
    ⟨rfl, rfl, le_rfl, fun leads => ⟨leads, rfl⟩⟩ (fun candidate => .inl ⟨candidate, rfl⟩)
    (fun _ leads peer inPeers => ?_) (fun _ => ok) fun _ entry sent => ?_
  · have peerOk := inv.peers id member leads peer inPeers
    refine ⟨?_, ?_⟩
    · rw [setRaft_raft_self]
      exact peerOk.acked
    · obtain ⟨n, next, reach, stale⟩ := peerOk.next
      refine ⟨n, ?_, ?_, fun zero => ?_⟩
      · rw [setRaft_raft_self]
        exact next
      · rw [setRaft_raft_self]
        exact reach
      · rw [setRaft_raft_self]
        by_cases same : peer = id
        · rw [same, setRaft_raft_self]
          have := stale zero
          rw [same] at this
          exact this
        · rw [setRaft_raft_of_ne _ _ same]
          exact stale zero
  · rcases List.mem_append.mp sent with before | now
    · exact inv.commits.applied id member entry before
    · obtain ⟨i, inRange, stored⟩ := List.mem_filterMap.mp now
      have bounds := List.mem_range'_1.mp inRange
      have positive : 0 < i := by omega
      rw [holds.get_eq positive] at stored
      rcases ok.2 with zero | ⟨term, n, committed, -, reaches, agree⟩
      · omega
      · have index : entry.index = i := by
          have := holds.indexed (i - 1) entry stored
          omega
        refine ⟨term, n, committed, by omega, by omega, ?_⟩
        have here := congrArg (fun part => part[i - 1]?) agree
        simp only [List.getElem?_take_of_lt (show i - 1 < (s.raft id).state.commitIndex by omega)]
          at here
        rw [index, here, stored]

/-! ### Every safe step keeps the invariant -/

/-- **One round of a counting loop.** -/
theorem ReplicationInv.countVote (inv : ReplicationInv config s history) (valid : config.Valid)
    (two : 2 ≤ config.ids.length) {id : Nat} {campaign : Campaign} {granted : Bool}
    {rest : List Bool} (running : (s.members id).campaign = some campaign)
    (votes : campaign.votes = granted :: rest) (timely : s.WinsInTime id) :
    ∃ later, ReplicationInv config (s.countVote id campaign granted rest) later := by
  have counts := inv.election.campaign id campaign running
  have count := Campaign.nextCount_cons votes
  have rafts : ∀ campaign', (s.setMember id { s.members id with campaign := campaign' }).raft =
      s.raft := fun campaign' => setMember_raft rfl
  have ended : ReplicationInv config (s.setMember id { s.members id with campaign := none }) history :=
    inv.frame (inv.election.setCampaign fun c none => by cases none) rfl (rafts none) rfl rfl
  have election := inv.election.countVote valid two running votes timely
  rw [Cluster.countVote] at election ⊢
  dsimp only at election ⊢
  rw [count] at election ⊢
  split at election
  case isTrue enough =>
    rw [if_pos enough]
    split
    case isTrue pre => exact ⟨_, ended.startRealElection valid two counts.member⟩
    case isFalse real =>
      rw [Bool.not_eq_true] at real
      have stands := timely campaign running real enough
      obtain ⟨voters, major, voted⟩ := inv.election.won valid running real enough
      obtain ⟨peer, call, found⟩ := counts.asked
      have request := counts.request peer call found
      have asks : Campaigned s.voteCalls id campaign.request.term :=
        ⟨_, call, found, rfl, request ▸ real, request ▸ rfl⟩
      rw [← rafts none] at stands
      have elected := ended.election.elect counts.member stands.1
        (stands.2 ▸ Nat.succ_pos _) major (fun voter inside => by
          rw [stands.2]
          exact voted voter inside)
      exact ⟨_, (ended.elect counts.member stands asks elected).sendHeartbeats valid counts.member⟩
  case isFalse more =>
    rw [if_neg more]
    have kept : s.leaders ⊆ history.led := by
      rintro ⟨i, term⟩ ⟨inside, role, same⟩
      have led := inv.election.leader i inside role
      rwa [same] at led
    have leaders : (s.setMember id { s.members id with
        campaign := some { campaign with voteCount := campaign.nextCount, votes := rest } }).leaders =
        s.leaders := by
      rw [Cluster.leaders, rafts]
      rfl
    rw [leaders, Set.union_eq_self_of_subset_right kept] at election
    exact ⟨history, inv.frame election rfl (rafts _) rfl rfl⟩

/-- **Every safe step keeps the invariant.** -/
theorem ReplicationInv.step (inv : ReplicationInv config s history) (valid : config.Valid)
    (two : 2 ≤ config.ids.length) {action : Action} (moves : s.step action = some next)
    (safe : s.Safe action) : ∃ later, ReplicationInv config next later := by
  obtain ⟨timely, replicates⟩ := safe
  cases step_moves moves with
  | electionTimeout id member idle => exact inv.startElection valid two member
  | deliverVote id call found => exact ⟨_, inv.deliverVote found replicates⟩
  | voteReply id reply call response found received pending =>
    exact ⟨_, inv.voteReply valid found pending
      (List.mem_of_getElem? received) (timely call found response received)⟩
  | voteError id call found pending => exact ⟨_, inv.answer found pending false fun no => by cases no⟩
  | countVote id campaign granted rest running votes =>
    exact inv.countVote valid two running votes timely
  | endCampaign id campaign running =>
    exact ⟨_, inv.frame (inv.election.setCampaign fun c none => by cases none) rfl
      (setMember_raft rfl) rfl rfl⟩
  | heartbeat id member idle leads => exact ⟨_, inv.sendHeartbeats valid member⟩
  | deliverAppend id call found => exact inv.deliverAppend valid found replicates
  | appendReply id reply call response found received pending =>
    exact ⟨_, inv.appendReply valid found (List.mem_of_getElem? received)
      (replicates call found response received)⟩
  | propose id entryType data member leads =>
    have role : (s.raft id).state.role = .leader := by
      simpa [RaftState.isLeader] using leads
    obtain ⟨later, proposed⟩ := inv.propose valid two member role entryType data
    exact ⟨later, proposed.sendHeartbeats valid member⟩
  | apply id member idle => exact ⟨_, inv.apply member⟩

/-- The history of a cluster before any step. -/
def emptyHistory : History := ⟨∅, fun _ => [], fun _ => [], fun _ _ => [], ∅⟩

theorem ReplicationInv.start (valid : config.Valid) (two : 2 ≤ config.ids.length) :
    ReplicationInv config (Cluster.start config) emptyHistory := by
  have election := ElectionInv.start valid two
  have unled : ∀ term, ¬ emptyHistory.Led term := fun term ⟨_, led⟩ => led
  have unasked : ∀ id term, ¬ Campaigned (Cluster.start config).voteCalls id term := by
    rintro id term ⟨call, new, found, -⟩
    cases found
  have entries : ∀ id, ((Cluster.start config).raft id).entries = [] := fun id => rfl
  have unack : ∀ id term n, ¬ emptyHistory.Acked id term n := fun id term n ⟨_, _, ack⟩ => ack
  have roles : ∀ id ∈ config.ids, ((Cluster.start config).raft id).state.role ≠ .leader :=
    fun id member role => election.leader id member role
  have commits : ∀ id, ((Cluster.start config).raft id).state.commitIndex = 0 := by
    intro id
    show (if (config.configs id).peers.isEmpty then _ else RaftState.new).commitIndex = 0
    split <;> rfl
  refine ⟨election, ⟨?_, ?_, ?_, ?_, ?_, ?_, ?_, ?_⟩, ⟨?_, ?_, ?_, ?_⟩, ⟨?_, ?_, ?_, ?_, ?_, ?_⟩,
    fun id call found => (by cases found), ⟨?_, ?_, ?_⟩,
    fun id member role => absurd role (roles id member), ⟨?_, ?_⟩⟩
  · exact fun term led => absurd led (unled term)
  · exact fun term led => absurd led (unled term)
  · exact fun term led => absurd led (unled term)
  · exact fun term led => absurd led (unled term)
  · exact fun term led => absurd led (unled term)
  · exact fun term led => absurd led (unled term)
  · exact fun id term n ack => absurd ack (Set.notMem_empty _)
  · exact fun id term led => absurd led (Set.notMem_empty _)
  · exact fun id _ => Holds.new
  · exact fun id _ => entries id ▸ Matched.nil
  · intro id _ entry stored
    rw [entries] at stored
    cases stored
  · exact fun id member role => absurd role (roles id member)
  · exact fun id call found => by cases found
  · exact fun id term asks => absurd asks (unasked id term)
  · exact fun id term asks => absurd asks (unasked id term)
  · exact fun id _ term asks => absurd asks (unasked id term)
  · exact fun id term led => absurd led (Set.notMem_empty _)
  · exact fun id _ _ led => absurd led (Set.notMem_empty _)
  · exact fun id term n acked => absurd acked (unack id term n)
  · exact fun id term n acked => absurd acked (unack id term n)
  · exact fun id member role => absurd role (roles id member)
  · intro id _
    rw [commits]
    exact ⟨Nat.zero_le _, .inl rfl⟩
  · intro id _ entry sent
    cases sent

/-! ### Over a whole run -/

/-- **State-machine safety.** In a run of safe steps, whatever two nodes have sent on their apply
channels for one index is the same entry. -/
theorem state_machine_safety (config : ClusterConfig) (valid : config.Valid)
    (two : 2 ≤ config.ids.length) (actions : List Action) (s : Cluster)
    (runs : run config actions = some s) (safe : Along step Safe (start config) actions) :
    ∀ id ∈ config.ids, ∀ other ∈ config.ids, ∀ entry ∈ (s.raft id).applyTx,
      ∀ entry' ∈ (s.raft other).applyTx, entry.index = entry'.index → entry = entry' := by
  have invariant : ∃ history, ReplicationInv config s history := by
    have keeps : ∀ s action next, step s action = some next → Safe s action →
        (∃ history, ReplicationInv config s history) →
        ∃ history, ReplicationInv config next history := by
      rintro s action next moves safe ⟨history, inv⟩
      exact inv.step valid two moves safe
    exact run_invariant keeps ⟨_, ReplicationInv.start valid two⟩ safe runs
  obtain ⟨history, inv⟩ := invariant
  intro id member other member' entry sent entry' sent' same
  rw [← inv.election.ids] at member member'
  exact chosen_unique inv (inv.commits.applied id member entry sent)
    (inv.commits.applied other member' entry' sent') same

/-! ### A voter that follows the leader it voted against -/

/-- Node 1 leads in term 2. Node 3 votes in term 2 for node 2, which leads in term 3, and still takes an
entry of node 1 in term 2: node 1 commits it. Node 2, which does not have it, replaces it. -/
def votedAgainst : List Action :=
  [.electionTimeout 1, .deliverVote ⟨1, 0, 2⟩, .voteReply ⟨1, 0, 2⟩ 0, .countVote 1,
    .deliverVote ⟨1, 1, 2⟩, .voteReply ⟨1, 1, 2⟩ 0, .countVote 1,
    .electionTimeout 2, .deliverVote ⟨2, 0, 3⟩, .voteReply ⟨2, 0, 3⟩ 0, .countVote 2,
    .deliverVote ⟨2, 1, 3⟩, .voteReply ⟨2, 1, 3⟩ 0, .countVote 2,
    .propose 1 .normal [120], .deliverAppend ⟨1, 1, 3⟩, .appendReply ⟨1, 1, 3⟩ 0, .apply 1,
    .propose 2 .normal [121], .deliverAppend ⟨2, 1, 3⟩, .appendReply ⟨2, 1, 3⟩ 0, .apply 2]

/-- **Two entries applied at one index.** -/
theorem voted_against_splits :
    threeNodes.Valid ∧
      (run threeNodes votedAgainst).map (fun s => ((s.raft 1).applyTx, (s.raft 2).applyTx)) =
        some ([⟨1, 2, [120], .normal⟩], [⟨1, 3, [121], .normal⟩]) :=
  ⟨threeNodes_valid, by decide +kernel⟩

/-- Node 1 leads, replicates an entry to node 2, and both apply it. -/
def replicated : List Action :=
  [.electionTimeout 1, .deliverVote ⟨1, 0, 2⟩, .voteReply ⟨1, 0, 2⟩ 0, .countVote 1,
    .deliverVote ⟨1, 1, 2⟩, .voteReply ⟨1, 1, 2⟩ 0, .countVote 1,
    .propose 1 .normal [120], .deliverAppend ⟨1, 1, 2⟩, .appendReply ⟨1, 1, 2⟩ 0, .apply 1,
    .heartbeat 1, .deliverAppend ⟨1, 2, 2⟩, .apply 2]

theorem replicated_entry_agrees :
    (run threeNodes replicated).map (fun s => ((s.raft 1).applyTx, (s.raft 2).applyTx)) =
        some ([⟨1, 2, [120], .normal⟩], [⟨1, 2, [120], .normal⟩]) ∧
      ∀ s, run threeNodes replicated = some s → ∀ id ∈ threeNodes.ids, ∀ other ∈ threeNodes.ids,
        ∀ entry ∈ (s.raft id).applyTx, ∀ entry' ∈ (s.raft other).applyTx,
          entry.index = entry'.index → entry = entry' :=
  ⟨by decide +kernel, fun s runs =>
    state_machine_safety threeNodes threeNodes_valid (by decide) replicated s runs (by decide +kernel)⟩

end Cluster

end Rusd
