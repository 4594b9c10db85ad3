/-
**Whom a node takes for the leader.**

`leader_id` is what a node that does not lead sends its clients to. It is set by the requests of a
leader, cleared whenever the node steps down or stands for election, and set to the node itself when
it wins.

* `Turns` — what a handler does to the pointer: drop it, keep it within the term, follow a leader of the
  term, or win.
* `PointerInv` — a pointer names the one node that has led the node's current term, and a node names
  itself exactly while it leads.
* `leader_pointer_truthful` — so in every state of a timely run.
-/

import Rusd.Raft.Election

namespace Rusd

/-! ### What the handlers do to a pointer -/

/-- **A turn of the pointer.** The node drops it, keeps it with its term and role, follows another node
that has led its term, or wins the term in which it is a candidate. A candidate whose pointer is dropped
stands in a later term. -/
inductive Turns (led : Set (Nat × Nat)) (id : Nat) (old new : RaftState) : Prop
  | lost (pointer : new.leaderId = none) (role : new.role ≠ .leader)
      (later : new.role = .candidate → old.currentTerm < new.currentTerm)
  | kept (pointer : new.leaderId = old.leaderId) (term : new.currentTerm = old.currentTerm)
      (role : new.role = old.role)
  | heard (leader : Nat) (pointer : new.leaderId = some leader)
      (elected : (leader, new.currentTerm) ∈ led) (other : leader ≠ id) (role : new.role ≠ .leader)
      (stands : new.role = .candidate → old.role = .candidate ∧ new.currentTerm = old.currentTerm)
  | won (pointer : new.leaderId = some id) (role : new.role = .leader) (stood : old.role = .candidate)
      (term : new.currentTerm = old.currentTerm)

section Handlers

variable {led : Set (Nat × Nat)} {id : Nat} {old new state : RaftState} {node : RaftNode}

theorem Turns.refl : Turns led id state state := .kept rfl rfl rfl

theorem Turns.becomeFollower (term : Nat) : Turns led id state (state.becomeFollower term) :=
  .lost rfl (by rintro ⟨⟩) (by rintro ⟨⟩)

theorem Turns.observeTerm (term : Nat) : Turns led id node.state (node.observeTerm term).state := by
  rw [RaftNode.observeTerm]
  split
  · exact .becomeFollower term
  · exact .refl

theorem Turns.voteFor {candidate : Nat} (turns : Turns led id old new) :
    Turns led id old (new.voteFor candidate) := by
  cases turns with
  | lost pointer role later => exact .lost pointer role later
  | kept pointer term role => exact .kept pointer term role
  | heard leader pointer elected other role stands =>
    exact .heard leader pointer elected other role stands
  | won pointer role stood term => exact .won pointer role stood term

theorem Turns.handleRequestVote (request : RequestVoteRequest) :
    Turns led id node.state (node.handleRequestVote request).1.state := by
  rcases node.handleRequestVote_cases request with ⟨-, same, -⟩ | ⟨-, same, -⟩ | ⟨-, -, -, same⟩
  · rw [same]
    exact .refl
  · rw [same]
    exact .observeTerm request.term
  · rw [same]
    exact (Turns.observeTerm request.term).voteFor

theorem Turns.handleVoteReply (request : RequestVoteRequest) (response : RequestVoteResponse) :
    Turns led id node.state (node.handleVoteReply request response).state := by
  rw [RaftNode.handleVoteReply]
  split
  · exact .becomeFollower response.term
  · exact .refl

/-- A request of a leader of the term, which is another node: the node drops its own lead, if it had one
in an earlier term. -/
theorem Turns.handleAppendEntries {request : AppendEntriesRequest}
    (elected : (request.leaderId, request.term) ∈ led) (other : request.leaderId ≠ id)
    (alone : node.state.currentTerm = request.term → node.state.role ≠ .leader) :
    Turns led id node.state (node.handleAppendEntries request).1.state := by
  rw [RaftNode.handleAppendEntries]
  dsimp only
  split
  case isTrue => exact .refl
  case isFalse inTime =>
    have behind : node.state.currentTerm ≤ request.term := Nat.le_of_not_lt inTime
    have term := RaftNode.observeTerm_term behind
    have role : (node.observeTerm request.term).state.role ≠ .leader := by
      rw [RaftNode.observeTerm]
      split
      case isTrue => rintro ⟨⟩
      case isFalse same => exact alone (le_antisymm behind (Nat.le_of_not_lt same))
    have stands : (node.observeTerm request.term).state.role = .candidate →
        node.state.role = .candidate ∧
          (node.observeTerm request.term).state.currentTerm = node.state.currentTerm := by
      rw [RaftNode.observeTerm]
      split
      case isTrue => rintro ⟨⟩
      case isFalse => exact fun candidate => ⟨candidate, rfl⟩
    rw [← term] at elected
    split
    · exact .heard request.leaderId rfl elected other role stands
    · rw [RaftNode.followCommit]
      split
      · exact .heard request.leaderId rfl elected other role stands
      · exact .heard request.leaderId rfl elected other role stands

theorem noteAppendReply_leaderId (state : RaftState) (peerId : Nat)
    (response : AppendEntriesResponse) :
    (RaftNode.noteAppendReply state peerId response).leaderId = state.leaderId := by
  rw [RaftNode.noteAppendReply]
  split
  · rfl
  split
  · rfl
  · rw [RaftState.decrementNextIndex]
    split
    · split <;> rfl
    · rfl

theorem Turns.handleAppendReply (peerId leaderLastIndex : Nat) (response : AppendEntriesResponse) :
    Turns led id node.state (node.handleAppendReply peerId leaderLastIndex response).state := by
  obtain ⟨commit, state⟩ := node.handleAppendReply_state peerId leaderLastIndex response
  obtain ⟨term, -, role, -⟩ := RaftNode.noteAppendReply_ballot node.state peerId response
  rw [state]
  exact .kept (noteAppendReply_leaderId node.state peerId response) term role

theorem Turns.propose (entryType : EntryType) (data : Bytes) :
    Turns led id node.state (node.propose entryType data).state := by
  rw [RaftNode.propose]
  dsimp only
  split
  · exact .kept rfl rfl rfl
  · exact .refl

end Handlers

/-- Who has built an append request. -/
theorem RaftNode.appendRequest_sender {node : RaftNode} {peer : Nat} {request : AppendEntriesRequest}
    (built : node.appendRequest peer = some request) :
    request.term = node.state.currentTerm ∧ request.leaderId = node.config.id := by
  rw [RaftNode.appendRequest] at built
  dsimp only at built
  split at built
  · cases built
  · obtain rfl := Option.some.inj built
    exact ⟨rfl, rfl⟩

namespace Cluster

variable {config : ClusterConfig} {s next : Cluster} {led : Set (Nat × Nat)} {id : Nat}

/-! ### The invariant -/

/-- **The pointer invariant**, with the nodes that have led and their terms. -/
structure PointerInv (s : Cluster) (led : Set (Nat × Nat)) : Prop where
  pointer : ∀ id ∈ s.ids, ∀ leader, (s.raft id).state.leaderId = some leader →
    (leader, (s.raft id).state.currentTerm) ∈ led
  own : ∀ id ∈ s.ids, (s.raft id).state.leaderId = some id ↔ (s.raft id).state.role = .leader
  stands : ∀ id ∈ s.ids, (s.raft id).state.role = .candidate →
    (id, (s.raft id).state.currentTerm) ∉ led
  reached : ∀ id term, (id, term) ∈ led → id ∈ s.ids ∧ term ≤ (s.raft id).state.currentTerm
  calls : ∀ id call, s.appendCalls id = some call → id.peer ∈ s.ids ∧ id.peer ≠ id.owner ∧
    call.request.leaderId = id.owner ∧ (id.owner, call.request.term) ∈ led

/-- What a step does at one node. -/
structure Turned (led : Set (Nat × Nat)) (id : Nat) (old new : RaftNode) : Prop where
  turns : Turns led id old.state new.state
  term : old.state.currentTerm ≤ new.state.currentTerm

theorem Turned.refl (node : RaftNode) : Turned led id node node := ⟨.refl, le_rfl⟩

/-- The append calls after a step: those before it, and those of a round that a leader has sent. -/
def Called (s next : Cluster) : Prop :=
  ∀ id call', next.appendCalls id = some call' →
    (∃ call, s.appendCalls id = some call ∧ call'.request = call.request) ∨
      (id.owner ∈ s.ids ∧ (next.raft id.owner).state.role = .leader ∧
        id.peer ∈ (next.raft id.owner).peerIds ∧
        (next.raft id.owner).appendRequest id.peer = some call'.request)

theorem Called.of_same (same : next.appendCalls = s.appendCalls) : Called s next :=
  fun _ call' found => .inl ⟨call', same ▸ found, rfl⟩

theorem Called.sendHeartbeats {t : Cluster} (same : t.appendCalls = s.appendCalls)
    (member : id ∈ s.ids) : Called s (t.sendHeartbeats id) := by
  intro call call' found
  rcases sendHeartbeats_found found with old | ⟨role, owner, peer, request, built, rfl⟩
  · exact .inl ⟨call', same ▸ old, rfl⟩
  · refine .inr ?_
    rw [sendHeartbeats_raft, owner]
    exact ⟨member, role, peer, built⟩

theorem Called.update {call : CallId} {old new : AppendCall} {t : Cluster}
    (found : s.appendCalls call = some old)
    (calls : t.appendCalls = Function.update s.appendCalls call (some new))
    (request : new.request = old.request) : Called s t := by
  intro other call' found'
  rw [calls] at found'
  by_cases same : other = call
  · subst same
    rw [Function.update_self] at found'
    cases found'
    exact .inl ⟨old, found, request⟩
  · rw [Function.update_of_ne same] at found'
    exact .inl ⟨call', found', rfl⟩

/-- What a step does to the pointers of all nodes. -/
structure Steers (led : Set (Nat × Nat)) (s next : Cluster) : Prop where
  ids : next.ids = s.ids
  turned : ∀ i, Turned led i (s.raft i) (next.raft i)
  called : Called s next

/-- **A step that turns the pointers** keeps the invariant. -/
theorem PointerInv.steer (inv : PointerInv s led) (valid : config.Valid)
    (elected : ElectionInv config next (led ∪ next.leaders)) (steers : Steers led s next) :
    PointerInv next (led ∪ next.leaders) := by
  obtain ⟨ids, turned, called⟩ := steers
  refine ⟨?_, ?_, ?_, ?_, ?_⟩
  · intro i member leader pointer
    rw [ids] at member
    cases (turned i).turns with
    | lost none role later => rw [none] at pointer; cases pointer
    | kept same term role =>
      rw [term]
      exact .inl (inv.pointer i member leader (same ▸ pointer))
    | heard other here elected ne role stands =>
      rw [here] at pointer
      cases pointer
      exact .inl elected
    | won here role stood term =>
      rw [here] at pointer
      cases pointer
      exact .inr ⟨ids ▸ member, role, rfl⟩
  · intro i member
    rw [ids] at member
    cases (turned i).turns with
    | lost none role later => simp [none, role]
    | kept same term role => rw [same, role, inv.own i member]
    | heard other here elected ne role stands => simp [here, ne, role]
    | won here role stood term => simp [here, role]
  · rintro i member candidate (before | ⟨-, role, -⟩)
    · rw [ids] at member
      have reached := (inv.reached i _ before).2
      cases (turned i).turns with
      | lost none role later => exact absurd reached (Nat.not_le.mpr (later candidate))
      | kept same term role => exact inv.stands i member (role ▸ candidate) (term ▸ before)
      | heard other here elected ne role stands =>
        obtain ⟨stood, term⟩ := stands candidate
        exact inv.stands i member stood (term ▸ before)
      | won here role stood term => rw [candidate] at role; cases role
    · rw [candidate] at role
      cases role
  · rintro i term (before | ⟨member, role, same⟩)
    · obtain ⟨member, le⟩ := inv.reached i term before
      exact ⟨ids ▸ member, le.trans (turned i).term⟩
    · exact ⟨member, same.ge⟩
  · intro call call' found
    rcases called call call' found with ⟨old, found, request⟩ | ⟨owner, role, peer, built⟩
    · obtain ⟨member, ne, leader, before⟩ := inv.calls call old found
      rw [request]
      exact ⟨ids ▸ member, ne, leader, .inl before⟩
    · have inside : call.owner ∈ next.ids := ids ▸ owner
      have self : (next.raft call.owner).config.id = call.owner := by
        rw [elected.config, valid.id _ (elected.ids ▸ inside)]
      obtain ⟨member, ne⟩ := (elected.peers valid inside (next.raft call.owner) rfl).1 _ peer
      obtain ⟨term, leader⟩ := RaftNode.appendRequest_sender built
      rw [term, leader]
      exact ⟨member, ne, self, elected.leader _ inside role⟩

/-- A node that has led a term and no longer does leads it no second time. -/
theorem PointerInv.led_once (inv : PointerInv s led) (member : id ∈ s.ids) {term : Nat}
    (turned : Turned led id (s.raft id) (next.raft id)) (before : (id, term) ∈ led)
    (ended : (s.raft id).state.currentTerm = term → (s.raft id).state.role ≠ .leader) :
    (next.raft id).state.currentTerm = term → (next.raft id).state.role ≠ .leader := by
  intro now role
  have same : (s.raft id).state.currentTerm = term :=
    le_antisymm (now ▸ turned.term) (inv.reached id term before).2
  cases turned.turns with
  | lost none follows later => exact follows role
  | kept pointer term kept => exact ended same (kept ▸ role)
  | heard leader here elected ne follows stands => exact follows role
  | won here leads stood term => exact inv.stands id member stood (same ▸ before)

/-! ### The steps -/

theorem Turned.setRaft {node : RaftNode} (here : Turned led id (s.raft id) node) (i : Nat) :
    Turned led i (s.raft i) ((s.setRaft id node).raft i) := by
  by_cases same : i = id
  · rw [same, setRaft_raft_self]
    exact here
  · rw [setRaft_raft_of_ne _ _ same]
    exact .refl _

theorem Turned.of_raft (rafts : next.raft = s.raft) (i : Nat) :
    Turned led i (s.raft i) (next.raft i) := by
  rw [rafts]
  exact .refl _

theorem Turned.launch {node : RaftNode} {request : RequestVoteRequest}
    (here : Turned led id (s.raft id) node) (i : Nat) :
    Turned led i (s.raft i) ((s.launch id node request).raft i) := by
  by_cases same : i = id
  · rw [same, launch_raft_self]
    exact here
  · rw [show (s.launch id node request).raft i = s.raft i by
      rw [raft, launch_members_of_ne same, raft]]
    exact .refl _

theorem voteReply_raft (call : CallId) (vote : VoteCall) (response : RequestVoteResponse) :
    (s.voteReply call vote response).raft =
      (s.setRaft call.owner ((s.raft call.owner).handleVoteReply vote.request response)).raft := by
  funext i
  show ((s.setMember call.owner _).members i).raft = _
  by_cases here : i = call.owner
  · rw [here, setRaft_raft_self, setMember_members_self, castVote_raft]
  · rw [setRaft_raft_of_ne _ _ here, setMember_members_of_ne _ _ here, raft]

/-- A real election that asks peers: the node drops its pointer. -/
theorem Steers.startRealElection (inv : ElectionInv config s led) (valid : config.Valid)
    (two : 2 ≤ config.ids.length) (member : id ∈ s.ids) : Steers led s (s.startRealElection id) := by
  have others := inv.others valid two member (s.raft id).startRealElection.1 rfl
  rw [Cluster.startRealElection]
  dsimp only
  rw [if_neg (by simpa [List.isEmpty_iff] using List.ne_nil_of_mem others.choose_spec)]
  have later : (s.raft id).state.currentTerm < (s.raft id).startRealElection.1.state.currentTerm :=
    Nat.lt_add_of_pos_right Nat.two_pos
  exact ⟨rfl, Turned.launch ⟨.lost rfl (by rintro ⟨⟩) fun _ => later, later.le⟩, .of_same rfl⟩

theorem Steers.startPreVote (inv : ElectionInv config s led) (valid : config.Valid)
    (two : 2 ≤ config.ids.length) (member : id ∈ s.ids) : Steers led s (s.startPreVote id) := by
  have others := inv.others valid two member (s.raft id).startPreVote.1 rfl
  rw [Cluster.startPreVote]
  dsimp only
  rw [if_neg (by simpa [List.isEmpty_iff] using List.ne_nil_of_mem others.choose_spec)]
  exact ⟨rfl, Turned.launch ⟨.lost rfl (by rintro ⟨⟩) (by rintro ⟨⟩), le_rfl⟩, .of_same rfl⟩

theorem Steers.startElection (inv : ElectionInv config s led) (valid : config.Valid)
    (two : 2 ≤ config.ids.length) (member : id ∈ s.ids) : Steers led s (s.startElection id) := by
  rw [Cluster.startElection]
  split
  · split
    · exact .startPreVote inv valid two member
    · exact .startRealElection inv valid two member
  · split
    · exact .startPreVote inv valid two member
    · exact .startRealElection inv valid two member
  · exact .startRealElection inv valid two member
  · exact ⟨rfl, fun _ => .refl _, .of_same rfl⟩

theorem Steers.becomeLeader (self : (s.raft id).config.id = id) (member : id ∈ s.ids)
    (candidate : (s.raft id).state.role = .candidate) : Steers led s (s.becomeLeader id) := by
  have won : Turns led id (s.raft id).state (s.raft id).becomeLeader.state :=
    .won (congrArg some self) rfl candidate rfl
  rw [Cluster.becomeLeader]
  refine ⟨sendHeartbeats_ids _ _, fun i => ?_, .sendHeartbeats rfl member⟩
  rw [sendHeartbeats_raft]
  exact Turned.setRaft ⟨won, le_rfl⟩ i

/-- The last vote of a counting loop, seen from the state in which the loop has ended. -/
theorem Steers.of_raft {t : Cluster} (rafts : t.raft = s.raft) (ids : t.ids = s.ids)
    (calls : t.appendCalls = s.appendCalls) (steers : Steers led t next) : Steers led s next := by
  refine ⟨steers.ids.trans ids, fun i => rafts ▸ steers.turned i, fun call call' found => ?_⟩
  have called := steers.called call call' found
  rwa [calls, ids] at called

/-- **What every timely step does to the pointers.** -/
theorem step_steers (inv : PointerInv s led) (election : ElectionInv config s led)
    (valid : config.Valid) (two : 2 ≤ config.ids.length) {action : Action}
    (moves : s.step action = some next) (timely : s.Timely action) : Steers led s next := by
  have own : ∀ {i}, i ∈ s.ids → (s.raft i).config.id = i := fun {i} member => by
    rw [election.config, valid.id _ (election.ids ▸ member)]
  cases step_moves moves with
  | electionTimeout id member idle => exact .startElection election valid two member
  | deliverVote id call found =>
    obtain ⟨-, member, -, -, -⟩ := election.call id call found
    have calm := RaftNode.handleRequestVote_calm (election.candidate id.peer member) call.request
    exact ⟨rfl, Turned.setRaft ⟨.handleRequestVote call.request, calm.term⟩, .of_same rfl⟩
  | voteReply id reply call response found received pending =>
    obtain ⟨member, -⟩ := election.call id call found
    have calm := RaftNode.handleVoteReply_calm (own member) (timely call found response received)
    refine ⟨rfl, fun i => ?_, .of_same rfl⟩
    rw [voteReply_raft]
    exact Turned.setRaft ⟨.handleVoteReply call.request response, calm.term⟩ i
  | voteError id call found pending =>
    exact ⟨rfl, Turned.of_raft (setMember_raft (castVote_raft _ _ _)), .of_same rfl⟩
  | countVote id campaign granted rest running votes =>
    have counts := election.campaign id campaign running
    have ended : ElectionInv config (s.setMember id { s.members id with campaign := none }) led :=
      election.setCampaign fun c none => by cases none
    have rafts : (s.setMember id { s.members id with campaign := none }).raft = s.raft :=
      setMember_raft rfl
    rw [countVote]
    dsimp only
    rw [Campaign.nextCount_cons votes]
    split
    case isTrue enough =>
      split
      case isTrue => exact (Steers.startRealElection ended valid two counts.member).of_raft rafts rfl rfl
      case isFalse real =>
        rw [Bool.not_eq_true] at real
        have self : ((s.setMember id { s.members id with campaign := none }).raft id).config.id = id := by
          rw [rafts]
          exact own counts.member
        have candidate : ((s.setMember id { s.members id with campaign := none }).raft id).state.role =
            .candidate := by
          rw [rafts]
          exact (timely campaign running real enough).1
        exact (Steers.becomeLeader self counts.member candidate).of_raft rafts rfl rfl
    case isFalse => exact ⟨rfl, Turned.of_raft (setMember_raft rfl), .of_same rfl⟩
  | endCampaign id campaign running =>
    exact ⟨rfl, Turned.of_raft (setMember_raft rfl), .of_same rfl⟩
  | heartbeat id member idle leads =>
    refine ⟨sendHeartbeats_ids _ _, fun i => ?_, .sendHeartbeats rfl member⟩
    rw [sendHeartbeats_raft]
    exact .refl _
  | deliverAppend id call found =>
    obtain ⟨member, ne, leader, elected⟩ := inv.calls id call found
    have calm := RaftNode.handleAppendEntries_calm id.peer (s.raft id.peer) call.request
    -- a leader of the term would be the sender
    have alone : (s.raft id.peer).state.currentTerm = call.request.term →
        (s.raft id.peer).state.role ≠ .leader := by
      intro same role
      have leads := election.leader id.peer member role
      rw [same] at leads
      exact ne (election.led_unique leads elected)
    have turns := Turns.handleAppendEntries (leader ▸ elected) (leader ▸ ne.symm) alone
    exact ⟨rfl, Turned.setRaft ⟨turns, calm.term⟩, .update found rfl rfl⟩
  | appendReply id reply call response found received pending =>
    have calm := RaftNode.handleAppendReply_calm id.owner (s.raft id.owner) id.peer
      call.leaderLastIndex response
    exact ⟨rfl, Turned.setRaft ⟨.handleAppendReply id.peer call.leaderLastIndex response, calm.term⟩,
      .update found rfl rfl⟩
  | propose id entryType data member leads =>
    have calm := RaftNode.propose_calm id (s.raft id) entryType data
    refine ⟨sendHeartbeats_ids _ _, fun i => ?_, .sendHeartbeats rfl member⟩
    rw [sendHeartbeats_raft]
    exact Turned.setRaft ⟨.propose entryType data, calm.term⟩ i
  | apply id member idle =>
    exact ⟨rfl, Turned.setRaft ⟨.kept rfl rfl rfl, le_rfl⟩, .of_same rfl⟩

/-! ### Over a whole run -/

theorem start_state (valid : config.Valid) (two : 2 ≤ config.ids.length) (member : id ∈ config.ids) :
    ((start config).raft id).state = RaftState.new := by
  obtain ⟨peer, listed⟩ := (ElectionInv.start valid two).others valid two member
    ((start config).raft id) rfl
  have nonempty : (config.configs id).peers.isEmpty = false :=
    List.isEmpty_eq_false_iff.mpr (List.ne_nil_of_mem (List.mem_filter.mp listed).1)
  show (if (config.configs id).peers.isEmpty then _ else RaftState.new) = RaftState.new
  rw [nonempty]
  rfl

theorem PointerInv.start (valid : config.Valid) (two : 2 ≤ config.ids.length) :
    PointerInv (start config) ∅ := by
  refine ⟨fun id member leader pointer => ?_, fun id member => ?_, fun id member _ led => ?_,
    fun id term led => ?_, fun id call found => ?_⟩
  · rw [start_state valid two member] at pointer
    cases pointer
  · rw [start_state valid two member]
    exact ⟨fun pointer => (by cases pointer), fun role => (by cases role)⟩
  · exact absurd led (Set.notMem_empty _)
  · exact absurd led (Set.notMem_empty _)
  · cases found

/-- Who has led by the end of a run with one more step. -/
theorem ledAt_concat {actions : List Action} {action : Action}
    (runs : run config (actions ++ [action]) = some next) (ids : next.ids = config.ids) :
    {p | LedAt config (actions ++ [action]) p.1 p.2} =
      {p | LedAt config actions p.1 p.2} ∪ next.leaders := by
  ext ⟨id, term⟩
  constructor
  · rintro ⟨member, n, u, reaches, role, same⟩
    by_cases short : n ≤ actions.length
    · rw [List.take_append_of_le_length short] at reaches
      exact .inl ⟨member, n, u, reaches, role, same⟩
    · rw [List.take_of_length_le (by rw [List.length_append, List.length_singleton]; omega), runs]
        at reaches
      cases reaches
      exact .inr ⟨ids ▸ member, role, same⟩
  · rintro (⟨member, n, u, reaches, role, same⟩ | ⟨member, role, same⟩)
    · refine ⟨member, min n actions.length, u, ?_, role, same⟩
      rw [List.take_append_of_le_length (min_le_right _ _), ← List.take_take, List.take_length]
      exact reaches
    · refine ⟨ids ▸ member, (actions ++ [action]).length, next, ?_, role, same⟩
      rwa [List.take_length]

/-- **The invariants at the end of a timely run**, for the nodes that have led in it. -/
theorem run_pointers (valid : config.Valid) (two : 2 ≤ config.ids.length) {actions : List Action} :
    ∀ {s : Cluster}, run config actions = some s → Along step Timely (start config) actions →
      ElectionInv config s {p | LedAt config actions p.1 p.2} ∧
        PointerInv s {p | LedAt config actions p.1 p.2} := by
  induction actions using List.reverseRecOn with
  | nil =>
    intro s runs _
    cases runs
    have none : {p : Nat × Nat | LedAt config [] p.1 p.2} = ∅ := by
      refine Set.eq_empty_of_forall_notMem ?_
      rintro ⟨id, term⟩ ⟨member, n, u, reaches, role, -⟩
      rw [List.take_nil] at reaches
      cases reaches
      rw [start_state valid two member] at role
      cases role
    rw [none]
    exact ⟨.start valid two, .start valid two⟩
  | append_singleton actions action ih =>
    intro next runs timely
    obtain ⟨s, reaches, moves⟩ := runFrom_concat runs
    have before : Along step Timely (start config) actions := by
      have part := timely.take actions.length
      rwa [List.take_left] at part
    obtain ⟨election, pointers⟩ := ih reaches before
    have now : s.Timely action := timely.last reaches
    have after := election.step valid two moves now
    rw [ledAt_concat runs after.ids]
    exact ⟨after, pointers.steer valid after (step_steers pointers election valid two moves now)⟩

/-- **A pointer is truthful.** Whom a node takes for the leader has led the node's current term; and a node
that leads takes itself for the leader, as no other node does. -/
theorem leader_pointer_truthful (config : ClusterConfig) (valid : config.Valid)
    (two : 2 ≤ config.ids.length) (actions : List Action) (s : Cluster)
    (runs : run config actions = some s) (timely : Along step Timely (start config) actions) :
    ∀ id ∈ config.ids, ((s.raft id).state.role = .leader → (s.raft id).state.leaderId = some id) ∧
      ∀ leader, (s.raft id).state.leaderId = some leader →
        LedAt config actions leader (s.raft id).state.currentTerm ∧
          (leader = id ↔ (s.raft id).state.role = .leader) := by
  obtain ⟨election, pointers⟩ := run_pointers valid two runs timely
  intro id member
  rw [← election.ids] at member
  refine ⟨(pointers.own id member).mpr, fun leader pointer => ?_⟩
  refine ⟨pointers.pointer id member leader pointer, ?_⟩
  rw [← pointers.own id member, pointer]
  exact ⟨congrArg some, Option.some.inj⟩

/-- Node 2 has taken the first heartbeat of node 1. -/
def firstHeartbeat : List Action := inTurn.take 8

theorem first_heartbeat_pointer :
    ∃ s, run threeNodes firstHeartbeat = some s ∧ (s.raft 2).state.leaderId = some 1 ∧
      LedAt threeNodes firstHeartbeat 1 (s.raft 2).state.currentTerm ∧
      (1 = 2 ↔ (s.raft 2).state.role = .leader) := by
  obtain ⟨s, runs, pointer⟩ :
      ∃ s, run threeNodes firstHeartbeat = some s ∧ (s.raft 2).state.leaderId = some 1 :=
    ⟨_, rfl, rfl⟩
  exact ⟨s, runs, pointer, (leader_pointer_truthful threeNodes threeNodes_valid (by decide)
    firstHeartbeat s runs (by decide +kernel) 2 (by decide)).2 1 pointer⟩

end Cluster

end Rusd
