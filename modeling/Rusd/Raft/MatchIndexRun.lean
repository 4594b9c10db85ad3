/-
**Match indices over a run.**

Every step in order keeps the invariant of `MatchIndex`, so in every run of such steps a leader's match
index of a peer that is still in its term tells what the peer stores.

* `MatchInv.step` — every step in order.
* `match_index_sound` — over a whole run.
* `delayed_append_cuts` — a request that arrives late cuts off what the leader knows to be stored.
-/

import Rusd.Raft.MatchIndexStep

namespace Rusd

open RaftLog

namespace SnapshotCluster

open Cluster (ElectionInv Still setRaft_members_self setRaft_raft_self setRaft_raft_of_ne setRaft_rounds Lone)

variable {config : ClusterConfig} {s next : SnapshotCluster} {history : History}
  {whole : Nat → List LogEntry}

/-! ### Every step keeps the invariant -/

/-- A step of the cluster that begins no round. -/
theorem MatchInv.quietStep {t : Cluster} {later : History} {whole' : Nat → List LogEntry}
    (inv : MatchInv config { s with cluster := t } later whole')
    (rounds : ∀ i, (t.members i).rounds = (s.cluster.members i).rounds) :
    MatchInv config (s.sendSnapshots t) later whole' := by
  rw [sendSnapshots_of_rounds rounds]
  exact inv

/-- The task of a vote request casts its answer. -/
theorem MatchInv.answer (inv : MatchInv config s history whole) {id : CallId} {call : VoteCall}
    (found : s.cluster.voteCalls id = some call) (pending : call.answered = false) (granted : Bool)
    (given : granted = true → ∃ response ∈ call.replies, response.voteGranted = true) :
    MatchInv config { s with cluster := { s.cluster.setMember id.owner
        (Cluster.castVote (s.cluster.members id.owner) id.number granted) with
      voteCalls := Function.update s.cluster.voteCalls id (some { call with answered := true }) } }
      history whole ∧
    ∀ i, ((s.cluster.setMember id.owner
      (Cluster.castVote (s.cluster.members id.owner) id.number granted)).members i).rounds =
      (s.cluster.members i).rounds := by
  refine ⟨inv.frame (inv.election.answer found pending granted given) rfl rfl ?_, ?_⟩
  · exact Cluster.setMember_raft (Cluster.castVote_raft ..)
  · exact Cluster.setMember_frame Member.rounds (Cluster.castVote_rounds ..)

theorem MatchInv.voteReply (inv : MatchInv config s history whole) (valid : config.Valid)
    {id : CallId} {call : VoteCall} (found : s.cluster.voteCalls id = some call)
    (pending : call.answered = false) {response : RequestVoteResponse}
    (received : response ∈ call.replies)
    (timely : call.request.preVote = false → response.term > call.request.term →
      (s.cluster.raft id.owner).MayFollow response.term) :
    MatchInv config { s with cluster := s.cluster.voteReply id call response } history whole ∧
      ∀ i, ((s.cluster.voteReply id call response).members i).rounds =
        (s.cluster.members i).rounds := by
  obtain ⟨member, -⟩ := inv.election.call id call found
  have self : (s.cluster.raft id.owner).config.id = id.owner := by
    rw [inv.election.config, valid.id _ (inv.election.ids ▸ member)]
  obtain ⟨still, standing⟩ := Still.handleVoteReply timely
  have moved := inv.setRaft (RaftNode.handleVoteReply_calm self timely) still standing
  have answered := moved.answer found pending response.voteGranted fun yes => ⟨response, received, yes⟩
  dsimp only at answered
  rw [setRaft_members_self, Cluster.setRaft_setMember] at answered
  exact ⟨answered.1, fun i => (answered.2 i).trans (setRaft_rounds s.cluster id.owner i _)⟩

/-- **One round of a counting loop.** -/
theorem MatchInv.countVote (inv : MatchInv config s history whole) (valid : config.Valid)
    (two : 2 ≤ config.ids.length) {id : Nat} {campaign : Campaign} {granted : Bool}
    {rest : List Bool} (running : (s.cluster.members id).campaign = some campaign)
    (votes : campaign.votes = granted :: rest) (timely : s.cluster.WinsInTime id) :
    ∃ later whole', MatchInv config
      (s.sendSnapshots (s.cluster.countVote id campaign granted rest)) later whole' := by
  have counts := inv.election.campaign id campaign running
  have count := Campaign.nextCount_cons votes
  have rafts : ∀ campaign', (s.cluster.setMember id
      { s.cluster.members id with campaign := campaign' }).raft = s.cluster.raft :=
    fun campaign' => Cluster.setMember_raft rfl
  have rounds : ∀ campaign' i, ((s.cluster.setMember id
      { s.cluster.members id with campaign := campaign' }).members i).rounds =
      (s.cluster.members i).rounds :=
    fun campaign' => Cluster.setMember_frame Member.rounds rfl
  have quiet : ElectionInv config (s.cluster.setMember id
      { s.cluster.members id with campaign := none }) history.led :=
    inv.election.setCampaign fun c none => by cases none
  have ended : MatchInv config { s with cluster := (s.cluster.setMember id
      { s.cluster.members id with campaign := none }) } history whole :=
    inv.frame quiet rfl rfl (rafts none)
  have election := inv.election.countVote valid two running votes timely
  rw [Cluster.countVote] at election ⊢
  dsimp only at election ⊢
  rw [count] at election ⊢
  split at election
  case isTrue enough =>
    rw [if_pos enough]
    split
    case isTrue pre =>
      obtain ⟨moved, sameRounds⟩ := ended.startRealElection valid two counts.member
      have began : MatchInv config { s with cluster := ((s.cluster.setMember id
          { s.cluster.members id with campaign := none }).startRealElection id) } history whole := moved
      exact ⟨_, _, began.quietStep fun i => (sameRounds i).trans (rounds none i)⟩
    case isFalse real =>
      rw [Bool.not_eq_true] at real
      have stands := timely campaign running real enough
      obtain ⟨voters, major, voted⟩ := inv.election.won valid running real enough
      rw [← rafts none] at stands
      have positive : 0 < ((s.cluster.setMember id
          { s.cluster.members id with campaign := none }).raft id).state.currentTerm := by
        rw [stands.2]
        exact Nat.succ_pos _
      have elected := ended.election.elect counts.member stands.1 positive major
        fun voter inside => by
          rw [stands.2]
          exact voted voter inside
      obtain ⟨later, whole', leads⟩ : ∃ later whole', MatchInv config
          { s with cluster := ((s.cluster.setMember id
            { s.cluster.members id with campaign := none }).setRaft id ((s.cluster.setMember id
              { s.cluster.members id with campaign := none }).raft id).becomeLeader) } later whole' :=
        ⟨_, _, ended.elect counts.member stands.1 positive elected⟩
      refine ⟨later, whole', leads.round valid counts.member fun i => ?_⟩
      rw [setRaft_rounds]
      exact rounds none i
  case isFalse more =>
    rw [if_neg more]
    have kept : s.cluster.leaders ⊆ history.led := by
      rintro ⟨i, term⟩ ⟨inside, role, same⟩
      have led := inv.election.leader i inside role
      rwa [same] at led
    have leaders : (s.cluster.setMember id { s.cluster.members id with
        campaign := some { campaign with voteCount := campaign.nextCount, votes := rest } }).leaders =
        s.cluster.leaders := by
      rw [Cluster.leaders, rafts]
      rfl
    rw [leaders, Set.union_eq_self_of_subset_right kept] at election
    exact ⟨_, _, (inv.frame election rfl rfl (rafts _)).quietStep (rounds _)⟩

/-- **A step of the cluster without snapshots.** -/
theorem MatchInv.raftStep (inv : MatchInv config s history whole) (valid : config.Valid)
    (two : 2 ≤ config.ids.length) {action : Cluster.Action} {t : Cluster}
    (moves : s.cluster.step action = some t) (timely : s.cluster.Timely action)
    (fits : s.Fits action) : ∃ later whole', MatchInv config (s.sendSnapshots t) later whole' := by
  cases Cluster.step_moves moves with
  | electionTimeout id member idle =>
    obtain ⟨began, rounds⟩ := inv.startElection valid two member
    exact ⟨_, _, began.quietStep rounds⟩
  | deliverVote id call found =>
    obtain ⟨-, member, -⟩ := inv.election.call id call found
    obtain ⟨still, standing⟩ := Cluster.Still.handleRequestVote (s.raft id.peer) call.request
    have moved := inv.setRaft (RaftNode.handleRequestVote_calm
      (inv.election.candidate id.peer member) call.request) still standing
    have delivered : MatchInv config { s with cluster := s.cluster.deliverVote id call } history
        whole := moved.frame (inv.election.deliverVote found) rfl rfl rfl
    exact ⟨_, _, delivered.quietStep fun i => setRaft_rounds s.cluster id.peer i _⟩
  | voteReply id reply call response found received pending =>
    obtain ⟨replied, rounds⟩ := inv.voteReply valid found pending
      (List.mem_of_getElem? received) (timely call found response received)
    exact ⟨_, _, replied.quietStep rounds⟩
  | voteError id call found pending =>
    obtain ⟨answered, rounds⟩ := inv.answer found pending false
      fun no => by cases no
    exact ⟨_, _, answered.quietStep rounds⟩
  | countVote id campaign granted rest running votes =>
    exact inv.countVote valid two running votes timely
  | endCampaign id campaign running =>
    have ended : MatchInv config { s with
        cluster := (s.cluster.setMember id { s.cluster.members id with campaign := none }) }
        history whole :=
      inv.frame (inv.election.setCampaign fun c none => by cases none) rfl rfl
        (Cluster.setMember_raft rfl)
    exact ⟨_, _, ended.quietStep (Cluster.setMember_frame Member.rounds rfl)⟩
  | heartbeat id member idle leads => exact ⟨_, _, MatchInv.round inv valid member fun _ => rfl⟩
  | deliverAppend id call found =>
    obtain ⟨later, whole', moved⟩ := inv.deliverAppend found fits
    exact ⟨later, whole', moved.quietStep fun i => setRaft_rounds ..⟩
  | appendReply id reply call response found received pending =>
    obtain ⟨whole', moved⟩ := inv.appendReply found (List.mem_of_getElem? received) fits
    exact ⟨history, whole', moved.quietStep fun i => setRaft_rounds ..⟩
  | propose id entryType data member leads =>
    have role : (s.cluster.raft id).state.role = .leader := by
      simpa [RaftState.isLeader] using leads
    obtain ⟨later, whole', proposed⟩ := inv.propose valid two member role fits entryType data
    exact ⟨later, whole', proposed.round valid member fun i => setRaft_rounds ..⟩
  | apply id member idle =>
    obtain ⟨whole', applied⟩ := inv.apply id
    exact ⟨history, whole', applied.quietStep fun i => setRaft_rounds ..⟩

/-- **Every step in order keeps the invariant**, with a history that may be longer. -/
theorem MatchInv.step (inv : MatchInv config s history whole) (valid : config.Valid)
    (two : 2 ≤ config.ids.length) {action : Action} (moves : s.step action = some next)
    (inOrder : s.InOrder action) : ∃ later whole', MatchInv config next later whole' := by
  cases action with
  | raft action =>
    obtain ⟨t, moved, rfl⟩ := Option.map_eq_some_iff.mp moves
    exact inv.raftStep valid two moved inOrder.1 inOrder.2
  | triggerSnapshot id data =>
    rw [SnapshotCluster.step] at moves
    split at moves
    case isFalse => cases moves
    case isTrue =>
      cases moves
      exact ⟨history, inv.triggerSnapshot inOrder⟩
  | deliverSnapshot id restored =>
    rw [SnapshotCluster.step] at moves
    split at moves
    case h_2 => cases moves
    case h_1 call found =>
      cases moves
      exact inv.deliverSnapshot found inOrder
  | snapshotReply id reply =>
    rw [SnapshotCluster.step] at moves
    split at moves
    case h_2 => cases moves
    case h_1 call found =>
      split at moves
      case h_2 => cases moves
      case h_1 response received =>
        split at moves
        case isTrue => cases moves
        case isFalse =>
          cases moves
          have answered : call.replies ≠ [] := List.ne_nil_of_mem (List.mem_of_getElem? received)
          exact ⟨history, inv.snapshotReply found answered inOrder⟩

theorem MatchInv.start (valid : config.Valid) (two : 2 ≤ config.ids.length)
    (thresholds : Nat → Nat) :
    MatchInv config (start config thresholds) Cluster.emptyHistory fun _ => [] := by
  have begins := Cluster.ReplicationInv.start valid two
  have roles : ∀ id ∈ config.ids, ((Cluster.start config).raft id).state.role ≠ .leader :=
    fun id member role => begins.election.leader id member role
  refine ⟨begins.election, begins.sound, fun id member => ?_, fun id call found => (by cases found),
    fun id call found => (by cases found)⟩
  refine ⟨RaftLog.Represents.new, rfl, Matched.nil, fun entry none => (by cases none),
    fun role => absurd role (roles id member), fun _ => .inl fun entry none => (by cases none),
    fun _ led => absurd led (Set.notMem_empty _), fun _ led => absurd led (Set.notMem_empty _),
    fun _ _ ack => absurd ack (Set.notMem_empty _), fun role => absurd role (roles id member)⟩

theorem lone_step (lone : Lone config s.cluster) (valid : config.Valid)
    (one : config.ids.length < 2) {action : Action} (moves : s.step action = some next) :
    Lone config next.cluster := by
  cases action with
  | raft action =>
    obtain ⟨t, moved, rfl⟩ := Option.map_eq_some_iff.mp moves
    exact lone.step valid one moved
  | triggerSnapshot id data =>
    rw [SnapshotCluster.step] at moves
    split at moves
    case isFalse => cases moves
    case isTrue =>
      cases moves
      refine lone.setRaft ?_
      rw [RaftNode.takeSnapshot_beside.1]
      exact lone.config id
  | deliverSnapshot id restored =>
    rw [SnapshotCluster.step] at moves
    split at moves
    case h_2 => cases moves
    case h_1 call found =>
      cases moves
      refine lone.setRaft ?_
      rw [RaftNode.installSnapshot_config]
      exact lone.config id.peer
  | snapshotReply id reply =>
    rw [SnapshotCluster.step] at moves
    split at moves
    case h_2 => cases moves
    case h_1 call found =>
      split at moves
      case h_2 => cases moves
      case h_1 response received =>
        split at moves
        case isTrue => cases moves
        case isFalse =>
          cases moves
          exact lone.setRaft (lone.config id.owner)

/-! ### Over a whole run -/

/-- The peer stores the leader's entries up to the match index. -/
def Matches (s : SnapshotCluster) (id peer : Nat) : Prop :=
  ∀ m ∈ (s.raft id).state.matchIndex peer, ∀ i, 0 < i → i ≤ m →
    ∃ entry, s.stored id i = some entry ∧ s.stored peer i = some entry

theorem MatchInv.matches (inv : MatchInv config s history whole) {id peer : Nat}
    (member : id ∈ s.cluster.ids) (inside : peer ∈ s.cluster.ids)
    (role : (s.raft id).state.role = .leader) (inPeers : peer ∈ (s.raft id).peerIds)
    (inTerm : (s.raft peer).term ≤ (s.raft id).term) : s.Matches id peer := by
  intro m known i positive reach
  have ok := inv.nodes id member
  have peerOk := inv.nodes peer inside
  obtain ⟨n, same, acked⟩ := (ok.peers role peer inPeers).acked
  have same : n = m := Option.some.inj (same.symm.trans known)
  subst same
  rcases acked with zero | ack | left
  · omega
  · obtain ⟨below, kept⟩ := peerOk.acks _ n ack
    have stores := kept (le_antisymm below inTerm)
    have long := (inv.sound.acks _ _ _ ack).2
    rw [← ok.leading role] at stores long
    have here : i - 1 < (whole id).length := by omega
    refine ⟨(whole id)[i - 1], ?_, ?_⟩
    · rw [ok.stored_eq positive, List.getElem?_eq_getElem here]
    · obtain ⟨rest, split⟩ := stores
      rw [peerOk.stored_eq positive, ← split, List.getElem?_append_left (by rw [List.length_take]; omega),
        List.getElem?_take_of_lt (by omega), List.getElem?_eq_getElem here]
  · exact absurd inTerm (Nat.not_le.mpr left)

/-- **The match index of a peer that is still in the leader's term tells what the peer stores.** -/
theorem match_index_sound (config : ClusterConfig) (valid : config.Valid) (thresholds : Nat → Nat)
    (actions : List Action) (s : SnapshotCluster) (runs : run config thresholds actions = some s)
    (inOrder : Along step InOrder (start config thresholds) actions) :
    ∀ id ∈ config.ids, (s.raft id).state.role = .leader → ∀ peer ∈ (s.raft id).peerIds,
      (s.raft peer).state.currentTerm ≤ (s.raft id).state.currentTerm → s.Matches id peer := by
  intro id member role peer inPeers inTerm
  rcases Nat.lt_or_ge config.ids.length 2 with one | two
  · have keeps : ∀ s action next, step s action = some next → Lone config s.cluster →
        Lone config next.cluster := fun s action next moves lone => lone_step lone valid one moves
    have lone : Lone config s.cluster := run_always keeps (Lone.start config) runs
    rw [lone.peerIds valid one (lone.ids ▸ member) (s.raft id) (lone.config id)] at inPeers
    cases inPeers
  · have keeps : ∀ s action next, step s action = some next → InOrder s action →
        (∃ history whole, MatchInv config s history whole) →
        ∃ history whole, MatchInv config next history whole := by
      rintro s action next moves inOrder ⟨history, whole, inv⟩
      exact inv.step valid two moves inOrder
    obtain ⟨history, whole, inv⟩ : ∃ history whole, MatchInv config s history whole :=
      run_invariant keeps ⟨_, _, MatchInv.start valid two thresholds⟩ inOrder runs
    have member : id ∈ s.cluster.ids := inv.election.ids ▸ member
    have inside := (inv.election.peers valid member (s.raft id) rfl).1 peer inPeers
    exact inv.matches member inside.1 role inPeers inTerm

/-- Node 1 leads in term 2, takes a snapshot of its two entries and sends it to node 3. -/
def snapshotSent : List Action :=
  [.raft (.electionTimeout 1), .raft (.deliverVote ⟨1, 0, 2⟩), .raft (.voteReply ⟨1, 0, 2⟩ 0),
    .raft (.countVote 1), .raft (.deliverVote ⟨1, 1, 2⟩), .raft (.voteReply ⟨1, 1, 2⟩ 0),
    .raft (.countVote 1), .raft (.propose 1 .normal [120]), .raft (.propose 1 .normal [121]),
    .triggerSnapshot 1 (some [7]), .raft (.heartbeat 1), .deliverSnapshot ⟨1, 3, 3⟩ true,
    .snapshotReply ⟨1, 3, 3⟩ 0]

/-- The leader knows node 3 to store its two entries. -/
theorem snapshot_sent_matches :
    ∃ s, run Cluster.threeNodes (fun _ => 0) snapshotSent = some s ∧
      (s.raft 1).state.matchIndex 3 = some 2 ∧ s.Matches 1 3 := by
  have sent : ∃ s, run Cluster.threeNodes (fun _ => 0) snapshotSent = some s :=
    Option.isSome_iff_exists.mp (by decide +kernel)
  obtain ⟨s, runs⟩ := sent
  have now : ∀ s ∈ run Cluster.threeNodes (fun _ => 0) snapshotSent,
      (s.raft 1).state.matchIndex 3 = some 2 ∧ (s.raft 1).state.role = .leader ∧
      3 ∈ (s.raft 1).peerIds ∧ (s.raft 3).state.currentTerm ≤ (s.raft 1).state.currentTerm := by
    decide +kernel
  obtain ⟨known, role, inPeers, inTerm⟩ := now s runs
  exact ⟨s, runs, known, match_index_sound Cluster.threeNodes Cluster.threeNodes_valid (fun _ => 0)
    snapshotSent s runs (by decide +kernel) 1 (by decide) role 3 inPeers inTerm⟩

/-- Node 1 leads in term 2 and node 2 takes its two entries from one request, and answers it. Then the
request before that one arrives, which has only the first entry. -/
def delayedAppend : List Action :=
  [.electionTimeout 1, .deliverVote ⟨1, 0, 2⟩, .voteReply ⟨1, 0, 2⟩ 0, .countVote 1,
    .deliverVote ⟨1, 1, 2⟩, .voteReply ⟨1, 1, 2⟩ 0, .countVote 1, .propose 1 .normal [120],
    .propose 1 .normal [121], .deliverAppend ⟨1, 2, 2⟩, .appendReply ⟨1, 2, 2⟩ 0,
    .deliverAppend ⟨1, 1, 2⟩].map .raft

/-- **A request that comes late cuts off an entry that the leader knows to be stored.** Leader and peer are
in one term. -/
theorem delayed_append_cuts :
    Cluster.threeNodes.Valid ∧ ∃ s, run Cluster.threeNodes (fun _ => 0) delayedAppend = some s ∧
      (s.raft 1).state.role = .leader ∧ 2 ∈ (s.raft 1).peerIds ∧
      (s.raft 2).state.currentTerm = (s.raft 1).state.currentTerm ∧
      (s.raft 1).state.matchIndex 2 = some 2 ∧ s.stored 2 2 = none ∧ ¬ s.Matches 1 2 := by
  have sent : ∃ s, run Cluster.threeNodes (fun _ => 0) delayedAppend = some s :=
    Option.isSome_iff_exists.mp (by decide +kernel)
  obtain ⟨s, runs⟩ := sent
  have now : ∀ s ∈ run Cluster.threeNodes (fun _ => 0) delayedAppend,
      (s.raft 1).state.role = .leader ∧ 2 ∈ (s.raft 1).peerIds ∧
      (s.raft 2).state.currentTerm = (s.raft 1).state.currentTerm ∧
      (s.raft 1).state.matchIndex 2 = some 2 ∧ s.stored 2 2 = none := by
    decide +kernel
  obtain ⟨role, inPeers, oneTerm, known, cut⟩ := now s runs
  refine ⟨Cluster.threeNodes_valid, s, runs, role, inPeers, oneTerm, known, cut, fun same => ?_⟩
  obtain ⟨entry, -, there⟩ := same 2 known 2 Nat.two_pos le_rfl
  rw [cut] at there
  cases there

end SnapshotCluster

end Rusd
