/-
**What a leader commits.**

The task of an append request raises the commit index of its node to the majority index, whatever the
node has become and whatever term the entry there has. `CommitRule` says what Raft asks of such a step:
the node still leads the term of the request, its entry at the new commit index is of that term, and a
majority of the logs hold that entry.

* `ReplicationInv.held` — an index that a node has committed holds one entry in a majority of the logs.
* `AnsweredInTerm` — what the task has to find: a leader of the term of the request, and among what a
  majority has acknowledged an entry of that term.
* `commit_rule` — in a run in which the tasks find that, every commit keeps to the rule.
-/

import Rusd.Raft.StateMachineSafety

namespace Rusd

open RaftLog

/-! ### What a majority has acknowledged -/

namespace RaftNode

/-- How far the node knows the log of a peer, with the response of one peer taken in. -/
def knownMatch (node : RaftNode) (peer : Nat) (response : AppendEntriesResponse) (id : Nat) : Nat :=
  if id = peer ∧ response.success then response.matchIndex else (node.state.matchIndex id).getD 0

/-- A majority has acknowledged the log up to `n`; the node itself counts up to the index that the task
captured. -/
def Acknowledged (node : RaftNode) (call : AppendCall) (peer : Nat) (response : AppendEntriesResponse)
    (n : Nat) : Prop :=
  (node.peerIds.length + 1) / 2 + 1 ≤
    (node.peerIds.map (node.knownMatch peer response) ++ [call.leaderLastIndex]).countP (n ≤ ·)

/-- The response is taken by a leader of the term of its request; once a majority has acknowledged
anything above the commit index, it has acknowledged an entry of that term. -/
def AnsweredInTerm (node : RaftNode) (call : AppendCall) (peer : Nat)
    (response : AppendEntriesResponse) : Prop :=
  node.state.role = .leader ∧ node.state.currentTerm = call.request.term ∧
    (node.Acknowledged call peer response (node.state.commitIndex + 1) →
      ∃ n ≤ node.log.lastIndex, node.Acknowledged call peer response n ∧
        node.log.termAt n = some node.state.currentTerm)

instance (node : RaftNode) (call : AppendCall) (peer : Nat) (response : AppendEntriesResponse) (n : Nat) :
    Decidable (node.Acknowledged call peer response n) :=
  inferInstanceAs (Decidable (_ ≤ _))

instance (node : RaftNode) (call : AppendCall) (peer : Nat) (response : AppendEntriesResponse) :
    Decidable (node.AnsweredInTerm call peer response) :=
  inferInstanceAs (Decidable (_ ∧ _ ∧ (_ → _)))

variable {node : RaftNode} {call : AppendCall} {peer : Nat} {response : AppendEntriesResponse}

theorem noteAppendReply_matchIndex (node : RaftNode) (peer : Nat) (response : AppendEntriesResponse)
    (id : Nat) : ((noteAppendReply node.state peer response).matchIndex id).getD 0 =
      node.knownMatch peer response id := by
  unfold noteAppendReply knownMatch
  by_cases yes : response.success
  · rw [if_pos yes]
    show ((Function.update node.state.matchIndex peer (some response.matchIndex)) id).getD 0 = _
    by_cases same : id = peer
    · rw [same, Function.update_self, if_pos ⟨rfl, yes⟩]
      rfl
    · rw [Function.update_of_ne same, if_neg fun both => same both.1]
  · rw [if_neg yes, if_neg fun both : id = peer ∧ response.success => yes both.2]
    split
    · rfl
    · rw [RaftState.decrementNextIndex]
      split
      · split <;> rfl
      · rfl

/-- The majority index is the last index that a majority has acknowledged. -/
theorem acknowledged_iff {n : Nat} : node.Acknowledged call peer response n ↔
    n ≤ (noteAppendReply node.state peer response).majorityMatchIndex node.peerIds
      call.leaderLastIndex := by
  rw [RaftState.le_majorityMatchIndex_iff, Acknowledged,
    List.map_congr_left fun id _ => noteAppendReply_matchIndex node peer response id]

end RaftNode

namespace Cluster

variable {config : ClusterConfig} {s next : Cluster} {history : History}

/-! ### What is committed is held by a majority -/

/-- A majority holds the log of a leader up to a committed index. -/
theorem Committed.held (inv : ReplicationInv config s history) {term n : Nat}
    (committed : Committed s.ids history term n) : ∃ voters, Majority s.ids voters ∧
      ∀ voter ∈ voters, (history.leaderLog term).take n <+: (s.raft voter).entries := by
  obtain ⟨voters, major, acked⟩ := committed.majority
  refine ⟨voters, major, fun voter inside => ?_⟩
  rcases (inv.acks.kept voter term n (acked voter inside)).2 with held | ⟨bad, led, after, -, without⟩
  · exact held
  · exact absurd (leader_completeness inv committed bad led after) without

/-- **What a node has committed is held by a majority.** -/
theorem ReplicationInv.held (inv : ReplicationInv config s history) {id n : Nat} (member : id ∈ s.ids)
    (positive : 0 < n) (inside : n ≤ (s.raft id).state.commitIndex) :
    ∃ entry, (s.raft id).log.get n = some entry ∧ ∃ voters, Majority s.ids voters ∧ id ∈ voters ∧
      ∀ voter ∈ voters, (s.raft voter).log.get n = some entry := by
  obtain ⟨within, zero | ⟨term, k, committed, -, reaches, agree⟩⟩ := inv.commits.commit id member
  · omega
  have own : n - 1 < (s.raft id).entries.length := by omega
  set entry := (s.raft id).entries[n - 1] with entryDef
  have stored : (s.raft id).log.get n = some entry := by
    rw [(inv.nodes.holds id member).get_eq positive, List.getElem?_eq_getElem own]
  obtain ⟨voters, major, held⟩ := committed.held inv
  refine ⟨entry, stored, insert id voters, major.insert member, Finset.mem_insert_self id voters,
    fun voter either => ?_⟩
  rcases Finset.mem_insert.mp either with rfl | voted
  · exact stored
  · have among : voter ∈ s.ids := List.mem_toFinset.mp (major.subset voted)
    rw [(inv.nodes.holds voter among).get_eq positive]
    -- both logs begin with the committed prefix
    have here := congrArg (fun part => part[n - 1]?) agree
    simp only [List.getElem?_take_of_lt (show n - 1 < (s.raft id).state.commitIndex by omega)] at here
    obtain ⟨rest, split⟩ := held voter voted
    have long : n - 1 < ((history.leaderLog term).take k).length := by
      have := committed.ends.inside
      rw [List.length_take]
      omega
    rw [← split, List.getElem?_append_left long, List.getElem?_take_of_lt (by omega), here,
      List.getElem?_eq_getElem own]

/-! ### The rule -/

/-- A leader of the term of the request has committed an entry of that term at `n`, which a majority of
the logs hold. -/
structure CommitsByRule (s : Cluster) (id : CallId) (call : AppendCall) (n : Nat) : Prop where
  role : (s.raft id.owner).state.role = .leader
  term : (s.raft id.owner).state.currentTerm = call.request.term
  held : ∃ entry, (s.raft id.owner).log.get n = some entry ∧ entry.term = call.request.term ∧
    ∃ voters, Majority s.ids voters ∧ id.owner ∈ voters ∧
      ∀ voter ∈ voters, (s.raft voter).log.get n = some entry

/-- **The commit rule**, for the step of a response task that raises the commit index. -/
def CommitRule (s : Cluster) (action : Action) : Prop :=
  ∀ id reply call next, action = .appendReply id reply → s.appendCalls id = some call →
    s.step action = some next →
    (s.raft id.owner).state.commitIndex < (next.raft id.owner).state.commitIndex →
    next.CommitsByRule id call (next.raft id.owner).state.commitIndex

/-- The step is safe, and a response is taken in the term of its request. -/
def Answered (s : Cluster) : Action → Prop
  | .appendReply id reply => ∀ call ∈ s.appendCalls id, ∀ response ∈ call.replies[reply]?,
      (s.raft id.owner).AnsweredInTerm call id.peer response
  | action => s.Safe action

instance (s : Cluster) : ∀ action, Decidable (s.Answered action)
  | .appendReply id reply =>
    inferInstanceAs (Decidable (∀ call ∈ s.appendCalls id, ∀ response ∈ call.replies[reply]?, _))
  | .electionTimeout id => inferInstanceAs (Decidable (s.Safe (.electionTimeout id)))
  | .deliverVote id => inferInstanceAs (Decidable (s.Safe (.deliverVote id)))
  | .voteReply id reply => inferInstanceAs (Decidable (s.Safe (.voteReply id reply)))
  | .voteError id => inferInstanceAs (Decidable (s.Safe (.voteError id)))
  | .countVote id => inferInstanceAs (Decidable (s.Safe (.countVote id)))
  | .endCampaign id => inferInstanceAs (Decidable (s.Safe (.endCampaign id)))
  | .heartbeat id => inferInstanceAs (Decidable (s.Safe (.heartbeat id)))
  | .deliverAppend id => inferInstanceAs (Decidable (s.Safe (.deliverAppend id)))
  | .propose id entryType data => inferInstanceAs (Decidable (s.Safe (.propose id entryType data)))
  | .apply id => inferInstanceAs (Decidable (s.Safe (.apply id)))

/-- What a majority is known to have acknowledged is in the leader's log. -/
theorem ReplicationInv.majority_inside (inv : ReplicationInv config s history) (valid : config.Valid)
    {id : CallId} {call : AppendCall} (found : s.appendCalls id = some call)
    {response : AppendEntriesResponse} (received : response ∈ call.replies)
    (role : (s.raft id.owner).state.role = .leader)
    (term : (s.raft id.owner).state.currentTerm = call.request.term) :
    (RaftNode.noteAppendReply (s.raft id.owner).state id.peer response).majorityMatchIndex
      (s.raft id.owner).peerIds call.leaderLastIndex ≤
        (history.leaderLog (s.raft id.owner).term).length := by
  have ok := inv.appends id call found
  have member : id.owner ∈ s.ids := (inv.candidates.led _ _ ok.led).1
  obtain ⟨-, apart, nodup, -⟩ := valid.peerIds (inv.election.ids ▸ member) (s.raft id.owner)
    (inv.election.config id.owner)
  obtain ⟨voters, major, each⟩ := RaftState.majorityMatchIndex_reached
    (RaftNode.noteAppendReply (s.raft id.owner).state id.peer response) apart nodup call.leaderLastIndex
  obtain ⟨voter, voted⟩ := Finset.card_pos.mp ((Nat.succ_pos _).trans_le major.card)
  rcases each voter voted with ⟨-, own⟩ | ⟨inPeers, below⟩
  · have last := ok.last
    rw [← term] at last
    exact own.trans last
  · obtain ⟨⟨n, known, acked⟩, -⟩ := inv.noted found received member role term inPeers
    rw [known, Option.getD_some] at below
    rcases acked with zero | ack
    · omega
    · exact below.trans (inv.sound.acks _ _ _ ack).2

/-- Above an entry of the leader's term, its log has entries of that term only, so the task commits one
of them. -/
theorem ReplicationInv.commitsOwn (inv : ReplicationInv config s history) (valid : config.Valid)
    {id : CallId} {call : AppendCall} (found : s.appendCalls id = some call)
    {response : AppendEntriesResponse} (received : response ∈ call.replies)
    (answered : (s.raft id.owner).AnsweredInTerm call id.peer response) :
    (s.raft id.owner).CommitsOwn call id.peer response := by
  obtain ⟨role, term, own⟩ := answered
  refine ⟨role, term, ?_⟩
  intro index raises
  have member : id.owner ∈ s.ids := (inv.candidates.led _ _ (inv.appends id call found).led).1
  have holds := inv.nodes.holds id.owner member
  have log := inv.nodes.leading id.owner member role
  have led : history.Led (s.raft id.owner).term := ⟨_, inv.election.leader id.owner member role⟩
  obtain ⟨n, -, acknowledged, ownTerm⟩ := own (RaftNode.acknowledged_iff.mpr raises)
  have below : n ≤ index := RaftNode.acknowledged_iff.mp acknowledged
  have inside : index ≤ (history.leaderLog (s.raft id.owner).term).length :=
    inv.majority_inside valid found received role term
  have positive : 0 < n := by
    rcases Nat.eq_zero_or_pos n with zero | positive
    · rw [zero, RaftLog.termAt, if_pos rfl] at ownTerm
      have := inv.sound.positive _ led
      rw [RaftNode.term, ← Option.some.inj ownTerm] at this
      exact absurd this (lt_irrefl 0)
    · exact positive
  rw [holds.termAt_eq positive, log] at ownTerm
  obtain ⟨entry, here, entryTerm⟩ := Option.map_eq_some_iff.mp ownTerm
  -- the entry is not one of those that the leader was elected with
  have after : (history.base (s.raft id.owner).term).length ≤ n - 1 := by
    by_contra before
    push Not at before
    obtain ⟨rest, split⟩ := inv.sound.base _ led
    rw [← split, List.getElem?_append_left before] at here
    have earlier := inv.sound.earlier _ led entry (List.mem_of_getElem? here)
    rw [entryTerm] at earlier
    exact earlier.false
  have last : index - 1 < (history.leaderLog (s.raft id.owner).term).length := by omega
  rw [holds.termAt_eq (positive.trans_le below), log, List.getElem?_eq_getElem last]
  exact congrArg some (inv.sound.own _ led (index - 1) _ (by omega) (List.getElem?_eq_getElem last))

/-- A step that meets the condition is safe. -/
theorem ReplicationInv.safe (inv : ReplicationInv config s history) (valid : config.Valid)
    {action : Action} (answered : s.Answered action) : s.Safe action := by
  cases action with
  | appendReply id reply =>
    exact ⟨trivial, fun call found response received =>
      inv.commitsOwn valid found (List.mem_of_getElem? received) (answered call found response received)⟩
  | _ => exact answered

/-- **A response task keeps to the commit rule.** -/
theorem ReplicationInv.commitRule (inv : ReplicationInv config s history) (valid : config.Valid)
    {action : Action} (answered : s.Answered action) : s.CommitRule action := by
  rintro id reply call next rfl found moves raises
  rw [Cluster.step, found] at moves
  dsimp only at moves
  split at moves
  case h_2 => cases moves
  case h_1 response received =>
    split at moves
    case isTrue => cases moves
    case isFalse =>
      cases moves
      have own := inv.commitsOwn valid found (List.mem_of_getElem? received)
        (answered call found response received)
      have after := inv.appendReply valid found (List.mem_of_getElem? received) own
      have member : id.owner ∈ s.ids := (inv.candidates.led _ _ (inv.appends id call found).led).1
      have now : (s.appendReply id call response).raft id.owner =
          (s.raft id.owner).handleAppendReply id.peer call.leaderLastIndex response :=
        setRaft_raft_self ..
      obtain ⟨role, term, ownTerm⟩ := own
      obtain ⟨-, log, -⟩ := RaftNode.handleAppendReply_beside (s.raft id.owner) id.peer
        call.leaderLastIndex response
      have noted := RaftNode.noteAppendReply_ballot (s.raft id.owner).state id.peer response
      rw [now] at raises
      rcases RaftNode.handleAppendReply_cases (s.raft id.owner) id.peer call.leaderLastIndex response
        with ⟨above, state⟩ | ⟨-, kept⟩
      · obtain ⟨entry, stored, voters, major, counted, held⟩ := after.held member
          ((Nat.zero_le _).trans_lt (now ▸ raises)) le_rfl
        refine ⟨?_, ?_, entry, stored, ?_, voters, major, counted, held⟩
        · rw [now, state]
          exact noted.2.2.1.trans role
        · rw [now, state]
          exact noted.1.trans term
        · have there := ownTerm above
          rw [now, log, state] at stored
          have positive := (Nat.zero_le (s.raft id.owner).state.commitIndex).trans_lt above
          have first := (inv.nodes.holds id.owner member).first
          rw [RaftLog.termAt, if_neg positive.ne', if_neg (by rw [first]; omega)] at there
          have same : some entry.term = some (s.raft id.owner).state.currentTerm := by
            rw [← there]
            exact (congrArg (Option.map (·.term)) stored).symm
          exact (Option.some.inj same).trans term
      · rw [kept, noted.2.2.2] at raises
        exact absurd raises (lt_irrefl _)

/-! ### A cluster of one node -/

/-- **A cluster of one node sends nothing.** -/
structure Lone (config : ClusterConfig) (s : Cluster) : Prop where
  ids : s.ids = config.ids
  config : ∀ id, (s.raft id).config = config.configs id
  votes : ∀ call, s.voteCalls call = none
  appends : ∀ call, s.appendCalls call = none
  campaign : ∀ id, (s.members id).campaign = none

section Lone

variable {id : Nat}

theorem Lone.peerIds (lone : Lone config s) (valid : config.Valid) (one : config.ids.length < 2)
    (member : id ∈ s.ids) (node : RaftNode) (own : node.config = config.configs id) :
    node.peerIds = [] := by
  obtain ⟨-, -, -, perm⟩ := valid.peerIds (lone.ids ▸ member) node own
  have size := perm.length_eq
  rw [List.length_cons] at size
  exact List.eq_nil_of_length_eq_zero (by omega)

theorem Lone.setRaft (lone : Lone config s) {node : RaftNode} (own : node.config = config.configs id) :
    Lone config (s.setRaft id node) := by
  refine ⟨lone.ids, fun i => ?_, lone.votes, lone.appends, fun i => ?_⟩
  · by_cases same : i = id
    · rw [same, setRaft_raft_self, own]
    · rw [setRaft_raft_of_ne _ _ same]
      exact lone.config i
  · rw [setRaft_campaign]
    exact lone.campaign i

theorem Lone.sendHeartbeats (lone : Lone config s) (valid : config.Valid)
    (one : config.ids.length < 2) (member : id ∈ s.ids) : Lone config (s.sendHeartbeats id) := by
  refine ⟨?_, fun i => ?_, fun call => ?_, fun call => ?_, fun i => ?_⟩
  · rw [sendHeartbeats_ids]
    exact lone.ids
  · rw [sendHeartbeats_raft]
    exact lone.config i
  · rw [sendHeartbeats_voteCalls]
    exact lone.votes call
  · cases sent : (s.sendHeartbeats id).appendCalls call with
    | none => rfl
    | some new =>
      rcases sendHeartbeats_found sent with old | ⟨-, -, inPeers, -⟩
      · rw [lone.appends] at old
        cases old
      · rw [lone.peerIds valid one member _ (lone.config id)] at inPeers
        cases inPeers
  · rw [sendHeartbeats_campaign]
    exact lone.campaign i

theorem Lone.startRealElection (lone : Lone config s) (valid : config.Valid)
    (one : config.ids.length < 2) (member : id ∈ s.ids) : Lone config (s.startRealElection id) := by
  have own : (s.raft id).startRealElection.1.config = config.configs id := lone.config id
  rw [Cluster.startRealElection]
  dsimp only
  rw [lone.peerIds valid one member (s.raft id).startRealElection.1 own, List.isEmpty_nil, if_pos rfl,
    Cluster.becomeLeader]
  refine Lone.sendHeartbeats (Lone.setRaft (lone.setRaft own) ?_) valid one member
  rw [setRaft_raft_self]
  exact own

theorem Lone.startElection (lone : Lone config s) (valid : config.Valid)
    (one : config.ids.length < 2) (member : id ∈ s.ids) : Lone config (s.startElection id) := by
  have own : (s.raft id).startPreVote.1.config = config.configs id := lone.config id
  have real := lone.startRealElection valid one member
  have preVote : Lone config (s.startPreVote id) := by
    rw [Cluster.startPreVote]
    dsimp only
    rw [lone.peerIds valid one member (s.raft id).startPreVote.1 own, List.isEmpty_nil, if_pos rfl]
    exact (lone.setRaft own).startRealElection valid one member
  rw [Cluster.startElection]
  split
  · split
    · exact preVote
    · exact real
  · split
    · exact preVote
    · exact real
  · exact real
  · exact lone

theorem Lone.step (lone : Lone config s) (valid : config.Valid) (one : config.ids.length < 2)
    {action : Action} (moves : s.step action = some next) : Lone config next := by
  cases step_moves moves with
  | electionTimeout id member idle => exact lone.startElection valid one member
  | heartbeat id member idle leads => exact lone.sendHeartbeats valid one member
  | propose id entryType data member leads =>
    have own : ((s.raft id).propose entryType data).config = config.configs id := lone.config id
    exact (lone.setRaft own).sendHeartbeats valid one member
  | apply id member idle => exact lone.setRaft (lone.config id)
  -- no call is under way, and no vote is counted
  | deliverVote id call found => exact nomatch (lone.votes id).symm.trans found
  | voteReply id reply call response found received pending =>
    exact nomatch (lone.votes id).symm.trans found
  | voteError id call found pending => exact nomatch (lone.votes id).symm.trans found
  | countVote id campaign granted rest running votes =>
    exact nomatch (lone.campaign id).symm.trans running
  | endCampaign id campaign running => exact nomatch (lone.campaign id).symm.trans running
  | deliverAppend id call found => exact nomatch (lone.appends id).symm.trans found
  | appendReply id reply call response found received pending =>
    exact nomatch (lone.appends id).symm.trans found

theorem Lone.start (config : ClusterConfig) : Lone config (Cluster.start config) :=
  ⟨rfl, fun _ => rfl, fun _ => rfl, fun _ => rfl, fun _ => rfl⟩

end Lone

/-! ### Over a whole run -/

/-- **The commit rule along a run.** -/
theorem commit_rule (config : ClusterConfig) (valid : config.Valid) (actions : List Action)
    (answered : Along step Answered (start config) actions) :
    Along step CommitRule (start config) actions := by
  rcases Nat.lt_or_ge config.ids.length 2 with one | two
  · have gives : ∀ s action, Lone config s → Answered s action → CommitRule s action := by
      rintro s action lone - id reply call next rfl found
      rw [lone.appends] at found
      cases found
    exact Along.of_invariant (fun s action next moves _ lone => lone.step valid one moves) gives
      (.start config) answered
  · have keeps : ∀ s action next, step s action = some next → Answered s action →
        (∃ history, ReplicationInv config s history) →
        ∃ history, ReplicationInv config next history := by
      rintro s action next moves answered ⟨history, inv⟩
      exact inv.step valid two moves (inv.safe valid answered)
    refine Along.of_invariant keeps ?_ ⟨_, ReplicationInv.start valid two⟩ answered
    rintro s action ⟨history, inv⟩ answered
    exact inv.commitRule valid answered

/-- In the run that replicates one entry, the leader commits it by the rule. -/
theorem replicated_by_rule :
    (run threeNodes replicated).map (fun s => (s.raft 1).state.commitIndex) = some 1 ∧
      Along step CommitRule (start threeNodes) replicated :=
  ⟨by decide +kernel, commit_rule threeNodes threeNodes_valid replicated (by decide +kernel)⟩

/-! ### A response after stepping down -/

/-- Node 1 leads term 2 and node 2 accepts its entry; then a vote request of node 3 takes node 1 to term
3. -/
def steppedDown : List Action :=
  [.electionTimeout 1, .deliverVote ⟨1, 0, 2⟩, .voteReply ⟨1, 0, 2⟩ 0, .countVote 1,
    .deliverVote ⟨1, 1, 2⟩, .voteReply ⟨1, 1, 2⟩ 0, .countVote 1,
    .propose 1 .normal [120], .deliverAppend ⟨1, 1, 2⟩,
    .electionTimeout 3, .endCampaign 3, .electionTimeout 3, .endCampaign 3,
    .electionTimeout 3, .endCampaign 3, .electionTimeout 3, .deliverVote ⟨3, 3, 1⟩]

/-- **A follower commits.** The response of node 2 arrives at a node that leads no more. -/
theorem stepped_down_commits :
    threeNodes.Valid ∧ Along step Answered (start threeNodes) steppedDown ∧
      ¬ Along step CommitRule (start threeNodes) (steppedDown ++ [.appendReply ⟨1, 1, 2⟩ 0]) := by
  refine ⟨threeNodes_valid, by decide +kernel, fun along => ?_⟩
  have runs : (run threeNodes steppedDown).isSome := by decide +kernel
  obtain ⟨s, runs⟩ := Option.isSome_iff_exists.mp runs
  have late : ∀ s ∈ run threeNodes steppedDown, (s.appendCalls ⟨1, 1, 2⟩).isSome ∧
      (s.step (.appendReply ⟨1, 1, 2⟩ 0)).isSome ∧
      ∀ next ∈ s.step (.appendReply ⟨1, 1, 2⟩ 0),
        (s.raft 1).state.commitIndex < (next.raft 1).state.commitIndex ∧
        (next.raft 1).state.role = .follower := by
    decide +kernel
  obtain ⟨called, moved, raised⟩ := late s runs
  obtain ⟨call, found⟩ := Option.isSome_iff_exists.mp called
  obtain ⟨next, moves⟩ := Option.isSome_iff_exists.mp moved
  obtain ⟨above, role⟩ := raised next moves
  have rule := (along.last runs ⟨1, 1, 2⟩ 0 call next rfl found moves above).role
  rw [role] at rule
  cases rule

end Cluster

end Rusd
