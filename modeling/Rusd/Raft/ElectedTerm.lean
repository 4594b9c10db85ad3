/-
**The term of an elected leader.**

`start_real_election` stores the term its requests carry, and then calls `become_candidate`, which moves
the node one term further. So a node is never a candidate in the term it asks votes for: from the moment
the requests are sent it is one ahead, and it leads a term for which nobody voted.

* `step_campaign` — where the counting loop of a node comes from.
* `launched_ahead` — in every run, a node that counts votes began to do so in the term after its
  requests'.
* `leader_not_in_its_term` — so no election makes a leader of the term that was voted on.
-/

import Rusd.Raft.Election

namespace Rusd

namespace Cluster

variable {s t next : Cluster} {id i : Nat}

/-! ### Where a counting loop comes from -/

/-- The counting loop of a node after a step: the same one, or that of a pre-vote, or of an election
whose node is one term ahead of its requests. -/
def Counts (s next : Cluster) (id : Nat) : Prop :=
  ∀ campaign, (next.members id).campaign = some campaign →
    (∃ old, (s.members id).campaign = some old ∧ old.number = campaign.number ∧
      old.request = campaign.request) ∨
    campaign.request.preVote = true ∨
    (next.raft id).state.currentTerm = campaign.request.term + 1

/-- A step that keeps the counting loops, or ends some. -/
theorem Counts.of_kept (kept : ∀ id campaign, (next.members id).campaign = some campaign →
    ∃ old, (s.members id).campaign = some old ∧ old.number = campaign.number ∧
      old.request = campaign.request) : Counts s next id :=
  fun campaign running => .inl (kept id campaign running)

theorem Counts.of_same (same : ∀ id, (next.members id).campaign = (s.members id).campaign) :
    Counts s next id :=
  fun campaign running => .inl ⟨campaign, (same id).symm.trans running, rfl, rfl⟩

/-- A step that only ends counting loops, before one that counts. -/
theorem Counts.after (ends : ∀ id campaign, (t.members id).campaign = some campaign →
    (s.members id).campaign = some campaign) (counts : Counts t next id) : Counts s next id := by
  intro campaign running
  rcases counts campaign running with ⟨old, before, number, request⟩ | rest
  · exact .inl ⟨old, ends id old before, number, request⟩
  · exact .inr rest

theorem becomeLeader_campaign : ((s.becomeLeader i).members id).campaign = (s.members id).campaign := by
  rw [becomeLeader, sendHeartbeats_campaign, setRaft_campaign]

/-- A new counting loop. -/
theorem Counts.launch {node : RaftNode} {request : RequestVoteRequest}
    (ahead : request.preVote = true ∨ node.state.currentTerm = request.term + 1) :
    Counts s (s.launch i node request) id := by
  intro campaign running
  rw [Cluster.launch] at running
  dsimp only at running
  by_cases here : id = i
  · subst here
    rw [Function.update_self] at running
    cases running
    rcases ahead with preVote | ahead
    · exact .inr (.inl preVote)
    · refine .inr (.inr ?_)
      rw [raft, Cluster.launch]
      dsimp only
      rw [Function.update_self]
      exact ahead
  · rw [Function.update_of_ne here] at running
    exact .inl ⟨campaign, running, rfl, rfl⟩

theorem Counts.startRealElection : Counts s (s.startRealElection i) id := by
  rw [Cluster.startRealElection]
  dsimp only
  split
  · exact .of_same fun id => by rw [becomeLeader_campaign, setRaft_campaign]
  · exact .launch (.inr rfl)

theorem Counts.startPreVote : Counts s (s.startPreVote i) id := by
  rw [Cluster.startPreVote]
  dsimp only
  split
  · exact Counts.after (fun id campaign running => by rwa [setRaft_campaign] at running)
      .startRealElection
  · exact .launch (.inl rfl)

theorem Counts.startElection : Counts s (s.startElection i) id := by
  rw [Cluster.startElection]
  split
  · split
    · exact .startPreVote
    · exact .startRealElection
  · split
    · exact .startPreVote
    · exact .startRealElection
  · exact .startRealElection
  · exact .of_same fun _ => rfl

/-- A vote joins the counting loop it is for. -/
theorem castVote_campaign {member : Member} {number : Nat} {granted : Bool} {campaign : Campaign}
    (running : (castVote member number granted).campaign = some campaign) :
    ∃ old, member.campaign = some old ∧ old.number = campaign.number ∧
      old.request = campaign.request := by
  rw [castVote] at running
  split at running
  case h_1 none =>
    rw [none] at running
    cases running
  case h_2 old before =>
    split at running
    · cases running
      exact ⟨old, before, rfl, rfl⟩
    · exact ⟨campaign, running, rfl, rfl⟩

theorem Counts.castVote {member : Member} {number : Nat} {granted : Bool}
    (members : next.members = (s.setMember i (castVote member number granted)).members)
    (same : member.campaign = (s.members i).campaign) :
    Counts s next id := by
  refine .of_kept fun id campaign running => ?_
  rw [members] at running
  by_cases here : id = i
  · subst here
    rw [setMember_members_self] at running
    rw [← same]
    exact castVote_campaign running
  · rw [setMember_members_of_ne _ _ here] at running
    exact ⟨campaign, running, rfl, rfl⟩

/-- A counting loop that ends leaves the others. -/
theorem ended_campaign {campaign : Campaign}
    (running : ((s.setMember i { s.members i with campaign := none }).members id).campaign =
      some campaign) : (s.members id).campaign = some campaign := by
  by_cases here : id = i
  · subst here
    rw [setMember_members_self] at running
    cases running
  · rwa [setMember_members_of_ne _ _ here] at running

theorem Counts.countVote {campaign : Campaign} {granted : Bool} {rest : List Bool}
    (running : (s.members i).campaign = some campaign) :
    Counts s (s.countVote i campaign granted rest) id := by
  rw [Cluster.countVote]
  dsimp only
  generalize (if granted = true then campaign.voteCount + 1 else campaign.voteCount) = voteCount
  have ends : ∀ id c, ((s.setMember i { s.members i with campaign := none }).members id).campaign =
      some c → (s.members id).campaign = some c := fun id c running => ended_campaign running
  split
  · split
    · exact Counts.after ends .startRealElection
    · exact Counts.after ends (.of_same fun id => becomeLeader_campaign)
  · refine .of_kept fun id c now => ?_
    by_cases here : id = i
    · subst here
      rw [setMember_members_self] at now
      cases now
      exact ⟨campaign, running, rfl, rfl⟩
    · rw [setMember_members_of_ne _ _ here] at now
      exact ⟨c, now, rfl, rfl⟩

/-- **Where the counting loop of a node comes from**, whatever the step. -/
theorem step_campaign {action : Action} (moves : s.step action = some next) : Counts s next id := by
  cases step_moves moves with
  | electionTimeout i member idle => exact .startElection
  | deliverVote caller call found => exact .of_same fun id => setRaft_campaign ..
  | voteReply caller reply call response found received pending => exact .castVote rfl rfl
  | voteError caller call found pending => exact .castVote rfl rfl
  | countVote i campaign granted rest running votes => exact .countVote running
  | endCampaign i campaign running =>
    exact .of_kept fun id campaign running => ⟨campaign, ended_campaign running, rfl, rfl⟩
  | heartbeat i member idle leads => exact .of_same fun id => sendHeartbeats_campaign ..
  | deliverAppend caller call found => exact .of_same fun id => setRaft_campaign ..
  | appendReply caller reply call response found received pending =>
    exact .of_same fun id => setRaft_campaign ..
  | propose i entryType data member leads =>
    exact .of_same fun id => by rw [sendHeartbeats_campaign, setRaft_campaign]
  | apply i member idle => exact .of_same fun id => setRaft_campaign ..

/-! ### Over a whole run -/

/-- **An election begins one term ahead of its requests.** -/
theorem launched_ahead {config : ClusterConfig} (actions : List Action) :
    ∀ {s : Cluster} {campaign : Campaign}, run config actions = some s →
      (s.members id).campaign = some campaign → campaign.request.preVote = false →
      ∃ n ≤ actions.length, ∃ u old, run config (actions.take n) = some u ∧
        (u.members id).campaign = some old ∧ old.number = campaign.number ∧
        (u.raft id).state.currentTerm = campaign.request.term + 1 := by
  induction actions using List.reverseRecOn with
  | nil =>
    intro s campaign runs running
    cases runs
    cases running
  | append_singleton actions action ih =>
    intro s campaign runs running real
    obtain ⟨before, reaches, moves⟩ := runFrom_concat runs
    rcases step_campaign moves campaign running with ⟨old, running', number, request⟩ | preVote | ahead
    · obtain ⟨n, within, u, first, runs', running'', number', ahead⟩ :=
        ih reaches running' (by rw [request]; exact real)
      refine ⟨n, by rw [List.length_append]; omega, u, first, ?_, running'', number'.trans number,
        by rw [← request]; exact ahead⟩
      rw [List.take_append_of_le_length within]
      exact runs'
    · rw [real] at preVote
      cases preVote
    · exact ⟨_, le_rfl, s, campaign, by rw [List.take_length]; exact runs, running, rfl, ahead⟩

/-- The counting loop of a real election wins with its next vote. -/
def Wins (s : Cluster) (id : Nat) (campaign : Campaign) : Prop :=
  (s.members id).campaign = some campaign ∧ campaign.request.preVote = false ∧
    campaign.votes ≠ [] ∧ (s.raft id).majority ≤ campaign.nextCount

/-- **The node leads the term it was elected for**: its term is that of the requests whose answers it
counted, it has been a candidate in that term ever since, and a majority voted for it in that term. -/
def LeadsItsTerm (config : ClusterConfig) (actions : List Action) (s next : Cluster) (id : Nat)
    (campaign : Campaign) : Prop :=
  (next.raft id).state.currentTerm = campaign.request.term ∧
  (∀ n ≤ actions.length, ∀ u old, run config (actions.take n) = some u →
    (u.members id).campaign = some old → old.number = campaign.number →
      (u.raft id).state.role = .candidate ∧
        (u.raft id).state.currentTerm = campaign.request.term) ∧
  ∃ voters, Majority config.ids voters ∧
    ∀ voter ∈ voters, Voted s.voteCalls voter campaign.request.term id

/-- **No election makes a leader of the term that was voted on.** Whatever the run, a node that wins an
election becomes leader, and does not lead the term it was elected for. -/
theorem leader_not_in_its_term (config : ClusterConfig) (actions : List Action) (s next : Cluster)
    (id : Nat) (campaign : Campaign) (runs : run config actions = some s) (wins : s.Wins id campaign)
    (counts : s.step (.countVote id) = some next) :
    (next.raft id).state.role = .leader ∧ ¬ LeadsItsTerm config actions s next id campaign := by
  obtain ⟨running, real, pending, enough⟩ := wins
  refine ⟨?_, fun leads => ?_⟩
  · obtain ⟨granted, rest, votes⟩ := List.exists_cons_of_ne_nil pending
    rw [step, running] at counts
    simp only [votes, Option.some.injEq] at counts
    simp only [Campaign.nextCount, votes, List.head?_cons, Option.some.injEq] at enough
    rw [countVote, if_pos enough, if_neg (by rw [real]; exact Bool.false_ne_true)] at counts
    rw [← counts, becomeLeader, sendHeartbeats_raft, setRaft_raft_self]
    rfl
  · obtain ⟨n, within, u, old, reaches, running', number, ahead⟩ := launched_ahead actions runs running real
    have stands := (leads.2.1 n within u old reaches running' number).2
    omega

/-- Node 1 asks for votes in term 1 and has one vote in its channel. -/
def oneVoteAway : List Action :=
  [.electionTimeout 1, .deliverVote ⟨1, 0, 2⟩, .voteReply ⟨1, 0, 2⟩ 0, .countVote 1,
    .deliverVote ⟨1, 1, 2⟩, .voteReply ⟨1, 1, 2⟩ 0]

/-- The campaign of node 1, with its vote. -/
def campaignOfOne : Campaign := ⟨1, ⟨1, 1, 0, 0, false⟩, 1, [true]⟩

/-- **The requests carry term 1, and the node that wins with them leads in term 2.** -/
theorem elected_for_one_leads_two :
    threeNodes.Valid ∧ ∃ s next, run threeNodes oneVoteAway = some s ∧ s.Wins 1 campaignOfOne ∧
      s.step (.countVote 1) = some next ∧ (next.raft 1).state.role = .leader ∧
      (next.raft 1).state.currentTerm = 2 ∧
      ¬ LeadsItsTerm threeNodes oneVoteAway s next 1 campaignOfOne := by
  refine ⟨threeNodes_valid, _, _, rfl, ?_, rfl, rfl, rfl, fun leads => ?_⟩
  · exact ⟨rfl, rfl, by decide, by decide +kernel⟩
  · exact absurd leads.1 (by decide +kernel)

theorem elected_for_one_not_in_its_term :
    ∃ s next, run threeNodes oneVoteAway = some s ∧ s.Wins 1 campaignOfOne ∧
      s.step (.countVote 1) = some next ∧ (next.raft 1).state.role = .leader ∧
      ¬ LeadsItsTerm threeNodes oneVoteAway s next 1 campaignOfOne := by
  have wins : ∀ s, run threeNodes oneVoteAway = some s → s.Wins 1 campaignOfOne := by
    intro s runs
    cases runs
    exact ⟨rfl, rfl, by decide, by decide +kernel⟩
  have ends : ((run threeNodes oneVoteAway).bind (·.step (.countVote 1))).isSome = true := by
    decide +kernel
  obtain ⟨next, both⟩ := Option.isSome_iff_exists.mp ends
  obtain ⟨s, runs, counts⟩ := Option.bind_eq_some_iff.mp both
  exact ⟨s, next, runs, wins s runs, counts,
    leader_not_in_its_term threeNodes oneVoteAway s next 1 campaignOfOne runs (wins s runs) counts⟩

end Cluster

end Rusd
