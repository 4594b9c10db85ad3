/-
**Election safety.**

A vote request carries the term that `set_term` stored, and its sender moves one further: a candidate
that asks for votes in term `q` leads in term `q + 1`. The votes of one term go to one candidate, so
one node leads a term, as long as two things do not happen.

* A node that was counting votes has moved to another term, or has stopped being a candidate, and
  still takes the vote that makes it leader: it then leads a term for which it asked no votes.
* The answer to an old vote request takes its sender back to a term it had left, or makes it forget
  the vote it gave in the current one.

`Timely` says that a step does neither. `Calm` is what every handler does to the ballot of its node
in a timely step, `ElectionInv` what holds between the calls and the nodes, and `election_safety`
follows because two majorities share a voter.
-/

import Rusd.Raft.NodeStep

namespace Rusd

/-! ### The condition on a step -/

/-- The votes of a counting loop once it has taken the next one. -/
def Campaign.nextCount (campaign : Campaign) : Nat :=
  if campaign.votes.head? = some true then campaign.voteCount + 1 else campaign.voteCount

/-- The next vote is counted. -/
theorem Campaign.nextCount_cons {campaign : Campaign} {granted : Bool} {rest : List Bool}
    (votes : campaign.votes = granted :: rest) :
    (if granted then campaign.voteCount + 1 else campaign.voteCount) = campaign.nextCount := by
  rw [nextCount, votes, List.head?_cons]
  simp

/-- The node is still a candidate of the election it asked votes for in `term`. -/
def RaftNode.StandsFor (node : RaftNode) (term : Nat) : Prop :=
  node.state.role = .candidate ∧ node.state.currentTerm = term + 1

instance (node : RaftNode) (term : Nat) : Decidable (node.StandsFor term) :=
  inferInstanceAs (Decidable (_ ∧ _))

/-- The node may step down to `term`: it moves on, or it has not voted for another node. -/
def RaftNode.MayFollow (node : RaftNode) (term : Nat) : Prop :=
  node.state.currentTerm < term ∨
    (node.state.currentTerm = term ∧
      (node.state.votedFor = none ∨ node.state.votedFor = some node.config.id))

instance (node : RaftNode) (term : Nat) : Decidable (node.MayFollow term) :=
  inferInstanceAs (Decidable (_ ∨ _))

namespace Cluster

/-- The vote that wins an election is counted by a candidate of that election. -/
def WinsInTime (s : Cluster) (id : Nat) : Prop :=
  ∀ campaign ∈ (s.members id).campaign, campaign.request.preVote = false →
    campaign.nextCount ≥ (s.raft id).majority → (s.raft id).StandsFor campaign.request.term

/-- The answer to a vote request does not take its sender back. -/
def AnswersInTime (s : Cluster) (id : CallId) (reply : Nat) : Prop :=
  ∀ call ∈ s.voteCalls id, ∀ response ∈ call.replies[reply]?, call.request.preVote = false →
    response.term > call.request.term → (s.raft id.owner).MayFollow response.term

/-- The step is timely. -/
def Timely (s : Cluster) : Action → Prop
  | .countVote id => s.WinsInTime id
  | .voteReply id reply => s.AnswersInTime id reply
  | _ => True

instance (s : Cluster) (id : Nat) : Decidable (s.WinsInTime id) :=
  inferInstanceAs (Decidable (∀ campaign ∈ (s.members id).campaign, _))

instance (s : Cluster) (id : CallId) (reply : Nat) : Decidable (s.AnswersInTime id reply) :=
  inferInstanceAs (Decidable (∀ call ∈ s.voteCalls id, ∀ response ∈ call.replies[reply]?, _))

instance (s : Cluster) : ∀ action, Decidable (s.Timely action)
  | .countVote id => inferInstanceAs (Decidable (s.WinsInTime id))
  | .voteReply id reply => inferInstanceAs (Decidable (s.AnswersInTime id reply))
  | .electionTimeout _ => .isTrue trivial
  | .deliverVote _ => .isTrue trivial
  | .voteError _ => .isTrue trivial
  | .endCampaign _ => .isTrue trivial
  | .heartbeat _ => .isTrue trivial
  | .deliverAppend _ => .isTrue trivial
  | .appendReply _ _ => .isTrue trivial
  | .propose _ _ _ => .isTrue trivial
  | .apply _ => .isTrue trivial

end Cluster

/-! ### What the handlers do to a ballot -/

/-- **A calm change of a node.** Its term does not go back, a vote for another node is not forgotten
within a term, a candidate has voted for itself, and nobody becomes leader. -/
structure Calm (id : Nat) (old new : RaftNode) : Prop where
  config : new.config = old.config
  term : old.state.currentTerm ≤ new.state.currentTerm
  vote : new.state.currentTerm = old.state.currentTerm → new.state.votedFor = old.state.votedFor ∨
    old.state.votedFor = none ∨ old.state.votedFor = some id
  candidate : new.state.role = .candidate → new.state.votedFor = some id ∨
    (old.state.role = .candidate ∧ new.state.votedFor = old.state.votedFor)
  leader : new.state.role = .leader →
    old.state.role = .leader ∧ new.state.currentTerm = old.state.currentTerm

section Ballot

variable {id : Nat} {node new : RaftNode}

/-- A change elsewhere than in the ballot. -/
theorem Calm.of_same (config : new.config = node.config)
    (term : new.state.currentTerm = node.state.currentTerm)
    (votedFor : new.state.votedFor = node.state.votedFor) (role : new.state.role = node.state.role) :
    Calm id node new :=
  ⟨config, term.ge, fun _ => .inl votedFor, fun candidate => .inr ⟨role ▸ candidate, votedFor⟩,
    fun leader => ⟨role ▸ leader, term⟩⟩

theorem Calm.refl (id : Nat) (node : RaftNode) : Calm id node node := Calm.of_same rfl rfl rfl rfl

/-- Stepping down for a later term. -/
theorem Calm.becomeFollower {term : Nat} (later : node.state.currentTerm < term) :
    Calm id node { node with state := node.state.becomeFollower term } where
  config := rfl
  term := later.le
  vote same := absurd same later.ne'
  candidate role := by cases role
  leader role := by cases role

namespace RaftNode

theorem startPreVote_calm : Calm id node node.startPreVote.1 where
  config := rfl
  term := le_rfl
  vote _ := .inl rfl
  candidate role := by cases role
  leader role := by cases role

theorem startRealElection_calm (own : node.config.id = id) :
    Calm id node node.startRealElection.1 where
  config := rfl
  term := Nat.le_add_right _ 2
  vote same := absurd same (by show node.state.currentTerm + 1 + 1 ≠ _; omega)
  candidate _ := .inl (by rw [← own]; rfl)
  leader role := by cases role

theorem handleVoteReply_calm (own : node.config.id = id) {request : RequestVoteRequest}
    {response : RequestVoteResponse}
    (timely : request.preVote = false → response.term > request.term →
      node.MayFollow response.term) :
    Calm id node (node.handleVoteReply request response) := by
  rw [handleVoteReply]
  split
  case isFalse => exact Calm.refl id node
  case isTrue late =>
    rcases timely (by simpa using late.1) late.2 with later | ⟨same, free⟩
    · exact Calm.becomeFollower later
    · refine ⟨rfl, same.le, fun _ => .inr (own ▸ free), fun role => ?_, fun role => ?_⟩
      · cases role
      · cases role

theorem observeTerm_log (node : RaftNode) (term : Nat) : (node.observeTerm term).log = node.log := by
  rw [observeTerm]
  split <;> rfl

theorem observeTerm_calm (id : Nat) (node : RaftNode) (term : Nat) :
    Calm id node (node.observeTerm term) := by
  rw [observeTerm]
  split
  · exact Calm.becomeFollower ‹_›
  · exact Calm.refl id node

/-- A node that is not ahead of a term is at that term after observing it. -/
theorem observeTerm_term {term : Nat} (behind : node.state.currentTerm ≤ term) :
    (node.observeTerm term).state.currentTerm = term := by
  rw [observeTerm]
  split
  · rfl
  · exact le_antisymm behind (Nat.le_of_not_lt ‹_›)

/-- **What `handle_request_vote` does**: refuse, or observe the term and answer; a vote that is granted
and is no pre-vote is given by a node at the term of the request, whose log the candidate's reaches. -/
theorem handleRequestVote_cases (node : RaftNode) (request : RequestVoteRequest) :
    (request.term < node.state.currentTerm ∧ (node.handleRequestVote request).1 = node ∧
      (node.handleRequestVote request).2.voteGranted = false) ∨
    (node.state.currentTerm ≤ request.term ∧
      (node.handleRequestVote request).1 = node.observeTerm request.term ∧
      ((node.handleRequestVote request).2.voteGranted = true → request.preVote = true)) ∨
    (node.state.currentTerm ≤ request.term ∧
      ((node.observeTerm request.term).state.votedFor = none ∨
        (node.observeTerm request.term).state.votedFor = some request.candidateId) ∧
      (node.observeTerm request.term).logOk request = true ∧
      (node.handleRequestVote request).1 = { node.observeTerm request.term with
        state := (node.observeTerm request.term).state.voteFor request.candidateId }) := by
  rw [handleRequestVote]
  dsimp only
  split
  case isTrue late => exact .inl ⟨late, rfl, rfl⟩
  case isFalse inTime =>
    refine .inr ?_
    have behind := Nat.le_of_not_lt inTime
    split
    case isTrue grants =>
      obtain ⟨granted, -⟩ := grants
      rw [decide_eq_true_eq] at granted
      exact .inr ⟨behind, granted.1, granted.2, rfl⟩
    case isFalse refuses =>
      refine .inl ⟨behind, rfl, fun granted => ?_⟩
      by_contra real
      exact refuses ⟨granted, real⟩

theorem handleRequestVote_calm (own : node.state.role = .candidate → node.state.votedFor = some id)
    (request : RequestVoteRequest) : Calm id node (node.handleRequestVote request).1 := by
  rcases node.handleRequestVote_cases request with ⟨-, same, -⟩ | ⟨-, same, -⟩ | ⟨-, free, -, same⟩
  · rw [same]
    exact Calm.refl id node
  · rw [same]
    exact observeTerm_calm id node request.term
  · rw [same]
    have calm := observeTerm_calm id node request.term
    rw [observeTerm] at free calm ⊢
    split at free
    case isTrue later =>
      rw [if_pos later] at calm ⊢
      exact ⟨rfl, calm.term, fun same => absurd same later.ne', fun role => (by cases role),
        fun role => (by cases role)⟩
    case isFalse now =>
      rw [if_neg now]
      refine ⟨rfl, le_rfl, fun _ => ?_, fun role => ?_, fun role => ⟨role, rfl⟩⟩
      · rcases free with free | free
        · exact .inr (.inl free)
        · exact .inl free.symm
      · have self := own role
        rw [self] at free
        rcases free with free | free
        · cases free
        · exact .inl free.symm

/-- An accepted or refused append request leaves the ballot as observing its term does. -/
theorem handleAppendEntries_calm (id : Nat) (node : RaftNode) (request : AppendEntriesRequest) :
    Calm id node (node.handleAppendEntries request).1 := by
  rw [handleAppendEntries]
  dsimp only
  split
  · exact Calm.refl id node
  have calm := observeTerm_calm id node request.term
  split
  · exact ⟨calm.config, calm.term, calm.vote, calm.candidate, calm.leader⟩
  · rw [followCommit]
    split <;> exact ⟨calm.config, calm.term, calm.vote, calm.candidate, calm.leader⟩

theorem handleAppendReply_calm (id : Nat) (node : RaftNode) (peerId leaderLastIndex : Nat)
    (response : AppendEntriesResponse) :
    Calm id node (node.handleAppendReply peerId leaderLastIndex response) := by
  obtain ⟨term, votedFor, role, -⟩ := noteAppendReply_ballot node.state peerId response
  rw [handleAppendReply]
  split <;> exact Calm.of_same rfl term votedFor role

theorem propose_calm (id : Nat) (node : RaftNode) (entryType : EntryType) (data : Bytes) :
    Calm id node (node.propose entryType data) := by
  by_cases alone : node.config.peers.isEmpty
  · exact Calm.of_same rfl (by rw [propose, if_pos alone]; rfl) (by rw [propose, if_pos alone]; rfl)
      (by rw [propose, if_pos alone]; rfl)
  · exact Calm.of_same rfl (by rw [propose, if_neg alone]) (by rw [propose, if_neg alone])
      (by rw [propose, if_neg alone])

theorem applyCommittedEntries_calm (id : Nat) (node : RaftNode) :
    Calm id node node.applyCommittedEntries :=
  Calm.of_same rfl rfl rfl rfl

end RaftNode

end Ballot

namespace Cluster

/-! ### Votes and campaigns -/

/-- The voter granted a vote in the term to the candidate; pre-votes do not count. -/
def Granted (calls : CallId → Option VoteCall) (voter term candidate : Nat) : Prop :=
  ∃ id call, calls id = some call ∧ id.owner = candidate ∧ id.peer = voter ∧
    call.request.preVote = false ∧ call.request.term = term ∧
    ∃ response ∈ call.replies, response.voteGranted = true

/-- The candidate asked for votes in the term. -/
def Campaigned (calls : CallId → Option VoteCall) (candidate term : Nat) : Prop :=
  ∃ id call, calls id = some call ∧ id.owner = candidate ∧ call.request.preVote = false ∧
    call.request.term = term

/-- A candidate votes for itself. -/
def Voted (calls : CallId → Option VoteCall) (voter term candidate : Nat) : Prop :=
  Granted calls voter term candidate ∨ (voter = candidate ∧ Campaigned calls candidate term)

/-- A counting loop has counted, or has in its channel, one vote for each peer whose call granted one
and has ended. -/
structure CampaignInv (s : Cluster) (id : Nat) (campaign : Campaign) : Prop where
  member : id ∈ s.ids
  number : campaign.number < (s.members id).campaigns
  request : ∀ peer call, s.voteCalls ⟨id, campaign.number, peer⟩ = some call →
    call.request = campaign.request
  asked : ∃ peer call, s.voteCalls ⟨id, campaign.number, peer⟩ = some call
  counted : ∃ voters : Finset Nat,
    voters.card + 1 = campaign.voteCount + campaign.votes.count true ∧
    ∀ voter ∈ voters, ∃ call, s.voteCalls ⟨id, campaign.number, voter⟩ = some call ∧
      call.answered = true ∧ ∃ response ∈ call.replies, response.voteGranted = true

/-- **The election invariant**, with the nodes that have led and their terms. -/
structure ElectionInv (config : ClusterConfig) (s : Cluster) (led : Set (Nat × Nat)) : Prop where
  ids : s.ids = config.ids
  config : ∀ id, (s.raft id).config = config.configs id
  call : ∀ id call, s.voteCalls id = some call → id.owner ∈ s.ids ∧ id.peer ∈ s.ids ∧
    id.peer ≠ id.owner ∧ id.number < (s.members id.owner).campaigns ∧
    call.request.candidateId = id.owner
  campaigned : ∀ candidate term, Campaigned s.voteCalls candidate term →
    term < (s.raft candidate).state.currentTerm ∧
    ∀ other, ¬ Granted s.voteCalls candidate term other
  backed : ∀ voter term candidate, Granted s.voteCalls voter term candidate →
    term < (s.raft voter).state.currentTerm ∨
    (term = (s.raft voter).state.currentTerm ∧ (s.raft voter).state.votedFor = some candidate)
  unique : ∀ voter term candidate other, Granted s.voteCalls voter term candidate →
    Granted s.voteCalls voter term other → candidate = other
  candidate : ∀ id ∈ s.ids, (s.raft id).state.role = .candidate →
    (s.raft id).state.votedFor = some id
  campaign : ∀ id campaign, (s.members id).campaign = some campaign → CampaignInv s id campaign
  leader : ∀ id ∈ s.ids, (s.raft id).state.role = .leader →
    (id, (s.raft id).state.currentTerm) ∈ led
  led : ∀ id term, (id, term) ∈ led → 0 < term ∧
    ∃ voters, Majority s.ids voters ∧ ∀ voter ∈ voters, Voted s.voteCalls voter (term - 1) id

variable {config : ClusterConfig} {s next : Cluster} {led : Set (Nat × Nat)}

/-- **One leader for each term**, from the invariant. -/
theorem ElectionInv.led_unique (inv : ElectionInv config s led) {id other term : Nat}
    (leads : (id, term) ∈ led) (leads' : (other, term) ∈ led) : id = other := by
  obtain ⟨-, voters, major, voted⟩ := inv.led id term leads
  obtain ⟨-, voters', major', voted'⟩ := inv.led other term leads'
  obtain ⟨voter, member, member'⟩ := major.inter major'
  rcases voted voter member with grant | ⟨self, asked⟩
  · rcases voted' voter member' with grant' | ⟨self', asked'⟩
    · exact inv.unique voter _ _ _ grant grant'
    · subst self'
      exact absurd grant ((inv.campaigned _ _ asked').2 id)
  · rcases voted' voter member' with grant' | ⟨self', -⟩
    · subst self
      exact absurd grant' ((inv.campaigned _ _ asked).2 other)
    · exact self.symm.trans self'

/-! ### Changes that keep the invariant -/

theorem ElectionInv.granted_ne (inv : ElectionInv config s led) {voter term candidate : Nat}
    (granted : Granted s.voteCalls voter term candidate) : voter ≠ candidate := by
  obtain ⟨id, call, found, owner, peer, -⟩ := granted
  obtain ⟨-, -, ne, -⟩ := inv.call id call found
  rwa [owner, peer] at ne

/-- Calls only grow: a request stays, responses are added, and a task that has ended has ended. -/
def Extends (calls calls' : CallId → Option VoteCall) : Prop :=
  ∀ id call, calls id = some call → ∃ call', calls' id = some call' ∧
    call'.request = call.request ∧ (∀ response ∈ call.replies, response ∈ call'.replies) ∧
    (call.answered = true → call'.answered = true)

section Extends

variable {calls calls' : CallId → Option VoteCall} {voter term candidate : Nat}

theorem Granted.mono (grow : Extends calls calls') (granted : Granted calls voter term candidate) :
    Granted calls' voter term candidate := by
  obtain ⟨id, call, found, owner, peer, real, asked, response, member, yes⟩ := granted
  obtain ⟨call', found', request, replies, -⟩ := grow id call found
  exact ⟨id, call', found', owner, peer, request ▸ real, request ▸ asked, response,
    replies response member, yes⟩

theorem Campaigned.mono (grow : Extends calls calls') (asked : Campaigned calls candidate term) :
    Campaigned calls' candidate term := by
  obtain ⟨id, call, found, owner, real, asked⟩ := asked
  obtain ⟨call', found', request, -, -⟩ := grow id call found
  exact ⟨id, call', found', owner, request ▸ real, request ▸ asked⟩

theorem Voted.mono (grow : Extends calls calls') (voted : Voted calls voter term candidate) :
    Voted calls' voter term candidate :=
  voted.imp (Granted.mono grow) fun ⟨self, asked⟩ => ⟨self, asked.mono grow⟩

end Extends

/-- A campaign stays as it is while calls grow and its own requests stay. -/
theorem CampaignInv.mono {id : Nat} {campaign : Campaign} (inv : CampaignInv s id campaign)
    (ids : next.ids = s.ids) (grow : Extends s.voteCalls next.voteCalls)
    (campaigns : (s.members id).campaigns ≤ (next.members id).campaigns)
    (own : ∀ peer call', next.voteCalls ⟨id, campaign.number, peer⟩ = some call' →
      ∃ call, s.voteCalls ⟨id, campaign.number, peer⟩ = some call ∧ call'.request = call.request) :
    CampaignInv next id campaign where
  member := ids ▸ inv.member
  number := inv.number.trans_le campaigns
  request peer call' found' := by
    obtain ⟨call, found, same⟩ := own peer call' found'
    rw [same, inv.request peer call found]
  asked := by
    obtain ⟨peer, call, found⟩ := inv.asked
    obtain ⟨call', found', -⟩ := grow _ call found
    exact ⟨peer, call', found'⟩
  counted := by
    obtain ⟨voters, count, each⟩ := inv.counted
    refine ⟨voters, count, fun voter member => ?_⟩
    obtain ⟨call, found, answered, response, inside, yes⟩ := each voter member
    obtain ⟨call', found', -, replies, ended⟩ := grow _ call found
    exact ⟨call', found', ended answered, response, replies response inside, yes⟩

theorem Extends.refl (calls : CallId → Option VoteCall) : Extends calls calls :=
  fun _ call found => ⟨call, found, rfl, fun _ member => member, fun answered => answered⟩

/-- Calm changes of the nodes. -/
theorem ElectionInv.calm (inv : ElectionInv config s led) (ids : next.ids = s.ids)
    (calls : next.voteCalls = s.voteCalls)
    (campaign : ∀ id, (next.members id).campaign = (s.members id).campaign)
    (campaigns : ∀ id, (next.members id).campaigns = (s.members id).campaigns)
    (calm : ∀ id, Calm id (s.raft id) (next.raft id)) : ElectionInv config next led where
  ids := ids.trans inv.ids
  config id := (calm id).config.trans (inv.config id)
  call id call found := by
    rw [ids, campaigns]
    exact inv.call id call (calls ▸ found)
  campaigned candidate term asked := by
    rw [calls] at asked ⊢
    obtain ⟨before, none⟩ := inv.campaigned candidate term asked
    exact ⟨before.trans_le (calm candidate).term, none⟩
  backed voter term candidate granted := by
    rw [calls] at granted
    rcases inv.backed voter term candidate granted with before | ⟨now, vote⟩
    · exact .inl (before.trans_le (calm voter).term)
    · rcases (calm voter).term.lt_or_eq with later | same
      · exact .inl (now ▸ later)
      · refine .inr ⟨now.trans same, ?_⟩
        rcases (calm voter).vote same.symm with kept | free | self
        · rw [kept, vote]
        · rw [vote] at free
          cases free
        · rw [vote] at self
          exact absurd (Option.some.inj self).symm (inv.granted_ne granted)
  unique := by
    rw [calls]
    exact inv.unique
  candidate id member role := by
    rw [ids] at member
    rcases (calm id).candidate role with own | ⟨old, kept⟩
    · exact own
    · rw [kept]
      exact inv.candidate id member old
  campaign id current found := by
    rw [campaign] at found
    refine (inv.campaign id current found).mono ids (calls ▸ Extends.refl _) (campaigns id).ge ?_
    intro peer call' found'
    exact ⟨call', calls ▸ found', rfl⟩
  leader id member role := by
    obtain ⟨old, same⟩ := (calm id).leader role
    rw [same]
    exact inv.leader id (ids ▸ member) old
  led := by
    rw [ids, calls]
    exact inv.led

/-- A calm change of one node. -/
theorem ElectionInv.setRaft (inv : ElectionInv config s led) {id : Nat} {node : RaftNode}
    (calm : Calm id (s.raft id) node) : ElectionInv config (s.setRaft id node) led := by
  refine inv.calm rfl rfl (fun i => setRaft_campaign ..) (fun i => setRaft_campaigns ..) fun i => ?_
  by_cases same : i = id
  · rw [same, setRaft_raft_self]
    exact calm
  · rw [setRaft_raft_of_ne _ _ same]
    exact Calm.refl ..

theorem ElectionInv.sendHeartbeats (inv : ElectionInv config s led) (id : Nat) :
    ElectionInv config (s.sendHeartbeats id) led := by
  refine inv.calm (sendHeartbeats_ids ..) (sendHeartbeats_voteCalls ..)
    (fun i => sendHeartbeats_campaign ..) (fun i => sendHeartbeats_campaigns ..) fun i => ?_
  rw [sendHeartbeats_raft]
  exact Calm.refl ..

/-- Replace, or end, the counting loop of a node. -/
theorem ElectionInv.setCampaign (inv : ElectionInv config s led) {id : Nat}
    {campaign : Option Campaign} (counts : ∀ c ∈ campaign, CampaignInv s id c) :
    ElectionInv config (s.setMember id { s.members id with campaign := campaign }) led := by
  set next := s.setMember id { s.members id with campaign := campaign } with nextDef
  have rafts : next.raft = s.raft := setMember_raft rfl
  have campaigns : ∀ i, (next.members i).campaigns = (s.members i).campaigns :=
    setMember_frame Member.campaigns rfl
  refine ⟨inv.ids, fun i => ?_, fun i call found => ?_, fun candidate term asked => ?_,
    fun voter term candidate granted => ?_, inv.unique, fun i member role => ?_,
    fun i current found => ?_, fun i member role => ?_, inv.led⟩
  · rw [rafts, inv.config]
  · rw [campaigns]
    exact inv.call i call found
  · rw [rafts]
    exact inv.campaigned candidate term asked
  · rw [rafts]
    exact inv.backed voter term candidate granted
  · rw [rafts] at role ⊢
    exact inv.candidate i member role
  · have holds : CampaignInv s i current := by
      by_cases same : i = id
      · subst same
        rw [nextDef, setMember_members_self] at found
        exact counts current found
      · rw [nextDef, setMember_members_of_ne _ _ same] at found
        exact inv.campaign i current found
    exact holds.mono rfl (Extends.refl _) (campaigns i).ge fun peer call found => ⟨call, found, rfl⟩
  · rw [rafts] at role ⊢
    exact inv.leader i member role

/-! ### Changes of the calls -/

section Calls

variable {calls : CallId → Option VoteCall} {id : CallId} {call call' : VoteCall}

/-- One call takes a response or ends. -/
theorem Extends.update (found : calls id = some call) (request : call'.request = call.request)
    (replies : ∀ response ∈ call.replies, response ∈ call'.replies)
    (answered : call.answered = true → call'.answered = true) :
    Extends calls (Function.update calls id (some call')) := by
  intro other old found'
  by_cases same : other = id
  · subst same
    rw [found] at found'
    cases found'
    exact ⟨call', Function.update_self .., request, replies, answered⟩
  · exact ⟨old, by rw [Function.update_of_ne same, found'], rfl, fun _ member => member,
      fun ended => ended⟩

/-- The calls that are there after such a change, with the call each one was before. -/
theorem update_found (found : calls id = some call) (request : call'.request = call.request)
    {other : CallId} {new : VoteCall}
    (found' : Function.update calls id (some call') other = some new) :
    ∃ old, calls other = some old ∧ new.request = old.request ∧
      (new = old ∨ (other = id ∧ old = call ∧ new = call')) := by
  by_cases same : other = id
  · subst same
    rw [Function.update_self] at found'
    cases found'
    exact ⟨call, found, request, .inr ⟨rfl, rfl, rfl⟩⟩
  · rw [Function.update_of_ne same] at found'
    exact ⟨new, found', rfl, .inl rfl⟩

theorem Campaigned.of_update (found : calls id = some call)
    (request : call'.request = call.request) {candidate term : Nat}
    (asked : Campaigned (Function.update calls id (some call')) candidate term) :
    Campaigned calls candidate term := by
  obtain ⟨other, new, found', owner, real, asked⟩ := asked
  obtain ⟨old, foundOld, same, -⟩ := update_found found request found'
  exact ⟨other, old, foundOld, owner, same ▸ real, same ▸ asked⟩

/-- A vote that such a change adds is among the new responses of that call. -/
theorem Granted.of_update (found : calls id = some call) (request : call'.request = call.request)
    {voter term candidate : Nat}
    (granted : Granted (Function.update calls id (some call')) voter term candidate) :
    Granted calls voter term candidate ∨
      (candidate = id.owner ∧ voter = id.peer ∧ call.request.preVote = false ∧
        call.request.term = term ∧
        ∃ response ∈ call'.replies, response ∉ call.replies ∧ response.voteGranted = true) := by
  obtain ⟨other, new, found', owner, peer, real, asked, response, member, yes⟩ := granted
  obtain ⟨old, foundOld, same, unchanged | ⟨rfl, rfl, rfl⟩⟩ := update_found found request found'
  · exact .inl ⟨other, old, foundOld, owner, peer, same ▸ real, same ▸ asked, response,
      unchanged ▸ member, yes⟩
  · by_cases before : response ∈ old.replies
    · exact .inl ⟨other, old, foundOld, owner, peer, same ▸ real, same ▸ asked, response, before, yes⟩
    · exact .inr ⟨owner.symm, peer.symm, same ▸ real, same ▸ asked, response, member, before, yes⟩

end Calls

/-- **A response is recorded.** A vote it grants is the vote its node holds in that term. -/
theorem ElectionInv.recordReply (inv : ElectionInv config s led) {id : CallId} {call : VoteCall}
    (found : s.voteCalls id = some call) (response : RequestVoteResponse)
    (backs : response.voteGranted = true → call.request.preVote = false →
      (s.raft id.peer).state.currentTerm = call.request.term ∧
      (s.raft id.peer).state.votedFor = some id.owner) :
    ElectionInv config { s with
      voteCalls := Function.update s.voteCalls id
        (some { call with replies := call.replies ++ [response] }) } led := by
  set call' : VoteCall := { call with replies := call.replies ++ [response] } with callDef
  have request : call'.request = call.request := rfl
  have grow : Extends s.voteCalls (Function.update s.voteCalls id (some call')) :=
    Extends.update found rfl (fun _ member => List.mem_append_left _ member) fun ended => ended
  have back : ∀ {voter term candidate},
      Granted (Function.update s.voteCalls id (some call')) voter term candidate →
      Granted s.voteCalls voter term candidate ∨
        (candidate = id.owner ∧ voter = id.peer ∧
          (s.raft voter).state.currentTerm = term ∧
          (s.raft voter).state.votedFor = some candidate) := by
    intro voter term candidate granted
    rcases Granted.of_update found request granted with
      old | ⟨owner, peer, real, asked, given, member, new, yes⟩
    · exact .inl old
    · rcases List.mem_append.mp member with before | last
      · exact absurd before new
      · rw [List.mem_singleton.mp last] at yes
        obtain ⟨term, vote⟩ := backs yes real
        rw [asked] at term
        rw [owner, peer]
        exact .inr ⟨rfl, rfl, term, vote⟩
  refine ⟨inv.ids, inv.config, fun other new found' => ?_, fun candidate term asked => ?_,
    fun voter term candidate granted => ?_, fun voter term candidate other granted granted' => ?_,
    inv.candidate, fun i current running => ?_, inv.leader, fun i term leads => ?_⟩
  · obtain ⟨old, foundOld, same, -⟩ := update_found found request found'
    rw [same]
    exact inv.call other old foundOld
  · obtain ⟨before, none⟩ := inv.campaigned candidate term (asked.of_update found request)
    refine ⟨before, fun other granted => ?_⟩
    rcases back granted with old | ⟨-, -, now, -⟩
    · exact none other old
    · exact before.ne' now
  · rcases back granted with old | ⟨-, -, now, vote⟩
    · exact inv.backed voter term candidate old
    · exact .inr ⟨now.symm, vote⟩
  · -- an earlier vote of the same term is the one the node still holds
    have holds : ∀ {candidate}, Granted s.voteCalls voter term candidate →
        (s.raft voter).state.currentTerm = term →
        (s.raft voter).state.votedFor = some candidate := by
      intro candidate granted now
      rcases inv.backed voter term candidate granted with before | ⟨-, vote⟩
      · exact absurd now before.ne'
      · exact vote
    rcases back granted with old | ⟨-, -, now, vote⟩
    · rcases back granted' with old' | ⟨-, -, now', vote'⟩
      · exact inv.unique voter term candidate other old old'
      · exact Option.some.inj ((holds old now').symm.trans vote')
    · rcases back granted' with old' | ⟨-, -, now', vote'⟩
      · exact Option.some.inj (vote.symm.trans (holds old' now))
      · exact Option.some.inj (vote.symm.trans vote')
  · refine (inv.campaign i current running).mono rfl grow le_rfl fun peer new found' => ?_
    obtain ⟨old, foundOld, same, -⟩ := update_found found request found'
    exact ⟨old, foundOld, same⟩
  · obtain ⟨positive, voters, major, voted⟩ := inv.led i term leads
    exact ⟨positive, voters, major, fun voter member => (voted voter member).mono grow⟩

/-- The vote of a call that ends goes into the channel of its campaign. -/
theorem CampaignInv.cast {id : CallId} {call : VoteCall} {campaign : Campaign}
    (inv : CampaignInv s id.owner campaign) (found : s.voteCalls id = some call)
    (pending : call.answered = false) (mine : campaign.number = id.number) {granted : Bool}
    (given : granted = true → ∃ response ∈ call.replies, response.voteGranted = true)
    (ids : next.ids = s.ids)
    (calls : next.voteCalls = Function.update s.voteCalls id (some { call with answered := true }))
    (campaigns : (next.members id.owner).campaigns = (s.members id.owner).campaigns) :
    CampaignInv next id.owner { campaign with votes := campaign.votes ++ [granted] } := by
  have request : ({ call with answered := true } : VoteCall).request = call.request := rfl
  have grow : Extends s.voteCalls next.voteCalls := by
    rw [calls]
    exact Extends.update found rfl (fun _ member => member) fun _ => rfl
  have kept := inv.mono ids grow campaigns.ge (by
    intro peer new found'
    rw [calls] at found'
    obtain ⟨old, foundOld, same, -⟩ := update_found found request found'
    exact ⟨old, foundOld, same⟩)
  refine ⟨kept.member, kept.number, kept.request, kept.asked, ?_⟩
  cases granted with
  | false =>
    obtain ⟨voters, count, each⟩ := kept.counted
    refine ⟨voters, ?_, each⟩
    rw [count, List.count_append]
    rfl
  | true =>
    obtain ⟨voters, count, each⟩ := inv.counted
    obtain ⟨-, -, each'⟩ := kept.counted
    have here : (⟨id.owner, campaign.number, id.peer⟩ : CallId) = id := by rw [mine]
    -- the call was still open, so its peer has not been counted
    have fresh : id.peer ∉ voters := by
      intro member
      obtain ⟨old, foundOld, ended, -⟩ := each id.peer member
      rw [here, found] at foundOld
      cases foundOld
      rw [pending] at ended
      cases ended
    refine ⟨insert id.peer voters, ?_, fun voter member => ?_⟩
    · rw [Finset.card_insert_of_notMem fresh, List.count_append, ← Nat.add_assoc, ← count]
      rfl
    · rcases Finset.mem_insert.mp member with rfl | member
      · refine ⟨{ call with answered := true }, ?_, rfl, given rfl⟩
        show next.voteCalls ⟨id.owner, campaign.number, id.peer⟩ = _
        rw [here, calls, Function.update_self]
      · obtain ⟨old, foundOld, ended, response, inside, yes⟩ := each voter member
        obtain ⟨new, foundNew, -, replies, still⟩ := grow _ old foundOld
        exact ⟨new, foundNew, still ended, response, replies response inside, yes⟩

/-- **A call ends**: its task passes a vote on. -/
theorem ElectionInv.answer (inv : ElectionInv config s led) {id : CallId} {call : VoteCall}
    (found : s.voteCalls id = some call) (pending : call.answered = false) (granted : Bool)
    (given : granted = true → ∃ response ∈ call.replies, response.voteGranted = true) :
    ElectionInv config { s.setMember id.owner (castVote (s.members id.owner) id.number granted) with
      voteCalls := Function.update s.voteCalls id (some { call with answered := true }) } led := by
  set next : Cluster := { s.setMember id.owner (castVote (s.members id.owner) id.number granted) with
    voteCalls := Function.update s.voteCalls id (some { call with answered := true }) } with nextDef
  have request : ({ call with answered := true } : VoteCall).request = call.request := rfl
  have rafts : next.raft = s.raft := setMember_raft (castVote_raft ..)
  have campaigns : ∀ i, (next.members i).campaigns = (s.members i).campaigns :=
    setMember_frame Member.campaigns (castVote_campaigns ..)
  have grow : Extends s.voteCalls next.voteCalls :=
    Extends.update found rfl (fun _ member => member) fun _ => rfl
  have back : ∀ {voter term candidate}, Granted next.voteCalls voter term candidate →
      Granted s.voteCalls voter term candidate := by
    intro voter term candidate granted
    rcases Granted.of_update found request granted with old | ⟨-, -, -, -, response, member, new, -⟩
    · exact old
    · exact absurd member new
  have own : ∀ i number peer new, next.voteCalls ⟨i, number, peer⟩ = some new →
      ∃ old, s.voteCalls ⟨i, number, peer⟩ = some old ∧ new.request = old.request := by
    intro i number peer new found'
    obtain ⟨old, foundOld, same, -⟩ := update_found found request found'
    exact ⟨old, foundOld, same⟩
  refine ⟨inv.ids, fun i => ?_, fun other new found' => ?_, fun candidate term asked => ?_,
    fun voter term candidate granted => ?_, fun voter term candidate other granted granted' => ?_,
    fun i member role => ?_, fun i current running => ?_, fun i member role => ?_,
    fun i term leads => ?_⟩
  · rw [rafts, inv.config]
  · obtain ⟨old, foundOld, same, -⟩ := update_found found request found'
    rw [same, campaigns]
    exact inv.call other old foundOld
  · obtain ⟨before, none⟩ := inv.campaigned candidate term (asked.of_update found request)
    rw [rafts]
    exact ⟨before, fun other granted => none other (back granted)⟩
  · rw [rafts]
    exact inv.backed voter term candidate (back granted)
  · exact inv.unique voter term candidate other (back granted) (back granted')
  · rw [rafts] at role ⊢
    exact inv.candidate i member role
  · by_cases same : i = id.owner
    · subst same
      have running' : (castVote (s.members id.owner) id.number granted).campaign = some current := by
        have here : next.members id.owner = castVote (s.members id.owner) id.number granted :=
          setMember_members_self ..
        rwa [here] at running
      rw [castVote] at running'
      split at running'
      case h_1 idle => rw [idle] at running'; cases running'
      case h_2 campaign counting =>
        have old := inv.campaign id.owner campaign counting
        split at running'
        case isTrue mine =>
          cases running'
          exact old.cast found pending mine given rfl rfl (campaigns id.owner)
        case isFalse other =>
          rw [counting] at running'
          cases running'
          exact old.mono rfl grow (campaigns _).ge fun peer new found' => own _ _ peer new found'
    · have running' : (s.members i).campaign = some current := by
        have here : next.members i = s.members i := setMember_members_of_ne _ _ same
        rwa [here] at running
      exact (inv.campaign i current running').mono rfl grow (campaigns _).ge
        fun peer new found' => own _ _ peer new found'
  · rw [rafts] at role ⊢
    exact inv.leader i member role
  · obtain ⟨positive, voters, major, voted⟩ := inv.led i term leads
    exact ⟨positive, voters, major, fun voter member => (voted voter member).mono grow⟩

/-! ### Elections begin and end -/

section Launch

variable {id : Nat} {node : RaftNode} {request : RequestVoteRequest}

/-- The calls after a launch: those before it, and fresh ones to the peers. -/
theorem launch_found {call : CallId} {new : VoteCall}
    (found : (s.launch id node request).voteCalls call = some new) :
    (call.owner = id ∧ call.number = (s.members id).campaigns ∧ call.peer ∈ node.peerIds ∧
      new = ⟨request, [], false⟩) ∨ s.voteCalls call = some new := by
  rw [launch] at found
  dsimp only at found
  split at found
  case isTrue fresh => exact .inl ⟨fresh.1, fresh.2.1, fresh.2.2, (Option.some.inj found).symm⟩
  case isFalse => exact .inr found

theorem ElectionInv.launch_extends (inv : ElectionInv config s led) :
    Extends s.voteCalls (s.launch id node request).voteCalls := by
  intro call old found
  refine ⟨old, ?_, rfl, fun _ member => member, fun ended => ended⟩
  rw [launch]
  dsimp only
  rw [if_neg ?_]
  · exact found
  · rintro ⟨owner, number, -⟩
    obtain ⟨-, -, -, before, -⟩ := inv.call call old found
    rw [owner, number] at before
    exact before.false

theorem Granted.of_launch {voter term candidate : Nat}
    (granted : Granted (s.launch id node request).voteCalls voter term candidate) :
    Granted s.voteCalls voter term candidate := by
  obtain ⟨call, new, found, owner, peer, real, asked, response, member, yes⟩ := granted
  rcases launch_found found with ⟨-, -, -, rfl⟩ | found
  · cases member
  · exact ⟨call, new, found, owner, peer, real, asked, response, member, yes⟩

theorem launch_raft_self : (s.launch id node request).raft id = node := by
  rw [raft, launch]
  dsimp only
  rw [Function.update_self]

theorem launch_members_of_ne {i : Nat} (ne : i ≠ id) :
    (s.launch id node request).members i = s.members i :=
  Function.update_of_ne ne ..

theorem launch_campaigns_le (i : Nat) :
    (s.members i).campaigns ≤ ((s.launch id node request).members i).campaigns := by
  by_cases same : i = id
  · subst same
    rw [launch]
    dsimp only
    rw [Function.update_self]
    exact Nat.le_succ _
  · rw [launch_members_of_ne same]

/-- **A campaign begins**: the node asks for votes in a term later than any vote it has granted, and
before the term it moves to. -/
theorem ElectionInv.launch (inv : ElectionInv config s led) (member : id ∈ s.ids)
    (calm : Calm id (s.raft id) node) (others : ∃ peer, peer ∈ node.peerIds)
    (peers : ∀ peer ∈ node.peerIds, peer ∈ s.ids ∧ peer ≠ id) (self : request.candidateId = id)
    (real : request.preVote = false → (s.raft id).state.currentTerm < request.term ∧
      request.term < node.state.currentTerm) :
    ElectionInv config (s.launch id node request) led := by
  have moved := inv.setRaft calm
  have rafts : ∀ i, (s.launch id node request).raft i = (s.setRaft id node).raft i := by
    intro i
    by_cases same : i = id
    · subst same
      rw [launch_raft_self, setRaft_raft_self]
    · rw [raft, launch_members_of_ne same, setRaft_raft_of_ne _ _ same, raft]
  have grow : Extends s.voteCalls (s.launch id node request).voteCalls := inv.launch_extends
  refine ⟨inv.ids, fun i => ?_, fun call new found => ?_, fun candidate term asked => ?_,
    fun voter term candidate granted => ?_, fun voter term candidate other granted granted' => ?_,
    fun i inside role => ?_, fun i current running => ?_, fun i inside role => ?_,
    fun i term leads => ?_⟩
  · rw [rafts]
    exact moved.config i
  · rcases launch_found found with ⟨owner, number, peer, rfl⟩ | found
    · obtain ⟨inside, ne⟩ := peers call.peer peer
      refine ⟨owner ▸ member, inside, owner ▸ ne, ?_, self.trans owner.symm⟩
      rw [owner, number, Cluster.launch]
      dsimp only
      rw [Function.update_self]
      exact Nat.lt_succ_self _
    · obtain ⟨owner, peer, ne, before, own⟩ := inv.call call new found
      exact ⟨owner, peer, ne, before.trans_le (launch_campaigns_le _), own⟩
  · obtain ⟨call, new, found, owner, notPre, term_eq⟩ := asked
    rcases launch_found found with ⟨owner', -, -, rfl⟩ | found
    · obtain ⟨after, before⟩ := real notPre
      rw [rafts, ← owner, owner', setRaft_raft_self, ← term_eq]
      refine ⟨before, fun other granted => ?_⟩
      rcases inv.backed _ _ _ granted.of_launch with earlier | ⟨now, -⟩
      · exact absurd (earlier.trans after) (lt_irrefl _)
      · exact after.ne' now
    · obtain ⟨before, none⟩ := moved.campaigned candidate term
        ⟨call, new, found, owner, notPre, term_eq⟩
      rw [rafts]
      exact ⟨before, fun other granted => none other granted.of_launch⟩
  · rw [rafts]
    exact moved.backed voter term candidate granted.of_launch
  · exact inv.unique voter term candidate other granted.of_launch granted'.of_launch
  · rw [rafts] at role ⊢
    exact moved.candidate i inside role
  · by_cases same : i = id
    · subst same
      have fresh : current = ⟨(s.members i).campaigns, request, 1, []⟩ := by
        rw [Cluster.launch] at running
        dsimp only at running
        rw [Function.update_self] at running
        exact (Option.some.inj running).symm
      subst fresh
      obtain ⟨peer, inPeers⟩ := others
      refine ⟨member, ?_, fun other new found => ?_, ⟨peer, ⟨request, [], false⟩, ?_⟩, ∅, rfl, ?_⟩
      · rw [Cluster.launch]
        dsimp only
        rw [Function.update_self]
        exact Nat.lt_succ_self _
      · rcases launch_found found with ⟨-, -, -, rfl⟩ | found
        · rfl
        · obtain ⟨-, -, -, before, -⟩ := inv.call _ new found
          exact absurd before (lt_irrefl _)
      · rw [Cluster.launch]
        exact if_pos ⟨rfl, rfl, inPeers⟩
      · intro voter none
        cases none
    · have running' : (s.members i).campaign = some current := by
        rwa [launch_members_of_ne same] at running
      refine (inv.campaign i current running').mono rfl grow (launch_campaigns_le i) ?_
      intro peer new found
      rcases launch_found found with ⟨owner, -⟩ | found
      · exact absurd owner same
      · exact ⟨new, found, rfl⟩
  · rw [rafts] at role ⊢
    exact moved.leader i inside role
  · obtain ⟨positive, voters, major, voted⟩ := inv.led i term leads
    exact ⟨positive, voters, major, fun voter inside => (voted voter inside).mono grow⟩

end Launch

/-- **A candidate becomes leader** with a majority of the votes of the term before its own. -/
theorem ElectionInv.elect (inv : ElectionInv config s led) {id : Nat} (member : id ∈ s.ids)
    (candidate : (s.raft id).state.role = .candidate)
    (positive : 0 < (s.raft id).state.currentTerm) {voters : Finset Nat}
    (major : Majority s.ids voters)
    (voted : ∀ voter ∈ voters, Voted s.voteCalls voter ((s.raft id).state.currentTerm - 1) id) :
    ElectionInv config (s.setRaft id (s.raft id).becomeLeader)
      (insert (id, (s.raft id).state.currentTerm) led) := by
  have term : ∀ i, ((s.setRaft id (s.raft id).becomeLeader).raft i).state.currentTerm =
      (s.raft i).state.currentTerm := by
    intro i
    by_cases same : i = id
    · rw [same, setRaft_raft_self]
      rfl
    · rw [setRaft_raft_of_ne _ _ same]
  refine ⟨inv.ids, fun i => ?_, fun call new found => ?_, fun candidate term' asked => ?_,
    fun voter term' candidate' granted => ?_, inv.unique, fun i inside role => ?_,
    fun i current running => ?_, fun i inside role => ?_, fun i term' leads => ?_⟩
  · by_cases same : i = id
    · rw [same, setRaft_raft_self]
      exact inv.config id
    · rw [setRaft_raft_of_ne _ _ same]
      exact inv.config i
  · rw [setRaft_campaigns]
    exact inv.call call new found
  · rw [term]
    exact inv.campaigned candidate term' asked
  · rw [term]
    rcases inv.backed voter term' candidate' granted with before | ⟨now, vote⟩
    · exact .inl before
    · by_cases same : voter = id
      · -- a candidate holds its own vote, so it has granted none in its term
        subst same
        rw [inv.candidate voter member candidate] at vote
        exact absurd (Option.some.inj vote) (inv.granted_ne granted)
      · rw [setRaft_raft_of_ne _ _ same]
        exact .inr ⟨now, vote⟩
  · by_cases same : i = id
    · rw [same, setRaft_raft_self] at role
      cases role
    · rw [setRaft_raft_of_ne _ _ same] at role ⊢
      exact inv.candidate i inside role
  · rw [setRaft_campaign] at running
    exact (inv.campaign i current running).mono rfl (Extends.refl _) (setRaft_campaigns ..).ge
      fun peer call found => ⟨call, found, rfl⟩
  · rw [term]
    by_cases same : i = id
    · rw [same]
      exact .inl rfl
    · rw [setRaft_raft_of_ne _ _ same] at role
      exact .inr (inv.leader i inside role)
  · rcases leads with new | old
    · cases new
      exact ⟨positive, voters, major, voted⟩
    · exact inv.led i term' old

end Cluster

/-! ### The members of a valid cluster -/

section Valid

variable {config : ClusterConfig} {id : Nat}

theorem ClusterConfig.Valid.peerIds (valid : config.Valid) (member : id ∈ config.ids)
    (node : RaftNode) (own : node.config = config.configs id) :
    node.peerIds = (config.configs id).peers ∧ id ∉ node.peerIds ∧ node.peerIds.Nodup ∧
      (id :: node.peerIds).Perm config.ids := by
  have whole : node.peerIds = (config.configs id).peers := by
    rw [RaftNode.peerIds, own, valid.id id member]
    refine List.filter_eq_self.mpr fun peer inside => ?_
    simpa using ((valid.peers id member peer).mp inside).2
  have apart : id ∉ node.peerIds := by
    rw [whole, valid.peers id member]
    exact fun inside => inside.2 rfl
  have nodup : node.peerIds.Nodup := whole ▸ valid.peersNodup id member
  refine ⟨whole, apart, nodup, ?_⟩
  refine (List.perm_ext_iff_of_nodup (List.nodup_cons.mpr ⟨apart, nodup⟩) valid.nodup).mpr ?_
  intro other
  rw [List.mem_cons, whole, valid.peers id member]
  by_cases same : other = id
  · simp [same, member]
  · simp [same]

end Valid

namespace Cluster

variable {config : ClusterConfig} {s next : Cluster} {led : Set (Nat × Nat)} {id : Nat}

/-! ### Every step keeps the invariant -/

theorem ElectionInv.peers (inv : ElectionInv config s led) (valid : config.Valid)
    (member : id ∈ s.ids) (node : RaftNode) (own : node.config = (s.raft id).config) :
    (∀ peer ∈ node.peerIds, peer ∈ s.ids ∧ peer ≠ id) ∧ (id :: node.peerIds).Perm s.ids := by
  rw [inv.ids] at member ⊢
  obtain ⟨whole, -, -, perm⟩ := valid.peerIds member node (own.trans (inv.config id))
  refine ⟨fun peer inside => ?_, perm⟩
  rw [whole] at inside
  exact (valid.peers id member peer).mp inside

theorem ElectionInv.others (inv : ElectionInv config s led) (valid : config.Valid)
    (two : 2 ≤ config.ids.length) (member : id ∈ s.ids) (node : RaftNode)
    (own : node.config = (s.raft id).config) : ∃ peer, peer ∈ node.peerIds := by
  have size := (inv.peers valid member node own).2.length_eq
  rw [List.length_cons, inv.ids] at size
  exact List.exists_mem_of_length_pos (by omega)

theorem ElectionInv.startRealElection (inv : ElectionInv config s led) (valid : config.Valid)
    (two : 2 ≤ config.ids.length) (member : id ∈ s.ids) :
    ElectionInv config (s.startRealElection id) led := by
  have self : (s.raft id).config.id = id := by
    rw [inv.config, valid.id id (inv.ids ▸ member)]
  have others := inv.others valid two member (s.raft id).startRealElection.1 rfl
  rw [Cluster.startRealElection]
  dsimp only
  rw [if_neg (by simpa [List.isEmpty_iff] using List.ne_nil_of_mem others.choose_spec)]
  exact inv.launch member (RaftNode.startRealElection_calm self) others
    (inv.peers valid member _ rfl).1 self fun _ => ⟨Nat.lt_succ_self _, Nat.lt_succ_self _⟩

theorem ElectionInv.startPreVote (inv : ElectionInv config s led) (valid : config.Valid)
    (two : 2 ≤ config.ids.length) (member : id ∈ s.ids) :
    ElectionInv config (s.startPreVote id) led := by
  have self : (s.raft id).config.id = id := by
    rw [inv.config, valid.id id (inv.ids ▸ member)]
  have others := inv.others valid two member (s.raft id).startPreVote.1 rfl
  rw [Cluster.startPreVote]
  dsimp only
  rw [if_neg (by simpa [List.isEmpty_iff] using List.ne_nil_of_mem others.choose_spec)]
  exact inv.launch member RaftNode.startPreVote_calm others (inv.peers valid member _ rfl).1 self
    fun real => by cases real

theorem ElectionInv.startElection (inv : ElectionInv config s led) (valid : config.Valid)
    (two : 2 ≤ config.ids.length) (member : id ∈ s.ids) :
    ElectionInv config (s.startElection id) led := by
  rw [Cluster.startElection]
  split
  · split
    · exact inv.startPreVote valid two member
    · exact inv.startRealElection valid two member
  · split
    · exact inv.startPreVote valid two member
    · exact inv.startRealElection valid two member
  · exact inv.startRealElection valid two member
  · exact inv

/-- A request reaches its peer: the vote it gets is the one the peer now holds. -/
theorem ElectionInv.deliverVote (inv : ElectionInv config s led) {id : CallId} {call : VoteCall}
    (found : s.voteCalls id = some call) : ElectionInv config (s.deliverVote id call) led := by
  obtain ⟨-, member, -, -, self⟩ := inv.call id call found
  have moved := inv.setRaft (RaftNode.handleRequestVote_calm (inv.candidate id.peer member)
    call.request)
  refine moved.recordReply found ((s.raft id.peer).handleRequestVote call.request).2
    fun granted real => ?_
  rw [setRaft_raft_self]
  rcases (s.raft id.peer).handleRequestVote_cases call.request with
    ⟨-, -, refused⟩ | ⟨-, -, pre⟩ | ⟨behind, -, -, same⟩
  · rw [refused] at granted
    cases granted
  · rw [pre granted] at real
    cases real
  · rw [same, ← self]
    exact ⟨RaftNode.observeTerm_term behind, rfl⟩

theorem setRaft_setMember (s : Cluster) (id : Nat) (node : RaftNode) (member : Member) :
    (s.setRaft id node).setMember id member = s.setMember id member := by
  rw [setRaft, setMember, setMember, setMember]
  dsimp only
  rw [Function.update_idem]

theorem ElectionInv.voteReply (inv : ElectionInv config s led) (valid : config.Valid) {id : CallId}
    {call : VoteCall} (found : s.voteCalls id = some call) (pending : call.answered = false)
    {response : RequestVoteResponse} (received : response ∈ call.replies)
    (timely : call.request.preVote = false → response.term > call.request.term →
      (s.raft id.owner).MayFollow response.term) :
    ElectionInv config (s.voteReply id call response) led := by
  obtain ⟨member, -⟩ := inv.call id call found
  have self : (s.raft id.owner).config.id = id.owner := by
    rw [inv.config, valid.id _ (inv.ids ▸ member)]
  have moved := inv.setRaft (RaftNode.handleVoteReply_calm self timely)
  have answered := moved.answer found pending response.voteGranted
    fun yes => ⟨response, received, yes⟩
  rw [setRaft_members_self, setRaft_setMember] at answered
  exact answered

/-- The votes that a counting loop leaves with. -/
theorem ElectionInv.won (inv : ElectionInv config s led) (valid : config.Valid)
    {campaign : Campaign} (running : (s.members id).campaign = some campaign)
    (real : campaign.request.preVote = false)
    (enough : campaign.nextCount ≥ (s.raft id).majority) :
    ∃ voters, Majority s.ids voters ∧
      ∀ voter ∈ voters, Voted s.voteCalls voter campaign.request.term id := by
  have counts := inv.campaign id campaign running
  obtain ⟨voters, count, each⟩ := counts.counted
  have peer : ∀ voter ∈ voters, voter ∈ s.ids ∧ voter ≠ id := by
    intro voter inside
    obtain ⟨call, found, -⟩ := each voter inside
    obtain ⟨-, member, ne, -⟩ := inv.call _ call found
    exact ⟨member, ne⟩
  have size := (inv.peers valid counts.member (s.raft id) rfl).2.length_eq
  have next : campaign.nextCount ≤ campaign.voteCount + campaign.votes.count true := by
    rw [Campaign.nextCount]
    split
    case isTrue first =>
      have nonempty : 0 < campaign.votes.count true :=
        List.count_pos_iff.mpr (List.mem_of_head? first)
      omega
    case isFalse => omega
  refine ⟨insert id voters, ⟨?_, ?_⟩, fun voter inside => ?_⟩
  · intro voter inside
    rcases Finset.mem_insert.mp inside with rfl | inside
    · exact List.mem_toFinset.mpr counts.member
    · exact List.mem_toFinset.mpr (peer voter inside).1
  · rw [Finset.card_insert_of_notMem fun inside => (peer id inside).2 rfl, ← size, List.length_cons,
      count]
    exact enough.trans next
  · rcases Finset.mem_insert.mp inside with rfl | inside
    · obtain ⟨other, call, found⟩ := counts.asked
      have request := counts.request other call found
      exact .inr ⟨rfl, _, call, found, rfl, request ▸ real, request ▸ rfl⟩
    · obtain ⟨call, found, -, response, received, yes⟩ := each voter inside
      have request := counts.request voter call found
      exact .inl ⟨_, call, found, rfl, rfl, request ▸ real, request ▸ rfl, response, received, yes⟩

/-- The nodes that lead, with their terms. -/
def leaders (s : Cluster) : Set (Nat × Nat) :=
  { led | led.1 ∈ s.ids ∧ (s.raft led.1).state.role = .leader ∧
    (s.raft led.1).state.currentTerm = led.2 }

/-- The leaders of a state are among those that have led. -/
theorem ElectionInv.absorb (inv : ElectionInv config s led) :
    ElectionInv config s (led ∪ s.leaders) := by
  have same : led ∪ s.leaders = led := by
    refine Set.union_eq_self_of_subset_right fun leads inside => ?_
    obtain ⟨member, role, term⟩ := inside
    have := inv.leader leads.1 member role
    rwa [term] at this
  rwa [same]

theorem ElectionInv.becomeLeader (inv : ElectionInv config s led) (member : id ∈ s.ids)
    (candidate : (s.raft id).state.role = .candidate)
    (positive : 0 < (s.raft id).state.currentTerm) {voters : Finset Nat}
    (major : Majority s.ids voters)
    (voted : ∀ voter ∈ voters, Voted s.voteCalls voter ((s.raft id).state.currentTerm - 1) id) :
    ElectionInv config (s.becomeLeader id) (led ∪ (s.becomeLeader id).leaders) := by
  have elected := (inv.elect member candidate positive major voted).sendHeartbeats id
  have grown := elected.absorb
  have same : insert (id, (s.raft id).state.currentTerm) led ∪ (s.becomeLeader id).leaders =
      led ∪ (s.becomeLeader id).leaders := by
    rw [Set.insert_union, Set.insert_eq_of_mem]
    refine .inr ⟨?_, ?_, ?_⟩
    · rw [Cluster.becomeLeader, sendHeartbeats_ids]
      exact member
    · rw [Cluster.becomeLeader, sendHeartbeats_raft, setRaft_raft_self]
      rfl
    · rw [Cluster.becomeLeader, sendHeartbeats_raft, setRaft_raft_self]
      rfl
  rw [← same]
  exact grown

theorem ElectionInv.countVote (inv : ElectionInv config s led) (valid : config.Valid)
    (two : 2 ≤ config.ids.length) {campaign : Campaign} {granted : Bool} {rest : List Bool}
    (running : (s.members id).campaign = some campaign) (votes : campaign.votes = granted :: rest)
    (timely : s.WinsInTime id) :
    ElectionInv config (s.countVote id campaign granted rest)
      (led ∪ (s.countVote id campaign granted rest).leaders) := by
  have counts := inv.campaign id campaign running
  have count := Campaign.nextCount_cons votes
  have ended : ElectionInv config (s.setMember id { s.members id with campaign := none }) led :=
    inv.setCampaign fun c none => by cases none
  rw [Cluster.countVote]
  dsimp only
  rw [count]
  split
  case isTrue enough =>
    split
    case isTrue pre => exact (ended.startRealElection valid two counts.member).absorb
    case isFalse real =>
      rw [Bool.not_eq_true] at real
      obtain ⟨candidate, term⟩ := timely campaign running real enough
      obtain ⟨voters, major, voted⟩ := inv.won valid running real enough
      have raft_eq : (s.setMember id { s.members id with campaign := none }).raft id = s.raft id := by
        rw [raft, setMember_members_self, raft]
      refine ended.becomeLeader counts.member ?_ ?_ major fun voter inside => ?_
      · rw [raft_eq, candidate]
      · rw [raft_eq, term]
        exact Nat.succ_pos _
      · rw [raft_eq, term]
        exact voted voter inside
  case isFalse more =>
    refine ElectionInv.absorb (inv.setCampaign fun c same => ?_)
    cases same
    obtain ⟨voters, total, each⟩ := counts.counted
    refine ⟨counts.member, counts.number, counts.request, counts.asked, voters, ?_, each⟩
    show voters.card + 1 = campaign.nextCount + rest.count true
    rw [total, votes, ← count]
    cases granted with
    | false => rfl
    | true =>
      rw [List.count_cons_self]
      show _ = campaign.voteCount + 1 + _
      omega

/-- Append calls are not part of an election. -/
theorem ElectionInv.setAppendCalls (inv : ElectionInv config s led)
    (calls : CallId → Option AppendCall) : ElectionInv config { s with appendCalls := calls } led :=
  inv.calm rfl rfl (fun _ => rfl) (fun _ => rfl) fun _ => Calm.refl ..

/-- **Every timely step keeps the invariant.** -/
theorem ElectionInv.step (inv : ElectionInv config s led) (valid : config.Valid)
    (two : 2 ≤ config.ids.length) {action : Action} (moves : s.step action = some next)
    (timely : s.Timely action) : ElectionInv config next (led ∪ next.leaders) := by
  cases step_moves moves with
  | electionTimeout id member idle => exact (inv.startElection valid two member).absorb
  | deliverVote id call found => exact (inv.deliverVote found).absorb
  | voteReply id reply call response found received pending =>
    exact (inv.voteReply valid found pending
      (List.mem_of_getElem? received) (timely call found response received)).absorb
  | voteError id call found pending =>
    have answered := inv.answer found pending false
      fun no => by cases no
    exact answered.absorb
  | countVote id campaign granted rest running votes =>
    exact inv.countVote valid two running votes timely
  | endCampaign id campaign running =>
    exact ElectionInv.absorb (inv.setCampaign fun c none => by cases none)
  | heartbeat id member idle leads => exact (inv.sendHeartbeats id).absorb
  | deliverAppend id call found =>
    exact ((inv.setRaft (RaftNode.handleAppendEntries_calm id.peer _ call.request)).setAppendCalls
      _).absorb
  | appendReply id reply call response found received pending =>
    exact ((inv.setRaft (RaftNode.handleAppendReply_calm id.owner _ id.peer
      call.leaderLastIndex response)).setAppendCalls _).absorb
  | propose id entryType data member leads =>
    exact ((inv.setRaft (RaftNode.propose_calm id _ entryType data)).sendHeartbeats id).absorb
  | apply id member idle => exact (inv.setRaft (RaftNode.applyCommittedEntries_calm id _)).absorb

theorem ElectionInv.start (valid : config.Valid) (two : 2 ≤ config.ids.length) :
    ElectionInv config (Cluster.start config) ∅ := by
  have follower : ∀ id ∈ config.ids, ((Cluster.start config).raft id).state = RaftState.new := by
    intro id member
    have size := (valid.peerIds member (RaftNode.new (config.configs id)) rfl).2.2.2.length_eq
    have whole := (valid.peerIds member (RaftNode.new (config.configs id)) rfl).1
    rw [whole, List.length_cons] at size
    have nonempty : (config.configs id).peers.isEmpty = false := by
      rw [List.isEmpty_eq_false_iff, ← List.length_pos_iff]
      omega
    show (if (config.configs id).peers.isEmpty then _ else RaftState.new) = RaftState.new
    rw [if_neg (by rw [nonempty]; decide)]
  have none : ∀ {voter term candidate}, ¬ Granted (Cluster.start config).voteCalls voter term candidate := by
    rintro voter term candidate ⟨id, call, found, -⟩
    cases found
  refine ⟨rfl, fun id => rfl, fun id call found => (by cases found), ?_,
    fun voter term candidate granted => absurd granted none,
    fun voter term candidate other granted => absurd granted none, fun id member role => ?_,
    fun id campaign running => (by cases running), fun id member role => ?_,
    fun id term leads => absurd leads (Set.notMem_empty _)⟩
  · rintro candidate term ⟨id, call, found, -⟩
    cases found
  · rw [follower id member] at role
    cases role
  · rw [follower id member] at role
    cases role

/-! ### Over a whole run -/

/-- The node led in the term in some state that the run passed through. -/
def LedAt (config : ClusterConfig) (actions : List Action) (id term : Nat) : Prop :=
  id ∈ config.ids ∧ ∃ n s, run config (actions.take n) = some s ∧
    (s.raft id).state.role = .leader ∧ (s.raft id).state.currentTerm = term

/-- **Election safety.** In a run of timely steps, one node leads each term. -/
theorem election_safety (config : ClusterConfig) (valid : config.Valid)
    (two : 2 ≤ config.ids.length) (actions : List Action) (s : Cluster)
    (runs : run config actions = some s) (timely : Along step Timely (start config) actions) :
    ∀ id other term, LedAt config actions id term → LedAt config actions other term →
      id = other := by
  intro id other term leads leads'
  obtain ⟨led, -, inv, earlier⟩ := run_history
    (fun s action next led moves timely inv =>
      ⟨led ∪ next.leaders, Set.subset_union_left, inv.step valid two moves timely⟩)
    (ElectionInv.start valid two) timely runs
  have recorded : ∀ {id}, LedAt config actions id term → (id, term) ∈ led := by
    rintro id ⟨member, n, u, reaches, role, atTerm⟩
    obtain ⟨before, below, inv'⟩ := earlier n u reaches
    have now := inv'.leader id (inv'.ids ▸ member) role
    rw [atTerm] at now
    exact below now
  exact inv.led_unique (recorded leads) (recorded leads')

/-! ### A late vote -/

/-- Three nodes with the default configuration. -/
def threeNodes : ClusterConfig where
  ids := [1, 2, 3]
  configs := fun id => ⟨id, [1, 2, 3].filter (· ≠ id), 100, true⟩

theorem threeNodes_valid : threeNodes.Valid where
  nodup := by decide
  id := by decide
  peersNodup := by decide
  peers := by
    intro id member peer
    show peer ∈ [1, 2, 3].filter (· ≠ id) ↔ _
    rw [List.mem_filter]
    exact and_congr_right fun _ => decide_eq_true_iff
  perRequest := by decide

/-- Node 1 asks for votes in term 1 and node 2 grants its vote, which is slow. Node 2 then leads in term
3 with the vote of node 3, and its heartbeat takes node 1 to term 3. -/
def lateVote : List Action :=
  [.electionTimeout 1, .deliverVote ⟨1, 0, 2⟩, .voteReply ⟨1, 0, 2⟩ 0, .countVote 1,
    .deliverVote ⟨1, 1, 2⟩, .electionTimeout 2, .deliverVote ⟨2, 0, 3⟩, .voteReply ⟨2, 0, 3⟩ 0,
    .countVote 2, .deliverVote ⟨2, 1, 3⟩, .voteReply ⟨2, 1, 3⟩ 0, .countVote 2,
    .deliverAppend ⟨2, 0, 1⟩, .voteReply ⟨1, 1, 2⟩ 0, .countVote 1]

/-- **Two leaders in one term.** The slow vote makes node 1 leader in term 3, which node 2 leads. -/
theorem late_vote_second_leader :
    threeNodes.Valid ∧ (run threeNodes lateVote).isSome ∧ LedAt threeNodes lateVote 1 3 ∧
      LedAt threeNodes lateVote 2 3 := by
  refine ⟨threeNodes_valid, by decide +kernel, ⟨by decide, 15, ?_⟩, ⟨by decide, 15, ?_⟩⟩
  · exact ⟨_, rfl, rfl, rfl⟩
  · exact ⟨_, rfl, rfl, rfl⟩

/-- Node 1 leads in term 2; node 2 stops hearing from it and leads in term 4. -/
def inTurn : List Action :=
  [.electionTimeout 1, .deliverVote ⟨1, 0, 2⟩, .voteReply ⟨1, 0, 2⟩ 0, .countVote 1,
    .deliverVote ⟨1, 1, 2⟩, .voteReply ⟨1, 1, 2⟩ 0, .countVote 1, .deliverAppend ⟨1, 0, 2⟩,
    .electionTimeout 2, .deliverVote ⟨2, 0, 3⟩, .voteReply ⟨2, 0, 3⟩ 0, .countVote 2,
    .deliverVote ⟨2, 1, 3⟩, .voteReply ⟨2, 1, 3⟩ 0, .countVote 2]

theorem leaders_in_turn :
    (LedAt threeNodes inTurn 1 2 ∧ LedAt threeNodes inTurn 2 4) ∧
      ∀ id other term, LedAt threeNodes inTurn id term → LedAt threeNodes inTurn other term →
        id = other := by
  have runs : ∃ s, run threeNodes inTurn = some s := ⟨_, rfl⟩
  refine ⟨⟨⟨by decide, 7, _, rfl, rfl, rfl⟩, ⟨by decide, 15, _, rfl, rfl, rfl⟩⟩, ?_⟩
  obtain ⟨s, runs⟩ := runs
  exact election_safety threeNodes threeNodes_valid (by decide) inTurn s runs (by decide +kernel)

end Cluster

end Rusd
