/-
**The steps of match indices.**

Each kind of change has one lemma that carries the invariant of `MatchIndex` over it: changes beside the
logs, elections, rounds of requests, requests that reach their peers, responses, proposals, and the
snapshots a node takes and installs. `MatchIndexRun` puts them together.
-/

import Rusd.Raft.MatchIndex

namespace Rusd

open RaftLog

namespace SnapshotCluster

open Cluster (ElectionInv Quiet Still KeepsStanding setRaft_raft_self setRaft_raft_of_ne
  setRaft_members_self setRaft_rounds)

variable {config : ClusterConfig} {s next : SnapshotCluster} {history later : History}
  {whole : Nat → List LogEntry} {t : Cluster}

/-! ### Changes of one node -/

theorem MatchInv.leads (inv : MatchInv config s history whole) {id : Nat}
    (member : id ∈ s.cluster.ids) (role : (s.raft id).state.role = .leader) :
    (id, (s.raft id).term) ∈ history.led :=
  inv.election.leader id member role

/-- **A change of one node.** The others stay, and the history grows for this one only. -/
theorem MatchInv.change (inv : MatchInv config s history whole) {id : Nat} {l : List LogEntry}
    (election : ElectionInv config next.cluster later.led) (sound : later.Sound)
    (grows : history.Grows later)
    (beside : ∀ other ∈ s.cluster.ids, other ≠ id → history.Beside later other)
    (ids : next.cluster.ids = s.cluster.ids)
    (appends : next.cluster.appendCalls = s.cluster.appendCalls)
    (snapshots : next.snapshotCalls = s.snapshotCalls)
    (others : ∀ other, other ≠ id →
      next.raft other = s.raft other ∧ next.covered other = s.covered other)
    (term : (s.raft id).term ≤ (next.raft id).term)
    (ok : id ∈ s.cluster.ids → NodeOk later next.terms id (next.raft id) (next.covered id) l) :
    MatchInv config next later (Function.update whole id l) := by
  have le : ∀ i, s.terms i ≤ next.terms i := by
    intro i
    by_cases same : i = id
    · rw [same]
      exact term
    · rw [terms, terms, (others i same).1]
  refine ⟨election, sound, ?_, ?_, ?_⟩
  · rw [ids]
    intro i member
    by_cases same : i = id
    · subst same
      rw [Function.update_self]
      exact ok member
    · rw [Function.update_of_ne same, (others i same).1, (others i same).2]
      exact (inv.nodes i member).beside inv.sound (inv.leads member) (beside i member same) le
  · rw [ids, appends]
    exact fun call append found => (inv.appends call append found).mono grows
  · rw [ids, snapshots]
    exact fun call snapshot found => (inv.snapshots call snapshot found).mono grows le

/-- A call of an append request takes a response, or ends. -/
theorem MatchInv.setAppend (inv : MatchInv config s history whole) {id : CallId}
    {call call' : AppendCall} (found : s.cluster.appendCalls id = some call)
    (request : call'.request = call.request)
    (replies : ∀ response ∈ call'.replies,
      (response.success = true → (id.peer, call.request.term, response.matchIndex) ∈ history.acks) ∧
      response.conflictIndex ≤ (history.leaderLog call.request.term).length) :
    MatchInv config { s with cluster := { s.cluster with
      appendCalls := Function.update s.cluster.appendCalls id (some call') } } history whole := by
  refine ⟨inv.election.setAppendCalls _, inv.sound, inv.nodes, fun other new found' => ?_, inv.snapshots⟩
  have found' : Function.update s.cluster.appendCalls id (some call') other = some new := found'
  by_cases same : other = id
  · subst same
    rw [Function.update_self] at found'
    cases found'
    have sent := inv.appends other call found
    refine ⟨sent.owner, sent.peer, sent.ne, ?_, ?_, ?_, ?_, ?_⟩
    · exact request ▸ sent.led
    · exact request ▸ sent.inside
    · exact request ▸ sent.stretch
    · exact request ▸ sent.prevTerm
    · exact request ▸ replies
  · rw [Function.update_of_ne same] at found'
    exact inv.appends other new found'

/-- A call of a snapshot request takes a response, or ends. -/
theorem MatchInv.setSnapshot (inv : MatchInv config s history whole) {id : CallId}
    {call call' : SnapshotCall} (found : s.snapshotCalls id = some call)
    (request : call'.request = call.request) (covered : call'.covered = call.covered)
    (replies : call'.replies ≠ [] →
      (id.peer, call.request.term, call.request.lastIncludedIndex) ∈ history.acks ∨
      call.request.term < s.terms id.peer) :
    MatchInv config { s with snapshotCalls := Function.update s.snapshotCalls id (some call') }
      history whole := by
  refine ⟨inv.election, inv.sound, inv.nodes, inv.appends, fun other new found' => ?_⟩
  have found' : Function.update s.snapshotCalls id (some call') other = some new := found'
  by_cases same : other = id
  · subst same
    rw [Function.update_self] at found'
    cases found'
    have sent := inv.snapshots other call found
    refine ⟨sent.owner, sent.peer, sent.ne, ?_, ?_, ?_, ?_, ?_⟩
    · exact request ▸ sent.led
    · exact request ▸ sent.done
    · exact request ▸ covered ▸ sent.covered
    · exact request ▸ sent.last
    · exact request ▸ replies
  · rw [Function.update_of_ne same] at found'
    exact inv.snapshots other new found'

/-! ### Changes beside the logs -/

theorem NodeOk.quiet {terms terms' : Nat → Nat} {id : Nat} {old new : RaftNode}
    {covered l : List LogEntry} (ok : NodeOk history terms id old covered l) (quiet : Quiet old new)
    (standing : KeepsStanding old new)
    (peers : new.state.role = .leader → ∀ peer ∈ new.peerIds, PeerKnown history terms' new peer) :
    NodeOk history terms' id new covered l where
  represents := by rw [quiet.log]; exact ok.represents
  covered := by rw [quiet.log]; exact ok.covered
  matched := ok.matched
  entries entry inside := (ok.entries entry inside).trans quiet.term
  leading role := by
    obtain ⟨role, same⟩ := quiet.leader role
    rw [same]
    exact ok.leading role
  standing role := by
    rcases standing role with ⟨role, same⟩ | moved
    · rw [same]
      exact ok.standing role
    · refine .inl fun entry inside => ?_
      have := ok.entries entry inside
      omega
  fresh role led := by
    rcases standing role with ⟨role, same⟩ | moved
    · rw [same] at led
      exact ok.fresh role led
    · have := ok.led _ led
      omega
  led term led := (ok.led term led).trans quiet.term
  acks term n ack := by
    obtain ⟨below, kept⟩ := ok.acks term n ack
    refine ⟨below.trans quiet.term, fun same => kept (le_antisymm below ?_)⟩
    rw [same]
    exact quiet.term
  peers := peers

/-- **Changes of the nodes beside their logs.** -/
theorem MatchInv.still (inv : MatchInv config s history whole) (election : ElectionInv config t history.led)
    (ids : t.ids = s.cluster.ids) (appends : t.appendCalls = s.cluster.appendCalls)
    (still : ∀ id, Still (s.raft id) (t.raft id))
    (standing : ∀ id, KeepsStanding (s.raft id) (t.raft id)) :
    MatchInv config { s with cluster := t } history whole := by
  have le : ∀ i, s.terms i ≤ (t.raft i).term := fun i => (still i).term
  refine ⟨election, inv.sound, ?_, ?_, ?_⟩
  · intro i member
    have member : i ∈ s.cluster.ids := ids ▸ member
    refine (inv.nodes i member).quiet (still i).toQuiet (standing i) fun role peer inPeers => ?_
    obtain ⟨leads, same⟩ := (still i).leader role
    obtain ⟨next, known⟩ := (still i).indices role
    have inPeers : peer ∈ (s.raft i).peerIds := by
      have := (still i).config
      rw [RaftNode.peerIds] at inPeers ⊢
      rwa [← this]
    have old := ((inv.nodes i member).peers leads peer inPeers).mono (.refl history)
      ⟨i, inv.leads member leads⟩ le
    refine ⟨?_, ?_⟩
    · show ∃ n, (t.raft i).state.matchIndex peer = some n ∧ (n = 0 ∨
        (peer, (t.raft i).term, n) ∈ history.acks ∨ (t.raft i).term < (t.raft peer).term)
      rw [known, same]
      exact old.acked
    · show ∃ n, (t.raft i).state.nextIndex peer = some n ∧
        n ≤ (history.leaderLog (t.raft i).term).length + 1
      rw [next, same]
      exact old.next
  · intro call append found
    show AppendFrom t.ids history call append
    rw [ids]
    exact inv.appends call append (appends ▸ found)
  · intro call snapshot found
    show SnapshotFrom t.ids history (fun i => (t.raft i).term) call snapshot
    rw [ids]
    exact (inv.snapshots call snapshot found).mono (.refl history) le

/-- A change of one node beside its log. -/
theorem MatchInv.setRaft (inv : MatchInv config s history whole) {id : Nat} {node : RaftNode}
    (calm : Calm id (s.raft id) node) (still : Still (s.raft id) node)
    (standing : KeepsStanding (s.raft id) node) :
    MatchInv config { s with cluster := s.cluster.setRaft id node } history whole := by
  refine inv.still (inv.election.setRaft calm) rfl rfl ?_ ?_
  · exact Cluster.setRaft_rel Still.refl still
  · exact Cluster.setRaft_rel KeepsStanding.refl standing

/-- Changes beside the nodes and the append requests. -/
theorem MatchInv.frame (inv : MatchInv config s history whole) (election : ElectionInv config t history.led)
    (ids : t.ids = s.cluster.ids) (appends : t.appendCalls = s.cluster.appendCalls)
    (rafts : t.raft = s.cluster.raft) : MatchInv config { s with cluster := t } history whole := by
  refine inv.still election ids appends (fun i => ?_) fun i => ?_
  · rw [rafts]
    exact .refl _
  · rw [rafts]
    exact fun role => .inl ⟨role, rfl⟩

/-! ### Rounds of requests -/

/-- A step that begins no round sends no snapshots. -/
theorem sendSnapshots_of_rounds
    (rounds : ∀ i, (t.members i).rounds = (s.cluster.members i).rounds) :
    s.sendSnapshots t = { s with cluster := t } := by
  unfold sendSnapshots
  congr 1
  funext call
  refine if_neg fun fresh => ?_
  obtain ⟨same, before, -⟩ := fresh
  rw [rounds, ← same] at before
  exact before.false

theorem sendHeartbeats_rounds (t : Cluster) {id i : Nat}
    (moved : (t.members i).rounds < ((t.sendHeartbeats id).members i).rounds) :
    i = id ∧ (t.raft id).state.role = .leader := by
  rw [Cluster.sendHeartbeats] at moved
  dsimp only at moved
  split at moved
  case isFalse => exact absurd moved (lt_irrefl _)
  case isTrue leads =>
    dsimp only at moved
    by_cases same : i = id
    · exact ⟨same, by simpa [RaftState.isLeader] using leads⟩
    · rw [Function.update_of_ne same] at moved
      exact absurd moved (lt_irrefl _)

/-- **The append request of a leader** is a stretch of its log, also above a snapshot. -/
theorem MatchInv.appendRequest (inv : MatchInv config s history whole) (valid : config.Valid)
    {id : Nat} (member : id ∈ s.cluster.ids) (role : (s.raft id).state.role = .leader) {call : CallId}
    (owner : call.owner = id) (inPeers : call.peer ∈ (s.raft id).peerIds)
    {request : AppendEntriesRequest} (built : (s.raft id).appendRequest call.peer = some request) :
    AppendFrom s.cluster.ids history call ⟨request, (s.raft id).log.lastIndex, [], false⟩ := by
  subst owner
  have ok := inv.nodes call.owner member
  have log := ok.leading role
  have represents := ok.represents
  obtain ⟨inside, ne⟩ := (inv.election.peers valid member (s.raft call.owner) rfl).1 call.peer inPeers
  obtain ⟨n, next, reach⟩ := (ok.peers role call.peer inPeers).next
  have above : (s.raft call.owner).log.firstIndex ≤ max n 1 := by
    by_contra behind
    have data : (s.raft call.owner).log.snapshotData.isSome := represents.data.mpr (by omega)
    rw [RaftNode.appendRequest, next] at built
    dsimp only at built
    rw [if_pos ⟨by show n < _; omega, data⟩] at built
    cases built
  rw [RaftNode.appendRequest, next] at built
  dsimp only at built
  rw [Option.getD_some] at built
  split at built
  · cases built
  rw [represents.getRange_eq above, log] at built
  have built := Option.some.inj built
  subst built
  set L := history.leaderLog (s.raft call.owner).term with LDef
  have start : max n 1 - 1 = n - 1 := by omega
  refine ⟨member, inside, ne, inv.leads member role, ?_, ?_, ?_,
    fun response none => by cases none⟩
  · show n - 1 + (List.take _ (List.drop (max n 1 - 1) L)).length ≤ L.length
    rw [start, List.length_take, List.length_drop]
    omega
  · show List.take _ (List.drop (max n 1 - 1) L) =
      List.take (List.take _ (List.drop (max n 1 - 1) L)).length (List.drop (n - 1) L)
    rw [start, List.length_take]
    exact (List.take_eq_take_min).symm ▸ rfl
  · show (n - 1 = 0 ∧ ((s.raft call.owner).log.termAt (n - 1)).getD 0 = 0) ∨ (0 < n - 1 ∧
      ∃ entry, L[n - 1 - 1]? = some entry ∧ entry.term = ((s.raft call.owner).log.termAt (n - 1)).getD 0)
    rcases Nat.eq_zero_or_pos (n - 1) with zero | positive
    · rw [zero]
      exact .inl ⟨rfl, rfl⟩
    · refine .inr ⟨positive, ?_⟩
      rw [represents.termAt_eq positive (by omega), log]
      have within : n - 1 - 1 < L.length := by omega
      exact ⟨L[n - 1 - 1], List.getElem?_eq_getElem within, by
        rw [List.getElem?_eq_getElem within]
        rfl⟩

/-- **The snapshot request of a leader** carries the beginning of its log. -/
theorem MatchInv.snapshotRequest (inv : MatchInv config s history whole) (valid : config.Valid)
    {id : Nat} (member : id ∈ s.cluster.ids) (role : (s.raft id).state.role = .leader) {call : CallId}
    (owner : call.owner = id) (inPeers : call.peer ∈ (s.raft id).peerIds)
    {request : InstallSnapshotRequest} (built : (s.raft id).snapshotRequest call.peer = some request) :
    SnapshotFrom s.cluster.ids history s.terms call ⟨request, s.covered id, [], false⟩ := by
  subst owner
  have ok := inv.nodes call.owner member
  have log := ok.leading role
  obtain ⟨inside, ne⟩ := (inv.election.peers valid member (s.raft call.owner) rfl).1 call.peer inPeers
  rw [RaftNode.snapshotRequest] at built
  split at built
  case isFalse => cases built
  case isTrue behind =>
    obtain ⟨data, held, same⟩ := Option.map_eq_some_iff.mp built
    have more : 1 < (s.raft call.owner).log.firstIndex := ok.represents.data.mp (by rw [held]; rfl)
    obtain ⟨entry, found, term⟩ := ok.represents.snapshot more
    subst same
    refine ⟨member, inside, ne, inv.leads member role, rfl, ?_, ⟨?_, ?_⟩,
      fun some => absurd rfl some⟩
    · exact ok.covered.trans (congrArg _ log)
    · show 0 < (s.raft call.owner).log.firstIndex - 1
      omega
    · refine ⟨entry, ?_, term⟩
      rw [log] at found
      exact found

/-- **A round of requests.** -/
theorem MatchInv.round (inv : MatchInv config { s with cluster := t } history whole)
    (valid : config.Valid) {id : Nat} (member : id ∈ t.ids)
    (rounds : ∀ i, (t.members i).rounds = (s.cluster.members i).rounds) :
    MatchInv config (s.sendSnapshots (t.sendHeartbeats id)) history whole := by
  have rafts : (t.sendHeartbeats id).raft = t.raft := funext fun i => Cluster.sendHeartbeats_raft ..
  have sameTerms : (s.sendSnapshots (t.sendHeartbeats id)).terms =
      SnapshotCluster.terms { s with cluster := t } :=
    funext fun i => congrArg RaftNode.term (congrFun rafts i)
  refine ⟨inv.election.sendHeartbeats id, inv.sound, ?_, ?_, ?_⟩
  · intro i inside
    rw [sameTerms]
    show NodeOk _ _ i ((t.sendHeartbeats id).raft i) _ _
    rw [rafts]
    exact inv.nodes i (Cluster.sendHeartbeats_ids t id ▸ inside)
  · intro call new found
    show AppendFrom (t.sendHeartbeats id).ids history call new
    rw [Cluster.sendHeartbeats_ids]
    rcases Cluster.sendHeartbeats_found found with old | ⟨role, owner, inPeers, request, built, rfl⟩
    · exact inv.appends call new old
    · exact inv.appendRequest valid member role owner inPeers built
  · intro call new found
    rw [sameTerms]
    show SnapshotFrom (t.sendHeartbeats id).ids history _ call new
    rw [Cluster.sendHeartbeats_ids]
    rw [sendSnapshots] at found
    dsimp only at found
    split at found
    case isFalse => exact inv.snapshots call new found
    case isTrue fresh =>
      obtain ⟨number, moved, inPeers, -⟩ := fresh
      rw [number, ← rounds] at moved
      obtain ⟨owner, role⟩ := sendHeartbeats_rounds t moved
      rw [rafts] at found inPeers
      obtain ⟨request, built, same⟩ := Option.map_eq_some_iff.mp found
      rw [owner] at built inPeers same
      rw [← same]
      exact inv.snapshotRequest valid member role owner inPeers built

/-! ### Elections -/

theorem launch_rounds (t : Cluster) (id : Nat) (node : RaftNode) (request : RequestVoteRequest) (i : Nat) :
    ((t.launch id node request).members i).rounds = (t.members i).rounds := by
  rw [Cluster.launch]
  dsimp only
  by_cases same : i = id
  · rw [same, Function.update_self]
  · rw [Function.update_of_ne same]

/-- A counting loop begins, with its calls. -/
theorem MatchInv.launch (inv : MatchInv config s history whole) {id : Nat} {node : RaftNode}
    {request : RequestVoteRequest}
    (election : ElectionInv config (s.cluster.launch id node request) history.led)
    (still : Still (s.raft id) node) (standing : KeepsStanding (s.raft id) node) :
    MatchInv config { s with cluster := s.cluster.launch id node request } history whole := by
  refine inv.still election rfl rfl ?_ ?_
  · rw [Cluster.launch_raft]
    exact Cluster.setRaft_rel Still.refl still
  · rw [Cluster.launch_raft]
    exact Cluster.setRaft_rel KeepsStanding.refl standing

theorem MatchInv.others (inv : MatchInv config s history whole) (valid : config.Valid)
    (two : 2 ≤ config.ids.length) {id : Nat} (member : id ∈ s.cluster.ids) (node : RaftNode)
    (own : node.config = (s.raft id).config) : ¬ node.peerIds.isEmpty = true := by
  have others := inv.election.others valid two member node own
  simpa [List.isEmpty_iff] using List.ne_nil_of_mem others.choose_spec

theorem MatchInv.startPreVote (inv : MatchInv config s history whole) (valid : config.Valid)
    (two : 2 ≤ config.ids.length) {id : Nat} (member : id ∈ s.cluster.ids) :
    MatchInv config { s with cluster := s.cluster.startPreVote id } history whole ∧
      ∀ i, ((s.cluster.startPreVote id).members i).rounds = (s.cluster.members i).rounds := by
  have election := inv.election.startPreVote valid two member
  have begun : s.cluster.startPreVote id =
      s.cluster.launch id (s.raft id).startPreVote.1 (s.raft id).startPreVote.2 := by
    rw [Cluster.startPreVote]
    exact if_neg (inv.others valid two member (s.raft id).startPreVote.1 rfl)
  rw [begun] at election ⊢
  obtain ⟨still, standing⟩ := Still.startPreVote (s.raft id)
  exact ⟨inv.launch election still standing, launch_rounds _ _ _ _⟩

theorem MatchInv.startRealElection (inv : MatchInv config s history whole) (valid : config.Valid)
    (two : 2 ≤ config.ids.length) {id : Nat} (member : id ∈ s.cluster.ids) :
    MatchInv config { s with cluster := s.cluster.startRealElection id } history whole ∧
      ∀ i, ((s.cluster.startRealElection id).members i).rounds = (s.cluster.members i).rounds := by
  have election := inv.election.startRealElection valid two member
  have begun : s.cluster.startRealElection id =
      s.cluster.launch id (s.raft id).startRealElection.1 (s.raft id).startRealElection.2 := by
    rw [Cluster.startRealElection]
    exact if_neg (inv.others valid two member (s.raft id).startRealElection.1 rfl)
  rw [begun] at election ⊢
  obtain ⟨still, standing⟩ := Still.startRealElection (s.raft id)
  exact ⟨inv.launch election still standing, launch_rounds _ _ _ _⟩

/-- **An election begins.** -/
theorem MatchInv.startElection (inv : MatchInv config s history whole) (valid : config.Valid)
    (two : 2 ≤ config.ids.length) {id : Nat} (member : id ∈ s.cluster.ids) :
    MatchInv config { s with cluster := s.cluster.startElection id } history whole ∧
      ∀ i, ((s.cluster.startElection id).members i).rounds = (s.cluster.members i).rounds := by
  rw [Cluster.startElection]
  split
  · split
    · exact inv.startPreVote valid two member
    · exact inv.startRealElection valid two member
  · split
    · exact inv.startPreVote valid two member
    · exact inv.startRealElection valid two member
  · exact inv.startRealElection valid two member
  · exact ⟨inv, fun _ => rfl⟩

/-- **A candidate is elected** with the log it has; the entries of it are of earlier terms. -/
theorem MatchInv.elect (inv : MatchInv config s history whole) {id : Nat} (member : id ∈ s.cluster.ids)
    (role : (s.raft id).state.role = .candidate) (positive : 0 < (s.raft id).term)
    (election : ElectionInv config (s.cluster.setRaft id (s.raft id).becomeLeader)
      (insert (id, (s.raft id).term) history.led)) :
    MatchInv config { s with cluster := s.cluster.setRaft id (s.raft id).becomeLeader }
      (history.elect id (s.raft id).term (whole id)) (Function.update whole id (whole id)) := by
  have ok := inv.nodes id member
  set term := (s.raft id).term with termDef
  have unled : ¬ history.Led term := by
    rintro ⟨other, led⟩
    have same : other = id := election.led_unique (.inr led) (.inl rfl)
    rw [same] at led
    exact ok.fresh role led
  have earlier : ∀ entry ∈ whole id, entry.term < term := (ok.standing role).resolve_right unled
  have grows : history.Grows (history.elect id term (whole id)) := History.elect_grows unled
  have now : ∀ i, ({ s with cluster := s.cluster.setRaft id (s.raft id).becomeLeader } :
      SnapshotCluster).terms i = s.terms i := by
    intro i
    by_cases same : i = id
    · rw [same]
      show RaftNode.term ((s.cluster.setRaft id _).raft id) = _
      rw [setRaft_raft_self]
      rfl
    · show RaftNode.term ((s.cluster.setRaft id _).raft i) = _
      rw [setRaft_raft_of_ne _ _ same]
      rfl
  refine inv.change election
    (inv.sound.elect unled positive earlier ok.represents.indexed ok.matched) grows
    (fun other _ ne => History.elect_beside unled ne) rfl rfl rfl
    (fun other ne => ⟨setRaft_raft_of_ne _ _ ne, rfl⟩) (now id).ge fun _ => ?_
  show NodeOk _ _ id ((s.cluster.setRaft id _).raft id) _ _
  rw [setRaft_raft_self]
  refine ⟨ok.represents, ok.covered, grows.matched ok.matched, ok.entries, fun _ => ?_,
    fun candidate => (by cases candidate), fun candidate => (by cases candidate), fun term' led => ?_,
    fun term' n ack => ?_, fun _ peer inPeers => ?_⟩
  · exact History.elect_leaderLog_self.symm
  · rcases led with new | old
    · cases new
      exact le_rfl
    · exact ok.led term' old
  · rcases ack with new | old
    · cases new
      refine ⟨le_rfl, fun _ => ?_⟩
      rw [History.elect_leaderLog_self]
      exact List.take_prefix _ _
    · obtain ⟨led, inside⟩ := inv.sound.acks id term' n old
      rw [grows.take_eq led inside]
      exact ok.acks term' n old
  · have listed : peer ∈ (s.raft id).config.peers := (List.mem_filter.mp inPeers).1
    refine ⟨⟨0, if_pos listed, .inl rfl⟩, (s.raft id).log.lastIndex + 1, if_pos listed, ?_⟩
    show _ ≤ ((history.elect id term (whole id)).leaderLog term).length + 1
    rw [History.elect_leaderLog_self]
    exact Nat.succ_le_succ ok.represents.last_le

/-! ### Requests that reach their peers -/

/-- **A node follows the leader of a term.** Its list has the acknowledged part of that leader's log, and
keeps what it had acknowledged in the term before. -/
theorem NodeOk.follow {terms terms' : Nat → Nat} {id term k : Nat} {node new : RaftNode}
    {covered covered' l l' : List LogEntry} (ok : NodeOk history terms id node covered l)
    (sound : history.Sound) (led : history.Led term) (behind : node.term ≤ term)
    (atTerm : new.term = term) (follows : new.state.role ≠ .leader)
    (fresh : new.state.role = .candidate → (id, term) ∉ history.led)
    (represents : new.log.Represents l') (covers : covered' = l'.take new.log.snapshotIndex)
    (matched : Matched history l') (entries : ∀ entry ∈ l', entry.term ≤ term)
    (stretch : (history.leaderLog term).take k <+: l')
    (keeps : ∀ n, n ≤ (history.leaderLog term).length → (history.leaderLog term).take n <+: l →
      (history.leaderLog term).take n <+: l') :
    NodeOk (history.acknowledge id term k) terms' id new covered' l' where
  represents := represents
  covered := covers
  matched := History.acknowledge_grows.matched matched
  entries := atTerm ▸ entries
  leading role := absurd role follows
  standing _ := .inr (atTerm ▸ led)
  fresh role := atTerm ▸ fresh role
  led term' led' := atTerm ▸ (ok.led term' led').trans behind
  acks term' n ack := by
    rw [atTerm]
    rcases ack with new | old
    · cases new
      exact ⟨le_rfl, fun _ => stretch⟩
    · obtain ⟨below, kept⟩ := ok.acks term' n old
      refine ⟨below.trans behind, fun same => ?_⟩
      subst same
      exact keeps n (sound.acks id term' n old).2 (kept (le_antisymm below behind))
  peers role := absurd role follows

/-- A peer that observes the term of a request is no leader of it, since another node leads it. -/
theorem MatchInv.observed (inv : MatchInv config s history whole) {owner peer term : Nat}
    (member : peer ∈ s.cluster.ids) (led : (owner, term) ∈ history.led) (ne : peer ≠ owner)
    (behind : (s.raft peer).term ≤ term) :
    ((s.raft peer).observeTerm term).term = term ∧
    ((s.raft peer).observeTerm term).state.role ≠ .leader ∧
    (((s.raft peer).observeTerm term).state.role = .candidate → (peer, term) ∉ history.led) := by
  refine ⟨RaftNode.observeTerm_term behind, fun role => ?_, fun role => ?_⟩
  · obtain ⟨leads, same⟩ := (RaftNode.observeTerm_calm peer (s.raft peer) term).leader role
    have here := inv.leads member leads
    rw [RaftNode.observeTerm_term behind] at same
    rw [RaftNode.term, ← same] at here
    exact ne (inv.election.led_unique here led)
  · rw [RaftNode.observeTerm] at role
    split at role
    · cases role
    case isFalse notLater =>
      have same : (s.raft peer).term = term := le_antisymm behind (Nat.not_lt.mp notLater)
      rw [← same]
      exact (inv.nodes peer member).fresh role

/-- Where the list has the stretch of the request, nothing lies behind it. -/
theorem length_le_of_represents {node : RaftNode} {request : AppendEntriesRequest}
    {l : List LogEntry} (represents : node.log.Represents l)
    (above : node.log.snapshotIndex ≤ request.prevLogIndex) (keeps : node.KeepsLog request)
    (ne : request.entries ≠ [])
    (has : l.take (request.prevLogIndex + request.entries.length) =
      l.take request.prevLogIndex ++ request.entries) :
    l.length ≤ request.prevLogIndex + request.entries.length := by
  rw [snapshotIndex] at above
  have present : node.log.getRange (request.prevLogIndex + 1)
      (request.prevLogIndex + 1 + request.entries.length) = request.entries := by
    rw [represents.getRange_eq (by omega),
      show max (request.prevLogIndex + 1) 1 = request.prevLogIndex + 1 by omega,
      Nat.add_sub_cancel, Nat.add_sub_cancel_left]
    rw [List.take_add] at has
    exact List.append_cancel_left has
  have last := keeps ne present
  rcases represents.last with same | ⟨-, ahead⟩
  · exact same ▸ last
  · omega

/-- **What an accepted append request makes of the list.** -/
theorem MatchInv.spliced (inv : MatchInv config s history whole) {id : CallId} {call : AppendCall}
    (found : s.cluster.appendCalls id = some call)
    (accepts : (s.raft id.peer).Accepts call.request) (fits : s.Fits (.deliverAppend id)) :
    ∃ l', (RaftNode.spliceLog (s.raft id.peer).log call.request.entries).Represents l' ∧
      l'.take (s.raft id.peer).log.snapshotIndex =
        (whole id.peer).take (s.raft id.peer).log.snapshotIndex ∧
      (RaftNode.spliceLog (s.raft id.peer).log call.request.entries).snapshotIndex =
        (s.raft id.peer).log.snapshotIndex ∧
      Matched history l' ∧ (∀ entry ∈ l', entry.term ≤ call.request.term) ∧
      (history.leaderLog call.request.term).take
        (call.request.prevLogIndex + call.request.entries.length) <+: l' ∧
      ∀ n, n ≤ (history.leaderLog call.request.term).length →
        (history.leaderLog call.request.term).take n <+: whole id.peer →
        (history.leaderLog call.request.term).take n <+: l' := by
  have sent := inv.appends id call found
  have ok := inv.nodes id.peer sent.peer
  have led : history.Led call.request.term := ⟨_, sent.led⟩
  have represents := ok.represents
  set node := s.raft id.peer with nodeDef
  set l := whole id.peer with lDef
  set L := history.leaderLog call.request.term with LDef
  set prev := call.request.prevLogIndex with prevDef
  set entries := call.request.entries with entriesDef
  have stretch : entries = (L.drop prev).take entries.length := sent.stretch
  have within : prev + entries.length ≤ L.length := sent.inside
  obtain ⟨inside, agree⟩ : prev ≤ l.length ∧ l.take prev = L.take prev :=
    represents.agree ok.matched (inv.sound.matched _ led) accepts.2 sent.prevTerm
  rcases eq_or_ne entries [] with empty | ne
  · refine ⟨l, ?_, rfl, ?_, ok.matched, fun entry member => ?_, ?_, fun n _ kept => kept⟩
    · rw [empty]
      exact represents
    · rw [empty]
      rfl
    · exact (ok.entries entry member).trans accepts.1
    · rw [empty, List.length_nil, Nat.add_zero, ← agree]
      exact List.take_prefix _ _
  obtain ⟨above, keepsLog⟩ : node.log.snapshotIndex ≤ prev ∧ node.KeepsLog call.request :=
    fits call found accepts ne
  have indexed : IndexedFrom prev entries := by
    intro i entry here
    have short : i < entries.length := (List.getElem?_eq_some_iff.mp here).1
    rw [stretch, List.getElem?_take_of_lt short, List.getElem?_drop] at here
    rw [inv.sound.indexed _ led _ entry here]
    omega
  have spliced := represents.splice above inside ne indexed
  have part : l.take prev ++ entries = L.take (prev + entries.length) := by
    rw [agree, List.take_add, ← stretch]
  have reach : (L.take (prev + entries.length)).length = prev + entries.length := by
    rw [List.length_take, Nat.min_eq_left within]
  have sameIndex : (RaftNode.spliceLog node.log entries).snapshotIndex = node.log.snapshotIndex := by
    rw [snapshotIndex, snapshotIndex, RaftNode.spliceLog_firstIndex]
  rw [part] at spliced
  refine ⟨_, spliced, ?_, sameIndex, (inv.sound.matched _ led).of_initial (List.take_prefix _ _),
    fun entry member => inv.sound.term_le led (List.mem_of_mem_take member), List.prefix_rfl,
    fun n below kept => ?_⟩
  · rw [← part, List.take_append_of_le_length (by rw [List.length_take]; omega), List.take_take,
      Nat.min_eq_left above]
  · rcases Nat.le_total n (prev + entries.length) with le | beyond
    · exact List.take_prefix_take_left le
    · -- the log already had the entries of the request, and ends with them
      have size : (L.take n).length = n := by rw [List.length_take, Nat.min_eq_left below]
      have long : n ≤ l.length := size.ge.trans kept.length_le
      have has : l.take (prev + entries.length) = l.take prev ++ entries := by
        rw [part, take_eq_of_initial kept (beyond.trans size.ge), List.take_take,
          Nat.min_eq_left beyond]
      have end_ : l.length ≤ prev + entries.length :=
        length_le_of_represents represents above keepsLog ne has
      rw [show n = prev + entries.length by omega]

/-- **An append request reaches its peer.** -/
theorem MatchInv.deliverAppend (inv : MatchInv config s history whole) {id : CallId}
    {call : AppendCall} (found : s.cluster.appendCalls id = some call)
    (fits : s.Fits (.deliverAppend id)) :
    ∃ later whole', MatchInv config { s with cluster := s.cluster.deliverAppend id call } later whole' := by
  have sent := inv.appends id call found
  have led : history.Led call.request.term := ⟨_, sent.led⟩
  rw [Cluster.deliverAppend_eq]
  by_cases accepts : (s.raft id.peer).Accepts call.request
  · obtain ⟨l', represents, sameCovered, sameIndex, matched, entries, stretch, keeps⟩ :=
      inv.spliced found accepts fits
    obtain ⟨atTerm, follows, fresh⟩ := inv.observed sent.peer sent.led sent.ne accepts.1
    obtain ⟨node_eq, response⟩ := RaftNode.handleAppendEntries_accept accepts
    set node := ((s.raft id.peer).handleAppendEntries call.request).1 with nodeDef
    have state : node.term = call.request.term ∧
        node.state.role = ((s.raft id.peer).observeTerm call.request.term).state.role := by
      rw [node_eq, RaftNode.term, RaftNode.followCommit]
      dsimp only
      split <;> exact ⟨atTerm, rfl⟩
    have log : node.log = RaftNode.spliceLog (s.raft id.peer).log call.request.entries := by
      rw [node_eq]
    have calm := RaftNode.handleAppendEntries_calm id.peer (s.raft id.peer) call.request
    have moved : MatchInv config { s with cluster := s.cluster.setRaft id.peer node }
        (history.acknowledge id.peer call.request.term
          (call.request.prevLogIndex + call.request.entries.length))
        (Function.update whole id.peer l') := by
      refine inv.change (inv.election.setRaft calm) (inv.sound.acknowledge led sent.inside)
        History.acknowledge_grows (fun other _ ne => History.acknowledge_beside ne) rfl rfl rfl
        (fun other ne => ⟨setRaft_raft_of_ne _ _ ne, rfl⟩) ?_ fun member => ?_
      · show _ ≤ RaftNode.term ((s.cluster.setRaft id.peer node).raft id.peer)
        rw [setRaft_raft_self, state.1]
        exact accepts.1
      · show NodeOk _ _ _ ((s.cluster.setRaft id.peer node).raft id.peer) _ _
        rw [setRaft_raft_self]
        refine (inv.nodes id.peer member).follow inv.sound led accepts.1 state.1 (state.2 ▸ follows)
          (fun role => fresh (state.2 ▸ role)) (log ▸ represents) ?_ matched entries stretch keeps
        rw [log, sameIndex, sameCovered]
        exact (inv.nodes id.peer member).covered
    refine ⟨_, _, moved.setAppend found rfl fun answer member => ?_⟩
    rcases List.mem_append.mp member with old | new
    · exact (moved.appends id call found).replies answer old
    · rw [List.mem_singleton.mp new]
      have answered : ((s.cluster.raft id.peer).handleAppendEntries call.request).2 =
          ⟨(s.raft id.peer).state.currentTerm, true,
            call.request.prevLogIndex + call.request.entries.length, 0, 0⟩ := response
      rw [answered]
      exact ⟨fun _ => .inl rfl, Nat.zero_le _⟩
  · obtain ⟨still, standing, refused, inside, -⟩ := Cluster.handleAppendEntries_reject accepts
    have moved := inv.setRaft (RaftNode.handleAppendEntries_calm id.peer _ call.request) still standing
    refine ⟨_, _, moved.setAppend found rfl fun answer member => ?_⟩
    rcases List.mem_append.mp member with old | new
    · exact sent.replies answer old
    · rw [List.mem_singleton.mp new]
      refine ⟨fun yes => absurd (refused.symm.trans yes) Bool.false_ne_true, ?_⟩
      have := sent.inside
      exact inside.trans (by omega)

/-! ### Responses -/

/-- **The task of an append request takes a response.** -/
theorem MatchInv.appendReply (inv : MatchInv config s history whole) {id : CallId} {call : AppendCall}
    (found : s.cluster.appendCalls id = some call) {response : AppendEntriesResponse}
    (received : response ∈ call.replies) {reply : Nat} (fits : s.Fits (.appendReply id reply)) :
    ∃ whole', MatchInv config { s with cluster := s.cluster.appendReply id call response } history
      whole' := by
  have sent := inv.appends id call found
  set node := (s.raft id.owner).handleAppendReply id.peer call.leaderLastIndex response with nodeDef
  obtain ⟨config_eq, log_eq, -, -⟩ := RaftNode.handleAppendReply_beside (s.raft id.owner) id.peer
    call.leaderLastIndex response
  have calm := RaftNode.handleAppendReply_calm id.owner (s.raft id.owner) id.peer
    call.leaderLastIndex response
  obtain ⟨commit, state⟩ := RaftNode.handleAppendReply_state (s.raft id.owner) id.peer
    call.leaderLastIndex response
  obtain ⟨term, role⟩ := RaftNode.handleAppendReply_ballot (s.raft id.owner) id.peer
    call.leaderLastIndex response
  rw [← nodeDef] at config_eq log_eq calm state term role
  change node.term = (s.raft id.owner).term at term
  have terms : ∀ i, (s.raft i).term ≤ ((s.cluster.setRaft id.owner node).raft i).term :=
    Cluster.setRaft_terms term.ge
  have moved : MatchInv config { s with cluster := s.cluster.setRaft id.owner node } history
      (Function.update whole id.owner (whole id.owner)) := by
    refine inv.change (inv.election.setRaft calm) inv.sound (.refl history)
      (fun other _ _ => .refl history other) rfl rfl rfl
      (fun other ne => ⟨setRaft_raft_of_ne _ _ ne, rfl⟩) (terms id.owner) fun member => ?_
    show NodeOk _ _ _ ((s.cluster.setRaft id.owner node).raft id.owner) _ _
    rw [setRaft_raft_self]
    refine (inv.nodes id.owner member).quiet
      ⟨config_eq, log_eq, term.ge, fun leads => ⟨role ▸ leads, term⟩⟩
      (fun candidate => .inl ⟨role ▸ candidate, term⟩) fun leads peer inPeers => ?_
    have leads : (s.raft id.owner).state.role = .leader := role ▸ leads
    have inPeers : peer ∈ (s.raft id.owner).peerIds := by
      rw [RaftNode.peerIds] at inPeers ⊢
      rwa [← config_eq]
    have atTerm : (s.raft id.owner).term = call.request.term := fits call found leads
    have old := ((inv.nodes id.owner member).peers leads peer inPeers).mono (.refl history)
      ⟨id.owner, inv.leads member leads⟩ terms
    obtain ⟨⟨m, known, acked⟩, n, next, reach⟩ := old
    by_cases same : peer = id.peer
    · subst same
      obtain ⟨success, conflict⟩ := sent.replies response received
      rw [← atTerm] at success conflict
      rcases Cluster.noteAppendReply_self known next with
        ⟨yes, known', next'⟩ | ⟨no, known', ⟨-, next'⟩ | ⟨-, next'⟩⟩
      · have ack := success yes
        have inside := (inv.sound.acks _ _ _ ack).2
        refine ⟨⟨_, by rw [state]; exact known', ?_⟩, _, by rw [state]; exact next', ?_⟩
        · rw [term]
          exact .inr (.inl ack)
        · rw [term]
          exact Nat.succ_le_succ inside
      · refine ⟨⟨m, by rw [state]; exact known', ?_⟩, _, by rw [state]; exact next', ?_⟩
        · rw [term]
          exact acked
        · rw [term]
          exact conflict.trans (Nat.le_succ _)
      · refine ⟨⟨m, by rw [state]; exact known', ?_⟩, _, by rw [state]; exact next', ?_⟩
        · rw [term]
          exact acked
        · rw [term]
          exact (Nat.sub_le _ _).trans reach
    · have kept : (RaftNode.noteAppendReply (s.raft id.owner).state id.peer response).nextIndex peer =
            (s.raft id.owner).state.nextIndex peer ∧
          (RaftNode.noteAppendReply (s.raft id.owner).state id.peer response).matchIndex peer =
            (s.raft id.owner).state.matchIndex peer := Cluster.noteAppendReply_of_ne same
      obtain ⟨next', known'⟩ := kept
      refine ⟨⟨m, by rw [state]; exact known'.trans known, ?_⟩, n,
        by rw [state]; exact next'.trans next, ?_⟩
      · rw [term]
        exact acked
      · rw [term]
        exact reach
  exact ⟨_, moved.setAppend found rfl (moved.appends id call found).replies⟩

/-- **The task of a snapshot request takes a response**, whatever the response says: the peer has taken
the snapshot, or it is in a later term. -/
theorem MatchInv.snapshotReply (inv : MatchInv config s history whole) {id : CallId}
    {call : SnapshotCall} (found : s.snapshotCalls id = some call) (answered : call.replies ≠ [])
    {reply : Nat} (inOrder : s.InOrder (.snapshotReply id reply)) :
    ∃ whole', MatchInv config (s.snapshotReply id call) history whole' := by
  have sent := inv.snapshots id call found
  set node := (s.raft id.owner).handleSnapshotReply id.peer call.request.lastIncludedIndex with nodeDef
  have calm : Calm id.owner (s.raft id.owner) node := .of_same rfl rfl rfl rfl
  have terms : ∀ i, (s.raft i).term ≤ ((s.cluster.setRaft id.owner node).raft i).term :=
    Cluster.setRaft_terms le_rfl
  have moved : MatchInv config { s with cluster := s.cluster.setRaft id.owner node } history
      (Function.update whole id.owner (whole id.owner)) := by
    refine inv.change (inv.election.setRaft calm) inv.sound (.refl history)
      (fun other _ _ => .refl history other) rfl rfl rfl
      (fun other ne => ⟨setRaft_raft_of_ne _ _ ne, rfl⟩) (terms id.owner) fun member => ?_
    show NodeOk _ _ _ ((s.cluster.setRaft id.owner node).raft id.owner) _ _
    rw [setRaft_raft_self]
    refine (inv.nodes id.owner member).quiet ⟨rfl, rfl, le_rfl, fun leads => ⟨leads, rfl⟩⟩
      (fun candidate => .inl ⟨candidate, rfl⟩) fun leads peer inPeers => ?_
    have atTerm : (s.raft id.owner).term = call.request.term := inOrder call found leads
    obtain ⟨⟨m, known, acked⟩, n, next, reach⟩ :=
      ((inv.nodes id.owner member).peers leads peer inPeers).mono (.refl history)
        ⟨id.owner, inv.leads member leads⟩ terms
    by_cases same : peer = id.peer
    · subst same
      refine ⟨⟨_, Function.update_self .., .inr ?_⟩, _, Function.update_self .., ?_⟩
      · show (id.peer, (s.raft id.owner).term, call.request.lastIncludedIndex) ∈ history.acks ∨
          (s.raft id.owner).term < _
        rw [atTerm]
        exact (sent.replies answered).imp_right fun left => left.trans_le (terms id.peer)
      · show _ ≤ (history.leaderLog (s.raft id.owner).term).length + 1
        rw [atTerm]
        exact Nat.succ_le_succ sent.inside
    · exact ⟨⟨m, (Function.update_of_ne same ..).trans known, acked⟩, n,
        (Function.update_of_ne same ..).trans next, reach⟩
  exact ⟨_, moved.setSnapshot found rfl rfl (moved.snapshots id call found).replies⟩

/-! ### Proposals and application -/

/-- **A leader appends an entry to its log**, unless its snapshot is ahead of the log. -/
theorem MatchInv.propose (inv : MatchInv config s history whole) (valid : config.Valid)
    (two : 2 ≤ config.ids.length) {id : Nat} (member : id ∈ s.cluster.ids)
    (role : (s.raft id).state.role = .leader)
    (inside : (s.raft id).log.snapshotIndex ≤ (s.raft id).log.lastIndex) (entryType : EntryType)
    (data : Bytes) : ∃ later whole', MatchInv config
      { s with cluster := s.cluster.setRaft id ((s.raft id).propose entryType data) } later whole' := by
  have ok := inv.nodes id member
  have leads := inv.leads member role
  have last := ok.represents.last_eq inside
  set l := whole id with lDef
  set entry : LogEntry := ⟨(s.raft id).log.lastIndex + 1, (s.raft id).term, data, entryType⟩
    with entryDef
  set node := (s.raft id).propose entryType data with nodeDef
  have others : (s.raft id).config.peers.isEmpty = false := by
    obtain ⟨peer, inPeers⟩ := inv.election.others valid two member (s.raft id) rfl
    rw [List.isEmpty_eq_false_iff]
    exact List.ne_nil_of_mem (List.mem_filter.mp inPeers).1
  have node_eq : node = { s.raft id with log := (s.raft id).log.append [entry] } := by
    rw [nodeDef, RaftNode.propose, if_neg (by rw [others]; decide)]
    rfl
  have index : entry.index = l.length + 1 := by
    show (s.raft id).log.lastIndex + 1 = _
    rw [last]
  have spliced : (s.raft id).log.append [entry] = RaftNode.spliceLog (s.raft id).log [entry] := by
    rw [RaftNode.spliceLog]
    exact congrArg (RaftLog.append · [entry])
      (if_neg (Nat.not_le.mpr (Nat.lt_succ_self (s.raft id).log.lastIndex))).symm
  have represents := ok.represents.splice (last ▸ inside) le_rfl (List.cons_ne_nil entry [])
    (IndexedFrom.singleton index)
  rw [List.take_length, ← spliced] at represents
  have sameIndex : ((s.raft id).log.append [entry]).snapshotIndex = (s.raft id).log.snapshotIndex := by
    rw [snapshotIndex, snapshotIndex, spliced, RaftNode.spliceLog_firstIndex]
  have alone : ∀ other, (other, (s.raft id).term) ∈ history.led → other = id :=
    fun other led => inv.election.led_unique led leads
  have grows : history.Grows (history.extend id (s.raft id).term entry) := History.extend_grows
  have sound' := inv.sound.extend leads alone (rfl : entry.term = _)
    (by rw [index, ok.leading role])
  have leaderLog' : (history.extend id (s.raft id).term entry).leaderLog (s.raft id).term =
      l ++ [entry] := by
    rw [History.extend_leaderLog_self, ← ok.leading role]
  refine ⟨history.extend id (s.raft id).term entry, Function.update whole id (l ++ [entry]),
    inv.change (inv.election.setRaft (RaftNode.propose_calm id _ entryType data)) sound' grows
    (fun other _ ne => History.extend_beside (fun led => ne (alone other led)) ne) rfl rfl rfl
    (fun other ne => ⟨setRaft_raft_of_ne _ _ ne, rfl⟩) ?_ fun _ => ?_⟩
  · show _ ≤ RaftNode.term ((s.cluster.setRaft id node).raft id)
    rw [setRaft_raft_self, node_eq]
    exact le_rfl
  show NodeOk _ _ _ ((s.cluster.setRaft id node).raft id) _ (l ++ [entry])
  have terms : ∀ i, (s.raft i).term ≤ ((s.cluster.setRaft id node).raft i).term := by
    refine Cluster.setRaft_terms ?_
    rw [node_eq]
    exact le_rfl
  have known : ∀ peer ∈ (s.raft id).peerIds, PeerKnown (history.extend id (s.raft id).term entry)
      (fun i => ((s.cluster.setRaft id node).raft i).term) (s.raft id) peer :=
    fun peer inPeers => (ok.peers role peer inPeers).mono grows ⟨id, leads⟩ terms
  rw [node_eq] at known
  rw [setRaft_raft_self, node_eq]
  refine ⟨represents, ?_, ?_, fun other stored => ?_, fun _ => leaderLog'.symm,
    fun candidate => (by rw [role] at candidate; cases candidate),
    fun candidate => (by rw [role] at candidate; cases candidate), ok.led, fun term n ack => ?_,
    fun _ peer inPeers => ?_⟩
  · show s.covered id = _
    rw [sameIndex, ok.covered, List.take_append_of_le_length (last ▸ inside)]
  · rw [← leaderLog']
    exact sound'.matched _ (grows.led_of ⟨id, leads⟩)
  · rcases List.mem_append.mp stored with old | new
    · exact ok.entries other old
    · rw [List.mem_singleton.mp new]
      exact le_rfl
  · rcases ack with new | old
    · cases new
      refine ⟨le_rfl, fun _ => ?_⟩
      rw [leaderLog']
      exact List.take_prefix _ _
    · obtain ⟨led, reach⟩ := inv.sound.acks id term n old
      obtain ⟨below, kept⟩ := ok.acks term n old
      rw [grows.take_eq led reach]
      exact ⟨below, fun same => (kept same).trans (List.prefix_append _ _)⟩
  · exact ⟨(known peer inPeers).acked, (known peer inPeers).next⟩

/-- A node applies what it has committed. -/
theorem MatchInv.apply (inv : MatchInv config s history whole) (id : Nat) :
    ∃ whole', MatchInv config
      { s with cluster := s.cluster.setRaft id (s.raft id).applyCommittedEntries } history whole' := by
  refine ⟨Function.update whole id (whole id),
    inv.change (inv.election.setRaft (RaftNode.applyCommittedEntries_calm id _)) inv.sound
    (.refl history) (fun other _ _ => .refl history other) rfl rfl rfl
    (fun other ne => ⟨setRaft_raft_of_ne _ _ ne, rfl⟩) ?_ fun member => ?_⟩
  · show _ ≤ RaftNode.term ((s.cluster.setRaft id _).raft id)
    rw [setRaft_raft_self]
    exact le_rfl
  show NodeOk _ _ _ ((s.cluster.setRaft id (s.raft id).applyCommittedEntries).raft id) _ _
  have terms : ∀ i, (s.raft i).term ≤
      ((s.cluster.setRaft id (s.raft id).applyCommittedEntries).raft i).term :=
    Cluster.setRaft_terms le_rfl
  rw [setRaft_raft_self]
  refine (inv.nodes id member).quiet ⟨rfl, rfl, le_rfl, fun leads => ⟨leads, rfl⟩⟩
    (fun candidate => .inl ⟨candidate, rfl⟩) fun leads peer inPeers => ?_
  have known := ((inv.nodes id member).peers leads peer inPeers).mono (.refl history)
    ⟨id, inv.leads member leads⟩ terms
  exact ⟨known.acked, known.next⟩

/-! ### Snapshots -/

/-- **What a node stores** is the list behind its log. -/
theorem NodeOk.stored_eq {id index : Nat} {l : List LogEntry}
    (ok : NodeOk history s.terms id (s.raft id) (s.covered id) l) (positive : 0 < index) :
    s.stored id index = l[index - 1]? := by
  rw [SnapshotCluster.stored]
  split
  case isTrue below =>
    rw [ok.covered, snapshotIndex, List.getElem?_take_of_lt (by omega)]
  case isFalse above => exact ok.represents.get_eq (Nat.not_lt.mp above)

theorem NodeOk.entriesUpTo_eq {id : Nat} {l : List LogEntry}
    (ok : NodeOk history s.terms id (s.raft id) (s.covered id) l) :
    ∀ n, n ≤ l.length → s.entriesUpTo id n = l.take n := by
  intro n
  induction n with
  | zero => exact fun _ => rfl
  | succ n ih =>
    intro inside
    have here : s.stored id (1 + n) = some l[n] := by
      rw [ok.stored_eq (by omega), Nat.add_sub_cancel_left, List.getElem?_eq_getElem inside]
    have before := ih (by omega)
    rw [entriesUpTo] at before ⊢
    rw [List.range'_1_concat, List.filterMap_append, before, List.filterMap_cons_some here,
      List.filterMap_nil, ← List.take_append_getElem inside]

/-- **A node takes a snapshot** of a part of its list. -/
theorem MatchInv.triggerSnapshot (inv : MatchInv config s history whole) {id : Nat}
    {data : Option Bytes} (inOrder : s.InOrder (.triggerSnapshot id data)) :
    ∃ whole', MatchInv config (s.triggerSnapshot id data) history whole' := by
  set node := (s.raft id).takeSnapshot (s.thresholds id) data with nodeDef
  obtain ⟨sameConfig, sameState⟩ : node.config = (s.raft id).config ∧ node.state = (s.raft id).state :=
    RaftNode.takeSnapshot_beside
  have calm : Calm id (s.raft id) node :=
    .of_same sameConfig (by rw [sameState]) (by rw [sameState]) (by rw [sameState])
  have term : node.term = (s.raft id).term := by rw [RaftNode.term, sameState, RaftNode.term]
  have terms : ∀ i, (s.raft i).term ≤ ((s.cluster.setRaft id node).raft i).term :=
    Cluster.setRaft_terms term.ge
  refine ⟨Function.update whole id (whole id), inv.change (inv.election.setRaft calm) inv.sound
    (.refl history) (fun other _ _ => .refl history other) rfl rfl rfl
    (fun other ne => ⟨setRaft_raft_of_ne _ _ ne, ?_⟩) (terms id) fun member => ?_⟩
  · rw [SnapshotCluster.triggerSnapshot]
    dsimp only
    split
    · exact Function.update_of_ne ne ..
    · rfl
  have ok := inv.nodes id member
  have known : node.state.role = .leader → ∀ peer ∈ node.peerIds, PeerKnown history
      (fun i => ((s.cluster.setRaft id node).raft i).term) node peer := by
    intro leads peer inPeers
    rw [sameState] at leads
    rw [RaftNode.peerIds, sameConfig] at inPeers
    have old := (ok.peers leads peer inPeers).mono (.refl history) ⟨id, inv.leads member leads⟩ terms
    refine ⟨?_, ?_⟩
    · rw [sameState, term]
      exact old.acked
    · rw [sameState, term]
      exact old.next
  -- a snapshot is taken behind the last one, so the log reaches its index
  have log : node.log.Represents (whole id) ∧
      (s.triggerSnapshot id data).covered id = (whole id).take node.log.snapshotIndex := by
    rw [nodeDef, SnapshotCluster.triggerSnapshot, RaftNode.takeSnapshot]
    dsimp only
    split
    case isFalse => exact ⟨ok.represents, by rw [if_neg (by omega)]; exact ok.covered⟩
    case isTrue more =>
      obtain ⟨bytes, given⟩ := Option.isSome_iff_exists.mp (inOrder more)
      set point := (s.raft id).snapshotPoint (s.thresholds id) with pointDef
      have inside : point ≤ (whole id).length :=
        (Nat.sub_le _ _).trans ok.represents.last_le
      have here : point - 1 < (whole id).length := by omega
      have read := ok.represents.termAt_eq (show 0 < point by omega)
        (by rw [snapshotIndex] at more; omega)
      rw [List.getElem?_eq_getElem here] at read
      rw [given, read]
      dsimp only
      rw [truncateBefore_saveSnapshotWithData, if_pos ⟨more, rfl⟩, Function.update_self,
        ok.entriesUpTo_eq point inside]
      refine ⟨ok.represents.save bytes more.le (by omega) (List.getElem?_eq_getElem here) rfl, ?_⟩
      exact congrArg (List.take · (whole id)) (Nat.add_sub_cancel point 1).symm
  show NodeOk _ _ _ ((s.cluster.setRaft id node).raft id) _ _
  rw [setRaft_raft_self]
  refine ⟨log.1, log.2, ok.matched, ?_, ?_, ?_, ?_, ?_, ?_, known⟩
  · rw [term]
    exact ok.entries
  · rw [sameState, term]
    exact ok.leading
  · rw [sameState, term]
    exact ok.standing
  · rw [sameState, term]
    exact ok.fresh
  · rw [term]
    exact ok.led
  · rw [term]
    exact ok.acks

/-- **What an accepted snapshot makes of the list**: the log behind it stays if it has the last entry of
the snapshot, and otherwise there is none. -/
theorem MatchInv.installed (inv : MatchInv config s history whole) {id : CallId} {call : SnapshotCall}
    (found : s.snapshotCalls id = some call) {restored : Bool}
    (behind : (s.raft id.peer).state.currentTerm ≤ call.request.term)
    (inOrder : s.InOrder (.deliverSnapshot id restored)) :
    ∃ l', ((s.raft id.peer).log.saveSnapshotWithData call.request.lastIncludedIndex
        call.request.lastIncludedTerm call.request.data).Represents l' ∧
      call.covered = l'.take call.request.lastIncludedIndex ∧
      Matched history l' ∧ (∀ entry ∈ l', entry.term ≤ call.request.term) ∧
      ∀ n, n ≤ (history.leaderLog call.request.term).length →
        (history.leaderLog call.request.term).take n <+: whole id.peer →
        (history.leaderLog call.request.term).take n <+: l' := by
  have sent := inv.snapshots id call found
  have ok := inv.nodes id.peer sent.peer
  have led : history.Led call.request.term := ⟨_, sent.led⟩
  obtain ⟨-, above, reach⟩ := inOrder call found behind
  obtain ⟨positive, entry, last, term⟩ := sent.last
  have within := sent.inside
  have represents := ok.represents
  set L := history.leaderLog call.request.term with LDef
  set index := call.request.lastIncludedIndex with indexDef
  rcases reach with short | has
  · -- the log does not reach beyond the snapshot
    have size : (L.take index).length = index := by rw [List.length_take, Nat.min_eq_left within]
    have final : (L.take index)[(L.take index).length - 1]? = some entry := by
      rw [size, List.getElem?_take_of_lt (by omega), last]
    have installed := represents.install call.request.data (size.symm ▸ above) (size.symm ▸ short) final
      term ((inv.sound.indexed _ led).take index)
    rw [size] at installed
    refine ⟨_, installed, ?_, (inv.sound.matched _ led).of_initial (List.take_prefix _ _),
      fun other member => inv.sound.term_le led (List.mem_of_mem_take member), fun n below kept => ?_⟩
    · rw [sent.covered, List.take_take, Nat.min_self]
    · have long := kept.length_le
      rw [List.length_take, Nat.min_eq_left below] at long
      rw [snapshotIndex] at above
      refine List.take_prefix_take_left ?_
      rcases represents.last with same | ⟨-, ahead⟩
      · omega
      · omega
  · -- the log has the last entry of the snapshot
    obtain ⟨inside, agree⟩ := represents.agree ok.matched (inv.sound.matched _ led) has
      (.inr ⟨positive, entry, last, term⟩)
    have here : (whole id.peer)[index - 1]? = some entry := by
      have same := congrArg (fun part => part[index - 1]?) agree
      simp only [List.getElem?_take_of_lt (show index - 1 < index by omega)] at same
      exact same.trans last
    exact ⟨whole id.peer, represents.save call.request.data above positive here term,
      sent.covered.trans agree.symm, ok.matched,
      fun other member => (ok.entries other member).trans behind, fun n _ kept => kept⟩

/-- **A snapshot request reaches its peer.** -/
theorem MatchInv.deliverSnapshot (inv : MatchInv config s history whole) {id : CallId}
    {call : SnapshotCall} (found : s.snapshotCalls id = some call) {restored : Bool}
    (inOrder : s.InOrder (.deliverSnapshot id restored)) :
    ∃ later whole', MatchInv config (s.deliverSnapshot id call restored) later whole' := by
  have sent := inv.snapshots id call found
  have led : history.Led call.request.term := ⟨_, sent.led⟩
  rw [SnapshotCluster.deliverSnapshot]
  by_cases behind : (s.raft id.peer).state.currentTerm ≤ call.request.term
  · obtain ⟨restores, -⟩ := inOrder call found behind
    obtain ⟨l', represents, covers, matched, entries, keeps⟩ := inv.installed found behind inOrder
    obtain ⟨atTerm, follows, fresh⟩ := inv.observed sent.peer sent.led sent.ne behind
    rw [if_pos ⟨behind, sent.done, restores⟩]
    have observedLog := RaftNode.observeTerm_log (s.raft id.peer) call.request.term
    have node_eq : (s.raft id.peer).installSnapshot call.request =
        { (s.raft id.peer).observeTerm call.request.term with
          log := (s.raft id.peer).log.saveSnapshotWithData call.request.lastIncludedIndex
            call.request.lastIncludedTerm call.request.data
          state := ((((s.raft id.peer).observeTerm call.request.term).state.setLeaderId
            call.request.leaderId).setCommitIndex call.request.lastIncludedIndex).setLastApplied
              call.request.lastIncludedIndex } := by
      rw [RaftNode.installSnapshot, if_neg (Nat.not_lt.mpr behind)]
      dsimp only
      rw [if_pos sent.done, truncateBefore_saveSnapshotWithData, observedLog]
    rw [node_eq]
    set node : RaftNode := { (s.raft id.peer).observeTerm call.request.term with
      log := (s.raft id.peer).log.saveSnapshotWithData call.request.lastIncludedIndex
        call.request.lastIncludedTerm call.request.data
      state := ((((s.raft id.peer).observeTerm call.request.term).state.setLeaderId
        call.request.leaderId).setCommitIndex call.request.lastIncludedIndex).setLastApplied
          call.request.lastIncludedIndex } with nodeDef
    have observed := RaftNode.observeTerm_calm id.peer (s.raft id.peer) call.request.term
    have calm : Calm id.peer (s.raft id.peer) node :=
      ⟨observed.config, observed.term, observed.vote, observed.candidate, observed.leader⟩
    have moved : MatchInv config { s with
        cluster := s.cluster.setRaft id.peer node
        covered := Function.update s.covered id.peer call.covered }
        (history.acknowledge id.peer call.request.term call.request.lastIncludedIndex)
        (Function.update whole id.peer l') := by
      refine inv.change (inv.election.setRaft calm) (inv.sound.acknowledge led sent.inside)
        History.acknowledge_grows (fun other _ ne => History.acknowledge_beside ne) rfl rfl rfl
        (fun other ne => ⟨setRaft_raft_of_ne _ _ ne, Function.update_of_ne ne ..⟩) ?_ fun member => ?_
      · show _ ≤ RaftNode.term ((s.cluster.setRaft id.peer node).raft id.peer)
        rw [setRaft_raft_self]
        exact behind.trans atTerm.ge
      · show NodeOk _ _ _ ((s.cluster.setRaft id.peer node).raft id.peer)
          (Function.update s.covered id.peer call.covered id.peer) _
        rw [setRaft_raft_self, Function.update_self]
        refine (inv.nodes id.peer member).follow inv.sound led behind atTerm follows fresh represents
          covers matched entries ?_ keeps
        rw [← sent.covered, covers]
        exact List.take_prefix _ _
    exact ⟨_, _, moved.setSnapshot found rfl rfl fun _ => .inl (.inl rfl)⟩
  · rw [if_neg fun all => behind all.1]
    have node_eq : (s.raft id.peer).installSnapshot call.request = s.raft id.peer := by
      rw [RaftNode.installSnapshot, if_pos (Nat.not_le.mp behind)]
    rw [node_eq]
    have moved := inv.setRaft (Calm.refl id.peer (s.raft id.peer)) (.refl _)
      fun role => .inl ⟨role, rfl⟩
    refine ⟨_, _, moved.setSnapshot found rfl rfl fun _ => .inr ?_⟩
    show _ < RaftNode.term ((s.cluster.setRaft id.peer _).raft id.peer)
    rw [setRaft_raft_self]
    exact Nat.not_le.mp behind

end SnapshotCluster

end Rusd
