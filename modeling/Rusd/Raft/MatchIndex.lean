/-
**What a leader knows of its peers.**

A leader takes the match index of a peer from the responses to append requests and to snapshot requests.
While the peer stays in the leader's term, it stores what the leader stores up to that index, in its log
or in its snapshot; the peer may have moved on to a later term, whose leader has replaced its entries.

* `InOrder` — the condition on a step: a leader takes responses to requests of its own term only, an
  append request or a snapshot leaves what it does not contradict, and a node whose snapshot is ahead of
  its log proposes nothing.
* `NodeOk`, `MatchInv` — the list behind the log of each node, and what the calls under way say of it.
* `match_index_sound` — the property, over every run whose steps meet the condition.
-/

import Rusd.Raft.CommitRule
import Rusd.Raft.SnapshotCluster

namespace Rusd

open RaftLog

/-- The history grows, but not for the node. -/
structure History.Beside (history later : History) (id : Nat) : Prop
    extends History.Grows history later where
  onlyLed : ∀ term, (id, term) ∈ later.led → (id, term) ∈ history.led
  onlyAcks : ∀ term n, (id, term, n) ∈ later.acks → (id, term, n) ∈ history.acks
  ownLog : ∀ term, (id, term) ∈ history.led → later.leaderLog term = history.leaderLog term

theorem History.Beside.refl (history : History) (id : Nat) : history.Beside history id :=
  ⟨.refl history, fun _ led => led, fun _ _ ack => ack, fun _ _ => rfl⟩

theorem History.acknowledge_beside {history : History} {id other term n : Nat} (ne : other ≠ id) :
    history.Beside (history.acknowledge id term n) other := by
  refine ⟨acknowledge_grows, fun _ led => led, fun term' m ack => ?_, fun _ _ => rfl⟩
  rcases ack with new | old
  · cases new
    exact absurd rfl ne
  · exact old

theorem History.elect_beside {history : History} {id other term : Nat} {l : List LogEntry}
    (fresh : ¬ history.Led term) (ne : other ≠ id) : history.Beside (history.elect id term l) other := by
  refine ⟨elect_grows fresh, fun term' led => ?_, fun term' m ack => ?_, fun term' led => ?_⟩
  · rcases led with new | old
    · cases new
      exact absurd rfl ne
    · exact old
  · rcases ack with new | old
    · cases new
      exact absurd rfl ne
    · exact old
  · exact elect_leaderLog_of_ne fun same => fresh (same ▸ ⟨other, led⟩)

theorem History.extend_beside {history : History} {id other term : Nat} {entry : LogEntry}
    (alone : (other, term) ∉ history.led) (ne : other ≠ id) :
    history.Beside (history.extend id term entry) other := by
  refine ⟨extend_grows, fun _ led => led, fun term' m ack => ?_, fun term' led => ?_⟩
  · rcases ack with new | old
    · cases new
      exact absurd rfl ne
    · exact old
  · exact extend_leaderLog_of_ne fun same => alone (same ▸ led)

namespace SnapshotCluster

open Cluster (Quiet Still KeepsStanding)

/-! ### The condition on a step -/

/-- The step of the cluster without snapshots leaves what leaders know of their peers true. -/
def Fits (s : SnapshotCluster) : Cluster.Action → Prop
  | .deliverAppend id => ∀ call ∈ s.cluster.appendCalls id, (s.raft id.peer).Accepts call.request →
      call.request.entries ≠ [] →
        (s.raft id.peer).log.snapshotIndex ≤ call.request.prevLogIndex ∧
        (s.raft id.peer).KeepsLog call.request
  | .appendReply id _ => ∀ call ∈ s.cluster.appendCalls id, (s.raft id.owner).state.role = .leader →
      (s.raft id.owner).state.currentTerm = call.request.term
  | .propose id _ _ => (s.raft id).log.snapshotIndex ≤ (s.raft id).log.lastIndex
  | _ => True

/-- **The condition.** -/
def InOrder (s : SnapshotCluster) : Action → Prop
  | .raft action => s.cluster.Timely action ∧ s.Fits action
  | .triggerSnapshot id data =>
    (s.raft id).log.snapshotIndex < (s.raft id).snapshotPoint (s.thresholds id) → data.isSome
  | .deliverSnapshot id restored => ∀ call ∈ s.snapshotCalls id,
      (s.raft id.peer).state.currentTerm ≤ call.request.term →
        restored = true ∧
        (s.raft id.peer).log.snapshotIndex ≤ call.request.lastIncludedIndex ∧
        ((s.raft id.peer).log.lastIndex ≤ call.request.lastIncludedIndex ∨
          (s.raft id.peer).log.hasEntry call.request.lastIncludedIndex
            call.request.lastIncludedTerm = true)
  | .snapshotReply id _ => ∀ call ∈ s.snapshotCalls id, (s.raft id.owner).state.role = .leader →
      (s.raft id.owner).state.currentTerm = call.request.term

instance (s : SnapshotCluster) : ∀ action, Decidable (s.Fits action)
  | .deliverAppend id => inferInstanceAs (Decidable (∀ call ∈ s.cluster.appendCalls id, _ → _ → _ ∧ _))
  | .appendReply id _ => inferInstanceAs (Decidable (∀ call ∈ s.cluster.appendCalls id, _ → _))
  | .propose _ _ _ => inferInstanceAs (Decidable (_ ≤ _))
  | .electionTimeout _ => .isTrue trivial
  | .deliverVote _ => .isTrue trivial
  | .voteReply _ _ => .isTrue trivial
  | .voteError _ => .isTrue trivial
  | .countVote _ => .isTrue trivial
  | .endCampaign _ => .isTrue trivial
  | .heartbeat _ => .isTrue trivial
  | .apply _ => .isTrue trivial

instance (s : SnapshotCluster) : ∀ action, Decidable (s.InOrder action)
  | .raft _ => inferInstanceAs (Decidable (_ ∧ _))
  | .triggerSnapshot _ _ => inferInstanceAs (Decidable (_ → _))
  | .deliverSnapshot id _ =>
    inferInstanceAs (Decidable (∀ call ∈ s.snapshotCalls id, _ → _ ∧ _ ∧ (_ ∨ _)))
  | .snapshotReply id _ => inferInstanceAs (Decidable (∀ call ∈ s.snapshotCalls id, _ → _))

/-! ### The invariant -/

section Invariant

variable (ids : List Nat) (history : History) (terms : Nat → Nat)

/-- What a leader knows of a peer: an acknowledgement of its term, unless the peer has left the term. -/
structure PeerKnown (node : RaftNode) (peer : Nat) : Prop where
  acked : ∃ n, node.state.matchIndex peer = some n ∧
    (n = 0 ∨ (peer, node.term, n) ∈ history.acks ∨ node.term < terms peer)
  next : ∃ n, node.state.nextIndex peer = some n ∧ n ≤ (history.leaderLog node.term).length + 1

/-- **A node and the list behind its log.** -/
structure NodeOk (id : Nat) (node : RaftNode) (covered l : List LogEntry) : Prop where
  represents : node.log.Represents l
  covered : covered = l.take node.log.snapshotIndex
  matched : Matched history l
  entries : ∀ entry ∈ l, entry.term ≤ node.term
  leading : node.state.role = .leader → l = history.leaderLog node.term
  standing : node.state.role = .candidate →
    (∀ entry ∈ l, entry.term < node.term) ∨ history.Led node.term
  fresh : node.state.role = .candidate → (id, node.term) ∉ history.led
  led : ∀ term, (id, term) ∈ history.led → term ≤ node.term
  acks : ∀ term n, (id, term, n) ∈ history.acks →
    term ≤ node.term ∧ (term = node.term → (history.leaderLog term).take n <+: l)
  peers : node.state.role = .leader → ∀ peer ∈ node.peerIds, PeerKnown history terms node peer

/-- An append request carries a stretch of its leader's log. -/
structure AppendFrom (id : CallId) (call : AppendCall) : Prop where
  owner : id.owner ∈ ids
  peer : id.peer ∈ ids
  ne : id.peer ≠ id.owner
  led : (id.owner, call.request.term) ∈ history.led
  inside : call.request.prevLogIndex + call.request.entries.length ≤
    (history.leaderLog call.request.term).length
  stretch : call.request.entries =
    ((history.leaderLog call.request.term).drop call.request.prevLogIndex).take
      call.request.entries.length
  prevTerm : (call.request.prevLogIndex = 0 ∧ call.request.prevLogTerm = 0) ∨
    (0 < call.request.prevLogIndex ∧ ∃ entry,
      (history.leaderLog call.request.term)[call.request.prevLogIndex - 1]? = some entry ∧
      entry.term = call.request.prevLogTerm)
  replies : ∀ response ∈ call.replies,
    (response.success = true → (id.peer, call.request.term, response.matchIndex) ∈ history.acks) ∧
    response.conflictIndex ≤ (history.leaderLog call.request.term).length

/-- A snapshot request carries the beginning of its leader's log. -/
structure SnapshotFrom (id : CallId) (call : SnapshotCall) : Prop where
  owner : id.owner ∈ ids
  peer : id.peer ∈ ids
  ne : id.peer ≠ id.owner
  led : (id.owner, call.request.term) ∈ history.led
  done : call.request.done = true
  covered : call.covered =
    (history.leaderLog call.request.term).take call.request.lastIncludedIndex
  last : 0 < call.request.lastIncludedIndex ∧ ∃ entry,
    (history.leaderLog call.request.term)[call.request.lastIncludedIndex - 1]? = some entry ∧
    entry.term = call.request.lastIncludedTerm
  replies : call.replies ≠ [] →
    (id.peer, call.request.term, call.request.lastIncludedIndex) ∈ history.acks ∨
    call.request.term < terms id.peer

end Invariant

def terms (s : SnapshotCluster) (id : Nat) : Nat := (s.raft id).term

/-- **The invariant.** -/
structure MatchInv (config : ClusterConfig) (s : SnapshotCluster) (history : History)
    (whole : Nat → List LogEntry) : Prop where
  election : Cluster.ElectionInv config s.cluster history.led
  sound : history.Sound
  nodes : ∀ id ∈ s.cluster.ids,
    NodeOk history s.terms id (s.raft id) (s.covered id) (whole id)
  appends : ∀ id call, s.cluster.appendCalls id = some call →
    AppendFrom s.cluster.ids history id call
  snapshots : ∀ id call, s.snapshotCalls id = some call →
    SnapshotFrom s.cluster.ids history s.terms id call

/-! ### What a longer history keeps -/

section Grows

variable {ids : List Nat} {history later : History} {terms terms' : Nat → Nat} {id : Nat}
  {node : RaftNode} {covered l : List LogEntry}

theorem PeerKnown.mono {peer : Nat} (known : PeerKnown history terms node peer)
    (grows : history.Grows later) (led : history.Led node.term) (le : ∀ i, terms i ≤ terms' i) :
    PeerKnown later terms' node peer := by
  obtain ⟨⟨m, matchIndex, acked⟩, n, next, reach⟩ := known
  refine ⟨⟨m, matchIndex, ?_⟩, n, next, ?_⟩
  · rcases acked with zero | ack | left
    · exact .inl zero
    · exact .inr (.inl (grows.acks ack))
    · exact .inr (.inr (left.trans_le (le peer)))
  · exact reach.trans (Nat.succ_le_succ (grows.leaderLog _ led).length_le)

/-- **A node that the growth of the history does not concern.** -/
theorem NodeOk.beside (ok : NodeOk history terms id node covered l) (sound : history.Sound)
    (leads : node.state.role = .leader → (id, node.term) ∈ history.led)
    (beside : history.Beside later id) (le : ∀ i, terms i ≤ terms' i) :
    NodeOk later terms' id node covered l where
  represents := ok.represents
  covered := ok.covered
  matched := beside.matched ok.matched
  entries := ok.entries
  leading role := by rw [beside.ownLog _ (leads role), ← ok.leading role]
  standing role := (ok.standing role).imp_right beside.led_of
  fresh role led := ok.fresh role (beside.onlyLed _ led)
  led term led := ok.led term (beside.onlyLed term led)
  acks term n ack := by
    have old := beside.onlyAcks term n ack
    obtain ⟨led, inside⟩ := sound.acks id term n old
    obtain ⟨below, kept⟩ := ok.acks term n old
    rw [beside.take_eq led inside]
    exact ⟨below, kept⟩
  peers role peer inPeers := (ok.peers role peer inPeers).mono beside.toGrows ⟨id, leads role⟩ le

theorem AppendFrom.mono {call : CallId} {append : AppendCall}
    (sent : AppendFrom ids history call append) (grows : history.Grows later) :
    AppendFrom ids later call append := by
  have led : history.Led append.request.term := ⟨_, sent.led⟩
  have below := grows.leaderLog append.request.term led
  refine ⟨sent.owner, sent.peer, sent.ne, grows.led sent.led, sent.inside.trans below.length_le, ?_, ?_,
    fun response member => ?_⟩
  · rw [Cluster.drop_take_of_initial below sent.inside]
    exact sent.stretch
  · rcases sent.prevTerm with zero | ⟨positive, entry, found, same⟩
    · exact .inl zero
    · exact .inr ⟨positive, entry, grows.getElem_eq led found, same⟩
  · obtain ⟨success, conflict⟩ := sent.replies response member
    exact ⟨fun yes => grows.acks (success yes), conflict.trans below.length_le⟩

theorem SnapshotFrom.inside {call : CallId} {snapshot : SnapshotCall}
    (sent : SnapshotFrom ids history terms call snapshot) :
    snapshot.request.lastIncludedIndex ≤ (history.leaderLog snapshot.request.term).length := by
  obtain ⟨positive, entry, found, -⟩ := sent.last
  have := (List.getElem?_eq_some_iff.mp found).1
  omega

theorem SnapshotFrom.mono {call : CallId} {snapshot : SnapshotCall}
    (sent : SnapshotFrom ids history terms call snapshot) (grows : history.Grows later)
    (le : ∀ i, terms i ≤ terms' i) : SnapshotFrom ids later terms' call snapshot := by
  have led : history.Led snapshot.request.term := ⟨_, sent.led⟩
  obtain ⟨positive, entry, found, same⟩ := sent.last
  refine ⟨sent.owner, sent.peer, sent.ne, grows.led sent.led, sent.done, ?_,
    ⟨positive, entry, grows.getElem_eq led found, same⟩, fun some => ?_⟩
  · rw [grows.take_eq led sent.inside]
    exact sent.covered
  · exact (sent.replies some).imp (fun ack => grows.acks ack) fun left => left.trans_le (le call.peer)

end Grows

end SnapshotCluster

end Rusd
