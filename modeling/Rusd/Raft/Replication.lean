/-
**What replication keeps between the nodes.**

The invariant of a cluster with its history, in parts that each read only what they need: the logs of
the nodes, the candidates and their requests, the append requests under way and their responses, what
the nodes have acknowledged, the indices a leader keeps for its peers, and the commit indices.

* `Committed` — a majority has acknowledged the log of a term up to an entry of that term.
* `leader_completeness` — every later leader was elected with a committed prefix. The voters that
  acknowledged it and those that elected the leader share a node, and what that node acknowledged
  before it voted is in the log it voted for, or an earlier leader already diverged.
* `chosen_unique` — committed prefixes agree, so an index has one chosen entry.
-/

import Rusd.Raft.Election
import Rusd.Raft.History
import Rusd.Raft.NodeStep

namespace Rusd

open RaftLog

def RaftNode.term (node : RaftNode) : Nat := node.state.currentTerm

namespace Cluster

/-! ### The invariant -/

section Invariant

variable (ids : List Nat) (raft : Nat → RaftNode) (votes : CallId → Option VoteCall)
  (appends : CallId → Option AppendCall) (history : History)

/-- The `n`th entry of the term's leader is of that term. -/
def EndsInTerm (term n : Nat) : Prop :=
  0 < n ∧ ∃ entry, (history.leaderLog term)[n - 1]? = some entry ∧ entry.term = term

/-- **Committed.** A majority has acknowledged the first `n` entries of the term's leader, and the last
of them is of that term. -/
structure Committed (term n : Nat) : Prop where
  led : history.Led term
  ends : EndsInTerm history term n
  majority : ∃ voters, Majority ids voters ∧ ∀ voter ∈ voters, history.Acked voter term n

/-- The first `commit` entries of a log are committed, in a term up to `limit`. -/
def CommitOk (l : List LogEntry) (commit limit : Nat) : Prop :=
  commit ≤ l.length ∧ (commit = 0 ∨ ∃ term n, Committed ids history term n ∧ term ≤ limit ∧
    commit ≤ n ∧ (history.leaderLog term).take commit = l.take commit)

/-- The entry is the one committed at its index. -/
def Chosen (entry : LogEntry) : Prop :=
  ∃ term n, Committed ids history term n ∧ 0 < entry.index ∧ entry.index ≤ n ∧
    (history.leaderLog term)[entry.index - 1]? = some entry

structure NodesInv : Prop where
  holds : ∀ id ∈ ids, (raft id).log.Holds (raft id).entries
  matched : ∀ id ∈ ids, Matched history (raft id).entries
  terms : ∀ id ∈ ids, ∀ entry ∈ (raft id).entries, entry.term ≤ (raft id).term
  leading : ∀ id ∈ ids, (raft id).state.role = .leader →
    (raft id).entries = history.leaderLog (raft id).term

/-- A candidate asks with its own log, and keeps it until it is elected or another node leads the term
it stands for. -/
structure CandidatesInv : Prop where
  request : ∀ id call, votes id = some call → call.request.preVote = false →
    call.request.lastLogIndex = (history.asked id.owner call.request.term).length ∧
    call.request.lastLogTerm = lastTermOf (history.asked id.owner call.request.term)
  matched : ∀ id term, Campaigned votes id term → Matched history (history.asked id term)
  terms : ∀ id term, Campaigned votes id term → ∀ entry ∈ history.asked id term, entry.term < term
  standing : ∀ id ∈ ids, ∀ term, Campaigned votes id term → (raft id).StandsFor term →
    (raft id).entries = history.asked id term ∨ history.Led (term + 1)
  led : ∀ id term, (id, term) ∈ history.led → id ∈ ids ∧ term ≤ (raft id).term ∧
    history.base term = history.asked id (term - 1)
  candidate : ∀ id ∈ ids, (raft id).state.role = .candidate → (id, (raft id).term) ∉ history.led

/-- A response to an append request of the term: a success acknowledges, a refusal without a conflict
comes from a node of a later term. -/
structure ReplyOk (term peer : Nat) (response : AppendEntriesResponse) : Prop where
  success : response.success = true → (peer, term, response.matchIndex) ∈ history.acks
  conflict : response.success = false →
    response.conflictIndex ≤ (history.leaderLog term).length ∧
    (response.conflictIndex = 0 → term < (raft peer).term)

/-- An append request carries a stretch of its leader's log. -/
structure AppendOk (id : CallId) (call : AppendCall) : Prop where
  peer : id.peer ∈ ids
  ne : id.peer ≠ id.owner
  led : (id.owner, call.request.term) ∈ history.led
  inside : call.request.prevLogIndex + call.request.entries.length ≤
    (history.leaderLog call.request.term).length
  stretch : call.request.entries =
    ((history.leaderLog call.request.term).drop call.request.prevLogIndex).take
      call.request.entries.length
  prevTerm : (call.request.prevLogIndex = 0 ∧ call.request.prevLogTerm = 0) ∨
    (0 < call.request.prevLogIndex ∧ ∃ entry,
      (history.leaderLog call.request.term)[call.request.prevLogIndex - 1]? = some entry ∧
      entry.term = call.request.prevLogTerm)
  last : call.leaderLastIndex ≤ (history.leaderLog call.request.term).length
  commit : CommitOk ids history (history.leaderLog call.request.term) call.request.leaderCommit
    call.request.term
  heartbeat : call.request.entries = [] →
    call.request.leaderCommit ≤ call.request.prevLogIndex ∨ call.request.term < (raft id.peer).term
  replies : ∀ response ∈ call.replies, ReplyOk raft history call.request.term id.peer response

/-- What a node has acknowledged it still holds, and it was in the log of a candidate it voted for
later, unless a later leader diverged. -/
structure AcksInv : Prop where
  kept : ∀ id term n, history.Acked id term n → term ≤ (raft id).term ∧
    ((history.leaderLog term).take n <+: (raft id).entries ∨ history.Diverged term n (raft id).term)
  voted : ∀ id term n, history.Acked id term n → EndsInTerm history term n →
    ∀ later candidate, Voted votes id later candidate → term ≤ later →
      (history.leaderLog term).take n <+: history.asked candidate later ∨
      history.Diverged term n later
  leader : ∀ id ∈ ids, (raft id).state.role = .leader →
    ∀ candidate, ¬ Granted votes id (raft id).term candidate

/-- The indices a leader keeps for a peer. -/
structure PeerOk (id peer : Nat) : Prop where
  acked : ∃ n, (raft id).state.matchIndex peer = some n ∧
    (n = 0 ∨ (peer, (raft id).term, n) ∈ history.acks)
  next : ∃ n, (raft id).state.nextIndex peer = some n ∧
    n ≤ (history.leaderLog (raft id).term).length + 1 ∧ (n = 0 → (raft id).term < (raft peer).term)

structure CommitsInv : Prop where
  commit : ∀ id ∈ ids,
    CommitOk ids history (raft id).entries (raft id).state.commitIndex (raft id).term
  applied : ∀ id ∈ ids, ∀ entry ∈ (raft id).applyTx, Chosen ids history entry

end Invariant

/-- **The replication invariant.** -/
structure ReplicationInv (config : ClusterConfig) (s : Cluster) (history : History) : Prop where
  election : ElectionInv config s history.led
  sound : history.Sound
  nodes : NodesInv s.ids s.raft history
  candidates : CandidatesInv s.ids s.raft s.voteCalls history
  appends : ∀ id call, s.appendCalls id = some call → AppendOk s.ids s.raft history id call
  acks : AcksInv s.ids s.raft s.voteCalls history
  peers : ∀ id ∈ s.ids, (s.raft id).state.role = .leader → ∀ peer ∈ (s.raft id).peerIds,
    PeerOk s.raft history id peer
  commits : CommitsInv s.ids s.raft history

/-! ### Leader completeness -/

section Completeness

variable {config : ClusterConfig} {s : Cluster} {history : History}

/-- **Leader completeness.** A later leader was elected with what is committed. -/
theorem leader_completeness (inv : ReplicationInv config s history) {term n : Nat}
    (committed : Committed s.ids history term n) :
    ∀ later, history.Led later → term < later →
      (history.leaderLog term).take n <+: history.base later := by
  intro later
  induction later using Nat.strong_induction_on with
  | _ later ih =>
    rintro ⟨leader, led⟩ after
    obtain ⟨voters, major, acked⟩ := committed.majority
    obtain ⟨-, electors, major', voted⟩ := inv.election.led leader later led
    obtain ⟨voter, member, member'⟩ := major.inter major'
    obtain ⟨-, -, base⟩ := inv.candidates.led leader later led
    rw [base]
    rcases inv.acks.voted voter term n (acked voter member) committed.ends _ _ (voted voter member')
      (by omega) with holds | ⟨bad, badLed, badAfter, badBefore, without⟩
    · exact holds
    · exact absurd (ih bad (by omega) badLed badAfter) without

/-- A committed prefix is in the log of every leader from its term on. -/
theorem Committed.prefix_leaderLog (inv : ReplicationInv config s history) {term n later : Nat}
    (committed : Committed s.ids history term n) (led : history.Led later) (le : term ≤ later) :
    (history.leaderLog term).take n <+: history.leaderLog later := by
  rcases le.lt_or_eq with after | rfl
  · exact (leader_completeness inv committed later led after).trans (inv.sound.base later led)
  · exact List.take_prefix _ _

/-- **One chosen entry for each index.** -/
theorem chosen_unique (inv : ReplicationInv config s history) {entry entry' : LogEntry}
    (chosen : Chosen s.ids history entry) (chosen' : Chosen s.ids history entry')
    (same : entry.index = entry'.index) : entry = entry' := by
  -- the chosen entry is in the log of the later of the two leaders
  have agree : ∀ {entry entry' : LogEntry} {term n term' n' : Nat},
      Committed s.ids history term n → entry.index ≤ n → 0 < entry.index →
      (history.leaderLog term)[entry.index - 1]? = some entry →
      Committed s.ids history term' n' →
      (history.leaderLog term')[entry'.index - 1]? = some entry' →
      entry.index = entry'.index → term ≤ term' → entry = entry' := by
    intro entry entry' term n term' n' committed inside positive found committed' found' same le
    obtain ⟨rest, split⟩ := committed.prefix_leaderLog inv committed'.led le
    have within : entry.index - 1 < (history.leaderLog term).length :=
      (List.getElem?_eq_some_iff.mp found).1
    have here : (history.leaderLog term')[entry.index - 1]? = some entry := by
      rw [← split, List.getElem?_append_left (by rw [List.length_take]; omega),
        List.getElem?_take_of_lt (by omega), found]
    rw [← same, here] at found'
    exact Option.some.inj found'
  obtain ⟨term, n, committed, positive, inside, found⟩ := chosen
  obtain ⟨term', n', committed', positive', inside', found'⟩ := chosen'
  rcases Nat.le_total term term' with le | le
  · exact agree committed inside positive found committed' found' same le
  · exact (agree committed' inside' positive' found' committed found same.symm le).symm

end Completeness

end Cluster

end Rusd
