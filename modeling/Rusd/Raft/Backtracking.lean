/-
**Log backtracking.**

A leader and one of its followers, alone: a round sends the append request that `send_heartbeats` builds,
lets the follower handle it and gives the response back. A refusal takes the leader's next index back to
where the follower's conflicting term begins; a success takes it past what was sent.

* `Ready` — the logs match, and the next index is one of the leader's log or the one behind it.
* `Ready.accepts_iff` — the follower accepts exactly if it has the leader's log up to the previous index.
* `Ready.reject`, `Ready.accept`, `Ready.round_sound` — what a round does in the two cases, and in both.
* `backtracking_converges` — every refusal takes the next index back, there is a success after fewer
  rounds than the next index counts, and the rounds go on to the end of the leader's log.
-/

import Rusd.Raft.Redelivery
import Rusd.Raft.ReplicationStep
import Rusd.Raft.TermDiscipline

namespace Rusd

open RaftLog

/-! ### Rounds -/

/-- A leader and a follower. -/
structure Exchange where
  leader : RaftNode
  follower : RaftNode

namespace Exchange

/-- One round, with the response of the follower. -/
def round (peer : Nat) (e : Exchange) : Option (Exchange × AppendEntriesResponse) :=
  (e.leader.heartbeat peer).map fun request =>
    let handled := e.follower.handleAppendEntries request
    (⟨e.leader.handleAppendReply peer e.leader.log.lastIndex handled.2, handled.1⟩, handled.2)

/-- The two nodes after a round; they stay as they are where nothing is sent. -/
def next (peer : Nat) (e : Exchange) : Exchange := ((e.round peer).map Prod.fst).getD e

/-- The response of a round. -/
def response (peer : Nat) (e : Exchange) : Option AppendEntriesResponse := (e.round peer).map Prod.snd

end Exchange

/-- **Log matching.** Entries of one index and term have the same entries before them. -/
def LogMatching (l l' : List LogEntry) : Prop :=
  ∀ i entry entry', l[i]? = some entry → l'[i]? = some entry' → entry.term = entry'.term →
    l.take (i + 1) = l'.take (i + 1)

theorem LogMatching.take (l : List LogEntry) (m : Nat) : LogMatching l (l.take m) := by
  intro i entry entry' _ found' _
  have inside : i < m := by
    have := (List.getElem?_eq_some_iff.mp found').1
    rw [List.length_take] at this
    omega
  rw [List.take_take, Nat.min_eq_left inside]

/-- **A leader that sends from `n` on**, and its follower. -/
structure Ready (peer : Nat) (L F : List LogEntry) (n : Nat) (e : Exchange) : Prop where
  leads : e.leader.state.isLeader = true
  known : peer ∈ e.leader.peerIds
  leaderLog : e.leader.log.Holds L
  followerLog : e.follower.log.Holds F
  matched : LogMatching L F
  term : e.follower.state.currentTerm ≤ e.leader.state.currentTerm
  /-- `RaftNode::new` refuses a configuration without it. -/
  batch : 0 < e.leader.config.maxLogEntriesPerRequest
  next : e.leader.state.nextIndex peer = some n
  low : 1 ≤ n
  high : n ≤ L.length + 1

namespace Ready

variable {peer : Nat} {L F : List LogEntry} {n : Nat} {e : Exchange}

/-- What the leader sends. -/
def sent (e : Exchange) (L : List LogEntry) (n : Nat) : AppendEntriesRequest where
  term := e.leader.state.currentTerm
  leaderId := e.leader.config.id
  prevLogIndex := n - 1
  prevLogTerm := (e.leader.log.termAt (n - 1)).getD 0
  entries := (L.drop (n - 1)).take e.leader.config.maxLogEntriesPerRequest
  leaderCommit := e.leader.state.commitIndex

/-- The last index that the leader sends. -/
def reach (e : Exchange) (L : List LogEntry) (n : Nat) : Nat :=
  n - 1 + min e.leader.config.maxLogEntriesPerRequest (L.length - (n - 1))

theorem request_eq (ready : Ready peer L F n e) : e.leader.heartbeat peer = some (sent e L n) := by
  have low := ready.low
  rw [RaftNode.heartbeat, if_pos ⟨ready.leads, ready.known⟩, RaftNode.appendRequest, ready.next,
    ready.leaderLog.noSnapshot, Option.getD_some]
  dsimp only
  rw [if_neg fun both => absurd both.2 Bool.false_ne_true, ready.leaderLog.getRange_eq, max_eq_left low,
    Nat.add_sub_cancel_left]
  rfl

theorem round_eq (ready : Ready peer L F n e) :
    e.round peer = some
      (⟨e.leader.handleAppendReply peer e.leader.log.lastIndex
          (e.follower.handleAppendEntries (sent e L n)).2,
        (e.follower.handleAppendEntries (sent e L n)).1⟩,
        (e.follower.handleAppendEntries (sent e L n)).2) := by
  rw [Exchange.round, ready.request_eq]
  rfl

theorem next_eq (ready : Ready peer L F n e) : e.next peer =
    ⟨e.leader.handleAppendReply peer e.leader.log.lastIndex (e.follower.handleAppendEntries (sent e L n)).2,
      (e.follower.handleAppendEntries (sent e L n)).1⟩ := by
  rw [Exchange.next, ready.round_eq]
  rfl

theorem response_eq (ready : Ready peer L F n e) :
    e.response peer = some (e.follower.handleAppendEntries (sent e L n)).2 := by
  rw [Exchange.response, ready.round_eq]
  rfl

/-- The entry before the ones that are sent. -/
theorem previous (ready : Ready peer L F n e) (positive : 0 < n - 1) :
    ∃ entry, L[n - 1 - 1]? = some entry ∧ (sent e L n).prevLogTerm = entry.term := by
  have high := ready.high
  have inside : n - 1 - 1 < L.length := by omega
  refine ⟨L[n - 1 - 1], List.getElem?_eq_getElem inside, ?_⟩
  rw [sent, ready.leaderLog.termAt_eq positive, List.getElem?_eq_getElem inside]
  rfl

theorem length_sent (e : Exchange) (L : List LogEntry) (n : Nat) : (sent e L n).entries.length =
    min e.leader.config.maxLogEntriesPerRequest (L.length - (n - 1)) := by
  rw [sent, List.length_take, List.length_drop]

theorem sent_indexed (ready : Ready peer L F n e) : IndexedFrom (n - 1) (sent e L n).entries := by
  intro i entry found
  rw [sent, List.getElem?_take] at found
  split at found
  · rw [List.getElem?_drop] at found
    rw [ready.leaderLog.indexed _ entry found]
    omega
  · cases found

/-- The leader's log up to the previous index, and what is sent. -/
theorem take_append_sent (e : Exchange) (L : List LogEntry) (n : Nat) :
    L.take (n - 1) ++ (sent e L n).entries = L.take (reach e L n) := by
  rw [sent, reach, List.take_add]
  congr 1
  rcases Nat.le_total e.leader.config.maxLogEntriesPerRequest (L.length - (n - 1)) with less | more
  · rw [Nat.min_eq_left less]
  · rw [Nat.min_eq_right more, List.take_of_length_le (by rw [List.length_drop]; omega),
      List.take_of_length_le (by rw [List.length_drop])]

/-- **The follower accepts** exactly if it has the leader's log up to the previous index. -/
theorem accepts_iff (ready : Ready peer L F n e) :
    e.follower.Accepts (sent e L n) ↔ L.take (n - 1) = F.take (n - 1) := by
  have inTime : e.follower.state.currentTerm ≤ (sent e L n).term := ready.term
  have checks : e.follower.Accepts (sent e L n) ↔
      e.follower.log.hasEntry (n - 1) (sent e L n).prevLogTerm = true :=
    ⟨fun accepts => accepts.2, fun has => ⟨inTime, has⟩⟩
  rw [checks, ready.followerLog.hasEntry_iff]
  rcases Nat.eq_zero_or_pos (n - 1) with zero | positive
  · have start : (sent e L n).prevLogTerm = 0 := by
      rw [sent, zero, termAt, if_pos rfl]
      rfl
    rw [zero]
    exact iff_of_true (.inl ⟨rfl, start⟩) rfl
  obtain ⟨entry, found, term⟩ := ready.previous positive
  constructor
  · rintro (⟨zero, -⟩ | ⟨-, entry', found', same⟩)
    · omega
    · have agree := ready.matched _ entry entry' found found' (term.symm.trans same.symm)
      rwa [Nat.sub_add_cancel positive] at agree
  · intro agree
    have there : (L.take (n - 1))[n - 1 - 1]? = (F.take (n - 1))[n - 1 - 1]? := by rw [agree]
    rw [List.getElem?_take_of_lt (by omega), List.getElem?_take_of_lt (by omega), found] at there
    exact .inr ⟨positive, entry, there.symm, term.symm⟩

/-! ### The two ends of a round -/

/-- The indices of the peer after a response. -/
theorem leader_indices (leader : RaftNode) (peer last : Nat) (response : AppendEntriesResponse) :
    (leader.handleAppendReply peer last response).state.nextIndex =
        (RaftNode.noteAppendReply leader.state peer response).nextIndex ∧
      (leader.handleAppendReply peer last response).state.matchIndex =
        (RaftNode.noteAppendReply leader.state peer response).matchIndex := by
  obtain ⟨commit, state⟩ := leader.handleAppendReply_state peer last response
  rw [state]
  exact ⟨rfl, rfl⟩

/-- **The next round**, from the logs and the next index that this one leaves. -/
theorem step (ready : Ready peer L F n e) {F' : List LogEntry} {n' : Nat}
    (followerLog : (e.follower.handleAppendEntries (sent e L n)).1.log.Holds F')
    (matched : LogMatching L F')
    (next : (RaftNode.noteAppendReply e.leader.state peer
      (e.follower.handleAppendEntries (sent e L n)).2).nextIndex peer = some n')
    (low : 1 ≤ n') (high : n' ≤ L.length + 1) : Ready peer L F' n' (e.next peer) := by
  obtain ⟨config, log, -⟩ := e.leader.handleAppendReply_beside peer e.leader.log.lastIndex
    (e.follower.handleAppendEntries (sent e L n)).2
  obtain ⟨term, role⟩ := e.leader.handleAppendReply_ballot peer e.leader.log.lastIndex
    (e.follower.handleAppendEntries (sent e L n)).2
  have observed := (SnapshotNode.observed_appendEntries e.follower (sent e L n)).1.term
  have sentTerm : (sent e L n).term = e.leader.state.currentTerm := rfl
  rw [ready.next_eq]
  constructor
  · have leads := ready.leads
    rw [RaftState.isLeader] at leads ⊢
    rw [role]
    exact leads
  · have known := ready.known
    rw [RaftNode.peerIds] at known ⊢
    rw [config]
    exact known
  · rw [log]
    exact ready.leaderLog
  · exact followerLog
  · exact matched
  · have behind := ready.term
    rw [term, observed, sentTerm]
    omega
  · rw [config]
    exact ready.batch
  · rw [(leader_indices ..).1]
    exact next
  · exact low
  · exact high

/-- What the leader makes of the response. -/
theorem noted_next (state : RaftState) (peer : Nat) (response : AppendEntriesResponse)
    (refused : response.success = false) (hint : 0 < response.conflictIndex) :
    (RaftNode.noteAppendReply state peer response).nextIndex peer = some response.conflictIndex := by
  rw [RaftNode.noteAppendReply, refused, if_neg Bool.false_ne_true, if_pos hint]
  exact Function.update_self ..

theorem noted_success (state : RaftState) (peer : Nat) (response : AppendEntriesResponse)
    (accepted : response.success = true) :
    (RaftNode.noteAppendReply state peer response).nextIndex peer = some (response.matchIndex + 1) ∧
      (RaftNode.noteAppendReply state peer response).matchIndex peer = some response.matchIndex := by
  rw [RaftNode.noteAppendReply, if_pos accepted]
  exact ⟨Function.update_self .., Function.update_self ..⟩

/-- **A refusal** takes the next index back, and changes nothing else. -/
theorem reject (ready : Ready peer L F n e) (differs : L.take (n - 1) ≠ F.take (n - 1)) :
    (∃ answer, e.response peer = some answer ∧ answer.success = false) ∧
      ∃ n' < n, Ready peer L F n' (e.next peer) := by
  have rejects : ¬ e.follower.Accepts (sent e L n) := fun accepts => differs (ready.accepts_iff.mp accepts)
  have positive : 0 < n - 1 := by
    by_contra zero
    rw [Nat.eq_zero_of_not_pos zero] at differs
    exact differs rfl
  have high := ready.high
  obtain ⟨still, -, refused, -, -⟩ := Cluster.handleAppendEntries_reject rejects
  have missing : ¬ e.follower.log.hasEntry (sent e L n).prevLogIndex (sent e L n).prevLogTerm :=
    fun has => rejects ⟨ready.term, has⟩
  have inTime : ¬ (sent e L n).term < e.follower.state.currentTerm := Nat.not_lt.mpr ready.term
  have hint : (e.follower.handleAppendEntries (sent e L n)).2.conflictIndex =
      RaftNode.conflictStart e.follower.log ((e.follower.log.termAt (n - 1)).getD 0) (n - 1) := by
    rw [RaftNode.handleAppendEntries]
    dsimp only
    rw [if_neg inTime, if_pos missing]
    rfl
  have back := Cluster.conflictStart_le e.follower.log ((e.follower.log.termAt (n - 1)).getD 0) (n - 1)
  have stays := Cluster.conflictStart_pos ready.followerLog.first
    ((e.follower.log.termAt (n - 1)).getD 0) (n - 1) positive
  rw [← hint] at back stays
  refine ⟨⟨_, ready.response_eq, refused⟩, _, by omega,
    ready.step ?_ ready.matched (noted_next _ _ _ refused stays) stays (by omega)⟩
  rw [still.log]
  exact ready.followerLog

/-- **A success** puts the leader's log into the follower's as far as it was sent. -/
theorem accept (ready : Ready peer L F n e) (agree : L.take (n - 1) = F.take (n - 1)) :
    (∃ answer, e.response peer = some answer ∧ answer.success = true ∧ answer.matchIndex = reach e L n) ∧
      (e.next peer).leader.state.matchIndex peer = some (reach e L n) ∧
      ∃ F', L.take (reach e L n) = F'.take (reach e L n) ∧
        Ready peer L F' (reach e L n + 1) (e.next peer) := by
  have accepts := ready.accepts_iff.mpr agree
  have high := ready.high
  have low := ready.low
  have answered := (RaftNode.handleAppendEntries_accept accepts).2
  have success : (e.follower.handleAppendEntries (sent e L n)).2.success = true := by rw [answered]
  have length := length_sent e L n
  have matchIndex : (e.follower.handleAppendEntries (sent e L n)).2.matchIndex = reach e L n := by
    rw [answered, length]
    rfl
  have inside : reach e L n ≤ L.length := by
    rw [reach]
    omega
  have spliced := (accepts.splice ready.followerLog ready.sent_indexed).2
  have log : (e.follower.handleAppendEntries (sent e L n)).1.log =
      RaftNode.spliceLog e.follower.log (sent e L n).entries := by
    rw [(RaftNode.handleAppendEntries_accept accepts).1]
  obtain ⟨noted, matched⟩ := noted_success e.leader.state peer _ success
  rw [matchIndex] at noted matched
  refine ⟨⟨_, ready.response_eq, success, matchIndex⟩, ?_, ?_⟩
  · rw [ready.next_eq, (leader_indices ..).2]
    exact matched
  rcases eq_or_ne (sent e L n).entries [] with none | some
  · rw [if_pos none] at spliced
    have there : reach e L n = n - 1 := by
      have zero := length
      rw [none, List.length_nil] at zero
      rw [reach, ← zero, Nat.add_zero]
    refine ⟨F, by rw [there]; exact agree, ready.step (log ▸ spliced) ready.matched noted (by omega) ?_⟩
    omega
  · rw [if_neg some] at spliced
    have taken : F.take (sent e L n).prevLogIndex ++ (sent e L n).entries = L.take (reach e L n) := by
      rw [← take_append_sent, agree]
      rfl
    rw [taken] at spliced
    refine ⟨L.take (reach e L n), by rw [List.take_take, Nat.min_self],
      ready.step (log ▸ spliced) (.take L _) noted (by omega) (by omega)⟩

/-- **One round**: it is answered, a refusal takes the next index back, and after a success the follower
agrees with the leader up to the match index. -/
theorem round_sound (ready : Ready peer L F n e) :
    ∃ answer after, e.response peer = some answer ∧
      (e.next peer).leader.state.nextIndex peer = some after ∧
      (answer.success = false → after < n) ∧
      (answer.success = true → answer.matchIndex ≤ L.length ∧
        AgreesUpTo (e.next peer).follower.log L answer.matchIndex) := by
  by_cases agree : L.take (n - 1) = F.take (n - 1)
  · obtain ⟨⟨answer, responds, success, matchIndex⟩, -, F', agreed, later⟩ := ready.accept agree
    have inside : reach e L n ≤ L.length := Nat.le_of_succ_le_succ later.high
    refine ⟨answer, _, responds, later.next, fun refused => ?_, fun _ => ?_⟩
    · exact absurd (success.symm.trans refused) Bool.false_ne_true.symm
    · refine ⟨matchIndex ▸ inside, fun index positive within => ?_⟩
      rw [matchIndex] at within
      have there : (L.take (reach e L n))[index - 1]? = (F'.take (reach e L n))[index - 1]? := by
        rw [agreed]
      rw [List.getElem?_take_of_lt (by omega), List.getElem?_take_of_lt (by omega)] at there
      rw [later.followerLog.get_eq positive, there]
  · obtain ⟨⟨answer, responds, refused⟩, after, back, later⟩ := ready.reject agree
    refine ⟨answer, after, responds, later.next, fun _ => back, fun success => ?_⟩
    exact absurd (success.symm.trans refused) Bool.false_ne_true.symm

/-! ### Runs of rounds -/

/-- Every round is one that can be sent. -/
theorem run (ready : Ready peer L F n e) (k : Nat) :
    ∃ F' n', Ready peer L F' n' ((Exchange.next peer)^[k] e) := by
  induction k with
  | zero => exact ⟨F, n, ready⟩
  | succ k ih =>
    obtain ⟨F', n', now⟩ := ih
    rw [Function.iterate_succ_apply']
    by_cases agree : L.take (n' - 1) = F'.take (n' - 1)
    · obtain ⟨-, -, _, -, later⟩ := now.accept agree
      exact ⟨_, _, later⟩
    · obtain ⟨-, _, -, later⟩ := now.reject agree
      exact ⟨_, _, later⟩

/-- **A success comes** after fewer rounds than the next index counts. -/
theorem succeeds (ready : Ready peer L F n e) :
    ∃ k < n, ∃ F' n', Ready peer L F' n' ((Exchange.next peer)^[k] e) ∧
      L.take (n' - 1) = F'.take (n' - 1) := by
  induction n using Nat.strong_induction_on generalizing e F with
  | _ n ih =>
    by_cases agree : L.take (n - 1) = F.take (n - 1)
    · exact ⟨0, ready.low, F, n, ready, agree⟩
    · obtain ⟨-, m, less, later⟩ := ready.reject agree
      obtain ⟨k, few, F', n', reached, agreed⟩ := ih m less later
      refine ⟨k + 1, by omega, F', n', ?_, agreed⟩
      rw [Function.iterate_succ_apply]
      exact reached

/-- From a success on, the rounds go on to the end of the leader's log. -/
theorem finishes (ready : Ready peer L F n e) (agree : L.take (n - 1) = F.take (n - 1)) :
    ∃ k answer, ((Exchange.next peer)^[k] e).response peer = some answer ∧ answer.success = true ∧
      answer.matchIndex = L.length ∧
      ((Exchange.next peer)^[k + 1] e).leader.state.matchIndex peer = some L.length := by
  have high := ready.high
  obtain ⟨left, leftDef⟩ : ∃ left, left = L.length + 1 - n := ⟨_, rfl⟩
  induction left using Nat.strong_induction_on generalizing e F n with
  | _ left ih =>
    obtain ⟨⟨answer, responds, success, matchIndex⟩, noted, F', agreed, later⟩ := ready.accept agree
    by_cases done : reach e L n = L.length
    · rw [done] at matchIndex noted
      exact ⟨0, answer, responds, success, matchIndex, noted⟩
    · have batch := ready.batch
      have low := ready.low
      have inside := later.high
      have further : n < reach e L n + 1 := by
        rw [reach] at done ⊢
        omega
      obtain ⟨k, answer, ends⟩ := ih (L.length + 1 - (reach e L n + 1)) (by omega) later agreed later.high rfl
      rw [← Function.iterate_succ_apply, ← Function.iterate_succ_apply] at ends
      exact ⟨k + 1, answer, ends⟩

end Ready

/-- **Log backtracking converges.** For every leader's log `L` and follower's log `F` that match, and every
next index from 1 up to behind the end of `L`: every round is answered; a refusal takes the next index
back; after a success the follower's log agrees with `L` up to the reported match index; there is a success
among the first `n` rounds, and a round after which the match index is the end of `L`. -/
theorem backtracking_converges {peer : Nat} {L F : List LogEntry} {n : Nat} {e : Exchange}
    (ready : Ready peer L F n e) :
    (∀ k, ∃ answer before after, ((Exchange.next peer)^[k] e).response peer = some answer ∧
      ((Exchange.next peer)^[k] e).leader.state.nextIndex peer = some before ∧
      ((Exchange.next peer)^[k + 1] e).leader.state.nextIndex peer = some after ∧
      (answer.success = false → after < before) ∧
      (answer.success = true → answer.matchIndex ≤ L.length ∧
        AgreesUpTo ((Exchange.next peer)^[k + 1] e).follower.log L answer.matchIndex)) ∧
    (∃ k < n, ∃ answer, ((Exchange.next peer)^[k] e).response peer = some answer ∧
      answer.success = true) ∧
    ∃ k answer, ((Exchange.next peer)^[k] e).response peer = some answer ∧ answer.success = true ∧
      answer.matchIndex = L.length ∧
      ((Exchange.next peer)^[k + 1] e).leader.state.matchIndex peer = some L.length := by
  refine ⟨fun k => ?_, ?_, ?_⟩
  · obtain ⟨F', before, now⟩ := ready.run k
    rw [Function.iterate_succ_apply']
    obtain ⟨answer, after, responds, next, refusal, success⟩ := now.round_sound
    exact ⟨answer, before, after, responds, now.next, next, refusal, success⟩
  · obtain ⟨k, few, F', n', reached, agreed⟩ := ready.succeeds
    obtain ⟨⟨answer, responds, success, -⟩, -⟩ := reached.accept agreed
    exact ⟨k, few, answer, responds, success⟩
  · obtain ⟨k, -, F', n', reached, agreed⟩ := ready.succeeds
    obtain ⟨k', answer, responds, success, matchIndex, noted⟩ := reached.finishes agreed
    rw [← Function.iterate_add_apply] at responds noted
    refine ⟨k' + k, answer, responds, success, matchIndex, ?_⟩
    rw [show k' + k + 1 = k' + 1 + k by omega]
    exact noted

/-- A leader of term 2, and a follower that has another entry of term 1 in place of the leader's last. -/
def diverged : Exchange where
  leader :=
    { RaftNode.new ⟨1, [2], 1, true⟩ with
      state := (RaftState.new.setTerm 2).becomeLeader 1 [2] 2
      log := RaftLog.new.append ([⟨1, 1, [], .normal⟩] ++ [⟨2, 2, [], .normal⟩]) }
  follower :=
    { RaftNode.new ⟨2, [1], 1, true⟩ with
      log := RaftLog.new.append ([⟨1, 1, [], .normal⟩] ++ [⟨2, 1, [7], .normal⟩]) }

theorem diverged_ready : Ready 2 [⟨1, 1, [], .normal⟩, ⟨2, 2, [], .normal⟩]
    [⟨1, 1, [], .normal⟩, ⟨2, 1, [7], .normal⟩] 3 diverged where
  leads := rfl
  known := by decide
  leaderLog := Holds.new.append ((IndexedFrom.singleton rfl).append (IndexedFrom.singleton rfl))
  followerLog := Holds.new.append ((IndexedFrom.singleton rfl).append (IndexedFrom.singleton rfl))
  matched i entry entry' found found' same := by
    match i with
    | 0 => rfl
    | 1 =>
      rw [← Option.some.inj found, ← Option.some.inj found'] at same
      exact absurd same (by decide)
    | _ + 2 => cases found
  term := by decide
  batch := by decide
  next := rfl
  low := by decide
  high := by decide

/-- The follower takes over the leader's second entry. -/
theorem diverged_converges : ∃ k answer, ((Exchange.next 2)^[k] diverged).response 2 = some answer ∧
    answer.success = true ∧ answer.matchIndex = 2 ∧
    ((Exchange.next 2)^[k + 1] diverged).leader.state.matchIndex 2 = some 2 :=
  (backtracking_converges diverged_ready).2.2

end Rusd
