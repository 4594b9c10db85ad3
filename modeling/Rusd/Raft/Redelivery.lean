/-
**Delayed and repeated append requests.**

The requests of one leader reach a follower in any order and any number of times. An accepted request
that carries entries cuts the log at its previous index before it appends, whether or not the entries
there conflict. So a request from earlier in the term takes back what a later one had stored, unless it
ends at least as far.

* `Sent` — the requests that a leader builds from its log, at any earlier moment of its term.
* `keeps_acknowledged_iff` — exactly when no acknowledged entry is lost.
-/

import Rusd.Raft.NodeStep

namespace Rusd

open RaftLog

/-! ### The run of a follower -/

/-- The request was built by the leader of the term when its log was an initial part of `leader`. -/
def Sent (leader : List LogEntry) (term : Nat) (request : AppendEntriesRequest) : Prop :=
  ∃ (node : RaftNode) (l : List LogEntry) (peer : Nat), node.log.Holds l ∧ l <+: leader ∧
    node.state.isLeader = true ∧ node.state.currentTerm = term ∧ node.appendRequest peer = some request

/-- The follower after the requests. -/
def RaftNode.follow (node : RaftNode) (requests : List AppendEntriesRequest) : RaftNode :=
  requests.foldl (fun node request => (node.handleAppendEntries request).1) node

/-- The response to the request at a place of the run. -/
def RaftNode.response (node : RaftNode) (requests : List AppendEntriesRequest) (i : Nat)
    (request : AppendEntriesRequest) : AppendEntriesResponse :=
  ((node.follow (requests.take i)).handleAppendEntries request).2

/-- The log agrees with the leader's at every index up to `m`. -/
def AgreesUpTo (log : RaftLog) (leader : List LogEntry) (m : Nat) : Prop :=
  ∀ index, 0 < index → index ≤ m → log.get index = leader[index - 1]?

/-- **Nothing acknowledged is lost.** From a success with match index `m` on, the log agrees with the
leader's up to `m`. -/
def KeepsAcknowledged (follower : RaftNode) (leader : List LogEntry)
    (requests : List AppendEntriesRequest) : Prop :=
  ∀ i request, requests[i]? = some request → (follower.response requests i request).success = true →
    ∀ j, i < j → j ≤ requests.length → AgreesUpTo (follower.follow (requests.take j)).log leader
      (follower.response requests i request).matchIndex

/-- The last index that a request reaches. -/
def AppendEntriesRequest.reach (request : AppendEntriesRequest) : Nat :=
  request.prevLogIndex + request.entries.length

/-- Each accepted request finds the leader's log up to its previous index, and, if it carries entries,
reaches as far as every request accepted before it. -/
def ReachesAsFar (follower : RaftNode) (leader : List LogEntry)
    (requests : List AppendEntriesRequest) : Prop :=
  ∀ i request, requests[i]? = some request →
    (follower.follow (requests.take i)).Accepts request →
    AgreesUpTo (follower.follow (requests.take i)).log leader request.prevLogIndex ∧
    (request.entries ≠ [] → ∀ i' request', i' < i → requests[i']? = some request' →
      (follower.follow (requests.take i')).Accepts request' → request'.reach ≤ request.reach)

/-! ### What a leader sends -/

variable {leader : List LogEntry} {term : Nat} {request : AppendEntriesRequest}

theorem Sent.indexed (sent : Sent leader term request) :
    IndexedFrom request.prevLogIndex request.entries := by
  obtain ⟨node, l, peer, holds, -, -, -, built⟩ := sent
  exact RaftNode.appendRequest_indexed holds built

/-- The entries of a request are those of the leader behind the previous index. -/
theorem Sent.carries (sent : Sent leader term request) {i : Nat} (inside : i < request.entries.length) :
    request.entries[i]? = leader[request.prevLogIndex + i]? := by
  obtain ⟨node, l, peer, holds, part, -, -, built⟩ := sent
  rw [RaftNode.appendRequest, holds.noSnapshot] at built
  simp only [Option.isSome_none, Bool.false_eq_true, and_false, if_false, Option.some.injEq] at built
  rw [holds.getRange_eq] at built
  subst built
  set n := (node.state.nextIndex peer).getD 1
  dsimp only at inside ⊢
  rw [List.length_take, List.length_drop] at inside
  rw [List.getElem?_take_of_lt (by omega), List.getElem?_drop]
  have place : max n 1 - 1 + i = n - 1 + i := by omega
  rw [place]
  exact (List.prefix_iff_getElem?.mp part (n - 1 + i) (by omega)).symm ▸
    List.getElem?_eq_getElem (by omega)

/-! ### One request -/

namespace RaftNode

variable {node : RaftNode}

theorem follow_take_succ {requests : List AppendEntriesRequest} {i : Nat}
    (found : requests[i]? = some request) :
    node.follow (requests.take (i + 1)) =
      ((node.follow (requests.take i)).handleAppendEntries request).1 := by
  rw [List.take_add_one, found, follow, List.foldl_append]
  rfl

theorem handleAppendEntries_success :
    (node.handleAppendEntries request).2.success = true ↔ node.Accepts request := by
  constructor
  · intro success
    by_contra rejects
    rw [handleAppendEntries] at success
    dsimp only at success
    split at success
    case isTrue => cases success
    case isFalse inTime =>
      rw [if_pos fun has => rejects ⟨Nat.not_lt.mp inTime, has⟩] at success
      cases success
  · intro accepts
    rw [(handleAppendEntries_accept accepts).2]

/-- What an accepted request of the leader does to an index. -/
theorem Accepts.get (accepts : node.Accepts request) (holds : node.log.Holds node.entries)
    (indexed : IndexedFrom request.prevLogIndex request.entries) {index : Nat} (positive : 0 < index) :
    (node.handleAppendEntries request).1.log.get index =
      if request.entries = [] ∨ index ≤ request.prevLogIndex then node.log.get index
      else request.entries[index - request.prevLogIndex - 1]? := by
  have reach := (accepts.splice holds indexed).1
  rw [(accepts.holds_after holds indexed).get_eq positive, holds.get_eq positive]
  by_cases none : request.entries = []
  · rw [if_pos none, if_pos (.inl none)]
  · rw [if_neg none]
    by_cases below : index ≤ request.prevLogIndex
    · rw [if_pos (.inr below), List.getElem?_append_left (by rw [List.length_take]; omega),
        List.getElem?_take_of_lt (by omega)]
    · rw [if_neg (not_or.mpr ⟨none, below⟩),
        List.getElem?_append_right (by rw [List.length_take]; omega), List.length_take,
        Nat.min_eq_left reach, Nat.sub_right_comm]

/-- The log reaches as far as the request. -/
theorem Accepts.long (accepts : node.Accepts request) (holds : node.log.Holds node.entries)
    (indexed : IndexedFrom request.prevLogIndex request.entries) {index : Nat} (positive : 0 < index)
    (within : index ≤ request.reach) :
    ((node.handleAppendEntries request).1.log.get index).isSome = true := by
  have reach := (accepts.splice holds indexed).1
  rw [AppendEntriesRequest.reach] at within
  rw [accepts.get holds indexed positive]
  split
  case isTrue kept =>
    have below : index ≤ request.prevLogIndex := by
      rcases kept with none | below
      · simpa [none] using within
      · exact below
    rw [holds.get_eq positive, List.getElem?_eq_getElem (by omega)]
    rfl
  case isFalse =>
    rw [List.getElem?_eq_getElem (by omega)]
    rfl

end RaftNode

/-- An accepted request that finds the leader's log leaves the leader's log, as far as it reaches. -/
theorem Sent.agrees (sent : Sent leader term request) {node : RaftNode} (accepts : node.Accepts request)
    (holds : node.log.Holds node.entries) (agrees : AgreesUpTo node.log leader request.prevLogIndex) :
    AgreesUpTo (node.handleAppendEntries request).1.log leader request.reach := by
  intro index positive within
  rw [AppendEntriesRequest.reach] at within
  rw [accepts.get holds sent.indexed positive]
  split
  case isTrue kept =>
    rcases kept with none | below
    · exact agrees index positive (by simpa [none] using within)
    · exact agrees index positive below
  case isFalse beyond =>
    have above := (not_or.mp beyond).2
    rw [sent.carries (by omega)]
    congr 1
    omega

/-! ### A whole run -/

section Run

variable {follower : RaftNode} {requests : List AppendEntriesRequest}

/-- The log of the follower holds a list all along. -/
theorem holds_follow (holds : follower.log.Holds follower.entries)
    (sent : ∀ request ∈ requests, Sent leader term request) (i : Nat) :
    (follower.follow (requests.take i)).log.Holds (follower.follow (requests.take i)).entries := by
  induction i with
  | zero => exact holds
  | succ i ih =>
    cases found : requests[i]? with
    | none =>
      have short : requests.length ≤ i := List.getElem?_eq_none_iff.mp found
      rw [List.take_of_length_le short] at ih
      rw [List.take_of_length_le (by omega)]
      exact ih
    | some request =>
      have indexed := (sent request (List.mem_of_getElem? found)).indexed
      rw [RaftNode.follow_take_succ found]
      by_cases accepts : (follower.follow (requests.take i)).Accepts request
      · exact RaftNode.holds_entries ⟨_, accepts.holds_after ih indexed⟩
      · refine RaftNode.holds_entries ?_
        rw [(RaftNode.handleAppendEntries_unmoved accepts).log]
        exact ⟨_, ih⟩

/-- A request that is accepted is acknowledged up to its reach. -/
theorem response_of_accepts {i : Nat}
    (accepts : (follower.follow (requests.take i)).Accepts request) :
    (follower.response requests i request).success = true ∧
      (follower.response requests i request).matchIndex = request.reach := by
  rw [RaftNode.response, (RaftNode.handleAppendEntries_accept accepts).2]
  exact ⟨rfl, rfl⟩

/-- Each later request leaves what was acknowledged. -/
theorem ReachesAsFar.keeps (reaches : ReachesAsFar follower leader requests)
    (holds : follower.log.Holds follower.entries)
    (sent : ∀ request ∈ requests, Sent leader term request) {i : Nat}
    (found : requests[i]? = some request)
    (accepts : (follower.follow (requests.take i)).Accepts request) {j : Nat} (later : i + 1 ≤ j)
    (inside : j ≤ requests.length) :
    AgreesUpTo (follower.follow (requests.take j)).log leader request.reach := by
  induction j, later using Nat.le_induction with
  | base =>
    rw [RaftNode.follow_take_succ found]
    exact (sent request (List.mem_of_getElem? found)).agrees accepts (holds_follow holds sent i)
      (reaches i request found accepts).1
  | succ j later ih =>
    have before := ih (by omega)
    have next : requests[j]? = some requests[j] := List.getElem?_eq_getElem inside
    have built := sent requests[j] (List.getElem_mem inside)
    have whole := holds_follow holds sent j
    rw [RaftNode.follow_take_succ next]
    by_cases taken : (follower.follow (requests.take j)).Accepts requests[j]
    · obtain ⟨agrees, asFar⟩ := reaches j _ next taken
      by_cases none : requests[j].entries = []
      · intro index positive within
        rw [taken.get whole built.indexed positive, if_pos (.inl none)]
        exact before index positive within
      · have further := asFar none i request (by omega) found accepts
        intro index positive within
        exact built.agrees taken whole agrees index positive (within.trans further)
    · rw [(RaftNode.handleAppendEntries_unmoved taken).log]
      exact before

/-- **Delayed and repeated requests.** A run of requests of one leader loses nothing that the follower
has acknowledged if and only if each request it accepts finds the leader's log before it and, where it
carries entries, reaches as far as what was acknowledged. -/
theorem keeps_acknowledged_iff (follower : RaftNode) (holds : follower.log.Holds follower.entries)
    (leader : List LogEntry) (term : Nat) (requests : List AppendEntriesRequest)
    (sent : ∀ request ∈ requests, Sent leader term request) :
    KeepsAcknowledged follower leader requests ↔ ReachesAsFar follower leader requests := by
  constructor
  · intro keeps i request found accepts
    have inside := (List.getElem?_eq_some_iff.mp found).1
    have built := sent request (List.mem_of_getElem? found)
    have whole := holds_follow holds sent i
    obtain ⟨success, reach⟩ := response_of_accepts accepts
    have after := keeps i request found success (i + 1) (Nat.lt_succ_self i) inside
    rw [reach, RaftNode.follow_take_succ found] at after
    refine ⟨fun index positive within => ?_, fun carries i' request' earlier found' accepts' => ?_⟩
    · have same := after index positive (within.trans (Nat.le_add_right _ _))
      rwa [accepts.get whole built.indexed positive, if_pos (.inr within)] at same
    · by_contra shorter
      push Not at shorter
      have positive : 0 < request'.reach := by omega
      obtain ⟨success', reach'⟩ := response_of_accepts accepts'
      -- the earlier request left an entry at its reach, and the leader has it
      have stored := keeps i' request' found' success' (i' + 1) (Nat.lt_succ_self i') (by omega)
        request'.reach positive (by rw [reach'])
      rw [RaftNode.follow_take_succ found'] at stored
      have long := accepts'.long (holds_follow holds sent i')
        (sent request' (List.mem_of_getElem? found')).indexed positive le_rfl
      rw [stored] at long
      -- this one cuts the log before it
      have cut := keeps i' request' found' success' (i + 1) (by omega) inside request'.reach positive
        (by rw [reach'])
      rw [RaftNode.follow_take_succ found, accepts.get whole built.indexed positive, if_neg,
        List.getElem?_eq_none] at cut
      · rw [← cut] at long
        cases long
      · rw [AppendEntriesRequest.reach] at shorter
        omega
      · rw [AppendEntriesRequest.reach] at shorter
        exact not_or.mpr ⟨carries, by omega⟩
  · intro reaches i request found success j later inside
    have accepts := RaftNode.handleAppendEntries_success.mp success
    rw [(response_of_accepts accepts).2]
    exact reaches.keeps holds sent found accepts later inside

end Run

/-! ### A request that comes late -/

namespace Redelivery

/-- The leader of term 2, with its log. -/
def leading (log : List LogEntry) : RaftNode where
  config := ⟨1, [2, 3], 100, true⟩
  state := (RaftState.new.setTerm 2).becomeLeader 1 [2, 3] 0
  log := RaftLog.new.append log
  commitNotifier := .new
  applyTx := []

/-- The log of the leader after two proposals. -/
def proposals : List LogEntry := [⟨1, 2, [120], .normal⟩, ⟨2, 2, [121], .normal⟩]

/-- The request of the leader after `n` proposals. -/
def requestAfter (n : Nat) : AppendEntriesRequest := ⟨2, 1, 0, 0, proposals.take n, 0⟩

/-- The follower before the term of the leader. -/
def fresh : RaftNode := .new ⟨2, [1, 3], 100, true⟩

theorem sent_requestAfter {n : Nat} (two : n ≤ 2) : Sent proposals 2 (requestAfter n) := by
  refine ⟨leading (proposals.take n), proposals.take n, 2, ?_, List.take_prefix n proposals, rfl, rfl, ?_⟩
  · have indexed : IndexedFrom 0 proposals := by
      intro i entry found
      have short := (List.getElem?_eq_some_iff.mp found).1
      have inside : i < 2 := short
      interval_cases i <;> cases found <;> rfl
    have holds := Holds.new.append (indexed.take n)
    exact holds
  · interval_cases n <;> decide +kernel

theorem fresh_holds : fresh.log.Holds fresh.entries := RaftNode.holds_entries ⟨[], .new⟩

/-- **Both entries are acknowledged, and the request with the first one takes the second back.** -/
theorem late_request_undoes :
    (∀ request ∈ [requestAfter 2, requestAfter 1], Sent proposals 2 request) ∧
      fresh.log.Holds fresh.entries ∧
      ¬ KeepsAcknowledged fresh proposals [requestAfter 2, requestAfter 1] := by
  refine ⟨?_, fresh_holds, fun keeps => ?_⟩
  · intro request member
    rcases List.mem_pair.mp member with rfl | rfl
    · exact sent_requestAfter le_rfl
    · exact sent_requestAfter (by decide)
  · have lost := keeps 0 (requestAfter 2) rfl (by decide +kernel) 2 (by decide) (by decide) 2
      (by decide) (by decide +kernel)
    exact absurd lost (by decide +kernel)

/-- In the order they were sent, and once more, the two requests lose nothing. -/
theorem in_order_keeps :
    KeepsAcknowledged fresh proposals [requestAfter 1, requestAfter 2, requestAfter 2] := by
  have sent : ∀ request ∈ [requestAfter 1, requestAfter 2, requestAfter 2],
      Sent proposals 2 request := by
    intro request member
    simp only [List.mem_cons, List.not_mem_nil, or_false] at member
    rcases member with rfl | rfl | rfl
    · exact sent_requestAfter (by decide)
    · exact sent_requestAfter le_rfl
    · exact sent_requestAfter le_rfl
  refine (keeps_acknowledged_iff fresh fresh_holds proposals 2 _ sent).mpr ?_
  intro i request found _
  have short : i < 3 := (List.getElem?_eq_some_iff.mp found).1
  refine ⟨fun index positive within => ?_, fun _ i' request' earlier found' _ => ?_⟩
  · have zero : request.prevLogIndex = 0 := by interval_cases i <;> cases found <;> rfl
    omega
  · interval_cases i
    · omega
    all_goals
      interval_cases i' <;> cases found <;> cases found' <;> decide

end Redelivery

end Rusd
