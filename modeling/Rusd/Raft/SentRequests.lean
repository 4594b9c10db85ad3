/-
**What a leader sends after compactions and restarts.**

One leader on its own: it wins elections, appends what is proposed, takes snapshots, loses everything that
is not on disk, and gets responses of any kind from its peers. `written` are all entries it ever appended,
as if nothing had been compacted.

* `Recorded` — the invariant: the tree holds the entries of `written`, also the compacted ones.
* `Recorded.getRange_eq` — what the log reads in a range, which it clamps to its first index.
* `sent_request_iff` — an append request has no gap and the right previous term exactly if its next index
  is `Retained`.
-/

import Rusd.Raft.Compaction
import Rusd.Raft.TermDiscipline

namespace Rusd

open RaftLog DurableLog

/-! ### The runs of a leader -/

/-- A node, with all the entries it appended. -/
structure LeaderRun where
  node : SnapshotNode
  written : List LogEntry

namespace LeaderRun

inductive Action
  /-- An election that the node wins. -/
  | win
  | propose (entryType : EntryType) (data : Bytes)
  /-- The callback returns the data, if there is one. -/
  | triggerSnapshot (data : Option Bytes)
  /-- The node starts anew on its tree. -/
  | restart
  | appendReply (peer leaderLastIndex : Nat) (response : AppendEntriesResponse)
  | snapshotReply (peer index : Nat)
  deriving DecidableEq, Repr

def start (config : RaftConfig) (snapshotThreshold : Nat) : LeaderRun :=
  ⟨.new config snapshotThreshold .empty, []⟩

def step (s : LeaderRun) : Action → Option LeaderRun
  | .win => some { s with node := s.node.startRealElection.1.becomeLeader }
  | .propose entryType data =>
    if s.node.state.isLeader then
      some ⟨s.node.propose entryType data,
        s.written ++ [⟨s.node.log.lastIndex + 1, s.node.state.currentTerm, data, entryType⟩]⟩
    else none
  | .triggerSnapshot data => some { s with node := s.node.takeSnapshot data }
  | .restart =>
    some { s with node := .new s.node.config s.node.snapshotThreshold s.node.log.tree }
  | .appendReply peer leaderLastIndex response =>
    some { s with node := s.node.handleAppendReply peer leaderLastIndex response }
  | .snapshotReply peer index => some { s with node := s.node.handleSnapshotReply peer index }

end LeaderRun

/-! ### What the tree holds -/

/-- **The tree holds every entry that was written.** -/
structure Recorded (written : List LogEntry) (log : DurableLog) : Prop where
  kept : Kept log
  stored : ∀ i, log.tree.entries (i + 1) = written[i]?
  last : log.lastIndex = written.length
  indexed : IndexedFrom 0 written

namespace Recorded

variable {written : List LogEntry} {log : DurableLog}

theorem empty : Recorded [] (new .empty) :=
  ⟨.empty, fun _ => rfl, rfl, fun i entry found => by simp at found⟩

theorem append (recorded : Recorded written log) {entry : LogEntry}
    (next : entry.index = log.lastIndex + 1) : Recorded (written ++ [entry]) (log.append [entry]) := by
  have follows : IndexedFrom log.lastIndex [entry] := IndexedFrom.singleton next
  have place : entry.index = written.length + 1 := by rw [next, recorded.last]
  refine ⟨recorded.kept.append follows, fun i => ?_, ?_, recorded.indexed.append ?_⟩
  · have inserted : (log.append [entry]).tree.entries =
        Function.update log.tree.entries entry.index (some entry) := append_entries log [entry]
    rw [inserted, place]
    by_cases here : i = written.length
    · rw [here, Function.update_self, List.getElem?_append_right le_rfl, Nat.sub_self]
      rfl
    · rw [Function.update_of_ne (by omega), recorded.stored i]
      rcases Nat.lt_or_ge i written.length with old | beyond
      · rw [List.getElem?_append_left old]
      · rw [List.getElem?_eq_none beyond,
          List.getElem?_eq_none (by rw [List.length_append, List.length_singleton]; omega)]
  · show entry.index = (written ++ [entry]).length
    rw [place, List.length_append]
    rfl
  · rw [Nat.zero_add, ← recorded.last]
    exact follows

/-- A snapshot of an entry of the log. -/
theorem saveSnapshot (recorded : Recorded written log) {index : Nat} (above : log.snapshotIndex < index)
    (within : index ≤ log.lastIndex) :
    Recorded written (log.saveSnapshot index ((log.termAt index).getD 0)) := by
  obtain ⟨entry, found⟩ := recorded.kept.stored index (by omega) within
  have term : entry.term = (log.termAt index).getD 0 := by
    have first : log.toRaftLog.firstIndex = log.snapshotIndex + 1 := recorded.kept.first
    have there : log.toRaftLog.entries index = some entry := found
    rw [DurableLog.termAt, RaftLog.termAt, if_neg (by omega), if_neg (by omega), RaftLog.get,
      if_neg (by omega), there]
    rfl
  exact ⟨recorded.kept.saveSnapshot found term, recorded.stored, recorded.last, recorded.indexed⟩

theorem recover (recorded : Recorded written log) : Recorded written (new log.tree) := by
  obtain ⟨kept, last⟩ := recorded.kept.recover
  exact ⟨kept, recorded.stored, last.trans recorded.last, recorded.indexed⟩

theorem takeSnapshot {node : SnapshotNode} (recorded : Recorded written node.log) (data : Option Bytes) :
    Recorded written (node.takeSnapshot data).log := by
  unfold SnapshotNode.takeSnapshot
  by_cases more : node.log.lastIndex - node.snapshotThreshold / 2 > node.log.snapshotIndex
  · have saved := recorded.saveSnapshot more (Nat.sub_le _ _)
    dsimp only
    rw [if_pos more]
    cases data with
    | none =>
      rw [(node.log.truncateBefore_after_save _ _ []).2]
      exact saved
    | some data =>
      rw [(truncateBefore_after_save ..).1]
      exact ⟨{ saved.kept with }, saved.stored, saved.last, saved.indexed⟩
  · dsimp only
    rw [if_neg more]
    exact recorded

/-! ### What the log reads -/

theorem get_eq (recorded : Recorded written log) {i : Nat} (above : log.firstIndex ≤ i + 1) :
    log.toRaftLog.get (i + 1) = written[i]? := by
  have inside : ¬ i + 1 < log.toRaftLog.firstIndex := Nat.not_lt.mpr above
  rw [RaftLog.get, if_neg inside]
  exact recorded.stored i

theorem first_pos (recorded : Recorded written log) : 0 < log.firstIndex := by
  rw [recorded.kept.first]
  exact Nat.succ_pos _

/-- Where a range begins and ends, after the log has clamped it. -/
theorem getRange_eq (recorded : Recorded written log) {n stop : Nat} (reaches : n ≤ log.lastIndex)
    (above : log.firstIndex ≤ stop) :
    log.toRaftLog.getRange n stop = (written.drop (max n log.firstIndex - 1)).take
      (min stop (log.lastIndex + 1) - max n log.firstIndex) := by
  have first := recorded.first_pos
  have last := recorded.last
  have within : ¬ (n > log.toRaftLog.lastIndex ∨ stop < log.toRaftLog.firstIndex) := by
    rintro (beyond | below)
    · exact absurd reaches (Nat.not_le.mpr beyond)
    · exact absurd above (Nat.not_le.mpr below)
  have same : ∀ i ∈ List.range' (max n log.firstIndex)
      (min stop (log.lastIndex + 1) - max n log.firstIndex),
      log.toRaftLog.get i = log.tree.entries i := by
    intro i member
    have low := (List.mem_range'_1.mp member).1
    rw [RaftLog.get, if_neg]
    · rfl
    · exact Nat.not_lt.mpr ((le_max_right _ _).trans low)
  rw [RaftLog.getRange, if_neg within]
  show (List.range' (max n log.firstIndex)
    (min stop (log.lastIndex + 1) - max n log.firstIndex)).filterMap log.toRaftLog.get = _
  rw [List.filterMap_congr same]
  by_cases none : min stop (log.lastIndex + 1) ≤ max n log.firstIndex
  · rw [Nat.sub_eq_zero_of_le none]
    rfl
  · have stretch := filterMap_stored recorded.stored (max n log.firstIndex - 1)
      (min stop (log.lastIndex + 1) - max n log.firstIndex) (by omega)
    rwa [Nat.sub_add_cancel (by omega)] at stretch

/-- The range of a request is clamped to nothing, or begins at its next index or at the first one. -/
theorem getRange_indexed_iff (recorded : Recorded written log) (n count : Nat) :
    IndexedFrom (n - 1) (log.toRaftLog.getRange n (n + count)) ↔
      log.firstIndex ≤ n ∨ (n = 0 ∧ log.firstIndex = 1) ∨ n + count ≤ log.firstIndex ∨
        log.lastIndex < log.firstIndex := by
  have first := recorded.first_pos
  have last := recorded.last
  have empty : ∀ {k}, IndexedFrom k [] := fun _ _ found => by cases found
  by_cases outside : n > log.lastIndex ∨ n + count < log.firstIndex
  · have nothing : log.toRaftLog.getRange n (n + count) = [] := if_pos outside
    rw [nothing]
    exact iff_of_true empty (by omega)
  rw [recorded.getRange_eq (by omega) (by omega)]
  by_cases none : min (n + count) (log.lastIndex + 1) ≤ max n log.firstIndex
  · rw [Nat.sub_eq_zero_of_le none, List.take_zero]
    exact iff_of_true empty (by omega)
  -- the entries begin at the later one of the two indices
  have begins : ∀ {i} (inside : i < min (n + count) (log.lastIndex + 1) - max n log.firstIndex),
      ((written.drop (max n log.firstIndex - 1)).take
        (min (n + count) (log.lastIndex + 1) - max n log.firstIndex))[i]? =
          written[max n log.firstIndex - 1 + i]? := by
    intro i inside
    rw [List.getElem?_take_of_lt inside, List.getElem?_drop]
  constructor
  · intro indexed
    obtain ⟨entry, found⟩ : ∃ entry, written[max n log.firstIndex - 1 + 0]? = some entry :=
      ⟨_, List.getElem?_eq_getElem (by omega)⟩
    have here := indexed 0 entry ((begins (by omega)).trans found)
    have own := recorded.indexed _ entry found
    omega
  · intro retained i entry found
    have inside : i < min (n + count) (log.lastIndex + 1) - max n log.firstIndex := by
      have short := (List.getElem?_eq_some_iff.mp found).1
      rw [List.length_take] at short
      omega
    rw [begins inside] at found
    have own := recorded.indexed _ entry found
    omega

/-- The term that the log has for the previous index. -/
theorem termAt_eq (recorded : Recorded written log) {i : Nat} (positive : 0 < i) :
    log.toRaftLog.termAt i =
      if i < log.firstIndex then some log.snapshotTerm else written[i - 1]?.map (·.term) := by
  rw [RaftLog.termAt, if_neg positive.ne']
  by_cases below : i < log.firstIndex
  · rw [if_pos below]
    exact if_pos below
  · have above : ¬ i < log.toRaftLog.firstIndex := below
    rw [if_neg below, if_neg above]
    obtain ⟨j, rfl⟩ := Nat.exists_eq_succ_of_ne_zero positive.ne'
    rw [recorded.get_eq (Nat.not_lt.mp below)]
    rfl

end Recorded

/-! ### The requests -/

/-- The entries follow the previous index without a gap, and the previous term is that of the entry written
at the previous index. -/
structure FromLog (written : List LogEntry) (request : AppendEntriesRequest) : Prop where
  contiguous : IndexedFrom request.prevLogIndex request.entries
  start : request.prevLogIndex = 0 → request.prevLogTerm = 0
  previous : 0 < request.prevLogIndex →
    ∃ entry, written[request.prevLogIndex - 1]? = some entry ∧ entry.term = request.prevLogTerm

/-- **The condition**, on the next index `n` of the peer. The log still reads the entries from it on, or
none at all; and the entry before it is not compacted, or has the term of the snapshot. -/
def Retained (written : List LogEntry) (log : DurableLog) (batch n : Nat) : Prop :=
  (log.firstIndex ≤ n ∨ (n = 0 ∧ log.firstIndex = 1) ∨ n + batch ≤ log.firstIndex ∨
    log.lastIndex < log.firstIndex) ∧
  (n ≤ 1 ∨ (n - 1 ≤ log.lastIndex ∧
    (n - 1 < log.firstIndex → written[n - 2]?.map (·.term) = some log.snapshotTerm)))

theorem Recorded.previous_iff {written : List LogEntry} {log : DurableLog}
    (recorded : Recorded written log) {i : Nat} (positive : 0 < i) :
    (∃ entry, written[i - 1]? = some entry ∧ entry.term = (log.toRaftLog.termAt i).getD 0) ↔
      i ≤ log.lastIndex ∧ (i < log.firstIndex → written[i - 1]?.map (·.term) = some log.snapshotTerm) := by
  have last := recorded.last
  rw [recorded.termAt_eq positive]
  by_cases inside : i ≤ log.lastIndex
  · have found : written[i - 1]? = some written[i - 1] := List.getElem?_eq_getElem (by omega)
    rw [found]
    by_cases below : i < log.firstIndex
    · simp [inside, below]
    · simp [inside, below]
  · have none : written[i - 1]? = none := List.getElem?_eq_none (by omega)
    rw [none]
    exact iff_of_false (fun ⟨_, found, _⟩ => by cases found) fun both => inside both.1

namespace LeaderRun

variable {s next : LeaderRun} {action : Action}

theorem recorded_step (moves : s.step action = some next) (recorded : Recorded s.written s.node.log) :
    Recorded next.written next.node.log := by
  cases action with
  | win =>
    cases moves
    exact recorded
  | propose entryType data =>
    rw [LeaderRun.step] at moves
    split at moves
    · cases moves
      exact recorded.append rfl
    · cases moves
  | triggerSnapshot data =>
    cases moves
    exact recorded.takeSnapshot data
  | restart =>
    cases moves
    exact recorded.recover
  | appendReply peer leaderLastIndex response =>
    cases moves
    exact recorded
  | snapshotReply peer index =>
    cases moves
    exact recorded

/-- **When a request is built from the log.** In every state that a leader reaches, for every append
request that it sends: its entries follow the previous index without a gap and its previous term is right
exactly if the next index of the peer is retained. -/
theorem sent_request_iff (config : RaftConfig) (snapshotThreshold : Nat) (actions : List Action)
    (s : LeaderRun) (runs : runFrom step (start config snapshotThreshold) actions = some s) (peer : Nat)
    (request : AppendEntriesRequest) (sent : s.node.toRaftNode.heartbeat peer = some request) :
    FromLog s.written request ↔ Retained s.written s.node.log s.node.config.maxLogEntriesPerRequest
      ((s.node.state.nextIndex peer).getD 1) := by
  have recorded : Recorded s.written s.node.log :=
    run_always (fun _ _ _ moves held => recorded_step moves held) Recorded.empty runs
  rw [RaftNode.heartbeat] at sent
  split at sent
  case isFalse => cases sent
  case isTrue =>
    rw [RaftNode.appendRequest] at sent
    set n := (s.node.state.nextIndex peer).getD 1 with nDef
    have here : (s.node.toRaftNode.state.nextIndex peer).getD 1 = n := rfl
    rw [here] at sent
    dsimp only at sent
    split at sent
    case isTrue => cases sent
    case isFalse =>
      cases sent
      have contiguous := recorded.getRange_indexed_iff n s.node.config.maxLogEntriesPerRequest
      constructor
      · intro fromLog
        refine ⟨contiguous.mp fromLog.contiguous, ?_⟩
        by_cases low : n ≤ 1
        · exact .inl low
        · have positive : 0 < n - 1 := by omega
          exact .inr ((recorded.previous_iff positive).mp (fromLog.previous positive))
      · rintro ⟨retained, known⟩
        refine ⟨contiguous.mpr retained, fun zero => ?_, fun positive => ?_⟩
        · have zero : n - 1 = 0 := zero
          dsimp only
          rw [zero, RaftLog.termAt, if_pos rfl]
          rfl
        · have positive : 0 < n - 1 := positive
          exact (recorded.previous_iff positive).mpr (known.resolve_left (by omega))

/-- A leader with one peer. -/
def ofPair : RaftConfig := ⟨1, [2], 100, false⟩

/-- Two entries, both of which are still there for a new peer. -/
theorem kept_entries_sent : ∃ s request,
    runFrom step (start ofPair 2) [.win, .propose .normal [1], .propose .normal [2]] = some s ∧
      s.node.toRaftNode.heartbeat 2 = some request ∧ request.entries.map (·.index) = [1, 2] ∧
      FromLog s.written request := by
  refine ⟨_, _, rfl, rfl, rfl, ?_⟩
  exact (sent_request_iff ofPair 2 [.win, .propose .normal [1], .propose .normal [2]] _ rfl 2 _ rfl).mpr
    ⟨.inl le_rfl, .inl le_rfl⟩

/-- Four entries, which is when a tick takes a snapshot; three of them compacted; then a restart, an
election, and the response of an empty peer. -/
def compactedRun : List Action :=
  [.win, .propose .normal [1], .propose .normal [2], .propose .normal [3], .propose .normal [4],
    .triggerSnapshot (some [7]), .restart, .win, .appendReply 2 4 ⟨1, false, 0, 1, 0⟩]

/-- **A gap**: the request puts the entry at 4 right after index 0. -/
theorem compacted_request_gap : ∃ s request, runFrom step (start ofPair 2) compactedRun = some s ∧
    s.node.toRaftNode.heartbeat 2 = some request ∧ request.prevLogIndex = 0 ∧
    request.entries.map (·.index) = [4] ∧ ¬ FromLog s.written request := by
  refine ⟨_, _, rfl, rfl, rfl, rfl, fun fromLog => ?_⟩
  have first := fromLog.contiguous 0 ⟨4, 2, [4], .normal⟩ rfl
  cases first

end LeaderRun

end Rusd
