/-
**The shape of the log.**

The counters of a log and the entries in its tree are written by different operations. The tree itself
keeps every entry, also below the first index: `truncate_before` is always called with the first index
that `save_snapshot` has just stored, and returns at once. So the shape can only be lost where a handler
sets the counters apart from the entries: by a snapshot ahead of the log, or by entries that end below
the snapshot.

* `Shaped` — the representation invariant.
* `Fits` — the step keeps the bounds of the log around its snapshot.
* `shaped_throughout_iff` — over a whole run: the log is shaped in every state exactly if every step
  fits.
-/

import Rusd.Raft.Snapshot

namespace Rusd

/-! ### The log above its snapshot, and below it -/

namespace RaftLog

/-- The log as it would be without a snapshot: it reads from the first record on. -/
def unsnapped (log : RaftLog) : RaftLog := { log with firstIndex := 1, snapshotData := none }

theorem unsnapped_append (log : RaftLog) (entries : List LogEntry) :
    (log.append entries).unsnapped = log.unsnapped.append entries := by
  unfold append
  cases entries.getLast? <;> rfl

/-- What a truncation does to the entries does not depend on the snapshot. -/
theorem unsnapped_truncateAfter (log : RaftLog) (index : Nat) :
    ∃ term, (log.truncateAfter index).unsnapped =
      { log.unsnapped.truncateAfter index with lastTerm := term } := by
  refine ⟨(log.truncateAfter index).lastTerm, ?_⟩
  rcases Nat.lt_or_ge index log.lastIndex with cut | keep
  · rw [truncateAfter, truncateAfter, if_neg (Nat.not_le.mpr cut),
      if_neg (show ¬ index ≥ log.unsnapped.lastIndex from Nat.not_le.mpr cut)]
    dsimp only
    split <;> split <;> rfl
  · rw [truncateAfter, truncateAfter, if_pos keep, if_pos (show index ≥ log.unsnapped.lastIndex from keep)]
    rfl

theorem append_lastTerm (log : RaftLog) {entries : List LogEntry} (ne : entries ≠ []) (term : Nat) :
    RaftLog.append { log with lastTerm := term } entries = log.append entries := by
  unfold append
  rw [List.getLast?_eq_some_getLast ne]

theorem unsnapped_spliceLog (log : RaftLog) (entries : List LogEntry) :
    (RaftNode.spliceLog log entries).unsnapped = RaftNode.spliceLog log.unsnapped entries := by
  cases entries with
  | nil => rfl
  | cons first rest =>
    unfold RaftNode.spliceLog
    dsimp only
    rw [unsnapped_append]
    by_cases cut : first.index ≤ log.lastIndex
    · obtain ⟨term, same⟩ := log.unsnapped_truncateAfter (first.index - 1)
      rw [if_pos cut, if_pos (show first.index ≤ log.unsnapped.lastIndex from cut), same]
      exact append_lastTerm _ (List.cons_ne_nil first rest) term
    · rw [if_neg cut, if_neg (show ¬ first.index ≤ log.unsnapped.lastIndex from cut)]

end RaftLog

namespace DurableLog

/-! ### The invariant -/

/-- **The representation invariant.** -/
structure Shaped (log : DurableLog) : Prop where
  first : log.firstIndex = log.snapshotIndex + 1
  inside : log.snapshotIndex ≤ log.lastIndex
  stored : ∀ i, log.firstIndex ≤ i → i ≤ log.lastIndex →
    ∃ entry, log.tree.entries i = some entry ∧ entry.index = i
  above : ∀ i, log.lastIndex < i → log.tree.entries i = none
  empty : log.lastIndex = 0 → log.lastTerm = 0
  atSnapshot : 0 < log.lastIndex → log.lastIndex = log.snapshotIndex →
    log.lastTerm = log.snapshotTerm
  atEntry : log.snapshotIndex < log.lastIndex →
    ∃ entry, log.tree.entries log.lastIndex = some entry ∧ entry.term = log.lastTerm

/-- The bounds of the log lie around its snapshot. -/
structure Around (log : DurableLog) : Prop where
  inside : log.snapshotIndex ≤ log.lastIndex
  atSnapshot : 0 < log.lastIndex → log.lastIndex = log.snapshotIndex →
    log.lastTerm = log.snapshotTerm

/-- The tree holds a list of entries, also below the first index. -/
structure Full (log : DurableLog) : Prop where
  first : log.firstIndex = log.snapshotIndex + 1
  holds : ∃ l, log.toRaftLog.unsnapped.Holds l

variable {log : DurableLog}

theorem Full.empty : Full (new .empty) := ⟨rfl, [], .new⟩

/-- **A full log is shaped if and only if its bounds lie around its snapshot.** -/
theorem Full.shaped_iff (full : Full log) : Shaped log ↔ Around log := by
  refine ⟨fun shaped => ⟨shaped.inside, shaped.atSnapshot⟩, fun around => ?_⟩
  obtain ⟨l, holds⟩ := full.holds
  have last : log.lastIndex = l.length := holds.last
  have stored : ∀ i, log.tree.entries (i + 1) = l[i]? := holds.stored
  have lastTerm : log.lastTerm = RaftLog.lastTermOf l := holds.lastTerm
  refine ⟨full.first, around.inside, fun i above within => ?_, fun i beyond => ?_, fun none => ?_,
    around.atSnapshot, fun more => ?_⟩
  · have first := full.first
    obtain ⟨j, rfl⟩ : ∃ j, i = j + 1 := ⟨i - 1, by omega⟩
    have found : l[j]? = some l[j] := List.getElem?_eq_getElem (by omega)
    refine ⟨l[j], by rw [stored, found], ?_⟩
    rw [holds.indexed j l[j] found]
    omega
  · obtain ⟨j, rfl⟩ : ∃ j, i = j + 1 := ⟨i - 1, by omega⟩
    rw [stored, List.getElem?_eq_none (by omega)]
  · rw [lastTerm, List.eq_nil_of_length_eq_zero (last.symm.trans none)]
    rfl
  · have ne : l ≠ [] := by
      rintro rfl
      rw [List.length_nil] at last
      omega
    have positive : 0 < l.length := List.length_pos_iff.mpr ne
    refine ⟨l.getLast ne, ?_, ?_⟩
    · rw [last, show l.length = l.length - 1 + 1 by omega, stored, ← List.getLast?_eq_getElem?,
        List.getLast?_eq_some_getLast ne]
    · rw [lastTerm, RaftLog.lastTermOf, List.getLast?_eq_some_getLast ne]
      rfl

/-- `truncate_before` finds the first index that `save_snapshot` has just stored. -/
theorem truncateBefore_after_save (log : DurableLog) (index term : Nat) (data : Bytes) :
    (log.saveSnapshotWithData index term data).truncateBefore (index + 1) =
        log.saveSnapshotWithData index term data ∧
      (log.saveSnapshot index term).truncateBefore (index + 1) = log.saveSnapshot index term := by
  constructor
  · exact if_pos le_rfl
  · exact if_pos le_rfl

theorem Full.saveSnapshot (full : Full log) (index term : Nat) : Full (log.saveSnapshot index term) := by
  obtain ⟨l, holds⟩ := full.holds
  exact ⟨rfl, l, holds.first, holds.noSnapshot, holds.zero, holds.stored, holds.last, holds.lastTerm,
    holds.indexed⟩

theorem Full.withData (full : Full log) (data : Option Bytes) :
    Full { log with snapshotData := data } := by
  obtain ⟨l, holds⟩ := full.holds
  exact ⟨full.first, l, holds.first, holds.noSnapshot, holds.zero, holds.stored, holds.last,
    holds.lastTerm, holds.indexed⟩

theorem append_counters (log : DurableLog) (entries : List LogEntry) :
    (log.append entries).firstIndex = log.firstIndex ∧
    (log.append entries).snapshotIndex = log.snapshotIndex ∧
    (log.append entries).snapshotTerm = log.snapshotTerm ∧
    ∀ last ∈ entries.getLast?, (log.append entries).lastIndex = last.index ∧
      (log.append entries).lastTerm = last.term := by
  unfold append
  cases entries.getLast? with
  | none => exact ⟨rfl, rfl, rfl, fun _ found => (by cases found)⟩
  | some last => exact ⟨rfl, rfl, rfl, fun _ found => (by cases found; exact ⟨rfl, rfl⟩)⟩

theorem spliceLog_counters (log : DurableLog) (entries : List LogEntry) :
    (SnapshotNode.spliceLog log entries).firstIndex = log.firstIndex ∧
    (SnapshotNode.spliceLog log entries).snapshotIndex = log.snapshotIndex ∧
    (SnapshotNode.spliceLog log entries).snapshotTerm = log.snapshotTerm ∧
    ∀ last ∈ entries.getLast?, (SnapshotNode.spliceLog log entries).lastIndex = last.index ∧
      (SnapshotNode.spliceLog log entries).lastTerm = last.term := by
  cases entries with
  | nil => exact ⟨rfl, rfl, rfl, fun _ found => (by cases found)⟩
  | cons first rest =>
    have truncated : ∀ index, (log.truncateAfter index).firstIndex = log.firstIndex ∧
        (log.truncateAfter index).snapshotIndex = log.snapshotIndex ∧
        (log.truncateAfter index).snapshotTerm = log.snapshotTerm := by
      intro index
      rw [truncateAfter]
      split <;> exact ⟨rfl, rfl, rfl⟩
    rw [SnapshotNode.spliceLog]
    split
    · obtain ⟨sameFirst, sameIndex, sameTerm⟩ := truncated (first.index - 1)
      have counters := append_counters (log.truncateAfter (first.index - 1)) (first :: rest)
      rwa [sameFirst, sameIndex, sameTerm] at counters
    · exact append_counters log (first :: rest)

/-- The previous index of an accepted request is within the log. -/
theorem Full.reach (full : Full log) (around : Around log) {index term : Nat}
    (has : log.toRaftLog.hasEntry index term = true) : index ≤ log.lastIndex := by
  obtain ⟨l, holds⟩ := full.holds
  have last : log.lastIndex = l.length := holds.last
  by_contra beyond
  have inside := around.inside
  have first : log.toRaftLog.firstIndex = log.snapshotIndex + 1 := full.first
  have none : log.toRaftLog.entries index = none := by
    have stored : log.toRaftLog.entries (index - 1 + 1) = l[index - 1]? := holds.stored (index - 1)
    rwa [show index - 1 + 1 = index by omega, List.getElem?_eq_none (by omega)] at stored
  rw [RaftLog.hasEntry, RaftLog.termAt, if_neg (by omega), if_neg (by omega), RaftLog.get,
    if_neg (by omega), none] at has
  cases has

theorem Full.spliceLog (full : Full log) {entries : List LogEntry} {prev : Nat}
    (reach : prev ≤ log.lastIndex) (indexed : RaftLog.IndexedFrom prev entries) :
    Full (SnapshotNode.spliceLog log entries) := by
  obtain ⟨first, index, -⟩ := spliceLog_counters log entries
  obtain ⟨l, holds⟩ := full.holds
  have last : log.lastIndex = l.length := holds.last
  refine ⟨by rw [first, index, full.first], if entries = [] then l else l.take prev ++ entries, ?_⟩
  rw [SnapshotNode.toRaftLog_spliceLog, RaftLog.unsnapped_spliceLog]
  exact RaftNode.spliceLog_holds holds (by omega) indexed

/-- The term that a shaped log reads at one of its own indices. -/
theorem Full.termAt_last (full : Full log) (more : log.snapshotIndex < log.lastIndex) :
    log.termAt log.lastIndex = some log.lastTerm := by
  obtain ⟨l, holds⟩ := full.holds
  have last : log.lastIndex = l.length := holds.last
  have first : log.toRaftLog.firstIndex = log.snapshotIndex + 1 := full.first
  have lastTerm : log.lastTerm = RaftLog.lastTermOf l := holds.lastTerm
  have ne : l ≠ [] := by
    rintro rfl
    rw [List.length_nil] at last
    omega
  have stored : log.toRaftLog.entries (l.length - 1 + 1) = l[l.length - 1]? := holds.stored _
  have positive : 0 < l.length := List.length_pos_iff.mpr ne
  rw [termAt, RaftLog.termAt, if_neg (by omega), if_neg (by omega), RaftLog.get, if_neg (by omega), last,
    show l.length = l.length - 1 + 1 by omega, stored, ← List.getLast?_eq_getElem?,
    List.getLast?_eq_some_getLast ne, lastTerm, RaftLog.lastTermOf, List.getLast?_eq_some_getLast ne]
  rfl

end DurableLog

/-! ### One step -/

namespace NodeRun

open DurableLog

/-- The entries of a request follow its previous index. -/
def Contiguous : Event → Prop
  | .appendEntries request => RaftLog.IndexedFrom request.prevLogIndex request.entries
  | _ => True

/-- **The condition.** The entries of an accepted request do not end below the snapshot, nor on it with
another term; and an accepted snapshot is not ahead of the log, nor on its last index with another term. -/
def Fits (s : NodeRun) : Event → Prop
  | .appendEntries request => s.node.toRaftNode.Accepts request → ∀ last ∈ request.entries.getLast?,
      s.node.log.snapshotIndex ≤ last.index ∧
      (last.index = s.node.log.snapshotIndex → last.term = s.node.log.snapshotTerm)
  | .installSnapshot request => s.node.state.currentTerm ≤ request.term → request.done = true →
      request.lastIncludedIndex ≤ s.node.log.lastIndex ∧
      (0 < s.node.log.lastIndex → s.node.log.lastIndex = request.lastIncludedIndex →
        s.node.log.lastTerm = request.lastIncludedTerm)
  | _ => True

instance (s : NodeRun) : DecidablePred (Fits s)
  | .appendEntries request => inferInstanceAs (Decidable (_ → ∀ last ∈ request.entries.getLast?, _))
  | .installSnapshot _ => inferInstanceAs (Decidable (_ → _ → _ ∧ (_ → _ → _)))
  | .requestVote _ => .isTrue trivial
  | .startPreVote => .isTrue trivial
  | .startRealElection => .isTrue trivial
  | .voteReply _ _ => .isTrue trivial
  | .becomeLeader => .isTrue trivial
  | .appendReply _ _ _ => .isTrue trivial
  | .propose _ _ => .isTrue trivial
  | .applyCommittedEntries => .isTrue trivial
  | .triggerSnapshot _ => .isTrue trivial

/-- The log after an event. -/
def logAfter (s : NodeRun) : Event → DurableLog
  | .appendEntries request =>
    if s.node.toRaftNode.Accepts request then SnapshotNode.spliceLog s.node.log request.entries
    else s.node.log
  | .installSnapshot request =>
    if s.node.state.currentTerm ≤ request.term ∧ request.done = true then
      s.node.log.saveSnapshotWithData request.lastIncludedIndex request.lastIncludedTerm request.data
    else s.node.log
  | .propose entryType data =>
    s.node.log.append [⟨s.node.log.lastIndex + 1, s.node.state.currentTerm, data, entryType⟩]
  | .triggerSnapshot data => (s.node.takeSnapshot data).log
  | _ => s.node.log

variable {s next : NodeRun}

theorem installSnapshot_log (node : SnapshotNode) (request : InstallSnapshotRequest) :
    (node.installSnapshot request).log =
      if node.state.currentTerm ≤ request.term ∧ request.done = true then
        node.log.saveSnapshotWithData request.lastIncludedIndex request.lastIncludedTerm request.data
      else node.log := by
  rw [SnapshotNode.installSnapshot]
  by_cases late : request.term < node.state.currentTerm
  · rw [if_pos late, if_neg (by omega)]
  · rw [if_neg late]
    dsimp only
    by_cases done : request.done = true
    · rw [if_pos done, if_pos ⟨Nat.not_lt.mp late, done⟩]
      exact (truncateBefore_after_save ..).1
    · rw [if_neg done, if_neg fun both => done both.2]
      rfl

theorem step_log {event : Event} (moves : s.step event = some next) :
    next.node.log = s.logAfter event := by
  cases event with
  | installSnapshot request =>
    cases moves
    exact installSnapshot_log s.node request
  | voteReply election response =>
    rw [step] at moves
    split at moves <;> cases moves
    rfl
  | becomeLeader =>
    rw [step] at moves
    split at moves <;> cases moves
    rfl
  | propose entryType data =>
    rw [step] at moves
    split at moves <;> cases moves
    rfl
  | _ =>
    cases moves
    rfl

theorem full_append {request : AppendEntriesRequest} (full : Full s.node.log)
    (around : Around s.node.log) (contiguous : Contiguous (.appendEntries request)) :
    Full (s.logAfter (.appendEntries request)) ∧
      (Around (s.logAfter (.appendEntries request)) ↔ s.Fits (.appendEntries request)) := by
  unfold logAfter Fits
  dsimp only
  by_cases accepts : s.node.toRaftNode.Accepts request
  · rw [if_pos accepts]
    refine ⟨full.spliceLog (full.reach around accepts.2) contiguous, ?_⟩
    obtain ⟨-, index, term, ends⟩ := spliceLog_counters s.node.log request.entries
    cases found : request.entries.getLast? with
    | none =>
      rw [List.getLast?_eq_none_iff.mp found]
      exact ⟨fun _ _ _ none => (by cases none), fun _ => around⟩
    | some last =>
      obtain ⟨lastIndex, lastTerm⟩ := ends last found
      have positive : 0 < last.index := by
        have ne : request.entries ≠ [] := by
          rintro none
          rw [none] at found
          cases found
        have reach := RaftLog.IndexedFrom.getLast contiguous ne
        rw [List.getLast?_eq_some_getLast ne] at found
        have := List.length_pos_iff.mpr ne
        rw [Option.some.inj found] at reach
        omega
      constructor
      · rintro after - other same
        cases same
        refine ⟨?_, fun on => ?_⟩
        · have := after.inside
          rwa [index, lastIndex] at this
        · have := after.atSnapshot (by rw [lastIndex]; exact positive) (by rw [lastIndex, index, on])
          rwa [lastTerm, term] at this
      · intro fits
        obtain ⟨inside, on⟩ := fits accepts last rfl
        refine ⟨by rw [index, lastIndex]; exact inside, fun _ same => ?_⟩
        rw [lastTerm, term]
        rw [lastIndex, index] at same
        exact on same
  · rw [if_neg accepts]
    exact ⟨full, fun _ accepted => absurd accepted accepts, fun _ => around⟩

theorem full_install {request : InstallSnapshotRequest} (full : Full s.node.log)
    (around : Around s.node.log) :
    Full (s.logAfter (.installSnapshot request)) ∧
      (Around (s.logAfter (.installSnapshot request)) ↔ s.Fits (.installSnapshot request)) := by
  unfold logAfter Fits
  dsimp only
  by_cases accepted : s.node.state.currentTerm ≤ request.term ∧ request.done = true
  · rw [if_pos accepted]
    refine ⟨(full.saveSnapshot _ _).withData _, ?_⟩
    constructor
    · exact fun after _ _ => ⟨after.inside, after.atSnapshot⟩
    · exact fun fits => ⟨(fits accepted.1 accepted.2).1, (fits accepted.1 accepted.2).2⟩
  · rw [if_neg accepted]
    exact ⟨full, fun _ inTime done => absurd ⟨inTime, done⟩ accepted, fun _ => around⟩

theorem full_propose {entryType : EntryType} {data : Bytes} (full : Full s.node.log)
    (around : Around s.node.log) :
    Full (s.logAfter (.propose entryType data)) ∧ Around (s.logAfter (.propose entryType data)) := by
  set entry : LogEntry := ⟨s.node.log.lastIndex + 1, s.node.state.currentTerm, data, entryType⟩
  obtain ⟨first, index, -, ends⟩ := append_counters s.node.log [entry]
  have lastIndex : (s.node.log.append [entry]).lastIndex = s.node.log.lastIndex + 1 := (ends entry rfl).1
  have inside := around.inside
  obtain ⟨l, holds⟩ := full.holds
  have last : s.node.log.lastIndex = l.length := holds.last
  refine ⟨⟨?_, l ++ [entry], ?_⟩, ?_, fun _ same => ?_⟩
  · show (s.node.log.append [entry]).firstIndex = (s.node.log.append [entry]).snapshotIndex + 1
    rw [first, index, full.first]
  · show (s.node.log.append [entry]).toRaftLog.unsnapped.Holds (l ++ [entry])
    rw [toRaftLog_append, RaftLog.unsnapped_append]
    exact holds.append (RaftLog.IndexedFrom.singleton (congrArg (· + 1) last))
  · show (s.node.log.append [entry]).snapshotIndex ≤ (s.node.log.append [entry]).lastIndex
    omega
  · have same : (s.node.log.append [entry]).lastIndex = (s.node.log.append [entry]).snapshotIndex := same
    omega

/-- A node takes its snapshots inside its log. -/
theorem full_trigger {data : Option Bytes} (full : Full s.node.log) (around : Around s.node.log) :
    Full (s.logAfter (.triggerSnapshot data)) ∧ Around (s.logAfter (.triggerSnapshot data)) := by
  show Full (s.node.takeSnapshot data).log ∧ Around (s.node.takeSnapshot data).log
  rw [SnapshotNode.takeSnapshot]
  dsimp only
  split
  case isFalse => exact ⟨full, around⟩
  case isTrue later =>
    set index := s.node.log.lastIndex - s.node.snapshotThreshold / 2 with indexDef
    have inside : index ≤ s.node.log.lastIndex := Nat.sub_le _ _
    have label : 0 < s.node.log.lastIndex → s.node.log.lastIndex = index →
        s.node.log.lastTerm = (s.node.log.termAt index).getD 0 := by
      intro _ same
      rw [← same, full.termAt_last (by omega)]
      rfl
    cases data with
    | none =>
      dsimp only
      rw [(truncateBefore_after_save s.node.log _ _ []).2]
      exact ⟨full.saveSnapshot _ _, inside, label⟩
    | some data =>
      dsimp only
      rw [(truncateBefore_after_save s.node.log _ _ data).1]
      exact ⟨(full.saveSnapshot _ _).withData _, inside, label⟩

/-- **One step.** The entries stay in the tree, and the bounds stay around the snapshot if and only if
the step fits. -/
theorem full_after {event : Event} (contiguous : Contiguous event) (full : Full s.node.log)
    (around : Around s.node.log) :
    Full (s.logAfter event) ∧ (Around (s.logAfter event) ↔ s.Fits event) := by
  cases event with
  | appendEntries request => exact full_append full around contiguous
  | installSnapshot request => exact full_install full around
  | propose entryType data =>
    exact ⟨(full_propose full around).1, fun _ => trivial, fun _ => (full_propose full around).2⟩
  | triggerSnapshot data =>
    exact ⟨(full_trigger full around).1, fun _ => trivial, fun _ => (full_trigger full around).2⟩
  | _ => exact ⟨full, fun _ => trivial, fun _ => around⟩

/-! ### Whole runs -/

theorem fits_of_idle {event : Event} (idle : s.step event = none) : s.Fits event := by
  cases event with
  | appendEntries request => cases idle
  | installSnapshot request => cases idle
  | _ => trivial

/-- **The log keeps its shape.** In a run of a node with a new log, over requests whose entries follow
their previous index, the log is shaped in every state exactly if every step fits. -/
theorem shaped_throughout_iff (config : RaftConfig) (snapshotThreshold : Nat) (events : List Event)
    (contiguous : ∀ event ∈ events, Contiguous event) :
    Throughout step (fun s => Shaped s.node.log) (start config snapshotThreshold .empty) events ↔
      Along step Fits (start config snapshotThreshold .empty) events := by
  have new : Full (start config snapshotThreshold .empty).node.log ∧
      Around (start config snapshotThreshold .empty).node.log :=
    ⟨Full.empty, le_rfl, fun more => absurd more (Nat.lt_irrefl 0)⟩
  refine throughout_iff (fun s => Full s.node.log ∧ Around s.node.log)
    (fun s inv => inv.1.shaped_iff.mpr inv.2) (fun s event => fits_of_idle) ?_ ?_ contiguous new
  · rintro s event next admitted moves ⟨full, around⟩ shaped
    obtain ⟨full', exactly⟩ := full_after admitted full around
    rw [step_log moves] at shaped
    exact exactly.mp (full'.shaped_iff.mp shaped)
  · rintro s event next admitted moves ⟨full, around⟩ fits
    obtain ⟨full', exactly⟩ := full_after admitted full around
    rw [step_log moves]
    exact ⟨full', exactly.mpr fits⟩

/-- A follower of two peers, with a new log. -/
def follower : NodeRun := start ⟨1, [2, 3], 100, true⟩ 10000 .empty

/-- **A snapshot ahead of the log** moves the first index and the snapshot, and not the last index. -/
theorem snapshot_ahead_unshaped :
    (follower.step (.installSnapshot ⟨1, 2, 5, 1, 0, [], true⟩)).map
        (fun s => (s.node.log.snapshotIndex, s.node.log.lastIndex)) = some (5, 0) ∧
      ¬ Throughout step (fun s => Shaped s.node.log) follower
        [.installSnapshot ⟨1, 2, 5, 1, 0, [], true⟩] := by
  have ends : (follower.step (.installSnapshot ⟨1, 2, 5, 1, 0, [], true⟩)).map
      (fun s => (s.node.log.snapshotIndex, s.node.log.lastIndex)) = some (5, 0) := by
    decide +kernel
  refine ⟨ends, fun throughout => ?_⟩
  obtain ⟨next, moves, counters⟩ := Option.map_eq_some_iff.mp ends
  have inside := (throughout.head moves).inside
  have index : next.node.log.snapshotIndex = 5 := congrArg Prod.fst counters
  have last : next.node.log.lastIndex = 0 := congrArg Prod.snd counters
  omega

/-- Two entries, a snapshot of the first of them, and a third entry. -/
def snapshotWithinLog : List Event :=
  [.appendEntries ⟨1, 2, 0, 0, [⟨1, 1, [120], .normal⟩], 0⟩,
    .appendEntries ⟨1, 2, 1, 1, [⟨2, 1, [121], .normal⟩], 0⟩,
    .installSnapshot ⟨1, 2, 1, 1, 0, [], true⟩,
    .appendEntries ⟨1, 2, 2, 1, [⟨3, 1, [122], .normal⟩], 0⟩]

theorem snapshotWithinLog_shaped :
    Throughout step (fun s => Shaped s.node.log) follower snapshotWithinLog := by
  refine (shaped_throughout_iff ⟨1, [2, 3], 100, true⟩ 10000 snapshotWithinLog ?_).mpr
    (by decide +kernel)
  intro event member
  simp only [snapshotWithinLog, List.mem_cons, List.not_mem_nil, or_false] at member
  rcases member with rfl | rfl | rfl | rfl
  · exact RaftLog.IndexedFrom.singleton rfl
  · exact RaftLog.IndexedFrom.singleton rfl
  · trivial
  · exact RaftLog.IndexedFrom.singleton rfl

end NodeRun

end Rusd
