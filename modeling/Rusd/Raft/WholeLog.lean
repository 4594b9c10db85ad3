/-
**The log behind a snapshot.**

A log that has saved a snapshot answers for the entries above it only. `Represents log l` says which
list it stands for: the snapshot for the entries up to its index, the records above it for the others.
A snapshot may also lie ahead of the last index, which no operation moves when it is saved.

* `Represents.agree` — where `has_entry` finds the term of an entry of another log, also below the
  snapshot, the list and that log agree up to the index.
* `Represents.splice`, `Represents.save`, `Represents.install` — what `handle_append_entries`,
  `trigger_snapshot` and `handle_install_snapshot` make of the list.
-/

import Rusd.Raft.History
import Rusd.Raft.Node

namespace Rusd

theorem RaftNode.spliceLog_firstIndex (log : RaftLog) (entries : List LogEntry) :
    (spliceLog log entries).firstIndex = log.firstIndex := by
  have appended : ∀ (kept : RaftLog), (kept.append entries).firstIndex = kept.firstIndex := by
    intro kept
    rw [RaftLog.append]
    split <;> rfl
  cases entries with
  | nil => rfl
  | cons first rest =>
    rw [spliceLog, appended]
    split
    · rw [RaftLog.truncateAfter]
      split
      · rfl
      · dsimp only
        split <;> rfl
    · rfl

namespace RaftLog

/-! ### Snapshots of a log -/

/-- `save_snapshot` stores the index of a snapshot together with the first index behind it, and nothing
else stores either. -/
def snapshotIndex (log : RaftLog) : Nat := log.firstIndex - 1

def saveSnapshot (log : RaftLog) (index term : Nat) : RaftLog :=
  { log with snapshotTerm := term, firstIndex := index + 1 }

def saveSnapshotWithData (log : RaftLog) (index term : Nat) (data : Bytes) : RaftLog :=
  { log.saveSnapshot index term with snapshotData := some data }

def truncateBefore (log : RaftLog) (index : Nat) : RaftLog :=
  if index ≤ log.firstIndex then log
  else
    { log with
      entries := fun i => if log.firstIndex ≤ i ∧ i < index then none else log.entries i
      firstIndex := index }

/-- `truncate_before` finds the first index that `save_snapshot` has just stored. -/
theorem truncateBefore_saveSnapshot (log : RaftLog) (index term : Nat) :
    (log.saveSnapshot index term).truncateBefore (index + 1) = log.saveSnapshot index term :=
  if_pos le_rfl

theorem truncateBefore_saveSnapshotWithData (log : RaftLog) (index term : Nat) (data : Bytes) :
    (log.saveSnapshotWithData index term data).truncateBefore (index + 1) =
      log.saveSnapshotWithData index term data :=
  if_pos le_rfl

/-! ### The list a log stands for -/

/-- **The list behind a log with a snapshot.** -/
structure Represents (log : RaftLog) (l : List LogEntry) : Prop where
  first : 0 < log.firstIndex
  covers : log.firstIndex ≤ l.length + 1
  stored : ∀ i, log.firstIndex ≤ i + 1 → log.entries (i + 1) = l[i]?
  last : log.lastIndex = l.length ∨ (log.lastIndex < l.length ∧ log.firstIndex = l.length + 1)
  data : log.snapshotData.isSome ↔ 1 < log.firstIndex
  snapshot : 1 < log.firstIndex →
    ∃ entry, l[log.firstIndex - 2]? = some entry ∧ entry.term = log.snapshotTerm
  indexed : IndexedFrom 0 l

variable {log : RaftLog} {l l' entries : List LogEntry}

theorem Represents.new : Represents new [] :=
  ⟨Nat.one_pos, le_rfl, fun _ _ => rfl, .inl rfl, by decide, fun no => absurd no (lt_irrefl 1),
    fun i entry found => by simp at found⟩

theorem Represents.last_le (represents : Represents log l) : log.lastIndex ≤ l.length := by
  rcases represents.last with whole | ⟨short, -⟩
  · exact whole.le
  · exact short.le

/-- A log whose snapshot is not ahead of it ends with its list. -/
theorem Represents.last_eq (represents : Represents log l) (inside : log.snapshotIndex ≤ log.lastIndex) :
    log.lastIndex = l.length := by
  rcases represents.last with whole | ⟨short, first⟩
  · exact whole
  · rw [snapshotIndex, first] at inside
    omega

theorem Represents.get_eq (represents : Represents log l) {index : Nat}
    (above : log.firstIndex ≤ index) : log.get index = l[index - 1]? := by
  have first := represents.first
  obtain ⟨i, rfl⟩ := Nat.exists_eq_succ_of_ne_zero (show index ≠ 0 by omega)
  rw [get, if_neg (Nat.not_lt.mpr above)]
  exact represents.stored i above

theorem Represents.termAt_eq (represents : Represents log l) {index : Nat} (positive : 0 < index)
    (above : log.firstIndex ≤ index + 1) : log.termAt index = l[index - 1]?.map (·.term) := by
  rw [termAt, if_neg positive.ne']
  rcases Nat.lt_or_ge index log.firstIndex with below | inside
  · obtain ⟨entry, found, term⟩ := represents.snapshot (by omega)
    rw [if_pos below, show index - 1 = log.firstIndex - 2 by omega, found, Option.map_some, term]
  · rw [if_neg (Nat.not_lt.mpr inside), represents.get_eq inside]

/-- The entry that `has_entry` looks at: the one at the index, or the last one of the snapshot. -/
theorem Represents.hasEntry (represents : Represents log l) {index term : Nat}
    (has : log.hasEntry index term = true) : (index = 0 ∧ term = 0) ∨
      (0 < index ∧ ∃ i entry, index ≤ i + 1 ∧ l[i]? = some entry ∧ entry.term = term) := by
  rcases Nat.eq_zero_or_pos index with rfl | positive
  · rw [RaftLog.hasEntry, termAt, if_pos rfl] at has
    have zero : 0 = term := by simpa using has
    exact .inl ⟨rfl, zero.symm⟩
  refine .inr ⟨positive, ?_⟩
  have found : log.termAt index = some term := by
    rw [RaftLog.hasEntry] at has
    split at has
    case h_1 t here => rw [here, beq_iff_eq.mp has]
    case h_2 => cases has
  rcases Nat.lt_or_ge index log.firstIndex with below | inside
  · obtain ⟨entry, stored, same⟩ := represents.snapshot (by omega)
    rw [termAt, if_neg positive.ne', if_pos below] at found
    exact ⟨_, entry, by omega, stored, same.trans (Option.some.inj found)⟩
  · rw [represents.termAt_eq positive (by omega)] at found
    obtain ⟨entry, stored, same⟩ := Option.map_eq_some_iff.mp found
    exact ⟨index - 1, entry, by omega, stored, same⟩

/-- **What `has_entry` tells.** Another log has an entry of the term at the index; then the two lists
agree up to it. -/
theorem Represents.agree {history : History} (represents : Represents log l)
    (matched : Matched history l) (matched' : Matched history l') {index term : Nat}
    (has : log.hasEntry index term = true)
    (there : (index = 0 ∧ term = 0) ∨
      (0 < index ∧ ∃ entry, l'[index - 1]? = some entry ∧ entry.term = term)) :
    index ≤ l.length ∧ l.take index = l'.take index := by
  rcases represents.hasEntry has with ⟨rfl, -⟩ | ⟨positive, i, entry, below, found, same⟩
  · exact ⟨Nat.zero_le _, rfl⟩
  have inside := (List.getElem?_eq_some_iff.mp found).1
  obtain ⟨zero, -⟩ | ⟨-, entry', found', same'⟩ := there
  · omega
  have inside' := (List.getElem?_eq_some_iff.mp found').1
  -- both prefixes are prefixes of the log of the leader of that term
  obtain ⟨-, part⟩ := matched i entry found
  obtain ⟨-, part'⟩ := matched' _ entry' found'
  rw [same, ← same'] at part
  rw [Nat.sub_add_cancel positive] at part'
  refine ⟨by omega, prefix_of_take_of_length_le ?_ part' (by omega) (by omega)⟩
  exact (List.take_prefix_take_left below).trans part

theorem Represents.getRange_eq (represents : Represents log l) {start stop : Nat}
    (above : log.firstIndex ≤ max start 1) :
    log.getRange start stop = (l.drop (max start 1 - 1)).take (stop - max start 1) := by
  have first := represents.first
  have reach := represents.last_le
  rw [getRange]
  split
  case isTrue outside =>
    rcases outside with beyond | below
    · rcases represents.last with whole | ⟨-, ahead⟩
      · rw [List.drop_eq_nil_of_le (by omega), List.take_nil]
      · rw [List.drop_eq_nil_of_le (by omega), List.take_nil]
    · rw [show stop - max start 1 = 0 by omega, List.take_zero]
  case isFalse inside =>
    push Not at inside
    have from_ : max start log.firstIndex = max start 1 := by omega
    rw [from_]
    dsimp only
    have read : ∀ count, max start 1 + count ≤ l.length + 1 →
        (List.range' (max start 1) count).filterMap log.get =
          (l.drop (max start 1 - 1)).take count := by
      intro count
      generalize max start 1 = m at above
      induction count generalizing m with
      | zero => simp
      | succ count ih =>
        intro inside
        have here : m - 1 < l.length := by omega
        have stored : log.get m = some l[m - 1] := by
          rw [represents.get_eq above, List.getElem?_eq_getElem here]
        rw [List.range'_succ, List.filterMap_cons_some stored, ih (m + 1) (by omega) (by omega),
          List.drop_eq_getElem_cons here, List.take_succ_cons, Nat.add_sub_cancel,
          Nat.sub_add_cancel (by omega)]
    rcases represents.last with whole | ⟨short, ahead⟩
    · rw [read _ (by omega), whole]
      rcases Nat.le_total stop (l.length + 1) with le | le
      · rw [Nat.min_eq_left le]
      · rw [Nat.min_eq_right le, List.take_of_length_le, List.take_of_length_le]
        · rw [List.length_drop]
          omega
        · rw [List.length_drop]
          omega
    · omega

/-! ### What the handlers make of it -/


/-- What stays of the records where a log is cut behind an index. -/
theorem Represents.cut (represents : Represents log l) {prev : Nat} (above : log.firstIndex - 1 ≤ prev)
    {kept : RaftLog}
    (keptDef : kept = if prev + 1 ≤ log.lastIndex then log.truncateAfter prev else log) :
    kept.firstIndex = log.firstIndex ∧ kept.snapshotTerm = log.snapshotTerm ∧
      kept.snapshotData = log.snapshotData ∧
      ∀ i, log.firstIndex ≤ i + 1 → kept.entries (i + 1) = (l.take prev)[i]? := by
  have first := represents.first
  rw [keptDef]
  split
  case isTrue below =>
    have cut : (log.truncateAfter prev).firstIndex = log.firstIndex ∧
        (log.truncateAfter prev).snapshotTerm = log.snapshotTerm ∧
        (log.truncateAfter prev).snapshotData = log.snapshotData ∧
        (log.truncateAfter prev).entries =
          fun i => if prev < i ∧ i ≤ log.lastIndex then none else log.entries i := by
      rw [truncateAfter, if_neg (by omega)]
      dsimp only
      split <;> exact ⟨rfl, rfl, rfl, rfl⟩
    obtain ⟨sameFirst, sameTerm, sameData, cut⟩ := cut
    refine ⟨sameFirst, sameTerm, sameData, fun i reach => ?_⟩
    rw [cut]
    dsimp only
    rw [represents.stored i reach, List.getElem?_take]
    rcases Nat.lt_or_ge i prev with before | beyond
    · rw [if_neg (by omega), if_pos before]
    · rw [if_neg (show ¬ i < prev by omega)]
      split
      · rfl
      · rcases represents.last with whole | ⟨short, ahead⟩
        · exact List.getElem?_eq_none (by omega)
        · exact List.getElem?_eq_none (by omega)
  case isFalse beyond =>
    refine ⟨rfl, rfl, rfl, fun i reach => ?_⟩
    have whole : l.take prev = l := by
      refine List.take_of_length_le ?_
      rcases represents.last with whole | ⟨short, ahead⟩
      · omega
      · omega
    rw [whole]
    exact represents.stored i reach

/-- **Entries that start behind the snapshot** replace what is above their previous index. -/
theorem Represents.splice (represents : Represents log l) {prev : Nat}
    (above : log.snapshotIndex ≤ prev) (inside : prev ≤ l.length) (ne : entries ≠ [])
    (indexed : IndexedFrom prev entries) :
    Represents (RaftNode.spliceLog log entries) (l.take prev ++ entries) := by
  obtain ⟨entry, rest, split⟩ := List.exists_cons_of_ne_nil ne
  have firstIndex : entry.index = prev + 1 := by
    have := indexed 0 entry (by rw [split]; rfl)
    omega
  have first := represents.first
  rw [snapshotIndex] at above
  have size : (l.take prev).length = prev := by rw [List.length_take, Nat.min_eq_left inside]
  obtain ⟨kept, keptDef⟩ : ∃ kept, kept =
      if prev + 1 ≤ log.lastIndex then log.truncateAfter prev else log := ⟨_, rfl⟩
  obtain ⟨sameFirst, sameTerm, sameData, sameEntries⟩ := represents.cut above keptDef
  have spliced : RaftNode.spliceLog log entries = kept.append entries := by
    rw [split, RaftNode.spliceLog, firstIndex, Nat.add_sub_cancel, keptDef]
  have stored := insertAll_stored kept.entries entries prev indexed
  rw [spliced, append, List.getLast?_eq_some_getLast ne]
  refine ⟨?_, ?_, fun i reach => ?_, .inl ?_, ?_, fun more => ?_, ?_⟩
  · exact sameFirst ▸ first
  · show kept.firstIndex ≤ _
    rw [sameFirst, List.length_append, size]
    omega
  · have reach : log.firstIndex ≤ i + 1 := sameFirst ▸ reach
    show insertAll kept.entries entries (i + 1) = _
    rw [stored (i + 1), sameEntries i reach]
    split
    case isTrue inside =>
      rw [List.getElem?_append_right (by omega), size]
      congr 1
      omega
    case isFalse outside =>
      rcases Nat.lt_or_ge i prev with before | beyond
      · rw [List.getElem?_append_left (by omega)]
      · rw [List.getElem?_eq_none (by omega), List.getElem?_eq_none (by rw [List.length_append]; omega)]
  · show (entries.getLast ne).index = _
    rw [indexed.getLast ne, List.length_append, size]
  · show kept.snapshotData.isSome ↔ 1 < kept.firstIndex
    rw [sameData, sameFirst]
    exact represents.data
  · have more : 1 < log.firstIndex := sameFirst ▸ more
    obtain ⟨last, found, term⟩ := represents.snapshot more
    refine ⟨last, ?_, term.trans sameTerm.symm⟩
    show (l.take prev ++ entries)[kept.firstIndex - 2]? = some last
    rw [sameFirst, List.getElem?_append_left (by omega), List.getElem?_take_of_lt (by omega), found]
  · refine (represents.indexed.take prev).append ?_
    rwa [size, Nat.zero_add]

/-- **A snapshot of a part of the list.** -/
theorem Represents.save (represents : Represents log l) {index term : Nat} (data : Bytes)
    (above : log.snapshotIndex ≤ index) (positive : 0 < index) {entry : LogEntry}
    (found : l[index - 1]? = some entry) (same : entry.term = term) :
    Represents (log.saveSnapshotWithData index term data) l := by
  have first := represents.first
  have inside := (List.getElem?_eq_some_iff.mp found).1
  rw [snapshotIndex] at above
  refine ⟨Nat.succ_pos _, ?_, fun i reach => ?_, ?_, ?_, fun _ => ⟨entry, found, same⟩,
    represents.indexed⟩
  · show index + 1 ≤ l.length + 1
    omega
  · have reach : index + 1 ≤ i + 1 := reach
    exact represents.stored i (by omega)
  · show log.lastIndex = l.length ∨ (log.lastIndex < l.length ∧ index + 1 = l.length + 1)
    rcases represents.last with whole | ⟨short, ahead⟩
    · exact .inl whole
    · exact .inr ⟨short, by omega⟩
  · show (some data).isSome ↔ 1 < index + 1
    simp [positive]

/-- **A snapshot that the log does not reach beyond** stands for all of it. -/
theorem Represents.install (represents : Represents log l) {term : Nat} (data : Bytes)
    (above : log.snapshotIndex ≤ l'.length) (short : log.lastIndex ≤ l'.length) {entry : LogEntry}
    (found : l'[l'.length - 1]? = some entry) (same : entry.term = term) (indexed : IndexedFrom 0 l') :
    Represents (log.saveSnapshotWithData l'.length term data) l' := by
  have first := represents.first
  have positive : 0 < l'.length := by
    have := (List.getElem?_eq_some_iff.mp found).1
    omega
  rw [snapshotIndex] at above
  refine ⟨Nat.succ_pos _, le_rfl, fun i reach => ?_, ?_, ?_, fun _ => ⟨entry, found, same⟩, indexed⟩
  · have reach : l'.length + 1 ≤ i + 1 := reach
    show log.entries (i + 1) = _
    rw [represents.stored i (by omega), List.getElem?_eq_none (by omega : l'.length ≤ i)]
    refine List.getElem?_eq_none ?_
    rcases represents.last with whole | ⟨-, ahead⟩
    · omega
    · omega
  · show log.lastIndex = l'.length ∨ (log.lastIndex < l'.length ∧ l'.length + 1 = l'.length + 1)
    omega
  · show (some data).isSome ↔ 1 < l'.length + 1
    simp [positive]

end RaftLog

end Rusd
