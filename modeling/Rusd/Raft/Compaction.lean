/-
**What a compaction leaves behind.**

`save_snapshot` moves the first index, so that the `truncate_before` which follows it returns at once: the
records of the compacted entries stay in the tree. The log reads none of them; for every index below the
first one it has a single term left, that of the snapshot.

* `removed_iff` — a compaction removes the records up to its index only where there were none.
* `LogHistory` — a log with the latest entry it held at each index.
* `has_entry_truthful_iff` — `has_entry` tells the truth about an index exactly if the index is not
  compacted, or its latest entry has the term of the snapshot.
-/

import Rusd.Raft.LogShape

namespace Rusd

namespace DurableLog

/-! ### The records of compacted entries -/

/-- The records up to an index are gone, the others as they were. -/
structure Removed (old new : DurableLog) (index : Nat) : Prop where
  gone : ∀ i, old.firstIndex ≤ i → i ≤ index → new.tree.entries i = none
  kept : ∀ i, index < i → new.tree.entries i = old.tree.entries i

/-- A compaction, as `trigger_snapshot` does it without callbacks. -/
def compacted (log : DurableLog) (index term : Nat) : DurableLog :=
  (log.saveSnapshot index term).truncateBefore (index + 1)

/-- A compaction with the data of the snapshot. -/
def compactedWithData (log : DurableLog) (index term : Nat) (data : Bytes) : DurableLog :=
  (log.saveSnapshotWithData index term data).truncateBefore (index + 1)

/-- **A compaction leaves every record in the tree.** -/
theorem compacted_entries (log : DurableLog) (index term : Nat) (data : Bytes) :
    (log.compacted index term).tree.entries = log.tree.entries ∧
      (log.compactedWithData index term data).tree.entries = log.tree.entries := by
  obtain ⟨withData, without⟩ := log.truncateBefore_after_save index term data
  rw [compacted, compactedWithData, withData, without]
  exact ⟨rfl, rfl⟩

/-- A log with the same records has removed none of them. -/
theorem removed_iff_of_same {old new : DurableLog} {index : Nat}
    (same : new.tree.entries = old.tree.entries) :
    Removed old new index ↔ ∀ i, old.firstIndex ≤ i → i ≤ index → old.tree.entries i = none := by
  constructor
  · intro removed i low high
    rw [← same]
    exact removed.gone i low high
  · intro none
    refine ⟨fun i low high => ?_, fun i _ => congrFun same i⟩
    rw [same]
    exact none i low high

/-- **When a compaction removes the entries.** For every log and every snapshot index: the tree holds no
record between the old first index and the snapshot's exactly if it held none before. -/
theorem removed_iff (log : DurableLog) (index term : Nat) (data : Bytes) :
    (Removed log (log.compacted index term) index ↔
        ∀ i, log.firstIndex ≤ i → i ≤ index → log.tree.entries i = none) ∧
      (Removed log (log.compactedWithData index term data) index ↔
        ∀ i, log.firstIndex ≤ i → i ≤ index → log.tree.entries i = none) := by
  obtain ⟨without, withData⟩ := log.compacted_entries index term data
  exact ⟨removed_iff_of_same without, removed_iff_of_same withData⟩

/-- **A leftover record**: two entries, the first of which is compacted. -/
theorem compacted_entry_stays : ofTwo.firstIndex ≤ 1 ∧
    (ofTwo.compacted 1 1).tree.entries 1 = some ⟨1, 1, [120], .normal⟩ ∧
    ¬ Removed ofTwo (ofTwo.compacted 1 1) 1 := by
  refine ⟨by decide, rfl, fun removed => ?_⟩
  have gone := removed.gone 1 (by decide) le_rfl
  cases gone

end DurableLog

/-! ### What the log says about compacted entries -/

/-- A log, and the latest entry that it held at each index. -/
structure LogHistory where
  log : DurableLog
  latest : Nat → Option LogEntry

namespace LogHistory

open DurableLog

inductive Op
  | append (entries : List LogEntry)
  | truncateAfter (index : Nat)
  /-- `save_snapshot` with the term of the entry at the index, then `truncate_before`. -/
  | compact (index : Nat)
  deriving DecidableEq, Repr

def start : LogHistory := ⟨.new .empty, fun _ => none⟩

/-- One call; only the index of a stored entry is compacted. -/
def step (s : LogHistory) : Op → Option LogHistory
  | .append entries => some ⟨s.log.append entries, RaftLog.insertAll s.latest entries⟩
  | .truncateAfter index => some { s with log := s.log.truncateAfter index }
  | .compact index => (s.log.get index).map fun entry => { s with log := s.log.compacted index entry.term }

/-- **`has_entry` is truthful** about an index. -/
def Truthful (s : LogHistory) (index : Nat) : Prop :=
  ∀ term, s.log.hasEntry index term = true → ∃ entry, s.latest index = some entry ∧ entry.term = term

/-- **The condition.** All entries up to a compacted index have the term of the entry at the index, and
entries appended below the first index have the term of the snapshot. -/
def OneTerm (s : LogHistory) : Op → Prop
  | .append entries => ∀ entry ∈ entries, entry.index < s.log.firstIndex → entry.term = s.log.snapshotTerm
  | .truncateAfter _ => True
  | .compact index => ∀ entry, s.log.get index = some entry →
      ∀ i, 0 < i → i ≤ index → (s.latest i).map (·.term) = some entry.term

variable {s next : LogHistory} {op : Op}

/-- A record of the tree is the latest one. -/
def Backed (s : LogHistory) : Prop := ∀ i entry, s.log.tree.entries i = some entry → s.latest i = some entry

theorem insertAll_backed {tree latest : Nat → Option LogEntry} (backed : ∀ i entry, tree i = some entry →
    latest i = some entry) (entries : List LogEntry) (i : Nat) (entry : LogEntry)
    (found : RaftLog.insertAll tree entries i = some entry) :
    RaftLog.insertAll latest entries i = some entry := by
  induction entries generalizing tree latest with
  | nil => exact backed i entry found
  | cons first rest ih =>
    refine ih (fun j other there => ?_) found
    dsimp only at there ⊢
    by_cases same : j = first.index
    · rw [same, Function.update_self] at there ⊢
      exact there
    · rw [Function.update_of_ne same] at there ⊢
      exact backed j other there

theorem Backed.step (backed : Backed s) (moves : s.step op = some next) : Backed next := by
  cases op with
  | append entries =>
    cases moves
    intro i entry found
    have inserted : (s.log.append entries).tree.entries i = some entry := found
    rw [append_entries] at inserted
    exact insertAll_backed backed entries i entry inserted
  | truncateAfter index =>
    cases moves
    intro i entry found
    have there : (s.log.truncateAfter index).tree.entries i = some entry := found
    rcases Nat.lt_or_ge index s.log.lastIndex with cut | keep
    · rw [truncateAfter_entries cut] at there
      dsimp only at there
      split at there
      · cases there
      · exact backed i entry there
    · rw [DurableLog.truncateAfter, if_pos keep] at there
      exact backed i entry there
  | compact index =>
    obtain ⟨entry, -, rfl⟩ := Option.map_eq_some_iff.mp moves
    intro i other found
    have there : (s.log.compacted index entry.term).tree.entries i = some other := found
    rw [(s.log.compacted_entries index entry.term []).1] at there
    exact backed i other there

/-- Every compacted index had an entry of the term of the snapshot. -/
def Uniform (s : LogHistory) : Prop :=
  ∀ i, 0 < i → i < s.log.firstIndex → (s.latest i).map (·.term) = some s.log.snapshotTerm

theorem insertAll_cases (tree : Nat → Option LogEntry) (entries : List LogEntry) (i : Nat) :
    RaftLog.insertAll tree entries i = tree i ∨
      ∃ entry ∈ entries, entry.index = i ∧ RaftLog.insertAll tree entries i = some entry := by
  induction entries generalizing tree with
  | nil => exact .inl rfl
  | cons first rest ih =>
    rcases ih (Function.update tree first.index (some first)) with old | ⟨entry, member, at_, new⟩
    · by_cases same : i = first.index
      · refine .inr ⟨first, List.mem_cons_self, same.symm, old.trans ?_⟩
        rw [same, Function.update_self]
      · exact .inl (old.trans (Function.update_of_ne same ..))
    · exact .inr ⟨entry, List.mem_cons_of_mem _ member, at_, new⟩

theorem Uniform.step (uniform : Uniform s) (moves : s.step op = some next) (oneTerm : OneTerm s op) :
    Uniform next := by
  cases op with
  | append entries =>
    cases moves
    obtain ⟨first, -, label, -⟩ := append_counters s.log entries
    intro i positive below
    have below : i < (s.log.append entries).firstIndex := below
    show (RaftLog.insertAll s.latest entries i).map (·.term) = some (s.log.append entries).snapshotTerm
    rw [first] at below
    rw [label]
    rcases insertAll_cases s.latest entries i with old | ⟨entry, member, rfl, new⟩
    · rw [old]
      exact uniform i positive below
    · rw [new, Option.map_some, oneTerm entry member below]
  | truncateAfter index =>
    cases moves
    obtain ⟨first, -, label⟩ := truncateAfter_counters s.log index
    intro i positive below
    show (s.latest i).map (·.term) = some (s.log.truncateAfter index).snapshotTerm
    have below : i < (s.log.truncateAfter index).firstIndex := below
    rw [first] at below
    rw [label]
    exact uniform i positive below
  | compact index =>
    obtain ⟨entry, found, rfl⟩ := Option.map_eq_some_iff.mp moves
    have saved := (s.log.truncateBefore_after_save index entry.term []).2
    intro i positive below
    have below : i < (s.log.compacted index entry.term).firstIndex := below
    show (s.latest i).map (·.term) = some (s.log.compacted index entry.term).snapshotTerm
    rw [compacted, saved] at below ⊢
    exact oneTerm entry found i positive (Nat.lt_succ_iff.mp below)

/-- **What `has_entry` says**: at a compacted index the term of the snapshot, elsewhere that of the record. -/
theorem truthful_iff (backed : Backed s) {i : Nat} (positive : 0 < i) :
    Truthful s i ↔ (i < s.log.firstIndex → (s.latest i).map (·.term) = some s.log.snapshotTerm) := by
  by_cases below : i < s.log.firstIndex
  · have reads : ∀ term, s.log.hasEntry i term = true ↔ s.log.snapshotTerm = term := by
      intro term
      have below : i < s.log.toRaftLog.firstIndex := below
      rw [DurableLog.hasEntry, RaftLog.hasEntry, RaftLog.termAt, if_neg positive.ne', if_pos below]
      exact beq_iff_eq
    constructor
    · intro truthful _
      obtain ⟨entry, there, same⟩ := truthful s.log.snapshotTerm ((reads _).mpr rfl)
      rw [there, Option.map_some, same]
    · intro uniform term said
      obtain ⟨entry, there, same⟩ := Option.map_eq_some_iff.mp (uniform below)
      exact ⟨entry, there, same.trans ((reads term).mp said)⟩
  · refine iff_of_true (fun term said => ?_) fun compacted => absurd compacted below
    have above : ¬ i < s.log.toRaftLog.firstIndex := below
    rw [DurableLog.hasEntry, RaftLog.hasEntry, RaftLog.termAt, if_neg positive.ne', if_neg above,
      RaftLog.get, if_neg above] at said
    cases found : s.log.toRaftLog.entries i with
    | none =>
      rw [found] at said
      cases said
    | some entry =>
      rw [found] at said
      exact ⟨entry, backed i entry found, beq_iff_eq.mp said⟩

/-- **When `has_entry` is truthful.** After every history, for every index: exactly if the index is not
compacted, or its latest entry has the term of the snapshot. If all steps of the history meet the
condition, it is truthful about every index. -/
theorem has_entry_truthful_iff (ops : List Op) (s : LogHistory) (runs : runFrom step start ops = some s) :
    (∀ i, 0 < i → (Truthful s i ↔
      (i < s.log.firstIndex → (s.latest i).map (·.term) = some s.log.snapshotTerm))) ∧
    (Along step OneTerm start ops → ∀ i, 0 < i → Truthful s i) := by
  have fresh : Backed start := fun i entry found => by cases found
  have backed : Backed s := run_always (fun _ _ _ moves held => held.step moves) fresh runs
  refine ⟨fun i positive => truthful_iff backed positive, fun along i positive => ?_⟩
  have none : Uniform start := fun i positive below =>
    absurd positive (Nat.not_lt.mpr (Nat.lt_succ_iff.mp below))
  have uniform : Uniform s := run_invariant (fun _ _ _ moves oneTerm held => held.step moves oneTerm)
    none along runs
  exact (truthful_iff backed positive).mpr (uniform i positive)

/-- Entries of terms 1 and 2, compacted. -/
def twoTerms : List Op :=
  [.append [⟨1, 1, [], .normal⟩], .append [⟨2, 2, [], .normal⟩], .compact 2]

/-- **A wrong yes**: the entry at 1 has term 1, and the log says that it has term 2. -/
theorem compacted_term_wrong : ∃ s, runFrom step start twoTerms = some s ∧
    s.log.hasEntry 1 2 = true ∧ (s.latest 1).map (·.term) = some 1 ∧ ¬ Truthful s 1 := by
  refine ⟨_, rfl, by decide, rfl, fun truthful => ?_⟩
  obtain ⟨entry, there, wrong⟩ := truthful 2 (by decide)
  cases there
  cases wrong

/-- Entries of one term, compacted. -/
def oneTerm : List Op :=
  [.append [⟨1, 1, [], .normal⟩], .append [⟨2, 1, [], .normal⟩], .compact 2]

theorem oneTerm_along : Along step OneTerm start oneTerm := by
  refine ⟨fun entry member below => ?_, fun entry member below => ?_, fun entry found i positive within => ?_,
    trivial⟩
  · rw [List.mem_singleton.mp member] at below
    exact absurd below (by decide)
  · rw [List.mem_singleton.mp member] at below
    exact absurd below (by decide)
  · cases found
    match i with
    | 1 => rfl
    | 2 => rfl

/-- The log is right about both of them. -/
theorem one_term_truthful : ∃ s, runFrom step start oneTerm = some s ∧ ∀ i, 0 < i → Truthful s i :=
  ⟨_, rfl, (has_entry_truthful_iff oneTerm _ rfl).2 oneTerm_along⟩

end LogHistory

end Rusd
