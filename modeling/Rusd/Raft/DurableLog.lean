/-
**The log on disk.**

`RaftLog` as it is kept in its tree: the records of the entries, the records of the bounds, and the
counters in memory beside them. Every operation is a sequence of calls to sled, each atomic and durable,
followed by the stores to the counters; `new` reads the counters back from whatever the tree holds.

* `toRaftLog_append`, `toRaftLog_truncateAfter` — the operations are those of the log without its bounds
  on disk.
* `Kept` — what the operations keep: every entry up to the last index is in the tree, also those below
  the first one, and the records of the bounds are the counters.
* `survives_iff` — after a crash, the log that `new` reads back is whole unless the crash fell between
  two calls of one `truncate_after`.
-/

import Rusd.Lib.Machine
import Rusd.Raft.Log

namespace Rusd

/-! ### The tree -/

/-- The records beside the entries. -/
structure LogRecords where
  lastIndex : Option Nat
  lastTerm : Option Nat
  snapshotIndex : Option Nat
  snapshotTerm : Option Nat
  deriving DecidableEq, Repr

/-- The tree: the records `entry:{i}`, and the others. -/
structure LogTree where
  entries : Nat → Option LogEntry
  records : LogRecords

/-- One insert of a batch. -/
inductive TreeInsert
  | entry (entry : LogEntry)
  | lastIndex (index : Nat)
  | lastTerm (term : Nat)
  | snapshotIndex (index : Nat)
  | snapshotTerm (term : Nat)
  deriving DecidableEq, Repr

/-- One call to sled. -/
inductive SledCall
  | applyBatch (inserts : List TreeInsert)
  | remove (index : Nat)
  deriving DecidableEq, Repr

namespace LogTree

def empty : LogTree := ⟨fun _ => none, ⟨none, none, none, none⟩⟩

def insert (tree : LogTree) : TreeInsert → LogTree
  | .entry entry => { tree with entries := Function.update tree.entries entry.index (some entry) }
  | .lastIndex index => { tree with records := { tree.records with lastIndex := some index } }
  | .lastTerm term => { tree with records := { tree.records with lastTerm := some term } }
  | .snapshotIndex index => { tree with records := { tree.records with snapshotIndex := some index } }
  | .snapshotTerm term => { tree with records := { tree.records with snapshotTerm := some term } }

def call (tree : LogTree) : SledCall → LogTree
  | .applyBatch inserts => inserts.foldl insert tree
  | .remove index => { tree with entries := Function.update tree.entries index none }

/-- The tree after the calls. -/
def calls (tree : LogTree) (made : List SledCall) : LogTree := made.foldl call tree

end LogTree

/-! ### The log -/

structure DurableLog where
  tree : LogTree
  firstIndex : Nat
  lastIndex : Nat
  lastTerm : Nat
  snapshotIndex : Nat
  snapshotTerm : Nat
  snapshotData : Option Bytes

/-- An operation that writes to the tree. -/
inductive LogOp
  | append (entries : List LogEntry)
  | truncateAfter (index : Nat)
  | truncateBefore (index : Nat)
  | saveSnapshot (index term : Nat)
  deriving DecidableEq, Repr

namespace DurableLog

/-- `RaftLog::new` with `recover`: the counters are read back from the tree. -/
def new (tree : LogTree) : DurableLog where
  tree := tree
  firstIndex := match tree.records.snapshotIndex with
    | some index => index + 1
    | none => 1
  lastIndex := tree.records.lastIndex.getD 0
  lastTerm := match tree.records.lastIndex with
    | some index => ((tree.entries index).map (·.term)).getD 0
    | none => 0
  snapshotIndex := tree.records.snapshotIndex.getD 0
  snapshotTerm := tree.records.snapshotTerm.getD 0
  snapshotData := none

/-- The log without its bounds on disk. -/
def toRaftLog (log : DurableLog) : RaftLog where
  entries := log.tree.entries
  firstIndex := log.firstIndex
  lastIndex := log.lastIndex
  lastTerm := log.lastTerm
  snapshotTerm := log.snapshotTerm
  snapshotData := log.snapshotData

def get (log : DurableLog) (index : Nat) : Option LogEntry := log.toRaftLog.get index

def termAt (log : DurableLog) (index : Nat) : Option Nat := log.toRaftLog.termAt index

def hasEntry (log : DurableLog) (index term : Nat) : Bool := log.toRaftLog.hasEntry index term

/-- The calls to sled that an operation makes, in order. -/
def sledCalls (log : DurableLog) : LogOp → List SledCall
  | .append entries =>
    match entries.getLast? with
    | none => []
    | some lastEntry =>
      [.applyBatch (entries.map .entry ++ [.lastIndex lastEntry.index, .lastTerm lastEntry.term])]
  | .truncateAfter index =>
    if index ≥ log.lastIndex then []
    else
      (List.range' (index + 1) (log.lastIndex - index)).map .remove ++
        [.applyBatch (.lastIndex index ::
          ((log.get index).map fun entry => .lastTerm entry.term).toList)]
  | .truncateBefore index =>
    if index ≤ log.firstIndex then []
    else (List.range' log.firstIndex (index - log.firstIndex)).map .remove
  | .saveSnapshot index term => [.applyBatch [.snapshotIndex index, .snapshotTerm term]]

def append (log : DurableLog) (entries : List LogEntry) : DurableLog :=
  match entries.getLast? with
  | none => log
  | some lastEntry =>
    { log with
      tree := log.tree.calls (log.sledCalls (.append entries))
      lastIndex := lastEntry.index
      lastTerm := lastEntry.term }

/-- The last term changes only if the log reads an entry at the index. -/
def truncateAfter (log : DurableLog) (index : Nat) : DurableLog :=
  if index ≥ log.lastIndex then log
  else
    { log with
      tree := log.tree.calls (log.sledCalls (.truncateAfter index))
      lastIndex := index
      lastTerm := match log.get index with
        | some entry => entry.term
        | none => log.lastTerm }

def truncateBefore (log : DurableLog) (index : Nat) : DurableLog :=
  if index ≤ log.firstIndex then log
  else
    { log with
      tree := log.tree.calls (log.sledCalls (.truncateBefore index))
      firstIndex := index }

def saveSnapshot (log : DurableLog) (index term : Nat) : DurableLog :=
  { log with
    tree := log.tree.calls (log.sledCalls (.saveSnapshot index term))
    snapshotIndex := index
    snapshotTerm := term
    firstIndex := index + 1 }

def saveSnapshotWithData (log : DurableLog) (index term : Nat) (data : Bytes) : DurableLog :=
  { log.saveSnapshot index term with snapshotData := some data }

def perform (log : DurableLog) : LogOp → DurableLog
  | .append entries => log.append entries
  | .truncateAfter index => log.truncateAfter index
  | .truncateBefore index => log.truncateBefore index
  | .saveSnapshot index term => log.saveSnapshot index term

/-! ### What the operations leave in the tree -/

variable {log : DurableLog} {entries : List LogEntry} {index term : Nat}

/-- An operation leaves the tree of its calls. -/
theorem perform_tree (op : LogOp) : (log.perform op).tree = log.tree.calls (log.sledCalls op) := by
  cases op with
  | append entries =>
    show (log.append entries).tree = _
    rw [append, sledCalls]
    cases entries.getLast? <;> rfl
  | truncateAfter index =>
    show (log.truncateAfter index).tree = _
    rw [truncateAfter, sledCalls]
    split <;> rfl
  | truncateBefore index =>
    show (log.truncateBefore index).tree = _
    rw [truncateBefore, sledCalls]
    split <;> rfl
  | saveSnapshot index term => rfl

theorem insert_entries (tree : LogTree) (entries : List LogEntry) :
    (entries.map TreeInsert.entry).foldl LogTree.insert tree =
      { tree with entries := RaftLog.insertAll tree.entries entries } := by
  induction entries generalizing tree with
  | nil => rfl
  | cons entry rest ih =>
    rw [List.map_cons, List.foldl_cons, ih]
    rfl

/-- The tree after removing a stretch of entries. -/
theorem calls_remove (tree : LogTree) (start count : Nat) :
    tree.calls ((List.range' start count).map .remove) =
      { tree with
        entries := fun i => if start ≤ i ∧ i < start + count then none else tree.entries i } := by
  induction count generalizing tree start with
  | zero =>
    rw [List.range'_zero, List.map_nil]
    have same : (fun i => if start ≤ i ∧ i < start + 0 then none else tree.entries i) =
        tree.entries := by
      funext i
      rw [if_neg (by omega)]
    rw [same]
    rfl
  | succ count ih =>
    rw [List.range'_succ, List.map_cons]
    show (tree.call (.remove start)).calls _ = _
    rw [ih]
    congr 1
    funext i
    show (if start + 1 ≤ i ∧ i < start + 1 + count then none
      else Function.update tree.entries start none i) = _
    by_cases here : i = start
    · rw [here, Function.update_self, if_neg (by omega), if_pos (by omega)]
    · rw [Function.update_of_ne here]
      by_cases inside : start + 1 ≤ i ∧ i < start + 1 + count
      · rw [if_pos inside, if_pos (by omega)]
      · rw [if_neg inside, if_neg (by omega)]

/-- An append leaves the log in memory that it leaves without the disk. -/
theorem toRaftLog_append (log : DurableLog) (entries : List LogEntry) :
    (log.append entries).toRaftLog = log.toRaftLog.append entries := by
  rw [append, RaftLog.append]
  cases last : entries.getLast? with
  | none => rfl
  | some lastEntry =>
    rw [sledCalls, last]
    dsimp only [LogTree.calls, List.foldl_cons, List.foldl_nil, LogTree.call]
    rw [List.foldl_append, insert_entries]
    rfl

theorem append_entries (log : DurableLog) (entries : List LogEntry) :
    (log.append entries).tree.entries = RaftLog.insertAll log.tree.entries entries := by
  have same : (log.append entries).tree.entries = (log.toRaftLog.append entries).entries := by
    rw [← DurableLog.toRaftLog_append]
    rfl
  rw [same]
  unfold RaftLog.append
  cases last : entries.getLast? with
  | none =>
    rw [List.getLast?_eq_none_iff.mp last]
    rfl
  | some lastEntry => rfl

theorem truncateAfter_entries (cut : index < log.lastIndex) :
    (log.truncateAfter index).tree.entries =
      fun i => if index < i ∧ i ≤ log.lastIndex then none else log.tree.entries i := by
  rw [truncateAfter, if_neg (by omega), sledCalls, if_neg (by omega), LogTree.calls, List.foldl_append]
  have removed := calls_remove log.tree (index + 1) (log.lastIndex - index)
  rw [LogTree.calls] at removed
  dsimp only
  rw [removed]
  have same : ∀ (tree : LogTree), (tree.call (.applyBatch (.lastIndex index ::
      ((log.get index).map fun entry => TreeInsert.lastTerm entry.term).toList))).entries =
        tree.entries := by
    intro tree
    cases log.get index <;> rfl
  rw [List.foldl_cons, List.foldl_nil, same]
  funext i
  dsimp only
  by_cases inside : index < i ∧ i ≤ log.lastIndex
  · rw [if_pos inside, if_pos (by omega)]
  · rw [if_neg inside, if_neg (by omega)]

theorem toRaftLog_truncateAfter (log : DurableLog) (index : Nat) :
    (log.truncateAfter index).toRaftLog = log.toRaftLog.truncateAfter index := by
  rcases Nat.lt_or_ge index log.lastIndex with cut | keep
  · have same : (log.truncateAfter index).toRaftLog =
        { log.toRaftLog with
          entries := (log.truncateAfter index).tree.entries
          lastIndex := index
          lastTerm := match log.get index with
            | some entry => entry.term
            | none => log.lastTerm } := by
      rw [truncateAfter, if_neg (by omega)]
      rfl
    rw [same, truncateAfter_entries cut, RaftLog.truncateAfter, if_neg (by show ¬ _ ≥ log.lastIndex; omega)]
    have read : RaftLog.get { log.toRaftLog with
        entries := fun i => if index < i ∧ i ≤ log.toRaftLog.lastIndex then none
          else log.toRaftLog.entries i } index = log.get index := by
      unfold get RaftLog.get
      dsimp only
      rw [if_neg (show ¬ (index < index ∧ index ≤ log.toRaftLog.lastIndex) by omega)]
    dsimp only
    rw [read]
    cases log.get index <;> rfl
  · have keep' : index ≥ log.toRaftLog.lastIndex := keep
    rw [truncateAfter, if_pos keep, RaftLog.truncateAfter, if_pos keep']

/-! ### What the operations keep -/

/-- How the operations are called: entries with the next indices are appended, nothing in the snapshot
is cut off, and a snapshot is labelled with an entry of the tree. -/
def Admits (log : DurableLog) : LogOp → Prop
  | .append entries => RaftLog.IndexedFrom log.lastIndex entries
  | .truncateAfter index => log.snapshotIndex ≤ index
  | .truncateBefore index => index ≤ log.firstIndex
  | .saveSnapshot index term => ∃ entry, log.tree.entries index = some entry ∧ entry.term = term

/-- **The tree keeps every entry.** The records are the counters, and the label of the snapshot is that
of an entry still in the tree. -/
structure Kept (log : DurableLog) : Prop where
  zero : log.tree.entries 0 = none
  stored : ∀ i, 0 < i → i ≤ log.lastIndex → ∃ entry, log.tree.entries i = some entry
  above : ∀ i, log.lastIndex < i → log.tree.entries i = none
  first : log.firstIndex = log.snapshotIndex + 1
  inside : log.snapshotIndex ≤ log.lastIndex
  label : ((log.tree.entries log.snapshotIndex).map (·.term)).getD 0 = log.snapshotTerm
  lastRecord : log.tree.records.lastIndex.getD 0 = log.lastIndex
  indexRecord : log.tree.records.snapshotIndex.getD 0 = log.snapshotIndex
  termRecord : log.tree.records.snapshotTerm.getD 0 = log.snapshotTerm

theorem Kept.empty : Kept (new .empty) :=
  ⟨rfl, fun _ positive inside => absurd inside (Nat.not_le.mpr positive), fun _ _ => rfl, rfl, le_rfl,
    rfl, rfl, rfl, rfl⟩

theorem Kept.append (kept : Kept log) (next : RaftLog.IndexedFrom log.lastIndex entries) :
    Kept (log.append entries) := by
  rcases eq_or_ne entries [] with rfl | ne
  · exact kept
  have last : entries.getLast? = some (entries.getLast ne) := List.getLast?_eq_some_getLast ne
  have reach : (entries.getLast ne).index = log.lastIndex + entries.length := next.getLast ne
  have appended : log.append entries =
      { log with
        tree := ⟨RaftLog.insertAll log.tree.entries entries,
          { log.tree.records with
            lastIndex := some (entries.getLast ne).index
            lastTerm := some (entries.getLast ne).term }⟩
        lastIndex := (entries.getLast ne).index
        lastTerm := (entries.getLast ne).term } := by
    rw [DurableLog.append, sledCalls, last]
    dsimp only [LogTree.calls, List.foldl_cons, List.foldl_nil, LogTree.call]
    rw [List.foldl_append, insert_entries]
    rfl
  have tree := RaftLog.insertAll_stored log.tree.entries entries log.lastIndex next
  rw [appended]
  refine ⟨?_, fun i positive within => ?_, fun i beyond => ?_, kept.first, ?_, ?_, rfl,
    kept.indexRecord, kept.termRecord⟩
  · show RaftLog.insertAll log.tree.entries entries 0 = none
    rw [tree, if_neg (by omega)]
    exact kept.zero
  · have within : i ≤ (entries.getLast ne).index := within
    show ∃ entry, RaftLog.insertAll log.tree.entries entries i = some entry
    rw [tree]
    split
    case isTrue new => exact ⟨_, List.getElem?_eq_getElem (by omega)⟩
    case isFalse old => exact kept.stored i positive (by omega)
  · have beyond : (entries.getLast ne).index < i := beyond
    show RaftLog.insertAll log.tree.entries entries i = none
    rw [tree, if_neg (by omega)]
    exact kept.above i (by omega)
  · show log.snapshotIndex ≤ (entries.getLast ne).index
    have := kept.inside
    omega
  · show ((RaftLog.insertAll log.tree.entries entries log.snapshotIndex).map (·.term)).getD 0 = _
    rw [tree, if_neg (by have := kept.inside; omega)]
    exact kept.label

theorem truncateAfter_records (cut : index < log.lastIndex) :
    (log.truncateAfter index).tree.records.lastIndex = some index ∧
      (log.truncateAfter index).tree.records.snapshotIndex = log.tree.records.snapshotIndex ∧
      (log.truncateAfter index).tree.records.snapshotTerm = log.tree.records.snapshotTerm := by
  rw [truncateAfter, if_neg (by omega), sledCalls, if_neg (by omega), LogTree.calls, List.foldl_append]
  have removed := calls_remove log.tree (index + 1) (log.lastIndex - index)
  rw [LogTree.calls] at removed
  dsimp only
  rw [removed]
  cases log.get index <;> exact ⟨rfl, rfl, rfl⟩

theorem truncateAfter_counters (log : DurableLog) (index : Nat) :
    (log.truncateAfter index).firstIndex = log.firstIndex ∧
      (log.truncateAfter index).snapshotIndex = log.snapshotIndex ∧
      (log.truncateAfter index).snapshotTerm = log.snapshotTerm := by
  rw [truncateAfter]
  split <;> exact ⟨rfl, rfl, rfl⟩

theorem Kept.truncateAfter (kept : Kept log) (above : log.snapshotIndex ≤ index) :
    Kept (log.truncateAfter index) := by
  rcases Nat.lt_or_ge index log.lastIndex with cut | keep
  · have tree := truncateAfter_entries cut
    obtain ⟨lastRecord, indexRecord, termRecord⟩ := truncateAfter_records cut
    have last : (log.truncateAfter index).lastIndex = index := by
      rw [DurableLog.truncateAfter, if_neg (by omega)]
    obtain ⟨first, snapshot, label⟩ := truncateAfter_counters log index
    refine ⟨?_, fun i positive within => ?_, fun i beyond => ?_, ?_, ?_, ?_, ?_, ?_, ?_⟩
    · rw [tree]
      exact (if_neg (by omega)).trans kept.zero
    · rw [last] at within
      obtain ⟨entry, found⟩ := kept.stored i positive (by omega)
      refine ⟨entry, ?_⟩
      rw [tree]
      exact (if_neg (by omega)).trans found
    · rw [last] at beyond
      rw [tree]
      show (if index < i ∧ i ≤ log.lastIndex then none else log.tree.entries i) = none
      split
      case isTrue => rfl
      case isFalse outside => exact kept.above i (by omega)
    · rw [first, snapshot, kept.first]
    · rw [snapshot, last]
      exact above
    · rw [tree, snapshot, label, ← kept.label]
      show ((if index < log.snapshotIndex ∧ log.snapshotIndex ≤ log.lastIndex then none
        else log.tree.entries log.snapshotIndex).map (·.term)).getD 0 = _
      rw [if_neg (by omega)]
    · rw [lastRecord, last]
      rfl
    · rw [indexRecord, snapshot, kept.indexRecord]
    · rw [termRecord, label, kept.termRecord]
  · rw [DurableLog.truncateAfter, if_pos keep]
    exact kept

theorem Kept.saveSnapshot (kept : Kept log) {entry : LogEntry}
    (found : log.tree.entries index = some entry) (same : entry.term = term) :
    Kept (log.saveSnapshot index term) := by
  refine ⟨kept.zero, kept.stored, kept.above, rfl, ?_, ?_, kept.lastRecord, rfl, rfl⟩
  · show index ≤ log.lastIndex
    by_contra beyond
    rw [kept.above index (by omega)] at found
    cases found
  · show ((log.tree.entries index).map (·.term)).getD 0 = term
    rw [found]
    exact same

/-- **Every operation keeps it.** -/
theorem Kept.perform (kept : Kept log) {op : LogOp} (admits : log.Admits op) :
    Kept (log.perform op) := by
  cases op with
  | append entries => exact kept.append admits
  | truncateAfter index => exact kept.truncateAfter admits
  | truncateBefore index =>
    have admits : index ≤ log.firstIndex := admits
    show Kept (log.truncateBefore index)
    rw [DurableLog.truncateBefore, if_pos admits]
    exact kept
  | saveSnapshot index term =>
    obtain ⟨entry, found, same⟩ := admits
    exact kept.saveSnapshot found same

/-! ### Reading the log back -/

/-- The log is whole: it reads an entry at every index between its bounds, and its last term is that of
the last of them, or of its snapshot. -/
structure Whole (log : DurableLog) : Prop where
  stored : ∀ i, log.firstIndex ≤ i → i ≤ log.lastIndex → ∃ entry, log.get i = some entry
  lastTerm : log.lastIndex = log.snapshotIndex ∧ log.lastTerm = log.snapshotTerm ∨
    ∃ entry, log.get log.lastIndex = some entry ∧ entry.term = log.lastTerm

theorem new_firstIndex (tree : LogTree) : (new tree).firstIndex = (new tree).snapshotIndex + 1 := by
  rw [new]
  cases tree.records.snapshotIndex <;> rfl

theorem get_of_le {tree : LogTree} {i : Nat} (inside : (new tree).firstIndex ≤ i) :
    (new tree).get i = tree.entries i := by
  unfold get RaftLog.get
  exact if_neg (Nat.not_lt.mpr inside)

/-- **A complete tree is read back whole.** -/
theorem Kept.whole (kept : Kept log) : Whole (new log.tree) := by
  have last : (new log.tree).lastIndex = log.lastIndex := kept.lastRecord
  have snapshot : (new log.tree).snapshotIndex = log.snapshotIndex := kept.indexRecord
  have first : (new log.tree).firstIndex = log.snapshotIndex + 1 := by
    rw [new_firstIndex, snapshot]
  have lastTerm : (new log.tree).lastTerm =
      ((log.tree.entries log.lastIndex).map (·.term)).getD 0 := by
    have record := kept.lastRecord
    rw [new]
    cases written : log.tree.records.lastIndex with
    | none =>
      rw [written] at record
      have empty : log.lastIndex = 0 := record.symm
      rw [empty, kept.zero]
      rfl
    | some written' =>
      rw [written] at record
      have same : log.lastIndex = written' := record.symm
      rw [same]
  refine ⟨fun i above within => ?_, ?_⟩
  · rw [get_of_le above]
    exact kept.stored i (by omega) (by omega)
  · rcases kept.inside.eq_or_lt with empty | more
    · refine .inl ⟨by rw [last, snapshot, empty], ?_⟩
      rw [lastTerm, ← empty, kept.label]
      exact kept.termRecord.symm
    · obtain ⟨entry, found⟩ := kept.stored log.lastIndex (by omega) le_rfl
      refine .inr ⟨entry, ?_, ?_⟩
      · rw [last, get_of_le (by omega)]
        exact found
      · rw [lastTerm, found]
        rfl

/-- The log that is read back has the same bounds, and keeps what the tree keeps. -/
theorem Kept.recover (kept : Kept log) :
    Kept (new log.tree) ∧ (new log.tree).lastIndex = log.lastIndex := by
  have last : (new log.tree).lastIndex = log.lastIndex := kept.lastRecord
  have snapshot : (new log.tree).snapshotIndex = log.snapshotIndex := kept.indexRecord
  have label : (new log.tree).snapshotTerm = log.snapshotTerm := kept.termRecord
  refine ⟨⟨kept.zero, fun i positive within => ?_, fun i beyond => ?_, new_firstIndex log.tree, ?_, ?_, rfl,
    rfl, rfl⟩, last⟩
  · exact kept.stored i positive (last ▸ within)
  · exact kept.above i (last ▸ beyond)
  · rw [snapshot, last]
    exact kept.inside
  · rw [snapshot, label]
    exact kept.label

/-! ### Crashes -/

/-- One operation after another. -/
def step (log : DurableLog) (op : LogOp) : Option DurableLog := some (log.perform op)

/-- The log that `new` reads back when the process dies after `n` calls to sled of the operation. -/
def afterCrash (log : DurableLog) (op : LogOp) (n : Nat) : DurableLog :=
  new (log.tree.calls ((log.sledCalls op).take n))

/-- **The condition.** The crash does not fall between the first removal of a `truncate_after` and the
batch that writes its new bound. -/
def Apart (log : DurableLog) (op : LogOp) (n : Nat) : Prop :=
  ∀ index, op = .truncateAfter index → index < log.lastIndex → n = 0 ∨ log.lastIndex - index < n

/-- A crash between the operations. -/
theorem Kept.whole_between (kept : Kept log) {op : LogOp} (admits : log.Admits op) {n : Nat}
    (between : n = 0 ∨ (log.sledCalls op).length ≤ n) : Whole (log.afterCrash op n) := by
  rcases between with rfl | all
  · exact kept.whole
  · rw [afterCrash, List.take_of_length_le all, ← perform_tree]
    exact (kept.perform admits).whole

/-- **Inside a truncation** the record of the last index names an entry that is gone. -/
theorem Kept.torn (kept : Kept log) (above : log.snapshotIndex ≤ index) (cut : index < log.lastIndex)
    {n : Nat} (begun : 0 < n) (before : n ≤ log.lastIndex - index) :
    ¬ Whole (log.afterCrash (.truncateAfter index) n) := by
  have tree : log.afterCrash (.truncateAfter index) n =
      new { log.tree with
        entries := fun i => if index + 1 ≤ i ∧ i < index + 1 + n then none else log.tree.entries i } := by
    rw [afterCrash, sledCalls, if_neg (by omega), List.take_append_of_le_length (by simpa using before),
      ← List.map_take, List.take_range'_of_length_ge before, calls_remove]
  intro whole
  rw [tree] at whole
  have first : (new { log.tree with entries := fun i =>
      if index + 1 ≤ i ∧ i < index + 1 + n then none else log.tree.entries i }).firstIndex =
        log.snapshotIndex + 1 := by
    rw [new_firstIndex]
    exact congrArg (· + 1) kept.indexRecord
  obtain ⟨entry, found⟩ := whole.stored (index + 1) (by omega) (by
    show index + 1 ≤ log.tree.records.lastIndex.getD 0
    rw [kept.lastRecord]
    omega)
  rw [get_of_le (by omega)] at found
  dsimp only at found
  rw [if_pos (by omega)] at found
  cases found

/-- **Crash consistency.** After any operations and a crash during one more, the log is read back whole
exactly if the crash did not tear a truncation. -/
theorem survives_iff (ops : List LogOp) (log : DurableLog)
    (runs : runFrom step (new .empty) ops = some log)
    (admitted : Along step Admits (new .empty) ops) (op : LogOp) (admits : log.Admits op) (n : Nat) :
    Whole (log.afterCrash op n) ↔ log.Apart op n := by
  have keeps : ∀ log op next, step log op = some next → log.Admits op → Kept log → Kept next := by
    intro log op next moves admits kept
    obtain rfl := Option.some.inj moves
    exact kept.perform admits
  have kept : Kept log := run_invariant keeps Kept.empty admitted runs
  constructor
  · rintro whole index rfl cut
    by_contra torn
    push Not at torn
    exact kept.torn admits cut (by omega) torn.2 whole
  · intro apart
    refine kept.whole_between admits ?_
    cases op with
    | append entries =>
      rw [sledCalls]
      cases entries.getLast? with
      | none => exact .inr (Nat.zero_le n)
      | some lastEntry => exact n.eq_zero_or_pos
    | truncateAfter index =>
      rw [sledCalls]
      split
      case isTrue => exact .inr (Nat.zero_le n)
      case isFalse cut =>
        rcases apart index rfl (by omega) with none | all
        · exact .inl none
        · refine .inr ?_
          rw [List.length_append, List.length_map, List.length_range', List.length_singleton]
          exact all
    | truncateBefore index =>
      have admits : index ≤ log.firstIndex := admits
      rw [sledCalls, if_pos admits]
      exact .inr (Nat.zero_le n)
    | saveSnapshot index term => exact n.eq_zero_or_pos

/-- Two entries, appended one after the other. -/
def twoEntries : List LogOp :=
  [.append [⟨1, 1, [120], .normal⟩], .append [⟨2, 1, [121], .normal⟩]]

/-- The log of the two entries. -/
def ofTwo : DurableLog := (twoEntries.foldl perform (new .empty))

theorem twoEntries_admitted : Along step Admits (new .empty) twoEntries :=
  ⟨RaftLog.IndexedFrom.singleton rfl, RaftLog.IndexedFrom.singleton rfl, trivial⟩

/-- **A torn truncation.** The second entry is removed, and the process dies before the new bound is
written: the log is read back with last index 2, no entry there and last term 0. -/
theorem torn_truncation :
    runFrom step (new .empty) twoEntries = some ofTwo ∧ Along step Admits (new .empty) twoEntries ∧
      ofTwo.Admits (.truncateAfter 1) ∧
      (ofTwo.afterCrash (.truncateAfter 1) 1).lastIndex = 2 ∧
      (ofTwo.afterCrash (.truncateAfter 1) 1).get 2 = none ∧
      (ofTwo.afterCrash (.truncateAfter 1) 1).lastTerm = 0 ∧
      ¬ Whole (ofTwo.afterCrash (.truncateAfter 1) 1) := by
  refine ⟨rfl, twoEntries_admitted, Nat.zero_le 1, rfl, rfl, rfl, fun whole => ?_⟩
  obtain ⟨entry, found⟩ := whole.stored 2 (by decide) (by decide)
  cases found

/-- A crash after the whole truncation. -/
theorem finished_truncation : Whole (ofTwo.afterCrash (.truncateAfter 1) 2) := by
  refine (survives_iff twoEntries ofTwo rfl twoEntries_admitted (.truncateAfter 1) (Nat.zero_le 1)
    2).mpr ?_
  rintro index same -
  cases same
  exact .inr (by decide)

end DurableLog

end Rusd
