/-
**The Raft log.**

`RaftLog` keeps one record per entry in a tree, keyed by the index the entry carries, and its bounds
and last term in counters beside it. The model is the tree as a map from indices, with the counters;
no snapshot is taken here, so the first index stays where `new` puts it.

* `Holds log l` — the tree holds exactly the entries of the list `l`, from index 1 on, and the
  counters describe it. Every operation has one lemma that says what it does to that list.
* `Holds.splice` — what `handle_append_entries` does to the log: keep the entries up to the previous
  index, drop the others, append the new ones.
-/

import Rusd.Lib.Bytes

namespace Rusd

/-! ### Entries and the operations on the log -/

inductive EntryType
  | normal
  | configChange
  | snapshot
  deriving DecidableEq, Repr

structure LogEntry where
  index : Nat
  term : Nat
  data : Bytes
  entryType : EntryType
  deriving DecidableEq, Repr

/-- The log: the records `entry:{i}` of the tree, and the counters. -/
structure RaftLog where
  entries : Nat → Option LogEntry
  firstIndex : Nat
  lastIndex : Nat
  lastTerm : Nat
  snapshotTerm : Nat
  snapshotData : Option Bytes

namespace RaftLog

/-- `RaftLog::new` over an empty tree. -/
def new : RaftLog where
  entries := fun _ => none
  firstIndex := 1
  lastIndex := 0
  lastTerm := 0
  snapshotTerm := 0
  snapshotData := none

/-- Insert the records of the entries into the tree. -/
def insertAll (tree : Nat → Option LogEntry) (entries : List LogEntry) : Nat → Option LogEntry :=
  entries.foldl (fun tree entry => Function.update tree entry.index (some entry)) tree

def append (log : RaftLog) (entries : List LogEntry) : RaftLog :=
  match entries.getLast? with
  | none => log
  | some lastEntry =>
    { log with
      entries := insertAll log.entries entries
      lastIndex := lastEntry.index
      lastTerm := lastEntry.term }

def get (log : RaftLog) (index : Nat) : Option LogEntry :=
  if index < log.firstIndex then none else log.entries index

def getRange (log : RaftLog) (start stop : Nat) : List LogEntry :=
  if start > log.lastIndex ∨ stop < log.firstIndex then []
  else
    let actualStart := max start log.firstIndex
    let actualEnd := min stop (log.lastIndex + 1)
    (List.range' actualStart (actualEnd - actualStart)).filterMap log.get

/-- Delete the records above `index`; the last term changes only if a record is left there. -/
def truncateAfter (log : RaftLog) (index : Nat) : RaftLog :=
  if index ≥ log.lastIndex then log
  else
    let kept : RaftLog :=
      { log with entries := fun i => if index < i ∧ i ≤ log.lastIndex then none else log.entries i }
    match kept.get index with
    | some entry => { kept with lastTerm := entry.term, lastIndex := index }
    | none => { kept with lastIndex := index }

def termAt (log : RaftLog) (index : Nat) : Option Nat :=
  if index = 0 then some 0
  else if index < log.firstIndex then some log.snapshotTerm
  else (log.get index).map (·.term)

def hasEntry (log : RaftLog) (index term : Nat) : Bool :=
  match log.termAt index with
  | some t => t == term
  | none => false

/-! ### The list a log holds -/

/-- The term of the last entry, 0 for no entries. -/
def lastTermOf (l : List LogEntry) : Nat := (l.getLast?.map (·.term)).getD 0

/-- The entries carry the indices that follow `start`. -/
def IndexedFrom (start : Nat) (l : List LogEntry) : Prop :=
  ∀ i entry, l[i]? = some entry → entry.index = start + i + 1

/-- **The log holds the list.** -/
structure Holds (log : RaftLog) (l : List LogEntry) : Prop where
  first : log.firstIndex = 1
  noSnapshot : log.snapshotData = none
  zero : log.entries 0 = none
  stored : ∀ i, log.entries (i + 1) = l[i]?
  last : log.lastIndex = l.length
  lastTerm : log.lastTerm = lastTermOf l
  indexed : IndexedFrom 0 l

/-- The entries of the log, in order. -/
def toList (log : RaftLog) : List LogEntry :=
  (List.range' 1 log.lastIndex).filterMap log.entries

variable {log : RaftLog} {l entries : List LogEntry}

theorem Holds.new : Holds new [] :=
  ⟨rfl, rfl, rfl, fun _ => rfl, rfl, rfl, fun i entry found => by simp at found⟩

/-- A stretch of a tree, read record by record. -/
theorem filterMap_stored {tree : Nat → Option LogEntry} (stored : ∀ i, tree (i + 1) = l[i]?)
    (start count : Nat) (inside : start + count ≤ l.length) :
    (List.range' (start + 1) count).filterMap tree = (l.drop start).take count := by
  induction count generalizing start with
  | zero => simp
  | succ count ih =>
    have here : start < l.length := by omega
    have found : tree (start + 1) = some l[start] := by
      rw [stored start, List.getElem?_eq_getElem here]
    rw [List.range'_succ, List.filterMap_cons_some found, ih (start + 1) (by omega),
      List.drop_eq_getElem_cons here, List.take_succ_cons]

theorem Holds.filterMap_range' (holds : Holds log l) (start count : Nat)
    (inside : start + count ≤ l.length) :
    (List.range' (start + 1) count).filterMap log.entries = (l.drop start).take count :=
  filterMap_stored holds.stored start count inside

theorem Holds.toList_eq (holds : Holds log l) : log.toList = l := by
  rw [toList, holds.last]
  have all := holds.filterMap_range' 0 l.length (by omega)
  rwa [List.drop_zero, List.take_length, Nat.zero_add] at all

theorem Holds.get_succ (holds : Holds log l) (i : Nat) : log.get (i + 1) = l[i]? := by
  rw [get, if_neg (by rw [holds.first]; omega), holds.stored]

theorem Holds.get_eq (holds : Holds log l) {index : Nat} (positive : 0 < index) :
    log.get index = l[index - 1]? := by
  obtain ⟨i, rfl⟩ := Nat.exists_eq_succ_of_ne_zero positive.ne'
  exact holds.get_succ i

/-- There is no entry at 0. -/
theorem Holds.positive_of_get (holds : Holds log l) {index : Nat} {entry : LogEntry}
    (found : log.get index = some entry) : 0 < index := by
  rw [get, holds.first] at found
  split at found
  · cases found
  · omega

theorem Holds.termAt_eq (holds : Holds log l) {index : Nat} (positive : 0 < index) :
    log.termAt index = l[index - 1]?.map (·.term) := by
  rw [termAt, if_neg positive.ne', if_neg (by rw [holds.first]; omega), holds.get_eq positive]

/-- What `has_entry` says about the list. -/
theorem Holds.hasEntry_iff (holds : Holds log l) {index term : Nat} :
    log.hasEntry index term = true ↔
      (index = 0 ∧ term = 0) ∨ (0 < index ∧ ∃ entry, l[index - 1]? = some entry ∧ entry.term = term) := by
  rcases Nat.eq_zero_or_pos index with rfl | positive
  · rw [hasEntry, termAt, if_pos rfl]
    simp only [beq_iff_eq, true_and, Nat.lt_irrefl, false_and, or_false]
    exact eq_comm
  · rw [hasEntry, holds.termAt_eq positive]
    cases found : l[index - 1]? with
    | none => simp [positive.ne']
    | some entry => simp [positive.ne', positive]

theorem Holds.getRange_eq (holds : Holds log l) (start stop : Nat) :
    log.getRange start stop = (l.drop (max start 1 - 1)).take (stop - max start 1) := by
  rw [getRange, holds.first, holds.last]
  split
  case isTrue outside =>
    rcases outside with beyond | below
    · rw [List.drop_eq_nil_of_le (by omega), List.take_nil]
    · rw [show stop - max start 1 = 0 by omega, List.take_zero]
  case isFalse inside =>
    push Not at inside
    have same : ∀ i ∈ List.range' (max start 1) (min stop (l.length + 1) - max start 1),
        log.get i = log.entries i := by
      intro i member
      have := List.mem_range'_1.mp member
      rw [get, if_neg (by rw [holds.first]; omega)]
    rw [List.filterMap_congr same]
    have stretch := holds.filterMap_range' (max start 1 - 1)
      (min stop (l.length + 1) - max start 1) (by omega)
    rw [show max start 1 - 1 + 1 = max start 1 by omega] at stretch
    rw [stretch]
    rcases Nat.le_total stop (l.length + 1) with le | le
    · rw [Nat.min_eq_left le]
    · rw [Nat.min_eq_right le, List.take_of_length_le, List.take_of_length_le]
      · rw [List.length_drop]
        omega
      · rw [List.length_drop]
        omega

/-! ### Truncation and append -/

theorem insertAll_stored (tree : Nat → Option LogEntry) :
    ∀ (entries : List LogEntry) (start : Nat), IndexedFrom start entries → ∀ i,
      insertAll tree entries i =
        if start < i ∧ i ≤ start + entries.length then entries[i - start - 1]? else tree i := by
  intro entries
  induction entries generalizing tree with
  | nil =>
    intro start _ i
    rw [if_neg (by simp)]
    rfl
  | cons entry rest ih =>
    intro start indexed i
    have here : entry.index = start + 1 := by simpa using indexed 0 entry rfl
    have after : IndexedFrom (start + 1) rest := by
      intro j other found
      rw [indexed (j + 1) other (by simpa using found)]
      omega
    have step : insertAll tree (entry :: rest) i =
        insertAll (Function.update tree entry.index (some entry)) rest i := rfl
    rw [step, ih _ (start + 1) after i]
    by_cases inRest : start + 1 < i ∧ i ≤ start + 1 + rest.length
    · rw [if_pos inRest, if_pos (by simp; omega), show i - start - 1 = i - (start + 1) - 1 + 1 by omega,
        List.getElem?_cons_succ]
    · rw [if_neg inRest, here]
      by_cases now : i = start + 1
      · subst now
        rw [Function.update_self, if_pos (by simp)]
        simp
      · rw [Function.update_of_ne now, if_neg (by simp at inRest ⊢; omega)]

theorem lastTermOf_append_of_ne_nil (ne : entries ≠ []) :
    lastTermOf (l ++ entries) = lastTermOf entries := by
  rw [lastTermOf, lastTermOf, List.getLast?_append_of_ne_nil _ ne]

theorem IndexedFrom.getLast {start : Nat} (indexed : IndexedFrom start entries) (ne : entries ≠ []) :
    (entries.getLast ne).index = start + entries.length := by
  have positive : 0 < entries.length := List.length_pos_iff.mpr ne
  have last := indexed (entries.length - 1) (entries.getLast ne) (by
    rw [← List.getLast?_eq_getElem?, List.getLast?_eq_some_getLast ne])
  omega

theorem IndexedFrom.singleton {start : Nat} {entry : LogEntry} (next : entry.index = start + 1) :
    IndexedFrom start [entry] := by
  intro i other found
  obtain ⟨inside, rfl⟩ := List.getElem?_eq_some_iff.mp found
  have only : i = 0 := by simpa using inside
  subst only
  exact next

theorem IndexedFrom.append {start : Nat} (indexed : IndexedFrom start l)
    (after : IndexedFrom (start + l.length) entries) : IndexedFrom start (l ++ entries) := by
  intro i entry found
  rcases Nat.lt_or_ge i l.length with inside | beyond
  · exact indexed i entry (by rwa [List.getElem?_append_left inside] at found)
  · rw [List.getElem?_append_right beyond] at found
    rw [after _ entry found]
    omega

theorem IndexedFrom.take {start : Nat} (indexed : IndexedFrom start l) (n : Nat) :
    IndexedFrom start (l.take n) := by
  intro i entry found
  refine indexed i entry ?_
  rw [List.getElem?_take] at found
  split at found
  · exact found
  · cases found

/-- Appending the entries with the next indices appends them to the list. -/
theorem Holds.append (holds : Holds log l) (indexed : IndexedFrom l.length entries) :
    Holds (log.append entries) (l ++ entries) := by
  rcases eq_or_ne entries [] with rfl | ne
  · simpa [RaftLog.append] using holds
  have stored := insertAll_stored log.entries entries l.length indexed
  rw [RaftLog.append, List.getLast?_eq_some_getLast ne]
  refine ⟨holds.first, holds.noSnapshot, ?_, fun i => ?_, ?_, ?_, ?_⟩
  · show insertAll log.entries entries 0 = none
    rw [stored 0, if_neg (by omega), holds.zero]
  · show insertAll log.entries entries (i + 1) = _
    rw [stored (i + 1)]
    split
    case isTrue inside =>
      rw [List.getElem?_append_right (by omega)]
      congr 1
      omega
    case isFalse outside =>
      rw [holds.stored i]
      rcases Nat.lt_or_ge i l.length with before | beyond
      · rw [List.getElem?_append_left before]
      · rw [List.getElem?_eq_none beyond, List.getElem?_eq_none (by rw [List.length_append]; omega)]
  · rw [List.length_append]
    exact indexed.getLast ne
  · rw [lastTermOf_append_of_ne_nil ne, lastTermOf, List.getLast?_eq_some_getLast ne]
    rfl
  · exact holds.indexed.append (by rwa [Nat.zero_add])

/-- **Truncate and append.** The last term that `truncate_after` may leave behind is overwritten by the
append that follows it. -/
theorem Holds.splice (holds : Holds log l) {prev : Nat} (inside : prev ≤ l.length)
    (ne : entries ≠ []) (indexed : IndexedFrom prev entries) :
    Holds ((if prev + 1 ≤ log.lastIndex then log.truncateAfter prev else log).append entries)
      (l.take prev ++ entries) := by
  have kept : ∃ term, Holds
      { (if prev + 1 ≤ log.lastIndex then log.truncateAfter prev else log) with lastTerm := term }
      (l.take prev) := by
    refine ⟨lastTermOf (l.take prev), ?_⟩
    rw [holds.last]
    split
    case isTrue below =>
      have cut : log.truncateAfter prev =
          { log with
            entries := fun i => if prev < i ∧ i ≤ log.lastIndex then none else log.entries i
            lastIndex := prev
            lastTerm := (log.truncateAfter prev).lastTerm } := by
        rw [truncateAfter, if_neg (by rw [holds.last]; omega)]
        dsimp only
        split <;> rfl
      rw [cut]
      refine ⟨holds.first, holds.noSnapshot, ?_, fun i => ?_, ?_, rfl, holds.indexed.take prev⟩
      · show (if prev < 0 ∧ 0 ≤ log.lastIndex then none else log.entries 0) = none
        rw [if_neg (by omega), holds.zero]
      · show (if prev < i + 1 ∧ i + 1 ≤ log.lastIndex then none else log.entries (i + 1)) = _
        rw [holds.last, List.getElem?_take, holds.stored i]
        rcases Nat.lt_or_ge i prev with before | beyond
        · rw [if_neg (by omega), if_pos before]
        · rw [if_neg (show ¬ i < prev by omega)]
          split
          · rfl
          · exact List.getElem?_eq_none (by omega)
      · rw [List.length_take]
        exact (Nat.min_eq_left inside).symm
    case isFalse beyond =>
      have whole : l.take prev = l := List.take_of_length_le (by omega)
      rw [whole]
      exact ⟨holds.first, holds.noSnapshot, holds.zero, holds.stored, holds.last, rfl, holds.indexed⟩
  obtain ⟨term, kept⟩ := kept
  have after : IndexedFrom (l.take prev).length entries := by
    rwa [List.length_take, Nat.min_eq_left inside]
  have spliced := kept.append after
  rw [RaftLog.append, List.getLast?_eq_some_getLast ne] at spliced ⊢
  exact spliced

end RaftLog

end Rusd
