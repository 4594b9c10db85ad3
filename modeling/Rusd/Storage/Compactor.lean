/-
**The background compactor** (`storage/compaction.rs`).

In its periodic mode the compactor reads the two counters of the store, one after the other, and compacts to
a thousand revisions below the current one, if that is more than was compacted before. Clients put and
delete between any two of its steps.

* `Compacting` — a store in use by clients and a compactor; `covered` is ghost state, the revision at which
  the last finished pass began.
* `RevisionsRetained` — the invariant: passes do not reach into the last thousand revisions, and do reach up
  to them.
* `RevisionsRetained.step` — every step of clients and compactor keeps it.
* `periodic_history` — so the changes of the last thousand revisions can always be watched, and what a pass
  left behind begins at most a thousand revisions before it.
-/

import Rusd.Lib.Machine
import Rusd.Storage.WatchEvents

namespace Rusd

open MvccStore

/-- Compaction strategy; the interval of the periodic one is the time between two ticks. -/
inductive CompactionMode
  | periodic
  | revision (target : Int)
  deriving DecidableEq, Repr

/-- The task of a compactor: between ticks, with the current revision read, about to compact in a pass or
once, or at its end. -/
inductive CompactorTask
  | waiting
  | measured (currentRev : Int)
  | compacting (targetCompactRev : Int)
  | once (targetRevision : Int)
  | finished
  deriving DecidableEq, Repr

structure Compacting where
  log : CallLog
  task : CompactorTask
  covered : Int

/-- A client makes a call, or the compactor takes a step. -/
inductive CompactingEvent
  | client (call : ClientCall)
  | compactor
  deriving DecidableEq, Repr

namespace Compacting

def minRetainRevisions : Int := 1000

/-- The revision that a pass compacts to. -/
def target (currentRev : Int) : Int := max (currentRev - minRetainRevisions) 0

/-- A compactor of an empty store. -/
def start (mode : CompactionMode) : Compacting where
  log := .fresh
  task := match mode with
    | .periodic => .waiting
    | .revision target => .once target
  covered := 0

/-- A step; the error of a compaction is logged only. -/
def step (s : Compacting) : CompactingEvent → Option Compacting
  | .client call => some { s with log := s.log.call call }
  | .compactor =>
    match s.task with
    | .waiting => some { s with task := .measured s.log.store.currentRevision }
    | .measured currentRev =>
      if target currentRev > s.log.store.compactRevision then
        some { s with task := .compacting (target currentRev) }
      else some { s with task := .waiting, covered := currentRev }
    | .compacting targetCompactRev =>
      some ⟨s.log.call (.compact targetCompactRev), .waiting, targetCompactRev + minRetainRevisions⟩
    | .once targetRevision => some ⟨s.log.call (.compact targetRevision), .finished, s.covered⟩
    | .finished => none

end Compacting

open Compacting

/-- A client that puts and deletes, with what fits the formats of the records. -/
def CompactingEvent.Writes : CompactingEvent → Prop
  | .client call => call.Short ∧ ∀ revision, call ≠ .compact revision
  | .compactor => True

/-! ### The invariant -/

/-- **The last revisions are retained.** -/
structure RevisionsRetained (s : Compacting) : Prop where
  compacted : s.log.store.compactRevision = s.log.compacted
  retains : s.log.compacted ≤ max (s.log.store.currentRevision - minRetainRevisions) 0
  reaches : s.covered - minRetainRevisions ≤ s.log.compacted
  task : match s.task with
    | .waiting => True
    | .measured currentRev => currentRev ≤ s.log.store.currentRevision
    | .compacting targetCompactRev =>
      s.log.compacted < targetCompactRev ∧
        targetCompactRev ≤ s.log.store.currentRevision - minRetainRevisions
    | .once _ => False
    | .finished => False

/-- The log is one of `n` short calls at most. -/
def Logs (n : Nat) (s : Compacting) : Prop :=
  ∃ calls : List ClientCall, s.log = .of calls ∧ (∀ call ∈ calls, call.Short) ∧ calls.length ≤ n

theorem Logs.call {n : Nat} {s : Compacting} (logs : Logs n s) {call : ClientCall} (short : call.Short)
    (task : CompactorTask) (covered : Int) : Logs (n + 1) ⟨s.log.call call, task, covered⟩ := by
  obtain ⟨calls, same, allShort, length⟩ := logs
  refine ⟨calls ++ [call], ?_, ?_, ?_⟩
  · rw [CallLog.of_concat, ← same]
  · intro other member
    rcases List.mem_append.mp member with old | new
    · exact allShort other old
    · exact List.mem_singleton.mp new ▸ short
  · rw [List.length_append, List.length_singleton]
    omega

theorem Logs.mono {n m : Nat} {s t : Compacting} (logs : Logs n s) (le : n ≤ m) (same : t.log = s.log) :
    Logs m t := by
  obtain ⟨calls, log, short, length⟩ := logs
  exact ⟨calls, same.trans log, short, length.trans le⟩

/-- What a put or a deletion does to the counters. -/
theorem counters_call {log : CallLog} (sound : Sound log.store)
    (room : log.store.currentRevision + 1 < 2 ^ 63) {call : ClientCall}
    (writes : ∀ revision, call ≠ .compact revision) :
    (log.call call).store.compactRevision = log.store.compactRevision ∧
      (log.call call).compacted = log.compacted ∧
      (log.call call).store.currentRevision = log.store.currentRevision + 1 := by
  cases call with
  | put key value lease =>
    obtain ⟨kv, -, -, -, -, same⟩ := CallLog.put_call sound room key value lease
    rw [same]
    exact ⟨rfl, rfl, rfl⟩
  | deleteRange start stop =>
    by_cases valid : KeyIndex.ValidRange start stop
    · obtain ⟨keys, -, -, same⟩ := CallLog.deleteRange_call sound room valid
      rw [same]
      exact ⟨rfl, rfl, rfl⟩
    · rw [CallLog.inverted_call room valid]
      exact ⟨rfl, rfl, rfl⟩
  | compact revision => exact absurd rfl (writes revision)

/-- A step of the compactor leaves the store alone, or compacts it. -/
theorem compactor_log {s t : Compacting} (moves : s.step .compactor = some t) :
    t.log = s.log ∨ ∃ target, (s.task = .compacting target ∨ s.task = .once target) ∧
      t.log = s.log.call (.compact target) := by
  cases at_ : s.task with
  | waiting =>
    simp only [step, at_] at moves
    cases moves
    exact .inl rfl
  | measured currentRev =>
    simp only [step, at_] at moves
    split_ifs at moves <;> cases moves <;> exact .inl rfl
  | compacting target =>
    simp only [step, at_] at moves
    cases moves
    exact .inr ⟨target, .inl rfl, rfl⟩
  | once target =>
    simp only [step, at_] at moves
    cases moves
    exact .inr ⟨target, .inr rfl, rfl⟩
  | finished =>
    simp only [step, at_] at moves
    cases moves

namespace RevisionsRetained

variable {s t : Compacting}

theorem start : RevisionsRetained (Compacting.start .periodic) where
  compacted := rfl
  retains := by decide
  reaches := by decide
  task := trivial

/-- A client writes. -/
theorem client (retained : RevisionsRetained s) (sound : Sound s.log.store)
    (room : s.log.store.currentRevision + 1 < 2 ^ 63) {call : ClientCall}
    (writes : ∀ revision, call ≠ .compact revision) : RevisionsRetained { s with log := s.log.call call } := by
  obtain ⟨compactRevision, compacted, next⟩ := counters_call sound room writes
  obtain ⟨same, retains, reaches, task⟩ := retained
  refine ⟨compactRevision.trans (same.trans compacted.symm), ?_, ?_, ?_⟩
  · show (s.log.call call).compacted ≤ max ((s.log.call call).store.currentRevision - _) 0
    omega
  · show s.covered - minRetainRevisions ≤ (s.log.call call).compacted
    omega
  · cases at_ : s.task <;> simp only [at_, compacted, next] at task ⊢ <;> omega

/-- A pass compacts what the store has reached. -/
theorem target_le (retained : RevisionsRetained s) {target : Int} (at_ : s.task = .compacting target) :
    target ≤ s.log.store.currentRevision := by
  have task := retained.task
  simp only [at_] at task
  have retain : minRetainRevisions = 1000 := rfl
  omega

/-- The compactor takes a step. -/
theorem compactor (retained : RevisionsRetained s) (positive : 0 ≤ s.log.compacted)
    (moves : s.step .compactor = some t) : RevisionsRetained t := by
  have reached : ∀ {target}, s.task = .compacting target → target ≤ s.log.store.currentRevision :=
    retained.target_le
  obtain ⟨same, retains, reaches, task⟩ := retained
  cases at_ : s.task with
  | waiting =>
    simp only [step, at_] at moves
    cases moves
    exact ⟨same, retains, reaches, le_rfl⟩
  | measured currentRev =>
    simp only [at_] at task
    simp only [step, at_, target, same] at moves
    split_ifs at moves with grows
    · cases moves
      refine ⟨same, retains, reaches, grows, ?_⟩
      show max (currentRev - minRetainRevisions) 0 ≤ s.log.store.currentRevision - minRetainRevisions
      omega
    · cases moves
      refine ⟨same, retains, ?_, trivial⟩
      show currentRev - minRetainRevisions ≤ s.log.compacted
      omega
  | compacting targetCompactRev =>
    simp only [at_] at task
    simp only [step, at_] at moves
    cases moves
    -- the target lies above what was compacted before
    rw [CallLog.compact_call (reached at_), max_eq_right task.1.le]
    exact ⟨rfl, task.2.trans (le_max_left _ _), by simp, trivial⟩
  | once targetRevision => simp only [at_] at task
  | finished => simp only [at_] at task

/-- **Every step**; what is compacted stays compacted. -/
theorem step {n : Nat} (room : (n : Int) + 2 < 2 ^ 63) {event : CompactingEvent} (plain : event.Writes)
    (moves : s.step event = some t) (retained : RevisionsRetained s) (logs : Logs n s) :
    RevisionsRetained t ∧ Logs (n + 1) t ∧ s.log.store.compactRevision ≤ t.log.store.compactRevision := by
  have logs' := id logs
  obtain ⟨calls, same, short, length⟩ := logs
  have sound := CallLog.sound_of calls (by omega)
  rw [← same] at sound
  obtain ⟨sound, counted, positive, -⟩ := sound
  cases event with
  | client call =>
    cases moves
    refine ⟨retained.client sound (by omega) plain.2, logs'.call plain.1 _ _, ?_⟩
    exact (counters_call sound (by omega) plain.2).1.ge
  | compactor =>
    refine ⟨retained.compactor positive moves, ?_, ?_⟩
    · rcases compactor_log moves with unchanged | ⟨target, -, called⟩
      · exact logs'.mono n.le_succ unchanged
      · have short : ClientCall.Short (.compact target) := trivial
        exact (logs'.call short s.task s.covered).mono le_rfl called
    · rcases compactor_log moves with unchanged | ⟨target, at_ | at_, called⟩
      · rw [unchanged]
      · have task := retained.task
        simp only [at_] at task
        rw [called, retained.compacted, CallLog.compact_call (retained.target_le at_)]
        exact task.1.le
      · exact absurd retained.task (by simp only [at_, not_false_eq_true])

/-- **Every run.** -/
theorem run {events : List CompactingEvent} : ∀ {n : Nat} {s t : Compacting},
    (n : Int) + events.length + 2 < 2 ^ 63 → (∀ event ∈ events, event.Writes) →
      runFrom Compacting.step s events = some t → RevisionsRetained s → Logs n s →
      RevisionsRetained t ∧ Logs (n + events.length) t ∧
        s.log.store.compactRevision ≤ t.log.store.compactRevision := by
  induction events with
  | nil =>
    intro n s t _ _ runs retained logs
    cases runs
    exact ⟨retained, logs, le_rfl⟩
  | cons event rest ih =>
    intro n s t room plain runs retained logs
    obtain ⟨first, plain⟩ := List.forall_mem_cons.mp plain
    obtain ⟨next, moves, runs⟩ := runFrom_cons runs
    rw [List.length_cons] at room
    push_cast at room
    obtain ⟨retained, logs, rises⟩ := retained.step (by omega) first moves logs
    obtain ⟨retained, logs, rises'⟩ := ih (by push_cast; omega) plain runs retained logs
    refine ⟨retained, ?_, rises.trans rises'⟩
    rwa [List.length_cons, Nat.add_comm rest.length 1, ← Nat.add_assoc]

end RevisionsRetained

/-- **What the periodic compactor leaves to watch.** In every run of clients that put and delete and a
periodic compactor, the store answers a watch from `r` with every change from `r` on that lies from `kept`
on. `kept` is never within the last thousand revisions, it is at most a thousand revisions behind the
beginning of the last finished pass, and it never goes back. -/
theorem periodic_history (events more : List CompactingEvent) (s t : Compacting)
    (plain : ∀ event ∈ events ++ more, event.Writes)
    (room : ((events ++ more).length : Int) + 2 < 2 ^ 63)
    (runs : runFrom Compacting.step (.start .periodic) events = some s)
    (continues : runFrom Compacting.step s more = some t) :
    s.log.store.compactRevision ≤ t.log.store.compactRevision ∧
    ∃ kept, t.log.store.compactRevision = kept ∧ t.covered - 1000 ≤ kept ∧
      kept ≤ max (t.log.store.currentRevision - 1000) 0 ∧
      ∀ r, 1 ≤ r → t.log.store.watchEvents r =
        .ok (t.log.events.filter fun event => max r kept ≤ event.kv.modRevision) := by
  obtain ⟨first, later⟩ := List.forall_mem_append.mp plain
  rw [List.length_append] at room
  push_cast at room
  have started : Logs 0 (.start .periodic) :=
    ⟨[], rfl, fun call member => absurd member List.not_mem_nil, le_rfl⟩
  obtain ⟨retained, logs, -⟩ := RevisionsRetained.run (by push_cast; omega) first runs .start started
  obtain ⟨retained, logs, rises⟩ := RevisionsRetained.run (by push_cast; omega) later continues retained logs
  refine ⟨rises, t.log.compacted, retained.compacted, retained.reaches, retained.retains, fun r from_ => ?_⟩
  obtain ⟨calls, same, short, length⟩ := logs
  have counted := (CallLog.sound_of calls (by omega)).2.1
  have logged := CallLog.logged_of calls short (by omega)
  rw [← same] at counted logged
  rw [logged.watchEvents (by omega) (by omega)]
  -- no change has a revision beyond the current one
  refine congrArg Outcome.ok (List.filter_congr fun event member => ?_)
  rw [decide_eq_decide]
  exact and_iff_left (logged.ok event member).bounded

/-- A key is put, the compactor makes a pass that finds too little, and the key is put again. -/
def putAroundPass : List CompactingEvent :=
  [.client (.put [97] [49] 0), .compactor, .compactor, .client (.put [97] [50] 0)]

theorem put_around_pass_kept :
    ∃ t, runFrom Compacting.step (.start .periodic) putAroundPass = some t ∧ t.covered = 2 ∧
      ∃ kept, t.covered - 1000 ≤ kept ∧ kept ≤ max (t.log.store.currentRevision - 1000) 0 ∧
        ∀ r, 1 ≤ r → t.log.store.watchEvents r =
          .ok (t.log.events.filter fun event => max r kept ≤ event.kv.modRevision) := by
  have plain : ∀ event ∈ putAroundPass, event.Writes := by
    intro event member
    simp only [putAroundPass, List.mem_cons, List.not_mem_nil, or_false] at member
    rcases member with rfl | rfl | rfl | rfl
    · exact ⟨by decide, fun revision same => by cases same⟩
    · trivial
    · trivial
    · exact ⟨by decide, fun revision same => by cases same⟩
  have ran : ((runFrom Compacting.step (.start .periodic) putAroundPass).map fun t => t.covered) =
      some 2 := by decide +kernel
  obtain ⟨t, runs, covered⟩ := Option.map_eq_some_iff.mp ran
  obtain ⟨-, kept, -, reaches, retains, watched⟩ :=
    periodic_history putAroundPass [] t t (by rwa [List.append_nil]) (by decide) runs rfl
  exact ⟨t, runs, covered, kept, reaches, retains, watched⟩

end Rusd
