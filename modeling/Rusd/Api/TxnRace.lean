/-
**Two transactions on one key** (`api/kv_service.rs`, `storage/mvcc.rs`).

`KvService::txn` compares and then writes, and nothing keeps the two together: every load of the
revision counter, every scan of the index and every read or write of a tree is a step of its own, and
the steps of another request fall between them. `Phase.step` runs a compare-and-swap transaction one
such call at a time, with the local computation after a call attached to it.

* `Race.run` — two transactions under a schedule.
* `Exclusive` — the schedules that keep them apart: once one has passed its comparison, the other
  checks the revision it loaded against a counter that has not moved, and reads the key only after
  the write is where it looks.
* `RaceInv` — the invariant of such runs: one of the two failed, or nobody has passed and the store is
  untouched, or one has passed and the store is its write so far.
* `cas_exclusion` — under an exclusive schedule at most one of the two succeeds.
-/

import Rusd.Api.RoundTrip

namespace Rusd

open MvccStore

/-- A transaction that compares one key and, if the comparison holds, writes it. The calls of its
failure list are arbitrary effects on the store. -/
structure CasRequest where
  key : Bytes
  target : TargetUnion
  value : Bytes
  lease : Int
  failure : List (MvccStore → MvccStore)

/-- The comparison: the target is equal. -/
def CasRequest.compare (request : CasRequest) : Compare := ⟨0, request.key, some request.target⟩

/-- Where a transaction stands: the call it makes next, with what it knows. -/
inductive Phase
  | load
  | check (currentRevision : Int)
  | scan (queryRevision : Int) (isCurrent : Bool)
  | fetch (queryRevision : Int) (isCurrent : Bool) (keys : List (Bytes × Revision))
  | readIndex
  | allocate
  | readPrevious (newRevision : Int)
  | storeKv (kv : KeyValue)
  | storeRev (kv : KeyValue)
  | storeIndex (kv : KeyValue)
  | answered
  | failure (calls : List (MvccStore → MvccStore))
  | crashed

namespace Phase

/-- The branch taken after the comparison. -/
def branch (request : CasRequest) (kv : Option KeyValue) : Phase :=
  if request.compare.holds kv then .readIndex else .failure request.failure

/-- The next call of a transaction. -/
def step (request : CasRequest) (s : MvccStore) : Phase → Phase × MvccStore
  | .load => (.check s.currentRevision, s)
  -- the second load, for the query revision or for `is_current`
  | .check currentRevision =>
    (.scan (if currentRevision ≤ 0 then s.currentRevision else currentRevision)
      (currentRevision ≤ 0 || currentRevision ≥ s.currentRevision), s)
  | .scan queryRevision isCurrent =>
    match s.keyIndex.range request.key (singleKeyEnd request.key) queryRevision with
    | none => (.crashed, s)
    | some [] => (branch request none, s)
    | some (e :: rest) => (.fetch queryRevision isCurrent (e :: rest), s)
  | .fetch _ _ [] => (branch request none, s)
  | .fetch queryRevision isCurrent ((key, rev) :: rest) =>
    match s.fetch isCurrent queryRevision key rev with
    | .ok (some kv) => (branch request (some kv), s)
    | .ok none =>
      (if rest.isEmpty then branch request none else .fetch queryRevision isCurrent rest, s)
    | .err _ => (.crashed, s)
    | .panic => (.crashed, s)
  -- `put` looks its key up in the index, and drops the answer
  | .readIndex => (.allocate, s)
  | .allocate =>
    match nextRevision.run s with
    | (.ok newRevision, s') => (.readPrevious newRevision, s')
    | (.err _, s') => (.crashed, s')
    | (.panic, s') => (.crashed, s')
  | .readPrevious newRevision =>
    match readRecord request.key (s.backend.get .kv request.key) with
    | .ok prevKv =>
      match ((nextVersion prevKv).run s).1 with
      | .ok version =>
        (.storeKv (newRecord request.key request.value request.lease newRevision version prevKv), s)
      | .err _ => (.crashed, s)
      | .panic => (.crashed, s)
    | .err _ => (.crashed, s)
    | .panic => (.crashed, s)
  | .storeKv kv => (.storeRev kv, { s with backend := s.backend.put .kv kv.key kv.encode })
  | .storeRev kv =>
    (.storeIndex kv,
      { s with backend := s.backend.put .kvRev (revKey kv.modRevision kv.key) kv.encodeWithKey })
  | .storeIndex kv => (.answered, { s with keyIndex := s.keyIndex.put kv.key ⟨kv.modRevision, 0⟩ })
  | .answered => (.answered, s)
  | .failure [] => (.failure [], s)
  | .failure (call :: rest) => (.failure rest, call s)
  | .crashed => (.crashed, s)

/-- The comparison held: the response will say `succeeded = true`. -/
def succeeded : Phase → Bool
  | .readIndex => true
  | .allocate => true
  | .readPrevious _ => true
  | .storeKv _ => true
  | .storeRev _ => true
  | .storeIndex _ => true
  | .answered => true
  | _ => false

/-- The comparison failed, or the handler panicked. -/
def failed : Phase → Bool
  | .failure _ => true
  | .crashed => true
  | _ => false

/-- The new record is in the `kv` tree. -/
def storedKv : Phase → Bool
  | .storeRev _ => true
  | .storeIndex _ => true
  | .answered => true
  | _ => false

end Phase

/-- Two transactions over one store. -/
structure Race where
  store : MvccStore
  phase : Bool → Phase

namespace Race

/-- One call of the transaction `t`. -/
def step (requests : Bool → CasRequest) (race : Race) (t : Bool) : Race :=
  let moved := (race.phase t).step (requests t) race.store
  ⟨moved.2, Function.update race.phase t moved.1⟩

def run (requests : Bool → CasRequest) (race : Race) (schedule : List Bool) : Race :=
  schedule.foldl (step requests) race

/-- Both at their start. -/
def start (s : MvccStore) : Race := ⟨s, fun _ => .load⟩

end Race

/-- The next call of a reader does not fall into the write of the `other` transaction: it checks its
revision against a counter that has not moved since it loaded it, and then

* if the key was live, it reads the record after the other one has stored its own;
* if it was absent, it scans the index after the other one is done, at a revision that shows it. -/
def KeepsApart (live : Bool) (s : MvccStore) (other : Phase) : Phase → Prop
  | .check currentRevision => currentRevision = s.currentRevision
  | .scan queryRevision _ =>
    live = false → other = .answered ∧ queryRevision = s.currentRevision
  | .fetch queryRevision _ _ =>
    if live then other.storedKv = true
    else other = .answered ∧ queryRevision = s.currentRevision
  | _ => True

/-- If the other transaction has passed its comparison, the next call of `t` keeps apart from it. -/
def Exclusive (live : Bool) (race : Race) (t : Bool) : Prop :=
  (race.phase !t).succeeded = true → KeepsApart live race.store (race.phase !t) (race.phase t)

/-- Every step of the schedule is exclusive. -/
def ExclusiveRun (live : Bool) (requests : Bool → CasRequest) : Race → List Bool → Prop
  | _, [] => True
  | race, t :: rest => Exclusive live race t ∧ ExclusiveRun live requests (race.step requests t) rest

/-! ### Reads of one key -/

variable {s₀ s : MvccStore} {request : CasRequest}

theorem range_single (s : MvccStore) (key : Bytes) (q : Int) :
    s.keyIndex.range key (singleKeyEnd key) q =
      some ((s.keyIndex.get key q).toList.map fun rev => (key, rev)) := by
  rw [KeyIndex.range_eq (.of_valid (validRange_singleKeyEnd key))]
  exact congrArg some (s.keyIndex.keysIn_single key q)

/-- The current record of a key: what the index shows, read from the `kv` tree. -/
theorem storedRecord_eq (sound : Sound s) (key : Bytes) :
    storedRecord s key = (s.keyIndex.get key s.currentRevision).bind fun rev =>
      match s.fetch true s.currentRevision key rev with
      | .ok kv => kv
      | .err _ => none
      | .panic => none := by
  have positive := sound.positive
  have current : (decide (s.currentRevision ≤ 0) || decide (s.currentRevision ≥ s.currentRevision)) =
      true := by simp
  unfold storedRecord lookupKey MvccStore.range
  simp only [if_neg (show ¬ s.currentRevision ≤ 0 by omega), current, range_single]
  cases s.keyIndex.get key s.currentRevision with
  | none => rfl
  | some rev =>
    simp only [Option.toList_some, List.map_cons, List.map_nil, rangeLoop, Option.bind_some,
      List.length_nil, if_neg (show ¬ ((1 : Int) > 0 ∧ (1 : Int).toNat ≤ 0) by decide),
      if_neg Bool.false_ne_true]
    cases s.fetch true s.currentRevision key rev with
    | ok kv => cases kv <;> rfl
    | err e => rfl
    | panic => rfl

/-- A current read of a record that a sound store holds. -/
theorem fetch_current_some {key : Bytes} {q : Int} {rev : Revision} {kv : KeyValue}
    (found : s.fetch true q key rev = .ok (some kv)) :
    ∃ data, s.backend.get .kv key = some data ∧ KeyValue.decode key data = .ok kv := by
  unfold MvccStore.fetch at found
  rw [if_pos rfl] at found
  cases tree : s.backend.get .kv key with
  | none => rw [tree] at found; cases found
  | some data =>
    rw [tree] at found
    cases decoded : KeyValue.decode key data with
    | ok read =>
      simp only [decoded, Outcome.ok.injEq] at found
      split_ifs at found
      cases found
      exact ⟨data, rfl, decoded⟩
    | err e => simp [decoded] at found
    | panic => simp [decoded] at found

/-- The comparisons of the two kinds of transaction. -/
def CasTarget (target : TargetUnion) : Prop := (∃ m, target = .modRevision m) ∨ target = .version 0

/-- What a target that holds at the start is: the revision of a live key, or 0 for an absent one. -/
theorem target_of_holds (sound : Sound s) (kind : CasTarget request.target)
    (holds : request.compare.holds (storedRecord s request.key) = true) :
    if (storedRecord s request.key).isSome then
      (s.keyIndex.get request.key s.currentRevision).isSome ∧
        ∃ m, request.target = .modRevision m ∧ 1 ≤ m ∧ m ≤ s.currentRevision
    else request.target = .modRevision 0 ∨ request.target = .version 0 := by
  have record := storedRecord_eq sound request.key
  cases stored : storedRecord s request.key with
  | none =>
    rw [stored] at holds
    rw [if_neg (by simp)]
    rcases kind with ⟨m, is⟩ | is
    · have zero : (0 : Int) = m := by
        simpa [Compare.holds, CasRequest.compare, is, compareI64, compareOrd, CompareResult.ofInt]
          using holds
      exact Or.inl (by rw [is, zero])
    · exact Or.inr is
  | some kv =>
    rw [stored] at holds record
    rw [if_pos (by simp)]
    obtain ⟨rev, shown, read⟩ := Option.bind_eq_some_iff.mp record.symm
    have fetched : s.fetch true s.currentRevision request.key rev = .ok (some kv) := by
      cases done : s.fetch true s.currentRevision request.key rev with
      | ok found => rw [done] at read; rw [← read]
      | err e => rw [done] at read; cases read
      | panic => rw [done] at read; cases read
    obtain ⟨data, tree, decoded⟩ := fetch_current_some fetched
    obtain ⟨_, modified, version⟩ := sound.records _ data kv tree decoded
    refine ⟨by rw [shown]; rfl, ?_⟩
    rcases kind with ⟨m, is⟩ | is
    · have same : kv.modRevision = m := by
        simpa [Compare.holds, CasRequest.compare, is, compareI64, compareOrd, CompareResult.ofInt]
          using holds
      exact ⟨m, is, by omega, by omega⟩
    · have zero : kv.version = 0 := by
        simpa [Compare.holds, CasRequest.compare, is, compareI64, compareOrd, CompareResult.ofInt]
          using holds
      omega

/-! ### The invariant -/

/-- A transaction that has not passed its comparison, over a store whose counter has come from
`s₀`'s to `s`'s: it reads the `kv` tree, at a revision between the two. -/
def Reading (s₀ s : MvccStore) (request : CasRequest) : Phase → Prop
  | .load => True
  | .check currentRevision =>
    s₀.currentRevision ≤ currentRevision ∧ currentRevision ≤ s.currentRevision
  | .scan queryRevision isCurrent => isCurrent = true ∧
      s₀.currentRevision ≤ queryRevision ∧ queryRevision ≤ s.currentRevision
  | .fetch queryRevision isCurrent keys => isCurrent = true ∧
      (s₀.currentRevision ≤ queryRevision ∧ queryRevision ≤ s.currentRevision) ∧
      ∃ rev, keys = [(request.key, rev)]
  | _ => False

/-- A transaction that has passed its comparison over `s₀`, and the store with its write so far. -/
def Writing (s₀ s : MvccStore) (request : CasRequest) : Phase → Prop
  | .readIndex => s = s₀
  | .allocate => s = s₀
  | .readPrevious newRevision => s₀.currentRevision + 1 < 2 ^ 63 ∧
      newRevision = s₀.currentRevision + 1 ∧
      s = { s₀ with currentRevision := s₀.currentRevision + 1 }
  | .storeKv kv => s₀.currentRevision + 1 < 2 ^ 63 ∧ s₀.Writes kv ∧ kv.key = request.key ∧
      s = { s₀ with currentRevision := s₀.currentRevision + 1 }
  | .storeRev kv => s₀.currentRevision + 1 < 2 ^ 63 ∧ s₀.Writes kv ∧ kv.key = request.key ∧
      s = { s₀ with currentRevision := s₀.currentRevision + 1,
                    backend := s₀.backend.put .kv kv.key kv.encode }
  | .storeIndex kv => s₀.currentRevision + 1 < 2 ^ 63 ∧ s₀.Writes kv ∧ kv.key = request.key ∧
      s = { s₀.afterPut kv with keyIndex := s₀.keyIndex }
  | .answered => s₀.currentRevision + 1 < 2 ^ 63 ∧
      ∃ kv, s₀.Writes kv ∧ kv.key = request.key ∧ s = s₀.afterPut kv
  | _ => False

theorem Reading.not_succeeded {phase : Phase} (reading : Reading s₀ s request phase) :
    phase.succeeded = false := by
  cases phase <;> first | rfl | exact reading.elim

theorem Writing.succeeded {phase : Phase} (writing : Writing s₀ s request phase) :
    phase.succeeded = true := by
  cases phase <;> first | rfl | exact writing.elim

theorem Phase.not_succeeded_of_failed {phase : Phase} (failed : phase.failed = true) :
    phase.succeeded = false := by
  cases phase <;> first | rfl | cases failed

theorem Phase.step_failed {phase : Phase} (failed : phase.failed = true) :
    (phase.step request s).1.failed = true := by
  cases phase with
  | failure calls => cases calls <;> rfl
  | crashed => rfl
  | _ => cases failed

theorem Phase.branch_cases (request : CasRequest) (kv : Option KeyValue) :
    branch request kv = .readIndex ∨ (branch request kv).failed = true := by
  unfold branch
  split_ifs
  · exact Or.inl rfl
  · exact Or.inr rfl

/-- A later counter does not disturb a reader. -/
theorem Reading.mono {s' : MvccStore} {phase : Phase} (reading : Reading s₀ s request phase)
    (later : s.currentRevision ≤ s'.currentRevision) : Reading s₀ s' request phase := by
  cases phase with
  | load => trivial
  | check currentRevision => exact ⟨reading.1, reading.2.trans later⟩
  | scan queryRevision isCurrent => exact ⟨reading.1, reading.2.1, reading.2.2.trans later⟩
  | fetch queryRevision isCurrent keys =>
    exact ⟨reading.1, ⟨reading.2.1.1, reading.2.1.2.trans later⟩, reading.2.2⟩
  | _ => exact reading.elim

/-- **A step of a writer**: the write goes on, or the handler panics. -/
theorem Writing.step {phase : Phase} (sound : Sound s₀) (writing : Writing s₀ s request phase) :
    (phase.step request s).1.failed = true ∨
      (Writing s₀ (phase.step request s).2 request (phase.step request s).1 ∧
        s.currentRevision ≤ (phase.step request s).2.currentRevision) := by
  cases phase with
  | readIndex => exact Or.inr ⟨writing, le_rfl⟩
  | allocate =>
    subst writing
    by_cases room : s.currentRevision + 1 < 2 ^ 63
    · simp only [Phase.step, nextRevision_apply room]
      exact Or.inr ⟨⟨room, rfl, rfl⟩, by simp⟩
    · simp only [Phase.step, nextRevision_panic room]
      exact Or.inl rfl
  | readPrevious newRevision =>
    obtain ⟨room, rfl, rfl⟩ := writing
    simp only [Phase.step]
    cases record : readRecord request.key (s₀.backend.get .kv request.key) with
    | ok prevKv =>
      obtain ⟨o, versioned⟩ :=
        nextVersion_run prevKv { s₀ with currentRevision := s₀.currentRevision + 1 }
      simp only [versioned]
      rcases o with version | e | _
      · exact Or.inr ⟨⟨room, writes_of_run _ _ record versioned, rfl, rfl⟩, le_rfl⟩
      · exact Or.inl rfl
      · exact Or.inl rfl
    | err e => exact Or.inl rfl
    | panic => exact Or.inl rfl
  | storeKv kv =>
    obtain ⟨room, writes, key, rfl⟩ := writing
    exact Or.inr ⟨⟨room, writes, key, rfl⟩, le_rfl⟩
  | storeRev kv =>
    obtain ⟨room, writes, key, rfl⟩ := writing
    refine Or.inr ⟨⟨room, writes, key, ?_⟩, le_rfl⟩
    simp only [Phase.step, MvccStore.afterPut, writes.modRevision]
  | storeIndex kv =>
    obtain ⟨room, writes, key, rfl⟩ := writing
    refine Or.inr ⟨⟨room, kv, writes, key, ?_⟩, le_rfl⟩
    simp only [Phase.step, MvccStore.afterPut, writes.modRevision]
  | answered => exact Or.inr ⟨writing, le_rfl⟩
  | _ => exact writing.elim

/-- **A step of a reader over the untouched store**: it goes on reading, passes, or fails. -/
theorem Reading.step_free {phase : Phase} (sound : Sound s) (reading : Reading s s request phase) :
    (phase.step request s).2 = s ∧
      (Reading s s request (phase.step request s).1 ∨ (phase.step request s).1 = .readIndex ∨
        (phase.step request s).1.failed = true) := by
  have positive := sound.positive
  cases phase with
  | load => exact ⟨rfl, Or.inl ⟨le_rfl, le_rfl⟩⟩
  | check currentRevision =>
    obtain ⟨low, high⟩ := reading
    have same : currentRevision = s.currentRevision := by omega
    subst same
    refine ⟨rfl, Or.inl ⟨by simp, ?_, ?_⟩⟩ <;> rw [if_neg (by omega)]
  | scan queryRevision isCurrent =>
    simp only [Phase.step, range_single]
    cases s.keyIndex.get request.key queryRevision with
    | none => exact ⟨rfl, Or.inr (Phase.branch_cases request none)⟩
    | some rev => exact ⟨rfl, Or.inl ⟨reading.1, reading.2, rev, rfl⟩⟩
  | fetch queryRevision isCurrent keys =>
    obtain ⟨_, _, rev, rfl⟩ := reading
    simp only [Phase.step]
    cases s.fetch isCurrent queryRevision request.key rev with
    | ok kv =>
      cases kv with
      | none => exact ⟨rfl, Or.inr (Phase.branch_cases request none)⟩
      | some kv => exact ⟨rfl, Or.inr (Phase.branch_cases request (some kv))⟩
    | err e => exact ⟨rfl, Or.inr (Or.inr rfl)⟩
    | panic => exact ⟨rfl, Or.inr (Or.inr rfl)⟩
  | _ => exact reading.elim

/-! ### A reader beside a writer -/

/-- A target that holds over `s₀` does not hold of a record written after it; at a live key it does
not hold of an absent one either. -/
structure TargetMoved (s₀ : MvccStore) (live : Bool) (request : CasRequest) : Prop where
  written : ∀ read, s₀.currentRevision < read.modRevision → 1 ≤ read.version →
    request.compare.holds (some read) = false
  absent : live = true → request.compare.holds none = false
  shown : live = true → (s₀.keyIndex.get request.key s₀.currentRevision).isSome

theorem targetMoved (sound : Sound s₀) (kind : CasTarget request.target)
    (holds : request.compare.holds (storedRecord s₀ request.key) = true) :
    TargetMoved s₀ (storedRecord s₀ request.key).isSome request := by
  have positive := sound.positive
  have target := target_of_holds sound kind holds
  cases live : (storedRecord s₀ request.key).isSome with
  | true =>
    rw [live, if_pos rfl] at target
    obtain ⟨shown, m, is, low, high⟩ := target
    refine ⟨fun read later _ => ?_, fun _ => ?_, fun _ => shown⟩
    · simp only [Compare.holds, CasRequest.compare, is, compareI64, compareOrd, CompareResult.ofInt,
        Option.map_some, Option.getD_some, decide_eq_false_iff_not]
      omega
    · simp only [Compare.holds, CasRequest.compare, is, compareI64, compareOrd, CompareResult.ofInt,
        Option.map_none, Option.getD_none, decide_eq_false_iff_not]
      omega
  | false =>
    rw [live, if_neg Bool.false_ne_true] at target
    refine ⟨fun read later version => ?_, fun absurd => ?_, fun absurd => ?_⟩
    · rcases target with is | is
      · simp only [Compare.holds, CasRequest.compare, is, compareI64, compareOrd,
          CompareResult.ofInt, Option.map_some, Option.getD_some, decide_eq_false_iff_not]
        omega
      · simp only [Compare.holds, CasRequest.compare, is, compareI64, compareOrd,
          CompareResult.ofInt, Option.map_some, Option.getD_some, decide_eq_false_iff_not]
        omega
    · cases absurd
    · cases absurd

theorem Phase.branch_failed {kv : Option KeyValue} (fails : request.compare.holds kv = false) :
    (branch request kv).failed = true := by
  rw [branch, fails, if_neg Bool.false_ne_true]
  rfl

/-- What a current read gives once the new record is stored: that record, if the revision shows it. -/
theorem fetch_written (sound : Sound s₀) (room : s₀.currentRevision + 1 < 2 ^ 63) {kv : KeyValue}
    (writes : s₀.Writes kv) (stored : s.backend.get .kv kv.key = some kv.encode) (q : Int)
    (rev : Revision) :
    ∃ read, s.fetch true q kv.key rev =
        .ok (if read.createRevision ≤ q ∧ read.modRevision ≤ q then some read else none) ∧
      read.modRevision = s₀.currentRevision + 1 ∧ 1 ≤ read.version ∧
      read.createRevision ≤ s₀.currentRevision + 1 := by
  obtain ⟨read, decoded, created, modified, version⟩ := sound.read_written room writes kv.key
  obtain ⟨createdRange, _, versionRange⟩ := sound.recordRange writes
  refine ⟨read, ?_, by rw [modified, writes.modRevision], by omega, by omega⟩
  unfold MvccStore.fetch
  rw [if_pos rfl, stored]
  simp only [decoded]

theorem Writing.stored {phase : Phase} (writing : Writing s₀ s request phase)
    (stored : phase.storedKv = true) :
    s₀.currentRevision + 1 < 2 ^ 63 ∧ s.currentRevision = s₀.currentRevision + 1 ∧
      ∃ kv, s₀.Writes kv ∧ kv.key = request.key ∧
        s.backend.get .kv request.key = some kv.encode := by
  cases phase with
  | storeRev kv =>
    obtain ⟨room, writes, key, rfl⟩ := writing
    exact ⟨room, rfl, kv, writes, key, by rw [Backend.get_put, if_pos ⟨rfl, key.symm⟩]⟩
  | storeIndex kv =>
    obtain ⟨room, writes, key, rfl⟩ := writing
    refine ⟨room, rfl, kv, writes, key, ?_⟩
    rw [MvccStore.afterPut, Backend.get_put, if_neg (by simp), Backend.get_put,
      if_pos ⟨rfl, key.symm⟩]
  | answered =>
    obtain ⟨room, kv, writes, key, rfl⟩ := writing
    refine ⟨room, rfl, kv, writes, key, ?_⟩
    rw [MvccStore.afterPut, Backend.get_put, if_neg (by simp), Backend.get_put,
      if_pos ⟨rfl, key.symm⟩]
  | _ => cases stored

/-- The index while a write is under way: that of `s₀`, or that with the new revision. -/
theorem Writing.get_isSome {phase : Phase} (sound : Sound s₀) (writing : Writing s₀ s request phase)
    {q : Int} (reach : s₀.currentRevision ≤ q)
    (shown : (s₀.keyIndex.get request.key s₀.currentRevision).isSome) :
    (s.keyIndex.get request.key q).isSome := by
  have before : (s₀.keyIndex.get request.key q).isSome := by
    rw [KeyIndex.get_above sound.indexOk reach]
    exact shown
  cases phase with
  | readIndex => rw [writing]; exact before
  | allocate => rw [writing]; exact before
  | readPrevious newRevision => rw [writing.2.2]; exact before
  | storeKv kv => rw [writing.2.2.2]; exact before
  | storeRev kv => rw [writing.2.2.2]; exact before
  | storeIndex kv => rw [writing.2.2.2]; exact before
  | answered =>
    obtain ⟨_, kv, _, _, rfl⟩ := writing
    rw [MvccStore.afterPut, KeyIndex.get_put sound.indexOk _ (by simp)]
    split_ifs
    · rfl
    · exact before
  | _ => exact writing.elim

/-- **A guarded step of a reader beside a writer**: it goes on reading, or its comparison fails. -/
theorem Reading.step_guarded {live : Bool} {phase other : Phase} {request' : CasRequest}
    (sound : Sound s₀) (moved : TargetMoved s₀ live request) (same : request'.key = request.key)
    (writing : Writing s₀ s request' other) (reading : Reading s₀ s request phase)
    (exclusive : KeepsApart live s other phase) :
    (phase.step request s).2 = s ∧
      (Reading s₀ s request (phase.step request s).1 ∨ (phase.step request s).1.failed = true) := by
  have positive := sound.positive
  cases phase with
  | load =>
    refine ⟨rfl, Or.inl ⟨?_, le_rfl⟩⟩
    show s₀.currentRevision ≤ s.currentRevision
    cases other with
    | readIndex => rw [writing]
    | allocate => rw [writing]
    | readPrevious newRevision => rw [writing.2.2]; simp
    | storeKv kv => rw [writing.2.2.2]; simp
    | storeRev kv => rw [writing.2.2.2]; simp
    | storeIndex kv => rw [writing.2.2.2]; simp [MvccStore.afterPut]
    | answered =>
      obtain ⟨_, kv, _, _, rfl⟩ := writing
      simp [MvccStore.afterPut]
    | _ => exact writing.elim
  | check currentRevision =>
    obtain ⟨low, high⟩ := reading
    have unmoved : currentRevision = s.currentRevision := exclusive
    refine ⟨rfl, Or.inl ⟨?_, ?_, ?_⟩⟩
    · simp [unmoved]
    · rw [if_neg (by omega)]
      exact low
    · rw [if_neg (by omega)]
      exact high
  | scan queryRevision isCurrent =>
    have shown : (s.keyIndex.get request.key queryRevision).isSome := by
      cases kind : live with
      | true =>
        rw [← same]
        refine writing.get_isSome sound reading.2.1 ?_
        rw [same]
        exact moved.shown kind
      | false =>
        obtain ⟨rfl, visible⟩ := exclusive kind
        obtain ⟨_, kv, _, key, rfl⟩ := writing
        rw [MvccStore.afterPut, KeyIndex.get_put sound.indexOk _ (by simp), if_pos]
        · rfl
        · exact ⟨by rw [key, same], by rw [visible]; exact le_rfl⟩
    obtain ⟨rev, found⟩ := Option.isSome_iff_exists.mp shown
    simp only [Phase.step, range_single, found]
    exact ⟨rfl, Or.inl ⟨reading.1, reading.2, rev, rfl⟩⟩
  | fetch queryRevision isCurrent keys =>
    obtain ⟨rfl, _, rev, rfl⟩ := reading
    have apart : if live then other.storedKv = true
        else other = .answered ∧ queryRevision = s.currentRevision := exclusive
    have stored : other.storedKv = true := by
      cases kind : live with
      | true => rw [kind, if_pos rfl] at apart; exact apart
      | false =>
        rw [kind, if_neg Bool.false_ne_true] at apart
        rw [apart.1]
        rfl
    obtain ⟨room, counter, kv, writes, key, tree⟩ := writing.stored stored
    rw [same] at key tree
    rw [← key] at tree
    obtain ⟨read, fetched, modified, version, created⟩ :=
      fetch_written sound room writes tree queryRevision rev
    rw [key] at fetched
    simp only [Phase.step, fetched]
    by_cases visible : read.createRevision ≤ queryRevision ∧ read.modRevision ≤ queryRevision
    · rw [if_pos visible]
      exact ⟨rfl, Or.inr (Phase.branch_failed (moved.written read (by omega) version))⟩
    · rw [if_neg visible]
      cases kind : live with
      | true => exact ⟨rfl, Or.inr (Phase.branch_failed (moved.absent kind))⟩
      | false =>
        rw [kind, if_neg Bool.false_ne_true] at apart
        exact absurd ⟨by omega, by omega⟩ visible
  | _ => exact reading.elim

/-! ### The race -/

/-- One of the two failed, or nobody has passed and the store is untouched, or one has passed and the
store is its write so far. -/
def RaceInv (s₀ : MvccStore) (requests : Bool → CasRequest) (race : Race) : Prop :=
  (∃ t, (race.phase t).failed = true) ∨
    (race.store = s₀ ∧ ∀ t, Reading s₀ s₀ (requests t) (race.phase t)) ∨
    ∃ t, Writing s₀ race.store (requests t) (race.phase t) ∧
      Reading s₀ race.store (requests !t) (race.phase !t)

theorem RaceInv.not_both {requests : Bool → CasRequest} {race : Race}
    (inv : RaceInv s₀ requests race) :
    ¬ ((race.phase false).succeeded = true ∧ (race.phase true).succeeded = true) := by
  rintro ⟨first, second⟩
  have both : ∀ t, (race.phase t).succeeded = true := by
    intro t
    cases t
    · exact first
    · exact second
  rcases inv with ⟨t, failed⟩ | ⟨_, reading⟩ | ⟨t, _, reading⟩
  · have := Phase.not_succeeded_of_failed failed
    rw [both t] at this
    cases this
  · have := (reading false).not_succeeded
    rw [both false] at this
    cases this
  · have := reading.not_succeeded
    rw [both (!t)] at this
    cases this

theorem Race.phase_step (requests : Bool → CasRequest) (race : Race) (t : Bool) :
    (race.step requests t).phase t = ((race.phase t).step (requests t) race.store).1 := by
  simp [Race.step]

theorem Race.phase_step_not (requests : Bool → CasRequest) (race : Race) (t : Bool) :
    (race.step requests t).phase (!t) = race.phase (!t) := by
  simp [Race.step, Function.update]

theorem Race.store_step (requests : Bool → CasRequest) (race : Race) (t : Bool) :
    (race.step requests t).store = ((race.phase t).step (requests t) race.store).2 := rfl

/-- **An exclusive step keeps the invariant.** -/
theorem RaceInv.step {live : Bool} {requests : Bool → CasRequest} {race : Race} {key : Bytes}
    (sound : Sound s₀) (keys : ∀ t, (requests t).key = key)
    (moved : ∀ t, TargetMoved s₀ live (requests t)) (inv : RaceInv s₀ requests race) {t : Bool}
    (exclusive : Exclusive live race t) : RaceInv s₀ requests (race.step requests t) := by
  rcases inv with ⟨u, failed⟩ | ⟨store, reading⟩ | ⟨w, writing, reading⟩
  · refine Or.inl ⟨u, ?_⟩
    by_cases same : u = t
    · subst same
      rw [Race.phase_step]
      exact Phase.step_failed failed
    · have : u = !t := by cases u <;> cases t <;> simp_all
      rw [this, Race.phase_step_not, ← this]
      exact failed
  · obtain ⟨kept, next⟩ := (reading t).step_free sound
    rw [← store] at kept next
    rcases next with next | next | next
    · refine Or.inr (Or.inl ⟨by rw [Race.store_step, kept, store], fun u => ?_⟩)
      by_cases same : u = t
      · subst same
        rw [Race.phase_step, ← store]
        exact next
      · have : u = !t := by cases u <;> cases t <;> simp_all
        rw [this, Race.phase_step_not]
        exact reading (!t)
    · refine Or.inr (Or.inr ⟨t, ?_, ?_⟩)
      · rw [Race.phase_step, next, Race.store_step, kept]
        exact store
      · rw [Race.phase_step_not, Race.store_step, kept, store]
        exact reading (!t)
    · exact Or.inl ⟨t, by rw [Race.phase_step]; exact next⟩
  · by_cases same : t = w
    · subst same
      rcases writing.step sound with failed | ⟨next, later⟩
      · exact Or.inl ⟨t, by rw [Race.phase_step]; exact failed⟩
      · refine Or.inr (Or.inr ⟨t, ?_, ?_⟩)
        · rw [Race.phase_step, Race.store_step]
          exact next
        · rw [Race.phase_step_not, Race.store_step]
          exact reading.mono later
    · have other : t = !w := by cases t <;> cases w <;> simp_all
      subst other
      have guard := exclusive (by rw [Bool.not_not]; exact writing.succeeded)
      rw [Bool.not_not] at guard
      obtain ⟨kept, next⟩ := reading.step_guarded sound (moved (!w))
        (by rw [keys, keys]) writing guard
      rcases next with next | failed
      · refine Or.inr (Or.inr ⟨w, ?_, ?_⟩)
        · have phase := Race.phase_step_not requests race (!w)
          rw [Bool.not_not] at phase
          rw [phase, Race.store_step, kept]
          exact writing
        · rw [Race.phase_step, Race.store_step, kept]
          exact next
      · exact Or.inl ⟨!w, by rw [Race.phase_step]; exact failed⟩

theorem RaceInv.run {live : Bool} {requests : Bool → CasRequest} {race : Race} {key : Bytes}
    (sound : Sound s₀) (keys : ∀ t, (requests t).key = key)
    (moved : ∀ t, TargetMoved s₀ live (requests t)) (inv : RaceInv s₀ requests race)
    {schedule : List Bool} (exclusive : ExclusiveRun live requests race schedule) :
    RaceInv s₀ requests (race.run requests schedule) := by
  induction schedule generalizing race with
  | nil => exact inv
  | cons t rest ih => exact ih (inv.step sound keys moved exclusive.1) exclusive.2

/-- **Compare-and-swap exclusion under exclusive schedules.** For every reached store, every pair of
transactions that compare the same key with the same target (a mod revision, or version 0) and put
it, with any values, leases and failure lists, from a store where the comparison holds: along every
schedule whose steps are exclusive, at most one of them succeeds. -/
theorem cas_exclusion (s : MvccStore) (reached : Reached s) (key : Bytes) (target : TargetUnion)
    (kind : CasTarget target) (requests : Bool → CasRequest)
    (same : ∀ t, (requests t).key = key ∧ (requests t).target = target)
    (holds : Compare.holds ⟨0, key, some target⟩ (storedRecord s key) = true)
    (schedule : List Bool)
    (exclusive : ExclusiveRun (storedRecord s key).isSome requests (Race.start s) schedule) :
    ¬ ((((Race.start s).run requests schedule).phase false).succeeded = true ∧
      (((Race.start s).run requests schedule).phase true).succeeded = true) := by
  have sound := Sound.of_reached reached
  have moved : ∀ t, TargetMoved s (storedRecord s key).isSome (requests t) := by
    intro t
    have kindOf : CasTarget (requests t).target := by
      rw [(same t).2]
      exact kind
    have holdsOf : (requests t).compare.holds (storedRecord s (requests t).key) = true := by
      rw [CasRequest.compare, (same t).1, (same t).2]
      exact holds
    rw [← (same t).1]
    exact targetMoved sound kindOf holdsOf
  have start : RaceInv s requests (Race.start s) := Or.inr (Or.inl ⟨rfl, fun _ => trivial⟩)
  exact (start.run sound (fun t => (same t).1) moved exclusive).not_both

/-- A store with one key, written at revision 2. -/
def oneKey : MvccStore := ((MvccStore.put [97] [48] 0).run (MvccStore.new .empty)).2

theorem oneKey_reached : Reached oneKey := .put .fresh (by decide) _ _ _

/-- Two transactions that expect the key at revision 2. -/
def rivals : Bool → CasRequest := fun t => ⟨[97], .modRevision 2, [if t then 50 else 49], 0, []⟩

/-- **Both compare, then both write**: four calls of each, then the six of each `put`. Both responses
say that the comparison held. -/
theorem rivals_both_succeed :
    Compare.holds ⟨0, [97], some (.modRevision 2)⟩ (storedRecord oneKey [97]) = true ∧
      ((Race.start oneKey).run rivals [false, false, false, false, true, true, true, true,
        false, false, false, false, false, false, true, true, true, true, true, true]).phase
          false = .answered ∧
      ((Race.start oneKey).run rivals [false, false, false, false, true, true, true, true,
        false, false, false, false, false, false, true, true, true, true, true, true]).phase
          true = .answered := ⟨rfl, rfl, rfl⟩

/-- One after the other, the second one fails. -/
theorem rivals_in_turn :
    ¬ ((((Race.start oneKey).run rivals [false, false, false, false, false, false, false, false,
        false, false, true, true, true, true]).phase false).succeeded = true ∧
      (((Race.start oneKey).run rivals [false, false, false, false, false, false, false, false,
        false, false, true, true, true, true]).phase true).succeeded = true) := by
  refine cas_exclusion oneKey oneKey_reached [97] (.modRevision 2) (Or.inl ⟨2, rfl⟩) rivals
    (fun _ => ⟨rfl, rfl⟩) rfl _ ?_
  -- the first ten steps find the other one at its start, the last four find it done
  refine ⟨nofun, nofun, nofun, nofun, nofun, nofun, nofun, nofun, nofun, nofun,
    fun _ => trivial, fun _ => rfl, fun _ => nofun, fun _ => rfl, trivial⟩

/-! ### One transaction alone -/

/-- A transaction that runs `n` calls with nothing in between. -/
def Phase.solo (request : CasRequest) (n : Nat) (c : Phase × MvccStore) : Phase × MvccStore :=
  (fun c => c.1.step request c.2)^[n] c

/-- The request of the KV service that the calls belong to. -/
def CasRequest.toTxn (request : CasRequest) : TxnRequest where
  compare := [request.compare]
  success := [some (.requestPut ⟨request.key, request.value, request.lease, false, false, false⟩)]
  failure := []

theorem Phase.solo_add (request : CasRequest) (m n : Nat) (c : Phase × MvccStore) :
    solo request (m + n) c = solo request m (solo request n c) :=
  Function.iterate_add_apply _ m n c

/-- Alone, the reads give the current record. -/
theorem Phase.solo_reads (sound : Sound s) (request : CasRequest) :
    ∃ n, solo request n (.load, s) = (branch request (storedRecord s request.key), s) := by
  have positive := sound.positive
  have scanned : solo request 2 (.load, s) = (.scan s.currentRevision true, s) := by
    show ((Phase.check s.currentRevision).step request s) = _
    simp only [Phase.step, if_neg (show ¬ s.currentRevision ≤ 0 by omega), ge_iff_le, le_refl,
      decide_true, Bool.or_true]
  rw [storedRecord_eq sound]
  cases shown : s.keyIndex.get request.key s.currentRevision with
  | none =>
    refine ⟨1 + 2, ?_⟩
    rw [solo_add, scanned]
    show (Phase.scan s.currentRevision true).step request s = _
    simp only [Phase.step, range_single, shown]
    rfl
  | some rev =>
    refine ⟨2 + 2, ?_⟩
    have fetching : solo request 1 (.scan s.currentRevision true, s) =
        (.fetch s.currentRevision true [(request.key, rev)], s) := by
      show (Phase.scan s.currentRevision true).step request s = _
      simp only [Phase.step, range_single, shown]
      rfl
    rw [solo_add, scanned, show 2 = 1 + 1 from rfl, solo_add, fetching]
    show (Phase.fetch s.currentRevision true [(request.key, rev)]).step request s = _
    obtain ⟨record, returned⟩ := sound.fetch_returns true s.currentRevision request.key rev
    simp only [Phase.step, returned, Option.bind_some]
    cases record <;> rfl

/-- Alone, the writes are a `put`. -/
theorem Phase.solo_put (sound : Sound s) (room : s.currentRevision + 1 < 2 ^ 63)
    (request : CasRequest) :
    solo request 6 (.readIndex, s) =
      (.answered, ((MvccStore.put request.key request.value request.lease).run s).2) := by
  obtain ⟨prevKv, record⟩ := sound.readRecord_returns request.key
  obtain ⟨version, versioned⟩ := sound.nextVersion_returns record
    { s with currentRevision := s.currentRevision + 1 }
  have recorded := latestRecord_run request.key { s with currentRevision := s.currentRevision + 1 }
  simp only [record] at recorded
  have allocated : solo request 2 (.readIndex, s) =
      (.readPrevious (s.currentRevision + 1),
        { s with currentRevision := s.currentRevision + 1 }) := by
    show Phase.allocate.step request s = _
    simp only [Phase.step, nextRevision_apply room]
  have previous : solo request 1 (.readPrevious (s.currentRevision + 1),
        { s with currentRevision := s.currentRevision + 1 }) =
      (.storeKv (newRecord request.key request.value request.lease (s.currentRevision + 1) version
        prevKv), { s with currentRevision := s.currentRevision + 1 }) := by
    show (Phase.readPrevious (s.currentRevision + 1)).step request
      { s with currentRevision := s.currentRevision + 1 } = _
    simp only [Phase.step, record, versioned]
  rw [show 6 = 3 + (1 + 2) from rfl, solo_add, solo_add, allocated, previous, MvccStore.put,
    Exec.run_bind_ok (nextRevision_apply room), Exec.run_bind_ok recorded,
    Exec.run_bind_ok versioned]
  rfl

/-- **Run alone, the calls are the handler**: the same answer to the comparison, and the same store
after it. -/
theorem solo_eq_serveTxn {leader : Leader} (reached : Reached leader.store)
    (room : leader.store.currentRevision + 1 < 2 ^ 63) (request : CasRequest) :
    ∃ n response leader', (serveTxn request.toTxn).run leader = (.ok response, leader') ∧
      Phase.solo request n (.load, leader.store) =
        (if response.succeeded then .answered else .failure request.failure, leader'.store) := by
  have sound := Sound.of_reached reached
  obtain ⟨reads, read⟩ := Phase.solo_reads sound request
  have header : headerRevision.run leader = (.ok leader.store.currentRevision, leader) := rfl
  have evaluated : (evaluateCompare request.compare leader.store.currentRevision).run leader =
      (.ok (request.compare.holds (storedRecord leader.store request.key)), leader) := by
    obtain ⟨kv, found⟩ := sound.lookupKey_returns request.key fun _ => leader.store.currentRevision
    have same : storedRecord leader.store request.key = kv := by
      have : lookupKey request.key (fun s => s.currentRevision) leader.store = .ok kv := found
      rw [storedRecord, this]
    have read : (onReadOk (lookupKey request.compare.key fun _ => leader.store.currentRevision)).run
        leader = (.ok (some kv), leader) := by
      simp only [onReadOk, CasRequest.compare, found]
    rw [evaluateCompare, Exec.run_bind_ok read, same]
    rfl
  rw [serveTxn, Exec.run_bind_ok header]
  cases holds : request.compare.holds (storedRecord leader.store request.key) with
  | true =>
    rw [holds] at evaluated
    have all : (evaluateAll leader.store.currentRevision request.toTxn.compare).run leader =
        (.ok true, leader) := by
      rw [CasRequest.toTxn, evaluateAll, Exec.run_bind_ok evaluated]
      rfl
    obtain ⟨result, s', put, _⟩ := sound.put_returns room request.key request.value request.lease
    have stored : (onStore (MvccStore.put request.key request.value request.lease)
        "put in txn failed: ").run leader = (.ok result, { leader with store := s' }) := by
      simp only [onStore, put]
    have executed : ∃ response, (executeOp leader.store.currentRevision
        (.requestPut ⟨request.key, request.value, request.lease, false, false, false⟩)).run leader =
        (.ok response, { leader with store := s' }) := by
      rw [executeOp, Exec.run_bind_ok stored]
      exact ⟨_, rfl⟩
    obtain ⟨response, executed⟩ := executed
    rw [Exec.run_bind_ok all, if_pos rfl, CasRequest.toTxn]
    refine ⟨6 + reads, ⟨s'.currentRevision, true, [response]⟩, { leader with store := s' }, ?_, ?_⟩
    · have responses : (executeOps leader.store.currentRevision
          [some (.requestPut ⟨request.key, request.value, request.lease, false, false, false⟩)]).run
          leader = (.ok [response], { leader with store := s' }) := by
        rw [executeOps, executeOps, Exec.run_bind_ok executed]
        rfl
      rw [Exec.run_bind_ok responses]
      rfl
    · rw [Phase.solo_add, read, Phase.branch, holds, if_pos rfl, Phase.solo_put sound room, put]
      rfl
  | false =>
    rw [holds] at evaluated
    have all : (evaluateAll leader.store.currentRevision request.toTxn.compare).run leader =
        (.ok false, leader) := by
      rw [CasRequest.toTxn, evaluateAll, Exec.run_bind_ok evaluated]
      rfl
    rw [Exec.run_bind_ok all]
    refine ⟨reads, ⟨leader.store.currentRevision, false, []⟩, leader, rfl, ?_⟩
    rw [read, Phase.branch, holds]
    rfl

end Rusd
