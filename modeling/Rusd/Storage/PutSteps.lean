/-
**A `put` one call at a time** (`storage/mvcc.rs`, `MvccStore::put`).

No lock spans a `put`: its look-up in the index, its `fetch_add` on the counter, its read and its two
writes of the backend and its write of the index are single calls, and the calls of other threads
fall between them.

* `PutStage.step` — the next call of a `put`, with the local computation after it.
* `put_alone` — a `put` that runs without interruption is `MvccStore.put`.
* `PutStage.Moves`, `step_moves` — everything a call can do.
* `Writers` — any number of `put`s over one store; `Numbered` — their revisions are new and differ.
-/

import Rusd.Lib.Machine
import Rusd.Lib.SharedCounter
import Rusd.Storage.Mvcc

namespace Rusd

open MvccStore

/-- The arguments of a `put`. -/
structure PutArgs where
  key : Bytes
  value : Bytes
  lease : Int
  deriving DecidableEq, Repr

/-- Where a `put` stands: the call it makes next, with what it knows. -/
inductive PutStage
  | readIndex
  | allocate
  | readPrevious (newRevision : Int)
  | storeKv (kv : KeyValue) (prevKv : Option KeyValue)
  | storeRev (kv : KeyValue) (prevKv : Option KeyValue)
  | storeIndex (kv : KeyValue) (prevKv : Option KeyValue)
  | returned (kv : KeyValue) (prevKv : Option KeyValue)
  | crashed
  deriving DecidableEq, Repr

namespace PutStage

/-- The record to write, once the previous one is read. -/
def prepare (args : PutArgs) (newRevision : Int) (prevKv : Option KeyValue) :
    Outcome StorageError Int → PutStage
  | .ok version =>
    .storeKv (newRecord args.key args.value args.lease newRevision version prevKv) prevKv
  | .err _ => .crashed
  | .panic => .crashed

/-- The next call of a `put`; `none` if it has ended, or if the counter has no room (the `put` then
panics and does not return). -/
def step (args : PutArgs) (s : MvccStore) : PutStage → Option (PutStage × MvccStore)
  -- the revision that the index shows for the key is dropped
  | .readIndex => some (.allocate, s)
  | .allocate =>
    if s.currentRevision + 1 < 2 ^ 63 then
      some (.readPrevious (s.currentRevision + 1), { s with currentRevision := s.currentRevision + 1 })
    else none
  | .readPrevious newRevision =>
    match readRecord args.key (s.backend.get .kv args.key) with
    | .ok prevKv => some (prepare args newRevision prevKv ((nextVersion prevKv).run s).1, s)
    | .err _ => some (.crashed, s)
    | .panic => some (.crashed, s)
  | .storeKv kv prevKv =>
    some (.storeRev kv prevKv, { s with backend := s.backend.put .kv args.key kv.encode })
  | .storeRev kv prevKv =>
    some (.storeIndex kv prevKv,
      { s with backend := s.backend.put .kvRev (revKey kv.modRevision args.key) kv.encodeWithKey })
  | .storeIndex kv prevKv =>
    some (.returned kv prevKv, { s with keyIndex := s.keyIndex.put args.key ⟨kv.modRevision, 0⟩ })
  | .returned _ _ => none
  | .crashed => none

/-- The revision that a `put` has allocated. -/
def revision : PutStage → Option Int
  | .readPrevious newRevision => some newRevision
  | .storeKv kv _ => some kv.modRevision
  | .storeRev kv _ => some kv.modRevision
  | .storeIndex kv _ => some kv.modRevision
  | .returned kv _ => some kv.modRevision
  | _ => none

/-- The record that a `put` has prepared. -/
def record : PutStage → Option KeyValue
  | .storeKv kv _ => some kv
  | .storeRev kv _ => some kv
  | .storeIndex kv _ => some kv
  | .returned kv _ => some kv
  | _ => none

/-- The record is in the `kv` tree. -/
def storedKv : PutStage → Bool
  | .storeRev _ _ => true
  | .storeIndex _ _ => true
  | .returned _ _ => true
  | _ => false

/-- The record is in the `kv_rev` tree. -/
def storedRev : PutStage → Bool
  | .storeIndex _ _ => true
  | .returned _ _ => true
  | _ => false

/-- The `put` has answered; its revision is in the index. -/
def done : PutStage → Bool
  | .returned _ _ => true
  | _ => false

/-- **What one call can do.** -/
inductive Moves (args : PutArgs) (s : MvccStore) : PutStage → PutStage → MvccStore → Prop
  | readIndex : Moves args s .readIndex .allocate s
  | allocate (room : s.currentRevision + 1 < 2 ^ 63) :
      Moves args s .allocate (.readPrevious (s.currentRevision + 1))
        { s with currentRevision := s.currentRevision + 1 }
  | readPrevious (newRevision version : Int) (prevKv : Option KeyValue)
      (read : readRecord args.key (s.backend.get .kv args.key) = .ok prevKv)
      (versioned : (nextVersion prevKv).run s = (.ok version, s)) :
      Moves args s (.readPrevious newRevision)
        (.storeKv (newRecord args.key args.value args.lease newRevision version prevKv) prevKv) s
  | unreadable (newRevision : Int)
      (crashes : ∀ prevKv version, readRecord args.key (s.backend.get .kv args.key) = .ok prevKv →
        (nextVersion prevKv).run s ≠ (.ok version, s)) :
      Moves args s (.readPrevious newRevision) .crashed s
  | storeKv (kv : KeyValue) (prevKv : Option KeyValue) :
      Moves args s (.storeKv kv prevKv) (.storeRev kv prevKv)
        { s with backend := s.backend.put .kv args.key kv.encode }
  | storeRev (kv : KeyValue) (prevKv : Option KeyValue) :
      Moves args s (.storeRev kv prevKv) (.storeIndex kv prevKv)
        { s with backend := s.backend.put .kvRev (revKey kv.modRevision args.key) kv.encodeWithKey }
  | storeIndex (kv : KeyValue) (prevKv : Option KeyValue) :
      Moves args s (.storeIndex kv prevKv) (.returned kv prevKv)
        { s with keyIndex := s.keyIndex.put args.key ⟨kv.modRevision, 0⟩ }

theorem step_moves {args : PutArgs} {s s' : MvccStore} {stage stage' : PutStage}
    (moves : step args s stage = some (stage', s')) : Moves args s stage stage' s' := by
  cases stage with
  | readIndex =>
    cases moves
    exact .readIndex
  | allocate =>
    unfold step at moves
    split_ifs at moves with room
    cases moves
    exact .allocate room
  | readPrevious newRevision =>
    unfold step at moves
    cases read : readRecord args.key (s.backend.get .kv args.key) with
    | ok prevKv =>
      obtain ⟨outcome, versioned⟩ := nextVersion_run prevKv s
      simp only [read, versioned] at moves
      cases outcome with
      | ok version =>
        cases moves
        exact .readPrevious newRevision version prevKv read versioned
      | err e =>
        cases moves
        refine .unreadable newRevision fun prevKv' version read' versioned' => ?_
        rw [read] at read'
        cases read'
        rw [versioned] at versioned'
        cases versioned'
      | panic =>
        cases moves
        refine .unreadable newRevision fun prevKv' version read' versioned' => ?_
        rw [read] at read'
        cases read'
        rw [versioned] at versioned'
        cases versioned'
    | err e =>
      simp only [read] at moves
      cases moves
      exact .unreadable newRevision fun prevKv' version read' => by rw [read] at read'; cases read'
    | panic =>
      simp only [read] at moves
      cases moves
      exact .unreadable newRevision fun prevKv' version read' => by rw [read] at read'; cases read'
  | storeKv kv prevKv =>
    cases moves
    exact .storeKv kv prevKv
  | storeRev kv prevKv =>
    cases moves
    exact .storeRev kv prevKv
  | storeIndex kv prevKv =>
    cases moves
    exact .storeIndex kv prevKv
  | returned kv prevKv => cases moves
  | crashed => cases moves

/-- A version that was computed is one more than the previous one, in the 64-bit range. -/
theorem version_eq {prevKv : Option KeyValue} {version : Int} {s : MvccStore}
    (versioned : (nextVersion prevKv).run s = (.ok version, s)) :
    version = (prevKv.map fun kv => kv.version).getD 0 + 1 ∧ version < 2 ^ 63 := by
  cases prevKv with
  | none =>
    cases versioned
    exact ⟨rfl, by norm_num⟩
  | some prev =>
    rw [nextVersion, increment] at versioned
    split_ifs at versioned with room
    · cases versioned
      exact ⟨rfl, room⟩
    · cases versioned

/-! ### What a call keeps -/

namespace Moves

variable {args : PutArgs} {s s' : MvccStore} {stage stage' : PutStage}

/-- Only the `fetch_add` moves the counter. -/
theorem counter (moves : Moves args s stage stage' s') :
    (stage = .allocate ∧ stage' = .readPrevious (s.currentRevision + 1) ∧
      s'.currentRevision = s.currentRevision + 1 ∧ s.currentRevision + 1 < 2 ^ 63) ∨
    stage ≠ .allocate ∧ s'.currentRevision = s.currentRevision := by
  cases moves with
  | allocate room => exact Or.inl ⟨rfl, rfl, rfl, room⟩
  | _ => exact Or.inr ⟨by simp, rfl⟩

theorem counter_le (moves : Moves args s stage stage' s') :
    s.currentRevision ≤ s'.currentRevision := by
  rcases moves.counter with ⟨_, _, counter, _⟩ | ⟨_, counter⟩ <;> omega

/-- A revision that the `put` has after the call is the one it had, or the one just allocated. -/
theorem revision_cases (moves : Moves args s stage stage' s') {r : Int}
    (has : stage'.revision = some r) :
    stage.revision = some r ∨ stage = .allocate ∧ r = s.currentRevision + 1 := by
  cases moves with
  | readIndex => cases has
  | allocate room =>
    cases has
    exact Or.inr ⟨rfl, rfl⟩
  | unreadable newRevision crashes => cases has
  | _ => exact Or.inl has

theorem revision_keeps (moves : Moves args s stage stage' s') (fine : stage' ≠ .crashed) {r : Int}
    (has : stage.revision = some r) : stage'.revision = some r := by
  cases moves with
  | readIndex => cases has
  | allocate room => cases has
  | unreadable newRevision crashes => exact absurd rfl fine
  | _ => exact has

/-- A record that the `put` has after the call is the one it had, or the one just prepared. -/
theorem record_cases (moves : Moves args s stage stage' s') {kv : KeyValue}
    (has : stage'.record = some kv) :
    stage.record = some kv ∨ ∃ newRevision version prevKv, stage = .readPrevious newRevision ∧
      stage' = .storeKv kv prevKv ∧
      kv = newRecord args.key args.value args.lease newRevision version prevKv ∧
      readRecord args.key (s.backend.get .kv args.key) = .ok prevKv ∧
      (nextVersion prevKv).run s = (.ok version, s) := by
  cases moves with
  | readIndex => cases has
  | allocate room => cases has
  | unreadable newRevision crashes => cases has
  | readPrevious newRevision version prevKv read versioned =>
    cases has
    exact Or.inr ⟨newRevision, version, prevKv, rfl, rfl, rfl, read, versioned⟩
  | _ => exact Or.inl has

theorem record_keeps (moves : Moves args s stage stage' s') {kv : KeyValue}
    (has : stage.record = some kv) : stage'.record = some kv := by
  cases moves with
  | readIndex => cases has
  | allocate room => cases has
  | unreadable newRevision crashes => cases has
  | readPrevious newRevision version prevKv read versioned => cases has
  | _ => exact has

/-- The `kv` tree changes only with the write of the record. -/
theorem kv_cases (moves : Moves args s stage stage' s') :
    (∃ kv prevKv, stage = .storeKv kv prevKv ∧ stage' = .storeRev kv prevKv ∧
      ∀ key, s'.backend.get .kv key =
        if key = args.key then some kv.encode else s.backend.get .kv key) ∨
    (stage'.storedKv = stage.storedKv ∧
      ∀ key, s'.backend.get .kv key = s.backend.get .kv key) := by
  cases moves with
  | storeKv kv prevKv =>
    refine Or.inl ⟨kv, prevKv, rfl, rfl, fun key => ?_⟩
    simp only [Backend.get_put, true_and]
  | storeRev kv prevKv =>
    refine Or.inr ⟨rfl, fun key => ?_⟩
    simp only [Backend.get_put, reduceCtorEq, false_and, if_false]
  | _ => exact Or.inr ⟨rfl, fun _ => rfl⟩

/-- The `kv_rev` tree changes only with the write of the copy. -/
theorem kvRev_cases (moves : Moves args s stage stage' s') :
    (∃ kv prevKv, stage = .storeRev kv prevKv ∧ stage' = .storeIndex kv prevKv ∧
      ∀ at_, s'.backend.get .kvRev at_ = if at_ = revKey kv.modRevision args.key
        then some kv.encodeWithKey else s.backend.get .kvRev at_) ∨
    (stage'.storedRev = stage.storedRev ∧
      ∀ at_, s'.backend.get .kvRev at_ = s.backend.get .kvRev at_) := by
  cases moves with
  | storeKv kv prevKv =>
    refine Or.inr ⟨rfl, fun key => ?_⟩
    simp only [Backend.get_put, reduceCtorEq, false_and, if_false]
  | storeRev kv prevKv =>
    refine Or.inl ⟨kv, prevKv, rfl, rfl, fun key => ?_⟩
    simp only [Backend.get_put, true_and]
  | _ => exact Or.inr ⟨rfl, fun _ => rfl⟩

/-- The index changes only with the last call. -/
theorem index_cases (moves : Moves args s stage stage' s') :
    (∃ kv prevKv, stage = .storeIndex kv prevKv ∧ stage' = .returned kv prevKv ∧
      s'.keyIndex = s.keyIndex.put args.key ⟨kv.modRevision, 0⟩) ∨
    (stage'.done = stage.done ∧ s'.keyIndex = s.keyIndex) := by
  cases moves with
  | storeIndex kv prevKv => exact Or.inl ⟨kv, prevKv, rfl, rfl, rfl⟩
  | _ => exact Or.inr ⟨rfl, rfl⟩

end Moves

/-- The copy in `kv_rev` comes after the record in `kv`, and the index last. -/
theorem storedKv_of_storedRev {stage : PutStage} (stored : stage.storedRev = true) :
    stage.storedKv = true := by
  cases stage <;> first | rfl | cases stored

theorem storedRev_of_done {stage : PutStage} (done : stage.done = true) :
    stage.storedRev = true := by
  cases stage <;> first | rfl | cases done

theorem revision_of_record {stage : PutStage} {kv : KeyValue} (has : stage.record = some kv) :
    stage.revision = some kv.modRevision := by
  cases stage <;> first | (cases has; rfl) | cases has

theorem record_of_storedKv {stage : PutStage} (stored : stage.storedKv = true) :
    ∃ kv, stage.record = some kv := by
  cases stage <;> first | exact ⟨_, rfl⟩ | cases stored

/-! ### A `put` without interruption -/

/-- Make calls until the `put` ends. -/
def runAlone (args : PutArgs) : Nat → PutStage → MvccStore → PutStage × MvccStore
  | 0, stage, s => (stage, s)
  | fuel + 1, stage, s =>
    match step args s stage with
    | some (stage', s') => runAlone args fuel stage' s'
    | none => (stage, s)

/-- **A `put` alone**: its six calls return what `MvccStore.put` returns, and leave the same store. -/
theorem put_alone {args : PutArgs} {s s' : MvccStore} {revision : Int} {kv : KeyValue}
    {prevKv : Option KeyValue}
    (returns : (MvccStore.put args.key args.value args.lease).run s = (.ok (revision, kv, prevKv), s')) :
    runAlone args 6 .readIndex s = (.returned kv prevKv, s') ∧ kv.modRevision = revision := by
  by_cases room : s.currentRevision + 1 < 2 ^ 63
  · rw [MvccStore.put, Exec.run_bind_ok (nextRevision_apply room)] at returns
    obtain ⟨prev, s₁, recorded, returns⟩ := Exec.run_bind_eq_ok returns
    rw [latestRecord_run] at recorded
    injection recorded with read same
    subst same
    obtain ⟨version, s₂, versioned, returns⟩ := Exec.run_bind_eq_ok returns
    obtain ⟨o, unchanged⟩ := nextVersion_run prev { s with currentRevision := s.currentRevision + 1 }
    have ok := unchanged
    rw [versioned] at ok
    cases ok
    cases returns
    simp only [runAlone, step, if_pos room, read, unchanged, prepare]
    exact ⟨rfl, rfl⟩
  · rw [MvccStore.put_panic room] at returns
    cases returns

end PutStage

/-! ### Many at once -/

/-- A `put` on its way. -/
structure PutCall where
  args : PutArgs
  stage : PutStage
  deriving DecidableEq, Repr

/-- Any number of `put`s over one store. -/
structure Writers where
  store : MvccStore
  puts : List PutCall

namespace Writers

def start (s : MvccStore) (requests : List PutArgs) : Writers :=
  ⟨s, requests.map fun args => ⟨args, .readIndex⟩⟩

/-- The next call of the `put` at `i`. -/
def step (w : Writers) (i : Nat) : Option Writers :=
  match w.puts[i]? with
  | none => none
  | some p => (p.stage.step p.args w.store).map fun (stage, store) =>
      ⟨store, w.puts.set i ⟨p.args, stage⟩⟩

/-- **What one step is.** -/
theorem step_cases {w w' : Writers} {i : Nat} (moves : step w i = some w') :
    ∃ p stage, w.puts[i]? = some p ∧ p.stage.Moves p.args w.store stage w'.store ∧
      w'.puts = w.puts.set i ⟨p.args, stage⟩ := by
  unfold step at moves
  cases found : w.puts[i]? with
  | none =>
    simp only [found] at moves
    cases moves
  | some p =>
    simp only [found] at moves
    obtain ⟨⟨stage, store⟩, moved, rfl⟩ := Option.map_eq_some_iff.mp moves
    exact ⟨p, stage, rfl, PutStage.step_moves moved, rfl⟩

/-- The revisions of the `put`s lie above `base`, and no two are equal. -/
structure Numbered (base : Int) (w : Writers) : Prop where
  grown : base ≤ w.store.currentRevision
  fits : w.store.currentRevision < 2 ^ 63
  revisions : ∀ p ∈ w.puts, ∀ r, p.stage.revision = some r → base < r ∧ r ≤ w.store.currentRevision
  distinct : ∀ (i j : Nat) (p q : PutCall) (r : Int), w.puts[i]? = some p → w.puts[j]? = some q →
    p.stage.revision = some r → q.stage.revision = some r → i = j

theorem Numbered.start {base : Int} {s : MvccStore} (is : s.currentRevision = base)
    (fits : base < 2 ^ 63) (requests : List PutArgs) : Numbered base (start s requests) := by
  have begun : ∀ p ∈ (Writers.start s requests).puts, p.stage.revision = none := by
    intro p member
    obtain ⟨args, _, rfl⟩ := List.mem_map.mp member
    rfl
  refine ⟨is.ge, by simpa only [Writers.start, is] using fits, fun p member r has => ?_,
    fun i j p q r here _ has => ?_⟩
  · rw [begun p member] at has
    cases has
  · rw [begun p (List.mem_of_getElem? here)] at has
    cases has

theorem Numbered.step {base : Int} {w : Writers} {i : Nat} {args : PutArgs}
    {stage stage' : PutStage} {store' : MvccStore} (ok : Numbered base w)
    (found : w.puts[i]? = some ⟨args, stage⟩) (calls : stage.Moves args w.store stage' store') :
    Numbered base ⟨store', w.puts.set i ⟨args, stage'⟩⟩ := by
  have mine := List.mem_of_getElem? found
  have counter := calls.counter
  have grown := ok.grown
  have grows := calls.counter_le
  have bounded : store'.currentRevision < 2 ^ 63 := by
    have := ok.fits
    rcases counter with ⟨_, _, is, room⟩ | ⟨_, is⟩ <;> omega
  -- the revision of the `put` that moved, against the old counter
  have moved : ∀ r, stage'.revision = some r → stage.revision = some r ∨
      r = w.store.currentRevision + 1 ∧ store'.currentRevision = r := by
    intro r has
    rcases calls.revision_cases has with old | ⟨is, new⟩
    · exact Or.inl old
    · rcases counter with ⟨_, _, same, _⟩ | ⟨other, _⟩
      · exact Or.inr ⟨new, by omega⟩
      · exact absurd is other
  refine ⟨grown.trans grows, bounded, fun p member r has => ?_,
    fun j k p q r atJ atK hasP hasQ => ?_⟩
  · rcases List.mem_or_eq_of_mem_set member with old | rfl
    · have := ok.revisions p old r has
      simp only
      omega
    · rcases moved r has with old | ⟨new, is⟩
      · have := ok.revisions _ mine r old
        simp only
        omega
      · simp only
        omega
  · have fresh : ∀ q ∈ w.puts, ∀ r, q.stage.revision = some r → r ≠ w.store.currentRevision + 1 := by
      intro q member r has
      have := ok.revisions q member r has
      omega
    rcases getElem?_set_cases atJ with ⟨rfl, rfl⟩ | ⟨_, oldJ⟩ <;>
      rcases getElem?_set_cases atK with ⟨rfl, rfl⟩ | ⟨_, oldK⟩
    · rfl
    · rcases moved r hasP with old | ⟨new, _⟩
      · exact ok.distinct _ _ _ _ r found oldK old hasQ
      · exact absurd new (fresh q (List.mem_of_getElem? oldK) r hasQ)
    · rcases moved r hasQ with old | ⟨new, _⟩
      · exact ok.distinct _ _ _ _ r oldJ found hasP old
      · exact absurd new (fresh p (List.mem_of_getElem? oldJ) r hasP)
    · exact ok.distinct _ _ _ _ r oldJ oldK hasP hasQ

end Writers

end Rusd
