/-
**The stores that calls can reach.**

`Reached` closes a fresh store under `put`, `delete_range` and `compact`, whether the calls return,
fail or panic on an inverted interval, as long as the revision counter has room.

* `put_state`, `deleteRange_state`, `compact_apply` — everything a call can leave behind.
* `Sound` — what holds of every reached store: the index is well formed below the current revision,
  no record of the `kv` tree makes a read panic, and no version counter is about to overflow.
* `Sound.put_returns`, `Sound.deleteRange_returns` — so writes with room return.
-/

import Rusd.Storage.Mvcc

namespace Rusd

open MvccStore

/-- The stores reached by sequences of calls, as long as the revision counter has room. -/
inductive Reached : MvccStore → Prop
  | fresh : Reached (MvccStore.new .empty)
  | put {s : MvccStore} (before : Reached s) (room : s.currentRevision + 1 < 2 ^ 63)
      (key value : Bytes) (lease : Int) : Reached ((MvccStore.put key value lease).run s).2
  | deleteRange {s : MvccStore} (before : Reached s) (room : s.currentRevision + 1 < 2 ^ 63)
      (start stop : Bytes) : Reached ((MvccStore.deleteRange start stop).run s).2
  | compact {s : MvccStore} (before : Reached s) (revision : Int) :
      Reached ((MvccStore.compact revision).run s).2

/-! ### What a call leaves behind -/

variable {s : MvccStore}

/-- What a `put` writes over the record it finds, if it finds a readable one. -/
structure MvccStore.Writes (s : MvccStore) (kv : KeyValue) : Prop where
  modRevision : kv.modRevision = s.currentRevision + 1
  over_record : kv.version = 1 ∧ kv.createRevision = s.currentRevision + 1 ∨
    ∃ data prev, s.backend.get .kv kv.key = some data ∧ KeyValue.decode kv.key data = .ok prev ∧
      kv.version = prev.version + 1 ∧
      (kv.createRevision = s.currentRevision + 1 ∨ kv.createRevision = prev.createRevision)

/-- A readable record is the decoding of what the tree holds. -/
theorem MvccStore.decode_of_readRecord {key : Bytes} {prev : KeyValue}
    (recorded : readRecord key (s.backend.get .kv key) = .ok (some prev)) :
    ∃ data, s.backend.get .kv key = some data ∧ KeyValue.decode key data = .ok prev := by
  cases found : s.backend.get .kv key with
  | none =>
    rw [found] at recorded
    cases recorded
  | some data =>
    rw [found, readRecord] at recorded
    cases decoded : KeyValue.decode key data with
    | ok kv =>
      rw [decoded] at recorded
      cases recorded
      exact ⟨data, rfl, decoded⟩
    | err e =>
      rw [decoded] at recorded
      cases recorded
    | panic =>
      rw [decoded] at recorded
      cases recorded

theorem MvccStore.writes_of_run {key : Bytes} (value : Bytes) (lease : Int)
    {prevKv : Option KeyValue} {version : Int} {t t' : MvccStore}
    (recorded : readRecord key (s.backend.get .kv key) = .ok prevKv)
    (versioned : (nextVersion prevKv).run t = (.ok version, t')) :
    s.Writes (newRecord key value lease (s.currentRevision + 1) version prevKv) := by
  refine ⟨rfl, ?_⟩
  cases prevKv with
  | none =>
    cases versioned
    exact Or.inl ⟨rfl, rfl⟩
  | some prev =>
    rw [nextVersion, increment] at versioned
    split_ifs at versioned with room
    · cases versioned
      obtain ⟨data, found, decoded⟩ := decode_of_readRecord recorded
      refine Or.inr ⟨data, prev, found, decoded, rfl, ?_⟩
      by_cases first : prev.version + 1 = 1
      · exact Or.inl (if_pos first)
      · exact Or.inr (if_neg first)
    · cases versioned

theorem MvccStore.put_state (room : s.currentRevision + 1 < 2 ^ 63) (key value : Bytes)
    (lease : Int) :
    ((MvccStore.put key value lease).run s).2 =
        { s with currentRevision := s.currentRevision + 1 } ∨
      ∃ kv, kv.key = key ∧ s.Writes kv ∧
        ((MvccStore.put key value lease).run s).2 = s.afterPut kv := by
  rw [MvccStore.put, Exec.run_bind_ok (nextRevision_apply room)]
  have recorded := latestRecord_run key { s with currentRevision := s.currentRevision + 1 }
  cases record : readRecord key (s.backend.get .kv key) with
  | ok prevKv =>
    simp only [record] at recorded
    rw [Exec.run_bind_ok recorded]
    obtain ⟨version | error | _, versioned⟩ :=
      nextVersion_run prevKv { s with currentRevision := s.currentRevision + 1 }
    · rw [Exec.run_bind_ok versioned]
      exact Or.inr ⟨newRecord key value lease (s.currentRevision + 1) version prevKv, rfl,
        writes_of_run value lease record versioned, rfl⟩
    · rw [Exec.run_bind_err versioned]
      exact Or.inl rfl
    · rw [Exec.run_bind_panic versioned]
      exact Or.inl rfl
  | err error =>
    simp only [record] at recorded
    rw [Exec.run_bind_err recorded]
    exact Or.inl rfl
  | panic =>
    simp only [record] at recorded
    rw [Exec.run_bind_panic recorded]
    exact Or.inl rfl

/-- **What a `put` that returned answers.** -/
theorem MvccStore.put_answer {s' : MvccStore} {key value : Bytes} {lease revision : Int}
    {kv : KeyValue} {oldKv : Option KeyValue}
    (returned : (MvccStore.put key value lease).run s = (.ok (revision, kv, oldKv), s')) :
    s.currentRevision + 1 < 2 ^ 63 ∧ revision = s.currentRevision + 1 ∧
      s'.currentRevision = revision ∧ kv.key = key ∧ kv.modRevision = revision := by
  by_cases room : s.currentRevision + 1 < 2 ^ 63
  · rw [MvccStore.put, Exec.run_bind_ok (nextRevision_apply room)] at returned
    obtain ⟨prevKv, s₁, recorded, returned⟩ := Exec.run_bind_eq_ok returned
    rw [latestRecord_run] at recorded
    obtain ⟨version, s₂, versioned, returned⟩ := Exec.run_bind_eq_ok returned
    obtain ⟨o, unchanged⟩ := nextVersion_run prevKv s₁
    rw [unchanged] at versioned
    injection recorded with _ same
    subst same
    cases versioned
    cases returned
    exact ⟨room, rfl, rfl, rfl, rfl⟩
  · rw [MvccStore.put_panic room] at returned
    cases returned

/-- The records collected for a deletion are those of the `kv` tree, and nothing is written. -/
theorem MvccStore.collectDeleted_answer {keys : List (Bytes × Revision)} {s' : MvccStore}
    {found : List (Bytes × KeyValue)} (returned : (collectDeleted keys).run s = (.ok found, s')) :
    s' = s ∧ ∀ e ∈ found, ∃ data, s.backend.get .kv e.1 = some data ∧
      KeyValue.decode e.1 data = .ok e.2 := by
  induction keys generalizing found s' with
  | nil =>
    cases returned
    exact ⟨rfl, fun e member => absurd member List.not_mem_nil⟩
  | cons first rest ih =>
    obtain ⟨key, rev⟩ := first
    rw [collectDeleted] at returned
    obtain ⟨record, s₁, read, returned⟩ := Exec.run_bind_eq_ok returned
    rw [latestRecord_run] at read
    injection read with recorded same
    subst same
    obtain ⟨others, s₂, tail, ends⟩ := Exec.run_bind_eq_ok returned
    obtain ⟨rfl, each⟩ := ih tail
    cases ends
    refine ⟨rfl, fun e member => ?_⟩
    rcases List.mem_append.mp member with first | later
    · obtain ⟨kv, is, rfl⟩ := Option.map_eq_some_iff.mp (Option.mem_toList.mp first)
      subst is
      exact decode_of_readRecord recorded
    · exact each e later

/-- The records are collected in the order of the scan. -/
theorem MvccStore.collectDeleted_sublist {keys : List (Bytes × Revision)} {s' : MvccStore}
    {found : List (Bytes × KeyValue)} (returned : (collectDeleted keys).run s = (.ok found, s')) :
    (found.map Prod.fst).Sublist (keys.map Prod.fst) := by
  induction keys generalizing s found s' with
  | nil =>
    cases returned
    exact List.Sublist.refl _
  | cons first rest ih =>
    obtain ⟨key, rev⟩ := first
    rw [collectDeleted] at returned
    obtain ⟨record, s₁, -, returned⟩ := Exec.run_bind_eq_ok returned
    obtain ⟨others, s₂, tail, ends⟩ := Exec.run_bind_eq_ok returned
    cases ends
    cases record with
    | none => exact (ih tail).cons key
    | some kv => exact (ih tail).cons_cons key

/-- Nothing is collected when no key has a readable record. -/
theorem MvccStore.collectDeleted_eq_nil {keys : List (Bytes × Revision)} {s' : MvccStore}
    {found : List (Bytes × KeyValue)} (returned : (collectDeleted keys).run s = (.ok found, s')) :
    found = [] ↔ ∀ e ∈ keys, readRecord e.1 (s.backend.get .kv e.1) = .ok none := by
  induction keys generalizing s' found with
  | nil =>
    cases returned
    simp
  | cons first rest ih =>
    obtain ⟨key, rev⟩ := first
    rw [collectDeleted] at returned
    obtain ⟨record, s₁, read, returned⟩ := Exec.run_bind_eq_ok returned
    rw [latestRecord_run] at read
    injection read with recorded same
    subst same
    obtain ⟨others, s₂, tail, ends⟩ := Exec.run_bind_eq_ok returned
    cases ends
    rw [List.append_eq_nil_iff, ih tail, List.forall_mem_cons, recorded]
    cases record <;> simp

/-- **What a `delete_range` that returned answers**: records of the `kv` tree. -/
theorem MvccStore.deleteRange_answer {s' : MvccStore} {start stop : Bytes} {revision : Int}
    {deleted : List KeyValue}
    (returned : (MvccStore.deleteRange start stop).run s = (.ok (revision, deleted), s')) :
    s.currentRevision + 1 < 2 ^ 63 ∧ revision = s.currentRevision + 1 ∧
      s'.currentRevision = revision ∧ ∀ kv ∈ deleted, ∃ key data,
        s.backend.get .kv key = some data ∧ KeyValue.decode key data = .ok kv := by
  by_cases room : s.currentRevision + 1 < 2 ^ 63
  · rw [MvccStore.deleteRange, Exec.run_bind_ok (nextRevision_apply room)] at returned
    obtain ⟨keys, s₁, scanned, returned⟩ := Exec.run_bind_eq_ok returned
    obtain ⟨found, s₂, collected, returned⟩ := Exec.run_bind_eq_ok returned
    have unmoved : s₁ = { s with currentRevision := s.currentRevision + 1 } := by
      unfold indexRange at scanned
      simp only at scanned
      split at scanned <;> cases scanned
      rfl
    subst unmoved
    obtain ⟨rfl, each⟩ := collectDeleted_answer collected
    cases returned
    refine ⟨room, rfl, rfl, fun kv member => ?_⟩
    obtain ⟨e, listed, rfl⟩ := List.mem_map.mp member
    obtain ⟨data, stored, decoded⟩ := each e listed
    exact ⟨e.1, data, stored, decoded⟩
  · rw [MvccStore.deleteRange_panic room] at returned
    cases returned

/-- Collecting the records to delete reads the `kv` tree only, and writes nothing. -/
theorem MvccStore.collectDeleted_congr (s s' : MvccStore) (keys : List (Bytes × Revision))
    (same : ∀ key, s'.backend.get .kv key = s.backend.get .kv key) :
    ∃ o, (collectDeleted keys).run s = (o, s) ∧ (collectDeleted keys).run s' = (o, s') := by
  induction keys with
  | nil => exact ⟨_, rfl, rfl⟩
  | cons e rest ih =>
    obtain ⟨key, rev⟩ := e
    obtain ⟨others, others_eq, others_eq'⟩ := ih
    have first := latestRecord_run key s
    have first' := latestRecord_run key s'
    rw [same] at first'
    generalize readRecord key _ = record at first first'
    rcases record with kv | error | _
    · rw [collectDeleted, Exec.run_bind_ok first, Exec.run_bind_ok first']
      rcases others with found | error | _
      · rw [Exec.run_bind_ok others_eq, Exec.run_bind_ok others_eq']
        exact ⟨_, rfl, rfl⟩
      · rw [Exec.run_bind_err others_eq, Exec.run_bind_err others_eq']
        exact ⟨_, rfl, rfl⟩
      · rw [Exec.run_bind_panic others_eq, Exec.run_bind_panic others_eq']
        exact ⟨_, rfl, rfl⟩
    · rw [collectDeleted, Exec.run_bind_err first, Exec.run_bind_err first']
      exact ⟨_, rfl, rfl⟩
    · rw [collectDeleted, Exec.run_bind_panic first, Exec.run_bind_panic first']
      exact ⟨_, rfl, rfl⟩

theorem MvccStore.indexRange_refused {start stop : Bytes}
    (refused : ¬ KeyIndex.Accepts s.keyIndex.held start stop) {revision : MvccStore → Int} :
    (indexRange start stop revision).run s = (.panic, s) := by
  simp only [indexRange, KeyIndex.range_eq_none refused]

/-- An interval that the index refuses panics after the revision is allocated. -/
theorem MvccStore.deleteRange_refused (room : s.currentRevision + 1 < 2 ^ 63) {start stop : Bytes}
    (refused : ¬ KeyIndex.Accepts s.keyIndex.held start stop) :
    (MvccStore.deleteRange start stop).run s =
      (.panic, { s with currentRevision := s.currentRevision + 1 }) := by
  rw [MvccStore.deleteRange, Exec.run_bind_ok (nextRevision_apply room), Exec.run_bind_panic
    (indexRange_refused (s := { s with currentRevision := s.currentRevision + 1 }) refused)]

/-- A deletion that returned has searched its interval. -/
theorem MvccStore.accepts_of_deleteRange {start stop : Bytes} {removed : Int × List KeyValue}
    (returned : ((MvccStore.deleteRange start stop).run s).1 = .ok removed) :
    KeyIndex.Accepts s.keyIndex.held start stop := by
  by_contra refused
  by_cases room : s.currentRevision + 1 < 2 ^ 63
  · rw [deleteRange_refused room refused] at returned
    cases returned
  · rw [deleteRange_panic room] at returned
    cases returned

/-- A store that never held a key has nothing to delete, whatever the interval. -/
theorem MvccStore.deleteRange_not_held (room : s.currentRevision + 1 < 2 ^ 63)
    (never : s.keyIndex.held = false) (start stop : Bytes) :
    (MvccStore.deleteRange start stop).run s =
      (.ok (s.currentRevision + 1, []), { s with currentRevision := s.currentRevision + 1 }) := by
  have nothing := KeyIndex.keysIn_of_not_held never start stop (s.currentRevision + 1)
  rw [deleteRange_apply (.of_not_held never) room (fun _ => default) (by simp [nothing]), nothing]
  rfl

/-- **An inverted interval allocates a revision and deletes nothing**: it panics then, unless the
store has never held a key. -/
theorem MvccStore.deleteRange_inverted (room : s.currentRevision + 1 < 2 ^ 63) {start stop : Bytes}
    (inverted : ¬ KeyIndex.ValidRange start stop) :
    (MvccStore.deleteRange start stop).run s =
      (if s.keyIndex.held then .panic else .ok (s.currentRevision + 1, []),
        { s with currentRevision := s.currentRevision + 1 }) := by
  split_ifs with held
  · exact deleteRange_refused room (mt (KeyIndex.Accepts.iff_of_held held).mp inverted)
  · exact deleteRange_not_held room (Bool.eq_false_iff.mpr held) start stop

theorem MvccStore.deleteRange_state (room : s.currentRevision + 1 < 2 ^ 63) (start stop : Bytes) :
    ((MvccStore.deleteRange start stop).run s).2 =
        { s with currentRevision := s.currentRevision + 1 } ∨
      ∃ keys, ((MvccStore.deleteRange start stop).run s).2 = s.afterDelete keys := by
  rw [MvccStore.deleteRange, Exec.run_bind_ok (nextRevision_apply room)]
  by_cases accepts : KeyIndex.Accepts s.keyIndex.held start stop
  · rw [Exec.run_bind_ok
      (indexRange_apply (s := { s with currentRevision := s.currentRevision + 1 }) accepts _)]
    obtain ⟨found | error | _, collected, _⟩ := collectDeleted_congr
      { s with currentRevision := s.currentRevision + 1 }
      { s with currentRevision := s.currentRevision + 1 }
      (s.keyIndex.keysIn start stop (s.currentRevision + 1)) fun _ => rfl
    · rw [Exec.run_bind_ok collected]
      exact Or.inr ⟨found.map Prod.fst, rfl⟩
    · rw [Exec.run_bind_err collected]
      exact Or.inl rfl
    · rw [Exec.run_bind_panic collected]
      exact Or.inl rfl
  · rw [Exec.run_bind_panic
      (indexRange_refused (s := { s with currentRevision := s.currentRevision + 1 }) accepts)]
    exact Or.inl rfl

/-- A `delete_range` leaves a store that never held a key without one. -/
@[simp] theorem MvccStore.held_deleteRange (s : MvccStore) (start stop : Bytes) :
    ((MvccStore.deleteRange start stop).run s).2.keyIndex.held = s.keyIndex.held := by
  by_cases room : s.currentRevision + 1 < 2 ^ 63
  · cases held : s.keyIndex.held with
    | false => rw [deleteRange_not_held room held]; exact held
    | true =>
      rcases deleteRange_state room start stop with same | ⟨keys, same⟩ <;> rw [same]
      · exact held
      · rw [afterDelete, KeyIndex.held_tombstones, held, Bool.true_or]
  · rw [deleteRange_panic room]

/-- What a `delete_range` answers depends on the counter, the scan of the interval and the `kv`
tree only. -/
theorem MvccStore.deleteRange_congr {s' : MvccStore} {start stop : Bytes}
    (valid : KeyIndex.ValidRange start stop) (counter : s'.currentRevision = s.currentRevision)
    (scan : s'.keyIndex.keysIn start stop (s.currentRevision + 1) =
      s.keyIndex.keysIn start stop (s.currentRevision + 1))
    (same : ∀ key, s'.backend.get .kv key = s.backend.get .kv key) :
    ((MvccStore.deleteRange start stop).run s').1 = ((MvccStore.deleteRange start stop).run s).1 := by
  by_cases room : s.currentRevision + 1 < 2 ^ 63
  · have room' : s'.currentRevision + 1 < 2 ^ 63 := by rw [counter]; exact room
    obtain ⟨o, before, after⟩ := collectDeleted_congr
      { s with currentRevision := s.currentRevision + 1 }
      { s' with currentRevision := s'.currentRevision + 1 }
      (s.keyIndex.keysIn start stop (s.currentRevision + 1)) same
    rw [MvccStore.deleteRange, Exec.run_bind_ok (nextRevision_apply room),
      Exec.run_bind_ok (nextRevision_apply room'), Exec.run_bind_ok (indexRange_apply (.of_valid valid) _),
      Exec.run_bind_ok (indexRange_apply (.of_valid valid) _)]
    simp only [counter, scan] at after ⊢
    rcases o with found | error | _
    · rw [Exec.run_bind_ok before, Exec.run_bind_ok after]
      rfl
    · rw [Exec.run_bind_err before, Exec.run_bind_err after]
    · rw [Exec.run_bind_panic before, Exec.run_bind_panic after]
  · rw [MvccStore.deleteRange_panic room, MvccStore.deleteRange_panic (by rw [counter]; exact room)]

/-- The store after a compaction. -/
def MvccStore.afterCompact (s : MvccStore) (c : Int) : MvccStore where
  backend := s.backend.compact c
  currentRevision := s.currentRevision
  compactRevision := c
  keyIndex := s.keyIndex.compact c

theorem MvccStore.compact_apply {c : Int} (le : c ≤ s.currentRevision) :
    (MvccStore.compact c).run s = (.ok (), s.afterCompact c) := by
  rw [MvccStore.compact, Exec.run_bind_ok (Exec.run_read _ _), if_neg (by omega)]
  rfl

theorem MvccStore.compact_future {c : Int} (future : s.currentRevision < c) :
    (MvccStore.compact c).run s = (.err (.mvcc "Cannot compact to future revision"), s) := by
  rw [MvccStore.compact, Exec.run_bind_ok (Exec.run_read _ _), if_pos future]
  rfl

/-! ### Every reached store is sound -/

/-- The fields of a record are in the range of the revisions allocated so far. -/
structure RecordRange (bound : Int) (kv : KeyValue) : Prop where
  created : 1 ≤ kv.createRevision ∧ kv.createRevision ≤ bound
  modified : 1 ≤ kv.modRevision ∧ kv.modRevision ≤ bound
  /-- A key has been written less often than revisions were allocated. -/
  version : 1 ≤ kv.version ∧ kv.version < bound

theorem RecordRange.mono {bound higher : Int} {kv : KeyValue} (range : RecordRange bound kv)
    (le : bound ≤ higher) : RecordRange higher kv := by
  obtain ⟨created, modified, version⟩ := range
  exact ⟨by omega, by omega, by omega⟩

/-- What holds of every reached store. -/
structure Sound (s : MvccStore) : Prop where
  positive : 1 ≤ s.currentRevision
  fits : s.currentRevision < 2 ^ 63
  indexOk : IndexOk s.currentRevision s.keyIndex
  revisions : s.keyIndex.AllRevisions fun rev => 0 < rev.main
  /-- No record of the `kv` tree is so short that reading it panics. -/
  stored : ∀ key data, s.backend.get .kv key = some data → 36 ≤ data.length
  records : ∀ key data kv, s.backend.get .kv key = some data → KeyValue.decode key data = .ok kv →
    RecordRange s.currentRevision kv

namespace Sound

/-- The revision of a call that did nothing else. -/
theorem skip (sound : Sound s) (room : s.currentRevision + 1 < 2 ^ 63) :
    Sound { s with currentRevision := s.currentRevision + 1 } where
  positive := by have := sound.positive; simp only; omega
  fits := room
  indexOk := sound.indexOk.mono (by simp)
  revisions := sound.revisions
  stored := sound.stored
  records key data kv found decoded := (sound.records key data kv found decoded).mono (by simp)

/-- A record that a `put` writes is in range. -/
theorem recordRange (sound : Sound s) {kv : KeyValue} (writes : s.Writes kv) :
    RecordRange (s.currentRevision + 1) kv := by
  have positive := sound.positive
  have modified := writes.modRevision
  rcases writes.over_record with ⟨version, created⟩ | ⟨data, prev, found, decoded, version, created⟩
  · exact ⟨by omega, by omega, by omega⟩
  · obtain ⟨prevCreated, _, prevVersion⟩ := sound.records _ data prev found decoded
    exact ⟨by omega, by omega, by omega⟩

/-- Such a record is read back with its revisions and its version. -/
theorem read_written (sound : Sound s) (room : s.currentRevision + 1 < 2 ^ 63) {kv : KeyValue}
    (writes : s.Writes kv) (key : Bytes) :
    ∃ read, KeyValue.decode key kv.encode = .ok read ∧
      read.createRevision = kv.createRevision ∧ read.modRevision = kv.modRevision ∧
      read.version = kv.version := by
  obtain ⟨created, modified, version⟩ := sound.recordRange writes
  exact KeyValue.decode_encode_header ⟨by omega, by omega⟩ ⟨by omega, by omega⟩
    ⟨by omega, by omega⟩ key

theorem afterPut (sound : Sound s) (room : s.currentRevision + 1 < 2 ^ 63) {kv : KeyValue}
    (writes : s.Writes kv) : Sound (s.afterPut kv) := by
  have positive := sound.positive
  have tree : ∀ key data, (s.afterPut kv).backend.get .kv key = some data →
      key = kv.key ∧ data = kv.encode ∨ s.backend.get .kv key = some data := by
    intro key data found
    rw [MvccStore.afterPut, Backend.get_put, if_neg (by simp), Backend.get_put] at found
    split_ifs at found with same
    · exact Or.inl ⟨same.2, (Option.some.inj found).symm⟩
    · exact Or.inr found
  refine ⟨by simp only [MvccStore.afterPut]; omega, room, sound.indexOk.put _ (by simp),
    sound.revisions.put _ (by simp only; omega), fun key data found => ?_,
    fun key data other found decoded => ?_⟩
  · rcases tree key data found with ⟨rfl, rfl⟩ | old
    · simp only [KeyValue.encode, List.length_append, KeyValue.length_encodeHeader,
        KeyValue.length_encodeField]
      omega
    · exact sound.stored key data old
  · rcases tree key data found with ⟨rfl, rfl⟩ | old
    · obtain ⟨read, readable, created, modified, version⟩ := sound.read_written room writes kv.key
      rw [decoded] at readable
      cases readable
      obtain ⟨createdRange, modifiedRange, versionRange⟩ := sound.recordRange writes
      exact ⟨by rw [created]; exact createdRange, by rw [modified]; exact modifiedRange,
        by rw [version]; exact versionRange⟩
    · exact (sound.records key data other old decoded).mono (by simp [MvccStore.afterPut])

theorem afterDelete (sound : Sound s) (room : s.currentRevision + 1 < 2 ^ 63) (keys : List Bytes) :
    Sound (s.afterDelete keys) := by
  have positive := sound.positive
  refine ⟨by simp only [MvccStore.afterDelete]; omega, room,
    KeyIndex.IndexOk_tombstones sound.indexOk _ (by simp),
    sound.revisions.tombstones _ (by simp only; omega), fun key data found => ?_,
    fun key data kv found decoded => ?_⟩
  · rw [MvccStore.afterDelete, get_kv_foldl_removeKey] at found
    split_ifs at found with removed
    exact sound.stored key data found
  · rw [MvccStore.afterDelete, get_kv_foldl_removeKey] at found
    split_ifs at found with removed
    exact (sound.records key data kv found decoded).mono (by simp [MvccStore.afterDelete])

theorem afterCompact (sound : Sound s) {c : Int} (le : c ≤ s.currentRevision) :
    Sound (s.afterCompact c) where
  positive := sound.positive
  fits := sound.fits
  indexOk := sound.indexOk.compact le
  revisions := sound.revisions.compact c
  stored key data found :=
    sound.stored key data (by rwa [MvccStore.afterCompact, Backend.get_compact_other _ _ (by simp)]
      at found)
  records key data kv found decoded :=
    sound.records key data kv
      (by rwa [MvccStore.afterCompact, Backend.get_compact_other _ _ (by simp)] at found) decoded

/-- **Every reached store is sound.** -/
theorem of_reached (reached : Reached s) : Sound s := by
  induction reached with
  | fresh =>
    exact ⟨le_rfl, by norm_num [MvccStore.new], IndexOk.new _, KeyIndex.AllRevisions.new,
      by simp [MvccStore.new], by simp [MvccStore.new]⟩
  | put _ room key value lease sound =>
    rcases MvccStore.put_state room key value lease with same | ⟨kv, rfl, writes, same⟩
    · rw [same]
      exact sound.skip room
    · rw [same]
      exact sound.afterPut room writes
  | deleteRange _ room start stop sound =>
    rcases MvccStore.deleteRange_state room start stop with same | ⟨keys, same⟩
    · rw [same]
      exact sound.skip room
    · rw [same]
      exact sound.afterDelete room keys
  | @compact s _ revision sound =>
    by_cases le : revision ≤ s.currentRevision
    · rw [MvccStore.compact_apply le]
      exact sound.afterCompact le
    · rw [MvccStore.compact_future (not_le.mp le)]
      exact sound

/-! ### Calls on a sound store return -/

/-- Nothing that a reached store holds makes a read panic. -/
theorem fetch_returns (sound : Sound s) (isCurrent : Bool) (q : Int) (key : Bytes) (rev : Revision) :
    ∃ record, s.fetch isCurrent q key rev = .ok record := by
  unfold fetch
  cases isCurrent with
  | true =>
    cases found : s.backend.get .kv key with
    | none => exact ⟨none, rfl⟩
    | some data =>
      have long := sound.stored key data found
      simp only [if_true, KeyValue.decode, if_neg (show ¬ data.length < 32 by omega),
        if_neg (show ¬ data.length < 36 by omega)]
      split_ifs <;> exact ⟨_, rfl⟩
  | false =>
    cases s.backend.get .kvRev (revKey rev.main key) with
    | none => exact ⟨none, rfl⟩
    | some data =>
      simp only [Bool.false_eq_true, if_false, KeyValue.decodeWithKey]
      split_ifs <;> exact ⟨_, rfl⟩

theorem rangeLoop_returns (sound : Sound s) (isCurrent : Bool) (q limit : Int)
    (keys : List (Bytes × Revision)) (kvs : List KeyValue) :
    ∃ found, s.rangeLoop isCurrent q limit false keys kvs = .ok found := by
  induction keys generalizing kvs with
  | nil => exact ⟨kvs, rfl⟩
  | cons e rest ih =>
    obtain ⟨key, rev⟩ := e
    obtain ⟨record, fetched⟩ := sound.fetch_returns isCurrent q key rev
    rw [rangeLoop]
    by_cases full : limit > 0 ∧ limit.toNat ≤ kvs.length
    · exact ⟨kvs, if_pos full⟩
    · rw [if_neg full, if_neg Bool.false_ne_true, fetched]
      cases record with
      | none => exact ih kvs
      | some kv => exact ih (kvs ++ [kv])

theorem range_count (sound : Sound s) {start stop : Bytes}
    (accepts : KeyIndex.Accepts s.keyIndex.held start stop)
    (r limit : Int) :
    ∃ kvs more, s.range start stop r limit false = .ok ⟨kvs, more,
      (s.keyIndex.keysIn start stop (if r ≤ 0 then s.currentRevision else r)).length⟩ := by
  obtain ⟨kvs, found⟩ := sound.rangeLoop_returns (decide (r ≤ 0) || decide (r ≥ s.currentRevision))
    (if r ≤ 0 then s.currentRevision else r) limit
    (s.keyIndex.keysIn start stop (if r ≤ 0 then s.currentRevision else r)) []
  refine ⟨kvs, limit > 0 && (s.keyIndex.keysIn start stop
    (if r ≤ 0 then s.currentRevision else r)).length > kvs.length, ?_⟩
  simp only [range, KeyIndex.range_eq accepts, found, Outcome.map]

/-- A sound store reads each key without a panic. -/
theorem readRecord_returns (sound : Sound s) (key : Bytes) :
    ∃ prevKv, readRecord key (s.backend.get .kv key) = .ok prevKv := by
  cases found : s.backend.get .kv key with
  | none => exact ⟨none, rfl⟩
  | some data =>
    have long := sound.stored key data found
    have decodes : KeyValue.decode key data ≠ .panic := by
      simp only [KeyValue.decode, if_neg (show ¬ data.length < 32 by omega),
        if_neg (show ¬ data.length < 36 by omega)]
      split_ifs <;> simp
    rw [readRecord]
    cases decoded : KeyValue.decode key data with
    | ok kv => exact ⟨some kv, rfl⟩
    | err e => exact ⟨none, rfl⟩
    | panic => exact absurd decoded decodes

/-- The version of a record that the store holds can be counted up. -/
theorem nextVersion_returns (sound : Sound s) {key : Bytes} {prevKv : Option KeyValue}
    (record : readRecord key (s.backend.get .kv key) = .ok prevKv) (t : MvccStore) :
    ∃ version, (nextVersion prevKv).run t = (.ok version, t) := by
  have fits := sound.fits
  cases prevKv with
  | none => exact ⟨1, rfl⟩
  | some prev =>
    obtain ⟨data, found, decoded⟩ := decode_of_readRecord record
    have bounded : prev.version + 1 < 2 ^ 63 := by
      have := (sound.records key data prev found decoded).version
      omega
    exact ⟨prev.version + 1, by rw [nextVersion, increment, if_pos bounded]; rfl⟩

/-- **A `put` with room returns**, with the record that it wrote. -/
theorem put_run (sound : Sound s) (room : s.currentRevision + 1 < 2 ^ 63) (key value : Bytes)
    (lease : Int) :
    ∃ kv prevKv, (MvccStore.put key value lease).run s =
        (.ok (s.currentRevision + 1, kv, prevKv), s.afterPut kv) ∧
      s.Writes kv ∧ kv.key = key ∧ kv.value = value ∧ kv.lease = lease := by
  obtain ⟨prevKv, record⟩ := sound.readRecord_returns key
  obtain ⟨version, versioned⟩ := sound.nextVersion_returns record
    { s with currentRevision := s.currentRevision + 1 }
  have recorded := latestRecord_run key { s with currentRevision := s.currentRevision + 1 }
  simp only [record] at recorded
  rw [MvccStore.put, Exec.run_bind_ok (nextRevision_apply room), Exec.run_bind_ok recorded,
    Exec.run_bind_ok versioned]
  exact ⟨_, prevKv, rfl, writes_of_run value lease record versioned, rfl, rfl, rfl⟩

theorem put_returns (sound : Sound s) (room : s.currentRevision + 1 < 2 ^ 63) (key value : Bytes)
    (lease : Int) :
    ∃ result s', (MvccStore.put key value lease).run s = (.ok result, s') ∧
      s'.currentRevision = s.currentRevision + 1 := by
  obtain ⟨kv, prevKv, returned, -⟩ := sound.put_run room key value lease
  exact ⟨_, _, returned, rfl⟩

theorem collectDeleted_returns (sound : Sound s) (keys : List (Bytes × Revision))
    {t : MvccStore} (same : t.backend = s.backend) :
    ∃ found, (collectDeleted keys).run t = (.ok found, t) := by
  induction keys with
  | nil => exact ⟨[], rfl⟩
  | cons e rest ih =>
    obtain ⟨key, rev⟩ := e
    obtain ⟨others, tail⟩ := ih
    obtain ⟨kv, record⟩ := sound.readRecord_returns key
    have first := latestRecord_run key t
    rw [same, record] at first
    rw [collectDeleted, Exec.run_bind_ok first, Exec.run_bind_ok tail]
    exact ⟨_, rfl⟩

/-- **A `delete_range` with room returns** if the index takes its interval: records of the `kv` tree, in
key order. -/
theorem deleteRange_run (sound : Sound s) (room : s.currentRevision + 1 < 2 ^ 63)
    {start stop : Bytes} (accepts : KeyIndex.Accepts s.keyIndex.held start stop) :
    ∃ deleted : List KeyValue, (MvccStore.deleteRange start stop).run s =
        (.ok (s.currentRevision + 1, deleted), s.afterDelete (deleted.map KeyValue.key)) ∧
      (deleted.map KeyValue.key).Pairwise (· < ·) ∧
      ∀ kv ∈ deleted, (s.backend.get .kv kv.key).isSome := by
  obtain ⟨found, collected⟩ := sound.collectDeleted_returns
    (s.keyIndex.keysIn start stop (s.currentRevision + 1))
    (t := { s with currentRevision := s.currentRevision + 1 }) rfl
  have ascending := List.pairwise_map.mpr
    (s.keyIndex.keysIn_ascending start stop (s.currentRevision + 1))
  have answered := (collectDeleted_answer collected).2
  have keys : (found.map Prod.snd).map KeyValue.key = found.map Prod.fst := by
    rw [List.map_map]
    refine List.map_congr_left fun e member => ?_
    obtain ⟨data, -, decoded⟩ := answered e member
    exact KeyValue.key_of_decode decoded
  refine ⟨found.map Prod.snd, ?_, ?_, fun kv member => ?_⟩
  · rw [MvccStore.deleteRange, Exec.run_bind_ok (nextRevision_apply room),
      Exec.run_bind_ok (indexRange_apply (s := { s with currentRevision := s.currentRevision + 1 }) accepts _),
      Exec.run_bind_ok collected, keys]
    rfl
  · rw [keys]
    exact ascending.sublist (collectDeleted_sublist collected)
  · obtain ⟨e, listed, rfl⟩ := List.mem_map.mp member
    obtain ⟨data, stored, decoded⟩ := answered e listed
    rw [KeyValue.key_of_decode decoded]
    exact Option.isSome_iff_exists.mpr ⟨data, stored⟩

theorem deleteRange_returns (sound : Sound s) (room : s.currentRevision + 1 < 2 ^ 63)
    {start stop : Bytes} (accepts : KeyIndex.Accepts s.keyIndex.held start stop) :
    ∃ result s', (MvccStore.deleteRange start stop).run s = (.ok result, s') ∧
      s'.currentRevision = s.currentRevision + 1 := by
  obtain ⟨deleted, returned, -⟩ := sound.deleteRange_run room accepts
  exact ⟨_, _, returned, rfl⟩

end Sound

end Rusd
