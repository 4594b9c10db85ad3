/-
**The MVCC store** (`storage/mvcc.rs`).

`put` and `deleteRange` allocate a revision, write the `kv` and `kv_rev` trees and then the key
index; `range` reads the index and then one of the two trees, depending on whether the revision
asked for is the current one. Backend calls do not fail here; what remains is the panics of the
source: an inverted interval in `BTreeMap::range` (of a map that has held a key), a short record in
`KeyValue::decode`, and a counter that leaves the 64-bit range (the additions are checked ones).
-/

import Rusd.Lib.Exec
import Rusd.Storage.KeyValue
import Rusd.Storage.Index
import Rusd.Storage.Backend

namespace Rusd

/-- The store: the trees on disk, the two revision counters, the key index. -/
structure MvccStore where
  backend : Backend
  currentRevision : Int
  compactRevision : Int
  keyIndex : KeyIndex

/-- The result of a range query. -/
structure RangeResult where
  kvs : List KeyValue
  more : Bool
  count : Nat
  deriving DecidableEq, Repr

/-- Calls on a store. -/
abbrev StoreM := Exec MvccStore StorageError

namespace MvccStore

/-- A store over an existing backend: an empty index, and the counters at their start values. -/
def new (backend : Backend) : MvccStore where
  backend := backend
  currentRevision := 1
  compactRevision := 0
  keyIndex := .new

/-- `x + 1` on `i64`. -/
def increment (x : Int) : StoreM Int := if x + 1 < 2 ^ 63 then pure (x + 1) else Exec.crash

/-- Increments and returns the next revision. -/
def nextRevision : StoreM Int := do
  let previous ← Exec.read fun s => s.currentRevision
  -- `fetch_add` wraps; the addition to its result is the checked one
  Exec.update fun s =>
    { s with currentRevision := if previous + 1 < 2 ^ 63 then previous + 1 else -2 ^ 63 }
  increment previous

/-- A `kv_rev` key: the revision in big-endian bytes, then the key. -/
def revKey (revision : Int) (key : Bytes) : Bytes := i64ToBe revision ++ key

/-- The record a `put` writes over `prevKv`. -/
def newRecord (key value : Bytes) (lease newRevision version : Int) (prevKv : Option KeyValue) :
    KeyValue where
  key := key
  createRevision :=
    if version = 1 then newRevision else (prevKv.map fun kv => kv.createRevision).getD newRevision
  modRevision := newRevision
  version := version
  value := value
  lease := lease

/-- The record of a key in the `kv` tree, if it is there and readable. -/
def latestRecord (key : Bytes) : StoreM (Option KeyValue) where
  run s := match s.backend.get .kv key with
    | none => (.ok none, s)
    | some data => (Exec.attempt (KeyValue.decode key data)).run s

/-- The version of the record that replaces `prevKv`. -/
def nextVersion : Option KeyValue → StoreM Int
  | none => pure 1
  | some kv => increment kv.version

/-- Stores a key-value pair, returning the revision, the new record and the previous one. -/
def put (key value : Bytes) (lease : Int) : StoreM (Int × KeyValue × Option KeyValue) := do
  let newRevision ← nextRevision
  let prevKv ← latestRecord key
  let version ← nextVersion prevKv
  let kv := newRecord key value lease newRevision version prevKv
  Exec.update fun s => { s with backend := s.backend.put .kv key kv.encode }
  Exec.update fun s =>
    { s with backend := s.backend.put .kvRev (revKey newRevision key) kv.encodeWithKey }
  Exec.update fun s => { s with keyIndex := s.keyIndex.put key ⟨newRevision, 0⟩ }
  pure (newRevision, kv, prevKv)

/-- The tombstone a deletion leaves in `kv_rev`. -/
def tombstoneRecord (newRevision : Int) (key : Bytes) : KeyValue where
  key := key
  createRevision := 0
  modRevision := newRevision
  version := 0
  value := []
  lease := 0

/-- `KeyIndex::range` on the store's index, at the revision the caller passes. -/
def indexRange (start stop : Bytes) (revision : MvccStore → Int) :
    StoreM (List (Bytes × Revision)) where
  run s := match s.keyIndex.range start stop (revision s) with
    | some keys => (.ok keys, s)
    | none => (.panic, s)

/-- The first loop of `delete_range`: the keys that have a readable record, with that record. -/
def collectDeleted : List (Bytes × Revision) → StoreM (List (Bytes × KeyValue))
  | [] => pure []
  | (key, _) :: rest => do
    let kv ← latestRecord key
    let others ← collectDeleted rest
    pure ((kv.map fun kv => (key, kv)).toList ++ others)

/-- One round of the second loop of `delete_range`: the key leaves `kv`, its tombstone enters
`kv_rev`. -/
def removeKey (newRevision : Int) (b : Backend) (key : Bytes) : Backend :=
  (b.delete .kv key).put .kvRev (revKey newRevision key)
    (tombstoneRecord newRevision key).encodeWithKey

/-- Deletes a range of keys, returning the revision and the deleted records. -/
def deleteRange (start stop : Bytes) : StoreM (Int × List KeyValue) := do
  let newRevision ← nextRevision
  let rangeKeys ← indexRange start stop fun s => s.currentRevision
  let found ← collectDeleted rangeKeys
  let keysToDelete := found.map Prod.fst
  Exec.update fun s =>
    { s with backend := keysToDelete.foldl (removeKey newRevision) s.backend }
  Exec.update fun s =>
    { s with keyIndex := s.keyIndex.tombstones keysToDelete ⟨newRevision, 0⟩ }
  pure (newRevision, found.map Prod.snd)

/-- The record a range query reads for one key of the index: the latest one for a current read,
the one at the indexed revision for a historical read. -/
def fetch (s : MvccStore) (isCurrent : Bool) (queryRevision : Int) (key : Bytes) (rev : Revision) :
    Outcome StorageError (Option KeyValue) :=
  if isCurrent then
    match s.backend.get .kv key with
    | none => .ok none
    | some data =>
      match KeyValue.decode key data with
      | .ok kv =>
        .ok (if kv.createRevision ≤ queryRevision ∧ kv.modRevision ≤ queryRevision then some kv
          else none)
      | .err _ => .ok none
      | .panic => .panic
  else
    match s.backend.get .kvRev (revKey rev.main key) with
    | none => .ok none
    | some data =>
      match KeyValue.decodeWithKey data with
      | .ok kv => .ok (some kv)
      | .err _ => .ok none
      | .panic => .panic

/-- The loop of a range query over the keys of the index. -/
def rangeLoop (s : MvccStore) (isCurrent : Bool) (queryRevision limit : Int) (countOnly : Bool) :
    List (Bytes × Revision) → List KeyValue → Outcome StorageError (List KeyValue)
  | [], kvs => .ok kvs
  | (key, rev) :: rest, kvs =>
    if limit > 0 ∧ limit.toNat ≤ kvs.length then .ok kvs
    else if countOnly then rangeLoop s isCurrent queryRevision limit countOnly rest kvs
    else
      match s.fetch isCurrent queryRevision key rev with
      | .ok (some kv) => rangeLoop s isCurrent queryRevision limit countOnly rest (kvs ++ [kv])
      | .ok none => rangeLoop s isCurrent queryRevision limit countOnly rest kvs
      | .err e => .err e
      | .panic => .panic

/-- A range query at a revision; 0 or less is the current one. -/
def range (s : MvccStore) (start stop : Bytes) (revision limit : Int) (countOnly : Bool) :
    Outcome StorageError RangeResult :=
  let queryRevision := if revision ≤ 0 then s.currentRevision else revision
  let isCurrent := revision ≤ 0 || revision ≥ s.currentRevision
  match s.keyIndex.range start stop queryRevision with
  | none => .panic
  | some keys =>
    (s.rangeLoop isCurrent queryRevision limit countOnly keys []).map fun kvs =>
      { kvs := kvs, more := limit > 0 && keys.length > kvs.length, count := keys.length }

/-- Compacts the store up to a revision. -/
def compact (revision : Int) : StoreM Unit := do
  let current ← Exec.read fun s => s.currentRevision
  if revision > current then Exec.throw (.mvcc "Cannot compact to future revision")
  else
    Exec.update fun s => { s with compactRevision := revision }
    Exec.update fun s => { s with keyIndex := s.keyIndex.compact revision }
    Exec.update fun s => { s with backend := s.backend.compact revision }

/-! ### What a call does when it returns -/

variable {s s' : MvccStore}

theorem nextRevision_apply (room : s.currentRevision + 1 < 2 ^ 63) :
    nextRevision.run s = (.ok (s.currentRevision + 1),
      { s with currentRevision := s.currentRevision + 1 }) := by
  unfold nextRevision increment
  rw [Exec.run_bind_ok (Exec.run_read _ _), Exec.run_bind_ok (Exec.run_update _ _), if_pos room,
    if_pos room]
  rfl

theorem nextRevision_panic (full : ¬ s.currentRevision + 1 < 2 ^ 63) :
    nextRevision.run s = (.panic, { s with currentRevision := -2 ^ 63 }) := by
  unfold nextRevision increment
  rw [Exec.run_bind_ok (Exec.run_read _ _), Exec.run_bind_ok (Exec.run_update _ _), if_neg full,
    if_neg full]
  rfl

/-- What a call reads under a key of the `kv` tree. -/
def readRecord (key : Bytes) : Option Bytes → Outcome StorageError (Option KeyValue)
  | none => .ok none
  | some data =>
    match KeyValue.decode key data with
    | .ok kv => .ok (some kv)
    | .err _ => .ok none
    | .panic => .panic

theorem latestRecord_run (key : Bytes) (s : MvccStore) :
    (latestRecord key).run s = (readRecord key (s.backend.get .kv key), s) := by
  unfold latestRecord readRecord
  cases found : s.backend.get .kv key with
  | none => simp only [found]
  | some data => cases decoded : KeyValue.decode key data <;> simp only [found, decoded] <;> rfl

theorem nextVersion_run (prevKv : Option KeyValue) (s : MvccStore) :
    ∃ o, (nextVersion prevKv).run s = (o, s) := by
  cases prevKv with
  | none => exact ⟨_, rfl⟩
  | some kv =>
    rw [nextVersion, increment]
    by_cases room : kv.version + 1 < 2 ^ 63
    · rw [if_pos room]
      exact ⟨_, rfl⟩
    · rw [if_neg room]
      exact ⟨_, rfl⟩

/-- The store after a `put` of the record `kv`. -/
def afterPut (s : MvccStore) (kv : KeyValue) : MvccStore where
  backend := (s.backend.put .kv kv.key kv.encode).put .kvRev (revKey (s.currentRevision + 1) kv.key)
    kv.encodeWithKey
  currentRevision := s.currentRevision + 1
  compactRevision := s.compactRevision
  keyIndex := s.keyIndex.put kv.key ⟨s.currentRevision + 1, 0⟩

/-- **A `put` over a readable previous record** (or none). -/
theorem put_apply {key : Bytes} (value : Bytes) (lease : Int)
    (room : s.currentRevision + 1 < 2 ^ 63) {prevKv : Option KeyValue}
    (readable : ∀ data, s.backend.get .kv key = some data →
      ∃ kv, KeyValue.decode key data = .ok kv ∧ prevKv = some kv ∧ kv.version + 1 < 2 ^ 63)
    (absent : s.backend.get .kv key = none → prevKv = none) :
    (put key value lease).run s =
      (.ok (s.currentRevision + 1,
          newRecord key value lease (s.currentRevision + 1)
            ((prevKv.map fun kv => kv.version + 1).getD 1) prevKv, prevKv),
        s.afterPut (newRecord key value lease (s.currentRevision + 1)
            ((prevKv.map fun kv => kv.version + 1).getD 1) prevKv)) := by
  have previous : (latestRecord key).run { s with currentRevision := s.currentRevision + 1 } =
      (.ok prevKv, { s with currentRevision := s.currentRevision + 1 }) := by
    rw [latestRecord_run]
    cases found : s.backend.get .kv key with
    | none => rw [absent found]; rfl
    | some data =>
      obtain ⟨kv, decoded, rfl, _⟩ := readable data found
      simp only [readRecord, decoded]
  have version : (nextVersion prevKv).run { s with currentRevision := s.currentRevision + 1 } =
      (.ok ((prevKv.map fun kv => kv.version + 1).getD 1),
        { s with currentRevision := s.currentRevision + 1 }) := by
    cases found : s.backend.get .kv key with
    | none => rw [absent found]; rfl
    | some data =>
      obtain ⟨kv, _, rfl, bounded⟩ := readable data found
      rw [nextVersion, increment, if_pos bounded]
      rfl
  unfold put
  rw [Exec.run_bind_ok (nextRevision_apply room), Exec.run_bind_ok previous,
    Exec.run_bind_ok version, Exec.run_bind_ok (Exec.run_update _ _),
    Exec.run_bind_ok (Exec.run_update _ _), Exec.run_bind_ok (Exec.run_update _ _)]
  rfl

theorem put_panic (full : ¬ s.currentRevision + 1 < 2 ^ 63) (key value : Bytes) (lease : Int) :
    (put key value lease).run s = (.panic, { s with currentRevision := -2 ^ 63 }) := by
  rw [put, Exec.run_bind_panic (nextRevision_panic full)]

theorem deleteRange_panic (full : ¬ s.currentRevision + 1 < 2 ^ 63) (start stop : Bytes) :
    (deleteRange start stop).run s = (.panic, { s with currentRevision := -2 ^ 63 }) := by
  rw [deleteRange, Exec.run_bind_panic (nextRevision_panic full)]

theorem collectDeleted_apply {keys : List (Bytes × Revision)} {record : Bytes → KeyValue}
    (readable : ∀ e ∈ keys, ∃ data, s.backend.get .kv e.1 = some data ∧
      KeyValue.decode e.1 data = .ok (record e.1)) :
    (collectDeleted keys).run s = (.ok (keys.map fun e => (e.1, record e.1)), s) := by
  induction keys with
  | nil => rfl
  | cons e rest ih =>
    obtain ⟨key, rev⟩ := e
    obtain ⟨data, found, decoded⟩ := readable (key, rev) List.mem_cons_self
    have first : (latestRecord key).run s = (.ok (some (record key)), s) := by
      simp only [latestRecord_run, found, readRecord, decoded]
    rw [collectDeleted, Exec.run_bind_ok first,
      Exec.run_bind_ok (ih fun e member => readable e (List.mem_cons_of_mem _ member))]
    rfl

theorem indexRange_apply {start stop : Bytes} (accepts : KeyIndex.Accepts s.keyIndex.held start stop)
    (revision : MvccStore → Int) :
    (indexRange start stop revision).run s = (.ok (s.keyIndex.keysIn start stop (revision s)), s) := by
  simp only [indexRange, KeyIndex.range_eq accepts]

/-- The store after the deletion of `keys`. -/
def afterDelete (s : MvccStore) (keys : List Bytes) : MvccStore where
  backend := keys.foldl (removeKey (s.currentRevision + 1)) s.backend
  currentRevision := s.currentRevision + 1
  compactRevision := s.compactRevision
  keyIndex := s.keyIndex.tombstones keys ⟨s.currentRevision + 1, 0⟩

theorem get_kv_foldl_removeKey (revision : Int) (keys : List Bytes) (b : Backend) (key : Bytes) :
    (keys.foldl (removeKey revision) b).get .kv key =
      if key ∈ keys then none else b.get .kv key := by
  induction keys generalizing b with
  | nil => simp
  | cons first rest ih =>
    rw [List.foldl_cons, ih, removeKey, Backend.get_put, Backend.get_delete]
    by_cases same : key = first <;> by_cases later : key ∈ rest <;> simp [same, later]

/-- The tombstones of a deletion lie under its own revision. -/
theorem get_kvRev_foldl_removeKey {revision : Int} {keys : List Bytes} (b : Backend) {at_ : Bytes}
    (apart : ∀ key, at_ ≠ revKey revision key) :
    (keys.foldl (removeKey revision) b).get .kvRev at_ = b.get .kvRev at_ := by
  induction keys generalizing b with
  | nil => rfl
  | cons first rest ih =>
    rw [List.foldl_cons, ih, removeKey, Backend.get_put, if_neg (fun both => apart first both.2),
      Backend.get_delete, if_neg (by simp)]

/-- Under its own revision, a deletion leaves the tombstones of its keys. -/
theorem get_tombstone_foldl_removeKey (revision : Int) (keys : List Bytes) (b : Backend) (key : Bytes) :
    (keys.foldl (removeKey revision) b).get .kvRev (revKey revision key) =
      if key ∈ keys then some (tombstoneRecord revision key).encodeWithKey
      else b.get .kvRev (revKey revision key) := by
  induction keys generalizing b with
  | nil => simp
  | cons first rest ih =>
    rw [List.foldl_cons, ih]
    by_cases later : key ∈ rest
    · rw [if_pos later, if_pos (List.mem_cons_of_mem _ later)]
    by_cases same : key = first
    · rw [if_neg later, same, if_pos List.mem_cons_self, removeKey, Backend.get_put, if_pos ⟨rfl, rfl⟩]
    · have apart : revKey revision key ≠ revKey revision first :=
        fun equal => same (List.append_cancel_left equal)
      rw [if_neg later, if_neg (by simp [same, later]), removeKey, Backend.get_put,
        if_neg (fun both => apart both.2), Backend.get_delete, if_neg (by simp)]

/-- A `kv_rev` record after a deletion: an old one, or a tombstone of the deletion. -/
theorem old_or_tombstone {revision : Int} {keys : List Bytes} {b : Backend} {k data : Bytes}
    (found : (keys.foldl (removeKey revision) b).get .kvRev k = some data) :
    b.get .kvRev k = some data ∨ ∃ key ∈ keys, k = revKey revision key ∧
      data = (tombstoneRecord revision key).encodeWithKey := by
  induction keys generalizing b with
  | nil => exact Or.inl found
  | cons key keys ih =>
    rcases ih found with found | ⟨later, member, isKey, isData⟩
    · rw [removeKey, Backend.get_put] at found
      split_ifs at found with written
      · exact Or.inr ⟨key, List.mem_cons_self, written.2, (Option.some.inj found).symm⟩
      · rw [Backend.get_delete, if_neg (by simp)] at found
        exact Or.inl found
    · exact Or.inr ⟨later, List.mem_cons_of_mem _ member, isKey, isData⟩

/-- **A `delete_range` of readable records.** -/
theorem deleteRange_apply {start stop : Bytes} (accepts : KeyIndex.Accepts s.keyIndex.held start stop)
    (room : s.currentRevision + 1 < 2 ^ 63) (record : Bytes → KeyValue)
    (readable : ∀ e ∈ s.keyIndex.keysIn start stop (s.currentRevision + 1),
      ∃ data, s.backend.get .kv e.1 = some data ∧ KeyValue.decode e.1 data = .ok (record e.1)) :
    (deleteRange start stop).run s =
      (.ok (s.currentRevision + 1,
          (s.keyIndex.keysIn start stop (s.currentRevision + 1)).map fun e => record e.1),
        s.afterDelete ((s.keyIndex.keysIn start stop (s.currentRevision + 1)).map Prod.fst)) := by
  unfold deleteRange
  have collected : (collectDeleted (s.keyIndex.keysIn start stop (s.currentRevision + 1))).run
      { s with currentRevision := s.currentRevision + 1 } =
      (.ok ((s.keyIndex.keysIn start stop (s.currentRevision + 1)).map fun e => (e.1, record e.1)),
        { s with currentRevision := s.currentRevision + 1 }) :=
    collectDeleted_apply (s := { s with currentRevision := s.currentRevision + 1 }) readable
  rw [Exec.run_bind_ok (nextRevision_apply room), Exec.run_bind_ok
      (indexRange_apply (s := { s with currentRevision := s.currentRevision + 1 }) accepts _),
    Exec.run_bind_ok collected, Exec.run_bind_ok (Exec.run_update _ _),
    Exec.run_bind_ok (Exec.run_update _ _)]
  simp only [List.map_map, Exec.run_pure]
  rfl

/-! ### The loop of a range query -/

/-- The read of one record depends on the store only through the record. -/
theorem rangeLoop_congr {isCurrent : Bool} {queryRevision limit : Int} {countOnly : Bool}
    {keys : List (Bytes × Revision)}
    (same : ∀ e ∈ keys, s.fetch isCurrent queryRevision e.1 e.2 =
      s'.fetch isCurrent queryRevision e.1 e.2) (kvs : List KeyValue) :
    s.rangeLoop isCurrent queryRevision limit countOnly keys kvs =
      s'.rangeLoop isCurrent queryRevision limit countOnly keys kvs := by
  induction keys generalizing kvs with
  | nil => rfl
  | cons e rest ih =>
    obtain ⟨key, rev⟩ := e
    have tail := fun kvs => ih (fun e member => same e (List.mem_cons_of_mem _ member)) kvs
    unfold rangeLoop
    rw [same (key, rev) List.mem_cons_self]
    simp only [tail]

/-- A range query depends on the backend, the counter, whether the index takes the interval and
what it finds there. -/
theorem range_congr {start stop : Bytes} {r limit : Int} {countOnly : Bool}
    (backend : s.backend = s'.backend) (current : s.currentRevision = s'.currentRevision)
    (taken : KeyIndex.Accepts s.keyIndex.held start stop ↔ KeyIndex.Accepts s'.keyIndex.held start stop)
    (index : ∀ key, s.keyIndex.get key (if r ≤ 0 then s.currentRevision else r) =
      s'.keyIndex.get key (if r ≤ 0 then s.currentRevision else r)) :
    s.range start stop r limit countOnly = s'.range start stop r limit countOnly := by
  rw [range, range, ← current]
  have fetches : ∀ isCurrent q key rev, s.fetch isCurrent q key rev = s'.fetch isCurrent q key rev := by
    intro isCurrent q key rev
    unfold fetch
    rw [backend]
  have loops : ∀ isCurrent q keys, s.rangeLoop isCurrent q limit countOnly keys [] =
      s'.rangeLoop isCurrent q limit countOnly keys [] :=
    fun isCurrent q keys => rangeLoop_congr (fun e _ => fetches isCurrent q e.1 e.2) []
  by_cases accepts : KeyIndex.Accepts s.keyIndex.held start stop
  · rw [KeyIndex.range_eq accepts, KeyIndex.range_eq (taken.mp accepts),
      KeyIndex.keysIn_congr fun key _ => index key]
    simp only [loops]
  · rw [KeyIndex.range_eq_none accepts, KeyIndex.range_eq_none fun other => accepts (taken.mpr other)]

/-- A range query over an interval that the index refuses panics. -/
theorem range_refused {start stop : Bytes} (refused : ¬ KeyIndex.Accepts s.keyIndex.held start stop)
    (r limit : Int) (countOnly : Bool) : s.range start stop r limit countOnly = .panic := by
  simp only [range, KeyIndex.range_eq_none refused]

/-- A range query over an inverted interval panics, unless the store has never held a key. -/
theorem range_inverted {start stop : Bytes} (inverted : ¬ KeyIndex.ValidRange start stop) (r limit : Int)
    (countOnly : Bool) : s.range start stop r limit countOnly =
      if s.keyIndex.held then .panic else .ok ⟨[], false, 0⟩ := by
  split_ifs with held
  · exact range_refused (mt (KeyIndex.Accepts.iff_of_held held).mp inverted) r limit countOnly
  · have never := Bool.eq_false_iff.mpr held
    simp only [range, KeyIndex.range_eq (.of_not_held never),
      KeyIndex.keysIn_of_not_held never, rangeLoop, Outcome.map, List.length_nil, gt_iff_lt,
      lt_self_iff_false, decide_false, Bool.and_false]

/-- A range query that returned was over an interval that the index takes. -/
theorem accepts_of_range {start stop : Bytes} {r limit : Int} {countOnly : Bool}
    {result : RangeResult} (returned : s.range start stop r limit countOnly = .ok result) :
    KeyIndex.Accepts s.keyIndex.held start stop := by
  by_contra refused
  rw [range_refused refused] at returned
  cases returned

/-- A record that is not readable is skipped. -/
theorem fetch_ne_err (isCurrent : Bool) (queryRevision : Int) (key : Bytes) (rev : Revision)
    (e : StorageError) : s.fetch isCurrent queryRevision key rev ≠ .err e := by
  unfold fetch
  split_ifs
  · cases s.backend.get .kv key with
    | none => simp
    | some data => cases decoded : KeyValue.decode key data <;> simp [decoded]
  · cases s.backend.get .kvRev (revKey rev.main key) with
    | none => simp
    | some data => cases decoded : KeyValue.decodeWithKey data <;> simp [decoded]

theorem rangeLoop_ne_err {isCurrent : Bool} {queryRevision limit : Int} {countOnly : Bool}
    (keys : List (Bytes × Revision)) (kvs : List KeyValue) (e : StorageError) :
    s.rangeLoop isCurrent queryRevision limit countOnly keys kvs ≠ .err e := by
  induction keys generalizing kvs with
  | nil => exact fun failed => by cases failed
  | cons entry rest ih =>
    obtain ⟨key, rev⟩ := entry
    unfold rangeLoop
    split_ifs
    · simp
    · exact ih kvs
    · cases found : s.fetch isCurrent queryRevision key rev with
      | ok record =>
        cases record with
        | none => exact ih kvs
        | some kv => exact ih (kvs ++ [kv])
      | err other => exact absurd found (fetch_ne_err _ _ _ _ other)
      | panic => simp

/-- **A range query never returns an error.** -/
theorem range_ne_err {start stop : Bytes} {r limit : Int} {countOnly : Bool} (e : StorageError) :
    s.range start stop r limit countOnly ≠ .err e := by
  unfold range
  by_cases accepts : KeyIndex.Accepts s.keyIndex.held start stop
  · have looped : s.rangeLoop (decide (r ≤ 0) || decide (r ≥ s.currentRevision))
        (if r ≤ 0 then s.currentRevision else r) limit countOnly
        (s.keyIndex.keysIn start stop (if r ≤ 0 then s.currentRevision else r)) [] ≠ .err e :=
      rangeLoop_ne_err _ [] e
    simp only [KeyIndex.range_eq accepts]
    cases found : s.rangeLoop (decide (r ≤ 0) || decide (r ≥ s.currentRevision))
        (if r ≤ 0 then s.currentRevision else r) limit countOnly
        (s.keyIndex.keysIn start stop (if r ≤ 0 then s.currentRevision else r)) [] with
    | ok kvs => simp [Outcome.map]
    | err other =>
      rw [found] at looped
      simpa [Outcome.map] using looped
    | panic => simp [Outcome.map]
  · simp only [KeyIndex.range_eq_none accepts, ne_eq, reduceCtorEq, not_false_eq_true]

/-- The count of a range query is that of the index. -/
theorem count_of_range {start stop : Bytes} {r limit : Int} {countOnly : Bool} {result : RangeResult}
    (returned : s.range start stop r limit countOnly = .ok result) :
    result.count =
      (s.keyIndex.keysIn start stop (if r ≤ 0 then s.currentRevision else r)).length := by
  simp only [range, KeyIndex.range_eq (accepts_of_range returned)] at returned
  obtain ⟨kvs, -, rfl⟩ := Outcome.map_eq_ok.mp returned
  rfl

/-- **A query without limit** lists the records it finds. -/
theorem rangeLoop_found {isCurrent : Bool} {queryRevision : Int} {keys : List (Bytes × Revision)}
    (record : Bytes → Option KeyValue)
    (fetched : ∀ e ∈ keys, s.fetch isCurrent queryRevision e.1 e.2 = .ok (record e.1))
    (kvs : List KeyValue) :
    s.rangeLoop isCurrent queryRevision 0 false keys kvs =
      .ok (kvs ++ keys.filterMap fun e => record e.1) := by
  induction keys generalizing kvs with
  | nil => rw [rangeLoop, List.filterMap_nil, List.append_nil]
  | cons e rest ih =>
    obtain ⟨key, rev⟩ := e
    have first := fetched (key, rev) List.mem_cons_self
    have tail := ih fun e member => fetched e (List.mem_cons_of_mem _ member)
    simp only at first
    unfold rangeLoop
    simp only [gt_iff_lt, lt_self_iff_false, false_and, if_false, Bool.false_eq_true, first,
      List.filterMap_cons]
    cases record key with
    | none => exact tail kvs
    | some kv =>
      simp only
      rw [tail, List.append_assoc, List.singleton_append]

/-- A query without limit over readable records lists them all. -/
theorem rangeLoop_all {isCurrent : Bool} {queryRevision : Int} {keys : List (Bytes × Revision)}
    (record : Bytes → KeyValue)
    (readable : ∀ e ∈ keys, s.fetch isCurrent queryRevision e.1 e.2 = .ok (some (record e.1)))
    (kvs : List KeyValue) :
    s.rangeLoop isCurrent queryRevision 0 false keys kvs =
      .ok (kvs ++ keys.map fun e => record e.1) := by
  rw [rangeLoop_found (fun key => some (record key)) readable, List.filterMap_eq_map']

/-- The first `limit` elements; 0 or less is no limit. -/
def limited {α : Type} (limit : Int) (elements : List α) : List α :=
  if limit > 0 then elements.take limit.toNat else elements

/-- **A query with a limit over readable records** lists the first ones. -/
theorem rangeLoop_limited {isCurrent : Bool} {queryRevision limit : Int}
    {keys : List (Bytes × Revision)} (record : Bytes → KeyValue)
    (readable : ∀ e ∈ keys, s.fetch isCurrent queryRevision e.1 e.2 = .ok (some (record e.1)))
    {kvs : List KeyValue} (below : limit > 0 → kvs.length ≤ limit.toNat) :
    s.rangeLoop isCurrent queryRevision limit false keys kvs =
      .ok (limited limit (kvs ++ keys.map fun e => record e.1)) := by
  induction keys generalizing kvs with
  | nil =>
    rw [rangeLoop, List.map_nil, List.append_nil, limited]
    split_ifs with bounded
    · rw [List.take_of_length_le (below bounded)]
    · rfl
  | cons e rest ih =>
    obtain ⟨key, rev⟩ := e
    have first := readable (key, rev) List.mem_cons_self
    simp only at first
    unfold rangeLoop
    by_cases reached : limit > 0 ∧ limit.toNat ≤ kvs.length
    · have exactly : kvs.length = limit.toNat := le_antisymm (below reached.1) reached.2
      rw [if_pos reached, limited, if_pos reached.1, ← exactly, List.take_left]
    · rw [if_neg reached, if_neg Bool.false_ne_true, first]
      simp only
      rw [ih (fun e member => readable e (List.mem_cons_of_mem _ member)), List.map_cons,
        List.append_assoc, List.singleton_append]
      intro bounded
      rw [List.length_append, List.length_singleton]
      have open_ := not_and.mp reached bounded
      omega

/-- A query that only counts returns no records. -/
theorem rangeLoop_countOnly {isCurrent : Bool} {queryRevision limit : Int}
    (keys : List (Bytes × Revision)) (kvs : List KeyValue) :
    s.rangeLoop isCurrent queryRevision limit true keys kvs = .ok kvs := by
  induction keys with
  | nil => rfl
  | cons e rest ih =>
    unfold rangeLoop
    rw [if_pos (rfl : true = true), ih, ite_self]

end MvccStore

end Rusd
