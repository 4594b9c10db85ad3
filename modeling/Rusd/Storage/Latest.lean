/-
**The store against the map of its latest records.**

A call on the store is specified on a plain map from keys to records: `put` inserts a record made
from the one that was there, `delete_range` drops an interval.

* `Listed stored live s` — the `kv` tree holds the map `stored`, and the index finds the revision of each
  record of the map `live` at the current revision. A compaction can take a stored record out of the
  index.
* `Listed.put`, `Listed.deleteRange` — what the calls return on such a store, and that it follows
  the maps.
* `Latest live s` — the index lists everything that is stored, and `kv_rev` has each record under its
  revision.
-/

import Rusd.Storage.RevKeys

namespace Rusd

open MvccStore

/-- A mutating call on the store. -/
inductive StoreOp
  | put (key value : Bytes) (lease : Int)
  | deleteRange (start stop : Bytes)
  deriving DecidableEq, Repr

/-- The calls the store is specified for: lengths that fit their prefix, a 64-bit lease, an
interval that is not inverted. -/
def StoreOp.Admissible : StoreOp → Prop
  | .put key value lease => key.length < 2 ^ 32 ∧ value.length < 2 ^ 32 ∧ IsI64 lease
  | .deleteRange start stop => KeyIndex.ValidRange start stop

/-- Run a call; the value is the revision it allocated. -/
def StoreOp.run : StoreOp → StoreM Int
  | .put key value lease => do
    let result ← MvccStore.put key value lease
    pure result.1
  | .deleteRange start stop => do
    let result ← MvccStore.deleteRange start stop
    pure result.1

/-- A store has held a key once a call has put one. -/
def StoreOp.holds (held : Bool) : StoreOp → Bool
  | .put _ _ _ => true
  | .deleteRange _ _ => held

theorem StoreOp.state_deleteRange (s : MvccStore) (start stop : Bytes) :
    ((StoreOp.deleteRange start stop).run.run s).2 = ((MvccStore.deleteRange start stop).run s).2 :=
  Exec.state_bind_pure _ _ _

/-! ### The map -/

/-- The live keys with their records. -/
abbrev RefMap := OrdMap Bytes KeyValue

/-- The record of a key after it is written at `revision`. -/
def refRecord (m : RefMap) (revision : Int) (key value : Bytes) (lease : Int) : KeyValue :=
  match m.get? key with
  | none => ⟨key, revision, revision, 1, value, lease⟩
  | some old => ⟨key, old.createRevision, revision, old.version + 1, value, lease⟩

/-- The meaning of a call at its revision. -/
def applyCall (m : RefMap) (call : Int × StoreOp) : RefMap :=
  match call.2 with
  | .put key value lease => m.insert key (refRecord m call.1 key value lease)
  | .deleteRange start stop => m.filter fun key => ¬ Bytes.InRange start stop key

/-- A map restricted to `[start, stop)`, as the answer to a range query. -/
def rangeOf (m : RefMap) (start stop : Bytes) : RangeResult :=
  let hits := m.entries.filter fun e => Bytes.InRange start stop e.1
  { kvs := hits.map Prod.snd, more := false, count := hits.length }

/-- What a record of the reference map satisfies. -/
structure RecordOk (key : Bytes) (bound : Int) (kv : KeyValue) : Prop where
  key : kv.key = key
  created : 2 ≤ kv.createRevision
  modified : kv.createRevision ≤ kv.modRevision
  bounded : kv.modRevision ≤ bound
  version : 1 ≤ kv.version
  versionBound : kv.version < kv.modRevision
  keyLength : kv.key.length < 2 ^ 32
  valueLength : kv.value.length < 2 ^ 32
  lease : IsI64 kv.lease

theorem RecordOk.encodable {key : Bytes} {bound : Int} {kv : KeyValue} (ok : RecordOk key bound kv)
    (fits : bound < 2 ^ 63) : kv.Encodable := by
  obtain ⟨_, created, modified, bounded, version, versionBound, keyLength, valueLength, lease⟩ := ok
  refine ⟨⟨?_, ?_⟩, ⟨?_, ?_⟩, ⟨?_, ?_⟩, lease, keyLength, valueLength⟩ <;> omega

theorem RecordOk.mono {key : Bytes} {bound higher : Int} {kv : KeyValue}
    (ok : RecordOk key bound kv) (le : bound ≤ higher) : RecordOk key higher kv :=
  { ok with bounded := ok.bounded.trans le }

/-- A record written over a map of such records is one. -/
theorem recordOk_refRecord {m : RefMap} {bound : Int} {key value : Bytes} {lease : Int}
    (positive : 1 ≤ bound) (old : ∀ kv, m.get? key = some kv → RecordOk key bound kv)
    (admissible : (StoreOp.put key value lease).Admissible) :
    RecordOk key (bound + 1) (refRecord m (bound + 1) key value lease) := by
  obtain ⟨keyLength, valueLength, fits⟩ := admissible
  unfold refRecord
  cases found : m.get? key with
  | none => exact ⟨rfl, by simp; omega, le_rfl, le_rfl, le_rfl, by simp; omega, keyLength,
      valueLength, fits⟩
  | some previous =>
    obtain ⟨_, created, modified, bounded, version, versionBound, _, _, _⟩ := old previous found
    exact ⟨rfl, created, by simp; omega, le_rfl, by simp; omega, by simp; omega, keyLength,
      valueLength, fits⟩

@[simp] theorem refRecord_modRevision (m : RefMap) (revision : Int) (key value : Bytes)
    (lease : Int) : (refRecord m revision key value lease).modRevision = revision := by
  unfold refRecord
  cases m.get? key <;> rfl

@[simp] theorem refRecord_key (m : RefMap) (revision : Int) (key value : Bytes)
    (lease : Int) : (refRecord m revision key value lease).key = key := by
  unfold refRecord
  cases m.get? key <;> rfl

@[simp] theorem refRecord_value (m : RefMap) (revision : Int) (key value : Bytes)
    (lease : Int) : (refRecord m revision key value lease).value = value := by
  unfold refRecord
  cases m.get? key <;> rfl

/-- What `put` writes over the record of a map is the record of the next map. -/
theorem newRecord_eq_refRecord {m : RefMap} {key : Bytes}
    (versioned : ∀ kv, m.get? key = some kv → 1 ≤ kv.version) (value : Bytes)
    (lease revision : Int) :
    newRecord key value lease revision (((m.get? key).map fun kv => kv.version + 1).getD 1)
        (m.get? key) = refRecord m revision key value lease := by
  unfold newRecord refRecord
  cases found : m.get? key with
  | none => rfl
  | some previous =>
    have low := versioned previous found
    simp only [Option.map_some, Option.getD_some]
    rw [if_neg (by omega)]

/-- **The index lists the keys of the map**, where it finds the revisions of the map's records. -/
theorem keysIn_eq {index : KeyIndex} {live : RefMap} {r : Int}
    (finds : ∀ key, index.get key r = (live.get? key).map fun kv => ⟨kv.modRevision, 0⟩)
    (start stop : Bytes) :
    index.keysIn start stop r = (live.entries.filter fun e => Bytes.InRange start stop e.1).map
      fun e => (e.1, ⟨e.2.modRevision, 0⟩) := by
  refine OrdMap.eq_of_mem_iff Prod.fst (index.keysIn_ascending start stop r)
    (List.pairwise_map.mpr (live.sorted.filter _)) ?_
  rintro ⟨key, rev⟩
  simp only [KeyIndex.mem_keysIn, finds, List.mem_map, List.mem_filter, decide_eq_true_eq,
    Option.map_eq_some_iff, Prod.mk.injEq, Prod.exists]
  constructor
  · rintro ⟨inside, kv, found, rfl⟩
    exact ⟨key, kv, ⟨OrdMap.mem_entries_iff.mpr found, inside⟩, rfl, rfl⟩
  · rintro ⟨key, kv, ⟨member, inside⟩, rfl, rfl⟩
    exact ⟨inside, kv, OrdMap.mem_entries_iff.mp member, rfl⟩

/-- A scan of the index, each key replaced by its record, is the map restricted to the interval. -/
theorem map_keysIn {index : KeyIndex} {live : RefMap} {r : Int}
    (finds : ∀ key, index.get key r = (live.get? key).map fun kv => ⟨kv.modRevision, 0⟩)
    (start stop : Bytes) :
    (index.keysIn start stop r).map (fun e => (live.get? e.1).getD default) =
      (rangeOf live start stop).kvs := by
  rw [keysIn_eq finds, List.map_map]
  refine List.map_congr_left ?_
  rintro ⟨key, kv⟩ member
  have found := OrdMap.mem_entries_iff.mp (List.mem_filter.mp member).1
  simp only [Function.comp_apply, found, Option.getD_some]

/-! ### The store and the maps -/

/-- **The store holds the records of a map and lists those of another one.** -/
structure Listed (stored live : RefMap) (s : MvccStore) : Prop where
  positive : 1 ≤ s.currentRevision
  fits : s.currentRevision < 2 ^ 63
  indexOk : IndexOk s.currentRevision s.keyIndex
  records : ∀ key kv, stored.get? key = some kv → RecordOk key s.currentRevision kv
  kv : ∀ key, s.backend.get .kv key = (stored.get? key).map KeyValue.encode
  index : ∀ key, s.keyIndex.get key s.currentRevision =
    (live.get? key).map fun kv => ⟨kv.modRevision, 0⟩
  within : ∀ key kv, live.get? key = some kv → stored.get? key = some kv

/-- The keys a `delete_range` removes. -/
def deletedKeys (s : MvccStore) (start stop : Bytes) : List Bytes :=
  (s.keyIndex.keysIn start stop (s.currentRevision + 1)).map Prod.fst

/-- What a deletion leaves in the `kv` tree: the records outside the interval, and the records that the
index does not list. -/
def storedAfter (stored live : RefMap) (start stop : Bytes) : RefMap :=
  stored.filter fun key => ¬ (Bytes.InRange start stop key ∧ (live.get? key).isSome)

/-- No key lies in an inverted interval. -/
theorem not_inRange_of_inverted {start stop : Bytes} (inverted : ¬ KeyIndex.ValidRange start stop)
    (key : Bytes) : ¬ Bytes.InRange start stop key := by
  rintro ⟨low, high⟩
  rcases high with rfl | high
  · exact inverted (Or.inl rfl)
  · exact inverted (Or.inr (low.trans high.le))

/-- A deletion of an inverted interval leaves the map alone. -/
theorem applyCall_inverted {start stop : Bytes} (inverted : ¬ KeyIndex.ValidRange start stop)
    (live : RefMap) (revision : Int) : applyCall live (revision, .deleteRange start stop) = live := by
  refine OrdMap.ext_get? fun key => ?_
  rw [applyCall, OrdMap.get?_filter, if_pos (decide_eq_true (not_inRange_of_inverted inverted key))]

namespace Listed

variable {stored live : RefMap} {s : MvccStore} {key value : Bytes} {lease : Int}
  {start stop : Bytes}

/-- From the current revision on, the index finds the latest records. -/
theorem index_above (listed : Listed stored live s) {r : Int} (current : s.currentRevision ≤ r)
    (key : Bytes) : s.keyIndex.get key r = (live.get? key).map fun kv => ⟨kv.modRevision, 0⟩ := by
  rw [KeyIndex.get_above listed.indexOk current, listed.index]

/-- The stored record of a key, as the `kv` tree gives it back. -/
theorem readable (listed : Listed stored live s) {kv : KeyValue} (found : stored.get? key = some kv) :
    s.backend.get .kv key = some kv.encode ∧ KeyValue.decode key kv.encode = .ok kv := by
  have ok := listed.records key kv found
  refine ⟨by rw [listed.kv, found]; rfl, ?_⟩
  conv_lhs => rw [← ok.key]
  exact KeyValue.decode_encode (ok.encodable listed.fits)

theorem isI64_modRevision (listed : Listed stored live s) {kv : KeyValue}
    (found : stored.get? key = some kv) : IsI64 kv.modRevision :=
  ((listed.records key kv found).encodable listed.fits).modRevision

theorem isI64_next (listed : Listed stored live s) (room : s.currentRevision + 1 < 2 ^ 63) :
    IsI64 (s.currentRevision + 1) := by
  have := listed.positive
  constructor <;> omega

/-- A stored record is not under the next revision. -/
theorem revKey_ne (listed : Listed stored live s) (room : s.currentRevision + 1 < 2 ^ 63)
    {kv : KeyValue} (found : stored.get? key = some kv) (other : Bytes) :
    revKey kv.modRevision key ≠ revKey (s.currentRevision + 1) other := by
  intro same
  have bounded := (listed.records key kv found).bounded
  have equal := (revKey_injective (listed.isI64_modRevision found) (listed.isI64_next room) same).1
  omega

/-! #### A `put` -/

theorem put_run (listed : Listed stored live s) (room : s.currentRevision + 1 < 2 ^ 63)
    (key value : Bytes) (lease : Int) :
    (MvccStore.put key value lease).run s =
      (.ok (s.currentRevision + 1, refRecord stored (s.currentRevision + 1) key value lease,
        stored.get? key), s.afterPut (refRecord stored (s.currentRevision + 1) key value lease)) := by
  rw [← newRecord_eq_refRecord fun kv found => (listed.records key kv found).version]
  refine MvccStore.put_apply value lease room (fun data found => ?_) (fun absent => ?_)
  · cases there : stored.get? key with
    | none =>
      rw [listed.kv, there] at found
      cases found
    | some kv =>
      obtain ⟨held, decoded⟩ := listed.readable there
      rw [held] at found
      cases found
      have ok := listed.records key kv there
      have := ok.versionBound
      have := ok.bounded
      exact ⟨kv, decoded, rfl, by omega⟩
  · rw [listed.kv] at absent
    exact Option.map_eq_none_iff.mp absent

theorem put_kv (listed : Listed stored live s) (key value : Bytes) (lease : Int) (k : Bytes) :
    (s.afterPut (refRecord stored (s.currentRevision + 1) key value lease)).backend.get .kv k =
      ((applyCall stored (s.currentRevision + 1, .put key value lease)).get? k).map
        KeyValue.encode := by
  rw [applyCall, OrdMap.get?_insert, afterPut, Backend.get_put, if_neg (by simp), Backend.get_put,
    refRecord_key]
  by_cases same : k = key
  · simp [same]
  · rw [if_neg (by simp [same]), if_neg same, listed.kv]

theorem put_index (listed : Listed stored live s) {kv : KeyValue} (named : kv.key = key)
    (dated : kv.modRevision = s.currentRevision + 1) (k : Bytes) :
    (s.afterPut kv).keyIndex.get k (s.currentRevision + 1) =
      ((live.insert key kv).get? k).map fun kv => ⟨kv.modRevision, 0⟩ := by
  rw [afterPut, KeyIndex.get_put listed.indexOk _ (by simp), OrdMap.get?_insert, named]
  by_cases same : k = key
  · rw [if_pos ⟨same, le_rfl⟩, if_pos same, Option.map_some, dated]
  · rw [if_neg (fun both => same both.1), if_neg same, listed.index_above (by omega)]

/-- The records of `kv_rev` after a `put`: the one written, and what was there under the others. -/
theorem put_history (listed : Listed stored live s) (room : s.currentRevision + 1 < 2 ^ 63)
    {written : KeyValue} (dated : written.modRevision = s.currentRevision + 1) :
    (s.afterPut written).backend.get .kvRev (revKey written.modRevision written.key) =
        some written.encodeWithKey ∧
      ∀ key kv, stored.get? key = some kv →
        (s.afterPut written).backend.get .kvRev (revKey kv.modRevision key) =
          s.backend.get .kvRev (revKey kv.modRevision key) := by
  constructor
  · rw [afterPut, Backend.get_put, dated, if_pos ⟨rfl, rfl⟩]
  · intro key kv found
    have apart := listed.revKey_ne room found written.key
    rw [afterPut, Backend.get_put, if_neg (fun both => apart both.2), Backend.get_put,
      if_neg (by simp)]

/-- **A `put` that has room** writes its record to both maps. -/
theorem put (listed : Listed stored live s) (admissible : (StoreOp.put key value lease).Admissible)
    (room : s.currentRevision + 1 < 2 ^ 63) :
    Listed (applyCall stored (s.currentRevision + 1, .put key value lease))
      (live.insert key (refRecord stored (s.currentRevision + 1) key value lease))
      (s.afterPut (refRecord stored (s.currentRevision + 1) key value lease)) where
  positive := by
    have := listed.positive
    simp only [afterPut]
    omega
  fits := room
  indexOk := listed.indexOk.put _ (by simp)
  records k kv found := by
    rw [applyCall, OrdMap.get?_insert] at found
    split_ifs at found with same
    · cases found
      subst same
      exact recordOk_refRecord listed.positive (listed.records k) admissible
    · exact (listed.records k kv found).mono (by simp only [afterPut]; omega)
  kv := listed.put_kv key value lease
  index := listed.put_index (by simp) (by simp)
  within k kv found := by
    rw [OrdMap.get?_insert] at found
    rw [applyCall, OrdMap.get?_insert]
    split_ifs at found ⊢ with same
    · exact found
    · exact listed.within k kv found

/-! #### A `delete_range` -/

theorem mem_deletedKeys (listed : Listed stored live s) :
    key ∈ deletedKeys s start stop ↔ Bytes.InRange start stop key ∧ (live.get? key).isSome := by
  simp only [deletedKeys, List.mem_map, Prod.exists, KeyIndex.mem_keysIn, exists_and_right,
    exists_eq_right, exists_and_left, listed.index_above (r := s.currentRevision + 1) (by omega),
    Option.map_eq_some_iff]
  refine and_congr_right fun _ => ?_
  cases live.get? key <;> simp

/-- The keys a deletion removes, in the order of the map. -/
theorem deletedKeys_eq (listed : Listed stored live s) (start stop : Bytes) :
    deletedKeys s start stop =
      (live.entries.filter fun e => Bytes.InRange start stop e.1).map Prod.fst := by
  rw [deletedKeys, keysIn_eq (listed.index_above (by omega)), List.map_map]
  rfl

/-- Dropping the interval from the live map is dropping the keys the store removes. -/
theorem get?_outside (listed : Listed stored live s) (revision : Int) (start stop key : Bytes) :
    (applyCall live (revision, .deleteRange start stop)).get? key =
      if key ∈ deletedKeys s start stop then none else live.get? key := by
  rw [applyCall, OrdMap.get?_filter]
  by_cases inside : Bytes.InRange start stop key
  · cases there : live.get? key <;> simp [inside]
    exact listed.mem_deletedKeys.mpr ⟨inside, by rw [there]; rfl⟩
  · rw [if_pos (by simpa using inside),
      if_neg fun member => inside (listed.mem_deletedKeys.mp member).1]

theorem get?_storedAfter (listed : Listed stored live s) (start stop key : Bytes) :
    (storedAfter stored live start stop).get? key =
      if key ∈ deletedKeys s start stop then none else stored.get? key := by
  rw [storedAfter, OrdMap.get?_filter]
  by_cases removed : Bytes.InRange start stop key ∧ (live.get? key).isSome
  · rw [if_neg (by rw [decide_eq_true_eq]; exact not_not_intro removed),
      if_pos (listed.mem_deletedKeys.mpr removed)]
  · rw [if_pos (decide_eq_true removed),
      if_neg fun member => removed (listed.mem_deletedKeys.mp member)]

/-- Every key that a deletion finds in the index has a record that can be read. -/
theorem readable_deleted (listed : Listed stored live s) (start stop : Bytes) :
    ∀ e ∈ s.keyIndex.keysIn start stop (s.currentRevision + 1),
      ∃ data, s.backend.get .kv e.1 = some data ∧
        KeyValue.decode e.1 data = .ok ((live.get? e.1).getD default) := by
  rintro ⟨key, rev⟩ member
  have there := (listed.mem_deletedKeys.mp (List.mem_map_of_mem (f := Prod.fst) member)).2
  obtain ⟨kv, found⟩ := Option.isSome_iff_exists.mp there
  obtain ⟨held, decoded⟩ := listed.readable (listed.within key kv found)
  exact ⟨kv.encode, held, by rw [decoded, found]; rfl⟩

theorem deleteRange_run (listed : Listed stored live s) (room : s.currentRevision + 1 < 2 ^ 63)
    (accepts : KeyIndex.Accepts s.keyIndex.held start stop) :
    (MvccStore.deleteRange start stop).run s =
      (.ok (s.currentRevision + 1, (rangeOf live start stop).kvs),
        s.afterDelete (deletedKeys s start stop)) := by
  rw [MvccStore.deleteRange_apply accepts room (fun key => (live.get? key).getD default)
      (listed.readable_deleted start stop),
    map_keysIn (listed.index_above (by omega)) start stop]
  rfl

theorem deleteRange_kv (listed : Listed stored live s) (start stop k : Bytes) :
    (s.afterDelete (deletedKeys s start stop)).backend.get .kv k =
      ((storedAfter stored live start stop).get? k).map KeyValue.encode := by
  rw [listed.get?_storedAfter, afterDelete, get_kv_foldl_removeKey, listed.kv]
  by_cases removed : k ∈ deletedKeys s start stop
  · rw [if_pos removed, if_pos removed, Option.map_none]
  · rw [if_neg removed, if_neg removed]

theorem deleteRange_index (listed : Listed stored live s) (revision : Int) (start stop k : Bytes) :
    (s.afterDelete (deletedKeys s start stop)).keyIndex.get k (s.currentRevision + 1) =
      ((applyCall live (revision, .deleteRange start stop)).get? k).map
        fun kv => ⟨kv.modRevision, 0⟩ := by
  rw [afterDelete, KeyIndex.get_tombstones listed.indexOk _ (by simp), listed.get?_outside]
  by_cases removed : k ∈ deletedKeys s start stop
  · rw [if_pos ⟨removed, le_rfl⟩, if_pos removed, Option.map_none]
  · rw [if_neg (fun both => removed both.1), if_neg removed, listed.index_above (by omega)]

/-- A record the deletion leaves was there before. -/
theorem found_of_outside (listed : Listed stored live s) {revision : Int} {kv : KeyValue}
    (found : (applyCall live (revision, .deleteRange start stop)).get? key = some kv) :
    key ∉ deletedKeys s start stop ∧ live.get? key = some kv := by
  rw [listed.get?_outside] at found
  split_ifs at found with removed
  exact ⟨removed, found⟩

theorem stored_of_outside (listed : Listed stored live s) {kv : KeyValue}
    (found : (storedAfter stored live start stop).get? key = some kv) :
    stored.get? key = some kv := by
  rw [listed.get?_storedAfter] at found
  split_ifs at found
  exact found

/-- A deletion leaves the records of `kv_rev` alone. -/
theorem deleteRange_history (listed : Listed stored live s) (room : s.currentRevision + 1 < 2 ^ 63)
    (keys : List Bytes) {kv : KeyValue} (found : stored.get? key = some kv) :
    (s.afterDelete keys).backend.get .kvRev (revKey kv.modRevision key) =
      s.backend.get .kvRev (revKey kv.modRevision key) := by
  rw [afterDelete, get_kvRev_foldl_removeKey _ (listed.revKey_ne room found)]

/-- **A `delete_range` that has room** drops the interval from the live map. -/
theorem deleteRange (listed : Listed stored live s) (room : s.currentRevision + 1 < 2 ^ 63)
    (start stop : Bytes) :
    Listed (storedAfter stored live start stop)
      (applyCall live (s.currentRevision + 1, .deleteRange start stop))
      (s.afterDelete (deletedKeys s start stop)) where
  positive := by
    have := listed.positive
    simp only [afterDelete]
    omega
  fits := room
  indexOk := KeyIndex.IndexOk_tombstones listed.indexOk _ (by simp)
  records k kv found :=
    (listed.records k kv (listed.stored_of_outside found)).mono (by simp only [afterDelete]; omega)
  kv := listed.deleteRange_kv start stop
  index := listed.deleteRange_index _ start stop
  within k kv found := by
    obtain ⟨kept, before⟩ := listed.found_of_outside found
    rw [listed.get?_storedAfter, if_neg kept]
    exact listed.within k kv before

/-- A call that only allocated its revision. -/
theorem skip (listed : Listed stored live s) (room : s.currentRevision + 1 < 2 ^ 63) :
    Listed stored live { s with currentRevision := s.currentRevision + 1 } where
  positive := by
    have := listed.positive
    simp only
    omega
  fits := room
  indexOk := listed.indexOk.mono (by simp)
  records k kv found := (listed.records k kv found).mono (by simp)
  kv := listed.kv
  index := listed.index_above (by simp)
  within := listed.within

end Listed

/-! ### The store and one map -/

/-- **The store holds the records of the map.** -/
structure Latest (live : RefMap) (s : MvccStore) : Prop where
  positive : 1 ≤ s.currentRevision
  fits : s.currentRevision < 2 ^ 63
  indexOk : IndexOk s.currentRevision s.keyIndex
  records : ∀ key kv, live.get? key = some kv → RecordOk key s.currentRevision kv
  kv : ∀ key, s.backend.get .kv key = (live.get? key).map KeyValue.encode
  index : ∀ key, s.keyIndex.get key s.currentRevision =
    (live.get? key).map fun kv => ⟨kv.modRevision, 0⟩
  history : ∀ key kv, live.get? key = some kv →
    s.backend.get .kvRev (revKey kv.modRevision key) = some kv.encodeWithKey

/-- A deletion from a store that lists everything it holds. -/
theorem storedAfter_self (live : RefMap) (revision : Int) (start stop : Bytes) :
    storedAfter live live start stop = applyCall live (revision, .deleteRange start stop) := by
  refine OrdMap.ext_get? fun key => ?_
  rw [storedAfter, applyCall, OrdMap.get?_filter, OrdMap.get?_filter]
  by_cases inside : Bytes.InRange start stop key
  · cases live.get? key <;> simp [inside]
  · simp [inside]

namespace Latest

variable {live : RefMap} {s : MvccStore} {key value : Bytes} {lease : Int} {start stop : Bytes}

theorem listed (latest : Latest live s) : Listed live live s where
  positive := latest.positive
  fits := latest.fits
  indexOk := latest.indexOk
  records := latest.records
  kv := latest.kv
  index := latest.index
  within _ _ found := found

theorem of_listed (listed : Listed live live s)
    (history : ∀ key kv, live.get? key = some kv →
      s.backend.get .kvRev (revKey kv.modRevision key) = some kv.encodeWithKey) : Latest live s where
  positive := listed.positive
  fits := listed.fits
  indexOk := listed.indexOk
  records := listed.records
  kv := listed.kv
  index := listed.index
  history := history

theorem index_above (latest : Latest live s) {r : Int} (current : s.currentRevision ≤ r)
    (key : Bytes) : s.keyIndex.get key r = (live.get? key).map fun kv => ⟨kv.modRevision, 0⟩ :=
  latest.listed.index_above current key

theorem readable (latest : Latest live s) {kv : KeyValue} (found : live.get? key = some kv) :
    s.backend.get .kv key = some kv.encode ∧ KeyValue.decode key kv.encode = .ok kv :=
  latest.listed.readable found

theorem put_run (latest : Latest live s) (room : s.currentRevision + 1 < 2 ^ 63)
    (key value : Bytes) (lease : Int) :
    (MvccStore.put key value lease).run s =
      (.ok (s.currentRevision + 1, refRecord live (s.currentRevision + 1) key value lease,
        live.get? key), s.afterPut (refRecord live (s.currentRevision + 1) key value lease)) :=
  latest.listed.put_run room key value lease

/-- **A `put` that has room** writes the record of the map. -/
theorem put (latest : Latest live s) (admissible : (StoreOp.put key value lease).Admissible)
    (room : s.currentRevision + 1 < 2 ^ 63) :
    Latest (applyCall live (s.currentRevision + 1, .put key value lease))
      (s.afterPut (refRecord live (s.currentRevision + 1) key value lease)) := by
  refine of_listed (latest.listed.put admissible room) fun k kv found => ?_
  obtain ⟨written, kept⟩ := latest.listed.put_history room
    (refRecord_modRevision live (s.currentRevision + 1) key value lease)
  rw [applyCall, OrdMap.get?_insert] at found
  split_ifs at found with same
  · rw [refRecord_key] at written
    rw [← Option.some.inj found, same]
    exact written
  · rw [kept k kv found, latest.history k kv found]

theorem mem_deletedKeys (latest : Latest live s) :
    key ∈ deletedKeys s start stop ↔ Bytes.InRange start stop key ∧ (live.get? key).isSome :=
  latest.listed.mem_deletedKeys

theorem deletedKeys_eq (latest : Latest live s) (start stop : Bytes) :
    deletedKeys s start stop =
      (live.entries.filter fun e => Bytes.InRange start stop e.1).map Prod.fst :=
  latest.listed.deletedKeys_eq start stop

theorem get?_outside (latest : Latest live s) (revision : Int) (start stop key : Bytes) :
    (applyCall live (revision, .deleteRange start stop)).get? key =
      if key ∈ deletedKeys s start stop then none else live.get? key :=
  latest.listed.get?_outside revision start stop key

theorem deleteRange_run (latest : Latest live s) (room : s.currentRevision + 1 < 2 ^ 63)
    (accepts : KeyIndex.Accepts s.keyIndex.held start stop) :
    (MvccStore.deleteRange start stop).run s =
      (.ok (s.currentRevision + 1, (rangeOf live start stop).kvs),
        s.afterDelete (deletedKeys s start stop)) :=
  latest.listed.deleteRange_run room accepts

/-- A record the deletion leaves was there before. -/
theorem found_of_outside (latest : Latest live s) {revision : Int} {kv : KeyValue}
    (found : (applyCall live (revision, .deleteRange start stop)).get? key = some kv) :
    live.get? key = some kv :=
  (latest.listed.found_of_outside found).2

/-- **A `delete_range` that has room** drops the interval from the map. -/
theorem deleteRange (latest : Latest live s) (room : s.currentRevision + 1 < 2 ^ 63)
    (start stop : Bytes) :
    Latest (applyCall live (s.currentRevision + 1, .deleteRange start stop))
      (s.afterDelete (deletedKeys s start stop)) := by
  have listed := latest.listed.deleteRange room start stop
  rw [storedAfter_self live (s.currentRevision + 1)] at listed
  refine of_listed listed fun k kv found => ?_
  have before := latest.found_of_outside found
  rw [latest.listed.deleteRange_history room _ before, latest.history k kv before]

/-- A call that only allocated its revision. -/
theorem skip (latest : Latest live s) (room : s.currentRevision + 1 < 2 ^ 63) :
    Latest live { s with currentRevision := s.currentRevision + 1 } :=
  of_listed (latest.listed.skip room) latest.history

end Latest

end Rusd
