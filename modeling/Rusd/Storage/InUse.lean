/-
**Stores in use.**

Besides `put` and `delete_range`, a store in use is compacted, and a follower restores the snapshot that
its leader sends.

* `InUse s` — the stores reached by all four, as long as the revision counter has room.
* `InUse.stocked` — such a store holds the records of one map and lists those of a part of it: what a
  compaction takes out of the index stays in the `kv` tree until a restore lists it again.
* `MvccStore.Live` — the keys a read shows. A `delete_range` removes those of its interval
  (`Stocked.live_deleteRange`).
* `Listed.range_current` — a read at the current revision answers the live records.
* `ShowsPast view archived r s` — what a read at the past revision `r` answers; later writes keep that.
-/

import Rusd.Storage.Coherence

namespace Rusd

open MvccStore

/-- The stores reached by writes, compactions and restored snapshots. -/
inductive InUse : MvccStore → Prop
  | fresh : InUse (MvccStore.new .empty)
  | put {s : MvccStore} (before : InUse s) (room : s.currentRevision + 1 < 2 ^ 63)
      {key value : Bytes} {lease : Int} (short : StoreHistory.Short (.put key value lease)) :
      InUse ((MvccStore.put key value lease).run s).2
  | deleteRange {s : MvccStore} (before : InUse s) (room : s.currentRevision + 1 < 2 ^ 63)
      (start stop : Bytes) : InUse ((MvccStore.deleteRange start stop).run s).2
  | compact {s : MvccStore} (before : InUse s) {revision : Int} (fits : IsI64 revision) :
      InUse ((MvccStore.compact revision).run s).2
  | restored {donor : MvccStore} (before : InUse donor) {data : Bytes}
      (taken : donor.createSnapshot = .ok data) (target : MvccStore) :
      InUse ((restoreSnapshot data).run target).2

/-- A key is live if the index lists it at the current revision and the `kv` tree has its record. -/
def MvccStore.Live (s : MvccStore) (key : Bytes) : Prop :=
  (s.keyIndex.get key s.currentRevision).isSome ∧ (s.backend.get .kv key).isSome

instance (s : MvccStore) (key : Bytes) : Decidable (s.Live key) :=
  inferInstanceAs (Decidable (_ ∧ _))

/-! ### What a store in use satisfies -/

/-- The records that the store holds and lists; `kv_rev` may have lost some of them to a compaction. -/
structure Stocked (stored live : RefMap) (s : MvccStore) : Prop where
  listed : Listed stored live s
  archive : ∀ key kv data, stored.get? key = some kv →
    s.backend.get .kvRev (revKey kv.modRevision key) = some data → data = kv.encodeWithKey
  short : ∀ key kv, stored.get? key = some kv → 40 + key.length + kv.value.length < 2 ^ 32
  compact : IsI64 s.compactRevision
  fields : ∀ name key value, s.backend.get name key = some value →
    key.length < 2 ^ 32 ∧ value.length < 2 ^ 32

/-- What the index still lists after a compaction. -/
def listedFrom (live : RefMap) (c : Int) : RefMap :=
  live.filter fun key => (live.get? key).any fun kv => c ≤ kv.modRevision

theorem get?_listedFrom (live : RefMap) (c : Int) (key : Bytes) :
    (listedFrom live c).get? key = (live.get? key).filter fun kv => c ≤ kv.modRevision := by
  rw [listedFrom, OrdMap.get?_filter]
  cases live.get? key with
  | none => rfl
  | some kv => simp [Option.filter_some]

theorem Listed.compact {stored live : RefMap} {s : MvccStore} (listed : Listed stored live s) {c : Int}
    (le : c ≤ s.currentRevision) : Listed stored (listedFrom live c) (s.afterCompact c) where
  positive := listed.positive
  fits := listed.fits
  indexOk := listed.indexOk.compact le
  records := listed.records
  kv key := (s.backend.get_compact_other c (by simp) key).trans (listed.kv key)
  index key := by
    simp only [afterCompact]
    rw [KeyIndex.get_compact listed.indexOk le, listed.index, get?_listedFrom]
    cases live.get? key with
    | none => rfl
    | some kv => by_cases low : c ≤ kv.modRevision <;> simp [Option.filter_some, low]
  within key kv found := by
    rw [get?_listedFrom] at found
    exact listed.within key kv (Option.filter_eq_some_iff.mp found).1

namespace Stocked

variable {stored live : RefMap} {s : MvccStore} {key value : Bytes} {lease : Int}

theorem fresh : Stocked .empty .empty (MvccStore.new .empty) where
  listed := Coherent.fresh.latest.listed
  archive := by simp
  short := by simp
  compact := Coherent.fresh.compact
  fields := Coherent.fresh.fields

theorem put (stocked : Stocked stored live s) (short : StoreHistory.Short (.put key value lease))
    (room : s.currentRevision + 1 < 2 ^ 63) :
    Stocked (applyCall stored (s.currentRevision + 1, .put key value lease))
      (live.insert key (refRecord stored (s.currentRevision + 1) key value lease))
      (s.afterPut (refRecord stored (s.currentRevision + 1) key value lease)) where
  listed := stocked.listed.put ⟨by have := short.1; omega, by have := short.1; omega, short.2⟩ room
  archive k kv data found held := by
    obtain ⟨written, kept⟩ := stocked.listed.put_history room
      (refRecord_modRevision stored (s.currentRevision + 1) key value lease)
    rw [applyCall, OrdMap.get?_insert] at found
    split_ifs at found with same
    · rw [refRecord_key] at written
      rw [← Option.some.inj found, same, written] at held
      rw [← Option.some.inj found, ← Option.some.inj held]
    · rw [kept k kv found] at held
      exact stocked.archive k kv data found held
  short k kv found := by
    rw [applyCall, OrdMap.get?_insert] at found
    split_ifs at found with same
    · rw [← Option.some.inj found, refRecord_value, same]
      exact short.1
    · exact stocked.short k kv found
  compact := stocked.compact
  fields _ _ _ found :=
    fields_afterPut stocked.fields (by rw [refRecord_key, refRecord_value]; exact short.1) found

theorem deleteRange (stocked : Stocked stored live s) (room : s.currentRevision + 1 < 2 ^ 63)
    (start stop : Bytes) :
    Stocked (storedAfter stored live start stop)
      (applyCall live (s.currentRevision + 1, .deleteRange start stop))
      (s.afterDelete (deletedKeys s start stop)) where
  listed := stocked.listed.deleteRange room start stop
  archive k kv data found held := by
    have before := stocked.listed.stored_of_outside found
    rw [stocked.listed.deleteRange_history room _ before] at held
    exact stocked.archive k kv data before held
  short k kv found := stocked.short k kv (stocked.listed.stored_of_outside found)
  compact := stocked.compact
  fields _ _ _ found := by
    refine fields_afterDelete stocked.fields (fun key member => ?_) found
    have there := (stocked.listed.mem_deletedKeys.mp member).2
    obtain ⟨kv, live⟩ := Option.isSome_iff_exists.mp there
    have short := stocked.short key kv (stocked.listed.within key kv live)
    omega

/-- The panic of a deletion of an inverted interval. -/
theorem skip (stocked : Stocked stored live s) (room : s.currentRevision + 1 < 2 ^ 63) :
    Stocked stored live { s with currentRevision := s.currentRevision + 1 } :=
  { stocked with listed := stocked.listed.skip room }

theorem compacted (stocked : Stocked stored live s) {c : Int} (fits : IsI64 c)
    (le : c ≤ s.currentRevision) : Stocked stored (listedFrom live c) (s.afterCompact c) where
  listed := stocked.listed.compact le
  archive key kv data found held := stocked.archive key kv data found (Backend.get_of_get_compact held)
  short := stocked.short
  compact := fits
  fields name key value found := stocked.fields name key value (Backend.get_of_get_compact found)

/-- A restore lists every record that the donor holds. -/
theorem restored (stocked : Stocked stored live s) {data : Bytes} (taken : s.createSnapshot = .ok data)
    (target : MvccStore) : Stocked stored stored ((restoreSnapshot data).run target).2 := by
  rw [stocked.listed.restoreSnapshot_run stocked.compact stocked.fields taken target]
  exact { stocked with listed := stocked.listed.afterRestore }

/-- **A deletion**, of whatever interval. -/
theorem deleteRange_run (stocked : Stocked stored live s) (room : s.currentRevision + 1 < 2 ^ 63)
    (start stop : Bytes) :
    ∃ stored', Stocked stored' (applyCall live (s.currentRevision + 1, .deleteRange start stop))
      ((MvccStore.deleteRange start stop).run s).2 := by
  by_cases valid : KeyIndex.ValidRange start stop
  · rw [stocked.listed.deleteRange_run room (.of_valid valid)]
    exact ⟨_, stocked.deleteRange room start stop⟩
  · rw [MvccStore.deleteRange_inverted room valid, applyCall_inverted valid]
    exact ⟨stored, stocked.skip room⟩

end Stocked

/-- **Every store in use holds and lists records.** -/
theorem InUse.stocked {s : MvccStore} (inUse : InUse s) : ∃ stored live, Stocked stored live s := by
  induction inUse with
  | fresh => exact ⟨_, _, Stocked.fresh⟩
  | put _ room short ih =>
    obtain ⟨stored, live, stocked⟩ := ih
    rw [stocked.listed.put_run room]
    exact ⟨_, _, stocked.put short room⟩
  | deleteRange _ room start stop ih =>
    obtain ⟨stored, live, stocked⟩ := ih
    obtain ⟨stored', after⟩ := stocked.deleteRange_run room start stop
    exact ⟨_, _, after⟩
  | @compact s _ revision fits ih =>
    obtain ⟨stored, live, stocked⟩ := ih
    by_cases le : revision ≤ s.currentRevision
    · rw [MvccStore.compact_apply le]
      exact ⟨_, _, stocked.compacted fits le⟩
    · rw [MvccStore.compact_future (not_le.mp le)]
      exact ⟨_, _, stocked⟩
  | restored _ taken target ih =>
    obtain ⟨stored, live, stocked⟩ := ih
    exact ⟨_, _, stocked.restored taken target⟩

/-! ### Live keys -/

section Listed

variable {stored live : RefMap} {s : MvccStore} {start stop key : Bytes}

/-- **The live keys are those of the map that the index lists.** -/
theorem Listed.live_iff (listed : Listed stored live s) : s.Live key ↔ (live.get? key).isSome := by
  rw [MvccStore.Live, listed.index, listed.kv, Option.isSome_map, Option.isSome_map]
  constructor
  · exact fun both => both.1
  · intro there
    obtain ⟨kv, found⟩ := Option.isSome_iff_exists.mp there
    exact ⟨there, by rw [listed.within key kv found]; rfl⟩

theorem Listed.live_applyCall (listed : Listed stored live s) (revision : Int) :
    ((applyCall live (revision, .deleteRange start stop)).get? key).isSome ↔
      s.Live key ∧ ¬ Bytes.InRange start stop key := by
  rw [listed.live_iff, applyCall, OrdMap.get?_filter]
  by_cases inside : Bytes.InRange start stop key <;> simp [inside]

/-- **A deletion removes the live keys of its interval**, and no other; an inverted interval, on which it
panics, holds no key. -/
theorem Stocked.live_deleteRange (stocked : Stocked stored live s)
    (room : s.currentRevision + 1 < 2 ^ 63) (start stop key : Bytes) :
    ((MvccStore.deleteRange start stop).run s).2.Live key ↔
      s.Live key ∧ ¬ Bytes.InRange start stop key := by
  obtain ⟨stored', after⟩ := stocked.deleteRange_run room start stop
  rw [after.listed.live_iff, stocked.listed.live_applyCall]

/-! ### Reads -/

theorem Listed.named (listed : Listed stored live s) {kv : KeyValue} (found : live.get? key = some kv) :
    kv.key = key :=
  (listed.records key kv (listed.within key kv found)).key

/-- **A read at the current revision answers the live records.** -/
theorem Listed.range_current (listed : Listed stored live s)
    (accepts : KeyIndex.Accepts s.keyIndex.held start stop) :
    s.range start stop s.currentRevision 0 false = .ok (rangeOf live start stop) := by
  have fetched : ∀ e ∈ s.keyIndex.keysIn start stop s.currentRevision,
      s.fetch true s.currentRevision e.1 e.2 = .ok (some ((live.get? e.1).getD default)) := by
    rintro ⟨key, rev⟩ member
    have found := (KeyIndex.mem_keysIn.mp member).2
    rw [listed.index] at found
    obtain ⟨kv, lives, -⟩ := Option.map_eq_some_iff.mp found
    have there := listed.within key kv lives
    obtain ⟨held, decoded⟩ := listed.readable there
    have ok := listed.records key kv there
    simp only [fetch, if_true, held, decoded, lives,
      if_pos (show kv.createRevision ≤ s.currentRevision ∧ kv.modRevision ≤ s.currentRevision from
        ⟨ok.modified.trans ok.bounded, ok.bounded⟩), Option.getD_some]
  have kvs := map_keysIn listed.index start stop
  have counted := congrArg List.length kvs
  simp only [rangeOf, List.length_map] at kvs counted
  simp only [range, ite_self, KeyIndex.range_eq accepts, ge_iff_le, le_refl, decide_true,
    Bool.or_true, rangeLoop_all (fun key => (live.get? key).getD default) fetched, Outcome.map,
    List.nil_append, gt_iff_lt, lt_self_iff_false, decide_false, Bool.false_and, rangeOf, kvs, counted]

end Listed

/-- Two reads of maps whose records carry their keys answer the same records if they select the same
part. -/
theorem rangeOf_kvs_eq_iff {m n : RefMap} (named : ∀ key kv, m.get? key = some kv → kv.key = key)
    (named' : ∀ key kv, n.get? key = some kv → kv.key = key) (start stop start' stop' : Bytes) :
    (rangeOf m start stop).kvs = (rangeOf n start' stop').kvs ↔
      ∀ key, (if Bytes.InRange start stop key then m.get? key else none) =
        if Bytes.InRange start' stop' key then n.get? key else none := by
  have select : ∀ (o : RefMap) (a b key : Bytes), (o.filter fun k => Bytes.InRange a b k).get? key =
      if Bytes.InRange a b key then o.get? key else none := by
    intro o a b key
    rw [OrdMap.get?_filter]
    simp only [decide_eq_true_eq]
  have kept : ∀ (o : RefMap) (a b : Bytes), (∀ key kv, o.get? key = some kv → kv.key = key) →
      ∀ key kv, (o.filter fun k => Bytes.InRange a b k).get? key = some kv → kv.key = key := by
    intro o a b named key kv found
    rw [select] at found
    split_ifs at found
    exact named key kv found
  have whole : (rangeOf m start stop).kvs = (rangeOf n start' stop').kvs ↔
      (m.filter fun k => Bytes.InRange start stop k) = n.filter fun k => Bytes.InRange start' stop' k :=
    ⟨OrdMap.ext_values KeyValue.key (kept m start stop named) (kept n start' stop' named'),
      fun same => congrArg (fun o : RefMap => o.entries.map Prod.snd) same⟩
  rw [whole]
  constructor
  · intro same key
    rw [← select, ← select, same]
  · intro same
    exact OrdMap.ext_get? fun key => by rw [select, select, same key]

/-- A selection of the records counts as all of them in an interval iff it drops none there. -/
theorem rangeOf_count_filter_iff (m : RefMap) (p : Bytes → Bool) (start stop : Bytes) :
    (rangeOf m start stop).count = (rangeOf (m.filter p) start stop).count ↔
      ∀ key, Bytes.InRange start stop key → (m.get? key).isSome → p key = true := by
  have part : (rangeOf (m.filter p) start stop).count =
      ((m.entries.filter fun e => Bytes.InRange start stop e.1).filter fun e => p e.1).length :=
    congrArg List.length (List.filter_comm _ _ _)
  rw [part, eq_comm, rangeOf, List.length_filter_eq_length_iff]
  simp only [List.mem_filter, decide_eq_true_eq, Prod.forall, OrdMap.mem_entries_iff,
    Option.isSome_iff_exists]
  constructor
  · rintro kept key inside ⟨kv, found⟩
    exact kept key kv ⟨found, inside⟩
  · rintro kept key kv ⟨found, inside⟩
    exact kept key inside ⟨kv, found⟩

/-! ### Reads of the past -/

/-- `kv_rev` still has the record that the index lists under the key. -/
def MvccStore.archived (s : MvccStore) (key : Bytes) : Bool :=
  (s.keyIndex.get key s.currentRevision).any fun rev =>
    (s.backend.get .kvRev (revKey rev.main key)).isSome

/-- **What the store shows at a past revision**: the index finds the records of `view`, and `kv_rev` has
those of the keys that are archived. -/
structure ShowsPast (view : RefMap) (archived : Bytes → Bool) (r : Int) (s : MvccStore) : Prop where
  index : ∀ key, s.keyIndex.get key r = (view.get? key).map fun kv => ⟨kv.modRevision, 0⟩
  held : ∀ key kv, view.get? key = some kv → s.backend.get .kvRev (revKey kv.modRevision key) =
    if archived key then some kv.encodeWithKey else none
  encodable : ∀ key kv, view.get? key = some kv → kv.Encodable
  bounded : ∀ key kv, view.get? key = some kv → kv.modRevision ≤ r

namespace ShowsPast

variable {view : RefMap} {archived : Bytes → Bool} {r : Int} {stored live : RefMap} {s : MvccStore}
  {start stop : Bytes}

/-- A store in use shows its live records at the current revision. -/
theorem of_stocked (stocked : Stocked stored live s) :
    ShowsPast live s.archived s.currentRevision s where
  index := stocked.listed.index
  held key kv found := by
    have there := stocked.listed.within key kv found
    rw [MvccStore.archived, stocked.listed.index, found, Option.map_some, Option.any_some]
    cases held : s.backend.get .kvRev (revKey kv.modRevision key) with
    | none => rfl
    | some data =>
      rw [Option.isSome_some, if_pos rfl, stocked.archive key kv data there held]
  encodable key kv found := (stocked.listed.records key kv
    (stocked.listed.within key kv found)).encodable stocked.listed.fits
  bounded key kv found := (stocked.listed.records key kv (stocked.listed.within key kv found)).bounded

/-- A record of the past is not under the next revision. -/
theorem revKey_ne (showing : ShowsPast view archived r s) (past : r ≤ s.currentRevision)
    (listed : Listed stored live s) (room : s.currentRevision + 1 < 2 ^ 63) {key : Bytes}
    {kv : KeyValue} (found : view.get? key = some kv) (other : Bytes) :
    revKey kv.modRevision key ≠ revKey (s.currentRevision + 1) other := by
  have below := showing.bounded key kv found
  intro same
  have equal := (revKey_injective (showing.encodable key kv found).modRevision
    (listed.isI64_next room) same).1
  omega

/-- A `put` changes nothing of the past. -/
theorem put (showing : ShowsPast view archived r s) (past : r ≤ s.currentRevision)
    (listed : Listed stored live s) (room : s.currentRevision + 1 < 2 ^ 63) (written : KeyValue) :
    ShowsPast view archived r (s.afterPut written) where
  index key := by
    rw [afterPut, KeyIndex.get_put listed.indexOk _ (by simp), if_neg, showing.index]
    rintro ⟨-, reaches⟩
    simp only at reaches
    omega
  held key kv found := by
    have apart := showing.revKey_ne past listed room found written.key
    rw [afterPut, Backend.get_put, if_neg (fun both => apart both.2), Backend.get_put,
      if_neg (by simp), showing.held key kv found]
  encodable := showing.encodable
  bounded := showing.bounded

/-- A deletion changes nothing of the past. -/
theorem deleteRange (showing : ShowsPast view archived r s) (past : r ≤ s.currentRevision)
    (listed : Listed stored live s) (room : s.currentRevision + 1 < 2 ^ 63) (keys : List Bytes) :
    ShowsPast view archived r (s.afterDelete keys) where
  index key := by
    rw [afterDelete, KeyIndex.get_tombstones listed.indexOk _ (by simp), if_neg, showing.index]
    rintro ⟨-, reaches⟩
    simp only at reaches
    omega
  held key kv found := by
    rw [afterDelete, get_kvRev_foldl_removeKey _ (showing.revKey_ne past listed room found),
      showing.held key kv found]
  encodable := showing.encodable
  bounded := showing.bounded

/-- **A read of the past** answers the archived records, and counts all. -/
theorem range (showing : ShowsPast view archived r s) (positive : 0 < r) (past : r < s.currentRevision)
    (accepts : KeyIndex.Accepts s.keyIndex.held start stop) :
    s.range start stop r 0 false = .ok
      { kvs := (rangeOf (view.filter archived) start stop).kvs
        more := false
        count := (rangeOf view start stop).count } := by
  have fetched : ∀ e ∈ s.keyIndex.keysIn start stop r,
      s.fetch false r e.1 e.2 = .ok ((view.filter archived).get? e.1) := by
    rintro ⟨key, rev⟩ member
    have found := (KeyIndex.mem_keysIn.mp member).2
    rw [showing.index] at found
    obtain ⟨kv, lives, rfl⟩ := Option.map_eq_some_iff.mp found
    have decoded := KeyValue.decodeWithKey_encodeWithKey (showing.encodable key kv lives)
    rw [OrdMap.get?_filter, lives]
    by_cases kept : archived key = true
    · simp only [fetch, Bool.false_eq_true, if_false, showing.held key kv lives, kept, if_true, decoded]
    · simp only [fetch, Bool.false_eq_true, if_false, showing.held key kv lives, kept]
  have keys := keysIn_eq showing.index start stop
  have kvs : (s.keyIndex.keysIn start stop r).filterMap (fun e => (view.filter archived).get? e.1) =
      (rangeOf (view.filter archived) start stop).kvs := by
    have part : (rangeOf (view.filter archived) start stop).kvs =
        (view.entries.filter fun e => Bytes.InRange start stop e.1).filterMap
          fun e => if archived e.1 then some e.2 else none := by
      rw [← List.filterMap_filter, List.filterMap_eq_map']
      exact congrArg (List.map Prod.snd) (List.filter_comm _ _ _)
    rw [keys, List.filterMap_map, part]
    refine List.filterMap_congr ?_
    rintro ⟨key, kv⟩ member
    have lives := OrdMap.mem_entries_iff.mp (List.mem_filter.mp member).1
    simp only [Function.comp_apply, OrdMap.get?_filter, lives]
  have counted := congrArg List.length keys
  rw [List.length_map] at counted
  have branch : (decide (r ≤ 0) || decide (r ≥ s.currentRevision)) = false := by
    rw [decide_eq_false (by omega), decide_eq_false (by omega), Bool.or_self]
  simp only [MvccStore.range, if_neg (show ¬ r ≤ 0 by omega), KeyIndex.range_eq accepts, branch,
    rangeLoop_found (fun key => (view.filter archived).get? key) fetched, Outcome.map, List.nil_append,
    gt_iff_lt, lt_self_iff_false, decide_false, Bool.false_and, kvs, rangeOf, counted]

end ShowsPast

end Rusd
