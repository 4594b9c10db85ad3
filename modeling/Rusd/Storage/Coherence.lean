/-
**The structures of a store agree.**

A store is reached from an empty one by `put`, `delete_range` and the restore of a snapshot of
another such store; `StoreHistory` is what was done to it. `live` and `lifetime` follow the records and,
for each key, the revisions of its puts since it was last created.

* `Coherent live lifetime s` — the invariant: the store holds the records of `live` (`Latest`), no
  `kv_rev` key is above the current revision, and each record counts the puts of its lifetime.
* `store_coherent` — what this says of the `kv` tree, the key index and the `kv_rev` tree.
-/

import Rusd.Storage.Reached
import Rusd.Storage.Latest
import Rusd.Storage.Snapshot

namespace Rusd

open MvccStore

/-- What has been done to a store since it was empty. -/
inductive StoreHistory
  | fresh
  | call (before : StoreHistory) (op : StoreOp)
  | restored (before donor : StoreHistory)
  deriving DecidableEq, Repr

namespace StoreHistory

/-- The store. A call may panic: what it did before stays done. -/
def store : StoreHistory → MvccStore
  | .fresh => .new .empty
  | .call before op => (op.run.run before.store).2
  | .restored before donor =>
    match donor.store.createSnapshot with
    | .ok data => ((restoreSnapshot data).run before.store).2
    | _ => before.store

/-- The snapshot of the store could be taken. -/
def snapped (h : StoreHistory) : Bool :=
  match h.store.createSnapshot with
  | .ok _ => true
  | _ => false

/-- The live records. -/
def live : StoreHistory → RefMap
  | .fresh => .empty
  | .call before op => applyCall before.live (before.store.currentRevision + 1, op)
  | .restored before donor => if donor.snapped then donor.live else before.live

/-- The revisions of the puts to a key since it was last created. -/
def lifetime : StoreHistory → Bytes → List Int
  | .fresh, _ => []
  | .call before (.put key value lease), k =>
    match ((StoreOp.put key value lease).run.run before.store).1 with
    | .ok revision => if k = key then before.lifetime k ++ [revision] else before.lifetime k
    | _ => before.lifetime k
  | .call before (.deleteRange start stop), k =>
    if Bytes.InRange start stop k then [] else before.lifetime k
  | .restored before donor, k => if donor.snapped then donor.lifetime k else before.lifetime k

/-- A record of these sizes, with its key in front, is shorter than `2 ^ 32` bytes. -/
def Short : StoreOp → Prop
  | .put key value lease => 40 + key.length + value.length < 2 ^ 32 ∧ IsI64 lease
  | .deleteRange _ _ => True

/-- The counter has room for every call, and every record fits the length prefixes. -/
def Allowed : StoreHistory → Prop
  | .fresh => True
  | .call before op => before.Allowed ∧ before.store.currentRevision + 1 < 2 ^ 63 ∧ Short op
  | .restored before donor => before.Allowed ∧ donor.Allowed

end StoreHistory

/-! ### The lengths in the trees -/

namespace MvccStore

variable {s : MvccStore}

/-- After a `put` of a record that is short enough, every field still fits its length prefix. -/
theorem fields_afterPut (fields : ∀ name key value, s.backend.get name key = some value →
      key.length < 2 ^ 32 ∧ value.length < 2 ^ 32) {kv : KeyValue}
    (short : 40 + kv.key.length + kv.value.length < 2 ^ 32) {name : TreeName} {k data : Bytes}
    (found : (s.afterPut kv).backend.get name k = some data) :
    k.length < 2 ^ 32 ∧ data.length < 2 ^ 32 := by
  rw [afterPut, Backend.get_put, Backend.get_put] at found
  split_ifs at found with second first
  · rw [second.2, ← Option.some.inj found]
    constructor
    · simp [revKey]
      omega
    · simp [KeyValue.encodeWithKey]
      omega
  · rw [first.2, ← Option.some.inj found]
    constructor
    · omega
    · simp [KeyValue.encode]
      omega
  · exact fields name k data found

/-- Deletions touch the `kv` and `kv_rev` trees only. -/
theorem get_other_foldl_removeKey {name : TreeName} (kv : name ≠ .kv) (kvRev : name ≠ .kvRev)
    (revision : Int) (keys : List Bytes) (b : Backend) (k : Bytes) :
    (keys.foldl (removeKey revision) b).get name k = b.get name k := by
  induction keys generalizing b with
  | nil => rfl
  | cons key keys ih =>
    rw [List.foldl_cons, ih, removeKey, Backend.get_put, if_neg (fun both => kvRev both.1),
      Backend.get_delete, if_neg (fun both => kv both.1)]

/-- After a deletion of keys that are short enough, every field still fits its length prefix. -/
theorem fields_afterDelete (fields : ∀ name key value, s.backend.get name key = some value →
      key.length < 2 ^ 32 ∧ value.length < 2 ^ 32) {keys : List Bytes}
    (short : ∀ key ∈ keys, 40 + key.length < 2 ^ 32) {name : TreeName} {k data : Bytes}
    (found : (s.afterDelete keys).backend.get name k = some data) :
    k.length < 2 ^ 32 ∧ data.length < 2 ^ 32 := by
  by_cases kv : name = .kv
  · rw [kv, afterDelete, get_kv_foldl_removeKey] at found
    split_ifs at found
    exact fields _ k data found
  · by_cases kvRev : name = .kvRev
    · rw [kvRev, afterDelete] at found
      rcases old_or_tombstone found with old | ⟨key, member, rfl, rfl⟩
      · exact fields _ k data old
      · have bounded := short key member
        constructor
        · simp [revKey]
          omega
        · simp [KeyValue.encodeWithKey, tombstoneRecord]
          omega
    · rw [afterDelete, get_other_foldl_removeKey kv kvRev] at found
      exact fields _ k data found

/-- A `put` writes its `kv_rev` record under the new revision. -/
theorem bounded_afterPut
    (bounded : ∀ k data, s.backend.get .kvRev k = some data → i64OfBe (k.take 8) ≤ s.currentRevision)
    (next : IsI64 (s.currentRevision + 1)) {kv : KeyValue} {k data : Bytes}
    (found : (s.afterPut kv).backend.get .kvRev k = some data) :
    i64OfBe (k.take 8) ≤ s.currentRevision + 1 := by
  rw [afterPut, Backend.get_put] at found
  split_ifs at found with written
  · rw [written.2, take_revKey next]
  · rw [Backend.get_put, if_neg (by simp)] at found
    have old := bounded k data found
    omega

/-- A deletion writes its tombstones under the new revision. -/
theorem bounded_afterDelete
    (bounded : ∀ k data, s.backend.get .kvRev k = some data → i64OfBe (k.take 8) ≤ s.currentRevision)
    (next : IsI64 (s.currentRevision + 1)) {keys : List Bytes} {k data : Bytes}
    (found : (s.afterDelete keys).backend.get .kvRev k = some data) :
    i64OfBe (k.take 8) ≤ s.currentRevision + 1 := by
  rcases old_or_tombstone found with old | ⟨key, _, rfl, _⟩
  · have low := bounded k data old
    omega
  · rw [take_revKey next]

end MvccStore

/-! ### Restoring what a store holds -/

/-- The latest record of a key. -/
def recordOf (live : RefMap) (key : Bytes) : KeyValue := (live.get? key).getD default

namespace Listed

variable {stored live : RefMap} {s : MvccStore}

/-- The index of a restored store finds, at every revision, the record of the `kv` tree or nothing. -/
theorem get_restored (listed : Listed stored live s) (key : Bytes) (r : Int) :
    (s.afterRestore (recordOf stored)).keyIndex.get key r =
      ((stored.get? key).filter fun kv => kv.modRevision ≤ r).map fun kv => ⟨kv.modRevision, 0⟩ := by
  have there : ((s.backend.tree .kv).get? key).isSome = (stored.get? key).isSome := by
    have := listed.kv key
    rw [Backend.get] at this
    rw [this, Option.isSome_map]
  rw [MvccStore.afterRestore, get_rebuiltIndex, there, recordOf]
  cases stored.get? key with
  | none => simp
  | some kv =>
    by_cases visible : kv.modRevision ≤ r
    · simp [visible]
    · simp only [Option.isSome_some, Option.getD_some, visible, and_false, if_false, Option.filter_some,
        decide_false, Bool.false_eq_true, Option.map_none]

theorem index_afterRestore (listed : Listed stored live s) (key : Bytes) :
    (s.afterRestore (recordOf stored)).keyIndex.get key s.currentRevision =
      (stored.get? key).map fun kv => ⟨kv.modRevision, 0⟩ := by
  rw [listed.get_restored]
  cases found : stored.get? key with
  | none => rfl
  | some kv =>
    have bounded := (listed.records key kv found).bounded
    rw [Option.filter_some, decide_eq_true bounded, if_pos rfl]

/-- **A restored store lists every record that its donor holds.** -/
theorem afterRestore (listed : Listed stored live s) :
    Listed stored stored (s.afterRestore (recordOf stored)) where
  positive := listed.positive
  fits := listed.fits
  indexOk := by
    refine indexOk_rebuiltIndex _ fun key there => ?_
    have same := listed.kv key
    rw [Backend.get] at same
    rw [same, Option.isSome_map] at there
    obtain ⟨kv, found⟩ := Option.isSome_iff_exists.mp there
    rw [recordOf, found]
    exact (listed.records key kv found).bounded
  records := listed.records
  kv := listed.kv
  index := listed.index_afterRestore
  within _ _ found := found

/-- The restore of a snapshot of the store, on any store. -/
theorem restoreSnapshot_run (listed : Listed stored live s) (compact : IsI64 s.compactRevision)
    (fields : ∀ name key value, s.backend.get name key = some value →
      key.length < 2 ^ 32 ∧ value.length < 2 ^ 32) {data : Bytes}
    (taken : s.createSnapshot = .ok data) (target : MvccStore) :
    (restoreSnapshot data).run target = (.ok (), s.afterRestore (recordOf stored)) := by
  have counts : ∀ name ∈ TreeName.all, (s.backend.tree name).entries.length < 2 ^ 32 := by
    by_contra many
    rw [createSnapshot, Backend.snapshot, if_neg many] at taken
    cases taken
  have positive := listed.positive
  have fits := listed.fits
  refine MvccStore.restoreSnapshot_run ⟨fields, counts⟩ ⟨by omega, fits⟩ compact
    (fun key data held => ?_) taken target
  rw [listed.kv] at held
  obtain ⟨kv, found, rfl⟩ := Option.map_eq_some_iff.mp held
  rw [recordOf, found]
  exact (listed.readable found).2

end Listed

/-! ### The invariant -/

/-- The record of a key counts the puts of the key's lifetime. -/
structure CountsPuts (puts : List Int) (kv : KeyValue) : Prop where
  version : kv.version = puts.length
  created : puts.head? = some kv.createRevision

/-- **The structures agree.** -/
structure Coherent (live : RefMap) (lifetime : Bytes → List Int) (s : MvccStore) : Prop where
  latest : Latest live s
  counts : ∀ key kv, live.get? key = some kv → CountsPuts (lifetime key) kv
  /-- A key that is not live has no puts since its deletion. -/
  ended : ∀ key, live.get? key = none → lifetime key = []
  compact : IsI64 s.compactRevision
  /-- The revision in front of a `kv_rev` key. -/
  bounded : ∀ k data, s.backend.get .kvRev k = some data → i64OfBe (k.take 8) ≤ s.currentRevision
  fields : ∀ name key value, s.backend.get name key = some value →
    key.length < 2 ^ 32 ∧ value.length < 2 ^ 32

namespace Coherent

variable {live : RefMap} {lifetime : Bytes → List Int} {s : MvccStore}

theorem fresh : Coherent .empty (fun _ => []) (MvccStore.new .empty) where
  latest := {
    positive := le_rfl
    fits := by norm_num [MvccStore.new]
    indexOk := IndexOk.new _
    records := by simp
    kv := by simp [MvccStore.new]
    index := by simp [MvccStore.new, KeyIndex.get, KeyIndex.new]
    history := by simp }
  counts := by simp
  ended _ _ := rfl
  compact := by decide
  bounded := by simp [MvccStore.new]
  fields := by simp [MvccStore.new]

/-- A live record and its key, as `kv_rev` holds them, are shorter than `2 ^ 32` bytes. -/
theorem short (coherent : Coherent live lifetime s) {key : Bytes} {kv : KeyValue}
    (found : live.get? key = some kv) : 40 + key.length + kv.value.length < 2 ^ 32 := by
  have named := (coherent.latest.records key kv found).key
  have stored := (coherent.fields _ _ _ (coherent.latest.history key kv found)).2
  simp only [KeyValue.encodeWithKey, List.length_append, KeyValue.length_encodeHeader,
    KeyValue.length_encodeField, named] at stored
  omega

theorem isI64_next (coherent : Coherent live lifetime s) (room : s.currentRevision + 1 < 2 ^ 63) :
    IsI64 (s.currentRevision + 1) :=
  coherent.latest.listed.isI64_next room

/-! #### A `put` -/

section Put

variable {key value : Bytes} {lease : Int}

theorem counts_put (coherent : Coherent live lifetime s) (revision : Int) {k : Bytes} {kv : KeyValue}
    (found : (applyCall live (revision, .put key value lease)).get? k = some kv) :
    CountsPuts (if k = key then lifetime k ++ [revision] else lifetime k) kv := by
  rw [applyCall, OrdMap.get?_insert] at found
  split_ifs at found with same
  · subst same
    rw [if_pos rfl, ← Option.some.inj found, refRecord]
    cases there : live.get? k with
    | none => exact ⟨by rw [coherent.ended k there]; rfl, by rw [coherent.ended k there]; rfl⟩
    | some old =>
      obtain ⟨version, created⟩ := coherent.counts k old there
      refine ⟨by simp [version], ?_⟩
      rw [List.head?_append, created]
      rfl
  · rw [if_neg same]
    exact coherent.counts k kv found

theorem fields_put (coherent : Coherent live lifetime s)
    (short : 40 + key.length + value.length < 2 ^ 32) {name : TreeName} {k data : Bytes}
    (found : (s.afterPut (refRecord live (s.currentRevision + 1) key value lease)).backend.get name k =
      some data) : k.length < 2 ^ 32 ∧ data.length < 2 ^ 32 :=
  fields_afterPut coherent.fields (by rw [refRecord_key, refRecord_value]; exact short) found

/-- **A `put` keeps the structures in agreement.** -/
theorem put (coherent : Coherent live lifetime s) (short : StoreHistory.Short (.put key value lease))
    (room : s.currentRevision + 1 < 2 ^ 63) :
    Coherent (applyCall live (s.currentRevision + 1, .put key value lease))
      (fun k => if k = key then lifetime k ++ [s.currentRevision + 1] else lifetime k)
      (s.afterPut (refRecord live (s.currentRevision + 1) key value lease)) where
  latest := coherent.latest.put ⟨by have := short.1; omega, by have := short.1; omega, short.2⟩ room
  counts k kv found := coherent.counts_put _ found
  ended k absent := by
    rw [applyCall, OrdMap.get?_insert] at absent
    split_ifs at absent with same
    rw [if_neg same]
    exact coherent.ended k absent
  compact := coherent.compact
  bounded _ _ found := bounded_afterPut coherent.bounded (coherent.isI64_next room) found
  fields name k data found := coherent.fields_put short.1 found

end Put

/-! #### A `delete_range` -/

section DeleteRange

variable {start stop : Bytes}

theorem fields_deleteRange (coherent : Coherent live lifetime s) {name : TreeName} {k data : Bytes}
    (found : (s.afterDelete (deletedKeys s start stop)).backend.get name k = some data) :
    k.length < 2 ^ 32 ∧ data.length < 2 ^ 32 := by
  refine fields_afterDelete coherent.fields (fun key member => ?_) found
  have there := (coherent.latest.mem_deletedKeys.mp member).2
  obtain ⟨record, live⟩ := Option.isSome_iff_exists.mp there
  have short := coherent.short live
  omega

/-- **A `delete_range` keeps the structures in agreement.** -/
theorem deleteRange (coherent : Coherent live lifetime s) (room : s.currentRevision + 1 < 2 ^ 63)
    (start stop : Bytes) :
    Coherent (applyCall live (s.currentRevision + 1, .deleteRange start stop))
      (fun k => if Bytes.InRange start stop k then [] else lifetime k)
      (s.afterDelete (deletedKeys s start stop)) where
  latest := coherent.latest.deleteRange room start stop
  counts k kv found := by
    have kept : ¬ Bytes.InRange start stop k := by
      intro inside
      rw [applyCall, OrdMap.get?_filter, if_neg (by simpa using inside)] at found
      cases found
    rw [if_neg kept]
    exact coherent.counts k kv (coherent.latest.found_of_outside found)
  ended k absent := by
    by_cases inside : Bytes.InRange start stop k
    · rw [if_pos inside]
    · rw [applyCall, OrdMap.get?_filter, if_pos (by simpa using inside)] at absent
      rw [if_neg inside]
      exact coherent.ended k absent
  compact := coherent.compact
  bounded _ _ found := bounded_afterDelete coherent.bounded (coherent.isI64_next room) found
  fields name k data found := coherent.fields_deleteRange found

/-- A deletion of an inverted interval leaves the structures in agreement. -/
theorem inverted (coherent : Coherent live lifetime s) (room : s.currentRevision + 1 < 2 ^ 63)
    (inverted : ¬ KeyIndex.ValidRange start stop) :
    Coherent (applyCall live (s.currentRevision + 1, .deleteRange start stop))
      (fun k => if Bytes.InRange start stop k then [] else lifetime k)
      { s with currentRevision := s.currentRevision + 1 } := by
  rw [applyCall_inverted inverted]
  have same : (fun k => if Bytes.InRange start stop k then [] else lifetime k) = lifetime :=
    funext fun k => if_neg (not_inRange_of_inverted inverted k)
  rw [same]
  exact ⟨coherent.latest.skip room, coherent.counts, coherent.ended, coherent.compact,
    fun k data found => (coherent.bounded k data found).trans (by simp), coherent.fields⟩

end DeleteRange

/-! #### A restored snapshot -/

/-- **What the index of a restored store finds**: at every revision the latest record, or nothing. -/
theorem get_restored (coherent : Coherent live lifetime s) (key : Bytes) (r : Int) :
    (s.afterRestore (recordOf live)).keyIndex.get key r =
      ((live.get? key).filter fun kv => kv.modRevision ≤ r).map fun kv => ⟨kv.modRevision, 0⟩ :=
  coherent.latest.listed.get_restored key r

/-- **Restoring a snapshot gives a store that agrees as the donor does.** -/
theorem afterRestore (coherent : Coherent live lifetime s) :
    Coherent live lifetime (s.afterRestore (recordOf live)) where
  latest := .of_listed coherent.latest.listed.afterRestore coherent.latest.history
  counts := coherent.counts
  ended := coherent.ended
  compact := coherent.compact
  bounded := coherent.bounded
  fields := coherent.fields

/-- A store with a live key has held one. -/
theorem held_of_live (coherent : Coherent live lifetime s) {key : Bytes}
    (lives : (s.backend.get .kv key).isSome) : s.keyIndex.held = true := by
  have found : (s.keyIndex.get key s.currentRevision).isSome := by
    rw [coherent.latest.listed.index, Option.isSome_map]
    rwa [coherent.latest.listed.kv, Option.isSome_map] at lives
  obtain ⟨rev, found⟩ := Option.isSome_iff_exists.mp found
  exact KeyIndex.held_of_get found

/-- The restore of a snapshot of the store, on any store. -/
theorem restoreSnapshot_run (coherent : Coherent live lifetime s) {data : Bytes}
    (taken : s.createSnapshot = .ok data) (target : MvccStore) :
    (restoreSnapshot data).run target = (.ok (), s.afterRestore (recordOf live)) :=
  coherent.latest.listed.restoreSnapshot_run coherent.compact coherent.fields taken target

end Coherent

/-! ### Every store reached -/

namespace StoreHistory

theorem store_restored (before : StoreHistory) {donor : StoreHistory} (snapped : donor.snapped = true) :
    ∃ data, donor.store.createSnapshot = .ok data ∧
      (restored before donor).store = ((restoreSnapshot data).run before.store).2 := by
  unfold StoreHistory.snapped at snapped
  cases taken : donor.store.createSnapshot with
  | ok data => exact ⟨data, rfl, by simp only [store, taken]⟩
  | err error => rw [taken] at snapped; cases snapped
  | panic => rw [taken] at snapped; cases snapped

theorem store_not_restored (before : StoreHistory) {donor : StoreHistory} (missed : ¬ donor.snapped = true) :
    (restored before donor).store = before.store := by
  unfold StoreHistory.snapped at missed
  cases taken : donor.store.createSnapshot with
  | ok data => rw [taken] at missed; exact absurd rfl missed
  | err error => simp only [store, taken]
  | panic => simp only [store, taken]

/-- **Every allowed history keeps the structures in agreement.** -/
theorem coherent (h : StoreHistory) (allowed : h.Allowed) : Coherent h.live h.lifetime h.store := by
  induction h with
  | fresh => exact Coherent.fresh
  | call before op ih =>
    obtain ⟨earlier, room, short⟩ := allowed
    have held := ih earlier
    cases op with
    | put key value lease =>
      have ran := held.latest.put_run room key value lease
      have returned : (StoreOp.put key value lease).run.run before.store =
          (.ok (before.store.currentRevision + 1), before.store.afterPut
            (refRecord before.live (before.store.currentRevision + 1) key value lease)) := by
        rw [StoreOp.run, Exec.run_bind_ok ran]
        rfl
      have lived : lifetime (.call before (.put key value lease)) = fun k =>
          if k = key then before.lifetime k ++ [before.store.currentRevision + 1]
          else before.lifetime k := by
        funext k
        rw [lifetime, returned]
      rw [live, store, returned, lived]
      exact held.put short room
    | deleteRange start stop =>
      have lived : lifetime (.call before (.deleteRange start stop)) = fun k =>
          if Bytes.InRange start stop k then [] else before.lifetime k := rfl
      rw [live, store, lived]
      rw [StoreOp.state_deleteRange]
      by_cases valid : KeyIndex.ValidRange start stop
      · rw [held.latest.deleteRange_run room (.of_valid valid)]
        exact held.deleteRange room start stop
      · rw [deleteRange_inverted room valid]
        exact held.inverted room valid
  | restored before donor ihBefore ihDonor =>
    have held := ihBefore allowed.1
    have given := ihDonor allowed.2
    by_cases snapped : donor.snapped = true
    · obtain ⟨data, taken, state⟩ := store_restored before snapped
      have lived : lifetime (.restored before donor) = donor.lifetime :=
        funext fun k => if_pos snapped
      rw [live, if_pos snapped, lived, state, given.restoreSnapshot_run taken]
      exact given.afterRestore
    · have lived : lifetime (.restored before donor) = before.lifetime :=
        funext fun k => if_neg snapped
      rw [live, if_neg snapped, lived, store_not_restored before snapped]
      exact held

end StoreHistory

/-- **The structures of every store agree.** A key is in the `kv` tree exactly when the index finds it
at the current revision. Then the index finds the revision of the key's record, `kv_rev` holds the same
record under it, and the record counts the puts since the key's last creation, the first of which
created it. No `kv_rev` key is above the current revision. -/
theorem store_coherent (h : StoreHistory) (allowed : h.Allowed) :
    (∀ key, (h.store.backend.get .kv key).isSome ↔
      (h.store.keyIndex.get key h.store.currentRevision).isSome) ∧
    (∀ key data, h.store.backend.get .kv key = some data →
      ∃ kv historic, KeyValue.decode key data = .ok kv ∧
        h.store.keyIndex.get key h.store.currentRevision = some ⟨kv.modRevision, 0⟩ ∧
        h.store.backend.get .kvRev (revKey kv.modRevision key) = some historic ∧
        KeyValue.decodeWithKey historic = .ok kv ∧
        1 ≤ kv.version ∧ kv.createRevision ≤ kv.modRevision ∧
        kv.modRevision ≤ h.store.currentRevision ∧
        kv.version = (h.lifetime key).length ∧
        (h.lifetime key).head? = some kv.createRevision) ∧
    ∀ k data, h.store.backend.get .kvRev k = some data →
      i64OfBe (k.take 8) ≤ h.store.currentRevision := by
  have held := h.coherent allowed
  refine ⟨fun key => ?_, fun key data stored => ?_, held.bounded⟩
  · rw [held.latest.kv, held.latest.index, Option.isSome_map, Option.isSome_map]
  · rw [held.latest.kv] at stored
    obtain ⟨kv, found, rfl⟩ := Option.map_eq_some_iff.mp stored
    have ok := held.latest.records key kv found
    have counted := held.counts key kv found
    refine ⟨kv, kv.encodeWithKey, (held.latest.readable found).2, ?_, held.latest.history key kv found,
      KeyValue.decodeWithKey_encodeWithKey (ok.encodable held.latest.fits), ok.version, ok.modified,
      ok.bounded, counted.version, counted.created⟩
    rw [held.latest.index, found]
    rfl

/-- A store that restored the snapshot of another one, in which the key was written, deleted and written
twice, and then wrote the key once more. -/
def rewritten : StoreHistory :=
  .call (.restored (.call .fresh (.put [98] [49] 0))
    (.call (.call (.call (.call .fresh (.put [97] [49] 7)) (.deleteRange [97] [])) (.put [97] [50] 0))
      (.put [97] [51] 0))) (.put [97] [52] 0)

instance : DecidablePred StoreHistory.Short
  | .put _ _ _ => inferInstanceAs (Decidable (_ ∧ _))
  | .deleteRange _ _ => .isTrue trivial

/-- The last put is the third of the key's second life. -/
theorem rewritten_coherent : rewritten.Allowed ∧ rewritten.lifetime [97] = [4, 5, 6] ∧
    ∃ kv : KeyValue, rewritten.store.keyIndex.get [97] 6 = some ⟨kv.modRevision, 0⟩ ∧
      kv.version = 3 ∧ kv.createRevision = 4 := by
  have allowed : rewritten.Allowed := by
    simp only [rewritten, StoreHistory.Allowed, true_and]
    decide +kernel
  have puts : rewritten.lifetime [97] = [4, 5, 6] := by decide +kernel
  have current : rewritten.store.currentRevision = 6 := by decide +kernel
  have there : (rewritten.store.backend.get .kv [97]).isSome := by decide +kernel
  obtain ⟨_, records, _⟩ := store_coherent rewritten allowed
  obtain ⟨data, stored⟩ := Option.isSome_iff_exists.mp there
  obtain ⟨kv, _, _, indexed, _, _, _, _, _, version, created⟩ := records [97] data stored
  rw [puts] at version created
  rw [current] at indexed
  exact ⟨allowed, puts, kv, indexed, version, (Option.some.inj created).symm⟩

end Rusd
