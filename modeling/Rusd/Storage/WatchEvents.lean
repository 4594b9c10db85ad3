/-
**The history of a store** (`storage/mvcc.rs`, `watch_events`).

`kv_rev` holds a record for each change, under the revision of the change in big-endian bytes and the
key. Its order is that of the revisions and then of the keys, so a scan from a revision lists the changes
in the order in which they were made. A deletion is told from a put by its version.

* `watchEvents` — the scan and its events.
* `Logged` — the invariant: `kv_rev` holds the changes that are not compacted, in order.
* `Logged.extend`, `Logged.compact` — what a call does to it.
* `watch_history_exact` — the events from any revision are the changes that the calls answered.
-/

import Rusd.Storage.CallLog
import Rusd.Storage.Latest

namespace Rusd

open MvccStore

/-! ### The scan -/

/-- The entries with `start ≤ key < end`; a limit of 0 is none. -/
def Backend.scan (b : Backend) (name : TreeName) (start stop : Bytes) (limit : Nat) :
    List (Bytes × Bytes) :=
  let results := (b.tree name).entries.filter fun e => start ≤ e.1 ∧ e.1 < stop
  if limit > 0 then results.take limit else results

namespace MvccStore

/-- The loop of `watch_events`; a record that is not readable is left out. -/
def eventLoop : List (Bytes × Bytes) → List StoreEvent → Outcome StorageError (List StoreEvent)
  | [], events => .ok events
  | (_, data) :: rest, events =>
    match KeyValue.decodeWithKey data with
    | .ok kv =>
      let eventType := if kv.version = 0 ∧ kv.value = [] then "Delete" else "Put"
      eventLoop rest (events ++ [⟨eventType, kv, none⟩])
    | .err _ => eventLoop rest events
    | .panic => .panic

/-- All changes since a revision. -/
def watchEvents (s : MvccStore) (startRevision : Int) : Outcome StorageError (List StoreEvent) :=
  if startRevision > s.currentRevision then .ok []
  -- the end of the scan is a checked addition
  else if s.currentRevision + 1 < 2 ^ 63 then
    eventLoop (s.backend.scan .kvRev (i64ToBe startRevision) (i64ToBe (s.currentRevision + 1)) 0) []
  else .panic

end MvccStore

/-! ### The order of `kv_rev` -/

/-- A change before another one: by revision, then by key. -/
def KeyValue.Before (first second : KeyValue) : Prop :=
  first.modRevision < second.modRevision ∨
    first.modRevision = second.modRevision ∧ first.key < second.key

/-- The bounds of the scan are revisions without a key. -/
theorem revKey_in_scan {first last r : Int} (low : 0 ≤ first) (firstFits : first < 2 ^ 63)
    (lastPositive : 0 ≤ last) (lastFits : last < 2 ^ 63) (positive : 0 ≤ r) (fits : r < 2 ^ 63)
    {key : Bytes} :
    (i64ToBe first ≤ revKey r key ∧ revKey r key < i64ToBe last) ↔ first ≤ r ∧ r < last := by
  have above : i64ToBe r ++ key < i64ToBe first ++ [] ↔ _ :=
    i64ToBe_append_lt positive fits low firstFits
  have below : i64ToBe r ++ key < i64ToBe last ++ [] ↔ _ :=
    i64ToBe_append_lt positive fits lastPositive lastFits
  rw [List.append_nil] at above below
  rw [← not_lt, revKey, above, below]
  simp only [List.not_lt_nil, and_false, or_false, not_lt]

/-! ### The invariant -/

namespace StoreEvent

/-- The event that `watch_events` makes of a record. -/
def ofRecord (kv : KeyValue) : StoreEvent :=
  ⟨if kv.version = 0 ∧ kv.value = [] then "Delete" else "Put", kv, none⟩

/-- The `kv_rev` entry of a change. -/
def entry (event : StoreEvent) : Bytes × Bytes :=
  (revKey event.kv.modRevision event.kv.key, event.kv.encodeWithKey)

/-- The record of the change is readable, and tells what kind of change it was. -/
structure Ok (bound : Int) (event : StoreEvent) : Prop where
  encodable : event.kv.Encodable
  positive : 0 ≤ event.kv.modRevision
  bounded : event.kv.modRevision ≤ bound
  told : event = ofRecord event.kv

theorem Ok.mono {bound higher : Int} {event : StoreEvent} (ok : event.Ok bound) (le : bound ≤ higher) :
    event.Ok higher :=
  ⟨ok.encodable, ok.positive, ok.bounded.trans le, ok.told⟩

/-- The loop reads back the changes. -/
theorem eventLoop_entries {bound : Int} {events : List StoreEvent} (ok : ∀ e ∈ events, e.Ok bound)
    (earlier : List StoreEvent) :
    eventLoop (events.map entry) earlier = .ok (earlier ++ events) := by
  induction events generalizing earlier with
  | nil => rw [List.map_nil, eventLoop, List.append_nil]
  | cons event rest ih =>
    have first := ok event List.mem_cons_self
    rw [List.map_cons, entry, eventLoop, KeyValue.decodeWithKey_encodeWithKey first.encodable]
    simp only
    rw [ih fun e member => ok e (List.mem_cons_of_mem _ member), List.append_assoc,
      List.singleton_append]
    exact congrArg (fun e => Outcome.ok (earlier ++ e :: rest)) first.told.symm

end StoreEvent

/-- **`kv_rev` holds the changes that are not compacted, in order.** -/
structure CallLog.Logged (log : CallLog) : Prop where
  short : ∀ key data, log.store.backend.get .kv key = some data → key.length < 2 ^ 32
  ok : ∀ event ∈ log.events, event.Ok log.store.currentRevision
  ordered : log.events.Pairwise fun first second => first.kv.Before second.kv
  history : (log.store.backend.tree .kvRev).entries =
    (log.events.filter fun event => log.compacted ≤ event.kv.modRevision).map StoreEvent.entry

namespace CallLog.Logged

variable {log : CallLog}

theorem fresh : CallLog.fresh.Logged where
  short key data found := by cases found
  ok event member := absurd member List.not_mem_nil
  ordered := List.Pairwise.nil
  history := rfl

/-- **Changes of the next revision**, written in key order. -/
theorem extend (logged : log.Logged) {store : MvccStore} {more : List StoreEvent}
    (positive : 0 ≤ log.store.currentRevision) (room : log.store.currentRevision + 1 < 2 ^ 63)
    (compacted : log.compacted ≤ log.store.currentRevision)
    (next : store.currentRevision = log.store.currentRevision + 1)
    (short : ∀ key data, store.backend.get .kv key = some data → key.length < 2 ^ 32)
    (ok : ∀ event ∈ more, event.Ok store.currentRevision)
    (revised : ∀ event ∈ more, event.kv.modRevision = store.currentRevision)
    (ascending : more.Pairwise fun first second => first.kv.key < second.kv.key)
    (written : store.backend.tree .kvRev =
      (more.map StoreEvent.entry).foldl (fun m e => m.insert e.1 e.2) (log.store.backend.tree .kvRev)) :
    CallLog.Logged ⟨store, log.events ++ more, log.compacted⟩ where
  short := short
  ok event member := by
    rcases List.mem_append.mp member with old | new
    · exact (logged.ok event old).mono (by rw [next]; omega)
    · exact ok event new
  ordered := by
    refine List.pairwise_append.mpr ⟨logged.ordered, ascending.imp_of_mem ?_, ?_⟩
    · intro first second member member' less
      exact .inr ⟨(revised first member).trans (revised second member').symm, less⟩
    · intro first old second new
      have bounded := (logged.ok first old).bounded
      exact .inl (by rw [revised second new, next]; omega)
  history := by
    have visible : more.filter (fun event => log.compacted ≤ event.kv.modRevision) = more := by
      refine List.filter_eq_self.mpr fun event member => decide_eq_true ?_
      rw [revised event member, next]
      omega
    have sorted : ((log.store.backend.tree .kvRev).entries ++ more.map StoreEvent.entry).Pairwise
        fun a b => a.1 < b.1 := by
      refine List.pairwise_append.mpr ⟨(log.store.backend.tree .kvRev).sorted, ?_, ?_⟩
      · refine List.pairwise_map.mpr (ascending.imp_of_mem ?_)
        intro first second member member' less
        rw [StoreEvent.entry, StoreEvent.entry, revised first member, revised second member', next,
          revKey_lt (by omega) room (by omega) room]
        exact .inr ⟨rfl, less⟩
      · rw [logged.history]
        intro e old e' new
        obtain ⟨first, listed, rfl⟩ := List.mem_map.mp old
        obtain ⟨second, listed', rfl⟩ := List.mem_map.mp new
        have held := logged.ok first (List.mem_filter.mp listed).1
        have low := held.positive
        have high := held.bounded
        rw [StoreEvent.entry, StoreEvent.entry, revised second listed', next,
          revKey_lt low (by omega) (by omega) room]
        exact .inl (by omega)
    rw [written, OrdMap.entries_foldl_insert sorted, logged.history, List.filter_append, visible,
      List.map_append]

/-- **A compaction** drops the changes below its revision. -/
theorem compact (logged : log.Logged) (room : log.store.currentRevision < 2 ^ 63) (revision : Int) :
    CallLog.Logged ⟨log.store.afterCompact revision, log.events, max log.compacted revision⟩ where
  short key data found :=
    logged.short key data
      (by rwa [afterCompact, Backend.get_compact_other _ _ (by simp)] at found)
  ok := logged.ok
  ordered := logged.ordered
  history := by
    have revised : ∀ event ∈ log.events, i64OfBe (event.entry.1.take 8) = event.kv.modRevision := by
      intro event member
      have held := logged.ok event member
      have low := held.positive
      have high := held.bounded
      exact take_revKey ⟨by omega, by omega⟩ event.kv.key
    have keyed : Keyed log.store.backend := by
      unfold Keyed
      rw [logged.history]
      intro e member
      obtain ⟨event, listed, rfl⟩ := List.mem_map.mp member
      have held := logged.ok event (List.mem_filter.mp listed).1
      have low := held.positive
      have high := held.bounded
      exact ⟨⟨event.kv.modRevision, low, by omega⟩, event.kv.key, rfl⟩
    rw [afterCompact, Backend.entries_compact _ keyed.long keyed.ordered, logged.history, List.filter_map,
      List.filter_filter]
    refine congrArg _ (List.filter_congr fun event member => ?_)
    rw [Function.comp_apply, revised event member, ← Bool.decide_and, decide_eq_decide, max_le_iff,
      and_comm]

/-! #### The calls -/

/-- A put leaves its record. -/
theorem put (logged : log.Logged) (sound : Sound log.store)
    (room : log.store.currentRevision + 1 < 2 ^ 63) (compacted : log.compacted ≤ log.store.currentRevision)
    {kv : KeyValue} (writes : log.store.Writes kv) (keyShort : kv.key.length < 2 ^ 32)
    (valueShort : kv.value.length < 2 ^ 32) (lease : IsI64 kv.lease) :
    CallLog.Logged ⟨log.store.afterPut kv, log.events ++ [⟨"Put", kv, none⟩], log.compacted⟩ := by
  have positive := sound.positive
  obtain ⟨created, modified, version⟩ := sound.recordRange writes
  have encodable : kv.Encodable :=
    ⟨⟨by omega, by omega⟩, ⟨by omega, by omega⟩, ⟨by omega, by omega⟩, lease, keyShort, valueShort⟩
  have told : (⟨"Put", kv, none⟩ : StoreEvent) = StoreEvent.ofRecord kv := by
    rw [StoreEvent.ofRecord, if_neg]
    rintro ⟨zero, -⟩
    omega
  refine logged.extend (by omega) room compacted rfl (fun key data found => ?_) (fun event member => ?_)
    (fun event member => ?_) (List.pairwise_singleton _ _) ?_
  · rw [afterPut, Backend.get_put, if_neg (by simp), Backend.get_put] at found
    split_ifs at found with same
    · rw [same.2]
      exact keyShort
    · exact logged.short key data found
  · rw [List.mem_singleton.mp member]
    exact ⟨encodable, zero_le_one.trans modified.1, modified.2, told⟩
  · rw [List.mem_singleton.mp member]
    exact writes.modRevision
  · rw [List.map_singleton, List.foldl_cons, List.foldl_nil, StoreEvent.entry, writes.modRevision]
    rfl

/-- The tombstones of a deletion. -/
theorem tree_foldl_removeKey (revision : Int) (keys : List Bytes) (b : Backend) :
    (keys.foldl (removeKey revision) b).tree .kvRev =
      (keys.map fun key => (revKey revision key, (tombstoneRecord revision key).encodeWithKey)).foldl
        (fun m e => m.insert e.1 e.2) (b.tree .kvRev) := by
  induction keys generalizing b with
  | nil => rfl
  | cons key keys ih => exact ih (removeKey revision b key)

/-- A deletion leaves a tombstone for each key. -/
theorem deleteRange (logged : log.Logged) (sound : Sound log.store)
    (room : log.store.currentRevision + 1 < 2 ^ 63) (compacted : log.compacted ≤ log.store.currentRevision)
    {keys : List Bytes} (ascending : keys.Pairwise (· < ·))
    (stored : ∀ key ∈ keys, (log.store.backend.get .kv key).isSome) :
    CallLog.Logged ⟨log.store.afterDelete keys, log.events ++ keys.map fun key =>
      ⟨"Delete", tombstoneRecord (log.store.currentRevision + 1) key, none⟩, log.compacted⟩ := by
  have positive := sound.positive
  refine logged.extend (by omega) room compacted rfl (fun key data found => ?_) (fun event member => ?_)
    (fun event member => ?_) (List.pairwise_map.mpr ascending) ?_
  · rw [afterDelete, get_kv_foldl_removeKey] at found
    split_ifs at found
    exact logged.short key data found
  · obtain ⟨key, listed, rfl⟩ := List.mem_map.mp member
    obtain ⟨data, found⟩ := Option.isSome_iff_exists.mp (stored key listed)
    have zero : IsI64 0 := by decide
    exact ⟨⟨zero, ⟨by simp only [tombstoneRecord]; omega, room⟩, zero, zero, logged.short key data found,
      by simp [tombstoneRecord]⟩, by simp only [tombstoneRecord]; omega, le_rfl, rfl⟩
  · obtain ⟨key, -, rfl⟩ := List.mem_map.mp member
    rfl
  · rw [afterDelete, tree_foldl_removeKey, List.map_map]
    rfl

end CallLog.Logged

/-! ### Every history -/

/-- What is put fits the formats of the records. -/
def ClientCall.Short : ClientCall → Prop
  | .put key value lease => key.length < 2 ^ 32 ∧ value.length < 2 ^ 32 ∧ IsI64 lease
  | _ => True

instance : DecidablePred ClientCall.Short
  | .put _ _ _ => inferInstanceAs (Decidable (_ ∧ _))
  | .deleteRange _ _ => .isTrue trivial
  | .compact _ => .isTrue trivial

/-- **Every call keeps the invariant.** -/
theorem CallLog.logged_of (calls : List ClientCall) (short : ∀ call ∈ calls, call.Short)
    (room : (calls.length : Int) + 1 < 2 ^ 63) : (of calls).Logged := by
  induction calls using List.reverseRecOn with
  | nil => exact .fresh
  | append_singleton calls call ih =>
    rw [List.length_append, List.length_singleton] at room
    push_cast at room
    have logged := ih (fun call member => short call (List.mem_append_left _ member)) (by omega)
    have shortCall := short call (List.mem_append_right _ (List.mem_singleton_self call))
    obtain ⟨sound, counted, -, compacted⟩ := sound_of calls (by omega)
    have here : (of calls).store.currentRevision + 1 < 2 ^ 63 := by omega
    rw [of_concat]
    cases call with
    | put key value lease =>
      obtain ⟨kv, writes, rfl, rfl, rfl, same⟩ := put_call sound here key value lease
      rw [same]
      exact logged.put sound here compacted writes shortCall.1 shortCall.2.1 shortCall.2.2
    | deleteRange start stop =>
      by_cases valid : KeyIndex.ValidRange start stop
      · obtain ⟨keys, ascending, stored, same⟩ := deleteRange_call sound here valid
        rw [same]
        exact logged.deleteRange sound here compacted ascending stored
      · rw [inverted_call here valid]
        exact ⟨logged.short, fun event member => (logged.ok event member).mono (by simp), logged.ordered,
          logged.history⟩
    | compact revision =>
      by_cases le : revision ≤ (of calls).store.currentRevision
      · rw [compact_call le]
        exact logged.compact (by omega) revision
      · rw [future_call (not_le.mp le)]
        exact logged

/-- A scan of the history reads the changes from its revision on. -/
theorem CallLog.Logged.watchEvents {log : CallLog} (logged : log.Logged)
    (room : log.store.currentRevision + 1 < 2 ^ 63) {s : Int} (positive : 0 ≤ s) :
    log.store.watchEvents s = .ok (log.events.filter fun event =>
      max s log.compacted ≤ event.kv.modRevision ∧ event.kv.modRevision ≤ log.store.currentRevision) := by
  rw [MvccStore.watchEvents]
  by_cases future : s > log.store.currentRevision
  · rw [if_pos future]
    refine congrArg Outcome.ok (List.filter_eq_nil_iff.mpr fun event member => ?_).symm
    rw [decide_eq_true_eq, max_le_iff]
    omega
  · rw [if_neg future, if_pos room]
    have scanned : log.store.backend.scan .kvRev (i64ToBe s) (i64ToBe (log.store.currentRevision + 1)) 0 =
        (log.events.filter fun event => max s log.compacted ≤ event.kv.modRevision ∧
          event.kv.modRevision ≤ log.store.currentRevision).map StoreEvent.entry := by
      rw [Backend.scan, if_neg (lt_irrefl 0), logged.history, List.filter_map, List.filter_filter]
      refine congrArg _ (List.filter_congr fun event member => ?_)
      have held := logged.ok event member
      have low := held.positive
      have high := held.bounded
      have inside : (i64ToBe s ≤ revKey event.kv.modRevision event.kv.key ∧
          revKey event.kv.modRevision event.kv.key < i64ToBe (log.store.currentRevision + 1)) ↔ _ :=
        revKey_in_scan positive (by omega) (by omega) room low (by omega)
      rw [Function.comp_apply, StoreEvent.entry, ← Bool.decide_and, decide_eq_decide, inside, max_le_iff]
      omega
    rw [scanned, StoreEvent.eventLoop_entries fun event member =>
      logged.ok event (List.mem_filter.mp member).1]
    rfl

/-- **The history of a store is exact.** After any calls on an empty store, `watch_events` from `s`
returns the changes that the calls answered, one for each put and one for each deleted key, whose
revision is neither below `s` nor below the largest compaction; they come by revision and then by key. -/
theorem watch_history_exact (calls : List ClientCall) (short : ∀ call ∈ calls, call.Short)
    (room : (calls.length : Int) + 2 < 2 ^ 63) (s : Int) (from_ : 1 ≤ s) :
    ∃ events, (CallLog.of calls).store.watchEvents s = .ok events ∧
      events = (CallLog.of calls).events.filter (fun event =>
        max s (CallLog.of calls).compacted ≤ event.kv.modRevision ∧
          event.kv.modRevision ≤ (CallLog.of calls).store.currentRevision) ∧
      events.Pairwise fun first second => first.kv.Before second.kv := by
  obtain ⟨-, counted, -⟩ := CallLog.sound_of calls (by omega)
  have logged := CallLog.logged_of calls short (by omega)
  exact ⟨_, logged.watchEvents (by omega) (by omega), rfl, logged.ordered.filter _⟩

/-- Two keys are put, one is put again and both are deleted; a compaction drops the first put. -/
def putAndDeleted : List ClientCall :=
  [.put [98] [49] 0, .put [97] [] 7, .put [98] [50] 0, .compact 3, .deleteRange [97] []]

theorem put_and_deleted_exact :
    (CallLog.of putAndDeleted).store.watchEvents 1 = .ok
      [⟨"Put", ⟨[97], 3, 3, 1, [], 7⟩, none⟩, ⟨"Put", ⟨[98], 2, 4, 2, [50], 0⟩, none⟩,
        ⟨"Delete", ⟨[97], 0, 5, 0, [], 0⟩, none⟩, ⟨"Delete", ⟨[98], 0, 5, 0, [], 0⟩, none⟩] := by
  obtain ⟨events, returned, same, -⟩ :=
    watch_history_exact putAndDeleted (by decide) (by decide) 1 (by decide)
  rw [returned, same]
  decide +kernel

end Rusd
