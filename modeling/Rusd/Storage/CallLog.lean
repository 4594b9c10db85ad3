/-
**The calls on a store and what they leave behind.**

Clients put, delete and compact in any order; a call may fail or panic. `CallLog` follows the store
through the calls, with one event for each change that was answered and the largest revision that a
compaction was accepted for.

* `CallLog.call` — one more call.
* `CallLog.put_call`, `deleteRange_call`, `inverted_call`, `compact_call`, `future_call` — all that a
  call can do to a sound store with room.
* `CallLog.sound_of` — every store that calls reach is sound.
-/

import Rusd.Storage.Reached

namespace Rusd

open MvccStore

/-- A call on the store. -/
inductive ClientCall
  | put (key value : Bytes) (lease : Int)
  | deleteRange (start stop : Bytes)
  | compact (revision : Int)
  deriving DecidableEq, Repr

/-- A change of a key, as the store reports it. -/
structure StoreEvent where
  eventType : String
  kv : KeyValue
  prevKv : Option KeyValue
  deriving DecidableEq, Repr

namespace ClientCall

/-- The store after the call. -/
def state (s : MvccStore) : ClientCall → MvccStore
  | .put key value lease => ((MvccStore.put key value lease).run s).2
  | .deleteRange start stop => ((MvccStore.deleteRange start stop).run s).2
  | .compact revision => ((MvccStore.compact revision).run s).2

/-- The changes that the call answered: the record of a put, each deleted key with the revision of the
deletion. -/
def events (s : MvccStore) : ClientCall → List StoreEvent
  | .put key value lease =>
    match ((MvccStore.put key value lease).run s).1 with
    | .ok (_, kv, _) => [⟨"Put", kv, none⟩]
    | _ => []
  | .deleteRange start stop =>
    match ((MvccStore.deleteRange start stop).run s).1 with
    | .ok (revision, deleted) =>
      deleted.map fun kv => ⟨"Delete", tombstoneRecord revision kv.key, none⟩
    | _ => []
  | .compact _ => []

/-- The revision of a compaction that returned. -/
def compactedTo (s : MvccStore) : ClientCall → Option Int
  | .compact revision =>
    match ((MvccStore.compact revision).run s).1 with
    | .ok _ => some revision
    | _ => none
  | _ => none

end ClientCall

/-- The store, the changes that were answered, and the largest revision compacted so far (0 if none). -/
structure CallLog where
  store : MvccStore
  events : List StoreEvent
  compacted : Int

namespace CallLog

def fresh : CallLog := ⟨.new .empty, [], 0⟩

def call (log : CallLog) (call : ClientCall) : CallLog where
  store := call.state log.store
  events := log.events ++ call.events log.store
  compacted := ((call.compactedTo log.store).map (max log.compacted)).getD log.compacted

/-- The log of calls on an empty store. -/
def of (calls : List ClientCall) : CallLog := calls.foldl call fresh

theorem of_concat (calls : List ClientCall) (call : ClientCall) :
    of (calls ++ [call]) = (of calls).call call :=
  List.foldl_concat ..

/-! ### What a call does -/

variable {log : CallLog}

/-- A put writes a record over the one that it finds. -/
theorem put_call (sound : Sound log.store) (room : log.store.currentRevision + 1 < 2 ^ 63)
    (key value : Bytes) (lease : Int) :
    ∃ kv, log.store.Writes kv ∧ kv.key = key ∧ kv.value = value ∧ kv.lease = lease ∧
      log.call (.put key value lease) =
        ⟨log.store.afterPut kv, log.events ++ [⟨"Put", kv, none⟩], log.compacted⟩ := by
  obtain ⟨kv, prevKv, returned, writes, named, valued, leased⟩ := sound.put_run room key value lease
  refine ⟨kv, writes, named, valued, leased, ?_⟩
  simp only [call, ClientCall.state, ClientCall.events, ClientCall.compactedTo, returned,
    Option.map_none, Option.getD_none]

/-- A deletion leaves a tombstone for each key that it returns. -/
theorem deleteRange_call (sound : Sound log.store) (room : log.store.currentRevision + 1 < 2 ^ 63)
    {start stop : Bytes} (valid : KeyIndex.ValidRange start stop) :
    ∃ keys : List Bytes, keys.Pairwise (· < ·) ∧ (∀ key ∈ keys, (log.store.backend.get .kv key).isSome) ∧
      log.call (.deleteRange start stop) = ⟨log.store.afterDelete keys, log.events ++ keys.map
        fun key => ⟨"Delete", tombstoneRecord (log.store.currentRevision + 1) key, none⟩,
        log.compacted⟩ := by
  obtain ⟨deleted, returned, ascending, stored⟩ := sound.deleteRange_run room (.of_valid valid)
  refine ⟨deleted.map KeyValue.key, ascending, fun key member => ?_, ?_⟩
  · obtain ⟨kv, listed, rfl⟩ := List.mem_map.mp member
    exact stored kv listed
  · simp only [call, ClientCall.state, ClientCall.events, ClientCall.compactedTo, returned,
      Option.map_none, Option.getD_none, List.map_map]
    rfl

/-- A deletion of an inverted interval takes a revision, and removes nothing. -/
theorem inverted_call (room : log.store.currentRevision + 1 < 2 ^ 63) {start stop : Bytes}
    (inverted : ¬ KeyIndex.ValidRange start stop) :
    log.call (.deleteRange start stop) =
      ⟨{ log.store with currentRevision := log.store.currentRevision + 1 }, log.events,
        log.compacted⟩ := by
  have ran := deleteRange_inverted room inverted
  split_ifs at ran <;>
    simp only [call, ClientCall.state, ClientCall.events, ClientCall.compactedTo, ran, Option.map_none,
      Option.getD_none, List.map_nil, List.append_nil]

theorem compact_call {revision : Int} (le : revision ≤ log.store.currentRevision) :
    log.call (.compact revision) =
      ⟨log.store.afterCompact revision, log.events, max log.compacted revision⟩ := by
  have returned := compact_apply le
  simp only [call, ClientCall.state, ClientCall.events, ClientCall.compactedTo, returned,
    Option.map_some, Option.getD_some, List.append_nil]

/-- A compaction to the future is refused. -/
theorem future_call {revision : Int} (future : log.store.currentRevision < revision) :
    log.call (.compact revision) = log := by
  have refused := compact_future future
  simp only [call, ClientCall.state, ClientCall.events, ClientCall.compactedTo, refused,
    Option.map_none, Option.getD_none, List.append_nil]

/-! ### Every log -/

/-- **Every store that calls reach is sound**; its counter and its largest compaction are bounded. -/
theorem sound_of (calls : List ClientCall) (room : (calls.length : Int) + 1 < 2 ^ 63) :
    Sound (of calls).store ∧ (of calls).store.currentRevision ≤ calls.length + 1 ∧
      0 ≤ (of calls).compacted ∧ (of calls).compacted ≤ (of calls).store.currentRevision := by
  induction calls using List.reverseRecOn with
  | nil => exact ⟨.of_reached .fresh, le_rfl, le_rfl, by decide⟩
  | append_singleton calls call ih =>
    rw [List.length_append, List.length_singleton] at room ⊢
    push_cast at room ⊢
    obtain ⟨sound, counted, positive, below⟩ := ih (by omega)
    have here : (of calls).store.currentRevision + 1 < 2 ^ 63 := by omega
    rw [of_concat]
    cases call with
    | put key value lease =>
      obtain ⟨kv, writes, -, -, -, same⟩ := put_call sound here key value lease
      rw [same]
      refine ⟨sound.afterPut here writes, ?_, positive, ?_⟩ <;> simp only [afterPut] <;> omega
    | deleteRange start stop =>
      by_cases valid : KeyIndex.ValidRange start stop
      · obtain ⟨keys, -, -, same⟩ := deleteRange_call sound here valid
        rw [same]
        refine ⟨sound.afterDelete here keys, ?_, positive, ?_⟩ <;> simp only [afterDelete] <;> omega
      · rw [inverted_call here valid]
        refine ⟨sound.skip here, ?_, positive, ?_⟩ <;> simp only <;> omega
    | compact revision =>
      by_cases le : revision ≤ (of calls).store.currentRevision
      · rw [compact_call le]
        refine ⟨sound.afterCompact le, ?_, ?_, ?_⟩ <;> simp only [afterCompact] <;> omega
      · rw [future_call (not_le.mp le)]
        exact ⟨sound, by omega, positive, below⟩

end CallLog

end Rusd
