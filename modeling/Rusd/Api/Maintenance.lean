/-
**The hash of the key-value store** (`api/maintenance_service.rs`, `hash_kv`).

The handler hashes a dump of all trees, whatever revision was asked for. `callChanges s ops` are the changes
that the calls `ops` make from `s` on; a deletion that finds no live key changes nothing.

* `ShowsChange` — what the `kv_rev` records of one revision tell of the change that wrote them.
* `InUse.shows_answers` — the records of every later revision show its change.
* `InUse.backend_eq_iff` — two continuations end in the same trees exactly if they make the same changes.
* `hash_kv_same_iff` — so the hash for a past revision depends on all changes after it.
-/

import Rusd.Storage.InUse
import Rusd.Storage.Alike
import Rusd.Api.KvService

namespace Rusd

open MvccStore

/-! ### The handler -/

structure ResponseHeader where
  clusterId : Nat
  memberId : Nat
  revision : Int
  raftTerm : Nat
  deriving DecidableEq, Repr

structure HashKvRequest where
  revision : Int
  deriving DecidableEq, Repr

structure HashKvResponse where
  header : ResponseHeader
  hash : UInt32
  revision : Int
  compactRevision : Int
  deriving DecidableEq, Repr

/-- The service: the store, on the backend that the service shares with it, and what it reads of the raft
node. -/
structure MaintenanceService where
  store : MvccStore
  clusterId : Nat
  memberId : Nat
  currentTerm : Nat

namespace MaintenanceService

def buildResponseHeader (service : MaintenanceService) : ResponseHeader where
  clusterId := service.clusterId
  memberId := service.memberId
  revision := service.store.currentRevision
  raftTerm := service.currentTerm

/-- `hash_kv`, with `crc` for the checksum of its bytes. -/
def hashKv (crc : Bytes → UInt32) (request : HashKvRequest) (service : MaintenanceService) :
    Outcome Status HashKvResponse :=
  let revision := if request.revision > 0 then request.revision else service.store.currentRevision
  match service.store.backend.snapshot with
  | .ok snapshot => .ok {
      header := service.buildResponseHeader
      hash := crc snapshot
      revision := revision
      compactRevision := service.store.compactRevision }
  | .err e => .err ⟨.internal, "hash_kv failed: " ++ e.display⟩
  | .panic => .panic

/-- Both services answer the same hash for the revision, whatever the checksum. -/
def SameHash (r : Int) (first second : MaintenanceService) : Prop :=
  ∀ crc, (hashKv crc ⟨r⟩ first).map HashKvResponse.hash = (hashKv crc ⟨r⟩ second).map HashKvResponse.hash

/-- **The hash is one of all trees.** -/
theorem sameHash_iff {first second : MaintenanceService} {data data' : Bytes}
    (dump : first.store.backend.snapshot = .ok data)
    (dump' : second.store.backend.snapshot = .ok data') (r : Int) :
    SameHash r first second ↔ data = data' := by
  have answered : ∀ crc, (hashKv crc ⟨r⟩ first).map HashKvResponse.hash = .ok (crc data) := by
    intro crc
    unfold hashKv
    rw [dump]
    rfl
  have answered' : ∀ crc, (hashKv crc ⟨r⟩ second).map HashKvResponse.hash = .ok (crc data') := by
    intro crc
    unfold hashKv
    rw [dump']
    rfl
  constructor
  · intro same
    by_contra differ
    -- a checksum that tells the two dumps apart
    have equal := same fun bytes => if bytes = data then 0 else 1
    rw [answered, answered', if_pos rfl, if_neg (Ne.symm differ)] at equal
    cases equal
  · rintro rfl crc
    rw [answered, answered']

end MaintenanceService

/-! ### What a call changes -/

/-- What a call changes: the record it writes, or the keys it removes. -/
inductive KvChange
  | put (key value : Bytes) (lease : Int)
  | deleted (keys : List Bytes)
  deriving DecidableEq, Repr

/-- The change that a call makes. -/
def callChange (s : MvccStore) : StoreOp → KvChange
  | .put key value lease => .put key value lease
  | .deleteRange start stop => .deleted (deletedKeys s start stop)

/-- The changes that calls make one after another; there is none past the last call. -/
def callChanges : MvccStore → List StoreOp → Nat → KvChange
  | _, [], _ => .deleted []
  | s, op :: _, 0 => callChange s op
  | s, op :: rest, i + 1 => callChanges (op.answer.run s).2 rest i

/-- The store after a change. -/
def KvChange.apply (s : MvccStore) : KvChange → MvccStore
  | .put key value lease => ((MvccStore.put key value lease).run s).2
  | .deleted keys => s.afterDelete keys

theorem Listed.deletedKeys_inverted {stored live : RefMap} {s : MvccStore} (listed : Listed stored live s)
    {start stop : Bytes} (inverted : ¬ KeyIndex.ValidRange start stop) : deletedKeys s start stop = [] :=
  List.eq_nil_iff_forall_not_mem.mpr fun key member =>
    not_inRange_of_inverted inverted key (listed.mem_deletedKeys.mp member).1

/-- **A call leaves the store that its change makes.** -/
theorem Listed.answer_run {stored live : RefMap} {s : MvccStore} (listed : Listed stored live s)
    (room : s.currentRevision + 1 < 2 ^ 63) (op : StoreOp) :
    (op.answer.run s).2 = (callChange s op).apply s := by
  cases op with
  | put key value lease =>
    rw [StoreOp.answer, Exec.run_bind_ok (listed.put_run room key value lease), callChange, KvChange.apply,
      listed.put_run room]
    rfl
  | deleteRange start stop =>
    rw [StoreOp.state_deleteRange_answer, callChange, KvChange.apply]
    by_cases valid : KeyIndex.ValidRange start stop
    · rw [listed.deleteRange_run room (.of_valid valid)]
    · rw [deleteRange_inverted room valid, listed.deletedKeys_inverted valid]
      rfl

/-- A store in use stays one. -/
theorem InUse.answer {s : MvccStore} (inUse : InUse s) {op : StoreOp} (short : StoreHistory.Short op)
    (room : s.currentRevision + 1 < 2 ^ 63) : InUse (op.answer.run s).2 := by
  obtain ⟨stored, live, stocked⟩ := inUse.stocked
  cases op with
  | put key value lease =>
    rw [stocked.listed.answer_run room]
    exact .put inUse room short
  | deleteRange start stop =>
    rw [StoreOp.state_deleteRange_answer]
    exact InUse.deleteRange inUse room start stop

theorem Listed.current_answer {stored live : RefMap} {s : MvccStore} (listed : Listed stored live s)
    (room : s.currentRevision + 1 < 2 ^ 63) (op : StoreOp) :
    (op.answer.run s).2.currentRevision = s.currentRevision + 1 := by
  rw [listed.answer_run room]
  cases op with
  | put key value lease =>
    rw [callChange, KvChange.apply, listed.put_run room]
    rfl
  | deleteRange start stop => rfl

/-! ### What `kv_rev` tells of a change -/

/-- No `kv_rev` key is above the current revision. -/
theorem InUse.bounded {s : MvccStore} (inUse : InUse s) {k data : Bytes}
    (found : s.backend.get .kvRev k = some data) : i64OfBe (k.take 8) ≤ s.currentRevision := by
  induction inUse generalizing k data with
  | fresh => cases found
  | put before room short ih =>
    obtain ⟨stored, live, stocked⟩ := before.stocked
    rw [stocked.listed.put_run room] at found ⊢
    exact bounded_afterPut (fun _ _ held => ih held) (stocked.listed.isI64_next room) found
  | deleteRange before room start stop ih =>
    obtain ⟨stored, live, stocked⟩ := before.stocked
    by_cases valid : KeyIndex.ValidRange start stop
    · rw [stocked.listed.deleteRange_run room (.of_valid valid)] at found ⊢
      exact bounded_afterDelete (fun _ _ held => ih held) (stocked.listed.isI64_next room) found
    · rw [deleteRange_inverted room valid] at found ⊢
      exact (ih found).trans (by simp)
  | @compact s before revision fits ih =>
    unfold MvccStore.compact at found ⊢
    rw [Exec.run_bind_ok (Exec.run_read _ _)] at found ⊢
    by_cases future : revision > s.currentRevision
    · rw [if_pos future] at found ⊢
      exact ih found
    · rw [if_neg future] at found ⊢
      exact ih (Backend.get_of_get_compact found)
  | restored before taken target ih =>
    obtain ⟨stored, live, stocked⟩ := before.stocked
    rw [stocked.listed.restoreSnapshot_run stocked.compact stocked.fields taken target] at found ⊢
    exact ih found

/-- What `kv_rev` has for a key under a revision. -/
def MvccStore.written (s : MvccStore) (revision : Int) (key : Bytes) : Option Bytes :=
  s.backend.get .kvRev (revKey revision key)

/-- The records of a revision show the change that wrote them. -/
def ShowsChange (revision : Int) (records : Bytes → Option Bytes) : KvChange → Prop
  | .put key value lease => ∃ kv : KeyValue, kv.Encodable ∧ 1 ≤ kv.version ∧ kv.value = value ∧
      kv.lease = lease ∧ ∀ k, records k = if k = key then some kv.encodeWithKey else none
  | .deleted keys => keys.Pairwise (· < ·) ∧ (∀ key ∈ keys, (tombstoneRecord revision key).Encodable) ∧
      (∀ key ∈ keys, records key = some (tombstoneRecord revision key).encodeWithKey) ∧
      ∀ key ∉ keys, records key = none

theorem encodable_tombstoneRecord {revision : Int} (fits : IsI64 revision) {key : Bytes}
    (short : key.length < 2 ^ 32) : (tombstoneRecord revision key).Encodable where
  createRevision := by simp [tombstoneRecord, IsI64]
  modRevision := fits
  version := by simp [tombstoneRecord, IsI64]
  lease := by simp [tombstoneRecord, IsI64]
  key := short
  value := by simp [tombstoneRecord]

/-- The records of a put are not those of a deletion. -/
theorem ShowsChange.put_ne_deleted {revision : Int} {records : Bytes → Option Bytes} {key value : Bytes}
    {lease : Int} {keys : List Bytes} (shown : ShowsChange revision records (.put key value lease))
    (shown' : ShowsChange revision records (.deleted keys)) : False := by
  obtain ⟨kv, fits, version, -, -, written⟩ := shown
  obtain ⟨-, fits', tombstones, others⟩ := shown'
  have here : records key = some kv.encodeWithKey := by rw [written, if_pos rfl]
  by_cases member : key ∈ keys
  · have same := Option.some.inj (here.symm.trans (tombstones key member))
    rw [KeyValue.encodeWithKey_injective fits (fits' key member) same] at version
    exact absurd version (by simp [tombstoneRecord])
  · rw [others key member] at here
    cases here

/-- **The records show one change only.** -/
theorem ShowsChange.unique {revision : Int} {records : Bytes → Option Bytes} {c c' : KvChange}
    (shown : ShowsChange revision records c) (shown' : ShowsChange revision records c') : c = c' := by
  cases c with
  | put key value lease =>
    cases c' with
    | put key' value' lease' =>
      obtain ⟨kv, fits, -, rfl, rfl, written⟩ := shown
      obtain ⟨kv', fits', -, rfl, rfl, written'⟩ := shown'
      have here := written' key
      rw [written, if_pos rfl] at here
      split_ifs at here with same
      rw [same, KeyValue.encodeWithKey_injective fits fits' (Option.some.inj here)]
    | deleted keys => exact (shown.put_ne_deleted shown').elim
  | deleted keys =>
    cases c' with
    | put key value lease => exact (ShowsChange.put_ne_deleted shown' shown).elim
    | deleted keys' =>
      obtain ⟨ascending, -, tombstones, others⟩ := shown
      obtain ⟨ascending', -, tombstones', others'⟩ := shown'
      refine congrArg KvChange.deleted (OrdMap.eq_of_mem_iff id ascending ascending' fun key => ?_)
      constructor
      · intro member
        by_contra missing
        cases (tombstones key member).symm.trans (others' key missing)
      · intro member
        by_contra missing
        cases (tombstones' key member).symm.trans (others key missing)

/-- Nothing written shows that nothing changed. -/
theorem ShowsChange.none {revision : Int} {records : Bytes → Option Bytes}
    (nothing : ∀ k, records k = Option.none) : ShowsChange revision records (.deleted []) :=
  ⟨.nil, fun _ member => absurd member List.not_mem_nil, fun _ member => absurd member List.not_mem_nil,
    fun key _ => nothing key⟩

section Calls

variable {s : MvccStore}

/-- The revisions above the current one have no records. -/
theorem InUse.written_above (inUse : InUse s) {r : Int} (fits : IsI64 r) (above : s.currentRevision < r)
    (key : Bytes) : s.written r key = none := by
  rw [Option.eq_none_iff_forall_ne_some]
  intro data found
  have bounded := inUse.bounded found
  rw [take_revKey fits] at bounded
  omega

/-- A call leaves the records of other revisions alone. -/
theorem Listed.written_answer {stored live : RefMap} (listed : Listed stored live s)
    (room : s.currentRevision + 1 < 2 ^ 63) (op : StoreOp) {r : Int} (fits : IsI64 r)
    (other : r ≠ s.currentRevision + 1) (key : Bytes) :
    (op.answer.run s).2.written r key = s.written r key := by
  have apart : ∀ k, revKey r key ≠ revKey (s.currentRevision + 1) k :=
    fun k same => other (revKey_injective fits (listed.isI64_next room) same).1
  rw [listed.answer_run room]
  cases op with
  | put k value lease =>
    rw [callChange, KvChange.apply, listed.put_run room, MvccStore.written, afterPut, Backend.get_put,
      if_neg fun both => apart _ both.2, Backend.get_put, if_neg (by simp), MvccStore.written]
  | deleteRange start stop =>
    rw [callChange, KvChange.apply, MvccStore.written, afterDelete, get_kvRev_foldl_removeKey _ apart,
      MvccStore.written]

/-- **The records of a call show its change.** -/
theorem InUse.shows_answer (inUse : InUse s) {op : StoreOp} (short : StoreHistory.Short op)
    (room : s.currentRevision + 1 < 2 ^ 63) :
    ShowsChange (s.currentRevision + 1) ((op.answer.run s).2.written (s.currentRevision + 1))
      (callChange s op) := by
  obtain ⟨stored, live, stocked⟩ := inUse.stocked
  have next := stocked.listed.isI64_next room
  have before := inUse.written_above next (by omega)
  rw [stocked.listed.answer_run room]
  cases op with
  | put key value lease =>
    have admissible : (StoreOp.put key value lease).Admissible :=
      ⟨by have := short.1; omega, by have := short.1; omega, short.2⟩
    have ok := recordOk_refRecord stocked.listed.positive (stocked.listed.records key) admissible
    refine ⟨_, ok.encodable room, ok.version, refRecord_value .., ?_, fun k => ?_⟩
    · unfold refRecord
      cases stored.get? key <;> rfl
    · rw [callChange, KvChange.apply, stocked.listed.put_run room, MvccStore.written, afterPut, Backend.get_put,
        refRecord_key]
      by_cases same : k = key
      · rw [if_pos ⟨rfl, by rw [same]⟩, if_pos same]
      · have old := before k
        rw [MvccStore.written] at old
        rw [if_neg same, if_neg fun both => same (List.append_cancel_left both.2), Backend.get_put,
          if_neg (by simp), old]
  | deleteRange start stop =>
    have tombstones : ∀ key, ((callChange s (.deleteRange start stop)).apply s).written
        (s.currentRevision + 1) key = if key ∈ deletedKeys s start stop
          then some (tombstoneRecord (s.currentRevision + 1) key).encodeWithKey else none := by
      intro key
      have old := before key
      rw [MvccStore.written] at old
      rw [callChange, KvChange.apply, MvccStore.written, afterDelete, get_tombstone_foldl_removeKey, old]
    refine ⟨?_, fun key member => ?_, fun key member => ?_, fun key missing => ?_⟩
    · exact List.pairwise_map.mpr (KeyIndex.keysIn_ascending ..)
    · obtain ⟨kv, found⟩ := Option.isSome_iff_exists.mp (stocked.listed.mem_deletedKeys.mp member).2
      have bounded := stocked.short key kv (stocked.listed.within key kv found)
      exact encodable_tombstoneRecord next (by omega)
    · rw [tombstones, if_pos member]
    · rw [tombstones, if_neg missing]

end Calls

/-! ### Runs of calls -/

section Runs

variable {s : MvccStore} {ops : List StoreOp}

/-- A store in use stays one, and every call takes one revision. -/
theorem InUse.answers_run (inUse : InUse s) (short : ∀ op ∈ ops, StoreHistory.Short op)
    (room : s.currentRevision + ops.length < 2 ^ 63) :
    InUse (answers ops s).2 ∧ (answers ops s).2.currentRevision = s.currentRevision + ops.length := by
  induction ops generalizing s with
  | nil => exact ⟨inUse, by simp [answers]⟩
  | cons op rest ih =>
    rw [List.length_cons, Nat.cast_succ] at room ⊢
    obtain ⟨first, others⟩ := List.forall_mem_cons.mp short
    obtain ⟨stored, live, stocked⟩ := inUse.stocked
    have current := stocked.listed.current_answer (by omega) op
    obtain ⟨reached, counted⟩ := ih (inUse.answer first (by omega)) others (by omega)
    exact ⟨reached, by rw [answers, counted, current]; ring⟩

/-- Later calls leave the records of a revision alone. -/
theorem InUse.written_answers (inUse : InUse s) (short : ∀ op ∈ ops, StoreHistory.Short op)
    (room : s.currentRevision + ops.length < 2 ^ 63) {r : Int} (fits : IsI64 r)
    (known : r ≤ s.currentRevision) (key : Bytes) : (answers ops s).2.written r key = s.written r key := by
  induction ops generalizing s with
  | nil => rfl
  | cons op rest ih =>
    rw [List.length_cons, Nat.cast_succ] at room
    obtain ⟨first, others⟩ := List.forall_mem_cons.mp short
    obtain ⟨stored, live, stocked⟩ := inUse.stocked
    have current := stocked.listed.current_answer (by omega) op
    calc (answers (op :: rest) s).2.written r key
        = (op.answer.run s).2.written r key :=
          ih (inUse.answer first (by omega)) others (by omega) (by omega)
      _ = s.written r key := stocked.listed.written_answer (by omega) op fits (by omega) key

/-- **The records of every later revision show its change.** -/
theorem InUse.shows_answers (inUse : InUse s) (short : ∀ op ∈ ops, StoreHistory.Short op)
    (room : s.currentRevision + ops.length < 2 ^ 63) {i : Nat} (fits : s.currentRevision + 1 + i < 2 ^ 63) :
    ShowsChange (s.currentRevision + 1 + i) ((answers ops s).2.written (s.currentRevision + 1 + i))
      (callChanges s ops i) := by
  obtain ⟨stored, live, stocked⟩ := inUse.stocked
  have positive := stocked.listed.positive
  induction ops generalizing s stored live i with
  | nil => exact ShowsChange.none (inUse.written_above (by constructor <;> omega) (by omega))
  | cons op rest ih =>
    rw [List.length_cons, Nat.cast_succ] at room
    obtain ⟨first, others⟩ := List.forall_mem_cons.mp short
    have current := stocked.listed.current_answer (by omega) op
    have next := inUse.answer first (by omega)
    cases i with
    | zero =>
      have shown := inUse.shows_answer first (by omega)
      have later : (answers rest (op.answer.run s).2).2.written (s.currentRevision + 1) =
          (op.answer.run s).2.written (s.currentRevision + 1) := by
        funext key
        exact next.written_answers others (by omega) (by constructor <;> omega) (by omega) key
      rw [Nat.cast_zero, add_zero, answers, later]
      exact shown
    | succ i =>
      obtain ⟨stored', live', stocked'⟩ := next.stocked
      have rest := ih next others (by omega) (i := i) (by rw [current]; omega) stored' live' stocked'
        (by omega)
      rw [current] at rest
      rw [show s.currentRevision + 1 + ((i + 1 : Nat) : Int) = s.currentRevision + 1 + 1 + i by
        push_cast; ring]
      exact rest

/-- Past the last call nothing changes. -/
theorem callChanges_past {i : Nat} (past : ops.length ≤ i) : callChanges s ops i = .deleted [] := by
  induction ops generalizing s i with
  | nil => rfl
  | cons op rest ih =>
    cases i with
    | zero => exact absurd past (Nat.not_succ_le_zero _)
    | succ i => exact ih (Nat.le_of_succ_le_succ past)

/-- Calls that change nothing leave the trees alone. -/
theorem InUse.backend_idle (inUse : InUse s) (short : ∀ op ∈ ops, StoreHistory.Short op)
    (room : s.currentRevision + ops.length < 2 ^ 63) (idle : ∀ i, callChanges s ops i = .deleted []) :
    (answers ops s).2.backend = s.backend := by
  induction ops generalizing s with
  | nil => rfl
  | cons op rest ih =>
    rw [List.length_cons, Nat.cast_succ] at room
    obtain ⟨first, others⟩ := List.forall_mem_cons.mp short
    obtain ⟨stored, live, stocked⟩ := inUse.stocked
    have current := stocked.listed.current_answer (by omega) op
    have kept := ih (inUse.answer first (by omega)) others (by omega) fun i => idle (i + 1)
    have nothing : callChange s op = .deleted [] := idle 0
    rw [answers, kept, stocked.listed.answer_run (by omega), nothing]
    rfl

/-- The same changes give the same trees. -/
theorem InUse.backend_congr (inUse : InUse s) {ops' : List StoreOp}
    (short : ∀ op ∈ ops, StoreHistory.Short op) (short' : ∀ op ∈ ops', StoreHistory.Short op)
    (room : s.currentRevision + ops.length < 2 ^ 63) (room' : s.currentRevision + ops'.length < 2 ^ 63)
    (same : ∀ i, callChanges s ops i = callChanges s ops' i) :
    (answers ops s).2.backend = (answers ops' s).2.backend := by
  induction ops generalizing s ops' with
  | nil => exact (inUse.backend_idle short' room' fun i => (same i).symm).symm
  | cons op rest ih =>
    cases ops' with
    | nil => exact inUse.backend_idle short room same
    | cons op' rest' =>
      rw [List.length_cons, Nat.cast_succ] at room room'
      obtain ⟨first, others⟩ := List.forall_mem_cons.mp short
      obtain ⟨first', others'⟩ := List.forall_mem_cons.mp short'
      obtain ⟨stored, live, stocked⟩ := inUse.stocked
      have current := stocked.listed.current_answer (by omega) op
      have now : callChange s op = callChange s op' := same 0
      have state : (op.answer.run s).2 = (op'.answer.run s).2 := by
        rw [stocked.listed.answer_run (by omega), stocked.listed.answer_run (by omega), now]
      have later : ∀ i, callChanges (op.answer.run s).2 rest i = callChanges (op.answer.run s).2 rest' i := by
        intro i
        rw [show callChanges (op.answer.run s).2 rest' i = callChanges s (op' :: rest') (i + 1) by
          rw [callChanges, state]]
        exact same (i + 1)
      have tails := ih (inUse.answer first (by omega)) others others' (by omega) (by omega) later
      rw [answers, answers, tails, state]

/-- **Two continuations end in the same trees exactly if they make the same changes.** -/
theorem InUse.backend_eq_iff (inUse : InUse s) {ops' : List StoreOp}
    (short : ∀ op ∈ ops, StoreHistory.Short op) (short' : ∀ op ∈ ops', StoreHistory.Short op)
    (room : s.currentRevision + ops.length < 2 ^ 63) (room' : s.currentRevision + ops'.length < 2 ^ 63) :
    (answers ops s).2.backend = (answers ops' s).2.backend ↔
      ∀ i, callChanges s ops i = callChanges s ops' i := by
  refine ⟨fun same i => ?_, inUse.backend_congr short short' room room'⟩
  by_cases within : i < ops.length ∨ i < ops'.length
  · have fits : s.currentRevision + 1 + i < 2 ^ 63 := by omega
    have shown := inUse.shows_answers short room fits
    have shown' := inUse.shows_answers short' room' fits
    unfold MvccStore.written at shown shown'
    rw [← same] at shown'
    exact shown.unique shown'
  · rw [callChanges_past (by omega), callChanges_past (by omega)]

end Runs

/-! ### The hash for a past revision -/

namespace MaintenanceService

/-- The services of two continuations answer the same hash exactly if the calls made the same changes. -/
theorem sameHash_answers_iff {s : MvccStore} (inUse : InUse s) {ops ops' : List StoreOp}
    (short : ∀ op ∈ ops, StoreHistory.Short op) (short' : ∀ op ∈ ops', StoreHistory.Short op)
    (room : s.currentRevision + ops.length < 2 ^ 63) (room' : s.currentRevision + ops'.length < 2 ^ 63)
    {first second : MaintenanceService} (reached : first.store = (answers ops s).2)
    (reached' : second.store = (answers ops' s).2) {data data' : Bytes}
    (dump : first.store.backend.snapshot = .ok data)
    (dump' : second.store.backend.snapshot = .ok data') (r : Int) :
    SameHash r first second ↔ ∀ i, callChanges s ops i = callChanges s ops' i := by
  obtain ⟨_, _, stocked⟩ := (inUse.answers_run short room).1.stocked
  obtain ⟨_, _, stocked'⟩ := (inUse.answers_run short' room').1.stocked
  rw [sameHash_iff dump dump', ← inUse.backend_eq_iff short short' room room', ← reached, ← reached']
  constructor
  · rintro rfl
    exact Backend.snapshot_injective (reached ▸ stocked.fields) (reached' ▸ stocked'.fields) dump dump'
  · intro same
    rw [same, dump'] at dump
    exact (Outcome.ok.inj dump).symm

/-- **When the hash for a revision depends on the history up to it only.** For every store in use, every
revision (one that the store knows or another) and all calls that follow: the hash is the same before and
after the calls exactly if they change nothing, and two stores that went on from there have the same hash
exactly if they made the same changes after it. -/
theorem hash_kv_same_iff {s : MvccStore} (inUse : InUse s) (r : Int) {ops ops' : List StoreOp}
    (short : ∀ op ∈ ops, StoreHistory.Short op) (short' : ∀ op ∈ ops', StoreHistory.Short op)
    (room : s.currentRevision + ops.length < 2 ^ 63) (room' : s.currentRevision + ops'.length < 2 ^ 63)
    {before first second : MaintenanceService} (start : before.store = s)
    (reached : first.store = (answers ops s).2) (reached' : second.store = (answers ops' s).2)
    {data data₁ data₂ : Bytes} (dump : before.store.backend.snapshot = .ok data)
    (dump₁ : first.store.backend.snapshot = .ok data₁)
    (dump₂ : second.store.backend.snapshot = .ok data₂) :
    (SameHash r before first ↔ ∀ i, callChanges s ops i = .deleted []) ∧
      (SameHash r first second ↔ ∀ i, callChanges s ops i = callChanges s ops' i) := by
  refine ⟨?_, sameHash_answers_iff inUse short short' room room' reached reached' dump₁ dump₂ r⟩
  have none : ∀ op ∈ ([] : List StoreOp), StoreHistory.Short op := fun op member => by cases member
  have room₀ : s.currentRevision + ([] : List StoreOp).length < 2 ^ 63 := by
    rw [List.length_nil, Nat.cast_zero, add_zero]
    omega
  have here : before.store = (answers [] s).2 := start
  rw [sameHash_answers_iff inUse none short room₀ room here reached dump dump₁ r]
  exact forall_congr' fun i => eq_comm

/-- A service on an empty store. -/
def freshService : MaintenanceService where
  store := .new .empty
  clusterId := 1
  memberId := 1
  currentTerm := 1

/-- The service after these calls. -/
def after (service : MaintenanceService) (ops : List StoreOp) : MaintenanceService :=
  { service with store := (answers ops service.store).2 }

/-- **A put changes the hash for a revision before it.** -/
theorem hash_of_past_moves : InUse freshService.store ∧ 1 ≤ freshService.store.currentRevision ∧
    ¬ SameHash 1 freshService (freshService.after [.put [97] [49] 0]) :=
  ⟨.fresh, le_rfl, fun same => absurd (same fun bytes => UInt32.ofNat bytes.length) (by decide +kernel)⟩

/-- A deletion that finds no key leaves the hash as it was. -/
theorem hash_after_idle_delete : SameHash 1 freshService (freshService.after [.deleteRange [97] []]) := by
  have short : ∀ op ∈ [StoreOp.deleteRange [97] []], StoreHistory.Short op := by decide
  have room : freshService.store.currentRevision + [StoreOp.deleteRange [97] []].length < 2 ^ 63 := by decide
  have reached : (freshService.after [.deleteRange [97] []]).store =
      (answers [.deleteRange [97] []] freshService.store).2 := rfl
  refine (hash_kv_same_iff .fresh 1 short short room room rfl reached reached rfl rfl rfl).1.mpr fun i => ?_
  cases i <;> rfl

end MaintenanceService

end Rusd
