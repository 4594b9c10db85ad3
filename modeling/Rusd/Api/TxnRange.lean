/-
**The intervals of a transaction** (`api/kv_service.rs`, `range`, `delete_range` and `txn`).

The standalone handlers refuse a request without key and range end and read the range end `[0x00]` as
"no upper bound"; the operations of a transaction do neither.

* `rangeScript_alone`, `opScript_range_alone`, `deletion_alone` — the two ways to read and the two ways to
  delete, run without interruption.
* `txn_first_op` — the first operation of the executed branch runs on the store before the transaction.
* `txn_ranges_agree_iff` — when the two ways agree.
-/

import Rusd.Api.Script
import Rusd.Storage.InUse

namespace Rusd

open MvccStore Script

/-- A range request with no other fields set. -/
def plainRange (key rangeEnd : Bytes) : FullRangeRequest where
  key := key
  rangeEnd := rangeEnd
  revision := 0
  limit := 0
  sortOrder := 0
  sortTarget := 0
  countOnly := false
  keysOnly := false
  minModRevision := 0
  maxModRevision := 0
  minCreateRevision := 0
  maxCreateRevision := 0

/-- The records and the count of a range response. -/
def ResponseOp.listing : ResponseOp → Option (List KeyValue × Nat)
  | .responseRange _ kvs _ count => some (kvs, count)
  | .responsePut _ _ => none
  | .responseDeleteRange _ _ _ => none

/-- The range request and the first range operation of a transaction return the same records and count,
or neither returns. -/
def SameRange (s : MvccStore) (key rangeEnd : Bytes) : Prop :=
  ((rangeScript (plainRange key rangeEnd)).alone.run s).1.returned.map ResponseOp.listing =
    ((opScript s.currentRevision (.requestRange ⟨key, rangeEnd⟩)).alone.run s).1.returned.map
      ResponseOp.listing

/-- The deletion request and the first deletion of a transaction leave the same keys, and both return or
neither does. -/
def SameDeletion (s : MvccStore) (request : DeleteRangeRequest) : Prop :=
  (((deleteRangeScript request).alone.run s).1.returned.isSome ↔
      ((opScript s.currentRevision (.requestDeleteRange request)).alone.run s).1.returned.isSome) ∧
    ∀ key, ((deleteRangeScript request).alone.run s).2.Live key ↔
      ((opScript s.currentRevision (.requestDeleteRange request)).alone.run s).2.Live key

/-! ### The ways to read -/

variable {stored live : RefMap} {s : MvccStore} {key rangeEnd start stop : Bytes}

/-- A read of the current records, and the header. -/
theorem read_alone (listed : Listed stored live s) (start stop : Bytes) (failure : String)
    (f : RangeResult → List KeyValue) :
    (perform (.range start stop s.currentRevision 0 false) failure >>= fun result => load >>= fun revision =>
        pure (.responseRange revision (f result) result.more result.count) : Script ResponseOp).alone.run s =
      if KeyIndex.Accepts s.keyIndex.held start stop then
        (.ok (.responseRange s.currentRevision (f (rangeOf live start stop)) false
          (rangeOf live start stop).count), s)
      else (.panic, s) := by
  rw [alone_bind]
  split_ifs with accepts
  · have read : (perform (.range start stop s.currentRevision 0 false) failure).alone.run s =
        (.ok (rangeOf live start stop), s) := by
      simp only [alone_perform, StoreCall.exec, listed.range_current accepts]
    rw [Exec.run_bind_ok read]
    rfl
  · have read : (perform (.range start stop s.currentRevision 0 false) failure).alone.run s =
        (.panic, s) := by
      simp only [alone_perform, StoreCall.exec, range_refused accepts]
    rw [Exec.run_bind_panic read]

/-- **The range request**, with no other field set. -/
theorem rangeScript_alone (listed : Listed stored live s) :
    (rangeScript (plainRange key rangeEnd)).alone.run s =
      if key = [] ∧ rangeEnd = [] then (.err ⟨.invalidArgument, "key must not be empty"⟩, s)
      else if KeyIndex.Accepts s.keyIndex.held key (effectiveRangeEnd key rangeEnd) then
        (.ok (.responseRange s.currentRevision (rangeOf live key (effectiveRangeEnd key rangeEnd)).kvs
          false (rangeOf live key (effectiveRangeEnd key rangeEnd)).count), s)
      else (.panic, s) := by
  have loaded : load.alone.run s = (.ok s.currentRevision, s) := rfl
  have unfiltered : ∀ kvs, finishRange (plainRange key rangeEnd) kvs = kvs := fun kvs => rfl
  have read := read_alone listed key (effectiveRangeEnd key rangeEnd)
    "range query failed: " fun result => finishRange (plainRange key rangeEnd) result.kvs
  simp only [unfiltered] at read
  by_cases empty : key = [] ∧ rangeEnd = []
  · have refused : rangeScript (plainRange key rangeEnd) =
        .fail ⟨.invalidArgument, "key must not be empty"⟩ := if_pos empty
    rw [refused, if_pos empty]
    rfl
  · have reads : rangeScript (plainRange key rangeEnd) =
        (load >>= fun readRevision => rangeRead (plainRange key rangeEnd) readRevision) := if_neg empty
    rw [reads, if_neg empty, alone_bind, Exec.run_bind_ok loaded, ← read]
    rfl

/-- **The range operation** of a transaction, executed first. -/
theorem opScript_range_alone (listed : Listed stored live s) :
    (opScript s.currentRevision (.requestRange ⟨key, rangeEnd⟩)).alone.run s =
      if KeyIndex.Accepts s.keyIndex.held key (txnRangeEnd key rangeEnd) then
        (.ok (.responseRange s.currentRevision (rangeOf live key (txnRangeEnd key rangeEnd)).kvs
          false (rangeOf live key (txnRangeEnd key rangeEnd)).count), s)
      else (.panic, s) :=
  read_alone listed _ _ "range in txn failed: " fun result => result.kvs

/-! ### The ways to delete -/

/-- A deletion as both paths make it: the previous values, the call, the header. -/
def deletion (wanted : Bool) (start stop : Bytes) (revision : Script Int)
    (readFailure failure : String) : Script ResponseOp := do
  let prevKvs ← previousScript wanted start stop revision readFailure
  let (_, deleted) ← perform (.deleteRange start stop) failure
  let revision ← load
  pure (.responseDeleteRange revision deleted.length prevKvs)

theorem deleteRangeScript_eq (request : DeleteRangeRequest) :
    deleteRangeScript request =
      if request.key = [] ∧ request.rangeEnd = [] then
        .fail ⟨.invalidArgument, "key must not be empty"⟩
      else deletion request.prevKv request.key (effectiveRangeEnd request.key request.rangeEnd) load
        "failed to get previous values: " "delete failed: " := rfl

theorem opScript_deleteRange_eq (revision : Int) (request : DeleteRangeRequest) :
    opScript revision (.requestDeleteRange request) =
      deletion request.prevKv request.key (txnRangeEnd request.key request.rangeEnd) (pure revision)
        "delete in txn failed: " "delete in txn failed: " := rfl

/-- The read of the previous values returns or panics, and changes nothing. -/
theorem previousScript_alone_run (listed : Listed stored live s) (start stop : Bytes) (wanted : Bool)
    {revision : Script Int} (loads : revision.alone.run s = (.ok s.currentRevision, s))
    (failure : String) :
    ∃ o, (previousScript wanted start stop revision failure).alone.run s = (o, s) ∧
      (if wanted = true → KeyIndex.Accepts s.keyIndex.held start stop then ∃ kvs, o = .ok kvs
        else o = .panic) := by
  cases wanted with
  | false => exact ⟨.ok [], rfl, by simp⟩
  | true =>
    have script : previousScript true start stop revision failure = (revision >>= fun r =>
        perform (.range start stop r 0 false) failure >>= fun result => pure result.kvs) := rfl
    rw [script, alone_bind, Exec.run_bind_ok loads, alone_bind]
    by_cases accepts : KeyIndex.Accepts s.keyIndex.held start stop
    · have read : (perform (.range start stop s.currentRevision 0 false) failure).alone.run s =
          (.ok (rangeOf live start stop), s) := by
        simp only [alone_perform, StoreCall.exec, listed.range_current accepts]
      rw [Exec.run_bind_ok read]
      exact ⟨_, rfl, by rw [if_pos fun _ => accepts]; exact ⟨_, rfl⟩⟩
    · have read : (perform (.range start stop s.currentRevision 0 false) failure).alone.run s =
          (.panic, s) := by
        simp only [alone_perform, StoreCall.exec, range_refused accepts]
      rw [Exec.run_bind_panic read]
      exact ⟨_, rfl, by rw [if_neg (by simpa using accepts)]⟩

/-- **A deletion without interruption** returns if the index takes its interval, and removes the live keys
of the interval. -/
theorem deletion_alone (stocked : Stocked stored live s) (room : s.currentRevision + 1 < 2 ^ 63)
    (start stop : Bytes) (wanted : Bool) {revision : Script Int}
    (loads : revision.alone.run s = (.ok s.currentRevision, s)) (readFailure failure : String) :
    (((deletion wanted start stop revision readFailure failure).alone.run s).1.returned.isSome ↔
        KeyIndex.Accepts s.keyIndex.held start stop) ∧
      ∀ k, ((deletion wanted start stop revision readFailure failure).alone.run s).2.Live k ↔
        s.Live k ∧ ¬ Bytes.InRange start stop k := by
  have lives := stocked.live_deleteRange room start stop
  obtain ⟨o, previous, outcome⟩ := previousScript_alone_run stocked.listed start stop wanted
    loads readFailure
  rw [deletion, alone_bind, Exec.run_bind]
  by_cases accepts : KeyIndex.Accepts s.keyIndex.held start stop
  · rw [if_pos fun _ => accepts] at outcome
    obtain ⟨prevKvs, rfl⟩ := outcome
    have returned := stocked.listed.deleteRange_run room accepts
    have called : (perform (.deleteRange start stop) failure).alone.run s =
        (.ok (s.currentRevision + 1, (rangeOf live start stop).kvs),
          s.afterDelete (deletedKeys s start stop)) := by
      simp only [alone_perform, StoreCall.exec, returned]
    simp only [previous]
    rw [returned] at lives
    rw [alone_bind, Exec.run_bind_ok called]
    exact ⟨iff_of_true rfl accepts, lives⟩
  · have panicked := MvccStore.deleteRange_refused room accepts
    have called : (perform (.deleteRange start stop) failure).alone.run s =
        (.panic, { s with currentRevision := s.currentRevision + 1 }) := by
      simp only [alone_perform, StoreCall.exec, panicked]
    rw [panicked] at lives
    split_ifs at outcome with unread
    · obtain ⟨prevKvs, rfl⟩ := outcome
      simp only [previous]
      rw [alone_bind, Exec.run_bind_panic called]
      exact ⟨iff_of_false Bool.false_ne_true accepts, lives⟩
    · subst outcome
      simp only [previous]
      exact ⟨iff_of_false Bool.false_ne_true accepts,
        fun k => (and_iff_left (not_inRange_of_inverted (KeyIndex.Accepts.of_not accepts).2 k)).symm⟩

/-! ### The first operation of a transaction -/

/-- What follows the response to the first operation: the other operations, and the header. -/
def restOfTxn (revision : Int) (succeeded : Bool) (rest : List (Option RequestOp))
    (response : ResponseOp) : Script TxnResponse := do
  let responses ← opsScript revision rest
  let revision ← load
  pure ⟨revision, succeeded, response :: responses⟩

/-- **The first operation of the executed branch** runs at the revision and on the store before the
transaction; its error or panic ends the transaction. -/
theorem txn_first_op (request : TxnRequest) {succeeded : Bool}
    (evaluated : (compareScript s.currentRevision request.compare).alone.run s = (.ok succeeded, s))
    {op : RequestOp} {rest : List (Option RequestOp)}
    (first : (if succeeded then request.success else request.failure) = some op :: rest) :
    (txnScript request).alone.run s =
      ((opScript s.currentRevision op).alone >>= fun response =>
        (restOfTxn s.currentRevision succeeded rest response).alone).run s := by
  have loaded : load.alone.run s = (.ok s.currentRevision, s) := rfl
  rw [txnScript, alone_bind, Exec.run_bind_ok loaded, alone_bind, Exec.run_bind_ok evaluated, first,
    opsScript, alone_bind, Exec.run_bind, alone_bind, Exec.run_bind, Exec.run_bind]
  rcases ran : (opScript s.currentRevision op).alone.run s with ⟨response | e | _, s'⟩
  · simp only
    rw [restOfTxn, alone_bind, alone_bind, Exec.run_bind, Exec.run_bind]
    rcases (opsScript s.currentRevision rest).alone.run s' with ⟨responses | e | _, s''⟩ <;> rfl
  · rfl
  · rfl

/-! ### When the ways agree -/

theorem lt_zero_iff (key : Bytes) : key < [0] ↔ key = [] := by
  cases key with
  | nil => simp [List.nil_lt_cons]
  | cons b rest => simp [List.cons_lt_cons_iff]

/-- Both ways read the range end alike, unless it is `[0x00]`. -/
theorem txnRangeEnd_eq (key : Bytes) (other : rangeEnd ≠ [0]) :
    txnRangeEnd key rangeEnd = effectiveRangeEnd key rangeEnd := by
  rw [txnRangeEnd, effectiveRangeEnd, if_neg other]

/-- A store that has never held a key has no live one. -/
theorem not_live_of_not_held (never : s.keyIndex.held = false) (k : Bytes) : ¬ s.Live k := by
  rintro ⟨listed, -⟩
  obtain ⟨rev, found⟩ := Option.isSome_iff_exists.mp listed
  exact Bool.eq_false_iff.mp never (KeyIndex.held_of_get found)

/-- The store has never held a key, or it holds none but the empty one and `[key, [0x00])` is not inverted. -/
def NullEndPasses (s : MvccStore) (key : Bytes) : Prop :=
  s.keyIndex.held = false ∨ key ≤ [0] ∧ ∀ k, s.Live k → k = []

/-- The keys in which the two readings of `[0x00]` differ. -/
theorem unbounded_agrees_iff (s : MvccStore) (key : Bytes) :
    (KeyIndex.Accepts s.keyIndex.held key [0] ∧
        ∀ k, s.Live k → (Bytes.InRange key [] k ↔ Bytes.InRange key [0] k)) ↔ NullEndPasses s key := by
  rcases Bool.eq_false_or_eq_true s.keyIndex.held with has | never
  · have valid : KeyIndex.Accepts s.keyIndex.held key [0] ↔ key ≤ [0] :=
      (KeyIndex.Accepts.iff_of_held has).trans (or_iff_right (by simp))
    rw [valid, NullEndPasses, or_iff_right (by simp [has])]
    refine and_congr_right fun low => forall₂_congr fun k lives => ?_
    have inside : Bytes.InRange key [] k ↔ key ≤ k := and_iff_left (Or.inl rfl)
    have bounded : Bytes.InRange key [0] k ↔ key ≤ k ∧ k = [] := by
      rw [Bytes.InRange, or_iff_right (by simp), lt_zero_iff]
    rw [inside, bounded, iff_self_and]
    constructor
    · intro same
      by_contra other
      -- a key that is not empty is not below `[0x00]`
      exact other (same (low.trans (not_lt.mp fun less => other ((lt_zero_iff k).mp less))))
    · exact fun empty _ => empty
  · exact iff_of_true ⟨.of_not_held never, fun k lives => absurd lives (not_live_of_not_held never k)⟩
      (.inl never)

/-- **The range request and the range operation agree** iff the request is not refused and, where its end
is `[0x00]`, the store has held no key yet, or holds nothing but the empty key and the key is not above
`[0x00]`. -/
theorem sameRange_iff (listed : Listed stored live s) :
    SameRange s key rangeEnd ↔ ¬ (key = [] ∧ rangeEnd = []) ∧ (rangeEnd = [0] → NullEndPasses s key) := by
  rw [SameRange, rangeScript_alone listed, opScript_range_alone listed]
  by_cases unbounded : rangeEnd = [0]
  · have effective : effectiveRangeEnd key rangeEnd = [] := by
      rw [effectiveRangeEnd, if_neg (by simp [unbounded]), if_pos unbounded]
    have literal : txnRangeEnd key rangeEnd = [0] := by
      rw [txnRangeEnd, if_neg (by simp [unbounded]), unbounded]
    have named : ¬ (key = [] ∧ rangeEnd = []) := by simp [unbounded]
    have whole : KeyIndex.Accepts s.keyIndex.held key [] := .of_valid (Or.inl rfl)
    rw [effective, literal, if_neg named, if_pos whole, ← unbounded_agrees_iff, and_iff_right named,
      forall_prop_of_true unbounded]
    by_cases accepts : KeyIndex.Accepts s.keyIndex.held key [0]
    · rw [if_pos accepts]
      simp only [Outcome.returned, Option.map_some, ResponseOp.listing, Option.some.injEq,
        Prod.mk.injEq, accepts, true_and]
      have kvs := rangeOf_kvs_eq_iff (fun _ _ => listed.named) (fun _ _ => listed.named) key [] key [0]
      have counts : (rangeOf live key []).kvs = (rangeOf live key [0]).kvs →
          (rangeOf live key []).count = (rangeOf live key [0]).count := by
        intro same
        simpa only [rangeOf, List.length_map] using congrArg List.length same
      rw [and_iff_left_of_imp counts, kvs]
      refine forall_congr' fun k => ?_
      rw [listed.live_iff]
      cases live.get? k with
      | none => simp
      | some kv =>
        by_cases below : Bytes.InRange key [] k <;> by_cases above : Bytes.InRange key [0] k <;>
          simp [below, above]
    · rw [if_neg accepts]
      simp [Outcome.returned, accepts]
  · rw [txnRangeEnd_eq key unbounded]
    simp only [unbounded, false_implies, and_true]
    by_cases empty : key = [] ∧ rangeEnd = []
    · rw [if_pos empty, if_pos (by rw [empty.1, empty.2]; exact .of_valid (by decide))]
      simp [Outcome.returned, empty]
    · rw [if_neg empty]
      exact iff_of_true rfl empty

/-- **The deletion request and the deletion operation agree** under the same condition. -/
theorem sameDeletion_iff (stocked : Stocked stored live s) (room : s.currentRevision + 1 < 2 ^ 63)
    (request : DeleteRangeRequest) :
    SameDeletion s request ↔ ¬ (request.key = [] ∧ request.rangeEnd = []) ∧
      (request.rangeEnd = [0] → NullEndPasses s request.key) := by
  have loaded : load.alone.run s = (.ok s.currentRevision, s) := rfl
  have fixed : (pure s.currentRevision : Script Int).alone.run s = (.ok s.currentRevision, s) := rfl
  obtain ⟨returns, left⟩ := deletion_alone stocked room request.key
    (txnRangeEnd request.key request.rangeEnd) request.prevKv fixed
    "delete in txn failed: " "delete in txn failed: "
  rw [SameDeletion, opScript_deleteRange_eq]
  simp only [returns, left]
  by_cases empty : request.key = [] ∧ request.rangeEnd = []
  · have refused : (deleteRangeScript request).alone.run s =
        (.err ⟨.invalidArgument, "key must not be empty"⟩, s) := by
      rw [deleteRangeScript_eq, if_pos empty]
      rfl
    have valid : KeyIndex.ValidRange request.key (txnRangeEnd request.key request.rangeEnd) := by
      rw [empty.1, empty.2]
      decide
    rw [refused]
    exact iff_of_false (fun same => absurd (same.1.mpr (.of_valid valid)) Bool.false_ne_true)
      fun ok => ok.1 empty
  · obtain ⟨returns', left'⟩ := deletion_alone stocked room request.key
      (effectiveRangeEnd request.key request.rangeEnd) request.prevKv loaded
      "failed to get previous values: " "delete failed: "
    rw [deleteRangeScript_eq, if_neg empty]
    simp only [returns', left', and_iff_right empty]
    by_cases unbounded : request.rangeEnd = [0]
    · have effective : effectiveRangeEnd request.key request.rangeEnd = [] := by
        rw [effectiveRangeEnd, if_neg (by simp [unbounded]), if_pos unbounded]
      have literal : txnRangeEnd request.key request.rangeEnd = [0] := by
        rw [txnRangeEnd, if_neg (by simp [unbounded]), unbounded]
      rw [effective, literal, forall_prop_of_true unbounded, ← unbounded_agrees_iff,
        iff_true_left (.of_valid (Or.inl rfl) : KeyIndex.Accepts s.keyIndex.held request.key [])]
      refine and_congr_right fun _ => forall_congr' fun k => ?_
      constructor
      · exact fun same lives => not_iff_not.mp ((and_congr_right_iff.mp same) lives)
      · exact fun same => and_congr_right fun lives => not_iff_not.mpr (same lives)
    · rw [txnRangeEnd_eq _ unbounded]
      simp [unbounded]

/-- **When the intervals of a transaction mean the same as standalone ones.** The first operation of the
executed branch runs as if it were alone. On every store it means the same as the standalone request, for a
range and for a deletion alike, iff that request is not refused for want of a key and a range end, and
where the range end is `[0x00]`, the store has never held a key, or the key is empty or `[0x00]` and the
store holds no key but the empty one. -/
theorem txn_ranges_agree_iff (s : MvccStore) (inUse : InUse s) (key rangeEnd : Bytes) (prevKv : Bool) :
    (∀ request succeeded op rest,
      (compareScript s.currentRevision request.compare).alone.run s = (.ok succeeded, s) →
      (if succeeded then request.success else request.failure) = some op :: rest →
      (txnScript request).alone.run s =
        ((opScript s.currentRevision op).alone >>= fun response =>
          (restOfTxn s.currentRevision succeeded rest response).alone).run s) ∧
    (SameRange s key rangeEnd ↔ ¬ (key = [] ∧ rangeEnd = []) ∧ (rangeEnd = [0] → NullEndPasses s key)) ∧
    (s.currentRevision + 1 < 2 ^ 63 →
      (SameDeletion s ⟨key, rangeEnd, prevKv⟩ ↔ ¬ (key = [] ∧ rangeEnd = []) ∧
        (rangeEnd = [0] → NullEndPasses s key))) := by
  obtain ⟨stored, live, stocked⟩ := inUse.stocked
  exact ⟨fun request _ _ _ evaluated first => txn_first_op request evaluated first,
    sameRange_iff stocked.listed, fun room => sameDeletion_iff stocked room ⟨key, rangeEnd, prevKv⟩⟩

/-- One key. -/
def oneKeyStore : MvccStore := ((MvccStore.put [97] [49] 0).run (.new .empty)).2

theorem oneKeyStore_inUse : InUse oneKeyStore := .put .fresh (by decide) (by decide)

/-- A request with another range end means the same in both places. -/
theorem bounded_interval_agrees :
    SameRange oneKeyStore [97] [98] ∧ SameDeletion oneKeyStore ⟨[97], [98], true⟩ := by
  obtain ⟨-, ranges, deletions⟩ := txn_ranges_agree_iff oneKeyStore oneKeyStore_inUse [97] [98] true
  exact ⟨ranges.mpr (by simp), (deletions (by decide)).mpr (by simp)⟩

/-- **`[0x00]` from the key `a` on**: the standalone range lists the key and the standalone deletion
removes it; in a transaction both panic. And without key and range end only the standalone request is
refused. -/
theorem null_range_end_differs :
    InUse oneKeyStore ∧ ¬ SameRange oneKeyStore [97] [0] ∧
      ¬ SameDeletion oneKeyStore ⟨[97], [0], false⟩ ∧ ¬ SameRange oneKeyStore [] [] ∧
      ((opScript oneKeyStore.currentRevision (.requestRange ⟨[97], [0]⟩)).alone.run oneKeyStore).1 =
        .panic := by
  refine ⟨oneKeyStore_inUse, ?_, ?_, ?_, by decide +kernel⟩
  · rw [SameRange]
    decide +kernel
  · rintro ⟨both, -⟩
    revert both
    decide +kernel
  · rw [SameRange]
    decide +kernel

end Rusd
