/-
**The intervals of a request** (`api/kv_service.rs`; `storage/index.rs`, `range`; `watch/mod.rs`,
`WatchRange::contains`).

`BTreeMap::range` panics on an interval whose start is above its end, and no handler looks at the order of
`key` and `range_end`.

* `Script.calls` — the calls that a handler makes on a store, and `AllUpright` — none of them has an
  inverted interval. `allUpright_bind` takes a handler apart.
* `no_inverted_interval_iff` — the requests that never take the index to an inverted interval, on the leader
  and on a follower.
* `contains_iff` — a watch contains the keys of the interval that the same key and range end stand for in a
  range request, and `range_agrees_with_watch` — the two agree on every store in use.
-/

import Rusd.Api.FollowerDelete
import Rusd.Api.TxnRange
import Rusd.Storage.Chronicle
import Rusd.Watch.Hub

namespace Rusd

open MvccStore Script

/-! ### Watches -/

/-- **A watch contains the keys of the interval** of a range request with the same key and range end. -/
theorem contains_iff (key rangeEnd k : Bytes) :
    (WatchRange.mk key rangeEnd).contains k = true ↔
      Bytes.InRange key (effectiveRangeEnd key rangeEnd) k := by
  unfold WatchRange.contains effectiveRangeEnd
  by_cases low : k < key
  · rw [if_pos low]
    exact iff_of_false Bool.false_ne_true fun inside => absurd low (not_lt.mpr inside.1)
  · have above : key ≤ k := not_lt.mp low
    rw [if_neg low]
    split_ifs with single unbounded
    · rw [decide_eq_true_eq]
      exact Bytes.inRange_single.symm
    · exact iff_of_true rfl ⟨above, Or.inl rfl⟩
    · rw [decide_eq_true_eq, Bytes.InRange, or_iff_right single, and_iff_right above]

/-- The interval of a range request is upright exactly for these range ends. -/
theorem validRange_effective_iff (key rangeEnd : Bytes) :
    KeyIndex.ValidRange key (effectiveRangeEnd key rangeEnd) ↔
      rangeEnd = [] ∨ rangeEnd = [0] ∨ key ≤ rangeEnd := by
  unfold effectiveRangeEnd
  split_ifs with single unbounded
  · exact iff_of_true (validRange_singleKeyEnd key) (Or.inl single)
  · exact iff_of_true (Or.inl rfl) (Or.inr (Or.inl unbounded))
  · rw [KeyIndex.ValidRange, or_iff_right single]
    exact ((or_iff_right single).trans (or_iff_right unbounded)).symm

/-- **Reads and watches agree on ranges.** On every store in use, for every key and range end that a range
request admits and whose interval is upright: the keys that the request returns are the live keys that the
watch contains. -/
theorem range_agrees_with_watch (s : MvccStore) (inUse : InUse s) (key rangeEnd : Bytes)
    (named : ¬ (key = [] ∧ rangeEnd = []))
    (upright : rangeEnd = [] ∨ rangeEnd = [0] ∨ key ≤ rangeEnd) :
    ∃ kvs count, (rangeScript (plainRange key rangeEnd)).alone.run s =
        (.ok (.responseRange s.currentRevision kvs false count), s) ∧
      ∀ k, (∃ kv ∈ kvs, kv.key = k) ↔ s.Live k ∧ (WatchRange.mk key rangeEnd).contains k = true := by
  obtain ⟨stored, live, stocked⟩ := inUse.stocked
  have returned := @rangeScript_alone stored live s key rangeEnd stocked.listed
  rw [if_neg named, if_pos (.of_valid ((validRange_effective_iff key rangeEnd).mpr upright))] at returned
  refine ⟨_, _, returned, fun k => ?_⟩
  rw [stocked.listed.live_iff, contains_iff, rangeOf]
  simp only [List.mem_map, List.mem_filter, decide_eq_true_eq, Prod.exists, OrdMap.mem_entries_iff]
  constructor
  · rintro ⟨kv, ⟨key', _, ⟨found, inside⟩, rfl⟩, rfl⟩
    rw [stocked.listed.named found]
    exact ⟨Option.isSome_iff_exists.mpr ⟨_, found⟩, inside⟩
  · rintro ⟨there, inside⟩
    obtain ⟨kv, found⟩ := Option.isSome_iff_exists.mp there
    exact ⟨kv, ⟨k, kv, ⟨found, inside⟩, rfl⟩, stocked.listed.named found⟩

/-- Keys that begin alike, in the interval of one of them and of everything that begins with it. -/
theorem alike_keys_agree :
    ∃ kvs count, (rangeScript (plainRange [97] [0])).alone.run colonStore =
        (.ok (.responseRange 4 kvs false count), colonStore) ∧
      ((∃ kv ∈ kvs, kv.key = [97, 98]) ↔ colonStore.Live [97, 98] ∧
        (WatchRange.mk [97] [0]).contains [97, 98] = true) := by
  obtain ⟨kvs, count, returned, agree⟩ := range_agrees_with_watch colonStore colonStore_inUse [97] [0]
    (by decide) (by decide)
  have revision : colonStore.currentRevision = 4 := by decide +kernel
  rw [revision] at returned
  exact ⟨kvs, count, returned, agree [97, 98]⟩

/-! ### The calls of a handler -/

/-- The call does not take the index to an inverted interval. -/
def StoreCall.Upright : StoreCall → Prop
  | .range start stop _ _ _ => KeyIndex.ValidRange start stop
  | .deleteRange start stop => KeyIndex.ValidRange start stop
  | .currentRevision => True
  | .put _ _ _ => True
  | .compact _ => True

namespace Script

variable {α β : Type}

/-- The calls that the script makes on a store. -/
def calls : Script α → MvccStore → List StoreCall
  | .ret _, _ => []
  | .fail _, _ => []
  | .crashed, _ => []
  | .call c next, s =>
    c :: match c.exec.run s with
      | (.ok value, s') => (next (.ok value)).calls s'
      | (.err e, s') => (next (.error e)).calls s'
      | (.panic, _) => []

end Script

/-- No call of the script has an inverted interval. -/
def AllUpright {α : Type} (m : Script α) (s : MvccStore) : Prop := ∀ c ∈ m.calls s, c.Upright

section Calls

variable {α β : Type}

theorem allUpright_ret (value : α) (s : MvccStore) : AllUpright (.ret value) s :=
  fun _ member => by cases member

theorem allUpright_fail (status : Status) (s : MvccStore) : AllUpright (α := α) (.fail status) s :=
  fun _ member => by cases member

/-- **A script and what follows it.** -/
theorem allUpright_bind (m : Script α) (f : α → Script β) (s : MvccStore) :
    AllUpright (m >>= f) s ↔
      AllUpright m s ∧ ∀ a s', m.alone.run s = (.ok a, s') → AllUpright (f a) s' := by
  induction m generalizing s with
  | ret value =>
    refine ⟨fun upright => ⟨allUpright_ret value s, fun a s' ran => ?_⟩, fun both => both.2 value s rfl⟩
    cases ran
    exact upright
  | fail status =>
    refine ⟨fun _ => ⟨allUpright_fail status s, fun a s' ran => by cases ran⟩, fun _ => ?_⟩
    exact allUpright_fail status s
  | crashed =>
    refine ⟨fun upright => ⟨upright, fun a s' ran => by cases ran⟩, fun both => both.1⟩
  | call c next ih =>
    have first : ∀ {γ : Type} (rest : Except StorageError c.Answer → Script γ),
        AllUpright (.call c rest) s ↔ c.Upright ∧ match c.exec.run s with
          | (.ok value, s') => AllUpright (rest (.ok value)) s'
          | (.err e, s') => AllUpright (rest (.error e)) s'
          | (.panic, _) => True := by
      intro γ rest
      rw [AllUpright, Script.calls, List.forall_mem_cons]
      refine and_congr_right fun _ => ?_
      rcases c.exec.run s with ⟨value | e | _, s'⟩
      · exact Iff.rfl
      · exact Iff.rfl
      · exact iff_of_true (fun _ member => by cases member) trivial
    have whole : (Script.call c next >>= f) = .call c fun answer => next answer >>= f := rfl
    rw [whole, first, first]
    rcases ran : c.exec.run s with ⟨value | e | _, s'⟩
    · simp only [ih, Script.alone, ran, and_assoc]
    · simp only [ih, Script.alone, ran, and_assoc]
    · simp only [Script.alone, ran, and_true, iff_self_and]
      exact fun _ a s' ran => by cases ran

theorem allUpright_perform (c : StoreCall) (failure : String) (s : MvccStore) :
    AllUpright (perform c failure) s ↔ c.Upright := by
  rw [AllUpright, perform, Script.calls, List.forall_mem_cons]
  refine and_iff_left ?_
  rcases c.exec.run s with ⟨value | e | _, s'⟩ <;> exact fun _ member => by cases member

theorem allUpright_attempt (c : StoreCall) (s : MvccStore) :
    AllUpright (attempt c) s ↔ c.Upright := by
  rw [AllUpright, attempt, Script.calls, List.forall_mem_cons]
  refine and_iff_left ?_
  rcases c.exec.run s with ⟨value | e | _, s'⟩ <;> exact fun _ member => by cases member

theorem allUpright_load (s : MvccStore) : AllUpright load s :=
  (allUpright_perform .currentRevision "" s).mpr trivial

/-- A handler ends with a load for its header. -/
theorem allUpright_header (g : Int → α) (s : MvccStore) :
    AllUpright (load >>= fun revision => pure (g revision)) s :=
  (allUpright_bind _ _ s).mpr ⟨allUpright_load s, fun _ _ _ => allUpright_ret _ _⟩

end Calls

/-! ### Ranges and deletions -/

section Requests

variable {hist : Int → Bytes → Option KeyValue} {stored live : RefMap} {s : MvccStore}

theorem rangeRead_upright_iff (request : FullRangeRequest) (readRevision : Int) (s : MvccStore) :
    AllUpright (rangeRead request readRevision) s ↔
      KeyIndex.ValidRange request.key (effectiveRangeEnd request.key request.rangeEnd) := by
  rw [rangeRead, allUpright_bind, allUpright_perform]
  exact and_iff_left fun _ _ _ => allUpright_header _ _

/-- **A range request** that is admitted. -/
theorem rangeScript_upright_iff {request : FullRangeRequest}
    (named : ¬ (request.key = [] ∧ request.rangeEnd = [])) (s : MvccStore) :
    AllUpright (rangeScript request) s ↔
      KeyIndex.ValidRange request.key (effectiveRangeEnd request.key request.rangeEnd) := by
  unfold rangeScript
  rw [if_neg named]
  split_ifs
  · exact rangeRead_upright_iff request request.revision s
  · rw [allUpright_bind]
    refine ⟨fun upright => ?_, fun valid => ⟨allUpright_load s, fun _ _ _ => ?_⟩⟩
    · exact (rangeRead_upright_iff request _ _).mp (upright.2 s.currentRevision s rfl)
    · exact (rangeRead_upright_iff request _ _).mpr valid

/-- A range call on an upright interval returns, and leaves the store alone. -/
theorem Chronicle.perform_range (chronicle : Chronicle hist stored live s) {start stop : Bytes}
    (valid : KeyIndex.ValidRange start stop) (r : Int) (failure : String) :
    ∃ result, (perform (.range start stop r 0 false) failure).alone.run s = (.ok result, s) :=
  ⟨_, by simp only [alone_perform, StoreCall.exec, chronicle.range (.of_valid valid)]; rfl⟩

/-- The read of the previous values. -/
theorem previousScript_upright_iff {revision : Script Int} {r : Int}
    (loads : revision.alone.run s = (.ok r, s)) (upright : AllUpright revision s) (wanted : Bool)
    (start stop : Bytes) (failure : String) :
    AllUpright (previousScript wanted start stop revision failure) s ↔
      (wanted = true → KeyIndex.ValidRange start stop) := by
  cases wanted with
  | false => exact iff_of_true (allUpright_ret [] s) fun impossible => by cases impossible
  | true =>
    have script : previousScript true start stop revision failure = (revision >>= fun r =>
        perform (.range start stop r 0 false) failure >>= fun result => pure result.kvs) := rfl
    rw [script, allUpright_bind, and_iff_right upright, forall_prop_of_true rfl]
    constructor
    · intro reads
      have read := (allUpright_bind _ _ _).mp (reads r s loads)
      exact (allUpright_perform _ _ _).mp read.1
    · intro valid r' s' ran
      rw [allUpright_bind, allUpright_perform]
      exact ⟨valid, fun _ _ _ => allUpright_ret _ _⟩

theorem previousScript_returns (chronicle : Chronicle hist stored live s) {revision : Script Int} {r : Int}
    (loads : revision.alone.run s = (.ok r, s)) (wanted : Bool) {start stop : Bytes}
    (valid : KeyIndex.ValidRange start stop) (failure : String) :
    ∃ kvs, (previousScript wanted start stop revision failure).alone.run s = (.ok kvs, s) := by
  cases wanted with
  | false => exact ⟨[], rfl⟩
  | true =>
    obtain ⟨result, read⟩ := chronicle.perform_range valid r failure
    refine ⟨result.kvs, ?_⟩
    show ((revision >>= fun r => perform (.range start stop r 0 false) failure >>= fun result =>
      pure result.kvs : Script (List KeyValue)).alone.run s) = _
    rw [alone_bind, Exec.run_bind_ok loads, alone_bind, Exec.run_bind_ok read]
    rfl

/-- **A deletion**, standalone or in a transaction. -/
theorem deletion_upright_iff {revision : Script Int} {r : Int}
    (loads : revision.alone.run s = (.ok r, s)) (upright : AllUpright revision s) (wanted : Bool)
    (start stop : Bytes) (readFailure failure : String) :
    AllUpright (deletion wanted start stop revision readFailure failure) s ↔
      KeyIndex.ValidRange start stop := by
  rw [deletion, allUpright_bind, previousScript_upright_iff loads upright]
  constructor
  · rintro ⟨reads, deletes⟩
    by_contra inverted
    have silent : wanted = false := by
      by_contra asked
      exact inverted (reads (by simpa using asked))
    subst silent
    have call := (allUpright_bind _ _ _).mp (deletes [] s rfl)
    exact inverted ((allUpright_perform _ _ _).mp call.1)
  · refine fun valid => ⟨fun _ => valid, fun kvs s' _ => ?_⟩
    rw [allUpright_bind, allUpright_perform]
    exact ⟨valid, fun _ _ _ => allUpright_header _ _⟩

theorem deletion_returns (chronicle : Chronicle hist stored live s) {revision : Script Int} {r : Int}
    (loads : revision.alone.run s = (.ok r, s)) (wanted : Bool) {start stop : Bytes}
    (valid : KeyIndex.ValidRange start stop) (room : s.currentRevision + 1 < 2 ^ 63)
    (readFailure failure : String) :
    ∃ response, (deletion wanted start stop revision readFailure failure).alone.run s =
      (.ok response, s.afterDelete (deletedKeys s start stop)) := by
  obtain ⟨kvs, previous⟩ := previousScript_returns chronicle loads wanted valid readFailure
  have called : (perform (.deleteRange start stop) failure).alone.run s =
      (.ok (s.currentRevision + 1, (rangeOf live start stop).kvs),
        s.afterDelete (deletedKeys s start stop)) := by
    simp only [alone_perform, StoreCall.exec, chronicle.stocked.listed.deleteRange_run room (.of_valid valid)]
  rw [deletion, alone_bind, Exec.run_bind_ok previous, alone_bind, Exec.run_bind_ok called]
  exact ⟨_, rfl⟩

/-- **A deletion request** that is admitted, on the leader. -/
theorem deleteRangeScript_upright_iff {request : DeleteRangeRequest}
    (named : ¬ (request.key = [] ∧ request.rangeEnd = [])) (s : MvccStore) :
    AllUpright (deleteRangeScript request) s ↔
      KeyIndex.ValidRange request.key (effectiveRangeEnd request.key request.rangeEnd) := by
  have loaded : load.alone.run s = (.ok s.currentRevision, s) := rfl
  rw [deleteRangeScript_eq, if_neg named]
  exact deletion_upright_iff loaded (allUpright_load s) _ _ _ _ _

/-! ### Transactions -/

/-- The interval of an operation is upright. -/
def RequestOp.Upright : RequestOp → Prop
  | .requestRange request => KeyIndex.ValidRange request.key (txnRangeEnd request.key request.rangeEnd)
  | .requestDeleteRange request =>
    KeyIndex.ValidRange request.key (txnRangeEnd request.key request.rangeEnd)
  | .requestPut _ => True
  | .requestTxn => True

/-- The intervals of the operations are upright, up to a nested transaction, which ends them. -/
def UprightOps : List (Option RequestOp) → Prop
  | [] => True
  | none :: rest => UprightOps rest
  | some op :: rest => op.Upright ∧ (op ≠ .requestTxn → UprightOps rest)

theorem opScript_upright_iff (revision : Int) (op : RequestOp) (s : MvccStore) :
    AllUpright (opScript revision op) s ↔ op.Upright := by
  cases op with
  | requestRange request =>
    rw [opScript, allUpright_bind, allUpright_perform]
    exact and_iff_left fun _ _ _ => allUpright_header _ _
  | requestPut request =>
    refine iff_of_true ((allUpright_bind _ _ s).mpr ⟨?_, fun _ _ _ => allUpright_header _ _⟩) trivial
    exact (allUpright_perform _ _ _).mpr trivial
  | requestDeleteRange request =>
    have fixed : (pure revision : Script Int).alone.run s = (.ok revision, s) := rfl
    rw [opScript_deleteRange_eq]
    exact deletion_upright_iff fixed (allUpright_ret _ _) _ _ _ _ _
  | requestTxn => exact iff_of_true (allUpright_fail _ _) trivial

/-- An upright operation returns, and leaves a store in use. -/
theorem opScript_returns (inUse : InUse s) (revision : Int) {op : RequestOp} (upright : op.Upright)
    (flat : op ≠ .requestTxn) (room : s.currentRevision + 1 < 2 ^ 63)
    (short : ∀ request, op = .requestPut request →
      StoreHistory.Short (.put request.key request.value request.lease)) :
    ∃ response s', (opScript revision op).alone.run s = (.ok response, s') ∧ InUse s' ∧
      s'.currentRevision ≤ s.currentRevision + 1 := by
  obtain ⟨hist, stored, live, chronicle⟩ := inUse.chronicle
  cases op with
  | requestRange request =>
    obtain ⟨result, read⟩ := chronicle.perform_range upright revision "range in txn failed: "
    rw [opScript, alone_bind, Exec.run_bind_ok read]
    exact ⟨_, s, rfl, inUse, by omega⟩
  | requestPut request =>
    have written := chronicle.stocked.listed.put_run room request.key request.value request.lease
    have called : (perform (.put request.key request.value request.lease) "put in txn failed: ").alone.run
        s = (.ok (s.currentRevision + 1, refRecord stored (s.currentRevision + 1) request.key
          request.value request.lease, stored.get? request.key),
          s.afterPut (refRecord stored (s.currentRevision + 1) request.key request.value
            request.lease)) := by
      simp only [alone_perform, StoreCall.exec, written]
    have after := InUse.put inUse room (short request rfl)
    rw [written] at after
    rw [opScript, alone_bind, Exec.run_bind_ok called]
    exact ⟨_, _, rfl, after, le_rfl⟩
  | requestDeleteRange request =>
    have fixed : (pure revision : Script Int).alone.run s = (.ok revision, s) := rfl
    obtain ⟨response, ran⟩ := deletion_returns chronicle fixed request.prevKv upright room
      "delete in txn failed: " "delete in txn failed: "
    have after := InUse.deleteRange inUse room request.key (txnRangeEnd request.key request.rangeEnd)
    rw [chronicle.stocked.listed.deleteRange_run room (.of_valid upright)] at after
    rw [opScript_deleteRange_eq]
    exact ⟨response, _, ran, after, le_rfl⟩
  | requestTxn => exact absurd rfl flat

/-- **The operations of a transaction.** -/
theorem opsScript_upright_iff (revision : Int) {ops : List (Option RequestOp)} (inUse : InUse s)
    (room : s.currentRevision + ops.length < 2 ^ 63)
    (short : ∀ request, some (.requestPut request) ∈ ops →
      StoreHistory.Short (.put request.key request.value request.lease)) :
    AllUpright (opsScript revision ops) s ↔ UprightOps ops := by
  induction ops generalizing s with
  | nil => exact iff_of_true (allUpright_ret _ _) trivial
  | cons op rest ih =>
    have shorter := fun request member => short request (List.mem_cons_of_mem op member)
    rw [List.length_cons] at room
    push_cast at room
    cases op with
    | none => exact ih inUse (by omega) shorter
    | some op =>
      rw [opsScript, allUpright_bind, opScript_upright_iff, UprightOps]
      refine and_congr_right fun upright => ?_
      by_cases nested : op = .requestTxn
      · subst nested
        exact iff_of_true (fun _ _ ran => by cases ran) fun flat => absurd rfl flat
      · obtain ⟨response, s', ran, after, counter⟩ := opScript_returns inUse revision upright nested
          (by omega) fun request same => short request (by rw [same]; exact List.mem_cons_self)
        rw [forall_prop_of_true nested, ← ih after (by omega) shorter]
        constructor
        · intro later
          exact ((allUpright_bind _ _ _).mp (later response s' ran)).1
        · intro later a t same
          rw [ran] at same
          cases same
          exact (allUpright_bind _ _ _).mpr ⟨later, fun _ _ _ => allUpright_ret _ _⟩

/-- The comparisons return, and leave the store alone. -/
theorem compareScript_returns (chronicle : Chronicle hist stored live s) (revision : Int)
    (compares : List Compare) :
    AllUpright (compareScript revision compares) s ∧
      ∃ succeeded, (compareScript revision compares).alone.run s = (.ok succeeded, s) := by
  induction compares with
  | nil => exact ⟨allUpright_ret _ _, true, rfl⟩
  | cons cmp rest ih =>
    have valid : KeyIndex.ValidRange cmp.key (singleKeyEnd cmp.key) := validRange_singleKeyEnd cmp.key
    obtain ⟨result, ranged⟩ : ∃ result,
        s.range cmp.key (singleKeyEnd cmp.key) revision 1 false = .ok result :=
      ⟨_, chronicle.range (.of_valid valid) revision 1⟩
    have read : (attempt (.range cmp.key (singleKeyEnd cmp.key) revision 1 false)).alone.run s =
        (.ok (some result), s) := by
      simp only [alone_attempt, StoreCall.exec, ranged]
    rw [compareScript, allUpright_bind, allUpright_attempt, alone_bind, Exec.run_bind_ok read]
    by_cases holds : cmp.holds result.kvs.head? = true
    · have continues : (if cmp.holds ((some result).bind fun result => result.kvs.head?) then
          compareScript revision rest else pure false) = compareScript revision rest := if_pos holds
      refine ⟨⟨valid, fun a s' ran => ?_⟩, ?_⟩
      · rw [read] at ran
        cases ran
        exact continues.symm.subst (motive := fun m => AllUpright m s) ih.1
      · exact continues.symm.subst (motive := fun m => ∃ succeeded, m.alone.run s = (.ok succeeded, s)) ih.2
    · have stops : (if cmp.holds ((some result).bind fun result => result.kvs.head?) then
          compareScript revision rest else pure false) = pure false := if_neg holds
      refine ⟨⟨valid, fun a s' ran => ?_⟩, ?_⟩
      · rw [read] at ran
        cases ran
        exact stops.symm.subst (motive := fun m => AllUpright m s) (allUpright_ret false s)
      · exact stops.symm.subst (motive := fun m => ∃ succeeded, m.alone.run s = (.ok succeeded, s))
          ⟨false, rfl⟩

/-- **A transaction.** -/
theorem txnScript_upright_iff (inUse : InUse s) {request : TxnRequest}
    (short : ∀ put, some (.requestPut put) ∈ request.success ∨ some (.requestPut put) ∈ request.failure →
      StoreHistory.Short (.put put.key put.value put.lease))
    (room : s.currentRevision + request.success.length + request.failure.length < 2 ^ 63) :
    AllUpright (txnScript request) s ↔
      ∀ succeeded, (compareScript s.currentRevision request.compare).alone.run s = (.ok succeeded, s) →
        UprightOps (if succeeded then request.success else request.failure) := by
  obtain ⟨hist, stored, live, chronicle⟩ := inUse.chronicle
  obtain ⟨compared, succeeded, evaluated⟩ :=
    compareScript_returns chronicle s.currentRevision request.compare
  have loaded : load.alone.run s = (.ok s.currentRevision, s) := rfl
  have branch : AllUpright (opsScript s.currentRevision
      (if succeeded then request.success else request.failure)) s ↔
        UprightOps (if succeeded then request.success else request.failure) := by
    refine opsScript_upright_iff s.currentRevision inUse ?_ fun put member => short put ?_
    · split_ifs <;> omega
    · split_ifs at member
      · exact Or.inl member
      · exact Or.inr member
  constructor
  · intro upright decided same
    rw [evaluated] at same
    cases same
    have afterLoad := ((allUpright_bind _ _ _).mp upright).2 _ _ loaded
    have afterCompare := ((allUpright_bind _ _ _).mp afterLoad).2 _ _ evaluated
    exact branch.mp ((allUpright_bind _ _ _).mp afterCompare).1
  · intro upright
    refine (allUpright_bind _ _ _).mpr ⟨allUpright_load s, fun r s' ran => ?_⟩
    rw [loaded] at ran
    cases ran
    refine (allUpright_bind _ _ _).mpr ⟨compared, fun decided s' ran => ?_⟩
    rw [evaluated] at ran
    cases ran
    exact (allUpright_bind _ _ _).mpr ⟨branch.mpr (upright succeeded evaluated), fun _ _ _ =>
      allUpright_header _ _⟩

end Requests

/-! ### Which requests are safe -/

/-- No call that the request leads to has an inverted interval: neither a call of its handler, nor, for a
deletion, the call of a follower that applies its entry. -/
def SafeOn (s : MvccStore) (request : KvRequest) : Prop :=
  AllUpright request.script s ∧ ∀ deletion, request = .deleteRange deletion →
    ∀ start stop, followerCommand (deleteProposal deletion.key deletion.rangeEnd) =
      some (.deleteRange start stop) → KeyIndex.ValidRange start stop

/-- The handler's own check: a range or a deletion names a key or an end. -/
def KvRequest.Admitted : KvRequest → Prop
  | .range request => ¬ (request.key = [] ∧ request.rangeEnd = [])
  | .deleteRange request => ¬ (request.key = [] ∧ request.rangeEnd = [])
  | .txn _ => True
  | .put _ => False
  | .compact _ => False

instance : DecidablePred KvRequest.Admitted
  | .range _ => inferInstanceAs (Decidable (¬ _))
  | .deleteRange _ => inferInstanceAs (Decidable (¬ _))
  | .txn _ => isTrue trivial
  | .put _ => isFalse id
  | .compact _ => isFalse id

/-- The requests whose intervals are in order: the end of a range is empty, `[0x00]` or not below its key;
for a deletion this holds of the interval that a follower reads back as well; and for a transaction the end
of every operation of the branch that its comparisons select is empty or not below its key, up to a nested
transaction. -/
def KvRequest.Ordered (s : MvccStore) : KvRequest → Prop
  | .range request => request.rangeEnd = [] ∨ request.rangeEnd = [0] ∨ request.key ≤ request.rangeEnd
  | .deleteRange request =>
    (request.rangeEnd = [] ∨ request.rangeEnd = [0] ∨ request.key ≤ request.rangeEnd) ∧
      KeyIndex.ValidRange (readBack request.key request.rangeEnd).1
        (readBack request.key request.rangeEnd).2
  | .txn request => ∀ succeeded,
      (compareScript s.currentRevision request.compare).alone.run s = (.ok succeeded, s) →
        UprightOps (if succeeded then request.success else request.failure)
  | .put _ => True
  | .compact _ => True

/-- The puts of a transaction can be encoded, and there are revisions left for its operations. -/
def KvRequest.Fits (s : MvccStore) : KvRequest → Prop
  | .txn request =>
    (∀ put, some (.requestPut put) ∈ request.success ∨ some (.requestPut put) ∈ request.failure →
      StoreHistory.Short (.put put.key put.value put.lease)) ∧
    s.currentRevision + request.success.length + request.failure.length < 2 ^ 63
  | _ => True

/-- A handler of the service wraps the response. -/
theorem allUpright_wrapped {α β : Type} (m : Script α) (wrap : α → β) (s : MvccStore) :
    AllUpright (m >>= fun response => pure (wrap response)) s ↔ AllUpright m s := by
  rw [allUpright_bind]
  exact and_iff_left fun _ _ _ => allUpright_ret _ _

/-- **Which requests never take the index to an inverted interval.** For every store in use and every
range, deletion or transaction that is admitted: no call of its handler, and no call of a follower that
applies its entry, has an inverted interval, exactly if the intervals of the request are in order. -/
theorem no_inverted_interval_iff (s : MvccStore) (inUse : InUse s) (request : KvRequest)
    (admitted : request.Admitted) (fits : request.Fits s) : SafeOn s request ↔ request.Ordered s := by
  cases request with
  | put request => exact admitted.elim
  | compact revision => exact admitted.elim
  | range request =>
    have handler : AllUpright (KvRequest.range request).script s ↔
        AllUpright (rangeScript request) s := allUpright_wrapped _ _ s
    rw [SafeOn, handler, rangeScript_upright_iff admitted, validRange_effective_iff, KvRequest.Ordered]
    exact and_iff_left fun deletion same => by cases same
  | deleteRange request =>
    have handler : AllUpright (KvRequest.deleteRange request).script s ↔
        AllUpright (deleteRangeScript request) s := allUpright_wrapped _ _ s
    rw [SafeOn, handler, deleteRangeScript_upright_iff admitted, validRange_effective_iff,
      KvRequest.Ordered]
    refine and_congr_right fun _ => ⟨fun follower => ?_, fun valid deletion same start stop command => ?_⟩
    · exact follower request rfl _ _ (followerCommand_readBack request.key request.rangeEnd)
    · cases same
      rw [followerCommand_readBack] at command
      cases command
      exact valid
  | txn request =>
    have handler : AllUpright (KvRequest.txn request).script s ↔
        AllUpright (txnScript request) s := allUpright_wrapped _ _ s
    rw [SafeOn, handler, txnScript_upright_iff inUse fits.1 fits.2, KvRequest.Ordered]
    exact and_iff_left fun deletion same => by cases same

/-- The deletion of one key is safe. -/
theorem plain_deletion_safe : SafeOn colonStore (.deleteRange ⟨[97], [], false⟩) := by
  have back : readBack [97] [] = ([97], effectiveRangeEnd [97] []) :=
    readBack_eq (by decide) (by decide) (by decide) (by decide)
  refine (no_inverted_interval_iff colonStore colonStore_inUse (.deleteRange ⟨[97], [], false⟩)
    (by decide) trivial).mpr ⟨Or.inl rfl, ?_⟩
  rw [back]
  exact validRange_singleKeyEnd [97]

/-- **Three admitted requests that panic.** The range from `b` to `a` ends the serving task; the deletion of
everything from `a` on ends the apply loop of a follower; and in a transaction the same interval ends the
serving task. -/
theorem inverted_intervals_panic :
    InUse colonStore ∧
      ((KvRequest.range (plainRange [98] [97])).Admitted ∧
        ¬ SafeOn colonStore (.range (plainRange [98] [97])) ∧
        ((rangeScript (plainRange [98] [97])).alone.run colonStore).1 = .panic) ∧
      ((KvRequest.deleteRange ⟨[97], [0], false⟩).Admitted ∧
        ¬ SafeOn colonStore (.deleteRange ⟨[97], [0], false⟩) ∧
        ((followerOf colonStore).apply (deleteProposal [97] [0])).applying = false) ∧
      ¬ SafeOn colonStore (.txn ⟨[], [some (.requestDeleteRange ⟨[97], [0], false⟩)], []⟩) := by
  refine ⟨colonStore_inUse, ⟨by decide, ?_, by decide +kernel⟩, ⟨by decide, ?_, by decide +kernel⟩, ?_⟩
  · intro safe
    have upright := (allUpright_wrapped _ _ _).mp safe.1
    exact absurd ((rangeScript_upright_iff (by decide) colonStore).mp upright) (by decide)
  · intro safe
    exact absurd (safe.2 _ rfl _ _ (followerCommand_readBack [97] [0])) (by decide +kernel)
  · intro safe
    have upright := (allUpright_wrapped _ _ _).mp safe.1
    have executed := (txnScript_upright_iff colonStore_inUse (fun put member => by simp at member)
      (by decide)).mp upright true rfl
    have inverted : ¬ KeyIndex.ValidRange [97] (txnRangeEnd [97] [0]) := by decide
    exact inverted executed.1

end Rusd
