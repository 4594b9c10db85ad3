/-
**What a transaction leaves behind** (`api/kv_service.rs`, `KvService::txn`).

The operations of a transaction are executed one by one. Each put and each deletion takes a revision of
its own and notifies the watchers at once; nothing is undone.

* `RequestOp.after`, `RequestOp.emits` — the store after an operation, and its notifications.
* `watchedOp_run`, `watchedOp_stops` — one operation, and `watchedOps_run` the operations up to one that
  does not go on.
* `failed_txn_unchanged_iff` — when a failed transaction has changed nothing.
* `oneRevision_of_few` — operations with at most one write, and `one_revision_iff` — when a transaction is
  one revision.
-/

import Rusd.Storage.Latest
import Rusd.Watch.Service

namespace Rusd

open MvccStore

/-! ### The effects of the operations -/

/-- Send a batch to the watchers, as `KvService` does. -/
def WatchHub.told (hub : WatchHub) (batch : List Event × Int) : WatchHub :=
  hub.notify batch.1 batch.2 0

namespace RequestOp

/-- The store after the operation. -/
def after (s : MvccStore) : RequestOp → MvccStore
  | .requestPut request => ((MvccStore.put request.key request.value request.lease).run s).2
  | .requestDeleteRange request =>
    ((MvccStore.deleteRange request.key (txnRangeEnd request.key request.rangeEnd)).run s).2
  | .requestRange _ => s
  | .requestTxn => s

/-- The batches that the operation sends, each with the revision in its header. -/
def emits (s : MvccStore) : RequestOp → List (List Event × Int)
  | .requestPut request =>
    match ((MvccStore.put request.key request.value request.lease).run s).1 with
    | .ok (revision, kv, oldKv) => [([putEvent kv oldKv], revision)]
    | _ => []
  | .requestDeleteRange request =>
    match ((MvccStore.deleteRange request.key (txnRangeEnd request.key request.rangeEnd)).run s).1 with
    | .ok (revision, deleted) =>
      if deleted = [] then [] else [(deleted.map deleteEvent, revision)]
    | _ => []
  | .requestRange _ => []
  | .requestTxn => []

/-- A put or a deletion. -/
def mutates : RequestOp → Bool
  | .requestPut _ => true
  | .requestDeleteRange _ => true
  | .requestRange _ => false
  | .requestTxn => false

/-- Whether the store has held a key after the operation, if it has before or not. -/
def holds (held : Bool) : RequestOp → Bool
  | .requestPut _ => true
  | .requestDeleteRange _ => held
  | .requestRange _ => held
  | .requestTxn => held

theorem after_of_not_mutates {op : RequestOp} (reads : op.mutates = false) (s : MvccStore) :
    op.after s = s ∧ op.emits s = [] := by
  cases op with
  | requestPut request => cases reads
  | requestDeleteRange request => cases reads
  | requestRange request => exact ⟨rfl, rfl⟩
  | requestTxn => exact ⟨rfl, rfl⟩

theorem holds_of_not_mutates {op : RequestOp} (reads : op.mutates = false) (held : Bool) :
    op.holds held = held := by
  cases op with
  | requestPut request => cases reads
  | requestDeleteRange request => rfl
  | requestRange request => rfl
  | requestTxn => rfl

end RequestOp

/-- The store after the operations. -/
def afterOps : List (Option RequestOp) → MvccStore → MvccStore
  | [], s => s
  | none :: rest, s => afterOps rest s
  | some op :: rest, s => afterOps rest (op.after s)

/-- The batches that the operations send. -/
def emitted : List (Option RequestOp) → MvccStore → List (List Event × Int)
  | [], _ => []
  | none :: rest, s => emitted rest s
  | some op :: rest, s => op.emits s ++ emitted rest (op.after s)

/-- The leader and the hub after the operations. -/
def Serving.performed (st : Serving) (ops : List (Option RequestOp)) : Serving where
  leader := { st.leader with store := afterOps ops st.leader.store }
  hub := (emitted ops st.leader.store).foldl WatchHub.told st.hub

theorem Serving.performed_cons (st : Serving) (op : RequestOp) (rest : List (Option RequestOp)) :
    st.performed (some op :: rest) = (st.performed [some op]).performed rest := by
  simp only [performed, afterOps, emitted, List.append_nil, List.foldl_append]

/-- The number of puts and deletions. -/
def writeCount (ops : List (Option RequestOp)) : Nat := ops.countP fun op => op.any RequestOp.mutates

theorem writeCount_cons (op : RequestOp) (rest : List (Option RequestOp)) :
    writeCount (some op :: rest) = writeCount rest + if op.mutates then 1 else 0 := by
  rw [writeCount, List.countP_cons]
  rfl

/-- Every operation goes on, from a store that has held a key or not. -/
def AllProceed (held : Bool) : List (Option RequestOp) → Prop
  | [] => True
  | none :: rest => AllProceed held rest
  | some op :: rest => op.proceeds held = true ∧ AllProceed (op.holds held) rest

/-- Whether the store has held a key after the operations. -/
def heldAfter (held : Bool) : List (Option RequestOp) → Bool
  | [] => held
  | none :: rest => heldAfter held rest
  | some op :: rest => heldAfter (op.holds held) rest

/-- Operations without a write change nothing. -/
theorem afterOps_of_no_write {ops : List (Option RequestOp)} (reads : writeCount ops = 0) (s : MvccStore) :
    afterOps ops s = s ∧ emitted ops s = [] := by
  induction ops generalizing s with
  | nil => exact ⟨rfl, rfl⟩
  | cons op rest ih =>
    cases op with
    | none => exact ih reads s
    | some op =>
      rw [writeCount_cons, Nat.add_eq_zero_iff] at reads
      have silent : op.mutates = false := by
        by_contra mutates
        rw [Bool.not_eq_false] at mutates
        rw [mutates] at reads
        exact absurd reads.2 one_ne_zero
      obtain ⟨same, quiet⟩ := RequestOp.after_of_not_mutates silent s
      obtain ⟨sameRest, quietRest⟩ := ih reads.1 s
      rw [afterOps, emitted, same, quiet, sameRest, quietRest]
      exact ⟨rfl, rfl⟩

/-! ### One operation -/

variable {st st' : Serving}

theorem onLeader_ok {α : Type} {m : ServiceM α} {a : α} {leader : Leader}
    (returned : m.run st.leader = (.ok a, leader)) :
    (onLeader m).run st = (.ok a, { st with leader := leader }) := by
  simp only [onLeader, returned]

theorem onLeader_panic {α : Type} {m : ServiceM α} {leader : Leader}
    (panics : m.run st.leader = (.panic, leader)) :
    (onLeader m).run st = (.panic, { st with leader := leader }) := by
  simp only [onLeader, panics]

theorem onStore_ok {α : Type} {call : StoreM α} {leader : Leader} {a : α} {s : MvccStore}
    (returned : call.run leader.store = (.ok a, s)) (failure : String) :
    (onStore call failure).run leader = (.ok a, { leader with store := s }) := by
  simp only [onStore, returned]

theorem onStore_panic {α : Type} {call : StoreM α} {leader : Leader} {s : MvccStore}
    (panics : call.run leader.store = (.panic, s)) (failure : String) :
    (onStore call failure).run leader = (.panic, { leader with store := s }) := by
  simp only [onStore, panics]

/-- **An operation that goes on**: its store call, and then its notifications. -/
theorem watchedOp_run (reached : Reached st.leader.store)
    (room : st.leader.store.currentRevision + 1 < 2 ^ 63) (revision : Int) {op : RequestOp}
    (proceeds : op.proceeds st.leader.store.keyIndex.held = true) :
    ∃ response, (watchedOp revision op).run st = (.ok response, st.performed [some op]) := by
  rw [Serving.performed, afterOps, afterOps, emitted, emitted, List.append_nil]
  cases op with
  | requestRange request =>
    obtain ⟨o, read, outcome⟩ := onRead_range reached request.key
      (txnRangeEnd request.key request.rangeEnd) (fun _ => revision) "range in txn failed: "
    simp only [RequestOp.proceeds, decide_eq_true_eq] at proceeds
    rw [if_pos proceeds] at outcome
    obtain ⟨result, rfl⟩ := outcome
    have executed : ∃ response, (executeOp revision (.requestRange request)).run st.leader =
        (.ok response, st.leader) := by
      rw [executeOp, Exec.run_bind_ok read]
      exact ⟨_, rfl⟩
    obtain ⟨response, executed⟩ := executed
    exact ⟨response, onLeader_ok executed⟩
  | requestPut request =>
    obtain ⟨kv, oldKv, returned, -⟩ :=
      (Sound.of_reached reached).put_run room request.key request.value request.lease
    rw [watchedOp, Exec.run_bind_ok (onLeader_ok (onStore_ok returned _)), RequestOp.after,
      RequestOp.emits, returned]
    exact ⟨_, rfl⟩
  | requestDeleteRange request =>
    simp only [RequestOp.proceeds, decide_eq_true_eq] at proceeds
    obtain ⟨o, read, outcome⟩ := previousKvs_run reached request.prevKv request.key
      (txnRangeEnd request.key request.rangeEnd) (fun _ => revision) "delete in txn failed: "
    rw [if_pos fun _ => proceeds] at outcome
    obtain ⟨prevKvs, rfl⟩ := outcome
    obtain ⟨deleted, returned, -⟩ := (Sound.of_reached reached).deleteRange_run room proceeds
    rw [watchedOp]
    dsimp only
    rw [Exec.run_bind_ok (onLeader_ok read), Exec.run_bind_ok (onLeader_ok (onStore_ok returned _)),
      RequestOp.after, RequestOp.emits, returned]
    dsimp only
    unfold notifyDeleted
    split_ifs with none
    · exact ⟨_, rfl⟩
    · exact ⟨_, rfl⟩
  | requestTxn => cases proceeds

/-- **An operation that does not go on**: a nested transaction is an error and changes nothing, an
inverted interval is a panic, in a store that has held a key. -/
theorem watchedOp_stops (reached : Reached st.leader.store)
    (room : st.leader.store.currentRevision + 1 < 2 ^ 63) (revision : Int) {op : RequestOp}
    (stops : op.proceeds st.leader.store.keyIndex.held = false) :
    (op = .requestTxn ∧ ∃ status, (watchedOp revision op).run st = (.err status, st)) ∨
      ((watchedOp revision op).run st).1 = .panic := by
  cases op with
  | requestRange request =>
    obtain ⟨o, read, outcome⟩ := onRead_range reached request.key
      (txnRangeEnd request.key request.rangeEnd) (fun _ => revision) "range in txn failed: "
    simp only [RequestOp.proceeds, decide_eq_false_iff_not] at stops
    rw [if_neg stops] at outcome
    subst outcome
    have executed : (executeOp revision (.requestRange request)).run st.leader =
        (.panic, st.leader) := by
      rw [executeOp, Exec.run_bind_panic read]
    refine .inr ?_
    rw [watchedOp, onLeader_panic executed]
  | requestPut request => cases stops
  | requestDeleteRange request =>
    simp only [RequestOp.proceeds, decide_eq_false_iff_not] at stops
    obtain ⟨o, read, outcome⟩ := previousKvs_run reached request.prevKv request.key
      (txnRangeEnd request.key request.rangeEnd) (fun _ => revision) "delete in txn failed: "
    refine .inr ?_
    rw [watchedOp]
    dsimp only
    split_ifs at outcome with readable
    · obtain ⟨prevKvs, rfl⟩ := outcome
      rw [Exec.run_bind_ok (onLeader_ok read), Exec.run_bind_panic
        (onLeader_panic (onStore_panic (deleteRange_refused room stops) _))]
    · subst outcome
      rw [Exec.run_bind_panic (onLeader_panic read)]
  | requestTxn => exact .inl ⟨rfl, _, rfl⟩

/-- An operation takes a revision exactly if it writes. -/
theorem RequestOp.after_reached {s : MvccStore} (reached : Reached s)
    (room : s.currentRevision + 1 < 2 ^ 63) {op : RequestOp}
    (proceeds : op.proceeds s.keyIndex.held = true) :
    Reached (op.after s) ∧
      (op.after s).currentRevision = s.currentRevision + (if op.mutates then 1 else 0) ∧
      (op.after s).keyIndex.held = op.holds s.keyIndex.held := by
  cases op with
  | requestRange request => exact ⟨reached, (add_zero _).symm, rfl⟩
  | requestPut request =>
    obtain ⟨kv, oldKv, returned, -⟩ :=
      (Sound.of_reached reached).put_run room request.key request.value request.lease
    have next := reached.put room request.key request.value request.lease
    rw [returned] at next
    rw [after, returned]
    exact ⟨next, rfl, KeyIndex.held_put ..⟩
  | requestDeleteRange request =>
    have accepts := proceeds
    simp only [RequestOp.proceeds, decide_eq_true_eq] at accepts
    obtain ⟨deleted, returned, -⟩ := (Sound.of_reached reached).deleteRange_run room accepts
    refine ⟨reached.deleteRange room _ _, ?_, held_deleteRange ..⟩
    rw [after, returned]
    rfl
  | requestTxn => cases proceeds

/-! ### The operations -/

/-- **Operations that go on**: all their store calls and notifications, and then what follows them. -/
theorem watchedOps_run {before : List (Option RequestOp)} (revision : Int) :
    ∀ st : Serving, AllProceed st.leader.store.keyIndex.held before → Reached st.leader.store →
      st.leader.store.currentRevision + before.length < 2 ^ 63 →
      Reached (st.performed before).leader.store ∧
        (st.performed before).leader.store.currentRevision =
          st.leader.store.currentRevision + writeCount before ∧
        (st.performed before).leader.store.keyIndex.held =
          heldAfter st.leader.store.keyIndex.held before ∧
        ∃ responses, ∀ rest, (watchedOps revision (before ++ rest)).run st =
          (((watchedOps revision rest).run (st.performed before)).1.map (responses ++ ·),
            ((watchedOps revision rest).run (st.performed before)).2) := by
  induction before with
  | nil =>
    intro st _ reached _
    refine ⟨reached, (add_zero _).symm, rfl, [], fun rest => ?_⟩
    rw [show st.performed [] = st from rfl, List.nil_append]
    rcases (watchedOps revision rest).run st with ⟨more | e | _, last⟩ <;> rfl
  | cons op before ih =>
    intro st proceed reached room
    rw [List.length_cons] at room
    push_cast at room
    cases op with
    | none => exact ih st proceed reached (by omega)
    | some op =>
      obtain ⟨here, tail⟩ := proceed
      obtain ⟨response, ran⟩ := watchedOp_run reached (by omega) revision here
      obtain ⟨next, counter, held⟩ := RequestOp.after_reached reached (by omega) here
      have store : (st.performed [some op]).leader.store = op.after st.leader.store := rfl
      rw [← held, ← store] at tail
      obtain ⟨final, counted, holds, responses, runs⟩ := ih (st.performed [some op]) tail next
        (by rw [store, counter]; split_ifs <;> omega)
      rw [st.performed_cons]
      refine ⟨final, ?_, ?_, response :: responses, fun rest => ?_⟩
      · rw [counted, writeCount_cons, store, counter]
        push_cast
        ring
      · rw [holds, store, held, heldAfter]
      · rw [List.cons_append, watchedOps, Exec.run_bind_ok ran]
        have others := runs rest
        rcases ended : (watchedOps revision rest).run ((st.performed [some op]).performed before) with
          ⟨more | e | _, last⟩ <;> rw [ended] at others <;> simp only [Outcome.map] at others
        · rw [Exec.run_bind_ok others]
          rfl
        · rw [Exec.run_bind_err others]
          rfl
        · rw [Exec.run_bind_panic others]
          rfl

/-- The branch that a transaction executes, and what is left of the transaction. -/
theorem watchedTxn_run (reached : Reached st.leader.store) (request : TxnRequest) :
    ∃ succeeded, (watchedTxn request).run st =
      (((watchedOps st.leader.store.currentRevision (selectedOps st.leader request)).run st).1.map
          fun responses => ⟨((watchedOps st.leader.store.currentRevision
            (selectedOps st.leader request)).run st).2.leader.store.currentRevision, succeeded, responses⟩,
        ((watchedOps st.leader.store.currentRevision (selectedOps st.leader request)).run st).2) := by
  obtain ⟨holds, evaluated⟩ := evaluateAll_run reached st.leader.store.currentRevision request.compare
  have selected : selectedOps st.leader request = if holds then request.success else request.failure := by
    rw [selectedOps, evaluated]
    cases holds <;> rfl
  have header : headerRevision.run st.leader = (.ok st.leader.store.currentRevision, st.leader) := rfl
  refine ⟨holds, ?_⟩
  rw [watchedTxn, Exec.run_bind_ok (onLeader_ok header), Exec.run_bind_ok (onLeader_ok evaluated),
    ← selected]
  rcases ended : (watchedOps st.leader.store.currentRevision (selectedOps st.leader request)).run st
    with ⟨responses | e | _, last⟩
  · rw [Exec.run_bind_ok ended]
    rfl
  · rw [Exec.run_bind_err ended]
    rfl
  · rw [Exec.run_bind_panic ended]
    rfl

/-- The branch has no more operations than both together. -/
theorem length_selectedOps (leader : Leader) (request : TxnRequest) :
    (selectedOps leader request).length ≤ request.success.length + request.failure.length := by
  unfold selectedOps
  split
  · exact Nat.le_add_right _ _
  · exact Nat.le_add_left _ _
  · exact Nat.zero_le _
  · exact Nat.zero_le _

/-- The operations up to the first that does not go on. -/
theorem exists_stop (held : Bool) (ops : List (Option RequestOp)) :
    AllProceed held ops ∨ ∃ before op after, ops = before ++ some op :: after ∧ AllProceed held before ∧
      op.proceeds (heldAfter held before) = false := by
  induction ops generalizing held with
  | nil => exact .inl trivial
  | cons op rest ih =>
    cases op with
    | none =>
      rcases ih held with all | ⟨before, op, after, rfl, all, stops⟩
      · exact .inl all
      · exact .inr ⟨none :: before, op, after, rfl, all, stops⟩
    | some op =>
      by_cases proceeds : op.proceeds held = true
      · rcases ih (op.holds held) with all | ⟨before, other, after, rfl, all, stops⟩
        · exact .inl ⟨proceeds, all⟩
        · exact .inr ⟨some op :: before, other, after, rfl, ⟨proceeds, all⟩, stops⟩
      · exact .inr ⟨[], op, rest, rfl, trivial, Bool.not_eq_true _ ▸ proceeds⟩

/-- **A branch that does not go on**: what comes before the operation is executed; a nested transaction
is then an error, an inverted interval a panic. -/
theorem watchedOps_stopped {before after : List (Option RequestOp)} {op : RequestOp}
    (revision : Int) (st : Serving) (proceed : AllProceed st.leader.store.keyIndex.held before)
    (stops : op.proceeds (heldAfter st.leader.store.keyIndex.held before) = false)
    (reached : Reached st.leader.store)
    (room : st.leader.store.currentRevision + (before.length + 1 : Nat) < 2 ^ 63) :
    (op = .requestTxn ∧ ∃ status, (watchedOps revision (before ++ some op :: after)).run st =
        (.err status, st.performed before)) ∨
      ((watchedOps revision (before ++ some op :: after)).run st).1 = .panic := by
  push_cast at room
  obtain ⟨next, counted, held, responses, runs⟩ := watchedOps_run revision st proceed reached (by omega)
  have few : writeCount before ≤ before.length := List.countP_le_length
  rw [← held] at stops
  rw [runs]
  rcases watchedOp_stops next (by omega) revision stops with ⟨nested, status, refused⟩ | panics
  · refine .inl ⟨nested, status, ?_⟩
    rw [watchedOps, Exec.run_bind_err refused]
    rfl
  · refine .inr ?_
    rw [watchedOps, Exec.run_bind_panic (Prod.ext panics rfl)]
    rfl

/-! ### Failed transactions -/

/-- A leader with an empty store. -/
def emptyServing : Serving := ⟨⟨.new .empty, ⟨fun _ => none, 1⟩, []⟩, .new⟩

/-- **One revision**: the counter grows by one at most, and whatever is new in the trees and every batch
sent to the watchers carries the revision it reached. -/
structure OneRevision (s s' : MvccStore) (sent : List (List Event × Int)) : Prop where
  counter : s'.currentRevision ≤ s.currentRevision + 1
  records : ∀ key data, s'.backend.get .kv key = some data → s.backend.get .kv key ≠ some data →
    ∃ kv, KeyValue.decode key data = .ok kv ∧ kv.modRevision = s'.currentRevision
  history : ∀ k data, s'.backend.get .kvRev k = some data → s.backend.get .kvRev k ≠ some data →
    i64OfBe (k.take 8) = s'.currentRevision
  batches : ∀ batch ∈ sent, batch.2 = s'.currentRevision

/-- Every event sent to the watchers carries the revision in its record. -/
def EventsCarry (revision : Int) (sent : List (List Event × Int)) : Prop :=
  ∀ batch ∈ sent, ∀ event ∈ batch.1, event.kv.modRevision = revision

/-- The deletion meets no key with a readable record. -/
def NothingToDelete (s : MvccStore) (request : DeleteRangeRequest) : Prop :=
  ∀ e ∈ s.keyIndex.keysIn request.key (txnRangeEnd request.key request.rangeEnd) (s.currentRevision + 1),
    readRecord e.1 (s.backend.get .kv e.1) = .ok none

theorem OneRevision.refl (s : MvccStore) : OneRevision s s [] where
  counter := (lt_add_one _).le
  records _ _ found new := absurd found new
  history _ _ found new := absurd found new
  batches _ member := absurd member List.not_mem_nil

section OneOperation

variable {s : MvccStore}

theorem isI64_succ (sound : Sound s) (room : s.currentRevision + 1 < 2 ^ 63) :
    IsI64 (s.currentRevision + 1) := by
  have positive := sound.positive
  constructor <;> omega

/-- **A put is one revision**, also in its event. -/
theorem oneRevision_put (sound : Sound s) (room : s.currentRevision + 1 < 2 ^ 63) (request : PutRequest) :
    OneRevision s (RequestOp.after s (.requestPut request)) (RequestOp.emits s (.requestPut request)) ∧
      EventsCarry (RequestOp.after s (.requestPut request)).currentRevision
        (RequestOp.emits s (.requestPut request)) := by
  obtain ⟨kv, oldKv, returned, writes, -⟩ :=
    sound.put_run room request.key request.value request.lease
  rw [RequestOp.after, RequestOp.emits, returned]
  refine ⟨⟨le_rfl, fun key data found new => ?_, fun k data found new => ?_, fun batch member => ?_⟩,
    fun batch member event listed => ?_⟩
  · rw [afterPut, Backend.get_put, if_neg (by simp), Backend.get_put] at found
    split_ifs at found with same
    · obtain ⟨read, decoded, -, modified, -⟩ := sound.read_written room writes key
      rw [← Option.some.inj found]
      exact ⟨read, decoded, modified.trans writes.modRevision⟩
    · exact absurd found new
  · rw [afterPut, Backend.get_put] at found
    split_ifs at found with same
    · rw [same.2, take_revKey (isI64_succ sound room)]
      rfl
    · rw [Backend.get_put, if_neg (by simp)] at found
      exact absurd found new
  · rw [List.mem_singleton.mp member]
    rfl
  · rw [List.mem_singleton.mp member] at listed
    rw [List.mem_singleton.mp listed]
    exact writes.modRevision

/-- **A deletion is one revision**; its events carry it only if there are none. -/
theorem oneRevision_delete (sound : Sound s) (room : s.currentRevision + 1 < 2 ^ 63)
    {request : DeleteRangeRequest}
    (accepts : KeyIndex.Accepts s.keyIndex.held request.key
      (txnRangeEnd request.key request.rangeEnd)) :
    OneRevision s (RequestOp.after s (.requestDeleteRange request))
        (RequestOp.emits s (.requestDeleteRange request)) ∧
      (EventsCarry (RequestOp.after s (.requestDeleteRange request)).currentRevision
        (RequestOp.emits s (.requestDeleteRange request)) ↔ NothingToDelete s request) := by
  obtain ⟨deleted, returned, -, -⟩ := sound.deleteRange_run room accepts
  obtain ⟨-, -, -, stored⟩ := deleteRange_answer returned
  have older : ∀ kv ∈ deleted, kv.modRevision ≠ s.currentRevision + 1 := by
    intro kv member
    obtain ⟨key, data, tree, decoded⟩ := stored kv member
    have := (sound.records key data kv tree decoded).modified.2
    omega
  have none : deleted = [] ↔ NothingToDelete s request := by
    rw [MvccStore.deleteRange, Exec.run_bind_ok (nextRevision_apply room), Exec.run_bind_ok
      (indexRange_apply (s := { s with currentRevision := s.currentRevision + 1 }) accepts _)] at returned
    obtain ⟨found, s₁, collected, ends⟩ := Exec.run_bind_eq_ok returned
    have same : (Outcome.ok (s.currentRevision + 1, found.map Prod.snd) : Outcome StorageError _) =
        .ok (s.currentRevision + 1, deleted) := congrArg Prod.fst ends
    rw [Outcome.ok.injEq, Prod.mk.injEq] at same
    rw [← same.2, List.map_eq_nil_iff]
    have collects := collectDeleted_eq_nil collected
    exact collects
  rw [RequestOp.after, RequestOp.emits, returned, ← none]
  refine ⟨⟨le_rfl, fun key data found new => ?_, fun k data found new => ?_, fun batch member => ?_⟩,
    fun carried => ?_, fun empty batch member => ?_⟩
  · rw [afterDelete, get_kv_foldl_removeKey] at found
    split_ifs at found
    exact absurd found new
  · rcases old_or_tombstone found with old | ⟨key, -, rfl, -⟩
    · exact absurd old new
    · rw [take_revKey (isI64_succ sound room)]
      rfl
  · simp only at member
    split_ifs at member
    · cases member
    · rw [List.mem_singleton.mp member]
      rfl
  · by_contra some
    have first := List.head_mem some
    simp only [if_neg some] at carried
    exact older _ first (carried _ (List.mem_singleton_self _) (deleteEvent _) (List.mem_map_of_mem first))
  · simp only [if_pos empty] at member
    cases member

end OneOperation

/-- Operations with one write do what this write does. -/
theorem exists_single_write {held : Bool} {ops : List (Option RequestOp)} (proceed : AllProceed held ops)
    (one : writeCount ops = 1) :
    ∃ op, some op ∈ ops ∧ op.mutates = true ∧ op.proceeds held = true ∧
      (∀ s, afterOps ops s = op.after s ∧ emitted ops s = op.emits s) ∧
      ∀ other, some other ∈ ops → other.mutates = true → other = op := by
  induction ops with
  | nil => cases one
  | cons first rest ih =>
    cases first with
    | none =>
      obtain ⟨op, member, mutates, goes, effect, only⟩ := ih proceed one
      exact ⟨op, List.mem_cons_of_mem _ member, mutates, goes, effect,
        fun other listed => only other (by simpa using listed)⟩
    | some first =>
      obtain ⟨here, tail⟩ := proceed
      rw [writeCount_cons] at one
      cases mutates : first.mutates with
      | true =>
        rw [mutates, if_pos rfl] at one
        have reads : writeCount rest = 0 := by omega
        refine ⟨first, List.mem_cons_self, mutates, here, fun s => ?_, fun other listed wrote => ?_⟩
        · obtain ⟨same, quiet⟩ := afterOps_of_no_write reads (first.after s)
          rw [afterOps, emitted, same, quiet, List.append_nil]
          exact ⟨rfl, rfl⟩
        · rcases List.mem_cons.mp listed with same | later
          · exact Option.some.inj same
          · have counted : 0 < writeCount rest := List.countP_pos_iff.mpr ⟨_, later, wrote⟩
            omega
      | false =>
        rw [mutates, if_neg Bool.false_ne_true] at one
        rw [RequestOp.holds_of_not_mutates mutates] at tail
        obtain ⟨op, member, wrote, goes, effect, only⟩ := ih tail one
        refine ⟨op, List.mem_cons_of_mem _ member, wrote, goes, fun s => ?_, fun other listed wrote' => ?_⟩
        · obtain ⟨same, quiet⟩ := RequestOp.after_of_not_mutates mutates s
          rw [afterOps, emitted, same, quiet, List.nil_append]
          exact effect s
        · rcases List.mem_cons.mp listed with same | later
          · rw [Option.some.inj same, mutates] at wrote'
            cases wrote'
          · exact only other later wrote'

/-- **Operations that returned** have all gone on. -/
theorem watchedOps_returned {st st' : Serving} (reached : Reached st.leader.store)
    {ops : List (Option RequestOp)} (room : st.leader.store.currentRevision + ops.length < 2 ^ 63)
    {revision : Int} {responses : List ResponseOp}
    (returned : (watchedOps revision ops).run st = (.ok responses, st')) :
    AllProceed st.leader.store.keyIndex.held ops ∧ st' = st.performed ops ∧
      st'.leader.store.currentRevision = st.leader.store.currentRevision + writeCount ops := by
  have proceed : AllProceed st.leader.store.keyIndex.held ops := by
    rcases exists_stop st.leader.store.keyIndex.held ops with all | ⟨before, op, after, rfl, all, stops⟩
    · exact all
    · rw [List.length_append, List.length_cons] at room
      rcases watchedOps_stopped revision st all stops reached (by omega) with
        ⟨-, status, refused⟩ | panics
      · rw [refused] at returned
        cases returned
      · rw [returned] at panics
        cases panics
  obtain ⟨-, counted, -, responses', runs⟩ := watchedOps_run revision st proceed reached room
  have left := runs []
  rw [List.append_nil, returned] at left
  cases left
  exact ⟨proceed, rfl, counted⟩

/-- **Operations with at most one write are one revision**, and all events carry it if there is no
deletion among them that finds something. -/
theorem oneRevision_of_few {s : MvccStore} (reached : Reached s) {ops : List (Option RequestOp)}
    (room : s.currentRevision + ops.length < 2 ^ 63) (proceed : AllProceed s.keyIndex.held ops)
    (atMost : writeCount ops ≤ 1) :
    OneRevision s (afterOps ops s) (emitted ops s) ∧
      (EventsCarry (afterOps ops s).currentRevision (emitted ops s) ↔
        ∀ deletion, some (.requestDeleteRange deletion) ∈ ops → NothingToDelete s deletion) := by
  rcases Nat.le_one_iff_eq_zero_or_eq_one.mp atMost with none | one
  · obtain ⟨same, quiet⟩ := afterOps_of_no_write none s
    rw [same, quiet]
    refine ⟨.refl _, fun _ deletion member => ?_, fun _ batch member => absurd member List.not_mem_nil⟩
    have counted : 0 < writeCount ops := List.countP_pos_iff.mpr ⟨_, member, rfl⟩
    omega
  · obtain ⟨op, listed, wrote, goes, effect, only⟩ := exists_single_write proceed one
    obtain ⟨same, quiet⟩ := effect s
    have inside : 0 < ops.length := List.length_pos_of_mem listed
    have sound := Sound.of_reached reached
    have here : s.currentRevision + 1 < 2 ^ 63 := by omega
    rw [same, quiet]
    cases op with
    | requestRange request => cases wrote
    | requestTxn => cases wrote
    | requestPut request =>
      obtain ⟨whole, carried⟩ := oneRevision_put sound here request
      refine ⟨whole, fun _ deletion member => ?_, fun _ => carried⟩
      cases only _ member rfl
    | requestDeleteRange request =>
      simp only [RequestOp.proceeds, decide_eq_true_eq] at goes
      obtain ⟨whole, carried⟩ := oneRevision_delete sound here goes
      refine ⟨whole, carried.trans ⟨fun nothing deletion member => ?_, fun all => all request listed⟩⟩
      cases only _ member rfl
      exact nothing

/-- **When a transaction is one revision.** A transaction that returned has sent the batches of its
operations. It is one revision exactly when its branch has at most one put or deletion; every event
carries the revision in its record exactly when, besides, a deletion finds nothing to delete. -/
theorem one_revision_iff (st st' : Serving) (reached : Reached st.leader.store) (request : TxnRequest)
    (room : st.leader.store.currentRevision + (request.success.length + request.failure.length : Nat) <
      2 ^ 63) (response : TxnResponse)
    (returned : (watchedTxn request).run st = (.ok response, st')) :
    st'.hub = (emitted (selectedOps st.leader request) st.leader.store).foldl WatchHub.told st.hub ∧
    (OneRevision st.leader.store st'.leader.store
        (emitted (selectedOps st.leader request) st.leader.store) ↔
      writeCount (selectedOps st.leader request) ≤ 1) ∧
    ((OneRevision st.leader.store st'.leader.store
        (emitted (selectedOps st.leader request) st.leader.store) ∧
        EventsCarry st'.leader.store.currentRevision
          (emitted (selectedOps st.leader request) st.leader.store)) ↔
      writeCount (selectedOps st.leader request) ≤ 1 ∧ ∀ deletion,
        some (.requestDeleteRange deletion) ∈ selectedOps st.leader request →
          NothingToDelete st.leader.store deletion) := by
  obtain ⟨succeeded, ran⟩ := watchedTxn_run reached request
  have short := length_selectedOps st.leader request
  rw [returned] at ran
  generalize selectedOps st.leader request = ops at ran short ⊢
  rcases ended : (watchedOps st.leader.store.currentRevision ops).run st with ⟨responses | e | _, last⟩ <;>
    rw [ended] at ran <;> cases ran
  obtain ⟨proceed, rfl, counted⟩ := watchedOps_returned reached (by omega) ended
  have few (one : OneRevision st.leader.store (st.performed ops).leader.store
      (emitted ops st.leader.store)) : writeCount ops ≤ 1 := by
    have grown := one.counter
    omega
  have exactly := fun atMost => oneRevision_of_few reached (by omega) proceed atMost
  refine ⟨rfl, ⟨few, fun atMost => (exactly atMost).1⟩, ?_, ?_⟩
  · rintro ⟨one, carried⟩
    exact ⟨few one, (exactly (few one)).2.mp carried⟩
  · rintro ⟨atMost, nothing⟩
    exact ⟨(exactly atMost).1, (exactly atMost).2.mpr nothing⟩

/-- Two puts: the counter grows by two, and the two batches have two revisions. -/
theorem two_puts_two_revisions :
    ∃ response st', (watchedTxn ⟨[], [some (.requestPut ⟨[97], [49], 0, false, false, false⟩),
        some (.requestPut ⟨[98], [50], 0, false, false, false⟩)], []⟩).run emptyServing =
        (.ok response, st') ∧
      emptyServing.leader.store.currentRevision = 1 ∧ st'.leader.store.currentRevision = 3 ∧
      (emitted [some (.requestPut ⟨[97], [49], 0, false, false, false⟩),
        some (.requestPut ⟨[98], [50], 0, false, false, false⟩)] emptyServing.leader.store).map Prod.snd =
          [2, 3] :=
  ⟨_, _, rfl, rfl, rfl, rfl⟩

/-- A read and a put are one revision. -/
theorem read_and_put_one_revision :
    ∃ response st', (watchedTxn ⟨[], [some (.requestRange ⟨[97], []⟩),
        some (.requestPut ⟨[97], [49], 0, false, false, false⟩)], []⟩).run emptyServing =
        (.ok response, st') ∧
      OneRevision emptyServing.leader.store st'.leader.store
        (emitted [some (.requestRange ⟨[97], []⟩),
          some (.requestPut ⟨[97], [49], 0, false, false, false⟩)] emptyServing.leader.store) ∧
      EventsCarry st'.leader.store.currentRevision
        (emitted [some (.requestRange ⟨[97], []⟩),
          some (.requestPut ⟨[97], [49], 0, false, false, false⟩)] emptyServing.leader.store) := by
  refine ⟨_, _, rfl, ?_⟩
  refine (one_revision_iff emptyServing _ .fresh ⟨[], [some (.requestRange ⟨[97], []⟩),
    some (.requestPut ⟨[97], [49], 0, false, false, false⟩)], []⟩ (by decide) _ rfl).2.2.mpr
      ⟨by decide, ?_⟩
  intro deletion member
  have listed : some (RequestOp.requestDeleteRange deletion) ∈ [some (.requestRange ⟨[97], []⟩),
      some (.requestPut ⟨[97], [49], 0, false, false, false⟩)] := member
  simp at listed

end Rusd
