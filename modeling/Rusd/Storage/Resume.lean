/-
**A restored store goes on like its source.**

A restored store has the trees and the counters of its source. Its index is another one: each live key
has the one generation that its latest record gives, and without a live key the index has never held
one. From the revision of the snapshot on, both indexes find the same (`AlikeFrom`), and every call keeps
that.

* `AlikeFrom.answers` — the same calls return the same on both stores, when both have held a key, or
  neither has, or the calls put one before they ask for an inverted interval.
* `AlikeFrom.parts` — otherwise some call or read panics on the source, and returns on the restored store.
* `AlikeFrom.range` — reads that do not go behind the snapshot return the same on both.
* `restored_store_continues_iff` — the whole run.
-/

import Rusd.Storage.Alike

namespace Rusd

open MvccStore

/-- **The stores agree from a revision on**: both indexes find the same there. -/
structure AlikeFrom (first : Int) (s t : MvccStore) : Prop extends Alike s t where
  reached : first ≤ s.currentRevision
  index : ∀ key r, first ≤ r → s.keyIndex.get key r = t.keyIndex.get key r

/-! ### The call that makes a store -/

/-- What a call leaves behind: its revision, and in the index the key it put or the keys it deleted. -/
theorem Alike.answer_state {s t : MvccStore} (alike : Alike s t) (op : StoreOp)
    (room : s.currentRevision + 1 < 2 ^ 63) :
    (op.answer.run s).2.currentRevision = s.currentRevision + 1 ∧
    (((op.answer.run s).2.keyIndex = s.keyIndex ∧ (op.answer.run t).2.keyIndex = t.keyIndex) ∨
      (∃ key, (op.answer.run s).2.keyIndex = s.keyIndex.put key ⟨s.currentRevision + 1, 0⟩ ∧
        (op.answer.run t).2.keyIndex = t.keyIndex.put key ⟨s.currentRevision + 1, 0⟩) ∨
      ∃ keys, (op.answer.run s).2.keyIndex = s.keyIndex.tombstones keys ⟨s.currentRevision + 1, 0⟩ ∧
        (op.answer.run t).2.keyIndex = t.keyIndex.tombstones keys ⟨s.currentRevision + 1, 0⟩) := by
  obtain ⟨live, lifetime, first, second⟩ := alike.held
  have room' : t.currentRevision + 1 < 2 ^ 63 := alike.current ▸ room
  have current := alike.current
  cases op with
  | put key value lease =>
    rw [StoreOp.answer, Exec.run_bind_ok (first.latest.put_run room key value lease),
      Exec.run_bind_ok (second.latest.put_run room' key value lease)]
    refine ⟨rfl, .inr (.inl ⟨key, ?_, ?_⟩)⟩
    · rw [Exec.run_pure, afterPut, refRecord_key]
    · rw [Exec.run_pure, afterPut, refRecord_key, current]
  | deleteRange start stop =>
    rw [StoreOp.state_deleteRange_answer, StoreOp.state_deleteRange_answer]
    by_cases valid : KeyIndex.ValidRange start stop
    · rw [first.latest.deleteRange_run room (.of_valid valid),
        second.latest.deleteRange_run room' (.of_valid valid)]
      have keys : deletedKeys s start stop = deletedKeys t start stop := by
        rw [first.latest.deletedKeys_eq, second.latest.deletedKeys_eq]
      refine ⟨rfl, .inr (.inr ⟨deletedKeys s start stop, rfl, ?_⟩)⟩
      rw [afterDelete, ← keys, ← current]
    · rw [deleteRange_inverted room valid, deleteRange_inverted room' valid]
      exact ⟨rfl, .inl ⟨rfl, rfl⟩⟩

theorem Coherent.held_answer {live : RefMap} {lifetime : Bytes → List Int} {s : MvccStore}
    (ok : Coherent live lifetime s) (op : StoreOp) (room : s.currentRevision + 1 < 2 ^ 63) :
    (op.answer.run s).2.keyIndex.held = op.holds s.keyIndex.held := by
  cases op with
  | put key value lease =>
    rw [StoreOp.answer, Exec.run_bind_ok (ok.latest.put_run room key value lease)]
    exact KeyIndex.held_put _ _ _
  | deleteRange start stop =>
    rw [StoreOp.state_deleteRange_answer]
    exact held_deleteRange s start stop

/-! ### Which intervals the indexes take -/

/-- The calls put a key before any deletion of an inverted interval. -/
def FillsFirst : List StoreOp → Prop
  | [] => False
  | .put _ _ _ :: _ => True
  | .deleteRange start stop :: rest => KeyIndex.ValidRange start stop ∧ FillsFirst rest

/-- Both indexes take the interval of each call, or neither does. -/
def AllTakenAlike (held held' : Bool) : List StoreOp → Prop
  | [] => True
  | op :: rest => op.TakenAlike held held' ∧ AllTakenAlike (op.holds held) (op.holds held') rest

namespace AllTakenAlike

theorem refl (held : Bool) (ops : List StoreOp) : AllTakenAlike held held ops := by
  induction ops generalizing held with
  | nil => trivial
  | cons op rest ih => exact ⟨.refl held op, ih _⟩

theorem of_upright {ops : List StoreOp} (upright : ∀ op ∈ ops, op.Upright) (held held' : Bool) :
    AllTakenAlike held held' ops := by
  induction ops generalizing held held' with
  | nil => trivial
  | cons op rest ih =>
    exact ⟨(upright op List.mem_cons_self).takenAlike held held',
      ih (fun op member => upright op (List.mem_cons_of_mem _ member)) _ _⟩

/-- Calls that fill the indexes first are taken alike, and then both have held a key. -/
theorem of_fillsFirst {ops : List StoreOp} (fills : FillsFirst ops) (held held' : Bool) :
    AllTakenAlike held held' ops ∧ ops.foldl StoreOp.holds held = ops.foldl StoreOp.holds held' := by
  induction ops generalizing held held' with
  | nil => cases fills
  | cons op rest ih =>
    cases op with
    | put key value lease => exact ⟨⟨trivial, refl true rest⟩, rfl⟩
    | deleteRange start stop =>
      obtain ⟨taken, same⟩ := ih fills.2 held held'
      exact ⟨⟨iff_of_true (.of_valid fills.1) (.of_valid fills.1), taken⟩, same⟩

end AllTakenAlike

namespace AlikeFrom

variable {first : Int} {s t : MvccStore}

/-- **After a call**, both indexes still find the same. -/
theorem next (alike : AlikeFrom first s t) {op : StoreOp} (short : StoreHistory.Short op)
    (room : s.currentRevision + 1 < 2 ^ 63) :
    AlikeFrom first (op.answer.run s).2 (op.answer.run t).2 := by
  obtain ⟨counter, indexes⟩ := alike.toAlike.answer_state op room
  obtain ⟨live, lifetime, ok, ok'⟩ := alike.held
  have indexOk := ok.latest.indexOk
  have indexOk' := ok'.latest.indexOk
  rw [← alike.current] at indexOk'
  have above : s.currentRevision < (⟨s.currentRevision + 1, 0⟩ : Revision).main := lt_add_one _
  refine ⟨alike.toAlike.next short room,
    by rw [counter]; exact alike.reached.trans (Int.le_add_one le_rfl), ?_⟩
  intro key r from_
  rcases indexes with ⟨left, right⟩ | ⟨put, left, right⟩ | ⟨keys, left, right⟩
  · rw [left, right, alike.index key r from_]
  · rw [left, right, KeyIndex.get_put indexOk put above, KeyIndex.get_put indexOk' put above,
      alike.index key r from_]
  · rw [left, right, KeyIndex.get_tombstones indexOk keys above,
      KeyIndex.get_tombstones indexOk' keys above, alike.index key r from_]

/-- What a call does to the two indexes' having held a key. -/
theorem held_next (alike : AlikeFrom first s t) (op : StoreOp) (room : s.currentRevision + 1 < 2 ^ 63) :
    (op.answer.run s).2.keyIndex.held = op.holds s.keyIndex.held ∧
      (op.answer.run t).2.keyIndex.held = op.holds t.keyIndex.held := by
  obtain ⟨live, lifetime, ok, ok'⟩ := alike.held
  exact ⟨ok.held_answer op room, ok'.held_answer op (alike.current ▸ room)⟩

/-- The room for the calls that remain after one. -/
theorem room_next (alike : AlikeFrom first s t) {op : StoreOp} {rest : List StoreOp}
    (room : s.currentRevision + (op :: rest).length < 2 ^ 63) :
    s.currentRevision + 1 < 2 ^ 63 ∧ (op.answer.run s).2.currentRevision + rest.length < 2 ^ 63 := by
  rw [List.length_cons] at room
  push_cast at room
  have here : s.currentRevision + 1 < 2 ^ 63 := by omega
  obtain ⟨counter, -⟩ := alike.toAlike.answer_state op here
  exact ⟨here, by rw [counter]; omega⟩

/-- **Further calls return the same on both**, if both indexes take each interval or neither does. -/
theorem answers {ops : List StoreOp} (short : ∀ op ∈ ops, StoreHistory.Short op) :
    ∀ {s t : MvccStore}, AlikeFrom first s t → s.currentRevision + ops.length < 2 ^ 63 →
      AllTakenAlike s.keyIndex.held t.keyIndex.held ops →
      (Rusd.answers ops s).1 = (Rusd.answers ops t).1 ∧
        AlikeFrom first (Rusd.answers ops s).2 (Rusd.answers ops t).2 ∧
        (Rusd.answers ops s).2.keyIndex.held = ops.foldl StoreOp.holds s.keyIndex.held ∧
        (Rusd.answers ops t).2.keyIndex.held = ops.foldl StoreOp.holds t.keyIndex.held := by
  induction ops with
  | nil => exact fun alike _ _ => ⟨rfl, alike, rfl, rfl⟩
  | cons op rest ih =>
    intro s t alike room taken
    obtain ⟨here, more⟩ := alike.room_next room
    obtain ⟨held, held'⟩ := alike.held_next op here
    obtain ⟨others, final⟩ := ih (fun op member => short op (List.mem_cons_of_mem _ member))
      (alike.next (short op List.mem_cons_self) here) more (by rw [held, held']; exact taken.2)
    rw [held, held'] at final
    exact ⟨congrArg₂ List.cons (alike.toAlike.answer here taken.1) others, final⟩

/-- **Otherwise they part**: the store that has held a key panics on an inverted interval, and the other
one returns, be it in a call or in a read after all of them. -/
theorem parts {ops : List StoreOp} (short : ∀ op ∈ ops, StoreHistory.Short op) :
    ∀ {s t : MvccStore}, AlikeFrom first s t → s.currentRevision + ops.length < 2 ^ 63 →
      s.keyIndex.held = true → t.keyIndex.held = false → ¬ FillsFirst ops →
      (Rusd.answers ops s).1 = (Rusd.answers ops t).1 →
      (Rusd.answers ops s).2.range [98] [97] 0 0 false ≠ (Rusd.answers ops t).2.range [98] [97] 0 0 false := by
  induction ops with
  | nil =>
    intro s t _ _ has never _ _ same
    have inverted : ¬ KeyIndex.ValidRange [98] [97] := by decide
    change s.range [98] [97] 0 0 false = t.range [98] [97] 0 0 false at same
    rw [range_inverted inverted, range_inverted inverted, has, never] at same
    cases same
  | cons op rest ih =>
    intro s t alike room has never empty same
    obtain ⟨here, more⟩ := alike.room_next room
    obtain ⟨held, held'⟩ := alike.held_next op here
    obtain ⟨head, tail⟩ := List.cons.inj same
    cases op with
    | put key value lease => exact absurd trivial empty
    | deleteRange start stop =>
      by_cases valid : KeyIndex.ValidRange start stop
      · exact ih (fun op member => short op (List.mem_cons_of_mem _ member))
          (alike.next (short _ List.mem_cons_self) here) more (held.trans has) (held'.trans never)
          (fun fills => empty ⟨valid, fills⟩) tail
      · have room' : t.currentRevision + 1 < 2 ^ 63 := alike.current ▸ here
        have refused := mt (KeyIndex.Accepts.iff_of_held has).mp valid
        rw [StoreOp.answer, Exec.run_bind_panic (deleteRange_refused here refused),
          Exec.run_bind_ok (deleteRange_not_held room' never start stop)] at head
        cases head

/-- **A read that does not go behind the revision** returns the same on both, if both indexes take its
interval or neither does. -/
theorem range (alike : AlikeFrom first s t) {start stop : Bytes}
    (taken : KeyIndex.Accepts s.keyIndex.held start stop ↔ KeyIndex.Accepts t.keyIndex.held start stop)
    {r : Int} (present : r ≤ 0 ∨ first ≤ r) (limit : Int) (countOnly : Bool) :
    s.range start stop r limit countOnly = t.range start stop r limit countOnly := by
  refine range_congr alike.backend alike.current taken fun key => alike.index key _ ?_
  split_ifs with current
  · exact alike.reached
  · exact present.resolve_left current

end AlikeFrom

/-! ### A restored store and its source -/

/-- A store agrees with the restored one from its own revision on. -/
theorem Coherent.alikeFrom_restored {live : RefMap} {lifetime : Bytes → List Int} {s : MvccStore}
    (held : Coherent live lifetime s) :
    AlikeFrom s.currentRevision s (s.afterRestore (recordOf live)) where
  backend := rfl
  current := rfl
  compact := rfl
  held := ⟨live, lifetime, held, held.afterRestore⟩
  reached := le_rfl
  index key r later := by
    rw [held.latest.index_above later, held.afterRestore.latest.index_above later]

/-- The calls return the same on both stores, and so do, after them, the reads that do not go behind the
revision `first`. -/
def ContinueAlike (first : Int) (ops : List StoreOp) (s t : MvccStore) : Prop :=
  (answers ops s).1 = (answers ops t).1 ∧
    ∀ start stop r limit countOnly, r ≤ 0 ∨ first ≤ r →
      (answers ops s).2.range start stop r limit countOnly =
        (answers ops t).2.range start stop r limit countOnly

/-- **Stores that agree continue alike** exactly if both have held a key, or neither has, or the calls
fill them first. -/
theorem AlikeFrom.continueAlike_iff {first : Int} {s t : MvccStore} (alike : AlikeFrom first s t)
    (restored : t.keyIndex.held = true → s.keyIndex.held = true) {ops : List StoreOp}
    (short : ∀ op ∈ ops, StoreHistory.Short op) (room : s.currentRevision + ops.length < 2 ^ 63) :
    ContinueAlike first ops s t ↔ s.keyIndex.held = t.keyIndex.held ∨ FillsFirst ops := by
  constructor
  · rintro ⟨same, reads⟩
    by_contra neither
    obtain ⟨apart, empty⟩ := not_or.mp neither
    have has : s.keyIndex.held = true ∧ t.keyIndex.held = false := by
      cases held : s.keyIndex.held <;> cases held' : t.keyIndex.held <;> simp_all
    exact parts short alike room has.1 has.2 empty same (reads [98] [97] 0 0 false (.inl le_rfl))
  · intro level
    have taken : AllTakenAlike s.keyIndex.held t.keyIndex.held ops ∧
        ops.foldl StoreOp.holds s.keyIndex.held = ops.foldl StoreOp.holds t.keyIndex.held := by
      rcases level with same | fills
      · exact ⟨same ▸ .refl _ _, by rw [same]⟩
      · exact AllTakenAlike.of_fillsFirst fills _ _
    obtain ⟨same, after, held, held'⟩ := AlikeFrom.answers short alike room taken.1
    exact ⟨same, fun start stop r limit countOnly present =>
      after.range (by rw [held, held', taken.2]) present limit countOnly⟩

/-- **Without inverted intervals** they always do. -/
theorem AlikeFrom.continue_upright {first : Int} {s t : MvccStore} (alike : AlikeFrom first s t)
    {ops : List StoreOp} (short : ∀ op ∈ ops, StoreHistory.Short op) (upright : ∀ op ∈ ops, op.Upright)
    (room : s.currentRevision + ops.length < 2 ^ 63) :
    (Rusd.answers ops s).1 = (Rusd.answers ops t).1 ∧
      ∀ start stop r limit countOnly, KeyIndex.ValidRange start stop → r ≤ 0 ∨ first ≤ r →
        (Rusd.answers ops s).2.range start stop r limit countOnly =
          (Rusd.answers ops t).2.range start stop r limit countOnly := by
  obtain ⟨same, after, -⟩ := AlikeFrom.answers short alike room (.of_upright upright _ _)
  exact ⟨same, fun start stop r limit countOnly valid present =>
    after.range (iff_of_true (.of_valid valid) (.of_valid valid)) present limit countOnly⟩

theorem Coherent.restored_continueAlike_iff {live : RefMap} {lifetime : Bytes → List Int} {s : MvccStore}
    (ok : Coherent live lifetime s) {ops : List StoreOp} (short : ∀ op ∈ ops, StoreHistory.Short op)
    (room : s.currentRevision + ops.length < 2 ^ 63) :
    ContinueAlike s.currentRevision ops s (s.afterRestore (recordOf live)) ↔
      (∃ key, (s.backend.get .kv key).isSome) ∨ s.keyIndex.held = false ∨ FillsFirst ops := by
  have rebuilt := held_afterRestore s (recordOf live)
  have before : (s.afterRestore (recordOf live)).keyIndex.held = true → s.keyIndex.held = true := by
    rw [rebuilt]
    rintro ⟨key, lives⟩
    exact ok.held_of_live lives
  rw [ok.alikeFrom_restored.continueAlike_iff before short room, ← rebuilt, ← or_assoc]
  refine or_congr_left ?_
  have level : ∀ held held' : Bool, (held' = true → held = true) →
      (held = held' ↔ held' = true ∨ held = false) := by decide
  exact level _ _ before

/-- **When a restored store continues like its source.** A store and a store that restored its snapshot
return the same to further calls, and then to every read that is not behind the snapshot, exactly when
the source has a live key or has never held one, or the calls put a key before they delete an inverted
interval. -/
theorem restored_store_continues_iff (h : StoreHistory) (allowed : h.Allowed) (data : Bytes)
    (taken : h.store.createSnapshot = .ok data) (target restored : MvccStore)
    (succeeded : (restoreSnapshot data).run target = (.ok (), restored)) (ops : List StoreOp)
    (short : ∀ op ∈ ops, StoreHistory.Short op)
    (room : h.store.currentRevision + ops.length < 2 ^ 63) :
    ContinueAlike h.store.currentRevision ops h.store restored ↔
      (∃ key, (h.store.backend.get .kv key).isSome) ∨ h.store.keyIndex.held = false ∨ FillsFirst ops := by
  have held := h.coherent allowed
  rw [held.restoreSnapshot_run taken] at succeeded
  cases succeeded
  exact held.restored_continueAlike_iff short room

/-- A store whose key was written twice. -/
def writtenTwice : StoreHistory := .call (.call .fresh (.put [97] [49] 0)) (.put [97] [50] 7)

/-- Its key is written once more and deleted, on it and on a store that restored its snapshot. -/
theorem written_twice_continues :
    ∃ data restored, writtenTwice.store.createSnapshot = .ok data ∧
      (restoreSnapshot data).run (.new .empty) = (.ok (), restored) ∧
      ContinueAlike 3 [.put [97] [51] 0, .deleteRange [97] []] writtenTwice.store restored := by
  have allowed : writtenTwice.Allowed := by
    simp only [writtenTwice, StoreHistory.Allowed, true_and]
    decide +kernel
  have snapped : writtenTwice.snapped = true := by decide +kernel
  have current : writtenTwice.store.currentRevision = 3 := by decide +kernel
  obtain ⟨data, taken, -⟩ := StoreHistory.store_restored .fresh snapped
  have succeeded := ((Alike.of_coherent (writtenTwice.coherent allowed)).restore taken (.new .empty)).1
  have continues := (restored_store_continues_iff writtenTwice allowed data taken (.new .empty) _
    succeeded [.put [97] [51] 0, .deleteRange [97] []] (by decide) (by rw [current]; decide)).mpr
      (.inr (.inr trivial))
  rw [current] at continues
  exact ⟨data, _, taken, succeeded, continues⟩

/-- A store whose only key was put and deleted. -/
def writtenAndDeleted : StoreHistory := .call (.call .fresh (.put [97] [49] 0)) (.deleteRange [97] [97, 0])

/-- **An inverted interval** panics on it, and returns on a store that restored its snapshot. -/
theorem inverted_after_restore :
    ((writtenAndDeleted.store.createSnapshot).map fun data =>
      let restored := ((restoreSnapshot data).run (.new .empty)).2
      ((answers [.deleteRange [98] [97]] writtenAndDeleted.store).1,
        (answers [.deleteRange [98] [97]] restored).1)) =
      .ok ([.panic], [.ok (.deleteRange 4 [])]) := by
  decide +kernel

end Rusd
