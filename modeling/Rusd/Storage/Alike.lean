/-
**Stores that answer alike.**

A restored store has the trees and the counters of its donor, but an index that remembers the present
only. `Alike s t` says that two stores agree in everything but the past of their indexes.

* `Alike.next` — a call leaves them alike.
* `Alike.answer` — it returns the same on both, unless one of the indexes alone takes its interval.
* `Alike.createSnapshot` — both have the same snapshot.
* `Alike.restore` — a store is like every store that restored its snapshot.
-/

import Rusd.Storage.Coherence

namespace Rusd

open MvccStore

/-! ### What calls return -/

/-- What a call returns. -/
inductive StoreAnswer
  | put (revision : Int) (kv : KeyValue) (prevKv : Option KeyValue)
  | deleteRange (revision : Int) (deleted : List KeyValue)
  deriving DecidableEq, Repr

def StoreAnswer.revision : StoreAnswer → Int
  | put revision _ _ => revision
  | deleteRange revision _ => revision

namespace StoreOp

/-- Run a call. -/
def answer : StoreOp → StoreM StoreAnswer
  | .put key value lease => do
    let (revision, kv, prevKv) ← MvccStore.put key value lease
    pure (.put revision kv prevKv)
  | .deleteRange start stop => do
    let (revision, deleted) ← MvccStore.deleteRange start stop
    pure (.deleteRange revision deleted)

theorem run_eq_answer (op : StoreOp) (s : MvccStore) :
    op.run.run s = (((op.answer.run s).1.map StoreAnswer.revision), (op.answer.run s).2) := by
  cases op with
  | put key value lease =>
    rw [StoreOp.run, answer]
    rcases ran : (MvccStore.put key value lease).run s with ⟨⟨revision, kv, prevKv⟩ | e | _, s'⟩
    · rw [Exec.run_bind_ok ran, Exec.run_bind_ok ran]
      rfl
    · rw [Exec.run_bind_err ran, Exec.run_bind_err ran]
      rfl
    · rw [Exec.run_bind_panic ran, Exec.run_bind_panic ran]
      rfl
  | deleteRange start stop =>
    rw [StoreOp.run, answer]
    rcases ran : (MvccStore.deleteRange start stop).run s with ⟨⟨revision, deleted⟩ | e | _, s'⟩
    · rw [Exec.run_bind_ok ran, Exec.run_bind_ok ran]
      rfl
    · rw [Exec.run_bind_err ran, Exec.run_bind_err ran]
      rfl
    · rw [Exec.run_bind_panic ran, Exec.run_bind_panic ran]
      rfl

theorem state_deleteRange_answer (s : MvccStore) (start stop : Bytes) :
    ((StoreOp.deleteRange start stop).answer.run s).2 = ((MvccStore.deleteRange start stop).run s).2 :=
  Exec.state_bind_pure _ (fun result : Int × List KeyValue => StoreAnswer.deleteRange result.1 result.2) _

/-- Both indexes take the interval of the call, or neither does; the flags say whether they have held a
key. -/
def TakenAlike (held held' : Bool) : StoreOp → Prop
  | .put _ _ _ => True
  | .deleteRange start stop => KeyIndex.Accepts held start stop ↔ KeyIndex.Accepts held' start stop

/-- The call has no inverted interval. -/
def Upright : StoreOp → Prop
  | .put _ _ _ => True
  | .deleteRange start stop => KeyIndex.ValidRange start stop

theorem TakenAlike.refl (held : Bool) : (op : StoreOp) → op.TakenAlike held held
  | .put _ _ _ => trivial
  | .deleteRange _ _ => Iff.rfl

theorem Upright.takenAlike {op : StoreOp} (upright : op.Upright) (held held' : Bool) :
    op.TakenAlike held held' := by
  cases op with
  | put key value lease => trivial
  | deleteRange start stop => exact iff_of_true (.of_valid upright) (.of_valid upright)

end StoreOp

/-- Make calls one after another; what a call did before it panicked stays done. -/
def answers : List StoreOp → MvccStore → List (Outcome StorageError StoreAnswer) × MvccStore
  | [], s => ([], s)
  | op :: rest, s =>
    ((op.answer.run s).1 :: (answers rest (op.answer.run s).2).1, (answers rest (op.answer.run s).2).2)

/-! ### Two stores -/

/-- **The stores agree**, apart from the history in their indexes. -/
structure Alike (s t : MvccStore) : Prop where
  backend : s.backend = t.backend
  current : s.currentRevision = t.currentRevision
  compact : s.compactRevision = t.compactRevision
  held : ∃ live lifetime, Coherent live lifetime s ∧ Coherent live lifetime t

namespace Alike

variable {s t : MvccStore}

theorem of_coherent {live : RefMap} {lifetime : Bytes → List Int} (held : Coherent live lifetime s) :
    Alike s s :=
  ⟨rfl, rfl, rfl, live, lifetime, held, held⟩

theorem fresh : Alike (MvccStore.new .empty) (MvccStore.new .empty) := of_coherent .fresh

/-- Both have the same snapshot. -/
theorem createSnapshot (alike : Alike s t) : s.createSnapshot = t.createSnapshot := by
  rw [MvccStore.createSnapshot, alike.backend, alike.current, alike.compact]
  rfl

/-- **A call returns the same on both**, if both indexes take its interval or neither does. -/
theorem answer (alike : Alike s t) {op : StoreOp} (room : s.currentRevision + 1 < 2 ^ 63)
    (taken : op.TakenAlike s.keyIndex.held t.keyIndex.held) : (op.answer.run s).1 = (op.answer.run t).1 := by
  obtain ⟨live, lifetime, first, second⟩ := alike.held
  have room' : t.currentRevision + 1 < 2 ^ 63 := alike.current ▸ room
  cases op with
  | put key value lease =>
    rw [StoreOp.answer, Exec.run_bind_ok (first.latest.put_run room key value lease),
      Exec.run_bind_ok (second.latest.put_run room' key value lease), alike.current]
    rfl
  | deleteRange start stop =>
    by_cases accepts : KeyIndex.Accepts s.keyIndex.held start stop
    · rw [StoreOp.answer, Exec.run_bind_ok (first.latest.deleteRange_run room accepts),
        Exec.run_bind_ok (second.latest.deleteRange_run room' (taken.mp accepts)), alike.current]
      rfl
    · rw [StoreOp.answer, Exec.run_bind_panic (deleteRange_refused room accepts),
        Exec.run_bind_panic (deleteRange_refused room' (mt taken.mpr accepts))]

/-- **A call leaves them alike**, whatever its interval. -/
theorem next (alike : Alike s t) {op : StoreOp} (short : StoreHistory.Short op)
    (room : s.currentRevision + 1 < 2 ^ 63) : Alike (op.answer.run s).2 (op.answer.run t).2 := by
  obtain ⟨live, lifetime, first, second⟩ := alike.held
  have room' : t.currentRevision + 1 < 2 ^ 63 := alike.current ▸ room
  have backend := alike.backend
  have current := alike.current
  have compact := alike.compact
  cases op with
  | put key value lease =>
    rw [StoreOp.answer, Exec.run_bind_ok (first.latest.put_run room key value lease),
      Exec.run_bind_ok (second.latest.put_run room' key value lease)]
    have next := second.put short room'
    rw [← current] at next ⊢
    refine ⟨?_, ?_, compact, _, _, first.put short room, next⟩
    · simp only [Exec.run_pure, afterPut, backend, current]
    · simp only [Exec.run_pure, afterPut, current]
  | deleteRange start stop =>
    rw [StoreOp.state_deleteRange_answer, StoreOp.state_deleteRange_answer]
    by_cases valid : KeyIndex.ValidRange start stop
    · rw [first.latest.deleteRange_run room (.of_valid valid),
        second.latest.deleteRange_run room' (.of_valid valid)]
      have keys : deletedKeys s start stop = deletedKeys t start stop := by
        rw [first.latest.deletedKeys_eq, second.latest.deletedKeys_eq]
      have next := second.deleteRange room' start stop
      rw [← current] at next ⊢
      refine ⟨?_, ?_, compact, _, _, first.deleteRange room start stop, next⟩
      · simp only [afterDelete, backend, current, keys]
      · simp only [afterDelete, current]
    · rw [deleteRange_inverted room valid, deleteRange_inverted room' valid]
      have next := second.inverted room' valid
      rw [← current] at next ⊢
      exact ⟨backend, rfl, compact, _, _, first.inverted room valid, next⟩

theorem run (alike : Alike s t) {op : StoreOp} (short : StoreHistory.Short op)
    (room : s.currentRevision + 1 < 2 ^ 63) : Alike (op.run.run s).2 (op.run.run t).2 := by
  rw [op.run_eq_answer, op.run_eq_answer]
  exact alike.next short room

/-- **A store is like every store that restored its snapshot.** -/
theorem restore (alike : Alike s t) {data : Bytes} (taken : t.createSnapshot = .ok data)
    (target : MvccStore) :
    (restoreSnapshot data).run target = (.ok (), ((restoreSnapshot data).run target).2) ∧
      Alike ((restoreSnapshot data).run target).2 t := by
  obtain ⟨live, lifetime, -, held⟩ := alike.held
  rw [held.restoreSnapshot_run taken target]
  exact ⟨rfl, rfl, rfl, rfl, live, lifetime, held.afterRestore, held⟩

end Alike

end Rusd
