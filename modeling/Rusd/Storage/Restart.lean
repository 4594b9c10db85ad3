/-
**What a restart keeps.**

A restart is `MvccStore::new` over the backend the old process left. The trees survive; the two
counters start again at their initial values, and the index is empty, although the record of every
live key is still in the `kv` tree.

* `SameAfterRestart` — the restarted store cannot be told from the old one by its counter, by a
  current read or by the next `put`.
* `restart_keeps_store_iff` — that is so only when nothing was ever written. The reads alone agree
  exactly when no key is live.
-/

import Rusd.Storage.Reference

namespace Rusd

open MvccStore

/-- The restarted store looks like the old one: the counter, the current reads, the next write. -/
structure SameAfterRestart (s : MvccStore) : Prop where
  currentRevision : (MvccStore.new s.backend).currentRevision = s.currentRevision
  range : ∀ start stop, KeyIndex.ValidRange start stop →
    (MvccStore.new s.backend).range start stop 0 0 false = s.range start stop 0 0 false
  put : ∀ key value lease, ((MvccStore.put key value lease).run (MvccStore.new s.backend)).1 =
    ((MvccStore.put key value lease).run s).1

/-- A restarted store reads nothing. -/
theorem range_restarted (backend : Backend) {start stop : Bytes}
    (valid : KeyIndex.ValidRange start stop) :
    (MvccStore.new backend).range start stop 0 0 false = .ok ⟨[], false, 0⟩ := by
  have nothing : KeyIndex.new.keysIn start stop 1 = [] := rfl
  simp only [MvccStore.range, KeyIndex.range_eq (.of_valid valid), MvccStore.new, le_refl, if_true, nothing]
  rfl

/-- The current reads survive a restart exactly when there is nothing to read. -/
theorem range_restarted_iff {calls : List (Int × StoreOp)} {s : MvccStore} (ref : Refines calls s) :
    (∀ start stop, KeyIndex.ValidRange start stop →
        (MvccStore.new s.backend).range start stop 0 0 false = s.range start stop 0 0 false) ↔
      replay calls = .empty := by
  have current : referenceAt calls s.currentRevision = replay calls := ref.reference_current le_rfl
  constructor
  · intro same
    have read := same [] [] (Or.inl rfl)
    rw [range_restarted s.backend (Or.inl rfl), ref.range_eq_reference (.of_valid (Or.inl rfl)), if_pos le_rfl,
      current] at read
    have count : 0 = ((replay calls).entries.filter fun e => Bytes.InRange [] [] e.1).length :=
      congrArg RangeResult.count (Outcome.ok.inj read)
    have all : (replay calls).entries.filter (fun e => Bytes.InRange [] [] e.1) =
        (replay calls).entries := by
      refine List.filter_eq_self.mpr fun e _ => ?_
      simpa [Bytes.InRange] using not_lt.mp (List.not_lt_nil e.1)
    rw [all] at count
    refine OrdMap.ext_get? fun key => ?_
    rw [OrdMap.get?, List.length_eq_zero_iff.mp count.symm]
    rfl
  · intro nothing start stop valid
    rw [range_restarted s.backend valid, ref.range_eq_reference (.of_valid valid), if_pos le_rfl, current,
      nothing]
    rfl

/-- **A restart keeps the store only if nothing was written.** For every run of admissible calls on
a fresh store, the store restarted over the backend it left is the same to an observer exactly when
the run is empty; its current reads are the same exactly when no key is live. -/
theorem restart_keeps_store_iff (ops : List StoreOp) (admissible : ∀ op ∈ ops, op.Admissible)
    (calls : List (Int × StoreOp)) (s : MvccStore)
    (returned : (runOps ops).run (MvccStore.new .empty) = (.ok calls, s)) :
    (SameAfterRestart s ↔ ops = []) ∧
      ((∀ start stop, KeyIndex.ValidRange start stop →
          (MvccStore.new s.backend).range start stop 0 0 false = s.range start stop 0 0 false) ↔
        replay calls = .empty) := by
  obtain ⟨_, counter, _, ref⟩ := Refines.fresh.runOps admissible returned
  rw [List.nil_append] at ref
  refine ⟨⟨fun same => ?_, fun nothing => ?_⟩, range_restarted_iff ref⟩
  · have restarted := same.currentRevision
    rw [counter] at restarted
    simp only [MvccStore.new] at restarted
    exact List.length_eq_zero_iff.mp (by omega)
  · subst nothing
    cases returned
    exact ⟨rfl, fun _ _ _ => rfl, fun _ _ _ => rfl⟩

/-- **A restart after two writes** forgets both keys, allocates their revisions again, and writes
the second key with a creation after its modification. -/
theorem restart_loses_two_writes :
    ∃ calls s, (runOps [.put [97] [49] 0, .put [98] [50] 0]).run (MvccStore.new .empty) =
        (.ok calls, s) ∧
      s.currentRevision = 3 ∧ (MvccStore.new s.backend).currentRevision = 1 ∧
      (s.range [97] [] 0 0 false).map (fun result => result.kvs.map fun kv => kv.key) =
        .ok [[97], [98]] ∧
      (MvccStore.new s.backend).range [97] [] 0 0 false = .ok ⟨[], false, 0⟩ ∧
      ((MvccStore.put [98] [51] 0).run s).1 =
        .ok (4, ⟨[98], 3, 4, 2, [51], 0⟩, some ⟨[98], 3, 3, 1, [50], 0⟩) ∧
      ((MvccStore.put [98] [51] 0).run (MvccStore.new s.backend)).1 =
        .ok (2, ⟨[98], 3, 2, 2, [51], 0⟩, some ⟨[98], 3, 3, 1, [50], 0⟩) := by
  refine ⟨_, _, rfl, rfl, rfl, by rfl, by rfl, ?_, ?_⟩ <;> decide +kernel

/-- The two sides at a concrete run: a fresh store survives, one with a write does not. -/
theorem restart_fresh_and_written :
    SameAfterRestart (MvccStore.new .empty) ∧
      ∀ calls s, (runOps [.put [97] [49] 0]).run (MvccStore.new .empty) = (.ok calls, s) →
        ¬ SameAfterRestart s := by
  constructor
  · exact (restart_keeps_store_iff [] (by simp) [] _ rfl).1.mpr rfl
  · intro calls s returned same
    have admissible : ∀ op ∈ [StoreOp.put [97] [49] 0], op.Admissible := by
      intro op member
      rw [List.mem_singleton.mp member]
      exact ⟨by decide, by decide, by decide, by decide⟩
    cases (restart_keeps_store_iff _ admissible calls s returned).1.mp same

end Rusd
