/-
**What the clean-up of a lease deletes** (`api/lease_service.rs`, `lease_revoke`; `server/mod.rs`,
`process_lease_expiries`).

Both loops delete each attached key as the interval from the key to the key with its last byte
incremented. Up to that bound lie the key and everything that extends it; a last byte of `0xFF` wraps
around to zero, and the interval is inverted.

* `expireAttached` — the loop over the keys of an expired lease; `deleteAttached` is the one over the keys
  of a revoked one.
* `inRange_leaseEndKey` — the interval of a key holds the keys that extend it.
* `cleanup_exact_iff` — when the deletion made for a key removes that key and nothing else.
-/

import Rusd.Api.Replica
import Rusd.Storage.InUse

namespace Rusd

open MvccStore

/-- The loop of `process_lease_expiries` over the keys of an expired lease. An empty key is skipped; an
error of the store is only logged. -/
def expireAttached : List Bytes → ServiceM Unit
  | [] => pure ()
  | key :: rest =>
    if key = [] then expireAttached rest
    else do
      Exec.recover (onStore (MvccStore.deleteRange key (leaseEndKey key)) "")
      expireAttached rest

/-! ### The loops -/

/-- The two loops differ in the empty key only. -/
theorem expireAttached_eq {keys : List Bytes} (nonempty : ∀ key ∈ keys, key ≠ []) :
    expireAttached keys = deleteAttached keys := by
  induction keys with
  | nil => rfl
  | cons key rest ih =>
    obtain ⟨first, others⟩ := List.forall_mem_cons.mp nonempty
    rw [expireAttached, if_neg first, deleteAttached, ih others]

/-- The deletion for one key is the one call. -/
theorem deleteAttached_single {key : Bytes} {leader : Leader}
    (room : leader.store.currentRevision + 1 < 2 ^ 63) {stored live : RefMap}
    (stocked : Stocked stored live leader.store) :
    (deleteAttached [key]).run leader =
      (if KeyIndex.Accepts leader.store.keyIndex.held key (leaseEndKey key) then .ok () else .panic,
        { leader with store := ((MvccStore.deleteRange key (leaseEndKey key)).run leader.store).2 }) := by
  rw [deleteAttached, Exec.run_bind]
  by_cases accepts : KeyIndex.Accepts leader.store.keyIndex.held key (leaseEndKey key)
  · simp only [Exec.recover, onStore, stocked.listed.deleteRange_run room accepts, if_pos accepts]
    rfl
  · simp only [Exec.recover, onStore, MvccStore.deleteRange_refused room accepts, if_neg accepts]

/-! ### The interval of a key -/

theorem leaseEndKey_concat (front : Bytes) (last : Byte) :
    leaseEndKey (front ++ [last]) = front ++ [last + 1] := by
  rw [leaseEndKey, List.getLast?_concat, List.dropLast_concat]

/-- Behind a common front, the strings from `[b]` up to the next byte are those that begin with `b`. -/
theorem le_and_lt_next_iff {last : Byte} (below : last ≠ 255) (front other : Bytes) :
    front ++ [last] ≤ other ∧ other < front ++ [last + 1] ↔ front ++ [last] <+: other := by
  have next : ∀ c : Byte, c < last + 1 ↔ c ≤ last := by
    intro c
    have bound : last.val ≠ 255 := fun same => below (Fin.ext same)
    have sum : (last + 1).val = last.val + 1 := by
      rw [Fin.val_add, Nat.mod_eq_of_lt (by simp only [Fin.val_one]; omega)]
      rfl
    rw [Fin.lt_def, Fin.le_def, sum]
    omega
  induction front generalizing other with
  | nil =>
    cases other with
    | nil => simp
    | cons c rest =>
      rw [List.nil_append, List.nil_append, ← not_lt, List.cons_lt_cons_iff, List.cons_lt_cons_iff,
        next, List.cons_prefix_cons]
      simp only [List.not_lt_nil, and_false, or_false, List.nil_prefix, and_true, not_lt]
      constructor
      · rintro ⟨low, high⟩
        exact le_antisymm low high
      · rintro rfl
        exact ⟨le_rfl, le_rfl⟩
  | cons a front ih =>
    cases other with
    | nil => simp
    | cons c rest =>
      have tail := ih rest
      rw [List.cons_append, List.cons_append, ← not_lt, List.cons_lt_cons_iff, List.cons_lt_cons_iff,
        List.cons_prefix_cons, not_or, not_and, not_lt]
      refine Iff.trans ?_ (and_congr_right fun _ => tail)
      constructor
      · rintro ⟨⟨low, behind⟩, high | ⟨rfl, high⟩⟩
        · exact absurd high (not_lt.mpr low)
        · exact ⟨rfl, not_lt.mp (behind rfl), high⟩
      · rintro ⟨rfl, low, high⟩
        exact ⟨⟨le_rfl, fun _ => not_lt.mpr low⟩, Or.inr ⟨rfl, high⟩⟩

/-- **The interval of a key** whose last byte can be incremented holds the keys that extend it. -/
theorem inRange_leaseEndKey {key : Bytes} (nonempty : key ≠ []) (below : key.getLast? ≠ some 255)
    (other : Bytes) : Bytes.InRange key (leaseEndKey key) other ↔ key <+: other := by
  obtain rfl | ⟨front, last, rfl⟩ := List.eq_nil_or_concat' key
  · exact absurd rfl nonempty
  · rw [List.getLast?_concat] at below
    rw [leaseEndKey_concat, Bytes.InRange, or_iff_right (by simp),
      le_and_lt_next_iff (fun same => below (congrArg some same))]

/-- **The interval of a key that ends in `0xFF` is inverted.** -/
theorem validRange_leaseEndKey {key : Bytes} (nonempty : key ≠ []) :
    KeyIndex.ValidRange key (leaseEndKey key) ↔ key.getLast? ≠ some 255 := by
  obtain rfl | ⟨front, last, rfl⟩ := List.eq_nil_or_concat' key
  · exact absurd rfl nonempty
  · rw [leaseEndKey_concat, KeyIndex.ValidRange, or_iff_right (by simp), List.getLast?_concat]
    constructor
    · rintro le same
      cases same
      have wrapped : ([(255 : Byte) + 1] : Bytes) < [255] := by decide
      exact absurd le (not_le.mpr (List.append_left_lt wrapped))
    · intro below
      exact ((le_and_lt_next_iff (fun same => below (congrArg some same)) front _).mpr
        (List.prefix_refl _)).2.le

/-! ### What the deletion removes -/

/-- The interval that the clean-up passes to the index is not inverted; it returns, removes the key, and
leaves every other live key with its record. -/
def DeletesExactly (cleanup : ServiceM Unit) (leader : Leader) (key : Bytes) : Prop :=
  KeyIndex.ValidRange key (leaseEndKey key) ∧ (cleanup.run leader).1 = .ok () ∧
    ¬ (cleanup.run leader).2.store.Live key ∧
    ∀ other, other ≠ key → leader.store.Live other →
      (cleanup.run leader).2.store.Live other ∧
        (cleanup.run leader).2.store.backend.get .kv other = leader.store.backend.get .kv other

theorem deleteAttached_exact_iff {leader : Leader} (inUse : InUse leader.store)
    (room : leader.store.currentRevision + 1 < 2 ^ 63) {key : Bytes} (nonempty : key ≠ []) :
    DeletesExactly (deleteAttached [key]) leader key ↔
      key.getLast? ≠ some 255 ∧ ∀ other, leader.store.Live other → key <+: other → other = key := by
  obtain ⟨stored, live, stocked⟩ := inUse.stocked
  rw [DeletesExactly, deleteAttached_single room stocked]
  simp only [stocked.live_deleteRange room _ _ _]
  by_cases below : key.getLast? = some 255
  · exact iff_of_false (fun exactly => (validRange_leaseEndKey nonempty).mp exactly.1 below)
      fun exactly => exactly.1 below
  · have valid := (validRange_leaseEndKey nonempty).mpr below
    rw [if_pos (KeyIndex.Accepts.of_valid valid), and_iff_right valid]
    simp only [inRange_leaseEndKey nonempty below, List.prefix_refl, not_true, and_false, not_false_eq_true,
      true_and, stocked.listed.deleteRange_run room (.of_valid valid), below, ne_eq]
    constructor
    · intro kept other lives extends_
      by_contra apart
      exact (kept other apart lives).1.2 extends_
    · intro alone other apart lives
      have outside : ¬ key <+: other := fun extends_ => apart (alone other lives extends_)
      refine ⟨⟨lives, outside⟩, ?_⟩
      rw [afterDelete, get_kv_foldl_removeKey, if_neg]
      intro removed
      exact outside ((inRange_leaseEndKey nonempty below other).mp
        (stocked.listed.mem_deletedKeys.mp removed).1)

/-- **When the clean-up of a lease deletes exactly the leased key**: the key does not end in `0xFF`, and
no other live key extends it. It holds of the deletion made for a non-empty key by the revocation of a
lease and by its expiry, on every store. -/
theorem cleanup_exact_iff (leader : Leader) (inUse : InUse leader.store)
    (room : leader.store.currentRevision + 1 < 2 ^ 63) (key : Bytes) (nonempty : key ≠ []) :
    (DeletesExactly (deleteAttached [key]) leader key ↔
      key.getLast? ≠ some 255 ∧ ∀ other, leader.store.Live other → key <+: other → other = key) ∧
    (DeletesExactly (expireAttached [key]) leader key ↔
      key.getLast? ≠ some 255 ∧ ∀ other, leader.store.Live other → key <+: other → other = key) := by
  have exact_ := deleteAttached_exact_iff inUse room nonempty
  refine ⟨exact_, ?_⟩
  rw [expireAttached_eq fun k member => by rw [List.mem_singleton.mp member]; exact nonempty]
  exact exact_

/-- A leased key, and a key that extends it. -/
def leasedStore : MvccStore :=
  ((MvccStore.put [97, 98] [50] 0).run ((MvccStore.put [97] [49] 7).run (.new .empty)).2).2

def leasedLeader : Leader where
  store := leasedStore
  leases := ⟨fun id => if id = 7 then some [[97]] else none, 1⟩
  proposals := []

theorem leasedStore_inUse : InUse leasedStore :=
  .put (.put .fresh (by decide) (by decide)) (by decide) (by decide)

theorem live_leasedStore {key : Bytes} (lives : leasedStore.Live key) : key = [97] ∨ key = [97, 98] := by
  have keys : (leasedStore.backend.tree .kv).entries.map Prod.fst = [[97], [97, 98]] := by
    decide +kernel
  have member : key ∈ (leasedStore.backend.tree .kv).entries.map Prod.fst :=
    mem_map_fst_entries.mpr lives.2
  rw [keys] at member
  simpa using member

/-- Nothing extends the longer key, so cleaning it up removes it alone. -/
theorem cleanup_of_longer_key : DeletesExactly (expireAttached [[97, 98]]) leasedLeader [97, 98] := by
  refine (cleanup_exact_iff leasedLeader leasedStore_inUse (by decide) [97, 98] (by simp)).2.mpr
    ⟨by decide, fun other lives extends_ => ?_⟩
  rcases live_leasedStore lives with rfl | rfl
  · exact absurd extends_ (by decide)
  · rfl

/-- **Cleaning up `a` deletes `ab` as well**, on both paths; and cleaning up the key `0xFF` panics. -/
theorem extension_deleted :
    InUse leasedLeader.store ∧ leasedLeader.store.Live [97, 98] ∧
      ¬ DeletesExactly (deleteAttached [[97]]) leasedLeader [97] ∧
      ¬ DeletesExactly (expireAttached [[97]]) leasedLeader [97] ∧
      ((deleteAttached [[255]]).run leasedLeader).1 = .panic := by
  have lost : ¬ ((deleteAttached [[97]]).run leasedLeader).2.store.Live [97, 98] := by decide +kernel
  have lost' : ¬ ((expireAttached [[97]]).run leasedLeader).2.store.Live [97, 98] := by decide +kernel
  refine ⟨leasedStore_inUse, by decide +kernel, ?_, ?_, by decide +kernel⟩
  · rintro ⟨-, -, -, kept⟩
    exact lost (kept [97, 98] (by decide) (by decide +kernel)).1
  · rintro ⟨-, -, -, kept⟩
    exact lost' (kept [97, 98] (by decide) (by decide +kernel)).1

end Rusd
