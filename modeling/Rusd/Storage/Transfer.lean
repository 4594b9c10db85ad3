/-
**What a snapshot transfers of the past** (`storage/mvcc.rs`, `restore_snapshot` and
`rebuild_key_index`).

A snapshot carries the `kv_rev` tree with all its records. The index that leads to them is rebuilt from
the `kv` tree, which has one record for each live key. So a restored store finds, at every revision, the
latest record of a live key or nothing.

* `storeAfter_held` — the store after a list of calls, against their reference map.
* `referenceAt_eq_filter` — the map of the past, when no call touches what an earlier one put.
* `history_survives_iff` — reads of the past survive the transfer exactly when no call touches a key
  that an earlier one put.
-/

import Rusd.Storage.Reference
import Rusd.Storage.Resume

namespace Rusd

open MvccStore

/-! ### The calls and their revisions -/

/-- The store after calls on an empty one. -/
def storeAfter (ops : List StoreOp) : MvccStore := (answers ops (.new .empty)).2

/-- The calls with the revisions that an empty store gives them. -/
def numbered (ops : List StoreOp) : List (Int × StoreOp) :=
  ops.zipIdx.map fun call => ((call.2 : Int) + 2, call.1)

theorem numbered_concat (ops : List StoreOp) (op : StoreOp) :
    numbered (ops ++ [op]) = numbered ops ++ [((ops.length : Int) + 2, op)] := by
  unfold numbered
  rw [List.zipIdx_append, List.map_append]
  simp

theorem answers_concat (ops : List StoreOp) (op : StoreOp) (s : MvccStore) :
    (answers (ops ++ [op]) s).2 = (op.answer.run (answers ops s).2).2 := by
  induction ops generalizing s with
  | nil => rfl
  | cons first rest ih => exact ih (first.answer.run s).2

/-- The call writes or deletes the key. -/
def StoreOp.Touches (key : Bytes) : StoreOp → Prop
  | .put other _ _ => other = key
  | .deleteRange start stop => Bytes.InRange start stop key

/-- The later call leaves alone what the earlier one put. -/
def LeavesAlone : StoreOp → StoreOp → Prop
  | .put key _ _, later => ¬ later.Touches key
  | .deleteRange _ _, _ => True

instance (key : Bytes) : DecidablePred (StoreOp.Touches key)
  | .put other _ _ => inferInstanceAs (Decidable (other = key))
  | .deleteRange start stop => inferInstanceAs (Decidable (Bytes.InRange start stop key))

instance : DecidableRel LeavesAlone
  | .put key _ _, later => inferInstanceAs (Decidable ¬ later.Touches key)
  | .deleteRange _ _, _ => .isTrue trivial

/-! ### The reference map of numbered calls -/

section Reference

variable {ops : List StoreOp} {key : Bytes}

theorem fst_mem_numbered {call : Int × StoreOp} (member : call ∈ numbered ops) :
    call.1 ≤ ops.length + 1 := by
  obtain ⟨⟨op, i⟩, listed, rfl⟩ := List.mem_map.mp member
  have := (List.mem_zipIdx listed).2.1
  simp only
  omega

/-- Every record has the revision of a call. -/
theorem modRevision_le {kv : KeyValue} (found : (replay (numbered ops)).get? key = some kv) :
    kv.modRevision ≤ ops.length + 1 := by
  induction ops using List.reverseRecOn with
  | nil => cases found
  | append_singleton ops op ih =>
    rw [numbered_concat, replay_concat] at found
    rw [List.length_append, List.length_singleton]
    push_cast
    cases op with
    | put other value lease =>
      rw [applyCall, OrdMap.get?_insert] at found
      split_ifs at found
      · rw [← Option.some.inj found, refRecord_modRevision]
        omega
      · have := ih found
        omega
    | deleteRange start stop =>
      rw [applyCall, OrdMap.get?_filter] at found
      split_ifs at found
      have := ih found
      omega

/-- A live key has been put. -/
theorem put_of_live {kv : KeyValue} (found : (replay (numbered ops)).get? key = some kv) :
    ∃ value lease, .put key value lease ∈ ops := by
  induction ops using List.reverseRecOn with
  | nil => cases found
  | append_singleton ops op ih =>
    rw [numbered_concat, replay_concat] at found
    have earlier : (replay (numbered ops)).get? key = some kv →
        ∃ value lease, .put key value lease ∈ ops ++ [op] := by
      intro before
      obtain ⟨value, lease, member⟩ := ih before
      exact ⟨value, lease, List.mem_append_left _ member⟩
    cases op with
    | put other value lease =>
      rw [applyCall, OrdMap.get?_insert] at found
      split_ifs at found with same
      · exact ⟨value, lease, List.mem_append_right _ (same ▸ List.mem_singleton_self _)⟩
      · exact earlier found
    | deleteRange start stop =>
      rw [applyCall, OrdMap.get?_filter] at found
      split_ifs at found
      exact earlier found

/-- A record of a key is not older than a call that touched the key. -/
theorem touched_le {j : Nat} {op : StoreOp} (made : ops[j]? = some op) (touches : op.Touches key)
    {kv : KeyValue} (found : (replay (numbered ops)).get? key = some kv) : (j : Int) + 2 ≤ kv.modRevision := by
  induction ops using List.reverseRecOn with
  | nil => cases found
  | append_singleton ops last ih =>
    rw [numbered_concat, replay_concat] at found
    have inside : j ≤ ops.length := by
      have := (List.getElem?_eq_some_iff.mp made).1
      rw [List.length_append, List.length_singleton] at this
      omega
    rcases Nat.lt_or_eq_of_le inside with below | rfl
    · -- an earlier call touched the key
      rw [List.getElem?_append_left below] at made
      cases last with
      | put other value lease =>
        rw [applyCall, OrdMap.get?_insert] at found
        split_ifs at found
        · rw [← Option.some.inj found, refRecord_modRevision]
          omega
        · exact ih made found
      | deleteRange start stop =>
        rw [applyCall, OrdMap.get?_filter] at found
        split_ifs at found
        exact ih made found
    · -- the last one did
      rw [List.getElem?_append_right le_rfl, Nat.sub_self] at made
      cases made
      cases op with
      | put other value lease =>
        have same : key = other := Eq.symm touches
        rw [applyCall, OrdMap.get?_insert, if_pos same] at found
        rw [← Option.some.inj found, refRecord_modRevision]
      | deleteRange start stop =>
        have inRange : Bytes.InRange start stop key := touches
        rw [applyCall, OrdMap.get?_filter, if_neg (by simpa using inRange)] at found
        cases found

/-- At the revision of its put, a key is there. -/
theorem found_at_put {i : Nat} {value : Bytes} {lease : Int}
    (made : ops[i]? = some (.put key value lease)) :
    ((referenceAt (numbered ops) (i + 2)).get? key).isSome := by
  induction ops using List.reverseRecOn with
  | nil => cases made
  | append_singleton ops last ih =>
    rw [numbered_concat, referenceAt_concat]
    have inside : i ≤ ops.length := by
      have := (List.getElem?_eq_some_iff.mp made).1
      rw [List.length_append, List.length_singleton] at this
      omega
    rcases Nat.lt_or_eq_of_le inside with below | rfl
    · rw [List.getElem?_append_left below] at made
      rw [if_neg (by simp only; omega)]
      exact ih made
    · rw [List.getElem?_append_right le_rfl, Nat.sub_self] at made
      cases made
      rw [if_pos le_rfl, applyCall, OrdMap.get?_insert, if_pos rfl]
      rfl

/-- **Calls that leave alone what was put before**: the map of the past is the latest map up to the
revision. -/
theorem referenceAt_eq_filter (alone : ops.Pairwise LeavesAlone) (key : Bytes) (r : Int) :
    (referenceAt (numbered ops) r).get? key =
      ((replay (numbered ops)).get? key).filter fun kv => kv.modRevision ≤ r := by
  induction ops using List.reverseRecOn with
  | nil => rfl
  | append_singleton ops op ih =>
    obtain ⟨before, -, across⟩ := List.pairwise_append.mp alone
    rw [numbered_concat, referenceAt_concat, replay_concat]
    by_cases visible : (ops.length : Int) + 2 ≤ r
    · -- every record is visible
      rw [if_pos visible, referenceAt_eq_replay fun call member => by
        have := fst_mem_numbered member
        omega]
      have all : ∀ kv, (applyCall (replay (numbered ops)) ((ops.length : Int) + 2, op)).get? key = some kv →
          kv.modRevision ≤ r := by
        intro kv found
        rw [← replay_concat, ← numbered_concat] at found
        have := modRevision_le found
        rw [List.length_append, List.length_singleton] at this
        push_cast at this
        omega
      cases found : (applyCall (replay (numbered ops)) ((ops.length : Int) + 2, op)).get? key with
      | none => rfl
      | some kv => rw [Option.filter_some, decide_eq_true (all kv found), if_pos rfl]
    · -- the last call is not visible, and it touched no key that is
      rw [if_neg visible, ih before]
      have untouched : op.Touches key → (replay (numbered ops)).get? key = none := by
        intro touches
        by_contra live
        obtain ⟨kv, found⟩ := Option.ne_none_iff_exists'.mp live
        obtain ⟨value, lease, member⟩ := put_of_live found
        exact across _ member op (List.mem_singleton_self op) touches
      cases op with
      | put other value lease =>
        rw [applyCall, OrdMap.get?_insert]
        by_cases same : key = other
        · rw [if_pos same, untouched same.symm, Option.filter_none, Option.filter_some,
            refRecord_modRevision, decide_eq_false visible, if_neg Bool.false_ne_true]
        · rw [if_neg same]
      | deleteRange start stop =>
        rw [applyCall, OrdMap.get?_filter]
        by_cases inRange : Bytes.InRange start stop key
        · rw [untouched inRange, ite_self]
        · rw [if_pos (by simpa using inRange)]

end Reference

/-! ### The store -/

/-- **The store after calls** holds their reference map, for every revision, and their records. -/
theorem storeAfter_held (ops : List StoreOp) (short : ∀ op ∈ ops, StoreHistory.Short op)
    (room : (ops.length : Int) + 1 < 2 ^ 63) :
    (storeAfter ops).currentRevision = ops.length + 1 ∧ (storeAfter ops).compactRevision = 0 ∧
      Refines (numbered ops) (storeAfter ops) ∧
      ∃ lifetime, Coherent (replay (numbered ops)) lifetime (storeAfter ops) := by
  induction ops using List.reverseRecOn with
  | nil => exact ⟨rfl, rfl, .fresh, _, .fresh⟩
  | append_singleton ops op ih =>
    rw [List.length_append, List.length_singleton] at room ⊢
    push_cast at room ⊢
    obtain ⟨current, compact, refines, lifetime, held⟩ :=
      ih (fun op member => short op (List.mem_append_left _ member)) (by omega)
    have next : (storeAfter ops).currentRevision + 1 < 2 ^ 63 := by rw [current]; exact room
    have called : (ops.length : Int) + 2 = (storeAfter ops).currentRevision + 1 := by
      rw [current, add_assoc]
      rfl
    have shortOp := short op (List.mem_append_right _ (List.mem_singleton_self op))
    rw [storeAfter, answers_concat, ← storeAfter, numbered_concat, called, replay_concat]
    cases op with
    | put key value lease =>
      have admissible : (StoreOp.put key value lease).Admissible :=
        ⟨by have := shortOp.1; omega, by have := shortOp.1; omega, shortOp.2⟩
      rw [StoreOp.answer, Exec.run_bind_ok (held.latest.put_run next key value lease)]
      exact ⟨congrArg (· + 1) current, compact, (refines.put admissible next).2, _, held.put shortOp next⟩
    | deleteRange start stop =>
      rw [StoreOp.state_deleteRange_answer]
      by_cases valid : KeyIndex.ValidRange start stop
      · rw [held.latest.deleteRange_run next (.of_valid valid)]
        exact ⟨congrArg (· + 1) current, compact, (refines.deleteRange (.of_valid valid) next).2, _,
          held.deleteRange next start stop⟩
      · rw [deleteRange_inverted next valid]
        exact ⟨congrArg (· + 1) current, compact, refines.inverted next valid, _, held.inverted next valid⟩

/-- A read at the revision of a put finds the key on the store itself; on the restored one it does not,
when a later call touched the key. -/
theorem overwritten_lost {ops : List StoreOp} {lifetime : Bytes → List Int}
    (refines : Refines (numbered ops) (storeAfter ops))
    (held : Coherent (replay (numbered ops)) lifetime (storeAfter ops)) {i j : Nat} (later : i < j)
    {key value : Bytes} {lease : Int} {op : StoreOp} (first : ops[i]? = some (.put key value lease))
    (second : ops[j]? = some op) (touches : op.Touches key) :
    ((storeAfter ops).keyIndex.keysIn key (key ++ [0]) (i + 2)).length = 1 ∧
      (((storeAfter ops).afterRestore (recordOf (replay (numbered ops)))).keyIndex.keysIn key
        (key ++ [0]) (i + 2)).length = 0 := by
  rw [KeyIndex.keysIn_single, KeyIndex.keysIn_single, refines.index, held.get_restored]
  constructor
  · obtain ⟨kv, found⟩ := Option.isSome_iff_exists.mp (found_at_put first)
    rw [found]
    rfl
  · cases found : (replay (numbered ops)).get? key with
    | none => rfl
    | some kv =>
      have hidden : ¬ kv.modRevision ≤ (i : Int) + 2 := by
        have := touched_le second touches found
        omega
      rw [Option.filter_some, decide_eq_false hidden]
      rfl

/-- **Exactly when the past survives the transfer of a snapshot**: every read of an allocated revision
returns on every store that restored the snapshot what it returns on the store itself if and only if no
call put or deleted a key that an earlier call had put. -/
theorem history_survives_iff (ops : List StoreOp) (short : ∀ op ∈ ops, StoreHistory.Short op)
    (room : (ops.length : Int) + 1 < 2 ^ 63) (data : Bytes)
    (taken : (storeAfter ops).createSnapshot = .ok data) (target restored : MvccStore)
    (succeeded : (restoreSnapshot data).run target = (.ok (), restored)) :
    (∀ start stop r, KeyIndex.ValidRange start stop → (storeAfter ops).compactRevision < r →
      r ≤ (storeAfter ops).currentRevision →
        (restored.range start stop r 0 false).map (fun result => (result.kvs, result.count)) =
          ((storeAfter ops).range start stop r 0 false).map fun result => (result.kvs, result.count)) ↔
      ops.Pairwise LeavesAlone := by
  obtain ⟨current, compact, refines, lifetime, held⟩ := storeAfter_held ops short room
  rw [held.restoreSnapshot_run taken] at succeeded
  cases succeeded
  constructor
  · intro survives
    rw [List.pairwise_iff_getElem]
    intro i j before inside later
    by_contra touched
    -- the earlier call put a key that the later one touches
    obtain ⟨key, value, lease, first, touches⟩ : ∃ key value lease,
        ops[i] = .put key value lease ∧ ops[j].Touches key := by
      cases made : ops[i] with
      | put key value lease =>
        rw [made] at touched
        exact ⟨key, value, lease, rfl, not_not.mp touched⟩
      | deleteRange start stop =>
        rw [made] at touched
        exact absurd trivial touched
    obtain ⟨own, others⟩ := overwritten_lost refines held later
      (List.getElem?_eq_some_iff.mpr ⟨before, first⟩) (List.getElem?_eq_some_iff.mpr ⟨inside, rfl⟩)
      touches
    have valid : KeyIndex.ValidRange key (key ++ [0]) :=
      .inr ((Bytes.inRange_single.mpr rfl).2.resolve_left (by simp)).le
    have past : ¬ ((i : Int) + 2 ≤ 0) := by omega
    have same := survives key (key ++ [0]) (i + 2) valid (by rw [compact]; omega) (by rw [current]; omega)
    rw [refines.range_eq_reference (.of_valid valid), Outcome.map, Outcome.map_eq_ok] at same
    obtain ⟨result, returned, equal⟩ := same
    have counted := count_of_range returned
    have counted' := count_of_range (refines.range_eq_reference (.of_valid valid) ((i : Int) + 2))
    rw [if_neg past, others] at counted
    rw [if_neg past, own] at counted'
    rw [if_neg past] at equal
    have counts := congrArg Prod.snd equal
    rw [counted, counted'] at counts
    cases counts
  · intro alone start stop r valid _ _
    refine congrArg _ (range_congr rfl rfl (iff_of_true (.of_valid valid) (.of_valid valid)) fun key => ?_)
    rw [held.get_restored, refines.index, referenceAt_eq_filter alone]

/-- A store whose key was written twice does not survive: its restored copy has no record of the key at
the revision of the first write. -/
theorem overwritten_history_lost :
    ∃ data restored, (storeAfter [.put [97] [49] 0, .put [97] [50] 0]).createSnapshot = .ok data ∧
      (restoreSnapshot data).run (.new .empty) = (.ok (), restored) ∧
      (storeAfter [.put [97] [49] 0, .put [97] [50] 0]).compactRevision = 0 ∧
      (storeAfter [.put [97] [49] 0, .put [97] [50] 0]).currentRevision = 3 ∧
      (restored.range [97] [] 2 0 false).map (fun result => (result.kvs, result.count)) = .ok ([], 0) ∧
      ((storeAfter [.put [97] [49] 0, .put [97] [50] 0]).range [97] [] 2 0 false).map
        (fun result => (result.kvs, result.count)) = .ok ([⟨[97], 2, 2, 1, [49], 0⟩], 1) := by
  have taken : ∃ data, (storeAfter [.put [97] [49] 0, .put [97] [50] 0]).createSnapshot = .ok data := by
    have snapped : ((storeAfter [.put [97] [49] 0, .put [97] [50] 0]).createSnapshot.map
      fun _ => ()) = .ok () := by decide +kernel
    exact (Outcome.map_eq_ok.mp snapped).imp fun _ made => made.1
  obtain ⟨data, taken⟩ := taken
  obtain ⟨current, compact, -, lifetime, held⟩ :=
    storeAfter_held [.put [97] [49] 0, .put [97] [50] 0] (by decide) (by decide)
  refine ⟨data, _, taken, held.restoreSnapshot_run taken _, compact, current, ?_, ?_⟩
  · decide +kernel
  · decide +kernel

/-- A store with two keys written once each survives. -/
theorem two_keys_survive :
    ∃ data restored, (storeAfter [.put [97] [49] 0, .put [98] [50] 0]).createSnapshot = .ok data ∧
      (restoreSnapshot data).run (.new .empty) = (.ok (), restored) ∧
      ∀ start stop r, KeyIndex.ValidRange start stop →
        (storeAfter [.put [97] [49] 0, .put [98] [50] 0]).compactRevision < r →
        r ≤ (storeAfter [.put [97] [49] 0, .put [98] [50] 0]).currentRevision →
          (restored.range start stop r 0 false).map (fun result => (result.kvs, result.count)) =
            ((storeAfter [.put [97] [49] 0, .put [98] [50] 0]).range start stop r 0 false).map
              fun result => (result.kvs, result.count) := by
  have taken : ∃ data, (storeAfter [.put [97] [49] 0, .put [98] [50] 0]).createSnapshot = .ok data := by
    have snapped : ((storeAfter [.put [97] [49] 0, .put [98] [50] 0]).createSnapshot.map
      fun _ => ()) = .ok () := by decide +kernel
    exact (Outcome.map_eq_ok.mp snapped).imp fun _ made => made.1
  obtain ⟨data, taken⟩ := taken
  obtain ⟨-, -, -, lifetime, held⟩ := storeAfter_held [.put [97] [49] 0, .put [98] [50] 0]
    (by decide) (by decide)
  have succeeded := held.restoreSnapshot_run taken (.new .empty)
  exact ⟨data, _, taken, succeeded, (history_survives_iff _ (by decide) (by decide) data taken _ _
    succeeded).mpr (by decide)⟩

end Rusd
