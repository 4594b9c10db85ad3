/-
**The store against a reference map.**

`referenceAt calls r` is the map of records after the calls whose revision is at most `r`.

* `Refines calls s` — the simulation relation: the `kv` tree holds the latest map, the index
  answers every revision with the record of the map at that revision, and `kv_rev` holds that
  record under its revision.
* `Refines.run` — every call that returns keeps it, and calls return while the counter has room.
* `range_eq_reference` — a read at `r` is the map at `r`, whichever of the two trees it comes from.
* `time_travel_refinement` — the whole run.
-/

import Rusd.Storage.Latest

namespace Rusd

open MvccStore

/-- Run calls one after another, collecting each with its revision. -/
def runOps : List StoreOp → StoreM (List (Int × StoreOp))
  | [] => pure []
  | op :: rest => do
    let revision ← op.run
    let calls ← runOps rest
    pure ((revision, op) :: calls)

/-! ### The reference map -/

def replay (calls : List (Int × StoreOp)) : RefMap := calls.foldl applyCall .empty

/-- The map obtained by replaying only the calls whose revision is at most `r`. -/
def referenceAt (calls : List (Int × StoreOp)) (r : Int) : RefMap :=
  replay (calls.filter fun call => call.1 ≤ r)

theorem referenceAt_concat (calls : List (Int × StoreOp)) (call : Int × StoreOp) (r : Int) :
    referenceAt (calls ++ [call]) r =
      if call.1 ≤ r then applyCall (referenceAt calls r) call else referenceAt calls r := by
  unfold referenceAt replay
  by_cases visible : call.1 ≤ r <;> simp [List.filter_append, visible]

theorem replay_concat (calls : List (Int × StoreOp)) (call : Int × StoreOp) :
    replay (calls ++ [call]) = applyCall (replay calls) call := by
  rw [replay, List.foldl_append]
  rfl

theorem referenceAt_eq_replay {calls : List (Int × StoreOp)} {r : Int}
    (all : ∀ call ∈ calls, call.1 ≤ r) : referenceAt calls r = replay calls := by
  unfold referenceAt
  rw [List.filter_eq_self.mpr]
  simpa using all

/-- Calls above `r` do not change the map at `r`. -/
theorem referenceAt_append {calls later : List (Int × StoreOp)} {r : Int}
    (above : ∀ call ∈ later, r < call.1) : referenceAt (calls ++ later) r = referenceAt calls r := by
  have none : later.filter (fun call => decide (call.1 ≤ r)) = [] := by
    rw [List.filter_eq_nil_iff]
    intro call member
    simpa using above call member
  unfold referenceAt
  rw [List.filter_append, none, List.append_nil]

/-! ### The simulation relation -/

/-- **The store represents the calls made on it.** -/
structure Refines (calls : List (Int × StoreOp)) (s : MvccStore) : Prop where
  positive : 1 ≤ s.currentRevision
  fits : s.currentRevision < 2 ^ 63
  allocated : ∀ call ∈ calls, call.1 ≤ s.currentRevision
  indexOk : IndexOk s.currentRevision s.keyIndex
  records : ∀ r key kv, (referenceAt calls r).get? key = some kv →
    RecordOk key s.currentRevision kv ∧ kv.modRevision ≤ r
  kv : ∀ key, s.backend.get .kv key = ((replay calls).get? key).map KeyValue.encode
  index : ∀ key r, s.keyIndex.get key r =
    ((referenceAt calls r).get? key).map fun kv => ⟨kv.modRevision, 0⟩
  history : ∀ key r kv, (referenceAt calls r).get? key = some kv →
    s.backend.get .kvRev (revKey kv.modRevision key) = some kv.encodeWithKey

/-- A fresh store represents no calls. -/
theorem Refines.fresh : Refines [] (MvccStore.new .empty) where
  positive := le_rfl
  fits := by norm_num [MvccStore.new]
  allocated := by simp
  indexOk := IndexOk.new _
  records := by simp [referenceAt, replay]
  kv := by simp [replay, MvccStore.new]
  index := by simp [referenceAt, replay, MvccStore.new, KeyIndex.get, KeyIndex.new]
  history := by simp [referenceAt, replay]

namespace Refines

variable {calls : List (Int × StoreOp)} {s s' : MvccStore}

/-- From the current revision on, the map is that of the whole sequence. -/
theorem reference_current (ref : Refines calls s) {r : Int} (current : s.currentRevision ≤ r) :
    referenceAt calls r = replay calls :=
  referenceAt_eq_replay fun call member => (ref.allocated call member).trans current

/-- The store holds the records of the map. -/
theorem toLatest (ref : Refines calls s) : Latest (replay calls) s where
  positive := ref.positive
  fits := ref.fits
  indexOk := ref.indexOk
  records key kv found :=
    (ref.records s.currentRevision key kv (by rw [ref.reference_current le_rfl, found])).1
  kv := ref.kv
  index key := by rw [ref.index, ref.reference_current le_rfl]
  history key kv found :=
    ref.history key s.currentRevision kv (by rw [ref.reference_current le_rfl, found])

theorem isI64_of_le (ref : Refines calls s) {r : Int} (low : 0 ≤ r) (high : r ≤ s.currentRevision) :
    IsI64 r := by
  have := ref.fits
  constructor <;> omega

theorem isI64_modRevision (ref : Refines calls s) {r : Int} {key : Bytes} {kv : KeyValue}
    (found : (referenceAt calls r).get? key = some kv) : IsI64 kv.modRevision := by
  have ok := (ref.records r key kv found).1
  exact ref.isI64_of_le (by have := ok.created; have := ok.modified; omega) ok.bounded

/-! ### A `put` -/

section Put

variable {key value : Bytes} {lease : Int}

/-- The maps before and after: a `put` shows from its own revision on. -/
theorem referenceAt_put (ref : Refines calls s) (r : Int) :
    referenceAt (calls ++ [(s.currentRevision + 1, .put key value lease)]) r =
      if s.currentRevision + 1 ≤ r then (replay calls).insert key
        (refRecord (replay calls) (s.currentRevision + 1) key value lease)
      else referenceAt calls r := by
  rw [referenceAt_concat]
  by_cases visible : s.currentRevision + 1 ≤ r
  · rw [if_pos visible, if_pos visible, ref.reference_current (by omega)]
    rfl
  · rw [if_neg visible, if_neg visible]

theorem put_records (ref : Refines calls s)
    (admissible : (StoreOp.put key value lease).Admissible) {r : Int} {k : Bytes} {kv : KeyValue}
    (found : (referenceAt (calls ++ [(s.currentRevision + 1, .put key value lease)]) r).get? k =
      some kv) :
    RecordOk k (s.currentRevision + 1) kv ∧ kv.modRevision ≤ r := by
  rw [ref.referenceAt_put] at found
  split_ifs at found with visible
  · rw [OrdMap.get?_insert] at found
    split_ifs at found with same
    · cases found
      subst same
      exact ⟨recordOk_refRecord ref.positive (ref.toLatest.records k) admissible,
        by simpa using visible⟩
    · have ok := ref.toLatest.records k kv found
      exact ⟨ok.mono (by omega), by have := ok.bounded; omega⟩
  · obtain ⟨ok, le⟩ := ref.records r k kv found
    exact ⟨ok.mono (by omega), le⟩

theorem put_index (ref : Refines calls s) (k : Bytes) (r : Int) :
    (s.afterPut (refRecord (replay calls) (s.currentRevision + 1) key value lease)).keyIndex.get k r
      = ((referenceAt (calls ++ [(s.currentRevision + 1, .put key value lease)]) r).get? k).map
          fun kv => ⟨kv.modRevision, 0⟩ := by
  rw [afterPut, KeyIndex.get_put ref.indexOk _ (by simp), ref.referenceAt_put, refRecord_key]
  by_cases visible : s.currentRevision + 1 ≤ r
  · rw [if_pos visible, OrdMap.get?_insert]
    by_cases same : k = key
    · rw [if_pos ⟨same, visible⟩, if_pos same, Option.map_some, refRecord_modRevision]
    · rw [if_neg (fun both => same both.1), if_neg same, ref.index, ref.reference_current (by omega)]
  · rw [if_neg (fun both => visible both.2), if_neg visible, ref.index]

theorem put_history (ref : Refines calls s) (room : s.currentRevision + 1 < 2 ^ 63)
    {r : Int} {k : Bytes} {kv : KeyValue}
    (found : (referenceAt (calls ++ [(s.currentRevision + 1, .put key value lease)]) r).get? k =
      some kv) :
    (s.afterPut (refRecord (replay calls) (s.currentRevision + 1) key value lease)).backend.get .kvRev
      (revKey kv.modRevision k) = some kv.encodeWithKey := by
  have positive := ref.positive
  -- an older record lies under an older revision, so it is not overwritten
  have old : ∀ r', (referenceAt calls r').get? k = some kv →
      (s.afterPut (refRecord (replay calls) (s.currentRevision + 1) key value lease)).backend.get
        .kvRev (revKey kv.modRevision k) = some kv.encodeWithKey := by
    intro r' before
    rw [afterPut, Backend.get_put, if_neg, Backend.get_put, if_neg (by simp),
      ref.history k r' kv before]
    rintro ⟨_, same⟩
    have bounded := (ref.records r' k kv before).1.bounded
    have equal := (revKey_injective (ref.isI64_modRevision before) (by constructor <;> omega) same).1
    omega
  rw [ref.referenceAt_put] at found
  split_ifs at found with visible
  · rw [OrdMap.get?_insert] at found
    split_ifs at found with same
    · cases found
      rw [refRecord_modRevision, same, afterPut, Backend.get_put, refRecord_key, if_pos ⟨rfl, rfl⟩]
    · exact old s.currentRevision (by rw [ref.reference_current le_rfl]; exact found)
  · exact old r found

/-- **A `put` that has room returns the reference record**, and the store follows the map. -/
theorem put (ref : Refines calls s) (admissible : (StoreOp.put key value lease).Admissible)
    (room : s.currentRevision + 1 < 2 ^ 63) :
    (MvccStore.put key value lease).run s =
        (.ok (s.currentRevision + 1,
          refRecord (replay calls) (s.currentRevision + 1) key value lease,
          (replay calls).get? key),
          s.afterPut (refRecord (replay calls) (s.currentRevision + 1) key value lease)) ∧
      Refines (calls ++ [(s.currentRevision + 1, .put key value lease)])
        (s.afterPut (refRecord (replay calls) (s.currentRevision + 1) key value lease)) := by
  constructor
  · exact ref.toLatest.put_run room key value lease
  · have next := ref.toLatest.put admissible room
    refine ⟨next.positive, room, fun call member => ?_,
      next.indexOk, fun r k kv found => ref.put_records admissible found,
      by rw [replay_concat]; exact next.kv, ref.put_index, fun k r kv found => ref.put_history room found⟩
    rcases List.mem_append.mp member with member | member
    · exact (ref.allocated call member).trans (by simp only [afterPut]; omega)
    · rw [List.mem_singleton.mp member]
      exact le_rfl

end Put

/-! ### A `delete_range` -/

section DeleteRange

variable {start stop : Bytes}

theorem referenceAt_deleteRange (ref : Refines calls s) (start stop : Bytes) (r : Int) :
    referenceAt (calls ++ [(s.currentRevision + 1, .deleteRange start stop)]) r =
      if s.currentRevision + 1 ≤ r then
        applyCall (replay calls) (s.currentRevision + 1, .deleteRange start stop)
      else referenceAt calls r := by
  rw [referenceAt_concat]
  by_cases visible : s.currentRevision + 1 ≤ r
  · rw [if_pos visible, if_pos visible, ref.reference_current (by omega)]
  · rw [if_neg visible, if_neg visible]

/-- A record that a deletion leaves was there before it. -/
theorem found_before_deleteRange (ref : Refines calls s) {r : Int} {k : Bytes} {kv : KeyValue}
    (found : (referenceAt (calls ++ [(s.currentRevision + 1, .deleteRange start stop)]) r).get? k =
      some kv) : ∃ r' ≤ r, (referenceAt calls r').get? k = some kv := by
  rw [ref.referenceAt_deleteRange] at found
  split_ifs at found with visible
  · exact ⟨s.currentRevision, by omega,
      by rw [ref.reference_current le_rfl]; exact ref.toLatest.found_of_outside found⟩
  · exact ⟨r, le_rfl, found⟩

theorem deleteRange_index (ref : Refines calls s) (start stop k : Bytes) (r : Int) :
    (s.afterDelete (deletedKeys s start stop)).keyIndex.get k r =
      ((referenceAt (calls ++ [(s.currentRevision + 1, .deleteRange start stop)]) r).get? k).map
        fun kv => ⟨kv.modRevision, 0⟩ := by
  rw [afterDelete, KeyIndex.get_tombstones ref.indexOk _ (by simp), ref.referenceAt_deleteRange,
    ref.index]
  by_cases visible : s.currentRevision + 1 ≤ r
  · rw [if_pos visible, ref.toLatest.get?_outside, ref.reference_current (by omega)]
    by_cases removed : k ∈ deletedKeys s start stop
    · rw [if_pos ⟨removed, visible⟩, if_pos removed, Option.map_none]
    · rw [if_neg (fun both => removed both.1), if_neg removed]
  · rw [if_neg visible, if_neg (fun both => visible both.2)]

theorem deleteRange_history (ref : Refines calls s) (room : s.currentRevision + 1 < 2 ^ 63)
    {r : Int} {k : Bytes} {kv : KeyValue}
    (found : (referenceAt (calls ++ [(s.currentRevision + 1, .deleteRange start stop)]) r).get? k =
      some kv) :
    (s.afterDelete (deletedKeys s start stop)).backend.get .kvRev (revKey kv.modRevision k) =
      some kv.encodeWithKey := by
  have positive := ref.positive
  obtain ⟨r', _, before⟩ := ref.found_before_deleteRange found
  rw [afterDelete, get_kvRev_foldl_removeKey, ref.history k r' kv before]
  intro key same
  have bounded := (ref.records r' k kv before).1.bounded
  have equal := (revKey_injective (ref.isI64_modRevision before) (by constructor <;> omega) same).1
  omega

/-- **A `delete_range` that has room** returns the records of the map in the interval, in key
order, and the store follows the map. -/
theorem deleteRange (ref : Refines calls s) (accepts : KeyIndex.Accepts s.keyIndex.held start stop)
    (room : s.currentRevision + 1 < 2 ^ 63) :
    (MvccStore.deleteRange start stop).run s =
        (.ok (s.currentRevision + 1, (rangeOf (replay calls) start stop).kvs),
          s.afterDelete (deletedKeys s start stop)) ∧
      Refines (calls ++ [(s.currentRevision + 1, .deleteRange start stop)])
        (s.afterDelete (deletedKeys s start stop)) := by
  constructor
  · exact ref.toLatest.deleteRange_run room accepts
  · have next := ref.toLatest.deleteRange room start stop
    refine ⟨next.positive, room, fun call member => ?_, next.indexOk, fun r k kv found => ?_,
      by rw [replay_concat]; exact next.kv, ref.deleteRange_index start stop,
      fun k r kv found => ref.deleteRange_history room found⟩
    · rcases List.mem_append.mp member with member | member
      · exact (ref.allocated call member).trans (by simp only [afterDelete]; omega)
      · rw [List.mem_singleton.mp member]
        exact le_rfl
    · obtain ⟨r', earlier, before⟩ := ref.found_before_deleteRange found
      obtain ⟨ok, le⟩ := ref.records r' k kv before
      exact ⟨ok.mono (by simp only [afterDelete]; omega), le.trans earlier⟩

end DeleteRange

/-- A deletion of an inverted interval allocates its revision; there is nothing to delete in such an
interval. -/
theorem inverted (ref : Refines calls s) (room : s.currentRevision + 1 < 2 ^ 63) {start stop : Bytes}
    (inverted : ¬ KeyIndex.ValidRange start stop) :
    Refines (calls ++ [(s.currentRevision + 1, .deleteRange start stop)])
      { s with currentRevision := s.currentRevision + 1 } := by
  have positive := ref.positive
  have references : ∀ r, referenceAt (calls ++ [(s.currentRevision + 1, .deleteRange start stop)]) r =
      referenceAt calls r := by
    intro r
    rw [referenceAt_concat]
    split_ifs
    · exact applyCall_inverted inverted _ _
    · rfl
  have whole : replay (calls ++ [(s.currentRevision + 1, .deleteRange start stop)]) =
      replay calls := by
    rw [replay_concat]
    exact applyCall_inverted inverted _ _
  refine ⟨by simp only; omega, room, fun call member => ?_, ref.indexOk.mono (by simp),
    fun r key kv found => ?_, fun key => ?_, fun key r => ?_, fun key r kv found => ?_⟩
  · rcases List.mem_append.mp member with member | member
    · exact (ref.allocated call member).trans (by simp)
    · rw [List.mem_singleton.mp member]
  · rw [references] at found
    obtain ⟨ok, le⟩ := ref.records r key kv found
    exact ⟨ok.mono (by simp), le⟩
  · rw [whole]
    exact ref.kv key
  · rw [references]
    exact ref.index key r
  · rw [references] at found
    exact ref.history key r kv found

/-! ### Reads -/

/-- A read of the latest records finds what the map holds. -/
theorem fetch_current (ref : Refines calls s) {q : Int} (current : s.currentRevision ≤ q)
    {key : Bytes} {rev : Revision} (found : s.keyIndex.get key q = some rev) :
    s.fetch true q key rev = .ok (some (((referenceAt calls q).get? key).getD default)) := by
  rw [ref.index, ref.reference_current current] at found
  obtain ⟨kv, live, _⟩ := Option.map_eq_some_iff.mp found
  obtain ⟨stored, decoded⟩ := ref.toLatest.readable live
  have ok := ref.toLatest.records key kv live
  have visible : kv.createRevision ≤ q ∧ kv.modRevision ≤ q :=
    ⟨(ok.modified.trans ok.bounded).trans current, ok.bounded.trans current⟩
  rw [ref.reference_current current, live]
  simp only [fetch, if_true, stored, decoded, if_pos visible, Option.getD_some]

/-- A historical read finds, under the indexed revision, what the map of that revision holds. -/
theorem fetch_history (ref : Refines calls s) {q : Int} {key : Bytes} {rev : Revision}
    (found : s.keyIndex.get key q = some rev) :
    s.fetch false q key rev = .ok (some (((referenceAt calls q).get? key).getD default)) := by
  rw [ref.index] at found
  obtain ⟨kv, live, rfl⟩ := Option.map_eq_some_iff.mp found
  have stored := ref.history key q kv live
  have ok := (ref.records q key kv live).1
  have decoded := KeyValue.decodeWithKey_encodeWithKey (ok.encodable ref.fits)
  rw [live]
  simp only [fetch, Bool.false_eq_true, if_false, stored, decoded, Option.getD_some]

/-- The record that the map shows at `r` is the one of the revision that wrote it. -/
theorem record_at_modRevision (ref : Refines calls s) {r : Int} {key : Bytes} {kv : KeyValue}
    (found : (referenceAt calls r).get? key = some kv) :
    (referenceAt calls kv.modRevision).get? key = some kv := by
  obtain ⟨ok, visible⟩ := ref.records r key kv found
  have shows_ : s.keyIndex.get key r = some ⟨kv.modRevision, 0⟩ := by
    rw [ref.index, found]
    rfl
  have earlier := KeyIndex.get_between ref.indexOk visible shows_ le_rfl
  rw [ref.index] at earlier
  obtain ⟨other, live, same⟩ := Option.map_eq_some_iff.mp earlier
  have revision : other.modRevision = kv.modRevision := congrArg Revision.main same
  -- `kv_rev` holds one record under that revision
  have first := ref.history key r kv found
  have second := ref.history key _ other live
  rw [revision, first] at second
  have decoded := KeyValue.decodeWithKey_encodeWithKey (ok.encodable ref.fits)
  have decoded' := KeyValue.decodeWithKey_encodeWithKey
    ((ref.records _ key other live).1.encodable ref.fits)
  rw [← Option.some.inj second, decoded] at decoded'
  cases decoded'
  exact live

/-- **A read is the map at its revision**, whichever of the two trees it comes from. -/
theorem range_eq_reference (ref : Refines calls s) {start stop : Bytes}
    (accepts : KeyIndex.Accepts s.keyIndex.held start stop) (r : Int) :
    s.range start stop r 0 false =
      .ok (rangeOf (referenceAt calls (if r ≤ 0 then s.currentRevision else r)) start stop) := by
  have fetched : ∀ e ∈ s.keyIndex.keysIn start stop (if r ≤ 0 then s.currentRevision else r),
      s.fetch (r ≤ 0 || r ≥ s.currentRevision) (if r ≤ 0 then s.currentRevision else r) e.1 e.2 =
        .ok (some (((referenceAt calls (if r ≤ 0 then s.currentRevision else r)).get? e.1).getD
          default)) := by
    rintro ⟨key, rev⟩ member
    have found := (KeyIndex.mem_keysIn.mp member).2
    by_cases current : s.currentRevision ≤ if r ≤ 0 then s.currentRevision else r
    · have branch : (decide (r ≤ 0) || decide (r ≥ s.currentRevision)) = true := by
        split_ifs at current <;> simp <;> omega
      rw [branch]
      exact ref.fetch_current current found
    · have branch : (decide (r ≤ 0) || decide (r ≥ s.currentRevision)) = false := by
        split_ifs at current <;> simp <;> omega
      rw [branch]
      exact ref.fetch_history found
  have listed := map_keysIn (fun key => ref.index key (if r ≤ 0 then s.currentRevision else r)) start stop
  have counted := congrArg List.length listed
  simp only [rangeOf, List.length_map] at listed counted
  simp only [range, KeyIndex.range_eq accepts, rangeLoop_all
    (fun key => ((referenceAt calls (if r ≤ 0 then s.currentRevision else r)).get? key).getD default)
    fetched, Outcome.map, List.nil_append, gt_iff_lt, lt_self_iff_false, decide_false,
    Bool.false_and, rangeOf, listed, counted]

/-- **A page**: the first records of the map at a revision already allocated, up to the limit, and the count
of all. -/
theorem range_page (ref : Refines calls s) {start stop : Bytes}
    (accepts : KeyIndex.Accepts s.keyIndex.held start stop) {r : Int} (positive : 0 < r) (limit : Int) :
    s.range start stop r limit false = .ok
      { kvs := limited limit (rangeOf (referenceAt calls r) start stop).kvs
        more := limit > 0 && (rangeOf (referenceAt calls r) start stop).count >
          (limited limit (rangeOf (referenceAt calls r) start stop).kvs).length
        count := (rangeOf (referenceAt calls r) start stop).count } := by
  have whole : (if r ≤ 0 then s.currentRevision else r) = r := if_neg (by omega)
  have past : decide (r ≤ 0) = false := decide_eq_false (by omega)
  have fetched : ∀ e ∈ s.keyIndex.keysIn start stop r,
      s.fetch (decide (r ≤ 0) || decide (r ≥ s.currentRevision)) r e.1 e.2 =
        .ok (some (((referenceAt calls r).get? e.1).getD default)) := by
    rintro ⟨key, rev⟩ member
    have found := (KeyIndex.mem_keysIn.mp member).2
    rw [past, Bool.false_or]
    by_cases current : s.currentRevision ≤ r
    · rw [decide_eq_true current]
      exact ref.fetch_current current found
    · rw [decide_eq_false current]
      exact ref.fetch_history found
  have listed := map_keysIn (fun key => ref.index key r) start stop
  have counted : (s.keyIndex.keysIn start stop r).length =
      (rangeOf (referenceAt calls r) start stop).count := by
    have lengths := congrArg List.length listed
    simpa only [rangeOf, List.length_map] using lengths
  have loop : s.rangeLoop (decide (r ≤ 0) || decide (r ≥ s.currentRevision)) r limit false
      (s.keyIndex.keysIn start stop r) [] =
      .ok (limited limit ([] ++ (s.keyIndex.keysIn start stop r).map
        fun e => ((referenceAt calls r).get? e.1).getD default)) :=
    rangeLoop_limited (fun key => ((referenceAt calls r).get? key).getD default) fetched
      fun _ => Nat.zero_le _
  rw [List.nil_append, listed] at loop
  simp only [range, whole, KeyIndex.range_eq accepts, loop, Outcome.map, counted]

/-- **A read with a limit**, or one that only counts, at a revision already allocated. -/
theorem range_limited (ref : Refines calls s) {start stop : Bytes}
    (accepts : KeyIndex.Accepts s.keyIndex.held start stop) {r : Int} (positive : 0 < r) (limit : Int)
    (countOnly : Bool) :
    ∃ more count, s.range start stop r limit countOnly = .ok
      ⟨if countOnly then [] else limited limit (rangeOf (referenceAt calls r) start stop).kvs,
        more, count⟩ := by
  cases countOnly with
  | true =>
    have whole : (if r ≤ 0 then s.currentRevision else r) = r := if_neg (by omega)
    refine ⟨limit > 0 && (s.keyIndex.keysIn start stop r).length > ([] : List KeyValue).length,
      (s.keyIndex.keysIn start stop r).length, ?_⟩
    simp only [range, whole, KeyIndex.range_eq accepts, rangeLoop_countOnly, Outcome.map, if_true]
  | false => exact ⟨_, _, ref.range_page accepts positive limit⟩

/-- The answers list their keys in ascending order. -/
theorem rangeOf_ascending (ref : Refines calls s) (start stop : Bytes) (r : Int) :
    (rangeOf (referenceAt calls r) start stop).kvs.Pairwise fun a b => a.key < b.key := by
  refine List.pairwise_map.mpr (((referenceAt calls r).sorted.filter _).imp_of_mem ?_)
  rintro ⟨key, kv⟩ ⟨key', kv'⟩ member member' less
  have first := (ref.records r key kv (OrdMap.mem_entries_iff.mp (List.mem_filter.mp member).1)).1
  have second := (ref.records r key' kv' (OrdMap.mem_entries_iff.mp (List.mem_filter.mp member').1)).1
  simp only [first.key, second.key]
  exact less

/-! ### Runs -/

/-- **A call that has room returns** with the next revision, and the store follows the map. -/
theorem run_room (ref : Refines calls s) {op : StoreOp} (admissible : op.Admissible)
    (room : s.currentRevision + 1 < 2 ^ 63) :
    ∃ s', op.run.run s = (.ok (s.currentRevision + 1), s') ∧
      s'.currentRevision = s.currentRevision + 1 ∧
      Refines (calls ++ [(s.currentRevision + 1, op)]) s' := by
  cases op with
  | put key value lease =>
    obtain ⟨returned, next⟩ := ref.put admissible room
    exact ⟨_, by rw [StoreOp.run, Exec.run_bind_ok returned]; rfl, rfl, next⟩
  | deleteRange start stop =>
    obtain ⟨returned, next⟩ := ref.deleteRange (.of_valid admissible) room
    exact ⟨_, by rw [StoreOp.run, Exec.run_bind_ok returned]; rfl, rfl, next⟩

/-- A call that returned had room. -/
theorem room_of_run {op : StoreOp} {revision : Int}
    (returned : op.run.run s = (.ok revision, s')) : s.currentRevision + 1 < 2 ^ 63 := by
  by_contra full
  cases op with
  | put key value lease =>
    rw [StoreOp.run, Exec.run_bind_panic (MvccStore.put_panic full _ _ _)] at returned
    cases returned
  | deleteRange start stop =>
    rw [StoreOp.run, Exec.run_bind_panic (MvccStore.deleteRange_panic full _ _)] at returned
    cases returned

theorem run (ref : Refines calls s) {op : StoreOp} (admissible : op.Admissible) {revision : Int}
    (returned : op.run.run s = (.ok revision, s')) :
    revision = s.currentRevision + 1 ∧ s'.currentRevision = s.currentRevision + 1 ∧
      Refines (calls ++ [(s.currentRevision + 1, op)]) s' := by
  obtain ⟨next, returns, counter, refines⟩ := ref.run_room admissible (room_of_run returned)
  rw [returned] at returns
  cases returns
  exact ⟨rfl, counter, refines⟩

/-- Calls return while the counter has room. -/
theorem runOps_room (ref : Refines calls s) {ops : List StoreOp}
    (admissible : ∀ op ∈ ops, op.Admissible) (room : s.currentRevision + ops.length < 2 ^ 63) :
    ∃ later s', (runOps ops).run s = (.ok later, s') := by
  induction ops generalizing calls s with
  | nil => exact ⟨[], s, rfl⟩
  | cons op rest ih =>
    rw [List.length_cons] at room
    push_cast at room
    obtain ⟨s₁, returned, counter, next⟩ :=
      ref.run_room (admissible op List.mem_cons_self) (by omega)
    obtain ⟨later, s', rest_returns⟩ :=
      ih next (fun op member => admissible op (List.mem_cons_of_mem _ member)) (by omega)
    exact ⟨_, s', by rw [runOps, Exec.run_bind_ok returned, Exec.run_bind_ok rest_returns]; rfl⟩

/-- **A whole run**: the calls it reports are the calls made, their revisions are consecutive, and
the store represents them. -/
theorem runOps (ref : Refines calls s) {ops : List StoreOp}
    (admissible : ∀ op ∈ ops, op.Admissible) {later : List (Int × StoreOp)}
    (returned : (runOps ops).run s = (.ok later, s')) :
    later.map Prod.snd = ops ∧ s'.currentRevision = s.currentRevision + ops.length ∧
      (∀ call ∈ later, s.currentRevision < call.1) ∧ Refines (calls ++ later) s' := by
  induction ops generalizing calls s later with
  | nil =>
    cases returned
    exact ⟨rfl, by simp, by simp, by simpa using ref⟩
  | cons op rest ih =>
    rw [Rusd.runOps] at returned
    obtain ⟨revision, s₁, first, returned⟩ := Exec.run_bind_eq_ok returned
    obtain ⟨more, s₂, tail, returned⟩ := Exec.run_bind_eq_ok returned
    obtain ⟨rfl, counter, next⟩ := ref.run (admissible op List.mem_cons_self) first
    cases returned
    obtain ⟨same, total, above, refines⟩ :=
      ih next (fun op member => admissible op (List.mem_cons_of_mem _ member)) tail
    refine ⟨by rw [List.map_cons, same], by rw [total, counter, List.length_cons]; push_cast; ring,
      ?_, by simpa using refines⟩
    intro call member
    rcases List.mem_cons.mp member with rfl | member
    · simp
    · have := above call member
      omega

end Refines

/-- **Time-travel refinement.** Every sequence of admissible calls on a fresh store returns (as
long as the counter has room), and then every read is the reference map at its revision: at a past
revision `r` the map of the calls up to `r`, at the current one (or 0, or the future) the map of all
of them. Later calls do not change a read at a fixed revision. -/
theorem time_travel_refinement (ops : List StoreOp) (admissible : ∀ op ∈ ops, op.Admissible) :
    (ops.length + 1 < 2 ^ 63 →
      ∃ calls s, (runOps ops).run (MvccStore.new .empty) = (.ok calls, s)) ∧
    ∀ calls s, (runOps ops).run (MvccStore.new .empty) = (.ok calls, s) →
      calls.map Prod.snd = ops ∧ s.currentRevision = ops.length + 1 ∧
      ∀ start stop, KeyIndex.ValidRange start stop →
        (∀ r, 0 < r → r ≤ s.currentRevision →
          s.range start stop r 0 false = .ok (rangeOf (referenceAt calls r) start stop) ∧
          (rangeOf (referenceAt calls r) start stop).kvs.Pairwise fun a b => a.key < b.key) ∧
        (∀ r, r ≤ 0 ∨ s.currentRevision < r →
          s.range start stop r 0 false = .ok (rangeOf (replay calls) start stop)) ∧
        ∀ more later s', (∀ op ∈ more, op.Admissible) →
          (runOps more).run s = (.ok later, s') →
          ∀ r, 0 < r → r ≤ s.currentRevision →
            s'.range start stop r 0 false = s.range start stop r 0 false := by
  refine ⟨fun room => Refines.fresh.runOps_room admissible ?_, fun calls s returned => ?_⟩
  · show (1 : Int) + ops.length < 2 ^ 63
    omega
  obtain ⟨same, counter, _, ref⟩ := Refines.fresh.runOps admissible returned
  rw [List.nil_append] at ref
  refine ⟨same, by rw [counter]; simp [MvccStore.new, add_comm], fun start stop valid => ⟨?_, ?_, ?_⟩⟩
  · intro r positive _
    rw [ref.range_eq_reference (.of_valid valid), if_neg (by omega)]
    exact ⟨rfl, ref.rangeOf_ascending start stop r⟩
  · intro r outside
    rw [ref.range_eq_reference (.of_valid valid), ref.reference_current]
    split_ifs <;> omega
  · intro more later s' admissible' returned' r positive bounded
    obtain ⟨_, _, above, ref'⟩ := ref.runOps admissible' returned'
    rw [ref'.range_eq_reference (.of_valid valid), ref.range_eq_reference (.of_valid valid), if_neg (by omega),
      if_neg (by omega), referenceAt_append]
    exact fun call member => bounded.trans_lt (above call member)

/-- A key written at revision 2 and deleted at revision 3 is still read at revision 2. -/
theorem time_travel_write_delete :
    (∀ op ∈ [StoreOp.put [97] [49] 7, .deleteRange [97] []], op.Admissible) ∧
      ∃ calls s, (runOps [.put [97] [49] 7, .deleteRange [97] []]).run (MvccStore.new .empty) =
          (.ok calls, s) ∧
        s.range [97] [] 2 0 false = .ok (rangeOf (referenceAt calls 2) [97] []) ∧
        s.range [97] [] 0 0 false = .ok (rangeOf (replay calls) [97] []) := by
  have admissible : ∀ op ∈ [StoreOp.put [97] [49] 7, .deleteRange [97] []], op.Admissible := by
    intro op member
    rcases List.mem_cons.mp member with rfl | member
    · exact ⟨by decide, by decide, by decide, by decide⟩
    · rw [List.mem_singleton.mp member]
      exact Or.inl rfl
  obtain ⟨returns, reads⟩ := time_travel_refinement _ admissible
  obtain ⟨calls, s, returned⟩ := returns (by decide)
  obtain ⟨_, counter, reads⟩ := reads calls s returned
  obtain ⟨past, latest, _⟩ := reads [97] [] (Or.inl rfl)
  exact ⟨admissible, calls, s, returned, (past 2 (by decide) (by rw [counter]; decide)).1,
    latest 0 (Or.inl le_rfl)⟩

end Rusd
