/-
**What a read shows, at whatever revision** (`storage/mvcc.rs`, `range`).

* `MvccStore.finds` — the revision of a key that a read at `r` can show: what the index lists at `r`, for
  a read of the past only if `kv_rev` still has the record. `MvccStore.view` — the record it shows.
* `Chronicle hist` — a store in use, with every record that was ever written: `hist` holds it under its
  revision and key, and whatever the index lists is one of these. Every call keeps it, and only adds to
  `hist`.
* `Chronicle.range` — a read lists the records that it shows, in key order, up to its limit.
* `Chronicle.view_eq_iff` — two reads, of two stores of one history, show the same record of a key exactly
  if they find the same revision.
-/

import Rusd.Storage.InUse

namespace Rusd

open MvccStore

/-! ### What a read shows -/

namespace MvccStore

/-- The revision that a read is for: 0 or less is the current one. -/
def readRevision (s : MvccStore) (r : Int) : Int := if r ≤ 0 then s.currentRevision else r

/-- The read takes the latest records. -/
def isCurrent (s : MvccStore) (r : Int) : Bool := r ≤ 0 || r ≥ s.currentRevision

/-- The revision of the key that a read at `r` can show. -/
def finds (s : MvccStore) (r : Int) (key : Bytes) : Option Revision :=
  (s.keyIndex.get key (s.readRevision r)).filter fun rev =>
    s.isCurrent r || (s.backend.get .kvRev (revKey rev.main key)).isSome

/-- The record of the key that a read at `r` shows. -/
def view (s : MvccStore) (r : Int) (key : Bytes) : Option KeyValue :=
  (s.keyIndex.get key (s.readRevision r)).bind fun rev =>
    (s.fetch (s.isCurrent r) (s.readRevision r) key rev).returned.join

/-- The records of an interval that a read at `r` shows. -/
def listing (s : MvccStore) (start stop : Bytes) (r : Int) : List KeyValue :=
  (s.keyIndex.keysIn start stop (s.readRevision r)).filterMap fun e => s.view r e.1

theorem view_of_get {s : MvccStore} {r : Int} {key : Bytes} {rev : Revision}
    (found : s.keyIndex.get key (s.readRevision r) = some rev) :
    s.view r key = (s.fetch (s.isCurrent r) (s.readRevision r) key rev).returned.join := by
  rw [view, found, Option.bind_some]

theorem mem_listing {s : MvccStore} {start stop : Bytes} {r : Int} {kv : KeyValue} :
    kv ∈ s.listing start stop r ↔ ∃ key, Bytes.InRange start stop key ∧ s.view r key = some kv := by
  simp only [listing, List.mem_filterMap, Prod.exists, KeyIndex.mem_keysIn]
  constructor
  · rintro ⟨key, rev, ⟨inside, -⟩, shown⟩
    exact ⟨key, inside, shown⟩
  · rintro ⟨key, inside, shown⟩
    obtain ⟨rev, found, -⟩ := Option.bind_eq_some_iff.mp shown
    exact ⟨key, rev, ⟨inside, found⟩, shown⟩

/-- **A loop over records that can all be read** lists the first of them, up to the limit. -/
theorem rangeLoop_view {s : MvccStore} {isCurrent : Bool} {queryRevision limit : Int}
    {keys : List (Bytes × Revision)} (record : Bytes → Option KeyValue)
    (fetched : ∀ e ∈ keys, s.fetch isCurrent queryRevision e.1 e.2 = .ok (record e.1))
    {kvs : List KeyValue} (below : limit > 0 → kvs.length ≤ limit.toNat) :
    s.rangeLoop isCurrent queryRevision limit false keys kvs =
      .ok (limited limit (kvs ++ keys.filterMap fun e => record e.1)) := by
  induction keys generalizing kvs with
  | nil =>
    rw [rangeLoop, List.filterMap_nil, List.append_nil, limited]
    split_ifs with bounded
    · rw [List.take_of_length_le (below bounded)]
    · rfl
  | cons e rest ih =>
    obtain ⟨key, rev⟩ := e
    have first := fetched (key, rev) List.mem_cons_self
    have tail : ∀ {kvs : List KeyValue}, (limit > 0 → kvs.length ≤ limit.toNat) →
        s.rangeLoop isCurrent queryRevision limit false rest kvs =
          .ok (limited limit (kvs ++ rest.filterMap fun e => record e.1)) :=
      fun below => ih (fun e member => fetched e (List.mem_cons_of_mem _ member)) below
    simp only at first
    unfold rangeLoop
    by_cases reached : limit > 0 ∧ limit.toNat ≤ kvs.length
    · have exactly : kvs.length = limit.toNat := le_antisymm (below reached.1) reached.2
      rw [if_pos reached, limited, if_pos reached.1, ← exactly, List.take_left]
    · rw [if_neg reached, if_neg Bool.false_ne_true, first, List.filterMap_cons]
      cases shown : record key with
      | none => exact tail below
      | some kv =>
        have room : limit > 0 → (kvs ++ [kv]).length ≤ limit.toNat := by
          intro bounded
          have open_ := not_and.mp reached bounded
          rw [List.length_append, List.length_singleton]
          omega
        simp only
        rw [tail room, List.append_assoc, List.singleton_append]

end MvccStore

/-- What a compacted index finds was found before. -/
theorem KeyIndex.get_of_get_compact {bound : Int} {index : KeyIndex} (ok : IndexOk bound index) {c r : Int}
    {key : Bytes} {rev : Revision} (found : (index.compact c).get key r = some rev) :
    index.get key r = some rev := by
  by_cases le : c ≤ r
  · rw [KeyIndex.get_compact ok le] at found
    exact (Option.filter_eq_some_iff.mp found).1
  · -- nothing below the compaction point is left in the index
    have kept : KeyIndex.AllRevisions (fun rev => c ≤ rev.main) (index.compact c) := by
      intro key entry there
      simp only [KeyIndex.compact, OrdMap.get?_mapValues] at there
      obtain ⟨old, -, rfl⟩ := Option.map_eq_some_iff.mp there
      intro gen member rev inside
      obtain ⟨whole, -, rfl⟩ := List.mem_map.mp member
      rw [compactGeneration_revisions] at inside
      simpa using (List.mem_filter.mp inside).2
    have low := kept.of_get found
    have high := KeyIndex.main_le_of_lookup found
    omega

/-! ### The chronicle -/

/-- **A store in use with every record that was written**, by revision and key. -/
structure Chronicle (hist : Int → Bytes → Option KeyValue) (stored live : RefMap) (s : MvccStore) :
    Prop where
  stocked : Stocked stored live s
  known : ∀ key kv, stored.get? key = some kv → hist kv.modRevision key = some kv
  recorded : ∀ key r rev, s.keyIndex.get key r = some rev →
    ∃ kv, hist rev.main key = some kv ∧ rev = ⟨kv.modRevision, 0⟩
  genuine : ∀ m key kv, hist m key = some kv →
    kv.key = key ∧ kv.modRevision = m ∧ kv.Encodable ∧ m ≤ s.currentRevision
  archive : ∀ m key kv data, hist m key = some kv →
    s.backend.get .kvRev (revKey m key) = some data → data = kv.encodeWithKey

/-- One history is part of another. -/
def Extends (hist later : Int → Bytes → Option KeyValue) : Prop :=
  ∀ m key kv, hist m key = some kv → later m key = some kv

theorem Extends.refl (hist : Int → Bytes → Option KeyValue) : Extends hist hist :=
  fun _ _ _ found => found

theorem Extends.trans {first second third : Int → Bytes → Option KeyValue}
    (one : Extends first second) (two : Extends second third) : Extends first third :=
  fun m key kv found => two m key kv (one m key kv found)

namespace Chronicle

variable {hist : Int → Bytes → Option KeyValue} {stored live : RefMap} {s : MvccStore}

/-! #### Reads -/

/-- A read of the latest records finds the live one. -/
theorem fetch_current (chronicle : Chronicle hist stored live s) {r : Int} (current : s.isCurrent r = true)
    {key : Bytes} {rev : Revision} (found : s.keyIndex.get key (s.readRevision r) = some rev) :
    ∃ kv, live.get? key = some kv ∧ rev = ⟨kv.modRevision, 0⟩ ∧
      s.fetch true (s.readRevision r) key rev = .ok (some kv) := by
  have listed := chronicle.stocked.listed
  have above : s.currentRevision ≤ s.readRevision r := by
    simp only [isCurrent, Bool.or_eq_true, decide_eq_true_eq] at current
    unfold readRevision
    split_ifs <;> omega
  rw [listed.index_above above] at found
  obtain ⟨kv, lives, rfl⟩ := Option.map_eq_some_iff.mp found
  have there := listed.within key kv lives
  obtain ⟨held, decoded⟩ := listed.readable there
  have ok := listed.records key kv there
  have visible : kv.createRevision ≤ s.readRevision r ∧ kv.modRevision ≤ s.readRevision r :=
    ⟨(ok.modified.trans ok.bounded).trans above, ok.bounded.trans above⟩
  exact ⟨kv, lives, rfl, by simp only [fetch, if_true, held, decoded, if_pos visible]⟩

/-- A read of the past finds the record of the revision, if `kv_rev` still has it. -/
theorem fetch_past (chronicle : Chronicle hist stored live s) {r q : Int} {key : Bytes} {rev : Revision}
    (found : s.keyIndex.get key r = some rev) :
    ∃ kv, hist rev.main key = some kv ∧ s.fetch false q key rev =
      .ok (if (s.backend.get .kvRev (revKey rev.main key)).isSome then some kv else none) := by
  obtain ⟨kv, written, -⟩ := chronicle.recorded key r rev found
  refine ⟨kv, written, ?_⟩
  cases held : s.backend.get .kvRev (revKey rev.main key) with
  | none => simp only [fetch, Bool.false_eq_true, if_false, held, Option.isSome_none]
  | some data =>
    rw [chronicle.archive _ key kv data written held] at held
    have decoded := KeyValue.decodeWithKey_encodeWithKey (chronicle.genuine _ key kv written).2.2.1
    simp only [fetch, Bool.false_eq_true, if_false, held, decoded, Option.isSome_some, if_true]

/-- Every record that the index lists can be read. -/
theorem fetch_view (chronicle : Chronicle hist stored live s) {r : Int} {key : Bytes} {rev : Revision}
    (found : s.keyIndex.get key (s.readRevision r) = some rev) :
    s.fetch (s.isCurrent r) (s.readRevision r) key rev = .ok (s.view r key) := by
  rw [view_of_get found]
  cases current : s.isCurrent r with
  | true =>
    obtain ⟨kv, -, -, fetched⟩ := chronicle.fetch_current current found
    rw [fetched]
    rfl
  | false =>
    obtain ⟨kv, -, fetched⟩ := chronicle.fetch_past (q := s.readRevision r) found
    rw [fetched]
    rfl

/-- **A read** lists the records it shows, up to its limit, and counts all that the index lists. -/
theorem range (chronicle : Chronicle hist stored live s) {start stop : Bytes}
    (accepts : KeyIndex.Accepts s.keyIndex.held start stop) (r limit : Int) :
    s.range start stop r limit false = .ok
      { kvs := limited limit (s.listing start stop r)
        more := limit > 0 && (s.keyIndex.keysIn start stop (s.readRevision r)).length >
          (limited limit (s.listing start stop r)).length
        count := (s.keyIndex.keysIn start stop (s.readRevision r)).length } := by
  have fetched : ∀ e ∈ s.keyIndex.keysIn start stop (s.readRevision r),
      s.fetch (s.isCurrent r) (s.readRevision r) e.1 e.2 = .ok (s.view r e.1) :=
    fun e member => chronicle.fetch_view (KeyIndex.mem_keysIn.mp member).2
  have loop : s.rangeLoop (s.isCurrent r) (s.readRevision r) limit false
      (s.keyIndex.keysIn start stop (s.readRevision r)) [] =
        .ok (limited limit ([] ++ s.listing start stop r)) :=
    rangeLoop_view (s.view r) fetched fun _ => Nat.zero_le _
  have unfolded : s.range start stop r limit false =
      (s.rangeLoop (s.isCurrent r) (s.readRevision r) limit false
        (s.keyIndex.keysIn start stop (s.readRevision r)) []).map fun kvs =>
          { kvs := kvs, more := limit > 0 && (s.keyIndex.keysIn start stop (s.readRevision r)).length >
              kvs.length, count := (s.keyIndex.keysIn start stop (s.readRevision r)).length } := by
    simp only [MvccStore.range, readRevision, isCurrent, KeyIndex.range_eq accepts]
    rfl
  rw [unfolded, loop, List.nil_append]
  rfl

/-- **What a read shows is the record of the revision it finds.** -/
theorem view_eq (chronicle : Chronicle hist stored live s) (r : Int) (key : Bytes) :
    s.view r key = (s.finds r key).bind fun rev => hist rev.main key := by
  unfold finds
  cases found : s.keyIndex.get key (s.readRevision r) with
  | none => rw [MvccStore.view, found]; rfl
  | some rev =>
    rw [view_of_get found]
    cases current : s.isCurrent r with
    | true =>
      obtain ⟨kv, lives, rfl, fetched⟩ := chronicle.fetch_current current found
      have written := chronicle.known key kv (chronicle.stocked.listed.within key kv lives)
      rw [fetched]
      simp [Outcome.returned, Option.filter_some, written]
    | false =>
      obtain ⟨kv, written, fetched⟩ := chronicle.fetch_past (q := s.readRevision r) found
      rw [fetched]
      cases held : (s.backend.get .kvRev (revKey rev.main key)).isSome <;>
        simp [Outcome.returned, Option.filter_some, held, written]

/-- What a read finds was written. -/
theorem finds_recorded (chronicle : Chronicle hist stored live s) {r : Int} {key : Bytes} {rev : Revision}
    (found : s.finds r key = some rev) :
    ∃ kv, hist rev.main key = some kv ∧ rev = ⟨kv.modRevision, 0⟩ :=
  chronicle.recorded key _ rev (Option.filter_eq_some_iff.mp found).1

/-- The record that a read shows under a key carries the key. -/
theorem view_key (chronicle : Chronicle hist stored live s) {r : Int} {key : Bytes} {kv : KeyValue}
    (shown : s.view r key = some kv) : kv.key = key := by
  rw [chronicle.view_eq] at shown
  obtain ⟨rev, -, written⟩ := Option.bind_eq_some_iff.mp shown
  exact (chronicle.genuine _ key kv written).1

/-- **The records of a read are in key order.** -/
theorem listing_ascending (chronicle : Chronicle hist stored live s) (start stop : Bytes) (r : Int) :
    (s.listing start stop r).Pairwise fun a b => a.key < b.key := by
  unfold listing
  refine List.Pairwise.filterMap _ ?_ (s.keyIndex.keysIn_ascending start stop (s.readRevision r))
  rintro ⟨key, rev⟩ ⟨key', rev'⟩ less first shown second shown'
  rw [chronicle.view_key shown, chronicle.view_key shown']
  exact less

theorem mem_listing_iff (chronicle : Chronicle hist stored live s) {start stop : Bytes} {r : Int}
    {kv : KeyValue} :
    kv ∈ s.listing start stop r ↔ Bytes.InRange start stop kv.key ∧ s.view r kv.key = some kv := by
  rw [mem_listing]
  constructor
  · rintro ⟨key, inside, shown⟩
    obtain rfl := chronicle.view_key shown
    exact ⟨inside, shown⟩
  · rintro ⟨inside, shown⟩
    exact ⟨kv.key, inside, shown⟩

/-- **Two reads of one history show the same record of a key** exactly if they find the same revision. -/
theorem view_eq_iff {hist' : Int → Bytes → Option KeyValue} {stored' live' : RefMap} {t : MvccStore}
    (chronicle : Chronicle hist stored live s) (other : Chronicle hist' stored' live' t)
    {whole : Int → Bytes → Option KeyValue} (part : Extends hist whole) (part' : Extends hist' whole)
    (r q : Int) (key : Bytes) : s.view r key = t.view q key ↔ s.finds r key = t.finds q key := by
  rw [chronicle.view_eq, other.view_eq]
  cases first : s.finds r key with
  | none =>
    cases second : t.finds q key with
    | none => exact iff_of_true rfl rfl
    | some rev =>
      obtain ⟨kv, written, -⟩ := other.finds_recorded second
      simp [written]
  | some rev =>
    obtain ⟨kv, written, dated⟩ := chronicle.finds_recorded first
    cases second : t.finds q key with
    | none => simp [written]
    | some rev' =>
      obtain ⟨kv', written', dated'⟩ := other.finds_recorded second
      simp only [Option.bind_some, written, written', Option.some.injEq]
      constructor
      · rintro rfl
        rw [dated, dated']
      · rintro rfl
        have same := part _ key kv written
        rw [part' _ key kv' written'] at same
        exact (Option.some.inj same).symm

/-- Two reads list the same records exactly if they show the same ones in the interval. -/
theorem listing_eq_iff {hist' : Int → Bytes → Option KeyValue} {stored' live' : RefMap} {t : MvccStore}
    (chronicle : Chronicle hist stored live s) (other : Chronicle hist' stored' live' t)
    (start stop : Bytes) (r q : Int) :
    s.listing start stop r = t.listing start stop q ↔
      ∀ key, Bytes.InRange start stop key → s.view r key = t.view q key := by
  constructor
  · intro same key inside
    have members : ∀ kv, s.view r key = some kv ↔ t.view q key = some kv := by
      intro kv
      constructor
      · intro shown
        obtain rfl := chronicle.view_key shown
        have member := chronicle.mem_listing_iff.mpr ⟨inside, shown⟩
        rw [same] at member
        exact (other.mem_listing_iff.mp member).2
      · intro shown
        obtain rfl := other.view_key shown
        have member := other.mem_listing_iff.mpr ⟨inside, shown⟩
        rw [← same] at member
        exact (chronicle.mem_listing_iff.mp member).2
    exact Option.ext members
  · intro same
    refine OrdMap.eq_of_mem_iff KeyValue.key (chronicle.listing_ascending start stop r)
      (other.listing_ascending start stop q) fun kv => ?_
    rw [chronicle.mem_listing_iff, other.mem_listing_iff]
    exact and_congr_right fun inside => by rw [same kv.key inside]

/-! #### Calls -/

variable {key value : Bytes} {lease : Int}

theorem isI64 (chronicle : Chronicle hist stored live s) {m : Int} {key : Bytes} {kv : KeyValue}
    (written : hist m key = some kv) : IsI64 m := by
  obtain ⟨-, rfl, encodable, -⟩ := chronicle.genuine m key kv written
  exact encodable.modRevision

/-- A record of the history is not under the next revision. -/
theorem revKey_ne (chronicle : Chronicle hist stored live s) (room : s.currentRevision + 1 < 2 ^ 63)
    {m : Int} {key : Bytes} {kv : KeyValue} (written : hist m key = some kv) (other : Bytes) :
    revKey m key ≠ revKey (s.currentRevision + 1) other := by
  have positive := chronicle.stocked.listed.positive
  have bounded := (chronicle.genuine m key kv written).2.2.2
  intro same
  have equal := (revKey_injective (chronicle.isI64 written) (by constructor <;> omega) same).1
  omega

/-- The history after a record was written under a key. -/
def written (hist : Int → Bytes → Option KeyValue) (revision : Int) (kv : KeyValue) :
    Int → Bytes → Option KeyValue :=
  fun m key => if m = revision ∧ key = kv.key then some kv else hist m key

theorem extends_written (chronicle : Chronicle hist stored live s) (kv : KeyValue) :
    Extends hist (written hist (s.currentRevision + 1) kv) := by
  intro m key old found
  have bounded := (chronicle.genuine m key old found).2.2.2
  rw [written, if_neg (by omega)]
  exact found

/-- **A `put`** adds its record. -/
theorem put (chronicle : Chronicle hist stored live s)
    (short : StoreHistory.Short (.put key value lease)) (room : s.currentRevision + 1 < 2 ^ 63) :
    Chronicle (written hist (s.currentRevision + 1)
        (refRecord stored (s.currentRevision + 1) key value lease))
      (applyCall stored (s.currentRevision + 1, .put key value lease))
      (live.insert key (refRecord stored (s.currentRevision + 1) key value lease))
      (s.afterPut (refRecord stored (s.currentRevision + 1) key value lease)) where
  stocked := chronicle.stocked.put short room
  known k kv found := by
    rw [applyCall, OrdMap.get?_insert] at found
    split_ifs at found with same
    · rw [← Option.some.inj found, refRecord_modRevision, written, refRecord_key, if_pos ⟨rfl, same⟩]
    · exact chronicle.extends_written _ _ k kv (chronicle.known k kv found)
  recorded k r rev found := by
    rw [afterPut, KeyIndex.get_put chronicle.stocked.listed.indexOk _ (by simp), refRecord_key] at found
    split_ifs at found with own
    · obtain rfl := Option.some.inj found
      exact ⟨_, if_pos ⟨rfl, by rw [refRecord_key, own.1]⟩, by rw [refRecord_modRevision]⟩
    · obtain ⟨kv, before, dated⟩ := chronicle.recorded k r rev found
      exact ⟨kv, chronicle.extends_written _ _ k kv before, dated⟩
  genuine m k kv found := by
    rw [written] at found
    split_ifs at found with own
    · obtain rfl := Option.some.inj found
      have after := chronicle.stocked.put short room
      have there : (applyCall stored (s.currentRevision + 1, .put key value lease)).get? key =
          some (refRecord stored (s.currentRevision + 1) key value lease) := by
        rw [applyCall, OrdMap.get?_insert, if_pos rfl]
      have ok := after.listed.records key _ there
      refine ⟨own.2.symm, own.1.symm ▸ refRecord_modRevision _ _ _ _ _, ok.encodable room, ?_⟩
      rw [own.1]
      exact le_rfl
    · obtain ⟨named, dated, encodable, bounded⟩ := chronicle.genuine m k kv found
      exact ⟨named, dated, encodable, bounded.trans (by simp only [afterPut]; omega)⟩
  archive m k kv data found held := by
    rw [written] at found
    split_ifs at found with own
    · obtain rfl := Option.some.inj found
      rw [own.1, own.2, afterPut, Backend.get_put, if_pos ⟨rfl, rfl⟩] at held
      exact (Option.some.inj held).symm
    · have apart := chronicle.revKey_ne room found
        (refRecord stored (s.currentRevision + 1) key value lease).key
      rw [afterPut, Backend.get_put, if_neg (fun both => apart both.2), Backend.get_put,
        if_neg (by simp)] at held
      exact chronicle.archive m k kv data found held

/-- **A `delete_range`** adds no record. -/
theorem deleteRange (chronicle : Chronicle hist stored live s) (room : s.currentRevision + 1 < 2 ^ 63)
    (start stop : Bytes) :
    Chronicle hist (storedAfter stored live start stop)
      (applyCall live (s.currentRevision + 1, .deleteRange start stop))
      (s.afterDelete (deletedKeys s start stop)) where
  stocked := chronicle.stocked.deleteRange room start stop
  known k kv found := chronicle.known k kv (chronicle.stocked.listed.stored_of_outside found)
  recorded k r rev found := by
    rw [afterDelete, KeyIndex.get_tombstones chronicle.stocked.listed.indexOk _ (by simp)] at found
    split_ifs at found
    exact chronicle.recorded k r rev found
  genuine m k kv found := by
    obtain ⟨named, dated, encodable, bounded⟩ := chronicle.genuine m k kv found
    exact ⟨named, dated, encodable, bounded.trans (by simp only [afterDelete]; omega)⟩
  archive m k kv data found held := by
    rw [afterDelete, get_kvRev_foldl_removeKey _ (chronicle.revKey_ne room found)] at held
    exact chronicle.archive m k kv data found held

/-- The panic of a deletion of an inverted interval. -/
theorem skip (chronicle : Chronicle hist stored live s) (room : s.currentRevision + 1 < 2 ^ 63) :
    Chronicle hist stored live { s with currentRevision := s.currentRevision + 1 } where
  stocked := chronicle.stocked.skip room
  known := chronicle.known
  recorded := chronicle.recorded
  genuine m k kv found := by
    obtain ⟨named, dated, encodable, bounded⟩ := chronicle.genuine m k kv found
    exact ⟨named, dated, encodable, bounded.trans (by simp)⟩
  archive := chronicle.archive

/-- **A compaction** only forgets. -/
theorem compacted (chronicle : Chronicle hist stored live s) {c : Int} (fits : IsI64 c)
    (le : c ≤ s.currentRevision) :
    Chronicle hist stored (listedFrom live c) (s.afterCompact c) where
  stocked := chronicle.stocked.compacted fits le
  known := chronicle.known
  recorded k r rev found := chronicle.recorded k r rev
    (KeyIndex.get_of_get_compact chronicle.stocked.listed.indexOk found)
  genuine := chronicle.genuine
  archive m k kv data found held := chronicle.archive m k kv data found (Backend.get_of_get_compact held)

/-- **A restore** lists some of the records of the donor. -/
theorem restored (chronicle : Chronicle hist stored live s) {data : Bytes}
    (taken : s.createSnapshot = .ok data) (target : MvccStore) :
    Chronicle hist stored stored ((restoreSnapshot data).run target).2 := by
  have stocked := chronicle.stocked.restored taken target
  rw [chronicle.stocked.listed.restoreSnapshot_run chronicle.stocked.compact chronicle.stocked.fields taken
    target] at stocked ⊢
  refine ⟨stocked, chronicle.known, fun k r rev found => ?_, chronicle.genuine, chronicle.archive⟩
  rw [chronicle.stocked.listed.get_restored] at found
  obtain ⟨kv, there, rfl⟩ := Option.map_eq_some_iff.mp found
  exact ⟨kv, chronicle.known k kv (Option.filter_eq_some_iff.mp there).1, rfl⟩

theorem fresh : Chronicle (fun _ _ => none) .empty .empty (MvccStore.new .empty) where
  stocked := Stocked.fresh
  known _ _ found := by simp at found
  recorded _ _ _ found := by simp [MvccStore.new, KeyIndex.get, KeyIndex.new] at found
  genuine _ _ _ found := by cases found
  archive _ _ _ _ found := by cases found

end Chronicle

/-- **Every store in use has a chronicle.** -/
theorem InUse.chronicle {s : MvccStore} (inUse : InUse s) :
    ∃ hist stored live, Chronicle hist stored live s := by
  induction inUse with
  | fresh => exact ⟨_, _, _, Chronicle.fresh⟩
  | put _ room short ih =>
    obtain ⟨hist, stored, live, chronicle⟩ := ih
    rw [chronicle.stocked.listed.put_run room]
    exact ⟨_, _, _, chronicle.put short room⟩
  | deleteRange _ room start stop ih =>
    obtain ⟨hist, stored, live, chronicle⟩ := ih
    by_cases valid : KeyIndex.ValidRange start stop
    · rw [chronicle.stocked.listed.deleteRange_run room (.of_valid valid)]
      exact ⟨_, _, _, chronicle.deleteRange room start stop⟩
    · rw [MvccStore.deleteRange_inverted room valid]
      exact ⟨_, _, _, chronicle.skip room⟩
  | @compact s _ revision fits ih =>
    obtain ⟨hist, stored, live, chronicle⟩ := ih
    by_cases le : revision ≤ s.currentRevision
    · rw [MvccStore.compact_apply le]
      exact ⟨_, _, _, chronicle.compacted fits le⟩
    · rw [MvccStore.compact_future (not_le.mp le)]
      exact ⟨_, _, _, chronicle⟩
  | restored _ taken target ih =>
    obtain ⟨hist, stored, live, chronicle⟩ := ih
    exact ⟨_, _, _, chronicle.restored taken target⟩

end Rusd
