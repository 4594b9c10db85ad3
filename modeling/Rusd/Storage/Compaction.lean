/-
**What compaction does to reads.**

`compact c` drops from the index every revision below `c`, also the one that is still visible at
`c`. So a key whose last write lies below the compaction point leaves the index, and with it every
later read, although its record stays in the `kv` tree.

* `keysIn_compact` — a scan after compaction is the scan before it without the revisions below `c`.
* `compact_keeps_reads_iff` — reads from the compaction point on survive exactly when the index
  shows nothing older than `c` at `c`.
* `compacted_refused_iff` — reads before the compaction point are not refused.
-/

import Rusd.Storage.CallLog

namespace Rusd

open MvccStore

variable {s : MvccStore}

/-! ### Scans before and after -/

/-- **A scan after compaction** is the scan before it without the revisions below `c`. -/
theorem keysIn_compact {bound : Int} {index : KeyIndex} (ok : IndexOk bound index)
    (start stop : Bytes) {c r : Int} (le : c ≤ r) :
    (index.compact c).keysIn start stop r =
      (index.keysIn start stop r).filter fun e => c ≤ e.2.main := by
  refine OrdMap.eq_of_mem_iff Prod.fst ((index.compact c).keysIn_ascending start stop r)
    ((index.keysIn_ascending start stop r).filter _) ?_
  rintro ⟨key, rev⟩
  rw [List.mem_filter, KeyIndex.mem_keysIn, KeyIndex.mem_keysIn, KeyIndex.get_compact ok le,
    Option.filter_eq_some_iff]
  simp only [decide_eq_true_eq, and_assoc]

/-- The index shows at `c` nothing older than `c`. -/
def NothingOlder (s : MvccStore) (c : Int) : Prop :=
  ∀ key rev, s.keyIndex.get key c = some rev → c ≤ rev.main

namespace Sound

/-- What is visible at or after `c` was written at or after `c`. -/
theorem main_ge (sound : Sound s) {c r : Int} (nothing : NothingOlder s c) (le : c ≤ r)
    {key : Bytes} {rev : Revision} (found : s.keyIndex.get key r = some rev) : c ≤ rev.main := by
  by_contra older
  have below : rev.main ≤ c := by omega
  exact older (nothing key rev (KeyIndex.get_between sound.indexOk le found below))

theorem keysIn_afterCompact (sound : Sound s) {c r : Int} (nothing : NothingOlder s c) (le : c ≤ r)
    (start stop : Bytes) :
    (s.afterCompact c).keyIndex.keysIn start stop r = s.keyIndex.keysIn start stop r := by
  rw [MvccStore.afterCompact, keysIn_compact sound.indexOk start stop le, List.filter_eq_self]
  rintro ⟨key, rev⟩ member
  simpa using sound.main_ge nothing le (KeyIndex.mem_keysIn.mp member).2

/-- A record that is still needed is still there. -/
theorem fetch_afterCompact (sound : Sound s) {c : Int} (fits : IsI64 c) (isCurrent : Bool)
    (q : Int) (key : Bytes) {rev : Revision} (low : c ≤ rev.main)
    (high : rev.main ≤ s.currentRevision) :
    (s.afterCompact c).fetch isCurrent q key rev = s.fetch isCurrent q key rev := by
  have kept : (s.backend.compact c).get .kvRev (revKey rev.main key) =
      s.backend.get .kvRev (revKey rev.main key) := by
    refine s.backend.get_compact ?_
    have isRev : IsI64 rev.main := ⟨fits.1.trans low, lt_of_le_of_lt high sound.fits⟩
    rw [revKey, List.take_append_of_le_length (by simp), List.take_of_length_le (by simp),
      i64OfBe_i64ToBe isRev]
    exact low
  unfold fetch
  simp only [MvccStore.afterCompact, s.backend.get_compact_other c (show TreeName.kv ≠ .kvRev by simp),
    kept]

/-- With nothing older in the index, every read at or after `c` stays the same. -/
theorem range_afterCompact (sound : Sound s) {c : Int} (fits : IsI64 c) (le : c ≤ s.currentRevision)
    (nothing : NothingOlder s c) {start stop : Bytes} (valid : KeyIndex.ValidRange start stop)
    {r : Int} (limit : Int) (after : r ≤ 0 ∨ c ≤ r) :
    (s.afterCompact c).range start stop r limit false = s.range start stop r limit false := by
  have reach : c ≤ if r ≤ 0 then s.currentRevision else r := by split_ifs <;> omega
  have loop : (s.afterCompact c).rangeLoop (r ≤ 0 || r ≥ s.currentRevision)
        (if r ≤ 0 then s.currentRevision else r) limit false
        (s.keyIndex.keysIn start stop (if r ≤ 0 then s.currentRevision else r)) [] =
      s.rangeLoop (r ≤ 0 || r ≥ s.currentRevision)
        (if r ≤ 0 then s.currentRevision else r) limit false
        (s.keyIndex.keysIn start stop (if r ≤ 0 then s.currentRevision else r)) [] := by
    refine rangeLoop_congr ?_ []
    rintro ⟨key, rev⟩ member
    have found := (KeyIndex.mem_keysIn.mp member).2
    exact sound.fetch_afterCompact fits _ _ key (sound.main_ge nothing reach found)
      (KeyIndex.main_le_of_get sound.indexOk found)
  have counter : (s.afterCompact c).currentRevision = s.currentRevision := rfl
  simp only [range, KeyIndex.range_eq (.of_valid valid), counter, sound.keysIn_afterCompact nothing reach, loop]

theorem deleteRange_afterCompact (sound : Sound s) {c : Int} (le : c ≤ s.currentRevision)
    (nothing : NothingOlder s c) {start stop : Bytes} (valid : KeyIndex.ValidRange start stop) :
    ((MvccStore.deleteRange start stop).run (s.afterCompact c)).1 =
      ((MvccStore.deleteRange start stop).run s).1 :=
  MvccStore.deleteRange_congr valid rfl
    (sound.keysIn_afterCompact nothing (by omega) start stop)
    fun key => s.backend.get_compact_other c (by simp) key

/-- A read at `c` of everything counts one key less for each record older than `c`. -/
theorem nothingOlder_of_range (sound : Sound s) {c : Int} (le : c ≤ s.currentRevision)
    (same : ∀ start r, r ≤ 0 ∨ c ≤ r →
      (s.afterCompact c).range start [] r 0 false = s.range start [] r 0 false) :
    NothingOlder s c := by
  intro key rev found
  have written := KeyIndex.AllRevisions.of_get sound.revisions found
  have visible := KeyIndex.main_le_of_lookup found
  have member : (key, rev) ∈ s.keyIndex.keysIn key [] c :=
    KeyIndex.mem_keysIn.mpr ⟨⟨le_rfl, Or.inl rfl⟩, found⟩
  have unbounded : KeyIndex.ValidRange key [] := Or.inl rfl
  obtain ⟨kvs, more, before⟩ := sound.range_count (.of_valid unbounded) c 0
  obtain ⟨kvs', more', after⟩ := (sound.afterCompact le).range_count (.of_valid unbounded) c 0
  have counts := same key c (Or.inr le_rfl)
  rw [before, after, if_neg (by omega), if_neg (by omega), MvccStore.afterCompact,
    keysIn_compact sound.indexOk key [] le_rfl] at counts
  simp only [Outcome.ok.injEq, RangeResult.mk.injEq, List.length_filter_eq_length_iff] at counts
  simpa using counts.2.2 (key, rev) member

end Sound

/-- **When compaction keeps reads.** On every reached store and for every `c` up to the current
revision: `compact c` returns, and afterwards every read at the current revision or at `c` or later,
and every `delete_range`, gives what it gave before, exactly if the index shows nothing older than
`c` at `c`. -/
theorem compact_keeps_reads_iff (s : MvccStore) (reached : Reached s) (c : Int) (fits : IsI64 c)
    (le : c ≤ s.currentRevision) :
    ∃ s', (MvccStore.compact c).run s = (.ok (), s') ∧
      ((∀ start stop, KeyIndex.ValidRange start stop →
          (∀ r limit, r ≤ 0 ∨ c ≤ r →
            s'.range start stop r limit false = s.range start stop r limit false) ∧
          ((MvccStore.deleteRange start stop).run s').1 =
            ((MvccStore.deleteRange start stop).run s).1) ↔
        ∀ key rev, s.keyIndex.get key c = some rev → c ≤ rev.main) := by
  have sound := Sound.of_reached reached
  refine ⟨s.afterCompact c, MvccStore.compact_apply le, ?_, ?_⟩
  · intro same
    exact sound.nothingOlder_of_range le fun start r after => (same start [] (Or.inl rfl)).1 r 0 after
  · intro nothing start stop valid
    exact ⟨fun r limit after => sound.range_afterCompact fits le nothing valid limit after,
      sound.deleteRange_afterCompact le nothing valid⟩

/-- Two keys written at 2 and 3. -/
def twoKeys : MvccStore :=
  ((MvccStore.put [98] [50] 0).run ((MvccStore.put [97] [49] 0).run (MvccStore.new .empty)).2).2

theorem twoKeys_reached : Reached twoKeys :=
  .put (.put .fresh (by decide) _ _ _) (by decide) _ _ _

/-- **Compacting at 3 hides the key written at 2**: the current read listed two keys before and
lists one after. -/
theorem compact_hides_live_key :
    Reached twoKeys ∧ 3 ≤ twoKeys.currentRevision ∧
      ((MvccStore.compact 3).run twoKeys).1 = .ok () ∧
      (twoKeys.range [97] [] 0 0 false).map (fun result => result.kvs.map fun kv => kv.key) =
        .ok [[97], [98]] ∧
      (((MvccStore.compact 3).run twoKeys).2.range [97] [] 0 0 false).map
        (fun result => result.kvs.map fun kv => kv.key) = .ok [[98]] := by
  refine ⟨twoKeys_reached, by decide, by rfl, by rfl, by rfl⟩

/-- Compacting at 2, where the older key was written, keeps both. -/
theorem compact_keeps_last_write :
    ∃ s', (MvccStore.compact 2).run twoKeys = (.ok (), s') ∧
      s'.range [97] [] 0 0 false = twoKeys.range [97] [] 0 0 false := by
  obtain ⟨s', returned, same⟩ :=
    compact_keeps_reads_iff twoKeys twoKeys_reached 2 (by decide) (by decide)
  have written : KeyIndex.AllRevisions (fun rev => 2 ≤ rev.main)
      ((KeyIndex.new.put [97] ⟨2, 0⟩).put [98] ⟨3, 0⟩) :=
    (KeyIndex.AllRevisions.new.put [97] (by decide)).put [98] (by decide)
  have nothing : ∀ key rev, twoKeys.keyIndex.get key 2 = some rev → 2 ≤ rev.main :=
    fun key rev found => written.of_get found
  exact ⟨s', returned, (same.mpr nothing [97] [] (Or.inl rfl)).1 0 0 (Or.inl le_rfl)⟩

/-! ### Reads before the compaction point -/

/-- **When reads of compacted revisions are refused**: a range query does not look at the compact
revision, so exactly when there is no such revision. -/
theorem compacted_refused_iff (calls : List ClientCall) :
    (∀ r, 0 < r → r < (CallLog.of calls).compacted → ∀ start stop limit countOnly,
        ∃ e, (CallLog.of calls).store.range start stop r limit countOnly = .err e) ↔
      (CallLog.of calls).compacted ≤ 1 := by
  constructor
  · intro refused
    by_contra above
    obtain ⟨e, failed⟩ := refused 1 one_pos (not_le.mp above) [] [] 0 false
    exact range_ne_err e failed
  · intro none r positive below
    omega

/-- Two puts of one key and a compaction at the second: the read at the first one succeeds, without the
key that was there. -/
theorem compacted_read_succeeds :
    (CallLog.of [.put [97] [49] 0, .put [97] [50] 0, .compact 3]).compacted = 3 ∧
      (CallLog.of [.put [97] [49] 0, .put [97] [50] 0]).store.range [97] [] 2 0 false =
        .ok ⟨[⟨[97], 2, 2, 1, [49], 0⟩], false, 1⟩ ∧
      (CallLog.of [.put [97] [49] 0, .put [97] [50] 0, .compact 3]).store.range [97] [] 2 0 false =
        .ok ⟨[], false, 0⟩ := by
  refine ⟨by decide +kernel, by decide +kernel, by decide +kernel⟩

end Rusd
