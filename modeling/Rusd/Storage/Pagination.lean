/-
**Reading an interval page by page** (`storage/mvcc.rs`, `range`; `storage/index.rs`, `range`).

A client reads with a limit at a fixed revision, and goes on behind the last key of a page, with that key
followed by a zero byte, as long as there is more. Between two pages anybody may write.

* `readPages` — the pages that are read.
* `rangeOf_behind` — the interval behind the last key of a page holds the records behind the page.
* `pagination_exact` — the pages together are the whole interval, and each counts what is left of it.
-/

import Rusd.Storage.Reference

namespace Rusd

open MvccStore

/-- The pages of `[start, stop)` at `r`, with the calls that others make after each of them, for at most
`fuel` pages. -/
def readPages (stop : Bytes) (r limit : Int) :
    Nat → List (List StoreOp) → Bytes → MvccStore → Option (List RangeResult)
  | 0, _, _, _ => none
  | fuel + 1, between, start, s =>
    match s.range start stop r limit false with
    | .ok page =>
      if page.more then
        match page.kvs.getLast?, (runOps (between.headD [])).run s with
        | some last, (.ok _, s') =>
          (readPages stop r limit fuel between.tail (last.key ++ [0]) s').map fun pages => page :: pages
        | _, _ => none
      else some [page]
    | _ => none

/-- In an ascending list, what stands behind the last of the first `n`. -/
theorem mem_drop_iff_of_ascending {kvs : List KeyValue} (ascending : kvs.Pairwise fun a b => a.key < b.key)
    {n : Nat} {last : KeyValue} (ends : (kvs.take n).getLast? = some last) (kv : KeyValue) :
    kv ∈ kvs.drop n ↔ kv ∈ kvs ∧ last.key < kv.key := by
  have parts := ascending
  rw [← List.take_append_drop n kvs, List.pairwise_append] at parts
  have lastMember : last ∈ kvs.take n := List.mem_of_getLast? ends
  constructor
  · intro behind
    exact ⟨List.mem_of_mem_drop behind, parts.2.2 last lastMember kv behind⟩
  · rintro ⟨member, above⟩
    rw [← List.take_append_drop n kvs] at member
    rcases List.mem_append.mp member with front | behind
    · obtain ⟨front', whole⟩ := List.getLast?_eq_some_iff.mp ends
      rw [whole] at front parts
      rcases List.mem_append.mp front with before | same
      · have below := (List.pairwise_append.mp parts.1).2.2 kv before last List.mem_cons_self
        exact absurd above (lt_asymm below)
      · rw [List.mem_singleton.mp same] at above
        exact absurd above (lt_irrefl _)
    · exact behind

namespace Refines

variable {calls : List (Int × StoreOp)} {s : MvccStore}

theorem mem_rangeOf (ref : Refines calls s) {start stop : Bytes} {r : Int} {kv : KeyValue} :
    kv ∈ (rangeOf (referenceAt calls r) start stop).kvs ↔
      (referenceAt calls r).get? kv.key = some kv ∧ Bytes.InRange start stop kv.key := by
  simp only [rangeOf, List.mem_map, List.mem_filter, decide_eq_true_eq, Prod.exists,
    OrdMap.mem_entries_iff, exists_eq_right]
  constructor
  · rintro ⟨key, found, inside⟩
    obtain rfl := (ref.records r key kv found).1.key
    exact ⟨found, inside⟩
  · rintro ⟨found, inside⟩
    exact ⟨kv.key, found, inside⟩

/-- **Behind a page**: the interval from the last key with a zero byte on. -/
theorem rangeOf_behind (ref : Refines calls s) {start stop : Bytes} {r : Int} {n : Nat} {last : KeyValue}
    (ends : ((rangeOf (referenceAt calls r) start stop).kvs.take n).getLast? = some last) :
    KeyIndex.ValidRange (last.key ++ [0]) stop ∧
      (rangeOf (referenceAt calls r) (last.key ++ [0]) stop).kvs =
        (rangeOf (referenceAt calls r) start stop).kvs.drop n := by
  have ascending := ref.rangeOf_ascending start stop r
  have inside := (ref.mem_rangeOf.mp (List.mem_of_mem_take (List.mem_of_getLast? ends))).2
  constructor
  · rcases inside.2 with unbounded | below
    · exact Or.inl unbounded
    · exact Or.inr (Bytes.successor_le_iff.mpr below)
  · refine OrdMap.eq_of_mem_iff KeyValue.key (ref.rangeOf_ascending _ stop r)
      (ascending.sublist (List.drop_sublist n _)) fun kv => ?_
    rw [mem_drop_iff_of_ascending ascending ends, ref.mem_rangeOf, ref.mem_rangeOf, and_assoc]
    refine and_congr_right fun _ => ?_
    rw [Bytes.InRange, Bytes.InRange, Bytes.successor_le_iff]
    constructor
    · rintro ⟨above, bounded⟩
      exact ⟨⟨inside.1.trans above.le, bounded⟩, above⟩
    · rintro ⟨⟨_, bounded⟩, above⟩
      exact ⟨above, bounded⟩

/-- The pages of a store that represents its calls, in whatever state the writers between the pages
leave it. -/
theorem readPages_exact (ref : Refines calls s) {start stop : Bytes}
    (valid : KeyIndex.ValidRange start stop) {r limit : Int} (positive : 0 < r)
    (allocated : r ≤ s.currentRevision) (bounded : 0 < limit) {between : List (List StoreOp)}
    (admissible : ∀ op ∈ between.flatten, op.Admissible)
    (room : s.currentRevision + between.flatten.length < 2 ^ 63) :
    ∃ pages, (∀ fuel, (rangeOf (referenceAt calls r) start stop).kvs.length < fuel →
        readPages stop r limit fuel between start s = some pages) ∧
      pages.flatMap RangeResult.kvs = (rangeOf (referenceAt calls r) start stop).kvs ∧
      ∀ i page, pages[i]? = some page →
        page.count = ((pages.drop i).flatMap RangeResult.kvs).length := by
  induction size : (rangeOf (referenceAt calls r) start stop).kvs.length using Nat.strongRecOn
    generalizing calls s start between with
  | _ n ih =>
    have first := ref.range_page (.of_valid valid) positive limit
    have counted : (rangeOf (referenceAt calls r) start stop).count =
        (rangeOf (referenceAt calls r) start stop).kvs.length := (List.length_map _).symm
    rw [limited, if_pos bounded, counted] at first
    by_cases more : limit.toNat < (rangeOf (referenceAt calls r) start stop).kvs.length
    · have flag : (decide (limit > 0) && decide ((rangeOf (referenceAt calls r) start stop).kvs.length >
          ((rangeOf (referenceAt calls r) start stop).kvs.take limit.toNat).length)) = true := by
        simp only [List.length_take, Bool.and_eq_true, decide_eq_true_eq]
        omega
      have nonempty : (rangeOf (referenceAt calls r) start stop).kvs.take limit.toNat ≠ [] := by
        rw [← List.length_pos_iff_ne_nil, List.length_take]
        omega
      obtain ⟨last, ends⟩ := Option.isSome_iff_exists.mp (List.getLast?_isSome.mpr nonempty)
      obtain ⟨valid', behind⟩ := ref.rangeOf_behind ends
      have batches : between.flatten = between.headD [] ++ between.tail.flatten := by
        cases between <;> rfl
      rw [batches, List.length_append] at room
      rw [batches] at admissible
      push_cast at room
      have now : ∀ op ∈ between.headD [], op.Admissible :=
        fun op member => admissible op (List.mem_append_left _ member)
      have rest : ∀ op ∈ between.tail.flatten, op.Admissible :=
        fun op member => admissible op (List.mem_append_right _ member)
      obtain ⟨later, s', ran⟩ := ref.runOps_room now (by omega)
      obtain ⟨-, counter, above, ref'⟩ := ref.runOps now ran
      have same : referenceAt (calls ++ later) r = referenceAt calls r :=
        referenceAt_append fun call member => allocated.trans_lt (above call member)
      have shorter : (rangeOf (referenceAt (calls ++ later) r) (last.key ++ [0]) stop).kvs.length < n := by
        rw [same, behind, List.length_drop]
        omega
      obtain ⟨pages, read, whole, counts⟩ := ih _ shorter ref' valid' (by omega) rest (by omega) rfl
      rw [same, behind] at whole read
      rw [flag] at first
      refine ⟨⟨(rangeOf (referenceAt calls r) start stop).kvs.take limit.toNat, true,
        (rangeOf (referenceAt calls r) start stop).kvs.length⟩ :: pages, fun fuel enough => ?_, ?_, ?_⟩
      · obtain ⟨fuel, rfl⟩ : ∃ left, fuel = left + 1 := ⟨fuel - 1, by omega⟩
        have fewer := read fuel (by rw [List.length_drop]; omega)
        rw [readPages]
        simp only [first, if_true, ends, ran, fewer]
        rfl
      · rw [List.flatMap_cons, whole]
        exact List.take_append_drop _ _
      · intro i page found
        cases i with
        | zero =>
          obtain rfl := Option.some.inj found
          rw [List.drop_zero, List.flatMap_cons, whole, List.take_append_drop]
        | succ i => exact counts i page found
    · have whole : (rangeOf (referenceAt calls r) start stop).kvs.take limit.toNat =
          (rangeOf (referenceAt calls r) start stop).kvs := List.take_of_length_le (not_lt.mp more)
      have flag : (decide (limit > 0) && decide ((rangeOf (referenceAt calls r) start stop).kvs.length >
          (rangeOf (referenceAt calls r) start stop).kvs.length)) = false := by simp
      rw [whole, flag] at first
      refine ⟨[⟨(rangeOf (referenceAt calls r) start stop).kvs, false,
        (rangeOf (referenceAt calls r) start stop).kvs.length⟩], fun fuel enough => ?_, List.append_nil _,
        fun i page found => ?_⟩
      · obtain ⟨fuel, rfl⟩ : ∃ left, fuel = left + 1 := ⟨fuel - 1, by omega⟩
        rw [readPages]
        simp only [first, Bool.false_eq_true, if_false]
      · cases i with
        | zero =>
          obtain rfl := Option.some.inj found
          simp
        | succ i => cases found

end Refines

/-- **Pagination at a fixed revision is exact.** On every store reached by `put` and `delete_range`, for every
revision allocated so far, every interval and every limit, whatever calls others make between the pages: the
reading ends after at most one page for each key and one more; the pages together are the whole read as of
the first page; and each page counts the keys from it on. -/
theorem pagination_exact (ops : List StoreOp) (admissible : ∀ op ∈ ops, op.Admissible)
    (calls : List (Int × StoreOp)) (s : MvccStore)
    (reached : (runOps ops).run (MvccStore.new .empty) = (.ok calls, s)) (r : Int) (positive : 0 < r)
    (allocated : r ≤ s.currentRevision) (start stop : Bytes) (valid : KeyIndex.ValidRange start stop)
    (limit : Int) (bounded : 0 < limit) (between : List (List StoreOp))
    (admissible' : ∀ op ∈ between.flatten, op.Admissible)
    (room : s.currentRevision + between.flatten.length < 2 ^ 63) :
    ∃ whole pages, s.range start stop r 0 false = .ok whole ∧
      (∀ fuel, whole.kvs.length < fuel → readPages stop r limit fuel between start s = some pages) ∧
      pages.flatMap RangeResult.kvs = whole.kvs ∧
      ∀ i page, pages[i]? = some page →
        page.count = ((pages.drop i).flatMap RangeResult.kvs).length := by
  obtain ⟨-, -, -, ref⟩ := Refines.fresh.runOps admissible reached
  rw [List.nil_append] at ref
  have read := ref.range_eq_reference (.of_valid valid) r
  rw [if_neg (by omega)] at read
  obtain ⟨pages, pageAfterPage⟩ := ref.readPages_exact valid positive allocated bounded admissible' room
  exact ⟨_, pages, read, pageAfterPage⟩

/-- Three keys in pages of one, while the keys that are still to come are deleted and another is put. -/
theorem pages_while_deleting :
    ∃ calls s whole pages,
      (runOps [.put [97] [49] 0, .put [98] [50] 0, .put [99] [51] 0]).run (MvccStore.new .empty) =
        (.ok calls, s) ∧
      s.range [97] [] 4 0 false = .ok whole ∧
      readPages [] 4 1 (whole.kvs.length + 1) [[.deleteRange [98] []], [.put [97, 97] [52] 0]] [97] s =
        some pages ∧ pages.flatMap RangeResult.kvs = whole.kvs := by
  have admissible : ∀ op ∈ [StoreOp.put [97] [49] 0, .put [98] [50] 0, .put [99] [51] 0], op.Admissible := by
    simp [StoreOp.Admissible, IsI64]
  have admissible' : ∀ op ∈ [[StoreOp.deleteRange [98] []], [.put [97, 97] [52] 0]].flatten,
      op.Admissible := by
    simp [StoreOp.Admissible, IsI64, KeyIndex.ValidRange]
  obtain ⟨calls, s, reached⟩ := Refines.fresh.runOps_room admissible (by decide)
  have counter : s.currentRevision = 4 := (Refines.fresh.runOps admissible reached).2.1
  obtain ⟨whole, pages, read, paged, exact_, -⟩ := pagination_exact _ admissible calls s reached 4
    (by decide) (by rw [counter]) [97] [] (Or.inl rfl) 1 (by decide)
    [[.deleteRange [98] []], [.put [97, 97] [52] 0]] admissible' (by rw [counter]; decide)
  exact ⟨calls, s, whole, pages, reached, read, paged _ (Nat.lt_succ_self _), exact_⟩

end Rusd
