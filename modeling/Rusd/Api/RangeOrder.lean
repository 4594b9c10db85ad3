/-
**Order, filters and limit of a range request** (`api/kv_service.rs`, `range`; `kv.proto`).

The limit goes to the store, which lists the first records in key order; the handler sorts what comes
back, and filters it after that. It takes the field to sort by from the number of the sort target, by a
table in which two numbers stand the other way round than in `kv.proto`.

* `FullRangeRequest.asks`, `FullRangeRequest.sorts` — the comparison that the request asks for, by
  `kv.proto`, and the one by which the handler sorts.
* `finishRange_eq` — what the handler does to the records of the store: a stable sort, a selection, and the
  removal of the values.
* `rangeScript_run` — the whole request on a store in use.
* `sorted_by_target_iff` — when the response is sorted as asked.
* `limit_after_sort_iff` — when the response holds the first records of all that were asked for.
-/

import Rusd.Api.Script
import Rusd.Lib.StableSort
import Rusd.Storage.Chronicle

namespace Rusd

open MvccStore Script StableSort

/-! ### The comparisons -/

/-- `RangeRequest.SortOrder`. -/
inductive SortOrder
  | none
  | ascend
  | descend
  deriving DecidableEq, Repr

/-- `RangeRequest.SortTarget`. -/
inductive SortTarget
  | key
  | version
  | createRevision
  | modRevision
  | value
  deriving DecidableEq, Repr

/-- The numbers of the orders, the same in `kv.proto` and in the handler. -/
def SortOrder.ofNumber : Int → Option SortOrder
  | 0 => some .none
  | 1 => some .ascend
  | 2 => some .descend
  | _ => Option.none

/-- The numbers of the targets in `kv.proto`. -/
def SortTarget.ofNumber : Int → Option SortTarget
  | 0 => some .key
  | 1 => some .version
  | 2 => some .createRevision
  | 3 => some .modRevision
  | 4 => some .value
  | _ => none

/-- The numbers of the targets in the handler. -/
def SortTarget.handled : Int → Option SortTarget
  | 0 => some .key
  | 1 => some .value
  | 2 => some .createRevision
  | 3 => some .modRevision
  | 4 => some .version
  | _ => none

/-- The field of the first record is not above that of the second. -/
def SortTarget.le : SortTarget → KeyValue → KeyValue → Bool
  | .key, a, b => a.key ≤ b.key
  | .version, a, b => a.version ≤ b.version
  | .createRevision, a, b => a.createRevision ≤ b.createRevision
  | .modRevision, a, b => a.modRevision ≤ b.modRevision
  | .value, a, b => a.value ≤ b.value

/-- The comparison of an order and a target; without them all records tie. -/
def comparison (order : Option SortOrder) (target : Option SortTarget) (a b : KeyValue) : Bool :=
  match order, target with
  | some .ascend, some target => target.le a b
  | some .descend, some target => target.le b a
  | _, _ => true

namespace FullRangeRequest

/-- The comparison that the request asks for. -/
def asks (request : FullRangeRequest) : KeyValue → KeyValue → Bool :=
  comparison (SortOrder.ofNumber request.sortOrder) (SortTarget.ofNumber request.sortTarget)

/-- The comparison by which the handler sorts. -/
def sorts (request : FullRangeRequest) : KeyValue → KeyValue → Bool :=
  comparison (SortOrder.ofNumber request.sortOrder) (SortTarget.handled request.sortTarget)

/-- The record passes the filters. -/
def wants (request : FullRangeRequest) (kv : KeyValue) : Bool :=
  (decide (request.minCreateRevision ≤ 0) || decide (request.minCreateRevision ≤ kv.createRevision)) &&
  (decide (request.maxCreateRevision ≤ 0) || decide (kv.createRevision ≤ request.maxCreateRevision)) &&
  (decide (request.minModRevision ≤ 0) || decide (request.minModRevision ≤ kv.modRevision)) &&
  (decide (request.maxModRevision ≤ 0) || decide (kv.modRevision ≤ request.maxModRevision))

/-- The records as they are returned: without their values, if only keys are asked for. -/
def shows (request : FullRangeRequest) (kvs : List KeyValue) : List KeyValue :=
  if request.keysOnly then kvs.map fun kv => { kv with value := [] } else kvs

/-- The revision that is read. -/
def readsAt (request : FullRangeRequest) (s : MvccStore) : Int :=
  if request.revision > 0 then request.revision else s.currentRevision

/-- All records of the interval at the revision that is read, in key order. -/
def records (request : FullRangeRequest) (s : MvccStore) : List KeyValue :=
  s.listing request.key (effectiveRangeEnd request.key request.rangeEnd) (request.readsAt s)

/-- Those that the store returns. -/
def taken (request : FullRangeRequest) (s : MvccStore) : List KeyValue :=
  if request.countOnly then [] else limited request.limit (request.records s)

end FullRangeRequest

/-- The order of a range query. -/
def KeyBefore (a b : KeyValue) : Prop := a.key < b.key

instance (a b : KeyValue) : Decidable (KeyBefore a b) := inferInstanceAs (Decidable (a.key < b.key))

theorem keyBefore_asymm (a b : KeyValue) (less : KeyBefore a b) : ¬ KeyBefore b a :=
  lt_asymm less

theorem SortTarget.le_compares (target : SortTarget) : Compares target.le := by
  constructor
  · intro a b c
    cases target <;> simp only [SortTarget.le, decide_eq_true_eq] <;> exact le_trans
  · intro a b
    cases target <;> simp only [SortTarget.le, Bool.or_eq_true, decide_eq_true_eq] <;>
      exact le_total _ _

theorem comparison_compares (order : Option SortOrder) (target : Option SortTarget) :
    Compares (comparison order target) := by
  have tied : Compares fun _ _ : KeyValue => true := ⟨fun _ _ _ _ _ => rfl, fun _ _ => rfl⟩
  cases target with
  | none => rcases order with _ | _ | _ | _ <;> exact tied
  | some target =>
    have ascending := target.le_compares
    rcases order with _ | _ | _ | _
    · exact tied
    · exact tied
    · exact ascending
    · exact ⟨fun a b c first second => ascending.trans c b a second first,
        fun a b => ascending.total b a⟩

theorem FullRangeRequest.asks_compares (request : FullRangeRequest) : Compares request.asks :=
  comparison_compares _ _

theorem FullRangeRequest.sorts_compares (request : FullRangeRequest) : Compares request.sorts :=
  comparison_compares _ _

/-- Records that all tie stay where they are. -/
theorem mergeSort_tied (kvs : List KeyValue) : kvs.mergeSort (fun _ _ => true) = kvs :=
  List.mergeSort_of_pairwise (List.pairwise_of_forall fun _ _ => rfl)

/-! ### The handler -/

/-- A sort by one field, in either direction. -/
theorem sortBy_eq {α : Type} [LinearOrder α] {field : KeyValue → α} (target : SortTarget)
    (reads : ∀ a b, target.le a b = decide (field a ≤ field b)) (ascending : Bool)
    (kvs : List KeyValue) :
    sortBy ascending field kvs =
      kvs.mergeSort (comparison (some (if ascending then .ascend else .descend)) (some target)) := by
  rw [sortBy]
  congr 1
  funext a b
  cases ascending <;> simp only [comparison, reads, Bool.false_eq_true, if_false, if_true]

/-- **The sort of the handler.** -/
theorem sortKvs_eq (request : FullRangeRequest) (kvs : List KeyValue) :
    sortKvs request kvs = kvs.mergeSort request.sorts := by
  have tied : ∀ order, comparison order none = fun _ _ => true := by
    rintro (_ | _ | _ | _) <;> rfl
  by_cases ordered : request.sortOrder = 1 ∨ request.sortOrder = 2
  · have direction : SortOrder.ofNumber request.sortOrder =
        some (if decide (request.sortOrder = 1) then .ascend else .descend) := by
      rcases ordered with up | down
      · rw [up]
        rfl
      · rw [down]
        rfl
    rw [sortKvs, if_pos ordered, FullRangeRequest.sorts, direction]
    simp only
    split <;> rename_i number
    · rw [number]
      exact sortBy_eq .key (fun _ _ => rfl) _ kvs
    · rw [number]
      exact sortBy_eq .value (fun _ _ => rfl) _ kvs
    · rw [number]
      exact sortBy_eq .createRevision (fun _ _ => rfl) _ kvs
    · rw [number]
      exact sortBy_eq .modRevision (fun _ _ => rfl) _ kvs
    · rw [number]
      exact sortBy_eq .version (fun _ _ => rfl) _ kvs
    · have unknown : SortTarget.handled request.sortTarget = none := by
        rw [SortTarget.handled.eq_def]
        split <;> simp_all
      rw [unknown, tied, mergeSort_tied]
  · rw [not_or] at ordered
    have idle : request.sorts = fun _ _ => true := by
      funext a b
      rw [FullRangeRequest.sorts, SortOrder.ofNumber.eq_def]
      split
      · rfl
      · exact absurd ‹request.sortOrder = 1› ordered.1
      · exact absurd ‹request.sortOrder = 2› ordered.2
      · rfl
    rw [sortKvs, if_neg (not_or.mpr ordered), idle, mergeSort_tied]

/-- **The response from the records of the store**: sorted, selected, and shown. -/
theorem finishRange_eq (request : FullRangeRequest) (kvs : List KeyValue) :
    finishRange request kvs = request.shows ((kvs.mergeSort request.sorts).filter request.wants) := by
  have retained : ∀ (bound : Int) (passes : KeyValue → Bool) (l : List KeyValue),
      retainIf bound passes l = l.filter fun kv => decide (bound ≤ 0) || passes kv := by
    intro bound passes l
    by_cases set : bound > 0
    · have unset : decide (bound ≤ 0) = false := decide_eq_false (by omega)
      rw [retainIf, if_pos set, unset]
      simp only [Bool.false_or]
    · have unset : decide (bound ≤ 0) = true := decide_eq_true (by omega)
      rw [retainIf, if_neg set, unset]
      simp only [Bool.true_or, List.filter_true]
  have selected : ∀ l : List KeyValue, retainIf request.maxModRevision
      (fun kv => kv.modRevision ≤ request.maxModRevision) (retainIf request.minModRevision
        (fun kv => kv.modRevision ≥ request.minModRevision) (retainIf request.maxCreateRevision
          (fun kv => kv.createRevision ≤ request.maxCreateRevision) (retainIf request.minCreateRevision
            (fun kv => kv.createRevision ≥ request.minCreateRevision) l))) = l.filter request.wants := by
    intro l
    simp only [retained, List.filter_filter]
    refine List.filter_congr fun kv _ => ?_
    simp only [FullRangeRequest.wants, ge_iff_le, Bool.and_comm, Bool.and_left_comm]
  rw [← sortKvs_eq, ← selected]
  rfl

section InUse

variable {hist : Int → Bytes → Option KeyValue} {stored live : RefMap} {s : MvccStore}

/-- The records that a read of the store returns. -/
theorem Chronicle.kvs_of_range (chronicle : Chronicle hist stored live s) {start stop : Bytes}
    {r limit : Int} {countOnly : Bool} {result : RangeResult}
    (returned : s.range start stop r limit countOnly = .ok result) :
    result.kvs = if countOnly then [] else limited limit (s.listing start stop r) := by
  have accepts := accepts_of_range returned
  cases countOnly with
  | true =>
    simp only [MvccStore.range, KeyIndex.range_eq accepts, rangeLoop_countOnly, Outcome.map] at returned
    rw [← Outcome.ok.inj returned]
    rfl
  | false =>
    rw [chronicle.range accepts] at returned
    rw [← Outcome.ok.inj returned]
    rfl

/-- **The whole request**: what it returns if it returns, and that it leaves the store alone. -/
theorem rangeScript_run (chronicle : Chronicle hist stored live s) (request : FullRangeRequest)
    {revision : Int} {kvs : List KeyValue} {more : Bool} {count : Nat} {s' : MvccStore}
    (returned : (rangeScript request).alone.run s =
      (.ok (.responseRange revision kvs more count), s')) :
    kvs = request.shows (((request.taken s).mergeSort request.sorts).filter request.wants) ∧ s' = s := by
  have read : (rangeRead request (request.readsAt s)).alone.run s =
      (.ok (.responseRange revision kvs more count), s') := by
    unfold rangeScript at returned
    unfold FullRangeRequest.readsAt
    split_ifs at returned ⊢
    · cases returned
    · exact returned
    · cases returned
    · exact returned
  rw [rangeRead, alone_bind] at read
  obtain ⟨result, middle, performed, answered⟩ := Exec.run_bind_eq_ok read
  rw [alone_perform] at performed
  cases called : s.range request.key (effectiveRangeEnd request.key request.rangeEnd)
      (request.readsAt s) request.limit request.countOnly with
  | ok found =>
    simp only [StoreCall.exec, called] at performed
    cases performed
    cases answered
    have taken := chronicle.kvs_of_range called
    refine ⟨?_, rfl⟩
    rw [finishRange_eq, taken]
    rfl
  | err e =>
    simp only [StoreCall.exec, called] at performed
    cases performed
  | panic =>
    simp only [StoreCall.exec, called] at performed
    cases performed

/-- A request whose read returns. -/
theorem rangeScript_of_range {request : FullRangeRequest}
    (named : ¬ (request.key = [] ∧ request.rangeEnd = []))
    {result : RangeResult} (called : s.range request.key (effectiveRangeEnd request.key request.rangeEnd)
      (request.readsAt s) request.limit request.countOnly = .ok result) :
    (rangeScript request).alone.run s = (.ok (.responseRange s.currentRevision
      (finishRange request result.kvs) result.more result.count), s) := by
  have read : (rangeRead request (request.readsAt s)).alone.run s = (.ok (.responseRange
      s.currentRevision (finishRange request result.kvs) result.more result.count), s) := by
    have performed : (perform (.range request.key (effectiveRangeEnd request.key request.rangeEnd)
        (request.readsAt s) request.limit request.countOnly) "range query failed: ").alone.run s =
          (.ok result, s) := by
      simp only [alone_perform, StoreCall.exec, called]
    rw [rangeRead, alone_bind, Exec.run_bind_ok performed]
    rfl
  rw [← read]
  unfold rangeScript FullRangeRequest.readsAt
  rw [if_neg named]
  split_ifs
  · rfl
  · rfl

/-- The records of the interval are in key order. -/
theorem records_ordered (chronicle : Chronicle hist stored live s) (request : FullRangeRequest) :
    (request.records s).Pairwise KeyBefore :=
  chronicle.listing_ascending _ _ _

/-- The store returns the first records. -/
theorem taken_sublist (request : FullRangeRequest) (s : MvccStore) :
    (request.taken s).Sublist (request.records s) := by
  unfold FullRangeRequest.taken limited
  split_ifs
  · exact List.nil_sublist _
  · exact List.take_sublist _ _
  · exact List.Sublist.refl _

/-- Two lists of records of one read are the same if they are shown alike: their keys tell them apart. -/
theorem shows_injective {request : FullRangeRequest} {records first second : List KeyValue}
    (ordered : records.Pairwise KeyBefore) (within : ∀ kv ∈ first, kv ∈ records)
    (within' : ∀ kv ∈ second, kv ∈ records) (same : request.shows first = request.shows second) :
    first = second := by
  have keys : first.map KeyValue.key = second.map KeyValue.key := by
    have keyed : ∀ kvs, (request.shows kvs).map KeyValue.key = kvs.map KeyValue.key := by
      intro kvs
      rw [FullRangeRequest.shows]
      split_ifs
      · rw [List.map_map]
        rfl
      · rfl
    rw [← keyed first, ← keyed second, same]
  clear same
  induction first generalizing second with
  | nil => exact (List.map_eq_nil_iff.mp keys.symm).symm
  | cons a first ih =>
    cases second with
    | nil => cases keys
    | cons b second =>
      rw [List.map_cons, List.map_cons, List.cons.injEq] at keys
      have equal : a = b := by
        by_contra apart
        rcases pairwise_or ordered (within a List.mem_cons_self) (within' b List.mem_cons_self) apart
          with less | less
        · exact less.ne keys.1
        · exact less.ne keys.1.symm
      rw [equal, ih (fun kv member => within kv (List.mem_cons_of_mem _ member))
        (fun kv member => within' kv (List.mem_cons_of_mem _ member)) keys.2]

/-! ### The order of the response -/

/-- The response is sorted as asked, ties in key order: it shows records of the read, before their values
are removed, each of which ranks before the ones behind it. -/
def SortedAsAsked (request : FullRangeRequest) (s : MvccStore) (kvs : List KeyValue) : Prop :=
  ∃ shown : List KeyValue, kvs = request.shows shown ∧ (∀ kv ∈ shown, kv ∈ request.records s) ∧
    shown.Pairwise (Ranks KeyBefore request.asks)

/-- **When the handler sorts as asked**: the comparisons put the same pairs out of order. -/
theorem sortedAsAsked_iff (chronicle : Chronicle hist stored live s) (request : FullRangeRequest) :
    SortedAsAsked request s
        (request.shows (((request.taken s).mergeSort request.sorts).filter request.wants)) ↔
      ((request.taken s).filter request.wants).Pairwise (SameOrder request.asks request.sorts) := by
  have sorts := request.sorts_compares
  have asks := request.asks_compares
  have ordered := records_ordered chronicle request
  have orderedTaken := ordered.sublist (taken_sublist request s)
  have within : ∀ kv ∈ ((request.taken s).filter request.wants).mergeSort request.sorts,
      kv ∈ request.records s := by
    intro kv member
    rw [List.mem_mergeSort] at member
    exact (taken_sublist request s).subset (List.mem_of_mem_filter member)
  rw [mergeSort_filter keyBefore_asymm sorts orderedTaken,
    ← mergeSort_eq_iff keyBefore_asymm asks sorts (orderedTaken.filter _)]
  constructor
  · rintro ⟨shown, same, members, ranked⟩
    have equal := shows_injective ordered within members same
    refine equal.trans (eq_mergeSort keyBefore_asymm asks (orderedTaken.filter _) ?_ ranked)
    rw [← equal]
    exact List.mergeSort_perm _ _
  · intro same
    refine ⟨_, rfl, within, ?_⟩
    rw [same]
    exact pairwise_mergeSort_ranks asks (orderedTaken.filter _)

/-- What the two comparisons make of a pair of records: they differ for the numbers of the version and of
the value, which stand for each other. -/
theorem sameOrder_iff {request : FullRangeRequest} (ordered : request.sortOrder = 1 ∨ request.sortOrder = 2)
    (known : 0 ≤ request.sortTarget ∧ request.sortTarget ≤ 4) (a b : KeyValue) :
    SameOrder request.asks request.sorts a b ↔
      (request.sortTarget = 1 ∨ request.sortTarget = 4 →
        if request.sortOrder = 1 then (a.version ≤ b.version ↔ a.value ≤ b.value)
        else (b.version ≤ a.version ↔ b.value ≤ a.value)) := by
  obtain ⟨low, high⟩ := known
  have cases_ : request.sortTarget = 0 ∨ request.sortTarget = 1 ∨ request.sortTarget = 2 ∨
      request.sortTarget = 3 ∨ request.sortTarget = 4 := by omega
  unfold SameOrder FullRangeRequest.asks FullRangeRequest.sorts
  rcases ordered with up | down
  · rw [up, if_pos rfl]
    rcases cases_ with number | number | number | number | number <;> rw [number] <;>
      simp [comparison, SortOrder.ofNumber, SortTarget.ofNumber, SortTarget.handled, SortTarget.le,
        eq_comm]
  · rw [down, if_neg (by decide)]
    rcases cases_ with number | number | number | number | number <;> rw [number] <;>
      simp [comparison, SortOrder.ofNumber, SortTarget.ofNumber, SortTarget.handled, SortTarget.le,
        eq_comm]

end InUse

/-- **When a range is sorted by the requested field.** For every store in use and every range request with
an ascending or a descending order and a sort target of `kv.proto` that returns: the response is sorted by
the field that the target names, ties in key order, unless the target is the version or the value; and then
exactly if the records that the store returned and the filters let through, taken in key order, are out of
order by version where they are out of order by value. -/
theorem sorted_by_target_iff (s : MvccStore) (inUse : InUse s) (request : FullRangeRequest)
    (ordered : request.sortOrder = 1 ∨ request.sortOrder = 2)
    (known : 0 ≤ request.sortTarget ∧ request.sortTarget ≤ 4) (revision : Int) (kvs : List KeyValue)
    (more : Bool) (count : Nat) (s' : MvccStore)
    (returned : (rangeScript request).alone.run s =
      (.ok (.responseRange revision kvs more count), s')) :
    SortedAsAsked request s kvs ↔
      (request.sortTarget = 1 ∨ request.sortTarget = 4 →
        ((request.taken s).filter request.wants).Pairwise fun a b =>
          if request.sortOrder = 1 then (a.version ≤ b.version ↔ a.value ≤ b.value)
          else (b.version ≤ a.version ↔ b.value ≤ a.value)) := by
  obtain ⟨hist, stored, live, chronicle⟩ := inUse.chronicle
  rw [(rangeScript_run chronicle request returned).1, sortedAsAsked_iff chronicle]
  constructor
  · intro same swapped
    exact same.imp fun {a b} alike => (sameOrder_iff ordered known a b).mp alike swapped
  · intro alike
    by_cases swapped : request.sortTarget = 1 ∨ request.sortTarget = 4
    · exact (alike swapped).imp fun {a b} pair => (sameOrder_iff ordered known a b).mpr fun _ => pair
    · exact List.pairwise_of_forall fun a b =>
        (sameOrder_iff ordered known a b).mpr fun named => absurd named swapped

/-! ### The limit -/

/-- The response shows the first records of all that were asked for: of those of the interval that pass the
filters, in the order asked for. -/
def FirstOfAll (request : FullRangeRequest) (s : MvccStore) (kvs : List KeyValue) : Prop :=
  kvs = request.shows
    ((((request.records s).filter request.wants).mergeSort request.asks).take request.limit.toNat)

/-- **When the limit counts what was asked for.** For every store in use and every range request with a
limit that returns: the response holds the first records of all that were asked for exactly if, among the
records of the interval in key order, every one behind the first `limit` that passes the filters ranks behind
all of these, all of them passing too; and if the first ones are sorted as asked. -/
theorem limit_after_sort_iff (s : MvccStore) (inUse : InUse s) (request : FullRangeRequest)
    (limit : 0 < request.limit) (listing : request.countOnly = false) (revision : Int)
    (kvs : List KeyValue) (more : Bool) (count : Nat) (s' : MvccStore)
    (returned : (rangeScript request).alone.run s =
      (.ok (.responseRange revision kvs more count), s')) :
    FirstOfAll request s kvs ↔
      (∀ b ∈ (request.records s).drop request.limit.toNat, request.wants b = true →
        ∀ a ∈ (request.records s).take request.limit.toNat,
          request.wants a = true ∧ request.asks a b = true) ∧
      (((request.records s).take request.limit.toNat).filter request.wants).Pairwise
        (SameOrder request.asks request.sorts) := by
  obtain ⟨hist, stored, live, chronicle⟩ := inUse.chronicle
  have ordered := records_ordered chronicle request
  have taken : request.taken s = (request.records s).take request.limit.toNat := by
    rw [FullRangeRequest.taken, listing, limited, if_pos limit]
    rfl
  have split : (request.records s).take request.limit.toNat ++
      (request.records s).drop request.limit.toNat = request.records s := List.take_append_drop _ _
  have full : (request.records s).drop request.limit.toNat ≠ [] →
      ((request.records s).take request.limit.toNat).length = request.limit.toNat := by
    intro behind
    rw [List.length_take, Nat.min_eq_left]
    rw [ne_eq, List.drop_eq_nil_iff] at behind
    omega
  have exact_ := mergeSort_take_iff keyBefore_asymm request.asks_compares request.sorts_compares
    (by rw [split]; exact ordered) (List.length_take_le _ _) full request.wants
  rw [split] at exact_
  have orderedTaken := ordered.sublist (List.take_sublist request.limit.toNat (request.records s))
  rw [FirstOfAll, (rangeScript_run chronicle request returned).1, taken,
    mergeSort_filter keyBefore_asymm request.sorts_compares orderedTaken, ← exact_]
  refine ⟨fun same => shows_injective ordered (fun kv member => ?_) (fun kv member => ?_) same,
    congrArg request.shows⟩
  · rw [List.mem_mergeSort] at member
    exact List.mem_of_mem_take (List.mem_of_mem_filter member)
  · have member := List.mem_of_mem_take member
    rw [List.mem_mergeSort] at member
    exact List.mem_of_mem_filter member

/-! ### Two keys -/

/-- The key `a` with version 2 and the value `1`, the key `b` with version 1 and the value `2`. -/
def unsortedKeys : MvccStore :=
  ((MvccStore.put [98] [50] 0).run ((MvccStore.put [97] [49] 0).run
    ((MvccStore.put [97] [48] 0).run (.new .empty)).2).2).2

theorem unsortedKeys_inUse : InUse unsortedKeys :=
  .put (.put (.put .fresh (by decide) (by decide)) (by decide) (by decide)) (by decide) (by decide)

/-- Everything from `a` on, with an order, a target and a limit. -/
def everything (sortOrder sortTarget limit : Int) : FullRangeRequest where
  key := [97]
  rangeEnd := [0]
  revision := 0
  limit := limit
  sortOrder := sortOrder
  sortTarget := sortTarget
  countOnly := false
  keysOnly := false
  minModRevision := 0
  maxModRevision := 0
  minCreateRevision := 0
  maxCreateRevision := 0

def recordA : KeyValue := ⟨[97], 2, 3, 2, [49], 0⟩

def recordB : KeyValue := ⟨[98], 4, 4, 1, [50], 0⟩

theorem unsortedKeys_records (sortOrder sortTarget limit : Int) :
    (everything sortOrder sortTarget limit).records unsortedKeys = [recordA, recordB] := by
  have same : (everything sortOrder sortTarget limit).records unsortedKeys =
      (everything 0 0 0).records unsortedKeys := rfl
  rw [same]
  decide +kernel

/-- The answer to a range over both keys, from the arrangement that the handler sorts them into. -/
theorem unsortedKeys_returned (sortOrder sortTarget : Int) {limit : Int} {result : RangeResult}
    {kvs : List KeyValue}
    (called : unsortedKeys.range [97] [] 4 limit false = .ok result)
    (ordered : result.kvs.Pairwise KeyBefore) (perm : kvs.Perm result.kvs)
    (ranked : kvs.Pairwise (Ranks KeyBefore (everything sortOrder sortTarget limit).sorts)) :
    (rangeScript (everything sortOrder sortTarget limit)).alone.run unsortedKeys =
      (.ok (.responseRange 4 kvs result.more result.count), unsortedKeys) := by
  have revision : unsortedKeys.currentRevision = 4 := by decide +kernel
  have sorted := eq_mergeSort keyBefore_asymm
    (everything sortOrder sortTarget limit).sorts_compares ordered perm ranked
  have all : ∀ l : List KeyValue, l.filter (everything sortOrder sortTarget limit).wants = l :=
    fun l => List.filter_eq_self.mpr fun _ _ => rfl
  have named : ¬ ((everything sortOrder sortTarget limit).key = [] ∧
      (everything sortOrder sortTarget limit).rangeEnd = []) := fun both => by cases both.1
  have answered := rangeScript_of_range named called
  rw [finishRange_eq, ← sorted, all, revision] at answered
  exact answered

/-- Sorted by version: the key `b` comes first. -/
theorem by_version_sorted_by_value :
    InUse unsortedKeys ∧
      (rangeScript (everything 1 1 0)).alone.run unsortedKeys =
        (.ok (.responseRange 4 [recordA, recordB] false 2), unsortedKeys) ∧
      ¬ SortedAsAsked (everything 1 1 0) unsortedKeys [recordA, recordB] := by
  refine ⟨unsortedKeys_inUse, ?_, ?_⟩
  · have called : unsortedKeys.range [97] [] 4 0 false = .ok ⟨[recordA, recordB], false, 2⟩ := by
      decide +kernel
    exact unsortedKeys_returned 1 1 called (by decide) (List.Perm.refl _) (by decide)
  · rintro ⟨shown, same, -, ranked⟩
    have whole : shown = [recordA, recordB] := same.symm
    rw [whole] at ranked
    have first := ((List.pairwise_cons.mp ranked).1 recordB List.mem_cons_self).1
    revert first
    decide

/-- Sorted by the revision of the last change, descending. -/
theorem by_mod_revision_sorted :
    SortedAsAsked (everything 2 3 0) unsortedKeys [recordB, recordA] := by
  have called : unsortedKeys.range [97] [] 4 0 false = .ok ⟨[recordA, recordB], false, 2⟩ := by
    decide +kernel
  have returned := unsortedKeys_returned 2 3 called (by decide)
    (List.Perm.swap recordA recordB []) (by decide)
  exact (sorted_by_target_iff unsortedKeys unsortedKeys_inUse (everything 2 3 0) (by decide) (by decide)
    _ _ _ _ _ returned).mpr (by decide)

/-- **The limit comes first.** The first key in descending order is `b`; the response holds `a`. -/
theorem limit_before_sort :
    InUse unsortedKeys ∧
      (rangeScript (everything 2 0 1)).alone.run unsortedKeys =
        (.ok (.responseRange 4 [recordA] true 2), unsortedKeys) ∧
      ¬ FirstOfAll (everything 2 0 1) unsortedKeys [recordA] := by
  refine ⟨unsortedKeys_inUse, ?_, ?_⟩
  · have called : unsortedKeys.range [97] [] 4 1 false = .ok ⟨[recordA], true, 2⟩ := by decide +kernel
    exact unsortedKeys_returned 2 0 called (by decide) (List.Perm.refl _) (by decide)
  · have sorted : [recordB, recordA] = [recordA, recordB].mergeSort (everything 2 0 1).asks :=
      eq_mergeSort keyBefore_asymm (everything 2 0 1).asks_compares (by decide)
        (List.Perm.swap recordA recordB []) (by decide)
    have all : [recordA, recordB].filter (everything 2 0 1).wants = [recordA, recordB] := by decide
    rw [FirstOfAll, unsortedKeys_records, all, ← sorted]
    decide

/-- In ascending order the first key is the one that is returned. -/
theorem limit_in_key_order :
    FirstOfAll (everything 1 0 1) unsortedKeys [recordA] := by
  have called : unsortedKeys.range [97] [] 4 1 false = .ok ⟨[recordA], true, 2⟩ := by decide +kernel
  have returned := unsortedKeys_returned 1 0 called (by decide)
    (List.Perm.refl _) (by decide)
  refine (limit_after_sort_iff unsortedKeys unsortedKeys_inUse (everything 1 0 1) (by decide) rfl _ _ _ _ _
    returned).mpr ?_
  rw [unsortedKeys_records]
  exact ⟨by decide, by decide⟩

end Rusd
