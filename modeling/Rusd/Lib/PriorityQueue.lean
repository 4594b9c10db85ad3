/-
**Priority queues.**

`PriorityQueue cmp` is what a binary heap promises and no more: `pop` takes off an entry that no
other entry exceeds, and which one of several such entries it takes is left open. Results stated
over it hold of every such heap.

* `drain` — the entries in the order in which `pop` gives them.
* `listQueue` — a queue that keeps its entries in a list and searches for the greatest one.
-/

import Mathlib.Data.Multiset.AddSub
import Mathlib.Tactic.Common

open Std (TransCmp OrientedCmp)

variable {α : Type}

/-- A max-heap with respect to `cmp`. -/
structure PriorityQueue (cmp : α → α → Ordering) where
  Heap : Type
  empty : Heap
  push : Heap → α → Heap
  pop : Heap → Option (α × Heap)
  entries : Heap → Multiset α
  entries_empty : entries empty = 0
  entries_push : ∀ queue entry, entries (push queue entry) = entry ::ₘ entries queue
  pop_none : ∀ queue, pop queue = none → entries queue = 0
  pop_some : ∀ queue entry rest, pop queue = some (entry, rest) →
    entries queue = entry ::ₘ entries rest ∧ ∀ other ∈ entries queue, (cmp other entry).isLE

namespace PriorityQueue

variable {cmp : α → α → Ordering} (Q : PriorityQueue cmp)

/-- `peek`: the entry that `pop` would take off. -/
def peek (queue : Q.Heap) : Option α := (Q.pop queue).map Prod.fst

theorem mem_push {queue : Q.Heap} {entry other : α} :
    other ∈ Q.entries (Q.push queue entry) ↔ other = entry ∨ other ∈ Q.entries queue := by
  rw [Q.entries_push, Multiset.mem_cons]

theorem card_pop {queue rest : Q.Heap} {entry : α} (pops : Q.pop queue = some (entry, rest)) :
    (Q.entries rest).card < (Q.entries queue).card := by
  rw [(Q.pop_some _ _ _ pops).1, Multiset.card_cons]
  exact Nat.lt_succ_self _

/-- An entry other than the one taken off stays. -/
theorem mem_pop {queue rest : Q.Heap} {entry other : α} (pops : Q.pop queue = some (entry, rest))
    (mem : other ∈ Q.entries queue) (differs : other ≠ entry) : other ∈ Q.entries rest := by
  rw [(Q.pop_some _ _ _ pops).1, Multiset.mem_cons] at mem
  exact mem.resolve_left differs

/-! ### The entries in the order of their removal -/

/-- Pop until the queue is empty. -/
def drain (queue : Q.Heap) : List α :=
  match _ : Q.pop queue with
  | none => []
  | some (entry, rest) => entry :: drain rest
termination_by (Q.entries queue).card
decreasing_by exact Q.card_pop ‹_›

theorem drain_none {queue : Q.Heap} (pops : Q.pop queue = none) : Q.drain queue = [] := by
  unfold drain
  split
  · rfl
  · rename_i found
    rw [pops] at found
    cases found

theorem drain_some {queue rest : Q.Heap} {entry : α} (pops : Q.pop queue = some (entry, rest)) :
    Q.drain queue = entry :: Q.drain rest := by
  rw [drain]
  split
  · rename_i found
    rw [pops] at found
    cases found
  · rename_i found
    rw [pops] at found
    cases found
    rfl

/-! ### A queue in a list -/

/-- A greatest entry of the list, and the list without it. -/
def takeGreatest (cmp : α → α → Ordering) : List α → Option (α × List α)
  | [] => none
  | entry :: rest =>
    match takeGreatest cmp rest with
    | none => some (entry, [])
    | some (best, others) =>
      if (cmp entry best).isLE then some (best, entry :: others) else some (entry, best :: others)

theorem takeGreatest_none {entries : List α} (taken : takeGreatest cmp entries = none) :
    entries = [] := by
  cases entries with
  | nil => rfl
  | cons entry rest =>
    unfold takeGreatest at taken
    split at taken
    · cases taken
    · split_ifs at taken

theorem takeGreatest_some [TransCmp cmp] {entries : List α} : ∀ {best : α} {others : List α},
    takeGreatest cmp entries = some (best, others) →
      (entries : Multiset α) = best ::ₘ (others : Multiset α) ∧
      ∀ other ∈ entries, (cmp other best).isLE := by
  induction entries with
  | nil =>
    intro best others found
    cases found
  | cons entry rest ih =>
    intro best others found
    unfold takeGreatest at found
    split at found
    · rename_i empty
      cases found
      rw [takeGreatest_none empty]
      refine ⟨rfl, fun other mem => ?_⟩
      rw [List.mem_singleton.mp mem]
      exact Std.ReflCmp.isLE_rfl
    · rename_i top below taken
      obtain ⟨split, greatest⟩ := ih taken
      split_ifs at found with le
      · cases found
        refine ⟨?_, List.forall_mem_cons.mpr ⟨le, greatest⟩⟩
        rw [← Multiset.cons_coe, split, Multiset.cons_swap, Multiset.cons_coe]
      · cases found
        refine ⟨by rw [← Multiset.cons_coe, split, Multiset.cons_coe],
          List.forall_mem_cons.mpr ⟨Std.ReflCmp.isLE_rfl, fun other mem => ?_⟩⟩
        have above : (cmp top entry).isLE := by
          rw [OrientedCmp.lt_of_not_isLE le]
          rfl
        exact TransCmp.isLE_trans (greatest other mem) above

/-- The queue whose heap is a list. -/
def listQueue (cmp : α → α → Ordering) [TransCmp cmp] : PriorityQueue cmp where
  Heap := List α
  empty := []
  push queue entry := entry :: queue
  pop := takeGreatest cmp
  entries queue := queue
  entries_empty := rfl
  entries_push _ _ := rfl
  pop_none _ taken := by rw [takeGreatest_none taken, Multiset.coe_nil]
  pop_some _ _ _ taken := takeGreatest_some taken

end PriorityQueue
