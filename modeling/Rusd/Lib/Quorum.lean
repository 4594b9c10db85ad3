/-
**Majorities of a list of members.**

`Majority members voters` says that `voters` are members and more than half of them. Two majorities
share a member (`Majority.inter`), and the element at position `k` of a list in descending order is
reached by at least `k + 1` of its elements (`succ_le_countP_of_sorted`), which is why the value in
the middle position of the sorted list is reached by a majority; it is the largest such value
(`le_getElem_iff_of_sorted`).
-/

import Mathlib.Data.Finset.Card
import Mathlib.Data.List.Sort
import Mathlib.Tactic

section Quorum

variable {α : Type} [DecidableEq α]

/-- The voters are members, and more than half of the members. -/
structure Majority (members : List α) (voters : Finset α) : Prop where
  subset : voters ⊆ members.toFinset
  card : members.length / 2 + 1 ≤ voters.card

/-- **Two majorities share a member.** -/
theorem Majority.inter {members : List α} {voters voters' : Finset α}
    (major : Majority members voters) (major' : Majority members voters') :
    ∃ voter, voter ∈ voters ∧ voter ∈ voters' := by
  by_contra none
  push Not at none
  have apart : Disjoint voters voters' := Finset.disjoint_left.mpr none
  have within : (voters ∪ voters').card ≤ members.length :=
    (Finset.card_le_card (Finset.union_subset major.subset major'.subset)).trans
      (List.toFinset_card_le members)
  rw [Finset.card_union_of_disjoint apart] at within
  have := major.card
  have := major'.card
  omega

/-- **Majorities of sets that differ in one element** share an element. -/
theorem majorities_meet {before after : Finset α} (changed : α) (grows : after ⊆ insert changed before)
    (shrinks : before ⊆ insert changed after) {voters voters' : Finset α}
    (subset : voters ⊆ before) (subset' : voters' ⊆ after)
    (major : before.card / 2 + 1 ≤ voters.card) (major' : after.card / 2 + 1 ≤ voters'.card) :
    ∃ voter, voter ∈ voters ∧ voter ∈ voters' := by
  by_contra none
  push Not at none
  have apart : Disjoint voters voters' := Finset.disjoint_left.mpr none
  have both := Finset.card_union_of_disjoint apart
  -- the larger of the two sets holds both majorities, and is larger by one at most
  by_cases new : changed ∈ before
  · have within : voters ∪ voters' ⊆ before := by
      refine Finset.union_subset subset (subset'.trans (grows.trans ?_))
      rw [Finset.insert_eq_of_mem new]
    have small := Finset.card_le_card within
    have less := (Finset.card_le_card shrinks).trans (Finset.card_insert_le changed after)
    omega
  · have within : voters ∪ voters' ⊆ insert changed before :=
      Finset.union_subset (subset.trans (Finset.subset_insert changed before)) (subset'.trans grows)
    have kept : before ⊆ after := by
      intro voter member
      rcases Finset.mem_insert.mp (shrinks member) with rfl | member'
      · exact absurd member new
      · exact member'
    have small := Finset.card_le_card within
    have more := Finset.card_le_card kept
    rw [Finset.card_insert_of_notMem new] at small
    by_cases grown : changed ∈ after
    · have strictly := Finset.card_lt_card
        (Finset.ssubset_iff_subset_ne.mpr ⟨kept, fun same => new (same ▸ grown)⟩)
      omega
    · have same : after ⊆ before := by
        intro voter member
        rcases Finset.mem_insert.mp (grows member) with rfl | member'
        · exact absurd member grown
        · exact member'
      have inside := Finset.card_le_card (Finset.union_subset subset (subset'.trans same))
      have fewer := Finset.card_le_card same
      omega

/-- A majority of the members in another order. -/
theorem Majority.perm {members members' : List α} {voters : Finset α}
    (major : Majority members voters) (perm : members.Perm members') : Majority members' voters :=
  ⟨List.toFinset_eq_of_perm _ _ perm ▸ major.subset, perm.length_eq ▸ major.card⟩

/-- A majority with one more member. -/
theorem Majority.insert {members : List α} {voters : Finset α} {voter : α}
    (major : Majority members voters) (member : voter ∈ members) :
    Majority members (insert voter voters) :=
  ⟨Finset.insert_subset (List.mem_toFinset.mpr member) major.subset,
    major.card.trans (Finset.card_le_card (Finset.subset_insert voter voters))⟩

/-- In a list in descending order, position `k` is reached by the elements up to it. -/
theorem succ_le_countP_of_sorted {values : List Nat} (sorted : values.Pairwise (· ≥ ·)) {k : Nat}
    (inside : k < values.length) : k + 1 ≤ values.countP (values[k] ≤ ·) := by
  induction values generalizing k with
  | nil => cases inside
  | cons value rest ih =>
    obtain ⟨first, sorted⟩ := List.pairwise_cons.mp sorted
    cases k with
    | zero => simp
    | succ k =>
      have inside : k < rest.length := Nat.lt_of_succ_lt_succ inside
      have reached : rest[k] ≤ value := first _ (List.getElem_mem inside)
      rw [List.getElem_cons_succ, List.countP_cons_of_pos (by simpa using reached)]
      exact Nat.succ_le_succ (ih sorted inside)

/-- In a list in descending order, position `k` reaches `n` exactly if `k + 1` of its elements do. -/
theorem le_getElem_iff_of_sorted {values : List Nat} (sorted : values.Pairwise (· ≥ ·)) {k : Nat}
    (inside : k < values.length) {n : Nat} : n ≤ values[k] ↔ k + 1 ≤ values.countP (n ≤ ·) := by
  constructor
  · intro reached
    refine (succ_le_countP_of_sorted sorted inside).trans (List.countP_mono_left fun value _ above => ?_)
    simp only [decide_eq_true_eq] at above ⊢
    exact reached.trans above
  · intro count
    by_contra below
    have behind : (values.drop k).countP (n ≤ ·) = 0 := by
      refine List.countP_eq_zero.mpr fun value member => ?_
      rw [List.drop_eq_getElem_cons inside] at member
      have ordered := sorted.sublist (List.drop_sublist k values)
      rw [List.drop_eq_getElem_cons inside] at ordered
      obtain ⟨first, -⟩ := List.pairwise_cons.mp ordered
      have last : value ≤ values[k] := by
        rcases List.mem_cons.mp member with rfl | later
        · exact le_rfl
        · exact first value later
      simp only [decide_eq_true_eq]
      omega
    have split := congrArg (List.countP (n ≤ ·)) (List.take_append_drop k values)
    rw [List.countP_append, behind] at split
    have front := List.countP_le_length (p := fun value => decide (n ≤ value)) (l := values.take k)
    rw [List.length_take] at front
    omega

end Quorum
