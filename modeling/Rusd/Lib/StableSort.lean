/-
**Stable sorting of lists without repetitions.**

The elements of a list stand in an order `before` of their own, and a comparison `le` sorts them. A
stable sort of the list is the one arrangement in which of two elements the first is the smaller one, or
the one that stood before if they tie (`Ranks`).

* `pairwise_mergeSort_ranks`, `eq_mergeSort` — the merge sort is that arrangement, and there is no other.
* `mergeSort_filter`, `mergeSort_append` — sorting and selecting, sorting in two parts.
* `mergeSort_eq_iff` — two comparisons sort a list alike exactly if they put the same pairs of it out of
  order.
* `mergeSort_take_iff` — sorting the first elements of a list, with another comparison, gives the first
  elements of the sorted list: exactly when.
-/

import Mathlib.Data.List.Nodup
import Mathlib.Data.List.Pairwise
import Mathlib.Tactic.Common

namespace StableSort

variable {α : Type} {before : α → α → Prop} {le le' : α → α → Bool}

/-- A comparison by which any two elements can be sorted. -/
structure Compares (le : α → α → Bool) : Prop where
  trans : ∀ a b c, le a b = true → le b c = true → le a c = true
  total : ∀ a b, (le a b || le b a) = true

theorem Compares.flip (compares : Compares le) {a b : α} (inverted : le a b = false) :
    le b a = true := by
  have total := compares.total a b
  rw [inverted, Bool.false_or] at total
  exact total

/-- The first element belongs before the second: it is smaller, or they tie and it stood before. -/
def Ranks (before : α → α → Prop) (le : α → α → Bool) (a b : α) : Prop :=
  le a b = true ∧ (le b a = true → before a b)

instance [DecidableRel before] : DecidableRel (Ranks before le) :=
  fun a b => inferInstanceAs (Decidable (le a b = true ∧ (le b a = true → before a b)))

/-! ### Two elements of a list -/

/-- Of two elements of a list one stands before the other. -/
theorem pairwise_or {R : α → α → Prop} {l : List α} (pairwise : l.Pairwise R) {a b : α}
    (memberA : a ∈ l) (memberB : b ∈ l) (apart : a ≠ b) : R a b ∨ R b a := by
  have symmetric : Std.Symm fun a b => R a b ∨ R b a := ⟨fun _ _ => Or.symm⟩
  have either : l.Pairwise fun a b => R a b ∨ R b a := pairwise.imp Or.inl
  exact either.forall memberA memberB apart

/-- Two elements of a list at different places. -/
theorem pairwise_of_lt {R : α → α → Prop} {l : List α} (pairwise : l.Pairwise R) {a b : α} {i j : Nat}
    (first : l[i]? = some a) (second : l[j]? = some b) (less : i < j) : R a b := by
  obtain ⟨below, rfl⟩ := List.getElem?_eq_some_iff.mp first
  obtain ⟨below', rfl⟩ := List.getElem?_eq_some_iff.mp second
  exact List.pairwise_iff_getElem.mp pairwise i j below below' less

section Ordered

variable {l m : List α}

theorem nodup_of_ordered (asymm : ∀ a b, before a b → ¬ before b a) (ordered : l.Pairwise before) :
    l.Nodup := by
  refine ordered.imp ?_
  rintro a _ first rfl
  exact asymm a a first first

/-! ### The stable arrangement -/

/-- **The merge sort puts the list into its stable arrangement.** -/
theorem pairwise_mergeSort_ranks (compares : Compares le) (ordered : l.Pairwise before) :
    (l.mergeSort le).Pairwise (Ranks before le) := by
  have sorted : (l.zipIdx.mergeSort (List.zipIdxLE le)).Pairwise
      fun x y => List.zipIdxLE le x y = true :=
    List.pairwise_mergeSort (List.zipIdxLE_trans compares.trans)
      (List.zipIdxLE_total compares.total) l.zipIdx
  have numbered : (l.zipIdx.map Prod.snd).Nodup := by
    rw [List.zipIdx_map_snd]
    exact List.nodup_range'
  have places : (l.zipIdx.mergeSort (List.zipIdxLE le)).Pairwise fun x y => x.2 ≠ y.2 :=
    List.pairwise_map.mp (((List.mergeSort_perm _ _).map Prod.snd).symm.nodup numbered)
  have whole : (l.zipIdx.mergeSort (List.zipIdxLE le)).Pairwise
      fun x y => Ranks before le x.1 y.1 := by
    refine (sorted.and places).imp_of_mem ?_
    rintro ⟨a, i⟩ ⟨b, j⟩ memberA memberB ⟨less, apart⟩
    rw [List.mem_mergeSort, List.mem_zipIdx_iff_getElem?] at memberA memberB
    rw [List.zipIdxLE] at less
    split_ifs at less with small tie
    · have lower : i ≤ j := of_decide_eq_true less
      exact ⟨small, fun _ => pairwise_of_lt ordered memberA memberB (Nat.lt_of_le_of_ne lower apart)⟩
    · exact ⟨small, fun equal => absurd equal tie⟩
  rw [← List.mergeSort_zipIdx]
  exact List.pairwise_map.mpr whole

/-- **There is one stable arrangement.** -/
theorem eq_mergeSort (asymm : ∀ a b, before a b → ¬ before b a) (compares : Compares le)
    (ordered : l.Pairwise before) (perm : m.Perm l) (ranked : m.Pairwise (Ranks before le)) :
    m = l.mergeSort le := by
  refine List.Perm.eq_of_pairwise (fun a b _ _ one two => ?_) ranked
    (pairwise_mergeSort_ranks compares ordered) (perm.trans (List.mergeSort_perm l le).symm)
  exact absurd (two.2 one.1) (asymm a b (one.2 two.1))

/-- **Sorting and selecting.** -/
theorem mergeSort_filter (asymm : ∀ a b, before a b → ¬ before b a) (compares : Compares le)
    (ordered : l.Pairwise before) (p : α → Bool) :
    (l.mergeSort le).filter p = (l.filter p).mergeSort le :=
  eq_mergeSort asymm compares (ordered.filter p) ((List.mergeSort_perm l le).filter p)
    ((pairwise_mergeSort_ranks compares ordered).filter p)

/-- **Sorting in two parts**, when the elements of the first part rank first. -/
theorem mergeSort_append {rest : List α} (asymm : ∀ a b, before a b → ¬ before b a)
    (compares : Compares le) (ordered : (l ++ rest).Pairwise before)
    (first : ∀ a ∈ l, ∀ b ∈ rest, le a b = true) :
    (l ++ rest).mergeSort le = l.mergeSort le ++ rest.mergeSort le := by
  obtain ⟨orderedL, orderedR, across⟩ := List.pairwise_append.mp ordered
  refine (eq_mergeSort asymm compares ordered
    ((List.mergeSort_perm l le).append (List.mergeSort_perm rest le)) ?_).symm
  refine List.pairwise_append.mpr ⟨pairwise_mergeSort_ranks compares orderedL,
    pairwise_mergeSort_ranks compares orderedR, fun a memberA b memberB => ?_⟩
  rw [List.mem_mergeSort] at memberA memberB
  exact ⟨first a memberA b memberB, fun _ => across a memberA b memberB⟩

/-! ### Two comparisons -/

/-- The two comparisons agree on whether the pair is out of order. -/
def SameOrder (le le' : α → α → Bool) (a b : α) : Prop := le a b = le' a b

instance : DecidableRel (SameOrder le le') := fun a b => inferInstanceAs (Decidable (le a b = le' a b))

/-- An arrangement that is stable for one comparison is so for another that puts the same pairs out of
order. -/
theorem ranks_of_sameOrder (asymm : ∀ a b, before a b → ¬ before b a) (compares : Compares le')
    (ordered : l.Pairwise before) (same : l.Pairwise (SameOrder le le')) {a b : α} (memberA : a ∈ l)
    (memberB : b ∈ l) (apart : a ≠ b) (ranks : Ranks before le a b) : Ranks before le' a b := by
  rcases pairwise_or (ordered.and same) memberA memberB apart with ⟨first, alike⟩ | ⟨second, alike⟩
  · exact ⟨alike.symm.trans ranks.1, fun _ => first⟩
  · -- the pair was out of order, for both
    have inverted : le b a = false := by
      rw [← Bool.not_eq_true]
      exact fun less => asymm a b (ranks.2 less) second
    have inverted' : le' b a = false := alike.symm.trans inverted
    exact ⟨compares.flip inverted', fun less => by rw [inverted'] at less; cases less⟩

/-- **Two comparisons sort a list alike** exactly if they put the same pairs of it out of order. -/
theorem mergeSort_eq_iff (asymm : ∀ a b, before a b → ¬ before b a) (compares : Compares le)
    (compares' : Compares le') (ordered : l.Pairwise before) :
    l.mergeSort le' = l.mergeSort le ↔ l.Pairwise (SameOrder le le') := by
  have nodup := nodup_of_ordered asymm ordered
  have ranked := pairwise_mergeSort_ranks compares ordered
  constructor
  · intro same
    have ranked' := pairwise_mergeSort_ranks compares' ordered
    rw [same] at ranked'
    refine (ordered.and nodup).imp_of_mem ?_
    rintro a b memberA memberB ⟨first, apart⟩
    rw [← (l.mergeSort_perm le).mem_iff] at memberA memberB
    rcases pairwise_or (ranked.and ranked') memberA memberB apart with ⟨one, two⟩ | ⟨one, two⟩
    · exact one.1.trans two.1.symm
    · have inverted : le a b = false := by
        rw [← Bool.not_eq_true]
        exact fun less => asymm a b first (one.2 less)
      have inverted' : le' a b = false := by
        rw [← Bool.not_eq_true]
        exact fun less => asymm a b first (two.2 less)
      exact inverted.trans inverted'.symm
  · intro same
    have distinct : (l.mergeSort le).Nodup := (List.mergeSort_perm l le).symm.nodup nodup
    refine (eq_mergeSort asymm compares' ordered (List.mergeSort_perm l le) ?_).symm
    refine (ranked.and distinct).imp_of_mem ?_
    rintro a b memberA memberB ⟨ranks, apart⟩
    rw [List.mem_mergeSort] at memberA memberB
    exact ranks_of_sameOrder asymm compares' ordered same memberA memberB apart ranks

/-! ### The first elements -/

/-- **Sorting the first elements of a list** gives the first elements of the sorted list, both among
those that are selected, exactly if every element behind the first ones that is selected ranks behind all
of these, all of them selected too, and if the two comparisons put the same pairs out of order. -/
theorem mergeSort_take_iff {first rest : List α} {n : Nat} (asymm : ∀ a b, before a b → ¬ before b a)
    (compares : Compares le) (compares' : Compares le') (ordered : (first ++ rest).Pairwise before)
    (short : first.length ≤ n) (full : rest ≠ [] → first.length = n) (p : α → Bool) :
    (first.filter p).mergeSort le' = (((first ++ rest).filter p).mergeSort le).take n ↔
      (∀ b ∈ rest, p b = true → ∀ a ∈ first, p a = true ∧ le a b = true) ∧
        (first.filter p).Pairwise (SameOrder le le') := by
  have orderedFirst : (first.filter p).Pairwise before :=
    ((List.pairwise_append.mp ordered).1).filter p
  have alike := mergeSort_eq_iff asymm compares compares' orderedFirst
  have orderedWhole : (first.filter p ++ rest.filter p).Pairwise before := by
    rw [← List.filter_append]
    exact ordered.filter p
  have shorter : (first.filter p).length ≤ n := Nat.le_trans (List.length_filter_le p first) short
  rw [List.filter_append]
  by_cases none : rest.filter p = []
  · -- nothing is left behind the first elements
    have vacuous : ∀ b ∈ rest, p b = true → ∀ a ∈ first, p a = true ∧ le a b = true := by
      intro b member selected
      have inside : b ∈ rest.filter p := List.mem_filter.mpr ⟨member, selected⟩
      rw [none] at inside
      cases inside
    rw [none, List.append_nil, List.take_of_length_le (by rw [List.length_mergeSort]; exact shorter),
      alike, iff_and_self]
    exact fun _ => vacuous
  · have behind : rest ≠ [] := by
      rintro rfl
      exact none rfl
    have exactly := full behind
    constructor
    · intro same
      -- the first elements must fill the answer, so all of them are selected
      have counted := congrArg List.length same
      have some : 0 < (rest.filter p).length := List.length_pos_iff.mpr none
      rw [List.length_mergeSort, List.length_take, List.length_mergeSort, List.length_append] at counted
      have every : first.filter p = first :=
        List.filter_sublist.eq_of_length (by omega)
      have selected := List.filter_eq_self.mp every
      have whole := pairwise_mergeSort_ranks compares orderedWhole
      have cut : ((first.filter p ++ rest.filter p).mergeSort le).take n ++
          ((first.filter p ++ rest.filter p).mergeSort le).drop n =
            (first.filter p ++ rest.filter p).mergeSort le := List.take_append_drop _ _
      rw [← cut, ← same] at whole
      have across := (List.pairwise_append.mp whole).2.2
      have smaller : ∀ a ∈ first, ∀ b ∈ rest.filter p, le a b = true := by
        intro a memberA b memberB
        refine (across a (List.mem_mergeSort.mpr (by rw [every]; exact memberA)) b ?_).1
        have inside : b ∈ (first.filter p ++ rest.filter p).mergeSort le :=
          List.mem_mergeSort.mpr (List.mem_append_right _ memberB)
        rw [← cut, ← same, List.mem_append, List.mem_mergeSort] at inside
        rcases inside with front | back
        · have apart := (List.pairwise_append.mp orderedWhole).2.2 b front b memberB
          exact absurd apart (asymm b b apart)
        · exact back
      refine ⟨fun b member chosen a inFirst => ⟨selected a inFirst,
        smaller a inFirst b (List.mem_filter.mpr ⟨member, chosen⟩)⟩, alike.mp ?_⟩
      have apart := mergeSort_append asymm compares orderedWhole fun a memberA b memberB =>
        smaller a (List.mem_of_mem_filter memberA) b memberB
      rw [same, apart, List.take_left' (by rw [List.length_mergeSort, every, exactly])]
    · rintro ⟨ranks, sameOrder⟩
      obtain ⟨b, member⟩ := List.exists_mem_of_ne_nil _ none
      obtain ⟨inRest, chosen⟩ := List.mem_filter.mp member
      have every : first.filter p = first :=
        List.filter_eq_self.mpr fun a inFirst => (ranks b inRest chosen a inFirst).1
      have apart := mergeSort_append asymm compares orderedWhole fun a memberA b memberB =>
        (ranks b (List.mem_of_mem_filter memberB) (List.mem_filter.mp memberB).2 a
          (List.mem_of_mem_filter memberA)).2
      rw [apart, List.take_left' (by rw [List.length_mergeSort, every, exactly])]
      exact alike.mpr sameOrder

end Ordered

end StableSort
