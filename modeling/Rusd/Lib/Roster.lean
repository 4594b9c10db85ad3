/-
**Rosters that everyone reads for himself.**

A roster lists values under names. The bearer of a name takes the first value under it for his own, and
knows the values under all other names besides.

* `known_eq_all_iff` — he knows every value of the roster exactly if his name is `Covered`.
* `known_agree_iff` — two bearers know the same values exactly if both know all of them.
* `cons_others_perm` — where no name stands twice, he knows each value of the roster once.
* `mine` — the entries he takes for his own, and `length_others_add_mine` — the others he counts.
-/

import Mathlib.Data.Finset.Image

namespace Roster

variable {α β : Type} [DecidableEq α] {roster : List (α × β)} {a b : α} {v : β}

/-! ### What the bearer of a name knows -/

/-- The first value listed under the name. -/
def own (roster : List (α × β)) (a : α) : Option β := (roster.find? (·.1 = a)).map (·.2)

/-- The values listed under the other names. -/
def others (roster : List (α × β)) (a : α) : List β := (roster.filter (·.1 ≠ a)).map (·.2)

def known (roster : List (α × β)) (a : α) : List β := (own roster a).toList ++ others roster a

/-- **Every value under the name** is the first one, or stands under another name too. -/
def Covered (roster : List (α × β)) (a : α) : Prop :=
  ∀ v, (a, v) ∈ roster → own roster a = some v ∨ ∃ b, b ≠ a ∧ (b, v) ∈ roster

theorem covered_iff : Covered roster a ↔ ∀ entry ∈ roster, entry.1 = a →
    own roster a = some entry.2 ∨ ∃ other ∈ roster, other.1 ≠ a ∧ other.2 = entry.2 := by
  constructor
  · rintro covered ⟨_, v⟩ member rfl
    refine (covered v member).imp_right ?_
    rintro ⟨b, differ, listed⟩
    exact ⟨(b, v), listed, differ, rfl⟩
  · intro covered v listed
    refine (covered (a, v) listed rfl).imp_right ?_
    rintro ⟨⟨b, _⟩, member, differ, rfl⟩
    exact ⟨b, differ, member⟩

instance [DecidableEq β] : Decidable (Covered roster a) := decidable_of_iff' _ covered_iff

theorem mem_others : v ∈ others roster a ↔ ∃ b, b ≠ a ∧ (b, v) ∈ roster := by
  simp only [others, List.mem_map, List.mem_filter, decide_eq_true_eq, Prod.exists, exists_eq_right]
  exact exists_congr fun _ => and_comm

theorem mem_known : v ∈ known roster a ↔ own roster a = some v ∨ ∃ b, b ≠ a ∧ (b, v) ∈ roster := by
  rw [known, List.mem_append, Option.mem_toList, mem_others]

theorem listed_own (found : own roster a = some v) : (a, v) ∈ roster := by
  obtain ⟨⟨b, w⟩, first, rfl⟩ := Option.map_eq_some_iff.mp found
  have name := List.find?_some first
  rw [decide_eq_true_eq] at name
  rw [← name]
  exact List.mem_of_find?_eq_some first

theorem own_of_listed (listed : (a, v) ∈ roster) : ∃ w, own roster a = some w := by
  have some : (roster.find? (·.1 = a)).isSome := by
    rw [List.find?_isSome]
    exact ⟨(a, v), listed, decide_eq_true rfl⟩
  obtain ⟨entry, first⟩ := Option.isSome_iff_exists.mp some
  exact ⟨entry.2, by rw [own, first]; rfl⟩

theorem listed_of_known (knows : v ∈ known roster a) : ∃ b, (b, v) ∈ roster := by
  rcases mem_known.mp knows with first | ⟨b, _, listed⟩
  · exact ⟨a, listed_own first⟩
  · exact ⟨b, listed⟩

/-- **The bearer knows every value** exactly if his name is covered. -/
theorem known_eq_all_iff :
    (∀ v, v ∈ known roster a ↔ ∃ b, (b, v) ∈ roster) ↔ Covered roster a := by
  constructor
  · intro all v listed
    exact mem_known.mp ((all v).mpr ⟨a, listed⟩)
  · intro covered v
    refine ⟨listed_of_known, ?_⟩
    rintro ⟨b, listed⟩
    by_cases same : b = a
    · exact mem_known.mpr (covered v (same ▸ listed))
    · exact mem_known.mpr (.inr ⟨b, same, listed⟩)

/-- **Two bearers know the same values** exactly if each knows every value. -/
theorem known_agree_iff (differ : a ≠ b) :
    (∀ v, v ∈ known roster a ↔ v ∈ known roster b) ↔ Covered roster a ∧ Covered roster b := by
  constructor
  · intro same
    -- what stands under one of the two names, the other one knows
    refine ⟨fun v listed => mem_known.mp ((same v).mpr ?_), fun v listed => mem_known.mp ((same v).mp ?_)⟩
    · exact mem_known.mpr (.inr ⟨a, differ, listed⟩)
    · exact mem_known.mpr (.inr ⟨b, differ.symm, listed⟩)
  · rintro ⟨coveredA, coveredB⟩ v
    rw [known_eq_all_iff.mpr coveredA, known_eq_all_iff.mpr coveredB]

/-- Where no name stands twice, the value of a name and the others make up the roster. -/
theorem cons_others_perm (names : (roster.map (·.1)).Nodup) (listed : (a, v) ∈ roster) :
    (v :: others roster a).Perm (roster.map (·.2)) := by
  induction roster with
  | nil => cases listed
  | cons entry rest ih =>
    obtain ⟨fresh, distinct⟩ := List.nodup_cons.mp names
    have apart : ∀ other ∈ rest, other.1 ≠ entry.1 := fun other member same =>
      fresh (List.mem_map.mpr ⟨other, member, same⟩)
    rcases List.mem_cons.mp listed with rfl | listed
    · have others : ∀ other ∈ rest, decide (other.1 ≠ a) = true := fun other member =>
        decide_eq_true (apart other member)
      rw [Roster.others, List.filter_cons_of_neg (by simp), List.filter_eq_self.mpr others]
      exact List.Perm.refl _
    · have other : entry.1 ≠ a := (apart (a, v) listed).symm
      rw [Roster.others, List.filter_cons_of_pos (by simpa using other), List.map_cons, List.map_cons]
      exact (List.Perm.swap _ _ _).trans ((ih distinct listed).cons _)

/-! ### Values in the place of others -/

/-- The roster with other values. -/
def mapValues {γ : Type} (g : β → γ) (roster : List (α × β)) : List (α × γ) :=
  roster.map fun entry => (entry.1, g entry.2)

theorem own_mapValues {γ : Type} (g : β → γ) (roster : List (α × β)) (a : α) :
    own (mapValues g roster) a = (own roster a).map g := by
  rw [own, own, mapValues, List.find?_map, Option.map_map, Option.map_map]
  rfl

theorem others_mapValues {γ : Type} (g : β → γ) (roster : List (α × β)) (a : α) :
    others (mapValues g roster) a = (others roster a).map g := by
  rw [others, others, mapValues, List.filter_map, List.map_map, List.map_map]
  rfl

/-! ### How many others there are -/

/-- The entries that the bearer of a name takes for his own: those under the name, and those with the value
that he has. -/
def mine [DecidableEq β] (roster : List (α × β)) (a : α) : List (α × β) :=
  roster.filter fun entry => entry.1 = a ∨ own roster a = some entry.2

/-- The bearer counts all the other entries, each as often as it stands there. -/
theorem length_others_add_mine [DecidableEq β] (roster : List (α × β)) (a : α) :
    ((others roster a).filter fun v => own roster a ≠ some v).length + (mine roster a).length =
      roster.length := by
  have apart : (others roster a).filter (fun v => own roster a ≠ some v) =
      (roster.filter fun entry => !decide (entry.1 = a ∨ own roster a = some entry.2)).map (·.2) := by
    rw [others, List.filter_map, List.filter_filter]
    refine congrArg _ (List.filter_congr fun entry _ => ?_)
    simp only [Function.comp_apply, decide_not, Bool.not_or, Bool.decide_or, Bool.and_comm]
  rw [apart, List.length_map, mine, Nat.add_comm]
  exact (List.length_eq_length_filter_add _).symm

end Roster
