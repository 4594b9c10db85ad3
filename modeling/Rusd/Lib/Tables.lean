/-
**Tables.**

A table is a function into `Option`; `Function.update` writes or removes an entry. What is found
afterwards was found before, or is what was written. `tableOf` writes a list of entries one after another;
where no key stands twice, the table has exactly these entries (`tableOf_eq_some_iff`).
-/

import Mathlib.Logic.Function.Basic
import Mathlib.Tactic.Common

variable {κ β : Type} [DecidableEq κ] {table : κ → Option β} {key other : κ} {value found : β}

/-- What is found after a write. -/
theorem update_eq_some_iff : Function.update table key (some value) other = some found ↔
    other = key ∧ found = value ∨ other ≠ key ∧ table other = some found := by
  rw [Function.update_apply]
  split_ifs with it
  · rw [Option.some.injEq]
    exact ⟨fun same => Or.inl ⟨it, same.symm⟩, fun either => either.elim (fun same => same.2.symm)
      fun old => absurd it old.1⟩
  · exact ⟨fun old => Or.inr ⟨it, old⟩, fun either => either.elim (fun same => absurd same.1 it)
      fun old => old.2⟩

/-- What is found after a removal. -/
theorem update_none_eq_some_iff : Function.update table key none other = some found ↔
    other ≠ key ∧ table other = some found := by
  rw [Function.update_apply]
  split_ifs with it
  · exact ⟨(fun none => by cases none), fun old => absurd it old.1⟩
  · exact ⟨fun old => ⟨it, old⟩, fun old => old.2⟩

/-- A write takes nothing away. -/
theorem isSome_update (there : (table other).isSome) :
    (Function.update table key (some value) other).isSome := by
  rw [Function.update_apply]
  split_ifs
  · rfl
  · exact there

/-- A removal leaves the other entries. -/
theorem isSome_update_none (differs : other ≠ key) :
    (Function.update table key none other).isSome = (table other).isSome := by
  rw [Function.update_of_ne differs]

/-- The table after writing the entries, one after another. -/
def writeAll (table : κ → Option β) (entries : List (κ × β)) : κ → Option β :=
  entries.foldl (fun (table : κ → Option β) entry => Function.update table entry.1 (some entry.2)) table

/-- The table of the entries. -/
def tableOf (entries : List (κ × β)) : κ → Option β := writeAll (fun _ => none) entries

theorem writeAll_eq_some_iff {entries : List (κ × β)} (keys : (entries.map Prod.fst).Nodup) :
    ∀ {table : κ → Option β}, writeAll table entries key = some value ↔
      (key, value) ∈ entries ∨ key ∉ entries.map Prod.fst ∧ table key = some value := by
  induction entries with
  | nil =>
    intro table
    exact ⟨fun found => .inr ⟨List.not_mem_nil, found⟩,
      fun either => (either.resolve_left List.not_mem_nil).2⟩
  | cons entry rest ih =>
    intro table
    obtain ⟨fresh, keys⟩ := List.nodup_cons.mp keys
    have one : writeAll table (entry :: rest) =
        writeAll (Function.update table entry.1 (some entry.2)) rest := rfl
    rw [one, ih keys, update_eq_some_iff, List.map_cons, List.mem_cons, List.mem_cons, not_or]
    constructor
    · rintro (listed | ⟨absent, ⟨rfl, rfl⟩ | ⟨differs, found⟩⟩)
      · exact .inl (.inr listed)
      · exact .inl (.inl rfl)
      · exact .inr ⟨⟨differs, absent⟩, found⟩
    · rintro ((same | listed) | ⟨⟨differs, absent⟩, found⟩)
      · subst same
        exact .inr ⟨fresh, .inl ⟨rfl, rfl⟩⟩
      · exact .inl listed
      · exact .inr ⟨absent, .inr ⟨differs, found⟩⟩

/-- **A table of entries with distinct keys.** -/
theorem tableOf_eq_some_iff {entries : List (κ × β)} (keys : (entries.map Prod.fst).Nodup) :
    tableOf entries key = some value ↔ (key, value) ∈ entries := by
  rw [tableOf, writeAll_eq_some_iff keys]
  exact or_iff_left fun old => by cases old.2

/-- The order of the entries does not matter. -/
theorem tableOf_perm {entries entries' : List (κ × β)} (keys : (entries.map Prod.fst).Nodup)
    (perm : entries.Perm entries') : tableOf entries = tableOf entries' := by
  funext key
  refine Option.ext fun value => ?_
  rw [tableOf_eq_some_iff keys, tableOf_eq_some_iff ((perm.map Prod.fst).nodup_iff.mp keys), perm.mem_iff]
