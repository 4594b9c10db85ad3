/-
**The storage backend** (`storage/backend.rs`).

Six sled trees, each an ordered map of byte strings whose operations do not fail. `compact` removes
from `kv_rev` what is below a revision: it walks the tree in key order, reads the revision from the
first eight bytes of each key, and stops at the first one that is not below.

* `get_put`, `get_delete` — a write is seen under its own tree and key only.
* `get_compact` — `compact` leaves every other tree alone and keeps every `kv_rev` record that is
  not below the revision.
-/

import Rusd.Lib.OrdMap
import Rusd.Lib.Bytes

namespace Rusd

/-- The trees of the backend. -/
inductive TreeName
  | kv
  | kvRev
  | index
  | metadata
  | lease
  | auth
  deriving DecidableEq, Repr

/-- The contents of the six trees. -/
structure Backend where
  tree : TreeName → OrdMap Bytes Bytes

namespace Backend

/-- A freshly opened database. -/
def empty : Backend := ⟨fun _ => .empty⟩

def get (b : Backend) (name : TreeName) (key : Bytes) : Option Bytes := (b.tree name).get? key

/-- Replace one tree. -/
def setTree (b : Backend) (name : TreeName) (contents : OrdMap Bytes Bytes) : Backend :=
  ⟨fun other => if other = name then contents else b.tree other⟩

def put (b : Backend) (name : TreeName) (key value : Bytes) : Backend :=
  b.setTree name ((b.tree name).insert key value)

def delete (b : Backend) (name : TreeName) (key : Bytes) : Backend :=
  b.setTree name ((b.tree name).erase key)

/-- The keys `compact` puts in its batch, in the order of its walk. -/
def compactBatch (revision : Int) : List (Bytes × Bytes) → List Bytes
  | [] => []
  | (k, _) :: rest =>
    if 8 ≤ k.length then
      if i64OfBe (k.take 8) < revision then k :: compactBatch revision rest
      else []
    else compactBatch revision rest

def compact (b : Backend) (revision : Int) : Backend :=
  b.setTree .kvRev
    ((compactBatch revision (b.tree .kvRev).entries).foldl OrdMap.erase (b.tree .kvRev))

/-! ### Lookups -/

@[simp] theorem get_empty (name : TreeName) (key : Bytes) : empty.get name key = none := rfl

theorem get_setTree (b : Backend) (name other : TreeName) (contents : OrdMap Bytes Bytes)
    (key : Bytes) :
    (b.setTree name contents).get other key =
      if other = name then contents.get? key else b.get other key := by
  unfold get setTree
  by_cases same : other = name <;> simp [same]

theorem get_put (b : Backend) (name other : TreeName) (key key' value : Bytes) :
    (b.put name key value).get other key' =
      if other = name ∧ key' = key then some value else b.get other key' := by
  rw [put, get_setTree]
  by_cases same : other = name
  · subst same
    simp [OrdMap.get?_insert, get]
  · rw [if_neg same, if_neg (fun both => same both.1)]

theorem get_delete (b : Backend) (name other : TreeName) (key key' : Bytes) :
    (b.delete name key).get other key' =
      if other = name ∧ key' = key then none else b.get other key' := by
  rw [delete, get_setTree]
  by_cases same : other = name
  · subst same
    simp [OrdMap.get?_erase, get]
  · rw [if_neg same, if_neg (fun both => same both.1)]

/-! ### Compaction -/

/-- Everything in the batch is below the revision. -/
theorem below_of_mem_compactBatch {revision : Int} {entries : List (Bytes × Bytes)} {key : Bytes}
    (member : key ∈ compactBatch revision entries) : i64OfBe (key.take 8) < revision := by
  induction entries with
  | nil => cases member
  | cons entry rest ih =>
    rw [compactBatch] at member
    split_ifs at member with long below
    · rcases List.mem_cons.mp member with rfl | later
      · exact below
      · exact ih later
    · cases member
    · exact ih member

/-- The walk stops at the first key that is not below the revision; in a tree ordered by revision it
misses none. -/
theorem mem_compactBatch_iff {revision : Int} {entries : List (Bytes × Bytes)}
    (long : ∀ e ∈ entries, 8 ≤ e.1.length)
    (ordered : entries.Pairwise fun a b => i64OfBe (a.1.take 8) ≤ i64OfBe (b.1.take 8)) {key : Bytes} :
    key ∈ compactBatch revision entries ↔
      key ∈ entries.map Prod.fst ∧ i64OfBe (key.take 8) < revision := by
  induction entries with
  | nil => simp [compactBatch]
  | cons entry rest ih =>
    obtain ⟨above, ordered⟩ := List.pairwise_cons.mp ordered
    have tail := ih (fun e member => long e (List.mem_cons_of_mem _ member)) ordered
    rw [compactBatch, if_pos (long entry List.mem_cons_self), List.map_cons]
    by_cases below : i64OfBe (entry.1.take 8) < revision
    · rw [if_pos below, List.mem_cons, List.mem_cons, tail]
      constructor
      · rintro (rfl | ⟨member, low⟩)
        · exact ⟨.inl rfl, below⟩
        · exact ⟨.inr member, low⟩
      · rintro ⟨rfl | member, low⟩
        · exact .inl rfl
        · exact .inr ⟨member, low⟩
    · rw [if_neg below]
      refine ⟨fun member => absurd member List.not_mem_nil, ?_⟩
      rintro ⟨member, low⟩
      rcases List.mem_cons.mp member with rfl | member
      · exact absurd low below
      · obtain ⟨e, listed, rfl⟩ := List.mem_map.mp member
        exact absurd ((above e listed).trans_lt low) below

/-- **Compaction of a tree ordered by revision** drops exactly what is below the revision. -/
theorem entries_compact (b : Backend) {revision : Int}
    (long : ∀ e ∈ (b.tree .kvRev).entries, 8 ≤ e.1.length)
    (ordered : (b.tree .kvRev).entries.Pairwise fun x y => i64OfBe (x.1.take 8) ≤ i64OfBe (y.1.take 8)) :
    ((b.compact revision).tree .kvRev).entries =
      (b.tree .kvRev).entries.filter fun e => revision ≤ i64OfBe (e.1.take 8) := by
  have erased : (b.compact revision).tree .kvRev =
      (compactBatch revision (b.tree .kvRev).entries).foldl OrdMap.erase (b.tree .kvRev) := by
    simp [compact, setTree]
  rw [erased, OrdMap.entries_foldl_erase]
  refine List.filter_congr fun e member => ?_
  have listed : e.1 ∈ (b.tree .kvRev).entries.map Prod.fst := List.mem_map_of_mem member
  have inBatch : e.1 ∈ compactBatch revision (b.tree .kvRev).entries ↔ _ :=
    mem_compactBatch_iff long ordered
  rw [decide_eq_decide, inBatch]
  constructor
  · intro outside
    exact not_lt.mp fun below => outside ⟨listed, below⟩
  · rintro kept ⟨-, below⟩
    exact absurd below (not_lt.mpr kept)

theorem get?_foldl_erase (keys : List Bytes) (m : OrdMap Bytes Bytes) (key : Bytes) :
    (keys.foldl OrdMap.erase m).get? key = if key ∈ keys then none else m.get? key := by
  induction keys generalizing m with
  | nil => simp
  | cons first rest ih =>
    rw [List.foldl_cons, ih, OrdMap.get?_erase]
    by_cases inRest : key ∈ rest
    · rw [if_pos inRest, if_pos (List.mem_cons_of_mem _ inRest)]
    · rw [if_neg inRest]
      by_cases same : key = first <;> simp [same, inRest]

/-- Compaction touches the `kv_rev` tree only. -/
theorem get_compact_other (b : Backend) (revision : Int) {name : TreeName} (other : name ≠ .kvRev)
    (key : Bytes) : (b.compact revision).get name key = b.get name key := by
  rw [compact, get_setTree, if_neg other]

/-- What is there after a compaction was there before. -/
theorem get_of_get_compact {b : Backend} {revision : Int} {name : TreeName} {key value : Bytes}
    (found : (b.compact revision).get name key = some value) : b.get name key = some value := by
  by_cases other : name = .kvRev
  · subst other
    rw [compact, get_setTree, if_pos rfl, get?_foldl_erase] at found
    split_ifs at found
    exact found
  · rwa [b.get_compact_other revision other] at found

/-- A record that is not below the revision stays. -/
theorem get_compact (b : Backend) {revision : Int} {key : Bytes}
    (kept : revision ≤ i64OfBe (key.take 8)) :
    (b.compact revision).get .kvRev key = b.get .kvRev key := by
  rw [compact, get_setTree, if_pos rfl, get?_foldl_erase, if_neg]
  · rfl
  · intro member
    exact absurd (below_of_mem_compactBatch member) (not_lt.mpr kept)

end Backend

end Rusd
