/-
**Finite maps in key order, as strictly sorted association lists.**

`OrdMap α β` is the mathematics of an ordered dictionary over a linear order: a list of entries
whose keys strictly increase (the field `sorted`, so an unordered map cannot be built).

* `mem_entries_iff` — an entry is in the list exactly when the lookup finds it; every other lookup
  law (`get?_insert`, `get?_erase`, `get?_filter`, `get?_mapValues`) is read off it.
* `eq_of_mem_iff` — two lists with strictly increasing keys and the same members are equal. This is
  how an ordered scan is compared with an ordered scan.
-/

import Mathlib.Tactic
import Mathlib.Data.List.Lex
import Mathlib.Data.List.Sort

/-- An ordered dictionary: the entries, in strictly increasing key order. -/
structure OrdMap (α β : Type) [LinearOrder α] where
  entries : List (α × β)
  sorted : entries.Pairwise fun a b => a.1 < b.1

namespace OrdMap

variable {α β γ : Type} [LinearOrder α]

instance [DecidableEq β] : DecidableEq (OrdMap α β) := fun first second =>
  decidable_of_iff (first.entries = second.entries) ⟨fun same => by
    cases first; cases second; simp only at same; subst same; rfl, fun same => by rw [same]⟩

/-- The empty dictionary. -/
def empty : OrdMap α β := ⟨[], List.Pairwise.nil⟩

/-- The value stored under a key. -/
def get? (m : OrdMap α β) (k : α) : Option β :=
  (m.entries.find? fun e => e.1 = k).map Prod.snd

/-- Store `v` under `k`, replacing what was there. -/
def insert (m : OrdMap α β) (k : α) (v : β) : OrdMap α β where
  entries := m.entries.filter (fun e => e.1 < k) ++ (k, v) :: m.entries.filter fun e => k < e.1
  sorted := by
    refine List.pairwise_append.mpr ⟨m.sorted.filter _, ?_, ?_⟩
    · refine List.pairwise_cons.mpr ⟨fun e member => ?_, m.sorted.filter _⟩
      simpa using (List.mem_filter.mp member).2
    · intro first below second above
      have low : first.1 < k := by simpa using (List.mem_filter.mp below).2
      rcases List.mem_cons.mp above with rfl | above
      · exact low
      · exact low.trans (by simpa using (List.mem_filter.mp above).2)

/-- Keep the entries whose key passes `p`. -/
def filter (m : OrdMap α β) (p : α → Bool) : OrdMap α β :=
  ⟨m.entries.filter fun e => p e.1, m.sorted.filter _⟩

/-- Remove a key. -/
def erase (m : OrdMap α β) (k : α) : OrdMap α β := m.filter fun key => key ≠ k

/-- Apply `f` to every value. -/
def mapValues (m : OrdMap α β) (f : β → γ) : OrdMap α γ :=
  ⟨m.entries.map fun e => (e.1, f e.2), List.pairwise_map.mpr m.sorted⟩

/-- No key is stored. -/
def isEmpty (m : OrdMap α β) : Bool := m.entries.isEmpty

/-! ### Membership and lookup -/

theorem nodup_keys (m : OrdMap α β) : (m.entries.map Prod.fst).Nodup :=
  List.pairwise_map.mpr (m.sorted.imp fun less => less.ne)

theorem nodup_entries (m : OrdMap α β) : m.entries.Nodup := m.nodup_keys.of_map _

/-- Two entries of a dictionary under one key are one entry. -/
theorem eq_of_mem {m : OrdMap α β} {k : α} {v w : β} (first : (k, v) ∈ m.entries)
    (second : (k, w) ∈ m.entries) : v = w :=
  congrArg Prod.snd (List.inj_on_of_nodup_map m.nodup_keys first second rfl)

/-- **Lookup is membership.** -/
theorem mem_entries_iff {m : OrdMap α β} {k : α} {v : β} :
    (k, v) ∈ m.entries ↔ m.get? k = some v := by
  constructor
  · intro member
    unfold get?
    cases found : m.entries.find? fun e => e.1 = k with
    | none => exact absurd (List.find?_eq_none.mp found _ member) (by simp)
    | some e =>
      obtain ⟨key, value⟩ := e
      have same : key = k := by simpa using List.find?_some found
      subst same
      exact congrArg some (eq_of_mem (List.mem_of_find?_eq_some found) member)
  · intro found
    unfold get? at found
    obtain ⟨⟨key, value⟩, hit, rfl⟩ := Option.map_eq_some_iff.mp found
    have same : key = k := by simpa using List.find?_some hit
    subst same
    exact List.mem_of_find?_eq_some hit

/-- A lookup is determined by the entries it would find. -/
theorem get?_eq_iff {m : OrdMap α β} {k : α} {o : Option β} :
    m.get? k = o ↔ ∀ v, (k, v) ∈ m.entries ↔ o = some v := by
  constructor
  · rintro rfl v
    exact mem_entries_iff
  · intro same
    refine Option.ext fun v => ?_
    rw [← mem_entries_iff, same]

@[simp] theorem get?_empty (k : α) : (empty : OrdMap α β).get? k = none := rfl

@[simp] theorem entries_empty : (empty : OrdMap α β).entries = [] := rfl

theorem get?_insert (m : OrdMap α β) (k key : α) (v : β) :
    (m.insert k v).get? key = if key = k then some v else m.get? key := by
  rw [get?_eq_iff]
  intro w
  simp only [insert, List.mem_append, List.mem_filter, List.mem_cons, Prod.mk.injEq,
    decide_eq_true_eq]
  by_cases same : key = k
  · subst same
    rw [if_pos rfl]
    simp [eq_comm]
  · rw [if_neg same, ← mem_entries_iff]
    have apart := lt_or_gt_of_ne same
    simp only [same, false_and, false_or]
    exact ⟨fun member => member.elim And.left And.left,
      fun member => apart.imp (fun less => ⟨member, less⟩) fun less => ⟨member, less⟩⟩

@[simp] theorem get?_insert_self (m : OrdMap α β) (k : α) (v : β) :
    (m.insert k v).get? k = some v := by
  rw [get?_insert, if_pos rfl]

theorem get?_filter (m : OrdMap α β) (p : α → Bool) (k : α) :
    (m.filter p).get? k = if p k then m.get? k else none := by
  rw [get?_eq_iff]
  intro v
  simp only [filter, List.mem_filter]
  by_cases keep : p k = true
  · rw [if_pos keep, mem_entries_iff]
    exact and_iff_left keep
  · rw [if_neg keep]
    exact ⟨fun member => absurd member.2 keep, fun absent => by cases absent⟩

theorem get?_erase (m : OrdMap α β) (k key : α) :
    (m.erase k).get? key = if key = k then none else m.get? key := by
  unfold erase
  rw [get?_filter]
  by_cases same : key = k <;> simp [same]

theorem get?_mapValues (m : OrdMap α β) (f : β → γ) (k : α) :
    (m.mapValues f).get? k = (m.get? k).map f := by
  rw [get?_eq_iff]
  intro w
  simp only [mapValues, List.mem_map, Prod.mk.injEq, Prod.exists, Option.map_eq_some_iff]
  constructor
  · rintro ⟨key, v, member, rfl, rfl⟩
    exact ⟨v, mem_entries_iff.mp member, rfl⟩
  · rintro ⟨v, found, rfl⟩
    exact ⟨k, v, mem_entries_iff.mpr found, rfl, rfl⟩

/-! ### The empty dictionary -/

theorem isEmpty_iff {m : OrdMap α β} : m.isEmpty = true ↔ m.entries = [] := List.isEmpty_iff

/-- A dictionary is empty when no lookup finds anything. -/
theorem isEmpty_iff_get? {m : OrdMap α β} : m.isEmpty = true ↔ ∀ k, m.get? k = none := by
  rw [isEmpty_iff, List.eq_nil_iff_forall_not_mem]
  constructor
  · intro none k
    by_contra some
    obtain ⟨v, found⟩ := Option.ne_none_iff_exists'.mp some
    exact none (k, v) (mem_entries_iff.mpr found)
  · rintro none ⟨k, v⟩ member
    rw [mem_entries_iff, none k] at member
    cases member

@[simp] theorem isEmpty_empty : (empty : OrdMap α β).isEmpty = true := rfl

@[simp] theorem isEmpty_insert (m : OrdMap α β) (k : α) (v : β) : (m.insert k v).isEmpty = false := by
  rw [← Bool.not_eq_true, isEmpty_iff_get?]
  intro none
  simpa using none k

@[simp] theorem isEmpty_mapValues (m : OrdMap α β) (f : β → γ) : (m.mapValues f).isEmpty = m.isEmpty :=
  List.isEmpty_map

/-! ### Comparing ordered scans -/

/-- **Two lists with strictly increasing keys and the same members are equal.** -/
theorem eq_of_mem_iff (key : γ → α) {first second : List γ}
    (ascending : first.Pairwise fun a b => key a < key b)
    (ascending' : second.Pairwise fun a b => key a < key b)
    (same : ∀ x, x ∈ first ↔ x ∈ second) : first = second := by
  have nodup : first.Nodup := ascending.imp fun less same => absurd (congrArg key same) less.ne
  have nodup' : second.Nodup := ascending'.imp fun less same => absurd (congrArg key same) less.ne
  exact List.Perm.eq_of_pairwise (fun a b _ _ one two => absurd one (not_lt.mpr two.le))
    ascending ascending' ((List.perm_ext_iff_of_nodup nodup nodup').mpr same)

/-- Two dictionaries with the same lookups are equal. -/
theorem ext_get? {m n : OrdMap α β} (same : ∀ k, m.get? k = n.get? k) : m = n := by
  have entries : m.entries = n.entries := eq_of_mem_iff Prod.fst m.sorted n.sorted
    fun ⟨k, v⟩ => by rw [mem_entries_iff, mem_entries_iff, same]
  cases m
  cases n
  simp only at entries
  subst entries
  rfl

/-- Dictionaries whose values name their keys are equal when their values are, in order. -/
theorem ext_values {m n : OrdMap α β} (name : β → α)
    (named : ∀ k v, m.get? k = some v → name v = k) (named' : ∀ k v, n.get? k = some v → name v = k)
    (same : m.entries.map Prod.snd = n.entries.map Prod.snd) : m = n := by
  have rebuild : ∀ o : OrdMap α β, (∀ k v, o.get? k = some v → name v = k) →
      o.entries = (o.entries.map Prod.snd).map fun v => (name v, v) := by
    intro o named
    rw [List.map_map]
    refine (List.map_id o.entries).symm.trans (List.map_congr_left ?_)
    rintro ⟨k, v⟩ member
    simp only [id_eq, Function.comp_apply, named k v (mem_entries_iff.mp member)]
  refine ext_get? fun k => get?_eq_iff.mpr fun v => ?_
  rw [← mem_entries_iff, rebuild m named, rebuild n named', same]

/-- Erasing keys is dropping their entries. -/
theorem entries_foldl_erase (keys : List α) (m : OrdMap α β) :
    (keys.foldl erase m).entries = m.entries.filter fun e => e.1 ∉ keys := by
  induction keys generalizing m with
  | nil => simp
  | cons first rest ih =>
    rw [List.foldl_cons, ih, erase, filter, List.filter_filter]
    refine List.filter_congr fun e _ => ?_
    by_cases same : e.1 = first <;> simp [same]

theorem erase_of_absent {m : OrdMap α β} {k : α} (absent : m.get? k = none) : m.erase k = m := by
  refine ext_get? fun key => ?_
  rw [get?_erase]
  split
  · subst k
    exact absent.symm
  · rfl

/-- The entries after an insertion, in some order. -/
theorem entries_insert_perm (m : OrdMap α β) (k : α) (v : β) :
    (m.insert k v).entries.Perm ((k, v) :: (m.erase k).entries) := by
  have fresh : (k, v) ∉ (m.erase k).entries := by
    rw [mem_entries_iff, get?_erase, if_pos rfl]
    exact nofun
  have nodup : ((k, v) :: (m.erase k).entries).Nodup :=
    List.nodup_cons.mpr ⟨fresh, nodup_entries _⟩
  refine (List.perm_ext_iff_of_nodup (nodup_entries _) nodup).mpr ?_
  rintro ⟨key, value⟩
  rw [List.mem_cons, mem_entries_iff, mem_entries_iff, get?_insert, get?_erase]
  by_cases same : key = k
  · rw [if_pos same, if_pos same, same]
    simp [eq_comm]
  · rw [if_neg same, if_neg same]
    simp [same]

/-- The entries of a dictionary that has the key, in some order. -/
theorem entries_perm {m : OrdMap α β} {k : α} {v : β} (found : m.get? k = some v) :
    m.entries.Perm ((k, v) :: (m.erase k).entries) := by
  have same : m.insert k v = m := by
    refine ext_get? fun key => ?_
    rw [get?_insert]
    split
    · subst k
      exact found.symm
    · rfl
  have split := entries_insert_perm m k v
  rwa [same] at split

/-- A key above all others is inserted at the end. -/
theorem entries_insert_above {m : OrdMap α β} {k : α} (above : ∀ e ∈ m.entries, e.1 < k) (v : β) :
    (m.insert k v).entries = m.entries ++ [(k, v)] := by
  have below : m.entries.filter (fun e => e.1 < k) = m.entries :=
    List.filter_eq_self.mpr fun e member => by simpa using above e member
  have none : m.entries.filter (fun e => k < e.1) = [] :=
    List.filter_eq_nil_iff.mpr fun e member => by simpa using (above e member).le
  simp only [insert, below, none]

theorem entries_foldl_insert {entries : List (α × β)} {m : OrdMap α β}
    (sorted : (m.entries ++ entries).Pairwise fun a b => a.1 < b.1) :
    (entries.foldl (fun n e => n.insert e.1 e.2) m).entries = m.entries ++ entries := by
  induction entries generalizing m with
  | nil => rw [List.foldl_nil, List.append_nil]
  | cons e entries ih =>
    have above : ∀ old ∈ m.entries, old.1 < e.1 :=
      fun old member => (List.pairwise_append.mp sorted).2.2 old member e List.mem_cons_self
    have inserted := entries_insert_above above e.2
    rw [List.foldl_cons, ih, inserted, List.append_assoc, List.singleton_append]
    rw [inserted, List.append_assoc, List.singleton_append]
    exact sorted

/-- **A dictionary is what the insertion of its entries gives.** -/
theorem foldl_insert_entries (m : OrdMap α β) :
    m.entries.foldl (fun n e => n.insert e.1 e.2) .empty = m := by
  have same := entries_foldl_insert (m := (empty : OrdMap α β)) m.sorted
  rw [entries_empty, List.nil_append] at same
  exact ext_get? fun k => by rw [get?, same, get?]

end OrdMap
