/-
**The key index as a versioned map.**

Puts and tombstones come in any order, on any keys, as long as the main revisions of one key ascend. A
lookup at `r` then answers from the last call on the key up to `r`.

* `lastCall` — that call.
* `Follows` — the histories follow the calls: each is well formed below the next revision of its key, and
  a generation lists its creation.
* `alive_once` — the lives of a key do not overlap.
* `versioned_lookup` — `get`, the generations, and `range`, after any calls.
-/

import Rusd.Storage.Index

namespace Rusd

/-- A call that changes the index. -/
inductive IndexCall
  | put (key : Bytes) (revision : Revision)
  | tombstone (key : Bytes) (revision : Revision)
  deriving DecidableEq, Repr

namespace IndexCall

def key : IndexCall → Bytes
  | put key _ | tombstone key _ => key

def revision : IndexCall → Revision
  | put _ revision | tombstone _ revision => revision

/-- What a lookup finds that the call answers. -/
def visible : IndexCall → Option Revision
  | put _ revision => some revision
  | tombstone .. => none

/-- What the call does to the history of its key. -/
def apply : IndexCall → KeyIndexEntry → KeyIndexEntry
  | put _ revision, entry => entry.put revision
  | tombstone _ revision, entry => entry.tombstone revision

end IndexCall

/-- The main revisions of the calls on one key ascend. -/
def Increasing (calls : List IndexCall) : Prop :=
  calls.Pairwise fun earlier later =>
    earlier.key = later.key → earlier.revision.main < later.revision.main

instance (calls : List IndexCall) : Decidable (Increasing calls) :=
  inferInstanceAs (Decidable (List.Pairwise _ calls))

/-- The last call on a key up to `r`. -/
def lastCall (calls : List IndexCall) (key : Bytes) (r : Int) : Option IndexCall :=
  calls.reverse.find? fun call => call.key = key ∧ call.revision.main ≤ r

theorem lastCall_concat (calls : List IndexCall) (call : IndexCall) (key : Bytes) (r : Int) :
    lastCall (calls ++ [call]) key r =
      if call.key = key ∧ call.revision.main ≤ r then some call else lastCall calls key r := by
  unfold lastCall
  rw [List.reverse_append, List.reverse_singleton, List.singleton_append]
  split_ifs with answers
  · exact List.find?_cons_of_pos (decide_eq_true answers)
  · exact List.find?_cons_of_neg (by rwa [decide_eq_true_eq])

namespace KeyIndex

def perform (index : KeyIndex) : IndexCall → KeyIndex
  | .put key revision => index.put key revision
  | .tombstone key revision => index.tombstone key revision

/-- The index after some calls, one after another. -/
def performAll (index : KeyIndex) (calls : List IndexCall) : KeyIndex := calls.foldl perform index

/-- The history of a key; it is empty for a key without an entry. -/
def history (index : KeyIndex) (key : Bytes) : KeyIndexEntry := (index.tree.get? key).getD .new

theorem performAll_concat (index : KeyIndex) (calls : List IndexCall) (call : IndexCall) :
    index.performAll (calls ++ [call]) = (index.performAll calls).perform call :=
  List.foldl_append ..

theorem history_perform (index : KeyIndex) (call : IndexCall) (key : Bytes) :
    (index.perform call).history key =
      if call.key = key then call.apply (index.history key) else index.history key := by
  have written : (index.perform call).tree =
      index.tree.insert call.key (call.apply (index.history call.key)) := by
    cases call with
    | put key revision => rfl
    | tombstone key revision => rfl
  unfold history
  rw [written, OrdMap.get?_insert]
  by_cases same : key = call.key
  · subst same
    rw [if_pos rfl, if_pos rfl, Option.getD_some]
    rfl
  · rw [if_neg same, if_neg (Ne.symm same)]

end KeyIndex

/-! ### One call on one history -/

namespace KeyIndexEntry

/-- Every generation lists the revision that created it. -/
def Founded (entry : KeyIndexEntry) : Prop := ∀ gen ∈ entry.generations, gen.created ∈ gen.revisions

theorem founded_concat {init : List Generation} {gen : Generation}
    (founded : ∀ g ∈ init, g.created ∈ g.revisions) (last : gen.created ∈ gen.revisions) :
    Founded ⟨init ++ [gen]⟩ := by
  intro g member
  rcases List.mem_append.mp member with before | here
  · exact founded g before
  · rw [List.mem_singleton.mp here]
    exact last

theorem Founded.put {entry : KeyIndexEntry} (founded : entry.Founded) (rev : Revision) :
    (entry.put rev).Founded := by
  rcases entry.eq_new_or_concat with rfl | ⟨init, last, rfl⟩
  · exact founded_concat (fun _ member => absurd member List.not_mem_nil) List.mem_cons_self
  · by_cases dead : last.deleted.isSome
    · rw [put_dead init rev dead]
      exact founded_concat founded List.mem_cons_self
    · rw [put_alive init rev (Option.not_isSome_iff_eq_none.mp dead)]
      refine founded_concat (fun g member => founded g (List.mem_append_left _ member)) ?_
      exact List.mem_append_left _ (founded last (List.mem_append_right _ (List.mem_singleton_self _)))

theorem Founded.tombstone {entry : KeyIndexEntry} (founded : entry.Founded) (rev : Revision) :
    (entry.tombstone rev).Founded := by
  rcases entry.eq_new_or_concat with rfl | ⟨init, last, rfl⟩
  · exact founded_concat (fun _ member => absurd member List.not_mem_nil) List.mem_cons_self
  · by_cases dead : last.deleted.isSome
    · rwa [tombstone_dead init rev dead]
    · rw [tombstone_alive init rev (Option.not_isSome_iff_eq_none.mp dead)]
      refine founded_concat (fun g member => founded g (List.mem_append_left _ member)) ?_
      exact founded last (List.mem_append_right _ (List.mem_singleton_self _))

/-- Two generations of one history are not alive together: the earlier one was deleted before the later
one was created. -/
theorem pairwise_apart {bound : Int} {entry : KeyIndexEntry} (ok : EntryOk bound entry)
    (founded : entry.Founded) (r : Int) :
    entry.generations.Pairwise fun gen later => ¬ (gen.aliveAt r = true ∧ later.aliveAt r = true) := by
  rcases entry.eq_new_or_concat with rfl | ⟨init, last, rfl⟩
  · exact List.Pairwise.nil
  have ended : ∀ gen ∈ init, gen.deleted.isSome := by simpa using ok.ended
  have apart : ∀ gen ∈ init, ∀ later ∈ init ++ [last],
      (∀ del, gen.deleted = some del → ∀ rev ∈ later.revisions, del.main < rev.main) →
      ¬ (gen.aliveAt r = true ∧ later.aliveAt r = true) := by
    rintro gen isIn later isIn' before ⟨alive, alive'⟩
    obtain ⟨del, isDel⟩ := Option.isSome_iff_exists.mp (ended gen isIn)
    have order := before del isDel later.created (founded later isIn')
    unfold Generation.aliveAt at alive alive'
    rw [isDel, Option.all_some, Bool.and_eq_true, decide_eq_true_eq, decide_eq_true_eq] at alive
    rw [Bool.and_eq_true, decide_eq_true_eq] at alive'
    omega
  obtain ⟨first, _, cross⟩ := List.pairwise_append.mp ok.ordered
  refine List.pairwise_append.mpr ⟨?_, List.pairwise_singleton _ _, ?_⟩
  · refine first.imp_of_mem fun {gen later} isIn isIn' before => ?_
    exact apart gen isIn later (List.mem_append_left _ isIn') before
  · intro gen isIn later isLast
    exact apart gen isIn later (List.mem_append_right _ isLast) (cross gen isIn later isLast)

/-- **At most one generation is alive at a time.** -/
theorem alive_once {bound : Int} {entry : KeyIndexEntry} (ok : EntryOk bound entry)
    (founded : entry.Founded) (r : Int) :
    (entry.generations.filter fun gen => gen.aliveAt r).length ≤ 1 := by
  have apart := (pairwise_apart ok founded r).filter fun gen => gen.aliveAt r
  rcases alive : entry.generations.filter fun gen => gen.aliveAt r with _ | ⟨gen, _ | ⟨later, rest⟩⟩
  · rw [alive]
    exact Nat.zero_le 1
  · rw [alive]
    exact le_rfl
  · have lives : ∀ g ∈ gen :: later :: rest, g.aliveAt r = true := by
      intro g member
      rw [← alive] at member
      exact (List.mem_filter.mp member).2
    rw [alive] at apart
    have both := List.rel_of_pairwise_cons apart List.mem_cons_self
    exact absurd ⟨lives gen List.mem_cons_self, lives later (List.mem_cons_of_mem _ List.mem_cons_self)⟩
      both

end KeyIndexEntry

namespace IndexCall

variable {bound : Int} {entry : KeyIndexEntry}

theorem ok_apply (call : IndexCall) (ok : EntryOk bound entry) (above : bound < call.revision.main) :
    EntryOk call.revision.main (call.apply entry) := by
  cases call with
  | put key revision => exact ok.put above
  | tombstone key revision => exact ok.tombstone above

theorem founded_apply (call : IndexCall) (founded : entry.Founded) : (call.apply entry).Founded := by
  cases call with
  | put key revision => exact founded.put revision
  | tombstone key revision => exact founded.tombstone revision

/-- A call answers the lookups from its revision on. -/
theorem revisionAt_apply (call : IndexCall) (ok : EntryOk bound entry)
    (above : bound < call.revision.main) (r : Int) :
    (call.apply entry).revisionAt r =
      if call.revision.main ≤ r then call.visible else entry.revisionAt r := by
  cases call with
  | put key revision => exact KeyIndexEntry.revisionAt_put ok above r
  | tombstone key revision => exact KeyIndexEntry.revisionAt_tombstone ok above r

end IndexCall

/-! ### All calls -/

/-- The index follows the calls. -/
structure Follows (calls : List IndexCall) (index : KeyIndex) : Prop where
  ok : ∀ key bound, (∀ call ∈ calls, call.key = key → call.revision.main ≤ bound) →
    EntryOk bound (index.history key)
  founded : ∀ key, (index.history key).Founded
  lookup : ∀ key r, (index.history key).revisionAt r = (lastCall calls key r).bind IndexCall.visible

namespace Follows

theorem new : Follows [] .new where
  ok _ bound _ := EntryOk.new bound
  founded _ _ member := by cases member
  lookup _ _ := rfl

/-- One more call; it comes after the calls on its key. -/
theorem perform {calls : List IndexCall} {index : KeyIndex} (follows : Follows calls index)
    {call : IndexCall}
    (after : ∀ earlier ∈ calls, earlier.key = call.key → earlier.revision.main < call.revision.main) :
    Follows (calls ++ [call]) (index.perform call) := by
  have before : EntryOk (call.revision.main - 1) (index.history call.key) := by
    refine follows.ok call.key _ fun earlier member same => ?_
    have less := after earlier member same
    omega
  have above : call.revision.main - 1 < call.revision.main := by omega
  refine ⟨fun key bound bounded => ?_, fun key => ?_, fun key r => ?_⟩
  · rw [KeyIndex.history_perform]
    split_ifs with same
    · rw [← same]
      have here := bounded call (List.mem_append_right _ (List.mem_singleton_self _)) same
      exact (call.ok_apply before above).mono here
    · exact follows.ok key bound fun earlier member => bounded earlier (List.mem_append_left _ member)
  · rw [KeyIndex.history_perform]
    split_ifs
    · exact call.founded_apply (follows.founded key)
    · exact follows.founded key
  · rw [KeyIndex.history_perform, lastCall_concat]
    by_cases same : call.key = key
    · subst same
      rw [if_pos rfl, call.revisionAt_apply before above r]
      by_cases visible : call.revision.main ≤ r
      · rw [if_pos visible, if_pos ⟨rfl, visible⟩, Option.bind_some]
      · rw [if_neg visible, if_neg (fun both => visible both.2)]
        exact follows.lookup call.key r
    · rw [if_neg same, if_neg (fun both => same both.1)]
      exact follows.lookup key r

end Follows

theorem follows_performAll {calls : List IndexCall} (increasing : Increasing calls) :
    Follows calls (KeyIndex.new.performAll calls) := by
  induction calls using List.reverseRecOn with
  | nil => exact Follows.new
  | append_singleton calls call ih =>
    obtain ⟨earlier, _, cross⟩ := List.pairwise_append.mp increasing
    rw [KeyIndex.performAll_concat]
    exact (ih earlier).perform fun old member => cross old member call (List.mem_singleton_self call)

/-- **The index is a versioned map.** After calls whose main revisions ascend on each key: a lookup
answers from the last call up to its revision, no two lives of a key overlap, and a range lists in key
order what the lookups find. -/
theorem versioned_lookup (calls : List IndexCall) (increasing : Increasing calls) :
    (∀ key r, (KeyIndex.new.performAll calls).get key r =
      (lastCall calls key r).bind IndexCall.visible) ∧
      (∀ key r, (((KeyIndex.new.performAll calls).history key).generations.filter
        fun gen => gen.aliveAt r).length ≤ 1) ∧
      ∀ start stop r, stop = [] ∨ start ≤ stop →
        ∃ listed, (KeyIndex.new.performAll calls).range start stop r = some listed ∧
          (listed.Pairwise fun a b => a.1 < b.1) ∧
          ∀ key rev, (key, rev) ∈ listed ↔ Bytes.InRange start stop key ∧
            (KeyIndex.new.performAll calls).get key r = some rev := by
  have follows := follows_performAll increasing
  refine ⟨fun key r => ?_, fun key r => ?_, fun start stop r valid => ?_⟩
  · rw [KeyIndex.get_eq_getD]
    exact follows.lookup key r
  · obtain ⟨bound, above⟩ := (calls.map fun call => call.revision.main).toFinset.exists_le
    have bounded : ∀ call ∈ calls, call.key = key → call.revision.main ≤ bound := fun call member _ =>
      above _ (List.mem_toFinset.mpr (List.mem_map_of_mem member))
    exact KeyIndexEntry.alive_once (follows.ok key bound bounded) (follows.founded key) r
  · exact ⟨_, KeyIndex.range_eq (.of_valid valid) r, KeyIndex.keysIn_ascending _ start stop r,
      fun key rev => KeyIndex.mem_keysIn⟩

/-- A key is deleted before it is there, created, written, deleted twice and created again. -/
def recreated : List IndexCall :=
  [.tombstone [1] ⟨2, 0⟩, .put [1] ⟨4, 0⟩, .put [2] ⟨5, 0⟩, .put [1] ⟨6, 0⟩, .tombstone [1] ⟨7, 0⟩,
    .tombstone [1] ⟨9, 0⟩, .put [1] ⟨11, 0⟩]

theorem versioned_lookup_recreated :
    (∀ key r, (KeyIndex.new.performAll recreated).get key r =
      (lastCall recreated key r).bind IndexCall.visible) ∧
      (∀ key r, (((KeyIndex.new.performAll recreated).history key).generations.filter
        fun gen => gen.aliveAt r).length ≤ 1) ∧
      ∀ start stop r, stop = [] ∨ start ≤ stop →
        ∃ listed, (KeyIndex.new.performAll recreated).range start stop r = some listed ∧
          (listed.Pairwise fun a b => a.1 < b.1) ∧
          ∀ key rev, (key, rev) ∈ listed ↔ Bytes.InRange start stop key ∧
            (KeyIndex.new.performAll recreated).get key r = some rev :=
  versioned_lookup recreated (by decide)

end Rusd
