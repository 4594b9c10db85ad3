/-
**The in-memory key index** (`storage/index.rs`).

A key's history is a list of generations, one per life of the key: where it was created, the
revisions that modified it, and where it was deleted. `revisionAt r` is the lookup both `get` and
`range` make: the generation alive at `r`, then its last revision up to `r`.

* `EntryOk b entry` — what every history built by the index satisfies below the revision `b`: only
  the last generation can be alive, revisions ascend inside a generation and from one to the next.
* `revisionAt_put`, `revisionAt_tombstone` — a write at a revision above `b` changes the lookup
  from that revision on, and only there.
* `revisionAt_compact` — compaction at `c` forgets, for every `r ≥ c`, the answers below `c`.
-/

import Rusd.Lib.OrdMap
import Rusd.Lib.Bytes

namespace Rusd

/-- A revision: the global counter, and the operation within it. -/
structure Revision where
  main : Int
  sub : Int
  deriving DecidableEq, Repr

/-- One life of a key, from its creation to its deletion. -/
structure Generation where
  created : Revision
  revisions : List Revision
  deleted : Option Revision
  deriving DecidableEq, Repr

/-- The generation's life covers `revision`. -/
def Generation.aliveAt (gen : Generation) (revision : Int) : Bool :=
  gen.created.main ≤ revision && gen.deleted.all fun del => del.main > revision

/-- The last of the generation's revisions up to `revision`. -/
def Generation.lastUpTo (gen : Generation) (revision : Int) : Option Revision :=
  gen.revisions.reverse.find? fun rev => rev.main ≤ revision

/-- The history of one key. -/
structure KeyIndexEntry where
  generations : List Generation
  deriving DecidableEq, Repr

namespace KeyIndexEntry

def new : KeyIndexEntry := ⟨[]⟩

/-- The generation that was alive at the given revision. -/
def getGenerationAt (entry : KeyIndexEntry) (revision : Int) : Option Generation :=
  entry.generations.find? fun gen => gen.aliveAt revision

/-- The revision of the key that is visible at `revision`. -/
def revisionAt (entry : KeyIndexEntry) (revision : Int) : Option Revision :=
  (entry.getGenerationAt revision).bind fun gen => gen.lastUpTo revision

/-- A write: a new generation if the last one is deleted or there is none, else one more revision
of the last one. -/
def put (entry : KeyIndexEntry) (revision : Revision) : KeyIndexEntry :=
  match entry.generations.getLast? with
  | none => ⟨[⟨revision, [revision], none⟩]⟩
  | some gen =>
    if gen.deleted.isSome then ⟨entry.generations ++ [⟨revision, [revision], none⟩]⟩
    else ⟨entry.generations.dropLast ++ [{ gen with revisions := gen.revisions ++ [revision] }]⟩

/-- A deletion ends the last generation, once. -/
def tombstone (entry : KeyIndexEntry) (revision : Revision) : KeyIndexEntry :=
  match entry.generations.getLast? with
  | none => ⟨[⟨revision, [revision], some revision⟩]⟩
  | some gen =>
    if gen.deleted.isNone then
      ⟨entry.generations.dropLast ++ [{ gen with deleted := some revision }]⟩
    else entry

/-- Compaction of one generation: the revisions below the compaction point go; a generation that
is alive and has none left is given the compaction point as its creation. -/
def compactGeneration (compactRevision : Int) (gen : Generation) : Generation :=
  let revisions := gen.revisions.filter fun rev => rev.main ≥ compactRevision
  if revisions.isEmpty && gen.deleted.isNone then
    { gen with revisions := revisions, created := { gen.created with main := compactRevision } }
  else { gen with revisions := revisions }

def compact (entry : KeyIndexEntry) (compactRevision : Int) : KeyIndexEntry :=
  ⟨entry.generations.map (compactGeneration compactRevision)⟩

end KeyIndexEntry

/-- The key index: the history of every key, in key order. -/
structure KeyIndex where
  tree : OrdMap Bytes KeyIndexEntry
  deriving DecidableEq

namespace KeyIndex

def new : KeyIndex := ⟨.empty⟩

def get (index : KeyIndex) (key : Bytes) (revision : Int) : Option Revision :=
  (index.tree.get? key).bind fun entry => entry.revisionAt revision

def put (index : KeyIndex) (key : Bytes) (revision : Revision) : KeyIndex :=
  ⟨index.tree.insert key (((index.tree.get? key).getD .new).put revision)⟩

def tombstone (index : KeyIndex) (key : Bytes) (revision : Revision) : KeyIndex :=
  ⟨index.tree.insert key (((index.tree.get? key).getD .new).tombstone revision)⟩

/-- The map has held a key: no operation of the index takes one out. -/
def held (index : KeyIndex) : Bool := !index.tree.isEmpty

/-- The keys of `[start, stop)` alive at `revision`, in key order; `none` is the panic of
`BTreeMap::range` on an inverted interval. A map that never held a key has no root to search, and
takes any interval. -/
def range (index : KeyIndex) (start stop : Bytes) (revision : Int) :
    Option (List (Bytes × Revision)) :=
  if index.held ∧ stop ≠ [] ∧ stop < start then none
  else some ((index.tree.entries.filter fun e => Bytes.InRange start stop e.1).filterMap fun e =>
    (e.2.revisionAt revision).map fun rev => (e.1, rev))

def compact (index : KeyIndex) (compactRevision : Int) : KeyIndex :=
  ⟨index.tree.mapValues fun entry => entry.compact compactRevision⟩

end KeyIndex

/-! ### Histories -/

/-- What a history satisfies when every write to it so far was at a revision up to `bound`. -/
structure EntryOk (bound : Int) (entry : KeyIndexEntry) : Prop where
  /-- Only the last generation can be alive. -/
  ended : ∀ gen ∈ entry.generations.dropLast, gen.deleted.isSome
  created : ∀ gen ∈ entry.generations, gen.created.main ≤ bound
  deleted : ∀ gen ∈ entry.generations, ∀ del, gen.deleted = some del → del.main ≤ bound
  revisions : ∀ gen ∈ entry.generations, ∀ rev ∈ gen.revisions, rev.main ≤ bound
  createdFirst : ∀ gen ∈ entry.generations, ∀ rev ∈ gen.revisions, gen.created.main ≤ rev.main
  ascending : ∀ gen ∈ entry.generations, gen.revisions.Pairwise fun a b => a.main < b.main
  /-- A generation is over before the revisions of the next ones. -/
  ordered : entry.generations.Pairwise fun gen later =>
    ∀ del, gen.deleted = some del → ∀ rev ∈ later.revisions, del.main < rev.main

namespace EntryOk

theorem new (bound : Int) : EntryOk bound .new := by
  constructor <;> simp [KeyIndexEntry.new]

theorem mono {bound higher : Int} {entry : KeyIndexEntry} (ok : EntryOk bound entry)
    (le : bound ≤ higher) : EntryOk higher entry where
  ended := ok.ended
  created gen member := (ok.created gen member).trans le
  deleted gen member del is := (ok.deleted gen member del is).trans le
  revisions gen member rev is := (ok.revisions gen member rev is).trans le
  createdFirst := ok.createdFirst
  ascending := ok.ascending
  ordered := ok.ordered

end EntryOk

/-- A generation deleted up to `r` is not alive at `r`. -/
theorem Generation.aliveAt_eq_false {gen : Generation} {del : Revision} {r : Int}
    (is : gen.deleted = some del) (before : del.main ≤ r) : gen.aliveAt r = false := by
  simp [aliveAt, is, before]

namespace KeyIndexEntry

/-- Above every deletion, none of the ended generations is found. -/
theorem find_ended {gens : List Generation} {bound r : Int}
    (ended : ∀ gen ∈ gens, gen.deleted.isSome)
    (deleted : ∀ gen ∈ gens, ∀ del, gen.deleted = some del → del.main ≤ bound)
    (above : bound ≤ r) : gens.find? (fun gen => gen.aliveAt r) = none := by
  rw [List.find?_eq_none]
  intro gen member
  obtain ⟨del, is⟩ := Option.isSome_iff_exists.mp (ended gen member)
  rw [Generation.aliveAt_eq_false is ((deleted gen member del is).trans above)]
  exact Bool.false_ne_true

/-- The lookup in a history with its last generation singled out. -/
theorem revisionAt_concat (gens : List Generation) (gen : Generation) (r : Int) :
    revisionAt ⟨gens ++ [gen]⟩ r =
      ((gens.find? fun g => g.aliveAt r).or (if gen.aliveAt r then some gen else none)).bind
        fun g => g.lastUpTo r := by
  unfold revisionAt getGenerationAt
  rw [List.find?_append]
  congr 2
  by_cases alive : gen.aliveAt r <;> simp [alive]

/-- Two last generations that look alike at `r` give the same lookup at `r`. -/
theorem revisionAt_concat_congr (gens : List Generation) {gen other : Generation} {r : Int}
    (alive : gen.aliveAt r = other.aliveAt r) (last : gen.lastUpTo r = other.lastUpTo r) :
    revisionAt ⟨gens ++ [gen]⟩ r = revisionAt ⟨gens ++ [other]⟩ r := by
  rw [revisionAt_concat, revisionAt_concat, alive]
  cases gens.find? fun g => g.aliveAt r with
  | some g => rfl
  | none => by_cases lives : other.aliveAt r <;> simp [lives, last]

theorem eq_new_or_concat (entry : KeyIndexEntry) :
    entry = .new ∨ ∃ init last, entry = ⟨init ++ [last]⟩ := by
  obtain ⟨gens⟩ := entry
  rcases List.eq_nil_or_concat gens with rfl | ⟨init, last, rfl⟩
  · exact Or.inl rfl
  · exact Or.inr ⟨init, last, by rw [List.concat_eq_append]⟩

theorem put_new (rev : Revision) : new.put rev = ⟨[] ++ [⟨rev, [rev], none⟩]⟩ := rfl

theorem put_dead (init : List Generation) {last : Generation} (rev : Revision)
    (dead : last.deleted.isSome) :
    put ⟨init ++ [last]⟩ rev = ⟨(init ++ [last]) ++ [⟨rev, [rev], none⟩]⟩ := by
  simp [put, dead]

theorem put_alive (init : List Generation) {last : Generation} (rev : Revision)
    (alive : last.deleted = none) :
    put ⟨init ++ [last]⟩ rev = ⟨init ++ [{ last with revisions := last.revisions ++ [rev] }]⟩ := by
  simp [put, alive]

theorem tombstone_new (rev : Revision) : new.tombstone rev = ⟨[] ++ [⟨rev, [rev], some rev⟩]⟩ := rfl

theorem tombstone_dead (init : List Generation) {last : Generation} (rev : Revision)
    (dead : last.deleted.isSome) : tombstone ⟨init ++ [last]⟩ rev = ⟨init ++ [last]⟩ := by
  have some : last.deleted.isNone = false := by
    obtain ⟨del, is⟩ := Option.isSome_iff_exists.mp dead
    rw [is]
    rfl
  simp [tombstone, some]

theorem tombstone_alive (init : List Generation) {last : Generation} (rev : Revision)
    (alive : last.deleted = none) :
    tombstone ⟨init ++ [last]⟩ rev = ⟨init ++ [{ last with deleted := some rev }]⟩ := by
  simp [tombstone, alive]

/-- A key is deleted once. -/
theorem tombstone_tombstone (entry : KeyIndexEntry) (rev : Revision) :
    (entry.tombstone rev).tombstone rev = entry.tombstone rev := by
  rcases entry.eq_new_or_concat with rfl | ⟨init, last, rfl⟩
  · rw [tombstone_new, tombstone_dead [] rev rfl]
  · by_cases dead : last.deleted.isSome
    · rw [tombstone_dead init rev dead, tombstone_dead init rev dead]
    · have alive : last.deleted = none := by simpa using dead
      rw [tombstone_alive init rev alive, tombstone_dead init rev rfl]

/-- **A write is visible from its revision on**, and changes nothing before it. -/
theorem revisionAt_put {bound : Int} {entry : KeyIndexEntry} (ok : EntryOk bound entry)
    {rev : Revision} (above : bound < rev.main) (r : Int) :
    (entry.put rev).revisionAt r = if rev.main ≤ r then some rev else entry.revisionAt r := by
  rcases entry.eq_new_or_concat with rfl | ⟨init, last, rfl⟩
  · rw [put_new, revisionAt_concat]
    by_cases visible : rev.main ≤ r <;>
      simp [Generation.aliveAt, Generation.lastUpTo, visible, revisionAt, getGenerationAt, new]
  have endedInit : ∀ gen ∈ init, gen.deleted.isSome := by simpa using ok.ended
  have lastIn : last ∈ init ++ [last] := by simp
  by_cases dead : last.deleted.isSome
  · -- the key was deleted: a generation of its own, created at `rev`
    rw [put_dead init rev dead, revisionAt_concat]
    by_cases visible : rev.main ≤ r
    · have ended : ∀ gen ∈ init ++ [last], gen.deleted.isSome := by
        intro gen member
        rcases List.mem_append.mp member with member | member
        · exact endedInit gen member
        · rw [List.mem_singleton.mp member]
          exact dead
      rw [if_pos visible, find_ended ended ok.deleted (by omega)]
      simp [Generation.aliveAt, Generation.lastUpTo, visible]
    · rw [if_neg visible]
      simp [Generation.aliveAt, visible, revisionAt, getGenerationAt]
  · -- the key is alive: one more revision of its last generation
    have alive : last.deleted = none := by simpa using dead
    rw [put_alive init rev alive, revisionAt_concat]
    by_cases visible : rev.main ≤ r
    · have created : last.created.main ≤ r := by
        have := ok.created last lastIn
        omega
      rw [if_pos visible, find_ended endedInit
        (fun gen member => ok.deleted gen (List.mem_append_left _ member)) (by omega)]
      simp [Generation.aliveAt, Generation.lastUpTo, alive, created, visible]
    · rw [if_neg visible, ← revisionAt_concat]
      exact revisionAt_concat_congr init rfl (by simp [Generation.lastUpTo, visible])

/-- **A deletion ends the visibility at its revision**, and changes nothing before it. -/
theorem revisionAt_tombstone {bound : Int} {entry : KeyIndexEntry} (ok : EntryOk bound entry)
    {rev : Revision} (above : bound < rev.main) (r : Int) :
    (entry.tombstone rev).revisionAt r = if rev.main ≤ r then none else entry.revisionAt r := by
  rcases entry.eq_new_or_concat with rfl | ⟨init, last, rfl⟩
  · rw [tombstone_new, revisionAt_concat]
    by_cases visible : rev.main ≤ r
    · rw [if_pos visible, Generation.aliveAt_eq_false rfl visible]
      rfl
    · simp [Generation.aliveAt, visible, revisionAt, getGenerationAt, new]
  have endedInit : ∀ gen ∈ init, gen.deleted.isSome := by simpa using ok.ended
  have endedBy : ∀ gen ∈ init, ∀ del, gen.deleted = some del → del.main ≤ bound :=
    fun gen member => ok.deleted gen (List.mem_append_left _ member)
  by_cases dead : last.deleted.isSome
  · rw [tombstone_dead init rev dead]
    by_cases visible : rev.main ≤ r
    · obtain ⟨del, is⟩ := Option.isSome_iff_exists.mp dead
      have before := ok.deleted last (by simp) del is
      rw [if_pos visible, revisionAt_concat, find_ended endedInit endedBy (by omega),
        Generation.aliveAt_eq_false is (by omega)]
      rfl
    · rw [if_neg visible]
  · have alive : last.deleted = none := by simpa using dead
    rw [tombstone_alive init rev alive, revisionAt_concat]
    by_cases visible : rev.main ≤ r
    · rw [if_pos visible, find_ended endedInit endedBy (by omega),
        Generation.aliveAt_eq_false rfl visible]
      rfl
    · have later : r < rev.main := by omega
      rw [if_neg visible, ← revisionAt_concat]
      exact revisionAt_concat_congr init (by simp [Generation.aliveAt, alive, later]) rfl

end KeyIndexEntry

/-! ### The operations keep histories well formed -/

namespace EntryOk

/-- A generation appended to a history whose generations are all over. -/
theorem concat {bound : Int} {gens : List Generation} (ok : EntryOk bound ⟨gens⟩)
    (ended : ∀ gen ∈ gens, gen.deleted.isSome) {rev : Revision} (above : bound < rev.main)
    {deleted : Option Revision} (del : ∀ d, deleted = some d → d = rev) :
    EntryOk rev.main ⟨gens ++ [⟨rev, [rev], deleted⟩]⟩ where
  ended := by simpa using ended
  created gen member := by
    rcases List.mem_append.mp member with member | member
    · exact (ok.created gen member).trans above.le
    · rw [List.mem_singleton.mp member]
  deleted gen member d is := by
    rcases List.mem_append.mp member with member | member
    · exact (ok.deleted gen member d is).trans above.le
    · rw [List.mem_singleton.mp member] at is
      rw [del d is]
  revisions gen member r is := by
    rcases List.mem_append.mp member with member | member
    · exact (ok.revisions gen member r is).trans above.le
    · rw [List.mem_singleton.mp member] at is
      rw [List.mem_singleton.mp is]
  createdFirst gen member r is := by
    rcases List.mem_append.mp member with member | member
    · exact ok.createdFirst gen member r is
    · rw [List.mem_singleton.mp member] at is ⊢
      rw [List.mem_singleton.mp is]
  ascending gen member := by
    rcases List.mem_append.mp member with member | member
    · exact ok.ascending gen member
    · rw [List.mem_singleton.mp member]
      exact List.pairwise_singleton _ _
  ordered := by
    refine List.pairwise_append.mpr ⟨ok.ordered, List.pairwise_singleton _ _, ?_⟩
    intro gen member later last d is r inside
    rw [List.mem_singleton.mp last] at inside
    rw [List.mem_singleton.mp inside]
    exact lt_of_le_of_lt (ok.deleted gen member d is) above

/-- The last generation replaced by one with the same history up to `bound`. -/
theorem replaceLast {bound : Int} {init : List Generation} {last : Generation}
    (ok : EntryOk bound ⟨init ++ [last]⟩) {rev : Revision} (above : bound < rev.main)
    {gen : Generation} (created : gen.created = last.created)
    (revisions : gen.revisions = last.revisions ∨ gen.revisions = last.revisions ++ [rev])
    (deleted : ∀ d, gen.deleted = some d → d = rev) :
    EntryOk rev.main ⟨init ++ [gen]⟩ := by
  have lastIn : last ∈ init ++ [last] := by simp
  have inside : ∀ r ∈ gen.revisions, r ∈ last.revisions ∨ r = rev := by
    intro r member
    rcases revisions with same | same <;> rw [same] at member
    · exact Or.inl member
    · simpa using member
  have front : ∀ g, g ∈ init → g ∈ init ++ [last] := fun g => List.mem_append_left _
  refine ⟨by simpa using ok.ended, ?_, ?_, ?_, ?_, ?_, ?_⟩
  · intro g member
    rcases List.mem_append.mp member with member | member
    · exact (ok.created g (front g member)).trans above.le
    · rw [List.mem_singleton.mp member, created]
      exact (ok.created last lastIn).trans above.le
  · intro g member d is
    rcases List.mem_append.mp member with member | member
    · exact (ok.deleted g (front g member) d is).trans above.le
    · rw [List.mem_singleton.mp member] at is
      rw [deleted d is]
  · intro g member r is
    rcases List.mem_append.mp member with member | member
    · exact (ok.revisions g (front g member) r is).trans above.le
    · rw [List.mem_singleton.mp member] at is
      rcases inside r is with old | rfl
      · exact (ok.revisions last lastIn r old).trans above.le
      · exact le_rfl
  · intro g member r is
    rcases List.mem_append.mp member with member | member
    · exact ok.createdFirst g (front g member) r is
    · rw [List.mem_singleton.mp member] at is ⊢
      rw [created]
      rcases inside r is with old | rfl
      · exact ok.createdFirst last lastIn r old
      · exact (ok.created last lastIn).trans above.le
  · intro g member
    rcases List.mem_append.mp member with member | member
    · exact ok.ascending g (front g member)
    · rw [List.mem_singleton.mp member]
      rcases revisions with same | same <;> rw [same]
      · exact ok.ascending last lastIn
      · refine List.pairwise_append.mpr ⟨ok.ascending last lastIn, List.pairwise_singleton _ _, ?_⟩
        intro r old r' new
        rw [List.mem_singleton.mp new]
        exact lt_of_le_of_lt (ok.revisions last lastIn r old) above
  · obtain ⟨first, _, cross⟩ := List.pairwise_append.mp ok.ordered
    refine List.pairwise_append.mpr ⟨first, List.pairwise_singleton _ _, ?_⟩
    intro g member later is d dead r new
    rw [List.mem_singleton.mp is] at new
    rcases inside r new with old | rfl
    · exact cross g member last (by simp) d dead r old
    · exact lt_of_le_of_lt (ok.deleted g (front g member) d dead) above

theorem put {bound : Int} {entry : KeyIndexEntry} (ok : EntryOk bound entry) {rev : Revision}
    (above : bound < rev.main) : EntryOk rev.main (entry.put rev) := by
  rcases entry.eq_new_or_concat with rfl | ⟨init, last, rfl⟩
  · exact (EntryOk.new bound).concat (by simp) above (by simp)
  · by_cases dead : last.deleted.isSome
    · rw [KeyIndexEntry.put_dead init rev dead]
      refine ok.concat (fun gen member => ?_) above (by simp)
      rcases List.mem_append.mp member with member | member
      · exact ok.ended gen (by simpa using member)
      · rw [List.mem_singleton.mp member]
        exact dead
    · have alive : last.deleted = none := by simpa using dead
      rw [KeyIndexEntry.put_alive init rev alive]
      exact ok.replaceLast above rfl (Or.inr rfl) (by simp [alive])

theorem tombstone {bound : Int} {entry : KeyIndexEntry} (ok : EntryOk bound entry) {rev : Revision}
    (above : bound < rev.main) : EntryOk rev.main (entry.tombstone rev) := by
  rcases entry.eq_new_or_concat with rfl | ⟨init, last, rfl⟩
  · exact (EntryOk.new bound).concat (by simp) above (by simp)
  · by_cases dead : last.deleted.isSome
    · rw [KeyIndexEntry.tombstone_dead init rev dead]
      exact ok.mono above.le
    · have alive : last.deleted = none := by simpa using dead
      rw [KeyIndexEntry.tombstone_alive init rev alive]
      exact ok.replaceLast above rfl (Or.inl rfl) (by simp)

end EntryOk

/-! ### Compaction of a history -/

/-- In a descending list, dropping what is below `c` and then taking the first entry up to `r` is
taking the first entry up to `r` and dropping it if it is below `c`. -/
theorem find_filter_descending {revs : List Revision} {c r : Int} (le : c ≤ r)
    (descending : revs.Pairwise fun a b => b.main < a.main) :
    (revs.filter fun rev => rev.main ≥ c).find? (fun rev => rev.main ≤ r) =
      (revs.find? fun rev => rev.main ≤ r).filter fun rev => c ≤ rev.main := by
  induction revs with
  | nil => rfl
  | cons rev rest ih =>
    obtain ⟨smaller, tail⟩ := List.pairwise_cons.mp descending
    by_cases visible : rev.main ≤ r
    · by_cases kept : c ≤ rev.main
      · simp [Option.filter, visible, kept]
      · have gone : rest.filter (fun rev => decide (rev.main ≥ c)) = [] := by
          rw [List.filter_eq_nil_iff]
          intro other member
          have := smaller other member
          simp
          omega
        simp [Option.filter, visible, kept, gone]
    · have kept : c ≤ rev.main := by omega
      simp only [ge_iff_le, kept, decide_true, List.filter_cons_of_pos, visible, decide_false,
        Bool.false_eq_true, not_false_eq_true, List.find?_cons_of_neg]
      exact ih tail

theorem compactGeneration_revisions (c : Int) (gen : Generation) :
    (KeyIndexEntry.compactGeneration c gen).revisions =
      gen.revisions.filter fun rev => rev.main ≥ c := by
  unfold KeyIndexEntry.compactGeneration
  dsimp only
  split_ifs <;> rfl

theorem lastUpTo_compactGeneration {gen : Generation} {c r : Int} (le : c ≤ r)
    (ascending : gen.revisions.Pairwise fun a b => a.main < b.main) :
    (KeyIndexEntry.compactGeneration c gen).lastUpTo r =
      (gen.lastUpTo r).filter fun rev => c ≤ rev.main := by
  unfold Generation.lastUpTo
  rw [compactGeneration_revisions, ← List.filter_reverse]
  exact find_filter_descending le (List.pairwise_reverse.mpr ascending)

/-- Compaction does not move the life of a generation that is over. -/
theorem aliveAt_compactGeneration {gen : Generation} {c r : Int} (dead : gen.deleted.isSome) :
    (KeyIndexEntry.compactGeneration c gen).aliveAt r = gen.aliveAt r := by
  obtain ⟨del, is⟩ := Option.isSome_iff_exists.mp dead
  simp [KeyIndexEntry.compactGeneration, Generation.aliveAt, is]

/-- **Compaction at `c` forgets the answers below `c`**, at every `r ≥ c`. -/
theorem revisionAt_compact {bound : Int} {entry : KeyIndexEntry} (ok : EntryOk bound entry)
    {c r : Int} (le : c ≤ r) :
    (entry.compact c).revisionAt r = (entry.revisionAt r).filter fun rev => c ≤ rev.main := by
  rcases entry.eq_new_or_concat with rfl | ⟨init, last, rfl⟩
  · rfl
  have endedInit : ∀ gen ∈ init, gen.deleted.isSome := by simpa using ok.ended
  have found : (init.map (KeyIndexEntry.compactGeneration c)).find? (fun g => g.aliveAt r) =
      (init.find? fun g => g.aliveAt r).map (KeyIndexEntry.compactGeneration c) := by
    rw [List.find?_map]
    congr 1
    refine List.find?_congr fun gen member => ?_
    exact aliveAt_compactGeneration (endedInit gen member)
  have shape : KeyIndexEntry.compact ⟨init ++ [last]⟩ c =
      ⟨init.map (KeyIndexEntry.compactGeneration c) ++ [KeyIndexEntry.compactGeneration c last]⟩ := by
    simp [KeyIndexEntry.compact]
  rw [shape, KeyIndexEntry.revisionAt_concat, KeyIndexEntry.revisionAt_concat, found]
  cases hit : init.find? fun g => g.aliveAt r with
  | some gen =>
    have member := List.mem_of_find?_eq_some hit
    exact lastUpTo_compactGeneration le (ok.ascending gen (List.mem_append_left _ member))
  | none =>
    have lastUpTo := lastUpTo_compactGeneration le (ok.ascending last (by simp))
    simp only [Option.map_none, Option.none_or]
    by_cases emptied : (last.revisions.filter fun rev => rev.main ≥ c).isEmpty && last.deleted.isNone
    · -- the creation moves to `c`, but no revision is left to be found
      have nothing : (KeyIndexEntry.compactGeneration c last).lastUpTo r = none := by
        have bare : (last.revisions.filter fun rev => rev.main ≥ c) = [] :=
          List.isEmpty_iff.mp (Bool.and_eq_true_iff.mp emptied).1
        rw [Generation.lastUpTo, compactGeneration_revisions, bare]
        rfl
      rw [nothing] at lastUpTo
      by_cases alive : last.aliveAt r <;>
        by_cases alive' : (KeyIndexEntry.compactGeneration c last).aliveAt r <;>
        simp [alive, alive', nothing, ← lastUpTo]
    · have same : (KeyIndexEntry.compactGeneration c last).aliveAt r = last.aliveAt r := by
        simp only [KeyIndexEntry.compactGeneration, if_neg emptied]
        rfl
      rw [same]
      by_cases alive : last.aliveAt r <;> simp [alive, lastUpTo]

theorem EntryOk.compact {bound : Int} {entry : KeyIndexEntry} (ok : EntryOk bound entry) {c : Int}
    (le : c ≤ bound) : EntryOk bound (entry.compact c) := by
  have deleted : ∀ gen, (KeyIndexEntry.compactGeneration c gen).deleted = gen.deleted := by
    intro gen
    unfold KeyIndexEntry.compactGeneration
    dsimp only
    split_ifs <;> rfl
  have kept : ∀ gen, ∀ rev ∈ (KeyIndexEntry.compactGeneration c gen).revisions,
      rev ∈ gen.revisions := by
    intro gen rev member
    rw [compactGeneration_revisions] at member
    exact (List.mem_filter.mp member).1
  -- the creation only moves when no revision is left
  have created : ∀ gen, (KeyIndexEntry.compactGeneration c gen).created = gen.created ∨
      ((KeyIndexEntry.compactGeneration c gen).created.main = c ∧
        (KeyIndexEntry.compactGeneration c gen).revisions = []) := by
    intro gen
    unfold KeyIndexEntry.compactGeneration
    dsimp only
    split_ifs with emptied
    · exact Or.inr ⟨rfl, List.isEmpty_iff.mp (Bool.and_eq_true_iff.mp emptied).1⟩
    · exact Or.inl rfl
  refine ⟨?_, ?_, ?_, ?_, ?_, ?_, ?_⟩
  · intro gen member
    simp only [KeyIndexEntry.compact, ← List.map_dropLast, List.mem_map] at member
    obtain ⟨old, inside, rfl⟩ := member
    rw [deleted]
    exact ok.ended old inside
  · intro gen member
    obtain ⟨old, inside, rfl⟩ := List.mem_map.mp member
    rcases created old with same | ⟨moved, _⟩
    · rw [same]
      exact ok.created old inside
    · rw [moved]
      exact le
  · intro gen member del is
    obtain ⟨old, inside, rfl⟩ := List.mem_map.mp member
    exact ok.deleted old inside del (by rw [← deleted, is])
  · intro gen member rev is
    obtain ⟨old, inside, rfl⟩ := List.mem_map.mp member
    exact ok.revisions old inside rev (kept old rev is)
  · intro gen member rev is
    obtain ⟨old, inside, rfl⟩ := List.mem_map.mp member
    rcases created old with same | ⟨_, bare⟩
    · rw [same]
      exact ok.createdFirst old inside rev (kept old rev is)
    · rw [bare] at is
      cases is
  · intro gen member
    obtain ⟨old, inside, rfl⟩ := List.mem_map.mp member
    rw [compactGeneration_revisions]
    exact (ok.ascending old inside).filter _
  · refine List.pairwise_map.mpr (ok.ordered.imp ?_)
    intro gen later before del is rev inside
    exact before del (by rw [← deleted, is]) rev (kept later rev inside)

/-! ### Lookups between two revisions -/

theorem lastUpTo_between {gen : Generation} {rev : Revision} {c q : Int} (le : c ≤ q)
    (found : gen.lastUpTo q = some rev) (visible : rev.main ≤ c) : gen.lastUpTo c = some rev := by
  obtain ⟨_, before, after, split, hidden⟩ := List.find?_eq_some_iff_append.mp found
  refine List.find?_eq_some_iff_append.mpr ⟨by simpa using visible, before, after, split, ?_⟩
  intro other member
  have above := hidden other member
  simp at above ⊢
  omega

/-- **What is visible at `q` was visible ever since its own revision.** -/
theorem KeyIndexEntry.revisionAt_between {bound : Int} {entry : KeyIndexEntry}
    (ok : EntryOk bound entry) {rev : Revision} {c q : Int} (le : c ≤ q)
    (found : entry.revisionAt q = some rev) (visible : rev.main ≤ c) :
    entry.revisionAt c = some rev := by
  obtain ⟨gen, hit, last⟩ := Option.bind_eq_some_iff.mp found
  obtain ⟨alive, before, after, split, dead⟩ := List.find?_eq_some_iff_append.mp hit
  have genIn : gen ∈ entry.generations := by rw [split]; simp
  have revIn : rev ∈ gen.revisions := by simpa using List.mem_of_find?_eq_some last
  refine Option.bind_eq_some_iff.mpr ⟨gen, ?_, lastUpTo_between le last visible⟩
  refine List.find?_eq_some_iff_append.mpr ⟨?_, before, after, split, ?_⟩
  · have first := ok.createdFirst gen genIn rev revIn
    unfold Generation.aliveAt at alive ⊢
    cases is : gen.deleted with
    | none => simp; omega
    | some del =>
      simp only [is, Option.all_some, Bool.and_eq_true, decide_eq_true_eq] at alive ⊢
      omega
  · -- the earlier generations were over before `rev` was written
    intro old member
    have oldIn : old ∈ entry.generations.dropLast := by
      rw [split, List.dropLast_append_of_ne_nil (by simp)]
      exact List.mem_append_left _ member
    obtain ⟨del, is⟩ := Option.isSome_iff_exists.mp (ok.ended old oldIn)
    have ordered := ok.ordered
    rw [split] at ordered
    have earlier := (List.pairwise_append.mp ordered).2.2 old member gen List.mem_cons_self del is rev
      revIn
    rw [Generation.aliveAt_eq_false is (by omega)]
    rfl

/-- Above every write of a history nothing changes. -/
theorem KeyIndexEntry.revisionAt_above {bound : Int} {entry : KeyIndexEntry}
    (ok : EntryOk bound entry) {r : Int} (above : bound ≤ r) :
    entry.revisionAt r = entry.revisionAt bound := by
  have alive : ∀ gen ∈ entry.generations, gen.aliveAt r = gen.aliveAt bound := by
    intro gen member
    have created := ok.created gen member
    have deleted := ok.deleted gen member
    unfold Generation.aliveAt
    rw [decide_eq_true (created.trans above), decide_eq_true created]
    cases is : gen.deleted with
    | none => rfl
    | some del =>
      have before := deleted del is
      simp only [Option.all_some, Bool.true_and]
      rw [decide_eq_false (by omega), decide_eq_false (by omega)]
  have last : ∀ gen ∈ entry.generations, gen.lastUpTo r = gen.lastUpTo bound := by
    intro gen member
    refine List.find?_congr fun rev inside => ?_
    have before := ok.revisions gen member rev (by simpa using inside)
    rw [decide_eq_true (before.trans above), decide_eq_true before]
  unfold revisionAt getGenerationAt
  rw [List.find?_congr alive]
  cases hit : entry.generations.find? fun gen => gen.aliveAt bound with
  | none => rfl
  | some gen => exact last gen (List.mem_of_find?_eq_some hit)

/-- Every revision of a history satisfies `P`. -/
def KeyIndexEntry.AllRevisions (P : Revision → Prop) (entry : KeyIndexEntry) : Prop :=
  ∀ gen ∈ entry.generations, ∀ rev ∈ gen.revisions, P rev

namespace KeyIndexEntry.AllRevisions

variable {P : Revision → Prop} {entry : KeyIndexEntry}

theorem new : AllRevisions P .new := by
  intro gen member
  cases member

theorem put (all : AllRevisions P entry) {rev : Revision} (holds : P rev) :
    AllRevisions P (entry.put rev) := by
  rcases entry.eq_new_or_concat with rfl | ⟨init, last, rfl⟩
  · simpa [AllRevisions, KeyIndexEntry.put_new] using holds
  · by_cases dead : last.deleted.isSome
    · rw [KeyIndexEntry.put_dead init rev dead]
      simp only [AllRevisions, List.mem_append, List.mem_singleton] at all ⊢
      rintro gen (member | rfl) r inside
      · exact all gen member r inside
      · rw [List.mem_singleton.mp inside]
        exact holds
    · rw [KeyIndexEntry.put_alive init rev (by simpa using dead)]
      simp only [AllRevisions, List.mem_append, List.mem_singleton] at all ⊢
      rintro gen (member | rfl) r inside
      · exact all gen (Or.inl member) r inside
      · rcases List.mem_append.mp inside with old | new
        · exact all last (Or.inr rfl) r old
        · rw [List.mem_singleton.mp new]
          exact holds

theorem tombstone (all : AllRevisions P entry) {rev : Revision} (holds : P rev) :
    AllRevisions P (entry.tombstone rev) := by
  rcases entry.eq_new_or_concat with rfl | ⟨init, last, rfl⟩
  · simpa [AllRevisions, KeyIndexEntry.tombstone_new] using holds
  · by_cases dead : last.deleted.isSome
    · rw [KeyIndexEntry.tombstone_dead init rev dead]
      exact all
    · rw [KeyIndexEntry.tombstone_alive init rev (by simpa using dead)]
      simp only [AllRevisions, List.mem_append, List.mem_singleton] at all ⊢
      rintro gen (member | rfl) r inside
      · exact all gen (Or.inl member) r inside
      · exact all last (Or.inr rfl) r inside

theorem compact (all : AllRevisions P entry) (c : Int) : AllRevisions P (entry.compact c) := by
  intro gen member rev inside
  obtain ⟨old, oldIn, rfl⟩ := List.mem_map.mp member
  rw [compactGeneration_revisions] at inside
  exact all old oldIn rev (List.mem_filter.mp inside).1

theorem of_revisionAt (all : AllRevisions P entry) {r : Int} {rev : Revision}
    (found : entry.revisionAt r = some rev) : P rev := by
  obtain ⟨gen, hit, last⟩ := Option.bind_eq_some_iff.mp found
  exact all gen (List.mem_of_find?_eq_some hit) rev (by simpa using List.mem_of_find?_eq_some last)

end KeyIndexEntry.AllRevisions

/-! ### The whole index -/

/-- Every history of the index is well formed below `bound`. -/
def IndexOk (bound : Int) (index : KeyIndex) : Prop :=
  ∀ key entry, index.tree.get? key = some entry → EntryOk bound entry

namespace IndexOk

theorem new (bound : Int) : IndexOk bound .new := by
  intro key entry found
  simp [KeyIndex.new] at found

theorem mono {bound higher : Int} {index : KeyIndex} (ok : IndexOk bound index)
    (le : bound ≤ higher) : IndexOk higher index :=
  fun key entry found => (ok key entry found).mono le

theorem getD {bound : Int} {index : KeyIndex} (ok : IndexOk bound index) (key : Bytes) :
    EntryOk bound ((index.tree.get? key).getD .new) := by
  cases found : index.tree.get? key with
  | none => exact EntryOk.new bound
  | some entry => exact ok key entry found

theorem put {bound : Int} {index : KeyIndex} (ok : IndexOk bound index) (key : Bytes)
    {rev : Revision} (above : bound < rev.main) : IndexOk rev.main (index.put key rev) := by
  intro other entry found
  simp only [KeyIndex.put, OrdMap.get?_insert] at found
  split_ifs at found with same
  · rw [← Option.some.inj found]
    exact (ok.getD key).put above
  · exact (ok other entry found).mono above.le

theorem compact {bound : Int} {index : KeyIndex} (ok : IndexOk bound index) {c : Int}
    (le : c ≤ bound) : IndexOk bound (index.compact c) := by
  intro key entry found
  simp only [KeyIndex.compact, OrdMap.get?_mapValues] at found
  obtain ⟨old, hit, rfl⟩ := Option.map_eq_some_iff.mp found
  exact (ok key old hit).compact le

end IndexOk

namespace KeyIndex

variable {bound : Int} {index : KeyIndex}

theorem get_eq_getD (index : KeyIndex) (key : Bytes) (r : Int) :
    index.get key r = ((index.tree.get? key).getD .new).revisionAt r := by
  unfold get
  cases index.tree.get? key with
  | none => rfl
  | some entry => rfl

theorem get_put (ok : IndexOk bound index) (key : Bytes) {rev : Revision} (above : bound < rev.main)
    (other : Bytes) (r : Int) :
    (index.put key rev).get other r =
      if other = key ∧ rev.main ≤ r then some rev else index.get other r := by
  rw [get_eq_getD, put, OrdMap.get?_insert]
  by_cases same : other = key
  · subst same
    rw [if_pos rfl, Option.getD_some, KeyIndexEntry.revisionAt_put (ok.getD other) above, get_eq_getD]
    simp
  · rw [if_neg same, if_neg (fun both => same both.1), get_eq_getD]

/-- The deletions of one `delete_range`, all at one revision. -/
def tombstones (index : KeyIndex) (keys : List Bytes) (rev : Revision) : KeyIndex :=
  keys.foldl (fun i key => i.tombstone key rev) index

theorem get?_tombstones (index : KeyIndex) (keys : List Bytes) (rev : Revision) (key : Bytes) :
    (index.tombstones keys rev).tree.get? key =
      if key ∈ keys then some (((index.tree.get? key).getD .new).tombstone rev)
      else index.tree.get? key := by
  unfold tombstones
  induction keys generalizing index with
  | nil => simp
  | cons first rest ih =>
    rw [List.foldl_cons, ih]
    simp only [tombstone, OrdMap.get?_insert, List.mem_cons]
    by_cases same : key = first
    · subst same
      by_cases again : key ∈ rest <;> simp [again, KeyIndexEntry.tombstone_tombstone]
    · by_cases later : key ∈ rest <;> simp [same, later]

theorem IndexOk_tombstones (ok : IndexOk bound index) (keys : List Bytes) {rev : Revision}
    (above : bound < rev.main) : IndexOk rev.main (index.tombstones keys rev) := by
  intro key entry found
  rw [get?_tombstones] at found
  split_ifs at found with inside
  · rw [← Option.some.inj found]
    exact (ok.getD key).tombstone above
  · exact (ok key entry found).mono above.le

theorem get_tombstones (ok : IndexOk bound index) (keys : List Bytes) {rev : Revision}
    (above : bound < rev.main) (key : Bytes) (r : Int) :
    (index.tombstones keys rev).get key r =
      if key ∈ keys ∧ rev.main ≤ r then none else index.get key r := by
  rw [get_eq_getD, get?_tombstones, get_eq_getD]
  by_cases inside : key ∈ keys
  · rw [if_pos inside, Option.getD_some, KeyIndexEntry.revisionAt_tombstone (ok.getD key) above]
    simp [inside]
  · rw [if_neg inside, if_neg (fun both => inside both.1)]

theorem get_compact (ok : IndexOk bound index) {c r : Int} (le : c ≤ r) (key : Bytes) :
    (index.compact c).get key r = (index.get key r).filter fun rev => c ≤ rev.main := by
  unfold get compact
  rw [OrdMap.get?_mapValues]
  cases found : index.tree.get? key with
  | none => rfl
  | some entry => exact revisionAt_compact (ok key entry found) le

theorem get_between (ok : IndexOk bound index) {key : Bytes} {rev : Revision} {c q : Int}
    (le : c ≤ q) (found : index.get key q = some rev) (visible : rev.main ≤ c) :
    index.get key c = some rev := by
  obtain ⟨entry, hit, found⟩ := Option.bind_eq_some_iff.mp found
  exact Option.bind_eq_some_iff.mpr
    ⟨entry, hit, KeyIndexEntry.revisionAt_between (ok key entry hit) le found visible⟩

theorem get_above (ok : IndexOk bound index) {r : Int} (above : bound ≤ r) (key : Bytes) :
    index.get key r = index.get key bound := by
  unfold get
  cases found : index.tree.get? key with
  | none => rfl
  | some entry => exact KeyIndexEntry.revisionAt_above (ok key entry found) above

theorem main_le_of_get (ok : IndexOk bound index) {key : Bytes} {rev : Revision} {r : Int}
    (found : index.get key r = some rev) : rev.main ≤ bound := by
  obtain ⟨entry, hit, found⟩ := Option.bind_eq_some_iff.mp found
  exact KeyIndexEntry.AllRevisions.of_revisionAt (P := fun rev => rev.main ≤ bound)
    (ok key entry hit).revisions found

/-- A lookup at `r` finds nothing above `r`. -/
theorem main_le_of_lookup {key : Bytes} {rev : Revision} {r : Int}
    (found : index.get key r = some rev) : rev.main ≤ r := by
  obtain ⟨entry, _, found⟩ := Option.bind_eq_some_iff.mp found
  obtain ⟨gen, _, last⟩ := Option.bind_eq_some_iff.mp found
  simpa using List.find?_some last

/-- Every revision in the index satisfies `P`. -/
def AllRevisions (P : Revision → Prop) (index : KeyIndex) : Prop :=
  ∀ key entry, index.tree.get? key = some entry → entry.AllRevisions P

namespace AllRevisions

variable {P : Revision → Prop}

theorem new : AllRevisions P .new := by
  intro key entry found
  simp [KeyIndex.new] at found

theorem getD (all : AllRevisions P index) (key : Bytes) :
    ((index.tree.get? key).getD .new).AllRevisions P := by
  cases found : index.tree.get? key with
  | none => exact KeyIndexEntry.AllRevisions.new
  | some entry => exact all key entry found

theorem put (all : AllRevisions P index) (key : Bytes) {rev : Revision} (holds : P rev) :
    AllRevisions P (index.put key rev) := by
  intro other entry found
  simp only [KeyIndex.put, OrdMap.get?_insert] at found
  split_ifs at found with same
  · rw [← Option.some.inj found]
    exact (all.getD key).put holds
  · exact all other entry found

theorem tombstones (all : AllRevisions P index) (keys : List Bytes) {rev : Revision}
    (holds : P rev) : AllRevisions P (index.tombstones keys rev) := by
  intro key entry found
  rw [get?_tombstones] at found
  split_ifs at found with inside
  · rw [← Option.some.inj found]
    exact (all.getD key).tombstone holds
  · exact all key entry found

theorem compact (all : AllRevisions P index) (c : Int) : AllRevisions P (index.compact c) := by
  intro key entry found
  simp only [KeyIndex.compact, OrdMap.get?_mapValues] at found
  obtain ⟨old, hit, rfl⟩ := Option.map_eq_some_iff.mp found
  exact (all key old hit).compact c

theorem of_get (all : AllRevisions P index) {key : Bytes} {r : Int} {rev : Revision}
    (found : index.get key r = some rev) : P rev := by
  obtain ⟨entry, hit, found⟩ := Option.bind_eq_some_iff.mp found
  exact (all key entry hit).of_revisionAt found

end AllRevisions

/-! ### Ranges -/

/-- The list `range` returns when it takes its interval. -/
def keysIn (index : KeyIndex) (start stop : Bytes) (revision : Int) : List (Bytes × Revision) :=
  (index.tree.entries.filter fun e => Bytes.InRange start stop e.1).filterMap fun e =>
    (e.2.revisionAt revision).map fun rev => (e.1, rev)

/-- The intervals that are not inverted. -/
def ValidRange (start stop : Bytes) : Prop := stop = [] ∨ start ≤ stop

instance (start stop : Bytes) : Decidable (ValidRange start stop) :=
  inferInstanceAs (Decidable (stop = [] ∨ start ≤ stop))

/-- The intervals that `range` takes: all of them, as long as the map has not held a key. -/
def Accepts (held : Bool) (start stop : Bytes) : Prop := held = false ∨ ValidRange start stop

instance (held : Bool) (start stop : Bytes) : Decidable (Accepts held start stop) :=
  inferInstanceAs (Decidable (held = false ∨ ValidRange start stop))

namespace Accepts

variable {held : Bool} {start stop : Bytes}

theorem of_valid (valid : ValidRange start stop) : Accepts held start stop := .inr valid

theorem of_not_held (never : held = false) : Accepts held start stop := .inl never

/-- What is refused is inverted, on a map that has held a key. -/
theorem of_not (refused : ¬ Accepts held start stop) : held = true ∧ ¬ ValidRange start stop := by
  rw [Accepts, not_or, Bool.not_eq_false] at refused
  exact refused

theorem iff_of_held (has : held = true) : Accepts held start stop ↔ ValidRange start stop :=
  or_iff_right (by simp [has])

end Accepts

theorem range_eq {start stop : Bytes} (accepts : Accepts index.held start stop) (r : Int) :
    index.range start stop r = some (index.keysIn start stop r) := by
  have straight : ¬ (index.held ∧ stop ≠ [] ∧ stop < start) := by
    rintro ⟨held, bounded, inverted⟩
    rcases accepts with never | open_ | le
    · exact absurd held (Bool.eq_false_iff.mp never)
    · exact bounded open_
    · exact absurd inverted (not_lt.mpr le)
  rw [range, if_neg straight]
  rfl

theorem range_eq_none {start stop : Bytes} (refused : ¬ Accepts index.held start stop) (r : Int) :
    index.range start stop r = none := by
  obtain ⟨held, inverted⟩ := Accepts.of_not refused
  unfold ValidRange at inverted
  push Not at inverted
  rw [range, if_pos ⟨held, inverted⟩]

/-- A key that has a history is held. -/
theorem held_of_get? {key : Bytes} {entry : KeyIndexEntry} (found : index.tree.get? key = some entry) :
    index.held = true := by
  rw [held, Bool.not_eq_true', ← Bool.not_eq_true, OrdMap.isEmpty_iff_get?]
  intro none
  rw [none key] at found
  cases found

theorem held_of_get {key : Bytes} {r : Int} {rev : Revision} (found : index.get key r = some rev) :
    index.held = true := by
  obtain ⟨entry, hit, -⟩ := Option.bind_eq_some_iff.mp found
  exact held_of_get? hit

/-- An index that never held a key lists nothing. -/
theorem keysIn_of_not_held (never : index.held = false) (start stop : Bytes) (r : Int) :
    index.keysIn start stop r = [] := by
  rw [held, Bool.not_eq_false', OrdMap.isEmpty_iff] at never
  rw [keysIn, never]
  rfl

@[simp] theorem held_new : new.held = false := rfl

@[simp] theorem held_put (index : KeyIndex) (key : Bytes) (rev : Revision) :
    (index.put key rev).held = true := by
  rw [held, put, OrdMap.isEmpty_insert, Bool.not_false]

theorem held_tombstones (index : KeyIndex) (keys : List Bytes) (rev : Revision) :
    (index.tombstones keys rev).held = (index.held || !keys.isEmpty) := by
  induction keys generalizing index with
  | nil => exact (Bool.or_false _).symm
  | cons key rest ih =>
    have first : (index.tombstone key rev).held = true := by
      rw [held, tombstone, OrdMap.isEmpty_insert, Bool.not_false]
    have next := ih (index.tombstone key rev)
    rw [first, Bool.true_or] at next
    rw [List.isEmpty_cons, Bool.not_false, Bool.or_true]
    exact next

@[simp] theorem held_compact (index : KeyIndex) (c : Int) : (index.compact c).held = index.held := by
  rw [held, held, compact, OrdMap.isEmpty_mapValues]

/-- **A range lists the keys of the interval that `get` finds.** -/
theorem mem_keysIn {start stop key : Bytes} {r : Int} {rev : Revision} :
    (key, rev) ∈ index.keysIn start stop r ↔
      Bytes.InRange start stop key ∧ index.get key r = some rev := by
  unfold keysIn
  simp only [List.mem_filterMap, List.mem_filter, decide_eq_true_eq, Option.map_eq_some_iff,
    Prod.mk.injEq, Prod.exists]
  constructor
  · rintro ⟨k, entry, ⟨member, inside⟩, rev', found, rfl, rfl⟩
    refine ⟨inside, ?_⟩
    rw [get, OrdMap.mem_entries_iff.mp member]
    exact found
  · rintro ⟨inside, found⟩
    obtain ⟨entry, hit, visible⟩ := Option.bind_eq_some_iff.mp found
    exact ⟨key, entry, ⟨OrdMap.mem_entries_iff.mpr hit, inside⟩, rev, visible, rfl, rfl⟩

/-- A range is in ascending key order. -/
theorem keysIn_ascending (index : KeyIndex) (start stop : Bytes) (r : Int) :
    (index.keysIn start stop r).Pairwise fun a b => a.1 < b.1 := by
  unfold keysIn
  refine List.Pairwise.filterMap _ ?_ (index.tree.sorted.filter _)
  intro a b less first isFirst second isSecond
  obtain ⟨_, _, rfl⟩ := Option.map_eq_some_iff.mp isFirst
  obtain ⟨_, _, rfl⟩ := Option.map_eq_some_iff.mp isSecond
  exact less

/-- The range of one key. -/
theorem keysIn_single (index : KeyIndex) (key : Bytes) (r : Int) :
    index.keysIn key (key ++ [0]) r = (index.get key r).toList.map fun rev => (key, rev) := by
  refine OrdMap.eq_of_mem_iff Prod.fst (index.keysIn_ascending _ _ r) ?_ ?_
  · cases index.get key r <;> simp
  · rintro ⟨k, rev⟩
    rw [mem_keysIn, Bytes.inRange_single]
    cases found : index.get key r with
    | none =>
      simp only [Option.toList_none, List.map_nil, List.not_mem_nil, iff_false]
      rintro ⟨rfl, hit⟩
      rw [found] at hit
      cases hit
    | some rev' =>
      simp only [Option.toList_some, List.map_cons, List.map_nil, List.mem_singleton, Prod.mk.injEq]
      constructor
      · rintro ⟨rfl, hit⟩
        rw [found] at hit
        exact ⟨rfl, (Option.some.inj hit).symm⟩
      · rintro ⟨rfl, rfl⟩
        exact ⟨rfl, found⟩

/-- Two indexes that agree on every key of the interval list the same range. -/
theorem keysIn_congr {other : KeyIndex} {start stop : Bytes} {r r' : Int}
    (same : ∀ key, Bytes.InRange start stop key → index.get key r = other.get key r') :
    index.keysIn start stop r = other.keysIn start stop r' := by
  refine OrdMap.eq_of_mem_iff Prod.fst (index.keysIn_ascending start stop r)
    (other.keysIn_ascending start stop r') ?_
  rintro ⟨key, rev⟩
  rw [mem_keysIn, mem_keysIn]
  exact and_congr_right fun inside => by rw [same key inside]

end KeyIndex

end Rusd
