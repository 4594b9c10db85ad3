/-
**A snapshot taken while the trees are written** (`storage/backend.rs`, `snapshot`).

`snapshot` goes through every tree twice: one pass counts the entries, the next one writes them behind
the count. Each pass sees the tree at its own moment; the inserts and removals of concurrent calls fall
between.

* `LiveSnapshot.step` — the passes, and the writes of other calls.
* `passes_alone` — the passes without other calls are `Backend.snapshot`.
* `written_of_run` — what the passes wrote, when each writing pass met the entries that were counted.
* `live_snapshot_restores` — then a restore gives each tree back as its writing pass saw it.
-/

import Rusd.Lib.Machine
import Rusd.Storage.Reached
import Rusd.Storage.Snapshot

namespace Rusd

open MvccStore

/-! ### The writes of other calls -/

/-- One write of a tree. -/
inductive TreeWrite
  | insert (name : TreeName) (key value : Bytes)
  | remove (name : TreeName) (key : Bytes)
  deriving DecidableEq, Repr

namespace TreeWrite

def apply (b : Backend) : TreeWrite → Backend
  | insert name key value => b.put name key value
  | remove name key => b.delete name key

/-- What is inserted fits the length prefixes. -/
def Fits : TreeWrite → Prop
  | insert _ key value => key.length < 2 ^ 32 ∧ value.length < 2 ^ 32
  | remove _ _ => True

instance : DecidablePred Fits
  | insert _ _ _ => inferInstanceAs (Decidable (_ ∧ _))
  | remove _ _ => .isTrue trivial

/-- The writes of a `put`. -/
def ofPut (newRevision : Int) (kv : KeyValue) : List TreeWrite :=
  [.insert .kv kv.key kv.encode, .insert .kvRev (revKey newRevision kv.key) kv.encodeWithKey]

/-- The writes of a `delete_range`. -/
def ofDelete (newRevision : Int) (keysToDelete : List Bytes) : List TreeWrite :=
  keysToDelete.flatMap fun key => [.remove .kv key,
    .insert .kvRev (revKey newRevision key) (tombstoneRecord newRevision key).encodeWithKey]

end TreeWrite

/-- A `put` leaves the trees alone or makes its two writes. -/
theorem put_writes {s : MvccStore} (room : s.currentRevision + 1 < 2 ^ 63) (key value : Bytes)
    (lease : Int) :
    ((MvccStore.put key value lease).run s).2.backend = s.backend ∨
      ∃ kv, kv.key = key ∧ ((MvccStore.put key value lease).run s).2.backend =
        (TreeWrite.ofPut (s.currentRevision + 1) kv).foldl TreeWrite.apply s.backend := by
  rcases MvccStore.put_state room key value lease with same | ⟨kv, named, -, same⟩
  · exact .inl (by rw [same])
  · exact .inr ⟨kv, named, by rw [same]; rfl⟩

/-- A `delete_range` leaves the trees alone or makes two writes for each key. -/
theorem deleteRange_writes {s : MvccStore} (room : s.currentRevision + 1 < 2 ^ 63)
    (start stop : Bytes) :
    ((MvccStore.deleteRange start stop).run s).2.backend = s.backend ∨
      ∃ keys, ((MvccStore.deleteRange start stop).run s).2.backend =
        (TreeWrite.ofDelete (s.currentRevision + 1) keys).foldl TreeWrite.apply s.backend := by
  rcases MvccStore.deleteRange_state room start stop with same | ⟨keys, same⟩
  · exact .inl (by rw [same])
  · refine .inr ⟨keys, ?_⟩
    rw [same, TreeWrite.ofDelete, List.foldl_flatMap]
    rfl

/-! ### The passes -/

/-- A snapshot on its way: the bytes so far, the trees that are not written yet, and the number of
entries of the first of them, once it is counted. -/
structure LiveSnapshot where
  backend : Backend
  data : Bytes
  pending : List TreeName
  counted : Option Nat

/-- The snapshot makes its next pass, or another call writes a tree. -/
inductive LiveStep
  | pass
  | write (write : TreeWrite)
  deriving DecidableEq, Repr

namespace LiveSnapshot

def start (b : Backend) : LiveSnapshot := ⟨b, [], TreeName.all, none⟩

/-- The bytes of a tree behind a count. -/
def block (count : Nat) (name : TreeName) (contents : OrdMap Bytes Bytes) : Bytes :=
  KeyValue.encodeField name.label ++
    (leBytes 4 count ++ contents.entries.flatMap Backend.snapshotEntry)

def step (s : LiveSnapshot) : LiveStep → Option LiveSnapshot
  | .pass =>
    match s.pending, s.counted with
    | [], _ => none
    | name :: _, none =>
      -- the count is a `u32`; its overflow ends the snapshot in a panic
      if (s.backend.tree name).entries.length < 2 ^ 32 then
        some { s with counted := some (s.backend.tree name).entries.length }
      else none
    | name :: rest, some count =>
      some { s with
        data := s.data ++ block count name (s.backend.tree name)
        pending := rest
        counted := none }
  | .write write => some { s with backend := write.apply s.backend }

/-- The next pass writes the tree. -/
def Writing (s : LiveSnapshot) (name : TreeName) : Prop :=
  s.pending.head? = some name ∧ s.counted.isSome

/-- A writing pass meets as many entries as were counted; what is inserted fits its prefixes. -/
def Steady (s : LiveSnapshot) : LiveStep → Prop
  | .pass => ∀ name ∈ s.pending.head?, ∀ count ∈ s.counted,
      (s.backend.tree name).entries.length = count
  | .write write => write.Fits

instance (s : LiveSnapshot) : DecidablePred s.Steady
  | .pass => inferInstanceAs (Decidable (∀ name ∈ s.pending.head?, ∀ count ∈ s.counted, _))
  | .write write => inferInstanceAs (Decidable write.Fits)

/-- The two passes over every pending tree, without other calls. -/
theorem run_passes {b : Backend} : ∀ {names : List TreeName} {data : Bytes},
    (∀ name ∈ names, (b.tree name).entries.length < 2 ^ 32) →
    runFrom step ⟨b, data, names, none⟩ (names.flatMap fun _ => [.pass, .pass]) =
      some ⟨b, data ++ names.flatMap b.snapshotTree, [], none⟩ := by
  intro names
  induction names with
  | nil =>
    intro data _
    rw [List.flatMap_nil, List.flatMap_nil, List.append_nil]
    rfl
  | cons name names ih =>
    intro data few
    have next := @ih (data ++ b.snapshotTree name)
      fun name member => few name (List.mem_cons_of_mem _ member)
    rw [List.flatMap_cons, List.cons_append, List.cons_append, List.nil_append, runFrom, step]
    simp only [if_pos (few name List.mem_cons_self)]
    rw [runFrom, List.flatMap_cons, ← List.append_assoc]
    exact next

end LiveSnapshot

open LiveSnapshot

/-- **The passes without other calls are `Backend.snapshot`.** -/
theorem passes_alone {b : Backend} {data : Bytes} (taken : b.snapshot = .ok data) :
    runFrom step (start b) (TreeName.all.flatMap fun _ => [.pass, .pass]) =
      some ⟨b, data, [], none⟩ := by
  rw [Backend.snapshot] at taken
  split_ifs at taken with few
  cases taken
  exact run_passes few

/-! ### What the passes write -/

/-- The fields of every tree fit their length prefixes. -/
def Backend.FieldsFit (b : Backend) : Prop :=
  ∀ name key value, b.get name key = some value → key.length < 2 ^ 32 ∧ value.length < 2 ^ 32

theorem Backend.FieldsFit.apply {b : Backend} (fit : b.FieldsFit) {write : TreeWrite}
    (fits : write.Fits) : (write.apply b).FieldsFit := by
  intro name key value found
  cases write with
  | insert other key' value' =>
    rw [TreeWrite.apply, Backend.get_put] at found
    split_ifs at found with same
    · cases found
      rw [same.2]
      exact fits
    · exact fit name key value found
  | remove other key' =>
    rw [TreeWrite.apply, Backend.get_delete] at found
    split_ifs at found
    exact fit name key value found

theorem Backend.FieldsFit.foldl {b : Backend} (fit : b.FieldsFit) (writes : List TreeWrite)
    (fits : ∀ write ∈ writes, write.Fits) : (writes.foldl TreeWrite.apply b).FieldsFit := by
  induction writes generalizing b with
  | nil => exact fit
  | cons write rest ih =>
    obtain ⟨here, later⟩ := List.forall_mem_cons.mp fits
    exact ih (fit.apply here) later

/-- A tree that can be written: its fields fit their prefixes, its entries their count. -/
def TreeFits (contents : OrdMap Bytes Bytes) : Prop :=
  (∀ key value, contents.get? key = some value → key.length < 2 ^ 32 ∧ value.length < 2 ^ 32) ∧
    contents.entries.length < 2 ^ 32

/-- The tree as a writing pass of the run saw it. -/
def SeenAt (s : LiveSnapshot) (actions : List LiveStep) (name : TreeName)
    (contents : OrdMap Bytes Bytes) : Prop :=
  ∃ (i : Nat) (u : LiveSnapshot), runFrom step s (actions.take i) = some u ∧ u.Writing name ∧
    contents = u.backend.tree name

theorem SeenAt.later {s next : LiveSnapshot} {action : LiveStep} {rest : List LiveStep}
    {name : TreeName} {contents : OrdMap Bytes Bytes} (moves : s.step action = some next)
    (seen : SeenAt next rest name contents) : SeenAt s (action :: rest) name contents := by
  obtain ⟨i, u, reaches, writing, same⟩ := seen
  refine ⟨i + 1, u, ?_, writing, same⟩
  rwa [List.take_succ_cons, runFrom, moves]

/-- **What the passes wrote**: the pending trees, each as its writing pass saw it. The induction is on
the run; a writing pass adds its tree to what the rest of the run saw. -/
theorem written_of_run {actions : List LiveStep} : ∀ {s t : LiveSnapshot}, s.pending.Nodup →
    s.backend.FieldsFit → (∀ count ∈ s.counted, count < 2 ^ 32) → Along step Steady s actions →
    runFrom step s actions = some t → t.pending = [] →
    ∃ seen : Backend, t.data = s.data ++ s.pending.flatMap seen.snapshotTree ∧
      ∀ name ∈ s.pending, TreeFits (seen.tree name) ∧ SeenAt s actions name (seen.tree name) := by
  induction actions with
  | nil =>
    intro s t _ _ _ _ runs finished
    cases runs
    refine ⟨s.backend, ?_, fun name member => ?_⟩
    · rw [finished, List.flatMap_nil, List.append_nil]
    · rw [finished] at member
      cases member
  | cons action rest ih =>
    intro s t distinct fit few along runs finished
    obtain ⟨next, moves, runs⟩ := runFrom_cons runs
    have steady := along.head
    have after := along.tail moves
    -- a step that finishes no tree
    have through : next.pending = s.pending → next.data = s.data → next.backend.FieldsFit →
        (∀ count ∈ next.counted, count < 2 ^ 32) →
        ∃ seen : Backend, t.data = s.data ++ s.pending.flatMap seen.snapshotTree ∧
          ∀ name ∈ s.pending, TreeFits (seen.tree name) ∧
            SeenAt s (action :: rest) name (seen.tree name) := by
      intro pending data fit few
      obtain ⟨seen, written, each⟩ := ih (pending ▸ distinct) fit few after runs finished
      rw [pending, data] at written
      rw [pending] at each
      exact ⟨seen, written, fun name member => (each name member).imp_right (SeenAt.later moves)⟩
    cases action with
    | write write =>
      cases moves
      exact through rfl rfl (fit.apply steady) few
    | pass =>
      obtain ⟨b, data, pending, counted⟩ := s
      cases pending with
      | nil => cases moves
      | cons name names =>
        cases counted with
        | none =>
          simp only [step] at moves
          split_ifs at moves with small
          cases moves
          refine through rfl rfl fit fun count member => ?_
          cases member
          exact small
        | some count =>
          obtain rfl : next = ⟨b, data ++ block count name (b.tree name), names, none⟩ :=
            (Option.some.inj moves).symm
          have met : (b.tree name).entries.length = count := steady name rfl count rfl
          obtain ⟨fresh, distinct⟩ := List.nodup_cons.mp distinct
          obtain ⟨seen, written, each⟩ :=
            ih (s := ⟨b, data ++ block count name (b.tree name), names, none⟩) distinct fit (by simp) after
              runs finished
          have own : (seen.setTree name (b.tree name)).tree name = b.tree name := if_pos rfl
          have others : ∀ other ∈ names,
              (seen.setTree name (b.tree name)).tree other = seen.tree other :=
            fun other member => if_neg fun (same : other = name) => fresh (same ▸ member)
          refine ⟨seen.setTree name (b.tree name), ?_, fun other member => ?_⟩
          · have tail : names.flatMap (seen.setTree name (b.tree name)).snapshotTree =
                names.flatMap seen.snapshotTree :=
              List.flatMap_congr fun other member => by
                rw [Backend.snapshotTree, Backend.snapshotTree, others other member]
            rw [written, List.flatMap_cons, tail, Backend.snapshotTree, own, met, List.append_assoc]
            rfl
          · rcases List.mem_cons.mp member with rfl | later
            · rw [own]
              exact ⟨⟨fun key value => fit other key value, met ▸ few count rfl⟩,
                0, _, rfl, ⟨rfl, rfl⟩, rfl⟩
            · rw [others other later]
              exact (each other later).imp_right (SeenAt.later moves)

/-- **A snapshot under load can be restored** in every run in which each writing pass met as many entries
as were counted: a restore of its bytes on an empty backend succeeds, and gives every tree back as it was
when its writing pass went through it. -/
theorem live_snapshot_restores (b : Backend) (fit : b.FieldsFit) (actions : List LiveStep)
    (steady : Along step Steady (start b) actions) (t : LiveSnapshot)
    (runs : runFrom step (start b) actions = some t) (finished : t.pending = []) :
    ∃ restored, (Backend.restore t.data).run .empty = (.ok (), restored) ∧
      ∀ name, ∃ i u, runFrom step (start b) (actions.take i) = some u ∧ u.Writing name ∧
        restored.tree name = u.backend.tree name := by
  obtain ⟨seen, written, each⟩ :=
    written_of_run (s := start b) (show TreeName.all.Nodup by decide) fit (by simp [start]) steady runs
      finished
  have known : ∀ name : TreeName, name ∈ TreeName.all := by
    intro name
    cases name <;> decide
  have fits : seen.Fits :=
    ⟨fun name key value found => (each name (known name)).1.1 key value found,
      fun name member => (each name member).1.2⟩
  have taken : seen.snapshot = .ok t.data := by
    rw [Backend.snapshot, if_pos fits.counts, written]
    rfl
  exact ⟨seen, Backend.restore_snapshot fits taken, fun name => (each name (known name)).2⟩

/-- A store with one key. -/
def firstKeyStore : MvccStore := ((MvccStore.put [97] [49] 0).run (.new .empty)).2

/-- The record of a second key. -/
def secondRecord : KeyValue := ⟨[98], 3, 3, 1, [50], 0⟩

/-- The second key is put after the passes over the `kv` tree and before those over `kv_rev`. -/
def putBetweenTrees : List LiveStep :=
  [.pass, .pass] ++ (TreeWrite.ofPut 3 secondRecord).map .write ++ List.replicate 10 .pass

/-- The second key is put between the count of the `kv` tree and the pass that writes it. -/
def putBetweenPasses : List LiveStep :=
  .pass :: (TreeWrite.ofPut 3 secondRecord).map .write ++ List.replicate 11 .pass

/-- The snapshot is restored with the key in one tree only, as each was when it was written. -/
theorem put_between_trees_restores :
    ∃ t restored, runFrom step (start firstKeyStore.backend) putBetweenTrees = some t ∧ t.pending = [] ∧
      (Backend.restore t.data).run .empty = (.ok (), restored) ∧
      ∀ name, ∃ i u, runFrom step (start firstKeyStore.backend) (putBetweenTrees.take i) = some u ∧
        u.Writing name ∧ restored.tree name = u.backend.tree name := by
  have fit : firstKeyStore.backend.FieldsFit :=
    Backend.FieldsFit.foldl (fun name key value found => by cases found)
      (TreeWrite.ofPut 2 ⟨[97], 2, 2, 1, [49], 0⟩) (by decide)
  have steady : Along step Steady (start firstKeyStore.backend) putBetweenTrees := by decide +kernel
  have ends : (runFrom step (start firstKeyStore.backend) putBetweenTrees).map LiveSnapshot.pending =
      some [] := by decide +kernel
  obtain ⟨t, runs, finished⟩ := Option.map_eq_some_iff.mp ends
  obtain ⟨restored, succeeded, each⟩ := live_snapshot_restores _ fit _ steady t runs finished
  exact ⟨t, restored, runs, finished, succeeded, each⟩

/-- The restore takes the entry that was not counted for the next tree, and fails. -/
theorem put_between_passes_unreadable :
    (∃ prevKv s', (MvccStore.put [98] [50] 0).run firstKeyStore = (.ok (3, secondRecord, prevKv), s') ∧
      s'.backend = (TreeWrite.ofPut 3 secondRecord).foldl TreeWrite.apply firstKeyStore.backend) ∧
    ∃ t, runFrom step (start firstKeyStore.backend) putBetweenPasses = some t ∧ t.pending = [] ∧
      ((Backend.restore t.data).run .empty).1 = .err (.treeNotFound [98]) := by
  constructor
  · exact ⟨none, _, rfl, rfl⟩
  · have ends : (runFrom step (start firstKeyStore.backend) putBetweenPasses).map
        (fun t => (t.pending, ((Backend.restore t.data).run .empty).1)) =
          some ([], .err (.treeNotFound [98])) := by decide +kernel
    obtain ⟨t, runs, finished⟩ := Option.map_eq_some_iff.mp ends
    exact ⟨t, runs, congrArg Prod.fst finished, congrArg Prod.snd finished⟩

end Rusd
