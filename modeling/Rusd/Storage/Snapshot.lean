/-
**Snapshots of the store** (`storage/backend.rs`, `snapshot` and `restore`; `storage/mvcc.rs`,
`create_snapshot`, `restore_snapshot` and `rebuild_key_index`).

A snapshot holds the two revision counters and then the six trees, each as its name, a count and
its entries; every name, key and value has a `u32` length in front. The key index is not part of it:
a restore rebuilds it from the latest records.

* `restore_snapshot` — a backend whose keys and values fit their length prefix comes back as it was.
* `restoreSnapshot_run` — what the store is after it restored the snapshot of another one.
-/

import Rusd.Lib.Utf8
import Rusd.Storage.Mvcc

namespace Rusd

/-- The name of a tree, as its bytes. -/
def TreeName.label : TreeName → Bytes
  | .kv => [0x6B, 0x76] -- kv
  | .kvRev => [0x6B, 0x76, 0x5F, 0x72, 0x65, 0x76] -- kv_rev
  | .index => [0x69, 0x6E, 0x64, 0x65, 0x78] -- index
  | .metadata => [0x6D, 0x65, 0x74, 0x61] -- meta
  | .lease => [0x6C, 0x65, 0x61, 0x73, 0x65] -- lease
  | .auth => [0x61, 0x75, 0x74, 0x68] -- auth

/-- The trees, in the order of a snapshot. -/
def TreeName.all : List TreeName := [.kv, .kvRev, .index, .metadata, .lease, .auth]

/-- The tree a name stands for. -/
def TreeName.ofLabel (name : Bytes) : Option TreeName := TreeName.all.find? fun tree => tree.label = name

namespace Backend

/-- One entry of a snapshot. -/
def snapshotEntry (entry : Bytes × Bytes) : Bytes :=
  KeyValue.encodeField entry.1 ++ KeyValue.encodeField entry.2

/-- One tree of a snapshot: its name, the number of its entries, the entries. -/
def snapshotTree (b : Backend) (name : TreeName) : Bytes :=
  KeyValue.encodeField name.label ++
    (leBytes 4 (b.tree name).entries.length ++ (b.tree name).entries.flatMap snapshotEntry)

/-- A snapshot of all trees; the entries are counted in a `u32`, by checked additions. -/
def snapshot (b : Backend) : Outcome BackendError Bytes :=
  if ∀ name ∈ TreeName.all, (b.tree name).entries.length < 2 ^ 32 then
    .ok (TreeName.all.flatMap b.snapshotTree)
  else .panic

/-- A `u32`, and what follows it. -/
def readU32 (data : Bytes) : Option (Nat × Bytes) :=
  if data.length < 4 then none else some (ofLeBytes (data.take 4), data.drop 4)

/-- A field with its length in front, and what follows it. -/
def readField (data : Bytes) : Option (Bytes × Bytes) :=
  (readU32 data).bind fun (len, rest) =>
    if rest.length < len then none else some (rest.take len, rest.drop len)

def invalidSnapshot : BackendError := .serializationError "Invalid snapshot data"

/-- The loop of `restore` over the entries of one tree; the value is what follows them. -/
def restoreEntries (name : TreeName) : Nat → Bytes → Exec Backend BackendError Bytes
  | 0, data => pure data
  | count + 1, data =>
    match readField data with
    | none => Exec.throw invalidSnapshot
    | some (key, data) =>
      match readField data with
      | none => Exec.throw invalidSnapshot
      | some (value, data) => do
        Exec.update fun b => b.put name key value
        restoreEntries name count data

/-- The loop of `restore` over the trees. -/
def restoreTrees : Nat → Bytes → Exec Backend BackendError Unit
  | 0, _ => pure ()
  | rounds + 1, data =>
    match readU32 data with
    -- the end of the data; one to three bytes that are left over end the loop as well
    | none => pure ()
    | some (nameLen, data) =>
      if data.length < nameLen then Exec.throw invalidSnapshot
      else if ¬ ValidUtf8 (data.take nameLen) then
        Exec.throw (.serializationError "Invalid tree name")
      else
        match TreeName.ofLabel (data.take nameLen) with
        | none => Exec.throw (.treeNotFound (data.take nameLen))
        | some name =>
          match readU32 (data.drop nameLen) with
          | none => Exec.throw invalidSnapshot
          | some (count, data) => do
            let data ← restoreEntries name count data
            restoreTrees rounds data

/-- Restores all trees from snapshot data. A round reads at least four bytes, so there are no more
rounds than bytes. -/
def restore (data : Bytes) : Exec Backend BackendError Unit := restoreTrees data.length data

end Backend

namespace MvccStore

/-- Creates a full snapshot of the store. -/
def createSnapshot (s : MvccStore) : Outcome StorageError Bytes :=
  match s.backend.snapshot with
  | .ok backendData => .ok (i64ToLe s.currentRevision ++ (i64ToLe s.compactRevision ++ backendData))
  | .err e => .err (.backend e)
  | .panic => .panic

/-- A call on the backend of the store. -/
def onBackend {α : Type} (m : Exec Backend BackendError α) : StoreM α where
  run s := match m.run s.backend with
    | (.ok a, backend) => (.ok a, { s with backend := backend })
    | (.err e, backend) => (.err (.backend e), { s with backend := backend })
    | (.panic, backend) => (.panic, { s with backend := backend })

/-- The loop of `rebuild_key_index` over the entries of the `kv` tree. -/
def rebuildEntries : List (Bytes × Bytes) → StoreM Unit
  | [] => pure ()
  | (key, data) :: rest => do
    let kv ← Exec.attempt (KeyValue.decode key data)
    match kv with
    | none => pure ()
    | some kv => Exec.update fun s => { s with keyIndex := s.keyIndex.put key ⟨kv.modRevision, 0⟩ }
    rebuildEntries rest

/-- Rebuilds the key index from the `kv` tree. -/
def rebuildKeyIndex : StoreM Unit := do
  Exec.update fun s => { s with keyIndex := .new }
  let entries ← Exec.read fun s => (s.backend.tree .kv).entries
  rebuildEntries entries

/-- Restores the store from a snapshot. -/
def restoreSnapshot (data : Bytes) : StoreM Unit :=
  if data.length < 16 then Exec.throw (.mvcc "Invalid snapshot data: too short")
  else do
    let currentRev := i64OfLe (slice data 0 8)
    let compactRev := i64OfLe (slice data 8 16)
    Exec.update fun s => { s with backend := .empty }
    onBackend (Backend.restore (data.drop 16))
    Exec.update fun s => { s with currentRevision := currentRev }
    Exec.update fun s => { s with compactRevision := compactRev }
    rebuildKeyIndex

end MvccStore

/-! ### Reading what was written -/

namespace Backend

theorem readU32_leBytes {n : Nat} (fits : n < 2 ^ 32) (rest : Bytes) :
    readU32 (leBytes 4 n ++ rest) = some (n, rest) := by
  have taken : (leBytes 4 n ++ rest).take 4 = leBytes 4 n := List.take_left' (length_leBytes 4 n)
  have dropped : (leBytes 4 n ++ rest).drop 4 = rest := List.drop_left' (length_leBytes 4 n)
  unfold readU32
  rw [if_neg (by simp), taken, dropped, ofLeBytes_leBytes 4 n (by norm_num; omega)]

theorem readField_encodeField {field : Bytes} (short : field.length < 2 ^ 32) (rest : Bytes) :
    readField (KeyValue.encodeField field ++ rest) = some (field, rest) := by
  unfold readField KeyValue.encodeField
  rw [List.append_assoc, readU32_leBytes short, Option.bind_some]
  simp

theorem restoreEntries_run (name : TreeName) {entries : List (Bytes × Bytes)}
    (fit : ∀ e ∈ entries, e.1.length < 2 ^ 32 ∧ e.2.length < 2 ^ 32) (rest : Bytes) (b : Backend) :
    (restoreEntries name entries.length (entries.flatMap snapshotEntry ++ rest)).run b =
      (.ok rest, entries.foldl (fun b e => b.put name e.1 e.2) b) := by
  induction entries generalizing b with
  | nil => rfl
  | cons e entries ih =>
    obtain ⟨key, value⟩ := e
    obtain ⟨keyShort, valueShort⟩ := fit (key, value) List.mem_cons_self
    rw [List.flatMap_cons, List.length_cons, restoreEntries, snapshotEntry, List.append_assoc,
      List.append_assoc, readField_encodeField keyShort]
    simp only
    rw [readField_encodeField valueShort]
    simp only
    rw [Exec.run_bind_ok (Exec.run_update _ _), ih fun e member => fit e (List.mem_cons_of_mem _ member)]
    rfl

/-- The keys and values of a backend that fit their length prefix, and the trees their count. -/
structure Fits (b : Backend) : Prop where
  fields : ∀ name key value, b.get name key = some value → key.length < 2 ^ 32 ∧ value.length < 2 ^ 32
  counts : ∀ name ∈ TreeName.all, (b.tree name).entries.length < 2 ^ 32

/-- Writing the entries of one tree into another backend. -/
def putAll (b : Backend) (source : Backend) (name : TreeName) : Backend :=
  (source.tree name).entries.foldl (fun b e => b.put name e.1 e.2) b

/-- The record of a tree: its name, the number of its entries, the entries. -/
def encodeTree (tree : TreeName × List (Bytes × Bytes)) : Bytes :=
  KeyValue.encodeField tree.1.label ++ (leBytes 4 tree.2.length ++ tree.2.flatMap snapshotEntry)

/-- The entries of a record fit their count, and their keys and values the length prefix. -/
structure RecordFits (tree : TreeName × List (Bytes × Bytes)) : Prop where
  count : tree.2.length < 2 ^ 32
  fields : ∀ e ∈ tree.2, e.1.length < 2 ^ 32 ∧ e.2.length < 2 ^ 32

theorem length_label (name : TreeName) : name.label.length < 2 ^ 32 := by cases name <;> decide

/-- **One round of a restore** reads one record. -/
theorem restoreTrees_encodeTree {tree : TreeName × List (Bytes × Bytes)} (fits : RecordFits tree)
    (rounds : Nat) (rest : Bytes) (b : Backend) :
    (restoreTrees (rounds + 1) (encodeTree tree ++ rest)).run b =
      (restoreTrees rounds rest).run (tree.2.foldl (fun b e => b.put tree.1 e.1 e.2) b) := by
  obtain ⟨name, entries⟩ := tree
  have valid : ValidUtf8 name.label := by cases name <;> decide
  have looked : TreeName.ofLabel name.label = some name := by cases name <;> decide
  rw [encodeTree, KeyValue.encodeField, List.append_assoc, List.append_assoc, restoreTrees,
    readU32_leBytes (length_label name)]
  simp only [List.take_left, List.drop_left, List.length_append]
  rw [if_neg (by omega), if_neg (not_not_intro valid), looked]
  simp only
  rw [List.append_assoc, readU32_leBytes fits.count]
  simp only
  rw [Exec.run_bind_ok (restoreEntries_run name fits.fields rest b)]

/-- The records of a backend that fits. -/
theorem Fits.record {b : Backend} (fits : b.Fits) {name : TreeName} (known : name ∈ TreeName.all) :
    RecordFits (name, (b.tree name).entries) where
  count := fits.counts name known
  fields := fun e member => fits.fields name e.1 e.2 (OrdMap.mem_entries_iff.mp member)

theorem restoreTrees_run {b : Backend} (fits : b.Fits) {names : List TreeName}
    (known : ∀ name ∈ names, name ∈ TreeName.all) {rounds : Nat} (enough : names.length ≤ rounds)
    (start : Backend) :
    (restoreTrees rounds (names.flatMap b.snapshotTree)).run start =
      (.ok (), names.foldl (fun target name => target.putAll b name) start) := by
  induction names generalizing rounds start with
  | nil => cases rounds <;> rfl
  | cons name names ih =>
    obtain ⟨rounds, rfl⟩ : ∃ more, rounds = more + 1 := ⟨rounds - 1, by simp at enough; omega⟩
    have tail := ih (fun name member => known name (List.mem_cons_of_mem _ member))
      (by simpa using enough) (start.putAll b name)
    rw [List.flatMap_cons]
    exact (restoreTrees_encodeTree (fits.record (known name List.mem_cons_self)) rounds _ start).trans tail

theorem ext_tree {b other : Backend} (same : ∀ name, b.tree name = other.tree name) : b = other := by
  cases b
  cases other
  exact congrArg Backend.mk (funext same)

theorem tree_putAll (b source : Backend) (name other : TreeName) :
    (b.putAll source name).tree other =
      if other = name then (source.tree name).entries.foldl (fun m e => m.insert e.1 e.2) (b.tree name)
      else b.tree other := by
  unfold putAll
  induction (source.tree name).entries generalizing b with
  | nil =>
    by_cases same : other = name
    · rw [if_pos same, same]
      rfl
    · rw [if_neg same]
      rfl
  | cons e entries ih =>
    rw [List.foldl_cons, ih]
    by_cases same : other = name <;> simp [put, setTree, same]

/-- **A snapshot restored into an empty backend** gives back every tree. -/
theorem restore_snapshot {b : Backend} (fits : b.Fits) {data : Bytes} (taken : b.snapshot = .ok data) :
    (restore data).run .empty = (.ok (), b) := by
  rw [snapshot, if_pos fits.counts] at taken
  obtain rfl := Outcome.ok.inj taken
  have enough : TreeName.all.length ≤ (TreeName.all.flatMap b.snapshotTree).length := by
    simp [TreeName.all, snapshotTree]
    omega
  rw [restore, restoreTrees_run fits (fun name member => member) enough]
  refine Prod.ext rfl (ext_tree fun name => ?_)
  have whole := OrdMap.foldl_insert_entries (b.tree name)
  cases name <;> simpa [TreeName.all, tree_putAll, empty] using whole

/-- Backends whose fields fit their length prefix have different snapshots. -/
theorem snapshot_injective {b c : Backend}
    (fields : ∀ name key value, b.get name key = some value → key.length < 2 ^ 32 ∧ value.length < 2 ^ 32)
    (fields' : ∀ name key value, c.get name key = some value → key.length < 2 ^ 32 ∧ value.length < 2 ^ 32)
    {data : Bytes} (taken : b.snapshot = .ok data) (taken' : c.snapshot = .ok data) : b = c := by
  have counts : ∀ {d : Backend}, d.snapshot = .ok data →
      ∀ name ∈ TreeName.all, (d.tree name).entries.length < 2 ^ 32 := by
    intro d snapped
    by_contra many
    rw [snapshot, if_neg many] at snapped
    cases snapped
  have restored := restore_snapshot ⟨fields, counts taken⟩ taken
  rw [restore_snapshot ⟨fields', counts taken'⟩ taken'] at restored
  exact (congrArg Prod.snd restored).symm

end Backend

/-! ### A restored store -/

namespace MvccStore

/-- The index of the revisions that the latest records carry. -/
def rebuiltIndex (modRevision : Bytes → Int) (entries : List (Bytes × Bytes)) (index : KeyIndex) :
    KeyIndex :=
  entries.foldl (fun index e => index.put e.1 ⟨modRevision e.1, 0⟩) index

theorem rebuildEntries_run {entries : List (Bytes × Bytes)} {record : Bytes → KeyValue}
    (readable : ∀ e ∈ entries, KeyValue.decode e.1 e.2 = .ok (record e.1)) (s : MvccStore) :
    (rebuildEntries entries).run s = (.ok (),
      { s with keyIndex := rebuiltIndex (fun key => (record key).modRevision) entries s.keyIndex }) := by
  induction entries generalizing s with
  | nil => rfl
  | cons e entries ih =>
    obtain ⟨key, data⟩ := e
    have decoded := readable (key, data) List.mem_cons_self
    have tail := ih (fun e member => readable e (List.mem_cons_of_mem _ member))
    simp only at decoded
    rw [rebuildEntries, decoded, Exec.attempt, Exec.run_bind_ok (Exec.run_pure _ _)]
    simp only
    rw [Exec.run_bind_ok (Exec.run_update _ _), tail]
    rfl

/-- The store after it restored the snapshot of `donor`. -/
def afterRestore (donor : MvccStore) (record : Bytes → KeyValue) : MvccStore where
  backend := donor.backend
  currentRevision := donor.currentRevision
  compactRevision := donor.compactRevision
  keyIndex := rebuiltIndex (fun key => (record key).modRevision) (donor.backend.tree .kv).entries .new

/-- **Restoring the snapshot of a store** whose latest records are readable. -/
theorem restoreSnapshot_run {donor : MvccStore} (fits : donor.backend.Fits)
    (current : IsI64 donor.currentRevision) (compact : IsI64 donor.compactRevision)
    {record : Bytes → KeyValue} (readable : ∀ key data, donor.backend.get .kv key = some data →
      KeyValue.decode key data = .ok (record key))
    {data : Bytes} (taken : donor.createSnapshot = .ok data) (s : MvccStore) :
    (restoreSnapshot data).run s = (.ok (), donor.afterRestore record) := by
  obtain ⟨backendData, snapped, rfl⟩ : ∃ backendData, donor.backend.snapshot = .ok backendData ∧
      data = i64ToLe donor.currentRevision ++ (i64ToLe donor.compactRevision ++ backendData) := by
    unfold createSnapshot at taken
    cases snapped : donor.backend.snapshot with
    | ok backendData => exact ⟨backendData, rfl, (Outcome.ok.inj (snapped ▸ taken)).symm⟩
    | err e => rw [snapped] at taken; cases taken
    | panic => rw [snapped] at taken; cases taken
  have first : slice (i64ToLe donor.currentRevision ++
      (i64ToLe donor.compactRevision ++ backendData)) 0 8 = i64ToLe donor.currentRevision :=
    slice_front (length_i64ToLe _)
  have second : slice (i64ToLe donor.currentRevision ++
      (i64ToLe donor.compactRevision ++ backendData)) 8 16 = i64ToLe donor.compactRevision := by
    rw [slice_skip (by simp), length_i64ToLe]
    exact slice_front (length_i64ToLe _)
  have third : (i64ToLe donor.currentRevision ++
      (i64ToLe donor.compactRevision ++ backendData)).drop 16 = backendData := by
    rw [← List.append_assoc]
    exact List.drop_left' (by simp)
  have restored : (onBackend (Backend.restore backendData)).run { s with backend := .empty } =
      (.ok (), { s with backend := donor.backend }) := by
    simp only [onBackend, Backend.restore_snapshot fits snapped]
  have rebuilt : ∀ middle : MvccStore, middle.backend = donor.backend →
      rebuildKeyIndex.run middle = (.ok (), { middle with
        keyIndex := rebuiltIndex (fun key => (record key).modRevision)
          (donor.backend.tree .kv).entries .new }) := by
    intro middle same
    unfold rebuildKeyIndex
    rw [Exec.run_bind_ok (Exec.run_update _ _), Exec.run_bind_ok (Exec.run_read _ _)]
    simp only [same]
    exact rebuildEntries_run
      (fun e member => readable e.1 e.2 (OrdMap.mem_entries_iff.mp member)) _
  unfold restoreSnapshot
  rw [if_neg (by simp; omega), first, second, third, i64OfLe_i64ToLe current,
    i64OfLe_i64ToLe compact]
  simp only
  rw [Exec.run_bind_ok (Exec.run_update _ _), Exec.run_bind_ok restored,
    Exec.run_bind_ok (Exec.run_update _ _), Exec.run_bind_ok (Exec.run_update _ _)]
  exact rebuilt _ rfl

/-! ### The rebuilt index -/

section Rebuilt

variable {modRevision : Bytes → Int} {entries : List (Bytes × Bytes)}

/-- With distinct keys, each key of the list gets one generation, all others keep theirs. -/
theorem get?_rebuiltIndex (sorted : entries.Pairwise fun a b => a.1 < b.1) (index : KeyIndex)
    (key : Bytes) :
    (rebuiltIndex modRevision entries index).tree.get? key =
      if key ∈ entries.map Prod.fst then
        some (((index.tree.get? key).getD .new).put ⟨modRevision key, 0⟩)
      else index.tree.get? key := by
  induction entries generalizing index with
  | nil => simp [rebuiltIndex]
  | cons e entries ih =>
    obtain ⟨above, sorted⟩ := List.pairwise_cons.mp sorted
    have step : rebuiltIndex modRevision (e :: entries) index =
        rebuiltIndex modRevision entries (index.put e.1 ⟨modRevision e.1, 0⟩) := rfl
    rw [step, ih sorted, KeyIndex.put, OrdMap.get?_insert, List.map_cons]
    by_cases same : key = e.1
    · subst same
      have once : e.1 ∉ entries.map Prod.fst := by
        intro again
        obtain ⟨later, member, equal⟩ := List.mem_map.mp again
        exact absurd equal (above later member).ne'
      rw [if_neg once, if_pos rfl, if_pos List.mem_cons_self]
    · rw [if_neg same]
      have there : key ∈ e.1 :: entries.map Prod.fst ↔ key ∈ entries.map Prod.fst := by
        simp [same]
      by_cases member : key ∈ entries.map Prod.fst
      · rw [if_pos member, if_pos (there.mpr member)]
      · rw [if_neg member, if_neg fun both => member (there.mp both)]

theorem mem_map_fst_entries {tree : OrdMap Bytes Bytes} {key : Bytes} :
    key ∈ tree.entries.map Prod.fst ↔ (tree.get? key).isSome := by
  rw [List.mem_map, Option.isSome_iff_exists]
  constructor
  · rintro ⟨⟨_, data⟩, member, rfl⟩
    exact ⟨data, OrdMap.mem_entries_iff.mp member⟩
  · rintro ⟨data, found⟩
    exact ⟨(key, data), OrdMap.mem_entries_iff.mpr found, rfl⟩

/-- **What the rebuilt index finds**: the one revision of each latest record. -/
theorem get_rebuiltIndex (tree : OrdMap Bytes Bytes) (key : Bytes) (r : Int) :
    (rebuiltIndex modRevision tree.entries .new).get key r =
      if (tree.get? key).isSome ∧ modRevision key ≤ r then some ⟨modRevision key, 0⟩ else none := by
  rw [KeyIndex.get_eq_getD, get?_rebuiltIndex tree.sorted]
  by_cases there : key ∈ tree.entries.map Prod.fst
  · have above : modRevision key - 1 < (⟨modRevision key, 0⟩ : Revision).main := sub_one_lt _
    have visible := KeyIndexEntry.revisionAt_put (EntryOk.new (modRevision key - 1)) above r
    rw [if_pos there, Option.getD_some]
    simp only [KeyIndex.new, OrdMap.get?_empty, Option.getD_none, visible, mem_map_fst_entries.mp there,
      true_and]
    rfl
  · rw [if_neg there, if_neg fun both => there (mem_map_fst_entries.mpr both.1)]
    rfl

/-- The rebuilt index has held a key if there is one in the `kv` tree. -/
theorem held_rebuiltIndex (entries : List (Bytes × Bytes)) (index : KeyIndex) :
    (rebuiltIndex modRevision entries index).held = (index.held || !entries.isEmpty) := by
  induction entries generalizing index with
  | nil => exact (Bool.or_false _).symm
  | cons e rest ih =>
    have next := ih (index.put e.1 ⟨modRevision e.1, 0⟩)
    rw [KeyIndex.held_put, Bool.true_or] at next
    rw [List.isEmpty_cons, Bool.not_false, Bool.or_true]
    exact next

/-- A restored store has held a key if the donor has one in its `kv` tree. -/
theorem held_afterRestore (donor : MvccStore) (record : Bytes → KeyValue) :
    (donor.afterRestore record).keyIndex.held = true ↔ ∃ key, (donor.backend.get .kv key).isSome := by
  rw [afterRestore, held_rebuiltIndex, KeyIndex.held_new, Bool.false_or, Bool.not_eq_true', ← Bool.not_eq_true]
  change ¬ (donor.backend.tree .kv).isEmpty = true ↔ _
  rw [OrdMap.isEmpty_iff_get?, not_forall]
  exact exists_congr fun key => Option.ne_none_iff_isSome

theorem indexOk_rebuiltIndex {bound : Int} (tree : OrdMap Bytes Bytes)
    (below : ∀ key, (tree.get? key).isSome → modRevision key ≤ bound) :
    IndexOk bound (rebuiltIndex modRevision tree.entries .new) := by
  intro key entry found
  rw [get?_rebuiltIndex tree.sorted] at found
  split_ifs at found with there
  · have stored : (tree.get? key).isSome := mem_map_fst_entries.mp there
    rw [← Option.some.inj found]
    have above : modRevision key - 1 < (⟨modRevision key, 0⟩ : Revision).main := sub_one_lt _
    exact ((EntryOk.new (modRevision key - 1)).put above).mono (below key stored)
  · cases found

end Rebuilt

end MvccStore

end Rusd
