/-
**A snapshot that cannot be restored** (`storage/mvcc.rs`, `restore_snapshot`; `storage/backend.rs`, `restore`;
`raft/node.rs`, `handle_install_snapshot`).

A restore clears the trees, and then reads the data and fills them entry by entry, up to the first defect. The
node takes the index of the snapshot whether or not its store could be restored.

* `entriesIn` — the entries that stand in the data before its end or its first defect, and
  `restoreTrees_state` — they are what a restore leaves in the trees, however it ends.
* `failed_restore_intact_iff` — when a restore that fails leaves the store as it was.
* `failed_install_intact_iff` — when a node whose restore failed does not claim the snapshot.
-/

import Rusd.Server.SnapshotLabel
import Rusd.Storage.FailedWrites

namespace Rusd

open MvccStore

/-! ### What stands before the defect -/

namespace Backend

/-- The entries of one tree, and what follows them if none of them is cut short. -/
def entriesOf (name : TreeName) : Nat → Bytes → List (TreeName × Bytes × Bytes) × Option Bytes
  | 0, data => ([], some data)
  | count + 1, data =>
    match readField data with
    | none => ([], none)
    | some (key, data) =>
      match readField data with
      | none => ([], none)
      | some (value, data) =>
        let others := entriesOf name count data
        ((name, key, value) :: others.1, others.2)

/-- The entries of all trees, for at most so many trees. -/
def entriesBefore : Nat → Bytes → List (TreeName × Bytes × Bytes)
  | 0, _ => []
  | rounds + 1, data =>
    match readU32 data with
    | none => []
    | some (nameLen, data) =>
      if data.length < nameLen ∨ ¬ ValidUtf8 (data.take nameLen) then []
      else
        match TreeName.ofLabel (data.take nameLen) with
        | none => []
        | some name =>
          match readU32 (data.drop nameLen) with
          | none => []
          | some (count, data) =>
            match entriesOf name count data with
            | (entries, none) => entries
            | (entries, some data) => entries ++ entriesBefore rounds data

/-- The entries that stand in the data before its end or its first defect. -/
def entriesIn (data : Bytes) : List (TreeName × Bytes × Bytes) := entriesBefore data.length data

/-- Writing entries. -/
def putEntries (b : Backend) (entries : List (TreeName × Bytes × Bytes)) : Backend :=
  entries.foldl (fun b e => b.put e.1 e.2.1 e.2.2) b

/-- The value that is written last under a key. -/
def lastWritten (entries : List (TreeName × Bytes × Bytes)) (name : TreeName) (key : Bytes) :
    Option Bytes :=
  (entries.reverse.find? fun e => e.1 = name ∧ e.2.1 = key).map fun e => e.2.2

theorem restoreEntries_state (name : TreeName) (count : Nat) (data : Bytes) (b : Backend) :
    ((restoreEntries name count data).run b).2 = b.putEntries (entriesOf name count data).1 ∧
      ((restoreEntries name count data).run b).1.returned = (entriesOf name count data).2 := by
  induction count generalizing data b with
  | zero => exact ⟨rfl, rfl⟩
  | succ count ih =>
    rw [restoreEntries, entriesOf]
    cases first : readField data with
    | none => exact ⟨rfl, rfl⟩
    | some field =>
      obtain ⟨key, data⟩ := field
      simp only
      cases second : readField data with
      | none => exact ⟨rfl, rfl⟩
      | some field =>
        obtain ⟨value, data⟩ := field
        exact ih data (b.put name key value)

/-- **What a restore leaves in the trees**, however it ends. -/
theorem restoreTrees_state (rounds : Nat) (data : Bytes) (b : Backend) :
    ((restoreTrees rounds data).run b).2 = b.putEntries (entriesBefore rounds data) := by
  induction rounds generalizing data b with
  | zero => rfl
  | succ rounds ih =>
    unfold restoreTrees entriesBefore
    generalize readU32 data = header
    rcases header with _ | ⟨nameLen, data⟩
    · rfl
    simp only
    by_cases short : data.length < nameLen
    · rw [if_pos short, if_pos (Or.inl short)]
      rfl
    by_cases valid : ValidUtf8 (data.take nameLen)
    swap
    · rw [if_neg short, if_pos valid, if_pos (Or.inr valid)]
      rfl
    rw [if_neg short, if_neg (not_not_intro valid), if_neg (not_or.mpr ⟨short, not_not_intro valid⟩)]
    generalize TreeName.ofLabel (data.take nameLen) = label
    rcases label with _ | name
    · rfl
    simp only
    generalize readU32 (data.drop nameLen) = number
    rcases number with _ | ⟨count, data⟩
    · rfl
    simp only
    obtain ⟨written, rest⟩ := restoreEntries_state name count data b
    rcases read : entriesOf name count data with ⟨entries, following⟩
    rw [read] at written rest
    rcases filled : (restoreEntries name count data).run b with ⟨_ | _ | _, b'⟩
    all_goals
      rw [filled] at written rest
      cases rest
      cases written
    · rw [Exec.run_bind_ok filled, ih]
      exact (List.foldl_append ..).symm
    · rw [Exec.run_bind_err filled]
      rfl
    · rw [Exec.run_bind_panic filled]
      rfl

theorem get_putEntries (entries : List (TreeName × Bytes × Bytes)) (name : TreeName) (key : Bytes) :
    (empty.putEntries entries).get name key = lastWritten entries name key := by
  induction entries using List.reverseRecOn with
  | nil => rfl
  | append_singleton entries e ih =>
    rw [putEntries, List.foldl_concat, get_put, lastWritten, List.reverse_concat, List.find?_cons]
    by_cases same : name = e.1 ∧ key = e.2.1
    · rw [if_pos same, decide_eq_true ⟨same.1.symm, same.2.symm⟩]
      rfl
    · rw [if_neg same, decide_eq_false fun both => same ⟨both.1.symm, both.2.symm⟩]
      exact ih

end Backend

/-! ### The store after a restore that failed -/

theorem rebuildEntries_ne_err (entries : List (Bytes × Bytes)) (s : MvccStore) (e : StorageError) :
    ((rebuildEntries entries).run s).1 ≠ .err e := by
  induction entries generalizing s with
  | nil => exact fun failed => by cases failed
  | cons entry entries ih =>
    obtain ⟨key, data⟩ := entry
    rw [rebuildEntries]
    rcases KeyValue.decode key data with kv | _ | _
    · exact ih _
    · exact ih _
    · exact fun failed => by cases failed

/-- **A restore that failed on its entries** kept nothing of the store but the counters and the index. -/
theorem restoreSnapshot_failed {s s' : MvccStore} {data : Bytes} {e : StorageError}
    (failed : (restoreSnapshot data).run s = (.err e, s')) (enough : ¬ data.length < 16) :
    s' = { s with backend := Backend.empty.putEntries (Backend.entriesIn (data.drop 16)) } := by
  have written : ((Backend.restore (data.drop 16)).run .empty).2 =
      Backend.empty.putEntries (Backend.entriesIn (data.drop 16)) := Backend.restoreTrees_state ..
  rw [restoreSnapshot, if_neg enough] at failed
  simp only at failed
  rw [Exec.run_bind_ok (Exec.run_update _ _)] at failed
  rcases filled : (Backend.restore (data.drop 16)).run .empty with ⟨_ | error | _, trees⟩
  all_goals rw [filled] at written
  · -- the rest of the restore ignores what it cannot read
    have restored : (onBackend (Backend.restore (data.drop 16))).run { s with backend := .empty } =
        (.ok (), { s with backend := trees }) := by
      simp only [onBackend, filled]
    rw [Exec.run_bind_ok restored, Exec.run_bind_ok (Exec.run_update _ _),
      Exec.run_bind_ok (Exec.run_update _ _)] at failed
    exact absurd (congrArg Prod.fst failed) (rebuildEntries_ne_err _ _ _)
  · have stopped : (onBackend (Backend.restore (data.drop 16))).run { s with backend := .empty } =
        (.err (.backend error), { s with backend := trees }) := by
      simp only [onBackend, filled]
    rw [Exec.run_bind_err stopped] at failed
    rw [← written]
    exact (Prod.ext_iff.mp failed).2.symm
  · have stopped : (onBackend (Backend.restore (data.drop 16))).run { s with backend := .empty } =
        (.panic, { s with backend := trees }) := by
      simp only [onBackend, filled]
    rw [Exec.run_bind_panic stopped] at failed
    cases failed

/-- **When a restore that fails leaves the store as it was.** -/
theorem failed_restore_intact_iff (s s' : MvccStore) (data : Bytes) (e : StorageError)
    (failed : (restoreSnapshot data).run s = (.err e, s')) :
    s' = s ↔ data.length < 16 ∨ ∀ name key,
      s.backend.get name key = Backend.lastWritten (Backend.entriesIn (data.drop 16)) name key := by
  by_cases short : data.length < 16
  · rw [restoreSnapshot, if_pos short] at failed
    exact iff_of_true (Prod.ext_iff.mp failed).2.symm (Or.inl short)
  have left := restoreSnapshot_failed failed short
  have contents := Backend.get_putEntries (Backend.entriesIn (data.drop 16))
  constructor
  · intro same
    rw [same] at left
    refine Or.inr fun name key => ?_
    rw [← contents, ← congrArg (fun s => s.backend.get name key) left]
  · intro condition
    have trees : Backend.empty.putEntries (Backend.entriesIn (data.drop 16)) = s.backend :=
      Backend.ext_tree fun name => OrdMap.ext_get? fun key =>
        (contents name key).trans ((condition.resolve_left short) name key).symm
    rw [left, trees]

/-- Data that is too short. -/
theorem short_restore_intact :
    ((restoreSnapshot []).run storeOfA).2 = storeOfA :=
  (failed_restore_intact_iff storeOfA _ [] (.mvcc "Invalid snapshot data: too short") rfl).mpr
    (Or.inl (by decide))

/-- **A restore that fails on the first length.** The value of `a` is gone, and the index still lists it. -/
theorem failed_restore_clears :
    InUse storeOfA ∧ ∃ s', (restoreSnapshot (List.replicate 16 0 ++ [255, 0, 0, 0])).run storeOfA =
        (.err (.backend Backend.invalidSnapshot), s') ∧
      storeOfA.range [97] [] 0 0 false = .ok ⟨[⟨[97], 2, 2, 1, [49], 0⟩], false, 1⟩ ∧
      s'.range [97] [] 0 0 false = .ok ⟨[], false, 1⟩ ∧
      s'.keyIndex = storeOfA.keyIndex ∧ s'.currentRevision = 2 ∧ s' ≠ storeOfA := by
  refine ⟨storeOfA_inUse, _, rfl, by decide +kernel, by decide +kernel, rfl, by decide +kernel, ?_⟩
  intro same
  have lost := congrArg (fun s => s.backend.get .kv [97]) same
  revert lost
  decide +kernel

/-! ### The node after a restore that failed -/

/-- What a node says it has applied, and the snapshot it can send. -/
structure SnapshotClaims where
  commitIndex : Nat
  lastApplied : Nat
  firstIndex : Nat
  snapshotIndex : Nat
  snapshotTerm : Nat
  snapshotData : Option Bytes
  deriving DecidableEq, Repr

def SnapshotNode.claims (node : SnapshotNode) : SnapshotClaims where
  commitIndex := node.state.commitIndex
  lastApplied := node.state.lastApplied
  firstIndex := node.log.firstIndex
  snapshotIndex := node.log.snapshotIndex
  snapshotTerm := node.log.snapshotTerm
  snapshotData := node.log.snapshotData

/-- The claims of a node that holds the snapshot of the request. -/
def InstallSnapshotRequest.claims (request : InstallSnapshotRequest) : SnapshotClaims where
  commitIndex := request.lastIncludedIndex
  lastApplied := request.lastIncludedIndex
  firstIndex := request.lastIncludedIndex + 1
  snapshotIndex := request.lastIncludedIndex
  snapshotTerm := request.lastIncludedTerm
  snapshotData := some request.data

/-- A node that takes the last part of a snapshot claims it. -/
theorem claims_installSnapshot {node : SnapshotNode} {request : InstallSnapshotRequest}
    (term : node.state.currentTerm ≤ request.term) (done : request.done = true) :
    (node.installSnapshot request).claims = request.claims := by
  unfold SnapshotNode.installSnapshot
  rw [if_neg (by omega)]
  simp only
  rw [if_pos done]
  unfold DurableLog.truncateBefore DurableLog.saveSnapshotWithData DurableLog.saveSnapshot
  simp only
  rw [if_pos (le_refl _)]
  rfl

/-- **When a node whose restore failed does not claim the snapshot**: its store is what the failed restore
left, and it keeps its claims only if it claimed that snapshot before. -/
theorem failed_install_intact_iff {σ : Type} (callbacks : SnapshotCallbacks σ)
    (restore : Bytes → σ → σ × Except String Unit) (given : callbacks.restore = some restore)
    (node : SnapshotNode) (store left : σ) (request : InstallSnapshotRequest)
    (term : node.state.currentTerm ≤ request.term) (done : request.done = true) (message : String)
    (failed : restore request.data store = (left, .error message)) :
    (node.handleInstallSnapshot callbacks store request).2.1 = left ∧
      ((node.handleInstallSnapshot callbacks store request).1.claims = node.claims ↔
        node.claims = request.claims) := by
  unfold SnapshotNode.handleInstallSnapshot
  simp only
  rw [given, if_pos ⟨term, done⟩, claims_installSnapshot term done]
  exact ⟨congrArg Prod.fst failed, eq_comm⟩

/-- `restore_snapshot_fn`, on data that the restore does not panic on. -/
def restoreSnapshotFn (data : Bytes) (store : MvccStore) : MvccStore × Except String Unit :=
  let restored := (restoreSnapshot data).run store
  (restored.2, match restored.1 with
    | .err e => .error e.display
    | _ => .ok ())

/-- The callbacks that the server gives its node. -/
def serverCallbacks : SnapshotCallbacks MvccStore :=
  ⟨some fun store => (createSnapshotFn store).getD [], some restoreSnapshotFn⟩

/-- A follower that has just started. -/
def freshFollower : SnapshotNode := .new ⟨1, [2, 3], 100, true⟩ 10000 .empty

/-- A leader whose own snapshot failed sends one without data. -/
def emptyInstall : InstallSnapshotRequest := ⟨1, 2, 5, 1, 0, [], true⟩

/-- The same request, to a node that has already taken it. -/
theorem repeated_install_intact :
    ((freshFollower.installSnapshot emptyInstall).handleInstallSnapshot serverCallbacks (.new .empty)
      emptyInstall).1.claims = (freshFollower.installSnapshot emptyInstall).claims :=
  (failed_install_intact_iff serverCallbacks restoreSnapshotFn rfl
    (freshFollower.installSnapshot emptyInstall) (.new .empty) (.new .empty) emptyInstall (by decide) rfl
    "MVCC error: Invalid snapshot data: too short" rfl).2.mpr (by decide)

/-- **A follower that claims a snapshot it does not hold**: five entries applied, and an empty store. -/
theorem failed_install_claimed :
    freshFollower.state.currentTerm ≤ emptyInstall.term ∧ emptyInstall.done = true ∧
      restoreSnapshotFn emptyInstall.data (.new .empty) =
        (.new .empty, .error "MVCC error: Invalid snapshot data: too short") ∧
      freshFollower.claims = ⟨0, 0, 1, 0, 0, none⟩ ∧
      (freshFollower.handleInstallSnapshot serverCallbacks (.new .empty) emptyInstall).1.claims =
        ⟨5, 5, 6, 5, 1, some []⟩ ∧
      (freshFollower.handleInstallSnapshot serverCallbacks (.new .empty) emptyInstall).2.1 =
        .new .empty :=
  ⟨by decide, rfl, rfl, rfl, by decide, rfl⟩

end Rusd
