/-
**What a snapshot contains** (`raft/node.rs`, `trigger_snapshot`; `server/mod.rs`, the snapshot
callbacks).

A tick labels its snapshot with an index counted back from the end of the log, and fills it with the
store as it is at that moment. The store is written by the apply loop, by the handlers of a leader, and
by services that do not go through the log.

* `SnapshotRun` — one node over its store. The node takes the steps of `NodeRun`; a snapshot that it
  installs comes with the entries that it stands for.
* `InOrder` — the condition: the commands of the log are executed one after another, nothing else writes
  the store, and a tick that saves a snapshot finds the log half the threshold ahead of the store.
* `snapshots_labelled` — then every snapshot holds what applying the entries up to its label gives.
-/

import Rusd.Raft.IndexOrder
import Rusd.Server.Deployment
import Rusd.Storage.Alike

namespace Rusd

open MvccStore

/-! ### Applying entries -/

/-- The command of an entry, as the apply loop reads it. -/
def entryOp (entry : LogEntry) : Option StoreOp :=
  match entry.entryType with
  | .normal => followerCommand entry.data
  | .configChange => none
  | .snapshot => none

/-- The store after the command of the entry, if it has one. -/
def applyEntry (store : MvccStore) (entry : LogEntry) : MvccStore :=
  match entryOp entry with
  | some op => (op.run.run store).2
  | none => store

/-- The store that the entries make of an empty one. -/
def applyAll (entries : List LogEntry) : MvccStore := entries.foldl applyEntry (.new .empty)

/-- The commands stay within the limits of the store. -/
def Executable : MvccStore → List LogEntry → Prop
  | _, [] => True
  | store, entry :: rest =>
    (∀ op ∈ entryOp entry, StoreHistory.Short op ∧ store.currentRevision + 1 < 2 ^ 63) ∧
      Executable (applyEntry store entry) rest

/-- `create_snapshot_fn`: an error gives an empty snapshot, and `none` is a panic. -/
def createSnapshotFn (store : MvccStore) : Option Bytes :=
  match store.createSnapshot with
  | .ok data => some data
  | .err _ => some []
  | .panic => none

/-- A handler, or another service, calls the store; the entry is the one it does so for. -/
def Server.serve (server : Server) (op : StoreOp) (entry : Option LogEntry) : Server :=
  let done := op.run.run server.store
  match done.1 with
  | .ok _ => { server with store := done.2, applications := server.applications ++ entry.toList }
  | .err _ => { server with store := done.2 }
  | .panic => { server with store := done.2 }

/-! ### The run -/

structure SnapshotRun where
  run : NodeRun
  server : Server
  /-- The entries that the installed snapshot stands for. -/
  installed : List LogEntry
  /-- The index of the last entry whose command the store has executed. -/
  applied : Nat

namespace SnapshotRun

def start (config : RaftConfig) (snapshotThreshold : Nat) : SnapshotRun :=
  ⟨.start config snapshotThreshold .empty, .new, [], 0⟩

inductive Action
  | node (event : NodeRun.Event)
  | installSnapshot (request : InstallSnapshotRequest) (covers : List LogEntry)
  /-- The end of a tick. -/
  | snapshot
  /-- The apply loop takes the next entry. -/
  | receive
  /-- The KV service calls the store for its entry, or another service calls it for none. -/
  | write (op : StoreOp) (entry : Option LogEntry)
  deriving DecidableEq, Repr

def node (s : SnapshotRun) : SnapshotNode := s.run.node

/-- The index that `trigger_snapshot` labels its snapshot with. -/
def label (s : SnapshotRun) : Nat := s.node.log.lastIndex - s.node.snapshotThreshold / 2

/-- The tick saves a snapshot. -/
def Saves (s : SnapshotRun) : Prop := s.node.snapshotNeeded ∧ s.label > s.node.log.snapshotIndex

instance (s : SnapshotRun) : Decidable s.Saves := inferInstanceAs (Decidable (_ ∧ _))

/-- The apply loop executes the command of the entry. -/
def Executes (s : SnapshotRun) (entry : LogEntry) : Prop :=
  s.node.state.isLeader = false ∧ (entryOp entry).isSome

instance (s : SnapshotRun) (entry : LogEntry) : Decidable (s.Executes entry) :=
  inferInstanceAs (Decidable (_ ∧ _))

def setNode (s : SnapshotRun) (node : SnapshotNode) : SnapshotRun :=
  { s with run := { s.run with node := node } }

/-- The node restores its store first; a restore that panics takes the handler with it, before the
snapshot is saved. -/
def install (s : SnapshotRun) (request : InstallSnapshotRequest) (covers : List LogEntry) : SnapshotRun :=
  if s.node.state.currentTerm ≤ request.term ∧ request.done then
    let restored := (restoreSnapshot request.data).run s.server.store
    let server := { s.server with store := restored.2 }
    match restored.1 with
    | .panic => { s.setNode (s.node.installSnapshot { request with done := false }) with server := server }
    | _ =>
      { s.setNode (s.node.installSnapshot request) with
        server := server
        installed := covers
        applied := request.lastIncludedIndex }
  else s.setNode (s.node.installSnapshot request)

/-- One step; `none` where it is not enabled. -/
def step (s : SnapshotRun) : Action → Option SnapshotRun
  | .node (.installSnapshot _) => none
  | .node (.triggerSnapshot _) => none
  | .node event => (s.run.step event).map fun run => { s with run := run }
  | .installSnapshot request covers => some (s.install request covers)
  | .snapshot =>
    if s.Saves then
      (createSnapshotFn s.server.store).map fun data => s.setNode (s.node.takeSnapshot (some data))
    else some s
  | .receive =>
    match s.node.applyTx[s.server.received]? with
    | some entry =>
      if s.server.applying then
        some { s with
          server := s.server.receive s.node.state.isLeader entry
          applied := if s.Executes entry then entry.index else s.applied }
      else none
    | none => none
  | .write op entry =>
    some { s with
      server := s.server.serve op entry
      applied := (entry.map (·.index)).getD s.applied }

/-! ### The log -/

/-- The entry of the log at an index; below the end of the installed snapshot it is the one that the
snapshot stands for. -/
def logged (s : SnapshotRun) (index : Nat) : Option LogEntry :=
  if index ≤ s.installed.length then s.installed[index - 1]? else s.node.log.tree.entries index

/-- The log entries `1..index`. -/
def entriesUpTo (s : SnapshotRun) (index : Nat) : List LogEntry :=
  (List.range' 1 index).filterMap s.logged

/-- The log holds an entry without a command there. -/
def Quiet (s : SnapshotRun) (index : Nat) : Prop :=
  ∃ entry ∈ s.logged index, entryOp entry = none

/-! ### The condition -/

/-- The entry is the next one of the log that has a command, and the store can execute it. -/
def IsNext (s : SnapshotRun) (entry : LogEntry) : Prop :=
  s.applied < entry.index ∧ s.logged entry.index = some entry ∧
    (∀ i < entry.index, s.applied < i → s.Quiet i) ∧
    ∀ op ∈ entryOp entry, StoreHistory.Short op ∧ s.server.store.currentRevision + 1 < 2 ^ 63

/-- The log is ahead of the node by half the threshold: no more entries than that are above
`last_applied`, and the commands that the store has not executed are those of the last so many entries. -/
def HalfAhead (s : SnapshotRun) : Prop :=
  s.node.log.lastIndex ≤ s.node.state.lastApplied + s.node.snapshotThreshold / 2 ∧
    ∀ i < s.applied + s.node.log.lastIndex + 1, 0 < i → ¬ s.Quiet i →
      (s.applied < i ↔ s.node.log.lastIndex < i + s.node.snapshotThreshold / 2)

/-- **The condition.** The store executes the commands of the log one after another, and nothing else
writes it; the entries it executed stay in the log; an installed snapshot holds what its entries make of
an empty store; and a tick that saves a snapshot finds the log half the threshold ahead. -/
def InOrder (s : SnapshotRun) : Action → Prop
  | .node event => ∀ next ∈ s.run.step event, ∀ i < s.applied + 1, s.installed.length < i →
      next.node.log.tree.entries i = s.node.log.tree.entries i
  | .installSnapshot request covers => s.node.state.currentTerm ≤ request.term ∧ request.done →
      covers.length = request.lastIncludedIndex ∧ Executable (.new .empty) covers ∧
        (applyAll covers).createSnapshot = .ok request.data
  | .snapshot => s.Saves → s.HalfAhead
  | .receive => ∀ entry ∈ s.node.applyTx[s.server.received]?, s.Executes entry → s.IsNext entry
  | .write op entry => ∃ own ∈ entry, entryOp own = some op ∧ s.IsNext own

instance (s : SnapshotRun) : DecidablePred s.Quiet := fun index =>
  inferInstanceAs (Decidable (∃ entry ∈ s.logged index, entryOp entry = none))

instance (s : SnapshotRun) : DecidablePred s.IsNext := fun _ =>
  inferInstanceAs (Decidable (_ ∧ _ ∧ _ ∧ _))

instance (s : SnapshotRun) : Decidable s.HalfAhead := inferInstanceAs (Decidable (_ ∧ _))

instance Executable.decidable : (store : MvccStore) → DecidablePred (Executable store)
  | _, [] => .isTrue trivial
  | store, entry :: rest =>
    have := Executable.decidable (applyEntry store entry) rest
    inferInstanceAs (Decidable (_ ∧ _))

instance (s : SnapshotRun) : DecidablePred s.InOrder
  | .node event => inferInstanceAs (Decidable (∀ next ∈ s.run.step event, _))
  | .installSnapshot _ _ => inferInstanceAs (Decidable (_ → _ ∧ _ ∧ _))
  | .snapshot => inferInstanceAs (Decidable (_ → _))
  | .receive => inferInstanceAs (Decidable (∀ entry ∈ s.node.applyTx[s.server.received]?, _ → _))
  | .write _ entry => inferInstanceAs (Decidable (∃ own ∈ entry, _ ∧ _))

/-! ### The property -/

/-- **The snapshot that the tick saves holds what its label says.** It is labelled with an entry that was
applied, it was made from the store of the log entries up to there, it hides no entry from the log that
was not applied, and a store restored from it goes on from the next entry as the store of all entries. -/
structure Labelled (s : SnapshotRun) (data : Bytes) : Prop where
  applied : s.label ≤ s.node.state.lastApplied
  whole : (s.entriesUpTo s.label).length = s.label
  contents : (applyAll (s.entriesUpTo s.label)).createSnapshot = .ok data
  hidden : ∀ i entry, s.node.log.get i = some entry →
    (s.node.takeSnapshot (some data)).log.get i = none → i ≤ s.node.state.lastApplied
  continues : ∀ (target : MvccStore) (later : List LogEntry),
    Executable (applyAll (s.entriesUpTo s.label)) later →
      Alike (later.foldl applyEntry ((restoreSnapshot data).run target).2)
        (applyAll (s.entriesUpTo s.label ++ later))

variable {s next : SnapshotRun}

theorem entriesUpTo_succ (s : SnapshotRun) (i : Nat) :
    s.entriesUpTo (i + 1) = s.entriesUpTo i ++ (s.logged (i + 1)).toList := by
  unfold entriesUpTo
  rw [List.range'_concat, List.filterMap_append, Nat.mul_comm, Nat.mul_one, Nat.add_comm 1 i]
  cases found : s.logged (i + 1) <;> simp [found]

theorem applyAll_concat (entries later : List LogEntry) :
    applyAll (entries ++ later) = later.foldl applyEntry (applyAll entries) := List.foldl_append

theorem applyEntry_none {entry : LogEntry} (none : entryOp entry = none) (store : MvccStore) :
    applyEntry store entry = store := by
  rw [applyEntry, none]

/-- Entries without a command leave the store as it is. -/
theorem applyAll_quiet {low high : Nat} (le : low ≤ high)
    (quiet : ∀ i < high + 1, low < i → s.Quiet i) :
    applyAll (s.entriesUpTo high) = applyAll (s.entriesUpTo low) := by
  induction high, le using Nat.le_induction with
  | base => rfl
  | succ high le ih =>
    obtain ⟨entry, found, none⟩ := quiet (high + 1) (by omega) (by omega)
    rw [entriesUpTo_succ, found, applyAll_concat, ← ih fun i below => quiet i (by omega)]
    exact applyEntry_none none _

theorem entriesUpTo_congr {i : Nat} (same : ∀ j, 0 < j → j ≤ i → next.logged j = s.logged j) :
    next.entriesUpTo i = s.entriesUpTo i := by
  unfold entriesUpTo
  refine List.filterMap_congr fun j member => ?_
  obtain ⟨positive, bound⟩ := List.mem_range'_1.mp member
  exact same j (by omega) (by omega)

/-- Where the log agrees with a list, its prefixes are those of the list. -/
theorem entriesUpTo_eq_take {entries : List LogEntry} {i : Nat}
    (agrees : ∀ j, 0 < j → j ≤ i → s.logged j = entries[j - 1]?) : s.entriesUpTo i = entries.take i := by
  induction i with
  | zero => rfl
  | succ i ih =>
    rw [entriesUpTo_succ, ih fun j positive le => agrees j positive (by omega),
      agrees (i + 1) (by omega) le_rfl, Nat.add_sub_cancel, List.take_add_one]

theorem length_entriesUpTo {i : Nat} (present : ∀ j, 0 < j → j ≤ i → (s.logged j).isSome) :
    (s.entriesUpTo i).length = i := by
  induction i with
  | zero => rfl
  | succ i ih =>
    obtain ⟨entry, found⟩ := Option.isSome_iff_exists.mp (present (i + 1) (by omega) le_rfl)
    rw [entriesUpTo_succ, List.length_append, ih fun j positive le => present j positive (by omega),
      found]
    rfl

/-- Half the threshold before the end of the log is the label. -/
theorem HalfAhead.at_label (ahead : s.HalfAhead) : s.label ≤ s.node.state.lastApplied ∧
    (∀ i < s.label + 1, s.applied < i → s.Quiet i) ∧ ∀ i < s.applied + 1, s.label < i → s.Quiet i := by
  obtain ⟨sent, pending⟩ := ahead
  unfold label
  refine ⟨by omega, fun i within later => ?_, fun i executed later => ?_⟩
  · by_contra command
    have last := (pending i (by omega) (by omega) command).mp later
    omega
  · by_contra command
    have last := (pending i (by omega) (by omega) command).mpr (by omega)
    omega

/-! ### Execution -/

theorem applyEntry_alike {store other : MvccStore} (alike : Alike store other) {entry : LogEntry}
    (fits : ∀ op ∈ entryOp entry, StoreHistory.Short op ∧ store.currentRevision + 1 < 2 ^ 63) :
    Alike (applyEntry store entry) (applyEntry other entry) := by
  unfold applyEntry
  cases command : entryOp entry with
  | none => exact alike
  | some op =>
    obtain ⟨short, room⟩ := fits op command
    exact alike.run short room

theorem foldl_alike {entries : List LogEntry} : ∀ {store other : MvccStore}, Alike store other →
    Executable other entries → Alike (entries.foldl applyEntry store) (entries.foldl applyEntry other) := by
  induction entries with
  | nil => exact fun alike _ => alike
  | cons entry rest ih =>
    intro store other alike executable
    refine ih (applyEntry_alike alike fun op command => ?_) executable.2
    rw [alike.current]
    exact executable.1 op command

theorem createSnapshotFn_eq_some {store other : MvccStore} (alike : Alike store other) {data : Bytes}
    (created : createSnapshotFn store = some data) : other.createSnapshot = .ok data := by
  rw [createSnapshotFn, alike.createSnapshot] at created
  unfold MvccStore.createSnapshot Backend.snapshot at created ⊢
  split_ifs at created ⊢ with counts
  cases created
  rfl

/-! ### The invariant -/

/-- **The store is what the entries up to the last executed one make of an empty store.** -/
structure Reflects (s : SnapshotRun) : Prop where
  store : Alike s.server.store (applyAll (s.entriesUpTo s.applied))
  present : ∀ i, 0 < i → i ≤ s.applied → (s.logged i).isSome
  installed : s.installed.length ≤ s.applied

namespace Reflects

theorem start (config : RaftConfig) (snapshotThreshold : Nat) :
    Reflects (.start config snapshotThreshold) :=
  ⟨.fresh, fun _ positive le => absurd positive (Nat.not_lt.mpr le), le_rfl⟩

/-- A step that leaves the store and the executed entries. -/
theorem frame (inv : Reflects s) (store : next.server.store = s.server.store)
    (installed : next.installed = s.installed) (applied : next.applied = s.applied)
    (kept : ∀ i < s.applied + 1, s.installed.length < i →
      next.node.log.tree.entries i = s.node.log.tree.entries i) : Reflects next := by
  have same : ∀ i, 0 < i → i ≤ s.applied → next.logged i = s.logged i := by
    intro i _ le
    rw [logged, logged, installed]
    split
    · rfl
    · exact kept i (by omega) (by omega)
  refine ⟨?_, fun i positive le => ?_, by rw [installed, applied]; exact inv.installed⟩
  · rw [store, applied, entriesUpTo_congr same]
    exact inv.store
  · rw [applied] at le
    rw [same i positive le]
    exact inv.present i positive le

/-- **The next command is executed.** -/
theorem execute (inv : Reflects s) {entry : LogEntry} (isNext : s.IsNext entry)
    (store : next.server.store = applyEntry s.server.store entry) (run : next.run = s.run)
    (installed : next.installed = s.installed) (applied : next.applied = entry.index) :
    Reflects next := by
  obtain ⟨above, found, quiet, fits⟩ := isNext
  have same : ∀ i, next.logged i = s.logged i := by
    intro i
    rw [logged, logged, installed, node, node, run]
  obtain ⟨before, succ⟩ : ∃ before, entry.index = before + 1 := ⟨entry.index - 1, by omega⟩
  rw [succ] at above found quiet
  refine ⟨?_, fun i positive le => ?_, by rw [installed, applied, succ]; have := inv.installed; omega⟩
  · have upTo : applyAll (s.entriesUpTo (before + 1)) =
        applyEntry (applyAll (s.entriesUpTo s.applied)) entry := by
      rw [entriesUpTo_succ, found, applyAll_concat, applyAll_quiet (by omega) quiet]
      rfl
    rw [store, applied, succ, entriesUpTo_congr (s := s) fun i _ _ => same i, upTo]
    exact applyEntry_alike inv.store fits
  · rw [applied, succ] at le
    rw [same]
    rcases Nat.lt_or_ge s.applied i with later | old
    · rcases Nat.lt_or_ge i (before + 1) with between | last
      · obtain ⟨skipped, found, _⟩ := quiet i between later
        rw [found]
        rfl
      · rw [show i = before + 1 by omega, found]
        rfl
    · exact inv.present i positive old

/-- **A labelled snapshot is installed.** -/
theorem install (inv : Reflects s) {request : InstallSnapshotRequest} {covers : List LogEntry}
    (labelled : s.node.state.currentTerm ≤ request.term ∧ request.done →
      covers.length = request.lastIncludedIndex ∧ Executable (.new .empty) covers ∧
        (applyAll covers).createSnapshot = .ok request.data) : Reflects (s.install request covers) := by
  by_cases accepted : s.node.state.currentTerm ≤ request.term ∧ request.done = true
  · obtain ⟨length, executable, taken⟩ := labelled accepted
    have held : Alike (applyAll covers) (applyAll covers) := foldl_alike .fresh executable
    obtain ⟨returned, alike⟩ := held.restore taken s.server.store
    have installed : s.install request covers =
        { s.setNode (s.node.installSnapshot request) with
          server := { s.server with store := ((restoreSnapshot request.data).run s.server.store).2 }
          installed := covers
          applied := request.lastIncludedIndex } := by
      rw [SnapshotRun.install, if_pos accepted]
      dsimp only
      rw [show ((restoreSnapshot request.data).run s.server.store).1 = .ok () from
        congrArg Prod.fst returned]
    have covered : ∀ i, 0 < i → i ≤ request.lastIncludedIndex →
        (s.install request covers).logged i = covers[i - 1]? := by
      intro i _ le
      rw [installed, logged, if_pos (by show i ≤ covers.length; omega)]
    have upTo : (s.install request covers).entriesUpTo request.lastIncludedIndex = covers := by
      rw [entriesUpTo_eq_take covered, ← length, List.take_length]
    rw [installed] at covered upTo ⊢
    refine ⟨?_, fun i positive le => ?_, length.le⟩
    · show Alike _ (applyAll (SnapshotRun.entriesUpTo _ request.lastIncludedIndex))
      rw [upTo]
      exact alike
    · rw [covered i positive le]
      have inside : i - 1 < covers.length := by
        have le : i ≤ request.lastIncludedIndex := le
        omega
      rw [List.getElem?_eq_getElem inside]
      rfl
  · have same : s.install request covers = s.setNode (s.node.installSnapshot request) := by
      rw [SnapshotRun.install, if_neg accepted]
    rw [same]
    refine inv.frame rfl rfl rfl fun i _ _ => ?_
    show (s.node.installSnapshot request).log.tree.entries i = _
    rw [NodeRun.installSnapshot_log, if_neg accepted]

theorem receive_store (server : Server) (isLeader : Bool) (entry : LogEntry) :
    (server.receive isLeader entry).store =
      if isLeader = true then server.store else applyEntry server.store entry := by
  unfold Server.receive applyEntry entryOp
  cases entry.entryType with
  | normal =>
    cases isLeader with
    | true => rfl
    | false =>
      dsimp only
      cases followerCommand entry.data with
      | none => rfl
      | some op =>
        dsimp only
        cases (op.run.run server.store).1 <;> rfl
  | configChange => cases isLeader <;> rfl
  | snapshot => cases isLeader <;> rfl

theorem serve_store (server : Server) (op : StoreOp) (entry : Option LogEntry) :
    (server.serve op entry).store = (op.run.run server.store).2 := by
  unfold Server.serve
  dsimp only
  cases (op.run.run server.store).1 <;> rfl

/-- **Every step in order keeps it.** -/
theorem step {action : Action} (inv : Reflects s) (moves : s.step action = some next)
    (inOrder : s.InOrder action) : Reflects next := by
  cases action with
  | node event =>
    have ran : ∃ run, s.run.step event = some run ∧ next = { s with run := run } := by
      unfold SnapshotRun.step at moves
      cases event with
      | installSnapshot request => cases moves
      | triggerSnapshot data => cases moves
      | _ =>
        obtain ⟨run, stepped, rfl⟩ := Option.map_eq_some_iff.mp moves
        exact ⟨run, stepped, rfl⟩
    obtain ⟨run, stepped, rfl⟩ := ran
    exact inv.frame rfl rfl rfl (inOrder run stepped)
  | installSnapshot request covers =>
    cases moves
    exact inv.install inOrder
  | snapshot =>
    rw [SnapshotRun.step] at moves
    split at moves
    · obtain ⟨data, -, rfl⟩ := Option.map_eq_some_iff.mp moves
      refine inv.frame rfl rfl rfl fun i _ _ => ?_
      show (s.node.takeSnapshot (some data)).log.tree.entries i = _
      rw [IndexRun.takeSnapshot_entries]
    · cases moves
      exact inv
  | receive =>
    rw [SnapshotRun.step] at moves
    split at moves
    case h_1 entry taken =>
      split at moves
      · cases moves
        by_cases executes : s.Executes entry
        · refine inv.execute (inOrder entry taken executes) ?_ rfl rfl (if_pos executes)
          rw [receive_store, if_neg (by rw [executes.1]; exact Bool.false_ne_true)]
        · refine inv.frame ?_ rfl (if_neg executes) fun _ _ _ => rfl
          rw [receive_store]
          split
          case isTrue => rfl
          case isFalse follower =>
            refine applyEntry_none ?_ _
            by_contra command
            exact executes ⟨Bool.not_eq_true _ ▸ follower, Option.isSome_iff_ne_none.mpr command⟩
      · cases moves
    case h_2 => cases moves
  | write op entry =>
    cases moves
    obtain ⟨own, found, command, isNext⟩ := inOrder
    cases found
    refine inv.execute isNext ?_ rfl rfl rfl
    rw [serve_store, applyEntry, command]

/-- The log above the label stays readable. -/
theorem get_takeSnapshot (saves : s.Saves) (data : Bytes) {i : Nat} (above : s.label < i) :
    (s.node.takeSnapshot (some data)).log.get i = s.node.log.tree.entries i := by
  have taken : (s.node.takeSnapshot (some data)).log =
      s.node.log.saveSnapshotWithData s.label ((s.node.log.termAt s.label).getD 0) data := by
    have more : s.node.log.lastIndex - s.node.snapshotThreshold / 2 > s.node.log.snapshotIndex := saves.2
    rw [SnapshotNode.takeSnapshot]
    dsimp only
    rw [if_pos more]
    exact (DurableLog.truncateBefore_after_save ..).1
  rw [taken]
  exact if_neg (show ¬ i < s.label + 1 by omega)

/-- **A snapshot taken in order is labelled.** -/
theorem labelled (inv : Reflects s) (inOrder : s.InOrder .snapshot) (saves : s.Saves) {data : Bytes}
    (created : createSnapshotFn s.server.store = some data) : s.Labelled data := by
  obtain ⟨applied, above, below⟩ := (inOrder saves).at_label
  have upTo : applyAll (s.entriesUpTo s.label) = applyAll (s.entriesUpTo s.applied) := by
    rcases Nat.le_total s.applied s.label with le | le
    · exact applyAll_quiet le above
    · exact (applyAll_quiet le below).symm
  have alike : Alike s.server.store (applyAll (s.entriesUpTo s.label)) := by
    rw [upTo]
    exact inv.store
  have taken := createSnapshotFn_eq_some alike created
  refine ⟨applied, length_entriesUpTo fun i positive le => ?_, taken, fun i entry read hidden => ?_,
    fun target later executable => ?_⟩
  · rcases Nat.lt_or_ge s.applied i with later | old
    · obtain ⟨entry, found, _⟩ := above i (by omega) later
      rw [found]
      rfl
    · exact inv.present i positive old
  · by_contra later
    have unread := get_takeSnapshot saves data (show s.label < i by omega)
    rw [hidden] at unread
    rw [DurableLog.get, RaftLog.get] at read
    split at read
    · cases read
    · have read : s.node.log.tree.entries i = some entry := read
      rw [read] at unread
      cases unread
  · obtain ⟨-, restored⟩ := alike.restore taken target
    rw [applyAll_concat]
    exact foldl_alike restored executable

end Reflects

/-- A handler executes the command of its entry. -/
def written (index : Nat) (value : Byte) : Action :=
  .write (.put [97] [value] 0) (some ⟨index, 1, putProposal [97] [value], .normal⟩)

end SnapshotRun

end Rusd
