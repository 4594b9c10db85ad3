/-
**The commit index and the applied index.**

Several tasks of a node store these two indices, each after a check that it made before: a request of the
leader, an installed snapshot, a response to a heartbeat, a proposal of a node without peers, and the
loop that sends the committed entries. Nothing keeps a check and its store together, and a snapshot is
stored without any check. The model has the two apart: a task that has decided on an index holds it until
it is resumed.

* `IndexRun.step` — the steps, with the tasks that are under way.
* `Orderly` — the stores come in ascending order, a snapshot is not behind, and a request or a proposal
  does not commit behind what is committed.
* `indices_ascend` — over a whole run of orderly steps: neither index ever goes back, and the entries are
  sent in the order of their indices, each once.
-/

import Rusd.Raft.LogShape
import Rusd.Raft.TermOrder

namespace Rusd

/-! ### Tasks -/

inductive IndexTask
  /-- `propose` has built its entry. -/
  | proposing (entry : LogEntry)
  /-- The next step stores the commit index. -/
  | committing (index : Nat)
  /-- The next step stores the commit index and wakes the waiters. -/
  | advancing (index : Nat)
  /-- The next step stores the applied index. -/
  | installing (index : Nat)
  | finished
  deriving DecidableEq, Repr

namespace IndexTask

/-- The commit index that the task is about to store. -/
def commitStore : IndexTask → Option Nat
  | .committing index => some index
  | .advancing index => some index
  | _ => none

/-- The applied index that the task is about to store. -/
def appliedStore : IndexTask → Option Nat
  | .installing index => some index
  | _ => none

end IndexTask

/-- A node, its tasks, and its apply loop if one runs: the next index to send and the commit index that it
has read. The tick runs one at a time. -/
structure IndexRun where
  run : NodeRun
  tasks : List IndexTask
  loop : Option (Nat × Nat)

namespace IndexRun

def node (s : IndexRun) : SnapshotNode := s.run.node

def commitIndex (s : IndexRun) : Nat := s.run.node.state.commitIndex

def lastApplied (s : IndexRun) : Nat := s.run.node.state.lastApplied

def setNode (s : IndexRun) (node : SnapshotNode) : IndexRun := { s with run := { s.run with node } }

/-- The task ends, with this node left behind. -/
def finish (s : IndexRun) (task : Nat) (node : SnapshotNode) : IndexRun :=
  { s.setNode node with tasks := s.tasks.set task .finished }

/-- Another task is under way. -/
def spawn (s : IndexRun) (node : SnapshotNode) (task : IndexTask) : IndexRun :=
  { s.setNode node with tasks := s.tasks ++ [task] }

inductive Action
  /-- An event that stores neither index. -/
  | event (event : NodeRun.Event)
  | appendEntries (request : AppendEntriesRequest)
  | installSnapshot (request : InstallSnapshotRequest)
  | appendReply (peer leaderLastIndex : Nat) (response : AppendEntriesResponse)
  | propose (entryType : EntryType) (data : Bytes)
  /-- A task takes its next step. -/
  | resume (task : Nat)
  /-- The apply loop begins. -/
  | apply
  /-- The apply loop sends the next entry, or ends. -/
  | send
  deriving DecidableEq, Repr

/-- The event stores neither index. -/
def leavesIndices : NodeRun.Event → Bool
  | .requestVote _ => true
  | .startPreVote => true
  | .startRealElection => true
  | .voteReply _ _ => true
  | .becomeLeader => true
  | .triggerSnapshot _ => true
  | _ => false

/-! ### Steps -/

/-- `handle_append_entries` up to the store of its commit index. -/
def followed (node : SnapshotNode) (request : AppendEntriesRequest) : SnapshotNode :=
  { (node.handleAppendEntries request).1 with
    state := (node.handleAppendEntries request).1.state.setCommitIndex node.state.commitIndex }

def appendEntries (s : IndexRun) (request : AppendEntriesRequest) : IndexRun :=
  s.spawn (followed s.node request)
    (if s.node.toRaftNode.Accepts request ∧ request.leaderCommit > s.commitIndex then
      .committing (min request.leaderCommit (followed s.node request).log.lastIndex)
    else .finished)

/-- `handle_install_snapshot` up to the store of its applied index. -/
def installSnapshot (s : IndexRun) (request : InstallSnapshotRequest) : IndexRun :=
  s.spawn
    { s.node.installSnapshot request with
      state := (s.node.installSnapshot request).state.setLastApplied s.lastApplied }
    (if s.node.state.currentTerm ≤ request.term ∧ request.done = true then
      .installing request.lastIncludedIndex
    else .finished)

/-- The task of an append request up to the store of its commit index. -/
def appendReply (s : IndexRun) (peer leaderLastIndex : Nat) (response : AppendEntriesResponse) :
    IndexRun :=
  let noted := RaftNode.noteAppendReply s.node.state peer response
  let index := noted.majorityMatchIndex s.node.toRaftNode.peerIds leaderLastIndex
  s.spawn { s.node with state := noted }
    (if index > s.commitIndex then .advancing index else .finished)

/-- `propose` up to its append. -/
def propose (s : IndexRun) (entryType : EntryType) (data : Bytes) : IndexRun :=
  s.spawn s.node
    (.proposing ⟨s.node.log.lastIndex + 1, s.node.state.currentTerm, data, entryType⟩)

/-- The next step of a task. -/
def resume (s : IndexRun) (task : Nat) : IndexTask → Option IndexRun
  | .proposing entry =>
    some { s.setNode { s.node with log := s.node.log.append [entry] } with
      tasks := s.tasks.set task
        (if s.node.config.peers.isEmpty then .committing entry.index else .finished) }
  | .committing index =>
    some (s.finish task { s.node with state := s.node.state.setCommitIndex index })
  | .advancing index =>
    some (s.finish task
      { s.node with
        state := s.node.state.setCommitIndex index
        commitNotifier := s.node.commitNotifier.notifyUpTo index })
  | .installing index =>
    some (s.finish task { s.node with state := s.node.state.setLastApplied index })
  | .finished => none

/-- One round of the apply loop. -/
def send (s : IndexRun) (next commit : Nat) : IndexRun :=
  if next ≤ commit then
    { s.setNode { s.node with applyTx := s.node.applyTx ++ (s.node.log.get next).toList } with
      loop := some (next + 1, commit) }
  else
    { s.setNode { s.node with state := s.node.state.setLastApplied commit } with loop := none }

def step (s : IndexRun) : Action → Option IndexRun
  | .event event =>
    if leavesIndices event then (s.run.step event).map fun next => { s with run := next } else none
  | .appendEntries request => some (s.appendEntries request)
  | .installSnapshot request => some (s.installSnapshot request)
  | .appendReply peer leaderLastIndex response => some (s.appendReply peer leaderLastIndex response)
  | .propose entryType data =>
    if s.node.state.isLeader then some (s.propose entryType data) else none
  | .resume task =>
    match s.tasks[task]? with
    | some now => s.resume task now
    | none => none
  | .apply =>
    match s.loop with
    | some _ => none
    | none =>
      some { s.setNode { s.node with
          commitNotifier := s.node.commitNotifier.notifyUpTo s.commitIndex } with
        loop := some (s.lastApplied + 1, s.commitIndex) }
  | .send =>
    match s.loop with
    | some (next, commit) => some (s.send next commit)
    | none => none

/-- A node that begins with the log in its tree, and no task. -/
def start (config : RaftConfig) (snapshotThreshold : Nat) (tree : LogTree) : IndexRun :=
  ⟨.start config snapshotThreshold tree, [], none⟩

/-! ### A task on its own -/

/-- The node after the next step of the task. -/
def settled (s : IndexRun) (task : Nat) (now : IndexTask) : SnapshotNode :=
  ((s.resume task now).map node).getD s.node

theorem with_state (node : SnapshotNode) {state : RaftState} (same : state = node.state) :
    { node with state := state } = node := by
  rw [same]

/-- Without another step between its check and its store, a request is handled as by
`handle_append_entries`. -/
theorem appendEntries_alone (s : IndexRun) (request : AppendEntriesRequest) :
    ∃ now, (s.appendEntries request).tasks = s.tasks ++ [now] ∧
      (s.appendEntries request).settled s.tasks.length now =
        (s.node.handleAppendEntries request).1 := by
  refine ⟨_, rfl, ?_⟩
  set handled := (s.node.handleAppendEntries request).1 with handledDef
  have kept : ∀ index, handled.state.commitIndex = index →
      (handled.state.setCommitIndex s.commitIndex).setCommitIndex index = handled.state := by
    rintro index rfl
    rfl
  split
  case isTrue ahead =>
    have commit : handled.toRaftNode.state.commitIndex =
        min request.leaderCommit handled.toRaftNode.log.lastIndex := by
      rw [handledDef, SnapshotNode.toRaftNode_handleAppendEntries,
        RaftNode.handleAppendEntries_commit ahead.1]
      exact if_pos ahead.2
    exact with_state handled (kept _ commit)
  case isFalse stays =>
    have commit : handled.toRaftNode.state.commitIndex = s.commitIndex := by
      rw [handledDef, SnapshotNode.toRaftNode_handleAppendEntries]
      by_cases accepts : s.node.toRaftNode.Accepts request
      · rw [RaftNode.handleAppendEntries_commit accepts]
        exact if_neg fun ahead => stays ⟨accepts, ahead⟩
      · exact (RaftNode.handleAppendEntries_unmoved accepts).commit
    exact with_state handled (kept _ commit)

/-- A response is taken as by the task that `send_heartbeats` spawned. -/
theorem appendReply_alone (s : IndexRun) (peer leaderLastIndex : Nat)
    (response : AppendEntriesResponse) :
    ∃ now, (s.appendReply peer leaderLastIndex response).tasks = s.tasks ++ [now] ∧
      (s.appendReply peer leaderLastIndex response).settled s.tasks.length now =
        s.node.handleAppendReply peer leaderLastIndex response := by
  refine ⟨_, rfl, ?_⟩
  set noted := RaftNode.noteAppendReply s.node.state peer response with notedDef
  set index := noted.majorityMatchIndex s.node.toRaftNode.peerIds leaderLastIndex with indexDef
  have commit : noted.commitIndex = s.commitIndex := (RaftNode.noteAppendReply_ballot _ _ _).2.2.2
  by_cases ahead : index > s.commitIndex
  · have handled : s.node.toRaftNode.handleAppendReply peer leaderLastIndex response =
        { s.node.toRaftNode with
          state := noted.setCommitIndex index
          commitNotifier := s.node.commitNotifier.notifyUpTo index } :=
      if_pos (show index > noted.commitIndex by omega)
    rw [if_pos ahead, SnapshotNode.handleAppendReply, handled]
    rfl
  · have handled : s.node.toRaftNode.handleAppendReply peer leaderLastIndex response =
        { s.node.toRaftNode with state := noted } :=
      if_neg (show ¬ index > noted.commitIndex by omega)
    rw [if_neg ahead, SnapshotNode.handleAppendReply, handled]
    rfl

/-- A snapshot is installed as by `handle_install_snapshot`. -/
theorem installSnapshot_alone (s : IndexRun) (request : InstallSnapshotRequest) :
    ∃ now, (s.installSnapshot request).tasks = s.tasks ++ [now] ∧
      (s.installSnapshot request).settled s.tasks.length now = s.node.installSnapshot request := by
  refine ⟨_, rfl, ?_⟩
  set installed := s.node.installSnapshot request with installedDef
  have observed := Unmoved.observeTerm s.node.toRaftNode request.term
  have kept : ∀ index, installed.state.lastApplied = index →
      (installed.state.setLastApplied s.lastApplied).setLastApplied index = installed.state := by
    rintro index rfl
    rfl
  split
  case isTrue accepted =>
    have applied : installed.state.lastApplied = request.lastIncludedIndex := by
      rw [installedDef, SnapshotNode.installSnapshot, if_neg (Nat.not_lt.mpr accepted.1)]
      dsimp only
      rw [if_pos accepted.2]
      rfl
    exact with_state installed (kept _ applied)
  case isFalse refused =>
    have applied : installed.state.lastApplied = s.lastApplied := by
      rw [installedDef, SnapshotNode.installSnapshot]
      split
      · rfl
      · dsimp only
        rw [if_neg fun done => refused ⟨by omega, done⟩]
        exact observed.lastApplied
    exact with_state installed (kept _ applied)

/-! ### The condition -/

/-- Every task that is about to store the commit index stores one from `index` on. -/
def CommitsFrom (s : IndexRun) (index : Nat) : Prop :=
  ∀ task ∈ s.tasks, ∀ pending ∈ task.commitStore, index ≤ pending

/-- The tasks and the loop that are about to store the applied index store one from `index` on. -/
def AppliesFrom (s : IndexRun) (index : Nat) : Prop :=
  (∀ task ∈ s.tasks, ∀ pending ∈ task.appliedStore, index ≤ pending) ∧
    ∀ bounds ∈ s.loop, index ≤ bounds.2

/-- The last index of the log after the entries. -/
def reach (s : IndexRun) (entries : List LogEntry) : Nat :=
  (entries.getLast?.map (·.index)).getD s.node.log.lastIndex

/-- The task may take its next step. -/
def OrderlyTask (s : IndexRun) : IndexTask → Prop
  | .proposing entry => s.node.config.peers.isEmpty = true → s.commitIndex ≤ entry.index
  | .committing index => s.CommitsFrom index
  | .advancing index => s.CommitsFrom index
  | .installing index => s.AppliesFrom index
  | .finished => True

/-- **The condition.** A request that moves the commit index leaves a log that reaches the old one; an
accepted snapshot is neither behind the commit index nor ahead of one that a task is about to store; a
proposal of a node without peers is not appended below the commit index; and of two stores of one index
that are both due, the lower one comes first. -/
def Orderly (s : IndexRun) : Action → Prop
  | .appendEntries request => s.node.toRaftNode.Accepts request →
      request.leaderCommit > s.commitIndex → s.commitIndex ≤ s.reach request.entries
  | .installSnapshot request => s.node.state.currentTerm ≤ request.term → request.done = true →
      s.commitIndex ≤ request.lastIncludedIndex ∧ s.CommitsFrom request.lastIncludedIndex
  | .resume task => ∀ now ∈ s.tasks[task]?, s.OrderlyTask now
  | .send => ∀ bounds ∈ s.loop, bounds.2 < bounds.1 → s.AppliesFrom bounds.2
  | _ => True

instance (s : IndexRun) (index : Nat) : Decidable (s.CommitsFrom index) :=
  inferInstanceAs (Decidable (∀ task ∈ s.tasks, ∀ pending ∈ task.commitStore, index ≤ pending))

instance (s : IndexRun) (index : Nat) : Decidable (s.AppliesFrom index) :=
  inferInstanceAs (Decidable ((∀ task ∈ s.tasks, ∀ pending ∈ task.appliedStore, index ≤ pending) ∧
    ∀ bounds ∈ s.loop, index ≤ bounds.2))

instance (s : IndexRun) : DecidablePred (OrderlyTask s)
  | .proposing _ => inferInstanceAs (Decidable (_ → _))
  | .committing index => inferInstanceAs (Decidable (s.CommitsFrom index))
  | .advancing index => inferInstanceAs (Decidable (s.CommitsFrom index))
  | .installing index => inferInstanceAs (Decidable (s.AppliesFrom index))
  | .finished => .isTrue trivial

instance (s : IndexRun) : DecidablePred (Orderly s)
  | .appendEntries _ => inferInstanceAs (Decidable (_ → _ → _))
  | .installSnapshot _ => inferInstanceAs (Decidable (_ → _ → _ ∧ _))
  | .resume task => inferInstanceAs (Decidable (∀ now ∈ s.tasks[task]?, s.OrderlyTask now))
  | .send => inferInstanceAs (Decidable (∀ bounds ∈ s.loop, bounds.2 < bounds.1 → _))
  | .event _ => .isTrue trivial
  | .appendReply _ _ _ => .isTrue trivial
  | .propose _ _ => .isTrue trivial
  | .apply => .isTrue trivial

/-! ### Records carry their own index -/

/-- Every record of the tree is an entry with the index it is stored at. -/
def Labelled (entries : Nat → Option LogEntry) : Prop :=
  ∀ i entry, entries i = some entry → entry.index = i

theorem Labelled.insertAll {tree : Nat → Option LogEntry} (labelled : Labelled tree)
    (entries : List LogEntry) : Labelled (RaftLog.insertAll tree entries) := by
  induction entries generalizing tree with
  | nil => exact labelled
  | cons entry rest ih =>
    refine ih fun i other found => ?_
    have found : Function.update tree entry.index (some entry) i = some other := found
    by_cases here : i = entry.index
    · subst here
      rw [Function.update_self] at found
      rw [← Option.some.inj found]
    · rw [Function.update_of_ne here] at found
      exact labelled i other found

theorem Labelled.append {log : DurableLog} (labelled : Labelled log.tree.entries)
    (entries : List LogEntry) : Labelled (log.append entries).tree.entries := by
  show Labelled (log.append entries).toRaftLog.entries
  rw [DurableLog.toRaftLog_append, RaftLog.append]
  cases entries.getLast? with
  | none => exact labelled
  | some _ => exact Labelled.insertAll labelled entries

theorem Labelled.truncateAfter {log : DurableLog} (labelled : Labelled log.tree.entries) (index : Nat) :
    Labelled (log.truncateAfter index).tree.entries := by
  rcases Nat.lt_or_ge index log.lastIndex with cut | keep
  · rw [DurableLog.truncateAfter_entries cut]
    intro i entry found
    dsimp only at found
    split at found
    · cases found
    · exact labelled i entry found
  · rw [DurableLog.truncateAfter, if_pos keep]
    exact labelled

theorem Labelled.spliceLog {log : DurableLog} (labelled : Labelled log.tree.entries)
    (entries : List LogEntry) : Labelled (SnapshotNode.spliceLog log entries).tree.entries := by
  cases entries with
  | nil => exact labelled
  | cons first rest =>
    rw [SnapshotNode.spliceLog]
    refine Labelled.append ?_ _
    split
    · exact labelled.truncateAfter _
    · exact labelled

theorem takeSnapshot_entries (node : SnapshotNode) (data : Option Bytes) :
    (node.takeSnapshot data).log.tree.entries = node.log.tree.entries := by
  rw [SnapshotNode.takeSnapshot]
  dsimp only
  split
  · cases data with
    | none =>
      dsimp only
      rw [(DurableLog.truncateBefore_after_save node.log _ _ []).2]
      rfl
    | some data =>
      dsimp only
      rw [(DurableLog.truncateBefore_after_save node.log _ _ data).1]
      rfl
  · rfl

/-! ### What the steps leave -/

/-- The node keeps its indices and what it has sent, and the records their labels. -/
structure Still (old new : SnapshotNode) : Prop where
  commit : new.state.commitIndex = old.state.commitIndex
  applied : new.state.lastApplied = old.state.lastApplied
  sent : new.applyTx = old.applyTx
  labelled : Labelled old.log.tree.entries → Labelled new.log.tree.entries

theorem Still.of_unmoved {node : SnapshotNode} {raft : RaftNode}
    (unmoved : Unmoved node.toRaftNode raft) : Still node (node.withRaft raft) :=
  ⟨unmoved.commit, unmoved.lastApplied, unmoved.applyTx, id⟩

theorem Still.event {run next : NodeRun} {event : NodeRun.Event} (leaves : leavesIndices event = true)
    (moves : run.step event = some next) : Still run.node next.node := by
  cases event with
  | requestVote request =>
    cases moves
    exact .of_unmoved (Unmoved.handleRequestVote _ request)
  | startPreVote =>
    cases moves
    exact ⟨rfl, rfl, rfl, id⟩
  | startRealElection =>
    cases moves
    exact ⟨rfl, rfl, rfl, id⟩
  | voteReply election response =>
    rw [NodeRun.step] at moves
    split at moves <;> cases moves
    exact .of_unmoved (Unmoved.handleVoteReply _ _ response)
  | becomeLeader =>
    rw [NodeRun.step] at moves
    split at moves <;> cases moves
    exact ⟨rfl, rfl, rfl, id⟩
  | triggerSnapshot data =>
    cases moves
    have state := NodeRun.takeSnapshot_state run.node data
    refine ⟨congrArg _ state, congrArg _ state, ?_, fun labelled => ?_⟩
    · show (run.node.takeSnapshot data).applyTx = run.node.applyTx
      rw [SnapshotNode.takeSnapshot]
      dsimp only
      split <;> rfl
    · show Labelled (run.node.takeSnapshot data).log.tree.entries
      rwa [takeSnapshot_entries]
  | _ => cases leaves

theorem Still.followed (node : SnapshotNode) (request : AppendEntriesRequest) :
    Still node (followed node request) := by
  by_cases accepts : node.toRaftNode.Accepts request
  · obtain ⟨-, applied, -, sent⟩ := RaftNode.handleAppendEntries_beside accepts
    refine ⟨rfl, applied, sent, fun labelled => ?_⟩
    show Labelled (if node.toRaftNode.Accepts request then
      SnapshotNode.spliceLog node.log request.entries else node.log).tree.entries
    rw [if_pos accepts]
    exact labelled.spliceLog _
  · have unmoved := RaftNode.handleAppendEntries_unmoved accepts
    refine ⟨rfl, unmoved.lastApplied, unmoved.applyTx, fun labelled => ?_⟩
    show Labelled (if node.toRaftNode.Accepts request then
      SnapshotNode.spliceLog node.log request.entries else node.log).tree.entries
    rwa [if_neg accepts]

theorem followed_lastIndex {s : IndexRun} {request : AppendEntriesRequest}
    (accepts : s.node.toRaftNode.Accepts request) :
    (followed s.node request).log.lastIndex = s.reach request.entries := by
  show (if s.node.toRaftNode.Accepts request then
    SnapshotNode.spliceLog s.node.log request.entries else s.node.log).lastIndex = _
  rw [if_pos accepts, reach]
  cases found : request.entries.getLast? with
  | none =>
    rw [List.getLast?_eq_none_iff.mp found]
    rfl
  | some last => exact ((DurableLog.spliceLog_counters s.node.log request.entries).2.2.2 last found).1

theorem Still.noteAppendReply (node : SnapshotNode) (peer : Nat) (response : AppendEntriesResponse) :
    Still node { node with state := RaftNode.noteAppendReply node.state peer response } := by
  refine ⟨(RaftNode.noteAppendReply_ballot _ _ _).2.2.2, ?_, rfl, id⟩
  exact RaftNode.noteAppendReply_lastApplied _ _ _

theorem Still.appendLog (node : SnapshotNode) (entries : List LogEntry) :
    Still node { node with log := node.log.append entries } :=
  ⟨rfl, rfl, rfl, fun labelled => labelled.append entries⟩

/-! ### The invariant -/

/-- **The indices are in order.** What is about to be stored is not behind, and what was sent is behind
the loop, or applied. -/
structure Ordered (s : IndexRun) : Prop where
  commits : s.CommitsFrom s.commitIndex
  installs : ∀ task ∈ s.tasks, ∀ pending ∈ task.appliedStore,
    s.lastApplied ≤ pending ∧ pending ≤ s.commitIndex
  loop : ∀ bounds ∈ s.loop, s.lastApplied ≤ bounds.2 ∧ bounds.2 ≤ s.commitIndex ∧
    bounds.1 ≤ bounds.2 + 1 ∧ ∀ entry ∈ s.node.applyTx, entry.index < bounds.1
  within : s.lastApplied ≤ s.commitIndex
  sent : s.loop = none → ∀ entry ∈ s.node.applyTx, entry.index ≤ s.lastApplied
  ascending : (s.node.applyTx.map (·.index)).Pairwise (· < ·)
  labelled : Labelled s.node.log.tree.entries

theorem Ordered.start {config : RaftConfig} {snapshotThreshold : Nat} {tree : LogTree}
    (labelled : Labelled tree.entries) :
    Ordered (IndexRun.start config snapshotThreshold tree) := by
  have state : (IndexRun.start config snapshotThreshold tree).lastApplied = 0 := by
    unfold IndexRun.start NodeRun.start lastApplied SnapshotNode.new
    dsimp only
    split <;> rfl
  refine ⟨fun _ member => (by cases member), fun _ member => (by cases member),
    fun _ member => (by cases member), by rw [state]; exact Nat.zero_le _,
    fun _ _ member => (by cases member), List.Pairwise.nil, labelled⟩

variable {s next : IndexRun}

/-- A step that leaves the applied index and the loop. -/
theorem Ordered.of_commit (inv : Ordered s) (sent : next.node.applyTx = s.node.applyTx)
    (loop : next.loop = s.loop) (applied : next.lastApplied = s.lastApplied)
    (commit : s.commitIndex ≤ next.commitIndex) (commits : next.CommitsFrom next.commitIndex)
    (installs : ∀ task ∈ next.tasks, ∀ pending ∈ task.appliedStore, task ∈ s.tasks ∨
      next.lastApplied ≤ pending ∧ pending ≤ next.commitIndex)
    (labelled : Labelled next.node.log.tree.entries) : Ordered next := by
  refine ⟨commits, fun task member pending due => ?_, fun bounds running => ?_, ?_, ?_, ?_, labelled⟩
  · rcases installs task member pending due with old | new
    · have before := inv.installs task old pending due
      rw [applied]
      exact ⟨before.1, before.2.trans commit⟩
    · exact new
  · rw [loop] at running
    obtain ⟨reached, read, next, behind⟩ := inv.loop bounds running
    rw [applied, sent]
    exact ⟨reached, read.trans commit, next, behind⟩
  · rw [applied]
    exact inv.within.trans commit
  · rw [loop, sent, applied]
    exact inv.sent
  · rw [sent]
    exact inv.ascending

/-- A step that spawns a task and leaves both indices. -/
theorem Ordered.spawn (inv : Ordered s) {node : SnapshotNode} (still : Still s.node node)
    {task : IndexTask} (fresh : task.appliedStore = none)
    (due : ∀ pending ∈ task.commitStore, s.commitIndex ≤ pending) : Ordered (s.spawn node task) := by
  have commit : (s.spawn node task).commitIndex = s.commitIndex := still.commit
  refine inv.of_commit still.sent rfl still.applied commit.ge (fun other member pending store => ?_)
    (fun other member pending store => ?_) (still.labelled inv.labelled)
  · rw [commit]
    rcases List.mem_append.mp member with old | new
    · exact inv.commits other old pending store
    · rw [List.mem_singleton.mp new] at store
      exact due pending store
  · rcases List.mem_append.mp member with old | new
    · exact .inl old
    · rw [List.mem_singleton.mp new, fresh] at store
      cases store

/-- The tasks after one of them has taken a step. -/
theorem mem_set {task other : IndexTask} {i : Nat} (member : other ∈ s.tasks.set i task) :
    other = task ∨ other ∈ s.tasks := by
  rcases List.mem_or_eq_of_mem_set member with old | new
  · exact .inr old
  · exact .inl new

/-- **A task stores its commit index.** -/
theorem Ordered.commit (inv : Ordered s) {node : SnapshotNode} {task index : Nat}
    (stored : node.state.commitIndex = index) (applied : node.state.lastApplied = s.lastApplied)
    (sent : node.applyTx = s.node.applyTx) (log : node.log = s.node.log)
    (ahead : s.commitIndex ≤ index) (first : s.CommitsFrom index) :
    Ordered (s.finish task node) := by
  have commit : (s.finish task node).commitIndex = index := stored
  refine inv.of_commit sent rfl applied (by rw [commit]; exact ahead)
    (fun other member pending store => ?_) (fun other member pending store => ?_)
    (by show Labelled node.log.tree.entries; rw [log]; exact inv.labelled)
  · rw [commit]
    rcases mem_set member with new | old
    · rw [new] at store
      cases store
    · exact first other old pending store
  · rcases mem_set member with new | old
    · rw [new] at store
      cases store
    · exact .inl old

/-- **A snapshot stores its applied index.** -/
theorem Ordered.install (inv : Ordered s) {task index : Nat} (reached : s.lastApplied ≤ index)
    (read : index ≤ s.commitIndex) (first : s.AppliesFrom index) :
    Ordered (s.finish task { s.node with state := s.node.state.setLastApplied index }) := by
  refine ⟨fun other member pending store => ?_, fun other member pending store => ?_,
    fun bounds running => ?_, read, fun idle entry sent => ?_, inv.ascending, inv.labelled⟩
  · rcases mem_set member with new | old
    · rw [new] at store
      cases store
    · exact inv.commits other old pending store
  · rcases mem_set member with new | old
    · rw [new] at store
      cases store
    · exact ⟨first.1 other old pending store, (inv.installs other old pending store).2⟩
  · obtain ⟨-, below, next, behind⟩ := inv.loop bounds running
    exact ⟨first.2 bounds running, below, next, behind⟩
  · exact (inv.sent idle entry sent).trans reached

/-- **The loop sends an entry, or stores the applied index.** -/
theorem Ordered.send (inv : Ordered s) {next commit : Nat} (running : s.loop = some (next, commit))
    (first : commit < next → s.AppliesFrom commit) : Ordered (s.send next commit) := by
  obtain ⟨reached, read, bound, behind⟩ := inv.loop (next, commit) running
  rw [IndexRun.send]
  split
  case isTrue more =>
    -- what the log reads at an index carries that index
    have label : ∀ entry ∈ (s.node.log.get next).toList, entry.index = next := by
      intro entry found
      have found : s.node.log.toRaftLog.get next = some entry := Option.mem_toList.mp found
      rw [RaftLog.get] at found
      split at found
      · cases found
      · exact inv.labelled next entry found
    refine ⟨inv.commits, inv.installs, ?_, inv.within, fun idle => (by cases idle), ?_, inv.labelled⟩
    · rintro bounds ⟨⟩
      refine ⟨reached, read, Nat.succ_le_succ more, fun entry sent => ?_⟩
      rcases List.mem_append.mp sent with old | new
      · exact (behind entry old).trans (Nat.lt_succ_self next)
      · rw [label entry new]
        exact Nat.lt_succ_self next
    · show ((s.node.applyTx ++ (s.node.log.get next).toList).map (·.index)).Pairwise (· < ·)
      rw [List.map_append]
      refine List.pairwise_append.mpr ⟨inv.ascending, ?_, fun a old b new => ?_⟩
      · cases s.node.log.get next with
        | none => exact List.Pairwise.nil
        | some entry => exact List.pairwise_singleton _ _
      · obtain ⟨entry, sent, rfl⟩ := List.mem_map.mp old
        obtain ⟨entry', found, rfl⟩ := List.mem_map.mp new
        rw [label entry' found]
        exact behind entry sent
  case isFalse done =>
    have first := first (by omega)
    refine ⟨inv.commits, fun task member pending store => ?_, fun bounds none => (by cases none), read,
      fun _ entry sent => ?_, inv.ascending, inv.labelled⟩
    · exact ⟨first.1 task member pending store, (inv.installs task member pending store).2⟩
    · have sent := behind entry sent
      have sent : entry.index < next := sent
      show entry.index ≤ commit
      have bound : next ≤ commit + 1 := bound
      omega

/-- **A snapshot stores its commit index.** -/
theorem Ordered.installSnapshot (inv : Ordered s) {request : InstallSnapshotRequest}
    (ahead : s.node.state.currentTerm ≤ request.term → request.done = true →
      s.commitIndex ≤ request.lastIncludedIndex ∧ s.CommitsFrom request.lastIncludedIndex) :
    Ordered (s.installSnapshot request) ∧ s.commitIndex ≤ (s.installSnapshot request).commitIndex := by
  have observed := Unmoved.observeTerm s.node.toRaftNode request.term
  have labelled : Labelled (s.node.installSnapshot request).log.tree.entries := by
    rw [NodeRun.installSnapshot_log]
    split <;> exact inv.labelled
  by_cases accepted : s.node.state.currentTerm ≤ request.term ∧ request.done = true
  · obtain ⟨behind, first⟩ := ahead accepted.1 accepted.2
    have commit : (s.installSnapshot request).commitIndex = request.lastIncludedIndex := by
      show (s.node.installSnapshot request).state.commitIndex = _
      rw [SnapshotNode.installSnapshot, if_neg (Nat.not_lt.mpr accepted.1)]
      dsimp only
      rw [if_pos accepted.2]
      rfl
    have sent : (s.node.installSnapshot request).applyTx = s.node.applyTx := by
      rw [SnapshotNode.installSnapshot, if_neg (Nat.not_lt.mpr accepted.1)]
      dsimp only
      rw [if_pos accepted.2]
      exact observed.applyTx
    have tasks : (s.installSnapshot request).tasks =
        s.tasks ++ [.installing request.lastIncludedIndex] := by
      show s.tasks ++ [_] = _
      rw [if_pos accepted]
    refine ⟨inv.of_commit sent rfl rfl (by rw [commit]; exact behind)
      (fun other member pending store => ?_) (fun other member pending store => ?_) labelled,
      by rw [commit]; exact behind⟩
    · rw [commit]
      rw [tasks] at member
      rcases List.mem_append.mp member with old | new
      · exact first other old pending store
      · rw [List.mem_singleton.mp new] at store
        cases store
    · rw [tasks] at member
      rcases List.mem_append.mp member with old | new
      · exact .inl old
      · rw [List.mem_singleton.mp new] at store
        cases store
        refine .inr ⟨?_, commit.ge⟩
        exact inv.within.trans behind
  · have state : Still s.node { s.node.installSnapshot request with
        state := (s.node.installSnapshot request).state.setLastApplied s.lastApplied } := by
      refine ⟨?_, rfl, ?_, fun _ => labelled⟩
      · show (s.node.installSnapshot request).state.commitIndex = _
        rw [SnapshotNode.installSnapshot]
        split
        · rfl
        · dsimp only
          rw [if_neg fun done => accepted ⟨by omega, done⟩]
          exact observed.commit
      · show (s.node.installSnapshot request).applyTx = _
        rw [SnapshotNode.installSnapshot]
        split
        · rfl
        · dsimp only
          rw [if_neg fun done => accepted ⟨by omega, done⟩]
          exact observed.applyTx
    rw [IndexRun.installSnapshot, if_neg accepted]
    exact ⟨inv.spawn state rfl fun _ store => (by cases store), state.commit.ge⟩

/-- What one step does to the invariant and to the two indices. -/
structure Advances (s next : IndexRun) : Prop where
  ordered : Ordered next
  commit : s.commitIndex ≤ next.commitIndex
  applied : s.lastApplied ≤ next.lastApplied

theorem Advances.spawn (inv : Ordered s) {node : SnapshotNode} (still : Still s.node node)
    {task : IndexTask} (fresh : task.appliedStore = none)
    (due : ∀ pending ∈ task.commitStore, s.commitIndex ≤ pending) : Advances s (s.spawn node task) :=
  ⟨inv.spawn still fresh due, still.commit.ge, still.applied.ge⟩

theorem Advances.resume (inv : Ordered s) {task : Nat} {now : IndexTask}
    (found : s.tasks[task]? = some now) (orderly : s.OrderlyTask now)
    (moves : s.resume task now = some next) : Advances s next := by
  have member : now ∈ s.tasks := List.mem_of_getElem? found
  cases now with
  | proposing entry =>
    cases moves
    have still := Still.appendLog s.node [entry]
    refine ⟨inv.of_commit rfl rfl rfl le_rfl (fun other member pending store => ?_)
      (fun other member pending store => ?_) (still.labelled inv.labelled), le_rfl, le_rfl⟩
    · rcases mem_set member with new | old
      · rw [new] at store
        split at store
        case isTrue alone =>
          cases store
          exact orderly alone
        case isFalse => cases store
      · exact inv.commits other old pending store
    · rcases mem_set member with new | old
      · rw [new] at store
        split at store <;> cases store
      · exact .inl old
  | committing index =>
    cases moves
    have ahead := inv.commits _ member index rfl
    exact ⟨inv.commit rfl rfl rfl rfl ahead orderly, ahead, le_rfl⟩
  | advancing index =>
    cases moves
    have ahead := inv.commits _ member index rfl
    exact ⟨inv.commit rfl rfl rfl rfl ahead orderly, ahead, le_rfl⟩
  | installing index =>
    cases moves
    obtain ⟨reached, read⟩ := inv.installs _ member index rfl
    exact ⟨inv.install reached read orderly, le_rfl, reached⟩
  | finished => cases moves

/-- **One orderly step.** -/
theorem Ordered.step (inv : Ordered s) {action : Action} (moves : s.step action = some next)
    (orderly : s.Orderly action) : Advances s next := by
  cases action with
  | event event =>
    rw [IndexRun.step] at moves
    split at moves
    case isFalse => cases moves
    case isTrue leaves =>
      obtain ⟨run, ran, rfl⟩ := Option.map_eq_some_iff.mp moves
      have still := Still.event leaves ran
      have commit : IndexRun.commitIndex { s with run := run } = s.commitIndex := still.commit
      refine ⟨inv.of_commit still.sent rfl still.applied commit.ge ?_ (fun _ old _ _ => .inl old)
        (still.labelled inv.labelled), commit.ge, still.applied.ge⟩
      rw [commit]
      exact inv.commits
  | appendEntries request =>
    cases moves
    refine Advances.spawn inv (.followed s.node request) ?_ fun pending store => ?_
    · split <;> rfl
    · split at store
      case isFalse => cases store
      case isTrue moved =>
        obtain ⟨accepts, ahead⟩ := moved
        cases store
        rw [followed_lastIndex accepts]
        exact le_min ahead.le (orderly accepts ahead)
  | installSnapshot request =>
    cases moves
    obtain ⟨ordered, commit⟩ := inv.installSnapshot orderly
    exact ⟨ordered, commit, le_rfl⟩
  | appendReply peer leaderLastIndex response =>
    cases moves
    refine Advances.spawn inv (.noteAppendReply s.node peer response) ?_ fun pending store => ?_
    · split <;> rfl
    · split at store
      case isFalse => cases store
      case isTrue ahead =>
        cases store
        exact ahead.le
  | propose entryType data =>
    rw [IndexRun.step] at moves
    split at moves
    case isFalse => cases moves
    case isTrue =>
      cases moves
      exact Advances.spawn inv ⟨rfl, rfl, rfl, id⟩ rfl fun _ store => (by cases store)
  | resume task =>
    rw [IndexRun.step] at moves
    split at moves
    case h_1 now found => exact Advances.resume inv found (orderly now found) moves
    case h_2 => cases moves
  | apply =>
    rw [IndexRun.step] at moves
    split at moves
    case h_1 => cases moves
    case h_2 idle =>
      cases moves
      refine ⟨⟨inv.commits, inv.installs, ?_, inv.within, fun idle => (by cases idle), inv.ascending,
        inv.labelled⟩, le_rfl, le_rfl⟩
      rintro bounds ⟨⟩
      exact ⟨inv.within, le_rfl, Nat.succ_le_succ inv.within,
        fun entry sent => Nat.lt_succ_of_le (inv.sent idle entry sent)⟩
  | send =>
    rw [IndexRun.step] at moves
    split at moves
    case h_2 => cases moves
    case h_1 bound commit running =>
      cases moves
      refine ⟨inv.send running (orderly (bound, commit) running), ?_, ?_⟩
      · rw [IndexRun.send]
        split <;> exact le_rfl
      · rw [IndexRun.send]
        split
        · exact le_rfl
        · exact (inv.loop (bound, commit) running).1

/-! ### Whole runs -/

/-- **The indices never go back.** In a run whose steps are all orderly, neither the commit index nor the
applied index goes down between two states, and the entries are sent in the order of their indices. -/
theorem indices_ascend (config : RaftConfig) (snapshotThreshold : Nat) (tree : LogTree)
    (labelled : Labelled tree.entries) (actions : List Action)
    (orderly : Along step Orderly (start config snapshotThreshold tree) actions) :
    Ascends step commitIndex (start config snapshotThreshold tree) actions ∧
      Ascends step lastApplied (start config snapshotThreshold tree) actions ∧
      Throughout step (fun s => (s.node.applyTx.map (·.index)).Pairwise (· < ·))
        (start config snapshotThreshold tree) actions := by
  have keeps : ∀ s action next, step s action = some next → Orderly s action → Ordered s →
      Ordered next := fun _ _ _ moves orderly inv => (inv.step moves orderly).ordered
  have begins : Ordered (start config snapshotThreshold tree) := Ordered.start labelled
  refine ⟨ascends_iff.mpr ?_, ascends_iff.mpr ?_, fun i s reaches => ?_⟩
  · exact Along.of_invariant keeps (fun s action inv orderly next moves =>
      (inv.step moves orderly).commit) begins orderly
  · exact Along.of_invariant keeps (fun s action inv orderly next moves =>
      (inv.step moves orderly).applied) begins orderly
  · exact (run_invariant keeps begins (orderly.take i) reaches).ascending

/-- A follower of two peers, with a new log. -/
def follower : IndexRun := start ⟨1, [2, 3], 100, true⟩ 10000 .empty

/-- Two entries are committed and sent; then a snapshot of the first of them arrives late, and the next
heartbeat. -/
def lateSnapshot : List Action :=
  [.appendEntries ⟨1, 2, 0, 0, [⟨1, 1, [120], .normal⟩, ⟨2, 1, [121], .normal⟩], 2⟩, .resume 0,
    .apply, .send, .send, .send,
    .installSnapshot ⟨1, 2, 1, 1, 0, [], true⟩, .resume 1,
    .appendEntries ⟨1, 2, 2, 1, [], 2⟩, .resume 2, .apply, .send, .send]

/-- **Both indices go back from 2 to 1, and the second entry is sent again.** -/
theorem late_snapshot_goes_back :
    (runFrom step follower (lateSnapshot.take 6)).map (fun s => (s.commitIndex, s.lastApplied)) =
        some (2, 2) ∧
      (runFrom step follower (lateSnapshot.take 8)).map (fun s => (s.commitIndex, s.lastApplied)) =
        some (1, 1) ∧
      (runFrom step follower lateSnapshot).map (fun s => s.node.applyTx.map (·.index)) =
        some [1, 2, 2] :=
  ⟨by decide +kernel, by decide +kernel, by decide +kernel⟩

/-- The same with a snapshot that is ahead. -/
def snapshotAhead : List Action :=
  [.appendEntries ⟨1, 2, 0, 0, [⟨1, 1, [120], .normal⟩, ⟨2, 1, [121], .normal⟩], 1⟩, .resume 0,
    .apply, .send, .send, .installSnapshot ⟨1, 2, 2, 1, 0, [], true⟩, .resume 1,
    .appendEntries ⟨1, 2, 2, 1, [⟨3, 1, [122], .normal⟩], 3⟩, .resume 2, .apply, .send, .send]

theorem snapshotAhead_ascends :
    (runFrom step follower snapshotAhead).map (fun s => s.node.applyTx.map (·.index)) = some [1, 3] ∧
      Ascends step commitIndex follower snapshotAhead ∧
      Ascends step lastApplied follower snapshotAhead ∧
      Throughout step (fun s => (s.node.applyTx.map (·.index)).Pairwise (· < ·)) follower
        snapshotAhead :=
  ⟨by decide +kernel, indices_ascend ⟨1, [2, 3], 100, true⟩ 10000 .empty
    (fun _ _ found => (by cases found)) snapshotAhead (by decide +kernel)⟩

end IndexRun

end Rusd
