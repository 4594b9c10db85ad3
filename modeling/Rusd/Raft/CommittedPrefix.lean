/-
**What the logs of a cluster share.**

In a run of safe steps the logs match, and what a node has committed is common property: it is in the log
of every leader from the node's term on, it stays in the node's own log, and it is what the node sends on
its apply channel.

* `log_matching` — two logs with entries of one term at one index agree up to that index.
* `committed_in_leaders` — what a node has committed is in the log of every leader of its term or a later
  one.
* `committed_permanent` — what a node has committed at one time, it has committed at every later time.
* `applied_in_order` — a node has sent its log up to `last_applied`, entry by entry, so that what two
  nodes have sent are prefixes of one sequence.
-/

import Rusd.Raft.StateMachineSafety

namespace Rusd

open RaftLog

/-- The entries up to the commit index. -/
def RaftNode.committed (node : RaftNode) : List LogEntry := node.entries.take node.state.commitIndex

/-- **The apply channel follows the log.** -/
structure RaftNode.Applies (node : RaftNode) : Prop where
  sent : node.applyTx = node.entries.take node.state.lastApplied
  below : node.state.lastApplied ≤ node.state.commitIndex

/-- What has been sent stays a part of the log, as long as what is committed stays. -/
theorem RaftNode.Applies.keep {old new : RaftNode} (applies : old.Applies)
    (committed : old.committed <+: new.committed) (size : old.committed.length = old.state.commitIndex)
    (size' : new.committed.length = new.state.commitIndex) (applyTx : new.applyTx = old.applyTx)
    (lastApplied : new.state.lastApplied = old.state.lastApplied) : new.Applies := by
  have grows : old.state.commitIndex ≤ new.state.commitIndex := by
    rw [← size, ← size']
    exact committed.length_le
  refine ⟨?_, lastApplied ▸ applies.below.trans grows⟩
  have same := take_eq_of_initial committed (applies.below.trans size.ge)
  rw [RaftNode.committed, RaftNode.committed, List.take_take, List.take_take,
    Nat.min_eq_left applies.below, Nat.min_eq_left (applies.below.trans grows)] at same
  rw [applyTx, lastApplied, same, applies.sent]

/-- **A round of the apply loop** sends the log on, up to the commit index. -/
theorem RaftNode.Applies.applyCommittedEntries {node : RaftNode} (applies : node.Applies)
    (holds : node.log.Holds node.entries)
    (inside : node.state.commitIndex ≤ node.entries.length) : node.applyCommittedEntries.Applies := by
  obtain ⟨sent, below⟩ := applies
  have stretch : node.committedEntries =
      (node.entries.drop node.state.lastApplied).take
        (node.state.commitIndex - node.state.lastApplied) := by
    have same : ∀ i ∈ List.range' (node.state.lastApplied + 1)
        (node.state.commitIndex - node.state.lastApplied), node.log.get i = node.log.entries i := by
      intro i inRange
      have bounds := List.mem_range'_1.mp inRange
      rw [RaftLog.get, if_neg (by rw [holds.first]; omega)]
    rw [RaftNode.committedEntries, List.filterMap_congr same]
    exact holds.filterMap_range' _ _ (by omega)
  refine ⟨?_, le_rfl⟩
  show node.applyTx ++ node.committedEntries = node.entries.take node.state.commitIndex
  rw [sent, stretch, ← List.take_add, Nat.add_sub_cancel' below]

namespace Cluster

variable {config : ClusterConfig} {s next : Cluster} {history : History}

/-! ### One state -/

theorem ReplicationInv.length_committed (inv : ReplicationInv config s history) {id : Nat}
    (member : id ∈ s.ids) : (s.raft id).committed.length = (s.raft id).state.commitIndex := by
  rw [RaftNode.committed, List.length_take]
  exact Nat.min_eq_left (inv.commits.commit id member).1

/-- What is committed at a node is a prefix of the log of every leader from its term on. -/
theorem ReplicationInv.committed_initial (inv : ReplicationInv config s history) {id later : Nat}
    (member : id ∈ s.ids) (led : history.Led later) (le : (s.raft id).term ≤ later) :
    (s.raft id).committed <+: history.leaderLog later := by
  rcases (inv.commits.commit id member).2 with zero | ⟨term, n, committed, below, reaches, agree⟩
  · rw [RaftNode.committed, zero]
    exact List.nil_prefix
  · rw [RaftNode.committed, ← agree]
    exact (List.take_prefix_take_left reaches).trans
      (committed.prefix_leaderLog inv led (below.trans le))

/-- What two nodes have committed are prefixes of one log. -/
theorem ReplicationInv.committed_comparable (inv : ReplicationInv config s history) {id other : Nat}
    (member : id ∈ s.ids) (member' : other ∈ s.ids) :
    (s.raft id).committed <+: (s.raft other).committed ∨
      (s.raft other).committed <+: (s.raft id).committed := by
  rcases (inv.commits.commit id member).2 with zero | ⟨term, n, committed, -, reaches, agree⟩
  · exact .inl (by rw [RaftNode.committed, zero]; exact List.nil_prefix)
  rcases (inv.commits.commit other member').2 with zero | ⟨term', n', committed', -, reaches', agree'⟩
  · exact .inr (by rw [RaftNode.committed, zero]; exact List.nil_prefix)
  -- both are in the log of the later of the two leaders
  have part : ∀ {later}, history.Led later → term ≤ later →
      (s.raft id).committed <+: history.leaderLog later := fun led le => by
    rw [RaftNode.committed, ← agree]
    exact (List.take_prefix_take_left reaches).trans (committed.prefix_leaderLog inv led le)
  have part' : ∀ {later}, history.Led later → term' ≤ later →
      (s.raft other).committed <+: history.leaderLog later := fun led le => by
    rw [RaftNode.committed, ← agree']
    exact (List.take_prefix_take_left reaches').trans (committed'.prefix_leaderLog inv led le)
  rcases Nat.le_total term term' with le | le
  · exact List.prefix_or_prefix_of_prefix (part committed'.led le) (part' committed'.led le_rfl)
  · exact List.prefix_or_prefix_of_prefix (part committed.led le_rfl) (part' committed.led le)

/-- What two nodes have sent are prefixes of one sequence. -/
theorem ReplicationInv.applied_comparable (inv : ReplicationInv config s history)
    (applies : ∀ id ∈ s.ids, (s.raft id).Applies) {id other : Nat} (member : id ∈ s.ids)
    (member' : other ∈ s.ids) :
    (s.raft id).applyTx <+: (s.raft other).applyTx ∨
      (s.raft other).applyTx <+: (s.raft id).applyTx := by
  have within : ∀ i ∈ s.ids, (s.raft i).applyTx <+: (s.raft i).committed := fun i inside => by
    rw [(applies i inside).sent, RaftNode.committed]
    exact List.take_prefix_take_left (applies i inside).below
  rcases inv.committed_comparable member member' with below | below
  · exact List.prefix_or_prefix_of_prefix ((within id member).trans below) (within other member')
  · exact List.prefix_or_prefix_of_prefix (within id member) ((within other member').trans below)

/-! ### One step -/

/-- An accepted request keeps what is committed, and may commit more. -/
theorem ReplicationInv.committed_accept (inv : ReplicationInv config s history) {id : CallId}
    {call : AppendCall} (found : s.appendCalls id = some call)
    (accepts : (s.raft id.peer).Accepts call.request) (safe : s.Replicates (.deliverAppend id)) :
    (s.raft id.peer).committed <+:
      ((s.raft id.peer).handleAppendEntries call.request).1.committed := by
  obtain ⟨keepsLog, -⟩ := safe call found accepts
  have ok := inv.appends id call found
  have led : history.Led call.request.term := ⟨_, ok.led⟩
  obtain ⟨l', holds, spliced⟩ := inv.spliced found accepts keepsLog
  have kept : (s.raft id.peer).committed <+: l' :=
    spliced.keeps _ (List.take_prefix _ _) (inv.committed_initial ok.peer led accepts.1)
  have log : ((s.raft id.peer).handleAppendEntries call.request).1.log.Holds l' := by
    rw [(RaftNode.handleAppendEntries_accept accepts).1]
    exact holds
  have entries : ((s.raft id.peer).handleAppendEntries call.request).1.entries = l' :=
    log.toList_eq
  have size := inv.length_committed ok.peer
  have long : (s.raft id.peer).state.commitIndex ≤ l'.length := size ▸ kept.length_le
  rw [RaftNode.committed, RaftNode.committed, entries, List.prefix_take_iff]
  refine ⟨kept, ?_⟩
  rw [← RaftNode.committed, size, RaftNode.handleAppendEntries_commit accepts, log.last]
  split
  · exact le_min (le_of_lt ‹_›) long
  · exact le_rfl

/-- **Every safe step keeps what is committed**, at every node. -/
theorem ReplicationInv.committed_step (inv : ReplicationInv config s history) (valid : config.Valid)
    (two : 2 ≤ config.ids.length) {action : Action} (safe : s.Safe action) {id : Nat}
    (member : id ∈ s.ids) {new : RaftNode} (stepped : NodeStep s id action new) :
    (s.raft id).committed <+: new.committed := by
  have size := inv.length_committed member
  -- a node that keeps its log and raises its commit index
  have raised : ∀ {node : RaftNode}, node.log = (s.raft id).log →
      (s.raft id).state.commitIndex ≤ node.state.commitIndex →
      (s.raft id).committed <+: node.committed := by
    intro node log le
    rw [RaftNode.committed, RaftNode.committed, RaftNode.entries, RaftNode.entries, log]
    exact List.take_prefix_take_left le
  cases stepped with
  | unmoved unmoved => exact raised unmoved.log unmoved.commit.ge
  | accept peer found accepts =>
    subst peer
    exact inv.committed_accept found accepts safe.2
  | @reply call reply sent response owner found received =>
    obtain ⟨-, log, -⟩ := (s.raft id).handleAppendReply_beside call.peer sent.leaderLastIndex response
    refine raised log ?_
    rcases (s.raft id).handleAppendReply_cases call.peer sent.leaderLastIndex response with
      ⟨more, state⟩ | ⟨-, state⟩
    · rw [state]
      exact more.le
    · rw [state, (RaftNode.noteAppendReply_ballot _ _ _).2.2.2]
  | @propose entryType data leads =>
    have holds : ((s.raft id).propose entryType data).log.Holds ((s.raft id).entries ++ [_]) :=
      RaftNode.propose_holds (inv.nodes.holds id member)
    have entries : ((s.raft id).propose entryType data).entries = (s.raft id).entries ++ [_] :=
      holds.toList_eq
    obtain ⟨peer, listed⟩ := inv.election.others valid two member (s.raft id) rfl
    have nonempty : (s.raft id).config.peers.isEmpty = false :=
      List.isEmpty_eq_false_iff.mpr (List.ne_nil_of_mem (List.mem_filter.mp listed).1)
    have commit : ((s.raft id).propose entryType data).state.commitIndex =
        (s.raft id).state.commitIndex := by
      rw [RaftNode.propose, nonempty]
      rfl
    rw [RaftNode.committed, RaftNode.committed, entries, commit,
      List.take_append_of_le_length (inv.commits.commit id member).1]
  | apply => exact raised rfl le_rfl

/-- **Every safe step keeps the apply channels in order.** -/
theorem ReplicationInv.applies_step (inv : ReplicationInv config s history) (valid : config.Valid)
    (two : 2 ≤ config.ids.length) {action : Action} (moves : s.step action = some next)
    (safe : s.Safe action) (applies : ∀ id ∈ s.ids, (s.raft id).Applies) :
    ∀ id ∈ next.ids, (next.raft id).Applies := by
  obtain ⟨later, after⟩ := inv.step valid two moves safe
  have ids : next.ids = s.ids := after.election.ids.trans inv.election.ids.symm
  intro id member
  have before : id ∈ s.ids := ids ▸ member
  have stepped := step_node moves id
  have size := after.length_committed member
  generalize next.raft id = new at stepped size ⊢
  have keep := (applies id before).keep (inv.committed_step valid two safe before stepped)
    (inv.length_committed before) size
  cases stepped with
  | unmoved unmoved => exact keep unmoved.applyTx unmoved.lastApplied
  | accept peer found accepts =>
    obtain ⟨-, lastApplied, -, applyTx⟩ := RaftNode.handleAppendEntries_beside accepts
    exact keep applyTx lastApplied
  | @reply call reply sent response owner found received =>
    obtain ⟨-, -, applyTx, lastApplied⟩ := (s.raft id).handleAppendReply_beside call.peer
      sent.leaderLastIndex response
    exact keep applyTx lastApplied
  | propose leads =>
    refine keep rfl ?_
    rw [RaftNode.propose]
    dsimp only
    split <;> rfl
  | apply =>
    exact (applies id before).applyCommittedEntries (inv.nodes.holds id before)
      (inv.commits.commit id before).1

/-! ### Over a whole run -/

/-- The invariants at the end of a safe run. -/
theorem run_replication (valid : config.Valid) (two : 2 ≤ config.ids.length) {actions : List Action}
    (runs : run config actions = some s) (safe : Along step Safe (start config) actions) :
    (∃ history, ReplicationInv config s history) ∧ ∀ id ∈ s.ids, (s.raft id).Applies := by
  have keeps : ∀ s action next, step s action = some next → Safe s action →
      ((∃ history, ReplicationInv config s history) ∧ ∀ id ∈ s.ids, (s.raft id).Applies) →
      (∃ history, ReplicationInv config next history) ∧ ∀ id ∈ next.ids, (next.raft id).Applies := by
    rintro s action next moves safe ⟨⟨history, inv⟩, applies⟩
    exact ⟨inv.step valid two moves safe, inv.applies_step valid two moves safe applies⟩
  refine run_invariant keeps ⟨⟨_, .start valid two⟩, fun id _ => ⟨?_, ?_⟩⟩ safe runs
  · show [] = List.take _ []
    rw [List.take_nil]
  · show (if (config.configs id).peers.isEmpty then _ else RaftState.new).lastApplied ≤ _
    split <;> exact Nat.zero_le _

/-- **Log matching.** In a run of safe steps, two logs that hold entries of one term at one index hold the
same entries up to that index. -/
theorem log_matching (config : ClusterConfig) (valid : config.Valid) (two : 2 ≤ config.ids.length)
    (actions : List Action) (s : Cluster) (runs : run config actions = some s)
    (safe : Along step Safe (start config) actions) :
    ∀ id ∈ config.ids, ∀ other ∈ config.ids, ∀ index entry entry',
      (s.raft id).log.get index = some entry → (s.raft other).log.get index = some entry' →
      entry.term = entry'.term →
      ∀ i ≤ index, (s.raft id).log.get i = (s.raft other).log.get i := by
  obtain ⟨⟨history, inv⟩, -⟩ := run_replication valid two runs safe
  intro id member other member' index entry entry' found found' same i le
  rw [← inv.election.ids] at member member'
  have holds := inv.nodes.holds id member
  have holds' := inv.nodes.holds other member'
  rcases Nat.eq_zero_or_pos i with rfl | positive
  · rw [RaftLog.get, RaftLog.get, if_pos (by rw [holds.first]; omega),
      if_pos (by rw [holds'.first]; omega)]
  · have reach : 0 < index := positive.trans_le le
    rw [holds.get_eq reach] at found
    rw [holds'.get_eq reach] at found'
    have agree := (inv.nodes.matched id member).take_eq (inv.nodes.matched other member') found found'
      same
    rw [holds.get_eq positive, holds'.get_eq positive]
    have here := congrArg (fun part => part[i - 1]?) agree
    simpa only [List.getElem?_take_of_lt (show i - 1 < index - 1 + 1 by omega)] using here

/-- An entry that a leader has replicated to one of its peers. -/
def replicatedEntry : LogEntry := ⟨1, 2, [120], .normal⟩

/-- Node 1 leads, and nodes 1 and 2 hold its entry and have committed it. -/
def ReplicatedState (s : Cluster) : Prop :=
  ((s.raft 1).state.role = .leader ∧ (s.raft 2).state.currentTerm ≤ (s.raft 1).state.currentTerm) ∧
    ((s.raft 1).log.get 1 = some replicatedEntry ∧ (s.raft 2).log.get 1 = some replicatedEntry) ∧
    (s.raft 2).committed = [replicatedEntry] ∧ (s.raft 1).applyTx = [replicatedEntry]

instance (s : Cluster) : Decidable s.ReplicatedState :=
  inferInstanceAs (Decidable ((_ ∧ _) ∧ (_ ∧ _) ∧ _ ∧ _))

theorem replicated_state : ∃ s, run threeNodes replicated = some s ∧ s.ReplicatedState := by
  have computed : (run threeNodes replicated).map (fun s => decide s.ReplicatedState) = some true := by
    decide +kernel
  obtain ⟨s, runs, holds⟩ := Option.map_eq_some_iff.mp computed
  exact ⟨s, runs, of_decide_eq_true holds⟩

theorem replicated_logs_match : ∃ s, run threeNodes replicated = some s ∧
    (s.raft 1).log.get 1 = some replicatedEntry ∧
    ∀ i ≤ 1, (s.raft 1).log.get i = (s.raft 2).log.get i := by
  obtain ⟨s, runs, -, ⟨found, found'⟩, -⟩ := replicated_state
  exact ⟨s, runs, found, log_matching threeNodes threeNodes_valid (by decide) replicated s runs
    (by decide +kernel) 1 (by decide) 2 (by decide) 1 _ _ found found' rfl⟩

/-- **Leader completeness.** In a run of safe steps, what any node has committed is in the log of every
node that leads in that node's term or a later one, and what two nodes have committed are prefixes of one
log. -/
theorem committed_in_leaders (config : ClusterConfig) (valid : config.Valid)
    (two : 2 ≤ config.ids.length) (actions : List Action) (s : Cluster)
    (runs : run config actions = some s) (safe : Along step Safe (start config) actions) :
    ∀ id ∈ config.ids, ∀ other ∈ config.ids,
      ((s.raft other).state.role = .leader →
        (s.raft id).state.currentTerm ≤ (s.raft other).state.currentTerm →
        (s.raft id).committed <+: (s.raft other).entries) ∧
      ((s.raft id).committed <+: (s.raft other).committed ∨
        (s.raft other).committed <+: (s.raft id).committed) := by
  obtain ⟨⟨history, inv⟩, -⟩ := run_replication valid two runs safe
  intro id member other member'
  rw [← inv.election.ids] at member member'
  refine ⟨fun role le => ?_, inv.committed_comparable member member'⟩
  rw [inv.nodes.leading other member' role]
  exact inv.committed_initial member ⟨other, inv.election.leader other member' role⟩ le

theorem replicated_in_leader : ∃ s, run threeNodes replicated = some s ∧
    (s.raft 2).committed = [replicatedEntry] ∧ (s.raft 2).committed <+: (s.raft 1).entries := by
  obtain ⟨s, runs, ⟨role, terms⟩, -, committed, -⟩ := replicated_state
  exact ⟨s, runs, committed, (committed_in_leaders threeNodes threeNodes_valid (by decide) replicated s
    runs (by decide +kernel) 2 (by decide) 1 (by decide)).1 role terms⟩

/-- **What is committed stays committed.** In a run of safe steps, what a node has committed at one time it
has committed, entry for entry, at every later time. -/
theorem committed_permanent (config : ClusterConfig) (valid : config.Valid)
    (two : 2 ≤ config.ids.length) (actions more : List Action) (s t : Cluster)
    (runs : run config actions = some s) (continues : run config (actions ++ more) = some t)
    (safe : Along step Safe (start config) (actions ++ more)) :
    ∀ id ∈ config.ids, (s.raft id).committed <+: (t.raft id).committed := by
  intro id member
  induction more using List.reverseRecOn generalizing t with
  | nil =>
    rw [List.append_nil, runs] at continues
    cases continues
    exact List.prefix_rfl
  | append_singleton more action ih =>
    rw [← List.append_assoc] at continues safe
    obtain ⟨u, reaches, moves⟩ := runFrom_concat continues
    have before : Along step Safe (start config) (actions ++ more) := by
      have part := safe.take (actions ++ more).length
      rwa [List.take_left] at part
    obtain ⟨⟨history, inv⟩, -⟩ := run_replication valid two reaches before
    exact (ih u reaches before).trans (inv.committed_step valid two (safe.last reaches)
      (inv.election.ids ▸ member) (step_node moves id))

/-- Node 1 has committed the entry before node 2 has heard of it. -/
theorem replicated_stays : ∃ s t, run threeNodes (replicated.take 10) = some s ∧
    run threeNodes (replicated.take 10 ++ replicated.drop 10) = some t ∧
    (s.raft 1).committed = [replicatedEntry] ∧ (s.raft 1).committed <+: (t.raft 1).committed := by
  have computed : (run threeNodes (replicated.take 10)).map (fun s => (s.raft 1).committed) =
      some [replicatedEntry] := by decide +kernel
  obtain ⟨s, runs, committed⟩ := Option.map_eq_some_iff.mp computed
  obtain ⟨t, whole, -⟩ := replicated_state
  have continues : run threeNodes (replicated.take 10 ++ replicated.drop 10) = some t := by
    rwa [List.take_append_drop]
  exact ⟨s, t, runs, continues, committed, committed_permanent threeNodes threeNodes_valid (by decide)
    (replicated.take 10) (replicated.drop 10) s t runs continues (by decide +kernel) 1 (by decide)⟩

/-- **The nodes apply one sequence.** In a run of safe steps, every node has sent on its apply channel its
log up to `last_applied`, each entry once and in order, and of what two nodes have sent one is a prefix of
the other. -/
theorem applied_in_order (config : ClusterConfig) (valid : config.Valid)
    (two : 2 ≤ config.ids.length) (actions : List Action) (s : Cluster)
    (runs : run config actions = some s) (safe : Along step Safe (start config) actions) :
    ∀ id ∈ config.ids,
      (s.raft id).applyTx = (s.raft id).entries.take (s.raft id).state.lastApplied ∧
      ∀ other ∈ config.ids,
        (s.raft id).applyTx <+: (s.raft other).applyTx ∨
          (s.raft other).applyTx <+: (s.raft id).applyTx := by
  obtain ⟨⟨history, inv⟩, applies⟩ := run_replication valid two runs safe
  rw [← inv.election.ids]
  intro id member
  exact ⟨(applies id member).sent, fun other member' => inv.applied_comparable applies member member'⟩

theorem replicated_applied : ∃ s, run threeNodes replicated = some s ∧
    (s.raft 1).applyTx = [replicatedEntry] ∧
    (s.raft 1).applyTx = (s.raft 1).entries.take (s.raft 1).state.lastApplied ∧
    ((s.raft 1).applyTx <+: (s.raft 2).applyTx ∨ (s.raft 2).applyTx <+: (s.raft 1).applyTx) := by
  obtain ⟨s, runs, -, -, -, sent⟩ := replicated_state
  obtain ⟨whole, others⟩ := applied_in_order threeNodes threeNodes_valid (by decide) replicated s runs
    (by decide +kernel) 1 (by decide)
  exact ⟨s, runs, sent, whole, others 2 (by decide)⟩

end Cluster

end Rusd
