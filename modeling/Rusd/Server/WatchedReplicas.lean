/-
**The watches of the followers report one history.**

The apply loop of a node that does not lead notifies the watch hub of each command that it writes to the
store. In a run whose cluster steps are safe the commands of all the followers are those of one sequence
(`Deployment.run_sends`), so that two watches of the same range, on whichever followers, are sent the same
changes: neither misses one that the other has been sent before.

* `StoreOp.replicaWrite` — the write that the loop makes of a command, with its notifications.
* `replicated` — the changes of a sequence of commands, `afterCommands` — the store behind them.
* `Replicates` — all the writes of a run of the store and its hub are those of a sequence of commands.
* `stream_replicated` — what the stream of a watch has reported when the run is one of such writes.
* `watchers_share_history` — the streams of all the followers of a deployment.
-/

import Rusd.Server.Replicas
import Rusd.Watch.CatchUp

namespace Rusd

/-! ### The writes of the loop -/

/-- The write that the loop of a follower makes of a command. -/
def StoreOp.replicaWrite : StoreOp → Write
  | .put key value lease => .put key value lease
  | .deleteRange start stop => .delete .replica start stop

/-- The store behind a sequence of commands. -/
def afterCommands (s : MvccStore) (ops : List StoreOp) : MvccStore :=
  ops.foldl (fun s op => (op.replicaWrite.perform s).1) s

/-- The changes of a sequence of commands. -/
def replicated : MvccStore → List StoreOp → List Change
  | _, [] => []
  | s, op :: ops => op.replicaWrite.changes s ++ replicated (op.replicaWrite.perform s).1 ops

variable {s : MvccStore}

/-- The loop's write leaves the store that the call of the command leaves. -/
theorem StoreOp.replicaWrite_store (op : StoreOp) (s : MvccStore) :
    (op.replicaWrite.perform s).1 = (op.run.run s).2 := by
  cases op with
  | put key value lease =>
    unfold replicaWrite Write.perform StoreOp.run
    dsimp only
    rcases answer : (MvccStore.put key value lease).run s with ⟨_ | _ | _, s'⟩
    · rw [Exec.run_bind_ok answer]
      rfl
    · rw [Exec.run_bind_err answer]
    · rw [Exec.run_bind_panic answer]
  | deleteRange start stop =>
    unfold replicaWrite Write.perform StoreOp.run
    dsimp only
    rcases answer : (MvccStore.deleteRange start stop).run s with ⟨_ | _ | _, s'⟩
    · rw [Exec.run_bind_ok answer]
      rfl
    · rw [Exec.run_bind_err answer]
    · rw [Exec.run_bind_panic answer]

/-- Every command takes one revision, also one that panics. -/
theorem StoreOp.replicaWrite_counter (reached : Reached s) (room : s.currentRevision + 1 < 2 ^ 63)
    (op : StoreOp) : (op.replicaWrite.perform s).1.currentRevision = s.currentRevision + 1 := by
  have sound := Sound.of_reached reached
  cases op with
  | put key value lease =>
    obtain ⟨⟨revision, kv, oldKv⟩, s', returned, counter⟩ := sound.put_returns room key value lease
    simp only [replicaWrite, Write.perform, returned]
    exact counter
  | deleteRange start stop =>
    by_cases accepts : KeyIndex.Accepts s.keyIndex.held start stop
    · obtain ⟨⟨revision, deleted⟩, s', returned, counter⟩ := sound.deleteRange_returns room accepts
      simp only [replicaWrite, Write.perform, returned]
      exact counter
    · simp only [replicaWrite, Write.perform, MvccStore.deleteRange_refused room accepts]

/-- A command's events report the changes it makes. -/
theorem StoreOp.replicaWrite_reports (reached : Reached s) (room : s.currentRevision + 1 < 2 ^ 63)
    (op : StoreOp) :
    (notified (op.replicaWrite.perform s).2).map Event.change = op.replicaWrite.changes s := by
  obtain ⟨_, _, _, reports | ⟨deleted, _, events, changes, lost⟩⟩ :=
    Write.perform_cases reached room op.replicaWrite
  · exact reports.1
  · -- only `KvService` loses its deletions, and the loop makes none of those
    have none : op.replicaWrite.changes s = [] := by
      rw [← lost]
      cases op <;> rfl
    rw [none] at changes ⊢
    rw [events, List.map_eq_nil_iff.mp changes.symm]
    rfl

theorem replicated_append (s : MvccStore) (ops more : List StoreOp) :
    replicated s (ops ++ more) = replicated s ops ++ replicated (afterCommands s ops) more := by
  induction ops generalizing s with
  | nil => rfl
  | cons op ops ih =>
    rw [List.cons_append, replicated, replicated, ih, List.append_assoc]
    rfl

theorem afterCommands_concat (s : MvccStore) (ops : List StoreOp) (op : StoreOp) :
    afterCommands s (ops ++ [op]) = (op.run.run (afterCommands s ops)).2 := by
  rw [afterCommands, List.foldl_append, List.foldl_cons, List.foldl_nil, StoreOp.replicaWrite_store]
  rfl

theorem afterCommands_reached (reached : Reached s) {ops : List StoreOp}
    (room : s.currentRevision + ops.length < 2 ^ 63) :
    Reached (afterCommands s ops) ∧
      (afterCommands s ops).currentRevision = s.currentRevision + ops.length := by
  induction ops generalizing s with
  | nil => exact ⟨reached, (add_zero _).symm⟩
  | cons op ops ih =>
    rw [List.length_cons] at room ⊢
    push_cast at room ⊢
    have space : s.currentRevision + 1 < 2 ^ 63 := by omega
    have counter := op.replicaWrite_counter reached space
    obtain ⟨later, total⟩ := ih (Write.perform_cases reached space op.replicaWrite).1 (by omega)
    exact ⟨later, total.trans (by omega)⟩

/-- **The changes of the commands** have the revisions that the commands take. -/
theorem replicated_between (reached : Reached s) {ops : List StoreOp}
    (room : s.currentRevision + ops.length < 2 ^ 63) :
    ∀ c ∈ replicated s ops, s.currentRevision < c.revision ∧
      c.revision ≤ s.currentRevision + ops.length := by
  induction ops generalizing s with
  | nil => exact fun c member => absurd member List.not_mem_nil
  | cons op ops ih =>
    rw [List.length_cons] at room ⊢
    push_cast at room ⊢
    have space : s.currentRevision + 1 < 2 ^ 63 := by omega
    obtain ⟨next, _, revisions, _⟩ := Write.perform_cases reached space op.replicaWrite
    have counter := op.replicaWrite_counter reached space
    intro c member
    rw [replicated] at member
    rcases List.mem_append.mp member with first | second
    · have revision := revisions c first
      omega
    · have between := ih next (by omega) c second
      omega

/-! ### A store that only the loop writes -/

/-- The write of an action, if it is one. -/
def WatchAction.write? : WatchAction → Option Write
  | .write call => some call
  | .create _ => none
  | .cancel _ => none
  | .receive _ => none

/-- All the writes of the run are those of the commands, in their order. -/
def Replicates (actions : List WatchAction) (ops : List StoreOp) : Prop :=
  actions.filterMap WatchAction.write? = ops.map StoreOp.replicaWrite

theorem Replicates.split {before after : List WatchAction} {ops : List StoreOp}
    (replicates : Replicates (before ++ after) ops) :
    ∃ first second, ops = first ++ second ∧ Replicates before first ∧ Replicates after second := by
  unfold Replicates at replicates
  rw [List.filterMap_append] at replicates
  obtain ⟨first, second, rfl, same, same'⟩ := List.map_eq_append_iff.mp replicates.symm
  exact ⟨first, second, rfl, same.symm, same'.symm⟩

namespace WatchedStore

variable {u t created next : WatchedStore} {actions : List WatchAction} {ops : List StoreOp}

/-- **A run of the loop's writes** reports the changes of the commands, and leaves their store. -/
theorem replicates_run (reached : Reached u.store) (replicates : Replicates actions ops)
    (runs : runFrom step u actions = some t) :
    (emitted u actions).map Event.change = replicated u.store ops ∧
      t.store = afterCommands u.store ops := by
  induction actions generalizing u ops with
  | nil =>
    cases runs
    rw [List.map_eq_nil_iff.mp (show ops.map StoreOp.replicaWrite = [] from replicates.symm)]
    exact ⟨rfl, rfl⟩
  | cons action rest ih =>
    obtain ⟨next, moves, runs⟩ := runFrom_cons runs
    obtain ⟨room, same⟩ := step_eq moves
    obtain ⟨later, _⟩ := action.perform_store reached room
    have split : emitted u (action :: rest) =
        notified (action.perform u.store).2 ++ emitted next rest := collect_cons _ moves rest
    have silent : action.write? = none → notified (action.perform u.store).2 = [] →
        (action.perform u.store).1 = u.store →
        (emitted u (action :: rest)).map Event.change = replicated u.store ops ∧
          t.store = afterCommands u.store ops := by
      intro unwritten quiet kept
      unfold Replicates at replicates
      rw [List.filterMap_cons_none unwritten] at replicates
      rw [split, quiet, List.nil_append]
      have store : next.store = u.store := by rw [same]; exact kept
      rw [← store]
      exact ih (store ▸ reached) replicates runs
    cases action with
    | write call =>
      unfold Replicates at replicates
      rw [List.filterMap_cons_some (show (WatchAction.write call).write? = some call from rfl)]
        at replicates
      obtain ⟨op, others, rfl, rfl, tail⟩ := List.map_eq_cons_iff.mp replicates.symm
      have reached' : Reached next.store := by
        rw [same]
        exact later
      obtain ⟨reports, store⟩ := ih reached' tail.symm (by assumption)
      rw [split, List.map_append, reports, store, same, replicated]
      exact ⟨congrArg (· ++ _) (op.replicaWrite_reports reached room), rfl⟩
    | create request =>
      refine silent rfl ?_ rfl
      show notified (request.register u.store) = []
      rw [WatchCreateRequest.register]
      split_ifs <;> rfl
    | cancel other => exact silent rfl rfl rfl
    | receive other => exact silent rfl rfl rfl

/-- **The stream of a watch on a follower.** A run whose writes are those of the loop, in which a watch is
created from a revision that is still to come, is not canceled, and never fills its channel: the events sent
on its stream are the changes of the commands that it covers. -/
theorem stream_replicated {before after : List WatchAction} {request : WatchCreateRequest}
    (room : (ops.length : Int) + 1 < 2 ^ 63)
    (replicates : Replicates (before ++ .create request :: after) ops) (named : request.key ≠ [])
    (ahead : u.store.currentRevision < request.startRevision)
    (reaches : runFrom step fresh before = some u) (creates : step u (.create request) = some created)
    (continues : runFrom step created after = some t)
    (kept : WatchAction.cancel u.hub.nextWatchId ∉ after)
    (never : NeverFills u.hub.nextWatchId created after) :
    t.store = afterCommands fresh.store ops ∧
      ∃ w, t.hub.watchers u.hub.nextWatchId = some w ∧
        (w.channel.stream.flatMap WatchEvent.events).map Event.change =
          (replicated fresh.store ops).filter request.covers := by
  obtain ⟨first, rest, rfl, earlier, later⟩ := replicates.split
  have later : Replicates after rest := later
  rw [List.length_append] at room
  push_cast at room
  have begins : fresh.store.currentRevision = 1 := rfl
  have new : Reached fresh.store := .fresh
  have space : fresh.store.currentRevision + first.length < 2 ^ 63 := by omega
  obtain ⟨_, store⟩ := replicates_run new earlier reaches
  obtain ⟨reached, counter⟩ := afterCommands_reached new space
  rw [← store] at reached counter
  obtain ⟨same, found⟩ := step_create named (by omega) creates
  obtain ⟨reports, last⟩ := replicates_run (same ▸ reached) later continues
  obtain ⟨w, stays, stream⟩ := stream_run found kept never continues
  -- what was changed before the watch lies below its start
  have none : (replicated fresh.store first).filter request.covers = [] := by
    refine List.filter_eq_nil_iff.mpr fun c member => ?_
    obtain ⟨_, below⟩ := replicated_between new space c member
    unfold WatchCreateRequest.covers
    rw [decide_eq_false (by omega), Bool.and_false]
    exact Bool.false_ne_true
  refine ⟨?_, w, stays, ?_⟩
  · rw [last, same, store, afterCommands, afterCommands, afterCommands, List.foldl_append]
  · have wants : (request.watcher u.hub.nextWatchId).wants = request.covers ∘ Event.change :=
      funext fun event => wants_watcher request u.hub.nextWatchId event
    rw [stream, wants, replicated_append, List.filter_append, none, List.nil_append, ← store, ← same,
      ← reports, List.filter_map]
    rfl

end WatchedStore

/-! ### The followers of a deployment -/

theorem Server.loop_store (entries : List LogEntry) (all : Server.TakesAll entries) :
    (Server.loop entries).store = afterCommands WatchedStore.fresh.store (commands entries) := by
  induction entries using List.reverseRecOn with
  | nil => rfl
  | append_singleton entries entry ih =>
    obtain ⟨before, last⟩ := all.concat
    rw [last, Server.receive_store]
    cases command : entry.command with
    | none =>
      rw [commands_concat_none command]
      exact ih before
    | some op =>
      rw [commands_concat_some command, afterCommands_concat, ← ih before]

namespace Deployment

/-- The run of a node's store and hub, with its watches, has written what its loop has received. -/
def Hosts (s : Deployment) (id : Nat) (actions : List WatchAction) : Prop :=
  Replicates actions (commands ((s.raft id).applyTx.take (s.servers id).received))

/-- **Watches on the followers report one history.** In a run whose cluster steps are safe there is one
sequence of commands, sent by one of the nodes. On every node that has only followed, a watch that was
created from a revision still to come, that is not canceled and whose channel never fills, has been sent
exactly the changes of that sequence which it covers, up to the revision of the node's store. -/
theorem watchers_share_history (config : ClusterConfig) (valid : config.Valid)
    (two : 2 ≤ config.ids.length) (events : List Event) (s : Deployment)
    (runs : run config events = some s) (safe : Along step Safe (start config) events)
    (room : ∀ id ∈ config.ids, ((commands (s.raft id).applyTx).length : Int) + 1 < 2 ^ 63) :
    ∃ first ∈ config.ids, ∀ id ∈ config.ids, Along step (Follows id) (start config) events →
      ∀ (before after : List WatchAction) (request : WatchCreateRequest) (u created t : WatchedStore),
        s.Hosts id (before ++ .create request :: after) → request.key ≠ [] →
        u.store.currentRevision < request.startRevision →
        runFrom WatchedStore.step .fresh before = some u → u.step (.create request) = some created →
        runFrom WatchedStore.step created after = some t →
        WatchAction.cancel u.hub.nextWatchId ∉ after →
        WatchedStore.NeverFills u.hub.nextWatchId created after →
          t.store = (s.servers id).store ∧ ∃ w, t.hub.watchers u.hub.nextWatchId = some w ∧
            (w.channel.stream.flatMap WatchEvent.events).map Event.change =
              (replicated WatchedStore.fresh.store (commands (s.raft first).applyTx)).filter fun c =>
                request.covers c && decide (c.revision ≤ (s.servers id).store.currentRevision) := by
  obtain ⟨first, listed, longest⟩ := run_sends valid two runs safe
  refine ⟨first, listed, fun id member follows before after request u created t hosts named ahead reaches
    creates continues kept never => ?_⟩
  have keeps : ∀ s event next, step s event = some next → Follows id s event → Looped s id →
      Looped next id := fun s event next moves follows looped => looped.step moves follows
  have looped : Looped s id := run_invariant keeps (.start config id) follows runs
  have begins : WatchedStore.fresh.store.currentRevision = 1 := rfl
  have space := room first listed
  obtain ⟨more, whole⟩ : commands ((s.raft id).applyTx.take (s.servers id).received) <+:
      commands (s.raft first).applyTx := ((List.take_prefix _ _).trans (longest id member)).filterMap _
  unfold Hosts at hosts
  generalize received : commands ((s.raft id).applyTx.take (s.servers id).received) = ops at *
  rw [← whole, List.length_append] at space
  push_cast at space
  obtain ⟨store, w, stays, stream⟩ := WatchedStore.stream_replicated (by omega) hosts named ahead reaches
    creates continues kept never
  have same : (s.servers id).store = afterCommands WatchedStore.fresh.store ops := by
    rw [looped.server, Server.loop_store _ looped.takesAll, received]
  have new : Reached WatchedStore.fresh.store := .fresh
  have fits : WatchedStore.fresh.store.currentRevision + ops.length < 2 ^ 63 := by omega
  obtain ⟨reached, counter⟩ := afterCommands_reached new fits
  -- the changes still to be received lie above the revision of the store
  have beyond : ∀ c ∈ replicated (afterCommands WatchedStore.fresh.store ops) more,
      ¬ (request.covers c && decide (c.revision ≤ (s.servers id).store.currentRevision)) = true := by
    intro c later
    obtain ⟨above, _⟩ := replicated_between reached (by omega) c later
    rw [same, decide_eq_false (by omega), Bool.and_false]
    exact Bool.false_ne_true
  have within : ∀ c ∈ replicated WatchedStore.fresh.store ops,
      (request.covers c && decide (c.revision ≤ (s.servers id).store.currentRevision)) =
        request.covers c := by
    intro c earlier
    obtain ⟨_, below⟩ := replicated_between new fits c earlier
    rw [same, decide_eq_true (by omega), Bool.and_true]
  refine ⟨store.trans same.symm, w, stays, ?_⟩
  rw [stream, ← whole, replicated_append, List.filter_append, List.filter_eq_nil_iff.mpr beyond,
    List.append_nil, List.filter_congr within]

/-- A watch of `a` on node 2 from revision 2, created before the `put` arrives there. -/
def watchedPut : List WatchAction := [.create ⟨[97], [], 2, []⟩, .write (.put [97] [120] 0)]

theorem followed_put_watched :
    ∃ s created t w, run Cluster.threeNodes followedPut = some s ∧ s.Hosts 2 watchedPut ∧
      WatchedStore.fresh.step (.create ⟨[97], [], 2, []⟩) = some created ∧
      runFrom WatchedStore.step created [.write (.put [97] [120] 0)] = some t ∧
      t.hub.watchers WatchedStore.fresh.hub.nextWatchId = some w ∧
      ∃ first ∈ [1, 2, 3], (w.channel.stream.flatMap WatchEvent.events).map Event.change =
        (replicated WatchedStore.fresh.store (commands (s.raft first).applyTx)).filter fun c =>
          WatchCreateRequest.covers ⟨[97], [], 2, []⟩ c &&
            decide (c.revision ≤ (s.servers 2).store.currentRevision) := by
  have facts : (run Cluster.threeNodes followedPut).map (fun s => decide
      ((watchedPut.filterMap WatchAction.write? =
          (commands ((s.raft 2).applyTx.take (s.servers 2).received)).map StoreOp.replicaWrite) ∧
        ∀ id ∈ [1, 2, 3], ((commands (s.raft id).applyTx).length : Int) + 1 < 2 ^ 63)) = some true := by
    decide +kernel
  obtain ⟨s, runs, all⟩ := Option.map_eq_some_iff.mp facts
  obtain ⟨hosts, room⟩ := of_decide_eq_true all
  obtain ⟨first, listed, watched⟩ := watchers_share_history Cluster.threeNodes Cluster.threeNodes_valid
    (by decide) followedPut s runs (by decide +kernel) room
  obtain ⟨_, w, stays, stream⟩ := watched 2 (by decide) (by decide +kernel) [] [.write (.put [97] [120] 0)]
    ⟨[97], [], 2, []⟩ .fresh _ _ hosts (by decide) (by decide) rfl rfl rfl (by decide) (by
      intro n v w reaches found
      rcases n with _ | n
      · cases reaches
        cases found
        rfl
      · rw [List.take_succ_cons, List.take_nil] at reaches
        cases reaches
        cases found
        rfl)
  exact ⟨s, _, _, w, runs, hosts, rfl, rfl, stays, first, listed, stream⟩

end Deployment

end Rusd
