/-
**The stores of the followers are one history.**

The apply loop of a node that does not lead writes each committed command to the store of the node. In a
run whose cluster steps are safe, the nodes send one sequence of entries, so that the stores of all the
followers are states of one history: a read at a revision gives the same answer wherever that revision has
been reached.

* `LogEntry.command`, `commands` — the store calls of a sequence of entries; `numbered` gives each its
  revision.
* `Follows` — no request of the node writes its store, and the node does not lead when its loop takes an
  entry.
* `Looped` — the server of such a node is its loop's run over the entries it has received.
* `refines_loop` — the store of that run is the reference map of the numbered commands.
* `followers_share_history` — what all the followers of a run answer.
-/

import Rusd.Raft.Waiters
import Rusd.Raft.CommittedPrefix
import Rusd.Server.ExactlyOnce
import Rusd.Storage.Transfer

namespace Rusd

/-! ### The loop over a sequence of entries -/

/-- The store call of a committed entry. -/
def LogEntry.command (entry : LogEntry) : Option StoreOp :=
  match entry.entryType with
  | .normal => followerCommand entry.data
  | .configChange => none
  | .snapshot => none

def commands (entries : List LogEntry) : List StoreOp := entries.filterMap LogEntry.command

/-- The apply loop of a node that never leads, from its start; a round that panics is its last. -/
def Server.loop (entries : List LogEntry) : Server :=
  entries.foldl (fun server entry => if server.applying then server.receive false entry else server) .new

theorem Server.loop_concat (entries : List LogEntry) (entry : LogEntry) :
    Server.loop (entries ++ [entry]) =
      if (Server.loop entries).applying then (Server.loop entries).receive false entry
      else Server.loop entries := by
  rw [loop, List.foldl_append]
  rfl

theorem Server.receive_received (server : Server) (isLeader : Bool) (entry : LogEntry) :
    (server.receive isLeader entry).received = server.received + 1 := by
  unfold receive
  dsimp only
  repeat' split
  all_goals rfl

/-- The loop writes the command of the entry to the store. -/
theorem Server.receive_store (server : Server) (entry : LogEntry) :
    (server.receive false entry).store =
      match entry.command with
      | none => server.store
      | some op => (op.run.run server.store).2 := by
  unfold receive LogEntry.command
  dsimp only
  cases entry.entryType with
  | configChange => rfl
  | snapshot => rfl
  | normal =>
    dsimp only
    rw [if_neg Bool.false_ne_true]
    cases followerCommand entry.data with
    | none => rfl
    | some op =>
      dsimp only
      split <;> rfl

/-- The loop takes all of the entries: no round before the last panics. -/
def Server.TakesAll (entries : List LogEntry) : Prop := (Server.loop entries).received = entries.length

theorem Server.loop_received_le (entries : List LogEntry) :
    (Server.loop entries).received ≤ entries.length := by
  induction entries using List.reverseRecOn with
  | nil => exact Nat.zero_le _
  | append_singleton entries entry ih =>
    rw [Server.loop_concat, List.length_append, List.length_singleton]
    split_ifs
    · rw [Server.receive_received]
      exact Nat.succ_le_succ ih
    · exact ih.trans (Nat.le_succ _)

/-- The last of the entries finds the loop running. -/
theorem Server.TakesAll.concat {entries : List LogEntry} {entry : LogEntry}
    (all : Server.TakesAll (entries ++ [entry])) :
    Server.TakesAll entries ∧ Server.loop (entries ++ [entry]) = (Server.loop entries).receive false entry := by
  have few := Server.loop_received_le entries
  rw [TakesAll, Server.loop_concat, List.length_append, List.length_singleton] at all
  rw [Server.loop_concat]
  split_ifs at all ⊢ with running
  · rw [Server.receive_received] at all
    exact ⟨Nat.succ.inj all, rfl⟩
  · omega

theorem commands_concat_none {entry : LogEntry} (silent : entry.command = none)
    (entries : List LogEntry) : commands (entries ++ [entry]) = commands entries := by
  rw [commands, List.filterMap_append, List.filterMap_cons_none silent, List.filterMap_nil,
    List.append_nil, commands]

theorem commands_concat_some {entry : LogEntry} {op : StoreOp} (command : entry.command = some op)
    (entries : List LogEntry) : commands (entries ++ [entry]) = commands entries ++ [op] := by
  rw [commands, List.filterMap_append, List.filterMap_cons_some command, List.filterMap_nil, commands]

/-- More calls have later revisions. -/
theorem numbered_append (ops more : List StoreOp) :
    ∃ later, numbered (ops ++ more) = numbered ops ++ later ∧
      ∀ call ∈ later, (ops.length + 1 : Int) < call.1 := by
  refine ⟨_, by rw [numbered, List.zipIdx_append, List.map_append, numbered], fun call member => ?_⟩
  obtain ⟨⟨op, i⟩, listed, rfl⟩ := List.mem_map.mp member
  have above := List.le_snd_of_mem_zipIdx listed
  dsimp only at above ⊢
  omega

/-- **The loop's store is the history of the commands.** -/
theorem refines_loop (entries : List LogEntry) (all : Server.TakesAll entries)
    (short : ∀ op ∈ commands entries, StoreHistory.Short op)
    (room : ((commands entries).length : Int) + 1 < 2 ^ 63) :
    Refines (numbered (commands entries)) (Server.loop entries).store ∧
      (Server.loop entries).store.currentRevision = (commands entries).length + 1 := by
  induction entries using List.reverseRecOn with
  | nil => exact ⟨Refines.fresh, rfl⟩
  | append_singleton entries entry ih =>
    obtain ⟨before, last⟩ := all.concat
    rw [last, Server.receive_store]
    cases command : entry.command with
    | none =>
      rw [commands_concat_none command] at short room ⊢
      exact ih before short room
    | some op =>
      rw [commands_concat_some command] at short room ⊢
      rw [List.length_append, List.length_singleton] at room ⊢
      push_cast at room ⊢
      obtain ⟨ref, counter⟩ :=
        ih before (fun other member => short other (List.mem_append_left _ member)) (by omega)
      have space : (Server.loop entries).store.currentRevision + 1 < 2 ^ 63 := by omega
      have next : ((commands entries).length : Int) + 2 =
          (Server.loop entries).store.currentRevision + 1 := by omega
      rw [numbered_concat, next]
      have fits := short op (List.mem_append_right _ (List.mem_singleton_self op))
      by_cases admissible : op.Admissible
      · obtain ⟨after, returned, revision, ref'⟩ := ref.run_room admissible space
        rw [returned]
        exact ⟨ref', revision.trans (by omega)⟩
      · -- only an inverted interval is left, whose deletion takes a revision and removes nothing
        cases op with
        | put key value lease =>
          obtain ⟨record, inside⟩ := fits
          exact absurd ⟨by omega, by omega, inside⟩ admissible
        | deleteRange start stop =>
          rw [StoreOp.state_deleteRange, MvccStore.deleteRange_inverted space admissible]
          exact ⟨ref.inverted space admissible, by simp only; omega⟩

/-! ### A node that follows -/

namespace Deployment

variable {s next : Deployment} {id : Nat}

/-- The steps of the cluster are safe; a proposal always is. -/
def Safe (s : Deployment) : Event → Prop
  | .raft action => s.cluster.Safe action
  | _ => True

/-- No request of the node writes its store, nor another service, and the node does not lead when its loop
takes an entry. -/
def Follows (id : Nat) (s : Deployment) : Event → Prop
  | .finish r => ∀ request ∈ s.requests[r]?, request.node ≠ id
  | .receive node => node = id → (s.raft id).state.isLeader = false
  | .write node _ => node ≠ id
  | _ => True

/-- **The server is its loop's run** over the entries it has received. -/
structure Looped (s : Deployment) (id : Nat) : Prop where
  taken : (s.servers id).received ≤ (s.raft id).applyTx.length
  server : s.servers id = Server.loop ((s.raft id).applyTx.take (s.servers id).received)

theorem Looped.start (config : ClusterConfig) (id : Nat) : Looped (start config) id := ⟨Nat.zero_le _, rfl⟩

/-- The channel may have been extended. -/
theorem Looped.keep (looped : Looped s id) (same : next.servers id = s.servers id)
    (sends : ∃ more, (next.raft id).applyTx = (s.raft id).applyTx ++ more) : Looped next id := by
  obtain ⟨more, extended⟩ := sends
  refine ⟨?_, ?_⟩
  · rw [same, extended, List.length_append]
    exact looped.taken.trans (Nat.le_add_right _ _)
  · rw [same, extended, List.take_append_of_le_length looped.taken]
    exact looped.server

theorem Looped.receive (looped : Looped s id) {entry : LogEntry}
    (arrives : (s.raft id).applyTx[(s.servers id).received]? = some entry)
    (running : (s.servers id).applying = true) :
    Looped (s.setServer id ((s.servers id).receive false entry)) id := by
  have self : (s.setServer id ((s.servers id).receive false entry)).servers id =
      (s.servers id).receive false entry := Function.update_self ..
  obtain ⟨inside, is⟩ := List.getElem?_eq_some_iff.mp arrives
  refine ⟨?_, ?_⟩
  · rw [self, Server.receive_received]
    exact inside
  · rw [self, Server.receive_received]
    show _ = Server.loop ((s.raft id).applyTx.take _)
    rw [List.take_succ_eq_append_getElem inside, is, Server.loop_concat, ← looped.server, if_pos running]

/-- The loop has taken all that it has received. -/
theorem Looped.takesAll (looped : Looped s id) :
    Server.TakesAll ((s.raft id).applyTx.take (s.servers id).received) := by
  rw [Server.TakesAll, ← looped.server, List.length_take_of_le looped.taken]

theorem Looped.step (looped : Looped s id) {event : Event} (moves : s.step event = some next)
    (follows : s.Follows id event) : Looped next id := by
  have unsent : ∀ {t : Deployment}, t.cluster = s.cluster →
      ∃ more, (t.raft id).applyTx = (s.raft id).applyTx ++ more := fun {t} same =>
    ⟨[], by rw [List.append_nil, raft, raft, same]⟩
  cases step_moves moves with
  | raft steps => exact looped.keep rfl (Cluster.step_node steps id).sends
  | call data op => exact looped.keep rfl (unsent rfl)
  | refuse found phase => exact looped.keep rfl (unsent rfl)
  | propose found phase steps => exact looped.keep rfl (Cluster.step_node steps id).sends
  | below found phase => exact looped.keep rfl (unsent rfl)
  | reached found phase reached => exact looped.keep rfl (unsent rfl)
  | @register r request entry found phase =>
    refine looped.keep rfl ⟨[], ?_⟩
    rw [List.append_nil]
    exact (s.withWaiter_raft request.node entry.index r id).1.2.2
  | wake found phase woken => exact looped.keep rfl (unsent rfl)
  | timeout found phase => exact looped.keep rfl (unsent rfl)
  | @finish r request entry found phase =>
    have elsewhere : id ≠ request.node := fun same => follows request found same.symm
    unfold finish
    dsimp only
    split
    all_goals exact looped.keep (Function.update_of_ne elsewhere ..) (unsent rfl)
  | @receive node entry arrives running =>
    by_cases here : node = id
    · subst here
      rw [follows rfl]
      exact looped.receive arrives running
    · exact looped.keep (Function.update_of_ne (Ne.symm here) ..) (unsent rfl)
  | write => exact looped.keep (Function.update_of_ne (Ne.symm follows) ..) (unsent rfl)

instance (s : Deployment) : ∀ event, Decidable (s.Safe event)
  | .raft action => inferInstanceAs (Decidable (s.cluster.Safe action))
  | .call _ _ => .isTrue trivial
  | .propose _ => .isTrue trivial
  | .check _ => .isTrue trivial
  | .register _ => .isTrue trivial
  | .wake _ => .isTrue trivial
  | .timeout _ => .isTrue trivial
  | .finish _ => .isTrue trivial
  | .receive _ => .isTrue trivial
  | .write _ _ => .isTrue trivial

instance (id : Nat) (s : Deployment) : ∀ event, Decidable (s.Follows id event)
  | .finish r => inferInstanceAs (Decidable (∀ request ∈ s.requests[r]?, request.node ≠ id))
  | .receive node => inferInstanceAs (Decidable (node = id → (s.raft id).state.isLeader = false))
  | .write node _ => inferInstanceAs (Decidable (node ≠ id))
  | .raft _ => .isTrue trivial
  | .call _ _ => .isTrue trivial
  | .propose _ => .isTrue trivial
  | .check _ => .isTrue trivial
  | .register _ => .isTrue trivial
  | .wake _ => .isTrue trivial
  | .timeout _ => .isTrue trivial

/-! ### The cluster of a deployment -/

/-- Each event is a run of the cluster without its waiters. -/
theorem step_simulates {event : Event} (moves : s.step event = some next) (safe : s.Safe event) :
    ∃ actions, runFrom Cluster.step s.cluster.unwaited actions = some next.cluster.unwaited ∧
      Along Cluster.step Cluster.Safe s.cluster.unwaited actions := by
  have same : ∀ {t : Deployment}, t.cluster.unwaited = s.cluster.unwaited →
      ∃ actions, runFrom Cluster.step s.cluster.unwaited actions = some t.cluster.unwaited ∧
        Along Cluster.step Cluster.Safe s.cluster.unwaited actions := fun {t} quiet =>
    ⟨[], congrArg some quiet.symm, trivial⟩
  have one : ∀ {action : Cluster.Action} {cluster : Cluster}, s.cluster.step action = some cluster →
      s.cluster.Safe action → ∃ actions,
        runFrom Cluster.step s.cluster.unwaited actions = some cluster.unwaited ∧
        Along Cluster.step Cluster.Safe s.cluster.unwaited actions := fun {action _} steps safe => by
    have moves := s.cluster.step_unwaited steps
    refine ⟨[action], runFrom_step moves rfl, (s.cluster.safe_unwaited action).mpr safe, ?_⟩
    rw [moves]
    trivial
  cases step_moves moves with
  | raft steps => exact one steps safe
  | call data op => exact same rfl
  | refuse found phase => exact same rfl
  | propose found phase steps => exact one steps ⟨trivial, trivial⟩
  | below found phase => exact same rfl
  | reached found phase reached => exact same rfl
  | @register r request entry found phase =>
    refine same ?_
    show (s.cluster.setRaft request.node _).unwaited = _
    rw [Cluster.unwaited_setRaft]
    exact congrArg (fun members => { s.cluster.unwaited with members := members })
      (Function.update_eq_self ..)
  | wake found phase woken => exact same rfl
  | timeout found phase => exact same rfl
  | @finish r request entry found phase =>
    unfold finish
    dsimp only
    split
    all_goals exact same rfl
  | receive arrives running => exact same rfl
  | write => exact same rfl

variable {config : ClusterConfig} {events : List Event}

/-- A run of the deployment is a run of the cluster without its waiters. -/
theorem run_cluster (runs : run config events = some s)
    (safe : Along step Safe (start config) events) :
    ∃ actions, Cluster.run config actions = some s.cluster.unwaited ∧
      Along Cluster.step Cluster.Safe (Cluster.start config) actions :=
  run_simulates (fun s : Deployment => s.cluster.unwaited)
    (fun _ _ _ moves safe => step_simulates moves safe) safe runs

/-- What the nodes have sent are prefixes of what one of them has sent. -/
theorem run_sends (valid : config.Valid) (two : 2 ≤ config.ids.length)
    (runs : run config events = some s) (safe : Along step Safe (start config) events) :
    ∃ first ∈ config.ids, ∀ id ∈ config.ids, (s.raft id).applyTx <+: (s.raft first).applyTx := by
  obtain ⟨actions, reaches, conforms⟩ := run_cluster runs safe
  obtain ⟨⟨history, inv⟩, applies⟩ := Cluster.run_replication valid two reaches conforms
  have nonempty : config.ids.toFinset.Nonempty := by
    obtain ⟨first, listed⟩ := List.exists_mem_of_length_pos (by omega : 0 < config.ids.length)
    exact ⟨first, List.mem_toFinset.mpr listed⟩
  obtain ⟨first, listed, longest⟩ :=
    config.ids.toFinset.exists_max_image (fun id => (s.raft id).applyTx.length) nonempty
  rw [List.mem_toFinset] at listed
  refine ⟨first, listed, fun id member => ?_⟩
  have members : ∀ {i}, i ∈ config.ids → i ∈ s.cluster.unwaited.ids := fun {i} inside =>
    inv.election.ids ▸ inside
  rcases inv.applied_comparable applies (members member) (members listed) with below | above
  · exact below
  · have short := longest id (List.mem_toFinset.mpr member)
    exact (List.IsPrefix.eq_of_length_le above short).symm ▸ List.prefix_rfl

/-! ### Over a whole run -/

/-- **The followers share one history.** In a run whose cluster steps are safe there is one sequence of
entries, sent by one of the nodes, such that every node that has only followed answers a read at a revision
it has reached with the map after the commands of that sequence up to the revision. -/
theorem followers_share_history (config : ClusterConfig) (valid : config.Valid)
    (two : 2 ≤ config.ids.length) (events : List Event) (s : Deployment)
    (runs : run config events = some s) (safe : Along step Safe (start config) events)
    (short : ∀ id ∈ config.ids, ∀ op ∈ commands (s.raft id).applyTx, StoreHistory.Short op)
    (room : ∀ id ∈ config.ids, ((commands (s.raft id).applyTx).length : Int) + 1 < 2 ^ 63) :
    ∃ first ∈ config.ids, ∀ id ∈ config.ids, Along step (Follows id) (start config) events →
      ∀ start stop, KeyIndex.ValidRange start stop →
        ∀ r, 0 < r → r ≤ (s.servers id).store.currentRevision →
          (s.servers id).store.range start stop r 0 false =
            .ok (rangeOf (referenceAt (numbered (commands (s.raft first).applyTx)) r) start stop) := by
  obtain ⟨first, listed, longest⟩ := run_sends valid two runs safe
  refine ⟨first, listed, fun id member follows start stop inOrder r positive reached => ?_⟩
  have keeps : ∀ s event next, step s event = some next → Follows id s event → Looped s id →
      Looped next id := fun s event next moves follows looped => looped.step moves follows
  have looped : Looped s id := run_invariant keeps (.start config id) follows runs
  -- the commands received are the first ones of those sent
  obtain ⟨more, whole⟩ : commands ((s.raft id).applyTx.take (s.servers id).received) <+:
      commands (s.raft first).applyTx := ((List.take_prefix _ _).trans (longest id member)).filterMap _
  obtain ⟨others, part⟩ : commands ((s.raft id).applyTx.take (s.servers id).received) <+:
      commands (s.raft id).applyTx := (List.take_prefix _ _).filterMap _
  obtain ⟨ref, counter⟩ := refines_loop ((s.raft id).applyTx.take (s.servers id).received) looped.takesAll
    (fun op taken => short id member op (part ▸ List.mem_append_left _ taken))
    (by
      have lengths := congrArg List.length part
      have space := room id member
      rw [List.length_append] at lengths
      omega)
  rw [← looped.server] at ref counter
  obtain ⟨later, appended, above⟩ :=
    numbered_append (commands ((s.raft id).applyTx.take (s.servers id).received)) more
  rw [ref.range_eq_reference (.of_valid inOrder), if_neg (by omega), ← whole, appended,
    referenceAt_append fun call beyond => ?_]
  have behind := above call beyond
  omega

/-- Node 2 learns of the commit, and its loop takes the `put` of `x`. -/
def followedPut : List Event :=
  replicatedPut.append [.finish 0, .raft (.heartbeat 1), .raft (.deliverAppend ⟨1, 2, 2⟩), .raft (.apply 2),
    .receive 2]

theorem followed_put_read :
    ∃ s, run Cluster.threeNodes followedPut = some s ∧ (s.servers 2).store.currentRevision = 2 ∧
      ∃ first ∈ [1, 2, 3], (s.servers 2).store.range [97] [] 2 0 false =
        .ok (rangeOf (referenceAt (numbered (commands (s.raft first).applyTx)) 2) [97] []) := by
  have facts : (run Cluster.threeNodes followedPut).map (fun s => decide
      ((s.servers 2).store.currentRevision = 2 ∧
        (∀ id ∈ [1, 2, 3], ∀ op ∈ commands (s.raft id).applyTx, StoreHistory.Short op) ∧
        ∀ id ∈ [1, 2, 3], ((commands (s.raft id).applyTx).length : Int) + 1 < 2 ^ 63)) = some true := by
    decide +kernel
  obtain ⟨s, runs, all⟩ := Option.map_eq_some_iff.mp facts
  obtain ⟨revision, short, room⟩ := of_decide_eq_true all
  obtain ⟨first, listed, reads⟩ := followers_share_history Cluster.threeNodes Cluster.threeNodes_valid
    (by decide) followedPut s runs (by decide +kernel) short room
  exact ⟨s, runs, revision, first, listed, reads 2 (by decide) (by decide +kernel) [97] [] (Or.inl rfl) 2
    (by decide) revision.ge⟩

end Deployment

end Rusd
