/-
**Nothing is applied that no client asked for.**

Entries reach a store through the logs of several nodes, their append requests and their apply channels.
In every run, whatever is lost, doubled, taken back or overwritten on the way, what arrives was proposed
first, and a `PUT` or a `DELETE` only by the handler of a client's write.

* `Cluster.Carries` — a property of all entries in logs, in requests under way and on apply channels; a step
  of the cluster keeps it if the entry of a proposal has it.
* `Deployment.Requested` — the entry was proposed by a handler.
* `Asked` — the invariant.
* `applied_was_requested` — over every run.
-/

import Rusd.Server.ExactlyOnce

namespace Rusd

open RaftLog

namespace Cluster

/-! ### What the entries of a cluster have in common -/

/-- Every entry in a log, in an append request and on an apply channel has the property. -/
structure Carries (s : Cluster) (property : LogEntry → Prop) : Prop where
  logs : ∀ id, ∀ entry ∈ (s.raft id).entries, property entry
  requests : ∀ id call, s.appendCalls id = some call → ∀ entry ∈ call.request.entries, property entry
  sent : ∀ id, ∀ entry ∈ (s.raft id).applyTx, property entry

namespace Carries

variable {s next : Cluster} {property other : LogEntry → Prop}

theorem start (config : ClusterConfig) : Carries (Cluster.start config) property := by
  refine ⟨fun id entry member => ?_, (fun id call found => by cases found), fun id entry member => ?_⟩
  · rw [RaftNode.entries, show ((Cluster.start config).raft id).log = RaftLog.new from rfl,
      Holds.new.toList_eq] at member
    cases member
  · have empty : ((Cluster.start config).raft id).applyTx = [] := rfl
    rw [empty] at member
    cases member

theorem mono (carries : Carries s property) (weaken : ∀ entry, property entry → other entry) :
    Carries s other where
  logs id entry member := weaken entry (carries.logs id entry member)
  requests id call found entry member := weaken entry (carries.requests id call found entry member)
  sent id entry member := weaken entry (carries.sent id entry member)

/-- The entries of an append request are entries of the log. -/
theorem mem_of_appendRequest {node : RaftNode} (holds : node.log.Holds node.entries) {peer : Nat}
    {request : AppendEntriesRequest} (built : node.appendRequest peer = some request) {entry : LogEntry}
    (member : entry ∈ request.entries) : entry ∈ node.entries := by
  rw [RaftNode.appendRequest, holds.noSnapshot] at built
  simp only [Option.isSome_none, Bool.false_eq_true, and_false, if_false, Option.some.injEq] at built
  rw [holds.getRange_eq] at built
  subst built
  exact List.mem_of_mem_drop (List.mem_of_mem_take member)

/-- What is sent for the apply loop comes from the log. -/
theorem mem_of_committed {node : RaftNode} (holds : node.log.Holds node.entries) {entry : LogEntry}
    (member : entry ∈ node.committedEntries) : entry ∈ node.entries := by
  obtain ⟨index, inside, found⟩ := List.mem_filterMap.mp member
  have positive : 0 < index := by
    have := List.mem_range'_1.mp inside
    omega
  rw [holds.get_eq positive] at found
  exact List.mem_of_getElem? found

/-- **A step keeps the property**, if the entry that it proposes has it. -/
theorem step (carries : Carries s property) (logs : LogsHold s) {action : Action}
    (moves : s.step action = some next)
    (proposed : ∀ id entryType data, action = .propose id entryType data →
      property ⟨(s.raft id).log.lastIndex + 1, (s.raft id).state.currentTerm, data, entryType⟩) :
    Carries next property := by
  have after := logs.step moves
  have kept : ∀ id, (∀ entry ∈ (next.raft id).entries, property entry) ∧
      ∀ entry ∈ (next.raft id).applyTx, property entry := by
    intro id
    have entries := carries.logs id
    have sent := carries.sent id
    have holds := logs.holds id
    have stepped := step_node moves id
    generalize next.raft id = new at stepped ⊢
    cases stepped with
    | unmoved unmoved =>
      rw [RaftNode.entries, unmoved.log, unmoved.applyTx]
      exact ⟨entries, sent⟩
    | @accept call' call peer found accepts =>
      have whole := (accepts.holds_after holds (logs.appends _ _ found)).toList_eq
      rw [RaftNode.entries, whole, (RaftNode.handleAppendEntries_beside accepts).2.2.2]
      refine ⟨fun entry member => ?_, sent⟩
      split at member
      · exact entries entry member
      · rcases List.mem_append.mp member with old | new
        · exact entries entry (List.mem_of_mem_take old)
        · exact carries.requests call' call found entry new
    | reply owner found received =>
      obtain ⟨-, log, channel, -⟩ := RaftNode.handleAppendReply_beside (s.raft id) _ _ _
      rw [RaftNode.entries, log, channel]
      exact ⟨entries, sent⟩
    | @propose entryType data leads =>
      rw [RaftNode.entries, (RaftNode.propose_holds holds).toList_eq]
      refine ⟨fun entry member => ?_, sent⟩
      rcases List.mem_append.mp member with old | new
      · exact entries entry old
      · rw [List.mem_singleton.mp new]
        exact proposed id entryType data rfl
    | apply =>
      refine ⟨entries, fun entry member => ?_⟩
      rcases List.mem_append.mp member with old | new
      · exact sent entry old
      · exact entries entry (mem_of_committed holds new)
  refine ⟨fun id => (kept id).1, fun id call' found' => ?_, fun id => (kept id).2⟩
  rcases step_sends moves id call' found' with ⟨call, found, same⟩ | built
  · rw [same]
    exact carries.requests id call found
  · exact fun entry member => (kept id.owner).1 entry (mem_of_appendRequest (after.holds id.owner) built member)

/-- Logs, requests and channels as before. -/
theorem of_same (carries : Carries s property) (logs : ∀ id, (next.raft id).log = (s.raft id).log)
    (calls : next.appendCalls = s.appendCalls) (sent : ∀ id, (next.raft id).applyTx = (s.raft id).applyTx) :
    Carries next property := by
  refine ⟨fun id => ?_, fun id call found => carries.requests id call (calls ▸ found), fun id => ?_⟩
  · rw [RaftNode.entries, logs id]
    exact carries.logs id
  · rw [sent id]
    exact carries.sent id

end Carries

end Cluster

/-! ### Who proposed an entry -/

namespace Deployment

variable {s next : Deployment} {events : List Event} {entry : LogEntry}

/-- A handler of a client's write proposed the entry. -/
def Requested (s : Deployment) (entry : LogEntry) : Prop :=
  ∃ request ∈ s.requests, request.phase.entry = some entry ∧ request.data = entry.data

/-- The request stems from a call among the events, as the handler planned it on the store of its node. -/
def Planned (events : List Event) (request : Request) : Prop :=
  ∃ write store, Event.call request.node write ∈ events ∧
    WriteRequest.plan store write = some (request.data, request.op)

/-- **The invariant.** -/
structure Asked (events : List Event) (s : Deployment) : Prop where
  logs : s.cluster.LogsHold
  carries : s.cluster.Carries fun entry => entry.Mutates → s.Requested entry
  applied : ∀ id, ∀ entry ∈ (s.servers id).applications, s.Requested entry
  planned : ∀ request ∈ s.requests, Planned events request
  own : ∀ request ∈ s.requests, ∀ entry, request.phase.entry = some entry → request.data = entry.data

/-- A handler goes on, with the entry it has, if it has one. -/
theorem Requested.setPhase (requested : s.Requested entry) {r : Nat} {request : Request} {phase : HandlerPhase}
    (found : s.requests[r]? = some request)
    (same : request.phase.entry = none ∨ phase.entry = request.phase.entry) :
    (s.setPhase r request phase).Requested entry := by
  obtain ⟨other, member, proposed, data⟩ := requested
  obtain ⟨i, there⟩ := List.getElem?_of_mem member
  by_cases here : i = r
  · subst here
    rw [found] at there
    cases there
    have kept : phase.entry = some entry := by
      rcases same with none | same
      · rw [none] at proposed
        cases proposed
      · exact same.trans proposed
    have self : (s.setPhase i request phase).requests[i]? = some { request with phase := phase } :=
      List.getElem?_set_self (List.getElem?_eq_some_iff.mp found).1
    exact ⟨_, List.mem_of_getElem? self, kept, data⟩
  · have elsewhere : (s.setPhase r request phase).requests[i]? = some other :=
      (List.getElem?_set_ne (Ne.symm here)).trans there
    exact ⟨other, List.mem_of_getElem? elsewhere, proposed, data⟩

namespace Asked

/-- The requests are those before, one of them in another phase. -/
theorem mem_setPhase {r : Nat} {request other : Request} {phase : HandlerPhase}
    (member : other ∈ (s.setPhase r request phase).requests) :
    other ∈ s.requests ∨ other = { request with phase := phase } :=
  (List.mem_or_eq_of_mem_set member)

theorem setPhase (asked : Asked events s) {r : Nat} {request : Request} {phase : HandlerPhase}
    (found : s.requests[r]? = some request)
    (same : request.phase.entry = none ∨ phase.entry = request.phase.entry)
    (own : ∀ entry, phase.entry = some entry → request.data = entry.data) :
    Asked events (s.setPhase r request phase) := by
  have before := List.mem_of_getElem? found
  refine ⟨asked.logs, asked.carries.mono fun entry requested mutates => (requested mutates).setPhase found same,
    fun id entry member => (asked.applied id entry member).setPhase found same, fun other member => ?_,
    fun other member entry proposed => ?_⟩
  · rcases mem_setPhase member with old | rfl
    · exact asked.planned other old
    · exact asked.planned request before
  · rcases mem_setPhase member with old | rfl
    · exact asked.own other old entry proposed
    · exact own entry proposed

/-- A handler that keeps its entry. -/
theorem goesOn (asked : Asked events s) {r : Nat} {request : Request} {phase : HandlerPhase}
    (found : s.requests[r]? = some request) (same : phase.entry = request.phase.entry) :
    Asked events (s.setPhase r request phase) :=
  asked.setPhase found (.inr same) fun entry proposed =>
    asked.own request (List.mem_of_getElem? found) entry (same ▸ proposed)

/-- Another server at one node. -/
theorem setServer (asked : Asked events s) (id : Nat) {server : Server}
    (applied : ∀ entry ∈ server.applications, entry ∈ (s.servers id).applications ∨ s.Requested entry) :
    Asked events (s.setServer id server) := by
  refine ⟨asked.logs, asked.carries, fun other entry member => ?_, asked.planned, asked.own⟩
  by_cases here : other = id
  · subst here
    have self : (s.setServer other server).servers other = server := Function.update_self ..
    rw [self] at member
    rcases applied entry member with old | requested
    · exact asked.applied other entry old
    · exact requested
  · have others : (s.setServer id server).servers other = s.servers other := Function.update_of_ne here ..
    rw [others] at member
    exact asked.applied other entry member

/-- A handler makes its store call. -/
theorem finish (asked : Asked events s) {r : Nat} {request : Request} (found : s.requests[r]? = some request)
    (phase : request.phase = .ready entry) : Asked events (s.finish r request entry) := by
  have has : request.phase.entry = some entry := by
    rw [phase]
    rfl
  have member := List.mem_of_getElem? found
  have failed : Asked events (s.setPhase r request (.failed entry)) := asked.goesOn found has.symm
  unfold Deployment.finish
  dsimp only
  split
  · have returned : Asked events (s.setPhase r request (.returned entry)) := asked.goesOn found has.symm
    refine returned.setServer request.node fun other applied => ?_
    rcases List.mem_append.mp applied with old | new
    · exact .inl old
    · rw [List.mem_singleton.mp new]
      exact .inr (Requested.setPhase ⟨request, member, has, asked.own request member entry has⟩ found
        (.inr has.symm))
  · exact failed.setServer request.node fun _ => .inl
  · exact failed.setServer request.node fun _ => .inl

/-- The loop applies an entry that it was sent. -/
theorem receive (asked : Asked events s) {id : Nat}
    (arrives : (s.raft id).applyTx[(s.servers id).received]? = some entry) :
    Asked events (s.setServer id ((s.servers id).receive (s.raft id).state.isLeader entry)) := by
  refine asked.setServer id fun other applied => ?_
  have requested := asked.carries.sent id entry (List.mem_of_getElem? arrives)
  unfold Server.receive at applied
  dsimp only at applied
  cases kind : entry.entryType with
  | configChange =>
    rw [kind] at applied
    exact .inl applied
  | snapshot =>
    rw [kind] at applied
    exact .inl applied
  | normal =>
    simp only [kind] at applied
    split at applied
    · exact .inl applied
    · cases command : followerCommand entry.data with
      | none =>
        rw [command] at applied
        exact .inl applied
      | some op =>
        simp only [command] at applied
        have mutates : entry.Mutates := ⟨kind, by rw [command]; rfl⟩
        split at applied
        · rcases List.mem_append.mp applied with old | new
          · exact .inl old
          · rw [List.mem_singleton.mp new]
            exact .inr (requested mutates)
        · exact .inl applied
        · exact .inl applied

/-- A handler starts, for one of the events. -/
theorem call (asked : Asked events s) {id : Nat} {write : WriteRequest} (listed : Event.call id write ∈ events)
    {data : Bytes} {op : StoreOp} (plan : write.plan (s.servers id).store = some (data, op)) :
    Asked events { s with requests := s.requests ++ [⟨id, data, op, .planned⟩] } := by
  have more : ∀ {entry}, s.Requested entry →
      Requested { s with requests := s.requests ++ [⟨id, data, op, .planned⟩] } entry := by
    rintro entry ⟨request, member, proposed⟩
    exact ⟨request, List.mem_append_left _ member, proposed⟩
  refine ⟨asked.logs, asked.carries.mono fun entry requested mutates => more (requested mutates),
    fun id entry member => more (asked.applied id entry member), fun request member => ?_,
    fun request member entry proposed => ?_⟩
  · rcases List.mem_append.mp member with old | new
    · exact asked.planned request old
    · rw [List.mem_singleton.mp new]
      exact ⟨write, _, listed, plan⟩
  · rcases List.mem_append.mp member with old | new
    · exact asked.own request old entry proposed
    · rw [List.mem_singleton.mp new] at proposed
      cases proposed

/-- A handler proposes. -/
theorem propose (asked : Asked events s) {r : Nat} {request : Request} {cluster : Cluster}
    (found : s.requests[r]? = some request) (phase : request.phase = .planned)
    (steps : s.cluster.step (.propose request.node .normal request.data) = some cluster) :
    Asked events { s.setPhase r request (.proposed (nextEntry (s.raft request.node) request.data)) with
      cluster := cluster } := by
  have unproposed : request.phase.entry = none := by
    rw [phase]
    rfl
  have goes : Asked events
      (s.setPhase r request (.proposed (nextEntry (s.raft request.node) request.data))) :=
    asked.setPhase found (.inl unproposed) fun entry proposed => by
      cases proposed
      rfl
  have self : { request with phase := .proposed (nextEntry (s.raft request.node) request.data) } ∈
      (s.setPhase r request (.proposed (nextEntry (s.raft request.node) request.data))).requests :=
    List.mem_of_getElem? (List.getElem?_set_self (List.getElem?_eq_some_iff.mp found).1)
  refine ⟨asked.logs.step steps, goes.carries.step asked.logs steps ?_, goes.applied, goes.planned, goes.own⟩
  rintro id entryType data is -
  cases is
  exact ⟨_, self, rfl, rfl⟩

/-- A step of the cluster without a proposal of a `PUT` or a `DELETE`. -/
theorem raft (asked : Asked events s) {action : Cluster.Action} {cluster : Cluster}
    (isForeign : foreign action = true) (steps : s.cluster.step action = some cluster) :
    Asked events { s with cluster := cluster } := by
  refine ⟨asked.logs.step steps, asked.carries.step asked.logs steps ?_, asked.applied, asked.planned,
    asked.own⟩
  rintro id entryType data rfl ⟨kind, command⟩
  rcases of_decide_eq_true isForeign with other | silent
  · exact absurd kind other
  · rw [silent] at command
    cases command

/-- **Every event keeps the invariant.** -/
theorem step (asked : Asked events s) {event : Event} (moves : s.step event = some next)
    (listed : event ∈ events) : Asked events next := by
  have again := moves
  cases step_moves moves with
  | raft steps =>
    rw [Deployment.step] at again
    split at again
    case isTrue isForeign => exact asked.raft isForeign steps
    case isFalse => cases again
  | @call id write data op =>
    rw [Deployment.step] at again
    split at again
    case isFalse => cases again
    case isTrue =>
      obtain ⟨⟨data', op'⟩, plan, same⟩ := Option.map_eq_some_iff.mp again
      have requests := congrArg Deployment.requests same
      have last := (List.append_inj_right' requests rfl)
      cases last
      exact asked.call listed plan
  | refuse found phase => exact asked.goesOn found (by rw [phase]; rfl)
  | propose found phase steps => exact asked.propose found phase steps
  | below found phase => exact asked.goesOn found (by rw [phase]; rfl)
  | reached found phase reached => exact asked.goesOn found (by rw [phase]; rfl)
  | @register r request entry found phase =>
    have goes : Asked events (s.setPhase r request (.waiting entry)) :=
      asked.goesOn found (by rw [phase]; rfl)
    have nodes := fun id => (s.withWaiter_raft request.node entry.index r id).1
    exact ⟨goes.logs.of_same (fun id => (nodes id).1) rfl,
      goes.carries.of_same (fun id => (nodes id).1) rfl fun id => (nodes id).2.2,
      goes.applied, goes.planned, goes.own⟩
  | wake found phase woken => exact asked.goesOn found (by rw [phase]; rfl)
  | timeout found phase => exact asked.goesOn found (by rw [phase]; rfl)
  | finish found phase => exact asked.finish found phase
  | receive arrives running => exact asked.receive arrives
  | write => exact asked.setServer _ fun _ => .inl

theorem start (config : ClusterConfig) : Asked events (start config) where
  logs := .start config
  carries := .start config
  applied _ _ member := by cases member
  planned _ member := by cases member
  own _ member := by cases member

end Asked

/-! ### Over a whole run -/

/-- A client's call among the events, whose handler proposed the entry. -/
def FromClient (events : List Event) (s : Deployment) (entry : LogEntry) : Prop :=
  ∃ request ∈ s.requests, request.phase.entry = some entry ∧
    ∃ write store, Event.call request.node write ∈ events ∧
      WriteRequest.plan store write = some (entry.data, request.op)

/-- **Nothing is applied that no client asked for.** In every run: each `PUT` or `DELETE` in a log or on an
apply channel, and each entry that a handler or an apply loop has applied to a store, was proposed by the
handler of a client's call of the run, with the data that this handler planned. -/
theorem applied_was_requested (config : ClusterConfig) (events : List Event) (s : Deployment)
    (runs : run config events = some s) (id : Nat) (entry : LogEntry) :
    (entry ∈ (s.raft id).entries ++ (s.raft id).applyTx → entry.Mutates → s.FromClient events entry) ∧
      (entry ∈ (s.servers id).applications → s.FromClient events entry) := by
  have keeps : ∀ s event next, step s event = some next → event ∈ events → Asked events s →
      Asked events next := fun s event next moves listed asked => asked.step moves listed
  have asked : Asked events s :=
    run_invariant keeps (.start config) (Along.of_forall (fun event member => member) _) runs
  have client : s.Requested entry → s.FromClient events entry := by
    rintro ⟨request, member, proposed, data⟩
    obtain ⟨write, store, listed, plan⟩ := asked.planned request member
    exact ⟨request, member, proposed, write, store, listed, data ▸ plan⟩
  refine ⟨fun member mutates => client ?_, fun member => client (asked.applied id entry member)⟩
  rcases List.mem_append.mp member with logged | sent
  · exact asked.carries.logs id entry logged mutates
  · exact asked.carries.sent id entry sent mutates

/-- The loop of node 2 applies the `put` that node 1 served. -/
theorem both_paths_requested :
    ∃ s, run Cluster.threeNodes bothPaths = some s ∧ entryX ∈ (s.servers 2).applications ∧
      s.FromClient bothPaths entryX := by
  have ends : (run Cluster.threeNodes bothPaths).any (fun s => entryX ∈ (s.servers 2).applications) = true := by
    decide +kernel
  obtain ⟨s, runs, applied⟩ := (Option.any_eq_true _ _).mp ends
  exact ⟨s, runs, of_decide_eq_true applied,
    (applied_was_requested Cluster.threeNodes bothPaths s runs 2 entryX).2 (of_decide_eq_true applied)⟩

end Deployment

end Rusd
