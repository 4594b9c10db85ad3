/-
**Acknowledged writes.**

A handler that waits for the commit index knows its entry by the index only. As long as no append
request replaces the entry of a request that is under way, the entry stays where the handler proposed
it, and the wait ends only when the commit index has reached it: what `put` acknowledges is what was
committed. A request of another leader that takes the index breaks this: the waiter is woken for it.

* `KeepsPending` — the condition, one event at a time.
* `Awaits` — the invariant: where the entries of the requests under way are, and whom the notifier
  wakes.
* `acknowledged_write_committed` — over a whole run.
-/

import Rusd.Raft.Election
import Rusd.Server.Deployment

namespace Rusd

/-! ### One node -/

theorem CommitNotifier.mem_notifyUpTo {notifier : CommitNotifier} {c r : Nat}
    (signalled : r ∈ (notifier.notifyUpTo c).signalled) :
    r ∈ notifier.signalled ∨ ∃ i, (i, r) ∈ notifier.waiters ∧ i ≤ c := by
  rcases List.mem_append.mp signalled with before | woken
  · exact .inl before
  · obtain ⟨⟨i, _⟩, due, rfl⟩ := List.mem_map.mp woken
    obtain ⟨member, le⟩ := List.mem_filter.mp due
    exact .inr ⟨i, member, of_decide_eq_true le⟩

namespace Cluster

variable {s : Cluster} {n : Nat} {action : Action} {new : RaftNode}

/-- **Whom a step wakes**: only waiters on an index up to the commit index. -/
theorem NodeStep.notifies (stepped : NodeStep s n action new) :
    (∀ waiter ∈ new.commitNotifier.waiters, waiter ∈ (s.raft n).commitNotifier.waiters) ∧
    ∀ r ∈ new.commitNotifier.signalled, r ∈ (s.raft n).commitNotifier.signalled ∨
      ∃ i, (i, r) ∈ (s.raft n).commitNotifier.waiters ∧ i ≤ new.state.commitIndex := by
  cases stepped with
  | unmoved unmoved =>
    rw [unmoved.commitNotifier]
    exact ⟨fun _ member => member, fun _ before => .inl before⟩
  | accept peer found accepts =>
    rw [(RaftNode.handleAppendEntries_beside accepts).2.2.1]
    exact ⟨fun _ member => member, fun _ before => .inl before⟩
  | reply owner found received =>
    rw [RaftNode.handleAppendReply]
    split
    · exact ⟨fun _ member => (List.mem_filter.mp member).1,
        fun _ signalled => CommitNotifier.mem_notifyUpTo signalled⟩
    · exact ⟨fun _ member => member, fun _ before => .inl before⟩
  | propose leads => exact ⟨fun _ member => member, fun _ before => .inl before⟩
  | apply =>
    exact ⟨fun _ member => (List.mem_filter.mp member).1,
      fun _ signalled => CommitNotifier.mem_notifyUpTo signalled⟩

/-- The action does not take the entry from the log of the node. -/
def KeepsEntry (s : Cluster) (n : Nat) (entry : LogEntry) : Action → Prop
  | .deliverAppend id => id.peer = n → ∀ call ∈ s.appendCalls id,
      (s.raft n).Accepts call.request → call.request.Keeps entry
  | _ => True

/-- **An entry that the step does not take** stays, and the commit index does not fall below it. -/
theorem NodeStep.keeps_entry (stepped : NodeStep s n action new) (logs : LogsHold s)
    {entry : LogEntry} (keeps : KeepsEntry s n entry action)
    (found : (s.raft n).log.get entry.index = some entry) :
    new.log.get entry.index = some entry ∧
      (entry.index ≤ (s.raft n).state.commitIndex → entry.index ≤ new.state.commitIndex) := by
  have before := logs.holds n
  have positive := before.positive_of_get found
  have within : entry.index ≤ (s.raft n).log.lastIndex := by
    rw [before.get_eq positive] at found
    have := (List.getElem?_eq_some_iff.mp found).1
    rw [before.last]
    omega
  cases stepped with
  | unmoved unmoved =>
    rw [unmoved.log, unmoved.commit]
    exact ⟨found, id⟩
  | @accept id call peer called accepts =>
    have stays := accepts.keeps before (logs.appends id call called) (keeps peer call called accepts)
      found
    have after := accepts.holds_after before (logs.appends id call called)
    refine ⟨stays, fun committed => ?_⟩
    rw [RaftNode.handleAppendEntries_commit accepts]
    rw [after.get_eq positive] at stays
    have := (List.getElem?_eq_some_iff.mp stays).1
    rw [after.last]
    split <;> omega
  | @reply id reply call response owner called received =>
    rw [(RaftNode.handleAppendReply_beside _ _ _ _).2.1]
    refine ⟨found, fun committed => ?_⟩
    rcases RaftNode.handleAppendReply_cases (s.raft n) id.peer call.leaderLastIndex response with
      ⟨raised, is⟩ | ⟨-, is⟩
    · rw [is]
      exact committed.trans raised.le
    · rw [is, (RaftNode.noteAppendReply_ballot _ _ _).2.2.2]
      exact committed
  | @propose entryType data leads =>
    have after : ((s.raft n).propose entryType data).log.Holds _ := RaftNode.propose_holds before
    refine ⟨?_, fun committed => ?_⟩
    · rw [before.get_eq positive] at found
      rw [after.get_eq positive, List.getElem?_append_left (List.getElem?_eq_some_iff.mp found).1]
      exact found
    · rw [RaftNode.propose]
      dsimp only
      split
      · exact within.trans (Nat.le_succ _)
      · exact committed
  | apply => exact ⟨found, id⟩

end Cluster

/-! ### The requests under way -/

namespace Deployment

variable {s next : Deployment}

/-- No append request takes the entry of a request that is under way. -/
def KeepsPending (s : Deployment) : Event → Prop
  | .raft (.deliverAppend id) => ∀ call ∈ s.cluster.appendCalls id,
      (s.raft id.peer).Accepts call.request → ∀ request ∈ s.requests, request.node = id.peer →
        ∀ entry ∈ request.phase.pending, call.request.Keeps entry
  | _ => True

/-- **The invariant.** -/
structure Awaits (s : Deployment) : Prop where
  logs : s.cluster.LogsHold
  /-- The entry of a request under way is where it was proposed. -/
  stored : ∀ (r : Nat) request entry, s.requests[r]? = some request →
    request.phase.pending = some entry → (s.raft request.node).log.get entry.index = some entry
  /-- A request that goes on to its store call has been committed. -/
  ready : ∀ (r : Nat) request entry, s.requests[r]? = some request → request.phase = .ready entry →
    entry.index ≤ (s.raft request.node).state.commitIndex
  /-- A waiter waits for the index of its own entry. -/
  waiters : ∀ id, ∀ waiter ∈ (s.raft id).commitNotifier.waiters, ∃ request entry,
    s.requests[waiter.2]? = some request ∧ request.node = id ∧ request.phase.entry = some entry ∧
      entry.index = waiter.1
  /-- A request that was woken has been committed. -/
  signalled : ∀ id, ∀ r ∈ (s.raft id).commitNotifier.signalled, ∃ request entry,
    s.requests[r]? = some request ∧ request.node = id ∧ request.phase.entry = some entry ∧
      (request.phase.pending = some entry → entry.index ≤ (s.raft id).state.commitIndex)

theorem Awaits.start (config : ClusterConfig) : Awaits (start config) where
  logs := .start config
  stored := fun _ _ _ found => by cases found
  ready := fun _ _ _ found => by cases found
  waiters := fun _ _ member => by cases member
  signalled := fun _ _ member => by cases member

/-- **A step of the cluster** that takes no entry of a request under way. -/
theorem Awaits.cluster (inv : Awaits s) {action : Cluster.Action} {cluster : Cluster}
    (moves : s.cluster.step action = some cluster)
    (keeps : ∀ request ∈ s.requests, ∀ entry ∈ request.phase.pending,
      s.cluster.KeepsEntry request.node entry action) :
    Awaits { s with cluster := cluster } := by
  have kept : ∀ (r : Nat) request entry, s.requests[r]? = some request →
      request.phase.pending = some entry →
      (cluster.raft request.node).log.get entry.index = some entry ∧
        (entry.index ≤ (s.raft request.node).state.commitIndex →
          entry.index ≤ (cluster.raft request.node).state.commitIndex) := by
    intro r request entry found pending
    exact (Cluster.step_node moves request.node).keeps_entry inv.logs
      (keeps request (List.mem_of_getElem? found) entry pending) (inv.stored r request entry found pending)
  have notifies := fun id => (Cluster.step_node moves id).notifies
  refine ⟨inv.logs.step moves, fun r request entry found pending => (kept r request entry found pending).1,
    fun r request entry found ready => ?_, fun id waiter member => ?_, fun id r member => ?_⟩
  · exact (kept r request entry found (by rw [ready]; rfl)).2 (inv.ready r request entry found ready)
  · exact inv.waiters id waiter ((notifies id).1 waiter member)
  · rcases (notifies id).2 r member with before | ⟨i, waits, due⟩
    · obtain ⟨request, entry, found, here, proposed, reached⟩ := inv.signalled id r before
      subst here
      exact ⟨request, entry, found, rfl, proposed, fun pending =>
        (kept r request entry found pending).2 (reached pending)⟩
    · obtain ⟨request, entry, found, here, proposed, index⟩ := inv.waiters id (i, r) waits
      exact ⟨request, entry, found, here, proposed, fun _ => index ▸ due⟩

/-- **A handler goes on.** It keeps the entry it has, or gets its first one; an entry that is under way
is in the log. -/
theorem Awaits.setPhase (inv : Awaits s) {r : Nat} {request : Request} {phase : HandlerPhase}
    (found : s.requests[r]? = some request)
    (same : request.phase.entry = none ∨ (phase.entry = request.phase.entry ∧
      ∀ entry, phase.pending = some entry → request.phase.pending = some entry))
    (stored : ∀ entry, phase.pending = some entry →
      (s.raft request.node).log.get entry.index = some entry)
    (ready : ∀ entry, phase = .ready entry →
      entry.index ≤ (s.raft request.node).state.commitIndex) :
    Awaits (s.setPhase r request phase) := by
  have short := (List.getElem?_eq_some_iff.mp found).1
  have self : (s.setPhase r request phase).requests[r]? = some { request with phase := phase } :=
    List.getElem?_set_self short
  have others : ∀ other : Nat, other ≠ r →
      (s.setPhase r request phase).requests[other]? = s.requests[other]? :=
    fun other ne => List.getElem?_set_ne (Ne.symm ne)
  refine ⟨inv.logs, fun other request' entry found' pending => ?_,
    fun other request' entry found' isReady => ?_, fun id waiter member => ?_, fun id other member => ?_⟩
  · by_cases here : other = r
    · subst here
      rw [self] at found'
      cases found'
      exact stored entry pending
    · rw [others other here] at found'
      exact inv.stored other request' entry found' pending
  · by_cases here : other = r
    · subst here
      rw [self] at found'
      cases found'
      exact ready entry isReady
    · rw [others other here] at found'
      exact inv.ready other request' entry found' isReady
  · obtain ⟨request', entry, found', node, proposed, index⟩ := inv.waiters id waiter member
    by_cases here : waiter.2 = r
    · rw [here, found] at found'
      cases found'
      rcases same with none | ⟨same, -⟩
      · rw [none] at proposed
        cases proposed
      · rw [here]
        exact ⟨_, entry, self, node, same.trans proposed, index⟩
    · exact ⟨request', entry, (others _ here).trans found', node, proposed, index⟩
  · obtain ⟨request', entry, found', node, proposed, reached⟩ := inv.signalled id other member
    by_cases here : other = r
    · subst here
      rw [found] at found'
      cases found'
      rcases same with none | ⟨same, before⟩
      · rw [none] at proposed
        cases proposed
      · exact ⟨_, entry, self, node, same.trans proposed, fun pending => reached (before entry pending)⟩
    · exact ⟨request', entry, (others _ here).trans found', node, proposed, reached⟩

/-- A new request has no entry. -/
theorem Awaits.planned (inv : Awaits s) (id : Nat) (data : Bytes) (op : StoreOp) :
    Awaits { s with requests := s.requests ++ [⟨id, data, op, .planned⟩] } := by
  have old : ∀ (r : Nat) request entry, (s.requests ++ [⟨id, data, op, .planned⟩])[r]? = some request →
      request.phase.pending = some entry → s.requests[r]? = some request := by
    intro r request entry found pending
    rcases Nat.lt_or_ge r s.requests.length with before | beyond
    · rwa [List.getElem?_append_left before] at found
    · rw [List.getElem?_append_right beyond, List.getElem?_singleton] at found
      split at found
      · cases found
        cases pending
      · cases found
  have new : ∀ (r : Nat) request, s.requests[r]? = some request →
      (s.requests ++ [⟨id, data, op, .planned⟩])[r]? = some request := by
    intro r request found
    rw [List.getElem?_append_left (List.getElem?_eq_some_iff.mp found).1]
    exact found
  refine ⟨inv.logs, fun r request entry found pending => ?_, fun r request entry found ready => ?_,
    fun node waiter member => ?_, fun node r member => ?_⟩
  · exact inv.stored r request entry (old r request entry found pending) pending
  · exact inv.ready r request entry (old r request entry found (by rw [ready]; rfl)) ready
  · obtain ⟨request, entry, found, rest⟩ := inv.waiters node waiter member
    exact ⟨request, entry, new _ request found, rest⟩
  · obtain ⟨request, entry, found, rest⟩ := inv.signalled node r member
    exact ⟨request, entry, new r request found, rest⟩

/-- A waiter joins the notifier of its node. -/
theorem Awaits.registers (inv : Awaits s) {r : Nat} {request : Request} {entry : LogEntry}
    (found : s.requests[r]? = some request) (proposed : request.phase.entry = some entry) :
    Awaits { s with cluster := s.withWaiter request.node entry.index r } := by
  have rafts := s.withWaiter_raft request.node entry.index r
  refine ⟨inv.logs.of_same (fun id => (rafts id).1.1) rfl, fun other request' entry' found' pending => ?_,
    fun other request' entry' found' ready => ?_, fun id waiter member => ?_, fun id other member => ?_⟩
  · show ((s.withWaiter request.node entry.index r).raft request'.node).log.get _ = _
    rw [(rafts request'.node).1.1]
    exact inv.stored other request' entry' found' pending
  · show _ ≤ ((s.withWaiter request.node entry.index r).raft request'.node).state.commitIndex
    rw [(rafts request'.node).1.2.1]
    exact inv.ready other request' entry' found' ready
  · rcases (rafts id).2.2 waiter member with before | ⟨rfl, rfl⟩
    · exact inv.waiters id waiter before
    · exact ⟨request, entry, found, rfl, proposed, rfl⟩
  · have before : other ∈ (s.raft id).commitNotifier.signalled := (rafts id).2.1 ▸ member
    obtain ⟨request', entry', found', here, proposed', reached⟩ := inv.signalled id other before
    refine ⟨request', entry', found', here, proposed', fun pending => ?_⟩
    show _ ≤ ((s.withWaiter request.node entry.index r).raft id).state.commitIndex
    rw [(rafts id).1.2.1]
    exact reached pending

/-- A call on a store changes nothing the waiters see. -/
theorem Awaits.setServer (inv : Awaits s) (id : Nat) (server : Server) :
    Awaits (s.setServer id server) :=
  ⟨inv.logs, inv.stored, inv.ready, inv.waiters, inv.signalled⟩

theorem Awaits.finish (inv : Awaits s) {r : Nat} {request : Request} {entry : LogEntry}
    (found : s.requests[r]? = some request) (ready : request.phase = .ready entry) :
    Awaits (s.finish r request entry) := by
  have ends : ∀ phase : HandlerPhase, phase.entry = some entry → phase.pending = none →
      (∀ entry, phase ≠ .ready entry) → Awaits (s.setPhase r request phase) := by
    intro phase proposed ended notReady
    refine inv.setPhase found (.inr ⟨by rw [proposed, ready]; rfl, fun entry pending => ?_⟩)
      (fun entry pending => ?_) (fun entry isReady => absurd isReady (notReady entry))
    all_goals
      rw [ended] at pending
      cases pending
  rw [Deployment.finish]
  split
  · exact (ends (.returned entry) rfl rfl (fun _ => nofun)).setServer _ _
  · exact (ends (.failed entry) rfl rfl (fun _ => nofun)).setServer _ _
  · exact (ends (.failed entry) rfl rfl (fun _ => nofun)).setServer _ _

theorem Awaits.propose (inv : Awaits s) {r : Nat} {request : Request} {cluster : Cluster}
    (found : s.requests[r]? = some request) (planned : request.phase = .planned)
    (proposes : s.cluster.step (.propose request.node .normal request.data) = some cluster) :
    Awaits { s.setPhase r request (.proposed (nextEntry (s.raft request.node) request.data)) with
      cluster := cluster } := by
  have none : request.phase.entry = none := by rw [planned]; rfl
  have moved := inv.cluster proposes fun _ _ _ _ => trivial
  refine moved.setPhase found (.inl none) (fun entry pending => ?_) nofun
  cases pending
  -- the log of the proposer ends in the new entry
  have after : (cluster.raft request.node).log.Holds
      ((s.raft request.node).entries ++ [nextEntry (s.raft request.node) request.data]) := by
    rw [Cluster.step_propose proposes]
    exact RaftNode.propose_holds (inv.logs.holds request.node)
  show (cluster.raft request.node).log.get ((s.raft request.node).log.lastIndex + 1) = _
  have last : (s.raft request.node).log.lastIndex = (s.raft request.node).entries.length :=
    (inv.logs.holds request.node).last
  rw [after.get_succ, last, List.getElem?_concat_length]

/-- A handler that goes on with its entry under way. -/
theorem Awaits.goesOn (inv : Awaits s) {r : Nat} {request : Request} {entry : LogEntry}
    {phase : HandlerPhase} (found : s.requests[r]? = some request)
    (before : request.phase.pending = some entry) (after : phase.pending = some entry)
    (proposed : phase.entry = request.phase.entry)
    (ready : phase = .ready entry → entry.index ≤ (s.raft request.node).state.commitIndex) :
    Awaits (s.setPhase r request phase) := by
  refine inv.setPhase found (.inr ⟨proposed, fun e is => ?_⟩) (fun e is => ?_) fun e is => ?_
  · rw [before, ← after, is]
  · rw [after] at is
    cases is
    exact inv.stored r request entry found before
  · have here : phase.pending = some e := by rw [is]; rfl
    rw [after] at here
    cases here
    exact ready is

/-- **Every event keeps it.** -/
theorem Awaits.step (inv : Awaits s) {event : Event} (moves : s.step event = some next)
    (keeps : KeepsPending s event) : Awaits next := by
  cases step_moves moves with
  | @raft action cluster steps =>
    refine inv.cluster steps fun request member entry pending => ?_
    cases action with
    | deliverAppend id =>
      intro here call called accepts
      rw [← here] at accepts
      exact keeps call called accepts request member here.symm entry pending
    | _ => trivial
  | @call id write data op => exact inv.planned id data op
  | refuse found phase => exact inv.setPhase found (.inl (by rw [phase]; rfl)) nofun nofun
  | propose found phase steps => exact inv.propose found phase steps
  | below found phase =>
    exact inv.goesOn found (by rw [phase]; rfl) rfl (by rw [phase]; rfl) nofun
  | reached found phase reached =>
    exact inv.goesOn found (by rw [phase]; rfl) rfl (by rw [phase]; rfl) fun _ => reached
  | @register r request entry found phase =>
    have waits : Awaits (s.setPhase r request (.waiting entry)) :=
      inv.goesOn found (by rw [phase]; rfl) rfl (by rw [phase]; rfl) nofun
    have self : (s.setPhase r request (.waiting entry)).requests[r]? =
        some { request with phase := .waiting entry } :=
      List.getElem?_set_self (List.getElem?_eq_some_iff.mp found).1
    have registered := waits.registers self rfl
    exact registered
  | @wake r request entry found phase woken =>
    have pending : request.phase.pending = some entry := by rw [phase]; rfl
    refine inv.goesOn found pending rfl (by rw [phase]; rfl) fun _ => ?_
    obtain ⟨request', entry', found', -, proposed, reached⟩ := inv.signalled _ r woken
    rw [found] at found'
    cases found'
    rw [phase] at proposed
    cases proposed
    exact reached pending
  | timeout found phase =>
    exact inv.setPhase found (.inr ⟨by rw [phase]; rfl, nofun⟩) nofun nofun
  | finish found phase => exact inv.finish found phase
  | receive arrives running => exact inv.setServer _ _
  | write => exact inv.setServer _ _

/-! ### Over a whole run -/

/-- The store call of a handler leaves the Raft nodes as they are. -/
theorem raft_finish (s : Deployment) (r : Nat) (request : Request) (entry : LogEntry) (id : Nat) :
    (s.finish r request entry).raft id = s.raft id := by
  rw [Deployment.finish]
  split <;> rfl

/-- It ends the request, with its entry. -/
theorem requests_finish {s : Deployment} {r : Nat} {request : Request}
    (found : s.requests[r]? = some request) (entry : LogEntry) :
    ∃ phase, (s.finish r request entry).requests[r]? = some { request with phase := phase } ∧
      (phase = .returned entry ∨ phase = .failed entry) := by
  have self : ∀ phase, (s.setPhase r request phase).requests[r]? = some { request with phase := phase } :=
    fun _ => List.getElem?_set_self (List.getElem?_eq_some_iff.mp found).1
  rw [Deployment.finish]
  split
  · exact ⟨_, self _, .inl rfl⟩
  · exact ⟨_, self _, .inr rfl⟩
  · exact ⟨_, self _, .inr rfl⟩

/-- **An acknowledged write is the committed write.** In a run in which no append request takes the
entry of a request under way, a request that returns finds its own entry committed at its index. -/
theorem acknowledged_write_committed (config : ClusterConfig) (events : List Event) (r : Nat)
    (s : Deployment) (request : Request) (entry : LogEntry)
    (runs : run config (events ++ [.finish r]) = some s)
    (keeps : Along step KeepsPending (start config) events)
    (found : s.requests[r]? = some request) (returned : request.phase = .returned entry) :
    (s.raft request.node).log.get entry.index = some entry ∧
      entry.index ≤ (s.raft request.node).state.commitIndex := by
  obtain ⟨before, reaches, finishes⟩ := runFrom_concat runs
  have keepsInv : ∀ s event next, step s event = some next → KeepsPending s event → Awaits s →
      Awaits next := fun _ _ _ moves keeps inv => inv.step moves keeps
  have inv : Awaits before := run_invariant keepsInv (Awaits.start config) keeps reaches
  cases step_moves finishes with
  | @finish _ served stored foundBefore ready =>
    obtain ⟨phase, after, ended⟩ := requests_finish foundBefore stored
    rw [after] at found
    cases found
    rcases ended with rfl | rfl
    · cases returned
      rw [raft_finish]
      exact ⟨inv.stored r served entry foundBefore (by rw [ready]; rfl),
        inv.ready r served entry foundBefore ready⟩
    · cases returned

/-! ### An index that another leader takes -/

/-- The keeping of the entries can be checked. -/
instance (s : Deployment) : DecidablePred (KeepsPending s)
  | .raft (.deliverAppend id) => inferInstanceAs (Decidable (∀ call ∈ s.cluster.appendCalls id,
      (s.raft id.peer).Accepts call.request → ∀ request ∈ s.requests, request.node = id.peer →
        ∀ entry ∈ request.phase.pending, call.request.Keeps entry))
  | .raft (.electionTimeout _) => .isTrue trivial
  | .raft (.deliverVote _) => .isTrue trivial
  | .raft (.voteReply _ _) => .isTrue trivial
  | .raft (.voteError _) => .isTrue trivial
  | .raft (.countVote _) => .isTrue trivial
  | .raft (.endCampaign _) => .isTrue trivial
  | .raft (.heartbeat _) => .isTrue trivial
  | .raft (.appendReply _ _) => .isTrue trivial
  | .raft (.propose _ _ _) => .isTrue trivial
  | .raft (.apply _) => .isTrue trivial
  | .call _ _ => .isTrue trivial
  | .propose _ => .isTrue trivial
  | .check _ => .isTrue trivial
  | .register _ => .isTrue trivial
  | .wake _ => .isTrue trivial
  | .timeout _ => .isTrue trivial
  | .finish _ => .isTrue trivial
  | .receive _ => .isTrue trivial
  | .write _ _ => .isTrue trivial

/-- Node 1 leads in term 2. -/
def firstLeads : List Event :=
  [.raft (.electionTimeout 1), .raft (.deliverVote ⟨1, 0, 2⟩), .raft (.voteReply ⟨1, 0, 2⟩ 0),
    .raft (.countVote 1), .raft (.deliverVote ⟨1, 1, 2⟩), .raft (.voteReply ⟨1, 1, 2⟩ 0),
    .raft (.countVote 1), .raft (.deliverAppend ⟨1, 0, 2⟩)]

/-- Node 2 leads in term 4. -/
def secondLeads : List Event :=
  [.raft (.electionTimeout 2), .raft (.deliverVote ⟨2, 0, 3⟩), .raft (.voteReply ⟨2, 0, 3⟩ 0),
    .raft (.countVote 2), .raft (.deliverVote ⟨2, 1, 3⟩), .raft (.voteReply ⟨2, 1, 3⟩ 0),
    .raft (.countVote 2)]

/-- Put a value under the key `a`. -/
def putA (value : Byte) : WriteRequest := .put ⟨[97], [value], 0, false, false, false⟩

/-- The `put` of `x` waits at node 1. Node 2 takes over, commits `y` at its index and replaces the entry
of node 1, which is then told that the index is committed. -/
def takenOver : List Event :=
  firstLeads.append <| List.append [.call 1 (putA 120), .propose 0, .check 0, .register 0] <|
    secondLeads.append
      [.call 2 (putA 121), .propose 1, .raft (.deliverAppend ⟨2, 1, 3⟩),
        .raft (.appendReply ⟨2, 1, 3⟩ 0), .raft (.deliverAppend ⟨2, 1, 1⟩), .raft (.heartbeat 2),
        .raft (.deliverAppend ⟨2, 2, 1⟩), .raft (.apply 1), .wake 0]

/-- **A `put` that returns while its index holds the entry of another leader.** -/
theorem taken_over_acknowledged :
    (run Cluster.threeNodes (takenOver ++ [.finish 0])).map (fun s =>
        (s.requests[0]?.map (·.phase), (s.raft 1).log.get 1, (s.raft 1).state.commitIndex)) =
      some (some (.returned ⟨1, 2, putProposal [97] [120], .normal⟩),
        some ⟨1, 4, putProposal [97] [121], .normal⟩, 1) := by
  decide +kernel

/-- Node 2 takes the entry of node 1, and the `put` of `x` returns. -/
def replicatedPut : List Event :=
  firstLeads.append [.call 1 (putA 120), .propose 0, .check 0, .register 0,
    .raft (.deliverAppend ⟨1, 1, 2⟩), .raft (.appendReply ⟨1, 1, 2⟩ 0), .wake 0]

theorem replicated_put_committed :
    ∃ s request entry, run Cluster.threeNodes (replicatedPut ++ [.finish 0]) = some s ∧
      s.requests[0]? = some request ∧ request.phase = .returned entry ∧
      (s.raft request.node).log.get entry.index = some entry ∧
        entry.index ≤ (s.raft request.node).state.commitIndex := by
  have ends : ((run Cluster.threeNodes (replicatedPut ++ [.finish 0])).bind
      (·.requests[0]?)).map (·.phase) = some (.returned ⟨1, 2, putProposal [97] [120], .normal⟩) := by
    decide +kernel
  obtain ⟨request, served, returned⟩ := Option.map_eq_some_iff.mp ends
  obtain ⟨s, runs, found⟩ := Option.bind_eq_some_iff.mp served
  exact ⟨s, request, _, runs, found, returned, acknowledged_write_committed _ replicatedPut 0 s request _
    runs (by decide +kernel) found returned⟩

end Deployment

end Rusd
