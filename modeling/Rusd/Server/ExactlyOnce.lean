/-
**Every committed write is applied once.**

Two paths write an entry to the store of a node: the handler that proposed it, and the apply loop. They
are kept apart by asking whether the node leads at the moment the loop takes the entry. That is the
right question only if the node leads exactly when one of its handlers will make, or has made, the call
for that entry. Where it holds for every entry the loop takes, the books balance: the applications of an
entry are the handlers that returned for it, plus one if the loop has taken it and no handler claims it.

* `Settles` — the condition, one event at a time.
* `ApplyChannel` — what a node has sent on its apply channel is the committed part of its log.
* `Accounts` — the balance.
* `applied_exactly_once` — over a whole run.
-/

import Rusd.Server.Acknowledge

namespace Rusd

open RaftLog

/-! ### The apply channel of a node -/

/-- **The channel carries the committed log.** -/
structure ApplyChannel (node : RaftNode) : Prop where
  holds : node.log.Holds node.entries
  commit : node.state.commitIndex ≤ node.entries.length
  applied : node.state.lastApplied ≤ node.state.commitIndex
  sent : node.applyTx = node.entries.take node.state.lastApplied

/-- The entries sent by `apply_committed_entries` are a stretch of the log. -/
theorem ApplyChannel.committedEntries {node : RaftNode} (channel : ApplyChannel node) :
    node.committedEntries = (node.entries.drop node.state.lastApplied).take
      (node.state.commitIndex - node.state.lastApplied) := by
  have commit := channel.commit
  have applied := channel.applied
  have same : ∀ i ∈ List.range' (node.state.lastApplied + 1)
      (node.state.commitIndex - node.state.lastApplied), node.log.get i = node.log.entries i := by
    intro i member
    have := List.mem_range'_1.mp member
    rw [RaftLog.get, if_neg (by rw [channel.holds.first]; omega)]
  rw [RaftNode.committedEntries, List.filterMap_congr same,
    channel.holds.filterMap_range' _ _ (by omega)]

theorem ApplyChannel.apply {node : RaftNode} (channel : ApplyChannel node) :
    ApplyChannel node.applyCommittedEntries := by
  refine ⟨channel.holds, channel.commit, le_rfl, ?_⟩
  show node.applyTx ++ node.committedEntries = node.entries.take node.state.commitIndex
  have split : node.state.commitIndex =
      node.state.lastApplied + (node.state.commitIndex - node.state.lastApplied) := by
    have := channel.applied
    omega
  rw [channel.sent, channel.committedEntries]
  conv_rhs => rw [split, List.take_add]

theorem ApplyChannel.of_same {node new : RaftNode} (channel : ApplyChannel node) (log : new.log = node.log)
    (commit : new.state.commitIndex = node.state.commitIndex)
    (lastApplied : new.state.lastApplied = node.state.lastApplied)
    (applyTx : new.applyTx = node.applyTx) : ApplyChannel new := by
  have entries : new.entries = node.entries := by
    rw [RaftNode.entries, log]
    rfl
  refine ⟨?_, ?_, ?_, ?_⟩
  · rw [log, entries]
    exact channel.holds
  · rw [entries, commit]
    exact channel.commit
  · rw [lastApplied, commit]
    exact channel.applied
  · rw [applyTx, entries, lastApplied]
    exact channel.sent

/-- The node keeps its channel where its committed entries stay. -/
theorem ApplyChannel.of_kept {node new : RaftNode} (channel : ApplyChannel node)
    (holds : new.log.Holds new.entries) (applied : new.state.lastApplied = node.state.lastApplied)
    (sent : new.applyTx = node.applyTx)
    (kept : ∀ entry ∈ node.entries.take node.state.commitIndex,
      new.log.get entry.index = some entry)
    (moved : node.state.commitIndex ≤ new.entries.length →
      node.state.commitIndex ≤ new.state.commitIndex ∧
        new.state.commitIndex ≤ new.entries.length) : ApplyChannel new := by
  have stays : ∀ i, i < node.state.commitIndex → new.entries[i]? = node.entries[i]? := by
    intro i below
    have inside : i < node.entries.length := Nat.lt_of_lt_of_le below channel.commit
    have found := List.getElem?_eq_getElem inside
    have index := channel.holds.indexed i _ found
    have member : node.entries[i] ∈ node.entries.take node.state.commitIndex :=
      List.mem_of_getElem? (by rw [List.getElem?_take_of_lt below, found])
    have get := kept _ member
    rw [index, Nat.zero_add, holds.get_succ] at get
    rw [get, found]
  have prefixes : new.entries.take node.state.commitIndex =
      node.entries.take node.state.commitIndex := by
    refine List.ext_getElem? fun i => ?_
    rw [List.getElem?_take, List.getElem?_take]
    split
    case isTrue below => exact stays i below
    case isFalse => rfl
  have long : node.state.commitIndex ≤ new.entries.length := by
    have lengths := congrArg List.length prefixes
    rw [List.length_take, List.length_take, Nat.min_eq_left channel.commit] at lengths
    omega
  refine ⟨holds, (moved long).2, ?_, ?_⟩
  · rw [applied]
    exact channel.applied.trans (moved long).1
  · rw [sent, applied, channel.sent]
    have shorter := congrArg (List.take node.state.lastApplied) prefixes
    rw [List.take_take, List.take_take, Nat.min_eq_left channel.applied] at shorter
    exact shorter.symm

namespace Cluster

/-- The commit index moves within the log, and what it has reached is not replaced. -/
def CommitsWithin (s : Cluster) : Action → Prop
  | .deliverAppend id => ∀ call ∈ s.appendCalls id, (s.raft id.peer).Accepts call.request →
      ∀ entry ∈ (s.raft id.peer).entries.take (s.raft id.peer).state.commitIndex,
        call.request.Keeps entry
  | .appendReply id reply => ∀ call ∈ s.appendCalls id, ∀ response ∈ call.replies[reply]?,
      (RaftNode.noteAppendReply (s.raft id.owner).state id.peer response).majorityMatchIndex
        (s.raft id.owner).peerIds call.leaderLastIndex ≤ (s.raft id.owner).log.lastIndex
  | _ => True

variable {s : Cluster} {n : Nat} {action : Action} {new : RaftNode}

theorem NodeStep.channel (stepped : NodeStep s n action new) (logs : LogsHold s)
    (within : CommitsWithin s action) (channel : ApplyChannel (s.raft n)) : ApplyChannel new := by
  have committed : ∀ entry ∈ (s.raft n).entries.take (s.raft n).state.commitIndex,
      (s.raft n).log.get entry.index = some entry := by
    intro entry member
    obtain ⟨i, found⟩ := List.getElem?_of_mem (List.mem_of_mem_take member)
    rw [channel.holds.indexed i entry found, Nat.zero_add, channel.holds.get_succ]
    exact found
  cases stepped with
  | unmoved unmoved =>
    exact channel.of_same unmoved.log unmoved.commit unmoved.lastApplied unmoved.applyTx
  | @accept id call peer called accepts =>
    subst peer
    obtain ⟨-, applied, -, sent⟩ := RaftNode.handleAppendEntries_beside accepts
    have indexed := logs.appends id call called
    have holds := RaftNode.holds_entries ⟨_, accepts.holds_after channel.holds indexed⟩
    refine channel.of_kept holds applied sent (fun entry member => ?_) fun long => ?_
    · exact accepts.keeps channel.holds indexed (within call called accepts entry member)
        (committed entry member)
    · rw [RaftNode.handleAppendEntries_commit accepts, holds.last]
      split <;> omega
  | @reply id reply call response owner called received =>
    subst owner
    have majority := within call called response received
    obtain ⟨-, log, sent, applied⟩ := RaftNode.handleAppendReply_beside (s.raft id.owner) id.peer
      call.leaderLastIndex response
    have entries : ((s.raft id.owner).handleAppendReply id.peer call.leaderLastIndex response).entries =
        (s.raft id.owner).entries := by
      rw [RaftNode.entries, log]
      rfl
    rw [channel.holds.last] at majority
    refine channel.of_kept (by rw [entries, log]; exact channel.holds) applied sent
      (fun entry member => by rw [log]; exact committed entry member) fun long => ?_
    rw [entries]
    rcases RaftNode.handleAppendReply_cases (s.raft id.owner) id.peer call.leaderLastIndex response
      with ⟨raised, is⟩ | ⟨-, is⟩
    · rw [is]
      exact ⟨raised.le, majority⟩
    · rw [is, (RaftNode.noteAppendReply_ballot _ _ _).2.2.2]
      exact ⟨le_rfl, channel.commit⟩
  | @propose entryType data leads =>
    have after : ((s.raft n).propose entryType data).log.Holds _ :=
      RaftNode.propose_holds channel.holds
    have entries : ((s.raft n).propose entryType data).entries = _ := after.toList_eq
    have last := channel.holds.last
    have commit := channel.commit
    refine channel.of_kept (RaftNode.holds_entries ⟨_, after⟩) ?_ rfl (fun entry member => ?_)
      fun long => ?_
    · rw [RaftNode.propose]
      dsimp only
      split <;> rfl
    · exact (NodeStep.keeps_entry (.propose leads) logs trivial (committed entry member)).1
    · rw [entries, List.length_append, List.length_singleton, RaftNode.propose]
      dsimp only
      split
      · show _ ≤ (s.raft n).log.lastIndex + 1 ∧ (s.raft n).log.lastIndex + 1 ≤ _
        omega
      · omega
  | apply => exact channel.apply

/-- The channel is only ever extended. -/
theorem NodeStep.sends (stepped : NodeStep s n action new) :
    ∃ more, new.applyTx = (s.raft n).applyTx ++ more := by
  cases stepped with
  | unmoved unmoved => exact ⟨[], by rw [unmoved.applyTx, List.append_nil]⟩
  | accept peer called accepts =>
    exact ⟨[], by rw [(RaftNode.handleAppendEntries_beside accepts).2.2.2, List.append_nil]⟩
  | reply owner called received =>
    exact ⟨[], by rw [(RaftNode.handleAppendReply_beside _ _ _ _).2.2.1, List.append_nil]⟩
  | propose leads => exact ⟨[], (List.append_nil _).symm⟩
  | apply => exact ⟨_, rfl⟩

end Cluster

/-! ### The books -/

/-- The entry is a `PUT` or `DELETE` that the apply loop can read. -/
def LogEntry.Mutates (entry : LogEntry) : Prop :=
  entry.entryType = .normal ∧ (followerCommand entry.data).isSome = true

instance (entry : LogEntry) : Decidable entry.Mutates := inferInstanceAs (Decidable (_ ∧ _))

/-- The handler has made the store call for the entry, or may still make it. -/
def HandlerPhase.claims (entry : LogEntry) (phase : HandlerPhase) : Bool :=
  phase.pending = some entry ∨ phase = .returned entry

namespace Deployment

variable {s next : Deployment}

/-- The requests of a node in a phase with the property. -/
def countPhases (s : Deployment) (id : Nat) (p : HandlerPhase → Bool) : Nat :=
  s.requests.countP fun request => decide (request.node = id) && p request.phase

/-- The handlers of a node that claim the entry. -/
def claimants (s : Deployment) (id : Nat) (entry : LogEntry) : Nat :=
  s.countPhases id fun phase => phase.claims entry

/-- The handlers of a node that applied the entry. -/
def served (s : Deployment) (id : Nat) (entry : LogEntry) : Nat :=
  s.countPhases id fun phase => phase = .returned entry

/-- The entries that the apply loop of a node has taken. -/
def received (s : Deployment) (id : Nat) : List LogEntry :=
  (s.raft id).applyTx.take (s.servers id).received

/-- The applications of an entry by the apply loop: one, if it took the entry and no handler claims
it. -/
def looped (s : Deployment) (id : Nat) (entry : LogEntry) : Nat :=
  if entry ∈ s.received id ∧ entry.Mutates ∧ s.claimants id entry = 0 then 1 else 0

/-- **The balance.** -/
structure Accounts (s : Deployment) : Prop where
  logs : s.cluster.LogsHold
  channel : ∀ id, ApplyChannel (s.raft id)
  taken : ∀ id, (s.servers id).received ≤ (s.raft id).applyTx.length
  reached : ∀ id, Reached (s.servers id).store
  single : ∀ id entry, s.claimants id entry ≤ 1
  balance : ∀ id entry,
    (s.servers id).applications.count entry = s.served id entry + s.looped id entry

theorem Accounts.start (config : ClusterConfig) : Accounts (start config) where
  logs := .start config
  channel := fun id => by
    have node : (Deployment.start config).raft id = RaftNode.new (config.configs id) := rfl
    rw [node, RaftNode.new]
    refine ⟨RaftNode.holds_entries ⟨[], .new⟩, ?_, ?_, List.take_nil.symm⟩
    · split <;> exact Nat.zero_le _
    · split <;> exact Nat.zero_le _
  taken := fun _ => Nat.zero_le _
  reached := fun _ => .fresh
  single := fun _ _ => Nat.zero_le _
  balance := fun id entry => by
    rw [looped, if_neg (fun taken => by cases taken.1)]
    rfl

/-- The claims of a phase. -/
theorem claims_iff {phase : HandlerPhase} {entry : LogEntry} :
    phase.claims entry = true ↔ phase.pending = some entry ∨ phase = .returned entry := by
  rw [HandlerPhase.claims, decide_eq_true_eq]

theorem not_claims {phase : HandlerPhase} (pending : phase.pending = none)
    (returned : ∀ entry, phase ≠ .returned entry) (entry : LogEntry) : phase.claims entry = false := by
  rw [Bool.eq_false_iff, ne_eq, claims_iff, pending]
  rintro (is | is)
  · cases is
  · exact returned entry is

/-- A handler that goes from one phase to another, in the count. -/
theorem countPhases_setPhase {r : Nat} {request : Request} (found : s.requests[r]? = some request)
    (phase : HandlerPhase) (id : Nat) (p : HandlerPhase → Bool) :
    (s.setPhase r request phase).countPhases id p +
        (if request.node = id ∧ p request.phase = true then 1 else 0) =
      s.countPhases id p + (if request.node = id ∧ p phase = true then 1 else 0) := by
  obtain ⟨short, here⟩ := List.getElem?_eq_some_iff.mp found
  have counted : (if request.node = id ∧ p request.phase = true then 1 else 0) ≤ s.countPhases id p := by
    split
    case isTrue holds =>
      refine List.countP_pos_iff.mpr ⟨request, List.mem_of_getElem? found, ?_⟩
      simp [holds.1, holds.2]
    case isFalse => exact Nat.zero_le _
  rw [countPhases, setPhase]
  dsimp only
  rw [List.countP_set short, here]
  simp only [Bool.and_eq_true, decide_eq_true_eq]
  show s.countPhases id p - _ + _ + _ = _
  omega

theorem claimants_setPhase {r : Nat} {request : Request} (found : s.requests[r]? = some request)
    (phase : HandlerPhase) (id : Nat) (entry : LogEntry) :
    (s.setPhase r request phase).claimants id entry +
        (if request.node = id ∧ request.phase.claims entry = true then 1 else 0) =
      s.claimants id entry + (if request.node = id ∧ phase.claims entry = true then 1 else 0) :=
  countPhases_setPhase found phase id fun phase => phase.claims entry

theorem served_setPhase {r : Nat} {request : Request} (found : s.requests[r]? = some request)
    (phase : HandlerPhase) (id : Nat) (entry : LogEntry) :
    (s.setPhase r request phase).served id entry +
        (if request.node = id ∧ request.phase = .returned entry then 1 else 0) =
      s.served id entry + (if request.node = id ∧ phase = .returned entry then 1 else 0) := by
  have counted := countPhases_setPhase found phase id fun phase => phase = .returned entry
  simpa only [served, decide_eq_true_eq] using counted

/-- An event that moves only nodes, along their channels. -/
theorem Accounts.cluster (inv : Accounts s) {cluster : Cluster} (logs : cluster.LogsHold)
    (channel : ∀ id, ApplyChannel (cluster.raft id))
    (sends : ∀ id, ∃ more, (cluster.raft id).applyTx = (s.raft id).applyTx ++ more) :
    Accounts { s with cluster := cluster } := by
  have received : ∀ id, received { s with cluster := cluster } id = s.received id := by
    intro id
    obtain ⟨more, extended⟩ := sends id
    show (cluster.raft id).applyTx.take _ = (s.raft id).applyTx.take _
    rw [extended, List.take_append_of_le_length (inv.taken id)]
  refine ⟨logs, channel, fun id => ?_, inv.reached, inv.single, fun id entry => ?_⟩
  · obtain ⟨more, extended⟩ := sends id
    show _ ≤ (cluster.raft id).applyTx.length
    rw [extended, List.length_append]
    exact (inv.taken id).trans (Nat.le_add_right _ _)
  · have before := inv.balance id entry
    rw [looped] at before ⊢
    rw [received]
    exact before

/-- A handler that goes on without making or dropping a claim. -/
theorem Accounts.goesOn (inv : Accounts s) {r : Nat} {request : Request} {phase : HandlerPhase}
    (found : s.requests[r]? = some request) (pending : phase.pending = request.phase.pending)
    (before : ∀ entry, request.phase ≠ .returned entry) (after : ∀ entry, phase ≠ .returned entry) :
    Accounts (s.setPhase r request phase) := by
  have claims : ∀ entry, phase.claims entry = request.phase.claims entry := by
    intro entry
    rw [Bool.eq_iff_iff, claims_iff, claims_iff, pending]
    simp only [before entry, after entry]
  have claimants : ∀ id entry, (s.setPhase r request phase).claimants id entry =
      s.claimants id entry := by
    intro id entry
    have counted := claimants_setPhase found phase id entry
    rw [claims] at counted
    exact Nat.add_right_cancel counted
  have served : ∀ id entry, (s.setPhase r request phase).served id entry = s.served id entry := by
    intro id entry
    have counted := served_setPhase found phase id entry
    simpa only [before, after, and_false, if_false, Nat.add_zero] using counted
  refine ⟨inv.logs, inv.channel, inv.taken, inv.reached, fun id entry => ?_, fun id entry => ?_⟩
  · rw [claimants]
    exact inv.single id entry
  · rw [looped, served, claimants]
    exact inv.balance id entry

/-- A new request claims nothing. -/
theorem Accounts.planned (inv : Accounts s) (id : Nat) (data : Bytes) (op : StoreOp) :
    Accounts { s with requests := s.requests ++ [⟨id, data, op, .planned⟩] } := by
  have counts : ∀ other (p : HandlerPhase → Bool), p .planned = false →
      countPhases { s with requests := s.requests ++ [⟨id, data, op, .planned⟩] } other p =
        s.countPhases other p := by
    intro other p planned
    rw [countPhases, List.countP_append, List.countP_singleton]
    simp only [planned, Bool.and_false, Bool.false_eq_true, if_false, Nat.add_zero]
    rfl
  have claimants : ∀ other entry, claimants
      { s with requests := s.requests ++ [⟨id, data, op, .planned⟩] } other entry =
        s.claimants other entry := fun other entry => counts other _ rfl
  have served : ∀ other entry, served
      { s with requests := s.requests ++ [⟨id, data, op, .planned⟩] } other entry =
        s.served other entry := fun other entry => counts other _ rfl
  refine ⟨inv.logs, inv.channel, inv.taken, inv.reached, fun other entry => ?_, fun other entry => ?_⟩
  · rw [claimants]
    exact inv.single other entry
  · rw [looped, served, claimants]
    exact inv.balance other entry

/-- **A node writes its store.** Only its own books have to be looked at. -/
theorem Accounts.serve (inv : Accounts s) (requests : List Request) {id : Nat} {server : Server}
    (taken : server.received ≤ (s.raft id).applyTx.length) (reached : Reached server.store)
    (elsewhere : ∀ other entry, other ≠ id →
      served { s with requests := requests } other entry = s.served other entry)
    (claimants : ∀ other entry, claimants { s with requests := requests } other entry =
      s.claimants other entry)
    (balance : ∀ entry, server.applications.count entry =
      served { s with requests := requests } id entry +
        if entry ∈ (s.raft id).applyTx.take server.received ∧ entry.Mutates ∧
          s.claimants id entry = 0 then 1 else 0) :
    Accounts (setServer { s with requests := requests } id server) := by
  have self : (setServer { s with requests := requests } id server).servers id = server :=
    Function.update_self ..
  have others : ∀ other, other ≠ id →
      (setServer { s with requests := requests } id server).servers other = s.servers other :=
    fun other ne => Function.update_of_ne ne ..
  refine ⟨inv.logs, inv.channel, fun other => ?_, fun other => ?_, fun other entry => ?_,
    fun other entry => ?_⟩
  · by_cases here : other = id
    · subst here
      rw [self]
      exact taken
    · rw [others other here]
      exact inv.taken other
  · by_cases here : other = id
    · subst here
      rw [self]
      exact reached
    · rw [others other here]
      exact inv.reached other
  · exact (claimants other entry).trans_le (inv.single other entry)
  · rw [looped, received]
    by_cases here : other = id
    · subst here
      rw [self]
      refine (balance entry).trans ?_
      rw [← claimants]
      rfl
    · rw [others other here]
      refine (inv.balance other entry).trans ?_
      rw [← elsewhere other entry here, looped, ← claimants]
      rfl

/-- A call on the store that applies no entry. -/
theorem Accounts.setStore (inv : Accounts s) (id : Nat) {store : MvccStore} (reached : Reached store) :
    Accounts (s.setServer id { s.servers id with store := store }) :=
  inv.serve s.requests (inv.taken id) reached (fun _ _ _ => rfl) (fun _ _ => rfl) fun entry =>
    inv.balance id entry

/-- **A claim is made** for an entry that no one claims and the loop has not taken. -/
theorem Accounts.claim (inv : Accounts s) {r : Nat} {request : Request} {entry : LogEntry}
    (found : s.requests[r]? = some request) (phase : request.phase = .planned)
    (fresh : entry ∉ s.received request.node) (unclaimed : s.claimants request.node entry = 0) :
    Accounts (s.setPhase r request (.proposed entry)) := by
  have none : ∀ other, request.phase.claims other = false := by
    rw [phase]
    exact not_claims rfl nofun
  have only : ∀ other, HandlerPhase.claims other (.proposed entry) = true ↔ entry = other := by
    intro other
    rw [claims_iff]
    simp [HandlerPhase.pending]
  have claimants : ∀ id other, (s.setPhase r request (.proposed entry)).claimants id other =
      s.claimants id other + if request.node = id ∧ entry = other then 1 else 0 := by
    intro id other
    have counted := claimants_setPhase found (.proposed entry) id other
    simpa only [none, only, Bool.false_eq_true, and_false, if_false, Nat.add_zero] using counted
  have served : ∀ id other, (s.setPhase r request (.proposed entry)).served id other =
      s.served id other := by
    intro id other
    have counted := served_setPhase found (.proposed entry) id other
    simpa only [phase, reduceCtorEq, and_false, if_false, Nat.add_zero] using counted
  refine ⟨inv.logs, inv.channel, inv.taken, inv.reached, fun id other => ?_, fun id other => ?_⟩
  · rw [claimants]
    split
    case isTrue is =>
      obtain ⟨rfl, rfl⟩ := is
      rw [unclaimed]
    case isFalse => exact inv.single id other
  · have before := inv.balance id other
    rw [looped] at before ⊢
    rw [served, claimants]
    by_cases is : request.node = id ∧ entry = other
    · obtain ⟨rfl, rfl⟩ := is
      rw [if_neg (fun taken => fresh taken.1)] at before ⊢
      exact before
    · rw [if_neg is, Nat.add_zero]
      exact before

/-- **A claim is given up** before the loop has taken the entry. -/
theorem Accounts.giveUp (inv : Accounts s) {r : Nat} {request : Request} {entry : LogEntry}
    (found : s.requests[r]? = some request) (phase : request.phase = .waiting entry)
    (fresh : entry ∉ s.received request.node) :
    Accounts (s.setPhase r request (.timedOut entry)) := by
  have only : ∀ other, request.phase.claims other = true ↔ entry = other := by
    intro other
    rw [claims_iff, phase]
    simp [HandlerPhase.pending]
  have claimants : ∀ id other, (s.setPhase r request (.timedOut entry)).claimants id other +
      (if request.node = id ∧ entry = other then 1 else 0) = s.claimants id other := by
    intro id other
    have counted := claimants_setPhase found (.timedOut entry) id other
    have none : HandlerPhase.claims other (.timedOut entry) = false :=
      not_claims rfl (fun _ is => by cases is) other
    simpa only [none, only, Bool.false_eq_true, and_false, if_false, Nat.add_zero] using counted
  have served : ∀ id other, (s.setPhase r request (.timedOut entry)).served id other =
      s.served id other := by
    intro id other
    have counted := served_setPhase found (.timedOut entry) id other
    simpa only [phase, reduceCtorEq, and_false, if_false, Nat.add_zero] using counted
  refine ⟨inv.logs, inv.channel, inv.taken, inv.reached, fun id other => ?_, fun id other => ?_⟩
  · have counted := claimants id other
    have single := inv.single id other
    omega
  · have before := inv.balance id other
    have counted := claimants id other
    rw [looped] at before ⊢
    rw [served]
    by_cases is : request.node = id ∧ entry = other
    · obtain ⟨rfl, rfl⟩ := is
      rw [if_neg (fun taken => fresh taken.1)] at before ⊢
      exact before
    · rw [if_neg is, Nat.add_zero] at counted
      rw [counted]
      exact before

/-- **A handler applies its entry.** -/
theorem Accounts.finish (inv : Accounts s) {r : Nat} {request : Request} {entry : LogEntry}
    (found : s.requests[r]? = some request) (phase : request.phase = .ready entry)
    (returns : request.op.Returns (s.servers request.node).store) :
    Accounts (s.finish r request entry) := by
  obtain ⟨revision, store, run, reached, -⟩ := request.op.run_returns (inv.reached request.node) returns
  rw [Deployment.finish, run]
  dsimp only
  have claims : ∀ other, HandlerPhase.claims other (.returned entry) = request.phase.claims other := by
    intro other
    rw [Bool.eq_iff_iff, claims_iff, claims_iff, phase]
    simp [HandlerPhase.pending]
  have claimants : ∀ id other, (s.setPhase r request (.returned entry)).claimants id other =
      s.claimants id other := by
    intro id other
    have counted := claimants_setPhase found (.returned entry) id other
    rw [claims] at counted
    exact Nat.add_right_cancel counted
  have served : ∀ id other, (s.setPhase r request (.returned entry)).served id other =
      s.served id other + if request.node = id ∧ entry = other then 1 else 0 := by
    intro id other
    have counted := served_setPhase found (.returned entry) id other
    simpa only [phase, reduceCtorEq, and_false, if_false, Nat.add_zero,
      HandlerPhase.returned.injEq] using counted
  refine inv.serve _ (inv.taken request.node) reached (fun id other ne => ?_) claimants fun other => ?_
  · refine (served id other).trans ?_
    rw [if_neg (fun is => ne is.1.symm), Nat.add_zero]
  · have before := inv.balance request.node other
    have counted := served request.node other
    rw [looped, received] at before
    rw [List.count_append, List.count_singleton, before]
    refine Eq.trans ?_ (congrArg (· + _) counted.symm)
    simp only [true_and, beq_iff_eq]
    omega

/-! ### The apply loop -/

/-- What a round of the loop leaves, if the call it makes returns. -/
theorem receive_returns {server : Server} (reached : Reached server.store) {isLeader : Bool}
    {entry : LogEntry}
    (returns : isLeader = false → ∀ op ∈ followerCommand entry.data, op.Returns server.store) :
    Reached (server.receive isLeader entry).store ∧
      (server.receive isLeader entry).received = server.received + 1 ∧
      (server.receive isLeader entry).applications =
        if entry.Mutates ∧ isLeader = false then server.applications ++ [entry]
        else server.applications := by
  rw [Server.receive]
  cases kind : entry.entryType with
  | configChange => exact ⟨reached, rfl, (if_neg (by simp [LogEntry.Mutates, kind])).symm⟩
  | snapshot => exact ⟨reached, rfl, (if_neg (by simp [LogEntry.Mutates, kind])).symm⟩
  | normal =>
    cases isLeader with
    | true => exact ⟨reached, rfl, (if_neg (by simp)).symm⟩
    | false =>
      cases command : followerCommand entry.data with
      | none => exact ⟨reached, rfl, (if_neg (by simp [LogEntry.Mutates, command])).symm⟩
      | some op =>
        obtain ⟨revision, store, run, next, -⟩ := op.run_returns reached (returns rfl op command)
        have mutates : entry.Mutates := ⟨kind, by rw [command]; rfl⟩
        simp only [Bool.false_eq_true, if_false, run]
        exact ⟨next, trivial, (if_pos ⟨mutates, trivial⟩).symm⟩

/-- The entry that the loop takes next is none of those it has taken. -/
theorem Accounts.not_received (inv : Accounts s) {id : Nat} {entry : LogEntry}
    (arrives : (s.raft id).applyTx[(s.servers id).received]? = some entry) :
    entry ∉ s.received id := by
  have index : ∀ (i : Nat) e, (s.raft id).applyTx[i]? = some e → e.index = i + 1 := by
    intro i e found
    rw [(inv.channel id).sent] at found
    have := (inv.channel id).holds.indexed.take _ i e found
    omega
  intro member
  obtain ⟨i, found⟩ := List.getElem?_of_mem member
  rw [received, List.getElem?_take] at found
  split at found
  case isTrue below =>
    have first := index i entry found
    have second := index _ entry arrives
    omega
  case isFalse => cases found

/-- **The loop takes an entry**: a leader, if and only if a handler claims it. -/
theorem Accounts.receive (inv : Accounts s) {id : Nat} {entry : LogEntry}
    (arrives : (s.raft id).applyTx[(s.servers id).received]? = some entry)
    (apart : entry.Mutates → ((s.raft id).state.isLeader = true ↔ 0 < s.claimants id entry))
    (returns : (s.raft id).state.isLeader = false → ∀ op ∈ followerCommand entry.data,
      op.Returns (s.servers id).store) :
    Accounts (s.setServer id ((s.servers id).receive (s.raft id).state.isLeader entry)) := by
  obtain ⟨reached, received, applications⟩ := receive_returns (inv.reached id) returns
  have short := (List.getElem?_eq_some_iff.mp arrives).1
  refine inv.serve s.requests (by rw [received]; exact short) reached (fun _ _ _ => rfl)
    (fun _ _ => rfl) fun other => ?_
  have before := inv.balance id other
  have isNew := inv.not_received arrives
  have taken : (s.raft id).applyTx.take ((s.servers id).received + 1) = s.received id ++ [entry] := by
    rw [List.take_add_one, arrives]
    rfl
  rw [looped] at before
  rw [received, taken, applications]
  show _ = s.served id other + _
  by_cases same : other = entry
  · subst same
    rw [if_neg (fun taken => isNew taken.1)] at before
    simp only [List.mem_append, List.mem_singleton, or_true, true_and]
    by_cases mutates : other.Mutates
    · have apart := apart mutates
      cases leads : (s.raft id).state.isLeader with
      | true =>
        rw [leads] at apart
        have claimed := apart.mp rfl
        rw [if_neg (by simp), if_neg (fun is => by omega)]
        exact before
      | false =>
        rw [leads] at apart
        have unclaimed : s.claimants id other = 0 := by
          by_contra some
          exact absurd (apart.mpr (Nat.pos_of_ne_zero some)) Bool.false_ne_true
        rw [if_pos ⟨mutates, rfl⟩, if_pos ⟨mutates, unclaimed⟩, List.count_append,
          List.count_singleton_self, before]
    · rw [if_neg (fun is => mutates is.1), if_neg (fun is => mutates is.1)]
      exact before
  · have count : (if entry.Mutates ∧ (s.raft id).state.isLeader = false then
        (s.servers id).applications ++ [entry] else (s.servers id).applications).count other =
        (s.servers id).applications.count other := by
      split
      · have other_ne : List.count other [entry] = 0 := List.count_eq_zero.mpr (by simpa using same)
        rw [List.count_append, other_ne, Nat.add_zero]
      · rfl
    simp only [count, List.mem_append, List.mem_singleton, same, or_false]
    exact before

/-! ### Every event that settles its entry keeps the balance -/

/-- **The condition.** The commit index of a node moves within its log and nothing below it is replaced;
no handler proposes an entry that another one of its node claims; no handler gives up an entry that the
loop has taken; the loop takes an entry on a leader if and only if a handler of the node claims it; and
the calls on the store return. -/
def Settles (s : Deployment) : Event → Prop
  | .raft action => s.cluster.CommitsWithin action
  | .propose r => ∀ request ∈ s.requests[r]?,
      s.claimants request.node (nextEntry (s.raft request.node) request.data) = 0
  | .timeout r => ∀ request ∈ s.requests[r]?, ∀ entry ∈ request.phase.entry,
      entry ∉ s.received request.node
  | .finish r => ∀ request ∈ s.requests[r]?, request.op.Returns (s.servers request.node).store
  | .receive id => ∀ entry ∈ (s.raft id).applyTx[(s.servers id).received]?,
      (entry.Mutates → ((s.raft id).state.isLeader = true ↔ 0 < s.claimants id entry)) ∧
      ((s.raft id).state.isLeader = false → ∀ op ∈ followerCommand entry.data,
        op.Returns (s.servers id).store)
  | .write id _ => (s.servers id).store.currentRevision + 1 < 2 ^ 63
  | _ => True

/-- The entry that a node proposes next is not among those its loop has taken. -/
theorem Accounts.nextEntry_not_received (inv : Accounts s) (id : Nat) (data : Bytes) :
    nextEntry (s.raft id) data ∉ s.received id := by
  intro member
  have sent := List.mem_of_mem_take member
  rw [(inv.channel id).sent] at sent
  obtain ⟨i, found⟩ := List.getElem?_of_mem (List.mem_of_mem_take sent)
  have index := (inv.channel id).holds.indexed i _ found
  have short := (List.getElem?_eq_some_iff.mp found).1
  have last := (inv.channel id).holds.last
  rw [nextEntry] at index
  dsimp only at index
  omega

theorem Accounts.step (inv : Accounts s) {event : Event} (moves : s.step event = some next)
    (settles : Settles s event) : Accounts next := by
  cases step_moves moves with
  | raft steps =>
    exact inv.cluster (inv.logs.step steps)
      (fun id => (Cluster.step_node steps id).channel inv.logs settles (inv.channel id))
      fun id => (Cluster.step_node steps id).sends
  | call data op => exact inv.planned _ data op
  | refuse found phase =>
    refine inv.goesOn found (by rw [phase]; rfl) (fun entry => ?_) fun entry is => by cases is
    rw [phase]
    exact nofun
  | @propose r request cluster found phase steps =>
    have claimed := inv.claim found phase (inv.nextEntry_not_received _ _) (settles request found)
    exact claimed.cluster (inv.logs.step steps)
      (fun id => (Cluster.step_node steps id).channel inv.logs trivial (inv.channel id))
      fun id => (Cluster.step_node steps id).sends
  | below found phase =>
    refine inv.goesOn found (by rw [phase]; rfl) (fun entry => ?_) fun entry is => by cases is
    rw [phase]
    exact nofun
  | reached found phase reached =>
    refine inv.goesOn found (by rw [phase]; rfl) (fun entry => ?_) fun entry is => by cases is
    rw [phase]
    exact nofun
  | @register r request entry found phase =>
    have waits : Accounts (s.setPhase r request (.waiting entry)) := by
      refine inv.goesOn found (by rw [phase]; rfl) (fun entry => ?_) fun entry is => by cases is
      rw [phase]
      exact nofun
    have rafts := s.withWaiter_raft request.node entry.index r
    refine waits.cluster (inv.logs.of_same (fun id => (rafts id).1.1) rfl) (fun id => ?_) fun id =>
      ⟨[], (rafts id).1.2.2.trans (List.append_nil _).symm⟩
    obtain ⟨log, state, applyTx⟩ := (rafts id).1
    exact (inv.channel id).of_same log (congrArg _ state) (congrArg _ state) applyTx
  | wake found phase woken =>
    refine inv.goesOn found (by rw [phase]; rfl) (fun entry => ?_) fun entry is => by cases is
    rw [phase]
    exact nofun
  | @timeout r request entry found phase =>
    exact inv.giveUp found phase (settles request found entry (by rw [phase]; rfl))
  | @finish r request entry found phase => exact inv.finish found phase (settles request found)
  | receive arrives running =>
    obtain ⟨apart, returns⟩ := settles _ arrives
    exact inv.receive arrives apart returns
  | @write id op => exact inv.setStore id (op.reached_run (inv.reached id) settles)

/-! ### Over a whole run -/

/-- **The entry is applied once.** The channel carries it once the node has sent its index; it is never
applied twice; and it has been applied when the loop has taken it and no handler of the node has its
request under way. -/
def AppliedOnce (s : Deployment) (id : Nat) (entry : LogEntry) : Prop :=
  (entry.index ≤ (s.raft id).state.lastApplied → entry ∈ (s.raft id).applyTx) ∧
  (s.servers id).applications.count entry ≤ 1 ∧
  (entry ∈ s.received id →
    (∀ request ∈ s.requests, request.node = id → request.phase.pending ≠ some entry) →
    (s.servers id).applications.count entry = 1)

/-- The handlers that claim an entry, when none is under way. -/
theorem claimants_of_none_pending {id : Nat} {entry : LogEntry}
    (none : ∀ request ∈ s.requests, request.node = id → request.phase.pending ≠ some entry) :
    s.claimants id entry = s.served id entry := by
  refine List.countP_congr fun request member => ?_
  by_cases here : request.node = id
  · simp only [here, decide_true, Bool.true_and, decide_eq_true_eq, claims_iff,
      none request member here, false_or]
  · simp only [here, decide_false, Bool.false_and]

theorem served_le_claimants (s : Deployment) (id : Nat) (entry : LogEntry) :
    s.served id entry ≤ s.claimants id entry := by
  refine List.countP_mono_left fun request _ holds => ?_
  simp only [Bool.and_eq_true, decide_eq_true_eq] at holds ⊢
  exact ⟨holds.1, claims_iff.mpr (.inr holds.2)⟩

/-- **Exactly once.** In a run whose events all settle their entries, every committed `PUT` or `DELETE`
is applied once. -/
theorem applied_exactly_once (config : ClusterConfig) (events : List Event) (s : Deployment)
    (runs : run config events = some s) (settles : Along step Settles (start config) events)
    (id index : Nat) (entry : LogEntry) (found : (s.raft id).log.get index = some entry)
    (_committed : index ≤ (s.raft id).state.commitIndex) (mutates : entry.Mutates) :
    s.AppliedOnce id entry := by
  have keeps : ∀ s event next, step s event = some next → Settles s event → Accounts s →
      Accounts next := fun _ _ _ moves settles inv => inv.step moves settles
  have inv : Accounts s := run_invariant keeps (Accounts.start config) settles runs
  have balance := inv.balance id entry
  have single := inv.single id entry
  have atMost := s.served_le_claimants id entry
  refine ⟨fun applied => ?_, ?_, fun taken ended => ?_⟩
  · have holds := (inv.channel id).holds
    have positive := holds.positive_of_get found
    rw [holds.get_eq positive] at found
    have place := holds.indexed _ entry found
    rw [(inv.channel id).sent]
    refine List.mem_of_getElem? (i := index - 1) ?_
    rw [List.getElem?_take_of_lt (by omega)]
    exact found
  · rw [balance, looped]
    split <;> omega
  · have same := claimants_of_none_pending ended
    rw [balance, looped]
    by_cases claimed : s.claimants id entry = 0
    · rw [if_pos ⟨taken, mutates, claimed⟩]
      omega
    · rw [if_neg fun is => claimed is.2.2]
      omega

/-! ### A leader that steps down between the two paths -/

/-- Whether an event settles its entry can be checked. -/
instance (s : Deployment) : DecidablePred (Settles s)
  | .raft (.deliverAppend id) => inferInstanceAs (Decidable (∀ call ∈ s.cluster.appendCalls id,
      (s.cluster.raft id.peer).Accepts call.request →
        ∀ entry ∈ (s.cluster.raft id.peer).entries.take (s.cluster.raft id.peer).state.commitIndex,
          call.request.Keeps entry))
  | .raft (.appendReply id reply) => inferInstanceAs (Decidable (∀ call ∈ s.cluster.appendCalls id,
      ∀ response ∈ call.replies[reply]?,
        (RaftNode.noteAppendReply (s.cluster.raft id.owner).state id.peer response).majorityMatchIndex
          (s.cluster.raft id.owner).peerIds call.leaderLastIndex ≤
            (s.cluster.raft id.owner).log.lastIndex))
  | .raft (.electionTimeout _) => .isTrue trivial
  | .raft (.deliverVote _) => .isTrue trivial
  | .raft (.voteReply _ _) => .isTrue trivial
  | .raft (.voteError _) => .isTrue trivial
  | .raft (.countVote _) => .isTrue trivial
  | .raft (.endCampaign _) => .isTrue trivial
  | .raft (.heartbeat _) => .isTrue trivial
  | .raft (.propose _ _ _) => .isTrue trivial
  | .raft (.apply _) => .isTrue trivial
  | .call _ _ => .isTrue trivial
  | .propose r => inferInstanceAs (Decidable (∀ request ∈ s.requests[r]?,
      s.claimants request.node (nextEntry (s.raft request.node) request.data) = 0))
  | .check _ => .isTrue trivial
  | .register _ => .isTrue trivial
  | .wake _ => .isTrue trivial
  | .timeout r => inferInstanceAs (Decidable (∀ request ∈ s.requests[r]?,
      ∀ entry ∈ request.phase.entry, entry ∉ s.received request.node))
  | .finish r => inferInstanceAs (Decidable (∀ request ∈ s.requests[r]?,
      request.op.Returns (s.servers request.node).store))
  | .receive id => inferInstanceAs (Decidable (∀ entry ∈ (s.raft id).applyTx[(s.servers id).received]?,
      (entry.Mutates → ((s.raft id).state.isLeader = true ↔ 0 < s.claimants id entry)) ∧
      ((s.raft id).state.isLeader = false → ∀ op ∈ followerCommand entry.data,
        op.Returns (s.servers id).store)))
  | .write id _ => inferInstanceAs (Decidable ((s.servers id).store.currentRevision + 1 < 2 ^ 63))

/-- The entry of the `put` of `x`. -/
def entryX : LogEntry := ⟨1, 2, putProposal [97] [120], .normal⟩

/-- The `put` of `x` returns, its entry is on the apply channel, and node 1 steps down for a pre-vote of
node 2 before its loop takes the entry. -/
def steppedDown : List Event :=
  replicatedPut.append [.finish 0, .raft (.apply 1), .raft (.electionTimeout 2),
    .raft (.deliverVote ⟨2, 0, 1⟩), .receive 1]

/-- **An entry applied by both paths.** -/
theorem stepped_down_applied_twice :
    (run Cluster.threeNodes steppedDown).map (fun s =>
        ((s.raft 1).log.get 1, (s.raft 1).state.commitIndex, (s.servers 1).applications)) =
      some (some entryX, 1, [entryX, entryX]) := by
  decide +kernel

/-- The `put` of `x` returns on node 1, which skips the entry, and the loop of node 2 applies it. -/
def bothPaths : List Event :=
  replicatedPut.append [.finish 0, .raft (.apply 1), .receive 1, .raft (.heartbeat 1),
    .raft (.deliverAppend ⟨1, 2, 2⟩), .raft (.apply 2), .receive 2]

theorem both_paths_applied_once :
    (run Cluster.threeNodes bothPaths).map (fun s =>
        ((s.servers 1).applications, (s.servers 2).applications)) = some ([entryX], [entryX]) ∧
      ∃ s, run Cluster.threeNodes bothPaths = some s ∧ s.AppliedOnce 1 entryX ∧
        s.AppliedOnce 2 entryX := by
  have ends : (run Cluster.threeNodes bothPaths).map (fun s =>
      (((s.raft 1).log.get 1, (s.raft 1).state.commitIndex),
        ((s.raft 2).log.get 1, (s.raft 2).state.commitIndex))) =
      some ((some entryX, 1), (some entryX, 1)) := by
    decide +kernel
  obtain ⟨s, runs, logs⟩ := Option.map_eq_some_iff.mp ends
  obtain ⟨⟨first, firstCommit⟩, second, secondCommit⟩ :=
    And.imp Prod.ext_iff.mp Prod.ext_iff.mp (Prod.ext_iff.mp logs)
  have settles : Along step Settles (start Cluster.threeNodes) bothPaths := by decide +kernel
  have mutates : entryX.Mutates := by decide +kernel
  exact ⟨by decide +kernel, s, runs,
    applied_exactly_once _ bothPaths s runs settles 1 1 entryX first firstCommit.ge mutates,
    applied_exactly_once _ bothPaths s runs settles 2 1 entryX second secondCommit.ge mutates⟩

end Deployment

end Rusd
