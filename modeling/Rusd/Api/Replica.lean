/-
**A leader and a follower over one log.**

A stable leader serves requests one after another; a follower that started from the same store runs
its apply loop over the entries the leader proposed. Both count a revision for each call on the
store. They part in two ways. Transactions and the deletions of a lease revocation are not proposed,
and an entry whose interval the follower reads as inverted ends its apply loop, once its store has
held a key: `BTreeMap::range` panics and the task is gone.

* `Advances` — what a handler does to the leader apart from proposing: a number of store calls.
* `serve_step` — one request: the follower makes at most as many calls as the leader, and as many
  exactly when the request logs its writes and the apply loop is there to read them.
* `Level` — the two stores have both held a key, or neither has; what keeps up stays level.
* `revisions_agree_iff` — over a whole run.
-/

import Rusd.Api.RoundTrip

namespace Rusd

open MvccStore

/-! ### The run of the leader and of the follower -/

/-- The requests of a run. -/
inductive ServiceRequest
  | put (request : PutRequest)
  | deleteRange (request : DeleteRangeRequest)
  | txn (request : TxnRequest)
  | leaseGrant (ttl clock : Int)
  | leaseRevoke (id : Int)
  deriving DecidableEq, Repr

/-- Run a handler and drop its response. -/
def ServiceRequest.serve : ServiceRequest → ServiceM Unit
  | .put request => do
    let _ ← servePut request
    pure ()
  | .deleteRange request => do
    let _ ← serveDeleteRange request
    pure ()
  | .txn request => do
    let _ ← serveTxn request
    pure ()
  | .leaseGrant ttl clock => do
    let _ ← serveLeaseGrant ttl clock
    pure ()
  | .leaseRevoke id => serveLeaseRevoke id

/-- The leader after a request; a handler that panics takes only its own task with it. -/
def Leader.serve (leader : Leader) (request : ServiceRequest) : Leader :=
  (request.serve.run leader).2

def Leader.serveAll (leader : Leader) (requests : List ServiceRequest) : Leader :=
  requests.foldl Leader.serve leader

/-- A follower: its store, and whether its apply loop still runs. -/
structure Follower where
  store : MvccStore
  applying : Bool

/-- The apply loop receives the data of a committed `Normal` entry. -/
def Follower.apply (follower : Follower) (data : Bytes) : Follower :=
  if follower.applying then
    match followerCommand data with
    | none => follower
    | some op =>
      let done := op.run.run follower.store
      match done.1 with
      | .panic => ⟨done.2, false⟩
      | .ok _ => ⟨done.2, true⟩
      | .err _ => ⟨done.2, true⟩
  else follower

def Follower.applyAll (follower : Follower) (entries : List Bytes) : Follower :=
  entries.foldl Follower.apply follower

/-! ### Which requests the follower can follow -/

/-- The operation reaches its call on the store; `held` says whether the store has held a key. -/
def RequestOp.writes (held : Bool) : RequestOp → Bool
  | .requestPut _ => true
  | .requestDeleteRange request =>
    !request.prevKv || KeyIndex.Accepts held request.key (txnRangeEnd request.key request.rangeEnd)
  | .requestRange _ => false
  | .requestTxn => false

/-- The transaction goes on after the operation. -/
def RequestOp.proceeds (held : Bool) : RequestOp → Bool
  | .requestPut _ => true
  | .requestDeleteRange request =>
    KeyIndex.Accepts held request.key (txnRangeEnd request.key request.rangeEnd)
  | .requestRange request =>
    KeyIndex.Accepts held request.key (txnRangeEnd request.key request.rangeEnd)
  | .requestTxn => false

/-- Some operation of the list reaches a call that writes the store. -/
def reachesWrite (held : Bool) : List (Option RequestOp) → Bool
  | [] => false
  | none :: rest => reachesWrite held rest
  | some op :: rest => op.writes held || (op.proceeds held && reachesWrite held rest)

/-- The operations a transaction selects. -/
def selectedOps (leader : Leader) (request : TxnRequest) : List (Option RequestOp) :=
  match ((evaluateAll leader.store.currentRevision request.compare).run leader).1 with
  | .ok true => request.success
  | .ok false => request.failure
  | .err _ => []
  | .panic => []

/-- The request writes the store only after proposing. -/
def LogsItsWrites (leader : Leader) : ServiceRequest → Prop
  | .put _ => True
  | .deleteRange _ => True
  | .txn request => reachesWrite leader.store.keyIndex.held (selectedOps leader request) = false
  | .leaseGrant _ _ => True
  | .leaseRevoke id => id = 0 ∨ (leader.leases.leaseKeys id).getD [] = []

/-- The request is a write that reaches its proposal. -/
def ServiceRequest.mutates (held : Bool) : ServiceRequest → Bool
  | .put request => request.key ≠ []
  | .deleteRange request => ¬ (request.key = [] ∧ request.rangeEnd = []) ∧
      (request.prevKv → KeyIndex.Accepts held request.key
        (effectiveRangeEnd request.key request.rangeEnd))
  | .txn _ => false
  | .leaseGrant _ _ => false
  | .leaseRevoke _ => false

/-- The follower reads an inverted interval from the entry. -/
def invertedCommand (data : Bytes) : Bool :=
  match followerCommand data with
  | some (.deleteRange start stop) => ¬ KeyIndex.ValidRange start stop
  | some (.put _ _ _) => false
  | none => false

/-- The entry of the request ends the apply loop of a follower. -/
def ServiceRequest.inverts (held : Bool) (request : ServiceRequest) : Bool :=
  match request with
  | .deleteRange r =>
    request.mutates held && (held && invertedCommand (deleteProposal r.key r.rangeEnd))
  | .put _ => false
  | .txn _ => false
  | .leaseGrant _ _ => false
  | .leaseRevoke _ => false

/-- A run in which every request logs its writes, and no write follows an entry that ended the
apply loop. -/
def Followable (applying : Bool) (leader : Leader) : List ServiceRequest → Prop
  | [] => True
  | request :: rest =>
    LogsItsWrites leader request ∧
      (request.mutates leader.store.keyIndex.held = true → applying = true) ∧
      Followable (applying && !request.inverts leader.store.keyIndex.held) (leader.serve request) rest

/-- The most revisions a request can allocate. -/
def ServiceRequest.weight (leader : Leader) : ServiceRequest → Nat
  | .put _ => 1
  | .deleteRange _ => 1
  | .txn request => request.success.length + request.failure.length
  | .leaseGrant _ _ => 0
  | .leaseRevoke id => ((leader.leases.leaseKeys id).getD []).length

/-- The revision counter of the leader has room for the run. -/
def HasRoom (leader : Leader) : List ServiceRequest → Prop
  | [] => True
  | request :: rest => leader.store.currentRevision + request.weight leader < 2 ^ 63 ∧
      HasRoom (leader.serve request) rest

/-! ### Store calls of a handler -/

/-- The leader made `calls` calls on its store, and changed nothing else. -/
structure Advances (leader leader' : Leader) (calls : Nat) : Prop where
  proposals : leader'.proposals = leader.proposals
  leases : leader'.leases = leader.leases
  reached : Reached leader'.store
  counter : leader'.store.currentRevision = leader.store.currentRevision + calls
  idle : calls = 0 → leader'.store = leader.store

namespace Advances

theorem refl {leader : Leader} (reached : Reached leader.store) : Advances leader leader 0 :=
  ⟨rfl, rfl, reached, by simp, fun _ => rfl⟩

theorem trans {a b c : Leader} {m n : Nat} (first : Advances a b m) (second : Advances b c n) :
    Advances a c (m + n) :=
  ⟨second.proposals.trans first.proposals, second.leases.trans first.leases, second.reached,
    by rw [second.counter, first.counter]; push_cast; ring,
    fun none => (second.idle (Nat.eq_zero_of_add_eq_zero_left none)).trans
      (first.idle (Nat.eq_zero_of_add_eq_zero_right none))⟩

end Advances

variable {leader : Leader}

/-- A `put` of the handler on a reached store. -/
theorem onStore_put (leader : Leader) (reached : Reached leader.store)
    (room : leader.store.currentRevision + 1 < 2 ^ 63) (key value : Bytes) (lease : Int)
    (failure : String) :
    ∃ result leader', (onStore (MvccStore.put key value lease) failure).run leader =
        (.ok result, leader') ∧ Advances leader leader' 1 ∧ leader'.store.keyIndex.held = true := by
  obtain ⟨kv, prevKv, returned, -⟩ := (Sound.of_reached reached).put_run room key value lease
  have next := reached.put room key value lease
  rw [returned] at next
  exact ⟨(leader.store.currentRevision + 1, kv, prevKv), { leader with store := leader.store.afterPut kv },
    by simp only [onStore, returned], ⟨rfl, rfl, next, rfl, fun none => absurd none one_ne_zero⟩,
    KeyIndex.held_put _ _ _⟩

/-- A `delete_range` of the handler on a reached store: it allocates a revision, and returns if the
index takes the interval. -/
theorem onStore_deleteRange (leader : Leader) (reached : Reached leader.store)
    (room : leader.store.currentRevision + 1 < 2 ^ 63) (start stop : Bytes) (failure : String) :
    ∃ o leader', (onStore (MvccStore.deleteRange start stop) failure).run leader = (o, leader') ∧
      Advances leader leader' 1 ∧ leader'.store.keyIndex.held = leader.store.keyIndex.held ∧
      if KeyIndex.Accepts leader.store.keyIndex.held start stop then ∃ result, o = .ok result
        else o = .panic := by
  have next := reached.deleteRange room start stop
  have held := MvccStore.held_deleteRange leader.store start stop
  by_cases accepts : KeyIndex.Accepts leader.store.keyIndex.held start stop
  · obtain ⟨result, s', returned, counter⟩ :=
      (Sound.of_reached reached).deleteRange_returns room accepts
    rw [returned] at next held
    exact ⟨.ok result, { leader with store := s' }, by simp only [onStore, returned],
      ⟨rfl, rfl, next, counter, fun none => absurd none one_ne_zero⟩, held,
      by rw [if_pos accepts]; exact ⟨result, rfl⟩⟩
  · have panics := MvccStore.deleteRange_refused room accepts
    rw [panics] at next
    exact ⟨.panic, { leader with store :=
        { leader.store with currentRevision := leader.store.currentRevision + 1 } },
      by simp only [onStore, panics], ⟨rfl, rfl, next, rfl, fun none => absurd none one_ne_zero⟩, rfl,
      by rw [if_neg accepts]⟩

/-- A read of the handler returns if the index takes the interval. -/
theorem onRead_range (reached : Reached leader.store) (start stop : Bytes) (revision : MvccStore → Int)
    (failure : String) :
    ∃ o, (onRead (fun s => s.range start stop (revision s) 0 false) failure).run leader =
        (o, leader) ∧
      if KeyIndex.Accepts leader.store.keyIndex.held start stop then ∃ result, o = .ok result
        else o = .panic := by
  by_cases accepts : KeyIndex.Accepts leader.store.keyIndex.held start stop
  · obtain ⟨kvs, more, read⟩ := (Sound.of_reached reached).range_count accepts
      (revision leader.store) 0
    exact ⟨.ok ⟨kvs, more, _⟩, by simp only [onRead, read]; rfl,
      by rw [if_pos accepts]; exact ⟨_, rfl⟩⟩
  · have read := leader.store.range_refused accepts (revision leader.store) 0 false
    exact ⟨.panic, by simp only [onRead, read], by rw [if_neg accepts]⟩

/-- The previous values: nothing happens if they are not wanted. -/
theorem previousKvs_run (reached : Reached leader.store) (wanted : Bool) (start stop : Bytes)
    (revision : MvccStore → Int) (failure : String) :
    ∃ o, (previousKvs wanted start stop revision failure).run leader = (o, leader) ∧
      if wanted = true → KeyIndex.Accepts leader.store.keyIndex.held start stop then ∃ kvs, o = .ok kvs
        else o = .panic := by
  cases wanted with
  | false => exact ⟨_, rfl, by simp⟩
  | true =>
    obtain ⟨o, read, outcome⟩ := onRead_range reached start stop revision failure
    rw [previousKvs, if_pos rfl]
    by_cases accepts : KeyIndex.Accepts leader.store.keyIndex.held start stop
    · rw [if_pos accepts] at outcome
      obtain ⟨result, rfl⟩ := outcome
      rw [Exec.run_bind_ok read]
      exact ⟨_, rfl, by simp [accepts]⟩
    · rw [if_neg accepts] at outcome
      subst outcome
      rw [Exec.run_bind_panic read]
      exact ⟨_, rfl, by simp [accepts]⟩

/-! ### Calls that returned -/

/-- A read that returned left the leader as it was. -/
theorem onRead_eq_ok {α : Type} {read : MvccStore → Outcome StorageError α} {failure : String} {a : α}
    {leader' : Leader} (returned : (onRead read failure).run leader = (.ok a, leader')) :
    read leader.store = .ok a ∧ leader = leader' := by
  rcases answer : read leader.store with value | e | _ <;> simp only [onRead, answer] at returned <;>
    cases returned
  exact ⟨rfl, rfl⟩

/-- A call that returned changed the store alone. -/
theorem onStore_eq_ok {α : Type} {call : StoreM α} {failure : String} {a : α} {leader' : Leader}
    (returned : (onStore call failure).run leader = (.ok a, leader')) :
    ∃ s, call.run leader.store = (.ok a, s) ∧ { leader with store := s } = leader' := by
  rcases ran : call.run leader.store with ⟨value | e | _, s⟩ <;> simp only [onStore, ran] at returned <;>
    cases returned
  exact ⟨s, rfl, rfl⟩

/-- The read of the previous values left the leader as it was. -/
theorem previousKvs_eq_ok {wanted : Bool} {start stop : Bytes} {revision : MvccStore → Int}
    {failure : String} {kvs : List KeyValue} {leader' : Leader}
    (returned : (previousKvs wanted start stop revision failure).run leader = (.ok kvs, leader')) :
    leader = leader' := by
  unfold previousKvs at returned
  split_ifs at returned
  · obtain ⟨result, middle, read, rest⟩ := Exec.run_bind_eq_ok returned
    cases rest
    exact (onRead_eq_ok read).2
  · cases returned
    rfl

/-! ### Transactions -/

/-- **One operation of a transaction.** -/
theorem executeOp_run (reached : Reached leader.store)
    (room : leader.store.currentRevision + 1 < 2 ^ 63) (revision : Int) (op : RequestOp) :
    ∃ o leader', (executeOp revision op).run leader = (o, leader') ∧
      Advances leader leader' (if op.writes leader.store.keyIndex.held then 1 else 0) ∧
      (op.proceeds leader.store.keyIndex.held = true → ∃ response, o = .ok response) ∧
      (op.proceeds leader.store.keyIndex.held = false → ∀ response, o ≠ .ok response) := by
  cases op with
  | requestRange request =>
    obtain ⟨o, read, outcome⟩ := onRead_range reached request.key
      (txnRangeEnd request.key request.rangeEnd) (fun _ => revision) "range in txn failed: "
    rw [executeOp]
    by_cases accepts : KeyIndex.Accepts leader.store.keyIndex.held request.key
        (txnRangeEnd request.key request.rangeEnd)
    · rw [if_pos accepts] at outcome
      obtain ⟨result, rfl⟩ := outcome
      rw [Exec.run_bind_ok read]
      exact ⟨_, leader, rfl, Advances.refl reached, fun _ => ⟨_, rfl⟩,
        by simp [RequestOp.proceeds, accepts]⟩
    · rw [if_neg accepts] at outcome
      subst outcome
      rw [Exec.run_bind_panic read]
      exact ⟨_, leader, rfl, Advances.refl reached, by simp [RequestOp.proceeds, accepts],
        by simp⟩
  | requestPut request =>
    obtain ⟨result, leader', put, advances, -⟩ := onStore_put leader reached room request.key
      request.value request.lease "put in txn failed: "
    rw [executeOp, Exec.run_bind_ok put]
    exact ⟨_, leader', rfl, advances, fun _ => ⟨_, rfl⟩, by simp [RequestOp.proceeds]⟩
  | requestDeleteRange request =>
    obtain ⟨o, read, outcome⟩ := previousKvs_run reached request.prevKv request.key
      (txnRangeEnd request.key request.rangeEnd) (fun _ => revision) "delete in txn failed: "
    obtain ⟨o', leader', deleted, advances, -, outcome'⟩ := onStore_deleteRange leader reached room
      request.key (txnRangeEnd request.key request.rangeEnd) "delete in txn failed: "
    rw [executeOp]
    dsimp only
    by_cases accepts : KeyIndex.Accepts leader.store.keyIndex.held request.key
        (txnRangeEnd request.key request.rangeEnd)
    · rw [if_pos fun _ => accepts] at outcome
      rw [if_pos accepts] at outcome'
      obtain ⟨kvs, rfl⟩ := outcome
      obtain ⟨result, rfl⟩ := outcome'
      rw [Exec.run_bind_ok read, Exec.run_bind_ok deleted]
      exact ⟨_, leader', rfl, by simpa [RequestOp.writes, accepts] using advances,
        fun _ => ⟨_, rfl⟩, by simp [RequestOp.proceeds, accepts]⟩
    · rw [if_neg accepts] at outcome'
      subst outcome'
      cases wanted : request.prevKv with
      | true =>
        rw [wanted, if_neg (by simpa using accepts)] at outcome
        subst outcome
        rw [wanted] at read
        rw [Exec.run_bind_panic read]
        exact ⟨_, leader, rfl,
          by simpa [RequestOp.writes, wanted, accepts] using Advances.refl reached,
          by simp [RequestOp.proceeds, accepts], by simp⟩
      | false =>
        rw [wanted, if_pos (by simp)] at outcome
        obtain ⟨kvs, rfl⟩ := outcome
        rw [wanted] at read
        rw [Exec.run_bind_ok read, Exec.run_bind_panic deleted]
        exact ⟨_, leader', rfl, by simpa [RequestOp.writes, wanted] using advances,
          by simp [RequestOp.proceeds, accepts], by simp⟩
  | requestTxn =>
    exact ⟨_, leader, rfl, Advances.refl reached, by simp [RequestOp.proceeds], by simp⟩

/-- **The operations of a transaction** allocate a revision each, and none exactly when no write is
reached. -/
theorem executeOps_run (reached : Reached leader.store) (ops : List (Option RequestOp))
    (room : leader.store.currentRevision + ops.length < 2 ^ 63) (revision : Int) :
    ∃ calls, Advances leader ((executeOps revision ops).run leader).2 calls ∧
      calls ≤ ops.length ∧ (calls = 0 ↔ reachesWrite leader.store.keyIndex.held ops = false) := by
  induction ops generalizing leader with
  | nil => exact ⟨0, Advances.refl reached, le_rfl, by simp [reachesWrite]⟩
  | cons op rest ih =>
    rw [List.length_cons] at room ⊢
    push_cast at room
    cases op with
    | none =>
      obtain ⟨calls, advances, few, zero⟩ := ih reached (by omega)
      exact ⟨calls, advances, by omega, zero⟩
    | some op =>
      obtain ⟨o, leader', run, advances, goes, stops⟩ :=
        executeOp_run reached (by omega) revision op
      have small : (if op.writes leader.store.keyIndex.held then 1 else 0) ≤ 1 := by
        split_ifs <;> simp
      rw [executeOps, reachesWrite]
      cases proceeds : op.proceeds leader.store.keyIndex.held with
      | true =>
        obtain ⟨response, rfl⟩ := goes proceeds
        rw [Exec.run_bind_ok run]
        obtain ⟨calls, more, few, zero⟩ := ih advances.reached
          (by rw [advances.counter]; push_cast; split_ifs <;> omega)
        have state : ((executeOps revision rest >>= fun responses =>
            pure (response :: responses) : ServiceM (List ResponseOp)).run leader').2 =
            ((executeOps revision rest).run leader').2 := Exec.state_bind_pure _ _ _
        refine ⟨(if op.writes leader.store.keyIndex.held then 1 else 0) + calls, ?_, by omega, ?_⟩
        · rw [state]
          exact advances.trans more
        · -- an operation that does not write leaves the store, and so `held`, as it was
          cases writes : op.writes leader.store.keyIndex.held with
          | true => simp
          | false =>
            rw [writes] at advances
            rw [advances.idle (if_neg Bool.false_ne_true)] at zero
            simp [zero]
      | false =>
        have state : ((executeOp revision op >>= fun response => executeOps revision rest >>=
            fun responses => pure (response :: responses) : ServiceM (List ResponseOp)).run
            leader).2 = leader' := Exec.state_bind_stop run (stops proceeds)
        refine ⟨if op.writes leader.store.keyIndex.held then 1 else 0, ?_, by omega, ?_⟩
        · rw [state]
          exact advances
        · cases op.writes leader.store.keyIndex.held <;> simp

/-! ### What a request does to the leader -/

/-- The leader proposed `new` and made `calls` calls on its store. -/
structure Served (leader leader' : Leader) (new : List Bytes) (calls : Nat) : Prop where
  proposals : leader'.proposals = leader.proposals ++ new
  reached : Reached leader'.store
  counter : leader'.store.currentRevision = leader.store.currentRevision + calls
  idle : calls = 0 → leader'.store = leader.store

theorem Advances.served {leader' : Leader} {calls : Nat} (advances : Advances leader leader' calls) :
    Served leader leader' [] calls :=
  ⟨by rw [advances.proposals, List.append_nil], advances.reached, advances.counter, advances.idle⟩

/-- Store calls after a proposal. -/
theorem Advances.served_propose {leader' : Leader} {data : Bytes} {calls : Nat}
    (advances : Advances { leader with proposals := leader.proposals ++ [data] } leader' calls) :
    Served leader leader' [data] calls :=
  ⟨advances.proposals, advances.reached, advances.counter, advances.idle⟩

theorem propose_run (data : Bytes) :
    (propose data).run leader = (.ok (), { leader with proposals := leader.proposals ++ [data] }) :=
  rfl

/-- The state after a handler is the state its last call left. -/
theorem serve_eq {α : Type} (handler : ServiceM α) :
    ((handler >>= fun _ => pure () : ServiceM Unit).run leader).2 = (handler.run leader).2 :=
  Exec.state_bind_pure handler (fun _ => ()) leader

theorem served_put (reached : Reached leader.store)
    (room : leader.store.currentRevision + 1 < 2 ^ 63) {request : PutRequest}
    (nonempty : request.key ≠ []) :
    Served leader (leader.serve (.put request))
        [putProposal request.key (storedValue leader.store request)] 1 ∧
      (leader.serve (.put request)).store.keyIndex.held = true := by
  have planned := planPut_run (Sound.of_reached reached) nonempty
  obtain ⟨result, leader', put, advances, held⟩ := onStore_put
    { leader with proposals :=
      leader.proposals ++ [putProposal request.key (storedValue leader.store request)] }
    reached room request.key (storedValue leader.store request) (storedLease leader.store request)
    "put failed: "
  have state : leader.serve (.put request) = leader' := by
    rw [Leader.serve, ServiceRequest.serve, serve_eq, servePut, Exec.run_bind_ok planned,
      Exec.run_bind_ok put]
    rfl
  rw [state]
  exact ⟨advances.served_propose, held⟩

theorem served_put_refused (reached : Reached leader.store) {request : PutRequest}
    (empty : request.key = []) : Served leader (leader.serve (.put request)) [] 0 := by
  have state : leader.serve (.put request) = leader := by
    rw [Leader.serve, ServiceRequest.serve, serve_eq, servePut, planPut, if_pos empty]
    rfl
  rw [state]
  exact (Advances.refl reached).served

theorem served_deleteRange (reached : Reached leader.store)
    (room : leader.store.currentRevision + 1 < 2 ^ 63) {request : DeleteRangeRequest}
    (mutates : (ServiceRequest.deleteRange request).mutates leader.store.keyIndex.held = true) :
    Served leader (leader.serve (.deleteRange request))
        [deleteProposal request.key request.rangeEnd] 1 ∧
      (leader.serve (.deleteRange request)).store.keyIndex.held = leader.store.keyIndex.held := by
  simp only [ServiceRequest.mutates, decide_eq_true_eq] at mutates
  obtain ⟨accepted, readable⟩ := mutates
  obtain ⟨o, read, outcome⟩ := previousKvs_run reached request.prevKv request.key
    (effectiveRangeEnd request.key request.rangeEnd) (fun s => s.currentRevision)
    "failed to get previous values: "
  rw [if_pos readable] at outcome
  obtain ⟨kvs, rfl⟩ := outcome
  obtain ⟨o', leader', deleted, advances, held, -⟩ := onStore_deleteRange
    { leader with proposals :=
      leader.proposals ++ [deleteProposal request.key request.rangeEnd] }
    reached room request.key (effectiveRangeEnd request.key request.rangeEnd) "delete failed: "
  have state : leader.serve (.deleteRange request) = leader' := by
    rw [Leader.serve, ServiceRequest.serve, serve_eq, serveDeleteRange, if_neg accepted]
    dsimp only
    rw [Exec.run_bind_ok read, Exec.run_bind_ok (propose_run _)]
    rcases o' with result | e | _
    · rw [Exec.run_bind_ok deleted]
      rfl
    · rw [Exec.run_bind_err deleted]
    · rw [Exec.run_bind_panic deleted]
  rw [state]
  exact ⟨advances.served_propose, held⟩

theorem served_deleteRange_refused (reached : Reached leader.store) {request : DeleteRangeRequest}
    (refused : (ServiceRequest.deleteRange request).mutates leader.store.keyIndex.held = false) :
    Served leader (leader.serve (.deleteRange request)) [] 0 := by
  simp only [ServiceRequest.mutates, decide_eq_false_iff_not] at refused
  have state : leader.serve (.deleteRange request) = leader := by
    rw [Leader.serve, ServiceRequest.serve, serve_eq, serveDeleteRange]
    by_cases empty : request.key = [] ∧ request.rangeEnd = []
    · rw [if_pos empty]
      rfl
    · rw [if_neg empty]
      obtain ⟨o, read, outcome⟩ := previousKvs_run reached request.prevKv request.key
        (effectiveRangeEnd request.key request.rangeEnd) (fun s => s.currentRevision)
        "failed to get previous values: "
      rw [if_neg fun readable => refused ⟨empty, readable⟩] at outcome
      subst outcome
      dsimp only
      rw [Exec.run_bind_panic read]
  rw [state]
  exact (Advances.refl reached).served

theorem evaluateAll_run (reached : Reached leader.store) (revision : Int) (compares : List Compare) :
    ∃ holds, (evaluateAll revision compares).run leader = (.ok holds, leader) := by
  induction compares with
  | nil => exact ⟨true, rfl⟩
  | cons cmp rest ih =>
    obtain ⟨kv, found⟩ := (Sound.of_reached reached).lookupKey_returns cmp.key fun _ => revision
    have evaluated : (evaluateCompare cmp revision).run leader = (.ok (cmp.holds kv), leader) := by
      have read : (onReadOk (lookupKey cmp.key fun _ => revision)).run leader =
          (.ok (some kv), leader) := by
        simp only [onReadOk, found]
      rw [evaluateCompare, Exec.run_bind_ok read]
      rfl
    rw [evaluateAll, Exec.run_bind_ok evaluated]
    cases cmp.holds kv with
    | true => exact ih
    | false => exact ⟨false, rfl⟩

theorem served_txn (reached : Reached leader.store) {request : TxnRequest}
    (room : leader.store.currentRevision + (request.success.length + request.failure.length : Nat) <
      2 ^ 63) :
    ∃ calls, Served leader (leader.serve (.txn request)) [] calls ∧
      (calls = 0 ↔ reachesWrite leader.store.keyIndex.held (selectedOps leader request) = false) := by
  obtain ⟨holds, evaluated⟩ := evaluateAll_run reached leader.store.currentRevision request.compare
  have selected : selectedOps leader request = if holds then request.success else request.failure := by
    rw [selectedOps, evaluated]
    cases holds <;> rfl
  have short : (selectedOps leader request).length ≤
      request.success.length + request.failure.length := by
    rw [selected]
    split_ifs <;> omega
  obtain ⟨calls, advances, _, zero⟩ := executeOps_run reached
    (selectedOps leader request) (by omega) leader.store.currentRevision
  have header : headerRevision.run leader = (.ok leader.store.currentRevision, leader) := rfl
  have state : leader.serve (.txn request) =
      ((executeOps leader.store.currentRevision (selectedOps leader request)).run leader).2 := by
    rw [Leader.serve, ServiceRequest.serve, serve_eq, serveTxn, Exec.run_bind_ok header,
      Exec.run_bind_ok evaluated, ← selected]
    rcases done : (executeOps leader.store.currentRevision (selectedOps leader request)).run leader
      with ⟨responses | e | _, leader'⟩
    · rw [Exec.run_bind_ok done]
      rfl
    · rw [Exec.run_bind_err done]
    · rw [Exec.run_bind_panic done]
  exact ⟨calls, by rw [state]; exact advances.served, zero⟩

/-- The deletion of attached keys allocates a revision for the first of them at least. -/
theorem deleteAttached_run (leader : Leader) (reached : Reached leader.store) (keys : List Bytes)
    (room : leader.store.currentRevision + keys.length < 2 ^ 63) :
    ∃ calls, Advances leader ((deleteAttached keys).run leader).2 calls ∧
      calls ≤ keys.length ∧ (calls = 0 ↔ keys = []) := by
  induction keys generalizing leader with
  | nil => exact ⟨0, Advances.refl reached, le_rfl, by simp⟩
  | cons key rest ih =>
    rw [List.length_cons] at room ⊢
    push_cast at room
    obtain ⟨o, leader', deleted, advances, -, outcome⟩ :=
      onStore_deleteRange leader reached (by omega) key (leaseEndKey key) ""
    rw [deleteAttached]
    by_cases accepts : KeyIndex.Accepts leader.store.keyIndex.held key (leaseEndKey key)
    · rw [if_pos accepts] at outcome
      obtain ⟨result, rfl⟩ := outcome
      have recovered : (Exec.recover (onStore (MvccStore.deleteRange key (leaseEndKey key)) "")).run
          leader = (.ok (), leader') := by
        simp only [Exec.recover, deleted]
      rw [Exec.run_bind_ok recovered]
      obtain ⟨calls, more, few, _⟩ := ih leader' advances.reached
        (by rw [advances.counter]; push_cast; omega)
      exact ⟨1 + calls, advances.trans more, by omega, by simp⟩
    · rw [if_neg accepts] at outcome
      subst outcome
      have recovered : (Exec.recover (onStore (MvccStore.deleteRange key (leaseEndKey key)) "")).run
          leader = (.panic, leader') := by
        simp only [Exec.recover, deleted]
      rw [Exec.run_bind_panic recovered]
      exact ⟨1, advances, by omega, by simp⟩

/-- A text that starts with another letter is no command of the store. -/
theorem followerCommand_eq_none {b : Byte} (small : b < 0x80) (notPut : b ≠ 80) (notDelete : b ≠ 68)
    (rest : Bytes) : followerCommand (b :: rest) = none := by
  have put : stripFront putTag (b :: lossy rest) = none := by
    rw [stripFront, if_neg]
    exact fun front => notPut (List.cons_prefix_cons.mp front).1.symm
  have delete : stripFront deleteTag (b :: lossy rest) = none := by
    rw [stripFront, if_neg]
    exact fun front => notDelete (List.cons_prefix_cons.mp front).1.symm
  unfold followerCommand
  simp only [lossy_cons_ascii small, put, delete]

theorem followerCommand_grantProposal (id ttl : Int) :
    followerCommand (grantProposal id ttl) = none :=
  followerCommand_eq_none (b := 71) (by decide) (by decide) (by decide) _

theorem followerCommand_revokeProposal (id : Int) : followerCommand (revokeProposal id) = none :=
  followerCommand_eq_none (b := 82) (by decide) (by decide) (by decide) _

theorem served_leaseGrant (reached : Reached leader.store) (ttl clock : Int) :
    ∃ new, Served leader (leader.serve (.leaseGrant ttl clock)) new 0 ∧
      ∀ data ∈ new, followerCommand data = none := by
  have store : ∃ new leases, leader.serve (.leaseGrant ttl clock) =
      ⟨leader.store, leases, leader.proposals ++ new⟩ ∧
        ∀ data ∈ new, followerCommand data = none := by
    rw [Leader.serve, ServiceRequest.serve, serve_eq, serveLeaseGrant]
    by_cases refused : ttl ≤ 0
    · rw [if_pos refused]
      exact ⟨[], leader.leases, by simp, by simp⟩
    · rw [if_neg refused, Exec.run_bind_ok (propose_run _), Exec.run_bind_ok (Exec.run_read _ _),
        Exec.run_bind_ok (Exec.run_update _ _)]
      refine ⟨[grantProposal clock ttl], (leader.leases.grant clock ttl).2, ?_, ?_⟩
      · cases (leader.leases.grant clock ttl).1 <;> rfl
      · intro data member
        rw [List.mem_singleton.mp member]
        exact followerCommand_grantProposal clock ttl
  obtain ⟨new, leases, state, silent⟩ := store
  rw [state]
  exact ⟨new, ⟨rfl, reached, by simp, fun _ => rfl⟩, silent⟩

theorem served_leaseRevoke (reached : Reached leader.store) {id : Int}
    (room : leader.store.currentRevision + (((leader.leases.leaseKeys id).getD []).length : Nat) <
      2 ^ 63) :
    ∃ new calls, Served leader (leader.serve (.leaseRevoke id)) new calls ∧
      (∀ data ∈ new, followerCommand data = none) ∧
      (calls = 0 ↔ id = 0 ∨ (leader.leases.leaseKeys id).getD [] = []) := by
  rw [Leader.serve, ServiceRequest.serve, serveLeaseRevoke]
  by_cases zero : id = 0
  · rw [if_pos zero]
    exact ⟨[], 0, (Advances.refl reached).served, by simp, by simp [zero]⟩
  · have silent : ∀ data ∈ [revokeProposal id], followerCommand data = none := by
      intro data member
      rw [List.mem_singleton.mp member]
      exact followerCommand_revokeProposal id
    rw [if_neg zero, Exec.run_bind_ok (propose_run _), Exec.run_bind_ok (Exec.run_read _ _),
      Exec.run_bind_ok (Exec.run_update _ _)]
    cases found : leader.leases.leaseKeys id with
    | none =>
      simp only [LeaseManager.revoke, found]
      exact ⟨[revokeProposal id], 0, ⟨rfl, reached, by simp, fun _ => rfl⟩, silent, by simp⟩
    | some keys =>
      rw [found] at room
      simp only [LeaseManager.revoke, found]
      obtain ⟨calls, advances, _, none⟩ := deleteAttached_run
        ⟨leader.store, ⟨fun other => if other = id then none else leader.leases.leaseKeys other,
          leader.leases.nextLeaseId⟩, leader.proposals ++ [revokeProposal id]⟩ reached keys room
      exact ⟨[revokeProposal id], calls,
        ⟨advances.proposals, advances.reached, advances.counter, advances.idle⟩, silent,
        by simp [none, zero]⟩

/-! ### What an entry does to the follower -/

/-- The call returns: the counter has room, and the index takes the interval. -/
def StoreOp.Returns (s : MvccStore) : StoreOp → Prop
  | .put _ _ _ => s.currentRevision + 1 < 2 ^ 63
  | .deleteRange start stop =>
    s.currentRevision + 1 < 2 ^ 63 ∧ KeyIndex.Accepts s.keyIndex.held start stop

instance (s : MvccStore) : (op : StoreOp) → Decidable (op.Returns s)
  | .put _ _ _ => inferInstanceAs (Decidable (s.currentRevision + 1 < 2 ^ 63))
  | .deleteRange start stop => inferInstanceAs
    (Decidable (s.currentRevision + 1 < 2 ^ 63 ∧ KeyIndex.Accepts s.keyIndex.held start stop))

/-- **A call that returns** allocates one revision. -/
theorem StoreOp.run_returns {s : MvccStore} {op : StoreOp} (reached : Reached s)
    (returns : op.Returns s) :
    ∃ revision s', op.run.run s = (.ok revision, s') ∧ Reached s' ∧
      s'.currentRevision = s.currentRevision + 1 := by
  cases op with
  | put key value lease =>
    obtain ⟨result, s', returned, counter⟩ :=
      (Sound.of_reached reached).put_returns returns key value lease
    have next := reached.put returns key value lease
    rw [returned] at next
    refine ⟨result.1, s', ?_, next, counter⟩
    rw [StoreOp.run, Exec.run_bind_ok returned]
    rfl
  | deleteRange start stop =>
    obtain ⟨room, accepts⟩ := returns
    obtain ⟨result, s', returned, counter⟩ :=
      (Sound.of_reached reached).deleteRange_returns room accepts
    have next := reached.deleteRange room start stop
    rw [returned] at next
    refine ⟨result.1, s', ?_, next, counter⟩
    rw [StoreOp.run, Exec.run_bind_ok returned]
    rfl

/-- An interval that the index refuses costs a revision and ends the task of the caller. -/
theorem StoreOp.run_refused {s : MvccStore} {start stop : Bytes}
    (room : s.currentRevision + 1 < 2 ^ 63)
    (refused : ¬ KeyIndex.Accepts s.keyIndex.held start stop) :
    (StoreOp.deleteRange start stop).run.run s =
      (.panic, { s with currentRevision := s.currentRevision + 1 }) := by
  rw [StoreOp.run, Exec.run_bind_panic (MvccStore.deleteRange_refused room refused)]

/-- Every call leaves a reached store. -/
theorem StoreOp.reached_run {s : MvccStore} (op : StoreOp) (reached : Reached s)
    (room : s.currentRevision + 1 < 2 ^ 63) : Reached (op.run.run s).2 := by
  by_cases returns : op.Returns s
  · obtain ⟨revision, s', run, next, -⟩ := op.run_returns reached returns
    rw [run]
    exact next
  · cases op with
    | put key value lease => exact absurd room returns
    | deleteRange start stop =>
      have refused : ¬ KeyIndex.Accepts s.keyIndex.held start stop :=
        fun accepts => returns ⟨room, accepts⟩
      have next := reached.deleteRange room start stop
      rw [MvccStore.deleteRange_refused room refused] at next
      rw [StoreOp.run_refused room refused]
      exact next

/-- What a call leaves has held a key if it put one, or if the store had held one. -/
theorem StoreOp.held_run {s : MvccStore} (op : StoreOp) (reached : Reached s)
    (room : s.currentRevision + 1 < 2 ^ 63) :
    (op.run.run s).2.keyIndex.held = op.holds s.keyIndex.held := by
  cases op with
  | put key value lease =>
    obtain ⟨kv, prevKv, returned, -⟩ := (Sound.of_reached reached).put_run room key value lease
    rw [StoreOp.run, Exec.run_bind_ok returned]
    exact KeyIndex.held_put _ _ _
  | deleteRange start stop =>
    rw [StoreOp.state_deleteRange]
    exact MvccStore.held_deleteRange s start stop

namespace Follower

variable {follower : Follower}

theorem apply_silent {data : Bytes} (silent : followerCommand data = none) :
    follower.apply data = follower := by
  unfold apply
  simp only [silent, ite_self]

theorem applyAll_silent {entries : List Bytes}
    (silent : ∀ data ∈ entries, followerCommand data = none) :
    follower.applyAll entries = follower := by
  induction entries with
  | nil => rfl
  | cons data rest ih =>
    rw [applyAll, List.foldl_cons, apply_silent (silent data List.mem_cons_self)]
    exact ih fun data member => silent data (List.mem_cons_of_mem _ member)

theorem applyAll_append (follower : Follower) (first later : List Bytes) :
    follower.applyAll (first ++ later) = (follower.applyAll first).applyAll later :=
  List.foldl_append

/-- A dead loop applies nothing. -/
theorem apply_dead {data : Bytes} (dead : follower.applying = false) :
    follower.apply data = follower := by
  rw [apply, dead, if_neg Bool.false_ne_true]

/-- **An entry with a command** costs the follower one revision; an inverted interval ends its
loop, once its store has held a key. -/
theorem apply_command (reached : Reached follower.store)
    (room : follower.store.currentRevision + 1 < 2 ^ 63) (alive : follower.applying = true)
    {data : Bytes} {op : StoreOp} (command : followerCommand data = some op) :
    Reached (follower.apply data).store ∧
      (follower.apply data).store.currentRevision = follower.store.currentRevision + 1 ∧
      (follower.apply data).applying = !(follower.store.keyIndex.held && invertedCommand data) ∧
      (follower.apply data).store.keyIndex.held = op.holds follower.store.keyIndex.held := by
  rw [apply, if_pos alive, command]
  dsimp only
  rw [invertedCommand, command]
  have next := op.reached_run reached room
  have held := op.held_run reached room
  by_cases returns : op.Returns follower.store
  · obtain ⟨revision, s', run, -, counter⟩ := op.run_returns reached returns
    rw [run] at next held ⊢
    refine ⟨next, counter, ?_, held⟩
    cases op with
    | put key value lease => simp
    | deleteRange start stop =>
      rcases returns.2 with never | valid
      · simp [never]
      · simp [valid]
  · cases op with
    | put key value lease => exact absurd room returns
    | deleteRange start stop =>
      have refused : ¬ KeyIndex.Accepts follower.store.keyIndex.held start stop :=
        fun accepts => returns ⟨room, accepts⟩
      obtain ⟨has, inverted⟩ := KeyIndex.Accepts.of_not refused
      rw [StoreOp.run_refused room refused] at next ⊢
      exact ⟨next, rfl, by simp [has, inverted], rfl⟩

end Follower

/-! ### One request -/

/-- Both stores have held a key, or neither has. -/
def Level (leader : Leader) (follower : Follower) : Prop :=
  follower.store.keyIndex.held = leader.store.keyIndex.held

/-- The follower after the entries of one request, beside the leader after the request. -/
structure Stepped (leader leader' : Leader) (follower follower' : Follower) (request : ServiceRequest) :
    Prop where
  leaderReached : Reached leader'.store
  followerReached : Reached follower'.store
  behind : follower'.store.currentRevision ≤ leader'.store.currentRevision
  agree : follower'.store.currentRevision = leader'.store.currentRevision ↔
    follower.store.currentRevision = leader.store.currentRevision ∧ LogsItsWrites leader request ∧
      (request.mutates leader.store.keyIndex.held = true → follower.applying = true)
  applying : Level leader follower →
    follower'.applying = (follower.applying && !request.inverts leader.store.keyIndex.held)
  level : Level leader follower → LogsItsWrites leader request →
    (request.mutates leader.store.keyIndex.held = true → follower.applying = true) → Level leader' follower'

variable {follower : Follower}

/-- A request that proposes one write: the follower keeps up if its loop is alive. -/
theorem stepped_write {request : ServiceRequest} {data : Bytes} {op : StoreOp}
    (reached : Reached follower.store)
    (behind : follower.store.currentRevision ≤ leader.store.currentRevision)
    (room : leader.store.currentRevision + 1 < 2 ^ 63)
    (served : Served leader (leader.serve request) [data] 1)
    (held : (leader.serve request).store.keyIndex.held = op.holds leader.store.keyIndex.held)
    (command : followerCommand data = some op)
    (mutates : request.mutates leader.store.keyIndex.held = true)
    (logs : LogsItsWrites leader request)
    (inverts : request.inverts leader.store.keyIndex.held =
      (leader.store.keyIndex.held && invertedCommand data)) :
    Stepped leader (leader.serve request) follower (follower.applyAll [data]) request := by
  have counter := served.counter
  push_cast at counter
  show Stepped leader (leader.serve request) follower (follower.apply data) request
  cases alive : follower.applying with
  | true =>
    obtain ⟨next, step, applying, holds⟩ := Follower.apply_command reached (by omega) alive command
    refine ⟨served.reached, next, by omega, ?_, fun level => ?_, fun level _ _ => ?_⟩
    · rw [step, counter]
      exact ⟨fun same => ⟨by omega, logs, fun _ => alive⟩, fun same => by omega⟩
    · rw [applying, inverts, alive, Bool.true_and, level]
    · rw [Level, holds, held, level]
  | false =>
    rw [Follower.apply_dead alive]
    refine ⟨served.reached, reached, by omega, ?_, fun _ => by rw [alive, Bool.false_and],
      fun _ _ must => ?_⟩
    · refine ⟨fun same => by omega, fun ⟨_, _, must⟩ => ?_⟩
      rw [alive] at must
      cases must mutates
    · rw [alive] at must
      cases must mutates

/-- A request that proposes no write. -/
theorem stepped_silent {request : ServiceRequest} {new : List Bytes} {calls : Nat}
    (reached : Reached follower.store)
    (behind : follower.store.currentRevision ≤ leader.store.currentRevision)
    (served : Served leader (leader.serve request) new calls)
    (silent : ∀ data ∈ new, followerCommand data = none)
    (idle : request.mutates leader.store.keyIndex.held = false)
    (inverts : request.inverts leader.store.keyIndex.held = false)
    (zero : calls = 0 ↔ LogsItsWrites leader request) :
    Stepped leader (leader.serve request) follower (follower.applyAll new) request := by
  have counter := served.counter
  rw [Follower.applyAll_silent silent]
  refine ⟨served.reached, reached, by omega, ?_,
    fun _ => by rw [inverts, Bool.not_false, Bool.and_true], fun level logs _ => ?_⟩
  · rw [← zero, counter]
    refine ⟨fun same => ⟨by omega, by omega, fun must => ?_⟩, fun both => by
      obtain ⟨same, zero, _⟩ := both
      omega⟩
    rw [idle] at must
    cases must
  · rw [Level, served.idle (zero.mpr logs)]
    exact level

/-- **One request.** -/
theorem serve_step (leaderReached : Reached leader.store) (reached : Reached follower.store)
    (behind : follower.store.currentRevision ≤ leader.store.currentRevision)
    (request : ServiceRequest)
    (room : leader.store.currentRevision + request.weight leader < 2 ^ 63) :
    ∃ new, (leader.serve request).proposals = leader.proposals ++ new ∧
      Stepped leader (leader.serve request) follower (follower.applyAll new) request := by
  cases request with
  | put r =>
    by_cases empty : r.key = []
    · have served := served_put_refused leaderReached empty
      exact ⟨[], served.proposals, stepped_silent reached behind served (by simp)
        (by simp [ServiceRequest.mutates, empty]) rfl (by simp [LogsItsWrites])⟩
    · obtain ⟨served, held⟩ := served_put leaderReached (by simpa [ServiceRequest.weight] using room) empty
      obtain ⟨front, rest, split⟩ := splitOnce_proposal r.key (storedValue leader.store r)
      have command := followerCommand_putProposal r.key (storedValue leader.store r)
      rw [split] at command
      refine ⟨_, served.proposals, stepped_write reached behind
        (by simpa [ServiceRequest.weight] using room) served (by rw [held, StoreOp.holds]) command
        (by simp [ServiceRequest.mutates, empty]) trivial ?_⟩
      rw [invertedCommand, command]
      exact (Bool.and_false _).symm
  | deleteRange r =>
    cases mutates : (ServiceRequest.deleteRange r).mutates leader.store.keyIndex.held with
    | false =>
      have served := served_deleteRange_refused leaderReached mutates
      exact ⟨[], served.proposals, stepped_silent reached behind served (by simp) mutates
        (by simp [ServiceRequest.inverts, mutates]) (by simp [LogsItsWrites])⟩
    | true =>
      obtain ⟨served, held⟩ := served_deleteRange leaderReached
        (by simpa [ServiceRequest.weight] using room) mutates
      obtain ⟨front, rest, split⟩ := splitOnce_proposal r.key r.rangeEnd
      have command := followerCommand_deleteProposal r.key r.rangeEnd
      rw [split] at command
      exact ⟨_, served.proposals, stepped_write reached behind
        (by simpa [ServiceRequest.weight] using room) served (by rw [held, StoreOp.holds]) command mutates
        trivial
        (by simp [ServiceRequest.inverts, mutates])⟩
  | txn r =>
    obtain ⟨calls, served, zero⟩ := served_txn leaderReached room
    exact ⟨[], served.proposals, stepped_silent reached behind served (by simp) rfl rfl zero⟩
  | leaseGrant ttl clock =>
    obtain ⟨new, served, silent⟩ := served_leaseGrant leaderReached ttl clock
    exact ⟨new, served.proposals, stepped_silent reached behind served silent rfl rfl
      (by simp [LogsItsWrites])⟩
  | leaseRevoke id =>
    obtain ⟨new, calls, served, silent, zero⟩ := served_leaseRevoke leaderReached room
    exact ⟨new, served.proposals, stepped_silent reached behind served silent rfl rfl zero⟩

/-! ### A whole run -/

/-- The follower makes at most as many calls as the leader; once it has made fewer, it stays behind. -/
theorem serveAll_behind (leader : Leader) (follower : Follower) (leaderReached : Reached leader.store)
    (reached : Reached follower.store)
    (behind : follower.store.currentRevision ≤ leader.store.currentRevision)
    {requests : List ServiceRequest} (room : HasRoom leader requests) :
    ∃ new, (leader.serveAll requests).proposals = leader.proposals ++ new ∧
      (follower.applyAll new).store.currentRevision ≤
        (leader.serveAll requests).store.currentRevision ∧
      ((follower.applyAll new).store.currentRevision =
          (leader.serveAll requests).store.currentRevision →
        follower.store.currentRevision = leader.store.currentRevision) := by
  induction requests generalizing leader follower with
  | nil => exact ⟨[], by simp [Leader.serveAll], behind, fun same => same⟩
  | cons request rest ih =>
    obtain ⟨roomy, room⟩ := room
    obtain ⟨first, proposals, step⟩ := serve_step leaderReached reached behind request roomy
    obtain ⟨later, proposals', behind', back⟩ :=
      ih _ _ step.leaderReached step.followerReached step.behind room
    refine ⟨first ++ later, ?_, ?_, fun same => ?_⟩
    · rw [Leader.serveAll, List.foldl_cons, ← Leader.serveAll, proposals', proposals,
        List.append_assoc]
    · rw [Follower.applyAll_append]
      exact behind'
    · rw [Follower.applyAll_append] at same
      exact (step.agree.mp (back same)).1

/-- **A whole run** from level stores. -/
theorem serveAll_run (leader : Leader) (follower : Follower) (leaderReached : Reached leader.store)
    (reached : Reached follower.store) (level : Level leader follower)
    (behind : follower.store.currentRevision ≤ leader.store.currentRevision)
    {requests : List ServiceRequest} (room : HasRoom leader requests) :
    ∃ new, (leader.serveAll requests).proposals = leader.proposals ++ new ∧
      ((follower.applyAll new).store.currentRevision =
          (leader.serveAll requests).store.currentRevision ↔
        follower.store.currentRevision = leader.store.currentRevision ∧
          Followable follower.applying leader requests) := by
  induction requests generalizing leader follower with
  | nil => exact ⟨[], by simp [Leader.serveAll], by simp [Leader.serveAll, Followable,
      Follower.applyAll]⟩
  | cons request rest ih =>
    obtain ⟨roomy, room⟩ := room
    obtain ⟨first, proposals, step⟩ := serve_step leaderReached reached behind request roomy
    by_cases follows : LogsItsWrites leader request ∧
        (request.mutates leader.store.keyIndex.held = true → follower.applying = true)
    · obtain ⟨later, proposals', agree⟩ := ih _ _ step.leaderReached step.followerReached
        (step.level level follows.1 follows.2) step.behind room
      refine ⟨first ++ later, ?_, ?_⟩
      · rw [Leader.serveAll, List.foldl_cons, ← Leader.serveAll, proposals', proposals,
          List.append_assoc]
      · rw [Follower.applyAll_append]
        refine agree.trans ?_
        rw [step.agree, step.applying level, Followable]
        tauto
    · -- the follower misses a call here, and stays behind
      obtain ⟨later, proposals', -, back⟩ := serveAll_behind _ _ step.leaderReached step.followerReached
        step.behind room
      refine ⟨first ++ later, ?_, ?_⟩
      · rw [Leader.serveAll, List.foldl_cons, ← Leader.serveAll, proposals', proposals,
          List.append_assoc]
      · rw [Follower.applyAll_append]
        refine iff_of_false (fun same => follows (step.agree.mp (back same)).2) ?_
        rintro ⟨-, logs, must, -⟩
        exact follows ⟨logs, must⟩

/-- **When leader and follower agree on the revision.** For every run of requests from a reached
store, served by a stable leader whose counter has room, a follower that started from the same store
and applied every entry of the run has the leader's revision exactly if the run is followable: no
transaction reached a write, no revoked lease had keys, and no write came after an entry that ended
the follower's apply loop: one that reads as an inverted interval, when the store has held a key. -/
theorem revisions_agree_iff (store : MvccStore) (reached : Reached store) (leases : LeaseManager)
    (requests : List ServiceRequest) (room : HasRoom ⟨store, leases, []⟩ requests) :
    (Follower.applyAll ⟨store, true⟩
        (Leader.serveAll ⟨store, leases, []⟩ requests).proposals).store.currentRevision =
        (Leader.serveAll ⟨store, leases, []⟩ requests).store.currentRevision ↔
      Followable true ⟨store, leases, []⟩ requests := by
  obtain ⟨new, proposals, agree⟩ := serveAll_run ⟨store, leases, []⟩ ⟨store, true⟩
    reached reached rfl le_rfl room
  rw [proposals, List.nil_append]
  exact agree.trans (and_iff_right rfl)

/-- **A transaction is not replicated**: after one `put` inside a transaction the leader is at
revision 2, and the follower, which got no entry, at 1. -/
theorem txn_write_not_replicated :
    (freshLeader.serveAll
        [.txn ⟨[], [some (.requestPut ⟨[97], [49], 0, false, false, false⟩)], []⟩]).store.currentRevision
        = 2 ∧
      (freshLeader.serveAll
        [.txn ⟨[], [some (.requestPut ⟨[97], [49], 0, false, false, false⟩)], []⟩]).proposals = [] ∧
      (Follower.applyAll ⟨freshLeader.store, true⟩ (freshLeader.serveAll
        [.txn ⟨[], [some (.requestPut ⟨[97], [49], 0, false, false, false⟩)], []⟩]).proposals
        ).store.currentRevision = 1 := by
  decide +kernel

/-- A `put` and a `delete_range` of one key are followed. -/
theorem put_delete_replicated :
    (Follower.applyAll ⟨MvccStore.new .empty, true⟩ (Leader.serveAll
        ⟨MvccStore.new .empty, ⟨fun _ => none, 1⟩, []⟩
        [.put ⟨[97], [49], 0, false, false, false⟩, .deleteRange ⟨[97], [], false⟩]).proposals
        ).store.currentRevision =
      (Leader.serveAll ⟨MvccStore.new .empty, ⟨fun _ => none, 1⟩, []⟩
        [.put ⟨[97], [49], 0, false, false, false⟩,
          .deleteRange ⟨[97], [], false⟩]).store.currentRevision := by
  refine (revisions_agree_iff (MvccStore.new .empty) Reached.fresh ⟨fun _ => none, 1⟩ _ ?_).mpr ?_
  · exact ⟨by decide, by decide +kernel, trivial⟩
  · exact ⟨trivial, fun _ => rfl, trivial, fun _ => rfl, trivial⟩

end Rusd
