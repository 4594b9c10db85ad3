/-
**Leases and the keys written under them.**

A record names the lease it was written under; the lease manager keeps, for each lease, the keys
attached to it, and `lease_revoke` deletes these. Nothing attaches a key: `LeaseManager::attach` is
called by no handler. So a revocation finds no key to delete.

* `NoneAttached` — no lease has a key; every request keeps it.
* `revoke_removes_keys_iff` — a revocation that returned leaves the store as it was, so after it no
  key carries the lease exactly when none did before.
-/

import Rusd.Api.Replica

namespace Rusd

/-- A live key carries the lease. -/
def Leader.Carries (leader : Leader) (lease : Int) : Prop :=
  ∃ key data kv, leader.store.backend.get .kv key = some data ∧
    KeyValue.decode key data = .ok kv ∧ kv.lease = lease

/-- The leader when it starts: `LeaseManager::new` knows no lease. -/
def Leader.start (store : MvccStore) : Leader := ⟨store, ⟨fun _ => none, 1⟩, []⟩

/-- No lease has a key attached. -/
def NoneAttached (leader : Leader) : Prop :=
  ∀ id keys, leader.leases.leaseKeys id = some keys → keys = []

namespace NoneAttached

open Exec

theorem start (store : MvccStore) : NoneAttached (Leader.start store) := by
  intro id keys found
  cases found

/-! ### The handlers -/

theorem onStore {α : Type} (call : StoreM α) (failure : String) :
    Keeps NoneAttached (onStore call failure) := by
  intro leader none
  dsimp only [Rusd.onStore]
  cases (call.run leader.store).1 <;> exact none

theorem onRead {α : Type} (read : MvccStore → Outcome StorageError α) (failure : String) :
    Keeps NoneAttached (onRead read failure) := by
  intro leader none
  dsimp only [Rusd.onRead]
  cases read leader.store <;> exact none

theorem onReadOk {α : Type} (read : MvccStore → Outcome StorageError α) :
    Keeps NoneAttached (onReadOk read) := by
  intro leader none
  dsimp only [Rusd.onReadOk]
  cases read leader.store <;> exact none

theorem propose (data : Bytes) : Keeps NoneAttached (propose data) := Keeps.update fun _ none => none

theorem planPut (request : PutRequest) : Keeps NoneAttached (planPut request) := by
  have value : Keeps NoneAttached (effectiveValue request) := by
    unfold effectiveValue
    split_ifs
    · exact (onReadOk _).bind fun _ => Keeps.pure _
    · exact Keeps.pure _
  have lease : Keeps NoneAttached (effectiveLease request) := by
    unfold effectiveLease
    split_ifs
    · exact (onReadOk _).bind fun _ => Keeps.pure _
    · exact Keeps.pure _
  unfold Rusd.planPut
  split_ifs
  · exact Keeps.throw _
  · exact value.bind fun _ => lease.bind fun _ => (propose _).bind fun _ => Keeps.pure _

theorem servePut (request : PutRequest) : Keeps NoneAttached (servePut request) :=
  (planPut request).bind fun _ => (onStore _ _).bind fun _ => (Keeps.read _).bind fun _ => Keeps.pure _

theorem previousKvs (wanted : Bool) (key stop : Bytes) (revision : MvccStore → Int) (failure : String) :
    Keeps NoneAttached (previousKvs wanted key stop revision failure) := by
  unfold Rusd.previousKvs
  split_ifs
  · exact (onRead _ _).bind fun _ => Keeps.pure _
  · exact Keeps.pure _

theorem serveDeleteRange (request : DeleteRangeRequest) :
    Keeps NoneAttached (serveDeleteRange request) := by
  unfold Rusd.serveDeleteRange
  split_ifs
  · exact Keeps.throw _
  · exact (previousKvs _ _ _ _ _).bind fun _ => (propose _).bind fun _ => (onStore _ _).bind fun _ =>
      (Keeps.read _).bind fun _ => Keeps.pure _

theorem evaluateAll (revision : Int) (compares : List Compare) :
    Keeps NoneAttached (evaluateAll revision compares) := by
  induction compares with
  | nil => exact Keeps.pure _
  | cons cmp rest ih =>
    refine Keeps.bind ((onReadOk _).bind fun _ => Keeps.pure _) fun holds => ?_
    cases holds
    · exact Keeps.pure _
    · exact ih

theorem executeOp (revision : Int) (op : RequestOp) : Keeps NoneAttached (executeOp revision op) := by
  cases op with
  | requestRange request => exact (onRead _ _).bind fun _ => (Keeps.read _).bind fun _ => Keeps.pure _
  | requestPut request => exact (onStore _ _).bind fun _ => (Keeps.read _).bind fun _ => Keeps.pure _
  | requestDeleteRange request =>
    exact (previousKvs _ _ _ _ _).bind fun _ => (onStore _ _).bind fun _ =>
      (Keeps.read _).bind fun _ => Keeps.pure _
  | requestTxn => exact Keeps.throw _

theorem executeOps (revision : Int) (ops : List (Option RequestOp)) :
    Keeps NoneAttached (executeOps revision ops) := by
  induction ops with
  | nil => exact Keeps.pure _
  | cons op rest ih =>
    cases op with
    | none => exact ih
    | some op => exact (executeOp revision op).bind fun _ => ih.bind fun _ => Keeps.pure _

theorem serveTxn (request : TxnRequest) : Keeps NoneAttached (serveTxn request) :=
  (Keeps.read _).bind fun _ => (evaluateAll _ _).bind fun _ => (executeOps _ _).bind fun _ =>
    (Keeps.read _).bind fun _ => Keeps.pure _

theorem grant {leader : Leader} (none : NoneAttached leader) (id ttl : Int) :
    NoneAttached { leader with leases := (leader.leases.grant id ttl).2 } := by
  intro other keys found
  dsimp only [LeaseManager.grant] at found
  by_cases refused : ttl ≤ 0
  · rw [if_pos refused] at found
    exact none other keys found
  · rw [if_neg refused] at found
    by_cases exists_ : (leader.leases.leaseKeys (if id = 0 then leader.leases.nextLeaseId else id)).isSome
    · rw [if_pos exists_] at found
      exact none other keys found
    · rw [if_neg exists_] at found
      dsimp only at found
      by_cases granted : other = if id = 0 then leader.leases.nextLeaseId else id
      · rw [if_pos granted] at found
        exact (Option.some.inj found).symm
      · rw [if_neg granted] at found
        exact none other keys found

theorem revoke {leader : Leader} (none : NoneAttached leader) (id : Int) :
    NoneAttached { leader with leases := (leader.leases.revoke id).2 } := by
  unfold LeaseManager.revoke
  cases leader.leases.leaseKeys id with
  | none => exact none
  | some attached =>
    intro other keys found
    dsimp only at found
    split_ifs at found
    exact none other keys found

theorem serveLeaseGrant (ttl clock : Int) : Keeps NoneAttached (serveLeaseGrant ttl clock) := by
  unfold Rusd.serveLeaseGrant
  split_ifs
  · exact Keeps.throw _
  · refine (propose _).bind fun _ leader none => ?_
    rw [run_bind_ok (run_read _ _), run_bind_ok (run_update _ _)]
    have granted := none.grant clock ttl
    cases (leader.leases.grant clock ttl).1 <;> exact granted

theorem deleteAttached (keys : List Bytes) : Keeps NoneAttached (deleteAttached keys) := by
  induction keys with
  | nil => exact Keeps.pure _
  | cons key rest ih => exact (onStore _ _).recover.bind fun _ => ih

theorem serveLeaseRevoke (id : Int) : Keeps NoneAttached (serveLeaseRevoke id) := by
  unfold Rusd.serveLeaseRevoke
  split_ifs
  · exact Keeps.throw _
  · refine (propose _).bind fun _ leader none => ?_
    rw [run_bind_ok (run_read _ _), run_bind_ok (run_update _ _)]
    have revoked := none.revoke id
    cases (leader.leases.revoke id).1 with
    | ok keys => exact deleteAttached keys _ revoked
    | error e => exact revoked

theorem serve (request : ServiceRequest) : Keeps NoneAttached request.serve := by
  cases request with
  | put request => exact (servePut request).bind fun _ => Keeps.pure _
  | deleteRange request => exact (serveDeleteRange request).bind fun _ => Keeps.pure _
  | txn request => exact (serveTxn request).bind fun _ => Keeps.pure _
  | leaseGrant ttl clock => exact (serveLeaseGrant ttl clock).bind fun _ => Keeps.pure _
  | leaseRevoke id => exact serveLeaseRevoke id

/-- **No run attaches a key.** -/
theorem serveAll {leader : Leader} (none : NoneAttached leader) (requests : List ServiceRequest) :
    NoneAttached (leader.serveAll requests) := by
  induction requests generalizing leader with
  | nil => exact none
  | cons request rest ih => exact ih (serve request leader none)

/-- **A revocation does not touch the store.** -/
theorem store_serveLeaseRevoke {leader : Leader} (none : NoneAttached leader) (id : Int) :
    ((Rusd.serveLeaseRevoke id).run leader).2.store = leader.store := by
  unfold Rusd.serveLeaseRevoke
  split_ifs
  · rfl
  · rw [run_bind_ok (propose_run _), run_bind_ok (run_read _ _), run_bind_ok (run_update _ _)]
    cases found : leader.leases.leaseKeys id with
    | none =>
      simp only [LeaseManager.revoke, found]
      rfl
    | some keys =>
      simp only [LeaseManager.revoke, found, none id keys found]
      rfl

end NoneAttached

/-- **After a revocation that returned, no key carries the lease exactly when none did before it.** The
revocation leaves the store as it was: no request of the run attached a key to the lease. -/
theorem revoke_removes_keys_iff (store : MvccStore) (requests : List ServiceRequest) (id : Int)
    (after : Leader)
    (returned : (serveLeaseRevoke id).run ((Leader.start store).serveAll requests) = (.ok (), after)) :
    ¬ after.Carries id ↔ ¬ ((Leader.start store).serveAll requests).Carries id := by
  have none := (NoneAttached.start store).serveAll requests
  have same := none.store_serveLeaseRevoke id
  rw [returned] at same
  unfold Leader.Carries
  rw [same]

/-! ### Examples -/

/-- A lease is granted and a key put under it. -/
def leasedPut : List ServiceRequest :=
  [.leaseGrant 100 7, .put ⟨[97], [49], 7, false, false, false⟩]

/-- **The key outlives the lease.** -/
theorem revoked_key_stays :
    ((serveLeaseRevoke 7).run ((Leader.start (.new .empty)).serveAll leasedPut)).1 = .ok () ∧
      ((serveLeaseRevoke 7).run ((Leader.start (.new .empty)).serveAll leasedPut)).2.Carries 7 :=
  ⟨by decide, [97], KeyValue.encode ⟨[97], 2, 2, 1, [49], 7⟩, ⟨[97], 2, 2, 1, [49], 7⟩, by decide,
    by decide, rfl⟩

theorem unused_lease_revoked :
    ∃ after, (serveLeaseRevoke 7).run ((Leader.start (.new .empty)).serveAll [.leaseGrant 100 7]) =
      (.ok (), after) ∧ ¬ after.Carries 7 := by
  have returned : ((serveLeaseRevoke 7).run
      ((Leader.start (.new .empty)).serveAll [.leaseGrant 100 7])).1 = .ok () := by decide
  refine ⟨_, Prod.ext returned rfl, ?_⟩
  refine (revoke_removes_keys_iff (.new .empty) [.leaseGrant 100 7] 7 _ (Prod.ext returned rfl)).mpr ?_
  rintro ⟨key, data, kv, stored, _⟩
  cases stored

end Rusd
