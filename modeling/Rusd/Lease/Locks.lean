/-
**The locks of the lease manager.**

Every operation takes two or three of the locks `leases`, `lease_keys` and `expiry_queue` in an order
of its own. All but the expiry loop take `leases` first; an iteration of the expiry loop that finds a
due entry holds `expiry_queue` when it asks for `leases`, while a grant, a renewal and a recovery hold
`leases` when they ask for `expiry_queue`.

* `LockedCall.path` — the acquisitions and releases on each path through an operation.
* `leases_deadlockFree_iff` — a set of concurrent operations cannot deadlock exactly if it has no
  iteration that finds a due entry, or nothing that queues an entry while it holds `leases`.
-/

import Rusd.Lib.Locks

namespace Rusd.Leases

/-- The locks of the lease manager. -/
inductive LeaseLock
  | leases
  | leaseKeys
  | expiryQueue
  deriving DecidableEq

/-- The operations, each once for every path that it can take through its locks. -/
inductive LockedCall
  /-- The TTL is not positive. -/
  | grantInvalid
  /-- The lease exists already, or its expiry is beyond every instant. -/
  | grantRefused
  | grant
  | revokeUnknown
  | revoke
  /-- There is no such lease, or its expiry is beyond every instant. -/
  | renewRefused
  | renew
  | attachUnknown
  | attach
  | detach
  | recover
  | getLease
  | timeToLiveUnknown
  | timeToLive
  /-- An iteration of the expiry loop that finds no due entry. -/
  | expireNothing
  /-- One whose entry names no lease that has expired. -/
  | expireStale
  /-- One that removes a lease. -/
  | expire
  deriving DecidableEq

namespace LockedCall

open LockEvent LeaseLock

/-- `lock.write()` around some further steps. -/
def writing (lock : LeaseLock) (inside : List (LockEvent LeaseLock)) : List (LockEvent LeaseLock) :=
  acquire lock .exclusive :: inside ++ [release lock]

/-- `lock.read()` around some further steps. -/
def reading (lock : LeaseLock) (inside : List (LockEvent LeaseLock)) : List (LockEvent LeaseLock) :=
  acquire lock .shared :: inside ++ [release lock]

/-- What an operation does with the locks. -/
def path : LockedCall → List (LockEvent LeaseLock)
  | grantInvalid => []
  | grantRefused => writing leases []
  | grant => writing leases (writing expiryQueue [] ++ writing leaseKeys [])
  | revokeUnknown => writing leases []
  | revoke => writing leases (writing leaseKeys [])
  | renewRefused => writing leases []
  | renew => writing leases (writing expiryQueue [])
  | attachUnknown => reading leases []
  | attach => reading leases [] ++ writing leaseKeys []
  | detach => writing leaseKeys []
  | recover => writing leases (writing leaseKeys (writing expiryQueue []))
  | getLease => reading leases []
  | timeToLiveUnknown => reading leases []
  | timeToLive => reading leases [] ++ reading leaseKeys []
  | expireNothing => writing expiryQueue []
  | expireStale => writing expiryQueue (writing leases [])
  | expire => writing expiryQueue (writing leases (writing leaseKeys []))

/-- An iteration of the expiry loop that looks a lease up. -/
def FindsDue (call : LockedCall) : Prop := call = expireStale ∨ call = expire

/-- An operation that queues an entry while it holds `leases`. -/
def QueuesEntry (call : LockedCall) : Prop := call = grant ∨ call = renew ∨ call = recover

instance (call : LockedCall) : Decidable call.FindsDue :=
  inferInstanceAs (Decidable (_ ∨ _))

instance (call : LockedCall) : Decidable call.QueuesEntry :=
  inferInstanceAs (Decidable (_ ∨ _ ∨ _))

/-- The order in which everything but an iteration with a due entry takes the locks. -/
def leasesFirst : LeaseLock → Nat
  | leases => 0
  | leaseKeys => 1
  | expiryQueue => 2

/-- The order in which everything that queues no entry takes the locks. -/
def queueFirst : LeaseLock → Nat
  | expiryQueue => 0
  | leases => 1
  | leaseKeys => 2

theorem climbs_leasesFirst {call : LockedCall} (not : ¬ call.FindsDue) :
    Climbs leasesFirst [] call.path := by
  revert not
  cases call <;> decide

theorem climbs_queueFirst {call : LockedCall} (not : ¬ call.QueuesEntry) :
    Climbs queueFirst [] call.path := by
  revert not
  cases call <;> decide

end LockedCall

open LockedCall

section Deadlock

variable {ι : Type} [Fintype ι] [DecidableEq ι]

/-- The first acquisition of all. -/
theorem begins_alone {programs : ι → List (LockEvent LeaseLock)} {j : ι} {lock : LeaseLock}
    {mode : LockMode} {rest : List (LockEvent LeaseLock)}
    (path : programs j = .acquire lock mode :: rest) :
    lockStep (lockStart programs) j =
      some (Function.update (lockStart programs) j ⟨[(lock, mode)], rest⟩) :=
  lockStep_free path fun _ _ mem => absurd mem List.not_mem_nil

/-- One more acquisition of a thread, while no other has begun. -/
theorem acquires_alone {programs : ι → List (LockEvent LeaseLock)} {j : ι} {lock : LeaseLock}
    {held : List (LeaseLock × LockMode)} {mode : LockMode} {rest : List (LockEvent LeaseLock)}
    (free : ∀ holds ∈ held, holds.1 ≠ lock) :
    lockStep (Function.update (lockStart programs) j ⟨held, .acquire lock mode :: rest⟩) j =
      some (Function.update (lockStart programs) j ⟨(lock, mode) :: held, rest⟩) := by
  have wants : (Function.update (lockStart programs) j ⟨held, .acquire lock mode :: rest⟩ j).rest =
      .acquire lock mode :: rest := by
    rw [Function.update_self]
  have freeOfAll : ∀ k, ∀ holds ∈ (Function.update (lockStart programs) j
      ⟨held, .acquire lock mode :: rest⟩ k).held, holds.1 ≠ lock := by
    intro k holds mem
    by_cases it : k = j
    · rw [it, Function.update_self] at mem
      exact free holds mem
    · rw [Function.update_of_ne it] at mem
      cases mem
  rw [lockStep_free wants freeOfAll, Function.update_self, Function.update_idem]

/-- An operation that queues an entry gets to where it holds `leases` and wants `expiry_queue`, while
no other operation has begun. -/
theorem queues_runs (calls : ι → LockedCall) {j : ι} (queues : (calls j).QueuesEntry) :
    ∃ actions held rest, runFrom lockStep (lockStart fun i => (calls i).path) actions =
        some (Function.update (lockStart fun i => (calls i).path) j
          ⟨held, .acquire .expiryQueue .exclusive :: rest⟩) ∧
      (LeaseLock.leases, .exclusive) ∈ held ∧ ∀ holds ∈ held, holds.1 ≠ .expiryQueue := by
  have only : ∀ holds ∈ [(LeaseLock.leases, LockMode.exclusive)], holds.1 ≠ .expiryQueue := by
    decide
  rcases queues with is | is | is
  · exact ⟨[j], _, _, runFrom_step (begins_alone (congrArg path is)) rfl, List.mem_cons_self, only⟩
  · exact ⟨[j], _, _, runFrom_step (begins_alone (congrArg path is)) rfl, List.mem_cons_self, only⟩
  · refine ⟨[j, j], [(.leaseKeys, .exclusive), (.leases, .exclusive)], _,
      runFrom_step (begins_alone (congrArg path is))
        (runFrom_step (acquires_alone (by decide)) rfl), by decide, by decide⟩

/-- **The lease manager is free of deadlocks exactly while no due entry meets a new one**: an
iteration of the expiry loop that looks a lease up, and a grant, a renewal or a recovery that queues
an entry, can each wait for the lock that the other one holds. -/
theorem leases_deadlockFree_iff (calls : ι → LockedCall) :
    DeadlockFree (fun i => (calls i).path) ↔
      ¬ ((∃ i, (calls i).FindsDue) ∧ ∃ i, (calls i).QueuesEntry) := by
  constructor
  · rintro free ⟨⟨i, finds⟩, j, queues⟩
    obtain ⟨actions, held, rest, runs, leases, noQueue⟩ := queues_runs calls queues
    obtain ⟨later, path⟩ : ∃ later, (calls i).path =
        .acquire .expiryQueue .exclusive :: .acquire .leases .exclusive :: later := by
      rcases finds with is | is <;> rw [is] <;> exact ⟨_, rfl⟩
    have differ : i ≠ j := by
      rintro rfl
      rcases finds with is | is <;> rw [is] at queues <;> revert queues <;> decide
    have wants : (Function.update (lockStart fun i => (calls i).path) j
        ⟨held, .acquire .expiryQueue .exclusive :: rest⟩ i).rest =
        .acquire .expiryQueue .exclusive :: .acquire .leases .exclusive :: later := by
      rw [Function.update_of_ne differ]
      exact path
    have queueFree : ∀ k, ∀ holds ∈ (Function.update (lockStart fun i => (calls i).path) j
        ⟨held, .acquire .expiryQueue .exclusive :: rest⟩ k).held, holds.1 ≠ .expiryQueue := by
      intro k holds mem
      by_cases it : k = j
      · rw [it, Function.update_self] at mem
        exact noQueue holds mem
      · rw [Function.update_of_ne it] at mem
        cases mem
    have meets := lockStep_free wants queueFree
    have last : runFrom lockStep _ [i] = some _ := runFrom_step meets rfl
    refine not_deadlockFree_of_embrace (runFrom_append runs last) (i := i) (j := j)
      ⟨differ, ?_, ?_⟩ free
    · refine ⟨.leases, .exclusive, later, ?_, ?_⟩
      · rw [Function.update_self]
      · rw [Function.update_of_ne differ.symm, Function.update_self]
        exact leases
    · refine ⟨.expiryQueue, .exclusive, rest, ?_, ?_⟩
      · rw [Function.update_of_ne differ.symm, Function.update_self]
      · rw [Function.update_self]
        exact List.mem_cons_self
  · intro apart
    by_cases finds : ∃ i, (calls i).FindsDue
    · have queues : ∀ i, ¬ (calls i).QueuesEntry := fun i queues => apart ⟨finds, i, queues⟩
      exact deadlockFree_of_climbs fun i => climbs_queueFirst (queues i)
    · exact deadlockFree_of_climbs fun i => climbs_leasesFirst (not_exists.mp finds i)

/-- A grant meets an iteration that removes a lease. -/
def grantMeetsExpiry : Fin 2 → LockedCall
  | 0 => .grant
  | 1 => .expire

/-- **They deadlock**: the grant holds `leases` and the iteration `expiry_queue`. -/
theorem grantMeetsExpiry_deadlocks : ¬ DeadlockFree fun i => (grantMeetsExpiry i).path := by
  intro free
  have ends : ∃ s ∈ runFrom lockStep (lockStart fun i => (grantMeetsExpiry i).path) [0, 1],
      Stuck s := by
    decide +kernel
  obtain ⟨s, runs, stuck⟩ := ends
  exact free [0, 1] s runs stuck

end Deadlock

end Rusd.Leases
