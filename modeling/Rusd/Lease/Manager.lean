/-
**The lease manager.**

`LeaseManager` keeps the active leases, the keys attached to each, and a heap of expiry entries.
A renewal or a revocation leaves the old entries of a lease in the heap, so the heap holds stale
and repeated entries; one iteration of `run_expiry_loop` takes an entry off and looks the lease up.
The heap is any priority queue over the entries, ordered as the source orders them: `Reverse` around
an order that is already reversed.

* `laterFirst_isLE` — through both reversals the heap gives the *latest* expiry first.
* `Lease.isExpired_iff` — counted in whole seconds, a lease has expired once its deadline has passed.
* `Clocked` — the manager with a clock: runs of calls at times that never go back.
-/

import Rusd.Api.KvService
import Rusd.Lib.Machine
import Rusd.Lib.PriorityQueue

namespace Rusd.Leases

/-! ### Time -/

/-- Nanoseconds in a second; an `Instant` is a number of nanoseconds on the monotonic clock. -/
def second : Nat := 10 ^ 9

/-- The latest representable `Instant`: its seconds have 63 bits. -/
def maxInstant : Nat := 2 ^ 63 * 10 ^ 9 - 1

/-- `instant + Duration::from_secs(ttl as u64)`; beyond the latest instant the addition panics. -/
def addTtl (instant : Nat) (ttl : Int64) : Option Nat :=
  let sum := instant + second * ttl.toUInt64.toNat
  if sum ≤ maxInstant then some sum else none

/-- Whole seconds from `earlier` to `now`; none when `earlier` is in the future. -/
def elapsedSecs (earlier now : Nat) : Nat := (now - earlier) / second

/-! ### Leases and their expiry entries -/

/-- A lease for attaching to keys with TTL semantics. -/
structure Lease where
  id : Int
  ttl : Int64
  grantedTtl : Int64
  createdAt : Nat
  keys : List Bytes
  deriving DecidableEq

namespace Lease

/-- The remaining TTL in seconds. -/
def remainingTtl (lease : Lease) (now : Nat) : Int64 :=
  max (lease.ttl - Int64.ofNat (elapsedSecs lease.createdAt now)) 0

/-- Whether this lease has expired. -/
def isExpired (lease : Lease) (now : Nat) : Bool := lease.remainingTtl now ≤ 0

/-- The time at which the TTL has run out. -/
def deadline (lease : Lease) : Int := lease.createdAt + second * lease.ttl.toInt

end Lease

/-- An entry of the expiry queue. -/
structure LeaseExpiry where
  leaseId : Int
  expiresAt : Nat
  deriving DecidableEq

/-- `Ord for LeaseExpiry`, reversed "so BinaryHeap acts as a min-heap". -/
def LeaseExpiry.cmp (self other : LeaseExpiry) : Ordering := compare other.expiresAt self.expiresAt

/-- `Ord for Reverse<LeaseExpiry>`: the reversal of that order. -/
def laterFirst (self other : LeaseExpiry) : Ordering := LeaseExpiry.cmp other self

/-- **The two reversals cancel**: the greatest entry of the heap is the one that expires last. -/
theorem laterFirst_isLE {a b : LeaseExpiry} : (laterFirst a b).isLE ↔ a.expiresAt ≤ b.expiresAt :=
  Nat.isLE_compare

instance : Std.TransCmp laterFirst :=
  inferInstanceAs (Std.TransCmp (compareOn LeaseExpiry.expiresAt))

/-- Sent when a lease expires and keys should be deleted. -/
structure LeaseExpireEvent where
  leaseId : Int
  keys : List Bytes
  deriving DecidableEq

/-- Lease-related errors. -/
inductive LeaseError
  | leaseNotFound (id : Int)
  | leaseAlreadyExists (id : Int)
  | invalidTTL (text : String)
  | internal (text : String)
  deriving DecidableEq

def LeaseError.display : LeaseError → String
  | leaseNotFound id => "Lease not found: " ++ toString id
  | leaseAlreadyExists id => "Lease already exists: " ++ toString id
  | invalidTTL text => "Invalid TTL: " ++ text
  | internal text => "Internal error: " ++ text

/-! ### The manager -/

variable (Q : PriorityQueue laterFirst)

/-- Manages lease lifecycle and TTL tracking. A set of keys is a list without duplicates. -/
structure LeaseManager where
  leases : Int → Option Lease
  leaseKeys : Int → Option (List Bytes)
  nextLeaseId : Int
  expiryQueue : Q.Heap

variable {Q}

namespace LeaseManager

variable (Q) in
def new : LeaseManager Q := ⟨fun _ => none, fun _ => none, 1, Q.empty⟩

/-- `HashSet::insert`. -/
def insertKey (keys : List Bytes) (key : Bytes) : List Bytes :=
  if key ∈ keys then keys else keys ++ [key]

/-- The id of a new lease: 0 asks for one from the counter. -/
def assignId (m : LeaseManager Q) (id : Int) : Int × LeaseManager Q :=
  if id = 0 then (m.nextLeaseId, { m with nextLeaseId := fetchAddOne m.nextLeaseId }) else (id, m)

/-- The maps and the queue with a lease, its keys and its expiry entry written. -/
def record (m : LeaseManager Q) (lease : Lease) (keys : List Bytes) (expiresAt : Nat) :
    LeaseManager Q :=
  { m with
    leases := Function.update m.leases lease.id (some lease)
    leaseKeys := Function.update m.leaseKeys lease.id (some keys)
    expiryQueue := Q.push m.expiryQueue ⟨lease.id, expiresAt⟩ }

@[simp] theorem record_leases (m : LeaseManager Q) (lease : Lease) (keys : List Bytes)
    (expiresAt : Nat) :
    (m.record lease keys expiresAt).leases = Function.update m.leases lease.id (some lease) := rfl

@[simp] theorem record_leaseKeys (m : LeaseManager Q) (lease : Lease) (keys : List Bytes)
    (expiresAt : Nat) :
    (m.record lease keys expiresAt).leaseKeys = Function.update m.leaseKeys lease.id (some keys) :=
  rfl

/-- The maps without a lease; its entries stay in the queue. -/
def remove (m : LeaseManager Q) (id : Int) : LeaseManager Q :=
  { m with
    leases := Function.update m.leases id none
    leaseKeys := Function.update m.leaseKeys id none }

@[simp] theorem remove_leases (m : LeaseManager Q) (id : Int) :
    (m.remove id).leases = Function.update m.leases id none := rfl

@[simp] theorem remove_leaseKeys (m : LeaseManager Q) (id : Int) :
    (m.remove id).leaseKeys = Function.update m.leaseKeys id none := rfl

/-- Grants a new lease with the given TTL. -/
def grant (m : LeaseManager Q) (id : Int) (ttl : Int64) (now : Nat) :
    Outcome LeaseError Lease × LeaseManager Q :=
  if ttl ≤ 0 then (.err (.invalidTTL ("TTL must be positive, got " ++ toString ttl)), m)
  else
    let (leaseId, m) := m.assignId id
    if (m.leases leaseId).isSome then (.err (.leaseAlreadyExists leaseId), m)
    else
      match addTtl now ttl with
      | none => (.panic, m)
      | some expiresAt =>
        let lease : Lease := ⟨leaseId, ttl, ttl, now, []⟩
        (.ok lease, m.record lease [] expiresAt)

/-- Revokes a lease and returns the attached keys. -/
def revoke (m : LeaseManager Q) (id : Int) : Outcome LeaseError (List Bytes) × LeaseManager Q :=
  match m.leases id with
  | some _ => (.ok ((m.leaseKeys id).getD []), m.remove id)
  | none => (.err (.leaseNotFound id), m)

/-- Renews a lease, resetting its TTL. The clock is read twice, and the record is written before the
new expiry is computed. -/
def renew (m : LeaseManager Q) (id : Int) (now later : Nat) :
    Outcome LeaseError Int64 × LeaseManager Q :=
  match m.leases id with
  | some lease =>
    let ttl := lease.grantedTtl
    let renewed : Lease := { lease with ttl := ttl, createdAt := now }
    let m := { m with leases := Function.update m.leases id (some renewed) }
    match addTtl later ttl with
    | none => (.panic, m)
    | some expiresAt => (.ok ttl, { m with expiryQueue := Q.push m.expiryQueue ⟨id, expiresAt⟩ })
  | none => (.err (.leaseNotFound id), m)

/-- Attaches a key to a lease. -/
def attach (m : LeaseManager Q) (id : Int) (key : Bytes) :
    Outcome LeaseError Unit × LeaseManager Q :=
  if (m.leases id).isSome then
    match m.leaseKeys id with
    | some keys => (.ok (),
        { m with leaseKeys := Function.update m.leaseKeys id (some (insertKey keys key)) })
    | none => (.err (.internal "Lease keys map corrupted"), m)
  else (.err (.leaseNotFound id), m)

/-- Detaches a key from a lease. -/
def detach (m : LeaseManager Q) (id : Int) (key : Bytes) :
    Outcome LeaseError Unit × LeaseManager Q :=
  match m.leaseKeys id with
  | some keys => (.ok (),
      { m with leaseKeys := Function.update m.leaseKeys id (some (keys.erase key)) })
  | none => (.err (.leaseNotFound id), m)

/-- Recovers leases from a snapshot, one after another. -/
def recover (m : LeaseManager Q) : List Lease → Outcome LeaseError Unit × LeaseManager Q
  | [] => (.ok (), m)
  | lease :: rest =>
    match addTtl lease.createdAt lease.ttl with
    | none => (.panic, m)
    | some expiresAt => (m.record lease lease.keys.dedup expiresAt).recover rest

/-- The guarded part of one iteration of the inner loop of `run_expiry_loop`: the event it goes on to
send, if there is one. `now` is the time at which the pass began, `reading` the clock when the lease
is looked at. -/
def nextEvent (m : LeaseManager Q) (now reading : Nat) :
    Option LeaseExpireEvent × LeaseManager Q :=
  match Q.pop m.expiryQueue with
  | none => (none, m)
  | some (entry, rest) =>
    if now < entry.expiresAt then (none, m)
    else
      let m := { m with expiryQueue := rest }
      match m.leases entry.leaseId with
      | some lease =>
        if lease.isExpired reading then
          (some ⟨entry.leaseId, (m.leaseKeys entry.leaseId).getD []⟩, m.remove entry.leaseId)
        else (none, m)
      | none => (none, m)

end LeaseManager

/-! ### Time to live and expiry -/

/-- `as u64` of a 64-bit integer. -/
theorem toNat_toUInt64 (n : Int64) :
    (n.toUInt64.toNat : Int) = if n.toInt < 0 then n.toInt + 2 ^ 64 else n.toInt := by
  have signed : n.toInt = if 2 * n.toUInt64.toNat < 2 ^ 64 then (n.toUInt64.toNat : Int)
      else n.toUInt64.toNat - 2 ^ 64 := BitVec.toInt_eq_toNat_cond n.toBitVec
  have bound := n.toUInt64.toNat_lt
  split_ifs at signed ⊢ <;> omega

/-- A sum that does not panic has a TTL that is not negative: `as u64` takes a negative one beyond
every instant. -/
theorem addTtl_some {instant sum : Nat} {ttl : Int64} (adds : addTtl instant ttl = some sum) :
    0 ≤ ttl.toInt ∧ (sum : Int) = instant + second * ttl.toInt := by
  unfold addTtl at adds
  dsimp only at adds
  split_ifs at adds with small
  have unsigned := toNat_toUInt64 ttl
  have low := Int64.le_toInt ttl
  have nonneg : 0 ≤ ttl.toInt := by
    by_contra negative
    rw [if_pos (not_le.mp negative)] at unsigned
    norm_num [second, maxInstant] at small
    omega
  rw [if_neg (not_lt.mpr nonneg)] at unsigned
  refine ⟨nonneg, ?_⟩
  rw [← Option.some.inj adds, ← unsigned]
  push_cast
  rfl

namespace Lease

/-- A lease with a TTL, or one whose TTL is zero and that has begun. -/
def Running (lease : Lease) (now : Nat) : Prop :=
  0 < lease.ttl.toInt ∨ lease.ttl.toInt = 0 ∧ lease.createdAt ≤ now

theorem max_zero_le {n : Int64} : max n 0 ≤ 0 ↔ n ≤ 0 := by
  change (if n ≤ 0 then 0 else n) ≤ 0 ↔ n ≤ 0
  split_ifs with small
  · exact ⟨fun _ => small, fun _ => Int64.le_refl 0⟩
  · exact Iff.rfl

/-- The difference of a TTL and the seconds that have passed does not leave 64 bits. -/
theorem toInt_sub_elapsed {lease : Lease} {now : Nat} (nonneg : 0 ≤ lease.ttl.toInt)
    (representable : now ≤ maxInstant) :
    (lease.ttl - Int64.ofNat (elapsedSecs lease.createdAt now)).toInt =
      lease.ttl.toInt - elapsedSecs lease.createdAt now := by
  have seconds : elapsedSecs lease.createdAt now < 2 ^ 63 := by
    refine Nat.div_lt_of_lt_mul ?_
    norm_num [second, maxInstant] at representable ⊢
    omega
  have high := Int64.toInt_lt lease.ttl
  rw [Int64.toInt_sub, Int64.toInt_ofNat_of_lt seconds]
  exact Int.bmod_eq_of_le (by omega) (by omega)

/-- **A lease has expired once its deadline has passed**, whole seconds notwithstanding. -/
theorem isExpired_iff {lease : Lease} {now : Nat} (running : lease.Running now)
    (representable : now ≤ maxInstant) : lease.isExpired now ↔ lease.deadline ≤ now := by
  unfold Running at running
  have nonneg : 0 ≤ lease.ttl.toInt := by omega
  obtain ⟨ttl, isTtl⟩ := Int.eq_ofNat_of_zero_le nonneg
  have counted : lease.isExpired now ↔ second * ttl ≤ now - lease.createdAt := by
    unfold isExpired remainingTtl
    rw [decide_eq_true_iff, max_zero_le, Int64.le_iff_toInt_le,
      toInt_sub_elapsed nonneg representable, isTtl, Int64.toInt_zero, sub_nonpos, Nat.cast_le]
    rw [Nat.mul_comm]
    exact Nat.le_div_iff_mul_le (by decide)
  have due : lease.deadline ≤ now ↔ lease.createdAt + second * ttl ≤ now := by
    unfold deadline
    rw [isTtl]
    norm_cast
  rw [counted, due]
  rcases running with positive | ⟨zero, begun⟩
  · have lasts : 0 < second * ttl := Nat.mul_pos (by decide) (by omega)
    omega
  · have none : ttl = 0 := by omega
    rw [none]
    omega

end Lease

/-! ### Runs -/

/-- What is asked of the manager; `expire` is one iteration of the inner loop of a pass that began
at `now`, and a renewal reads the clock again after `delay`. -/
inductive Call
  | grant (id : Int) (ttl : Int64)
  | revoke (id : Int)
  | renew (id : Int) (delay : Nat)
  | attach (id : Int) (key : Bytes)
  | detach (id : Int) (key : Bytes)
  | recover (leases : List Lease)
  | expire (now : Nat)

/-- A call some time after the one before it. -/
structure Action where
  wait : Nat
  call : Call

/-- The manager, the clock, and for each id the deadline that its latest grant, renewal or recovery
promised. -/
structure Clocked (Q : PriorityQueue laterFirst) where
  manager : LeaseManager Q
  time : Nat
  promised : Int → Option Int

variable (Q) in
def Clocked.new (start : Nat) : Clocked Q := ⟨.new Q, start, fun _ => none⟩

/-- The promises of the leases that `recover` gets to. -/
def promisesOf : List Lease → (Int → Option Int) → Int → Option Int
  | [], promised => promised
  | lease :: rest, promised =>
    match addTtl lease.createdAt lease.ttl with
    | none => promised
    | some _ => promisesOf rest (Function.update promised lease.id (some lease.deadline))

namespace Clocked

/-- Read the clock; it shows no instant beyond the latest one. -/
def tick (s : Clocked Q) (wait : Nat) : Option (Clocked Q) :=
  if s.time + wait ≤ maxInstant then some { s with time := s.time + wait } else none

/-- One call at the time of the clock. -/
def perform (s : Clocked Q) : Call → Option (Clocked Q)
  | .grant id ttl =>
    let done := s.manager.grant id ttl s.time
    some { s with
      manager := done.2
      promised := match done.1 with
        | .ok lease => Function.update s.promised lease.id (some lease.deadline)
        | _ => s.promised }
  | .revoke id => some { s with manager := (s.manager.revoke id).2 }
  | .renew id delay =>
    match s.tick delay with
    | none => none
    | some later =>
      let done := s.manager.renew id s.time later.time
      some { later with
        manager := done.2
        promised := match done.1 with
          | .ok ttl => Function.update s.promised id (some (s.time + second * ttl.toInt))
          | _ => s.promised }
  | .attach id key => some { s with manager := (s.manager.attach id key).2 }
  | .detach id key => some { s with manager := (s.manager.detach id key).2 }
  | .recover leases => some { s with
      manager := (s.manager.recover leases).2
      promised := promisesOf leases s.promised }
  | .expire now =>
    if now ≤ s.time then some { s with manager := (s.manager.nextEvent now s.time).2 } else none

/-- The clock, then the call. -/
def step (s : Clocked Q) (action : Action) : Option (Clocked Q) :=
  (s.tick action.wait).bind fun s => s.perform action.call

end Clocked

end Rusd.Leases
