/-
**What clients are told of their leases** (`lease/mod.rs`, `api/lease_service.rs`).

`time_to_live` reports the whole seconds that a lease has left, rounded up, and a keep-alive answers with
the full TTL. Both are promises about runs to come: other clients may grant, attach, renew and revoke, and
the expiry loop takes its iterations.

* `Lease.remainingTtl_spec` — a report is the time left, up to less than a second.
* `LeaseChange` — what one call can do to the leases.
* `Lasts.step` — a lease that is not revoked stays until its deadline, which only moves up.
* `reported_ttl_holds`, `keep_alive_holds` — what a report and a keep-alive promise.
-/

import Rusd.Lease.Bookkeeping
import Rusd.Lib.Tables

namespace Rusd.Leases

variable {Q : PriorityQueue laterFirst}

/-! ### Reports -/

/-- Gets lease time-to-live information; the keys are read under a lock of their own, `later`. -/
def LeaseManager.timeToLive (m later : LeaseManager Q) (id : Int) (now : Nat) :
    Outcome LeaseError (Int64 × Int64 × List Bytes) :=
  match m.leases id with
  | some lease => .ok (lease.remainingTtl now, lease.grantedTtl, (later.leaseKeys id).getD [])
  | none => .err (.leaseNotFound id)

structure LeaseKeepAliveResponse where
  id : Int
  ttl : Int64
  deriving DecidableEq

/-- One request of a keep-alive stream; `proposed` is what became of its proposal. A lease that is not
there is answered with a TTL of 0. -/
def keepAlive (m : LeaseManager Q) (id : Int) (proposed : Except String Unit) (now later : Nat) :
    Outcome Status LeaseKeepAliveResponse × LeaseManager Q :=
  if id = 0 then (.err ⟨.invalidArgument, "lease id must not be zero"⟩, m)
  else
    match proposed with
    | .error text => (.err ⟨.internal, "keepalive failed: " ++ text⟩, m)
    | .ok () =>
      match m.renew id now later with
      | (.ok ttl, m) => (.ok ⟨id, ttl⟩, m)
      | (.err _, m) => (.ok ⟨id, 0⟩, m)
      | (.panic, m) => (.panic, m)

namespace Lease

theorem toInt_max_zero (n : Int64) : (max n 0).toInt = max n.toInt 0 := by
  change (if n ≤ 0 then 0 else n).toInt = _
  rw [apply_ite Int64.toInt, Int64.toInt_zero]
  split_ifs with small
  · rw [Int64.le_iff_toInt_le, Int64.toInt_zero] at small
    exact (max_eq_right small).symm
  · rw [Int64.le_iff_toInt_le, Int64.toInt_zero, not_le] at small
    exact (max_eq_left small.le).symm

/-- **A report is the time left**, rounded up to whole seconds. -/
theorem remainingTtl_spec {lease : Lease} {now : Nat} (nonneg : 0 ≤ lease.ttl.toInt)
    (begun : lease.createdAt ≤ now) (representable : now ≤ maxInstant) :
    lease.deadline - now ≤ second * (lease.remainingTtl now).toInt ∧
      (0 < (lease.remainingTtl now).toInt →
        second * ((lease.remainingTtl now).toInt - 1) < lease.deadline - now) := by
  have left : (lease.remainingTtl now).toInt =
      max (lease.ttl.toInt - elapsedSecs lease.createdAt now) 0 := by
    rw [remainingTtl, toInt_max_zero, toInt_sub_elapsed nonneg representable]
  have whole := Nat.div_add_mod (now - lease.createdAt) second
  have part := Nat.mod_lt (now - lease.createdAt) (show 0 < second by decide)
  rw [left, deadline, elapsedSecs]
  norm_num [second] at whole part ⊢
  omega

end Lease

/-! ### What a call does to the leases -/

/-- **What a call other than `recover` can do to the leases**, at a time `now`. -/
inductive LeaseChange (leases after : Int → Option Lease) (call : Call) (now : Nat) : Prop
  | unchanged (same : after = leases)
  | granted (lease : Lease) (new : leases lease.id = none) (positive : 0 < lease.ttl.toInt)
      (whole : lease.grantedTtl = lease.ttl) (begun : lease.createdAt = now)
      (same : after = Function.update leases lease.id (some lease))
  | renewed (id : Int) (lease : Lease) (found : leases id = some lease)
      (same : after = Function.update leases id
        (some { lease with ttl := lease.grantedTtl, createdAt := now }))
  | revoked (id : Int) (revokes : call = .revoke id) (same : after = Function.update leases id none)
  | expired (id : Int) (lease : Lease) (found : leases id = some lease) (late : lease.isExpired now)
      (same : after = Function.update leases id none)

/-- A grant writes a lease whose id was free. -/
theorem leaseChange_grant (m : LeaseManager Q) (id : Int) (ttl : Int64) (now : Nat) :
    LeaseChange m.leases (m.grant id ttl now).2.leases (.grant id ttl) now := by
  have leases : (m.assignId id).2.leases = m.leases := by
    unfold LeaseManager.assignId
    split_ifs <;> rfl
  unfold LeaseManager.grant
  dsimp only
  split_ifs with invalid taken
  · exact .unchanged rfl
  · exact .unchanged leases
  · cases addTtl now ttl with
    | none => exact .unchanged leases
    | some expiresAt =>
      refine .granted ⟨(m.assignId id).1, ttl, ttl, now, []⟩ ?_ ?_ rfl rfl ?_
      · rw [leases] at taken
        exact Option.not_isSome_iff_eq_none.mp taken
      · rw [Int64.le_iff_toInt_le, Int64.toInt_zero, not_le] at invalid
        exact invalid
      · rw [LeaseManager.record_leases, leases]

theorem leaseChange_renew (m : LeaseManager Q) (id : Int) (now later : Nat) (call : Call) :
    LeaseChange m.leases (m.renew id now later).2.leases call now := by
  unfold LeaseManager.renew
  cases found : m.leases id with
  | none => exact .unchanged rfl
  | some lease =>
    -- the record is written, whether its new expiry can be computed or not
    dsimp only
    cases addTtl later lease.grantedTtl with
    | none => exact .renewed id lease found rfl
    | some expiresAt => exact .renewed id lease found rfl

/-- **Every step** but a `recover`. -/
theorem Clocked.leaseChange {s t : Clocked Q} {action : Action} (moves : s.step action = some t)
    (kept : ∀ leases, action.call ≠ .recover leases) :
    s.time + action.wait ≤ t.time ∧ t.time ≤ maxInstant ∧
      LeaseChange s.manager.leases t.manager.leases action.call (s.time + action.wait) := by
  obtain ⟨representable, performs⟩ := Clocked.step_some moves
  obtain ⟨wait, call⟩ := action
  cases call with
  | grant id ttl =>
    rw [← Option.some.inj performs]
    exact ⟨le_rfl, representable, leaseChange_grant s.manager id ttl _⟩
  | revoke id =>
    rw [← Option.some.inj performs]
    refine ⟨le_rfl, representable, ?_⟩
    dsimp only
    unfold LeaseManager.revoke
    split
    · exact .revoked id rfl rfl
    · exact .unchanged rfl
  | renew id delay =>
    unfold Clocked.perform at performs
    dsimp only at performs
    split at performs
    · cases performs
    · rename_i later ticks
      obtain ⟨rfl, representable⟩ := Clocked.tick_some ticks
      rw [← Option.some.inj performs]
      exact ⟨Nat.le_add_right _ delay, representable, leaseChange_renew s.manager id _ _ _⟩
  | attach id key =>
    rw [← Option.some.inj performs]
    refine ⟨le_rfl, representable, ?_⟩
    dsimp only
    unfold LeaseManager.attach
    split_ifs
    · split <;> exact .unchanged rfl
    · exact .unchanged rfl
  | detach id key =>
    rw [← Option.some.inj performs]
    refine ⟨le_rfl, representable, ?_⟩
    dsimp only
    unfold LeaseManager.detach
    split <;> exact .unchanged rfl
  | recover leases => exact absurd rfl (kept leases)
  | expire now =>
    unfold Clocked.perform at performs
    dsimp only at performs
    split_ifs at performs
    rw [← Option.some.inj performs]
    refine ⟨le_rfl, representable, ?_⟩
    dsimp only
    rcases s.manager.nextEvent_cases now (s.time + wait) with ⟨idle, _⟩ |
      ⟨entry, rest, pops, due, ⟨stale, alive⟩ | ⟨lease, found, late, removed⟩⟩
    · rw [idle]
      exact .unchanged rfl
    · rw [stale]
      exact .unchanged rfl
    · rw [removed]
      exact .expired entry.leaseId lease found late rfl

/-! ### Leases that last -/

/-- Every lease has a TTL, the one that it was granted, and has begun, at an instant of the clock. -/
def Granted (leases : Int → Option Lease) (time : Nat) : Prop :=
  ∀ id lease, leases id = some lease →
    0 < lease.ttl.toInt ∧ lease.grantedTtl = lease.ttl ∧ lease.createdAt ≤ time ∧ time ≤ maxInstant

/-- The lease is there until the deadline, and its own deadline is not earlier. -/
def Lasts (id : Int) (grantedTtl : Int64) (deadline : Int) (leases : Int → Option Lease) (time : Nat) :
    Prop :=
  (time : Int) < deadline →
    ∃ lease, leases id = some lease ∧ lease.grantedTtl = grantedTtl ∧ deadline ≤ lease.deadline

namespace LeaseChange

variable {leases after : Int → Option Lease} {call : Call} {time now later : Nat}

theorem granted_step (change : LeaseChange leases after call now) (ordered : time ≤ now)
    (continues : now ≤ later) (representable : later ≤ maxInstant) (granted : Granted leases time) :
    Granted after later := by
  have older : ∀ id lease, leases id = some lease → 0 < lease.ttl.toInt ∧ lease.grantedTtl = lease.ttl ∧
      lease.createdAt ≤ later ∧ later ≤ maxInstant := by
    intro id lease found
    obtain ⟨positive, whole, begun, -⟩ := granted id lease found
    exact ⟨positive, whole, begun.trans (ordered.trans continues), representable⟩
  intro id lease isFound
  cases change with
  | unchanged same => exact older id lease (same ▸ isFound)
  | granted new free positive whole begun same =>
    rw [same] at isFound
    rcases update_eq_some_iff.mp isFound with ⟨-, rfl⟩ | ⟨-, old⟩
    · exact ⟨positive, whole, begun ▸ continues, representable⟩
    · exact older id lease old
  | renewed id' old found same =>
    rw [same] at isFound
    obtain ⟨positive, whole, -⟩ := older id' old found
    rcases update_eq_some_iff.mp isFound with ⟨-, rfl⟩ | ⟨-, other⟩
    · exact ⟨whole ▸ positive, rfl, continues, representable⟩
    · exact older id lease other
  | revoked id' revokes same =>
    rw [same] at isFound
    exact older id lease (update_none_eq_some_iff.mp isFound).2
  | expired id' old found late same =>
    rw [same] at isFound
    exact older id lease (update_none_eq_some_iff.mp isFound).2

/-- **A lease that is not revoked stays until its deadline**: a renewal moves the deadline up, and the
expiry loop removes what has expired. -/
theorem lasts_step (change : LeaseChange leases after call now) (ordered : time ≤ now)
    (continues : now ≤ later) (representable : later ≤ maxInstant) (granted : Granted leases time)
    {id : Int} (unrevoked : call ≠ .revoke id) {grantedTtl : Int64} {deadline : Int}
    (lasts : Lasts id grantedTtl deadline leases time) : Lasts id grantedTtl deadline after later := by
  intro early
  obtain ⟨lease, found, itsTtl, itsDeadline⟩ := lasts (by omega)
  cases change with
  | unchanged same => exact ⟨lease, same ▸ found, itsTtl, itsDeadline⟩
  | granted new free positive whole begun same =>
    have differs : id ≠ new.id := by
      rintro rfl
      rw [free] at found
      cases found
    exact ⟨lease, by rw [same, Function.update_of_ne differs, found], itsTtl, itsDeadline⟩
  | renewed id' old found' same =>
    by_cases it : id = id'
    · subst it
      rw [found] at found'
      cases found'
      obtain ⟨positive, whole, begun, -⟩ := granted id lease found
      refine ⟨{ lease with ttl := lease.grantedTtl, createdAt := now }, by rw [same, Function.update_self],
        itsTtl, itsDeadline.trans ?_⟩
      simp only [Lease.deadline, whole]
      omega
    · exact ⟨lease, by rw [same, Function.update_of_ne it, found], itsTtl, itsDeadline⟩
  | revoked id' revokes same =>
    have differs : id ≠ id' := fun it => unrevoked (it ▸ revokes)
    exact ⟨lease, by rw [same, Function.update_of_ne differs, found], itsTtl, itsDeadline⟩
  | expired id' old found' late same =>
    by_cases it : id = id'
    · subst it
      rw [found] at found'
      cases found'
      have ended := (Lease.isExpired_iff (.inl (granted id lease found).1)
        (continues.trans representable)).mp late
      omega
    · exact ⟨lease, by rw [same, Function.update_of_ne it, found], itsTtl, itsDeadline⟩

end LeaseChange

/-! ### Runs -/

/-- No `recover` in the run. -/
def Unrecovered (actions : List Action) : Prop := ∀ action ∈ actions, ∀ leases, action.call ≠ .recover leases

theorem granted_run {start : Nat} {actions : List Action} {s : Clocked Q} (unrecovered : Unrecovered actions)
    (runs : runFrom Clocked.step (Clocked.new Q start) actions = some s) :
    Granted s.manager.leases s.time := by
  have keeps : ∀ (s : Clocked Q) (action : Action) (t : Clocked Q), s.step action = some t →
      (∀ leases, action.call ≠ .recover leases) → Granted s.manager.leases s.time →
      Granted t.manager.leases t.time := by
    intro s action t moves kept granted
    obtain ⟨continues, representable, change⟩ := Clocked.leaseChange moves kept
    exact change.granted_step (Nat.le_add_right _ _) continues representable granted
  refine run_invariant keeps ?_ (Along.of_forall unrecovered _) runs
  intro id lease found
  cases found

/-- The clock does not go back. -/
theorem time_run {actions : List Action} {s t : Clocked Q} (unrecovered : Unrecovered actions)
    (runs : runFrom Clocked.step s actions = some t) : s.time ≤ t.time := by
  have keeps : ∀ (u : Clocked Q) (action : Action) (v : Clocked Q), u.step action = some v →
      (∀ leases, action.call ≠ .recover leases) → s.time ≤ u.time → s.time ≤ v.time := by
    intro u action v moves kept since
    exact since.trans ((Nat.le_add_right _ _).trans (Clocked.leaseChange moves kept).1)
  exact run_invariant keeps le_rfl (Along.of_forall unrecovered _) runs

/-- **A lease lasts through every run** that does not revoke it. -/
theorem lasts_run {id : Int} {grantedTtl : Int64} {deadline : Int} {actions : List Action}
    {s t : Clocked Q} (unrecovered : Unrecovered actions)
    (unrevoked : ∀ action ∈ actions, action.call ≠ .revoke id)
    (runs : runFrom Clocked.step s actions = some t) (granted : Granted s.manager.leases s.time)
    (lasts : Lasts id grantedTtl deadline s.manager.leases s.time) :
    Granted t.manager.leases t.time ∧ Lasts id grantedTtl deadline t.manager.leases t.time := by
  have keeps : ∀ (s : Clocked Q) (action : Action) (t : Clocked Q), s.step action = some t →
      ((∀ leases, action.call ≠ .recover leases) ∧ action.call ≠ .revoke id) →
      (Granted s.manager.leases s.time ∧ Lasts id grantedTtl deadline s.manager.leases s.time) →
      Granted t.manager.leases t.time ∧ Lasts id grantedTtl deadline t.manager.leases t.time := by
    rintro s action t moves ⟨kept, unrevoked⟩ ⟨granted, lasts⟩
    obtain ⟨continues, representable, change⟩ := Clocked.leaseChange moves kept
    have ordered := Nat.le_add_right s.time action.wait
    exact ⟨change.granted_step ordered continues representable granted,
      change.lasts_step ordered continues representable granted unrevoked lasts⟩
  exact run_invariant keeps ⟨granted, lasts⟩
    (Along.of_forall (fun action member => ⟨unrecovered action member, unrevoked action member⟩) _) runs

/-- A lease that is there is reported with the time until its deadline at least. -/
theorem Lasts.report {id : Int} {grantedTtl : Int64} {deadline : Int} {t : Clocked Q} (later : LeaseManager Q)
    (granted : Granted t.manager.leases t.time)
    (lasts : Lasts id grantedTtl deadline t.manager.leases t.time) (early : (t.time : Int) < deadline) :
    ∃ ttl keys, t.manager.timeToLive later id t.time = .ok (ttl, grantedTtl, keys) ∧
      deadline - t.time ≤ second * ttl.toInt := by
  obtain ⟨lease, found, itsTtl, itsDeadline⟩ := lasts early
  obtain ⟨positive, -, begun, representable⟩ := granted id lease found
  refine ⟨lease.remainingTtl t.time, (later.leaseKeys id).getD [], ?_, ?_⟩
  · rw [LeaseManager.timeToLive, found]
    simp only [itsTtl]
  · have left := (Lease.remainingTtl_spec positive.le begun representable).1
    omega

/-- **A reported time to live holds.** After `time_to_live` has reported `ttl` seconds, the lease is there for
more than `ttl - 1` seconds in every run that neither revokes nor recovers it, whatever is granted, renewed,
attached and expired meanwhile; and what is reported later has not gone down faster than the clock. -/
theorem reported_ttl_holds (start : Nat) (before after : List Action) (s t : Clocked Q)
    (runs : runFrom Clocked.step (Clocked.new Q start) before = some s)
    (continues : runFrom Clocked.step s after = some t) (unrecovered : Unrecovered (before ++ after))
    (id : Int) (unrevoked : ∀ action ∈ after, action.call ≠ .revoke id) (keysAt later : LeaseManager Q)
    (ttl grantedTtl : Int64) (keys : List Bytes)
    (reported : s.manager.timeToLive keysAt id s.time = .ok (ttl, grantedTtl, keys))
    (within : t.time ≤ s.time + second * (ttl.toInt - 1)) :
    ∃ ttl' keys', t.manager.timeToLive later id t.time = .ok (ttl', grantedTtl, keys') ∧ 0 < ttl'.toInt ∧
      second * (ttl.toInt - 1) < second * ttl'.toInt + (t.time - s.time) := by
  obtain ⟨first, next⟩ := List.forall_mem_append.mp unrecovered
  have granted := granted_run first runs
  rw [LeaseManager.timeToLive] at reported
  cases found : s.manager.leases id with
  | none =>
    rw [found] at reported
    cases reported
  | some lease =>
    rw [found] at reported
    cases reported
    obtain ⟨positive, -, begun, representable⟩ := granted id lease found
    have lasts : Lasts id lease.grantedTtl lease.deadline s.manager.leases s.time :=
      fun _ => ⟨lease, found, rfl, le_rfl⟩
    obtain ⟨granted, lasts⟩ := lasts_run next unrevoked continues granted lasts
    have since := time_run next continues
    obtain ⟨upper, lower⟩ := Lease.remainingTtl_spec positive.le begun representable
    have left : 0 < (lease.remainingTtl s.time).toInt := by
      norm_num [second] at within
      omega
    have long := lower left
    obtain ⟨ttl', keys', report, bound⟩ := lasts.report later granted (by omega)
    refine ⟨ttl', keys', report, ?_, by omega⟩
    norm_num [second] at bound within long ⊢
    omega

/-- What a keep-alive with a positive answer leaves: the lease renewed, with the answered TTL. -/
theorem keepAlive_renews {m : LeaseManager Q} {id : Int} {proposed : Except String Unit} {now later : Nat}
    {ttl : Int64} (positive : 0 < ttl.toInt)
    (answered : (keepAlive m id proposed now later).1 = .ok ⟨id, ttl⟩) :
    (keepAlive m id proposed now later).2 = (m.renew id now later).2 ∧
      ∃ lease, (m.renew id now later).2.leases id = some lease ∧ lease.grantedTtl = ttl ∧
        lease.deadline = now + second * ttl.toInt := by
  unfold keepAlive at answered ⊢
  split_ifs at answered ⊢ with zero
  cases proposed with
  | error text => cases answered
  | ok _ =>
    unfold LeaseManager.renew at answered ⊢
    cases found : m.leases id with
    | none =>
      -- the answer to an unknown lease is 0
      simp only [found] at answered
      cases answered
      exact absurd positive (by decide)
    | some lease =>
      simp only [found] at answered ⊢
      cases adds : addTtl later lease.grantedTtl with
      | none =>
        rw [adds] at answered
        cases answered
      | some expiresAt =>
        rw [adds] at answered
        cases answered
        exact ⟨rfl, _, Function.update_self .., rfl, rfl⟩

/-- **A keep-alive holds.** When the stream answers a keep-alive with a TTL, the lease is there for that long
from the renewal on, in every run that neither revokes nor recovers it. -/
theorem keep_alive_holds (start : Nat) (before after : List Action) (s u t : Clocked Q) (wait delay : Nat)
    (id : Int) (runs : runFrom Clocked.step (Clocked.new Q start) before = some s)
    (moves : s.step ⟨wait, .renew id delay⟩ = some u)
    (continues : runFrom Clocked.step u after = some t) (unrecovered : Unrecovered (before ++ after))
    (unrevoked : ∀ action ∈ after, action.call ≠ .revoke id) (proposed : Except String Unit) (ttl : Int64)
    (answered : (keepAlive s.manager id proposed (s.time + wait) (s.time + wait + delay)).1 = .ok ⟨id, ttl⟩)
    (within : t.time < s.time + wait + second * ttl.toInt) (later : LeaseManager Q) :
    ∃ ttl' keys', t.manager.timeToLive later id t.time = .ok (ttl', ttl, keys') ∧
      second * ttl.toInt ≤ second * ttl'.toInt + (t.time - (s.time + wait)) := by
  obtain ⟨first, next⟩ := List.forall_mem_append.mp unrecovered
  have renewal : ∀ leases, (⟨wait, .renew id delay⟩ : Action).call ≠ .recover leases :=
    fun leases same => by cases same
  obtain ⟨ordered, representable, change⟩ := Clocked.leaseChange moves renewal
  have granted := change.granted_step (Nat.le_add_right _ _) ordered representable (granted_run first runs)
  have since := time_run next continues
  dsimp only at ordered
  have positive : 0 < ttl.toInt := by
    norm_num [second] at within
    omega
  obtain ⟨-, lease, found, itsTtl, itsDeadline⟩ := keepAlive_renews positive answered
  -- the manager after the step is the one after the renewal
  have renewed : u.manager.leases id = some lease := by
    obtain ⟨-, performs⟩ := Clocked.step_some moves
    unfold Clocked.perform at performs
    dsimp only at performs
    split at performs
    · cases performs
    · obtain ⟨rfl, -⟩ := Clocked.tick_some ‹_›
      rw [← Option.some.inj performs]
      exact found
  have lasts : Lasts id ttl lease.deadline u.manager.leases u.time :=
    fun _ => ⟨lease, renewed, itsTtl, le_rfl⟩
  obtain ⟨granted, lasts⟩ := lasts_run next unrevoked continues granted lasts
  obtain ⟨ttl', keys', report, bound⟩ := lasts.report later granted (by rw [itsDeadline]; push_cast; omega)
  refine ⟨ttl', keys', report, ?_⟩
  rw [itsDeadline] at bound
  push_cast at bound
  omega

/-- A lease of five seconds is granted, and a key is attached one second and a half later. -/
def attachedRun : List Action := [⟨0, .grant 7 5⟩, ⟨3 * second / 2, .attach 7 [2]⟩]

theorem attached_lease_holds :
    ∃ s t : Clocked (.listQueue laterFirst),
      runFrom Clocked.step (Clocked.new _ 0) attachedRun = some s ∧
      s.manager.timeToLive s.manager 7 s.time = .ok (4, 5, [[2]]) ∧
      runFrom Clocked.step s [⟨second, .expire 0⟩] = some t ∧
      ∃ ttl' keys', t.manager.timeToLive t.manager 7 t.time = .ok (ttl', 5, keys') ∧ 0 < ttl'.toInt := by
  have ran : (runFrom Clocked.step (Clocked.new (.listQueue laterFirst) 0) attachedRun).any (fun s =>
      decide (s.manager.timeToLive s.manager 7 s.time = .ok (4, 5, [[2]])) &&
        (runFrom Clocked.step s [⟨second, .expire 0⟩]).any
          (fun t => decide ((t.time : Int) ≤ s.time + second * ((4 : Int64).toInt - 1)))) = true := by
    decide +kernel
  obtain ⟨s, runs, reports⟩ := (Option.any_eq_true _ _).mp ran
  simp only [Bool.and_eq_true, Option.any_eq_true, decide_eq_true_eq] at reports
  obtain ⟨reported, t, continues, within⟩ := reports
  obtain ⟨ttl', keys', report, positive, -⟩ :=
    reported_ttl_holds 0 attachedRun [⟨second, .expire 0⟩] s t runs continues
      (by
        intro action member leases
        simp only [attachedRun, List.mem_append, List.mem_cons, List.not_mem_nil, or_false] at member
        rcases member with (rfl | rfl) | rfl <;> exact fun same => by cases same)
      7 (by
        intro action member
        rw [List.mem_singleton.mp member]
        exact fun same => by cases same)
      s.manager t.manager 4 5 [[2]] reported within
  exact ⟨s, t, runs, reported, continues, ttl', keys', report, positive⟩

/-- The lease is kept alive two seconds later, and outlasts its first deadline. -/
theorem kept_alive_lease_holds :
    ∃ s u t : Clocked (.listQueue laterFirst),
      runFrom Clocked.step (Clocked.new _ 0) attachedRun = some s ∧
      s.step ⟨2 * second, .renew 7 3⟩ = some u ∧
      runFrom Clocked.step u [⟨4 * second, .expire (5 * second)⟩] = some t ∧
      ∃ ttl' keys', t.manager.timeToLive t.manager 7 t.time = .ok (ttl', 5, keys') := by
  have ran : (runFrom Clocked.step (Clocked.new (.listQueue laterFirst) 0) attachedRun).any (fun s =>
      decide ((keepAlive s.manager 7 (.ok ()) (s.time + 2 * second) (s.time + 2 * second + 3)).1 =
        .ok ⟨7, 5⟩) &&
      (s.step ⟨2 * second, .renew 7 3⟩).any fun u =>
        (runFrom Clocked.step u [⟨4 * second, .expire (5 * second)⟩]).any fun t =>
          decide ((t.time : Int) < s.time + (2 * second : Nat) + second * (5 : Int64).toInt)) = true := by
    decide +kernel
  obtain ⟨s, runs, answers⟩ := (Option.any_eq_true _ _).mp ran
  simp only [Bool.and_eq_true, Option.any_eq_true, decide_eq_true_eq] at answers
  obtain ⟨answered, u, moves, t, continues, within⟩ := answers
  obtain ⟨ttl', keys', report, -⟩ :=
    keep_alive_holds 0 attachedRun [⟨4 * second, .expire (5 * second)⟩] s u t (2 * second) 3 7 runs moves
      continues
      (by
        intro action member leases
        simp only [attachedRun, List.mem_append, List.mem_cons, List.not_mem_nil, or_false] at member
        rcases member with (rfl | rfl) | rfl <;> exact fun same => by cases same)
      (by
        intro action member
        rw [List.mem_singleton.mp member]
        exact fun same => by cases same)
      (.ok ()) 5 answered within t.manager
  exact ⟨s, u, t, runs, moves, continues, ttl', keys', report⟩

end Rusd.Leases
