/-
**The ids that the lease manager assigns itself.**

`grant(0, ttl)` takes the id from a counter, which knows nothing of the ids that clients choose and
snapshots bring. If a lease has the id already the grant fails, and if the TTL does not fit the clock it
panics.

* `Free` — no lease has the id that comes next; `autoGranted_iff` — what one grant needs.
* `Avoids` — the steps after which the id that comes next is free again.
* `auto_granted_iff` — runs: in every state a grant succeeds for the TTLs that fit, exactly if every
  step `Avoids` the id.
-/

import Rusd.Lease.Bookkeeping

namespace Rusd.Leases

variable {Q : PriorityQueue laterFirst}

/-- The sum of the instant and the TTL is an instant. -/
def Fits (instant : Nat) (ttl : Int64) : Prop :=
  0 ≤ ttl.toInt ∧ (instant : Int) + second * ttl.toInt ≤ maxInstant

instance (instant : Nat) (ttl : Int64) : Decidable (Fits instant ttl) := instDecidableAnd

theorem addTtl_isSome_iff {instant : Nat} {ttl : Int64} :
    (addTtl instant ttl).isSome ↔ Fits instant ttl := by
  constructor
  · intro isSome
    obtain ⟨sum, adds⟩ := Option.isSome_iff_exists.mp isSome
    obtain ⟨nonneg, isSum⟩ := addTtl_some adds
    have bound : sum ≤ maxInstant := by
      unfold addTtl at adds
      dsimp only at adds
      split_ifs at adds with small
      rwa [← Option.some.inj adds]
    refine ⟨nonneg, ?_⟩
    rw [← isSum]
    exact_mod_cast bound
  · rintro ⟨nonneg, fits⟩
    have unsigned := toNat_toUInt64 ttl
    rw [if_neg (not_lt.mpr nonneg)] at unsigned
    rw [← unsigned] at fits
    have small : instant + second * ttl.toUInt64.toNat ≤ maxInstant := by exact_mod_cast fits
    unfold addTtl
    dsimp only
    rw [if_pos small]
    rfl

/-- The counter moves on, also where it wraps around. -/
theorem fetchAddOne_ne (n : Int) : fetchAddOne n ≠ n := by
  intro same
  have rest : (fetchAddOne n) % (2 ^ 64 : Nat) = (n + 1) % (2 ^ 64 : Nat) := Int.bmod_emod
  rw [same] at rest
  omega

/-! ### One grant -/

/-- No lease has the id that the counter gives next. -/
def Free (m : LeaseManager Q) : Prop := m.leases m.nextLeaseId = none

/-- `grant(0, ttl)` returns a lease, under an id that was not in use. -/
def AutoGranted (m : LeaseManager Q) (ttl : Int64) (now : Nat) : Prop :=
  ∃ lease, (m.grant 0 ttl now).1 = .ok lease ∧ m.leases lease.id = none

/-- **An automatic grant needs the id to be free and the TTL to fit.** -/
theorem autoGranted_iff {m : LeaseManager Q} {ttl : Int64} (positive : 0 < ttl) {now : Nat} :
    AutoGranted m ttl now ↔ Free m ∧ Fits now ttl := by
  unfold AutoGranted LeaseManager.grant LeaseManager.assignId
  rw [if_neg (Int64.not_le.mpr positive), if_pos rfl, ← addTtl_isSome_iff]
  dsimp only
  by_cases taken : (m.leases m.nextLeaseId).isSome
  · rw [if_pos taken]
    constructor
    · rintro ⟨lease, fails, _⟩
      cases fails
    · rintro ⟨free, _⟩
      rw [free] at taken
      cases taken
  · have free : m.leases m.nextLeaseId = none := Option.not_isSome_iff_eq_none.mp taken
    rw [if_neg taken]
    cases adds : addTtl now ttl with
    | none =>
      constructor
      · rintro ⟨lease, fails, _⟩
        cases fails
      · rintro ⟨_, fits⟩
        cases fits
    | some expiresAt => exact iff_of_true ⟨_, rfl, free⟩ ⟨free, rfl⟩

/-- Every automatic grant whose TTL fits succeeds exactly if the id is free. -/
theorem free_iff {m : LeaseManager Q} :
    Free m ↔ ∀ ttl now, 0 < ttl → (AutoGranted m ttl now ↔ Fits now ttl) := by
  constructor
  · intro free ttl now positive
    rw [autoGranted_iff positive]
    exact ⟨fun both => both.2, fun fits => ⟨free, fits⟩⟩
  · intro grants
    have fits : Fits 0 1 := by decide
    exact ((autoGranted_iff (by decide)).mp ((grants 1 0 (by decide)).mpr fits)).1

/-! ### One step -/

/-- The leases that `recover` inserts: those before the first whose expiry cannot be represented. -/
def recovered (leases : List Lease) : List Lease :=
  leases.takeWhile fun lease => Fits lease.createdAt lease.ttl

/-- After the step no lease has the id that comes next. An automatic grant moves the counter, even if
it panics; a lease that a client or a snapshot brings has another id. -/
def Avoids (s : Clocked Q) (action : Action) : Prop :=
  s.time + action.wait ≤ maxInstant →
    match action.call with
    | .grant id ttl => 0 < ttl →
      if id = 0 then s.manager.leases (fetchAddOne s.manager.nextLeaseId) = none
      else id = s.manager.nextLeaseId → ¬ Fits (s.time + action.wait) ttl
    | .recover leases => ∀ lease ∈ recovered leases, lease.id ≠ s.manager.nextLeaseId
    | _ => True

namespace LeaseManager

variable {m : LeaseManager Q}

theorem free_grant_zero (free : Free m) {ttl : Int64} (positive : 0 < ttl) (now : Nat) :
    Free (m.grant 0 ttl now).2 ↔ m.leases (fetchAddOne m.nextLeaseId) = none := by
  unfold grant assignId
  rw [if_neg (Int64.not_le.mpr positive), if_pos rfl]
  dsimp only
  rw [free]
  cases addTtl now ttl with
  | none => exact Iff.rfl
  | some expiresAt =>
    change Function.update m.leases m.nextLeaseId _ (fetchAddOne m.nextLeaseId) = none ↔ _
    rw [Function.update_of_ne (fetchAddOne_ne _)]

theorem free_grant (free : Free m) {id : Int} (explicit : id ≠ 0) {ttl : Int64} (positive : 0 < ttl)
    (now : Nat) : Free (m.grant id ttl now).2 ↔ (id = m.nextLeaseId → ¬ Fits now ttl) := by
  unfold grant assignId
  rw [if_neg (Int64.not_le.mpr positive), if_neg explicit, ← addTtl_isSome_iff]
  dsimp only
  split_ifs with taken
  · refine iff_of_true free fun same => ?_
    rw [same, free] at taken
    cases taken
  · cases addTtl now ttl with
    | none => exact iff_of_true free fun _ fits => by cases fits
    | some expiresAt =>
      change Function.update m.leases id _ m.nextLeaseId = none ↔ _
      rw [Function.update_apply]
      split_ifs with same
      · exact iff_of_false (fun none => by cases none) fun avoids => avoids same.symm rfl
      · exact iff_of_true free fun it => absurd it.symm same

theorem recover_nextLeaseId (leases : List Lease) : ∀ {m : LeaseManager Q},
    (m.recover leases).2.nextLeaseId = m.nextLeaseId := by
  induction leases with
  | nil => exact rfl
  | cons lease rest ih =>
    intro m
    rw [recover]
    split
    · rfl
    · exact ih

theorem recover_leases_eq_none (leases : List Lease) : ∀ {m : LeaseManager Q} {id : Int},
    (m.recover leases).2.leases id = none ↔
      m.leases id = none ∧ ∀ lease ∈ recovered leases, lease.id ≠ id := by
  induction leases with
  | nil => exact fun {m id} => ⟨fun none => ⟨none, fun _ member => absurd member List.not_mem_nil⟩, And.left⟩
  | cons lease rest ih =>
    intro m id
    rw [recover]
    have fits : (addTtl lease.createdAt lease.ttl).isSome ↔ Fits lease.createdAt lease.ttl :=
      addTtl_isSome_iff
    cases adds : addTtl lease.createdAt lease.ttl with
    | none =>
      rw [adds] at fits
      have stops : recovered (lease :: rest) = [] :=
        List.takeWhile_cons_of_neg fun it => by cases fits.mpr (of_decide_eq_true it)
      rw [stops]
      exact ⟨fun none => ⟨none, fun _ member => absurd member List.not_mem_nil⟩, And.left⟩
    | some expiresAt =>
      rw [adds] at fits
      have goes : recovered (lease :: rest) = lease :: recovered rest :=
        List.takeWhile_cons_of_pos (decide_eq_true (fits.mp rfl))
      rw [goes, List.forall_mem_cons, ← and_assoc]
      refine ih.trans (and_congr_left' ?_)
      rw [record_leases, Function.update_apply]
      split_ifs with same
      · exact iff_of_false (fun none => by cases none) fun both => both.2 same.symm
      · exact ⟨fun none => ⟨none, Ne.symm same⟩, And.left⟩

theorem free_recover (free : Free m) (leases : List Lease) :
    Free (m.recover leases).2 ↔ ∀ lease ∈ recovered leases, lease.id ≠ m.nextLeaseId := by
  unfold Free
  rw [recover_nextLeaseId, recover_leases_eq_none]
  exact ⟨And.right, fun avoids => ⟨free, avoids⟩⟩

theorem free_remove (free : Free m) (id : Int) : Free (m.remove id) := by
  change Function.update m.leases id none m.nextLeaseId = none
  rw [Function.update_apply]
  split_ifs
  · rfl
  · exact free

theorem free_revoke (free : Free m) (id : Int) : Free (m.revoke id).2 := by
  unfold revoke
  split
  · exact free_remove free id
  · exact free

/-- A renewal writes the record of a lease that is there. -/
theorem free_renew (free : Free m) (id : Int) (now later : Nat) : Free (m.renew id now later).2 := by
  unfold renew
  split
  · rename_i lease found
    have differs : m.nextLeaseId ≠ id := by
      rintro rfl
      rw [free] at found
      cases found
    have written : ∀ renewed, Function.update m.leases id (some renewed) m.nextLeaseId = none :=
      fun renewed => (Function.update_of_ne differs _ _).trans free
    dsimp only
    split
    · exact written _
    · exact written _
  · exact free

theorem free_attach (free : Free m) (id : Int) (key : Bytes) : Free (m.attach id key).2 := by
  unfold attach
  split_ifs
  · split
    · exact free
    · exact free
  · exact free

theorem free_detach (free : Free m) (id : Int) (key : Bytes) : Free (m.detach id key).2 := by
  unfold detach
  split
  · exact free
  · exact free

theorem free_nextEvent (free : Free m) (now reading : Nat) : Free (m.nextEvent now reading).2 := by
  rcases m.nextEvent_cases now reading with ⟨idle, _⟩ |
    ⟨entry, rest, _, _, ⟨stale, _⟩ | ⟨lease, _, _, removed⟩⟩
  · rw [idle]
    exact free
  · rw [stale]
    exact free
  · rw [removed]
    exact free_remove free entry.leaseId

end LeaseManager

/-- **A step leaves the id that comes next free exactly if it `Avoids` it.** -/
theorem free_step {s t : Clocked Q} {action : Action} (moves : s.step action = some t)
    (free : Free s.manager) : Free t.manager ↔ Avoids s action := by
  obtain ⟨representable, performs⟩ := Clocked.step_some moves
  obtain ⟨wait, call⟩ := action
  unfold Avoids
  rw [forall_prop_of_true representable]
  cases call with
  | grant id ttl =>
    rw [← Option.some.inj performs]
    dsimp only
    by_cases positive : 0 < ttl
    · rw [forall_prop_of_true positive]
      split_ifs with auto
      · rw [auto]
        exact LeaseManager.free_grant_zero free positive _
      · exact LeaseManager.free_grant free auto positive _
    · refine iff_of_true ?_ fun it => absurd it positive
      unfold LeaseManager.grant
      rw [if_pos (Int64.not_lt.mp positive)]
      exact free
  | revoke id =>
    rw [← Option.some.inj performs]
    exact iff_of_true (LeaseManager.free_revoke free id) trivial
  | renew id delay =>
    unfold Clocked.perform at performs
    dsimp only at performs
    split at performs
    · cases performs
    · rw [← Option.some.inj performs]
      exact iff_of_true (LeaseManager.free_renew free id _ _) trivial
  | attach id key =>
    rw [← Option.some.inj performs]
    exact iff_of_true (LeaseManager.free_attach free id key) trivial
  | detach id key =>
    rw [← Option.some.inj performs]
    exact iff_of_true (LeaseManager.free_detach free id key) trivial
  | recover leases =>
    rw [← Option.some.inj performs]
    exact LeaseManager.free_recover free leases
  | expire now =>
    unfold Clocked.perform at performs
    dsimp only at performs
    split_ifs at performs
    rw [← Option.some.inj performs]
    exact iff_of_true (LeaseManager.free_nextEvent free now _) trivial

/-- A call that the clock does not allow changes nothing. -/
theorem avoids_of_idle {s : Clocked Q} {action : Action} (idle : s.step action = none) :
    Avoids s action := by
  intro representable
  have ticked : s.tick action.wait = some { s with time := s.time + action.wait } := by
    unfold Clocked.tick
    rw [if_pos representable]
  unfold Clocked.step at idle
  rw [ticked] at idle
  obtain ⟨wait, call⟩ := action
  cases call with
  | grant id ttl => cases idle
  | recover leases => cases idle
  | revoke id => trivial
  | renew id delay => trivial
  | attach id key => trivial
  | detach id key => trivial
  | expire now => trivial

/-! ### Runs -/

/-- **In every state of a run an automatic grant returns a new id for the TTLs that fit the clock,
exactly if every step `Avoids` the id that comes next.** -/
theorem auto_granted_iff (start : Nat) (actions : List Action) :
    Throughout Clocked.step
        (fun s => ∀ ttl now, 0 < ttl → (AutoGranted s.manager ttl now ↔ Fits now ttl))
        (Clocked.new Q start) actions ↔
      Along Clocked.step Avoids (Clocked.new Q start) actions := by
  have new : Free (Clocked.new Q start).manager := rfl
  have admitted : ∀ action ∈ actions, (fun _ : Action => True) action := fun _ _ => trivial
  refine throughout_iff (fun s => Free s.manager) (fun s => free_iff.mp)
    (fun s action => avoids_of_idle) ?_ ?_ admitted new
  · intro s action next _ moves free grants
    exact (free_step moves free).mp (free_iff.mpr grants)
  · intro s action next _ moves free avoids
    exact (free_step moves free).mpr avoids

/-- A client has chosen the id 1, the first one of the counter; and on a clock that shows one second the
greatest TTL has no expiry. -/
theorem auto_grant_fails :
    (∃ s : Clocked (.listQueue laterFirst),
      runFrom Clocked.step (Clocked.new _ second) [⟨0, .grant 1 10⟩] = some s ∧
        (s.manager.grant 0 5 second).1 = .err (.leaseAlreadyExists 1)) ∧
      ((LeaseManager.new (.listQueue laterFirst)).grant 0 Int64.maxValue second).1 = .panic := by
  have ends : (runFrom Clocked.step (Clocked.new (.listQueue laterFirst) second)
      [⟨0, .grant 1 10⟩]).map (fun s => (s.manager.grant 0 5 second).1) =
      some (.err (.leaseAlreadyExists 1)) := by
    decide +kernel
  obtain ⟨s, runs, fails⟩ := Option.map_eq_some_iff.mp ends
  exact ⟨⟨s, runs, fails⟩, by decide +kernel⟩

end Rusd.Leases
