/-
**The bookkeeping of the lease manager.**

Entries are never taken out of the expiry queue when a lease is renewed or revoked, so an iteration
of the expiry loop may take off an entry of a lease that has been renewed since. What keeps a live
lease from being orphaned is that some entry of it lies at or after its deadline, and such an entry
is taken off only when the lease has expired.

* `SameIds` — the two maps have the same ids; every call keeps this.
* `Queued` — every lease has an entry that is not before its deadline. A renewal whose expiry cannot
  be represented panics after the record is written, and leaves a lease without one
  (`bookkeeping_fails`).
* `bookkeeping` — in a run none of whose renewals panics both hold throughout, and an iteration of
  the expiry loop removes no lease before the deadline its latest grant, renewal or recovery set.
* `LeaseManager.untimed_grant`, `untimed_revoke` — without times it is the lease manager that the
  handlers act on.
-/

import Rusd.Lease.Manager

namespace Rusd.Leases

variable {Q : PriorityQueue laterFirst}

/-- The maps `leases` and `lease_keys` have the same ids. -/
def SameIds (m : LeaseManager Q) : Prop := ∀ id, (m.leases id).isSome = (m.leaseKeys id).isSome

/-- Every lease has an entry in the expiry queue that is not before its deadline. -/
def Queued (m : LeaseManager Q) : Prop :=
  ∀ id lease, m.leases id = some lease →
    ∃ entry ∈ Q.entries m.expiryQueue, entry.leaseId = id ∧ lease.deadline ≤ entry.expiresAt

/-! ### What the calls do -/

namespace LeaseManager

variable (m : LeaseManager Q)

/-- A grant changes no lease and no entry, or it returns a lease that it has written. -/
theorem grant_cases (id : Int) (ttl : Int64) (now : Nat) :
    ((∀ lease, (m.grant id ttl now).1 ≠ .ok lease) ∧ (m.grant id ttl now).2.leases = m.leases ∧
      (m.grant id ttl now).2.expiryQueue = m.expiryQueue) ∨
    ∃ lease expiresAt, (m.grant id ttl now).1 = .ok lease ∧ lease.createdAt = now ∧
      0 < lease.ttl ∧ addTtl now lease.ttl = some expiresAt ∧
      (m.grant id ttl now).2.leases = Function.update m.leases lease.id (some lease) ∧
      (m.grant id ttl now).2.expiryQueue = Q.push m.expiryQueue ⟨lease.id, expiresAt⟩ := by
  have leases : (m.assignId id).2.leases = m.leases := by
    unfold assignId
    split_ifs <;> rfl
  have queue : (m.assignId id).2.expiryQueue = m.expiryQueue := by
    unfold assignId
    split_ifs <;> rfl
  unfold grant
  dsimp only
  split_ifs with invalid taken
  · exact Or.inl ⟨(fun _ ok => by cases ok), rfl, rfl⟩
  · exact Or.inl ⟨(fun _ ok => by cases ok), leases, queue⟩
  · cases adds : addTtl now ttl with
    | none => exact Or.inl ⟨(fun _ ok => by cases ok), leases, queue⟩
    | some expiresAt =>
      refine Or.inr ⟨_, expiresAt, rfl, rfl, Int64.not_le.mp invalid, adds, ?_, ?_⟩
      · rw [record_leases, leases]
      · dsimp only [record]
        rw [queue]

/-- An iteration of the expiry loop finds no due entry, takes off one whose lease is gone or has not
expired, or removes a lease. -/
theorem nextEvent_cases (now reading : Nat) :
    (m.nextEvent now reading = (none, m) ∧
      ∀ entry rest, Q.pop m.expiryQueue = some (entry, rest) → now < entry.expiresAt) ∨
    ∃ entry rest, Q.pop m.expiryQueue = some (entry, rest) ∧ entry.expiresAt ≤ now ∧
      ((m.nextEvent now reading = (none, { m with expiryQueue := rest }) ∧
        ∀ lease, m.leases entry.leaseId = some lease → ¬ lease.isExpired reading) ∨
      ∃ lease, m.leases entry.leaseId = some lease ∧ lease.isExpired reading ∧
        m.nextEvent now reading =
          (some ⟨entry.leaseId, (m.leaseKeys entry.leaseId).getD []⟩,
            remove { m with expiryQueue := rest } entry.leaseId)) := by
  unfold nextEvent
  rcases pops : Q.pop m.expiryQueue with _ | ⟨entry, rest⟩
  · exact Or.inl ⟨rfl, fun _ _ found => by cases found⟩
  · dsimp only
    split_ifs with early
    · refine Or.inl ⟨rfl, fun other others found => ?_⟩
      cases found
      exact early
    · refine Or.inr ⟨entry, rest, rfl, not_lt.mp early, ?_⟩
      cases found : m.leases entry.leaseId with
      | none => exact Or.inl ⟨rfl, fun _ it => by cases it⟩
      | some lease =>
        dsimp only
        split_ifs with expired
        · exact Or.inr ⟨lease, rfl, expired, rfl⟩
        · refine Or.inl ⟨rfl, fun other it => ?_⟩
          cases it
          exact expired

end LeaseManager

/-! ### The ids -/

namespace SameIds

variable {m : LeaseManager Q}

theorem record (same : SameIds m) (lease : Lease) (keys : List Bytes) (expiresAt : Nat) :
    SameIds (m.record lease keys expiresAt) := by
  intro id
  rw [LeaseManager.record_leases, LeaseManager.record_leaseKeys]
  by_cases it : id = lease.id
  · rw [it, Function.update_self, Function.update_self]
    rfl
  · rw [Function.update_of_ne it, Function.update_of_ne it]
    exact same id

theorem remove (same : SameIds m) (id : Int) : SameIds (m.remove id) := by
  intro other
  rw [LeaseManager.remove_leases, LeaseManager.remove_leaseKeys]
  by_cases it : other = id
  · rw [it, Function.update_self, Function.update_self]
    rfl
  · rw [Function.update_of_ne it, Function.update_of_ne it]
    exact same other

/-- A key set is replaced by another one. -/
theorem keys (same : SameIds m) {id : Int} {old : List Bytes} (found : m.leaseKeys id = some old)
    (keys : List Bytes) :
    SameIds { m with leaseKeys := Function.update m.leaseKeys id (some keys) } := by
  intro other
  dsimp only
  by_cases it : other = id
  · rw [it, Function.update_self, same id, found]
    rfl
  · rw [Function.update_of_ne it]
    exact same other

/-- A record is replaced by another one. -/
theorem renewed (same : SameIds m) {id : Int} {old : Lease} (found : m.leases id = some old)
    (lease : Lease) (queue : Q.Heap) :
    SameIds { m with leases := Function.update m.leases id (some lease), expiryQueue := queue } := by
  intro other
  dsimp only
  by_cases it : other = id
  · rw [it, Function.update_self, ← same id, found]
    rfl
  · rw [Function.update_of_ne it]
    exact same other

theorem assignId (same : SameIds m) (id : Int) : SameIds (m.assignId id).2 := by
  unfold LeaseManager.assignId
  split_ifs <;> exact same

theorem grant (same : SameIds m) (id : Int) (ttl : Int64) (now : Nat) :
    SameIds (m.grant id ttl now).2 := by
  have assigned := same.assignId id
  unfold LeaseManager.grant
  dsimp only
  split_ifs
  · exact same
  · exact assigned
  · split
    · exact assigned
    · exact assigned.record _ _ _

theorem revoke (same : SameIds m) (id : Int) : SameIds (m.revoke id).2 := by
  unfold LeaseManager.revoke
  split
  · exact same.remove id
  · exact same

theorem renew (same : SameIds m) (id : Int) (now later : Nat) : SameIds (m.renew id now later).2 := by
  unfold LeaseManager.renew
  split
  · rename_i lease found
    dsimp only
    split
    · exact same.renewed found _ _
    · exact same.renewed found _ _
  · exact same

theorem attach (same : SameIds m) (id : Int) (key : Bytes) : SameIds (m.attach id key).2 := by
  unfold LeaseManager.attach
  split_ifs
  · split
    · rename_i keys found
      exact same.keys found _
    · exact same
  · exact same

theorem detach (same : SameIds m) (id : Int) (key : Bytes) : SameIds (m.detach id key).2 := by
  unfold LeaseManager.detach
  split
  · rename_i keys found
    exact same.keys found _
  · exact same

theorem recover (leases : List Lease) : ∀ {m : LeaseManager Q}, SameIds m →
    SameIds (m.recover leases).2 := by
  induction leases with
  | nil => exact fun same => same
  | cons lease rest ih =>
    intro m same
    unfold LeaseManager.recover
    split
    · exact same
    · exact ih (same.record _ _ _)

theorem nextEvent (same : SameIds m) (now reading : Nat) :
    SameIds (m.nextEvent now reading).2 := by
  unfold LeaseManager.nextEvent
  split
  · exact same
  · split_ifs
    · exact same
    · dsimp only
      split
      · split_ifs
        · exact SameIds.remove same _
        · exact same
      · exact same

theorem perform {s t : Clocked Q} {call : Call} (same : SameIds s.manager)
    (done : s.perform call = some t) : SameIds t.manager := by
  cases call with
  | grant id ttl =>
    rw [← Option.some.inj done]
    exact same.grant id ttl s.time
  | revoke id =>
    rw [← Option.some.inj done]
    exact same.revoke id
  | renew id delay =>
    unfold Clocked.perform at done
    dsimp only at done
    split at done
    · cases done
    · rw [← Option.some.inj done]
      exact same.renew id _ _
  | attach id key =>
    rw [← Option.some.inj done]
    exact same.attach id key
  | detach id key =>
    rw [← Option.some.inj done]
    exact same.detach id key
  | recover leases =>
    rw [← Option.some.inj done]
    exact same.recover leases
  | expire now =>
    unfold Clocked.perform at done
    dsimp only at done
    split_ifs at done
    rw [← Option.some.inj done]
    exact same.nextEvent now s.time

end SameIds

/-! ### The entries and the promises -/

/-- Every lease has its entry, has begun if its TTL is zero, and lasts as long as was promised. -/
structure Kept (m : LeaseManager Q) (promised : Int → Option Int) (time : Nat) : Prop where
  queued : Queued m
  running : ∀ id lease, m.leases id = some lease → lease.Running time
  promised : ∀ id lease, m.leases id = some lease → promised id = some lease.deadline

namespace Kept

variable {m : LeaseManager Q} {promised : Int → Option Int} {time : Nat}

theorem later (kept : Kept m promised time) {after : Nat} (ordered : time ≤ after) :
    Kept m promised after where
  queued := kept.queued
  running id lease found := by
    rcases kept.running id lease found with positive | ⟨zero, begun⟩
    · exact Or.inl positive
    · exact Or.inr ⟨zero, begun.trans ordered⟩
  promised := kept.promised

/-- Neither the keys nor the counter matter. -/
theorem same (kept : Kept m promised time) {n : LeaseManager Q} (leases : n.leases = m.leases)
    (queue : n.expiryQueue = m.expiryQueue) : Kept n promised time where
  queued id lease found := by
    rw [queue]
    exact kept.queued id lease (leases ▸ found)
  running id lease found := kept.running id lease (leases ▸ found)
  promised id lease found := kept.promised id lease (leases ▸ found)

/-- A lease is written together with an entry that covers it. -/
theorem write (kept : Kept m promised time) {lease : Lease} {id : Int} {expiresAt : Nat}
    (running : lease.Running time) (covers : lease.deadline ≤ expiresAt) {n : LeaseManager Q}
    (leases : n.leases = Function.update m.leases id (some lease))
    (queue : n.expiryQueue = Q.push m.expiryQueue ⟨id, expiresAt⟩) :
    Kept n (Function.update promised id (some lease.deadline)) time := by
  refine ⟨fun other found isFound => ?_, fun other found isFound => ?_, fun other found isFound => ?_⟩
  all_goals
    rw [leases] at isFound
    by_cases it : other = id
  · rw [it, Function.update_self] at isFound
    rw [queue, it, ← Option.some.inj isFound]
    exact ⟨_, Q.mem_push.mpr (Or.inl rfl), rfl, covers⟩
  · rw [Function.update_of_ne it] at isFound
    obtain ⟨entry, mem, ofIt, covered⟩ := kept.queued other found isFound
    rw [queue]
    exact ⟨entry, Q.mem_push.mpr (Or.inr mem), ofIt, covered⟩
  · rw [it, Function.update_self] at isFound
    rw [← Option.some.inj isFound]
    exact running
  · rw [Function.update_of_ne it] at isFound
    exact kept.running other found isFound
  · rw [it, Function.update_self] at isFound
    rw [it, Function.update_self, ← Option.some.inj isFound]
  · rw [Function.update_of_ne it] at isFound
    rw [Function.update_of_ne it]
    exact kept.promised other found isFound

/-- A lease goes, and with it perhaps an entry of its own. -/
theorem drop (kept : Kept m promised time) {id : Int} {n : LeaseManager Q}
    (leases : n.leases = Function.update m.leases id none)
    (queue : ∀ entry ∈ Q.entries m.expiryQueue, entry.leaseId ≠ id →
      entry ∈ Q.entries n.expiryQueue) : Kept n promised time := by
  have stays : ∀ other lease, n.leases other = some lease →
      other ≠ id ∧ m.leases other = some lease := by
    intro other lease found
    rw [leases] at found
    by_cases it : other = id
    · rw [it, Function.update_self] at found
      cases found
    · rw [Function.update_of_ne it] at found
      exact ⟨it, found⟩
  refine ⟨fun other lease found => ?_, fun other lease found => ?_, fun other lease found => ?_⟩
  · obtain ⟨differs, found⟩ := stays other lease found
    obtain ⟨entry, mem, ofIt, covered⟩ := kept.queued other lease found
    exact ⟨entry, queue entry mem (ofIt ▸ differs), ofIt, covered⟩
  · exact kept.running other lease (stays other lease found).2
  · exact kept.promised other lease (stays other lease found).2

/-- An entry goes whose lease is not there or lasts longer than the entry says. -/
theorem pop (kept : Kept m promised time) {entry : LeaseExpiry} {rest : Q.Heap}
    (pops : Q.pop m.expiryQueue = some (entry, rest))
    (stale : ∀ lease, m.leases entry.leaseId = some lease → entry.expiresAt < lease.deadline) :
    Kept { m with expiryQueue := rest } promised time where
  queued id lease found := by
    obtain ⟨other, mem, ofIt, covered⟩ := kept.queued id lease found
    refine ⟨other, Q.mem_pop pops mem ?_, ofIt, covered⟩
    rintro rfl
    have early := stale lease (ofIt ▸ found)
    omega
  running := kept.running
  promised := kept.promised

theorem recover (leases : List Lease) : ∀ {m : LeaseManager Q} {promised : Int → Option Int},
    Kept m promised time → (∀ lease ∈ leases, 0 < lease.ttl) →
    Kept (m.recover leases).2 (promisesOf leases promised) time := by
  induction leases with
  | nil => exact fun kept _ => kept
  | cons lease rest ih =>
    intro m promised kept positive
    obtain ⟨first, others⟩ := List.forall_mem_cons.mp positive
    unfold LeaseManager.recover promisesOf
    cases adds : addTtl lease.createdAt lease.ttl with
    | none => exact kept
    | some expiresAt =>
      exact ih (kept.write (Or.inl (Int64.lt_iff_toInt_lt.mp first)) (addTtl_some adds).2.ge
        (LeaseManager.record_leases ..) rfl) others

theorem nextEvent (kept : Kept m promised time) (now : Nat) (begun : now ≤ time)
    (representable : time ≤ maxInstant) : Kept (m.nextEvent now time).2 promised time := by
  rcases m.nextEvent_cases now time with ⟨idle, _⟩ |
    ⟨entry, rest, pops, due, ⟨stale, alive⟩ | ⟨lease, found, expired, removed⟩⟩
  · rw [idle]
    exact kept
  · rw [stale]
    refine kept.pop pops fun lease found => ?_
    have lasts := alive lease found
    rw [Lease.isExpired_iff (kept.running _ _ found) representable] at lasts
    omega
  · rw [removed]
    exact kept.drop (LeaseManager.remove_leases ..) fun other mem differs =>
      Q.mem_pop pops mem fun same => differs (same ▸ rfl)

theorem grant (kept : Kept m promised time) (id : Int) (ttl : Int64) :
    Kept (m.grant id ttl time).2 (match (m.grant id ttl time).1 with
      | .ok lease => Function.update promised lease.id (some lease.deadline)
      | _ => promised) time := by
  rcases m.grant_cases id ttl time with ⟨fails, leases, queue⟩ |
    ⟨lease, expiresAt, granted, now, positive, adds, leases, queue⟩
  · have same := kept.same leases queue
    split
    · exact absurd ‹_› (fails _)
    · exact same
  · rw [granted]
    have running : lease.Running time := Or.inl (Int64.lt_iff_toInt_lt.mp positive)
    refine kept.write running ?_ leases queue
    have sum := (addTtl_some adds).2
    unfold Lease.deadline
    omega

/-- A renewal that does not panic. -/
theorem renew (kept : Kept m promised time) (id : Int) {later : Nat} (ordered : time ≤ later)
    (representable : ∀ lease, m.leases id = some lease → (addTtl later lease.grantedTtl).isSome) :
    Kept (m.renew id time later).2 (match (m.renew id time later).1 with
      | .ok ttl => Function.update promised id (some (time + second * ttl.toInt))
      | _ => promised) later := by
  unfold LeaseManager.renew
  cases found : m.leases id with
  | none => exact kept.later ordered
  | some lease =>
    obtain ⟨expiresAt, adds⟩ := Option.isSome_iff_exists.mp (representable lease found)
    obtain ⟨nonneg, sum⟩ := addTtl_some adds
    dsimp only
    rw [adds]
    have running : Lease.Running { lease with ttl := lease.grantedTtl, createdAt := time } later := by
      unfold Lease.Running
      dsimp only
      omega
    refine Kept.write (kept.later ordered) running ?_ rfl rfl
    unfold Lease.deadline
    dsimp only
    omega

end Kept

/-! ### Runs -/

/-- No renewal panics: the TTL its lease was granted can be added to the time of the call. Recovered
leases have a TTL. -/
def Orderly (s : Clocked Q) (action : Action) : Prop :=
  match action.call with
  | .renew id delay => ∀ lease, s.manager.leases id = some lease →
      (addTtl (s.time + action.wait + delay) lease.grantedTtl).isSome
  | .recover leases => ∀ lease ∈ leases, 0 < lease.ttl
  | _ => True

theorem Clocked.tick_some {s t : Clocked Q} {wait : Nat} (ticks : s.tick wait = some t) :
    t = { s with time := s.time + wait } ∧ t.time ≤ maxInstant := by
  unfold Clocked.tick at ticks
  split_ifs at ticks with representable
  rw [← Option.some.inj ticks]
  exact ⟨rfl, representable⟩

theorem Clocked.step_some {s t : Clocked Q} {action : Action} (moves : s.step action = some t) :
    s.time + action.wait ≤ maxInstant ∧
      Clocked.perform { s with time := s.time + action.wait } action.call = some t := by
  obtain ⟨ticked, ticks, performs⟩ := Option.bind_eq_some_iff.mp moves
  obtain ⟨rfl, representable⟩ := Clocked.tick_some ticks
  exact ⟨representable, performs⟩

theorem SameIds.step {s t : Clocked Q} {action : Action} (same : SameIds s.manager)
    (moves : s.step action = some t) : SameIds t.manager := by
  obtain ⟨_, performs⟩ := Clocked.step_some moves
  refine SameIds.perform ?_ performs
  exact same

theorem Kept.step {s t : Clocked Q} {action : Action} (moves : s.step action = some t)
    (orderly : Orderly s action) (kept : Kept s.manager s.promised s.time) :
    Kept t.manager t.promised t.time := by
  obtain ⟨representable, performs⟩ := Clocked.step_some moves
  have before := kept.later (Nat.le_add_right s.time action.wait)
  obtain ⟨wait, call⟩ := action
  cases call with
  | grant id ttl =>
    rw [← Option.some.inj performs]
    exact before.grant id ttl
  | revoke id =>
    rw [← Option.some.inj performs]
    dsimp only
    unfold LeaseManager.revoke
    split
    · exact before.drop (LeaseManager.remove_leases ..) fun entry mem _ => mem
    · exact before
  | renew id delay =>
    unfold Clocked.perform at performs
    dsimp only at performs
    split at performs
    · cases performs
    · rename_i later ticks
      obtain ⟨rfl, _⟩ := Clocked.tick_some ticks
      rw [← Option.some.inj performs]
      exact before.renew id (Nat.le_add_right _ delay) orderly
  | attach id key =>
    rw [← Option.some.inj performs]
    dsimp only
    unfold LeaseManager.attach
    split_ifs
    · split
      · exact before.same rfl rfl
      · exact before
    · exact before
  | detach id key =>
    rw [← Option.some.inj performs]
    dsimp only
    unfold LeaseManager.detach
    split
    · exact before.same rfl rfl
    · exact before
  | recover leases =>
    rw [← Option.some.inj performs]
    exact before.recover leases orderly
  | expire now =>
    unfold Clocked.perform at performs
    dsimp only at performs
    split_ifs at performs with begun
    rw [← Option.some.inj performs]
    exact before.nextEvent now begun representable

instance (s : Clocked Q) (action : Action) : Decidable (Orderly s action) :=
  match action with
  | ⟨_, .renew id _⟩ => decidable_of_iff (∀ lease ∈ s.manager.leases id, _) Iff.rfl
  | ⟨_, .recover leases⟩ => inferInstanceAs (Decidable (∀ lease ∈ leases, 0 < lease.ttl))
  | ⟨_, .grant ..⟩ | ⟨_, .revoke _⟩ | ⟨_, .attach ..⟩ | ⟨_, .detach ..⟩ | ⟨_, .expire _⟩ =>
    inferInstanceAs (Decidable True)

/-- What the bookkeeping promises: the maps have the same ids, every lease has an entry that covers
it, and an iteration of the expiry loop removes a lease only once its promised deadline has passed. -/
structure Bookkept (s : Clocked Q) : Prop where
  sameIds : SameIds s.manager
  queued : Queued s.manager
  removesLate : ∀ wait now next, s.step ⟨wait, .expire now⟩ = some next →
    ∀ id, (s.manager.leases id).isSome → next.manager.leases id = none →
      ∃ deadline, s.promised id = some deadline ∧ deadline ≤ next.time

theorem Kept.removesLate {s next : Clocked Q} (kept : Kept s.manager s.promised s.time)
    {wait now : Nat} (moves : s.step ⟨wait, .expire now⟩ = some next) {id : Int}
    (there : (s.manager.leases id).isSome) (gone : next.manager.leases id = none) :
    ∃ deadline, s.promised id = some deadline ∧ deadline ≤ next.time := by
  obtain ⟨representable, performs⟩ := Clocked.step_some moves
  unfold Clocked.perform at performs
  dsimp only at performs
  split_ifs at performs with begun
  rw [← Option.some.inj performs] at gone ⊢
  dsimp only at gone ⊢
  rcases s.manager.nextEvent_cases now (s.time + wait) with ⟨idle, _⟩ |
    ⟨entry, rest, pops, due, ⟨stale, alive⟩ | ⟨lease, found, expired, removed⟩⟩
  · rw [idle] at gone
    rw [gone] at there
    cases there
  · rw [stale] at gone
    rw [gone] at there
    cases there
  · rw [removed, LeaseManager.remove_leases] at gone
    by_cases it : id = entry.leaseId
    · have running := (kept.later (Nat.le_add_right s.time wait)).running _ lease found
      rw [it]
      exact ⟨_, kept.promised _ _ found,
        (Lease.isExpired_iff running representable).mp expired⟩
    · rw [Function.update_of_ne it] at gone
      rw [gone] at there
      cases there

theorem kept_new (start : Nat) :
    Kept (Clocked.new Q start).manager (Clocked.new Q start).promised start where
  queued _ _ found := by cases found
  running _ _ found := by cases found
  promised _ _ found := by cases found

/-- Every run keeps the ids of the maps the same. -/
theorem sameIds_run {start : Nat} {actions : List Action} {s : Clocked Q}
    (runs : runFrom Clocked.step (Clocked.new Q start) actions = some s) : SameIds s.manager := by
  have keeps (s : Clocked Q) (action : Action) (t : Clocked Q) (moves : s.step action = some t)
      (same : SameIds s.manager) : SameIds t.manager := SameIds.step same moves
  exact run_always keeps (fun _ => rfl) runs

/-- **In a run none of whose renewals panics the bookkeeping holds.** -/
theorem bookkeeping (start : Nat) (actions : List Action) (s : Clocked Q)
    (orderly : Along Clocked.step Orderly (Clocked.new Q start) actions)
    (runs : runFrom Clocked.step (Clocked.new Q start) actions = some s) : Bookkept s := by
  have keeps (s : Clocked Q) (action : Action) (t : Clocked Q) (moves : s.step action = some t)
      (orderly : Orderly s action) (kept : Kept s.manager s.promised s.time) :
      Kept t.manager t.promised t.time := kept.step moves orderly
  have kept : Kept s.manager s.promised s.time := run_invariant keeps (kept_new start) orderly runs
  exact ⟨sameIds_run runs, kept.queued, fun _ _ _ moves _ there gone => kept.removesLate moves there gone⟩

/-- A lease is renewed, its first entry taken off, and it expires at its second one. -/
def renewedRun : List Action :=
  [⟨0, .grant 7 5⟩, ⟨second, .attach 7 [1]⟩, ⟨second, .renew 7 3⟩, ⟨4 * second, .expire (6 * second)⟩,
    ⟨2 * second, .expire (8 * second)⟩]

theorem bookkeeping_renewed : ∃ s : Clocked (.listQueue laterFirst),
    runFrom Clocked.step (Clocked.new _ 0) renewedRun = some s ∧ Bookkept s := by
  have ends : (runFrom Clocked.step (Clocked.new (.listQueue laterFirst) 0) renewedRun).isSome := by
    decide +kernel
  obtain ⟨s, runs⟩ := Option.isSome_iff_exists.mp ends
  exact ⟨s, runs, bookkeeping 0 renewedRun s (by decide +kernel) runs⟩

/-- A hundred seconds after the start of the clock a lease is granted up to the last representable
second, and one second later it is renewed. -/
def overflowRun : List Action :=
  [⟨0, .grant 1 (Int64.ofNat (2 ^ 63 - 101))⟩, ⟨second, .renew 1 0⟩]

/-- **A renewal that panics orphans its lease**: the record was moved and no entry covers it. -/
theorem bookkeeping_fails : ∃ s : Clocked (.listQueue laterFirst),
    runFrom Clocked.step (Clocked.new _ (100 * second)) overflowRun = some s ∧ ¬ Bookkept s := by
  have ends : (runFrom Clocked.step (Clocked.new (.listQueue laterFirst) (100 * second))
      overflowRun).map (fun s => (s.manager.leases 1,
        (PriorityQueue.listQueue laterFirst).entries s.manager.expiryQueue)) =
      some (some ⟨1, Int64.ofNat (2 ^ 63 - 101), Int64.ofNat (2 ^ 63 - 101), 101 * second, []⟩,
        {⟨1, (2 ^ 63 - 1) * second⟩}) := by
    decide +kernel
  obtain ⟨s, runs, parts⟩ := Option.map_eq_some_iff.mp ends
  obtain ⟨record, queue⟩ := Prod.mk.inj parts
  refine ⟨s, runs, fun kept => ?_⟩
  obtain ⟨entry, mem, _, covers⟩ := kept.queued 1 _ record
  rw [queue, Multiset.mem_singleton] at mem
  rw [mem] at covers
  exact absurd covers (by decide +kernel)

/-! ### The manager without times -/

namespace LeaseManager

/-- What the handlers know of the manager. -/
def untimed (m : LeaseManager Q) : Rusd.LeaseManager := ⟨m.leaseKeys, m.nextLeaseId⟩

variable {m : LeaseManager Q}

/-- **A revocation is the one the handlers make.** -/
theorem untimed_revoke (same : SameIds m) (id : Int) :
    (∃ keys, (m.revoke id).1 = .ok keys ∧
      m.untimed.revoke id = (.ok keys, (m.revoke id).2.untimed)) ∨
    ∃ e, (m.revoke id).1 = .err e ∧
      m.untimed.revoke id = (.error e.display, (m.revoke id).2.untimed) := by
  have both := same id
  unfold revoke Rusd.LeaseManager.revoke untimed
  dsimp only
  cases found : m.leases id with
  | none =>
    rw [found] at both
    have unattached := Option.isNone_iff_eq_none.mp (Option.isSome_eq_false_iff.mp both.symm)
    rw [unattached]
    exact Or.inr ⟨_, rfl, rfl⟩
  | some lease =>
    rw [found] at both
    obtain ⟨keys, attached⟩ := Option.isSome_iff_exists.mp both.symm
    rw [attached]
    refine Or.inl ⟨keys, rfl, ?_⟩
    dsimp only [remove]
    congr 2
    funext other
    rw [Function.update_apply]

/-- **A grant is the one the handlers make**, unless it panics. -/
theorem untimed_grant (same : SameIds m) (id : Int) (ttl : Int64) (now : Nat)
    (representable : 0 < ttl → (addTtl now ttl).isSome) :
    (∃ lease, (m.grant id ttl now).1 = .ok lease ∧
      m.untimed.grant id ttl.toInt = (.ok (), (m.grant id ttl now).2.untimed)) ∨
    ∃ e, (m.grant id ttl now).1 = .err e ∧
      m.untimed.grant id ttl.toInt = (.error e.display, (m.grant id ttl now).2.untimed) := by
  have refused : ttl.toInt ≤ 0 ↔ ttl ≤ 0 := (Int64.le_iff_toInt_le (y := 0)).symm
  have assigned : (m.assignId id).1 = (if id = 0 then m.nextLeaseId else id) ∧
      (m.assignId id).2 = { m with
        nextLeaseId := if id = 0 then fetchAddOne m.nextLeaseId else m.nextLeaseId } := by
    unfold assignId
    split_ifs <;> exact ⟨rfl, rfl⟩
  obtain ⟨isId, counted⟩ := assigned
  unfold grant Rusd.LeaseManager.grant untimed
  dsimp only
  rw [isId, counted]
  generalize (if id = 0 then m.nextLeaseId else id) = leaseId
  by_cases invalid : ttl ≤ 0
  · rw [if_pos invalid, if_pos (refused.mpr invalid)]
    exact Or.inr ⟨_, rfl, rfl⟩
  · rw [if_neg invalid, if_neg (mt refused.mp invalid), ← same leaseId]
    dsimp only
    by_cases taken : (m.leases leaseId).isSome
    · rw [if_pos taken, if_pos taken]
      exact Or.inr ⟨_, rfl, rfl⟩
    · rw [if_neg taken, if_neg taken]
      obtain ⟨expiresAt, adds⟩ := Option.isSome_iff_exists.mp
        (representable (Int64.not_le.mp invalid))
      rw [adds]
      refine Or.inl ⟨_, rfl, ?_⟩
      congr 2
      funext other
      rw [record_leaseKeys, Function.update_apply]

end LeaseManager

end Rusd.Leases
