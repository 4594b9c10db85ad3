/-
**One pass of the expiry loop.**

The inner loop of `run_expiry_loop` takes entries off the queue until there is no event to send. The
queue gives the latest expiry first, and an entry whose lease is gone or was renewed gives no event,
so a pass ends at the first entry that is not yet due, and at the first stale one.

* `expiryPass_blocked` — one entry that is not yet due keeps every lease from expiring.
* `expiryPass_leases` — the pass removes exactly the leases it reaches (`Reaches`): those with an entry
  up to which, latest first, every entry is due and names another expired lease.
* `expiryPass_events` — each of them gives one event, with its attached keys.
* `expiryPass_complete_iff` — so a pass leaves no overdue lease exactly if it reaches them all.
-/

import Rusd.Lease.Bookkeeping

namespace Rusd.Leases

variable {Q : PriorityQueue laterFirst}

/-! ### The pass -/

/-- An iteration with an event has taken an entry off. -/
theorem LeaseManager.nextEvent_card {m next : LeaseManager Q} {event : LeaseExpireEvent}
    {now reading : Nat} (sends : m.nextEvent now reading = (some event, next)) :
    (Q.entries next.expiryQueue).card < (Q.entries m.expiryQueue).card := by
  rcases m.nextEvent_cases now reading with ⟨idle, _⟩ |
    ⟨entry, rest, pops, _, ⟨stale, _⟩ | ⟨_, _, _, removed⟩⟩
  · rw [idle] at sends
    cases sends
  · rw [stale] at sends
    cases sends
  · rw [removed] at sends
    cases sends
    exact Q.card_pop pops

/-- The inner loop of `run_expiry_loop` in a pass that began at `now`: the events sent, and the
manager after it. Iteration `n` looks at its lease `delay n` later. -/
def expiryPass (now : Nat) (delay : Nat → Nat) (m : LeaseManager Q) :
    List LeaseExpireEvent × LeaseManager Q :=
  match _ : m.nextEvent now (now + delay 0) with
  | (some event, next) =>
    let rest := expiryPass now (fun n => delay (n + 1)) next
    (event :: rest.1, rest.2)
  | (none, next) => ([], next)
termination_by (Q.entries m.expiryQueue).card
decreasing_by exact LeaseManager.nextEvent_card ‹_›

section Steps

variable {m next : LeaseManager Q} {now : Nat} {delay : Nat → Nat}

theorem expiryPass_none (ends : m.nextEvent now (now + delay 0) = (none, next)) :
    expiryPass now delay m = ([], next) := by
  unfold expiryPass
  split
  · rename_i found
    rw [ends] at found
    cases found
  · rename_i found
    rw [ends] at found
    cases found
    rfl

theorem expiryPass_some {event : LeaseExpireEvent}
    (sends : m.nextEvent now (now + delay 0) = (some event, next)) :
    expiryPass now delay m = (event :: (expiryPass now (fun n => delay (n + 1)) next).1,
      (expiryPass now (fun n => delay (n + 1)) next).2) := by
  rw [expiryPass]
  split
  · rename_i found
    rw [sends] at found
    cases found
    rfl
  · rename_i found
    rw [sends] at found
    cases found

end Steps

/-- **One entry that is not due ends the pass at once**, whichever leases have expired: it, or one
that is later still, is the first that the queue gives. -/
theorem expiryPass_blocked {m : LeaseManager Q} {now : Nat} (delay : Nat → Nat) {entry : LeaseExpiry}
    (mem : entry ∈ Q.entries m.expiryQueue) (early : now < entry.expiresAt) :
    expiryPass now delay m = ([], m) := by
  refine expiryPass_none ?_
  rcases m.nextEvent_cases now (now + delay 0) with ⟨idle, _⟩ | ⟨top, rest, pops, due, _⟩
  · exact idle
  · have above := laterFirst_isLE.mp ((Q.pop_some _ _ _ pops).2 entry mem)
    omega

/-! ### What a pass reaches -/

/-- The pass gets through the first `n` entries, latest first: each is due and names a lease that no
entry before it names and that has expired when the pass looks at it. -/
def GetsThrough (m : LeaseManager Q) (now : Nat) (delay : Nat → Nat) (n : Nat) : Prop :=
  ∀ i < n, ∃ entry lease, (Q.drain m.expiryQueue)[i]? = some entry ∧ entry.expiresAt ≤ now ∧
    m.leases entry.leaseId = some lease ∧ lease.isExpired (now + delay i) ∧
    ∀ j < i, ∀ other, (Q.drain m.expiryQueue)[j]? = some other → other.leaseId ≠ entry.leaseId

/-- The pass gets through an entry of the lease. -/
def Reaches (m : LeaseManager Q) (now : Nat) (delay : Nat → Nat) (id : Int) : Prop :=
  ∃ i entry, (Q.drain m.expiryQueue)[i]? = some entry ∧ entry.leaseId = id ∧
    GetsThrough m now delay (i + 1)

section Reach

variable {m : LeaseManager Q} {now : Nat} {delay : Nat → Nat} {entry : LeaseExpiry} {rest : Q.Heap}

theorem Reaches.isSome {id : Int} (reaches : Reaches m now delay id) : (m.leases id).isSome := by
  obtain ⟨i, entry, at_, rfl, through⟩ := reaches
  obtain ⟨other, lease, same, _, found, _⟩ := through i (Nat.lt_succ_self i)
  rw [at_] at same
  rw [Option.some.inj same, found]
  rfl

/-- The first entry that the pass gets through. -/
theorem Reaches.first {id : Int} (reaches : Reaches m now delay id) :
    ∃ entry lease, (Q.drain m.expiryQueue)[0]? = some entry ∧ entry.expiresAt ≤ now ∧
      m.leases entry.leaseId = some lease ∧ lease.isExpired (now + delay 0) := by
  obtain ⟨i, _, _, _, through⟩ := reaches
  obtain ⟨entry, lease, at_, due, found, expired, _⟩ := through 0 (Nat.succ_pos i)
  exact ⟨entry, lease, at_, due, found, expired⟩

variable (pops : Q.pop m.expiryQueue = some (entry, rest))

include pops in
theorem getElem?_drain_zero : (Q.drain m.expiryQueue)[0]? = some entry := by
  rw [Q.drain_some pops, List.getElem?_cons_zero]

include pops in
theorem getElem?_drain_succ (i : Nat) : (Q.drain m.expiryQueue)[i + 1]? = (Q.drain rest)[i]? := by
  rw [Q.drain_some pops, List.getElem?_cons_succ]

variable {lease : Lease}

/-- The manager after an iteration that removed the lease of its entry. -/
def afterEntry (m : LeaseManager Q) (entry : LeaseExpiry) (rest : Q.Heap) : LeaseManager Q :=
  LeaseManager.remove { m with expiryQueue := rest } entry.leaseId

theorem leases_afterEntry (other : Int) (lease : Lease) :
    (afterEntry m entry rest).leases other = some lease ↔
      other ≠ entry.leaseId ∧ m.leases other = some lease := by
  unfold afterEntry
  rw [LeaseManager.remove_leases, Function.update_apply]
  by_cases it : other = entry.leaseId
  · simp [it]
  · simp [it]

include pops in
/-- Through one entry, then through the others without its lease. -/
theorem getsThrough_succ (due : entry.expiresAt ≤ now) (found : m.leases entry.leaseId = some lease)
    (expired : lease.isExpired (now + delay 0)) (n : Nat) :
    GetsThrough m now delay (n + 1) ↔
      GetsThrough (afterEntry m entry rest) now (fun n => delay (n + 1)) n := by
  have queue : (afterEntry m entry rest).expiryQueue = rest := rfl
  constructor
  · intro through i small
    obtain ⟨later, itsLease, at_, isDue, its, ended, differs⟩ :=
      through (i + 1) (Nat.succ_lt_succ small)
    rw [getElem?_drain_succ pops] at at_
    have other : later.leaseId ≠ entry.leaseId :=
      (differs 0 (Nat.succ_pos i) entry (getElem?_drain_zero pops)).symm
    refine ⟨later, itsLease, at_, isDue, (leases_afterEntry _ _).mpr ⟨other, its⟩, ended, ?_⟩
    intro j before another at_j
    rw [queue, ← getElem?_drain_succ pops] at at_j
    exact differs (j + 1) (Nat.succ_lt_succ before) another at_j
  · intro through i small
    cases i with
    | zero =>
      exact ⟨entry, lease, getElem?_drain_zero pops, due, found, expired,
        fun j before => absurd before (Nat.not_lt_zero j)⟩
    | succ i =>
      obtain ⟨later, itsLease, at_, isDue, its, ended, differs⟩ :=
        through i (Nat.lt_of_succ_lt_succ small)
      obtain ⟨other, its⟩ := (leases_afterEntry _ _).mp its
      rw [queue, ← getElem?_drain_succ pops] at at_
      refine ⟨later, itsLease, at_, isDue, its, ended, fun j before another at_j => ?_⟩
      cases j with
      | zero =>
        rw [getElem?_drain_zero pops] at at_j
        rw [← Option.some.inj at_j]
        exact other.symm
      | succ j =>
        rw [getElem?_drain_succ pops] at at_j
        exact differs j (Nat.lt_of_succ_lt_succ before) another at_j

include pops in
/-- What is reached through an entry that expires its lease: that lease, and what is reached next. -/
theorem reaches_afterEntry (due : entry.expiresAt ≤ now)
    (found : m.leases entry.leaseId = some lease) (expired : lease.isExpired (now + delay 0))
    (id : Int) : Reaches m now delay id ↔ id = entry.leaseId ∨
      Reaches (afterEntry m entry rest) now (fun n => delay (n + 1)) id := by
  have through := fun n => getsThrough_succ pops due found expired n
  constructor
  · rintro ⟨i, later, at_, rfl, gets⟩
    cases i with
    | zero =>
      rw [getElem?_drain_zero pops] at at_
      exact Or.inl (congrArg _ (Option.some.inj at_).symm)
    | succ i =>
      rw [getElem?_drain_succ pops] at at_
      exact Or.inr ⟨i, later, at_, rfl, (through (i + 1)).mp gets⟩
  · rintro (rfl | ⟨i, later, at_, rfl, gets⟩)
    · refine ⟨0, entry, getElem?_drain_zero pops, rfl, (through 0).mpr fun i small => ?_⟩
      exact absurd small (Nat.not_lt_zero i)
    · refine ⟨i + 1, later, ?_, rfl, (through (i + 1)).mpr gets⟩
      rw [getElem?_drain_succ pops]
      exact at_

end Reach

/-- An iteration without an event: the pass reaches nothing. -/
theorem not_reaches {m next : LeaseManager Q} {now : Nat} {delay : Nat → Nat}
    (ends : m.nextEvent now (now + delay 0) = (none, next)) (id : Int) :
    ¬ Reaches m now delay id := by
  intro reaches
  obtain ⟨first, lease, at_, isDue, found, expired⟩ := reaches.first
  rcases m.nextEvent_cases now (now + delay 0) with ⟨_, early⟩ |
    ⟨entry, rest, pops, due, ⟨_, alive⟩ | ⟨_, _, _, removed⟩⟩
  · rcases pops : Q.pop m.expiryQueue with _ | ⟨entry, rest⟩
    · rw [Q.drain_none pops] at at_
      cases at_
    · have late := early entry rest pops
      rw [getElem?_drain_zero pops] at at_
      rw [← Option.some.inj at_] at isDue
      omega
  · rw [getElem?_drain_zero pops] at at_
    rw [← Option.some.inj at_] at found
    exact alive lease found expired
  · rw [removed] at ends
    cases ends

/-- An iteration with an event: the entry it took off, and the lease it removed. -/
theorem nextEvent_some {m next : LeaseManager Q} {now reading : Nat} {event : LeaseExpireEvent}
    (sends : m.nextEvent now reading = (some event, next)) :
    ∃ entry rest lease, Q.pop m.expiryQueue = some (entry, rest) ∧ entry.expiresAt ≤ now ∧
      m.leases entry.leaseId = some lease ∧ lease.isExpired reading ∧
      event = ⟨entry.leaseId, (m.leaseKeys entry.leaseId).getD []⟩ ∧
      next = afterEntry m entry rest := by
  rcases m.nextEvent_cases now reading with ⟨idle, _⟩ |
    ⟨entry, rest, pops, due, ⟨stale, _⟩ | ⟨lease, found, expired, removed⟩⟩
  · rw [idle] at sends
    cases sends
  · rw [stale] at sends
    cases sends
  · rw [removed] at sends
    cases sends
    exact ⟨entry, rest, lease, pops, due, found, expired, rfl, rfl⟩

/-- Induction on a pass, one iteration at a time. -/
theorem pass_induction (now : Nat) {motive : (Nat → Nat) → LeaseManager Q → Prop}
    (ends : ∀ delay m next, m.nextEvent now (now + delay 0) = (none, next) → motive delay m)
    (sends : ∀ delay m event next, m.nextEvent now (now + delay 0) = (some event, next) →
      motive (fun n => delay (n + 1)) next → motive delay m)
    (delay : Nat → Nat) (m : LeaseManager Q) : motive delay m := by
  induction size : (Q.entries m.expiryQueue).card using Nat.strong_induction_on
    generalizing delay m with
  | _ n ih =>
    rcases does : m.nextEvent now (now + delay 0) with ⟨_ | event, next⟩
    · exact ends delay m next does
    · exact sends delay m event next does
        (ih _ (size ▸ LeaseManager.nextEvent_card does) _ next rfl)

/-- **The pass removes exactly the leases it reaches.** -/
theorem expiryPass_leases (now : Nat) (delay : Nat → Nat) (m : LeaseManager Q) (id : Int) :
    (Reaches m now delay id → (expiryPass now delay m).2.leases id = none) ∧
      (¬ Reaches m now delay id → (expiryPass now delay m).2.leases id = m.leases id) := by
  induction delay, m using pass_induction now with
  | ends delay m next does =>
    rw [expiryPass_none does]
    refine ⟨fun reaches => absurd reaches (not_reaches does id), fun _ => ?_⟩
    have same : next.leases = m.leases := by
      rcases m.nextEvent_cases now (now + delay 0) with ⟨idle, _⟩ |
        ⟨_, _, _, _, ⟨stale, _⟩ | ⟨_, _, _, removed⟩⟩
      · rw [does] at idle
        cases idle
        rfl
      · rw [does] at stale
        cases stale
        rfl
      · rw [does] at removed
        cases removed
    rw [same]
  | sends delay m event next does ih =>
    obtain ⟨entry, rest, lease, pops, due, found, expired, _, rfl⟩ := nextEvent_some does
    rw [expiryPass_some does, reaches_afterEntry pops due found expired]
    obtain ⟨gone, kept⟩ := ih
    have its : (afterEntry m entry rest).leases entry.leaseId = none := Function.update_self ..
    constructor
    · rintro (rfl | reaches)
      · refine (kept fun reaches => ?_).trans its
        have there := reaches.isSome
        rw [its] at there
        cases there
      · exact gone reaches
    · intro neither
      obtain ⟨differs, unreached⟩ := not_or.mp neither
      exact (kept unreached).trans (Function.update_of_ne differs _ _)

/-- **Each lease the pass reaches gives one event, with its attached keys**; no other lease gives one. -/
theorem expiryPass_events (now : Nat) (delay : Nat → Nat) (m : LeaseManager Q) :
    SameIds m → ∀ id, (Reaches m now delay id → ∃ keys, m.leaseKeys id = some keys ∧
      (expiryPass now delay m).1.filter (fun event => event.leaseId = id) = [⟨id, keys⟩]) ∧
    (¬ Reaches m now delay id →
      (expiryPass now delay m).1.filter (fun event => event.leaseId = id) = []) := by
  induction delay, m using pass_induction now with
  | ends delay m next does =>
    intro _ id
    rw [expiryPass_none does]
    exact ⟨fun reaches => absurd reaches (not_reaches does id), fun _ => rfl⟩
  | sends delay m event next does ih =>
    intro same id
    obtain ⟨entry, rest, lease, pops, due, found, expired, rfl, rfl⟩ := nextEvent_some does
    have after : SameIds (afterEntry m entry rest) := SameIds.remove same entry.leaseId
    obtain ⟨one, none⟩ := ih after id
    rw [expiryPass_some does, reaches_afterEntry pops due found expired]
    dsimp only
    by_cases it : id = entry.leaseId
    · have unreached : ¬ Reaches (afterEntry m entry rest) now (fun n => delay (n + 1)) id := by
        intro reaches
        have there := reaches.isSome
        rw [it, show (afterEntry m entry rest).leases entry.leaseId = .none from
          Function.update_self ..] at there
        cases there
      have attached := same entry.leaseId
      rw [found] at attached
      obtain ⟨keys, attached⟩ := Option.isSome_iff_exists.mp attached.symm
      refine ⟨fun _ => ⟨keys, it ▸ attached, ?_⟩, fun neither => absurd (Or.inl it) neither⟩
      rw [List.filter_cons_of_pos (by rw [it]; exact decide_eq_true rfl), none unreached, attached, it]
      rfl
    · rw [List.filter_cons_of_neg (by rw [decide_eq_true_eq]; exact fun same => it same.symm)]
      have keys : (afterEntry m entry rest).leaseKeys id = m.leaseKeys id :=
        Function.update_of_ne it _ _
      rw [keys] at one
      exact ⟨fun reaches => one (reaches.resolve_left it), fun neither => none (not_or.mp neither).2⟩

/-! ### Complete passes -/

/-- No overdue lease is left, and each lease that was removed gave one event, with its keys. -/
structure PassComplete (m : LeaseManager Q) (now : Nat) (delay : Nat → Nat) : Prop where
  noneOverdue : ∀ id lease, (expiryPass now delay m).2.leases id = some lease → now < lease.deadline
  oneEvent : ∀ id, (m.leases id).isSome → (expiryPass now delay m).2.leases id = none →
    ∃ keys, m.leaseKeys id = some keys ∧
      (expiryPass now delay m).1.filter (fun event => event.leaseId = id) = [⟨id, keys⟩]

/-- **A pass is complete exactly if it reaches every lease that is overdue.** -/
theorem expiryPass_complete_iff (start : Nat) (actions : List Action) (s : Clocked Q)
    (runs : runFrom Clocked.step (Clocked.new Q start) actions = some s) (now : Nat)
    (delay : Nat → Nat) :
    PassComplete s.manager now delay ↔ ∀ id lease, s.manager.leases id = some lease →
      lease.deadline ≤ now → Reaches s.manager now delay id := by
  constructor
  · intro complete id lease found overdue
    by_contra unreached
    have left := (expiryPass_leases now delay s.manager id).2 unreached
    have early := complete.noneOverdue id lease (left.trans found)
    omega
  · intro reachesAll
    refine ⟨fun id lease left => ?_, fun id there gone => ?_⟩
    · obtain ⟨removes, keeps⟩ := expiryPass_leases now delay s.manager id
      by_cases reaches : Reaches s.manager now delay id
      · rw [removes reaches] at left
        cases left
      · rw [keeps reaches] at left
        by_contra overdue
        exact reaches (reachesAll id lease left (not_lt.mp overdue))
    · have reaches : Reaches s.manager now delay id := by
        by_contra unreached
        rw [(expiryPass_leases now delay s.manager id).2 unreached] at gone
        rw [gone] at there
        cases there
      exact (expiryPass_events now delay s.manager (sameIds_run runs) id).1 reaches

/-- The manager after a lease of one second was granted. -/
def loneLease : Clocked (.listQueue laterFirst) where
  manager :=
    { leases := Function.update (fun _ => none) 1 (some ⟨1, 1, 1, 0, []⟩)
      leaseKeys := Function.update (fun _ => none) 1 (some [])
      nextLeaseId := 1
      expiryQueue := [⟨1, second⟩] }
  time := 0
  promised := Function.update (fun _ => none) 1 (some second)

/-- It expires in a pass two seconds later. -/
theorem expiryPass_lone : PassComplete loneLease.manager (2 * second) fun _ => 0 := by
  have runs : runFrom Clocked.step (Clocked.new _ 0) [⟨0, .grant 1 1⟩] = some loneLease := rfl
  refine (expiryPass_complete_iff 0 _ loneLease runs _ _).mpr fun id lease found _ => ?_
  have its : id = 1 := by
    by_contra other
    change Function.update (fun _ => none) 1 (some _) id = some lease at found
    rw [Function.update_of_ne other] at found
    cases found
  have pops : PriorityQueue.pop _ loneLease.manager.expiryQueue = some (⟨1, second⟩, []) := rfl
  have first := getElem?_drain_zero pops
  refine ⟨0, _, first, its.symm, fun i only => ?_⟩
  rw [Nat.lt_one_iff.mp only]
  exact ⟨_, ⟨1, 1, 1, 0, []⟩, first, by decide, rfl, by decide +kernel,
    fun j before => absurd before (Nat.not_lt_zero j)⟩

/-- A lease of one second and one of a hundred. -/
def twoLeases : List Action := [⟨0, .grant 1 1⟩, ⟨0, .grant 2 100⟩]

/-- **Two seconds later the first lease is still there after a pass**: the second one is in its way. -/
theorem expiryPass_incomplete : ∃ s : Clocked (.listQueue laterFirst),
    runFrom Clocked.step (Clocked.new _ 0) twoLeases = some s ∧
      ¬ PassComplete s.manager (2 * second) fun _ => 0 := by
  have ends : (runFrom Clocked.step (Clocked.new (.listQueue laterFirst) 0) twoLeases).map
      (fun s => (s.manager.leases 1,
        (PriorityQueue.listQueue laterFirst).entries s.manager.expiryQueue)) =
      some (some ⟨1, 1, 1, 0, []⟩, {⟨1, second⟩, ⟨2, 100 * second⟩}) := by
    decide +kernel
  obtain ⟨s, runs, parts⟩ := Option.map_eq_some_iff.mp ends
  obtain ⟨record, queue⟩ := Prod.mk.inj parts
  refine ⟨s, runs, fun complete => ?_⟩
  have blocks : (⟨2, 100 * second⟩ : LeaseExpiry) ∈
      (PriorityQueue.listQueue laterFirst).entries s.manager.expiryQueue := by
    rw [queue]
    decide +kernel
  have early := complete.noneOverdue 1 ⟨1, 1, 1, 0, []⟩
  rw [expiryPass_blocked _ blocks (by decide)] at early
  exact absurd (early record) (by decide +kernel)

end Rusd.Leases
