/-
**Threads and locks.**

A thread is a list of acquisitions and releases. An exclusive acquisition waits until nobody holds
the lock, a shared one until nobody holds it exclusively; a thread that wants a lock which it holds
itself waits as well.

* `DeadlockFree` — no interleaving reaches a state with unfinished threads none of which can step.
* `climbs_moves` — where every thread acquires its locks in the order of one rank, some unfinished
  thread releases a lock or wants one that nobody holds. `deadlockFree_of_climbs`: so there is no
  deadlock.
* `not_deadlockFree_of_embrace` — two threads of which each holds exclusively what the other wants
  next stay like that while the others run out.
-/

import Rusd.Lib.Machine
import Mathlib.Algebra.Order.BigOperators.Group.Finset
import Mathlib.Data.Finset.Max
import Mathlib.Data.Fintype.Basic

/-- How a lock is held. -/
inductive LockMode
  | shared
  | exclusive
  deriving DecidableEq

/-- One step of a thread. -/
inductive LockEvent (L : Type)
  | acquire (lock : L) (mode : LockMode)
  | release (lock : L)

/-- The locks a thread holds, and what it still has to do. -/
structure LockThread (L : Type) where
  held : List (L × LockMode)
  rest : List (LockEvent L)

section Locks

variable {ι L : Type} [Fintype ι] [DecidableEq ι] [DecidableEq L]

/-- Nobody holds the lock in a way that excludes the mode. -/
def Grantable (s : ι → LockThread L) (lock : L) (mode : LockMode) : Prop :=
  ∀ j, ∀ holds ∈ (s j).held, holds.1 = lock → mode = .shared ∧ holds.2 = .shared

instance (s : ι → LockThread L) (lock : L) (mode : LockMode) : Decidable (Grantable s lock mode) :=
  inferInstanceAs (Decidable (∀ j, ∀ holds ∈ (s j).held, holds.1 = lock → _))

/-- The next event of a thread, if it can happen. -/
def lockStep (s : ι → LockThread L) (i : ι) : Option (ι → LockThread L) :=
  match (s i).rest with
  | [] => none
  | .acquire lock mode :: rest =>
    if Grantable s lock mode then
      some (Function.update s i ⟨(lock, mode) :: (s i).held, rest⟩)
    else none
  | .release lock :: rest =>
    some (Function.update s i ⟨(s i).held.filter fun holds => holds.1 ≠ lock, rest⟩)

/-- Nothing is held and nothing was done. -/
def lockStart (programs : ι → List (LockEvent L)) : ι → LockThread L := fun i => ⟨[], programs i⟩

/-- Some thread has not finished, and none can step. -/
def Stuck (s : ι → LockThread L) : Prop := (∃ i, (s i).rest ≠ []) ∧ ∀ i, lockStep s i = none

instance (s : ι → LockThread L) : Decidable (Stuck s) :=
  inferInstanceAs (Decidable ((∃ i, (s i).rest ≠ []) ∧ ∀ i, lockStep s i = none))

/-- No interleaving gets stuck. -/
def DeadlockFree (programs : ι → List (LockEvent L)) : Prop :=
  ∀ actions s, runFrom lockStep (lockStart programs) actions = some s → ¬ Stuck s

/-! ### One step -/

/-- A step is that of its thread; the others are as they were. -/
theorem lockStep_cases {s t : ι → LockThread L} {i : ι} (moves : lockStep s i = some t) :
    (∃ lock mode rest, (s i).rest = .acquire lock mode :: rest ∧ Grantable s lock mode ∧
      t = Function.update s i ⟨(lock, mode) :: (s i).held, rest⟩) ∨
    ∃ lock rest, (s i).rest = .release lock :: rest ∧
      t = Function.update s i ⟨(s i).held.filter fun holds => holds.1 ≠ lock, rest⟩ := by
  unfold lockStep at moves
  split at moves
  · cases moves
  · rename_i lock mode rest next
    split_ifs at moves with grantable
    exact Or.inl ⟨lock, mode, rest, next, grantable, (Option.some.inj moves).symm⟩
  · rename_i lock rest next
    exact Or.inr ⟨lock, rest, next, (Option.some.inj moves).symm⟩

theorem lockStep_other {s t : ι → LockThread L} {i j : ι} (moves : lockStep s i = some t)
    (other : j ≠ i) : t j = s j := by
  rcases lockStep_cases moves with ⟨_, _, _, _, _, rfl⟩ | ⟨_, _, _, rfl⟩
  · exact Function.update_of_ne other _ _
  · exact Function.update_of_ne other _ _

/-- A lock that nobody holds can be acquired. -/
theorem lockStep_free {s : ι → LockThread L} {i : ι} {lock : L} {mode : LockMode}
    {rest : List (LockEvent L)} (wants : (s i).rest = .acquire lock mode :: rest)
    (free : ∀ j, ∀ holds ∈ (s j).held, holds.1 ≠ lock) :
    lockStep s i = some (Function.update s i ⟨(lock, mode) :: (s i).held, rest⟩) := by
  have grantable : Grantable s lock mode := fun j holds mem same => absurd same (free j holds mem)
  unfold lockStep
  rw [wants]
  exact if_pos grantable

/-- A thread that wants a lock which somebody holds exclusively cannot step. -/
theorem lockStep_blocked {s : ι → LockThread L} {i j : ι} {lock : L} {mode : LockMode}
    {rest : List (LockEvent L)} (wants : (s i).rest = .acquire lock mode :: rest)
    (holds : (lock, .exclusive) ∈ (s j).held) : lockStep s i = none := by
  unfold lockStep
  rw [wants]
  refine if_neg fun grantable => ?_
  cases (grantable j _ holds rfl).2

/-- What the threads still have to do gets shorter with every step. -/
theorem lockStep_shorter {s t : ι → LockThread L} {i : ι} (moves : lockStep s i = some t) :
    ∑ j, (t j).rest.length < ∑ j, (s j).rest.length := by
  refine Finset.sum_lt_sum (fun j _ => ?_) ⟨i, Finset.mem_univ i, ?_⟩
  · by_cases it : j = i
    · rcases lockStep_cases moves with ⟨_, _, _, next, _, rfl⟩ | ⟨_, _, next, rfl⟩
      all_goals
        rw [it, Function.update_self, next]
        exact Nat.le_succ _
    · rw [lockStep_other moves it]
  · rcases lockStep_cases moves with ⟨_, _, _, next, _, rfl⟩ | ⟨_, _, next, rfl⟩
    all_goals
      rw [Function.update_self, next]
      exact Nat.lt_succ_self _

/-! ### One order for all locks -/

variable (rank : L → Nat)

/-- Each lock is acquired above all that are held, and in the end nothing is held. -/
def Climbs : List (L × LockMode) → List (LockEvent L) → Prop
  | held, [] => held = []
  | held, .acquire lock mode :: rest =>
    (∀ holds ∈ held, rank holds.1 < rank lock) ∧ Climbs ((lock, mode) :: held) rest
  | held, .release lock :: rest => Climbs (held.filter fun holds => holds.1 ≠ lock) rest

instance Climbs.decidable : ∀ (held : List (L × LockMode)) (rest : List (LockEvent L)),
    Decidable (Climbs rank held rest)
  | held, [] => inferInstanceAs (Decidable (held = []))
  | held, .acquire lock mode :: rest =>
    have := Climbs.decidable ((lock, mode) :: held) rest
    inferInstanceAs (Decidable ((∀ holds ∈ held, rank holds.1 < rank lock) ∧ _))
  | held, .release lock :: rest => Climbs.decidable (held.filter fun holds => holds.1 ≠ lock) rest

variable {rank}

theorem Climbs.step {s t : ι → LockThread L} {i : ι} (moves : lockStep s i = some t)
    (climbs : ∀ j, Climbs rank (s j).held (s j).rest) : ∀ j, Climbs rank (t j).held (t j).rest := by
  intro j
  have before := climbs j
  by_cases it : j = i
  · rw [it] at before ⊢
    rcases lockStep_cases moves with ⟨_, _, _, next, _, rfl⟩ | ⟨_, _, next, rfl⟩
    · rw [next] at before
      rw [Function.update_self]
      exact before.2
    · rw [next] at before
      rw [Function.update_self]
      exact before
  · rw [lockStep_other moves it]
    exact before

/-- The rank of the lock that a thread wants next. -/
def wantedRank (rank : L → Nat) (thread : LockThread L) : Nat :=
  match thread.rest with
  | .acquire lock _ :: _ => rank lock
  | _ => 0

omit [DecidableEq ι] in
/-- **Where all locks are acquired in one order, somebody can go on**: of the threads that wait for a
lock take the one whose lock ranks highest; whoever holds that lock would wait for a higher one. -/
theorem climbs_moves {s : ι → LockThread L} (climbs : ∀ i, Climbs rank (s i).held (s i).rest)
    (unfinished : ∃ i, (s i).rest ≠ []) :
    ∃ i, (∃ lock rest, (s i).rest = .release lock :: rest) ∨
      ∃ lock mode rest, (s i).rest = .acquire lock mode :: rest ∧
        ∀ j, ∀ holds ∈ (s j).held, holds.1 ≠ lock := by
  by_contra none
  have waits : ∀ i, (s i).rest ≠ [] → ∃ lock mode rest, (s i).rest = .acquire lock mode :: rest ∧
      ∃ j, ∃ holds ∈ (s j).held, holds.1 = lock := by
    intro i unfinished
    rcases next : (s i).rest with _ | ⟨event, rest⟩
    · exact absurd next unfinished
    · cases event with
      | acquire lock mode =>
        refine ⟨lock, mode, rest, rfl, ?_⟩
        by_contra free
        push Not at free
        exact none ⟨i, Or.inr ⟨lock, mode, rest, next, free⟩⟩
      | release lock => exact absurd ⟨i, Or.inl ⟨lock, rest, next⟩⟩ none
  let unfinishedThreads : Finset ι := {i | (s i).rest ≠ []}
  obtain ⟨top, isTop, highest⟩ := Finset.exists_max_image unfinishedThreads
    (fun i => wantedRank rank (s i)) (unfinished.imp fun i unfinished => by
      simpa [unfinishedThreads] using unfinished)
  obtain ⟨lock, mode, rest, wants, j, holds, mem, rfl⟩ := waits top (by
    simpa [unfinishedThreads] using isTop)
  have itsClimb := climbs j
  have unfinishedJ : (s j).rest ≠ [] := by
    intro finished
    rw [finished] at itsClimb
    have nothing : (s j).held = [] := itsClimb
    rw [nothing] at mem
    cases mem
  obtain ⟨wanted, _, _, wantsJ, _⟩ := waits j unfinishedJ
  rw [wantsJ] at itsClimb
  have higher := itsClimb.1 holds mem
  have lower := highest j (by simpa [unfinishedThreads] using unfinishedJ)
  unfold wantedRank at lower
  rw [wants, wantsJ] at lower
  dsimp only at lower
  omega

/-- **No deadlock where all locks are acquired in one order.** -/
theorem deadlockFree_of_climbs {programs : ι → List (LockEvent L)}
    (climbs : ∀ i, Climbs rank [] (programs i)) : DeadlockFree programs := by
  intro actions s runs stuck
  have all : ∀ i, Climbs rank (s i).held (s i).rest := by
    refine run_always (fun _ _ _ moves climbs => Climbs.step moves climbs) ?_ runs
    exact climbs
  obtain ⟨i, ⟨lock, rest, next⟩ | ⟨lock, mode, rest, next, free⟩⟩ := climbs_moves all stuck.1
  · have cannot := stuck.2 i
    unfold lockStep at cannot
    rw [next] at cannot
    cases cannot
  · have cannot := stuck.2 i
    rw [lockStep_free next free] at cannot
    cases cannot

/-! ### A cyclic wait -/

/-- Each of two threads holds exclusively what the other wants next. -/
structure Embrace (s : ι → LockThread L) (i j : ι) : Prop where
  differ : i ≠ j
  waits : ∃ lock mode rest, (s i).rest = .acquire lock mode :: rest ∧
    (lock, .exclusive) ∈ (s j).held
  waited : ∃ lock mode rest, (s j).rest = .acquire lock mode :: rest ∧
    (lock, .exclusive) ∈ (s i).held

theorem Embrace.step {s t : ι → LockThread L} {i j k : ι} (moves : lockStep s k = some t)
    (embrace : Embrace s i j) : Embrace t i j := by
  obtain ⟨_, _, _, wants, holds⟩ := embrace.waits
  obtain ⟨_, _, _, wanted, held⟩ := embrace.waited
  have notI : i ≠ k := by
    rintro rfl
    rw [lockStep_blocked wants holds] at moves
    cases moves
  have notJ : j ≠ k := by
    rintro rfl
    rw [lockStep_blocked wanted held] at moves
    cases moves
  have sameI := lockStep_other moves notI
  have sameJ := lockStep_other moves notJ
  refine ⟨embrace.differ, ?_, ?_⟩
  · rw [sameI, sameJ]
    exact embrace.waits
  · rw [sameI, sameJ]
    exact embrace.waited

/-- **A cyclic wait is a deadlock**: it stays while the other threads run out. -/
theorem not_deadlockFree_of_embrace {programs : ι → List (LockEvent L)} {actions : List ι}
    {s : ι → LockThread L} {i j : ι} (runs : runFrom lockStep (lockStart programs) actions = some s)
    (embrace : Embrace s i j) : ¬ DeadlockFree programs := by
  intro free
  obtain ⟨more, t, continues, ends⟩ := run_out (fun s => ∑ k, (s k).rest.length)
    (fun _ _ _ moves => lockStep_shorter moves) s
  have still : Embrace t i j := run_always (fun _ _ _ moves => Embrace.step moves) embrace continues
  obtain ⟨_, _, _, wants, _⟩ := still.waits
  refine free (actions ++ more) t (runFrom_append runs continues) ⟨⟨i, ?_⟩, ends⟩
  rw [wants]
  exact List.cons_ne_nil _ _

end Locks
