/-
**A counter that is read and written in two steps.**

Each member increments a shared counter once: it reads the value, and later writes the value plus
one. Nothing keeps the two steps together. `overlapped` records whether a member read while another
one held a value it had not written yet.

* `Accounted` — the invariant: without an overlap the counter counts the members that have written,
  and their values differ; after one it stays behind for good.
* `Accounted.value_iff` — when all have written, every increment counts if and only if no two of them
  overlapped.
-/

import Mathlib.Algebra.Order.Ring.Int
import Mathlib.Data.List.Basic
import Mathlib.Tactic.Common

/-! ### Lists with one element replaced -/

section Lists

variable {α : Type} {l : List α} {a b : α} {i j : Nat}

theorem getElem?_set_cases (found : (l.set i b)[j]? = some a) :
    j = i ∧ a = b ∨ j ≠ i ∧ l[j]? = some a := by
  by_cases same : j = i
  · subst same
    rw [List.getElem?_set] at found
    split_ifs at found
    · exact Or.inl ⟨rfl, (Option.some.inj found).symm⟩
    · exact absurd rfl ‹_›
  · rw [List.getElem?_set_ne (fun is => same is.symm)] at found
    exact Or.inr ⟨same, found⟩

theorem getElem?_set_here (found : l[i]? = some a) : (l.set i b)[i]? = some b :=
  List.getElem?_set_self (List.getElem?_eq_some_iff.mp found).1

theorem set_same (found : l[i]? = some a) : l.set i a = l := by
  obtain ⟨bound, rfl⟩ := List.getElem?_eq_some_iff.mp found
  exact List.set_getElem_self bound

theorem countP_set (f : α → Bool) (found : l[i]? = some a) (b : α) :
    ((l.set i b).countP f : Int) =
      l.countP f - (if f a then 1 else 0) + if f b then 1 else 0 := by
  induction l generalizing i with
  | nil => cases found
  | cons first rest ih =>
    cases i with
    | zero =>
      cases found
      rw [List.set_cons_zero, List.countP_cons, List.countP_cons]
      split_ifs <;> simp
    | succ i =>
      rw [List.set_cons_succ, List.countP_cons, List.countP_cons]
      push_cast
      have tail := ih (i := i) found
      omega

end Lists

/-! ### The counter -/

/-- Where a member stands. -/
inductive Increment
  | waiting
  | holding (next : Int)
  | written (value : Int)
  deriving DecidableEq, Repr

namespace Increment

def isWaiting : Increment → Bool
  | .waiting => true
  | _ => false

def isHolding : Increment → Bool
  | .holding _ => true
  | _ => false

def isWritten : Increment → Bool
  | .written _ => true
  | _ => false

def isOpen : Increment → Bool
  | .written _ => false
  | _ => true

/-- The value that a member has computed. -/
def value : Increment → Option Int
  | .waiting => none
  | .holding next => some next
  | .written value => some value

end Increment

/-- The counter with its members. -/
structure SharedCounter where
  value : Int
  members : List Increment
  overlapped : Bool

namespace SharedCounter

/-- A member reads the counter, or writes what it holds. -/
inductive Step (c : SharedCounter) : SharedCounter → Prop
  | read (i : Nat) (waits : c.members[i]? = some .waiting) :
      Step c ⟨c.value, c.members.set i (.holding (c.value + 1)),
        c.overlapped || c.members.any Increment.isHolding⟩
  | write (i : Nat) (next : Int) (holds : c.members[i]? = some (.holding next)) :
      Step c ⟨next, c.members.set i (.written next), c.overlapped⟩

/-- No two increments have overlapped. -/
structure Apart (base : Int) (c : SharedCounter) : Prop where
  total : c.value + c.members.countP Increment.isOpen = base + c.members.length
  one : ∀ (i j : Nat) (v w : Int), c.members[i]? = some (.holding v) →
    c.members[j]? = some (.holding w) → i = j
  next : ∀ v, .holding v ∈ c.members → v = c.value + 1
  below : ∀ v, .written v ∈ c.members → v ≤ c.value
  differ : ∀ (i j : Nat) (m m' : Increment) (v : Int), c.members[i]? = some m →
    c.members[j]? = some m' → m.value = some v → m'.value = some v → i = j

/-- An increment is lost: whatever follows, the counter does not reach the total. -/
structure Behind (base : Int) (c : SharedCounter) : Prop where
  latest : c.value + c.members.countP Increment.isWaiting < base + c.members.length
  holding : ∀ v, .holding v ∈ c.members →
    v + c.members.countP Increment.isWaiting < base + c.members.length

/-- **The invariant.** -/
structure Accounted (base : Int) (c : SharedCounter) : Prop where
  apart : c.overlapped = false → Apart base c
  behind : c.overlapped = true → Behind base c

variable {base : Int} {c c' : SharedCounter}

/-- A member that waits, and one that holds a value, have both not written. -/
theorem countP_open (members : List Increment) :
    members.countP Increment.isWaiting + members.countP Increment.isHolding =
      members.countP Increment.isOpen := by
  induction members with
  | nil => rfl
  | cons m rest ih =>
    rw [List.countP_cons, List.countP_cons, List.countP_cons, ← ih]
    cases m <;> simp [Increment.isWaiting, Increment.isHolding, Increment.isOpen] <;> omega

namespace Apart

/-- What a member has computed is at most one more than the counter, and exactly that if it is not
written. -/
theorem value_le (apart : Apart base c) {m : Increment} (member : m ∈ c.members) {v : Int}
    (is : m.value = some v) : v ≤ c.value + 1 ∧ (v = c.value + 1 → m.isHolding = true) := by
  cases m with
  | waiting => cases is
  | holding next =>
    cases is
    exact ⟨(apart.next v member).le, fun _ => rfl⟩
  | written value =>
    cases is
    have := apart.below v member
    exact ⟨by omega, fun high => by omega⟩

/-- A read while nobody holds a value. -/
theorem read {i : Nat} (apart : Apart base c) (waits : c.members[i]? = some .waiting)
    (free : c.members.any Increment.isHolding = false) :
    Apart base ⟨c.value, c.members.set i (.holding (c.value + 1)), false⟩ := by
  have nobody : ∀ m ∈ c.members, m.isHolding = false := by
    simpa [List.any_eq_false] using free
  refine ⟨?_, fun j k v w atJ atK => ?_, fun v member => ?_, fun v member => ?_,
    fun j k m m' v atJ atK isM isM' => ?_⟩
  · have counted := countP_set Increment.isOpen waits (.holding (c.value + 1))
    have total := apart.total
    simp only [Increment.isOpen, if_true, List.length_set] at counted ⊢
    omega
  · rcases getElem?_set_cases atJ with ⟨rfl, _⟩ | ⟨_, oldJ⟩
    · rcases getElem?_set_cases atK with ⟨rfl, _⟩ | ⟨_, oldK⟩
      · rfl
      · exact absurd (nobody _ (List.mem_of_getElem? oldK)) (by simp [Increment.isHolding])
    · exact absurd (nobody _ (List.mem_of_getElem? oldJ)) (by simp [Increment.isHolding])
  · rcases List.mem_or_eq_of_mem_set member with old | new
    · exact apart.next v old
    · cases new
      rfl
  · rcases List.mem_or_eq_of_mem_set member with old | new
    · exact apart.below v old
    · cases new
  · -- the new value is above all others
    have fresh : ∀ n ∈ c.members, n.value ≠ some (c.value + 1) := by
      intro n member is
      have holds := (apart.value_le member is).2 rfl
      rw [nobody n member] at holds
      cases holds
    rcases getElem?_set_cases atJ with ⟨rfl, rfl⟩ | ⟨_, oldJ⟩ <;>
      rcases getElem?_set_cases atK with ⟨rfl, rfl⟩ | ⟨_, oldK⟩
    · rfl
    · cases isM
      exact absurd isM' (fresh _ (List.mem_of_getElem? oldK))
    · cases isM'
      exact absurd isM (fresh _ (List.mem_of_getElem? oldJ))
    · exact apart.differ _ _ _ _ v oldJ oldK isM isM'

/-- The write of the one value that is held. -/
theorem write {i : Nat} {next : Int} (apart : Apart base c)
    (holds : c.members[i]? = some (.holding next)) :
    Apart base ⟨next, c.members.set i (.written next), false⟩ := by
  have is : next = c.value + 1 := apart.next next (List.mem_of_getElem? holds)
  have alone : ∀ (j : Nat) (v : Int), j ≠ i → c.members[j]? ≠ some (.holding v) :=
    fun j v other here => other (apart.one _ _ _ _ here holds)
  refine ⟨?_, fun j k v w atJ atK => ?_, fun v member => ?_, fun v member => ?_,
    fun j k m m' v atJ atK isM isM' => ?_⟩
  · have counted := countP_set Increment.isOpen holds (.written next)
    have total := apart.total
    simp only [Increment.isOpen, if_true, Bool.false_eq_true, if_false, List.length_set] at counted ⊢
    omega
  · rcases getElem?_set_cases atJ with ⟨_, new⟩ | ⟨other, oldJ⟩
    · cases new
    · exact absurd oldJ (alone j v other)
  · obtain ⟨j, here⟩ := List.mem_iff_getElem?.mp member
    rcases getElem?_set_cases here with ⟨_, new⟩ | ⟨other, old⟩
    · cases new
    · exact absurd old (alone j v other)
  · rcases List.mem_or_eq_of_mem_set member with old | new
    · have := apart.below v old
      simp only
      omega
    · cases new
      exact le_rfl
  · rcases getElem?_set_cases atJ with ⟨rfl, rfl⟩ | ⟨_, oldJ⟩ <;>
      rcases getElem?_set_cases atK with ⟨rfl, rfl⟩ | ⟨_, oldK⟩
    · rfl
    · exact apart.differ _ _ _ _ v holds oldK isM isM'
    · exact apart.differ _ _ _ _ v oldJ holds isM isM'
    · exact apart.differ _ _ _ _ v oldJ oldK isM isM'

end Apart

/-- A read while another member holds a value: one of the two increments is lost. -/
theorem Behind.of_overlap {i : Nat} (apart : Apart base c) (waits : c.members[i]? = some .waiting)
    (held : c.members.any Increment.isHolding = true) (overlapped : Bool) :
    Behind base ⟨c.value, c.members.set i (.holding (c.value + 1)), overlapped⟩ := by
  have counted := countP_set Increment.isWaiting waits (.holding (c.value + 1))
  have total := apart.total
  have split := countP_open c.members
  have some : 0 < c.members.countP Increment.isHolding := by
    rw [List.countP_pos_iff]
    simpa using held
  simp only [Increment.isWaiting, if_true, Bool.false_eq_true, if_false] at counted
  refine ⟨?_, fun v member => ?_⟩
  · simp only [List.length_set]
    omega
  · simp only [List.length_set]
    rcases List.mem_or_eq_of_mem_set member with old | new
    · have := apart.next v old
      omega
    · cases new
      omega

theorem Behind.step (behind : Behind base c) (moves : Step c c') : Behind base c' := by
  cases moves with
  | read i waits =>
    have counted := countP_set Increment.isWaiting waits (.holding (c.value + 1))
    have latest := behind.latest
    simp only [Increment.isWaiting, if_true, Bool.false_eq_true, if_false] at counted
    refine ⟨?_, fun v member => ?_⟩
    · simp only [List.length_set]
      omega
    · simp only [List.length_set]
      rcases List.mem_or_eq_of_mem_set member with old | new
      · have := behind.holding v old
        omega
      · cases new
        omega
  | write i next holds =>
    have counted := countP_set Increment.isWaiting holds (.written next)
    have mine := behind.holding next (List.mem_of_getElem? holds)
    simp only [Increment.isWaiting, Bool.false_eq_true, if_false] at counted
    refine ⟨?_, fun v member => ?_⟩
    · simp only [List.length_set]
      omega
    · simp only [List.length_set]
      rcases List.mem_or_eq_of_mem_set member with old | new
      · have := behind.holding v old
        omega
      · cases new

namespace Accounted

/-- Nobody has begun. -/
theorem start (base : Int) {members : List Increment} (waiting : ∀ m ∈ members, m = .waiting) :
    Accounted base ⟨base, members, false⟩ := by
  refine ⟨fun _ => ⟨?_, fun i j v w here => ?_, fun v member => ?_, fun v member => ?_,
    fun i j m m' v here _ is => ?_⟩, fun overlapped => ?_⟩
  · have all : members.countP Increment.isOpen = members.length := by
      rw [List.countP_eq_length]
      intro m member
      rw [waiting m member]
      rfl
    simp only [all]
  · cases waiting _ (List.mem_of_getElem? here)
  · cases waiting _ member
  · cases waiting _ member
  · rw [waiting m (List.mem_of_getElem? here)] at is
    cases is
  · cases overlapped

/-- **Every step keeps the account.** -/
theorem step (accounted : Accounted base c) (moves : Step c c') : Accounted base c' := by
  cases before : c.overlapped with
  | true =>
    have behind := (accounted.behind before).step moves
    refine ⟨fun none => ?_, fun _ => behind⟩
    cases moves with
    | read i waits => rw [before] at none; cases none
    | write i next holds => rw [before] at none; cases none
  | false =>
    have apart := accounted.apart before
    cases moves with
    | read i waits =>
      rw [before, Bool.false_or]
      cases held : c.members.any Increment.isHolding with
      | true =>
        refine ⟨fun none => ?_, fun _ => .of_overlap apart waits held _⟩
        cases none
      | false =>
        refine ⟨fun _ => apart.read waits held, fun some => ?_⟩
        cases some
    | write i next holds =>
      rw [before]
      refine ⟨fun _ => apart.write holds, fun some => ?_⟩
      cases some

/-- **Every increment counts if and only if no two overlapped.** -/
theorem value_iff (accounted : Accounted base c) (all : ∀ m ∈ c.members, m.isWritten = true) :
    c.value = base + c.members.length ↔ c.overlapped = false := by
  cases before : c.overlapped with
  | true =>
    refine iff_of_false (fun total => ?_) Bool.noConfusion
    have := (accounted.behind before).latest
    omega
  | false =>
    refine iff_of_true ?_ rfl
    have none : c.members.countP Increment.isOpen = 0 := by
      rw [List.countP_eq_zero]
      intro m member
      have := all m member
      cases m <;> simp_all [Increment.isWritten, Increment.isOpen]
    have := (accounted.apart before).total
    omega

end Accounted

end SharedCounter
