/-
**Computations over a shared state that can fail or panic.**

`Exec σ ε α` runs on a state `σ` and ends in an `Outcome`: a value, an error of type `ε`, or a
panic. The state reached is kept in all three cases: what a failed call did before it failed stays
done. `run_bind_ok`, `run_bind_err` and `run_bind_panic` say how a sequence continues or stops, and
`run_bind_eq_ok` takes apart a sequence that returned. `Keeps P m` is an invariant of a computation,
with one rule for each way to build one.
-/

import Mathlib.Tactic

/-- How a call ends. -/
inductive Outcome (ε α : Type)
  | ok (value : α)
  | err (error : ε)
  | panic
  deriving DecidableEq, Repr

/-- Apply `f` to the value of a call that returned one. -/
def Outcome.map {ε α β : Type} (f : α → β) : Outcome ε α → Outcome ε β
  | ok a => ok (f a)
  | err e => err e
  | panic => panic

/-- The value of a call that returned one. -/
def Outcome.returned {ε α : Type} : Outcome ε α → Option α
  | ok a => some a
  | err _ => none
  | panic => none

theorem Outcome.map_eq_ok {ε α β : Type} {f : α → β} {o : Outcome ε α} {b : β} :
    o.map f = ok b ↔ ∃ a, o = ok a ∧ f a = b := by
  cases o <;> simp [map]

/-- A computation on a state `σ`. -/
structure Exec (σ ε α : Type) where
  run : σ → Outcome ε α × σ

namespace Exec

variable {σ ε α β : Type}

/-- Run `f` on the value of `m`, if `m` returned one. -/
def andThen (m : Exec σ ε α) (f : α → Exec σ ε β) : Exec σ ε β where
  run s := match m.run s with
    | (.ok a, s') => (f a).run s'
    | (.err e, s') => (.err e, s')
    | (.panic, s') => (.panic, s')

instance : Monad (Exec σ ε) where
  pure a := ⟨fun s => (.ok a, s)⟩
  bind := andThen

/-- Read a component of the state. -/
def read (f : σ → α) : Exec σ ε α := ⟨fun s => (.ok (f s), s)⟩

/-- Replace the state. -/
def update (f : σ → σ) : Exec σ ε Unit := ⟨fun s => (.ok (), f s)⟩

/-- Return an error. -/
def throw (e : ε) : Exec σ ε α := ⟨fun s => (.err e, s)⟩

/-- Panic. -/
def crash : Exec σ ε α := ⟨fun s => (.panic, s)⟩

/-- `Result::ok` of a pure call: an error becomes `none`, a panic stays one. -/
def attempt : Outcome ε α → Exec σ ε (Option α)
  | .ok a => pure (some a)
  | .err _ => pure none
  | .panic => crash

/-- Ignore an error (or a value); a panic stays one. -/
def recover (m : Exec σ ε α) : Exec σ ε Unit where
  run s := match m.run s with
    | (.panic, s') => (.panic, s')
    | (_, s') => (.ok (), s')

@[simp] theorem run_pure (a : α) (s : σ) : (pure a : Exec σ ε α).run s = (.ok a, s) := rfl

@[simp] theorem run_read (f : σ → α) (s : σ) : (read f : Exec σ ε α).run s = (.ok (f s), s) := rfl

@[simp] theorem run_update (f : σ → σ) (s : σ) :
    (update f : Exec σ ε Unit).run s = (.ok (), f s) := rfl

@[simp] theorem run_throw (e : ε) (s : σ) : (throw e : Exec σ ε α).run s = (.err e, s) := rfl

@[simp] theorem run_crash (s : σ) : (crash : Exec σ ε α).run s = (.panic, s) := rfl

theorem run_bind (m : Exec σ ε α) (f : α → Exec σ ε β) (s : σ) :
    (m >>= f).run s = match m.run s with
      | (.ok a, s') => (f a).run s'
      | (.err e, s') => (.err e, s')
      | (.panic, s') => (.panic, s') := rfl

variable {m : Exec σ ε α} {f : α → Exec σ ε β} {s s' : σ}

theorem run_bind_ok {a : α} (first : m.run s = (.ok a, s')) : (m >>= f).run s = (f a).run s' := by
  rw [run_bind, first]

theorem run_bind_err {e : ε} (first : m.run s = (.err e, s')) : (m >>= f).run s = (.err e, s') := by
  rw [run_bind, first]

theorem run_bind_panic (first : m.run s = (.panic, s')) : (m >>= f).run s = (.panic, s') := by
  rw [run_bind, first]

/-- A sequence that returned: its first part returned, and so did the rest. -/
theorem run_bind_eq_ok {b : β} (done : (m >>= f).run s = (.ok b, s')) :
    ∃ a middle, m.run s = (.ok a, middle) ∧ (f a).run middle = (.ok b, s') := by
  rcases first : m.run s with ⟨a | e | _, middle⟩
  · rw [run_bind_ok first] at done
    exact ⟨a, middle, rfl, done⟩
  · rw [run_bind_err first] at done
    cases done
  · rw [run_bind_panic first] at done
    cases done

/-- A final `pure` leaves the state alone. -/
theorem state_bind_pure (m : Exec σ ε α) (g : α → β) (s : σ) :
    ((m >>= fun a => pure (g a) : Exec σ ε β).run s).2 = (m.run s).2 := by
  rcases first : m.run s with ⟨a | e | _, middle⟩
  · rw [run_bind_ok first]
    rfl
  · rw [run_bind_err first]
  · rw [run_bind_panic first]

/-- A sequence whose first part did not return stops where that part stopped. -/
theorem state_bind_stop {o : Outcome ε α} (first : m.run s = (o, s')) (stops : ∀ a, o ≠ .ok a) :
    ((m >>= f).run s).2 = s' := by
  rcases o with a | e | _
  · exact absurd rfl (stops a)
  · rw [run_bind_err first]
  · rw [run_bind_panic first]

/-! ### What a computation keeps -/

/-- `m` keeps `P`, however it ends. -/
def Keeps (P : σ → Prop) (m : Exec σ ε α) : Prop := ∀ s, P s → P (m.run s).2

namespace Keeps

variable {P : σ → Prop}

theorem pure (a : α) : Keeps P (Pure.pure a : Exec σ ε α) := fun _ holds => holds

theorem read (f : σ → α) : Keeps P (Exec.read f : Exec σ ε α) := fun _ holds => holds

theorem throw (e : ε) : Keeps P (Exec.throw e : Exec σ ε α) := fun _ holds => holds

theorem update {f : σ → σ} (keeps : ∀ s, P s → P (f s)) : Keeps P (Exec.update f : Exec σ ε Unit) :=
  keeps

theorem bind (first : Keeps P m) (next : ∀ a, Keeps P (f a)) : Keeps P (m >>= f) := by
  intro s holds
  have middle := first s holds
  rw [run_bind]
  rcases ran : m.run s with ⟨a | e | _, s'⟩ <;> rw [ran] at middle
  · exact next a s' middle
  · exact middle
  · exact middle

theorem recover (keeps : Keeps P m) : Keeps P (Exec.recover m) := by
  intro s holds
  have after := keeps s holds
  rcases ran : m.run s with ⟨a | e | _, s'⟩ <;> rw [ran] at after <;>
    simpa only [Exec.recover, ran] using after

end Keeps

end Exec
