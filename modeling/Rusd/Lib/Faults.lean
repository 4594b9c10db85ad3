/-
**Computations in which one call fails.**

`Faulty σ` is a state with the number of calls that still succeed before one fails. A computation is built
from steps that cannot fail (`safely`), calls whose failure is an error (`calling`), and calls whose failure
counts as a value (`trying`).

* `run_calling_now`, `run_calling_later` — the call that fails, and the ones before it.
* `Mirrors` — once the failure is over, or if there is none, the computation is the one without failures.
-/

import Rusd.Lib.Exec

/-- A state, and how many calls succeed before the one that fails, if one does. -/
structure Faulty (σ : Type) where
  state : σ
  left : Option Nat

namespace Faulty

variable {σ ε α β : Type}

/-- A step that cannot fail. -/
def safely (m : Exec σ ε α) : Exec (Faulty σ) ε α where
  run f := ((m.run f.state).1, ⟨(m.run f.state).2, f.left⟩)

/-- A call whose failure is an error. -/
def calling (e : ε) (m : Exec σ ε α) : Exec (Faulty σ) ε α where
  run f := match f.left with
    | some 0 => (.err e, ⟨f.state, none⟩)
    | some (n + 1) => ((m.run f.state).1, ⟨(m.run f.state).2, some n⟩)
    | none => ((m.run f.state).1, ⟨(m.run f.state).2, none⟩)

/-- A call whose failure counts as this value. -/
def trying (instead : α) (m : Exec σ ε α) : Exec (Faulty σ) ε α where
  run f := match f.left with
    | some 0 => (.ok instead, ⟨f.state, none⟩)
    | some (n + 1) => ((m.run f.state).1, ⟨(m.run f.state).2, some n⟩)
    | none => ((m.run f.state).1, ⟨(m.run f.state).2, none⟩)

/-! ### The call that fails -/

variable {m : Exec σ ε α} {s s' : σ} {o : Outcome ε α}

theorem run_safely (ran : m.run s = (o, s')) (left : Option Nat) :
    (safely m).run ⟨s, left⟩ = (o, ⟨s', left⟩) := by
  simp only [safely, ran]

theorem run_calling_now (e : ε) (m : Exec σ ε α) (s : σ) :
    (calling e m).run ⟨s, some 0⟩ = (.err e, ⟨s, none⟩) := rfl

theorem run_calling_later (e : ε) (ran : m.run s = (o, s')) (n : Nat) :
    (calling e m).run ⟨s, some (n + 1)⟩ = (o, ⟨s', some n⟩) := by
  simp only [calling, ran]

theorem run_trying_now (instead : α) (m : Exec σ ε α) (s : σ) :
    (trying instead m).run ⟨s, some 0⟩ = (.ok instead, ⟨s, none⟩) := rfl

theorem run_trying_later (instead : α) (ran : m.run s = (o, s')) (n : Nat) :
    (trying instead m).run ⟨s, some (n + 1)⟩ = (o, ⟨s', some n⟩) := by
  simp only [trying, ran]

/-- What `m` keeps, it keeps as a call that may fail. -/
theorem keeps_calling {P : σ → Prop} (e : ε) (keeps : Exec.Keeps P m) :
    Exec.Keeps (fun f : Faulty σ => P f.state) (calling e m) := by
  rintro ⟨s, _ | _ | n⟩ holds
  · exact keeps s holds
  · exact holds
  · exact keeps s holds

/-! ### Without a failure -/

/-- Without a failure to come, the computation is `m`. -/
def Mirrors (faulty : Exec (Faulty σ) ε α) (m : Exec σ ε α) : Prop :=
  ∀ s, faulty.run ⟨s, none⟩ = ((m.run s).1, ⟨(m.run s).2, none⟩)

namespace Mirrors

theorem pure (a : α) : Mirrors (Pure.pure a : Exec (Faulty σ) ε α) (Pure.pure a) := fun _ => rfl

theorem safely (m : Exec σ ε α) : Mirrors (Faulty.safely m) m := fun _ => rfl

theorem calling (e : ε) (m : Exec σ ε α) : Mirrors (Faulty.calling e m) m := fun _ => rfl

theorem trying (instead : α) (m : Exec σ ε α) : Mirrors (Faulty.trying instead m) m := fun _ => rfl

theorem bind {first : Exec (Faulty σ) ε α} {m : Exec σ ε α} (mirrors : Mirrors first m)
    {next : α → Exec (Faulty σ) ε β} {f : α → Exec σ ε β} (later : ∀ a, Mirrors (next a) (f a)) :
    Mirrors (first >>= next) (m >>= f) := by
  intro s
  have ran := mirrors s
  rcases outcome : m.run s with ⟨a | e | _, s'⟩
  · rw [outcome] at ran
    rw [Exec.run_bind_ok ran, Exec.run_bind_ok outcome]
    exact later a s'
  · rw [outcome] at ran
    rw [Exec.run_bind_err ran, Exec.run_bind_err outcome]
  · rw [outcome] at ran
    rw [Exec.run_bind_panic ran, Exec.run_bind_panic outcome]

end Mirrors

end Faulty
