/-
**Runs of a machine with guarded steps.**

A machine is a partial step function `σ → α → Option σ`: an action that is not enabled gives
`none`. `runFrom` runs a list of actions, `Along` says that every step of a run meets a condition on
the state before it, and the rules carry an invariant along such a run:

* `run_invariant` — an invariant that every conforming step keeps holds at the end, and
  `run_always` one that every step keeps;
* `run_history` — the same with a ghost value that only grows, together with what the invariant said
  at every earlier state of the run;
* `run_simulates` — a run of one machine is a run of another one, if each of its steps is;
* `run_out` — a machine whose steps take a measure down can be run until nothing is enabled;
* `throughout_iff` — a property holds at every state of a run exactly if every step meets a condition,
  when the condition is what one step needs for it;
* `ascends_iff` — a measure of the state never goes down between two states of a run exactly if no step
  of the run takes it down.
-/

import Mathlib.Order.Basic
import Mathlib.Tactic.Common

section Machine

variable {σ α : Type} {γ : Type} [Preorder γ]

/-- Run the actions one after another. -/
def runFrom (step : σ → α → Option σ) : σ → List α → Option σ
  | s, [] => some s
  | s, action :: rest =>
    match step s action with
    | some next => runFrom step next rest
    | none => none

/-- Every step of the run meets the condition. -/
def Along (step : σ → α → Option σ) (condition : σ → α → Prop) : σ → List α → Prop
  | _, [] => True
  | s, action :: rest =>
    condition s action ∧
      match step s action with
      | some next => Along step condition next rest
      | none => True

variable {step : σ → α → Option σ} {condition : σ → α → Prop}

instance Along.decidable [∀ s action, Decidable (condition s action)] :
    ∀ (s : σ) (actions : List α), Decidable (Along step condition s actions)
  | _, [] => .isTrue trivial
  | s, action :: rest =>
    match h : step s action with
    | some next =>
      have := Along.decidable next rest
      decidable_of_iff (condition s action ∧ Along step condition next rest) (by rw [Along, h])
    | none => decidable_of_iff (condition s action) (by rw [Along, h, and_true])

theorem runFrom_cons {s t : σ} {action : α} {rest : List α}
    (runs : runFrom step s (action :: rest) = some t) :
    ∃ next, step s action = some next ∧ runFrom step next rest = some t := by
  rw [runFrom] at runs
  split at runs
  · exact ⟨_, ‹_›, runs⟩
  · cases runs

/-- A step, then a run. -/
theorem runFrom_step {s next t : σ} {action : α} {rest : List α} (moves : step s action = some next)
    (runs : runFrom step next rest = some t) : runFrom step s (action :: rest) = some t := by
  rw [runFrom, moves]
  exact runs

/-- Two runs, one after the other. -/
theorem runFrom_append {actions more : List α} : ∀ {s t u : σ}, runFrom step s actions = some t →
    runFrom step t more = some u → runFrom step s (actions ++ more) = some u := by
  induction actions with
  | nil =>
    intro s t u runs continues
    cases runs
    exact continues
  | cons action rest ih =>
    intro s t u runs continues
    obtain ⟨next, moves, runs⟩ := runFrom_cons runs
    exact runFrom_step moves (ih runs continues)

/-- **A machine whose steps take a measure down runs out**: from every state some run reaches one in
which no action is enabled. -/
theorem run_out (size : σ → Nat) (smaller : ∀ s action t, step s action = some t → size t < size s)
    (s : σ) : ∃ actions t, runFrom step s actions = some t ∧ ∀ action, step t action = none := by
  induction bound : size s using Nat.strongRecOn generalizing s with
  | _ n ih =>
    by_cases ends : ∀ action, step s action = none
    · exact ⟨[], s, rfl, ends⟩
    · push Not at ends
      obtain ⟨action, enabled⟩ := ends
      obtain ⟨next, moves⟩ := Option.ne_none_iff_exists'.mp enabled
      obtain ⟨actions, t, runs, ends⟩ := ih _ (bound ▸ smaller s action next moves) next rfl
      exact ⟨action :: actions, t, runFrom_step moves runs, ends⟩

/-- Such a machine has no longer runs than its measure at the start. -/
theorem run_length {size : σ → Nat} (smaller : ∀ s action t, step s action = some t → size t < size s)
    {actions : List α} : ∀ {s t : σ}, runFrom step s actions = some t →
      actions.length + size t ≤ size s := by
  induction actions with
  | nil =>
    intro s t runs
    cases runs
    exact Nat.le_of_eq (Nat.zero_add _)
  | cons action rest ih =>
    intro s t runs
    obtain ⟨next, moves, runs⟩ := runFrom_cons runs
    have less := smaller s action next moves
    have bound := ih runs
    rw [List.length_cons]
    omega

/-- A run in two parts. -/
theorem runFrom_split {actions more : List α} : ∀ {s u : σ},
    runFrom step s (actions ++ more) = some u →
      ∃ t, runFrom step s actions = some t ∧ runFrom step t more = some u := by
  induction actions with
  | nil =>
    intro s u runs
    exact ⟨s, rfl, runs⟩
  | cons action rest ih =>
    intro s u runs
    obtain ⟨next, moves, runs⟩ := runFrom_cons runs
    obtain ⟨t, reaches, continues⟩ := ih runs
    exact ⟨t, runFrom_step moves reaches, continues⟩

/-- The last step of a run. -/
theorem runFrom_concat {action : α} {actions : List α} {s t : σ}
    (runs : runFrom step s (actions ++ [action]) = some t) :
    ∃ before, runFrom step s actions = some before ∧ step before action = some t := by
  obtain ⟨before, reaches, runs⟩ := runFrom_split runs
  obtain ⟨next, moves, ends⟩ := runFrom_cons runs
  cases ends
  exact ⟨before, reaches, moves⟩

theorem Along.head {s : σ} {action : α} {rest : List α}
    (along : Along step condition s (action :: rest)) : condition s action :=
  along.1

theorem Along.tail {s next : σ} {action : α} {rest : List α}
    (along : Along step condition s (action :: rest)) (moves : step s action = some next) :
    Along step condition next rest := by
  have after := along.2
  rwa [moves] at after

/-- A condition on the actions alone. -/
theorem Along.of_forall {allowed : α → Prop} {actions : List α}
    (all : ∀ action ∈ actions, allowed action) :
    ∀ s : σ, Along step (fun _ action => allowed action) s actions := by
  induction actions with
  | nil => exact fun _ => trivial
  | cons action rest ih =>
    intro s
    refine ⟨all action List.mem_cons_self, ?_⟩
    cases step s action with
    | none => trivial
    | some next => exact ih (fun other member => all other (List.mem_cons_of_mem _ member)) next

theorem Along.take {actions : List α} : ∀ {s : σ}, Along step condition s actions → ∀ (i : Nat),
    Along step condition s (actions.take i) := by
  induction actions with
  | nil =>
    intro s along i
    rwa [List.take_nil]
  | cons action rest ih =>
    intro s along i
    cases i with
    | zero => trivial
    | succ i =>
      refine ⟨along.head, ?_⟩
      cases moves : step s action with
      | none => trivial
      | some next => exact ih (along.tail moves) i

/-- The condition of the last step. -/
theorem Along.last {action : α} {actions : List α} :
    ∀ {s t : σ}, Along step condition s (actions ++ [action]) → runFrom step s actions = some t →
      condition t action := by
  induction actions with
  | nil =>
    intro s t along runs
    cases runs
    exact along.head
  | cons first rest ih =>
    intro s t along runs
    obtain ⟨next, moves, runs⟩ := runFrom_cons runs
    exact ih (along.tail moves) runs

/-- A weaker condition is met along the same run. -/
theorem Along.mono {weaker : σ → α → Prop} (weaken : ∀ s action, condition s action → weaker s action)
    {actions : List α} : ∀ {s : σ}, Along step condition s actions → Along step weaker s actions := by
  induction actions with
  | nil => exact fun _ => trivial
  | cons action rest ih =>
    intro s along
    refine ⟨weaken s action along.head, ?_⟩
    cases moves : step s action with
    | none => trivial
    | some next => exact ih (along.tail moves)

/-- A condition that follows from another one under an invariant. -/
theorem Along.of_invariant {other : σ → α → Prop} {invariant : σ → Prop}
    (keeps : ∀ s action next, step s action = some next → condition s action → invariant s →
      invariant next)
    (gives : ∀ s action, invariant s → condition s action → other s action)
    {actions : List α} : ∀ {s : σ}, invariant s → Along step condition s actions →
      Along step other s actions := by
  induction actions with
  | nil => exact fun _ _ => trivial
  | cons action rest ih =>
    intro s holds along
    refine ⟨gives s action holds along.head, ?_⟩
    cases moves : step s action with
    | none => trivial
    | some next => exact ih (keeps s action next moves along.head holds) (along.tail moves)

/-- **The invariant rule.** -/
theorem run_invariant {invariant : σ → Prop}
    (keeps : ∀ s action next, step s action = some next → condition s action → invariant s →
      invariant next)
    {actions : List α} : ∀ {s t : σ}, invariant s → Along step condition s actions →
      runFrom step s actions = some t → invariant t := by
  induction actions with
  | nil =>
    intro s t holds _ runs
    cases runs
    exact holds
  | cons action rest ih =>
    intro s t holds along runs
    obtain ⟨next, moves, runs⟩ := runFrom_cons runs
    exact ih (keeps s action next moves along.head holds) (along.tail moves) runs

/-- An invariant that every step keeps. -/
theorem run_always {invariant : σ → Prop}
    (keeps : ∀ s action next, step s action = some next → invariant s → invariant next)
    {actions : List α} : ∀ {s t : σ}, invariant s → runFrom step s actions = some t →
      invariant t := by
  induction actions with
  | nil =>
    intro s t holds runs
    cases runs
    exact holds
  | cons action rest ih =>
    intro s t holds runs
    obtain ⟨next, moves, runs⟩ := runFrom_cons runs
    exact ih (keeps s action next moves holds) runs

/-- A conforming run, then another one. -/
theorem Along.append {actions more : List α} : ∀ {s t : σ}, Along step condition s actions →
    runFrom step s actions = some t → Along step condition t more →
      Along step condition s (actions ++ more) := by
  induction actions with
  | nil =>
    intro s t _ runs after
    cases runs
    exact after
  | cons action rest ih =>
    intro s t along runs after
    obtain ⟨next, moves, runs⟩ := runFrom_cons runs
    refine ⟨along.head, ?_⟩
    rw [moves]
    exact ih (along.tail moves) runs after

/-- **The simulation rule.** Where each conforming step is a conforming run of another machine on the
projected state, so is a whole run. -/
theorem run_simulates {τ β : Type} {step' : τ → β → Option τ} {condition' : τ → β → Prop}
    (project : σ → τ)
    (simulates : ∀ s action next, step s action = some next → condition s action →
      ∃ events, runFrom step' (project s) events = some (project next) ∧
        Along step' condition' (project s) events)
    {actions : List α} : ∀ {s t : σ}, Along step condition s actions → runFrom step s actions = some t →
      ∃ events, runFrom step' (project s) events = some (project t) ∧
        Along step' condition' (project s) events := by
  induction actions with
  | nil =>
    intro s t _ runs
    cases runs
    exact ⟨[], rfl, trivial⟩
  | cons action rest ih =>
    intro s t along runs
    obtain ⟨next, moves, runs⟩ := runFrom_cons runs
    obtain ⟨events, reaches, conforms⟩ := simulates s action next moves along.head
    obtain ⟨more, continues, conforms'⟩ := ih (along.tail moves) runs
    exact ⟨events ++ more, runFrom_append reaches continues, conforms.append reaches conforms'⟩

/-- **The invariant rule with a ghost value that grows.** Every state the run passed through met the
invariant with a ghost value below the last one. -/
theorem run_history {invariant : σ → γ → Prop}
    (keeps : ∀ s action next ghost, step s action = some next → condition s action →
      invariant s ghost → ∃ ghost', ghost ≤ ghost' ∧ invariant next ghost')
    {actions : List α} : ∀ {s t : σ} {ghost : γ}, invariant s ghost →
      Along step condition s actions → runFrom step s actions = some t →
      ∃ last, ghost ≤ last ∧ invariant t last ∧
        ∀ (n : Nat) (u : σ), runFrom step s (actions.take n) = some u →
          ∃ earlier, earlier ≤ last ∧ invariant u earlier := by
  induction actions with
  | nil =>
    intro s t ghost holds _ runs
    cases runs
    refine ⟨ghost, le_rfl, holds, fun n u reaches => ?_⟩
    rw [List.take_nil] at reaches
    cases reaches
    exact ⟨ghost, le_rfl, holds⟩
  | cons action rest ih =>
    intro s t ghost holds along runs
    obtain ⟨next, moves, runs⟩ := runFrom_cons runs
    obtain ⟨ghost', grows, holds'⟩ := keeps s action next ghost moves along.head holds
    obtain ⟨last, above, final, earlier⟩ := ih holds' (along.tail moves) runs
    refine ⟨last, grows.trans above, final, fun n u reaches => ?_⟩
    cases n with
    | zero =>
      rw [List.take_zero] at reaches
      cases reaches
      exact ⟨ghost, grows.trans above, holds⟩
    | succ n =>
      rw [List.take_succ_cons] at reaches
      obtain ⟨next', moves', reaches⟩ := runFrom_cons reaches
      rw [moves] at moves'
      cases moves'
      exact earlier n u reaches

/-! ### Properties of every state of a run -/

/-- Every state of the run has the property. -/
def Throughout (step : σ → α → Option σ) (property : σ → Prop) (s : σ) (actions : List α) : Prop :=
  ∀ (i : Nat) (t : σ), runFrom step s (actions.take i) = some t → property t

theorem Throughout.head {property : σ → Prop} {s next : σ} {action : α} {rest : List α}
    (throughout : Throughout step property s (action :: rest)) (moves : step s action = some next) :
    property next := by
  refine throughout 1 next ?_
  rw [List.take_succ_cons, List.take_zero, runFrom, moves]
  rfl

theorem Throughout.tail {property : σ → Prop} {s next : σ} {action : α} {rest : List α}
    (throughout : Throughout step property s (action :: rest)) (moves : step s action = some next) :
    Throughout step property next rest := by
  intro i t reaches
  refine throughout (i + 1) t ?_
  rwa [List.take_succ_cons, runFrom, moves]

/-- Only the states of the run itself count. -/
theorem throughout_of_le {property : σ → Prop} {s : σ} {actions : List α}
    (all : ∀ i ≤ actions.length, ∀ t ∈ runFrom step s (actions.take i), property t) :
    Throughout step property s actions := by
  intro i t reaches
  rcases Nat.le_total i actions.length with le | le
  · exact all i le t reaches
  · rw [List.take_of_length_le le] at reaches
    exact all actions.length (Nat.le_refl _) t (by rwa [List.take_length])

/-- Each step of the run starts from a state with the property. -/
theorem Throughout.along {property : σ → Prop} {actions : List α} : ∀ {s : σ},
    Throughout step property s actions → Along step (fun s _ => property s) s actions := by
  induction actions with
  | nil => exact fun _ => trivial
  | cons action rest ih =>
    intro s throughout
    refine ⟨throughout 0 s rfl, ?_⟩
    cases moves : step s action with
    | none => trivial
    | some next => exact ih (throughout.tail moves)

/-- **The exact condition for a property of every state.** `full` is the invariant that carries the
property, and `admits` what is known of every action. -/
theorem throughout_iff {property : σ → Prop} {admits : α → Prop} (full : σ → Prop)
    (holds : ∀ s, full s → property s)
    (idle : ∀ s action, step s action = none → condition s action)
    (needs : ∀ s action next, admits action → step s action = some next → full s → property next →
      condition s action)
    (keeps : ∀ s action next, admits action → step s action = some next → full s →
      condition s action → full next)
    {actions : List α} : ∀ {s : σ}, (∀ action ∈ actions, admits action) → full s →
      (Throughout step property s actions ↔ Along step condition s actions) := by
  induction actions with
  | nil =>
    intro s _ start
    refine ⟨fun _ => trivial, fun _ i t reaches => ?_⟩
    rw [List.take_nil] at reaches
    cases reaches
    exact holds s start
  | cons action rest ih =>
    intro s admitted start
    have here : admits action := admitted action List.mem_cons_self
    have later : ∀ action ∈ rest, admits action :=
      fun other member => admitted other (List.mem_cons_of_mem _ member)
    constructor
    · intro throughout
      cases moves : step s action with
      | none =>
        refine ⟨idle s action moves, ?_⟩
        rw [moves]
        trivial
      | some next =>
        have met := needs s action next here moves start (throughout.head moves)
        refine ⟨met, ?_⟩
        rw [moves]
        exact (ih later (keeps s action next here moves start met)).mp (throughout.tail moves)
    · intro along i t reaches
      cases i with
      | zero =>
        cases reaches
        exact holds s start
      | succ i =>
        rw [List.take_succ_cons] at reaches
        obtain ⟨next, moves, reaches⟩ := runFrom_cons reaches
        exact (ih later (keeps s action next here moves start along.head)).mpr (along.tail moves) i t
          reaches

/-! ### Measures that never go down -/

/-- The measure of a later state of the run is not below that of an earlier one. -/
def Ascends (step : σ → α → Option σ) (measure : σ → γ) (s : σ) (actions : List α) : Prop :=
  ∀ (i j : Nat) (t u : σ), i ≤ j → runFrom step s (actions.take i) = some t →
    runFrom step s (actions.take j) = some u → measure t ≤ measure u

/-- The step does not take the measure down. -/
def Rises (step : σ → α → Option σ) (measure : σ → γ) (s : σ) (action : α) : Prop :=
  ∀ next, step s action = some next → measure s ≤ measure next

variable {measure : σ → γ}

theorem le_of_rises {actions : List α} : ∀ {s t : σ} {j : Nat},
    Along step (Rises step measure) s actions → runFrom step s (actions.take j) = some t →
      measure s ≤ measure t := by
  induction actions with
  | nil =>
    intro s t j _ runs
    rw [List.take_nil] at runs
    cases runs
    exact le_rfl
  | cons action rest ih =>
    intro s t j along runs
    cases j with
    | zero =>
      cases runs
      exact le_rfl
    | succ j =>
      rw [List.take_succ_cons] at runs
      obtain ⟨next, moves, runs⟩ := runFrom_cons runs
      exact (along.head next moves).trans (ih (along.tail moves) runs)

/-- **A measure ascends if and only if every step lets it rise.** -/
theorem ascends_iff {actions : List α} : ∀ {s : σ},
    Ascends step measure s actions ↔ Along step (Rises step measure) s actions := by
  induction actions with
  | nil =>
    intro s
    refine ⟨fun _ => trivial, fun _ i j t u _ reaches reaches' => ?_⟩
    rw [List.take_nil] at reaches reaches'
    cases reaches
    cases reaches'
    exact le_rfl
  | cons action rest ih =>
    intro s
    constructor
    · intro ascends
      refine ⟨fun next moves => ?_, ?_⟩
      · refine ascends 0 1 s next (Nat.zero_le 1) rfl ?_
        rw [List.take_succ_cons, List.take_zero, runFrom, moves]
        rfl
      · cases moves : step s action with
        | none => trivial
        | some next =>
          refine ih.mp fun i j t u le reaches reaches' =>
            ascends (i + 1) (j + 1) t u (Nat.succ_le_succ le) ?_ ?_
          · rwa [List.take_succ_cons, runFrom, moves]
          · rwa [List.take_succ_cons, runFrom, moves]
    · intro along i j t u le reaches reaches'
      cases i with
      | zero =>
        cases reaches
        exact le_of_rises along reaches'
      | succ i =>
        obtain ⟨j, rfl⟩ : ∃ later, j = later + 1 := ⟨j - 1, by omega⟩
        rw [List.take_succ_cons] at reaches reaches'
        obtain ⟨next, moves, reaches⟩ := runFrom_cons reaches
        obtain ⟨next', moves', reaches'⟩ := runFrom_cons reaches'
        rw [moves] at moves'
        cases moves'
        exact ih.mpr (along.tail moves) i j t u (Nat.le_of_succ_le_succ le) reaches reaches'

end Machine
