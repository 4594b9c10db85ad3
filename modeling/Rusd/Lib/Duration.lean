/-
**Spans of time.**

A `Duration` is a number of nanoseconds whose whole seconds have 64 bits. Arithmetic that panics gives
`none`.

* `asMillis_mono` — whole milliseconds and the order.
* `checkedSub`, `checkedRem` — a difference and a remainder of unsigned numbers.
* `add_millis_lt` — an offset of whole milliseconds that is below the difference of the whole
  milliseconds of two durations stays below the second one.
-/

import Mathlib.Tactic

/-- A span of time in nanoseconds. -/
structure Duration where
  nanos : Nat
  representable : nanos < 2 ^ 64 * 10 ^ 9

namespace Duration

theorem nanos_injective : Function.Injective nanos := by
  rintro ⟨a, _⟩ ⟨b, _⟩ same
  cases same
  rfl

/-- Durations are ordered by their nanoseconds. -/
instance : LinearOrder Duration := LinearOrder.lift' nanos nanos_injective

theorem le_def {a b : Duration} : a ≤ b ↔ a.nanos ≤ b.nanos := Iff.rfl

theorem lt_def {a b : Duration} : a < b ↔ a.nanos < b.nanos := Iff.rfl

/-- The whole milliseconds. -/
def asMillis (d : Duration) : Nat := d.nanos / 10 ^ 6

/-- A number of milliseconds. -/
def fromMillis (millis : UInt64) : Duration where
  nanos := millis.toNat * 10 ^ 6
  representable := by
    have bound := millis.toNat_lt
    omega

/-- The sum, if it is representable. -/
def checkedAdd (a b : Duration) : Option Duration :=
  if sum : a.nanos + b.nanos < 2 ^ 64 * 10 ^ 9 then some ⟨a.nanos + b.nanos, sum⟩ else none

theorem checkedAdd_of_lt {a b c : Duration} (below : a.nanos + b.nanos < c.nanos) :
    ∃ sum, a.checkedAdd b = some sum ∧ sum.nanos = a.nanos + b.nanos := by
  have fits : a.nanos + b.nanos < 2 ^ 64 * 10 ^ 9 := Nat.lt_trans below c.representable
  exact ⟨⟨_, fits⟩, dif_pos fits, rfl⟩

theorem asMillis_mono {a b : Duration} (le : a ≤ b) : a.asMillis ≤ b.asMillis :=
  Nat.div_le_div_right le

/-- The rest of a duration below its milliseconds does not matter. -/
theorem add_millis_lt {a b : Duration} {millis : Nat} (below : millis < b.asMillis - a.asMillis) :
    a.nanos + millis * 10 ^ 6 < b.nanos := by
  unfold asMillis at below
  omega

end Duration

/-- A difference of unsigned numbers. -/
def checkedSub (a b : Nat) : Option Nat := if b ≤ a then some (a - b) else none

/-- A remainder of unsigned numbers. -/
def checkedRem (a b : Nat) : Option Nat := if b = 0 then none else some (a % b)

theorem checkedSub_of_le {a b : Nat} (le : b ≤ a) : checkedSub a b = some (a - b) := if_pos le

theorem checkedRem_of_ne_zero {a b : Nat} (ne_zero : b ≠ 0) : checkedRem a b = some (a % b) :=
  if_neg ne_zero

theorem checkedRem_zero (a : Nat) : checkedRem a 0 = none := if_pos rfl
