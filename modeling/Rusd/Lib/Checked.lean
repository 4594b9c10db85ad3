/-
**Reading a byte buffer with every access checked.**

An index or a slice out of bounds, and a sum that does not fit a 64-bit `usize`, end in a panic. A sum
comes with the equation that defines it, so that a parser can say that its offset has moved on.

* `bytesAt_eq`, `bytesAt_panic` — bytes read one by one are a slice if they are all there, and a panic
  if one is not.
* `sliceAt_eq` — a slice inside the buffer.
* `u32At_lt` — a length read from the buffer can be added to a place in it.
-/

import Rusd.Lib.Bytes
import Rusd.Lib.Exec

namespace Outcome

variable {ε α β : Type}

/-- Go on with the value, if there is one. -/
def andThen (m : Outcome ε α) (f : α → Outcome ε β) : Outcome ε β :=
  match m with
  | ok a => f a
  | err e => err e
  | panic => panic

instance : Monad (Outcome ε) where
  pure := ok
  bind := andThen

theorem ok_bind (a : α) (f : α → Outcome ε β) : (ok a >>= f) = f a := rfl

theorem panic_bind (f : α → Outcome ε β) : (panic >>= f) = panic := rfl

/-- A sequence that returned: its first part returned, and so did the rest. -/
theorem bind_eq_ok {m : Outcome ε α} {f : α → Outcome ε β} {b : β} (done : (m >>= f) = ok b) :
    ∃ a, m = ok a ∧ f a = ok b := by
  cases m with
  | ok a => exact ⟨a, rfl, done⟩
  | err e => cases done
  | panic => cases done

end Outcome

namespace Exec

variable {σ ε α β : Type}

/-- A computation that does not touch the state. -/
def lift (o : Outcome ε α) : Exec σ ε α := ⟨fun s => (o, s)⟩

theorem lift_ok_bind (a : α) (f : α → Exec σ ε β) : (lift (.ok a) >>= f) = f a := rfl

end Exec

section Access

variable {ε : Type}

/-- A byte string that fits into memory: no slice has more than `isize::MAX` bytes. -/
abbrev Buffer := { bytes : Bytes // bytes.length < 2 ^ 63 }

/-- A sum of `usize` values. -/
def usizeAdd (a b : Nat) : Outcome ε { sum : Nat // sum = a + b } :=
  if a + b < 2 ^ 64 then .ok ⟨a + b, rfl⟩ else .panic

/-- `data[i]`. -/
def byteAt (data : Bytes) (i : Nat) : Outcome ε Byte :=
  match data[i]? with
  | some byte => .ok byte
  | none => .panic

/-- `[data[offset + i], …]`, for the listed places. -/
def bytesAt (data : Bytes) (offset : Nat) : List Nat → Outcome ε Bytes
  | [] => .ok []
  | i :: rest => do
    let place ← usizeAdd offset i
    let byte ← byteAt data place
    let others ← bytesAt data offset rest
    .ok (byte :: others)

/-- `data[low..high]`. -/
def sliceAt (data : Bytes) (low high : Nat) : Outcome ε Bytes :=
  if low ≤ high ∧ high ≤ data.length then .ok (slice data low high) else .panic

/-- `u32::from_le_bytes` of four bytes, as a `usize`. -/
def u32At (data : Bytes) (offset : Nat) : Outcome ε Nat := do
  let bytes ← bytesAt data offset (List.range 4)
  .ok (ofLeBytes bytes)

variable {data : Bytes} {offset width low high : Nat}

theorem usizeAdd_eq {a b : Nat} (fits : a + b < 2 ^ 64) :
    (usizeAdd a b : Outcome ε { sum : Nat // sum = a + b }) = .ok ⟨a + b, rfl⟩ :=
  if_pos fits

theorem sliceAt_eq (ordered : low ≤ high) (inside : high ≤ data.length) :
    (sliceAt data low high : Outcome ε Bytes) = .ok (slice data low high) :=
  if_pos ⟨ordered, inside⟩

theorem length_slice (ordered : low ≤ high) (inside : high ≤ data.length) :
    (slice data low high).length = high - low := by
  rw [slice, List.length_take, List.length_drop]
  omega

/-- Bytes that are all there. -/
theorem bytesAt_map {places : List Nat} (inside : ∀ i ∈ places, offset + i < data.length)
    (small : data.length < 2 ^ 63) :
    (bytesAt data offset places : Outcome ε Bytes) =
      .ok (places.map fun i => data.getD (offset + i) 0) := by
  induction places with
  | nil => rfl
  | cons i rest ih =>
    obtain ⟨first, others⟩ := List.forall_mem_cons.mp inside
    have read : (byteAt data (offset + i) : Outcome ε Byte) = .ok (data.getD (offset + i) 0) := by
      rw [byteAt, List.getElem?_eq_getElem first, List.getElem_eq_getD 0]
    rw [bytesAt, usizeAdd_eq (by omega), Outcome.ok_bind]
    dsimp only
    rw [read, Outcome.ok_bind, ih others, Outcome.ok_bind, List.map_cons]

/-- **Bytes read one by one are a slice.** -/
theorem bytesAt_eq (inside : offset + width ≤ data.length) (small : data.length < 2 ^ 63) :
    (bytesAt data offset (List.range width) : Outcome ε Bytes) =
      .ok (slice data offset (offset + width)) := by
  have places : ∀ i ∈ List.range width, offset + i < data.length := by
    intro i member
    have below := List.mem_range.mp member
    omega
  rw [bytesAt_map places small]
  unfold slice
  congr 1
  refine List.ext_getElem ?_ fun i low high => ?_
  · rw [List.length_map, List.length_range, List.length_take, List.length_drop]
    omega
  · rw [List.getElem_map, List.getElem_range, List.getElem_take, List.getElem_drop]
    exact (List.getElem_eq_getD 0).symm

/-- **A byte that is not there** is a panic. -/
theorem bytesAt_panic {places : List Nat} {i : Nat} (member : i ∈ places)
    (outside : data.length ≤ offset + i) : (bytesAt data offset places : Outcome ε Bytes) = .panic := by
  induction places with
  | nil => cases member
  | cons j rest ih =>
    rw [bytesAt]
    unfold usizeAdd
    split_ifs
    · rw [Outcome.ok_bind]
      dsimp only
      unfold byteAt
      cases found : data[offset + j]? with
      | none => rfl
      | some byte =>
        rw [Outcome.ok_bind]
        rcases List.mem_cons.mp member with rfl | later
        · rw [List.getElem?_eq_none outside] at found
          cases found
        · rw [ih later, Outcome.panic_bind]
    · rfl

theorem u32At_eq (inside : offset + 4 ≤ data.length) (small : data.length < 2 ^ 63) :
    (u32At data offset : Outcome ε Nat) = .ok (ofLeBytes (slice data offset (offset + 4))) := by
  rw [u32At, bytesAt_eq inside small, Outcome.ok_bind]

/-- A length of 32 bits. -/
theorem u32At_lt (inside : offset + 4 ≤ data.length) :
    ofLeBytes (slice data offset (offset + 4)) < 2 ^ 32 := by
  have below := ofLeBytes_lt (slice data offset (offset + 4))
  rw [length_slice (by omega) inside, Nat.add_sub_cancel_left] at below
  norm_num at below ⊢
  exact below

end Access
