/-
**A bounded channel with a sender that never waits.**

`trySend` appends to the queue, or drops the value if the queue is full; `recv` takes the oldest
value out. `stream` is everything that ever went through: what was received, then what is queued.

* `stream_run` — the stream grows by exactly the values that found room;
* `accepted_sublist` — these are some of the values sent, in their order;
* `accepted_eq_sent_iff` — they are all of them if and only if no value met a full queue.
-/

import Mathlib.Data.List.Basic
import Mathlib.Tactic.Common

/-- A channel of bounded capacity; `received` is what was taken out of it so far. -/
structure Channel (α : Type) where
  capacity : Nat
  queue : List α
  received : List α
  deriving DecidableEq, Repr

/-- A use of a channel. -/
inductive ChannelOp (α : Type)
  | send (value : α)
  | recv
  deriving DecidableEq, Repr

namespace Channel

variable {α : Type}

def new (capacity : Nat) : Channel α := ⟨capacity, [], []⟩

def full (c : Channel α) : Bool := c.capacity ≤ c.queue.length

/-- Send without waiting: a value that meets a full queue is dropped. -/
def trySend (c : Channel α) (value : α) : Channel α :=
  if c.full then c else { c with queue := c.queue ++ [value] }

/-- Take the oldest value; an empty queue stays empty. -/
def recv (c : Channel α) : Channel α :=
  match c.queue with
  | [] => c
  | value :: rest => { c with queue := rest, received := c.received ++ [value] }

/-- Everything that went through the channel, oldest first. -/
def stream (c : Channel α) : List α := c.received ++ c.queue

def apply (c : Channel α) : ChannelOp α → Channel α
  | .send value => c.trySend value
  | .recv => c.recv

def run (c : Channel α) (ops : List (ChannelOp α)) : Channel α := ops.foldl apply c

/-- The values sent. -/
def sent (ops : List (ChannelOp α)) : List α :=
  ops.filterMap fun op =>
    match op with
    | .send value => some value
    | .recv => none

/-- The values sent that found room. -/
def accepted : Channel α → List (ChannelOp α) → List α
  | _, [] => []
  | c, .send value :: rest =>
    if c.full then accepted c rest else value :: accepted (c.trySend value) rest
  | c, .recv :: rest => accepted c.recv rest

/-- No value sent meets a full queue. -/
def NeverFull : Channel α → List (ChannelOp α) → Prop
  | _, [] => True
  | c, .send value :: rest => c.full = false ∧ NeverFull (c.trySend value) rest
  | c, .recv :: rest => NeverFull c.recv rest

@[simp] theorem stream_new (capacity : Nat) : (new capacity : Channel α).stream = [] := rfl

@[simp] theorem stream_recv (c : Channel α) : c.recv.stream = c.stream := by
  unfold recv stream
  cases queued : c.queue with
  | nil => simp only [queued]
  | cons value rest => simp only [List.append_assoc, List.singleton_append]

@[simp] theorem capacity_recv (c : Channel α) : c.recv.capacity = c.capacity := by
  unfold recv
  cases c.queue <;> rfl

@[simp] theorem capacity_trySend (c : Channel α) (value : α) :
    (c.trySend value).capacity = c.capacity := by
  unfold trySend
  split_ifs <;> rfl

theorem stream_trySend {c : Channel α} (room : c.full = false) (value : α) :
    (c.trySend value).stream = c.stream ++ [value] := by
  unfold trySend stream
  rw [if_neg (by rw [room]; exact Bool.false_ne_true), List.append_assoc]

theorem trySend_full {c : Channel α} (full : c.full = true) (value : α) : c.trySend value = c := by
  rw [trySend, if_pos full]

/-- What was received is the beginning of the stream. -/
theorem received_prefix_stream (c : Channel α) : c.received <+: c.stream := List.prefix_append _ _

/-- **The stream grows by the values that found room.** -/
theorem stream_run (ops : List (ChannelOp α)) (c : Channel α) :
    (c.run ops).stream = c.stream ++ accepted c ops := by
  induction ops generalizing c with
  | nil => exact (List.append_nil _).symm
  | cons op rest ih =>
    show ((c.apply op).run rest).stream = _
    rw [ih]
    cases op with
    | send value =>
      rw [apply, accepted]
      cases full : c.full with
      | true => rw [if_pos rfl, trySend_full full]
      | false =>
        rw [if_neg Bool.false_ne_true, stream_trySend full, List.append_assoc,
          List.singleton_append]
    | recv => rw [apply, accepted, stream_recv]

@[simp] theorem sent_send (value : α) (rest : List (ChannelOp α)) :
    sent (.send value :: rest) = value :: sent rest := rfl

@[simp] theorem sent_recv (rest : List (ChannelOp α)) : sent (.recv :: rest) = sent rest := rfl

theorem accepted_sublist (ops : List (ChannelOp α)) (c : Channel α) :
    (accepted c ops).Sublist (sent ops) := by
  induction ops generalizing c with
  | nil => exact List.Sublist.refl _
  | cons op rest ih =>
    cases op with
    | send value =>
      rw [accepted, sent_send]
      split_ifs
      · exact (ih c).cons value
      · exact (ih _).cons_cons value
    | recv => exact ih c.recv

/-- **Nothing is missing exactly when nothing met a full queue.** -/
theorem accepted_eq_sent_iff (ops : List (ChannelOp α)) (c : Channel α) :
    accepted c ops = sent ops ↔ NeverFull c ops := by
  induction ops generalizing c with
  | nil => exact iff_of_true rfl trivial
  | cons op rest ih =>
    cases op with
    | send value =>
      rw [accepted, sent_send, NeverFull]
      cases full : c.full with
      | true =>
        -- a dropped value makes the accepted ones fewer
        rw [if_pos rfl]
        refine iff_of_false (fun same => ?_) (fun never => Bool.noConfusion never.1)
        have shorter := (accepted_sublist rest c).length_le
        rw [same, List.length_cons] at shorter
        omega
      | false =>
        rw [if_neg Bool.false_ne_true, List.cons.injEq, ih]
        exact and_congr_left fun _ => iff_of_true rfl rfl
    | recv => exact ih c.recv

/-- Without a receive a full queue stays as it is. -/
theorem run_full {ops : List (ChannelOp α)} (sends : ∀ op ∈ ops, op ≠ .recv) {c : Channel α}
    (full : c.full = true) : c.run ops = c := by
  induction ops with
  | nil => rfl
  | cons op rest ih =>
    cases op with
    | send value =>
      rw [run, List.foldl_cons, apply, trySend_full full]
      exact ih fun op member => sends op (List.mem_cons_of_mem _ member)
    | recv => exact absurd rfl (sends .recv List.mem_cons_self)

/-- A queue that has room after some sends had room for each of them. -/
theorem neverFull_of_room {ops : List (ChannelOp α)} (sends : ∀ op ∈ ops, op ≠ .recv)
    {c : Channel α} (room : (c.run ops).full = false) : NeverFull c ops := by
  induction ops generalizing c with
  | nil => trivial
  | cons op rest ih =>
    cases op with
    | send value =>
      cases full : c.full with
      | true =>
        rw [run_full sends full, full] at room
        cases room
      | false => exact ⟨full, ih (fun op member => sends op (List.mem_cons_of_mem _ member)) room⟩
    | recv => exact absurd rfl (sends .recv List.mem_cons_self)

end Channel
