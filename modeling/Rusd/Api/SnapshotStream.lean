/-
**The streamed snapshot** (`api/maintenance_service.rs`, `snapshot`).

The call hands out the receiving end of a channel and spawns a task that takes the snapshot of the store and
sends it in chunks; a full channel makes the task wait, a dropped receiver ends it. Each chunk reports how
many bytes come behind it. Task, client and a disconnect move in any order.

* `Sending` — the invariant: what went through the channel are the bytes up to the task's offset, in chunks
  that report truthfully.
* `Sending.sent_run` — every run keeps it.
* `SnapshotSend.run_bounded` — a stream ends: task and client together take a bounded number of steps.
* `streamed_backup_restores` — a client that is left with nothing more to receive, or holds a chunk that
  reports no bytes behind it, has a backup that restores the store.
-/

import Rusd.Lib.Channel
import Rusd.Lib.Machine
import Rusd.Api.KvService
import Rusd.Storage.Resume

namespace Rusd

open MvccStore

structure SnapshotResponse where
  remainingBytes : Nat
  blob : Bytes
  deriving DecidableEq, Repr

/-- The spawned task: at an offset of the snapshot, about to send its one error, or at its end. -/
inductive SnapshotTask
  | streaming (data : Bytes) (offset : Nat)
  | failing (status : Status)
  | done
  deriving DecidableEq, Repr

/-- A call under way; `receiving` while the client has not dropped the stream. -/
structure SnapshotSend where
  task : SnapshotTask
  channel : Channel (Except Status SnapshotResponse)
  receiving : Bool

/-- What happens to a call: the task goes on, the client takes a message, the client goes away. -/
inductive SnapshotEvent
  | send
  | recv
  | close
  deriving DecidableEq, Repr

namespace SnapshotSend

def chunkSize : Nat := 64 * 1024

/-- The chunk at an offset. -/
def response (data : Bytes) (offset : Nat) : SnapshotResponse :=
  let stop := min (offset + chunkSize) data.length
  { remainingBytes := data.length - stop
    blob := slice data offset stop }

/-- The call, once the task has taken the snapshot. -/
def start (store : MvccStore) : SnapshotSend where
  task := match store.createSnapshot with
    | .ok data => .streaming data 0
    | .err e => .failing ⟨.internal, "snapshot creation failed: " ++ e.display⟩
    | .panic => .done
  channel := .new 128
  receiving := true

def step (call : SnapshotSend) : SnapshotEvent → Option SnapshotSend
  | .send =>
    match call.task with
    | .streaming data offset =>
      if data.length ≤ offset ∨ call.receiving = false then some { call with task := .done }
      else if call.channel.full then none -- `send` waits for room
      else some { call with
        channel := call.channel.trySend (.ok (response data offset))
        task := .streaming data (min (offset + chunkSize) data.length) }
    | .failing status =>
      if call.receiving = false then some { call with task := .done }
      else if call.channel.full then none
      else some { call with channel := call.channel.trySend (.error status), task := .done }
    | .done => none
  | .recv =>
    if call.receiving ∧ call.channel.queue ≠ [] then some { call with channel := call.channel.recv }
    else none
  | .close => if call.receiving then some { call with receiving := false } else none

end SnapshotSend

/-- The bytes of some chunks. -/
def blobs (chunks : List SnapshotResponse) : Bytes := chunks.flatMap SnapshotResponse.blob

@[simp] theorem blobs_nil : blobs [] = [] := rfl

theorem blobs_concat (chunks : List SnapshotResponse) (last : SnapshotResponse) :
    blobs (chunks ++ [last]) = blobs chunks ++ last.blob := by
  rw [blobs, List.flatMap_append, List.flatMap_singleton]
  rfl

/-- **Every chunk reports the bytes that are not yet sent.** -/
def Truthful (data : Bytes) (chunks : List SnapshotResponse) : Prop :=
  ∀ front last, front ++ [last] <+: chunks →
    (blobs (front ++ [last])).length + last.remainingBytes = data.length

theorem Truthful.concat {data : Bytes} {chunks : List SnapshotResponse} {next : SnapshotResponse}
    (truthful : Truthful data chunks)
    (reports : (blobs (chunks ++ [next])).length + next.remainingBytes = data.length) :
    Truthful data (chunks ++ [next]) := by
  intro front last within
  rcases List.prefix_concat_iff.mp within with whole | earlier
  · obtain ⟨rfl, same⟩ := List.append_inj' whole rfl
    cases same
    exact reports
  · exact truthful front last earlier

/-- The next chunk continues the bytes, and reports truthfully. -/
theorem take_chunk {data : Bytes} {offset : Nat} (inside : offset ≤ data.length) :
    data.take offset ++ (SnapshotSend.response data offset).blob =
        data.take (min (offset + SnapshotSend.chunkSize) data.length) ∧
      min (offset + SnapshotSend.chunkSize) data.length +
        (SnapshotSend.response data offset).remainingBytes = data.length := by
  have reaches : offset + (min (offset + SnapshotSend.chunkSize) data.length - offset) =
      min (offset + SnapshotSend.chunkSize) data.length := by omega
  constructor
  · rw [SnapshotSend.response, slice, ← List.take_add, reaches]
  · show _ + (data.length - min (offset + SnapshotSend.chunkSize) data.length) = data.length
    omega

/-! ### What goes through the channel -/

/-- **The stream up to the task's offset.** -/
structure Sending (data : Bytes) (call : SnapshotSend) (sent : List SnapshotResponse) (offset : Nat) :
    Prop where
  capacity : call.channel.capacity = 128
  stream : call.channel.stream = sent.map .ok
  bytes : blobs sent = data.take offset
  inside : offset ≤ data.length
  truthful : Truthful data sent
  task : call.task = .streaming data offset ∨
    call.task = .done ∧ (call.receiving = true → offset = data.length)

namespace Sending

variable {data : Bytes} {call next : SnapshotSend} {sent : List SnapshotResponse} {offset : Nat}

theorem start {store : MvccStore} (taken : store.createSnapshot = .ok data) :
    Sending data (SnapshotSend.start store) [] 0 where
  capacity := rfl
  stream := rfl
  bytes := (List.take_zero).symm
  inside := Nat.zero_le _
  truthful := by
    intro front last within
    exact absurd (List.prefix_nil.mp within) (List.append_ne_nil_of_right_ne_nil _ (List.cons_ne_nil _ _))
  task := by
    rw [SnapshotSend.start, taken]
    exact .inl rfl

/-- The task sends a chunk, or ends. -/
theorem send (sending : Sending data call sent offset) (moves : call.step .send = some next) :
    ∃ sent offset, Sending data next sent offset := by
  rcases sending.task with at_ | ⟨ended, -⟩
  · simp only [SnapshotSend.step, at_] at moves
    split_ifs at moves with ends full
    · cases moves
      refine ⟨sent, offset, { sending with task := .inr ⟨rfl, fun receiving => ?_⟩ }⟩
      rcases ends with whole | gone
      · exact sending.inside.antisymm whole
      · rw [receiving] at gone
        cases gone
    · cases moves
      obtain ⟨continues, reports⟩ := take_chunk sending.inside
      have bytes : blobs (sent ++ [SnapshotSend.response data offset]) =
          data.take (min (offset + SnapshotSend.chunkSize) data.length) := by
        rw [blobs_concat, sending.bytes, continues]
      refine ⟨sent ++ [SnapshotSend.response data offset], min (offset + SnapshotSend.chunkSize) data.length,
        (Channel.capacity_trySend _ _).trans sending.capacity, ?_, bytes, Nat.min_le_right _ _,
        sending.truthful.concat ?_, .inl rfl⟩
      · rw [Channel.stream_trySend (Bool.eq_false_of_not_eq_true full), sending.stream, List.map_append,
          List.map_singleton]
      · rw [bytes, List.length_take, Nat.min_eq_left (Nat.min_le_right _ _), reports]
  · simp only [SnapshotSend.step, ended] at moves
    cases moves

/-- **One step.** The client's own steps change what is received, not what was sent. -/
theorem step (sending : Sending data call sent offset) {event : SnapshotEvent}
    (moves : call.step event = some next) : ∃ sent offset, Sending data next sent offset := by
  cases event with
  | send => exact sending.send moves
  | recv =>
    rw [SnapshotSend.step] at moves
    split_ifs at moves
    cases moves
    exact ⟨sent, offset, { sending with
      capacity := (Channel.capacity_recv _).trans sending.capacity
      stream := (Channel.stream_recv _).trans sending.stream }⟩
  | close =>
    rw [SnapshotSend.step] at moves
    split_ifs at moves
    cases moves
    refine ⟨sent, offset, { sending with task := sending.task.imp_right fun ended => ⟨ended.1, ?_⟩ }⟩
    intro receiving
    cases receiving

/-- **Every run.** -/
theorem sent_run {store : MvccStore} (taken : store.createSnapshot = .ok data) {events : List SnapshotEvent}
    (runs : runFrom SnapshotSend.step (.start store) events = some call) :
    ∃ sent offset, Sending data call sent offset := by
  have keeps : ∀ call event next, SnapshotSend.step call event = some next →
      (∃ sent offset, Sending data call sent offset) → ∃ sent offset, Sending data next sent offset := by
    rintro call event next moves ⟨sent, offset, sending⟩
    exact sending.step moves
  exact run_always keeps ⟨[], 0, start taken⟩ runs

/-- What was received are the first chunks of what was sent. -/
theorem received (sending : Sending data call sent offset) :
    ∃ got, call.channel.received = got.map .ok ∧ got <+: sent := by
  have within := call.channel.received_prefix_stream
  rw [sending.stream] at within
  have whole := List.prefix_iff_eq_take.mp within
  rw [← List.map_take] at whole
  exact ⟨_, whole, List.take_prefix _ _⟩

/-- A client that waits for nothing more has received all bytes. -/
theorem complete (sending : Sending data call sent offset) (receiving : call.receiving = true)
    (sends : call.step .send = none) (receives : call.step .recv = none) :
    call.channel.received = sent.map .ok ∧ blobs sent = data := by
  have drained : call.channel.queue = [] := by
    by_contra queued
    rw [SnapshotSend.step, if_pos ⟨receiving, queued⟩] at receives
    cases receives
  constructor
  · rw [← sending.stream, Channel.stream, drained, List.append_nil]
  · rcases sending.task with at_ | ⟨-, whole⟩
    · -- an empty queue has room, so the task could go on
      have room : call.channel.full = false := by
        rw [Channel.full, drained, sending.capacity]
        rfl
      simp only [SnapshotSend.step, at_, room, Bool.false_eq_true, if_false] at sends
      split_ifs at sends
    · rw [sending.bytes, whole receiving, List.take_length]

end Sending

/-! ### Streams end -/

namespace SnapshotSend

/-- The steps that are left to a call. -/
def size (call : SnapshotSend) : Nat :=
  (match call.task with
    | .streaming data offset => 2 * (data.length - offset) + 1
    | .failing _ => 2
    | .done => 0) + call.channel.queue.length + (if call.receiving then 1 else 0)

theorem size_lt {call next : SnapshotSend} {event : SnapshotEvent} (moves : call.step event = some next) :
    next.size < call.size := by
  cases event with
  | send =>
    cases task : call.task with
    | streaming data offset =>
      simp only [step, task] at moves
      split_ifs at moves with ends full
      · cases moves
        simp only [size, task]
        omega
      · -- a chunk is not empty, so one message more means less to send
        cases moves
        simp only [size, task, Channel.trySend, full, Bool.false_eq_true, if_false, List.length_append,
          List.length_singleton, chunkSize]
        omega
    | failing status =>
      simp only [step, task] at moves
      split_ifs at moves with gone full
      · cases moves
        simp only [size, task]
        omega
      · cases moves
        simp only [size, task, Channel.trySend, full, Bool.false_eq_true, if_false, List.length_append,
          List.length_singleton]
        omega
    | done =>
      simp only [step, task] at moves
      cases moves
  | recv =>
    rw [step] at moves
    split_ifs at moves with waits
    cases moves
    obtain ⟨first, rest, queued⟩ := List.exists_cons_of_ne_nil waits.2
    simp only [size, Channel.recv, queued, List.length_cons]
    omega
  | close =>
    rw [step] at moves
    split_ifs at moves with receiving
    cases moves
    simp only [size, receiving, if_true, Bool.false_eq_true, if_false]
    omega

/-- **A stream ends.** No run is longer than two steps for each byte of the snapshot, and four. -/
theorem run_bounded {store : MvccStore} {data : Bytes} (taken : store.createSnapshot = .ok data)
    {events : List SnapshotEvent} {call : SnapshotSend}
    (runs : runFrom step (start store) events = some call) : events.length ≤ 2 * data.length + 2 := by
  have smaller : ∀ call event next, step call event = some next → next.size < call.size :=
    fun _ _ _ moves => size_lt moves
  have bound := run_length smaller runs
  have first : (start store).size = 2 * data.length + 2 := by
    simp only [size, start, taken]
    rfl
  omega

end SnapshotSend

/-! ### Backups -/

/-- The source and the restored store return the same to further calls and reads. Where the source has held
a key and has none, the restored index never held one, and takes inverted intervals until a put: then
this is about the calls and reads without such an interval. -/
def Resumes (source restored : MvccStore) (ops : List StoreOp) : Prop :=
  ((∃ key, (source.backend.get .kv key).isSome) ∨ source.keyIndex.held = false ∨ FillsFirst ops →
      ContinueAlike source.currentRevision ops source restored) ∧
    ((∀ op ∈ ops, op.Upright) → (answers ops source).1 = (answers ops restored).1 ∧
      ∀ start stop r limit countOnly, KeyIndex.ValidRange start stop →
        r ≤ 0 ∨ source.currentRevision ≤ r →
        (answers ops source).2.range start stop r limit countOnly =
          (answers ops restored).2.range start stop r limit countOnly)

/-- A snapshot that was taken restores on every store, which then answers like its source. -/
def Restores (source : MvccStore) (backup : Bytes) : Prop :=
  ∀ target, ∃ restored, (restoreSnapshot backup).run target = (.ok (), restored) ∧
    ∀ ops, (∀ op ∈ ops, StoreHistory.Short op) → source.currentRevision + ops.length < 2 ^ 63 →
      Resumes source restored ops

theorem StoreHistory.restores {h : StoreHistory} (allowed : h.Allowed) {data : Bytes}
    (taken : h.store.createSnapshot = .ok data) : Restores h.store data := by
  intro target
  have held := h.coherent allowed
  exact ⟨_, held.restoreSnapshot_run taken target, fun ops short room =>
    ⟨fun level => (held.restored_continueAlike_iff short room).mpr level,
      fun upright => held.alikeFrom_restored.continue_upright short upright room⟩⟩

/-- **A streamed backup restores the store.** Whatever the order of sends, receives and a disconnect: the
client holds the first chunks of the snapshot, its last one reports the bytes it lacks, and a backup that
lacks none, as one does when the stream has ended, restores the store. -/
theorem streamed_backup_restores (h : StoreHistory) (allowed : h.Allowed) (data : Bytes)
    (taken : h.store.createSnapshot = .ok data) (events : List SnapshotEvent) (call : SnapshotSend)
    (runs : runFrom SnapshotSend.step (.start h.store) events = some call) :
    events.length ≤ 2 * data.length + 2 ∧
    ∃ got, call.channel.received = got.map .ok ∧ blobs got <+: data ∧ Truthful data got ∧
      (call.receiving = true → call.step .send = none → call.step .recv = none →
        Restores h.store (blobs got)) ∧
      (∀ front last, got = front ++ [last] → last.remainingBytes = 0 → Restores h.store (blobs got)) := by
  refine ⟨SnapshotSend.run_bounded taken runs, ?_⟩
  obtain ⟨sent, offset, sending⟩ := Sending.sent_run taken runs
  obtain ⟨got, received, within⟩ := sending.received
  have truthful : Truthful data got := fun front last first => sending.truthful front last (first.trans within)
  have begins : blobs got <+: data := by
    obtain ⟨later, rfl⟩ := within
    have bytes := sending.bytes
    rw [blobs, List.flatMap_append] at bytes
    exact (List.prefix_append _ _).trans (bytes ▸ List.take_prefix _ _)
  have restores : blobs got = data → Restores h.store (blobs got) := by
    intro whole
    rw [whole]
    exact StoreHistory.restores allowed taken
  refine ⟨got, received, begins, truthful, fun receiving sends receives => restores ?_,
    fun front last ends reports => restores ?_⟩
  · obtain ⟨all, whole⟩ := sending.complete receiving sends receives
    rw [received] at all
    rw [List.map_injective_iff.mpr (fun _ _ same => Except.ok.inj same) all, whole]
  · have lacks := truthful front last (ends ▸ List.prefix_rfl)
    rw [← ends, reports] at lacks
    exact begins.eq_of_length lacks

/-- A client takes a backup of a store whose key was written twice: one chunk, and the end of the stream. -/
theorem written_twice_backed_up :
    ∃ data call, writtenTwice.store.createSnapshot = .ok data ∧
      runFrom SnapshotSend.step (.start writtenTwice.store) [.send, .recv, .send] = some call ∧
      ∃ got, call.channel.received = got.map .ok ∧ Restores writtenTwice.store (blobs got) := by
  have allowed : writtenTwice.Allowed := by
    simp only [writtenTwice, StoreHistory.Allowed, true_and]
    decide +kernel
  have snapped : writtenTwice.snapped = true := by decide +kernel
  obtain ⟨data, taken, -⟩ := StoreHistory.store_restored .fresh snapped
  have ended : (runFrom SnapshotSend.step (.start writtenTwice.store) [.send, .recv, .send]).any (fun call =>
      call.receiving && (call.step .send).isNone && (call.step .recv).isNone) = true := by decide +kernel
  obtain ⟨call, runs, ends⟩ := (Option.any_eq_true _ _).mp ended
  simp only [Bool.and_eq_true, Option.isNone_iff_eq_none] at ends
  obtain ⟨⟨receiving, sends⟩, receives⟩ := ends
  obtain ⟨-, got, received, -, -, complete, -⟩ :=
    streamed_backup_restores writtenTwice allowed data taken [.send, .recv, .send] call runs
  exact ⟨data, call, taken, runs, got, received, complete receiving sends receives⟩

end Rusd
