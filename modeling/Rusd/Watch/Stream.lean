/-
**What a watcher receives** (`watch/mod.rs`).

Notifications, the receives of every consumer, and watches that come and go, in any order. Seen from
one watcher this is a run of its channel (`watchers_run`): each notification that holds an event the
watcher wants is one send, each receive of its own is one receive, and nothing else touches it.

`received_when_room` follows from the channel: the watcher is told, in order, exactly the batches
that found room in its channel. `try_send` does not wait, and what it could not send is only logged,
so a batch that meets a full channel is missing while a later one can still arrive
(`full_channel_leaves_gap`).
-/

import Rusd.Watch.Hub

namespace Rusd

/-- A call on the hub, or a receive of a consumer. -/
inductive HubAction
  | notify (events : List Event) (revision compactRevision : Int)
  | receive (id : Int)
  | create (key rangeEnd : Bytes) (startRevision : Int) (filters : List WatchFilter) (capacity : Nat)
  | cancel (id : Int)
  deriving DecidableEq, Repr

namespace WatchHub

def apply (hub : WatchHub) : HubAction → WatchHub
  | .notify events revision compactRevision => hub.notify events revision compactRevision
  | .receive id => hub.receive id
  | .create key rangeEnd startRevision filters capacity =>
    match hub.createWatch key rangeEnd startRevision filters (.new capacity) with
    | .ok (_, hub') => hub'
    | .error _ => hub
  | .cancel id =>
    match hub.cancelWatch id with
    | .ok hub' => hub'
    | .error _ => hub

def run (hub : WatchHub) (actions : List HubAction) : WatchHub := actions.foldl apply hub

end WatchHub

namespace Watcher

/-- What an action means for the channel of a watcher. -/
def uses (w : Watcher) : HubAction → List (ChannelOp WatchEvent)
  | .notify events revision compactRevision => WatchHub.sends w events revision compactRevision
  | .receive id => if w.id = id then [.recv] else []
  | .create _ _ _ _ _ => []
  | .cancel _ => []

/-- The batches that the notifications hold for a watcher. -/
def batches (w : Watcher) (actions : List HubAction) : List WatchEvent :=
  Channel.sent (actions.flatMap w.uses)

end Watcher

def HubAction.events : HubAction → List Event
  | .notify events _ _ => events
  | _ => []

/-- The events of the notifications, one after another. -/
def notified (actions : List HubAction) : List Event := actions.flatMap HubAction.events

/-! ### One watcher -/

variable {hub : WatchHub} {id : Int} {w : Watcher}

/-- **One action, seen from a watcher that it does not cancel.** -/
theorem WatchHub.watchers_apply (found : hub.watchers id = some w) {action : HubAction}
    (kept : action ≠ .cancel id) :
    (hub.apply action).watchers id = some { w with channel := w.channel.run (w.uses action) } := by
  have named := (hub.active id w found).1
  cases action with
  | notify events revision compactRevision =>
    exact watchers_notify found events revision compactRevision
  | receive other =>
    rw [apply, watchers_receive found, Watcher.uses, named]
  | create key rangeEnd startRevision filters capacity =>
    rw [apply]
    cases created : hub.createWatch key rangeEnd startRevision filters (.new capacity) with
    | error e => exact found
    | ok result =>
      obtain ⟨watchId, hub'⟩ := result
      obtain ⟨fresh, watchers⟩ := watchers_createWatch created id
      have below := (hub.active id w found).2.2
      exact watchers.trans ((if_neg (by omega)).trans found)
  | cancel other =>
    rw [apply]
    cases canceled : hub.cancelWatch other with
    | error e => exact found
    | ok hub' =>
      exact (watchers_cancelWatch canceled id).trans
        ((if_neg fun same => kept (by rw [same])).trans found)

/-- **A run, seen from one watcher, is a run of its channel.** -/
theorem WatchHub.watchers_run {actions : List HubAction} (found : hub.watchers id = some w)
    (kept : HubAction.cancel id ∉ actions) :
    (hub.run actions).watchers id =
      some { w with channel := w.channel.run (actions.flatMap w.uses) } := by
  induction actions generalizing hub w with
  | nil => exact found
  | cons action rest ih =>
    rw [List.mem_cons, not_or] at kept
    have first := watchers_apply found fun same => kept.1 same.symm
    have next := ih first kept.2
    -- the channel is the only part of the watcher that moved
    rw [List.flatMap_cons, Channel.run, List.foldl_append]
    exact next

/-- The batches are the events the watcher wants, none of them empty. -/
theorem Watcher.flatMap_batches (w : Watcher) (actions : List HubAction) :
    (w.batches actions).flatMap WatchEvent.events = (notified actions).filter w.wants := by
  induction actions with
  | nil => rfl
  | cons action rest ih =>
    have split : w.batches (action :: rest) =
        Channel.sent (w.uses action) ++ w.batches rest := by
      rw [batches, List.flatMap_cons, Channel.sent, List.filterMap_append]
      rfl
    have more : notified (action :: rest) = action.events ++ notified rest := rfl
    rw [split, more, List.flatMap_append, ih, List.filter_append]
    congr 1
    cases action with
    | notify events revision compactRevision =>
      rw [uses, WatchHub.sends]
      split_ifs with quiet
      · exact quiet.symm
      · exact List.append_nil _
    | receive other =>
      rw [uses]
      split_ifs <;> rfl
    | create => rfl
    | cancel => rfl

/-- **A watcher is told exactly the batches that found room.** For every run of notifications,
receives, creations and cancellations of other watches, and every capacity: what has been delivered
to a watcher (received or still queued) grows by the batches of its matching events that found room
when they were sent, in order and each once. These are some of its batches; they are all of them if
and only if none met a full channel, and then what it has received is a beginning of the sequence of
its matching events. -/
theorem received_when_room (hub : WatchHub) (id : Int) (w : Watcher)
    (found : hub.watchers id = some w) (actions : List HubAction)
    (kept : HubAction.cancel id ∉ actions) :
    ∃ w', (hub.run actions).watchers id = some w' ∧
      w'.channel.stream =
        w.channel.stream ++ Channel.accepted w.channel (actions.flatMap w.uses) ∧
      (Channel.accepted w.channel (actions.flatMap w.uses)).Sublist (w.batches actions) ∧
      (w.batches actions).flatMap WatchEvent.events = (notified actions).filter w.wants ∧
      (Channel.accepted w.channel (actions.flatMap w.uses) = w.batches actions ↔
        Channel.NeverFull w.channel (actions.flatMap w.uses)) ∧
      (w.channel.stream = [] → Channel.NeverFull w.channel (actions.flatMap w.uses) →
        w'.channel.received.flatMap WatchEvent.events <+: (notified actions).filter w.wants) := by
  have after := WatchHub.watchers_run found kept
  have grown := Channel.stream_run (actions.flatMap w.uses) w.channel
  have complete := Channel.accepted_eq_sent_iff (actions.flatMap w.uses) w.channel
  refine ⟨_, after, grown, Channel.accepted_sublist _ _, w.flatMap_batches actions, complete,
    fun fresh never => ?_⟩
  rw [fresh, List.nil_append, complete.mpr never] at grown
  rw [← w.flatMap_batches actions]
  obtain ⟨queued, split⟩ :=
    Channel.received_prefix_stream (w.channel.run (actions.flatMap w.uses))
  refine ⟨queued.flatMap WatchEvent.events, ?_⟩
  rw [← List.flatMap_append, split, grown]
  rfl

/-! ### A slow consumer -/

/-- A put of a key at a revision. -/
def putOf (key : Bytes) (revision : Int) : Event :=
  ⟨.put, ⟨key, revision, revision, 1, [], 0⟩, none⟩

/-- A hub with one watcher of `a`, whose channel holds one batch. -/
def slowHub : WatchHub := WatchHub.new.apply (.create [97] [] 2 [] 1)

/-- Two notifications before the first receive, one after it. -/
def overrun : List HubAction :=
  [.notify [putOf [97] 2] 2 0, .notify [putOf [97] 3] 3 0, .receive 1, .notify [putOf [97] 4] 4 0,
    .receive 1]

/-- The watcher receives the puts at 2 and 4, and the one at 3 is missing: what it received is not a
beginning of its matching events. -/
theorem full_channel_leaves_gap :
    ∃ w w', slowHub.watchers 1 = some w ∧ w.channel.stream = [] ∧ HubAction.cancel 1 ∉ overrun ∧
      (slowHub.run overrun).watchers 1 = some w' ∧
      (notified overrun).filter w.wants = [putOf [97] 2, putOf [97] 3, putOf [97] 4] ∧
      w'.channel.received.flatMap WatchEvent.events = [putOf [97] 2, putOf [97] 4] ∧
      ¬ w'.channel.received.flatMap WatchEvent.events <+: (notified overrun).filter w.wants := by
  refine ⟨⟨1, [97], [], 2, [], .new 1, false⟩, _, rfl, rfl, by decide, rfl, by decide, by decide, ?_⟩
  decide

/-- The same consumer, receiving in time. -/
theorem receiving_in_time_no_gap :
    ∃ w', (slowHub.run [.notify [putOf [97] 2] 2 0, .receive 1, .notify [putOf [97] 3] 3 0,
        .receive 1]).watchers 1 = some w' ∧
      w'.channel.stream = [⟨1, [putOf [97] 2], 0, 2⟩, ⟨1, [putOf [97] 3], 0, 3⟩] ∧
      w'.channel.received.flatMap WatchEvent.events <+: [putOf [97] 2, putOf [97] 3] := by
  obtain ⟨w', after, grown, _, _, _, begins⟩ := received_when_room slowHub 1
    ⟨1, [97], [], 2, [], .new 1, false⟩ rfl
    [.notify [putOf [97] 2] 2 0, .receive 1, .notify [putOf [97] 3] 3 0, .receive 1] (by decide)
  exact ⟨w', after, grown, begins rfl ⟨rfl, rfl, trivial⟩⟩

end Rusd
