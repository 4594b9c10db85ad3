/-
**Who receives a notification** (`watch/mod.rs`).

A `HubSession` is the hub together with the watchers that were canceled: their consumers still hold
the receiving ends of the channels, so a batch that was sent to one of them would be seen. `deliver`
is the second loop of `notify` for one id: the watcher is looked up again, and only a watcher that is
still in the map is sent its batch.

* `Departed.run` — in every run of calls a canceled id has left the map, and it is never given out
  again;
* `notify_delivers` — from every state of such a run, a notification tells each registered watcher
  with room in its channel exactly the events it asks for, in one batch or in none, and a canceled
  watcher nothing.
-/

import Rusd.Watch.Stream

namespace Rusd

namespace WatchHub

variable {hub : WatchHub}

/-! ### One id of a notification -/

/-- The sending loop of `notify` for one id. -/
def deliver (hub : WatchHub) (events : List Event) (revision compactRevision : Int) (id : Int)
    (channel : Channel WatchEvent) : Channel WatchEvent :=
  let batch := hub.notifications events id
  if batch = [] then channel
  else match hub.watchers id with
    | some _ => channel.trySend ⟨id, batch, compactRevision, revision⟩
    | none => channel

/-- `notify` delivers to the channel of every registered watcher. -/
theorem watchers_notify_deliver {id : Int} {w : Watcher} (found : hub.watchers id = some w)
    (events : List Event) (revision compactRevision : Int) :
    (hub.notify events revision compactRevision).watchers id =
      some { w with channel := hub.deliver events revision compactRevision id w.channel } := by
  rw [watchers_notify found, deliver, sends, notifications_eq found, found,
    (hub.active id w found).1]
  simp only
  split_ifs <;> rfl

/-- An id that is not in the map is sent nothing. -/
theorem deliver_of_none {id : Int} (absent : hub.watchers id = none) (events : List Event)
    (revision compactRevision : Int) (channel : Channel WatchEvent) :
    hub.deliver events revision compactRevision id channel = channel := by
  unfold deliver
  rw [absent]
  exact ite_self _

/-- No batch is collected for an id that is not in the map. -/
theorem notifications_of_none {id : Int} (absent : hub.watchers id = none) (events : List Event) :
    hub.notifications events id = [] := by
  have general : ∀ batches : Int → List Event,
      events.foldl hub.notifyEvent batches id = batches id := by
    induction events with
    | nil => exact fun _ => rfl
    | cons event rest ih =>
      intro batches
      rw [List.foldl_cons, ih, notifyEvent, notifyRanges_apply, hub.registered, absent]
      exact List.append_nil _
  exact general fun _ => []

end WatchHub

/-- The events a watcher asks for: in its range, let through by its filters, and not before the
revision it starts at. -/
def Watcher.asksFor (w : Watcher) (event : Event) : Bool :=
  w.range.contains event.kv.key && w.passes event.eventType &&
    decide (w.startRevision ≤ event.kv.modRevision)

/-- A watcher that is not canceled wants what it asks for. -/
theorem Watcher.wants_eq_asksFor {w : Watcher} (running : w.canceled = false) :
    w.wants = w.asksFor := by
  funext event
  have order : (!decide (event.kv.modRevision < w.startRevision)) =
      decide (w.startRevision ≤ event.kv.modRevision) := by
    rw [← decide_not, decide_eq_decide, not_lt]
  simp only [wants, accepts, asksFor, running, Bool.not_false, Bool.true_and, order, Bool.and_assoc]

/-! ### The hub and the canceled watchers -/

/-- The hub, and the watchers that were canceled, with the channels their consumers still hold. -/
structure HubSession where
  hub : WatchHub
  canceled : List Watcher

namespace HubSession

def new : HubSession := ⟨.new, []⟩

/-- Replace the channels of the canceled watchers. -/
def mapCanceled (s : HubSession) (f : Watcher → Channel WatchEvent) : List Watcher :=
  s.canceled.map fun w => { w with channel := f w }

/-- A call, or a receive of a consumer. -/
def apply (s : HubSession) (action : HubAction) : HubSession :=
  { hub := s.hub.apply action
    canceled :=
      match action with
      | .notify events revision compactRevision =>
        if events = [] then s.canceled
        else s.mapCanceled fun w => s.hub.deliver events revision compactRevision w.id w.channel
      | .receive id => s.mapCanceled fun w => if w.id = id then w.channel.recv else w.channel
      | .create _ _ _ _ _ => s.canceled
      | .cancel id =>
        match s.hub.watchers id with
        | some w => { w with canceled := true } :: s.canceled
        | none => s.canceled }

def run (s : HubSession) (actions : List HubAction) : HubSession := actions.foldl apply s

/-- A canceled watcher has left the map, and its id will not be given out again. -/
def Departed (s : HubSession) : Prop :=
  ∀ w ∈ s.canceled, w.canceled = true ∧ s.hub.watchers w.id = none ∧ w.id < s.hub.nextWatchId

variable {s : HubSession}

theorem mem_mapCanceled {f : Watcher → Channel WatchEvent} {w : Watcher}
    (member : w ∈ s.mapCanceled f) : ∃ old ∈ s.canceled, w = { old with channel := f old } := by
  obtain ⟨old, was, rfl⟩ := List.mem_map.mp member
  exact ⟨old, was, rfl⟩

theorem nextWatchId_cancelWatch {hub hub' : WatchHub} {id : Int}
    (canceled : hub.cancelWatch id = .ok hub') : hub'.nextWatchId = hub.nextWatchId := by
  unfold WatchHub.cancelWatch at canceled
  split at canceled
  · cases canceled
  · cases canceled
    rfl

theorem cancelWatch_of_some {hub : WatchHub} {id : Int} {w : Watcher}
    (found : hub.watchers id = some w) : ∃ hub', hub.cancelWatch id = .ok hub' := by
  unfold WatchHub.cancelWatch
  split
  · rename_i absent
    rw [found] at absent
    cases absent
  · exact ⟨_, rfl⟩

/-- An id that left the map stays out of it, and the counter does not go back. -/
theorem absent_apply {hub : WatchHub} {id : Int} (absent : hub.watchers id = none)
    (below : id < hub.nextWatchId) (action : HubAction) :
    (hub.apply action).watchers id = none ∧ id < (hub.apply action).nextWatchId := by
  cases action with
  | notify events revision compactRevision =>
    rw [WatchHub.apply, WatchHub.notify]
    split_ifs
    · exact ⟨absent, below⟩
    · exact ⟨by simp only [WatchHub.mapChannels, absent, Option.map_none], below⟩
  | receive other =>
    exact ⟨by simp only [WatchHub.apply, WatchHub.receive, WatchHub.mapChannels, absent,
      Option.map_none], below⟩
  | create key rangeEnd startRevision filters capacity =>
    rw [WatchHub.apply, WatchHub.createWatch]
    split_ifs with empty
    · exact ⟨absent, below⟩
    · exact ⟨(if_neg (by omega)).trans absent, by show id < hub.nextWatchId + 1; omega⟩
  | cancel other =>
    rw [WatchHub.apply]
    cases canceled : hub.cancelWatch other with
    | error e => exact ⟨absent, below⟩
    | ok hub' =>
      refine ⟨?_, by rw [nextWatchId_cancelWatch canceled]; exact below⟩
      rw [WatchHub.watchers_cancelWatch canceled]
      split_ifs
      · rfl
      · exact absent

/-- **One call.** -/
theorem Departed.apply (departed : s.Departed) (action : HubAction) : (s.apply action).Departed := by
  -- who was canceled before is canceled after, with another channel at most
  have kept : ∀ old ∈ s.canceled, ∀ channel : Channel WatchEvent,
      ({ old with channel := channel } : Watcher).canceled = true ∧
        (s.hub.apply action).watchers old.id = none ∧ old.id < (s.hub.apply action).nextWatchId := by
    intro old was channel
    obtain ⟨canceled, absent, below⟩ := departed old was
    exact ⟨canceled, absent_apply absent below action⟩
  intro w member
  cases action with
  | notify events revision compactRevision =>
    simp only [HubSession.apply] at member
    split_ifs at member
    · exact kept w member w.channel
    · obtain ⟨old, was, rfl⟩ := mem_mapCanceled member
      exact kept old was _
  | receive id =>
    obtain ⟨old, was, rfl⟩ := mem_mapCanceled member
    exact kept old was _
  | create key rangeEnd startRevision filters capacity => exact kept w member w.channel
  | cancel id =>
    simp only [HubSession.apply] at member
    cases found : s.hub.watchers id with
    | none =>
      rw [found] at member
      exact kept w member w.channel
    | some old =>
      rw [found] at member
      rcases List.mem_cons.mp member with rfl | was
      · obtain ⟨named, -, below⟩ := s.hub.active id old found
        obtain ⟨hub', canceled⟩ := cancelWatch_of_some found
        simp only [HubSession.apply, WatchHub.apply, canceled]
        refine ⟨trivial, ?_, ?_⟩
        · rw [WatchHub.watchers_cancelWatch canceled, if_pos named]
        · rw [nextWatchId_cancelWatch canceled, named]
          exact below
      · exact kept w was w.channel

/-- **Every run of calls.** -/
theorem Departed.run (departed : s.Departed) (actions : List HubAction) :
    (s.run actions).Departed := by
  induction actions generalizing s with
  | nil => exact departed
  | cons action rest ih => exact ih (departed.apply action)

/-- A canceled watcher is sent nothing. -/
theorem Departed.canceled_notify (departed : s.Departed) (events : List Event)
    (revision compactRevision : Int) :
    (s.apply (.notify events revision compactRevision)).canceled = s.canceled := by
  simp only [HubSession.apply]
  split_ifs
  · rfl
  · refine (List.map_congr_left fun w member => ?_).trans (List.map_id _)
    simp only [WatchHub.deliver_of_none (departed w member).2.1, id]

end HubSession

/-! ### Notifications in a run -/

/-- **Notify delivers exactly the matching events.** In every state reached by creations and
cancellations of watches, with notifications and receives in between: a watcher in the map that has
room in its channel is told the events it asks for, in their order and in one batch, or nothing if it
asks for none; and no batch is collected for a canceled watcher, nor does its channel change. -/
theorem notify_delivers (actions : List HubAction) (events : List Event)
    (revision compactRevision : Int) :
    let s := HubSession.new.run actions
    let after := s.apply (.notify events revision compactRevision)
    (∀ id w, s.hub.watchers id = some w → w.channel.full = false →
      ∃ w', after.hub.watchers id = some w' ∧
        w'.channel.stream = w.channel.stream ++
          if events.filter w.asksFor = [] then []
          else [⟨id, events.filter w.asksFor, compactRevision, revision⟩]) ∧
    (∀ w ∈ s.canceled, s.hub.watchers w.id = none ∧ s.hub.notifications events w.id = []) ∧
    after.canceled = s.canceled := by
  intro s after
  have departed : s.Departed := HubSession.Departed.run (fun w member => by cases member) actions
  refine ⟨fun id w found room => ?_, fun w member => ?_, departed.canceled_notify _ _ _⟩
  · refine ⟨_, WatchHub.watchers_notify_deliver found events revision compactRevision, ?_⟩
    have wanted := WatchHub.notifications_eq found events
    rw [Watcher.wants_eq_asksFor (s.hub.active id w found).2.1] at wanted
    simp only [WatchHub.deliver, wanted, found]
    split_ifs with quiet
    · exact (List.append_nil _).symm
    · exact Channel.stream_trySend room _
  · have absent := (departed w member).2.1
    exact ⟨absent, WatchHub.notifications_of_none absent events⟩

/-- Two watches of one range and one that is canceled; the second is told of one event out of three. -/
theorem notify_delivers_two_watches :
    let actions : List HubAction := [.create [97] [99] 1 [.noPut] 4, .create [97] [99] 3 [] 4,
      .create [98] [] 1 [] 4, .cancel 3]
    let s := HubSession.new.run actions
    let after := s.apply (.notify [putOf [97] 2, putOf [98] 3, putOf [99] 4] 4 0)
    (∃ w, after.hub.watchers 1 = some w ∧ w.channel.stream = []) ∧
      (∃ w, after.hub.watchers 2 = some w ∧
        w.channel.stream = [⟨2, [putOf [98] 3], 0, 4⟩]) ∧
      after.canceled.map (fun w => (w.id, w.channel.stream)) = [(3, [])] := by
  intro actions s after
  obtain ⟨told, -, untold⟩ := notify_delivers actions [putOf [97] 2, putOf [98] 3, putOf [99] 4] 4 0
  obtain ⟨first, found, stream⟩ := told 1 ⟨1, [97], [99], 1, [.noPut], .new 4, false⟩ rfl rfl
  obtain ⟨second, found', stream'⟩ := told 2 ⟨2, [97], [99], 3, [], .new 4, false⟩ rfl rfl
  refine ⟨⟨first, found, stream.trans (by decide)⟩, ⟨second, found', stream'.trans (by decide)⟩, ?_⟩
  have same : after.canceled = s.canceled := untold
  rw [same]
  decide

end Rusd
