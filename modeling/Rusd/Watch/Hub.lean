/-
**The watch hub** (`watch/mod.rs`).

The hub keeps the watchers by id, and for each watched range the ids of its watchers. `notify` goes
through the events, through the ranges that contain the event's key and through the ids of each, and
collects one batch for each watcher; it then sends each batch without waiting, so a batch that meets
a full channel is dropped.

A `WatchHub` carries what its operations keep: the ranges are listed once each, every watcher is
registered once, under its own range, and nobody else is registered. The order in which the ranges
are visited is that of the list; by the invariant it makes no difference.

* `notifications_eq` — the batch of a watcher is the sublist of the events that it wants.
* `watchers_notify`, `watchers_receive`, `watchers_cancelWatch`, `watchers_createWatch` — what each
  operation does to one watcher.

The ids in the headers, and the flags of a watcher that `notify` does not read, are left out. The
counter for the ids does not wrap here.
-/

import Rusd.Lib.Channel
import Rusd.Lib.Bytes
import Rusd.Storage.KeyValue

namespace Rusd

/-! ### Ranges, events, watchers -/

/-- A key range that is watched. -/
structure WatchRange where
  key : Bytes
  rangeEnd : Bytes
  deriving DecidableEq, Repr

/-- Check if a key falls within the range. -/
def WatchRange.contains (range : WatchRange) (key : Bytes) : Bool :=
  if key < range.key then false
  else if range.rangeEnd = [] then key = range.key
  else if range.rangeEnd = [0] then true
  else key < range.rangeEnd

inductive WatchFilter
  | noDelete
  | noPut
  deriving DecidableEq, Repr

inductive EventType
  | put
  | delete
  deriving DecidableEq, Repr

structure Event where
  eventType : EventType
  kv : KeyValue
  prevKv : Option KeyValue
  deriving DecidableEq, Repr

/-- A batch of events for one watcher; `revision` is the one in the header. -/
structure WatchEvent where
  watchId : Int
  events : List Event
  compactRevision : Int
  revision : Int
  deriving DecidableEq, Repr

/-- An active watcher with the channel to its consumer. -/
structure Watcher where
  id : Int
  key : Bytes
  rangeEnd : Bytes
  startRevision : Int
  filters : List WatchFilter
  channel : Channel WatchEvent
  canceled : Bool
  deriving DecidableEq, Repr

namespace Watcher

def range (w : Watcher) : WatchRange := ⟨w.key, w.rangeEnd⟩

def shouldEmitPut (w : Watcher) : Bool := !w.filters.contains .noPut

def shouldEmitDelete (w : Watcher) : Bool := !w.filters.contains .noDelete

/-- The filters let the event through. -/
def passes (w : Watcher) : EventType → Bool
  | .put => w.shouldEmitPut
  | .delete => w.shouldEmitDelete

/-- The checks of `notify` on a watcher whose range contains the key of the event. -/
def accepts (w : Watcher) (event : Event) : Bool :=
  !w.canceled && w.passes event.eventType && !decide (event.kv.modRevision < w.startRevision)

/-- The events a watcher is to be told of. -/
def wants (w : Watcher) (event : Event) : Bool :=
  w.range.contains event.kv.key && w.accepts event

end Watcher

inductive WatchError
  | watchNotFound (id : Int)
  | invalidConfig (message : String)
  deriving DecidableEq, Repr

/-! ### The registrations -/

/-- The ranges under which an id is registered, once for each time. -/
def registrations (entries : List (WatchRange × List Int)) (id : Int) : List WatchRange :=
  entries.flatMap fun e => List.replicate (e.2.count id) e.1

/-- Append an id to the ids of a range. -/
def register (range : WatchRange) (id : Int) :
    List (WatchRange × List Int) → List (WatchRange × List Int)
  | [] => [(range, [id])]
  | e :: rest => if e.1 = range then (e.1, e.2 ++ [id]) :: rest else e :: register range id rest

/-- Remove an id from the ids of a range; a range without ids is dropped. -/
def unregister (range : WatchRange) (id : Int) :
    List (WatchRange × List Int) → List (WatchRange × List Int)
  | [] => []
  | e :: rest =>
    if e.1 = range then
      if (e.2.filter fun other => other ≠ id) = [] then rest
      else (e.1, e.2.filter fun other => other ≠ id) :: rest
    else e :: unregister range id rest

theorem registrations_cons (e : WatchRange × List Int) (rest : List (WatchRange × List Int))
    (id : Int) :
    registrations (e :: rest) id = List.replicate (e.2.count id) e.1 ++ registrations rest id := rfl

theorem registrations_register_ne {range : WatchRange} {id other : Int} (apart : other ≠ id)
    (entries : List (WatchRange × List Int)) :
    registrations (register range id entries) other = registrations entries other := by
  induction entries with
  | nil =>
    rw [register, registrations_cons, List.count_eq_zero_of_not_mem (by simpa using apart)]
    rfl
  | cons e rest ih =>
    rw [register]
    split_ifs with same
    · rw [registrations_cons, registrations_cons, List.count_append,
        List.count_eq_zero_of_not_mem (a := other) (l := [id]) (by simpa using apart), Nat.add_zero]
    · rw [registrations_cons, registrations_cons, ih]

theorem registrations_register {range : WatchRange} {id : Int}
    {entries : List (WatchRange × List Int)} (fresh : registrations entries id = []) :
    registrations (register range id entries) id = [range] := by
  induction entries with
  | nil => simp [register, registrations]
  | cons e rest ih =>
    rw [registrations_cons, List.append_eq_nil_iff] at fresh
    rw [register]
    split_ifs with same
    · rw [registrations_cons, fresh.2, List.append_nil, List.count_append, List.replicate_add,
        fresh.1, List.nil_append, same]
      simp
    · rw [registrations_cons, fresh.1, ih fresh.2, List.nil_append]

theorem fst_register {range : WatchRange} {id : Int} (entries : List (WatchRange × List Int)) :
    (register range id entries).map Prod.fst =
      if range ∈ entries.map Prod.fst then entries.map Prod.fst
      else entries.map Prod.fst ++ [range] := by
  induction entries with
  | nil => rfl
  | cons e rest ih =>
    rw [register]
    by_cases same : e.1 = range
    · rw [if_pos same, if_pos (by simp [same])]
      rfl
    · rw [if_neg same, List.map_cons, ih]
      by_cases listed : range ∈ rest.map Prod.fst
      · rw [if_pos listed, if_pos (by rw [List.map_cons]; exact List.mem_cons_of_mem _ listed),
          List.map_cons]
      · rw [if_neg listed, if_neg, List.map_cons, List.cons_append]
        rw [List.map_cons, List.mem_cons]
        exact not_or.mpr ⟨fun equal => same equal.symm, listed⟩

theorem nodup_register {range : WatchRange} {id : Int} {entries : List (WatchRange × List Int)}
    (nodup : (entries.map Prod.fst).Nodup) :
    ((register range id entries).map Prod.fst).Nodup := by
  rw [fst_register]
  split_ifs with listed
  · exact nodup
  · exact List.nodup_append.mpr ⟨nodup, List.nodup_singleton _, by
      intro a member b single equal
      rw [List.mem_singleton.mp single] at equal
      exact listed (equal ▸ member)⟩

theorem registrations_unregister_ne {range : WatchRange} {id other : Int} (apart : other ≠ id)
    (entries : List (WatchRange × List Int)) :
    registrations (unregister range id entries) other = registrations entries other := by
  induction entries with
  | nil => rfl
  | cons e rest ih =>
    have kept : (e.2.filter fun i => i ≠ id).count other = e.2.count other :=
      List.count_filter (by simpa using apart)
    rw [unregister, registrations_cons]
    split_ifs with same empty
    · rw [← kept, empty]
      rfl
    · rw [registrations_cons, kept]
    · rw [registrations_cons, ih]

theorem fst_unregister_sublist {range : WatchRange} {id : Int}
    (entries : List (WatchRange × List Int)) :
    ((unregister range id entries).map Prod.fst).Sublist (entries.map Prod.fst) := by
  induction entries with
  | nil => exact List.Sublist.refl _
  | cons e rest ih =>
    rw [unregister]
    split_ifs
    · exact List.sublist_cons_self _ _
    · exact List.Sublist.refl _
    · exact ih.cons_cons _

/-- A range that is not listed has nobody registered under it. -/
theorem not_mem_registrations {range : WatchRange} {entries : List (WatchRange × List Int)}
    (unlisted : range ∉ entries.map Prod.fst) (id : Int) : range ∉ registrations entries id := by
  intro member
  obtain ⟨e, listed, replicated⟩ := List.mem_flatMap.mp member
  rw [(List.mem_replicate.mp replicated).2] at unlisted
  exact unlisted (List.mem_map_of_mem listed)

theorem registrations_unregister {range : WatchRange} {id : Int}
    {entries : List (WatchRange × List Int)} (nodup : (entries.map Prod.fst).Nodup) :
    registrations (unregister range id entries) id =
      (registrations entries id).filter fun other => other ≠ range := by
  induction entries with
  | nil => rfl
  | cons e rest ih =>
    rw [List.map_cons, List.nodup_cons] at nodup
    have gone : (e.2.filter fun i => i ≠ id).count id = 0 :=
      List.count_eq_zero_of_not_mem (by simp)
    rw [unregister, registrations_cons, List.filter_append]
    by_cases same : e.1 = range
    · have others : (registrations rest id).filter (fun other => other ≠ range) =
          registrations rest id := by
        refine List.filter_eq_self.mpr fun other member => ?_
        have unlisted := not_mem_registrations (same ▸ nodup.1) id
        exact decide_eq_true fun equal => unlisted (equal ▸ member)
      have mine : (List.replicate (e.2.count id) e.1).filter (fun other => other ≠ range) = [] := by
        refine List.filter_eq_nil_iff.mpr fun other member => ?_
        rw [(List.mem_replicate.mp member).2]
        simpa using same
      rw [if_pos same, mine, others, List.nil_append]
      split_ifs
      · rfl
      · rw [registrations_cons, gone]
        rfl
    · have mine : (List.replicate (e.2.count id) e.1).filter (fun other => other ≠ range) =
          List.replicate (e.2.count id) e.1 := by
        refine List.filter_eq_self.mpr fun other member => ?_
        rw [(List.mem_replicate.mp member).2]
        simpa using same
      rw [if_neg same, registrations_cons, ih nodup.2, mine]

/-! ### The hub -/

/-- The watch hub. -/
structure WatchHub where
  watchers : Int → Option Watcher
  nextWatchId : Int
  keyWatchers : List (WatchRange × List Int)
  ranges : (keyWatchers.map Prod.fst).Nodup
  /-- Every watcher is registered once, under its range; nobody else is. -/
  registered : ∀ id, registrations keyWatchers id = (watchers id).toList.map Watcher.range
  /-- A watcher that is canceled has left the map. -/
  active : ∀ id w, watchers id = some w → w.id = id ∧ w.canceled = false ∧ id < nextWatchId

namespace WatchHub

def new : WatchHub where
  watchers _ := none
  nextWatchId := 1
  keyWatchers := []
  ranges := List.nodup_nil
  registered _ := rfl
  active _ _ found := by cases found

/-- Create a watch, returning its id. -/
def createWatch (hub : WatchHub) (key rangeEnd : Bytes) (startRevision : Int)
    (filters : List WatchFilter) (channel : Channel WatchEvent) :
    Except WatchError (Int × WatchHub) :=
  if key = [] then .error (.invalidConfig "Watch key cannot be empty")
  else
    let watchId := hub.nextWatchId
    let watcher : Watcher := ⟨watchId, key, rangeEnd, startRevision, filters, channel, false⟩
    .ok (watchId,
      { watchers := fun id => if id = watchId then some watcher else hub.watchers id
        nextWatchId := watchId + 1
        keyWatchers := register ⟨key, rangeEnd⟩ watchId hub.keyWatchers
        ranges := nodup_register hub.ranges
        registered := by
          intro id
          split_ifs with same
          · have absent : hub.watchers watchId = none := by
              by_contra present
              obtain ⟨w, found⟩ := Option.ne_none_iff_exists'.mp present
              exact absurd (hub.active _ _ found).2.2 (lt_irrefl _)
            rw [same]
            exact registrations_register (by rw [hub.registered, absent]; rfl)
          · rw [registrations_register_ne same, hub.registered]
        active := by
          intro id w found
          split_ifs at found with same
          · cases found
            exact ⟨same.symm, rfl, by omega⟩
          · obtain ⟨named, open_, below⟩ := hub.active id w found
            exact ⟨named, open_, by omega⟩ })

/-- Cancel a watch: the watcher leaves the map and its range. -/
def cancelWatch (hub : WatchHub) (watchId : Int) : Except WatchError WatchHub :=
  match removed : hub.watchers watchId with
  | none => .error (.watchNotFound watchId)
  | some watcher => .ok
      { watchers := fun id => if id = watchId then none else hub.watchers id
        nextWatchId := hub.nextWatchId
        keyWatchers := unregister watcher.range watchId hub.keyWatchers
        ranges := hub.ranges.sublist (fst_unregister_sublist _)
        registered := by
          intro id
          split_ifs with same
          · rw [same, registrations_unregister hub.ranges, hub.registered, removed]
            simp
          · rw [registrations_unregister_ne same, hub.registered]
        active := by
          intro id w found
          split_ifs at found with same
          exact hub.active id w found }

/-- Replace the channels of the watchers. -/
def mapChannels (hub : WatchHub) (f : Int → Watcher → Channel WatchEvent) : WatchHub where
  watchers id := (hub.watchers id).map fun w => { w with channel := f id w }
  nextWatchId := hub.nextWatchId
  keyWatchers := hub.keyWatchers
  ranges := hub.ranges
  registered id := by
    rw [hub.registered]
    cases hub.watchers id <;> rfl
  active id w found := by
    obtain ⟨old, was, rfl⟩ := Option.map_eq_some_iff.mp found
    exact hub.active id old was

/-- The consumer of a watcher takes a batch. -/
def receive (hub : WatchHub) (id : Int) : WatchHub :=
  hub.mapChannels fun other w => if other = id then w.channel.recv else w.channel

/-! ### Notification -/

/-- The innermost loop of `notify`: one event, one id. -/
def notifyId (hub : WatchHub) (event : Event) (batches : Int → List Event) (id : Int) :
    Int → List Event :=
  match hub.watchers id with
  | some w => if w.accepts event then Function.update batches id (batches id ++ [event]) else batches
  | none => batches

/-- One event, one range. -/
def notifyRange (hub : WatchHub) (event : Event) (batches : Int → List Event)
    (entry : WatchRange × List Int) : Int → List Event :=
  if entry.1.contains event.kv.key then entry.2.foldl (hub.notifyId event) batches else batches

/-- One event. -/
def notifyEvent (hub : WatchHub) (batches : Int → List Event) (event : Event) : Int → List Event :=
  hub.keyWatchers.foldl (hub.notifyRange event) batches

/-- The batches; an id without one has an empty list. -/
def notifications (hub : WatchHub) (events : List Event) : Int → List Event :=
  events.foldl hub.notifyEvent fun _ => []

/-- Notify all matching watchers of events. -/
def notify (hub : WatchHub) (events : List Event) (revision compactRevision : Int) : WatchHub :=
  if events = [] then hub
  else hub.mapChannels fun id w =>
    let batch := hub.notifications events id
    if batch = [] then w.channel else w.channel.trySend ⟨id, batch, compactRevision, revision⟩

variable {hub : WatchHub}

theorem notifyIds_apply (event : Event) (id : Int) (ids : List Int) (batches : Int → List Event) :
    ids.foldl (hub.notifyId event) batches id =
      batches id ++ match hub.watchers id with
        | some w => if w.accepts event then List.replicate (ids.count id) event else []
        | none => [] := by
  induction ids generalizing batches with
  | nil => cases hub.watchers id <;> simp
  | cons first rest ih =>
    rw [List.foldl_cons, ih]
    by_cases same : first = id
    · subst same
      rw [List.count_cons_self]
      cases found : hub.watchers first with
      | none => simp [notifyId, found]
      | some w =>
        cases accepted : w.accepts event with
        | false => simp [notifyId, found, accepted]
        | true =>
          simp only [notifyId, found, accepted, if_true, Function.update_self, List.replicate_succ,
            List.append_assoc, List.singleton_append]
    · have frame : hub.notifyId event batches first id = batches id := by
        unfold notifyId
        cases hub.watchers first with
        | none => rfl
        | some w =>
          simp only
          split_ifs
          · exact Function.update_of_ne (fun equal => same equal.symm) _ _
          · rfl
      rw [frame, List.count_cons_of_ne same]

theorem notifyRanges_apply (event : Event) (id : Int) (entries : List (WatchRange × List Int))
    (batches : Int → List Event) :
    entries.foldl (hub.notifyRange event) batches id =
      batches id ++ ((registrations entries id).filter fun range => range.contains event.kv.key).flatMap
        fun _ => match hub.watchers id with
          | some w => if w.accepts event then [event] else []
          | none => [] := by
  induction entries generalizing batches with
  | nil => simp [registrations]
  | cons e rest ih =>
    rw [List.foldl_cons, ih, registrations_cons, List.filter_append, List.flatMap_append,
      ← List.append_assoc]
    congr 1
    unfold notifyRange
    by_cases inside : e.1.contains event.kv.key = true
    · rw [if_pos inside, notifyIds_apply,
        List.filter_eq_self.mpr fun range member => by rw [(List.mem_replicate.mp member).2, inside]]
      congr 1
      cases hub.watchers id with
      | none => simp
      | some w => by_cases accepted : w.accepts event = true <;> simp [accepted, List.flatMap_replicate]
    · rw [if_neg inside, List.filter_eq_nil_iff.mpr fun range member => by
        rw [(List.mem_replicate.mp member).2]; exact inside, List.flatMap_nil, List.append_nil]

/-- One event reaches a watcher once, if the watcher wants it. -/
theorem notifyEvent_apply {id : Int} {w : Watcher} (found : hub.watchers id = some w)
    (batches : Int → List Event) (event : Event) :
    hub.notifyEvent batches event id = batches id ++ if w.wants event then [event] else [] := by
  rw [notifyEvent, notifyRanges_apply, hub.registered, found]
  simp only [Option.toList_some, List.map_cons, List.map_nil, Watcher.wants]
  by_cases inside : w.range.contains event.kv.key = true <;>
    by_cases accepted : w.accepts event = true <;> simp [inside, accepted]

/-- **The batch of a watcher**: the events it wants, in their order. -/
theorem notifications_eq {id : Int} {w : Watcher} (found : hub.watchers id = some w)
    (events : List Event) : hub.notifications events id = events.filter w.wants := by
  have general : ∀ batches : Int → List Event,
      events.foldl hub.notifyEvent batches id = batches id ++ events.filter w.wants := by
    induction events with
    | nil => exact fun batches => (List.append_nil _).symm
    | cons event rest ih =>
      intro batches
      rw [List.foldl_cons, ih, notifyEvent_apply found, List.append_assoc, List.filter_cons]
      split_ifs <;> rfl
  exact general fun _ => []

/-! ### What an operation does to one watcher -/

/-- The uses of its channel that a notification makes. -/
def sends (w : Watcher) (events : List Event) (revision compactRevision : Int) :
    List (ChannelOp WatchEvent) :=
  if events.filter w.wants = [] then []
  else [.send ⟨w.id, events.filter w.wants, compactRevision, revision⟩]

theorem watchers_notify {id : Int} {w : Watcher} (found : hub.watchers id = some w)
    (events : List Event) (revision compactRevision : Int) :
    (hub.notify events revision compactRevision).watchers id =
      some { w with channel := w.channel.run (sends w events revision compactRevision) } := by
  unfold notify sends
  split_ifs with none quiet quiet
  · exact found
  · rw [none] at quiet
    exact absurd rfl quiet
  · simp only [mapChannels, found, Option.map_some, notifications_eq found, quiet, if_true]
    rfl
  · simp only [mapChannels, found, Option.map_some, notifications_eq found, if_neg quiet,
      (hub.active id w found).1]
    rfl

theorem watchers_receive {id other : Int} {w : Watcher} (found : hub.watchers id = some w) :
    (hub.receive other).watchers id =
      some { w with channel := w.channel.run (if id = other then [.recv] else []) } := by
  unfold receive
  simp only [mapChannels, found, Option.map_some]
  split_ifs <;> rfl

theorem watchers_createWatch {hub' : WatchHub} {key rangeEnd : Bytes} {startRevision : Int}
    {filters : List WatchFilter} {channel : Channel WatchEvent} {watchId : Int}
    (created : hub.createWatch key rangeEnd startRevision filters channel = .ok (watchId, hub'))
    (id : Int) :
    watchId = hub.nextWatchId ∧ hub'.watchers id = if id = watchId then
      some ⟨watchId, key, rangeEnd, startRevision, filters, channel, false⟩ else hub.watchers id := by
  unfold createWatch at created
  split_ifs at created with empty
  cases created
  exact ⟨rfl, rfl⟩

theorem watchers_cancelWatch {hub' : WatchHub} {watchId : Int}
    (canceled : hub.cancelWatch watchId = .ok hub') (id : Int) :
    hub'.watchers id = if id = watchId then none else hub.watchers id := by
  unfold cancelWatch at canceled
  split at canceled
  · cases canceled
  · cases canceled
    rfl

end WatchHub

end Rusd
