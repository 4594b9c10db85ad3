/-
**A watch from a past revision** (`api/watch_service.rs`, `server/mod.rs`, `api/lease_service.rs`).

All the writes of a node with the notifications each path makes of them, and watches that are
created, canceled and received from in between.

* `Write.perform` — a write and its notifications. `KvService` puts the deleted record into the event
  of a deletion as it was; the apply loop and the end of a lease put the revision of the deletion
  into it.
* `stream_run` — with room in its channel, a watcher is sent every event notified since its creation
  that it wants.
* `Tracks` — the events sent against the changes that were made, one write at a time.
* `catch_up_complete` — `create` registers the watcher and reads nothing of the past, so the stream
  of a watch from revision `s` is complete exactly when no change it covers lies before its creation
  and none after it is a deletion by `KvService`.
-/

import Rusd.Lib.Machine
import Rusd.Watch.Service
import Rusd.Watch.Stream

namespace Rusd

/-! ### Writes and their events -/

/-- Who deletes: the handlers of `KvService`, the apply loop of a follower, or the end of a lease. -/
inductive DeletePath
  | service
  | replica
  | lease
  deriving DecidableEq, Repr

/-- A write; the puts of all paths notify alike. -/
inductive Write
  | put (key value : Bytes) (lease : Int)
  | delete (path : DeletePath) (start stop : Bytes)
  deriving DecidableEq, Repr

/-- The deleted record with the revision of its deletion. -/
def deletedAt (revision : Int) (kv : KeyValue) : KeyValue :=
  { kv with modRevision := revision, value := [], lease := 0 }

namespace DeletePath

/-- The event of a deletion. -/
def event (revision : Int) (kv : KeyValue) : DeletePath → Event
  | .service => deleteEvent kv
  | .replica => ⟨.delete, deletedAt revision kv, some kv⟩
  | .lease => ⟨.delete, deletedAt revision kv, none⟩

/-- The notifications of a deletion: one for all keys, or one for each. -/
def notifications (revision : Int) (deleted : List KeyValue) : DeletePath → List HubAction
  | .service =>
    if deleted = [] then [] else [.notify (deleted.map fun kv => event revision kv .service) revision 0]
  | .replica =>
    if deleted = [] then [] else [.notify (deleted.map fun kv => event revision kv .replica) revision 0]
  | .lease => deleted.map fun kv => .notify [event revision kv .lease] revision 0

end DeletePath

/-- A change of a key, as an event is to report it. -/
structure Change where
  eventType : EventType
  key : Bytes
  revision : Int
  deriving DecidableEq, Repr

/-- What an event reports. -/
def Event.change (event : Event) : Change := ⟨event.eventType, event.kv.key, event.kv.modRevision⟩

namespace Write

/-- The store after a write, and its notifications. -/
def perform (s : MvccStore) : Write → MvccStore × List HubAction
  | .put key value lease =>
    match (MvccStore.put key value lease).run s with
    | (.ok (revision, kv, oldKv), s') => (s', [.notify [putEvent kv oldKv] revision 0])
    | (.err _, s') => (s', [])
    | (.panic, s') => (s', [])
  | .delete path start stop =>
    match (MvccStore.deleteRange start stop).run s with
    | (.ok (revision, deleted), s') => (s', path.notifications revision deleted)
    | (.err _, s') => (s', [])
    | (.panic, s') => (s', [])

/-- The changes a write makes. -/
def changes (s : MvccStore) : Write → List Change
  | .put key value lease =>
    match ((MvccStore.put key value lease).run s).1 with
    | .ok (revision, _, _) => [⟨.put, key, revision⟩]
    | _ => []
  | .delete _ start stop =>
    match ((MvccStore.deleteRange start stop).run s).1 with
    | .ok (revision, deleted) => deleted.map fun kv => ⟨.delete, kv.key, revision⟩
    | _ => []

/-- Those among them that are deletions by `KvService`. -/
def serviceDeletions (s : MvccStore) : Write → List Change
  | .delete .service start stop => changes s (.delete .service start stop)
  | _ => []

end Write

/-! ### The node -/

/-- The fields of a create request that decide what is sent; a filter is a protobuf number. -/
structure WatchCreateRequest where
  key : Bytes
  rangeEnd : Bytes
  startRevision : Int
  filters : List Int
  deriving DecidableEq, Repr

namespace WatchCreateRequest

/-- Parse the filters; an unknown number is dropped. -/
def parseFilters (request : WatchCreateRequest) : List WatchFilter :=
  request.filters.filterMap fun f =>
    if f = 0 then some .noPut else if f = 1 then some .noDelete else none

/-- The create branch of `WatchService::watch`: the registration with the hub. -/
def register (request : WatchCreateRequest) (s : MvccStore) : List HubAction :=
  if request.key = [] then []
  else [.create request.key request.rangeEnd
    (if request.startRevision > 0 then request.startRevision else s.currentRevision + 1)
    request.parseFilters 256]

/-- The watcher that a request with a start revision registers. -/
def watcher (request : WatchCreateRequest) (id : Int) : Watcher :=
  ⟨id, request.key, request.rangeEnd, request.startRevision, request.parseFilters, .new 256, false⟩

/-- The changes that a watch is to report: in its range, past its filters, from its start on. -/
def covers (request : WatchCreateRequest) (change : Change) : Bool :=
  (⟨request.key, request.rangeEnd⟩ : WatchRange).contains change.key &&
    (match change.eventType with
      | .put => !request.parseFilters.contains .noPut
      | .delete => !request.parseFilters.contains .noDelete) &&
    decide (request.startRevision ≤ change.revision)

end WatchCreateRequest

inductive WatchAction
  | write (call : Write)
  | create (request : WatchCreateRequest)
  | cancel (id : Int)
  | receive (id : Int)
  deriving DecidableEq, Repr

namespace WatchAction

/-- The store after an action, and the calls on the hub. -/
def perform (s : MvccStore) : WatchAction → MvccStore × List HubAction
  | .write call => call.perform s
  | .create request => (s, request.register s)
  | .cancel id => (s, [.cancel id])
  | .receive id => (s, [.receive id])

def changes (s : MvccStore) : WatchAction → List Change
  | .write call => call.changes s
  | _ => []

def serviceDeletions (s : MvccStore) : WatchAction → List Change
  | .write call => call.serviceDeletions s
  | _ => []

end WatchAction

/-- The store of a node and its watch hub. -/
structure WatchedStore where
  store : MvccStore
  hub : WatchHub

namespace WatchedStore

def fresh : WatchedStore := ⟨MvccStore.new .empty, WatchHub.new⟩

/-- One action, as long as the revision counter has room. -/
def step (u : WatchedStore) (action : WatchAction) : Option WatchedStore :=
  if u.store.currentRevision + 1 < 2 ^ 63 then
    some ⟨(action.perform u.store).1, u.hub.run (action.perform u.store).2⟩
  else none

/-- What the actions of a run contribute, one after another. -/
def collect {β : Type} (f : MvccStore → WatchAction → List β) :
    WatchedStore → List WatchAction → List β
  | _, [] => []
  | u, action :: rest =>
    f u.store action ++
      match step u action with
      | some next => collect f next rest
      | none => []

/-- The changes a run makes, in the order of their revisions. -/
def history (u : WatchedStore) (actions : List WatchAction) : List Change :=
  collect (fun s action => action.changes s) u actions

def serviceDeletions (u : WatchedStore) (actions : List WatchAction) : List Change :=
  collect (fun s action => action.serviceDeletions s) u actions

/-- The events a run notifies. -/
def emitted (u : WatchedStore) (actions : List WatchAction) : List Event :=
  collect (fun s action => notified (action.perform s).2) u actions

variable {u next : WatchedStore} {action : WatchAction}

theorem step_eq (moves : step u action = some next) :
    u.store.currentRevision + 1 < 2 ^ 63 ∧
      next = ⟨(action.perform u.store).1, u.hub.run (action.perform u.store).2⟩ := by
  unfold step at moves
  split_ifs at moves with room
  cases moves
  exact ⟨room, rfl⟩

theorem collect_cons {β : Type} (f : MvccStore → WatchAction → List β)
    (moves : step u action = some next) (rest : List WatchAction) :
    collect f u (action :: rest) = f u.store action ++ collect f next rest := by
  rw [collect, moves]

theorem collect_append {β : Type} (f : MvccStore → WatchAction → List β) {t : WatchedStore}
    {first : List WatchAction} (runs : runFrom step u first = some t) (rest : List WatchAction) :
    collect f u (first ++ rest) = collect f u first ++ collect f t rest := by
  induction first generalizing u with
  | nil =>
    cases runs
    rfl
  | cons action first ih =>
    obtain ⟨next, moves, runs⟩ := runFrom_cons runs
    rw [List.cons_append, collect_cons f moves, collect_cons f moves, ih runs, List.append_assoc]

end WatchedStore

/-! ### One write -/

variable {s : MvccStore}

/-- What the events of a write report, against the changes it makes. -/
theorem Write.perform_cases (reached : Reached s) (room : s.currentRevision + 1 < 2 ^ 63)
    (call : Write) :
    Reached (call.perform s).1 ∧ s.currentRevision < (call.perform s).1.currentRevision ∧
      (∀ c ∈ call.changes s, c.revision = s.currentRevision + 1) ∧
      ((notified (call.perform s).2).map Event.change = call.changes s ∧
          call.serviceDeletions s = [] ∨
        ∃ deleted : List KeyValue, (∀ kv ∈ deleted, kv.modRevision ≤ s.currentRevision) ∧
          notified (call.perform s).2 = deleted.map deleteEvent ∧
          call.changes s = deleted.map (fun kv => ⟨.delete, kv.key, s.currentRevision + 1⟩) ∧
          call.serviceDeletions s = call.changes s) := by
  have sound := Sound.of_reached reached
  cases call with
  | put key value lease =>
    obtain ⟨⟨revision, kv, oldKv⟩, s', returned, counter⟩ := sound.put_returns room key value lease
    obtain ⟨_, allocated, _, named, modified⟩ := MvccStore.put_answer returned
    have next := reached.put room key value lease
    rw [returned] at next
    simp only [perform, changes, serviceDeletions, returned]
    refine ⟨next, by omega, ?_, Or.inl ⟨?_, trivial⟩⟩
    · intro c member
      rw [List.mem_singleton.mp member]
      exact allocated
    · subst named
      subst modified
      rfl
  | delete path start stop =>
    by_cases accepts : KeyIndex.Accepts s.keyIndex.held start stop
    · obtain ⟨⟨revision, deleted⟩, s', returned, counter⟩ := sound.deleteRange_returns room accepts
      obtain ⟨_, rfl, _, stored⟩ := MvccStore.deleteRange_answer returned
      have next := reached.deleteRange room start stop
      rw [returned] at next
      have older : ∀ kv ∈ deleted, kv.modRevision ≤ s.currentRevision := by
        intro kv listed
        obtain ⟨key, data, tree, decoded⟩ := stored kv listed
        exact (sound.records key data kv tree decoded).modified.2
      have revisions : ∀ c ∈ deleted.map (fun kv =>
          (⟨.delete, kv.key, s.currentRevision + 1⟩ : Change)), c.revision = s.currentRevision + 1 := by
        intro c member
        obtain ⟨kv, _, rfl⟩ := List.mem_map.mp member
        rfl
      cases path with
      | service =>
        simp only [perform, changes, serviceDeletions, returned]
        refine ⟨next, by omega, revisions, Or.inr ⟨deleted, older, ?_, rfl, trivial⟩⟩
        unfold DeletePath.notifications
        split_ifs with none
        · rw [none]
          rfl
        · exact List.append_nil _
      | replica =>
        simp only [perform, changes, serviceDeletions, returned]
        refine ⟨next, by omega, revisions, Or.inl ⟨?_, trivial⟩⟩
        unfold DeletePath.notifications
        split_ifs with none
        · rw [none]
          rfl
        · simp [notified, HubAction.events, Event.change, DeletePath.event, deletedAt]
      | lease =>
        simp only [perform, changes, serviceDeletions, returned]
        refine ⟨next, by omega, revisions, Or.inl ⟨?_, trivial⟩⟩
        simp only [DeletePath.notifications, notified, List.flatMap_map, HubAction.events,
          List.map_flatMap]
        exact List.map_eq_flatMap.symm
    · have panics := MvccStore.deleteRange_refused room accepts
      have next := reached.deleteRange room start stop
      rw [panics] at next
      have nothing : (Write.delete path start stop).serviceDeletions s = [] := by
        cases path <;> simp [serviceDeletions, changes, panics]
      rw [nothing]
      simp only [perform, changes, panics]
      exact ⟨next, by simp, by simp, Or.inl ⟨rfl, trivial⟩⟩

/-- A write makes no other call on the hub than notifications. -/
theorem Write.notifies {call : Write} {action : HubAction} (listed : action ∈ (call.perform s).2) :
    ∃ events revision, action = .notify events revision 0 := by
  cases call with
  | put key value lease =>
    rw [perform] at listed
    split at listed
    · exact ⟨_, _, List.mem_singleton.mp listed⟩
    · cases listed
    · cases listed
  | delete path start stop =>
    rw [perform] at listed
    split at listed
    · cases path <;> simp only [DeletePath.notifications] at listed
      · split_ifs at listed
        · cases listed
        · exact ⟨_, _, List.mem_singleton.mp listed⟩
      · split_ifs at listed
        · cases listed
        · exact ⟨_, _, List.mem_singleton.mp listed⟩
      · obtain ⟨kv, _, rfl⟩ := List.mem_map.mp listed
        exact ⟨_, _, rfl⟩
    · cases listed
    · cases listed

/-! ### What is sent against what is due -/

/-- What was told against what was due: never more, and all of it exactly if nothing was lost. -/
structure Tracks (told due lost : List Change) : Prop where
  length_le : told.length ≤ due.length
  eq_iff : told = due ↔ lost = []

theorem Tracks.append {told due lost told' due' lost' : List Change} (first : Tracks told due lost)
    (second : Tracks told' due' lost') : Tracks (told ++ told') (due ++ due') (lost ++ lost') := by
  have lengths := first.length_le
  have lengths' := second.length_le
  refine ⟨by rw [List.length_append, List.length_append]; omega, ?_⟩
  rw [List.append_eq_nil_iff, ← first.eq_iff, ← second.eq_iff]
  constructor
  · intro same
    have total := congrArg List.length same
    rw [List.length_append, List.length_append] at total
    exact List.append_inj same (by omega)
  · rintro ⟨rfl, rfl⟩
    rfl

/-- The events of one action, for a watch that started before it. -/
theorem WatchAction.tracks (reached : Reached s) (room : s.currentRevision + 1 < 2 ^ 63)
    {request : WatchCreateRequest} (started : request.startRevision ≤ s.currentRevision)
    (action : WatchAction) :
    Tracks (((notified (action.perform s).2).map Event.change).filter request.covers)
      ((action.changes s).filter request.covers)
      ((action.serviceDeletions s).filter request.covers) := by
  cases action with
  | write call =>
    obtain ⟨_, _, _, reports | ⟨deleted, older, events, changes, lost⟩⟩ :=
      Write.perform_cases reached room call
    · show Tracks (((notified (call.perform s).2).map Event.change).filter request.covers)
        ((call.changes s).filter request.covers) ((call.serviceDeletions s).filter request.covers)
      rw [reports.1, reports.2]
      exact ⟨le_rfl, iff_of_true rfl rfl⟩
    · show Tracks (((notified (call.perform s).2).map Event.change).filter request.covers)
        ((call.changes s).filter request.covers) ((call.serviceDeletions s).filter request.covers)
      rw [lost, events, changes, List.map_map]
      -- an event that passes is of a key whose deletion is due, but at an older revision
      have fewer : ((deleted.map (Event.change ∘ deleteEvent)).filter request.covers).length ≤
          ((deleted.map fun kv => (⟨.delete, kv.key, s.currentRevision + 1⟩ : Change)).filter
            request.covers).length := by
        rw [← List.countP_eq_length_filter, ← List.countP_eq_length_filter, List.countP_map,
          List.countP_map]
        refine List.countP_mono_left fun kv _ passes => ?_
        simp only [Function.comp_apply, WatchCreateRequest.covers, Event.change, deleteEvent,
          Bool.and_eq_true, decide_eq_true_eq] at passes ⊢
        exact ⟨passes.1, by omega⟩
      refine ⟨fewer, fun same => ?_, fun none => ?_⟩
      · rw [← same]
        refine List.eq_nil_iff_forall_not_mem.mpr fun c member => ?_
        have due := member
        rw [same] at due
        obtain ⟨kv, listed, rfl⟩ := List.mem_map.mp (List.mem_of_mem_filter member)
        obtain ⟨_, _, equal⟩ := List.mem_map.mp (List.mem_of_mem_filter due)
        have bound := older kv listed
        have revision : s.currentRevision + 1 = kv.modRevision := congrArg Change.revision equal
        omega
      · rw [none] at fewer ⊢
        exact List.length_eq_zero_iff.mp (Nat.le_zero.mp fewer)
  | create request' =>
    refine ⟨?_, ?_⟩
    · rw [perform, WatchCreateRequest.register]
      split_ifs <;> exact le_rfl
    · rw [perform, WatchCreateRequest.register]
      split_ifs <;> exact iff_of_true rfl rfl
  | cancel id => exact ⟨le_rfl, iff_of_true rfl rfl⟩
  | receive id => exact ⟨le_rfl, iff_of_true rfl rfl⟩

theorem WatchAction.perform_store (reached : Reached s) (room : s.currentRevision + 1 < 2 ^ 63)
    (action : WatchAction) :
    Reached (action.perform s).1 ∧ s.currentRevision ≤ (action.perform s).1.currentRevision := by
  cases action with
  | write call =>
    obtain ⟨next, later, _⟩ := Write.perform_cases reached room call
    exact ⟨next, later.le⟩
  | create request => exact ⟨reached, le_rfl⟩
  | cancel id => exact ⟨reached, le_rfl⟩
  | receive id => exact ⟨reached, le_rfl⟩

namespace WatchedStore

variable {u t next : WatchedStore} {id : Int} {w : Watcher} {actions : List WatchAction}

theorem reached_run (reached : Reached u.store) (runs : runFrom step u actions = some t) :
    Reached t.store := by
  induction actions generalizing u with
  | nil =>
    cases runs
    exact reached
  | cons action rest ih =>
    obtain ⟨next, moves, runs⟩ := runFrom_cons runs
    obtain ⟨room, rfl⟩ := step_eq moves
    exact ih (action.perform_store reached room).1 runs

/-- **A run after the start of a watch.** -/
theorem tracks_run (reached : Reached u.store) {request : WatchCreateRequest}
    (started : request.startRevision ≤ u.store.currentRevision)
    (runs : runFrom step u actions = some t) :
    Tracks (((emitted u actions).map Event.change).filter request.covers)
      ((history u actions).filter request.covers)
      ((serviceDeletions u actions).filter request.covers) := by
  induction actions generalizing u with
  | nil => exact ⟨le_rfl, iff_of_true rfl rfl⟩
  | cons action rest ih =>
    obtain ⟨next, moves, runs⟩ := runFrom_cons runs
    obtain ⟨room, same⟩ := step_eq moves
    obtain ⟨later, grows⟩ := action.perform_store reached room
    rw [emitted, history, serviceDeletions, collect_cons _ moves, collect_cons _ moves,
      collect_cons _ moves, List.map_append, List.filter_append, List.filter_append,
      List.filter_append]
    refine (action.tracks reached room started).append (ih ?_ ?_ runs)
    · rw [same]
      exact later
    · rw [same]
      exact started.trans grows

/-- The channel of a watcher has room in every state of a run. -/
def NeverFills (id : Int) (u : WatchedStore) (actions : List WatchAction) : Prop :=
  ∀ (n : Nat) (v : WatchedStore) (w : Watcher), runFrom step u (actions.take n) = some v →
    v.hub.watchers id = some w → w.channel.full = false

theorem NeverFills.tail {action : WatchAction} {rest : List WatchAction}
    (never : NeverFills id u (action :: rest)) (moves : step u action = some next) :
    NeverFills id next rest := by
  intro n v w reaches
  refine never (n + 1) v w ?_
  rw [List.take_succ_cons, runFrom, moves]
  exact reaches

/-- One action with room after it sends the watcher every event it wants. -/
theorem neverFull_uses (w : Watcher) (s : MvccStore) (action : WatchAction)
    (room : (w.channel.run ((action.perform s).2.flatMap w.uses)).full = false) :
    Channel.NeverFull w.channel ((action.perform s).2.flatMap w.uses) := by
  cases action with
  | write call =>
    refine Channel.neverFull_of_room (fun op member => ?_) room
    obtain ⟨hubAction, listed, used⟩ := List.mem_flatMap.mp member
    obtain ⟨events, revision, rfl⟩ := Write.notifies listed
    rw [Watcher.uses, WatchHub.sends] at used
    split_ifs at used
    · cases used
    · rw [List.mem_singleton.mp used]
      intro is
      cases is
  | create request =>
    rw [WatchAction.perform, WatchCreateRequest.register]
    split_ifs <;> exact trivial
  | cancel other => exact trivial
  | receive other =>
    show Channel.NeverFull w.channel ((if w.id = other then [.recv] else []) ++ [])
    split_ifs <;> exact trivial

/-- Only its own cancellation cancels a watch. -/
theorem cancel_not_mem (s : MvccStore) {action : WatchAction} (kept : action ≠ .cancel id) :
    HubAction.cancel id ∉ (action.perform s).2 := by
  intro member
  cases action with
  | write call =>
    obtain ⟨events, revision, is⟩ := Write.notifies member
    cases is
  | create request =>
    rw [WatchAction.perform, WatchCreateRequest.register] at member
    split_ifs at member
    · cases member
    · cases List.mem_singleton.mp member
    · cases List.mem_singleton.mp member
  | cancel other =>
    cases List.mem_singleton.mp member
    exact kept rfl
  | receive other => cases List.mem_singleton.mp member

/-- **A watcher with room is sent every event it wants.** -/
theorem stream_run (found : u.hub.watchers id = some w) (kept : WatchAction.cancel id ∉ actions)
    (never : NeverFills id u actions) (runs : runFrom step u actions = some t) :
    ∃ w', t.hub.watchers id = some w' ∧ w'.channel.stream.flatMap WatchEvent.events =
      w.channel.stream.flatMap WatchEvent.events ++ (emitted u actions).filter w.wants := by
  induction actions generalizing u w with
  | nil =>
    cases runs
    exact ⟨w, found, (List.append_nil _).symm⟩
  | cons action rest ih =>
    obtain ⟨next, moves, runs⟩ := runFrom_cons runs
    obtain ⟨_, same⟩ := step_eq moves
    rw [List.mem_cons, not_or] at kept
    have after := WatchHub.watchers_run found
      (cancel_not_mem u.store fun same => kept.1 same.symm)
    have moved : next.hub.watchers id = some
        { w with channel := w.channel.run ((action.perform u.store).2.flatMap w.uses) } := by
      rw [same]
      exact after
    have room := never 1 next _ (by rw [List.take_succ_cons, runFrom, moves]; rfl) moved
    obtain ⟨w', last, stream⟩ := ih moved kept.2 (never.tail moves) runs
    refine ⟨w', last, ?_⟩
    have complete := (Channel.accepted_eq_sent_iff _ _).mpr (neverFull_uses w u.store action room)
    have told := w.flatMap_batches (action.perform u.store).2
    have split : emitted u (action :: rest) =
        notified (action.perform u.store).2 ++ emitted next rest := collect_cons _ moves rest
    rw [stream, split, List.filter_append, Channel.stream_run, complete, List.flatMap_append, ← told,
      ← List.append_assoc]
    rfl

/-- The state after a creation. -/
theorem step_create {request : WatchCreateRequest} (named : request.key ≠ [])
    (positive : 0 < request.startRevision) (creates : step u (.create request) = some next) :
    next.store = u.store ∧
      next.hub.watchers u.hub.nextWatchId = some (request.watcher u.hub.nextWatchId) := by
  obtain ⟨_, rfl⟩ := step_eq creates
  refine ⟨rfl, ?_⟩
  have registers : request.register u.store = [.create request.key request.rangeEnd
      request.startRevision request.parseFilters 256] := by
    rw [WatchCreateRequest.register, if_neg named, if_pos positive]
  show (u.hub.run (request.register u.store)).watchers _ = _
  rw [registers, WatchHub.run, List.foldl_cons, List.foldl_nil, WatchHub.apply,
    WatchHub.createWatch, if_neg named]
  exact if_pos rfl

/-- What the watcher of a request wants is what the request covers. -/
theorem wants_watcher (request : WatchCreateRequest) (id : Int) (event : Event) :
    (request.watcher id).wants event = request.covers event.change := by
  unfold Watcher.wants Watcher.accepts WatchCreateRequest.covers WatchCreateRequest.watcher
  have started : (!decide (event.kv.modRevision < request.startRevision)) =
      decide (request.startRevision ≤ event.kv.modRevision) := by
    rw [← decide_not, decide_eq_decide, not_lt]
  simp only [Watcher.range, Event.change, Bool.not_false, Bool.true_and, started]
  cases event.eventType <;> rw [← Bool.and_assoc] <;> rfl

/-- The changes of a run with a creation in it. -/
theorem history_create {before after : List WatchAction} {request : WatchCreateRequest}
    {created : WatchedStore} (reaches : runFrom step fresh before = some u)
    (creates : step u (.create request) = some created) :
    history fresh (before ++ .create request :: after) =
      history fresh before ++ history created after := by
  rw [history, collect_append _ reaches, collect_cons _ creates]
  rfl

/-- **A watch from a past revision.** A run of writes (and of other watches) from a fresh node, the
creation of a watch from a revision `s` with `0 < s ≤ current_revision`, and any run after it in
which the watch is not canceled and its channel does not fill. The events sent on its stream are the
changes of the whole run that it covers, in revision order and each once, if and only if it covers
none of the changes before its creation, and none of the deletions that `KvService` makes after
it. -/
theorem catch_up_complete (before after : List WatchAction) (request : WatchCreateRequest)
    (u created t : WatchedStore) (named : request.key ≠ []) (positive : 0 < request.startRevision)
    (past : request.startRevision ≤ u.store.currentRevision)
    (reaches : runFrom step fresh before = some u)
    (creates : step u (.create request) = some created)
    (continues : runFrom step created after = some t)
    (kept : WatchAction.cancel u.hub.nextWatchId ∉ after)
    (never : NeverFills u.hub.nextWatchId created after) :
    ∃ w, t.hub.watchers u.hub.nextWatchId = some w ∧
      ((w.channel.stream.flatMap WatchEvent.events).map Event.change =
          (history fresh (before ++ .create request :: after)).filter request.covers ↔
        ∀ c ∈ history fresh before ++ serviceDeletions created after, request.covers c = false) := by
  obtain ⟨store, found⟩ := step_create named positive creates
  obtain ⟨w, last, stream⟩ := stream_run found kept never continues
  have reached : Reached created.store := by
    rw [store]
    exact reached_run .fresh reaches
  have tracks := tracks_run reached (by rw [store]; exact past) continues
  have told : (w.channel.stream.flatMap WatchEvent.events).map Event.change =
      ((emitted created after).map Event.change).filter request.covers := by
    have wants : (request.watcher u.hub.nextWatchId).wants = request.covers ∘ Event.change :=
      funext fun event => wants_watcher request u.hub.nextWatchId event
    rw [stream, List.filter_map, wants]
    rfl
  refine ⟨w, last, ?_⟩
  have condition : (∀ c ∈ history fresh before ++ serviceDeletions created after,
      request.covers c = false) ↔
        (history fresh before).filter request.covers = [] ∧
          (serviceDeletions created after).filter request.covers = [] := by
    rw [List.filter_eq_nil_iff, List.filter_eq_nil_iff]
    simp only [List.mem_append, or_imp, forall_and, Bool.not_eq_true]
  rw [told, condition, ← tracks.eq_iff, history_create reaches creates, List.filter_append]
  constructor
  · intro same
    -- no more is told than is due after the creation, so nothing was due before it
    have total := congrArg List.length same
    have bound := tracks.length_le
    rw [List.length_append] at total
    have none : (history fresh before).filter request.covers = [] :=
      List.length_eq_zero_iff.mp (by omega)
    rw [none] at same
    exact ⟨none, same⟩
  · rintro ⟨none, same⟩
    rw [none, same]
    rfl

/-- Two writes of one key, at revisions 2 and 3. -/
def twoWrites : List WatchAction := [.write (.put [97] [49] 0), .write (.put [97] [50] 0)]

/-- A watch of that key from revision 2, created at revision 3: the two writes are due, and nothing
is sent. -/
theorem past_writes_not_sent :
    ∃ u created w, runFrom step fresh twoWrites = some u ∧ u.store.currentRevision = 3 ∧
      step u (.create ⟨[97], [], 2, []⟩) = some created ∧
      created.hub.watchers u.hub.nextWatchId = some w ∧ w.channel.stream = [] ∧
      (w.channel.stream.flatMap WatchEvent.events).map Event.change ≠
        (history fresh (twoWrites ++ [.create ⟨[97], [], 2, []⟩])).filter
          (WatchCreateRequest.covers ⟨[97], [], 2, []⟩) := by
  refine ⟨_, _, _, rfl, rfl, rfl, rfl, rfl, fun same => ?_⟩
  have due : (history fresh (twoWrites ++ [.create ⟨[97], [], 2, []⟩])).filter
      (WatchCreateRequest.covers ⟨[97], [], 2, []⟩) = [⟨.put, [97], 2⟩, ⟨.put, [97], 3⟩] := rfl
  rw [due] at same
  cases same

/-- A write of a key and its deletion by the end of its lease. -/
def writeAndExpire : List WatchAction :=
  [.write (.put [97] [49] 0), .write (.delete .lease [97] [98])]

/-- A watch that covers nothing of the past is complete while the deletions come from elsewhere. -/
theorem new_key_watch_complete :
    ∃ u created t w,
      runFrom step fresh [.write (.put [98] [49] 0)] = some u ∧
      step u (.create ⟨[97], [], 2, []⟩) = some created ∧
      runFrom step created writeAndExpire = some t ∧
      t.hub.watchers u.hub.nextWatchId = some w ∧
      (w.channel.stream.flatMap WatchEvent.events).map Event.change =
        [⟨.put, [97], 3⟩, ⟨.delete, [97], 4⟩] := by
  have complete := catch_up_complete [.write (.put [98] [49] 0)] writeAndExpire
    ⟨[97], [], 2, []⟩ _ _ _ (by decide) (by decide) (by decide) rfl rfl rfl (by decide) (by
      intro n v w reaches found
      rcases n with _ | _ | n
      · cases reaches
        cases found
        rfl
      · cases reaches
        cases found
        rfl
      · rw [writeAndExpire, List.take_succ_cons, List.take_succ_cons, List.take_nil] at reaches
        cases reaches
        cases found
        rfl)
  obtain ⟨w, last, sent⟩ := complete
  exact ⟨_, _, _, w, rfl, rfl, rfl, last, (sent.mpr (by decide)).trans rfl⟩

end WatchedStore

end Rusd
