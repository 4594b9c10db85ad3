/-
**The watch streams** (`api/watch_service.rs`, over `watch/mod.rs`).

Every `Watch` call has a task of its own that receives the messages of its client and keeps a table of
the watches it has acknowledged. The tasks share the maps of one hub; here they take turns at every
access of a map, every send and every message, and notifications and receptions change the channels
of the watchers in between.

The hub does not know who created a watcher. The model notes it beside the code's state: `creator` is
the stream that took the id from the counter.

* `isolated_iff` — **streams leave each other's watchers alone** exactly if no cancel message names a
  watcher of another stream and no list is removed with a watcher of another stream on it.
* `no_leaked_watchers` — **a task leaves no watcher behind** if all its acknowledgments are sent.

The tasks that forward the events of a watcher to the client, the headers of the responses and the
flags of a watcher that the hub does not read are left out.
-/

import Rusd.Watch.Registry
import Rusd.Api.KvService

namespace Rusd

/-! ### One stream -/

/-- What the task receives: a request, the end of the stream, or an error. -/
inductive WatchMessage
  | createRequest (key rangeEnd : Bytes) (startRevision : Int) (filters : List Int)
  | cancelRequest (watchId : Int)
  | progressRequest
  | noRequest
  | closed
  | failed (error : String)

/-- What the task sends. -/
inductive WatchReply
  | response (watchId : Int) (created canceled : Bool)
  | error (status : Status)

/-- Where the task is. The calls of the hub are under way, the sends are about to be made; the
acknowledgment is the response with the new id and `created` set. -/
inductive StreamPhase
  | receiving
  | creating (task : HubTask)
  | acknowledging (watchId : Int)
  | canceling (watchId : Int) (task : HubTask)
  | replying (reply : WatchReply)
  | reporting (reply : WatchReply)
  | draining
  | releasing (task : HubTask)
  | ended

/-- The state of a task: where it is, and the keys of `active_watches`. -/
structure WatchStream where
  phase : StreamPhase
  activeWatches : Finset Int

/-- What a task does next. The revision of a message is the store's at that time; the result of a send
is the client's doing, and the order of a drain the hash map's. -/
inductive StreamEvent
  | receive (message : WatchMessage) (currentRevision : Int)
  | proceed
  | send (delivered : Bool)
  | drain (watchId : Int)

namespace StreamPhase

/-- The call of the hub that is under way. -/
def call : StreamPhase → Option HubTask
  | creating task => some task
  | canceling _ task => some task
  | releasing task => some task
  | _ => none

def acknowledges : StreamPhase → Bool
  | acknowledging _ => true
  | _ => false

/-- The call, when it is a cancellation. -/
def cancelCall : StreamPhase → Option HubTask
  | canceling _ task => some task
  | releasing task => some task
  | _ => none

/-- The watch that has been inserted and is not in the table yet. -/
def held : StreamPhase → Option Int
  | creating (.pushId watchId _) => some watchId
  | creating (.created (.ok watchId)) => some watchId
  | acknowledging watchId => some watchId
  | _ => none

end StreamPhase

def WatchError.display : WatchError → String
  | watchNotFound id => "Watch not found: " ++ toString id
  | invalidConfig message => "Invalid watch configuration: " ++ message

/-- The filters of a create request; other numbers are skipped. -/
def watchFilter : Int → Option WatchFilter
  | 0 => some .noPut
  | 1 => some .noDelete
  | _ => none

namespace WatchStream

def opened : WatchStream := ⟨.receiving, ∅⟩

/-- A message is received: up to the first access of the hub, if there is one. -/
def onMessage (st : WatchStream) (hub : HubMaps) (currentRevision : Int) :
    WatchMessage → HubMaps × WatchStream
  | .createRequest key rangeEnd startRevision filters =>
    if key = [] then
      (hub, { st with phase := .replying (.error ⟨.invalidArgument, "key must not be empty"⟩) })
    else
      let startRevision := if 0 < startRevision then startRevision else currentRevision + 1
      let (hub, task) := hub.createWatch key rangeEnd startRevision (filters.filterMap watchFilter)
        (.new 256)
      (hub, { st with phase := .creating task })
  | .cancelRequest watchId =>
    let (hub, task) := hub.cancelWatch watchId
    (hub, { st with phase := .canceling watchId task })
  | .progressRequest => (hub, { st with phase := .replying (.response 0 false false) })
  | .noRequest => (hub, st)
  | .closed => (hub, { st with phase := .draining })
  | .failed error =>
    (hub, { st with phase := .reporting (.error ⟨.internal, "stream error: " ++ error⟩) })

/-- The task goes on: the next access of a call, what follows its return, or the end of the drain. -/
def proceed (st : WatchStream) (hub : HubMaps) : Option (HubMaps × WatchStream) :=
  match st.phase with
  | .creating (.created (.ok watchId)) => some (hub, { st with phase := .acknowledging watchId })
  | .creating (.created (.error e)) =>
    some (hub, { st with
      phase := .replying (.error ⟨.internal, "failed to create watch: " ++ e.display⟩) })
  | .creating task =>
    (hub.access task).map fun (hub, after) => (hub, { st with phase := .creating after })
  | .canceling watchId (.canceled _) =>
    some (hub, ⟨.replying (.response watchId false true), st.activeWatches.erase watchId⟩)
  | .canceling watchId task =>
    (hub.access task).map fun (hub, after) => (hub, { st with phase := .canceling watchId after })
  | .releasing (.canceled _) => some (hub, { st with phase := .draining })
  | .releasing task =>
    (hub.access task).map fun (hub, after) => (hub, { st with phase := .releasing after })
  | .draining => if st.activeWatches = ∅ then some (hub, { st with phase := .ended }) else none
  | _ => none

/-- A send is over. Only the one that acknowledges a watch looks at the result. -/
def sent (st : WatchStream) (delivered : Bool) : Option WatchStream :=
  match st.phase with
  | .acknowledging watchId =>
    if delivered then some ⟨.receiving, insert watchId st.activeWatches⟩
    else some { st with phase := .ended }
  | .replying _ => some { st with phase := .receiving }
  | .reporting _ => some { st with phase := .draining }
  | _ => none

def step (st : WatchStream) (hub : HubMaps) : StreamEvent → Option (HubMaps × WatchStream)
  | .receive message currentRevision =>
    match st.phase with
    | .receiving => some (st.onMessage hub currentRevision message)
    | _ => none
  | .proceed => st.proceed hub
  | .send delivered => (st.sent delivered).map fun after => (hub, after)
  | .drain watchId =>
    match st.phase with
    | .draining =>
      if watchId ∈ st.activeWatches then
        let (hub, task) := hub.cancelWatch watchId
        some (hub, ⟨.releasing task, st.activeWatches.erase watchId⟩)
      else none
    | _ => none

end WatchStream

/-- What one step of a task can do. -/
inductive WatchStream.Turn (hub : HubMaps) (st : WatchStream) : HubMaps → WatchStream → Prop
  | quiet (phase : StreamPhase) (before : st.phase.held = none) (call : phase.call = none)
      (after : phase.held = none) (running : phase ≠ .ended) : Turn hub st hub ⟨phase, st.activeWatches⟩
  | took (w : Watcher) (before : st.phase.held = none) (named : w.id = hub.nextWatchId) :
      Turn hub st { hub with nextWatchId := hub.nextWatchId + 1 }
        ⟨.creating (.insertWatcher w), st.activeWatches⟩
  | creating (task after : HubTask) (hub' : HubMaps) (at_ : st.phase = .creating task)
      (moves : hub.access task = some (hub', after)) :
      Turn hub st hub' ⟨.creating after, st.activeWatches⟩
  | created (watchId : Int) (at_ : st.phase = .creating (.created (.ok watchId))) :
      Turn hub st hub ⟨.acknowledging watchId, st.activeWatches⟩
  | acknowledged (watchId : Int) (at_ : st.phase = .acknowledging watchId) :
      Turn hub st hub ⟨.receiving, insert watchId st.activeWatches⟩
  | abandoned (watchId : Int) (at_ : st.phase = .acknowledging watchId) :
      Turn hub st hub ⟨.ended, st.activeWatches⟩
  | cancels (watchId : Int) (at_ : st.phase = .receiving) :
      Turn hub st (hub.cancelWatch watchId).1
        ⟨.canceling watchId (hub.cancelWatch watchId).2, st.activeWatches⟩
  | canceling (watchId : Int) (task after : HubTask) (hub' : HubMaps)
      (at_ : st.phase = .canceling watchId task) (moves : hub.access task = some (hub', after)) :
      Turn hub st hub' ⟨.canceling watchId after, st.activeWatches⟩
  | canceled (watchId : Int) (result : Except WatchError Unit)
      (at_ : st.phase = .canceling watchId (.canceled result)) :
      Turn hub st hub ⟨.replying (.response watchId false true), st.activeWatches.erase watchId⟩
  | drains (watchId : Int) (at_ : st.phase = .draining) (active : watchId ∈ st.activeWatches) :
      Turn hub st (hub.cancelWatch watchId).1
        ⟨.releasing (hub.cancelWatch watchId).2, st.activeWatches.erase watchId⟩
  | releasing (task after : HubTask) (hub' : HubMaps) (at_ : st.phase = .releasing task)
      (moves : hub.access task = some (hub', after)) :
      Turn hub st hub' ⟨.releasing after, st.activeWatches⟩
  | finished (at_ : st.phase = .draining) (empty : st.activeWatches = ∅) :
      Turn hub st hub ⟨.ended, st.activeWatches⟩

namespace WatchStream

variable {hub hub' : HubMaps} {st st' : WatchStream}

theorem turn_of_message (hub : HubMaps) (at_ : st.phase = .receiving) (currentRevision : Int)
    (message : WatchMessage) : Turn hub st (st.onMessage hub currentRevision message).1
      (st.onMessage hub currentRevision message).2 := by
  have before : st.phase.held = none := by rw [at_]; rfl
  cases message with
  | createRequest key rangeEnd startRevision filters =>
    by_cases keyed : key = []
    · simp only [onMessage, if_pos keyed]
      exact .quiet _ before rfl rfl (by simp)
    · simp only [onMessage, if_neg keyed, HubMaps.createWatch_of_key keyed]
      exact .took _ before rfl
  | cancelRequest watchId => exact .cancels watchId at_
  | progressRequest => exact .quiet _ before rfl rfl (by simp)
  | noRequest => exact .quiet _ before (by rw [at_]; rfl) before (by simp [at_])
  | closed => exact .quiet _ before rfl rfl (by simp)
  | failed error => exact .quiet _ before rfl rfl (by simp)

theorem turn_of_proceed (moves : st.proceed hub = some (hub', st')) : Turn hub st hub' st' := by
  unfold proceed at moves
  split at moves
  · cases moves
    exact .created _ ‹_›
  · cases moves
    exact .quiet _ (by simp [*, StreamPhase.held]) rfl rfl (by simp)
  · obtain ⟨⟨maps, after⟩, accessed, same⟩ := Option.map_eq_some_iff.mp moves
    cases same
    exact .creating _ _ _ ‹_› accessed
  · cases moves
    exact .canceled _ _ ‹_›
  · obtain ⟨⟨maps, after⟩, accessed, same⟩ := Option.map_eq_some_iff.mp moves
    cases same
    exact .canceling _ _ _ _ ‹_› accessed
  · cases moves
    exact .quiet _ (by simp [*, StreamPhase.held]) rfl rfl (by simp)
  · obtain ⟨⟨maps, after⟩, accessed, same⟩ := Option.map_eq_some_iff.mp moves
    cases same
    exact .releasing _ _ _ ‹_› accessed
  · split_ifs at moves with empty
    cases moves
    exact .finished ‹_› empty
  · cases moves

theorem turn_of_sent {delivered : Bool} (moves : st.sent delivered = some st') :
    Turn hub st hub st' := by
  unfold sent at moves
  split at moves
  · split_ifs at moves
    · cases moves
      exact .acknowledged _ ‹_›
    · cases moves
      exact .abandoned _ ‹_›
  · cases moves
    exact .quiet _ (by simp [*, StreamPhase.held]) rfl rfl (by simp)
  · cases moves
    exact .quiet _ (by simp [*, StreamPhase.held]) rfl rfl (by simp)
  · cases moves

theorem turn_of_step {event : StreamEvent} (moves : st.step hub event = some (hub', st')) :
    Turn hub st hub' st' := by
  cases event with
  | receive message currentRevision =>
    simp only [step] at moves
    split at moves
    · have turn := turn_of_message hub ‹_› currentRevision message
      rwa [Option.some.inj moves] at turn
    · cases moves
  | proceed => exact turn_of_proceed moves
  | send delivered =>
    obtain ⟨after, sends, same⟩ := Option.map_eq_some_iff.mp moves
    cases same
    exact turn_of_sent sends
  | drain watchId =>
    simp only [step] at moves
    split at moves
    · split_ifs at moves with active
      cases moves
      exact .drains watchId ‹_› active
    · cases moves

/-- What a step does to the maps: nothing but for the counter, the first access of a cancellation, or
the next access of the call under way. -/
theorem hub_of_step {event : StreamEvent} (moves : st.step hub event = some (hub', st')) :
    (hub'.watchers = hub.watchers ∧ hub'.keyWatchers = hub.keyWatchers) ∨
      (∃ id, hub' = (hub.cancelWatch id).1 ∧ (id ∈ st.activeWatches ∨
        st.phase = .receiving ∧ ∃ revision, event = .receive (.cancelRequest id) revision)) ∨
      event = .proceed ∧ ∃ task after, st.phase.call = some task ∧
        hub.access task = some (hub', after) := by
  cases event with
  | receive message currentRevision =>
    simp only [step] at moves
    split at moves
    · rename_i at_
      cases message with
      | createRequest key rangeEnd startRevision filters =>
        by_cases keyed : key = []
        · simp only [onMessage, if_pos keyed] at moves
          cases moves
          exact Or.inl ⟨rfl, rfl⟩
        · simp only [onMessage, if_neg keyed, HubMaps.createWatch_of_key keyed] at moves
          cases moves
          exact Or.inl ⟨rfl, rfl⟩
      | cancelRequest watchId =>
        cases moves
        exact Or.inr (Or.inl ⟨watchId, rfl, Or.inr ⟨at_, currentRevision, rfl⟩⟩)
      | progressRequest | noRequest | closed | failed =>
        cases moves
        exact Or.inl ⟨rfl, rfl⟩
    · cases moves
  | proceed =>
    cases turn_of_proceed moves with
    | creating task after _ at_ accessed | canceling _ task after _ at_ accessed
    | releasing task after _ at_ accessed =>
      exact Or.inr (Or.inr ⟨rfl, task, after, by rw [at_]; rfl, accessed⟩)
    | quiet | created | acknowledged | abandoned | canceled | finished => exact Or.inl ⟨rfl, rfl⟩
    | took => exact Or.inl ⟨rfl, rfl⟩
    | drains id at_ active => exact Or.inr (Or.inl ⟨id, rfl, Or.inl active⟩)
    | cancels id at_ =>
      have stays : st.proceed hub = none := by simp only [proceed, at_]
      cases stays.symm.trans moves
  | send delivered =>
    obtain ⟨after, sends, same⟩ := Option.map_eq_some_iff.mp moves
    cases same
    exact Or.inl ⟨rfl, rfl⟩
  | drain watchId =>
    simp only [step] at moves
    split at moves
    · split_ifs at moves with active
      cases moves
      exact Or.inr (Or.inl ⟨watchId, rfl, Or.inl active⟩)
    · cases moves

/-- A call under way can go on. -/
theorem proceed_of_access {task after : HubTask} (call : st.phase.call = some task)
    (accessed : hub.access task = some (hub', after)) :
    ∃ phase, st.step hub .proceed = some (hub', ⟨phase, st.activeWatches⟩) := by
  obtain ⟨phase, active⟩ := st
  cases phase with
  | creating before =>
    cases call
    refine ⟨.creating after, ?_⟩
    cases task with
    | created | canceled => cases accessed
    | _ => simp only [step, proceed, accessed, Option.map_some]
  | canceling watchId before =>
    cases call
    refine ⟨.canceling watchId after, ?_⟩
    cases task with
    | created | canceled => cases accessed
    | _ => simp only [step, proceed, accessed, Option.map_some]
  | releasing before =>
    cases call
    refine ⟨.releasing after, ?_⟩
    cases task with
    | created | canceled => cases accessed
    | _ => simp only [step, proceed, accessed, Option.map_some]
  | _ => cases call

/-- The send of an acknowledgment is the one that may end the task. -/
theorem acknowledging_step {event : StreamEvent} {watchId : Int} (at_ : st.phase = .acknowledging watchId)
    (moves : st.step hub event = some (hub', st')) :
    ∃ delivered, event = .send delivered ∧ (delivered = true → st'.phase ≠ .ended) := by
  cases event with
  | send delivered =>
    refine ⟨delivered, rfl, ?_⟩
    rintro rfl
    simp only [step, sent, at_, if_true, Option.map_some] at moves
    cases moves
    simp
  | receive | proceed | drain => simp only [step, proceed, at_] at moves; cases moves

namespace Turn

/-- Only a creation moves the counter, by one. -/
theorem nextWatchId (turn : Turn hub st hub' st') :
    hub'.nextWatchId = hub.nextWatchId ∨
      ∃ w, st'.phase = .creating (.insertWatcher w) ∧ hub'.nextWatchId = hub.nextWatchId + 1 := by
  cases turn with
  | quiet | created | acknowledged | abandoned | canceled | finished => exact Or.inl rfl
  | took w => exact Or.inr ⟨w, rfl, rfl⟩
  | creating _ _ _ _ moves | canceling _ _ _ _ _ moves | releasing _ _ _ _ moves =>
    exact Or.inl (HubMaps.access_nextWatchId moves)
  | cancels watchId | drains watchId =>
    rcases hub.cancelWatch_cases watchId with ⟨w, -, result⟩ | ⟨-, result⟩ <;>
      exact Or.inl (by rw [result])

/-- A watcher appears where a creation inserts it. -/
theorem watchers (turn : Turn hub st hub' st') (id : Int) :
    hub'.watchers id = hub.watchers id ∨ hub'.watchers id = none ∨
      ∃ w, st.phase.call = some (.insertWatcher w) ∧ w.id = id := by
  cases turn with
  | quiet | took | created | acknowledged | abandoned | canceled | finished => exact Or.inl rfl
  | creating task after _ at_ moves =>
    refine (HubMaps.access_watchers moves id).imp_right fun inserted => Or.inr ?_
    obtain ⟨w, rfl, named⟩ := inserted
    exact ⟨w, by rw [at_]; rfl, named⟩
  | canceling watchId task after _ at_ moves =>
    refine (HubMaps.access_watchers moves id).imp_right fun inserted => Or.inr ?_
    obtain ⟨w, rfl, named⟩ := inserted
    exact ⟨w, by rw [at_]; rfl, named⟩
  | releasing task after _ at_ moves =>
    refine (HubMaps.access_watchers moves id).imp_right fun inserted => Or.inr ?_
    obtain ⟨w, rfl, named⟩ := inserted
    exact ⟨w, by rw [at_]; rfl, named⟩
  | cancels watchId | drains watchId =>
    rw [HubMaps.watchers_cancelWatch]
    split_ifs
    · exact Or.inr (Or.inl rfl)
    · exact Or.inl rfl

/-- The table gets the watch that the task holds. -/
theorem active (turn : Turn hub st hub' st') {id : Int} (member : id ∈ st'.activeWatches) :
    id ∈ st.activeWatches ∨ st.phase.held = some id := by
  cases turn with
  | acknowledged watchId at_ =>
    refine (Finset.mem_insert.mp member).symm.imp_right fun same => ?_
    rw [same, at_]
    rfl
  | canceled | drains => exact Or.inl (Finset.mem_of_mem_erase member)
  | _ => exact Or.inl member

/-- The task holds the watch that it has inserted. -/
theorem held (turn : Turn hub st hub' st') {id : Int} (holds : st'.phase.held = some id) :
    st.phase.held = some id ∨ ∃ w, st.phase.call = some (.insertWatcher w) ∧ w.id = id := by
  cases turn with
  | quiet phase before call after => cases after.symm.trans holds
  | creating task after _ at_ moves =>
    rw [at_]
    cases task with
    | insertWatcher w =>
      cases moves
      exact Or.inr ⟨w, rfl, Option.some.inj holds⟩
    | pushId watchId range =>
      cases moves
      exact Or.inl holds
    | retainIds watchId range =>
      obtain ⟨-, -, -, rfl | rfl⟩ := HubMaps.access_retain moves <;> cases holds
    | removeRange range =>
      cases moves
      cases holds
    | created | canceled => cases moves
  | created watchId at_ =>
    rw [at_]
    exact Or.inl holds
  | _ => cases holds

/-- A creation is one that was under way, or has just taken its id. -/
theorem creates (turn : Turn hub st hub' st') {task : HubTask} {id : Int}
    (call : st'.phase.call = some task) (creates : task.creates = some id) :
    (∃ before, st.phase.call = some before ∧ before.creates = some id) ∨
      ∃ w, task = .insertWatcher w ∧ w.id = id ∧ st'.phase = .creating (.insertWatcher w) := by
  cases turn with
  | quiet phase before idle => cases idle.symm.trans call
  | took w =>
    cases call
    exact Or.inr ⟨w, rfl, Option.some.inj creates, rfl⟩
  | creating before _ _ at_ moves | releasing before _ _ at_ moves
  | canceling _ before _ _ at_ moves =>
    cases call
    refine Or.inl ⟨before, by rw [at_]; rfl, ?_⟩
    rcases HubMaps.access_after moves with ⟨w, rfl, rfl⟩ | ⟨id, range, rfl, rfl⟩ | ⟨range, rfl⟩ | rfl
    · exact creates
    · cases creates
    · cases creates
    · cases creates
  | cancels watchId | drains watchId =>
    cases call
    rcases hub.cancelWatch_cases watchId with ⟨w, -, result⟩ | ⟨-, result⟩ <;>
      rw [result] at creates <;> cases creates
  | _ => cases call

/-- An insertion is only under way right after its id has been taken. -/
theorem inserts (turn : Turn hub st hub' st') {w : Watcher}
    (call : st'.phase.call = some (.insertWatcher w)) :
    w.id = hub.nextWatchId ∧ hub' = { hub with nextWatchId := hub.nextWatchId + 1 } ∧
      st'.phase = .creating (.insertWatcher w) := by
  cases turn with
  | quiet phase before idle => cases idle.symm.trans call
  | took w before named =>
    cases call
    exact ⟨named, rfl, rfl⟩
  | creating before after _ _ moves | releasing before after _ _ moves
  | canceling _ before after _ _ moves =>
    cases call
    rcases HubMaps.access_after moves with ⟨_, -, same⟩ | ⟨_, _, -, same⟩ | ⟨_, same⟩ | same <;>
      cases same
  | cancels watchId | drains watchId =>
    rcases hub.cancelWatch_cases watchId with ⟨w, -, result⟩ | ⟨-, result⟩ <;>
      rw [result] at call <;> cases call
  | _ => cases call

/-- A list is about to be filtered right after the watcher has been removed. -/
theorem retains (turn : Turn hub st hub' st') {id : Int} {range : WatchRange}
    (call : st'.phase.call = some (.retainIds id range)) :
    (∃ w, hub.watchers id = some w) ∧ hub'.watchers id = none := by
  cases turn with
  | quiet phase before idle => cases idle.symm.trans call
  | creating before after _ _ moves | releasing before after _ _ moves
  | canceling _ before after _ _ moves =>
    cases call
    rcases HubMaps.access_after moves with ⟨_, -, same⟩ | ⟨_, _, -, same⟩ | ⟨_, same⟩ | same <;>
      cases same
  | cancels watchId | drains watchId =>
    rcases hub.cancelWatch_cases watchId with ⟨w, found, result⟩ | ⟨-, result⟩
    · rw [result] at call ⊢
      cases call
      exact ⟨⟨w, found⟩, Function.update_self _ _ _⟩
    · rw [result] at call
      cases call
  | _ => cases call

/-- A cancellation stays one. -/
theorem cancelCall (turn : Turn hub st hub' st')
    (cancels : ∀ task, st.phase.cancelCall = some task → task.creates = none) {task : HubTask}
    (call : st'.phase.cancelCall = some task) : task.creates = none := by
  cases turn with
  | quiet phase before idle =>
    cases phase with
    | canceling | releasing => cases idle
    | _ => cases call
  | canceling watchId before after _ at_ moves | releasing before after _ at_ moves =>
    cases call
    have nothing := cancels before (by rw [at_]; rfl)
    rcases HubMaps.access_after moves with ⟨w, rfl, rfl⟩ | ⟨id, range, rfl, rfl⟩ | ⟨range, rfl⟩ | rfl
    · exact nothing
    · rfl
    · rfl
    · rfl
  | cancels watchId | drains watchId =>
    cases call
    rcases hub.cancelWatch_cases watchId with ⟨w, -, result⟩ | ⟨-, result⟩ <;> rw [result] <;> rfl
  | _ => cases call

/-- A watcher that appears is held. -/
theorem watchers_held (turn : Turn hub st hub' st')
    (cancels : ∀ task, st.phase.cancelCall = some task → task.creates = none) (id : Int) :
    hub'.watchers id = hub.watchers id ∨ hub'.watchers id = none ∨ st'.phase.held = some id := by
  cases turn with
  | creating task after _ at_ moves =>
    refine (HubMaps.access_watchers moves id).imp_right fun inserted => Or.inr ?_
    obtain ⟨w, rfl, named⟩ := inserted
    cases moves
    exact congrArg some named
  | canceling watchId task after _ at_ moves | releasing task after _ at_ moves =>
    refine (HubMaps.access_watchers moves id).imp_right fun inserted => ?_
    obtain ⟨w, rfl, -⟩ := inserted
    cases cancels (.insertWatcher w) (by rw [at_]; rfl)
  | cancels watchId | drains watchId =>
    rw [HubMaps.watchers_cancelWatch]
    split_ifs
    · exact Or.inr (Or.inl rfl)
    · exact Or.inl rfl
  | _ => exact Or.inl rfl

/-- A watch leaves the table and the hands of the task once its watcher is gone, unless the task is
abandoned. -/
theorem keeps (turn : Turn hub st hub' st')
    (acknowledges : ∀ id, st.phase = .acknowledging id → st'.phase ≠ .ended) {id : Int}
    (before : id ∈ st.activeWatches ∨ st.phase.held = some id) (alive : hub'.watchers id ≠ none)
    (gone : ∀ task, st.phase = .canceling id task → hub.watchers id = none) :
    id ∈ st'.activeWatches ∨ st'.phase.held = some id := by
  cases turn with
  | quiet phase none | took w none => exact Or.inl (before.resolve_right (by rw [none]; simp))
  | creating task after _ at_ moves =>
    refine before.imp_right fun holds => ?_
    rw [at_] at holds
    cases task with
    | pushId watchId range =>
      cases moves
      exact holds
    | created => cases moves
    | _ => cases holds
  | created watchId at_ =>
    rw [at_] at before
    exact before
  | acknowledged watchId at_ =>
    rw [at_] at before
    refine Or.inl (Finset.mem_insert.mpr ?_)
    exact before.symm.imp_left fun same => (Option.some.inj same).symm
  | abandoned watchId at_ => exact absurd rfl (acknowledges watchId at_)
  | canceled watchId result at_ =>
    have apart : id ≠ watchId := fun same => alive (gone _ (same ▸ at_))
    rw [at_] at before
    exact Or.inl (Finset.mem_erase.mpr ⟨apart, before.resolve_right (by simp [StreamPhase.held])⟩)
  | drains watchId at_ =>
    rw [HubMaps.watchers_cancelWatch] at alive
    have apart : id ≠ watchId := fun same => alive (if_pos same)
    rw [at_] at before
    exact Or.inl (Finset.mem_erase.mpr ⟨apart, before.resolve_right (by simp [StreamPhase.held])⟩)
  | cancels _ at_ | canceling _ _ _ _ at_ | releasing _ _ _ at_ | finished at_ =>
    rw [at_] at before
    exact Or.inl (before.resolve_right (by simp [StreamPhase.held]))

/-- A cancellation on request has removed the watcher. -/
theorem canceling_gone (turn : Turn hub st hub' st')
    (cancels : ∀ task, st.phase.cancelCall = some task → task.creates = none) {id : Int}
    {task : HubTask} (at_ : st'.phase = .canceling id task)
    (gone : ∀ task, st.phase = .canceling id task → hub.watchers id = none) :
    hub'.watchers id = none := by
  cases turn with
  | quiet phase before idle =>
    subst at_
    cases idle
  | cancels watchId =>
    cases at_
    rw [HubMaps.watchers_cancelWatch, if_pos rfl]
  | canceling watchId before after _ was moves =>
    cases at_
    rcases HubMaps.access_watchers moves id with same | ⟨w, rfl, -⟩
    · rw [same, gone before was]
    · cases cancels (.insertWatcher w) (by rw [was]; rfl)
  | _ => cases at_

/-- A task ends with an empty table, unless it is abandoned. -/
theorem ended_empty (turn : Turn hub st hub' st')
    (acknowledges : ∀ id, st.phase = .acknowledging id → st'.phase ≠ .ended)
    (ended : st'.phase = .ended) : st'.activeWatches = ∅ := by
  cases turn with
  | quiet phase _ _ _ running => exact absurd ended running
  | abandoned watchId at_ => exact absurd rfl (acknowledges watchId at_)
  | finished at_ empty => exact empty
  | _ => cases ended

end Turn

end WatchStream

/-! ### All streams -/

/-- The maps of the hub, the streams, and which of them has taken an id. -/
structure WatchStreams where
  hub : HubMaps
  streams : Nat → WatchStream
  creator : Int → Option Nat

/-- A task makes a step, or the channels of the watchers are used. -/
inductive StreamsAction
  | task (stream : Nat) (event : StreamEvent)
  | events (channels : Int → Watcher → Channel WatchEvent)

namespace WatchStreams

def new : WatchStreams := ⟨.new, fun _ => .opened, fun _ => none⟩

/-- A creation that has just taken its id. -/
def creatorAfter (creator : Int → Option Nat) (stream : Nat) : StreamPhase → Int → Option Nat
  | .creating (.insertWatcher w) => Function.update creator w.id (some stream)
  | _ => creator

def step (s : WatchStreams) : StreamsAction → Option WatchStreams
  | .task stream event =>
    match (s.streams stream).step s.hub event with
    | none => none
    | some (hub, after) =>
      some ⟨hub, Function.update s.streams stream after, creatorAfter s.creator stream after.phase⟩
  | .events channels =>
    some { s with
      hub := { s.hub with
        watchers := fun id => (s.hub.watchers id).map fun w => { w with channel := channels id w } } }

theorem creatorAfter_eq {creator : Int → Option Nat} {i : Nat} {phase : StreamPhase}
    (idle : ∀ w, phase ≠ .creating (.insertWatcher w)) : creatorAfter creator i phase = creator := by
  unfold creatorAfter
  split
  · exact absurd rfl (idle _)
  · rfl

/-- A task has made a step. -/
structure Moved (s : WatchStreams) (i : Nat) (t : WatchStreams) : Prop where
  turn : (s.streams i).Turn s.hub t.hub (t.streams i)
  others : ∀ j, j ≠ i → t.streams j = s.streams j
  creator : t.creator = creatorAfter s.creator i (t.streams i).phase

theorem step_task {s t : WatchStreams} {i : Nat} {event : StreamEvent}
    (moves : s.step (.task i event) = some t) :
    (s.streams i).step s.hub event = some (t.hub, t.streams i) ∧ s.Moved i t := by
  simp only [step] at moves
  split at moves
  · cases moves
  · rename_i hub after stepped
    cases moves
    simp only [Function.update_self]
    refine ⟨stepped, ?_, fun j apart => Function.update_of_ne apart _ _, ?_⟩
    · simp only [Function.update_self]
      exact WatchStream.turn_of_step stepped
    · simp only [Function.update_self]

/-! ### Whose watch it is -/

/-- What a task has in hand is its own. -/
structure Owned (s : WatchStreams) : Prop where
  unborn : ∀ id, s.hub.nextWatchId ≤ id → s.creator id = none
  watched : ∀ id w, s.hub.watchers id = some w → s.creator id ≠ none
  active : ∀ i, ∀ id ∈ (s.streams i).activeWatches, s.creator id = some i
  held : ∀ i id, (s.streams i).phase.held = some id → s.creator id = some i
  creating : ∀ i task id, (s.streams i).phase.call = some task → task.creates = some id →
    s.creator id = some i
  inserting : ∀ i w, (s.streams i).phase.call = some (.insertWatcher w) →
    s.hub.watchers w.id = none
  /-- The watcher of a cancellation is gone, and nobody will insert it again. -/
  retaining : ∀ i id range, (s.streams i).phase.call = some (.retainIds id range) →
    s.creator id ≠ none ∧ s.hub.watchers id = none ∧
      ∀ j w, (s.streams j).phase.call = some (.insertWatcher w) → w.id ≠ id

namespace Owned

theorem new : Owned new where
  unborn _ _ := rfl
  watched _ _ found := by cases found
  active _ _ member := absurd member (Finset.notMem_empty _)
  held _ _ holds := by cases holds
  creating _ _ _ call := by cases call
  inserting _ _ call := by cases call
  retaining _ _ _ call := by cases call

variable {s t : WatchStreams} {i : Nat}

/-- An id keeps the stream that took it. -/
theorem creator_eq (owned : s.Owned) (moved : s.Moved i t) {id : Int} (taken : s.creator id ≠ none) :
    t.creator id = s.creator id := by
  rw [moved.creator]
  by_cases takes : ∃ w, (t.streams i).phase = .creating (.insertWatcher w)
  · obtain ⟨w, phase⟩ := takes
    have named := (moved.turn.inserts (by rw [phase]; rfl)).1
    rw [phase]
    refine Function.update_of_ne (fun same => taken ?_) _ _
    exact owned.unborn id (le_of_eq (named.symm.trans same.symm))
  · rw [creatorAfter_eq fun w phase => takes ⟨w, phase⟩]

theorem creator_of_some (owned : s.Owned) (moved : s.Moved i t) {id : Int} {j : Nat}
    (taken : s.creator id = some j) : t.creator id = some j := by
  rw [owned.creator_eq moved (by rw [taken]; exact Option.some_ne_none j), taken]

theorem absent (owned : s.Owned) {id : Int} (free : s.creator id = none) :
    s.hub.watchers id = none := by
  cases found : s.hub.watchers id with
  | none => rfl
  | some w => exact absurd free (owned.watched id w found)

/-- The stream that inserts a watcher has taken its id. -/
theorem creator_of_insert (moved : s.Moved i t) {w : Watcher}
    (phase : (t.streams i).phase = .creating (.insertWatcher w)) : t.creator w.id = some i := by
  rw [moved.creator, phase]
  exact Function.update_self _ _ _

/-- An id has its stream already, or the task that has moved takes it just now. -/
theorem creator_or (owned : s.Owned) (moved : s.Moved i t) {id : Int} {k : Nat}
    (taken : t.creator id = some k) :
    s.creator id = some k ∨ k = i ∧ t.hub.watchers id = none := by
  by_cases free : s.creator id = none
  · by_cases takes : ∃ w, (t.streams i).phase = .creating (.insertWatcher w)
    · obtain ⟨w, phase⟩ := takes
      rw [moved.creator, phase] at taken
      change Function.update s.creator w.id (some i) id = some k at taken
      by_cases same : id = w.id
      · rw [same, Function.update_self] at taken
        refine Or.inr ⟨(Option.some.inj taken).symm, ?_⟩
        rw [(moved.turn.inserts (by rw [phase]; rfl)).2.1]
        exact owned.absent free
      · rw [Function.update_of_ne same] at taken
        exact Or.inl taken
    · rw [moved.creator, creatorAfter_eq fun w phase => takes ⟨w, phase⟩] at taken
      exact Or.inl taken
  · exact Or.inl ((owned.creator_eq moved free).symm.trans taken)

/-- A watcher that was not there is inserted by the task that has moved. -/
theorem watchers_or (owned : s.Owned) (moved : s.Moved i t) (id : Int) :
    t.hub.watchers id = s.hub.watchers id ∨ t.hub.watchers id = none ∨ s.creator id = some i := by
  refine (moved.turn.watchers id).imp_right (Or.imp_right fun inserted => ?_)
  obtain ⟨w, call, named⟩ := inserted
  exact owned.creating i _ id call (congrArg some named)

/-- A step of a task. -/
theorem moved (owned : s.Owned) (moved : s.Moved i t) : t.Owned where
  unborn id above := by
    rcases moved.turn.nextWatchId with same | ⟨w, phase, next⟩
    · rw [moved.creator, creatorAfter_eq]
      · exact owned.unborn id (same ▸ above)
      · intro w phase
        have stays := (moved.turn.inserts (by rw [phase]; rfl)).2.1
        rw [stays] at same
        simp at same
    · have named := (moved.turn.inserts (by rw [phase]; rfl)).1
      rw [next] at above
      rw [moved.creator, phase]
      have apart : id ≠ w.id := by omega
      exact (Function.update_of_ne apart _ _).trans (owned.unborn id (by omega))
  watched id w found := by
    rcases owned.watchers_or moved id with same | gone | own
    · rw [same] at found
      rw [owned.creator_eq moved (owned.watched id w found)]
      exact owned.watched id w found
    · cases gone.symm.trans found
    · rw [owned.creator_of_some moved own]
      exact Option.some_ne_none i
  active j id member := by
    by_cases same : j = i
    · subst same
      rcases moved.turn.active member with before | holds
      · exact owned.creator_of_some moved (owned.active j id before)
      · exact owned.creator_of_some moved (owned.held j id holds)
    · rw [moved.others j same] at member
      exact owned.creator_of_some moved (owned.active j id member)
  held j id holds := by
    by_cases same : j = i
    · subst same
      rcases moved.turn.held holds with before | ⟨w, call, rfl⟩
      · exact owned.creator_of_some moved (owned.held j id before)
      · exact owned.creator_of_some moved (owned.creating j _ _ call rfl)
    · rw [moved.others j same] at holds
      exact owned.creator_of_some moved (owned.held j id holds)
  creating j task id call creates := by
    by_cases same : j = i
    · subst same
      rcases moved.turn.creates call creates with ⟨before, call, creates⟩ | ⟨w, -, rfl, phase⟩
      · exact owned.creator_of_some moved (owned.creating j before id call creates)
      · exact creator_of_insert moved phase
    · rw [moved.others j same] at call
      exact owned.creator_of_some moved (owned.creating j task id call creates)
  inserting j w call := by
    by_cases same : j = i
    · subst same
      obtain ⟨named, hub, -⟩ := moved.turn.inserts call
      rw [hub]
      exact owned.absent (owned.unborn w.id (le_of_eq named.symm))
    · rw [moved.others j same] at call
      have absent := owned.inserting j w call
      rcases owned.watchers_or moved w.id with old | gone | own
      · rw [old, absent]
      · exact gone
      · have mine := owned.creating j _ w.id call rfl
        exact absurd (Option.some.inj (mine.symm.trans own)) same
  retaining j id range call := by
    have inserts : s.creator id ≠ none → (∀ k w, k ≠ i →
        (s.streams k).phase.call = some (.insertWatcher w) → w.id ≠ id) →
        ∀ k w, (t.streams k).phase.call = some (.insertWatcher w) → w.id ≠ id := by
      intro taken apart k w call
      by_cases same : k = i
      · subst same
        have named := (moved.turn.inserts call).1
        exact fun same => taken (owned.unborn id (by omega))
      · rw [moved.others k same] at call
        exact apart k w same call
    by_cases same : j = i
    · subst same
      obtain ⟨⟨w, found⟩, gone⟩ := moved.turn.retains call
      have taken := owned.watched id w found
      refine ⟨by rwa [owned.creator_eq moved taken], gone, inserts taken fun k w' _ call same => ?_⟩
      have absent := owned.inserting k w' call
      rw [same] at absent
      cases absent.symm.trans found
    · rw [moved.others j same] at call
      obtain ⟨taken, absent, apart⟩ := owned.retaining j id range call
      refine ⟨by rwa [owned.creator_eq moved taken], ?_, inserts taken fun k w' _ => apart k w'⟩
      rcases moved.turn.watchers id with old | gone | ⟨w, inserting, named⟩
      · rw [old, absent]
      · exact gone
      · exact absurd named (apart i w inserting)

/-- The channels of the watchers are used. -/
theorem events (owned : s.Owned) {channels : Int → Watcher → Channel WatchEvent}
    (moves : s.step (.events channels) = some t) : t.Owned := by
  cases moves
  exact {
    unborn := owned.unborn
    watched := fun id w found => by
      obtain ⟨before, found, -⟩ := Option.map_eq_some_iff.mp found
      exact owned.watched id before found
    active := owned.active
    held := owned.held
    creating := owned.creating
    inserting := fun i w call => Option.map_eq_none_iff.mpr (owned.inserting i w call)
    retaining := fun i id range call =>
      have ⟨taken, absent, apart⟩ := owned.retaining i id range call
      ⟨taken, Option.map_eq_none_iff.mpr absent, apart⟩ }

theorem step (owned : s.Owned) {action : StreamsAction} (moves : s.step action = some t) :
    t.Owned := by
  cases action with
  | task stream event => exact owned.moved (step_task moves).2
  | events channels => exact owned.events moves

end Owned

/-! ### Isolation -/

/-- A step of a task leaves every watcher of another stream in the map, as it is, and in its list. -/
def Isolated (s : WatchStreams) : StreamsAction → Prop
  | .task i event => ∀ t, s.step (.task i event) = some t → ∀ j id w, s.creator id = some j → j ≠ i →
      s.hub.watchers id = some w → t.hub.watchers id = some w ∧
        ∀ range, (listed t.hub.keyWatchers range).count id =
          (listed s.hub.keyWatchers range).count id
  | .events _ => True

/-- A cancel message names no watcher of another stream, and a list that is removed has none on it. -/
def OwnOnly (s : WatchStreams) : StreamsAction → Prop
  | .task i (.receive (.cancelRequest watchId) _) => (s.streams i).phase = .receiving →
      ∀ w, s.hub.watchers watchId = some w → s.creator watchId = some i
  | .task i .proceed => ∀ range, (s.streams i).phase.call = some (.removeRange range) →
      ∀ id ∈ listed s.hub.keyWatchers range, ∀ w, s.hub.watchers id = some w → s.creator id = some i
  | _ => True

variable {s t : WatchStreams}

theorem isolated_of_ownOnly (owned : s.Owned) {action : StreamsAction} (own : s.OwnOnly action) :
    s.Isolated action := by
  cases action with
  | events channels => trivial
  | task i event =>
    intro t moves j id w taken apart found
    have foreign : s.creator id ≠ some i := fun mine => apart (Option.some.inj (taken.symm.trans mine))
    obtain ⟨stepped, -⟩ := step_task moves
    rcases WatchStream.hub_of_step stepped with
      ⟨watchers, lists⟩ | ⟨watchId, result, which⟩ | ⟨rfl, task, after, call, accessed⟩
    · rw [watchers, lists]
      exact ⟨found, fun _ => rfl⟩
    · have other : id ≠ watchId := by
        rintro rfl
        rcases which with active | ⟨at_, revision, rfl⟩
        · exact foreign (owned.active i id active)
        · exact foreign (own at_ w found)
      rw [result, HubMaps.watchers_cancelWatch, if_neg other, HubMaps.keyWatchers_cancelWatch]
      exact ⟨found, fun _ => rfl⟩
    · have other : task.mentions ≠ some id := by
        intro mentions
        cases task with
        | insertWatcher w => exact foreign (owned.creating i _ id call mentions)
        | pushId watchId range => exact foreign (owned.creating i _ id call mentions)
        | retainIds watchId range =>
          cases mentions
          cases (owned.retaining i id range call).2.1.symm.trans found
        | removeRange | created | canceled => cases mentions
      have kept : ∀ range, task = .removeRange range → id ∉ listed s.hub.keyWatchers range := by
        rintro range rfl member
        exact foreign (own range call id member w found)
      obtain ⟨same, lists⟩ := HubMaps.access_frame accessed other kept
      exact ⟨same.trans found, lists⟩

theorem step_of_stream {i : Nat} {event : StreamEvent} {hub : HubMaps} {after : WatchStream}
    (stepped : (s.streams i).step s.hub event = some (hub, after)) :
    ∃ t, s.step (.task i event) = some t ∧ t.hub = hub :=
  ⟨⟨hub, Function.update s.streams i after, creatorAfter s.creator i after.phase⟩,
    by simp only [step, stepped], rfl⟩

theorem ownOnly_of_isolated (owned : s.Owned) {action : StreamsAction} (isolated : s.Isolated action) :
    s.OwnOnly action := by
  cases action with
  | events channels => trivial
  | task i event =>
    -- A watcher that is not the stream's own is another one's.
    have others : ∀ t, s.step (.task i event) = some t → ∀ id w, s.hub.watchers id = some w →
        (t.hub.watchers id = some w → ∃ range, (listed t.hub.keyWatchers range).count id ≠
          (listed s.hub.keyWatchers range).count id) → s.creator id = some i := by
      intro t moves id w found altered
      obtain ⟨j, taken⟩ := Option.ne_none_iff_exists'.mp (owned.watched id w found)
      by_contra foreign
      have apart : j ≠ i := fun same => foreign (same ▸ taken)
      obtain ⟨stays, lists⟩ := isolated t moves j id w taken apart found
      obtain ⟨range, differs⟩ := altered stays
      exact differs (lists range)
    cases event with
    | receive message revision =>
      cases message with
      | cancelRequest watchId =>
        intro at_ w found
        have stepped : (s.streams i).step s.hub (.receive (.cancelRequest watchId) revision) =
            some ((s.hub.cancelWatch watchId).1,
              ⟨.canceling watchId (s.hub.cancelWatch watchId).2, (s.streams i).activeWatches⟩) := by
          simp only [WatchStream.step, at_, WatchStream.onMessage]
        obtain ⟨t, moves, hub⟩ := step_of_stream stepped
        refine others t moves watchId w found fun stays => ?_
        rw [hub, HubMaps.watchers_cancelWatch, if_pos rfl] at stays
        cases stays
      | createRequest | progressRequest | noRequest | closed | failed => trivial
    | proceed =>
      intro range call id member w found
      obtain ⟨after, stepped⟩ := WatchStream.proceed_of_access call (HubMaps.access.eq_4 s.hub range)
      obtain ⟨t, moves, hub⟩ := step_of_stream stepped
      refine others t moves id w found fun _ => ⟨range, ?_⟩
      rw [hub, listed_update, if_pos rfl]
      exact (List.count_pos_iff.mpr member).ne
    | send delivered => trivial
    | drain watchId => trivial

/-- **Streams leave each other's watchers alone**, whatever they are sent and however they take turns,
exactly if no cancel message names a watcher of another stream and no list is removed with a watcher
of another stream on it. -/
theorem isolated_iff (actions : List StreamsAction) :
    Along step Isolated new actions ↔ Along step OwnOnly new actions :=
  ⟨Along.of_invariant (fun _ _ _ moves _ owned => Owned.step owned moves)
      (fun _ _ owned => ownOnly_of_isolated owned) Owned.new,
    Along.of_invariant (fun _ _ _ moves _ owned => Owned.step owned moves)
      (fun _ _ owned => isolated_of_ownOnly owned) Owned.new⟩

/-- A stream creates the watch of a key and acknowledges it, or fails to. -/
def watchOn (stream : Nat) (key : Bytes) (delivered : Bool) : List StreamsAction :=
  [.task stream (.receive (.createRequest key [] 0 []) 1), .task stream .proceed,
    .task stream .proceed, .task stream .proceed, .task stream (.send delivered)]

/-- **A watch of another stream is canceled**: the first stream watches a key under the id 1, and the
second one asks to cancel 1. -/
theorem foreign_watch_canceled :
    ∃ s t, runFrom step new (watchOn 0 [97] true) = some s ∧
      s.step (.task 1 (.receive (.cancelRequest 1) 1)) = some t ∧
      s.creator 1 = some 0 ∧ (s.hub.watchers 1).isSome = true ∧ t.hub.watchers 1 = none ∧
      ¬ Along step Isolated new (watchOn 0 [97] true ++ [.task 1 (.receive (.cancelRequest 1) 1)]) := by
  refine ⟨_, _, rfl, rfl, rfl, rfl, rfl, fun isolated => ?_⟩
  have last := isolated.last rfl
  cases (last _ rfl 0 1 _ rfl (by decide) rfl).1

/-! ### Leaks -/

/-- A watcher of the stream is in its table or in its hands. -/
structure Accounted (s : WatchStreams) (i : Nat) : Prop where
  kept : ∀ id, s.hub.watchers id ≠ none → s.creator id = some i →
    id ∈ (s.streams i).activeWatches ∨ (s.streams i).phase.held = some id
  canceling : ∀ id task, (s.streams i).phase = .canceling id task → s.creator id = some i →
    s.hub.watchers id = none
  cancels : ∀ task, (s.streams i).phase.cancelCall = some task → task.creates = none
  ended : (s.streams i).phase = .ended → (s.streams i).activeWatches = ∅

/-- Every acknowledgment of the stream is sent. -/
def Acknowledges (i : Nat) (s : WatchStreams) : StreamsAction → Prop
  | .task j (.send delivered) =>
    j = i → (s.streams i).phase.acknowledges = true → delivered = true
  | _ => True

instance (i : Nat) (s : WatchStreams) : ∀ action, Decidable (Acknowledges i s action)
  | .task j (.send delivered) => inferInstanceAs (Decidable
      (j = i → (s.streams i).phase.acknowledges = true → delivered = true))
  | .task _ (.receive _ _) | .task _ .proceed | .task _ (.drain _) | .events _ => .isTrue trivial

namespace Accounted

variable {i : Nat}

theorem new (i : Nat) : Accounted new i where
  kept _ alive := absurd rfl alive
  canceling _ _ at_ := by cases at_
  cancels _ call := by cases call
  ended at_ := by cases at_

/-- A step of another stream. -/
theorem other {j : Nat} (accounted : s.Accounted i) (owned : s.Owned) (moved : s.Moved j t)
    (apart : i ≠ j) : t.Accounted i := by
  have stream := moved.others i apart
  have before : ∀ id, t.creator id = some i → s.creator id = some i := fun id taken =>
    (owned.creator_or moved taken).resolve_right fun mine => apart mine.1
  have watchers : ∀ id, s.creator id = some i →
      t.hub.watchers id = s.hub.watchers id ∨ t.hub.watchers id = none := fun id taken =>
    (owned.watchers_or moved id).imp_right fun gone => gone.resolve_right fun mine =>
      apart (Option.some.inj (taken.symm.trans mine))
  exact {
    kept := fun id alive taken => by
      rw [stream]
      rcases watchers id (before id taken) with same | gone
      · exact accounted.kept id (same ▸ alive) (before id taken)
      · exact absurd gone alive
    canceling := fun id task at_ taken => by
      rw [stream] at at_
      rcases watchers id (before id taken) with same | gone
      · exact same.trans (accounted.canceling id task at_ (before id taken))
      · exact gone
    cancels := by
      rw [stream]
      exact accounted.cancels
    ended := by
      rw [stream]
      exact accounted.ended }

/-- A step of the stream. -/
theorem own (accounted : s.Accounted i) (owned : s.Owned) (moved : s.Moved i t)
    (acknowledges : ∀ id, (s.streams i).phase = .acknowledging id → (t.streams i).phase ≠ .ended) :
    t.Accounted i where
  kept id alive taken := by
    rcases owned.creator_or moved taken with before | ⟨-, fresh⟩
    · rcases moved.turn.watchers_held accounted.cancels id with same | gone | holds
      · exact moved.turn.keeps acknowledges (accounted.kept id (same ▸ alive) before) alive
          fun task at_ => accounted.canceling id task at_ before
      · exact absurd gone alive
      · exact Or.inr holds
    · exact absurd fresh alive
  canceling id task at_ taken := by
    rcases owned.creator_or moved taken with before | ⟨-, fresh⟩
    · exact moved.turn.canceling_gone accounted.cancels at_
        fun task was => accounted.canceling id task was before
    · exact fresh
  cancels _ call := moved.turn.cancelCall accounted.cancels call
  ended at_ := moved.turn.ended_empty acknowledges at_

theorem step (accounted : s.Accounted i) (owned : s.Owned) {action : StreamsAction}
    (acknowledges : Acknowledges i s action) (moves : s.step action = some t) : t.Accounted i := by
  cases action with
  | task j event =>
    obtain ⟨stepped, moved⟩ := step_task moves
    by_cases same : i = j
    · subst same
      refine accounted.own owned moved fun id at_ => ?_
      obtain ⟨delivered, rfl, ends⟩ := WatchStream.acknowledging_step at_ stepped
      exact ends (acknowledges rfl (by rw [at_]; rfl))
    · exact accounted.other owned moved same
  | events channels =>
    cases moves
    exact {
      kept := fun id alive taken =>
        accounted.kept id (fun absent => alive (Option.map_eq_none_iff.mpr absent)) taken
      canceling := fun id task at_ taken =>
        Option.map_eq_none_iff.mpr (accounted.canceling id task at_ taken)
      cancels := accounted.cancels
      ended := accounted.ended }

end Accounted

/-- **A task leaves no watcher behind.** In every run in which each acknowledgment of the stream is
sent, however the streams take turns and whatever becomes of the other sends, no watcher that the
stream has created is left once its task has ended. -/
theorem no_leaked_watchers (i : Nat) (actions : List StreamsAction) (s : WatchStreams)
    (runs : runFrom step new actions = some s) (acknowledges : Along step (Acknowledges i) new actions)
    (ended : (s.streams i).phase = .ended) (id : Int) (alive : s.hub.watchers id ≠ none) :
    s.creator id ≠ some i := by
  have keeps : ∀ (s : WatchStreams) action (next : WatchStreams), s.step action = some next →
      Acknowledges i s action → s.Owned ∧ s.Accounted i → next.Owned ∧ next.Accounted i :=
    fun s action next moves acknowledges holds =>
      ⟨holds.1.step moves, holds.2.step holds.1 acknowledges moves⟩
  obtain ⟨-, accounted⟩ := run_invariant keeps ⟨Owned.new, Accounted.new i⟩ acknowledges runs
  intro taken
  rcases accounted.kept id alive taken with member | holds
  · rw [accounted.ended ended] at member
    exact absurd member (Finset.notMem_empty id)
  · rw [ended] at holds
    cases holds

/-- Two watches, of which the first is canceled before the stream is closed. -/
def twoWatches : List StreamsAction :=
  watchOn 0 [97] true ++ watchOn 0 [98] true ++
    [.task 0 (.receive (.cancelRequest 1) 1), .task 0 .proceed, .task 0 .proceed, .task 0 .proceed,
      .task 0 (.send false), .task 0 (.receive .closed 1), .task 0 (.drain 2), .task 0 .proceed,
      .task 0 .proceed, .task 0 .proceed, .task 0 .proceed]

theorem two_watches_released :
    ∃ s, runFrom step new twoWatches = some s ∧
      ∀ id, s.hub.watchers id ≠ none → s.creator id ≠ some 0 :=
  ⟨_, rfl, no_leaked_watchers 0 twoWatches _ rfl (by decide +kernel) rfl⟩

/-- **Watchers are leaked**: a stream has a watch, its next acknowledgment fails to be sent, the task
ends, and both watchers stay. -/
theorem failed_acknowledgment_leaks :
    ∃ s, runFrom step new (watchOn 0 [97] true ++ watchOn 0 [98] false) = some s ∧
      (s.streams 0).phase = .ended ∧ s.creator 1 = some 0 ∧ s.creator 2 = some 0 ∧
      (s.hub.watchers 1).isSome = true ∧ (s.hub.watchers 2).isSome = true :=
  ⟨_, rfl, rfl, rfl, rfl, rfl, rfl⟩

end WatchStreams

end Rusd
