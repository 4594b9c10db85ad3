/-
**The registry of the watch hub under concurrent calls** (`watch/mod.rs`).

`create_watch` and `cancel_watch` work on two maps, `watchers` and `key_watchers`, and hold the guard
of one of them for one access at a time. Here a call is a task that makes its accesses one by one, in
any order with those of the other calls: a creation takes an id, inserts its watcher and pushes its id
onto the list of the range; a cancellation removes the watcher, filters the list, and if nothing is
left removes the list, after it has let go of it.

* `inv_step` — what one access keeps: every difference between the maps belongs to a call that has
  not returned yet.
* `registry_consistent` — **the maps agree once all calls have returned**, in every run in which no
  list is removed with a watcher on it, and no cancellation filters a list before the creation has
  pushed the id.
* `registration_lost` — how the maps part otherwise: a list goes with a watcher on it.
* `createWatch_alone`, `cancelWatch_alone` — a call that nobody interrupts does what
  `WatchHub.createWatch` and `WatchHub.cancelWatch` do.

The flag of the canceled watcher, which neither map holds any more, is left out.
-/

import Rusd.Lib.Machine
import Rusd.Watch.Hub

namespace Rusd

/-! ### The calls and their accesses -/

/-- Where a call is: the access it makes next, or what it has returned. -/
inductive HubTask
  | insertWatcher (watcher : Watcher)
  | pushId (watchId : Int) (range : WatchRange)
  | retainIds (watchId : Int) (range : WatchRange)
  | removeRange (range : WatchRange)
  | created (result : Except WatchError Int)
  | canceled (result : Except WatchError Unit)

namespace HubTask

def returned : HubTask → Bool
  | created _ | canceled _ => true
  | _ => false

/-- The id that the call is about to enter into the maps. -/
def creates : HubTask → Option Int
  | insertWatcher w => some w.id
  | pushId id _ => some id
  | _ => none

/-- The id that the call has in hand. -/
def mentions : HubTask → Option Int
  | insertWatcher w => some w.id
  | pushId id _ => some id
  | retainIds id _ => some id
  | _ => none

end HubTask

/-- The maps of the hub and its counter. -/
structure HubMaps where
  watchers : Int → Option Watcher
  nextWatchId : Int
  keyWatchers : WatchRange → Option (List Int)

/-- The ids listed under a range. -/
def listed (keyWatchers : WatchRange → Option (List Int)) (range : WatchRange) : List Int :=
  (keyWatchers range).getD []

namespace HubMaps

def new : HubMaps := ⟨fun _ => none, 1, fun _ => none⟩

/-- A creation up to its first access, which takes an id. -/
def createWatch (m : HubMaps) (key rangeEnd : Bytes) (startRevision : Int)
    (filters : List WatchFilter) (channel : Channel WatchEvent) : HubMaps × HubTask :=
  if key = [] then (m, .created (.error (.invalidConfig "Watch key cannot be empty")))
  else
    let watchId := m.nextWatchId
    let watcher : Watcher := ⟨watchId, key, rangeEnd, startRevision, filters, channel, false⟩
    ({ m with nextWatchId := watchId + 1 }, .insertWatcher watcher)

/-- A cancellation up to its first access, which removes the watcher. -/
def cancelWatch (m : HubMaps) (watchId : Int) : HubMaps × HubTask :=
  match m.watchers watchId with
  | none => (m, .canceled (.error (.watchNotFound watchId)))
  | some watcher =>
    ({ m with watchers := Function.update m.watchers watchId none },
      .retainIds watchId watcher.range)

/-- The next access of a call. -/
def access (m : HubMaps) : HubTask → Option (HubMaps × HubTask)
  | .insertWatcher watcher =>
    some ({ m with watchers := Function.update m.watchers watcher.id (some watcher) },
      .pushId watcher.id watcher.range)
  | .pushId watchId range =>
    some ({ m with
        keyWatchers := Function.update m.keyWatchers range
          (some (listed m.keyWatchers range ++ [watchId])) }, .created (.ok watchId))
  | .retainIds watchId range =>
    match m.keyWatchers range with
    | none => some (m, .canceled (.ok ()))
    | some entry =>
      let kept := entry.filter fun id => id ≠ watchId
      some ({ m with keyWatchers := Function.update m.keyWatchers range (some kept) },
        if kept = [] then .removeRange range else .canceled (.ok ()))
  | .removeRange range =>
    some ({ m with keyWatchers := Function.update m.keyWatchers range none }, .canceled (.ok ()))
  | .created _ | .canceled _ => none

theorem createWatch_of_key {m : HubMaps} {key : Bytes} (keyed : key ≠ []) (rangeEnd : Bytes)
    (startRevision : Int) (filters : List WatchFilter) (channel : Channel WatchEvent) :
    m.createWatch key rangeEnd startRevision filters channel =
      ({ m with nextWatchId := m.nextWatchId + 1 }, .insertWatcher
        ⟨m.nextWatchId, key, rangeEnd, startRevision, filters, channel, false⟩) := by
  rw [createWatch, if_neg keyed]

theorem cancelWatch_of_none {m : HubMaps} {watchId : Int} (absent : m.watchers watchId = none) :
    m.cancelWatch watchId = (m, .canceled (.error (.watchNotFound watchId))) := by
  simp only [cancelWatch, absent]

theorem cancelWatch_of_some {m : HubMaps} {watchId : Int} {w : Watcher}
    (found : m.watchers watchId = some w) :
    m.cancelWatch watchId = ({ m with watchers := Function.update m.watchers watchId none },
      .retainIds watchId w.range) := by
  simp only [cancelWatch, found]

theorem cancelWatch_cases (m : HubMaps) (watchId : Int) :
    (∃ w, m.watchers watchId = some w ∧
      m.cancelWatch watchId = ({ m with watchers := Function.update m.watchers watchId none },
        .retainIds watchId w.range)) ∨
      m.watchers watchId = none ∧
        m.cancelWatch watchId = (m, .canceled (.error (.watchNotFound watchId))) := by
  cases found : m.watchers watchId with
  | none => exact Or.inr ⟨rfl, cancelWatch_of_none found⟩
  | some w => exact Or.inl ⟨w, rfl, cancelWatch_of_some found⟩

theorem access_retain_none {m : HubMaps} {range : WatchRange}
    (absent : m.keyWatchers range = none) (watchId : Int) :
    m.access (.retainIds watchId range) = some (m, .canceled (.ok ())) := by
  simp only [access, absent]

theorem access_retain_some {m : HubMaps} {range : WatchRange} {entry : List Int}
    (present : m.keyWatchers range = some entry) (watchId : Int) :
    m.access (.retainIds watchId range) =
      some ({ m with
        keyWatchers := Function.update m.keyWatchers range (some (entry.filter fun id => id ≠ watchId)) },
        if (entry.filter fun id => id ≠ watchId) = [] then .removeRange range
        else .canceled (.ok ())) := by
  simp only [access, present]

/-- The maps after a list has been filtered. -/
theorem access_retain {m maps : HubMaps} {after : HubTask} {range : WatchRange} {watchId : Int}
    (moves : m.access (.retainIds watchId range) = some (maps, after)) :
    ∃ ids, maps = { m with keyWatchers := Function.update m.keyWatchers range ids } ∧
      ids.getD [] = (listed m.keyWatchers range).filter (fun id => id ≠ watchId) ∧
      (after = .removeRange range ∨ after = .canceled (.ok ())) := by
  cases present : m.keyWatchers range with
  | none =>
    cases (access_retain_none present watchId).symm.trans moves
    refine ⟨none, ?_, ?_, Or.inr rfl⟩
    · rw [← present, Function.update_eq_self]
    · rw [listed, present]
      rfl
  | some entry =>
    cases (access_retain_some present watchId).symm.trans moves
    refine ⟨some (entry.filter fun id => id ≠ watchId), rfl, ?_, ?_⟩
    · rw [listed, present]
      rfl
    · split_ifs
      · exact Or.inl rfl
      · exact Or.inr rfl

theorem watchers_cancelWatch (m : HubMaps) (watchId id : Int) :
    (m.cancelWatch watchId).1.watchers id = if id = watchId then none else m.watchers id := by
  rcases m.cancelWatch_cases watchId with ⟨w, -, result⟩ | ⟨absent, result⟩
  · rw [result]
    exact Function.update_apply _ _ _ _
  · rw [result]
    split_ifs with same
    · rw [same, absent]
    · rfl

theorem keyWatchers_cancelWatch (m : HubMaps) (watchId : Int) :
    (m.cancelWatch watchId).1.keyWatchers = m.keyWatchers := by
  rcases m.cancelWatch_cases watchId with ⟨w, -, result⟩ | ⟨-, result⟩ <;> rw [result]

/-- An access puts a watcher into the map only where it inserts it. -/
theorem access_watchers {m maps : HubMaps} {task after : HubTask}
    (moves : m.access task = some (maps, after)) (id : Int) :
    maps.watchers id = m.watchers id ∨ ∃ w, task = .insertWatcher w ∧ w.id = id := by
  cases task with
  | insertWatcher w =>
    cases moves
    by_cases same : id = w.id
    · exact Or.inr ⟨w, rfl, same.symm⟩
    · exact Or.inl (Function.update_of_ne same _ _)
  | retainIds watchId range =>
    obtain ⟨ids, rfl, -⟩ := access_retain moves
    exact Or.inl rfl
  | pushId | removeRange =>
    cases moves
    exact Or.inl rfl
  | created | canceled => cases moves

theorem access_nextWatchId {m maps : HubMaps} {task after : HubTask}
    (moves : m.access task = some (maps, after)) : maps.nextWatchId = m.nextWatchId := by
  cases task with
  | retainIds watchId range =>
    obtain ⟨ids, rfl, -⟩ := access_retain moves
    rfl
  | insertWatcher | pushId | removeRange =>
    cases moves
    rfl
  | created | canceled => cases moves

/-- A call that goes on is one of these. -/
theorem access_after {m maps : HubMaps} {task after : HubTask}
    (moves : m.access task = some (maps, after)) :
    (∃ w, task = .insertWatcher w ∧ after = .pushId w.id w.range) ∨
      (∃ id range, task = .pushId id range ∧ after = .created (.ok id)) ∨
      (∃ range, after = .removeRange range) ∨ after = .canceled (.ok ()) := by
  cases task with
  | insertWatcher w =>
    cases moves
    exact Or.inl ⟨w, rfl, rfl⟩
  | pushId id range =>
    cases moves
    exact Or.inr (Or.inl ⟨id, range, rfl, rfl⟩)
  | retainIds watchId range =>
    obtain ⟨-, -, -, rfl | rfl⟩ := access_retain moves
    · exact Or.inr (Or.inr (Or.inl ⟨range, rfl⟩))
    · exact Or.inr (Or.inr (Or.inr rfl))
  | removeRange range =>
    cases moves
    exact Or.inr (Or.inr (Or.inr rfl))
  | created | canceled => cases moves

end HubMaps

theorem listed_update (keyWatchers : WatchRange → Option (List Int)) (range r : WatchRange)
    (ids : Option (List Int)) :
    listed (Function.update keyWatchers range ids) r =
      if r = range then ids.getD [] else listed keyWatchers r := by
  unfold listed
  split_ifs with same
  · rw [same, Function.update_self]
  · rw [Function.update_of_ne same]

/-- **The frame of an access**: an id that the call has not in hand, unless it removes the list. -/
theorem HubMaps.access_frame {m maps : HubMaps} {task after : HubTask}
    (moves : m.access task = some (maps, after)) {id : Int} (other : task.mentions ≠ some id)
    (kept : ∀ range, task = .removeRange range → id ∉ listed m.keyWatchers range) :
    maps.watchers id = m.watchers id ∧
      ∀ r, (listed maps.keyWatchers r).count id = (listed m.keyWatchers r).count id := by
  cases task with
  | insertWatcher w =>
    cases moves
    have apart : id ≠ w.id := fun same => other (congrArg some same.symm)
    exact ⟨Function.update_of_ne apart _ _, fun r => rfl⟩
  | pushId watchId range =>
    cases moves
    have apart : watchId ≠ id := fun same => other (congrArg some same)
    refine ⟨rfl, fun r => ?_⟩
    rw [listed_update]
    split_ifs with same
    · rw [same, Option.getD_some, List.count_append, List.count_singleton, if_neg (by simpa using apart),
        Nat.add_zero]
    · rfl
  | retainIds watchId range =>
    obtain ⟨ids, rfl, lists, -⟩ := access_retain moves
    have apart : id ≠ watchId := fun same => other (congrArg some same.symm)
    refine ⟨rfl, fun r => ?_⟩
    rw [listed_update]
    split_ifs with same
    · rw [same, lists]
      exact List.count_filter (decide_eq_true apart)
    · rfl
  | removeRange range =>
    cases moves
    refine ⟨rfl, fun r => ?_⟩
    rw [listed_update]
    split_ifs with same
    · rw [same, List.count_eq_zero_of_not_mem (kept range rfl)]
      rfl
    · rfl
  | created | canceled => cases moves

/-- The maps, and the calls that have been made. -/
structure Registry extends HubMaps where
  tasks : List HubTask

/-- A call is made, or the call with this number goes on. -/
inductive RegistryAction
  | createWatch (key rangeEnd : Bytes) (startRevision : Int) (filters : List WatchFilter)
      (channel : Channel WatchEvent)
  | cancelWatch (watchId : Int)
  | resume (call : Nat)

namespace Registry

def new : Registry := ⟨.new, []⟩

def step (s : Registry) : RegistryAction → Option Registry
  | .createWatch key rangeEnd startRevision filters channel =>
    let (maps, task) := s.toHubMaps.createWatch key rangeEnd startRevision filters channel
    some ⟨maps, s.tasks ++ [task]⟩
  | .cancelWatch watchId =>
    let (maps, task) := s.toHubMaps.cancelWatch watchId
    some ⟨maps, s.tasks ++ [task]⟩
  | .resume call =>
    match s.tasks[call]? with
    | none => none
    | some task =>
      match s.access task with
      | none => none
      | some (maps, after) => some ⟨maps, s.tasks.set call after⟩

/-- A call goes on by one access. -/
theorem step_resume {s t : Registry} {call : Nat} (moves : s.step (.resume call) = some t) :
    ∃ task maps after, s.tasks[call]? = some task ∧ s.access task = some (maps, after) ∧
      t = ⟨maps, s.tasks.set call after⟩ := by
  simp only [step] at moves
  split at moves
  · cases moves
  · rename_i task found
    split at moves
    · cases moves
    · rename_i maps after accessed
      cases moves
      exact ⟨task, maps, after, found, accessed, rfl⟩

/-- The maps agree: a watcher is listed once, under its range, nobody else is listed, and no list is
empty. -/
structure Consistent (s : Registry) : Prop where
  once : ∀ id w, s.watchers id = some w → (listed s.keyWatchers w.range).count id = 1
  only : ∀ range id, id ∈ listed s.keyWatchers range → ∃ w, s.watchers id = some w ∧ w.range = range
  nonempty : ∀ range, s.keyWatchers range ≠ some []

/-- An access gets in the way of another call when it removes a list with a watcher on it, or when it
filters a list for an id that the creation has yet to push. -/
def Clear (s : Registry) : HubTask → Prop
  | .retainIds watchId _ => ∀ task ∈ s.tasks, task.creates ≠ some watchId
  | .removeRange range => ∀ id ∈ listed s.keyWatchers range, s.watchers id = none
  | _ => True

def Undisturbed (s : Registry) : RegistryAction → Prop
  | .resume call => ∀ task ∈ s.tasks[call]?, s.Clear task
  | _ => True

instance (s : Registry) : ∀ task, Decidable (s.Clear task)
  | .retainIds watchId _ =>
    inferInstanceAs (Decidable (∀ task ∈ s.tasks, task.creates ≠ some watchId))
  | .removeRange range =>
    inferInstanceAs (Decidable (∀ id ∈ listed s.keyWatchers range, s.watchers id = none))
  | .insertWatcher _ | .pushId _ _ | .created _ | .canceled _ => .isTrue trivial

instance (s : Registry) : ∀ action, Decidable (s.Undisturbed action)
  | .resume call => inferInstanceAs (Decidable (∀ task ∈ s.tasks[call]?, s.Clear task))
  | .createWatch _ _ _ _ _ | .cancelWatch _ => .isTrue trivial

/-! ### What holds between the accesses -/

/-- The tasks account for every difference of the two maps. -/
structure Inv (s : Registry) : Prop where
  /-- No two creations have the same id. -/
  creating : (s.tasks.filterMap HubTask.creates).Nodup
  /-- An id that has not been handed out is nowhere. -/
  unborn : ∀ id, s.nextWatchId ≤ id → s.watchers id = none ∧
    (∀ range, id ∉ listed s.keyWatchers range) ∧ ∀ task ∈ s.tasks, task.mentions ≠ some id
  inserting : ∀ w, .insertWatcher w ∈ s.tasks → s.watchers w.id = none ∧
    (∀ range, w.id ∉ listed s.keyWatchers range) ∧ ∀ range, .retainIds w.id range ∉ s.tasks
  /-- A creation that has yet to push finds its watcher there, or canceled in the meantime. -/
  pushing : ∀ id range, .pushId id range ∈ s.tasks → (∀ r, id ∉ listed s.keyWatchers r) ∧
    ((∃ w, s.watchers id = some w ∧ w.range = range) ∨
      s.watchers id = none ∧ .retainIds id range ∈ s.tasks)
  watching : ∀ id w, s.watchers id = some w →
    .pushId id w.range ∈ s.tasks ∨ (listed s.keyWatchers w.range).count id = 1
  listing : ∀ range id, id ∈ listed s.keyWatchers range →
    (∃ w, s.watchers id = some w ∧ w.range = range) ∨ .retainIds id range ∈ s.tasks
  retaining : ∀ id range, .retainIds id range ∈ s.tasks → s.watchers id = none
  removing : ∀ range, s.keyWatchers range = some [] → .removeRange range ∈ s.tasks

namespace Inv

variable {watchers : Int → Option Watcher} {nextWatchId : Int}
  {keyWatchers : WatchRange → Option (List Int)} {tasks others : List HubTask}

theorem new : Inv new where
  creating := List.nodup_nil
  unborn _ _ := ⟨rfl, fun _ => List.not_mem_nil, fun _ member => absurd member List.not_mem_nil⟩
  inserting _ member := absurd member List.not_mem_nil
  pushing _ _ member := absurd member List.not_mem_nil
  watching _ _ found := by cases found
  listing _ _ member := absurd member List.not_mem_nil
  retaining _ _ member := absurd member List.not_mem_nil
  removing _ found := by cases found

/-- The order of the calls makes no difference. -/
theorem perm (inv : Inv ⟨⟨watchers, nextWatchId, keyWatchers⟩, tasks⟩) (same : tasks.Perm others) :
    Inv ⟨⟨watchers, nextWatchId, keyWatchers⟩, others⟩ where
  creating := (same.filterMap _).nodup_iff.mp inv.creating
  unborn id above :=
    have ⟨absent, unlisted, unmentioned⟩ := inv.unborn id above
    ⟨absent, unlisted, fun task member => unmentioned task (same.mem_iff.mpr member)⟩
  inserting w member := by
    simpa only [same.mem_iff] using inv.inserting w (same.mem_iff.mpr member)
  pushing id range member := by
    simpa only [same.mem_iff] using inv.pushing id range (same.mem_iff.mpr member)
  watching id w found := by simpa only [same.mem_iff] using inv.watching id w found
  listing range id member := by simpa only [same.mem_iff] using inv.listing range id member
  retaining id range member := inv.retaining id range (same.mem_iff.mpr member)
  removing range found := same.mem_iff.mp (inv.removing range found)

/-- No other call is about to enter the id of a creation. -/
theorem creates_ne {task : HubTask} {id : Int} (own : task.creates = some id)
    (inv : Inv ⟨⟨watchers, nextWatchId, keyWatchers⟩, task :: others⟩) :
    ∀ other ∈ others, other.creates ≠ some id := by
  intro other member same
  have nodup := inv.creating
  rw [List.filterMap_cons_some own, List.nodup_cons] at nodup
  exact nodup.1 (List.mem_filterMap.mpr ⟨other, member, same⟩)

/-- A call without an id in hand leaves nothing to be accounted for. -/
theorem quiet {task : HubTask} (idle : task.mentions = none)
    (inv : Inv ⟨⟨watchers, nextWatchId, keyWatchers⟩, others⟩) :
    Inv ⟨⟨watchers, nextWatchId, keyWatchers⟩, task :: others⟩ := by
  have creates : task.creates = none := by cases task <;> first | rfl | cases idle
  have other : ∀ pending : HubTask, pending.mentions.isSome = true →
      (pending ∈ task :: others ↔ pending ∈ others) := by
    intro pending busy
    have apart : pending ≠ task := fun same => by rw [same, idle] at busy; cases busy
    rw [List.mem_cons, or_iff_right apart]
  have push := fun id range => other (.pushId id range) rfl
  have retain := fun id range => other (.retainIds id range) rfl
  exact {
    creating := by
      rw [List.filterMap_cons_none creates]
      exact inv.creating
    unborn := fun id above =>
      have ⟨absent, unlisted, unmentioned⟩ := inv.unborn id above
      ⟨absent, unlisted, List.forall_mem_cons.mpr ⟨by simp [idle], unmentioned⟩⟩
    inserting := fun w member => by
      simpa only [retain] using inv.inserting w ((other _ rfl).mp member)
    pushing := fun id range member => by
      simpa only [retain] using inv.pushing id range ((other _ rfl).mp member)
    watching := fun id w found => by simpa only [push] using inv.watching id w found
    listing := fun range id member => by simpa only [retain] using inv.listing range id member
    retaining := fun id range member => inv.retaining id range ((other _ rfl).mp member)
    removing := fun range found => List.mem_cons_of_mem _ (inv.removing range found) }

/-- A creation takes an id. -/
theorem took {w : Watcher} (named : w.id = nextWatchId)
    (inv : Inv ⟨⟨watchers, nextWatchId, keyWatchers⟩, others⟩) :
    Inv ⟨⟨watchers, nextWatchId + 1, keyWatchers⟩, .insertWatcher w :: others⟩ := by
  obtain ⟨absent, unlisted, unmentioned⟩ := inv.unborn w.id (named ▸ le_rfl)
  exact {
    creating := by
      refine List.nodup_cons.mpr ⟨fun member => ?_, inv.creating⟩
      obtain ⟨task, present, creates⟩ := List.mem_filterMap.mp member
      refine unmentioned task present ?_
      cases task <;> first | exact creates | cases creates
    unborn := fun id above => by
      have above : nextWatchId + 1 ≤ id := above
      obtain ⟨absent, unlisted, unmentioned⟩ := inv.unborn id (Int.le_of_lt above)
      have apart : some w.id ≠ some id := fun same => by
        have equal := Option.some.inj same
        omega
      exact ⟨absent, unlisted, List.forall_mem_cons.mpr ⟨apart, unmentioned⟩⟩
    inserting := fun w' member => by
      rcases List.mem_cons.mp member with same | before
      · cases same
        exact ⟨absent, unlisted, fun range retained => by
          rcases List.mem_cons.mp retained with same | retained
          · cases same
          · exact unmentioned _ retained rfl⟩
      · simpa using inv.inserting w' before
    pushing := fun id range member => by
      simpa using inv.pushing id range (by simpa using member)
    watching := fun id w found => by simpa using inv.watching id w found
    listing := fun range id member => by simpa using inv.listing range id member
    retaining := fun id range member => inv.retaining id range (by simpa using member)
    removing := fun range found => List.mem_cons_of_mem _ (inv.removing range found) }

/-- A creation inserts its watcher. -/
theorem inserted {w : Watcher}
    (inv : Inv ⟨⟨watchers, nextWatchId, keyWatchers⟩, .insertWatcher w :: others⟩) :
    Inv ⟨⟨Function.update watchers w.id (some w), nextWatchId, keyWatchers⟩,
      .pushId w.id w.range :: others⟩ := by
  obtain ⟨absent, unlisted, unretained⟩ := inv.inserting w List.mem_cons_self
  have alone := inv.creates_ne rfl
  have frame : ∀ id, id ≠ w.id → Function.update watchers w.id (some w) id = watchers id :=
    fun id apart => Function.update_of_ne apart _ _
  exact {
    creating := inv.creating
    unborn := fun id above => by
      obtain ⟨absent, unlisted, unmentioned⟩ := inv.unborn id above
      obtain ⟨own, unmentioned⟩ := List.forall_mem_cons.mp unmentioned
      refine ⟨?_, unlisted, List.forall_mem_cons.mpr ⟨own, unmentioned⟩⟩
      exact (frame id fun same => own (congrArg some same.symm)).trans absent
    inserting := fun w' member => by
      have before : .insertWatcher w' ∈ others := by simpa using member
      have apart : w'.id ≠ w.id := fun same => alone _ before (congrArg some same)
      obtain ⟨absent, unlisted, unretained⟩ := inv.inserting w' (List.mem_cons_of_mem _ before)
      exact ⟨(frame _ apart).trans absent, unlisted, by simpa using unretained⟩
    pushing := fun id range member => by
      rcases List.mem_cons.mp member with same | before
      · cases same
        exact ⟨unlisted, Or.inl ⟨w, Function.update_self _ _ _, rfl⟩⟩
      · have apart : id ≠ w.id := fun same => alone _ before (congrArg some same)
        simpa [frame id apart] using inv.pushing id range (List.mem_cons_of_mem _ before)
    watching := fun id w' found => by
      by_cases same : id = w.id
      · subst same
        cases (Function.update_self w.id (some w) watchers).symm.trans found
        exact Or.inl List.mem_cons_self
      · rcases inv.watching id w' ((frame id same).symm.trans found) with push | once
        · exact Or.inl (List.mem_cons_of_mem _ (by simpa using push))
        · exact Or.inr once
    listing := fun range id member => by
      have apart : id ≠ w.id := fun same => unlisted range (same ▸ member)
      simpa [frame id apart] using inv.listing range id member
    retaining := fun id range member => by
      have before : .retainIds id range ∈ others := by simpa using member
      have apart : id ≠ w.id := fun same =>
        unretained range (same ▸ List.mem_cons_of_mem _ before)
      exact (frame id apart).trans (inv.retaining id range (List.mem_cons_of_mem _ before))
    removing := fun range found => by simpa using inv.removing range found }

/-- A creation pushes its id. -/
theorem pushed {id : Int} {range : WatchRange}
    (inv : Inv ⟨⟨watchers, nextWatchId, keyWatchers⟩, .pushId id range :: others⟩) :
    Inv ⟨⟨watchers, nextWatchId,
      Function.update keyWatchers range (some (listed keyWatchers range ++ [id]))⟩, others⟩ := by
  obtain ⟨unlisted, there⟩ := inv.pushing id range List.mem_cons_self
  have alone := inv.creates_ne rfl
  have lists : ∀ r, listed (Function.update keyWatchers range
      (some (listed keyWatchers range ++ [id]))) r =
        listed keyWatchers r ++ if r = range then [id] else [] := by
    intro r
    rw [listed_update]
    split_ifs with same
    · rw [same]
      rfl
    · exact (List.append_nil _).symm
  have frame : ∀ other, other ≠ id → ∀ r, (listed (Function.update keyWatchers range
      (some (listed keyWatchers range ++ [id]))) r).count other =
        (listed keyWatchers r).count other := by
    intro other apart r
    rw [lists, List.count_append, Nat.add_eq_left, List.count_eq_zero]
    split_ifs
    · simpa using apart
    · exact List.not_mem_nil
  have old : ∀ other, other ≠ id → ∀ r, (other ∈ listed (Function.update keyWatchers range
      (some (listed keyWatchers range ++ [id]))) r ↔ other ∈ listed keyWatchers r) := by
    intro other apart r
    rw [← List.count_pos_iff, ← List.count_pos_iff, frame other apart]
  exact {
    creating := (List.nodup_cons.mp inv.creating).2
    unborn := fun other above => by
      obtain ⟨absent, unlisted, unmentioned⟩ := inv.unborn other above
      obtain ⟨own, unmentioned⟩ := List.forall_mem_cons.mp unmentioned
      have apart : other ≠ id := fun same => own (congrArg some same.symm)
      exact ⟨absent, fun r => (old other apart r).not.mpr (unlisted r), unmentioned⟩
    inserting := fun w member => by
      have apart : w.id ≠ id := fun same => alone _ member (congrArg some same)
      obtain ⟨absent, unlisted, unretained⟩ := inv.inserting w (List.mem_cons_of_mem _ member)
      exact ⟨absent, fun r => (old _ apart r).not.mpr (unlisted r), fun r retained =>
        unretained r (List.mem_cons_of_mem _ retained)⟩
    pushing := fun other r member => by
      have apart : other ≠ id := fun same => alone _ member (congrArg some same)
      obtain ⟨unlisted, there⟩ := inv.pushing other r (List.mem_cons_of_mem _ member)
      exact ⟨fun r => (old other apart r).not.mpr (unlisted r), by simpa using there⟩
    watching := fun other w found => by
      by_cases same : other = id
      · subst same
        rcases there with ⟨w', present, ranged⟩ | ⟨absent, -⟩
        · cases present.symm.trans found
          refine Or.inr ?_
          rw [lists, if_pos ranged, List.count_append, List.count_eq_zero.mpr (unlisted _)]
          simp
        · cases absent.symm.trans found
      · rw [frame other same]
        exact (inv.watching other w found).imp_left fun push => by simpa [same] using push
    listing := fun r other member => by
      by_cases same : other = id
      · subst same
        rw [lists, List.mem_append, or_iff_right (unlisted r)] at member
        split_ifs at member with ranged
        · subst ranged
          exact there.imp_right fun gone => by simpa using gone.2
        · cases member
      · simpa using inv.listing r other ((old other same r).mp member)
    retaining := fun other r member => inv.retaining other r (List.mem_cons_of_mem _ member)
    removing := fun r found => by
      by_cases same : r = range
      · subst same
        exact absurd ((Function.update_self _ _ _).symm.trans found) (by simp)
      · simpa using inv.removing r ((Function.update_of_ne same _ _).symm.trans found) }

/-- A cancellation takes the watcher out. -/
theorem removed {id : Int} {w : Watcher} (found : watchers id = some w)
    (inv : Inv ⟨⟨watchers, nextWatchId, keyWatchers⟩, others⟩) :
    Inv ⟨⟨Function.update watchers id none, nextWatchId, keyWatchers⟩,
      .retainIds id w.range :: others⟩ := by
  have frame : ∀ other, other ≠ id → Function.update watchers id none other = watchers other :=
    fun other apart => Function.update_of_ne apart _ _
  have gone : Function.update watchers id none id = none := Function.update_self _ _ _
  have apart : ∀ other, watchers other = none → other ≠ id := by
    intro other absent same
    cases (same ▸ absent).symm.trans found
  exact {
    creating := inv.creating
    unborn := fun other above => by
      obtain ⟨absent, unlisted, unmentioned⟩ := inv.unborn other above
      have apart := apart other absent
      refine ⟨(frame other apart).trans absent, unlisted, List.forall_mem_cons.mpr ⟨?_, unmentioned⟩⟩
      exact fun same => apart (Option.some.inj same).symm
    inserting := fun w' member => by
      obtain ⟨absent, unlisted, unretained⟩ := inv.inserting w' (by simpa using member)
      have apart := apart w'.id absent
      exact ⟨(frame _ apart).trans absent, unlisted, by simpa [apart] using unretained⟩
    pushing := fun other r member => by
      obtain ⟨unlisted, there⟩ := inv.pushing other r (by simpa using member)
      refine ⟨unlisted, ?_⟩
      by_cases same : other = id
      · subst same
        rcases there with ⟨w', present, ranged⟩ | ⟨absent, -⟩
        · cases present.symm.trans found
          exact Or.inr ⟨gone, ranged ▸ List.mem_cons_self⟩
        · cases absent.symm.trans found
      · simpa [frame other same, same] using there
    watching := fun other w' present => by
      by_cases same : other = id
      · subst same
        cases gone.symm.trans present
      · simpa using inv.watching other w' ((frame other same).symm.trans present)
    listing := fun r other member => by
      by_cases same : other = id
      · subst same
        rcases inv.listing r other member with ⟨w', present, ranged⟩ | retained
        · cases present.symm.trans found
          exact Or.inr (ranged ▸ List.mem_cons_self)
        · exact Or.inr (List.mem_cons_of_mem _ retained)
      · simpa [frame other same, same] using inv.listing r other member
    retaining := fun other r member => by
      by_cases same : other = id
      · subst same
        exact gone
      · exact (frame other same).trans (inv.retaining other r (by simpa [same] using member))
    removing := fun r present => List.mem_cons_of_mem _ (inv.removing r present) }

/-- A list loses ids that have no watcher. -/
theorem shrunk {range : WatchRange} {ids : Option (List Int)}
    (inv : Inv ⟨⟨watchers, nextWatchId, keyWatchers⟩, tasks⟩)
    (fewer : (ids.getD []).Sublist (listed keyWatchers range))
    (kept : ∀ id w, watchers id = some w →
      (ids.getD []).count id = (listed keyWatchers range).count id)
    (handled : ids = some [] → .removeRange range ∈ tasks) :
    Inv ⟨⟨watchers, nextWatchId, Function.update keyWatchers range ids⟩, tasks⟩ := by
  have before : ∀ r id, id ∈ listed (Function.update keyWatchers range ids) r →
      id ∈ listed keyWatchers r := by
    intro r id member
    rw [listed_update] at member
    split_ifs at member with same
    · exact same ▸ fewer.subset member
    · exact member
  exact {
    creating := inv.creating
    unborn := fun id above =>
      have ⟨absent, unlisted, unmentioned⟩ := inv.unborn id above
      ⟨absent, fun r member => unlisted r (before r id member), unmentioned⟩
    inserting := fun w member =>
      have ⟨absent, unlisted, unretained⟩ := inv.inserting w member
      ⟨absent, fun r member => unlisted r (before r w.id member), unretained⟩
    pushing := fun id r member =>
      have ⟨unlisted, there⟩ := inv.pushing id r member
      ⟨fun r member => unlisted r (before r id member), there⟩
    watching := fun id w found => by
      refine (inv.watching id w found).imp_right fun once => ?_
      rw [listed_update]
      split_ifs with same
      · rw [kept id w found, ← same, once]
      · exact once
    listing := fun r id member => inv.listing r id (before r id member)
    retaining := inv.retaining
    removing := fun r found => by
      by_cases same : r = range
      · subst same
        exact handled ((Function.update_self r ids keyWatchers).symm.trans found)
      · exact inv.removing r ((Function.update_of_ne same _ _).symm.trans found) }

/-- A cancellation is through when nobody lists the id, or will. -/
theorem settled {id : Int} {range : WatchRange}
    (inv : Inv ⟨⟨watchers, nextWatchId, keyWatchers⟩, .retainIds id range :: others⟩)
    (unlisted : id ∉ listed keyWatchers range) (clear : ∀ task ∈ others, task.creates ≠ some id) :
    Inv ⟨⟨watchers, nextWatchId, keyWatchers⟩, others⟩ where
  creating := inv.creating
  unborn other above :=
    have ⟨absent, unlisted, unmentioned⟩ := inv.unborn other above
    ⟨absent, unlisted, (List.forall_mem_cons.mp unmentioned).2⟩
  inserting w member :=
    have ⟨absent, unlisted, unretained⟩ := inv.inserting w (List.mem_cons_of_mem _ member)
    ⟨absent, unlisted, fun r retained => unretained r (List.mem_cons_of_mem _ retained)⟩
  pushing other r member := by
    have apart : other ≠ id := fun same => clear _ member (congrArg some same)
    simpa [apart] using inv.pushing other r (List.mem_cons_of_mem _ member)
  watching other w found := by simpa using inv.watching other w found
  listing r other member := by
    refine (inv.listing r other member).imp_right fun retained => ?_
    rcases List.mem_cons.mp retained with same | retained
    · cases same
      exact absurd member unlisted
    · exact retained
  retaining other r member := inv.retaining other r (List.mem_cons_of_mem _ member)
  removing r found := by simpa using inv.removing r found

/-- There is no need to remove a list that is not there, or not empty. -/
theorem unneeded {range : WatchRange}
    (inv : Inv ⟨⟨watchers, nextWatchId, keyWatchers⟩, .removeRange range :: others⟩)
    (filled : keyWatchers range ≠ some []) : Inv ⟨⟨watchers, nextWatchId, keyWatchers⟩, others⟩ where
  creating := inv.creating
  unborn other above :=
    have ⟨absent, unlisted, unmentioned⟩ := inv.unborn other above
    ⟨absent, unlisted, (List.forall_mem_cons.mp unmentioned).2⟩
  inserting w member := by simpa using inv.inserting w (List.mem_cons_of_mem _ member)
  pushing other r member := by simpa using inv.pushing other r (List.mem_cons_of_mem _ member)
  watching other w found := by simpa using inv.watching other w found
  listing r other member := by simpa using inv.listing r other member
  retaining other r member := inv.retaining other r (List.mem_cons_of_mem _ member)
  removing r found := by
    rcases List.mem_cons.mp (inv.removing r found) with same | member
    · cases same
      exact absurd found filled
    · exact member

end Inv

/-- One access of a pending call. -/
theorem inv_access {s : Registry} {maps : HubMaps} {task after : HubTask} {others : List HubTask}
    (inv : s.Inv)
    (pending : s.tasks.Perm (task :: others)) (clear : s.Clear task)
    (moves : s.access task = some (maps, after)) : Inv ⟨maps, after :: others⟩ := by
  obtain ⟨⟨watchers, nextWatchId, keyWatchers⟩, tasks⟩ := s
  have before := inv.perm pending
  cases task with
  | insertWatcher w =>
    cases moves
    exact before.inserted
  | pushId id range =>
    cases moves
    exact before.pushed.quiet rfl
  | retainIds id range =>
    have clear : ∀ task ∈ others, task.creates ≠ some id := fun task member =>
      clear task (pending.mem_iff.mpr (List.mem_cons_of_mem _ member))
    have gone : watchers id = none := before.retaining id range List.mem_cons_self
    cases present : keyWatchers range with
    | none =>
      cases (HubMaps.access_retain_none present id).symm.trans moves
      refine (before.settled ?_ clear).quiet rfl
      rw [listed, present]
      exact List.not_mem_nil
    | some entry =>
      cases (HubMaps.access_retain_some present id).symm.trans moves
      have entries : listed keyWatchers range = entry := by rw [listed, present]; rfl
      have spare : Inv ⟨⟨watchers, nextWatchId, keyWatchers⟩,
          .retainIds id range :: .removeRange range :: others⟩ :=
        Inv.perm (before.quiet rfl) (List.Perm.swap _ _ _)
      have filtered : Inv ⟨⟨watchers, nextWatchId, Function.update keyWatchers range
          (some (entry.filter fun other => other ≠ id))⟩, .removeRange range :: others⟩ := by
        refine (spare.shrunk ?_ ?_ fun _ => by simp).settled ?_ ?_
        · rw [entries]
          exact List.filter_sublist
        · intro other w found
          rw [entries]
          refine List.count_filter (decide_eq_true fun same => ?_)
          cases (same ▸ found).symm.trans gone
        · rw [listed_update, if_pos rfl]
          simp
        · exact List.forall_mem_cons.mpr ⟨by simp [HubTask.creates], clear⟩
      by_cases empty : (entry.filter fun other => other ≠ id) = []
      · rw [if_pos empty]
        exact filtered
      · rw [if_neg empty]
        refine (filtered.unneeded ?_).quiet rfl
        rw [Function.update_self]
        exact fun same => empty (Option.some.inj same)
  | removeRange range =>
    cases moves
    have gone : Inv ⟨⟨watchers, nextWatchId, Function.update keyWatchers range none⟩,
        .removeRange range :: others⟩ := by
      refine before.shrunk (List.nil_sublist _) ?_ (by simp)
      intro id w found
      refine (List.count_eq_zero.mpr fun member => ?_).symm
      cases (clear id member).symm.trans found
    exact (gone.unneeded (by simp)).quiet rfl
  | created result => cases moves
  | canceled result => cases moves

theorem perm_set {tasks : List HubTask} {call : Nat} {task : HubTask}
    (found : tasks[call]? = some task) (after : HubTask) :
    tasks.Perm (task :: tasks.eraseIdx call) ∧
      (tasks.set call after).Perm (after :: tasks.eraseIdx call) := by
  obtain ⟨inside, rfl⟩ := List.getElem?_eq_some_iff.mp found
  refine ⟨(List.getElem_cons_eraseIdx_perm inside).symm, ?_⟩
  have moved := (List.getElem_cons_eraseIdx_perm (l := tasks.set call after) (n := call)
    (by rwa [List.length_set])).symm
  rwa [List.getElem_set_self, List.eraseIdx_set_eq] at moved

/-- The first access of a creation. -/
theorem inv_createWatch {s : Registry} (inv : s.Inv) (key rangeEnd : Bytes) (startRevision : Int)
    (filters : List WatchFilter) (channel : Channel WatchEvent) :
    Inv ⟨(s.createWatch key rangeEnd startRevision filters channel).1,
      (s.createWatch key rangeEnd startRevision filters channel).2 :: s.tasks⟩ := by
  by_cases keyed : key = []
  · rw [HubMaps.createWatch, if_pos keyed]
    exact inv.quiet rfl
  · rw [HubMaps.createWatch_of_key keyed]
    exact inv.took rfl

/-- The first access of a cancellation. -/
theorem inv_cancelWatch {s : Registry} (inv : s.Inv) (watchId : Int) :
    Inv ⟨(s.cancelWatch watchId).1, (s.cancelWatch watchId).2 :: s.tasks⟩ := by
  cases found : s.watchers watchId with
  | none =>
    rw [HubMaps.cancelWatch_of_none found]
    exact inv.quiet rfl
  | some w =>
    rw [HubMaps.cancelWatch_of_some found]
    exact inv.removed found

/-- What one access keeps, when it gets in nobody's way. -/
theorem inv_step {s t : Registry} {action : RegistryAction} (inv : s.Inv)
    (undisturbed : s.Undisturbed action) (moves : s.step action = some t) : t.Inv := by
  cases action with
  | createWatch key rangeEnd startRevision filters channel =>
    cases moves
    exact (inv_createWatch inv key rangeEnd startRevision filters channel).perm
      (List.perm_append_singleton _ _).symm
  | cancelWatch watchId =>
    cases moves
    exact (inv_cancelWatch inv watchId).perm (List.perm_append_singleton _ _).symm
  | resume call =>
    obtain ⟨task, maps, after, found, accessed, rfl⟩ := step_resume moves
    obtain ⟨before, now⟩ := perm_set found after
    exact (inv_access inv before (undisturbed task found) accessed).perm now.symm

/-- With every call returned the tasks account for nothing. -/
theorem Inv.consistent {s : Registry} (inv : s.Inv)
    (returned : ∀ task ∈ s.tasks, task.returned = true) : s.Consistent where
  once id w found := (inv.watching id w found).resolve_left fun push => by cases returned _ push
  only range id member := (inv.listing range id member).resolve_right fun retained => by
    cases returned _ retained
  nonempty range found := by cases returned _ (inv.removing range found)

/-- **The maps agree once all calls have returned**, whatever the order of their accesses, if no list
is removed with a watcher on it and no list is filtered for an id that is yet to be pushed. -/
theorem registry_consistent (actions : List RegistryAction) (s : Registry)
    (runs : runFrom step new actions = some s) (undisturbed : Along step Undisturbed new actions)
    (returned : ∀ task ∈ s.tasks, task.returned = true) : s.Consistent :=
  (run_invariant (fun _ _ _ moves clear inv => inv_step inv clear moves) Inv.new undisturbed
    runs).consistent returned

/-- A creation of a watch on one key. -/
def watchKey (key : Bytes) : RegistryAction := .createWatch key [] 1 [] (.new 256)

/-- Two creations for one key that take turns, and the cancellation of the first watch. -/
def twoForOneKey : List RegistryAction :=
  [watchKey [97], watchKey [97], .resume 1, .resume 0, .resume 0, .resume 1, .cancelWatch 1, .resume 2]

theorem two_for_one_key_consistent :
    ∃ s, runFrom step new twoForOneKey = some s ∧ (s.watchers 2).isSome = true ∧ s.Consistent :=
  ⟨_, rfl, rfl, registry_consistent twoForOneKey _ rfl (by decide +kernel) (by decide +kernel)⟩

/-- **A registration is lost.** The cancellation of the only watch of a key has emptied the list and
let go of it; a new watch of the key is pushed onto the list, and then the list is removed. -/
theorem registration_lost :
    ∃ s, runFrom step new [watchKey [97], .resume 0, .resume 0, .cancelWatch 1, .resume 1,
        watchKey [97], .resume 2, .resume 2, .resume 1] = some s ∧
      (∀ task ∈ s.tasks, task.returned = true) ∧ (s.watchers 2).isSome = true ∧
      s.keyWatchers ⟨[97], []⟩ = none ∧ ¬ s.Consistent := by
  refine ⟨_, rfl, by decide +kernel, rfl, by decide +kernel, fun agree => ?_⟩
  exact absurd (agree.once 2 _ rfl) (by decide +kernel)

/-! ### A call that nobody interrupts -/

/-- The registry holds what the hub holds. -/
structure Shows (s : Registry) (hub : WatchHub) : Prop where
  watchers : s.watchers = hub.watchers
  nextWatchId : s.nextWatchId = hub.nextWatchId
  keyWatchers : ∀ range, s.keyWatchers range = hub.keyWatchers.lookup range

theorem lookup_cons (e : WatchRange × List Int) (rest : List (WatchRange × List Int))
    (r : WatchRange) :
    (e :: rest).lookup r = if r = e.1 then some e.2 else rest.lookup r := by
  rw [List.lookup_cons]
  split_ifs with same
  · rw [same, beq_self_eq_true]
  · rw [beq_false_of_ne same]

theorem lookup_register (range : WatchRange) (id : Int) (entries : List (WatchRange × List Int)) :
    (register range id entries).lookup range = some ((entries.lookup range).getD [] ++ [id]) := by
  induction entries with
  | nil =>
    rw [register, lookup_cons, if_pos rfl]
    rfl
  | cons e rest ih =>
    rw [register, lookup_cons]
    by_cases own : e.1 = range
    · rw [if_pos own, if_pos own.symm, lookup_cons, if_pos own.symm]
      rfl
    · rw [if_neg own, if_neg (Ne.symm own), lookup_cons, if_neg (Ne.symm own), ih]

theorem lookup_register_ne {range r : WatchRange} (apart : r ≠ range) (id : Int)
    (entries : List (WatchRange × List Int)) :
    (register range id entries).lookup r = entries.lookup r := by
  induction entries with
  | nil =>
    rw [register, lookup_cons, if_neg apart]
  | cons e rest ih =>
    rw [register]
    split_ifs with own
    · rw [lookup_cons, lookup_cons]
      simp only [own, if_neg apart]
    · rw [lookup_cons, lookup_cons, ih]

/-- A range that is not listed is not found. -/
theorem lookup_eq_none {r : WatchRange} {entries : List (WatchRange × List Int)}
    (unlisted : r ∉ entries.map Prod.fst) : entries.lookup r = none := by
  rw [List.lookup_eq_none_iff]
  intro e member
  exact bne_iff_ne.mpr fun same => unlisted (List.mem_map.mpr ⟨e, member, same.symm⟩)

theorem lookup_unregister {range : WatchRange} {id : Int} {entries : List (WatchRange × List Int)}
    (nodup : (entries.map Prod.fst).Nodup) :
    (unregister range id entries).lookup range =
      match entries.lookup range with
      | some ids =>
        if (ids.filter fun other => other ≠ id) = [] then none
        else some (ids.filter fun other => other ≠ id)
      | none => none := by
  induction entries with
  | nil => rfl
  | cons e rest ih =>
    rw [List.map_cons, List.nodup_cons] at nodup
    rw [unregister, lookup_cons]
    by_cases own : e.1 = range
    · rw [if_pos own, if_pos own.symm]
      simp only
      split_ifs with empty
      · exact lookup_eq_none (own ▸ nodup.1)
      · rw [lookup_cons, if_pos own.symm]
    · rw [if_neg own, if_neg (Ne.symm own), lookup_cons, if_neg (Ne.symm own), ih nodup.2]

theorem lookup_unregister_ne {range r : WatchRange} (apart : r ≠ range) (id : Int)
    (entries : List (WatchRange × List Int)) :
    (unregister range id entries).lookup r = entries.lookup r := by
  induction entries with
  | nil => rfl
  | cons e rest ih =>
    rw [unregister, lookup_cons]
    split_ifs with own empty same same
    · exact absurd (same.trans own) apart
    · rfl
    · exact absurd (same.trans own) apart
    · rw [lookup_cons, if_neg same]
    · rw [lookup_cons, if_pos ‹_›]
    · rw [lookup_cons, if_neg ‹_›, ih]

/-- The last call goes on. -/
theorem step_last {watchers : Int → Option Watcher} {nextWatchId : Int}
    {keyWatchers : WatchRange → Option (List Int)} {tasks : List HubTask} {task after : HubTask}
    {maps : HubMaps}
    (moves : HubMaps.access ⟨watchers, nextWatchId, keyWatchers⟩ task = some (maps, after)) :
    step ⟨⟨watchers, nextWatchId, keyWatchers⟩, tasks ++ [task]⟩ (.resume tasks.length) =
      some ⟨maps, tasks ++ [after]⟩ := by
  have set : (tasks ++ [task]).set tasks.length after = tasks ++ [after] := by simp
  simp only [step, List.getElem?_concat_length, moves, set]

/-- A creation that nobody interrupts. -/
theorem createWatch_alone {s : Registry} {hub hub' : WatchHub} (shows : s.Shows hub)
    {key rangeEnd : Bytes} {startRevision : Int} {filters : List WatchFilter}
    {channel : Channel WatchEvent} {watchId : Int}
    (created : hub.createWatch key rangeEnd startRevision filters channel = .ok (watchId, hub')) :
    ∃ t, runFrom step s [.createWatch key rangeEnd startRevision filters channel,
        .resume s.tasks.length, .resume s.tasks.length] = some t ∧
      t.tasks = s.tasks ++ [.created (.ok watchId)] ∧ t.Shows hub' := by
  obtain ⟨⟨watchers, nextWatchId, keyWatchers⟩, tasks⟩ := s
  obtain ⟨rfl, rfl, lists⟩ := shows
  change ∀ range, keyWatchers range = hub.keyWatchers.lookup range at lists
  unfold WatchHub.createWatch at created
  split_ifs at created with empty
  cases created
  let w : Watcher := ⟨hub.nextWatchId, key, rangeEnd, startRevision, filters, channel, false⟩
  refine ⟨⟨⟨Function.update hub.watchers w.id (some w), hub.nextWatchId + 1,
    Function.update keyWatchers w.range (some (listed keyWatchers w.range ++ [w.id]))⟩,
    tasks ++ [.created (.ok w.id)]⟩, ?_, rfl, ?_, rfl, ?_⟩
  · have starts : step ⟨⟨hub.watchers, hub.nextWatchId, keyWatchers⟩, tasks⟩
        (.createWatch key rangeEnd startRevision filters channel) =
          some ⟨⟨hub.watchers, hub.nextWatchId + 1, keyWatchers⟩, tasks ++ [.insertWatcher w]⟩ := by
      simp only [step, HubMaps.createWatch_of_key empty, w]
    exact runFrom_step starts (runFrom_step (step_last rfl) (runFrom_step (step_last rfl) rfl))
  · funext id
    exact Function.update_apply _ _ _ _
  · intro range
    simp only
    by_cases same : range = w.range
    · rw [same, Function.update_self, listed, lists]
      exact (lookup_register _ _ _).symm
    · rw [Function.update_of_ne same, lists]
      exact (lookup_register_ne same _ _).symm

/-- A cancellation that nobody interrupts. -/
theorem cancelWatch_alone {s : Registry} {hub hub' : WatchHub} (shows : s.Shows hub) {watchId : Int}
    (canceled : hub.cancelWatch watchId = .ok hub') :
    ∃ accesses t, runFrom step s
        (.cancelWatch watchId :: List.replicate accesses (.resume s.tasks.length)) = some t ∧
      t.tasks = s.tasks ++ [.canceled (.ok ())] ∧ t.Shows hub' := by
  obtain ⟨⟨watchers, nextWatchId, keyWatchers⟩, tasks⟩ := s
  obtain ⟨rfl, rfl, lists⟩ := shows
  change ∀ range, keyWatchers range = hub.keyWatchers.lookup range at lists
  unfold WatchHub.cancelWatch at canceled
  split at canceled
  · cases canceled
  · rename_i w found
    cases canceled
    have starts : step ⟨⟨hub.watchers, hub.nextWatchId, keyWatchers⟩, tasks⟩ (.cancelWatch watchId) =
        some ⟨⟨Function.update hub.watchers watchId none, hub.nextWatchId, keyWatchers⟩,
          tasks ++ [.retainIds watchId w.range]⟩ := by
      have removes : HubMaps.cancelWatch ⟨hub.watchers, hub.nextWatchId, keyWatchers⟩ watchId = _ :=
        HubMaps.cancelWatch_of_some found
      simp only [step, removes]
    have gone : Function.update hub.watchers watchId none =
        fun id => if id = watchId then none else hub.watchers id := by
      funext id
      exact Function.update_apply _ _ _ _
    have shown : ∀ ids : Option (List Int),
        ids = (unregister w.range watchId hub.keyWatchers).lookup w.range → ∀ range,
        Function.update keyWatchers w.range ids range =
          (unregister w.range watchId hub.keyWatchers).lookup range := by
      intro ids own range
      by_cases same : range = w.range
      · rw [same, Function.update_self, own]
      · rw [Function.update_of_ne same, lookup_unregister_ne same, lists]
    have own : (unregister w.range watchId hub.keyWatchers).lookup w.range = _ :=
      lookup_unregister hub.ranges
    rw [← lists] at own
    cases present : keyWatchers w.range with
    | none =>
      rw [present] at own
      refine ⟨1, _, runFrom_step starts (runFrom_step (step_last (HubMaps.access_retain_none present _)) rfl),
        rfl, gone, rfl, ?_⟩
      rw [← Function.update_eq_self w.range keyWatchers, present]
      exact shown none own.symm
    | some entry =>
      rw [present] at own
      have retains : step ⟨⟨Function.update hub.watchers watchId none, hub.nextWatchId, keyWatchers⟩,
          tasks ++ [.retainIds watchId w.range]⟩ (.resume tasks.length) = _ :=
        step_last (HubMaps.access_retain_some present watchId)
      simp only at own
      by_cases empty : (entry.filter fun id => id ≠ watchId) = []
      · rw [if_pos empty] at own retains
        refine ⟨2, _, runFrom_step starts (runFrom_step retains (runFrom_step (step_last rfl) rfl)),
          rfl, gone, rfl, ?_⟩
        simp only [Function.update_idem]
        exact shown none own.symm
      · rw [if_neg empty] at own retains
        exact ⟨1, _, runFrom_step starts (runFrom_step retains rfl), rfl, gone, rfl,
          shown _ own.symm⟩

end Registry

end Rusd
