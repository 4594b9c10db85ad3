/-
**The writes of a leader with their notifications** (`api/kv_service.rs`).

The handlers of `KvService`, over the leader's state and the watch hub: after the store call a `put`
tells the hub of the new record, a `delete_range` of the deleted ones, and so do the operations of a
transaction.

* `Mirrors` — a handler with its notifications answers what it answers without them, and leaves the
  same leader behind; so what was proved of the handlers stays true.
* `deletion_told` — the deletions. The event of a deletion carries the deleted record as it was, with
  the revision that wrote it and not the one that deleted it. No watcher that is to be told of a
  deletion is told of it at its revision; one that starts after the last write of the key is not
  told at all.
-/

import Rusd.Api.Replica
import Rusd.Watch.Hub

namespace Rusd

/-- A leader and its watch hub. -/
structure Serving where
  leader : Leader
  hub : WatchHub

/-- A request handler that also notifies. -/
abbrev WatchedM := Exec Serving Status

/-- A part of a handler that does not notify. -/
def onLeader {α : Type} (m : ServiceM α) : WatchedM α where
  run st := ((m.run st.leader).1, { st with leader := (m.run st.leader).2 })

/-- Notify the watchers; `KvService` passes 0 for the compact revision. -/
def notifyHub (events : List Event) (revision : Int) : WatchedM Unit :=
  Exec.update fun st => { st with hub := st.hub.notify events revision 0 }

/-! ### The handlers -/

/-- The event of a put. -/
def putEvent (kv : KeyValue) (oldKv : Option KeyValue) : Event := ⟨.put, kv, oldKv⟩

/-- The event of a deletion, as `KvService` builds it: both records are the deleted one. -/
def deleteEvent (kv : KeyValue) : Event := ⟨.delete, kv, some kv⟩

def notifyDeleted (delRevision : Int) (deletedKvs : List KeyValue) : WatchedM Unit :=
  if deletedKvs = [] then pure () else notifyHub (deletedKvs.map deleteEvent) delRevision

/-- `KvService::put`. -/
def watchedPut (request : PutRequest) : WatchedM ResponseOp := do
  let (key, value, lease) ← onLeader (planPut request)
  let (newRevision, kv, oldKv) ← onLeader (onStore (MvccStore.put key value lease) "put failed: ")
  notifyHub [putEvent kv oldKv] newRevision
  let revision ← onLeader headerRevision
  pure (.responsePut revision (if request.prevKv then oldKv else none))

/-- `KvService::delete_range`. -/
def watchedDeleteRange (request : DeleteRangeRequest) : WatchedM ResponseOp :=
  if request.key = [] ∧ request.rangeEnd = [] then
    Exec.throw ⟨.invalidArgument, "key must not be empty"⟩
  else do
    let stop := effectiveRangeEnd request.key request.rangeEnd
    let prevKvs ← onLeader (previousKvs request.prevKv request.key stop (fun s => s.currentRevision)
      "failed to get previous values: ")
    onLeader (propose (deleteProposal request.key request.rangeEnd))
    let (delRevision, deleted) ←
      onLeader (onStore (MvccStore.deleteRange request.key stop) "delete failed: ")
    notifyDeleted delRevision deleted
    let revision ← onLeader headerRevision
    pure (.responseDeleteRange revision deleted.length prevKvs)

/-- One operation of a transaction. -/
def watchedOp (currentRevision : Int) : RequestOp → WatchedM ResponseOp
  | .requestRange request => onLeader (executeOp currentRevision (.requestRange request))
  | .requestPut request => do
    let (putRevision, kv, oldKv) ←
      onLeader (onStore (MvccStore.put request.key request.value request.lease) "put in txn failed: ")
    notifyHub [putEvent kv oldKv] putRevision
    let revision ← onLeader headerRevision
    pure (.responsePut revision (if request.prevKv then oldKv else none))
  | .requestDeleteRange request => do
    let stop := txnRangeEnd request.key request.rangeEnd
    let prevKvs ← onLeader (previousKvs request.prevKv request.key stop (fun _ => currentRevision)
      "delete in txn failed: ")
    let (delRevision, deleted) ←
      onLeader (onStore (MvccStore.deleteRange request.key stop) "delete in txn failed: ")
    notifyDeleted delRevision deleted
    let revision ← onLeader headerRevision
    pure (.responseDeleteRange revision deleted.length prevKvs)
  | .requestTxn => Exec.throw ⟨.invalidArgument, "nested transactions are not supported"⟩

/-- The operations of a transaction, one after another. -/
def watchedOps (currentRevision : Int) : List (Option RequestOp) → WatchedM (List ResponseOp)
  | [] => pure []
  | none :: rest => watchedOps currentRevision rest
  | some op :: rest => do
    let response ← watchedOp currentRevision op
    let responses ← watchedOps currentRevision rest
    pure (response :: responses)

/-- `KvService::txn`. -/
def watchedTxn (request : TxnRequest) : WatchedM TxnResponse := do
  let currentRevision ← onLeader headerRevision
  let allSucceed ← onLeader (evaluateAll currentRevision request.compare)
  let responses ←
    watchedOps currentRevision (if allSucceed then request.success else request.failure)
  let revision ← onLeader headerRevision
  pure ⟨revision, allSucceed, responses⟩

/-! ### The handlers without their notifications -/

/-- The same answer, and the same leader left behind. -/
def Mirrors {α : Type} (watched : WatchedM α) (plain : ServiceM α) : Prop :=
  ∀ st, (watched.run st).1 = (plain.run st.leader).1 ∧
    (watched.run st).2.leader = (plain.run st.leader).2

namespace Mirrors

variable {α β : Type}

theorem onLeader (m : ServiceM α) : Mirrors (onLeader m) m := fun _ => ⟨rfl, rfl⟩

theorem pure (a : α) : Mirrors (Pure.pure a) (Pure.pure a) := fun _ => ⟨rfl, rfl⟩

theorem throw (e : Status) : Mirrors (α := α) (Exec.throw e) (Exec.throw e) := fun _ => ⟨rfl, rfl⟩

theorem bind {watched : WatchedM α} {plain : ServiceM α} {f : α → WatchedM β} {g : α → ServiceM β}
    (first : Mirrors watched plain) (next : ∀ a, Mirrors (f a) (g a)) :
    Mirrors (watched >>= f) (plain >>= g) := by
  intro st
  obtain ⟨outcome, left⟩ := first st
  rcases ran : watched.run st with ⟨a | e | _, middle⟩ <;> rw [ran] at outcome left <;>
    rcases plainRan : plain.run st.leader with ⟨a' | e' | _, middle'⟩ <;>
    rw [plainRan] at outcome left <;> cases outcome <;> cases left
  · rw [Exec.run_bind_ok ran, Exec.run_bind_ok plainRan]
    exact next a middle
  · rw [Exec.run_bind_err ran, Exec.run_bind_err plainRan]
    exact ⟨rfl, rfl⟩
  · rw [Exec.run_bind_panic ran, Exec.run_bind_panic plainRan]
    exact ⟨rfl, rfl⟩

/-- A step that only notifies. -/
theorem quiet {m : WatchedM Unit} {f : Unit → WatchedM β} {plain : ServiceM β}
    (notifies : ∀ st, (m.run st).1 = .ok () ∧ (m.run st).2.leader = st.leader)
    (next : Mirrors (f ()) plain) : Mirrors (m >>= f) plain := by
  intro st
  obtain ⟨returns, leader⟩ := notifies st
  have first : m.run st = (.ok (), (m.run st).2) := by rw [← returns]
  rw [Exec.run_bind_ok first, ← leader]
  exact next _

theorem notifyHub (events : List Event) (revision : Int) {f : Unit → WatchedM β}
    {plain : ServiceM β} (next : Mirrors (f ()) plain) :
    Mirrors (notifyHub events revision >>= f) plain :=
  quiet (fun _ => ⟨rfl, rfl⟩) next

theorem notifyDeleted (delRevision : Int) (deleted : List KeyValue) {f : Unit → WatchedM β}
    {plain : ServiceM β} (next : Mirrors (f ()) plain) :
    Mirrors (notifyDeleted delRevision deleted >>= f) plain := by
  refine quiet (fun st => ?_) next
  unfold Rusd.notifyDeleted
  split_ifs
  · exact ⟨rfl, rfl⟩
  · exact ⟨rfl, rfl⟩

end Mirrors

theorem watchedPut_mirrors (request : PutRequest) :
    Mirrors (watchedPut request) (servePut request) := by
  refine (Mirrors.onLeader _).bind fun (key, value, lease) => ?_
  refine (Mirrors.onLeader _).bind fun (newRevision, kv, oldKv) => ?_
  exact .notifyHub _ _ ((Mirrors.onLeader _).bind fun revision => .pure _)

theorem watchedDeleteRange_mirrors (request : DeleteRangeRequest) :
    Mirrors (watchedDeleteRange request) (serveDeleteRange request) := by
  unfold watchedDeleteRange serveDeleteRange
  split_ifs
  · exact .throw _
  · refine (Mirrors.onLeader _).bind fun prevKvs => (Mirrors.onLeader _).bind fun _ => ?_
    refine (Mirrors.onLeader _).bind fun (delRevision, deleted) => ?_
    exact .notifyDeleted _ _ ((Mirrors.onLeader _).bind fun revision => .pure _)

theorem watchedOp_mirrors (currentRevision : Int) (op : RequestOp) :
    Mirrors (watchedOp currentRevision op) (executeOp currentRevision op) := by
  cases op with
  | requestRange request => exact .onLeader _
  | requestPut request =>
    refine (Mirrors.onLeader _).bind fun (putRevision, kv, oldKv) => ?_
    exact .notifyHub _ _ ((Mirrors.onLeader _).bind fun revision => .pure _)
  | requestDeleteRange request =>
    refine (Mirrors.onLeader _).bind fun prevKvs => ?_
    refine (Mirrors.onLeader _).bind fun (delRevision, deleted) => ?_
    exact .notifyDeleted _ _ ((Mirrors.onLeader _).bind fun revision => .pure _)
  | requestTxn => exact .throw _

theorem watchedOps_mirrors (currentRevision : Int) (ops : List (Option RequestOp)) :
    Mirrors (watchedOps currentRevision ops) (executeOps currentRevision ops) := by
  induction ops with
  | nil => exact .pure _
  | cons op rest ih =>
    cases op with
    | none => exact ih
    | some op =>
      exact (watchedOp_mirrors currentRevision op).bind fun _ => ih.bind fun _ => .pure _

/-- **Notifications change nothing else** of a transaction. -/
theorem watchedTxn_mirrors (request : TxnRequest) :
    Mirrors (watchedTxn request) (serveTxn request) := by
  refine (Mirrors.onLeader _).bind fun currentRevision => (Mirrors.onLeader _).bind fun succeed => ?_
  refine (watchedOps_mirrors currentRevision _).bind fun responses => ?_
  exact (Mirrors.onLeader _).bind fun revision => .pure _

/-! ### Deletions -/

/-- A deletion that `KvService` executes: a request, or an operation of a transaction that started
at `currentRevision`. -/
inductive DeleteCall
  | handler (request : DeleteRangeRequest)
  | txnOp (currentRevision : Int) (request : DeleteRangeRequest)
  deriving DecidableEq, Repr

namespace DeleteCall

def run : DeleteCall → WatchedM ResponseOp
  | .handler request => watchedDeleteRange request
  | .txnOp currentRevision request => watchedOp currentRevision (.requestDeleteRange request)

/-- The first key of the interval that the store is asked to delete. -/
def start : DeleteCall → Bytes
  | .handler request => request.key
  | .txnOp _ request => request.key

def stop : DeleteCall → Bytes
  | .handler request => effectiveRangeEnd request.key request.rangeEnd
  | .txnOp _ request => txnRangeEnd request.key request.rangeEnd

end DeleteCall

/-- The deletion of `key` at revision `d` concerns the watcher. -/
structure Watcher.Concerned (w : Watcher) (d : Int) (key : Bytes) : Prop where
  active : w.canceled = false
  unfiltered : WatchFilter.noDelete ∉ w.filters
  inside : w.range.contains key = true
  started : w.startRevision ≤ d

/-- Between `w` and `w'` the watcher was sent exactly one delete event of `key`, with the revision
`d`. -/
def Told (w w' : Watcher) (d : Int) (key : Bytes) : Prop :=
  ∃ fresh event, w'.channel.stream = w.channel.stream ++ fresh ∧
    (fresh.flatMap WatchEvent.events).filter
      (fun event => event.eventType = .delete ∧ event.kv.key = key) = [event] ∧
    event.kv.modRevision = d

/-- Every watcher that a deletion concerns was told of it. -/
def DeliversDeletes (hub hub' : WatchHub) (d : Int) (deleted : List KeyValue) : Prop :=
  ∀ kv ∈ deleted, ∀ id w, hub.watchers id = some w → w.Concerned d kv.key →
    ∃ w', hub'.watchers id = some w' ∧ Told w w' d kv.key

variable {st st' : Serving}

theorem run_onLeader {α : Type} {m : ServiceM α} {a : α}
    (returned : (onLeader m).run st = (.ok a, st')) :
    m.run st.leader = (.ok a, st'.leader) ∧ st'.hub = st.hub := by
  unfold onLeader at returned
  simp only [Prod.mk.injEq] at returned
  obtain ⟨outcome, rfl⟩ := returned
  exact ⟨by rw [← outcome], rfl⟩

theorem run_notifyDeleted (d : Int) (deleted : List KeyValue) (st : Serving) :
    (notifyDeleted d deleted).run st =
      (.ok (), { st with hub := st.hub.notify (deleted.map deleteEvent) d 0 }) := by
  unfold notifyDeleted
  split_ifs with none
  · rw [none]
    rfl
  · rfl

/-- The end of both paths: the store call, the notification, the response. -/
theorem delete_notifies {start stop : Bytes} {failure : String} {prevKvs : List KeyValue}
    {response : ResponseOp}
    (returned : (do
      let (delRevision, deleted) ← onLeader (onStore (MvccStore.deleteRange start stop) failure)
      notifyDeleted delRevision deleted
      let revision ← onLeader headerRevision
      pure (ResponseOp.responseDeleteRange revision deleted.length prevKvs) :
        WatchedM ResponseOp).run st = (.ok response, st')) :
    ∃ d deleted, (MvccStore.deleteRange start stop).run st.leader.store =
        (.ok (d, deleted), st'.leader.store) ∧
      st'.hub = st.hub.notify (deleted.map deleteEvent) d 0 := by
  obtain ⟨⟨d, deleted⟩, st₁, called, returned⟩ := Exec.run_bind_eq_ok returned
  obtain ⟨called, hub⟩ := run_onLeader called
  simp only at returned
  rw [Exec.run_bind_ok (run_notifyDeleted d deleted st₁)] at returned
  obtain ⟨revision, st₂, read, returned⟩ := Exec.run_bind_eq_ok returned
  cases read
  cases returned
  obtain ⟨s, ran, leader⟩ := onStore_eq_ok called
  rw [← leader, hub]
  exact ⟨d, deleted, ran, rfl⟩

/-- **What a deletion does**: the store call, then one notification with the deleted records. -/
theorem DeleteCall.notifies {call : DeleteCall} {response : ResponseOp}
    (returned : call.run.run st = (.ok response, st')) :
    ∃ d deleted, (MvccStore.deleteRange call.start call.stop).run st.leader.store =
        (.ok (d, deleted), st'.leader.store) ∧
      st'.hub = st.hub.notify (deleted.map deleteEvent) d 0 := by
  cases call with
  | handler request =>
    rw [run, watchedDeleteRange] at returned
    split_ifs at returned
    · cases returned
    obtain ⟨prevKvs, st₁, read, returned⟩ := Exec.run_bind_eq_ok returned
    obtain ⟨read, hub⟩ := run_onLeader read
    have same := previousKvs_eq_ok read
    obtain ⟨_, st₂, proposed, returned⟩ := Exec.run_bind_eq_ok returned
    obtain ⟨proposed, hub'⟩ := run_onLeader proposed
    injection proposed with _ store
    obtain ⟨d, deleted, called, notified⟩ := delete_notifies returned
    rw [← store, ← same] at called
    exact ⟨d, deleted, called, by rw [notified, hub', hub]⟩
  | txnOp currentRevision request =>
    rw [run, watchedOp] at returned
    obtain ⟨prevKvs, st₁, read, returned⟩ := Exec.run_bind_eq_ok returned
    obtain ⟨read, hub⟩ := run_onLeader read
    have same := previousKvs_eq_ok read
    obtain ⟨d, deleted, called, notified⟩ := delete_notifies returned
    rw [← same] at called
    exact ⟨d, deleted, called, by rw [notified, hub]⟩

/-- With room, a watcher is sent the events it wants, in one batch. -/
theorem stream_notify {hub : WatchHub} {id : Int} {w : Watcher} (found : hub.watchers id = some w)
    (room : w.channel.full = false) (events : List Event) (revision compactRevision : Int) :
    ∃ w', (hub.notify events revision compactRevision).watchers id = some w' ∧
      w'.channel.stream = w.channel.stream ++ if events.filter w.wants = [] then []
        else [⟨id, events.filter w.wants, compactRevision, revision⟩] := by
  refine ⟨_, WatchHub.watchers_notify found events revision compactRevision, ?_⟩
  rw [Channel.stream_run]
  unfold WatchHub.sends
  split_ifs with quiet
  · rfl
  · simp only [Channel.accepted, room, Bool.false_eq_true, if_false, (hub.active id w found).1]

/-- The records of a deletion are older than it, so no event of it carries its revision. -/
theorem not_told {w w' : Watcher} {d : Int} {deleted : List KeyValue} {id : Int}
    (older : ∀ kv ∈ deleted, kv.modRevision < d)
    (grown : w'.channel.stream = w.channel.stream ++
      if (deleted.map deleteEvent).filter w.wants = [] then []
      else [⟨id, (deleted.map deleteEvent).filter w.wants, 0, d⟩]) (key : Bytes) :
    ¬ Told w w' d key := by
  rintro ⟨fresh, event, told, one, revision⟩
  rw [grown, List.append_cancel_left_eq] at told
  have member : event ∈ fresh.flatMap WatchEvent.events :=
    List.mem_of_mem_filter (by rw [one]; exact List.mem_singleton_self event)
  rw [← told] at member
  have sent : event ∈ deleted.map deleteEvent := by
    split_ifs at member
    · cases member
    · rw [List.flatMap_singleton] at member
      exact List.mem_of_mem_filter member
  obtain ⟨kv, listed, rfl⟩ := List.mem_map.mp sent
  exact absurd revision (ne_of_lt (older kv listed))

/-- **No watcher is told of a deletion at its revision.** Every deletion that `KvService` executes,
by a request or inside a transaction, on every reached store and with every set of watchers that
have room: each watcher is sent, in one batch, the events it wants of the deleted records as they
were before. So the watchers that the deletion concerns are all told of it, at its revision, only if
there are none. -/
theorem deletion_told (call : DeleteCall) (st st' : Serving) (response : ResponseOp)
    (reached : Reached st.leader.store)
    (room : ∀ id w, st.hub.watchers id = some w → w.channel.full = false)
    (returned : call.run.run st = (.ok response, st')) :
    ∃ d deleted, (MvccStore.deleteRange call.start call.stop).run st.leader.store =
        (.ok (d, deleted), st'.leader.store) ∧
      (∀ id w, st.hub.watchers id = some w → ∃ w', st'.hub.watchers id = some w' ∧
        w'.channel.stream = w.channel.stream ++
          if (deleted.map deleteEvent).filter w.wants = [] then []
          else [⟨id, (deleted.map deleteEvent).filter w.wants, 0, d⟩]) ∧
      (DeliversDeletes st.hub st'.hub d deleted ↔
        ∀ kv ∈ deleted, ∀ id w, st.hub.watchers id = some w → ¬ w.Concerned d kv.key) := by
  obtain ⟨d, deleted, called, hub⟩ := DeleteCall.notifies returned
  have sound := Sound.of_reached reached
  obtain ⟨_, allocated, _, stored⟩ := MvccStore.deleteRange_answer called
  have older : ∀ kv ∈ deleted, kv.modRevision < d := by
    intro kv listed
    obtain ⟨key, data, tree, decoded⟩ := stored kv listed
    have bounded := (sound.records key data kv tree decoded).modified.2
    omega
  have sent : ∀ id w, st.hub.watchers id = some w → ∃ w', st'.hub.watchers id = some w' ∧
      w'.channel.stream = w.channel.stream ++
        if (deleted.map deleteEvent).filter w.wants = [] then []
        else [⟨id, (deleted.map deleteEvent).filter w.wants, 0, d⟩] := by
    intro id w found
    rw [hub]
    exact stream_notify found (room id w found) (deleted.map deleteEvent) d 0
  refine ⟨d, deleted, called, sent, ?_, ?_⟩
  · intro delivers kv listed id w found concerned
    obtain ⟨w', after, told⟩ := delivers kv listed id w found concerned
    obtain ⟨w₁, after₁, grown⟩ := sent id w found
    rw [after] at after₁
    cases after₁
    exact not_told older grown kv.key told
  · intro nobody kv listed id w found concerned
    exact absurd concerned (nobody kv listed id w found)

/-- A leader that holds one key, written at revision 2, and a hub. -/
def oneKeyServing (hub : WatchHub) : Serving where
  leader := ⟨((MvccStore.put [97] [48] 0).run (MvccStore.new .empty)).2, ⟨fun _ => none, 1⟩, []⟩
  hub := hub

/-- A hub with one watch of the key from revision 3 on: created when the key was there, as by a
watch request without a start revision. -/
def lateWatch : WatchHub :=
  match WatchHub.new.createWatch [97] [] 3 [] (.new 256) with
  | .ok (_, hub) => hub
  | .error _ => .new

/-- The deletion of that key, at revision 3: the watcher is sent nothing. -/
theorem late_watch_not_told :
    ∃ response st', (DeleteCall.handler ⟨[97], [], false⟩).run.run (oneKeyServing lateWatch) =
        (.ok response, st') ∧
      Reached (oneKeyServing lateWatch).leader.store ∧
      ∃ w kv, lateWatch.watchers 1 = some w ∧ w.channel.full = false ∧ w.Concerned 3 kv.key ∧
        (MvccStore.deleteRange [97] [97, 0]).run (oneKeyServing lateWatch).leader.store =
          (.ok (3, [kv]), st'.leader.store) ∧
        st'.hub.watchers 1 = some w ∧ ¬ DeliversDeletes lateWatch st'.hub 3 [kv] := by
  refine ⟨_, _, rfl, .put .fresh (by decide) _ _ _, ⟨1, [97], [], 3, [], .new 256, false⟩,
    ⟨[97], 2, 2, 1, [48], 0⟩, rfl, by decide, ⟨rfl, by decide, by decide, by decide⟩, rfl, rfl, ?_⟩
  intro delivers
  obtain ⟨w', after, fresh, event, told, one, _⟩ := delivers _ List.mem_cons_self 1 _ rfl
    ⟨rfl, by decide, by decide, by decide⟩
  cases after
  have empty : fresh = [] := told.symm
  rw [empty] at one
  cases one

/-- A hub with one watch of another key. -/
def otherWatch : WatchHub :=
  match WatchHub.new.createWatch [98] [] 2 [] (.new 256) with
  | .ok (_, hub) => hub
  | .error _ => .new

theorem otherWatch_watchers {id : Int} {w : Watcher} (found : otherWatch.watchers id = some w) :
    w = ⟨1, [98], [], 2, [], .new 256, false⟩ := by
  have lookup : otherWatch.watchers id =
      if id = 1 then some ⟨1, [98], [], 2, [], .new 256, false⟩ else none := rfl
  rw [lookup] at found
  split_ifs at found
  cases found
  rfl

/-- The watch of another key has nothing to be told. -/
theorem other_key_deletion_told :
    ∃ response st' d deleted,
      (DeleteCall.handler ⟨[97], [], false⟩).run.run (oneKeyServing otherWatch) =
        (.ok response, st') ∧
      DeliversDeletes otherWatch st'.hub d deleted := by
  obtain ⟨d, deleted, called, _, told⟩ := deletion_told (.handler ⟨[97], [], false⟩)
    (oneKeyServing otherWatch) _ _ (.put .fresh (by decide) _ _ _)
    (fun id w found => by rw [otherWatch_watchers found]; decide) rfl
  refine ⟨_, _, d, deleted, rfl, told.mpr fun kv listed id w found concerned => ?_⟩
  have inside := concerned.inside
  rw [otherWatch_watchers found] at inside
  cases called
  rw [List.mem_singleton.mp listed] at inside
  exact absurd inside (by decide)

end Rusd
