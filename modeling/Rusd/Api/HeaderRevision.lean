/-
**The revision in a response header** (`api/kv_service.rs`).

Any number of requests, interleaved store call by store call. A handler builds its header from a
load of the revision counter after its work is done, so the header shows what everybody has
allocated by then.

* `Headed` — every response carries the revision that the last call of its handler loaded.
* `RequestOk` — the invariant of a request: since its last write the counter has moved by as many
  revisions as were allocated since.
* `ReadOk` — the invariant of a read: what it has read is the reference map at the revision it
  loaded first.
* `header_is_applied` — a put or a transaction answers with the revision of its last write exactly if
  no revision was allocated between that write and its header; a read of the latest revision answers
  with the state at its header's revision exactly if that state shows it what the state at the
  revision it loaded showed.
-/

import Rusd.Lib.Machine
import Rusd.Api.Script
import Rusd.Storage.Reached
import Rusd.Storage.Reference

namespace Rusd

open MvccStore Script

/-! ### Where a response gets its revision -/

/-- Every answer of the script comes right after a load of the counter, with what it loaded. -/
inductive Headed {α : Type} (header : α → Int) : Script α → Prop
  | fail (status : Status) : Headed header (.fail status)
  | crashed : Headed header .crashed
  | call (c : StoreCall) (next : Except StorageError c.Answer → Script α)
      (later : ∀ answer, Headed header (next answer)) : Headed header (.call c next)
  | last (next : Except StorageError Int → Script α)
      (answers : ∀ revision : Int, ∃ value, next (.ok revision) = .ret value ∧ header value = revision)
      (fails : ∀ e, Headed header (next (.error e))) : Headed header (.call .currentRevision next)

namespace Headed

variable {α β : Type} {header : α → Int}

theorem bind (m : Script β) {f : β → Script α} (later : ∀ b, Headed header (f b)) :
    Headed header (m >>= f) := by
  induction m with
  | ret value => exact later value
  | fail status => exact .fail status
  | crashed => exact .crashed
  | call c next ih => exact .call c _ ih

theorem map (inner : β → Int) {m : Script β} (headed : Headed inner m) {g : β → α}
    (same : ∀ b, header (g b) = inner b) : Headed header (m >>= fun b => pure (g b)) := by
  induction headed with
  | fail status => exact .fail status
  | crashed => exact .crashed
  | call c next later ih => exact .call c _ ih
  | last next answers fails ih =>
    refine .last _ (fun revision => ?_) ih
    obtain ⟨value, is, loaded⟩ := answers revision
    refine ⟨g value, ?_, (same value).trans loaded⟩
    show (next (.ok revision)).andThen _ = _
    rw [is]
    rfl

theorem load {g : Int → α} (same : ∀ revision, header (g revision) = revision) :
    Headed header (load >>= fun revision => pure (g revision)) :=
  .last _ (fun revision => ⟨g revision, rfl, same revision⟩) fun _ => .fail _

theorem rangeRead (request : FullRangeRequest) (readRevision : Int) :
    Headed ResponseOp.revision (rangeRead request readRevision) :=
  .bind _ fun _ => .load fun _ => rfl

end Headed

/-- **Every response is built from a last load of the counter.** -/
theorem headed_script (request : KvRequest) : Headed KvResponse.revision request.script := by
  cases request with
  | put request =>
    refine Headed.map ResponseOp.revision ?_ fun _ => rfl
    exact .bind _ fun (key, value, lease) => .bind _ fun (_, _, oldKv) => .load fun _ => rfl
  | range request =>
    refine Headed.map ResponseOp.revision ?_ fun _ => rfl
    unfold rangeScript
    split_ifs
    · exact .fail _
    · exact .rangeRead request request.revision
    · exact .bind _ fun readRevision => .rangeRead request readRevision
  | deleteRange request =>
    refine Headed.map ResponseOp.revision ?_ fun _ => rfl
    unfold deleteRangeScript
    split_ifs
    · exact .fail _
    · exact .bind _ fun prevKvs => .bind _ fun (_, deleted) => .load fun _ => rfl
  | txn request =>
    refine Headed.map TxnResponse.revision ?_ fun _ => rfl
    exact .bind _ fun _ => .bind _ fun _ => .bind _ fun _ => .load fun _ => rfl
  | compact revision =>
    refine Headed.map id ?_ fun _ => rfl
    unfold compactScript
    split_ifs
    · exact .fail _
    · exact .bind _ fun _ => .last _ (fun revision => ⟨revision, rfl, rfl⟩) fun _ => .fail _

/-- Every answer of the script comes after a put. -/
inductive Writes {α : Type} : Script α → Prop
  | fail (status : Status) : Writes (.fail status)
  | crashed : Writes .crashed
  | call (c : StoreCall) (next : Except StorageError c.Answer → Script α)
      (later : ∀ answer, Writes (next answer)) : Writes (.call c next)
  | put (key value : Bytes) (lease : Int)
      (next : Except StorageError (Int × KeyValue × Option KeyValue) → Script α)
      (fails : ∀ e, Writes (next (.error e))) : Writes (.call (.put key value lease) next)

theorem Writes.bind {α β : Type} (m : Script β) {f : β → Script α} (later : ∀ b, Writes (f b)) :
    Writes (m >>= f) := by
  induction m with
  | ret value => exact later value
  | fail status => exact .fail status
  | crashed => exact .crashed
  | call c next ih => exact .call c _ ih

theorem Writes.map {α β : Type} {m : Script β} (writes : Writes m) (f : β → Script α) :
    Writes (m >>= f) := by
  induction writes with
  | fail status => exact .fail status
  | crashed => exact .crashed
  | call c next later ih => exact .call c _ ih
  | put key value lease next fails ih => exact .put key value lease _ ih

theorem writes_put (request : PutRequest) : Writes (KvRequest.put request).script := by
  refine Writes.map (m := putScript request) ?_ _
  exact .bind _ fun (key, value, lease) => .put key value lease _ fun _ => .fail _

/-! ### Requests side by side -/

namespace StoreCall

/-- The write that a call makes; it allocates a revision. -/
def op : StoreCall → Option StoreOp
  | .put key value lease => some (.put key value lease)
  | .deleteRange start stop => some (.deleteRange start stop)
  | _ => none

/-- The revision at which a call changed a key, if it changed one. -/
def written : (c : StoreCall) → Outcome StorageError c.Answer → Option Int
  | .put _ _ _, .ok (_, kv, _) => some kv.modRevision
  | .deleteRange _ _, .ok (revision, deleted) => if deleted = [] then none else some revision
  | _, _ => none

/-- The revision that a load answered. -/
def loadedBy : (c : StoreCall) → Outcome StorageError c.Answer → Option Int
  | .currentRevision, .ok revision => some revision
  | _, _ => none

def isCompact : StoreCall → Bool
  | .compact _ => true
  | _ => false

/-- What comes over the wire: lengths that fit their prefix, a 64-bit lease. -/
def Fits : StoreCall → Prop
  | .put key value lease => (StoreOp.put key value lease).Admissible
  | _ => True

instance : DecidablePred Fits
  | .put key value lease =>
    inferInstanceAs (Decidable (key.length < 2 ^ 32 ∧ value.length < 2 ^ 32 ∧
      (-2 ^ 63 ≤ lease ∧ lease < 2 ^ 63)))
  | .currentRevision => .isTrue trivial
  | .range _ _ _ _ _ => .isTrue trivial
  | .deleteRange _ _ => .isTrue trivial
  | .compact _ => .isTrue trivial

end StoreCall

/-- The script has a call to make. -/
def Script.waits {α : Type} : Script α → Bool
  | .call _ _ => true
  | _ => false

/-- A request with the rest of its script, and what it takes to judge its response. -/
structure Running where
  request : KvRequest
  script : Script KvResponse
  /-- The first revision that the handler loaded. -/
  loaded : Option Int
  /-- The revision of its last write that changed a key. -/
  lastWrite : Option Int
  /-- How many revisions any request allocated after that write, until this one answered. -/
  since : Nat
  /-- How many revisions any request allocated after that load, until this one answered. -/
  sinceLoad : Nat

namespace Running

def start (request : KvRequest) : Running := ⟨request, request.script, none, none, 0, 0⟩

/-- A call of another request; an answered one no longer counts. -/
def pass (c : StoreCall) (r : Running) : Running :=
  { r with
    since := if c.op.isSome && r.script.waits then r.since + 1 else r.since
    sinceLoad := if c.op.isSome && r.script.waits then r.sinceLoad + 1 else r.sinceLoad }

/-- A call of its own. -/
def move (r : Running) (c : StoreCall) (next : Except StorageError c.Answer → Script KvResponse)
    (outcome : Outcome StorageError c.Answer) : Running where
  request := r.request
  script := resume next outcome
  loaded := r.loaded <|> c.loadedBy outcome
  lastWrite := c.written outcome <|> r.lastWrite
  since :=
    if (c.written outcome).isSome then 0 else if c.op.isSome then r.since + 1 else r.since
  sinceLoad := if r.loaded = none then 0 else if c.op.isSome then r.sinceLoad + 1 else r.sinceLoad

end Running

/-- The requests of a leader over its store; `calls` are the writes so far with their revisions. -/
structure Requests where
  store : MvccStore
  running : List Running
  calls : List (Int × StoreOp)
  compacted : Bool

inductive RequestStep
  | start (request : KvRequest)
  | call (i : Nat)
  deriving DecidableEq, Repr

namespace Requests

def fresh : Requests := ⟨MvccStore.new .empty, [], [], false⟩

/-- The next call of a request, as long as the revision counter has room. -/
def step (st : Requests) : RequestStep → Option Requests
  | .start request => some { st with running := st.running ++ [Running.start request] }
  | .call i =>
    match st.running[i]? with
    | none => none
    | some r =>
      match r.script with
      | .call c next =>
        if st.store.currentRevision + 1 < 2 ^ 63 ∧ c.Fits then
          some
            { store := (c.exec.run st.store).2
              running := (st.running.map (Running.pass c)).set i
                (r.move c next (c.exec.run st.store).1)
              calls := st.calls ++
                (c.op.map fun op => (st.store.currentRevision + 1, op)).toList
              compacted := st.compacted || c.isCompact }
        else none
      | _ => none

variable {st st' : Requests}

/-- **What one step is.** -/
theorem step_cases {action : RequestStep} (moves : step st action = some st') :
    (∃ request, action = .start request ∧
      st' = { st with running := st.running ++ [Running.start request] }) ∨
    ∃ i r c next, action = .call i ∧ st.running[i]? = some r ∧ r.script = .call c next ∧
      st.store.currentRevision + 1 < 2 ^ 63 ∧ c.Fits ∧
      st' =
        { store := (c.exec.run st.store).2
          running := (st.running.map (Running.pass c)).set i (r.move c next (c.exec.run st.store).1)
          calls := st.calls ++ (c.op.map fun op => (st.store.currentRevision + 1, op)).toList
          compacted := st.compacted || c.isCompact } := by
  cases action with
  | start request => exact Or.inl ⟨request, rfl, (Option.some.inj moves).symm⟩
  | call i =>
    unfold step at moves
    cases found : st.running[i]? with
    | none =>
      simp only [found] at moves
      cases moves
    | some r =>
      simp only [found] at moves
      cases script : r.script with
      | call c next =>
        simp only [script] at moves
        split_ifs at moves with enabled
        exact Or.inr ⟨i, r, c, next, rfl, found, script, enabled.1, enabled.2,
          (Option.some.inj moves).symm⟩
      | ret value =>
        simp only [script] at moves
        cases moves
      | fail status =>
        simp only [script] at moves
        cases moves
      | crashed =>
        simp only [script] at moves
        cases moves

/-- The requests after a call: the others stand aside, the caller has moved. -/
theorem mem_running {i : Nat} {moved : Running} {c : StoreCall} {q : Running}
    (member : q ∈ (st.running.map (Running.pass c)).set i moved) :
    q = moved ∨ ∃ other ∈ st.running, q = other.pass c := by
  rcases List.mem_or_eq_of_mem_set member with old | rfl
  · obtain ⟨other, listed, rfl⟩ := List.mem_map.mp old
    exact Or.inr ⟨other, listed, rfl⟩
  · exact Or.inl rfl

end Requests

/-! ### One call -/

section OneCall

variable {s : MvccStore} (c : StoreCall)

/-- Every write allocates one revision, and nothing else does. -/
theorem StoreCall.counter (room : s.currentRevision + 1 < 2 ^ 63) :
    (c.exec.run s).2.currentRevision = s.currentRevision + if c.op.isSome then 1 else 0 := by
  cases c with
  | currentRevision => exact (add_zero _).symm
  | range start stop revision limit countOnly => exact (add_zero _).symm
  | put key value lease =>
    show ((MvccStore.put key value lease).run s).2.currentRevision = s.currentRevision + 1
    rcases MvccStore.put_state room key value lease with same | ⟨kv, _, _, same⟩ <;> rw [same]
    rfl
  | deleteRange start stop =>
    show ((MvccStore.deleteRange start stop).run s).2.currentRevision = s.currentRevision + 1
    rcases MvccStore.deleteRange_state room start stop with same | ⟨keys, same⟩ <;> rw [same]
    rfl
  | compact revision =>
    refine Eq.trans ?_ (add_zero _).symm
    show ((MvccStore.compact revision).run s).2.currentRevision = s.currentRevision
    by_cases le : revision ≤ s.currentRevision
    · rw [MvccStore.compact_apply le]
      rfl
    · rw [MvccStore.compact_future (not_le.mp le)]

/-- A write that changed a key did so at the revision it allocated. -/
theorem StoreCall.written_eq {w : Int} (wrote : c.written (c.exec.run s).1 = some w) :
    w = s.currentRevision + 1 ∧ c.op.isSome = true := by
  cases c with
  | put key value lease =>
    rcases ran : (MvccStore.put key value lease).run s with ⟨⟨revision, kv, oldKv⟩ | e | _, s'⟩ <;>
      simp only [StoreCall.exec, ran, StoreCall.written, Option.some.injEq, reduceCtorEq] at wrote
    obtain ⟨_, allocated, _, _, modified⟩ := MvccStore.put_answer ran
    exact ⟨by omega, rfl⟩
  | deleteRange start stop =>
    rcases ran : (MvccStore.deleteRange start stop).run s with ⟨⟨revision, deleted⟩ | e | _, s'⟩ <;>
      simp only [StoreCall.exec, ran, StoreCall.written, reduceCtorEq] at wrote
    split_ifs at wrote
    obtain ⟨_, allocated, _⟩ := MvccStore.deleteRange_answer ran
    rw [Option.some.injEq] at wrote
    exact ⟨by omega, rfl⟩
  | currentRevision => cases wrote
  | range start stop revision limit countOnly => cases wrote
  | compact revision =>
    unfold StoreCall.written at wrote
    cases wrote

/-- A load answers the counter as it stands, and moves nothing. -/
theorem StoreCall.loadedBy_eq {q : Int} (loads : c.loadedBy (c.exec.run s).1 = some q) :
    q = s.currentRevision ∧ (c.exec.run s).2.currentRevision = s.currentRevision := by
  cases c with
  | currentRevision =>
    cases loads
    exact ⟨rfl, rfl⟩
  | range start stop revision limit countOnly => cases loads
  | put key value lease =>
    unfold StoreCall.loadedBy at loads
    cases loads
  | deleteRange start stop =>
    unfold StoreCall.loadedBy at loads
    cases loads
  | compact revision =>
    unfold StoreCall.loadedBy at loads
    cases loads

end OneCall

/-! ### The invariant of a request -/

/-- A mark that lies `n` revisions below the counter, or below the header of a response. -/
def Counts (revision : Int) (script : Script KvResponse) (mark : Option Int) (n : Nat) : Prop :=
  ∀ w, mark = some w →
    (∀ c next, script = .call c next → revision = w + n) ∧
    ∀ response, script = .ret response → response.revision = w + n

/-- A request against the current revision. -/
structure RequestOk (revision : Int) (r : Running) : Prop where
  headed : ∀ c next, r.script = .call c next → Headed KvResponse.revision r.script
  sinceWrite : Counts revision r.script r.lastWrite r.since
  sinceLoad : Counts revision r.script r.loaded r.sinceLoad
  /-- A put does not answer before it has written. -/
  writes : ∀ request, r.request = .put request → r.lastWrite = none → Writes r.script

/-- A call of another request: the counter and the count move together. -/
theorem Counts.pass {revision : Int} {script : Script KvResponse} {mark : Option Int} {n : Nat}
    (counts : Counts revision script mark n) (c : StoreCall) :
    Counts (revision + if c.op.isSome then 1 else 0) script mark
      (if c.op.isSome && script.waits then n + 1 else n) := by
  intro w is
  obtain ⟨waiting, answered⟩ := counts w is
  refine ⟨fun own next waits => ?_, fun response done => ?_⟩
  · have before := waiting own next waits
    rw [waits, Script.waits, Bool.and_true, before]
    cases c.op.isSome <;> simp [add_assoc]
  · have before := answered response done
    have stopped : (Script.ret response).waits = false := rfl
    rw [done, stopped, Bool.and_false, if_neg Bool.false_ne_true]
    exact before

/-- What a headed script becomes: it stays headed, or it answers with the revision just loaded. -/
theorem headed_resume (s : MvccStore) {c : StoreCall}
    {next : Except StorageError c.Answer → Script KvResponse}
    (headed : Headed KvResponse.revision (.call c next)) :
    Headed KvResponse.revision (resume next (c.exec.run s).1) ∨
      ∃ response, resume next (c.exec.run s).1 = .ret response ∧
        response.revision = s.currentRevision ∧ c.op = none := by
  cases headed with
  | call _ _ later =>
    refine Or.inl ?_
    rcases (c.exec.run s).1 with value | e | _
    · exact later (.ok value)
    · exact later (.error e)
    · exact .crashed
  | last _ answers fails =>
    obtain ⟨response, is, loaded⟩ := answers s.currentRevision
    exact Or.inr ⟨response, is, loaded, rfl⟩

/-- After a call, a count that is right for the counter is right for the response too. -/
theorem Counts.resume {s : MvccStore} {c : StoreCall}
    {next : Except StorageError c.Answer → Script KvResponse} {mark : Option Int} {n : Nat}
    (headed : Headed KvResponse.revision (.call c next)) (room : s.currentRevision + 1 < 2 ^ 63)
    (right : ∀ w, mark = some w → (c.exec.run s).2.currentRevision = w + n) :
    Counts (c.exec.run s).2.currentRevision (Script.resume next (c.exec.run s).1) mark n := by
  intro w is
  refine ⟨fun _ _ _ => right w is, fun response done => ?_⟩
  rcases headed_resume s headed with still | ⟨response', answers, loaded, silent⟩
  · rw [done] at still
    cases still
  · rw [answers] at done
    cases done
    have counter := c.counter room
    rw [silent] at counter
    rw [loaded, ← right w is, counter]
    exact (add_zero _).symm

namespace RequestOk

variable {revision : Int} {r : Running} {s : MvccStore}

theorem start (revision : Int) (request : KvRequest) : RequestOk revision (Running.start request) where
  headed _ _ _ := headed_script request
  sinceWrite _ none := by cases none
  sinceLoad _ none := by cases none
  writes put is _ := by
    cases request with
    | put request => exact writes_put request
    | range request => cases is
    | deleteRange request => cases is
    | txn request => cases is
    | compact revision => cases is

theorem pass (ok : RequestOk revision r) (c : StoreCall) :
    RequestOk (revision + if c.op.isSome then 1 else 0) (r.pass c) where
  headed := ok.headed
  sinceWrite := ok.sinceWrite.pass c
  sinceLoad := ok.sinceLoad.pass c
  writes := ok.writes

/-- The two counts of a request after a call of its own. -/
theorem counts_move {c : StoreCall} {next : Except StorageError c.Answer → Script KvResponse}
    (ok : RequestOk s.currentRevision r) (script : r.script = .call c next)
    (room : s.currentRevision + 1 < 2 ^ 63) :
    (∀ w, (r.move c next (c.exec.run s).1).lastWrite = some w →
      (c.exec.run s).2.currentRevision = w + (r.move c next (c.exec.run s).1).since) ∧
    ∀ q, (r.move c next (c.exec.run s).1).loaded = some q →
      (c.exec.run s).2.currentRevision = q + (r.move c next (c.exec.run s).1).sinceLoad := by
  have counter := c.counter room
  refine ⟨fun w is => ?_, fun q is => ?_⟩
  · simp only [Running.move] at is ⊢
    cases fresh : c.written (c.exec.run s).1 with
    | some w' =>
      obtain ⟨rfl, allocates⟩ := c.written_eq fresh
      rw [fresh] at is
      cases is
      rw [counter, if_pos allocates]
      simp
    | none =>
      rw [fresh] at is
      have before := (ok.sinceWrite w is).1 c next script
      rw [counter]
      cases c.op.isSome <;> simp <;> omega
  · simp only [Running.move] at is ⊢
    cases first : r.loaded with
    | none =>
      rw [first] at is
      obtain ⟨rfl, same⟩ := c.loadedBy_eq is
      rw [same]
      simp
    | some q' =>
      rw [first] at is
      cases is
      have before := (ok.sinceLoad q first).1 c next script
      rw [counter]
      cases c.op.isSome <;> simp <;> omega

/-- A call of its own. -/
theorem move {c : StoreCall} {next : Except StorageError c.Answer → Script KvResponse}
    (ok : RequestOk s.currentRevision r) (script : r.script = .call c next)
    (room : s.currentRevision + 1 < 2 ^ 63) :
    RequestOk (c.exec.run s).2.currentRevision (r.move c next (c.exec.run s).1) := by
  have headed := ok.headed c next script
  rw [script] at headed
  have counts := counts_move ok script room
  refine ⟨fun c' next' is => ?_, .resume headed room counts.1, .resume headed room counts.2,
    fun request put silent => ?_⟩
  · rcases headed_resume s headed with still | ⟨response, answers, _⟩
    · exact still
    · change resume next (c.exec.run s).1 = _ at is
      rw [answers] at is
      cases is
  · change (c.written (c.exec.run s).1 <|> r.lastWrite) = none at silent
    have nothing : c.written (c.exec.run s).1 = none ∧ r.lastWrite = none := by
      cases fresh : c.written (c.exec.run s).1 with
      | some w =>
        rw [fresh] at silent
        cases silent
      | none =>
        rw [fresh] at silent
        exact ⟨rfl, silent⟩
    have writes := ok.writes request put nothing.2
    rw [script] at writes
    show Writes (resume next (c.exec.run s).1)
    cases writes with
    | call _ _ later =>
      rcases (c.exec.run s).1 with value | e | _
      · exact later (.ok value)
      · exact later (.error e)
      · exact .crashed
    | put key value lease _ fails =>
      have wrote := nothing.1
      rcases ran : ((StoreCall.put key value lease).exec.run s).1 with ⟨revision, kv, oldKv⟩ | e | _
      · rw [ran] at wrote
        cases wrote
      · exact fails e
      · exact .crashed

end RequestOk

/-! ### The invariant of a read -/

/-- The records of a map that a range request selects. -/
def selected (request : FullRangeRequest) (m : RefMap) : List KeyValue :=
  if request.countOnly then []
  else limited request.limit
    (rangeOf m request.key (effectiveRangeEnd request.key request.rangeEnd)).kvs

/-- What a range request shows of a map. -/
def shown (request : FullRangeRequest) (m : RefMap) : List KeyValue :=
  finishRange request (selected request m)

/-- The scripts of a read that has loaded its revision, and of one that has read. -/
def readStage (request : FullRangeRequest) (q : Int) : Script KvResponse := do
  let response ← rangeRead request q
  pure (.op response)

def answerStage (request : FullRangeRequest) (result : RangeResult) : Script KvResponse := do
  let response ← rangeAnswer request result
  pure (.op response)

theorem range_script_empty {request : FullRangeRequest}
    (empty : request.key = [] ∧ request.rangeEnd = []) :
    (KvRequest.range request).script = .fail ⟨.invalidArgument, "key must not be empty"⟩ := by
  show (rangeScript request >>= _) = _
  rw [rangeScript, if_pos empty]
  rfl

theorem range_script {request : FullRangeRequest}
    (named : ¬ (request.key = [] ∧ request.rangeEnd = [])) (latest : request.revision ≤ 0) :
    (KvRequest.range request).script = .call .currentRevision fun answer =>
      match answer with
      | .ok q => readStage request q
      | .error e => .fail ⟨.internal, "" ++ e.display⟩ := by
  show (rangeScript request >>= _) = _
  rw [rangeScript, if_neg named, if_neg (not_lt.mpr latest)]
  show Script.call StoreCall.currentRevision _ = _
  congr 1
  funext answer
  cases answer <;> rfl

theorem readStage_eq (request : FullRangeRequest) (q : Int) :
    readStage request q = .call (.range request.key
        (effectiveRangeEnd request.key request.rangeEnd) q request.limit request.countOnly)
      fun answer =>
        match answer with
        | .ok result => answerStage request result
        | .error e => .fail ⟨.internal, "range query failed: " ++ e.display⟩ := by
  show Script.call (StoreCall.range _ _ _ _ _) _ = _
  congr 1
  funext answer
  cases answer <;> rfl

theorem answerStage_eq (request : FullRangeRequest) (result : RangeResult) :
    answerStage request result = .call .currentRevision fun answer =>
      match answer with
      | .ok h => .ret (.op (.responseRange h (finishRange request result.kvs) result.more result.count))
      | .error e => .fail ⟨.internal, "" ++ e.display⟩ := by
  show Script.call StoreCall.currentRevision _ = _
  congr 1
  funext answer
  cases answer <;> rfl

/-- A read of the latest revision: the revision it loaded and the rest of its script. While the store
is not compacted, what it has read is the map at that revision. -/
inductive ReadOk (clean : Prop) (calls : List (Int × StoreOp)) (revision : Int)
    (request : FullRangeRequest) : Option Int → Script KvResponse → Prop
  | start : ReadOk clean calls revision request none (KvRequest.range request).script
  | loaded (q : Int) (positive : 0 < q) (le : q ≤ revision) :
      ReadOk clean calls revision request (some q) (readStage request q)
  | read (q : Int) (result : RangeResult) (le : q ≤ revision)
      (exact : clean → result.kvs = selected request (referenceAt calls q)) :
      ReadOk clean calls revision request (some q) (answerStage request result)
  | answered (q : Int) (result : RangeResult) (h : Int) (le : q ≤ revision)
      (exact : clean → result.kvs = selected request (referenceAt calls q)) :
      ReadOk clean calls revision request (some q)
        (.ret (.op (.responseRange h (finishRange request result.kvs) result.more result.count)))
  | fail (loaded : Option Int) (status : Status) :
      ReadOk clean calls revision request loaded (.fail status)
  | crashed (loaded : Option Int) : ReadOk clean calls revision request loaded .crashed

namespace ReadOk

variable {clean clean' : Prop} {calls later : List (Int × StoreOp)} {revision revision' : Int}
  {request : FullRangeRequest} {loaded : Option Int} {script : Script KvResponse}

/-- Later writes lie above what was read. -/
theorem mono (ok : ReadOk clean calls revision request loaded script) (cleaner : clean' → clean)
    (above : ∀ call ∈ later, revision < call.1) (le : revision ≤ revision') :
    ReadOk clean' (calls ++ later) revision' request loaded script := by
  have stable : ∀ q ≤ revision, referenceAt (calls ++ later) q = referenceAt calls q :=
    fun q low => referenceAt_append fun call member => lt_of_le_of_lt low (above call member)
  cases ok with
  | start => exact .start
  | loaded q positive low => exact .loaded q positive (low.trans le)
  | read q result low exact_ =>
    exact .read q result (low.trans le) fun holds => by rw [stable q low]; exact exact_ (cleaner holds)
  | answered q result h low exact_ =>
    exact .answered q result h (low.trans le)
      fun holds => by rw [stable q low]; exact exact_ (cleaner holds)
  | fail loaded status => exact .fail loaded status
  | crashed loaded => exact .crashed loaded

/-- A call of a read: it writes nothing, and what it reads is the map at its revision. -/
theorem resume {s : MvccStore} {c : StoreCall}
    {next : Except StorageError c.Answer → Script KvResponse}
    (ok : ReadOk clean calls s.currentRevision request loaded (.call c next))
    (latest : request.revision ≤ 0) (positive : 1 ≤ s.currentRevision)
    (refines : clean → Refines calls s) :
    c.op = none ∧ c.isCompact = false ∧ (c.exec.run s).2 = s ∧
      ReadOk clean calls s.currentRevision request (loaded <|> c.loadedBy (c.exec.run s).1)
        (Script.resume next (c.exec.run s).1) := by
  generalize is : Script.call c next = script at ok
  cases ok with
  | start =>
    by_cases named : request.key = [] ∧ request.rangeEnd = []
    · rw [range_script_empty named] at is
      cases is
    · rw [range_script named latest] at is
      cases is
      exact ⟨rfl, rfl, rfl, .loaded s.currentRevision (by omega) le_rfl⟩
  | loaded q low le =>
    rw [readStage_eq] at is
    cases is
    refine ⟨rfl, rfl, rfl, ?_⟩
    simp only [StoreCall.exec]
    rcases ran : s.range request.key (effectiveRangeEnd request.key request.rangeEnd) q request.limit
      request.countOnly with result | e | _
    · refine .read q result le fun holds => ?_
      have accepts := MvccStore.accepts_of_range ran
      obtain ⟨more, count, answer⟩ :=
        (refines holds).range_limited accepts low request.limit request.countOnly
      rw [ran] at answer
      cases answer
      rfl
    · exact .fail _ _
    · exact .crashed _
  | read q result le exact_ =>
    rw [answerStage_eq] at is
    cases is
    exact ⟨rfl, rfl, rfl, .answered q result s.currentRevision le exact_⟩
  | answered q result h le exact_ => cases is
  | fail loaded status => cases is
  | crashed loaded => cases is

/-- A read that has answered. -/
theorem of_ret {response : KvResponse}
    (ok : ReadOk clean calls revision request loaded (.ret response))
    (latest : request.revision ≤ 0) :
    ∃ (q : Int) (result : RangeResult) (h : Int), loaded = some q ∧
      response = .op (.responseRange h (finishRange request result.kvs) result.more result.count) ∧
      (clean → result.kvs = selected request (referenceAt calls q)) := by
  generalize is : Script.ret response = script at ok
  cases ok with
  | start =>
    by_cases named : request.key = [] ∧ request.rangeEnd = []
    · rw [range_script_empty named] at is
      cases is
    · rw [range_script named latest] at is
      cases is
  | loaded q low le =>
    rw [readStage_eq] at is
    cases is
  | read q result le exact_ =>
    rw [answerStage_eq] at is
    cases is
  | answered q result h le exact_ =>
    cases is
    exact ⟨q, result, h, rfl, rfl, exact_⟩
  | fail loaded status => cases is
  | crashed loaded => cases is

end ReadOk

/-! ### Whole runs -/

namespace Requests

/-- What holds of the requests of a leader. -/
structure Inv (st : Requests) : Prop where
  positive : 1 ≤ st.store.currentRevision
  requests : ∀ r ∈ st.running, RequestOk st.store.currentRevision r
  refines : st.compacted = false → Refines st.calls st.store
  reads : ∀ r ∈ st.running, ∀ request, r.request = .range request → request.revision ≤ 0 →
    ReadOk (st.compacted = false) st.calls st.store.currentRevision request r.loaded r.script

theorem Inv.fresh : Inv fresh where
  positive := le_rfl
  requests _ member := by cases member
  refines _ := Refines.fresh
  reads _ member := by cases member

/-- A call that does not compact keeps the store and the map together. -/
theorem refines_exec {calls : List (Int × StoreOp)} {s : MvccStore} (ref : Refines calls s)
    (room : s.currentRevision + 1 < 2 ^ 63) {c : StoreCall} (fits : c.Fits)
    (keeps : c.isCompact = false) :
    Refines (calls ++ (c.op.map fun op => (s.currentRevision + 1, op)).toList) (c.exec.run s).2 := by
  cases c with
  | currentRevision => exact (List.append_nil calls).symm ▸ ref
  | range start stop revision limit countOnly => exact (List.append_nil calls).symm ▸ ref
  | put key value lease =>
    obtain ⟨returned, next⟩ := ref.put fits room
    show Refines _ ((MvccStore.put key value lease).run s).2
    rw [returned]
    exact next
  | deleteRange start stop =>
    show Refines _ ((MvccStore.deleteRange start stop).run s).2
    by_cases valid : KeyIndex.ValidRange start stop
    · obtain ⟨returned, next⟩ := ref.deleteRange (.of_valid valid) room
      rw [returned]
      exact next
    · rw [MvccStore.deleteRange_inverted room valid]
      exact ref.inverted room valid
  | compact revision => cases keeps

theorem Inv.step {st st' : Requests} {action : RequestStep} (inv : Inv st)
    (moves : step st action = some st') : Inv st' := by
  rcases step_cases moves with ⟨request, rfl, rfl⟩ | ⟨i, r, c, next, rfl, found, script, room, fits, rfl⟩
  · refine ⟨inv.positive, fun r member => ?_, inv.refines, fun r member request' is latest => ?_⟩
    · rcases List.mem_append.mp member with old | new
      · exact inv.requests r old
      · rw [List.mem_singleton.mp new]
        exact .start _ request
    · rcases List.mem_append.mp member with old | new
      · exact inv.reads r old request' is latest
      · rw [List.mem_singleton.mp new] at is ⊢
        change request = _ at is
        subst is
        exact .start
  · have mine : r ∈ st.running := List.mem_of_getElem? found
    have counter := c.counter (s := st.store) room
    have grows : st.store.currentRevision ≤ (c.exec.run st.store).2.currentRevision := by
      rw [counter]
      split_ifs <;> omega
    have cleaner : (st.compacted || c.isCompact) = false → st.compacted = false :=
      fun clean => (Bool.or_eq_false_iff.mp clean).1
    have above : ∀ call ∈ (c.op.map fun op => (st.store.currentRevision + 1, op)).toList,
        st.store.currentRevision < call.1 := by
      intro call member
      obtain ⟨op, _, rfl⟩ := Option.map_eq_some_iff.mp (Option.mem_toList.mp member)
      simp
    refine ⟨by have := inv.positive; simp only; omega, fun q member => ?_, fun clean => ?_,
      fun q member request is latest => ?_⟩
    · rcases mem_running member with rfl | ⟨other, listed, rfl⟩
      · exact (inv.requests r mine).move script room
      · rw [counter]
        exact (inv.requests other listed).pass c
    · exact refines_exec (inv.refines (cleaner clean)) room fits (Bool.or_eq_false_iff.mp clean).2
    · rcases mem_running member with rfl | ⟨other, listed, rfl⟩
      · have before := inv.reads r mine request is latest
        rw [script] at before
        obtain ⟨noOp, _, same, after⟩ := before.resume latest inv.positive inv.refines
        have moved := after.mono cleaner above le_rfl
        simp only [same]
        exact moved
      · exact (inv.reads other listed request is latest).mono cleaner above grows

theorem Inv.run {st : Requests} {actions : List RequestStep}
    (runs : runFrom Requests.step Requests.fresh actions = some st) : Inv st :=
  run_always (fun _ _ _ moves inv => inv.step moves) Inv.fresh runs

/-- The response of a request has the header that its work asks for. -/
def HeaderIsApplied (st : Requests) (r : Running) (response : KvResponse) : Prop :=
  match r.request, response with
  | .put _, response => r.lastWrite = some response.revision
  | .txn _, response => ∀ w, r.lastWrite = some w → response.revision = w
  | .range request, .op (.responseRange revision kvs _ _) =>
    request.revision ≤ 0 → kvs = shown request (referenceAt st.calls revision)
  | _, _ => True

/-- Nothing came between the work of a request and its header: no revision was allocated after its
last write; the revisions allocated after its first load leave what it selects as it was. -/
def Undisturbed (st : Requests) (r : Running) : Prop :=
  match r.request with
  | .put _ => r.since = 0
  | .txn _ => r.lastWrite.isSome → r.since = 0
  | .range request => request.revision ≤ 0 → ∀ q, r.loaded = some q →
      shown request (referenceAt st.calls q) =
        shown request (referenceAt st.calls (q + r.sinceLoad))
  | _ => True

/-- **The header's revision.** In every run of requests that interleave store call by store call,
for every request that has answered (a read: if the store was not compacted): its header is the
applied revision if and only if it was undisturbed. -/
theorem header_is_applied (actions : List RequestStep) (st : Requests)
    (runs : runFrom step fresh actions = some st) (r : Running) (member : r ∈ st.running)
    (response : KvResponse) (answered : r.script = .ret response)
    (clean : ∀ request, r.request = .range request → st.compacted = false) :
    st.HeaderIsApplied r response ↔ st.Undisturbed r := by
  have inv := Inv.run runs
  have ok := inv.requests r member
  cases is : r.request with
  | put request =>
    have written : r.lastWrite ≠ none := by
      intro none
      have writes := ok.writes request is none
      rw [answered] at writes
      cases writes
    obtain ⟨w, wrote⟩ := Option.ne_none_iff_exists'.mp written
    have header := (ok.sinceWrite w wrote).2 response answered
    simp only [HeaderIsApplied, Undisturbed, is, wrote, Option.some.injEq]
    omega
  | txn request =>
    simp only [HeaderIsApplied, Undisturbed, is]
    cases wrote : r.lastWrite with
    | none => simp
    | some w =>
      have header := (ok.sinceWrite w wrote).2 response answered
      simp only [Option.some.injEq, forall_eq', Option.isSome_some, forall_const]
      omega
  | range request =>
    by_cases latest : request.revision ≤ 0
    · have read := inv.reads r member request is latest
      rw [answered] at read
      obtain ⟨q, result, h, loaded, rfl, exact_⟩ := read.of_ret latest
      have kvs := exact_ (clean request is)
      have header : h = q + r.sinceLoad := (ok.sinceLoad q loaded).2 _ answered
      simp only [HeaderIsApplied, Undisturbed, is, loaded, kvs, ← header, Option.some.injEq,
        forall_eq']
      rfl
    · unfold HeaderIsApplied Undisturbed
      simp only [is]
      refine iff_of_true ?_ fun low => absurd low latest
      cases response with
      | op response =>
        cases response with
        | responseRange revision kvs more count => exact fun low => absurd low latest
        | responsePut revision prevKv => trivial
        | responseDeleteRange revision deleted prevKvs => trivial
      | txn response => trivial
      | compact revision => trivial
  | deleteRange request => simp only [HeaderIsApplied, Undisturbed, is]
  | compact revision => simp only [HeaderIsApplied, Undisturbed, is]

/-- A put of one byte under a key of one byte. -/
def plainPut (key : Byte) : KvRequest := .put ⟨[key], [49], 0, false, false, false⟩

/-- Two puts; the second one writes before the first one builds its header. -/
def overtaken : List RequestStep :=
  [.start (plainPut 97), .start (plainPut 98), .call 0, .call 1, .call 0]

/-- The first put wrote its key at revision 2 and answers revision 3. -/
theorem overtaken_put_header :
    ∃ st r response, runFrom step fresh overtaken = some st ∧ r ∈ st.running ∧
      r.script = .ret response ∧ r.request = plainPut 97 ∧ r.lastWrite = some 2 ∧
      response.revision = 3 ∧ ¬ st.HeaderIsApplied r response := by
  refine ⟨_, _, _, rfl, List.mem_cons_self, rfl, rfl, rfl, rfl, ?_⟩
  intro applied
  cases applied

/-- One put alone answers the revision of its write. -/
theorem single_put_header :
    ∃ st r response, runFrom step fresh [.start (plainPut 97), .call 0, .call 0] = some st ∧
      r ∈ st.running ∧ r.script = .ret response ∧ response.revision = 2 ∧
      st.HeaderIsApplied r response :=
  ⟨_, _, _, rfl, List.mem_cons_self, rfl, rfl,
    (header_is_applied [.start (plainPut 97), .call 0, .call 0] _ rfl _ List.mem_cons_self _ rfl
      (fun _ is => by cases is)).mpr rfl⟩

end Requests

end Rusd
