/-
**The request handlers, one store call at a time** (`api/kv_service.rs`).

A `Script` is what a handler does to the store: the next call, and how it goes on with the answer.
Nothing holds the store between two calls of a handler, so requests interleave call by call; the
proposal to Raft and the wait for its commit stand between two calls and do nothing to the store of a
stable leader.

* `putScript`, `rangeScript`, `deleteRangeScript`, `txnScript`, `compactScript` — the handlers.
* `putScript_alone`, `deleteRangeScript_alone`, `txnScript_alone` — run without interruption, the
  scripts are the handlers of `Api.KvService`.
-/

import Rusd.Api.KvService

namespace Rusd

/-! ### Store calls -/

inductive StoreCall
  | currentRevision
  | range (start stop : Bytes) (revision limit : Int) (countOnly : Bool)
  | put (key value : Bytes) (lease : Int)
  | deleteRange (start stop : Bytes)
  | compact (revision : Int)
  deriving DecidableEq, Repr

namespace StoreCall

/-- What a call answers. -/
def Answer : StoreCall → Type
  | .currentRevision => Int
  | .range _ _ _ _ _ => RangeResult
  | .put _ _ _ => Int × KeyValue × Option KeyValue
  | .deleteRange _ _ => Int × List KeyValue
  | .compact _ => Unit

/-- The call on the store. -/
def exec : (c : StoreCall) → StoreM c.Answer
  | .currentRevision => Exec.read fun s => s.currentRevision
  | .range start stop revision limit countOnly =>
    ⟨fun s => (s.range start stop revision limit countOnly, s)⟩
  | .put key value lease => MvccStore.put key value lease
  | .deleteRange start stop => MvccStore.deleteRange start stop
  | .compact revision => MvccStore.compact revision

end StoreCall

/-! ### Scripts -/

/-- What a handler does: an answer, an error, a panic, or a store call and what follows it. -/
inductive Script (α : Type)
  | ret (value : α)
  | fail (status : Status)
  | crashed
  | call (c : StoreCall) (next : Except StorageError c.Answer → Script α)

namespace Script

variable {α β : Type}

/-- Go on with the answer. -/
def andThen : Script α → (α → Script β) → Script β
  | .ret value, f => f value
  | .fail status, _ => .fail status
  | .crashed, _ => .crashed
  | .call c next, f => .call c fun answer => (next answer).andThen f

instance : Monad Script where
  pure := ret
  bind := andThen

/-- A call whose error ends the handler. -/
def perform (c : StoreCall) (failure : String) : Script c.Answer :=
  .call c fun answer =>
    match answer with
    | .ok value => .ret value
    | .error e => .fail ⟨.internal, failure ++ e.display⟩

/-- A call whose error counts as no answer. -/
def attempt (c : StoreCall) : Script (Option c.Answer) :=
  .call c fun answer =>
    match answer with
    | .ok value => .ret (some value)
    | .error _ => .ret none

/-- A load of the revision counter. -/
def load : Script Int := perform .currentRevision ""

/-- What follows a call that ended so. -/
def resume {c : StoreCall} (next : Except StorageError c.Answer → Script α) :
    Outcome StorageError c.Answer → Script α
  | .ok value => next (.ok value)
  | .err e => next (.error e)
  | .panic => .crashed

/-- The whole script without interruption. -/
def alone : Script α → Exec MvccStore Status α
  | .ret value => pure value
  | .fail status => Exec.throw status
  | .crashed => Exec.crash
  | .call c next => ⟨fun s =>
    match c.exec.run s with
    | (.ok value, s') => (next (.ok value)).alone.run s'
    | (.err e, s') => (next (.error e)).alone.run s'
    | (.panic, s') => (.panic, s')⟩

end Script

/-! ### The handlers -/

/-- A range request with all its fields. -/
structure FullRangeRequest extends RangeRequest where
  revision : Int
  limit : Int
  sortOrder : Int
  sortTarget : Int
  countOnly : Bool
  keysOnly : Bool
  minModRevision : Int
  maxModRevision : Int
  minCreateRevision : Int
  maxCreateRevision : Int
  deriving DecidableEq, Repr

/-- A stable sort by one field. -/
def sortBy {α : Type} [LinearOrder α] (ascending : Bool) (field : KeyValue → α)
    (kvs : List KeyValue) : List KeyValue :=
  kvs.mergeSort fun a b => if ascending then field a ≤ field b else field b ≤ field a

/-- Apply sorting: the order, then the target. -/
def sortKvs (request : FullRangeRequest) (kvs : List KeyValue) : List KeyValue :=
  if request.sortOrder = 1 ∨ request.sortOrder = 2 then
    let ascending := decide (request.sortOrder = 1)
    match request.sortTarget with
    | 0 => sortBy ascending (fun kv => kv.key) kvs
    | 1 => sortBy ascending (fun kv => kv.value) kvs
    | 2 => sortBy ascending (fun kv => kv.createRevision) kvs
    | 3 => sortBy ascending (fun kv => kv.modRevision) kvs
    | 4 => sortBy ascending (fun kv => kv.version) kvs
    | _ => kvs
  else kvs

/-- Keep what passes, if the bound is set. -/
def retainIf (bound : Int) (passes : KeyValue → Bool) (kvs : List KeyValue) : List KeyValue :=
  if bound > 0 then kvs.filter passes else kvs

/-- The response of a range request, from the records that the store returned. -/
def finishRange (request : FullRangeRequest) (kvs : List KeyValue) : List KeyValue :=
  let kvs := sortKvs request kvs
  let kvs := retainIf request.minCreateRevision
    (fun kv => kv.createRevision ≥ request.minCreateRevision) kvs
  let kvs := retainIf request.maxCreateRevision
    (fun kv => kv.createRevision ≤ request.maxCreateRevision) kvs
  let kvs := retainIf request.minModRevision
    (fun kv => kv.modRevision ≥ request.minModRevision) kvs
  let kvs := retainIf request.maxModRevision
    (fun kv => kv.modRevision ≤ request.maxModRevision) kvs
  if request.keysOnly then kvs.map fun kv => { kv with value := [] } else kvs

open Script

/-- The end of `KvService::range`. -/
def rangeAnswer (request : FullRangeRequest) (result : RangeResult) : Script ResponseOp := do
  let revision ← load
  pure (.responseRange revision (finishRange request result.kvs) result.more result.count)

/-- `KvService::range` at the revision it reads. -/
def rangeRead (request : FullRangeRequest) (readRevision : Int) : Script ResponseOp := do
  let result ← perform (.range request.key (effectiveRangeEnd request.key request.rangeEnd)
    readRevision request.limit request.countOnly) "range query failed: "
  rangeAnswer request result

/-- `KvService::range`. -/
def rangeScript (request : FullRangeRequest) : Script ResponseOp :=
  if request.key = [] ∧ request.rangeEnd = [] then .fail ⟨.invalidArgument, "key must not be empty"⟩
  else if request.revision > 0 then rangeRead request request.revision
  else do
    let readRevision ← load
    rangeRead request readRevision

/-- The current record of a key, as `ignore_value` and `ignore_lease` read it: two calls. -/
def currentRecord (key : Bytes) : Script (Option KeyValue) := do
  let revision ← load
  let result ← attempt (.range key (singleKeyEnd key) revision 1 false)
  pure (result.bind fun result => result.kvs.head?)

/-- Handle `ignore_value`. -/
def valueScript (request : PutRequest) : Script Bytes :=
  if request.ignoreValue then do
    let kv ← currentRecord request.key
    pure ((kv.map fun kv => kv.value).getD [])
  else pure request.value

/-- Handle `ignore_lease`. -/
def leaseScript (request : PutRequest) : Script Int :=
  if request.ignoreLease then do
    let kv ← currentRecord request.key
    pure ((kv.map fun kv => kv.lease).getD 0)
  else pure request.lease

/-- A `put` up to its write. -/
def planScript (request : PutRequest) : Script (Bytes × Bytes × Int) :=
  if request.key = [] then .fail ⟨.invalidArgument, "key must not be empty"⟩
  else do
    let value ← valueScript request
    let lease ← leaseScript request
    pure (request.key, value, lease)

/-- `KvService::put`. -/
def putScript (request : PutRequest) : Script ResponseOp := do
  let (key, value, lease) ← planScript request
  let (_, _, oldKv) ← perform (.put key value lease) "put failed: "
  let revision ← load
  pure (.responsePut revision (if request.prevKv then oldKv else none))

/-- The previous values of a deletion, if they are asked for. -/
def previousScript (wanted : Bool) (key stop : Bytes) (revision : Script Int) (failure : String) :
    Script (List KeyValue) :=
  if wanted then do
    let revision ← revision
    let result ← perform (.range key stop revision 0 false) failure
    pure result.kvs
  else pure []

/-- `KvService::delete_range`. -/
def deleteRangeScript (request : DeleteRangeRequest) : Script ResponseOp :=
  if request.key = [] ∧ request.rangeEnd = [] then
    .fail ⟨.invalidArgument, "key must not be empty"⟩
  else do
    let stop := effectiveRangeEnd request.key request.rangeEnd
    let prevKvs ← previousScript request.prevKv request.key stop load
      "failed to get previous values: "
    let (_, deleted) ← perform (.deleteRange request.key stop) "delete failed: "
    let revision ← load
    pure (.responseDeleteRange revision deleted.length prevKvs)

/-- `evaluate_compare` of one comparison after another, up to the first that fails. -/
def compareScript (currentRevision : Int) : List Compare → Script Bool
  | [] => pure true
  | cmp :: rest => do
    let result ← attempt (.range cmp.key (singleKeyEnd cmp.key) currentRevision 1 false)
    if cmp.holds (result.bind fun result => result.kvs.head?) then compareScript currentRevision rest
    else pure false

/-- One operation of a transaction. -/
def opScript (currentRevision : Int) : RequestOp → Script ResponseOp
  | .requestRange request => do
    let result ← perform (.range request.key (txnRangeEnd request.key request.rangeEnd)
      currentRevision 0 false) "range in txn failed: "
    let revision ← load
    pure (.responseRange revision result.kvs result.more result.count)
  | .requestPut request => do
    let (_, _, oldKv) ← perform (.put request.key request.value request.lease) "put in txn failed: "
    let revision ← load
    pure (.responsePut revision (if request.prevKv then oldKv else none))
  | .requestDeleteRange request => do
    let stop := txnRangeEnd request.key request.rangeEnd
    let prevKvs ← previousScript request.prevKv request.key stop (pure currentRevision)
      "delete in txn failed: "
    let (_, deleted) ← perform (.deleteRange request.key stop) "delete in txn failed: "
    let revision ← load
    pure (.responseDeleteRange revision deleted.length prevKvs)
  | .requestTxn => .fail ⟨.invalidArgument, "nested transactions are not supported"⟩

/-- The operations of a transaction, one after another. -/
def opsScript (currentRevision : Int) : List (Option RequestOp) → Script (List ResponseOp)
  | [] => pure []
  | none :: rest => opsScript currentRevision rest
  | some op :: rest => do
    let response ← opScript currentRevision op
    let responses ← opsScript currentRevision rest
    pure (response :: responses)

/-- `KvService::txn`. -/
def txnScript (request : TxnRequest) : Script TxnResponse := do
  let currentRevision ← load
  let allSucceed ← compareScript currentRevision request.compare
  let responses ← opsScript currentRevision (if allSucceed then request.success else request.failure)
  let revision ← load
  pure ⟨revision, allSucceed, responses⟩

/-- `KvService::compact`; the response is its header. -/
def compactScript (revision : Int) : Script Int :=
  if revision ≤ 0 then .fail ⟨.invalidArgument, "revision must be positive"⟩
  else do
    perform (.compact revision) "compaction failed: "
    load

/-- A request. -/
inductive KvRequest
  | put (request : PutRequest)
  | range (request : FullRangeRequest)
  | deleteRange (request : DeleteRangeRequest)
  | txn (request : TxnRequest)
  | compact (revision : Int)
  deriving DecidableEq, Repr

inductive KvResponse
  | op (response : ResponseOp)
  | txn (response : TxnResponse)
  | compact (revision : Int)
  deriving DecidableEq, Repr

/-- The revision in the header. -/
def ResponseOp.revision : ResponseOp → Int
  | .responseRange revision _ _ _ => revision
  | .responsePut revision _ => revision
  | .responseDeleteRange revision _ _ => revision

def KvResponse.revision : KvResponse → Int
  | .op response => response.revision
  | .txn response => response.revision
  | .compact revision => revision

def KvRequest.script : KvRequest → Script KvResponse
  | .put request => do let response ← putScript request; pure (.op response)
  | .range request => do let response ← rangeScript request; pure (.op response)
  | .deleteRange request => do let response ← deleteRangeScript request; pure (.op response)
  | .txn request => do let response ← txnScript request; pure (.txn response)
  | .compact revision => do let revision ← compactScript revision; pure (.compact revision)

/-! ### A script that nobody interrupts -/

namespace Script

variable {α β : Type}

theorem alone_bind (m : Script α) (f : α → Script β) (s : MvccStore) :
    (m >>= f).alone.run s = (m.alone >>= fun a => (f a).alone).run s := by
  induction m generalizing s with
  | ret value => rfl
  | fail status => rfl
  | crashed => rfl
  | call c next ih =>
    rcases ran : c.exec.run s with ⟨value | e | _, s'⟩
    · have left : (Script.call c next >>= f).alone.run s = (next (.ok value) >>= f).alone.run s' := by
        show (Script.alone (.call c fun answer => (next answer).andThen f)).run s = _
        simp only [alone, ran]
        rfl
      have right : (Script.call c next).alone.run s = (next (.ok value)).alone.run s' := by
        simp only [alone, ran]
      rw [left, ih, Exec.run_bind, Exec.run_bind, right]
    · have left : (Script.call c next >>= f).alone.run s = (next (.error e) >>= f).alone.run s' := by
        show (Script.alone (.call c fun answer => (next answer).andThen f)).run s = _
        simp only [alone, ran]
        rfl
      have right : (Script.call c next).alone.run s = (next (.error e)).alone.run s' := by
        simp only [alone, ran]
      rw [left, ih, Exec.run_bind, Exec.run_bind, right]
    · have left : (Script.call c next >>= f).alone.run s = (.panic, s') := by
        show (Script.alone (.call c fun answer => (next answer).andThen f)).run s = _
        simp only [alone, ran]
      have right : (Script.call c next).alone.run s = (.panic, s') := by
        simp only [alone, ran]
      rw [left, Exec.run_bind_panic right]

theorem alone_perform (c : StoreCall) (failure : String) (s : MvccStore) :
    (perform c failure).alone.run s = match c.exec.run s with
      | (.ok value, s') => (.ok value, s')
      | (.err e, s') => (.err ⟨.internal, failure ++ e.display⟩, s')
      | (.panic, s') => (.panic, s') := by
  rcases ran : c.exec.run s with ⟨value | e | _, s'⟩ <;> simp only [perform, alone, ran] <;> rfl

theorem alone_attempt (c : StoreCall) (s : MvccStore) :
    (attempt c).alone.run s = match c.exec.run s with
      | (.ok value, s') => (.ok (some value), s')
      | (.err _, s') => (.ok none, s')
      | (.panic, s') => (.panic, s') := by
  rcases ran : c.exec.run s with ⟨value | e | _, s'⟩ <;> simp only [attempt, alone, ran] <;> rfl

theorem alone_currentRecord (key : Bytes) (s : MvccStore) :
    (currentRecord key).alone.run s = match lookupKey key (fun s => s.currentRevision) s with
      | .ok kv => (.ok kv, s)
      | .err _ => (.ok none, s)
      | .panic => (.panic, s) := by
  have loaded : load.alone.run s = (.ok s.currentRevision, s) := rfl
  unfold currentRecord
  rw [alone_bind, Exec.run_bind_ok loaded, alone_bind, Exec.run_bind, alone_attempt]
  simp only [lookupKey, StoreCall.exec]
  rcases s.range key (singleKeyEnd key) s.currentRevision 1 false with result | e | _ <;> rfl

end Script

/-- Run without interruption on the leader's store, the script gives the handler's outcome and
store. -/
def Performs {α : Type} (script : Script α) (handler : ServiceM α) : Prop :=
  ∀ leader, (handler.run leader).1 = (script.alone.run leader.store).1 ∧
    (handler.run leader).2.store = (script.alone.run leader.store).2

namespace Performs

variable {α β : Type}

theorem pure (a : α) : Performs (Pure.pure a) (Pure.pure a) := fun _ => ⟨rfl, rfl⟩

theorem fail (status : Status) : Performs (α := α) (.fail status) (Exec.throw status) :=
  fun _ => ⟨rfl, rfl⟩

theorem bind {script : Script α} {handler : ServiceM α} {f : α → Script β} {g : α → ServiceM β}
    (first : Performs script handler) (next : ∀ a, Performs (f a) (g a)) :
    Performs (script >>= f) (handler >>= g) := by
  intro leader
  obtain ⟨outcome, store⟩ := first leader
  rw [alone_bind]
  rcases ran : handler.run leader with ⟨a | e | _, middle⟩ <;> rw [ran] at outcome store <;>
    rcases alone : script.alone.run leader.store with ⟨a' | e' | _, s'⟩ <;>
    rw [alone] at outcome store <;> cases outcome <;> cases store
  · rw [Exec.run_bind_ok ran, Exec.run_bind_ok alone]
    exact next a middle
  · rw [Exec.run_bind_err ran, Exec.run_bind_err alone]
    exact ⟨rfl, rfl⟩
  · rw [Exec.run_bind_panic ran, Exec.run_bind_panic alone]
    exact ⟨rfl, rfl⟩

/-- A proposal is no store call. -/
theorem proposed (data : Bytes) {script : Script β} {g : Unit → ServiceM β}
    (next : Performs script (g ())) : Performs script (propose data >>= g) :=
  fun leader => next { leader with proposals := leader.proposals ++ [data] }

theorem onStore (c : StoreCall) (failure : String) :
    Performs (perform c failure) (onStore c.exec failure) := by
  intro leader
  rw [alone_perform]
  rcases ran : c.exec.run leader.store with ⟨value | e | _, s'⟩ <;>
    simp only [Rusd.onStore, ran] <;> exact ⟨trivial, trivial⟩

theorem headerRevision : Performs load headerRevision := fun _ => ⟨rfl, rfl⟩

theorem onRead (start stop : Bytes) (revision limit : Int) (countOnly : Bool) (failure : String) :
    Performs (perform (.range start stop revision limit countOnly) failure)
      (onRead (fun s => s.range start stop revision limit countOnly) failure) := by
  intro leader
  rw [alone_perform]
  unfold Rusd.onRead
  simp only [StoreCall.exec]
  rcases leader.store.range start stop revision limit countOnly with value | e | _ <;>
    exact ⟨rfl, rfl⟩

/-- A look-up at the current revision, which the script loads first. -/
theorem currentRecord (key : Bytes) (g : Option KeyValue → β) :
    Performs (do let kv ← currentRecord key; Pure.pure (g kv))
      (do let kv ← onReadOk (lookupKey key fun s => s.currentRevision); Pure.pure (g kv.join)) := by
  intro leader
  rw [alone_bind, Exec.run_bind, Exec.run_bind, alone_currentRecord]
  simp only [onReadOk]
  rcases lookupKey key (fun s => s.currentRevision) leader.store with kv | e | _ <;> exact ⟨rfl, rfl⟩

/-- The comparison of a look-up at a fixed revision. -/
theorem evaluateCompare (cmp : Compare) (revision : Int) {f : Bool → Script β} {g : Bool → ServiceM β}
    (next : ∀ holds, Performs (f holds) (g holds)) :
    Performs (do
        let result ← attempt (.range cmp.key (singleKeyEnd cmp.key) revision 1 false)
        f (cmp.holds (result.bind fun result => result.kvs.head?)))
      (evaluateCompare cmp revision >>= g) := by
  intro leader
  unfold Rusd.evaluateCompare
  rw [alone_bind, Exec.run_bind, Exec.run_bind, Exec.run_bind, alone_attempt]
  simp only [onReadOk, lookupKey, StoreCall.exec]
  rcases leader.store.range cmp.key (singleKeyEnd cmp.key) revision 1 false with value | e | _
  · exact next _ leader
  · exact next _ leader
  · exact ⟨rfl, rfl⟩

end Performs

theorem previousScript_fixed (wanted : Bool) (key stop : Bytes) (revision : Int) (failure : String) :
    Performs (previousScript wanted key stop (pure revision) failure)
      (previousKvs wanted key stop (fun _ => revision) failure) := by
  unfold previousScript previousKvs
  split_ifs
  · exact (Performs.onRead key stop revision 0 false failure).bind fun result => .pure _
  · exact .pure _

theorem previousScript_alone (wanted : Bool) (key stop : Bytes) (failure : String) :
    Performs (previousScript wanted key stop load failure)
      (previousKvs wanted key stop (fun s => s.currentRevision) failure) := by
  intro leader
  have fixed := previousScript_fixed wanted key stop leader.store.currentRevision failure leader
  unfold previousScript previousKvs at fixed ⊢
  split_ifs at fixed ⊢
  · exact fixed
  · exact fixed

theorem planScript_alone (request : PutRequest) : Performs (planScript request) (planPut request) := by
  have value : Performs (valueScript request) (effectiveValue request) := by
    unfold valueScript effectiveValue
    split_ifs
    · exact .currentRecord _ _
    · exact .pure _
  have lease : Performs (leaseScript request) (effectiveLease request) := by
    unfold leaseScript effectiveLease
    split_ifs
    · exact .currentRecord _ _
    · exact .pure _
  unfold planScript planPut
  split_ifs
  · exact .fail _
  · exact value.bind fun _ => lease.bind fun _ => .proposed _ (.pure _)

/-- **A put that nobody interrupts.** -/
theorem putScript_alone (request : PutRequest) : Performs (putScript request) (servePut request) := by
  refine (planScript_alone request).bind fun (key, value, lease) => ?_
  refine (Performs.onStore (.put key value lease) _).bind fun (_, _, oldKv) => ?_
  exact Performs.headerRevision.bind fun revision => .pure _

/-- **A deletion that nobody interrupts.** -/
theorem deleteRangeScript_alone (request : DeleteRangeRequest) :
    Performs (deleteRangeScript request) (serveDeleteRange request) := by
  unfold deleteRangeScript serveDeleteRange
  split_ifs with empty
  · exact .fail _
  · refine (previousScript_alone _ _ _ _).bind fun prevKvs => ?_
    refine .proposed _ ((Performs.onStore (.deleteRange _ _) _).bind fun (_, deleted) => ?_)
    exact Performs.headerRevision.bind fun revision => .pure _

theorem compareScript_alone (revision : Int) (compares : List Compare) :
    Performs (compareScript revision compares) (evaluateAll revision compares) := by
  induction compares with
  | nil => exact .pure _
  | cons cmp rest ih =>
    refine Performs.evaluateCompare cmp revision
      (f := fun holds => if holds then compareScript revision rest else pure false)
      (g := fun holds => if holds then evaluateAll revision rest else pure false) fun holds => ?_
    cases holds
    · exact .pure _
    · exact ih

theorem opScript_alone (revision : Int) (op : RequestOp) :
    Performs (opScript revision op) (executeOp revision op) := by
  cases op with
  | requestRange request =>
    exact (Performs.onRead _ _ _ _ _ _).bind fun result =>
      Performs.headerRevision.bind fun revision => .pure _
  | requestPut request =>
    exact (Performs.onStore (.put request.key request.value request.lease) _).bind
      fun (_, _, oldKv) => Performs.headerRevision.bind fun revision => .pure _
  | requestDeleteRange request =>
    refine (previousScript_fixed _ _ _ _ _).bind fun prevKvs => ?_
    refine (Performs.onStore (.deleteRange _ _) _).bind fun (_, deleted) => ?_
    exact Performs.headerRevision.bind fun revision => .pure _
  | requestTxn => exact .fail _

theorem opsScript_alone (revision : Int) (ops : List (Option RequestOp)) :
    Performs (opsScript revision ops) (executeOps revision ops) := by
  induction ops with
  | nil => exact .pure _
  | cons op rest ih =>
    cases op with
    | none => exact ih
    | some op => exact (opScript_alone revision op).bind fun _ => ih.bind fun _ => .pure _

/-- **A transaction that nobody interrupts.** -/
theorem txnScript_alone (request : TxnRequest) : Performs (txnScript request) (serveTxn request) := by
  refine Performs.headerRevision.bind fun revision => ?_
  refine (compareScript_alone revision request.compare).bind fun allSucceed => ?_
  refine (opsScript_alone revision _).bind fun responses => ?_
  exact Performs.headerRevision.bind fun revision => .pure _

end Rusd
