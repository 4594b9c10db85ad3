/-
**The request handlers of a stable leader** (`api/kv_service.rs`, `api/lease_service.rs`).

A handler acts on a `Leader`: the store, the lease manager and the log it proposes to. On a stable
leader every proposal is committed, so the wait between proposing and writing the store ends, and
what remains of it is the order: validate, read, propose, write. A transaction proposes nothing.

The headers' cluster and member ids, the watch notifications and the forwarding of a node that is
not the leader are left out; the clock that `generate_lease_id` reads is an argument of the request.
-/

import Rusd.Api.Command

namespace Rusd

/-! ### Requests, responses, errors -/

/-- The gRPC codes the handlers return. -/
inductive Code
  | invalidArgument
  | internal
  | unavailable
  | deadlineExceeded
  | failedPrecondition
  deriving DecidableEq, Repr

structure Status where
  code : Code
  message : String
  deriving DecidableEq, Repr

/-- The text of a byte string that is valid UTF-8. -/
def utf8Text (bytes : Bytes) : String :=
  (String.fromUTF8? ⟨(bytes.map fun b => UInt8.ofNat b.val).toArray⟩).getD ""

/-- The text of a backend error. -/
def BackendError.display : BackendError → String
  | .serializationError message => "Serialization error: " ++ message
  | .treeNotFound name => "Tree not found: " ++ utf8Text name

/-- The text of a storage error. -/
def StorageError.display : StorageError → String
  | .backend error => "Backend error: " ++ error.display
  | .mvcc message => "MVCC error: " ++ message

structure PutRequest where
  key : Bytes
  value : Bytes
  lease : Int
  prevKv : Bool
  ignoreValue : Bool
  ignoreLease : Bool
  deriving DecidableEq, Repr

structure DeleteRangeRequest where
  key : Bytes
  rangeEnd : Bytes
  prevKv : Bool
  deriving DecidableEq, Repr

/-- The fields a transaction reads of a range request. -/
structure RangeRequest where
  key : Bytes
  rangeEnd : Bytes
  deriving DecidableEq, Repr

inductive CompareResult
  | equal
  | greater
  | less
  | notEqual
  deriving DecidableEq, Repr

/-- The protobuf numbers; any other is read as `Equal`. -/
def CompareResult.ofInt : Int → CompareResult
  | 1 => .greater
  | 2 => .less
  | 3 => .notEqual
  | _ => .equal

inductive TargetUnion
  | version (target : Int)
  | createRevision (target : Int)
  | modRevision (target : Int)
  | value (target : Bytes)
  | lease (target : Int)
  deriving DecidableEq, Repr

structure Compare where
  result : Int
  key : Bytes
  targetUnion : Option TargetUnion
  deriving DecidableEq, Repr

/-- One operation of a transaction; a nested transaction is refused unread. -/
inductive RequestOp
  | requestRange (request : RangeRequest)
  | requestPut (request : PutRequest)
  | requestDeleteRange (request : DeleteRangeRequest)
  | requestTxn
  deriving DecidableEq, Repr

/-- A transaction; an operation can lack its request. -/
structure TxnRequest where
  compare : List Compare
  success : List (Option RequestOp)
  failure : List (Option RequestOp)
  deriving DecidableEq, Repr

/-- The responses; `revision` is the one in the header. -/
inductive ResponseOp
  | responseRange (revision : Int) (kvs : List KeyValue) (more : Bool) (count : Nat)
  | responsePut (revision : Int) (prevKv : Option KeyValue)
  | responseDeleteRange (revision : Int) (deleted : Nat) (prevKvs : List KeyValue)
  deriving DecidableEq, Repr

structure TxnResponse where
  revision : Int
  succeeded : Bool
  responses : List ResponseOp
  deriving DecidableEq, Repr

/-! ### Comparisons -/

def compareOrd {α : Type} [LinearOrder α] (actual target : α) : CompareResult → Bool
  | .equal => actual = target
  | .greater => actual > target
  | .less => actual < target
  | .notEqual => actual ≠ target

def compareI64 (actual target : Int) (result : CompareResult) : Bool :=
  compareOrd actual target result

def compareBytes (actual target : Bytes) (result : CompareResult) : Bool :=
  compareOrd actual target result

/-- The comparison of the record that was found, or of the defaults of an absent key. -/
def Compare.holds (cmp : Compare) (kv : Option KeyValue) : Bool :=
  let result := CompareResult.ofInt cmp.result
  match cmp.targetUnion with
  | some (.version target) => compareI64 ((kv.map fun kv => kv.version).getD 0) target result
  | some (.createRevision target) =>
    compareI64 ((kv.map fun kv => kv.createRevision).getD 0) target result
  | some (.modRevision target) => compareI64 ((kv.map fun kv => kv.modRevision).getD 0) target result
  | some (.value target) => compareBytes ((kv.map fun kv => kv.value).getD []) target result
  | some (.lease target) => compareI64 ((kv.map fun kv => kv.lease).getD 0) target result
  | none => true

/-! ### The state of the handlers -/

/-- `AtomicI64::fetch_add` of one, which wraps around. -/
def fetchAddOne (n : Int) : Int := (n + 1).bmod (2 ^ 64)

/-- The lease manager: the attached keys of each active lease, and the counter for the ids it
assigns itself. -/
structure LeaseManager where
  leaseKeys : Int → Option (List Bytes)
  nextLeaseId : Int

/-- What the handlers of a stable leader act on. -/
structure Leader where
  store : MvccStore
  leases : LeaseManager
  proposals : List Bytes

/-- A request handler. -/
abbrev ServiceM := Exec Leader Status

/-- A call on the store; its errors become an internal status. -/
def onStore {α : Type} (call : StoreM α) (failure : String) : ServiceM α where
  run leader :=
    let done := call.run leader.store
    match done.1 with
    | .ok value => (.ok value, { leader with store := done.2 })
    | .err e => (.err ⟨.internal, failure ++ e.display⟩, { leader with store := done.2 })
    | .panic => (.panic, { leader with store := done.2 })

/-- A read of the store. -/
def onRead {α : Type} (read : MvccStore → Outcome StorageError α) (failure : String) :
    ServiceM α where
  run leader := match read leader.store with
    | .ok value => (.ok value, leader)
    | .err e => (.err ⟨.internal, failure ++ e.display⟩, leader)
    | .panic => (.panic, leader)

/-- A read of the store whose error counts as an empty answer. -/
def onReadOk {α : Type} (read : MvccStore → Outcome StorageError α) : ServiceM (Option α) where
  run leader := match read leader.store with
    | .ok value => (.ok (some value), leader)
    | .err _ => (.ok none, leader)
    | .panic => (.panic, leader)

/-- The proposal, and the wait until it is committed. -/
def propose (data : Bytes) : ServiceM Unit :=
  Exec.update fun leader => { leader with proposals := leader.proposals ++ [data] }

def headerRevision : ServiceM Int := Exec.read fun leader => leader.store.currentRevision

/-- The record of one key at a revision. -/
def lookupKey (key : Bytes) (revision : MvccStore → Int) (s : MvccStore) :
    Outcome StorageError (Option KeyValue) :=
  (s.range key (singleKeyEnd key) (revision s) 1 false).map fun result => result.kvs.head?

/-! ### The KV handlers -/

/-- Handle `ignore_value`: preserve the existing value when the flag is set. -/
def effectiveValue (request : PutRequest) : ServiceM Bytes :=
  if request.ignoreValue then do
    let kv ← onReadOk (lookupKey request.key fun s => s.currentRevision)
    pure ((kv.join.map fun kv => kv.value).getD [])
  else pure request.value

/-- Handle `ignore_lease`: preserve the existing lease when the flag is set. -/
def effectiveLease (request : PutRequest) : ServiceM Int :=
  if request.ignoreLease then do
    let kv ← onReadOk (lookupKey request.key fun s => s.currentRevision)
    pure ((kv.join.map fun kv => kv.lease).getD 0)
  else pure request.lease

/-- A `put` up to its commit wait: the call it will make on its own store. -/
def planPut (request : PutRequest) : ServiceM (Bytes × Bytes × Int) := do
  if request.key = [] then Exec.throw ⟨.invalidArgument, "key must not be empty"⟩
  else
    let value ← effectiveValue request
    let lease ← effectiveLease request
    propose (putProposal request.key value)
    pure (request.key, value, lease)

/-- `KvService::put`. -/
def servePut (request : PutRequest) : ServiceM ResponseOp := do
  let (key, value, lease) ← planPut request
  let (_, _, oldKv) ← onStore (MvccStore.put key value lease) "put failed: "
  let revision ← headerRevision
  pure (.responsePut revision (if request.prevKv then oldKv else none))

/-- The end of a range as the `range` and `delete_range` handlers read it. -/
def effectiveRangeEnd (key rangeEnd : Bytes) : Bytes :=
  if rangeEnd = [] then singleKeyEnd key else if rangeEnd = [0] then [] else rangeEnd

/-- The previous values of a deletion, if they are asked for. -/
def previousKvs (wanted : Bool) (key stop : Bytes) (revision : MvccStore → Int) (failure : String) :
    ServiceM (List KeyValue) :=
  if wanted then do
    let result ← onRead (fun s => s.range key stop (revision s) 0 false) failure
    pure result.kvs
  else pure []

/-- `KvService::delete_range`. -/
def serveDeleteRange (request : DeleteRangeRequest) : ServiceM ResponseOp := do
  if request.key = [] ∧ request.rangeEnd = [] then
    Exec.throw ⟨.invalidArgument, "key must not be empty"⟩
  else
    let stop := effectiveRangeEnd request.key request.rangeEnd
    let prevKvs ← previousKvs request.prevKv request.key stop (fun s => s.currentRevision)
      "failed to get previous values: "
    propose (deleteProposal request.key request.rangeEnd)
    let (_, deleted) ← onStore (MvccStore.deleteRange request.key stop) "delete failed: "
    let revision ← headerRevision
    pure (.responseDeleteRange revision deleted.length prevKvs)

/-- `evaluate_compare` at the revision the transaction started from. -/
def evaluateCompare (cmp : Compare) (currentRevision : Int) : ServiceM Bool := do
  let kv ← onReadOk (lookupKey cmp.key fun _ => currentRevision)
  pure (cmp.holds kv.join)

/-- The conjunction of the comparisons, up to the first that fails. -/
def evaluateAll (currentRevision : Int) : List Compare → ServiceM Bool
  | [] => pure true
  | cmp :: rest => do
    let holds ← evaluateCompare cmp currentRevision
    if holds then evaluateAll currentRevision rest else pure false

/-- The end of a range as a transaction reads it: a `\0` is not treated as unbounded. -/
def txnRangeEnd (key rangeEnd : Bytes) : Bytes :=
  if rangeEnd = [] then singleKeyEnd key else rangeEnd

/-- One operation of a transaction. -/
def executeOp (currentRevision : Int) : RequestOp → ServiceM ResponseOp
  | .requestRange request => do
    let result ← onRead (fun s => s.range request.key (txnRangeEnd request.key request.rangeEnd)
      currentRevision 0 false) "range in txn failed: "
    let revision ← headerRevision
    pure (.responseRange revision result.kvs result.more result.count)
  | .requestPut request => do
    let (_, _, oldKv) ← onStore (MvccStore.put request.key request.value request.lease)
      "put in txn failed: "
    let revision ← headerRevision
    pure (.responsePut revision (if request.prevKv then oldKv else none))
  | .requestDeleteRange request => do
    let stop := txnRangeEnd request.key request.rangeEnd
    let prevKvs ← previousKvs request.prevKv request.key stop (fun _ => currentRevision)
      "delete in txn failed: "
    let (_, deleted) ← onStore (MvccStore.deleteRange request.key stop) "delete in txn failed: "
    let revision ← headerRevision
    pure (.responseDeleteRange revision deleted.length prevKvs)
  | .requestTxn => Exec.throw ⟨.invalidArgument, "nested transactions are not supported"⟩

/-- The operations of a transaction, one after another. -/
def executeOps (currentRevision : Int) : List (Option RequestOp) → ServiceM (List ResponseOp)
  | [] => pure []
  | none :: rest => executeOps currentRevision rest
  | some op :: rest => do
    let response ← executeOp currentRevision op
    let responses ← executeOps currentRevision rest
    pure (response :: responses)

/-- `KvService::txn`. -/
def serveTxn (request : TxnRequest) : ServiceM TxnResponse := do
  let currentRevision ← headerRevision
  let allSucceed ← evaluateAll currentRevision request.compare
  let responses ← executeOps currentRevision (if allSucceed then request.success else request.failure)
  let revision ← headerRevision
  pure ⟨revision, allSucceed, responses⟩

/-! ### The lease handlers -/

namespace LeaseManager

/-- A new lease without keys, or the text of the error; the id 0 asks for a fresh one. -/
def grant (leases : LeaseManager) (id ttl : Int) : Except String Unit × LeaseManager :=
  if ttl ≤ 0 then (.error ("Invalid TTL: TTL must be positive, got " ++ toString ttl), leases)
  else
    let leaseId := if id = 0 then leases.nextLeaseId else id
    let nextLeaseId := if id = 0 then fetchAddOne leases.nextLeaseId else leases.nextLeaseId
    if (leases.leaseKeys leaseId).isSome then
      (.error ("Lease already exists: " ++ toString leaseId),
        { leases with nextLeaseId := nextLeaseId })
    else (.ok (),
      { leaseKeys := fun other => if other = leaseId then some [] else leases.leaseKeys other
        nextLeaseId := nextLeaseId })

/-- The attached keys of a lease that is removed, or the text of the error. -/
def revoke (leases : LeaseManager) (id : Int) : Except String (List Bytes) × LeaseManager :=
  match leases.leaseKeys id with
  | some keys => (.ok keys,
      { leases with leaseKeys := fun other => if other = id then none else leases.leaseKeys other })
  | none => (.error ("Lease not found: " ++ toString id), leases)

end LeaseManager

/-- The decimal text of a number. -/
def decimal (n : Int) : Bytes := ascii (toString n).toList

def grantTag : Bytes := ascii ['G', 'R', 'A', 'N', 'T', '_', 'L', 'E', 'A', 'S', 'E', ':']

def revokeTag : Bytes := ascii ['R', 'E', 'V', 'O', 'K', 'E', '_', 'L', 'E', 'A', 'S', 'E', ':']

def grantProposal (id ttl : Int) : Bytes := grantTag ++ (decimal id ++ ascii [','] ++ decimal ttl)

def revokeProposal (id : Int) : Bytes := revokeTag ++ decimal id

/-- `LeaseService::lease_grant`; the id comes from the clock. -/
def serveLeaseGrant (ttl clock : Int) : ServiceM Int := do
  if ttl ≤ 0 then Exec.throw ⟨.invalidArgument, "ttl must be positive"⟩
  else
    propose (grantProposal clock ttl)
    let granted ← Exec.read fun leader => leader.leases.grant clock ttl
    Exec.update fun leader => { leader with leases := granted.2 }
    match granted.1 with
    | .ok _ => pure clock
    | .error e => Exec.throw ⟨.internal, "lease grant failed: " ++ e⟩

/-- The end key of the deletion of an attached key: its last byte plus one, wrapping around. -/
def leaseEndKey (key : Bytes) : Bytes :=
  match key.getLast? with
  | none => []
  | some last => key.dropLast ++ [last + 1]

/-- The deletion of the attached keys; an error of the store is only logged. -/
def deleteAttached : List Bytes → ServiceM Unit
  | [] => pure ()
  | key :: rest => do
    Exec.recover (onStore (MvccStore.deleteRange key (leaseEndKey key)) "")
    deleteAttached rest

/-- `LeaseService::lease_revoke`. -/
def serveLeaseRevoke (id : Int) : ServiceM Unit := do
  if id = 0 then Exec.throw ⟨.invalidArgument, "lease id must not be zero"⟩
  else
    propose (revokeProposal id)
    let revoked ← Exec.read fun leader => leader.leases.revoke id
    Exec.update fun leader => { leader with leases := revoked.2 }
    match revoked.1 with
    | .ok keys => deleteAttached keys
    | .error e => Exec.throw ⟨.internal, "lease revoke failed: " ++ e⟩

end Rusd
