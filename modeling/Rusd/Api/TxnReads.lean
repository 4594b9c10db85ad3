/-
**What the ranges of a transaction show** (`api/kv_service.rs`, `txn`).

Every range of a transaction reads at the revision before the transaction. Until its first put or
deletion that is the current revision; after it the read is one of the past, and shows neither what the
transaction has put nor what it has deleted.

* `lastWrite` — what the last of the operations that write a key does to it.
* `Midway` — the store in the middle of a transaction, against the records before it. `Midway.step` is
  one operation, and `Midway.run` the operations with the read of each range among them.
* `Midway.read_iff` — when a read at the old revision is the read of the store as it is.
* `txn_reads_earlier_iff` — when every range shows the operations before it.
-/

import Rusd.Storage.InUse
import Rusd.Watch.Transaction

namespace Rusd

open MvccStore

/-! ### The reads, and the writes before them -/

/-- The answer of a range operation that reads the store at a revision. -/
def readAt (revision : Int) (s : MvccStore) (request : RangeRequest) : Outcome StorageError ResponseOp :=
  (s.range request.key (txnRangeEnd request.key request.rangeEnd) revision 0 false).map fun result =>
    .responseRange s.currentRevision result.kvs result.more result.count

/-- The read of a state: at its current revision. -/
def readOf (s : MvccStore) (request : RangeRequest) : Outcome StorageError ResponseOp :=
  readAt s.currentRevision s request

/-- What an operation does to a key. -/
inductive KeyWrite
  | put
  | deletion
  deriving DecidableEq, Repr

/-- What the operation does to the key, if it writes it. -/
def RequestOp.keyWrite (key : Bytes) : RequestOp → Option KeyWrite
  | .requestPut request => if request.key = key then some .put else none
  | .requestDeleteRange request =>
    if Bytes.InRange request.key (txnRangeEnd request.key request.rangeEnd) key then some .deletion
    else none
  | .requestRange _ => none
  | .requestTxn => none

/-- What the last of the operations that write the key does to it. -/
def lastWrite (key : Bytes) : List (Option RequestOp) → Option KeyWrite
  | [] => none
  | op :: rest => (lastWrite key rest).or (op.bind (RequestOp.keyWrite key))

theorem lastWrite_append (key : Bytes) (before : List (Option RequestOp)) (op : Option RequestOp) :
    lastWrite key (before ++ [op]) = (op.bind (RequestOp.keyWrite key)).or (lastWrite key before) := by
  induction before with
  | nil => simp only [List.nil_append, lastWrite, Option.none_or, Option.or_none]
  | cons first rest ih => rw [List.cons_append, lastWrite, lastWrite, ih, Option.or_assoc]

theorem writeCount_append (before : List (Option RequestOp)) (op : RequestOp) :
    writeCount (before ++ [some op]) = writeCount before + if op.mutates then 1 else 0 := by
  rw [writeCount, List.countP_append, List.countP_singleton]
  rfl

/-- A range at the old revision shows the operations before it: there is no write among them, or they do
not put a key of its interval last, and a live key of the interval is not written and still has its
record in `kv_rev`. -/
def ShowsEarlier (s : MvccStore) (before : List (Option RequestOp)) (request : RangeRequest) : Prop :=
  writeCount before = 0 ∨
    ∀ key, Bytes.InRange request.key (txnRangeEnd request.key request.rangeEnd) key →
      lastWrite key before ≠ some .put ∧
        (s.Live key → s.archived key = true ∧ lastWrite key before = none)

/-! ### The middle of a transaction -/

/-- **The store in the middle of a transaction** that started at the revision `r` with the records `view`
and has executed the operations `done`. -/
structure Midway (view : RefMap) (archived : Bytes → Bool) (r : Int) (done : List (Option RequestOp))
    (live : RefMap) (s : MvccStore) : Prop where
  stocked : ∃ stored, Stocked stored live s
  past : ShowsPast view archived r s
  named : ∀ key kv, view.get? key = some kv → kv.key = key
  positive : 0 < r
  quiet : writeCount done = 0 → live = view ∧ s.currentRevision = r
  moved : writeCount done ≠ 0 → r < s.currentRevision
  untouched : ∀ key, lastWrite key done = none → live.get? key = view.get? key
  written : ∀ key, lastWrite key done = some .put → ∃ kv, live.get? key = some kv ∧ r < kv.modRevision
  erased : ∀ key, lastWrite key done = some .deletion → live.get? key = none

namespace Midway

variable {view live : RefMap} {archived : Bytes → Bool} {r : Int} {done : List (Option RequestOp)}
  {s : MvccStore}

/-- The start of the transaction. -/
theorem start {stored : RefMap} (stocked : Stocked stored live s) :
    Midway live s.archived s.currentRevision [] live s where
  stocked := ⟨stored, stocked⟩
  past := .of_stocked stocked
  named _ _ := stocked.listed.named
  positive := by
    have := stocked.listed.positive
    omega
  quiet _ := ⟨rfl, rfl⟩
  moved some := absurd rfl some
  untouched _ _ := rfl
  written _ none := by cases none
  erased _ none := by cases none

theorem le_current (midway : Midway view archived r done live s) : r ≤ s.currentRevision := by
  by_cases none : writeCount done = 0
  · exact (midway.quiet none).2.ge
  · exact (midway.moved none).le

/-- The old records are not newer than the old revision, and what was put is. -/
theorem get?_eq_iff (midway : Midway view archived r done live s) (key : Bytes) :
    view.get? key = live.get? key ↔ lastWrite key done ≠ some .put ∧
      ((view.get? key).isSome → lastWrite key done = none) := by
  rcases write : lastWrite key done with _ | _ | _
  · simp [midway.untouched key write]
  · obtain ⟨kv, found, newer⟩ := midway.written key write
    rw [found]
    refine iff_of_false (fun same => ?_) (fun both => both.1 rfl)
    have old := midway.past.bounded key kv same
    omega
  · simp [midway.erased key write]

/-- An operation that writes keys, and leaves the others as they were. -/
theorem write (midway : Midway view archived r done live s) {op : RequestOp} {live' : RefMap}
    {s' : MvccStore} (stocked : ∃ stored, Stocked stored live' s') (past : ShowsPast view archived r s')
    (mutates : op.mutates = true) (later : s.currentRevision < s'.currentRevision)
    (frame : ∀ key, op.keyWrite key = none → live'.get? key = live.get? key)
    (puts : ∀ key, op.keyWrite key = some .put →
      ∃ kv, live'.get? key = some kv ∧ s.currentRevision < kv.modRevision)
    (deletes : ∀ key, op.keyWrite key = some .deletion → live'.get? key = none) :
    Midway view archived r (done ++ [some op]) live' s' := by
  have le := midway.le_current
  have count : writeCount (done ++ [some op]) = writeCount done + 1 := by
    rw [writeCount_append, if_pos mutates]
  have last : ∀ key, lastWrite key (done ++ [some op]) = (op.keyWrite key).or (lastWrite key done) :=
    fun key => lastWrite_append key done (some op)
  refine ⟨stocked, past, midway.named, midway.positive, fun none => by omega, fun _ => by omega,
    fun key none => ?_, fun key put => ?_, fun key deleted => ?_⟩
  · rw [last, Option.or_eq_none_iff] at none
    exact (frame key none.1).trans (midway.untouched key none.2)
  · rw [last, Option.or_eq_some_iff] at put
    rcases put with own | ⟨silent, before⟩
    · obtain ⟨kv, found, newer⟩ := puts key own
      exact ⟨kv, found, by omega⟩
    · rw [frame key silent]
      exact midway.written key before
  · rw [last, Option.or_eq_some_iff] at deleted
    rcases deleted with own | ⟨silent, before⟩
    · exact deletes key own
    · rw [frame key silent]
      exact midway.erased key before

/-- A `put` of the transaction. -/
theorem put (midway : Midway view archived r done live s) {request : PutRequest}
    (short : StoreHistory.Short (.put request.key request.value request.lease))
    (room : s.currentRevision + 1 < 2 ^ 63) :
    ∃ live', Midway view archived r (done ++ [some (.requestPut request)]) live'
      ((MvccStore.put request.key request.value request.lease).run s).2 := by
  obtain ⟨stored, stocked⟩ := midway.stocked
  rw [stocked.listed.put_run room]
  refine ⟨_, midway.write ⟨_, stocked.put short room⟩
    (midway.past.put midway.le_current stocked.listed room _) rfl (by simp only [afterPut]; omega)
    (fun key none => ?_) (fun key put => ?_) (fun key deleted => ?_)⟩
  · rw [RequestOp.keyWrite] at none
    split_ifs at none with same
    rw [OrdMap.get?_insert, if_neg (Ne.symm same)]
  · rw [RequestOp.keyWrite] at put
    split_ifs at put with same
    rw [OrdMap.get?_insert, if_pos same.symm]
    refine ⟨_, rfl, ?_⟩
    rw [refRecord_modRevision]
    omega
  · rw [RequestOp.keyWrite] at deleted
    split_ifs at deleted
    cases deleted

/-- A deletion of the transaction. -/
theorem deleteRange (midway : Midway view archived r done live s) {request : DeleteRangeRequest}
    (room : s.currentRevision + 1 < 2 ^ 63)
    (accepts : KeyIndex.Accepts s.keyIndex.held request.key
      (txnRangeEnd request.key request.rangeEnd)) :
    ∃ live', Midway view archived r (done ++ [some (.requestDeleteRange request)]) live'
      ((MvccStore.deleteRange request.key (txnRangeEnd request.key request.rangeEnd)).run s).2 := by
  obtain ⟨stored, stocked⟩ := midway.stocked
  rw [stocked.listed.deleteRange_run room accepts]
  refine ⟨_, midway.write ⟨_, stocked.deleteRange room _ _⟩
    (midway.past.deleteRange midway.le_current stocked.listed room _) rfl
    (by simp only [afterDelete]; omega) (fun key none => ?_) (fun key put => ?_) (fun key deleted => ?_)⟩
  · rw [RequestOp.keyWrite] at none
    split_ifs at none with inside
    rw [applyCall, OrdMap.get?_filter, if_pos (by simp [inside])]
  · rw [RequestOp.keyWrite] at put
    split_ifs at put
    cases put
  · rw [RequestOp.keyWrite] at deleted
    split_ifs at deleted with inside
    rw [applyCall, OrdMap.get?_filter, if_neg (by simp [inside])]

/-- An operation without effect. -/
theorem skip (midway : Midway view archived r done live s) (op : Option RequestOp)
    (silent : ∀ key, op.bind (RequestOp.keyWrite key) = none) (reads : op.any RequestOp.mutates = false) :
    Midway view archived r (done ++ [op]) live s := by
  have count : writeCount (done ++ [op]) = writeCount done := by
    rw [writeCount, List.countP_append, List.countP_singleton, reads]
    rfl
  have last : ∀ key, lastWrite key (done ++ [op]) = lastWrite key done := fun key => by
    rw [lastWrite_append, silent, Option.none_or]
  exact
    { midway with
      quiet := by simpa only [count] using midway.quiet
      moved := by simpa only [count] using midway.moved
      untouched := by simpa only [last] using midway.untouched
      written := by simpa only [last] using midway.written
      erased := by simpa only [last] using midway.erased }

/-! ### The reads in the middle -/

/-- The selected records are the live ones, and as many as all, iff the interval has the same records and
the selection drops none. -/
theorem sameListing_iff (midway : Midway view archived r done live s) (start stop : Bytes) :
    (rangeOf (view.filter archived) start stop).kvs = (rangeOf live start stop).kvs ∧
        (rangeOf view start stop).count = (rangeOf live start stop).count ↔
      ∀ key, Bytes.InRange start stop key →
        view.get? key = live.get? key ∧ ((view.get? key).isSome → archived key = true) := by
  obtain ⟨stored, stocked⟩ := midway.stocked
  have named : ∀ key kv, (view.filter archived).get? key = some kv → kv.key = key := by
    intro key kv found
    rw [OrdMap.get?_filter] at found
    split_ifs at found
    exact midway.named key kv found
  have listings := rangeOf_kvs_eq_iff named (fun _ _ => stocked.listed.named) start stop start stop
  have counted : (rangeOf (view.filter archived) start stop).kvs = (rangeOf live start stop).kvs →
      (rangeOf (view.filter archived) start stop).count = (rangeOf live start stop).count := by
    intro same
    simpa only [rangeOf, List.length_map] using congrArg List.length same
  have whole : ∀ key, ((view.get? key).isSome → archived key = true) →
      (view.filter archived).get? key = view.get? key := by
    intro key kept
    rw [OrdMap.get?_filter]
    split_ifs with there
    · rfl
    · exact (Option.not_isSome_iff_eq_none.mp fun some => there (kept some)).symm
  constructor
  · rintro ⟨same, counts⟩ key inside
    have kept := (rangeOf_count_filter_iff view archived _ _).mp (counts.trans (counted same).symm) key inside
    have here := listings.mp same key
    rw [if_pos inside, if_pos inside, whole key kept] at here
    exact ⟨here, kept⟩
  · intro shown
    have same := listings.mpr fun key => by
      split_ifs with inside
      · rw [whole key (shown key inside).2, (shown key inside).1]
      · rfl
    exact ⟨same, ((rangeOf_count_filter_iff view archived _ _).mpr fun key inside =>
      (shown key inside).2).trans (counted same)⟩

/-- **When a read at the old revision is the read of the store as it is.** -/
theorem read_iff (midway : Midway view archived r done live s) {request : RangeRequest}
    (accepts : KeyIndex.Accepts s.keyIndex.held request.key
      (txnRangeEnd request.key request.rangeEnd)) :
    readAt r s request = readOf s request ↔ writeCount done = 0 ∨
      ∀ key, Bytes.InRange request.key (txnRangeEnd request.key request.rangeEnd) key →
        lastWrite key done ≠ some .put ∧
          ((view.get? key).isSome → archived key = true ∧ lastWrite key done = none) := by
  obtain ⟨stored, stocked⟩ := midway.stocked
  by_cases none : writeCount done = 0
  · rw [readOf, (midway.quiet none).2]
    exact iff_of_true rfl (.inl none)
  · have all : ∀ stop, (rangeOf live request.key stop).more = false := fun _ => rfl
    rw [or_iff_right none, readOf, readAt, readAt, midway.past.range midway.positive
      (midway.moved none) accepts, stocked.listed.range_current accepts]
    simp only [Outcome.map, Outcome.ok.injEq, ResponseOp.responseRange.injEq, true_and, all,
      midway.sameListing_iff, midway.get?_eq_iff]
    refine forall₂_congr fun key _ => ?_
    tauto

/-! ### The operations -/

variable {leader leader' : Leader}

/-- **One operation of the transaction** that returned: what it did to the store, and what a range
answered. -/
theorem step (midway : Midway view archived r done live leader.store) {op : RequestOp}
    (short : ∀ request, op = .requestPut request →
      StoreHistory.Short (.put request.key request.value request.lease)) {response : ResponseOp}
    (executed : (executeOp r op).run leader = (.ok response, leader')) :
    leader'.store = op.after leader.store ∧
      (∃ live', Midway view archived r (done ++ [some op]) live' leader'.store) ∧
      ∀ request, op = .requestRange request → readAt r leader.store request = .ok response := by
  cases op with
  | requestRange range =>
    obtain ⟨result, middle, read, answers⟩ := Exec.run_bind_eq_ok executed
    obtain ⟨shown, rfl⟩ := onRead_eq_ok read
    cases answers
    refine ⟨rfl, ⟨live, midway.skip _ (fun _ => rfl) rfl⟩, fun request same => ?_⟩
    cases same
    rw [readAt, shown]
    rfl
  | requestPut request =>
    obtain ⟨⟨revision, kv, oldKv⟩, middle, stored, answers⟩ := Exec.run_bind_eq_ok executed
    obtain ⟨s, ran, rfl⟩ := onStore_eq_ok stored
    cases answers
    have after := midway.put (short request rfl) (put_answer ran).1
    rw [ran] at after
    refine ⟨?_, after, fun request same => by cases same⟩
    rw [RequestOp.after, ran]
  | requestDeleteRange request =>
    obtain ⟨prevKvs, middle, previous, deleting⟩ := Exec.run_bind_eq_ok executed
    cases previousKvs_eq_ok previous
    obtain ⟨⟨revision, deleted⟩, middle, stored, answers⟩ := Exec.run_bind_eq_ok deleting
    obtain ⟨s, ran, rfl⟩ := onStore_eq_ok stored
    cases answers
    have room := (deleteRange_answer ran).1
    have after := midway.deleteRange room (accepts_of_deleteRange (congrArg Prod.fst ran))
    rw [ran] at after
    refine ⟨?_, after, fun request same => by cases same⟩
    rw [RequestOp.after, ran]
  | requestTxn => cases executed

/-- **The operations of the transaction**, if they all returned: the answer to each range among them is
its read at the old revision, in the middle that the operations before it have led to. -/
theorem run {ops : List (Option RequestOp)} (short : ∀ request, some (.requestPut request) ∈ ops →
      StoreHistory.Short (.put request.key request.value request.lease)) :
    ∀ (done : List (Option RequestOp)) (live : RefMap) (leader : Leader) (responses : List ResponseOp),
      Midway view archived r done live leader.store →
      (executeOps r ops).run leader = (.ok responses, leader') →
      ∀ before request rest, ops = before ++ some (.requestRange request) :: rest →
        ∃ live' answer, Midway view archived r (done ++ before) live' (afterOps before leader.store) ∧
          responses[before.countP Option.isSome]? = some answer ∧
          readAt r (afterOps before leader.store) request = .ok answer := by
  induction ops with
  | nil =>
    intro done live leader responses _ _ before request rest split
    cases before <;> cases split
  | cons op ops ih =>
    intro done live leader responses midway executed before request rest split
    have shorter := ih fun request member => short request (List.mem_cons_of_mem _ member)
    cases op with
    | none =>
      cases before with
      | nil => cases split
      | cons first before =>
        obtain ⟨rfl, tail⟩ := List.cons.inj split
        have next := shorter _ live leader responses (midway.skip none (fun _ => rfl) rfl)
          executed before request rest tail
        rw [List.append_assoc, List.singleton_append] at next
        exact next
    | some op =>
      obtain ⟨response, middle, here, others⟩ := Exec.run_bind_eq_ok executed
      obtain ⟨later, last, others, answers⟩ := Exec.run_bind_eq_ok others
      cases answers
      obtain ⟨store, ⟨live', after⟩, reads⟩ := midway.step
        (fun request same => short request (same ▸ List.mem_cons_self)) here
      cases before with
      | nil =>
        obtain ⟨same, -⟩ := List.cons.inj split
        refine ⟨live, response, ?_, rfl, reads request (Option.some.inj same)⟩
        rw [List.append_nil]
        exact midway
      | cons first before =>
        obtain ⟨rfl, tail⟩ := List.cons.inj split
        obtain ⟨live'', answer, midway', listed, read⟩ := shorter _ live' middle later after others
          before request rest tail
        rw [List.append_assoc, List.singleton_append] at midway'
        rw [store] at midway' read
        refine ⟨live'', answer, midway', ?_, read⟩
        rw [List.countP_cons_of_pos rfl, List.getElem?_cons_succ]
        exact listed

end Midway

/-! ### The transaction -/

/-- The comparisons change nothing. -/
theorem evaluateAll_keeps (leader : Leader) (revision : Int) (compares : List Compare) :
    Exec.Keeps (· = leader) (evaluateAll revision compares) := by
  induction compares with
  | nil => exact Exec.Keeps.pure _
  | cons cmp rest ih =>
    have read : Exec.Keeps (· = leader) (onReadOk (lookupKey cmp.key fun _ => revision)) := by
      intro l same
      rcases answer : lookupKey cmp.key (fun _ => revision) l.store with kv | e | _ <;>
        simpa only [onReadOk, answer] using same
    refine Exec.Keeps.bind (read.bind fun _ => Exec.Keeps.pure _) fun holds => ?_
    cases holds
    · exact Exec.Keeps.pure _
    · exact ih

/-- **A transaction that was answered** has executed the operations of the branch, and they all
returned. -/
theorem serveTxn_ok {request : TxnRequest} {leader leader' : Leader} {response : TxnResponse}
    (answered : (serveTxn request).run leader = (.ok response, leader')) :
    (executeOps leader.store.currentRevision (selectedOps leader request)).run leader =
      (.ok response.responses, leader') := by
  obtain ⟨revision, middle, header, evaluating⟩ := Exec.run_bind_eq_ok answered
  cases header
  obtain ⟨holds, middle, evaluated, executing⟩ := Exec.run_bind_eq_ok evaluating
  obtain ⟨responses, last, executed, answers⟩ := Exec.run_bind_eq_ok executing
  cases answers
  have same := evaluateAll_keeps leader leader.store.currentRevision request.compare leader rfl
  rw [evaluated] at same
  rw [selectedOps, evaluated]
  cases holds <;> rw [← executed, ← same] <;> rfl

/-- **When every range of a transaction shows the operations before it.** In every transaction that is
answered, on every store: the answer to each range is the read of the state that the operations before it
lead to, iff each range has no write before it, or one that leaves its interval as it was: no key of it is
put, none of its live keys is deleted or has lost its record in `kv_rev`. -/
theorem txn_reads_earlier_iff (leader leader' : Leader) (inUse : InUse leader.store)
    (request : TxnRequest) (short : ∀ put, some (.requestPut put) ∈ request.success ++ request.failure →
      StoreHistory.Short (.put put.key put.value put.lease)) (response : TxnResponse)
    (answered : (serveTxn request).run leader = (.ok response, leader')) :
    (∀ before range rest, selectedOps leader request = before ++ some (.requestRange range) :: rest →
        ∃ answer, response.responses[before.countP Option.isSome]? = some answer ∧
          readOf (afterOps before leader.store) range = .ok answer) ↔
      ∀ before range rest, selectedOps leader request = before ++ some (.requestRange range) :: rest →
        ShowsEarlier leader.store before range := by
  obtain ⟨stored, live, stocked⟩ := inUse.stocked
  have admissible : ∀ put, some (.requestPut put) ∈ selectedOps leader request →
      StoreHistory.Short (.put put.key put.value put.lease) := by
    intro put member
    refine short put (List.mem_append.mpr ?_)
    unfold selectedOps at member
    split at member
    · exact .inl member
    · exact .inr member
    · cases member
    · cases member
  have reads := Midway.run admissible [] live leader response.responses (.start stocked)
    (serveTxn_ok answered)
  refine forall_congr' fun before => forall_congr' fun range => forall₂_congr fun rest split => ?_
  obtain ⟨live', answer, midway, listed, read⟩ := reads before range rest split
  rw [List.nil_append] at midway
  obtain ⟨result, returned, -⟩ := Outcome.map_eq_ok.mp read
  have agree := midway.read_iff (accepts_of_range returned)
  rw [read] at agree
  simp only [listed, Option.some.injEq, exists_eq_left', ShowsEarlier, stocked.listed.live_iff]
  rw [← agree, eq_comm]

/-- A transaction without comparisons. -/
def txnOf (ops : List RequestOp) : TxnRequest := ⟨[], ops.map some, []⟩

/-- A leader over one key, `a`. -/
def oneKeyLeader : Leader :=
  ⟨((MvccStore.put [97] [49] 0).run (.new .empty)).2, ⟨fun _ => none, 1⟩, []⟩

theorem oneKeyLeader_inUse : InUse oneKeyLeader.store := .put .fresh (by decide) (by decide)

/-- The transaction that puts `b` and reads `a`. -/
def otherKeyTxn : TxnRequest :=
  txnOf [.requestPut ⟨[98], [50], 0, false, false, false⟩, .requestRange ⟨[97], []⟩]

/-- It reads `a` as the put of `b` leaves it. -/
theorem other_key_read_earlier :
    ∃ response, ((serveTxn otherKeyTxn).run oneKeyLeader).1 = .ok response ∧
      ∀ before range rest, selectedOps oneKeyLeader otherKeyTxn =
          before ++ some (.requestRange range) :: rest →
        ∃ answer, response.responses[before.countP Option.isSome]? = some answer ∧
          readOf (afterOps before oneKeyLeader.store) range = .ok answer := by
  have answered : ((serveTxn otherKeyTxn).run oneKeyLeader).1 =
      .ok ⟨3, true, [.responsePut 3 none, .responseRange 3 [⟨[97], 2, 2, 1, [49], 0⟩] false 1]⟩ := by
    decide +kernel
  refine ⟨_, answered, (txn_reads_earlier_iff oneKeyLeader _ oneKeyLeader_inUse otherKeyTxn ?_ _
    (Prod.ext answered rfl)).mpr ?_⟩
  · intro put member
    have only : put = ⟨[98], [50], 0, false, false, false⟩ := by
      simpa [otherKeyTxn, txnOf] using member
    subst only
    decide
  · intro before range rest split
    have selected : selectedOps oneKeyLeader otherKeyTxn =
      [some (.requestPut ⟨[98], [50], 0, false, false, false⟩), some (.requestRange ⟨[97], []⟩)] := rfl
    rw [selected] at split
    obtain ⟨rfl, rfl⟩ : before = [some (.requestPut ⟨[98], [50], 0, false, false, false⟩)] ∧
        range = ⟨[97], []⟩ := by
      rcases before with _ | ⟨first, _ | ⟨second, before⟩⟩ <;> simp_all
    refine .inr fun key inside => ?_
    obtain rfl : key = [97] := Bytes.inRange_single.mp inside
    decide +kernel

/-- The transaction that puts `a` and reads it. -/
def ownKeyTxn : TxnRequest :=
  txnOf [.requestPut ⟨[97], [50], 0, false, false, false⟩, .requestRange ⟨[97], []⟩]

/-- **A put that the next range does not show**: the answer is the record from before the transaction. -/
theorem put_not_read :
    InUse oneKeyLeader.store ∧
      selectedOps oneKeyLeader ownKeyTxn =
        [some (.requestPut ⟨[97], [50], 0, false, false, false⟩), some (.requestRange ⟨[97], []⟩)] ∧
      ((serveTxn ownKeyTxn).run oneKeyLeader).1 =
        .ok ⟨3, true, [.responsePut 3 none, .responseRange 3 [⟨[97], 2, 2, 1, [49], 0⟩] false 1]⟩ ∧
      readOf (afterOps [some (.requestPut ⟨[97], [50], 0, false, false, false⟩)] oneKeyLeader.store)
        ⟨[97], []⟩ = .ok (.responseRange 3 [⟨[97], 2, 3, 2, [50], 0⟩] false 1) :=
  ⟨oneKeyLeader_inUse, rfl, by decide +kernel, by decide +kernel⟩

end Rusd
