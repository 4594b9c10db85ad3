/-
**The previous values of a deletion** (`api/kv_service.rs`, `delete_range` and the deletions of `txn`).

The previous values come from a read of the store, the deletion from a call of its own. Between the two lie
the load of the counter, the wait for the commit, or the operations of the transaction before the deletion,
and whatever other requests do meanwhile.

* `Script.meets` — what is left of a handler after its calls met these stores, one after another;
  `meets_bind` takes a handler apart.
* `Traffic` — any number of requests over one store, call by call, each with the stores that it met.
* `Kept` — every store that a request met is a part of one chronicle.
* `prev_kvs_exact_iff` — a deletion returns the records it removed exactly if its read found, under every key of
  the interval, the last change that the deletion finds.
-/

import Rusd.Api.Intervals
import Rusd.Api.HeaderRevision

namespace Rusd

open MvccStore Script

/-! ### A handler and the stores it meets -/

namespace Script

variable {α β : Type}

/-- What is left of the script after its calls met these stores. -/
def meets : Script α → List MvccStore → Option (Script α)
  | m, [] => some m
  | .call c next, s :: rest => (resume next (c.exec.run s).1).meets rest
  | .ret _, _ :: _ => none
  | .fail _, _ :: _ => none
  | .crashed, _ :: _ => none

theorem meets_nil (m : Script α) : m.meets [] = some m := by
  cases m <;> rfl

/-- One more call. -/
theorem meets_concat {m : Script α} {met : List MvccStore} {c : StoreCall}
    {next : Except StorageError c.Answer → Script α} (left : m.meets met = some (.call c next))
    (s : MvccStore) : m.meets (met ++ [s]) = some (resume next (c.exec.run s).1) := by
  induction met generalizing m with
  | nil =>
    rw [meets_nil] at left
    obtain rfl := Option.some.inj left
    exact meets_nil _
  | cons first rest ih =>
    cases m with
    | call c next => exact ih left
    | ret value => cases left
    | fail status => cases left
    | crashed => cases left

/-- The first call of a handler and of what follows it. -/
theorem meets_bind_cons (c : StoreCall) (next : Except StorageError c.Answer → Script α)
    (f : α → Script β) (s : MvccStore) (rest : List MvccStore) :
    (Script.call c next >>= f).meets (s :: rest) = (resume next (c.exec.run s).1 >>= f).meets rest := by
  have step : (Script.call c next >>= f).meets (s :: rest) =
      (resume (fun answer => next answer >>= f) (c.exec.run s).1).meets rest := rfl
  rw [step]
  rcases (c.exec.run s).1 with value | e | _ <;> rfl

/-- **A handler that answered**: its first part answered, and then the rest. -/
theorem meets_bind {m : Script α} {f : α → Script β} {met : List MvccStore} {b : β}
    (answered : (m >>= f).meets met = some (.ret b)) :
    ∃ a front back, met = front ++ back ∧ m.meets front = some (.ret a) ∧
      (f a).meets back = some (.ret b) := by
  induction met generalizing m with
  | nil =>
    cases m with
    | ret a => exact ⟨a, [], [], rfl, rfl, answered⟩
    | fail status => cases answered
    | crashed => cases answered
    | call c next => cases answered
  | cons s rest ih =>
    cases m with
    | ret a => exact ⟨a, [], s :: rest, rfl, rfl, answered⟩
    | fail status => cases answered
    | crashed => cases answered
    | call c next =>
      rw [meets_bind_cons] at answered
      obtain ⟨a, front, back, rfl, first, second⟩ := ih answered
      exact ⟨a, s :: front, back, rfl, first, second⟩

/-- A first part that answered, and then the rest. -/
theorem meets_append {m : Script α} {f : α → Script β} {front back : List MvccStore} {a : α}
    {left : Script β} (first : m.meets front = some (.ret a)) (second : (f a).meets back = some left) :
    (m >>= f).meets (front ++ back) = some left := by
  induction front generalizing m with
  | nil =>
    rw [meets_nil] at first
    obtain rfl := Option.some.inj first
    exact second
  | cons s rest ih =>
    cases m with
    | call c next =>
      rw [List.cons_append, meets_bind_cons]
      exact ih first
    | ret value => cases first
    | fail status => cases first
    | crashed => cases first

theorem meets_ret {value b : α} {met : List MvccStore}
    (answered : (Script.ret value).meets met = some (.ret b)) : met = [] ∧ b = value := by
  rcases met with _ | ⟨s, rest⟩
  · cases answered
    exact ⟨rfl, rfl⟩
  · cases answered

theorem meets_pure {value b : α} {met : List MvccStore}
    (answered : (pure value : Script α).meets met = some (.ret b)) : met = [] ∧ b = value :=
  meets_ret answered

/-- A handler of the service wraps the response. -/
theorem meets_wrapped (m : Script α) (wrap : α → β) {met : List MvccStore} {b : β}
    (answered : (m >>= fun response => pure (wrap response)).meets met = some (.ret b)) :
    ∃ response, m.meets met = some (.ret response) ∧ b = wrap response := by
  obtain ⟨response, front, none_, rfl, ran, ends⟩ := meets_bind answered
  obtain ⟨rfl, same⟩ := meets_pure ends
  exact ⟨response, by rwa [List.append_nil], same⟩

/-- A call that answered met one store. -/
theorem meets_perform {c : StoreCall} {failure : String} {met : List MvccStore} {answer : c.Answer}
    (answered : (perform c failure).meets met = some (.ret answer)) :
    ∃ s, met = [s] ∧ (c.exec.run s).1 = .ok answer := by
  rcases met with _ | ⟨s, rest⟩
  · cases answered
  · rw [perform, meets] at answered
    rcases outcome : (c.exec.run s).1 with value | e | _
    · rw [outcome] at answered
      obtain ⟨rfl, rfl⟩ := meets_ret answered
      exact ⟨s, rfl, outcome⟩
    · rw [outcome] at answered
      rcases rest with _ | ⟨s', rest⟩
      · cases answered
      · cases answered
    · rw [outcome] at answered
      rcases rest with _ | ⟨s', rest⟩
      · cases answered
      · cases answered

theorem meets_load {met : List MvccStore} {revision : Int}
    (answered : load.meets met = some (.ret revision)) :
    ∃ s, met = [s] ∧ revision = s.currentRevision := by
  obtain ⟨s, rfl, loaded⟩ := meets_perform answered
  cases loaded
  exact ⟨s, rfl, rfl⟩

end Script

/-! ### A deletion that answered -/

/-- **A deletion with its previous values** met three stores, behind those of the revision it reads at: the
read, the deletion, and the header. -/
theorem deletion_meets {start stop : Bytes} {revision : Script Int} {readFailure failure : String}
    {met : List MvccStore} {response : ResponseOp}
    (answered : (deletion true start stop revision readFailure failure).meets met =
      some (.ret response)) :
    ∃ q front read store last result removed, met = front ++ [read, store, last] ∧
      revision.meets front = some (.ret q) ∧ read.range start stop q 0 false = .ok result ∧
      ((MvccStore.deleteRange start stop).run store).1 = .ok removed ∧
      response = .responseDeleteRange last.currentRevision removed.2.length result.kvs := by
  rw [deletion] at answered
  obtain ⟨kvs, previous, rest, rfl, readings, deletes⟩ := meets_bind answered
  obtain ⟨q, front, tail, rfl, loads, reads⟩ := meets_bind (m := revision) (f := fun r =>
    perform (.range start stop r 0 false) readFailure >>= fun result => pure result.kvs) readings
  obtain ⟨result, one, none_, rfl, performed, returns⟩ := meets_bind reads
  obtain ⟨read, rfl, called⟩ := meets_perform performed
  obtain ⟨rfl, rfl⟩ := meets_pure returns
  obtain ⟨removed, two, three, rfl, deleting, heading⟩ := meets_bind deletes
  obtain ⟨store, rfl, deleted⟩ := meets_perform deleting
  obtain ⟨header, four, five, rfl, loading, ends⟩ := meets_bind heading
  obtain ⟨last, rfl, rfl⟩ := meets_load loading
  obtain ⟨rfl, rfl⟩ := meets_pure ends
  refine ⟨q, front, read, store, last, result, removed, by simp, loads, called, deleted, rfl⟩

/-- The operations of a transaction before one of them, its own calls, and its answer. -/
theorem opsScript_meets {revision : Int} {before after : List (Option RequestOp)} {op : RequestOp}
    {met : List MvccStore} {responses : List ResponseOp}
    (answered : (opsScript revision (before ++ some op :: after)).meets met = some (.ret responses)) :
    ∃ earlier response later front mid back, met = front ++ mid ++ back ∧
      responses = earlier ++ response :: later ∧
      (opsScript revision before).meets front = some (.ret earlier) ∧
      (opScript revision op).meets mid = some (.ret response) := by
  induction before generalizing met responses with
  | nil =>
    rw [List.nil_append, opsScript] at answered
    obtain ⟨response, mid, tail, rfl, ran, rest⟩ := meets_bind answered
    obtain ⟨later, back, none_, rfl, others, ends⟩ := meets_bind rest
    obtain ⟨rfl, rfl⟩ := meets_pure ends
    exact ⟨[], response, later, [], mid, back ++ [], by simp, rfl, rfl, ran⟩
  | cons first before ih =>
    cases first with
    | none => exact ih answered
    | some first =>
      rw [List.cons_append, opsScript] at answered
      obtain ⟨own, mine, tail, rfl, ran, rest⟩ := meets_bind answered
      obtain ⟨others, back, none_, rfl, executed, ends⟩ := meets_bind rest
      obtain ⟨rfl, rfl⟩ := meets_pure ends
      obtain ⟨earlier, response, later, front, mid, back, rfl, rfl, begun, answers⟩ := ih executed
      refine ⟨own :: earlier, response, later, mine ++ front, mid, back, by simp, rfl, ?_, answers⟩
      have alone : (opsScript revision before >>= fun others => pure (own :: others)).meets (front ++ []) =
          some (.ret (own :: earlier)) := meets_append begun rfl
      rw [List.append_nil] at alone
      exact meets_append ran alone

/-- A transaction up to one of its operations. -/
def txnUntil (request : TxnRequest) (before : List (Option RequestOp)) : Script (List ResponseOp) := do
  let currentRevision ← load
  let _ ← compareScript currentRevision request.compare
  opsScript currentRevision before

/-- **A deletion with its previous values in a transaction that answered.** -/
theorem txnScript_meets {request : TxnRequest} {met : List MvccStore} {response : TxnResponse}
    (answered : (txnScript request).meets met = some (.ret response))
    {before after : List (Option RequestOp)} {request' : DeleteRangeRequest}
    (executed : (if response.succeeded then request.success else request.failure) =
      before ++ some (.requestDeleteRange request') :: after) (wanted : request'.prevKv = true) :
    ∃ loaded front read store last back earlier later result removed,
      met = loaded :: front ++ [read, store, last] ++ back ∧
      (txnUntil request before).meets (loaded :: front) = some (.ret earlier) ∧
      read.range request'.key (txnRangeEnd request'.key request'.rangeEnd) loaded.currentRevision 0 false =
        .ok result ∧
      ((MvccStore.deleteRange request'.key (txnRangeEnd request'.key request'.rangeEnd)).run store).1 =
        .ok removed ∧
      response.responses = earlier ++
        .responseDeleteRange last.currentRevision removed.2.length result.kvs :: later := by
  rw [txnScript] at answered
  obtain ⟨q, one, tail, rfl, loading, rest⟩ := meets_bind answered
  obtain ⟨loaded, rfl, rfl⟩ := meets_load loading
  obtain ⟨succeeded, compares, tail, rfl, compared, rest⟩ := meets_bind rest
  obtain ⟨responses, ops, tail, rfl, ran, rest⟩ := meets_bind rest
  obtain ⟨header, two, three, rfl, -, ends⟩ := meets_bind rest
  obtain ⟨rfl, rfl⟩ := meets_pure ends
  simp only at executed
  rw [executed] at ran
  obtain ⟨earlier, response, later, front, mid, back, rfl, listed, begun, own⟩ := opsScript_meets ran
  rw [opScript_deleteRange_eq, wanted] at own
  obtain ⟨q, none_, read, store, last, result, removed, rfl, fixed, called, deleted, rfl⟩ :=
    deletion_meets own
  obtain ⟨rfl, rfl⟩ := meets_pure fixed
  refine ⟨loaded, compares ++ front, read, store, last, back ++ (two ++ []), earlier, later, result,
    removed, by simp, ?_, called, deleted, listed⟩
  have loads : load.meets [loaded] = some (.ret loaded.currentRevision) := rfl
  exact meets_append (m := load) loads (meets_append compared begun)

/-! ### What the read found and what was removed -/

/-- The store is of this history. -/
def PartOf (hist : Int → Bytes → Option KeyValue) (s : MvccStore) : Prop :=
  ∃ own stored live, Chronicle own stored live s ∧ Extends own hist

theorem PartOf.mono {hist later : Int → Bytes → Option KeyValue} {s : MvccStore} (part : PartOf hist s)
    (grows : Extends hist later) : PartOf later s := by
  obtain ⟨own, stored, live, chronicle, within⟩ := part
  exact ⟨own, stored, live, chronicle, within.trans grows⟩

/-- The read found, under every key of the interval, the change that the deletion finds. -/
def FindsAlike (start stop : Bytes) (q : Int) (read store : MvccStore) : Prop :=
  ∀ key, Bytes.InRange start stop key → read.finds q key = store.finds store.currentRevision key

/-- The previous values are the records that the deletion removes, and are counted. -/
def ExactlyRemoved (start stop : Bytes) (store : MvccStore) (deleted : Nat) (prevKvs : List KeyValue) :
    Prop :=
  ∃ revision, ((MvccStore.deleteRange start stop).run store).1 = .ok (revision, prevKvs) ∧
    deleted = prevKvs.length

/-- A deletion without interruption. -/
theorem findsAlike_self (start stop : Bytes) (s : MvccStore) :
    FindsAlike start stop s.currentRevision s s :=
  fun _ _ => rfl

/-- **What a deletion removes** is what a read of the latest records lists. -/
theorem Chronicle.removed_eq {hist : Int → Bytes → Option KeyValue} {stored live : RefMap} {s : MvccStore}
    (chronicle : Chronicle hist stored live s) {start stop : Bytes} {removed : Int × List KeyValue}
    (deleted : ((MvccStore.deleteRange start stop).run s).1 = .ok removed) :
    removed.2 = s.listing start stop s.currentRevision := by
  have listed := chronicle.stocked.listed
  have room : s.currentRevision + 1 < 2 ^ 63 := (deleteRange_answer (Prod.ext deleted rfl)).1
  have accepts := accepts_of_deleteRange deleted
  rw [listed.deleteRange_run room accepts] at deleted
  obtain rfl := Outcome.ok.inj deleted
  have read := chronicle.range accepts s.currentRevision 0
  rw [listed.range_current accepts] at read
  exact congrArg RangeResult.kvs (Outcome.ok.inj read)

/-- **The previous values are the removed records** exactly if the read found what the deletion finds. -/
theorem kvs_eq_removed_iff {hist : Int → Bytes → Option KeyValue} {read store : MvccStore}
    (first : PartOf hist read) (second : PartOf hist store) {start stop : Bytes} {q : Int}
    {result : RangeResult} {removed : Int × List KeyValue}
    (returned : read.range start stop q 0 false = .ok result)
    (deleted : ((MvccStore.deleteRange start stop).run store).1 = .ok removed) :
    ExactlyRemoved start stop store removed.2.length result.kvs ↔ FindsAlike start stop q read store := by
  obtain ⟨own, stored, live, chronicle, within⟩ := first
  obtain ⟨own', stored', live', chronicle', within'⟩ := second
  have listed : result.kvs = read.listing start stop q := by
    rw [chronicle.range (accepts_of_range returned)] at returned
    obtain rfl := Outcome.ok.inj returned
    rfl
  have exact_ : ExactlyRemoved start stop store removed.2.length result.kvs ↔ result.kvs = removed.2 := by
    constructor
    · rintro ⟨revision, same, -⟩
      rw [same] at deleted
      exact congrArg Prod.snd (Outcome.ok.inj deleted)
    · intro same
      exact ⟨removed.1, by rw [same]; exact deleted, by rw [same]⟩
  rw [exact_, listed, chronicle'.removed_eq deleted, chronicle.listing_eq_iff chronicle']
  exact forall₂_congr fun key _ => chronicle.view_eq_iff chronicle' within within' q _ key

/-! ### Requests over one store -/

/-- What comes over the wire: records that fit their length prefixes, 64-bit numbers. -/
def StoreCall.Sized : StoreCall → Prop
  | .put key value lease => StoreHistory.Short (.put key value lease)
  | .compact revision => IsI64 revision
  | .currentRevision => True
  | .range _ _ _ _ _ => True
  | .deleteRange _ _ => True

instance : DecidablePred StoreCall.Sized
  | .put key value lease =>
    inferInstanceAs (Decidable (40 + key.length + value.length < 2 ^ 32 ∧ IsI64 lease))
  | .compact revision => inferInstanceAs (Decidable (IsI64 revision))
  | .currentRevision => isTrue trivial
  | .range _ _ _ _ _ => isTrue trivial
  | .deleteRange _ _ => isTrue trivial

/-- A request, the rest of its handler, and the stores that its calls met. -/
structure Task where
  request : KvRequest
  script : Script KvResponse
  met : List MvccStore

structure Traffic where
  store : MvccStore
  tasks : List Task

namespace Traffic

/-- No request yet. -/
def idle (s : MvccStore) : Traffic := ⟨s, []⟩

/-- A new request, or the next call of one, as long as the revision counter has room. -/
def step (st : Traffic) : RequestStep → Option Traffic
  | .start request => some { st with tasks := st.tasks ++ [⟨request, request.script, []⟩] }
  | .call i =>
    match st.tasks[i]? with
    | none => none
    | some task =>
      match task.script with
      | .call c next =>
        if st.store.currentRevision + 1 < 2 ^ 63 ∧ c.Sized then
          some
            { store := (c.exec.run st.store).2
              tasks := st.tasks.set i
                ⟨task.request, resume next (c.exec.run st.store).1, task.met ++ [st.store]⟩ }
        else none
      | _ => none

variable {st st' : Traffic}

/-- **What one step is.** -/
theorem step_cases {action : RequestStep} (moves : step st action = some st') :
    (∃ request, st' = { st with tasks := st.tasks ++ [⟨request, request.script, []⟩] }) ∨
    ∃ i task c next, st.tasks[i]? = some task ∧ task.script = .call c next ∧
      st.store.currentRevision + 1 < 2 ^ 63 ∧ c.Sized ∧
      st' =
        { store := (c.exec.run st.store).2
          tasks := st.tasks.set i
            ⟨task.request, resume next (c.exec.run st.store).1, task.met ++ [st.store]⟩ } := by
  cases action with
  | start request => exact Or.inl ⟨request, (Option.some.inj moves).symm⟩
  | call i =>
    unfold step at moves
    cases found : st.tasks[i]? with
    | none =>
      simp only [found] at moves
      cases moves
    | some task =>
      simp only [found] at moves
      cases script : task.script with
      | call c next =>
        simp only [script] at moves
        split_ifs at moves with enabled
        exact Or.inr ⟨i, task, c, next, found, script, enabled.1, enabled.2,
          (Option.some.inj moves).symm⟩
      | ret value =>
        simp only [script] at moves
        cases moves
      | fail status =>
        simp only [script] at moves
        cases moves
      | crashed =>
        simp only [script] at moves
        cases moves

end Traffic

/-- **A call keeps the chronicle**, and only adds to it. -/
theorem Chronicle.exec {hist : Int → Bytes → Option KeyValue} {stored live : RefMap} {s : MvccStore}
    (chronicle : Chronicle hist stored live s) (room : s.currentRevision + 1 < 2 ^ 63) {c : StoreCall}
    (sized : c.Sized) :
    ∃ hist' stored' live', Chronicle hist' stored' live' (c.exec.run s).2 ∧ Extends hist hist' := by
  cases c with
  | currentRevision => exact ⟨hist, stored, live, chronicle, .refl hist⟩
  | range start stop revision limit countOnly => exact ⟨hist, stored, live, chronicle, .refl hist⟩
  | put key value lease =>
    have ran := chronicle.stocked.listed.put_run room key value lease
    rw [StoreCall.exec, ran]
    exact ⟨_, _, _, chronicle.put sized room, chronicle.extends_written _⟩
  | deleteRange start stop =>
    rw [StoreCall.exec]
    by_cases valid : KeyIndex.ValidRange start stop
    · rw [chronicle.stocked.listed.deleteRange_run room (.of_valid valid)]
      exact ⟨_, _, _, chronicle.deleteRange room start stop, .refl hist⟩
    · rw [MvccStore.deleteRange_inverted room valid]
      exact ⟨_, _, _, chronicle.skip room, .refl hist⟩
  | compact revision =>
    rw [StoreCall.exec]
    by_cases le : revision ≤ s.currentRevision
    · rw [MvccStore.compact_apply le]
      exact ⟨_, _, _, chronicle.compacted sized le, .refl hist⟩
    · rw [MvccStore.compact_future (not_le.mp le)]
      exact ⟨_, _, _, chronicle, .refl hist⟩

/-- The handler has come as far as its calls have, over stores of this history. -/
structure Task.Kept (hist : Int → Bytes → Option KeyValue) (task : Task) : Prop where
  came : task.request.script.meets task.met = some task.script
  part : ∀ s ∈ task.met, PartOf hist s

/-- **The invariant of the traffic**: one history of all stores that were met. -/
def Traffic.Kept (st : Traffic) : Prop :=
  ∃ hist stored live, Chronicle hist stored live st.store ∧ ∀ task ∈ st.tasks, task.Kept hist

namespace Traffic.Kept

variable {st st' : Traffic}

theorem idle {s : MvccStore} (inUse : InUse s) : (Traffic.idle s).Kept := by
  obtain ⟨hist, stored, live, chronicle⟩ := inUse.chronicle
  exact ⟨hist, stored, live, chronicle, fun task member => by cases member⟩

theorem step {action : RequestStep} (moves : Traffic.step st action = some st') (kept : st.Kept) :
    st'.Kept := by
  obtain ⟨hist, stored, live, chronicle, tasks⟩ := kept
  rcases step_cases moves with ⟨request, rfl⟩ | ⟨i, task, c, next, found, script, room, sized, rfl⟩
  · refine ⟨hist, stored, live, chronicle, fun task member => ?_⟩
    rcases List.mem_append.mp member with old | new
    · exact tasks task old
    · rw [List.mem_singleton.mp new]
      exact ⟨meets_nil _, fun s none => by cases none⟩
  · obtain ⟨hist', stored', live', chronicle', grows⟩ := chronicle.exec room sized
    have mine := tasks task (List.mem_of_getElem? found)
    refine ⟨hist', stored', live', chronicle', fun other member => ?_⟩
    rcases List.mem_or_eq_of_mem_set member with old | rfl
    · exact ⟨(tasks other old).came, fun s met => ((tasks other old).part s met).mono grows⟩
    · refine ⟨meets_concat (script ▸ mine.came) st.store, fun s met => ?_⟩
      rcases List.mem_append.mp met with before | now
      · exact (mine.part s before).mono grows
      · rw [List.mem_singleton.mp now]
        exact ⟨hist, stored, live, chronicle, grows⟩

theorem run {s : MvccStore} (inUse : InUse s) {actions : List RequestStep}
    (runs : runFrom Traffic.step (Traffic.idle s) actions = some st) : st.Kept :=
  run_always (fun _ _ _ moves kept => kept.step moves) (Kept.idle inUse) runs

end Traffic.Kept

/-- **When the previous values are the deleted pairs.** In every run of requests that interleave call by call,
on every store in use: a deletion that answers with its previous values, standalone or in a transaction, returns
the records that its own call removed, and as many as it counts, exactly if its read of them found, under every
key of the interval, the same last change as the deletion. -/
theorem prev_kvs_exact_iff (s : MvccStore) (inUse : InUse s) (actions : List RequestStep) (st : Traffic)
    (runs : runFrom Traffic.step (Traffic.idle s) actions = some st) (task : Task)
    (member : task ∈ st.tasks) :
    (∀ request revision deleted prevKvs, task.request = .deleteRange request → request.prevKv = true →
      task.script = .ret (.op (.responseDeleteRange revision deleted prevKvs)) →
      ∃ loaded read store last, task.met = [loaded, read, store, last] ∧
        (ExactlyRemoved request.key (effectiveRangeEnd request.key request.rangeEnd) store deleted prevKvs ↔
          FindsAlike request.key (effectiveRangeEnd request.key request.rangeEnd) loaded.currentRevision
            read store)) ∧
    ∀ request response, task.request = .txn request → task.script = .ret (.txn response) →
      ∀ before deletion after, (if response.succeeded then request.success else request.failure) =
          before ++ some (.requestDeleteRange deletion) :: after → deletion.prevKv = true →
        ∃ loaded front read store last back earlier later revision deleted prevKvs,
          task.met = loaded :: front ++ [read, store, last] ++ back ∧
          (txnUntil request before).meets (loaded :: front) = some (.ret earlier) ∧
          response.responses = earlier ++ .responseDeleteRange revision deleted prevKvs :: later ∧
          (ExactlyRemoved deletion.key (txnRangeEnd deletion.key deletion.rangeEnd) store deleted prevKvs ↔
            FindsAlike deletion.key (txnRangeEnd deletion.key deletion.rangeEnd) loaded.currentRevision
              read store) := by
  obtain ⟨hist, -, -, -, kept⟩ := Traffic.Kept.run inUse runs
  obtain ⟨came, part⟩ := kept task member
  constructor
  · intro request revision deleted prevKvs is wanted answered
    rw [is, answered] at came
    obtain ⟨_, ran, same⟩ := meets_wrapped (deleteRangeScript request) KvResponse.op came
    obtain rfl := KvResponse.op.inj same
    rw [deleteRangeScript_eq, wanted] at ran
    split_ifs at ran
    · cases met : task.met with
      | nil =>
        rw [met] at ran
        cases ran
      | cons first rest =>
        rw [met] at ran
        cases ran
    · obtain ⟨q, one, read, store, last, result, removed, whole, loading, returned, removing, same⟩ :=
        deletion_meets ran
      obtain ⟨loaded, rfl, rfl⟩ := meets_load loading
      cases same
      refine ⟨loaded, read, store, last, whole, kvs_eq_removed_iff (part read ?_) (part store ?_) returned
        removing⟩
      · simp [whole]
      · simp [whole]
  · intro request response is answered before deletion after executed wanted
    rw [is, answered] at came
    obtain ⟨_, ran, same⟩ := meets_wrapped (txnScript request) KvResponse.txn came
    obtain rfl := KvResponse.txn.inj same
    obtain ⟨loaded, front, read, store, last, back, earlier, later, result, removed, whole, begun, returned,
      removing, responses⟩ := txnScript_meets ran executed wanted
    refine ⟨loaded, front, read, store, last, back, earlier, later, _, _, _, whole, begun, responses,
      kvs_eq_removed_iff (part read ?_) (part store ?_) returned removing⟩
    · simp [whole]
    · simp [whole]

/-- Delete the key `a` and return what was there. -/
def deleteA : KvRequest := .deleteRange ⟨[97], [], true⟩

/-- Nobody comes between. -/
theorem quiet_deletion_exact :
    ∃ st task, runFrom Traffic.step (Traffic.idle oneKeyStore)
        [.start deleteA, .call 0, .call 0, .call 0, .call 0] = some st ∧ task ∈ st.tasks ∧
      task.script = .ret (.op (.responseDeleteRange 3 1 [⟨[97], 2, 2, 1, [49], 0⟩])) ∧
      ExactlyRemoved [97] [97, 0] oneKeyStore 1 [⟨[97], 2, 2, 1, [49], 0⟩] := by
  refine ⟨_, _, rfl, List.mem_cons_self, rfl, ?_⟩
  obtain ⟨loaded, read, store, last, met, exact_⟩ := (prev_kvs_exact_iff oneKeyStore oneKeyStore_inUse
    [.start deleteA, .call 0, .call 0, .call 0, .call 0] _ rfl _ List.mem_cons_self).1 _ _ _ _ rfl rfl rfl
  cases met
  exact exact_.mpr (findsAlike_self _ _ _)

/-- Another request puts `a` after the previous values were read. -/
def overwritten : List RequestStep :=
  [.start deleteA, .call 0, .call 0, .start (.put ⟨[97], [50], 0, false, false, false⟩), .call 1, .call 0,
    .call 0]

/-- The store that the deletion meets then. -/
def overwrittenStore : MvccStore := ((MvccStore.put [97] [50] 0).run oneKeyStore).2

/-- **The previous value is not the one that was deleted.** The read found the value `1`; the deletion removed
the value `2`. -/
theorem overwritten_deletion :
    InUse oneKeyStore ∧ (∃ st task last,
      runFrom Traffic.step (Traffic.idle oneKeyStore) overwritten = some st ∧ task ∈ st.tasks ∧
      task.request = deleteA ∧ task.met = [oneKeyStore, oneKeyStore, overwrittenStore, last] ∧
      task.script = .ret (.op (.responseDeleteRange 4 1 [⟨[97], 2, 2, 1, [49], 0⟩]))) ∧
      ((MvccStore.deleteRange [97] [97, 0]).run overwrittenStore).1 =
        .ok (4, [⟨[97], 2, 3, 2, [50], 0⟩]) ∧
      ¬ ExactlyRemoved [97] [97, 0] overwrittenStore 1 [⟨[97], 2, 2, 1, [49], 0⟩] := by
  have removed : ((MvccStore.deleteRange [97] [97, 0]).run overwrittenStore).1 =
      .ok (4, [⟨[97], 2, 3, 2, [50], 0⟩]) := by decide +kernel
  refine ⟨oneKeyStore_inUse, ⟨_, _, _, rfl, List.mem_cons_self, rfl, rfl, rfl⟩, removed, ?_⟩
  rintro ⟨revision, same, -⟩
  rw [removed] at same
  cases same

end Rusd
