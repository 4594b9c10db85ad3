/-
**A range query one call at a time** (`storage/mvcc.rs`, `MvccStore::range`).

A range query loads the counter, scans the index under its lock, and then reads the backend once for
every key that the scan listed; the calls of concurrent `put`s fall between.

* `ReadStage.step` — the next call of a query, with the local computation after it.
* `range_alone` — a query that runs without interruption is `MvccStore.range`.
* `Snapshots` — any number of queries and `put`s over one store.
-/

import Rusd.Storage.PutSteps
import Rusd.Storage.Reference

namespace Rusd

open MvccStore

/-- The arguments of a range query. -/
structure RangeArgs where
  start : Bytes
  stop : Bytes
  revision : Int
  limit : Int
  countOnly : Bool
  deriving DecidableEq, Repr

/-- Where a query stands: the call it makes next, with what it knows. -/
inductive ReadStage
  | idle
  | load
  | scan (queryRevision : Int) (isCurrent : Bool)
  | fetch (queryRevision : Int) (isCurrent : Bool) (count : Nat) (keys : List (Bytes × Revision))
      (kvs : List KeyValue)
  | answered (queryRevision : Int) (result : RangeResult)
  | crashed
  deriving DecidableEq, Repr

namespace ReadStage

/-- The loop up to its next read of the backend: it ends with the keys, with the limit, and reads
nothing if the query only counts. -/
def settle (args : RangeArgs) (queryRevision : Int) (isCurrent : Bool) (count : Nat)
    (keys : List (Bytes × Revision)) (kvs : List KeyValue) : ReadStage :=
  if keys = [] ∨ args.limit > 0 ∧ args.limit.toNat ≤ kvs.length ∨ args.countOnly = true then
    .answered queryRevision
      { kvs := kvs, more := args.limit > 0 && count > kvs.length, count := count }
  else .fetch queryRevision isCurrent count keys kvs

/-- The next call of a query, which is made at 0 or at a revision already allocated. -/
def step (args : RangeArgs) (s : MvccStore) : ReadStage → Option ReadStage
  | .idle => if args.revision ≤ s.currentRevision then some .load else none
  -- one load: for the query revision, or for `is_current`
  | .load =>
    some (.scan (if args.revision ≤ 0 then s.currentRevision else args.revision)
      (args.revision ≤ 0 || args.revision ≥ s.currentRevision))
  | .scan queryRevision isCurrent =>
    match s.keyIndex.range args.start args.stop queryRevision with
    | none => some .crashed
    | some keys => some (settle args queryRevision isCurrent keys.length keys [])
  | .fetch queryRevision isCurrent count ((key, rev) :: rest) kvs =>
    match s.fetch isCurrent queryRevision key rev with
    | .ok record =>
      some (settle args queryRevision isCurrent count rest (kvs ++ record.toList))
    | .err _ => some .crashed
    | .panic => some .crashed
  | .fetch _ _ _ [] _ => none
  | .answered _ _ => none
  | .crashed => none

/-! ### A query without interruption -/

/-- Make calls until the query ends. -/
def runAlone (args : RangeArgs) (s : MvccStore) : Nat → ReadStage → ReadStage
  | 0, stage => stage
  | fuel + 1, stage =>
    match step args s stage with
    | some next => runAlone args s fuel next
    | none => stage

theorem runAlone_answered (args : RangeArgs) (s : MvccStore) (fuel : Nat) (q : Int)
    (result : RangeResult) :
    runAlone args s fuel (.answered q result) = .answered q result := by
  cases fuel <;> rfl

/-- The loop: one call for every key that it reads. -/
theorem loop_alone {args : RangeArgs} {s : MvccStore} {q : Int} {isCurrent : Bool} {count : Nat}
    {keys : List (Bytes × Revision)} {kvs found : List KeyValue}
    (returns : s.rangeLoop isCurrent q args.limit args.countOnly keys kvs = .ok found) :
    runAlone args s keys.length (settle args q isCurrent count keys kvs) =
      .answered q
        { kvs := found, more := args.limit > 0 && count > found.length, count := count } := by
  induction keys generalizing kvs with
  | nil =>
    rw [rangeLoop] at returns
    cases returns
    rw [settle, if_pos (Or.inl rfl), runAlone_answered]
  | cons e rest ih =>
    obtain ⟨key, rev⟩ := e
    rw [rangeLoop] at returns
    unfold settle
    by_cases full : args.limit > 0 ∧ args.limit.toNat ≤ kvs.length
    · rw [if_pos full] at returns
      cases returns
      rw [if_pos (Or.inr (Or.inl full)), runAlone_answered]
    · rw [if_neg full] at returns
      by_cases counts : args.countOnly = true
      · have all : s.rangeLoop isCurrent q args.limit true rest kvs = .ok kvs :=
          rangeLoop_countOnly rest kvs
        rw [counts, if_pos rfl, all] at returns
        cases returns
        rw [if_pos (Or.inr (Or.inr counts)), runAlone_answered]
      · rw [if_neg counts] at returns
        have goes : ¬ ((key, rev) :: rest = [] ∨ args.limit > 0 ∧ args.limit.toNat ≤ kvs.length ∨
            args.countOnly = true) := by
          rintro (empty | limited | only)
          · cases empty
          · exact full limited
          · exact counts only
        rw [if_neg goes, List.length_cons, runAlone, step]
        cases fetched : s.fetch isCurrent q key rev with
        | ok record =>
          rw [fetched] at returns
          cases record with
          | none =>
            simp only [Option.toList_none, List.append_nil]
            exact ih returns
          | some kv =>
            simp only [Option.toList_some]
            exact ih returns
        | err e =>
          rw [fetched] at returns
          cases returns
        | panic =>
          rw [fetched] at returns
          cases returns

/-- **A query alone** answers what `MvccStore.range` answers. -/
theorem range_alone {args : RangeArgs} {s : MvccStore} {result : RangeResult}
    (returns : s.range args.start args.stop args.revision args.limit args.countOnly = .ok result) :
    ∃ fuel, runAlone args s fuel .load =
      .answered (if args.revision ≤ 0 then s.currentRevision else args.revision) result := by
  unfold MvccStore.range at returns
  cases scanned : s.keyIndex.range args.start args.stop
      (if args.revision ≤ 0 then s.currentRevision else args.revision) with
  | none =>
    simp only [scanned] at returns
    cases returns
  | some keys =>
    simp only [scanned] at returns
    cases looped : s.rangeLoop (decide (args.revision ≤ 0) || decide (args.revision ≥ s.currentRevision))
        (if args.revision ≤ 0 then s.currentRevision else args.revision) args.limit args.countOnly
        keys [] with
    | ok found =>
      rw [looped] at returns
      cases returns
      refine ⟨keys.length + 2, ?_⟩
      rw [runAlone, step]
      simp only
      rw [runAlone, step]
      simp only [scanned]
      exact loop_alone looped
    | err e =>
      rw [looped] at returns
      cases returns
    | panic =>
      rw [looped] at returns
      cases returns

end ReadStage

/-! ### Queries and `put`s -/

/-- A range query on its way. -/
structure ReadCall where
  args : RangeArgs
  stage : ReadStage
  deriving DecidableEq, Repr

/-- Any number of `put`s and queries over one store; `calls` are the writes so far, each at the
revision it allocated. -/
structure Snapshots extends Writers where
  reads : List ReadCall
  calls : List (Int × StoreOp)

inductive SnapshotStep
  | put (i : Nat)
  | read (j : Nat)
  deriving DecidableEq, Repr

namespace Snapshots

/-- Over a store with its history, before any of the new calls. -/
def start (s : MvccStore) (calls : List (Int × StoreOp)) (requests : List PutArgs)
    (queries : List RangeArgs) : Snapshots :=
  ⟨Writers.start s requests, queries.map fun args => ⟨args, .idle⟩, calls⟩

/-- The write that a `put` makes when it allocates its revision. -/
def allocation (s : MvccStore) (p : PutCall) : List (Int × StoreOp) :=
  if p.stage = .allocate then
    [(s.currentRevision + 1, .put p.args.key p.args.value p.args.lease)]
  else []

def step (st : Snapshots) : SnapshotStep → Option Snapshots
  | .put i =>
    match st.puts[i]? with
    | none => none
    | some p => (st.toWriters.step i).map fun w =>
        ⟨w, st.reads, st.calls ++ allocation st.store p⟩
  | .read j =>
    match st.reads[j]? with
    | none => none
    | some r => (r.stage.step r.args st.store).map fun stage =>
        { st with reads := st.reads.set j ⟨r.args, stage⟩ }

/-- **What one step is.** -/
theorem step_cases {st st' : Snapshots} {action : SnapshotStep} (moves : step st action = some st') :
    (∃ i args stage stage' store', action = .put i ∧ st.puts[i]? = some ⟨args, stage⟩ ∧
      stage.Moves args st.store stage' store' ∧
      st' = ⟨⟨store', st.puts.set i ⟨args, stage'⟩⟩, st.reads,
        st.calls ++ allocation st.store ⟨args, stage⟩⟩) ∨
    ∃ j args stage stage', action = .read j ∧ st.reads[j]? = some ⟨args, stage⟩ ∧
      stage.step args st.store = some stage' ∧
      st' = { st with reads := st.reads.set j ⟨args, stage'⟩ } := by
  cases action with
  | put i =>
    refine Or.inl ?_
    unfold step at moves
    cases found : st.puts[i]? with
    | none =>
      simp only [found] at moves
      cases moves
    | some p =>
      simp only [found] at moves
      obtain ⟨⟨store', puts'⟩, moved, rfl⟩ := Option.map_eq_some_iff.mp moves
      obtain ⟨p', stage', same, calls, puts⟩ := Writers.step_cases moved
      rw [found] at same
      cases same
      simp only at calls puts
      exact ⟨i, p.args, p.stage, stage', store', rfl, found, calls, by rw [puts]⟩
  | read j =>
    refine Or.inr ?_
    unfold step at moves
    cases found : st.reads[j]? with
    | none =>
      simp only [found] at moves
      cases moves
    | some r =>
      simp only [found] at moves
      obtain ⟨stage', moved, rfl⟩ := Option.map_eq_some_iff.mp moves
      exact ⟨j, r.args, r.stage, stage', rfl, found, moved, rfl⟩

end Snapshots

end Rusd
