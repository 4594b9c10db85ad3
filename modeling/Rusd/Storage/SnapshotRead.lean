/-
**Reads next to concurrent `put`s** (`storage/mvcc.rs`, `STORAGE_DESIGN.md`).

A `put` publishes its revision before it writes `kv`, `kv_rev` and the index, and a query samples
the counter, the index and the records in calls of their own. What the query returns is the map at
its revision if the calls fall in an order that hides the gaps.

* `recordAt` — the record of a key at a revision of the reference map.
* `Orderly` — the order of calls that keeps reads exact: a `put` reads after the older `put`s of its key
  have stored and indexes after they have indexed; a scan finds every key that the map at its revision
  has; a read of the latest record finds the one of its revision.
* `KvCut`, `IndexCut` — a revision up to which the `put`s of a key are stored, or indexed, and no
  further.
* `Inv` — the invariant: up to a cut, the trees and the index show the reference map.
* `reads_are_snapshots` — in every orderly run the answer of every query is the map at its revision.
-/

import Mathlib.Data.Int.LeastGreatest
import Rusd.Lib.SharedCounter
import Rusd.Storage.RangeSteps
import Rusd.Storage.Reference

namespace Rusd

open MvccStore

/-! ### The history of one key -/

/-- The record of a key in the map at a revision. -/
def recordAt (calls : List (Int × StoreOp)) (key : Bytes) (r : Int) : Option KeyValue :=
  (referenceAt calls r).get? key

/-- A `put` of another key. -/
def Elsewhere (key : Bytes) (call : Int × StoreOp) : Prop :=
  ∃ other value lease, call.2 = .put other value lease ∧ other ≠ key

section History

variable {calls : List (Int × StoreOp)} {key : Bytes} {m m' : RefMap} {q r : Int}

/-- What a call does to a key depends on the record of that key only. -/
theorem applyCall_congr (call : Int × StoreOp) (same : m.get? key = m'.get? key) :
    (applyCall m call).get? key = (applyCall m' call).get? key := by
  obtain ⟨revision, op⟩ := call
  cases op with
  | put other value lease =>
    simp only [applyCall, OrdMap.get?_insert]
    by_cases equal : key = other
    · subst equal
      simp only [refRecord, same]
    · rw [if_neg equal, if_neg equal, same]
  | deleteRange start stop => simp only [applyCall, OrdMap.get?_filter, same]

theorem applyCall_elsewhere {call : Int × StoreOp} (elsewhere : Elsewhere key call) :
    (applyCall m call).get? key = m.get? key := by
  obtain ⟨other, value, lease, is, apart⟩ := elsewhere
  simp only [applyCall, is]
  rw [OrdMap.get?_insert, if_neg fun same => apart same.symm]

/-- A call keeps a key alive where it does, and a `put` kills none. -/
theorem applyCall_live (call : Int × StoreOp)
    (lives : (m.get? key).isSome → (m'.get? key).isSome)
    (alive : ((applyCall m call).get? key).isSome) : ((applyCall m' call).get? key).isSome := by
  obtain ⟨revision, op⟩ := call
  cases op with
  | put other value lease =>
    simp only [applyCall, OrdMap.get?_insert] at alive ⊢
    by_cases equal : key = other
    · rw [if_pos equal]
      rfl
    · rw [if_neg equal] at alive ⊢
      exact lives alive
  | deleteRange start stop =>
    simp only [applyCall, OrdMap.get?_filter] at alive ⊢
    split_ifs at alive ⊢
    · exact lives alive
    · cases alive

/-- **Nothing happens to a key** between two revisions if only other keys are written there. -/
theorem recordAt_eq (le : q ≤ r)
    (quiet : ∀ call ∈ calls, q < call.1 → call.1 ≤ r → Elsewhere key call) :
    recordAt calls key r = recordAt calls key q := by
  unfold recordAt
  induction calls using List.reverseRecOn with
  | nil => rfl
  | append_singleton calls call ih =>
    have before := ih fun c member => quiet c (List.mem_append_left _ member)
    rw [referenceAt_concat, referenceAt_concat]
    by_cases low : call.1 ≤ q
    · rw [if_pos low, if_pos (low.trans le)]
      exact applyCall_congr call before
    · rw [if_neg low]
      by_cases high : call.1 ≤ r
      · rw [if_pos high, applyCall_elsewhere (quiet call (by simp) (not_le.mp low) high)]
        exact before
      · rw [if_neg high]
        exact before

/-- A key stays alive while nothing is deleted. -/
theorem recordAt_live (le : q ≤ r)
    (puts : ∀ call ∈ calls, q < call.1 → call.1 ≤ r → ∃ other value lease,
      call.2 = .put other value lease)
    (alive : (recordAt calls key q).isSome) : (recordAt calls key r).isSome := by
  unfold recordAt at alive ⊢
  induction calls using List.reverseRecOn with
  | nil => exact alive
  | append_singleton calls call ih =>
    have before := ih fun c member => puts c (List.mem_append_left _ member)
    rw [referenceAt_concat] at alive ⊢
    by_cases low : call.1 ≤ q
    · rw [if_pos low] at alive
      rw [if_pos (low.trans le)]
      exact applyCall_live call before alive
    · rw [if_neg low] at alive
      by_cases high : call.1 ≤ r
      · obtain ⟨other, value, lease, is⟩ := puts call (by simp) (not_le.mp low) high
        rw [if_pos high]
        simp only [applyCall, is]
        rw [OrdMap.get?_insert]
        split_ifs
        · rfl
        · exact before alive
      · rw [if_neg high]
        exact before alive

/-- The records after a `put` at a new revision. -/
theorem recordAt_put {revision : Int} (above : ∀ call ∈ calls, call.1 < revision)
    (key value : Bytes) (lease : Int) (k : Bytes) (r : Int) :
    recordAt (calls ++ [(revision, .put key value lease)]) k r =
      if revision ≤ r ∧ k = key then some (refRecord (replay calls) revision key value lease)
      else recordAt calls k r := by
  unfold recordAt
  rw [referenceAt_concat]
  by_cases visible : revision ≤ r
  · have all : referenceAt calls r = replay calls :=
      referenceAt_eq_replay fun call member => (above call member).le.trans visible
    rw [if_pos visible, all]
    simp only [applyCall, OrdMap.get?_insert]
    by_cases same : k = key
    · rw [if_pos same, if_pos ⟨visible, same⟩]
    · rw [if_neg same, if_neg fun both => same both.2]
  · rw [if_neg visible, if_neg fun both => visible both.1]

end History

namespace Snapshots

/-! ### The order of the calls -/

/-- A `put` reads the previous record after the older `put`s of its key have stored theirs, and enters
the index after they have. -/
def PutOrder (puts : List PutCall) (p : PutCall) : Prop :=
  match p.stage with
  | .readPrevious newRevision => ∀ o ∈ puts, o.args.key = p.args.key →
      ∀ r ∈ o.stage.revision, r < newRevision → o.stage.storedKv = true
  | .storeIndex kv _ => ∀ o ∈ puts, o.args.key = p.args.key →
      ∀ r ∈ o.stage.revision, r < kv.modRevision → o.stage.done = true
  | _ => True

/-- A scan comes after every `put` of its revision is indexed, or (for a read of the latest records)
after its key is; a read of the latest record comes after the `put`s of its revision have stored
theirs and before later ones do. -/
def ReadOrder (st : Snapshots) (c : ReadCall) : Prop :=
  match c.stage with
  | .scan queryRevision isCurrent =>
    ∀ o ∈ st.puts, Bytes.InRange c.args.start c.args.stop o.args.key →
      ∀ r ∈ o.stage.revision, r ≤ queryRevision →
        o.stage.done = true ∨
          isCurrent = true ∧ (st.store.keyIndex.get o.args.key queryRevision).isSome
  | .fetch queryRevision true _ ((key, _) :: _) _ =>
    ∀ o ∈ st.puts, o.args.key = key →
      ∀ r ∈ o.stage.revision, (r ≤ queryRevision ↔ o.stage.storedKv = true)
  | _ => True

/-- The next call keeps the order. -/
def Orderly (st : Snapshots) : SnapshotStep → Prop
  | .put i => ∀ p ∈ st.puts[i]?, PutOrder st.puts p
  | .read j => ∀ c ∈ st.reads[j]?, ReadOrder st c

instance (puts : List PutCall) : (p : PutCall) → Decidable (PutOrder puts p)
  | ⟨args, .readPrevious newRevision⟩ =>
    inferInstanceAs (Decidable (∀ o ∈ puts, o.args.key = args.key →
      ∀ r ∈ o.stage.revision, r < newRevision → o.stage.storedKv = true))
  | ⟨args, .storeIndex kv _⟩ =>
    inferInstanceAs (Decidable (∀ o ∈ puts, o.args.key = args.key →
      ∀ r ∈ o.stage.revision, r < kv.modRevision → o.stage.done = true))
  | ⟨_, .readIndex⟩ => .isTrue trivial
  | ⟨_, .allocate⟩ => .isTrue trivial
  | ⟨_, .storeKv _ _⟩ => .isTrue trivial
  | ⟨_, .storeRev _ _⟩ => .isTrue trivial
  | ⟨_, .returned _ _⟩ => .isTrue trivial
  | ⟨_, .crashed⟩ => .isTrue trivial

instance (st : Snapshots) : (c : ReadCall) → Decidable (ReadOrder st c)
  | ⟨args, .scan queryRevision isCurrent⟩ =>
    inferInstanceAs (Decidable (∀ o ∈ st.puts, Bytes.InRange args.start args.stop o.args.key →
      ∀ r ∈ o.stage.revision, r ≤ queryRevision → o.stage.done = true ∨
        isCurrent = true ∧ (st.store.keyIndex.get o.args.key queryRevision).isSome))
  | ⟨_, .fetch queryRevision true _ ((key, _) :: _) _⟩ =>
    inferInstanceAs (Decidable (∀ o ∈ st.puts, o.args.key = key →
      ∀ r ∈ o.stage.revision, (r ≤ queryRevision ↔ o.stage.storedKv = true)))
  | ⟨_, .fetch _ true _ [] _⟩ => .isTrue trivial
  | ⟨_, .fetch _ false _ _ _⟩ => .isTrue trivial
  | ⟨_, .idle⟩ => .isTrue trivial
  | ⟨_, .load⟩ => .isTrue trivial
  | ⟨_, .answered _ _⟩ => .isTrue trivial
  | ⟨_, .crashed⟩ => .isTrue trivial

instance (st : Snapshots) : (action : SnapshotStep) → Decidable (Orderly st action)
  | .put i => inferInstanceAs (Decidable (∀ p ∈ st.puts[i]?, PutOrder st.puts p))
  | .read j => inferInstanceAs (Decidable (∀ c ∈ st.reads[j]?, ReadOrder st c))

/-! ### Cuts -/

/-- The `put`s of a key up to the revision `x` have come as far as `flag` says, the later ones have
not. -/
def Cut (flag : PutStage → Bool) (base : Int) (puts : List PutCall) (key : Bytes) (x : Int) : Prop :=
  base ≤ x ∧ ∀ p ∈ puts, p.args.key = key → ∀ r, p.stage.revision = some r →
    (r ≤ x ↔ flag p.stage = true)

section Cuts

variable {flag : PutStage → Bool} {base x : Int} {puts : List PutCall} {key : Bytes} {i : Nat}
  {args : PutArgs} {stage stage' : PutStage}

/-- A cut after a call that does not change how far the `put` of that key has come. -/
theorem Cut.of_set (found : puts[i]? = some ⟨args, stage⟩)
    (same : args.key = key → ∀ r, stage.revision = some r →
      stage'.revision = some r ∧ flag stage' = flag stage)
    (cut : Cut flag base (puts.set i ⟨args, stage'⟩) key x) : Cut flag base puts key x := by
  refine ⟨cut.1, fun p member named r has => ?_⟩
  obtain ⟨j, here⟩ := List.mem_iff_getElem?.mp member
  by_cases moved : j = i
  · subst moved
    rw [found] at here
    cases here
    obtain ⟨has', flags⟩ := same named r has
    rw [← flags]
    exact cut.2 ⟨args, stage'⟩ (List.mem_of_getElem? (getElem?_set_here found)) named r has'
  · refine cut.2 p (List.mem_iff_getElem?.mpr ⟨j, ?_⟩) named r has
    rw [List.getElem?_set_ne fun is => moved is.symm]
    exact here

/-- **There is a cut** if the `put`s of a key come as far in the order of their revisions. -/
theorem exists_cut (ordered : ∀ p ∈ puts, ∀ o ∈ puts, p.args.key = key → o.args.key = key → ∀ a b,
      p.stage.revision = some a → o.stage.revision = some b → a ≤ b → flag o.stage = true →
      flag p.stage = true)
    (above : ∀ p ∈ puts, ∀ r, p.stage.revision = some r → base < r)
    {bound : Int} (below : ∀ p ∈ puts, ∀ r, p.stage.revision = some r → r ≤ bound) :
    ∃ x, Cut flag base puts key x := by
  by_cases any : ∃ r, ∃ p ∈ puts, p.args.key = key ∧ p.stage.revision = some r ∧ flag p.stage = true
  · obtain ⟨x, ⟨o, listed, named, has, flagged⟩, greatest⟩ := Int.exists_greatest_of_bdd
      ⟨bound, fun r ⟨p, member, _, has, _⟩ => below p member r has⟩ any
    refine ⟨x, (above o listed x has).le, fun p member same r is => ⟨fun low => ?_, fun far => ?_⟩⟩
    · exact ordered p member o listed same named r x is has low flagged
    · exact greatest r ⟨p, member, same, is, far⟩
  · refine ⟨base, le_rfl, fun p member same r is => ⟨fun low => ?_, fun far => ?_⟩⟩
    · have := above p member r is
      omega
    · exact absurd ⟨r, p, member, same, is, far⟩ any

end Cuts

/-! ### The writes -/

/-- The writes so far against the reference map. -/
structure Written (base : Int) (st : Snapshots) : Prop
    extends Writers.Numbered base st.toWriters where
  positive : 1 ≤ base
  allocated : ∀ call ∈ st.calls, call.1 ≤ st.store.currentRevision
  fine : ∀ p ∈ st.puts, p.stage ≠ .crashed
  admissible : ∀ p ∈ st.puts, (StoreOp.put p.args.key p.args.value p.args.lease).Admissible
  /-- The writes above `base` are those of the `put`s. -/
  listed : ∀ call ∈ st.calls, base < call.1 → ∃ p ∈ st.puts, p.stage.revision = some call.1 ∧
    call.2 = .put p.args.key p.args.value p.args.lease
  records : ∀ key r kv, recordAt st.calls key r = some kv →
    RecordOk key st.store.currentRevision kv ∧ kv.modRevision ≤ r ∧
      recordAt st.calls key kv.modRevision = some kv ∧
      (base < kv.modRevision → ∃ p ∈ st.puts, p.args.key = key ∧
        p.stage.revision = some kv.modRevision)
  /-- What a `put` is to write. -/
  asked : ∀ p ∈ st.puts, ∀ r, p.stage.revision = some r → recordAt st.calls p.args.key r =
    some (refRecord (referenceAt st.calls (r - 1)) r p.args.key p.args.value p.args.lease)
  /-- What it has prepared. -/
  prepared : ∀ p ∈ st.puts, ∀ kv, p.stage.record = some kv →
    recordAt st.calls p.args.key kv.modRevision = some kv

/-- The `put`s of a key store and index in the order of their revisions. -/
structure Ordered (st : Snapshots) : Prop where
  kv : ∀ p ∈ st.puts, ∀ o ∈ st.puts, p.args.key = o.args.key → ∀ a b,
    p.stage.revision = some a → o.stage.revision = some b → a < b → o.stage.record.isSome →
    p.stage.storedKv = true
  index : ∀ p ∈ st.puts, ∀ o ∈ st.puts, p.args.key = o.args.key → ∀ a b,
    p.stage.revision = some a → o.stage.revision = some b → a < b → o.stage.done = true →
    p.stage.done = true

/-- **Up to a cut, the trees and the index show the map**; `kv_rev` keeps every record it was given. -/
structure Shown (base : Int) (st : Snapshots) : Prop where
  kv : ∀ key x, Cut PutStage.storedKv base st.puts key x →
    st.store.backend.get .kv key = (recordAt st.calls key x).map KeyValue.encode
  index : ∀ key x, Cut PutStage.done base st.puts key x →
    EntryOk x ((st.store.keyIndex.tree.get? key).getD .new) ∧ ∀ r, st.store.keyIndex.get key r =
      (recordAt st.calls key (min r x)).map fun kv => ⟨kv.modRevision, 0⟩
  oldHistory : ∀ key r kv, recordAt st.calls key r = some kv → kv.modRevision ≤ base →
    st.store.backend.get .kvRev (revKey kv.modRevision key) = some kv.encodeWithKey
  history : ∀ p ∈ st.puts, p.stage.storedRev = true → ∀ kv, p.stage.record = some kv →
    st.store.backend.get .kvRev (revKey kv.modRevision p.args.key) = some kv.encodeWithKey

/-! ### A call of a `put` -/

section Put

variable {base : Int} {st : Snapshots} {i : Nat} {args : PutArgs} {stage stage' : PutStage}
  {store' : MvccStore}

/-- A record of the map, read back from the `kv` tree. -/
theorem Written.readable (written : Written base st) {key : Bytes} {r : Int} :
    readRecord key ((recordAt st.calls key r).map KeyValue.encode) = .ok (recordAt st.calls key r) := by
  cases found : recordAt st.calls key r with
  | none => rfl
  | some kv =>
    have ok := (written.records key r kv found).1
    have decoded := KeyValue.decode_encode (ok.encodable written.fits)
    rw [ok.key] at decoded
    simp only [Option.map_some, readRecord, decoded]

/-- The records that a `put` finds are those right below its revision. -/
theorem previous_cut (written : Written base st) (ordered : Ordered st) {newRevision : Int}
    (found : st.puts[i]? = some ⟨args, .readPrevious newRevision⟩)
    (order : PutOrder st.puts ⟨args, .readPrevious newRevision⟩) :
    Cut PutStage.storedKv base st.puts args.key (newRevision - 1) := by
  have mine := List.mem_of_getElem? found
  have low := (written.revisions _ mine newRevision rfl).1
  refine ⟨by omega, fun p member named r has => ⟨fun below => ?_, fun stored => ?_⟩⟩
  · exact order p member named r has (by omega)
  · by_contra above
    obtain ⟨kv, record⟩ := PutStage.record_of_storedKv stored
    rcases lt_or_eq_of_le (show newRevision ≤ r by omega) with later | same
    · have early := ordered.kv _ mine p member named.symm newRevision r rfl has later
        (by rw [record]; rfl)
      cases early
    · obtain ⟨j, here⟩ := List.mem_iff_getElem?.mp member
      have equal := written.distinct _ _ _ _ r here found has (congrArg some same)
      subst equal
      rw [found] at here
      cases here
      cases stored

/-- **What a `put` reads and prepares** is what the map asks for. -/
theorem prepared_record (written : Written base st) (ordered : Ordered st) (shown : Shown base st)
    {newRevision : Int} (found : st.puts[i]? = some ⟨args, .readPrevious newRevision⟩)
    (order : PutOrder st.puts ⟨args, .readPrevious newRevision⟩) :
    ∃ version, readRecord args.key (st.store.backend.get .kv args.key) =
        .ok (recordAt st.calls args.key (newRevision - 1)) ∧
      (nextVersion (recordAt st.calls args.key (newRevision - 1))).run st.store =
        (.ok version, st.store) ∧
      recordAt st.calls args.key newRevision = some (newRecord args.key args.value args.lease
        newRevision version (recordAt st.calls args.key (newRevision - 1))) := by
  have mine := List.mem_of_getElem? found
  have fits := written.fits
  have tree := shown.kv _ _ (previous_cut written ordered found order)
  have asks := written.asked _ mine newRevision rfl
  have versioned := newRecord_eq_refRecord (m := referenceAt st.calls (newRevision - 1))
    (fun kv is => (written.records args.key (newRevision - 1) kv is).1.version) args.value args.lease
    newRevision
  simp only at asks
  rw [← versioned] at asks
  refine ⟨_, by rw [tree]; exact written.readable, ?_, asks⟩
  cases previous : recordAt st.calls args.key (newRevision - 1) with
  | none =>
    have none : (referenceAt st.calls (newRevision - 1)).get? args.key = none := previous
    rw [none]
    rfl
  | some kv =>
    have some_ : (referenceAt st.calls (newRevision - 1)).get? args.key = some kv := previous
    have ok := (written.records args.key (newRevision - 1) kv previous).1
    have versionBound := ok.versionBound
    have bounded := ok.bounded
    rw [some_, nextVersion, increment, if_pos (by omega)]
    rfl

/-- An orderly `put` does not crash. -/
theorem not_crashed (written : Written base st) (ordered : Ordered st) (shown : Shown base st)
    (found : st.puts[i]? = some ⟨args, stage⟩) (order : PutOrder st.puts ⟨args, stage⟩)
    (calls : stage.Moves args st.store stage' store') : stage' ≠ .crashed := by
  cases calls with
  | unreadable newRevision crashes =>
    obtain ⟨version, read, versioned, _⟩ := prepared_record written ordered shown found order
    exact absurd versioned (crashes _ version read)
  | _ => simp

/-- The `put`s before a call, found again after it. -/
theorem find_after (fine : stage' ≠ .crashed) (found : st.puts[i]? = some ⟨args, stage⟩)
    (calls : stage.Moves args st.store stage' store') {p : PutCall} (member : p ∈ st.puts) :
    ∃ p' ∈ st.puts.set i ⟨args, stage'⟩, p'.args = p.args ∧
      ∀ r, p.stage.revision = some r → p'.stage.revision = some r := by
  obtain ⟨j, here⟩ := List.mem_iff_getElem?.mp member
  by_cases moved : j = i
  · subst moved
    rw [found] at here
    cases here
    exact ⟨_, List.mem_of_getElem? (getElem?_set_here found), rfl,
      fun r has => calls.revision_keeps fine has⟩
  · refine ⟨p, List.mem_iff_getElem?.mpr ⟨j, ?_⟩, rfl, fun r has => has⟩
    rw [List.getElem?_set_ne fun is => moved is.symm]
    exact here

theorem allocation_other (s : MvccStore) (args : PutArgs) (other : stage ≠ .allocate) :
    allocation s ⟨args, stage⟩ = [] := if_neg other

/-- A call that allocates nothing. -/
theorem Written.move (written : Written base st) (ordered : Ordered st) (shown : Shown base st)
    (found : st.puts[i]? = some ⟨args, stage⟩) (order : PutOrder st.puts ⟨args, stage⟩)
    (calls : stage.Moves args st.store stage' store') (other : stage ≠ .allocate)
    (counter : store'.currentRevision = st.store.currentRevision) :
    Written base ⟨⟨store', st.puts.set i ⟨args, stage'⟩⟩, st.reads, st.calls⟩ := by
  have mine := List.mem_of_getElem? found
  have fine := not_crashed written ordered shown found order calls
  refine ⟨written.toNumbered.step found calls, written.positive, fun call member => ?_,
    fun p member => ?_, fun p member => ?_, fun call member above => ?_, fun key r kv is => ?_,
    fun p member r has => ?_, fun p member kv has => ?_⟩
  · simp only [counter]
    exact written.allocated call member
  · rcases List.mem_or_eq_of_mem_set member with old | rfl
    · exact written.fine p old
    · exact fine
  · rcases List.mem_or_eq_of_mem_set member with old | rfl
    · exact written.admissible p old
    · exact written.admissible ⟨args, stage⟩ mine
  · obtain ⟨p, listed, has, is⟩ := written.listed call member above
    obtain ⟨p', listed', same, keeps⟩ := find_after fine found calls listed
    exact ⟨p', listed', keeps _ has, by rw [same]; exact is⟩
  · obtain ⟨ok, visible, back, from_⟩ := written.records key r kv is
    refine ⟨by simp only [counter]; exact ok, visible, back, fun above => ?_⟩
    obtain ⟨p, listed, named, has⟩ := from_ above
    obtain ⟨p', listed', same, keeps⟩ := find_after fine found calls listed
    exact ⟨p', listed', by rw [same]; exact named, keeps _ has⟩
  · rcases List.mem_or_eq_of_mem_set member with old | rfl
    · exact written.asked p old r has
    · rcases calls.revision_cases has with before | ⟨is, _⟩
      · exact written.asked _ mine r before
      · exact absurd is other
  · rcases List.mem_or_eq_of_mem_set member with old | rfl
    · exact written.prepared p old kv has
    · rcases calls.record_cases has with before | ⟨newRevision, version, prevKv, rfl, rfl, rfl, read, versioned⟩
      · exact written.prepared _ mine kv before
      · obtain ⟨version', read', versioned', asks⟩ :=
          prepared_record written ordered shown found order
        rw [read] at read'
        cases read'
        rw [versioned] at versioned'
        cases versioned'
        exact asks

/-- The call that allocates a revision: a new write enters the history. -/
theorem Written.allocate (written : Written base st)
    (found : st.puts[i]? = some ⟨args, .allocate⟩) (room : st.store.currentRevision + 1 < 2 ^ 63) :
    Written base
      ⟨⟨{ st.store with currentRevision := st.store.currentRevision + 1 },
        st.puts.set i ⟨args, .readPrevious (st.store.currentRevision + 1)⟩⟩, st.reads,
        st.calls ++ [(st.store.currentRevision + 1, .put args.key args.value args.lease)]⟩ := by
  have mine := List.mem_of_getElem? found
  have calls : PutStage.Moves args st.store .allocate _ _ := .allocate room
  have fine : PutStage.readPrevious (st.store.currentRevision + 1) ≠ .crashed := by simp
  have here := List.mem_of_getElem? (getElem?_set_here
    (b := (⟨args, .readPrevious (st.store.currentRevision + 1)⟩ : PutCall)) found)
  have above : ∀ call ∈ st.calls, call.1 < st.store.currentRevision + 1 := by
    intro call member
    have := written.allocated call member
    omega
  have grown := written.grown
  have positive := written.positive
  have whole : referenceAt st.calls st.store.currentRevision = replay st.calls :=
    referenceAt_eq_replay written.allocated
  -- what was visible before is not touched
  have same : ∀ k r, r ≤ st.store.currentRevision →
      recordAt (st.calls ++ [(st.store.currentRevision + 1, .put args.key args.value args.lease)]) k r =
        recordAt st.calls k r := by
    intro k r low
    rw [recordAt_put above, if_neg (by omega)]
  refine ⟨written.toNumbered.step found calls, positive, fun call member => ?_,
    fun p member => ?_, fun p member => ?_, fun call member high => ?_, fun key r kv is => ?_,
    fun p member r has => ?_, fun p member kv has => ?_⟩
  · rcases List.mem_append.mp member with old | new
    · exact (above call old).le
    · rw [List.mem_singleton.mp new]
  · rcases List.mem_or_eq_of_mem_set member with old | rfl
    · exact written.fine p old
    · exact fine
  · rcases List.mem_or_eq_of_mem_set member with old | rfl
    · exact written.admissible p old
    · exact written.admissible ⟨args, .allocate⟩ mine
  · rcases List.mem_append.mp member with old | new
    · obtain ⟨p, listed, has, is⟩ := written.listed call old high
      obtain ⟨p', listed', equal, keeps⟩ := find_after fine found calls listed
      exact ⟨p', listed', keeps _ has, by rw [equal]; exact is⟩
    · rw [List.mem_singleton.mp new]
      exact ⟨_, here, rfl, rfl⟩
  · simp only at is ⊢
    rw [recordAt_put above] at is
    split_ifs at is with new
    · obtain ⟨visible, rfl⟩ := new
      cases is
      rw [refRecord_modRevision]
      refine ⟨recordOk_refRecord (by omega) (fun kv old => ?_) (written.admissible _ mine), visible,
        by rw [recordAt_put above, if_pos ⟨le_rfl, rfl⟩], fun _ => ⟨_, here, rfl, rfl⟩⟩
      rw [← whole] at old
      exact (written.records _ _ kv old).1
    · obtain ⟨ok, visible, back, from_⟩ := written.records key r kv is
      refine ⟨ok.mono (by omega), visible, by rw [same _ _ ok.bounded]; exact back,
        fun high => ?_⟩
      obtain ⟨p, listed, named, has⟩ := from_ high
      obtain ⟨p', listed', equal, keeps⟩ := find_after fine found calls listed
      exact ⟨p', listed', by rw [equal]; exact named, keeps _ has⟩
  · have hidden : ∀ q ≤ st.store.currentRevision, referenceAt (st.calls ++
        [(st.store.currentRevision + 1, .put args.key args.value args.lease)]) q =
          referenceAt st.calls q := by
      intro q low
      refine referenceAt_append fun call member => ?_
      rw [List.mem_singleton.mp member]
      simp only
      omega
    simp only
    rcases List.mem_or_eq_of_mem_set member with old | rfl
    · have bounded := (written.revisions p old r has).2
      rw [same _ _ bounded, hidden _ (by omega)]
      exact written.asked p old r has
    · cases has
      rw [recordAt_put above, if_pos ⟨le_rfl, rfl⟩, hidden _ (by omega), add_sub_cancel_right, whole]
  · simp only
    rcases List.mem_or_eq_of_mem_set member with old | rfl
    · have bounded := (written.revisions p old _ (PutStage.revision_of_record has)).2
      rw [same _ _ bounded]
      exact written.prepared p old kv has
    · cases has

/-- The order of the calls is kept. -/
theorem Ordered.put (written : Written base st) (ordered : Ordered st)
    (found : st.puts[i]? = some ⟨args, stage⟩) (order : PutOrder st.puts ⟨args, stage⟩)
    (calls : stage.Moves args st.store stage' store') (later : List (Int × StoreOp)) :
    Ordered ⟨⟨store', st.puts.set i ⟨args, stage'⟩⟩, st.reads, later⟩ := by
  have mine := List.mem_of_getElem? found
  -- a revision of the `put` that moved, below that of another one, is one it had before
  have before : ∀ o ∈ st.puts, ∀ a b, stage'.revision = some a → o.stage.revision = some b → a < b →
      stage.revision = some a := by
    intro o member a b has has' less
    rcases calls.revision_cases has with old | ⟨_, new⟩
    · exact old
    · have := (written.revisions o member b has').2
      omega
  refine ⟨fun p member o member' named a b has has' less record => ?_,
    fun p member o member' named a b has has' less done => ?_⟩
  · rcases List.mem_or_eq_of_mem_set member with old | rfl
    · rcases List.mem_or_eq_of_mem_set member' with old' | rfl
      · exact ordered.kv p old o old' named a b has has' less record
      · obtain ⟨kv, is⟩ := Option.isSome_iff_exists.mp record
        rcases calls.record_cases is with was | ⟨newRevision, version, prevKv, rfl, rfl, rfl, _, _⟩
        · have bound := PutStage.revision_of_record was
          have equal : stage.revision = some b := by
            rw [bound, ← PutStage.revision_of_record is]
            exact has'
          exact ordered.kv p old _ mine named a b has equal less (by rw [was]; rfl)
        · cases has'
          exact order p old named a has less
    · rcases List.mem_or_eq_of_mem_set member' with old' | rfl
      · have stored := ordered.kv _ mine o old' named a b (before o old' a b has has' less) has' less
          record
        rcases calls.kv_cases with ⟨kv, prevKv, rfl, rfl, _⟩ | ⟨same, _⟩
        · rfl
        · exact same.trans stored
      · rw [has] at has'
        cases has'
        exact absurd less (lt_irrefl a)
  · rcases List.mem_or_eq_of_mem_set member with old | rfl
    · rcases List.mem_or_eq_of_mem_set member' with old' | rfl
      · exact ordered.index p old o old' named a b has has' less done
      · rcases calls.index_cases with ⟨kv, prevKv, rfl, rfl, _⟩ | ⟨same, _⟩
        · cases has'
          exact order p old named a has less
        · rw [same] at done
          obtain ⟨kv, was⟩ := PutStage.record_of_storedKv
            (PutStage.storedKv_of_storedRev (PutStage.storedRev_of_done done))
          have equal : stage.revision = some b := by
            rw [PutStage.revision_of_record was,
              ← PutStage.revision_of_record (calls.record_keeps was)]
            exact has'
          exact ordered.index p old _ mine named a b has equal less done
    · rcases List.mem_or_eq_of_mem_set member' with old' | rfl
      · have finished := ordered.index _ mine o old' named a b (before o old' a b has has' less) has'
          less done
        rcases calls.index_cases with ⟨kv, prevKv, rfl, rfl, _⟩ | ⟨same, _⟩
        · rfl
        · exact same.trans finished
      · rw [has] at has'
        cases has'
        exact absurd less (lt_irrefl a)

/-- Above the revision of a `put` nothing has happened to its key, as far as a cut goes that no later
`put` has reached. -/
theorem recordAt_of_cut (written : Written base st) {flag : PutStage → Bool} {x y r : Int}
    (found : st.puts[i]? = some ⟨args, stage⟩) (has : stage.revision = some r)
    (cut : Cut flag base (st.puts.set i ⟨args, stage'⟩) args.key x) (low : r ≤ y) (high : y ≤ x)
    (first : ∀ p ∈ st.puts, p.args.key = args.key → ∀ r', p.stage.revision = some r' → r < r' →
      flag p.stage = false) :
    recordAt st.calls args.key y = recordAt st.calls args.key r := by
  have mine := List.mem_of_getElem? found
  have above := (written.revisions _ mine r has).1
  refine recordAt_eq low fun call member later visible => ?_
  obtain ⟨p, listed, has', is⟩ := written.listed call member (by omega)
  refine ⟨p.args.key, p.args.value, p.args.lease, is, fun named => ?_⟩
  obtain ⟨j, here⟩ := List.mem_iff_getElem?.mp listed
  have apart : j ≠ i := by
    rintro rfl
    rw [found] at here
    cases here
    rw [has] at has'
    cases has'
    exact absurd later (lt_irrefl _)
  have still : p ∈ st.puts.set i ⟨args, stage'⟩ := by
    refine List.mem_iff_getElem?.mpr ⟨j, ?_⟩
    rw [List.getElem?_set_ne fun is => apart is.symm]
    exact here
  have flagged := (cut.2 p still named call.1 has').mp (visible.trans high)
  rw [first p listed named call.1 has' later] at flagged
  cases flagged

/-- The index, when a `put` enters it, shows its key up to right below its revision. -/
theorem index_cut (written : Written base st) (ordered : Ordered st) {kv : KeyValue}
    {prevKv : Option KeyValue} (found : st.puts[i]? = some ⟨args, .storeIndex kv prevKv⟩)
    (order : PutOrder st.puts ⟨args, .storeIndex kv prevKv⟩) :
    Cut PutStage.done base st.puts args.key (kv.modRevision - 1) := by
  have mine := List.mem_of_getElem? found
  have low := (written.revisions _ mine kv.modRevision rfl).1
  refine ⟨by omega, fun p member named r has => ⟨fun below => ?_, fun done => ?_⟩⟩
  · exact order p member named r has (by omega)
  · by_contra above
    rcases lt_or_eq_of_le (show kv.modRevision ≤ r by omega) with later | same
    · have early := ordered.index _ mine p member named.symm kv.modRevision r rfl has later done
      cases early
    · obtain ⟨j, here⟩ := List.mem_iff_getElem?.mp member
      have equal := written.distinct _ _ _ _ r here found has (congrArg some same)
      subst equal
      rw [found] at here
      cases here
      cases done

/-- The `kv` tree after a call that allocates nothing. -/
theorem Shown.move_kv (written : Written base st) (ordered : Ordered st) (shown : Shown base st)
    (found : st.puts[i]? = some ⟨args, stage⟩) (fine : stage' ≠ .crashed)
    (calls : stage.Moves args st.store stage' store') {key : Bytes} {x : Int}
    (cut : Cut PutStage.storedKv base (st.puts.set i ⟨args, stage'⟩) key x) :
    store'.backend.get .kv key = (recordAt st.calls key x).map KeyValue.encode := by
  have mine := List.mem_of_getElem? found
  rcases calls.kv_cases with ⟨kv, prevKv, rfl, rfl, tree⟩ | ⟨same, tree⟩
  · by_cases named : key = args.key
    · subst named
      have visible : kv.modRevision ≤ x := (cut.2 _ (List.mem_of_getElem? (getElem?_set_here found))
        rfl kv.modRevision rfl).mpr rfl
      have latest := recordAt_of_cut written found rfl cut visible le_rfl
        fun p member same r has later => by
          by_contra stored
          obtain ⟨own, record⟩ := PutStage.record_of_storedKv (by simpa using stored)
          have early := ordered.kv _ mine p member same.symm kv.modRevision r rfl has later
            (by rw [record]; rfl)
          cases early
      rw [tree, if_pos rfl, latest, written.prepared _ mine kv rfl]
      rfl
    · rw [tree, if_neg named]
      exact shown.kv key x (cut.of_set found fun is => absurd is.symm named)
  · rw [tree]
    exact shown.kv key x (cut.of_set found fun _ r has => ⟨calls.revision_keeps fine has, same⟩)

/-- The index after a call that allocates nothing. -/
theorem Shown.move_index (written : Written base st) (ordered : Ordered st) (shown : Shown base st)
    (found : st.puts[i]? = some ⟨args, stage⟩) (order : PutOrder st.puts ⟨args, stage⟩)
    (fine : stage' ≠ .crashed) (calls : stage.Moves args st.store stage' store') {key : Bytes} {x : Int}
    (cut : Cut PutStage.done base (st.puts.set i ⟨args, stage'⟩) key x) :
    EntryOk x ((store'.keyIndex.tree.get? key).getD .new) ∧ ∀ r, store'.keyIndex.get key r =
      (recordAt st.calls key (min r x)).map fun kv => ⟨kv.modRevision, 0⟩ := by
  have mine := List.mem_of_getElem? found
  rcases calls.index_cases with ⟨kv, prevKv, rfl, rfl, index⟩ | ⟨same, index⟩
  · by_cases named : key = args.key
    · subst named
      obtain ⟨entryOk, answers⟩ := shown.index _ _ (index_cut written ordered found order)
      have below : kv.modRevision - 1 < (⟨kv.modRevision, 0⟩ : Revision).main := by simp
      have visible : kv.modRevision ≤ x := (cut.2 _ (List.mem_of_getElem? (getElem?_set_here found))
        rfl kv.modRevision rfl).mpr rfl
      have entry : (store'.keyIndex.tree.get? args.key).getD .new =
          ((st.store.keyIndex.tree.get? args.key).getD .new).put ⟨kv.modRevision, 0⟩ := by
        rw [index, KeyIndex.put, OrdMap.get?_insert, if_pos rfl, Option.getD_some]
      refine ⟨?_, fun r => ?_⟩
      · rw [entry]
        exact (entryOk.put below).mono visible
      · rw [KeyIndex.get_eq_getD, entry, KeyIndexEntry.revisionAt_put entryOk below,
          ← KeyIndex.get_eq_getD, answers]
        by_cases shows_ : kv.modRevision ≤ r
        · have latest := recordAt_of_cut written found rfl cut (le_min shows_ visible) (min_le_right r x)
            fun p member same r' has later => by
              by_contra done
              have early := ordered.index _ mine p member same.symm kv.modRevision r' rfl has later
                (by simpa using done)
              cases early
          rw [if_pos shows_, latest, written.prepared _ mine kv rfl]
          rfl
        · rw [if_neg shows_, min_eq_left (by omega), min_eq_left (by omega)]
    · have entry : store'.keyIndex.tree.get? key = st.store.keyIndex.tree.get? key := by
        rw [index, KeyIndex.put, OrdMap.get?_insert, if_neg named]
      have before := shown.index key x (cut.of_set found fun is => absurd is.symm named)
      simp only [KeyIndex.get_eq_getD] at before ⊢
      rw [entry]
      exact before
  · rw [index]
    exact shown.index key x (cut.of_set found fun _ r has => ⟨calls.revision_keeps fine has, same⟩)

/-- **A call that allocates nothing** leaves the trees and the index on the map. -/
theorem Shown.move (written : Written base st) (ordered : Ordered st) (shown : Shown base st)
    (found : st.puts[i]? = some ⟨args, stage⟩) (order : PutOrder st.puts ⟨args, stage⟩)
    (calls : stage.Moves args st.store stage' store') :
    Shown base ⟨⟨store', st.puts.set i ⟨args, stage'⟩⟩, st.reads, st.calls⟩ := by
  have mine := List.mem_of_getElem? found
  have fine := not_crashed written ordered shown found order calls
  refine ⟨fun key x cut => shown.move_kv written ordered found fine calls cut,
    fun key x cut => shown.move_index written ordered found order fine calls cut,
    fun key r kv is old => ?_, fun p member stored kv has => ?_⟩
  · have before := shown.oldHistory key r kv is old
    rcases calls.kvRev_cases with ⟨own, prevKv, rfl, rfl, tree⟩ | ⟨_, tree⟩
    · simp only [tree]
      rw [if_neg, before]
      intro equal
      have ok := (written.records key r kv is).1
      have low := ok.created
      have high := ok.modified
      have own_ := written.revisions _ mine own.modRevision rfl
      have fits := written.fits
      have positive := written.positive
      have both := (revKey_injective ⟨by omega, by omega⟩ ⟨by omega, by omega⟩ equal).1
      omega
    · simp only [tree]
      exact before
  · rcases calls.kvRev_cases with ⟨own, prevKv, rfl, rfl, tree⟩ | ⟨same, tree⟩
    · simp only [tree]
      rcases List.mem_or_eq_of_mem_set member with old | rfl
      · have before := shown.history p old stored kv has
        split_ifs with equal
        · have revision := written.revisions p old _ (PutStage.revision_of_record has)
          have revision' := written.revisions _ mine own.modRevision rfl
          have fits := written.fits
          have positive := written.positive
          obtain ⟨both, named⟩ := revKey_injective ⟨by omega, by omega⟩ ⟨by omega, by omega⟩ equal
          have first := written.prepared p old kv has
          have second := written.prepared _ mine own rfl
          rw [named, both] at first
          simp only at second
          rw [second] at first
          cases first
          rfl
        · exact before
      · cases has
        rw [if_pos rfl]
    · simp only [tree]
      rcases List.mem_or_eq_of_mem_set member with old | rfl
      · exact shown.history p old stored kv has
      · rw [same] at stored
        obtain ⟨own, record⟩ := PutStage.record_of_storedKv (PutStage.storedKv_of_storedRev stored)
        have keeps := calls.record_keeps record
        simp only [keeps] at has
        cases has
        exact shown.history ⟨args, stage⟩ mine stored _ record

/-- The call that allocates a revision shows nothing yet. -/
theorem Shown.allocate (written : Written base st) (shown : Shown base st)
    (found : st.puts[i]? = some ⟨args, .allocate⟩) :
    Shown base
      ⟨⟨{ st.store with currentRevision := st.store.currentRevision + 1 },
        st.puts.set i ⟨args, .readPrevious (st.store.currentRevision + 1)⟩⟩, st.reads,
        st.calls ++ [(st.store.currentRevision + 1, .put args.key args.value args.lease)]⟩ := by
  have here := List.mem_of_getElem? (getElem?_set_here
    (b := (⟨args, .readPrevious (st.store.currentRevision + 1)⟩ : PutCall)) found)
  have above : ∀ call ∈ st.calls, call.1 < st.store.currentRevision + 1 := by
    intro call member
    have := written.allocated call member
    omega
  -- up to a cut, the new write is hidden
  have hidden : ∀ {flag : PutStage → Bool} {key : Bytes} {x : Int},
      flag (.readPrevious (st.store.currentRevision + 1)) = false →
      Cut flag base (st.puts.set i ⟨args, .readPrevious (st.store.currentRevision + 1)⟩) key x →
      ∀ y ≤ x, recordAt
        (st.calls ++ [(st.store.currentRevision + 1, .put args.key args.value args.lease)]) key y =
          recordAt st.calls key y := by
    intro flag key x open_ cut y low
    rw [recordAt_put above, if_neg]
    rintro ⟨visible, rfl⟩
    have flagged := (cut.2 _ here rfl _ rfl).mp (visible.trans low)
    simp only [open_] at flagged
    cases flagged
  refine ⟨fun key x cut => ?_, fun key x cut => ?_, fun key r kv is old => ?_,
    fun p member stored kv has => ?_⟩
  · simp only
    rw [hidden rfl cut x le_rfl]
    exact shown.kv key x (cut.of_set found fun _ r has => by cases has)
  · have before := shown.index key x (cut.of_set found fun _ r has => by cases has)
    refine ⟨before.1, fun r => ?_⟩
    simp only
    rw [hidden rfl cut _ (min_le_right r x)]
    exact before.2 r
  · simp only at is ⊢
    rw [recordAt_put above] at is
    split_ifs at is with new
    · cases is
      have grown := written.grown
      rw [refRecord_modRevision] at old
      omega
    · exact shown.oldHistory key r kv is old
  · rcases List.mem_or_eq_of_mem_set member with old | rfl
    · exact shown.history p old stored kv has
    · cases stored

end Put

/-! ### A query -/

/-- The revision that a query asks about: one that is allocated, the one it was called with if that is
positive, and for a read of the latest records one that is not in the past of the `put`s. -/
structure Query (base : Int) (st : Snapshots) (args : RangeArgs) (q : Int) (isCurrent : Bool) : Prop where
  allocated : q ≤ st.store.currentRevision
  named : 0 < args.revision → q = args.revision
  latest : isCurrent = true → base ≤ q

/-- A key that a query still has to read: the map at its revision has a record of it, and a historical
read will find that record. -/
def Due (st : Snapshots) (q : Int) (isCurrent : Bool) (e : Bytes × Revision) : Prop :=
  ∃ kv, recordAt st.calls e.1 q = some kv ∧
    (isCurrent = false → e.2 = ⟨kv.modRevision, 0⟩ ∧
      st.store.backend.get .kvRev (revKey kv.modRevision e.1) = some kv.encodeWithKey)

/-- The answer that a query owes. -/
def owed (st : Snapshots) (args : RangeArgs) (q : Int) : List KeyValue :=
  (rangeOf (referenceAt st.calls q) args.start args.stop).kvs

/-- **The invariant of a query**: what it has read and what is due make up the map at its revision. -/
inductive ReadOk (base : Int) (st : Snapshots) (args : RangeArgs) : ReadStage → Prop
  | idle : ReadOk base st args .idle
  | load (called : args.revision ≤ st.store.currentRevision) : ReadOk base st args .load
  | scan (q : Int) (isCurrent : Bool) (query : Query base st args q isCurrent) :
      ReadOk base st args (.scan q isCurrent)
  | fetch (q : Int) (isCurrent : Bool) (count : Nat) (keys : List (Bytes × Revision))
      (kvs : List KeyValue) (query : Query base st args q isCurrent)
      (due : ∀ e ∈ keys, Due st q isCurrent e)
      (total : kvs ++ keys.map (fun e => (recordAt st.calls e.1 q).getD default) = st.owed args q) :
      ReadOk base st args (.fetch q isCurrent count keys kvs)
  | answered (q : Int) (isCurrent : Bool) (result : RangeResult)
      (query : Query base st args q isCurrent) (exact : result.kvs = st.owed args q) :
      ReadOk base st args (.answered q result)
  | crashed (inverted : ¬ KeyIndex.ValidRange args.start args.stop) : ReadOk base st args .crashed

section Read

variable {base : Int} {st st' : Snapshots} {args : RangeArgs} {stage stage' : ReadStage} {q : Int}
  {isCurrent : Bool}

/-- A query over a later state of the store, as far as it concerns the query. -/
theorem ReadOk.mono (ok : ReadOk base st args stage)
    (counter : st.store.currentRevision ≤ st'.store.currentRevision)
    (same : ∀ q ≤ st.store.currentRevision, referenceAt st'.calls q = referenceAt st.calls q)
    (kept : ∀ key r kv, recordAt st.calls key r = some kv →
      st.store.backend.get .kvRev (revKey kv.modRevision key) = some kv.encodeWithKey →
      st'.store.backend.get .kvRev (revKey kv.modRevision key) = some kv.encodeWithKey) :
    ReadOk base st' args stage := by
  have query : ∀ {q isCurrent}, Query base st args q isCurrent → Query base st' args q isCurrent :=
    fun known => ⟨known.allocated.trans counter, known.named, known.latest⟩
  have record : ∀ {q} key, q ≤ st.store.currentRevision →
      recordAt st'.calls key q = recordAt st.calls key q := by
    intro q key low
    rw [recordAt, same q low]
    rfl
  cases ok with
  | idle => exact .idle
  | load called => exact .load (called.trans counter)
  | scan q isCurrent known => exact .scan q isCurrent (query known)
  | fetch q isCurrent count keys kvs known due total =>
    refine .fetch q isCurrent count keys kvs (query known) (fun e member => ?_) ?_
    · obtain ⟨kv, is, old⟩ := due e member
      refine ⟨kv, (record e.1 known.allocated).trans is, fun past => ⟨(old past).1, ?_⟩⟩
      exact kept e.1 q kv is (old past).2
    · rw [owed, same q known.allocated]
      refine Eq.trans ?_ total
      simp only [record _ known.allocated]
  | answered q isCurrent result known exact_ =>
    refine .answered q isCurrent result (query known) ?_
    rw [owed, same q known.allocated]
    exact exact_
  | crashed inverted => exact .crashed inverted

/-- A record of `kv_rev` survives the calls of the `put`s. -/
theorem history_kept (written : Written base st) {i : Nat} {put : PutArgs} {before after : PutStage}
    {store' : MvccStore} (found : st.puts[i]? = some ⟨put, before⟩)
    (calls : before.Moves put st.store after store') {key : Bytes} {r : Int} {kv : KeyValue}
    (is : recordAt st.calls key r = some kv)
    (stored : st.store.backend.get .kvRev (revKey kv.modRevision key) = some kv.encodeWithKey) :
    store'.backend.get .kvRev (revKey kv.modRevision key) = some kv.encodeWithKey := by
  have mine := List.mem_of_getElem? found
  rcases calls.kvRev_cases with ⟨own, prevKv, rfl, rfl, tree⟩ | ⟨_, tree⟩
  · rw [tree]
    split_ifs with equal
    · obtain ⟨ok, _, back, _⟩ := written.records key r kv is
      have low := ok.created
      have high := ok.modified
      have bounded := ok.bounded
      have revision := written.revisions _ mine own.modRevision rfl
      have fits := written.fits
      have positive := written.positive
      obtain ⟨both, named⟩ := revKey_injective ⟨by omega, by omega⟩ ⟨by omega, by omega⟩ equal
      have second := written.prepared _ mine own rfl
      rw [named, both] at back
      simp only at second
      rw [second] at back
      cases back
      rfl
    · exact stored
  · rw [tree]
    exact stored

/-! ### The scan -/

/-- A key all of whose `put`s up to the revision of the query are indexed: the index shows its
record. -/
theorem index_exact (written : Written base st) (ordered : Ordered st) (shown : Shown base st)
    {key : Bytes}
    (indexed : ∀ o ∈ st.puts, o.args.key = key → ∀ r, o.stage.revision = some r → r ≤ q →
      o.stage.done = true) :
    st.store.keyIndex.get key q =
      (recordAt st.calls key q).map fun kv => ⟨kv.modRevision, 0⟩ := by
  obtain ⟨x, cut⟩ : ∃ x, Cut PutStage.done base st.puts key x := by
    refine exists_cut (fun p member o listed named named' a b has has' le done => ?_)
      (fun p member r has => (written.revisions p member r has).1)
      (fun p member r has => (written.revisions p member r has).2)
    rcases lt_or_eq_of_le le with less | rfl
    · exact ordered.index p member o listed (named.trans named'.symm) a b has has' less done
    · obtain ⟨j, here⟩ := List.mem_iff_getElem?.mp member
      obtain ⟨k, there⟩ := List.mem_iff_getElem?.mp listed
      have equal := written.distinct _ _ _ _ a here there has has'
      subst equal
      rw [here] at there
      cases there
      exact done
  rw [(shown.index key x cut).2 q]
  rcases le_total q x with low | high
  · rw [min_eq_left low]
  · rw [min_eq_right high, recordAt_eq high fun call member above visible => ?_]
    have base_ := cut.1
    obtain ⟨p, listed, has, is⟩ := written.listed call member (by omega)
    refine ⟨p.args.key, p.args.value, p.args.lease, is, fun named => ?_⟩
    have under := (cut.2 p listed named call.1 has).mpr (indexed p listed named call.1 has visible)
    omega

/-- **The keys of the scan are the keys of the map.** -/
theorem scan_live (written : Written base st) (ordered : Ordered st) (shown : Shown base st)
    (order : ReadOrder st ⟨args, .scan q isCurrent⟩)
    {key : Bytes} (inside : Bytes.InRange args.start args.stop key) :
    (st.store.keyIndex.get key q).isSome ↔ (recordAt st.calls key q).isSome := by
  by_cases indexed : ∀ o ∈ st.puts, o.args.key = key → ∀ r, o.stage.revision = some r → r ≤ q →
      o.stage.done = true
  · rw [index_exact written ordered shown indexed, Option.isSome_map]
  · push Not at indexed
    obtain ⟨o, listed, rfl, r, has, low, open_⟩ := indexed
    rcases order o listed inside r has low with done | ⟨_, present⟩
    · exact absurd done open_
    · refine iff_of_true present (recordAt_live low (fun call member above _ => ?_) ?_)
      · have base_ := (written.revisions o listed r has).1
        obtain ⟨p, _, _, is⟩ := written.listed call member (by omega)
        exact ⟨_, _, _, is⟩
      · rw [written.asked o listed r has]
        rfl

/-- A key of the scan is due. -/
theorem scan_due (written : Written base st) (ordered : Ordered st) (shown : Shown base st)
    (order : ReadOrder st ⟨args, .scan q isCurrent⟩)
    {e : Bytes × Revision} (member : e ∈ st.store.keyIndex.keysIn args.start args.stop q) :
    Due st q isCurrent e := by
  obtain ⟨key, rev⟩ := e
  obtain ⟨inside, shows_⟩ := KeyIndex.mem_keysIn.mp member
  have live := (scan_live written ordered shown order inside).mp (by rw [shows_]; rfl)
  obtain ⟨kv, is⟩ := Option.isSome_iff_exists.mp live
  refine ⟨kv, is, fun past => ?_⟩
  have indexed : ∀ o ∈ st.puts, o.args.key = key → ∀ r, o.stage.revision = some r → r ≤ q →
      o.stage.done = true := by
    intro o listed named r has low
    rcases order o listed (by rw [named]; exact inside) r has low with done | ⟨current, _⟩
    · exact done
    · rw [past] at current
      cases current
  have exact_ := index_exact written ordered shown indexed
  rw [shows_, is] at exact_
  obtain ⟨_, visible, back, from_⟩ := written.records key q kv is
  refine ⟨Option.some.inj exact_, ?_⟩
  by_cases old : kv.modRevision ≤ base
  · exact shown.oldHistory key q kv is old
  · obtain ⟨p, listed, named, has⟩ := from_ (not_le.mp old)
    have copied := PutStage.storedRev_of_done (indexed p listed named _ has visible)
    obtain ⟨own, record⟩ := PutStage.record_of_storedKv (PutStage.storedKv_of_storedRev copied)
    have prepared := written.prepared p listed own record
    have revision := PutStage.revision_of_record record
    rw [has] at revision
    have equal : kv.modRevision = own.modRevision := Option.some.inj revision
    rw [named, ← equal, back] at prepared
    cases prepared
    have stored := shown.history p listed copied kv record
    rw [named] at stored
    exact stored

/-- The records of the keys of the scan are the answer owed. -/
theorem scan_total (written : Written base st) (ordered : Ordered st) (shown : Shown base st)
    (order : ReadOrder st ⟨args, .scan q isCurrent⟩) :
    (st.store.keyIndex.keysIn args.start args.stop q).map
        (fun e => (recordAt st.calls e.1 q).getD default) = st.owed args q := by
  have keys : (st.store.keyIndex.keysIn args.start args.stop q).map Prod.fst =
      ((referenceAt st.calls q).entries.filter fun e =>
        Bytes.InRange args.start args.stop e.1).map Prod.fst := by
    refine OrdMap.eq_of_mem_iff id
      (List.pairwise_map.mpr (st.store.keyIndex.keysIn_ascending args.start args.stop q))
      (List.pairwise_map.mpr ((referenceAt st.calls q).sorted.filter _)) fun key => ?_
    simp only [List.mem_map, Prod.exists, exists_and_right, exists_eq_right, KeyIndex.mem_keysIn,
      List.mem_filter, decide_eq_true_eq, OrdMap.mem_entries_iff]
    constructor
    · rintro ⟨rev, inside, shows_⟩
      have live := (scan_live written ordered shown order inside).mp (by rw [shows_]; rfl)
      obtain ⟨kv, is⟩ := Option.isSome_iff_exists.mp live
      exact ⟨⟨kv, is⟩, inside⟩
    · rintro ⟨⟨kv, is⟩, inside⟩
      have live := (scan_live written ordered shown order inside).mpr
        (by rw [recordAt, is]; rfl)
      obtain ⟨rev, shows_⟩ := Option.isSome_iff_exists.mp live
      exact ⟨rev, inside, shows_⟩
  have mapped := congrArg (List.map fun key => (recordAt st.calls key q).getD default) keys
  rw [List.map_map, List.map_map] at mapped
  refine mapped.trans (List.map_congr_left ?_)
  rintro ⟨key, kv⟩ member
  have found := OrdMap.mem_entries_iff.mp (List.mem_filter.mp member).1
  simp only [Function.comp_apply, recordAt, found, Option.getD_some]

/-! ### The reads -/

/-- **A key that is due is read as the map has it.** -/
theorem fetch_due (written : Written base st) (shown : Shown base st)
    (query : Query base st args q isCurrent) {count : Nat} {key : Bytes} {rev : Revision}
    {rest : List (Bytes × Revision)} {kvs : List KeyValue}
    (order : ReadOrder st ⟨args, .fetch q isCurrent count ((key, rev) :: rest) kvs⟩)
    (due : Due st q isCurrent (key, rev)) :
    st.store.fetch isCurrent q key rev = .ok (some ((recordAt st.calls key q).getD default)) := by
  obtain ⟨kv, is, old⟩ := due
  simp only at is old
  obtain ⟨ok, visible, _, _⟩ := written.records key q kv is
  rw [is, Option.getD_some]
  cases isCurrent with
  | true =>
    have cut : Cut PutStage.storedKv base st.puts key q :=
      ⟨query.latest rfl, fun p member named r has => order p member named r has⟩
    have tree := shown.kv key q cut
    rw [is, Option.map_some] at tree
    have decoded := KeyValue.decode_encode (ok.encodable written.fits)
    rw [ok.key] at decoded
    have seen : kv.createRevision ≤ q ∧ kv.modRevision ≤ q := ⟨ok.modified.trans visible, visible⟩
    simp only [MvccStore.fetch, if_true, tree, decoded, if_pos seen]
  | false =>
    obtain ⟨rfl, stored⟩ := old rfl
    have decoded := KeyValue.decodeWithKey_encodeWithKey (ok.encodable written.fits)
    simp only [MvccStore.fetch, Bool.false_eq_true, if_false, stored, decoded]

/-- The local computation after a call. -/
theorem ReadOk.settle (plain : args.limit = 0 ∧ args.countOnly = false)
    (query : Query base st args q isCurrent) (count : Nat) {keys : List (Bytes × Revision)}
    {kvs : List KeyValue} (due : ∀ e ∈ keys, Due st q isCurrent e)
    (total : kvs ++ keys.map (fun e => (recordAt st.calls e.1 q).getD default) = st.owed args q) :
    ReadOk base st args (ReadStage.settle args q isCurrent count keys kvs) := by
  unfold ReadStage.settle
  by_cases ends : keys = []
  · rw [if_pos (Or.inl ends)]
    subst ends
    refine .answered q isCurrent _ query ?_
    simpa using total
  · rw [if_neg]
    · exact .fetch q isCurrent count keys kvs query due total
    · rintro (empty | ⟨limited, _⟩ | counts)
      · exact ends empty
      · rw [plain.1] at limited
        exact absurd limited (lt_irrefl 0)
      · rw [plain.2] at counts
        cases counts

/-- **Every orderly call of a query keeps its invariant.** -/
theorem ReadOk.step (written : Written base st) (ordered : Ordered st) (shown : Shown base st)
    (plain : args.limit = 0 ∧ args.countOnly = false) (ok : ReadOk base st args stage)
    (order : ReadOrder st ⟨args, stage⟩) (moves : stage.step args st.store = some stage') :
    ReadOk base st args stage' := by
  have grown := written.grown
  cases ok with
  | idle =>
    rw [ReadStage.step] at moves
    split_ifs at moves with called
    cases moves
    exact .load called
  | load called =>
    cases moves
    refine .scan _ _ ⟨?_, fun positive => if_neg (by omega), fun current => ?_⟩
    · split_ifs
      · exact le_rfl
      · exact called
    · split_ifs
      · exact grown
      · simp only [Bool.or_eq_true, decide_eq_true_eq] at current
        omega
  | scan q isCurrent query =>
    rw [ReadStage.step] at moves
    by_cases accepts : KeyIndex.Accepts st.store.keyIndex.held args.start args.stop
    · rw [KeyIndex.range_eq accepts] at moves
      cases moves
      exact .settle plain query _ (fun e member => scan_due written ordered shown order member)
        (scan_total written ordered shown order)
    · rw [KeyIndex.range_eq_none accepts] at moves
      cases moves
      exact .crashed (KeyIndex.Accepts.of_not accepts).2
  | fetch q isCurrent count keys kvs query due total =>
    cases keys with
    | nil => cases moves
    | cons e rest =>
      obtain ⟨key, rev⟩ := e
      have fetched := fetch_due written shown query order (due (key, rev) List.mem_cons_self)
      rw [ReadStage.step, fetched] at moves
      cases moves
      refine .settle plain query _ (fun e member => due e (List.mem_cons_of_mem _ member)) ?_
      rw [← total, List.map_cons, Option.toList_some, List.append_assoc, List.singleton_append]
  | answered q isCurrent result query exact_ => cases moves
  | crashed inverted => cases moves

end Read

/-! ### Whole runs -/

/-- **The invariant.** -/
structure Inv (base : Int) (st : Snapshots) : Prop where
  written : Written base st
  ordered : Ordered st
  shown : Shown base st
  plain : ∀ c ∈ st.reads, c.args.limit = 0 ∧ c.args.countOnly = false
  reads : ∀ c ∈ st.reads, ReadOk base st c.args c.stage

section Runs

variable {base : Int} {st st' : Snapshots}

theorem Inv.start {calls : List (Int × StoreOp)} {s : MvccStore} (ref : Refines calls s)
    {requests : List PutArgs}
    (admissible : ∀ args ∈ requests, (StoreOp.put args.key args.value args.lease).Admissible)
    {queries : List RangeArgs} (plain : ∀ args ∈ queries, args.limit = 0 ∧ args.countOnly = false) :
    Inv s.currentRevision (start s calls requests queries) := by
  have begun : ∀ p ∈ (Snapshots.start s calls requests queries).puts,
      p.args ∈ requests ∧ p.stage = .readIndex := by
    intro p member
    obtain ⟨args, asked, rfl⟩ := List.mem_map.mp member
    exact ⟨asked, rfl⟩
  have called : ∀ c ∈ (Snapshots.start s calls requests queries).reads,
      c.args ∈ queries ∧ c.stage = .idle := by
    intro c member
    obtain ⟨args, asked, rfl⟩ := List.mem_map.mp member
    exact ⟨asked, rfl⟩
  have current : ∀ x, s.currentRevision ≤ x → referenceAt calls x = replay calls :=
    fun x high => ref.reference_current high
  refine ⟨⟨Writers.Numbered.start rfl ref.fits requests, ref.positive, ref.allocated,
    fun p member => ?_, fun p member => admissible _ (begun p member).1, fun call member above => ?_,
    fun key r kv is => ?_, fun p member r has => ?_, fun p member kv has => ?_⟩,
    ⟨fun p member o _ _ a b has => ?_, fun p member o _ _ a b has => ?_⟩,
    ⟨fun key x cut => ?_, fun key x cut => ⟨(ref.indexOk.getD key).mono cut.1, fun r => ?_⟩,
      fun key r kv is _ => ref.history key r kv is, fun p member stored => ?_⟩,
    fun c member => plain _ (called c member).1, fun c member => ?_⟩
  · rw [(begun p member).2]
    simp
  · exact absurd (ref.allocated call member) (not_le.mpr above)
  · obtain ⟨ok, visible⟩ := ref.records r key kv is
    exact ⟨ok, visible, ref.record_at_modRevision is,
      fun above => absurd ok.bounded (not_le.mpr above)⟩
  · rw [(begun p member).2] at has
    cases has
  · rw [(begun p member).2] at has
    cases has
  · rw [(begun p member).2] at has
    cases has
  · rw [(begun p member).2] at has
    cases has
  · rw [recordAt]
    show s.backend.get .kv key = ((referenceAt calls x).get? key).map _
    rw [current x cut.1]
    exact ref.kv key
  · show s.keyIndex.get key r = ((referenceAt calls (min r x)).get? key).map _
    rw [ref.index]
    rcases le_total r x with low | high
    · rw [min_eq_left low]
    · rw [min_eq_right high, current x cut.1, current r (cut.1.trans high)]
  · rw [(begun p member).2] at stored
    cases stored
  · rw [(called c member).2]
    exact .idle

/-- **Every orderly call keeps the invariant.** -/
theorem Inv.step {action : SnapshotStep} (inv : Inv base st) (moves : step st action = some st')
    (orderly : Orderly st action) : Inv base st' := by
  obtain ⟨written, ordered, shown, plain, reads⟩ := inv
  rcases step_cases moves with ⟨i, args, stage, stage', store', rfl, found, calls, rfl⟩ |
    ⟨j, args, stage, stage', rfl, found, calls, rfl⟩
  · have order : PutOrder st.puts ⟨args, stage⟩ := orderly _ found
    have above : ∀ call ∈ allocation st.store ⟨args, stage⟩, st.store.currentRevision < call.1 := by
      intro call member
      unfold allocation at member
      split_ifs at member
      · rw [List.mem_singleton.mp member]
        simp
      · cases member
    refine ⟨?_, ordered.put written found order calls _, ?_, plain, fun c member => ?_⟩
    · rcases calls.counter with ⟨rfl, _, _, room⟩ | ⟨other, counter⟩
      · cases calls
        exact written.allocate found room
      · rw [allocation_other st.store args other, List.append_nil]
        exact written.move ordered shown found order calls other counter
    · rcases calls.counter with ⟨rfl, _, _, _⟩ | ⟨other, _⟩
      · cases calls
        exact shown.allocate written found
      · rw [allocation_other st.store args other, List.append_nil]
        exact shown.move written ordered found order calls
    · refine (reads c member).mono calls.counter_le (fun q low => ?_)
        fun key r kv is stored => history_kept written found calls is stored
      exact referenceAt_append fun call new => lt_of_le_of_lt low (above call new)
  · have order : ReadOrder st ⟨args, stage⟩ := orderly _ found
    have mine := List.mem_of_getElem? found
    have moved := (reads _ mine).step written ordered shown (plain _ mine) order calls
    refine ⟨⟨written.toNumbered, written.positive, written.allocated, written.fine,
      written.admissible, written.listed, written.records, written.asked, written.prepared⟩,
      ⟨ordered.kv, ordered.index⟩, ⟨shown.kv, shown.index, shown.oldHistory, shown.history⟩,
      fun c member => ?_, fun c member => ?_⟩
    · rcases List.mem_or_eq_of_mem_set member with old | rfl
      · exact plain c old
      · exact plain ⟨args, stage⟩ mine
    · rcases List.mem_or_eq_of_mem_set member with old | rfl
      · exact (reads c old).mono le_rfl (fun _ _ => rfl) fun _ _ _ _ stored => stored
      · exact moved.mono le_rfl (fun _ _ => rfl) fun _ _ _ _ stored => stored

/-- The answer of a query is the map at its revision. -/
def IsSnapshot (st : Snapshots) (c : ReadCall) (q : Int) (result : RangeResult) : Prop :=
  (0 < c.args.revision → q = c.args.revision) ∧
    result.kvs = (rangeOf (referenceAt st.calls q) c.args.start c.args.stop).kvs

/-- **Snapshot reads.** Over every store that calls have built, in every orderly interleaving of any
number of `put`s and queries: what a query answers is the map at its revision, every `put` taking
effect at the revision it allocated; two queries of one interval at one revision answer the same; and
no query of a valid interval crashes. -/
theorem reads_are_snapshots (ops : List StoreOp) (admissible : ∀ op ∈ ops, op.Admissible)
    (calls : List (Int × StoreOp)) (s : MvccStore)
    (built : (runOps ops).run (MvccStore.new .empty) = (.ok calls, s))
    (requests : List PutArgs)
    (fit : ∀ args ∈ requests, (StoreOp.put args.key args.value args.lease).Admissible)
    (queries : List RangeArgs) (plain : ∀ args ∈ queries, args.limit = 0 ∧ args.countOnly = false)
    (actions : List SnapshotStep) (st : Snapshots)
    (runs : runFrom step (start s calls requests queries) actions = some st)
    (orderly : Along step Orderly (start s calls requests queries) actions) :
    (∀ c ∈ st.reads, ∀ q result, c.stage = .answered q result → st.IsSnapshot c q result) ∧
    (∀ c ∈ st.reads, ∀ c' ∈ st.reads, c.args.start = c'.args.start → c.args.stop = c'.args.stop →
      ∀ q result result', c.stage = .answered q result → c'.stage = .answered q result' →
        result.kvs = result'.kvs) ∧
    ∀ c ∈ st.reads, KeyIndex.ValidRange c.args.start c.args.stop → c.stage ≠ .crashed := by
  obtain ⟨_, _, _, ref⟩ := Refines.fresh.runOps admissible built
  rw [List.nil_append] at ref
  have inv : Inv s.currentRevision st :=
    run_invariant (fun _ _ _ moves orderly inv => Inv.step inv moves orderly)
      (Inv.start ref fit plain) orderly runs
  have snapshot : ∀ c ∈ st.reads, ∀ q result, c.stage = .answered q result →
      st.IsSnapshot c q result := by
    intro c member q result is
    have ok := inv.reads c member
    rw [is] at ok
    cases ok with
    | answered _ isCurrent _ query exact_ => exact ⟨query.named, exact_⟩
  refine ⟨snapshot, fun c member c' member' start stop q result result' is is' => ?_,
    fun c member valid crashed => ?_⟩
  · rw [(snapshot c member q result is).2, (snapshot c' member' q result' is').2, start, stop]
  · have ok := inv.reads c member
    rw [crashed] at ok
    cases ok with
    | crashed inverted => exact inverted valid

end Runs

/-- One key, written at revision 2. -/
def oneWrite : List StoreOp := [.put [97] [49] 0]

/-- A query of the latest records and a `put` of that key: the query loads revision 2, the `put`
allocates 3 and stores its record, and only then the query scans and reads. -/
def overwritten : List SnapshotStep :=
  [.read 0, .read 0, .put 0, .put 0, .put 0, .put 0, .read 0, .read 0]

/-- The key was there at revision 2 and at revision 3, and the query does not find it. -/
theorem overwritten_key_missing :
    ∃ calls s st c, (runOps oneWrite).run (MvccStore.new .empty) = (.ok calls, s) ∧
      runFrom step (start s calls [⟨[97], [50], 0⟩] [⟨[97], [], 0, 0, false⟩]) overwritten = some st ∧
      c ∈ st.reads ∧ c.stage = .answered 2 ⟨[], false, 1⟩ ∧
      (referenceAt st.calls 2).get? [97] = some ⟨[97], 2, 2, 1, [49], 0⟩ ∧
      ¬ st.IsSnapshot c 2 ⟨[], false, 1⟩ := by
  refine ⟨_, _, _, _, rfl, rfl, List.mem_cons_self, rfl, rfl, ?_⟩
  rintro ⟨_, empty⟩
  cases empty

/-- The query loads and scans between the calls of the `put`, and reads before the record changes. -/
def interleaved : List SnapshotStep :=
  [.put 0, .read 0, .read 0, .put 0, .read 0, .read 0, .put 0, .put 0, .put 0, .put 0]

/-- It answers the map at revision 2. -/
theorem interleaved_read_is_snapshot :
    ∃ calls s st c, (runOps oneWrite).run (MvccStore.new .empty) = (.ok calls, s) ∧
      runFrom step (start s calls [⟨[97], [50], 0⟩] [⟨[97], [], 0, 0, false⟩]) interleaved = some st ∧
      c ∈ st.reads ∧ c.stage = .answered 2 ⟨[⟨[97], 2, 2, 1, [49], 0⟩], false, 1⟩ ∧
      st.IsSnapshot c 2 ⟨[⟨[97], 2, 2, 1, [49], 0⟩], false, 1⟩ := by
  have admissible : ∀ op ∈ oneWrite, op.Admissible := by
    intro op member
    rw [List.mem_singleton.mp member]
    exact ⟨by decide, by decide, by decide, by decide⟩
  have fit : ∀ args ∈ [(⟨[97], [50], 0⟩ : PutArgs)],
      (StoreOp.put args.key args.value args.lease).Admissible := by
    intro args member
    rw [List.mem_singleton.mp member]
    exact ⟨by decide, by decide, by decide, by decide⟩
  refine ⟨_, _, _, _, rfl, rfl, List.mem_cons_self, rfl, ?_⟩
  exact (reads_are_snapshots oneWrite admissible _ _ rfl [⟨[97], [50], 0⟩] fit
    [⟨[97], [], 0, 0, false⟩] (by decide) interleaved _ rfl (by decide)).1 _ List.mem_cons_self _ _ rfl

end Snapshots

end Rusd
