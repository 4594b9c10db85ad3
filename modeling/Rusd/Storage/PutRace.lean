/-
**Concurrent `put`s on one key** (`storage/mvcc.rs`, `storage/index.rs`).

Any number of `put`s of one key, interleaved call by call. A `put` reads the previous record and
writes the next one in two calls, and the revision it allocated before decides nothing about who
writes last.

* `CallOrder` — what the interleaving did: who allocated, stored and indexed last, and whether a read
  of the previous record fell between the read and the write of another `put`.
* `Allocated`, `Stored`, `Indexed` — the invariants of the revisions, the trees and the index.
* `counter_step` — the version is a shared counter that every `put` increments in two steps.
* `nothing_lost_iff` — the `put`s lose nothing if and only if no two of them overlapped and the one
  that allocated last also stored and indexed last.
-/

import Mathlib.Order.Bounds.Basic
import Rusd.Lib.SharedCounter
import Rusd.Storage.PutSteps
import Rusd.Storage.Reached
import Rusd.Storage.Reference

namespace Rusd

open MvccStore

/-! ### The machine -/

/-- The order in which the calls of the `put`s fell. -/
structure CallOrder where
  /-- The `put` that allocated its revision last, and the ones that wrote `kv` and the index last. -/
  allocatedLast : Option Nat
  storedLast : Option Nat
  indexedLast : Option Nat
  /-- A `put` read the previous record while another one stood between its read and its write. -/
  overlapped : Bool
  deriving DecidableEq, Repr

/-- Between the read of the previous record and the write of the next one. -/
def PutStage.pending : PutStage → Bool
  | .storeKv _ _ => true
  | _ => false

/-- A `put` as an increment of the version: it reads the previous one and writes the next one. -/
def PutStage.increment : PutStage → Increment
  | .storeKv kv _ => .holding kv.version
  | .storeRev kv _ => .written kv.version
  | .storeIndex kv _ => .written kv.version
  | .returned kv _ => .written kv.version
  | _ => .waiting

/-- The `put` at `i` makes the call of its stage. -/
def CallOrder.note (order : CallOrder) (puts : List PutCall) (i : Nat) : PutStage → CallOrder
  | .allocate => { order with allocatedLast := some i }
  | .readPrevious _ =>
    { order with overlapped := order.overlapped || puts.any fun p => p.stage.pending }
  | .storeKv _ _ => { order with storedLast := some i }
  | .storeIndex _ _ => { order with indexedLast := some i }
  | _ => order

/-- No two `put`s overlapped, and the one that allocated last stored and indexed last. -/
def CallOrder.Serial (order : CallOrder) : Prop :=
  order.overlapped = false ∧ order.storedLast = order.allocatedLast ∧
    order.indexedLast = order.allocatedLast

instance (order : CallOrder) : Decidable order.Serial :=
  inferInstanceAs (Decidable (_ ∧ _ ∧ _))

/-- The `put`s with the order of their calls. -/
structure PutRace extends Writers where
  order : CallOrder

namespace PutRace

/-- `put`s of one key, none of which has begun. -/
def start (s : MvccStore) (key : Bytes) (requests : List (Bytes × Int)) : PutRace :=
  ⟨Writers.start s (requests.map fun (value, lease) => ⟨key, value, lease⟩), ⟨none, none, none, false⟩⟩

/-- The next call of the `put` at `i`. -/
def step (st : PutRace) (i : Nat) : Option PutRace :=
  match st.puts[i]? with
  | none => none
  | some p => (st.toWriters.step i).map fun w => ⟨w, st.order.note st.puts i p.stage⟩

/-- **What one step is.** -/
theorem step_cases {st st' : PutRace} {i : Nat} (moves : step st i = some st') :
    ∃ args stage stage' store', st.puts[i]? = some ⟨args, stage⟩ ∧
      stage.Moves args st.store stage' store' ∧
      st' = ⟨⟨store', st.puts.set i ⟨args, stage'⟩⟩, st.order.note st.puts i stage⟩ := by
  unfold step at moves
  cases found : st.puts[i]? with
  | none =>
    simp only [found] at moves
    cases moves
  | some p =>
    simp only [found] at moves
    obtain ⟨⟨store', puts'⟩, moved, rfl⟩ := Option.map_eq_some_iff.mp moves
    obtain ⟨p', stage', same, calls, puts⟩ := Writers.step_cases moved
    rw [found] at same
    cases same
    simp only at calls puts
    exact ⟨p.args, p.stage, stage', store', rfl, calls, by rw [puts]⟩

end PutRace

/-- The version of the latest record of a key, 0 without one. -/
def versionOf (s : MvccStore) (key : Bytes) : Int :=
  match readRecord key (s.backend.get .kv key) with
  | .ok prevKv => (prevKv.map fun kv => kv.version).getD 0
  | .err _ => 0
  | .panic => 0

/-- The version field of the `kv_rev` record that a `put` has left. -/
def historyVersion (s : MvccStore) (key : Bytes) (p : PutCall) : Option Int :=
  p.stage.revision.bind fun r =>
    (s.backend.get .kvRev (revKey r key)).map fun data => i64OfLe (slice data 16 24)

/-- **What the `put`s of one key leave if nothing is lost**: under the largest revision `m` allocated
among them a record whose version counts them all, one `kv_rev` record each with versions that
differ, and an index that shows `m`. -/
def NothingLost (s₀ : MvccStore) (key : Bytes) (st : PutRace) : Prop :=
  ∃ m, IsGreatest { r | ∃ p ∈ st.puts, p.stage.revision = some r } m ∧
    (∃ kv, readRecord key (st.store.backend.get .kv key) = .ok (some kv) ∧ kv.modRevision = m ∧
      kv.version = versionOf s₀ key + st.puts.length) ∧
    (∀ p ∈ st.puts, (historyVersion st.store key p).isSome) ∧
    (st.puts.map (historyVersion st.store key)).Nodup ∧
    st.store.keyIndex.get key st.store.currentRevision = some ⟨m, 0⟩

/-! ### An entry of the index that ends with a revision -/

/-- The last revision that the entry shows is `rev`: the earlier generations have ended, the last one
is alive and was written last at `rev`. -/
structure EndsWith (bound : Int) (rev : Revision) (init : List Generation) (last : Generation)
    (earlier : List Revision) : Prop where
  ended : ∀ gen ∈ init, gen.deleted.isSome
  deleted : ∀ gen ∈ init, ∀ del, gen.deleted = some del → del.main ≤ bound
  alive : last.deleted = none
  created : last.created.main ≤ bound
  revisions : last.revisions = earlier ++ [rev]

/-- Some split of the entry ends with `rev`. -/
def Shows (bound : Int) (rev : Revision) (entry : KeyIndexEntry) : Prop :=
  ∃ init last earlier, entry = ⟨init ++ [last]⟩ ∧ EndsWith bound rev init last earlier

namespace Shows

variable {bound higher : Int} {rev next : Revision} {entry : KeyIndexEntry}

theorem mono (shows_ : Shows bound rev entry) (le : bound ≤ higher) : Shows higher rev entry := by
  obtain ⟨init, last, earlier, is, ends⟩ := shows_
  exact ⟨init, last, earlier, is, ends.ended,
    fun gen member del was => (ends.deleted gen member del was).trans le, ends.alive,
    ends.created.trans le, ends.revisions⟩

/-- A further write shows instead, whatever its revision. -/
theorem put (shows_ : Shows bound rev entry) (next : Revision) : Shows bound next (entry.put next) := by
  obtain ⟨init, last, earlier, rfl, ends⟩ := shows_
  rw [KeyIndexEntry.put_alive init next ends.alive]
  exact ⟨init, _, earlier ++ [rev], rfl, ends.ended, ends.deleted, ends.alive, ends.created,
    by simp [ends.revisions]⟩

/-- The first write over a well-formed entry. -/
theorem of_put (ok : EntryOk bound entry) (le : bound ≤ higher) (visible : rev.main ≤ higher) :
    Shows higher rev (entry.put rev) := by
  rcases entry.eq_new_or_concat with rfl | ⟨init, last, rfl⟩
  · refine ⟨[], ⟨rev, [rev], none⟩, [], rfl, ?_⟩
    exact ⟨by simp, by simp, rfl, visible, rfl⟩
  · have ended : ∀ gen ∈ init, gen.deleted.isSome := by simpa using ok.ended
    by_cases dead : last.deleted.isSome
    · rw [KeyIndexEntry.put_dead init rev dead]
      refine ⟨init ++ [last], ⟨rev, [rev], none⟩, [], rfl, ?_, ?_, rfl, visible, rfl⟩
      · intro gen member
        rcases List.mem_append.mp member with old | new
        · exact ended gen old
        · rw [List.mem_singleton.mp new]
          exact dead
      · intro gen member del is
        exact (ok.deleted gen member del is).trans le
    · have alive : last.deleted = none := by simpa using dead
      rw [KeyIndexEntry.put_alive init rev alive]
      refine ⟨init, _, last.revisions, rfl, ended, ?_, alive, ?_, rfl⟩
      · intro gen member del is
        exact (ok.deleted gen (List.mem_append_left _ member) del is).trans le
      · exact (ok.created last (by simp)).trans le

/-- **Such an entry answers `rev`** from the bound on. -/
theorem revisionAt (shows_ : Shows bound rev entry) {r : Int} (above : bound ≤ r)
    (visible : rev.main ≤ r) : entry.revisionAt r = some rev := by
  obtain ⟨init, last, earlier, rfl, ends⟩ := shows_
  have alive : last.aliveAt r = true := by
    have created := ends.created
    simp only [Generation.aliveAt, ends.alive, Option.all_none, Bool.and_true, decide_eq_true_eq]
    omega
  rw [KeyIndexEntry.revisionAt_concat,
    KeyIndexEntry.find_ended ends.ended ends.deleted above, alive]
  simp [Generation.lastUpTo, ends.revisions, visible]

end Shows

/-! ### The revisions -/

namespace PutRace

variable {s₀ : MvccStore} {key : Bytes} {st st' : PutRace} {i : Nat}

/-- No `put` has crashed. -/
def NoCrash (st : PutRace) : Prop := ∀ p ∈ st.puts, p.stage ≠ .crashed

/-- A crashed `put` stays where it is. -/
theorem noCrash_of_step (moves : step st i = some st') (fine : st'.NoCrash) : st.NoCrash := by
  obtain ⟨args, stage, stage', store', found, calls, rfl⟩ := step_cases moves
  intro p member crashed
  obtain ⟨j, here⟩ := List.mem_iff_getElem?.mp member
  by_cases same : j = i
  · subst same
    rw [found] at here
    cases here
    simp only at crashed
    subst crashed
    cases calls
  · refine fine p (List.mem_iff_getElem?.mpr ⟨j, ?_⟩) crashed
    rw [List.getElem?_set_ne fun is => same is.symm]
    exact here

/-- The revisions of the `put`s: new ones, all different, the last one allocated being the counter. -/
structure Allocated (s₀ : MvccStore) (key : Bytes) (st : PutRace) : Prop
    extends Writers.Numbered s₀.currentRevision st.toWriters where
  keys : ∀ p ∈ st.puts, p.args.key = key
  nobody : st.order.allocatedLast = none → ∀ p ∈ st.puts, p.stage.revision = none
  last : ∀ i, st.order.allocatedLast = some i →
    ∃ p, st.puts[i]? = some p ∧ p.stage.revision = some st.store.currentRevision

theorem note_allocatedLast (order : CallOrder) (puts : List PutCall) (i : Nat) {stage : PutStage}
    (other : stage ≠ .allocate) : (order.note puts i stage).allocatedLast = order.allocatedLast := by
  cases stage with
  | allocate => exact absurd rfl other
  | _ => rfl

theorem Allocated.step (ok : Allocated s₀ key st)
    (moves : step st i = some st') (fine : st'.NoCrash) : Allocated s₀ key st' := by
  obtain ⟨args, stage, stage', store', found, calls, rfl⟩ := step_cases moves
  have mine := List.mem_of_getElem? found
  have sound : stage' ≠ .crashed :=
    fine ⟨args, stage'⟩ (List.mem_of_getElem? (getElem?_set_here found))
  have counter := calls.counter
  refine ⟨ok.toNumbered.step found calls, fun p member => ?_, fun none p member => ?_,
    fun j is => ?_⟩
  · rcases List.mem_or_eq_of_mem_set member with old | rfl
    · exact ok.keys p old
    · exact ok.keys ⟨args, stage⟩ mine
  · rcases counter with ⟨rfl, rfl, _, _⟩ | ⟨other, _⟩
    · cases none
    · simp only [note_allocatedLast _ _ _ other] at none
      rcases List.mem_or_eq_of_mem_set member with old | rfl
      · exact ok.nobody none p old
      · have quiet := ok.nobody none _ mine
        cases has : stage'.revision with
        | none => rfl
        | some r =>
          rcases calls.revision_cases has with old | ⟨is, _⟩
          · rw [quiet] at old
            cases old
          · exact absurd is other
  · rcases counter with ⟨rfl, rfl, is', _⟩ | ⟨other, is'⟩
    · cases is
      exact ⟨_, getElem?_set_here found, congrArg some is'.symm⟩
    · simp only [note_allocatedLast _ _ _ other] at is
      obtain ⟨p, here, has⟩ := ok.last j is
      by_cases same : j = i
      · subst same
        rw [found] at here
        cases here
        refine ⟨_, getElem?_set_here found, ?_⟩
        simp only [is']
        exact calls.revision_keeps sound has
      · refine ⟨p, ?_, by simp only [is']; exact has⟩
        rw [List.getElem?_set_ne fun is => same is.symm]
        exact here

/-! ### The trees -/

/-- A record that is read back from the `kv` tree. -/
theorem readRecord_encode {kv : KeyValue} (key : Bytes) (created : IsI64 kv.createRevision)
    (modified : IsI64 kv.modRevision) (version : IsI64 kv.version) :
    ∃ read, readRecord key (some kv.encode) = .ok (some read) ∧
      read.createRevision = kv.createRevision ∧ read.modRevision = kv.modRevision ∧
      read.version = kv.version := by
  obtain ⟨read, decoded, fields⟩ := KeyValue.decode_encode_header created modified version key
  exact ⟨read, by simp only [readRecord, decoded], fields⟩

/-- The creation of a new record is its own revision or the creation of the previous one. -/
theorem newRecord_created {value : Bytes} {lease newRevision version bound : Int}
    {prevKv : Option KeyValue} (low : 1 ≤ newRevision) (high : newRevision ≤ bound)
    (previous : ∀ prev, prevKv = some prev →
      1 ≤ prev.createRevision ∧ prev.createRevision ≤ bound) :
    1 ≤ (newRecord key value lease newRevision version prevKv).createRevision ∧
      (newRecord key value lease newRevision version prevKv).createRevision ≤ bound := by
  unfold newRecord
  cases prevKv with
  | none => simp [low, high]
  | some prev =>
    simp only [Option.map_some, Option.getD_some]
    split_ifs
    · exact ⟨low, high⟩
    · exact previous prev rfl

/-- The `kv` tree holds the record that was stored last, `kv_rev` those of all. -/
structure Stored (s₀ : MvccStore) (key : Bytes) (st : PutRace) : Prop where
  fields : ∀ p ∈ st.puts, ∀ kv, p.stage.record = some kv →
    (1 ≤ kv.createRevision ∧ kv.createRevision ≤ st.store.currentRevision) ∧
      1 ≤ kv.version ∧ kv.version < 2 ^ 63
  untouched : st.order.storedLast = none →
    st.store.backend.get .kv key = s₀.backend.get .kv key ∧ ∀ p ∈ st.puts, p.stage.storedKv = false
  last : ∀ i, st.order.storedLast = some i → ∃ p kv, st.puts[i]? = some p ∧
    p.stage.storedKv = true ∧ p.stage.record = some kv ∧
    st.store.backend.get .kv key = some kv.encode
  history : ∀ p ∈ st.puts, p.stage.storedRev = true → ∀ kv, p.stage.record = some kv →
    st.store.backend.get .kvRev (revKey kv.modRevision key) = some kv.encodeWithKey

theorem note_storedLast (order : CallOrder) (puts : List PutCall) (i : Nat) {stage : PutStage}
    (other : ∀ kv prevKv, stage ≠ .storeKv kv prevKv) :
    (order.note puts i stage).storedLast = order.storedLast := by
  cases stage with
  | storeKv kv prevKv => exact absurd rfl (other kv prevKv)
  | _ => rfl

namespace Stored

/-- The record of a `put` survives its way through the `kv` tree. -/
theorem read_back (sound : Sound s₀) (allocated : Allocated s₀ key st) (ok : Stored s₀ key st)
    {p : PutCall} (member : p ∈ st.puts) {kv : KeyValue} (has : p.stage.record = some kv) :
    ∃ read, readRecord key (some kv.encode) = .ok (some read) ∧
      read.createRevision = kv.createRevision ∧ read.modRevision = kv.modRevision ∧
      read.version = kv.version := by
  have positive := sound.positive
  have fits := allocated.fits
  have revision := allocated.revisions p member _ (PutStage.revision_of_record has)
  obtain ⟨created, version⟩ := ok.fields p member kv has
  exact readRecord_encode key ⟨by omega, by omega⟩ ⟨by omega, by omega⟩ ⟨by omega, by omega⟩

/-- What a `put` finds in the `kv` tree is in range. -/
theorem read_range (sound : Sound s₀) (allocated : Allocated s₀ key st) (ok : Stored s₀ key st)
    {prev : KeyValue} (read : readRecord key (st.store.backend.get .kv key) = .ok (some prev)) :
    (1 ≤ prev.createRevision ∧ prev.createRevision ≤ st.store.currentRevision) ∧ 1 ≤ prev.version := by
  have grown := allocated.grown
  cases latest : st.order.storedLast with
  | none =>
    rw [(ok.untouched latest).1] at read
    obtain ⟨data, found, decoded⟩ := decode_of_readRecord read
    obtain ⟨created, _, version⟩ := sound.records key data prev found decoded
    omega
  | some i =>
    obtain ⟨p, kv, here, _, has, tree⟩ := ok.last i latest
    have member := List.mem_of_getElem? here
    obtain ⟨back, reads, created, _, version⟩ := read_back sound allocated ok member has
    rw [tree, reads] at read
    cases read
    have := ok.fields p member kv has
    omega

theorem step (sound : Sound s₀) (allocated : Allocated s₀ key st) (ok : Stored s₀ key st)
    (moves : step st i = some st') : Stored s₀ key st' := by
  obtain ⟨args, stage, stage', store', found, calls, rfl⟩ := step_cases moves
  have mine := List.mem_of_getElem? found
  have named : args.key = key := allocated.keys ⟨args, stage⟩ mine
  have positive := sound.positive
  have grows := calls.counter_le
  refine ⟨fun p member kv has => ?_, fun none => ?_, fun j is => ?_,
    fun p member stored kv has => ?_⟩
  · simp only
    rcases List.mem_or_eq_of_mem_set member with old | rfl
    · have := ok.fields p old kv has
      omega
    · rcases calls.record_cases has with old | ⟨newRevision, version, prevKv, rfl, rfl, rfl, read, versioned⟩
      · have := ok.fields _ mine kv old
        omega
      · have revision := allocated.revisions _ mine newRevision rfl
        obtain ⟨counts, bounded⟩ := PutStage.version_eq versioned
        rw [named] at read
        refine ⟨newRecord_created (by omega) (by omega) fun prev is => ?_, ?_, bounded⟩
        · subst is
          have := (read_range sound allocated ok read).1
          omega
        · show 1 ≤ version
          cases prevKv with
          | none =>
            rw [counts]
            rfl
          | some prev =>
            have := (read_range sound allocated ok read).2
            simp only [Option.map_some, Option.getD_some] at counts
            omega
  · rcases calls.kv_cases with ⟨kv, prevKv, rfl, rfl, _⟩ | ⟨same, tree⟩
    · cases none
    · have other : ∀ kv prevKv, stage ≠ .storeKv kv prevKv := by
        rintro kv prevKv rfl
        cases none
      rw [note_storedLast _ _ _ other] at none
      obtain ⟨before, nobody⟩ := ok.untouched none
      refine ⟨(tree key).trans before, fun p member => ?_⟩
      rcases List.mem_or_eq_of_mem_set member with old | rfl
      · exact nobody p old
      · exact same.trans (nobody _ mine)
  · rcases calls.kv_cases with ⟨kv, prevKv, rfl, rfl, tree⟩ | ⟨same, tree⟩
    · cases is
      exact ⟨_, kv, getElem?_set_here found, rfl, rfl, by simp only [tree, named, if_true]⟩
    · have other : ∀ kv prevKv, stage ≠ .storeKv kv prevKv := by
        rintro kv prevKv rfl
        cases calls
        cases same
      simp only [note_storedLast _ _ _ other] at is
      obtain ⟨p, kv, here, stored, has, before⟩ := ok.last j is
      by_cases equal : j = i
      · subst equal
        rw [found] at here
        cases here
        exact ⟨_, kv, getElem?_set_here found, same.trans stored, calls.record_keeps has,
          (tree key).trans before⟩
      · refine ⟨p, kv, ?_, stored, has, (tree key).trans before⟩
        simp only [List.getElem?_set_ne fun is => equal is.symm]
        exact here
  · obtain ⟨j, here⟩ := List.mem_iff_getElem?.mp member
    rcases calls.kvRev_cases with ⟨own, prevKv, rfl, rfl, tree⟩ | ⟨same, tree⟩
    · simp only [tree, named]
      rcases getElem?_set_cases here with ⟨rfl, rfl⟩ | ⟨apart, old⟩
      · cases has
        rw [if_pos rfl]
      · have revision := allocated.revisions p (List.mem_of_getElem? old) _
          (PutStage.revision_of_record has)
        have revision' := allocated.revisions _ mine own.modRevision rfl
        have fits := allocated.fits
        rw [if_neg, ok.history p (List.mem_of_getElem? old) stored kv has]
        intro equal
        have both := (revKey_injective ⟨by omega, by omega⟩ ⟨by omega, by omega⟩ equal).1
        refine apart (allocated.distinct _ _ _ _ own.modRevision old found ?_ rfl)
        rw [PutStage.revision_of_record has, both]
    · simp only [tree]
      rcases List.mem_or_eq_of_mem_set member with old | rfl
      · exact ok.history p old stored kv has
      · rw [same] at stored
        obtain ⟨own, prepared⟩ :=
          PutStage.record_of_storedKv (PutStage.storedKv_of_storedRev stored)
        have keeps := calls.record_keeps prepared
        simp only [keeps] at has
        cases has
        exact ok.history _ mine stored _ prepared

end Stored

/-! ### The index -/

/-- The index shows the `put` that was indexed last. -/
structure Indexed (key : Bytes) (st : PutRace) : Prop where
  untouched : st.order.indexedLast = none →
    EntryOk st.store.currentRevision ((st.store.keyIndex.tree.get? key).getD .new) ∧
      ∀ p ∈ st.puts, p.stage.done = false
  last : ∀ i, st.order.indexedLast = some i → ∃ p kv, st.puts[i]? = some p ∧
    p.stage.done = true ∧ p.stage.record = some kv ∧
    Shows st.store.currentRevision ⟨kv.modRevision, 0⟩ ((st.store.keyIndex.tree.get? key).getD .new)

theorem note_indexedLast (order : CallOrder) (puts : List PutCall) (i : Nat) {stage : PutStage}
    (other : ∀ kv prevKv, stage ≠ .storeIndex kv prevKv) :
    (order.note puts i stage).indexedLast = order.indexedLast := by
  cases stage with
  | storeIndex kv prevKv => exact absurd rfl (other kv prevKv)
  | _ => rfl

theorem Indexed.step (allocated : Allocated s₀ key st) (ok : Indexed key st)
    (moves : step st i = some st') : Indexed key st' := by
  obtain ⟨args, stage, stage', store', found, calls, rfl⟩ := step_cases moves
  have mine := List.mem_of_getElem? found
  have named : args.key = key := allocated.keys ⟨args, stage⟩ mine
  have grows := calls.counter_le
  refine ⟨fun none => ?_, fun j is => ?_⟩
  · rcases calls.index_cases with ⟨kv, prevKv, rfl, rfl, _⟩ | ⟨same, index⟩
    · cases none
    · have other : ∀ kv prevKv, stage ≠ .storeIndex kv prevKv := by
        rintro kv prevKv rfl
        cases none
      rw [note_indexedLast _ _ _ other] at none
      obtain ⟨entryOk, nobody⟩ := ok.untouched none
      simp only [index]
      refine ⟨entryOk.mono grows, fun p member => ?_⟩
      rcases List.mem_or_eq_of_mem_set member with old | rfl
      · exact nobody p old
      · exact same.trans (nobody _ mine)
  · rcases calls.index_cases with ⟨kv, prevKv, rfl, rfl, index⟩ | ⟨same, index⟩
    · cases is
      refine ⟨_, kv, getElem?_set_here found, rfl, rfl, ?_⟩
      have visible := (allocated.revisions _ mine kv.modRevision rfl).2
      simp only [index, KeyIndex.put, OrdMap.get?_insert, named, if_true, Option.getD_some]
      cases latest : st.order.indexedLast with
      | none => exact Shows.of_put (ok.untouched latest).1 grows (visible.trans grows)
      | some k =>
        obtain ⟨_, _, _, _, _, before⟩ := ok.last k latest
        exact (before.mono grows).put _
    · have other : ∀ kv prevKv, stage ≠ .storeIndex kv prevKv := by
        rintro kv prevKv rfl
        cases calls
        cases same
      simp only [note_indexedLast _ _ _ other] at is
      obtain ⟨p, kv, here, done, has, before⟩ := ok.last j is
      simp only [index]
      by_cases equal : j = i
      · subst equal
        rw [found] at here
        cases here
        exact ⟨_, kv, getElem?_set_here found, same.trans done, calls.record_keeps has,
          before.mono grows⟩
      · refine ⟨p, kv, ?_, done, has, before.mono grows⟩
        rw [List.getElem?_set_ne fun is => equal is.symm]
        exact here

/-! ### The versions -/

/-- The version as a shared counter, and the `put`s as its members. -/
def counter (key : Bytes) (st : PutRace) : SharedCounter where
  value := versionOf st.store key
  members := st.puts.map fun p => p.stage.increment
  overlapped := st.order.overlapped

theorem versionOf_congr {s s' : MvccStore}
    (same : s'.backend.get .kv key = s.backend.get .kv key) : versionOf s' key = versionOf s key := by
  unfold versionOf
  rw [same]

/-- **A `put` race is a race of increments**: a call reads the version, writes it, or leaves the
counter alone. -/
theorem counter_step (sound : Sound s₀) (allocated : Allocated s₀ key st) (stored : Stored s₀ key st)
    (moves : step st i = some st') (fine : st'.NoCrash) :
    st'.counter key = st.counter key ∨ (st.counter key).Step (st'.counter key) := by
  obtain ⟨args, stage, stage', store', found, calls, rfl⟩ := step_cases moves
  have mine := List.mem_of_getElem? found
  have named : args.key = key := allocated.keys ⟨args, stage⟩ mine
  have here : (st.counter key).members[i]? = some stage.increment := by
    simp only [counter, List.getElem?_map, found, Option.map_some]
  -- a call that neither reads nor writes the record
  have stutter : stage'.increment = stage.increment →
      (st.order.note st.puts i stage).overlapped = st.order.overlapped →
      versionOf store' key = versionOf st.store key →
      counter key ⟨⟨store', st.puts.set i ⟨args, stage'⟩⟩, st.order.note st.puts i stage⟩ =
        st.counter key := by
    intro same order version
    simp only [counter, List.map_set, same, order, version]
    exact congrArg (fun members => SharedCounter.mk _ members _) (set_same here)
  cases calls with
  | readIndex => exact Or.inl (stutter rfl rfl rfl)
  | allocate room => exact Or.inl (stutter rfl rfl rfl)
  | unreadable newRevision crashes =>
    exact absurd rfl (fine ⟨args, .crashed⟩ (List.mem_of_getElem? (getElem?_set_here found)))
  | readPrevious newRevision version prevKv read versioned =>
    refine Or.inr ?_
    have next : version = versionOf st.store key + 1 := by
      rw [named] at read
      unfold versionOf
      rw [read]
      exact (PutStage.version_eq versioned).1
    have steps := SharedCounter.Step.read i here
    have held : (st.counter key).members.any Increment.isHolding =
        st.puts.any fun p => p.stage.pending := by
      simp only [counter, List.any_map]
      congr 1
      funext p
      simp only [Function.comp_apply]
      cases p.stage <;> rfl
    rw [held] at steps
    simp only [counter, List.map_set]
    simp only [counter] at steps
    rw [← next] at steps
    exact steps
  | storeKv kv prevKv =>
    refine Or.inr ?_
    obtain ⟨back, reads, _, _, version⟩ := Stored.read_back sound allocated stored mine
      (show (PutStage.storeKv kv prevKv).record = some kv from rfl)
    have written : versionOf { st.store with backend := st.store.backend.put .kv args.key kv.encode }
        key = kv.version := by
      unfold versionOf
      simp only [Backend.get_put, named, true_and, if_true, reads, Option.map_some, Option.getD_some,
        version]
    have steps := SharedCounter.Step.write i kv.version here
    simp only [counter, List.map_set]
    simp only [counter] at steps
    rw [written]
    exact steps
  | storeRev kv prevKv =>
    refine Or.inl (stutter rfl rfl (versionOf_congr ?_))
    simp only [Backend.get_put, reduceCtorEq, false_and, if_false]
  | storeIndex kv prevKv => exact Or.inl (stutter rfl rfl rfl)

/-! ### Whole runs -/

/-- What holds of the `put`s of one key. -/
structure Inv (s₀ : MvccStore) (key : Bytes) (n : Nat) (st : PutRace) : Prop where
  length : st.puts.length = n
  allocated : Allocated s₀ key st
  stored : Stored s₀ key st
  indexed : Indexed key st
  accounted : (st.counter key).Accounted (versionOf s₀ key)

variable {n : Nat}

theorem Inv.start (sound : Sound s₀) (key : Bytes) (requests : List (Bytes × Int)) :
    Inv s₀ key requests.length (PutRace.start s₀ key requests) := by
  have begun : ∀ p ∈ (PutRace.start s₀ key requests).puts,
      p.args.key = key ∧ p.stage = .readIndex := by
    intro p member
    simp only [PutRace.start, Writers.start, List.map_map, List.mem_map, Function.comp_apply] at member
    obtain ⟨request, _, rfl⟩ := member
    exact ⟨rfl, rfl⟩
  refine ⟨by simp [PutRace.start, Writers.start], ?_, ?_, ?_, ?_⟩
  · refine ⟨Writers.Numbered.start rfl sound.fits _, fun p member => (begun p member).1,
      fun _ p member => ?_, fun i is => (by cases is)⟩
    rw [(begun p member).2]
    rfl
  · refine ⟨fun p member kv has => ?_, fun _ => ⟨rfl, fun p member => ?_⟩, fun i is => (by cases is),
      fun p member stored => ?_⟩
    · rw [(begun p member).2] at has
      cases has
    · rw [(begun p member).2]
      rfl
    · rw [(begun p member).2] at stored
      cases stored
  · refine ⟨fun _ => ⟨sound.indexOk.getD key, fun p member => ?_⟩, fun i is => (by cases is)⟩
    rw [(begun p member).2]
    rfl
  · refine SharedCounter.Accounted.start _ fun m member => ?_
    obtain ⟨p, listed, rfl⟩ := List.mem_map.mp member
    rw [(begun p listed).2]
    rfl

theorem Inv.step (sound : Sound s₀) (inv : Inv s₀ key n st) (moves : PutRace.step st i = some st')
    (fine : st'.NoCrash) : Inv s₀ key n st' := by
  refine ⟨?_, inv.allocated.step moves fine, Stored.step sound inv.allocated inv.stored moves,
    inv.indexed.step inv.allocated moves, ?_⟩
  · obtain ⟨args, stage, stage', store', found, calls, rfl⟩ := step_cases moves
    simp only [List.length_set]
    exact inv.length
  · rcases counter_step sound inv.allocated inv.stored moves fine with same | steps
    · rw [same]
      exact inv.accounted
    · exact inv.accounted.step steps

theorem Inv.run (sound : Sound s₀) {requests : List (Bytes × Int)} {schedule : List Nat}
    (runs : runFrom PutRace.step (PutRace.start s₀ key requests) schedule = some st) (fine : st.NoCrash) :
    Inv s₀ key requests.length st := by
  have keeps : ∀ (s : PutRace) (action : Nat) (next : PutRace), PutRace.step s action = some next →
      (s.NoCrash → Inv s₀ key requests.length s) → next.NoCrash → Inv s₀ key requests.length next :=
    fun s action next moves before fine => (before (noCrash_of_step moves fine)).step sound moves fine
  have always : (fun st : PutRace => st.NoCrash → Inv s₀ key requests.length st) st :=
    run_always keeps (fun _ => Inv.start sound key requests) runs
  exact always fine

/-! ### What the calls leave -/

/-- The `put` that a mark names is the one that allocated last exactly if its revision is the
counter. -/
theorem mark_iff (allocated : Allocated s₀ key st) {a b : Nat} {p q : PutCall} {r : Int}
    (last : st.puts[a]? = some p) (newest : p.stage.revision = some st.store.currentRevision)
    (marked : st.puts[b]? = some q) (has : q.stage.revision = some r) :
    r = st.store.currentRevision ↔ some b = some a := by
  constructor
  · rintro rfl
    rw [allocated.distinct _ _ _ _ _ marked last has newest]
  · intro same
    cases same
    rw [last] at marked
    cases marked
    rw [newest] at has
    exact (Option.some.inj has).symm

/-- A `put` that has returned has written its version. -/
theorem increment_of_done {stage : PutStage} (done : stage.done = true) :
    ∃ version, stage.increment = .written version := by
  cases stage <;> cases done
  exact ⟨_, rfl⟩

/-- The `kv_rev` record of a `put` shows its version. -/
theorem historyVersion_eq (sound : Sound s₀) (inv : Inv s₀ key n st) {p : PutCall}
    (member : p ∈ st.puts) (returned : p.stage.done = true) :
    historyVersion st.store key p = p.stage.increment.value := by
  have positive := sound.positive
  have copied := PutStage.storedRev_of_done returned
  obtain ⟨kv, has⟩ := PutStage.record_of_storedKv (PutStage.storedKv_of_storedRev copied)
  have increment : p.stage.increment.value = some kv.version := by
    cases stage : p.stage <;> rw [stage] at has returned <;> cases returned
    cases has
    rfl
  obtain ⟨_, low, high⟩ := inv.stored.fields p member kv has
  have field : i64OfLe (slice kv.encodeWithKey 16 24) = kv.version := by
    have version : IsI64 kv.version := ⟨by omega, high⟩
    rw [KeyValue.encodeWithKey, (kv.slice_encodeHeader _).2.2.1, i64OfLe_i64ToLe version]
  rw [historyVersion, PutStage.revision_of_record has, Option.bind_some,
    inv.stored.history p member copied kv has, Option.map_some, field, increment]

/-- Without an overlap the versions differ. -/
theorem history_nodup (sound : Sound s₀) (inv : Inv s₀ key n st)
    (returned : ∀ p ∈ st.puts, p.stage.done = true) (serial : st.order.overlapped = false) :
    (st.puts.map (historyVersion st.store key)).Nodup := by
  have apart := inv.accounted.apart serial
  have same : st.puts.map (historyVersion st.store key) =
      (st.counter key).members.map Increment.value := by
    simp only [counter, List.map_map]
    exact List.map_congr_left fun p member => historyVersion_eq sound inv member (returned p member)
  rw [same, List.Nodup, List.pairwise_iff_getElem]
  intro i j boundI boundJ less equal
  rw [List.getElem_map, List.getElem_map] at equal
  rw [List.length_map] at boundI boundJ
  have some_ : ∃ v, ((st.counter key).members[i]).value = some v := by
    obtain ⟨p, listed, is⟩ := List.mem_map.mp (List.getElem_mem boundI)
    obtain ⟨version, written⟩ := increment_of_done (returned p listed)
    rw [← is, written]
    exact ⟨_, rfl⟩
  obtain ⟨v, is⟩ := some_
  have atI := List.getElem?_eq_getElem boundI
  have atJ := List.getElem?_eq_getElem boundJ
  have both := apart.differ i j _ _ v atI atJ is (equal ▸ is)
  omega

/-- Once a `put` has returned, some `put` allocated last, some stored last and some indexed last. -/
theorem Inv.exists_lasts (inv : Inv s₀ key n st) {p : PutCall} (member : p ∈ st.puts)
    (done : p.stage.done = true) :
    ∃ a b c, st.order.allocatedLast = some a ∧ st.order.storedLast = some b ∧
      st.order.indexedLast = some c := by
  have stored := PutStage.storedKv_of_storedRev (PutStage.storedRev_of_done done)
  obtain ⟨a, isA⟩ : ∃ a, st.order.allocatedLast = some a := by
    refine Option.ne_none_iff_exists'.mp fun none => ?_
    have nothing := inv.allocated.nobody none p member
    obtain ⟨kv, has⟩ := PutStage.record_of_storedKv stored
    rw [PutStage.revision_of_record has] at nothing
    cases nothing
  obtain ⟨b, isB⟩ : ∃ b, st.order.storedLast = some b := by
    refine Option.ne_none_iff_exists'.mp fun none => ?_
    rw [(inv.stored.untouched none).2 p member] at stored
    cases stored
  obtain ⟨c, isC⟩ : ∃ c, st.order.indexedLast = some c := by
    refine Option.ne_none_iff_exists'.mp fun none => ?_
    rw [(inv.indexed.untouched none).2 p member] at done
    cases done
  exact ⟨a, b, c, isA, isB, isC⟩

/-- The version counts all `put`s exactly if no two of them overlapped. -/
theorem Inv.version_iff (inv : Inv s₀ key n st) (returned : ∀ p ∈ st.puts, p.stage.done = true) :
    versionOf st.store key = versionOf s₀ key + st.puts.length ↔ st.order.overlapped = false := by
  have all : ∀ m ∈ (st.counter key).members, m.isWritten = true := by
    intro m listed
    obtain ⟨p, member, rfl⟩ := List.mem_map.mp listed
    obtain ⟨version, written⟩ := increment_of_done (returned p member)
    rw [written]
    rfl
  simpa only [counter, List.length_map] using inv.accounted.value_iff all

/-- **Concurrent `put`s of one key.** Over every reached store, for every interleaving of any number
of `put`s of one key that all return: they lose nothing if and only if no two of them overlapped
between their read and their write, and the one that allocated last stored its record last and
entered the index last. -/
theorem nothing_lost_iff (s₀ : MvccStore) (reached : Reached s₀) (key : Bytes)
    (requests : List (Bytes × Int)) (some_ : requests ≠ []) (schedule : List Nat) (st : PutRace)
    (runs : runFrom step (start s₀ key requests) schedule = some st)
    (returned : ∀ p ∈ st.puts, p.stage.done = true) :
    NothingLost s₀ key st ↔ st.order.Serial := by
  have sound := Sound.of_reached reached
  have fine : st.NoCrash := by
    intro p member crashed
    have done := returned p member
    rw [crashed] at done
    cases done
  have inv := Inv.run sound runs fine
  have fits := inv.allocated.fits
  obtain ⟨first, member⟩ : ∃ p, p ∈ st.puts := by
    refine List.exists_mem_of_ne_nil _ fun empty => some_ ?_
    have length := inv.length
    rw [empty] at length
    exact List.length_eq_zero_iff.mp length.symm
  obtain ⟨a, b, c, isA, isB, isC⟩ := inv.exists_lasts member (returned first member)
  obtain ⟨p, atA, newest⟩ := inv.allocated.last a isA
  obtain ⟨q, kvB, atB, _, hasB, tree⟩ := inv.stored.last b isB
  obtain ⟨o, kvC, atC, _, hasC, shows_⟩ := inv.indexed.last c isC
  have greatest : IsGreatest { r | ∃ p ∈ st.puts, p.stage.revision = some r }
      st.store.currentRevision := by
    refine ⟨⟨p, List.mem_of_getElem? atA, newest⟩, ?_⟩
    rintro r ⟨p', listed, has⟩
    exact (inv.allocated.revisions p' listed r has).2
  obtain ⟨read, reads, _, modified, version⟩ :=
    Stored.read_back sound inv.allocated inv.stored (List.mem_of_getElem? atB) hasB
  rw [← tree] at reads
  have index : st.store.keyIndex.get key st.store.currentRevision = some ⟨kvC.modRevision, 0⟩ := by
    rw [KeyIndex.get_eq_getD]
    exact shows_.revisionAt le_rfl (inv.allocated.revisions _ (List.mem_of_getElem? atC) _
      (PutStage.revision_of_record hasC)).2
  -- the four parts, each against the order of the calls
  have modIff := mark_iff inv.allocated atA newest atB (PutStage.revision_of_record hasB)
  have indexIff := mark_iff inv.allocated atA newest atC (PutStage.revision_of_record hasC)
  have shown : versionOf st.store key = read.version := by
    simp only [versionOf, reads, Option.map_some, Option.getD_some]
  have versionIff := inv.version_iff returned
  rw [shown] at versionIff
  rw [CallOrder.Serial, isA, isB, isC]
  constructor
  · rintro ⟨m, isM, ⟨kv, readsM, modM, versionM⟩, _, _, indexM⟩
    have newestM : m = st.store.currentRevision := isM.unique greatest
    rw [reads] at readsM
    cases readsM
    rw [index] at indexM
    cases indexM
    exact ⟨versionIff.mp versionM, modIff.mp (by rw [← modified, modM, newestM]),
      indexIff.mp newestM⟩
  · rintro ⟨serial, sameB, sameC⟩
    refine ⟨st.store.currentRevision, greatest, ⟨read, reads, ?_, versionIff.mpr serial⟩,
      fun p' listed => ?_, history_nodup sound inv returned serial, ?_⟩
    · rw [modified]
      exact modIff.mpr sameB
    · obtain ⟨written, is⟩ := increment_of_done (returned p' listed)
      rw [historyVersion_eq sound inv listed (returned p' listed), is]
      rfl
    · rw [index, indexIff.mpr sameC]

/-- Two `put`s that both read before either of them writes. -/
def readTwice : List Nat := [0, 0, 1, 1, 0, 1, 0, 0, 0, 1, 1, 1]

/-- Both write version 1: one of the two is lost. -/
theorem readTwice_loses :
    ∃ st, runFrom step (start (MvccStore.new .empty) [97] [([49], 0), ([50], 0)]) readTwice = some st ∧
      (∀ p ∈ st.puts, p.stage.done = true) ∧ versionOf st.store [97] = 1 ∧
      ¬ NothingLost (MvccStore.new .empty) [97] st := by
  refine ⟨_, rfl, by decide, by decide, ?_⟩
  rintro ⟨m, _, ⟨kv, reads, _, version⟩, _⟩
  cases reads
  revert version
  decide

/-- Two `put`s one after the other lose nothing. -/
theorem one_after_another_loses_nothing :
    ∃ st, runFrom step (start (MvccStore.new .empty) [97] [([49], 0), ([50], 0)])
        [0, 0, 0, 0, 0, 0, 1, 1, 1, 1, 1, 1] = some st ∧
      versionOf st.store [97] = 2 ∧ NothingLost (MvccStore.new .empty) [97] st := by
  refine ⟨_, rfl, by decide, ?_⟩
  exact (nothing_lost_iff (MvccStore.new .empty) .fresh [97] [([49], 0), ([50], 0)] (by simp)
    [0, 0, 0, 0, 0, 0, 1, 1, 1, 1, 1, 1] _ rfl (by decide)).mpr (by decide)

end PutRace

end Rusd
