/-
**A write whose backend fails** (`storage/mvcc.rs`, `put` and `delete_range`).

A write calls the backend several times before it touches the index, and takes nothing back if one of the calls
fails. `putCalls` and `deleteRangeCalls` are the writes with these calls one by one, any one of which may fail.

* `putCalls_mirrors`, `deleteRangeCalls_mirrors` — if none fails, they are the writes of `Storage.Mvcc`.
* `putCalls_failed`, `deleteRangeCalls_failed` — what a failed write leaves: before its first call that writes,
  the store with the next revision; behind it, a record that was never listed, or a key without its record.
* `skipped_finds_iff` — a revision that was only allocated: it turns the reads at the current revision into
  reads of the past.
* `failed_write_invisible_iff` — when a failed write cannot be seen.
-/

import Rusd.Lib.Faults
import Rusd.Storage.Chronicle
import Rusd.Storage.Reference

namespace Rusd

open MvccStore Faulty

/-! ### The writes, call by call -/

abbrev FaultyM (α : Type) : Type := Exec (Faulty MvccStore) StorageError α

namespace MvccStore

/-- `put`. -/
def putCalls (key value : Bytes) (lease : Int) : FaultyM (Int × KeyValue × Option KeyValue) := do
  let newRevision ← safely nextRevision
  let prevKv ← calling (.mvcc "Backend error") (latestRecord key)
  let version ← safely (nextVersion prevKv)
  let kv := newRecord key value lease newRevision version prevKv
  calling (.mvcc "Backend put failed")
    (Exec.update fun s => { s with backend := s.backend.put .kv key kv.encode })
  calling (.mvcc "Backend kv_rev put failed")
    (Exec.update fun s =>
      { s with backend := s.backend.put .kvRev (revKey newRevision key) kv.encodeWithKey })
  safely (Exec.update fun s => { s with keyIndex := s.keyIndex.put key ⟨newRevision, 0⟩ })
  pure (newRevision, kv, prevKv)

/-- The first loop of `delete_range`: a `get` that fails passes over the key. -/
def collectCalls : List (Bytes × Revision) → FaultyM (List (Bytes × KeyValue))
  | [] => pure []
  | (key, _) :: rest => do
    let kv ← trying none (latestRecord key)
    let others ← collectCalls rest
    pure ((kv.map fun kv => (key, kv)).toList ++ others)

/-- The second loop of `delete_range`. -/
def removeCalls (newRevision : Int) : List Bytes → FaultyM Unit
  | [] => pure ()
  | key :: rest => do
    calling (.mvcc "Backend delete failed")
      (Exec.update fun s => { s with backend := s.backend.delete .kv key })
    calling (.mvcc "Backend kv_rev tombstone failed")
      (Exec.update fun s => { s with
        backend := s.backend.put .kvRev (revKey newRevision key)
          (tombstoneRecord newRevision key).encodeWithKey })
    removeCalls newRevision rest

/-- `delete_range`. -/
def deleteRangeCalls (start stop : Bytes) : FaultyM (Int × List KeyValue) := do
  let newRevision ← safely nextRevision
  let rangeKeys ← safely (indexRange start stop fun s => s.currentRevision)
  let found ← collectCalls rangeKeys
  let keysToDelete := found.map Prod.fst
  removeCalls newRevision keysToDelete
  safely (Exec.update fun s =>
    { s with keyIndex := s.keyIndex.tombstones keysToDelete ⟨newRevision, 0⟩ })
  pure (newRevision, found.map Prod.snd)

end MvccStore

/-- A write, call by call; the value is the revision it allocated. -/
def StoreOp.calls : StoreOp → FaultyM Int
  | .put key value lease => do
    let result ← putCalls key value lease
    pure result.1
  | .deleteRange start stop => do
    let result ← deleteRangeCalls start stop
    pure result.1

/-! ### Without a failure -/

theorem putCalls_mirrors (key value : Bytes) (lease : Int) :
    Mirrors (putCalls key value lease) (MvccStore.put key value lease) := by
  refine .bind (.safely _) fun newRevision => .bind (.calling _ _) fun prevKv => ?_
  refine .bind (.safely _) fun version => .bind (.calling _ _) fun _ => ?_
  exact .bind (.calling _ _) fun _ => .bind (.safely _) fun _ => .pure _

theorem collectCalls_mirrors (keys : List (Bytes × Revision)) :
    Mirrors (collectCalls keys) (collectDeleted keys) := by
  induction keys with
  | nil => exact .pure _
  | cons e rest ih => exact .bind (.trying _ _) fun kv => .bind ih fun others => .pure _

theorem removeCalls_mirrors (newRevision : Int) (keys : List Bytes) :
    Mirrors (removeCalls newRevision keys) (Exec.update fun s =>
      { s with backend := keys.foldl (removeKey newRevision) s.backend }) := by
  induction keys with
  | nil => exact fun _ => rfl
  | cons key rest ih =>
    intro s
    exact ih { s with backend := removeKey newRevision s.backend key }

theorem deleteRangeCalls_mirrors (start stop : Bytes) :
    Mirrors (deleteRangeCalls start stop) (MvccStore.deleteRange start stop) := by
  refine .bind (.safely _) fun newRevision => .bind (.safely _) fun rangeKeys => ?_
  refine .bind (collectCalls_mirrors rangeKeys) fun found => .bind (removeCalls_mirrors _ _) fun _ => ?_
  exact .bind (.safely _) fun _ => .pure _

/-- **If no call fails**, this is the write. -/
theorem StoreOp.calls_mirrors (op : StoreOp) : Mirrors op.calls op.run := by
  cases op with
  | put key value lease => exact .bind (putCalls_mirrors key value lease) fun _ => .pure _
  | deleteRange start stop => exact .bind (deleteRangeCalls_mirrors start stop) fun _ => .pure _

/-! ### What a failed write leaves -/

theorem failed_of_map {α β : Type} {m : FaultyM α} {g : α → β} {f t : Faulty MvccStore}
    {e : StorageError} (failed : (m >>= fun a => pure (g a)).run f = (.err e, t)) : m.run f = (.err e, t) := by
  rcases outcome : m.run f with ⟨a | e' | _, t'⟩
  · rw [Exec.run_bind_ok outcome] at failed
    cases failed
  · rw [Exec.run_bind_err outcome] at failed
    cases failed
    rfl
  · rw [Exec.run_bind_panic outcome] at failed
    cases failed

section Failed

variable {stored live : RefMap} {s s' : MvccStore} {left : Option Nat} {e : StorageError} {n : Nat}
  {key value : Bytes} {lease : Int} {start stop : Bytes}

/-- The store after the next revision was allocated. -/
def MvccStore.skipped (s : MvccStore) : MvccStore := { s with currentRevision := s.currentRevision + 1 }

/-- The store with a record in the `kv` tree only. -/
def MvccStore.halfPut (s : MvccStore) (kv : KeyValue) : MvccStore :=
  { s.skipped with backend := s.backend.put .kv kv.key kv.encode }

/-- What `put` reads and computes before it writes. -/
theorem Listed.put_prepared (listed : Listed stored live s) (room : s.currentRevision + 1 < 2 ^ 63)
    (key value : Bytes) (lease : Int) :
    ∃ prevKv version, (latestRecord key).run s.skipped = (.ok prevKv, s.skipped) ∧
      (nextVersion prevKv).run s.skipped = (.ok version, s.skipped) ∧
      newRecord key value lease (s.currentRevision + 1) version prevKv =
        refRecord stored (s.currentRevision + 1) key value lease := by
  have allocated : nextRevision.run s = (.ok (s.currentRevision + 1), s.skipped) := nextRevision_apply room
  have ran := listed.put_run room key value lease
  rw [MvccStore.put, Exec.run_bind_ok allocated] at ran
  obtain ⟨prevKv, t, read, ran⟩ := Exec.run_bind_eq_ok ran
  obtain rfl : t = s.skipped := by
    rw [latestRecord_run] at read
    exact (congrArg Prod.snd read).symm
  obtain ⟨version, t, counted, ran⟩ := Exec.run_bind_eq_ok ran
  obtain rfl : t = s.skipped := by
    obtain ⟨o, same⟩ := nextVersion_run prevKv s.skipped
    rw [same] at counted
    exact (congrArg Prod.snd counted).symm
  refine ⟨prevKv, version, read, counted, ?_⟩
  have answer := Outcome.ok.inj (congrArg Prod.fst ran)
  exact congrArg (fun result => result.2.1) answer

/-- **A failed `put`**: the read or the first write failed, or the second one. -/
theorem putCalls_failed (listed : Listed stored live s) (room : s.currentRevision + 1 < 2 ^ 63)
    (failed : (putCalls key value lease).run ⟨s, some n⟩ = (.err e, ⟨s', left⟩)) :
    (n ≤ 1 ∧ s' = s.skipped) ∨
      (n = 2 ∧ s' = s.halfPut (refRecord stored (s.currentRevision + 1) key value lease)) := by
  have allocated : nextRevision.run s = (.ok (s.currentRevision + 1), s.skipped) := nextRevision_apply room
  obtain ⟨prevKv, version, read, counted, written⟩ := listed.put_prepared room key value lease
  rw [putCalls, Exec.run_bind_ok (run_safely allocated _)] at failed
  rcases n with _ | _ | _ | n
  · rw [Exec.run_bind_err (run_calling_now _ _ _)] at failed
    cases failed
    exact Or.inl ⟨Nat.zero_le 1, rfl⟩
  · rw [Exec.run_bind_ok (run_calling_later _ read _), Exec.run_bind_ok (run_safely counted _),
      Exec.run_bind_err (run_calling_now _ _ _)] at failed
    cases failed
    exact Or.inl ⟨le_rfl, rfl⟩
  · rw [Exec.run_bind_ok (run_calling_later _ read _), Exec.run_bind_ok (run_safely counted _),
      Exec.run_bind_ok (run_calling_later _ (Exec.run_update _ _) _),
      Exec.run_bind_err (run_calling_now _ _ _), written] at failed
    cases failed
    exact Or.inr ⟨rfl, by rw [halfPut, refRecord_key]; rfl⟩
  · rw [Exec.run_bind_ok (run_calling_later _ read _), Exec.run_bind_ok (run_safely counted _),
      Exec.run_bind_ok (run_calling_later _ (Exec.run_update _ _) _),
      Exec.run_bind_ok (run_calling_later _ (Exec.run_update _ _) _)] at failed
    cases failed

/-- The first loop, over readable records: a failure passes over a key, or lies behind the loop. -/
theorem collectCalls_run {keys : List (Bytes × Revision)} (record : Bytes → KeyValue)
    (readable : ∀ e ∈ keys, ∃ data, s.backend.get .kv e.1 = some data ∧
      KeyValue.decode e.1 data = .ok (record e.1)) (n : Nat) :
    (n < keys.length → ∃ found, (collectCalls keys).run ⟨s, some n⟩ = (.ok found, ⟨s, none⟩)) ∧
      (keys.length ≤ n → (collectCalls keys).run ⟨s, some n⟩ =
        (.ok (keys.map fun e => (e.1, record e.1)), ⟨s, some (n - keys.length)⟩)) := by
  induction keys generalizing n with
  | nil => exact ⟨fun few => absurd few (Nat.not_lt_zero n), fun _ => rfl⟩
  | cons e rest ih =>
    obtain ⟨key, rev⟩ := e
    have later := fun e member => readable e (List.mem_cons_of_mem _ member)
    obtain ⟨data, found, decoded⟩ := readable (key, rev) List.mem_cons_self
    have first : (latestRecord key).run s = (.ok (some (record key)), s) := by
      simp only [latestRecord_run, found, readRecord, decoded]
    cases n with
    | zero =>
      refine ⟨fun _ => ?_, fun none_ => absurd none_ (Nat.not_succ_le_zero _)⟩
      have others := collectCalls_mirrors rest s
      rw [collectDeleted_apply later] at others
      rw [collectCalls, Exec.run_bind_ok (run_trying_now _ _ _), Exec.run_bind_ok others]
      exact ⟨_, rfl⟩
    | succ n =>
      obtain ⟨passes, behind⟩ := ih later n
      rw [collectCalls, Exec.run_bind_ok (run_trying_later _ first _), List.length_cons]
      constructor
      · intro few
        obtain ⟨others, ran⟩ := passes (by omega)
        rw [Exec.run_bind_ok ran]
        exact ⟨_, rfl⟩
      · intro enough
        rw [Exec.run_bind_ok (behind (by omega)), Nat.add_sub_add_right]
        rfl

/-- The key has no record, and the counter is where it was. -/
def Gone (revision : Int) (key : Bytes) (s : MvccStore) : Prop :=
  s.currentRevision = revision ∧ s.backend.get .kv key = none

/-- A tombstone leaves the `kv` tree alone. -/
theorem gone_tombstone (revision : Int) (key : Bytes) (newRevision : Int) (other : Bytes) :
    Exec.Keeps (Gone revision key) (Exec.update fun s => { s with
      backend := s.backend.put .kvRev (revKey newRevision other)
        (tombstoneRecord newRevision other).encodeWithKey } : StoreM Unit) := by
  rintro s ⟨counter, gone⟩
  refine ⟨counter, ?_⟩
  show (s.backend.put .kvRev _ _).get .kv key = none
  rw [Backend.get_put, if_neg (by simp), gone]

/-- Nothing in the second loop writes a record again. -/
theorem removeCalls_gone (revision : Int) (key : Bytes) (newRevision : Int) (keys : List Bytes) :
    Exec.Keeps (fun f : Faulty MvccStore => Gone revision key f.state) (removeCalls newRevision keys) := by
  induction keys with
  | nil => exact .pure ()
  | cons other rest ih =>
    refine .bind (keeps_calling _ (.update fun s gone => ⟨gone.1, ?_⟩)) fun _ =>
      .bind (keeps_calling _ (gone_tombstone revision key newRevision other)) fun _ => ih
    show (s.backend.delete .kv other).get .kv key = none
    rw [Backend.get_delete, gone.2, ite_self]

/-- The second loop: its first call failed, or a key has lost its record. -/
theorem removeCalls_failed {newRevision : Int} {keys : List Bytes}
    (failed : (removeCalls newRevision keys).run ⟨s, some n⟩ = (.err e, ⟨s', left⟩)) :
    (n = 0 ∧ s' = s) ∨ (0 < n ∧ ∃ key ∈ keys, Gone s.currentRevision key s') := by
  cases keys with
  | nil => cases failed
  | cons key rest =>
    cases n with
    | zero =>
      rw [removeCalls, Exec.run_bind_err (run_calling_now _ _ _)] at failed
      cases failed
      exact Or.inl ⟨rfl, rfl⟩
    | succ n =>
      rw [removeCalls, Exec.run_bind_ok (run_calling_later _ (Exec.run_update _ _) _)] at failed
      have keeps := Exec.Keeps.bind (keeps_calling (.mvcc "Backend kv_rev tombstone failed")
        (gone_tombstone s.currentRevision key newRevision key)) fun _ =>
          removeCalls_gone s.currentRevision key newRevision rest
      have after := keeps ⟨{ s with backend := s.backend.delete .kv key }, some n⟩
        ⟨rfl, by rw [Backend.get_delete, if_pos ⟨rfl, rfl⟩]⟩
      rw [failed] at after
      exact Or.inr ⟨Nat.succ_pos n, key, List.mem_cons_self, after⟩

/-- **A failed `delete_range`**: its first deletion failed, or a live key has lost its record. -/
theorem deleteRangeCalls_failed (listed : Listed stored live s) (room : s.currentRevision + 1 < 2 ^ 63)
    (failed : (deleteRangeCalls start stop).run ⟨s, some n⟩ = (.err e, ⟨s', left⟩)) :
    (n = (deletedKeys s start stop).length ∧ s' = s.skipped) ∨
      ((deletedKeys s start stop).length < n ∧
        ∃ key ∈ deletedKeys s start stop, Gone (s.currentRevision + 1) key s') := by
  have allocated : nextRevision.run s = (.ok (s.currentRevision + 1), s.skipped) := nextRevision_apply room
  rw [deleteRangeCalls, Exec.run_bind_ok (run_safely allocated _)] at failed
  have accepts : KeyIndex.Accepts s.skipped.keyIndex.held start stop := by
    by_contra refused
    have panics : (indexRange start stop fun s => s.currentRevision).run s.skipped = (.panic, s.skipped) :=
      indexRange_refused refused
    rw [Exec.run_bind_panic (run_safely panics _)] at failed
    cases failed
  have scanned : (indexRange start stop fun s => s.currentRevision).run s.skipped =
      (.ok (s.keyIndex.keysIn start stop (s.currentRevision + 1)), s.skipped) := indexRange_apply accepts _
  rw [Exec.run_bind_ok (run_safely scanned _)] at failed
  have length : (deletedKeys s start stop).length =
      (s.keyIndex.keysIn start stop (s.currentRevision + 1)).length := List.length_map _
  obtain ⟨passes, behind⟩ := collectCalls_run (s := s.skipped) (fun key => (live.get? key).getD default)
    (listed.readable_deleted start stop) n
  rw [length]
  by_cases few : n < (s.keyIndex.keysIn start stop (s.currentRevision + 1)).length
  · obtain ⟨found, ran⟩ := passes few
    have removed := removeCalls_mirrors (s.currentRevision + 1) (found.map Prod.fst) s.skipped
    rw [Exec.run_bind_ok ran, Exec.run_bind_ok removed] at failed
    cases failed
  · have keys : ((s.keyIndex.keysIn start stop (s.currentRevision + 1)).map
        fun e => (e.1, (live.get? e.1).getD default)).map Prod.fst = deletedKeys s start stop := by
      rw [List.map_map]
      rfl
    rw [Exec.run_bind_ok (behind (not_lt.mp few)), keys] at failed
    rcases ran : (removeCalls (s.currentRevision + 1) (deletedKeys s start stop)).run
      ⟨s.skipped, some (n - (s.keyIndex.keysIn start stop (s.currentRevision + 1)).length)⟩ with
        ⟨value | e' | _, ⟨t, left'⟩⟩
    · rw [Exec.run_bind_ok ran] at failed
      cases failed
    · rw [Exec.run_bind_err ran] at failed
      cases failed
      rcases removeCalls_failed ran with ⟨now, rfl⟩ | ⟨later, key, member, gone⟩
      · exact Or.inl ⟨by omega, rfl⟩
      · exact Or.inr ⟨by omega, key, member, gone⟩
    · rw [Exec.run_bind_panic ran] at failed
      cases failed

end Failed

/-! ### What can be seen of it -/

/-- What a `put` of the key answers: the previous record, and its own version. -/
def putAnswer (s : MvccStore) (key value : Bytes) (lease : Int) :
    Outcome StorageError (Option KeyValue × Int) :=
  ((MvccStore.put key value lease).run s).1.map fun answer => (answer.2.2, answer.2.1.version)

/-- The keys that a call writes. -/
def StoreOp.Writes : StoreOp → Bytes → Prop
  | .put key _ _, k => k = key
  | .deleteRange start stop, k => Bytes.InRange start stop k

/-- **The call on `s` that left `s'` cannot be seen**: no read tells the two apart, and no later `put` of a key
that the call writes. -/
structure Invisible (s s' : MvccStore) (op : StoreOp) : Prop where
  reads : ∀ start stop, KeyIndex.ValidRange start stop → ∀ r,
    s'.range start stop r 0 false = s.range start stop r 0 false
  puts : ∀ key, op.Writes key → ∀ value lease, putAnswer s' key value lease = putAnswer s key value lease

/-- How many calls a write makes before the first one that changes the backend. -/
def StoreOp.reads (s : MvccStore) : StoreOp → Nat
  | .put _ _ _ => 1
  | .deleteRange start stop => (deletedKeys s start stop).length

section Seen

variable {hist : Int → Bytes → Option KeyValue} {stored live : RefMap} {s s' : MvccStore}

theorem Listed.putAnswer_eq (listed : Listed stored live s) (room : s.currentRevision + 1 < 2 ^ 63)
    (key value : Bytes) (lease : Int) :
    putAnswer s key value lease =
      .ok (stored.get? key, (refRecord stored (s.currentRevision + 1) key value lease).version) := by
  rw [putAnswer, listed.put_run room]
  rfl

/-- A `put` over a store whose `kv` tree shows another record. -/
theorem putAnswer_ne (listed : Listed stored live s) (room : s.currentRevision + 2 < 2 ^ 63)
    (counter : s'.currentRevision = s.currentRevision + 1) {key : Bytes} (prevKv : Option KeyValue)
    (other : prevKv ≠ stored.get? key)
    (readable : ∀ data, s'.backend.get .kv key = some data →
      ∃ kv, KeyValue.decode key data = .ok kv ∧ prevKv = some kv ∧ kv.version + 1 < 2 ^ 63)
    (absent : s'.backend.get .kv key = none → prevKv = none) (value : Bytes) (lease : Int) :
    putAnswer s' key value lease ≠ putAnswer s key value lease := by
  have room' : s'.currentRevision + 1 < 2 ^ 63 := by omega
  rw [listed.putAnswer_eq (by omega), putAnswer, put_apply value lease room' readable absent]
  intro same
  exact other (congrArg Prod.fst (Outcome.ok.inj same))

/-- The index finds the same at the next revision. -/
theorem get_skipped (listed : Listed stored live s) (r : Int) (key : Bytes) :
    s.skipped.keyIndex.get key (s.skipped.readRevision r) = s.keyIndex.get key (s.readRevision r) := by
  by_cases latest : r ≤ 0
  · have next : s.skipped.readRevision r = s.currentRevision + 1 := if_pos latest
    have now : s.readRevision r = s.currentRevision := if_pos latest
    rw [next, now, listed.index]
    exact listed.index_above (by omega) key
  · have same : s.skipped.readRevision r = s.readRevision r := by
      rw [readRevision, readRevision, if_neg latest, if_neg latest]
    rw [same]
    rfl

/-- **What a read finds once a revision was only allocated**: at the current revision before, the records that
`kv_rev` still has. -/
theorem skipped_finds (listed : Listed stored live s) (r : Int) (key : Bytes) :
    s.skipped.finds r key = if r = s.currentRevision then
      (s.finds r key).filter fun _ => s.archived key else s.finds r key := by
  have positive := listed.positive
  have counter : s.skipped.currentRevision = s.currentRevision + 1 := rfl
  rw [finds, finds, get_skipped listed]
  split_ifs with now
  · have current : s.isCurrent r = true := by simp [isCurrent, now]
    have past : s.skipped.isCurrent r = false := by
      simp only [isCurrent, counter, Bool.or_eq_false_iff, decide_eq_false_iff_not]
      omega
    have reads : s.readRevision r = s.currentRevision := by
      rw [readRevision, now, ite_self]
    rw [current, past, reads, archived]
    cases found : s.keyIndex.get key s.currentRevision with
    | none => rfl
    | some rev =>
      simp only [Option.filter_some, Bool.true_or, if_true, Bool.false_or, Option.any_some]
      rfl
  · have same : s.skipped.isCurrent r = s.isCurrent r := by
      rw [Bool.eq_iff_iff]
      simp only [isCurrent, counter, Bool.or_eq_true, decide_eq_true_eq]
      omega
    rw [same]
    rfl

/-- **When a revision that was only allocated cannot be seen.** -/
theorem skipped_reads_iff (chronicle : Chronicle hist stored live s) (room : s.currentRevision + 1 < 2 ^ 63) :
    (∀ start stop, KeyIndex.ValidRange start stop → ∀ r,
        s.skipped.range start stop r 0 false = s.range start stop r 0 false) ↔
      ∀ key, s.Live key → s.archived key = true := by
  have listed := chronicle.stocked.listed
  have after : Chronicle hist stored live s.skipped := chronicle.skip room
  have found : ∀ r key, s.skipped.view r key = s.view r key ↔ s.skipped.finds r key = s.finds r key :=
    fun r key => after.view_eq_iff chronicle (.refl hist) (.refl hist) r r key
  have current : ∀ key, s.finds s.currentRevision key = s.keyIndex.get key s.currentRevision := by
    intro key
    have always : s.isCurrent s.currentRevision = true := by simp [isCurrent]
    have reads : s.readRevision s.currentRevision = s.currentRevision := by rw [readRevision, ite_self]
    rw [finds, always, reads]
    cases s.keyIndex.get key s.currentRevision <;> rfl
  constructor
  · intro same key lives
    have valid : KeyIndex.ValidRange key (key ++ [0]) := Or.inr (Bytes.successor_le_iff.mp le_rfl).le
    have read := same key (key ++ [0]) valid s.currentRevision
    rw [after.range (.of_valid valid), chronicle.range (.of_valid valid)] at read
    have listings : s.skipped.listing key (key ++ [0]) s.currentRevision =
        s.listing key (key ++ [0]) s.currentRevision :=
      congrArg RangeResult.kvs (Outcome.ok.inj read)
    have shown := (after.listing_eq_iff chronicle _ _ _ _).mp listings key (Bytes.inRange_single.mpr rfl)
    rw [found, skipped_finds listed, if_pos rfl, current] at shown
    obtain ⟨rev, there⟩ := Option.isSome_iff_exists.mp lives.1
    rw [there, Option.filter_some] at shown
    by_contra lost
    rw [if_neg lost] at shown
    cases shown
  · intro archived start stop valid r
    have views : ∀ key, s.skipped.view r key = s.view r key := by
      intro key
      rw [found, skipped_finds listed]
      split_ifs with now
      · rw [now, current]
        cases there : s.keyIndex.get key s.currentRevision with
        | none => rfl
        | some rev =>
          have lives : s.Live key := by
            rw [listed.live_iff]
            rw [listed.index] at there
            exact Option.isSome_iff_exists.mpr ((Option.map_eq_some_iff.mp there).imp fun _ both => both.1)
          rw [Option.filter_some, if_pos (archived key lives)]
      · rfl
    have keys : s.skipped.keyIndex.keysIn start stop (s.skipped.readRevision r) =
        s.keyIndex.keysIn start stop (s.readRevision r) := by
      refine OrdMap.eq_of_mem_iff Prod.fst (KeyIndex.keysIn_ascending _ start stop _)
        (KeyIndex.keysIn_ascending _ start stop _) fun e => ?_
      obtain ⟨key, rev⟩ := e
      rw [KeyIndex.mem_keysIn, KeyIndex.mem_keysIn, get_skipped listed]
    have listings : s.skipped.listing start stop r = s.listing start stop r :=
      (after.listing_eq_iff chronicle start stop r r).mpr fun key _ => views key
    rw [after.range (.of_valid valid), chronicle.range (.of_valid valid), listings, keys]

/-- A revision that was only allocated is not in the way of a later `put`. -/
theorem putAnswer_skipped (listed : Listed stored live s) (room : s.currentRevision + 2 < 2 ^ 63)
    (key value : Bytes) (lease : Int) :
    putAnswer s.skipped key value lease = putAnswer s key value lease := by
  have after : Listed stored live s.skipped := listed.skip (by omega)
  have counter : s.skipped.currentRevision = s.currentRevision + 1 := rfl
  have version : ∀ revision, (refRecord stored revision key value lease).version =
      (refRecord stored 0 key value lease).version := by
    intro revision
    unfold refRecord
    cases stored.get? key <;> rfl
  rw [after.putAnswer_eq (by omega), listed.putAnswer_eq (by omega), version, version (s.currentRevision + 1)]

/-- A record that was never listed is in the way of the next `put` of its key. -/
theorem putAnswer_halfPut (listed : Listed stored live s) (room : s.currentRevision + 2 < 2 ^ 63)
    {key value : Bytes} {lease : Int} (short : StoreHistory.Short (.put key value lease)) :
    putAnswer (s.halfPut (refRecord stored (s.currentRevision + 1) key value lease)) key value lease ≠
      putAnswer s key value lease := by
  have admissible : (StoreOp.put key value lease).Admissible := by
    obtain ⟨bounded, fits⟩ := short
    exact ⟨by omega, by omega, fits⟩
  have ok := recordOk_refRecord listed.positive (listed.records key) admissible
  have encodable := ok.encodable (by omega)
  have versioned := ok.versionBound
  have bounded := ok.bounded
  have decoded := KeyValue.decode_encode encodable
  rw [refRecord_key] at decoded
  refine putAnswer_ne listed room rfl (some (refRecord stored (s.currentRevision + 1) key value lease))
    ?_ ?_ ?_ value lease
  · intro same
    have before := (listed.records key _ same.symm).bounded
    rw [refRecord_modRevision] at before
    omega
  · intro data held
    rw [halfPut, Backend.get_put, if_pos ⟨rfl, (refRecord_key _ _ _ _ _).symm⟩] at held
    obtain rfl := Option.some.inj held
    exact ⟨_, decoded, rfl, by omega⟩
  · intro absent
    rw [halfPut, Backend.get_put, if_pos ⟨rfl, (refRecord_key _ _ _ _ _).symm⟩] at absent
    cases absent

/-- So is a key that has lost its record. -/
theorem putAnswer_gone (listed : Listed stored live s) (room : s.currentRevision + 2 < 2 ^ 63) {key : Bytes}
    (lives : (live.get? key).isSome) (gone : Gone (s.currentRevision + 1) key s') (value : Bytes)
    (lease : Int) : putAnswer s' key value lease ≠ putAnswer s key value lease := by
  obtain ⟨kv, found⟩ := Option.isSome_iff_exists.mp lives
  refine putAnswer_ne listed room gone.1 none ?_ ?_ (fun _ => rfl) value lease
  · rw [listed.within key kv found]
    exact Option.some_ne_none kv ∘ Eq.symm
  · intro data held
    rw [gone.2] at held
    cases held

end Seen

/-- **When a failed write cannot be seen.** On every store in use, for every write of which one backend call
fails, after `n` that succeeded, and that returns an error: no read and no later `put` can tell the store it
left from the one before, exactly if the failing call is not behind the first one that writes, and `kv_rev`
has the record of every live key. -/
theorem failed_write_invisible_iff (s : MvccStore) (inUse : InUse s) (op : StoreOp)
    (short : StoreHistory.Short op) (room : s.currentRevision + 2 < 2 ^ 63) (n : Nat) (e : StorageError)
    (s' : MvccStore) (left : Option Nat)
    (failed : op.calls.run ⟨s, some n⟩ = (.err e, ⟨s', left⟩)) :
    Invisible s s' op ↔ n ≤ op.reads s ∧ ∀ key, s.Live key → s.archived key = true := by
  obtain ⟨hist, stored, live, chronicle⟩ := inUse.chronicle
  have listed := chronicle.stocked.listed
  have skipped : Invisible s s.skipped op ↔ ∀ key, s.Live key → s.archived key = true := by
    rw [← skipped_reads_iff chronicle (by omega)]
    exact ⟨Invisible.reads, fun reads => ⟨reads, fun key _ => putAnswer_skipped listed room key⟩⟩
  cases op with
  | put key value lease =>
    rcases putCalls_failed listed (by omega) (failed_of_map failed) with ⟨early, rfl⟩ | ⟨late, rfl⟩
    · rw [skipped, StoreOp.reads, and_iff_right early]
    · refine iff_of_false (fun invisible => ?_) fun both => ?_
      · exact putAnswer_halfPut listed room short (invisible.puts key rfl value lease)
      · have few : n ≤ 1 := both.1
        omega
  | deleteRange start stop =>
    rcases deleteRangeCalls_failed listed (by omega) (failed_of_map failed) with
      ⟨early, rfl⟩ | ⟨late, key, member, gone⟩
    · rw [skipped, StoreOp.reads, and_iff_right early.le]
    · obtain ⟨inside, lives⟩ := listed.mem_deletedKeys.mp member
      refine iff_of_false (fun invisible => ?_) fun both => absurd both.1 (not_le.mpr late)
      exact putAnswer_gone listed room lives gone [] 0 (invisible.puts key inside [] 0)

/-- Without a compaction `kv_rev` has the record of every live key. -/
theorem Refines.archived {calls : List (Int × StoreOp)} {s : MvccStore} (ref : Refines calls s) (key : Bytes)
    (lives : s.Live key) : s.archived key = true := by
  obtain ⟨rev, found⟩ := Option.isSome_iff_exists.mp lives.1
  rw [ref.index] at found
  obtain ⟨kv, there, -⟩ := Option.map_eq_some_iff.mp found
  rw [MvccStore.archived, ref.index, there, Option.map_some, Option.any_some,
    ref.history key _ kv there]
  rfl

/-- A store of the key `a`. -/
def storeOfA : MvccStore := ((MvccStore.put [97] [49] 0).run (.new .empty)).2

theorem storeOfA_inUse : InUse storeOfA := .put .fresh (by decide) (by decide)

/-- The read of `put` fails. -/
theorem failed_read_invisible :
    ∃ s' left, (StoreOp.put [97] [50] 0).calls.run ⟨storeOfA, some 0⟩ =
        (.err (.mvcc "Backend error"), ⟨s', left⟩) ∧
      Invisible storeOfA s' (.put [97] [50] 0) := by
  have admissible : (StoreOp.put [97] [49] 0).Admissible := ⟨by decide, by decide, by decide, by decide⟩
  obtain ⟨ran, written⟩ := Refines.fresh.put admissible (by decide)
  have ref : Refines [(2, .put [97] [49] 0)] storeOfA := by
    rw [storeOfA, ran]
    exact written
  exact ⟨_, _, rfl, (failed_write_invisible_iff storeOfA storeOfA_inUse (.put [97] [50] 0) (by decide)
    (by decide) 0 _ _ _ rfl).mpr ⟨by decide, ref.archived⟩⟩

/-- **A failed `put` that shows.** The write to `kv_rev` fails; the value `2` is read all the same, and the next
`put` answers it as the previous value. -/
theorem failed_put_shows :
    InUse storeOfA ∧ ∃ s' left, (StoreOp.put [97] [50] 0).calls.run ⟨storeOfA, some 2⟩ =
        (.err (.mvcc "Backend kv_rev put failed"), ⟨s', left⟩) ∧
      s'.range [97] [97, 0] 0 0 false = .ok ⟨[⟨[97], 2, 3, 2, [50], 0⟩], false, 1⟩ ∧
      storeOfA.range [97] [97, 0] 0 0 false = .ok ⟨[⟨[97], 2, 2, 1, [49], 0⟩], false, 1⟩ ∧
      putAnswer s' [97] [51] 0 = .ok (some ⟨[97], 2, 3, 2, [50], 0⟩, 3) ∧
      ¬ Invisible storeOfA s' (.put [97] [50] 0) := by
  have before : storeOfA.range [97] [97, 0] 0 0 false = .ok ⟨[⟨[97], 2, 2, 1, [49], 0⟩], false, 1⟩ := by
    decide +kernel
  refine ⟨storeOfA_inUse, _, _, rfl, ?_, before, by decide +kernel, fun invisible => ?_⟩
  · decide +kernel
  · have same := invisible.reads [97] [97, 0] (Or.inr (by decide)) 0
    rw [before] at same
    revert same
    decide +kernel

end Rusd
