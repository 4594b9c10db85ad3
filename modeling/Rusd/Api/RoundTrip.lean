/-
**The replicated `put`.**

The leader proposes `PUT:key:value` and then calls its own store with the key, the effective value
and the effective lease; a follower calls its store with what it reads from the proposal.

* `planPut_run` — on a reached store the handler gets as far as its proposal.
* `put_round_trip_iff` — the two calls agree exactly when key and value are valid UTF-8, the key
  holds no colon, and no lease is attached.
-/

import Rusd.Api.KvService
import Rusd.Storage.Compaction

namespace Rusd

/-- The record a handler finds under a key at the current revision. -/
def storedRecord (s : MvccStore) (key : Bytes) : Option KeyValue :=
  match lookupKey key (fun s => s.currentRevision) s with
  | .ok kv => kv
  | .err _ => none
  | .panic => none

/-- The value of a `put`: the stored one under `ignore_value`, else the one in the request. -/
def storedValue (s : MvccStore) (request : PutRequest) : Bytes :=
  if request.ignoreValue then ((storedRecord s request.key).map fun kv => kv.value).getD []
  else request.value

/-- The lease of a `put`: the stored one under `ignore_lease`, else the one in the request. -/
def storedLease (s : MvccStore) (request : PutRequest) : Int :=
  if request.ignoreLease then ((storedRecord s request.key).map fun kv => kv.lease).getD 0
  else request.lease

theorem validRange_singleKeyEnd (key : Bytes) : KeyIndex.ValidRange key (singleKeyEnd key) :=
  Or.inr (not_lt.mp (List.IsPrefix.le (List.prefix_append key [0])))

theorem Sound.lookupKey_returns {s : MvccStore} (sound : Sound s) (key : Bytes)
    (revision : MvccStore → Int) : ∃ kv, lookupKey key revision s = .ok kv := by
  obtain ⟨kvs, more, read⟩ := sound.range_count (.of_valid (validRange_singleKeyEnd key)) (revision s) 1
  exact ⟨kvs.head?, by rw [lookupKey, read]; rfl⟩

/-- A lookup whose error counts as empty, on a sound store. -/
theorem onReadOk_lookupKey {leader : Leader} (sound : Sound leader.store) (key : Bytes) :
    (onReadOk (lookupKey key fun s => s.currentRevision)).run leader =
      (.ok (some (storedRecord leader.store key)), leader) := by
  obtain ⟨kv, found⟩ := sound.lookupKey_returns key fun s => s.currentRevision
  simp only [onReadOk, storedRecord, found]

theorem effectiveValue_run {leader : Leader} (sound : Sound leader.store) (request : PutRequest) :
    (effectiveValue request).run leader = (.ok (storedValue leader.store request), leader) := by
  unfold effectiveValue storedValue
  split_ifs
  · rw [Exec.run_bind_ok (onReadOk_lookupKey sound request.key)]
    rfl
  · rfl

theorem effectiveLease_run {leader : Leader} (sound : Sound leader.store) (request : PutRequest) :
    (effectiveLease request).run leader = (.ok (storedLease leader.store request), leader) := by
  unfold effectiveLease storedLease
  split_ifs
  · rw [Exec.run_bind_ok (onReadOk_lookupKey sound request.key)]
    rfl
  · rfl

/-- **The handler reaches its proposal.** -/
theorem planPut_run {leader : Leader} (sound : Sound leader.store) {request : PutRequest}
    (nonempty : request.key ≠ []) :
    (planPut request).run leader =
      (.ok (request.key, storedValue leader.store request, storedLease leader.store request),
        { leader with proposals :=
            leader.proposals ++ [putProposal request.key (storedValue leader.store request)] }) := by
  rw [planPut, if_neg nonempty, Exec.run_bind_ok (effectiveValue_run sound request),
    Exec.run_bind_ok (effectiveLease_run sound request), propose,
    Exec.run_bind_ok (Exec.run_update _ _)]
  rfl

/-- The text of a `put` gives the call back exactly when nothing in it is cut or replaced. -/
theorem followerCommand_putProposal_iff (key value : Bytes) (lease : Int) :
    followerCommand (putProposal key value) = some (.put key value lease) ↔
      ValidUtf8 key ∧ colon ∉ key ∧ ValidUtf8 value ∧ lease = 0 := by
  rw [followerCommand_putProposal]
  constructor
  · intro read
    obtain ⟨⟨front, rest⟩, split, is⟩ := Option.map_eq_some_iff.mp read
    simp only [StoreOp.put.injEq] at is
    obtain ⟨rfl, rfl, rfl⟩ := is
    have free := sep_not_mem_of_splitOnce split
    have free' : colon ∉ lossy front := fun member =>
      free ((mem_lossy_ascii colon_small).mp member)
    rw [splitOnce_append free'] at split
    obtain ⟨sameKey, sameValue⟩ : lossy front = front ∧ lossy rest = rest := by simpa using split
    exact ⟨lossy_eq_self_iff.mp sameKey, free, lossy_eq_self_iff.mp sameValue, rfl⟩
  · rintro ⟨validKey, free, validValue, rfl⟩
    rw [lossy_eq_self_iff.mpr validKey, lossy_eq_self_iff.mpr validValue, splitOnce_append free]
    rfl

/-- **When a replicated `put` is the leader's `put`.** For every reached store and every request
with a key, the handler proposes one entry and then calls its store with a key, a value and a lease;
a follower makes the same call from the entry exactly if the key is valid UTF-8 without a colon, the
value is valid UTF-8, and the lease is 0. -/
theorem put_round_trip_iff (leader : Leader) (reached : Reached leader.store) (request : PutRequest)
    (nonempty : request.key ≠ []) :
    ∃ key value lease proposal,
      (planPut request).run leader =
        (.ok (key, value, lease), { leader with proposals := leader.proposals ++ [proposal] }) ∧
      (followerCommand proposal = some (.put key value lease) ↔
        ValidUtf8 request.key ∧ colon ∉ request.key ∧
          ValidUtf8 (storedValue leader.store request) ∧ storedLease leader.store request = 0) :=
  ⟨_, _, _, _, planPut_run (Sound.of_reached reached) nonempty,
    followerCommand_putProposal_iff _ _ _⟩

/-- A leader with a fresh store. -/
def freshLeader : Leader := ⟨MvccStore.new .empty, ⟨fun _ => none, 1⟩, []⟩

/-- **A colon in the key moves the boundary**: the leader writes `a:b = 1`, a follower `a = b:1`. -/
theorem put_with_colon :
    ∃ leader', (planPut ⟨[97, 58, 98], [49], 0, false, false, false⟩).run freshLeader =
        (.ok ([97, 58, 98], [49], 0), leader') ∧
      leader'.proposals.map followerCommand = [some (.put [97] [98, 58, 49] 0)] := by
  exact ⟨_, rfl, by decide +kernel⟩

/-- A plain key and value without a lease survive. -/
theorem put_plain_round_trip :
    ∃ key value lease proposal,
      (planPut ⟨[97], [49], 0, false, false, false⟩).run freshLeader =
        (.ok (key, value, lease), { freshLeader with proposals := [proposal] }) ∧
      followerCommand proposal = some (.put key value lease) := by
  obtain ⟨key, value, lease, proposal, planned, same⟩ :=
    put_round_trip_iff freshLeader Reached.fresh ⟨[97], [49], 0, false, false, false⟩ (by decide)
  exact ⟨key, value, lease, proposal, planned, same.mpr (by decide +kernel)⟩

end Rusd
