/-
**A deletion on the leader and on its followers** (`api/kv_service.rs`, `delete_range`; `server/mod.rs`,
`process_apply_channel`).

The leader deletes the interval of the request. A follower deletes the interval it reads back from the
text `DELETE:key:range_end`: it cuts the decoded text at the first colon, and takes the second part
literally unless it is empty.

* `readBack` — the interval a follower reads back, and `readBack_eq` — the requests whose interval comes
  back as it was.
* `serveDeleteRange_ok` — a deletion that the leader answers.
* `follower_delete_agrees_iff` — when the follower deletes what the leader deletes.
-/

import Rusd.Api.Replica
import Rusd.Storage.InUse

namespace Rusd

open MvccStore

/-! ### The interval that is read back -/

/-- The interval of the entry that a deletion proposes: the parts of its text before and after the first
colon, where an empty end stands for the one key. -/
def readBack (key rangeEnd : Bytes) : Bytes × Bytes :=
  let parts := (splitOnce colon (lossy key ++ colon :: lossy rangeEnd)).getD ([], [])
  (parts.1, if parts.2 = [] then singleKeyEnd parts.1 else parts.2)

/-- **The command of the entry** deletes that interval. -/
theorem followerCommand_readBack (key rangeEnd : Bytes) :
    followerCommand (deleteProposal key rangeEnd) =
      some (.deleteRange (readBack key rangeEnd).1 (readBack key rangeEnd).2) := by
  obtain ⟨front, rest, split⟩ := splitOnce_proposal key rangeEnd
  rw [followerCommand_deleteProposal, readBack, split]
  rfl

/-- **The interval comes back as it was** for a key in UTF-8 without a colon and a range end in UTF-8
other than `[0x00]`. -/
theorem readBack_eq {key rangeEnd : Bytes} (validKey : ValidUtf8 key) (plain : colon ∉ key)
    (validEnd : ValidUtf8 rangeEnd) (bounded : rangeEnd ≠ [0]) :
    readBack key rangeEnd = (key, effectiveRangeEnd key rangeEnd) := by
  rw [readBack, lossy_eq_self_iff.mpr validKey, lossy_eq_self_iff.mpr validEnd, splitOnce_append plain,
    effectiveRangeEnd, if_neg bounded]
  rfl

/-! ### The two deletions -/

/-- **A deletion that the leader answers**: the request was admitted, one entry was proposed, and the call
on the store returned. -/
theorem serveDeleteRange_ok {request : DeleteRangeRequest} {leader leader' : Leader}
    {response : ResponseOp} (answered : (serveDeleteRange request).run leader = (.ok response, leader')) :
    ¬ (request.key = [] ∧ request.rangeEnd = []) ∧
      leader'.proposals = leader.proposals ++ [deleteProposal request.key request.rangeEnd] ∧
      ∃ result, (MvccStore.deleteRange request.key
        (effectiveRangeEnd request.key request.rangeEnd)).run leader.store =
          (.ok result, leader'.store) := by
  rw [serveDeleteRange] at answered
  split_ifs at answered with empty
  · cases answered
  · refine ⟨empty, ?_⟩
    obtain ⟨kvs, middle, previous, proposing⟩ := Exec.run_bind_eq_ok answered
    cases previousKvs_eq_ok previous
    rw [Exec.run_bind_ok (propose_run _)] at proposing
    obtain ⟨result, last, deleted, answers⟩ := Exec.run_bind_eq_ok proposing
    cases answers
    obtain ⟨s, ran, rfl⟩ := onStore_eq_ok deleted
    exact ⟨rfl, _, ran⟩

/-- **A deletion that a follower applies**: an inverted interval ends its apply loop once its store has
held a key, and otherwise the live keys of the interval are gone. -/
theorem Follower.apply_deleteRange {follower : Follower} (inUse : InUse follower.store)
    (room : follower.store.currentRevision + 1 < 2 ^ 63) (alive : follower.applying = true)
    {data start stop : Bytes} (command : followerCommand data = some (.deleteRange start stop)) :
    ((follower.apply data).applying = true ↔
        KeyIndex.Accepts follower.store.keyIndex.held start stop) ∧
      ∀ k, (follower.apply data).store.Live k ↔ follower.store.Live k ∧ ¬ Bytes.InRange start stop k := by
  obtain ⟨stored, live, stocked⟩ := inUse.stocked
  have lives := stocked.live_deleteRange room start stop
  rw [Follower.apply, if_pos alive, command]
  dsimp only
  by_cases accepts : KeyIndex.Accepts follower.store.keyIndex.held start stop
  · have returned := stocked.listed.deleteRange_run room accepts
    have ran : (StoreOp.deleteRange start stop).run.run follower.store =
        (.ok (follower.store.currentRevision + 1),
          follower.store.afterDelete (deletedKeys follower.store start stop)) := by
      rw [StoreOp.run, Exec.run_bind_ok returned]
      rfl
    rw [returned] at lives
    rw [ran]
    exact ⟨iff_of_true rfl accepts, lives⟩
  · rw [MvccStore.deleteRange_refused room accepts] at lives
    rw [StoreOp.run_refused room accepts]
    exact ⟨iff_of_false Bool.false_ne_true accepts, lives⟩

/-- **When a follower deletes what the leader deletes.** For every deletion that the leader answers and
every follower with the same live keys: the interval read back from the entry is not inverted (or the
follower's store has never held a key), and holds the same live keys as the interval of the request. -/
theorem follower_delete_agrees_iff (leader leader' : Leader) (follower : Follower)
    (leaderInUse : InUse leader.store) (followerInUse : InUse follower.store)
    (alive : follower.applying = true) (room : follower.store.currentRevision + 1 < 2 ^ 63)
    (sameKeys : ∀ k, leader.store.Live k ↔ follower.store.Live k) (request : DeleteRangeRequest)
    (response : ResponseOp) (answered : (serveDeleteRange request).run leader = (.ok response, leader')) :
    leader'.proposals = leader.proposals ++ [deleteProposal request.key request.rangeEnd] ∧
    (((follower.apply (deleteProposal request.key request.rangeEnd)).applying = true ∧
        ∀ k, (follower.apply (deleteProposal request.key request.rangeEnd)).store.Live k ↔
          leader'.store.Live k) ↔
      KeyIndex.Accepts follower.store.keyIndex.held (readBack request.key request.rangeEnd).1
          (readBack request.key request.rangeEnd).2 ∧
        ∀ k, leader.store.Live k →
          (Bytes.InRange (readBack request.key request.rangeEnd).1
              (readBack request.key request.rangeEnd).2 k ↔
            Bytes.InRange request.key (effectiveRangeEnd request.key request.rangeEnd) k)) := by
  obtain ⟨-, proposed, result, ran⟩ := serveDeleteRange_ok answered
  obtain ⟨stored, live, stocked⟩ := leaderInUse.stocked
  have kept := stocked.live_deleteRange (deleteRange_answer ran).1 request.key
    (effectiveRangeEnd request.key request.rangeEnd)
  rw [ran] at kept
  obtain ⟨applies, keeps⟩ := Follower.apply_deleteRange followerInUse room alive
    (followerCommand_readBack request.key request.rangeEnd)
  refine ⟨proposed, ?_⟩
  simp only [applies, keeps, kept, ← sameKeys]
  refine and_congr_right fun _ => forall_congr' fun k => ?_
  constructor
  · exact fun same lives => not_iff_not.mp (and_congr_right_iff.mp same lives)
  · exact fun same => and_congr_right fun lives => not_iff_not.mpr (same lives)

/-- A follower over the same store. -/
def followerOf (s : MvccStore) : Follower := ⟨s, true⟩

/-- A store of three keys: `a`, `a:b` and `ab`. -/
def colonStore : MvccStore :=
  ((MvccStore.put [97, 98] [51] 0).run ((MvccStore.put [97, 58, 98] [50] 0).run
    ((MvccStore.put [97] [49] 0).run (.new .empty)).2).2).2

def colonLeader : Leader := ⟨colonStore, ⟨fun _ => none, 1⟩, []⟩

theorem colonStore_inUse : InUse colonStore :=
  .put (.put (.put .fresh (by decide) (by decide)) (by decide) (by decide)) (by decide) (by decide)

/-- The deletion of the key `a` is the same on both. -/
theorem plain_key_agrees :
    ((followerOf colonStore).apply (deleteProposal [97] [])).applying = true ∧
      ∀ k, ((followerOf colonStore).apply (deleteProposal [97] [])).store.Live k ↔
        ((serveDeleteRange ⟨[97], [], false⟩).run colonLeader).2.store.Live k := by
  have answered : (serveDeleteRange ⟨[97], [], false⟩).run colonLeader =
      (.ok (.responseDeleteRange 5 1 []), ((serveDeleteRange ⟨[97], [], false⟩).run colonLeader).2) :=
    Prod.ext (by decide +kernel) rfl
  have back : readBack [97] [] = ([97], effectiveRangeEnd [97] []) :=
    readBack_eq (by decide) (by decide) (by decide) (by decide)
  refine (follower_delete_agrees_iff colonLeader _ (followerOf colonStore) colonStore_inUse
    colonStore_inUse rfl (by decide) (fun _ => Iff.rfl) ⟨[97], [], false⟩ _ answered).2.mpr ?_
  rw [back]
  exact ⟨.of_valid (by decide), fun _ _ => Iff.rfl⟩

/-- **Two deletions that a follower gets wrong.** Deleting the key `a:b` makes it delete `ab` as well; and
deleting everything from `a` on, with the range end `[0x00]`, makes it panic. -/
theorem follower_deletes_otherwise :
    InUse colonStore ∧
      (((serveDeleteRange ⟨[97, 58, 98], [], false⟩).run colonLeader).1 =
          .ok (.responseDeleteRange 5 1 []) ∧
        ((serveDeleteRange ⟨[97, 58, 98], [], false⟩).run colonLeader).2.store.Live [97, 98] ∧
        ¬ ((followerOf colonStore).apply (deleteProposal [97, 58, 98] [])).store.Live [97, 98]) ∧
      ((serveDeleteRange ⟨[97], [0], false⟩).run colonLeader).1 = .ok (.responseDeleteRange 5 3 []) ∧
      ((followerOf colonStore).apply (deleteProposal [97] [0])).applying = false := by
  refine ⟨colonStore_inUse, ⟨by decide +kernel, by decide +kernel, by decide +kernel⟩,
    by decide +kernel, by decide +kernel⟩

end Rusd
