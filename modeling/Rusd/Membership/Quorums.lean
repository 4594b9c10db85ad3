/-
**Quorums while the membership changes** (`cluster/mod.rs`).

The manager counts its voting members and takes more than half of them for a quorum. The map gives its
members in no particular order, so a `Listing` of the ids stands for one iteration over it.

* `Owned` — every record stands under its own id, in every state that calls reach.
* `listed_run` — in every such state there is a listing.
* `touches_one` — a call other than `recover` touches one member at most.
* `quorums_share_voter` — so a quorum from before a call and one from after it share a voter.
* `leader_stays_voter` — no call but `set_leader` and `recover` takes the leader's vote away.
-/

import Rusd.Lib.Quorum
import Rusd.Membership.Manager

namespace Rusd.Membership

namespace ClusterManager

/-- The ids of the members in the order of one iteration over the map. -/
structure Listing (s : ClusterManager) (ids : List Nat) : Prop where
  nodup : ids.Nodup
  complete : ∀ id, id ∈ ids ↔ (s.members id).isSome

/-- Lists all members in the cluster. -/
def listMembers (s : ClusterManager) (ids : List Nat) : List Member := ids.filterMap s.members

/-- Gets information about a specific member. -/
def getMember (s : ClusterManager) (id : Nat) : Option Member := s.members id

/-- Gets all voting members. -/
def getVoters (s : ClusterManager) (ids : List Nat) : List Member :=
  (s.listMembers ids).filter fun member => !member.isLearner

/-- Gets all learner members. -/
def getLearners (s : ClusterManager) (ids : List Nat) : List Member :=
  (s.listMembers ids).filter fun member => member.isLearner

def memberCount (s : ClusterManager) (ids : List Nat) : Nat := (s.listMembers ids).length

def voterCount (s : ClusterManager) (ids : List Nat) : Nat :=
  (s.listMembers ids).countP fun member => !member.isLearner

/-- Calculates the quorum size for this cluster. -/
def quorumSize (s : ClusterManager) (ids : List Nat) : Nat := s.voterCount ids / 2 + 1

/-- A set of voters of the size of a quorum. -/
structure Quorum (s : ClusterManager) (ids : List Nat) (voters : Finset Nat) : Prop where
  subset : ∀ id ∈ voters, id ∈ (s.getVoters ids).map (·.id)
  size : s.quorumSize ids ≤ voters.card

/-- The member of the id votes. -/
def Votes (s : ClusterManager) (id : Nat) : Prop :=
  ∃ member, s.members id = some member ∧ member.isLearner = false

end ClusterManager

open ClusterManager

/-! ### Records stand under their own ids -/

/-- Every record stands under its own id. -/
def Owned (s : ClusterManager) : Prop := ∀ id member, s.members id = some member → member.id = id

namespace Owned

variable {s : ClusterManager}

theorem put (owned : Owned s) {id : Nat} {member : Member} (own : member.id = id) :
    Owned (s.put id member) := by
  intro other found isFound
  rcases update_eq_some_iff.mp isFound with ⟨rfl, rfl⟩ | ⟨_, old⟩
  · exact own
  · exact owned other found old

theorem recover (members : List Member) : ∀ {s : ClusterManager}, Owned s →
    Owned (s.recover members).2 := by
  induction members with
  | nil => exact fun owned => owned
  | cons member rest ih =>
    intro s owned
    rw [ClusterManager.recover]
    split
    · exact owned
    · exact ih (owned.put rfl)

end Owned

/-! ### What one call touches -/

/-- What a call other than `recover` does to the map: nothing, or it writes a record under its own id, or
takes one out. -/
inductive Touches (s t : ClusterManager) : Prop
  | same (members : t.members = s.members)
  | wrote (id : Nat) (member : Member) (own : Owned s → member.id = id)
      (members : t.members = Function.update s.members id (some member))
  | removed (id : Nat) (members : t.members = Function.update s.members id none)

theorem touches_one {s : ClusterManager} {call : ClusterCall} (single : ∀ members, call ≠ .recover members) :
    Touches s (s.perform call).2 := by
  have added : ∀ id name peerUrls clientUrls isLearner,
      Touches s (s.addMemberWithId id name peerUrls clientUrls isLearner).2 := by
    intro id name peerUrls clientUrls isLearner
    unfold ClusterManager.addMemberWithId
    dsimp only
    split
    · exact .same rfl
    · split_ifs
      · exact .same rfl
      · exact .wrote id _ (fun _ => rfl) rfl
  cases call with
  | addMember uuid name peerUrls clientUrls isLearner => exact added _ name peerUrls clientUrls isLearner
  | addMemberWithId id name peerUrls clientUrls isLearner => exact added id name peerUrls clientUrls isLearner
  | removeMember id =>
    show Touches s (s.removeMember id).2
    unfold ClusterManager.removeMember
    split_ifs
    · exact .same rfl
    · split
      · exact .removed id rfl
      · exact .same rfl
  | updateMember id peerUrls =>
    show Touches s (s.updateMember id peerUrls).2
    unfold ClusterManager.updateMember
    cases found : s.members id with
    | none => exact .same rfl
    | some member =>
      -- the record is written whether it passes or not
      dsimp only
      split
      · exact .wrote id { member with peerUrls := peerUrls } (fun owned => owned id member found) rfl
      · exact .wrote id { member with peerUrls := peerUrls } (fun owned => owned id member found) rfl
  | promoteMember id =>
    show Touches s (s.promoteMember id).2
    unfold ClusterManager.promoteMember
    cases found : s.members id with
    | none => exact .same rfl
    | some member =>
      dsimp only
      split_ifs
      · exact .wrote id { member with isLearner := false } (fun owned => owned id member found) rfl
      · exact .same rfl
  | demoteMember id =>
    show Touches s (s.demoteMember id).2
    unfold ClusterManager.demoteMember
    split_ifs
    · exact .same rfl
    · cases found : s.members id with
      | none => exact .same rfl
      | some member =>
        dsimp only
        split_ifs
        · exact .same rfl
        · exact .wrote id { member with isLearner := true } (fun owned => owned id member found) rfl
  | recover members => exact absurd rfl (single members)
  | setLeader id => exact .same rfl

namespace Touches

variable {s t : ClusterManager}

theorem owned (touches : Touches s t) (owned : Owned s) : Owned t := by
  cases touches with
  | same members => rwa [Owned, members]
  | wrote id member own members =>
    rw [Owned, members]
    exact owned.put (own owned)
  | removed id members =>
    rw [Owned, members]
    exact fun other found isFound => owned other found (update_none_eq_some_iff.mp isFound).2

/-- **At most one member changes.** -/
theorem changed (touches : Touches s t) : ∃ changed, ∀ id, id ≠ changed → t.members id = s.members id := by
  cases touches with
  | same members => exact ⟨0, fun id _ => congrFun members id⟩
  | wrote id member own members =>
    exact ⟨id, fun other differs => by rw [members, Function.update_of_ne differs]⟩
  | removed id members =>
    exact ⟨id, fun other differs => by rw [members, Function.update_of_ne differs]⟩

end Touches

/-! ### Every reachable map can be listed -/

/-- The members have a listing. -/
def Listed (s : ClusterManager) : Prop := ∃ ids, s.Listing ids

namespace Listed

variable {s t : ClusterManager}

theorem wrote (listed : Listed s) {id : Nat} {member : Member}
    (members : t.members = Function.update s.members id (some member)) : Listed t := by
  obtain ⟨ids, nodup, complete⟩ := listed
  by_cases known : id ∈ ids
  · refine ⟨ids, nodup, fun other => ?_⟩
    rw [members, Function.update_apply]
    split_ifs with same
    · exact ⟨fun _ => rfl, fun _ => same ▸ known⟩
    · exact complete other
  · refine ⟨id :: ids, List.nodup_cons.mpr ⟨known, nodup⟩, fun other => ?_⟩
    rw [members, Function.update_apply, List.mem_cons, complete other]
    split_ifs with same
    · exact ⟨fun _ => rfl, fun _ => .inl same⟩
    · exact or_iff_right same

theorem removed (listed : Listed s) {id : Nat} (members : t.members = Function.update s.members id none) :
    Listed t := by
  obtain ⟨ids, nodup, complete⟩ := listed
  refine ⟨ids.filter (· ≠ id), nodup.filter _, fun other => ?_⟩
  rw [members, Function.update_apply, List.mem_filter, decide_eq_true_eq, complete other]
  split_ifs with same
  · exact iff_of_false (fun both => both.2 same) Bool.false_ne_true
  · exact and_iff_left same

theorem touched (listed : Listed s) (touches : Touches s t) : Listed t := by
  cases touches with
  | same members =>
    obtain ⟨ids, nodup, complete⟩ := listed
    exact ⟨ids, nodup, fun id => by rw [members]; exact complete id⟩
  | wrote id member own members => exact listed.wrote members
  | removed id members => exact listed.removed members

theorem recover (members : List Member) : ∀ {s : ClusterManager}, Listed s →
    Listed (s.recover members).2 := by
  induction members with
  | nil => exact fun listed => listed
  | cons member rest ih =>
    intro s listed
    rw [ClusterManager.recover]
    split
    · exact listed
    · exact ih (listed.wrote rfl)

end Listed

/-- **Every call** keeps records under their own ids, and the map listed. -/
theorem owned_listed_perform {s : ClusterManager} (owned : Owned s) (listed : Listed s)
    (call : ClusterCall) : Owned (s.perform call).2 ∧ Listed (s.perform call).2 := by
  by_cases restored : ∃ members, call = .recover members
  · obtain ⟨members, rfl⟩ := restored
    exact ⟨owned.recover members, listed.recover members⟩
  · push Not at restored
    have touches := touches_one (s := s) restored
    exact ⟨touches.owned owned, listed.touched touches⟩

theorem listed_run {clusterId memberId : Nat} {s : ClusterManager}
    (isNew : ClusterManager.new clusterId memberId = .ok s) (calls : List ClusterCall) :
    Owned (s.performAll calls) ∧ Listed (s.performAll calls) := by
  have start : Owned s ∧ Listed s := by
    unfold ClusterManager.new at isNew
    split_ifs at isNew
    cases isNew
    refine ⟨(fun id member found => by cases found), [], List.nodup_nil, fun id => ?_⟩
    exact iff_of_false List.not_mem_nil Bool.false_ne_true
  clear isNew
  unfold ClusterManager.performAll
  induction calls generalizing s with
  | nil => exact start
  | cons call rest ih => exact ih (owned_listed_perform start.1 start.2 call)

/-! ### Quorums -/

/-- The ids of the voters. -/
def voterIds (s : ClusterManager) (ids : List Nat) : Finset Nat :=
  (ids.filter fun id => (s.members id).any fun member => !member.isLearner).toFinset

section Voters

variable {s : ClusterManager} {ids : List Nat} (listing : s.Listing ids)

include listing

theorem mem_voterIds {id : Nat} : id ∈ voterIds s ids ↔ s.Votes id := by
  rw [voterIds, List.mem_toFinset, List.mem_filter, listing.complete, Option.any_eq_true]
  constructor
  · rintro ⟨-, member, found, votes⟩
    exact ⟨member, found, by simpa using votes⟩
  · rintro ⟨member, found, votes⟩
    exact ⟨found ▸ rfl, member, found, by simpa using votes⟩

theorem card_voterIds : (voterIds s ids).card = s.voterCount ids := by
  rw [voterIds, List.toFinset_card_of_nodup (listing.nodup.filter _), ← List.countP_eq_length_filter,
    voterCount, listMembers, List.countP_filterMap]
  congr 1
  funext id
  cases s.members id <;> rfl

/-- A quorum is a majority of the voters. -/
theorem quorum_majority (owned : Owned s) {voters : Finset Nat} (quorum : s.Quorum ids voters) :
    voters ⊆ voterIds s ids ∧ (voterIds s ids).card / 2 + 1 ≤ voters.card := by
  constructor
  · intro id member
    obtain ⟨voter, votes, rfl⟩ := List.mem_map.mp (quorum.subset id member)
    obtain ⟨listed, votes⟩ := List.mem_filter.mp votes
    obtain ⟨other, -, found⟩ := List.mem_filterMap.mp listed
    rw [mem_voterIds listing, owned other voter found]
    exact ⟨voter, found, by simpa using votes⟩
  · rw [card_voterIds listing]
    exact quorum.size

end Voters

/-- **One change at a time.** In every run, whatever quorum was taken before a call and whatever quorum is
taken after it, in whatever order the map gave its members: they share a voter. A `recover` replaces many
members at once. -/
theorem quorums_share_voter {clusterId memberId : Nat} {s : ClusterManager}
    (isNew : ClusterManager.new clusterId memberId = .ok s) (calls : List ClusterCall) (call : ClusterCall)
    (single : ∀ members, call ≠ .recover members) (ids ids' : List Nat)
    (listing : (s.performAll calls).Listing ids)
    (listing' : ((s.performAll calls).perform call).2.Listing ids') (voters voters' : Finset Nat)
    (quorum : (s.performAll calls).Quorum ids voters)
    (quorum' : ((s.performAll calls).perform call).2.Quorum ids' voters') :
    ∃ voter, voter ∈ voters ∧ voter ∈ voters' := by
  have owned := (listed_run isNew calls).1
  have touches := touches_one (s := s.performAll calls) single
  obtain ⟨changed, others⟩ := touches.changed
  obtain ⟨subset, major⟩ := quorum_majority listing owned quorum
  obtain ⟨subset', major'⟩ := quorum_majority listing' (touches.owned owned) quorum'
  refine majorities_meet changed ?_ ?_ subset subset' major major'
  · intro id member
    by_cases same : id = changed
    · exact Finset.mem_insert.mpr (.inl same)
    · refine Finset.mem_insert_of_mem ((mem_voterIds listing).mpr ?_)
      rw [Votes, ← others id same]
      exact (mem_voterIds listing').mp member
  · intro id member
    by_cases same : id = changed
    · exact Finset.mem_insert.mpr (.inl same)
    · refine Finset.mem_insert_of_mem ((mem_voterIds listing').mpr ?_)
      rw [Votes, others id same]
      exact (mem_voterIds listing).mp member

/-- A manager of cluster 1, before any member joined. -/
def emptyManager : ClusterManager := ⟨1, 1, fun _ => none, 0⟩

def voterAt (id : Nat) : Member := ⟨id, "n".toList, ["http://n:2380".toList], [], false⟩

/-- A second member joins the one that is there. -/
def joinFirst : ClusterCall := .addMemberWithId 1 "n".toList ["http://n:2380".toList] [] false

def joinSecond : ClusterCall := .addMemberWithId 2 "n".toList ["http://n:2380".toList] [] false

theorem second_joins_quorum : ∃ voter, voter ∈ ({1} : Finset Nat) ∧ voter ∈ ({1, 2} : Finset Nat) := by
  have first : emptyManager.performAll [joinFirst] = emptyManager.put 1 (voterAt 1) := rfl
  have second : ((emptyManager.put 1 (voterAt 1)).perform joinSecond).2 =
      (emptyManager.put 1 (voterAt 1)).put 2 (voterAt 2) := rfl
  have listing : (emptyManager.put 1 (voterAt 1)).Listing [1] := by
    refine ⟨by decide, fun id => ?_⟩
    by_cases one : id = 1
    · simp [emptyManager, ClusterManager.put, one]
    · simp [emptyManager, ClusterManager.put, one]
  have listing' : ((emptyManager.put 1 (voterAt 1)).put 2 (voterAt 2)).Listing [2, 1] := by
    refine ⟨by decide, fun id => ?_⟩
    by_cases one : id = 1
    · simp [emptyManager, ClusterManager.put, one]
    · by_cases two : id = 2
      · simp [emptyManager, ClusterManager.put, two]
      · simp [emptyManager, ClusterManager.put, one, two]
  refine @quorums_share_voter 1 1 emptyManager rfl [joinFirst] joinSecond (fun members same => by cases same)
    [1] [2, 1] (first ▸ listing) ?_ {1} {1, 2} ?_ ?_
  · rw [first, second]
    exact listing'
  · rw [first]
    exact ⟨by decide, by decide⟩
  · rw [first, second]
    exact ⟨by decide, by decide⟩

/-! ### The leader's vote -/

/-- The leader that was set is a voting member. -/
def LeaderVotes (s : ClusterManager) : Prop := s.Votes s.leaderId

namespace LeaderVotes

variable {s t : ClusterManager}

/-- A change elsewhere in the map. -/
theorem elsewhere (leader : LeaderVotes s) (same : t.leaderId = s.leaderId)
    (kept : t.members s.leaderId = s.members s.leaderId) : LeaderVotes t := by
  rw [LeaderVotes, Votes, same, kept]
  exact leader

/-- A voter written under the id of the leader, or anything under another id. -/
theorem put (leader : LeaderVotes s) {id : Nat} {member : Member}
    (votes : id = s.leaderId → member.isLearner = false) : LeaderVotes (s.put id member) := by
  by_cases here : id = s.leaderId
  · refine ⟨member, ?_, votes here⟩
    show (s.put id member).members s.leaderId = some member
    rw [← here, s.put_self]
  · exact leader.elsewhere rfl (Function.update_of_ne (Ne.symm here) _ _)

theorem perform (leader : LeaderVotes s) {call : ClusterCall} (single : ∀ members, call ≠ .recover members)
    (led : ∀ id, call ≠ .setLeader id) : LeaderVotes (s.perform call).2 := by
  obtain ⟨voter, isLeader, votes⟩ := id leader
  have added : ∀ id name peerUrls clientUrls isLearner,
      LeaderVotes (s.addMemberWithId id name peerUrls clientUrls isLearner).2 := by
    intro id name peerUrls clientUrls isLearner
    unfold ClusterManager.addMemberWithId
    dsimp only
    split
    · exact leader
    · split_ifs with known
      · exact leader
      · refine leader.put fun here => absurd ?_ known
        rw [here, isLeader]
        rfl
  cases call with
  | addMember uuid name peerUrls clientUrls isLearner => exact added _ name peerUrls clientUrls isLearner
  | addMemberWithId id name peerUrls clientUrls isLearner => exact added id name peerUrls clientUrls isLearner
  | removeMember id =>
    show LeaderVotes (s.removeMember id).2
    unfold ClusterManager.removeMember
    split_ifs with here
    · exact leader
    · split
      · exact leader.elsewhere rfl (Function.update_of_ne (Ne.symm here) _ _)
      · exact leader
  | updateMember id peerUrls =>
    show LeaderVotes (s.updateMember id peerUrls).2
    unfold ClusterManager.updateMember
    cases found : s.members id with
    | none => exact leader
    | some member =>
      -- the URLs change, the vote does not
      have kept : id = s.leaderId → member.isLearner = false := by
        rintro rfl
        rw [isLeader] at found
        exact Option.some.inj found ▸ votes
      dsimp only
      split
      · exact leader.put kept
      · exact leader.put kept
  | promoteMember id =>
    show LeaderVotes (s.promoteMember id).2
    unfold ClusterManager.promoteMember
    split
    · split_ifs
      · exact leader.put fun _ => rfl
      · exact leader
    · exact leader
  | demoteMember id =>
    show LeaderVotes (s.demoteMember id).2
    unfold ClusterManager.demoteMember
    split_ifs with here
    · exact leader
    · split
      · split_ifs
        · exact leader
        · exact leader.put fun leads => absurd leads here
      · exact leader
  | recover members => exact absurd rfl (single members)
  | setLeader id => exact absurd rfl (led id)

end LeaderVotes

/-- **The leader keeps its vote.** From a state whose leader is a voting member, whatever is added, removed,
updated, promoted or demoted: the leader stays a voting member. -/
theorem leader_stays_voter (s : ClusterManager) (leader : LeaderVotes s) (calls : List ClusterCall)
    (changes : ∀ call ∈ calls, (∀ members, call ≠ .recover members) ∧ ∀ id, call ≠ .setLeader id) :
    LeaderVotes (s.performAll calls) := by
  unfold ClusterManager.performAll
  induction calls generalizing s with
  | nil => exact leader
  | cons call rest ih =>
    obtain ⟨⟨single, led⟩, changes⟩ := List.forall_mem_cons.mp changes
    exact ih _ (leader.perform single led) changes

/-- A leader that was to be demoted and removed, while another member joined. -/
theorem leader_not_removed :
    LeaderVotes (((emptyManager.put 1 (voterAt 1)).setLeader 1).performAll
      [.demoteMember 1, joinSecond, .removeMember 1]) := by
  refine leader_stays_voter _ ⟨voterAt 1, rfl, rfl⟩ _ fun call member => ?_
  simp only [List.mem_cons, List.not_mem_nil, or_false] at member
  rcases member with rfl | rfl | rfl <;>
    exact ⟨(fun members same => by cases same), (fun id same => by cases same)⟩

end Rusd.Membership
