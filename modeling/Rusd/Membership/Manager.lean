/-
**Cluster membership** (`cluster/mod.rs`).

`ClusterManager` keeps the members by id. An operation returns an error or changes the map, and two can
do both: `update_member` writes the new URLs before it validates them, and `recover` validates and
inserts one member after another.

* `Valid` — every stored member passes `validate` and stands under its own id.
* `Checked` — the calls that cannot do both.
* `valid_perform`, `atomic_iff` — what one call keeps, and when an error leaves the map alone.
* `membership_kept_iff` — runs of calls: both hold all along exactly if every call is `Checked`.
-/

import Rusd.Lib.Tables
import Rusd.Lib.Text

namespace Rusd.Membership

/-- Cluster-related errors. -/
inductive ClusterError
  | memberNotFound (id : Nat)
  | memberAlreadyExists (id : Nat)
  | invalidConfig (text : String)
  | cannotRemoveLeader
  | raftError (text : String)
  | internal (text : String)
  deriving DecidableEq, Repr

def ClusterError.display : ClusterError → String
  | memberNotFound id => "Member not found: " ++ toString id
  | memberAlreadyExists id => "Member already exists: " ++ toString id
  | invalidConfig text => "Invalid member configuration: " ++ text
  | cannotRemoveLeader => "Cannot remove leader"
  | raftError text => "Raft error: " ++ text
  | internal text => "Internal error: " ++ text

/-- Information about a cluster member. -/
structure Member where
  id : Nat
  name : Text
  peerUrls : List Text
  clientUrls : List Text
  isLearner : Bool
  deriving DecidableEq, Repr

namespace Member

def new (id : Nat) (name : Text) (peerUrls clientUrls : List Text) : Member where
  id := id
  name := name
  peerUrls := peerUrls
  clientUrls := clientUrls
  isLearner := false

/-- The URL starts with one of the two schemes. -/
def hasScheme (url : Text) : Bool :=
  "http://".toList.isPrefixOf url || "https://".toList.isPrefixOf url

/-- The error is about the first URL with another scheme. -/
def checkUrls (text : String) : List Text → Except ClusterError Unit
  | [] => .ok ()
  | url :: rest =>
    if hasScheme url then checkUrls text rest
    else .error (.invalidConfig (text ++ String.ofList url))

/-- Validates the member configuration. -/
def validate (member : Member) : Except ClusterError Unit :=
  if member.id = 0 then .error (.invalidConfig "Member ID cannot be 0")
  else if member.name = [] then .error (.invalidConfig "Member name cannot be empty")
  else if member.peerUrls = [] then .error (.invalidConfig "At least one peer URL is required")
  else
    match checkUrls "Invalid peer URL: " member.peerUrls with
    | .error error => .error error
    | .ok () => checkUrls "Invalid client URL: " member.clientUrls

/-- `validate` returns `Ok`. -/
def Passes (member : Member) : Prop := member.validate = .ok ()

instance (member : Member) : Decidable member.Passes :=
  inferInstanceAs (Decidable (member.validate = .ok ()))

end Member

/-- Manages cluster membership and topology. -/
structure ClusterManager where
  clusterId : Nat
  memberId : Nat
  members : Nat → Option Member
  leaderId : Nat

namespace ClusterManager

/-- Creates a new manager without members, whose leader is unknown. -/
def new (clusterId memberId : Nat) : Except ClusterError ClusterManager :=
  if clusterId = 0 ∨ memberId = 0 then
    .error (.invalidConfig "Cluster ID and member ID must be non-zero")
  else .ok ⟨clusterId, memberId, fun _ => none, 0⟩

/-- Write a member under an id. -/
def put (s : ClusterManager) (id : Nat) (member : Member) : ClusterManager :=
  { s with members := Function.update s.members id (some member) }

theorem put_self (s : ClusterManager) (id : Nat) (member : Member) :
    (s.put id member).members id = some member :=
  Function.update_self ..

/-- Sets the current leader ID. -/
def setLeader (s : ClusterManager) (id : Nat) : ClusterManager := { s with leaderId := id }

/-- Adds a new member to the cluster with a pre-computed ID. -/
def addMemberWithId (s : ClusterManager) (memberId : Nat) (name : Text)
    (peerUrls clientUrls : List Text) (isLearner : Bool) :
    Except ClusterError Member × ClusterManager :=
  let member := { Member.new memberId name peerUrls clientUrls with isLearner := isLearner }
  match member.validate with
  | .error error => (.error error, s)
  | .ok () =>
    if (s.members memberId).isSome then (.error (.memberAlreadyExists memberId), s)
    else (.ok member, s.put memberId member)

/-- The first eight bytes of a random UUID, the lowest one first. -/
def generateMemberId (uuid : Bytes) : Nat := ofLeBytes (uuid.take 8)

/-- Adds a new member to the cluster with an auto-generated ID. -/
def addMember (s : ClusterManager) (uuid : Bytes) (name : Text) (peerUrls clientUrls : List Text)
    (isLearner : Bool) : Except ClusterError Member × ClusterManager :=
  s.addMemberWithId (generateMemberId uuid) name peerUrls clientUrls isLearner

/-- Removes a member from the cluster. -/
def removeMember (s : ClusterManager) (id : Nat) : Except ClusterError Unit × ClusterManager :=
  if id = s.leaderId then (.error .cannotRemoveLeader, s)
  else
    match s.members id with
    | some _ => (.ok (), { s with members := Function.update s.members id none })
    | none => (.error (.memberNotFound id), s)

/-- Updates a member's peer URLs. -/
def updateMember (s : ClusterManager) (id : Nat) (peerUrls : List Text) :
    Except ClusterError Member × ClusterManager :=
  match s.members id with
  | some member =>
    let updated := { member with peerUrls := peerUrls }
    -- the record in the map has the new URLs before they are validated
    match updated.validate with
    | .error error => (.error error, s.put id updated)
    | .ok () => (.ok updated, s.put id updated)
  | none => (.error (.memberNotFound id), s)

/-- Promotes a learner member to a voting member. -/
def promoteMember (s : ClusterManager) (id : Nat) : Except ClusterError Member × ClusterManager :=
  match s.members id with
  | some member =>
    if member.isLearner then
      let promoted := { member with isLearner := false }
      (.ok promoted, s.put id promoted)
    else (.error (.invalidConfig s!"Member {id} is not a learner"), s)
  | none => (.error (.memberNotFound id), s)

/-- Demotes a voting member to a learner. -/
def demoteMember (s : ClusterManager) (id : Nat) : Except ClusterError Member × ClusterManager :=
  if id = s.leaderId then (.error .cannotRemoveLeader, s)
  else
    match s.members id with
    | some member =>
      if member.isLearner then (.error (.invalidConfig s!"Member {id} is already a learner"), s)
      else
        let demoted := { member with isLearner := true }
        (.ok demoted, s.put id demoted)
    | none => (.error (.memberNotFound id), s)

/-- Recovers cluster membership from a snapshot. -/
def recover (s : ClusterManager) : List Member → Except ClusterError Unit × ClusterManager
  | [] => (.ok (), s)
  | member :: rest =>
    match member.validate with
    | .error error => (.error error, s)
    | .ok () => (s.put member.id member).recover rest

end ClusterManager

/-- A call of the manager, with the UUID drawn for it. -/
inductive ClusterCall
  | addMember (uuid : Bytes) (name : Text) (peerUrls clientUrls : List Text) (isLearner : Bool)
  | addMemberWithId (memberId : Nat) (name : Text) (peerUrls clientUrls : List Text)
      (isLearner : Bool)
  | removeMember (id : Nat)
  | updateMember (id : Nat) (peerUrls : List Text)
  | promoteMember (id : Nat)
  | demoteMember (id : Nat)
  | recover (members : List Member)
  | setLeader (id : Nat)

/-- Whether a call returned an error, without what it returned otherwise. -/
def outcome {α : Type} (done : Except ClusterError α × ClusterManager) :
    Except ClusterError Unit × ClusterManager :=
  (done.1.map fun _ => (), done.2)

namespace ClusterManager

def perform (s : ClusterManager) : ClusterCall → Except ClusterError Unit × ClusterManager
  | .addMember uuid name peerUrls clientUrls isLearner =>
    outcome (s.addMember uuid name peerUrls clientUrls isLearner)
  | .addMemberWithId memberId name peerUrls clientUrls isLearner =>
    outcome (s.addMemberWithId memberId name peerUrls clientUrls isLearner)
  | .removeMember id => s.removeMember id
  | .updateMember id peerUrls => outcome (s.updateMember id peerUrls)
  | .promoteMember id => outcome (s.promoteMember id)
  | .demoteMember id => outcome (s.demoteMember id)
  | .recover members => s.recover members
  | .setLeader id => (.ok (), s.setLeader id)

/-- The manager after some calls, one after another. -/
def performAll (s : ClusterManager) (calls : List ClusterCall) : ClusterManager :=
  calls.foldl (fun s call => (s.perform call).2) s

end ClusterManager

/-! ### What `validate` accepts -/

theorem Member.checkUrls_eq_ok_iff {text : String} {urls : List Text} :
    Member.checkUrls text urls = .ok () ↔ ∀ url ∈ urls, Member.hasScheme url = true := by
  induction urls with
  | nil => exact ⟨fun _ url member => absurd member List.not_mem_nil, fun _ => rfl⟩
  | cons url rest ih =>
    rw [Member.checkUrls, List.forall_mem_cons]
    split_ifs with scheme
    · exact ih.trans ⟨fun rest => ⟨scheme, rest⟩, fun both => both.2⟩
    · exact ⟨(fun fails => by cases fails), fun both => absurd both.1 scheme⟩

/-- An id, a name, a peer URL, and no URL with another scheme. -/
theorem Member.passes_iff {member : Member} : member.Passes ↔
    member.id ≠ 0 ∧ member.name ≠ [] ∧ member.peerUrls ≠ [] ∧
      (∀ url ∈ member.peerUrls, Member.hasScheme url = true) ∧
      ∀ url ∈ member.clientUrls, Member.hasScheme url = true := by
  unfold Member.Passes Member.validate
  split_ifs with noId noName noPeer
  · exact ⟨(fun fails => by cases fails), fun all => absurd noId all.1⟩
  · exact ⟨(fun fails => by cases fails), fun all => absurd noName all.2.1⟩
  · exact ⟨(fun fails => by cases fails), fun all => absurd noPeer all.2.2.1⟩
  · rw [← @Member.checkUrls_eq_ok_iff "Invalid peer URL: ",
      ← @Member.checkUrls_eq_ok_iff "Invalid client URL: "]
    split
    · rename_i error fails
      rw [fails]
      exact ⟨(fun none => by cases none), fun all => by cases all.2.2.2.1⟩
    · rename_i passes
      exact ⟨fun clients => ⟨noId, noName, noPeer, passes, clients⟩, fun all => all.2.2.2.2⟩

/-- A member that does not pass is an invalid configuration. -/
theorem Member.validate_error {member : Member} {error : ClusterError}
    (fails : member.validate = .error error) : ∃ text, error = .invalidConfig text := by
  have urls : ∀ (text : String) (urls : List Text), Member.checkUrls text urls = .error error →
      ∃ text, error = .invalidConfig text := by
    intro text urls
    induction urls with
    | nil => exact fun fails => by cases fails
    | cons url rest ih =>
      rw [Member.checkUrls]
      split_ifs
      · exact ih
      · intro fails
        cases fails
        exact ⟨_, rfl⟩
  unfold Member.validate at fails
  split_ifs at fails
  · cases fails
    exact ⟨_, rfl⟩
  · cases fails
    exact ⟨_, rfl⟩
  · cases fails
    exact ⟨_, rfl⟩
  · split at fails
    · rename_i peers
      cases fails
      exact urls _ _ peers
    · exact urls _ _ fails

/-- A member passes as a learner exactly if it passes as a voter. -/
theorem Member.passes_isLearner {member : Member} {isLearner : Bool} (passes : member.Passes) :
    ({ member with isLearner := isLearner } : Member).Passes :=
  passes

/-! ### One call -/

/-- Every stored member passes `validate` and is stored under its own id. -/
def Valid (s : ClusterManager) : Prop :=
  ∀ id member, s.members id = some member → member.Passes ∧ member.id = id

/-- An error comes with the map as it was. -/
def Atomic {α : Type} (s : ClusterManager) (done : Except ClusterError α × ClusterManager) : Prop :=
  ∀ error, done.1 = .error error → done.2.members = s.members

/-- The members that `recover` has inserted when it returns. -/
def inserted (members : List Member) : List Member :=
  members.takeWhile fun member => member.Passes

/-- The last member of an id. -/
def lastOf (id : Nat) (members : List Member) : Option Member :=
  members.reverse.find? fun member => member.id = id

/-- The calls that cannot both change the map and return an error: an update passes with its new
URLs, and a snapshot passes whole or puts back what is stored already up to its first member that does
not pass. -/
def Checked (s : ClusterManager) : ClusterCall → Prop
  | .updateMember id peerUrls =>
    ∀ member, s.members id = some member → ({ member with peerUrls := peerUrls } : Member).Passes
  | .recover members =>
    (∀ member ∈ members, member.Passes) ∨
      ∀ member ∈ inserted members, lastOf member.id (inserted members) = s.members member.id
  | _ => True

namespace Valid

variable {s : ClusterManager}

theorem new {clusterId memberId : Nat} (isNew : ClusterManager.new clusterId memberId = .ok s) :
    Valid s := by
  unfold ClusterManager.new at isNew
  split_ifs at isNew
  cases isNew
  exact fun id member found => by cases found

/-- A member that passes is written under its own id. -/
theorem put (valid : Valid s) {id : Nat} {member : Member} (passes : member.Passes)
    (own : member.id = id) : Valid (s.put id member) := by
  intro other found isFound
  rcases update_eq_some_iff.mp isFound with ⟨rfl, rfl⟩ | ⟨_, old⟩
  · exact ⟨passes, own⟩
  · exact valid other found old

theorem remove (valid : Valid s) (id : Nat) :
    Valid { s with members := Function.update s.members id none } :=
  fun other found isFound => valid other found (update_none_eq_some_iff.mp isFound).2

theorem addMemberWithId (valid : Valid s) (memberId : Nat) (name : Text)
    (peerUrls clientUrls : List Text) (isLearner : Bool) :
    Valid (s.addMemberWithId memberId name peerUrls clientUrls isLearner).2 := by
  unfold ClusterManager.addMemberWithId
  dsimp only
  split
  · exact valid
  · split_ifs
    · exact valid
    · exact valid.put ‹_› rfl

theorem removeMember (valid : Valid s) (id : Nat) : Valid (s.removeMember id).2 := by
  unfold ClusterManager.removeMember
  split_ifs
  · exact valid
  · split
    · exact valid.remove id
    · exact valid

theorem promoteMember (valid : Valid s) (id : Nat) : Valid (s.promoteMember id).2 := by
  unfold ClusterManager.promoteMember
  split
  · rename_i member found
    split_ifs
    · exact valid.put (Member.passes_isLearner (valid id member found).1) (valid id member found).2
    · exact valid
  · exact valid

theorem demoteMember (valid : Valid s) (id : Nat) : Valid (s.demoteMember id).2 := by
  unfold ClusterManager.demoteMember
  split_ifs
  · exact valid
  · split
    · rename_i member found
      split_ifs
      · exact valid
      · exact valid.put (Member.passes_isLearner (valid id member found).1) (valid id member found).2
    · exact valid

/-- The members that an unfinished `recover` leaves behind pass. -/
theorem recover (members : List Member) : ∀ {s : ClusterManager}, Valid s →
    Valid (s.recover members).2 := by
  induction members with
  | nil => exact fun valid => valid
  | cons member rest ih =>
    intro s valid
    rw [ClusterManager.recover]
    split
    · exact valid
    · exact ih (valid.put ‹_› rfl)

/-- The record has its new URLs, whatever is returned. -/
theorem updateMember_iff (valid : Valid s) {id : Nat} {peerUrls : List Text} :
    Valid (s.updateMember id peerUrls).2 ↔
      ∀ member, s.members id = some member → ({ member with peerUrls := peerUrls } : Member).Passes := by
  unfold ClusterManager.updateMember
  cases found : s.members id with
  | none => exact ⟨(fun _ member none => by cases none), fun _ => valid⟩
  | some member =>
    dsimp only
    constructor
    · rintro after _ ⟨⟩
      split at after
      · exact (after id _ (s.put_self id _)).1
      · exact (after id _ (s.put_self id _)).1
    · intro passes
      have kept := valid.put (passes member rfl) (valid id member found).2
      split
      · exact kept
      · exact kept

end Valid

section Errors

variable {α : Type} {s : ClusterManager}

theorem Atomic.error (error : ClusterError) :
    Atomic s ((.error error, s) : Except ClusterError α × ClusterManager) :=
  fun _ _ => rfl

theorem Atomic.ok (value : α) (t : ClusterManager) :
    Atomic s ((.ok value, t) : Except ClusterError α × ClusterManager) :=
  fun _ fails => by cases fails

theorem atomic_outcome_iff {done : Except ClusterError α × ClusterManager} :
    Atomic s (outcome done) ↔ Atomic s done := by
  obtain ⟨result, t⟩ := done
  cases result with
  | ok value => exact ⟨fun _ => .ok value t, fun _ => .ok () t⟩
  | error error =>
    exact ⟨fun atomic _ _ => atomic error rfl, fun atomic _ _ => atomic error rfl⟩

theorem atomic_addMemberWithId (memberId : Nat) (name : Text) (peerUrls clientUrls : List Text)
    (isLearner : Bool) :
    Atomic s (s.addMemberWithId memberId name peerUrls clientUrls isLearner) := by
  unfold ClusterManager.addMemberWithId
  dsimp only
  split
  · exact .error _
  · split_ifs
    · exact .error _
    · exact .ok _ _

theorem atomic_removeMember (id : Nat) : Atomic s (s.removeMember id) := by
  unfold ClusterManager.removeMember
  split_ifs
  · exact .error _
  · split
    · exact .ok _ _
    · exact .error _

theorem atomic_promoteMember (id : Nat) : Atomic s (s.promoteMember id) := by
  unfold ClusterManager.promoteMember
  split
  · split_ifs
    · exact .ok _ _
    · exact .error _
  · exact .error _

theorem atomic_demoteMember (id : Nat) : Atomic s (s.demoteMember id) := by
  unfold ClusterManager.demoteMember
  split_ifs
  · exact .error _
  · split
    · split_ifs
      · exact .error _
      · exact .ok _ _
    · exact .error _

/-- A failed update of a valid record has changed it: the URLs it had do pass. -/
theorem atomic_updateMember_iff (valid : Valid s) {id : Nat} {peerUrls : List Text} :
    Atomic s (s.updateMember id peerUrls) ↔
      ∀ member, s.members id = some member → ({ member with peerUrls := peerUrls } : Member).Passes := by
  unfold ClusterManager.updateMember
  cases found : s.members id with
  | none => exact ⟨(fun _ member none => by cases none), fun _ => .error _⟩
  | some member =>
    dsimp only
    split
    · rename_i error fails
      constructor
      · intro atomic
        have same : (s.put id { member with peerUrls := peerUrls }).members id = s.members id :=
          congrFun (atomic error rfl) id
        have stored : member.Passes := (valid id member found).1
        have kept : ({ member with peerUrls := peerUrls } : Member) = member := by
          rw [found, s.put_self] at same
          exact Option.some.inj same
        rw [kept, stored] at fails
        cases fails
      · intro passes
        have ok : ({ member with peerUrls := peerUrls } : Member).validate = .ok () := passes member rfl
        rw [fails] at ok
        cases ok
    · rename_i passes
      refine ⟨?_, fun _ => .ok _ _⟩
      rintro _ _ ⟨⟩
      exact passes

end Errors

/-! ### The loop of `recover` -/

theorem inserted_cons {member : Member} {rest : List Member} (passes : member.Passes) :
    inserted (member :: rest) = member :: inserted rest :=
  List.takeWhile_cons_of_pos (decide_eq_true passes)

theorem lastOf_cons (id : Nat) (member : Member) (rest : List Member) :
    lastOf id (member :: rest) =
      (lastOf id rest).or (if member.id = id then some member else none) := by
  unfold lastOf
  rw [List.reverse_cons, List.find?_append, List.find?_singleton]
  simp only [decide_eq_true_eq]

theorem lastOf_eq_none {id : Nat} {members : List Member}
    (absent : ∀ member ∈ members, member.id ≠ id) : lastOf id members = none := by
  refine List.find?_eq_none.mpr fun member isIn => ?_
  rw [decide_eq_true_eq]
  exact absent member (List.mem_reverse.mp isIn)

/-- `recover` returns `Ok` exactly if all members pass. -/
theorem recover_eq_ok_iff (members : List Member) : ∀ {s : ClusterManager},
    (s.recover members).1 = .ok () ↔ ∀ member ∈ members, member.Passes := by
  induction members with
  | nil => exact ⟨fun _ member isIn => absurd isIn List.not_mem_nil, fun _ => rfl⟩
  | cons member rest ih =>
    intro s
    rw [ClusterManager.recover, List.forall_mem_cons]
    split
    · rename_i error fails
      refine ⟨(fun none => by cases none), fun all => ?_⟩
      have passes : member.validate = .ok () := all.1
      rw [fails] at passes
      cases passes
    · rename_i passes
      exact ih.trans ⟨fun others => ⟨passes, others⟩, fun all => all.2⟩

/-- Under every id `recover` leaves the last member of that id it has inserted, or else the record
from before. -/
theorem recover_members (members : List Member) : ∀ {s : ClusterManager} (id : Nat),
    (s.recover members).2.members id = (lastOf id (inserted members)).or (s.members id) := by
  induction members with
  | nil => exact fun id => rfl
  | cons member rest ih =>
    intro s id
    rw [ClusterManager.recover]
    split
    · rename_i error fails
      have stops : inserted (member :: rest) = [] := by
        refine List.takeWhile_cons_of_neg fun passes => ?_
        have ok : member.validate = .ok () := of_decide_eq_true passes
        rw [fails] at ok
        cases ok
      rw [stops]
      rfl
    · rename_i passes
      rw [ih id, inserted_cons passes, lastOf_cons, Option.or_assoc]
      congr 1
      change Function.update s.members member.id (some member) id = _
      rw [Function.update_apply]
      by_cases here : id = member.id
      · rw [if_pos here, if_pos here.symm]
        rfl
      · rw [if_neg here, if_neg (Ne.symm here)]
        rfl

/-- The map is as before if every inserted member puts back what was stored. -/
theorem recover_members_eq_iff {s : ClusterManager} {members : List Member} :
    (s.recover members).2.members = s.members ↔
      ∀ member ∈ inserted members, lastOf member.id (inserted members) = s.members member.id := by
  constructor
  · intro same member isIn
    have here := congrFun same member.id
    rw [recover_members] at here
    cases last : lastOf member.id (inserted members) with
    | none =>
      refine absurd rfl (?_ : ¬ member.id = member.id)
      have none := List.find?_eq_none.mp last member (List.mem_reverse.mpr isIn)
      rwa [decide_eq_true_eq] at none
    | some found =>
      rw [last] at here
      exact here
  · intro back
    funext id
    rw [recover_members]
    by_cases some : ∃ member ∈ inserted members, member.id = id
    · obtain ⟨member, isIn, rfl⟩ := some
      rw [back member isIn, Option.or_self]
    · push Not at some
      rw [lastOf_eq_none some, Option.none_or]

theorem atomic_recover_iff {s : ClusterManager} {members : List Member} :
    Atomic s (s.recover members) ↔ Checked s (.recover members) := by
  change _ ↔ _ ∨ _
  rw [← recover_members_eq_iff, ← recover_eq_ok_iff]
  constructor
  · intro atomic
    cases returned : (s.recover members).1 with
    | ok value => exact Or.inl rfl
    | error error => exact Or.inr (atomic error returned)
  · rintro (ok | same) error fails
    · rw [ok] at fails
      cases fails
    · exact same

/-! ### Runs -/

/-- **An error leaves a valid map alone exactly if the call is `Checked`.** -/
theorem atomic_perform_iff {s : ClusterManager} (valid : Valid s) (call : ClusterCall) :
    Atomic s (s.perform call) ↔ Checked s call := by
  cases call with
  | addMember uuid name peerUrls clientUrls isLearner =>
    have added := @atomic_addMemberWithId s (ClusterManager.generateMemberId uuid) name peerUrls
      clientUrls isLearner
    exact iff_of_true (atomic_outcome_iff.mpr added) trivial
  | addMemberWithId memberId name peerUrls clientUrls isLearner =>
    exact iff_of_true (atomic_outcome_iff.mpr
      (atomic_addMemberWithId memberId name peerUrls clientUrls isLearner)) trivial
  | removeMember id => exact iff_of_true (atomic_removeMember id) trivial
  | updateMember id peerUrls => exact atomic_outcome_iff.trans (atomic_updateMember_iff valid)
  | promoteMember id => exact iff_of_true (atomic_outcome_iff.mpr (atomic_promoteMember id)) trivial
  | demoteMember id => exact iff_of_true (atomic_outcome_iff.mpr (atomic_demoteMember id)) trivial
  | recover members => exact atomic_recover_iff
  | setLeader id => exact iff_of_true (.ok () _) trivial

/-- **A call keeps the map valid if it is `Checked`.** -/
theorem valid_perform {s : ClusterManager} (valid : Valid s) {call : ClusterCall}
    (checked : Checked s call) : Valid (s.perform call).2 := by
  cases call with
  | addMember uuid name peerUrls clientUrls isLearner =>
    exact valid.addMemberWithId (ClusterManager.generateMemberId uuid) name peerUrls clientUrls isLearner
  | addMemberWithId memberId name peerUrls clientUrls isLearner =>
    exact valid.addMemberWithId memberId name peerUrls clientUrls isLearner
  | removeMember id => exact valid.removeMember id
  | updateMember id peerUrls => exact valid.updateMember_iff.mpr checked
  | promoteMember id => exact valid.promoteMember id
  | demoteMember id => exact valid.demoteMember id
  | recover members => exact valid.recover members
  | setLeader id => exact valid

theorem performAll_take_succ {s : ClusterManager} {calls : List ClusterCall} {i : Nat}
    {call : ClusterCall} (isCall : calls[i]? = some call) :
    s.performAll (calls.take (i + 1)) = ((s.performAll (calls.take i)).perform call).2 := by
  rw [List.take_add_one, isCall]
  exact List.foldl_append ..

theorem valid_performAll {s : ClusterManager} (valid : Valid s) {calls : List ClusterCall}
    (checked : ∀ i call, calls[i]? = some call → Checked (s.performAll (calls.take i)) call) (i : Nat) :
    Valid (s.performAll (calls.take i)) := by
  induction i with
  | zero => exact valid
  | succ i ih =>
    cases isCall : calls[i]? with
    | none =>
      have done : calls.length ≤ i := List.getElem?_eq_none_iff.mp isCall
      rwa [List.take_of_length_le (by omega), ← List.take_of_length_le done]
    | some call =>
      rw [performAll_take_succ isCall]
      exact valid_perform ih (checked i call isCall)

/-- **Members stay valid and errors change nothing, exactly if every call of the run is `Checked`.** -/
theorem membership_kept_iff {clusterId memberId : Nat} {s : ClusterManager}
    (isNew : ClusterManager.new clusterId memberId = .ok s) (calls : List ClusterCall) :
    ((∀ i, Valid (s.performAll (calls.take i))) ∧
        ∀ i call, calls[i]? = some call →
          Atomic (s.performAll (calls.take i)) ((s.performAll (calls.take i)).perform call)) ↔
      ∀ i call, calls[i]? = some call → Checked (s.performAll (calls.take i)) call := by
  constructor
  · rintro ⟨valid, atomic⟩ i call isCall
    exact (atomic_perform_iff (valid i) call).mp (atomic i call isCall)
  · intro checked
    have valid := valid_performAll (Valid.new isNew) checked
    exact ⟨valid, fun i call isCall => (atomic_perform_iff (valid i) call).mpr (checked i call isCall)⟩

/-- A manager of cluster 1 with the member `n1`. -/
def joined : List ClusterCall :=
  [.addMemberWithId 1 "n1".toList ["http://n1:2380".toList] [] false]

theorem membership_kept_joined :
    (∀ i, Valid (ClusterManager.performAll ⟨1, 1, fun _ => none, 0⟩ (joined.take i))) ∧
      ∀ i call, joined[i]? = some call →
        Atomic (ClusterManager.performAll ⟨1, 1, fun _ => none, 0⟩ (joined.take i))
          ((ClusterManager.performAll ⟨1, 1, fun _ => none, 0⟩ (joined.take i)).perform call) := by
  refine (@membership_kept_iff 1 1 _ rfl joined).mpr ?_
  intro i call isCall
  match i with
  | 0 =>
    cases isCall
    trivial
  | i + 1 => cases isCall

/-- An update with the URL `bad` returns an error, and the record with that URL stays in the map. -/
theorem bad_update_stays :
    let s := ClusterManager.performAll ⟨1, 1, fun _ => none, 0⟩ joined
    let done := s.updateMember 1 ["bad".toList]
    done.1 = .error (.invalidConfig "Invalid peer URL: bad") ∧ done.2.members ≠ s.members ∧
      ¬ Valid done.2 := by
  refine ⟨by decide, fun same => ?_, fun valid => ?_⟩
  · have here := congrFun same 1
    revert here
    decide
  · have passes := (valid 1 ⟨1, "n1".toList, ["bad".toList], [], false⟩ (by decide)).1
    revert passes
    decide

end Rusd.Membership
