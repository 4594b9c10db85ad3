/-
**What the calls of the auth store change.**

Each call is about one account or one role. An account answers a permission check and a login from its own
entry and from those of its roles, so only calls about these change the answers. The revision counts the
changes: as long as it stays the same, users and roles do.

* `Change`, `perform_change` — what a call can do to the store.
* `Untouched` — the entries of an account and of its roles are as they were.
* `answers_change_named` — a run after which a permission check or a login of an account answers differently
  has a call about the account or about one of its roles.
* `perform_counts` — a call counts one change, or leaves users and roles as they are.
* `revision_detects` — one revision, one set of users and roles.
-/

import Rusd.Auth.Login
import Rusd.Auth.Permission

namespace Rusd.Auth

/-- The account that a call is about. -/
def AuthCall.account : AuthCall → Option String
  | .userAdd name _ _ _ => some name
  | .userDelete name => some name
  | .userChangePassword name _ _ => some name
  | .userGrantRole name _ => some name
  | .userRevokeRole name _ => some name
  | _ => none

/-- The existing role that a call is about. -/
def AuthCall.role : AuthCall → Option String
  | .roleDelete name => some name
  | .roleGrantPermission name _ => some name
  | .roleRevokePermission name _ _ => some name
  | _ => none

namespace AuthStore

variable (bcrypt : Bcrypt)

/-- The roles of an account; of no account, none. -/
def rolesOf (s : AuthStore) (name : String) : List String :=
  match s.users name with
  | some user => user.roles
  | none => []

/-- The 64-bit counter that `get_revision` reads. -/
def getRevision (s : AuthStore) : Int := i64OfNat (i64ToNat s.revision)

/-! ### What a call can do -/

/-- The stores that a call can leave behind. -/
inductive Change (s : AuthStore) (call : AuthCall) : AuthStore → Prop
  | flag (enabled : Bool) : Change s call { s with enabled := enabled }
  | user (name : String) (entry : Option User) (about : call.account = some name) : Change s call
      { s with users := Function.update s.users name entry, revision := s.revision + 1 }
  | role (name : String) (role : Role) (about : call.role = some name ∨ s.roles name = none) :
      Change s call (s.putRole name role)
  | roleGone (name : String) (about : call.role = some name) : Change s call { s with
      users := fun other => (s.users other).map fun user =>
        { user with roles := user.roles.filter (· ≠ name) }
      roles := Function.update s.roles name none
      revision := s.revision + 1 }

theorem Change.refl (s : AuthStore) (call : AuthCall) : Change s call s := .flag s.enabled

/-- **What a call can do**, case by case. -/
theorem perform_change (s : AuthStore) (call : AuthCall) : Change s call (s.perform bcrypt call).2 := by
  cases call with
  | userAdd name password noPassword salt =>
    change Change s _ (s.userAdd bcrypt name password noPassword salt).2
    unfold userAdd
    split
    · exact .refl _ _
    · split
      · exact .refl _ _
      · exact .user name _ rfl
  | userDelete name =>
    change Change s _ (s.userDelete name).2
    unfold userDelete
    split
    · exact .refl _ _
    · split
      · exact .refl _ _
      · exact .user name none rfl
  | userChangePassword name password salt =>
    change Change s _ (s.userChangePassword bcrypt name password salt).2
    unfold userChangePassword
    split
    · exact .refl _ _
    · split
      · exact .refl _ _
      · split
        · exact .refl _ _
        · exact .user name _ rfl
  | userGrantRole name role =>
    change Change s _ (s.userGrantRole name role).2
    unfold userGrantRole
    split
    · split
      · exact .refl _ _
      · split
        · exact .refl _ _
        · exact .user name _ rfl
    · exact .refl _ _
  | userRevokeRole name role =>
    change Change s _ (s.userRevokeRole name role).2
    unfold userRevokeRole
    split
    · exact .refl _ _
    · exact .user name _ rfl
  | roleAdd name =>
    change Change s _ (s.roleAdd name).2
    unfold roleAdd
    split
    · exact .refl _ _
    case isFalse absent => exact .role name _ (.inr (by simpa using absent))
  | roleDelete name =>
    change Change s _ (s.roleDelete name).2
    unfold roleDelete
    split
    · exact .refl _ _
    · split
      · exact .refl _ _
      · exact .roleGone name rfl
  | roleGrantPermission name perm =>
    change Change s _ (s.roleGrantPermission name perm).2
    unfold roleGrantPermission
    split
    · exact .refl _ _
    · split
      · exact .refl _ _
      · exact .role name _ (.inl rfl)
  | roleRevokePermission name key rangeEnd =>
    change Change s _ (s.roleRevokePermission name key rangeEnd).2
    unfold roleRevokePermission
    split
    · exact .refl _ _
    case h_2 role found =>
      dsimp only
      split
      · exact .role name _ (.inl rfl)
      case isFalse same =>
        -- nothing was removed, and the entry is written as it was
        have all := (List.length_filter_eq_length_iff ..).mp (not_not.mp same)
        rw [List.filter_eq_self.mpr all]
        have kept : Function.update s.roles name (some role) = s.roles := by
          rw [← found, Function.update_eq_self]
        rw [kept]
        exact .refl _ _
  | enable =>
    change Change s _ s.enable.2
    unfold enable
    split
    · exact .refl _ _
    · exact .flag true
  | disable => exact .flag false

/-! ### The answers of an account -/

/-- The account and its roles are in `t` as in `s`. -/
structure Untouched (s t : AuthStore) (name : String) : Prop where
  user : t.users name = s.users name
  roles : ∀ role ∈ s.rolesOf name, t.roles role = s.roles role
  secret : t.jwtSecret = s.jwtSecret

variable {s t u : AuthStore} {name : String}

theorem Untouched.trans (first : Untouched s t name) (second : Untouched t u name) : Untouched s u name := by
  have same : t.rolesOf name = s.rolesOf name := by
    rw [rolesOf, rolesOf, first.user]
  refine ⟨second.user.trans first.user, fun role held => ?_, second.secret.trans first.secret⟩
  rw [second.roles role (same ▸ held), first.roles role held]

/-- **A call about something else** leaves an account and its roles as they are. -/
theorem Change.untouched {call : AuthCall} (change : Change s call t) (kept : Integrity s)
    (notAccount : call.account ≠ some name) (notRoles : ∀ role ∈ s.rolesOf name, call.role ≠ some role) :
    Untouched s t name := by
  cases change with
  | flag enabled => exact ⟨rfl, fun _ _ => rfl, rfl⟩
  | user other entry about =>
    have differs : name ≠ other := fun same => notAccount (same ▸ about)
    exact ⟨Function.update_of_ne differs _ _, fun _ _ => rfl, rfl⟩
  | role other role about =>
    refine ⟨rfl, fun held member => Function.update_of_ne ?_ _ _, rfl⟩
    rintro rfl
    rcases about with about | absent
    · exact notRoles held member about
    · -- the roles of an account exist
      unfold rolesOf at member
      split at member
      case h_1 user found =>
        have there := kept.rolesExist name user found held member
        rw [absent] at there
        cases there
      case h_2 => cases member
  | roleGone other about =>
    have apart : ∀ held ∈ s.rolesOf name, held ≠ other := fun held member same =>
      notRoles held member (same ▸ about)
    refine ⟨?_, fun held member => Function.update_of_ne (apart held member) _ _, rfl⟩
    unfold rolesOf at apart
    dsimp only
    cases found : s.users name with
    | none => rfl
    | some user =>
      simp only [found] at apart
      have all : ∀ held ∈ user.roles, decide (held ≠ other) = true := fun held member =>
        decide_eq_true (apart held member)
      rw [Option.map_some, List.filter_eq_self.mpr all]

/-- A run without a call about the account or its roles. -/
theorem untouched_performAll (kept : Integrity s) (calls : List AuthCall)
    (others : ∀ call ∈ calls, call.account ≠ some name ∧ ∀ role ∈ s.rolesOf name, call.role ≠ some role) :
    Untouched s (s.performAll bcrypt calls) name := by
  induction calls generalizing s with
  | nil => exact ⟨rfl, fun _ _ => rfl, rfl⟩
  | cons call rest ih =>
    obtain ⟨first, others⟩ := List.forall_mem_cons.mp others
    have step := (perform_change bcrypt s call).untouched kept first.1 first.2
    have same : (s.perform bcrypt call).2.rolesOf name = s.rolesOf name := by
      rw [rolesOf, rolesOf, step.user]
    exact step.trans (ih (kept.perform bcrypt call) (same ▸ others))

/-- The answer to a permission check of an account depends on its entry and those of its roles. -/
theorem Untouched.checkPermission (untouched : Untouched s t name) (key rangeEnd : Bytes)
    (permType : PermissionType) :
    t.checkPermission name key rangeEnd permType = s.checkPermission name key rangeEnd permType := by
  obtain ⟨user, roles, -⟩ := untouched
  unfold rolesOf at roles
  unfold AuthStore.checkPermission
  rw [user]
  split
  · rfl
  · cases found : s.users name with
    | none => rfl
    | some user =>
      simp only [found] at roles
      have each : ∀ held ∈ user.roles, t.roles held = s.roles held := roles
      dsimp only
      refine congrArg Except.ok ?_
      rw [Bool.eq_iff_iff, List.any_eq_true, List.any_eq_true]
      refine exists_congr fun held => and_congr_right fun member => ?_
      rw [each held member]

theorem Untouched.authenticate (untouched : Untouched s t name) (encode : TokenEncoder) (password : String)
    (now : Nat) : t.authenticate bcrypt encode name password now =
      s.authenticate bcrypt encode name password now := by
  unfold AuthStore.authenticate
  rw [untouched.user, untouched.secret]

/-- **Answers change only by calls about the account.** In every run from the creation of the store on: where
a permission check or a login of an account answers differently after some further calls, one of these is
about the account, or changes one of the roles that the account had before them. -/
theorem answers_change_named (encode : TokenEncoder) (secret : Bytes) (calls later : List AuthCall)
    (username : String)
    (changed : (∃ key rangeEnd permType,
        (((new secret).performAll bcrypt calls).performAll bcrypt later).checkPermission username key rangeEnd
            permType ≠
          ((new secret).performAll bcrypt calls).checkPermission username key rangeEnd permType) ∨
      ∃ password now,
        (((new secret).performAll bcrypt calls).performAll bcrypt later).authenticate bcrypt encode username
            password now ≠
          ((new secret).performAll bcrypt calls).authenticate bcrypt encode username password now) :
    ∃ call ∈ later, call.account = some username ∨
      ∃ role ∈ ((new secret).performAll bcrypt calls).rolesOf username, call.role = some role := by
  by_contra none
  have kept := (Integrity.new secret).performAll bcrypt calls
  have untouched : Untouched ((new secret).performAll bcrypt calls)
      (((new secret).performAll bcrypt calls).performAll bcrypt later) username :=
    untouched_performAll bcrypt kept later fun call member =>
      ⟨fun about => none ⟨call, member, .inl about⟩,
        fun role held about => none ⟨call, member, .inr ⟨role, held, about⟩⟩⟩
  rcases changed with ⟨key, rangeEnd, permType, differs⟩ | ⟨password, now, differs⟩
  · exact differs (untouched.checkPermission key rangeEnd permType)
  · exact differs (untouched.authenticate bcrypt encode password now)

/-- A reader without a permission. -/
def bobCalls : List AuthCall :=
  [.roleAdd "reader", .userAdd "bob" "secret" false 0, .userGrantRole "bob" "reader"]

/-- A permission for its role gives `bob` access: the call is about the role. -/
theorem bob_reads :
    ∃ call ∈ [AuthCall.roleGrantPermission "reader" ⟨.read, [97], []⟩], call.account = some "bob" ∨
      ∃ role ∈ ((AuthStore.new []).performAll clearBcrypt bobCalls).rolesOf "bob", call.role = some role :=
  answers_change_named clearBcrypt (jwtEncode cryptoProvider) [] bobCalls
    [.roleGrantPermission "reader" ⟨.read, [97], []⟩] "bob" (.inl ⟨[97], [], .read, by
      have after : (((AuthStore.new []).performAll clearBcrypt bobCalls).performAll clearBcrypt
          [.roleGrantPermission "reader" ⟨.read, [97], []⟩]).checkPermission "bob" [97] [] .read =
            .ok true := rfl
      have before : ((AuthStore.new []).performAll clearBcrypt bobCalls).checkPermission "bob" [97] [] .read =
          .ok false := rfl
      rw [after, before]
      exact fun same => by cases same⟩)

/-! ### The revision -/

/-- **A call counts one change, or none**; where it counts none, users and roles are as they were. -/
theorem perform_counts (s : AuthStore) (call : AuthCall) :
    (s.perform bcrypt call).2.revision = s.revision + 1 ∨
      (s.perform bcrypt call).2.revision = s.revision ∧ (s.perform bcrypt call).2.users = s.users ∧
        (s.perform bcrypt call).2.roles = s.roles := by
  have change := perform_change bcrypt s call
  generalize (s.perform bcrypt call).2 = t at change ⊢
  cases change with
  | flag enabled => exact .inr ⟨rfl, rfl, rfl⟩
  | user name entry about => exact .inl rfl
  | role name role about => exact .inl rfl
  | roleGone name about => exact .inl rfl

/-- Over a run. -/
theorem performAll_counts (s : AuthStore) (calls : List AuthCall) :
    s.revision ≤ (s.performAll bcrypt calls).revision ∧
      (s.performAll bcrypt calls).revision ≤ s.revision + calls.length ∧
      ((s.performAll bcrypt calls).revision = s.revision → (s.performAll bcrypt calls).users = s.users ∧
        (s.performAll bcrypt calls).roles = s.roles) := by
  induction calls generalizing s with
  | nil => exact ⟨le_refl _, (add_zero _).ge, fun _ => ⟨rfl, rfl⟩⟩
  | cons call rest ih =>
    obtain ⟨rises, few, same⟩ := ih (s.perform bcrypt call).2
    have run : s.performAll bcrypt (call :: rest) = (s.perform bcrypt call).2.performAll bcrypt rest := rfl
    rw [run, List.length_cons]
    push_cast
    rcases perform_counts bcrypt s call with counted | ⟨none, users, roles⟩
    · refine ⟨by omega, by omega, fun equal => ?_⟩
      omega
    · refine ⟨by omega, by omega, fun equal => ?_⟩
      obtain ⟨sameUsers, sameRoles⟩ := same (equal.trans none.symm)
      exact ⟨sameUsers.trans users, sameRoles.trans roles⟩

/-- Equal counters are equal revisions up to multiples of two to the 64th. -/
theorem getRevision_eq (same : t.getRevision = s.getRevision) :
    t.revision % 2 ^ 64 = s.revision % 2 ^ 64 := by
  unfold getRevision i64OfNat i64ToNat at same
  split_ifs at same <;> omega

/-- **The revision detects changes.** In every run of fewer than two to the 64th calls after which
`get_revision` gives what it gave before, users and roles are the same before, after, and after each call in
between. -/
theorem revision_detects (s : AuthStore) (calls : List AuthCall) (few : calls.length < 2 ^ 64)
    (same : (s.performAll bcrypt calls).getRevision = s.getRevision) (seen : List AuthCall)
    (part : seen <+: calls) :
    (s.performAll bcrypt seen).users = s.users ∧ (s.performAll bcrypt seen).roles = s.roles := by
  obtain ⟨rest, rfl⟩ := part
  have run : s.performAll bcrypt (seen ++ rest) = (s.performAll bcrypt seen).performAll bcrypt rest :=
    List.foldl_append ..
  have modulo := getRevision_eq same
  obtain ⟨rises, bounded, -⟩ := performAll_counts bcrypt s (seen ++ rest)
  have equal : (s.performAll bcrypt (seen ++ rest)).revision = s.revision := by omega
  obtain ⟨early, -, unchanged⟩ := performAll_counts bcrypt s seen
  obtain ⟨late, -, -⟩ := performAll_counts bcrypt (s.performAll bcrypt seen) rest
  rw [run] at equal
  exact unchanged (by omega)

/-- A user that exists is not added again. -/
theorem added_once_detected :
    ((AuthStore.new []).performAll clearBcrypt [.userAdd "root" "secret" false 0]).users =
        (AuthStore.new []).users ∧
      ((AuthStore.new []).performAll clearBcrypt [.userAdd "root" "secret" false 0]).roles =
        (AuthStore.new []).roles :=
  revision_detects clearBcrypt (.new []) [.userAdd "root" "secret" false 0, .enable] (by decide) (by decide)
    [.userAdd "root" "secret" false 0] ⟨[.enable], rfl⟩

end AuthStore

end Rusd.Auth
