/-
**Users, roles and permissions.**

`AuthStore` keeps two maps that refer to each other: a user lists the names of its roles. The
operations return an error or change the maps and the revision.

* `Integrity` — every listed role exists, nothing is listed twice, every record stands under its own
  name, and the user and the role `root` are there.
* `performed_error` — an operation that returns an error leaves the store as it was.
* `auth_integrity` — both hold in every run from a new store.
-/

import Rusd.Lib.Bytes
import Rusd.Lib.Tables

namespace Rusd.Auth

/-- Permission type for RBAC. -/
inductive PermissionType
  | read
  | write
  | readWrite
  deriving DecidableEq

namespace PermissionType

def allowsRead : PermissionType → Bool
  | read | readWrite => true
  | write => false

def allowsWrite : PermissionType → Bool
  | write | readWrite => true
  | read => false

end PermissionType

/-- A single permission within a role. -/
structure Permission where
  permType : PermissionType
  key : Bytes
  rangeEnd : Bytes
  deriving DecidableEq

/-- A role with associated permissions. -/
structure Role where
  name : String
  permissions : List Permission
  deriving DecidableEq

/-- A user with associated roles. -/
structure User where
  name : String
  passwordHash : String
  roles : List String
  deriving DecidableEq

/-- Auth-related errors. -/
inductive AuthError
  | userNotFound (name : String)
  | roleNotFound (name : String)
  | userAlreadyExists (name : String)
  | roleAlreadyExists (name : String)
  | invalidCredentials
  | authAlreadyEnabled
  | invalidPassword (text : String)
  | jwtError (text : String)
  | bcryptError
  | internal (text : String)
  deriving DecidableEq

def AuthError.display : AuthError → String
  | userNotFound name => "User not found: " ++ name
  | roleNotFound name => "Role not found: " ++ name
  | userAlreadyExists name => "User already exists: " ++ name
  | roleAlreadyExists name => "Role already exists: " ++ name
  | invalidCredentials => "Invalid credentials"
  | authAlreadyEnabled => "Auth is already enabled"
  | invalidPassword text => "Invalid password: " ++ text
  | jwtError text => "JWT error: " ++ text
  | bcryptError => "Bcrypt error"
  | internal text => "Internal error: " ++ text

/-- The password hashing library. `hash` draws a salt; `none` is an error. -/
structure Bcrypt where
  hash : Nat → String → Option String
  verify : String → String → Option Bool

/-- Authentication and authorization manager. -/
structure AuthStore where
  users : String → Option User
  roles : String → Option Role
  enabled : Bool
  jwtSecret : Bytes
  revision : Int

namespace AuthStore

/-- A new store; `setup_defaults` has created the root role with full access and the root user
without a password. -/
def new (secret : Bytes) : AuthStore where
  users := Function.update (fun _ => none) "root" (some ⟨"root", "", []⟩)
  roles := Function.update (fun _ => none) "root" (some ⟨"root", [⟨.readWrite, [], [0]⟩]⟩)
  enabled := false
  jwtSecret := secret
  revision := 1

/-- Write a user, as one change. -/
def putUser (s : AuthStore) (name : String) (user : User) : AuthStore :=
  { s with users := Function.update s.users name (some user), revision := s.revision + 1 }

/-- Write a role, as one change. -/
def putRole (s : AuthStore) (name : String) (role : Role) : AuthStore :=
  { s with roles := Function.update s.roles name (some role), revision := s.revision + 1 }

/-- Enables authentication. -/
def enable (s : AuthStore) : Except AuthError Unit × AuthStore :=
  if s.enabled then (.error .authAlreadyEnabled, s) else (.ok (), { s with enabled := true })

/-- Disables authentication. -/
def disable (s : AuthStore) : Except AuthError Unit × AuthStore :=
  (.ok (), { s with enabled := false })

variable (bcrypt : Bcrypt)

/-- Adds a new user. -/
def userAdd (s : AuthStore) (name password : String) (noPassword : Bool) (salt : Nat) :
    Except AuthError Unit × AuthStore :=
  if (s.users name).isSome then (.error (.userAlreadyExists name), s)
  else
    match if noPassword then some "" else bcrypt.hash salt password with
    | none => (.error .bcryptError, s)
    | some passwordHash => (.ok (), s.putUser name ⟨name, passwordHash, []⟩)

/-- Deletes a user. -/
def userDelete (s : AuthStore) (name : String) : Except AuthError Unit × AuthStore :=
  if name = "root" then (.error (.internal "Cannot delete root user"), s)
  else
    match s.users name with
    | none => (.error (.userNotFound name), s)
    | some _ => (.ok (),
        { s with users := Function.update s.users name none, revision := s.revision + 1 })

/-- Changes a user's password. -/
def userChangePassword (s : AuthStore) (name password : String) (salt : Nat) :
    Except AuthError Unit × AuthStore :=
  if password = "" then (.error (.invalidPassword "Password cannot be empty"), s)
  else
    match s.users name with
    | none => (.error (.userNotFound name), s)
    | some user =>
      match bcrypt.hash salt password with
      | none => (.error .bcryptError, s)
      | some passwordHash => (.ok (), s.putUser name { user with passwordHash := passwordHash })

/-- Grants a role to a user. -/
def userGrantRole (s : AuthStore) (name role : String) : Except AuthError Unit × AuthStore :=
  if (s.roles role).isSome then
    match s.users name with
    | none => (.error (.userNotFound name), s)
    | some user =>
      if role ∈ user.roles then (.ok (), s)
      else (.ok (), s.putUser name { user with roles := user.roles ++ [role] })
  else (.error (.roleNotFound role), s)

/-- Revokes a role from a user. -/
def userRevokeRole (s : AuthStore) (name role : String) : Except AuthError Unit × AuthStore :=
  match s.users name with
  | none => (.error (.userNotFound name), s)
  | some user => (.ok (), s.putUser name { user with roles := user.roles.filter (· ≠ role) })

/-- Adds a new role. -/
def roleAdd (s : AuthStore) (name : String) : Except AuthError Unit × AuthStore :=
  if (s.roles name).isSome then (.error (.roleAlreadyExists name), s)
  else (.ok (), s.putRole name ⟨name, []⟩)

/-- Deletes a role, and removes it from all users. -/
def roleDelete (s : AuthStore) (name : String) : Except AuthError Unit × AuthStore :=
  if name = "root" then (.error (.internal "Cannot delete root role"), s)
  else
    match s.roles name with
    | none => (.error (.roleNotFound name), s)
    | some _ => (.ok (), { s with
        users := fun other => (s.users other).map fun user =>
          { user with roles := user.roles.filter (· ≠ name) }
        roles := Function.update s.roles name none
        revision := s.revision + 1 })

/-- Grants a permission to a role. -/
def roleGrantPermission (s : AuthStore) (name : String) (perm : Permission) :
    Except AuthError Unit × AuthStore :=
  match s.roles name with
  | none => (.error (.roleNotFound name), s)
  | some role =>
    -- Avoid duplicates
    if role.permissions.any fun p =>
        p.key = perm.key && p.rangeEnd = perm.rangeEnd && p.permType = perm.permType then (.ok (), s)
    else (.ok (), s.putRole name { role with permissions := role.permissions ++ [perm] })

/-- Revokes a permission from a role. -/
def roleRevokePermission (s : AuthStore) (name : String) (key rangeEnd : Bytes) :
    Except AuthError Unit × AuthStore :=
  match s.roles name with
  | none => (.error (.roleNotFound name), s)
  | some role =>
    let kept := role.permissions.filter fun p => !(p.key = key && p.rangeEnd = rangeEnd)
    let stripped : Role := { role with permissions := kept }
    if kept.length ≠ role.permissions.length then (.ok (), s.putRole name stripped)
    else (.ok (), { s with roles := Function.update s.roles name (some stripped) })

end AuthStore

/-- A call of the store, with the salt drawn for it. -/
inductive AuthCall
  | userAdd (name password : String) (noPassword : Bool) (salt : Nat)
  | userDelete (name : String)
  | userChangePassword (name password : String) (salt : Nat)
  | userGrantRole (name role : String)
  | userRevokeRole (name role : String)
  | roleAdd (name : String)
  | roleDelete (name : String)
  | roleGrantPermission (name : String) (perm : Permission)
  | roleRevokePermission (name : String) (key rangeEnd : Bytes)
  | enable
  | disable

namespace AuthStore

variable (bcrypt : Bcrypt)

def perform (s : AuthStore) : AuthCall → Except AuthError Unit × AuthStore
  | .userAdd name password noPassword salt => s.userAdd bcrypt name password noPassword salt
  | .userDelete name => s.userDelete name
  | .userChangePassword name password salt => s.userChangePassword bcrypt name password salt
  | .userGrantRole name role => s.userGrantRole name role
  | .userRevokeRole name role => s.userRevokeRole name role
  | .roleAdd name => s.roleAdd name
  | .roleDelete name => s.roleDelete name
  | .roleGrantPermission name perm => s.roleGrantPermission name perm
  | .roleRevokePermission name key rangeEnd => s.roleRevokePermission name key rangeEnd
  | .enable => s.enable
  | .disable => s.disable

/-- The store after some calls, one after another. -/
def performAll (s : AuthStore) (calls : List AuthCall) : AuthStore :=
  calls.foldl (fun s call => (s.perform bcrypt call).2) s

end AuthStore

/-! ### Errors change nothing -/

/-- An error comes with the store as it was. -/
def Atomic (s : AuthStore) (done : Except AuthError Unit × AuthStore) : Prop :=
  ∀ error, done.1 = .error error → done.2 = s

theorem Atomic.error {s : AuthStore} (error : AuthError) : Atomic s (.error error, s) :=
  fun _ _ => rfl

theorem Atomic.ok {s : AuthStore} (t : AuthStore) : Atomic s (.ok (), t) :=
  fun _ fails => by cases fails

/-- **An operation that returns an error leaves the store as it was.** -/
theorem atomic_perform (bcrypt : Bcrypt) (s : AuthStore) (call : AuthCall) :
    Atomic s (s.perform bcrypt call) := by
  cases call with
  | userAdd name password noPassword salt =>
    change Atomic s (s.userAdd bcrypt name password noPassword salt)
    unfold AuthStore.userAdd
    split
    · exact .error _
    · split
      · exact .error _
      · exact .ok _
  | userDelete name =>
    change Atomic s (s.userDelete name)
    unfold AuthStore.userDelete
    split
    · exact .error _
    · split
      · exact .error _
      · exact .ok _
  | userChangePassword name password salt =>
    change Atomic s (s.userChangePassword bcrypt name password salt)
    unfold AuthStore.userChangePassword
    split
    · exact .error _
    · split
      · exact .error _
      · split
        · exact .error _
        · exact .ok _
  | userGrantRole name role =>
    change Atomic s (s.userGrantRole name role)
    unfold AuthStore.userGrantRole
    split
    · split
      · exact .error _
      · split
        · exact .ok _
        · exact .ok _
    · exact .error _
  | userRevokeRole name role =>
    change Atomic s (s.userRevokeRole name role)
    unfold AuthStore.userRevokeRole
    split
    · exact .error _
    · exact .ok _
  | roleAdd name =>
    change Atomic s (s.roleAdd name)
    unfold AuthStore.roleAdd
    split
    · exact .error _
    · exact .ok _
  | roleDelete name =>
    change Atomic s (s.roleDelete name)
    unfold AuthStore.roleDelete
    split
    · exact .error _
    · split
      · exact .error _
      · exact .ok _
  | roleGrantPermission name perm =>
    change Atomic s (s.roleGrantPermission name perm)
    unfold AuthStore.roleGrantPermission
    split
    · exact .error _
    · split
      · exact .ok _
      · exact .ok _
  | roleRevokePermission name key rangeEnd =>
    change Atomic s (s.roleRevokePermission name key rangeEnd)
    unfold AuthStore.roleRevokePermission
    split
    · exact .error _
    · dsimp only
      split
      · exact .ok _
      · exact .ok _
  | enable =>
    change Atomic s (s.enable)
    unfold AuthStore.enable
    split
    · exact .error _
    · exact .ok _
  | disable =>
    change Atomic s (s.disable)
    unfold AuthStore.disable
    exact .ok _

/-! ### Integrity -/

/-- The maps fit together. -/
structure Integrity (s : AuthStore) : Prop where
  rolesExist : ∀ name user, s.users name = some user → ∀ role ∈ user.roles, (s.roles role).isSome
  rolesOnce : ∀ name user, s.users name = some user → user.roles.Nodup
  permissionsOnce : ∀ name role, s.roles name = some role → role.permissions.Nodup
  userNames : ∀ name user, s.users name = some user → user.name = name
  roleNames : ∀ name role, s.roles name = some role → role.name = name
  rootUser : (s.users "root").isSome
  rootRole : (s.roles "root").isSome

namespace Integrity

variable {s t : AuthStore}

/-- A user is written. -/
theorem putUser (kept : Integrity s) {name : String} {user : User} (named : user.name = name)
    (exist : ∀ role ∈ user.roles, (s.roles role).isSome) (once : user.roles.Nodup) :
    Integrity (s.putUser name user) where
  rolesExist other found isFound := by
    rcases update_eq_some_iff.mp isFound with ⟨_, rfl⟩ | ⟨_, old⟩
    · exact exist
    · exact kept.rolesExist other found old
  rolesOnce other found isFound := by
    rcases update_eq_some_iff.mp isFound with ⟨_, rfl⟩ | ⟨_, old⟩
    · exact once
    · exact kept.rolesOnce other found old
  permissionsOnce := kept.permissionsOnce
  userNames other found isFound := by
    rcases update_eq_some_iff.mp isFound with ⟨rfl, rfl⟩ | ⟨_, old⟩
    · exact named
    · exact kept.userNames other found old
  roleNames := kept.roleNames
  rootUser := isSome_update kept.rootUser
  rootRole := kept.rootRole

/-- A role is written; the revision may or may not count it. -/
theorem putRole (kept : Integrity s) {name : String} (role : Role) (named : role.name = name)
    (once : role.permissions.Nodup) (users : t.users = s.users)
    (roles : t.roles = Function.update s.roles name (some role)) : Integrity t where
  rolesExist other user found role mem := by
    rw [roles]
    exact isSome_update (kept.rolesExist other user (users ▸ found) role mem)
  rolesOnce := users ▸ kept.rolesOnce
  permissionsOnce other found isFound := by
    rcases update_eq_some_iff.mp (roles ▸ isFound) with ⟨_, rfl⟩ | ⟨_, old⟩
    · exact once
    · exact kept.permissionsOnce other found old
  userNames := users ▸ kept.userNames
  roleNames other found isFound := by
    rcases update_eq_some_iff.mp (roles ▸ isFound) with ⟨rfl, rfl⟩ | ⟨_, old⟩
    · exact named
    · exact kept.roleNames other found old
  rootUser := users ▸ kept.rootUser
  rootRole := by
    rw [roles]
    exact isSome_update kept.rootRole

/-! ### The operations -/

theorem new (secret : Bytes) : Integrity (.new secret) := by
  have user : ∀ name user, (AuthStore.new secret).users name = some user →
      name = "root" ∧ user = ⟨"root", "", []⟩ := by
    intro name user found
    unfold AuthStore.new at found
    dsimp only at found
    rcases update_eq_some_iff.mp found with it | ⟨_, old⟩
    · exact it
    · cases old
  have role : ∀ name role, (AuthStore.new secret).roles name = some role →
      name = "root" ∧ role = ⟨"root", [⟨.readWrite, [], [0]⟩]⟩ := by
    intro name role found
    unfold AuthStore.new at found
    dsimp only at found
    rcases update_eq_some_iff.mp found with it | ⟨_, old⟩
    · exact it
    · cases old
  refine ⟨fun name found isFound => ?_, fun name found isFound => ?_, fun name found isFound => ?_,
    fun name found isFound => ?_, fun name found isFound => ?_, rfl, rfl⟩
  · obtain ⟨_, rfl⟩ := user name found isFound
    exact fun _ mem => absurd mem List.not_mem_nil
  · obtain ⟨_, rfl⟩ := user name found isFound
    exact List.nodup_nil
  · obtain ⟨_, rfl⟩ := role name found isFound
    exact List.nodup_singleton _
  · obtain ⟨rfl, rfl⟩ := user name found isFound
    rfl
  · obtain ⟨rfl, rfl⟩ := role name found isFound
    rfl

variable (bcrypt : Bcrypt)

theorem userAdd (kept : Integrity s) (name password : String) (noPassword : Bool) (salt : Nat) :
    Integrity (s.userAdd bcrypt name password noPassword salt).2 := by
  unfold AuthStore.userAdd
  split_ifs
  all_goals try exact kept
  all_goals
    split
    · exact kept
    · exact kept.putUser rfl (fun _ mem => absurd mem List.not_mem_nil) List.nodup_nil

theorem userDelete (kept : Integrity s) (name : String) : Integrity (s.userDelete name).2 := by
  unfold AuthStore.userDelete
  split_ifs with root
  · exact kept
  · split
    · exact kept
    · exact {
        rolesExist := fun other user found =>
          kept.rolesExist other user (update_none_eq_some_iff.mp found).2
        rolesOnce := fun other user found =>
          kept.rolesOnce other user (update_none_eq_some_iff.mp found).2
        permissionsOnce := kept.permissionsOnce
        userNames := fun other user found =>
          kept.userNames other user (update_none_eq_some_iff.mp found).2
        roleNames := kept.roleNames
        rootUser := (isSome_update_none (Ne.symm root)).trans kept.rootUser
        rootRole := kept.rootRole }

theorem userChangePassword (kept : Integrity s) (name password : String) (salt : Nat) :
    Integrity (s.userChangePassword bcrypt name password salt).2 := by
  unfold AuthStore.userChangePassword
  split_ifs
  · exact kept
  · split
    · exact kept
    · rename_i user found
      split
      · exact kept
      · exact kept.putUser (kept.userNames name user found) (kept.rolesExist name user found)
          (kept.rolesOnce name user found)

theorem userGrantRole (kept : Integrity s) (name role : String) :
    Integrity (s.userGrantRole name role).2 := by
  unfold AuthStore.userGrantRole
  split_ifs with exists_
  · split
    · exact kept
    · rename_i user found
      split_ifs with held
      · exact kept
      · refine kept.putUser (kept.userNames name user found) ?_ ?_
        · intro other mem
          rcases List.mem_append.mp mem with old | new
          · exact kept.rolesExist name user found other old
          · rw [List.mem_singleton.mp new]
            exact exists_
        · dsimp only
          rw [← List.concat_eq_append]
          exact List.Nodup.concat held (kept.rolesOnce name user found)
  · exact kept

theorem userRevokeRole (kept : Integrity s) (name role : String) :
    Integrity (s.userRevokeRole name role).2 := by
  unfold AuthStore.userRevokeRole
  split
  · exact kept
  · rename_i user found
    refine kept.putUser (kept.userNames name user found) (fun other mem => ?_)
      ((kept.rolesOnce name user found).filter _)
    exact kept.rolesExist name user found other (List.mem_of_mem_filter mem)

theorem roleAdd (kept : Integrity s) (name : String) : Integrity (s.roleAdd name).2 := by
  unfold AuthStore.roleAdd
  split_ifs
  · exact kept
  · exact kept.putRole ⟨name, []⟩ rfl List.nodup_nil rfl rfl

/-- The role that goes is taken off every user. -/
theorem roleDelete (kept : Integrity s) (name : String) : Integrity (s.roleDelete name).2 := by
  unfold AuthStore.roleDelete
  split_ifs with root
  · exact kept
  · split
    · exact kept
    · refine ⟨fun other user found role mem => ?_, fun other user found => ?_,
        fun other role found => ?_, fun other user found => ?_, fun other role found => ?_, ?_, ?_⟩
      · obtain ⟨old, isOld, rfl⟩ := Option.map_eq_some_iff.mp found
        obtain ⟨listed, differs⟩ := List.mem_filter.mp mem
        exact (isSome_update_none (of_decide_eq_true differs)).trans
          (kept.rolesExist other old isOld role listed)
      · obtain ⟨old, isOld, rfl⟩ := Option.map_eq_some_iff.mp found
        exact (kept.rolesOnce other old isOld).filter _
      · exact kept.permissionsOnce other role (update_none_eq_some_iff.mp found).2
      · obtain ⟨old, isOld, rfl⟩ := Option.map_eq_some_iff.mp found
        exact kept.userNames other old isOld
      · exact kept.roleNames other role (update_none_eq_some_iff.mp found).2
      · dsimp only
        rw [Option.isSome_map]
        exact kept.rootUser
      · exact (isSome_update_none (Ne.symm root)).trans kept.rootRole

theorem roleGrantPermission (kept : Integrity s) (name : String) (perm : Permission) :
    Integrity (s.roleGrantPermission name perm).2 := by
  unfold AuthStore.roleGrantPermission
  split
  · exact kept
  · rename_i role found
    split_ifs with held
    · exact kept
    · refine kept.putRole { role with permissions := role.permissions ++ [perm] }
        (kept.roleNames name role found) ?_ rfl rfl
      dsimp only
      rw [← List.concat_eq_append]
      refine List.Nodup.concat (fun mem => held ?_) (kept.permissionsOnce name role found)
      exact List.any_eq_true.mpr ⟨perm, mem, by simp⟩

theorem roleRevokePermission (kept : Integrity s) (name : String) (key rangeEnd : Bytes) :
    Integrity (s.roleRevokePermission name key rangeEnd).2 := by
  unfold AuthStore.roleRevokePermission
  split
  · exact kept
  · rename_i role found
    dsimp only
    have once := (kept.permissionsOnce name role found).filter fun p =>
      !(p.key = key && p.rangeEnd = rangeEnd)
    generalize role.permissions.filter _ = stripped at once ⊢
    have named : Role.name ⟨role.name, stripped⟩ = name := kept.roleNames name role found
    split_ifs
    · exact kept.putRole _ named once rfl rfl
    · exact kept.putRole _ named once rfl rfl

/-- Only the flag changes. -/
theorem flag (kept : Integrity s) (enabled : Bool) : Integrity { s with enabled := enabled } :=
  ⟨kept.rolesExist, kept.rolesOnce, kept.permissionsOnce, kept.userNames, kept.roleNames,
    kept.rootUser, kept.rootRole⟩

theorem perform (kept : Integrity s) (call : AuthCall) : Integrity (s.perform bcrypt call).2 := by
  cases call with
  | userAdd name password noPassword salt => exact kept.userAdd bcrypt name password noPassword salt
  | userDelete name => exact kept.userDelete name
  | userChangePassword name password salt => exact kept.userChangePassword bcrypt name password salt
  | userGrantRole name role => exact kept.userGrantRole name role
  | userRevokeRole name role => exact kept.userRevokeRole name role
  | roleAdd name => exact kept.roleAdd name
  | roleDelete name => exact kept.roleDelete name
  | roleGrantPermission name perm => exact kept.roleGrantPermission name perm
  | roleRevokePermission name key rangeEnd => exact kept.roleRevokePermission name key rangeEnd
  | enable =>
    change Integrity s.enable.2
    unfold AuthStore.enable
    split_ifs
    · exact kept
    · exact kept.flag true
  | disable => exact kept.flag false

theorem performAll (kept : Integrity s) (calls : List AuthCall) :
    Integrity (s.performAll bcrypt calls) := by
  induction calls generalizing s with
  | nil => exact kept
  | cons call rest ih => exact ih (kept.perform bcrypt call)

end Integrity

/-- **In every run the maps fit together**, and a call that returns an error changes neither the
users nor the roles nor the revision. -/
theorem auth_integrity (bcrypt : Bcrypt) (secret : Bytes) (calls : List AuthCall) :
    let s := (AuthStore.new secret).performAll bcrypt calls
    Integrity s ∧ ∀ call error, (s.perform bcrypt call).1 = .error error →
      (s.perform bcrypt call).2.users = s.users ∧ (s.perform bcrypt call).2.roles = s.roles ∧
        (s.perform bcrypt call).2.revision = s.revision := by
  intro s
  refine ⟨(Integrity.new secret).performAll bcrypt calls, fun call error fails => ?_⟩
  rw [atomic_perform bcrypt s call error fails]
  exact ⟨rfl, rfl, rfl⟩

end Rusd.Auth
