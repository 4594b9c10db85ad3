/-
**What a permission covers.**

Permissions and requests name their keys in the same three forms: one key (no range end), all keys
from one on (the range end `[0]`), or an interval. `Permission::covers` compares the range ends as
byte strings, so a request in a form that reaches further than its bytes compare gets past it.

* `Denotes` — the keys that a pair of key and range end stands for.
* `Overreaches` — a permission for one key and a request for more from that key on; a permission for
  an interval and a request for all keys from one on.
* `permission_sound_iff` — a permission covers only requests within it exactly if it is not
  overreached, and a user other than `root` is allowed only what its permissions have together
  exactly if none of them is overreached by a request that is not in all of them anyway.
-/

import Rusd.Auth.Store

namespace Rusd.Auth

/-- The keys that a key and a range end stand for. -/
def Denotes (key rangeEnd k : Bytes) : Prop :=
  if rangeEnd = [] then k = key
  else if rangeEnd = [0] then key ≤ k
  else key ≤ k ∧ k < rangeEnd

instance (key rangeEnd k : Bytes) : Decidable (Denotes key rangeEnd k) := by
  unfold Denotes
  infer_instance

namespace Permission

/-- Check if this permission covers the given key range. -/
def covers (self : Permission) (key rangeEnd : Bytes) : Bool :=
  if key < self.key then false
  else if self.rangeEnd = [] then key = self.key
  else if self.rangeEnd = [0] then true
  else if rangeEnd = [] then key < self.rangeEnd
  else self.key ≤ key && rangeEnd ≤ self.rangeEnd

/-- The access that a permission gives. -/
def allows (self : Permission) : PermissionType → Bool
  | .read => self.permType.allowsRead
  | .write => self.permType.allowsWrite
  | .readWrite => self.permType.allowsRead && self.permType.allowsWrite

end Permission

/-- Check if this role grants the specified permission. -/
def Role.checkPermission (self : Role) (key rangeEnd : Bytes) (permType : PermissionType) : Bool :=
  self.permissions.any fun p =>
    if !p.permType.allowsRead && !p.permType.allowsWrite then false
    else p.allows permType && p.covers key rangeEnd

/-- Checks if a user has permission to access a key range. -/
def AuthStore.checkPermission (s : AuthStore) (username : String) (key rangeEnd : Bytes)
    (permType : PermissionType) : Except AuthError Bool :=
  -- Root user has all permissions
  if username = "root" then .ok true
  else
    match s.users username with
    | none => .error (.userNotFound username)
    | some user => .ok (user.roles.any fun name =>
        match s.roles name with
        | some role => role.checkPermission key rangeEnd permType
        | none => false)

/-- A permission of the access asked for, in a role of the user. -/
def AuthStore.Holds (s : AuthStore) (username : String) (permType : PermissionType)
    (p : Permission) : Prop :=
  ∃ user name role, s.users username = some user ∧ name ∈ user.roles ∧ s.roles name = some role ∧
    p ∈ role.permissions ∧ p.allows permType

/-- A user other than `root` is allowed what one of its permissions covers. -/
theorem checkPermission_iff (s : AuthStore) {username : String} (notRoot : username ≠ "root")
    (key rangeEnd : Bytes) (permType : PermissionType) :
    s.checkPermission username key rangeEnd permType = .ok true ↔
      ∃ p, s.Holds username permType p ∧ p.covers key rangeEnd := by
  have role (role : Role) : role.checkPermission key rangeEnd permType ↔
      ∃ p ∈ role.permissions, p.allows permType ∧ p.covers key rangeEnd := by
    unfold Role.checkPermission
    rw [List.any_eq_true]
    refine exists_congr fun p => and_congr_right fun _ => ?_
    have some_access : (!p.permType.allowsRead && !p.permType.allowsWrite) = false := by
      cases p.permType <;> rfl
    rw [some_access, if_neg Bool.false_ne_true, Bool.and_eq_true]
  unfold AuthStore.checkPermission AuthStore.Holds
  rw [if_neg notRoot]
  cases s.users username with
  | none =>
    constructor
    · intro allowed
      cases allowed
    · rintro ⟨_, ⟨_, _, _, found, _⟩, _⟩
      cases found
  | some user =>
    simp only [Except.ok.injEq, List.any_eq_true]
    constructor
    · rintro ⟨name, listed, granted⟩
      cases found : s.roles name with
      | none =>
        rw [found] at granted
        cases granted
      | some its =>
        rw [found] at granted
        obtain ⟨p, mem, allowed, covers⟩ := (role its).mp granted
        exact ⟨p, ⟨user, name, its, rfl, listed, found, mem, allowed⟩, covers⟩
    · rintro ⟨p, ⟨_, name, its, isUser, listed, found, mem, allowed⟩, covers⟩
      cases isUser
      refine ⟨name, listed, ?_⟩
      rw [found]
      exact (role its).mpr ⟨p, mem, allowed, covers⟩

/-! ### Overreaching -/

/-- The request reaches beyond the permission, and `covers` does not see it. -/
def Overreaches (p : Permission) (key rangeEnd : Bytes) : Prop :=
  (p.rangeEnd = [] ∧ key = p.key ∧ (rangeEnd = [0] ∨ key ++ [0] < rangeEnd)) ∨
    (p.rangeEnd ≠ [] ∧ p.rangeEnd ≠ [0] ∧ p.key ≤ key ∧ rangeEnd = [0])

instance (p : Permission) (key rangeEnd : Bytes) : Decidable (Overreaches p key rangeEnd) := by
  unfold Overreaches
  infer_instance

/-- No byte string but the empty one is below `[0]`. -/
theorem zero_le {bytes : Bytes} (nonempty : bytes ≠ []) : [0] ≤ bytes := by
  obtain ⟨first, rest, rfl⟩ := List.exists_cons_of_ne_nil nonempty
  refine not_lt.mp fun below => ?_
  rcases List.cons_lt_cons_iff.mp below with less | ⟨_, less⟩
  · exact absurd less (Fin.not_lt_zero first)
  · exact absurd less (List.not_lt_nil rest)

/-- A key is below the key with a zero byte after it. -/
theorem le_append_zero (key : Bytes) : key ≤ key ++ [0] :=
  (Bytes.inRange_single.mpr rfl : Bytes.InRange key (key ++ [0]) key).2.resolve_left
    (List.append_ne_nil_of_right_ne_nil key (List.cons_ne_nil 0 [])) |>.le

theorem Overreaches.covers {p : Permission} {key rangeEnd : Bytes}
    (overreaches : Overreaches p key rangeEnd) : p.covers key rangeEnd := by
  unfold Permission.covers
  rcases overreaches with ⟨single, rfl, _⟩ | ⟨notSingle, notAll, above, rfl⟩
  · rw [if_neg (lt_irrefl _), if_pos single]
    exact decide_eq_true rfl
  · rw [if_neg (not_lt.mpr above), if_neg notSingle, if_neg notAll, if_neg (List.cons_ne_nil 0 []),
      decide_eq_true above, decide_eq_true (zero_le notSingle)]
    rfl

/-- Some key of the request is not one of the permission. -/
theorem Overreaches.beyond {p : Permission} {key rangeEnd : Bytes}
    (overreaches : Overreaches p key rangeEnd) :
    ∃ k, Denotes key rangeEnd k ∧ ¬ Denotes p.key p.rangeEnd k := by
  unfold Denotes
  rcases overreaches with ⟨single, rfl, more⟩ | ⟨notSingle, notAll, above, rfl⟩
  · refine ⟨p.key ++ [0], ?_, ?_⟩
    · rcases more with rfl | more
      · rw [if_neg (List.cons_ne_nil 0 []), if_pos rfl]
        exact le_append_zero p.key
      · have nonempty : rangeEnd ≠ [] := by
          rintro rfl
          exact absurd more (List.not_lt_nil _)
        rw [if_neg nonempty]
        split_ifs
        · exact le_append_zero p.key
        · exact ⟨le_append_zero p.key, more⟩
    · rw [if_pos single]
      exact fun same => absurd (congrArg List.length same) (by simp)
  · refine ⟨max key p.rangeEnd, ?_, ?_⟩
    · rw [if_neg (List.cons_ne_nil 0 []), if_pos rfl]
      exact le_max_left key p.rangeEnd
    · rw [if_neg notSingle, if_neg notAll]
      exact fun inside => absurd inside.2 (not_lt.mpr (le_max_right key p.rangeEnd))

/-- Otherwise the request is within what covers it. -/
theorem denotes_of_covers {p : Permission} {key rangeEnd : Bytes}
    (within : ¬ Overreaches p key rangeEnd) (covers : p.covers key rangeEnd) {k : Bytes}
    (denotes : Denotes key rangeEnd k) : Denotes p.key p.rangeEnd k := by
  have above : key ≤ k := by
    unfold Denotes at denotes
    split_ifs at denotes
    · exact denotes.ge
    · exact denotes
    · exact denotes.1
  unfold Permission.covers at covers
  split_ifs at covers with below single all one
  · -- a permission for one key: what is requested begins there and does not reach past it
    have same : key = p.key := of_decide_eq_true covers
    unfold Denotes at denotes ⊢
    rw [if_pos single]
    split_ifs at denotes with requestsOne requestsAll
    · exact denotes.trans same
    · exact absurd (Or.inl ⟨single, same, Or.inl requestsAll⟩) within
    · have short : rangeEnd ≤ key ++ [0] :=
        not_lt.mp fun more => within (Or.inl ⟨single, same, Or.inr more⟩)
      have only : k = key :=
        Bytes.inRange_single.mp ⟨denotes.1, Or.inr (denotes.2.trans_le short)⟩
      exact only.trans same
  · unfold Denotes
    rw [if_neg single, if_pos all]
    exact (not_lt.mp below).trans above
  · unfold Denotes at denotes ⊢
    rw [if_pos one] at denotes
    rw [if_neg single, if_neg all, denotes]
    exact ⟨not_lt.mp below, of_decide_eq_true covers⟩
  · obtain ⟨from_, until_⟩ := Bool.and_eq_true_iff.mp covers
    have begins : p.key ≤ key := of_decide_eq_true from_
    unfold Denotes at denotes ⊢
    rw [if_neg single, if_neg all]
    rw [if_neg one] at denotes
    split_ifs at denotes with requestsAll
    · exact absurd (Or.inr ⟨single, all, begins, requestsAll⟩) within
    · exact ⟨begins.trans above, denotes.2.trans_le (of_decide_eq_true until_)⟩

/-- **Permissions are sound except where they are overreached**, and so is the check for a user. -/
theorem permission_sound_iff (p : Permission) (key rangeEnd : Bytes) (s : AuthStore)
    (username : String) (permType : PermissionType) :
    ((p.covers key rangeEnd → ∀ k, Denotes key rangeEnd k → Denotes p.key p.rangeEnd k) ↔
      ¬ Overreaches p key rangeEnd) ∧
    (username ≠ "root" →
      ((s.checkPermission username key rangeEnd permType = .ok true →
        ∀ k, Denotes key rangeEnd k →
          ∃ held, s.Holds username permType held ∧ Denotes held.key held.rangeEnd k) ↔
      ∀ held, s.Holds username permType held → Overreaches held key rangeEnd →
        ∀ k, Denotes key rangeEnd k →
          ∃ other, s.Holds username permType other ∧ Denotes other.key other.rangeEnd k)) := by
  refine ⟨⟨fun sound overreaches => ?_, fun within covers k denotes => ?_⟩, fun notRoot => ?_⟩
  · obtain ⟨k, requested, beyond⟩ := overreaches.beyond
    exact beyond (sound overreaches.covers k requested)
  · exact denotes_of_covers within covers denotes
  · rw [checkPermission_iff s notRoot]
    constructor
    · exact fun sound held holds overreaches => sound ⟨held, holds, overreaches.covers⟩
    · rintro madeUp ⟨held, holds, covers⟩ k denotes
      by_cases overreaches : Overreaches held key rangeEnd
      · exact madeUp held holds overreaches k denotes
      · exact ⟨held, holds, denotes_of_covers overreaches covers denotes⟩

/-- **A permission for `[foo, fop)` covers a request for all keys from `foo` on.** -/
theorem interval_overreached :
    let p : Permission := ⟨.read, [0x66, 0x6f, 0x6f], [0x66, 0x6f, 0x70]⟩
    p.covers [0x66, 0x6f, 0x6f] [0] ∧ Denotes [0x66, 0x6f, 0x6f] [0] [0x7a] ∧
      ¬ Denotes p.key p.rangeEnd [0x7a] := by
  decide

end Rusd.Auth
