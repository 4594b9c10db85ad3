/-
**Byte strings and fixed-width integers.**

* `Bytes` is a list of bytes; its order is the lexicographic one of Mathlib's `List.instLinearOrder`.
* `leBytes width n` — the little-endian digits of `n`, truncated to `width` bytes, and
  `ofLeBytes` — their value. `ofLeBytes_leBytes`: a number that fits its width round-trips.
* `i64ToLe` / `i64OfLe` (and the big-endian `i64ToBe` / `i64OfBe`) — two's complement in eight
  bytes. `i64OfLe_i64ToLe` and `i64OfBe_i64ToBe`: every 64-bit value round-trips.
* `Bytes.InRange start stop k` — the half-open key interval, unbounded when `stop` is empty.
-/

import Mathlib.Tactic
import Mathlib.Data.List.Lex
import Mathlib.Data.List.Sort

/-- One byte. -/
abbrev Byte := Fin 256

instance Byte.neZero : NeZero 256 := ⟨by decide⟩

/-- A byte string; compared lexicographically. -/
abbrev Bytes := List Byte

/-- `start ≤ k < stop`, with the empty `stop` standing for no upper bound. -/
def Bytes.InRange (start stop k : Bytes) : Prop := start ≤ k ∧ (stop = [] ∨ k < stop)

instance (start stop k : Bytes) : Decidable (Bytes.InRange start stop k) :=
  inferInstanceAs (Decidable (start ≤ k ∧ (stop = [] ∨ k < stop)))

/-- Between a key and the key followed by a zero byte there is no other key. -/
theorem Bytes.inRange_single {key k : Bytes} : Bytes.InRange key (key ++ [0]) k ↔ k = key := by
  constructor
  · rintro ⟨low, high⟩
    replace high : k < key ++ [0] := high.resolve_left (by simp)
    induction key generalizing k with
    | nil =>
      cases k with
      | nil => rfl
      | cons b rest =>
        rcases List.cons_lt_cons_iff.mp high with less | ⟨_, less⟩
        · exact absurd less (Fin.not_lt_zero b)
        · exact absurd less (List.not_lt_nil rest)
    | cons a key ih =>
      cases k with
      | nil => exact absurd (List.nil_lt_cons a key) (not_lt.mpr low)
      | cons b rest =>
        rcases List.cons_lt_cons_iff.mp high with less | ⟨rfl, less⟩
        · exact absurd (List.cons_lt_cons_iff.mpr (Or.inl less)) (not_lt.mpr low)
        · have le : key ≤ rest := by
            refine not_lt.mp fun more => ?_
            exact absurd (List.cons_lt_cons_iff.mpr (Or.inr ⟨rfl, more⟩)) (not_lt.mpr low)
          rw [ih le less]
  · rintro rfl
    refine ⟨le_rfl, Or.inr ?_⟩
    induction k with
    | nil => exact List.nil_lt_cons 0 []
    | cons b rest ih => exact List.cons_lt_cons_iff.mpr (Or.inr ⟨rfl, ih⟩)

/-- The key followed by a zero byte is the next one. -/
theorem Bytes.successor_le_iff {key k : Bytes} : key ++ [0] ≤ k ↔ key < k := by
  have successor : key < key ++ [0] := (Bytes.inRange_single.mpr rfl).2.resolve_left (by simp)
  constructor
  · exact successor.trans_le
  · intro above
    by_contra low
    have same := Bytes.inRange_single.mp ⟨above.le, Or.inr (not_le.mp low)⟩
    exact absurd same above.ne'

/-! ### Little-endian digits -/

/-- The `width` low bytes of `n`, least significant first. -/
def leBytes : Nat → Nat → Bytes
  | 0, _ => []
  | width + 1, n => Fin.ofNat 256 n :: leBytes width (n / 256)

/-- The number a little-endian byte string denotes. -/
def ofLeBytes : Bytes → Nat
  | [] => 0
  | b :: rest => b.val + 256 * ofLeBytes rest

@[simp] theorem length_leBytes (width n : Nat) : (leBytes width n).length = width := by
  induction width generalizing n with
  | zero => rfl
  | succ width ih => rw [leBytes, List.length_cons, ih]

/-- **A number that fits its width round-trips.** -/
theorem ofLeBytes_leBytes (width : Nat) : ∀ n, n < 256 ^ width → ofLeBytes (leBytes width n) = n := by
  induction width with
  | zero =>
    intro n fits
    have zero : n = 0 := by simpa using fits
    rw [zero]
    rfl
  | succ width ih =>
    intro n fits
    have high : n / 256 < 256 ^ width := by
      rw [pow_succ] at fits
      exact Nat.div_lt_of_lt_mul (by rwa [mul_comm] at fits)
    rw [leBytes, ofLeBytes, ih _ high]
    show n % 256 + 256 * (n / 256) = n
    omega

theorem ofLeBytes_leBytes_le (width : Nat) : ∀ n, ofLeBytes (leBytes width n) ≤ n := by
  induction width with
  | zero => exact fun n => Nat.zero_le n
  | succ width ih =>
    intro n
    have high := ih (n / 256)
    rw [leBytes, ofLeBytes]
    show n % 256 + 256 * ofLeBytes (leBytes width (n / 256)) ≤ n
    omega

theorem ofLeBytes_lt (bytes : Bytes) : ofLeBytes bytes < 256 ^ bytes.length := by
  induction bytes with
  | nil => exact Nat.one_pos
  | cons b rest ih =>
    have small := b.isLt
    rw [ofLeBytes, List.length_cons, pow_succ]
    omega

/-- A byte string is the digits of the number it denotes. -/
theorem leBytes_ofLeBytes (bytes : Bytes) : leBytes bytes.length (ofLeBytes bytes) = bytes := by
  induction bytes with
  | nil => rfl
  | cons b rest ih =>
    have low : Fin.ofNat 256 (b.val + 256 * ofLeBytes rest) = b := by
      refine Fin.ext ?_
      show (b.val + 256 * ofLeBytes rest) % 256 = b.val
      omega
    have high : (b.val + 256 * ofLeBytes rest) / 256 = ofLeBytes rest := by omega
    rw [List.length_cons, ofLeBytes, leBytes, low, high, ih]

/-- **The byte order of big-endian digits of one width is the order of the numbers**, and then that of
what follows them. -/
theorem reverse_leBytes_append_lt (width : Nat) : ∀ {a b : Nat}, a < 256 ^ width → b < 256 ^ width →
    ∀ {first second : Bytes}, (leBytes width a).reverse ++ first < (leBytes width b).reverse ++ second ↔
      a < b ∨ a = b ∧ first < second := by
  induction width with
  | zero =>
    intro a b fits fits' first second
    have zero : a = 0 := by simpa using fits
    have zero' : b = 0 := by simpa using fits'
    simp [leBytes, zero, zero']
  | succ width ih =>
    intro a b fits fits' first second
    rw [pow_succ] at fits fits'
    have high : a / 256 < 256 ^ width := Nat.div_lt_of_lt_mul (by rwa [mul_comm] at fits)
    have high' : b / 256 < 256 ^ width := Nat.div_lt_of_lt_mul (by rwa [mul_comm] at fits')
    have low : Fin.ofNat 256 a < Fin.ofNat 256 b ↔ a % 256 < b % 256 := Iff.rfl
    have same : Fin.ofNat 256 a = Fin.ofNat 256 b ↔ a % 256 = b % 256 := Fin.ext_iff
    rw [leBytes, leBytes, List.reverse_cons, List.reverse_cons, List.append_assoc, List.append_assoc,
      List.singleton_append, List.singleton_append, ih high high', List.cons_lt_cons_iff, low, same]
    constructor
    · rintro (less | ⟨tops, less | ⟨digits, rest⟩⟩)
      · exact .inl (by omega)
      · exact .inl (by omega)
      · exact .inr ⟨by omega, rest⟩
    · rintro (less | ⟨rfl, rest⟩)
      · rcases Nat.lt_trichotomy (a / 256) (b / 256) with tops | tops | tops
        · exact .inl tops
        · exact .inr ⟨tops, .inl (by omega)⟩
        · omega
      · exact .inr ⟨rfl, .inr ⟨rfl, rest⟩⟩

/-! ### Two's complement in eight bytes -/

/-- The values of a 64-bit signed integer. -/
def IsI64 (x : Int) : Prop := -2 ^ 63 ≤ x ∧ x < 2 ^ 63

instance (x : Int) : Decidable (IsI64 x) := inferInstanceAs (Decidable (_ ∧ _))

/-- The signed reading of a 64-bit pattern. -/
def i64OfNat (n : Nat) : Int := if n < 2 ^ 63 then n else n - 2 ^ 64

/-- The 64-bit pattern of a signed value. -/
def i64ToNat (x : Int) : Nat := (x % 2 ^ 64).toNat

theorem i64ToNat_lt (x : Int) : i64ToNat x < 256 ^ 8 := by
  unfold i64ToNat
  norm_num
  omega

theorem i64OfNat_i64ToNat {x : Int} (fits : IsI64 x) : i64OfNat (i64ToNat x) = x := by
  obtain ⟨low, high⟩ := fits
  unfold i64OfNat i64ToNat
  norm_num at *
  split_ifs <;> omega

def i64ToLe (x : Int) : Bytes := leBytes 8 (i64ToNat x)

def i64OfLe (bytes : Bytes) : Int := i64OfNat (ofLeBytes bytes)

def i64ToBe (x : Int) : Bytes := (i64ToLe x).reverse

def i64OfBe (bytes : Bytes) : Int := i64OfLe bytes.reverse

@[simp] theorem length_i64ToLe (x : Int) : (i64ToLe x).length = 8 := length_leBytes _ _

@[simp] theorem length_i64ToBe (x : Int) : (i64ToBe x).length = 8 := by
  rw [i64ToBe, List.length_reverse, length_i64ToLe]

theorem i64OfLe_i64ToLe {x : Int} (fits : IsI64 x) : i64OfLe (i64ToLe x) = x := by
  rw [i64OfLe, i64ToLe, ofLeBytes_leBytes 8 _ (i64ToNat_lt x), i64OfNat_i64ToNat fits]

theorem i64OfBe_i64ToBe {x : Int} (fits : IsI64 x) : i64OfBe (i64ToBe x) = x := by
  rw [i64OfBe, i64ToBe, List.reverse_reverse, i64OfLe_i64ToLe fits]

theorem i64ToBe_injective {x y : Int} (fitsX : IsI64 x) (fitsY : IsI64 y)
    (same : i64ToBe x = i64ToBe y) : x = y := by
  rw [← i64OfBe_i64ToBe fitsX, same, i64OfBe_i64ToBe fitsY]

/-- Big-endian values that are not negative are ordered as their bytes are. -/
theorem i64ToBe_append_lt {x y : Int} (low : 0 ≤ x) (high : x < 2 ^ 63) (low' : 0 ≤ y)
    (high' : y < 2 ^ 63) {first second : Bytes} :
    i64ToBe x ++ first < i64ToBe y ++ second ↔ x < y ∨ x = y ∧ first < second := by
  rw [i64ToBe, i64ToBe, i64ToLe, i64ToLe,
    reverse_leBytes_append_lt 8 (i64ToNat_lt x) (i64ToNat_lt y)]
  have digits : i64ToNat x = x.toNat := by
    unfold i64ToNat
    omega
  have digits' : i64ToNat y = y.toNat := by
    unfold i64ToNat
    omega
  rw [digits, digits']
  constructor
  · rintro (less | ⟨same, rest⟩)
    · exact .inl (by omega)
    · exact .inr ⟨by omega, rest⟩
  · rintro (less | ⟨same, rest⟩)
    · exact .inl (by omega)
    · exact .inr ⟨by omega, rest⟩

/-! ### Cutting a byte string -/

/-- The bytes `from .. to`, as a slice of a byte string. -/
def slice (data : Bytes) (low high : Nat) : Bytes := (data.drop low).take (high - low)

/-- Slicing past a prefix is slicing what follows it. -/
theorem slice_skip {front rest : Bytes} {low high : Nat} (past : front.length ≤ low) :
    slice (front ++ rest) low high = slice rest (low - front.length) (high - front.length) := by
  unfold slice
  rw [List.drop_append, List.drop_eq_nil_of_le past, List.nil_append]
  congr 1
  omega

/-- Slicing exactly a prefix. -/
theorem slice_front {front rest : Bytes} {high : Nat} (exact : front.length = high) :
    slice (front ++ rest) 0 high = front := by
  unfold slice
  rw [List.drop_zero, Nat.sub_zero, ← exact, List.take_left]
