/-
**Texts: white space at the ends, and the bytes of the characters.**

* `trim` — a text without the white space at its two ends.
* `utf8` — the bytes of a text.
* `u64OfBe` — the number that eight bytes stand for, the first one the highest.
-/

import Mathlib.Data.List.DropRight
import Rusd.Lib.Bytes

/-- A sequence of Unicode scalar values. -/
abbrev Text := List Char

/-- The characters with the Unicode property `White_Space`. -/
def whiteSpace (c : Char) : Bool :=
  (0x09 ≤ c.toNat ∧ c.toNat ≤ 0x0D) ∨ (0x2000 ≤ c.toNat ∧ c.toNat ≤ 0x200A) ∨
    c.toNat ∈ [0x20, 0x85, 0xA0, 0x1680, 0x2028, 0x2029, 0x202F, 0x205F, 0x3000]

/-- The text without the white space at its ends. -/
def trim (text : Text) : Text := (text.dropWhile whiteSpace).rdropWhile whiteSpace

/-- The UTF-8 bytes of a text. -/
def utf8 (text : Text) : Bytes := (text.flatMap String.utf8EncodeChar).map UInt8.toFin

/-- An unsigned number in eight bytes, the highest one first. -/
def u64OfBe (bytes : Bytes) : Nat := ofLeBytes bytes.reverse
