/-
**Lossy UTF-8 decoding.**

A character is a first byte and the bytes that may follow it, each from a range of its own
(`followers`). `lossy` reads a byte string character by character; where a character breaks off, the
longest part of it that could still have been one is replaced by U+FFFD.

* `ValidUtf8` — the byte strings that are sequences of whole characters.
* `lossy_eq_self_iff` — decoding leaves exactly the valid ones alone.
* `valid_lossy` — what it returns is valid.
* `mem_lossy_ascii` — it neither adds nor drops ASCII bytes.
-/

import Rusd.Lib.Bytes

/-- A range of bytes. -/
abbrev ByteRange := Byte × Byte

/-- The byte lies in the range. -/
def ByteRange.Holds (r : ByteRange) (b : Byte) : Prop := r.1 ≤ b ∧ b ≤ r.2

instance (r : ByteRange) (b : Byte) : Decidable (r.Holds b) :=
  inferInstanceAs (Decidable (r.1 ≤ b ∧ b ≤ r.2))

/-- Every continuation byte. -/
def continuation : ByteRange := (0x80, 0xBF)

/-- The ranges of the bytes that complete a character with this first byte; `none` for a byte that
starts no character. -/
def followers (first : Byte) : Option (List ByteRange) :=
  if first < 0x80 then some []
  else if first < 0xC2 then none
  else if first < 0xE0 then some [continuation]
  else if first = 0xE0 then some [(0xA0, 0xBF), continuation]
  else if first = 0xED then some [(0x80, 0x9F), continuation]
  else if first < 0xF0 then some [continuation, continuation]
  else if first = 0xF0 then some [(0x90, 0xBF), continuation, continuation]
  else if first < 0xF4 then some [continuation, continuation, continuation]
  else if first = 0xF4 then some [(0x80, 0x8F), continuation, continuation]
  else none

/-- How many of the ranges the bytes meet, one after another. -/
def matched : List ByteRange → Bytes → Nat
  | [], _ => 0
  | _ :: _, [] => 0
  | r :: ranges, b :: rest => if r.Holds b then matched ranges rest + 1 else 0

/-- U+FFFD. -/
def replacement : Bytes := [0xEF, 0xBF, 0xBD]

/-- Lossy decoding with a bound on the number of characters. -/
def lossyUpTo : Nat → Bytes → Bytes
  | 0, _ => []
  | _ + 1, [] => []
  | n + 1, first :: rest =>
    match followers first with
    | none => replacement ++ lossyUpTo n rest
    | some ranges =>
      if matched ranges rest = ranges.length then
        first :: (rest.take ranges.length ++ lossyUpTo n (rest.drop ranges.length))
      else replacement ++ lossyUpTo n (rest.drop (matched ranges rest))

/-- The bytes of the string that a byte string is decoded to. -/
def lossy (bytes : Bytes) : Bytes := lossyUpTo bytes.length bytes

/-- A sequence of whole characters. -/
inductive ValidUtf8 : Bytes → Prop
  | nil : ValidUtf8 []
  | char {first : Byte} {ranges : List ByteRange} {tail rest : Bytes}
      (starts : followers first = some ranges) (fits : List.Forall₂ ByteRange.Holds ranges tail)
      (valid : ValidUtf8 rest) : ValidUtf8 (first :: (tail ++ rest))

/-! ### The bytes of one character -/

theorem matched_of_fits {ranges : List ByteRange} {tail : Bytes}
    (fits : List.Forall₂ ByteRange.Holds ranges tail) (rest : Bytes) :
    matched ranges (tail ++ rest) = ranges.length := by
  induction fits with
  | nil => rfl
  | cons holds _ ih => rw [List.cons_append, matched, if_pos holds, ih, List.length_cons]

theorem fits_of_matched {ranges : List ByteRange} {rest : Bytes}
    (whole : matched ranges rest = ranges.length) :
    List.Forall₂ ByteRange.Holds ranges (rest.take ranges.length) := by
  induction ranges generalizing rest with
  | nil => exact List.Forall₂.nil
  | cons r ranges ih =>
    cases rest with
    | nil => cases whole
    | cons b rest =>
      rw [matched] at whole
      split_ifs at whole with holds
      exact List.Forall₂.cons holds (ih (Nat.succ.inj whole))

/-- Only bytes above ASCII follow a first byte. -/
theorem above_ascii_of_followers {first : Byte} {ranges : List ByteRange}
    (starts : followers first = some ranges) : ∀ r ∈ ranges, (0x80 : Byte) ≤ r.1 := by
  unfold followers at starts
  split_ifs at starts <;> cases starts <;> simp [continuation]

theorem followers_ascii {first : Byte} (ascii : first < 0x80) : followers first = some [] :=
  if_pos ascii

/-- A matched byte is above ASCII. -/
theorem above_ascii_of_mem_take {ranges : List ByteRange} (above : ∀ r ∈ ranges, (0x80 : Byte) ≤ r.1)
    {rest : Bytes} {b : Byte} (member : b ∈ rest.take (matched ranges rest)) : (0x80 : Byte) ≤ b := by
  induction ranges generalizing rest with
  | nil => simp [matched] at member
  | cons r ranges ih =>
    cases rest with
    | nil => simp at member
    | cons c rest =>
      rw [matched] at member
      split_ifs at member with holds
      · rcases List.mem_cons.mp (by simpa using member) with rfl | later
        · exact (above r List.mem_cons_self).trans holds.1
        · exact ih (fun r inside => above r (List.mem_cons_of_mem _ inside)) later
      · simp at member

/-! ### Valid strings -/

namespace ValidUtf8

theorem ascii {b : Byte} (small : b < 0x80) {rest : Bytes} (valid : ValidUtf8 rest) :
    ValidUtf8 (b :: rest) :=
  show ValidUtf8 (b :: ([] ++ rest)) from char (followers_ascii small) List.Forall₂.nil valid

theorem append {a b : Bytes} (first : ValidUtf8 a) (second : ValidUtf8 b) : ValidUtf8 (a ++ b) := by
  induction first with
  | nil => exact second
  | char starts fits _ ih =>
    rw [List.cons_append, List.append_assoc]
    exact char starts fits ih

theorem replacement : ValidUtf8 replacement :=
  show ValidUtf8 (0xEF :: ([0xBF, 0xBD] ++ [])) from
    char (show followers 0xEF = some [continuation, continuation] by decide)
      (.cons (by decide) (.cons (by decide) .nil)) nil

end ValidUtf8

theorem lossyUpTo_valid {bytes : Bytes} (valid : ValidUtf8 bytes) {n : Nat}
    (enough : bytes.length ≤ n) : lossyUpTo n bytes = bytes := by
  induction valid generalizing n with
  | nil => cases n <;> rfl
  | @char first ranges tail rest starts fits _ ih =>
    cases n with
    | zero => simp at enough
    | succ n =>
      have whole := matched_of_fits fits rest
      have width := fits.length_eq
      simp only [List.length_cons, List.length_append] at enough
      simp only [lossyUpTo, starts]
      rw [if_pos whole, width, List.take_left, List.drop_left, ih (by omega)]

theorem valid_of_lossyUpTo {n : Nat} {bytes : Bytes} (enough : bytes.length ≤ n)
    (same : lossyUpTo n bytes = bytes) : ValidUtf8 bytes := by
  induction n generalizing bytes with
  | zero =>
    rw [List.length_eq_zero_iff.mp (Nat.le_zero.mp enough)]
    exact ValidUtf8.nil
  | succ n ih =>
    cases bytes with
    | nil => exact ValidUtf8.nil
    | cons first rest =>
      simp only [List.length_cons] at enough
      -- a string that opens with U+FFFD opens with a whole character
      have not_replaced : ∀ tail, replacement ++ tail = first :: rest →
          followers first = some [continuation, continuation] ∧
            matched [continuation, continuation] rest = 2 := by
        intro tail opens
        obtain ⟨rfl, rfl⟩ : (0xEF : Byte) = first ∧ 0xBF :: 0xBD :: tail = rest :=
          List.cons.inj opens
        have fits : List.Forall₂ ByteRange.Holds [continuation, continuation] [0xBF, 0xBD] :=
          .cons (by decide) (.cons (by decide) .nil)
        exact ⟨by decide, matched_of_fits fits tail⟩
      simp only [lossyUpTo] at same
      cases starts : followers first with
      | none =>
        rw [starts] at same
        rw [(not_replaced _ same).1] at starts
        cases starts
      | some ranges =>
        simp only [starts] at same
        split_ifs at same with whole
        · have rest_same : lossyUpTo n (rest.drop ranges.length) = rest.drop ranges.length := by
            have tail := (List.cons.inj same).2
            conv_rhs at tail => rw [← List.take_append_drop ranges.length rest]
            exact List.append_cancel_left tail
          have valid := ih (by rw [List.length_drop]; omega) rest_same
          rw [← List.take_append_drop ranges.length rest]
          exact ValidUtf8.char starts (fits_of_matched whole) valid
        · obtain ⟨is, broken⟩ := not_replaced _ same
          rw [starts] at is
          cases is
          exact absurd broken whole

theorem lossy_cons_ascii {b : Byte} (small : b < 0x80) (rest : Bytes) :
    lossy (b :: rest) = b :: lossy rest := by
  simp only [lossy, List.length_cons, lossyUpTo, followers_ascii small, matched, List.length_nil,
    if_true, List.take_zero, List.drop_zero, List.nil_append]

/-- **Decoding leaves exactly the valid strings alone.** -/
theorem lossy_eq_self_iff {bytes : Bytes} : lossy bytes = bytes ↔ ValidUtf8 bytes :=
  ⟨valid_of_lossyUpTo le_rfl, fun valid => lossyUpTo_valid valid le_rfl⟩

instance (bytes : Bytes) : Decidable (ValidUtf8 bytes) := decidable_of_iff _ lossy_eq_self_iff

theorem valid_lossyUpTo (n : Nat) (bytes : Bytes) : ValidUtf8 (lossyUpTo n bytes) := by
  induction n generalizing bytes with
  | zero => exact ValidUtf8.nil
  | succ n ih =>
    cases bytes with
    | nil => exact ValidUtf8.nil
    | cons first rest =>
      rw [lossyUpTo]
      cases starts : followers first with
      | none => exact ValidUtf8.replacement.append (ih _)
      | some ranges =>
        dsimp only
        split_ifs with whole
        · exact ValidUtf8.char starts (fits_of_matched whole) (ih _)
        · exact ValidUtf8.replacement.append (ih _)

/-- **What decoding returns is valid.** -/
theorem valid_lossy (bytes : Bytes) : ValidUtf8 (lossy bytes) := valid_lossyUpTo _ _

theorem mem_lossyUpTo_ascii {c : Byte} (small : c < 0x80) {n : Nat} {bytes : Bytes}
    (enough : bytes.length ≤ n) : c ∈ lossyUpTo n bytes ↔ c ∈ bytes := by
  have not_replacement : c ∉ replacement := by
    intro member
    simp only [replacement, List.mem_cons, List.not_mem_nil, or_false] at member
    rcases member with rfl | rfl | rfl <;> exact absurd small (by decide)
  induction n generalizing bytes with
  | zero =>
    rw [List.length_eq_zero_iff.mp (Nat.le_zero.mp enough)]
    rfl
  | succ n ih =>
    cases bytes with
    | nil => rfl
    | cons first rest =>
      simp only [List.length_cons] at enough
      rw [lossyUpTo]
      cases starts : followers first with
      | none =>
        have other : c ≠ first := by
          rintro rfl
          rw [followers_ascii small] at starts
          cases starts
        simp only [List.mem_append, not_replacement, false_or, List.mem_cons, other]
        exact ih (by omega)
      | some ranges =>
        dsimp only
        split_ifs with whole
        · have tail : c ∈ lossyUpTo n (rest.drop ranges.length) ↔ c ∈ rest.drop ranges.length :=
            ih (by rw [List.length_drop]; omega)
          rw [List.mem_cons, List.mem_cons, List.mem_append, tail, ← List.mem_append,
            List.take_append_drop]
        · have other : c ≠ first := by
            rintro rfl
            rw [followers_ascii small] at starts
            cases starts
            exact whole rfl
          have kept : c ∈ rest.drop (matched ranges rest) ↔ c ∈ rest := by
            refine ⟨List.mem_of_mem_drop, fun member => ?_⟩
            rw [← List.take_append_drop (matched ranges rest) rest] at member
            rcases List.mem_append.mp member with early | late
            · exact absurd (above_ascii_of_mem_take (above_ascii_of_followers starts) early)
                (not_le.mpr small)
            · exact late
          have tail : c ∈ lossyUpTo n (rest.drop (matched ranges rest)) ↔
              c ∈ rest.drop (matched ranges rest) := ih (by rw [List.length_drop]; omega)
          simp only [List.mem_append, not_replacement, false_or, List.mem_cons, other, tail, kept]

/-- **Decoding neither adds nor drops ASCII bytes.** -/
theorem mem_lossy_ascii {c : Byte} (small : c < 0x80) {bytes : Bytes} :
    c ∈ lossy bytes ↔ c ∈ bytes := mem_lossyUpTo_ascii small le_rfl
