/-
**The keys of `kv_rev`** (`storage/mvcc.rs`, `storage/backend.rs`).

A record of a change stands under its revision in big-endian bytes, followed by its key. For revisions
that are not negative the order of the bytes is that of the revisions and then of the keys, so
`Backend::compact` can stop at the first record that is not below its revision.

* `revKeyEmbedding` — the pairs of a revision and a key, in lexicographic order, among the byte strings.
* `Keyed` — a tree whose keys are all of this form.
* `compact_exact` — compaction of such a tree removes what is below the revision and nothing else.
-/

import Rusd.Storage.Mvcc
import Mathlib.Data.Prod.Lex

namespace Rusd

open MvccStore

theorem revKey_injective {a b : Int} (fitsA : IsI64 a) (fitsB : IsI64 b) {key key' : Bytes}
    (same : revKey a key = revKey b key') : a = b ∧ key = key' := by
  obtain ⟨front, back⟩ := List.append_inj same (by simp)
  exact ⟨i64ToBe_injective fitsA fitsB front, back⟩

/-- The revision in front of a `kv_rev` key. -/
theorem take_revKey {revision : Int} (fits : IsI64 revision) (key : Bytes) :
    i64OfBe ((revKey revision key).take 8) = revision := by
  rw [revKey, List.take_left' (length_i64ToBe revision), i64OfBe_i64ToBe fits]

theorem revKey_lt {a b : Int} (low : 0 ≤ a) (high : a < 2 ^ 63) (low' : 0 ≤ b) (high' : b < 2 ^ 63)
    {key key' : Bytes} : revKey a key < revKey b key' ↔ a < b ∨ a = b ∧ key < key' :=
  i64ToBe_append_lt low high low' high'

/-- The revisions of records. -/
abbrev MainRevision := { m : Int // 0 ≤ m ∧ m < 2 ^ 63 }

theorem MainRevision.isI64 (m : MainRevision) : IsI64 m := by
  obtain ⟨low, high⟩ := m.property
  exact ⟨by omega, high⟩

/-- **Byte order is the order of the revisions and then of the keys.** -/
def revKeyEmbedding : MainRevision ×ₗ Bytes ↪o Bytes :=
  OrderEmbedding.ofStrictMono (fun record => revKey (ofLex record).1 (ofLex record).2) <| by
    intro first second less
    refine (revKey_lt (ofLex first).1.2.1 (ofLex first).1.2.2 (ofLex second).1.2.1
      (ofLex second).1.2.2).mpr ?_
    rcases Prod.Lex.lt_iff.mp less with before | ⟨same, before⟩
    · exact .inl before
    · exact .inr ⟨congrArg Subtype.val same, before⟩

theorem revKeyEmbedding_apply (m : MainRevision) (key : Bytes) :
    revKeyEmbedding (toLex (m, key)) = revKey m key := rfl

/-! ### Compaction -/

/-- Every key of the tree `kv_rev` is that of a record. -/
def Keyed (b : Backend) : Prop :=
  ∀ e ∈ (b.tree .kvRev).entries, ∃ (m : MainRevision) (key : Bytes), e.1 = revKey m key

namespace Keyed

variable {b : Backend}

theorem long (keyed : Keyed b) : ∀ e ∈ (b.tree .kvRev).entries, 8 ≤ e.1.length := by
  intro e member
  obtain ⟨m, key, isKey⟩ := keyed e member
  rw [isKey, revKey, List.length_append, length_i64ToBe]
  omega

/-- The walk over the tree meets the revisions in ascending order. -/
theorem ordered (keyed : Keyed b) : (b.tree .kvRev).entries.Pairwise fun x y =>
    i64OfBe (x.1.take 8) ≤ i64OfBe (y.1.take 8) := by
  refine (b.tree .kvRev).sorted.imp_of_mem fun {first second} member member' less => ?_
  obtain ⟨m, key, isKey⟩ := keyed first member
  obtain ⟨m', key', isKey'⟩ := keyed second member'
  rw [isKey, isKey', ← revKeyEmbedding_apply, ← revKeyEmbedding_apply, OrderEmbedding.lt_iff_lt] at less
  rw [isKey, isKey', take_revKey m.isI64, take_revKey m'.isI64]
  rcases Prod.Lex.lt_iff.mp less with before | ⟨same, _⟩
  · exact le_of_lt before
  · exact (congrArg Subtype.val same).le

end Keyed

/-- **Compaction removes exactly the records below its revision.** -/
theorem compact_exact (b : Backend) (keyed : Keyed b) (revision : Int) :
    (∀ key value, (b.compact revision).get .kvRev key = some value ↔
      b.get .kvRev key = some value ∧
        ∃ (m : MainRevision) (k : Bytes), key = revKey m k ∧ revision ≤ m) ∧
      (∀ name, name ≠ .kvRev → (b.compact revision).tree name = b.tree name) ∧
      ∀ (m m' : MainRevision) (k k' : Bytes), revKey m k < revKey m' k' ↔ m < m' ∨ m = m' ∧ k < k' := by
  refine ⟨fun key value => ?_, fun name other => if_neg other, fun m m' k k' => ?_⟩
  · unfold Backend.get
    rw [← OrdMap.mem_entries_iff, ← OrdMap.mem_entries_iff,
      Backend.entries_compact b keyed.long keyed.ordered, List.mem_filter, decide_eq_true_eq]
    refine and_congr_right fun member => ?_
    obtain ⟨m, k, isKey⟩ := keyed _ member
    change key = revKey m k at isKey
    dsimp only
    rw [isKey, take_revKey m.isI64]
    constructor
    · exact fun kept => ⟨m, k, rfl, kept⟩
    · rintro ⟨m', k', same, kept⟩
      rwa [(revKey_injective m.isI64 m'.isI64 same).1]
  · rw [← revKeyEmbedding_apply, ← revKeyEmbedding_apply, OrderEmbedding.lt_iff_lt, Prod.Lex.lt_iff]
    exact Iff.rfl

/-- A backend with the records of two changes. -/
def twoChanges : Backend :=
  (Backend.empty.put .kvRev (revKey 3 [7, 255]) [1]).put .kvRev (revKey 5 []) [2]

theorem keyed_twoChanges : Keyed twoChanges := by
  intro e member
  have either : e = (revKey 3 [7, 255], [1]) ∨ e = (revKey 5 [], [2]) := by
    have listed : (twoChanges.tree .kvRev).entries =
        [(revKey 3 [7, 255], [1]), (revKey 5 [], [2])] := by decide
    rw [listed] at member
    simpa using member
  rcases either with rfl | rfl
  · exact ⟨⟨3, by decide⟩, [7, 255], rfl⟩
  · exact ⟨⟨5, by decide⟩, [], rfl⟩

theorem compact_exact_twoChanges :
    (∀ key value, (twoChanges.compact 4).get .kvRev key = some value ↔
      twoChanges.get .kvRev key = some value ∧
        ∃ (m : MainRevision) (k : Bytes), key = revKey m k ∧ 4 ≤ m.val) ∧
      (∀ name, name ≠ .kvRev → (twoChanges.compact 4).tree name = twoChanges.tree name) ∧
      ∀ (m m' : MainRevision) (k k' : Bytes), revKey m k < revKey m' k' ↔ m < m' ∨ m = m' ∧ k < k' :=
  compact_exact twoChanges keyed_twoChanges 4

end Rusd
