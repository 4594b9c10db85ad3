/-
**The commands in the log** (`api/kv_service.rs`, `api/lease_service.rs`, `server/mod.rs`).

The leader proposes a text, `PUT:key:value` or `DELETE:key:range_end`, built from the lossy decoding
of each field; the apply loop of a follower splits the text again at the first colon. The format has
no escape, so a key that holds a colon is cut there, and it carries no lease.

* `followerCommand` — the store call a follower makes for an entry.
* `followerCommand_putProposal`, `followerCommand_deleteProposal` — what it reads from the leader's
  proposals.
-/

import Rusd.Lib.Utf8
import Rusd.Storage.Reference

namespace Rusd

/-- The bytes of an ASCII text. -/
def ascii (text : List Char) : Bytes := text.map fun c => Fin.ofNat 256 c.toNat

/-- `:`. -/
def colon : Byte := 58

/-- What follows `front`, if the string starts with it. -/
def stripFront (front data : Bytes) : Option Bytes :=
  if front <+: data then some (data.drop front.length) else none

/-- The parts before and after the first separator. -/
def splitOnce (sep : Byte) : Bytes → Option (Bytes × Bytes)
  | [] => none
  | b :: rest =>
    if b = sep then some ([], rest)
    else (splitOnce sep rest).map fun parts => (b :: parts.1, parts.2)

def putTag : Bytes := ascii ['P', 'U', 'T', ':']

def deleteTag : Bytes := ascii ['D', 'E', 'L', 'E', 'T', 'E', ':']

/-- The proposal of a `put`. -/
def putProposal (key value : Bytes) : Bytes := putTag ++ (lossy key ++ colon :: lossy value)

/-- The proposal of a `delete_range`, with the end of the range as the request has it. -/
def deleteProposal (key rangeEnd : Bytes) : Bytes :=
  deleteTag ++ (lossy key ++ colon :: lossy rangeEnd)

/-- The exclusive end of a range of one key. -/
def singleKeyEnd (key : Bytes) : Bytes := key ++ [0]

/-- The store call that the apply loop of a follower makes for a `Normal` entry, if it makes one. -/
def followerCommand (data : Bytes) : Option StoreOp :=
  let text := lossy data
  match stripFront putTag text with
  | some rest => (splitOnce colon rest).map fun parts => .put parts.1 parts.2 0
  | none =>
    match stripFront deleteTag text with
    | some rest => (splitOnce colon rest).map fun parts =>
        .deleteRange parts.1 (if parts.2 = [] then singleKeyEnd parts.1 else parts.2)
    | none => none

/-! ### Taking a text apart -/

theorem stripFront_append (front rest : Bytes) : stripFront front (front ++ rest) = some rest := by
  rw [stripFront, if_pos (List.prefix_append front rest), List.drop_left]

theorem splitOnce_append {sep : Byte} {front : Bytes} (free : sep ∉ front) (rest : Bytes) :
    splitOnce sep (front ++ sep :: rest) = some (front, rest) := by
  induction front with
  | nil => rw [List.nil_append, splitOnce, if_pos rfl]
  | cons b front ih =>
    obtain ⟨other, free⟩ := not_or.mp (fun member => free (List.mem_cons.mpr member))
    rw [List.cons_append, splitOnce, if_neg (fun same => other same.symm), ih free]
    rfl

/-- The part before the first separator has none. -/
theorem sep_not_mem_of_splitOnce {sep : Byte} {data front rest : Bytes}
    (split : splitOnce sep data = some (front, rest)) : sep ∉ front := by
  induction data generalizing front rest with
  | nil => cases split
  | cons b data ih =>
    rw [splitOnce] at split
    split_ifs at split with same
    · cases split
      exact List.not_mem_nil
    · obtain ⟨⟨front', rest'⟩, later, is⟩ := Option.map_eq_some_iff.mp split
      cases is
      rw [List.mem_cons]
      rintro (rfl | member)
      · exact same rfl
      · exact ih later member

/-- A text with a separator is split. -/
theorem splitOnce_isSome {sep : Byte} {data : Bytes} (member : sep ∈ data) :
    ∃ front rest, splitOnce sep data = some (front, rest) := by
  induction data with
  | nil => cases member
  | cons b data ih =>
    rw [splitOnce]
    by_cases same : b = sep
    · exact ⟨[], data, if_pos same⟩
    · rw [if_neg same]
      obtain ⟨front, rest, split⟩ :=
        ih ((List.mem_cons.mp member).resolve_left fun is => same is.symm)
      exact ⟨b :: front, rest, by rw [split]; rfl⟩

/-! ### Reading the proposals -/

theorem colon_small : colon < 0x80 := by decide

theorem valid_putTag : ValidUtf8 putTag := by decide

theorem valid_deleteTag : ValidUtf8 deleteTag := by decide

/-- A proposal is valid, so reading it lossily changes nothing. -/
theorem lossy_proposal {tag : Bytes} (valid : ValidUtf8 tag) (key field : Bytes) :
    lossy (tag ++ (lossy key ++ colon :: lossy field)) =
      tag ++ (lossy key ++ colon :: lossy field) :=
  lossy_eq_self_iff.mpr
    (valid.append ((valid_lossy key).append (ValidUtf8.ascii colon_small (valid_lossy field))))

/-- **What a follower reads from a `put`.** -/
theorem followerCommand_putProposal (key value : Bytes) :
    followerCommand (putProposal key value) =
      (splitOnce colon (lossy key ++ colon :: lossy value)).map
        fun parts => .put parts.1 parts.2 0 := by
  unfold followerCommand putProposal
  simp only [lossy_proposal valid_putTag, stripFront_append]

/-- **What a follower reads from a `delete_range`.** -/
theorem followerCommand_deleteProposal (key rangeEnd : Bytes) :
    followerCommand (deleteProposal key rangeEnd) =
      (splitOnce colon (lossy key ++ colon :: lossy rangeEnd)).map fun parts =>
        .deleteRange parts.1 (if parts.2 = [] then singleKeyEnd parts.1 else parts.2) := by
  have other : stripFront putTag (deleteTag ++ (lossy key ++ colon :: lossy rangeEnd)) = none := by
    rw [stripFront, if_neg]
    intro front
    have first := List.prefix_of_prefix_length_le front (List.prefix_append deleteTag _)
      (by decide)
    exact absurd first (by decide)
  unfold followerCommand deleteProposal
  simp only [lossy_proposal valid_deleteTag, other, stripFront_append]

/-- Every `put` and `delete_range` in the log makes a follower call its store. -/
theorem splitOnce_proposal (key field : Bytes) :
    ∃ front rest, splitOnce colon (lossy key ++ colon :: lossy field) = some (front, rest) :=
  splitOnce_isSome (List.mem_append_right _ List.mem_cons_self)

end Rusd
