/-
**The volatile state of a Raft node.**

`RaftState` with its role changes, the maps of the leader, and the majority index that moves the
commit index. Terms and indices are natural numbers: a counter of 64 bits is not used up by any run
that steps once a nanosecond for a century.

* `majorityMatchIndex_isGreatest` — the majority index is the largest one that a majority reaches.
* `majorityMatchIndex_reached` — the majority index is reached by a majority of the cluster, the
  leader counted with its own last index.
-/

import Rusd.Lib.Quorum

namespace Rusd

inductive RaftRole
  | follower
  | candidate
  | preCandidate
  | leader
  deriving DecidableEq, Repr

structure RaftState where
  currentTerm : Nat
  votedFor : Option Nat
  role : RaftRole
  leaderId : Option Nat
  commitIndex : Nat
  lastApplied : Nat
  nextIndex : Nat → Option Nat
  matchIndex : Nat → Option Nat

namespace RaftState

def new : RaftState where
  currentTerm := 0
  votedFor := none
  role := .follower
  leaderId := none
  commitIndex := 0
  lastApplied := 0
  nextIndex := fun _ => none
  matchIndex := fun _ => none

/-! ### Role changes -/

def becomeFollower (state : RaftState) (term : Nat) : RaftState :=
  { state with currentTerm := term, role := .follower, votedFor := none, leaderId := none }

/-- The term moves on here, besides where the caller set it. -/
def becomeCandidate (state : RaftState) : RaftState :=
  { state with
    currentTerm := state.currentTerm + 1
    role := .candidate
    votedFor := none
    leaderId := none }

def becomePreCandidate (state : RaftState) : RaftState :=
  { state with role := .preCandidate, leaderId := none }

def becomeLeader (state : RaftState) (selfId : Nat) (peerIds : List Nat) (lastLogIndex : Nat) :
    RaftState :=
  { state with
    role := .leader
    votedFor := none
    leaderId := some selfId
    nextIndex := fun id => if id ∈ peerIds then some (lastLogIndex + 1) else none
    matchIndex := fun id => if id ∈ peerIds then some 0 else none }

def isLeader (state : RaftState) : Bool := state.role = .leader

/-! ### Setters -/

def setTerm (state : RaftState) (term : Nat) : RaftState := { state with currentTerm := term }

def voteFor (state : RaftState) (candidateId : Nat) : RaftState :=
  { state with votedFor := some candidateId }

def setLeaderId (state : RaftState) (leaderId : Nat) : RaftState :=
  { state with leaderId := some leaderId }

def setCommitIndex (state : RaftState) (index : Nat) : RaftState :=
  { state with commitIndex := index }

def setLastApplied (state : RaftState) (index : Nat) : RaftState :=
  { state with lastApplied := index }

def setNextIndex (state : RaftState) (peerId index : Nat) : RaftState :=
  { state with nextIndex := Function.update state.nextIndex peerId (some index) }

def setMatchIndex (state : RaftState) (peerId index : Nat) : RaftState :=
  { state with matchIndex := Function.update state.matchIndex peerId (some index) }

/-- An index at 0, or of an unknown peer, stays. -/
def decrementNextIndex (state : RaftState) (peerId : Nat) : RaftState :=
  match state.nextIndex peerId with
  | some index => if index > 0 then state.setNextIndex peerId (index - 1) else state
  | none => state

/-! ### The majority index -/

/-- The value in the middle of the match indices of the peers and the leader's own last index, sorted
in descending order. -/
def majorityMatchIndex (state : RaftState) (allPeerIds : List Nat) (leaderLastIndex : Nat) : Nat :=
  let indices := allPeerIds.map (fun id => (state.matchIndex id).getD 0) ++ [leaderLastIndex]
  let sorted := indices.insertionSort (· ≥ ·)
  let majority := (allPeerIds.length + 1) / 2 + 1
  (sorted[majority - 1]?).getD 0

/-- An index is not above the majority index exactly if a majority reaches it. -/
theorem le_majorityMatchIndex_iff (state : RaftState) (peers : List Nat) (leaderLastIndex n : Nat) :
    n ≤ state.majorityMatchIndex peers leaderLastIndex ↔ (peers.length + 1) / 2 + 1 ≤
      (peers.map (fun id => (state.matchIndex id).getD 0) ++ [leaderLastIndex]).countP (n ≤ ·) := by
  set indices := peers.map (fun id => (state.matchIndex id).getD 0) ++ [leaderLastIndex]
    with indicesDef
  set sorted := indices.insertionSort (· ≥ ·) with sortedDef
  have perm : sorted.Perm indices := List.perm_insertionSort _ _
  have size : sorted.length = peers.length + 1 := by
    rw [perm.length_eq, indicesDef, List.length_append, List.length_map, List.length_singleton]
  have descending : sorted.Pairwise (· ≥ ·) := List.pairwise_insertionSort _ _
  have inside : (peers.length + 1) / 2 < sorted.length := by rw [size]; omega
  have middle : state.majorityMatchIndex peers leaderLastIndex = sorted[(peers.length + 1) / 2] := by
    rw [majorityMatchIndex]
    show (sorted[(peers.length + 1) / 2 + 1 - 1]?).getD 0 = _
    rw [Nat.add_sub_cancel, List.getElem?_eq_getElem inside]
    rfl
  rw [middle, le_getElem_iff_of_sorted descending inside, perm.countP_eq]

/-- **The majority index is the largest one that a majority reaches**, for peers that repeat or are
unknown as well. -/
theorem majorityMatchIndex_isGreatest (state : RaftState) (peers : List Nat) (leaderLastIndex : Nat) :
    IsGreatest
      {n | (peers.length + 1) / 2 + 1 ≤
        (peers.map (fun id => (state.matchIndex id).getD 0) ++ [leaderLastIndex]).countP (n ≤ ·)}
      (state.majorityMatchIndex peers leaderLastIndex) := by
  constructor
  · exact (le_majorityMatchIndex_iff ..).mp le_rfl
  · intro n reached
    exact (le_majorityMatchIndex_iff ..).mpr reached

/-- **The majority index is reached by a majority.** -/
theorem majorityMatchIndex_reached (state : RaftState) {selfId : Nat} {peers : List Nat}
    (apart : selfId ∉ peers) (nodup : peers.Nodup) (leaderLastIndex : Nat) :
    ∃ voters : Finset Nat, Majority (selfId :: peers) voters ∧ ∀ voter ∈ voters,
      (voter = selfId ∧ state.majorityMatchIndex peers leaderLastIndex ≤ leaderLastIndex) ∨
      (voter ∈ peers ∧
        state.majorityMatchIndex peers leaderLastIndex ≤ (state.matchIndex voter).getD 0) := by
  set value : Nat → Nat :=
    fun id => if id = selfId then leaderLastIndex else (state.matchIndex id).getD 0 with valueDef
  set middle := state.majorityMatchIndex peers leaderLastIndex with middleDef
  have values : peers.map (fun id => (state.matchIndex id).getD 0) ++ [leaderLastIndex] =
      (peers ++ [selfId]).map value := by
    rw [List.map_append]
    congr 1
    · refine List.map_congr_left fun id member => ?_
      rw [valueDef]
      exact (if_neg fun same : id = selfId => apart (same ▸ member)).symm
    · rw [List.map_singleton, valueDef]
      simp
  have count := (state.le_majorityMatchIndex_iff peers leaderLastIndex middle).mp le_rfl
  rw [values, List.countP_map] at count
  have members : (peers ++ [selfId]).Nodup :=
    List.nodup_append.mpr ⟨nodup, List.nodup_singleton _, fun a inPeers b single => by
      rw [List.mem_singleton] at single
      exact fun same => apart (single ▸ same ▸ inPeers)⟩
  refine ⟨((peers ++ [selfId]).filter fun id => decide (middle ≤ value id)).toFinset,
    ⟨fun id member => ?_, ?_⟩, fun voter member => ?_⟩
  · simp only [List.toFinset_filter, Finset.mem_filter, List.mem_toFinset, List.mem_append,
      List.mem_singleton] at member
    simp only [List.toFinset_cons, Finset.mem_insert, List.mem_toFinset]
    exact member.1.symm
  · rw [List.toFinset_card_of_nodup (members.filter _), ← List.countP_eq_length_filter,
      List.length_cons]
    exact count
  · simp only [List.toFinset_filter, Finset.mem_filter, List.mem_toFinset, List.mem_append,
      List.mem_singleton, decide_eq_true_eq] at member
    obtain ⟨where_, reached⟩ := member
    by_cases self : voter = selfId
    · exact .inl ⟨self, by simpa [valueDef, self] using reached⟩
    · exact .inr ⟨where_.resolve_right self, by simpa [valueDef, self] using reached⟩

end RaftState

end Rusd
