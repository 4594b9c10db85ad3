/-
**Concurrent proposals on one leader.**

`propose` and `propose_conf_change` read the last index, append an entry with the next one, and only
then move the last index; no lock is held, and the handlers of the services call them at the same time.
Each of these operations on the log is a step, and the calls take their steps in any order.

* `ProposeRace.step` — one operation of one call.
* `alone_proposes` — a call without company does what `RaftNode.propose` does to the log.
* `Apart` — a call reads the last index only while no other call is between its read and its store.
* `proposals_kept` — then no proposal is lost; and where all calls return, only then.
-/

import Rusd.Lib.Machine
import Rusd.Raft.Node

namespace Rusd

/-! ### The calls -/

/-- What a call proposes. -/
structure Proposal where
  entryType : EntryType
  data : Bytes
  deriving DecidableEq, Repr

/-- Where a call stands. -/
inductive ProposePhase
  | ready
  /-- It has read the last index, and took the next. -/
  | numbered (index : Nat)
  /-- Its batch is applied. -/
  | written (index : Nat)
  /-- It has stored the last index. -/
  | stored (index : Nat)
  /-- It has stored the last term, and returns its index. -/
  | returned (index : Nat)
  deriving DecidableEq, Repr

namespace ProposePhase

/-- The index a call has taken. -/
def index : ProposePhase → Option Nat
  | ready => none
  | numbered index => some index
  | written index => some index
  | stored index => some index
  | returned index => some index

/-- Between the read of the last index and its store. -/
def isOpen : ProposePhase → Bool
  | numbered _ => true
  | written _ => true
  | ready => false
  | stored _ => false
  | returned _ => false

/-- The entry has been written. -/
def isWritten : ProposePhase → Bool
  | written _ => true
  | stored _ => true
  | returned _ => true
  | ready => false
  | numbered _ => false

end ProposePhase

/-- The log of the leader, and its calls. -/
structure ProposeRace where
  log : RaftLog
  phases : Nat → ProposePhase

/-- The entry of a proposal at an index. -/
def Proposal.entry (proposal : Proposal) (term index : Nat) : LogEntry :=
  ⟨index, term, proposal.data, proposal.entryType⟩

namespace ProposeRace

/-- The calls before any step. -/
def start (log : RaftLog) : ProposeRace := ⟨log, fun _ => .ready⟩

/-- The log operation of a call. -/
def operate (term : Nat) (proposal : Proposal) (log : RaftLog) : ProposePhase → RaftLog × ProposePhase
  | .ready => (log, .numbered (log.lastIndex + 1))
  | .numbered index =>
    ({ log with entries := RaftLog.insertAll log.entries [proposal.entry term index] }, .written index)
  | .written index => ({ log with lastIndex := index }, .stored index)
  | .stored index => ({ log with lastTerm := term }, .returned index)
  | .returned index => (log, .returned index)

/-- One step of the call `i`; `none` where there is no such call, or it has returned. -/
def step (term : Nat) (proposals : List Proposal) (s : ProposeRace) (i : Nat) : Option ProposeRace :=
  match proposals[i]? with
  | none => none
  | some proposal =>
    match s.phases i with
    | .returned _ => none
    | phase =>
      let done := operate term proposal s.log phase
      some ⟨done.1, Function.update s.phases i done.2⟩

/-- **No proposal is lost**: the calls that returned have different indices, and each finds its own entry
at its index. -/
def Kept (term : Nat) (proposals : List Proposal) (s : ProposeRace) : Prop :=
  (∀ i j index, s.phases i = .returned index → s.phases j = .returned index → i = j) ∧
  ∀ i index proposal, proposals[i]? = some proposal → s.phases i = .returned index →
    s.log.get index = some (proposal.entry term index)

/-- No call reads the last index while another one is between its read and its store. -/
def Apart (proposals : List Proposal) (s : ProposeRace) (i : Nat) : Prop :=
  s.phases i = .ready → ∀ j < proposals.length, (s.phases j).isOpen = false

instance (proposals : List Proposal) (s : ProposeRace) (i : Nat) : Decidable (Apart proposals s i) :=
  inferInstanceAs (Decidable (_ → _))

variable {term : Nat} {proposals : List Proposal} {s next : ProposeRace} {i : Nat}

/-- A step of a call. -/
theorem step_eq (moves : s.step term proposals i = some next) :
    ∃ proposal, proposals[i]? = some proposal ∧ (∀ index, s.phases i ≠ .returned index) ∧
      next = ⟨(operate term proposal s.log (s.phases i)).1,
        Function.update s.phases i (operate term proposal s.log (s.phases i)).2⟩ := by
  rw [step] at moves
  split at moves
  case h_1 => cases moves
  case h_2 proposal found =>
    split at moves
    case h_1 => cases moves
    case h_2 going =>
      cases moves
      exact ⟨proposal, found, fun index is => going index is, rfl⟩

/-- **A call on its own** does to the log what `propose` does. -/
theorem alone_proposes (node : RaftNode) (proposal : Proposal) :
    (runFrom (step node.state.currentTerm [proposal]) (start node.log) [0, 0, 0, 0]).map (·.log) =
      some (node.propose proposal.entryType proposal.data).log := by
  simp only [runFrom, step, start, operate, List.getElem?_cons_zero, Function.update_self,
    Option.map_some]
  rfl

/-! ### Calls that keep apart -/

/-- One call: while it is open its index is the next one; then it is at most the last one, and its entry
is there. -/
structure CallOk (term : Nat) (proposals : List Proposal) (log : RaftLog) (i : Nat)
    (phase : ProposePhase) : Prop where
  idle : proposals.length ≤ i → phase = .ready
  opened : ∀ index, phase.isOpen = true → phase.index = some index → index = log.lastIndex + 1
  closed : ∀ index, phase.isOpen = false → phase.index = some index →
    log.firstIndex ≤ index ∧ index ≤ log.lastIndex
  own : ∀ index proposal, proposals[i]? = some proposal → phase.isWritten = true →
    phase.index = some index → log.entries index = some (proposal.entry term index)

/-- Both calls are between their read and their store. -/
def BothOpen (a b : ProposePhase) : Prop := a.isOpen = true ∧ b.isOpen = true

/-- Both calls have the same index. -/
def SameIndex (a b : ProposePhase) : Prop := ∃ index, a.index = some index ∧ b.index = some index

/-- **The invariant.** At most one call is open, and no two calls have the same index. -/
structure Sequenced (term : Nat) (proposals : List Proposal) (s : ProposeRace) : Prop where
  first : s.log.firstIndex ≤ s.log.lastIndex + 1
  calls : ∀ i, CallOk term proposals s.log i (s.phases i)
  single : ∀ i j, BothOpen (s.phases i) (s.phases j) → i = j
  distinct : ∀ i j, SameIndex (s.phases i) (s.phases j) → i = j

theorem Sequenced.start {log : RaftLog} (first : log.firstIndex ≤ log.lastIndex + 1) :
    Sequenced term proposals (start log) where
  first := first
  calls := fun _ => ⟨fun _ => rfl, fun _ isOpen => (by cases isOpen), fun _ _ has => (by cases has),
    fun _ _ _ isWritten => (by cases isWritten)⟩
  single := fun _ _ both => by cases both.1
  distinct := fun _ _ ⟨_, has, _⟩ => by cases has

/-- Two calls that must not share something, after a step of the call `i`. -/
theorem unique_after {phases : Nat → ProposePhase} {phase : ProposePhase}
    {R : ProposePhase → ProposePhase → Prop} (symm : ∀ a b, R a b → R b a)
    (before : ∀ j k, R (phases j) (phases k) → j = k) (new : ∀ k, k ≠ i → ¬ R phase (phases k))
    (j k : Nat) (shared : R (Function.update phases i phase j) (Function.update phases i phase k)) :
    j = k := by
  by_cases first : j = i
  · by_cases second : k = i
    · rw [first, second]
    · rw [first, Function.update_self, Function.update_of_ne second] at shared
      exact absurd shared (new k second)
  · by_cases second : k = i
    · rw [second, Function.update_self, Function.update_of_ne first] at shared
      exact absurd (symm _ _ shared) (new j first)
    · rw [Function.update_of_ne first, Function.update_of_ne second] at shared
      exact before j k shared

/-- The invariant after a step of the call `i`, from what the step does to it and to the others. -/
theorem Sequenced.update (inv : Sequenced term proposals s) {log : RaftLog} {phase : ProposePhase}
    (first : log.firstIndex ≤ log.lastIndex + 1) (here : CallOk term proposals log i phase)
    (others : ∀ j, j ≠ i → CallOk term proposals log j (s.phases j))
    (single : phase.isOpen = true → ∀ j, j ≠ i → (s.phases j).isOpen = false)
    (distinct : ∀ index, phase.index = some index → ∀ j, j ≠ i → (s.phases j).index ≠ some index) :
    Sequenced term proposals ⟨log, Function.update s.phases i phase⟩ := by
  refine ⟨first, fun j => ?_, ?_, ?_⟩
  · show CallOk term proposals log j (Function.update s.phases i phase j)
    by_cases same : j = i
    · rw [same, Function.update_self]
      exact here
    · rw [Function.update_of_ne same]
      exact others j same
  · refine unique_after (fun a b both => ⟨both.2, both.1⟩) inv.single fun k ne both => ?_
    exact Bool.false_ne_true ((single both.1 k ne).symm.trans both.2)
  · refine unique_after (fun a b ⟨index, one, two⟩ => ⟨index, two, one⟩) inv.distinct ?_
    rintro k ne ⟨index, mine, theirs⟩
    exact distinct index mine k ne theirs

/-- **A step of a call that keeps apart.** -/
theorem Sequenced.step (inv : Sequenced term proposals s)
    (moves : s.step term proposals i = some next) (apart : Apart proposals s i) :
    Sequenced term proposals next := by
  obtain ⟨proposal, found, -, rfl⟩ := step_eq moves
  have member := (List.getElem?_eq_some_iff.mp found).1
  have mine := inv.calls i
  have othersOpen : (s.phases i).isOpen = true → ∀ j, j ≠ i → (s.phases j).isOpen = false := by
    intro isOpen j ne
    by_contra other
    exact ne (inv.single j i ⟨by simpa using other, isOpen⟩)
  have othersIndex : ∀ index, (s.phases i).index = some index → ∀ j, j ≠ i →
      (s.phases j).index ≠ some index :=
    fun index has j ne other => ne (inv.distinct j i ⟨index, other, has⟩)
  cases phase : s.phases i with
  | ready =>
    have allClosed : ∀ j, (s.phases j).isOpen = false := by
      intro j
      rcases Nat.lt_or_ge j proposals.length with inside | beyond
      · exact apart phase j inside
      · rw [(inv.calls j).idle beyond]
        rfl
    refine inv.update inv.first ⟨fun beyond => by omega, ?_, ?_, ?_⟩ (fun j _ => inv.calls j)
      (fun _ j _ => allClosed j) fun index has j _ other => ?_
    · intro index _ has
      cases has
      rfl
    · intro index isOpen
      cases isOpen
    · intro index proposal _ isWritten
      cases isWritten
    · cases has
      have := ((inv.calls j).closed _ (allClosed j) other).2
      omega
  | numbered n =>
    rw [phase] at mine othersOpen othersIndex
    have writes : ∀ index, RaftLog.insertAll s.log.entries [proposal.entry term n] index =
        if index = n then some (proposal.entry term n) else s.log.entries index := by
      intro index
      show Function.update s.log.entries n (some (proposal.entry term n)) index = _
      rw [Function.update_apply]
    refine inv.update inv.first ⟨fun beyond => by omega, ?_, ?_, ?_⟩ (fun j ne => ?_) othersOpen othersIndex
    · exact fun index _ has => mine.opened index rfl has
    · intro index isOpen
      cases isOpen
    · intro index proposal' found' _ has
      cases has
      rw [found] at found'
      cases found'
      exact (writes n).trans (if_pos rfl)
    · obtain ⟨idle, opened, closed, own⟩ := inv.calls j
      refine ⟨idle, opened, closed, fun index proposal' found' isWritten has => ?_⟩
      have ne : index ≠ n := fun same => othersIndex n rfl j ne (same ▸ has)
      exact ((writes index).trans (if_neg ne)).trans (own index proposal' found' isWritten has)
  | written n =>
    rw [phase] at mine othersOpen othersIndex
    have next : n = s.log.lastIndex + 1 := mine.opened n rfl rfl
    have first := inv.first
    refine inv.update (show s.log.firstIndex ≤ n + 1 by omega) ⟨fun beyond => by omega, ?_, ?_, ?_⟩
      (fun j ne => ?_) ?_ othersIndex
    · intro index isOpen
      cases isOpen
    · intro index _ has
      cases has
      exact ⟨show s.log.firstIndex ≤ n by omega, le_rfl⟩
    · exact fun index proposal' found' _ has => mine.own index proposal' found' rfl has
    · obtain ⟨idle, opened, closed, own⟩ := inv.calls j
      refine ⟨idle, fun index isOpen => ?_, fun index isClosed has => ?_, own⟩
      · rw [othersOpen rfl j ne] at isOpen
        cases isOpen
      · obtain ⟨positive, le⟩ := closed index isClosed has
        exact ⟨positive, show index ≤ n by omega⟩
    · intro isOpen
      cases isOpen
  | stored n =>
    rw [phase] at mine othersIndex
    refine inv.update inv.first ⟨fun beyond => by omega, ?_, ?_, ?_⟩ (fun j _ => ?_) ?_ othersIndex
    · intro index isOpen
      cases isOpen
    · exact fun index _ has => mine.closed index rfl has
    · exact fun index proposal' found' _ has => mine.own index proposal' found' rfl has
    · obtain ⟨idle, opened, closed, own⟩ := inv.calls j
      exact ⟨idle, opened, closed, own⟩
    · intro isOpen
      cases isOpen
  | returned n =>
    rw [phase] at othersIndex mine
    refine inv.update inv.first mine (fun j _ => inv.calls j) ?_ othersIndex
    intro isOpen
    cases isOpen

/-- Calls that are sequenced lose no proposal. -/
theorem Sequenced.kept (inv : Sequenced term proposals s) : Kept term proposals s := by
  refine ⟨fun i j index mine theirs => inv.distinct i j ⟨index, by rw [mine]; rfl, by rw [theirs]; rfl⟩,
    fun i index proposal found returned => ?_⟩
  have call := inv.calls i
  rw [returned] at call
  have kept := (call.closed index rfl rfl).1
  rw [RaftLog.get, if_neg (Nat.not_lt.mpr kept)]
  exact call.own index proposal found rfl rfl

/-! ### Calls that do not keep apart -/

/-- A call keeps the index it took. -/
theorem index_step (moves : s.step term proposals i = some next) {j index : Nat}
    (has : (s.phases j).index = some index) : (next.phases j).index = some index := by
  obtain ⟨proposal, -, -, rfl⟩ := step_eq moves
  show (Function.update s.phases i _ j).index = _
  by_cases same : j = i
  · subst same
    rw [Function.update_self]
    cases phase : s.phases j with
    | ready =>
      rw [phase] at has
      cases has
    | _ =>
      rw [phase] at has
      exact has
  · rw [Function.update_of_ne same]
    exact has

theorem index_run {actions : List Nat} {j index : Nat} : ∀ {s : ProposeRace},
    runFrom (step term proposals) s actions = some next → (s.phases j).index = some index →
      (next.phases j).index = some index := by
  induction actions with
  | nil =>
    intro s runs has
    cases runs
    exact has
  | cons action rest ih =>
    intro s runs has
    obtain ⟨mid, moves, runs⟩ := runFrom_cons runs
    exact ih runs (index_step moves has)

/-- A call that reads the last index while another one is open takes the index of that one. -/
theorem Sequenced.collides (inv : Sequenced term proposals s)
    (moves : s.step term proposals i = some next) (overlaps : ¬ Apart proposals s i) :
    ∃ j index, j ≠ i ∧ (next.phases i).index = some index ∧ (next.phases j).index = some index := by
  rw [Apart] at overlaps
  push Not at overlaps
  obtain ⟨ready, j, -, isOpen⟩ := overlaps
  have ne : j ≠ i := by
    rintro rfl
    rw [ready] at isOpen
    exact isOpen rfl
  have isOpen : (s.phases j).isOpen = true := by simpa using isOpen
  have has : (s.phases j).index = some (s.log.lastIndex + 1) := by
    cases phase : s.phases j with
    | numbered index =>
      have := (inv.calls j).opened index isOpen (by rw [phase]; rfl)
      rw [this]
      rfl
    | written index =>
      have := (inv.calls j).opened index isOpen (by rw [phase]; rfl)
      rw [this]
      rfl
    | ready => rw [phase] at isOpen; cases isOpen
    | stored index => rw [phase] at isOpen; cases isOpen
    | returned index => rw [phase] at isOpen; cases isOpen
  refine ⟨j, s.log.lastIndex + 1, ne, ?_, index_step moves has⟩
  obtain ⟨proposal, -, -, rfl⟩ := step_eq moves
  show (Function.update s.phases i _ i).index = _
  rw [Function.update_self, ready]
  rfl

/-- A complete run that loses nothing keeps its calls apart. -/
theorem apart_of_kept {actions : List Nat} : ∀ {s : ProposeRace}, Sequenced term proposals s →
    runFrom (step term proposals) s actions = some next →
    (∀ i < proposals.length, ∃ index, next.phases i = .returned index) →
    (∀ i, proposals.length ≤ i → next.phases i = .ready) →
    Kept term proposals next → Along (step term proposals) (Apart proposals) s actions := by
  induction actions with
  | nil => exact fun _ _ _ _ _ => trivial
  | cons i rest ih =>
    intro s inv runs complete idle kept
    obtain ⟨mid, moves, runs⟩ := runFrom_cons runs
    have returned : ∀ j index, (mid.phases j).index = some index → next.phases j = .returned index := by
      intro j index has
      have last := index_run runs has
      rcases Nat.lt_or_ge j proposals.length with inside | beyond
      · obtain ⟨index', is⟩ := complete j inside
        rw [is] at last ⊢
        cases last
        rfl
      · rw [idle j beyond] at last
        cases last
    have apart : Apart proposals s i := by
      by_contra overlaps
      obtain ⟨j, index, ne, mine, theirs⟩ := inv.collides moves overlaps
      exact ne (kept.1 j i index (returned j index theirs) (returned i index mine))
    refine ⟨apart, ?_⟩
    rw [moves]
    exact ih (inv.step moves apart) runs complete idle kept

/-- Only calls that were made take steps. -/
theorem idle_run {actions : List Nat} : ∀ {s : ProposeRace},
    (∀ i, proposals.length ≤ i → s.phases i = .ready) →
    runFrom (step term proposals) s actions = some next →
    ∀ i, proposals.length ≤ i → next.phases i = .ready := by
  induction actions with
  | nil =>
    intro s idle runs
    cases runs
    exact idle
  | cons action rest ih =>
    intro s idle runs
    obtain ⟨mid, moves, runs⟩ := runFrom_cons runs
    refine ih (fun j beyond => ?_) runs
    obtain ⟨proposal, found, -, rfl⟩ := step_eq moves
    have inside := (List.getElem?_eq_some_iff.mp found).1
    show Function.update s.phases action _ j = _
    rw [Function.update_of_ne (by omega)]
    exact idle j beyond

/-- **No lost proposals.** Calls that keep apart lose no proposal, in any state of any run; and a run in
which all calls return and none is lost keeps them apart. -/
theorem proposals_kept (term : Nat) (proposals : List Proposal) (log : RaftLog)
    (first : log.firstIndex ≤ log.lastIndex + 1) (actions : List Nat) (s : ProposeRace)
    (runs : runFrom (step term proposals) (start log) actions = some s) :
    (Along (step term proposals) (Apart proposals) (start log) actions → Kept term proposals s) ∧
    ((∀ i < proposals.length, ∃ index, s.phases i = .returned index) → Kept term proposals s →
      Along (step term proposals) (Apart proposals) (start log) actions) := by
  have keeps : ∀ s i next, step term proposals s i = some next → Apart proposals s i →
      Sequenced term proposals s → Sequenced term proposals next :=
    fun _ _ _ moves apart inv => inv.step moves apart
  refine ⟨fun apart => ?_, fun complete kept => ?_⟩
  · exact (run_invariant keeps (Sequenced.start first) apart runs).kept
  · exact apart_of_kept (Sequenced.start first) runs complete (idle_run (fun _ _ => rfl) runs) kept

/-- Two proposals that read the last index one after the other, before either stores it. -/
theorem overlapping_proposals_lost :
    ∃ s, runFrom (step 2 [⟨.normal, [120]⟩, ⟨.normal, [121]⟩]) (start .new) [0, 1, 0, 1, 0, 1, 0, 1] =
        some s ∧ s.phases 0 = .returned 1 ∧ s.phases 1 = .returned 1 ∧
      s.log.get 1 = some ⟨1, 2, [121], .normal⟩ ∧
      ¬ Kept 2 [⟨.normal, [120]⟩, ⟨.normal, [121]⟩] s := by
  refine ⟨_, rfl, rfl, rfl, rfl, fun kept => ?_⟩
  exact absurd (kept.1 0 1 1 rfl rfl) (by decide)

/-- The second proposal begins when the first has stored the last index. -/
theorem sequenced_proposals_kept :
    ∃ s, runFrom (step 2 [⟨.normal, [120]⟩, ⟨.configChange, [121]⟩]) (start .new)
        [0, 0, 0, 1, 0, 1, 1, 1] = some s ∧ s.phases 0 = .returned 1 ∧ s.phases 1 = .returned 2 ∧
      Kept 2 [⟨.normal, [120]⟩, ⟨.configChange, [121]⟩] s := by
  refine ⟨_, rfl, rfl, rfl, ?_⟩
  exact (proposals_kept 2 _ .new le_rfl [0, 0, 0, 1, 0, 1, 1, 1] _ rfl).1 (by decide +kernel)

end ProposeRace

end Rusd
