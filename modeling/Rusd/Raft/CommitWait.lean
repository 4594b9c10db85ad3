/-
**Waiting for the commit index.**

A request that finds the commit index below its entry registers a sender with the node's
`CommitNotifier`, a map from indices to the senders that wait on them; every commit advance of the
leader and every tick then calls `notify_up_to`. Between the test and the registration the commit
index may move, and the advance that moved it may have notified already.

* `queue` — the map as the list of its waiting senders; `register` adds one to it
  (`queue_register`) and `notifyUpTo` splits it at an index (`notifyUpTo_queue`, `notifyUpTo_sent`);
  by these laws the map refines the list of waiters that the node model keeps (`Refines`).
* `step` — the requests, the commit advances and the ticks, interleaved: reading or storing the
  commit index, registering and notifying are steps of their own.
* `Waits` — the invariant: a sender is in the map or has been signalled, once, exactly if its request
  has registered.
* `commit_wait_exact` — no waiter is woken early or twice, and none is missed by a tick.
-/

import Rusd.Lib.Machine
import Rusd.Lib.OrdMap
import Rusd.Raft.Node

namespace Rusd.Waiting

/-! ### The notifier -/

/-- The senders waiting on each index. -/
structure CommitNotifier where
  waiters : OrdMap Nat (List Nat)
  deriving DecidableEq

namespace CommitNotifier

def new : CommitNotifier := ⟨.empty⟩

def register (notifier : CommitNotifier) (index tx : Nat) : CommitNotifier where
  waiters := notifier.waiters.insert index ((notifier.waiters.get? index).getD [] ++ [tx])

/-- The loop of `notify_up_to`: the senders of each key leave the map and are sent to. What becomes
of a send is ignored. -/
def notifyKeys : List Nat → CommitNotifier → CommitNotifier × List Nat
  | [], notifier => (notifier, [])
  | key :: keys, notifier =>
    match notifier.waiters.get? key with
    | some senders =>
      let (after, sent) := notifyKeys keys ⟨notifier.waiters.erase key⟩
      (after, senders ++ sent)
    | none => notifyKeys keys notifier

/-- The notifier after `notify_up_to`, and the senders it sent to. -/
def notifyUpTo (notifier : CommitNotifier) (committedIndex : Nat) : CommitNotifier × List Nat :=
  let keys := (notifier.waiters.entries.filter fun e => e.1 ≤ committedIndex).map Prod.fst
  notifyKeys keys notifier

/-- The waiting senders, each behind its index. -/
def queue (notifier : CommitNotifier) : List (Nat × Nat) :=
  notifier.waiters.entries.flatMap fun e => e.2.map (e.1, ·)

/-- A registered sender joins the queue. -/
theorem queue_register (notifier : CommitNotifier) (index tx : Nat) :
    (notifier.register index tx).queue.Perm (notifier.queue ++ [(index, tx)]) := by
  have inserted := OrdMap.entries_insert_perm notifier.waiters index
    ((notifier.waiters.get? index).getD [] ++ [tx])
  refine (inserted.flatMap_right _).trans ?_
  rw [List.flatMap_cons]
  cases found : notifier.waiters.get? index with
  | none =>
    rw [OrdMap.erase_of_absent found]
    exact List.perm_append_comm
  | some senders =>
    have split := (OrdMap.entries_perm found).flatMap_right fun e => e.2.map (e.1, ·)
    rw [List.flatMap_cons] at split
    refine List.Perm.trans ?_ (split.symm.append_right _)
    simp only [Option.getD_some, List.map_append, List.map_cons, List.map_nil, List.append_assoc]
    exact List.perm_append_comm.append_left _

/-- The loop drops its keys. -/
theorem notifyKeys_waiters (keys : List Nat) (notifier : CommitNotifier) :
    (notifyKeys keys notifier).1.waiters = keys.foldl OrdMap.erase notifier.waiters := by
  induction keys generalizing notifier with
  | nil => rfl
  | cons key keys ih =>
    rw [notifyKeys, List.foldl_cons]
    split
    · rw [ih]
    · rw [ih, OrdMap.erase_of_absent ‹_›]

/-- The loop sends to what its keys hold. -/
theorem notifyKeys_sent {keys : List Nat} (nodup : keys.Nodup) (notifier : CommitNotifier) :
    (notifyKeys keys notifier).2 =
      keys.flatMap fun key => (notifier.waiters.get? key).getD [] := by
  induction keys generalizing notifier with
  | nil => rfl
  | cons key keys ih =>
    obtain ⟨fresh, nodup⟩ := List.nodup_cons.mp nodup
    rw [notifyKeys, List.flatMap_cons]
    split
    case h_1 senders found =>
      have later := ih nodup ⟨notifier.waiters.erase key⟩
      rw [found, Option.getD_some]
      refine congrArg (senders ++ ·) (later.trans (List.flatMap_congr fun other member => ?_))
      have apart : other ≠ key := fun same => fresh (same ▸ member)
      rw [OrdMap.get?_erase, if_neg apart]
    case h_2 absent =>
      rw [absent, Option.getD_none, List.nil_append, ih nodup]

theorem flatMap_filter {α β : Type} (p : α → Bool) (f : α → List β) (l : List α) :
    (l.filter p).flatMap f = l.flatMap fun x => if p x then f x else [] := by
  induction l with
  | nil => rfl
  | cons first rest ih =>
    rw [List.filter_cons, List.flatMap_cons, ← ih]
    split
    · rw [List.flatMap_cons]
    · rw [List.nil_append]

/-- What `notify_up_to` leaves waits on an index above the committed one. -/
theorem notifyUpTo_queue (notifier : CommitNotifier) (c : Nat) :
    (notifier.notifyUpTo c).1.queue = notifier.queue.filter fun waiter => c < waiter.1 := by
  have left : (notifier.notifyUpTo c).1.waiters.entries =
      notifier.waiters.entries.filter fun e => c < e.1 := by
    rw [notifyUpTo, notifyKeys_waiters, OrdMap.entries_foldl_erase]
    refine List.filter_congr fun e member => ?_
    simp only [List.mem_map, List.mem_filter, decide_eq_true_eq, decide_eq_decide]
    constructor
    · intro kept
      by_contra low
      exact kept ⟨e, ⟨member, Nat.le_of_not_lt low⟩, rfl⟩
    · rintro above ⟨other, ⟨-, low⟩, same⟩
      omega
  unfold queue
  rw [left, List.filter_flatMap, flatMap_filter]
  refine List.flatMap_congr fun e _ => ?_
  by_cases above : c < e.1 <;> simp [above, List.filter_map, Function.comp_def]

/-- `notify_up_to` sends to those who wait on an index up to the committed one. -/
theorem notifyUpTo_sent (notifier : CommitNotifier) (c : Nat) :
    (notifier.notifyUpTo c).2 =
      (notifier.queue.filter fun waiter => waiter.1 ≤ c).map Prod.snd := by
  have distinct : ((notifier.waiters.entries.filter fun e => e.1 ≤ c).map Prod.fst).Nodup :=
    notifier.waiters.nodup_keys.sublist (List.filter_sublist.map _)
  rw [notifyUpTo, notifyKeys_sent distinct, List.flatMap_map, flatMap_filter]
  unfold queue
  rw [List.filter_flatMap, List.map_flatMap]
  refine List.flatMap_congr ?_
  rintro ⟨index, senders⟩ member
  rw [OrdMap.mem_entries_iff.mp member]
  by_cases low : index ≤ c <;> simp [low, List.filter_map, Function.comp_def]

/-- A node's list of waiters has the senders of the map. -/
def Refines (notifier : CommitNotifier) (node : Rusd.CommitNotifier) : Prop :=
  notifier.queue.Perm node.waiters

theorem refines_new : Refines new Rusd.CommitNotifier.new := List.Perm.refl _

theorem Refines.register {notifier : CommitNotifier} {node : Rusd.CommitNotifier}
    (refines : Refines notifier node) (index tx : Nat) :
    Refines (notifier.register index tx) (node.register index tx) :=
  (queue_register notifier index tx).trans (refines.append_right _)

/-- **A notification of the map is one of the list**: it wakes the same senders. -/
theorem Refines.notifyUpTo {notifier : CommitNotifier} {node : Rusd.CommitNotifier}
    (refines : Refines notifier node) (c : Nat) :
    Refines (notifier.notifyUpTo c).1 (node.notifyUpTo c) ∧
      (node.signalled ++ (notifier.notifyUpTo c).2).Perm (node.notifyUpTo c).signalled := by
  constructor
  · unfold Refines
    rw [notifyUpTo_queue]
    exact refines.filter _
  · rw [notifyUpTo_sent]
    exact ((refines.filter _).map _).append_left _

end CommitNotifier

/-! ### Requests, commit advances and ticks -/

/-- Where a waiting request is: its index is read from the proposal, tested against the commit
index, and registered if that is lower. -/
inductive Waiter where
  | absent
  | tested (index : Nat)
  | passed (index : Nat)
  | registered (index : Nat)
  deriving DecidableEq

/-- Who notifies: a task that advances the commit index, or a tick. -/
inductive Caller where
  | advance (n : Nat)
  | tick (n : Nat)
  deriving DecidableEq

/-- The shared state, what the requests and the callers hold, and every send so far with the index
it was sent for. A caller between its access to the commit index and its notification holds the value
it stored or read. -/
structure System where
  commitIndex : Nat
  notifier : CommitNotifier
  phase : Nat → Waiter
  pending : Caller → Option Nat
  signals : List (Nat × Nat)

/-- A node nobody waits at. -/
def System.new (commitIndex : Nat) : System where
  commitIndex := commitIndex
  notifier := .new
  phase := fun _ => .absent
  pending := fun _ => none
  signals := []

inductive Action where
  /-- `commit_index() < log_index`. -/
  | test (waiter index : Nat)
  /-- `register(log_index)`. -/
  | register (waiter : Nat)
  /-- `set_commit_index(c)`, by a task that notifies next or by a handler that never does. -/
  | advance (n c : Nat)
  /-- The tick reads the commit index. -/
  | tickRead (n : Nat)
  /-- `notify_up_to` with the value the caller holds. -/
  | notify (caller : Caller)
  deriving DecidableEq

namespace System

def setPhase (s : System) (waiter : Nat) (phase : Waiter) : System :=
  { s with phase := Function.update s.phase waiter phase }

def setPending (s : System) (caller : Caller) (value : Option Nat) : System :=
  { s with pending := Function.update s.pending caller value }

/-- `notify_up_to(c)`. -/
def notifyUpTo (s : System) (c : Nat) : System :=
  let (notifier, sent) := s.notifier.notifyUpTo c
  { s with
    notifier := notifier
    signals := s.signals ++ sent.map (·, c) }

variable {s : System} {waiter other : Nat} {caller mover : Caller}

@[simp] theorem setPhase_self (phase : Waiter) : (s.setPhase waiter phase).phase waiter = phase :=
  Function.update_self ..

theorem setPhase_of_ne (apart : other ≠ waiter) (phase : Waiter) :
    (s.setPhase waiter phase).phase other = s.phase other :=
  Function.update_of_ne apart ..

theorem setPending_of_ne (apart : caller ≠ mover) (value : Option Nat) :
    (s.setPending mover value).pending caller = s.pending caller :=
  Function.update_of_ne apart ..

theorem notifyUpTo_signals (s : System) (c : Nat) :
    (s.notifyUpTo c).signals = s.signals ++
      (s.notifier.queue.filter fun e => e.1 ≤ c).map fun e => (e.2, c) := by
  have sent : (s.notifyUpTo c).signals =
      s.signals ++ (s.notifier.notifyUpTo c).2.map (·, c) := rfl
  rw [sent, CommitNotifier.notifyUpTo_sent, List.map_map]
  rfl

theorem mem_notifyUpTo_signals {c c' : Nat} :
    (waiter, c') ∈ (s.notifyUpTo c).signals ↔
      (waiter, c') ∈ s.signals ∨ (∃ index ≤ c, (index, waiter) ∈ s.notifier.queue) ∧ c' = c := by
  rw [notifyUpTo_signals, List.mem_append, List.mem_map]
  refine or_congr_right ⟨?_, ?_⟩
  · rintro ⟨⟨index, tx⟩, member, same⟩
    obtain ⟨waits, low⟩ := List.mem_filter.mp member
    cases same
    exact ⟨⟨index, of_decide_eq_true low, waits⟩, rfl⟩
  · rintro ⟨⟨index, low, waits⟩, rfl⟩
    exact ⟨(index, waiter), List.mem_filter.mpr ⟨waits, decide_eq_true low⟩, rfl⟩

end System

/-- One step of the interleaving. -/
def step (s : System) : Action → Option System
  | .test waiter index =>
    match s.phase waiter with
    | .absent =>
      if s.commitIndex < index then some (s.setPhase waiter (.tested index))
      else some (s.setPhase waiter (.passed index))
    | _ => none
  | .register waiter =>
    match s.phase waiter with
    | .tested index =>
      some { s.setPhase waiter (.registered index) with
        notifier := s.notifier.register index waiter }
    | _ => none
  | .advance n c =>
    match s.pending (.advance n) with
    | none => some { s.setPending (.advance n) (some c) with commitIndex := c }
    | some _ => none
  | .tickRead n =>
    match s.pending (.tick n) with
    | none => some (s.setPending (.tick n) (some s.commitIndex))
    | some _ => none
  | .notify caller =>
    match s.pending caller with
    | some c => some ((s.notifyUpTo c).setPending caller none)
    | none => none

/-- What each step needs and does. -/
inductive Moves (s : System) : Action → System → Prop
  | behind {waiter index : Nat} (fresh : s.phase waiter = .absent) (low : s.commitIndex < index) :
      Moves s (.test waiter index) (s.setPhase waiter (.tested index))
  | committed {waiter index : Nat} (fresh : s.phase waiter = .absent)
      (reached : index ≤ s.commitIndex) :
      Moves s (.test waiter index) (s.setPhase waiter (.passed index))
  | register {waiter index : Nat} (tested : s.phase waiter = .tested index) :
      Moves s (.register waiter)
        { s.setPhase waiter (.registered index) with
          notifier := s.notifier.register index waiter }
  | advance {n c : Nat} (idle : s.pending (.advance n) = none) :
      Moves s (.advance n c) { s.setPending (.advance n) (some c) with commitIndex := c }
  | tickRead {n : Nat} (idle : s.pending (.tick n) = none) :
      Moves s (.tickRead n) (s.setPending (.tick n) (some s.commitIndex))
  | notify {caller : Caller} {c : Nat} (holds : s.pending caller = some c) :
      Moves s (.notify caller) ((s.notifyUpTo c).setPending caller none)

theorem step_moves {s t : System} {action : Action} (moves : step s action = some t) :
    Moves s action t := by
  unfold step at moves
  split at moves
  case h_1 waiter index =>
    split at moves
    · split at moves
      · cases moves
        exact .behind ‹_› ‹_›
      · cases moves
        exact .committed ‹_› (Nat.le_of_not_lt ‹_›)
    · cases moves
  case h_2 waiter =>
    split at moves
    · cases moves
      exact .register ‹_›
    · cases moves
  case h_3 n c =>
    split at moves
    · cases moves
      exact .advance ‹_›
    · cases moves
  case h_4 n =>
    split at moves
    · cases moves
      exact .tickRead ‹_›
    · cases moves
  case h_5 caller =>
    split at moves
    · cases moves
      exact .notify ‹_›
    · cases moves

/-! ### What a step keeps -/

theorem never_registered {s : System} {waiter : Nat} {phase : Waiter} (now : s.phase waiter = phase)
    (other : ∀ index, phase ≠ .registered index) : ∀ index, s.phase waiter ≠ .registered index := by
  rw [now]
  exact other

/-- The phase of another waiter, which is not registered, is set. -/
theorem registered_setPhase {s : System} {waiter other index : Nat} {phase : Waiter}
    (never : ∀ i, s.phase other ≠ .registered i) (registered : s.phase waiter = .registered index) :
    (s.setPhase other phase).phase waiter = .registered index := by
  have apart : waiter ≠ other := fun same => never index (same ▸ registered)
  rw [System.setPhase_of_ne apart, registered]

/-- A registered waiter stays registered. -/
theorem registered_step {s t : System} {action : Action} {waiter index : Nat}
    (moves : step s action = some t) (registered : s.phase waiter = .registered index) :
    t.phase waiter = .registered index := by
  cases step_moves moves with
  | behind fresh low => exact registered_setPhase (never_registered fresh nofun) registered
  | committed fresh reached => exact registered_setPhase (never_registered fresh nofun) registered
  | register tested => exact registered_setPhase (never_registered tested nofun) registered
  | advance idle => exact registered
  | tickRead idle => exact registered
  | notify holds => exact registered

/-- What a caller holds, it holds until its own notification. -/
theorem pending_step {s t : System} {action : Action} {caller : Caller} {c : Nat}
    (moves : step s action = some t) (other : action ≠ .notify caller)
    (holds : s.pending caller = some c) : t.pending caller = some c := by
  have elsewhere : ∀ mover value, mover ≠ caller →
      (s.setPending mover value).pending caller = some c := by
    intro mover value apart
    rw [System.setPending_of_ne apart.symm, holds]
  cases step_moves moves with
  | behind fresh low => exact holds
  | committed fresh reached => exact holds
  | register tested => exact holds
  | advance idle =>
    exact elsewhere _ _ fun same => by rw [same, holds] at idle; cases idle
  | tickRead idle =>
    exact elsewhere _ _ fun same => by rw [same, holds] at idle; cases idle
  | notify held => exact elsewhere _ none fun same => other (same ▸ rfl)

/-- No send is taken back. -/
theorem signals_step {s t : System} {action : Action} {waiter c : Nat}
    (moves : step s action = some t) (sent : (waiter, c) ∈ s.signals) : (waiter, c) ∈ t.signals := by
  cases step_moves moves with
  | behind fresh low => exact sent
  | committed fresh reached => exact sent
  | register tested => exact sent
  | advance idle => exact sent
  | tickRead idle => exact sent
  | notify holds => exact List.mem_append_left _ sent

/-! ### The invariant -/

/-- **Every registered waiter waits or has been woken, once.** -/
structure Waits (s : System) : Prop where
  owners : ∀ index waiter, (index, waiter) ∈ s.notifier.queue →
    s.phase waiter = .registered index
  early : ∀ waiter c, (waiter, c) ∈ s.signals → ∃ index ≤ c, s.phase waiter = .registered index
  once : (s.notifier.queue.map Prod.snd ++ s.signals.map Prod.fst).Nodup
  kept : ∀ waiter index, s.phase waiter = .registered index →
    (index, waiter) ∈ s.notifier.queue ∨ ∃ c, (waiter, c) ∈ s.signals

theorem Waits.new (commitIndex : Nat) : Waits (.new commitIndex) where
  owners := nofun
  early := nofun
  once := List.nodup_nil
  kept := nofun

/-- A waiter that has not registered is nowhere. -/
theorem Waits.unregistered {s : System} (waits : Waits s) {waiter : Nat}
    (never : ∀ index, s.phase waiter ≠ .registered index) :
    waiter ∉ s.notifier.queue.map Prod.snd ++ s.signals.map Prod.fst := by
  rw [List.mem_append, List.mem_map, List.mem_map]
  rintro (⟨⟨index, tx⟩, member, rfl⟩ | ⟨⟨tx, c⟩, member, rfl⟩)
  · exact never index (waits.owners index _ member)
  · obtain ⟨index, -, registered⟩ := waits.early _ c member
    exact never index registered

/-- A waiter that does not register leaves the invariant alone. -/
theorem Waits.setPhase {s : System} (waits : Waits s) {waiter : Nat} {phase : Waiter}
    (before : ∀ index, s.phase waiter ≠ .registered index)
    (after : ∀ index, phase ≠ .registered index) : Waits (s.setPhase waiter phase) where
  owners := by
    intro index other member
    exact registered_setPhase before (waits.owners index other member)
  early := by
    intro other c member
    obtain ⟨index, low, registered⟩ := waits.early other c member
    exact ⟨index, low, registered_setPhase before registered⟩
  once := waits.once
  kept := by
    intro other index registered
    by_cases same : other = waiter
    · subst other
      rw [System.setPhase_self] at registered
      exact absurd registered (after index)
    · rw [System.setPhase_of_ne same] at registered
      exact waits.kept other index registered

/-- A registration puts a new waiter in the queue. -/
theorem Waits.register {s : System} (waits : Waits s) {waiter index : Nat}
    (tested : s.phase waiter = .tested index) :
    Waits { s.setPhase waiter (.registered index) with
      notifier := s.notifier.register index waiter } := by
  have joined := CommitNotifier.queue_register s.notifier index waiter
  have never := never_registered tested nofun
  have fresh := waits.unregistered never
  refine ⟨?_, ?_, ?_, ?_⟩
  · intro i other member
    rcases List.mem_append.mp (joined.subset member) with old | last
    · exact registered_setPhase never (waits.owners i other old)
    · cases List.mem_singleton.mp last
      exact System.setPhase_self _
  · intro other c member
    obtain ⟨i, low, registered⟩ := waits.early other c member
    exact ⟨i, low, registered_setPhase never registered⟩
  · have moved : ((s.notifier.register index waiter).queue.map Prod.snd ++
        s.signals.map Prod.fst).Perm
        (waiter :: (s.notifier.queue.map Prod.snd ++ s.signals.map Prod.fst)) := by
      refine ((joined.map Prod.snd).append_right _).trans ?_
      rw [List.map_append, List.map_singleton, List.append_assoc, List.singleton_append]
      exact List.perm_middle
    exact moved.nodup_iff.mpr (List.nodup_cons.mpr ⟨fresh, waits.once⟩)
  · intro other i registered
    by_cases same : other = waiter
    · subst other
      have equal := (System.setPhase_self (s := s) (.registered index)).symm.trans registered
      cases equal
      exact .inl (joined.symm.subset (List.mem_append_right _ List.mem_cons_self))
    · have unmoved := (System.setPhase_of_ne same _).symm.trans registered
      refine (waits.kept other i unmoved).imp_left fun member => ?_
      exact joined.symm.subset (List.mem_append_left _ member)

/-- A notification moves waiters from the queue to the signalled ones. -/
theorem Waits.notifyUpTo {s : System} (waits : Waits s) (c : Nat) : Waits (s.notifyUpTo c) := by
  have left : (s.notifyUpTo c).notifier.queue = s.notifier.queue.filter fun e => c < e.1 :=
    CommitNotifier.notifyUpTo_queue s.notifier c
  refine ⟨?_, ?_, ?_, ?_⟩
  · intro index waiter member
    rw [left] at member
    exact waits.owners index waiter (List.mem_of_mem_filter member)
  · intro waiter c' member
    rcases System.mem_notifyUpTo_signals.mp member with sent | ⟨⟨index, low, waiting⟩, rfl⟩
    · exact waits.early waiter c' sent
    · exact ⟨index, low, waits.owners index waiter waiting⟩
  · have sent : (s.notifyUpTo c).signals.map Prod.fst =
        s.signals.map Prod.fst ++ (s.notifier.queue.filter fun e => e.1 ≤ c).map Prod.snd := by
      rw [System.notifyUpTo_signals, List.map_append, List.map_map]
      rfl
    have halves : (s.notifier.queue.filter fun e => c < e.1) =
        s.notifier.queue.filter fun e => !decide (e.1 ≤ c) := by
      refine List.filter_congr fun e _ => ?_
      rw [← decide_not, decide_eq_decide]
      exact Nat.not_le.symm
    have whole : ((s.notifyUpTo c).notifier.queue.map Prod.snd ++
        (s.notifyUpTo c).signals.map Prod.fst).Perm
        (s.notifier.queue.map Prod.snd ++ s.signals.map Prod.fst) := by
      have split := (List.filter_append_perm (fun e : Nat × Nat => decide (e.1 ≤ c))
        s.notifier.queue).map Prod.snd
      rw [List.map_append] at split
      rw [left, sent, halves]
      refine List.perm_append_comm.trans ?_
      rw [List.append_assoc]
      exact (split.append_left _).trans List.perm_append_comm
    exact whole.nodup_iff.mpr waits.once
  · intro waiter index registered
    rcases waits.kept waiter index registered with waiting | ⟨c', sent⟩
    · by_cases low : index ≤ c
      · exact .inr ⟨c, System.mem_notifyUpTo_signals.mpr (.inr ⟨⟨index, low, waiting⟩, rfl⟩)⟩
      · refine .inl ?_
        rw [left]
        exact List.mem_filter.mpr ⟨waiting, decide_eq_true (Nat.lt_of_not_le low)⟩
    · exact .inr ⟨c', System.mem_notifyUpTo_signals.mpr (.inl sent)⟩

theorem Waits.step {s t : System} {action : Action} (moves : step s action = some t)
    (waits : Waits s) : Waits t := by
  cases step_moves moves with
  | behind fresh low => exact waits.setPhase (never_registered fresh nofun) nofun
  | committed fresh reached => exact waits.setPhase (never_registered fresh nofun) nofun
  | register tested => exact waits.register tested
  | advance idle => exact ⟨waits.owners, waits.early, waits.once, waits.kept⟩
  | tickRead idle => exact ⟨waits.owners, waits.early, waits.once, waits.kept⟩
  | notify holds =>
    have notified := waits.notifyUpTo
    exact ⟨(notified _).owners, (notified _).early, (notified _).once, (notified _).kept⟩

theorem Waits.run {commitIndex : Nat} {actions : List Action} {s : System}
    (runs : runFrom Waiting.step (.new commitIndex) actions = some s) : Waits s :=
  run_always (fun _ _ _ moves waits => waits.step moves) (Waits.new commitIndex) runs

/-! ### No early, no double, no lost wake-ups -/

/-- After a notification, a waiter registered on an index up to the committed one has been sent to. -/
theorem woken_by_notify {s t : System} {caller : Caller} {waiter index c : Nat} (waits : Waits s)
    (moves : step s (.notify caller) = some t) (holds : s.pending caller = some c)
    (registered : s.phase waiter = .registered index) (low : index ≤ c) :
    ∃ c, (waiter, c) ∈ t.signals := by
  cases step_moves moves with
  | notify held =>
    cases held.symm.trans holds
    rcases waits.kept waiter index registered with waiting | ⟨c', sent⟩
    · exact ⟨c, System.mem_notifyUpTo_signals.mpr (.inr ⟨⟨index, low, waiting⟩, rfl⟩)⟩
    · exact ⟨c', System.mem_notifyUpTo_signals.mpr (.inl sent)⟩

/-- The wake-ups of a run: a send is made for the index its waiter asked for or a later one, no
waiter is sent to twice, and a tick that reads a commit index at or above that of a waiter registered
before has it sent to by the end of its notification. -/
structure Exact (start : System) (actions : List Action) (s : System) : Prop where
  early : ∀ waiter c, (waiter, c) ∈ s.signals → ∃ index ≤ c, s.phase waiter = .registered index
  once : (s.signals.map Prod.fst).Nodup
  woken : ∀ before during after n,
    actions = before ++ .tickRead n :: (during ++ .notify (.tick n) :: after) →
    .notify (.tick n) ∉ during → ∀ mid waiter index, runFrom step start before = some mid →
      mid.phase waiter = .registered index → index ≤ mid.commitIndex →
        ∃ c, (waiter, c) ∈ s.signals

/-- **Commit waiting has no early and no lost wake-ups.** -/
theorem commit_wait_exact (commitIndex : Nat) (actions : List Action) (s : System)
    (runs : runFrom step (.new commitIndex) actions = some s) :
    Exact (.new commitIndex) actions s := by
  have waits := Waits.run runs
  refine ⟨waits.early, (List.nodup_append.mp waits.once).2.1, ?_⟩
  intro before during after n same unnotified mid waiter index reaches registered low
  subst same
  obtain ⟨mid', reaches', rest⟩ := runFrom_split runs
  cases reaches.symm.trans reaches'
  obtain ⟨reading, reads, rest⟩ := runFrom_cons rest
  obtain ⟨held, between, rest⟩ := runFrom_split rest
  obtain ⟨notified, notifies, rest⟩ := runFrom_cons rest
  have taken : reading.pending (.tick n) = some mid.commitIndex := by
    cases step_moves reads with
    | tickRead idle => exact Function.update_self ..
  -- The tick keeps what it read until it notifies, and the waiter stays registered.
  have keepsPending : ∀ u action v, step u action = some v → action ≠ .notify (.tick n) →
      u.pending (.tick n) = some mid.commitIndex → v.pending (.tick n) = some mid.commitIndex :=
    fun _ _ _ => pending_step
  have keepsPhase : ∀ u action v, step u action = some v → u.phase waiter = .registered index →
      v.phase waiter = .registered index := fun _ _ _ => registered_step
  have alone : ∀ action ∈ during, action ≠ .notify (.tick n) := by
    rintro action member rfl
    exact unnotified member
  have holding := run_invariant keepsPending taken (Along.of_forall alone reading) between
  have still := run_always keepsPhase (registered_step reads registered) between
  have inside : Waits held :=
    run_always (fun _ _ _ => Waits.step) ((Waits.run reaches).step reads) between
  obtain ⟨c, sent⟩ := woken_by_notify inside notifies holding still low
  have keepsSent : ∀ u action v, step u action = some v → (waiter, c) ∈ u.signals →
      (waiter, c) ∈ v.signals := fun _ _ _ => signals_step
  exact ⟨c, run_always keepsSent sent rest⟩

/-- The commit index moves and is announced between a test and its registration. -/
def window : List Action :=
  [.test 7 3, .advance 0 3, .notify (.advance 0), .register 7, .tickRead 0, .notify (.tick 0)]

/-- The tick wakes the waiter that the advance has missed. -/
theorem commit_wait_exact_window : ∃ s, runFrom step (.new 0) window = some s ∧
    s.signals = [(7, 3)] ∧ Exact (.new 0) window s :=
  ⟨_, rfl, by decide, commit_wait_exact 0 window _ rfl⟩

end Rusd.Waiting
