/-
**The timers of the nodes** (`raft/node.rs`).

The loop of a node ticks. A tick reads the time once: it starts an election if the election timer has run
out, sends a round of heartbeats if the node leads and the heartbeat timer has run out, and applies. An
election takes time, in which the handlers of other nodes' calls run; they put the election timer off. One
action is one piece of a tick or one step of another task, at the present time. A counting loop may give up
at any time, whatever its deadline, and no log is long enough for a snapshot.

* `Timers` — a configuration whose timeouts are well defined.
* `TickPhase`, `Clock` — where the tick of a node stands, its two timers, and a record of what the node has
  begun, sent and heard, which nothing reads.
* `TimedCluster.step` — every action; `run_untimed` takes the run to a run of the cluster.
* `Clock.Moves`, `step_clock` — what an action does to the clock of a node; `Turns` and `Pulses` are what is
  left of it for the election timer and for the heartbeats.
* `elections_apart` — what keeps a node from starting an election, and for how long.
* `Paced`, `Paced.silence` — rounds that follow each other within a gap, and the silence they leave.
* `heard_leader_unchallenged` — a node that hears its leader in time starts no election.
-/

import Rusd.Raft.ElectionTimeout
import Rusd.Raft.Election

namespace Rusd

/-! ### The durations -/

/-- A configuration that `validate` accepts, and whose random timeouts do not panic. -/
structure Timers where
  config : Timing.RaftConfig
  valid : config.validate = .ok ()
  range : config.electionTimeoutMin.asMillis ≠ config.electionTimeoutMax.asMillis

namespace Timers

variable (timers : Timers)

/-- The durations in nanoseconds, which is also the unit of the instants. -/
def electionMin : Nat := timers.config.electionTimeoutMin.nanos

def heartbeatInterval : Nat := timers.config.heartbeatInterval.nanos

theorem timeout (hash : UInt64) : ∃ d, Timing.randomElectionTimeoutStatic timers.config hash = some d ∧
    timers.config.electionTimeoutMin ≤ d ∧ d < timers.config.electionTimeoutMax :=
  have ordered := Duration.asMillis_mono (Timing.RaftConfig.validate_eq_ok_iff.mp timers.valid).1.le
  Timing.electionTimeout_bounds (ordered.lt_of_ne timers.range) hash

/-- A random election timeout; the hash is drawn from the time. -/
def randomElectionTimeout (hash : UInt64) : Nat :=
  ((Timing.randomElectionTimeoutStatic timers.config hash).getD timers.config.electionTimeoutMin).nanos

theorem electionMin_le (hash : UInt64) : timers.electionMin ≤ timers.randomElectionTimeout hash := by
  obtain ⟨d, drawn, above, -⟩ := timers.timeout hash
  rw [randomElectionTimeout, drawn]
  exact above

end Timers

/-! ### The clock of a node -/

/-- Where the tick of a node stands, with the time that it has read. -/
inductive TickPhase
  | idle
  | electing (start : Nat)
  | beating (start : Nat)
  | applying
  deriving DecidableEq, Repr

structure Clock where
  electionTimer : Option Nat
  heartbeatTimer : Option Nat
  phase : TickPhase
  /-- How many elections its ticks have begun. -/
  elections : Nat
  /-- When it sent a round of heartbeats, the last one first. -/
  rounds : List Nat
  /-- When the last tick began that reached its heartbeats as a leader. -/
  lastBeat : Nat
  /-- When it last took a request of a leader. -/
  heard : Nat
  deriving DecidableEq, Repr

namespace Clock

/-- The election timer has run out. -/
def Expired (clock : Clock) (now : Nat) : Prop := ∃ t ∈ clock.electionTimer, t < now

instance (clock : Clock) (now : Nat) : Decidable (clock.Expired now) :=
  inferInstanceAs (Decidable (∃ t ∈ clock.electionTimer, t < now))

/-- The node is in an election that its tick has begun. -/
def Electing (clock : Clock) : Prop := ∃ start, clock.phase = .electing start

variable (clock : Clock) (timers : Timers) (now : Nat)

/-- The election timer is put off. -/
def defer (hash : UInt64) : Clock :=
  { clock with electionTimer := some (now + timers.randomElectionTimeout hash) }

/-- The round that a new leader sends. -/
def lead : Clock :=
  { clock with
    heartbeatTimer := some (now + timers.heartbeatInterval)
    rounds := now :: clock.rounds }

end Clock

/-! ### The cluster in time -/

structure TimedCluster where
  cluster : Cluster
  now : Nat
  timers : Nat → Timers
  clocks : Nat → Clock

inductive TimedAction
  | pass (nanos : Nat)
  /-- A tick begins: it reads the time and tests the election timer. -/
  | tick (id : Nat)
  /-- The tick goes on after its election. -/
  | elected (id : Nat) (hash : UInt64)
  /-- The tick tests the heartbeat timer. -/
  | beat (id : Nat)
  | apply (id : Nat)
  /-- A step of another task. -/
  | task (action : Cluster.Action) (hash : UInt64)
  deriving DecidableEq, Repr

namespace TimedCluster

/-- The nodes start at time zero. -/
def start (config : ClusterConfig) (timers : Nat → Timers) (hashes : Nat → UInt64) : TimedCluster where
  cluster := .start config
  now := 0
  timers := timers
  clocks := fun id => ⟨some ((timers id).randomElectionTimeout (hashes id)), none, .idle, 0, [], 0, 0⟩

/-- Election timeouts, heartbeats and rounds of application are parts of the tick. -/
def isTask : Cluster.Action → Bool
  | .electionTimeout _ => false
  | .heartbeat _ => false
  | .apply _ => false
  | _ => true

/-- The node takes a request of a leader. -/
def hears (s : Cluster) (id : Nat) : Cluster.Action → Bool
  | .deliverAppend call => call.peer = id &&
      (s.appendCalls call).any fun append => (s.raft id).state.currentTerm ≤ append.request.term
  | _ => false

/-- The node gives its vote. -/
def grants (s : Cluster) (id : Nat) : Cluster.Action → Bool
  | .deliverVote call => call.peer = id && (s.voteCalls call).any fun vote =>
      !vote.request.preVote && ((s.raft id).handleRequestVote vote.request).2.voteGranted
  | _ => false

/-- The counting loop of the node takes the last vote it needs. -/
def wins (s : Cluster) (id : Nat) : Cluster.Action → Bool
  | .countVote winner => winner = id && (s.members id).campaign.any fun campaign =>
      !campaign.request.preVote && decide (campaign.nextCount ≥ (s.raft id).majority)
  | _ => false

/-- A node without peers is elected as soon as it stands. -/
def standsAlone (s : Cluster) (id : Nat) : Bool :=
  (s.raft id).peerIds.isEmpty && !(s.raft id).state.isLeader

/-- The clock of a node after a step of another task. -/
def taskClock (s : TimedCluster) (action : Cluster.Action) (hash : UInt64) (id : Nat) : Clock :=
  let clock := s.clocks id
  if hears s.cluster id action then { clock.defer (s.timers id) s.now hash with heard := s.now }
  else if grants s.cluster id action then clock.defer (s.timers id) s.now hash
  else if wins s.cluster id action then clock.lead (s.timers id) s.now
  else clock

def setClock (s : TimedCluster) (id : Nat) (clock : Clock) : TimedCluster :=
  { s with clocks := Function.update s.clocks id clock }

/-- A step of the cluster, and the clock of a node after it. -/
def act (s : TimedCluster) (action : Cluster.Action) (id : Nat) (clock : Clock) : Option TimedCluster :=
  (s.cluster.step action).map fun cluster => { s.setClock id clock with cluster := cluster }

/-- The part of a tick up to the election; one that begins no election goes on at once. -/
def tick (s : TimedCluster) (id : Nat) : Option TimedCluster :=
  let clock := s.clocks id
  if clock.phase = .idle ∧ id ∈ s.cluster.ids then
    if clock.Expired s.now then
      let stands := { clock with phase := .electing s.now, elections := clock.elections + 1 }
      s.act (.electionTimeout id) id
        (if standsAlone s.cluster id then stands.lead (s.timers id) s.now else stands)
    else some (s.setClock id { clock with phase := .beating s.now })
  else none

/-- The timer is set by the time that the tick read before its election. -/
def elected (s : TimedCluster) (id : Nat) (hash : UInt64) : Option TimedCluster :=
  let clock := s.clocks id
  match clock.phase with
  | .electing start =>
    if (s.cluster.members id).campaign = none then
      some (s.setClock id { clock.defer (s.timers id) start hash with phase := .beating start })
    else none
  | _ => none

/-- The heartbeats of a tick. -/
def beat (s : TimedCluster) (id : Nat) : Option TimedCluster :=
  let clock := s.clocks id
  match clock.phase with
  | .beating start =>
    if (s.cluster.raft id).state.isLeader then
      let beaten := { clock with phase := .applying, lastBeat := start }
      match clock.heartbeatTimer with
      | some t =>
        if t < start then
          s.act (.heartbeat id) id { beaten with
            heartbeatTimer := some (start + (s.timers id).heartbeatInterval)
            rounds := s.now :: clock.rounds }
        else some (s.setClock id beaten)
      | none => some (s.setClock id { beaten with
          heartbeatTimer := some (start + (s.timers id).heartbeatInterval) })
    else some (s.setClock id { clock with phase := .applying })
  | _ => none

def apply (s : TimedCluster) (id : Nat) : Option TimedCluster :=
  if (s.clocks id).phase = .applying then
    s.act (.apply id) id { s.clocks id with phase := .idle }
  else none

/-- One action; `none` where it is not enabled. -/
def step (s : TimedCluster) : TimedAction → Option TimedCluster
  | .pass nanos => some { s with now := s.now + nanos }
  | .tick id => s.tick id
  | .elected id hash => s.elected id hash
  | .beat id => s.beat id
  | .apply id => s.apply id
  | .task action hash =>
    if isTask action then
      (s.cluster.step action).map fun cluster =>
        { s with cluster := cluster, clocks := s.taskClock action hash }
    else none

def run (config : ClusterConfig) (timers : Nat → Timers) (hashes : Nat → UInt64)
    (actions : List TimedAction) : Option TimedCluster :=
  runFrom step (start config timers hashes) actions

end TimedCluster

/-! ### What an action does to a clock -/

/-- **The clock of one node.** -/
inductive Clock.Moves (timers : Timers) (now : Nat) (old : Clock) : Clock → Prop
  | same : Moves timers now old old
  | stand (idle : old.phase = .idle) (expired : old.Expired now) :
      Moves timers now old { old with phase := .electing now, elections := old.elections + 1 }
  | standAlone (idle : old.phase = .idle) (expired : old.Expired now) :
      Moves timers now old
        (({ old with phase := .electing now, elections := old.elections + 1 } : Clock).lead timers now)
  | goOn (idle : old.phase = .idle) : Moves timers now old { old with phase := .beating now }
  | elected {start : Nat} (hash : UInt64) (phase : old.phase = .electing start) :
      Moves timers now old { old.defer timers start hash with phase := .beating start }
  | beat {start t : Nat} (phase : old.phase = .beating start) (timer : old.heartbeatTimer = some t)
      (expired : t < start) :
      Moves timers now old { old with
        phase := .applying, lastBeat := start
        heartbeatTimer := some (start + timers.heartbeatInterval), rounds := now :: old.rounds }
  | early {start t : Nat} (phase : old.phase = .beating start) (timer : old.heartbeatTimer = some t)
      (early : start ≤ t) : Moves timers now old { old with phase := .applying, lastBeat := start }
  | wind {start : Nat} (phase : old.phase = .beating start) (timer : old.heartbeatTimer = none) :
      Moves timers now old { old with
        phase := .applying, lastBeat := start
        heartbeatTimer := some (start + timers.heartbeatInterval) }
  | follow {start : Nat} (phase : old.phase = .beating start) :
      Moves timers now old { old with phase := .applying }
  | apply (phase : old.phase = .applying) : Moves timers now old { old with phase := .idle }
  | hear (hash : UInt64) : Moves timers now old { old.defer timers now hash with heard := now }
  | grant (hash : UInt64) : Moves timers now old (old.defer timers now hash)
  | win : Moves timers now old (old.lead timers now)

namespace TimedCluster

variable {s next : TimedCluster} {id : Nat}

theorem setClock_moves {clock : Clock} (other : Nat)
    (moves : (s.clocks id).Moves (s.timers id) s.now clock) :
    (s.clocks other).Moves (s.timers other) s.now ((s.setClock id clock).clocks other) := by
  by_cases here : other = id
  · subst here
    rw [show (s.setClock other clock).clocks other = clock from Function.update_self ..]
    exact moves
  · rw [show (s.setClock id clock).clocks other = s.clocks other from Function.update_of_ne here ..]
    exact .same

/-- What an action leaves alone, and how each clock may move. -/
structure Advances (s next : TimedCluster) : Prop where
  now : s.now ≤ next.now
  timers : next.timers = s.timers
  clocks : ∀ id, (s.clocks id).Moves (s.timers id) s.now (next.clocks id)

theorem Advances.setClock {clock : Clock} (moves : (s.clocks id).Moves (s.timers id) s.now clock) :
    Advances s (s.setClock id clock) :=
  ⟨le_rfl, rfl, fun other => setClock_moves other moves⟩

theorem Advances.act {action : Cluster.Action} {clock : Clock}
    (moves : (s.clocks id).Moves (s.timers id) s.now clock) (acts : s.act action id clock = some next) :
    Advances s next := by
  obtain ⟨cluster, -, rfl⟩ := Option.map_eq_some_iff.mp acts
  exact ⟨le_rfl, rfl, fun other => setClock_moves other moves⟩

/-- **Every action moves the clocks so.** -/
theorem step_clock {action : TimedAction} (moves : s.step action = some next) : Advances s next := by
  cases action with
  | pass nanos =>
    cases moves
    exact ⟨Nat.le_add_right _ _, rfl, fun _ => .same⟩
  | tick id =>
    rw [step, tick] at moves
    dsimp only at moves
    split at moves
    case isFalse => cases moves
    case isTrue enabled =>
      split at moves
      case isTrue expired =>
        refine Advances.act ?_ moves
        split
        · exact .standAlone enabled.1 expired
        · exact .stand enabled.1 expired
      case isFalse =>
        cases moves
        exact .setClock (.goOn enabled.1)
  | elected id hash =>
    rw [step, elected] at moves
    dsimp only at moves
    split at moves
    case h_2 => cases moves
    case h_1 start phase =>
      split at moves
      case isFalse => cases moves
      case isTrue =>
        cases moves
        exact .setClock (.elected hash phase)
  | beat id =>
    rw [step, beat] at moves
    dsimp only at moves
    split at moves
    case h_2 => cases moves
    case h_1 start phase =>
      split at moves
      case isFalse =>
        cases moves
        exact .setClock (.follow phase)
      case isTrue =>
        split at moves
        case h_1 t timer =>
          split at moves
          case isTrue expired => exact Advances.act (.beat phase timer expired) moves
          case isFalse early =>
            cases moves
            exact .setClock (.early phase timer (Nat.not_lt.mp early))
        case h_2 timer =>
          cases moves
          exact .setClock (.wind phase timer)
  | apply id =>
    rw [step, TimedCluster.apply] at moves
    split at moves
    case isFalse => cases moves
    case isTrue phase => exact Advances.act (.apply phase) moves
  | task action hash =>
    rw [step] at moves
    split at moves
    case isFalse => cases moves
    case isTrue =>
      obtain ⟨cluster, -, rfl⟩ := Option.map_eq_some_iff.mp moves
      refine ⟨le_rfl, rfl, fun id => ?_⟩
      show (s.clocks id).Moves _ _ (s.taskClock action hash id)
      unfold taskClock
      dsimp only
      split
      · exact .hear hash
      · split
        · exact .grant hash
        · split
          · exact .win
          · exact .same

/-! ### The run of the cluster -/

/-- Each action is at most one step of the cluster. -/
theorem step_untimed {action : TimedAction} (moves : s.step action = some next) :
    ∃ actions, runFrom Cluster.step s.cluster actions = some next.cluster := by
  have acted : ∀ {action : Cluster.Action} {id : Nat} {clock : Clock},
      s.act action id clock = some next →
      ∃ actions, runFrom Cluster.step s.cluster actions = some next.cluster := fun {action _ _} acts => by
    obtain ⟨cluster, steps, rfl⟩ := Option.map_eq_some_iff.mp acts
    exact ⟨[action], runFrom_step steps rfl⟩
  cases action with
  | pass nanos =>
    cases moves
    exact ⟨[], rfl⟩
  | tick id =>
    rw [step, tick] at moves
    dsimp only at moves
    split at moves
    case isFalse => cases moves
    case isTrue =>
      split at moves
      case isTrue => exact acted moves
      case isFalse =>
        cases moves
        exact ⟨[], rfl⟩
  | elected id hash =>
    rw [step, elected] at moves
    dsimp only at moves
    split at moves
    case h_2 => cases moves
    case h_1 =>
      split at moves
      case isFalse => cases moves
      case isTrue =>
        cases moves
        exact ⟨[], rfl⟩
  | beat id =>
    rw [step, beat] at moves
    dsimp only at moves
    split at moves
    case h_2 => cases moves
    case h_1 =>
      split at moves
      case isFalse =>
        cases moves
        exact ⟨[], rfl⟩
      case isTrue =>
        split at moves
        case h_1 =>
          split at moves
          case isTrue => exact acted moves
          case isFalse =>
            cases moves
            exact ⟨[], rfl⟩
        case h_2 =>
          cases moves
          exact ⟨[], rfl⟩
  | apply id =>
    rw [step, TimedCluster.apply] at moves
    split at moves
    case isFalse => cases moves
    case isTrue => exact acted moves
  | task action hash =>
    rw [step] at moves
    split at moves
    case isFalse => cases moves
    case isTrue =>
      obtain ⟨cluster, steps, rfl⟩ := Option.map_eq_some_iff.mp moves
      exact ⟨[action], runFrom_step steps rfl⟩

/-- **A run in time is a run of the cluster.** -/
theorem run_untimed {config : ClusterConfig} {timers : Nat → Timers} {hashes : Nat → UInt64}
    {actions : List TimedAction} (runs : run config timers hashes actions = some s) :
    ∃ untimed, Cluster.run config untimed = some s.cluster := by
  have keeps : ∀ s action next, step s action = some next →
      (∃ untimed, Cluster.run config untimed = some s.cluster) →
      ∃ untimed, Cluster.run config untimed = some next.cluster := by
    rintro s action next moves ⟨untimed, reaches⟩
    obtain ⟨more, continues⟩ := step_untimed moves
    exact ⟨untimed ++ more, runFrom_append reaches continues⟩
  exact run_always keeps ⟨[], rfl⟩ runs

end TimedCluster

/-! ### Elections take their time -/

namespace Clock

variable {timers : Timers} {now later since : Nat} {old new : Clock}

/-- **What becomes of the election timer.** -/
inductive Turns (timers : Timers) (now : Nat) (old new : Clock) : Prop
  | keep (timer : new.electionTimer = old.electionTimer) (elections : new.elections = old.elections)
      (heard : new.heard = old.heard)
      (electing : ∀ start, new.phase = .electing start ↔ old.phase = .electing start)
  | stand (idle : ¬ old.Electing) (expired : old.Expired now) (phase : new.phase = .electing now)
      (elections : new.elections = old.elections + 1) (heard : new.heard = old.heard)
  | elected {start : Nat} (phase : old.phase = .electing start) (hash : UInt64)
      (timer : new.electionTimer = some (start + timers.randomElectionTimeout hash))
      (elections : new.elections = old.elections) (heard : new.heard = old.heard) (done : ¬ new.Electing)
  | defer (hash : UInt64) (timer : new.electionTimer = some (now + timers.randomElectionTimeout hash))
      (elections : new.elections = old.elections) (heard : new.heard = old.heard ∨ new.heard = now)
      (phase : new.phase = old.phase)

/-- A phase that is followed by another one. -/
theorem Turns.next {phase : TickPhase} (is : old.phase = phase) (timer : new.electionTimer = old.electionTimer)
    (elections : new.elections = old.elections) (heard : new.heard = old.heard)
    (before : ∀ start, phase ≠ .electing start) (after : ∀ start, new.phase ≠ .electing start) :
    Turns timers now old new :=
  .keep timer elections heard fun start => iff_of_false (after start) (is ▸ before start)

theorem Moves.turns (moves : old.Moves timers now new) : Turns timers now old new := by
  have stands : ∀ {start}, old.phase = .idle → old.phase ≠ .electing start := fun idle electing =>
    nomatch idle.symm.trans electing
  cases moves with
  | same => exact .keep rfl rfl rfl fun _ => Iff.rfl
  | stand idle expired => exact .stand (fun ⟨_, electing⟩ => stands idle electing) expired rfl rfl rfl
  | standAlone idle expired =>
    exact .stand (fun ⟨_, electing⟩ => stands idle electing) expired rfl rfl rfl
  | goOn idle => exact .next idle rfl rfl rfl nofun nofun
  | elected hash phase => exact .elected phase hash rfl rfl rfl (fun ⟨start, electing⟩ => by cases electing)
  | beat phase timer expired => exact .next phase rfl rfl rfl nofun nofun
  | early phase timer early => exact .next phase rfl rfl rfl nofun nofun
  | wind phase timer => exact .next phase rfl rfl rfl nofun nofun
  | follow phase => exact .next phase rfl rfl rfl nofun nofun
  | apply phase => exact .next phase rfl rfl rfl nofun nofun
  | hear hash => exact .defer hash rfl rfl (.inr rfl) rfl
  | grant hash => exact .defer hash rfl rfl (.inl rfl) rfl
  | win => exact .keep rfl rfl rfl fun _ => Iff.rfl

/-- No election begins within a whole timeout of the time `since`. -/
structure Deferred (timers : Timers) (since now : Nat) (clock : Clock) : Prop where
  past : since ≤ now
  timer : ¬ clock.Electing → ∃ t, clock.electionTimer = some t ∧ since + timers.electionMin ≤ t
  electing : ∀ start, clock.phase = .electing start → since ≤ start

theorem Deferred.mono (deferred : Deferred timers since now old) (le : now ≤ later) :
    Deferred timers since later old :=
  ⟨deferred.past.trans le, deferred.timer, deferred.electing⟩

/-- A timer set by a time that is not before `since`. -/
theorem Deferred.put (past : since ≤ now) {start : Nat} (le : since ≤ start) (hash : UInt64)
    (timer : new.electionTimer = some (start + timers.randomElectionTimeout hash))
    (electing : ∀ start, new.phase = .electing start → since ≤ start) :
    Deferred timers since now new :=
  ⟨past, fun _ => ⟨_, timer, Nat.add_le_add le (timers.electionMin_le hash)⟩, electing⟩

theorem Deferred.turns (deferred : Deferred timers since now old) (turns : Turns timers now old new) :
    Deferred timers since now new := by
  cases turns with
  | keep timer elections heard electing =>
    refine ⟨deferred.past, fun idle => ?_, fun start phase =>
      deferred.electing start ((electing start).mp phase)⟩
    rw [timer]
    exact deferred.timer fun ⟨start, phase⟩ => idle ⟨start, (electing start).mpr phase⟩
  | stand idle expired phase elections heard =>
    refine ⟨deferred.past, fun idle => absurd ⟨now, phase⟩ idle, fun start phase' => ?_⟩
    rw [phase] at phase'
    cases phase'
    exact deferred.past
  | elected phase hash timer elections heard done =>
    exact .put deferred.past (deferred.electing _ phase) hash timer
      fun start phase => absurd ⟨start, phase⟩ done
  | defer hash timer elections heard phase =>
    exact .put deferred.past deferred.past hash timer
      fun start phase' => deferred.electing start (phase ▸ phase')

/-- The timer has run out only after a whole timeout. -/
theorem Deferred.expired (deferred : Deferred timers since now old) (idle : ¬ old.Electing)
    (expired : old.Expired later) : since + timers.electionMin < later := by
  obtain ⟨t, timer, above⟩ := deferred.timer idle
  obtain ⟨t', timer', below⟩ := expired
  rw [Option.mem_def, timer] at timer'
  cases timer'
  omega

/-- Each election begun so far has taken a whole timeout, and the next one will. -/
def Rated (timers : Timers) (now : Nat) (clock : Clock) : Prop :=
  Deferred timers (clock.elections * timers.electionMin) now clock

theorem Rated.turns (rated : Rated timers now old) (turns : Turns timers now old new) :
    Rated timers now new := by
  have kept := Deferred.turns rated turns
  cases turns with
  | stand idle expired phase elections heard =>
    have past : new.elections * timers.electionMin ≤ now := by
      rw [elections, Nat.succ_mul]
      exact (Deferred.expired rated idle expired).le
    refine ⟨past, fun idle => absurd ⟨now, phase⟩ idle, fun start phase' => ?_⟩
    rw [phase] at phase'
    cases phase'
    exact past
  | keep timer elections heard electing => rwa [Rated, elections]
  | elected phase hash timer elections heard done => rwa [Rated, elections]
  | defer hash timer elections heard phase => rwa [Rated, elections]

end Clock

namespace TimedCluster

variable {s next : TimedCluster} {id : Nat}

/-- The node is about to start an election: its next tick does. -/
def Stands (s : TimedCluster) (id : Nat) : Prop :=
  (s.clocks id).phase = .idle ∧ (s.clocks id).Expired s.now

/-- The action starts an election of the node, or it puts its timer off at a time when the node is not in
an election. -/
def PutsOff (s : TimedCluster) (id : Nat) : TimedAction → Prop
  | .tick other => other = id ∧ (s.clocks id).Expired s.now
  | .task action _ => ¬ (s.clocks id).Electing ∧
      (hears s.cluster id action = true ∨ grants s.cluster id action = true)
  | _ => False

instance (s : TimedCluster) (id : Nat) : Decidable (s.Stands id) :=
  inferInstanceAs (Decidable (_ ∧ _))

theorem Stands.not_electing (stands : s.Stands id) : ¬ (s.clocks id).Electing := by
  rintro ⟨start, electing⟩
  rw [stands.1] at electing
  cases electing

theorem PutsOff.deferred {action : TimedAction} (puts : s.PutsOff id action)
    (moves : s.step action = some next) :
    (next.clocks id).Deferred (s.timers id) s.now next.now := by
  cases action with
  | pass nanos => exact puts.elim
  | elected other hash => exact puts.elim
  | beat other => exact puts.elim
  | apply other => exact puts.elim
  | tick other =>
    obtain ⟨rfl, expired⟩ := puts
    rw [step, tick] at moves
    dsimp only at moves
    by_cases enabled : (s.clocks other).phase = .idle ∧ other ∈ s.cluster.ids
    · rw [if_pos enabled, if_pos expired] at moves
      obtain ⟨cluster, -, rfl⟩ := Option.map_eq_some_iff.mp moves
      have stands : ∀ clock : Clock, clock.phase = .electing s.now →
          clock.Deferred (s.timers other) s.now s.now := fun clock phase =>
        ⟨le_rfl, fun idle => absurd ⟨s.now, phase⟩ idle, fun start phase' => by
          rw [phase] at phase'
          cases phase'
          exact le_rfl⟩
      show (Function.update s.clocks other _ other).Deferred _ _ _
      rw [Function.update_self]
      split
      · exact stands _ rfl
      · exact stands _ rfl
    · rw [if_neg enabled] at moves
      cases moves
  | task action hash =>
    obtain ⟨idle, either⟩ := puts
    rw [step] at moves
    split at moves
    case isFalse => cases moves
    case isTrue =>
      obtain ⟨cluster, -, rfl⟩ := Option.map_eq_some_iff.mp moves
      show (s.taskClock action hash id).Deferred _ _ _
      have stays : ∀ start, (s.clocks id).phase = .electing start → s.now ≤ start :=
        fun start phase => absurd ⟨start, phase⟩ idle
      unfold taskClock
      dsimp only
      split
      · exact .put le_rfl le_rfl hash rfl stays
      · rename_i deaf
        rw [if_pos (either.resolve_left deaf)]
        exact .put le_rfl le_rfl hash rfl stays

/-- What every action keeps of a node. -/
theorem Advances.deferred {since : Nat} (advances : Advances s next)
    (deferred : (s.clocks id).Deferred (s.timers id) since s.now) :
    (next.clocks id).Deferred (next.timers id) since next.now := by
  rw [advances.timers]
  exact (deferred.turns (advances.clocks id).turns).mono advances.now

theorem Advances.rated (advances : Advances s next) (rated : (s.clocks id).Rated (s.timers id) s.now) :
    (next.clocks id).Rated (next.timers id) next.now := by
  rw [advances.timers]
  exact ((rated.turns (advances.clocks id).turns : Clock.Rated _ _ _) : Clock.Deferred ..).mono advances.now

theorem start_rated (config : ClusterConfig) (timers : Nat → Timers) (hashes : Nat → UInt64) (id : Nat) :
    ((start config timers hashes).clocks id).Rated (timers id) 0 :=
  .put (Nat.zero_mul _).le (Nat.zero_mul _).le (hashes id) (by rw [Nat.zero_add]; rfl) nofun

variable {config : ClusterConfig} {timers : Nat → Timers} {hashes : Nat → UInt64}
  {actions : List TimedAction}

theorem run_timers (runs : run config timers hashes actions = some s) : s.timers = timers := by
  have keeps : ∀ s action next, step s action = some next → s.timers = timers → next.timers = timers :=
    fun s action next moves same => (step_clock moves).timers.trans same
  exact run_always keeps rfl runs

/-- **Elections take their time.** In a run, a node has begun at most as many elections as timeouts of the
least length fit into the time that has passed; and after an election has begun, a request of a leader was
taken or a vote was given outside of an election, more than that time passes before the next election
begins. -/
theorem elections_apart (config : ClusterConfig) (timers : Nat → Timers) (hashes : Nat → UInt64) (id : Nat)
    (before between : List TimedAction) (action : TimedAction) (u v : TimedCluster)
    (reaches : run config timers hashes before = some u)
    (continues : runFrom step u (action :: between) = some v) :
    (v.clocks id).elections * (timers id).electionMin ≤ v.now ∧
      (u.PutsOff id action → v.Stands id → u.now + (timers id).electionMin < v.now) := by
  have whole : run config timers hashes (before ++ action :: between) = some v :=
    runFrom_append reaches continues
  have rates : ∀ s action next, step s action = some next →
      (s.clocks id).Rated (s.timers id) s.now → (next.clocks id).Rated (next.timers id) next.now :=
    fun s action next moves rated => (step_clock moves).rated rated
  have rated := run_always rates (start_rated config timers hashes id) whole
  rw [run_timers whole] at rated
  refine ⟨rated.past, fun puts stands => ?_⟩
  obtain ⟨next, moves, continues⟩ := runFrom_cons continues
  have defers : ∀ s action next, step s action = some next →
      (s.clocks id).Deferred (s.timers id) u.now s.now →
      (next.clocks id).Deferred (next.timers id) u.now next.now :=
    fun s action next moves deferred => (step_clock moves).deferred deferred
  have first := puts.deferred moves
  rw [← (step_clock moves).timers] at first
  have deferred := run_always defers first continues
  rw [run_timers whole] at deferred
  exact deferred.expired stands.not_electing stands.2

/-- The default durations on every node. -/
def defaultTimers (_ : Nat) : Timers := ⟨.default, Timing.RaftConfig.validate_default, by decide⟩

/-- Node 1 is the first to time out. -/
def staggered (id : Nat) : UInt64 := if id = 1 then 0 else 149

/-- The election of node 1 gets no votes, and its timer runs out once more. -/
def inconclusive : List TimedAction :=
  [.tick 1, .task (.endCampaign 1) 0, .elected 1 0, .beat 1, .apply 1, .pass 200000000]

theorem inconclusive_apart :
    ∃ u v, run Cluster.threeNodes defaultTimers staggered [.pass 151000000] = some u ∧
      runFrom step u inconclusive = some v ∧ v.Stands 1 ∧
      (v.clocks 1).elections * (defaultTimers 1).electionMin ≤ v.now ∧
      u.now + (defaultTimers 1).electionMin < v.now := by
  have facts : (run Cluster.threeNodes defaultTimers staggered [.pass 151000000]).any
      (fun u => decide ((u.clocks 1).Expired u.now) &&
        (runFrom step u inconclusive).any fun v => decide (v.Stands 1)) = true := by
    decide +kernel
  obtain ⟨u, reaches, both⟩ := (Option.any_eq_true ..).mp facts
  obtain ⟨expired, ends⟩ := Bool.and_eq_true_iff.mp both
  obtain ⟨v, continues, stands⟩ := (Option.any_eq_true ..).mp ends
  obtain ⟨rate, apart⟩ := elections_apart Cluster.threeNodes defaultTimers staggered 1 [.pass 151000000]
    (inconclusive.drop 1) (.tick 1) u v reaches continues
  exact ⟨u, v, reaches, continues, of_decide_eq_true stands, rate,
    apart ⟨rfl, of_decide_eq_true expired⟩ (of_decide_eq_true stands)⟩

end TimedCluster

/-! ### A leader that is heard -/

/-- The rounds since one that was heard follow each other within a gap. -/
def Paced (gap : Nat) (rounds : List Nat) (heard : Nat) : Prop :=
  ∃ recent first old, rounds = recent ++ first :: old ∧ first ≤ heard ∧
    (recent ++ [first]).IsChain fun later earlier => later ≤ earlier + gap

section Paced

variable {gap delay now heard : Nat} {rounds : List Nat}

theorem Paced.cons {r : Nat} (paced : Paced gap rounds heard)
    (next : ∀ last ∈ rounds.head?, r ≤ last + gap) : Paced gap (r :: rounds) heard := by
  obtain ⟨recent, first, old, rfl, known, chain⟩ := paced
  refine ⟨r :: recent, first, old, rfl, known, ?_⟩
  cases recent with
  | nil => exact List.isChain_cons_cons.mpr ⟨next first rfl, chain⟩
  | cons last recent => exact List.isChain_cons_cons.mpr ⟨next last rfl, chain⟩

theorem Paced.mono {later : Nat} (paced : Paced gap rounds heard) (le : heard ≤ later) :
    Paced gap rounds later := by
  obtain ⟨recent, first, old, is, known, chain⟩ := paced
  exact ⟨recent, first, old, is, known.trans le, chain⟩

/-- **Rounds that are heard within a delay leave no longer silence than the gap and the delay.** -/
theorem Paced.silence (paced : Paced gap rounds heard)
    (last : ∀ r ∈ rounds.head?, now ≤ r + gap)
    (delivered : ∀ r ∈ rounds, r + delay ≤ now → r ≤ heard) : now ≤ heard + gap + delay := by
  obtain ⟨recent, first, old, rfl, known, chain⟩ := paced
  replace last : ∀ r ∈ (recent ++ [first]).head?, now ≤ r + gap + delay := by
    intro r head
    have same : (recent ++ first :: old).head? = (recent ++ [first]).head? := by cases recent <;> rfl
    exact (last r (same ▸ head)).trans (Nat.le_add_right _ _)
  induction recent with
  | nil =>
    have := last first rfl
    omega
  | cons r recent ih =>
    have reach := last r rfl
    by_cases sent : r + delay ≤ now
    · have := delivered r List.mem_cons_self sent
      omega
    · -- the round before it is not older than a gap
      refine ih (fun other member => delivered other (List.mem_cons_of_mem _ member)) chain.tail ?_
      intro before head
      have gap : r ≤ before + gap := chain.rel_head? head
      omega

end Paced

namespace Clock

variable {timers : Timers} {now later : Nat} {old new : Clock}

/-- **What becomes of the heartbeats.** -/
inductive Pulses (timers : Timers) (now : Nat) (old new : Clock) : Prop
  | keep (rounds : new.rounds = old.rounds) (timer : new.heartbeatTimer = old.heartbeatTimer)
      (lastBeat : new.lastBeat = old.lastBeat)
  | early {start t : Nat} (timer : old.heartbeatTimer = some t) (early : start ≤ t)
      (rounds : new.rounds = old.rounds) (timer' : new.heartbeatTimer = some t)
      (lastBeat : new.lastBeat = start)
  | wind (timer : old.heartbeatTimer = none) (rounds : new.rounds = old.rounds)
  | round (rounds : new.rounds = now :: old.rounds)
      (timer : ∃ start, new.heartbeatTimer = some (start + timers.heartbeatInterval) ∧
        (start = now ∨ old.phase = .beating start))

theorem Moves.pulses (moves : old.Moves timers now new) : Pulses timers now old new := by
  cases moves with
  | standAlone idle expired => exact .round rfl ⟨now, rfl, .inl rfl⟩
  | beat phase timer expired => exact .round rfl ⟨_, rfl, .inr phase⟩
  | early phase timer early => exact .early timer early rfl timer rfl
  | wind phase timer => exact .wind timer rfl
  | win => exact .round rfl ⟨now, rfl, .inl rfl⟩
  | same => exact .keep rfl rfl rfl
  | stand idle expired => exact .keep rfl rfl rfl
  | goOn idle => exact .keep rfl rfl rfl
  | elected hash phase => exact .keep rfl rfl rfl
  | follow phase => exact .keep rfl rfl rfl
  | apply phase => exact .keep rfl rfl rfl
  | hear hash => exact .keep rfl rfl rfl
  | grant hash => exact .keep rfl rfl rfl

/-- The tick that is under way has read the time before `now`. -/
def Begun (now : Nat) (clock : Clock) : Prop :=
  match clock.phase with
  | .electing start => start ≤ now
  | .beating start => start ≤ now
  | .idle => True
  | .applying => True

theorem Begun.electing {start : Nat} (begun : Begun now old) (phase : old.phase = .electing start) :
    start ≤ now := by
  rwa [Begun, phase] at begun

theorem Begun.beating {start : Nat} (begun : Begun now old) (phase : old.phase = .beating start) :
    start ≤ now := by
  rwa [Begun, phase] at begun

theorem Begun.mono (begun : Begun now old) (le : now ≤ later) : Begun later old := by
  revert begun
  unfold Begun
  cases old.phase with
  | electing start => exact fun past => past.trans le
  | beating start => exact fun past => past.trans le
  | idle => exact id
  | applying => exact id

theorem Begun.moves (begun : Begun now old) (moves : old.Moves timers now new) : Begun now new := by
  cases moves with
  | same => exact begun
  | stand idle expired => exact le_refl now
  | standAlone idle expired => exact le_refl now
  | goOn idle => exact le_refl now
  | elected hash phase => exact begun.electing phase
  | beat phase timer expired => trivial
  | early phase timer early => trivial
  | wind phase timer => trivial
  | follow phase => trivial
  | apply phase => trivial
  | hear hash => exact begun
  | grant hash => exact begun
  | win => exact begun

/-- No heartbeat was due between the last round and the last tick. -/
structure Beats (timers : Timers) (now : Nat) (clock : Clock) : Prop where
  begun : clock.Begun now
  beaten : clock.lastBeat ≤ now
  heard : clock.heard ≤ now
  round : ∀ r ∈ clock.rounds.head?, r ≤ now ∧ clock.lastBeat ≤ r + timers.heartbeatInterval ∧
    ∃ t, clock.heartbeatTimer = some t ∧ t ≤ r + timers.heartbeatInterval

theorem Beats.mono (beats : Beats timers now old) (le : now ≤ later) : Beats timers later old :=
  ⟨beats.begun.mono le, beats.beaten.trans le, beats.heard.trans le, fun r last =>
    ⟨(beats.round r last).1.trans le, (beats.round r last).2⟩⟩

theorem Moves.heard (moves : old.Moves timers now new) (past : old.heard ≤ now) :
    old.heard ≤ new.heard ∧ new.heard ≤ now := by
  cases moves
  case hear => exact ⟨past, le_rfl⟩
  all_goals exact ⟨le_rfl, past⟩

theorem Moves.lastBeat (moves : old.Moves timers now new) :
    new.lastBeat = old.lastBeat ∨ old.phase = .beating new.lastBeat := by
  cases moves
  case beat phase timer expired => exact .inr phase
  case early phase timer early => exact .inr phase
  case wind phase timer => exact .inr phase
  all_goals exact .inl rfl

theorem Beats.moves (beats : Beats timers now old) (moves : old.Moves timers now new) :
    Beats timers now new := by
  have beaten : new.lastBeat ≤ now := by
    rcases moves.lastBeat with same | phase
    · exact same ▸ beats.beaten
    · exact beats.begun.beating phase
  refine ⟨beats.begun.moves moves, beaten, (moves.heard beats.heard).2, fun r last => ?_⟩
  cases moves.pulses with
  | keep rounds timer lastBeat =>
    rw [rounds] at last
    rw [timer, lastBeat]
    exact beats.round r last
  | early timer early rounds timer' lastBeat =>
    rw [rounds] at last
    obtain ⟨past, -, t, timer'', due⟩ := beats.round r last
    rw [timer] at timer''
    cases timer''
    exact ⟨past, lastBeat ▸ early.trans due, _, timer', due⟩
  | wind timer rounds =>
    rw [rounds] at last
    obtain ⟨-, -, t, timer', -⟩ := beats.round r last
    rw [timer] at timer'
    cases timer'
  | round rounds timer =>
    rw [rounds] at last
    cases last
    obtain ⟨start, timer, begun⟩ := timer
    refine ⟨le_rfl, beaten.trans (Nat.le_add_right _ _), _, timer, Nat.add_le_add_right ?_ _⟩
    rcases begun with rfl | phase
    · exact le_rfl
    · exact beats.begun.beating phase

/-- While no election of the node is under way, none begins within a timeout of what it has heard. -/
structure Quiet (timers : Timers) (now : Nat) (clock : Clock) : Prop where
  idle : ¬ clock.Electing
  deferred : clock.Deferred timers clock.heard now

theorem Quiet.turns (quiet : Quiet timers now old) (turns : Turns timers now old new)
    (young : now ≤ old.heard + timers.electionMin) : Quiet timers now new := by
  have deferred := quiet.deferred.turns turns
  cases turns with
  | keep timer elections heard electing =>
    exact ⟨fun ⟨start, phase⟩ => quiet.idle ⟨start, (electing start).mp phase⟩, heard ▸ deferred⟩
  | stand idle expired phase elections heard =>
    exact absurd (quiet.deferred.expired idle expired) (Nat.not_lt.mpr young)
  | elected phase hash timer elections heard done => exact absurd ⟨_, phase⟩ quiet.idle
  | defer hash timer elections heard phase =>
    have idle : ¬ new.Electing := fun ⟨start, electing⟩ => quiet.idle ⟨start, phase ▸ electing⟩
    rcases heard with same | heard
    · exact ⟨idle, same ▸ deferred⟩
    · rw [← heard] at timer
      exact ⟨idle, .put heard.le le_rfl hash timer fun start phase => absurd ⟨start, phase⟩ idle⟩

end Clock

namespace TimedCluster

variable {s next : TimedCluster} {timers : Nat → Timers} {leader follower tickGap delay : Nat}

/-- The leader's loop has reached its heartbeats not long ago, and the follower has heard each round that
was sent a delay ago, or a later one. -/
def Attends (leader follower tickGap delay : Nat) (s : TimedCluster) : Prop :=
  s.now ≤ (s.clocks leader).lastBeat + tickGap ∧
    ∀ r ∈ (s.clocks leader).rounds, r + delay ≤ s.now → r ≤ (s.clocks follower).heard

instance (leader follower tickGap delay : Nat) (s : TimedCluster) :
    Decidable (s.Attends leader follower tickGap delay) :=
  inferInstanceAs (Decidable (_ ∧ _))

/-- The follower has heard one of the rounds of the leader, which go on. -/
structure Unchallenged (timers : Nat → Timers) (leader follower gap : Nat) (s : TimedCluster) : Prop where
  same : s.timers = timers
  beats : ∀ id, (s.clocks id).Beats (timers id) s.now
  quiet : (s.clocks follower).Quiet (timers follower) s.now
  paced : Paced gap (s.clocks leader).rounds (s.clocks follower).heard

theorem Advances.beats (advances : Advances s next) (same : s.timers = timers)
    (beats : ∀ id, (s.clocks id).Beats (timers id) s.now) (id : Nat) :
    (next.clocks id).Beats (timers id) next.now := by
  subst same
  exact ((beats id).moves (advances.clocks id)).mono advances.now

/-- The silence of the leader is shorter than a timeout. -/
theorem Unchallenged.young (inv : Unchallenged timers leader follower
      ((timers leader).heartbeatInterval + tickGap) s)
    (attends : s.Attends leader follower tickGap delay) :
    s.now ≤ (s.clocks follower).heard + ((timers leader).heartbeatInterval + tickGap) + delay := by
  refine inv.paced.silence (fun r last => ?_) attends.2
  have due := ((inv.beats leader).round r last).2.1
  have recent := attends.1
  omega

theorem Unchallenged.step
    (slack : (timers leader).heartbeatInterval + tickGap + delay ≤ (timers follower).electionMin)
    (inv : Unchallenged timers leader follower ((timers leader).heartbeatInterval + tickGap) s)
    (attends : s.Attends leader follower tickGap delay) {action : TimedAction}
    (moves : s.step action = some next) :
    Unchallenged timers leader follower ((timers leader).heartbeatInterval + tickGap) next := by
  have advances := step_clock moves
  have young := inv.young attends
  have same := inv.same
  have clocks := advances.clocks
  rw [same] at clocks
  refine ⟨advances.timers.trans same, advances.beats same inv.beats, ?_, ?_⟩
  · have quiet := inv.quiet.turns (clocks follower).turns (by omega)
    exact ⟨quiet.idle, quiet.deferred.mono advances.now⟩
  · refine Paced.mono ?_ ((clocks follower).heard (inv.beats follower).heard).1
    cases (clocks leader).pulses with
    | keep rounds timer lastBeat => exact rounds ▸ inv.paced
    | early timer early rounds timer' lastBeat => exact rounds ▸ inv.paced
    | wind timer rounds => exact rounds ▸ inv.paced
    | round rounds timer =>
      rw [rounds]
      refine inv.paced.cons fun r last => ?_
      have due := ((inv.beats leader).round r last).2.1
      have recent := attends.1
      omega

theorem start_beats (config : ClusterConfig) (timers : Nat → Timers) (hashes : Nat → UInt64) (id : Nat) :
    ((start config timers hashes).clocks id).Beats (timers id) 0 :=
  ⟨trivial, le_rfl, le_rfl, nofun⟩

theorem run_beats {config : ClusterConfig} {hashes : Nat → UInt64} {actions : List TimedAction}
    (runs : run config timers hashes actions = some s) (id : Nat) :
    (s.clocks id).Beats (timers id) s.now := by
  have keeps : ∀ s action next, step s action = some next →
      (s.timers = timers ∧ ∀ id, (s.clocks id).Beats (timers id) s.now) →
      next.timers = timers ∧ ∀ id, (next.clocks id).Beats (timers id) next.now := by
    rintro s action next moves ⟨same, beats⟩
    exact ⟨(step_clock moves).timers.trans same, (step_clock moves).beats same beats⟩
  exact (run_always keeps ⟨rfl, start_beats config timers hashes⟩ runs).2 id

/-- **A leader that is heard is not challenged.** A follower takes a request outside of an election, from a
leader that has sent a round. As long as the loop of the leader reaches its heartbeats at least every
`tickGap` and each of its rounds is heard within `delay`, and the two and the heartbeat interval fit into the
least election timeout, the follower is never about to start an election. -/
theorem heard_leader_unchallenged (config : ClusterConfig) (timers : Nat → Timers)
    (hashes : Nat → UInt64) (leader follower tickGap delay : Nat)
    (slack : (timers leader).heartbeatInterval + tickGap + delay ≤ (timers follower).electionMin)
    (before after : List TimedAction) (action : Cluster.Action) (hash : UInt64) (u v : TimedCluster)
    (reaches : run config timers hashes before = some u)
    (takes : hears u.cluster follower action = true) (outside : ¬ (u.clocks follower).Electing)
    (round : (u.clocks leader).rounds ≠ [])
    (moves : u.step (.task action hash) = some v)
    (attended : Throughout step (Attends leader follower tickGap delay) v after) :
    Throughout step (fun s => ¬ s.Stands follower) v after := by
  have advances := step_clock moves
  have same := run_timers reaches
  have beats := advances.beats same (run_beats reaches)
  have first : Unchallenged timers leader follower ((timers leader).heartbeatInterval + tickGap) v := by
    have sent : (v.clocks leader).rounds ≠ [] := by
      cases (advances.clocks leader).pulses with
      | keep rounds timer lastBeat => exact rounds ▸ round
      | early timer early rounds timer' lastBeat => exact rounds ▸ round
      | wind timer rounds => exact rounds ▸ round
      | round rounds timer => exact rounds ▸ List.cons_ne_nil _ _
    obtain ⟨r, old, rounds⟩ := List.exists_cons_of_ne_nil sent
    have past := ((beats leader).round r (by rw [rounds]; rfl)).1
    rw [step] at moves
    split at moves
    case isFalse => cases moves
    case isTrue =>
      obtain ⟨cluster, -, rfl⟩ := Option.map_eq_some_iff.mp moves
      have clock : u.taskClock action hash follower =
          { (u.clocks follower).defer (u.timers follower) u.now hash with heard := u.now } := if_pos takes
      refine ⟨same, beats, ?_, [], r, old, rounds, ?_, List.isChain_singleton r⟩
      · show (u.taskClock action hash follower).Quiet _ _
        rw [clock, same]
        exact ⟨outside, .put le_rfl le_rfl hash rfl fun start phase => absurd ⟨start, phase⟩ outside⟩
      · show r ≤ (u.taskClock action hash follower).heard
        rw [clock]
        exact past
  intro i t reaches' stands
  have along := attended.along.take i
  have inv := run_invariant (fun s action next moves attends inv => Unchallenged.step slack inv attends moves)
    first along reaches'
  have young := inv.young (attended i t reaches')
  have late := inv.quiet.deferred.expired stands.not_electing stands.2
  omega

/-- Node 1 is elected by node 2, and its loop goes on. -/
def electedAtOnce : List TimedAction :=
  [.pass 151000000, .tick 1, .task (.deliverVote ⟨1, 0, 2⟩) 0, .task (.voteReply ⟨1, 0, 2⟩ 0) 0,
    .task (.countVote 1) 0, .task (.deliverVote ⟨1, 1, 2⟩) 0, .task (.voteReply ⟨1, 1, 2⟩ 0) 0,
    .task (.countVote 1) 0, .elected 1 0, .beat 1, .apply 1]

/-- Ticks of node 1 every ten milliseconds; the sixth one sends a round, which node 2 hears. -/
def goesOn : List TimedAction :=
  List.append ((List.replicate 6 [.pass 10000000, .tick 1, .beat 1, .apply 1]).flatten)
    [.pass 10000000, .task (.deliverAppend ⟨1, 1, 2⟩) 0, .tick 1, .beat 1, .apply 1]

theorem goes_on_unchallenged :
    ∃ u v, run Cluster.threeNodes defaultTimers staggered electedAtOnce = some u ∧
      u.step (.task (.deliverAppend ⟨1, 0, 2⟩) 0) = some v ∧ (runFrom step v goesOn).isSome ∧
      Throughout step (fun s => ¬ s.Stands 2) v goesOn := by
  have facts : (run Cluster.threeNodes defaultTimers staggered electedAtOnce).any (fun u =>
      hears u.cluster 2 (.deliverAppend ⟨1, 0, 2⟩) && decide ((u.clocks 2).phase = .idle) &&
        decide ((u.clocks 1).rounds ≠ []) &&
        (u.step (.task (.deliverAppend ⟨1, 0, 2⟩) 0)).any fun v =>
          (runFrom step v goesOn).isSome &&
            decide (∀ i ≤ goesOn.length, ∀ t ∈ runFrom step v (goesOn.take i),
              t.Attends 1 2 20000000 50000000)) = true := by
    decide +kernel
  obtain ⟨u, reaches, all⟩ := (Option.any_eq_true ..).mp facts
  simp only [Bool.and_eq_true, decide_eq_true_eq] at all
  obtain ⟨⟨⟨takes, idle⟩, round⟩, ends⟩ := all
  obtain ⟨v, moves, ends⟩ := (Option.any_eq_true ..).mp ends
  obtain ⟨whole, attended⟩ := Bool.and_eq_true_iff.mp ends
  have outside : ¬ (u.clocks 2).Electing := fun ⟨start, electing⟩ => nomatch idle.symm.trans electing
  exact ⟨u, v, reaches, moves, whole, heard_leader_unchallenged Cluster.threeNodes defaultTimers staggered
    1 2 20000000 50000000 (by decide) electedAtOnce goesOn (.deliverAppend ⟨1, 0, 2⟩) 0 u v reaches takes
    outside round moves (throughout_of_le (of_decide_eq_true attended))⟩

end TimedCluster

end Rusd
