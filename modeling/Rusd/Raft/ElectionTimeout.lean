/-
**Random election timeouts** (`raft/node.rs`, `raft/config.rs`).

`validate` compares the two bounds to the nanosecond, and the timeout is computed from their whole
milliseconds. Bounds that differ by less leave a range of zero, and the remainder panics.

* `validate_eq_ok_iff` — what `validate` accepts.
* `electionTimeout_eq_none` — the computation panics on an empty range.
* `electionTimeout_bounds` — what it returns lies between the bounds.
* `random_election_timeout_iff` — both functions, for every accepted configuration and every hash.
-/

import Rusd.Lib.Duration

namespace Rusd.Timing

inductive RaftError
  | configError (text : String)
  deriving DecidableEq, Repr

/-- The timers of a configuration, and the limit that is validated with them. -/
structure RaftConfig where
  electionTimeoutMin : Duration
  electionTimeoutMax : Duration
  heartbeatInterval : Duration
  maxLogEntriesPerRequest : Nat

namespace RaftConfig

/-- `RaftConfig::default`. -/
def default : RaftConfig where
  electionTimeoutMin := .fromMillis 150
  electionTimeoutMax := .fromMillis 300
  heartbeatInterval := .fromMillis 50
  maxLogEntriesPerRequest := 100

def withTimeouts (config : RaftConfig) (electionMin electionMax heartbeat : Duration) : RaftConfig :=
  { config with
    electionTimeoutMin := electionMin
    electionTimeoutMax := electionMax
    heartbeatInterval := heartbeat }

def validate (config : RaftConfig) : Except RaftError Unit :=
  if config.electionTimeoutMax ≤ config.electionTimeoutMin then
    .error (.configError "election_timeout_min must be less than election_timeout_max")
  else if config.electionTimeoutMin ≤ config.heartbeatInterval then
    .error (.configError "heartbeat_interval must be less than election_timeout_min")
  else if config.maxLogEntriesPerRequest = 0 then
    .error (.configError "max_log_entries_per_request must be greater than 0")
  else .ok ()

theorem validate_eq_ok_iff {config : RaftConfig} : config.validate = .ok () ↔
    config.electionTimeoutMin < config.electionTimeoutMax ∧
      config.heartbeatInterval < config.electionTimeoutMin ∧ 0 < config.maxLogEntriesPerRequest := by
  unfold validate
  split_ifs with empty late unlimited
  · exact iff_of_false (fun fails => by cases fails) fun all => absurd all.1 empty.not_gt
  · exact iff_of_false (fun fails => by cases fails) fun all => absurd all.2.1 late.not_gt
  · exact iff_of_false (fun fails => by cases fails) fun all => absurd all.2.2 (by omega)
  · exact iff_of_true rfl ⟨not_le.mp empty, not_le.mp late, by omega⟩

/-- The default configuration passes its own check. -/
theorem validate_default : default.validate = .ok () := by decide

end RaftConfig

/-- The lower bound and a part of the range, in whole milliseconds. The hash stands for a 128-bit number
and the offset is cut to 64 bits; `none` is a panic. -/
def electionTimeout (min max : Duration) (hash : UInt64) : Option Duration := do
  let range ← checkedSub max.asMillis min.asMillis
  let offsetMs ← checkedRem hash.toNat range
  min.checkedAdd (.fromMillis (UInt64.ofNat offsetMs))

/-- `RaftNode::random_election_timeout_static`. -/
def randomElectionTimeoutStatic (config : RaftConfig) (hash : UInt64) : Option Duration :=
  electionTimeout config.electionTimeoutMin config.electionTimeoutMax hash

/-- A node, which keeps the configuration it was built with. -/
structure RaftNode where
  config : RaftConfig

/-- `RaftNode::random_election_timeout`. -/
def RaftNode.randomElectionTimeout (self : RaftNode) (hash : UInt64) : Option Duration :=
  electionTimeout self.config.electionTimeoutMin self.config.electionTimeoutMax hash

section Bounds

variable {min max : Duration}

/-- **A range of whole milliseconds gives a timeout between the bounds.** -/
theorem electionTimeout_bounds (range : min.asMillis < max.asMillis) (hash : UInt64) :
    ∃ d, electionTimeout min max hash = some d ∧ min ≤ d ∧ d < max := by
  have offset : hash.toNat % (max.asMillis - min.asMillis) < max.asMillis - min.asMillis :=
    Nat.mod_lt _ (Nat.sub_pos_of_lt range)
  -- an offset of a 64-bit hash has 64 bits
  have whole : (UInt64.ofNat (hash.toNat % (max.asMillis - min.asMillis))).toNat =
      hash.toNat % (max.asMillis - min.asMillis) :=
    UInt64.toNat_ofNat_of_lt' (Nat.lt_of_le_of_lt (Nat.mod_le ..) hash.toNat_lt)
  have below : min.nanos +
      (Duration.fromMillis (.ofNat (hash.toNat % (max.asMillis - min.asMillis)))).nanos < max.nanos := by
    unfold Duration.fromMillis
    dsimp only
    rw [whole]
    exact Duration.add_millis_lt offset
  obtain ⟨sum, adds, isSum⟩ := Duration.checkedAdd_of_lt below
  refine ⟨sum, ?_, ?_, ?_⟩
  · rw [electionTimeout, checkedSub_of_le range.le, Option.bind_eq_bind, Option.bind_some,
      checkedRem_of_ne_zero (Nat.sub_ne_zero_of_lt range), Option.bind_some]
    exact adds
  · rw [Duration.le_def, isSum]
    exact Nat.le_add_right ..
  · rw [Duration.lt_def, isSum]
    exact below

/-- **Equal whole milliseconds leave an empty range, and the remainder panics.** -/
theorem electionTimeout_eq_none (same : min.asMillis = max.asMillis) (hash : UInt64) :
    electionTimeout min max hash = none := by
  rw [electionTimeout, checkedSub_of_le same.le, Option.bind_eq_bind, Option.bind_some, same,
    Nat.sub_self, checkedRem_zero, Option.bind_none]

end Bounds

/-- **For a configuration that `validate` accepts, both functions return a timeout between the bounds
exactly if these differ in their whole milliseconds.** -/
theorem random_election_timeout_iff (config : RaftConfig) (valid : config.validate = .ok ())
    (hash : UInt64) :
    ((∃ d, RaftNode.randomElectionTimeout ⟨config⟩ hash = some d ∧
        config.electionTimeoutMin ≤ d ∧ d < config.electionTimeoutMax) ∧
      ∃ d, randomElectionTimeoutStatic config hash = some d ∧
        config.electionTimeoutMin ≤ d ∧ d < config.electionTimeoutMax) ↔
      config.electionTimeoutMin.asMillis ≠ config.electionTimeoutMax.asMillis := by
  have ordered : config.electionTimeoutMin.asMillis ≤ config.electionTimeoutMax.asMillis :=
    Duration.asMillis_mono (RaftConfig.validate_eq_ok_iff.mp valid).1.le
  constructor
  · rintro ⟨⟨d, returns, _⟩, _⟩ same
    unfold RaftNode.randomElectionTimeout at returns
    rw [electionTimeout_eq_none same] at returns
    cases returns
  · intro differ
    have bounds := electionTimeout_bounds (ordered.lt_of_ne differ) hash
    exact ⟨bounds, bounds⟩

/-- The default bounds with some hash. -/
theorem random_election_timeout_default :
    (∃ d, RaftNode.randomElectionTimeout ⟨.default⟩ 123456789 = some d ∧
        RaftConfig.default.electionTimeoutMin ≤ d ∧ d < RaftConfig.default.electionTimeoutMax) ∧
      ∃ d, randomElectionTimeoutStatic .default 123456789 = some d ∧
        RaftConfig.default.electionTimeoutMin ≤ d ∧ d < RaftConfig.default.electionTimeoutMax :=
  (random_election_timeout_iff .default (by decide) 123456789).mpr (by decide)

/-- Bounds of 100 and 100.5 milliseconds. -/
def halfMillisecond : RaftConfig :=
  RaftConfig.default.withTimeouts ⟨100000000, by decide⟩ ⟨100500000, by decide⟩ (.fromMillis 50)

theorem half_millisecond_panics :
    halfMillisecond.validate = .ok () ∧
      (∀ hash, RaftNode.randomElectionTimeout ⟨halfMillisecond⟩ hash = none) ∧
      ∀ hash, randomElectionTimeoutStatic halfMillisecond hash = none :=
  ⟨by decide, electionTimeout_eq_none (by decide), electionTimeout_eq_none (by decide)⟩

end Rusd.Timing
