/-
**The proposals of the administrative services** (`api/auth_service.rs`, `api/lease_service.rs`,
`api/maintenance_service.rs`, `api/cluster_service.rs`).

These services write their commands into the same log as the `PUT`s and `DELETE`s, as texts without an
escape, with names that clients choose. The apply loop of a follower tells the commands apart by their first
letters only.

* `Administration` — the calls, and `serve`, what each does to the log and to the members.
* `followerCommand_tagged` — a text with another tag is no command of the store, whatever follows.
* `serve_quiet` — a call leaves the log as it is, or appends one entry that the loop passes over.
* `loop_progress` — what the apply loop of a follower has done comes of the commands in the log alone.
* `administration_noninterference` — the followers' stores are what they are without the calls.
-/

import Rusd.Membership.Manager
import Rusd.Server.Replicas

namespace Rusd

open Rusd.Membership

/-! ### The calls -/

/-- What the handlers act on. -/
structure Admin where
  raft : RaftNode
  members : ClusterManager

/-- A call of an administrative service, with the time or the UUID drawn for it. -/
inductive Administration
  | authEnable
  | authDisable
  | userAdd (name password : Text)
  | userDelete (name : Text)
  | userChangePassword (name password : Text)
  | userGrantRole (user role : Text)
  | userRevokeRole (name role : Text)
  | roleAdd (name : Text)
  | roleDelete (role : Text)
  | roleGrantPermission (name : Text) (hasPerm : Bool)
  | roleRevokePermission (role : Text)
  | leaseGrant (ttl clock : Int)
  | leaseRevoke (id : Int)
  | leaseKeepAlive (id : Int)
  | downgrade (targetVersion : Text)
  | memberAdd (peerUrls : List Text) (isLearner : Bool) (memberCount : Nat) (uuid : Bytes)
  | memberRemove (id : Nat)
  | memberUpdate (id : Nat) (clientUrls : List Text)
  | memberPromote (id : Nat)

namespace Admin

abbrev Answer := Except Status Unit × Admin

def refuse (s : Admin) (code : Code) (message : String) : Answer := (.error ⟨code, message⟩, s)

def notALeader (s : Admin) : Answer := s.refuse .failedPrecondition "not a leader"

/-- `propose` and `propose_conf_change` ask once more whether the node leads. -/
def propose (s : Admin) (entryType : EntryType) (data : Bytes) (failure : String) : Answer :=
  if s.raft.state.isLeader then (.ok (), { s with raft := s.raft.propose entryType data })
  else s.refuse .internal (failure ++ "Not a leader")

/-- A text with its fields after a colon each. -/
def command (tag : String) (fields : List Text) : Bytes :=
  utf8 tag.toList ++ utf8 (List.intercalate [':'] fields)

/-- The first field check that fails is answered; then the leadership is; then the command is proposed. -/
def checkAndPropose (s : Admin) (leads : Bool) (checks : List (Bool × String)) (data : Bytes)
    (failure : String) : Answer :=
  match checks.find? (·.1) with
  | some (_, message) => s.refuse .invalidArgument message
  | none => if leads then s.propose .normal data failure else s.notALeader

/-! ### The auth service -/

def authEnable (s : Admin) (leads : Bool) : Answer :=
  s.checkAndPropose leads [] (command "ENABLE_AUTH" []) "enable auth failed: "

def authDisable (s : Admin) (leads : Bool) : Answer :=
  s.checkAndPropose leads [] (command "DISABLE_AUTH" []) "disable auth failed: "

def userAdd (s : Admin) (leads : Bool) (name password : Text) : Answer :=
  s.checkAndPropose leads
    [(name.isEmpty, "user name must not be empty"), (password.isEmpty, "password must not be empty")]
    (command "ADD_USER:" [name, password]) "add user failed: "

def userDelete (s : Admin) (leads : Bool) (name : Text) : Answer :=
  s.checkAndPropose leads [(name.isEmpty, "user name must not be empty")]
    (command "DELETE_USER:" [name]) "delete user failed: "

def userChangePassword (s : Admin) (leads : Bool) (name password : Text) : Answer :=
  s.checkAndPropose leads
    [(name.isEmpty, "user name must not be empty"), (password.isEmpty, "password must not be empty")]
    (command "CHANGE_PASSWORD:" [name, password]) "change password failed: "

def userGrantRole (s : Admin) (leads : Bool) (user role : Text) : Answer :=
  s.checkAndPropose leads
    [(user.isEmpty, "user name must not be empty"), (role.isEmpty, "role name must not be empty")]
    (command "GRANT_ROLE:" [user, role]) "grant role failed: "

def userRevokeRole (s : Admin) (leads : Bool) (name role : Text) : Answer :=
  s.checkAndPropose leads
    [(name.isEmpty, "user name must not be empty"), (role.isEmpty, "role name must not be empty")]
    (command "REVOKE_ROLE:" [name, role]) "revoke role failed: "

def roleAdd (s : Admin) (leads : Bool) (name : Text) : Answer :=
  s.checkAndPropose leads [(name.isEmpty, "role name must not be empty")]
    (command "ADD_ROLE:" [name]) "add role failed: "

def roleDelete (s : Admin) (leads : Bool) (role : Text) : Answer :=
  s.checkAndPropose leads [(role.isEmpty, "role name must not be empty")]
    (command "DELETE_ROLE:" [role]) "delete role failed: "

/-- The permission itself is not in the command. -/
def roleGrantPermission (s : Admin) (leads : Bool) (name : Text) (hasPerm : Bool) : Answer :=
  s.checkAndPropose leads
    [(name.isEmpty, "role name must not be empty"), (!hasPerm, "permission must be provided")]
    (command "GRANT_PERMISSION:" [name]) "grant permission failed: "

/-- Neither the key nor the range end is in the command. -/
def roleRevokePermission (s : Admin) (leads : Bool) (role : Text) : Answer :=
  s.checkAndPropose leads [(role.isEmpty, "role name must not be empty")]
    (command "REVOKE_PERMISSION:" [role]) "revoke permission failed: "

/-! ### The lease and the maintenance service, up to their proposals -/

def leaseGrant (s : Admin) (leads : Bool) (ttl clock : Int) : Answer :=
  s.checkAndPropose leads [(decide (ttl ≤ 0), "ttl must be positive")] (grantProposal clock ttl)
    "raft proposal failed: "

def leaseRevoke (s : Admin) (leads : Bool) (id : Int) : Answer :=
  s.checkAndPropose leads [(id == 0, "lease id must not be zero")] (revokeProposal id)
    "raft proposal failed: "

/-- One request of the stream: it does not ask whether the node leads before it proposes. -/
def leaseKeepAlive (s : Admin) (id : Int) : Answer :=
  if id = 0 then s.refuse .invalidArgument "lease id must not be zero"
  else s.propose .normal (command "KEEPALIVE_LEASE:" [(toString id).toList]) "keepalive failed: "

/-- Here the leadership is checked before the field. -/
def downgrade (s : Admin) (leads : Bool) (targetVersion : Text) : Answer :=
  if leads then
    s.checkAndPropose true [(targetVersion.isEmpty, "target_version must not be empty")]
      (command "DOWNGRADE:" [targetVersion]) "downgrade failed: "
  else s.notALeader

/-! ### The cluster service -/

/-- The manager is changed before the change is proposed. -/
def change {α : Type} (s : Admin) (done : Except ClusterError α × ClusterManager) (failure : String)
    (data : α → Bytes) : Answer :=
  match done.1 with
  | .error error => (.error ⟨.internal, failure ++ error.display⟩, { s with members := done.2 })
  | .ok result => propose { s with members := done.2 } .configChange (data result) "conf change failed: "

def memberAdd (s : Admin) (leads : Bool) (peerUrls : List Text) (isLearner : Bool) (memberCount : Nat)
    (uuid : Bytes) : Answer :=
  if leads then
    if peerUrls = [] then s.refuse .invalidArgument "peer URLs must not be empty"
    else
      s.change (s.members.addMember uuid ("member-".toList ++ (toString (memberCount + 1)).toList) peerUrls []
          isLearner) "add member failed: " fun member =>
        command "ADD_MEMBER:" [(toString member.id).toList, List.intercalate [','] peerUrls,
          (toString isLearner).toList]
  else s.notALeader

def memberRemove (s : Admin) (leads : Bool) (id : Nat) : Answer :=
  if id = 0 then s.refuse .invalidArgument "member id must not be zero"
  else if leads then
    s.change (s.members.removeMember id) "remove member failed: " fun _ =>
      command "REMOVE_MEMBER:" [(toString id).toList]
  else s.notALeader

/-- The client URLs of the request are written as the peer URLs of the member. -/
def memberUpdate (s : Admin) (leads : Bool) (id : Nat) (clientUrls : List Text) : Answer :=
  if id = 0 then s.refuse .invalidArgument "member id must not be zero"
  else if leads then
    s.change (s.members.updateMember id clientUrls) "update member failed: " fun _ =>
      command "UPDATE_MEMBER:" [(toString id).toList, List.intercalate [','] clientUrls]
  else s.notALeader

def memberPromote (s : Admin) (leads : Bool) (id : Nat) : Answer :=
  if id = 0 then s.refuse .invalidArgument "member id must not be zero"
  else if leads then
    s.change (s.members.promoteMember id) "promote member failed: " fun _ =>
      command "PROMOTE_MEMBER:" [(toString id).toList]
  else s.notALeader

/-- The handler of each call; `leads` is what it reads of the leadership. -/
def serve (s : Admin) (leads : Bool) : Administration → Answer
  | .authEnable => s.authEnable leads
  | .authDisable => s.authDisable leads
  | .userAdd name password => s.userAdd leads name password
  | .userDelete name => s.userDelete leads name
  | .userChangePassword name password => s.userChangePassword leads name password
  | .userGrantRole user role => s.userGrantRole leads user role
  | .userRevokeRole name role => s.userRevokeRole leads name role
  | .roleAdd name => s.roleAdd leads name
  | .roleDelete role => s.roleDelete leads role
  | .roleGrantPermission name hasPerm => s.roleGrantPermission leads name hasPerm
  | .roleRevokePermission role => s.roleRevokePermission leads role
  | .leaseGrant ttl clock => s.leaseGrant leads ttl clock
  | .leaseRevoke id => s.leaseRevoke leads id
  | .leaseKeepAlive id => s.leaseKeepAlive id
  | .downgrade targetVersion => s.downgrade leads targetVersion
  | .memberAdd peerUrls isLearner memberCount uuid => s.memberAdd leads peerUrls isLearner memberCount uuid
  | .memberRemove id => s.memberRemove leads id
  | .memberUpdate id clientUrls => s.memberUpdate leads id clientUrls
  | .memberPromote id => s.memberPromote leads id

end Admin

/-! ### Texts with another tag -/

theorem lossy_ascii_append {front : Bytes} (small : ∀ b ∈ front, b < 0x80) (rest : Bytes) :
    lossy (front ++ rest) = front ++ lossy rest := by
  induction front with
  | nil => rfl
  | cons b front ih =>
    obtain ⟨first, others⟩ := List.forall_mem_cons.mp small
    rw [List.cons_append, lossy_cons_ascii first, ih others, List.cons_append]

/-- **A text with another tag** is no command of the store, whatever follows the tag. -/
theorem followerCommand_tagged {tag : Bytes} (small : ∀ b ∈ tag, b < 0x80) (long : 7 ≤ tag.length)
    (put : ¬ putTag <+: tag) (delete : ¬ deleteTag <+: tag) (rest : Bytes) :
    followerCommand (tag ++ rest) = none := by
  have noPut : stripFront putTag (tag ++ lossy rest) = none := by
    rw [stripFront, if_neg]
    exact fun front => put (List.prefix_of_prefix_length_le front (List.prefix_append tag _)
      (le_trans (by decide) long))
  have noDelete : stripFront deleteTag (tag ++ lossy rest) = none := by
    rw [stripFront, if_neg]
    exact fun front => delete (List.prefix_of_prefix_length_le front (List.prefix_append tag _)
      (le_trans (by decide) long))
  unfold followerCommand
  simp only [lossy_ascii_append small, noPut, noDelete]

/-- The tag shows in its own letters that it is another one. -/
def OtherTag (tag : String) : Prop :=
  (∀ b ∈ utf8 tag.toList, b < 0x80) ∧ 7 ≤ (utf8 tag.toList).length ∧
    ¬ putTag <+: utf8 tag.toList ∧ ¬ deleteTag <+: utf8 tag.toList

instance (tag : String) : Decidable (OtherTag tag) := inferInstanceAs (Decidable (_ ∧ _))

theorem followerCommand_command {tag : String} (other : OtherTag tag) (fields : List Text) :
    followerCommand (Admin.command tag fields) = none :=
  followerCommand_tagged other.1 other.2.1 other.2.2.1 other.2.2.2 _

/-! ### What a call leaves in the log -/

namespace Admin

/-- The log is as it was, or has one more entry that the apply loop passes over. -/
inductive Quiet (s t : Admin) : Prop
  | same (raft : t.raft = s.raft)
  | proposed (entryType : EntryType) (data : Bytes)
      (silent : entryType ≠ .normal ∨ followerCommand data = none)
      (raft : t.raft = s.raft.propose entryType data)

variable {s : Admin}

theorem Quiet.propose {entryType : EntryType} {data : Bytes} {failure : String}
    (silent : entryType ≠ .normal ∨ followerCommand data = none) :
    Quiet s (s.propose entryType data failure).2 := by
  unfold Admin.propose
  split
  · exact .proposed entryType data silent rfl
  · exact .same rfl

theorem Quiet.checkAndPropose {leads : Bool} {checks : List (Bool × String)} {data : Bytes} {failure : String}
    (silent : followerCommand data = none) :
    Quiet s (s.checkAndPropose leads checks data failure).2 := by
  unfold Admin.checkAndPropose
  split
  · exact .same rfl
  · split
    · exact .propose (.inr silent)
    · exact .same rfl

/-- A change of the membership is no command of the store, whatever its text is. -/
theorem Quiet.change {α : Type} {done : Except ClusterError α × ClusterManager} {failure : String}
    {data : α → Bytes} : Quiet s (s.change done failure data).2 := by
  unfold Admin.change
  split
  · exact .same rfl
  case h_2 result _ =>
    have change : EntryType.configChange ≠ .normal := by decide
    have quiet : Quiet { s with members := done.2 }
        (({ s with members := done.2 } : Admin).propose .configChange (data result) "conf change failed: ").2 :=
      .propose (.inl change)
    cases quiet with
    | same raft => exact .same raft
    | proposed entryType data silent raft => exact .proposed entryType data silent raft

/-- **A call is quiet**, whatever names and numbers it carries. -/
theorem serve_quiet (s : Admin) (leads : Bool) (call : Administration) : Quiet s (s.serve leads call).2 := by
  cases call with
  | authEnable => exact .checkAndPropose (followerCommand_command (by decide +kernel) _)
  | authDisable => exact .checkAndPropose (followerCommand_command (by decide +kernel) _)
  | userAdd name password => exact .checkAndPropose (followerCommand_command (by decide +kernel) _)
  | userDelete name => exact .checkAndPropose (followerCommand_command (by decide +kernel) _)
  | userChangePassword name password => exact .checkAndPropose (followerCommand_command (by decide +kernel) _)
  | userGrantRole user role => exact .checkAndPropose (followerCommand_command (by decide +kernel) _)
  | userRevokeRole name role => exact .checkAndPropose (followerCommand_command (by decide +kernel) _)
  | roleAdd name => exact .checkAndPropose (followerCommand_command (by decide +kernel) _)
  | roleDelete role => exact .checkAndPropose (followerCommand_command (by decide +kernel) _)
  | roleGrantPermission name hasPerm => exact .checkAndPropose (followerCommand_command (by decide +kernel) _)
  | roleRevokePermission role => exact .checkAndPropose (followerCommand_command (by decide +kernel) _)
  | leaseGrant ttl clock => exact .checkAndPropose (followerCommand_grantProposal clock ttl)
  | leaseRevoke id => exact .checkAndPropose (followerCommand_revokeProposal id)
  | leaseKeepAlive id =>
    change Quiet s (s.leaseKeepAlive id).2
    unfold leaseKeepAlive
    split
    · exact .same rfl
    · exact .propose (.inr (followerCommand_command (by decide +kernel) _))
  | downgrade targetVersion =>
    change Quiet s (s.downgrade leads targetVersion).2
    unfold downgrade
    split
    · exact .checkAndPropose (followerCommand_command (by decide +kernel) _)
    · exact .same rfl
  | memberAdd peerUrls isLearner memberCount uuid =>
    change Quiet s (s.memberAdd leads peerUrls isLearner memberCount uuid).2
    unfold memberAdd
    split
    · split
      · exact .same rfl
      · exact .change
    · exact .same rfl
  | memberRemove id =>
    change Quiet s (s.memberRemove leads id).2
    unfold memberRemove
    split
    · exact .same rfl
    · split
      · exact .change
      · exact .same rfl
  | memberUpdate id clientUrls =>
    change Quiet s (s.memberUpdate leads id clientUrls).2
    unfold memberUpdate
    split
    · exact .same rfl
    · split
      · exact .change
      · exact .same rfl
  | memberPromote id =>
    change Quiet s (s.memberPromote leads id).2
    unfold memberPromote
    split
    · exact .same rfl
    · split
      · exact .change
      · exact .same rfl

end Admin

/-! ### Runs of calls -/

/-- What reaches the log of a node: calls of the administrative services, and proposals of the KV service. -/
inductive LeaderCall
  | administer (leads : Bool) (call : Administration)
  | client (data : Bytes)

def LeaderCall.isClient : LeaderCall → Bool
  | administer _ _ => false
  | client _ => true

namespace Admin

def call (s : Admin) : LeaderCall → Admin
  | .administer leads call => (s.serve leads call).2
  | .client data => (s.propose .normal data "raft proposal failed: ").2

def callAll (s : Admin) (calls : List LeaderCall) : Admin := calls.foldl call s

/-- Two nodes that both lead, or both do not, with logs of the same commands. -/
structure SameCommands (s t : Admin) : Prop where
  leads : t.raft.state.isLeader = s.raft.state.isLeader
  holds : s.raft.log.Holds s.raft.entries
  holds' : t.raft.log.Holds t.raft.entries
  commands : commands t.raft.entries = commands s.raft.entries

theorem propose_isLeader (node : RaftNode) (entryType : EntryType) (data : Bytes) :
    (node.propose entryType data).state.isLeader = node.state.isLeader := by
  rw [RaftNode.propose]
  dsimp only
  split <;> rfl

/-- The commands of a log after a proposal. -/
theorem propose_commands {node : RaftNode} (holds : node.log.Holds node.entries) (entryType : EntryType)
    (data : Bytes) : commands (node.propose entryType data).entries = commands node.entries ++
      (LogEntry.command ⟨0, 0, data, entryType⟩).toList := by
  have holds' : (node.propose entryType data).log.Holds
      (node.entries ++ [⟨node.log.lastIndex + 1, node.state.currentTerm, data, entryType⟩]) :=
    RaftNode.propose_holds holds
  have after := holds'.toList_eq
  rw [RaftNode.entries, after, commands, commands, List.filterMap_append]
  congr 1

theorem propose_holds_entries {node : RaftNode} (holds : node.log.Holds node.entries) (entryType : EntryType)
    (data : Bytes) : (node.propose entryType data).log.Holds (node.propose entryType data).entries :=
  RaftNode.holds_entries ⟨_, RaftNode.propose_holds holds⟩

/-- An entry that the loop passes over is no command. -/
theorem command_eq_none {entryType : EntryType} {data : Bytes}
    (silent : entryType ≠ .normal ∨ followerCommand data = none) (index term : Nat) :
    LogEntry.command ⟨index, term, data, entryType⟩ = none := by
  cases entryType with
  | normal => exact silent.resolve_left (not_not.mpr rfl)
  | configChange => rfl
  | snapshot => rfl

variable {s t : Admin}

/-- A call leaves the commands of the log. -/
theorem SameCommands.administer (same : SameCommands s t) (leads : Bool) (call : Administration) :
    SameCommands (s.serve leads call).2 t := by
  obtain ⟨leading, holds, holds', commands⟩ := same
  cases s.serve_quiet leads call with
  | same raft => exact ⟨by rw [leading, raft], by rwa [raft], holds', by rw [commands, raft]⟩
  | proposed entryType data silent raft =>
    refine ⟨?_, ?_, holds', ?_⟩
    · rw [leading, raft, propose_isLeader]
    · rw [raft]
      exact propose_holds_entries holds entryType data
    · rw [commands, raft, propose_commands holds, command_eq_none silent, Option.toList_none,
        List.append_nil]

/-- A proposal of the KV service adds the same command to both. -/
theorem SameCommands.client (same : SameCommands s t) (data : Bytes) :
    SameCommands (s.call (.client data)) (t.call (.client data)) := by
  obtain ⟨leading, holds, holds', commands⟩ := same
  unfold Admin.call Admin.propose
  dsimp only
  rw [leading]
  split
  · refine ⟨?_, propose_holds_entries holds _ _, propose_holds_entries holds' _ _, ?_⟩
    · rw [propose_isLeader, propose_isLeader, leading]
    · rw [propose_commands holds, propose_commands holds', commands]
  · exact ⟨leading, holds, holds', commands⟩

theorem SameCommands.callAll (calls : List LeaderCall) : ∀ {s t : Admin}, SameCommands s t →
    SameCommands (s.callAll calls) (t.callAll (calls.filter LeaderCall.isClient)) := by
  induction calls with
  | nil => exact id
  | cons call rest ih =>
    intro s t same
    cases call with
    | administer leads call => exact ih (same.administer leads call)
    | client data => exact ih (same.client data)

end Admin

/-- The store after a round with the command, and whether the loop goes on. -/
def StoreOp.round (state : MvccStore × Bool) (op : StoreOp) : MvccStore × Bool :=
  if state.2 then
    match op.run.run state.1 with
    | (.ok _, store) => (store, true)
    | (.err _, store) => (store, true)
    | (.panic, store) => (store, false)
  else state

def Server.progress (server : Server) : MvccStore × Bool := (server.store, server.applying)

/-- A round that meets a running loop makes the call of the entry's command. -/
theorem Server.receive_progress {server : Server} (running : server.applying = true) (entry : LogEntry) :
    (server.receive false entry).progress = entry.command.toList.foldl StoreOp.round server.progress := by
  have goes : server.progress = (server.store, true) := Prod.ext rfl running
  unfold receive LogEntry.command
  dsimp only
  cases entry.entryType with
  | configChange => rfl
  | snapshot => rfl
  | normal =>
    dsimp only
    rw [if_neg Bool.false_ne_true]
    cases followerCommand entry.data with
    | none => rfl
    | some op =>
      rw [Option.toList_some, List.foldl_cons, List.foldl_nil, StoreOp.round, goes, if_pos rfl]
      dsimp only
      rcases op.run.run server.store with ⟨_ | _ | _, store⟩
      · exact Prod.ext rfl running
      · exact Prod.ext rfl running
      · rfl

/-- A loop that has ended makes no call. -/
theorem StoreOp.round_ended (ops : List StoreOp) (store : MvccStore) :
    ops.foldl round (store, false) = (store, false) := by
  induction ops with
  | nil => rfl
  | cons op rest ih => exact ih

/-- **The loop sees only the commands**: its store, and whether it still runs, come of them. -/
theorem Server.loop_progress (entries : List LogEntry) :
    (Server.loop entries).progress = (commands entries).foldl StoreOp.round Server.new.progress := by
  induction entries using List.reverseRecOn with
  | nil => rfl
  | append_singleton entries entry ih =>
    have last : commands (entries ++ [entry]) = commands entries ++ entry.command.toList := by
      rw [commands, List.filterMap_append, commands]
      cases command : entry.command with
      | none => rw [List.filterMap_cons_none command, List.filterMap_nil, Option.toList_none]
      | some op => rw [List.filterMap_cons_some command, List.filterMap_nil, Option.toList_some]
    rw [Server.loop_concat, last, List.foldl_append, ← ih]
    split_ifs with running
    · exact Server.receive_progress running entry
    · have ended : (Server.loop entries).progress = ((Server.loop entries).store, false) :=
        Prod.ext rfl (Bool.eq_false_iff.mpr running)
      rw [ended, StoreOp.round_ended]

/-- **Administration does not interfere with the keys.** In every reachable state of the cluster: whatever
calls of the administrative services a node serves between the proposals of the KV service, the store that
the apply loop of a follower makes of the node's log is the one it makes of the log without these calls. -/
theorem administration_noninterference (config : ClusterConfig) (actions : List Cluster.Action)
    (cluster : Cluster) (runs : Cluster.run config actions = some cluster) (id : Nat)
    (members : ClusterManager) (calls : List LeaderCall) :
    (Server.loop ((⟨cluster.raft id, members⟩ : Admin).callAll calls).raft.entries).store =
      (Server.loop ((⟨cluster.raft id, members⟩ : Admin).callAll
        (calls.filter LeaderCall.isClient)).raft.entries).store := by
  have keeps : ∀ s action next, Cluster.step s action = some next → Cluster.LogsHold s →
      Cluster.LogsHold next := fun s action next moves logs => logs.step moves
  have logs : Cluster.LogsHold cluster := run_always keeps (.start config) runs
  have same := Admin.SameCommands.callAll calls (s := ⟨cluster.raft id, members⟩)
    (t := ⟨cluster.raft id, members⟩) ⟨rfl, logs.holds id, logs.holds id, rfl⟩
  show (Server.progress _).1 = (Server.progress _).1
  rw [Server.loop_progress, Server.loop_progress, same.commands]

/-- A node without peers. -/
def oneNode : ClusterConfig := ⟨[1], fun _ => ⟨1, [], 100, true⟩⟩

/-- A user with the text of a `PUT` as its name, before a `PUT`. -/
def namedLikeAPut : List LeaderCall :=
  [.administer true (.userAdd "PUT:a:b".toList "secret".toList), .client (putProposal [97] [99])]

theorem named_like_a_put_ignored :
    (Server.loop ((⟨(Cluster.start oneNode).raft 1, ⟨1, 1, fun _ => none, 0⟩⟩ : Admin).callAll
        namedLikeAPut).raft.entries).store =
      (Server.loop ((⟨(Cluster.start oneNode).raft 1, ⟨1, 1, fun _ => none, 0⟩⟩ : Admin).callAll
        [.client (putProposal [97] [99])]).raft.entries).store :=
  administration_noninterference oneNode [] (.start oneNode) rfl 1 ⟨1, 1, fun _ => none, 0⟩ namedLikeAPut

end Rusd
