/-
**What a node is built from** (`server/mod.rs`).

From the one text of `initial_cluster` a starting node makes its Raft configuration, the addresses of its
transport, the members of its `ClusterManager`, the client URLs for requests that it sends on, and the
cluster id. The functions go over the text each for itself.

* `registered_eq` — the registration of the members as a table of the roster's entries.
* `deriveClientUrl_port` — the client URL of a peer is the one of the port before.
* `bootstrap_agrees` — where names and ids are distinct and the members valid, all parts of the node are
  about the same members, and the manager's quorum is the majority that Raft counts.
* `bootstrap_order_irrelevant` — nodes whose texts list the same entries in another order have the same
  cluster id, members and majority.
-/

import Rusd.Api.Forwarding
import Rusd.Lib.Tables
import Rusd.Membership.Quorums
import Rusd.Server.InitialCluster

namespace Rusd

open Rusd.Membership

variable (sha1 : Hash)

/-! ### Texts -/

/-- `str::replace`: every occurrence, from the left and without overlaps; `skip` characters of an occurrence
are still to be passed over. -/
def replaceFrom (pattern replacement : Text) : Nat → Text → Text
  | _, [] => []
  | skip + 1, _ :: rest => replaceFrom pattern replacement skip rest
  | 0, c :: rest =>
    if pattern.isPrefixOf (c :: rest) then
      replacement ++ replaceFrom pattern replacement (pattern.length - 1) rest
    else c :: replaceFrom pattern replacement 0 rest

def replace (text pattern replacement : Text) : Text := replaceFrom pattern replacement 0 text

/-- The parts before and after the last separator. -/
def rsplitOnce (sep : Char) (text : Text) : Option (Text × Text) :=
  let last := text.reverse.takeWhile (· ≠ sep)
  if sep ∈ text then some (text.take (text.length - last.length - 1), last.reverse) else none

/-- `parse::<u16>`: digits, with a plus sign before them if there is one. -/
def parseU16 (text : Text) : Option Nat :=
  let digits : Text := match text with
    | '+' :: rest => rest
    | _ => text
  let value : Nat := digits.foldl (fun value c => value * 10 + (c.toNat - '0'.toNat)) 0
  if digits ≠ [] ∧ digits.all Char.isDigit ∧ value < 2 ^ 16 then some value else none

/-! ### The parts of a node -/

/-- The hash of the sorted ids. -/
def computeClusterId (memberIds : List Nat) : Nat :=
  let sorted := memberIds.mergeSort (· ≤ ·)
  u64OfBe ((sha1 (sorted.flatMap fun id => (leBytes 8 id).reverse)).val.take 8)

/-- The member that an entry registers; its client URL is guessed from the peer URL. -/
def memberOf (clusterToken : Text) (entry : Text × Text) : Membership.Member :=
  .new (urlId sha1 clusterToken entry.2) entry.1 [entry.2]
    [replace entry.2 ":2380".toList ":2379".toList]

/-- Register initial cluster members in the manager; a failure is logged only. -/
def registerInitialMembers (manager : ClusterManager) (initialCluster clusterToken : Text) :
    ClusterManager :=
  (initialCluster.splitOn ',').foldl (fun manager memberStr =>
    match splitEntry memberStr with
    | some (name, peerUrl) =>
      (manager.addMemberWithId (computeMemberId sha1 [peerUrl] clusterToken) name [peerUrl]
        [replace peerUrl ":2380".toList ":2379".toList] false).2
    | none => manager) manager

/-- Derive a client URL from a peer URL by subtracting 1 from the port. -/
def deriveClientUrlFromPeer (peerUrl : Text) : Text :=
  let urlWithoutScheme :=
    if "https://".toList.isPrefixOf peerUrl then peerUrl.drop 8
    else if "http://".toList.isPrefixOf peerUrl then peerUrl.drop 7
    else peerUrl
  let fallback := replace (replace peerUrl ":2380".toList ":2379".toList) "https://".toList "http://".toList
  match rsplitOnce ':' urlWithoutScheme with
  | some (host, portText) =>
    match parseU16 portText with
    | some port => "http://".toList ++ host ++ [':'] ++ (toString (port - 1)).toList
    | none => fallback
  | none => fallback

/-- What `build_peer_client_urls` writes into its map, in this order. -/
def clientUrlEntries (initialCluster clusterToken : Text) (localClientUrls : List Text) (localName : Text) :
    List (Nat × Text) :=
  (initialCluster.splitOn ',').filterMap fun memberStr =>
    match splitEntry memberStr with
    | some (name, peerUrl) =>
      let memberId := computeMemberId sha1 [peerUrl] clusterToken
      if name = localName then localClientUrls.head?.map fun url => (memberId, url)
      else some (memberId, deriveClientUrlFromPeer peerUrl)
    | none => none

/-- Build a mapping of member id to client URL for all nodes in the cluster. -/
def buildPeerClientUrls (initialCluster clusterToken : Text) (localClientUrls : List Text)
    (localName : Text) : Nat → Option Text :=
  tableOf (clientUrlEntries sha1 initialCluster clusterToken localClientUrls localName)

/-- The address at which the transport dials a peer: without TLS, if the peers make their certificates
themselves. -/
def dialledAddress (peerAutoTls : Bool) (address : Text) : Text :=
  if peerAutoTls ∧ "https://".toList.isPrefixOf address then
    replace address "https://".toList "http://".toList
  else address

/-- The addresses of the transport. -/
def peerAddresses (config : ServerConfig) (peerAutoTls : Bool) : Nat → Option Text :=
  tableOf ((parsePeerConfigsWithToken sha1 config.initialCluster config.name
    config.initialClusterToken).map fun peer => (peer.id, dialledAddress peerAutoTls peer.address))

/-! ### The members that are registered -/

/-- A member that is new and valid is written. -/
theorem addMember_of_new {manager : ClusterManager} {id : Nat} {name : Text} {peerUrls clientUrls : List Text}
    (valid : (Membership.Member.new id name peerUrls clientUrls).Passes) (new : manager.members id = none) :
    (manager.addMemberWithId id name peerUrls clientUrls false).2 =
      manager.put id (.new id name peerUrls clientUrls) := by
  unfold ClusterManager.addMemberWithId
  have passes : ({ Membership.Member.new id name peerUrls clientUrls with isLearner := false } :
      Membership.Member).validate = .ok () := valid
  simp only [passes, new, Option.isSome_none, Bool.false_eq_true, if_false]
  rfl

/-- **The registration writes the table of the roster.** -/
theorem registered_eq (manager : ClusterManager) (initialCluster clusterToken : Text)
    (ids : (allMemberIds sha1 initialCluster clusterToken).Nodup)
    (valid : ∀ entry ∈ roster initialCluster, (memberOf sha1 clusterToken entry).Passes)
    (new : ∀ id, manager.members id = none) :
    registerInitialMembers sha1 manager initialCluster clusterToken =
      { manager with members := tableOf ((roster initialCluster).map fun entry =>
          (urlId sha1 clusterToken entry.2, memberOf sha1 clusterToken entry)) } := by
  have empty : manager.members = fun _ => none := funext new
  rw [tableOf, ← empty]
  rw [allMemberIds_eq] at ids
  have absent : ∀ entry ∈ roster initialCluster, manager.members (urlId sha1 clusterToken entry.2) = none :=
    fun entry _ => new _
  clear new empty
  unfold registerInitialMembers
  unfold roster at ids valid absent ⊢
  generalize initialCluster.splitOn ',' = members at ids valid absent ⊢
  induction members generalizing manager with
  | nil => rfl
  | cons memberStr rest ih =>
    rw [List.foldl_cons]
    cases split : splitEntry memberStr with
    | none =>
      simp only [List.filterMap_cons, split] at ids valid absent ⊢
      exact ih manager ids valid absent
    | some entry =>
      obtain ⟨name, url⟩ := entry
      simp only [List.filterMap_cons, split, List.map_cons, List.forall_mem_cons] at ids valid absent ⊢
      obtain ⟨fresh, ids⟩ := List.nodup_cons.mp ids
      obtain ⟨first, valid⟩ := valid
      obtain ⟨free, absent⟩ := absent
      have added : (manager.addMemberWithId (urlId sha1 clusterToken url) name [url]
          [replace url ":2380".toList ":2379".toList] false).2 =
            manager.put (urlId sha1 clusterToken url) (memberOf sha1 clusterToken (name, url)) :=
        addMember_of_new first free
      rw [show computeMemberId sha1 [url] clusterToken = urlId sha1 clusterToken url from rfl, added]
      refine ih _ ids valid fun entry member => ?_
      have apart : urlId sha1 clusterToken entry.2 ≠ urlId sha1 clusterToken url := fun same =>
        fresh (List.mem_map.mpr ⟨entry, member, same⟩)
      exact (Function.update_of_ne apart _ _).trans (absent entry member)

section Roster

variable {initialCluster clusterToken : Text}

/-- The ids of a roster's table. -/
theorem tableIds_eq {β : Type} (value : Text × Text → β) :
    ((roster initialCluster).map fun entry => (urlId sha1 clusterToken entry.2, value entry)).map Prod.fst =
      allMemberIds sha1 initialCluster clusterToken := by
  rw [List.map_map, allMemberIds_eq]
  rfl

/-- What a roster's table has under the id of an entry. -/
theorem tableOf_roster {β : Type} (value : Text × Text → β)
    (ids : (allMemberIds sha1 initialCluster clusterToken).Nodup) {entry : Text × Text}
    (member : entry ∈ roster initialCluster) :
    tableOf ((roster initialCluster).map fun entry => (urlId sha1 clusterToken entry.2, value entry))
      (urlId sha1 clusterToken entry.2) = some (value entry) := by
  refine (tableOf_eq_some_iff ?_).mpr (List.mem_map.mpr ⟨entry, member, rfl⟩)
  rwa [tableIds_eq]

variable {manager : ClusterManager} (ids : (allMemberIds sha1 initialCluster clusterToken).Nodup)
  (valid : ∀ entry ∈ roster initialCluster, (memberOf sha1 clusterToken entry).Passes)
  (new : ∀ id, manager.members id = none)

include ids valid new

theorem registered_member {entry : Text × Text} (member : entry ∈ roster initialCluster) :
    (registerInitialMembers sha1 manager initialCluster clusterToken).getMember
      (urlId sha1 clusterToken entry.2) = some (memberOf sha1 clusterToken entry) := by
  rw [registered_eq sha1 manager initialCluster clusterToken ids valid new]
  exact tableOf_roster sha1 _ ids member

theorem registered_listing : (registerInitialMembers sha1 manager initialCluster clusterToken).Listing
    (allMemberIds sha1 initialCluster clusterToken) := by
  refine ⟨ids, fun id => ?_⟩
  rw [registered_eq sha1 manager initialCluster clusterToken ids valid new, Option.isSome_iff_exists]
  have keys := ids
  rw [← tableIds_eq sha1 (memberOf sha1 clusterToken)] at keys
  simp only [tableOf_eq_some_iff keys]
  rw [allMemberIds_eq]
  simp only [List.mem_map, Prod.mk.injEq]
  constructor
  · rintro ⟨entry, member, same⟩
    exact ⟨_, entry, member, same, rfl⟩
  · rintro ⟨_, entry, member, same, -⟩
    exact ⟨entry, member, same⟩

/-- All registered members vote. -/
theorem registered_voters :
    (registerInitialMembers sha1 manager initialCluster clusterToken).voterCount
      (allMemberIds sha1 initialCluster clusterToken) = (roster initialCluster).length := by
  have listed : (registerInitialMembers sha1 manager initialCluster clusterToken).listMembers
      (allMemberIds sha1 initialCluster clusterToken) =
        (roster initialCluster).map (memberOf sha1 clusterToken) := by
    rw [ClusterManager.listMembers, allMemberIds_eq, List.filterMap_map, ← List.filterMap_eq_map]
    exact List.filterMap_congr fun entry member => registered_member sha1 ids valid new member
  rw [ClusterManager.voterCount, listed, List.countP_map]
  exact List.countP_eq_length.mpr fun entry _ => rfl

end Roster

/-! ### URLs -/

/-- The entries of the client URLs are those of the roster, with the local URL for the node itself. -/
theorem clientUrlEntries_eq (initialCluster clusterToken : Text) (localUrl : Text) (localUrls : List Text)
    (localName : Text) :
    clientUrlEntries sha1 initialCluster clusterToken (localUrl :: localUrls) localName =
      (roster initialCluster).map fun entry => (urlId sha1 clusterToken entry.2,
        if entry.1 = localName then localUrl else deriveClientUrlFromPeer entry.2) := by
  unfold clientUrlEntries roster
  induction initialCluster.splitOn ',' with
  | nil => rfl
  | cons memberStr rest ih =>
    rw [List.filterMap_cons, List.filterMap_cons, ih]
    cases splitEntry memberStr with
    | none => rfl
    | some entry =>
      by_cases here : entry.1 = localName
      · simp [here, urlId]
      · simp [here, urlId]

/-- Every Raft peer has the address of its entry. -/
theorem peerAddresses_peer (config : ServerConfig) (peerAutoTls : Bool)
    (ids : (allMemberIds sha1 config.initialCluster config.initialClusterToken).Nodup) {peer : Nat}
    (isPeer : peer ∈ (config.raftConfig sha1).peers) :
    ∃ entry ∈ roster config.initialCluster, entry.1 ≠ config.name ∧
      urlId sha1 config.initialClusterToken entry.2 = peer ∧
      peerAddresses sha1 config peerAutoTls peer = some (dialledAddress peerAutoTls entry.2) := by
  rw [ServerConfig.raftConfig, parsePeerConfigs_eq, List.map_map] at isPeer
  obtain ⟨url, other, rfl⟩ := List.mem_map.mp isPeer
  obtain ⟨name, differs, member⟩ := Roster.mem_others.mp other
  refine ⟨(name, url), member, differs, rfl, ?_⟩
  rw [peerAddresses, parsePeerConfigs_eq, List.map_map]
  refine (tableOf_eq_some_iff ?_).mpr (List.mem_map.mpr ⟨url, other, rfl⟩)
  -- the ids of the peers are some of the ids of all members
  rw [allMemberIds_eq] at ids
  rw [List.map_map, Roster.others, List.map_map]
  exact ids.sublist (List.filter_sublist.map _)

theorem rsplitOnce_append {sep : Char} {last : Text} (free : sep ∉ last) (front : Text) :
    rsplitOnce sep (front ++ sep :: last) = some (front, last) := by
  have all : ∀ c ∈ last.reverse, decide (c ≠ sep) = true := fun c member =>
    decide_eq_true fun same => free (same ▸ List.mem_reverse.mp member)
  have back : (front ++ sep :: last).reverse.takeWhile (· ≠ sep) = last.reverse := by
    rw [List.reverse_append, List.reverse_cons, List.append_assoc, List.takeWhile_append_of_pos all]
    simp
  have length : (front ++ sep :: last).length - last.reverse.length - 1 = front.length := by
    rw [List.length_reverse, List.length_append, List.length_cons]
    omega
  rw [rsplitOnce, back, if_pos (by simp), List.reverse_reverse, length, List.take_left]

/-- **The client URL of a peer** with a port is the one of the port before, without TLS. -/
theorem deriveClientUrl_port {host portText : Text} {port : Nat} (free : ':' ∉ portText)
    (parsed : parseU16 portText = some port) :
    deriveClientUrlFromPeer ("http://".toList ++ host ++ ':' :: portText) =
        "http://".toList ++ host ++ ':' :: (toString (port - 1)).toList ∧
      deriveClientUrlFromPeer ("https://".toList ++ host ++ ':' :: portText) =
        "http://".toList ++ host ++ ':' :: (toString (port - 1)).toList := by
  constructor
  · have plain : "https://".toList.isPrefixOf ("http://".toList ++ host ++ ':' :: portText) = false := rfl
    have scheme : "http://".toList.isPrefixOf ("http://".toList ++ host ++ ':' :: portText) = true := rfl
    have rest : ("http://".toList ++ host ++ ':' :: portText).drop 7 = host ++ ':' :: portText := rfl
    rw [deriveClientUrlFromPeer]
    simp only [plain, scheme, rest, if_true, Bool.false_eq_true, if_false, rsplitOnce_append free, parsed]
    rw [List.append_assoc _ [':'], List.singleton_append]
  · have scheme : "https://".toList.isPrefixOf ("https://".toList ++ host ++ ':' :: portText) = true := rfl
    have rest : ("https://".toList ++ host ++ ':' :: portText).drop 8 = host ++ ':' :: portText := rfl
    rw [deriveClientUrlFromPeer]
    simp only [scheme, rest, if_true, rsplitOnce_append free, parsed]
    rw [List.append_assoc _ [':'], List.singleton_append]

theorem replaceFrom_free {first : Char} {pattern replacement front : Text} (free : first ∉ front)
    (rest : Text) : replaceFrom (first :: pattern) replacement 0 (front ++ rest) =
      front ++ replaceFrom (first :: pattern) replacement 0 rest := by
  induction front with
  | nil => rfl
  | cons c front ih =>
    obtain ⟨differs, free⟩ := not_or.mp (fun member => free (List.mem_cons.mpr member))
    have none : (first :: pattern).isPrefixOf (c :: (front ++ rest)) = false := by
      rw [List.isPrefixOf, beq_eq_false_iff_ne.mpr differs, Bool.false_and]
    rw [List.cons_append, replaceFrom, none, if_neg Bool.false_ne_true, ih free, List.cons_append]

/-- On the usual port, the client URL that is registered is the one that requests are sent on to. -/
theorem memberOf_usual_port (clusterToken name host : Text) (free : ':' ∉ host) :
    (memberOf sha1 clusterToken (name, "http://".toList ++ host ++ ":2380".toList)).clientUrls =
      [deriveClientUrlFromPeer ("http://".toList ++ host ++ ":2380".toList)] := by
  have registered : replace ("http://".toList ++ host ++ ":2380".toList) ":2380".toList ":2379".toList =
      "http://".toList ++ host ++ ":2379".toList := by
    have passed : replace ("http://".toList ++ host ++ ":2380".toList) ":2380".toList ":2379".toList =
        "http://".toList ++ replaceFrom ":2380".toList ":2379".toList 0 (host ++ ":2380".toList) := rfl
    have last : replaceFrom ":2380".toList ":2379".toList 0 ":2380".toList = ":2379".toList := by decide
    rw [passed, List.append_assoc]
    congr 1
    exact (replaceFrom_free free _).trans (congrArg (host ++ ·) last)
  have derived := (@deriveClientUrl_port host "2380".toList 2380 (by decide) (by decide)).1
  show [replace ("http://".toList ++ host ++ ":2380".toList) ":2380".toList ":2379".toList] = _
  rw [registered]
  have number : (toString (2380 - 1)).toList = "2379".toList := by decide
  rw [number] at derived
  exact congrArg (fun url => [url]) derived.symm

/-! ### The whole node -/

/-- **All parts of a node are about the same members.** Where names and ids are distinct and every member is
valid: the manager lists exactly the members of the text, its quorum is the majority that the Raft node
counts, each member has its client URL, and each Raft peer the address of its entry. -/
theorem bootstrap_agrees (config : ServerConfig) (localUrl : Text) (localUrls : List Text)
    (peerAutoTls : Bool) (listed : config.name ∈ (roster config.initialCluster).map (·.1))
    (names : ((roster config.initialCluster).map (·.1)).Nodup)
    (ids : (allMemberIds sha1 config.initialCluster config.initialClusterToken).Nodup)
    (valid : ∀ entry ∈ roster config.initialCluster,
      (memberOf sha1 config.initialClusterToken entry).Passes)
    (clusterId memberId : Nat) (manager : ClusterManager)
    (isNew : ClusterManager.new clusterId memberId = .ok manager) (node : RaftNode)
    (configured : node.config = config.raftConfig sha1) :
    (registerInitialMembers sha1 manager config.initialCluster config.initialClusterToken).Listing
        (allMemberIds sha1 config.initialCluster config.initialClusterToken) ∧
      (registerInitialMembers sha1 manager config.initialCluster config.initialClusterToken).quorumSize
        (allMemberIds sha1 config.initialCluster config.initialClusterToken) = node.majority ∧
      (∀ entry ∈ roster config.initialCluster,
        (registerInitialMembers sha1 manager config.initialCluster config.initialClusterToken).getMember
          (urlId sha1 config.initialClusterToken entry.2) =
            some (memberOf sha1 config.initialClusterToken entry) ∧
        buildPeerClientUrls sha1 config.initialCluster config.initialClusterToken (localUrl :: localUrls)
          config.name (urlId sha1 config.initialClusterToken entry.2) =
            some (if entry.1 = config.name then localUrl else deriveClientUrlFromPeer entry.2)) ∧
      ∀ peer ∈ node.peerIds, ∃ entry ∈ roster config.initialCluster, entry.1 ≠ config.name ∧
        urlId sha1 config.initialClusterToken entry.2 = peer ∧
        peerAddresses sha1 config peerAutoTls peer = some (dialledAddress peerAutoTls entry.2) := by
  have new : ∀ id, manager.members id = none := by
    unfold ClusterManager.new at isNew
    split_ifs at isNew
    cases isNew
    exact fun id => rfl
  refine ⟨registered_listing sha1 ids valid new, ?_, fun entry member => ⟨?_, ?_⟩, fun peer isPeer => ?_⟩
  · rw [ClusterManager.quorumSize, registered_voters sha1 ids valid new,
      same_majority sha1 config listed names ids node configured]
  · exact registered_member sha1 ids valid new member
  · rw [buildPeerClientUrls, clientUrlEntries_eq]
    exact tableOf_roster sha1 _ ids member
  · refine peerAddresses_peer sha1 config peerAutoTls ids ?_
    rw [← configured]
    exact (List.mem_filter.mp isPeer).1

/-- The text of a cluster with the default ports. -/
def twoHosts : Text := "n1=http://a:2380, n2=http://b:2380".toList

/-- The ids without the sort of the one URL. -/
theorem urlId_padded : urlId padded [] = fun url => u64OfBe ((padded (utf8 url ++ utf8 [])).val.take 8) :=
  funext (urlId_eq padded [])

theorem two_hosts_differ : (allMemberIds padded twoHosts []).Nodup := by
  rw [allMemberIds_eq, urlId_padded]
  decide

theorem two_hosts_valid : ∀ entry ∈ roster twoHosts, (memberOf padded [] entry).Passes := by
  unfold memberOf
  rw [urlId_padded]
  decide

/-- The first node of two. -/
theorem two_hosts_agree :
    (∀ entry ∈ roster twoHosts,
      (registerInitialMembers padded ⟨1, 1, fun _ => none, 0⟩ twoHosts []).getMember
        (urlId padded [] entry.2) = some (memberOf padded [] entry)) ∧
    (registerInitialMembers padded ⟨1, 1, fun _ => none, 0⟩ twoHosts []).quorumSize
      (allMemberIds padded twoHosts []) = 2 := by
  have agree := bootstrap_agrees padded ⟨"n1".toList, twoHosts, []⟩ "http://a:2379".toList [] false
    (by decide) (by decide) two_hosts_differ two_hosts_valid 1 1 ⟨1, 1, fun _ => none, 0⟩ rfl
    (RaftNode.new (ServerConfig.raftConfig padded ⟨"n1".toList, twoHosts, []⟩)) rfl
  have counted := same_majority padded ⟨"n1".toList, twoHosts, []⟩ (by decide) (by decide) two_hosts_differ
    (RaftNode.new (ServerConfig.raftConfig padded ⟨"n1".toList, twoHosts, []⟩)) rfl
  exact ⟨fun entry member => (agree.2.2.1 entry member).1,
    agree.2.1.trans (counted.trans (show (roster twoHosts).length / 2 + 1 = 2 by decide))⟩

/-- What the service of a node keeps of its client URLs, by the id of the node. -/
def clientUrlsAt (initialCluster clusterToken : Text) (localUrl : Text → Text)
    (localUrls : Text → List Text) (id : Nat) : List (Nat × String) :=
  match (roster initialCluster).find? fun entry => urlId sha1 clusterToken entry.2 = id with
  | some entry => (clientUrlEntries sha1 initialCluster clusterToken
      (localUrl entry.1 :: localUrls entry.1) entry.1).map fun known => (known.1, String.ofList known.2)
  | none => []

/-- **Requests that are sent on arrive**: where every member answers at its own client URL and at the one of
the port before its peer URL, the nodes of the cluster are wired. -/
theorem bootstrap_wired (initialCluster clusterToken : Text) (localUrl : Text → Text)
    (localUrls : Text → List Text) (listens : String → Nat)
    (answers : ∀ entry ∈ roster initialCluster,
      listens (String.ofList (localUrl entry.1)) = urlId sha1 clusterToken entry.2 ∧
        listens (String.ofList (deriveClientUrlFromPeer entry.2)) = urlId sha1 clusterToken entry.2)
    (config : ClusterConfig) :
    Forwarding.Wired config (clientUrlsAt sha1 initialCluster clusterToken localUrl localUrls) listens := by
  intro id _ known listed
  rw [clientUrlsAt] at listed
  split at listed
  case h_2 => exact absurd listed List.not_mem_nil
  case h_1 self found =>
    rw [clientUrlEntries_eq, List.map_map] at listed
    obtain ⟨entry, member, rfl⟩ := List.mem_map.mp listed
    show listens (String.ofList (if entry.1 = self.1 then localUrl self.1 else _)) = _
    split_ifs with here
    · rw [← here]
      exact (answers entry member).1
    · exact (answers entry member).2

/-! ### The order of the entries -/

/-- The cluster id does not depend on the order of the members. -/
theorem computeClusterId_perm {memberIds memberIds' : List Nat} (perm : memberIds.Perm memberIds') :
    computeClusterId sha1 memberIds = computeClusterId sha1 memberIds' := by
  have ascending : ∀ ids : List Nat, (ids.mergeSort (· ≤ ·)).Pairwise (· ≤ ·) := fun ids => by
    have sorted := List.pairwise_mergeSort
      (fun (a b c : Nat) (first : decide (a ≤ b) = true) (second : decide (b ≤ c) = true) =>
        decide_eq_true (Nat.le_trans (of_decide_eq_true first) (of_decide_eq_true second)))
      (fun a b : Nat => by simpa using Nat.le_total a b) ids
    exact sorted.imp of_decide_eq_true
  have same : (memberIds.mergeSort (· ≤ ·)).Perm (memberIds'.mergeSort (· ≤ ·)) :=
    (List.mergeSort_perm memberIds _).trans (perm.trans (List.mergeSort_perm memberIds' _).symm)
  rw [computeClusterId, computeClusterId, same.eq_of_pairwise' (ascending _) (ascending _)]

/-- A listed member knows the members of the roster. -/
theorem memberIds_roster (config : ServerConfig)
    (listed : config.name ∈ (roster config.initialCluster).map (·.1))
    (names : ((roster config.initialCluster).map (·.1)).Nodup) :
    (config.raftConfig sha1).memberIds =
      (allMemberIds sha1 config.initialCluster config.initialClusterToken).toFinset := by
  obtain ⟨⟨name, url⟩, entry, here⟩ := List.mem_map.mp listed
  obtain ⟨own, found⟩ := Roster.own_of_listed (show (config.name, url) ∈ _ by rw [← here]; exact entry)
  have all := (Roster.cons_others_perm names (Roster.listed_own found)).map
    (urlId sha1 config.initialClusterToken)
  have known : Roster.known (roster config.initialCluster) config.name =
      own :: Roster.others (roster config.initialCluster) config.name := by
    rw [Roster.known, found]
    rfl
  rw [List.map_map] at all
  rw [memberIds_eq sha1 config listed, known, allMemberIds_eq]
  exact List.toFinset_eq_of_perm _ _ all

/-- **The order of the entries does not matter**: nodes with texts that list the same entries in another
order compute the same cluster id, register the same members, and count the same majority. -/
theorem bootstrap_order_irrelevant (config config' : ServerConfig)
    (token : config'.initialClusterToken = config.initialClusterToken)
    (perm : (roster config.initialCluster).Perm (roster config'.initialCluster))
    (names : ((roster config.initialCluster).map (·.1)).Nodup)
    (ids : (allMemberIds sha1 config.initialCluster config.initialClusterToken).Nodup)
    (valid : ∀ entry ∈ roster config.initialCluster,
      (memberOf sha1 config.initialClusterToken entry).Passes)
    (listed : config.name ∈ (roster config.initialCluster).map (·.1))
    (listed' : config'.name ∈ (roster config.initialCluster).map (·.1))
    (manager : ClusterManager) (new : ∀ id, manager.members id = none) (node node' : RaftNode)
    (configured : node.config = config.raftConfig sha1)
    (configured' : node'.config = config'.raftConfig sha1) :
    computeClusterId sha1 (allMemberIds sha1 config'.initialCluster config'.initialClusterToken) =
        computeClusterId sha1 (allMemberIds sha1 config.initialCluster config.initialClusterToken) ∧
      registerInitialMembers sha1 manager config'.initialCluster config'.initialClusterToken =
        registerInitialMembers sha1 manager config.initialCluster config.initialClusterToken ∧
      node'.config.memberIds = node.config.memberIds ∧ node'.majority = node.majority := by
  have order : (allMemberIds sha1 config.initialCluster config.initialClusterToken).Perm
      (allMemberIds sha1 config'.initialCluster config'.initialClusterToken) := by
    rw [token, allMemberIds_eq, allMemberIds_eq]
    exact perm.map _
  have names' := (perm.map (·.1)).nodup_iff.mp names
  have ids' := order.nodup_iff.mp ids
  have there := (perm.map (·.1)).mem_iff.mp listed'
  refine ⟨(computeClusterId_perm sha1 order).symm, ?_, ?_, ?_⟩
  · rw [token] at ids' ⊢
    rw [registered_eq sha1 manager _ _ ids' (fun entry member => valid entry (perm.mem_iff.mpr member)) new,
      registered_eq sha1 manager _ _ ids valid new]
    rw [← tableIds_eq sha1 (memberOf sha1 config.initialClusterToken)] at ids
    rw [tableOf_perm ids (perm.map _)]
  · rw [configured, configured', memberIds_roster sha1 config listed names,
      memberIds_roster sha1 config' there names']
    exact List.toFinset_eq_of_perm _ _ order.symm
  · rw [same_majority sha1 config listed names ids node configured,
      same_majority sha1 config' there names' ids' node' configured', perm.length_eq]

/-- The same cluster, the other way round. -/
def twoHostsSwapped : Text := "n2=http://b:2380,n1=http://a:2380".toList

theorem two_hosts_swapped :
    registerInitialMembers padded ⟨1, 1, fun _ => none, 0⟩ twoHostsSwapped [] =
      registerInitialMembers padded ⟨1, 1, fun _ => none, 0⟩ twoHosts [] :=
  (bootstrap_order_irrelevant padded ⟨"n1".toList, twoHosts, []⟩ ⟨"n2".toList, twoHostsSwapped, []⟩ rfl
    (by decide) (by decide) two_hosts_differ two_hosts_valid (by decide) (by decide) ⟨1, 1, fun _ => none, 0⟩
    (fun _ => rfl) (RaftNode.new (ServerConfig.raftConfig padded ⟨"n1".toList, twoHosts, []⟩))
    (RaftNode.new (ServerConfig.raftConfig padded ⟨"n2".toList, twoHostsSwapped, []⟩)) rfl rfl).2.1

end Rusd
