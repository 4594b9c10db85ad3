/-
**The members that each node reads from `initial_cluster`** (`server/mod.rs`).

A node finds its own URL with `extract_member_peer_urls` and its peers with `parse_peer_configs_with_token`;
both go over the `name=url` entries of one text. The hash is a parameter.

* `extractMemberPeerUrls_eq`, `peerIds_eq` — the two as operations of the roster of well-formed entries.
* `totalNodes_add_mine` — the nodes that a node counts.
* `members_agree_iff` — when two nodes have the same members, and count as many.
* `same_majority` — where names and ids are distinct, all nodes count the same votes.
-/

import Rusd.Lib.Roster
import Rusd.Lib.Text
import Rusd.Raft.Node

namespace Rusd

/-! ### Identities -/

/-- The twenty bytes of a hash. -/
abbrev Digest := { bytes : Bytes // bytes.length = 20 }

/-- A hash function, in the place of SHA-1. -/
abbrev Hash := Bytes → Digest

variable (sha1 : Hash)

/-- The first eight bytes of the hash of the sorted URLs and the token. -/
def computeMemberId (peerUrls : List Text) (clusterToken : Text) : Nat :=
  let sortedUrls := peerUrls.mergeSort fun a b => utf8 a ≤ utf8 b
  u64OfBe ((sha1 (sortedUrls.flatMap utf8 ++ utf8 clusterToken)).val.take 8)

/-! ### Reading the text -/

/-- The name and the URL of an entry with one equals sign; any other entry is malformed. -/
def splitEntry (memberStr : Text) : Option (Text × Text) :=
  match (trim memberStr).splitOn '=' with
  | [name, url] => some (trim name, trim url)
  | _ => none

/-- The URL of the first entry of the name, if there is one. -/
def extractMemberPeerUrls (initialCluster memberName : Text) : List Text :=
  go (initialCluster.splitOn ',')
where
  go : List Text → List Text
    | [] => []
    | memberStr :: rest =>
      match splitEntry memberStr with
      | some (name, url) => if name = memberName then [url] else go rest
      | none => go rest

structure PeerConfig where
  id : Nat
  address : Text
  deriving DecidableEq, Repr

/-- The peers, in the order of the text: one for each well-formed entry of another name. -/
def parsePeerConfigsWithToken (initialCluster localName clusterToken : Text) : List PeerConfig :=
  (initialCluster.splitOn ',').filterMap fun memberStr =>
    match splitEntry memberStr with
    | some (name, peerUrl) =>
      if name = localName then none
      else some ⟨computeMemberId sha1 [peerUrl] clusterToken, peerUrl⟩
    | none => none

/-- The ids of all entries, of which the cluster id is made. -/
def allMemberIds (initialCluster clusterToken : Text) : List Nat :=
  (initialCluster.splitOn ',').filterMap fun memberStr =>
    match splitEntry memberStr with
    | some (_, peerUrl) => some (computeMemberId sha1 [peerUrl] clusterToken)
    | none => none

/-- What `RusdServer::new` reads of the configuration for these. -/
structure ServerConfig where
  name : Text
  initialCluster : Text
  initialClusterToken : Text
  deriving DecidableEq, Repr

/-- The configuration that `RusdServer::new` gives its node. -/
def ServerConfig.raftConfig (config : ServerConfig) : RaftConfig where
  id := computeMemberId sha1 (extractMemberPeerUrls config.initialCluster config.name)
    config.initialClusterToken
  peers := (parsePeerConfigsWithToken sha1 config.initialCluster config.name
    config.initialClusterToken).map (·.id)
  maxLogEntriesPerRequest := 100
  preVote := true

/-- The node itself and its peers. -/
def RaftConfig.memberIds (config : RaftConfig) : Finset Nat := (config.id :: config.peers).toFinset

/-! ### The roster of well-formed entries -/

/-- **The well-formed entries**, names with their URLs. -/
def roster (initialCluster : Text) : List (Text × Text) :=
  (initialCluster.splitOn ',').filterMap splitEntry

/-- The id of a member with one URL. -/
def urlId (clusterToken url : Text) : Nat := computeMemberId sha1 [url] clusterToken

theorem urlId_eq (clusterToken url : Text) :
    urlId sha1 clusterToken url = u64OfBe ((sha1 (utf8 url ++ utf8 clusterToken)).val.take 8) := by
  rw [urlId, computeMemberId, List.mergeSort_singleton, List.flatMap_singleton]

theorem extractMemberPeerUrls_eq (initialCluster memberName : Text) :
    extractMemberPeerUrls initialCluster memberName =
      (Roster.own (roster initialCluster) memberName).toList := by
  unfold extractMemberPeerUrls roster
  induction initialCluster.splitOn ',' with
  | nil => rfl
  | cons memberStr rest ih =>
    rw [extractMemberPeerUrls.go, List.filterMap_cons]
    cases splitEntry memberStr with
    | none => exact ih
    | some entry =>
      by_cases here : entry.1 = memberName
      · simp [here, Roster.own]
      · simpa [here, Roster.own] using ih

theorem parsePeerConfigs_eq (initialCluster localName clusterToken : Text) :
    parsePeerConfigsWithToken sha1 initialCluster localName clusterToken =
      (Roster.others (roster initialCluster) localName).map
        fun url => ⟨urlId sha1 clusterToken url, url⟩ := by
  unfold parsePeerConfigsWithToken roster
  induction initialCluster.splitOn ',' with
  | nil => rfl
  | cons memberStr rest ih =>
    rw [List.filterMap_cons, List.filterMap_cons, ih]
    cases splitEntry memberStr with
    | none => rfl
    | some entry =>
      by_cases here : entry.1 = localName
      · simp [here, Roster.others]
      · simp [here, Roster.others, urlId]

theorem allMemberIds_eq (initialCluster clusterToken : Text) :
    allMemberIds sha1 initialCluster clusterToken =
      (roster initialCluster).map fun entry => urlId sha1 clusterToken entry.2 := by
  unfold allMemberIds roster
  induction initialCluster.splitOn ',' with
  | nil => rfl
  | cons memberStr rest ih =>
    rw [List.filterMap_cons, List.filterMap_cons, ih]
    cases splitEntry memberStr with
    | none => rfl
    | some entry => rfl

/-! ### The members -/

theorem memberIds_eq (config : ServerConfig)
    (listed : config.name ∈ (roster config.initialCluster).map (·.1)) :
    (config.raftConfig sha1).memberIds =
      ((Roster.known (roster config.initialCluster) config.name).map
        (urlId sha1 config.initialClusterToken)).toFinset := by
  obtain ⟨⟨name, url⟩, member, rfl⟩ := List.mem_map.mp listed
  obtain ⟨own, found⟩ := Roster.own_of_listed member
  unfold RaftConfig.memberIds ServerConfig.raftConfig Roster.known
  rw [parsePeerConfigs_eq, extractMemberPeerUrls_eq, List.map_map, found, List.map_append]
  rfl

/-- **The well-formed entries**, names with the ids of their URLs. -/
def idRoster (clusterToken initialCluster : Text) : List (Text × Nat) :=
  Roster.mapValues (urlId sha1 clusterToken) (roster initialCluster)

/-- The node that `RusdServer::new` makes. -/
def ServerConfig.node (config : ServerConfig) : RaftNode := .new (config.raftConfig sha1)

theorem own_idRoster (config : ServerConfig)
    (listed : config.name ∈ (roster config.initialCluster).map (·.1)) :
    Roster.own (idRoster sha1 config.initialClusterToken config.initialCluster) config.name =
      some (config.raftConfig sha1).id := by
  obtain ⟨⟨name, url⟩, member, rfl⟩ := List.mem_map.mp listed
  obtain ⟨own, found⟩ := Roster.own_of_listed member
  rw [idRoster, Roster.own_mapValues, ServerConfig.raftConfig, extractMemberPeerUrls_eq, found]
  rfl

theorem peers_idRoster (config : ServerConfig) : (config.raftConfig sha1).peers =
    Roster.others (idRoster sha1 config.initialClusterToken config.initialCluster) config.name := by
  rw [idRoster, Roster.others_mapValues, ServerConfig.raftConfig, parsePeerConfigs_eq, List.map_map]
  rfl

theorem memberIds_idRoster (config : ServerConfig)
    (listed : config.name ∈ (roster config.initialCluster).map (·.1)) :
    (config.raftConfig sha1).memberIds = (Roster.known
      (idRoster sha1 config.initialClusterToken config.initialCluster) config.name).toFinset := by
  rw [RaftConfig.memberIds, Roster.known, own_idRoster sha1 config listed, peers_idRoster]
  rfl

/-- The nodes of the cluster, as a node counts them. -/
def RaftNode.totalNodes (node : RaftNode) : Nat := node.peerIds.length + 1

/-- **A node counts itself and the entries of others**, each as often as it stands in the text. -/
theorem totalNodes_add_mine (config : ServerConfig)
    (listed : config.name ∈ (roster config.initialCluster).map (·.1)) :
    (config.node sha1).totalNodes + (Roster.mine
      (idRoster sha1 config.initialClusterToken config.initialCluster) config.name).length =
        (roster config.initialCluster).length + 1 := by
  have counted := Roster.length_others_add_mine
    (idRoster sha1 config.initialClusterToken config.initialCluster) config.name
  have entries : (idRoster sha1 config.initialClusterToken config.initialCluster).length =
      (roster config.initialCluster).length := List.length_map ..
  have peers : (config.node sha1).peerIds =
      (Roster.others (idRoster sha1 config.initialClusterToken config.initialCluster) config.name).filter
        fun id => Roster.own (idRoster sha1 config.initialClusterToken config.initialCluster) config.name ≠
          some id := by
    rw [own_idRoster sha1 config listed, ← peers_idRoster]
    refine List.filter_congr fun id _ => ?_
    rw [decide_eq_decide, ne_comm, ne_eq, ne_eq, Option.some.injEq]
    rfl
  rw [RaftNode.totalNodes, peers]
  omega

section Two

variable {initialCluster : Text} (clusterToken : Text) {a b : Text}
  (listedA : a ∈ (roster initialCluster).map (·.1)) (listedB : b ∈ (roster initialCluster).map (·.1))

include listedA listedB

/-- Two names have the same members exactly if both are covered. -/
theorem memberIds_agree_iff (differ : a ≠ b) :
    (ServerConfig.raftConfig sha1 ⟨a, initialCluster, clusterToken⟩).memberIds =
        (ServerConfig.raftConfig sha1 ⟨b, initialCluster, clusterToken⟩).memberIds ↔
      Roster.Covered (idRoster sha1 clusterToken initialCluster) a ∧
        Roster.Covered (idRoster sha1 clusterToken initialCluster) b := by
  rw [memberIds_idRoster sha1 ⟨a, initialCluster, clusterToken⟩ listedA,
    memberIds_idRoster sha1 ⟨b, initialCluster, clusterToken⟩ listedB, ← Roster.known_agree_iff differ,
    Finset.ext_iff]
  simp only [List.mem_toFinset]

/-- They count as many nodes exactly if they take as many entries for their own. -/
theorem totalNodes_agree_iff :
    (ServerConfig.node sha1 ⟨a, initialCluster, clusterToken⟩).totalNodes =
        (ServerConfig.node sha1 ⟨b, initialCluster, clusterToken⟩).totalNodes ↔
      (Roster.mine (idRoster sha1 clusterToken initialCluster) a).length =
        (Roster.mine (idRoster sha1 clusterToken initialCluster) b).length := by
  have countA := totalNodes_add_mine sha1 ⟨a, initialCluster, clusterToken⟩ listedA
  have countB := totalNodes_add_mine sha1 ⟨b, initialCluster, clusterToken⟩ listedB
  dsimp only at countA countB
  omega

end Two

/-- **When two nodes have the same members and the same majority**: if they have the same name, or every id
under either name is the first one there or stands under another name too, and the entries that each takes for
its own, under its name or with its id, are as many. -/
theorem members_agree_iff (initialCluster clusterToken a b : Text)
    (listedA : a ∈ (roster initialCluster).map (·.1)) (listedB : b ∈ (roster initialCluster).map (·.1)) :
    ((ServerConfig.raftConfig sha1 ⟨a, initialCluster, clusterToken⟩).memberIds =
        (ServerConfig.raftConfig sha1 ⟨b, initialCluster, clusterToken⟩).memberIds ∧
      (ServerConfig.node sha1 ⟨a, initialCluster, clusterToken⟩).totalNodes =
        (ServerConfig.node sha1 ⟨b, initialCluster, clusterToken⟩).totalNodes ∧
      (ServerConfig.node sha1 ⟨a, initialCluster, clusterToken⟩).majority =
        (ServerConfig.node sha1 ⟨b, initialCluster, clusterToken⟩).majority) ↔
      a = b ∨
        (Roster.Covered (idRoster sha1 clusterToken initialCluster) a ∧
          Roster.Covered (idRoster sha1 clusterToken initialCluster) b) ∧
        (Roster.mine (idRoster sha1 clusterToken initialCluster) a).length =
          (Roster.mine (idRoster sha1 clusterToken initialCluster) b).length := by
  by_cases same : a = b
  · rw [same]
    exact iff_of_true ⟨rfl, rfl, rfl⟩ (.inl rfl)
  · -- the majority comes of the count
    have majority {node node' : RaftNode} (total : node.totalNodes = node'.totalNodes) :
        node.majority = node'.majority := congrArg (· / 2 + 1) total
    rw [or_iff_right same, ← memberIds_agree_iff sha1 clusterToken listedA listedB same,
      ← totalNodes_agree_iff sha1 clusterToken listedA listedB]
    exact and_congr_right fun _ => and_iff_left_of_imp majority

/-- The first twenty bytes, in the place of a hash of them. -/
def padded : Hash := fun data => ⟨(data ++ List.replicate 20 0).take 20, by simp⟩

/-- One entry for each name. -/
def oneEach : Text := "n1=http://n1:2380, n2=http://n2:2380".toList

theorem one_each_agree :
    (ServerConfig.raftConfig padded ⟨"n1".toList, oneEach, "token".toList⟩).memberIds =
        (ServerConfig.raftConfig padded ⟨"n2".toList, oneEach, "token".toList⟩).memberIds ∧
      (ServerConfig.node padded ⟨"n1".toList, oneEach, "token".toList⟩).totalNodes =
        (ServerConfig.node padded ⟨"n2".toList, oneEach, "token".toList⟩).totalNodes ∧
      (ServerConfig.node padded ⟨"n1".toList, oneEach, "token".toList⟩).majority =
        (ServerConfig.node padded ⟨"n2".toList, oneEach, "token".toList⟩).majority := by
  refine (members_agree_iff padded oneEach "token".toList "n1".toList "n2".toList (by decide)
    (by decide)).mpr (.inr ?_)
  rw [idRoster, funext (urlId_eq padded "token".toList)]
  exact ⟨⟨by decide, by decide⟩, by decide⟩

/-- A member with three URLs. -/
def threeUrls : Text := "a=1,a=2,a=3,b=4".toList

/-- **Different members**: `a` knows one of its three URLs, and `b` all of them. -/
theorem three_urls_disagree :
    (roster threeUrls).map (·.1) = [['a'], ['a'], ['a'], ['b']] ∧
    (ServerConfig.raftConfig padded ⟨['a'], threeUrls, []⟩).peers.length = 1 ∧
    (ServerConfig.raftConfig padded ⟨['b'], threeUrls, []⟩).peers.length = 3 ∧
    (ServerConfig.raftConfig padded ⟨['a'], threeUrls, []⟩).memberIds ≠
      (ServerConfig.raftConfig padded ⟨['b'], threeUrls, []⟩).memberIds := by
  refine ⟨by decide, by decide, by decide, ?_⟩
  have ids : urlId padded [] = fun url => u64OfBe ((padded (utf8 url ++ utf8 [])).val.take 8) :=
    funext (urlId_eq padded [])
  rw [memberIds_eq padded ⟨['a'], threeUrls, []⟩ (by decide),
    memberIds_eq padded ⟨['b'], threeUrls, []⟩ (by decide), ids]
  decide

/-- **One majority.** Where no two entries have the same name or the same id, every node counts all entries
of the text. -/
theorem same_majority (config : ServerConfig)
    (listed : config.name ∈ (roster config.initialCluster).map (·.1))
    (names : ((roster config.initialCluster).map (·.1)).Nodup)
    (ids : (allMemberIds sha1 config.initialCluster config.initialClusterToken).Nodup)
    (node : RaftNode) (configured : node.config = config.raftConfig sha1) :
    node.majority = (roster config.initialCluster).length / 2 + 1 := by
  obtain ⟨⟨name, url⟩, member, rfl⟩ := List.mem_map.mp listed
  obtain ⟨own, found⟩ := Roster.own_of_listed member
  have perm := Roster.cons_others_perm names (Roster.listed_own found)
  have id : node.config.id = urlId sha1 config.initialClusterToken own := by
    rw [configured, ServerConfig.raftConfig, extractMemberPeerUrls_eq, found]
    rfl
  have peers : node.config.peers = (Roster.others (roster config.initialCluster) config.name).map
      (urlId sha1 config.initialClusterToken) := by
    rw [configured, ServerConfig.raftConfig, parsePeerConfigs_eq, List.map_map]
    rfl
  have size := perm.length_eq
  rw [List.length_cons, List.length_map] at size
  -- no peer has the id of the node itself
  have apart := perm.map (urlId sha1 config.initialClusterToken)
  rw [List.map_map] at apart
  have distinct : (node.config.id :: node.config.peers).Nodup := by
    rw [id, peers]
    refine apart.nodup_iff.mpr ?_
    rw [allMemberIds_eq] at ids
    exact ids
  have others : node.peerIds = node.config.peers := by
    refine List.filter_eq_self.mpr fun peer member => decide_eq_true fun same => ?_
    exact (List.nodup_cons.mp distinct).1 (same ▸ member)
  rw [RaftNode.majority, others, peers, List.length_map, size]

end Rusd
