import MCache.RaftCluster

/-!
# Raft deployments as documented

The configuration file of a node lists the other nodes.  `InitRaft` hands the
addresses of that list to the Raft layer, whose `Peers` is meant to hold all
nodes, the local one included: both quorum sizes and the ids of the nodes to
contact are derived from its length.  With `n` nodes the length is `n - 1`, so
nobody but node `n` contacts node `n`, and for even `n` two quorums can miss
each other.
-/

namespace MCache.Net

open Consensus

structure RaftPeerConfig where
  id : ℕ
  addr : String

structure RaftConfig where
  nodeID : ℕ
  peers : List RaftPeerConfig

def RaftConfig.peerMap (config : RaftConfig) : AList fun _ : ℕ => String :=
  config.peers.foldl (fun peers p => peers.insert p.id p.addr) ∅

def initRaft (walk : List String → List String) (nodeID : ℕ)
    (peers : AList fun _ : ℕ => String) : Config where
  nodeID := nodeID
  peers := walk (peers.entries.map Sigma.snd)

structure Deployment (n : ℕ) where
  file : ℕ → RaftConfig
  walk : ℕ → List String → List String
  nodeID : ∀ i, (file i).nodeID = i
  others : ∀ i ∈ members n, ∀ id,
    id ∈ (file i).peers.map RaftPeerConfig.id ↔ id ∈ members n ∧ id ≠ i
  walk_perm : ∀ i addrs, (walk i addrs).Perm addrs

namespace Deployment

variable {n : ℕ} (d : Deployment n)

def config (i : ℕ) : Config := initRaft (d.walk i) (d.file i).nodeID (d.file i).peerMap

def start (C : Type) [Inhabited C] : Cluster C where
  nodes := fun i => newRaft (d.config i)
  network := []
  elections := []
  applied := []

def system (C : Type) [Inhabited C] : TransitionSystem (Cluster C) (Action C) where
  init := fun c => c = d.start C
  step := Cluster.step n

structure ContactsAll (C : Type) [Inhabited C] : Prop where
  votes : ∀ c, (d.system C).Reachable c → ∀ i ∈ members n,
    (c.nodes i).state ≠ .leader → ∀ j ∈ members n, j ≠ i →
      ∃ req, .sendRequestVote j req ∈ (c.nodes i).handleElectionTimeout.2
  appends : ∀ c, (d.system C).Reachable c → ∀ i ∈ members n,
    (c.nodes i).state = .leader → ∀ j ∈ members n, j ≠ i →
      ∃ req, .sendAppendEntries j req ∈ (c.nodes i).handleHeartbeatTimeout.2

def QuorumsIntersect : Prop :=
  ∀ i ∈ members n, ∀ j ∈ members n, ∀ voters ⊆ members n, ∀ replicas ⊆ members n,
    i ∈ voters → (d.config i).peers.length / 2 + 1 ≤ voters.card →
    j ∈ replicas → (d.config j).peers.length / 2 < replicas.card →
      ∃ node, node ∈ voters ∧ node ∈ replicas

theorem mem_foldl_insert {peers : List RaftPeerConfig}
    {start : AList fun _ : ℕ => String} {id : ℕ} :
    id ∈ peers.foldl (fun peers p => peers.insert p.id p.addr) start ↔
      id ∈ start ∨ id ∈ peers.map RaftPeerConfig.id := by
  induction peers generalizing start with
  | nil => simp
  | cons p rest ih =>
    rw [List.foldl_cons, ih, AList.mem_insert, List.map_cons, List.mem_cons]
    tauto

theorem mem_peerMap {config : RaftConfig} {id : ℕ} :
    id ∈ config.peerMap ↔ id ∈ config.peers.map RaftPeerConfig.id := by
  rw [RaftConfig.peerMap, mem_foldl_insert]
  exact or_iff_right (AList.notMem_empty id)

theorem config_nodeID (i : ℕ) : (d.config i).nodeID = i := d.nodeID i

theorem length_peers {i : ℕ} (hi : i ∈ members n) : (d.config i).peers.length = n - 1 := by
  have hkeys : (d.file i).peerMap.keys.toFinset = (members n).erase i := by
    ext id
    rw [List.mem_toFinset, ← AList.mem_keys, mem_peerMap, d.others i hi, Finset.mem_erase, and_comm]
  calc
    (d.config i).peers.length = ((d.file i).peerMap.entries.map Sigma.snd).length :=
      (d.walk_perm i _).length_eq
    _ = (d.file i).peerMap.keys.length := by
      rw [AList.keys, List.keys, List.length_map, List.length_map]
    _ = (d.file i).peerMap.keys.toFinset.card :=
      (List.toFinset_card_of_nodup (d.file i).peerMap.keys_nodup).symm
    _ = n - 1 := by
      rw [hkeys, Finset.card_erase_of_mem hi, members, Nat.card_Icc, Nat.add_sub_cancel]

theorem mem_others_iff {i j : ℕ} (hi : i ∈ members n) :
    j ∈ (d.config i).others ↔ 1 ≤ j ∧ j < n ∧ j ≠ i := by
  have hbounds := Finset.mem_Icc.mp hi
  rw [Config.mem_others_iff, d.length_peers hi, d.config_nodeID, members, Finset.mem_Icc]
  omega

theorem contacted_iff {i : ℕ} (hi : i ∈ members n) :
    (∀ j ∈ members n, j ≠ i → j ∈ (d.config i).others) ↔ i = n := by
  have hbounds := Finset.mem_Icc.mp hi
  simp only [d.mem_others_iff hi, members, Finset.mem_Icc]
  constructor
  · intro hall
    by_contra hne
    have := hall n ⟨by omega, le_rfl⟩ (Ne.symm hne)
    omega
  · rintro rfl j hj hne
    omega

theorem mem_broadcastRequestVote {C : Type} {r : Raft C} {j : ℕ}
    {req : RequestVoteRequest}
    (hmem : .sendRequestVote j req ∈ r.broadcastRequestVote) :
    j ∈ r.config.others := by
  rcases List.mem_map.mp hmem with ⟨pid, hpid, heq⟩
  cases heq
  exact hpid

theorem quorumsIntersect_iff (hn : 2 ≤ n) : d.QuorumsIntersect ↔ Odd n := by
  constructor
  · intro hinter
    by_contra hodd
    rcases Nat.not_odd_iff_even.mp hodd with ⟨m, hm⟩
    have hfirst : (1 : ℕ) ∈ members n := Finset.mem_Icc.mpr (by omega)
    have hlast : n ∈ members n := Finset.mem_Icc.mpr (by omega)
    rcases hinter 1 hfirst n hlast (Finset.Icc 1 m)
        (Finset.Icc_subset_Icc_right (by omega)) (Finset.Icc (m + 1) n)
        (Finset.Icc_subset_Icc_left (by omega))
        (Finset.mem_Icc.mpr (by omega))
        (by rw [d.length_peers hfirst, Nat.card_Icc]; omega)
        (Finset.mem_Icc.mpr (by omega))
        (by rw [d.length_peers hlast, Nat.card_Icc]; omega)
      with ⟨node, hvoter, hreplica⟩
    rw [Finset.mem_Icc] at hvoter hreplica
    omega
  · rintro ⟨m, hm⟩ i hi j hj voters hvoters replicas hreplicas - helected - hcounted
    rw [d.length_peers hi] at helected
    rw [d.length_peers hj] at hcounted
    by_contra hdisjoint
    have hempty : Disjoint voters replicas :=
      Finset.disjoint_left.mpr fun node hv hr => hdisjoint ⟨node, hv, hr⟩
    have hcard := Finset.card_le_card (Finset.union_subset hvoters hreplicas)
    rw [Finset.card_union_of_disjoint hempty, members, Nat.card_Icc] at hcard
    omega

end Deployment

theorem documented_deployment_unsound {n : ℕ} (hn : 2 ≤ n) (d : Deployment n) :
    ¬ (d.ContactsAll (List UInt8) ∧ d.QuorumsIntersect) := by
  rintro ⟨hcontacts, -⟩
  have hfirst : (1 : ℕ) ∈ members n := Finset.mem_Icc.mpr (by omega)
  have hcontacted : ∀ j ∈ members n, j ≠ 1 → j ∈ (d.config 1).others := by
    intro j hj hne
    rcases hcontacts.votes (d.start (List UInt8)) (.init rfl) 1 hfirst
      (by simp [Deployment.start, newRaft]) j hj hne with ⟨req, hsent⟩
    exact Deployment.mem_broadcastRequestVote hsent
  have hone := (d.contacted_iff hfirst).mp hcontacted
  omega

def documentedNodes : List RaftPeerConfig :=
  [⟨1, "10.0.0.1:12001"⟩, ⟨2, "10.0.0.2:12001"⟩, ⟨3, "10.0.0.3:12001"⟩]

def threeNodeDeployment : Deployment 3 where
  file := fun i => ⟨i, documentedNodes.filter fun p => p.id ≠ i⟩
  walk := fun _ addrs => addrs
  nodeID := fun _ => rfl
  others := by
    intro i _ id
    have hids : (documentedNodes.filter fun p => p.id ≠ i).map RaftPeerConfig.id =
        (documentedNodes.map RaftPeerConfig.id).filter fun p => p ≠ i := by
      rw [List.filter_map]
      rfl
    dsimp only
    rw [hids]
    simp only [documentedNodes, List.map_cons, List.map_nil, List.mem_filter,
      List.mem_cons, List.not_mem_nil, or_false, members, Finset.mem_Icc,
      decide_eq_true_eq]
    omega
  walk_perm := fun _ addrs => List.Perm.refl addrs

theorem quorumsIntersect_iff_threeNodes : threeNodeDeployment.QuorumsIntersect :=
  (threeNodeDeployment.quorumsIntersect_iff (by decide)).mpr (by decide)

theorem documented_deployment_unsound_threeNodes :
    2 ≤ 3 ∧ ¬ (threeNodeDeployment.ContactsAll (List UInt8) ∧
      threeNodeDeployment.QuorumsIntersect) :=
  ⟨by decide, documented_deployment_unsound (by decide) threeNodeDeployment⟩

theorem third_node_not_contacted :
    ((threeNodeDeployment.start (List UInt8)).nodes 1).state ≠ .leader ∧
      ((threeNodeDeployment.start (List UInt8)).nodes 1).handleElectionTimeout.2 =
        [.sendRequestVote 2 ⟨1, 1, 0, 0⟩] := by
  decide

end MCache.Net
