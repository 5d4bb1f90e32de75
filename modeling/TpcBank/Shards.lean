import TpcBank.Quorums

/-! The shards of `utils.cc`: how the clients and the servers are divided among the clusters, for
any number of clusters and any cluster size. -/
namespace TpcBank
open Decimal

/-! ### Blocks of a range -/

/-- The multiples of `k` that `n` divides into one block lie between two quotients. -/
theorem ceilDiv_mul_eq_iff {n k x j : ℤ} (hn : 0 < n) (hk : 0 < k) :
    ceilDiv (x * k) n = j ↔ x ∈ Finset.Ioc (n * (j - 1) / k) (n * j / k) := by
  rw [ceilDiv_eq_iff hn, Finset.mem_Ioc, Int.ediv_lt_iff_lt_mul hk, Int.le_ediv_iff_mul_le hk]

/-- Consecutive quotients differ by the quotient of the difference, rounded down or up. -/
theorem add_ediv_bounds {a n k : ℤ} (hk : 0 < k) :
    a / k + n / k ≤ (a + n) / k ∧ (a + n) / k ≤ a / k + ceilDiv n k := by
  have ha : a / k * k ≤ a := Int.ediv_mul_le a hk.ne'
  have ha' : a < (a / k + 1) * k := Int.lt_ediv_add_one_mul_self a hk
  have hn : n / k * k ≤ n := Int.ediv_mul_le n hk.ne'
  have hn' : n ≤ ceilDiv n k * k := (le_ceilDiv_iff hk).mp le_rfl
  constructor
  · rw [Int.le_ediv_iff_mul_le hk, add_mul]
    omega
  · have hlt : a + n < (a / k + ceilDiv n k + 1) * k := by
      have hsplit : (a / k + ceilDiv n k + 1) * k = (a / k + 1) * k + ceilDiv n k * k := by ring
      omega
    exact Int.lt_add_one_iff.mp ((Int.ediv_lt_iff_lt_mul hk).mpr hlt)

namespace Constants

variable {c : Constants}

/-! ### Clients -/

theorem clientCluster_mono {x y : ℤ} (h : x ≤ y) :
    c.getClusterIdFromClientId x ≤ c.getClusterIdFromClientId y :=
  ceilDiv_mono (by decide) (mul_le_mul_of_nonneg_right h c.numClusters_pos.le)

/-- The clients `1` to `total_clients` are exactly those with a cluster. -/
theorem clientCluster_mem_iff {x : ℤ} :
    (1 ≤ c.getClusterIdFromClientId x ∧ c.getClusterIdFromClientId x ≤ c.numClusters) ↔
      1 ≤ x ∧ x ≤ totalClients := by
  have hclients : 0 < totalClients := by decide
  have hk := c.numClusters_pos
  constructor
  · rintro ⟨hlow, hhigh⟩
    constructor
    · have hpos := (ceilDiv_pos_iff hclients).mp (Int.lt_iff_add_one_le.mpr hlow)
      have hx := (mul_pos_iff_of_pos_right hk).mp hpos
      omega
    · have hle : x * c.numClusters ≤ totalClients * c.numClusters := by
        rw [mul_comm totalClients]
        exact (le_ceilDiv_iff hclients).mp hhigh
      exact le_of_mul_le_mul_right hle hk
  · rintro ⟨hlow, hhigh⟩
    exact c.clusterIdFromClientId_mem hlow hhigh

/-- The clients of a cluster. -/
noncomputable def clientsOf (c : Constants) (clusterId : ℤ) : Finset ℤ :=
  (Finset.Icc 1 totalClients).filter fun x => c.getClusterIdFromClientId x = clusterId

theorem clientsOf_eq {j : ℤ} (hlow : 1 ≤ j) (hhigh : j ≤ c.numClusters) :
    c.clientsOf j = Finset.Ioc (totalClients * (j - 1) / c.numClusters)
      (totalClients * j / c.numClusters) := by
  have hclients : 0 < totalClients := by decide
  ext x
  rw [← ceilDiv_mul_eq_iff hclients c.numClusters_pos, clientsOf, Finset.mem_filter, Finset.mem_Icc,
    getClusterIdFromClientId]
  refine ⟨fun h => h.2, fun h => ⟨?_, h⟩⟩
  apply clientCluster_mem_iff.mp
  rw [getClusterIdFromClientId, h]
  exact ⟨hlow, hhigh⟩

theorem card_clientsOf {j : ℤ} (hlow : 1 ≤ j) (hhigh : j ≤ c.numClusters) :
    totalClients / c.numClusters ≤ (c.clientsOf j).card ∧
      ((c.clientsOf j).card : ℤ) ≤ ceilDiv totalClients c.numClusters := by
  have hbounds := add_ediv_bounds (a := totalClients * (j - 1)) (n := totalClients) c.numClusters_pos
  have hpos : 0 ≤ totalClients / c.numClusters :=
    Int.ediv_nonneg (by decide) c.numClusters_pos.le
  rw [clientsOf_eq hlow hhigh, Int.card_Ioc]
  rw [show totalClients * (j - 1) + totalClients = totalClients * j by ring] at hbounds
  omega

/-! ### Servers -/

/-- The servers of a cluster, by their ids. -/
theorem getServersInCluster_eq (clusterId : ℤ) : ∃ ids : List ℤ, ids.Nodup ∧
    (∀ id, id ∈ ids ↔ (1 ≤ id ∧ id ≤ c.numClusters * c.clusterSize) ∧ id ∈ c.members clusterId) ∧
      c.getServersInCluster clusterId = ids.map fun id => "S".toList ++ decimal id := by
  refine ⟨(c.serverIds.filter fun p => c.getClusterIdFromServerId p.2 = clusterId).map Prod.snd,
    ?_, ?_, ?_⟩
  · refine List.Nodup.map_on ?_ (serverIds_nodup.filter _)
    rintro ⟨name, id⟩ h ⟨name', id'⟩ h' rfl
    rw [(mem_serverIds.mp (List.mem_filter.mp h).1).1, (mem_serverIds.mp (List.mem_filter.mp h').1).1]
  · intro id
    rw [List.mem_map, mem_members]
    constructor
    · rintro ⟨⟨name, id⟩, h, rfl⟩
      obtain ⟨hmem, hcluster⟩ := List.mem_filter.mp h
      exact ⟨(mem_serverIds.mp hmem).2, of_decide_eq_true hcluster⟩
    · rintro ⟨hrange, hcluster⟩
      exact ⟨_, List.mem_filter.mpr ⟨mem_serverIds.mpr ⟨rfl, hrange⟩, decide_eq_true hcluster⟩, rfl⟩
  · rw [getServersInCluster, List.map_map]
    refine List.map_congr_left ?_
    rintro ⟨name, id⟩ h
    exact (mem_serverIds.mp (List.mem_filter.mp h).1).1

theorem serverName_injective : Function.Injective fun id => "S".toList ++ decimal id :=
  (List.append_right_injective _).comp decimal_injective

/-- The members of a cluster are servers. -/
theorem members_range {j id : ℤ} (hlow : 1 ≤ j) (hhigh : j ≤ c.numClusters)
    (hid : id ∈ c.members j) : 1 ≤ id ∧ id ≤ c.numClusters * c.clusterSize := by
  have hm := c.clusterSize_pos
  rw [members, Finset.mem_Ioc] at hid
  constructor
  · have : 0 ≤ c.clusterSize * (j - 1) := mul_nonneg hm.le (by omega)
    omega
  · rw [mul_comm]
    exact hid.2.trans (mul_le_mul_of_nonneg_left hhigh hm.le)

theorem getServersInCluster_spec {j : ℤ} (hlow : 1 ≤ j) (hhigh : j ≤ c.numClusters) :
    (c.getServersInCluster j).Nodup ∧ ((c.getServersInCluster j).length : ℤ) = c.clusterSize := by
  obtain ⟨ids, hnodup, hmem, heq⟩ := getServersInCluster_eq (c := c) j
  have hids : ids.toFinset = c.members j := by
    ext id
    rw [List.mem_toFinset, hmem]
    exact ⟨fun h => h.2, fun h => ⟨members_range hlow hhigh h, h⟩⟩
  rw [heq]
  refine ⟨hnodup.map serverName_injective, ?_⟩
  have hcard := card_members (c := c) j
  rw [← hids, List.toFinset_card_of_nodup hnodup] at hcard
  rw [List.length_map, hcard, Int.toNat_of_nonneg c.clusterSize_pos.le]

/-- A server is in the list of its own cluster and in no other. -/
theorem serverName_mem_iff {id j : ℤ} (hid : 1 ≤ id ∧ id ≤ c.numClusters * c.clusterSize) :
    "S".toList ++ decimal id ∈ c.getServersInCluster j ↔ c.getClusterIdFromServerId id = j := by
  obtain ⟨ids, -, hmem, heq⟩ := getServersInCluster_eq (c := c) j
  rw [heq, List.mem_map_of_injective serverName_injective, hmem, mem_members]
  exact and_iff_right hid

theorem clusterIdFromServerId_le {id : ℤ} (hid : id ≤ c.numClusters * c.clusterSize) :
    c.getClusterIdFromServerId id ≤ c.numClusters :=
  (le_ceilDiv_iff c.clusterSize_pos).mpr hid

end Constants

/-- The clients and the servers are partitioned into the clusters, the clients evenly. -/
structure ShardPartition (c : Constants) : Prop where
  monotone : ∀ x y, x ≤ y → c.getClusterIdFromClientId x ≤ c.getClusterIdFromClientId y
  clients : ∀ x, (1 ≤ c.getClusterIdFromClientId x ∧ c.getClusterIdFromClientId x ≤ c.numClusters) ↔
    1 ≤ x ∧ x ≤ totalClients
  balanced : ∀ j, 1 ≤ j → j ≤ c.numClusters →
    totalClients / c.numClusters ≤ (c.clientsOf j).card ∧
      ((c.clientsOf j).card : ℤ) ≤ ceilDiv totalClients c.numClusters
  total : ∑ j ∈ Finset.Icc 1 c.numClusters, ((c.clientsOf j).card : ℤ) = totalClients
  servers : ∀ j, 1 ≤ j → j ≤ c.numClusters →
    (c.getServersInCluster j).Nodup ∧ ((c.getServersInCluster j).length : ℤ) = c.clusterSize
  cluster : ∀ name id, (name, id) ∈ c.serverIds →
    ∃! j, (1 ≤ j ∧ j ≤ c.numClusters) ∧ name ∈ c.getServersInCluster j

theorem shardPartition (c : Constants) : ShardPartition c where
  monotone := fun _ _ => Constants.clientCluster_mono
  clients := fun _ => Constants.clientCluster_mem_iff
  balanced := fun _ => Constants.card_clientsOf
  total := by
    have hmaps : ∀ x ∈ Finset.Icc 1 totalClients,
        c.getClusterIdFromClientId x ∈ Finset.Icc 1 c.numClusters := by
      intro x hx
      rw [Finset.mem_Icc] at hx ⊢
      exact Constants.clientCluster_mem_iff.mpr hx
    have hcard := Finset.card_eq_sum_card_fiberwise hmaps
    rw [Int.card_Icc] at hcard
    calc ∑ j ∈ Finset.Icc 1 c.numClusters, ((c.clientsOf j).card : ℤ)
        = ((totalClients + 1 - 1).toNat : ℤ) := by
          rw [hcard, Nat.cast_sum]
          rfl
      _ = totalClients := by decide
  servers := fun _ => Constants.getServersInCluster_spec
  cluster := by
    intro name id h
    obtain ⟨rfl, hid⟩ := Constants.mem_serverIds.mp h
    refine ⟨c.getClusterIdFromServerId id, ⟨⟨?_, ?_⟩, ?_⟩, ?_⟩
    · exact Constants.clusterIdFromServerId_pos c (by omega)
    · exact Constants.clusterIdFromServerId_le hid.2
    · exact (Constants.serverName_mem_iff hid).mpr rfl
    · rintro j ⟨-, hj⟩
      exact ((Constants.serverName_mem_iff hid).mp hj).symm

end TpcBank
