import TpcBank.Types

/-! The deployment constants and the shard arithmetic of `utils.cc`. -/
namespace TpcBank
open Decimal

/-- `constants::total_clients`. -/
def totalClients : ℤ := 3000

/-- The clients `1` to `total_clients`. -/
def clientIds : List ℤ := (List.range totalClients.toNat).map fun i : ℕ => (i : ℤ) + 1

@[simp] theorem mem_clientIds {x : ℤ} : x ∈ clientIds ↔ 1 ≤ x ∧ x ≤ totalClients := by
  unfold clientIds totalClients
  rw [List.mem_map]
  constructor
  · rintro ⟨i, hi, rfl⟩
    have hi := List.mem_range.mp hi
    omega
  · rintro ⟨hlow, hhigh⟩
    exact ⟨(x - 1).toNat, List.mem_range.mpr (by omega), by omega⟩

/-- The run-time constants of a deployment with at least one cluster and one server. -/
structure Constants where
  numClusters : ℤ
  clusterSize : ℤ
  numClusters_pos : 0 < numClusters
  clusterSize_pos : 0 < clusterSize

/-- `ceil((double) a / b)`, with the quotient exact. -/
def ceilDiv (a b : ℤ) : ℤ := -(-a / b)

namespace Constants

def getClusterIdFromClientId (c : Constants) (id : ℤ) : ℤ :=
  ceilDiv (id * c.numClusters) totalClients

def getClusterIdFromServerId (c : Constants) (id : ℤ) : ℤ :=
  ceilDiv id c.clusterSize

def isClientInCluster (c : Constants) (clientId clusterId : ℤ) : Bool :=
  c.getClusterIdFromClientId clientId = clusterId

/-- The servers in the order in which `setupApplicationState` names them: `S<i>` has the id `i`. -/
def serversById (c : Constants) : List (Text × ℤ) :=
  (List.range (c.numClusters * c.clusterSize).toNat).map fun i : ℕ =>
    ("S".toList ++ decimal ((i : ℤ) + 1), (i : ℤ) + 1)

/-- `constants::server_ids` after `setupApplicationState`, in the order of the names. -/
def serverIds (c : Constants) : List (Text × ℤ) :=
  c.serversById.insertionSort fun s t => s.1 ≤ t.1

def getServersInCluster (c : Constants) (clusterId : ℤ) : List Text :=
  (c.serverIds.filter fun p => c.getClusterIdFromServerId p.2 = clusterId).map Prod.fst

/-- Three clusters of three servers. -/
def standard : Constants := ⟨3, 3, by decide, by decide⟩

/-- One cluster of three servers that holds every client. -/
def single : Constants := ⟨1, 3, by decide, by decide⟩

end Constants

theorem le_ceilDiv_iff {a b z : ℤ} (hb : 0 < b) : ceilDiv a b ≤ z ↔ a ≤ z * b := by
  unfold ceilDiv
  rw [neg_le, Int.le_ediv_iff_mul_le hb, neg_mul, neg_le_neg_iff]

theorem ceilDiv_pos_iff {a b : ℤ} (hb : 0 < b) : 0 < ceilDiv a b ↔ 0 < a := by
  have h := le_ceilDiv_iff (a := a) (z := 0) hb
  rw [zero_mul] at h
  rw [← not_le, h, not_le]

theorem ceilDiv_mono {a a' b : ℤ} (hb : 0 < b) (h : a ≤ a') : ceilDiv a b ≤ ceilDiv a' b :=
  (le_ceilDiv_iff hb).mpr (h.trans ((le_ceilDiv_iff hb).mp le_rfl))

namespace Constants

theorem mem_serversById {c : Constants} {name : Text} {id : ℤ} :
    (name, id) ∈ c.serversById ↔
      name = "S".toList ++ decimal id ∧ 1 ≤ id ∧ id ≤ c.numClusters * c.clusterSize := by
  have hpos := mul_pos c.numClusters_pos c.clusterSize_pos
  simp only [serversById, List.mem_map, List.mem_range, Prod.mk.injEq]
  constructor
  · rintro ⟨i, hi, hname, rfl⟩
    exact ⟨hname.symm, by omega, by omega⟩
  · rintro ⟨rfl, hlow, hhigh⟩
    refine ⟨(id - 1).toNat, by omega, ?_, by omega⟩
    rw [show (((id - 1).toNat : ℕ) : ℤ) + 1 = id by omega]

theorem mem_serverIds {c : Constants} {name : Text} {id : ℤ} :
    (name, id) ∈ c.serverIds ↔
      name = "S".toList ++ decimal id ∧ 1 ≤ id ∧ id ≤ c.numClusters * c.clusterSize := by
  rw [serverIds, List.mem_insertionSort, mem_serversById]

theorem serverIds_nodup {c : Constants} : c.serverIds.Nodup := by
  refine (List.perm_insertionSort _ _).nodup_iff.mpr (List.Nodup.map ?_ List.nodup_range)
  intro i j h
  have hid := congrArg Prod.snd h
  dsimp only at hid
  omega

/-- Server ids are positive, so every cluster id of a server is positive. -/
theorem clusterIdFromServerId_pos (c : Constants) {id : ℤ} (h : 0 < id) :
    0 < c.getClusterIdFromServerId id :=
  (ceilDiv_pos_iff c.clusterSize_pos).mpr h

/-- Every client is in one of the clusters. -/
theorem clusterIdFromClientId_mem (c : Constants) {x : ℤ} (h : 1 ≤ x) (h' : x ≤ totalClients) :
    1 ≤ c.getClusterIdFromClientId x ∧ c.getClusterIdFromClientId x ≤ c.numClusters := by
  have hclients : 0 < totalClients := by decide
  constructor
  · exact (ceilDiv_pos_iff hclients).mpr (mul_pos (by omega) c.numClusters_pos)
  · rw [getClusterIdFromClientId, le_ceilDiv_iff hclients, mul_comm]
    exact mul_le_mul_of_nonneg_left h' c.numClusters_pos.le

/-- The client id of the not-found entry belongs to no cluster. -/
theorem sentinel_client (c : Constants) : c.getClusterIdFromClientId (-1) ≤ 0 := by
  have := c.numClusters_pos
  rw [getClusterIdFromClientId, le_ceilDiv_iff (by decide)]
  omega

end Constants
end TpcBank
