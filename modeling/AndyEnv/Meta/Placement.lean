import AndyEnv.Meta.Operations
import Mathlib.Data.List.GetD

/-!
# The owners of the shards of a new group

The owners are taken from the list of nodes by round robin, from a place that the
index of the metadata gives. The shards need no more owners than there are nodes, so
no node is taken twice.
-/

namespace AndyEnv.Meta

open List

theorem getD_inj_of_nodup {α β : Type} {f : α → β} {l : List α} (hl : (l.map f).Nodup) {x : α} {i j : ℕ}
    (hi : i < l.length) (hj : j < l.length) (h : f (l.getD i x) = f (l.getD j x)) : i = j := by
  have hi' : i < (l.map f).length := by rwa [length_map]
  have hj' : j < (l.map f).length := by rwa [length_map]
  have heq : (l.map f)[i] = (l.map f)[j] := by
    rw [getElem_map, getElem_map, ← getD_eq_getElem l x hi, ← getD_eq_getElem l x hj]
    exact h
  exact hl.getElem_inj_iff.mp heq

namespace Data

variable {d : Data}

def ownerAt (d : Data) (k : ℕ) : UInt64 :=
  (d.nodes.getD (((d.index % UInt64.ofNat d.nodes.length).toNat + k) % d.nodes.length) ⟨0, ""⟩).id

theorem ownerAt_mem (hnodes : d.nodes ≠ []) (k : ℕ) : ∃ ni ∈ d.nodes, ni.id = d.ownerAt k := by
  have hlt : ((d.index % UInt64.ofNat d.nodes.length).toNat + k) % d.nodes.length < d.nodes.length :=
    Nat.mod_lt _ (length_pos_iff.mpr hnodes)
  refine ⟨d.nodes.get ⟨_, hlt⟩, get_mem _ _, ?_⟩
  rw [ownerAt, getD_eq_getElem _ _ hlt, get_eq_getElem]

/-- No node is taken twice before all nodes are taken once. -/
theorem ownerAt_injective (hids : (d.nodes.map NodeInfo.id).Nodup) {k k' : ℕ} (hk : k < d.nodes.length)
    (hk' : k' < d.nodes.length) (h : d.ownerAt k = d.ownerAt k') : k = k' := by
  have hpos : 0 < d.nodes.length := by omega
  have hlt := Nat.mod_lt ((d.index % UInt64.ofNat d.nodes.length).toNat + k) hpos
  have hlt' := Nat.mod_lt ((d.index % UInt64.ofNat d.nodes.length).toNat + k') hpos
  have hmod := getD_inj_of_nodup hids hlt hlt' h
  exact Nat.ModEq.eq_of_lt_of_lt (Nat.ModEq.add_left_cancel' _ hmod) hk hk'

/-! ## The shards -/

/-- The replicas of a policy: one at least, and no more than nodes. -/
theorem replicas_eq (hnodes : d.nodes ≠ []) {rpi : RetentionPolicyInfo} (hreplica : 0 ≤ rpi.replicaN.toInt) :
    d.replicas rpi = min (max rpi.replicaN.toInt 1) d.nodes.length := by
  have hpos : 0 < d.nodes.length := length_pos_iff.mpr hnodes
  have hzero : rpi.replicaN = 0 ↔ rpi.replicaN.toInt = 0 := by
    rw [← Int64.toInt_inj]
    rfl
  unfold replicas
  split_ifs with h h'
  · rw [hzero.mp h]
    omega
  · omega
  · have := mt hzero.mpr h
    omega

variable {replicaN shardN : ℕ}

theorem newShards_owners : ∀ si ∈ d.newShards replicaN shardN, ∃ i < shardN,
    si.owners = (List.range replicaN).map (fun j => ⟨d.ownerAt (i * replicaN + j)⟩) := by
  intro si hsi
  obtain ⟨i, hi, rfl⟩ := mem_map.mp hsi
  refine ⟨i, mem_range.mp hi, ?_⟩
  simp only [ownerAt, add_assoc]

theorem mul_add_lt {i j n : ℕ} (hi : i < shardN) (hj : j < replicaN)
    (hle : shardN * replicaN ≤ n) : i * replicaN + j < n := by
  have hmul : (i + 1) * replicaN ≤ shardN * replicaN := Nat.mul_le_mul_right _ hi
  rw [Nat.add_mul, Nat.one_mul] at hmul
  omega

variable (hids : (d.nodes.map NodeInfo.id).Nodup) (hle : shardN * replicaN ≤ d.nodes.length)
include hids hle

theorem nodup_owners {si : ShardInfo} (hsi : si ∈ d.newShards replicaN shardN) :
    si.owners.Nodup := by
  obtain ⟨i, hi, howners⟩ := newShards_owners si hsi
  rw [howners]
  refine List.Nodup.map_on (fun j hj j' hj' h => ?_) nodup_range
  have hj := mem_range.mp hj
  have hj' := mem_range.mp hj'
  have heq := ownerAt_injective hids (mul_add_lt hi hj hle) (mul_add_lt hi hj' hle)
    (congrArg ShardOwner.nodeID h)
  omega

theorem disjoint_owners
    : (d.newShards replicaN shardN).Pairwise (fun a b => ∀ o ∈ a.owners, o ∉ b.owners) := by
  refine pairwise_map.mpr (pairwise_lt_range.imp_of_mem (fun {i i'} hi hi' hlt o ho ho' => ?_))
  have hi := mem_range.mp hi
  have hi' := mem_range.mp hi'
  obtain ⟨j, hj, rfl⟩ := mem_map.mp ho
  obtain ⟨j', hj', heq⟩ := mem_map.mp ho'
  have hj := mem_range.mp hj
  have hj' := mem_range.mp hj'
  have hsame : d.ownerAt (i' * replicaN + j') = d.ownerAt (i * replicaN + j) := by
    have hid := congrArg ShardOwner.nodeID heq
    simp only [add_assoc] at hid
    exact hid
  have hk := ownerAt_injective hids (mul_add_lt hi' hj' hle) (mul_add_lt hi hj hle) hsame
  -- the owners of a shard are taken after those of the shards before it
  have hmul : (i + 1) * replicaN ≤ i' * replicaN := Nat.mul_le_mul_right _ hlt
  rw [Nat.add_mul, Nat.one_mul] at hmul
  omega

end Data

end AndyEnv.Meta
