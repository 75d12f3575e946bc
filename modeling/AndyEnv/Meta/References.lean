import AndyEnv.Meta.Placement

/-!
# Ids, names and references

Nodes, shard groups and shards get their ids from counters, names are checked before
they are given, and owners are taken from the nodes. A node that is deleted is removed
from all shards. Ids are 64 bits wide: as long as no counter wraps around, all ids are
different.
-/

namespace AndyEnv.Meta

open List

/-! ## Sound metadata -/

namespace Data

def groups (d : Data) : List ShardGroupInfo := d.policies.flatMap RetentionPolicyInfo.shardGroups

def shards (d : Data) : List ShardInfo := d.groups.flatMap ShardGroupInfo.shards

structure Sound (d : Data) : Prop where
  nodeIDs : (d.nodes.map NodeInfo.id).Nodup
  nodeID_le : ∀ ni ∈ d.nodes, ni.id ≤ d.maxNodeID
  groupIDs : (d.groups.map ShardGroupInfo.id).Nodup
  groupID_le : ∀ sgi ∈ d.groups, sgi.id ≤ d.maxShardGroupID
  shardIDs : (d.shards.map ShardInfo.id).Nodup
  shardID_le : ∀ si ∈ d.shards, si.id ≤ d.maxShardID
  databaseNames : (d.databases.map DatabaseInfo.name).Nodup
  policyNames : ∀ di ∈ d.databases, (di.retentionPolicies.map RetentionPolicyInfo.name).Nodup
  userNames : (d.users.map UserInfo.name).Nodup
  owners : ∀ si ∈ d.shards, ∀ o ∈ si.owners, ∃ ni ∈ d.nodes, ni.id = o.nodeID

end Data

/-- The counters do not wrap around. -/
def Op.Fits (d : Data) : Op → Prop
  | .createNode _ => d.maxNodeID.toNat + 1 < 2 ^ 64
  | .createShardGroup _ _ _ =>
    d.maxShardGroupID.toNat + 1 < 2 ^ 64 ∧ d.maxShardID.toNat + d.nodes.length < 2 ^ 64
  | _ => True

/-! ## Names -/

variable {α β : Type} {f : α → β} {x : α} {di : DatabaseInfo} {preR postR : List RetentionPolicyInfo}
  {rpi : RetentionPolicyInfo}

variable {l pre post : List α}

theorem nodup_map_concat (h : (l.map f).Nodup)
    (hx : ∀ y ∈ l, f y ≠ f x) : ((l ++ [x]).map f).Nodup := by
  rw [map_append, nodup_append]
  refine ⟨h, nodup_singleton _, ?_⟩
  rintro _ hy _ hx' rfl
  obtain ⟨y, hy, hfy⟩ := mem_map.mp hy
  exact hx y hy (hfy.trans (mem_singleton.mp hx'))

theorem nodup_map_remove (h : ((pre ++ x :: post).map f).Nodup) : ((pre ++ post).map f).Nodup :=
  h.sublist (((List.Sublist.refl pre).append (sublist_cons_self x post)).map f)

theorem ne_of_find?_eq_none {key : α → String} {name : String}
    (h : l.find? (fun x => key x == name) = none) : ∀ x ∈ l, key x ≠ name := by
  intro x hx heq
  exact List.find?_eq_none.mp h x hx (beq_iff_eq.mpr heq)

theorem nodup_map_replace {x' : α}
    (h : ((pre ++ x :: post).map f).Nodup) (hx : f x' = f x ∨ ∀ y ∈ pre ++ x :: post, f y ≠ f x') :
    ((pre ++ x' :: post).map f).Nodup := by
  rcases hx with hx | hx
  · rw [map_append, map_cons] at h ⊢
    rwa [hx]
  have hperm : (pre ++ x' :: post).Perm (pre ++ post ++ [x']) := by
    refine perm_middle.trans ?_
    exact (perm_append_singleton x' (pre ++ post)).symm
  exact (hperm.map f).nodup_iff.mpr (nodup_map_concat (nodup_map_remove h)
    (fun y hy => hx y (mem_append_cons_of_mem hy)))

namespace Data

variable {sort : List ShardGroupInfo → List ShardGroupInfo} {d d' : Data} {op : Op}

structure NamesSound (d : Data) : Prop where
  databases : (d.databases.map DatabaseInfo.name).Nodup
  policies : ∀ di ∈ d.databases, (di.retentionPolicies.map RetentionPolicyInfo.name).Nodup
  users : (d.users.map UserInfo.name).Nodup

theorem NamesSound.of_databases (h : d.NamesSound) (hdbs : d'.databases = d.databases)
    (husers : (d'.users.map UserInfo.name).Nodup) : d'.NamesSound :=
  ⟨by rw [hdbs]; exact h.databases, by rw [hdbs]; exact h.policies, husers⟩

variable {pre post : List DatabaseInfo} (hsplit : d.databases = pre ++ di :: post)
    (hsplitR : di.retentionPolicies = preR ++ rpi :: postR)

include hsplit in
theorem NamesSound.withDatabase (h : d.NamesSound) {di' : DatabaseInfo} (hname : di'.name = di.name)
    (hpolicies : (di.retentionPolicies.map RetentionPolicyInfo.name).Nodup →
      (di'.retentionPolicies.map RetentionPolicyInfo.name).Nodup) :
    (d.withDatabase pre di' post).NamesSound := by
  have hdbs := h.databases
  have hrps := h.policies
  rw [hsplit] at hdbs hrps
  have heq : (d.withDatabase pre di' post).databases = pre ++ di' :: post := by
    rw [Data.withDatabase, append_assoc, singleton_append]
  constructor
  · rw [heq]
    exact nodup_map_replace hdbs (.inl hname)
  · rw [heq, forall_mem_append, forall_mem_cons]
    rw [forall_mem_append, forall_mem_cons] at hrps
    exact ⟨hrps.1, hpolicies hrps.2.1, hrps.2.2⟩
  · exact h.users

variable {rpi' : RetentionPolicyInfo}

include hsplit hsplitR in
/-- A policy is replaced by one with the same name, or with a new one. -/
theorem NamesSound.withPolicy (h : d.NamesSound)
    (hname : rpi'.name = rpi.name ∨ ∀ rpi'' ∈ di.retentionPolicies, rpi''.name ≠ rpi'.name) :
    (d.withPolicy pre di post preR rpi' postR).NamesSound := by
  refine h.withDatabase hsplit rfl (fun hrps => ?_)
  dsimp only
  rw [append_assoc, singleton_append]
  rw [hsplitR] at hrps hname
  exact nodup_map_replace hrps hname

theorem NamesSound.step (h : d.NamesSound) (heffect : d.Effect sort op d') : d'.NamesSound := by
  cases heffect with
  | position | createNode => exact h.of_databases rfl h.users
  | deleteNode id =>
    constructor
    · rw [map_map]
      exact h.databases
    · intro di hdi
      obtain ⟨di₀, hdi₀, rfl⟩ := mem_map.mp hdi
      rw [removeOwner, map_map]
      exact h.policies di₀ hdi₀
    · exact h.users
  | createDatabase name hnone =>
    exact ⟨nodup_map_concat h.databases (ne_of_find?_eq_none hnone),
      forall_mem_append.mpr ⟨h.policies, forall_mem_singleton.mpr nodup_nil⟩, h.users⟩
  | dropDatabase hsplit =>
    have hdbs := h.databases
    have hrps := h.policies
    rw [hsplit] at hdbs hrps
    rw [forall_mem_append, forall_mem_cons] at hrps
    exact ⟨nodup_map_remove hdbs, forall_mem_append.mpr ⟨hrps.1, hrps.2.2⟩, h.users⟩
  | database hsplit hname hrps => exact h.withDatabase hsplit hname (fun hnodup => by rwa [hrps])
  | createRetentionPolicy name replicaN duration hsplit hnone =>
    exact h.withDatabase hsplit rfl (fun hnodup => nodup_map_concat hnodup (ne_of_find?_eq_none hnone))
  | dropRetentionPolicy hsplit hsplitR =>
    exact h.withDatabase hsplit rfl (fun hnodup => nodup_map_remove (hsplitR ▸ hnodup))
  | updateRetentionPolicy rpu hsplit hsplitR hname =>
    refine h.withPolicy hsplit hsplitR ?_
    cases hn : rpu.name with
    | none => exact .inl (by rw [updatedPolicy, hn]; rfl)
    | some n =>
      have hupdated : ∀ rpi, (updatedPolicy rpu rpi).name = n :=
        fun rpi => by rw [updatedPolicy, hn]; rfl
      rcases hname n hn with heq | hnone
      · exact .inl ((hupdated _).trans heq)
      · rw [hupdated]
        exact .inr (ne_of_find?_eq_none hnone)
  | createShardGroup timestamp _ hsplit hsplitR _ _ _ =>
    refine NamesSound.of_databases (d := d.withPolicy _ _ _ _ _ _) ?_ rfl h.users
    exact h.withPolicy hsplit hsplitR (.inl rfl)
  | subscriptions _ hsplit hsplitR | deleteShardGroup _ _ hsplit hsplitR =>
    exact h.withPolicy hsplit hsplitR (.inl rfl)
  | createUser name hash admin hnone =>
    exact h.of_databases rfl (nodup_map_concat h.users (ne_of_find?_eq_none hnone))
  | dropUser hsplit =>
    exact h.of_databases rfl (nodup_map_remove (hsplit ▸ h.users))
  | user hsplit hname =>
    exact h.of_databases rfl (nodup_map_replace (hsplit ▸ h.users) (.inl hname))

/-! ## Nodes -/

structure NodesSound (d : Data) : Prop where
  ids : (d.nodes.map NodeInfo.id).Nodup
  le : ∀ ni ∈ d.nodes, ni.id ≤ d.maxNodeID

theorem lt_add_one_of_le {a max : UInt64} (hfits : max.toNat + 1 < 2 ^ 64) (h : a ≤ max) :
    a < max + 1 := by
  rw [UInt64.le_iff_toNat_le] at h
  rw [UInt64.lt_iff_toNat_lt, UInt64.toNat_add, UInt64.toNat_one, Nat.mod_eq_of_lt hfits]
  omega

theorem NodesSound.step (h : d.NodesSound) (hfits : op.Fits d) (heffect : d.Effect sort op d') :
    d'.NodesSound := by
  cases heffect with
  | createNode host hop _ =>
    subst hop
    constructor
    · exact nodup_map_concat h.ids
        (fun ni hni => UInt64.ne_of_lt (lt_add_one_of_le hfits (h.le ni hni)))
    · exact forall_mem_append.mpr ⟨fun ni hni => UInt64.le_of_lt (lt_add_one_of_le hfits (h.le ni hni)),
        forall_mem_singleton.mpr (UInt64.le_refl _)⟩
  | deleteNode id =>
    exact ⟨h.ids.sublist (filter_sublist.map _), fun ni hni => h.le ni (mem_of_mem_filter hni)⟩
  | _ => exact ⟨h.ids, h.le⟩

/-! ## Groups and shards -/

include hsplit in
theorem groups_of_split : ∃ before after,
      d.groups = before ++ di.retentionPolicies.flatMap RetentionPolicyInfo.shardGroups ++ after ∧
      ∀ di', (d.withDatabase pre di' post).groups =
        before ++ di'.retentionPolicies.flatMap RetentionPolicyInfo.shardGroups ++ after := by
  refine ⟨(pre.flatMap DatabaseInfo.retentionPolicies).flatMap RetentionPolicyInfo.shardGroups,
    (post.flatMap DatabaseInfo.retentionPolicies).flatMap RetentionPolicyInfo.shardGroups, ?_, fun di' => ?_⟩
  · rw [groups, policies, hsplit]
    simp only [flatMap_append, flatMap_cons, append_assoc]
  · rw [groups, policies, withDatabase]
    simp only [flatMap_append, flatMap_singleton]

include hsplit hsplitR in
theorem groups_of_splitR : ∃ before after, d.groups = before ++ rpi.shardGroups ++ after ∧
      ∀ rpi', (d.withPolicy pre di post preR rpi' postR).groups =
        before ++ rpi'.shardGroups ++ after := by
  obtain ⟨before, after, hgroups, hwith⟩ := groups_of_split hsplit
  refine ⟨before ++ preR.flatMap RetentionPolicyInfo.shardGroups,
    postR.flatMap RetentionPolicyInfo.shardGroups ++ after, ?_, fun rpi' => ?_⟩
  · rw [hgroups, hsplitR]
    simp only [flatMap_append, flatMap_cons, append_assoc]
  · rw [withPolicy, hwith]
    simp only [flatMap_append, flatMap_singleton, append_assoc]

def parts (sgi : ShardGroupInfo) : UInt64 × List ShardInfo := (sgi.id, sgi.shards)

def disowned (id : UInt64) (s : ShardInfo) : ShardInfo :=
  { s with owners := s.owners.filter (fun o => o.nodeID != id) }

structure PartsSound (nodes : List NodeInfo) (maxShardGroupID maxShardID : UInt64)
    (gs : List (UInt64 × List ShardInfo)) : Prop where
  groupIDs : (gs.map Prod.fst).Nodup
  groupID_le : ∀ g ∈ gs, g.1 ≤ maxShardGroupID
  shardIDs : ((gs.flatMap Prod.snd).map ShardInfo.id).Nodup
  shardID_le : ∀ si ∈ gs.flatMap Prod.snd, si.id ≤ maxShardID
  owners : ∀ si ∈ gs.flatMap Prod.snd, ∀ o ∈ si.owners, ∃ ni ∈ nodes, ni.id = o.nodeID

namespace PartsSound

variable {nodes nodes' : List NodeInfo} {maxShardGroupID maxShardID : UInt64}
  {gs gs' : List (UInt64 × List ShardInfo)}

section

variable (h : PartsSound nodes maxShardGroupID maxShardID gs)
include h

theorem sublist (hsub : gs'.Sublist gs) : PartsSound nodes maxShardGroupID maxShardID gs' := by
  have hshards : (gs'.flatMap Prod.snd).Sublist (gs.flatMap Prod.snd) := hsub.flatMap _
  exact ⟨h.groupIDs.sublist (hsub.map _), fun g hg => h.groupID_le g (hsub.subset hg),
    h.shardIDs.sublist (hshards.map _), fun si hsi => h.shardID_le si (hshards.subset hsi),
    fun si hsi => h.owners si (hshards.subset hsi)⟩

theorem perm (hperm : gs'.Perm gs) : PartsSound nodes maxShardGroupID maxShardID gs' := by
  have hshards : (gs'.flatMap Prod.snd).Perm (gs.flatMap Prod.snd) := hperm.flatMap_right _
  exact ⟨(hperm.map _).nodup_iff.mpr h.groupIDs, fun g hg => h.groupID_le g (hperm.mem_iff.mp hg),
    (hshards.map _).nodup_iff.mpr h.shardIDs, fun si hsi => h.shardID_le si (hshards.mem_iff.mp hsi),
    fun si hsi => h.owners si (hshards.mem_iff.mp hsi)⟩

theorem mono (hnodes : nodes ⊆ nodes') : PartsSound nodes' maxShardGroupID maxShardID gs := by
  refine ⟨h.groupIDs, h.groupID_le, h.shardIDs, h.shardID_le, fun si hsi o ho => ?_⟩
  obtain ⟨ni, hni, hid⟩ := h.owners si hsi o ho
  exact ⟨ni, hnodes hni, hid⟩

/-- A node less, which no shard has as an owner any more. -/
theorem removeOwner (id : UInt64) :
    PartsSound (nodes.filter (fun n => n.id != id)) maxShardGroupID maxShardID
      (gs.map (fun g => (g.1, g.2.map (disowned id)))) := by
  have hshards : (gs.map (fun g => (g.1, g.2.map (disowned id)))).flatMap Prod.snd =
      (gs.flatMap Prod.snd).map (disowned id) := by
    rw [flatMap_map, map_flatMap]
  refine ⟨?_, ?_, ?_, ?_, ?_⟩
  · rw [map_map]
    exact h.groupIDs
  · intro g hg
    obtain ⟨g₀, hg₀, rfl⟩ := mem_map.mp hg
    exact h.groupID_le g₀ hg₀
  · rw [hshards, map_map]
    exact h.shardIDs
  · intro si hsi
    rw [hshards] at hsi
    obtain ⟨si₀, hsi₀, rfl⟩ := mem_map.mp hsi
    exact h.shardID_le si₀ hsi₀
  · intro si hsi o ho
    rw [hshards] at hsi
    obtain ⟨si₀, hsi₀, rfl⟩ := mem_map.mp hsi
    obtain ⟨ho, hne⟩ := mem_filter.mp ho
    obtain ⟨ni, hni, hid⟩ := h.owners si₀ hsi₀ o ho
    exact ⟨ni, mem_filter.mpr ⟨hni, by rw [hid]; exact hne⟩, hid⟩

theorem concat {maxShardID' : UInt64}
    {shards : List ShardInfo} (hfits : maxShardGroupID.toNat + 1 < 2 ^ 64)
    (hmax : maxShardID ≤ maxShardID') (hids : (shards.map ShardInfo.id).Nodup)
    (hlt : ∀ si ∈ shards, maxShardID < si.id) (hle : ∀ si ∈ shards, si.id ≤ maxShardID')
    (howners : ∀ si ∈ shards, ∀ o ∈ si.owners, ∃ ni ∈ nodes, ni.id = o.nodeID) :
    PartsSound nodes (maxShardGroupID + 1) maxShardID' (gs ++ [(maxShardGroupID + 1, shards)]) := by
  have hshards : (gs ++ [(maxShardGroupID + 1, shards)]).flatMap Prod.snd =
      gs.flatMap Prod.snd ++ shards := by
    rw [flatMap_append, flatMap_singleton]
  refine ⟨?_, ?_, ?_, ?_, ?_⟩
  · exact nodup_map_concat h.groupIDs
      (fun g hg => UInt64.ne_of_lt (lt_add_one_of_le hfits (h.groupID_le g hg)))
  · exact forall_mem_append.mpr ⟨fun g hg => UInt64.le_of_lt (lt_add_one_of_le hfits (h.groupID_le g hg)),
      forall_mem_singleton.mpr (UInt64.le_refl _)⟩
  · rw [hshards, map_append, nodup_append]
    refine ⟨h.shardIDs, hids, ?_⟩
    intro _ ha _ hb
    obtain ⟨a, hmem, rfl⟩ := mem_map.mp ha
    obtain ⟨b, hmem', rfl⟩ := mem_map.mp hb
    exact UInt64.ne_of_lt (UInt64.lt_of_le_of_lt (h.shardID_le a hmem) (hlt b hmem'))
  · rw [hshards]
    exact forall_mem_append.mpr ⟨fun si hsi => UInt64.le_trans (h.shardID_le si hsi) hmax, hle⟩
  · rw [hshards]
    exact forall_mem_append.mpr ⟨h.owners, howners⟩

end

end PartsSound

theorem newShards_id (d : Data) (replicaN : ℕ) {shardN : ℕ} (hfits : d.maxShardID.toNat + shardN < 2 ^ 64) :
    ((d.newShards replicaN shardN).map ShardInfo.id).Nodup ∧ ∀ si ∈ d.newShards replicaN shardN,
      d.maxShardID < si.id ∧ si.id ≤ d.maxShardID + UInt64.ofNat shardN := by
  have hid : ∀ i < shardN, (d.maxShardID + 1 + UInt64.ofNat i).toNat = d.maxShardID.toNat + 1 + i := by
    intro i hi
    rw [UInt64.toNat_add, UInt64.toNat_add, UInt64.toNat_one, UInt64.toNat_ofNat']
    omega
  have hmax : (d.maxShardID + UInt64.ofNat shardN).toNat = d.maxShardID.toNat + shardN := by
    rw [UInt64.toNat_add, UInt64.toNat_ofNat']
    omega
  constructor
  · rw [newShards, map_map]
    refine List.Nodup.map_on (fun i hi j hj h => ?_) nodup_range
    have h := congrArg UInt64.toNat h
    simp only [Function.comp_apply] at h
    rw [hid i (mem_range.mp hi), hid j (mem_range.mp hj)] at h
    omega
  · intro si hsi
    obtain ⟨i, hi, rfl⟩ := mem_map.mp hsi
    have hi := mem_range.mp hi
    rw [UInt64.lt_iff_toNat_lt, UInt64.le_iff_toNat_le, hid i hi, hmax]
    omega

theorem toNat_tdiv_le (n : ℕ) (r : ℤ) : ((n : ℤ).tdiv r).toNat ≤ n := by
  have hle := Int.natAbs_tdiv_le_natAbs (n : ℤ) r
  rw [Int.natAbs_natCast] at hle
  omega

def GroupsSound (d : Data) : Prop :=
  PartsSound d.nodes d.maxShardGroupID d.maxShardID (d.groups.map parts)

include hsplit hsplitR in
theorem GroupsSound.create (h : d.GroupsSound) (hsort : SortsGroups sort)
    (hnodes : d.nodes ≠ []) (hgroup : d.maxShardGroupID.toNat + 1 < 2 ^ 64)
    (hshard : d.maxShardID.toNat + d.nodes.length < 2 ^ 64) (timestamp : Time) :
    PartsSound d.nodes (d.maxShardGroupID + 1)
      (d.maxShardID + UInt64.ofNat ((d.nodes.length : ℤ).tdiv (d.replicas rpi)).toNat)
      ((d.withPolicy pre di post preR { rpi with
        shardGroups := sort (rpi.shardGroups ++ [d.newShardGroup rpi timestamp]) } postR).groups.map
          parts) := by
  have hle := toNat_tdiv_le d.nodes.length (d.replicas rpi)
  have hfits : d.maxShardID.toNat + ((d.nodes.length : ℤ).tdiv (d.replicas rpi)).toNat < 2 ^ 64 := by
    omega
  obtain ⟨hids, hrange⟩ := d.newShards_id (d.replicas rpi).toNat hfits
  obtain ⟨before, after, hgroups, hwith⟩ := groups_of_splitR hsplit hsplitR
  have hperm : ((d.withPolicy pre di post preR { rpi with
      shardGroups := sort (rpi.shardGroups ++ [d.newShardGroup rpi timestamp]) } postR).groups.map
        parts).Perm (d.groups.map parts ++ [parts (d.newShardGroup rpi timestamp)]) := by
    have hmap : d.groups.map parts ++ [parts (d.newShardGroup rpi timestamp)] =
        (d.groups ++ [d.newShardGroup rpi timestamp]).map parts := by
      rw [map_append, map_singleton]
    rw [hwith, hmap, hgroups]
    apply List.Perm.map
    refine (((hsort.perm _).append_left before).append_right after).trans ?_
    rw [← append_assoc before, append_assoc (before ++ rpi.shardGroups),
      append_assoc (before ++ rpi.shardGroups)]
    exact perm_append_comm.append_left _
  refine (PartsSound.concat h hgroup ?_ hids (fun si hsi => (hrange si hsi).1)
    (fun si hsi => (hrange si hsi).2) ?_).perm hperm
  · rw [UInt64.le_iff_toNat_le, UInt64.toNat_add, UInt64.toNat_ofNat']
    omega
  · intro si hsi o ho
    obtain ⟨i, -, howners⟩ := newShards_owners si hsi
    rw [howners] at ho
    obtain ⟨j, -, rfl⟩ := mem_map.mp ho
    exact ownerAt_mem hnodes _

include hsplit hsplitR in
theorem GroupsSound.withPolicy (h : d.GroupsSound)
    (hparts : rpi'.shardGroups.map parts = rpi.shardGroups.map parts) :
    (d.withPolicy pre di post preR rpi' postR).GroupsSound := by
  obtain ⟨before, after, hgroups, hwith⟩ := groups_of_splitR hsplit hsplitR
  unfold GroupsSound at h ⊢
  rw [hgroups] at h
  rw [hwith]
  simp only [map_append, hparts] at h ⊢
  exact h

theorem GroupsSound.step (hsort : SortsGroups sort) (h : d.GroupsSound) (hfits : op.Fits d)
    (heffect : d.Effect sort op d') : d'.GroupsSound := by
  unfold GroupsSound at h ⊢
  cases heffect with
  | position | createUser | dropUser | user => exact h
  | createNode host _ _ => exact PartsSound.mono h (subset_append_left _ _)
  | deleteNode id =>
    have hgroups : (groups { d with
        databases := d.databases.map (removeOwner id)
        nodes := d.nodes.filter (fun n => n.id != id) }).map parts =
        (d.groups.map parts).map (fun g => (g.1, g.2.map (disowned id))) := by
      simp only [groups, policies, removeOwner, flatMap_map, map_flatMap, map_map, flatMap_assoc]
      rfl
    rw [hgroups]
    exact PartsSound.removeOwner h id
  | createDatabase name _ =>
    have hgroups : groups { d with databases := d.databases ++ [⟨name, "", [], []⟩] } = d.groups := by
      simp only [groups, policies, flatMap_append, flatMap_singleton, append_nil]
    rw [hgroups]
    exact h
  | dropDatabase hsplit =>
    refine PartsSound.sublist h (List.Sublist.map _ (List.Sublist.flatMap (List.Sublist.flatMap ?_ _) _))
    rw [hsplit]
    exact (List.Sublist.refl _).append (sublist_cons_self _ _)
  | database hsplit _ hrps =>
    obtain ⟨before, after, hgroups, hwith⟩ := groups_of_split hsplit
    rw [hwith, hrps, ← hgroups]
    exact h
  | createRetentionPolicy name replicaN duration hsplit _ =>
    obtain ⟨before, after, hgroups, hwith⟩ := groups_of_split hsplit
    rw [hwith, flatMap_append, flatMap_singleton, append_nil, ← hgroups]
    exact h
  | dropRetentionPolicy hsplit hsplitR =>
    obtain ⟨before, after, hgroups, hwith⟩ := groups_of_split hsplit
    refine PartsSound.sublist h (List.Sublist.map _ ?_)
    rw [hwith, hgroups, hsplitR]
    refine ((List.Sublist.refl _).append (List.Sublist.flatMap ?_ _)).append (List.Sublist.refl _)
    exact (List.Sublist.refl _).append (sublist_cons_self _ _)
  | updateRetentionPolicy _ hsplit hsplitR | subscriptions _ hsplit hsplitR =>
    exact GroupsSound.withPolicy hsplit hsplitR h rfl
  | createShardGroup timestamp hop hsplit hsplitR _ _ hnodes =>
    subst hop
    exact GroupsSound.create hsplit hsplitR h hsort hnodes hfits.1 hfits.2 timestamp
  | deleteShardGroup now _ hsplit hsplitR hsplitG =>
    refine GroupsSound.withPolicy hsplit hsplitR h ?_
    rw [hsplitG]
    simp only [map_append, map_cons, parts]

theorem sound_iff : d.Sound ↔ d.NamesSound ∧ d.NodesSound ∧ d.GroupsSound := by
  have hids : (d.groups.map parts).map Prod.fst = d.groups.map ShardGroupInfo.id := by
    rw [map_map]
    rfl
  have hshards : (d.groups.map parts).flatMap Prod.snd = d.shards := by
    rw [flatMap_map]
    rfl
  constructor
  · intro h
    refine ⟨⟨h.databaseNames, h.policyNames, h.userNames⟩, ⟨h.nodeIDs, h.nodeID_le⟩, ?_⟩
    refine ⟨hids ▸ h.groupIDs, fun g hg => ?_, hshards ▸ h.shardIDs, hshards ▸ h.shardID_le,
      hshards ▸ h.owners⟩
    obtain ⟨sgi, hsgi, rfl⟩ := mem_map.mp hg
    exact h.groupID_le sgi hsgi
  · rintro ⟨hnames, hnodes, hgroups⟩
    exact ⟨hnodes.ids, hnodes.le, hids ▸ hgroups.groupIDs,
      fun sgi hsgi => hgroups.groupID_le _ (mem_map_of_mem hsgi), hshards ▸ hgroups.shardIDs,
      hshards ▸ hgroups.shardID_le, hnames.databases, hnames.policies, hnames.users,
      hshards ▸ hgroups.owners⟩

theorem sound_empty : Data.empty.Sound :=
  ⟨nodup_nil, nofun, nodup_nil, nofun, nodup_nil, nofun, nodup_nil, nofun, nodup_nil, nofun⟩

end Data

def manyNodes (n : ℕ) : Data :=
  { Data.empty with
    maxNodeID := UInt64.ofNat n
    nodes := (List.range n).map (fun i =>
      ⟨UInt64.ofNat i + 1, String.ofList (List.replicate i 'n')⟩) }

theorem reachable_manyNodes (sort : List ShardGroupInfo → List ShardGroupInfo) (n : ℕ) :
    (metaSystem sort).Reachable (manyNodes n) := by
  induction n with
  | zero => exact .init rfl
  | succ n ih =>
    refine .step (l := .createNode (String.ofList (List.replicate n 'n'))) ih trivial ?_
    have hnone : (manyNodes n).nodeByHost (String.ofList (List.replicate n 'n')) = none := by
      refine List.find?_eq_none.mpr (fun ni hni => ?_)
      obtain ⟨i, hi, rfl⟩ := mem_map.mp hni
      intro heq
      have hlist := congrArg String.toList (beq_iff_eq.mp heq)
      rw [String.toList_ofList, String.toList_ofList] at hlist
      have hlength := congrArg List.length hlist
      rw [length_replicate, length_replicate] at hlength
      exact absurd hlength (mem_range.mp hi).ne
    show (manyNodes n).createNode _ = .ok (manyNodes (n + 1))
    rw [Data.createNode, hnone, if_neg (by decide)]
    simp only [manyNodes, range_succ, map_append, map_singleton, UInt64.ofNat_add]
    rfl

theorem one_le_of_sound {n : ℕ} (hn : 0 < n) (h : (manyNodes n).Sound) : 1 ≤ UInt64.ofNat n := by
  have hmem : (⟨UInt64.ofNat 0 + 1, String.ofList (List.replicate 0 'n')⟩ : NodeInfo) ∈
      (manyNodes n).nodes := mem_map.mpr ⟨0, mem_range.mpr hn, rfl⟩
  exact h.nodeID_le _ hmem

end AndyEnv.Meta
