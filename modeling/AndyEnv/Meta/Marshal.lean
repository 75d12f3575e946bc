import AndyEnv.Meta.Data

/-!
# Metadata as a message

Each record has a pair of functions `marshal` and `unmarshal` to a protobuf
message and back. The message of a retention policy leaves the subscriptions
out; the number of replicas is cut to 32 bits without a sign, a privilege to 32
bits with one; and a time is its nanoseconds in 64 bits, where 0 stands for the
zero time. All the rest survives.
-/

namespace AndyEnv.Meta

open List Keyed

/-! ## Messages -/

namespace Pb

structure NodeInfo : Type where
  id : UInt64
  host : String

structure ShardOwner : Type where
  nodeID : UInt64

structure ShardInfo : Type where
  id : UInt64
  /-- Deprecated. -/
  ownerIDs : List UInt64
  owners : List ShardOwner

structure ShardGroupInfo : Type where
  id : UInt64
  startTime : Int64
  endTime : Int64
  deletedAt : Int64
  shards : List ShardInfo

structure SubscriptionInfo : Type where
  name : String
  mode : String
  destinations : List String

structure RetentionPolicyInfo : Type where
  name : String
  duration : Int64
  shardGroupDuration : Int64
  replicaN : UInt32
  shardGroups : List ShardGroupInfo
  subscriptions : List SubscriptionInfo

structure ContinuousQueryInfo : Type where
  name : String
  query : String

structure DatabaseInfo : Type where
  name : String
  defaultRetentionPolicy : String
  retentionPolicies : List RetentionPolicyInfo
  continuousQueries : List ContinuousQueryInfo

structure UserPrivilege : Type where
  database : String
  privilege : Int32

structure UserInfo : Type where
  name : String
  hash : String
  admin : Bool
  privileges : List UserPrivilege

structure Data : Type where
  term : UInt64
  index : UInt64
  clusterID : UInt64
  nodes : List NodeInfo
  databases : List DatabaseInfo
  users : List UserInfo
  maxNodeID : UInt64
  maxShardGroupID : UInt64
  maxShardID : UInt64

end Pb

/-! ## To a message -/

/-- `UnixNano`, which wraps around. -/
def Time.unixNano (t : Time) : Int64 := Int64.ofInt t

def marshalTime (t : Time) : Int64 := if Time.isZero t then 0 else Time.unixNano t

def unmarshalTime (v : Int64) : Time := if v = 0 then zeroTime else v.toInt

def NodeInfo.marshal (ni : NodeInfo) : Pb.NodeInfo := ⟨ni.id, ni.host⟩

def ShardOwner.marshal (so : ShardOwner) : Pb.ShardOwner := ⟨so.nodeID⟩

def ShardInfo.marshal (si : ShardInfo) : Pb.ShardInfo := ⟨si.id, [], si.owners.map ShardOwner.marshal⟩

def ShardGroupInfo.marshal (sgi : ShardGroupInfo) : Pb.ShardGroupInfo :=
  ⟨sgi.id, marshalTime sgi.startTime, marshalTime sgi.endTime, marshalTime sgi.deletedAt,
    sgi.shards.map ShardInfo.marshal⟩

def SubscriptionInfo.marshal (si : SubscriptionInfo) : Pb.SubscriptionInfo :=
  ⟨si.name, si.mode, si.destinations⟩

/-- The subscriptions are not set. -/
def RetentionPolicyInfo.marshal (rpi : RetentionPolicyInfo) : Pb.RetentionPolicyInfo :=
  ⟨rpi.name, rpi.duration, rpi.shardGroupDuration, rpi.replicaN.toUInt64.toUInt32,
    rpi.shardGroups.map ShardGroupInfo.marshal, []⟩

def ContinuousQueryInfo.marshal (cqi : ContinuousQueryInfo) : Pb.ContinuousQueryInfo :=
  ⟨cqi.name, cqi.query⟩

def DatabaseInfo.marshal (di : DatabaseInfo) : Pb.DatabaseInfo :=
  ⟨di.name, di.defaultRetentionPolicy, di.retentionPolicies.map RetentionPolicyInfo.marshal,
    di.continuousQueries.map ContinuousQueryInfo.marshal⟩

section

-- the order in which a map is iterated
variable (order : List (String × Int64) → List (String × Int64))

def UserInfo.marshal (ui : UserInfo) : Pb.UserInfo :=
  ⟨ui.name, ui.hash, ui.admin, (order ui.privileges.entries).map (fun e => ⟨e.1, e.2.toInt32⟩)⟩

def Data.marshal (d : Data) : Pb.Data :=
  ⟨d.term, d.index, d.clusterID, d.nodes.map NodeInfo.marshal, d.databases.map DatabaseInfo.marshal,
    d.users.map (UserInfo.marshal order), d.maxNodeID, d.maxShardGroupID, d.maxShardID⟩

end

/-! ## From a message -/

def NodeInfo.unmarshal (pb : Pb.NodeInfo) : NodeInfo := ⟨pb.id, pb.host⟩

def ShardOwner.unmarshal (pb : Pb.ShardOwner) : ShardOwner := ⟨pb.nodeID⟩

/-- Deprecated owner ids are converted. -/
def ShardInfo.unmarshal (pb : Pb.ShardInfo) : ShardInfo :=
  ⟨pb.id, if pb.ownerIDs.length > 0 then pb.ownerIDs.map (fun x => ShardOwner.unmarshal ⟨x⟩)
    else pb.owners.map ShardOwner.unmarshal⟩

def ShardGroupInfo.unmarshal (pb : Pb.ShardGroupInfo) : ShardGroupInfo :=
  ⟨pb.id, unmarshalTime pb.startTime, unmarshalTime pb.endTime, unmarshalTime pb.deletedAt,
    pb.shards.map ShardInfo.unmarshal⟩

def SubscriptionInfo.unmarshal (pb : Pb.SubscriptionInfo) : SubscriptionInfo :=
  ⟨pb.name, pb.mode, pb.destinations⟩

def RetentionPolicyInfo.unmarshal (pb : Pb.RetentionPolicyInfo) : RetentionPolicyInfo :=
  ⟨pb.name, Int64.ofNat pb.replicaN.toNat, pb.duration, pb.shardGroupDuration,
    pb.shardGroups.map ShardGroupInfo.unmarshal, pb.subscriptions.map SubscriptionInfo.unmarshal⟩

def ContinuousQueryInfo.unmarshal (pb : Pb.ContinuousQueryInfo) : ContinuousQueryInfo :=
  ⟨pb.name, pb.query⟩

def DatabaseInfo.unmarshal (pb : Pb.DatabaseInfo) : DatabaseInfo :=
  ⟨pb.name, pb.defaultRetentionPolicy, pb.retentionPolicies.map RetentionPolicyInfo.unmarshal,
    pb.continuousQueries.map ContinuousQueryInfo.unmarshal⟩

/-- The privileges are assigned one by one. -/
def UserInfo.unmarshal (pb : Pb.UserInfo) : UserInfo :=
  ⟨pb.name, pb.hash, pb.admin,
    ⟨ofList Prod.fst (pb.privileges.map (fun p => (p.database, p.privilege.toInt64))),
      ascending_ofList _⟩⟩

def Data.unmarshal (pb : Pb.Data) : Data :=
  ⟨pb.term, pb.index, pb.clusterID, pb.nodes.map NodeInfo.unmarshal,
    pb.databases.map DatabaseInfo.unmarshal, pb.users.map UserInfo.unmarshal, pb.maxNodeID,
    pb.maxShardGroupID, pb.maxShardID⟩

/-! ## What survives -/

/-- Times that `MarshalTime` keeps: the zero time, and nanoseconds in 64 bits other
than 0. -/
def TimeSurvives (t : Time) : Prop := t = zeroTime ∨ t ≠ 0 ∧ -2 ^ 63 ≤ t ∧ t < 2 ^ 63

def ShardGroupInfo.Survives (sgi : ShardGroupInfo) : Prop :=
  TimeSurvives sgi.startTime ∧ TimeSurvives sgi.endTime ∧ TimeSurvives sgi.deletedAt

def RetentionPolicyInfo.Survives (rpi : RetentionPolicyInfo) : Prop :=
  rpi.subscriptions = [] ∧ 0 ≤ rpi.replicaN.toInt ∧ rpi.replicaN.toInt < 2 ^ 32 ∧
    ∀ sgi ∈ rpi.shardGroups, sgi.Survives

def UserInfo.Survives (ui : UserInfo) : Prop :=
  ∀ e ∈ ui.privileges.entries, -2 ^ 31 ≤ e.2.toInt ∧ e.2.toInt < 2 ^ 31

structure Data.Survives (d : Data) : Prop where
  policies : ∀ di ∈ d.databases, ∀ rpi ∈ di.retentionPolicies, rpi.Survives
  users : ∀ ui ∈ d.users, ui.Survives

theorem toInt_ofInt_iff (n : ℤ) : (Int64.ofInt n).toInt = n ↔ -2 ^ 63 ≤ n ∧ n < 2 ^ 63 := by
  constructor
  · intro h
    have hlt := (Int64.ofInt n).toInt_lt
    have hle := (Int64.ofInt n).le_toInt
    omega
  · intro h
    exact Int64.toInt_ofInt_of_le h.1 h.2

theorem unmarshalTime_marshalTime (t : Time) : unmarshalTime (marshalTime t) = t ↔ TimeSurvives t := by
  unfold unmarshalTime TimeSurvives
  by_cases hzero : t = zeroTime
  · simp [marshalTime, Time.isZero, hzero]
  have hnano : marshalTime t = Int64.ofInt t := by
    rw [marshalTime, if_neg (by simpa [Time.isZero] using hzero), Time.unixNano]
  have hiff := toInt_ofInt_iff t
  rw [hnano]
  split
  · rename_i h0
    rw [h0] at hiff
    refine iff_of_false (fun h => hzero h.symm) ?_
    rintro (h | ⟨hne, hrange⟩)
    · exact hzero h
    · exact hne (hiff.mpr hrange).symm
  · rename_i h0
    rw [hiff]
    refine ⟨fun hrange => Or.inr ⟨?_, hrange⟩, fun h => (h.resolve_left hzero).2⟩
    rintro rfl
    exact h0 rfl

theorem replicaN_survives (v : Int64) :
    Int64.ofNat v.toUInt64.toUInt32.toNat = v ↔ 0 ≤ v.toInt ∧ v.toInt < 2 ^ 32 := by
  have hv := v.toBitVec.toInt_eq_toNat_cond
  have hnat : v.toBitVec.toNat = v.toUInt64.toNat := rfl
  have hbound := v.toUInt64.toNat_lt
  rw [Int64.toInt_toBitVec, hnat] at hv
  have hcut : (Int64.ofNat v.toUInt64.toUInt32.toNat).toInt = (v.toUInt64.toNat % 2 ^ 32 : ℕ) := by
    rw [UInt64.toNat_toUInt32]
    exact Int64.toInt_ofNat_of_lt (by omega)
  rw [← Int64.toInt_inj, hcut]
  split at hv <;> omega

theorem privilege_survives (v : Int64) :
    v.toInt32.toInt64 = v ↔ -2 ^ 31 ≤ v.toInt ∧ v.toInt < 2 ^ 31 := by
  constructor
  · intro h
    have hlt := v.toInt32.toInt_lt
    have hle := v.toInt32.le_toInt
    rw [← h, Int32.toInt_toInt64]
    omega
  · intro h
    apply Int64.toInt_inj.mp
    rw [Int32.toInt_toInt64, Int64.toInt_toInt32]
    exact Int.bmod_eq_of_le (by omega) (by omega)

/-! ## The round trip -/

theorem map_map_eq_self_iff {α β : Type} {f : α → β} {g : β → α} {l : List α} :
    (l.map f).map g = l ↔ ∀ x ∈ l, g (f x) = x := by
  rw [map_map]
  conv_lhs => rhs; rw [← map_id l]
  exact map_inj_left

theorem NodeInfo.unmarshal_marshal (ni : NodeInfo) : NodeInfo.unmarshal ni.marshal = ni := rfl

theorem ShardInfo.unmarshal_marshal (si : ShardInfo) : ShardInfo.unmarshal si.marshal = si := by
  have howners : (si.owners.map ShardOwner.marshal).map ShardOwner.unmarshal = si.owners :=
    map_map_eq_self_iff.mpr (fun _ _ => rfl)
  rw [ShardInfo.marshal, ShardInfo.unmarshal, if_neg (by simp), howners]

theorem ShardGroupInfo.unmarshal_marshal_iff (sgi : ShardGroupInfo) :
    ShardGroupInfo.unmarshal sgi.marshal = sgi ↔ sgi.Survives := by
  obtain ⟨id, startTime, endTime, deletedAt, shards⟩ := sgi
  have hshards : (shards.map ShardInfo.marshal).map ShardInfo.unmarshal = shards :=
    map_map_eq_self_iff.mpr (fun si _ => si.unmarshal_marshal)
  simp only [ShardGroupInfo.marshal, ShardGroupInfo.unmarshal, hshards, ShardGroupInfo.mk.injEq,
    true_and, and_true, unmarshalTime_marshalTime]
  rfl

theorem RetentionPolicyInfo.unmarshal_marshal_iff (rpi : RetentionPolicyInfo) :
    RetentionPolicyInfo.unmarshal rpi.marshal = rpi ↔ rpi.Survives := by
  obtain ⟨name, replicaN, duration, shardGroupDuration, shardGroups, subscriptions⟩ := rpi
  simp only [RetentionPolicyInfo.marshal, RetentionPolicyInfo.unmarshal, RetentionPolicyInfo.mk.injEq,
    true_and, replicaN_survives, map_map_eq_self_iff, ShardGroupInfo.unmarshal_marshal_iff,
    map_nil, RetentionPolicyInfo.Survives]
  constructor
  · rintro ⟨⟨hlow, hhigh⟩, hgroups, hsubs⟩
    exact ⟨hsubs.symm, hlow, hhigh, hgroups⟩
  · rintro ⟨hsubs, hlow, hhigh, hgroups⟩
    exact ⟨⟨hlow, hhigh⟩, hgroups, hsubs.symm⟩

theorem DatabaseInfo.unmarshal_marshal_iff (di : DatabaseInfo) :
    DatabaseInfo.unmarshal di.marshal = di ↔ ∀ rpi ∈ di.retentionPolicies, rpi.Survives := by
  obtain ⟨name, defaultRetentionPolicy, retentionPolicies, continuousQueries⟩ := di
  have hqueries : (continuousQueries.map ContinuousQueryInfo.marshal).map
      ContinuousQueryInfo.unmarshal = continuousQueries := map_map_eq_self_iff.mpr (fun _ _ => rfl)
  simp only [DatabaseInfo.marshal, DatabaseInfo.unmarshal, hqueries, DatabaseInfo.mk.injEq, true_and,
    and_true, map_map_eq_self_iff, RetentionPolicyInfo.unmarshal_marshal_iff]

section

variable {order : List (String × Int64) → List (String × Int64)}

/-- The order of the iteration does not matter: no name occurs twice. -/
theorem UserInfo.unmarshal_marshal_iff (horder : ∀ l, (order l).Perm l) (ui : UserInfo) :
    UserInfo.unmarshal (ui.marshal order) = ui ↔ ui.Survives := by
  obtain ⟨name, hash, admin, ⟨entries, hasc⟩⟩ := ui
  have hentries : ofList Prod.fst (((order entries).map
      (fun e => (⟨e.1, e.2.toInt32⟩ : Pb.UserPrivilege))).map
        (fun p => (p.database, p.privilege.toInt64))) =
      entries.map (fun e => (e.1, e.2.toInt32.toInt64)) := by
    rw [map_map]
    refine ofList_of_perm ?_ ((horder entries).map _)
    exact pairwise_map.mpr hasc
  simp only [UserInfo.marshal, UserInfo.unmarshal, hentries, UserInfo.mk.injEq, true_and,
    Privileges.mk.injEq, UserInfo.Survives]
  conv_lhs => rhs; rw [← map_id entries]
  rw [map_inj_left]
  refine forall₂_congr (fun e _ => ?_)
  rw [← privilege_survives]
  exact ⟨fun h => congrArg Prod.snd h, fun h => Prod.ext rfl h⟩

/-- **What survives**, by the condition on the metadata. -/
theorem Data.unmarshal_marshal_iff (order : List (String × Int64) → List (String × Int64))
    (horder : ∀ l, (order l).Perm l) (d : Data) :
    Data.unmarshal (d.marshal order) = d ↔ d.Survives := by
  obtain ⟨term, index, clusterID, nodes, databases, users, maxNodeID, maxShardGroupID, maxShardID⟩ := d
  have hnodes : (nodes.map NodeInfo.marshal).map NodeInfo.unmarshal = nodes :=
    map_map_eq_self_iff.mpr (fun _ _ => rfl)
  simp only [Data.marshal, Data.unmarshal, hnodes, Data.mk.injEq, true_and, and_true,
    map_map_eq_self_iff, DatabaseInfo.unmarshal_marshal_iff, UserInfo.unmarshal_marshal_iff horder]
  exact ⟨fun h => ⟨h.1, h.2⟩, fun h => ⟨h.policies, h.users⟩⟩

end

end AndyEnv.Meta
