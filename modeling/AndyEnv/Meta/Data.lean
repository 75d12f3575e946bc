import AndyEnv.Lib.Except
import AndyEnv.Lib.Keyed
import AndyEnv.Lib.Run
import Mathlib.Data.String.Basic

/-!
# The metadata of a cluster

Nodes, databases with their retention policies, shard groups and subscriptions,
and users, with the operations on them. A time is its number of nanoseconds
since 1970; the zero time is the first of January of the year 1. An operation
fails with an error of the package, or by a run-time panic.
-/

namespace AndyEnv.Meta

open Keyed

/-! ## Times -/

abbrev Time : Type := ℤ

/-- `time.Time{}`. -/
def zeroTime : Time := -62135596800000000000

def Time.isZero (t : Time) : Bool := t == zeroTime

/-- `Truncate`: down to a multiple of `d` since the zero time. -/
def Time.truncate (t : Time) (d : Int64) : Time :=
  if d.toInt ≤ 0 then t else t - (t - zeroTime) % d.toInt

def hour : Int64 := 3600000000000

/-! ## Data -/

structure NodeInfo : Type where
  id : UInt64
  host : String
deriving DecidableEq, Repr

structure ShardOwner : Type where
  nodeID : UInt64
deriving DecidableEq, Repr

structure ShardInfo : Type where
  id : UInt64
  owners : List ShardOwner
deriving DecidableEq, Repr

structure ShardGroupInfo : Type where
  id : UInt64
  startTime : Time
  endTime : Time
  deletedAt : Time
  shards : List ShardInfo
deriving DecidableEq, Repr

structure SubscriptionInfo : Type where
  name : String
  mode : String
  destinations : List String
deriving DecidableEq, Repr

structure RetentionPolicyInfo : Type where
  name : String
  replicaN : Int64
  duration : Int64
  shardGroupDuration : Int64
  shardGroups : List ShardGroupInfo
  subscriptions : List SubscriptionInfo
deriving DecidableEq, Repr

structure ContinuousQueryInfo : Type where
  name : String
  query : String
deriving DecidableEq, Repr

structure DatabaseInfo : Type where
  name : String
  defaultRetentionPolicy : String
  retentionPolicies : List RetentionPolicyInfo
  continuousQueries : List ContinuousQueryInfo
deriving DecidableEq, Repr

/-- A map from databases to privileges: its entries in the order of the names. -/
structure Privileges : Type where
  entries : List (String × Int64)
  ascending : Ascending Prod.fst entries
deriving DecidableEq

structure UserInfo : Type where
  name : String
  hash : String
  admin : Bool
  privileges : Privileges
deriving DecidableEq

structure Data : Type where
  term : UInt64
  index : UInt64
  clusterID : UInt64
  nodes : List NodeInfo
  databases : List DatabaseInfo
  users : List UserInfo
  maxNodeID : UInt64
  maxShardGroupID : UInt64
  maxShardID : UInt64
deriving DecidableEq

/-- `Data{}`. -/
def Data.empty : Data := ⟨0, 0, 0, [], [], [], 0, 0, 0⟩

inductive MetaError : Type
  | nodeExists
  | nodeNotFound
  | nodesRequired
  | nodeIDRequired
  | nodeUnableToDropFinalNode
  | databaseExists
  | databaseNotFound
  | databaseNameRequired
  | retentionPolicyExists
  | retentionPolicyDefault
  | retentionPolicyNotFound
  | retentionPolicyNameRequired
  | retentionPolicyNameExists
  | retentionPolicyDurationTooLow
  | replicationFactorTooLow
  | shardGroupExists
  | shardGroupNotFound
  | shardNotReplicated
  | continuousQueryExists
  | continuousQueryNotFound
  | subscriptionExists
  | subscriptionNotFound
  | userExists
  | userNotFound
  | usernameRequired
  /-- A nil pointer, or a slice of negative length. -/
  | runtime
deriving DecidableEq, Repr

/-- The first element with the property is changed, or removed; an error if there is
none. -/
def changeFirst {α : Type} (p : α → Bool) (e : MetaError) (f : α → Except MetaError (List α)) :
    List α → Except MetaError (List α)
  | [] => .error e
  | x :: xs =>
    if p x then (f x).map (· ++ xs) else (changeFirst p e f xs).map (x :: ·)

/-! ## Operations -/

namespace ShardGroupInfo

def contains (sgi : ShardGroupInfo) (timestamp : Time) : Bool :=
  decide (sgi.startTime ≤ timestamp) && decide (timestamp < sgi.endTime)

def deleted (sgi : ShardGroupInfo) : Bool := !Time.isZero sgi.deletedAt

end ShardGroupInfo

def ShardInfo.ownedBy (si : ShardInfo) (nodeID : UInt64) : Bool :=
  si.owners.any (fun so => so.nodeID == nodeID)

def RetentionPolicyInfo.shardGroupByTimestamp (rpi : RetentionPolicyInfo) (timestamp : Time) :
    Option ShardGroupInfo :=
  rpi.shardGroups.find? (fun sgi => sgi.contains timestamp && !sgi.deleted)

def DatabaseInfo.retentionPolicy (di : DatabaseInfo) (name : String) : Option RetentionPolicyInfo :=
  di.retentionPolicies.find? (fun rpi => rpi.name == name)

def shardGroupDuration (d : Int64) : Int64 :=
  if d ≥ 180 * 24 * hour ∨ d = 0 then 7 * 24 * hour
  else if d ≥ 2 * 24 * hour then 24 * hour
  else hour

structure RetentionPolicyUpdate : Type where
  name : Option String
  duration : Option Int64
  replicaN : Option Int64
deriving DecidableEq, Repr

namespace Data

def node (d : Data) (id : UInt64) : Option NodeInfo := d.nodes.find? (fun n => n.id == id)

def nodeByHost (d : Data) (host : String) : Option NodeInfo := d.nodes.find? (fun n => n.host == host)

def database (d : Data) (name : String) : Option DatabaseInfo :=
  d.databases.find? (fun di => di.name == name)

def user (d : Data) (name : String) : Option UserInfo := d.users.find? (fun ui => ui.name == name)

def changeDatabase (d : Data) (name : String)
    (f : DatabaseInfo → Except MetaError (List DatabaseInfo)) : Except MetaError Data :=
  (changeFirst (fun di => di.name == name) .databaseNotFound f d.databases).map
    (fun dbs => { d with databases := dbs })

def changePolicy (d : Data) (database name : String) (missing : MetaError)
    (f : DatabaseInfo → RetentionPolicyInfo → Except MetaError (List RetentionPolicyInfo)) :
    Except MetaError Data :=
  d.changeDatabase database (fun di =>
    (changeFirst (fun rpi => rpi.name == name) missing (f di) di.retentionPolicies).map
      (fun rps => [{ di with retentionPolicies := rps }]))

def changeUser (d : Data) (name : String) (f : UserInfo → List UserInfo) : Except MetaError Data :=
  (changeFirst (fun ui => ui.name == name) .userNotFound (fun ui => .ok (f ui)) d.users).map
    (fun users => { d with users := users })

def createNode (d : Data) (host : String) : Except MetaError Data :=
  if (d.nodeByHost host).isSome then .error .nodeExists
  else .ok { d with
    maxNodeID := d.maxNodeID + 1
    nodes := d.nodes ++ [⟨d.maxNodeID + 1, host⟩] }

/-- A policy that is not replicated has a shard on this node only. -/
def losesShard (d : Data) (id : UInt64) : Bool :=
  d.databases.any (fun di => di.retentionPolicies.any (fun rp => decide (rp.replicaN.toInt ≤ 1) &&
    rp.shardGroups.any (fun sg => sg.shards.any (fun s => s.ownedBy id && s.owners.length == 1))))

def removeOwner (id : UInt64) (di : DatabaseInfo) : DatabaseInfo :=
  { di with retentionPolicies := di.retentionPolicies.map (fun rp =>
      { rp with shardGroups := rp.shardGroups.map (fun sg =>
          { sg with shards := sg.shards.map (fun s =>
              { s with owners := s.owners.filter (fun o => o.nodeID != id) }) }) }) }

def deleteNode (d : Data) (id : UInt64) (force : Bool) : Except MetaError Data :=
  if id = 0 then .error .nodeIDRequired
  else if (d.node id).isNone then .error .nodeNotFound
  else if d.nodes.length = 1 then .error .nodeUnableToDropFinalNode
  else if !force && d.losesShard id then .error .shardNotReplicated
  else .ok { d with
    databases := d.databases.map (removeOwner id)
    nodes := d.nodes.filter (fun n => n.id != id) }

def createDatabase (d : Data) (name : String) : Except MetaError Data :=
  if name = "" then .error .databaseNameRequired
  else if (d.database name).isSome then .error .databaseExists
  else .ok { d with databases := d.databases ++ [⟨name, "", [], []⟩] }

def dropDatabase (d : Data) (name : String) : Except MetaError Data :=
  d.changeDatabase name (fun _ => .ok [])

def createRetentionPolicy (d : Data) (database : String) (rpi : RetentionPolicyInfo) :
    Except MetaError Data :=
  if rpi.name = "" then .error .retentionPolicyNameRequired
  else if rpi.replicaN.toInt < 1 then .error .replicationFactorTooLow
  else d.changeDatabase database (fun di =>
    if (di.retentionPolicy rpi.name).isSome then .error .retentionPolicyExists
    else .ok [{ di with retentionPolicies := di.retentionPolicies ++
      [⟨rpi.name, rpi.replicaN, rpi.duration, shardGroupDuration rpi.duration, [], []⟩] }])

def dropRetentionPolicy (d : Data) (database name : String) : Except MetaError Data :=
  d.changeDatabase database (fun di =>
    if di.defaultRetentionPolicy = name then .error .retentionPolicyDefault
    else (changeFirst (fun rpi => rpi.name == name) .retentionPolicyNotFound (fun _ => .ok [])
      di.retentionPolicies).map (fun rps => [{ di with retentionPolicies := rps }]))

def updatedPolicy (rpu : RetentionPolicyUpdate) (rpi : RetentionPolicyInfo) : RetentionPolicyInfo :=
  { rpi with
    name := rpu.name.getD rpi.name
    duration := rpu.duration.getD rpi.duration
    shardGroupDuration := (rpu.duration.map shardGroupDuration).getD rpi.shardGroupDuration
    replicaN := rpu.replicaN.getD rpi.replicaN }

def updateRetentionPolicy (d : Data) (database name : String) (rpu : RetentionPolicyUpdate) :
    Except MetaError Data :=
  d.changePolicy database name .retentionPolicyNotFound (fun di rpi =>
    if rpu.name.any (fun n => n != name && (di.retentionPolicy n).isSome) then
      .error .retentionPolicyNameExists
    else if rpu.duration.any (fun v => decide (v < hour) && v != 0) then
      .error .retentionPolicyDurationTooLow
    else .ok [updatedPolicy rpu rpi])

def setDefaultRetentionPolicy (d : Data) (database name : String) : Except MetaError Data :=
  d.changeDatabase database (fun di =>
    if (di.retentionPolicy name).isNone then .error .retentionPolicyNotFound
    else .ok [{ di with defaultRetentionPolicy := name }])

/-- One replica at least, and no more than there are nodes. -/
def replicas (d : Data) (rpi : RetentionPolicyInfo) : ℤ :=
  if rpi.replicaN = 0 then 1
  else if rpi.replicaN.toInt > d.nodes.length then d.nodes.length
  else rpi.replicaN.toInt

/-- The shards of a new group, with their owners by round robin. -/
def newShards (d : Data) (replicaN : ℕ) (shardN : ℕ) : List ShardInfo :=
  (List.range shardN).map (fun i =>
    ⟨d.maxShardID + 1 + UInt64.ofNat i, (List.range replicaN).map (fun j =>
      ⟨(d.nodes.getD (((d.index % UInt64.ofNat d.nodes.length).toNat + i * replicaN + j) %
        d.nodes.length) ⟨0, ""⟩).id⟩)⟩)

def newShardGroup (d : Data) (rpi : RetentionPolicyInfo) (timestamp : Time) : ShardGroupInfo :=
  ⟨d.maxShardGroupID + 1, timestamp.truncate rpi.shardGroupDuration,
    timestamp.truncate rpi.shardGroupDuration + rpi.shardGroupDuration.toInt, zeroTime,
    d.newShards (d.replicas rpi).toNat ((d.nodes.length : ℤ).tdiv (d.replicas rpi)).toNat⟩

/-- `RetentionPolicy`: an error if there is no such database. -/
def retentionPolicy (d : Data) (database name : String) :
    Except MetaError (Option RetentionPolicyInfo) :=
  match d.database database with
  | none => .error .databaseNotFound
  | some di => .ok (di.retentionPolicy name)

/-- `CreateShardGroup`, with the `sort.Sort` of the groups by their start. -/
def createShardGroup (sort : List ShardGroupInfo → List ShardGroupInfo) (d : Data)
    (database policy : String) (timestamp : Time) : Except MetaError Data := do
  if d.nodes = [] then throw .nodesRequired
  match ← d.retentionPolicy database policy with
  | none => throw .retentionPolicyNotFound
  | some rpi =>
    let shardN := (d.nodes.length : ℤ).tdiv (d.replicas rpi)
    if (rpi.shardGroupByTimestamp timestamp).isSome then throw .shardGroupExists
    if shardN < 0 then throw .runtime
    let d' ← d.changePolicy database policy .retentionPolicyNotFound (fun _ rpi =>
      .ok [{ rpi with shardGroups := sort (rpi.shardGroups ++ [d.newShardGroup rpi timestamp]) }])
    return { d' with
      maxShardGroupID := d.maxShardGroupID + 1
      maxShardID := d.maxShardID + UInt64.ofNat shardN.toNat }

def deleteShardGroup (d : Data) (now : Time) (database policy : String) (id : UInt64) :
    Except MetaError Data :=
  d.changePolicy database policy .retentionPolicyNotFound (fun _ rpi =>
    (changeFirst (fun sgi => sgi.id == id) .shardGroupNotFound
      (fun sgi => .ok [{ sgi with deletedAt := now }]) rpi.shardGroups).map
        (fun groups => [{ rpi with shardGroups := groups }]))

def createContinuousQuery (d : Data) (database name query : String) : Except MetaError Data :=
  d.changeDatabase database (fun di =>
    if di.continuousQueries.any (fun cqi => cqi.name == name) then .error .continuousQueryExists
    else .ok [{ di with continuousQueries := di.continuousQueries ++ [⟨name, query⟩] }])

def dropContinuousQuery (d : Data) (database name : String) : Except MetaError Data :=
  d.changeDatabase database (fun di =>
    (changeFirst (fun cqi => cqi.name == name) .continuousQueryNotFound (fun _ => .ok [])
      di.continuousQueries).map (fun cqs => [{ di with continuousQueries := cqs }]))

def createSubscription (d : Data) (database rp name mode : String) (destinations : List String) :
    Except MetaError Data :=
  d.changePolicy database rp .retentionPolicyNotFound (fun _ rpi =>
    if rpi.subscriptions.any (fun si => si.name == name) then .error .subscriptionExists
    else .ok [{ rpi with subscriptions := rpi.subscriptions ++ [⟨name, mode, destinations⟩] }])

/-- `DropSubscription`, which does not ask whether there is such a policy. -/
def dropSubscription (d : Data) (database rp name : String) : Except MetaError Data :=
  d.changePolicy database rp .runtime (fun _ rpi =>
    (changeFirst (fun si => si.name == name) .subscriptionNotFound (fun _ => .ok [])
      rpi.subscriptions).map (fun subs => [{ rpi with subscriptions := subs }]))

def createUser (d : Data) (name hash : String) (admin : Bool) : Except MetaError Data :=
  if name = "" then .error .usernameRequired
  else if (d.user name).isSome then .error .userExists
  else .ok { d with users := d.users ++ [⟨name, hash, admin, ⟨[], ascending_nil⟩⟩] }

def dropUser (d : Data) (name : String) : Except MetaError Data := d.changeUser name (fun _ => [])

def updateUser (d : Data) (name hash : String) : Except MetaError Data :=
  d.changeUser name (fun ui => [{ ui with hash := hash }])

def setPrivilege (d : Data) (name database : String) (p : Int64) : Except MetaError Data :=
  d.changeUser name (fun ui => [{ ui with privileges :=
    ⟨upsert Prod.fst (database, p) ui.privileges.entries,
      ascending_upsert ui.privileges.ascending⟩ }])

def setAdminPrivilege (d : Data) (name : String) (admin : Bool) : Except MetaError Data :=
  d.changeUser name (fun ui => [{ ui with admin := admin }])

end Data

/-! ## Runs -/

/-- The operations, and the assignments of the store to the position in its log and
the id of the cluster. -/
inductive Op : Type
  | createNode (host : String)
  | deleteNode (id : UInt64) (force : Bool)
  | createDatabase (name : String)
  | dropDatabase (name : String)
  | createRetentionPolicy (database : String) (rpi : RetentionPolicyInfo)
  | dropRetentionPolicy (database name : String)
  | updateRetentionPolicy (database name : String) (rpu : RetentionPolicyUpdate)
  | setDefaultRetentionPolicy (database name : String)
  | createShardGroup (database policy : String) (timestamp : Time)
  | deleteShardGroup (now : Time) (database policy : String) (id : UInt64)
  | createContinuousQuery (database name query : String)
  | dropContinuousQuery (database name : String)
  | createSubscription (database rp name mode : String) (destinations : List String)
  | dropSubscription (database rp name : String)
  | createUser (name hash : String) (admin : Bool)
  | dropUser (name : String)
  | updateUser (name hash : String)
  | setPrivilege (name database : String) (p : Int64)
  | setAdminPrivilege (name : String) (admin : Bool)
  | setPosition (term index : UInt64)
  | setClusterID (id : UInt64)

def Data.apply (sort : List ShardGroupInfo → List ShardGroupInfo) (d : Data) : Op → Except MetaError Data
  | .createNode host => d.createNode host
  | .deleteNode id force => d.deleteNode id force
  | .createDatabase name => d.createDatabase name
  | .dropDatabase name => d.dropDatabase name
  | .createRetentionPolicy database rpi => d.createRetentionPolicy database rpi
  | .dropRetentionPolicy database name => d.dropRetentionPolicy database name
  | .updateRetentionPolicy database name rpu => d.updateRetentionPolicy database name rpu
  | .setDefaultRetentionPolicy database name => d.setDefaultRetentionPolicy database name
  | .createShardGroup database policy timestamp => d.createShardGroup sort database policy timestamp
  | .deleteShardGroup now database policy id => d.deleteShardGroup now database policy id
  | .createContinuousQuery database name query => d.createContinuousQuery database name query
  | .dropContinuousQuery database name => d.dropContinuousQuery database name
  | .createSubscription database rp name mode destinations =>
    d.createSubscription database rp name mode destinations
  | .dropSubscription database rp name => d.dropSubscription database rp name
  | .createUser name hash admin => d.createUser name hash admin
  | .dropUser name => d.dropUser name
  | .updateUser name hash => d.updateUser name hash
  | .setPrivilege name database p => d.setPrivilege name database p
  | .setAdminPrivilege name admin => d.setAdminPrivilege name admin
  | .setPosition term index => .ok { d with term := term, index := index }
  | .setClusterID id => .ok { d with clusterID := id }

/-- The metadata as the operations build it. A sort of the groups is a permutation,
in the order of the start times. -/
def metaSystem (sort : List ShardGroupInfo → List ShardGroupInfo) : System Data Op where
  init d := d = Data.empty
  step d op d' := d.apply sort op = .ok d'

theorem reachable_of_apply {sort : List ShardGroupInfo → List ShardGroupInfo} (ops : List Op) {d : Data}
    (h : ops.foldlM (Data.apply sort) Data.empty = .ok d) : (metaSystem sort).Reachable d := by
  induction ops using List.reverseRecOn generalizing d with
  | nil => exact .init (Except.ok.inj h).symm
  | append_singleton ops op ih =>
    rw [List.foldlM_append] at h
    obtain ⟨d', hops, h⟩ := except_bind_eq_ok.mp h
    exact .step (ih hops) trivial ((bind_pure _).symm.trans h)

/-- `sort.Sort` by the start times. -/
structure SortsGroups (sort : List ShardGroupInfo → List ShardGroupInfo) : Prop where
  perm : ∀ groups, (sort groups).Perm groups
  sorted : ∀ groups, (sort groups).Pairwise (fun a b => a.startTime ≤ b.startTime)

def sortByStart (groups : List ShardGroupInfo) : List ShardGroupInfo :=
  groups.insertionSort (fun a b => a.startTime ≤ b.startTime)

theorem sortsGroups_sortByStart : SortsGroups sortByStart where
  perm groups := List.perm_insertionSort _ groups
  sorted groups := by
    have htotal : Std.Total (fun a b : ShardGroupInfo => a.startTime ≤ b.startTime) :=
      ⟨fun a b => le_total a.startTime b.startTime⟩
    have htrans : IsTrans ShardGroupInfo (fun a b => a.startTime ≤ b.startTime) :=
      ⟨fun a b c hab hbc => le_trans hab hbc⟩
    exact List.pairwise_insertionSort _ groups

end AndyEnv.Meta
