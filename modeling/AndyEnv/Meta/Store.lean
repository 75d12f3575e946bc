import AndyEnv.Meta.Marshal

/-!
# Commands of the raft log

The store hands every entry of the raft log to `storeFSM.Apply`: a command changes
a copy of the metadata, the copy becomes the metadata unless there was an error, and
the term and the index of the entry are set in any case. A run-time panic ends the
process.

Of all that the handlers read, only the clock differs from node to node: deleting a
shard group sets the time of the deletion.
-/

namespace AndyEnv.Meta

/-! ## Commands -/

inductive Command : Type
  | removePeer (id : UInt64) (addr : String)
  | createNode (host : String) (rand : UInt64)
  | deleteNode (id : UInt64) (force : Bool)
  | createDatabase (name : String)
  | dropDatabase (name : String)
  | createRetentionPolicy (database name : String) (replicaN : UInt32) (duration : Int64)
      (shardGroupDuration : Int64)
  | dropRetentionPolicy (database name : String)
  | setDefaultRetentionPolicy (database name : String)
  | updateRetentionPolicy (database name : String) (newName : Option String)
      (duration : Option Int64) (replicaN : Option UInt32)
  | createShardGroup (database policy : String) (timestamp : Int64)
  | deleteShardGroup (database policy : String) (shardGroupID : UInt64)
  | createContinuousQuery (database name query : String)
  | dropContinuousQuery (database name : String)
  | createSubscription (database retentionPolicy name mode : String) (destinations : List String)
  | dropSubscription (database retentionPolicy name : String)
  | createUser (name hash : String) (admin : Bool)
  | dropUser (name : String)
  | updateUser (name hash : String)
  | setPrivilege (username database : String) (privilege : Int32)
  | setAdminPrivilege (username : String) (admin : Bool)
  | setData (data : Pb.Data)
  | updateNode (id : UInt64) (host : String)

namespace Data

/-- `applyCreateNodeCommand`: the cluster takes the random number of the command that
makes its first node. -/
def applyCreateNodeCommand (d : Data) (host : String) (rand : UInt64) : Except MetaError Data :=
  (d.createNode host).map (fun other =>
    if other.clusterID = 0 then { other with clusterID := rand } else other)

def applyUpdateNodeCommand (d : Data) (id : UInt64) (host : String) : Except MetaError Data :=
  (changeFirst (fun n => n.id == id) .nodeNotFound (fun n => .ok [{ n with host := host }]) d.nodes).map
    (fun nodes => { d with nodes := nodes })

def applyCommand (sort : List ShardGroupInfo → List ShardGroupInfo) (now : Time) (d : Data) :
    Command → Except MetaError Data
  -- the peers are no part of the metadata
  | .removePeer _ _ => .ok d
  | .createNode host rand => d.applyCreateNodeCommand host rand
  | .deleteNode id force => d.deleteNode id force
  | .createDatabase name => d.createDatabase name
  | .dropDatabase name => d.dropDatabase name
  | .createRetentionPolicy database name replicaN duration shardGroupDuration =>
    d.createRetentionPolicy database
      ⟨name, Int64.ofNat replicaN.toNat, duration, shardGroupDuration, [], []⟩
  | .dropRetentionPolicy database name => d.dropRetentionPolicy database name
  | .setDefaultRetentionPolicy database name => d.setDefaultRetentionPolicy database name
  | .updateRetentionPolicy database name newName duration replicaN =>
    d.updateRetentionPolicy database name
      ⟨newName, duration, replicaN.map (fun n => Int64.ofNat n.toNat)⟩
  | .createShardGroup database policy timestamp =>
    d.createShardGroup sort database policy timestamp.toInt
  | .deleteShardGroup database policy shardGroupID =>
    d.deleteShardGroup now database policy shardGroupID
  | .createContinuousQuery database name query => d.createContinuousQuery database name query
  | .dropContinuousQuery database name => d.dropContinuousQuery database name
  | .createSubscription database retentionPolicy name mode destinations =>
    d.createSubscription database retentionPolicy name mode destinations
  | .dropSubscription database retentionPolicy name =>
    d.dropSubscription database retentionPolicy name
  | .createUser name hash admin => d.createUser name hash admin
  | .dropUser name => d.dropUser name
  | .updateUser name hash => d.updateUser name hash
  | .setPrivilege username database privilege => d.setPrivilege username database privilege.toInt64
  | .setAdminPrivilege username admin => d.setAdminPrivilege username admin
  | .setData data => .ok (Data.unmarshal data)
  | .updateNode id host => d.applyUpdateNodeCommand id host

end Data

/-! ## The log -/

/-- `raft.Log`. -/
structure Entry : Type where
  term : UInt64
  index : UInt64
  command : Command

namespace Data

/-- Copy term and index to new metadata. -/
def setPosition (d : Data) (e : Entry) : Data := { d with term := e.term, index := e.index }

def afterCommand (d : Data) (e : Entry) : Except MetaError Data → Option Data
  | .ok other => some (other.setPosition e)
  | .error .runtime => none
  | .error _ => some (d.setPosition e)

/-- `storeFSM.Apply`. -/
def applyLog (sort : List ShardGroupInfo → List ShardGroupInfo) (now : Time) (d : Data) (e : Entry) :
    Option Data :=
  d.afterCommand e (d.applyCommand sort now e.command)

/-- The entries one after the other; the clock of the node tells the time of each. -/
def applyLogs (sort : List ShardGroupInfo → List ShardGroupInfo) :
    (clock : ℕ → Time) → Data → List Entry → Option Data
  | _, d, [] => some d
  | clock, d, e :: es =>
    (d.applyLog sort (clock 0) e).bind (fun d' => applyLogs sort (fun n => clock (n + 1)) d' es)

def shardGroup (d : Data) (database policy : String) (id : UInt64) : Option ShardGroupInfo := do
  let di ← d.database database
  let rpi ← di.retentionPolicy policy
  rpi.shardGroups.find? (fun sgi => sgi.id == id)

end Data

/-- The handler calls `time.Now`. -/
def Command.readsClock (d : Data) : Command → Bool
  | .deleteShardGroup database policy shardGroupID => (d.shardGroup database policy shardGroupID).isSome
  | _ => false

/-! ## Changes of a list that differ -/

variable {α : Type} {p : α → Bool} {e : MetaError} {f : α → Except MetaError (List α)} {l : List α}

theorem except_map_inj {β : Type} {F : α → β} (hF : F.Injective) {x y : Except MetaError α} :
    x.map F = y.map F ↔ x = y := by
  constructor
  · intro h
    cases x <;> cases y <;>
      simp only [Except.map, Except.ok.injEq, Except.error.injEq, reduceCtorEq] at h ⊢
    · exact h
    · exact hF h
  · rintro rfl
    rfl

/-- Two changes agree exactly if they agree on the element that is changed. -/
theorem changeFirst_eq_iff {g : α → Except MetaError (List α)} :
    changeFirst p e f l = changeFirst p e g l ↔ ∀ x, l.find? p = some x → f x = g x := by
  induction l with
  | nil => simp [changeFirst]
  | cons x xs ih =>
    by_cases hp : p x = true
    · simp only [changeFirst, if_pos hp, except_map_inj (List.append_left_injective xs),
        List.find?_cons_of_pos hp, Option.some.injEq, forall_eq']
    · simp only [changeFirst, if_neg hp, except_map_inj List.cons_injective, ih,
        List.find?_cons_of_neg hp]

theorem changeFirst_ok {ys : List α} {x : α} (hx : l.find? p = some x)
    (hf : f x = .ok ys) : ∃ l', changeFirst p e f l = .ok l' := by
  induction l with
  | nil => cases hx
  | cons y l ih =>
    by_cases hp : p y = true
    · rw [List.find?_cons_of_pos hp] at hx
      obtain rfl := Option.some.inj hx
      exact ⟨ys ++ l, by rw [changeFirst, if_pos hp, hf]; rfl⟩
    · rw [List.find?_cons_of_neg hp] at hx
      obtain ⟨l', hl'⟩ := ih hx
      exact ⟨y :: l', by rw [changeFirst, if_neg hp, hl']; rfl⟩

end AndyEnv.Meta
