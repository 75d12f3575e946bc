import AndyEnv.Meta.Operations

/-!
# Runs that keep the metadata marshalable

An operation is safe if it makes no subscription, and the numbers and times that
it writes survive. All metadata that safe operations build is the same after
`marshal` and `unmarshal`.
-/

namespace AndyEnv.Meta

open List

/-! ## Changes of a list -/

theorem forall_of_changeFirst {α : Type} {P : α → Prop} {p : α → Bool} {e : MetaError}
    {f : α → Except MetaError (List α)} {l l' : List α}
    (hf : ∀ x, P x → ∀ ys, f x = .ok ys → ∀ y ∈ ys, P y) (hl : ∀ x ∈ l, P x)
    (h : changeFirst p e f l = .ok l') : ∀ y ∈ l', P y := by
  obtain ⟨pre, x, post, ys, rfl, -, -, hys, rfl⟩ := split_of_changeFirst h
  rw [forall_mem_append, forall_mem_cons] at hl
  exact forall_mem_append.mpr ⟨forall_mem_append.mpr ⟨hl.1, hf x hl.2.1 ys hys⟩, hl.2.2⟩

theorem Data.forall_of_changeDatabase {d d' : Data} {P : DatabaseInfo → Prop} {name : String}
    {f : DatabaseInfo → Except MetaError (List DatabaseInfo)} (h : ∀ di ∈ d.databases, P di)
    (hf : ∀ di, d.database name = some di → P di → ∀ dis, f di = .ok dis → ∀ di' ∈ dis, P di')
    (hd : d.changeDatabase name f = .ok d') : ∀ di ∈ d'.databases, P di := by
  obtain ⟨pre, di, post, dis, hsplit, hpre, hname, hdis, rfl⟩ := split_of_changeDatabase hd
  have hfound : d.database name = some di := by
    rw [database, hsplit]
    exact find?_eq_of_split hpre hname
  rw [hsplit, forall_mem_append, forall_mem_cons] at h
  exact forall_mem_append.mpr ⟨forall_mem_append.mpr ⟨h.1, hf di hfound h.2.1 dis hdis⟩, h.2.2⟩

def DatabaseInfo.Survives (di : DatabaseInfo) : Prop := ∀ rpi ∈ di.retentionPolicies, rpi.Survives

namespace Data.Survives

variable {d d' : Data} (h : d.Survives)
include h

theorem changeDatabase {name : String} {f : DatabaseInfo → Except MetaError (List DatabaseInfo)}
    (hf : ∀ di, di.Survives → ∀ dis, f di = .ok dis → ∀ di' ∈ dis, di'.Survives)
    (hd : d.changeDatabase name f = .ok d') : d'.Survives := by
  refine ⟨forall_of_changeDatabase h.policies (fun di _ => hf di) hd, ?_⟩
  rw [users_changeDatabase hd]
  exact h.users

theorem changePolicy {database name : String} {missing : MetaError}
    {f : DatabaseInfo → RetentionPolicyInfo → Except MetaError (List RetentionPolicyInfo)}
    (hf : ∀ di rpi, rpi.Survives → ∀ rpis, f di rpi = .ok rpis → ∀ rpi' ∈ rpis, rpi'.Survives)
    (hd : d.changePolicy database name missing f = .ok d') : d'.Survives := by
  refine h.changeDatabase (fun di hdi dis hdis => ?_) hd
  obtain ⟨rps, hchange, rfl⟩ := except_map_eq_ok.mp hdis
  rw [forall_mem_singleton]
  exact forall_of_changeFirst (hf di) hdi hchange

theorem changeUser {name : String} {f : UserInfo → List UserInfo}
    (hf : ∀ ui, ui.Survives → ∀ ui' ∈ f ui, ui'.Survives) (hd : d.changeUser name f = .ok d') :
    d'.Survives := by
  obtain ⟨users, hchange, rfl⟩ := except_map_eq_ok.mp hd
  refine ⟨h.policies, forall_of_changeFirst (fun ui hui uis huis => ?_) h.users hchange⟩
  rw [← Except.ok.inj huis]
  exact hf ui hui

end Data.Survives

/-! ## Safe operations -/

/-- The operation makes no subscription, and what it writes survives. -/
def Op.Safe (d : Data) : Op → Prop
  | .createRetentionPolicy _ rpi => rpi.replicaN.toInt < 2 ^ 32
  | .updateRetentionPolicy _ _ rpu => ∀ n ∈ rpu.replicaN, 0 ≤ n.toInt ∧ n.toInt < 2 ^ 32
  | .createShardGroup database policy timestamp =>
    ∀ di ∈ d.databases, di.name = database → ∀ rpi ∈ di.retentionPolicies, rpi.name = policy →
      (d.newShardGroup rpi timestamp).Survives
  | .deleteShardGroup now _ _ _ => TimeSurvives now
  | .createSubscription _ _ _ _ _ => False
  | .setPrivilege _ _ p => -2 ^ 31 ≤ p.toInt ∧ p.toInt < 2 ^ 31
  | _ => True

namespace Data.Survives

variable {d d' : Data} {sort : List ShardGroupInfo → List ShardGroupInfo}

theorem deleteNode (h : d.Survives) {id : UInt64} {force : Bool}
    (hd : d.deleteNode id force = .ok d') : d'.Survives := by
  unfold Data.deleteNode at hd
  split_ifs at hd
  obtain rfl := Except.ok.inj hd
  refine ⟨forall_mem_map.mpr (fun di hdi => forall_mem_map.mpr (fun rpi hrpi => ?_)), h.users⟩
  -- the owners are no part of the condition
  obtain ⟨hsubs, hlow, hhigh, hgroups⟩ := h.policies di hdi rpi hrpi
  exact ⟨hsubs, hlow, hhigh, forall_mem_map.mpr hgroups⟩

theorem createRetentionPolicy (h : d.Survives) {database : String} {rpi : RetentionPolicyInfo}
    (hsafe : rpi.replicaN.toInt < 2 ^ 32) (hd : d.createRetentionPolicy database rpi = .ok d') :
    d'.Survives := by
  unfold Data.createRetentionPolicy at hd
  split_ifs at hd with _ hreplica
  refine h.changeDatabase (fun di hdi dis hdis => ?_) hd
  split_ifs at hdis
  rw [← Except.ok.inj hdis, forall_mem_singleton]
  exact forall_mem_append.mpr ⟨hdi, forall_mem_singleton.mpr ⟨rfl, by dsimp only; omega, hsafe, nofun⟩⟩

variable {database name : String}

section

variable (h : d.Survives)
include h

theorem updateRetentionPolicy {rpu : RetentionPolicyUpdate}
    (hsafe : ∀ n ∈ rpu.replicaN, 0 ≤ n.toInt ∧ n.toInt < 2 ^ 32)
    (hd : d.updateRetentionPolicy database name rpu = .ok d') : d'.Survives := by
  refine h.changePolicy (fun di rpi hrpi rpis hrpis => ?_) hd
  split_ifs at hrpis
  rw [← Except.ok.inj hrpis, forall_mem_singleton]
  obtain ⟨hsubs, hlow, hhigh, hgroups⟩ := hrpi
  have hreplica : 0 ≤ (rpu.replicaN.getD rpi.replicaN).toInt ∧
      (rpu.replicaN.getD rpi.replicaN).toInt < 2 ^ 32 := by
    cases hn : rpu.replicaN with
    | none => exact ⟨hlow, hhigh⟩
    | some n => exact hsafe n hn
  exact ⟨hsubs, hreplica.1, hreplica.2, hgroups⟩

theorem createShardGroup (hsort : SortsGroups sort) {policy : String}
    {timestamp : Time} (hsafe : (Op.createShardGroup database policy timestamp).Safe d)
    (hd : d.createShardGroup sort database policy timestamp = .ok d') : d'.Survives := by
  obtain ⟨pre, di, post, preR, rpi, postR, hsplit, hsplitR, hrpi, -, -, -, rfl⟩ :=
    split_of_createShardGroup hd
  obtain ⟨di₀, hdi₀, hdb, hrpi₀, hrp⟩ := exists_of_retentionPolicy hrpi
  have hall : ∀ rpi ∈ d.policies, rpi.Survives := fun rpi hrpi =>
    (mem_policies.mp hrpi).elim (fun di hdi => h.policies di hdi.1 rpi hdi.2)
  refine ⟨fun di' hdi' rpi' hrpi' => ?_, h.users⟩
  refine forall_policies_withPolicy hsplit hsplitR hall (fun _ hsurvives => ?_) rpi'
    (mem_policies.mpr ⟨di', hdi', hrpi'⟩)
  obtain ⟨hsubs, hlow, hhigh, hgroups⟩ := hsurvives
  refine ⟨hsubs, hlow, hhigh, fun sgi hsgi => ?_⟩
  rcases mem_append.mp ((hsort.perm _).mem_iff.mp hsgi) with hsgi | hsgi
  · exact hgroups sgi hsgi
  · rw [mem_singleton.mp hsgi]
    exact hsafe di₀ hdi₀ hdb rpi hrpi₀ hrp

theorem dropRetentionPolicy (hd : d.dropRetentionPolicy database name = .ok d') : d'.Survives := by
  refine h.changeDatabase (fun di hdi dis hdis => ?_) hd
  split_ifs at hdis
  obtain ⟨rps, hremove, rfl⟩ := except_map_eq_ok.mp hdis
  rw [forall_mem_singleton]
  refine forall_of_changeFirst (fun _ _ ys hys => ?_) hdi hremove
  rw [← Except.ok.inj hys]
  exact forall_mem_nil _

theorem dropContinuousQuery (hd : d.dropContinuousQuery database name = .ok d') : d'.Survives := by
  refine h.changeDatabase (fun di hdi dis hdis => ?_) hd
  obtain ⟨cqs, -, rfl⟩ := except_map_eq_ok.mp hdis
  rwa [forall_mem_singleton]

theorem deleteShardGroup {now : Time} {policy : String} {id : UInt64}
    (hnow : TimeSurvives now) (hd : d.deleteShardGroup now database policy id = .ok d') :
    d'.Survives := by
  refine h.changePolicy (fun _ rpi hrpi rpis hrpis => ?_) hd
  obtain ⟨groups, hchange, rfl⟩ := except_map_eq_ok.mp hrpis
  rw [forall_mem_singleton]
  obtain ⟨hsubs, hlow, hhigh, hgroups⟩ := hrpi
  refine ⟨hsubs, hlow, hhigh, forall_of_changeFirst (fun sgi hsgi sgis hsgis => ?_) hgroups hchange⟩
  rw [← Except.ok.inj hsgis, forall_mem_singleton]
  exact ⟨hsgi.1, hsgi.2.1, hnow⟩

/-- A policy that survives has no subscription to drop. -/
theorem dropSubscription {rp : String}
    (hd : d.dropSubscription database rp name = .ok d') : d'.Survives := by
  refine h.changePolicy (fun _ rpi hrpi rpis hrpis => ?_) hd
  obtain ⟨subs, hremove, rfl⟩ := except_map_eq_ok.mp hrpis
  rw [hrpi.1] at hremove
  cases hremove

theorem setPrivilege {p : Int64}
    (hp : -2 ^ 31 ≤ p.toInt ∧ p.toInt < 2 ^ 31) (hd : d.setPrivilege name database p = .ok d') :
    d'.Survives := by
  refine h.changeUser (fun ui hui ui' hui' => ?_) hd
  obtain rfl := mem_singleton.mp hui'
  intro e he
  rcases (Keyed.mem_upsert ui.privileges.ascending).mp he with rfl | ⟨he, -⟩
  · exact hp
  · exact hui e he

end

/-- **A safe operation keeps the metadata marshalable.** -/
theorem apply (hsort : SortsGroups sort) {op : Op} (h : d.Survives) (hsafe : op.Safe d)
    (hd : d.apply sort op = .ok d') : d'.Survives := by
  cases op with
  | createNode host =>
    simp only [Data.apply, Data.createNode] at hd
    split_ifs at hd
    obtain rfl := Except.ok.inj hd
    exact ⟨h.policies, h.users⟩
  | deleteNode id force => exact h.deleteNode hd
  | createDatabase name =>
    simp only [Data.apply, Data.createDatabase] at hd
    split_ifs at hd
    obtain rfl := Except.ok.inj hd
    exact ⟨forall_mem_append.mpr ⟨h.policies, forall_mem_singleton.mpr (forall_mem_nil _)⟩, h.users⟩
  | dropDatabase name =>
    refine h.changeDatabase (fun di _ dis hdis => ?_) hd
    rw [← Except.ok.inj hdis]
    exact forall_mem_nil _
  | createRetentionPolicy database rpi => exact h.createRetentionPolicy hsafe hd
  | dropRetentionPolicy database name => exact h.dropRetentionPolicy hd
  | updateRetentionPolicy database name rpu => exact h.updateRetentionPolicy hsafe hd
  | setDefaultRetentionPolicy _ _ | createContinuousQuery _ _ _ =>
    refine h.changeDatabase (fun di hdi dis hdis => ?_) hd
    split_ifs at hdis
    rwa [← Except.ok.inj hdis, forall_mem_singleton]
  | createShardGroup database policy timestamp => exact h.createShardGroup hsort hsafe hd
  | deleteShardGroup now database policy id => exact h.deleteShardGroup hsafe hd
  | dropContinuousQuery database name => exact h.dropContinuousQuery hd
  | createSubscription database rp name mode destinations => exact absurd hsafe id
  | dropSubscription database rp name => exact h.dropSubscription hd
  | createUser name hash admin =>
    simp only [Data.apply, Data.createUser] at hd
    split_ifs at hd
    obtain rfl := Except.ok.inj hd
    exact ⟨h.policies, forall_mem_append.mpr ⟨h.users, forall_mem_singleton.mpr (forall_mem_nil _)⟩⟩
  | dropUser name => exact h.changeUser (fun _ _ _ hui' => absurd hui' not_mem_nil) hd
  | setPrivilege name database p => exact h.setPrivilege hsafe hd
  | updateUser _ _ | setAdminPrivilege _ _ =>
    exact h.changeUser (fun ui hui ui' hui' => by rw [mem_singleton.mp hui']; exact hui) hd
  | setPosition _ _ | setClusterID _ =>
    obtain rfl := Except.ok.inj hd
    exact ⟨h.policies, h.users⟩

end Data.Survives

/-- **What survives.** Metadata is the same after `marshal` and `unmarshal` exactly if
no policy has a subscription, the numbers fit, and no time but the zero time is
written as 0; all metadata that safe operations build is so. -/
theorem metadata_survives_iff (sort : List ShardGroupInfo → List ShardGroupInfo)
    (hsort : SortsGroups sort) (order : List (String × Int64) → List (String × Int64))
    (horder : ∀ l, (order l).Perm l) : (∀ d, Data.unmarshal (d.marshal order) = d ↔ d.Survives) ∧
      ∀ d, (metaSystem sort).Reaches (fun d op => op.Safe d) d →
        Data.unmarshal (d.marshal order) = d := by
  have hiff := Data.unmarshal_marshal_iff order horder
  refine ⟨hiff, fun d hd => (hiff d).mpr ?_⟩
  refine hd.invariant (I := Data.Survives) (fun d hd => ?_)
    (fun d op d' hd hsafe hstep => hd.apply hsort hsafe hstep)
  rw [show d = Data.empty from hd]
  exact ⟨nofun, nofun⟩

/-- A database with one policy. -/
theorem metadata_survives_policy : ∃ d, (metaSystem sortByStart).Reachable d ∧ d.databases ≠ [] ∧
    Data.unmarshal (d.marshal id) = d := by
  refine ⟨_, reachable_of_apply [.createDatabase "db",
    .createRetentionPolicy "db" ⟨"rp", 1, 0, 0, [], []⟩] rfl, cons_ne_nil _ _, ?_⟩
  refine (metadata_survives_iff sortByStart sortsGroups_sortByStart id (fun _ => List.Perm.refl _)).2 _ ?_
  exact .step (l := .createRetentionPolicy "db" ⟨"rp", 1, 0, 0, [], []⟩)
    (.step (l := .createDatabase "db") (.init rfl) trivial rfl)
    (show (1 : Int64).toInt < 2 ^ 32 by decide) rfl

/-- A subscription is lost; so is the start of the shard group of the hour that
begins in 1970, and a number of replicas of 2 to the 32. -/
theorem metadata_not_survives :
    (∃ d, (metaSystem sortByStart).Reachable d ∧ Data.unmarshal (d.marshal id) ≠ d ∧
      ∃ di ∈ d.databases, ∃ rpi ∈ di.retentionPolicies, rpi.subscriptions ≠ []) ∧
    (∃ d, (metaSystem sortByStart).Reachable d ∧ Data.unmarshal (d.marshal id) ≠ d ∧
      ∃ di ∈ d.databases, ∃ rpi ∈ di.retentionPolicies, ∃ sgi ∈ rpi.shardGroups, sgi.startTime = 0) ∧
    (∃ d, (metaSystem sortByStart).Reachable d ∧ Data.unmarshal (d.marshal id) ≠ d ∧
      ∃ di ∈ d.databases, ∃ rpi ∈ di.retentionPolicies, rpi.replicaN = 4294967296) := by
  refine ⟨⟨_, reachable_of_apply [.createDatabase "db",
        .createRetentionPolicy "db" ⟨"rp", 1, 0, 0, [], []⟩,
        .createSubscription "db" "rp" "s" "ALL" ["h"]] rfl,
      by decide, _, mem_cons_self, _, mem_cons_self, cons_ne_nil _ _⟩,
    ⟨_, reachable_of_apply [.createNode "n", .createDatabase "db",
        .createRetentionPolicy "db" ⟨"rp", 1, hour, 0, [], []⟩, .createShardGroup "db" "rp" 1] rfl,
      by decide +kernel, _, mem_cons_self, _, mem_cons_self, _, mem_cons_self, ?_⟩,
    ⟨_, reachable_of_apply [.createDatabase "db",
        .createRetentionPolicy "db" ⟨"rp", 4294967296, 0, 0, [], []⟩] rfl,
      by decide, _, mem_cons_self, _, mem_cons_self, rfl⟩⟩
  decide +kernel

end AndyEnv.Meta
