import AndyEnv.Meta.Store

/-!
# What the operations change

An operation that succeeds changes the first element with a name, and the rest of
the metadata stays as it is.
-/

namespace AndyEnv.Meta

open List

/-! ## Lists -/

section

variable {α : Type} {l pre post : List α} {q : α → Bool} {x : α}

theorem split_of_changeFirst {p : α → Bool} {e : MetaError}
    {f : α → Except MetaError (List α)} {l' : List α} (h : changeFirst p e f l = .ok l') :
    ∃ pre x post ys, l = pre ++ x :: post ∧ (∀ y ∈ pre, p y = false) ∧ p x = true ∧ f x = .ok ys ∧
      l' = pre ++ ys ++ post := by
  induction l generalizing l' with
  | nil => cases h
  | cons x l ih =>
    rw [changeFirst] at h
    by_cases hp : p x = true
    · rw [if_pos hp] at h
      obtain ⟨ys, hys, rfl⟩ := except_map_eq_ok.mp h
      exact ⟨[], x, l, ys, rfl, fun y hy => absurd hy not_mem_nil, hp, hys, rfl⟩
    rw [if_neg hp] at h
    obtain ⟨l'', hl'', rfl⟩ := except_map_eq_ok.mp h
    obtain ⟨pre, y, post, ys, rfl, hpre, hy, hys, rfl⟩ := ih hl''
    refine ⟨x :: pre, y, post, ys, rfl, ?_, hy, hys, rfl⟩
    rw [forall_mem_cons]
    exact ⟨Bool.eq_false_of_not_eq_true hp, hpre⟩

theorem mem_append_cons_of_mem {y : α} (h : y ∈ pre ++ post) : y ∈ pre ++ x :: post := by
  rcases mem_append.mp h with h | h
  · exact mem_append_left _ h
  · exact mem_append_right _ (mem_cons_of_mem _ h)

theorem find?_eq_none_of_false (h : ∀ y ∈ l, q y = false) : l.find? q = none := by
  rw [List.find?_eq_none]
  intro y hy
  rw [h y hy]
  exact Bool.false_ne_true

theorem find?_of_split {ys : List α} (hx : q x = false) (hys : ∀ y ∈ ys, q y = false) :
    (pre ++ ys ++ post).find? q = (pre ++ x :: post).find? q := by
  rw [append_assoc, List.find?_append, List.find?_append, List.find?_append,
    find?_eq_none_of_false hys, List.find?_cons_of_neg (by rw [hx]; exact Bool.false_ne_true),
    Option.none_or]

theorem find?_eq_of_split {key : α → String} {name : String}
    (hpre : ∀ y ∈ pre, key y ≠ name) (hx : key x = name) :
    (pre ++ x :: post).find? (fun y => key y == name) = some x := by
  rw [List.find?_append, find?_eq_none_of_false (fun y hy => beq_false_of_ne (hpre y hy)),
    Option.none_or, List.find?_cons_of_pos (p := fun y => key y == name) (beq_iff_eq.mpr hx)]

end

namespace Data

variable {sort : List ShardGroupInfo → List ShardGroupInfo} {d d' : Data} {op : Op}

def removeOwnerGroup (id : UInt64) (sg : ShardGroupInfo) : ShardGroupInfo :=
  { sg with shards := sg.shards.map (fun s => { s with owners := s.owners.filter (fun o => o.nodeID != id) }) }

/-! ## All operations -/

def withDatabase (d : Data) (pre : List DatabaseInfo) (di : DatabaseInfo) (post : List DatabaseInfo) :
    Data :=
  { d with databases := pre ++ [di] ++ post }

def withPolicy (d : Data) (pre : List DatabaseInfo) (di : DatabaseInfo) (post : List DatabaseInfo)
    (preR : List RetentionPolicyInfo) (rpi : RetentionPolicyInfo) (postR : List RetentionPolicyInfo) :
    Data :=
  d.withDatabase pre { di with retentionPolicies := preR ++ [rpi] ++ postR } post

variable (sort d op) in
inductive Effect : Data → Prop
  | position (term index clusterID : UInt64) :
      Effect { d with term := term, index := index, clusterID := clusterID }
  | createNode (host : String) : op = .createNode host → d.nodeByHost host = none →
      Effect { d with
        maxNodeID := d.maxNodeID + 1
        nodes := d.nodes ++ [⟨d.maxNodeID + 1, host⟩] }
  | deleteNode (id : UInt64) :
      Effect { d with
        databases := d.databases.map (removeOwner id)
        nodes := d.nodes.filter (fun n => n.id != id) }
  | createDatabase (name : String) : d.database name = none →
      Effect { d with databases := d.databases ++ [⟨name, "", [], []⟩] }
  | dropDatabase : d.databases = pre ++ di :: post → Effect { d with databases := pre ++ post }
  | database {pre : List DatabaseInfo} {di di' : DatabaseInfo} {post : List DatabaseInfo} :
      d.databases = pre ++ di :: post → di'.name = di.name →
      di'.retentionPolicies = di.retentionPolicies → Effect (d.withDatabase pre di' post)
  | createRetentionPolicy (name : String) (replicaN duration : Int64) :
      d.databases = pre ++ di :: post → di.retentionPolicy name = none →
      Effect (d.withDatabase pre { di with retentionPolicies := di.retentionPolicies ++
        [⟨name, replicaN, duration, shardGroupDuration duration, [], []⟩] } post)
  | dropRetentionPolicy : d.databases = pre ++ di :: post →
      di.retentionPolicies = preR ++ rpi :: postR →
      Effect (d.withDatabase pre { di with retentionPolicies := preR ++ postR } post)
  | updateRetentionPolicy (rpu : RetentionPolicyUpdate) :
      d.databases = pre ++ di :: post → di.retentionPolicies = preR ++ rpi :: postR →
      (∀ n, rpu.name = some n → n = rpi.name ∨ di.retentionPolicy n = none) →
      Effect (d.withPolicy pre di post preR (updatedPolicy rpu rpi) postR)
  | subscriptions (subs : List SubscriptionInfo) : d.databases = pre ++ di :: post →
      di.retentionPolicies = preR ++ rpi :: postR →
      Effect (d.withPolicy pre di post preR { rpi with subscriptions := subs } postR)
  | createShardGroup {database policy : String} (timestamp : Time) :
      op = .createShardGroup database policy timestamp →
      d.databases = pre ++ di :: post → di.retentionPolicies = preR ++ rpi :: postR →
      d.retentionPolicy database policy = .ok (some rpi) →
      rpi.shardGroupByTimestamp timestamp = none → d.nodes ≠ [] →
      Effect { d.withPolicy pre di post preR { rpi with
          shardGroups := sort (rpi.shardGroups ++ [d.newShardGroup rpi timestamp]) } postR with
        maxShardGroupID := d.maxShardGroupID + 1
        maxShardID := d.maxShardID +
          UInt64.ofNat ((d.nodes.length : ℤ).tdiv (d.replicas rpi)).toNat }
  | deleteShardGroup {database policy : String} {id : UInt64} (now : Time) :
      op = .deleteShardGroup now database policy id → d.databases = pre ++ di :: post →
      di.retentionPolicies = preR ++ rpi :: postR → rpi.shardGroups = preG ++ sgi :: postG →
      Effect (d.withPolicy pre di post preR { rpi with
        shardGroups := preG ++ { sgi with deletedAt := now } :: postG } postR)
  | createUser (name hash : String) (admin : Bool) : d.user name = none →
      Effect { d with users := d.users ++ [⟨name, hash, admin, ⟨[], Keyed.ascending_nil⟩⟩] }
  | dropUser : d.users = pre ++ ui :: post → Effect { d with users := pre ++ post }
  | user {pre : List UserInfo} {ui ui' : UserInfo} {post : List UserInfo} :
      d.users = pre ++ ui :: post → ui'.name = ui.name →
      Effect { d with users := pre ++ ui' :: post }

/-! ## Users stay -/

variable {name : String} {rpi : RetentionPolicyInfo} {database policy : String} {timestamp : Time}
  {pre post : List DatabaseInfo} {f : DatabaseInfo → Except MetaError (List DatabaseInfo)}
  {P : RetentionPolicyInfo → Prop} {di : DatabaseInfo}

theorem users_changeDatabase (h : d.changeDatabase name f = .ok d') : d'.users = d.users := by
  obtain ⟨dbs, -, rfl⟩ := except_map_eq_ok.mp h
  rfl

theorem users_createNode {host : String} (h : d.createNode host = .ok d') : d'.users = d.users := by
  unfold createNode at h
  split at h
  · cases h
  · rw [← Except.ok.inj h]

/-! ## Users change -/

theorem split_of_changeUser {f : UserInfo → List UserInfo} (h : d.changeUser name f = .ok d') :
    ∃ pre ui post, d.users = pre ++ ui :: post ∧ (∀ ui' ∈ pre, ui'.name ≠ name) ∧ ui.name = name ∧
      d' = { d with users := pre ++ f ui ++ post } := by
  obtain ⟨users, hchange, rfl⟩ := except_map_eq_ok.mp h
  obtain ⟨pre, ui, post, uis, hsplit, hpre, hui, huis, rfl⟩ := split_of_changeFirst hchange
  obtain rfl := Except.ok.inj huis
  exact ⟨pre, ui, post, hsplit, fun ui' hui' => beq_eq_false_iff_ne.mp (hpre ui' hui'),
    beq_iff_eq.mp hui, rfl⟩

theorem user_changeUser_of_ne {f : UserInfo → List UserInfo}
    (hf : ∀ ui, ∀ ui' ∈ f ui, ui'.name = ui.name) (h : d.changeUser name f = .ok d')
    {username : String} (hne : username ≠ name) : d'.user username = d.user username := by
  obtain ⟨pre, ui, post, hsplit, -, hui, rfl⟩ := split_of_changeUser h
  have hname : ui.name ≠ username := fun h => hne (h.symm.trans hui)
  unfold user
  rw [hsplit]
  apply find?_of_split
  · exact beq_false_of_ne hname
  · intro ui' hui'
    rw [hf ui ui' hui']
    exact beq_false_of_ne hname

variable {g : UserInfo → UserInfo} {missing : MetaError} {preR postR : List RetentionPolicyInfo}

theorem user_changeUser_self (hg : ∀ ui, (g ui).name = ui.name)
    (h : d.changeUser name (fun ui => [g ui]) = .ok d') : d'.user name = (d.user name).map g := by
  obtain ⟨pre, ui, post, hsplit, hpre, hui, rfl⟩ := split_of_changeUser h
  unfold user
  rw [hsplit, find?_eq_of_split hpre hui]
  dsimp only
  rw [append_assoc]
  exact find?_eq_of_split hpre ((hg ui).trans hui)

/-! ## Policies -/

def policies (d : Data) : List RetentionPolicyInfo := d.databases.flatMap DatabaseInfo.retentionPolicies

theorem mem_policies : rpi ∈ d.policies ↔ ∃ di ∈ d.databases, rpi ∈ di.retentionPolicies :=
  mem_flatMap

theorem split_of_changeDatabase (h : d.changeDatabase name f = .ok d') :
    ∃ pre di post dis, d.databases = pre ++ di :: post ∧ (∀ di' ∈ pre, di'.name ≠ name) ∧
      di.name = name ∧ f di = .ok dis ∧ d' = { d with databases := pre ++ dis ++ post } := by
  obtain ⟨dbs, hdbs, rfl⟩ := except_map_eq_ok.mp h
  obtain ⟨pre, di, post, dis, hsplit, hpre, hdi, hdis, rfl⟩ := split_of_changeFirst hdbs
  exact ⟨pre, di, post, dis, hsplit, fun di' hdi' => beq_eq_false_iff_ne.mp (hpre di' hdi'),
    beq_iff_eq.mp hdi, hdis, rfl⟩

theorem split_of_changePolicy
    {f : DatabaseInfo → RetentionPolicyInfo → Except MetaError (List RetentionPolicyInfo)}
    (h : d.changePolicy database name missing f = .ok d') :
    ∃ pre di post preR rpi postR rpis, d.databases = pre ++ di :: post ∧
      (∀ di' ∈ pre, di'.name ≠ database) ∧ di.name = database ∧
      di.retentionPolicies = preR ++ rpi :: postR ∧ (∀ rpi' ∈ preR, rpi'.name ≠ name) ∧
      rpi.name = name ∧ f di rpi = .ok rpis ∧
      d' = { d with databases :=
        pre ++ [{ di with retentionPolicies := preR ++ rpis ++ postR }] ++ post } := by
  obtain ⟨pre, di, post, dis, hsplit, hpre, hdi, hdis, rfl⟩ := split_of_changeDatabase h
  obtain ⟨rps, hrps, rfl⟩ := except_map_eq_ok.mp hdis
  obtain ⟨preR, rpi, postR, rpis, hsplitR, hpreR, hrpi, hrpis, rfl⟩ := split_of_changeFirst hrps
  exact ⟨pre, di, post, preR, rpi, postR, rpis, hsplit, hpre, hdi, hsplitR,
    fun rpi' hrpi' => beq_eq_false_iff_ne.mp (hpreR rpi' hrpi'), beq_iff_eq.mp hrpi, hrpis, rfl⟩

/-- The first policy with the name of the first database with the name is found. -/
theorem retentionPolicy_of_split (hsplit : d.databases = pre ++ di :: post)
    (hpre : ∀ di' ∈ pre, di'.name ≠ database) (hdi : di.name = database)
    (hsplitR : di.retentionPolicies = preR ++ rpi :: postR)
    (hpreR : ∀ rpi' ∈ preR, rpi'.name ≠ name) (hrpi : rpi.name = name) :
    d.retentionPolicy database name = .ok (some rpi) := by
  have hdb : d.database database = some di := by
    rw [Data.database, hsplit]
    exact find?_eq_of_split hpre hdi
  have hrp : di.retentionPolicy name = some rpi := by
    rw [DatabaseInfo.retentionPolicy, hsplitR]
    exact find?_eq_of_split hpreR hrpi
  rw [Data.retentionPolicy, hdb]
  exact congrArg Except.ok hrp

/-- **`CreateShardGroup` adds a group to the policy.** -/
theorem split_of_createShardGroup (h : d.createShardGroup sort database policy timestamp = .ok d') :
    ∃ pre di post preR rpi postR, d.databases = pre ++ di :: post ∧
      di.retentionPolicies = preR ++ rpi :: postR ∧ d.retentionPolicy database policy = .ok (some rpi) ∧
      rpi.shardGroupByTimestamp timestamp = none ∧ d.nodes ≠ [] ∧
      d'.retentionPolicy database policy = .ok (some { rpi with
        shardGroups := sort (rpi.shardGroups ++ [d.newShardGroup rpi timestamp]) }) ∧
      d' = { d with
        databases := pre ++ [{ di with retentionPolicies := preR ++ [{ rpi with
          shardGroups := sort (rpi.shardGroups ++ [d.newShardGroup rpi timestamp]) }] ++ postR }] ++ post
        maxShardGroupID := d.maxShardGroupID + 1
        maxShardID := d.maxShardID +
          UInt64.ofNat ((d.nodes.length : ℤ).tdiv (d.replicas rpi)).toNat } := by
  unfold createShardGroup at h
  simp only [bind, Except.bind] at h
  split at h
  · cases h
  rename_i hnodes
  split at h
  · cases h
  rename_i rpi? hrpi
  split at h
  · cases h
  rename_i rpi
  split at h
  · cases h
  rename_i hgroup
  split at h
  · cases h
  split at h
  · cases h
  rename_i d₁ hd₁
  obtain ⟨pre, di, post, preR, rpi', postR, rpis, hsplit, hpre, hdi, hsplitR, hpreR, hrpi', hrpis, rfl⟩ :=
    split_of_changePolicy hd₁
  have hfound := retentionPolicy_of_split hsplit hpre hdi hsplitR hpreR hrpi'
  obtain rfl : rpi' = rpi := Option.some.inj (Except.ok.inj (hfound.symm.trans hrpi))
  obtain rfl := Except.ok.inj hrpis
  obtain rfl := Except.ok.inj h
  refine ⟨pre, di, post, preR, rpi', postR, hsplit, hsplitR, hrpi,
    Option.not_isSome_iff_eq_none.mp hgroup, hnodes, ?_, rfl⟩
  exact retentionPolicy_of_split (append_assoc _ _ _) hpre (by exact hdi)
    (append_assoc _ _ _) hpreR hrpi'

theorem Effect.of_changeDatabase
    (hf : ∀ di dis, f di = .ok dis → ∃ di', dis = [di'] ∧ di'.name = di.name ∧ di'.retentionPolicies = di.retentionPolicies)
    (h : d.changeDatabase name f = .ok d') : d.Effect sort op d' := by
  obtain ⟨pre, di, post, dis, hsplit, -, -, hdis, rfl⟩ := split_of_changeDatabase h
  obtain ⟨di', rfl, hname, hrps⟩ := hf di dis hdis
  exact .database hsplit hname hrps

theorem Effect.of_changeUser (hg : ∀ ui, (g ui).name = ui.name)
    (h : d.changeUser name (fun ui => [g ui]) = .ok d') : d.Effect sort op d' := by
  obtain ⟨pre, ui, post, hsplit, -, -, rfl⟩ := split_of_changeUser h
  rw [append_assoc]
  exact .user hsplit (hg ui)

theorem Effect.of_subscriptions
    {f : DatabaseInfo → RetentionPolicyInfo → Except MetaError (List RetentionPolicyInfo)}
    (hf : ∀ di rpi rpis, f di rpi = .ok rpis → ∃ subs, rpis = [{ rpi with subscriptions := subs }])
    (h : d.changePolicy database name missing f = .ok d') : d.Effect sort op d' := by
  obtain ⟨pre, di, post, preR, rpi, postR, rpis, hsplit, -, -, hsplitR, -, -, hrpis, rfl⟩ :=
    split_of_changePolicy h
  obtain ⟨subs, rfl⟩ := hf di rpi rpis hrpis
  exact .subscriptions subs hsplit hsplitR

/-- **What the operations do.** -/
theorem Effect.of_apply (h : d.apply sort op = .ok d') : d.Effect sort op d' := by
  cases op with
  | createNode host =>
    simp only [apply, Data.createNode] at h
    split_ifs at h with hhost
    obtain rfl := Except.ok.inj h
    exact .createNode host rfl (Option.not_isSome_iff_eq_none.mp hhost)
  | deleteNode id force =>
    simp only [apply, Data.deleteNode] at h
    split_ifs at h
    obtain rfl := Except.ok.inj h
    exact .deleteNode id
  | createDatabase name =>
    simp only [apply, Data.createDatabase] at h
    split_ifs at h with hempty hname
    obtain rfl := Except.ok.inj h
    exact .createDatabase name (Option.not_isSome_iff_eq_none.mp hname)
  | dropDatabase name =>
    obtain ⟨pre, di, post, dis, hsplit, -, -, hdis, rfl⟩ := split_of_changeDatabase h
    obtain rfl := Except.ok.inj hdis
    rw [append_nil]
    exact .dropDatabase hsplit
  | createRetentionPolicy database rpi =>
    simp only [apply, Data.createRetentionPolicy] at h
    split_ifs at h
    obtain ⟨pre, di, post, dis, hsplit, -, -, hdis, rfl⟩ := split_of_changeDatabase h
    split_ifs at hdis with hname
    obtain rfl := Except.ok.inj hdis
    exact .createRetentionPolicy rpi.name rpi.replicaN rpi.duration hsplit
      (Option.not_isSome_iff_eq_none.mp hname)
  | dropRetentionPolicy database name =>
    obtain ⟨pre, di, post, dis, hsplit, -, -, hdis, rfl⟩ := split_of_changeDatabase h
    split_ifs at hdis
    obtain ⟨rps, hrps, rfl⟩ := except_map_eq_ok.mp hdis
    obtain ⟨preR, rpi, postR, rpis, hsplitR, -, -, hrpis, rfl⟩ := split_of_changeFirst hrps
    obtain rfl := Except.ok.inj hrpis
    rw [append_nil]
    exact .dropRetentionPolicy hsplit hsplitR
  | updateRetentionPolicy database name rpu =>
    obtain ⟨pre, di, post, preR, rpi, postR, rpis, hsplit, -, -, hsplitR, -, rfl, hrpis, rfl⟩ :=
      split_of_changePolicy h
    split_ifs at hrpis with hname hduration
    obtain rfl := Except.ok.inj hrpis
    refine .updateRetentionPolicy rpu hsplit hsplitR (fun n hn => ?_)
    rw [hn, Option.any_some, Bool.and_eq_true, not_and_or] at hname
    rcases hname with hname | hname
    · exact .inl (by simpa using hname)
    · exact .inr (Option.not_isSome_iff_eq_none.mp hname)
  | createShardGroup database policy timestamp =>
    obtain ⟨pre, di, post, preR, rpi, postR, hsplit, hsplitR, hrpi, hnone, hnodes, -, rfl⟩ :=
      split_of_createShardGroup h
    exact .createShardGroup timestamp rfl hsplit hsplitR hrpi hnone hnodes
  | deleteShardGroup now database policy id =>
    obtain ⟨pre, di, post, preR, rpi, postR, rpis, hsplit, -, -, hsplitR, -, -, hrpis, rfl⟩ :=
      split_of_changePolicy h
    obtain ⟨groups, hgroups, rfl⟩ := except_map_eq_ok.mp hrpis
    obtain ⟨preG, sgi, postG, sgis, hsplitG, -, -, hsgis, rfl⟩ := split_of_changeFirst hgroups
    obtain rfl := Except.ok.inj hsgis
    rw [append_assoc preG]
    exact .deleteShardGroup now rfl hsplit hsplitR hsplitG
  | setDefaultRetentionPolicy _ _ | createContinuousQuery _ _ _ =>
    refine Effect.of_changeDatabase (fun di dis hdis => ?_) h
    split_ifs at hdis
    exact ⟨_, (Except.ok.inj hdis).symm, rfl, rfl⟩
  | dropContinuousQuery database name =>
    refine Effect.of_changeDatabase (fun di dis hdis => ?_) h
    obtain ⟨cqs, -, rfl⟩ := except_map_eq_ok.mp hdis
    exact ⟨_, rfl, rfl, rfl⟩
  | createSubscription database rp name mode destinations =>
    refine Effect.of_subscriptions (fun di rpi rpis hrpis => ?_) h
    split_ifs at hrpis
    exact ⟨_, (Except.ok.inj hrpis).symm⟩
  | dropSubscription database rp name =>
    refine Effect.of_subscriptions (fun di rpi rpis hrpis => ?_) h
    obtain ⟨subs, -, rfl⟩ := except_map_eq_ok.mp hrpis
    exact ⟨subs, rfl⟩
  | createUser name hash admin =>
    simp only [apply, Data.createUser] at h
    split_ifs at h with hempty hname
    obtain rfl := Except.ok.inj h
    exact .createUser name hash admin (Option.not_isSome_iff_eq_none.mp hname)
  | dropUser name =>
    obtain ⟨pre, ui, post, hsplit, -, -, rfl⟩ := split_of_changeUser h
    rw [append_nil]
    exact .dropUser hsplit
  | updateUser _ _ | setPrivilege _ _ _ | setAdminPrivilege _ _ =>
    refine Effect.of_changeUser ?_ h
    exact fun _ => rfl
  | setPosition term index =>
    obtain rfl := Except.ok.inj h
    exact .position term index d.clusterID
  | setClusterID id =>
    obtain rfl := Except.ok.inj h
    exact .position d.term d.index id

theorem mem_policies_of_split (hsplit : d.databases = pre ++ di :: post) : rpi ∈ d.policies ↔
      rpi ∈ pre.flatMap DatabaseInfo.retentionPolicies ∨ rpi ∈ di.retentionPolicies ∨
        rpi ∈ post.flatMap DatabaseInfo.retentionPolicies := by
  rw [policies, hsplit]
  simp only [flatMap_append, flatMap_cons, mem_append]

section

variable (h : d.retentionPolicy database policy = .ok (some rpi))
include h

theorem exists_of_retentionPolicy :
    ∃ di ∈ d.databases, di.name = database ∧ rpi ∈ di.retentionPolicies ∧ rpi.name = policy := by
  rw [Data.retentionPolicy] at h
  split at h
  · cases h
  rename_i di hdi
  have hrpi := Except.ok.inj h
  have hdb := find?_some (p := fun di : DatabaseInfo => di.name == database) hdi
  have hrp := find?_some (p := fun rpi : RetentionPolicyInfo => rpi.name == policy) hrpi
  exact ⟨di, mem_of_find?_eq_some hdi, beq_iff_eq.mp hdb, mem_of_find?_eq_some hrpi, beq_iff_eq.mp hrp⟩

theorem mem_policies_of_retentionPolicy : rpi ∈ d.policies := by
  obtain ⟨di, hdi, -, hrpi, -⟩ := exists_of_retentionPolicy h
  exact mem_policies.mpr ⟨di, hdi, hrpi⟩

end

theorem forall_policies_withDatabase {di' : DatabaseInfo}
    (hsplit : d.databases = pre ++ di :: post) (hall : ∀ rpi ∈ d.policies, P rpi)
    (hdi : ∀ rpi ∈ di'.retentionPolicies, rpi ∈ di.retentionPolicies ∨ P rpi) :
    ∀ rpi ∈ (d.withDatabase pre di' post).policies, P rpi := by
  intro rpi hrpi
  have hmem := @mem_policies_of_split d rpi pre post di hsplit
  rw [policies, withDatabase] at hrpi
  simp only [flatMap_append, flatMap_singleton, mem_append, or_assoc] at hrpi
  rcases hrpi with hrpi | hrpi | hrpi
  · exact hall rpi (hmem.mpr (.inl hrpi))
  · rcases hdi rpi hrpi with hrpi | hrpi
    · exact hall rpi (hmem.mpr (.inr (.inl hrpi)))
    · exact hrpi
  · exact hall rpi (hmem.mpr (.inr (.inr hrpi)))

theorem forall_policies_withPolicy
    {rpi' : RetentionPolicyInfo} (hsplit : d.databases = pre ++ di :: post)
    (hsplitR : di.retentionPolicies = preR ++ rpi :: postR) (hall : ∀ rpi ∈ d.policies, P rpi)
    (hrpi : rpi ∈ d.policies → P rpi → P rpi') :
    ∀ rpi ∈ (d.withPolicy pre di post preR rpi' postR).policies, P rpi := by
  have hmem : rpi ∈ d.policies := by
    rw [mem_policies_of_split hsplit, hsplitR]
    exact .inr (.inl (mem_append_right _ mem_cons_self))
  refine forall_policies_withDatabase hsplit hall (fun rpi'' hrpi'' => ?_)
  rw [hsplitR]
  rcases mem_append.mp hrpi'' with hrpi'' | hrpi''
  · rcases mem_append.mp hrpi'' with hrpi'' | hrpi''
    · exact .inl (mem_append_left _ hrpi'')
    · rw [mem_singleton.mp hrpi'']
      exact .inr (hrpi hmem (hall rpi hmem))
  · exact .inl (mem_append_right _ (mem_cons_of_mem _ hrpi''))

/-- **A property of all policies** is kept if each change of a policy keeps it. -/
theorem Effect.forall_policies (h : d.Effect sort op d') (hall : ∀ rpi ∈ d.policies, P rpi)
    (hnew : ∀ name replicaN duration, P ⟨name, replicaN, duration, shardGroupDuration duration, [], []⟩)
    (hupdate : ∀ rpu rpi, P rpi → P (updatedPolicy rpu rpi))
    (hsubs : ∀ rpi subs, P rpi → P { rpi with subscriptions := subs })
    (howner : ∀ id rpi, P rpi → P { rpi with shardGroups := rpi.shardGroups.map (removeOwnerGroup id) })
    (hcreate : ∀ rpi ∈ d.policies, ∀ database policy timestamp, op = .createShardGroup database policy timestamp → d.retentionPolicy database policy = .ok (some rpi) → rpi.shardGroupByTimestamp timestamp = none → P rpi → P { rpi with shardGroups := sort (rpi.shardGroups ++ [d.newShardGroup rpi timestamp]) })
    (hdelete : ∀ rpi preG sgi postG now database policy id, op = .deleteShardGroup now database policy id → rpi.shardGroups = preG ++ sgi :: postG → P rpi → P { rpi with shardGroups := preG ++ { sgi with deletedAt := now } :: postG }) :
    ∀ rpi ∈ d'.policies, P rpi := by
  cases h with
  | position term index clusterID => exact hall
  | createNode host _ _ => exact hall
  | deleteNode id =>
    intro rpi hrpi
    obtain ⟨di, hdi, hrpi⟩ := mem_policies.mp hrpi
    obtain ⟨di₀, hdi₀, rfl⟩ := mem_map.mp hdi
    obtain ⟨rpi₀, hrpi₀, rfl⟩ := mem_map.mp hrpi
    exact howner id rpi₀ (hall rpi₀ (mem_policies.mpr ⟨di₀, hdi₀, hrpi₀⟩))
  | createDatabase name _ =>
    intro rpi hrpi
    obtain ⟨di, hdi, hrpi⟩ := mem_policies.mp hrpi
    rcases mem_append.mp hdi with hdi | hdi
    · exact hall rpi (mem_policies.mpr ⟨di, hdi, hrpi⟩)
    · rw [mem_singleton.mp hdi] at hrpi
      cases hrpi
  | dropDatabase hsplit =>
    intro rpi hrpi
    obtain ⟨di', hdi', hrpi⟩ := mem_policies.mp hrpi
    apply hall
    rw [mem_policies, hsplit]
    exact ⟨di', mem_append_cons_of_mem hdi', hrpi⟩
  | database hsplit _ hrps =>
    exact forall_policies_withDatabase hsplit hall (fun rpi hrpi => .inl (hrps ▸ hrpi))
  | createRetentionPolicy name replicaN duration hsplit _ =>
    refine forall_policies_withDatabase hsplit hall (fun rpi hrpi => ?_)
    rcases mem_append.mp hrpi with hrpi | hrpi
    · exact .inl hrpi
    · rw [mem_singleton.mp hrpi]
      exact .inr (hnew name replicaN duration)
  | dropRetentionPolicy hsplit hsplitR =>
    refine forall_policies_withDatabase hsplit hall (fun rpi hrpi => .inl ?_)
    rw [hsplitR]
    exact mem_append_cons_of_mem hrpi
  | updateRetentionPolicy rpu hsplit hsplitR _ =>
    exact forall_policies_withPolicy hsplit hsplitR hall (fun _ => hupdate rpu _)
  | subscriptions subs hsplit hsplitR =>
    exact forall_policies_withPolicy hsplit hsplitR hall (fun _ => hsubs _ subs)
  | createShardGroup timestamp hop hsplit hsplitR hrpi hnone _ =>
    have hall' := forall_policies_withPolicy hsplit hsplitR hall
      (fun hmem => hcreate _ hmem _ _ timestamp hop hrpi hnone)
    exact hall'
  | deleteShardGroup now hop hsplit hsplitR hsplitG =>
    exact forall_policies_withPolicy hsplit hsplitR hall
      (fun _ => hdelete _ _ _ _ now _ _ _ hop hsplitG)
  | createUser name hash admin _ => exact hall
  | dropUser _ => exact hall
  | user _ _ => exact hall

end Data

end AndyEnv.Meta
