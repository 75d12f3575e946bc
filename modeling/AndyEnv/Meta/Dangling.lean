import AndyEnv.Meta.References
import AndyEnv.Meta.ShardGroups
import AndyEnv.Meta.Survival

/-!
# What an operation leaves behind

A node is removed without force only if no shard would be left without an owner; but
the check passes over the policies that ask for more than one replica, and a shard has
fewer owners than its policy asks for if there were fewer nodes when it was made. The
default policy of a database is a name; a policy that is renamed is not renamed there.
-/

namespace AndyEnv.Meta

open List

/-! ## Shards without an owner -/

def ShardInfo.withoutOwner (id : UInt64) (si : ShardInfo) : ShardInfo :=
  { si with owners := si.owners.filter (fun o => o.nodeID != id) }

namespace Data

variable {sort : List ShardGroupInfo → List ShardGroupInfo} {d d' : Data} {id : UInt64} {op : Op}

def liveShards (d : Data) : List ShardInfo :=
  d.policies.flatMap (fun rpi => rpi.live.flatMap ShardGroupInfo.shards)

theorem liveShards_deleteNode {force : Bool} (h : d.deleteNode id force = .ok d') :
    d'.liveShards = d.liveShards.map (ShardInfo.withoutOwner id) := by
  simp only [deleteNode] at h
  split_ifs at h
  obtain rfl := Except.ok.inj h
  simp only [liveShards, policies, removeOwner, flatMap_map, map_flatMap, flatMap_assoc]
  congr 1
  funext di
  congr 1
  funext rpi
  rw [RetentionPolicyInfo.live, RetentionPolicyInfo.live, filter_map, flatMap_map]
  rfl

/-- The check is made for every shard of a policy that is not replicated. -/
theorem not_owned_of_deleteNode (h : d.deleteNode id false = .ok d') {rpi : RetentionPolicyInfo}
    (hrpi : rpi ∈ d.policies) (hreplica : rpi.replicaN.toInt ≤ 1) {sgi : ShardGroupInfo}
    (hsgi : sgi ∈ rpi.shardGroups) {si : ShardInfo} (hsi : si ∈ sgi.shards) (hone : si.owners.length = 1) :
    si.ownedBy id = false := by
  simp only [deleteNode] at h
  split_ifs at h with _ _ _ hloses
  obtain ⟨di, hdi, hrpi⟩ := mem_policies.mp hrpi
  by_contra howned
  refine hloses (any_eq_true.mpr ⟨di, hdi, any_eq_true.mpr ⟨rpi, hrpi, ?_⟩⟩)
  rw [decide_eq_true hreplica]
  refine any_eq_true.mpr ⟨sgi, hsgi, any_eq_true.mpr ⟨si, hsi, ?_⟩⟩
  rw [Bool.eq_true_of_not_eq_false howned, hone]
  rfl

/-- **Removing a node without force.** Every shard of a group that is not deleted keeps an
owner exactly if the shards that this node alone owns are in reach of the check: they are
of policies that are not replicated, and have one owner. -/
theorem deleteNode_keeps_owners_iff (h : d.deleteNode id false = .ok d') :
    List.Forall₂ (fun si si' => si'.id = si.id ∧ (si.owners ≠ [] → si'.owners ≠ []))
        d.liveShards d'.liveShards ↔
      ∀ rpi ∈ d.policies, ∀ sgi ∈ rpi.live, ∀ si ∈ sgi.shards, si.owners ≠ [] →
        (∀ o ∈ si.owners, o.nodeID = id) → rpi.replicaN.toInt ≤ 1 ∧ si.owners.length = 1 := by
  have hleft : ∀ si : ShardInfo, (si.withoutOwner id).owners = [] ↔ ∀ o ∈ si.owners, o.nodeID = id := by
    intro si
    simp [ShardInfo.withoutOwner, filter_eq_nil_iff]
  rw [liveShards_deleteNode h, forall₂_map_right_iff, forall₂_same]
  constructor
  · intro hkeeps rpi hrpi sgi hsgi si hsi howners hall
    have hmem : si ∈ d.liveShards := mem_flatMap.mpr ⟨rpi, hrpi, mem_flatMap.mpr ⟨sgi, hsgi, hsi⟩⟩
    exact absurd ((hleft si).mpr hall) ((hkeeps si hmem).2 howners)
  · intro hreach si hsi
    refine ⟨rfl, fun howners hnil => ?_⟩
    obtain ⟨rpi, hrpi, hsi⟩ := mem_flatMap.mp hsi
    obtain ⟨sgi, hsgi, hsi⟩ := mem_flatMap.mp hsi
    have hall := (hleft si).mp hnil
    obtain ⟨hreplica, hone⟩ := hreach rpi hrpi sgi hsgi si hsi howners hall
    have hnot := not_owned_of_deleteNode h hrpi hreplica (mem_of_mem_filter hsgi) hsi hone
    obtain ⟨o, ho⟩ := exists_mem_of_ne_nil _ howners
    exact any_eq_false.mp hnot o ho (beq_iff_eq.mpr (hall o ho))

/-- A shard with two owners. -/
theorem deleteNode_keeps_owners_two : ∃ d d' : Data, d.deleteNode 1 false = .ok d' ∧
    List.Forall₂ (fun si si' => si'.id = si.id ∧ (si.owners ≠ [] → si'.owners ≠ []))
      d.liveShards d'.liveShards := by
  have h : Data.deleteNode ⟨0, 0, 0, [⟨1, "a"⟩, ⟨2, "b"⟩],
      [⟨"db", "", [⟨"rp", 2, 0, hour, [⟨1, 0, 1, zeroTime, [⟨1, [⟨1⟩, ⟨2⟩]⟩]⟩], []⟩], []⟩],
      [], 2, 1, 1⟩ 1 false = .ok _ := rfl
  exact ⟨_, _, h, (deleteNode_keeps_owners_iff h).mpr (by decide)⟩

/-- The policy asks for two replicas when there is one node. -/
theorem deleteNode_orphans : ∃ d d' : Data, (metaSystem sortByStart).Reachable d ∧
    d.deleteNode 1 false = .ok d' ∧
    ¬List.Forall₂ (fun si si' => si'.id = si.id ∧ (si.owners ≠ [] → si'.owners ≠ []))
      d.liveShards d'.liveShards := by
  refine ⟨_, _, reachable_of_apply [.createNode "a", .createDatabase "db",
    .createRetentionPolicy "db" ⟨"rp", 2, hour, 0, [], []⟩, .createShardGroup "db" "rp" 1,
    .createNode "b"] rfl, rfl, ?_⟩
  decide +kernel

end Data

/-! ## Default policies -/

/-- The default policy is not set, or is one of the policies. -/
def DatabaseInfo.DefaultExists (di : DatabaseInfo) : Prop :=
  di.defaultRetentionPolicy = "" ∨ di.defaultRetentionPolicy ∈ di.retentionPolicies.map RetentionPolicyInfo.name

def Op.KeepsDefault (d : Data) : Op → Prop
  | .updateRetentionPolicy database name rpu => ∀ di, d.database database = some di →
      di.defaultRetentionPolicy = name → name = "" ∨ rpu.name.getD name = name
  | _ => True

theorem DatabaseInfo.DefaultExists.replace {di : DatabaseInfo} (h : di.DefaultExists)
    {preR postR rpis : List RetentionPolicyInfo} {rpi : RetentionPolicyInfo}
    (hsplit : di.retentionPolicies = preR ++ rpi :: postR)
    (hname : rpi.name = di.defaultRetentionPolicy →
      rpi.name = "" ∨ rpi.name ∈ rpis.map RetentionPolicyInfo.name) :
    DefaultExists { di with retentionPolicies := preR ++ rpis ++ postR } := by
  simp only [DefaultExists, hsplit, map_append, map_cons, mem_append, mem_cons] at h ⊢
  rcases h with h | h | h | h
  · exact .inl h
  · exact .inr (.inl (.inl h))
  · rw [h]
    exact (hname h.symm).imp_right (fun hmem => .inl (.inr hmem))
  · exact .inr (.inr h)

namespace Data

variable {sort : List ShardGroupInfo → List ShardGroupInfo} {d d' : Data} {op : Op}

def DefaultsExist (d : Data) : Prop := ∀ di ∈ d.databases, di.DefaultExists

variable {database name : String}

/-- The policy that is changed is not the default, or keeps its name. -/
theorem DefaultsExist.changePolicy (h : d.DefaultsExist) {missing : MetaError}
    {f : DatabaseInfo → RetentionPolicyInfo → Except MetaError (List RetentionPolicyInfo)}
    (hf : ∀ di rpi rpis, d.database database = some di → rpi.name = name → f di rpi = .ok rpis →
      rpi.name = di.defaultRetentionPolicy → rpi.name = "" ∨ rpi.name ∈ rpis.map RetentionPolicyInfo.name)
    (hd : d.changePolicy database name missing f = .ok d') : d'.DefaultsExist := by
  refine forall_of_changeDatabase h (fun di hfound hdi dis hdis => ?_) hd
  obtain ⟨rps, hrps, rfl⟩ := except_map_eq_ok.mp hdis
  obtain ⟨preR, rpi, postR, rpis, hsplitR, -, hname, hrpis, rfl⟩ := split_of_changeFirst hrps
  rw [forall_mem_singleton]
  exact hdi.replace hsplitR (hf di rpi rpis hfound (beq_iff_eq.mp hname) hrpis)

/-- **An operation that does not rename a default policy.** -/
theorem DefaultsExist.step (h : d.DefaultsExist) (hkeeps : op.KeepsDefault d)
    (hd : d.apply sort op = .ok d') : d'.DefaultsExist := by
  cases op with
  | createNode host =>
    simp only [apply, Data.createNode] at hd
    split_ifs at hd
    rwa [← Except.ok.inj hd]
  | deleteNode id force =>
    simp only [apply, Data.deleteNode] at hd
    split_ifs at hd
    obtain rfl := Except.ok.inj hd
    refine forall_mem_map.mpr (fun di hdi => ?_)
    rw [DatabaseInfo.DefaultExists, removeOwner, map_map]
    exact h di hdi
  | createDatabase name =>
    simp only [apply, Data.createDatabase] at hd
    split_ifs at hd
    obtain rfl := Except.ok.inj hd
    exact forall_mem_append.mpr ⟨h, forall_mem_singleton.mpr (.inl rfl)⟩
  | dropDatabase name =>
    refine forall_of_changeDatabase h (fun di _ _ dis hdis => ?_) hd
    rw [← Except.ok.inj hdis]
    exact forall_mem_nil _
  | createRetentionPolicy database rpi =>
    simp only [apply, Data.createRetentionPolicy] at hd
    split_ifs at hd
    refine forall_of_changeDatabase h (fun di _ hdi dis hdis => ?_) hd
    split_ifs at hdis
    rw [← Except.ok.inj hdis, forall_mem_singleton, DatabaseInfo.DefaultExists, map_append]
    exact hdi.imp_right (mem_append_left _)
  | dropRetentionPolicy database name =>
    refine forall_of_changeDatabase h (fun di _ hdi dis hdis => ?_) hd
    split_ifs at hdis with hdefault
    obtain ⟨rps, hrps, rfl⟩ := except_map_eq_ok.mp hdis
    obtain ⟨preR, rpi, postR, rpis, hsplitR, -, hname, -, rfl⟩ := split_of_changeFirst hrps
    rw [forall_mem_singleton]
    exact hdi.replace hsplitR (fun heq => absurd (heq.symm.trans (beq_iff_eq.mp hname)) hdefault)
  | updateRetentionPolicy database name rpu =>
    refine h.changePolicy (fun di rpi rpis hfound hname hrpis heq => ?_) hd
    split_ifs at hrpis
    subst hname
    rw [← Except.ok.inj hrpis, map_singleton, mem_singleton]
    exact (hkeeps di hfound heq.symm).imp_right Eq.symm
  | setDefaultRetentionPolicy database name =>
    refine forall_of_changeDatabase h (fun di _ hdi dis hdis => ?_) hd
    split_ifs at hdis with hnone
    obtain ⟨rpi, hrpi⟩ := Option.ne_none_iff_exists'.mp (fun hnil => hnone (Option.isNone_iff_eq_none.mpr hnil))
    rw [← Except.ok.inj hdis, forall_mem_singleton]
    have hname := find?_some (p := fun rpi : RetentionPolicyInfo => rpi.name == name) hrpi
    exact .inr (mem_map.mpr ⟨rpi, mem_of_find?_eq_some hrpi, beq_iff_eq.mp hname⟩)
  | createShardGroup database policy timestamp =>
    obtain ⟨pre, di, post, preR, rpi, postR, hsplit, hsplitR, -, -, -, -, rfl⟩ :=
      split_of_createShardGroup hd
    rw [DefaultsExist, hsplit, forall_mem_append, forall_mem_cons] at h
    refine forall_mem_append.mpr ⟨forall_mem_append.mpr ⟨h.1, forall_mem_singleton.mpr ?_⟩, h.2.2⟩
    exact h.2.1.replace hsplitR (fun _ => .inr (mem_singleton_self _))
  | deleteShardGroup _ _ _ _ | dropSubscription _ _ _ =>
    refine h.changePolicy (fun di rpi rpis _ _ hrpis _ => ?_) hd
    obtain ⟨groups, -, rfl⟩ := except_map_eq_ok.mp hrpis
    exact .inr (mem_singleton_self _)
  | createContinuousQuery database name query =>
    refine forall_of_changeDatabase h (fun di _ hdi dis hdis => ?_) hd
    split_ifs at hdis
    rwa [← Except.ok.inj hdis, forall_mem_singleton]
  | dropContinuousQuery database name =>
    refine forall_of_changeDatabase h (fun di _ hdi dis hdis => ?_) hd
    obtain ⟨cqs, -, rfl⟩ := except_map_eq_ok.mp hdis
    rwa [forall_mem_singleton]
  | createSubscription database rp name mode destinations =>
    refine h.changePolicy (fun di rpi rpis _ _ hrpis _ => ?_) hd
    split_ifs at hrpis
    rw [← Except.ok.inj hrpis]
    exact .inr (mem_singleton_self _)
  | createUser name hash admin =>
    simp only [apply, Data.createUser] at hd
    split_ifs at hd
    rwa [← Except.ok.inj hd]
  | setPosition _ _ | setClusterID _ => rwa [← Except.ok.inj hd]
  | _ =>
    obtain ⟨users, -, rfl⟩ := except_map_eq_ok.mp hd
    exact h

/-- A default policy that gets another name is no longer there. -/
theorem NamesSound.defaultsExist_update_iff (h : d.NamesSound) (hdefaults : d.DefaultsExist)
    {rpu : RetentionPolicyUpdate} (hd : d.updateRetentionPolicy database name rpu = .ok d') :
    d'.DefaultsExist ↔ (Op.updateRetentionPolicy database name rpu).KeepsDefault d := by
  have hstep : d.apply id (.updateRetentionPolicy database name rpu) = .ok d' := hd
  refine ⟨fun hafter di hfound hdefault => ?_, fun hkeeps => hdefaults.step hkeeps hstep⟩
  obtain ⟨pre, di', post, preR, rpi, postR, rpis, hsplit, hpre, hdi, hsplitR, -, rfl, hrpis, rfl⟩ :=
    split_of_changePolicy hd
  obtain rfl : di' = di := by
    rw [Data.database, hsplit, find?_eq_of_split hpre hdi] at hfound
    exact Option.some.inj hfound
  split_ifs at hrpis
  obtain rfl := Except.ok.inj hrpis
  have hnodup := h.policies di' (hsplit ▸ mem_append_right _ mem_cons_self)
  rw [hsplitR, map_append, map_cons] at hnodup
  have hnot := (nodup_middle.mp hnodup).notMem
  rw [mem_append] at hnot
  have hexists := hafter _ (mem_append_left _ (mem_append_right _ (mem_singleton_self _)))
  simp only [DatabaseInfo.DefaultExists, hdefault, map_append, mem_append, map_singleton,
    mem_singleton] at hexists
  rcases hexists with hempty | (hmem | hname) | hmem
  · exact .inl hempty
  · exact absurd (.inl hmem) hnot
  · exact .inr hname.symm
  · exact absurd (.inr hmem) hnot

end Data

/-- **The default policy exists.** In a run in which no default policy is renamed, the default
policy of every database is not set or is one of its policies; and an update keeps it so
exactly if it does not rename a default policy. -/
theorem defaults_exist_iff (sort : List ShardGroupInfo → List ShardGroupInfo) (d : Data)
    (hd : (metaSystem sort).Reaches (fun d op => op.KeepsDefault d) d) :
    d.DefaultsExist ∧ ∀ database name rpu d', d.updateRetentionPolicy database name rpu = .ok d' →
      (d'.DefaultsExist ↔ (Op.updateRetentionPolicy database name rpu).KeepsDefault d) := by
  have hinv : d.NamesSound ∧ d.DefaultsExist := by
    refine hd.invariant (I := fun d => d.NamesSound ∧ d.DefaultsExist) (fun d hd => ?_)
      (fun d op d' h hkeeps hstep => ⟨h.1.step (.of_apply hstep), h.2.step hkeeps hstep⟩)
    rw [show d = Data.empty from hd]
    exact ⟨⟨nodup_nil, forall_mem_nil _, nodup_nil⟩, forall_mem_nil _⟩
  exact ⟨hinv.2, fun database name rpu d' => hinv.1.defaultsExist_update_iff hinv.2⟩

/-- The default policy gets another duration. -/
theorem defaults_exist_duration : ∃ d : Data, d.DefaultsExist ∧
    ∃ di ∈ d.databases, di.defaultRetentionPolicy = "rp" := by
  refine ⟨_, (defaults_exist_iff id _ (.step (l := .updateRetentionPolicy "db" "rp" ⟨none, some 0, none⟩)
    (.step (l := .setDefaultRetentionPolicy "db" "rp")
      (.step (l := .createRetentionPolicy "db" ⟨"rp", 1, hour, 0, [], []⟩)
        (.step (l := .createDatabase "db") (.init rfl) trivial rfl) trivial rfl) trivial rfl)
    (fun _ _ _ => .inr rfl) rfl)).1, _, mem_cons_self, rfl⟩

/-- The default policy is renamed. -/
theorem defaults_exist_renamed : ∃ d : Data, (metaSystem id).Reachable d ∧ ¬d.DefaultsExist := by
  refine ⟨_, reachable_of_apply [.createDatabase "db",
    .createRetentionPolicy "db" ⟨"rp", 1, hour, 0, [], []⟩, .setDefaultRetentionPolicy "db" "rp",
    .updateRetentionPolicy "db" "rp" ⟨some "week", none, none⟩] rfl, fun h => ?_⟩
  have hdefault := h _ mem_cons_self
  unfold DatabaseInfo.DefaultExists at hdefault
  revert hdefault
  decide

end AndyEnv.Meta
