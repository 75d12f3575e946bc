import AndyEnv.Meta.ShardGroups
import Mathlib.Data.List.AList

/-!
# Routing points to shards (`points_writer.go`)

`MapShards` cuts the time of each point to the shard group duration of the policy,
finds or makes the shard group of each of these times, and maps the points to the
shards of the groups.
-/

namespace AndyEnv.Cluster

open Meta AList Option
open List

/-! ## The metadata store -/

def shardGroupByTimestamp (d : Data) (database policy : String) (timestamp : Time) :
    Except MetaError (Option ShardGroupInfo) :=
  match d.retentionPolicy database policy with
  | .error e => .error e
  | .ok none => .error .retentionPolicyNotFound
  | .ok (some rpi) => .ok (rpi.shardGroupByTimestamp timestamp)

section

variable (sort : List ShardGroupInfo → List ShardGroupInfo)

/-- `Store.CreateShardGroup`: the timestamp travels in nanoseconds. -/
def createShardGroup (d : Data) (database policy : String) (timestamp : Time) :
    Except MetaError (Option ShardGroupInfo × Data) :=
  match d.createShardGroup sort database policy (Time.unixNano timestamp).toInt with
  | .error e => .error e
  | .ok d' => (shardGroupByTimestamp d' database policy timestamp).map (fun sgi => (sgi, d'))

def createShardGroupIfNotExists (d : Data) (database policy : String) (timestamp : Time) :
    Except MetaError (Option ShardGroupInfo × Data) :=
  match shardGroupByTimestamp d database policy timestamp with
  | .error e => .error e
  | .ok found =>
    match found.filter (fun sgi => !sgi.deleted) with
    | some sgi => .ok (some sgi, d)
    | none =>
      match createShardGroup sort d database policy timestamp with
      | .error .shardGroupExists =>
        (shardGroupByTimestamp d database policy timestamp).map (fun sgi => (sgi, d))
      | r => r

/-! ## The mapping -/

/-- `ShardFor`: a panic if there is no shard. -/
def shardFor (sgi : ShardGroupInfo) (hash : UInt64) : Option ShardInfo :=
  sgi.shards[(hash % UInt64.ofNat sgi.shards.length).toNat]?

inductive MapError : Type
  | store (e : MetaError)
  | retentionPolicyNotFound (name : String)
  /-- A nil pointer, or a division by zero. -/
  | runtime
deriving DecidableEq, Repr

/-- `ShardMapping.Points`. -/
abbrev ShardMapping (P : Type) : Type := AList (fun _ : UInt64 => List P)

def mapPoint {P : Type} (m : ShardMapping P) (si : ShardInfo) (p : P) : ShardMapping P :=
  m.insert si.id ((m.lookup si.id).getD [] ++ [p])

/-- The times of the points, cut to the duration of the groups. -/
abbrev TimeRanges : Type := AList (fun _ : Time => Option ShardGroupInfo)

section

variable {P : Type} (time : P → Time) (hashID : P → UInt64)
  -- the order in which the map is iterated
  (order : List Time → List Time)

/-- The first loop of `MapShards`. -/
def timeRanges (duration : Int64) (points : List P) : TimeRanges :=
  points.foldl (fun m p => m.insert ((time p).truncate duration) none) ∅

/-- The second loop. -/
def createGroups (database policy : String) : List Time → TimeRanges × Data →
    Except MapError (TimeRanges × Data)
  | [], s => .ok s
  | t :: ts, (m, d) =>
    match createShardGroupIfNotExists sort d database policy t with
    | .error e => .error (.store e)
    | .ok (sgi, d') => createGroups database policy ts (m.insert t sgi, d')

/-- The third loop. -/
def mapPoints (duration : Int64) (m : TimeRanges) : List P → ShardMapping P →
    Except MapError (ShardMapping P)
  | [], mapping => .ok mapping
  | p :: ps, mapping =>
    match ((m.lookup ((time p).truncate duration)).join).bind (fun sgi => shardFor sgi (hashID p)) with
    | none => .error .runtime
    | some si => mapPoints duration m ps (mapPoint mapping si p)

def mapShards (d : Data) (database policy : String) (points : List P) :
    Except MapError (ShardMapping P × Data) :=
  match d.retentionPolicy database policy with
  | .error e => .error (.store e)
  | .ok none => .error (.retentionPolicyNotFound policy)
  | .ok (some rp) =>
    let ranges := timeRanges time rp.shardGroupDuration points
    match createGroups sort database policy (order ranges.keys) (ranges, d) with
    | .error e => .error e
    | .ok (m, d') =>
      (mapPoints time hashID rp.shardGroupDuration m points ∅).map (fun mapping => (mapping, d'))

end

end

/-! ## Where the points go -/

/-- The mapping has each point once, and each under a shard of a group that is not
deleted and contains the time of the point. -/
structure Routed {P : Type} (time : P → Time) (groups : List ShardGroupInfo) (mapping : ShardMapping P)
    (points : List P) : Prop where
  once : (mapping.entries.flatMap (fun e => e.2)).Perm points
  group : ∀ id ps, mapping.lookup id = some ps → ∀ p ∈ ps, ∃ sgi ∈ groups, sgi.deleted = false ∧
    sgi.contains (time p) = true ∧ ∃ si ∈ sgi.shards, si.id = id

/-- No group that is not deleted contains the time of a point, cut to the duration, but not
the time itself. -/
def InBuckets {P : Type} (time : P → Time) (rpi : RetentionPolicyInfo) (points : List P) : Prop :=
  ∀ p ∈ points, ∀ sgi ∈ rpi.shardGroups, sgi.deleted = false →
    sgi.contains ((time p).truncate rpi.shardGroupDuration) = true → sgi.contains (time p) = true

/-! ## A map of lists -/

theorem perm_insert_concat {α β : Type} [DecidableEq α] (m : AList (fun _ : α => List β)) (a : α) (x : β) :
    ((m.insert a ((m.lookup a).getD [] ++ [x])).entries.flatMap (fun e => e.2)).Perm
      (m.entries.flatMap (fun e => e.2) ++ [x]) := by
  rw [entries_insert, flatMap_cons]
  by_cases ha : a ∈ m
  · obtain ⟨b, l₁, l₂, -, hentries, herase⟩ := exists_of_kerase ha
    have hb : m.lookup a = some b := by
      rw [← mem_def, mem_lookup_iff, hentries]
      exact mem_append_right _ mem_cons_self
    rw [herase, hentries, hb]
    simp only [getD_some, flatMap_append, flatMap_cons]
    refine perm_append_comm.trans ?_
    rw [← append_assoc, append_assoc (l₁.flatMap _)]
    exact (perm_append_comm.append_left _).append_right _
  · rw [lookup_eq_none.mpr ha, kerase_of_notMem_keys ha]
    exact perm_append_comm

/-! ## Finding or making a group -/

section

variable {sort : List ShardGroupInfo → List ShardGroupInfo} {d d' : Data} {database policy : String}
  {rpi : RetentionPolicyInfo} {t : Time}

def IsBucket (duration : Int64) (sgi : ShardGroupInfo) : Prop :=
  duration.toInt ∣ sgi.startTime - zeroTime ∧ sgi.endTime = sgi.startTime + duration.toInt

variable {duration : Int64} {found : Option ShardGroupInfo} {P : Type}

theorem IsBucket.contains (hd : duration ∈ groupDurations) {sgi : ShardGroupInfo}
    (h : IsBucket duration sgi) (hin : sgi.contains (t.truncate duration) = true) :
    sgi.contains t = true := by
  have hpos := pos_of_mem_groupDurations hd
  rw [ShardGroupInfo.contains_iff, truncate_eq hd, h.2] at hin
  have hle := bucket_le (x := t - zeroTime) hpos
  have hlt := lt_bucket_add (x := t - zeroTime) hpos
  have hstart : bucket duration.toInt (t - zeroTime) = sgi.startTime - zeroTime := by
    have hself := bucket_eq_of_mem (x := bucket duration.toInt (t - zeroTime)) hpos h.1
      (by linarith only [hin.1]) (by linarith only [hin.2])
    rw [← hself]
    exact (bucket_eq_of_mem hpos dvd_bucket (le_refl _) (by linarith only [hpos])).symm
  rw [ShardGroupInfo.contains_iff, h.2]
  exact ⟨by linarith only [hle, hstart], by linarith only [hlt, hstart]⟩

theorem shardGroupByTimestamp_ok (hrpi : d.retentionPolicy database policy = .ok (some rpi))
    (h : shardGroupByTimestamp d database policy t = .ok found) :
    ∀ sgi, found = some sgi → sgi ∈ rpi.shardGroups ∧ sgi.deleted = false ∧ sgi.contains t = true := by
  rw [shardGroupByTimestamp, hrpi] at h
  obtain rfl := Except.ok.inj h
  intro sgi hsgi
  have hprop := List.find?_some hsgi
  rw [Bool.and_eq_true, Bool.not_eq_true'] at hprop
  exact ⟨mem_of_find?_eq_some hsgi, hprop.2, hprop.1⟩

/-- Groups of the policy's duration may come in. -/
structure Extends (rpi rpi' : RetentionPolicyInfo) : Prop where
  duration : rpi'.shardGroupDuration = rpi.shardGroupDuration
  old : ∀ sgi ∈ rpi.shardGroups, sgi ∈ rpi'.shardGroups
  new : ∀ sgi ∈ rpi'.shardGroups, sgi ∈ rpi.shardGroups ∨ IsBucket rpi.shardGroupDuration sgi

theorem Extends.refl (rpi : RetentionPolicyInfo) : Extends rpi rpi :=
  ⟨rfl, fun _ h => h, fun _ h => .inl h⟩

theorem Extends.trans {rpi₁ rpi₂ rpi₃ : RetentionPolicyInfo} (h : Extends rpi₁ rpi₂)
    (h' : Extends rpi₂ rpi₃) : Extends rpi₁ rpi₃ := by
  refine ⟨h'.duration.trans h.duration, fun sgi hsgi => h'.old sgi (h.old sgi hsgi), fun sgi hsgi => ?_⟩
  rcases h'.new sgi hsgi with hsgi | hsgi
  · exact h.new sgi hsgi
  · rw [h.duration] at hsgi
    exact .inr hsgi

/-- **A group is found or made.** -/
theorem createShardGroupIfNotExists_ok (hsort : SortsGroups sort)
    (hrpi : d.retentionPolicy database policy = .ok (some rpi))
    (hduration : rpi.shardGroupDuration ∈ groupDurations)
    (h : createShardGroupIfNotExists sort d database policy t = .ok (found, d')) :
    ∃ rpi', d'.retentionPolicy database policy = .ok (some rpi') ∧ Extends rpi rpi' ∧
      ∀ sgi, found = some sgi →
        sgi ∈ rpi'.shardGroups ∧ sgi.deleted = false ∧ sgi.contains t = true := by
  have hlookup : shardGroupByTimestamp d database policy t = .ok (rpi.shardGroupByTimestamp t) := by
    rw [shardGroupByTimestamp, hrpi]
  unfold createShardGroupIfNotExists at h
  rw [hlookup] at h
  dsimp only at h
  split at h
  · rename_i sgi hsgi
    cases h
    refine ⟨rpi, hrpi, Extends.refl rpi, fun sgi' hsgi' => ?_⟩
    obtain rfl := some.inj hsgi'
    exact shardGroupByTimestamp_ok hrpi hlookup sgi (filter_eq_some_iff.mp hsgi).1
  · split at h
    · -- another node has made the group
      cases h
      exact ⟨rpi, hrpi, Extends.refl rpi, shardGroupByTimestamp_ok hrpi hlookup⟩
    unfold createShardGroup at h
    split at h
    · cases h
    rename_i d₁ hd₁
    obtain ⟨sgi?, hfound, hpair⟩ := except_map_eq_ok.mp h
    cases hpair
    obtain ⟨-, -, -, -, rpi₀, -, -, -, hrpi₀, -, -, hrpi', -⟩ := Data.split_of_createShardGroup hd₁
    obtain rfl : rpi₀ = rpi := some.inj (Except.ok.inj (hrpi₀.symm.trans hrpi))
    refine ⟨_, hrpi', ⟨rfl, fun sgi hsgi => ?_, fun sgi hsgi => ?_⟩,
      shardGroupByTimestamp_ok hrpi' hfound⟩
    · exact (hsort.perm _).mem_iff.mpr (mem_append_left _ hsgi)
    · rcases mem_append.mp ((hsort.perm _).mem_iff.mp hsgi) with hsgi | hsgi
      · exact .inl hsgi
      rw [mem_singleton.mp hsgi]
      refine .inr ⟨?_, rfl⟩
      rw [Data.newShardGroup, truncate_eq hduration]
      exact (dvd_bucket (d := rpi₀.shardGroupDuration.toInt)).trans
        (dvd_of_eq (add_sub_cancel_left _ _).symm)

/-! ## The loops -/

/-- Each time that has a group has one that contains it. -/
def Covered (m : TimeRanges) (groups : List ShardGroupInfo) : Prop :=
  ∀ t sgi, m.lookup t = some (some sgi) → sgi ∈ groups ∧ sgi.deleted = false ∧ sgi.contains t = true

theorem createGroups_ok (hsort : SortsGroups sort) {ts : List Time} :
    ∀ {rpi : RetentionPolicyInfo} {m m' : TimeRanges} {d d' : Data},
      d.retentionPolicy database policy = .ok (some rpi) → rpi.shardGroupDuration ∈ groupDurations →
      Covered m rpi.shardGroups → createGroups sort database policy ts (m, d) = .ok (m', d') →
      ∃ rpi', d'.retentionPolicy database policy = .ok (some rpi') ∧ Extends rpi rpi' ∧
        Covered m' rpi'.shardGroups := by
  induction ts with
  | nil =>
    intro rpi m m' d d' hrpi hduration hcovered h
    cases h
    exact ⟨rpi, hrpi, Extends.refl rpi, hcovered⟩
  | cons t ts ih =>
    intro rpi m m' d d' hrpi hduration hcovered h
    rw [createGroups] at h
    split at h
    · cases h
    rename_i found d₁ hcreate
    obtain ⟨rpi₁, hrpi₁, hext, hfound⟩ := createShardGroupIfNotExists_ok hsort hrpi hduration hcreate
    have hcovered₁ : Covered (m.insert t found) rpi₁.shardGroups := by
      intro t' sgi hsgi
      by_cases ht : t' = t
      · subst ht
        rw [lookup_insert] at hsgi
        exact hfound sgi (some.inj hsgi)
      · rw [lookup_insert_ne ht] at hsgi
        obtain ⟨hmem, hlive⟩ := hcovered t' sgi hsgi
        exact ⟨hext.old sgi hmem, hlive⟩
    obtain ⟨rpi₂, hrpi₂, hext₂, hcovered₂⟩ :=
      ih hrpi₁ (by rw [hext.duration]; exact hduration) hcovered₁ h
    exact ⟨rpi₂, hrpi₂, hext.trans hext₂, hcovered₂⟩

theorem covered_timeRanges (time : P → Time) (duration : Int64) (groups : List ShardGroupInfo)
    (points : List P) : Covered (timeRanges time duration points) groups := by
  have hnone : ∀ (m : TimeRanges), (∀ t sgi, m.lookup t ≠ some (some sgi)) → ∀ t sgi,
      (points.foldl (fun m p => m.insert ((time p).truncate duration) none) m).lookup t ≠
        some (some sgi) := by
    induction points with
    | nil => exact fun m hm => hm
    | cons p ps ih =>
      intro m hm
      refine ih _ (fun t sgi => ?_)
      by_cases ht : t = (time p).truncate duration
      · rw [ht, lookup_insert]
        exact nofun
      · rw [lookup_insert_ne ht]
        exact hm t sgi
  intro t sgi hsgi
  exact absurd hsgi (hnone ∅ (fun _ _ => nofun) t sgi)

theorem mapPoints_ok {time : P → Time} {hashID : P → UInt64}
    {m : TimeRanges} {groups : List ShardGroupInfo} {points : List P} (hin : ∀ p ∈ points, ∀ sgi,
      m.lookup ((time p).truncate duration) = some (some sgi) →
        sgi ∈ groups ∧ sgi.deleted = false ∧ sgi.contains (time p) = true) :
    ∀ {done : List P} {mapping mapping' : ShardMapping P}, Routed time groups mapping done →
      mapPoints time hashID duration m points mapping = .ok mapping' →
      Routed time groups mapping' (done ++ points) := by
  induction points with
  | nil =>
    intro done mapping mapping' hrouted h
    cases h
    rw [append_nil]
    exact hrouted
  | cons p ps ih =>
    intro done mapping mapping' hrouted h
    rw [mapPoints] at h
    split at h
    · cases h
    rename_i si hsi
    obtain ⟨sgi, hsgi, hshard⟩ := bind_eq_some_iff.mp hsi
    obtain ⟨hmem, hlive, hcontains⟩ := hin p mem_cons_self sgi (join_eq_some_iff.mp hsgi)
    have hstep : Routed time groups (mapPoint mapping si p) (done ++ [p]) := by
      refine ⟨(perm_insert_concat mapping si.id p).trans (hrouted.once.append_right _), ?_⟩
      intro id ps' hps' p' hp'
      by_cases hid : id = si.id
      · subst hid
        rw [mapPoint, lookup_insert] at hps'
        obtain rfl := some.inj hps'
        rcases mem_append.mp hp' with hp' | hp'
        · cases hold : mapping.lookup si.id with
          | none =>
            rw [hold] at hp'
            cases hp'
          | some old =>
            rw [hold] at hp'
            exact hrouted.group si.id old hold p' hp'
        · rw [mem_singleton.mp hp']
          exact ⟨sgi, hmem, hlive, hcontains, si, mem_of_getElem? hshard, rfl⟩
      · rw [mapPoint, lookup_insert_ne hid] at hps'
        exact hrouted.group id ps' hps' p' hp'
    have hrest := ih (forall_mem_cons.mp hin).2 hstep h
    rw [append_assoc] at hrest
    exact hrest

end

/-- **Points go to the group of their time.** If no group that is not deleted contains the
cut time of a point but not the time itself, `MapShards` maps each point once, under a
shard of a group that contains its time. -/
theorem mapShards_routed {P : Type} (time : P → Time) (hashID : P → UInt64)
    (sort : List ShardGroupInfo → List ShardGroupInfo) (hsort : SortsGroups sort)
    (order : List Time → List Time) (d : Data) (hd : (metaSystem sort).Reachable d)
    (database policy : String) (points : List P) (mapping : ShardMapping P) (d' : Data)
    (h : mapShards sort time hashID order d database policy points = .ok (mapping, d'))
    (hbuckets : ∀ rpi, d.retentionPolicy database policy = .ok (some rpi) → InBuckets time rpi points) :
    ∃ rpi', d'.retentionPolicy database policy = .ok (some rpi') ∧
      Routed time rpi'.shardGroups mapping points := by
  unfold mapShards at h
  split at h
  · cases h
  · cases h
  · rename_i rpi hrpi
    have hduration := (Data.aligned_of_reaches hsort hd rpi
      (Data.mem_policies_of_retentionPolicy hrpi)).duration
    dsimp only at h
    split at h
    · cases h
    rename_i m d₁ hcreate
    obtain ⟨mapping', hmap, hpair⟩ := except_map_eq_ok.mp h
    cases hpair
    obtain ⟨rpi', hrpi', hext, hcovered⟩ := createGroups_ok hsort hrpi hduration
      (covered_timeRanges time rpi.shardGroupDuration _ points) hcreate
    refine ⟨rpi', hrpi', ?_⟩
    have hnone : Routed time rpi'.shardGroups (∅ : ShardMapping P) [] :=
      ⟨List.Perm.refl _, fun id ps hps => by cases hps⟩
    refine mapPoints_ok (fun p hp sgi hsgi => ?_) hnone hmap
    obtain ⟨hmem, hlive, hcontains⟩ := hcovered _ sgi hsgi
    refine ⟨hmem, hlive, ?_⟩
    rcases hext.new sgi hmem with hold | hnew
    · exact hbuckets rpi hrpi p hp sgi hold hlive hcontains
    · exact hnew.contains hduration hcontains

/-- Two points of a policy that has no group yet. -/
theorem mapShards_routed_hours : ∃ d d' : Data, ∃ mapping : ShardMapping Time, ∃ rpi,
    (metaSystem sortByStart).Reachable d ∧
      mapShards sortByStart id (fun _ => 0) id d "db" "rp" [1, 7200000000000] = .ok (mapping, d') ∧
      d'.retentionPolicy "db" "rp" = .ok (some rpi) ∧
      Routed id rpi.shardGroups mapping [1, 7200000000000] := by
  have hd : (metaSystem sortByStart).Reachable _ := reachable_of_apply [.createNode "n",
    .createDatabase "db", .createRetentionPolicy "db" ⟨"rp", 1, hour, 0, [], []⟩] rfl
  obtain ⟨rpi, hrpi, hrouted⟩ := mapShards_routed id (fun _ => 0) sortByStart sortsGroups_sortByStart id _ hd
    "db" "rp" [1, 7200000000000] _ _ rfl (fun rpi hrpi => by
      obtain rfl := some.inj (Except.ok.inj hrpi)
      intro p _ sgi hsgi
      cases hsgi)
  exact ⟨_, _, _, rpi, hd, rfl, hrpi, hrouted⟩

/-- A point of the second hour goes to the group of the first one, after the duration has become
a week. -/
theorem mapShards_not_routed : ∃ d d' : Data, ∃ mapping : ShardMapping Time, ∃ rpi,
    (metaSystem sortByStart).Reachable d ∧
      mapShards sortByStart id (fun _ => 0) id d "db" "rp" [352800000000000] = .ok (mapping, d') ∧
      d'.retentionPolicy "db" "rp" = .ok (some rpi) ∧
      ¬Routed id rpi.shardGroups mapping [352800000000000] := by
  refine ⟨_, _, _, _, reachable_of_apply [.createNode "n", .createDatabase "db",
    .createRetentionPolicy "db" ⟨"rp", 1, hour, 0, [], []⟩, .createShardGroup "db" "rp" 345600000000000,
    .updateRetentionPolicy "db" "rp" ⟨none, some 0, none⟩] rfl, rfl, rfl, fun hrouted => ?_⟩
  obtain ⟨sgi, hsgi, -, hcontains, -⟩ := hrouted.group 1 [352800000000000] rfl _ mem_cons_self
  rw [mem_singleton.mp hsgi] at hcontains
  revert hcontains
  decide +kernel

end AndyEnv.Cluster
