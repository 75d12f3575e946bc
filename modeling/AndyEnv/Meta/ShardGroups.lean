import AndyEnv.Lib.Buckets
import AndyEnv.Meta.Operations

/-!
# The time ranges of shard groups

A shard group begins at its timestamp, cut to a multiple of the policy's shard group
duration, and lasts that long. There are three such durations, an hour, a day and a
week, so that two groups either have no time in common or one of them lies in the
other. Groups of one policy overlap as soon as the policy gets a longer duration and
a new group is made around an old one.
-/

namespace AndyEnv.Meta

open List

/-! ## Durations -/

def groupDurations : List Int64 := [hour, 24 * hour, 7 * 24 * hour]

theorem shardGroupDuration_mem (d : Int64) : shardGroupDuration d ∈ groupDurations := by
  unfold shardGroupDuration groupDurations
  split_ifs
  · exact mem_cons_of_mem _ (mem_cons_of_mem _ mem_cons_self)
  · exact mem_cons_of_mem _ mem_cons_self
  · exact mem_cons_self

variable {d : Int64} {rpi : RetentionPolicyInfo}

theorem pos_of_mem_groupDurations (h : d ∈ groupDurations) : 0 < d.toInt := by
  simp only [groupDurations, mem_cons, not_mem_nil, or_false] at h
  rcases h with rfl | rfl | rfl <;> decide

theorem dvd_or_dvd_of_mem_groupDurations {e : Int64} (hd : d ∈ groupDurations)
    (he : e ∈ groupDurations) : d.toInt ∣ e.toInt ∨ e.toInt ∣ d.toInt := by
  simp only [groupDurations, mem_cons, not_mem_nil, or_false] at hd he
  rcases hd with rfl | rfl | rfl <;> rcases he with rfl | rfl | rfl <;> decide

theorem truncate_eq (h : d ∈ groupDurations) (t : Time) :
    t.truncate d = zeroTime + bucket d.toInt (t - zeroTime) := by
  rw [Time.truncate, if_neg (not_le.mpr (pos_of_mem_groupDurations h)), bucket]
  exact (add_sub_sub_cancel _ _ _).symm.trans (by ring)

/-! ## Two groups -/

namespace ShardGroupInfo

/-- The range of a group begins at a multiple of one of the durations. -/
def Aligned (sgi : ShardGroupInfo) : Prop :=
  ∃ d ∈ groupDurations, d.toInt ∣ sgi.startTime - zeroTime ∧ sgi.endTime = sgi.startTime + d.toInt

def Disjoint (a b : ShardGroupInfo) : Prop := ∀ t, ¬(a.contains t = true ∧ b.contains t = true)

variable {a b : ShardGroupInfo}

theorem Disjoint.symm (h : a.Disjoint b) : b.Disjoint a :=
  fun t ht => h t ht.symm

theorem contains_iff {sgi : ShardGroupInfo} {t : Time} :
    sgi.contains t = true ↔ sgi.startTime ≤ t ∧ t < sgi.endTime := by
  rw [contains, Bool.and_eq_true, decide_eq_true_eq, decide_eq_true_eq]

/-- **A new group.** A group that does not contain a timestamp has no time in common
with the new group of the timestamp exactly if it does not begin there. -/
theorem disjoint_iff_truncate_ne (ha : a.Aligned) {d : Int64}
    (hd : d ∈ groupDurations) {timestamp : Time} (hnot : a.contains timestamp = false)
    (hstart : b.startTime = timestamp.truncate d) (hend : b.endTime = timestamp.truncate d + d.toInt) :
    a.Disjoint b ↔ a.startTime.truncate d ≠ timestamp.truncate d := by
  obtain ⟨e, he, haligned, hlength⟩ := ha
  have hx : ¬(a.startTime - zeroTime ≤ timestamp - zeroTime ∧
      timestamp - zeroTime < a.startTime - zeroTime + e.toInt) := by
    intro hx
    refine Bool.false_ne_true (hnot.symm.trans (contains_iff.mpr ?_))
    rw [hlength]
    exact ⟨by linarith only [hx.1], by linarith only [hx.2]⟩
  have hiff := bucket_disjoint_iff (pos_of_mem_groupDurations hd) (pos_of_mem_groupDurations he)
    (dvd_or_dvd_of_mem_groupDurations hd he) haligned hx
  rw [truncate_eq hd, truncate_eq hd, ne_eq, add_right_inj, ← ne_eq, ← hiff]
  constructor
  · intro hdisjoint t ⟨ha, hb⟩
    apply hdisjoint (t + zeroTime)
    rw [contains_iff, contains_iff, hstart, hend, hlength, truncate_eq hd]
    exact ⟨⟨by linarith only [ha.1], by linarith only [ha.2]⟩,
      by linarith only [hb.1], by linarith only [hb.2]⟩
  · intro hdisjoint t ⟨ha, hb⟩
    rw [contains_iff] at ha hb
    rw [hlength] at ha
    rw [hstart, hend, truncate_eq hd] at hb
    exact hdisjoint (t - zeroTime) ⟨⟨by linarith only [ha.1], by linarith only [ha.2]⟩,
      by linarith only [hb.1], by linarith only [hb.2]⟩

end ShardGroupInfo

/-! ## The groups of a policy -/

namespace RetentionPolicyInfo

variable {rpi : RetentionPolicyInfo}

def live (rpi : RetentionPolicyInfo) : List ShardGroupInfo :=
  rpi.shardGroups.filter (fun sgi => !sgi.deleted)

/-- The groups that are not deleted are in the order of their start times, and no two
of them have a time in common. -/
structure Separated (rpi : RetentionPolicyInfo) : Prop where
  ascending : rpi.live.Pairwise (fun a b => a.startTime ≤ b.startTime)
  disjoint : rpi.live.Pairwise ShardGroupInfo.Disjoint

/-- The durations of the groups are those of policies. -/
structure Aligned (rpi : RetentionPolicyInfo) : Prop where
  duration : rpi.shardGroupDuration ∈ groupDurations
  groups : ∀ sgi ∈ rpi.shardGroups, sgi.Aligned

theorem Separated.map {f : ShardGroupInfo → ShardGroupInfo} (hstart : ∀ sgi, (f sgi).startTime = sgi.startTime)
    (hend : ∀ sgi, (f sgi).endTime = sgi.endTime) (hdeleted : ∀ sgi, (f sgi).deletedAt = sgi.deletedAt)
    (h : rpi.Separated) : Separated { rpi with shardGroups := rpi.shardGroups.map f } := by
  have hlive : live { rpi with shardGroups := rpi.shardGroups.map f } = rpi.live.map f := by
    unfold live
    rw [filter_map]
    congr 1
    refine filter_congr (fun sgi _ => ?_)
    simp only [Function.comp_apply, ShardGroupInfo.deleted, hdeleted]
  constructor
  · rw [hlive, pairwise_map]
    simpa only [hstart] using h.ascending
  · rw [hlive, pairwise_map]
    refine h.disjoint.imp (fun {a b} hab t ht => hab t ?_)
    simpa only [ShardGroupInfo.contains_iff, hstart, hend] using ht

theorem Separated.delete {preG postG : List ShardGroupInfo} {sgi : ShardGroupInfo} {now : Time}
    (hnow : now ≠ zeroTime) (hsplit : rpi.shardGroups = preG ++ sgi :: postG) (h : rpi.Separated) :
    Separated { rpi with shardGroups := preG ++ { sgi with deletedAt := now } :: postG } := by
  have hgone : ShardGroupInfo.deleted { sgi with deletedAt := now } = true := by
    simpa [ShardGroupInfo.deleted, Time.isZero] using hnow
  have hsub : (live { rpi with shardGroups := preG ++ { sgi with deletedAt := now } :: postG }).Sublist
      rpi.live := by
    unfold live
    rw [hsplit, filter_append, filter_append,
      filter_cons_of_neg (by rw [hgone]; exact Bool.false_ne_true)]
    exact (Sublist.refl _).append ((sublist_cons_self sgi postG).filter _)
  exact ⟨h.ascending.sublist hsub, h.disjoint.sublist hsub⟩

/-- **A new group keeps the groups apart exactly if no group begins in its range.** -/
theorem Separated.create_iff {sort : List ShardGroupInfo → List ShardGroupInfo} (hsort : SortsGroups sort)
    (halign : rpi.Aligned) (h : rpi.Separated) {d : Data} {timestamp : Time}
    (hnone : rpi.shardGroupByTimestamp timestamp = none) :
    Separated { rpi with shardGroups := sort (rpi.shardGroups ++ [d.newShardGroup rpi timestamp]) } ↔
      ∀ sgi ∈ rpi.shardGroups, sgi.deleted = false →
        sgi.startTime.truncate rpi.shardGroupDuration ≠ timestamp.truncate rpi.shardGroupDuration := by
  have hnew : (d.newShardGroup rpi timestamp).deleted = false := rfl
  have hperm : (live { rpi with
      shardGroups := sort (rpi.shardGroups ++ [d.newShardGroup rpi timestamp]) }).Perm
      (rpi.live ++ [d.newShardGroup rpi timestamp]) := by
    refine ((hsort.perm _).filter _).trans ?_
    rw [filter_append, filter_singleton, hnew]
    exact Perm.refl _
  have hascending := (hsort.sorted (rpi.shardGroups ++ [d.newShardGroup rpi timestamp])).sublist
    (filter_sublist (p := fun sgi => !sgi.deleted))
  have hdisjoint : ∀ sgi ∈ rpi.live, sgi.Disjoint (d.newShardGroup rpi timestamp) ↔
      sgi.startTime.truncate rpi.shardGroupDuration ≠ timestamp.truncate rpi.shardGroupDuration := by
    intro sgi hsgi
    obtain ⟨hmem, hlive⟩ := mem_filter.mp hsgi
    have hnot := List.find?_eq_none.mp hnone sgi hmem
    rw [Bool.and_eq_true, not_and] at hnot
    exact ShardGroupInfo.disjoint_iff_truncate_ne (halign.groups sgi hmem) halign.duration
      (Bool.eq_false_of_not_eq_true (fun hin => hnot hin hlive)) rfl rfl
  have hlive : ∀ sgi, sgi ∈ rpi.live ↔ sgi ∈ rpi.shardGroups ∧ sgi.deleted = false := by
    intro sgi
    rw [live, mem_filter, Bool.not_eq_true']
  constructor
  · intro hsep sgi hmem hdeleted
    have hpair := (hperm.pairwise_iff (fun hab => ShardGroupInfo.Disjoint.symm hab)).mp hsep.disjoint
    have hsgi := (hlive sgi).mpr ⟨hmem, hdeleted⟩
    exact (hdisjoint sgi hsgi).mp ((pairwise_append.mp hpair).2.2 sgi hsgi _ mem_cons_self)
  · intro hne
    refine ⟨hascending, (hperm.pairwise_iff (fun hab => ShardGroupInfo.Disjoint.symm hab)).mpr ?_⟩
    rw [pairwise_append]
    refine ⟨h.disjoint, pairwise_singleton _ _, fun sgi hsgi new hnew => ?_⟩
    rw [mem_singleton.mp hnew, hdisjoint sgi hsgi]
    obtain ⟨hmem, hdeleted⟩ := (hlive sgi).mp hsgi
    exact hne sgi hmem hdeleted

end RetentionPolicyInfo

theorem Data.newShardGroup_aligned {d : Data}
    (h : rpi.shardGroupDuration ∈ groupDurations) (timestamp : Time) :
    (d.newShardGroup rpi timestamp).Aligned := by
  refine ⟨rpi.shardGroupDuration, h, ?_, rfl⟩
  have hstart : (d.newShardGroup rpi timestamp).startTime - zeroTime =
      bucket rpi.shardGroupDuration.toInt (timestamp - zeroTime) := by
    rw [Data.newShardGroup, truncate_eq h]
    exact add_sub_cancel_left _ _
  rw [hstart]
  exact dvd_bucket

/-! ## Runs -/

/-- No group that is not deleted begins in the range of a new one, and the clock does not
show the zero time when a group is deleted. -/
def Op.KeepsApart (d : Data) : Op → Prop
  | .createShardGroup database policy timestamp =>
    ∀ rpi, d.retentionPolicy database policy = .ok (some rpi) →
      ∀ sgi ∈ rpi.shardGroups, sgi.deleted = false →
        sgi.startTime.truncate rpi.shardGroupDuration ≠ timestamp.truncate rpi.shardGroupDuration
  | .deleteShardGroup now _ _ _ => now ≠ zeroTime
  | _ => True

namespace Data

variable {sort : List ShardGroupInfo → List ShardGroupInfo} {d d' : Data} {op : Op}

def Aligned (d : Data) : Prop := ∀ rpi ∈ d.policies, rpi.Aligned

def Separated (d : Data) : Prop := ∀ rpi ∈ d.policies, rpi.Separated

variable (hsort : SortsGroups sort)
include hsort

theorem Aligned.step (h : d.Aligned) (heffect : d.Effect sort op d') : d'.Aligned := by
  refine heffect.forall_policies h (fun _ _ duration => ⟨shardGroupDuration_mem duration, nofun⟩)
    (fun rpu rpi hrpi => ⟨?_, hrpi.groups⟩) (fun rpi subs hrpi => ⟨hrpi.duration, hrpi.groups⟩)
    (fun id rpi hrpi => ⟨hrpi.duration, fun sgi hsgi => ?_⟩)
    (fun rpi _ database policy timestamp _ _ _ hrpi => ⟨hrpi.duration, fun sgi hsgi => ?_⟩)
    (fun rpi preG sgi postG now _ _ _ _ hsplit hrpi => ⟨hrpi.duration, fun sgi' hsgi' => ?_⟩)
  · cases hduration : rpu.duration with
    | none =>
      rw [updatedPolicy, hduration]
      exact hrpi.duration
    | some duration =>
      rw [updatedPolicy, hduration]
      exact shardGroupDuration_mem duration
  · obtain ⟨sgi₀, hsgi₀, rfl⟩ := mem_map.mp hsgi
    exact hrpi.groups sgi₀ hsgi₀
  · rcases mem_append.mp ((hsort.perm _).mem_iff.mp hsgi) with hsgi | hsgi
    · exact hrpi.groups sgi hsgi
    · rw [mem_singleton.mp hsgi]
      exact newShardGroup_aligned hrpi.duration timestamp
  · have hgroups := hrpi.groups
    rw [hsplit, forall_mem_append, forall_mem_cons] at hgroups
    rcases mem_append.mp hsgi' with hsgi' | hsgi'
    · exact hgroups.1 sgi' hsgi'
    · rcases mem_cons.mp hsgi' with rfl | hsgi'
      · exact hgroups.2.1
      · exact hgroups.2.2 sgi' hsgi'

/-- The durations are the three ones in all metadata that operations build. -/
theorem aligned_of_reaches {ok : Data → Op → Prop}
    (h : (metaSystem sort).Reaches ok d) : d.Aligned := by
  refine h.invariant (I := Data.Aligned) (fun d hd => ?_)
    (fun d op d' hd _ hstep => hd.step hsort (Effect.of_apply hstep))
  rw [show d = Data.empty from hd]
  exact nofun

/-- **An operation that keeps the groups apart.** -/
theorem Separated.step (halign : d.Aligned) (h : d.Separated)
    (hapart : op.KeepsApart d) (heffect : d.Effect sort op d') : d'.Separated := by
  refine heffect.forall_policies h (fun _ _ _ => ⟨.nil, .nil⟩) (fun rpu rpi hrpi => ?_)
    (fun rpi subs hrpi => ?_) (fun id rpi hrpi => hrpi.map (fun _ => rfl) (fun _ => rfl) (fun _ => rfl))
    (fun rpi hmem database policy timestamp hop hfound hnone hrpi => ?_)
    (fun rpi preG sgi postG now database policy id hop hsplit hrpi => hrpi.delete ?_ hsplit)
  · exact ⟨hrpi.ascending, hrpi.disjoint⟩
  · exact ⟨hrpi.ascending, hrpi.disjoint⟩
  · subst hop
    exact (hrpi.create_iff hsort (halign rpi hmem) hnone).mpr (hapart rpi hfound)
  · subst hop
    exact hapart

end Data

/-- **Shard groups are separated.** In a run whose operations all keep the groups apart, no
two groups of a policy overlap; and a new group keeps it so exactly if no group that is
not deleted begins in its range. -/
theorem shardGroups_separated_iff (sort : List ShardGroupInfo → List ShardGroupInfo)
    (hsort : SortsGroups sort) (d : Data)
    (hd : (metaSystem sort).Reaches (fun d op => op.KeepsApart d) d) :
    d.Separated ∧ ∀ database policy timestamp d',
      d.createShardGroup sort database policy timestamp = .ok d' →
        (d'.Separated ↔ (Op.createShardGroup database policy timestamp).KeepsApart d) := by
  have halign := Data.aligned_of_reaches hsort hd
  have hsep : d.Separated := by
    have hinv : d.Aligned ∧ d.Separated := by
      refine hd.invariant (I := fun d => d.Aligned ∧ d.Separated) (fun d hd => ?_)
        (fun d op d' h hapart hstep => ?_)
      · rw [show d = Data.empty from hd]
        exact ⟨nofun, nofun⟩
      · have heffect := Data.Effect.of_apply hstep
        exact ⟨h.1.step hsort heffect, h.2.step hsort h.1 hapart heffect⟩
    exact hinv.2
  refine ⟨hsep, fun database policy timestamp d' hcreate => ⟨fun hsep' rpi hrpi => ?_, fun hapart => ?_⟩⟩
  · obtain ⟨pre, di, post, preR, rpi', postR, hsplit, hsplitR, hrpi', hnone, -, -, rfl⟩ :=
      Data.split_of_createShardGroup hcreate
    obtain rfl : rpi' = rpi := Option.some.inj (Except.ok.inj (hrpi'.symm.trans hrpi))
    have hmem := Data.mem_policies_of_retentionPolicy hrpi
    refine ((hsep rpi' hmem).create_iff hsort (halign rpi' hmem) (d := d) hnone).mp (hsep' _ ?_)
    refine Data.mem_policies.mpr ⟨_, mem_append_left _ (mem_append_right _ mem_cons_self), ?_⟩
    exact mem_append_left _ (mem_append_right _ mem_cons_self)
  · have happly : d.apply sort (.createShardGroup database policy timestamp) = .ok d' := hcreate
    exact hsep.step hsort halign hapart (Data.Effect.of_apply happly)

/-- Two groups that follow each other. -/
theorem shardGroups_separated_hours : ∃ d : Data, d.maxShardGroupID = 2 ∧ d.Separated := by
  have hfirst : (metaSystem sortByStart).Reaches (fun d op => op.KeepsApart d) _ :=
    .step (l := .createShardGroup "db" "rp" 1)
      (.step (l := .createRetentionPolicy "db" ⟨"rp", 1, hour, 0, [], []⟩)
        (.step (l := .createDatabase "db")
          (.step (l := .createNode "n") (.init rfl) trivial rfl) trivial rfl) trivial rfl)
      (fun rpi hrpi => by obtain rfl := Option.some.inj (Except.ok.inj hrpi); exact nofun) rfl
  have hsecond : (metaSystem sortByStart).Reaches (fun d op => op.KeepsApart d) _ :=
    .step (l := .createShardGroup "db" "rp" 3600000000001) hfirst
      (fun rpi hrpi => by
        obtain rfl := Option.some.inj (Except.ok.inj hrpi)
        intro sgi hsgi _
        rw [mem_singleton.mp hsgi]
        decide +kernel) rfl
  exact ⟨_, rfl, (shardGroups_separated_iff sortByStart sortsGroups_sortByStart _ hsecond).1⟩

theorem RetentionPolicyInfo.not_separated {t : Time}
    (h : 2 ≤ (rpi.live.filter (fun sgi => sgi.contains t)).length) : ¬rpi.Separated := by
  intro hsep
  have hpair := hsep.disjoint.sublist (filter_sublist (p := fun sgi => sgi.contains t))
  cases hl : rpi.live.filter (fun sgi => sgi.contains t) with
  | nil => simp [hl] at h
  | cons a l =>
    cases l with
    | nil => simp [hl] at h
    | cons b l =>
      have hin : ∀ sgi ∈ rpi.live.filter (fun sgi => sgi.contains t), sgi.contains t = true :=
        fun sgi hsgi => (mem_filter.mp hsgi).2
      rw [hl] at hpair hin
      refine rel_of_pairwise_cons hpair mem_cons_self t ⟨?_, ?_⟩
      · exact hin a mem_cons_self
      · exact hin b (mem_cons_of_mem _ mem_cons_self)

/-- A group of a week lies around a group of an hour. -/
theorem shardGroups_overlap : ∃ d : Data, (metaSystem sortByStart).Reachable d ∧ ¬d.Separated := by
  refine ⟨_, reachable_of_apply [.createNode "n", .createDatabase "db",
    .createRetentionPolicy "db" ⟨"rp", 1, hour, 0, [], []⟩, .createShardGroup "db" "rp" 1,
    .updateRetentionPolicy "db" "rp" ⟨none, some 0, none⟩,
    .createShardGroup "db" "rp" 7200000000000] rfl, fun hsep => ?_⟩
  refine RetentionPolicyInfo.not_separated (t := 0) ?_ (hsep _ mem_cons_self)
  decide +kernel

end AndyEnv.Meta
