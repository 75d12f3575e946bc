import AndyEnv.Meta.Store

/-!
# Two nodes that apply the same log

The metadata of two nodes that apply the same entries to the same metadata stays
the same as long as their clocks agree when a shard group is deleted.
-/

namespace AndyEnv.Meta

open List Option

namespace Data

variable {sort : List ShardGroupInfo → List ShardGroupInfo} {d : Data} {now now' : Time}

/-! ## One entry -/

variable {database policy : String} {id : UInt64} {e : Entry} {clock : ℕ → Time} {es : List Entry}

theorem shardGroup_isSome : (d.shardGroup database policy id).isSome ↔
      ∃ di, d.database database = some di ∧ ∃ rpi, di.retentionPolicy policy = some rpi ∧
        ∃ sgi, rpi.shardGroups.find? (fun sgi => sgi.id == id) = some sgi := by
  simp only [isSome_iff_exists, shardGroup, bind, bind_eq_some_iff]
  constructor
  · rintro ⟨sgi, di, hdi, rpi, hrpi, hsgi⟩
    exact ⟨di, hdi, rpi, hrpi, sgi, hsgi⟩
  · rintro ⟨di, hdi, rpi, hrpi, sgi, hsgi⟩
    exact ⟨sgi, di, hdi, rpi, hrpi, hsgi⟩

theorem deleteShardGroup_eq_iff (d : Data) (now now' : Time) (database policy : String) (id : UInt64) :
    d.deleteShardGroup now database policy id = d.deleteShardGroup now' database policy id ↔
      ((d.shardGroup database policy id).isSome → now = now') := by
  have hdbs : Function.Injective (fun dbs => { d with databases := dbs }) :=
    fun a b h => congrArg Data.databases h
  have hrps : ∀ di : DatabaseInfo,
      Function.Injective (fun rps => [{ di with retentionPolicies := rps }]) :=
    fun di a b h => congrArg DatabaseInfo.retentionPolicies (singleton_inj.mp h)
  have hgroups : ∀ rpi : RetentionPolicyInfo,
      Function.Injective (fun groups => [{ rpi with shardGroups := groups }]) :=
    fun rpi a b h => congrArg RetentionPolicyInfo.shardGroups (singleton_inj.mp h)
  have htime : ∀ sgi : ShardGroupInfo, (Except.ok [{ sgi with deletedAt := now }] :
      Except MetaError (List ShardGroupInfo)) = .ok [{ sgi with deletedAt := now' }] ↔ now = now' := by
    intro sgi
    constructor
    · intro h
      exact congrArg ShardGroupInfo.deletedAt (singleton_inj.mp (Except.ok.inj h))
    · rintro rfl
      rfl
  unfold deleteShardGroup changePolicy changeDatabase
  rw [except_map_inj hdbs, changeFirst_eq_iff, shardGroup_isSome]
  simp only [except_map_inj (hrps _), changeFirst_eq_iff, except_map_inj (hgroups _), htime]
  constructor
  · rintro h ⟨di, hdi, rpi, hrpi, sgi, hsgi⟩
    exact h di hdi rpi hrpi sgi hsgi
  · intro h di hdi rpi hrpi sgi hsgi
    exact h ⟨di, hdi, rpi, hrpi, sgi, hsgi⟩

theorem deleteShardGroup_ok (now : Time) (h : (d.shardGroup database policy id).isSome) : ∃ dbs,
      d.deleteShardGroup now database policy id = .ok { d with databases := dbs } := by
  obtain ⟨di, hdi, rpi, hrpi, sgi, hsgi⟩ := shardGroup_isSome.mp h
  obtain ⟨groups, hgroups⟩ := changeFirst_ok (e := .shardGroupNotFound)
    (f := fun sgi => .ok [{ sgi with deletedAt := now }]) hsgi rfl
  obtain ⟨rps, hrps⟩ := changeFirst_ok (e := .retentionPolicyNotFound)
    (f := fun rpi => (changeFirst (fun sgi => sgi.id == id) .shardGroupNotFound
      (fun sgi => .ok [{ sgi with deletedAt := now }]) rpi.shardGroups).map
        (fun groups => [{ rpi with shardGroups := groups }])) hrpi (by rw [hgroups]; rfl)
  obtain ⟨dbs, hdbs⟩ := changeFirst_ok (e := .databaseNotFound)
    (f := fun di => (changeFirst (fun rpi => rpi.name == policy) .retentionPolicyNotFound
      (fun rpi => (changeFirst (fun sgi => sgi.id == id) .shardGroupNotFound
        (fun sgi => .ok [{ sgi with deletedAt := now }]) rpi.shardGroups).map
          (fun groups => [{ rpi with shardGroups := groups }])) di.retentionPolicies).map
            (fun rps => [{ di with retentionPolicies := rps }])) hdi (by rw [hrps]; rfl)
  exact ⟨dbs, by rw [deleteShardGroup, changePolicy, changeDatabase, hdbs]; rfl⟩

/-- **One entry at two times.** -/
theorem applyLog_eq_iff :
    d.applyLog sort now e = d.applyLog sort now' e ↔ (e.command.readsClock d → now = now') := by
  obtain ⟨term, index, command⟩ := e
  cases command with
  | deleteShardGroup database policy id =>
    have hiff := deleteShardGroup_eq_iff d now now' database policy id
    refine Iff.trans ⟨fun h => ?_, fun h => ?_⟩ hiff
    · by_cases hread : (d.shardGroup database policy id).isSome
      · obtain ⟨dbs, hdbs⟩ := deleteShardGroup_ok now hread
        obtain ⟨dbs', hdbs'⟩ := deleteShardGroup_ok now' hread
        simp only [applyLog, applyCommand, hdbs, hdbs', afterCommand, setPosition, some.injEq,
          mk.injEq, true_and, and_true] at h
        rw [hdbs, hdbs', h]
      · exact hiff.mpr (fun hread' => absurd hread' hread)
    · simp only [applyLog, applyCommand, h]
  | _ => exact iff_of_true rfl (fun h => absurd h Bool.false_ne_true)

/-! ## A log -/

theorem applyLogs_append {es' : List Entry} :
    d.applyLogs sort clock (es ++ es') = (d.applyLogs sort clock es).bind
        (fun d' => d'.applyLogs sort (fun n => clock (n + es.length)) es') := by
  induction es generalizing d clock with
  | nil => rfl
  | cons e es ih =>
    rw [cons_append, applyLogs, applyLogs, bind_assoc]
    congr 1
    funext d'
    rw [ih]
    simp only [length_cons, add_assoc]

theorem applyLogs_concat : d.applyLogs sort clock (es ++ [e]) =
      (d.applyLogs sort clock es).bind (fun d' => d'.applyLog sort (clock es.length) e) := by
  rw [applyLogs_append]
  congr 1
  funext d'
  rw [applyLogs, zero_add]
  cases d'.applyLog sort (clock es.length) e <;> rfl

end Data

/-- **Deterministic commands.** Two nodes with the same metadata still have the same
metadata after each entry of a log, including the times, exactly if their clocks show
the same whenever an entry deletes a shard group that is there. -/
theorem applyLogs_deterministic_iff (sort : List ShardGroupInfo → List ShardGroupInfo) (d : Data)
    (clock clock' : ℕ → Time) (es : List Entry) :
    (∀ n, d.applyLogs sort clock (es.take n) = d.applyLogs sort clock' (es.take n)) ↔
      ∀ n e d', es[n]? = some e → d.applyLogs sort clock (es.take n) = some d' →
        e.command.readsClock d' → clock n = clock' n := by
  have htake : ∀ {n e}, es[n]? = some e → es.take (n + 1) = es.take n ++ [e] ∧ (es.take n).length = n := by
    intro n e he
    rw [take_add_one, he]
    exact ⟨rfl, length_take_of_le (List.getElem?_eq_some_iff.mp he).1.le⟩
  constructor
  · intro h n e d' he hd' hreads
    obtain ⟨hsucc, hlen⟩ := htake he
    have hn := h (n + 1)
    rw [hsucc, Data.applyLogs_concat, Data.applyLogs_concat, ← h n, hd', hlen] at hn
    exact Data.applyLog_eq_iff.mp hn hreads
  · intro h n
    induction n with
    | zero => rfl
    | succ n ih =>
      cases he : es[n]? with
      | none => rw [take_add_one, he, toList_none, append_nil, ih]
      | some e =>
        obtain ⟨hsucc, hlen⟩ := htake he
        rw [hsucc, Data.applyLogs_concat, Data.applyLogs_concat, ← ih, hlen]
        cases hd' : d.applyLogs sort clock (es.take n) with
        | none => rfl
        | some d' => exact Data.applyLog_eq_iff.mpr (h n e d' he hd')

/-- A log that deletes a shard group: the clocks of the two nodes differ by a
nanosecond. -/
theorem applyLogs_not_deterministic : Data.empty.applyLogs id (fun n => n)
        [⟨1, 1, .createNode "n" 7⟩, ⟨1, 2, .createDatabase "db"⟩,
          ⟨1, 3, .createRetentionPolicy "db" "rp" 1 0 0⟩, ⟨1, 4, .createShardGroup "db" "rp" 1⟩,
          ⟨1, 5, .deleteShardGroup "db" "rp" 1⟩] ≠
      Data.empty.applyLogs id (fun n => n + 1)
        [⟨1, 1, .createNode "n" 7⟩, ⟨1, 2, .createDatabase "db"⟩,
          ⟨1, 3, .createRetentionPolicy "db" "rp" 1 0 0⟩, ⟨1, 4, .createShardGroup "db" "rp" 1⟩,
          ⟨1, 5, .deleteShardGroup "db" "rp" 1⟩] := by
  decide +kernel

end AndyEnv.Meta
