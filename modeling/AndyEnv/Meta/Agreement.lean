import AndyEnv.Meta.Replicas

/-!
# A node that follows the log

The metadata of a node has two writers. The raft log is applied to it entry by
entry, and snapshots of the leader replace it: `updateMetaData` compares the index
of the snapshot under one lock, and replaces the metadata under another. Neither
asks what the other one did: an entry is applied to metadata that may already
contain it, and a snapshot may be older than the metadata it replaces.
-/

namespace AndyEnv.Meta

open List Option

/-! ## The node -/

/-- The entries that the cluster agrees on. -/
structure Log : Type where
  entries : List Entry
  positive : ∀ e ∈ entries, 0 < e.index
  ascending : entries.Pairwise (fun e e' => e.index < e'.index)

structure Node : Type where
  /-- How many entries were applied. -/
  applied : ℕ
  data : Data
  /-- The snapshots that `updateMetaData` is about to take. -/
  fetched : List Data

/-- `NewStore`. -/
def Node.new : Node := ⟨0, Data.empty, []⟩

inductive NodeOp : Type
  /-- `storeFSM.Apply` of the next entry. -/
  | apply (now : Time)
  /-- `invalidate`, with the metadata of a leader that has applied the given number of
  entries, up to the comparison. -/
  | fetch (entries : ℕ)
  /-- The other half of `updateMetaData`. -/
  | replace (k : ℕ)

section

variable (sort : List ShardGroupInfo → List ShardGroupInfo)
  (order : List (String × Int64) → List (String × Int64)) (clock : ℕ → Time) (log : Log)

/-- The metadata after a number of entries, by the clock of the leader. -/
def Log.after (n : ℕ) : Option Data := Data.empty.applyLogs sort clock (log.entries.take n)

def Log.upTo (i : UInt64) : Option Data :=
  Data.empty.applyLogs sort clock (log.entries.takeWhile (fun e => e.index ≤ i))

/-- The metadata travels as a message. -/
def fetchMetaData (d : Data) : Data := Data.unmarshal (d.marshal order)

def Node.step (s : Node) : NodeOp → Option Node
  | .apply now =>
    match log.entries[s.applied]? with
    | none => none
    | some e => (s.data.applyLog sort now e).map
        (fun d => { s with applied := s.applied + 1, data := d })
  | .fetch entries =>
    (log.after sort clock entries).map (fun d =>
      if (fetchMetaData order d).index > s.data.index then
        { s with fetched := s.fetched ++ [fetchMetaData order d] }
      else s)
  | .replace k =>
    (s.fetched[k]?).map (fun ms => { s with data := ms, fetched := s.fetched.eraseIdx k })

def nodeSystem : System Node NodeOp where
  init s := s = Node.new
  step s op s' := s.step sort order clock log op = some s'

/-- The metadata is what the entries up to its index make. -/
def Node.Agrees (s : Node) : Prop := log.upTo sort clock s.data.index = some s.data

/-- The next entry is newer than the metadata, and a deletion happens at the same time
as on the leader; or it is the last entry that the metadata contains, and changes
nothing. A snapshot is at least as new as the metadata, and survives as a message. -/
def Node.InOrder (s : Node) : NodeOp → Prop
  | .apply now => ∀ e, log.entries[s.applied]? = some e →
      s.data.index < e.index ∧ (e.command.readsClock s.data → now = clock s.applied) ∨
        s.data.index = e.index ∧ s.data.applyLog sort now e = some s.data
  | .fetch _ => True
  | .replace k => ∀ ms, s.fetched[k]? = some ms →
      s.data.index ≤ ms.index ∧ ∀ d, log.upTo sort clock ms.index = some d → d.Survives

end

/-! ## Prefixes of the log -/

namespace Log

variable {sort : List ShardGroupInfo → List ShardGroupInfo} {clock : ℕ → Time} {log : Log}

variable {n : ℕ} {e : Entry}

theorem takeWhile_eq_take {i : UInt64} (hle : ∀ e ∈ log.entries.take n, e.index ≤ i)
    (hgt : ∀ e, log.entries[n]? = some e → i < e.index) :
    log.entries.takeWhile (fun e => e.index ≤ i) = log.entries.take n := by
  have hsplit := take_append_drop n log.entries
  conv_lhs => rw [← hsplit]
  rw [takeWhile_append_of_pos (fun e he => decide_eq_true (hle e he))]
  have hdrop : (log.entries.drop n).takeWhile (fun e => e.index ≤ i) = [] := by
    cases hd : log.entries.drop n with
    | nil => rfl
    | cons e es =>
      have he : log.entries[n]? = some e := by
        rw [← List.head?_drop, hd, List.head?_cons]
      exact takeWhile_cons_of_neg (by simpa using hgt e he)
  rw [hdrop, append_nil]

section

variable (he : log.entries[n]? = some e)
include he

theorem take_succ : log.entries.take (n + 1) = log.entries.take n ++ [e] := by
  rw [take_add_one, he]
  rfl

theorem index_lt : ∀ e' ∈ log.entries.take n, e'.index < e.index := by
  intro e' he'
  have hasc := log.ascending.sublist (take_sublist (n + 1) log.entries)
  rw [take_succ he, pairwise_append] at hasc
  exact hasc.2.2 e' he' e mem_cons_self

theorem index_lt_next {e' : Entry} (he' : log.entries[n + 1]? = some e') : e.index < e'.index := by
  apply index_lt he'
  rw [take_succ he]
  exact mem_append_right _ mem_cons_self

theorem index_le : ∀ e' ∈ log.entries.take (n + 1), e'.index ≤ e.index := by
  intro e' he'
  rw [take_succ he] at he'
  rcases mem_append.mp he' with he' | he'
  · exact UInt64.le_of_lt (index_lt he e' he')
  · rw [mem_singleton.mp he']
    exact UInt64.le_refl _

theorem takeWhile_index :
    log.entries.takeWhile (fun e' => e'.index ≤ e.index) = log.entries.take (n + 1) :=
  takeWhile_eq_take (index_le he) (fun _ he' => index_lt_next he he')

theorem length_take : (log.entries.take n).length = n :=
  length_take_of_le (List.getElem?_eq_some_iff.mp he).1.le

theorem after_succ (sort : List ShardGroupInfo → List ShardGroupInfo) (clock : ℕ → Time) :
    log.after sort clock (n + 1) =
      (log.after sort clock n).bind (fun d => d.applyLog sort (clock n) e) := by
  rw [after, take_succ he, Data.applyLogs_concat, length_take he]
  rfl

end

end Log

theorem Data.index_applyLog {sort : List ShardGroupInfo → List ShardGroupInfo} {now : Time} {d d' : Data}
    {e : Entry} (h : d.applyLog sort now e = some d') : d'.index = e.index := by
  unfold applyLog afterCommand at h
  split at h
  · rw [← some.inj h]
    rfl
  · cases h
  · rw [← some.inj h]
    rfl

namespace Log

variable {sort : List ShardGroupInfo → List ShardGroupInfo} {clock : ℕ → Time} {log : Log}

/-- The metadata of the leader is what the entries up to its index make. -/
theorem upTo_index_of_after {n : ℕ} {d : Data} (h : log.after sort clock n = some d) :
    log.upTo sort clock d.index = some d := by
  induction n with
  | zero =>
    obtain rfl := some.inj h
    have htake : log.entries.takeWhile (fun e => e.index ≤ Data.empty.index) = log.entries.take 0 :=
      takeWhile_eq_take (fun e he => absurd he not_mem_nil)
        (fun e he => log.positive e (mem_of_getElem? he))
    rw [upTo, htake]
    rfl
  | succ n ih =>
    cases he : log.entries[n]? with
    | none =>
      apply ih
      rwa [after, take_add_one, he, toList_none, append_nil] at h
    | some e =>
      have hbind := after_succ he sort clock
      rw [h] at hbind
      obtain ⟨d₀, -, hd⟩ := bind_eq_some_iff.mp hbind.symm
      rw [upTo, Data.index_applyLog hd, takeWhile_index he]
      exact h

end Log

/-! ## The steps -/

namespace Node

variable {sort : List ShardGroupInfo → List ShardGroupInfo}
  {order : List (String × Int64) → List (String × Int64)} {clock : ℕ → Time} {log : Log} {s s' : Node}

variable (sort order clock log) in
structure Follows (s : Node) : Prop where
  agrees : s.Agrees sort clock log
  /-- What was applied is contained. -/
  applied : ∀ e ∈ log.entries.take s.applied, e.index ≤ s.data.index
  /-- A snapshot comes from metadata that agrees. -/
  fetched : ∀ ms ∈ s.fetched, ∃ d, log.upTo sort clock ms.index = some d ∧ ms = fetchMetaData order d

theorem step_apply {now : Time} (h : s.step sort order clock log (.apply now) = some s') :
    ∃ e, log.entries[s.applied]? = some e ∧ ∃ d, s.data.applyLog sort now e = some d ∧
      s' = { s with applied := s.applied + 1, data := d } := by
  simp only [step] at h
  split at h
  · cases h
  · rename_i e he
    obtain ⟨d, hd, rfl⟩ := map_eq_some_iff.mp h
    exact ⟨e, he, d, hd, rfl⟩

theorem step_replace {k : ℕ} (h : s.step sort order clock log (.replace k) = some s') :
    ∃ ms, s.fetched[k]? = some ms ∧ s' = { s with data := ms, fetched := s.fetched.eraseIdx k } := by
  obtain ⟨ms, hms, rfl⟩ := map_eq_some_iff.mp h
  exact ⟨ms, hms, rfl⟩

section

variable (h : s.Follows sort order clock log)
include h

variable {e : Entry} {op : NodeOp}

/-- The metadata that contains no more than was applied. -/
theorem Follows.after (he : log.entries[s.applied]? = some e) (hnew : s.data.index < e.index) :
    log.after sort clock s.applied = some s.data := by
  have hagrees := h.agrees
  rwa [Agrees, Log.upTo, Log.takeWhile_eq_take h.applied] at hagrees
  intro e' he'
  rw [he] at he'
  rwa [← some.inj he']

theorem Follows.upTo_next (he : log.entries[s.applied]? = some e) (hnew : s.data.index < e.index) :
    log.upTo sort clock e.index = s.data.applyLog sort (clock s.applied) e := by
  have hsucc := Log.after_succ he sort clock
  rw [h.after he hnew] at hsucc
  rw [Log.upTo, Log.takeWhile_index he]
  exact hsucc

/-- The entry is applied in order, or the metadata no longer agrees or goes back. -/
theorem Follows.apply_iff {now : Time}
    (hstep : s.step sort order clock log (.apply now) = some s') :
    s'.Agrees sort clock log ∧ s.data.index ≤ s'.data.index ↔
      s.InOrder sort clock log (.apply now) := by
  obtain ⟨e, he, d, hd, rfl⟩ := step_apply hstep
  have hindex := Data.index_applyLog hd
  have hcond : s.InOrder sort clock log (.apply now) ↔
      s.data.index < e.index ∧ (e.command.readsClock s.data → now = clock s.applied) ∨
        s.data.index = e.index ∧ s.data.applyLog sort now e = some s.data := by
    constructor
    · intro hin
      exact hin e he
    · intro hin e' he'
      rw [he] at he'
      rwa [← some.inj he']
  rw [hcond, Agrees]
  simp only [hindex]
  by_cases heq : s.data.index = e.index
  · -- the entry is applied again
    have hagrees : log.upTo sort clock e.index = some s.data := heq ▸ h.agrees
    rw [hagrees, hd, some.injEq, some.injEq]
    constructor
    · rintro ⟨hd, -⟩
      exact .inr ⟨heq, hd.symm⟩
    · rintro (⟨hlt, -⟩ | ⟨-, hd⟩)
      · exact absurd heq (UInt64.ne_of_lt hlt)
      · exact ⟨hd.symm, UInt64.le_of_eq heq⟩
  · rcases UInt64.lt_or_lt_of_ne heq with hlt | hgt
    · rw [h.upTo_next he hlt, ← hd, eq_comm, Data.applyLog_eq_iff]
      constructor
      · rintro ⟨hread, -⟩
        exact .inl ⟨hlt, hread⟩
      · rintro (⟨-, hread⟩ | ⟨heq', -⟩)
        · exact ⟨hread, UInt64.le_of_lt hlt⟩
        · exact absurd heq' heq
    · -- the index of the metadata goes back
      refine iff_of_false (fun hr => UInt64.not_le.mpr hgt hr.2) ?_
      rintro (⟨hlt, -⟩ | ⟨heq', -⟩)
      · exact UInt64.lt_asymm hgt hlt
      · exact heq heq'

/-- The snapshot replaces older metadata and survives, or the metadata no longer
agrees or goes back. -/
theorem Follows.replace_iff (horder : ∀ l, (order l).Perm l) {k : ℕ}
    (hstep : s.step sort order clock log (.replace k) = some s') :
    s'.Agrees sort clock log ∧ s.data.index ≤ s'.data.index ↔
      s.InOrder sort clock log (.replace k) := by
  obtain ⟨ms, hms, rfl⟩ := step_replace hstep
  obtain ⟨d, hd, hfetch⟩ := h.fetched ms (mem_of_getElem? hms)
  have hsurvives : log.upTo sort clock ms.index = some ms ↔ d.Survives := by
    rw [hd, some.injEq, eq_comm, ← Data.unmarshal_marshal_iff order horder d, hfetch]
    rfl
  rw [Agrees, hsurvives]
  constructor
  · rintro ⟨hd', hle⟩ ms' hms'
    rw [hms] at hms'
    obtain rfl := some.inj hms'
    refine ⟨hle, fun d'' hd'' => ?_⟩
    rw [hd] at hd''
    rwa [← some.inj hd'']
  · intro hin
    obtain ⟨hle, hd'⟩ := hin ms hms
    exact ⟨hd' d hd, hle⟩

theorem Follows.fetch {n : ℕ} (hstep : s.step sort order clock log (.fetch n) = some s') :
    s'.Follows sort order clock log ∧ s'.data = s.data := by
  obtain ⟨d, hd, hs'⟩ := map_eq_some_iff.mp hstep
  split at hs'
  · obtain rfl := hs'
    exact ⟨⟨h.agrees, h.applied, forall_mem_append.mpr
      ⟨h.fetched, forall_mem_singleton.mpr ⟨d, Log.upTo_index_of_after hd, rfl⟩⟩⟩, rfl⟩
  · obtain rfl := hs'
    exact ⟨h, rfl⟩

/-- **A step keeps agreement and goes forward exactly if it is in order.** -/
theorem Follows.step_iff (horder : ∀ l, (order l).Perm l)
    (hstep : s.step sort order clock log op = some s') :
    s'.Agrees sort clock log ∧ s.data.index ≤ s'.data.index ↔ s.InOrder sort clock log op := by
  cases op with
  | apply now => exact h.apply_iff hstep
  | fetch n =>
    obtain ⟨h', hdata⟩ := h.fetch hstep
    exact iff_of_true ⟨h'.agrees, UInt64.le_of_eq (congrArg Data.index hdata.symm)⟩ trivial
  | replace k => exact h.replace_iff horder hstep

theorem Follows.step (horder : ∀ l, (order l).Perm l)
    (hin : s.InOrder sort clock log op) (hstep : s.step sort order clock log op = some s') :
    s'.Follows sort order clock log := by
  obtain ⟨hagrees, hle⟩ := (h.step_iff horder hstep).mpr hin
  cases op with
  | apply now =>
    obtain ⟨e, he, d, hd, rfl⟩ := step_apply hstep
    refine ⟨hagrees, fun e' he' => ?_, h.fetched⟩
    dsimp only
    rw [Data.index_applyLog hd]
    exact Log.index_le he e' he'
  | fetch n => exact (h.fetch hstep).1
  | replace k =>
    obtain ⟨ms, hms, rfl⟩ := step_replace hstep
    refine ⟨hagrees, fun e he => UInt64.le_trans (h.applied e he) hle, fun ms' hms' => ?_⟩
    exact h.fetched ms' (mem_of_mem_eraseIdx hms')

end

theorem follows_new : Node.new.Follows sort order clock log :=
  ⟨Log.upTo_index_of_after (n := 0) rfl, fun _ he => absurd he not_mem_nil,
    fun _ hms => absurd hms not_mem_nil⟩

end Node

/-- **Metadata agrees with the log.** In a run whose steps are all in order the metadata
is what the entries up to its index make; the next step keeps this, and does not take
the index back, exactly if it is in order too. -/
theorem metadata_agrees_iff (sort : List ShardGroupInfo → List ShardGroupInfo)
    (order : List (String × Int64) → List (String × Int64)) (horder : ∀ l, (order l).Perm l)
    (clock : ℕ → Time) (log : Log) (s : Node)
    (hs : (nodeSystem sort order clock log).Reaches (fun s op => s.InOrder sort clock log op) s) :
    s.Agrees sort clock log ∧ ∀ op s', s.step sort order clock log op = some s' →
      (s'.Agrees sort clock log ∧ s.data.index ≤ s'.data.index ↔ s.InOrder sort clock log op) := by
  have hfollows : s.Follows sort order clock log := by
    refine hs.invariant (I := Node.Follows sort order clock log) (fun s hs => ?_)
      (fun s op s' h hin hstep => h.step horder hin hstep)
    rw [show s = Node.new from hs]
    exact Node.follows_new
  exact ⟨hfollows.agrees, fun op s' hstep => hfollows.step_iff horder hstep⟩

def twoDatabases : Log where
  entries := [⟨1, 1, .createDatabase "a"⟩, ⟨1, 2, .createDatabase "b"⟩]
  positive := by decide
  ascending := by decide

/-- The node applies the first entry and takes the second one from the leader. -/
theorem metadata_agrees_fetched : ∃ s : Node, s.data.index = 2 ∧
    s.Agrees id (fun _ => 0) twoDatabases := by
  let applied : Node := ⟨1, ⟨1, 1, 0, [], [⟨"a", "", [], []⟩], [], 0, 0, 0⟩, []⟩
  let snapshot : Data := ⟨1, 2, 0, [], [⟨"a", "", [], []⟩, ⟨"b", "", [], []⟩], [], 0, 0, 0⟩
  let fetched : Node := { applied with fetched := [snapshot] }
  have happlied : (nodeSystem id id (fun _ => 0) twoDatabases).Reaches
      (fun s op => s.InOrder id (fun _ => 0) twoDatabases op) applied := by
    refine .step (l := .apply 0) (.init rfl) (fun e he => ?_) rfl
    obtain rfl := some.inj he
    exact .inl ⟨by decide, nofun⟩
  have hfetched : (nodeSystem id id (fun _ => 0) twoDatabases).Reaches
      (fun s op => s.InOrder id (fun _ => 0) twoDatabases op) fetched :=
    .step (l := .fetch 2) happlied trivial (by rfl)
  refine ⟨⟨1, snapshot, []⟩, rfl, (metadata_agrees_iff id id (fun _ => .refl _) (fun _ => 0) twoDatabases
    _ (.step (l := .replace 0) hfetched (fun ms hms => ?_) rfl)).1⟩
  obtain rfl := some.inj hms
  refine ⟨by decide, fun d hd => ?_⟩
  obtain rfl : snapshot = d := some.inj hd
  have hempty : ∀ di ∈ snapshot.databases, di.retentionPolicies = [] := by
    rw [forall_mem_cons, forall_mem_singleton]
    exact ⟨rfl, rfl⟩
  refine ⟨fun di hdi rpi hrpi => ?_, nofun⟩
  rw [hempty di hdi] at hrpi
  cases hrpi

/-- An entry is applied to metadata that contains it; and a snapshot that was newer when it was
compared replaces newer metadata. -/
theorem metadata_not_agrees :
    (∃ s s' : Node, (nodeSystem id id (fun _ => 0) twoDatabases).Reachable s ∧
      s.step id id (fun _ => 0) twoDatabases (.apply 0) = some s' ∧ s.data.index = 2 ∧
      s'.data.index = 1 ∧ ¬s'.Agrees id (fun _ => 0) twoDatabases) ∧
    ∃ s s' : Node, (nodeSystem id id (fun _ => 0) twoDatabases).Reachable s ∧
      s.step id id (fun _ => 0) twoDatabases (.replace 0) = some s' ∧ s.data.index = 2 ∧
      s'.data.index = 1 := by
  constructor
  · refine ⟨_, _, .step (l := .replace 0) (.step (l := .fetch 2) (.init rfl) trivial rfl) trivial rfl,
      rfl, rfl, rfl, ?_⟩
    unfold Node.Agrees
    decide +kernel
  · exact ⟨_, _, .step (l := .apply 0) (.step (l := .apply 0) (.step (l := .fetch 1) (.init rfl)
      trivial rfl) trivial rfl) trivial rfl, rfl, rfl, rfl⟩

end AndyEnv.Meta
