import AndyEnv.Wal.StepFacts

/-!
# Deleted series

`DeleteSeries` removes the series from the cache. Their points are in the segment files
as well, and those go only if the flush that follows runs to its end. The flush does
not run when a compaction is running already, and it does nothing when the cache is
empty; `DeleteSeries` returns nil all the same, and the next `Open` hands the points to
the index. So the points are gone for good exactly if the flush runs, or there were
none of them left to hand out.
-/

namespace AndyEnv.Wal

open List Step Option

variable {cfg : Config} {s s' : State} {op : Op}

/-- A point of a deleted series that was written before the call. -/
def Delete.Dead (d : Delete) (p : Point) : Prop := p.key ∈ d.keys ∧ p.block < d.before

/-- Since the call returned, the index was handed no point that it deleted. -/
def StaysDeleted (d : Delete) (s : State) : Prop :=
  ∀ x ∈ s.deleted, x.delete = d → ∀ p ∈ x.handed, ¬ d.Dead p

/-- The condition, when `DeleteSeries` calls `flushAndCompact`: no compaction is running
and a series is cached; or neither the segment files nor a running flush have a point
that it deletes. -/
def Clears (d : Delete) (s : State) (r : Running) : Prop :=
  r.partition.compactionRunning = false ∧ r.partition.cache.entries ≠ [] ∨
    (∀ id blocks, s.dir.lookup id = some blocks → ∀ b ∈ blocks, ∀ p ∈ b, ¬ d.Dead p) ∧
      ∀ p, r.Flushes p → ¬ d.Dead p

/-! ## What holds before the flush -/

/-- The calls of `DeleteSeries` that are over, and the one that is at work. -/
structure DeleteInv (s : State) : Prop where
  calls : ∀ x ∈ s.deleted, x.delete.call < s.deletes
  keyed : ∀ r, s.phase = .running r → ∀ k, ∀ p ∈ r.partition.cache.points k, p.key = k
  flushing : ∀ r f d, s.phase = .running r → r.flush = some f → f.delete = some d →
    d.call < s.deletes
  exclusive : ∀ r f d, s.phase = .running r → r.deleting = some d → r.flush = some f →
    f.delete = none
  deleting : ∀ r d, s.phase = .running r → r.deleting = some d →
    d.call < s.deletes ∧ d.before ≤ s.blocks ∧ (∀ x ∈ s.deleted, x.delete ≠ d) ∧
      ∀ p, r.Has p → ¬ d.Dead p

theorem keyed_beginFlush {r r' : Running} {type : FlushType} {d : Option Delete}
    (h : ∀ k, ∀ p ∈ r.partition.cache.points k, p.key = k)
    (hr' : (beginFlush cfg s r type d).phase = .running r') :
    ∀ k, ∀ p ∈ r'.partition.cache.points k, p.key = k := by
  intro k p hp
  rcases running_beginFlush hr' with rfl | ⟨q, dir, c, hq, rfl | rfl⟩
  · exact h k p hp
  all_goals exact (hq.not_mem_cache hp).elim

theorem Step.keyed (h : Step cfg s op s')
    (hs : ∀ r, s.phase = .running r → ∀ k, ∀ p ∈ r.partition.cache.points k, p.key = k) :
    ∀ r', s'.phase = .running r' → ∀ k, ∀ p ∈ r'.partition.cache.points k, p.key = k := by
  intro r' hr' k p hp
  cases h with (try cases hr')
  | opened h => cases hp
  | writeFails h => exact hs r' hr' k p hp
  | @writeBlock r pp pps written block h hw hb =>
    rw [r.partition.cache_writeBlock cfg s.dir block] at hp
    exact hs r h k p hp
  | @addToCache r remaining pps written h hw =>
    rw [Partition.points_foldl_addToCache, mem_append] at hp
    rcases hp with hp | hp
    · exact hs r h k p hp
    · exact (mem_pointsOf.mp hp).2
  | @deleteSeries r keys h hw hd hf =>
    rw [Partition.points_deleteKeys] at hp
    split at hp
    · cases hp
    · exact hs r h k p hp
  | @deleteFlush r d h hw hd =>
    exact keyed_beginFlush (r := { r with deleting := none }) (hs r h) hr' k p hp
  | @flush r type h hw => exact keyed_beginFlush (hs r h) hr' k p hp
  | write h | lock h | writeReturns h | writeIndex h | clearFlushCache h | listSegments h
  | stopRemoving h | removeSegment h | endFlush h =>
    exact hs _ h k p hp

namespace DeleteInv

theorem init : DeleteInv State.init where
  calls x hx := by cases hx
  keyed r hr := by cases hr
  flushing r f d hr := by cases hr
  exclusive r f d hr := by cases hr
  deleting r d hr := by cases hr

theorem call_lt_of_returns (h : DeleteInv s) {d : Delete} (hd : Returns s op d) :
    d.call < s.deletes := by
  obtain ⟨r, hr, ⟨-, hd⟩ | ⟨-, f, hf, hd, -⟩⟩ := hd
  · exact (h.deleting r d hr hd).1
  · exact h.flushing r f d hr hf hd

/-- **One step** of the calls. -/
theorem step (h : DeleteInv s) (hf : FilesInv s) (hstep : Step cfg s op s') : DeleteInv s' := by
  obtain ⟨hblocks, hdeletes⟩ := hstep.counts_le
  have hcalls : ∀ x ∈ s'.deleted, x.delete.call < s.deletes := by
    intro x' hx'
    rcases hstep.deleted_cases hf x' hx' with ⟨-, hret⟩ | ⟨x, hx, heq, -⟩
    · exact h.call_lt_of_returns hret
    · rw [← heq]
      exact h.calls x hx
  refine ⟨fun x hx => lt_of_lt_of_le (hcalls x hx) hdeletes, hstep.keyed h.keyed, ?_, ?_, ?_⟩
  · intro r' f' d hr' hf' hd
    obtain ⟨r, hr, ⟨f, hflush, hd⟩ | ⟨-, hd⟩⟩ := hstep.flushDelete_cases hr' hf' hd
    · exact lt_of_lt_of_le (h.flushing r f d hr hflush hd) hdeletes
    · exact lt_of_lt_of_le (h.deleting r d hr hd).1 hdeletes
  · intro r' f' d hr' hd hf'
    cases hdel : f'.delete with
    | none => rfl
    | some d' =>
      obtain ⟨r, hr, hcase⟩ := hstep.flushDelete_cases hr' hf' hdel
      rcases hstep.deleting_cases hr' hd with ⟨r₁, hr₁, hd₁, hop⟩ | ⟨r₁, keys, hr₁, -, hbind, -, -, -, hflush, -⟩
      · rcases hcase with ⟨f, hf, hfd⟩ | ⟨hop', -⟩
        · rw [hr] at hr₁
          cases hr₁
          rw [h.exclusive r f d hr hd₁ hf] at hfd
          cases hfd
        · exact absurd hop' hop
      · rw [← hflush, hf'] at hbind
        exact absurd (hdel.symm.trans hbind) (by simp)
  · intro r' d hr' hd
    rcases hstep.deleting_cases hr' hd with
      ⟨r, hr, hd₁, hop⟩ | ⟨r, keys, hr, hw, -, hnext, rfl, hpart, -, hw'⟩
    · obtain ⟨hcall, hbefore, hnot, hhas⟩ := h.deleting r d hr hd₁
      refine ⟨lt_of_lt_of_le hcall hdeletes, hbefore.trans hblocks, ?_, ?_⟩
      · rintro x' hx' rfl
        rcases hstep.deleted_cases hf x' hx' with ⟨-, hret⟩ | ⟨x, hx, heq, -⟩
        · -- the call that returns is another one
          obtain ⟨r₁, hr₁, ⟨hop', -⟩ | ⟨-, f, hflush, hfd, -⟩⟩ := hret
          · exact hop hop'
          · rw [hr] at hr₁
            cases hr₁
            rw [h.exclusive r f _ hr hd₁ hflush] at hfd
            cases hfd
        · exact hnot x hx heq
      · intro p hp hdead
        rcases hstep.has_cases hr' hp with ⟨r₁, hr₁, hp⟩ | hp
        · rw [hr] at hr₁
          cases hr₁
          exact hhas p hp hdead
        · exact absurd hdead.2 (not_lt.mpr (hp ▸ hbefore))
    · refine ⟨?_, hblocks, ?_, ?_⟩
      · rw [hnext]
        exact Nat.lt_succ_self _
      · intro x hx heq
        have hlt := hcalls x hx
        rw [heq] at hlt
        exact lt_irrefl _ hlt
      · rintro p (⟨k, hk⟩ | hp) hdead
        · rw [hpart, Partition.points_deleteKeys] at hk
          split at hk
          · cases hk
          · rename_i hnot
            rw [← h.keyed r hr k p hk] at hnot
            exact hnot hdead.1
        · rw [Running.pending, hw'] at hp
          cases hp

end DeleteInv

/-! ## What holds after it -/

def Gone (d : Delete) (s : State) : Prop :=
  (∀ x ∈ s.logged, ∀ p ∈ x.2, ¬ d.Dead p) ∧
    ∀ r, s.phase = .running r → ∀ p, r.Has p ∨ r.Flushes p → ¬ d.Dead p

/-- The flush of the call removes the files in which they are. -/
def Removing (d : Delete) (s : State) : Prop :=
  ∃ r f, s.phase = .running r ∧ r.flush = some f ∧ f.delete = some d ∧ r.deleting = none ∧
    (∀ p, r.Has p → ¬ d.Dead p) ∧
    ∀ x ∈ s.logged, f.info.compactFilesLessThan ≤ x.1 → ∀ p ∈ x.2, ¬ d.Dead p

/-- The call will not return any more. -/
def Lost (d : Delete) (s : State) : Prop :=
  ∀ r, s.phase = .running r → r.deleting ≠ some d ∧ ∀ f, r.flush = some f → f.delete ≠ some d

structure Flushed (d : Delete) (s : State) : Prop where
  call : d.call < s.deletes
  before : d.before ≤ s.blocks
  stays : StaysDeleted d s
  progress : Gone d s ∨ (∀ x ∈ s.deleted, x.delete ≠ d) ∧ (Removing d s ∨ Lost d s)

namespace Flushed

variable {d : Delete}

theorem not_dead_of_block (h : d.before ≤ s.blocks) {p : Point} (hp : p.block = s.blocks) :
    ¬ d.Dead p :=
  fun hdead => absurd hdead.2 (not_lt.mpr (hp ▸ h))

theorem step_of_gone (hbefore : d.before ≤ s.blocks) (hstays : StaysDeleted d s) (hgone : Gone d s)
    (hf : FilesInv s) (hstep : Step cfg s op s') : StaysDeleted d s' ∧ Gone d s' := by
  refine ⟨?_, ?_, ?_⟩
  · intro x' hx' hd p hp
    rcases hstep.deleted_cases hf x' hx' with ⟨hnil, -⟩ | ⟨x, hx, heq, hhanded⟩
    · rw [hnil] at hp
      cases hp
    · rcases hhanded p hp with hp | ⟨y, hy, hp⟩ | ⟨r, hr, hp⟩
      · exact hstays x hx (heq.trans hd) p hp
      · exact hgone.1 y hy p hp
      · exact hgone.2 r hr p (.inr hp)
  · intro x' hx' p hp
    rcases hstep.logged_cases x' hx' with hx | hnew
    · exact hgone.1 x' hx p hp
    · exact not_dead_of_block hbefore (hnew p hp)
  · intro r' hr' p hp
    rcases hp with hp | hp
    · rcases hstep.has_cases hr' hp with ⟨r, hr, hp⟩ | hnew
      · exact hgone.2 r hr p (.inl hp)
      · exact not_dead_of_block hbefore hnew
    · obtain ⟨r, hr, hp⟩ := hstep.flushes_cases hr' hp
      exact hgone.2 r hr p hp

theorem step_of_lost (hcall : d.call < s.deletes) (hnot : ∀ x ∈ s.deleted, x.delete ≠ d)
    (hlost : Lost d s) (hf : FilesInv s) (hstep : Step cfg s op s') :
    (∀ x ∈ s'.deleted, x.delete ≠ d) ∧ Lost d s' := by
  constructor
  · rintro x' hx' rfl
    rcases hstep.deleted_cases hf x' hx' with ⟨-, r, hr, hret⟩ | ⟨x, hx, heq, -⟩
    · rcases hret with ⟨-, hd⟩ | ⟨-, f, hflush, hd, -⟩
      · exact (hlost r hr).1 hd
      · exact (hlost r hr).2 f hflush hd
    · exact hnot x hx heq
  · intro r' hr'
    constructor
    · intro hd
      rcases hstep.deleting_cases hr' hd with ⟨r, hr, hd, -⟩ | ⟨r, keys, hr, -, -, -, rfl, -⟩
      · exact (hlost r hr).1 hd
      · exact lt_irrefl _ hcall
    · intro f' hf' hd
      obtain ⟨r, hr, ⟨f, hflush, hd⟩ | ⟨-, hd⟩⟩ := hstep.flushDelete_cases hr' hf' hd
      · exact (hlost r hr).2 f hflush hd
      · exact (hlost r hr).1 hd

theorem step_of_removing (hbefore : d.before ≤ s.blocks) (hnot : ∀ x ∈ s.deleted, x.delete ≠ d)
    (hremoving : Removing d s) (hf : FilesInv s) (hstep : Step cfg s op s') : StaysDeleted d s' ∧
      (Gone d s' ∨ (∀ x ∈ s'.deleted, x.delete ≠ d) ∧ (Removing d s' ∨ Lost d s')) := by
  obtain ⟨r, f, hr, hflush, hdel, hidle, hhas, hnewer⟩ := hremoving
  have hhas' : ∀ r', s'.phase = .running r' → ∀ p, r'.Has p → ¬ d.Dead p := by
    intro r' hr' p hp
    rcases hstep.has_cases hr' hp with ⟨r₁, hr₁, hp⟩ | hnew
    · cases running_unique hr hr₁
      exact hhas p hp
    · exact not_dead_of_block hbefore hnew
  -- the call returns only at the end of its flush
  have hreturns : ∀ x' ∈ s'.deleted, x'.delete = d → op = .endFlush ∧ x'.handed = [] := by
    rintro x' hx' rfl
    rcases hstep.deleted_cases hf x' hx' with ⟨hnil, r₁, hr₁, hret⟩ | ⟨x, hx, heq, -⟩
    · cases running_unique hr hr₁
      rcases hret with ⟨-, hd⟩ | ⟨hop, -⟩
      · rw [hidle] at hd
        cases hd
      · exact ⟨hop, hnil⟩
    · exact absurd heq (hnot x hx)
  have hnot' : op ≠ .endFlush → ∀ x ∈ s'.deleted, x.delete ≠ d :=
    fun hop x hx heq => hop (hreturns x hx heq).1
  constructor
  · intro x' hx' hd p hp
    rw [(hreturns x' hx' hd).2] at hp
    cases hp
  · rcases hstep.flush_cases hf hr hflush with
      ⟨rfl, hclosed⟩ | ⟨hop, hstage, hlogged, r', hr', hnone⟩ | ⟨r', f', hr', hf', hinfo, hdel', hidle'⟩
    · refine .inr ⟨hnot' Op.noConfusion, .inr (fun r' hr' => ?_)⟩
      rw [hclosed] at hr'
      cases hr'
    · left
      refine ⟨?_, ?_⟩
      · intro x hx
        rw [hlogged] at hx
        apply hnewer x hx
        -- the flush has removed all files before the limit
        by_contra hlt
        have hphase := hf.phase
        rw [hr] at hphase
        cases ((hphase.2 f hflush).2.2 _ hstage).2 x.1 (hf.files.present x hx) (not_le.mp hlt)
      · rintro r₁ hr₁ p (hp | ⟨f', hf', -⟩)
        · exact hhas' r₁ hr₁ p hp
        · rw [hr'] at hr₁
          cases hr₁
          rw [hnone] at hf'
          cases hf'
    · by_cases hop : op = .endFlush
      · subst hop
        cases hstep with
        | endFlush hs hw hend =>
          cases hr'
          cases hf'
      · refine .inr ⟨hnot' hop, .inl ⟨r', f', hr', hf', hdel'.trans hdel, ?_, hhas' r' hr', ?_⟩⟩
        · exact hidle' hidle (by rw [hdel]; exact some_ne_none d)
        · intro x hx hle p hp
          rcases hstep.logged_cases x hx with hx | hnew
          · exact hnewer x hx (hinfo ▸ hle) p hp
          · exact not_dead_of_block hbefore (hnew p hp)

/-- **One step** after the flush of the call has begun. -/
theorem step (h : Flushed d s) (hf : FilesInv s) (hstep : Step cfg s op s') : Flushed d s' := by
  obtain ⟨hblocks, hdeletes⟩ := hstep.counts_le
  have hcall := lt_of_lt_of_le h.call hdeletes
  have hbefore := h.before.trans hblocks
  rcases h.progress with hgone | ⟨hnot, hremoving | hlost⟩
  · obtain ⟨hstays, hgone⟩ := step_of_gone h.before h.stays hgone hf hstep
    exact ⟨hcall, hbefore, hstays, .inl hgone⟩
  · obtain ⟨hstays, hprogress⟩ := step_of_removing h.before hnot hremoving hf hstep
    exact ⟨hcall, hbefore, hstays, hprogress⟩
  · obtain ⟨hnot, hlost⟩ := step_of_lost h.call hnot hlost hf hstep
    exact ⟨hcall, hbefore, fun x hx heq => absurd heq (hnot x hx), .inr ⟨hnot, .inr hlost⟩⟩

end Flushed

/-! ## The flush of the call -/

theorem compactionRunning_of_error {p : Partition} {dir : Dir (List Point)} {e : FlushError}
    (h : p.prepareSeriesToFlush cfg dir .delete = .error e) : p.compactionRunning = true := by
  unfold Partition.prepareSeriesToFlush at h
  split at h
  · rename_i hrun
    exact hrun
  · split at h
    · rename_i hmem
      cases hmem.1
    · cases h

theorem entries_foldl_insert_ne_nil (l : List (Sigma (fun _ : Bytes => CacheEntry))) (m : Series)
    (h : m.entries ≠ [] ∨ l ≠ []) :
    (l.foldl (fun m e => m.insert e.1 e.2.points) m).entries ≠ [] := by
  induction l generalizing m with
  | nil => exact h.resolve_right (fun hne => hne rfl)
  | cons e l ih => exact ih _ (.inl (by simp [AList.insert]))

theorem Partition.cachedSeries_eq_nil_iff (p : Partition) :
    p.cachedSeries.entries = [] ↔ p.cache.entries = [] := by
  constructor
  · intro h
    by_contra hne
    exact entries_foldl_insert_ne_nil p.cache.entries ∅ (.inr hne) h
  · intro h
    rw [cachedSeries, h]
    rfl

section Call

variable {d : Delete} {r : Running}

/-- The points of the files, as the directory has them and as they were logged. -/
theorem FilesInv.forall_logged_iff (h : FilesInv s) {P : Point → Prop} :
    (∀ x ∈ s.logged, ∀ p ∈ x.2, P p) ↔
      ∀ id blocks, s.dir.lookup id = some blocks → ∀ b ∈ blocks, ∀ p ∈ b, P p := by
  constructor
  · intro hall id blocks hlook b hb p hp
    rw [h.files.content hlook] at hb
    obtain ⟨x, hx, rfl⟩ := mem_map.mp hb
    exact hall x (mem_filter.mp hx).1 p hp
  · intro hall x hx p hp
    obtain ⟨blocks, hlook⟩ := isSome_iff_exists.mp (h.files.present x hx)
    refine hall x.1 blocks hlook x.2 ?_ p hp
    rw [h.files.content hlook]
    exact mem_map.mpr ⟨x, mem_filter.mpr ⟨hx, decide_eq_true rfl⟩, rfl⟩

/-- **The flush of the call** under the condition. -/
theorem Flushed.of_clears (hf : FilesInv s) (hinv : DeleteInv s) (hr : s.phase = .running r)
    (hw : r.writing = none) (hd : r.deleting = some d) (hclears : Clears d s r) :
    Flushed d (beginFlush cfg s { r with deleting := none } .delete (some d)) := by
  obtain ⟨hcall, hbefore, hnot, hhas⟩ := hinv.deleting r d hr hd
  have hphase := hf.phase
  rw [hr] at hphase
  have hpending : r.pending = [] := by
    rw [Running.pending, hw]
    rfl
  have hreturned : ∀ x ∈ s.deleted ++ [⟨d, []⟩], x.delete = d → x.handed = [] :=
    forall_mem_append.mpr ⟨fun x hx heq => absurd heq (hnot x hx), forall_mem_singleton.mpr (fun _ => rfl)⟩
  have hstays : ∀ x ∈ s.deleted ++ [⟨d, []⟩], x.delete = d → ∀ p ∈ x.handed, ¬ d.Dead p := by
    intro x hx heq p hp
    rw [hreturned x hx heq] at hp
    cases hp
  rcases beginFlush_cases cfg s { r with deleting := none } .delete (some d) with
    ⟨e, he, heq⟩ | ⟨p, dir, c, hp, ⟨hempty, heq⟩ | ⟨-, heq⟩⟩
  · have hrun := compactionRunning_of_error he
    rcases hclears with ⟨hidle, -⟩ | ⟨hdisk, hflushes⟩
    · exact absurd (hrun.symm.trans hidle) Bool.noConfusion
    rw [heq]
    refine ⟨hcall, hbefore, hstays, .inl ⟨hf.forall_logged_iff.mpr hdisk, ?_⟩⟩
    intro r' hr' q hq
    cases hr'
    exact hq.elim (hhas q) (hflushes q)
  · rw [hp.series, Partition.cachedSeries_eq_nil_iff] at hempty
    rcases hclears with ⟨-, hne⟩ | ⟨hdisk, hflushes⟩
    · exact absurd hempty hne
    rw [heq]
    refine ⟨hcall, hbefore, hstays, .inl ⟨hf.forall_logged_iff.mpr hdisk, ?_⟩⟩
    intro r' hr' q hq
    cases hr'
    rcases hq with (⟨k, hk⟩ | hq) | hq
    · exact (hp.not_mem_cache hk).elim
    · exact hhas q (.inr hq)
    · exact hflushes q hq
  · rw [heq]
    refine ⟨hcall, hbefore, fun x hx heq => absurd heq (hnot x hx), .inr ⟨hnot, .inl ?_⟩⟩
    refine ⟨_, _, rfl, rfl, rfl, rfl, ?_, ?_⟩
    · rintro q (⟨k, hk⟩ | hq)
      · exact (hp.not_mem_cache hk).elim
      · exact hhas q (.inr hq)
    · intro x hx hle
      have hlt := hphase.1.le x.1 (hf.files.present x hx)
      change c.compactFilesLessThan ≤ x.1 at hle
      rw [hp.limit] at hle
      exact absurd (hlt.trans_lt (Nat.lt_succ_self _)) (not_lt.mpr hle)

/-- Without the condition the call returns at once, and what it deletes is still
there. -/
theorem returns_of_not_clears (cfg : Config) (hclears : ¬ Clears d s r) {s₁ : State}
    (hs₁ : s₁ = beginFlush cfg s { r with deleting := none } .delete (some d)) :
    ⟨d, []⟩ ∈ s₁.deleted ∧ s₁.phase ≠ .closed ∧ s₁.logged = s.logged ∧
      ∀ p, r.Flushes p → ∃ r₁, s₁.phase = .running r₁ ∧ r₁.Flushes p := by
  rcases beginFlush_cases cfg s { r with deleting := none } .delete (some d) with
    ⟨e, he, heq⟩ | ⟨p, dir, c, hp, ⟨hempty, heq⟩ | ⟨hne, heq⟩⟩
  case inr.inr =>
    refine absurd (.inl ⟨hp.idle, ?_⟩) hclears
    rw [hp.series] at hne
    exact fun hnil => hne ((Partition.cachedSeries_eq_nil_iff _).mpr hnil)
  all_goals
    rw [hs₁, heq]
    exact ⟨mem_append_right _ mem_cons_self, Phase.noConfusion, rfl, fun p hp => ⟨_, rfl, hp⟩⟩

end Call

/-! ## After the call -/

def runsFrom (cfg : Config) (s₁ : State) : System State Op where
  init s := s = s₁
  step s op s' := step cfg s op = some s'

section

variable (cfg : Config)

theorem step_eq_opening (op : Op) {o : Opening} (h : s.phase = .opening o) :
    step cfg s op = stepOpening s o op := by
  rw [step, h]

theorem step_crash (h : s.phase ≠ .closed) : step cfg s .crash = some s.crashed := by
  unfold step
  split
  · rename_i hclosed
    exact absurd hclosed h
  · rfl
  · rfl

theorem step_openLog (h : s.phase = .closed) :
    step cfg s .openLog = some { s with phase := .opening ⟨segmentFileNames s.dir, false⟩ } := by
  rw [step, h]
  rfl

theorem step_writeIndex {r : Running} {f : Flush} (hr : s.phase = .running r)
    (hf : r.flush = some f) (hstage : f.stage = .prepared) :
    step cfg s .writeIndex = some { s.hand f.info.seriesToFlush.all with
      phase := .running { r with flush := some ⟨f.info, .indexed, f.delete⟩ } } := by
  obtain ⟨info, stage, delete⟩ := f
  cases hstage
  rw [step, hr]
  show stepWriteIndex s r = _
  rw [stepWriteIndex, hf]

end

/-- `Open` hands every point of the files to the index. -/
theorem exists_handed_of_opening {s₁ : State} {p : Point} {d : Delete} : ∀ {fs : List ℕ} {s : State},
    (runsFrom cfg s₁).Reaches SmallIDs s → FilesInv s →
    s.phase = .opening ⟨fs, false⟩ → (∃ x ∈ s.logged, p ∈ x.2) → (∃ x ∈ s.deleted, x.delete = d) →
    ∃ s', (runsFrom cfg s₁).Reaches SmallIDs s' ∧
      ∃ x ∈ s'.deleted, x.delete = d ∧ p ∈ x.handed := by
  intro fs
  induction fs with
  | nil =>
    rintro s hrun hf hp ⟨x, hx, -⟩ -
    have hphase := hf.phase
    rw [hp] at hphase
    cases (hphase.2 x.1).mpr (hf.files.present x hx)
  | cons f fs ih =>
    rintro s hrun hf hp ⟨x, hx, hpx⟩ ⟨y, hy, hyd⟩
    have hreplay : step cfg s .replayFile = some { s.hand
        (seriesToFlush ((s.dir.lookup f).getD []).flatten).all with
          dir := s.dir.create f, phase := .opening ⟨f :: fs, true⟩ } := step_eq_opening cfg _ hp
    have hrun₁ := System.Reaches.step hrun (.of_not_begins rfl) hreplay
    have hf₁ := hf.step (.of_not_begins rfl) (of_step hreplay)
    by_cases hxf : x.1 = f
    · refine ⟨_, hrun₁, ⟨y.delete, y.handed ++ _⟩, mem_map.mpr ⟨y, hy, rfl⟩, hyd, ?_⟩
      apply mem_append_right
      obtain ⟨blocks, hlook⟩ := isSome_iff_exists.mp (hf.files.present x hx)
      rw [← hxf, hlook, getD_some, hf.files.content hlook,
        Series.mem_all (sorted_seriesToFlush _), points_seriesToFlush, mem_pointsOf]
      refine ⟨mem_flatten.mpr ⟨x.2, ?_, hpx⟩, rfl⟩
      exact mem_map.mpr ⟨x, mem_filter.mpr ⟨hx, decide_eq_true rfl⟩, rfl⟩
    · have hremove := step_eq_opening cfg .removeReplayed
        (s := { s.hand (seriesToFlush ((s.dir.lookup f).getD []).flatten).all with
          dir := s.dir.create f, phase := .opening ⟨f :: fs, true⟩ }) rfl
      have hrun₂ := System.Reaches.step hrun₁ (.of_not_begins rfl) hremove
      have hf₂ := hf₁.step (.of_not_begins rfl) (of_step hremove)
      refine ih hrun₂ hf₂ rfl ⟨x, mem_filter.mpr ⟨hx, decide_eq_true hxf⟩, hpx⟩ ?_
      exact ⟨_, mem_map.mpr ⟨y, hy, rfl⟩, hyd⟩

/-- **Deleted series stay deleted exactly under the condition**: in every run after the
flush of the call has begun, no flush and no `Open` hands to the index a point that the
call deleted. -/
theorem deleteSeries_staysDeleted_iff {s₁ : State} {r : Running} {d : Delete}
    (h : (partitionSystem cfg).Reaches SmallIDs s) (hids : SmallIDs s .deleteFlush)
    (hr : s.phase = .running r) (hd : r.deleting = some d)
    (hstep : step cfg s .deleteFlush = some s₁) :
    (∀ s', (runsFrom cfg s₁).Reaches SmallIDs s' → StaysDeleted d s') ↔ Clears d s r := by
  have hinv : FilesInv s ∧ DeleteInv s := by
    apply h.invariant (I := fun s => FilesInv s ∧ DeleteInv s)
    · rintro s rfl
      exact ⟨FilesInv.init, DeleteInv.init⟩
    · rintro s op s' ⟨hf, hdel⟩ hids hstep
      exact ⟨hf.step hids (of_step hstep), hdel.step hf (of_step hstep)⟩
  obtain ⟨hf, hdel⟩ := hinv
  have hstep' := of_step hstep
  have hf₁ := hf.step hids hstep'
  cases hstep' with
  | @deleteFlush r₀ d₀ hr₀ hw hd₀ =>
    rw [hr] at hr₀
    cases hr₀
    rw [hd] at hd₀
    cases hd₀
    constructor
    · intro hall
      by_contra hclears
      obtain ⟨hmem, hopen, hlogged, hflushes⟩ := returns_of_not_clears cfg hclears rfl
      have hdead : (∃ x ∈ s.logged, ∃ p ∈ x.2, d.Dead p) ∨ ∃ p, r.Flushes p ∧ d.Dead p := by
        by_contra hnone
        refine hclears (.inr ⟨hf.forall_logged_iff.mp fun x hx p hp hdead => ?_,
          fun p hp hdead => ?_⟩)
        · exact hnone (.inl ⟨x, hx, p, hp, hdead⟩)
        · exact hnone (.inr ⟨p, hp, hdead⟩)
      have hrun : (runsFrom cfg (beginFlush cfg s { r with deleting := none } .delete
          (some d))).Reaches SmallIDs _ := .init rfl
      rcases hdead with ⟨x, hx, p, hp, hdead⟩ | ⟨p, hp, hdead⟩
      · -- a crash, and `Open` hands the point to the index
        have hcrash : step cfg (beginFlush cfg s { r with deleting := none } .delete (some d))
            .crash = some _ := step_crash cfg hopen
        have hclosed := System.Reaches.step hrun (.of_not_begins rfl) hcrash
        have hf₂ := hf₁.step (.of_not_begins rfl) (of_step hcrash)
        have hopening := System.Reaches.step hclosed (.of_not_begins rfl)
          (step_openLog cfg (s := State.crashed _) rfl)
        have hf₃ := hf₂.step (.of_not_begins rfl) (of_step (step_openLog cfg rfl))
        obtain ⟨s', hs', y, hy, hyd, hpy⟩ := exists_handed_of_opening hopening hf₃ rfl
          ⟨x, hlogged ▸ hx, hp⟩ ⟨_, hmem, rfl⟩
        exact hall s' hs' y hy hyd p hpy hdead
      · -- the running flush hands the point to the index
        obtain ⟨r₁, hr₁, f, hflush, hstage, hmemp⟩ := hflushes p hp
        have hindex := System.Reaches.step hrun (.of_not_begins rfl) (step_writeIndex cfg hr₁ hflush hstage)
        refine hall _ hindex ⟨d, [] ++ f.info.seriesToFlush.all⟩ ?_ rfl p hmemp hdead
        exact mem_map.mpr ⟨_, hmem, rfl⟩
    · intro hclears s' hs'
      have hflushed : Flushed d s' ∧ FilesInv s' := by
        apply hs'.invariant (I := fun s => Flushed d s ∧ FilesInv s)
        · rintro s rfl
          exact ⟨Flushed.of_clears hf hdel hr hw hd hclears, hf₁⟩
        · rintro s op s' ⟨hfl, hf⟩ hids hstep
          exact ⟨hfl.step hf (of_step hstep), hf.step hids (of_step hstep)⟩
      exact hflushed.1.stays

section Examples

/-- A series is written and deleted, and nothing else is cached. -/
def deleteOnlyOps : List Op :=
  .openLog :: .opened :: writeOps [97] 1 [.addToCache, .writeReturns, .deleteSeries [[97]],
    .deleteFlush, .crash, .openLog, .replayFile]

def deleteOneOps : List Op :=
  .openLog :: .opened :: writeOps [97] 1 (.addToCache :: .writeReturns :: writeOps [98] 2
    [.addToCache, .writeReturns, .deleteSeries [[97]]])

/-- The point is in the index again after a crash. -/
theorem deleteSeries_only_series_returns :
    ∃ s d, (partitionSystem smallConfig).Reaches SmallIDs s ∧ ¬ StaysDeleted d s := by
  refine ⟨_, ⟨0, [[97]], 1⟩, System.Reaches.runIf (.init rfl)
    (rfl : System.runIf SmallIDs (step smallConfig) State.init deleteOnlyOps = some _), ?_⟩
  intro h
  exact h _ mem_cons_self rfl _ mem_cons_self ⟨mem_cons_self, zero_lt_one⟩

theorem deleteSeries_staysDeleted_iff_other_series :
    ∃ s r d s₁, (partitionSystem smallConfig).Reaches SmallIDs s ∧ SmallIDs s .deleteFlush ∧
      s.phase = .running r ∧ r.deleting = some d ∧ step smallConfig s .deleteFlush = some s₁ ∧
      Clears d s r ∧
      ∀ s', (runsFrom smallConfig s₁).Reaches SmallIDs s' → StaysDeleted d s' := by
  have hrun : (partitionSystem smallConfig).Reaches SmallIDs _ := System.Reaches.runIf (.init rfl)
    (rfl : System.runIf SmallIDs (step smallConfig) State.init deleteOneOps = some _)
  refine ⟨_, _, _, _, hrun, fun _ => by decide, rfl, rfl, rfl, .inl ⟨rfl, nofun⟩, ?_⟩
  exact (deleteSeries_staysDeleted_iff hrun (fun _ => by decide) rfl rfl rfl).mpr
    (.inl ⟨rfl, nofun⟩)

end Examples

end AndyEnv.Wal
