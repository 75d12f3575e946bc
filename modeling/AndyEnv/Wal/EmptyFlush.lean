import AndyEnv.Wal.DeleteSeries

/-!
# A flush of an empty cache

`prepareSeriesToFlush` sets `compactionRunning`, and `flushAndCompact` clears it at its end. It
returns before that if there is nothing to flush. From then on every flush is refused: until the
log is opened again, the index is handed nothing and no segment file is removed.
-/

namespace AndyEnv.Wal

open List

/-- `compactionRunning` is set, and no flush will clear it. -/
def State.Stuck (s : State) : Prop :=
  ∃ r, s.phase = .running r ∧ r.partition.compactionRunning = true ∧ r.flush = none

/-- What is stored beside the cache stays: the index, and all blocks of the segment files. -/
def State.Keeps (s s' : State) : Prop := s'.index = s.index ∧ s.logged <+: s'.logged

variable {cfg : Config} {s s' s'' : State} {r : Running} {op : Op} {type : FlushType}

theorem Partition.compactionRunning_writeBlock (p : Partition) (dir : Dir (List Point))
    (block : List Point) :
    (p.writeBlock cfg dir block).1.compactionRunning = p.compactionRunning := by
  unfold writeBlock
  dsimp only
  split
  · exact (p.sameCache_rotate cfg dir).compactionRunning
  · exact (p.sameCache_rotate cfg dir).compactionRunning

theorem State.Keeps.deleteReturns (d : Option Delete) (dir : Dir (List Point)) (ph : Phase) :
    s.Keeps { s.deleteReturns d with dir := dir, phase := ph } := by
  cases d with
  | none => exact ⟨rfl, prefix_rfl⟩
  | some d => exact ⟨rfl, prefix_rfl⟩

theorem State.stuck_beginFlush (hrun : r.partition.compactionRunning = true) (hf : r.flush = none)
    (d : Option Delete) :
    (beginFlush cfg s r type d).Stuck ∧ s.Keeps (Wal.beginFlush cfg s r type d) := by
  rcases beginFlush_cases cfg s r type d with ⟨e, -, heq⟩ | ⟨p, dir, c, hp, -⟩
  · rw [heq]
    exact ⟨⟨r, rfl, hrun, hf⟩, .deleteReturns d _ _⟩
  · rw [hp.idle] at hrun
    cases hrun

theorem State.Stuck.step (h : s.Stuck) (hop : op ≠ .crash) (hstep : Step cfg s op s') :
    s'.Stuck ∧ s.Keeps s' := by
  obtain ⟨r, hr, hrun, hf⟩ := h
  cases hstep with
  | openLog hp | replayFile hp | removeReplayed hp | opened hp => cases hr.symm.trans hp
  | writeFails hp => exact ⟨⟨r, hr, hrun, hf⟩, rfl, prefix_rfl⟩
  | write hp | lock hp hw | writeReturns hp hw | deleteSeries hp hw hd hn =>
    cases hr.symm.trans hp
    exact ⟨⟨_, rfl, hrun, hf⟩, rfl, prefix_rfl⟩
  | writeBlock hp hw hb =>
    cases hr.symm.trans hp
    refine ⟨⟨_, rfl, ?_, hf⟩, rfl, prefix_append _ _⟩
    exact (r.partition.compactionRunning_writeBlock s.dir _).trans hrun
  | @addToCache _ _ pps _ hp hw =>
    cases hr.symm.trans hp
    exact ⟨⟨_, rfl, (foldl_addToCache_files pps r.partition).2.2.trans hrun, hf⟩, rfl, prefix_rfl⟩
  | deleteFlush hp hw hd | flush hp hw =>
    cases hr.symm.trans hp
    refine State.stuck_beginFlush ?_ ?_ _
    · exact hrun
    · exact hf
  | writeIndex hp hf' | clearFlushCache hp hw hf' | listSegments hp hf' | stopRemoving hp hf' hid
  | removeSegment hp hf' hid | endFlush hp hw hf' =>
    cases hr.symm.trans hp
    cases hf.symm.trans hf'
  | crash hp => exact absurd rfl hop

/-- **A flush of an empty cache is the last one.** Whatever is written or deleted after it, until a
crash `compactionRunning` stays set, the index is handed nothing and no block leaves the segment
files. -/
theorem flush_empty_stuck (hr : s.phase = .running r) (hf : r.flush = none)
    (hcache : r.partition.cache.entries = [])
    (htype : ¬(type = .memory ∧ r.partition.memorySize < cfg.sizeThreshold))
    (hflush : step cfg s (.flush type) = some s')
    (hrun : (runsFrom cfg s').Reaches (fun _ op => op ≠ .crash) s'') : s''.Stuck ∧ s.Keeps s'' := by
  refine hrun.invariant (I := fun s'' => s''.Stuck ∧ s.Keeps s'') ?_ ?_
  · rintro _ rfl
    cases Step.of_step hflush with
    | flush hp hw =>
      cases hr.symm.trans hp
      by_cases hidle : r.partition.compactionRunning = true
      · exact State.stuck_beginFlush hidle hf none
      rcases beginFlush_cases cfg s r type none with ⟨e, he, -⟩ | ⟨p, dir, c, hp, hcase⟩
      · rw [Partition.prepareSeriesToFlush, if_neg hidle, if_neg htype] at he
        cases he
      · have hempty : c.seriesToFlush.entries = [] := by
          rw [hp.series, Partition.cachedSeries_eq_nil_iff]
          exact hcache
        rcases hcase with ⟨-, heq⟩ | ⟨hne, -⟩
        · rw [heq]
          exact ⟨⟨_, rfl, hp.running, hf⟩, .deleteReturns none _ _⟩
        · exact absurd hempty hne
  · rintro s₁ op s₂ ⟨hstuck, hkeeps⟩ hop hstep
    obtain ⟨hstuck', hkeeps'⟩ := hstuck.step hop (.of_step hstep)
    exact ⟨hstuck', hkeeps'.1.trans hkeeps.1, hkeeps.2.trans hkeeps'.2⟩

/-- A flush after `Open`, and a write that the next flush does not hand over. -/
theorem flush_empty_stuck_opened : ∃ s s' s'',
    s.phase = .running ⟨Partition.new, [], none, none, none⟩ ∧
    step smallConfig s (.flush .idle) = some s' ∧
    (runsFrom smallConfig s').Reaches (fun _ op => op ≠ .crash) s'' ∧ s''.logged ≠ [] ∧
    s''.Stuck ∧ s.Keeps s'' := by
  obtain ⟨s', hs'⟩ : ∃ s', step smallConfig
      { State.init with phase := .running ⟨Partition.new, [], none, none, none⟩ }
      (.flush .idle) = some s' := ⟨_, rfl⟩
  obtain ⟨s'', hrun, hlogged⟩ := System.Reaches.exists_of_runIf (· = s') rfl
    (fun _ op => op ≠ .crash) (step smallConfig)
    (writeOps [97] 1 [.addToCache, .writeReturns, .flush .idle])
    (P := fun s => s.logged ≠ []) (by cases hs'; decide +kernel)
  exact ⟨_, s', s'', rfl, hs', hrun, of_decide_eq_true hlogged,
    flush_empty_stuck rfl rfl rfl (by decide) hs' hrun⟩

end AndyEnv.Wal
