import AndyEnv.Lib.LastWrite
import AndyEnv.Wal.StepFacts

/-!
# No acknowledged point is lost

The index together with the segment files always has the last value of every series
and time. A flush hands the index the points of the files it then removes, and files
are removed from the oldest on, so that the blocks which are still there, replayed
over the index, change nothing that is newer. After `Open` there are no files, and the
index alone has the values.

The last value is not always one of a write that returned: a block that was written
just before a crash is replayed as well.
-/

namespace AndyEnv.Wal

open List State

/-! ## The last value -/

open LastWrite

/-- What the index overwrites: a point of the same series and time. -/
def Point.slot (p : Point) : Bytes × Int64 := (p.key, p.time)

/-- The value of a series at a time: the one that was written last. -/
def valueAt (ps : List Point) (k : Bytes) (t : Int64) : Option Bytes :=
  (last Point.slot ps (k, t)).map Point.data

theorem valueAt_append (ps qs : List Point) (k : Bytes) (t : Int64) :
    valueAt (ps ++ qs) k t = (valueAt qs k t).or (valueAt ps k t) := by
  rw [valueAt, last_append, Option.map_or]
  rfl

theorem last_congr {ps qs : List Point} (h : ∀ k, pointsOf k ps = pointsOf k qs)
    (i : Bytes × Int64) : last Point.slot ps i = last Point.slot qs i := by
  have hslot : ∀ p : Point, p.slot = i → decide (p.key = i.1) = true := by
    rintro p rfl
    exact decide_eq_true rfl
  rw [← last_filter hslot ps, ← last_filter hslot qs]
  exact congrArg (fun l => last Point.slot l i) (h i.1)

/-! ## The blocks on disk -/

def onDisk (logged : List (ℕ × List Point)) : List Point := logged.flatMap Prod.snd

def older (limit : ℕ) (logged : List (ℕ × List Point)) : List (ℕ × List Point) :=
  logged.filter (fun r => r.1 < limit)

def newer (limit : ℕ) (logged : List (ℕ × List Point)) : List (ℕ × List Point) :=
  logged.filter (fun r => limit ≤ r.1)

@[simp] theorem onDisk_append (xs ys : List (ℕ × List Point)) :
    onDisk (xs ++ ys) = onDisk xs ++ onDisk ys := flatMap_append

theorem onDisk_filter_eq (id : ℕ) (logged : List (ℕ × List Point)) :
    onDisk (logged.filter (fun r => r.1 = id)) = (blocksOf id logged).flatten := by
  rw [onDisk, blocksOf, flatMap_def]

variable {logged : List (ℕ × List Point)}

theorem older_append_newer (limit : ℕ) (h : logged.Pairwise (fun x y => x.1 ≤ y.1)) :
    older limit logged ++ newer limit logged = logged := Keyed.filter_lt_append_filter_ge h limit

variable {limit id : ℕ} {r : Running} {c : CompactionInfo} {d : Option Delete} {s' : State}
variable {s : State}

theorem newer_eq_nil (h : ∀ r ∈ logged, r.1 < limit) : newer limit logged = [] := by
  apply filter_eq_nil_iff.mpr
  intro r hr
  simpa using h r hr

theorem older_eq_nil (h : ∀ r ∈ logged, limit ≤ r.1) : older limit logged = [] := by
  apply filter_eq_nil_iff.mpr
  intro r hr
  simpa using h r hr

variable {block : List Point} {b : Bool} {cfg : Config}

theorem newer_concat (h : limit ≤ id) :
    newer limit (logged ++ [(id, block)]) = newer limit logged ++ [(id, block)] := by
  rw [newer, filter_append]
  simp [newer, h]

theorem older_concat (h : limit ≤ id) :
    older limit (logged ++ [(id, block)]) = older limit logged := by
  rw [older, filter_append]
  simp [older, h]

theorem oldest_append (id : ℕ) (h : logged.Pairwise (fun x y => x.1 ≤ y.1))
    (hle : ∀ r ∈ logged, id ≤ r.1) :
    (blocksOf id logged).flatten ++ onDisk (logged.filter (fun r => r.1 ≠ id)) =
      onDisk logged := by
  rw [← onDisk_filter_eq, ← onDisk_append, filter_append_filter_of_sorted h hle]

theorem older_filter_ne (logged : List (ℕ × List Point)) :
    older limit (logged.filter (fun r => r.1 ≠ id)) =
      (older limit logged).filter (fun r => r.1 ≠ id) := by
  rw [older, older, filter_comm]

theorem newer_filter_ne (h : id < limit) (logged : List (ℕ × List Point)) :
    newer limit (logged.filter (fun r => r.1 ≠ id)) = newer limit logged := by
  rw [newer, newer, filter_filter]
  apply filter_congr
  intro r _
  by_cases hr : limit ≤ r.1
  · have hne : r.1 ≠ id := fun heq => absurd (heq ▸ hr) (not_le.mpr h)
    simp [hr, hne]
  · simp [hr]

theorem FilesInv.le_of_opening {f : ℕ} {fs : List ℕ} (h : FilesInv s)
    (hp : s.phase = .opening ⟨f :: fs, b⟩) : ∀ r ∈ s.logged, f ≤ r.1 := by
  intro r hr
  have hphase := h.phase
  rw [hp] at hphase
  rcases mem_cons.mp ((hphase.2 r.1).mpr (h.files.present r hr)) with heq | hin
  · exact heq.ge
  · exact ((pairwise_cons.mp hphase.1).1 _ hin).le

theorem FilesInv.logged_eq_nil_of_opening (h : FilesInv s)
    (hp : s.phase = .opening ⟨[], b⟩) : s.logged = [] := by
  have hphase := h.phase
  rw [hp] at hphase
  apply eq_nil_iff_forall_not_mem.mpr
  intro r hr
  cases (hphase.2 r.1).mpr (h.files.present r hr)

theorem FilesInv.le_of_removing {ids : List ℕ} (h : FilesInv s) (hp : s.phase = .running r)
    (hf : r.flush = some ⟨c, .removing (id :: ids), d⟩) (hid : id < c.compactFilesLessThan) :
    ∀ x ∈ s.logged, id ≤ x.1 := by
  intro x hx
  have hphase := h.phase
  rw [hp] at hphase
  obtain ⟨hsorted, hmem⟩ := (hphase.2 _ hf).2.2 _ rfl
  by_cases hlt : x.1 < c.compactFilesLessThan
  · rcases mem_cons.mp (hmem x.1 (h.files.present x hx) hlt) with heq | hin
    · exact heq.ge
    · exact ((pairwise_cons.mp hsorted).1 _ hin).le
  · exact hid.le.trans (not_lt.mp hlt)

/-! ## What is kept -/


def Running.Caches (r : Running) (blocks : List (ℕ × List Point)) : Prop :=
  ∀ k, r.partition.cache.points k ++ pointsOf k r.pending = pointsOf k (onDisk blocks)

/-- The flush has the points of these blocks, or the index has absorbed them. -/
def Flush.Holds (f : Flush) (index : List Point) (blocks : List (ℕ × List Point)) : Prop :=
  if f.stage = .prepared then ∀ k, f.info.seriesToFlush.points k = pointsOf k (onDisk blocks)
  else Absorbed Point.slot index (onDisk blocks)

def PhaseKept (index : List Point) (logged : List (ℕ × List Point)) : Phase → Prop
  | .closed => True
  | .opening ⟨f :: _, true⟩ => Absorbed Point.slot index (blocksOf f logged).flatten
  | .opening _ => True
  | .running r =>
    (r.flush = none → r.partition.compactionRunning = false → r.Caches logged) ∧
    ∀ f, r.flush = some f → r.Caches (newer f.info.compactFilesLessThan logged) ∧
      f.Holds index (older f.info.compactFilesLessThan logged)

/-- **The index and the segment files** have the last point of every slot. -/
structure Kept (s : State) : Prop where
  last : ∀ i, last Point.slot (s.index ++ onDisk s.logged) i = last Point.slot s.history i
  phase : PhaseKept s.index s.logged s.phase

theorem State.history_eq {p : Phase} (hp : s.phase = p) (hwrites : s'.writes = s.writes)
    (hwriting : s'.phase.writing = p.writing) : s'.history = s.history := by
  rw [history, history, hwrites, hwriting, hp]

namespace Kept

variable {cfg : Config}

theorem init : Kept State.init := ⟨fun _ => rfl, trivial⟩

section

variable (h : Kept s)
include h

theorem of_last (hhistory : s'.history = s.history)
    (hlast : ∀ i, LastWrite.last Point.slot (s'.index ++ onDisk s'.logged) i =
      LastWrite.last Point.slot (s.index ++ onDisk s.logged) i)
    (hphase : PhaseKept s'.index s'.logged s'.phase) : Kept s' :=
  ⟨fun i => by rw [hlast, hhistory, h.last], hphase⟩

/-- Two states with the same points, the same index and the same blocks. -/
theorem congr (hindex : s'.index = s.index)
    (hlogged : s'.logged = s.logged) (hhistory : s'.history = s.history)
    (hphase : PhaseKept s.index s.logged s'.phase) : Kept s' := by
  rw [← hindex, ← hlogged] at hphase
  exact h.of_last hhistory (fun i => by rw [hindex, hlogged]) hphase

theorem running (hp : s.phase = .running r) : PhaseKept s.index s.logged (.running r) :=
  hp ▸ h.phase

/-- The cache stays, together with what the write has still to add to it. -/
theorem of_caches {r' : Running} (hp : s.phase = .running r)
    (hp' : s'.phase = .running r') (hindex : s'.index = s.index) (hlogged : s'.logged = s.logged)
    (hhistory : s'.history = s.history) (hflush : r'.flush = r.flush)
    (hrun : r'.partition.compactionRunning = r.partition.compactionRunning)
    (hcache : ∀ k, r'.partition.cache.points k ++ pointsOf k r'.pending =
      r.partition.cache.points k ++ pointsOf k r.pending) : Kept s' := by
  obtain ⟨hnone, hsome⟩ := h.running hp
  have hcaches : ∀ {blocks : List (ℕ × List Point)}, r.Caches blocks → r'.Caches blocks :=
    fun hc k => (hcache k).trans (hc k)
  refine h.congr hindex hlogged hhistory ?_
  rw [hp']
  refine ⟨fun hno hidle => hcaches (hnone (hflush ▸ hno) (hrun ▸ hidle)), fun f hf => ?_⟩
  obtain ⟨hnew, hold⟩ := hsome f (hflush ▸ hf)
  exact ⟨hcaches hnew, hold⟩

theorem replayFile (hf : FilesInv s) (hstep : Step cfg s .replayFile s') : Kept s' := by
  cases hstep with
  | @replayFile f fs hp =>
    have hphase := hf.phase
    rw [hp] at hphase
    obtain ⟨blocks, hlook⟩ := Option.isSome_iff_exists.mp ((hphase.2 f).mp mem_cons_self)
    rw [hlook, Option.getD_some, hf.files.content hlook]
    have hpoints : ∀ k, pointsOf k (seriesToFlush (blocksOf f s.logged).flatten).all =
        pointsOf k (blocksOf f s.logged).flatten := by
      intro k
      rw [Series.pointsOf_all (sorted_seriesToFlush _), points_seriesToFlush]
    refine h.of_last (history_eq hp rfl rfl) (fun i => ?_)
      (absorbed_append (last_congr hpoints))
    show LastWrite.last _ (s.index ++ _ ++ onDisk s.logged) i = _
    rw [← oldest_append f hf.files.sorted (hf.le_of_opening hp)]
    exact last_append_advance (last_congr hpoints) i

theorem removeReplayed (hf : FilesInv s) (hstep : Step cfg s .removeReplayed s') : Kept s' := by
  cases hstep with
  | @removeReplayed f fs hp =>
    have habs := h.phase
    rw [hp] at habs
    refine h.of_last (history_eq hp rfl rfl) (fun i => ?_)
      (by cases fs <;> exact trivial)
    rw [← oldest_append f hf.files.sorted (hf.le_of_opening hp), ← append_assoc,
      LastWrite.last_append _ (onDisk _), LastWrite.last_append _ (onDisk _), habs i]
    rfl

theorem writeBlock (hf : FilesInv s) (hstep : Step cfg s .writeBlock s') : Kept s' := by
  cases hstep with
  | @writeBlock r pp pps written block hp hw =>
    have hfiles := hf.phase
    rw [hp] at hfiles
    have hspec := r.partition.writeBlock_spec cfg hfiles.1 hf.files block
    obtain ⟨hnone, hsome⟩ := h.running hp
    -- the cache is behind by the new block, wherever the older blocks are
    have hcaches : ∀ {blocks : List (ℕ × List Point)} {id : ℕ}, r.Caches blocks →
        Running.Caches { r with
          partition := (r.partition.writeBlock cfg s.dir block).1
          writing := some ⟨(cutBlock (pp :: pps)).2, block, written ++ block⟩ }
          (blocks ++ [(id, block)]) := by
      intro blocks id hc k
      have hk := hc k
      rw [Running.pending, hw] at hk
      show (r.partition.writeBlock cfg s.dir block).1.cache.points k ++ pointsOf k block = _
      rw [hspec.same.cache, onDisk_append, pointsOf_append, ← hk, onDisk, flatMap_singleton]
      exact congrArg (· ++ pointsOf k block) (append_nil _).symm
    constructor
    · intro i
      have hhist : s.history ++ block = s.writes.flatMap Written.points ++ (written ++ block) := by
        rw [State.history, hp, Phase.writing, hw, append_assoc]
        rfl
      show LastWrite.last _ (s.index ++ onDisk (s.logged ++ [(_, block)])) i =
        LastWrite.last _ (s.writes.flatMap Written.points ++ (written ++ block)) i
      rw [← hhist, onDisk_append, ← append_assoc, LastWrite.last_append, h.last i,
        ← LastWrite.last_append, onDisk, flatMap_singleton]
    · refine ⟨fun hno hrun => hcaches (hnone hno ?_), fun f hflush => ?_⟩
      · exact hspec.same.compactionRunning.symm.trans hrun
      · obtain ⟨hnew, hold⟩ := hsome f hflush
        have hle := (hfiles.2 f hflush).2.1.trans hspec.same.le
        constructor
        · show Running.Caches _ (newer _ (s.logged ++ _))
          rw [newer_concat hle]
          exact hcaches hnew
        · show f.Holds s.index (older _ (s.logged ++ _))
          rw [older_concat hle]
          exact hold

theorem beginFlush {type : FlushType} (hf : FilesInv s)
    (hp : s.phase = .running r) (hw : r.writing = none) :
    Kept (Wal.beginFlush cfg s r type none) := by
  have hfiles := hf.phase
  rw [hp] at hfiles
  obtain ⟨hnone, -⟩ := h.running hp
  rcases beginFlush_cases cfg s r type none with ⟨e, -, heq⟩ | ⟨p, dir, c, hprep, heq⟩
  · rw [heq]
    have hsame : ({ s with phase := .running r } : State) = s := by rw [← hp]
    show Kept { s with phase := .running r }
    rw [hsame]
    exact h
  · have hno : r.flush = none := by
      cases hflush : r.flush with
      | none => rfl
      | some f => exact absurd ((hfiles.2 f hflush).1.symm.trans hprep.idle) Bool.noConfusion
    have hcached := hnone hno hprep.idle
    rcases heq with ⟨-, heq⟩ | ⟨-, heq⟩
    · rw [heq]
      refine h.congr rfl rfl ?_ ⟨fun _ hrun => ?_, fun f hflush => ?_⟩
      · exact history_eq hp rfl rfl
      · exact absurd (hprep.running.symm.trans hrun) Bool.noConfusion
      · exact absurd (hno.symm.trans hflush) (by simp)
    · rw [heq]
      refine h.congr rfl rfl ?_ ⟨fun hflush => absurd hflush (by simp), ?_⟩
      · exact history_eq hp rfl rfl
      · intro f hflush
        cases hflush
        -- all the blocks that are there are older than the new file
        have hlt : ∀ x ∈ s.logged, x.1 < c.compactFilesLessThan := by
          intro x hx
          rw [hprep.limit]
          exact Nat.lt_succ_of_le (hfiles.1.le x.1 (hf.files.present x hx))
        have hsplit := older_append_newer c.compactFilesLessThan hf.files.sorted
        rw [newer_eq_nil hlt, append_nil] at hsplit
        have hpend : r.pending = [] := by
          rw [Running.pending, hw]
          rfl
        constructor
        · intro k
          show p.cache.points k ++ pointsOf k r.pending = _
          rw [newer_eq_nil hlt, hprep.cache, hpend]
          rfl
        · rw [Flush.Holds, if_pos rfl, hsplit]
          intro k
          have hk := hcached k
          rw [hpend, pointsOf_nil, append_nil] at hk
          rw [hprep.series, Partition.points_cachedSeries, hk]

theorem writeIndex (hf : FilesInv s) (hstep : Step cfg s .writeIndex s') : Kept s' := by
  cases hstep with
  | @writeIndex r c d hp hflush =>
    obtain ⟨hnew, hold⟩ := (h.running hp).2 _ hflush
    rw [Flush.Holds, if_pos rfl] at hold
    have hpoints : ∀ k, pointsOf k c.seriesToFlush.all =
        pointsOf k (onDisk (older c.compactFilesLessThan s.logged)) := by
      intro k
      rw [Series.pointsOf_all (Series.sorted_of_points hold), hold k]
    refine h.of_last (history_eq hp rfl rfl) (fun i => ?_)
      ⟨fun hno => (by cases hno), fun f hf => ?_⟩
    · show LastWrite.last _ (s.index ++ _ ++ onDisk s.logged) i = _
      rw [← older_append_newer c.compactFilesLessThan hf.files.sorted, onDisk_append]
      exact last_append_advance (last_congr hpoints) i
    · cases hf
      exact ⟨hnew, absorbed_append (last_congr hpoints)⟩

theorem removeSegment {ids : List ℕ} (hf : FilesInv s) (hp : s.phase = .running r)
    (hflush : r.flush = some ⟨c, .removing (id :: ids), d⟩) (hid : id < c.compactFilesLessThan) :
    Kept { s.remove id with
      phase := .running { r with flush := some ⟨c, .removing ids, d⟩ } } := by
  obtain ⟨hnew, hold⟩ := (h.running hp).2 _ hflush
  have habs : Absorbed Point.slot s.index (onDisk (older c.compactFilesLessThan s.logged)) := hold
  have hle := hf.le_of_removing hp hflush hid
  have hsorted : (older c.compactFilesLessThan s.logged).Pairwise (fun x y => x.1 ≤ y.1) :=
    hf.files.sorted.sublist filter_sublist
  have hfirst := oldest_append id hsorted (fun x hx => hle x (mem_filter.mp hx).1)
  have hdisk : onDisk s.logged = (blocksOf id (older c.compactFilesLessThan s.logged)).flatten ++
      onDisk ((older c.compactFilesLessThan s.logged).filter (fun x => x.1 ≠ id)) ++
      onDisk (newer c.compactFilesLessThan s.logged) := by
    rw [hfirst, ← onDisk_append, older_append_newer _ hf.files.sorted]
  have hrest := older_append_newer c.compactFilesLessThan
    (hf.files.sorted.sublist (filter_sublist (p := fun x => decide (x.1 ≠ id))))
  rw [older_filter_ne, newer_filter_ne hid] at hrest
  rw [← hfirst] at habs
  refine h.of_last (history_eq hp rfl rfl) (fun i => ?_)
    ⟨fun hno => (by cases hno), fun f hf => ?_⟩
  · show LastWrite.last _ (s.index ++ onDisk (s.logged.filter (fun x => x.1 ≠ id))) i = _
    rw [hdisk, ← hrest, onDisk_append]
    exact habs.last_drop i
  · cases hf
    constructor
    · show r.Caches (newer c.compactFilesLessThan (s.logged.filter _))
      rw [newer_filter_ne hid]
      exact hnew
    · show Absorbed Point.slot s.index (onDisk (older c.compactFilesLessThan (s.logged.filter _)))
      rw [older_filter_ne]
      exact habs.of_append

/-- The flush goes on after the index has taken its points. -/
theorem advance {stage stage' : Stage} {p : Partition} (hp : s.phase = .running r)
    (hflush : r.flush = some ⟨c, stage, d⟩) (hstage : stage ≠ .prepared)
    (hstage' : stage' ≠ .prepared) (hcache : p.cache = r.partition.cache) : Kept { s with
      phase := .running { r with partition := p, flush := some ⟨c, stage', d⟩ } } := by
  obtain ⟨hnew, hold⟩ := (h.running hp).2 _ hflush
  refine h.congr rfl rfl (history_eq hp rfl rfl) ⟨fun hno => ?_, fun f heq => ?_⟩
  · cases hno
  · cases heq
    rw [Flush.Holds, if_neg hstage] at hold
    refine ⟨fun k => ?_, ?_⟩
    · rw [← hnew k]
      show p.cache.points k ++ _ = _
      rw [hcache]
      rfl
    · rw [Flush.Holds, if_neg hstage']
      exact hold

/-- The flush is over: the blocks that are left are cached. -/
theorem endFlush (hf : FilesInv s) (hstep : Step cfg s .endFlush s') : Kept s' := by
  cases hstep with
  | @endFlush r c d hp hw hflush =>
    obtain ⟨hnew, -⟩ := (h.running hp).2 _ hflush
    have hfiles := hf.phase
    rw [hp] at hfiles
    have hle : ∀ x ∈ s.logged, c.compactFilesLessThan ≤ x.1 := by
      intro x hx
      by_contra hlt
      cases ((hfiles.2 _ hflush).2.2 _ rfl).2 x.1 (hf.files.present x hx) (not_le.mp hlt)
    have hsplit := older_append_newer c.compactFilesLessThan hf.files.sorted
    rw [older_eq_nil hle, nil_append] at hsplit
    refine h.congr (by cases d <;> rfl) (by cases d <;> rfl) ?_ ⟨fun _ _ => ?_, fun f hf => ?_⟩
    · rw [State.history, State.history, hp]
      cases d <;> rfl
    · rw [← hsplit]
      exact hnew
    · cases hf

/-- **One step** keeps the last points. -/
theorem step {op : Op} (hf : FilesInv s)
    (hop : ∀ keys, op ≠ .deleteSeries keys) (hop' : op ≠ .deleteFlush)
    (hstep : Step cfg s op s') : Kept s' := by
  have hs := hstep
  cases hstep with
  | openLog hp =>
    refine h.congr rfl rfl ?_ ?_
    · exact history_eq hp rfl rfl
    · show PhaseKept s.index s.logged (.opening ⟨segmentFileNames s.dir, false⟩)
      cases segmentFileNames s.dir <;> exact trivial
  | replayFile hp => exact h.replayFile hf hs
  | removeReplayed hp => exact h.removeReplayed hf hs
  | opened hp =>
    have hempty := hf.logged_eq_nil_of_opening hp
    refine h.congr rfl rfl ?_ ⟨fun _ _ k => ?_, fun f hflush => absurd hflush (by simp)⟩
    · exact history_eq hp rfl rfl
    · rw [hempty]
      rfl
  | writeFails hp => exact h
  | write hp =>
    exact h.of_caches hp rfl rfl rfl (history_eq hp rfl rfl) rfl rfl fun k => rfl
  | lock hp hw =>
    refine h.of_caches hp rfl rfl rfl ?_ rfl rfl fun k => ?_
    · rw [State.history, State.history, hp, Phase.writing, Phase.writing, hw]
      rfl
    · rw [Running.pending, Running.pending, hw]
      rfl
  | writeBlock hp hw hb => exact h.writeBlock hf hs
  | @addToCache r remaining pps written hp hw =>
    refine h.of_caches hp rfl rfl rfl ?_ rfl (foldl_addToCache_files pps r.partition).2.2
      fun k => ?_
    · rw [State.history, State.history, hp, Phase.writing, Phase.writing, hw]
      rfl
    · show (pps.foldl Partition.addToCache r.partition).cache.points k ++ [] = _
      rw [append_nil, Partition.points_foldl_addToCache, Running.pending, hw]
      rfl
  | writeReturns hp hw =>
    refine h.of_caches hp rfl rfl rfl ?_ rfl rfl fun k => ?_
    · show (s.writes ++ [_]).flatMap Written.points ++ [] = _
      rw [flatMap_append, flatMap_singleton, append_nil, State.history, hp, Phase.writing, hw]
      rfl
    · rw [Running.pending, Running.pending, hw]
      rfl
  | deleteSeries hp hw hd hf => exact absurd rfl (hop _)
  | deleteFlush hp hw hd => exact absurd rfl hop'
  | flush hp hw => exact h.beginFlush hf hp hw
  | writeIndex hp hflush => exact h.writeIndex hf hs
  | clearFlushCache hp _ hflush | listSegments hp hflush | stopRemoving hp hflush _ =>
    exact h.advance hp hflush (by simp) (by simp) rfl
  | removeSegment hp hflush hid => exact h.removeSegment hf hp hflush hid
  | endFlush hp hw hflush => exact h.endFlush hf hs
  | crash hp =>
    refine h.congr rfl rfl ?_ trivial
    rw [State.history, State.history]
    show (s.writes ++ _).flatMap Written.points ++ [] = _
    cases hw : s.phase.writing with
    | none => simp
    | some w => simp

end

end Kept

/-! ## After `Open` -/

def Op.isDelete : Op → Bool
  | .deleteSeries _ => true
  | .deleteFlush => true
  | _ => false

/-- The runs of `Write`, `flushAndCompact`, crashes and `Open`, with segment numbers
below 1000000. -/
def WritesAndFlushes (s : State) (op : Op) : Prop := SmallIDs s op ∧ op.isDelete = false

instance (s : State) (op : Op) : Decidable (WritesAndFlushes s op) :=
  inferInstanceAs (Decidable (SmallIDs s op ∧ op.isDelete = false))

section

variable (h : (partitionSystem cfg).Reaches WritesAndFlushes s)
include h

theorem Kept.of_reaches
    : FilesInv s ∧ Kept s := by
  apply h.invariant (I := fun s => FilesInv s ∧ Kept s)
  · rintro s rfl
    exact ⟨FilesInv.init, Kept.init⟩
  · rintro s op s' ⟨hf, hk⟩ ⟨hids, hop⟩ hstep
    have hstep := Step.of_step hstep
    refine ⟨hf.step hids hstep, hk.step hf ?_ ?_ hstep⟩
    · rintro keys rfl
      cases hop
    · rintro rfl
      cases hop

/-- **After `Open`** the index has the last point of every slot. -/
theorem last_index_of_opened (hopen : step cfg s .opened = some s') (i : Bytes × Int64) :
    last Point.slot s'.index i = last Point.slot (s'.writes.flatMap Written.points) i := by
  obtain ⟨hf, hk⟩ := Kept.of_reaches h
  cases Step.of_step hopen with
  | opened hp =>
    have hempty := hf.logged_eq_nil_of_opening hp
    have hlast := hk.last i
    rw [hempty, State.history, hp] at hlast
    simpa [onDisk, Phase.writing] using hlast

end

def acknowledgedPoints (writes : List Written) : List Point :=
  (writes.filter Written.acknowledged).flatMap Written.points

/-- The last value is that of the last write that returned nil, unless a later write
has one. -/
theorem valueAt_writes {k : Bytes} {t : Int64} {v : Bytes} (writes : List Written)
    (hv : valueAt (acknowledgedPoints writes) k t = some v) :
    valueAt (writes.flatMap Written.points) k t = some v ∨
      ∃ pre w post u, writes = pre ++ w :: post ∧ w.acknowledged = false ∧
        valueAt (acknowledgedPoints post) k t = none ∧ valueAt w.points k t = some u ∧
        valueAt (writes.flatMap Written.points) k t = some u := by
  induction writes using List.reverseRecOn with
  | nil => cases hv
  | append_singleton writes w ih =>
    have hall : valueAt ((writes ++ [w]).flatMap Written.points) k t =
        (valueAt w.points k t).or (valueAt (writes.flatMap Written.points) k t) := by
      rw [flatMap_append, flatMap_singleton, valueAt_append]
    rw [hall]
    cases hw : valueAt w.points k t with
    | none =>
      have hrest : ∀ ws, valueAt (acknowledgedPoints (ws ++ [w])) k t =
          valueAt (acknowledgedPoints ws) k t := by
        intro ws
        rw [acknowledgedPoints, filter_append, flatMap_append, valueAt_append]
        cases hack : w.acknowledged with
        | false => simp [hack, acknowledgedPoints, valueAt]
        | true => simp [hack, acknowledgedPoints, hw]
      rw [hrest] at hv
      rcases ih hv with h | ⟨pre, w', post, u, heq, hack, hpost, hu, hall⟩
      · exact .inl h
      · refine .inr ⟨pre, w', post ++ [w], u, ?_, hack, ?_, hu, hall⟩
        · rw [heq, append_assoc]
          rfl
        · rw [hrest, hpost]
    | some u =>
      cases hack : w.acknowledged with
      | false => exact .inr ⟨writes, w, [], u, rfl, hack, rfl, hw, rfl⟩
      | true =>
        left
        rw [acknowledgedPoints, filter_append, flatMap_append, valueAt_append] at hv
        simpa [hack, hw] using hv

/-- **No acknowledged point is lost.** After `Open` the index has, for every series and
time of a write that returned nil, the value of the last such write, or the value of a
later write that had written its block and did not return. -/
theorem opened_valueAt_acknowledged {cfg : Config} {s s' : State}
    (h : (partitionSystem cfg).Reaches WritesAndFlushes s) (hopen : step cfg s .opened = some s')
    {k : Bytes} {t : Int64} {v : Bytes} (hv : valueAt (acknowledgedPoints s'.writes) k t = some v) :
    valueAt s'.index k t = some v ∨
      ∃ pre w post u, s'.writes = pre ++ w :: post ∧ w.acknowledged = false ∧
        valueAt (acknowledgedPoints post) k t = none ∧ valueAt w.points k t = some u ∧
        valueAt s'.index k t = some u := by
  have hindex : valueAt s'.index k t = valueAt (s'.writes.flatMap Written.points) k t :=
    congrArg (Option.map Point.data) (last_index_of_opened h hopen (k, t))
  rw [hindex]
  exact valueAt_writes s'.writes hv

section Examples

/-- A write that returns, a write of the same point that does not, and `Open` up to its
return. -/
def crashedWriteOps : List Op :=
  .openLog :: .opened :: writeOps [97] 1 (.addToCache :: .writeReturns :: writeOps [97] 2
    [.crash, .openLog, .replayFile, .removeReplayed])

/-- A write that returns and is flushed, with a crash before the file is removed. -/
def crashedFlushOps : List Op :=
  .openLog :: .opened :: writeOps [97] 1 [.addToCache, .writeReturns, .flush .idle, .writeIndex,
    .crash, .openLog, .replayFile, .removeReplayed]

/-- The state in which `Open` returns, from a run that is computed. -/
theorem exists_opened_of_run {ops : List Op} {k : Bytes} {t : Int64} {a b : Option Bytes}
    (h : ((System.runIf WritesAndFlushes (step smallConfig) State.init ops).bind (fun s =>
      (step smallConfig s .opened).map (fun s' =>
        (valueAt (acknowledgedPoints s'.writes) k t, valueAt s'.index k t)))) = some (a, b)) :
    ∃ s s', (partitionSystem smallConfig).Reaches WritesAndFlushes s ∧
      step smallConfig s .opened = some s' ∧
      valueAt (acknowledgedPoints s'.writes) k t = a ∧ valueAt s'.index k t = b := by
  obtain ⟨s, hs, h⟩ := Option.bind_eq_some_iff.mp h
  obtain ⟨s', hs', h⟩ := Option.map_eq_some_iff.mp h
  obtain ⟨ha, hb⟩ := Prod.mk.inj h
  exact ⟨s, s', System.Reaches.runIf (.init rfl) hs, hs', ha, hb⟩

/-- The value of the write that did not return replaces that of the write that did. -/
theorem opened_valueAt_unacknowledged :
    ∃ s s', (partitionSystem smallConfig).Reaches WritesAndFlushes s ∧
      step smallConfig s .opened = some s' ∧
      valueAt (acknowledgedPoints s'.writes) [97] 1 = some [1] ∧
      valueAt s'.index [97] 1 = some [2] :=
  @exists_opened_of_run crashedWriteOps [97] 1 (some [1]) (some [2]) (by decide +kernel)

theorem opened_valueAt_acknowledged_flushed :
    ∃ s s', (partitionSystem smallConfig).Reaches WritesAndFlushes s ∧
      step smallConfig s .opened = some s' ∧
      valueAt (acknowledgedPoints s'.writes) [97] 1 = some [1] ∧
      (valueAt s'.index [97] 1 = some [1] ∨
        ∃ pre w post u, s'.writes = pre ++ w :: post ∧ w.acknowledged = false ∧
          valueAt (acknowledgedPoints post) [97] 1 = none ∧ valueAt w.points [97] 1 = some u ∧
          valueAt s'.index [97] 1 = some u) := by
  obtain ⟨s, s', hrun, hopen, hv, -⟩ :=
    @exists_opened_of_run crashedFlushOps [97] 1 (some [1]) (some [1]) (by decide +kernel)
  exact ⟨s, s', hrun, hopen, hv, opened_valueAt_acknowledged hrun hopen hv⟩

end Examples

end AndyEnv.Wal
