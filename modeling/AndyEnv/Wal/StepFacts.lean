import AndyEnv.Wal.CachedPoints
import AndyEnv.Wal.SegmentFiles

/-!
# Where the points of a step come from

The points a partition has in its files, its cache or its flush after a step were
there before it, or are those of the block the step has written. The index is handed
points of a file or of a flush.
-/

namespace AndyEnv.Wal

open List

def Running.pending (r : Running) : List Point := (r.writing.map Writing.marshaledPoints).getD []

def Running.Has (r : Running) (p : Point) : Prop :=
  (∃ k, p ∈ r.partition.cache.points k) ∨ p ∈ r.pending

/-- The point is still to be handed to the index by a flush. -/
def Running.Flushes (r : Running) (p : Point) : Prop :=
  ∃ f, r.flush = some f ∧ f.stage = .prepared ∧ p ∈ f.info.seriesToFlush.all

variable {cfg : Config} {s s' : State} {op : Op}

theorem running_unique {r r₀ : Running} (h : s.phase = .running r) (h₀ : s.phase = .running r₀) :
    r₀ = r :=
  Phase.running.inj (h₀.symm.trans h)

/-! ## The start of a flush -/

theorem beginFlush_frame (r : Running) (type : FlushType) (d : Option Delete) :
    (beginFlush cfg s r type d).logged = s.logged ∧ (beginFlush cfg s r type d).blocks = s.blocks ∧
      (beginFlush cfg s r type d).deletes = s.deletes := by
  rcases beginFlush_cases cfg s r type d with ⟨e, -, heq⟩ | ⟨p, dir, c, -, ⟨-, heq⟩ | ⟨-, heq⟩⟩
  all_goals
    rw [heq]
    cases d <;> exact ⟨rfl, rfl, rfl⟩

variable {d : Option Delete} {p : Point} {type : FlushType} {r' : Running}

/-- The partition after a flush was refused, had nothing to do, or was prepared. -/
theorem running_beginFlush {r : Running} (h : (beginFlush cfg s r type d).phase = .running r') :
    r' = r ∨ ∃ q dir c, Prepared r.partition s.dir q dir c ∧
      (r' = { r with partition := q } ∨ r' = { r with partition := q, flush := some ⟨c, .prepared, d⟩ }) := by
  rcases beginFlush_cases cfg s r type d with ⟨e, -, heq⟩ | ⟨q, dir, c, hq, ⟨-, heq⟩ | ⟨-, heq⟩⟩
  all_goals rw [heq] at h
  · exact .inl (Phase.running.inj h).symm
  · exact .inr ⟨q, dir, c, hq, .inl (Phase.running.inj h).symm⟩
  · exact .inr ⟨q, dir, c, hq, .inr (Phase.running.inj h).symm⟩

/-! ## The files -/

/-- A block on disk was there, or has just been written. -/
theorem Step.logged_cases (h : Step cfg s op s') :
    ∀ x ∈ s'.logged, x ∈ s.logged ∨ ∀ p ∈ x.2, p.block = s.blocks := by
  intro x hx
  cases h with
  | writeBlock hp hw hb =>
    rcases mem_append.mp hx with hx | hx
    · exact .inl hx
    right
    rw [mem_singleton.mp hx, hb]
    intro p hp
    obtain ⟨q, -, rfl⟩ := mem_map.mp hp
    rfl
  | removeReplayed | removeSegment => exact .inl (mem_filter.mp hx).1
  | deleteFlush _ _ _ | flush _ _ => exact .inl ((beginFlush_frame _ _ _).1 ▸ hx)
  | @endFlush r c d hp hw hf => exact .inl ((FilesInv.deleteReturns_dir s d).2 ▸ hx)
  | _ => exact .inl hx

theorem Step.counts_le (h : Step cfg s op s') : s.blocks ≤ s'.blocks ∧ s.deletes ≤ s'.deletes := by
  cases h with
  | writeBlock hp hw hb => exact ⟨Nat.le_succ _, le_rfl⟩
  | deleteSeries hp hw hd hf => exact ⟨le_rfl, Nat.le_succ _⟩
  | deleteFlush | flush =>
    exact ⟨(beginFlush_frame _ _ _).2.1.ge, (beginFlush_frame _ _ _).2.2.ge⟩
  | @endFlush r c d hp hw hf => cases d <;> exact ⟨le_rfl, le_rfl⟩
  | _ => exact ⟨le_rfl, le_rfl⟩

/-! ## The cache -/

theorem Series.exists_points_of_mem_all {m : Series} (h : p ∈ m.all) : ∃ k, p ∈ m.points k := by
  obtain ⟨⟨k, ps⟩, he, hp⟩ := mem_flatMap.mp h
  refine ⟨k, ?_⟩
  rw [Series.points, AList.mem_lookup_iff.mpr he]
  exact hp

theorem Partition.points_deleteKeys (p : Partition) (keys : List Bytes) (k : Bytes) :
    (p.deleteKeys keys).cache.points k = if k ∈ keys then [] else p.cache.points k := by
  have hlookup : ∀ (ks : List Bytes) (m : Cache), (ks.foldl (fun m k => m.erase k) m).lookup k =
      if k ∈ ks then none else m.lookup k := by
    intro ks
    induction ks with
    | nil => exact fun m => rfl
    | cons a ks ih =>
      intro m
      rw [foldl_cons, ih]
      by_cases hk : k ∈ ks
      · rw [if_pos hk, if_pos (mem_cons_of_mem _ hk)]
      · rw [if_neg hk]
        by_cases ha : k = a
        · rw [ha, AList.lookup_erase, if_pos mem_cons_self]
        · rw [AList.lookup_erase_ne ha, if_neg (not_mem_cons_of_ne_of_not_mem ha hk)]
  rw [deleteKeys, Cache.points, hlookup]
  split
  · rfl
  · rfl

theorem Prepared.not_mem_cache {p p' : Partition} {dir dir' : Dir (List Point)}
    {c : CompactionInfo} (h : Prepared p dir p' dir' c) {q : Point} {k : Bytes}
    (hq : q ∈ p'.cache.points k) : False := by
  rw [h.cache] at hq
  cases hq

theorem has_beginFlush {r : Running} (hr' : (beginFlush cfg s r type d).phase = .running r')
    (hp : r'.Has p) : r.Has p := by
  rcases running_beginFlush hr' with rfl | ⟨q, dir, c, hq, rfl | rfl⟩
  · exact hp
  all_goals
    rcases hp with ⟨k, hk⟩ | hp
    · exact (hq.not_mem_cache hk).elim
    · exact .inr hp

/-- A cached point was cached, or is of the block that was just written. -/
theorem Step.has_cases (h : Step cfg s op s') (hr' : s'.phase = .running r') (hp : r'.Has p) :
    (∃ r, s.phase = .running r ∧ r.Has p) ∨ p.block = s.blocks := by
  cases h with (try cases hr')
  | opened hs =>
    rcases hp with ⟨k, hk⟩ | hp
    · cases hk
    · cases hp
  | writeFails hs => exact .inl ⟨r', hr', hp⟩
  | lock hs | writeReturns hs =>
    rcases hp with hk | hp
    · exact .inl ⟨_, hs, .inl hk⟩
    · cases hp
  | @writeBlock r pp pps written block hs hw hb =>
    rcases hp with ⟨k, hk⟩ | hp
    · have hcache := r.partition.cache_writeBlock cfg s.dir block
      rw [hcache] at hk
      exact .inl ⟨r, hs, .inl ⟨k, hk⟩⟩
    · right
      change p ∈ block at hp
      rw [hb] at hp
      obtain ⟨q, -, rfl⟩ := mem_map.mp hp
      rfl
  | @addToCache r remaining pps written hs hw =>
    rcases hp with ⟨k, hk⟩ | hp
    · rw [Partition.points_foldl_addToCache, mem_append] at hk
      refine .inl ⟨r, hs, hk.imp (fun hk => ⟨k, hk⟩) (fun hk => ?_)⟩
      rw [Running.pending, hw]
      exact (mem_pointsOf.mp hk).1
    · cases hp
  | @deleteSeries r keys hs hw hd hf =>
    rcases hp with ⟨k, hk⟩ | hp
    · rw [Partition.points_deleteKeys] at hk
      split at hk
      · cases hk
      · exact .inl ⟨r, hs, .inl ⟨k, hk⟩⟩
    · exact .inl ⟨r, hs, .inr hp⟩
  | @deleteFlush r d hs hw hd =>
    have hhas := has_beginFlush (r := { r with deleting := none }) hr' hp
    exact .inl ⟨r, hs, hhas⟩
  | @flush r type hs hw => exact .inl ⟨r, hs, has_beginFlush hr' hp⟩
  | write hs | writeIndex hs | clearFlushCache hs | listSegments hs | stopRemoving hs
  | removeSegment hs | endFlush hs =>
    exact .inl ⟨_, hs, hp⟩

/-! ## The flush -/

/-- What a flush has to hand to the index after it has begun was cached, or was to be
handed before. -/
theorem flushes_beginFlush {r : Running} (hr' : (beginFlush cfg s r type d).phase = .running r')
    (hp : r'.Flushes p) : r.Has p ∨ r.Flushes p := by
  rcases running_beginFlush hr' with rfl | ⟨q, dir, c, hq, rfl | rfl⟩
  · exact .inr hp
  · exact .inr hp
  · obtain ⟨f, hf, -, hmem⟩ := hp
    cases hf
    obtain ⟨k, hk⟩ := Series.exists_points_of_mem_all hmem
    rw [hq.series, Partition.points_cachedSeries] at hk
    exact .inl (.inl ⟨k, hk⟩)

theorem Step.flushes_cases (h : Step cfg s op s') (hr' : s'.phase = .running r') (hp : r'.Flushes p) :
    ∃ r, s.phase = .running r ∧ (r.Has p ∨ r.Flushes p) := by
  have hlater : ∀ {c : CompactionInfo} {stage : Stage} {d : Option Delete},
      (∃ f, some (Flush.mk c stage d) = some f ∧ f.stage = .prepared ∧
        p ∈ f.info.seriesToFlush.all) → stage = .prepared := by
    rintro c stage d ⟨f, hf, hstage, -⟩
    cases hf
    exact hstage
  cases h with (try cases hr')
  | opened hs =>
    obtain ⟨f, hf, -⟩ := hp
    cases hf
  | writeFails hs => exact ⟨r', hr', .inr hp⟩
  | write hs | lock hs | writeBlock hs | addToCache hs | writeReturns hs | deleteSeries hs =>
    exact ⟨_, hs, .inr hp⟩
  | @deleteFlush r d hs hw hd =>
    have hflushes := flushes_beginFlush (r := { r with deleting := none }) hr' hp
    exact ⟨r, hs, hflushes⟩
  | @flush r type hs hw => exact ⟨r, hs, flushes_beginFlush hr' hp⟩
  | writeIndex | clearFlushCache | listSegments | stopRemoving | removeSegment =>
    cases hlater hp
  | @endFlush r c d hs hw hf =>
    obtain ⟨f, hf, -⟩ := hp
    cases hf

/-! ## The calls of `DeleteSeries` -/

def Returns (s : State) (op : Op) (d : Delete) : Prop :=
  ∃ r, s.phase = .running r ∧ (op = .deleteFlush ∧ r.deleting = some d ∨
      op = .endFlush ∧ ∃ f, r.flush = some f ∧ f.delete = some d ∧ f.stage = .removing [])

def Hands (s : State) (p : Point) : Prop :=
  (∃ x ∈ s.logged, p ∈ x.2) ∨ ∃ r, s.phase = .running r ∧ r.Flushes p

theorem mem_deleteReturns {x : Deleted} (h : x ∈ (s.deleteReturns d).deleted) :
    x ∈ s.deleted ∨ x.handed = [] ∧ d = some x.delete := by
  cases d with
  | none => exact .inl h
  | some d =>
    rcases mem_append.mp h with h | h
    · exact .inl h
    · rw [mem_singleton.mp h]
      exact .inr ⟨rfl, rfl⟩

theorem mem_deleted_beginFlush {r : Running} {x : Deleted}
    (h : x ∈ (beginFlush cfg s r type d).deleted) :
    x ∈ s.deleted ∨ x.handed = [] ∧ d = some x.delete := by
  rcases beginFlush_cases cfg s r type d with
    ⟨e, -, heq⟩ | ⟨q, dir, c, hq, ⟨-, heq⟩ | ⟨-, heq⟩⟩
  all_goals rw [heq] at h
  · exact mem_deleteReturns h
  · exact mem_deleteReturns h
  · exact .inl h

variable (h : Step cfg s op s')
include h

/-- The points a call of `DeleteSeries` has seen handed to the index since it returned. -/
theorem Step.deleted_cases (hf : FilesInv s) :
    ∀ x' ∈ s'.deleted, (x'.handed = [] ∧ Returns s op x'.delete) ∨
      ∃ x ∈ s.deleted, x.delete = x'.delete ∧ ∀ p ∈ x'.handed, p ∈ x.handed ∨ Hands s p := by
  intro x' hx'
  have hsame : x' ∈ s.deleted → (x'.handed = [] ∧ Returns s op x'.delete) ∨
      ∃ x ∈ s.deleted, x.delete = x'.delete ∧ ∀ p ∈ x'.handed, p ∈ x.handed ∨ Hands s p :=
    fun h => .inr ⟨x', h, rfl, fun p hp => .inl hp⟩
  have hhand : ∀ {ps : List Point}, x' ∈ (s.hand ps).deleted → (∀ p ∈ ps, Hands s p) →
      ∃ x ∈ s.deleted, x.delete = x'.delete ∧ ∀ p ∈ x'.handed, p ∈ x.handed ∨ Hands s p := by
    intro ps hmem hps
    obtain ⟨x, hx, rfl⟩ := mem_map.mp hmem
    refine ⟨x, hx, rfl, fun p hp => ?_⟩
    exact (mem_append.mp hp).imp id (hps p)
  cases h with
  | @replayFile f fs hs =>
    refine .inr (hhand hx' (fun p hp => .inl ?_))
    rw [Series.mem_all (sorted_seriesToFlush _), points_seriesToFlush, mem_pointsOf] at hp
    cases hlook : s.dir.lookup f with
    | none =>
      rw [hlook] at hp
      cases hp.1
    | some blocks =>
      rw [hlook, Option.getD_some, hf.files.content hlook] at hp
      obtain ⟨b, hb, hpb⟩ := mem_flatten.mp hp.1
      obtain ⟨x, hx, rfl⟩ := mem_map.mp hb
      exact ⟨x, (mem_filter.mp hx).1, hpb⟩
  | @writeIndex r c d hs hflush =>
    exact .inr (hhand hx' (fun p hp => .inr ⟨r, hs, _, hflush, rfl, hp⟩))
  | @deleteFlush r d hs hw hd =>
    rcases mem_deleted_beginFlush hx' with h | ⟨hnil, heq⟩
    · exact hsame h
    · exact .inl ⟨hnil, r, hs, .inl ⟨rfl, hd.trans heq⟩⟩
  | flush hs hw =>
    rcases mem_deleted_beginFlush hx' with h | ⟨-, heq⟩
    · exact hsame h
    · cases heq
  | @endFlush r c d hs hw hflush =>
    rcases mem_deleteReturns hx' with h | ⟨hnil, heq⟩
    · exact hsame h
    · exact .inl ⟨hnil, r, hs, .inr ⟨rfl, _, hflush, heq, rfl⟩⟩
  | _ => exact hsame hx'

/-- The call that is at work, and its flush, are those of before; a new call has the
next number. -/
theorem Step.deleting_cases (hr' : s'.phase = .running r') {d : Delete}
    (hd : r'.deleting = some d) :
    (∃ r, s.phase = .running r ∧ r.deleting = some d ∧ op ≠ .deleteFlush) ∨
      ∃ r keys, s.phase = .running r ∧ r.writing = none ∧ r.flush.bind Flush.delete = none ∧
        s'.deletes = s.deletes + 1 ∧ d = ⟨s.deletes, keys, s.blocks⟩ ∧
        r'.partition = r.partition.deleteKeys keys ∧ r'.flush = r.flush ∧ r'.writing = none := by
  cases h with (try cases hr')
  | opened hs =>
    cases hd
  | writeFails hs => exact .inl ⟨r', hr', hd, Op.noConfusion⟩
  | @deleteSeries r keys hs hw hd' hf =>
    exact .inr ⟨r, keys, hs, hw, hf, rfl, (Option.some.inj hd).symm, rfl, rfl, hw⟩
  | deleteFlush hs hw hd' =>
    rcases running_beginFlush hr' with rfl | ⟨q, dir, c, -, rfl | rfl⟩ <;> cases hd
  | flush hs hw =>
    rcases running_beginFlush hr' with rfl | ⟨q, dir, c, -, rfl | rfl⟩ <;>
      exact .inl ⟨_, hs, hd, Op.noConfusion⟩
  | write hs | lock hs | writeBlock hs | addToCache hs | writeReturns hs | writeIndex hs
  | clearFlushCache hs | listSegments hs | stopRemoving hs | removeSegment hs | endFlush hs =>
    exact .inl ⟨_, hs, hd, Op.noConfusion⟩

/-- A flush of `DeleteSeries` is the one of before, or that of the call at work. -/
theorem Step.flushDelete_cases (hr' : s'.phase = .running r') {f' : Flush}
    {d : Delete} (hf' : r'.flush = some f') (hd : f'.delete = some d) :
    ∃ r, s.phase = .running r ∧ ((∃ f, r.flush = some f ∧ f.delete = some d) ∨
      op = .deleteFlush ∧ r.deleting = some d) := by
  cases h with (try cases hr')
  | opened hs =>
    cases hf'
  | writeFails hs => exact ⟨r', hr', .inl ⟨f', hf', hd⟩⟩
  | @deleteFlush r d' hs hw hd' =>
    rcases running_beginFlush hr' with rfl | ⟨q, dir, c, -, rfl | rfl⟩
    · exact ⟨_, hs, .inl ⟨f', hf', hd⟩⟩
    · exact ⟨_, hs, .inl ⟨f', hf', hd⟩⟩
    · cases hf'
      exact ⟨r, hs, .inr ⟨rfl, hd'.trans hd⟩⟩
  | @flush r type hs hw =>
    rcases running_beginFlush hr' with rfl | ⟨q, dir, c, -, rfl | rfl⟩
    · exact ⟨_, hs, .inl ⟨f', hf', hd⟩⟩
    · exact ⟨_, hs, .inl ⟨f', hf', hd⟩⟩
    · cases hf'
      cases hd
  | endFlush hs hw hf =>
    cases hf'
  | write hs | lock hs | writeBlock hs | addToCache hs | writeReturns hs | deleteSeries hs =>
    exact ⟨_, hs, .inl ⟨f', hf', hd⟩⟩
  | writeIndex hs hf | clearFlushCache hs hw hf | listSegments hs hf | stopRemoving hs hf
  | removeSegment hs hf =>
    cases hf'
    exact ⟨_, hs, .inl ⟨_, hf, hd⟩⟩

/-- A flush goes on until it ends or the process crashes; there is no other one. -/
theorem Step.flush_cases (hinv : FilesInv s) {r : Running} {f : Flush}
    (hr : s.phase = .running r) (hf : r.flush = some f) : op = .crash ∧ s'.phase = .closed ∨
    (op = .endFlush ∧ f.stage = .removing [] ∧ s'.logged = s.logged ∧
      ∃ r', s'.phase = .running r' ∧ r'.flush = none) ∨
    ∃ r' f', s'.phase = .running r' ∧ r'.flush = some f' ∧ f'.info = f.info ∧
      f'.delete = f.delete ∧ (r.deleting = none → f.delete ≠ none → r'.deleting = none) := by
  have hrunning : r.partition.compactionRunning = true := by
    have hphase := hinv.phase
    rw [hr] at hphase
    exact (hphase.2 f hf).1
  -- a flush does not begin while one is running
  have hrefused : ∀ {q : Running} {type : FlushType} {d : Option Delete},
      q.partition = r.partition → (beginFlush cfg s q type d).phase = .running q := by
    intro q type d hq
    rcases beginFlush_cases cfg s q type d with ⟨e, -, heq⟩ | ⟨p, dir, c, hp, -⟩
    · rw [heq]
    · have hidle := hp.idle
      rw [hq, hrunning] at hidle
      cases hidle
  cases h with
  | openLog hs | replayFile hs | removeReplayed hs | opened hs =>
    rw [hs] at hr
    cases hr
  | writeFails hs => exact .inr (.inr ⟨r, f, hr, hf, rfl, rfl, fun h _ => h⟩)
  | @deleteSeries r₀ keys hs hw hd hflush =>
    cases running_unique hr hs
    refine .inr (.inr ⟨_, f, rfl, hf, rfl, rfl, fun _ hne => ?_⟩)
    rw [hf] at hflush
    exact absurd hflush hne
  | @deleteFlush r₀ d hs hw hd =>
    cases running_unique hr hs
    exact .inr (.inr ⟨_, f, hrefused rfl, hf, rfl, rfl, fun _ _ => rfl⟩)
  | @flush r₀ type hs hw =>
    cases running_unique hr hs
    exact .inr (.inr ⟨_, f, hrefused rfl, hf, rfl, rfl, fun h _ => h⟩)
  | @endFlush r₀ c d hs hw hflush =>
    cases running_unique hr hs
    rw [hf] at hflush
    cases hflush
    exact .inr (.inl ⟨rfl, rfl, (FilesInv.deleteReturns_dir s d).2, _, rfl, rfl⟩)
  | crash hs => exact .inl ⟨rfl, rfl⟩
  | write hs | lock hs | writeBlock hs | addToCache hs | writeReturns hs =>
    cases running_unique hr hs
    exact .inr (.inr ⟨_, f, rfl, hf, rfl, rfl, fun h _ => h⟩)
  | writeIndex hs hflush | clearFlushCache hs hw hflush | listSegments hs hflush
  | stopRemoving hs hflush | removeSegment hs hflush =>
    cases running_unique hr hs
    rw [hf] at hflush
    cases hflush
    exact .inr (.inr ⟨_, _, rfl, rfl, rfl, rfl, fun h _ => h⟩)

end AndyEnv.Wal
