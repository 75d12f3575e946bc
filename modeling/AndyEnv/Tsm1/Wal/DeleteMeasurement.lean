import AndyEnv.Tsm1.Wal.Replay

/-!
# Deleting a measurement that is not flushed

`Engine.DeleteMeasurement` makes the keys of the fields of the series and marks
them as deleted in the index. To the WAL it passes the keys of the series, but the
cache of the WAL has the keys of the fields. So the values stay in the cache, and
the entry that is logged deletes nothing when it is replayed.
-/

namespace AndyEnv.Tsm1.Wal

open List Keyed

/-! ## The calls -/

/-- `tsdb.MeasurementFromSeriesKey`: what stands before the first comma. -/
def measurementFromSeriesKey (key : Bytes) : Bytes := key.takeWhile (fun b => b ≠ 44)

def Log.deleteMeasurement (C : EntryCodec) (l : Log) (dir : Dir UInt8) (measurement : Bytes)
    (keys : List Bytes) : Log × Dir UInt8 :=
  let (l, dir, _) := l.writeToLog dir (entryBytes C (.delete keys measurement))
  ((l.deleteKeysFromCache keys).deleteMeasurementFromCache measurement, dir)

/-- What a delete reads and writes of the engine. -/
structure DeleteEngine : Type where
  /-- What `readFields` returns: the fields of the measurements in the index. -/
  fields : List (Bytes × List Bytes)
  /-- The fields of the measurements in `WAL.measurementFieldsCache`. -/
  walFields : List (Bytes × List Bytes)
  deletes : List (UInt64 × Bytes)
  deleteMeasurements : List Bytes
  wal : Log
  dir : Dir UInt8

namespace DeleteEngine

variable (C : EntryCodec) (keyToID : Bytes → UInt64)

def keysWithFields (e : DeleteEngine) (keys : List Bytes) : List Bytes :=
  keys.flatMap (fun k =>
    let measurement := measurementFromSeriesKey k
    -- the fields from the index, and those from the WAL that haven't been flushed yet
    (((e.fields.lookup measurement).getD []) ++
      (if measurement ∈ e.wal.measurementFieldsCache then (e.walFields.lookup measurement).getD [] else [])).map
        (seriesFieldKey k))

/-- `DeleteMeasurement`, where `readFields` returns no error. -/
def deleteMeasurement (e : DeleteEngine) (name : Bytes) (seriesKeys : List Bytes) : DeleteEngine :=
  let keyFields := e.keysWithFields seriesKeys
  let r := e.wal.deleteMeasurement C e.dir name seriesKeys
  { e with
    deleteMeasurements := name :: e.deleteMeasurements
    deletes := keyFields.map (fun k => (keyToID k, k)) ++ e.deletes
    wal := r.1
    dir := r.2 }

end DeleteEngine

/-! ## What the log on disk holds -/

/-- The segment files hold the entries `records`, in the order of their numbers, and
the log writes to the end of the last one. -/
structure LoggedFiles (C : EntryCodec) (dir : Dir UInt8) (records : List Record) (l : Log) : Prop where
  opened : OpenedInv C { State.init with dir := dir, log := some l, recorded := records } l
  present : ∀ r ∈ records, (dir.lookup r.segment).isSome = true
  ascending : records.Pairwise (fun r r' => r.segment ≤ r'.segment)
  segment_le : ∀ r ∈ records, r.segment ≤ l.currentSegmentID
  file_le : ∀ id, (dir.lookup id).isSome = true → id ≤ l.currentSegmentID

namespace LoggedFiles

variable {C : EntryCodec} {dir : Dir UInt8} {records : List Record} {l : Log}

/-- **The replay of a log.** -/
theorem replay_eq (h : LoggedFiles C dir records l) (hid : l.currentSegmentID ≤ 99999)
    {back : Entry → Entry} (hreads : ∀ r ∈ records, ReadsAs C r.entry (back r.entry)) :
    replay C dir = some ((records.map (fun r => back r.entry)).foldl Log.replayEntry Log.new) :=
  replay_of_files h.opened.exact_eq h.present h.ascending
    (fun id hsome => (h.file_le id hsome).trans hid) hreads

theorem of_sameFiles {l' : Log} (h : LoggedFiles C dir records l) (hsame : Log.SameFiles l l') :
    LoggedFiles C dir records l' where
  opened := h.opened.of_sameFiles hsame.currentSegmentID hsame.currentSegmentFile rfl rfl nofun
  present := h.present
  ascending := h.ascending
  segment_le r hr := by
    rw [hsame.currentSegmentID]
    exact h.segment_le r hr
  file_le id hsome := by
    rw [hsame.currentSegmentID]
    exact h.file_le id hsome

/-- **An entry is logged.** -/
theorem logEntry (h : LoggedFiles C dir records l) (e : Entry) (start : ℕ) :
    LoggedFiles C (l.writeToLog dir (entryBytes C e)).2.1
      (records ++ [⟨(l.writeToLog dir (entryBytes C e)).2.2, e, start⟩])
      (l.writeToLog dir (entryBytes C e)).1 := by
  obtain ⟨-, -, hle, hseg, -⟩ := Log.writeToLog_spec h.opened.fileCurrent dir (entryBytes C e)
  refine ⟨h.opened.logEntry h.present e start [], fun r hr => h.opened.present_logEntry h.present hr,
    ?_, fun r hr => ?_, fun id hsome => ?_⟩
  · refine pairwise_append.mpr ⟨h.ascending, pairwise_singleton _ _, ?_⟩
    intro r hr r' hr'
    rw [mem_singleton.mp hr']
    exact ((h.segment_le r hr).trans hle).trans hseg.ge
  · rcases mem_append.mp hr with hr | hr
    · exact (h.segment_le r hr).trans hle
    · rw [mem_singleton.mp hr]
      exact hseg.le
  · rw [h.opened.lookup_writeToLog] at hsome
    split at hsome
    · rename_i heq
      rw [heq]
      exact hseg.le
    · exact (h.file_le id hsome).trans hle

end LoggedFiles

/-! ## What is left -/

theorem deduplicate_eq_nil {vs : Values} : Values.deduplicate vs = [] ↔ vs = [] := by
  constructor
  · intro h
    by_contra hne
    obtain ⟨init, v, rfl⟩ := (eq_nil_or_concat' vs).resolve_left hne
    rw [Values.deduplicate, ofList_concat] at h
    have hmem : v ∈ upsert Value.unixNano v (ofList Value.unixNano init) :=
      (mem_upsert (ascending_ofList init)).mpr (Or.inl rfl)
    rw [h] at hmem
    cases hmem
  · rintro rfl
    rfl

namespace Log

variable {l : Log} {k : Bytes}

theorem cursor_eq_nil :
    l.cursor k = [] ↔ (l.flushCache.getD ∅).get k = [] ∧ l.cache.get k = [] := by
  have hget : (l.flushCache.getD ∅).get k = (l.flushCache.bind (fun m => m.lookup k)).getD [] := by
    cases l.flushCache with
    | none => rfl
    | some m => rfl
  rw [cursor, hget]
  cases l.flushCache.bind (fun m => m.lookup k) with
  | none =>
    dsimp only
    split
    · rw [deduplicate_eq_nil]
      exact ⟨fun h => ⟨rfl, h⟩, fun h => h.2⟩
    · exact ⟨fun h => ⟨rfl, h⟩, fun h => h.2⟩
  | some fc =>
    dsimp only
    rw [deduplicate_eq_nil, append_eq_nil_iff]
    exact Iff.rfl

theorem flushValues_eq_nil : l.flushValues.get k = [] ↔ l.cache.get k = [] := by
  rw [flushValues, get_foldl_deduplicate]
  split
  · exact deduplicate_eq_nil
  · exact Iff.rfl

theorem get_foldl_erase (k : Bytes) : ∀ (keys : List Bytes) (m : ValuesByKey),
    ValuesByKey.get (keys.foldl (fun m k => m.erase k) m) k = if k ∈ keys then [] else m.get k
  | [], m => by simp
  | j :: keys, m => by
    rw [foldl_cons, get_foldl_erase k keys]
    by_cases hj : k = j
    · subst hj
      simp [ValuesByKey.get]
    · simp [ValuesByKey.get, hj]

variable (l : Log) (keys : List Bytes)

theorem get_deleteKeysFromCache (k : Bytes) :
    (l.deleteKeysFromCache keys).cache.get k = if k ∈ keys then [] else l.cache.get k :=
  get_foldl_erase k keys l.cache

theorem get_replayEntry_delete (name k : Bytes) :
    (l.replayEntry (.delete keys name)).cache.get k = if k ∈ keys then [] else l.cache.get k := by
  rw [← get_deleteKeysFromCache, replayEntry]
  split
  · rfl
  · rfl

end Log

/-! ## The property -/

/-- **No value of a field of the series is left**: not for a cursor, not for a flush,
and not after a replay of the log. -/
structure Deleted (C : EntryCodec) (e : DeleteEngine) (seriesKeys : List Bytes) : Prop where
  cursor : ∀ k ∈ seriesKeys, ∀ field, e.wal.cursor (seriesFieldKey k field) = []
  flush : ∀ k ∈ seriesKeys, ∀ field type,
    (e.wal.rotate e.dir type).1.flushValues.get (seriesFieldKey k field) = []
  replay : ∃ l, replay C e.dir = some l ∧ ∀ k ∈ seriesKeys, ∀ field, l.cursor (seriesFieldKey k field) = []

/-- Before the delete: no value is being flushed, and none is in the cache or comes
back with a replay, unless the key of the field is itself one of the keys. -/
def NothingUnflushed (l replayed : Log) (seriesKeys : List Bytes) : Prop :=
  ∀ k ∈ seriesKeys, ∀ field, (l.flushCache.getD ∅).get (seriesFieldKey k field) = [] ∧
    (seriesFieldKey k field ∉ seriesKeys → l.cache.get (seriesFieldKey k field) = [] ∧
      replayed.cache.get (seriesFieldKey k field) = [])

section Iff

variable (C : EntryCodec) (keyToID : Bytes → UInt64) {e : DeleteEngine} {records : List Record}
  (name : Bytes) (seriesKeys : List Bytes)

theorem flushCache_foldl_replayEntry : ∀ (es : List Entry) (l : Log),
    (es.foldl Log.replayEntry l).flushCache = l.flushCache
  | [], _ => rfl
  | x :: es, l => by
    rw [foldl_cons, flushCache_foldl_replayEntry es]
    cases x with
    | points ps => exact (Log.sameFiles_addAll l ps [] []).flushCache
    | fields names => exact (Log.sameFiles_addAll l [] names []).flushCache
    | series keys => exact (Log.sameFiles_addAll l [] [] keys).flushCache
    | delete keys name =>
      rw [Log.replayEntry]
      split
      · rfl
      · rfl

theorem deleteMeasurement_replay {back : Entry → Entry} (hfiles : LoggedFiles C e.dir records e.wal)
    (hid : e.wal.currentSegmentID < 99999)
    (hreads : ∀ x ∈ records.map Record.entry ++ [.delete seriesKeys name], ReadsAs C x (back x))
    (hback : back (.delete seriesKeys name) = .delete seriesKeys name) :
    ∃ l, replay C (e.deleteMeasurement C keyToID name seriesKeys).dir = some l ∧ l.flushCache = none ∧
      ∀ k, l.cache.get k = if k ∈ seriesKeys then []
        else ((records.map (fun r => back r.entry)).foldl Log.replayEntry Log.new).cache.get k := by
  have hnext := e.wal.currentSegmentID_writeToLog_le e.dir (entryBytes C (.delete seriesKeys name))
  have hreplay := (hfiles.logEntry (.delete seriesKeys name) 0).replay_eq (by omega) (fun r hr => by
    refine hreads r.entry ?_
    rcases mem_append.mp hr with hr | hr
    · exact mem_append_left _ (mem_map_of_mem hr)
    · rw [mem_singleton.mp hr]
      exact mem_append_right _ mem_cons_self)
  rw [map_append, map_singleton, hback, foldl_append, foldl_cons, foldl_nil] at hreplay
  refine ⟨_, hreplay, ?_, fun k => Log.get_replayEntry_delete _ seriesKeys name k⟩
  exact (flushCache_foldl_replayEntry [.delete seriesKeys name] _).trans
    (flushCache_foldl_replayEntry _ Log.new)

end Iff

/-- **A measurement is deleted from the WAL exactly if the WAL has nothing of it.** -/
theorem deleteMeasurement_deleted_iff (C : EntryCodec) (keyToID : Bytes → UInt64) (back : Entry → Entry)
    (e : DeleteEngine) (records : List Record) (name : Bytes) (seriesKeys : List Bytes)
    (hfiles : LoggedFiles C e.dir records e.wal) (hid : e.wal.currentSegmentID < 99999)
    (hreads : ∀ x ∈ records.map Record.entry ++ [.delete seriesKeys name], ReadsAs C x (back x))
    (hback : back (.delete seriesKeys name) = .delete seriesKeys name) :
    Deleted C (e.deleteMeasurement C keyToID name seriesKeys) seriesKeys ↔
      NothingUnflushed e.wal ((records.map (fun r => back r.entry)).foldl Log.replayEntry Log.new)
        seriesKeys := by
  obtain ⟨hsame, -⟩ :=
    Log.writeToLog_spec hfiles.opened.fileCurrent e.dir (entryBytes C (.delete seriesKeys name))
  have hflush : (e.deleteMeasurement C keyToID name seriesKeys).wal.flushCache = e.wal.flushCache :=
    hsame.flushCache
  have hcache : ∀ k, (e.deleteMeasurement C keyToID name seriesKeys).wal.cache.get k =
      if k ∈ seriesKeys then [] else e.wal.cache.get k := by
    intro k
    rw [← hsame.cache]
    exact Log.get_deleteKeysFromCache _ seriesKeys k
  obtain ⟨l, hreplay, hnone, hget⟩ :=
    deleteMeasurement_replay C keyToID name seriesKeys hfiles hid hreads hback
  constructor
  · rintro ⟨hcursor, -, l', hreplay', hcursor'⟩ k hk field
    obtain rfl : l = l' := Option.some.inj (hreplay.symm.trans hreplay')
    have hnil := Log.cursor_eq_nil.mp (hcursor k hk field)
    have hnil' := Log.cursor_eq_nil.mp (hcursor' k hk field)
    rw [hcache, hflush] at hnil
    rw [hget] at hnil'
    refine ⟨hnil.1, fun hnot => ?_⟩
    rw [if_neg hnot] at hnil hnil'
    exact ⟨hnil.2, hnil'.2⟩
  · intro h
    have hcacheNil : ∀ k ∈ seriesKeys, ∀ field,
        (e.deleteMeasurement C keyToID name seriesKeys).wal.cache.get (seriesFieldKey k field) = [] := by
      intro k hk field
      rw [hcache]
      split
      · rfl
      · rename_i hnot
        exact ((h k hk field).2 hnot).1
    refine ⟨fun k hk field => ?_, fun k hk field type => ?_, l, hreplay, fun k hk field => ?_⟩
    · refine Log.cursor_eq_nil.mpr ⟨?_, hcacheNil k hk field⟩
      rw [hflush]
      exact (h k hk field).1
    · rw [Log.flushValues_eq_nil, ((Log.rotate_spec _ _ type).1).cache]
      exact hcacheNil k hk field
    · refine Log.cursor_eq_nil.mpr ⟨by rw [hnone]; rfl, ?_⟩
      rw [hget]
      split
      · rfl
      · rename_i hnot
        exact ((h k hk field).2 hnot).2

/-! ## An example -/

def deleteCodec : EntryCodec := tableCodec [.points [intPoint 1 5], .delete [[109]] [109], .delete [[110]] [110]]

def unflushedLog : Log × Dir UInt8 × ℕ :=
  (Log.addAll { Log.new with currentSegmentID := 1, currentSegmentFile := some ⟨1, 0⟩ }
    [intPoint 1 5] [] []).writeToLog (Dir.create ∅ 1) (entryBytes deleteCodec (.points [intPoint 1 5]))

def unflushedEngine : DeleteEngine := ⟨[], [], [], [], unflushedLog.1, unflushedLog.2.1⟩

theorem unflushed_loggedFiles : LoggedFiles deleteCodec unflushedEngine.dir
    [⟨1, .points [intPoint 1 5], 0⟩] unflushedEngine.wal := by
  have hinitial : LoggedFiles deleteCodec (Dir.create ∅ 1) []
      { Log.new with currentSegmentID := 1, currentSegmentFile := some ⟨1, 0⟩ } := by
    have h := Replayable.initial (C := deleteCodec)
    exact ⟨⟨h.opened.fileCurrent, h.opened.exact_eq, h.opened.le, h.opened.handle, nofun⟩, nofun,
      List.Pairwise.nil, nofun, h.file_le⟩
  exact (hinitial.of_sameFiles (Log.sameFiles_addAll _ [intPoint 1 5] [] [])).logEntry
    (.points [intPoint 1 5]) 0

/-- The delete of a measurement that has no points. -/
theorem deleteMeasurement_deleted_other :
    Deleted deleteCodec (unflushedEngine.deleteMeasurement deleteCodec (fun _ => 0) [110] [[110]]) [[110]] := by
  have hne : ∀ field, seriesFieldKey [110] field ≠ intKey := fun field h => by
    have hhead := congrArg List.head? h
    cases hhead
  have hcache : ∀ field, unflushedEngine.wal.cache.get (seriesFieldKey [110] field) = [] := by
    intro field
    show ValuesByKey.get (AList.insert intKey [⟨1, .int64 5⟩] ∅) _ = []
    rw [ValuesByKey.get_insert, if_neg (hne field)]
    rfl
  refine (deleteMeasurement_deleted_iff deleteCodec (fun _ => 0) (fun x => x) unflushedEngine
    [⟨1, .points [intPoint 1 5], 0⟩] [110] [[110]] unflushed_loggedFiles (by decide) ?_ rfl).mpr ?_
  · exact forall_mem_cons.mpr ⟨⟨by decide, by decide⟩,
      forall_mem_singleton.mpr ⟨by decide, by decide⟩⟩
  · refine forall_mem_singleton.mpr (fun field => ⟨rfl, fun _ => ⟨hcache field, ?_⟩⟩)
    show ValuesByKey.get (AList.insert intKey [⟨1, .int64 5⟩] ∅) _ = []
    rw [ValuesByKey.get_insert, if_neg (hne field)]
    rfl

/-- **A measurement that is not deleted**: after `DeleteMeasurement` of `m` with its
series, the cursor returns the point, a flush takes it, and a replay brings it back. -/
theorem deleteMeasurement_not_deleted :
    LoggedFiles deleteCodec unflushedEngine.dir [⟨1, .points [intPoint 1 5], 0⟩] unflushedEngine.wal ∧
      (unflushedEngine.deleteMeasurement deleteCodec (fun _ => 0) [109] [[109]]).wal.cursor
        (seriesFieldKey [109] [102]) = [⟨1, .int64 5⟩] ∧
      (unflushedEngine.deleteMeasurement deleteCodec (fun _ => 0) [109] [[109]]).wal.flushValues.get
        (seriesFieldKey [109] [102]) = [⟨1, .int64 5⟩] ∧
      (replay deleteCodec (unflushedEngine.deleteMeasurement deleteCodec (fun _ => 0) [109] [[109]]).dir).map
        (fun l => l.cursor (seriesFieldKey [109] [102])) = some [⟨1, .int64 5⟩] :=
  ⟨unflushed_loggedFiles, by decide, by decide, by decide⟩

end AndyEnv.Tsm1.Wal
