import AndyEnv.Lib.Files
import AndyEnv.Tsm1.Wal.Entry

/-!
# The write-ahead log (`wal.go`)

`Log` caches values by series field and logs entries to segment files. A write
at or before the last time of its series field marks the field as dirty; a
dirty field is deduplicated when it is read or flushed. A flush moves the
cache to `flushCache`, hands it to the index, and then removes the segment
files whose number is at most the one that was current when it began.

`SkipCache`, `SkipDurability` and `Close` are not modelled, and of file
errors only those that the content of a file causes.
-/

namespace AndyEnv.Tsm1.Wal

open List Keyed Option Values

/-- `map[string]Values`. -/
abbrev ValuesByKey : Type := AList (fun _ : Bytes => Values)

/-- The values of a key, and none for a key that is not in the map. -/
def ValuesByKey.get (m : ValuesByKey) (k : Bytes) : Values := (m.lookup k).getD []

/-- An open segment file, with the offset of the next write. -/
structure Handle : Type where
  id : ℕ
  offset : ℕ
deriving DecidableEq, Repr

structure Config : Type where
  flushMemorySizeThreshold : ℕ
  maxMemorySizeThreshold : ℕ
deriving DecidableEq, Repr

structure Log : Type where
  currentSegmentID : ℕ
  currentSegmentFile : Option Handle
  currentSegmentSize : ℕ
  flushRunning : Bool
  cache : ValuesByKey
  /-- The keys of the map. -/
  cacheDirtySort : List Bytes
  flushCache : Option ValuesByKey
  memorySize : ℕ
  /-- The measurements of the map. -/
  measurementFieldsCache : List Bytes
  seriesToCreateCache : List Bytes
deriving DecidableEq

namespace Log

/-- `NewLog`, with the maps that `Open` makes. -/
def new : Log := ⟨0, none, 0, false, ∅, [], none, 0, [], []⟩

/-! ## The cache -/

/-- One round of the inner loop of `addToCache`. -/
def addValue (l : Log) (kv : Bytes × Value) : Log :=
  let cacheValues := l.cache.get kv.1
  -- only mark it as dirty if it isn't already
  let dirty := decide (kv.1 ∉ l.cacheDirtySort) &&
    (cacheValues.getLast?.map (fun last => decide (last.unixNano ≥ kv.2.unixNano))).getD false
  { l with
    cacheDirtySort := if dirty then kv.1 :: l.cacheDirtySort else l.cacheDirtySort
    memorySize := l.memorySize + kv.2.size
    cache := l.cache.insert kv.1 (cacheValues ++ [kv.2]) }

/-- `addToCache` past its checks. -/
def addAll (l : Log) (points : List Point) (fields series : List Bytes) : Log :=
  let l := (points.flatMap Point.values).foldl addValue l
  { l with
    measurementFieldsCache := l.measurementFieldsCache ++
      fields.filter (fun k => k ∉ l.measurementFieldsCache)
    seriesToCreateCache := l.seriesToCreateCache ++ series }

/-- What `addToCache` does: the log, whether it starts a flush, and whether
the points are accepted. -/
structure Added : Type where
  log : Log
  startsFlush : Bool
  accepted : Bool

def addToCache (cfg : Config) (l : Log) (points : List Point) (fields series : List Bytes)
    (checkMemory : Bool) : Added :=
  if checkMemory && decide (l.memorySize > cfg.flushMemorySizeThreshold) then
    let startsFlush := !l.flushRunning
    let l := { l with flushRunning := true }
    if l.memorySize > cfg.maxMemorySizeThreshold then ⟨l, startsFlush, false⟩
    else ⟨l.addAll points fields series, startsFlush, true⟩
  else ⟨l.addAll points fields series, false, true⟩

def deleteKeysFromCache (l : Log) (keys : List Bytes) : Log :=
  { l with
    cache := keys.foldl (fun m k => m.erase k) l.cache
    -- now remove any of these that are marked for creation
    seriesToCreateCache := l.seriesToCreateCache.filter (fun sc =>
      decide (sc ∉ keys.map seriesFromCompositeKey)) }

def deleteMeasurementFromCache (l : Log) (name : Bytes) : Log :=
  { l with measurementFieldsCache := l.measurementFieldsCache.filter (fun k => k ≠ name) }

/-- The values `Cursor` iterates over. -/
def cursor (l : Log) (ck : Bytes) : Values :=
  let values := l.cache.get ck
  match l.flushCache.bind (fun m => m.lookup ck) with
  -- in the middle of a flush, combine the previous cache with this one
  | some fc => deduplicate (fc ++ values)
  | none => if ck ∈ l.cacheDirtySort then deduplicate values else values

/-- `readFileToCache` hands an entry to the cache. The deletes it marks in
the index are not modelled. -/
def replayEntry (l : Log) : Entry → Log
  | .points ps => l.addAll ps [] []
  | .fields names => l.addAll [] names []
  | .series keys => l.addAll [] [] keys
  | .delete keys name =>
    let l := l.deleteKeysFromCache keys
    if name ≠ [] then l.deleteMeasurementFromCache name else l

end Log

/-! ## Segment files -/

def paddedDigits (n : ℕ) : List ℕ :=
  let digits := (Nat.digits 10 n).reverse
  List.replicate (5 - digits.length) 0 ++ digits

/-- `_%05d.wal`. -/
def fileName (id : ℕ) : Bytes :=
  95 :: ((paddedDigits id).map (fun d => UInt8.ofNat (48 + d)) ++ [46, 119, 97, 108])

/-- `segmentFileNames`: the files, sorted by their names. -/
def segmentFileNames (dir : Dir UInt8) : List ℕ :=
  dir.keys.insertionSort (fun a b => Bytes.le (fileName a) (fileName b) = true)

def defaultSegmentSize : ℕ := 2 * 1024 * 1024

inductive FlushType : Type where
  | memory
  | idle
  | startup
deriving DecidableEq, Repr

namespace Log

/-- `newSegmentFile`: the file is created if it is not there, and written from
its beginning. -/
def newSegmentFile (l : Log) (dir : Dir UInt8) : Log × Dir UInt8 × Handle :=
  let id := l.currentSegmentID + 1
  ({ l with currentSegmentID := id, currentSegmentFile := some ⟨id, 0⟩, currentSegmentSize := 0 },
    dir.create id, ⟨id, 0⟩)

def segmentFile (l : Log) (dir : Dir UInt8) : Log × Dir UInt8 × Handle :=
  match l.currentSegmentFile with
  | none => l.newSegmentFile dir
  | some h =>
    if l.currentSegmentSize > defaultSegmentSize then l.newSegmentFile dir else (l, dir, h)

/-- `writeToLog`, with the bytes of the entry and the segment they go to. -/
def writeToLog (l : Log) (dir : Dir UInt8) (data : Bytes) : Log × Dir UInt8 × ℕ :=
  let (l, dir, h) := l.segmentFile dir
  ({ l with
      currentSegmentFile := some ⟨h.id, h.offset + data.length⟩
      currentSegmentSize := l.currentSegmentSize + data.length },
    dir.writeAt h.id h.offset data, h.id)

/-- The rotation at the start of `flush`. An idle flush closes the segment
file and does not open another one. -/
def rotate (l : Log) (dir : Dir UInt8) : FlushType → Log × Dir UInt8
  | .idle =>
    match l.currentSegmentFile with
    | none => (l, dir)
    | some _ => ({ l with currentSegmentFile := none, currentSegmentSize := 0 }, dir)
  | _ => let r := l.newSegmentFile dir; (r.1, r.2.1)

/-- The values that get flushed: the cache, with the dirty keys deduplicated. -/
def flushValues (l : Log) : ValuesByKey :=
  l.cacheDirtySort.foldl (fun m k => m.insert k (deduplicate (m.get k))) l.cache

def swapCache (l : Log) : Log :=
  { l with
    flushRunning := true
    flushCache := some l.flushValues
    cache := ∅
    cacheDirtySort := []
    memorySize := 0
    measurementFieldsCache := []
    seriesToCreateCache := [] }

def nothingToFlush (l : Log) : Bool :=
  l.flushValues.entries.isEmpty && l.measurementFieldsCache.isEmpty &&
    l.seriesToCreateCache.isEmpty

end Log

/-! ## What the cache holds -/

def valuesOf (k : Bytes) (kvs : List (Bytes × Value)) : Values :=
  (kvs.filter (fun kv => kv.1 = k)).map Prod.snd

@[simp] theorem valuesOf_nil (k : Bytes) : valuesOf k [] = [] := rfl

theorem valuesOf_append (k : Bytes) (xs ys : List (Bytes × Value)) :
    valuesOf k (xs ++ ys) = valuesOf k xs ++ valuesOf k ys := by
  rw [valuesOf, filter_append, map_append]
  rfl

theorem valuesOf_cons_self (k : Bytes) (v : Value) (xs : List (Bytes × Value)) :
    valuesOf k ((k, v) :: xs) = v :: valuesOf k xs := by
  simp [valuesOf]

theorem mem_valuesOf {k : Bytes} {v : Value} {kvs : List (Bytes × Value)} :
    v ∈ valuesOf k kvs ↔ (k, v) ∈ kvs := by
  simp [valuesOf]

namespace ValuesByKey

@[simp] theorem get_empty (k : Bytes) : ValuesByKey.get ∅ k = [] := rfl

theorem get_insert (m : ValuesByKey) (k j : Bytes) (vs : Values) :
    ValuesByKey.get (m.insert k vs) j = if j = k then vs else m.get j := by
  unfold ValuesByKey.get
  split
  · rename_i h
    rw [h, AList.lookup_insert]
    rfl
  · rename_i h
    rw [AList.lookup_insert_ne h]

end ValuesByKey

namespace Log

/-- A key that is not dirty is in order. -/
def CacheSorted (l : Log) : Prop :=
  ∀ k, k ∉ l.cacheDirtySort → Ascending (l.cache.get k)

theorem get_addValue (l : Log) (kv : Bytes × Value) (k : Bytes) :
    (l.addValue kv).cache.get k = l.cache.get k ++ valuesOf k [kv] := by
  rw [addValue, ValuesByKey.get_insert]
  by_cases h : k = kv.1
  · subst h
    simp [valuesOf]
  · have hne : ¬ kv.1 = k := fun h' => h h'.symm
    simp [h, valuesOf, hne]

variable {l : Log}

theorem CacheSorted.addValue (h : l.CacheSorted) (kv : Bytes × Value) :
    (l.addValue kv).CacheSorted := by
  intro k hk
  rw [get_addValue]
  by_cases hkey : kv.1 = k
  · subst hkey
    have hval : valuesOf kv.1 [kv] = [kv.2] := by simp [valuesOf]
    rw [hval]
    -- the key was not dirty before, and this value did not make it so
    unfold Log.addValue at hk
    dsimp only at hk
    split at hk
    · exact absurd mem_cons_self hk
    rename_i hclean
    simp only [hk, not_false_eq_true, decide_true, Bool.true_and] at hclean
    refine ascending_append.mpr ⟨h _ hk, pairwise_singleton _ _, fun x hx y hy => ?_⟩
    rw [mem_singleton.mp hy]
    obtain ⟨init, last, hlast⟩ : ∃ init last, l.cache.get kv.1 = init ++ [last] :=
      ⟨_, _, (dropLast_append_getLast (ne_nil_of_mem hx)).symm⟩
    rw [hlast, List.getLast?_concat] at hclean
    have hlt : last.unixNano < kv.2.unixNano := by simpa using hclean
    have hasc := h _ hk
    rw [hlast] at hasc hx
    rcases mem_append.mp hx with hx | hx
    · exact ((ascending_append.mp hasc).2.2 x hx last mem_cons_self).trans hlt
    · rw [mem_singleton.mp hx]
      exact hlt
  · have hval : valuesOf k [kv] = [] := by simp [valuesOf, hkey]
    rw [hval, append_nil]
    refine h k (fun hmem => hk ?_)
    unfold Log.addValue
    dsimp only
    split
    · exact mem_cons_of_mem _ hmem
    · exact hmem

theorem get_foldl_addValue (k : Bytes) : ∀ (kvs : List (Bytes × Value)) (l : Log),
    (kvs.foldl Log.addValue l).cache.get k = l.cache.get k ++ valuesOf k kvs
  | [], l => (append_nil _).symm
  | kv :: kvs, l => by
    rw [foldl_cons, get_foldl_addValue k kvs, get_addValue, append_assoc,
      ← valuesOf_append, singleton_append]

theorem CacheSorted.foldl (h : l.CacheSorted) (kvs : List (Bytes × Value)) :
    (kvs.foldl Log.addValue l).CacheSorted := by
  induction kvs generalizing l with
  | nil => exact h
  | cons kv kvs ih => exact ih (h.addValue kv)

structure SameFiles (l l' : Log) : Prop where
  currentSegmentID : l'.currentSegmentID = l.currentSegmentID
  currentSegmentFile : l'.currentSegmentFile = l.currentSegmentFile
  currentSegmentSize : l'.currentSegmentSize = l.currentSegmentSize
  flushCache : l'.flushCache = l.flushCache

theorem sameFiles_foldl_addValue : ∀ (kvs : List (Bytes × Value)) (l : Log),
    SameFiles l (kvs.foldl Log.addValue l)
  | [], _ => ⟨rfl, rfl, rfl, rfl⟩
  | kv :: kvs, l => by
    obtain ⟨h1, h2, h3, h4⟩ := sameFiles_foldl_addValue kvs (l.addValue kv)
    exact ⟨h1, h2, h3, h4⟩

section

variable (l : Log) (points : List Point) (fields series : List Bytes)

theorem sameFiles_addAll : SameFiles l (l.addAll points fields series) := by
  obtain ⟨h1, h2, h3, h4⟩ := sameFiles_foldl_addValue (points.flatMap Point.values) l
  exact ⟨h1, h2, h3, h4⟩

theorem get_addAll (k : Bytes) : (l.addAll points fields series).cache.get k =
      l.cache.get k ++ valuesOf k (points.flatMap Point.values) :=
  get_foldl_addValue k _ l

end

theorem CacheSorted.addAll (h : l.CacheSorted) (points : List Point)
    (fields series : List Bytes) : (l.addAll points fields series).CacheSorted :=
  h.foldl (points.flatMap Point.values)

/-- **`addToCache`** appends the points to the cache, or leaves it as it is. -/
theorem addToCache_spec (cfg : Config) (l : Log) (points : List Point)
    (fields series : List Bytes) (checkMemory : Bool) :
    SameFiles l (l.addToCache cfg points fields series checkMemory).log ∧
      (l.CacheSorted → (l.addToCache cfg points fields series checkMemory).log.CacheSorted) ∧
      ∀ k, (l.addToCache cfg points fields series checkMemory).log.cache.get k =
        l.cache.get k ++ valuesOf k (if (l.addToCache cfg points fields series checkMemory).accepted
          then points.flatMap Point.values else []) := by
  unfold addToCache
  split
  · dsimp only
    split
    · exact ⟨⟨rfl, rfl, rfl, rfl⟩, id, fun k => by simp⟩
    · obtain ⟨h1, h2, h3, h4⟩ :=
        sameFiles_addAll { l with flushRunning := true } points fields series
      exact ⟨⟨h1, h2, h3, h4⟩, fun h => CacheSorted.addAll (l := { l with flushRunning := true }) h _ _ _,
        fun k => by simpa using get_addAll { l with flushRunning := true } points fields series k⟩
  · exact ⟨sameFiles_addAll l points fields series, fun h => h.addAll _ _ _,
      fun k => by simpa using get_addAll l points fields series k⟩

/-! ## What a flush takes and a cursor returns -/

theorem deduplicate_deduplicate (vs : Values) : deduplicate (deduplicate vs) = deduplicate vs :=
  ofList_of_ascending (ascending_ofList vs)

theorem get_foldl_deduplicate (k : Bytes) : ∀ (ks : List Bytes) (m : ValuesByKey),
    ValuesByKey.get (ks.foldl (fun m k => m.insert k (deduplicate (m.get k))) m) k =
      if k ∈ ks then deduplicate (m.get k) else m.get k
  | [], m => by simp
  | j :: ks, m => by
    rw [foldl_cons, get_foldl_deduplicate k ks, ValuesByKey.get_insert]
    by_cases hj : k = j
    · subst hj
      simp [deduplicate_deduplicate]
    · simp [hj]

/-- **The flush takes the cache, last one wins.** -/
theorem CacheSorted.get_flushValues (h : l.CacheSorted) (k : Bytes) :
    l.flushValues.get k = deduplicate (l.cache.get k) := by
  rw [flushValues, get_foldl_deduplicate]
  split
  · rfl
  · rename_i hk
    exact (ofList_of_ascending (h k hk)).symm

/-- **The cursor returns the flush cache and the cache, last one wins.** -/
theorem CacheSorted.cursor_eq (h : l.CacheSorted) (k : Bytes) :
    l.cursor k = deduplicate ((l.flushCache.getD ∅).get k ++ l.cache.get k) := by
  unfold cursor
  cases hfc : l.flushCache with
  | none =>
    rw [bind_none, getD_none, ValuesByKey.get_empty, nil_append]
    dsimp only
    split
    · rfl
    · rename_i hk
      exact (ofList_of_ascending (h k hk)).symm
  | some m =>
    rw [bind_some, getD_some]
    cases hm : m.lookup k with
    | some fc =>
      have hget : m.get k = fc := by rw [ValuesByKey.get, hm, getD_some]
      rw [hget]
    | none =>
      have hget : m.get k = [] := by rw [ValuesByKey.get, hm, getD_none]
      rw [hget, nil_append]
      dsimp only
      split
      · rfl
      · rename_i hk
        exact (ofList_of_ascending (h k hk)).symm

/-! ## Where a write goes -/

/-- Two logs agree on the cache and on the flush cache. -/
structure SameCache (l l' : Log) : Prop where
  cache : l'.cache = l.cache
  cacheDirtySort : l'.cacheDirtySort = l.cacheDirtySort
  flushCache : l'.flushCache = l.flushCache
  memorySize : l'.memorySize = l.memorySize

theorem SameCache.cacheSorted {l' : Log} (h : SameCache l l') (hl : l.CacheSorted) :
    l'.CacheSorted := by
  intro k hk
  rw [h.cache]
  exact hl k (h.cacheDirtySort ▸ hk)

/-- The current file, if any, is the one of the current number. -/
def FileCurrent (l : Log) : Prop :=
  ∀ h ∈ l.currentSegmentFile, h.id = l.currentSegmentID

section

variable (l : Log) (dir : Dir UInt8)

theorem rotate_spec (type : FlushType) :
    SameCache l (l.rotate dir type).1 ∧ l.currentSegmentID ≤ (l.rotate dir type).1.currentSegmentID ∧
      (∀ h ∈ (l.rotate dir type).1.currentSegmentFile, h = ⟨l.currentSegmentID + 1, 0⟩ ∧
        (l.rotate dir type).1.currentSegmentID = l.currentSegmentID + 1) := by
  unfold rotate
  split
  · split
    · rename_i hnone
      refine ⟨⟨rfl, rfl, rfl, rfl⟩, le_rfl, fun h hh => ?_⟩
      rw [hnone] at hh
      cases hh
    · exact ⟨⟨rfl, rfl, rfl, rfl⟩, le_rfl, fun h hh => by cases hh⟩
  · refine ⟨⟨rfl, rfl, rfl, rfl⟩, Nat.le_succ _, fun h hh => ?_⟩
    cases hh
    exact ⟨rfl, rfl⟩

/-- The segment a write goes to is the current one, or a new one. -/
theorem segmentFile_spec : SameCache l (l.segmentFile dir).1 ∧
      ((∃ h, l.currentSegmentFile = some h ∧ l.segmentFile dir = (l, dir, h)) ∨
        l.segmentFile dir = l.newSegmentFile dir) := by
  unfold segmentFile
  split
  · exact ⟨⟨rfl, rfl, rfl, rfl⟩, .inr rfl⟩
  · rename_i h hfile
    split
    · exact ⟨⟨rfl, rfl, rfl, rfl⟩, .inr rfl⟩
    · exact ⟨⟨rfl, rfl, rfl, rfl⟩, .inl ⟨h, hfile, rfl⟩⟩

theorem writeToLog_eq (data : Bytes) : l.writeToLog dir data =
      ({ (l.segmentFile dir).1 with
          currentSegmentFile := some ⟨(l.segmentFile dir).2.2.id,
            (l.segmentFile dir).2.2.offset + data.length⟩
          currentSegmentSize := (l.segmentFile dir).1.currentSegmentSize + data.length },
        (l.segmentFile dir).2.1.writeAt (l.segmentFile dir).2.2.id (l.segmentFile dir).2.2.offset
          data, (l.segmentFile dir).2.2.id) := rfl

end

/-- A write keeps the cache and goes to the current segment, which is not an
older one. -/
theorem writeToLog_spec (hl : l.FileCurrent) (dir : Dir UInt8) (data : Bytes) :
    SameCache l (l.writeToLog dir data).1 ∧ (l.writeToLog dir data).1.FileCurrent ∧
      l.currentSegmentID ≤ (l.writeToLog dir data).1.currentSegmentID ∧
      (l.writeToLog dir data).2.2 = (l.writeToLog dir data).1.currentSegmentID ∧
      (l.currentSegmentFile = none → (l.writeToLog dir data).2.2 = l.currentSegmentID + 1) := by
  obtain ⟨hsame, ⟨h, hfile, heq⟩ | heq⟩ := segmentFile_spec l dir
  · rw [writeToLog_eq, heq]
    have hid := hl h hfile
    refine ⟨⟨rfl, rfl, rfl, rfl⟩, ?_, le_rfl, hid, fun hnone => ?_⟩
    · intro h' hh'
      cases hh'
      exact hid
    · rw [hfile] at hnone
      cases hnone
  · rw [writeToLog_eq, heq]
    refine ⟨⟨rfl, rfl, rfl, rfl⟩, ?_, Nat.le_succ _, rfl, fun _ => rfl⟩
    intro h' hh'
    cases hh'
    rfl

theorem currentSegmentID_writeToLog_le (l : Log) (dir : Dir UInt8) (data : Bytes) :
    (l.writeToLog dir data).1.currentSegmentID ≤ l.currentSegmentID + 1 := by
  obtain ⟨-, ⟨h, -, heq⟩ | heq⟩ := segmentFile_spec l dir
  · rw [writeToLog_eq, heq]
    exact Nat.le_succ _
  · rw [writeToLog_eq, heq]
    exact le_rfl

end Log

end AndyEnv.Tsm1.Wal
