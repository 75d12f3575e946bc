import AndyEnv.Lib.Bytes
import AndyEnv.Lib.Files

/-!
# A partition of the WAL of `b1` and `bz1` (`wal.go`)

`Write` cuts the points into blocks, writes each block to the current segment
file and then adds its points to the cache. A flush takes the whole cache, lets
the next write go to a new segment file, hands the cache to the index, and removes
the segment files that are older than the new one.

A block is written as a whole, so a segment file is a list of blocks. What snappy
makes of a block is known by its length only, which decides when the next segment
file is begun.
-/

namespace AndyEnv.Wal

open Bytes

/-! ## Points and blocks -/

structure Point : Type where
  key : Bytes
  time : Int64
  data : Bytes
  /-- The number of the block the point was written in. It tells apart points that
  are alike, and nothing reads it. -/
  block : ℕ
deriving DecidableEq, Repr

def marshalWALEntry (p : Point) : Bytes :=
  putUint64 p.time.toUInt64 ++ putUint32 (UInt32.ofNat p.key.length) ++
    putUint32 (UInt32.ofNat p.data.length) ++ p.key ++ p.data

def walEntryLength (p : Point) : ℕ := 8 + 4 + 4 + p.key.length + p.data.length

def partitionBufLen : ℕ := 16384

/-- The points that still go into a block of the given length, and the others. -/
def fillBlock (length : ℕ) : List Point → List Point × List Point
  | [] => ([], [])
  | p :: ps =>
    if length + walEntryLength p > partitionBufLen then ([], p :: ps)
    else
      let r := fillBlock (length + walEntryLength p) ps
      (p :: r.1, r.2)

/-- The points of the next block, and the remaining ones. A block has at least one
point, however long it is. -/
def cutBlock : List Point → List Point × List Point
  | [] => ([], [])
  | p :: ps =>
    let r := fillBlock (walEntryLength p) ps
    (p :: r.1, r.2)

/-! ## The partition -/

structure CacheEntry : Type where
  points : List Point
  isDirtySort : Bool
  size : ℕ
deriving DecidableEq, Repr

abbrev Cache : Type := AList (fun _ : Bytes => CacheEntry)

def Cache.points (m : Cache) (k : Bytes) : List Point := ((m.lookup k).map CacheEntry.points).getD []

/-- `map[string][][]byte`. -/
abbrev Series : Type := AList (fun _ : Bytes => List Point)

def Series.points (m : Series) (k : Bytes) : List Point := (m.lookup k).getD []

/-- What `WriteIndex` is handed: all the points. -/
def Series.all (m : Series) : List Point := m.entries.flatMap (fun e => e.2)

/-- An open segment file, with the number of blocks before the next write. -/
structure Handle : Type where
  id : ℕ
  offset : ℕ
deriving DecidableEq, Repr

structure Config : Type where
  maxSegmentSize : ℕ
  sizeThreshold : UInt64
  /-- The length of `snappy.Encode`. -/
  encodedLen : Bytes → ℕ

def failWriteMemoryThreshold : UInt64 := 5

structure Partition : Type where
  currentSegmentFile : Option Handle
  currentSegmentSize : ℕ
  currentSegmentID : ℕ
  cache : Cache
  memorySize : UInt64
  flushCache : Option Series
  compactionRunning : Bool
deriving DecidableEq

inductive FlushType : Type where
  | none
  | memory
  | idle
  | threshold
  | delete
deriving DecidableEq, Repr

structure CompactionInfo : Type where
  seriesToFlush : Series
  compactFilesLessThan : ℕ
  flushSize : ℕ
deriving DecidableEq

inductive FlushError : Type where
  | compactionRunning
  | memoryCompactionDone
deriving DecidableEq, Repr

/-- `%02d.%06d.wal`, of the partition 1. -/
def fileNameForSegment (id : ℕ) : Bytes :=
  let digits := (Nat.digits 10 id).reverse
  [48, 49, 46] ++ (List.replicate (6 - digits.length) 0 ++ digits).map
    (fun d => UInt8.ofNat (48 + d)) ++ [46, 119, 97, 108]

/-- `segmentFileNames`: `Glob` sorts the names. -/
def segmentFileNames (dir : Dir (List Point)) : List ℕ :=
  dir.keys.insertionSort
    (fun a b => le (fileNameForSegment a) (fileNameForSegment b) = true)

/-- The loop of `openPartitionFile` over the entries of a file. -/
def seriesToFlush (entries : List Point) : Series :=
  entries.foldl (fun m e => m.insert e.key (m.points e.key ++ [e])) ∅

namespace Partition

/-- `NewPartition`. -/
def new : Partition := ⟨none, 0, 0, ∅, 0, none, false⟩

/-- The first lines of `Write`: whether the write fails. -/
def shouldFailWrite (cfg : Config) (p : Partition) : Bool :=
  decide (p.memorySize > cfg.sizeThreshold) && p.compactionRunning &&
    decide (p.memorySize > cfg.sizeThreshold * failWriteMemoryThreshold)

/-- `newSegmentFile`: the file is opened without truncation. -/
def newSegmentFile (p : Partition) (dir : Dir (List Point)) : Partition × Dir (List Point) :=
  let id := p.currentSegmentID + 1
  ({ p with currentSegmentID := id, currentSegmentSize := 0, currentSegmentFile := some ⟨id, 0⟩ },
    dir.create id)

def rotate (cfg : Config) (p : Partition) (dir : Dir (List Point)) : Partition × Dir (List Point) :=
  if p.currentSegmentFile = none ∨ p.currentSegmentSize > cfg.maxSegmentSize then
    p.newSegmentFile dir
  else (p, dir)

def writeBlock (cfg : Config) (p : Partition) (dir : Dir (List Point)) (block : List Point) :
    Partition × Dir (List Point) :=
  let r := p.rotate cfg dir
  match r.1.currentSegmentFile with
  | none => r
  | some h =>
    ({ r.1 with
        currentSegmentFile := some ⟨h.id, h.offset + 1⟩
        currentSegmentSize :=
          r.1.currentSegmentSize + (8 + cfg.encodedLen (block.flatMap marshalWALEntry)) },
      r.2.writeAt h.id h.offset [block])

def addToCache (p : Partition) (pp : Point) : Partition :=
  let n := 8 + pp.data.length
  let entry : CacheEntry := match p.cache.lookup pp.key with
    | none => ⟨[pp], false, n⟩
    | some e =>
      ⟨e.points ++ [pp],
        -- don't bother if we already know it has to be sorted
        e.isDirtySort || (e.points.getLast?.map (fun last =>
          decide (pp.time.toUInt64 ≤ last.time.toUInt64))).getD false,
        e.size + n⟩
  { p with
    memorySize := p.memorySize + UInt64.ofNat n
    cache := p.cache.insert pp.key entry }

def cachedSeries (p : Partition) : Series :=
  p.cache.entries.foldl (fun m e => m.insert e.1 e.2.points) ∅

/-- The segment file of a flush. An idle flush closes the file and leaves it to the
next write to open one. -/
def rollOver (p : Partition) (dir : Dir (List Point)) : FlushType → Partition × Dir (List Point)
  | .idle => ({ p with
      currentSegmentFile := none, currentSegmentID := p.currentSegmentID + 1,
      currentSegmentSize := 0 }, dir)
  | _ => p.newSegmentFile dir

def prepareSeriesToFlush (cfg : Config) (p : Partition) (dir : Dir (List Point))
    (flush : FlushType) : Except FlushError (Partition × Dir (List Point) × CompactionInfo) :=
  if p.compactionRunning then .error .compactionRunning
  else if flush = .memory ∧ p.memorySize < cfg.sizeThreshold then .error .memoryCompactionDone
  else
    let series := p.cachedSeries
    let size := (p.cache.entries.map (fun e => e.2.size)).sum
    let (p, dir) := ({ p with compactionRunning := true, cache := ∅ } : Partition).rollOver dir flush
    .ok ({ p with flushCache := some series }, dir, ⟨series, p.currentSegmentID, size⟩)

/-- `flushAndCompact` when the index has taken the points. -/
def clearFlushCache (p : Partition) (c : CompactionInfo) : Partition :=
  { p with flushCache := none, memorySize := p.memorySize - UInt64.ofNat c.flushSize }

def deleteKeys (p : Partition) (keys : List Bytes) : Partition :=
  { p with cache := keys.foldl (fun m k => m.erase k) p.cache }

end Partition

end AndyEnv.Wal
