import AndyEnv.Lib.Run
import AndyEnv.Wal.Partition

/-!
# The runs of a partition

`Write`, `flushAndCompact` and `DeleteSeries` take the lock of the partition
several times, so their parts interleave. A `Write` holds the lock from its first
block to its return. A flush swaps the cache and the segment file under the lock;
it hands the cache to the index and removes the old files without it. `Open` hands
each segment file to the index and removes it. A crash loses everything but the
files and the index, and `Open` may crash as well.

`blocks`, `logged`, `writes`, `deletes` and `deleted` say what the run has done so
far. No step reads them.
-/

namespace AndyEnv.Wal

/-! ## States -/

structure Writing : Type where
  remainingPoints : List Point
  /-- The points of the block that was written, to be added to the cache. -/
  marshaledPoints : List Point
  /-- The points of all the blocks it has written. -/
  written : List Point
deriving DecidableEq, Repr

/-- A `Write` that is over: the points of its blocks, and whether it returned nil. -/
structure Written : Type where
  points : List Point
  acknowledged : Bool
deriving DecidableEq, Repr

/-- A call of `DeleteSeries`, and how many blocks were written before it. -/
structure Delete : Type where
  call : ℕ
  keys : List Bytes
  before : ℕ
deriving DecidableEq, Repr

/-- A call of `DeleteSeries` that returned nil, and the points that the index was
handed since. -/
structure Deleted : Type where
  delete : Delete
  handed : List Point
deriving DecidableEq, Repr

inductive Stage : Type where
  | prepared
  | indexed
  | cleared
  | removing (fileNames : List ℕ)
deriving DecidableEq, Repr

structure Flush : Type where
  info : CompactionInfo
  stage : Stage
  /-- The `DeleteSeries` whose flush it is. -/
  delete : Option Delete
deriving DecidableEq

/-- A running `Open`: the files still to be replayed, and whether the index has
taken the first of them. -/
structure Opening : Type where
  fileNames : List ℕ
  indexed : Bool
deriving DecidableEq, Repr

/-- What an open log has beside its files. -/
structure Running : Type where
  partition : Partition
  /-- The points of the writes that wait for the lock. -/
  waiting : List (List Point)
  writing : Option Writing
  /-- A `DeleteSeries` that has removed its keys from the cache, before its flush. -/
  deleting : Option Delete
  flush : Option Flush
deriving DecidableEq

inductive Phase : Type where
  | closed
  | opening (o : Opening)
  | running (r : Running)
deriving DecidableEq

/-- The write that has the lock. -/
def Phase.writing : Phase → Option Writing
  | .running r => r.writing
  | _ => none

structure State : Type where
  dir : Dir (List Point)
  /-- The points `WriteIndex` was handed, in order. -/
  index : List Point
  phase : Phase
  /-- How many blocks were written. -/
  blocks : ℕ
  /-- The blocks of the files that are there, each with the number of its file. -/
  logged : List (ℕ × List Point)
  writes : List Written
  /-- How many calls of `DeleteSeries` there were. -/
  deletes : ℕ
  deleted : List Deleted
deriving DecidableEq

namespace State

/-- An empty directory. -/
def init : State := ⟨∅, [], .closed, 0, [], [], 0, []⟩

/-- `WriteIndex` takes the points. -/
def hand (s : State) (points : List Point) : State :=
  { s with
    index := s.index ++ points
    deleted := s.deleted.map (fun d => { d with handed := d.handed ++ points }) }

def remove (s : State) (id : ℕ) : State :=
  { s with
    dir := s.dir.erase id
    logged := s.logged.filter (fun r => r.1 ≠ id) }

def deleteReturns (s : State) : Option Delete → State
  | none => s
  | some d => { s with deleted := s.deleted ++ [⟨d, []⟩] }

def crashed (s : State) : State :=
  { s with
    phase := .closed
    writes := s.writes ++ (s.phase.writing.map (fun w => ⟨w.written, false⟩)).toList }

def history (s : State) : List Point :=
  s.writes.flatMap Written.points ++ (s.phase.writing.map Writing.written).getD []

end State

inductive Op : Type where
  | openLog
  /-- `Open` reads its next file and hands it to the index. -/
  | replayFile
  /-- `Open` removes the file. -/
  | removeReplayed
  /-- `Open` returns nil. -/
  | opened
  /-- `Write` checks the memory. -/
  | write (points : List Point)
  /-- One of the writes gets the lock. -/
  | lock (i : ℕ)
  | writeBlock
  | addToCache
  | writeReturns
  /-- `DeleteSeries` removes the keys from the cache. -/
  | deleteSeries (keys : List Bytes)
  /-- `DeleteSeries` calls `flushAndCompact`. -/
  | deleteFlush
  /-- Another call of `flushAndCompact`. -/
  | flush (type : FlushType)
  | writeIndex
  | clearFlushCache
  /-- `removeOldSegmentFiles` lists the files. -/
  | listSegments
  | removeSegment
  | endFlush
  | crash
deriving DecidableEq, Repr

/-! ## Steps -/

section Steps

variable (cfg : Config)

/-! ### `Open` -/

/-- `readFile`, which opens the file with `O_CREATE`, and `WriteIndex`. -/
def stepReplayFile (s : State) : Opening → Option State
  | ⟨f :: fs, false⟩ =>
    let entries := ((s.dir.lookup f).getD []).flatten
    some { s.hand (seriesToFlush entries).all with
      dir := s.dir.create f
      phase := .opening ⟨f :: fs, true⟩ }
  | _ => none

def stepRemoveReplayed (s : State) : Opening → Option State
  | ⟨f :: fs, true⟩ => some { s.remove f with phase := .opening ⟨fs, false⟩ }
  | _ => none

def stepOpened (s : State) : Opening → Option State
  | ⟨[], _⟩ => some { s with phase := .running ⟨Partition.new, [], none, none, none⟩ }
  | _ => none

/-! ### `Write` -/

def stepWrite (s : State) (r : Running) (points : List Point) : Option State :=
  if r.partition.shouldFailWrite cfg then some s
  else some { s with phase := .running { r with waiting := r.waiting ++ [points] } }

def stepLock (s : State) (r : Running) (i : ℕ) : Option State :=
  match r.writing, r.waiting[i]? with
  | none, some points => some { s with
      phase := .running { r with
        waiting := r.waiting.eraseIdx i
        writing := some ⟨points, [], []⟩ } }
  | _, _ => none

def stepWriteBlock (s : State) (r : Running) : Option State :=
  match r.writing with
  | some ⟨pp :: pps, [], written⟩ =>
    let cut := cutBlock (pp :: pps)
    let block := cut.1.map (fun q => { q with block := s.blocks })
    let (p, dir) := r.partition.writeBlock cfg s.dir block
    some { s with
      dir := dir
      phase := .running { r with
        partition := p
        writing := some ⟨cut.2, block, written ++ block⟩ }
      blocks := s.blocks + 1
      logged := s.logged ++ [(p.currentSegmentID, block)] }
  | _ => none

def stepAddToCache (s : State) (r : Running) : Option State :=
  match r.writing with
  | some ⟨remaining, pp :: pps, written⟩ => some { s with
      phase := .running { r with
        partition := (pp :: pps).foldl Partition.addToCache r.partition
        writing := some ⟨remaining, [], written⟩ } }
  | _ => none

/-- `Sync` fails if there is no file. -/
def stepWriteReturns (s : State) (r : Running) : Option State :=
  match r.writing with
  | some ⟨[], [], written⟩ => some { s with
      phase := .running { r with writing := none }
      writes := s.writes ++ [⟨written, r.partition.currentSegmentFile.isSome⟩] }
  | _ => none

/-! ### Flushes and deletes -/

/-- `DeleteSeries` holds the lock of the log until it returns, so that there is one
call at a time. -/
def stepDeleteSeries (s : State) (r : Running) (keys : List Bytes) : Option State :=
  match r.writing, r.deleting, r.flush.bind Flush.delete with
  | none, none, none => some { s with
      phase := .running { r with
        partition := r.partition.deleteKeys keys
        deleting := some ⟨s.deletes, keys, s.blocks⟩ }
      deletes := s.deletes + 1 }
  | _, _, _ => none

/-- `flushAndCompact` up to its call of `WriteIndex`. If there is nothing to flush it
returns, and `compactionRunning` stays set. -/
def beginFlush (s : State) (r : Running) (type : FlushType) (d : Option Delete) : State :=
  match r.partition.prepareSeriesToFlush cfg s.dir type with
  | .error _ => { s.deleteReturns d with phase := .running r }
  | .ok (p, dir, c) =>
    if c.seriesToFlush.entries = [] then { s.deleteReturns d with
      dir := dir, phase := .running { r with partition := p } }
    else { s with
      dir := dir, phase := .running { r with partition := p, flush := some ⟨c, .prepared, d⟩ } }

def stepFlush (s : State) (r : Running) (type : FlushType) : Option State :=
  match r.writing with
  | none => some (beginFlush cfg s r type none)
  | some _ => none

def stepDeleteFlush (s : State) (r : Running) : Option State :=
  match r.writing, r.deleting with
  | none, some d => some (beginFlush cfg s { r with deleting := none } .delete (some d))
  | _, _ => none

def stepWriteIndex (s : State) (r : Running) : Option State :=
  match r.flush with
  | some ⟨c, .prepared, d⟩ => some { s.hand c.seriesToFlush.all with
      phase := .running { r with flush := some ⟨c, .indexed, d⟩ } }
  | _ => none

def stepClearFlushCache (s : State) (r : Running) : Option State :=
  match r.writing, r.flush with
  | none, some ⟨c, .indexed, d⟩ => some { s with
      phase := .running { r with
        partition := r.partition.clearFlushCache c
        flush := some ⟨c, .cleared, d⟩ } }
  | _, _ => none

def stepListSegments (s : State) (r : Running) : Option State :=
  match r.flush with
  | some ⟨c, .cleared, d⟩ => some { s with
      phase := .running { r with flush := some ⟨c, .removing (segmentFileNames s.dir), d⟩ } }
  | _ => none

/-- One round of the loop of `removeOldSegmentFiles`. -/
def stepRemoveSegment (s : State) (r : Running) : Option State :=
  match r.flush with
  | some ⟨c, .removing (id :: ids), d⟩ =>
    if id ≥ c.compactFilesLessThan then some { s with
      phase := .running { r with flush := some ⟨c, .removing [], d⟩ } }
    else some { s.remove id with
      phase := .running { r with flush := some ⟨c, .removing ids, d⟩ } }
  | _ => none

def stepEndFlush (s : State) (r : Running) : Option State :=
  match r.writing, r.flush with
  | none, some ⟨_, .removing [], d⟩ => some { s.deleteReturns d with
      phase := .running { r with
        partition := { r.partition with compactionRunning := false }
        flush := none } }
  | _, _ => none

/-! ### The system -/

def stepOpening (s : State) (o : Opening) : Op → Option State
  | .replayFile => stepReplayFile s o
  | .removeReplayed => stepRemoveReplayed s o
  | .opened => stepOpened s o
  | .crash => some s.crashed
  | _ => none

def stepRunning (s : State) (r : Running) : Op → Option State
  | .write points => stepWrite cfg s r points
  | .lock i => stepLock s r i
  | .writeBlock => stepWriteBlock cfg s r
  | .addToCache => stepAddToCache s r
  | .writeReturns => stepWriteReturns s r
  | .deleteSeries keys => stepDeleteSeries s r keys
  | .deleteFlush => stepDeleteFlush cfg s r
  | .flush type => stepFlush cfg s r type
  | .writeIndex => stepWriteIndex s r
  | .clearFlushCache => stepClearFlushCache s r
  | .listSegments => stepListSegments s r
  | .removeSegment => stepRemoveSegment s r
  | .endFlush => stepEndFlush s r
  | .crash => some s.crashed
  | _ => none

def step (s : State) (op : Op) : Option State :=
  match s.phase with
  | .closed =>
    if op = .openLog then some { s with phase := .opening ⟨segmentFileNames s.dir, false⟩ }
    else none
  | .opening o => stepOpening s o op
  | .running r => stepRunning cfg s r op

/-- The runs on a directory that is empty at first. -/
def partitionSystem : System State Op where
  init s := s = State.init
  step s op s' := step cfg s op = some s'

/-! ## What a step can do -/

/-- The steps, one case for each thing that can happen. -/
inductive Step (s : State) : Op → State → Prop where
  | openLog (h : s.phase = .closed) :
      Step s .openLog { s with phase := .opening ⟨segmentFileNames s.dir, false⟩ }
  | replayFile (h : s.phase = .opening ⟨f :: fs, false⟩) :
      Step s .replayFile { s.hand (seriesToFlush ((s.dir.lookup f).getD []).flatten).all with
        dir := s.dir.create f
        phase := .opening ⟨f :: fs, true⟩ }
  | removeReplayed (h : s.phase = .opening ⟨f :: fs, true⟩) :
      Step s .removeReplayed { s.remove f with phase := .opening ⟨fs, false⟩ }
  | opened (h : s.phase = .opening ⟨[], b⟩) :
      Step s .opened { s with phase := .running ⟨Partition.new, [], none, none, none⟩ }
  | writeFails (h : s.phase = .running r) : Step s (.write points) s
  | write (h : s.phase = .running r) :
      Step s (.write points)
        { s with phase := .running { r with waiting := r.waiting ++ [points] } }
  | lock (h : s.phase = .running r) (hw : r.writing = none) : Step s (.lock i) { s with
        phase := .running { r with
          waiting := r.waiting.eraseIdx i
          writing := some ⟨points, [], []⟩ } }
  | writeBlock (h : s.phase = .running r) (hw : r.writing = some ⟨pp :: pps, [], written⟩)
      (hb : block = (cutBlock (pp :: pps)).1.map (fun q => { q with block := s.blocks })) :
      Step s .writeBlock { s with
        dir := (r.partition.writeBlock cfg s.dir block).2
        phase := .running { r with
          partition := (r.partition.writeBlock cfg s.dir block).1
          writing := some ⟨(cutBlock (pp :: pps)).2, block, written ++ block⟩ }
        blocks := s.blocks + 1
        logged := s.logged ++
          [((r.partition.writeBlock cfg s.dir block).1.currentSegmentID, block)] }
  | addToCache (h : s.phase = .running r) (hw : r.writing = some ⟨remaining, pps, written⟩) :
      Step s .addToCache { s with
        phase := .running { r with
          partition := pps.foldl Partition.addToCache r.partition
          writing := some ⟨remaining, [], written⟩ } }
  | writeReturns (h : s.phase = .running r) (hw : r.writing = some ⟨[], [], written⟩) :
      Step s .writeReturns { s with
        phase := .running { r with writing := none }
        writes := s.writes ++ [⟨written, r.partition.currentSegmentFile.isSome⟩] }
  | deleteSeries (h : s.phase = .running r) (hw : r.writing = none) (hd : r.deleting = none)
      (hf : r.flush.bind Flush.delete = none) :
      Step s (.deleteSeries keys) { s with
        phase := .running { r with
          partition := r.partition.deleteKeys keys
          deleting := some ⟨s.deletes, keys, s.blocks⟩ }
        deletes := s.deletes + 1 }
  | deleteFlush (h : s.phase = .running r) (hw : r.writing = none) (hd : r.deleting = some d) :
      Step s .deleteFlush (beginFlush cfg s { r with deleting := none } .delete (some d))
  | flush (h : s.phase = .running r) (hw : r.writing = none) :
      Step s (.flush type) (beginFlush cfg s r type none)
  | writeIndex (h : s.phase = .running r) (hf : r.flush = some ⟨c, .prepared, d⟩) :
      Step s .writeIndex { s.hand c.seriesToFlush.all with
        phase := .running { r with flush := some ⟨c, .indexed, d⟩ } }
  | clearFlushCache (h : s.phase = .running r) (hw : r.writing = none)
      (hf : r.flush = some ⟨c, .indexed, d⟩) :
      Step s .clearFlushCache { s with
        phase := .running { r with
          partition := r.partition.clearFlushCache c
          flush := some ⟨c, .cleared, d⟩ } }
  | listSegments (h : s.phase = .running r) (hf : r.flush = some ⟨c, .cleared, d⟩) :
      Step s .listSegments { s with
        phase := .running { r with flush := some ⟨c, .removing (segmentFileNames s.dir), d⟩ } }
  | stopRemoving {id : ℕ} {ids : List ℕ} (h : s.phase = .running r)
      (hf : r.flush = some ⟨c, .removing (id :: ids), d⟩) (hid : c.compactFilesLessThan ≤ id) :
      Step s .removeSegment { s with
        phase := .running { r with flush := some ⟨c, .removing [], d⟩ } }
  | removeSegment {id : ℕ} {ids : List ℕ} (h : s.phase = .running r)
      (hf : r.flush = some ⟨c, .removing (id :: ids), d⟩) (hid : id < c.compactFilesLessThan) :
      Step s .removeSegment { s.remove id with
        phase := .running { r with flush := some ⟨c, .removing ids, d⟩ } }
  | endFlush (h : s.phase = .running r) (hw : r.writing = none)
      (hf : r.flush = some ⟨c, .removing [], d⟩) :
      Step s .endFlush { s.deleteReturns d with
        phase := .running { r with
          partition := { r.partition with compactionRunning := false }
          flush := none } }
  | crash (h : s.phase ≠ .closed) : Step s .crash s.crashed

end Steps

section Cases

variable {cfg : Config} {s s' : State} {op : Op}

theorem Step.of_stepOpening {o : Opening} (ho : s.phase = .opening o)
    (h : stepOpening s o op = some s') : Step cfg s op s' := by
  cases op with
  | replayFile =>
    rcases o with ⟨- | ⟨f, fs⟩, - | -⟩
    case replayFile.cons.false => cases h; exact .replayFile ho
    all_goals cases h
  | removeReplayed =>
    rcases o with ⟨- | ⟨f, fs⟩, - | -⟩
    case removeReplayed.cons.true => cases h; exact .removeReplayed ho
    all_goals cases h
  | opened =>
    rcases o with ⟨- | ⟨f, fs⟩, b⟩
    · cases h; exact .opened ho
    · cases h
  | crash => cases h; exact .crash (ho ▸ Phase.noConfusion)
  | _ => cases h

theorem Step.of_stepRunning {r : Running} (hr : s.phase = .running r)
    (h : stepRunning cfg s r op = some s') : Step cfg s op s' := by
  -- most steps look at the write and the flush, and are possible in one case
  cases op with
    first
    | cases h
    | simp only [stepRunning, stepWrite, stepLock, stepWriteBlock, stepAddToCache, stepWriteReturns, stepDeleteSeries,
        stepDeleteFlush, stepFlush, stepWriteIndex, stepClearFlushCache, stepListSegments, stepRemoveSegment,
        stepEndFlush] at h
      split at h <;> try cases h
  | write points => first | exact .writeFails hr | exact .write hr
  | lock i => exact .lock hr ‹_›
  | writeBlock => exact .writeBlock hr ‹_› rfl
  | addToCache => exact .addToCache hr ‹_›
  | writeReturns => exact .writeReturns hr ‹_›
  | deleteSeries keys => exact .deleteSeries hr ‹_› ‹_› ‹_›
  | deleteFlush => exact .deleteFlush hr ‹_› ‹_›
  | flush type => exact .flush hr ‹_›
  | writeIndex => exact .writeIndex hr ‹_›
  | clearFlushCache => exact .clearFlushCache hr ‹_› ‹_›
  | listSegments => exact .listSegments hr ‹_›
  | removeSegment =>
    rename_i hf
    split_ifs at h with hid <;> cases h
    · exact .stopRemoving hr hf hid
    · exact .removeSegment hr hf (not_le.mp hid)
  | endFlush => exact .endFlush hr ‹_› ‹_›
  | crash => exact .crash (hr ▸ Phase.noConfusion)

/-- **What a step can do.** -/
theorem Step.of_step (h : step cfg s op = some s') : Step cfg s op s' := by
  unfold step at h
  split at h
  · rename_i hc
    split at h
    · rename_i hop
      cases h
      rw [hop]
      exact .openLog hc
    · cases h
  · rename_i o ho
    exact .of_stepOpening ho h
  · rename_i r hr
    exact .of_stepRunning hr h

end Cases

/-! ## Example data -/

def smallConfig : Config := ⟨1000, 1000, List.length⟩

/-- A write of a point, up to its block, and what follows. -/
def writeOps (k : Bytes) (v : UInt8) (ops : List Op) : List Op :=
  .write [⟨k, 1, [v], 0⟩] :: .lock 0 :: .writeBlock :: ops

end AndyEnv.Wal
