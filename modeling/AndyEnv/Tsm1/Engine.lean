import AndyEnv.Lib.Run
import AndyEnv.Tsm1.SingleFile

/-!
# The engine's data files (`Engine.Write`, `Engine.Compact`)

`Write` finds the files that a batch touches, splits the batch among them by
time and rewrites them in parallel; data that no file is to take goes into new
files. `Compact` replaces a contiguous run of files by the files the
compaction job writes. Both keep `e.files` sorted by `MinTime`.

A state of the engine is its files together with the rewrites of the current
`Write` that have not finished; each of them swaps its files under
`filesLock`, in any order. The ids of the batch are those
`convertKeysAndWriteMetadata` has assigned, and no deletes are pending.
-/

namespace AndyEnv.Tsm1

/-- A member of `e.files`. The number in the file's name tells files apart. -/
structure OpenFile : Type where
  fileID : ℕ
  df : DataFile
deriving DecidableEq, Repr

structure EngineConfig : Type where
  rotateFileSize : UInt32
  maxFileSize : UInt32
  maxPointsPerBlock : ℕ
deriving DecidableEq, Repr

structure Engine : Type where
  files : List OpenFile
  currentFileID : ℕ
deriving DecidableEq, Repr

/-- `map[uint64]Values`, in the order `range` visits it. -/
abbrev ValuesByID : Type := List (UInt64 × Values)

/-! ## Splitting a batch by time -/

/-- One round of `filterDataBetweenTimes`: the values in the range, and the
others. `none` when there is no value in the range. -/
def filterValues (values : Values) (minTime maxTime : Int64) : Option (Values × Values) := do
  -- find the index of the first value in the range
  let minIndex ← values.findIdx? (fun v =>
    decide (minTime.toInt ≤ v.unixNano) && decide (v.unixNano < maxTime.toInt))
  -- go backwards to find the index of the last value in the range
  let maxIndex := match values.reverse.findIdx? (fun v => v.unixNano < maxTime.toInt) with
    | some j => values.length - j
    | none => values.length
  return ((values.take maxIndex).drop minIndex, values.take minIndex ++ values.drop maxIndex)

/-- `filterDataBetweenTimes`: the data between the times, and what remains in
the map that was passed in. -/
def filterDataBetweenTimes (valuesByID : ValuesByID) (minTime maxTime : Int64) :
    ValuesByID × ValuesByID :=
  (valuesByID.filterMap (fun p =>
      (filterValues p.2 minTime maxTime).map (fun r => (p.1, r.1))),
    valuesByID.filterMap (fun p =>
      match filterValues p.2 minTime maxTime with
      | none => some p
      -- if we grabbed all the values, remove them
      | some r => if r.2 = [] then none else some (p.1, r.2)))

/-- The time range of a batch, as `convertKeysAndWriteMetadata` computes it. -/
def batchRange (valuesByID : ValuesByID) : Option (Int64 × Int64) :=
  (valuesByID.map Prod.snd).foldlM (fun r values => do
    let lo ← values.minTime
    let hi ← values.maxTime
    return (if lo < r.1 then lo else r.1, if r.2 < hi then hi else r.2))
    (Int64.maxValue, Int64.minValue)

/-- The files `filesAndLock` returns. The second comparison of its first test
is of `fmin` with itself. -/
def filesInRange (e : Engine) (min max : Int64) : List OpenFile :=
  e.files.filter (fun f =>
    (decide (min < f.df.maxTime) && decide (f.df.minTime ≥ f.df.minTime)) ||
      (decide (max ≥ f.df.minTime) && decide (max < f.df.maxTime)))

/-- One call of `rewriteFile` that `Write` makes. -/
structure RewriteTask : Type where
  oldDF : Option OpenFile
  valuesByID : ValuesByID
deriving DecidableEq, Repr

/-- The loop of `Write` back through the files, with the values not assigned
yet. -/
def assignTasks (rotateFileSize : UInt32) :
    List OpenFile → Int64 → ValuesByID → List RewriteTask × ValuesByID
  | [], _, valuesByID => ([], valuesByID)
  | f :: fs, maxTime, valuesByID =>
    -- max times are exclusive, so add 1 to it
    let fileMax := f.df.maxTime + 1
    let fileMin := f.df.minTime
    if f.df.size < rotateFileSize then
      let vals := filterDataBetweenTimes valuesByID fileMin maxTime
      let r := assignTasks rotateFileSize fs maxTime vals.2
      (⟨some f, vals.1⟩ :: r.1, r.2)
    else
      let newer := filterDataBetweenTimes valuesByID fileMax maxTime
      let vals := filterDataBetweenTimes newer.2 fileMin fileMax
      let r := assignTasks rotateFileSize fs fileMin vals.2
      (⟨none, newer.1⟩ :: ⟨some f, vals.1⟩ :: r.1, r.2)

/-- The rewrites of one `Write`. `none` is a panic on an empty list of
values. -/
def writeTasks (cfg : EngineConfig) (e : Engine) (valuesByID : ValuesByID) :
    Option (List RewriteTask) :=
  if valuesByID = [] then some []
  else do
    let (startTime, endTime) ← batchRange valuesByID
    let files := filesInRange e startTime endTime
    if files = [] then return [⟨none, valuesByID⟩]
    let r := assignTasks cfg.rotateFileSize files.reverse Int64.maxValue valuesByID
    -- any data leftover is older than any file
    return r.1 ++ [⟨none, r.2⟩]

/-! ## Replacing files -/

/-- `sort.Sort(files)`, by `MinTime`. -/
def sortFiles (files : List OpenFile) : List OpenFile :=
  files.insertionSort (fun a b => a.df.minTime.toInt ≤ b.df.minTime.toInt)

/-- `rewriteFile` on the engine: the new file takes the old one's place. -/
def Engine.rewrite (C : BlockCodec) (cfg : EngineConfig) (e : Engine) (oldDF : Option OpenFile)
    (valuesByID : ValuesByID) : Option Engine := do
  match ← rewriteFile C cfg.maxPointsPerBlock (oldDF.map OpenFile.df) valuesByID with
  | none => return e
  | some newDF =>
    let currentFileID := e.currentFileID + 1
    let files := e.files.filter (fun f => some f.fileID ≠ oldDF.map OpenFile.fileID)
    return ⟨sortFiles (files ++ [⟨currentFileID, newDF⟩]), currentFileID⟩

/-- `filesToCompact`: the first contiguous run of files that are old enough
and below the maximal size. `aged` is the test of the file's age. -/
def filesToCompact (cfg : EngineConfig) (aged : OpenFile → Bool) (e : Engine) : List OpenFile :=
  let ready := fun f : OpenFile => aged f && decide (f.df.size < cfg.maxFileSize)
  (e.files.dropWhile (fun f => !ready f)).takeWhile ready

/-- The files of a compaction (`getCompactionFiles`). -/
def compactionFiles (cfg : EngineConfig) (full : Bool) (aged : OpenFile → Bool) (e : Engine) :
    List OpenFile :=
  if full then e.files else filesToCompact cfg aged e

/-- `Compact`. Nothing happens with less than two files. -/
def Engine.compact (C : BlockCodec) (cfg : EngineConfig) (e : Engine) (full : Bool)
    (aged : OpenFile → Bool) : Option Engine :=
  match compactionFiles cfg full aged e with
  | [] => some e
  | [_] => some e
  | f :: g :: fs => do
    let files := f :: g :: fs
    let last := files.getLast (List.cons_ne_nil _ _)
    let newFiles ← compactToNewFiles C cfg.maxFileSize cfg.maxPointsPerBlock f.df.minTime
      last.df.maxTime (files.map OpenFile.df)
    let newDataFiles := newFiles.mapIdx (fun i df =>
      (⟨e.currentFileID + 1 + i, df⟩ : OpenFile))
    let replacementFiles := e.files.filter (fun df => !files.any (fun f => f.fileID == df.fileID))
    return ⟨sortFiles (replacementFiles ++ newDataFiles), e.currentFileID + newFiles.length⟩

/-! ## The system -/

/-- The engine and the rewrites of the current `Write` that are running. -/
structure EngineState : Type where
  engine : Engine
  pending : List RewriteTask
deriving DecidableEq, Repr

inductive EngineOp : Type where
  /-- `Write` is called: the batch is split up. -/
  | write (valuesByID : ValuesByID)
  /-- A running rewrite finishes; it has visited its map in the given order. -/
  | rewrite (task : RewriteTask) (order : ValuesByID)
  /-- `Compact`, on all files or on those that are old enough. -/
  | compact (full : Bool) (aged : OpenFile → Bool)

/-- The steps of the engine. A batch has values of their id's type, and the
next call comes when the rewrites of the last one are done. -/
inductive EngineStep (C : BlockCodec) (ty : UInt64 → FieldType) (cfg : EngineConfig) :
    EngineState → EngineOp → EngineState → Prop where
  | write {e : Engine} (nv : NewValues ty) {tasks : List RewriteTask} :
      writeTasks cfg e nv.entries = some tasks →
      EngineStep C ty cfg ⟨e, []⟩ (.write nv.entries) ⟨e, tasks⟩
  | rewrite {e e' : Engine} {before after : List RewriteTask} {task : RewriteTask}
      {order : ValuesByID} : order.Perm task.valuesByID →
      e.rewrite C cfg task.oldDF order = some e' →
      EngineStep C ty cfg ⟨e, before ++ task :: after⟩ (.rewrite task order)
        ⟨e', before ++ after⟩
  | compact {e e' : Engine} {full : Bool} {aged : OpenFile → Bool} :
      e.compact C cfg full aged = some e' →
      EngineStep C ty cfg ⟨e, []⟩ (.compact full aged) ⟨e', []⟩

/-- The engine, started without files. -/
def engineSystem (C : BlockCodec) (ty : UInt64 → FieldType) (cfg : EngineConfig) :
    System EngineState EngineOp where
  init s := s = ⟨⟨[], 0⟩, []⟩
  step := EngineStep C ty cfg

end AndyEnv.Tsm1
