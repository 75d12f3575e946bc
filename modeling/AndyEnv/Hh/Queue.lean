import AndyEnv.Hh.Segment
import AndyEnv.Lib.Strconv
import AndyEnv.Meta.Data

/-!
# The hinted handoff queue (`queue.go`)

A queue reads from its head segment and appends to its tail segment. A full tail
is followed by a new segment, and a head that has been read to its end is removed
unless it is the only segment.

The segments are objects that `segments`, `head` and `tail` point to. A path
is the number that is the file's name, and an object is known by its path. Of the
calls that reach the disk those that write may fail.
-/

namespace AndyEnv.Hh

open Meta (Time)

structure Queue : Type where
  dir : Dir UInt8
  /-- The segment objects. -/
  objects : ℕ → Segment
  head : Option ℕ
  tail : Option ℕ
  maxSegmentSize : Int64
  maxSize : Int64
  segments : List ℕ

/-- `ioutil.ReadDir`: sorted by file name. -/
def readDir (dir : Dir UInt8) : List ℕ :=
  dir.keys.insertionSort
    (fun a b => Bytes.le (Strconv.formatNat a) (Strconv.formatNat b) = true)

def nextSegmentID (dir : Dir UInt8) : ℕ := ((readDir dir).foldl max 0 + 1) % 2 ^ 64

namespace Queue

/-- `newQueue`. -/
def new (maxSize : Int64) : Queue :=
  ⟨∅, fun _ => ⟨false, 0, 0, 0, 0⟩, none, none, 10485760, maxSize, []⟩

def file (q : Queue) (path : ℕ) : Bytes := (q.dir.lookup path).getD []

def put (q : Queue) (path : ℕ) (s : Segment) (file : Bytes) : Queue :=
  { q with objects := Function.update q.objects path s, dir := q.dir.insert path file }

def diskUsage (q : Queue) : ℤ := (q.segments.map (fun path => (q.objects path).size)).sum

def addSegment (q : Queue) (failure : Option ℕ) : Except QueueError ℕ × Queue :=
  let path := nextSegmentID q.dir
  match Segment.newSegment q.maxSegmentSize (q.file path) failure with
  | (.error e, file) => (.error e, { q with dir := q.dir.insert path file })
  | (.ok s, file) =>
    let q := q.put path s file
    (.ok path, { q with segments := q.segments ++ [path] })

def closeSegment (q : Queue) (path : ℕ) : Queue :=
  { q with objects := Function.update q.objects path { q.objects path with isOpen := false } }

def trimHead (q : Queue) : Except QueueError Unit × Queue :=
  match q.head, q.segments with
  | some head, _ :: next :: rest =>
    let q := { q with segments := next :: rest }
    if (q.objects head).isOpen = false then (.error .invalid, q)
    else
      let q := q.closeSegment head
      (.ok (), { q with dir := q.dir.erase head, head := some next })
  | _, _ => (.ok (), q)

/-! ## Opening and closing -/

def loadSegments : List ℕ → Queue → Except QueueError Queue
  | [], q => .ok q
  | path :: paths, q =>
    match Segment.newSegment q.maxSegmentSize (q.file path) none with
    | (.error e, _) => .error e
    | (.ok s, file) =>
      let q := q.put path s file
      loadSegments paths { q with segments := q.segments ++ [path] }

/-- `Open` adds a segment if there is none. -/
def ensureSegment (q : Queue) : Except QueueError Queue :=
  if q.segments = [] then
    match q.addSegment none with
    | (.error e, _) => .error e
    | (.ok _, q) => .ok q
  else .ok q

/-- The end of `Open`: if the current head is already at its end, it is removed. -/
def setHead (q : Queue) : Except QueueError Queue :=
  match q.segments with
  | [] => .error .runtime
  | head :: _ =>
    let q := { q with head := some head, tail := q.segments.getLast? }
    match (q.objects head).current (q.file head) with
    | (.error .eof, _) =>
      match q.trimHead with
      | (.error e, _) => .error e
      | (.ok _, q) => .ok q
    | (_, s) => .ok (q.put head s (q.file head))

/-- `Open`. -/
def openQueue (q : Queue) : Except QueueError Queue :=
  (loadSegments (readDir q.dir) { q with segments := [] }).bind (fun q => q.ensureSegment.bind setHead)

def close (q : Queue) : Queue :=
  let q := q.segments.foldl closeSegment q
  { q with head := none, tail := none, segments := [] }

def setMaxSegmentSize (q : Queue) (size : Int64) : Except QueueError Queue :=
  let q := { q with
    maxSegmentSize := size
    objects := fun path =>
      if path ∈ q.segments then { q.objects path with maxSize := size } else q.objects path }
  match q.tail with
  | none => .error .runtime
  | some tail =>
    if (q.objects tail).size ≥ size.toInt then
      match q.addSegment none with
      | (.error e, _) => .error e
      | (.ok path, q) => .ok { q with tail := some path }
    else .ok q

/-! ## Reading and writing -/

/-- The failures of an `Append`: of the append to the tail, of the making of a new segment, and
of the append to that. -/
structure Failures : Type where
  tail : Option ℕ
  create : Option ℕ
  retry : Option ℕ
deriving DecidableEq, Repr

def appendTo (q : Queue) (path : ℕ) (b : Bytes) (failure : Option ℕ) :
    Except QueueError Unit × Queue :=
  let r := (q.objects path).append (q.file path) b failure
  (r.1, q.put path r.2.1 r.2.2)

def append (q : Queue) (b : Bytes) (failures : Failures) : Except QueueError Unit × Queue :=
  match q.tail with
  | none => (.error .notOpen, q)
  | some tail =>
    if q.diskUsage + b.length > q.maxSize.toInt then (.error .queueFull, q)
    else
      match q.appendTo tail b failures.tail with
      | (.error .segmentFull, q) =>
        match q.addSegment failures.create with
        | (.error e, q) => (.error e, q)
        | (.ok path, q) => { q with tail := some path }.appendTo path b failures.retry
      -- any other error is dropped
      | (_, q) => (.ok (), q)

def current (q : Queue) : Except QueueError Bytes × Queue :=
  match q.head with
  | none => (.error .notOpen, q)
  | some head =>
    let r := (q.objects head).current (q.file head)
    (r.1, q.put head r.2 (q.file head))

def advance (q : Queue) (failure : Option ℕ) : Except QueueError Unit × Queue :=
  match q.head with
  | none => (.error .notOpen, q)
  | some head =>
    let r := (q.objects head).advance (q.file head) failure
    let q := q.put head r.2.1 r.2.2
    match r.1 with
    | .error .eof => q.trimHead
    -- any other error is dropped
    | _ => (.ok (), q)

/-- A pass of the loop of `PurgeOlderThan`, given the time at which the file of the head was modified
and the failure of making a new segment. Without a result the loop goes on. -/
def purgeHead (q : Queue) (cutoff mod : Time) (failure : Option ℕ) :
    Option (Except QueueError Unit) × Queue :=
  if cutoff ≤ mod then (some (.ok ()), q)
  else
    -- if this is the last segment, a new one is appended, allowing trimming to proceed
    match if q.segments.length = 1 then q.addSegment failure else (.ok 0, q) with
    | (.error e, q) => (some (.error e), q)
    | (.ok _, q) =>
      match q.trimHead with
      | (.error e, q) => (some (.error e), q)
      | (.ok _, q) => (none, q)

/-- The loop; `none` if the passes do not suffice. -/
def purge (cutoff : Time) : List (Time × Option ℕ) → Queue → Option (Except QueueError Unit × Queue)
  | [], _ => none
  | (mod, failure) :: passes, q =>
    match q.purgeHead cutoff mod failure with
    | (some r, q) => some (r, q)
    | (none, q) => purge cutoff passes q

def purgeOlderThan (q : Queue) (when : Time) (passes : List (Time × Option ℕ)) :
    Option (Except QueueError Unit × Queue) :=
  if q.segments = [] then some (.ok (), q)
  else purge (when.truncate 1000000000) passes q

/-! ## The records in a queue -/

/-- The records of a segment that have not been read. -/
def unread (q : Queue) (path : ℕ) : List Bytes := (q.objects path).unread (q.file path)

/-- The records that are in the queue, in the order of the segments, each with its segment. -/
def records (q : Queue) : List (ℕ × Bytes) :=
  q.segments.flatMap (fun path => (q.unread path).map (fun b => (path, b)))

end Queue

end AndyEnv.Hh
