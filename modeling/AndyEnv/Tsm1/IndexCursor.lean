import AndyEnv.Tsdb.Cursor
import AndyEnv.Tsm1.Mmap
import AndyEnv.Tsm1.Codec.Block

/-!
# The cursor over the data files (`cursor.go`)

A cursor reads the values of one id, file by file, block by block and value by
value, in ascending or in descending order. `SeekTo` chooses a file by the range
in its footer. The end of the data is the time -1.

Loops take a number of turns that is large enough for the files at hand; `none`
is a panic, or a loop that takes more turns.
-/

namespace AndyEnv

/-- What a cursor returns: a time and a value, which is nil at the end. -/
abbrev Tsm1.Entry : Type := Int64 × Option Tsm1.Datum

namespace Tsm1

open Codec (Simple8b Snappy BlockError)

/-- The values from the first one on that is not before the time. -/
def Values.fromTime (seek : Int64) (a : Values) : Values :=
  a.dropWhile (fun v => v.time < seek)

def Value.entry (v : Value) : Entry := (v.time, some v.value)

def DataFile.InRange (f : DataFile) (seek : Int64) : Prop := seek ≥ f.minTime ∧ seek ≤ f.maxTime

instance (f : DataFile) (seek : Int64) : Decidable (f.InRange seek) :=
  inferInstanceAs (Decidable (_ ∧ _))

structure IndexCursor : Type where
  id : UInt64
  f : Option DataFile
  filesPos : ℤ
  pos : UInt32
  vals : Values
  ascending : Bool
  blockPositions : List UInt32
  files : List DataFile
deriving DecidableEq, Repr

namespace IndexCursor

/-- `newCursor`. -/
def new (id : UInt64) (files : List DataFile) (ascending : Bool) : IndexCursor :=
  ⟨id, none, 0, 0, [], ascending, [], files⟩

section

variable (S : Simple8b) (Z : Snappy)

/-- `_ = DecodeBlock(block, &c.vals)`: an error is ignored. -/
def decodeVals (block : Bytes) : Option Values :=
  match Codec.decodeBlock S Z block with
  | .ok vals => some vals
  | .error .panic => none
  | .error _ => some []

def decodeBlock (c : IndexCursor) (position : UInt32) : Option IndexCursor := do
  let f ← c.f
  let length ← f.blockLength position
  let block ← f.slice (position + 12) (position + 12 + length)
  let vals ← decodeVals S Z block
  -- descending queries use the block positions
  return { c with vals := vals, pos := if c.ascending then position + 12 + length else c.pos }

/-! ## Ascending -/

/-- The next block is of the id, and begins at or before the time sought. -/
def skipsBlock (c : IndexCursor) (f : DataFile) (nextBlockPos : UInt32) (seek : Int64) : Option Bool :=
  if nextBlockPos < f.indexPosition then do
    let nextBlockID ← f.idAt nextBlockPos
    if nextBlockID = c.id then do
      let nextBlockTime ← f.blockMinTime nextBlockPos
      return decide (nextBlockTime ≤ seek)
    else return false
  else some false

def seekAscending (seek : Int64) : ℕ → IndexCursor → Option (Entry × IndexCursor)
  | 0, _ => none
  | fuel + 1, c => do
    let f ← c.f
    let length ← f.blockLength c.pos
    let nextBlockPos := c.pos + 12 + length
    if ← c.skipsBlock f nextBlockPos seek then
      seekAscending seek fuel { c with pos := nextBlockPos }
    else
      -- it must be in this block or not at all
      let id ← f.idAt c.pos
      if id ≠ c.id then return ((EOF, none), c)
      else
        let c ← c.decodeBlock S Z c.pos
        match c.vals.fromTime seek with
        | v :: rest => return (v.entry, { c with vals := rest })
        | [] => seekAscending seek fuel c

/-- The loop of `nextAscending` through the files, to the next one that has the
id: where its blocks begin there. -/
def nextFile : ℕ → IndexCursor → Option (Option UInt32 × IndexCursor)
  | 0, _ => none
  | fuel + 1, c =>
    let c := { c with filesPos := c.filesPos + 1 }
    if c.filesPos ≥ c.files.length then some (none, c)
    else do
      let f ← if c.filesPos < 0 then none else c.files[c.filesPos.toNat]?
      let c := { c with f := some f }
      let startingPos ← f.startingPositionForID c.id
      if startingPos = 0 then nextFile fuel c else return (some startingPos, c)

def atBlock (c : IndexCursor) : Option Bool :=
  match c.f with
  | none => some false
  | some f =>
    if c.pos < f.indexPosition then (f.idAt c.pos).map (fun nextBlockID => nextBlockID == c.id)
    else some false

def nextAscending : ℕ → IndexCursor → Option (Entry × IndexCursor)
  | 0, _ => none
  | fuel + 1, c =>
    match c.vals with
    | v :: rest => some (v.entry, { c with vals := rest })
    | [] => do
      if ← c.atBlock then
        let c ← c.decodeBlock S Z c.pos
        nextAscending fuel c
      else
        match ← nextFile (c.files.length + 1) c with
        | (none, c) => return ((EOF, none), c)
        | (some startingPos, c) =>
          let c ← c.decodeBlock S Z startingPos
          nextAscending fuel c

/-! ## Descending -/

/-- `setBlockPositions`, from `pos` on. -/
def blockPositionsFrom (f : DataFile) (id : UInt64) : ℕ → UInt32 → Option (List UInt32)
  | 0, _ => none
  | fuel + 1, pos =>
    if pos ≥ f.indexPosition then some []
    else do
      let length ← f.blockLength pos
      let blockID ← f.idAt pos
      if blockID ≠ id then return []
      else
        let rest ← blockPositionsFrom f id fuel (pos + 12 + length)
        return pos :: rest

def setBlockPositions (c : IndexCursor) : Option IndexCursor := do
  let f ← c.f
  let positions ← blockPositionsFrom f c.id (f.length + 1) c.pos
  return { c with blockPositions := c.blockPositions ++ positions }

/-- The loop over the values of a block, the last one first: the value it returns,
and the values before it. Each branch leaves the loop. -/
def lastUpTo (seek : Int64) (vals : Values) : Option (Value × Values) :=
  match vals.reverse with
  | [] => none
  | val :: before =>
    if seek ≥ val.time then some (val, before.reverse)
    else
      match before with
      | [] => none
      | val :: before => some (val, before.reverse)

/-- The loop of `seekDescending` over the blocks below the `i`-th. -/
def seekDescendingLoop (seek : Int64) : ℕ → IndexCursor → Option (Entry × IndexCursor)
  | 0, c => some ((EOF, none), c)
  | i + 1, c => do
    let f ← c.f
    let pos ← c.blockPositions[i]?
    let blockMinTime ← f.blockMinTime pos
    if blockMinTime > seek then seekDescendingLoop seek i c
    else
      let c ← c.decodeBlock S Z pos
      let c := { c with blockPositions := c.blockPositions.take i }
      match lastUpTo seek c.vals with
      | some (val, vals) => return (val.entry, { c with vals := vals })
      | none => seekDescendingLoop seek i c

def seekDescending (seek : Int64) (c : IndexCursor) : Option (Entry × IndexCursor) := do
  let c ← c.setBlockPositions
  seekDescendingLoop S Z seek c.blockPositions.length c

/-- The loop of `nextDescending` over the blocks below the `i`-th. -/
def nextDescendingLoop : ℕ → IndexCursor → Option (Entry × IndexCursor)
  | 0, c => some ((EOF, none), c)
  | i + 1, c => do
    let pos ← c.blockPositions[i]?
    let c ← c.decodeBlock S Z pos
    let c := { c with blockPositions := c.blockPositions.take i }
    match c.vals.getLast? with
    | none => nextDescendingLoop i c
    | some val => return (val.entry, { c with vals := c.vals.dropLast })

def nextDescending (c : IndexCursor) : Option (Entry × IndexCursor) :=
  match c.vals.getLast? with
  | some v => some (v.entry, { c with vals := c.vals.dropLast })
  | none => nextDescendingLoop S Z c.blockPositions.length c

/-! ## The cursor -/

def fileWith (seek : Int64) : ℕ → List DataFile → Option (ℕ × DataFile)
  | _, [] => none
  | i, f :: fs =>
    if f.InRange seek then some (i, f) else fileWith seek (i + 1) fs

def rangedFile (c : IndexCursor) (seek : Int64) : IndexCursor :=
  match fileWith seek 0 c.files with
  | some (i, f) => { c with filesPos := i, f := some f }
  | none => c

/-- The choice of a file at the beginning of `SeekTo`; `none` where it returns at
once. -/
def chooseFile (c : IndexCursor) (seek : Int64) : Option IndexCursor :=
  match c.files.head?, c.files.getLast? with
  | some first, some last =>
    if c.ascending then
      if seek ≤ first.minTime then some { c with filesPos := 0, f := some first }
      else some (c.rangedFile seek)
    else if seek ≥ last.maxTime then
      some { c with filesPos := (c.files.length : ℤ) - 1, f := some last }
    else if seek < first.minTime then none
    else some (c.rangedFile seek)
  | _, _ => none

def advanceFile (c : IndexCursor) : IndexCursor :=
  if c.ascending then { c with filesPos := c.filesPos + 1 }
  else { c with filesPos := c.filesPos - 1, blockPositions := [] }

def seekLoop (seek : Int64) : ℕ → IndexCursor → Option (Entry × IndexCursor)
  | 0, _ => none
  | fuel + 1, c =>
    if c.filesPos < 0 ∨ c.filesPos ≥ c.files.length then some ((EOF, none), c)
    else do
      let f ← c.files[c.filesPos.toNat]?
      let pos ← f.startingPositionForID c.id
      let c := { c with f := some f, pos := pos }
      if pos = 0 then seekLoop seek fuel c.advanceFile
      else
        let (e, c) ← if c.ascending then seekAscending S Z seek (f.length + 1) c
          else seekDescending S Z seek c
        if e.1 ≠ EOF then return (e, c) else seekLoop seek fuel c.advanceFile

def seekTo (seek : Int64) (c : IndexCursor) : Option (Entry × IndexCursor) :=
  match c.chooseFile seek with
  | none => some ((EOF, none), c)
  | some c => if c.f = none then some ((EOF, none), c) else seekLoop S Z seek (c.files.length + 1) c

def next (c : IndexCursor) : Option (Entry × IndexCursor) :=
  if c.ascending then nextAscending S Z ((c.files.map DataFile.length).sum + 2) c
  else nextDescending S Z c

def cursor : KeyedCursor IndexCursor Int64 (Option Datum) where
  seekTo := seekTo S Z
  next := next S Z

end

end IndexCursor

end Tsm1

end AndyEnv
