import AndyEnv.Lib.Except
import AndyEnv.Lib.Files
import AndyEnv.Lib.Frames

/-!
# Segments of the hinted handoff queue (`queue.go`)

A segment is a file of records, each behind its length, and a footer of eight
bytes with the position of the current record. An append writes over the footer
and writes it again behind the new record.

Every read and write of the code seeks first, so a file is its bytes, and an
operation that writes says where its writes begin. A failed write, or `Sync`,
leaves the first of the bytes that were to be written. Sizes and positions do not
wrap: a file of 2^63 bytes cannot be written.
-/

namespace AndyEnv.Hh

open Bytes

inductive QueueError : Type
  | notOpen
  | queueFull
  | segmentFull
  | eof
  | badRead
  | recordSizeOutOfRange (max got : ℤ)
  /-- A seek before the beginning of the file, or any use of a closed one. -/
  | invalid
  /-- A write or `Sync` has failed. -/
  | writeFailed
  /-- `make` panics. -/
  | runtime
deriving DecidableEq, Repr

def footerSize : ℕ := 8

/-- `int64(v)`. -/
def int64 (v : UInt64) : ℤ := v.toInt64.toInt

/-! ## The file -/

/-- `seek`: the offset from the beginning of the file. -/
def seek (offset : ℤ) : Except QueueError ℕ :=
  if offset < 0 then .error .invalid else .ok offset.toNat

/-- `seekEnd(-footerSize)`. -/
def seekFooter (file : Bytes) : Except QueueError ℕ := seek (file.length - footerSize)

def readBytes (file : Bytes) (offset n : ℕ) : Except QueueError Bytes :=
  if n = 0 then .ok []
  else if file.length ≤ offset then .error .eof
  else if file.length < offset + n then .error .badRead
  else .ok ((file.drop offset).take n)

def readUint64 (file : Bytes) (offset : ℕ) : Except QueueError UInt64 :=
  (readBytes file offset 8).map uint64

/-- The writes of an operation, one after the other. With a failure only the first bytes
are written. -/
def writeBytes (file : Bytes) (offset : ℕ) (writes : List Bytes) (failure : Option ℕ) : Bytes :=
  Dir.overwrite file offset
    (match failure with
      | none => writes.flatten
      | some n => writes.flatten.take n)

/-! ## The segment -/

structure Segment : Type where
  /-- `file` is not nil. -/
  isOpen : Bool
  size : ℤ
  pos : ℤ
  currentSize : ℤ
  maxSize : Int64
deriving DecidableEq, Repr

namespace Segment

/-- `open` of a segment that has a file. -/
def openExisting (s : Segment) (file : Bytes) : Except QueueError Segment := do
  let footer ← seekFooter file
  let pos ← readUint64 file footer
  let offset ← seek (int64 pos)
  if int64 pos < s.size - footerSize then
    let currentSize ← readUint64 file offset
    return { s with pos := int64 pos, currentSize := int64 currentSize }
  else return { s with pos := int64 pos }

/-- `newSegment`, given what is in the file. -/
def newSegment (maxSize : Int64) (file : Bytes) (failure : Option ℕ) :
    Except QueueError Segment × Bytes :=
  let s : Segment := ⟨true, file.length, 0, 0, maxSize⟩
  if s.size = 0 then
    let file := writeBytes file 0 [putUint64 (UInt64.ofInt s.pos)] failure
    match failure with
    | some _ => (.error .writeFailed, file)
    | none => (.ok { s with size := footerSize }, file)
  else (s.openExisting file, file)

def appendWrites (s : Segment) (b : Bytes) : List Bytes :=
  [putUint64 (UInt64.ofNat b.length), b, putUint64 (UInt64.ofInt s.pos)]

def append (s : Segment) (file b : Bytes) (failure : Option ℕ) :
    Except QueueError Unit × Segment × Bytes :=
  if s.isOpen = false then (.error .notOpen, s, file)
  else if s.size + b.length > s.maxSize.toInt then (.error .segmentFull, s, file)
  else
    match seekFooter file with
    | .error e => (.error e, s, file)
    | .ok footer =>
      let file := writeBytes file footer (s.appendWrites b) failure
      match failure with
      | some _ => (.error .writeFailed, s, file)
      | none =>
        (.ok (), { s with
            currentSize := if s.currentSize = 0 then b.length else s.currentSize
            size := s.size + (b.length + 8) },
          file)

def current (s : Segment) (file : Bytes) : Except QueueError Bytes × Segment :=
  if s.pos = s.size - 8 then (.error .eof, s)
  else if s.isOpen = false then (.error .invalid, s)
  else
    match seek s.pos with
    | .error e => (.error e, s)
    | .ok offset =>
      match readUint64 file offset with
      | .error e => (.error e, s)
      | .ok sz =>
        let s := { s with currentSize := int64 sz }
        if int64 sz > s.maxSize.toInt then
          (.error (.recordSizeOutOfRange s.maxSize.toInt sz.toNat), s)
        else if int64 sz < 0 then (.error .runtime, s)
        else (readBytes file (offset + 8) sz.toNat, s)

def nextPos (s : Segment) : ℤ := s.pos + s.currentSize + 8

/-- The end of `advance`, when the new position has been written. -/
def reload (s : Segment) (file : Bytes) : Except QueueError Unit × Segment :=
  match seek s.pos with
  | .error e => (.error e, s)
  | .ok offset =>
    match readUint64 file offset with
    | .error e => (.error e, s)
    | .ok sz =>
      if s.pos = s.size - footerSize then (.error .eof, { s with currentSize := 0 })
      else (.ok (), { s with currentSize := int64 sz })

def advance (s : Segment) (file : Bytes) (failure : Option ℕ) :
    Except QueueError Unit × Segment × Bytes :=
  if s.isOpen = false then (.error .notOpen, s, file)
  -- if we're at the end of the file, can't advance
  else if s.pos = s.size - footerSize then (.error .eof, { s with currentSize := 0 }, file)
  else
    match seekFooter file with
    | .error e => (.error e, s, file)
    | .ok footer =>
      let file := writeBytes file footer [putUint64 (UInt64.ofInt s.nextPos)] failure
      match failure with
      | some _ => (.error .writeFailed, s, file)
      | none =>
        let r := { s with pos := s.nextPos }.reload file
        (r.1, r.2, file)

def unread (s : Segment) (file : Bytes) : List Bytes :=
  Frames.parse file.length ((file.drop s.pos.toNat).take (s.size - footerSize - s.pos).toNat)

def AtEnd (s : Segment) : Prop := s.pos = s.size - footerSize

instance (s : Segment) : Decidable s.AtEnd := inferInstanceAs (Decidable (_ = _))

end Segment

end AndyEnv.Hh
