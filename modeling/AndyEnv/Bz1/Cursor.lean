import AndyEnv.Bz1.Blocks
import AndyEnv.Lib.Search
import AndyEnv.Tsdb.Cursor

/-!
# The cursor over the blocks (`bz1.go`)

A cursor has the entries of one block unpacked. Going forward it steps over the
sizes of the entries; going backward it uses an index of their offsets.

Of the cursor of bolt the model keeps the place of the block in the bucket. A step
back from the first block leaves it nowhere; a step from the last block on leaves
it where it is.
-/

namespace AndyEnv.Bz1

open Tsdb Option
open Tsm1.Codec (Snappy)
open List

/-! ## The cursor of the bucket -/

namespace Bucket

/-- `Seek`: the first key that is not less. -/
def seek (bkt : Bucket) (key : UInt64) : Option ℕ := bkt.findIdx? (fun kv => key ≤ kv.1)

def last (bkt : Bucket) : Option ℕ := if bkt = [] then none else some (bkt.length - 1)

def prev : Option ℕ → Option ℕ
  | some (i + 1) => some i
  | _ => none

/-- `Next`: the place of the cursor, and whether there was a block. -/
def next (bkt : Bucket) : Option ℕ → Option ℕ × Bool
  | none => (none, false)
  | some i => if i + 1 < bkt.length then (some (i + 1), true) else (some i, false)

def blockAt (bkt : Bucket) (position : Option ℕ) : Option (UInt64 × Bytes) := position.bind (fun i => bkt[i]?)

def valueAt (bkt : Bucket) (position : Option ℕ) : Bytes := ((bkt.blockAt position).map Prod.snd).getD []

end Bucket

structure Cursor : Type where
  bucket : Bucket
  position : Option ℕ
  buf : Bytes
  off : ℕ
  ascending : Bool
  fieldIndices : List ℕ
  index : ℤ
deriving DecidableEq, Repr

namespace Cursor

section

variable (Z : Snappy)

/-- The offsets of the entries in a buffer, from one of them on. -/
def indexLoop (buf : Bytes) : ℕ → ℕ → Option (List ℕ)
  | 0, _ => none
  | fuel + 1, off =>
    if off ≥ buf.length then some []
    else do
      let dataSize ← entryDataSize (buf.drop off)
      let rest ← indexLoop buf fuel (off + (entryHeaderSize + dataSize))
      return off :: rest

/-- `setBuf`; a block that does not decode leaves an empty buffer. -/
def setBuf (block : Bytes) (c : Cursor) : Option Cursor :=
  if block = [] then some { c with buf := [], off := 0, fieldIndices := [], index := 0 }
  else if block.length < 8 then none
  else
    let buf := (Z.decode (block.drop 8)).getD []
    if c.ascending then some { c with buf := buf, off := 0 }
    else do
      let fieldIndices ← indexLoop buf (buf.length + 1) 0
      let off ← fieldIndices.getLast?
      return { c with buf := buf, off := off, fieldIndices := fieldIndices, index := fieldIndices.length - 1 }

/-- `fieldIndices[index]`. -/
def fieldIndex (c : Cursor) (index : ℤ) : Option ℕ :=
  if index < 0 then none else c.fieldIndices[index.toNat]?

def seekBufLoop (seek : Bytes) : ℕ → Cursor → Option Cursor
  | 0, _ => none
  | fuel + 1, c =>
    if c.off > c.buf.length then none
    else
      let buf := c.buf.drop c.off
      if buf = [] then some c
      else if buf.length < 8 then none
      else if c.ascending then
        if Bytes.le seek (buf.take 8) then some c
        else do
          let dataSize ← entryDataSize buf
          seekBufLoop seek fuel { c with off := c.off + (entryHeaderSize + dataSize) }
      else if Bytes.le (buf.take 8) seek then some c
      else if c.index - 1 < 0 then some { c with index := c.index - 1 }
      else do
        let off ← c.fieldIndex (c.index - 1)
        seekBufLoop seek fuel { c with index := c.index - 1, off := off }

def seekBuf (seek : Bytes) (c : Cursor) : Option Cursor :=
  seekBufLoop seek (c.buf.length + c.fieldIndices.length + 1) c

variable {α : Type} (decodeValue : Bytes → Option α)

/-- `read`; `decodeValue` is the value of `wal.DecodeKeyValue`. -/
def read (c : Cursor) : Option (Int64 × Option α) :=
  if c.off ≥ c.buf.length then some (EOF, none)
  else do
    let buf := c.buf.drop c.off
    let dataSize ← entryDataSize buf
    if entryHeaderSize + dataSize ≤ buf.length then
      return (timestamp buf, decodeValue ((buf.drop entryHeaderSize).take dataSize))
    else none

/-- The block that `SeekTo` goes to. -/
def seekPosition (bkt : Bucket) (seek : Int64) : Option ℕ :=
  match bkt.blockAt (bkt.seek seek.toUInt64) with
  -- the last block might have this time
  | none => bkt.last
  | some kv =>
    -- the seek is less than this block, so the one before might have it
    if seek < blockMin kv then
      if ((bkt.blockAt (Bucket.prev (bkt.seek seek.toUInt64))).map blockMax).all
          (fun tmax => seek > tmax) then
        bkt.seek seek.toUInt64
      else Bucket.prev (bkt.seek seek.toUInt64)
    else bkt.seek seek.toUInt64

def seekTo (seek : Int64) (c : Cursor) : Option ((Int64 × Option α) × Cursor) := do
  let position := seekPosition c.bucket seek
  let c ← setBuf Z (c.bucket.valueAt position) { c with position := position }
  let c ← seekBuf (Bytes.putUint64 seek.toUInt64) c
  let e ← read decodeValue c
  return (e, c)

def forward (c : Cursor) : Option Cursor :=
  if c.off > c.buf.length then none
  else do
    let dataSize ← entryDataSize (c.buf.drop c.off)
    return { c with off := c.off + (entryHeaderSize + dataSize) }

/-- One entry back, in the buffer or in the block before it. -/
def backward (c : Cursor) : Option Cursor := do
  let c ← if c.index < 0 then
      setBuf Z (c.bucket.valueAt (Bucket.prev c.position)) { c with position := Bucket.prev c.position }
    else some c
  let off ← if c.fieldIndices ≠ [] then c.fieldIndex c.index else some c.off
  return { c with off := off, index := c.index - 1 }

/-- The first entry of the next block, if no entry is left. -/
def nextBlock (c : Cursor) : Option Cursor :=
  if c.off ≥ c.buf.length then
    let (position, found) := c.bucket.next c.position
    setBuf Z (if found then c.bucket.valueAt position else []) { c with position := position }
  else some c

def next (c : Cursor) : Option ((Int64 × Option α) × Cursor) :=
  if c.buf = [] then some ((EOF, none), c)
  else do
    let c ← if c.ascending then forward c else backward Z c
    let c ← nextBlock Z c
    let e ← read decodeValue c
    return (e, c)

def cursor : KeyedCursor Cursor Int64 (Option α) where
  seekTo := seekTo Z decodeValue
  next := next Z decodeValue

end

end Cursor

theorem Fits.ne_eof {e : Entry} (h : Fits e) : e.time ≠ EOF := by
  intro heq
  have hnonneg := h.nonneg
  rw [heq] at hnonneg
  revert hnonneg
  decide

/-! ## The block of a seek -/

section

variable (Z : Snappy) (pre post : List (List Entry)) (c : List Entry)

theorem blockAt_split :
    Bucket.blockAt ((pre ++ c :: post).map (blockOf Z)) (some pre.length) = some (blockOf Z c) := by
  simp [Bucket.blockAt]

theorem valueAt_split :
    Bucket.valueAt ((pre ++ c :: post).map (blockOf Z)) (some pre.length) = (blockOf Z c).2 := by
  rw [Bucket.valueAt, blockAt_split]
  rfl

end

theorem last_concat (Z : Snappy) (pre : List (List Entry)) (c : List Entry) :
    Bucket.last ((pre ++ [c]).map (blockOf Z)) = some pre.length := by
  simp [Bucket.last]

theorem le_key_iff {Z : Snappy} {seek : Int64} {c : List Entry} (hseek : 0 ≤ seek) (hc : 0 ≤ firstTime c) :
    seek.toUInt64 ≤ (blockOf Z c).1 ↔ seek ≤ firstTime c := by
  have h := Entry.key_lt_iff (a := ⟨firstTime c, []⟩) (b := ⟨seek, []⟩) hc hseek
  rw [← UInt64.not_lt, ← Int64.not_lt, UInt64.lt_iff_toNat_lt]
  exact not_congr h

section Seek

variable {Z : Snappy} {bkt : Bucket} {chunks : List (List Entry)} {seek : Int64}

namespace Stores

variable {c : List Entry} {pre post : List (List Entry)} (h : Stores Z bkt chunks)

include h

theorem firstTime_nonneg (hc : c ∈ chunks) : 0 ≤ firstTime c := by
  obtain ⟨e, he, hfirst⟩ := firstTime_mem (h.nonempty c hc)
  rw [hfirst]
  exact (h.fits e (mem_flatten.mpr ⟨c, hc, he⟩)).nonneg

/-- **Where a seek goes**: to the block with the time, to the last block if the time
is after it, or to the block after a gap. -/
theorem seekPosition_cases (hseek : 0 ≤ seek) :
    (chunks = [] ∧ Cursor.seekPosition bkt seek = none) ∨
      ∃ pre c post, chunks = pre ++ c :: post ∧ Cursor.seekPosition bkt seek = some pre.length ∧
        (firstTime c ≤ seek ∧ seek ≤ lastTime c ∨ post = [] ∧ lastTime c < seek ∨
          seek < firstTime c ∧ ∀ e ∈ pre.flatten, e.time < seek) := by
  have hkey : ∀ c ∈ chunks, (seek.toUInt64 ≤ (blockOf Z c).1 ↔ seek ≤ firstTime c) :=
    fun c hc => le_key_iff hseek (h.firstTime_nonneg hc)
  have hfind : bkt.seek seek.toUInt64 = chunks.findIdx? (fun c => seek ≤ firstTime c) := by
    rw [Bucket.seek, h.blocks, List.findIdx?_map]
    refine Search.findIdx?_congr (fun c hc => ?_)
    exact decide_eq_decide.mpr (hkey c hc)
  rcases Search.findIdx?_cases (fun c => seek ≤ firstTime c) chunks with
    ⟨hall, hnone⟩ | ⟨pre, c, post, rfl, hpre, hc, hsome⟩
  · -- all blocks begin before the time
    have hpos : Cursor.seekPosition bkt seek = bkt.last := by
      rw [Cursor.seekPosition, hfind, hnone]
      rfl
    rcases eq_nil_or_concat' chunks with rfl | ⟨pre, c, rfl⟩
    · exact .inl ⟨rfl, by rw [hpos, h.blocks]; rfl⟩
    have hlt : firstTime c < seek := Int64.not_le.mp (of_decide_eq_false (hall c (by simp)))
    refine .inr ⟨pre, c, [], rfl, by rw [hpos, h.blocks, last_concat], ?_⟩
    rcases Entry.lt_or_le (lastTime c) seek with hlast | hlast
    · exact .inr (.inl ⟨rfl, hlast⟩)
    · exact .inl ⟨Int64.le_of_lt hlt, hlast⟩
  · have hle : seek ≤ firstTime c := of_decide_eq_true hc
    rw [hsome] at hfind
    have hblock : bkt.blockAt (some pre.length) = some (blockOf Z c) := by rw [h.blocks, blockAt_split]
    rcases Entry.lt_or_le seek (firstTime c) with hlt | hge
    · rcases eq_nil_or_concat' pre with rfl | ⟨pre', d, rfl⟩
      · -- before the first block
        refine .inr ⟨[], c, post, rfl, ?_, .inr (.inr ⟨hlt, nofun⟩)⟩
        simp only [Cursor.seekPosition, hfind, hblock, blockMin_blockOf, if_pos hlt]
        rfl
      have hchunks : pre' ++ [d] ++ c :: post = pre' ++ d :: c :: post := by simp
      have hprev : Bucket.prev (some (pre' ++ [d]).length) = some pre'.length := by simp [Bucket.prev]
      have hblockd : bkt.blockAt (some pre'.length) = some (blockOf Z d) := by
        rw [h.blocks, hchunks, blockAt_split]
      rcases Entry.lt_or_le (lastTime d) seek with hgap | hin
      · refine .inr ⟨pre' ++ [d], c, post, rfl, ?_, .inr (.inr ⟨hlt, ?_⟩)⟩
        · simp only [Cursor.seekPosition, hfind, hblock, blockMin_blockOf, if_pos hlt, hprev, hblockd,
            map_some, blockMax_blockOf, all_some, gt_iff_lt, hgap, decide_true, if_true]
        · intro e he
          refine Int64.lt_of_le_of_lt ?_ hgap
          rw [flatten_append, flatten_singleton] at he
          exact h.time_le_lastTime hchunks e he
      · refine .inr ⟨pre', d, c :: post, hchunks, ?_, .inl ⟨?_, hin⟩⟩
        · have hnot : ¬ lastTime d < seek := Int64.not_lt.mpr hin
          simp only [Cursor.seekPosition, hfind, hblock, blockMin_blockOf, if_pos hlt, hprev, hblockd,
            map_some, blockMax_blockOf, all_some, gt_iff_lt, hnot, decide_false,
            Bool.false_eq_true, if_false]
        · exact Int64.le_of_lt (Int64.not_le.mp (of_decide_eq_false (hpre d (by simp))))
    · refine .inr ⟨pre, c, post, rfl, ?_, .inl ⟨hge, ?_⟩⟩
      · simp only [Cursor.seekPosition, hfind, hblock, blockMin_blockOf, if_neg (Int64.not_lt.mpr hge)]
      · exact Int64.le_trans hle (h.firstTime_le_lastTime (by simp))

/-- A time before all times goes to the last block. -/
theorem seekPosition_neg (hseek : seek < 0) : Cursor.seekPosition bkt seek = bkt.last := by
  have hfind : bkt.seek seek.toUInt64 = none := by
    rw [Bucket.seek, h.blocks, List.findIdx?_map]
    refine List.findIdx?_eq_none_iff.mpr (fun c hc => decide_eq_false ?_)
    exact UInt64.not_le.mpr (Entry.toUInt64_lt_of_neg (h.firstTime_nonneg hc) hseek)
  rw [Cursor.seekPosition, hfind]
  rfl

end Stores

end Seek

end AndyEnv.Bz1
