import AndyEnv.Lib.Except
import AndyEnv.Tsm1.IndexCursor

/-!
# The blocks of an id as a cursor finds them

The blocks of an id are one run of a file. `Run` is a rest of that run: what
comes before it, the lists that it encodes, and blocks of other ids after it.
The lemmas say what a cursor reads at the beginning of a run, at its end, and
where the blocks of the file end.
-/

namespace AndyEnv.Tsm1

open Codec (Simple8b Snappy BlockError fileCodec)
open List DataFile Option

variable {S : Simple8b} {Z : Snappy} {ty : UInt64 → FieldType} {d : DataFile}

/-! ## Blocks that decode -/

variable {vs : Values} {id : UInt64} {pre post : List Block} {vss : List Values}

theorem decodeBlock_of_roundTrips (h : (fileCodec S Z).RoundTrips vs) :
    Codec.decodeBlock S Z ((fileCodec S Z).bytes vs) = .ok vs :=
  except_toOption_eq_some.mp h.decode

theorem decodeBlock_short {b : Bytes} (h : b.length ≤ Codec.encodedBlockHeaderSize) :
    Codec.decodeBlock S Z b = .error .panic := by
  rw [Codec.decodeBlock, if_pos h]

theorem length_of_roundTrips (h : (fileCodec S Z).RoundTrips vs) :
    Codec.encodedBlockHeaderSize < ((fileCodec S Z).bytes vs).length := by
  by_contra hle
  have hok := decodeBlock_of_roundTrips h
  rw [decodeBlock_short (Nat.le_of_not_lt hle)] at hok
  cases hok

/-! ## Runs -/

/-- The rest `vss` of the run of an id. -/
structure Run (S : Simple8b) (Z : Snappy) (d : DataFile) (id : UInt64) (pre : List Block)
    (vss : List Values) (post : List Block) : Prop where
  blocks : d.blocks = pre ++ (encodeRun (fileCodec S Z) id vss ++ post)
  roundTrips : ∀ vs ∈ vss, (fileCodec S Z).RoundTrips vs
  post : ∀ b ∈ post, b.id ≠ id

abbrev blockOf (S : Simple8b) (Z : Snappy) (id : UInt64) (vs : Values) : Block :=
  ⟨id, (fileCodec S Z).bytes vs⟩

theorem DataFile.WellFormed.run (h : d.WellFormed (fileCodec S Z) ty) (id : UInt64) :
    ∃ pre post, Run S Z d id pre (d.decodedBlocks (fileCodec S Z) id) post ∧ ∀ b ∈ pre, b.id ≠ id := by
  obtain ⟨pre, post, hblocks, hpre, hpost⟩ := h.encodeRun_split id
  exact ⟨pre, post, ⟨hblocks, fun vs hvs => ((h.filter_eq_encodeRun id).2 vs hvs).1, hpost⟩, hpre⟩

def DataFile.valuesOf (S : Simple8b) (Z : Snappy) (id : UInt64) (d : DataFile) : Values :=
  (d.decodedBlocks (fileCodec S Z) id).flatten

def DataFile.OnlyID (d : DataFile) (id : UInt64) : Prop := d.blocks ≠ [] ∧ ∀ b ∈ d.blocks, b.id = id

namespace Run

variable {id : UInt64} {pre post : List Block} {vs : Values} {vss : List Values}

section

variable (h : Run S Z d id pre (vs :: vss) post)
include h

theorem cons_blocks :
    d.blocks = pre ++ blockOf S Z id vs :: (encodeRun (fileCodec S Z) id vss ++ post) :=
  h.blocks

theorem tail : Run S Z d id (pre ++ [blockOf S Z id vs]) vss post where
  blocks := by
    rw [h.cons_blocks, append_assoc]
    rfl
  roundTrips ws hws := h.roundTrips ws (mem_cons_of_mem vs hws)
  post := h.post

theorem roundTrips_head : (fileCodec S Z).RoundTrips vs := h.roundTrips vs mem_cons_self

end

section WellFormed

variable (hd : d.WellFormed (fileCodec S Z) ty)

include hd

variable {c : IndexCursor}

/-! ## The next block -/

section

variable (h : Run S Z d id pre (vs :: vss) post)
include h

theorem header : d.idAt (positionAfter pre) = some id ∧
      d.blockLength (positionAfter pre) = some (UInt32.ofNat ((fileCodec S Z).bytes vs).length) :=
  hd.header_block h.cons_blocks

theorem position_lt : positionAfter pre < d.indexPosition := by
  rw [← UInt32.not_le, hd.indexPosition_le_iff h.cons_blocks]
  exact cons_ne_nil _ _

theorem blockMinTime : (d.blockMinTime (positionAfter pre)) = vs.minTime := by
  have hlength : 8 ≤ ((fileCodec S Z).bytes vs).length := by
    have hlt := length_of_roundTrips h.roundTrips_head
    rw [Codec.encodedBlockHeaderSize] at hlt
    omega
  rw [hd.blockMinTime_block h.cons_blocks hlength, h.roundTrips_head.time]
  rfl

/-- **Decoding the first block of a run.** -/
theorem decodeBlock (hf : c.f = some d) : c.decodeBlock S Z (positionAfter pre) = some { c with
      vals := vs
      pos := if c.ascending then positionAfter (pre ++ [blockOf S Z id vs]) else c.pos } := by
  have hvals : IndexCursor.decodeVals S Z ((fileCodec S Z).bytes vs) = some vs := by
    rw [IndexCursor.decodeVals, decodeBlock_of_roundTrips h.roundTrips_head]
  have hnext := DataFile.WellFormed.next_position pre (blockOf S Z id vs)
  have hslice : d.slice (positionAfter pre + 12) (positionAfter (pre ++ [blockOf S Z id vs])) =
      some ((fileCodec S Z).bytes vs) := by
    rw [← hnext]
    exact hd.slice_block h.cons_blocks
  simp only [IndexCursor.decodeBlock, hf, (h.header hd).2, bind_eq_bind, bind_some, hnext,
    hslice, hvals]
  rfl

theorem atBlock_cons (hf : c.f = some d) (hid : c.id = id)
    (hpos : c.pos = positionAfter pre) : c.atBlock = some true := by
  simp only [IndexCursor.atBlock, hf, hpos, if_pos (h.position_lt hd), (h.header hd).1, hid,
    map_some, beq_self_eq_true]

theorem skipsBlock_cons (hid : c.id = id) {t : Int64} (ht : vs.minTime = some t) (seek : Int64) :
    c.skipsBlock d (positionAfter pre) seek = some (decide (t ≤ seek)) := by
  rw [IndexCursor.skipsBlock, if_pos (h.position_lt hd), (h.header hd).1, h.blockMinTime hd, ht]
  simp [hid]

end

variable (h : Run S Z d id pre [] post)
include h

theorem nil_cases : positionAfter pre = d.indexPosition ∨
      ∃ b : Block, b.id ≠ id ∧ d.idAt (positionAfter pre) = some b.id ∧
        d.blockLength (positionAfter pre) = some (UInt32.ofNat b.data.length) := by
  have hblocks : d.blocks = pre ++ post := h.blocks
  cases post with
  | nil =>
    rw [append_nil] at hblocks
    rw [indexPosition_eq, hblocks]
    exact .inl rfl
  | cons b post =>
    exact .inr ⟨b, h.post b mem_cons_self, hd.header_block hblocks⟩

theorem atBlock_nil (hf : c.f = some d) (hid : c.id = id)
    (hpos : c.pos = positionAfter pre) : c.atBlock = some false := by
  simp only [IndexCursor.atBlock, hf, hpos]
  rcases h.nil_cases hd with heq | ⟨b, hne, hat, -⟩
  · rw [heq, if_neg (UInt32.lt_irrefl _)]
  · split
    · rw [hat, map_some, hid, beq_false_of_ne hne]
    · rfl

theorem skipsBlock_nil (hid : c.id = id) (seek : Int64) : c.skipsBlock d (positionAfter pre) seek = some false := by
  rw [IndexCursor.skipsBlock]
  rcases h.nil_cases hd with heq | ⟨b, hne, hat, -⟩
  · rw [heq, if_neg (UInt32.lt_irrefl _)]
  · split
    · simp [hat, hid, hne]
    · rfl

end WellFormed

end Run

/-! ## The first block -/

theorem DataFile.WellFormed.startingPosition_run (hd : d.WellFormed (fileCodec S Z) ty)
    (h : Run S Z d id pre (vs :: vss) post) (hpre : ∀ b ∈ pre, b.id ≠ id) :
    d.startingPositionForID id = some (positionAfter pre) ∧ positionAfter pre ≠ 0 := by
  constructor
  · rw [hd.startingPositionForID_eq, hd.idToPosition_run h.cons_blocks hpre]
    rfl
  · intro hzero
    have hpos := hd.toNat_positionAfter h.cons_blocks
    rw [hzero, fileHeaderSize] at hpos
    have : (0 : UInt32).toNat = 0 := rfl
    omega

/-- A file has no value of an id, or the run of its blocks begins at their position. -/
theorem DataFile.WellFormed.run_cases (hd : d.WellFormed (fileCodec S Z) ty) (id : UInt64) :
    (d.valuesOf S Z id = [] ∧ d.startingPositionForID id = some 0) ∨
      ∃ pre vs vss post, Run S Z d id pre (vs :: vss) post ∧ (∀ b ∈ pre, b.id ≠ id) ∧
        d.valuesOf S Z id = (vs :: vss).flatten ∧
        d.startingPositionForID id = some (positionAfter pre) ∧ positionAfter pre ≠ 0 := by
  obtain ⟨pre, post, hrun, hpre⟩ := hd.run id
  rw [DataFile.valuesOf]
  cases hvss : d.decodedBlocks (fileCodec S Z) id with
  | nil =>
    refine .inl ⟨rfl, ?_⟩
    rw [hd.startingPositionForID_eq, hd.idToPosition_eq_none (decodedRun_eq_nil.mp hvss)]
    rfl
  | cons vs vss =>
    rw [hvss] at hrun
    exact .inr ⟨pre, vs, vss, post, hrun, hpre, rfl, hd.startingPosition_run hrun hpre⟩

theorem Run.length_le (h : Run S Z d id pre vss post) : vss.length ≤ d.length := by
  have hsize : ∀ bs : List Block, bs.length ≤ blocksSize bs := by
    intro bs
    induction bs with
    | nil => exact le_rfl
    | cons b bs ih =>
      have hpos := b.size_pos
      rw [length_cons, blocksSize_cons]
      omega
  have hblocks := hsize d.blocks
  have hlength : d.blocks.length = pre.length + (vss.length + post.length) := by
    rw [h.blocks, length_append, length_append, encodeRun, length_map]
  rw [DataFile.length]
  omega

/-! ## The index read as a block -/

section Index

variable {b : Block} {bs : List Block} (hd : d.WellFormed (fileCodec S Z) ty) (hblocks : d.blocks = b :: bs)

include hd hblocks

/-- The first entry of the index is the id of the first block, and where it
begins. -/
theorem header_index : d.idAt d.indexPosition = some b.id ∧
    d.blockLength d.indexPosition = some (UInt32.ofNat fileHeaderSize) := by
  have hindex : d.index = [] ++ (b.id, UInt32.ofNat fileHeaderSize) ::
      indexFrom (some b.id) (fileHeaderSize + b.size) bs := by
    rw [hd.index_eq, hblocks]
    rfl
  have hheader := header_entry hd.length_lt hindex
  rwa [length_nil, entryPosition_zero] at hheader

theorem toNat_indexPosition_lt : d.indexPosition.toNat + 32 ≤ d.length ∧
    d.indexPosition.toNat + 32 < 2 ^ 32 := by
  have hlt := hd.length_lt
  have hall : (positionAfter d.blocks).toNat = fileHeaderSize + blocksSize d.blocks :=
    hd.toNat_positionAfter (append_nil _).symm
  have hindex : 1 ≤ d.index.length := by
    rw [hd.index_eq, hblocks]
    exact Nat.succ_le_succ (Nat.zero_le _)
  rw [indexPosition_eq, hall]
  simp only [DataFile.length, seriesHeaderSize, footerFixedSize] at hlt ⊢
  omega

theorem toNat_next_index :
    (d.indexPosition + 12 + UInt32.ofNat fileHeaderSize).toNat = d.indexPosition.toNat + 16 := by
  have hlt := (toNat_indexPosition_lt hd hblocks).2
  rw [UInt32.add_assoc, UInt32.toNat_add]
  exact Nat.mod_eq_of_lt (show d.indexPosition.toNat + 16 < 2 ^ 32 by omega)

/-- What would be the next block is past the index. -/
theorem next_index : ¬ d.indexPosition + 12 + UInt32.ofNat fileHeaderSize < d.indexPosition := by
  rw [UInt32.lt_iff_toNat_lt, toNat_next_index hd hblocks]
  omega

/-- **Four bytes of the index or the footer are no block.** -/
theorem decodeBlock_index {c : IndexCursor} (hf : c.f = some d) :
    c.decodeBlock S Z d.indexPosition = none := by
  obtain ⟨hle, hlt⟩ := toNat_indexPosition_lt hd hblocks
  have h12 : (d.indexPosition + 12).toNat = d.indexPosition.toNat + 12 := by
    rw [UInt32.toNat_add]
    exact Nat.mod_eq_of_lt (show d.indexPosition.toNat + 12 < 2 ^ 32 by omega)
  have h16 := toNat_next_index hd hblocks
  have hslice : ∃ x : Bytes, x.length ≤ 4 ∧
      d.slice (d.indexPosition + 12) (d.indexPosition + 12 + UInt32.ofNat fileHeaderSize) = some x := by
    refine ⟨_, ?_, if_pos ⟨?_, ?_⟩⟩
    · rw [h12, h16, List.length_take]
      omega
    · rw [UInt32.le_iff_toNat_le, h12, h16]
      omega
    · rw [h16, length_mmap]
      omega
  obtain ⟨x, hlength, hx⟩ := hslice
  have hvals : IndexCursor.decodeVals S Z x = none := by
    rw [IndexCursor.decodeVals, decodeBlock_short (by rw [Codec.encodedBlockHeaderSize]; omega)]
  simp only [IndexCursor.decodeBlock, hf, (header_index hd hblocks).2, bind_eq_bind,
    bind_some, hx, hvals, bind_none]

end Index

end AndyEnv.Tsm1
