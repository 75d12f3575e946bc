import AndyEnv.Tsm1.DataFile

/-!
# The bytes of a data file

`mmap` is the file as it is mapped into memory: the magic number, the blocks
with their headers, the index and the footer. Readers slice it with `uint32`
offsets, and a slice out of range panics. Where a block begins, the bytes are
its header and data; where the index begins, they are the first entry.
-/

namespace AndyEnv.Tsm1

open List Bytes Option

/-! ## Layout -/

def magicNumber : UInt32 := 0x16D116D1

/-- `writeBlock`. -/
def Block.bytes (b : Block) : Bytes :=
  putUint64 b.id ++ (putUint32 (UInt32.ofNat b.data.length) ++ b.data)

def entryBytes (e : UInt64 × UInt32) : Bytes := putUint64 e.1 ++ putUint32 e.2

@[simp] theorem Block.length_bytes (b : Block) : b.bytes.length = b.size := by
  simp [Block.bytes, Block.size, blockHeaderSize]
  omega

@[simp] theorem length_entryBytes (e : UInt64 × UInt32) : (entryBytes e).length = seriesHeaderSize := by
  simp [entryBytes, seriesHeaderSize]

theorem length_flatMap_bytes (bs : List Block) : (bs.flatMap Block.bytes).length = blocksSize bs := by
  induction bs with
  | nil => rfl
  | cons b bs ih => rw [flatMap_cons, length_append, ih, b.length_bytes, blocksSize_cons]

theorem length_flatMap_entryBytes (es : List (UInt64 × UInt32)) :
    (es.flatMap entryBytes).length = es.length * seriesHeaderSize := by
  induction es with
  | nil => rfl
  | cons e es ih =>
    rw [flatMap_cons, length_append, ih, length_entryBytes, length_cons, Nat.succ_mul, Nat.add_comm]

namespace DataFile

def footer (d : DataFile) : Bytes :=
  putUint64 d.minTime.toUInt64 ++ (putUint64 d.maxTime.toUInt64 ++ putUint32 d.seriesCount)

def mmap (d : DataFile) : Bytes :=
  putUint32 magicNumber ++ (d.blocks.flatMap Block.bytes ++
    (d.index.flatMap entryBytes ++ d.footer))

theorem length_mmap (d : DataFile) : d.mmap.length = d.length := by
  simp only [mmap, footer, length, length_append, length_flatMap_bytes,
    length_flatMap_entryBytes, length_putUint32, length_putUint64, fileHeaderSize,
    footerFixedSize]
  omega

/-- `mmap[lo:hi]`. -/
def slice (d : DataFile) (lo hi : UInt32) : Option Bytes :=
  if lo ≤ hi ∧ hi.toNat ≤ d.mmap.length then
    some ((d.mmap.drop lo.toNat).take (hi.toNat - lo.toNat))
  else none

/-- `btou64(mmap[pos:pos+8])`. -/
def idAt (d : DataFile) (pos : UInt32) : Option UInt64 := (d.slice pos (pos + 8)).map uint64

def blockLength (d : DataFile) (pos : UInt32) : Option UInt32 :=
  (d.slice (pos + 8) (pos + 12)).map uint32

def blockMinTime (d : DataFile) (pos : UInt32) : Option Int64 :=
  (d.slice (pos + 12) (pos + 20)).map (fun b => (uint64 b).toInt64)

variable {d : DataFile} {a rest : Bytes}

theorem slice_eq {b : Bytes} (lo hi : UInt32) (h : d.mmap = a ++ (b ++ rest))
    (hlo : lo.toNat = a.length) (hhi : hi.toNat = a.length + b.length) : d.slice lo hi = some b := by
  have hlength : d.mmap.length = a.length + (b.length + rest.length) := by
    rw [h, length_append, length_append]
  have hle : lo ≤ hi ∧ hi.toNat ≤ d.mmap.length := by
    constructor
    · rw [UInt32.le_iff_toNat_le]
      omega
    · omega
  rw [slice, if_pos hle, hlo, hhi, Nat.add_sub_cancel_left, h, drop_left, take_left]

theorem header_eq {id : UInt64} {n pos : UInt32}
    (h : d.mmap = a ++ (putUint64 id ++ (putUint32 n ++ rest))) (hpos : pos.toNat = a.length)
    (hlt : pos.toNat + 12 < 2 ^ 32) : d.idAt pos = some id ∧ d.blockLength pos = some n := by
  have h8 : (pos + 8).toNat = a.length + 8 := by
    rw [UInt32.toNat_add, hpos]
    exact Nat.mod_eq_of_lt (show a.length + 8 < 2 ^ 32 by omega)
  have h12 : (pos + 12).toNat = a.length + 8 + 4 := by
    rw [UInt32.toNat_add, hpos]
    exact Nat.mod_eq_of_lt (show a.length + 12 < 2 ^ 32 by omega)
  constructor
  · have hslice := slice_eq pos (pos + 8) h hpos (by rw [h8, length_putUint64])
    have huint := uint64_putUint64_append id []
    rw [append_nil] at huint
    rw [idAt, hslice, map_some, huint]
  · rw [← append_assoc] at h
    have hlength : (a ++ putUint64 id).length = a.length + 8 := by
      rw [length_append, length_putUint64]
    have hslice := slice_eq (pos + 8) (pos + 12) h (by rw [h8, hlength])
      (by rw [h12, hlength, length_putUint32])
    have huint := uint32_putUint32_append n []
    rw [append_nil] at huint
    rw [blockLength, hslice, map_some, huint]

def entryPosition (d : DataFile) (i : ℕ) : UInt32 :=
  UInt32.ofNat i * UInt32.ofNat seriesHeaderSize + d.indexPosition

theorem entryPosition_zero (d : DataFile) : d.entryPosition 0 = d.indexPosition := by
  rw [entryPosition, show UInt32.ofNat 0 = 0 from rfl, UInt32.zero_mul, UInt32.zero_add]

namespace WellFormed

variable {C : BlockCodec} {ty : UInt64 → FieldType} {d : DataFile}

variable {pre post : List Block} {b : Block}

theorem mmap_split (hb : d.blocks = pre ++ b :: post) :
    ∃ rest, d.mmap = (putUint32 magicNumber ++ pre.flatMap Block.bytes) ++ (b.bytes ++ rest) := by
  refine ⟨post.flatMap Block.bytes ++ (d.index.flatMap entryBytes ++ d.footer), ?_⟩
  rw [mmap, hb, flatMap_append, flatMap_cons]
  simp only [append_assoc]

theorem length_before (pre : List Block) :
    (putUint32 magicNumber ++ pre.flatMap Block.bytes).length = fileHeaderSize + blocksSize pre := by
  rw [length_append, length_flatMap_bytes, length_putUint32, fileHeaderSize]

theorem next_position (pre : List Block) (b : Block) :
    positionAfter pre + 12 + UInt32.ofNat b.data.length = positionAfter (pre ++ [b]) := by
  rw [← positionAfter_add_block pre b.id b.data, UInt32.ofNat_add, UInt32.add_assoc]
  rfl

section

variable (h : d.WellFormed C ty) (hb : d.blocks = pre ++ b :: post)
include h hb

theorem position_lt : fileHeaderSize + blocksSize pre + blockHeaderSize + b.data.length < 2 ^ 32 := by
  have hlt := h.blocks_lt
  rw [hb, blocksSize_append, blocksSize_cons, Block.size] at hlt
  omega

/-- **The header of a block.** -/
theorem header_block : d.idAt (positionAfter pre) = some b.id ∧
      d.blockLength (positionAfter pre) = some (UInt32.ofNat b.data.length) := by
  obtain ⟨rest, hmmap⟩ := mmap_split hb
  have hpos := h.toNat_positionAfter hb
  have hlt := h.position_lt hb
  rw [Block.bytes, append_assoc, append_assoc] at hmmap
  refine header_eq hmmap (by rw [hpos, length_before]) ?_
  rw [hpos]
  rw [blockHeaderSize] at hlt
  omega

theorem slice_data {x y : Bytes} (hdata : b.data = x ++ y) (hi : UInt32)
    (hhi : hi.toNat = fileHeaderSize + blocksSize pre + blockHeaderSize + x.length) :
    d.slice (positionAfter pre + 12) hi = some x := by
  obtain ⟨rest, hmmap⟩ := mmap_split hb
  have hpos := h.toNat_positionAfter hb
  have hlt := h.position_lt hb
  have h12 : (positionAfter pre + 12).toNat = fileHeaderSize + blocksSize pre + blockHeaderSize := by
    rw [UInt32.toNat_add, hpos]
    exact Nat.mod_eq_of_lt (by rw [blockHeaderSize] at hlt; simp only [UInt32.reduceToNat]; omega)
  have hheader : (putUint32 magicNumber ++ pre.flatMap Block.bytes ++ (putUint64 b.id ++
      putUint32 (UInt32.ofNat b.data.length))).length =
      fileHeaderSize + blocksSize pre + blockHeaderSize := by
    rw [length_append, length_before, length_append, length_putUint64,
      length_putUint32, blockHeaderSize]
  have hmmap' : d.mmap = (putUint32 magicNumber ++ pre.flatMap Block.bytes ++
      (putUint64 b.id ++ putUint32 (UInt32.ofNat b.data.length))) ++ (x ++ (y ++ rest)) := by
    rw [hmmap, Block.bytes, ← append_assoc x, ← hdata]
    simp only [append_assoc]
  exact slice_eq (positionAfter pre + 12) hi hmmap' (h12.trans hheader.symm) (by rw [hhi, hheader])

/-- **The data of a block.** -/
theorem slice_block :
    d.slice (positionAfter pre + 12) (positionAfter pre + 12 + UInt32.ofNat b.data.length) =
      some b.data := by
  have hblocks : d.blocks = (pre ++ [b]) ++ post := by rw [hb, append_assoc]; rfl
  refine h.slice_data hb (append_nil _).symm _ ?_
  rw [next_position, h.toNat_positionAfter hblocks, blocksSize_append, blocksSize_cons, blocksSize_nil, Block.size]
  omega

theorem blockMinTime_block (hdata : 8 ≤ b.data.length) :
    d.blockMinTime (positionAfter pre) = some b.time := by
  have hpos := h.toNat_positionAfter hb
  have hlt := h.position_lt hb
  rw [blockHeaderSize] at hlt
  have htake : (b.data.take 8).length = 8 := length_take_of_le hdata
  have hslice := h.slice_data hb (take_append_drop 8 b.data).symm (positionAfter pre + 20) (by
    rw [UInt32.toNat_add, hpos, htake, blockHeaderSize]
    exact Nat.mod_eq_of_lt (show fileHeaderSize + blocksSize pre + 20 < 2 ^ 32 by omega))
  rw [blockMinTime, hslice, map_some, Block.time, uint64, uint64, take_take]
  rfl

end

end WellFormed

/-- **An entry of the index.** -/
theorem header_entry (hlt : d.length < 2 ^ 32) {l r : List (UInt64 × UInt32)} {e : UInt64 × UInt32}
    (he : d.index = l ++ e :: r) : d.idAt (d.entryPosition l.length) = some e.1 ∧
      d.blockLength (d.entryPosition l.length) = some e.2 := by
  have hindex : d.index.length = l.length + (r.length + 1) := by
    rw [he, length_append, length_cons]
  have hall : (positionAfter d.blocks).toNat = fileHeaderSize + blocksSize d.blocks :=
    UInt32.toNat_ofNat_of_lt' (by simp only [DataFile.length] at hlt; simp only [UInt32.size]; omega)
  have hmmap : d.mmap = (putUint32 magicNumber ++ d.blocks.flatMap Block.bytes ++
      l.flatMap entryBytes) ++ (putUint64 e.1 ++ (putUint32 e.2 ++
        (r.flatMap entryBytes ++ d.footer))) := by
    rw [mmap, he, flatMap_append, flatMap_cons, entryBytes]
    simp only [append_assoc]
  have hbefore : (putUint32 magicNumber ++ d.blocks.flatMap Block.bytes ++
      l.flatMap entryBytes).length = fileHeaderSize + blocksSize d.blocks + l.length * 12 := by
    rw [length_append, WellFormed.length_before, length_flatMap_entryBytes, seriesHeaderSize]
  simp only [DataFile.length, hindex, seriesHeaderSize, footerFixedSize] at hlt
  have hpos : (d.entryPosition l.length).toNat =
      fileHeaderSize + blocksSize d.blocks + l.length * 12 := by
    rw [entryPosition, indexPosition_eq, ← UInt32.ofNat_mul, UInt32.toNat_add, hall, seriesHeaderSize,
      UInt32.toNat_ofNat_of_lt' (by simp only [UInt32.size]; omega), Nat.add_comm]
    exact Nat.mod_eq_of_lt (by omega)
  exact header_eq hmmap (hpos.trans hbefore.symm) (by omega)


/-! ## The search of an id -/

/-- The loop of `StartingPositionForID`, on the entries from `min` up to `max`. -/
def startingPositionLoop (d : DataFile) (id : UInt64) : ℕ → ℕ → ℕ → Option UInt32
  | 0, _, _ => none
  | fuel + 1, min, max =>
    if min < max then
      let mid := (max - min) / 2 + min
      let offset := d.entryPosition mid
      match d.idAt offset with
      | none => none
      | some checkID =>
        -- the position is where a block header has the length
        if checkID = id then d.blockLength offset
        else if checkID < id then startingPositionLoop d id fuel (mid + 1) max
        else startingPositionLoop d id fuel min mid
    else some 0

/-- `StartingPositionForID`; 0 says that the id has no data in the file. -/
def startingPositionForID (d : DataFile) (id : UInt64) : Option UInt32 :=
  startingPositionLoop d id (d.seriesCount.toNat + 1) 0 d.seriesCount.toNat

section Search

variable {d : DataFile}

theorem length_lt_of_fst_lt {es l r l' r' : List (UInt64 × UInt32)} {e e' : UInt64 × UInt32}
    (hs : es.Pairwise (fun p q => p.1 < q.1)) (he : es = l ++ e :: r) (he' : es = l' ++ e' :: r')
    (hlt : e.1 < e'.1) : l.length < l'.length := by
  have hat : es[l.length]? = some e := by rw [he, List.getElem?_append_right le_rfl, Nat.sub_self]; rfl
  have hat' : es[l'.length]? = some e' := by
    rw [he', List.getElem?_append_right le_rfl, Nat.sub_self]
    rfl
  obtain ⟨hi, hgi⟩ := List.getElem?_eq_some_iff.mp hat
  obtain ⟨hj, hgj⟩ := List.getElem?_eq_some_iff.mp hat'
  by_contra hnot
  rcases Nat.lt_or_eq_of_le (Nat.le_of_not_lt hnot) with hless | heq
  · have hgt := pairwise_iff_getElem.mp hs _ _ hj hi hless
    rw [hgi, hgj] at hgt
    exact absurd (UInt64.lt_trans hlt hgt) (UInt64.lt_irrefl _)
  · rw [heq] at hat'
    obtain rfl := some.inj (hat.symm.trans hat')
    exact absurd hlt (UInt64.lt_irrefl _)

theorem startingPositionLoop_eq (hlt : d.length < 2 ^ 32)
    (hasc : d.index.Pairwise (fun p q => p.1 < q.1)) (id : UInt64) : ∀ {fuel min max : ℕ},
    max ≤ d.index.length → max - min < fuel →
      (∀ l e r, d.index = l ++ e :: r → e.1 = id → min ≤ l.length ∧ l.length < max) →
        startingPositionLoop d id fuel min max = some ((d.idToPosition id).getD 0)
  | 0, _, _, _, hfuel, _ => absurd hfuel (Nat.not_lt_zero _)
  | fuel + 1, min, max, hmax, hfuel, hid => by
    rw [startingPositionLoop]
    by_cases hless : min < max
    · rw [if_pos hless]
      dsimp only
      obtain ⟨l, e, r, he, hmid⟩ : ∃ l e r, d.index = l ++ e :: r ∧ (max - min) / 2 + min = l.length := by
        have hlt_index : (max - min) / 2 + min < d.index.length := by omega
        refine ⟨_, _, _, (take_append_drop _ _).symm.trans
          (congrArg _ (drop_eq_getElem_cons hlt_index)), ?_⟩
        rw [List.length_take]
        omega
      obtain ⟨hhead, hblock⟩ := header_entry hlt he
      rw [hmid, hhead]
      dsimp only
      split
      · rename_i heq
        have hmem : (id, e.2) ∈ d.index := by
          rw [he, ← heq]
          exact mem_append_right _ mem_cons_self
        rw [hblock, idToPosition, lookup_reverse_of_mem hasc hmem, getD_some]
      · rename_i hne
        split
        · rename_i hbelow
          refine startingPositionLoop_eq hlt hasc id hmax (by omega) (fun l' e' r' he' hid' => ?_)
          exact ⟨length_lt_of_fst_lt hasc he he' (hid' ▸ hbelow), (hid l' e' r' he' hid').2⟩
        rename_i hnless
        have hgt : id < e.1 := by
          rcases UInt64.lt_or_eq_of_le (UInt64.not_lt.mp hnless) with hgt | heq
          · exact hgt
          · exact absurd heq.symm hne
        refine startingPositionLoop_eq hlt hasc id (by omega) (by omega) (fun l' e' r' he' hid' => ?_)
        exact ⟨(hid l' e' r' he' hid').1, length_lt_of_fst_lt hasc he' he (hid'.symm ▸ hgt)⟩
    · rw [if_neg hless]
      have hnone : d.idToPosition id = none := by
        rw [idToPosition, lookup_eq_none_iff]
        intro p hp
        obtain ⟨l, r, he⟩ := append_of_mem (mem_reverse.mp hp)
        have hne : p.1 ≠ id := fun heq => by
          have := hid l p r he heq
          omega
        simpa using hne.symm
      rw [hnone]
      rfl

/-- **`StartingPositionForID` finds what an index in the order of the ids says.** -/
theorem startingPositionForID_of_ascending (hlt : d.length < 2 ^ 32)
    (hasc : d.index.Pairwise (fun p q => p.1 < q.1)) (id : UInt64) :
    d.startingPositionForID id = some ((d.idToPosition id).getD 0) := by
  have hcount : d.seriesCount.toNat = d.index.length := by
    have hlength := hlt
    rw [DataFile.length, seriesHeaderSize] at hlength
    exact UInt32.toNat_ofNat_of_lt' (by simp only [UInt32.size]; omega)
  rw [startingPositionForID, hcount]
  refine startingPositionLoop_eq hlt hasc id le_rfl (by omega) (fun l e r he _ => ⟨Nat.zero_le _, ?_⟩)
  rw [he, length_append, length_cons]
  omega

end Search

theorem WellFormed.startingPositionForID_eq {C : BlockCodec} {ty : UInt64 → FieldType}
    (h : d.WellFormed C ty) (id : UInt64) :
    d.startingPositionForID id = some ((d.idToPosition id).getD 0) :=
  startingPositionForID_of_ascending h.length_lt h.index_ascending id

end DataFile

end AndyEnv.Tsm1
