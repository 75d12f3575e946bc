import AndyEnv.Tsm1.Value

/-!
# tsm1 data files (`tsm1.go`, `dataFile`)

A data file is a four-byte magic number, the blocks, the index and a footer.
A block is a twelve-byte header (the series-field id and the length of the
data) and its data; the index has one `(id, position)` entry per id; the
footer holds the file's time range and the number of index entries.

The model keeps the blocks in file order, the index and the two times.
Positions are `uint32` byte offsets that wrap where the source's do, and a
read at an offset at which no block begins is `none` (the source would
interpret whatever bytes are there).
-/

namespace AndyEnv.Tsm1

open List Values

def fileHeaderSize : ℕ := 4
def blockHeaderSize : ℕ := 12
def seriesHeaderSize : ℕ := 12

/-- Two eight-byte times and the four-byte series count. -/
def footerFixedSize : ℕ := 20

/-- Marks that there is no more data to be read from a data file. -/
def dataFileEOF : UInt64 := 0xFFFFFFFFFFFFFFFF

/-- A compressed block together with the id in its header. -/
structure Block : Type where
  id : UInt64
  data : Bytes
deriving DecidableEq, Repr

namespace Block

def size (b : Block) : ℕ := blockHeaderSize + b.data.length

/-- The first eight bytes of the data are the block's first timestamp. -/
def time (b : Block) : Int64 := (Bytes.uint64 b.data).toInt64

theorem size_pos (b : Block) : 0 < b.size := by
  simp [size, blockHeaderSize]

end Block

structure DataFile : Type where
  blocks : List Block
  index : List (UInt64 × UInt32)
  minTime : Int64
  maxTime : Int64
deriving DecidableEq, Repr

/-! ## Offsets -/

def blocksSize (bs : List Block) : ℕ := (bs.map Block.size).sum

@[simp] theorem blocksSize_nil : blocksSize [] = 0 := rfl

@[simp] theorem blocksSize_cons (b : Block) (bs : List Block) :
    blocksSize (b :: bs) = b.size + blocksSize bs := by
  simp [blocksSize]

@[simp] theorem blocksSize_append (xs ys : List Block) :
    blocksSize (xs ++ ys) = blocksSize xs + blocksSize ys := by
  simp [blocksSize]

/-- The position of the byte after the blocks `bs` of a file that begins with
them. -/
def positionAfter (bs : List Block) : UInt32 := UInt32.ofNat (fileHeaderSize + blocksSize bs)

theorem positionAfter_add_block (bs : List Block) (id : UInt64) (data : Bytes) :
    positionAfter bs + UInt32.ofNat (blockHeaderSize + data.length) =
      positionAfter (bs ++ [⟨id, data⟩]) := by
  rw [positionAfter, positionAfter, blocksSize_append, blocksSize_cons, blocksSize_nil,
    add_zero, Block.size, ← add_assoc, UInt32.ofNat_add (_ + _) (_ + _)]

/-- The block that begins at byte `pos`, walking from byte `off`. -/
def findBlock (pos : ℕ) : ℕ → List Block → Option Block
  | _, [] => none
  | off, b :: bs => if off = pos then some b else findBlock pos (off + b.size) bs

variable {b : Block} {id : UInt64} {vss : List Values}
variable {C : BlockCodec}

theorem findBlock_append {b : Block} {post : List Block} : ∀ {pre : List Block} {off : ℕ},
    findBlock (off + blocksSize pre) off (pre ++ b :: post) = some b
  | [], off => by simp [findBlock]
  | p :: ps, off => by
    have hne : off ≠ off + blocksSize (p :: ps) := by
      have := p.size_pos
      simp only [blocksSize_cons]
      omega
    have ih := @findBlock_append b post ps (off + p.size)
    rw [cons_append, findBlock, if_neg hne, blocksSize_cons, ← add_assoc]
    exact ih

namespace DataFile

def length (d : DataFile) : ℕ :=
  fileHeaderSize + blocksSize d.blocks + (d.index.length * seriesHeaderSize + footerFixedSize)

/-- `uint32(fInfo.Size())`. -/
def size (d : DataFile) : UInt32 := UInt32.ofNat d.length

def seriesCount (d : DataFile) : UInt32 := UInt32.ofNat d.index.length

def indexPosition (d : DataFile) : UInt32 :=
  d.size - (d.seriesCount * UInt32.ofNat seriesHeaderSize + UInt32.ofNat footerFixedSize)

theorem indexPosition_eq (d : DataFile) : d.indexPosition = positionAfter d.blocks := by
  simp only [indexPosition, size, length, seriesCount, positionAfter, UInt32.ofNat_add,
    UInt32.ofNat_mul]
  rw [UInt32.add_sub_cancel]

/-- The header and data at `pos`, without a bounds check. -/
def recordAt (d : DataFile) (pos : UInt32) : Option Block :=
  findBlock pos.toNat fileHeaderSize d.blocks

/-- `block(pos)`: id, first time and data of the block at `pos`, and zero
values from the index on. -/
def block (d : DataFile) (pos : UInt32) : Option (UInt64 × Int64 × Bytes) :=
  if pos < d.indexPosition then
    (d.recordAt pos).map (fun b => (b.id, b.time, b.data))
  else some (0, 0, [])

/-- `idForPosition(pos)`. -/
def idForPosition (d : DataFile) (pos : UInt32) : Option UInt64 :=
  (d.recordAt pos).map Block.id

/-- `IDToPosition()`: the map the index denotes, a later entry of an id
overwriting an earlier one. -/
def idToPosition (d : DataFile) (id : UInt64) : Option UInt32 :=
  d.index.reverse.lookup id

def indexIDs (d : DataFile) : List UInt64 := (d.index.map Prod.fst).dedup

end DataFile

/-! ## A file being written -/

/-- An open data file: the blocks written to it, and the position the writer
keeps track of. -/
structure Writer : Type where
  blocks : List Block
  currentPosition : UInt32
deriving DecidableEq, Repr

namespace Writer

/-- `openFileAndCheckpoint`: a new file with the magic number in it. -/
def new : Writer := ⟨[], UInt32.ofNat fileHeaderSize⟩

/-- `writeBlock`, with the caller's `currentPosition` moved past the block. -/
def writeBlock (w : Writer) (id : UInt64) (data : Bytes) : Writer where
  blocks := w.blocks ++ [⟨id, data⟩]
  currentPosition := w.currentPosition + UInt32.ofNat (blockHeaderSize + data.length)

def writeBlocks (w : Writer) (bs : List Block) : Writer :=
  bs.foldl (fun w b => w.writeBlock b.id b.data) w

@[simp] theorem writeBlocks_nil (w : Writer) : w.writeBlocks [] = w := rfl

theorem writeBlocks_append (w : Writer) (xs ys : List Block) :
    w.writeBlocks (xs ++ ys) = (w.writeBlocks xs).writeBlocks ys :=
  foldl_append

@[simp] theorem blocks_writeBlocks (w : Writer) (bs : List Block) :
    (w.writeBlocks bs).blocks = w.blocks ++ bs := by
  induction bs generalizing w with
  | nil => simp
  | cons b bs ih =>
    show ((w.writeBlock b.id b.data).writeBlocks bs).blocks = _
    rw [ih]
    simp [writeBlock]

/-- The position is the number of bytes written, as a `uint32`. -/
def Aligned (w : Writer) : Prop := w.currentPosition = positionAfter w.blocks

theorem aligned_new : new.Aligned := rfl

theorem Aligned.writeBlock {w : Writer} (h : w.Aligned) (id : UInt64) (data : Bytes) :
    (w.writeBlock id data).Aligned := by
  rw [Aligned, Writer.writeBlock, ← positionAfter_add_block, h]

theorem Aligned.writeBlocks {w : Writer} (h : w.Aligned) :
    ∀ bs : List Block, (w.writeBlocks bs).Aligned := by
  intro bs
  induction bs generalizing w with
  | nil => exact h
  | cons b bs ih => exact ih (h.writeBlock b.id b.data)

end Writer

/-! ## The index of a run of blocks -/

/-- One entry for each maximal run of blocks of one id: the id and the byte
at which the run begins. `prev` is the id of the block before. -/
def indexFrom (prev : Option UInt64) : ℕ → List Block → List (UInt64 × UInt32)
  | _, [] => []
  | off, b :: bs =>
    let rest := indexFrom (some b.id) (off + b.size) bs
    if prev = some b.id then rest else (b.id, UInt32.ofNat off) :: rest

def indexOf (bs : List Block) : List (UInt64 × UInt32) := indexFrom none fileHeaderSize bs

theorem length_indexFrom_le : ∀ {bs : List Block} {prev : Option UInt64} {off : ℕ},
    (indexFrom prev off bs).length ≤ bs.length
  | [], _, _ => le_rfl
  | b :: bs, prev, off => by
    have ih := @length_indexFrom_le bs (some b.id) (off + b.size)
    simp only [indexFrom]
    split
    · exact ih.trans (Nat.le_succ _)
    · simpa using ih

/-- The index of blocks in id order is in strict id order, past the id of the
block before. -/
theorem indexFrom_ascending : ∀ {bs : List Block} {prev : Option UInt64} {off : ℕ},
    bs.Pairwise (fun a b => a.id ≤ b.id) →
    (∀ x, prev = some x → ∀ b ∈ bs, x ≤ b.id) →
    (indexFrom prev off bs).Pairwise (fun p q => p.1 < q.1) ∧
      ∀ x, prev = some x → ∀ p ∈ indexFrom prev off bs, x < p.1
  | [], _, _, _, _ => ⟨List.Pairwise.nil, fun _ _ p hp => absurd hp not_mem_nil⟩
  | b :: bs, prev, off, hs, hprev => by
    obtain ⟨hb, hbs⟩ := pairwise_cons.mp hs
    obtain ⟨ih, hgt⟩ := @indexFrom_ascending bs (some b.id) (off + b.size) hbs
      (fun x hx y hy => Option.some.inj hx ▸ hb y hy)
    have hgt' := hgt b.id rfl
    simp only [indexFrom]
    split
    · rename_i hpe
      refine ⟨ih, ?_⟩
      intro x hx p hp
      rw [hpe] at hx
      exact Option.some.inj hx ▸ hgt' p hp
    · rename_i hpe
      refine ⟨pairwise_cons.mpr ⟨hgt', ih⟩, ?_⟩
      intro x hx p hp
      have hle := hprev x hx b mem_cons_self
      have hne : x ≠ b.id := fun e => hpe (e ▸ hx)
      rcases mem_cons.mp hp with rfl | hp'
      · grind
      · have := hgt' p hp'
        grind

/-- The first block of an id is where the index says. -/
theorem mem_indexFrom {b : Block} {post : List Block} :
    ∀ {pre : List Block} {prev : Option UInt64} {off : ℕ},
      (∀ x ∈ pre, x.id ≠ b.id) → (pre = [] → prev ≠ some b.id) →
      (b.id, UInt32.ofNat (off + blocksSize pre)) ∈ indexFrom prev off (pre ++ b :: post)
  | [], prev, off, _, hprev => by
    simp [indexFrom, hprev rfl]
  | p :: ps, prev, off, hne, _ => by
    have hp : p.id ≠ b.id := hne p mem_cons_self
    have ih := @mem_indexFrom b post ps (some p.id) (off + p.size)
      (forall_mem_cons.mp hne).2 (fun _ e => hp (Option.some.inj e))
    rw [blocksSize_cons, ← add_assoc]
    simp only [cons_append, indexFrom]
    split
    · exact ih
    · exact mem_cons_of_mem _ ih

/-- Conversely, what the index says is where an id's first block is. -/
theorem exists_first_of_mem_indexFrom {p : UInt64 × UInt32} :
    ∀ {bs : List Block} {prev : Option UInt64} {off : ℕ},
      bs.Pairwise (fun a b => a.id ≤ b.id) → p ∈ indexFrom prev off bs →
      ∃ pre b post, bs = pre ++ b :: post ∧ b.id = p.1 ∧ (∀ x ∈ pre, x.id ≠ p.1) ∧
        p.2 = UInt32.ofNat (off + blocksSize pre)
  | [], _, _, _, h => absurd h not_mem_nil
  | b :: bs, prev, off, hs, h => by
    obtain ⟨hb, hbs⟩ := pairwise_cons.mp hs
    have hrest : p ∈ indexFrom (some b.id) (off + b.size) bs →
        ∃ pre c post, b :: bs = pre ++ c :: post ∧ c.id = p.1 ∧ (∀ x ∈ pre, x.id ≠ p.1) ∧
          p.2 = UInt32.ofNat (off + blocksSize pre) := by
      intro h'
      have hlt := (@indexFrom_ascending bs (some b.id) (off + b.size) hbs
        (fun x hx y hy => Option.some.inj hx ▸ hb y hy)).2 b.id rfl p h'
      obtain ⟨pre, c, post, rfl, hc, hpre, hpos⟩ := exists_first_of_mem_indexFrom hbs h'
      refine ⟨b :: pre, c, post, rfl, hc, forall_mem_cons.mpr ⟨?_, hpre⟩, ?_⟩
      · grind
      · rw [hpos, blocksSize_cons, add_assoc]
    simp only [indexFrom] at h
    split at h
    · exact hrest h
    · rcases mem_cons.mp h with rfl | h'
      · exact ⟨[], b, bs, rfl, rfl, fun _ hx => absurd hx not_mem_nil, by simp⟩
      · exact hrest h'

/-- Within the run of an id there is no index entry. -/
theorem indexFrom_run {id : UInt64} {rest : List Block} :
    ∀ {bs : List Block} {off : ℕ}, (∀ b ∈ bs, b.id = id) →
      indexFrom (some id) off (bs ++ rest) = indexFrom (some id) (off + blocksSize bs) rest
  | [], off, _ => by simp
  | b :: bs, off, h => by
    have hb : b.id = id := h b mem_cons_self
    have ih := @indexFrom_run id rest bs (off + b.size)
      (forall_mem_cons.mp h).2
    rw [cons_append, indexFrom, hb, if_pos rfl, ih, blocksSize_cons, add_assoc]

theorem indexFrom_append_run {id : UInt64} {run : List Block} (hrun : ∀ b ∈ run, b.id = id)
    (hne : run ≠ []) : ∀ {bs : List Block} {prev : Option UInt64} {off : ℕ}, (∀ b ∈ bs, b.id ≠ id) →
      (bs = [] → prev ≠ some id) →
      indexFrom prev off (bs ++ run) =
        indexFrom prev off bs ++ [(id, UInt32.ofNat (off + blocksSize bs))]
  | [], prev, off, _, hprev => by
    obtain ⟨b, rest, rfl⟩ := exists_cons_of_ne_nil hne
    have hb : b.id = id := hrun b mem_cons_self
    have hrest := @indexFrom_run id [] rest (off + b.size)
      (forall_mem_cons.mp hrun).2
    rw [append_nil] at hrest
    simp only [nil_append, indexFrom, hb, if_neg (hprev rfl), hrest]
    simp
  | c :: bs, prev, off, hbs, _ => by
    have ih := @indexFrom_append_run id run hrun hne bs (some c.id) (off + c.size)
      (forall_mem_cons.mp hbs).2
      (fun _ e => hbs c mem_cons_self (Option.some.inj e))
    simp only [cons_append, indexFrom, ih, blocksSize_cons, add_assoc]
    split
    · rfl
    · rfl

/-- An index in strict id order is searched from either end alike. -/
theorem lookup_reverse_of_mem {l : List (UInt64 × UInt32)} {p : UInt32}
    (h : l.Pairwise (fun p q => p.1 < q.1)) (hm : (id, p) ∈ l) : l.reverse.lookup id = some p := by
  obtain ⟨l₁, l₂, rfl⟩ := append_of_mem hm
  rw [lookup_eq_some_iff]
  refine ⟨l₂.reverse, l₁.reverse, by simp, ?_⟩
  intro q hq
  have hlt := (pairwise_cons.mp (pairwise_append.mp h).2.1).1 q (by simpa using hq)
  have hne : id ≠ q.1 := by
    rintro rfl
    simp at hlt
  simpa using hne

/-! ## The block codec -/

/-- `Values.Encode` and `DecodeBlock`. Encoding fails where one of the
column encoders does; decoding fails on bytes that are not a block. -/
structure BlockCodec : Type where
  encodeBlock : Values → Option Bytes
  decodeBlock : Bytes → Option Values

/-- `Encode` panics on an empty list. -/
def Values.encode (C : BlockCodec) (a : Values) : Option Bytes :=
  if a = [] then none else C.encodeBlock a

namespace BlockCodec

variable (C : BlockCodec)

def bytes (vs : Values) : Bytes := (C.encodeBlock vs).getD []

/-- A list that survives the codec. Its block starts with its first
timestamp. -/
structure RoundTrips (vs : Values) : Prop where
  ne_nil : vs ≠ []
  encode : C.encodeBlock vs = some (C.bytes vs)
  decode : C.decodeBlock (C.bytes vs) = some vs
  time : vs.minTime = some (Bytes.uint64 (C.bytes vs)).toInt64

/-- The codec is an exact round trip on non-empty lists of one type. -/
def Exact : Prop :=
  ∀ (ty : FieldType) (vs : Values), vs ≠ [] → OfType ty vs → C.RoundTrips vs

def decodeAll : List Bytes → Option Values
  | [] => some []
  | b :: bs => do
    let v ← C.decodeBlock b
    let rest ← decodeAll bs
    return v ++ rest

variable {C}

theorem decodeAll_append {xs ys : List Bytes} {vs ws : Values}
    (hx : C.decodeAll xs = some vs) (hy : C.decodeAll ys = some ws) :
    C.decodeAll (xs ++ ys) = some (vs ++ ws) := by
  induction xs generalizing vs with
  | nil =>
    simp only [decodeAll, Option.some.injEq] at hx
    subst hx
    exact hy
  | cons b bs ih =>
    simp only [decodeAll, Option.bind_eq_bind, Option.bind_eq_some_iff,
      Option.pure_def, Option.some.injEq] at hx
    obtain ⟨v, hv, rest, hrest, rfl⟩ := hx
    simp [decodeAll, hv, ih hrest]

theorem decodeAll_bytes (h : ∀ vs ∈ vss, C.RoundTrips vs) :
    C.decodeAll (vss.map C.bytes) = some vss.flatten := by
  induction vss with
  | nil => rfl
  | cons vs vss ih =>
    have ih' := ih (forall_mem_cons.mp h).2
    simp [decodeAll, (h vs mem_cons_self).decode, ih']

theorem RoundTrips.encode_eq {vs : Values} (h : C.RoundTrips vs) :
    vs.encode C = some (C.bytes vs) := by
  rw [Values.encode, if_neg h.ne_nil, h.encode]

end BlockCodec

def DataFile.dataFor (d : DataFile) (id : UInt64) : List Bytes :=
  (d.blocks.filter (fun b => b.id == id)).map Block.data

def DataFile.valuesFor (C : BlockCodec) (d : DataFile) (id : UInt64) : Option Values :=
  C.decodeAll (d.dataFor id)

def decodedRun (C : BlockCodec) (bs : List Block) (id : UInt64) : List Values :=
  (bs.filter (fun b => b.id == id)).map (fun b => (C.decodeBlock b.data).getD [])

def DataFile.decodedBlocks (C : BlockCodec) (d : DataFile) (id : UInt64) : List Values :=
  decodedRun C d.blocks id

/-! ## Well-formed files -/

/-- A block holds the encoding of a non-empty list of its id's type, and
decodes to it. -/
def Block.Encodes (C : BlockCodec) (ty : UInt64 → FieldType) (b : Block) : Prop :=
  ∃ vs : Values, C.RoundTrips vs ∧ OfType (ty b.id) vs ∧ b.data = C.bytes vs

/-- The blocks that hold the lists `vss` for an id. -/
def encodeRun (C : BlockCodec) (id : UInt64) (vss : List Values) : List Block :=
  vss.map (fun vs => ⟨id, C.bytes vs⟩)

theorem encodeRun_cons (id : UInt64) (vs : Values) (vss : List Values) :
    encodeRun C id (vs :: vss) = ⟨id, C.bytes vs⟩ :: encodeRun C id vss := rfl

@[simp] theorem encodeRun_nil (id : UInt64) : encodeRun C id [] = [] := rfl

@[simp] theorem encodeRun_eq_nil : encodeRun C id vss = [] ↔ vss = [] := map_eq_nil_iff

theorem encodeRun_append (id : UInt64) (vss wss : List Values) :
    encodeRun C id (vss ++ wss) = encodeRun C id vss ++ encodeRun C id wss :=
  map_append

theorem id_of_mem_encodeRun (h : b ∈ encodeRun C id vss) : b.id = id := by
  obtain ⟨vs, -, rfl⟩ := mem_map.mp h
  rfl

/-- The blocks of an id that encode lists are the encoding of the decoded
lists. -/
theorem filter_eq_encodeRun_of_encodes {ty : UInt64 → FieldType}
    {bs : List Block} (h : ∀ b ∈ bs, b.Encodes C ty) (id : UInt64) :
    bs.filter (fun b => b.id == id) = encodeRun C id (decodedRun C bs id) ∧
    ∀ vs ∈ decodedRun C bs id, C.RoundTrips vs ∧ OfType (ty id) vs := by
  have hdec : ∀ b ∈ bs.filter (fun b => b.id == id),
      ∃ vs : Values, C.RoundTrips vs ∧ OfType (ty id) vs ∧ b = ⟨id, C.bytes vs⟩ := by
    intro b hb
    obtain ⟨hb, hid⟩ := mem_filter.mp hb
    have hid : b.id = id := by simpa using hid
    obtain ⟨vs, hrt, hty, hdata⟩ := h b hb
    rw [hid] at hty
    exact ⟨vs, hrt, hty, by rw [← hid, ← hdata]⟩
  simp only [decodedRun, encodeRun, map_map, mem_map]
  constructor
  · symm
    refine (map_congr_left ?_).trans (map_id _)
    intro b hb
    obtain ⟨vs, hrt, hty, rfl⟩ := hdec b hb
    simp [hrt.decode]
  · rintro vs ⟨b, hb, rfl⟩
    obtain ⟨vs, hrt, hty, rfl⟩ := hdec b hb
    simpa [hrt.decode] using ⟨hrt, hty⟩

theorem decodedRun_append (xs ys : List Block) (id : UInt64) :
    decodedRun C (xs ++ ys) id = decodedRun C xs id ++ decodedRun C ys id := by
  simp [decodedRun]

theorem decodedRun_eq_nil {bs : List Block} : decodedRun C bs id = [] ↔ ∀ b ∈ bs, b.id ≠ id := by
  simp [decodedRun, filter_eq_nil_iff]

theorem decodedRun_encodeRun
    (h : ∀ vs ∈ vss, C.RoundTrips vs) : decodedRun C (encodeRun C id vss) id = vss := by
  induction vss with
  | nil => rfl
  | cons vs vss ih =>
    rw [encodeRun_cons, ← singleton_append, decodedRun_append,
      ih (forall_mem_cons.mp h).2]
    simp [decodedRun, (h vs mem_cons_self).decode]

/-- A data file as the engine writes it: the blocks of an id are contiguous
and the ids ascend, every id is a real one (`hashSeriesField` keeps `0` and
the maximum free for sentinels), the values of an id ascend strictly across
its blocks, the index gives each id the offset of its first block, and the
file is short enough for a `uint32` offset. -/
structure DataFile.WellFormed (C : BlockCodec) (ty : UInt64 → FieldType)
    (d : DataFile) : Prop where
  sorted : d.blocks.Pairwise (fun a b => a.id ≤ b.id)
  id_ne : ∀ b ∈ d.blocks, b.id ≠ 0 ∧ b.id ≠ dataFileEOF
  encodes : ∀ b ∈ d.blocks, b.Encodes C ty
  ascending : ∀ id vs, d.valuesFor C id = some vs → Ascending vs
  index_eq : d.index = indexOf d.blocks
  length_lt : d.length < 2 ^ 32

namespace DataFile.WellFormed

variable {ty : UInt64 → FieldType} {d : DataFile}

theorem blocks_lt (h : d.WellFormed C ty) : fileHeaderSize + blocksSize d.blocks < 2 ^ 32 := by
  have := h.length_lt
  simp only [DataFile.length] at this
  omega

variable {pre post : List Block}

section

variable (h : d.WellFormed C ty)
include h

theorem toNat_positionAfter (hb : d.blocks = pre ++ post) :
    (positionAfter pre).toNat = fileHeaderSize + blocksSize pre := by
  have := h.blocks_lt
  rw [hb, blocksSize_append] at this
  exact UInt32.toNat_ofNat_of_lt' (by simp only [UInt32.size]; omega)

theorem recordAt_split (hb : d.blocks = pre ++ b :: post) : d.recordAt (positionAfter pre) = some b := by
  rw [DataFile.recordAt, h.toNat_positionAfter hb, hb]
  exact findBlock_append

/-- A position is past the blocks exactly at the end of the file. -/
theorem indexPosition_le_iff (hb : d.blocks = pre ++ post) : d.indexPosition ≤ positionAfter pre ↔ post = [] := by
  have hall : (positionAfter d.blocks).toNat = fileHeaderSize + blocksSize d.blocks :=
    h.toNat_positionAfter (append_nil _).symm
  rw [DataFile.indexPosition_eq, UInt32.le_iff_toNat_le, hall, h.toNat_positionAfter hb, hb,
    blocksSize_append]
  cases post with
  | nil => simp
  | cons b post =>
    have := b.size_pos
    simp only [blocksSize_cons, reduceCtorEq, iff_false]
    omega

theorem block_split (hb : d.blocks = pre ++ b :: post) :
    d.block (positionAfter pre) = some (b.id, b.time, b.data) := by
  have hpos : positionAfter pre < d.indexPosition := by
    rw [← UInt32.not_le, h.indexPosition_le_iff hb]
    simp
  rw [DataFile.block, if_pos hpos, h.recordAt_split hb]
  rfl

end

theorem block_end (d : DataFile) : d.block (positionAfter d.blocks) = some (0, 0, []) := by
  rw [DataFile.block, DataFile.indexPosition_eq, if_neg (UInt32.lt_irrefl _)]

/-- Reading on past a run of blocks of `id` finds another id. -/
theorem block_after_run (h : d.WellFormed C ty) (hid : id ≠ 0)
    (hb : d.blocks = pre ++ post) (hpost : ∀ b ∈ post, b.id ≠ id) :
    ∃ fid t block, d.block (positionAfter pre) = some (fid, t, block) ∧ fid ≠ id := by
  cases post with
  | nil =>
    rw [append_nil] at hb
    subst hb
    exact ⟨0, 0, [], block_end d, Ne.symm hid⟩
  | cons b post =>
    exact ⟨b.id, b.time, b.data, h.block_split hb, hpost b mem_cons_self⟩

theorem exists_run {bs : List Block} (h : bs.Pairwise (fun a b => a.id ≤ b.id)) (id : UInt64) :
    ∃ pre post, bs = pre ++ (bs.filter (fun b => b.id == id) ++ post) ∧
      (∀ b ∈ pre, b.id < id) ∧ ∀ b ∈ post, b.id ≠ id := by
  have hsplit := Keyed.eq_filter_lt_append_eq_append_gt id.toNat (h.imp UInt64.le_iff_toNat_le.mp)
  have hfun : (fun b : Block => decide (b.id.toNat = id.toNat)) = fun b => b.id == id := by
    funext b
    rw [Bool.eq_iff_iff]
    simp [UInt64.toNat_inj]
  rw [hfun] at hsplit
  refine ⟨_, _, hsplit, fun b hb => ?_, ?_⟩
  · exact UInt64.lt_iff_toNat_lt.mpr (of_decide_eq_true (mem_filter.mp hb).2)
  · rintro b hb rfl
    simp at hb

section

variable (h : d.WellFormed C ty)
include h

theorem index_ascending : d.index.Pairwise (fun p q => p.1 < q.1) := by
  rw [h.index_eq]
  exact (indexFrom_ascending h.sorted (fun x hx => absurd hx (by simp))).1

/-- The position of an id is the offset of the first block of its run. -/
theorem idToPosition_run (hb : d.blocks = pre ++ b :: post) (hpre : ∀ x ∈ pre, x.id ≠ b.id) :
    d.idToPosition b.id = some (positionAfter pre) := by
  refine lookup_reverse_of_mem h.index_ascending ?_
  rw [h.index_eq, hb]
  exact mem_indexFrom hpre (fun _ e => by simp at e)

theorem exists_block {p : UInt64 × UInt32} (hp : p ∈ d.index) : ∃ b ∈ d.blocks, b.id = p.1 := by
  rw [h.index_eq] at hp
  obtain ⟨pre, b, post, hb, hid, -⟩ := exists_first_of_mem_indexFrom h.sorted hp
  exact ⟨b, by rw [hb]; exact mem_append_cons_self, hid⟩

theorem mem_indexIDs : id ∈ d.indexIDs ↔ ∃ b ∈ d.blocks, b.id = id := by
  simp only [DataFile.indexIDs, mem_dedup, mem_map]
  constructor
  · rintro ⟨p, hp, rfl⟩
    exact h.exists_block hp
  · rintro ⟨b, hb, rfl⟩
    obtain ⟨pre, post, hrun, hpre, -⟩ := exists_run h.sorted b.id
    have hmem : b ∈ d.blocks.filter (fun x => x.id == b.id) := by
      simpa using hb
    obtain ⟨x, xs, hx⟩ := exists_cons_of_ne_nil (ne_nil_of_mem hmem)
    have hxid : x.id = b.id := by
      have : x ∈ d.blocks.filter (fun y => y.id == b.id) := hx ▸ mem_cons_self
      simpa using (mem_filter.mp this).2
    rw [hx, cons_append] at hrun
    have hm := @mem_indexFrom x (xs ++ post) pre none fileHeaderSize
      (fun y hy => hxid ▸ UInt64.ne_of_lt (hpre y hy)) (fun _ e => by simp at e)
    rw [h.index_eq, indexOf, hrun]
    exact ⟨_, hm, hxid⟩

theorem idToPosition_eq_none (hid : ∀ b ∈ d.blocks, b.id ≠ id) : d.idToPosition id = none := by
  rw [DataFile.idToPosition, lookup_eq_none_iff]
  intro p hp
  obtain ⟨b, hb, hbid⟩ := h.exists_block (mem_reverse.mp hp)
  have hne : p.1 ≠ id := hbid ▸ hid b hb
  simpa using hne.symm

variable (id : UInt64)

theorem filter_eq_encodeRun :
    d.blocks.filter (fun b => b.id == id) = encodeRun C id (d.decodedBlocks C id) ∧
    ∀ vs ∈ d.decodedBlocks C id, C.RoundTrips vs ∧ OfType (ty id) vs :=
  filter_eq_encodeRun_of_encodes h.encodes id

theorem encodeRun_split :
    ∃ pre post, d.blocks = pre ++ (encodeRun C id (d.decodedBlocks C id) ++ post) ∧
      (∀ b ∈ pre, b.id ≠ id) ∧ ∀ b ∈ post, b.id ≠ id := by
  obtain ⟨pre, post, hblocks, hpre, hpost⟩ := exists_run h.sorted id
  rw [(h.filter_eq_encodeRun id).1] at hblocks
  exact ⟨pre, post, hblocks, fun b hb => UInt64.ne_of_lt (hpre b hb), hpost⟩

theorem valuesFor_eq : d.valuesFor C id = some (d.decodedBlocks C id).flatten := by
  obtain ⟨hblocks, hvs⟩ := h.filter_eq_encodeRun id
  rw [DataFile.valuesFor, DataFile.dataFor, hblocks, encodeRun, map_map]
  exact BlockCodec.decodeAll_bytes (fun vs hv => (hvs vs hv).1)

end

end DataFile.WellFormed

/-! ## Files laid out id by id -/

section Layout

variable {f : UInt64 → List Block}

/-- Only the blocks written for an id carry it. -/
theorem filter_flatMap_eq (hf : ∀ i, ∀ b ∈ f i, b.id = i)
    {ids : List UInt64} (hnd : ids.Nodup) (id : UInt64) :
    (ids.flatMap f).filter (fun b => b.id == id) = if id ∈ ids then f id else [] := by
  induction ids with
  | nil => simp
  | cons i ids ih =>
    obtain ⟨hi, hnd'⟩ := nodup_cons.mp hnd
    rw [flatMap_cons, filter_append, ih hnd']
    by_cases he : i = id
    · subst he
      have hself : (f i).filter (fun b => b.id == i) = f i :=
        filter_eq_self.mpr (fun b hb => by simp [hf i b hb])
      simp [hself, hi]
    · have hnone : (f i).filter (fun b => b.id == id) = [] :=
        filter_eq_nil_iff.mpr (fun b hb => by simp [hf i b hb, he])
      simp [hnone, Ne.symm he]

def runStarts (f : UInt64 → List Block) : List Block → List UInt64 → List UInt32
  | _, [] => []
  | pre, id :: ids => positionAfter pre :: runStarts f (pre ++ f id) ids

/-- The index of a file laid out id by id: each id with the position at which
its run begins. -/
theorem indexFrom_flatMap (hf : ∀ i, ∀ b ∈ f i, b.id = i) :
    ∀ {ids : List UInt64} {pre : List Block} {prev : Option UInt64}, ids.Nodup →
      (∀ id ∈ ids, f id ≠ [] ∧ prev ≠ some id) →
      indexFrom prev (fileHeaderSize + blocksSize pre) (ids.flatMap f) =
        ids.zip (runStarts f pre ids)
  | [], _, _, _, _ => rfl
  | id :: ids, pre, prev, hnd, h => by
    obtain ⟨hid, hnd'⟩ := nodup_cons.mp hnd
    obtain ⟨hne, hprev⟩ := h id mem_cons_self
    obtain ⟨b, bs, hrun⟩ := exists_cons_of_ne_nil hne
    have hb : b.id = id := hf id b (hrun ▸ mem_cons_self)
    have hbs : ∀ x ∈ bs, x.id = id := fun x hx => hf id x (hrun ▸ mem_cons_of_mem _ hx)
    have ih := @indexFrom_flatMap hf ids (pre ++ f id) (some id) hnd' (by
      intro i hi
      refine ⟨(h i (mem_cons_of_mem _ hi)).1, ?_⟩
      rintro ⟨⟩
      exact hid hi)
    rw [blocksSize_append, hrun, blocksSize_cons] at ih
    rw [flatMap_cons, hrun, cons_append, indexFrom, hb, if_neg hprev,
      indexFrom_run hbs, runStarts, zip_cons_cons, hrun, ← ih, add_assoc,
      add_assoc, positionAfter]

/-- **A file laid out id by id is well formed.** -/
theorem wellFormed_of_layout {ty : UInt64 → FieldType} {d : DataFile} {ids : List UInt64}
    {vss : UInt64 → List Values} (hids : ids.Pairwise (· < ·))
    (hid : ∀ id ∈ ids, id ≠ 0 ∧ id ≠ dataFileEOF)
    (hvss : ∀ id ∈ ids, (∀ vs ∈ vss id, C.RoundTrips vs ∧ OfType (ty id) vs) ∧
      Ascending (vss id).flatten)
    (hblocks : d.blocks = ids.flatMap (fun id => encodeRun C id (vss id)))
    (hindex : d.index = indexOf d.blocks) (hlen : d.length < 2 ^ 32) : d.WellFormed C ty where
  sorted := by
    rw [hblocks, pairwise_flatMap]
    refine ⟨fun id _ => ?_, hids.imp (fun {i j} hij a ha b hb => ?_)⟩
    · refine pairwise_of_forall_mem_list (fun a ha b hb => ?_)
      rw [id_of_mem_encodeRun ha, id_of_mem_encodeRun hb]
      exact UInt64.le_refl id
    · rw [id_of_mem_encodeRun ha, id_of_mem_encodeRun hb]
      exact UInt64.le_of_lt hij
  id_ne := by
    intro b hb
    rw [hblocks] at hb
    obtain ⟨id, hmem, hb⟩ := mem_flatMap.mp hb
    rw [id_of_mem_encodeRun hb]
    exact hid id hmem
  encodes := by
    intro b hb
    rw [hblocks] at hb
    obtain ⟨id, hmem, hb⟩ := mem_flatMap.mp hb
    obtain ⟨vs, hvs, rfl⟩ := mem_map.mp hb
    obtain ⟨hrt, hty⟩ := (hvss id hmem).1 vs hvs
    exact ⟨vs, hrt, hty, rfl⟩
  ascending := by
    intro id vs hvals
    have hnd : ids.Nodup := hids.imp (fun {i j} hij => by grind)
    rw [DataFile.valuesFor, DataFile.dataFor, hblocks,
      filter_flatMap_eq (fun i b => id_of_mem_encodeRun) hnd id] at hvals
    by_cases hmem : id ∈ ids
    · obtain ⟨hgood, hasc⟩ := hvss id hmem
      rw [if_pos hmem, encodeRun, map_map] at hvals
      have hdec : C.decodeAll ((vss id).map C.bytes) = some vs := hvals
      rw [BlockCodec.decodeAll_bytes (fun vs hv => (hgood vs hv).1)] at hdec
      exact Option.some.inj hdec ▸ hasc
    · rw [if_neg hmem] at hvals
      cases hvals
      exact Keyed.ascending_nil
  index_eq := hindex
  length_lt := hlen

end Layout

end AndyEnv.Tsm1
