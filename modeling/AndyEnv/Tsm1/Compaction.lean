import AndyEnv.Tsm1.PlainCodec

/-!
# Compaction (`compactionJob`, `Engine.compactToNewFiles`)

A compaction job reads several data files side by side, each from its own
position, and writes their data to new files, id by id. For one id it goes
through the files in order, collects the decoded values and writes a block
whenever it has more than `maxPointsPerBlock` of them. A file that has grown
past `maxFileSize` is closed in the middle of an id: the values at hand are
kept in `leftoverValues`, and the same id is resumed in a new file.

Where an id is cut into blocks does not depend on the rotations: over all the
new files its blocks are the encoding of `cuts`, a function of its decoded
input blocks.
-/

namespace AndyEnv.Tsm1

open List Writer Plain
open Option (bind_eq_bind bind_some)

/-! ## The code -/

/-- One file getting compacted: `dataFilesToCompact`, `dataFilePositions` and
`currentDataFileIDs` at one index. -/
structure Source : Type where
  df : DataFile
  position : UInt32
  currentID : UInt64
deriving DecidableEq, Repr

/-- The open file carries its `currentPosition`. -/
structure CompactionJob : Type where
  sources : List Source
  newFiles : List DataFile
  idsInCurrentFile : List UInt64
  startingPositions : List UInt32
  currentFile : Option Writer
  leftoverValues : Values
  maxFileSize : UInt32
  maxPointsPerBlock : ℕ
  minTime : Int64
  maxTime : Int64

def footerSize (seriesCount : ℕ) : UInt32 :=
  UInt32.ofNat (seriesCount * seriesHeaderSize + footerFixedSize)

/-- Whether the file is over the max file size, in `uint32` arithmetic. -/
def shouldRotateCurrentFile (maxFileSize : UInt32) (seriesCount : ℕ) (w : Writer) : Bool :=
  decide (maxFileSize < w.currentPosition + footerSize seriesCount)

/-- `writeIDFromFile`: read the blocks of an id from one file. The result is
the values not written yet, whether to rotate, the new position, and the next
id of the file. -/
def writeIDFromFile (C : BlockCodec) (maxFileSize : UInt32) (maxPointsPerBlock seriesCount : ℕ)
    (id : UInt64) (df : DataFile) :
    ℕ → Values → UInt32 → Writer → Option (Values × Bool × UInt32 × UInt64 × Writer)
  | 0, _, _, _ => none
  | fuel + 1, previousValues, filePosition, w =>
    -- the end of the file
    if df.indexPosition ≤ filePosition then
      some (previousValues, false, filePosition, dataFileEOF, w)
    else do
      let (nextID, _, block) ← df.block filePosition
      -- the end of the blocks for this id
      if nextID ≠ id then return (previousValues, false, filePosition, nextID, w)
      let filePosition := filePosition + UInt32.ofNat (blockHeaderSize + block.length)
      let values ← C.decodeBlock block
      let previousValues := previousValues ++ values
      if maxPointsPerBlock < previousValues.length then
        let encoded ← Values.encode C (previousValues.take maxPointsPerBlock)
        let previousValues := previousValues.drop maxPointsPerBlock
        let w := w.writeBlock id encoded
        if shouldRotateCurrentFile maxFileSize seriesCount w then
          if df.indexPosition ≤ filePosition then
            return (previousValues, true, filePosition, dataFileEOF, w)
          let (nextID, _, _) ← df.block filePosition
          return (previousValues, true, filePosition, nextID, w)
        else
          writeIDFromFile C maxFileSize maxPointsPerBlock seriesCount id df fuel
            previousValues filePosition w
      else
        writeIDFromFile C maxFileSize maxPointsPerBlock seriesCount id df fuel
          previousValues filePosition w

/-- The loop of `writeBlocksForID` over the files. It stops at the first file
that fills the current output. -/
def writeIDFromSources (C : BlockCodec) (maxFileSize : UInt32)
    (maxPointsPerBlock seriesCount : ℕ) (id : UInt64) :
    List Source → Values → Writer → Option (List Source × Values × Bool × Writer)
  | [], previousValues, w => some ([], previousValues, false, w)
  | s :: ss, previousValues, w =>
    if s.currentID ≠ id then do
      let (ss, previousValues, rotateFile, w) ← writeIDFromSources C maxFileSize
        maxPointsPerBlock seriesCount id ss previousValues w
      return (s :: ss, previousValues, rotateFile, w)
    else do
      let (previousValues, rotateFile, newFilePosition, nextID, w) ←
        writeIDFromFile C maxFileSize maxPointsPerBlock seriesCount id s.df
          (s.df.blocks.length + 1) previousValues s.position w
      let s : Source := ⟨s.df, newFilePosition, nextID⟩
      if rotateFile then return (s :: ss, previousValues, true, w)
      let (ss, previousValues, rotateFile, w) ← writeIDFromSources C maxFileSize
        maxPointsPerBlock seriesCount id ss previousValues w
      return (s :: ss, previousValues, rotateFile, w)

namespace CompactionJob

/-- `newCompactionJob`. -/
def new (files : List DataFile) (minTime maxTime : Int64) (maxFileSize : UInt32)
    (maxPointsPerBlock : ℕ) : Option CompactionJob := do
  let sources ← files.mapM (fun df => do
    let id ← df.idForPosition (UInt32.ofNat fileHeaderSize)
    return (⟨df, UInt32.ofNat fileHeaderSize, id⟩ : Source))
  return ⟨sources, [], [], [], none, [], maxFileSize, maxPointsPerBlock, minTime, maxTime⟩

def newCurrentFile (c : CompactionJob) : CompactionJob :=
  { c with idsInCurrentFile := [], startingPositions := [], currentFile := some Writer.new }

def nextID (c : CompactionJob) : UInt64 :=
  (c.sources.map Source.currentID).foldl (fun minID id => if minID > id then id else minID)
    dataFileEOF

def writeOutCurrentFile (c : CompactionJob) : CompactionJob :=
  match c.currentFile with
  | none => c
  | some w =>
    { c with
      newFiles := c.newFiles ++
        [⟨w.blocks, c.idsInCurrentFile.zip c.startingPositions, c.minTime, c.maxTime⟩]
      currentFile := none }

/-- `writeBlocksForID`. `true` asks for a new file to compact into. -/
def writeBlocksForID (C : BlockCodec) (c : CompactionJob) (id : UInt64) :
    Option (Bool × CompactionJob) := do
  let w ← c.currentFile
  let c := { c with
    idsInCurrentFile := c.idsInCurrentFile ++ [id]
    startingPositions := c.startingPositions ++ [w.currentPosition] }
  let (sources, previousValues, rotateFile, w) ←
    writeIDFromSources C c.maxFileSize c.maxPointsPerBlock c.idsInCurrentFile.length id
      c.sources c.leftoverValues w
  if rotateFile then
    let c := { c with
      sources := sources
      leftoverValues := previousValues
      currentFile := some w }
    return (true, c.writeOutCurrentFile)
  else if previousValues = [] then
    return (false, { c with sources := sources, leftoverValues := [], currentFile := some w })
  else
    let encoded ← Values.encode C previousValues
    return (false, { c with
      sources := sources
      leftoverValues := []
      currentFile := some (w.writeBlock id encoded) })

/-- Write the data of one id, rotating to new files as necessary. -/
def writeID (C : BlockCodec) (id : UInt64) : ℕ → CompactionJob → Option CompactionJob
  | 0, _ => none
  | fuel + 1, c => do
    let (moreToWrite, c) ← c.writeBlocksForID C id
    if moreToWrite then writeID C id fuel c.newCurrentFile else return c

/-- Write data until all the files have been read through. -/
def run (C : BlockCodec) (blocks : ℕ) : ℕ → CompactionJob → Option CompactionJob
  | 0, _ => none
  | fuel + 1, c =>
    if c.nextID = dataFileEOF then some c
    else do
      let c ← c.writeID C c.nextID (blocks + 1)
      run C blocks fuel c

end CompactionJob

/-- `compactToNewFiles`, with the engine's `MaxFileSize` and
`MaxPointsPerBlock`. Every round of either loop reads a block, so the number
of blocks bounds them. -/
def compactToNewFiles (C : BlockCodec) (maxFileSize : UInt32) (maxPointsPerBlock : ℕ)
    (minTime maxTime : Int64) (files : List DataFile) : Option (List DataFile) := do
  let c ← CompactionJob.new files minTime maxTime maxFileSize maxPointsPerBlock
  let blocks := (files.map (fun df => df.blocks.length)).sum
  let c ← c.newCurrentFile.run C blocks (blocks + 1)
  return c.writeOutCurrentFile.newFiles

/-! ## Where the values of an id are cut into blocks -/

/-- The blocks that are written while the decoded blocks `vss` are read, and
the values that are left. -/
def cutRun (max : ℕ) : Values → List Values → List Values × Values
  | prev, [] => ([], prev)
  | prev, vs :: vss =>
    if max < (prev ++ vs).length then
      let r := cutRun max ((prev ++ vs).drop max) vss
      ((prev ++ vs).take max :: r.1, r.2)
    else cutRun max (prev ++ vs) vss

def lastBlock (vs : Values) : List Values := if vs = [] then [] else [vs]

/-- All the blocks of an id whose input blocks decode to `vss`. -/
def cuts (max : ℕ) (vss : List Values) : List Values :=
  (cutRun max [] vss).1 ++ lastBlock (cutRun max [] vss).2

theorem cutRun_append (max : ℕ) (wss : List Values) : ∀ (vss : List Values) (prev : Values),
    cutRun max prev (vss ++ wss) =
      ((cutRun max prev vss).1 ++ (cutRun max (cutRun max prev vss).2 wss).1,
        (cutRun max (cutRun max prev vss).2 wss).2)
  | [], prev => rfl
  | vs :: vss, prev => by
    rw [cons_append]
    simp only [cutRun]
    split
    · rw [cutRun_append max wss vss]
      rfl
    · exact cutRun_append max wss vss _

theorem flatten_cutRun (max : ℕ) : ∀ (vss : List Values) (prev : Values),
    (cutRun max prev vss).1.flatten ++ (cutRun max prev vss).2 = prev ++ vss.flatten
  | [], prev => by simp [cutRun]
  | vs :: vss, prev => by
    simp only [cutRun]
    split
    · rw [flatten_cons, append_assoc, flatten_cutRun max vss,
        ← append_assoc, take_append_drop, flatten_cons, append_assoc]
    · rw [flatten_cutRun max vss, flatten_cons, append_assoc]

theorem flatten_lastBlock (vs : Values) : (lastBlock vs).flatten = vs := by
  unfold lastBlock
  split
  · simp_all
  · simp

theorem flatten_cuts (max : ℕ) (vss : List Values) : (cuts max vss).flatten = vss.flatten := by
  rw [cuts, flatten_append, flatten_lastBlock, flatten_cutRun, nil_append]

variable {vss : List Values}

variable {max : ℕ} {id : UInt64} {C : BlockCodec}

/-- Once a value has been read, there is a block or a remainder. -/
theorem cutRun_ne_nil {prev : Values} (h : prev ≠ [] ∨ ∃ vs ∈ vss, vs ≠ []) :
    (cutRun max prev vss).1 ≠ [] ∨ (cutRun max prev vss).2 ≠ [] := by
  by_contra hnot
  rw [not_or, not_not, not_not] at hnot
  have hflat := flatten_cutRun max vss prev
  rw [hnot.1, hnot.2] at hflat
  have hnil : prev ++ vss.flatten = [] := by simpa using hflat.symm
  rw [append_eq_nil_iff, flatten_eq_nil_iff] at hnil
  rcases h with h | ⟨vs, hvs, hne⟩
  · exact h hnil.1
  · exact hne (hnil.2 vs hvs)

theorem cutRun_fst_ne_nil (hmax : 1 ≤ max) : ∀ {vss : List Values} {prev : Values},
    ∀ vs ∈ (cutRun max prev vss).1, vs ≠ []
  | [], _, vs, h => absurd h not_mem_nil
  | ws :: vss, prev, vs, h => by
    simp only [cutRun] at h
    split at h
    · rename_i hlt
      rcases mem_cons.mp h with rfl | h
      · intro hnil
        have := congrArg List.length hnil
        rw [List.length_take, length_nil] at this
        omega
      · exact cutRun_fst_ne_nil hmax vs h
    · exact cutRun_fst_ne_nil hmax vs h

theorem cuts_ne_nil (hmax : 1 ≤ max) : ∀ vs ∈ cuts max vss, vs ≠ [] := by
  intro vs hvs
  rcases mem_append.mp hvs with h | h
  · exact cutRun_fst_ne_nil hmax vs h
  unfold lastBlock at h
  split at h
  · exact absurd h not_mem_nil
  · rw [mem_singleton.mp h]
    assumption

/-! ## One file -/

/-- The id a file is at, when the blocks `rest` are still to be read. -/
def headID : List Block → UInt64
  | [] => dataFileEOF
  | b :: _ => b.id

section Source

variable {C : BlockCodec} {ty : UInt64 → FieldType} {maxFileSize : UInt32} {max count : ℕ}

/-- Reading the decoded blocks `vss` has filled the output: a block was
written, and values are left. -/
structure Fills (C : BlockCodec) (maxFileSize : UInt32) (max count : ℕ) (id : UInt64)
    (prev : Values) (w : Writer) (vss : List Values) : Prop where
  out : (cutRun max prev vss).1 ≠ []
  left : (cutRun max prev vss).2 ≠ []
  rotate : shouldRotateCurrentFile maxFileSize count
    (w.writeBlocks (encodeRun C id (cutRun max prev vss).1)) = true

variable {id : UInt64}

theorem Fills.append {prev : Values} {w : Writer} {wss : List Values}
    (h : Fills C maxFileSize max count id (cutRun max prev vss).2
      (w.writeBlocks (encodeRun C id (cutRun max prev vss).1)) wss) :
    Fills C maxFileSize max count id prev w (vss ++ wss) := by
  constructor <;> rw [cutRun_append]
  · exact append_ne_nil_of_right_ne_nil _ h.out
  · exact h.left
  · rw [encodeRun_append, writeBlocks_append]
    exact h.rotate

/-- **One file's blocks of an id.** A first part `vss₁` of them has been read
and cut; all of them unless the output is full. -/
theorem writeIDFromFile_spec {d : DataFile} (h : d.WellFormed C ty)
    {post : List Block} (hpost : ∀ b ∈ post, b.id ≠ id) :
    ∀ (vss : List Values) (pre : List Block) (prev : Values) (w : Writer) (fuel : ℕ),
      d.blocks = pre ++ (encodeRun C id vss ++ post) → (∀ vs ∈ vss, C.RoundTrips vs) →
      (∀ vs ∈ (cutRun max prev vss).1, C.RoundTrips vs) → vss.length < fuel →
      ∃ vss₁ vss₂ rotateFile, vss = vss₁ ++ vss₂ ∧
        writeIDFromFile C maxFileSize max count id d fuel prev (positionAfter pre) w =
          some ((cutRun max prev vss₁).2, rotateFile,
            positionAfter (pre ++ encodeRun C id vss₁), headID (encodeRun C id vss₂ ++ post),
            w.writeBlocks (encodeRun C id (cutRun max prev vss₁).1)) ∧
        (rotateFile = false → vss₂ = []) ∧
        (rotateFile = true → Fills C maxFileSize max count id prev w vss₁)
  | [], pre, prev, w, fuel + 1, hb, _, _, _ => by
    refine ⟨[], [], false, rfl, ?_, fun _ => rfl, fun h => absurd h (by simp)⟩
    have hb' : d.blocks = pre ++ post := by simpa using hb
    cases post with
    | nil =>
      have hend := (h.indexPosition_le_iff hb').mpr rfl
      simp [writeIDFromFile, hend, cutRun, headID]
    | cons b post =>
      have hend : ¬ d.indexPosition ≤ positionAfter pre := by
        rw [h.indexPosition_le_iff hb']
        simp
      simp [writeIDFromFile, hend, h.block_split hb', hpost b mem_cons_self, cutRun, headID]
  | vs :: rest, pre, prev, w, fuel + 1, hb, hrt, hcut, hfuel => by
    have hbs : d.blocks = pre ++ ⟨id, C.bytes vs⟩ :: (encodeRun C id rest ++ post) := hb
    have hbs' : d.blocks = (pre ++ [⟨id, C.bytes vs⟩]) ++ (encodeRun C id rest ++ post) := by
      rw [hbs]
      simp
    have hpos : ¬ d.indexPosition ≤ positionAfter pre := by
      rw [h.indexPosition_le_iff hbs]
      simp
    have hdec := (hrt vs mem_cons_self).decode
    rw [← singleton_append, cutRun_append] at hcut
    obtain ⟨vss₁, vss₂, rot, hsplit, heq, h1, h2⟩ := writeIDFromFile_spec h hpost rest
      (pre ++ [(⟨id, C.bytes vs⟩ : Block)]) (cutRun max prev [vs]).2
      (w.writeBlocks (encodeRun C id (cutRun max prev [vs]).1)) fuel hbs'
      (forall_mem_cons.mp hrt).2
      (forall_mem_append.mp hcut).2 (by simpa using hfuel)
    -- what the recursive calls return
    have hgo : writeIDFromFile C maxFileSize max count id d fuel (cutRun max prev [vs]).2
        (positionAfter (pre ++ [(⟨id, C.bytes vs⟩ : Block)]))
        (w.writeBlocks (encodeRun C id (cutRun max prev [vs]).1)) =
        some ((cutRun max prev ([vs] ++ vss₁)).2, rot,
          positionAfter (pre ++ encodeRun C id ([vs] ++ vss₁)),
          headID (encodeRun C id vss₂ ++ post),
          w.writeBlocks (encodeRun C id (cutRun max prev ([vs] ++ vss₁)).1)) := by
      rw [heq, cutRun_append, encodeRun_append, encodeRun_append, writeBlocks_append, append_assoc]
      rfl
    have hdone := And.intro h1 (fun hrot => (h2 hrot).append)
    have hsplit : vs :: rest = [vs] ++ vss₁ ++ vss₂ := by
      rw [hsplit]
      rfl
    rw [writeIDFromFile, if_neg hpos, h.block_split hbs]
    simp only [bind_eq_bind, bind_some, ne_eq, not_true_eq_false, if_false,
      positionAfter_add_block _ id, hdec]
    by_cases hlt : max < (prev ++ vs).length
    · -- a full block is written
      have hone : cutRun max prev [vs] = ([(prev ++ vs).take max], (prev ++ vs).drop max) := by
        simp only [cutRun, if_pos hlt]
      have hfull := hcut ((prev ++ vs).take max) (mem_append_left _ (by simp [hone]))
      rw [if_pos hlt, hfull.encode_eq]
      simp only [bind_some]
      split
      · rename_i hrotate
        -- and it is the last one that goes into this file
        have hleft : (prev ++ vs).drop max ≠ [] := by
          rw [Ne, drop_eq_nil_iff]
          omega
        refine ⟨[vs], rest, true, rfl, ?_, fun h => absurd h (by simp), fun _ => ?_⟩
        · rw [hone]
          by_cases hend : encodeRun C id rest ++ post = []
          · rw [if_pos ((h.indexPosition_le_iff hbs').mpr hend), hend]
            rfl
          rw [if_neg (mt (h.indexPosition_le_iff hbs').mp hend)]
          obtain ⟨b, bs, hcons⟩ := exists_cons_of_ne_nil hend
          rw [hcons] at hbs' ⊢
          rw [h.block_split hbs']
          rfl
        · constructor <;> rw [hone]
          · exact cons_ne_nil _ _
          · exact hleft
          · exact hrotate
      · rw [hone] at hgo
        exact ⟨[vs] ++ vss₁, vss₂, rot, hsplit, hgo, hdone⟩
    · have hone : cutRun max prev [vs] = ([], prev ++ vs) := by
        simp only [cutRun, if_neg hlt]
      rw [hone] at hgo
      rw [if_neg hlt]
      exact ⟨[vs] ++ vss₁, vss₂, rot, hsplit, hgo, hdone⟩

def runOf (C : BlockCodec) (rests : List (List Block)) (id : UInt64) : List Values :=
  rests.flatMap (fun rest => decodedRun C rest id)

def blocksLeft (rests : List (List Block)) : ℕ := (rests.map List.length).sum

theorem runOf_append (xs ys : List (List Block)) (id : UInt64) :
    runOf C (xs ++ ys) id = runOf C xs id ++ runOf C ys id :=
  flatMap_append

theorem runOf_singleton (rest : List Block) (id : UInt64) :
    runOf C [rest] id = decodedRun C rest id :=
  flatMap_singleton _ _

/-- The decoded blocks `vss` of the id have been read, which leaves `rests'`. -/
structure Reads (C : BlockCodec) (id : UInt64) (rests rests' : List (List Block))
    (vss : List Values) : Prop where
  suffix : ∀ rest' ∈ rests', ∃ rest ∈ rests, rest' <:+ rest
  left : blocksLeft rests' + vss.length = blocksLeft rests
  run : runOf C rests id = vss ++ runOf C rests' id
  other : ∀ i, i ≠ id → runOf C rests' i = runOf C rests i

namespace Reads

variable {id : UInt64}

theorem refl (rests : List (List Block)) : Reads C id rests rests [] :=
  ⟨fun rest h => ⟨rest, h, suffix_rfl⟩, rfl, rfl, fun _ _ => rfl⟩

theorem append {xs xs' ys ys' : List (List Block)} {wss : List Values}
    (hx : Reads C id xs xs' vss) (hy : Reads C id ys ys' wss) (h : runOf C xs' id = [] ∨ wss = []) :
    Reads C id (xs ++ ys) (xs' ++ ys') (vss ++ wss) where
  suffix r hr := by
    rcases mem_append.mp hr with hr | hr
    · obtain ⟨r', hr', hsuf⟩ := hx.suffix r hr
      exact ⟨r', mem_append_left _ hr', hsuf⟩
    · obtain ⟨r', hr', hsuf⟩ := hy.suffix r hr
      exact ⟨r', mem_append_right _ hr', hsuf⟩
  left := by
    have hx := hx.left
    have hy := hy.left
    simp only [blocksLeft, map_append, sum_append, length_append] at hx hy ⊢
    omega
  run := by
    rw [runOf_append, runOf_append, hx.run, hy.run]
    rcases h with h | h <;> simp [h]
  other i hi := by rw [runOf_append, runOf_append, hx.other i hi, hy.other i hi]

theorem low {rests rests' : List (List Block)}
    (h : Reads C id rests rests' vss) (hlow : ∀ rest ∈ rests, ∀ b ∈ rest, id ≤ b.id) :
    ∀ rest ∈ rests', ∀ b ∈ rest, id ≤ b.id := by
  intro rest hrest b hb
  obtain ⟨r, hr, hsuf⟩ := h.suffix rest hrest
  exact hlow r hr b (hsuf.subset hb)

end Reads

/-- The source still has the blocks `rest` to read. -/
structure Source.At (C : BlockCodec) (ty : UInt64 → FieldType) (s : Source)
    (rest : List Block) : Prop where
  wellFormed : s.df.WellFormed C ty
  split : ∃ pre, s.df.blocks = pre ++ rest ∧ s.position = positionAfter pre
  currentID_eq : s.currentID = headID rest

namespace Source.At

variable {s : Source} {rest : List Block} {id : UInt64}

theorem suffix (h : s.At C ty rest) : rest <:+ s.df.blocks := by
  obtain ⟨pre, hb, -⟩ := h.split
  exact ⟨pre, hb.symm⟩

theorem encodes (h : s.At C ty rest) : ∀ b ∈ rest, b.Encodes C ty :=
  fun b hb => h.wellFormed.encodes b (h.suffix.subset hb)

section

variable (h : s.At C ty rest) (hlow : ∀ b ∈ rest, id ≤ b.id)
include h hlow

/-- When the lower ids are done, the blocks of an id come first. -/
theorem eq_run_append :
    ∃ post, rest = encodeRun C id (decodedRun C rest id) ++ post ∧ ∀ b ∈ post, b.id ≠ id := by
  obtain ⟨pre, post, hsplit, hpre, hpost⟩ :=
    DataFile.WellFormed.exists_run (h.wellFormed.sorted.sublist h.suffix.sublist) id
  obtain rfl : pre = [] := eq_nil_iff_forall_not_mem.mpr (fun b hb =>
    UInt64.not_lt.mpr (hlow b (hsplit ▸ mem_append_left _ hb)) (hpre b hb))
  rw [nil_append, (filter_eq_encodeRun_of_encodes h.encodes id).1] at hsplit
  exact ⟨post, hsplit, hpost⟩

theorem currentID_eq_iff
    (hid : id ≠ dataFileEOF) : s.currentID = id ↔ decodedRun C rest id ≠ [] := by
  rw [h.currentID_eq]
  obtain ⟨post, hrest, hpost⟩ := h.eq_run_append hlow
  constructor
  · intro hhead hnil
    rw [hnil, encodeRun_nil, nil_append] at hrest
    subst hrest
    cases rest with
    | nil => exact hid hhead.symm
    | cons b bs => exact hpost b mem_cons_self hhead
  · intro hne
    obtain ⟨vs, vss, hcons⟩ := exists_cons_of_ne_nil hne
    rw [hrest, hcons]
    rfl

end

variable (maxFileSize count) in
/-- **Reading the id from one source.** -/
theorem writeIDFromFile_spec (h : s.At C ty rest) (hlow : ∀ b ∈ rest, id ≤ b.id)
    (prev : Values) (w : Writer)
    (hcut : ∀ vs ∈ (cutRun max prev (decodedRun C rest id)).1, C.RoundTrips vs) :
    ∃ (vss₁ : List Values) (rest' : List Block) (rotateFile : Bool) (s' : Source),
      s'.At C ty rest' ∧ Reads C id [rest] [rest'] vss₁ ∧ s'.df = s.df ∧
      writeIDFromFile C maxFileSize max count id s.df (s.df.blocks.length + 1) prev
          s.position w =
        some ((cutRun max prev vss₁).2, rotateFile, s'.position, s'.currentID,
          w.writeBlocks (encodeRun C id (cutRun max prev vss₁).1)) ∧
      (rotateFile = false → runOf C [rest'] id = []) ∧
      (rotateFile = true → Fills C maxFileSize max count id prev w vss₁) := by
  obtain ⟨pre, hb, hpos⟩ := h.split
  obtain ⟨post, hrest, hpost⟩ := h.eq_run_append hlow
  have hrt : ∀ vs ∈ decodedRun C rest id, C.RoundTrips vs := fun vs hvs =>
    ((filter_eq_encodeRun_of_encodes h.encodes id).2 vs hvs).1
  have hlen : (decodedRun C rest id).length < s.df.blocks.length + 1 := by
    have h1 := congrArg List.length hrest
    have h2 := h.suffix.length_le
    simp only [length_append, encodeRun, length_map] at h1
    omega
  obtain ⟨vss₁, vss₂, rot, hsplit, heq, h1, h2⟩ := Tsm1.writeIDFromFile_spec h.wellFormed
    hpost (decodedRun C rest id) pre prev w (s.df.blocks.length + 1) (hrest ▸ hb) hrt hcut hlen
  have hdec : decodedRun C (encodeRun C id vss₂ ++ post) id = vss₂ := by
    rw [decodedRun_append, decodedRun_eq_nil.mpr hpost, append_nil]
    exact decodedRun_encodeRun
      (fun vs hvs => hrt vs (by rw [hsplit]; exact mem_append_right _ hvs))
  have hrest' : rest = encodeRun C id vss₁ ++ (encodeRun C id vss₂ ++ post) := by
    rw [← append_assoc, ← encodeRun_append, ← hsplit]
    exact hrest
  refine ⟨vss₁, encodeRun C id vss₂ ++ post, rot,
    ⟨s.df, positionAfter (pre ++ encodeRun C id vss₁), headID (encodeRun C id vss₂ ++ post)⟩,
    ⟨h.wellFormed, ⟨pre ++ encodeRun C id vss₁, ?_, rfl⟩, rfl⟩, ⟨?_, ?_, ?_, ?_⟩,
    rfl, hpos ▸ heq, ?_, h2⟩
  · rw [hb, hrest', append_assoc]
  · simp only [mem_singleton, forall_eq, exists_eq_left]
    exact ⟨_, hrest'.symm⟩
  · have := congrArg List.length hrest'
    simp only [blocksLeft, map_singleton, sum_singleton, length_append, encodeRun,
      length_map] at this ⊢
    omega
  · rw [runOf_singleton, runOf_singleton, hdec]
    exact hsplit
  · intro i hi
    have hother : decodedRun C (encodeRun C id vss₁) i = [] :=
      decodedRun_eq_nil.mpr (fun b hb => by rw [id_of_mem_encodeRun hb]; exact Ne.symm hi)
    rw [runOf_singleton, runOf_singleton, hrest', decodedRun_append, decodedRun_append, hother,
      nil_append, decodedRun_append]
  · intro hrot
    rw [runOf_singleton, hdec]
    exact h1 hrot

end Source.At

variable (maxFileSize count) in
/-- **Reading the id from all the sources** that have it, up to the first one
that fills the output. -/
theorem writeIDFromSources_spec (hid : id ≠ dataFileEOF) :
    ∀ {ss : List Source} {rests : List (List Block)} (prev : Values) (w : Writer),
      List.Forall₂ (Source.At C ty) ss rests → (∀ rest ∈ rests, ∀ b ∈ rest, id ≤ b.id) →
      (∀ vs ∈ (cutRun max prev (runOf C rests id)).1, C.RoundTrips vs) →
      ∃ ss' rests' vss₁ rotateFile, List.Forall₂ (Source.At C ty) ss' rests' ∧
        Reads C id rests rests' vss₁ ∧
        writeIDFromSources C maxFileSize max count id ss prev w =
          some (ss', (cutRun max prev vss₁).2, rotateFile,
            w.writeBlocks (encodeRun C id (cutRun max prev vss₁).1)) ∧
        (rotateFile = false → runOf C rests' id = []) ∧
        (rotateFile = true → Fills C maxFileSize max count id prev w vss₁)
  | [], _, prev, w, .nil, _, _ =>
    ⟨[], [], [], false, .nil, .refl [], rfl, fun _ => rfl, fun h => absurd h (by simp)⟩
  | s :: ss, rest :: rests, prev, w, .cons hs hss, hlow, hcut => by
    have hlow₁ := hlow rest mem_cons_self
    have hlow₂ := fun r hr => hlow r (mem_cons_of_mem _ hr)
    rw [← singleton_append, runOf_append, runOf_singleton] at hcut
    rw [writeIDFromSources]
    by_cases hcur : s.currentID = id
    · rw [if_neg (not_not.mpr hcur)]
      rw [cutRun_append] at hcut
      obtain ⟨vss₁, rest', rot, s', hat, hreads, hdf, heq, h1, h2⟩ :=
        hs.writeIDFromFile_spec maxFileSize count hlow₁ prev w
          (forall_mem_append.mp hcut).1
      have hs' : (⟨s.df, s'.position, s'.currentID⟩ : Source) = s' := by rw [← hdf]
      rw [heq]
      simp only [bind_eq_bind, bind_some, hs']
      cases rot with
      | true =>
        refine ⟨s' :: ss, rest' :: rests, vss₁, true, .cons hat hss, ?_, rfl,
          fun h => absurd h (by simp), h2⟩
        simpa using hreads.append (.refl rests) (.inr rfl)
      | false =>
        have hrun := hreads.run
        rw [h1 rfl, append_nil, runOf_singleton] at hrun
        rw [hrun] at hcut
        obtain ⟨ss', rests', vss₂, rot', hss', hreads', heq', h1', h2'⟩ :=
          writeIDFromSources_spec hid (cutRun max prev vss₁).2
            (w.writeBlocks (encodeRun C id (cutRun max prev vss₁).1)) hss hlow₂
            (forall_mem_append.mp hcut).2
        refine ⟨s' :: ss', rest' :: rests', vss₁ ++ vss₂, rot', .cons hat hss',
          hreads.append hreads' (.inl (h1 rfl)), ?_, ?_, fun hrot => (h2' hrot).append⟩
        · simp only [Bool.false_eq_true, if_false, heq', bind_some, cutRun_append]
          rw [encodeRun_append, writeBlocks_append]
          rfl
        · intro hrot
          rw [← singleton_append, runOf_append, h1 rfl, h1' hrot, append_nil]
    · rw [if_pos hcur]
      have hnil : runOf C [rest] id = [] := by
        by_contra hne
        rw [runOf_singleton] at hne
        exact hcur ((hs.currentID_eq_iff hlow₁ hid).mpr hne)
      rw [← runOf_singleton, hnil, nil_append] at hcut
      obtain ⟨ss', rests', vss₁, rot, hss', hreads, heq, h1, h2⟩ :=
        writeIDFromSources_spec hid prev w hss hlow₂ hcut
      refine ⟨s :: ss', rest :: rests', vss₁, rot, .cons hs hss',
        (Reads.refl [rest]).append hreads (.inl hnil), ?_, fun hrot => ?_, h2⟩
      · rw [heq]
        rfl
      · rw [← singleton_append, runOf_append, hnil, h1 hrot, append_nil]

end Source

/-! ## The job -/

def dataOf (bs : List Block) (id : UInt64) : List Bytes :=
  (bs.filter (fun b => b.id == id)).map Block.data

@[simp] theorem dataOf_nil (id : UInt64) : dataOf [] id = [] := rfl

@[simp] theorem dataOf_append (xs ys : List Block) (id : UInt64) :
    dataOf (xs ++ ys) id = dataOf xs id ++ dataOf ys id := by
  simp [dataOf]

theorem dataOf_eq_nil {bs : List Block} (h : ∀ b ∈ bs, b.id ≠ id) : dataOf bs id = [] := by
  simpa [dataOf, filter_eq_nil_iff] using h

theorem dataOf_encodeRun (id : UInt64) (vss : List Values) :
    dataOf (encodeRun C id vss) id = vss.map C.bytes := by
  induction vss with
  | nil => rfl
  | cons vs vss ih =>
    rw [encodeRun_cons, ← singleton_append, dataOf_append, ih]
    simp [dataOf]

theorem dataOf_encodeRun_of_ne {i : UInt64} (h : i ≠ id)
    (vss : List Values) : dataOf (encodeRun C id vss) i = [] :=
  dataOf_eq_nil (fun b hb => by rw [id_of_mem_encodeRun hb]; exact Ne.symm h)

theorem exists_of_forall₂_of_mem_right {α β : Type} {R : α → β → Prop} {xs : List α}
    {ys : List β} (h : List.Forall₂ R xs ys) {y : β} (hy : y ∈ ys) : ∃ x ∈ xs, R x y := by
  induction h with
  | nil => exact absurd hy not_mem_nil
  | cons hr _ ih =>
    rcases mem_cons.mp hy with rfl | hy
    · exact ⟨_, mem_cons_self, hr⟩
    · obtain ⟨x, hx, hr⟩ := ih hy
      exact ⟨x, mem_cons_of_mem _ hx, hr⟩

/-- A list of blocks in id order, with its index. -/
structure Indexed (blocks : List Block) (index : List (UInt64 × UInt32)) : Prop where
  sorted : blocks.Pairwise (fun a b => a.id ≤ b.id)
  index_eq : index = indexOf blocks

theorem Indexed.append_run {blocks : List Block} {ids : List UInt64} {starts : List UInt32}
    (h : Indexed blocks (ids.zip starts)) (hlen : ids.length = starts.length)
    (hlt : ∀ b ∈ blocks, b.id < id) {run : List Block} (hrun : ∀ b ∈ run, b.id = id)
    (hne : run ≠ []) :
    Indexed (blocks ++ run) ((ids ++ [id]).zip (starts ++ [positionAfter blocks])) where
  sorted := by
    refine pairwise_append.mpr ⟨h.sorted, ?_, ?_⟩
    · refine pairwise_of_forall_mem_list (fun a ha b hb => ?_)
      rw [hrun a ha, hrun b hb]
      exact UInt64.le_refl id
    · intro a ha b hb
      rw [hrun b hb]
      exact UInt64.le_of_lt (hlt a ha)
  index_eq := by
    rw [zip_append hlen, h.index_eq, indexOf, indexOf, indexFrom_append_run hrun hne]
    · rfl
    · intro b hb he
      have := hlt b hb
      rw [he] at this
      exact UInt64.lt_irrefl _ this
    · simp

namespace CompactionJob

def written (c : CompactionJob) (id : UInt64) : List Bytes :=
  c.newFiles.flatMap (fun d => d.dataFor id) ++
    dataOf ((c.currentFile.map Writer.blocks).getD []) id

section Job

variable (C : BlockCodec) (ty : UInt64 → FieldType) (max : ℕ) (orig : UInt64 → List Values)

/-- Either nothing of the id has been touched, or all of it is written. -/
def Settled (c : CompactionJob) (rests : List (List Block)) (id : UInt64) : Prop :=
  (runOf C rests id = orig id ∧ c.written id = []) ∨
    (runOf C rests id = [] ∧ c.written id = (cuts max (orig id)).map C.bytes)

/-- The part of the invariant that every step keeps: `rests` are the blocks
still to be read, and every file, the open one included, is indexed. -/
structure Sound (c : CompactionJob) (w : Writer) (rests : List (List Block)) : Prop where
  max_eq : c.maxPointsPerBlock = max
  sources : List.Forall₂ (Source.At C ty) c.sources rests
  currentFile : c.currentFile = some w
  aligned : w.Aligned
  length_eq : c.idsInCurrentFile.length = c.startingPositions.length
  indexed : Indexed w.blocks (c.idsInCurrentFile.zip c.startingPositions)
  newFiles : ∀ d ∈ c.newFiles, Indexed d.blocks d.index

structure Between (c : CompactionJob) (w : Writer) (rests : List (List Block)) : Prop
    extends Sound C ty max c w rests where
  leftover : c.leftoverValues = []
  above : ∀ rest ∈ rests, ∀ b ∈ rest, ∀ x ∈ w.blocks, x.id < b.id
  settled : ∀ i, Settled C max orig c rests i

/-- In the middle of the id: its input blocks `vss₀` have been read and cut. -/
structure Amid (id : UInt64) (c : CompactionJob) (w : Writer) (rests : List (List Block))
    (vss₀ : List Values) : Prop extends Sound C ty max c w rests where
  below : ∀ b ∈ w.blocks, b.id < id
  low : ∀ rest ∈ rests, ∀ b ∈ rest, id ≤ b.id
  read : orig id = vss₀ ++ runOf C rests id
  leftover : c.leftoverValues = (cutRun max [] vss₀).2
  written_eq : c.written id = (cutRun max [] vss₀).1.map C.bytes
  progress : c.leftoverValues ≠ [] ∨ runOf C rests id ≠ []
  settled : ∀ i, i ≠ id → Settled C max orig c rests i

variable {C ty max orig}

variable {rests : List (List Block)} {c : CompactionJob} {w : Writer} {vss₀ : List Values}

theorem Sound.roundTrips (h : Sound C ty max c w rests) (id : UInt64) :
    ∀ vs ∈ runOf C rests id, C.RoundTrips vs := by
  intro vs hvs
  obtain ⟨rest, hrest, hvs⟩ := mem_flatMap.mp hvs
  obtain ⟨s, -, hs⟩ := exists_of_forall₂_of_mem_right h.sources hrest
  exact ((filter_eq_encodeRun_of_encodes hs.encodes id).2 vs hvs).1

/-- What the id's remaining input adds to the blocks written so far. -/
theorem Amid.cuts_eq {id : UInt64} (h : Amid C ty max orig id c w rests vss₀) :
    cuts max (orig id) = (cutRun max [] vss₀).1 ++
      ((cutRun max c.leftoverValues (runOf C rests id)).1 ++
        lastBlock (cutRun max c.leftoverValues (runOf C rests id)).2) := by
  rw [cuts, h.read, cutRun_append, h.leftover, append_assoc]

/-- The job once the id has been read up to `sources`, with `values` at hand
and the open file grown to `w`. -/
def afterRead (c : CompactionJob) (id : UInt64) (start : UInt32) (sources : List Source)
    (values : Values) (w : Writer) : CompactionJob :=
  { c with
    idsInCurrentFile := c.idsInCurrentFile ++ [id]
    startingPositions := c.startingPositions ++ [start]
    sources := sources
    leftoverValues := values
    currentFile := some w }

/-- A settled id stays so as long as only another id is read and written. -/
theorem Settled.of_eq {c' : CompactionJob} {rests' : List (List Block)} {i : UInt64}
    (h : Settled C max orig c rests i) (hrun : runOf C rests' i = runOf C rests i)
    (hwritten : c'.written i = c.written i) : Settled C max orig c' rests' i := by
  rw [Settled, hrun, hwritten]
  exact h

theorem written_afterRead {id : UInt64} {start : UInt32} {ss : List Source} {vs : Values}
    (h : c.currentFile = some w) (bs : List Block) (i : UInt64) :
    (c.afterRead id start ss vs (w.writeBlocks bs)).written i = c.written i ++ dataOf bs i := by
  simp [written, afterRead, h]

theorem written_rotate (c : CompactionJob) (i : UInt64) :
    c.writeOutCurrentFile.newCurrentFile.written i = c.written i := by
  cases hw : c.currentFile <;>
    simp [written, writeOutCurrentFile, newCurrentFile, hw, Writer.new, DataFile.dataFor, dataOf]

namespace Amid

variable {id : UInt64} {ss : List Source} {rests' : List (List Block)}

section

variable (h : Amid C ty max orig id c w rests vss₀)
include h

variable {outs vss₁ : List Values}

theorem indexed_append (hne : outs ≠ []) : Indexed (w.writeBlocks (encodeRun C id outs)).blocks
      ((c.idsInCurrentFile ++ [id]).zip (c.startingPositions ++ [w.currentPosition])) := by
  have hpos : w.currentPosition = positionAfter w.blocks := h.aligned
  rw [blocks_writeBlocks, hpos]
  exact h.indexed.append_run h.length_eq h.below (fun b => id_of_mem_encodeRun)
    (mt encodeRun_eq_nil.mp hne)

section

variable (hss : List.Forall₂ (Source.At C ty) ss rests') (hreads : Reads C id rests rests' vss₁)
include hss hreads

/-- A rotation in the middle of an id. -/
theorem rotate (hout : (cutRun max c.leftoverValues vss₁).1 ≠ [])
    (hleft : (cutRun max c.leftoverValues vss₁).2 ≠ []) :
    Amid C ty max orig id (c.afterRead id w.currentPosition ss (cutRun max c.leftoverValues vss₁).2
        (w.writeBlocks (encodeRun C id
          (cutRun max c.leftoverValues vss₁).1))).writeOutCurrentFile.newCurrentFile
      Writer.new rests' (vss₀ ++ vss₁) := by
  refine ⟨⟨h.max_eq, hss, rfl, aligned_new, rfl, ⟨List.Pairwise.nil, rfl⟩, ?_⟩,
    fun b hb => absurd hb not_mem_nil, hreads.low h.low, ?_, ?_, ?_, .inl hleft,
    fun i hi => (h.settled i hi).of_eq (hreads.other i hi) ?_⟩
  · exact forall_mem_append.mpr ⟨h.newFiles, forall_mem_singleton.mpr (h.indexed_append hout)⟩
  · rw [h.read, hreads.run, append_assoc]
  · rw [cutRun_append, ← h.leftover]
    rfl
  · rw [written_rotate, written_afterRead h.currentFile, h.written_eq, dataOf_encodeRun,
      cutRun_append, ← h.leftover, map_append]
  · rw [written_rotate, written_afterRead h.currentFile, dataOf_encodeRun_of_ne hi, append_nil]

theorem finish (hnil : runOf C rests' id = [])
    (houts : cuts max (orig id) = (cutRun max [] vss₀).1 ++ outs) (hne : outs ≠ []) :
    Between C ty max orig
      (c.afterRead id w.currentPosition ss [] (w.writeBlocks (encodeRun C id outs)))
      (w.writeBlocks (encodeRun C id outs)) rests' := by
  refine ⟨⟨h.max_eq, hss, rfl, h.aligned.writeBlocks _, ?_, h.indexed_append hne, h.newFiles⟩,
    rfl, ?_, fun i => ?_⟩
  · simp [afterRead, h.length_eq]
  · intro rest hrest b hb x hx
    -- the ids that are left are above the one just written
    have hgt : id < b.id := by
      refine UInt64.lt_of_le_of_ne (hreads.low h.low rest hrest b hb) (fun he => ?_)
      rw [runOf, flatMap_eq_nil_iff] at hnil
      exact decodedRun_eq_nil.mp (hnil rest hrest) b hb he.symm
    rw [blocks_writeBlocks] at hx
    rcases mem_append.mp hx with hx | hx
    · exact UInt64.lt_trans (h.below x hx) hgt
    · rw [id_of_mem_encodeRun hx]
      exact hgt
  · by_cases hi : i = id
    · subst hi
      refine .inr ⟨hnil, ?_⟩
      rw [written_afterRead h.currentFile, h.written_eq, dataOf_encodeRun, houts, map_append]
    · refine (h.settled i hi).of_eq (hreads.other i hi) ?_
      rw [written_afterRead h.currentFile, dataOf_encodeRun_of_ne hi, append_nil]

end

theorem outs_ne_nil : (cutRun max c.leftoverValues (runOf C rests id)).1 ++
      lastBlock (cutRun max c.leftoverValues (runOf C rests id)).2 ≠ [] := by
  have hread : c.leftoverValues ≠ [] ∨ ∃ vs ∈ runOf C rests id, vs ≠ [] := by
    refine h.progress.imp_right (fun hne => ?_)
    obtain ⟨vs, hmem⟩ := exists_mem_of_ne_nil _ hne
    exact ⟨vs, hmem, (h.roundTrips id vs hmem).ne_nil⟩
  rcases cutRun_ne_nil hread with hne | hne
  · exact append_ne_nil_of_left_ne_nil hne _
  · exact append_ne_nil_of_right_ne_nil _ (by simp [lastBlock, hne])

end

/-- **`writeBlocksForID`, in the middle of an id.** Either the id is finished,
or the file is full, the id resumes in a new one, and at least one input block
has been read. -/
theorem writeBlocksForID_spec (hid : id ≠ dataFileEOF)
    (hcut : ∀ vs ∈ cuts max (orig id), C.RoundTrips vs) (h : Amid C ty max orig id c w rests vss₀) :
    ∃ more c', c.writeBlocksForID C id = some (more, c') ∧ (more = true → ∃ rests' vss₀',
        Amid C ty max orig id c'.newCurrentFile Writer.new rests' vss₀' ∧
        blocksLeft rests' < blocksLeft rests ∧
        ∃ outs, outs ≠ [] ∧ outs <+: (cutRun max c.leftoverValues (runOf C rests id)).1 ∧
          shouldRotateCurrentFile c.maxFileSize (c.idsInCurrentFile.length + 1)
            (w.writeBlocks (encodeRun C id outs)) = true) ∧
      (more = false → ∃ ss rests' outs,
        c' = c.afterRead id w.currentPosition ss [] (w.writeBlocks (encodeRun C id outs)) ∧
        cuts max (orig id) = (cutRun max [] vss₀).1 ++ outs ∧ runOf C rests' id = [] ∧
        Reads C id rests rests' (runOf C rests id) ∧
        Between C ty max orig c' (w.writeBlocks (encodeRun C id outs)) rests') := by
  obtain rfl := h.max_eq
  have hcuts := h.cuts_eq
  rw [hcuts] at hcut
  obtain ⟨ss', rests', vss₁, rot, hss', hreads, heq, h1, h2⟩ :=
    writeIDFromSources_spec c.maxFileSize (c.idsInCurrentFile ++ [id]).length hid
      c.leftoverValues w h.sources h.low
      (fun vs hvs => hcut vs (mem_append_right _ (mem_append_left _ hvs)))
  cases rot with
  | true =>
    obtain ⟨hout, hleft, hrotate⟩ := h2 rfl
    refine ⟨true, _, ?_, fun _ => ⟨rests', vss₀ ++ vss₁, h.rotate hss' hreads hout hleft, ?_,
      _, hout, ?_, ?_⟩, fun h => absurd h (by simp)⟩
    · simp only [writeBlocksForID, h.currentFile, bind_eq_bind, bind_some, heq, if_true]
      rfl
    · have : vss₁ ≠ [] := by
        rintro rfl
        exact hout rfl
      have := length_pos_of_ne_nil this
      have := hreads.left
      omega
    · rw [hreads.run, cutRun_append]
      exact prefix_append _ _
    · rw [length_append] at hrotate
      exact hrotate
  | false =>
    have hvss₁ : vss₁ = runOf C rests id := by
      rw [hreads.run, h1 rfl, append_nil]
    subst hvss₁
    refine ⟨false, _, ?_, fun h => absurd h (by simp), fun _ => ⟨ss', rests', _, rfl, hcuts,
      h1 rfl, hreads, h.finish hss' hreads (h1 rfl) hcuts h.outs_ne_nil⟩⟩
    simp only [writeBlocksForID, h.currentFile, bind_eq_bind,
      bind_some, heq, Bool.false_eq_true, if_false]
    split
    · rename_i hempty
      simp [afterRead, lastBlock, hempty]
    rename_i hempty
    have hlast := hcut _ (mem_append_right _ (mem_append_right _
      (by rw [lastBlock, if_neg hempty]; exact mem_singleton_self _)))
    rw [hlast.encode_eq, encodeRun_append, writeBlocks_append]
    simp [afterRead, lastBlock, hempty, encodeRun, Writer.writeBlocks]

/-- **All of one id**, over as many files as it takes. -/
theorem writeID_spec (hid : id ≠ dataFileEOF) (hcut : ∀ vs ∈ cuts max (orig id), C.RoundTrips vs) :
    ∀ {fuel : ℕ} {c : CompactionJob} {w : Writer} {rests : List (List Block)}
      {vss₀ : List Values}, Amid C ty max orig id c w rests vss₀ → blocksLeft rests < fuel →
      ∃ c' w' rests', c.writeID C id fuel = some c' ∧ Between C ty max orig c' w' rests' ∧
        blocksLeft rests' ≤ blocksLeft rests ∧
        (runOf C rests id ≠ [] → blocksLeft rests' < blocksLeft rests)
  | fuel + 1, c, w, rests, vss₀, h, hfuel => by
    obtain ⟨more, c', heq, hmore, hdone⟩ := h.writeBlocksForID_spec hid hcut
    simp only [writeID, heq, bind_eq_bind, bind_some]
    cases more with
    | true =>
      obtain ⟨rests', vss₀', hamid, hlt, -⟩ := hmore rfl
      obtain ⟨c'', w'', rests'', hrun, hbetween, hle, -⟩ :=
        writeID_spec hid hcut hamid (show blocksLeft rests' < fuel by omega)
      exact ⟨c'', w'', rests'', hrun, hbetween, by omega, fun _ => by omega⟩
    | false =>
      obtain ⟨ss, rests', outs, -, -, -, hreads, hbetween⟩ := hdone rfl
      have hleft := hreads.left
      refine ⟨c', _, rests', rfl, hbetween, by omega, fun hne => ?_⟩
      have := length_pos_of_ne_nil hne
      omega

end Amid

theorem foldl_min_spec : ∀ (ids : List UInt64) (m : UInt64),
    let r := ids.foldl (fun minID id => if minID > id then id else minID) m
    r ≤ m ∧ (∀ i ∈ ids, r ≤ i) ∧ (r = m ∨ r ∈ ids)
  | [], m => ⟨UInt64.le_refl m, fun i hi => absurd hi not_mem_nil, .inl rfl⟩
  | id :: ids, m => by
    obtain ⟨h1, h2, h3⟩ := foldl_min_spec ids (if m > id then id else m)
    have hm : (if m > id then id else m) ≤ m ∧ (if m > id then id else m) ≤ id := by
      split
      · exact ⟨UInt64.le_of_lt ‹_›, UInt64.le_refl _⟩
      · exact ⟨UInt64.le_refl _, UInt64.not_lt.mp ‹_›⟩
    refine ⟨UInt64.le_trans h1 hm.1, forall_mem_cons.mpr ⟨UInt64.le_trans h1 hm.2, h2⟩, ?_⟩
    rw [foldl_cons]
    rcases h3 with h3 | h3
    · rw [h3]
      split
      · exact .inr mem_cons_self
      · exact .inl rfl
    · exact .inr (mem_cons_of_mem _ h3)

theorem Sound.nextID_le (h : Sound C ty max c w rests) : ∀ rest ∈ rests, ∀ b ∈ rest, c.nextID ≤ b.id := by
  intro rest hrest b hb
  obtain ⟨s, hs, hat⟩ := exists_of_forall₂_of_mem_right h.sources hrest
  have hle := (foldl_min_spec (c.sources.map Source.currentID) dataFileEOF).2.1 s.currentID
    (mem_map_of_mem hs)
  have hsorted := hat.wellFormed.sorted.sublist hat.suffix.sublist
  rw [hat.currentID_eq] at hle
  cases rest with
  | nil => exact absurd hb not_mem_nil
  | cons b₀ bs =>
    rcases mem_cons.mp hb with rfl | hb
    · exact hle
    · exact UInt64.le_trans hle ((pairwise_cons.mp hsorted).1 b hb)

/-- `nextID` is the id of a block still to be read, unless there is none. -/
theorem Sound.exists_nextID (h : Sound C ty max c w rests) (hne : c.nextID ≠ dataFileEOF) :
    ∃ rest ∈ rests, ∃ b ∈ rest, b.id = c.nextID := by
  have hmem : c.nextID ∈ c.sources.map Source.currentID :=
    (foldl_min_spec (c.sources.map Source.currentID) dataFileEOF).2.2.resolve_left hne
  obtain ⟨s, hs, hid⟩ := mem_map.mp hmem
  obtain ⟨rest, hrest, hat⟩ := exists_of_forall₂_of_mem_right h.sources.flip hs
  rw [hat.currentID_eq] at hid
  cases rest with
  | nil => exact absurd hid.symm hne
  | cons b bs => exact ⟨_, hrest, b, mem_cons_self, hid⟩

theorem runOf_ne_nil {rest : List Block} (hrest : rest ∈ rests) {b : Block} (hb : b ∈ rest) : runOf C rests b.id ≠ [] := by
  intro hnil
  rw [runOf, flatMap_eq_nil_iff] at hnil
  exact decodedRun_eq_nil.mp (hnil rest hrest) b hb rfl

theorem Between.start (h : Between C ty max orig c w rests) (hne : c.nextID ≠ dataFileEOF) :
    Amid C ty max orig c.nextID c w rests [] ∧ runOf C rests c.nextID ≠ [] := by
  obtain ⟨rest, hrest, b, hb, hid⟩ := h.exists_nextID hne
  have hrun : runOf C rests c.nextID ≠ [] := hid ▸ runOf_ne_nil hrest hb
  obtain ⟨horig, hwritten⟩ := (h.settled c.nextID).resolve_right (fun hr => hrun hr.1)
  refine ⟨⟨h.toSound, ?_, h.nextID_le, horig.symm, h.leftover, hwritten, .inr hrun,
    fun i _ => h.settled i⟩, hrun⟩
  intro x hx
  rw [← hid]
  exact h.above rest hrest b hb x hx

/-- When there is no next id, everything is written. -/
theorem Between.written_of_eof (h : Between C ty max orig c w rests) (heof : c.nextID = dataFileEOF)
    (i : UInt64) : c.written i = (cuts max (orig i)).map C.bytes := by
  have hnil : runOf C rests i = [] := by
    rw [runOf, flatMap_eq_nil_iff]
    intro rest hrest
    obtain ⟨s, -, hat⟩ := exists_of_forall₂_of_mem_right h.sources hrest
    refine decodedRun_eq_nil.mpr (fun b hb => ?_)
    have hle := h.nextID_le rest hrest b hb
    have hne := (hat.wellFormed.id_ne b (hat.suffix.subset hb)).2
    rw [heof] at hle
    have hge : b.id ≤ dataFileEOF := UInt64.le_iff_toNat_le.mpr (Nat.le_of_lt_succ b.id.toNat_lt)
    exact absurd (UInt64.le_antisymm hge hle) hne
  rcases h.settled i with ⟨hrun, hwritten⟩ | ⟨-, hwritten⟩
  · rw [hwritten, ← hrun, hnil]
    rfl
  · exact hwritten

/-- **The whole job.** -/
theorem Between.run_spec (hmax : 1 ≤ max)
    (hcut : ∀ id, ∀ vs ∈ cuts max (orig id), C.RoundTrips vs) {blocks : ℕ} :
    ∀ {fuel : ℕ} {c : CompactionJob} {w : Writer} {rests : List (List Block)},
      Between C ty max orig c w rests → blocksLeft rests < fuel → blocksLeft rests ≤ blocks →
      ∃ c' w' rests', c.run C blocks fuel = some c' ∧ Sound C ty max c' w' rests' ∧
        ∀ i, c'.written i = (cuts max (orig i)).map C.bytes
  | fuel + 1, c, w, rests, h, hfuel, hblocks => by
    by_cases heof : c.nextID = dataFileEOF
    · refine ⟨c, w, rests, ?_, h.toSound, h.written_of_eof heof⟩
      rw [run, if_pos heof]
    obtain ⟨hamid, hne⟩ := h.start heof
    obtain ⟨c', w', rests', heq, hbetween, -, hlt⟩ :=
      hamid.writeID_spec heof (hcut c.nextID) (show blocksLeft rests < blocks + 1 by omega)
    have hlt := hlt hne
    obtain ⟨c'', w'', rests'', hrun, hsound, hwritten⟩ := Between.run_spec hmax hcut hbetween
        (show blocksLeft rests' < fuel by omega) (show blocksLeft rests' ≤ blocks by omega)
    refine ⟨c'', w'', rests'', ?_, hsound, hwritten⟩
    rw [run, if_neg heof, heq]
    exact hrun

end Job

end CompactionJob

/-! ## The new files -/

def concatValuesFor (C : BlockCodec) (files : List DataFile) (id : UInt64) : Option Values :=
  C.decodeAll (files.flatMap (fun d => d.dataFor id))

def inputBlocks (C : BlockCodec) (files : List DataFile) (id : UInt64) : List Values :=
  files.flatMap (fun d => d.decodedBlocks C id)

section Compact

variable {C : BlockCodec} {ty : UInt64 → FieldType} {max : ℕ}

theorem newSources_spec : ∀ {files : List DataFile},
    (∀ d ∈ files, d.WellFormed C ty ∧ d.blocks ≠ []) →
    ∃ ss, files.mapM (fun df => do
        let id ← df.idForPosition (UInt32.ofNat fileHeaderSize)
        return (⟨df, UInt32.ofNat fileHeaderSize, id⟩ : Source)) = some ss ∧
      List.Forall₂ (Source.At C ty) ss (files.map DataFile.blocks)
  | [], _ => ⟨[], rfl, .nil⟩
  | d :: files, h => by
    obtain ⟨hd, hne⟩ := h d mem_cons_self
    obtain ⟨ss, hss, hat⟩ := newSources_spec (forall_mem_cons.mp h).2
    obtain ⟨b, bs, hb⟩ := exists_cons_of_ne_nil hne
    have hid : d.idForPosition (UInt32.ofNat fileHeaderSize) = some b.id := by
      have hrec := hd.recordAt_split (show d.blocks = [] ++ b :: bs from hb)
      exact congrArg (Option.map Block.id) hrec
    refine ⟨⟨d, UInt32.ofNat fileHeaderSize, b.id⟩ :: ss, ?_, .cons ⟨hd, ⟨[], rfl, rfl⟩, ?_⟩ hat⟩
    · rw [mapM_cons, hss, hid]
      rfl
    · rw [hb]
      rfl

variable {files : List DataFile}

theorem between_new {ss : List Source}
    (hat : List.Forall₂ (Source.At C ty) ss (files.map DataFile.blocks)) {maxFileSize : UInt32}
    {minTime maxTime : Int64} : CompactionJob.Between C ty max (inputBlocks C files)
      (CompactionJob.newCurrentFile ⟨ss, [], [], [], none, [], maxFileSize, max, minTime, maxTime⟩)
      Writer.new (files.map DataFile.blocks) := by
  have hrun : ∀ id, runOf C (files.map DataFile.blocks) id = inputBlocks C files id := by
    intro id
    rw [runOf, flatMap_map]
    rfl
  exact ⟨⟨rfl, hat, rfl, aligned_new, rfl, ⟨List.Pairwise.nil, rfl⟩,
    fun d hd => absurd hd not_mem_nil⟩, rfl,
    fun _ _ _ _ x hx => absurd hx not_mem_nil, fun i => .inl ⟨hrun i, rfl⟩⟩

theorem blocksLeft_map_blocks (files : List DataFile) :
    blocksLeft (files.map DataFile.blocks) = (files.map (fun df => df.blocks.length)).sum := by
  rw [blocksLeft, map_map]
  rfl

/-- **The new files.** Over all of them, the blocks of an id are the encoding
of the cuts of its input, and each file is in id order and indexed. -/
theorem compactToNewFiles_eq (hmax : 1 ≤ max)
    (hfiles : ∀ d ∈ files, d.WellFormed C ty ∧ d.blocks ≠ [])
    (hcut : ∀ id, ∀ vs ∈ cuts max (inputBlocks C files id), C.RoundTrips vs) (maxFileSize : UInt32)
    (minTime maxTime : Int64) :
    ∃ newFiles, compactToNewFiles C maxFileSize max minTime maxTime files = some newFiles ∧
      (∀ id, newFiles.flatMap (fun d => d.dataFor id) =
        (cuts max (inputBlocks C files id)).map C.bytes) ∧
      ∀ d ∈ newFiles, Indexed d.blocks d.index := by
  obtain ⟨ss, hss, hat⟩ := newSources_spec hfiles
  obtain ⟨c, w, rests, hjob, hsound, hwritten⟩ :=
    CompactionJob.Between.run_spec hmax hcut (between_new hat) (Nat.lt_succ_self _) (le_refl _)
  rw [blocksLeft_map_blocks] at hjob
  refine ⟨c.writeOutCurrentFile.newFiles, ?_, ?_, ?_⟩
  · rw [compactToNewFiles, CompactionJob.new, hss]
    simp only [bind_eq_bind, Option.pure_def, bind_some]
    rw [hjob]
    rfl
  · intro id
    rw [← hwritten id]
    simp [CompactionJob.written, CompactionJob.writeOutCurrentFile, hsound.currentFile,
      DataFile.dataFor, dataOf]
  · simp only [CompactionJob.writeOutCurrentFile, hsound.currentFile]
    exact forall_mem_append.mpr ⟨hsound.newFiles, forall_mem_singleton.mpr hsound.indexed⟩

theorem ofType_cuts (hfiles : ∀ d ∈ files, d.WellFormed C ty) (id : UInt64) : ∀ vs ∈ cuts max (inputBlocks C files id), Values.OfType (ty id) vs := by
  intro vs hvs v hv
  have hmem : v ∈ (cuts max (inputBlocks C files id)).flatten := mem_flatten.mpr ⟨vs, hvs, hv⟩
  rw [flatten_cuts] at hmem
  obtain ⟨ws, hws, hv⟩ := mem_flatten.mp hmem
  obtain ⟨d, hd, hws⟩ := mem_flatMap.mp hws
  exact ((hfiles d hd).filter_eq_encodeRun id).2 ws hws |>.2 v hv

theorem roundTrips_cuts (hC : C.Exact) (hmax : 1 ≤ max) (hfiles : ∀ d ∈ files, d.WellFormed C ty)
    (id : UInt64) : ∀ vs ∈ cuts max (inputBlocks C files id), C.RoundTrips vs :=
  fun vs hvs => hC (ty id) vs (cuts_ne_nil hmax vs hvs) (ofType_cuts hfiles id vs hvs)

theorem concatValuesFor_eq (hfiles : ∀ d ∈ files, d.WellFormed C ty) (id : UInt64) :
    concatValuesFor C files id = some (inputBlocks C files id).flatten := by
  induction files with
  | nil => rfl
  | cons d files ih =>
    have ih' := ih (forall_mem_cons.mp hfiles).2
    rw [concatValuesFor, flatMap_cons, inputBlocks, flatMap_cons, flatten_append]
    exact BlockCodec.decodeAll_append ((hfiles d mem_cons_self).valuesFor_eq id) ih'

end Compact

example : (compactToNewFiles codec 100 2 0 11 [twoBlockFile, twoBlockFile]).map
    (List.map (fun d => (d.blocks.length, d.index))) = some [(2, [(1, 4)]), (1, [(1, 4)])] := by
  decide +kernel

end AndyEnv.Tsm1
