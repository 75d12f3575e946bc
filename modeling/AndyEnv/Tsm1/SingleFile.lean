import AndyEnv.Tsm1.Compaction
import AndyEnv.Tsm1.Rewrite

/-!
# Compactions that fit one file

When no block that fills up takes the output past `maxFileSize`, a compaction
writes exactly one file: the ids in order, each with the cuts of its input.
The condition, `FitsOneFile`, is on the input files alone.
-/

namespace AndyEnv.Tsm1

open List Plain

def compactionIDs (files : List DataFile) : List UInt64 :=
  sortIDs (files.flatMap (fun d => d.blocks.map Block.id)).dedup

def compactedRun (C : BlockCodec) (max : ℕ) (files : List DataFile) (id : UInt64) :
    List Block :=
  encodeRun C id (cuts max (inputBlocks C files id))

/-- Laid out in one file, no full block ends past `maxFileSize`, footer
included. (The last block of an id is not checked: the source looks at the
size only after a full block.) -/
def FitsOneFile (C : BlockCodec) (maxFileSize : UInt32) (max : ℕ)
    (files : List DataFile) : Prop :=
  ∀ before id after, compactionIDs files = before ++ id :: after →
    ∀ outs, outs ≠ [] → outs <+: (cutRun max [] (inputBlocks C files id)).1 →
      positionAfter (before.flatMap (compactedRun C max files) ++ encodeRun C id outs) +
        footerSize (before.length + 1) ≤ maxFileSize

variable {id : UInt64}

section Single

variable {C : BlockCodec} {ty : UInt64 → FieldType} {maxFileSize : UInt32} {max : ℕ}
  {files : List DataFile}

theorem pairwise_compactionIDs (files : List DataFile) :
    (compactionIDs files).Pairwise (· < ·) := by
  have hsort : (compactionIDs files).Pairwise (fun a b => a.toNat ≤ b.toNat) :=
    pairwise_insertionSort _ _
  have hnd : (compactionIDs files).Nodup := by
    rw [compactionIDs, (sortIDs_perm _).nodup_iff]
    exact nodup_dedup _
  refine (hsort.and hnd).imp (fun {a b} h => ?_)
  rw [UInt64.lt_iff_toNat_lt]
  exact lt_of_le_of_ne h.1 (fun he => h.2 (UInt64.toNat_inj.mp he))

theorem mem_compactionIDs_iff :
    id ∈ compactionIDs files ↔ ∃ d ∈ files, ∃ b ∈ d.blocks, b.id = id := by
  rw [compactionIDs, (sortIDs_perm _).mem_iff, mem_dedup, mem_flatMap]
  simp only [mem_map]

theorem mem_compactionIDs :
    id ∈ compactionIDs files ↔ runOf C (files.map DataFile.blocks) id ≠ [] := by
  rw [mem_compactionIDs_iff]
  constructor
  · rintro ⟨d, hd, b, hb, rfl⟩
    exact CompactionJob.runOf_ne_nil (mem_map_of_mem hd) hb
  · intro hne
    by_contra hnot
    apply hne
    rw [runOf, flatMap_eq_nil_iff]
    intro rest hrest
    obtain ⟨d, hd, rfl⟩ := mem_map.mp hrest
    exact decodedRun_eq_nil.mpr (fun b hb he => hnot ⟨d, hd, b, hb, he⟩)

namespace CompactionJob

/-- No rotation so far: the ids `before` are written to the one open file,
the ids `after` are still to be read. -/
structure Single (C : BlockCodec) (ty : UInt64 → FieldType) (maxFileSize : UInt32) (max : ℕ)
    (minTime maxTime : Int64) (files : List DataFile) (c : CompactionJob) (w : Writer)
    (rests : List (List Block)) (before after : List UInt64) : Prop
    extends Between C ty max (inputBlocks C files) c w rests where
  maxFileSize_eq : c.maxFileSize = maxFileSize
  minTime_eq : c.minTime = minTime
  maxTime_eq : c.maxTime = maxTime
  ids_eq : compactionIDs files = before ++ after
  newFiles_eq : c.newFiles = []
  idsInCurrentFile_eq : c.idsInCurrentFile = before
  blocks_eq : w.blocks = before.flatMap (compactedRun C max files)
  mem_iff : ∀ i, i ∈ after ↔ runOf C rests i ≠ []

variable {minTime maxTime : Int64}

variable {c : CompactionJob} {w : Writer} {rests : List (List Block)} {before after : List UInt64}

theorem Single.nextID_eq
    (h : Single C ty maxFileSize max minTime maxTime files c w rests before (id :: after)) :
    c.nextID = id ∧ id ≠ dataFileEOF := by
  have hsorted := pairwise_compactionIDs files
  rw [h.ids_eq] at hsorted
  have hafter := (pairwise_cons.mp (pairwise_append.mp hsorted).2.1).1
  have hrun := (h.mem_iff id).mp mem_cons_self
  -- some block of `id` is left
  obtain ⟨rest, hrest, hdec⟩ : ∃ rest ∈ rests, decodedRun C rest id ≠ [] := by
    by_contra hnot
    push Not at hnot
    exact hrun (flatMap_eq_nil_iff.mpr hnot)
  obtain ⟨b, hb, hbid⟩ : ∃ b ∈ rest, b.id = id := by
    by_contra hnot
    push Not at hnot
    exact hdec (decodedRun_eq_nil.mpr hnot)
  have hle : c.nextID ≤ id := hbid ▸ h.nextID_le rest hrest b hb
  obtain ⟨s, -, hat⟩ := exists_of_forall₂_of_mem_right h.sources hrest
  have hid : id ≠ dataFileEOF := hbid ▸ (hat.wellFormed.id_ne b (hat.suffix.subset hb)).2
  have hne : c.nextID ≠ dataFileEOF := by
    intro he
    rw [he] at hle
    have hge : id ≤ dataFileEOF := UInt64.le_iff_toNat_le.mpr (Nat.le_of_lt_succ id.toNat_lt)
    exact hid (UInt64.le_antisymm hge hle)
  obtain ⟨rest', hrest', b', hb', hid'⟩ := h.exists_nextID hne
  have hmem : c.nextID ∈ id :: after := (h.mem_iff _).mpr (hid' ▸ runOf_ne_nil hrest' hb')
  refine ⟨?_, hid⟩
  rcases mem_cons.mp hmem with heq | hmem
  · exact heq
  · exact absurd (hafter _ hmem) (UInt64.not_lt.mpr hle)

theorem Single.writeID_spec (hmax : 1 ≤ max) (hfits : FitsOneFile C maxFileSize max files)
    (hcut : ∀ id, ∀ vs ∈ cuts max (inputBlocks C files id), C.RoundTrips vs)
    (h : Single C ty maxFileSize max minTime maxTime files c w rests before (id :: after))
    (fuel : ℕ) : ∃ c' w' rests', c.writeID C id (fuel + 1) = some c' ∧
      Single C ty maxFileSize max minTime maxTime files c' w' rests' (before ++ [id]) after ∧
      blocksLeft rests' < blocksLeft rests := by
  obtain ⟨hnext, hid⟩ := h.nextID_eq
  obtain ⟨hamid, hrun⟩ := h.start (hnext ▸ hid)
  rw [hnext] at hamid hrun
  have hsorted := pairwise_compactionIDs files
  rw [h.ids_eq] at hsorted
  have hnotmem : id ∉ after := fun hmem => UInt64.lt_irrefl id
    ((pairwise_cons.mp (pairwise_append.mp hsorted).2.1).1 id hmem)
  obtain ⟨more, c', heq, hmore, hdone⟩ := hamid.writeBlocksForID_spec hid (hcut id)
  have horig : runOf C rests id = inputBlocks C files id := by
    simpa using hamid.read.symm
  cases more with
  | true =>
    obtain ⟨-, -, -, -, outs, hne, hpre, hrotate⟩ := hmore rfl
    rw [h.leftover, horig] at hpre
    have hle := hfits before id after h.ids_eq outs hne hpre
    have hpos : (w.writeBlocks (encodeRun C id outs)).currentPosition =
        positionAfter (w.writeBlocks (encodeRun C id outs)).blocks :=
      h.aligned.writeBlocks _
    rw [shouldRotateCurrentFile, decide_eq_true_eq, hpos, Writer.blocks_writeBlocks,
      h.blocks_eq, h.maxFileSize_eq, h.idsInCurrentFile_eq] at hrotate
    exact absurd hle (UInt32.not_le.mpr hrotate)
  | false =>
    obtain ⟨ss, rests', outs, rfl, hcuts, hnil, hreads, hbetween⟩ := hdone rfl
    have hleft := hreads.left
    have houts : cuts max (inputBlocks C files id) = outs := by simpa [cutRun] using hcuts
    refine ⟨_, _, rests', ?_, ⟨hbetween, h.maxFileSize_eq, h.minTime_eq, h.maxTime_eq, ?_,
      h.newFiles_eq, ?_, ?_, ?_⟩, ?_⟩
    · simp [writeID, heq]
    · rw [h.ids_eq, append_assoc]
      rfl
    · rw [← h.idsInCurrentFile_eq]
      rfl
    · rw [Writer.blocks_writeBlocks, h.blocks_eq, flatMap_append, ← houts]
      simp [compactedRun]
    · intro i
      by_cases hi : i = id
      · subst hi
        simp [hnil, hnotmem]
      · rw [hreads.other i hi, ← h.mem_iff i]
        simp [hi]
    · have := length_pos_of_ne_nil hrun
      omega

theorem Single.run_spec (hmax : 1 ≤ max) (hfits : FitsOneFile C maxFileSize max files)
    (hcut : ∀ id, ∀ vs ∈ cuts max (inputBlocks C files id), C.RoundTrips vs) {blocks : ℕ} :
    ∀ {fuel : ℕ} {c : CompactionJob} {w : Writer} {rests : List (List Block)}
      {before after : List UInt64},
      Single C ty maxFileSize max minTime maxTime files c w rests before after →
      blocksLeft rests < fuel →
      ∃ c' w' rests', c.run C blocks fuel = some c' ∧
        Single C ty maxFileSize max minTime maxTime files c' w' rests' (before ++ after) []
  | fuel + 1, c, w, rests, before, [], h, _ => by
    have heof : c.nextID = dataFileEOF := by
      by_contra hne
      obtain ⟨rest, hrest, b, hb, hid⟩ := h.exists_nextID hne
      exact absurd ((h.mem_iff _).mpr (runOf_ne_nil hrest hb)) not_mem_nil
    refine ⟨c, w, rests, ?_, ?_⟩
    · rw [run, if_pos heof]
    · rw [append_nil]
      exact h
  | fuel + 1, c, w, rests, before, id :: after, h, hfuel => by
    obtain ⟨hnext, hid⟩ := h.nextID_eq
    obtain ⟨c', w', rests', heq, h', hlt⟩ := h.writeID_spec hmax hfits hcut blocks
    obtain ⟨c'', w'', rests'', hrun, h''⟩ :=
      Single.run_spec hmax hfits hcut h' (show blocksLeft rests' < fuel by omega)
    refine ⟨c'', w'', rests'', ?_, ?_⟩
    · rw [run, if_neg (hnext ▸ hid), hnext, heq]
      exact hrun
    · rw [append_assoc] at h''
      exact h''

end CompactionJob

/-- **A compaction that fits one file writes one file**, with the cuts of
every id in id order. -/
theorem compactToNewFiles_single (hmax : 1 ≤ max)
    (hfiles : ∀ d ∈ files, d.WellFormed C ty ∧ d.blocks ≠ [])
    (hcut : ∀ id, ∀ vs ∈ cuts max (inputBlocks C files id), C.RoundTrips vs)
    (hfits : FitsOneFile C maxFileSize max files) (minTime maxTime : Int64) :
    compactToNewFiles C maxFileSize max minTime maxTime files = some
      [⟨(compactionIDs files).flatMap (compactedRun C max files),
        indexOf ((compactionIDs files).flatMap (compactedRun C max files)), minTime, maxTime⟩] := by
  obtain ⟨ss, hss, hat⟩ := newSources_spec hfiles
  have hstart : CompactionJob.Single C ty maxFileSize max minTime maxTime files
      (CompactionJob.newCurrentFile ⟨ss, [], [], [], none, [], maxFileSize, max, minTime, maxTime⟩)
      Writer.new (files.map DataFile.blocks) [] (compactionIDs files) :=
    ⟨between_new hat, rfl, rfl, rfl, rfl, rfl, rfl, rfl, fun i => mem_compactionIDs⟩
  obtain ⟨c, w, rests, hjob, h⟩ := hstart.run_spec hmax hfits hcut (Nat.lt_succ_self _)
  rw [blocksLeft_map_blocks] at hjob
  rw [compactToNewFiles, CompactionJob.new, hss]
  simp only [Option.bind_eq_bind, Option.pure_def, Option.bind_some]
  rw [hjob]
  simp only [Option.bind_some, CompactionJob.writeOutCurrentFile, h.currentFile, h.newFiles_eq,
    nil_append, h.minTime_eq, h.maxTime_eq, h.indexed.index_eq, h.blocks_eq]

end Single

/-! ## An output past four gigabytes

Two files of three gigabytes each, with one point per id. No block fills up,
so the size of the output is never checked. -/

def wideValue : Value := ⟨0, .string (List.replicate (3 * 2 ^ 29) 0)⟩

def wideType (id : UInt64) : FieldType := if id = 3 then .int64 else .string

def wideBlocks (id : UInt64) : List Values :=
  if id = 3 then [[intValue 0]] else [[wideValue]]

def wideFile (ids : List UInt64) : DataFile where
  blocks := ids.flatMap (fun id => encodeRun codec id (wideBlocks id))
  index := indexOf (ids.flatMap (fun id => encodeRun codec id (wideBlocks id)))
  minTime := 0
  maxTime := 1

def wideFiles : List DataFile := [wideFile [1], wideFile [2, 3]]

theorem wideBlocks_spec (id : UInt64) :
    (∀ vs ∈ wideBlocks id, codec.RoundTrips vs ∧ Values.OfType (wideType id) vs) ∧
      Values.Ascending (wideBlocks id).flatten := by
  by_cases h : id = 3
  · simp only [wideBlocks, wideType, if_pos h, mem_singleton, forall_eq]
    exact ⟨⟨codec_exact .int64 _ (by simp) (by decide), by decide⟩, pairwise_singleton _ _⟩
  have hty : Values.OfType .string [wideValue] := by
    intro v hv
    rw [mem_singleton.mp hv]
    rfl
  simp only [wideBlocks, wideType, if_neg h, mem_singleton, forall_eq]
  exact ⟨⟨codec_exact .string _ (by simp) hty, hty⟩, pairwise_singleton _ _⟩

theorem length_wideValue : (codec.bytes [wideValue]).length = 18 + 3 * 2 ^ 30 := by
  rw [wideValue, length_bytes_string, length_replicate]
  norm_num

theorem wideRun_eq : encodeRun codec 1 (wideBlocks 1) = [⟨1, codec.bytes [wideValue]⟩] ∧
    encodeRun codec 2 (wideBlocks 2) = [⟨2, codec.bytes [wideValue]⟩] ∧
    encodeRun codec 3 (wideBlocks 3) = [⟨3, codec.bytes [intValue 0]⟩] :=
  ⟨rfl, rfl, rfl⟩

theorem size_wideBlock (id : UInt64) :
    (⟨id, codec.bytes [wideValue]⟩ : Block).size = 30 + 3 * 2 ^ 30 := by
  rw [Block.size, length_wideValue, blockHeaderSize]
  norm_num

theorem size_smallBlock : (⟨3, codec.bytes [intValue 0]⟩ : Block).size = 37 := by
  decide +kernel

theorem length_wideFile_le (ids : List UInt64) :
    (wideFile ids).length ≤ 24 + blocksSize (wideFile ids).blocks +
      (wideFile ids).blocks.length * 12 := by
  have := @length_indexFrom_le (wideFile ids).blocks none fileHeaderSize
  simp only [DataFile.length, wideFile, indexOf, fileHeaderSize, seriesHeaderSize,
    footerFixedSize] at this ⊢
  omega

theorem wideFiles_wellFormed : ∀ d ∈ wideFiles, d.WellFormed codec wideType ∧ d.blocks ≠ [] := by
  obtain ⟨hone, htwo, hthree⟩ := wideRun_eq
  have hwf : ∀ ids : List UInt64, ids.Pairwise (· < ·) →
      (∀ id ∈ ids, id ≠ 0 ∧ id ≠ dataFileEOF) → (wideFile ids).length < 2 ^ 32 →
      (wideFile ids).WellFormed codec wideType := fun ids hids hid hlen =>
    wellFormed_of_layout hids hid (fun id _ => wideBlocks_spec id) rfl rfl hlen
  have hblocks : (wideFile [1]).blocks = [⟨1, codec.bytes [wideValue]⟩] ∧ (wideFile [2, 3]).blocks =
        [⟨2, codec.bytes [wideValue]⟩, ⟨3, codec.bytes [intValue 0]⟩] := by
    constructor
    · rw [wideFile, flatMap_singleton, hone]
    · rw [wideFile, flatMap_cons, flatMap_singleton, htwo, hthree]
      rfl
  intro d hd
  rcases mem_cons.mp hd with rfl | hd
  · refine ⟨hwf [1] (by decide) (by simp [dataFileEOF])
      (lt_of_le_of_lt (length_wideFile_le [1]) ?_), ?_⟩
    · rw [hblocks.1, blocksSize_cons, blocksSize_nil, size_wideBlock]
      norm_num
    · rw [hblocks.1]
      exact cons_ne_nil _ _
  · rw [mem_singleton.mp hd]
    refine ⟨hwf [2, 3] (by decide) (by simp [dataFileEOF])
      (lt_of_le_of_lt (length_wideFile_le [2, 3]) ?_), ?_⟩
    · rw [hblocks.2, blocksSize_cons, blocksSize_cons, blocksSize_nil, size_wideBlock,
        size_smallBlock]
      norm_num
    · rw [hblocks.2]
      exact cons_ne_nil _ _

theorem inputBlocks_wideFiles (hid : id ∈ [1, 2, 3]) :
    inputBlocks codec wideFiles id = wideBlocks id := by
  have hfile : ∀ ids : List UInt64, ids.Nodup →
      (wideFile ids).decodedBlocks codec id = if id ∈ ids then wideBlocks id else [] := by
    intro ids hnd
    have hrun : decodedRun codec (encodeRun codec id (wideBlocks id)) id =
        wideBlocks id := decodedRun_encodeRun (fun vs hvs => ((wideBlocks_spec id).1 vs hvs).1)
    have hself : (encodeRun codec id (wideBlocks id)).filter (fun b => b.id == id) =
        encodeRun codec id (wideBlocks id) :=
      filter_eq_self.mpr (fun b hb => by simp [id_of_mem_encodeRun hb])
    rw [decodedRun, hself] at hrun
    rw [DataFile.decodedBlocks, decodedRun, wideFile,
      filter_flatMap_eq (fun i b => id_of_mem_encodeRun) hnd id]
    split
    · exact hrun
    · rfl
  rw [inputBlocks, wideFiles, flatMap_cons, flatMap_singleton, hfile [1] (by decide),
    hfile [2, 3] (by decide)]
  simp only [mem_cons, not_mem_nil, or_false] at hid ⊢
  rcases hid with rfl | rfl | rfl
  · rfl
  · rfl
  · rfl

end AndyEnv.Tsm1
