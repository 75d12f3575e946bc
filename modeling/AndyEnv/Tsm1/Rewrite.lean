import AndyEnv.Lib.Search
import AndyEnv.Tsm1.Combine
import AndyEnv.Tsm1.PlainCodec

/-!
# Rewriting a data file (`Engine.rewriteFile`, `Engine.DecodeAndCombine`)

`rewriteFile` merges a batch of new values into an old data file (or none)
and writes the result to a new one. An id that is only in the old file has
its blocks copied, an id that is only in the batch gets one block, and for an
id in both the old blocks are decoded one by one and combined with the new
values; `DecodeAndCombine` hands back the values it could not place in the
current block, and they go into the next call.

The first half of the module shows that this loop is `combineRun` on the
decoded blocks, the second what the new file stores for every id.
-/

namespace AndyEnv.Tsm1

open List Keyed Plain Values
open Option (map_some bind_eq_bind bind_some getD_some)

/-! ## The code -/

/-- `DecodeAndCombine`. The result is what is left of the new values and the
data of the combined block. The second split, by the block size limit,
overwrites the remainder that the first one, by the next block's time, left. -/
def decodeAndCombine (C : BlockCodec) (maxPointsPerBlock : ℕ) (newValues : Values)
    (block : Bytes) (nextTime : Int64) (hasFutureBlock : Bool) :
    Option (Values × Bytes) :=
  if newValues = [] then some (newValues, block)
  else do
    let values ← C.decodeBlock block
    let (values, remainingValues) ←
      if hasFutureBlock then
        -- take all values that have times less than the future block
        let pos := Search.searchList newValues
          (fun v => nextTime.toInt ≤ v.unixNano)
        some ((values ++ newValues.take pos : Values).deduplicate, newValues.drop pos)
      else do
        let oldMax ← values.maxTime
        let newMin ← newValues.minTime
        let requireSort := decide (newMin.toInt ≤ oldMax.toInt)
        let values := values ++ newValues
        some (if requireSort then values.deduplicate else values, [])
    if maxPointsPerBlock < values.length then
      let encoded ← encode C (values.take maxPointsPerBlock)
      return (values.drop maxPointsPerBlock, encoded)
    else
      let encoded ← encode C values
      return (remainingValues, encoded)

def copyBlocks (oldDF : DataFile) (id : UInt64) : ℕ → UInt32 → Writer → Option Writer
  | 0, _, _ => none
  | fuel + 1, fpos, w => do
    let b ← oldDF.recordAt fpos
    if b.id ≠ id then return w
    let fpos := fpos + UInt32.ofNat (blockHeaderSize + b.data.length)
    let w := w.writeBlock id b.data
    -- make sure we're not at the end of the file
    if oldDF.indexPosition ≤ fpos then return w
    copyBlocks oldDF id fuel fpos w

def combineBlocks (C : BlockCodec) (maxPointsPerBlock : ℕ) (oldDF : DataFile) (id : UInt64) :
    ℕ → UInt32 → Values → Writer → Option (Values × Writer)
  | 0, _, _, _ => none
  | fuel + 1, fpos, newVals, w => do
    let (fid, _, block) ← oldDF.block fpos
    if fid ≠ id then return (newVals, w)
    let fpos := fpos + UInt32.ofNat (blockHeaderSize + block.length)
    -- is there a block after this with the same id, and at what time
    let (nextID, nextTime, _) ← oldDF.block fpos
    let hasFutureBlock := decide (nextID = id)
    let (newVals, newBlock) ←
      decodeAndCombine C maxPointsPerBlock newVals block nextTime hasFutureBlock
    let w := w.writeBlock id newBlock
    if oldDF.indexPosition ≤ fpos then return (newVals, w)
    combineBlocks C maxPointsPerBlock oldDF id fuel fpos newVals w

/-- The body of `rewriteFile`'s loop over the ids. A loop over the file's
blocks meets each of them at most once. -/
def rewriteID (C : BlockCodec) (maxPointsPerBlock : ℕ) (oldDF : Option DataFile)
    (valuesByID : List (UInt64 × Values)) (w : Writer) (id : UInt64) : Option Writer :=
  let newVals := (valuesByID.lookup id).getD []
  let oldPos := oldDF.bind (fun d => d.idToPosition id)
  if newVals = [] then do
    let d ← oldDF
    copyBlocks d id (d.blocks.length + 1) (oldPos.getD 0) w
  else
    match oldDF, oldPos with
    | some d, some fpos => do
      let (newVals, w) ←
        combineBlocks C maxPointsPerBlock d id (d.blocks.length + 1) fpos newVals w
      if newVals = [] then return w
      let block ← newVals.encode C
      return w.writeBlock id block
    | _, _ => do
      -- the values are not in the file, just write the new ones
      let block ← newVals.encode C
      return w.writeBlock id block

/-- One step of the loop that finds the new file's time range. The maximum is
exclusive. -/
def widenRange (range : Int64 × Int64) (v : Values) : Option (Int64 × Int64) := do
  let lo ← v.minTime
  let hi ← v.maxTime
  return (if lo < range.1 then lo else range.1, if range.2 < hi then hi + 1 else range.2)

/-- `sort.Sort(uint64slice(ids))`. -/
def sortIDs (ids : List UInt64) : List UInt64 :=
  ids.insertionSort (fun a b => a.toNat ≤ b.toNat)

/-- The ids of the new file: those of the batch and those in the old file
that are not getting flushed here. -/
def idsToWrite (oldDF : Option DataFile) (valuesByID : List (UInt64 × Values)) :
    List UInt64 :=
  let ids := valuesByID.map Prod.fst
  let oldIDs := (oldDF.map DataFile.indexIDs).getD []
  sortIDs (ids ++ oldIDs.filter (fun id => !ids.contains id))

/-- Write the ids one after the other, recording where each begins. -/
def writeIDs (C : BlockCodec) (maxPointsPerBlock : ℕ) (oldDF : Option DataFile)
    (valuesByID : List (UInt64 × Values)) :
    List UInt64 → Writer → Option (Writer × List UInt32)
  | [], w => some (w, [])
  | id :: ids, w => do
    let w' ← rewriteID C maxPointsPerBlock oldDF valuesByID w id
    let (w'', newPositions) ← writeIDs C maxPointsPerBlock oldDF valuesByID ids w'
    return (w'', w.currentPosition :: newPositions)

/-- The range the new file starts from: the old file's, or the empty one. -/
def initialRange (oldDF : Option DataFile) : Int64 × Int64 :=
  match oldDF with
  | some d => (d.minTime, d.maxTime)
  | none => (Int64.maxValue, Int64.minValue)

/-- `rewriteFile`. `valuesByID` is the map in the order `range` visits it.
`none` is a panic, `some none` the early return on an empty map, and
`some (some newDF)` the new file. -/
def rewriteFile (C : BlockCodec) (maxPointsPerBlock : ℕ) (oldDF : Option DataFile)
    (valuesByID : List (UInt64 × Values)) : Option (Option DataFile) :=
  if valuesByID = [] then some none
  else do
    let (minTime, maxTime) ←
      (valuesByID.map Prod.snd).foldlM widenRange (initialRange oldDF)
    let ids := idsToWrite oldDF valuesByID
    let (w, newPositions) ← writeIDs C maxPointsPerBlock oldDF valuesByID ids Writer.new
    return some ⟨w.blocks, ids.zip newPositions, minTime, maxTime⟩

variable {fty : FieldType} {vs nv : Values} {id : UInt64} {vss : List Values}

/-! ## The code computes the combination -/

section Refinement

variable {C : BlockCodec} {ty : UInt64 → FieldType} {max : ℕ}

/-- What one call hands on: a block worth writing, and a remainder to be
combined with the next one. -/
theorem combineOne_spec (hmax : 1 ≤ max) (hne : vs ≠ []) (hvs : Ascending vs) (htv : OfType fty vs)
    (hnv : Ascending nv) (htn : OfType fty nv) (next : Option ℤ) :
    (combineOne max vs nv next).1 ≠ [] ∧ OfType fty (combineOne max vs nv next).1 ∧
      Ascending (combineOne max vs nv next).2 ∧
      OfType fty (combineOne max vs nv next).2 := by
  by_cases hn : nv = []
  · subst hn
    rw [combineOne_nil]
    exact ⟨hne, htv, ascending_nil, fun v hv => absurd hv not_mem_nil⟩
  -- the combined values, whichever part of the new values is taken
  have hvals : ∀ part : Values, part.Sublist nv → overlay Value.unixNano vs part ≠ [] ∧
      OfType fty (overlay Value.unixNano vs part) ∧
      Ascending (overlay Value.unixNano vs part) := by
    intro part hpart
    refine ⟨?_, ?_, ascending_overlay part hvs⟩
    · obtain ⟨v, ws, rfl⟩ := exists_cons_of_ne_nil hne
      obtain ⟨y, hy, -⟩ := exists_mem_overlay_key hvs
        (.inl mem_cons_self : v ∈ v :: ws ∨ v ∈ part)
      exact ne_nil_of_mem hy
    · intro v hv
      rcases mem_of_mem_overlay hvs hv with h | h
      · exact htv v h
      · exact htn v (hpart.subset h)
  have hsplit : ∀ (part rem : Values), part.Sublist nv → rem.Sublist nv →
      let vals := overlay Value.unixNano vs part
      let r := if max < vals.length then (vals.take max, vals.drop max) else (vals, rem)
      r.1 ≠ [] ∧ OfType fty r.1 ∧ Ascending r.2 ∧ OfType fty r.2 := by
    intro part rem hpart hrem vals r
    obtain ⟨h1, h2, h3⟩ := hvals part hpart
    by_cases hlt : max < vals.length
    · simp only [r, if_pos hlt]
      refine ⟨?_, h2.sublist (take_sublist _ _), h3.sublist (drop_sublist _ _),
        h2.sublist (drop_sublist _ _)⟩
      intro he
      have hlen := congrArg List.length he
      simp only [List.length_take, length_nil] at hlen
      omega
    · simp only [r, if_neg hlt]
      exact ⟨h1, h2, hnv.sublist hrem, htn.sublist hrem⟩
  cases next with
  | none =>
    rw [combineOne, if_neg hn]
    exact hsplit nv [] (List.Sublist.refl _) (nil_sublist _)
  | some t =>
    rw [combineOne, if_neg hn]
    exact hsplit _ _ filter_sublist filter_sublist

theorem searchList_split (hnv : Ascending nv) (t : ℤ) :
    let pos := Search.searchList nv (fun v => t ≤ v.unixNano)
    nv.take pos = nv.filter (fun v => v.unixNano < t) ∧
      nv.drop pos = nv.filter (fun v => t ≤ v.unixNano) := by
  intro pos
  obtain ⟨h1, h2⟩ := takeWhile_dropWhile_eq_filter hnv t
  have hpos : pos = (nv.takeWhile (fun v => v.unixNano < t)).length := by
    have hmono : nv.Pairwise (fun a b =>
        decide (t ≤ a.unixNano) = true → decide (t ≤ b.unixNano) = true) := by
      refine List.Pairwise.imp ?_ hnv
      intro a b hab ha
      simp only [decide_eq_true_eq] at ha ⊢
      omega
    have hfun : (fun v : Value => !decide (t ≤ v.unixNano)) = fun v => decide (v.unixNano < t) := by
      funext v
      rw [← decide_not]
      simp
    rw [← hfun]
    exact Search.searchList_eq hmono
  have happ := takeWhile_append_dropWhile
    (p := fun v : Value => decide (v.unixNano < t)) (l := nv)
  constructor
  · rw [← h1]
    exact (congrArg (List.take pos) happ.symm).trans (take_left' hpos.symm)
  · rw [← h2]
    exact (congrArg (List.drop pos) happ.symm).trans (drop_left' hpos.symm)

variable {t : Int64} {d : DataFile} {post : List Block}

theorem le_maxTime (h : Ascending vs)
    (ht : vs.maxTime = some t) : ∀ v ∈ vs, v.unixNano ≤ t.toInt := by
  intro v hv
  simp only [maxTime, Option.map_eq_some_iff] at ht
  obtain ⟨w, hw, rfl⟩ := ht
  obtain ⟨ws, rfl⟩ := List.getLast?_eq_some_iff.mp hw
  rcases mem_append.mp hv with hv' | hv'
  · exact ((ascending_append.mp h).2.2 v hv' w (by simp)).le
  · rw [mem_singleton.mp hv']
    exact le_rfl

theorem minTime_le (h : Ascending vs)
    (ht : vs.minTime = some t) : ∀ v ∈ vs, t.toInt ≤ v.unixNano := by
  intro v hv
  cases vs with
  | nil => simp [minTime] at ht
  | cons w ws =>
    simp only [minTime, List.head?_cons, map_some, Option.some.injEq] at ht
    subst ht
    rcases mem_cons.mp hv with rfl | hv'
    · exact le_rfl
    · exact ((ascending_cons.mp h).1 v hv').le

theorem exists_maxTime (h : vs ≠ []) : ∃ t, vs.maxTime = some t := by
  obtain ⟨w, hw⟩ := List.getLast?_isSome.mpr h |> Option.isSome_iff_exists.mp
  exact ⟨w.time, by simp [maxTime, hw]⟩

theorem exists_minTime (h : vs ≠ []) : ∃ t, vs.minTime = some t := by
  obtain ⟨w, ws, rfl⟩ := exists_cons_of_ne_nil h
  exact ⟨w.time, rfl⟩

/-- **`DecodeAndCombine` on an encoded block** is `combineOne`. -/
theorem decodeAndCombine_eq (hrt : C.RoundTrips vs)
    (hvs : Ascending vs) (hnv : Ascending nv) {nextTime : Int64} {hasFutureBlock : Bool}
    (hout : C.RoundTrips
      (combineOne max vs nv (if hasFutureBlock then some nextTime.toInt else none)).1) :
    decodeAndCombine C max nv (C.bytes vs) nextTime hasFutureBlock =
      let r := combineOne max vs nv (if hasFutureBlock then some nextTime.toInt else none)
      some (r.2, C.bytes r.1) := by
  by_cases hn : nv = []
  · simp [decodeAndCombine, hn]
  have hencode : ∀ vals rem : Values,
      C.RoundTrips (if max < vals.length then (vals.take max, vals.drop max)
        else (vals, rem)).1 →
      (if max < vals.length then do
          let encoded ← encode C (vals.take max)
          return (vals.drop max, encoded)
        else do
          let encoded ← encode C vals
          return (rem, encoded)) =
        let r := if max < vals.length then (vals.take max, vals.drop max) else (vals, rem)
        some (r.2, C.bytes r.1) := by
    intro vals rem h
    by_cases hlt : max < vals.length
    · simp only [if_pos hlt] at h ⊢
      simp [h.encode_eq]
    · simp only [if_neg hlt] at h ⊢
      simp [h.encode_eq]
  have hdec := hrt.decode
  cases hasFutureBlock with
  | true =>
    obtain ⟨htake, hdrop⟩ := searchList_split hnv nextTime.toInt
    simp only [combineOne, if_neg hn, if_true] at hout ⊢
    rw [decodeAndCombine, if_neg hn, hdec]
    simp only [bind_eq_bind, bind_some, if_true, htake, hdrop, deduplicate]
    rw [ofList_append hvs]
    exact hencode _ _ hout
  | false =>
    obtain ⟨oldMax, hmx⟩ := exists_maxTime hrt.ne_nil
    obtain ⟨newMin, hmn⟩ := exists_minTime hn
    have hvals : (if newMin.toInt ≤ oldMax.toInt then deduplicate (vs ++ nv)
        else vs ++ nv) = overlay Value.unixNano vs nv := by
      by_cases hle : newMin.toInt ≤ oldMax.toInt
      · rw [if_pos hle]
        exact ofList_append hvs
      rw [if_neg hle, overlay_eq_append]
      refine ascending_append.mpr ⟨hvs, hnv, ?_⟩
      intro x hx y hy
      have h1 := le_maxTime hvs hmx x hx
      have h2 := minTime_le hnv hmn y hy
      omega
    simp only [combineOne, if_neg hn, Bool.false_eq_true, if_false] at hout ⊢
    rw [decodeAndCombine, if_neg hn, hdec]
    simp only [bind_eq_bind, bind_some, Bool.false_eq_true, if_false, hmx, hmn,
      decide_eq_true_eq, hvals]
    exact hencode _ _ hout

/-- **The combining loop** over the blocks of an id is `combineRun`. -/
theorem combineBlocks_eq (h : d.WellFormed C ty) (hid : id ≠ 0)
    (hmax : 1 ≤ max) (hpost : ∀ b ∈ post, b.id ≠ id) :
    ∀ (vss : List Values) (pre : List Block) (nv : Values) (w : Writer) (fuel : ℕ),
      d.blocks = pre ++ (encodeRun C id vss ++ post) → IsRun vss →
      (∀ vs ∈ vss, C.RoundTrips vs ∧ OfType (ty id) vs) →
      Ascending nv → OfType (ty id) nv →
      (∀ vs ∈ (combineRun max vss nv).1, C.RoundTrips vs) → vss.length < fuel →
      combineBlocks C max d id fuel (positionAfter pre) nv w = some ((combineRun max vss nv).2,
          w.writeBlocks (encodeRun C id (combineRun max vss nv).1))
  | [], pre, nv, w, fuel + 1, hb, _, _, _, _, _, _ => by
    obtain ⟨fid, t, block, hblock, hne⟩ := h.block_after_run hid hb hpost
    simp [combineBlocks, hblock, hne, combineRun, encodeRun]
  | vs :: rest, pre, nv, w, fuel + 1, hb, hrun, hty, hnv, htn, hout, hfuel => by
    have hbs : d.blocks = pre ++ ⟨id, C.bytes vs⟩ :: (encodeRun C id rest ++ post) := hb
    have hbs' : d.blocks = (pre ++ [⟨id, C.bytes vs⟩]) ++ (encodeRun C id rest ++ post) := by
      rw [hbs]
      simp
    have hblock := h.block_split hbs
    -- the block after this one: the next of the run, or another id's
    have hnext : ∃ nextID nextTime block, d.block (positionAfter (pre ++ [⟨id, C.bytes vs⟩])) =
          some (nextID, nextTime, block) ∧
        (if decide (nextID = id) then some nextTime.toInt else none) =
          rest.head?.map startTime := by
      cases rest with
      | nil =>
        obtain ⟨fid, t, block, hb', hne⟩ := h.block_after_run hid hbs' hpost
        exact ⟨fid, t, block, hb', by simp [hne]⟩
      | cons c after =>
        refine ⟨id, (⟨id, C.bytes c⟩ : Block).time, C.bytes c, h.block_split hbs', ?_⟩
        have hc := (hty c (by simp)).1.time
        obtain ⟨v, ws, rfl⟩ := exists_cons_of_ne_nil (hrun.ne_nil c (by simp))
        simp only [minTime, List.head?_cons, map_some, Option.some.injEq] at hc
        simp [Block.time, ← hc, startTime, Value.unixNano]
    obtain ⟨nextID, nextTime, nblock, hnb, hnt⟩ := hnext
    obtain ⟨hrt, hvs⟩ := hty vs mem_cons_self
    have hcomb := decodeAndCombine_eq hrt hrun.head hnv
      (hnt ▸ hout _ mem_cons_self : C.RoundTrips (combineOne max vs nv
        (if decide (nextID = id) then some nextTime.toInt else none)).1)
    rw [hnt] at hcomb
    obtain ⟨-, -, hasc, hto⟩ := combineOne_spec hmax hrt.ne_nil hrun.head hvs hnv htn
      (rest.head?.map startTime)
    simp only [combineBlocks, hblock, bind_eq_bind, bind_some, ne_eq,
      not_true_eq_false, if_false, positionAfter_add_block _ id, hnb, hcomb]
    by_cases hend : encodeRun C id rest ++ post = []
    · -- the run and the file end with this block
      rw [if_pos ((h.indexPosition_le_iff hbs').mpr hend)]
      have hrest : rest = [] := by
        cases rest with
        | nil => rfl
        | cons c after => simp [encodeRun] at hend
      subst hrest
      simp [combineRun, encodeRun, Writer.writeBlocks]
    · rw [if_neg (mt (h.indexPosition_le_iff hbs').mp hend)]
      exact combineBlocks_eq h hid hmax hpost rest (pre ++ [(⟨id, C.bytes vs⟩ : Block)])
        _ _ fuel hbs' hrun.tail (forall_mem_cons.mp hty).2 hasc hto
        (forall_mem_cons.mp hout).2 (by simpa using hfuel)

/-- **The copying loop** writes the blocks of the id as they are. -/
theorem copyBlocks_eq (h : d.WellFormed C ty) {id : UInt64} (hpost : ∀ b ∈ post, b.id ≠ id) :
    ∀ (bs : List Block) (b : Block) (pre : List Block) (w : Writer) (fuel : ℕ),
      d.blocks = pre ++ (b :: bs ++ post) → (∀ x ∈ b :: bs, x.id = id) → bs.length + 1 < fuel →
      copyBlocks d id fuel (positionAfter pre) w = some (w.writeBlocks (b :: bs))
  | bs, ⟨bid, data⟩, pre, w, fuel + 1, hb, hids, hfuel => by
    obtain rfl : bid = id := hids ⟨bid, data⟩ mem_cons_self
    have hbs' : d.blocks = (pre ++ [⟨bid, data⟩]) ++ (bs ++ post) := by
      rw [hb]
      simp
    have hrec := h.recordAt_split hb
    simp only [copyBlocks, hrec, bind_eq_bind, bind_some, ne_eq,
      not_true_eq_false, if_false, positionAfter_add_block _ bid]
    by_cases hend : bs ++ post = []
    · rw [if_pos ((h.indexPosition_le_iff hbs').mpr hend)]
      obtain ⟨rfl, -⟩ := append_eq_nil_iff.mp hend
      rfl
    rw [if_neg (mt (h.indexPosition_le_iff hbs').mp hend)]
    cases bs with
    | nil =>
      -- the next record belongs to another id
      obtain ⟨p, ps, rfl⟩ := exists_cons_of_ne_nil (by simpa using hend)
      obtain ⟨fuel, rfl⟩ : ∃ k, fuel = k + 1 := ⟨fuel - 1, by simp at hfuel; omega⟩
      have hrec' := h.recordAt_split hbs'
      simp [copyBlocks, hrec', hpost p mem_cons_self, Writer.writeBlocks]
    | cons c cs =>
      exact copyBlocks_eq h hpost cs c (pre ++ [(⟨bid, data⟩ : Block)]) _ fuel hbs'
        (forall_mem_cons.mp hids).2 (by simpa using hfuel)

end Refinement

/-! ## The file that is written -/

/-- The map `Engine.Write` hands to `rewriteFile`: for each id a non-empty,
strictly time-ascending list of values of the id's type. The entries are in
the order in which `range` happens to visit them. -/
structure NewValues (ty : UInt64 → FieldType) : Type where
  entries : List (UInt64 × Values)
  nodup : (entries.map Prod.fst).Nodup
  id_ne : ∀ p ∈ entries, p.1 ≠ 0 ∧ p.1 ≠ dataFileEOF
  ne_nil : ∀ p ∈ entries, p.2 ≠ []
  ascending : ∀ p ∈ entries, Ascending p.2
  ofType : ∀ p ∈ entries, OfType (ty p.1) p.2

def NewValues.valuesFor {ty : UInt64 → FieldType} (nv : NewValues ty) (id : UInt64) : Values :=
  (nv.entries.lookup id).getD []

def oldBlocks (C : BlockCodec) (old : Option DataFile) (id : UInt64) : List Values :=
  (old.map (fun d => d.decodedBlocks C id)).getD []

section Written

variable {C : BlockCodec} {ty : UInt64 → FieldType} {max : ℕ} {old : Option DataFile}

theorem NewValues.valuesFor_spec (nv : NewValues ty) (id : UInt64) :
    Ascending (nv.valuesFor id) ∧ OfType (ty id) (nv.valuesFor id) ∧
      (nv.valuesFor id ≠ [] ↔ id ∈ nv.entries.map Prod.fst) := by
  cases hl : nv.entries.lookup id with
  | none =>
    have hnot : id ∉ nv.entries.map Prod.fst := by
      rw [lookup_eq_none_iff] at hl
      intro hid
      obtain ⟨p, hp, rfl⟩ := mem_map.mp hid
      simpa using hl p hp
    simp [NewValues.valuesFor, hl, hnot, ascending_nil, OfType]
  | some vs =>
    obtain ⟨l₁, l₂, he, -⟩ := lookup_eq_some_iff.mp hl
    have hmem : (id, vs) ∈ nv.entries := by simp [he]
    simp only [NewValues.valuesFor, hl, getD_some]
    refine ⟨nv.ascending _ hmem, nv.ofType _ hmem, ?_⟩
    exact ⟨fun _ => mem_map.mpr ⟨_, hmem, rfl⟩, fun _ => nv.ne_nil _ hmem⟩

theorem isRun_oldBlocks (hold : ∀ d ∈ old, d.WellFormed C ty) (id : UInt64) :
    IsRun (oldBlocks C old id) ∧ ∀ vs ∈ oldBlocks C old id, OfType (ty id) vs := by
  cases old with
  | none =>
    refine ⟨⟨?_, ascending_nil⟩, ?_⟩ <;> simp [oldBlocks]
  | some d =>
    have h := hold d rfl
    obtain ⟨-, hvs⟩ := h.filter_eq_encodeRun id
    exact ⟨⟨fun vs hv => (hvs vs hv).1.ne_nil, h.ascending id _ (h.valuesFor_eq id)⟩,
      fun vs hv => (hvs vs hv).2⟩

def rewrittenBlocks (max : ℕ) (vss : List Values) (nv : Values) : List Values :=
  if nv = [] then vss
  else if vss = [] then [nv]
  else
    let r := combineRun max vss nv
    r.1 ++ (if r.2 = [] then [] else [r.2])

/-- The blocks of the new file survive the codec. -/
def MergeRoundTrips (C : BlockCodec) (max : ℕ) (old : Option DataFile)
    (valuesByID : List (UInt64 × Values)) : Prop :=
  ∀ id, ∀ vs ∈ rewrittenBlocks max (oldBlocks C old id) ((valuesByID.lookup id).getD []),
    C.RoundTrips vs

theorem combineRun_spec (hmax : 1 ≤ max) :
    ∀ {vss : List Values} {nv : Values}, IsRun vss → (∀ vs ∈ vss, OfType fty vs) →
      Ascending nv → OfType fty nv →
      (∀ vs ∈ (combineRun max vss nv).1, vs ≠ [] ∧ OfType fty vs) ∧
        OfType fty (combineRun max vss nv).2
  | [], nv, _, _, _, htn => ⟨fun vs hv => absurd hv not_mem_nil, htn⟩
  | vs :: rest, nv, hrun, hty, hnv, htn => by
    obtain ⟨h1, h2, h3, h4⟩ := combineOne_spec hmax (hrun.ne_nil vs mem_cons_self)
      hrun.head (hty vs mem_cons_self) hnv htn (rest.head?.map startTime)
    obtain ⟨h5, h6⟩ := combineRun_spec hmax hrun.tail
      (forall_mem_cons.mp hty).2 h3 h4
    exact ⟨forall_mem_cons.mpr ⟨⟨h1, h2⟩, h5⟩, h6⟩

theorem rewrittenBlocks_spec (hmax : 1 ≤ max)
    (hrun : IsRun vss) (hty : ∀ vs ∈ vss, OfType fty vs) (hnv : Ascending nv)
    (htn : OfType fty nv) : (∀ vs ∈ rewrittenBlocks max vss nv, vs ≠ [] ∧ OfType fty vs) ∧
      (rewrittenBlocks max vss nv).flatten = combined max vss nv := by
  by_cases hn : nv = []
  · subst hn
    rw [combined_of_below max hrun (by simpa using hrun.ascending)]
    simpa [rewrittenBlocks] using fun vs hv => ⟨hrun.ne_nil vs hv, hty vs hv⟩
  by_cases hv : vss = []
  · subst hv
    simpa [rewrittenBlocks, hn] using htn
  obtain ⟨h1, h2⟩ := combineRun_spec hmax hrun hty hnv htn
  by_cases hr : (combineRun max vss nv).2 = []
  · simpa [rewrittenBlocks, hn, hv, hr, combined] using h1
  · simp only [rewrittenBlocks, hn, hv, if_false, hr, combined, flatten_append,
      flatten_singleton, and_true]
    exact forall_mem_append.mpr ⟨h1, forall_mem_singleton.mpr ⟨hr, h2⟩⟩

theorem rewrittenBlocks_ne_nil (h : nv ≠ [] ∨ vss ≠ []) : rewrittenBlocks max vss nv ≠ [] := by
  by_cases hn : nv = []
  · simpa [rewrittenBlocks, hn] using h.resolve_left (fun h' => h' hn)
  · cases vss with
    | nil => simp [rewrittenBlocks, hn]
    | cons vs rest => simp [rewrittenBlocks, hn, combineRun]

/-- The loop over the ids lays the file out id by id, and records where the
run of each begins. -/
theorem writeIDs_eq {f : UInt64 → List Block} {entries : List (UInt64 × Values)} :
    ∀ {ids : List UInt64} {w : Writer}, w.Aligned →
      (∀ id ∈ ids, ∀ w, rewriteID C max old entries w id = some (w.writeBlocks (f id))) →
      writeIDs C max old entries ids w =
        some (w.writeBlocks (ids.flatMap f), runStarts f w.blocks ids)
  | [], w, _, _ => rfl
  | id :: ids, w, hw, h => by
    have ih := writeIDs_eq (hw.writeBlocks (f id))
      (forall_mem_cons.mp h).2
    rw [Writer.blocks_writeBlocks] at ih
    rw [writeIDs, h id mem_cons_self w, hw]
    simp [ih, runStarts, Writer.writeBlocks_append]

theorem sortIDs_perm (ids : List UInt64) : (sortIDs ids).Perm ids := perm_insertionSort _ ids

theorem exists_range (h : ∀ vs ∈ vss, vs ≠ []) (range : Int64 × Int64) :
    ∃ r, vss.foldlM widenRange range = some r := by
  induction vss generalizing range with
  | nil => exact ⟨range, rfl⟩
  | cons vs vss ih =>
    obtain ⟨lo, hlo⟩ := exists_minTime (h vs mem_cons_self)
    obtain ⟨hi, hhi⟩ := exists_maxTime (h vs mem_cons_self)
    obtain ⟨r, hr⟩ := ih (forall_mem_cons.mp h).2
      (if lo < range.1 then lo else range.1, if range.2 < hi then hi + 1 else range.2)
    exact ⟨r, by simpa [foldlM_cons, widenRange, hlo, hhi] using hr⟩

def newRun (C : BlockCodec) (max : ℕ) (old : Option DataFile) (nv : NewValues ty)
    (id : UInt64) : List Block :=
  encodeRun C id (rewrittenBlocks max (oldBlocks C old id) (nv.valuesFor id))

theorem id_of_mem_newRun {nv : NewValues ty} (id : UInt64) :
    ∀ b ∈ newRun C max old nv id, b.id = id :=
  fun _ => id_of_mem_encodeRun

section

variable (hmax : 1 ≤ max) (hold : ∀ d ∈ old, d.WellFormed C ty) (nv : NewValues ty)
  (hmerge : MergeRoundTrips C max old nv.entries)

theorem nodup_idsToWrite : (idsToWrite old nv.entries).Nodup := by
  rw [idsToWrite, (sortIDs_perm _).nodup_iff, nodup_append]
  refine ⟨nv.nodup, ?_, ?_⟩
  · refine List.Nodup.filter _ ?_
    cases old with
    | none => exact nodup_nil
    | some d => exact nodup_dedup _
  · intro a ha b hb hab
    subst hab
    have := (mem_filter.mp hb).2
    simp only [contains_eq_mem, Bool.not_eq_eq_eq_not, Bool.not_true,
      decide_eq_false_iff_not] at this
    exact this ha

theorem pairwise_idsToWrite : (idsToWrite old nv.entries).Pairwise (· < ·) := by
  have hsort : (idsToWrite old nv.entries).Pairwise (fun a b => a.toNat ≤ b.toNat) :=
    pairwise_insertionSort _ _
  refine (hsort.and (nodup_idsToWrite nv)).imp (fun {a b} h => ?_)
  rw [UInt64.lt_iff_toNat_lt]
  exact lt_of_le_of_ne h.1 (fun he => h.2 (UInt64.toNat_inj.mp he))

include hold

theorem mem_idsToWrite (id : UInt64) : id ∈ idsToWrite old nv.entries ↔
      nv.valuesFor id ≠ [] ∨ oldBlocks C old id ≠ [] := by
  have hold' : id ∈ (old.map DataFile.indexIDs).getD [] ↔ oldBlocks C old id ≠ [] := by
    cases old with
    | none => simp [oldBlocks]
    | some d =>
      have hne : oldBlocks C (some d) id ≠ [] ↔ ¬ ∀ b ∈ d.blocks, b.id ≠ id := not_congr decodedRun_eq_nil
      rw [map_some, getD_some, (hold d rfl).mem_indexIDs, hne]
      simp
  rw [idsToWrite, (sortIDs_perm _).mem_iff, mem_append, mem_filter, hold',
    (nv.valuesFor_spec id).2.2]
  by_cases hin : id ∈ nv.entries.map Prod.fst
  · simp [hin]
  · simp only [hin, false_or]
    simpa using fun _ => hin

theorem id_ne_of_mem_idsToWrite (hid : id ∈ idsToWrite old nv.entries) : id ≠ 0 ∧ id ≠ dataFileEOF := by
  rw [mem_idsToWrite hold nv] at hid
  rcases hid with hid | hid
  · obtain ⟨p, hp, rfl⟩ := mem_map.mp ((nv.valuesFor_spec id).2.2.mp hid)
    exact nv.id_ne p hp
  cases old with
  | none => exact absurd rfl hid
  | some d =>
    have hsome := mt decodedRun_eq_nil.mpr hid
    simp only [not_forall, not_not] at hsome
    obtain ⟨b, hb, rfl⟩ := hsome
    exact (hold d rfl).id_ne b hb

/-- The index of the new file gives every id its first block. -/
theorem zip_runStarts_newRun : (idsToWrite old nv.entries).zip (runStarts (newRun C max old nv) []
      (idsToWrite old nv.entries)) =
      indexOf ((idsToWrite old nv.entries).flatMap (newRun C max old nv)) := by
  refine (indexFrom_flatMap id_of_mem_newRun (nodup_idsToWrite nv) (fun id hid => ⟨?_, ?_⟩)).symm
  · rw [newRun, encodeRun, Ne, map_eq_nil_iff]
    exact rewrittenBlocks_ne_nil ((mem_idsToWrite hold nv id).mp hid)
  · simp

include hmax

theorem rewrittenBlocks_good (id : UInt64) :
    (∀ vs ∈ rewrittenBlocks max (oldBlocks C old id) (nv.valuesFor id),
      vs ≠ [] ∧ OfType (ty id) vs) ∧
      (rewrittenBlocks max (oldBlocks C old id) (nv.valuesFor id)).flatten =
        combined max (oldBlocks C old id) (nv.valuesFor id) := by
  obtain ⟨hasc, htn, -⟩ := nv.valuesFor_spec id
  obtain ⟨hrun, hty⟩ := isRun_oldBlocks hold id
  exact rewrittenBlocks_spec hmax hrun hty hasc htn

theorem mergeRoundTrips_of_exact (hC : C.Exact) : MergeRoundTrips C max old nv.entries := by
  intro id vs hvs
  obtain ⟨hne, hty⟩ := (rewrittenBlocks_good hmax hold nv id).1 vs hvs
  exact hC (ty id) vs hne hty

include hmerge

/-- **One id of the new file.** Whichever way the id is handled, its blocks
are the encoding of `rewrittenBlocks`. -/
theorem rewriteID_eq (hid : nv.valuesFor id ≠ [] ∨ oldBlocks C old id ≠ []) (hid0 : id ≠ 0) (w : Writer) :
    rewriteID C max old nv.entries w id = some (w.writeBlocks (encodeRun C id
        (rewrittenBlocks max (oldBlocks C old id) (nv.valuesFor id)))) := by
  obtain ⟨hasc, htn, -⟩ := nv.valuesFor_spec id
  obtain ⟨hrun, hty⟩ := isRun_oldBlocks hold id
  have hnew : (nv.entries.lookup id).getD [] = nv.valuesFor id := rfl
  have hout := hmerge id
  rw [hnew] at hout
  by_cases hv : oldBlocks C old id = []
  · -- not in the old file
    have hn : nv.valuesFor id ≠ [] := hid.resolve_right (fun h => h hv)
    have hpos : old.bind (fun d => d.idToPosition id) = none := by
      cases old with
      | none => rfl
      | some d =>
        exact (hold d rfl).idToPosition_eq_none (decodedRun_eq_nil.mp hv)
    simp only [rewriteID, hnew, if_neg hn, hpos]
    have hrt : C.RoundTrips (nv.valuesFor id) := by
      rw [rewrittenBlocks, if_neg hn, if_pos hv] at hout
      exact hout _ mem_cons_self
    simp [rewrittenBlocks, hn, hv, hrt.encode_eq, encodeRun, Writer.writeBlocks]
  · cases old with
    | none => exact absurd rfl hv
    | some d =>
      have h := hold d rfl
      obtain ⟨pre, post, hb, hpre, hpost⟩ := h.encodeRun_split id
      have hvd : d.decodedBlocks C id ≠ [] := hv
      obtain ⟨vs, rest, hcons⟩ := exists_cons_of_ne_nil hvd
      have hlen : (d.decodedBlocks C id).length ≤ d.blocks.length := by
        have := congrArg List.length hb
        simp only [length_append, encodeRun, length_map] at this
        omega
      have hposid : d.idToPosition id = some (positionAfter pre) := by
        rw [hcons, encodeRun_cons] at hb
        exact h.idToPosition_run hb hpre
      by_cases hn : nv.valuesFor id = []
      · simp only [rewriteID, hnew, if_pos hn, bind_some, hposid, getD_some, bind_eq_bind]
        rw [hcons, encodeRun_cons] at hb
        rw [copyBlocks_eq h hpost (encodeRun C id rest) ⟨id, C.bytes vs⟩ pre w _ hb
          (by simp [encodeRun]) (by rw [hcons] at hlen; simp [encodeRun] at hlen ⊢; omega)]
        simp [rewrittenBlocks, hn, oldBlocks, hcons, encodeRun]
      · simp only [rewriteID, hnew, if_neg hn, bind_some, hposid, bind_eq_bind]
        have holdeq : oldBlocks C (some d) id = d.decodedBlocks C id := rfl
        rw [rewrittenBlocks, if_neg hn, if_neg hv, holdeq] at hout
        rw [combineBlocks_eq h hid0 hmax hpost (d.decodedBlocks C id) pre _ w _ hb hrun
          (h.filter_eq_encodeRun id).2 hasc htn
          (forall_mem_append.mp hout).1 (by omega)]
        by_cases hr : (combineRun max (d.decodedBlocks C id) (nv.valuesFor id)).2 = []
        · simp [rewrittenBlocks, hn, hvd, hr, holdeq]
        · have hrt := hout _ (mem_append_right _ (by rw [if_neg hr]; exact mem_cons_self))
          simp [rewrittenBlocks, hn, hvd, hr, holdeq, hrt.encode_eq, encodeRun, Writer.writeBlocks]

/-- **The new file**: the runs of the ids one after the other, indexed by
where they begin. -/
theorem rewriteFile_eq (hne : nv.entries ≠ []) : ∃ range : Int64 × Int64,
      (nv.entries.map Prod.snd).foldlM widenRange (initialRange old) = some range ∧
      rewriteFile C max old nv.entries = some (some
        ⟨(idsToWrite old nv.entries).flatMap (newRun C max old nv), (idsToWrite old nv.entries).zip
            (runStarts (newRun C max old nv) [] (idsToWrite old nv.entries)),
          range.1, range.2⟩) := by
  obtain ⟨range, hrange⟩ := exists_range
    (fun vs hv => by obtain ⟨p, hp, rfl⟩ := mem_map.mp hv; exact nv.ne_nil p hp)
    (initialRange old)
  have hids : ∀ id ∈ idsToWrite old nv.entries, ∀ w, rewriteID C max old nv.entries w id =
      some (w.writeBlocks (newRun C max old nv id)) := fun id hid w =>
    rewriteID_eq hmax hold nv hmerge ((mem_idsToWrite hold nv id).mp hid)
      (id_ne_of_mem_idsToWrite hold nv hid).1 w
  refine ⟨range, hrange, ?_⟩
  simp only [rewriteFile, if_neg hne, hrange, writeIDs_eq Writer.aligned_new hids]
  simp [Writer.new]

/-- **What the new file stores** for an id: the old blocks and the new values
as `combineRun` combines them. -/
theorem rewriteFile_valuesFor (hne : nv.entries ≠ []) :
    ∃ newDF, rewriteFile C max old nv.entries = some (some newDF) ∧ ∀ id, newDF.valuesFor C id =
        some (combined max (oldBlocks C old id) (nv.valuesFor id)) := by
  obtain ⟨range, -, hfile⟩ := rewriteFile_eq hmax hold nv hmerge hne
  refine ⟨_, hfile, fun id => ?_⟩
  obtain ⟨hgood, hflat⟩ := rewrittenBlocks_good hmax hold nv id
  rw [DataFile.valuesFor, DataFile.dataFor, filter_flatMap_eq id_of_mem_newRun
    (nodup_idsToWrite nv) id]
  by_cases hin : id ∈ idsToWrite old nv.entries
  · rw [if_pos hin, ← hflat]
    simp only [newRun, encodeRun, map_map]
    exact BlockCodec.decodeAll_bytes (hmerge id)
  · rw [if_neg hin]
    rw [mem_idsToWrite hold nv, not_or, not_not, not_not] at hin
    rw [hin.1, hin.2]
    rfl

/-- **The new file is well formed**, unless it has outgrown the positions. -/
theorem rewriteFile_wellFormed {newDF : DataFile}
    (hnew : rewriteFile C max old nv.entries = some (some newDF))
    (hlen : newDF.length < 2 ^ 32) : newDF.WellFormed C ty := by
  have hne : nv.entries ≠ [] := by
    intro h
    simp [rewriteFile, h] at hnew
  obtain ⟨range, -, hfile⟩ := rewriteFile_eq hmax hold nv hmerge hne
  rw [hfile] at hnew
  cases hnew
  refine wellFormed_of_layout (pairwise_idsToWrite nv)
    (fun id hid => id_ne_of_mem_idsToWrite hold nv hid) (fun id _ => ⟨fun vs hv => ?_, ?_⟩) rfl
    (zip_runStarts_newRun hold nv) hlen
  · obtain ⟨hne, hty⟩ := (rewrittenBlocks_good hmax hold nv id).1 vs hv
    exact ⟨hmerge id vs hv, hty⟩
  · rw [(rewrittenBlocks_good hmax hold nv id).2]
    exact ascending_combined (isRun_oldBlocks hold id).1 (nv.valuesFor_spec id).1

end

/-- **`rewriteFile` loses nothing, exactly when nothing is in the way of an
overfull block.** For every exact codec, old file (or none), block size limit and batch, a
new file is written, and for each id it stores the newest-wins merge of the
old and the new values if and only if `KeepsNewer` holds of the id's old
blocks and its new values. -/
theorem rewriteFile_newestMerge_iff (hC : C.Exact) (hmax : 1 ≤ max)
    (hold : ∀ d ∈ old, d.WellFormed C ty) (nv : NewValues ty) (hne : nv.entries ≠ []) :
    ∃ newDF, rewriteFile C max old nv.entries = some (some newDF) ∧
      ∀ id, (∃ out, newDF.valuesFor C id = some out ∧
          NewestMerge (oldBlocks C old id).flatten (nv.valuesFor id) out) ↔
        KeepsNewer max (oldBlocks C old id) (nv.valuesFor id) := by
  obtain ⟨newDF, hnew, hvals⟩ :=
    rewriteFile_valuesFor hmax hold nv (mergeRoundTrips_of_exact hmax hold nv hC) hne
  refine ⟨newDF, hnew, fun id => ?_⟩
  obtain ⟨hasc, -, -⟩ := nv.valuesFor_spec id
  obtain ⟨hrun, -⟩ := isRun_oldBlocks hold id
  rw [← combined_eq_iff hrun hasc, hvals id]
  simp only [Option.some.injEq, newestMerge_iff hrun.ascending hasc]
  constructor
  · rintro ⟨out, rfl, h⟩
    exact h
  · intro h
    exact ⟨_, rfl, h⟩

end Written

/-! ## A batch that loses a point

The old blocks have the times 0, 1 and 10, the new values 2 and 20. With at
most two points per block the first block is overfull. -/

def straddlingBatch : NewValues (fun _ => FieldType.int64) where
  entries := [(1, [intValue 2, intValue 20])]
  nodup := by decide
  id_ne := by decide
  ne_nil := by decide
  ascending := by decide
  ofType := by decide

/-- The new value at 20 is lost: the file stores 0, 1, 2 and 10. -/
theorem rewriteFile_loses_point :
    ∃ newDF, rewriteFile codec 2 (some twoBlockFile) straddlingBatch.entries = some (some newDF) ∧
      newDF.valuesFor codec 1 = some [intValue 0, intValue 1, intValue 2, intValue 10] ∧
      ¬ ∃ out, newDF.valuesFor codec 1 = some out ∧
        NewestMerge (oldBlocks codec (some twoBlockFile) 1).flatten
          (straddlingBatch.valuesFor 1) out := by
  have hold : ∀ d ∈ some twoBlockFile, d.WellFormed codec (fun _ => FieldType.int64) := by
    rintro d ⟨⟩
    exact twoBlockFile_wellFormed
  obtain ⟨newDF, hnew, hvals⟩ := @rewriteFile_valuesFor codec _ 2 (some twoBlockFile)
    (by decide) hold straddlingBatch
    (mergeRoundTrips_of_exact (by decide) hold straddlingBatch codec_exact) (by decide)
  have hstored : newDF.valuesFor codec 1 =
      some [intValue 0, intValue 1, intValue 2, intValue 10] := by
    rw [hvals 1]
    decide +kernel
  refine ⟨newDF, hnew, hstored, ?_⟩
  rintro ⟨out, hout, hmerge⟩
  rw [hstored, Option.some.injEq] at hout
  have hmem : intValue 20 ∈ out := (hmerge.mem_iff _).mpr (.inl (by decide))
  subst hout
  exact absurd hmem (by decide)

/-- With three points per block nothing is overfull, and the same batch is
merged. -/
theorem rewriteFile_keeps_points :
    ∃ newDF, rewriteFile codec 3 (some twoBlockFile) straddlingBatch.entries = some (some newDF) ∧
      ∃ out, newDF.valuesFor codec 1 = some out ∧
        NewestMerge (oldBlocks codec (some twoBlockFile) 1).flatten
          (straddlingBatch.valuesFor 1) out := by
  have hold : ∀ d ∈ some twoBlockFile, d.WellFormed codec (fun _ => FieldType.int64) := by
    rintro d ⟨⟩
    exact twoBlockFile_wellFormed
  obtain ⟨newDF, hnew, hiff⟩ := @rewriteFile_newestMerge_iff codec _ 3 _ codec_exact
    (by decide) hold straddlingBatch (by decide)
  refine ⟨newDF, hnew, (hiff 1).mpr ?_⟩
  rw [← combined_eq_iff (isRun_oldBlocks hold 1).1 (straddlingBatch.valuesFor_spec 1).1]
  decide +kernel

end AndyEnv.Tsm1
