import AndyEnv.Tsm1.Mmap
import AndyEnv.Tsm1.SmallFiles

/-!
# Rewriting a file without the deleted ids

`writeNewFileExcludeDeletes` copies the blocks of a data file that are not
deleted. It writes the index from the positions of the blocks in the old file, so
after a block that was left out the index of the new file is wrong.
-/

namespace AndyEnv.Tsm1

open List Bytes

/-! ## The loop -/

namespace DataFile

/-- The loop of `writeNewFileExcludeDeletes`: the bytes that it writes, and the ids
with their positions. -/
def excludeLoop (d : DataFile) (deletes : UInt64 → Bool) :
    ℕ → UInt32 → UInt64 → Option (Bytes × List (UInt64 × UInt32))
  | 0, _, _ => none
  | fuel + 1, currentPosition, currentID =>
    if currentPosition < d.indexPosition then do
      let id ← d.idAt currentPosition
      let length ← d.blockLength currentPosition
      let newPosition := currentPosition + 12 + length
      if deletes id then excludeLoop d deletes fuel newPosition currentID
      else
        let block ← d.slice currentPosition newPosition
        let rest ← excludeLoop d deletes fuel newPosition id
        return (block ++ rest.1, if id ≠ currentID then (id, currentPosition) :: rest.2 else rest.2)
    else some ([], [])

/-- `writeNewFileExcludeDeletes`: the bytes of the new file. -/
def writeNewFileExcludeDeletes (deletes : UInt64 → Bool) (oldDF : DataFile) : Option Bytes := do
  let r ← oldDF.excludeLoop deletes (oldDF.blocks.length + 1) (UInt32.ofNat fileHeaderSize) 0
  return putUint32 magicNumber ++ (r.1 ++ (r.2.flatMap entryBytes ++
    (putUint64 oldDF.minTime.toUInt64 ++ (putUint64 oldDF.maxTime.toUInt64 ++
      putUint32 (UInt32.ofNat r.2.length)))))

/-- The file that is written: the blocks that stay, and their entries of the old
index. -/
def purged (deletes : UInt64 → Bool) (d : DataFile) : DataFile where
  blocks := d.blocks.filter (fun b => !deletes b.id)
  index := d.index.filter (fun e => !deletes e.1)
  minTime := d.minTime
  maxTime := d.maxTime

section Loop

variable {C : BlockCodec} {ty : UInt64 → FieldType} {d : DataFile} {deletes : UInt64 → Bool}

theorem WellFormed.slice_bytes (h : d.WellFormed C ty) {pre post : List Block} {b : Block}
    (hb : d.blocks = pre ++ b :: post) :
    d.slice (positionAfter pre) (positionAfter (pre ++ [b])) = some b.bytes := by
  obtain ⟨rest, hmmap⟩ := WellFormed.mmap_split hb
  have hblocks : d.blocks = (pre ++ [b]) ++ post := by rw [hb, append_assoc]; rfl
  refine slice_eq _ _ hmmap ?_ ?_
  · rw [h.toNat_positionAfter hb, WellFormed.length_before]
  · rw [h.toNat_positionAfter hblocks, WellFormed.length_before, blocksSize_append, blocksSize_cons,
      blocksSize_nil, b.length_bytes]
    omega

/-- **What the loop writes**, by induction on the blocks that are left. `currentID` is
the id of the block before, if that block stays. -/
theorem WellFormed.excludeLoop_eq (h : d.WellFormed C ty) : ∀ {rest pre : List Block} {fuel : ℕ}
    (currentID : UInt64) (prev : Option UInt64), d.blocks = pre ++ rest → rest.length < fuel →
    (∀ b ∈ rest, currentID ≤ b.id) →
    (∀ b ∈ rest, deletes b.id = false → (currentID = b.id ↔ prev = some b.id)) →
    d.excludeLoop deletes fuel (positionAfter pre) currentID =
      some ((rest.filter (fun b => !deletes b.id)).flatMap Block.bytes,
        (indexFrom prev (fileHeaderSize + blocksSize pre) rest).filter (fun e => !deletes e.1))
  | [], pre, fuel + 1, _, _, hblocks, _, _, _ => by
    have hend : ¬ positionAfter pre < d.indexPosition := by
      rw [indexPosition_eq, hblocks, append_nil]
      exact UInt32.lt_irrefl _
    rw [excludeLoop, if_neg hend]
    rfl
  | b :: rest, pre, fuel + 1, currentID, prev, hblocks, hfuel, hle, hprev => by
    have hsorted := h.sorted
    rw [hblocks, pairwise_append] at hsorted
    have hb := (pairwise_cons.mp hsorted.2.1).1
    have hlt : positionAfter pre < d.indexPosition := by
      rw [← UInt32.not_le, h.indexPosition_le_iff hblocks]
      exact cons_ne_nil _ _
    obtain ⟨hid, hlength⟩ := h.header_block hblocks
    have hnext := WellFormed.next_position pre b
    have hblocks' : d.blocks = (pre ++ [b]) ++ rest := by rw [hblocks, append_assoc]; rfl
    have hoff : fileHeaderSize + blocksSize (pre ++ [b]) = fileHeaderSize + blocksSize pre + b.size := by
      rw [blocksSize_append, blocksSize_cons, blocksSize_nil]
      omega
    rw [excludeLoop, if_pos hlt]
    simp only [hid, hlength, Option.bind_eq_bind, Option.bind_some, hnext]
    by_cases hdel : deletes b.id = true
    · -- a block that stays after this one has another id
      have hother : ∀ x ∈ rest, deletes x.id = false → x.id ≠ b.id := by
        intro x _ hkeep heq
        rw [heq, hdel] at hkeep
        cases hkeep
      have ih := h.excludeLoop_eq currentID (some b.id) hblocks'
        (Nat.lt_of_succ_lt_succ hfuel) (forall_mem_cons.mp hle).2 (fun x hx hkeep => by
          refine ⟨fun heq => ?_, fun heq => absurd (Option.some.inj heq).symm (hother x hx hkeep)⟩
          have hge := hle b mem_cons_self
          rw [heq] at hge
          exact absurd (UInt64.le_antisymm hge (hb x hx)) (hother x hx hkeep))
      have hindex : (indexFrom prev (fileHeaderSize + blocksSize pre) (b :: rest)).filter
          (fun e => !deletes e.1) =
          (indexFrom (some b.id) (fileHeaderSize + blocksSize pre + b.size) rest).filter
            (fun e => !deletes e.1) := by
        rw [indexFrom]
        split
        · rfl
        · rw [filter_cons, if_neg (by simp [hdel])]
      rw [if_pos hdel, ih, hindex, hoff, filter_cons, if_neg (by simp [hdel])]
    · have hkeep : deletes b.id = false := Bool.eq_false_iff.mpr hdel
      have ih := h.excludeLoop_eq b.id (some b.id) hblocks'
        (Nat.lt_of_succ_lt_succ hfuel) hb (fun x _ _ => ⟨congrArg some, Option.some.inj⟩)
      have hindex : (indexFrom prev (fileHeaderSize + blocksSize pre) (b :: rest)).filter
          (fun e => !deletes e.1) =
          if b.id ≠ currentID then (b.id, positionAfter pre) ::
            (indexFrom (some b.id) (fileHeaderSize + blocksSize pre + b.size) rest).filter
              (fun e => !deletes e.1)
          else (indexFrom (some b.id) (fileHeaderSize + blocksSize pre + b.size) rest).filter
            (fun e => !deletes e.1) := by
        have hiff := hprev b mem_cons_self hkeep
        rw [indexFrom]
        by_cases hsame : prev = some b.id
        · rw [if_pos hsame, if_neg (fun hne => hne (hiff.mpr hsame).symm)]
        · rw [if_neg hsame, if_pos (fun heq => hsame (hiff.mp heq.symm)), filter_cons,
            if_pos (by simp [hkeep])]
          rfl
      rw [if_neg hdel, h.slice_bytes hblocks]
      simp only [Option.bind_some, ih]
      have hfilter : (b :: rest).filter (fun x => !deletes x.id) = b :: rest.filter (fun x => !deletes x.id) := by
        rw [filter_cons, if_pos (by simp [hkeep])]
      rw [hindex, hoff, hfilter, flatMap_cons]
      rfl

/-- **The bytes that are written.** -/
theorem WellFormed.writeNewFileExcludeDeletes_eq (h : d.WellFormed C ty) (deletes : UInt64 → Bool) :
    d.writeNewFileExcludeDeletes deletes = some (d.purged deletes).mmap := by
  have hloop : d.excludeLoop deletes (d.blocks.length + 1) (UInt32.ofNat fileHeaderSize) 0 =
      some ((d.purged deletes).blocks.flatMap Block.bytes, (d.purged deletes).index) := by
    have hindex : (d.purged deletes).index =
        (indexFrom none (fileHeaderSize + blocksSize []) d.blocks).filter (fun e => !deletes e.1) := by
      rw [purged, h.index_eq]
      rfl
    rw [hindex]
    refine h.excludeLoop_eq 0 none (nil_append _).symm (Nat.lt_succ_self _) ?_ ?_
    · intro b _
      exact UInt64.zero_le
    · intro b hb _
      exact ⟨fun heq => absurd heq.symm (h.id_ne b hb).1, nofun⟩
  rw [writeNewFileExcludeDeletes, hloop]
  rfl

end Loop

/-! ## The positions -/

/-- The new file has the blocks that stay, their ids in the index, and finds the
first block of each of them. -/
structure Purges (deletes : UInt64 → Bool) (d new : DataFile) : Prop where
  blocks : new.blocks = d.blocks.filter (fun b => !deletes b.id)
  ids : ∀ id, id ∈ new.index.map Prod.fst ↔ ∃ b ∈ new.blocks, b.id = id
  nodup : (new.index.map Prod.fst).Nodup
  position : ∀ pre b post, new.blocks = pre ++ b :: post → (∀ x ∈ pre, x.id ≠ b.id) →
    new.startingPositionForID b.id = some (positionAfter pre)

/-- The ids that are deleted come after those that stay. -/
def DeletedLast (deletes : UInt64 → Bool) (d : DataFile) : Prop :=
  ∀ a ∈ d.blocks, ∀ b ∈ d.blocks, deletes a.id = true → deletes b.id = false → b.id < a.id

section Positions

variable {C : BlockCodec} {ty : UInt64 → FieldType} {d : DataFile} {deletes : UInt64 → Bool}

theorem WellFormed.purged_ascending (h : d.WellFormed C ty) :
    (d.purged deletes).index.Pairwise (fun p q => p.1 < q.1) :=
  h.index_ascending.sublist filter_sublist

theorem blocksSize_filter (p : Block → Bool) (bs : List Block) :
    blocksSize bs = blocksSize (bs.filter p) + blocksSize (bs.filter (fun b => !p b)) := by
  induction bs with
  | nil => rfl
  | cons b bs ih =>
    cases hp : p b with
    | true => simp [hp, ih, add_assoc]
    | false =>
      simp only [filter_cons, hp, Bool.false_eq_true, if_false, Bool.not_false, if_true, blocksSize_cons]
      omega

theorem purged_length_le (deletes : UInt64 → Bool) (d : DataFile) : (d.purged deletes).length ≤ d.length := by
  have hblocks := blocksSize_filter (fun b => !deletes b.id) d.blocks
  have hindex := length_filter_le (fun e : UInt64 × UInt32 => !deletes e.1) d.index
  simp only [DataFile.length, purged, seriesHeaderSize]
  omega

variable {pre post : List Block} {b : Block}

/-- **The new file finds a block where it was in the old file.** -/
theorem WellFormed.startingPositionForID_purged (h : d.WellFormed C ty)
    (hblocks : d.blocks = pre ++ b :: post) (hpre : ∀ x ∈ pre, x.id ≠ b.id) (hkeep : deletes b.id = false) :
    (d.purged deletes).startingPositionForID b.id = some (positionAfter pre) := by
  have hmem : (b.id, positionAfter pre) ∈ d.index := by
    rw [h.index_eq, hblocks]
    exact mem_indexFrom hpre (fun _ => nofun)
  have hkept : (b.id, positionAfter pre) ∈ (d.purged deletes).index :=
    mem_filter.mpr ⟨hmem, by simp [hkeep]⟩
  rw [startingPositionForID_of_ascending (lt_of_le_of_lt (purged_length_le deletes d) h.length_lt)
    h.purged_ascending, idToPosition, lookup_reverse_of_mem h.purged_ascending hkept]
  rfl

theorem exists_first {bs : List Block} (hb : b ∈ bs) :
    ∃ pre c post, bs = pre ++ c :: post ∧ c.id = b.id ∧ ∀ x ∈ pre, x.id ≠ b.id := by
  have hsome : (bs.find? (fun x => x.id == b.id)).isSome := List.find?_isSome.mpr ⟨b, hb, beq_self_eq_true b.id⟩
  obtain ⟨c, hfind⟩ := Option.isSome_iff_exists.mp hsome
  obtain ⟨hc, pre, post, hbs, hpre⟩ := List.find?_eq_some_iff_append.mp hfind
  refine ⟨pre, c, post, hbs, eq_of_beq hc, fun x hx heq => ?_⟩
  have hne := hpre x hx
  rw [heq, beq_self_eq_true] at hne
  cases hne

section

variable (h : d.WellFormed C ty)
include h

theorem WellFormed.mem_index_purged (id : UInt64) :
    id ∈ (d.purged deletes).index.map Prod.fst ↔ ∃ b ∈ (d.purged deletes).blocks, b.id = id := by
  have hids := @WellFormed.mem_indexIDs id C ty d h
  rw [indexIDs, mem_dedup] at hids
  simp only [purged, mem_map, mem_filter]
  constructor
  · rintro ⟨e, ⟨he, hkeep⟩, rfl⟩
    obtain ⟨b, hb, heq⟩ := hids.mp (mem_map_of_mem he)
    exact ⟨b, ⟨hb, by rw [heq]; exact hkeep⟩, heq⟩
  · rintro ⟨b, ⟨hb, hkeep⟩, rfl⟩
    obtain ⟨e, he, heq⟩ := mem_map.mp (hids.mpr ⟨b, hb, rfl⟩)
    exact ⟨e, ⟨he, by rw [heq]; exact hkeep⟩, heq⟩

/-- With the deleted ids last, no block before one that stays is left out. -/
theorem WellFormed.split_of_deletedLast (hlast : d.DeletedLast deletes)
    (hnew : (d.purged deletes).blocks = pre ++ b :: post) :
    ∃ post', d.blocks = pre ++ b :: post' := by
  obtain ⟨l₁, l₂, hblocks, rfl, htail⟩ := filter_eq_append_iff.mp hnew
  obtain ⟨l₃, l₄, rfl, hdel, hkeep, -⟩ := filter_eq_cons_iff.mp htail
  have hb : b ∈ d.blocks := by
    rw [hblocks]
    exact mem_append_right _ (mem_append_right _ mem_cons_self)
  have hsorted := h.sorted
  rw [hblocks, ← append_assoc, pairwise_append] at hsorted
  have hbefore : ∀ x ∈ l₁ ++ l₃, deletes x.id = false := by
    intro x hx
    have hle : x.id ≤ b.id := hsorted.2.2 x hx b mem_cons_self
    have hmem : x ∈ d.blocks := by
      rw [hblocks, ← append_assoc]
      exact mem_append_left _ hx
    refine Bool.eq_false_iff.mpr (fun hdx => ?_)
    exact UInt64.not_lt.mpr hle (hlast x hmem b hb hdx (by simpa using hkeep))
  have hl₃ : l₃ = [] := by
    refine eq_nil_iff_forall_not_mem.mpr (fun x hx => hdel x hx ?_)
    simp [hbefore x (mem_append_right _ hx)]
  have hl₁ : l₁.filter (fun x => !deletes x.id) = l₁ := by
    refine filter_eq_self.mpr (fun x hx => ?_)
    simp [hbefore x (mem_append_left _ hx)]
  rw [hl₁]
  exact ⟨l₄, by rw [hblocks, hl₃]; rfl⟩

theorem WellFormed.purges_of_deletedLast (hlast : d.DeletedLast deletes) :
    Purges deletes d (d.purged deletes) where
  blocks := rfl
  ids := h.mem_index_purged
  nodup := pairwise_map.mpr (h.purged_ascending.imp UInt64.ne_of_lt)
  position := by
    intro pre b post hnew hpre
    obtain ⟨post', hblocks⟩ := h.split_of_deletedLast hlast hnew
    have hb : b ∈ (d.purged deletes).blocks := by
      rw [hnew]
      exact mem_append_right _ mem_cons_self
    exact h.startingPositionForID_purged hblocks hpre (by simpa using (mem_filter.mp hb).2)

/-- A position that is right leaves no room for a deleted block before it. -/
theorem WellFormed.deletedLast_of_purges
    (hpurges : Purges deletes d (d.purged deletes)) : d.DeletedLast deletes := by
  intro a ha b hb hdel hkeep
  obtain ⟨pre, c, post, hblocks, hc, hpre⟩ := exists_first hb
  rw [← hc] at hpre hkeep ⊢
  have hnew : (d.purged deletes).blocks =
      pre.filter (fun x => !deletes x.id) ++ c :: post.filter (fun x => !deletes x.id) := by
    rw [purged, hblocks, filter_append, filter_cons, if_pos (by simp [hkeep])]
  have hpos : positionAfter pre = positionAfter (pre.filter (fun x => !deletes x.id)) := by
    refine Option.some.inj (((h.startingPositionForID_purged hblocks hpre hkeep).symm).trans ?_)
    exact hpurges.position _ c _ hnew (fun x hx => hpre x (mem_of_mem_filter hx))
  have hsplit := blocksSize_filter (fun x => !deletes x.id) pre
  have hpreSize := h.toNat_positionAfter hblocks
  have hlt := h.blocks_lt
  rw [hblocks, blocksSize_append] at hlt
  rw [hpos, positionAfter, UInt32.toNat_ofNat_of_lt' (by simp only [UInt32.size]; omega)] at hpreSize
  -- so `a` is not before the first block of `b.id`
  have hnot : a ∉ pre := by
    intro hmem
    have hmem' : a ∈ pre.filter (fun x => !!deletes x.id) := mem_filter.mpr ⟨hmem, by simp [hdel]⟩
    obtain ⟨xs, ys, hxs⟩ := append_of_mem hmem'
    have hsize := a.size_pos
    rw [hxs, blocksSize_append, blocksSize_cons] at hsplit
    omega
  have hne : a ≠ c := by
    rintro rfl
    rw [hdel] at hkeep
    cases hkeep
  have hpost : a ∈ post := by
    rw [hblocks] at ha
    exact (mem_cons.mp ((mem_append.mp ha).resolve_left hnot)).resolve_left hne
  have hsorted := h.sorted
  rw [hblocks, pairwise_append] at hsorted
  have hle := (pairwise_cons.mp hsorted.2.1).1 a hpost
  refine UInt64.lt_of_le_of_ne hle (fun heq => ?_)
  rw [heq, hdel] at hkeep
  cases hkeep

end

/-- **Deleted ids are purged exactly when they come last.** The new file is written
for every set of deleted ids, and it always holds the blocks that stay; its index
is right if and only if no deleted block comes before one that stays. -/
theorem writeNewFileExcludeDeletes_iff {C : BlockCodec} {ty : UInt64 → FieldType} {d : DataFile}
    (h : d.WellFormed C ty) (deletes : UInt64 → Bool) :
    d.writeNewFileExcludeDeletes deletes = some (d.purged deletes).mmap ∧
      (Purges deletes d (d.purged deletes) ↔ d.DeletedLast deletes) :=
  ⟨h.writeNewFileExcludeDeletes_eq deletes, h.deletedLast_of_purges, h.purges_of_deletedLast⟩

def twoIDs : DataFile where
  blocks := [1, 2].flatMap (fun id => encodeRun smallCodec id [boolsAt [10]])
  index := indexOf ([1, 2].flatMap (fun id => encodeRun smallCodec id [boolsAt [10]]))
  minTime := 10
  maxTime := 10

theorem twoIDs_wellFormed : twoIDs.WellFormed smallCodec (fun _ => .bool) := by
  refine @wellFormed_of_layout smallCodec _ _ [1, 2] (fun _ => [boolsAt [10]]) (by decide) ?_
    (fun _ _ => ⟨fun vs hvs => ?_, pairwise_singleton _ _⟩) rfl rfl (by decide +kernel)
  · rw [forall_mem_cons, forall_mem_singleton]
    decide
  · rw [mem_singleton.mp hvs]
    exact ⟨roundTrips_boolsAt (by decide +kernel), boolsAt_ofType _⟩

theorem writeNewFileExcludeDeletes_last :
    Purges (fun id => id == 2) twoIDs (twoIDs.purged (fun id => id == 2)) := by
  refine (writeNewFileExcludeDeletes_iff twoIDs_wellFormed (fun id => id == 2)).2.mpr ?_
  simp [DeletedLast, twoIDs, encodeRun]

/-- Without the first id, the second is at offset 4; the index of the new file has
the offset of the old one. -/
theorem writeNewFileExcludeDeletes_stale : twoIDs.WellFormed smallCodec (fun _ => .bool) ∧
      twoIDs.writeNewFileExcludeDeletes (fun id => id == 1) = some (twoIDs.purged (fun id => id == 1)).mmap ∧
      (twoIDs.purged (fun id => id == 1)).blocks.map Block.id = [2] ∧
      (twoIDs.purged (fun id => id == 1)).startingPositionForID 2 ≠ some (positionAfter []) ∧
      ¬ Purges (fun id => id == 1) twoIDs (twoIDs.purged (fun id => id == 1)) := by
  refine ⟨twoIDs_wellFormed, by decide +kernel, by decide +kernel, by decide +kernel, fun h => ?_⟩
  have hpos := h.position [] _ [] rfl (fun _ hx => absurd hx not_mem_nil)
  revert hpos
  decide +kernel

end Positions

end DataFile

end AndyEnv.Tsm1
