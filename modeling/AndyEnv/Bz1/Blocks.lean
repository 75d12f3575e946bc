import AndyEnv.Tsdb.DedupeEntries
import AndyEnv.Tsm1.Codec.Strings

/-!
# The blocks of a series (`bz1.go`)

A series has a bucket. A block of it has the first time as its key; its value is
the last time and the compressed entries. `writeIndex` appends blocks if it can,
and otherwise unpacks the blocks in the range of the new points and writes them
again.

The bucket is the ordered map of bolt. Keys are big-endian, so the order of the
keys is the order of the words.
-/

namespace AndyEnv.Bz1

open Tsdb Bytes Entry Keyed
open Option (bind_eq_bind bind_some)
open Tsm1.Codec (Snappy)
open List

/-! ## Entries -/

def entryHeaderSize : ℕ := 8 + 4

def marshalEntry (timestamp : Int64) (data : Bytes) : Bytes :=
  putUint64 timestamp.toUInt64 ++ (putUint32 (UInt32.ofNat data.length) ++ data)

/-- The size of an entry's data; it panics without a header. -/
def entryDataSize (v : Bytes) : Option ℕ :=
  if entryHeaderSize ≤ v.length then some (uint32 (v.drop 8)).toNat else none

def splitLoop : ℕ → Bytes → Option (List Bytes)
  | 0, _ => none
  | fuel + 1, b =>
    if b = [] then some []
    else do
      let dataSize ← entryDataSize b
      if entryHeaderSize + dataSize ≤ b.length then do
        let a ← splitLoop fuel (b.drop (entryHeaderSize + dataSize))
        return b.take (entryHeaderSize + dataSize) :: a
      else none

def splitEntries (b : Bytes) : Option (List Bytes) := splitLoop (b.length + 1) b

/-- `int64(btou64(p[0:8]))`. -/
def timestamp (p : Bytes) : Int64 := (uint64 p).toInt64

/-! ## Buckets -/

abbrev Bucket : Type := List (UInt64 × Bytes)

namespace Bucket

def put (key : UInt64) (value : Bytes) (bkt : Bucket) : Bucket :=
  upsert (fun kv : UInt64 × Bytes => kv.1.toNat) (key, value) bkt

end Bucket

def blockMin (kv : UInt64 × Bytes) : Int64 := kv.1.toInt64

def blockMax (kv : UInt64 × Bytes) : Int64 := (uint64 kv.2).toInt64

section

variable (Z : Snappy) (blockSize : ℕ)

/-- The loop of `writeBlocks`: the block that is being filled, and its range. -/
def writeBlocksLoop (block : Bytes) (tmin tmax : Int64) : List Bytes → Bucket → Bucket
  | [], bkt => bkt
  | p :: a, bkt =>
    let t := timestamp p
    let tmin := if t < tmin then t else tmin
    let tmax := if t > tmax then t else tmax
    let block := block ++ p
    if blockSize ≤ block.length ∨ a = [] then
      writeBlocksLoop [] Int64.maxValue Int64.minValue a
        (bkt.put tmin.toUInt64 (putUint64 tmax.toUInt64 ++ Z.encode block))
    else writeBlocksLoop block tmin tmax a bkt

def writeBlocks (a : List Bytes) (bkt : Bucket) : Bucket :=
  writeBlocksLoop Z blockSize [] Int64.maxValue Int64.minValue a bkt

/-- The loop over the blocks in the range of the new points: the entries that stay,
and the blocks that are left. -/
def unpackRange (m : List Int64) (tmin tmax : Int64) : Bucket → Option (List Bytes × Bucket)
  | [] => some ([], [])
  | kv :: bkt =>
    if blockMax kv < tmin then do
      let (existing, rest) ← unpackRange m tmin tmax bkt
      return (existing, kv :: rest)
    else if blockMin kv > tmax then some ([], kv :: bkt)
    else do
      let buf ← Z.decode (kv.2.drop 8)
      let entries ← splitEntries buf
      let (existing, rest) ← unpackRange m tmin tmax bkt
      return (entries.filter (fun entry => !m.contains (timestamp entry)) ++ existing, rest)

/-- `writeIndex`, for the bucket of one key. -/
def writeIndex (a : List Bytes) (bkt : Bucket) : Option Bucket :=
  if a = [] then some bkt
  else do
    let a ← dedupeEntries a
    let a := a.map (fun p => marshalEntry (timestamp p) (p.drop 8))
    let tmin ← a.head?.map timestamp
    let tmax ← a.getLast?.map timestamp
    -- appending, without blocks or after the last one
    if (bkt.getLast?.map blockMax).all (fun last => last < tmin) then
      return writeBlocks Z blockSize a bkt
    else
      let (existing, bkt) ← unpackRange Z (a.map timestamp) tmin tmax bkt
      return writeBlocks Z blockSize (sortSlices (existing ++ a)) bkt

def writeAll (batches : List (List Entry)) (bkt : Bucket) : Option Bucket :=
  batches.foldlM (fun bkt es => writeIndex Z blockSize (es.map Entry.slice) bkt) bkt

end

/-! ## Entries in bytes -/

def entryBytes (e : Entry) : Bytes := marshalEntry e.time e.data

/-- The entry of which these bytes are the slice. -/
def withSize (e : Entry) : Entry := ⟨e.time, putUint32 (UInt32.ofNat e.data.length) ++ e.data⟩

section

variable (e : Entry)

@[simp] theorem length_entryBytes : (entryBytes e).length = entryHeaderSize + e.data.length := by
  simp only [entryBytes, marshalEntry, length_append, length_putUint64, length_putUint32,
    entryHeaderSize]
  omega

theorem entryBytes_ne_nil : entryBytes e ≠ [] := by
  refine ne_nil_of_length_pos ?_
  rw [length_entryBytes, entryHeaderSize]
  omega

@[simp] theorem timestamp_entryBytes (rest : Bytes) : timestamp (entryBytes e ++ rest) = e.time := by
  rw [timestamp, entryBytes, marshalEntry, append_assoc, uint64_putUint64_append,
    Int64.toInt64_toUInt64]

theorem timestamp_bytes : timestamp (entryBytes e) = e.time := by
  have h := timestamp_entryBytes e []
  rwa [append_nil] at h

@[simp] theorem timestamp_slice : timestamp e.slice = e.time := by
  rw [timestamp, uint64_slice, Int64.toInt64_toUInt64]

end

/-- A time that is not negative, and data with a size that fits the header. -/
structure Fits (e : Entry) : Prop where
  nonneg : 0 ≤ e.time
  short : e.data.length < 2 ^ 32

variable {c : List Entry} {e : Entry} {es : List Entry}

theorem entryDataSize_bytes (h : e.data.length < 2 ^ 32) (rest : Bytes) :
    entryDataSize (entryBytes e ++ rest) = some e.data.length := by
  have hlen : entryHeaderSize ≤ (entryBytes e ++ rest).length := by
    rw [length_append, length_entryBytes]
    omega
  rw [entryDataSize, if_pos hlen, entryBytes, marshalEntry, append_assoc, drop_putUint64_append,
    append_assoc, uint32_putUint32_append, UInt32.toNat_ofNat_of_lt' h]

theorem splitLoop_flatMap (h : ∀ e ∈ es, e.data.length < 2 ^ 32) {fuel : ℕ}
    (hfuel : es.length < fuel) : splitLoop fuel (es.flatMap entryBytes) = some (es.map entryBytes) := by
  induction es generalizing fuel with
  | nil =>
    obtain ⟨n, rfl⟩ := Nat.exists_eq_succ_of_ne_zero (Nat.ne_of_gt hfuel)
    rfl
  | cons e es ih =>
    obtain ⟨n, rfl⟩ := Nat.exists_eq_succ_of_ne_zero (Nat.ne_of_gt (Nat.zero_lt_of_lt hfuel))
    have hne : entryBytes e ++ es.flatMap entryBytes ≠ [] :=
      append_ne_nil_of_left_ne_nil (entryBytes_ne_nil e) _
    have hlen := length_entryBytes e
    have hle : entryHeaderSize + e.data.length ≤ (entryBytes e ++ es.flatMap entryBytes).length := by
      rw [length_append]
      omega
    have hrest := ih (forall_mem_cons.mp h).2 (Nat.lt_of_succ_lt_succ hfuel)
    rw [flatMap_cons, splitLoop, if_neg hne, entryDataSize_bytes (h e mem_cons_self)]
    simp only [bind_eq_bind, bind_some, if_pos hle]
    rw [← hlen, drop_left, take_left, hrest]
    rfl

theorem length_le_flatMap (es : List Entry) : es.length ≤ (es.flatMap entryBytes).length := by
  induction es with
  | nil => exact le_refl 0
  | cons e es ih =>
    rw [flatMap_cons, length_append, length_entryBytes, length_cons, entryHeaderSize]
    omega

/-- **The entries of a block come apart.** -/
theorem splitEntries_flatMap (h : ∀ e ∈ es, e.data.length < 2 ^ 32) :
    splitEntries (es.flatMap entryBytes) = some (es.map entryBytes) :=
  splitLoop_flatMap h (Nat.lt_succ_of_le (length_le_flatMap es))

/-! ## Buckets of entries -/

/-- The first and the last time of the entries of a block. -/
def firstTime (c : List Entry) : Int64 := (c.head?.map Entry.time).getD 0

def lastTime (c : List Entry) : Int64 := (c.getLast?.map Entry.time).getD 0

def blockOf (Z : Snappy) (c : List Entry) : UInt64 × Bytes :=
  ((firstTime c).toUInt64, putUint64 (lastTime c).toUInt64 ++ Z.encode (c.flatMap entryBytes))

@[simp] theorem blockMin_blockOf (Z : Snappy) (c : List Entry) : blockMin (blockOf Z c) = firstTime c :=
  Int64.toInt64_toUInt64 _

@[simp] theorem blockMax_blockOf (Z : Snappy) (c : List Entry) : blockMax (blockOf Z c) = lastTime c := by
  rw [blockMax, blockOf, uint64_putUint64_append, Int64.toInt64_toUInt64]

theorem decode_blockOf {Z : Snappy} (hZ : Z.RoundTrip) (c : List Entry) :
    Z.decode ((blockOf Z c).2.drop 8) = some (c.flatMap entryBytes) := by
  rw [blockOf, drop_putUint64_append, hZ]

/-- A bucket of blocks with these entries, in order. -/
structure Stores (Z : Snappy) (bkt : Bucket) (chunks : List (List Entry)) : Prop where
  blocks : bkt = chunks.map (blockOf Z)
  nonempty : ∀ c ∈ chunks, c ≠ []
  ascending : Ascending Entry.key chunks.flatten
  fits : ∀ e ∈ chunks.flatten, Fits e

theorem firstTime_mem (hne : c ≠ []) : ∃ e ∈ c, firstTime c = e.time := by
  obtain ⟨e, es, rfl⟩ := exists_cons_of_ne_nil hne
  exact ⟨e, mem_cons_self, rfl⟩

theorem lastTime_mem (hne : c ≠ []) : ∃ e ∈ c, lastTime c = e.time := by
  refine ⟨c.getLast hne, getLast_mem hne, ?_⟩
  rw [lastTime, List.getLast?_eq_some_getLast hne]
  rfl

theorem time_lt_of_key_lt {a b : Entry} (ha : 0 ≤ a.time) (hb : 0 ≤ b.time) (h : a.key < b.key) :
    a.time < b.time :=
  (key_lt_iff ha hb).mp h

section

variable (hasc : Ascending Entry.key c) (hfits : ∀ e ∈ c, Fits e) (he : e ∈ c)
include hasc hfits he

theorem firstTime_le : firstTime c ≤ e.time := by
  cases c with
  | nil => exact absurd he not_mem_nil
  | cons x xs =>
    rcases mem_cons.mp he with rfl | he'
    · exact Int64.le_refl _
    · exact Int64.le_of_lt (time_lt_of_key_lt (hfits x mem_cons_self).nonneg (hfits e he).nonneg
        ((ascending_cons.mp hasc).1 e he'))

theorem le_lastTime : e.time ≤ lastTime c := by
  induction c using List.reverseRecOn with
  | nil => exact absurd he not_mem_nil
  | append_singleton c x _ =>
    have hlast : lastTime (c ++ [x]) = x.time := by simp [lastTime]
    rw [hlast]
    rcases mem_append.mp he with he' | he'
    · refine Int64.le_of_lt (time_lt_of_key_lt (hfits e he).nonneg (hfits x (by simp)).nonneg ?_)
      exact (ascending_append.mp hasc).2.2 e he' x mem_cons_self
    · rw [mem_singleton.mp he']
      exact Int64.le_refl _

end

theorem exists_key_blockOf (Z : Snappy) (hne : c ≠ []) :
    ∃ e ∈ c, (blockOf Z c).1.toNat = e.key := by
  obtain ⟨e, he, hfirst⟩ := firstTime_mem hne
  exact ⟨e, he, by rw [blockOf, hfirst]; rfl⟩

theorem Bucket.put_blockOf {Z : Snappy} {A C : List (List Entry)} (hA : ∀ a ∈ A, a ≠ [])
    (hc : c ≠ []) (hC : ∀ a ∈ C, a ≠ [])
    (hasc : Ascending Entry.key (A.flatten ++ (c ++ C.flatten))) :
    Bucket.put (blockOf Z c).1 (blockOf Z c).2 ((A ++ C).map (blockOf Z)) = (A ++ c :: C).map (blockOf Z) := by
  obtain ⟨-, hcC, hAcC⟩ := ascending_append.mp hasc
  obtain ⟨-, -, hcC⟩ := ascending_append.mp hcC
  obtain ⟨e, he, hkey⟩ := exists_key_blockOf Z hc
  rw [Bucket.put, map_append, map_append, map_cons]
  refine upsert_append ?_ ?_
  · rintro kv hkv
    obtain ⟨a, ha, rfl⟩ := mem_map.mp hkv
    obtain ⟨x, hx, hxkey⟩ := exists_key_blockOf Z (hA a ha)
    rw [hxkey, hkey]
    exact hAcC x (mem_flatten.mpr ⟨a, ha, hx⟩) e (mem_append_left _ he)
  · rintro kv hkv
    obtain ⟨a, ha, rfl⟩ := mem_map.mp hkv
    obtain ⟨x, hx, hxkey⟩ := exists_key_blockOf Z (hC a ha)
    rw [hxkey, hkey]
    exact hcC e he x (mem_flatten.mpr ⟨a, ha, hx⟩)

namespace Stores

variable {Z : Snappy} {bkt : Bucket} {chunks pre post : List (List Entry)} (h : Stores Z bkt chunks)

theorem tail (h : Stores Z bkt (c :: chunks)) : Stores Z (chunks.map (blockOf Z)) chunks :=
  ⟨rfl, fun x hx => h.nonempty x (mem_cons_of_mem c hx), (ascending_append.mp h.ascending).2.1,
    fun e he => h.fits e (mem_append_right c he)⟩

include h

theorem chunk_ascending (hc : c ∈ chunks) : Ascending Entry.key c :=
  (pairwise_flatten.mp h.ascending).1 c hc

theorem chunk_fits (hc : c ∈ chunks) : ∀ e ∈ c, Fits e :=
  fun e he => h.fits e (mem_flatten.mpr ⟨c, hc, he⟩)

theorem time_lt_firstTime
    (hchunks : chunks = pre ++ c :: post) : ∀ e ∈ pre.flatten, e.time < firstTime c := by
  intro e he
  subst hchunks
  have hasc := h.ascending
  rw [flatten_append, flatten_cons] at hasc
  obtain ⟨x, hx, hfirst⟩ := firstTime_mem (h.nonempty c (by simp))
  rw [hfirst]
  refine time_lt_of_key_lt (h.fits e (by simp [he])).nonneg (h.chunk_fits (by simp) x hx).nonneg ?_
  exact (ascending_append.mp hasc).2.2 e he x (mem_append_left _ hx)

theorem firstTime_le_lastTime (hc : c ∈ chunks) : firstTime c ≤ lastTime c := by
  obtain ⟨e, he, hlast⟩ := lastTime_mem (h.nonempty c hc)
  rw [hlast]
  exact firstTime_le (h.chunk_ascending hc) (h.chunk_fits hc) he

theorem time_le_lastTime
    (hchunks : chunks = pre ++ c :: post) : ∀ e ∈ pre.flatten ++ c, e.time ≤ lastTime c := by
  have hc : c ∈ chunks := by simp [hchunks]
  refine forall_mem_append.mpr ⟨fun e he => ?_, fun e => le_lastTime (h.chunk_ascending hc) (h.chunk_fits hc)⟩
  exact Int64.le_of_lt (Int64.lt_of_lt_of_le (h.time_lt_firstTime hchunks e he) (h.firstTime_le_lastTime hc))

theorem lastTime_lt_time
    (hchunks : chunks = pre ++ c :: post) : ∀ e ∈ post.flatten, lastTime c < e.time := by
  intro e he
  subst hchunks
  have hasc := h.ascending
  rw [flatten_append, flatten_cons] at hasc
  obtain ⟨x, hx, hlast⟩ := lastTime_mem (h.nonempty c (by simp))
  rw [hlast]
  refine time_lt_of_key_lt (h.chunk_fits (by simp) x hx).nonneg (h.fits e (by simp [he])).nonneg ?_
  exact (ascending_append.mp (ascending_append.mp hasc).2.1).2.2 x hx e he

end Stores

/-! ## Writing blocks -/

def fillMin (cur : List Entry) : Int64 := (cur.head?.map Entry.time).getD Int64.maxValue

def fillMax (cur : List Entry) : Int64 := (cur.getLast?.map Entry.time).getD Int64.minValue

theorem fillMin_concat {cur : List Entry} (hlt : ∀ x ∈ cur, x.time < e.time) :
    (if e.time < fillMin cur then e.time else fillMin cur) = firstTime (cur ++ [e]) := by
  cases cur with
  | nil =>
    change (if e.time < Int64.maxValue then e.time else Int64.maxValue) = e.time
    split
    · rfl
    · rename_i h
      exact Int64.le_antisymm (Int64.not_lt.mp h) (Int64.le_maxValue _)
  | cons x xs => exact if_neg (Int64.not_lt.mpr (Int64.le_of_lt (hlt x mem_cons_self)))

theorem fillMax_concat {cur : List Entry} (he : 0 ≤ e.time) (hlt : ∀ x ∈ cur, x.time < e.time) :
    (if e.time > fillMax cur then e.time else fillMax cur) = lastTime (cur ++ [e]) := by
  have hlast : lastTime (cur ++ [e]) = e.time := by simp [lastTime]
  rw [hlast]
  refine if_pos ?_
  rcases eq_nil_or_concat' cur with rfl | ⟨xs, x, rfl⟩
  · exact Int64.lt_of_lt_of_le (by decide) he
  · have hfill : fillMax (xs ++ [x]) = x.time := by simp [fillMax]
    rw [hfill]
    exact hlt x (by simp)

/-- **Entries are cut into blocks**, by induction on the entries that are left: the
new blocks go between those before and those after them. -/
theorem writeBlocksLoop_spec (Z : Snappy) (blockSize : ℕ) {C : List (List Entry)} (hC : ∀ c ∈ C, c ≠ [])
    {es : List Entry} : ∀ {A : List (List Entry)} {cur : List Entry}, (∀ c ∈ A, c ≠ []) →
    (cur ≠ [] → es ≠ []) → Ascending Entry.key (A.flatten ++ ((cur ++ es) ++ C.flatten)) →
    (∀ e ∈ cur ++ es, Fits e) →
    ∃ cuts, (∀ c ∈ cuts, c ≠ []) ∧ cuts.flatten = cur ++ es ∧
      writeBlocksLoop Z blockSize (cur.flatMap entryBytes) (fillMin cur) (fillMax cur) (es.map entryBytes)
        ((A ++ C).map (blockOf Z)) = (A ++ (cuts ++ C)).map (blockOf Z) := by
  induction es with
  | nil =>
    intro A cur _ hcur _ _
    have hnil : cur = [] := not_not.mp (fun h => hcur h rfl)
    subst hnil
    exact ⟨[], nofun, rfl, rfl⟩
  | cons e es ih =>
    intro A cur hA _ hasc hfits
    have happend : cur ++ e :: es = (cur ++ [e]) ++ es := by rw [append_assoc]; rfl
    rw [happend] at hasc hfits ⊢
    have hcurE : Ascending Entry.key (cur ++ [e]) := hasc.sublist
      (((sublist_append_left _ _).trans (sublist_append_left _ _)).trans
        (sublist_append_right _ _))
    have hlt : ∀ x ∈ cur, x.time < e.time := by
      intro x hx
      refine time_lt_of_key_lt (hfits x (by simp [hx])).nonneg (hfits e (by simp)).nonneg ?_
      exact (ascending_append.mp hcurE).2.2 x hx e mem_cons_self
    have hblock : cur.flatMap entryBytes ++ entryBytes e = (cur ++ [e]).flatMap entryBytes := by simp
    simp only [map_cons, writeBlocksLoop, timestamp_bytes, fillMin_concat hlt,
      fillMax_concat (hfits e (by simp)).nonneg hlt, hblock]
    split
    · -- the block is full, or this was the last entry
      have hne : cur ++ [e] ≠ [] := append_ne_nil_of_right_ne_nil _ (cons_ne_nil _ _)
      have hput := Bucket.put_blockOf (Z := Z) hA hne hC
        (hasc.sublist ((List.Sublist.refl _).append ((sublist_append_left _ _).append (List.Sublist.refl _))))
      have hA' : ∀ c ∈ A ++ [cur ++ [e]], c ≠ [] :=
        forall_mem_append.mpr ⟨hA, forall_mem_singleton.mpr hne⟩
      obtain ⟨cuts, hcuts, hflat, hloop⟩ := @ih (A ++ [cur ++ [e]]) [] hA' nofun (by simpa using hasc)
        (forall_mem_append.mp hfits).2
      refine ⟨(cur ++ [e]) :: cuts, forall_mem_cons.mpr ⟨hne, hcuts⟩, ?_, ?_⟩
      · rw [flatten_cons, hflat, nil_append]
      · have hnext := hloop
        rw [append_assoc, append_assoc] at hnext
        exact (congrArg _ hput).trans hnext
    · rename_i hnot
      have hes : es ≠ [] := fun h => hnot (Or.inr (by rw [h]; rfl))
      obtain ⟨cuts, hcuts, hflat, hloop⟩ := @ih A (cur ++ [e]) hA (fun _ => hes) hasc hfits
      refine ⟨cuts, hcuts, hflat, ?_⟩
      have hmin : fillMin (cur ++ [e]) = firstTime (cur ++ [e]) := by cases cur <;> rfl
      have hmax : fillMax (cur ++ [e]) = lastTime (cur ++ [e]) := by simp [fillMax, lastTime]
      rw [hmin, hmax] at hloop
      exact hloop

theorem writeBlocks_spec (Z : Snappy) (blockSize : ℕ) {A C : List (List Entry)} {es : List Entry}
    (hA : ∀ c ∈ A, c ≠ []) (hC : ∀ c ∈ C, c ≠ [])
    (hasc : Ascending Entry.key (A.flatten ++ (es ++ C.flatten)))
    (hfits : ∀ e ∈ A.flatten ++ (es ++ C.flatten), Fits e) :
    ∃ chunks, chunks.flatten = A.flatten ++ (es ++ C.flatten) ∧
      Stores Z (writeBlocks Z blockSize (es.map entryBytes) ((A ++ C).map (blockOf Z))) chunks := by
  obtain ⟨cuts, hcuts, hflat, hloop⟩ := @writeBlocksLoop_spec Z blockSize C hC es A [] hA nofun hasc
    (fun e he => hfits e (mem_append_right _ (mem_append_left _ he)))
  have hall : (A ++ (cuts ++ C)).flatten = A.flatten ++ (es ++ C.flatten) := by
    rw [flatten_append, flatten_append, hflat]
    rfl
  refine ⟨A ++ (cuts ++ C), hall, hloop, ?_, ?_, ?_⟩
  · exact forall_mem_append.mpr ⟨hA, forall_mem_append.mpr ⟨hcuts, hC⟩⟩
  · rw [hall]
    exact hasc
  · rw [hall]
    exact hfits

/-! ## Unpacking a range -/

theorem unpackRange_after {Z : Snappy} {m : List Int64} {tmin tmax : Int64} {kv : UInt64 × Bytes} {bkt : Bucket}
    (h : ¬ blockMax kv < tmin) (h' : blockMin kv > tmax) :
    unpackRange Z m tmin tmax (kv :: bkt) = some ([], kv :: bkt) := by
  rw [unpackRange, if_neg h, if_pos h']

theorem unpackRange_within {Z : Snappy} (hZ : Z.RoundTrip) {m : List Int64} {tmin tmax : Int64}
    {bkt rest : Bucket} {existing : List Bytes} (hc : ∀ e ∈ c, Fits e) (h : ¬ lastTime c < tmin)
    (h' : ¬ firstTime c > tmax) (hrest : unpackRange Z m tmin tmax bkt = some (existing, rest)) :
    unpackRange Z m tmin tmax (blockOf Z c :: bkt) =
      some ((c.filter (fun e => !m.contains e.time)).map entryBytes ++ existing, rest) := by
  have hfilter : (c.map entryBytes).filter (fun entry => !m.contains (timestamp entry)) =
      (c.filter (fun e => !m.contains e.time)).map entryBytes := by
    rw [filter_map]
    congr 2
    funext e
    simp only [Function.comp_apply, timestamp_bytes]
  rw [unpackRange, blockMax_blockOf, if_neg h, blockMin_blockOf, if_neg h', decode_blockOf hZ]
  simp only [bind_eq_bind, bind_some, splitEntries_flatMap (fun e he => (hc e he).short), hrest]
  rw [hfilter]
  rfl

/-- **The blocks before the range, within it and after it.** -/
theorem unpackRange_spec {Z : Snappy} (hZ : Z.RoundTrip) (m : List Int64) (tmin tmax : Int64) {bkt : Bucket}
    {chunks : List (List Entry)} (h : Stores Z bkt chunks) :
    ∃ A B C, chunks = A ++ (B ++ C) ∧ (∀ e ∈ A.flatten, e.time < tmin) ∧ (∀ e ∈ C.flatten, tmax < e.time) ∧
      unpackRange Z m tmin tmax bkt =
        some ((B.flatten.filter (fun e => !m.contains e.time)).map entryBytes, (A ++ C).map (blockOf Z)) := by
  rw [h.blocks]
  induction chunks generalizing bkt with
  | nil => exact ⟨[], [], [], rfl, nofun, nofun, rfl⟩
  | cons c chunks ih =>
    have hc : c ∈ c :: chunks := mem_cons_self
    have hlater := h.lastTime_lt_time (nil_append (c :: chunks)).symm
    obtain ⟨A, B, C, rfl, hA, hC, hunpack⟩ := ih h.tail
    by_cases hbefore : lastTime c < tmin
    · refine ⟨c :: A, B, C, rfl, ?_, hC, ?_⟩
      · rw [flatten_cons]
        refine forall_mem_append.mpr ⟨fun e he => ?_, hA⟩
        exact Int64.lt_of_le_of_lt (le_lastTime (h.chunk_ascending hc) (h.chunk_fits hc) he) hbefore
      · rw [map_cons, unpackRange, if_pos (by rwa [blockMax_blockOf]), hunpack]
        rfl
    · by_cases hafter : firstTime c > tmax
      · refine ⟨[], [], c :: (A ++ (B ++ C)), rfl, nofun, ?_,
          unpackRange_after (by rwa [blockMax_blockOf]) (by rwa [blockMin_blockOf])⟩
        rw [flatten_cons]
        refine forall_mem_append.mpr ⟨fun e he => ?_, fun e he => ?_⟩
        · exact Int64.lt_of_lt_of_le hafter (firstTime_le (h.chunk_ascending hc) (h.chunk_fits hc) he)
        · exact Int64.lt_trans (Int64.lt_of_lt_of_le hafter (h.firstTime_le_lastTime hc)) (hlater e he)
      · -- no block after this one is before the range
        have hAnil : A = [] := by
          cases A with
          | nil => rfl
          | cons a A =>
            obtain ⟨x, hx⟩ := exists_mem_of_ne_nil a (h.nonempty a (by simp))
            exact absurd (Int64.lt_trans (hlater x (by simp [hx])) (hA x (by simp [hx]))) hbefore
        subst hAnil
        refine ⟨[], c :: B, C, rfl, nofun, hC, ?_⟩
        rw [flatten_cons, filter_append, map_append]
        exact unpackRange_within hZ (h.chunk_fits hc) hbefore hafter hunpack

/-! ## Writing points -/

theorem head_timestamp (hne : es ≠ []) :
    (es.map entryBytes).head?.map timestamp = some (firstTime es) := by
  obtain ⟨e, es, rfl⟩ := exists_cons_of_ne_nil hne
  exact congrArg some (timestamp_bytes e)

theorem last_timestamp (hne : es ≠ []) :
    (es.map entryBytes).getLast?.map timestamp = some (lastTime es) := by
  rw [List.getLast?_map, lastTime, List.getLast?_eq_some_getLast hne]
  exact congrArg some (timestamp_bytes _)

theorem map_marshalEntry (es : List Entry) :
    (es.map Entry.slice).map (fun p => marshalEntry (timestamp p) (p.drop 8)) = es.map entryBytes := by
  rw [map_map]
  refine map_congr_left (fun e _ => ?_)
  simp only [Function.comp_apply, timestamp_slice, drop_slice]
  rfl

theorem map_timestamp (es : List Entry) : (es.map entryBytes).map timestamp = es.map Entry.time := by
  rw [map_map]
  exact map_congr_left (fun e _ => timestamp_bytes e)

theorem sortSlices_merge {old new : List Entry} (hold : Ascending Entry.key old)
    (hnew : Ascending Entry.key new) :
    sortSlices ((old.filter (fun e => !(new.map Entry.time).contains e.time)).map entryBytes ++
      new.map entryBytes) = (overlay Entry.key old new).map entryBytes := by
  have hfilter : old.filter (fun e => !(new.map Entry.time).contains e.time) =
      old.filter (fun x => ∀ y ∈ new, y.key ≠ x.key) := by
    refine filter_congr (fun e _ => ?_)
    rw [Bool.eq_iff_iff]
    simp [key_eq_iff]
  have hperm := ((overlay_perm hold hnew).map entryBytes).symm
  rw [map_append] at hperm
  have hslices : (overlay Entry.key old new).map entryBytes =
      ((overlay Entry.key old new).map withSize).map Entry.slice := by
    rw [map_map]
    rfl
  rw [hfilter, hslices]
  rw [hslices] at hperm
  exact sortSlices_eq hperm (pairwise_map.mpr (ascending_overlay new hold))

section Write

variable {Z : Snappy} {bkt : Bucket} {chunks : List (List Entry)} {batch : List Entry}

theorem Stores.append (blockSize : ℕ) (h : Stores Z bkt chunks) {new : List Entry} (hnew : Ascending Entry.key new)
    (hfits : ∀ e ∈ new, Fits e)
    (hlast : (bkt.getLast?.map blockMax).all (fun last => last < firstTime new) = true) :
    ∃ chunks', chunks'.flatten = overlay Entry.key chunks.flatten new ∧
      Stores Z (writeBlocks Z blockSize (new.map entryBytes) bkt) chunks' := by
  have hlt : ∀ x ∈ chunks.flatten, ∀ y ∈ new, x.key < y.key := by
    intro x hx y hy
    refine (key_lt_iff (h.fits x hx).nonneg (hfits y hy).nonneg).mpr
      (Int64.lt_of_lt_of_le ?_ (firstTime_le hnew hfits hy))
    rcases eq_nil_or_concat' chunks with rfl | ⟨cs, c, rfl⟩
    · exact absurd hx not_mem_nil
    rw [h.blocks, map_append, List.getLast?_append] at hlast
    simp only [map_cons, map_nil, List.getLast?_singleton, Option.some_or, Option.map_some,
      blockMax_blockOf, Option.all_some, decide_eq_true_eq] at hlast
    rw [flatten_append, flatten_singleton] at hx
    exact Int64.lt_of_le_of_lt (h.time_le_lastTime rfl x hx) hlast
  have hasc : Ascending Entry.key (chunks.flatten ++ new) :=
    ascending_append.mpr ⟨h.ascending, hnew, hlt⟩
  obtain ⟨chunks', hflat, hstores⟩ := @writeBlocks_spec Z blockSize chunks [] new h.nonempty nofun
    (by simpa using hasc) (by simpa using fun e he => he.elim (fun h' => h.fits e (by simpa using h')) (hfits e))
  refine ⟨chunks', ?_, ?_⟩
  · rw [hflat, overlay_eq_append hasc, flatten_nil, append_nil]
  · rwa [append_nil, ← h.blocks] at hstores

theorem Stores.rewrite (blockSize : ℕ) (hZ : Z.RoundTrip) (h : Stores Z bkt chunks) {new : List Entry}
    (hnew : Ascending Entry.key new) (hfits : ∀ e ∈ new, Fits e) :
    ∃ existing rest chunks', unpackRange Z (new.map Entry.time) (firstTime new) (lastTime new) bkt =
        some (existing, rest) ∧ chunks'.flatten = overlay Entry.key chunks.flatten new ∧
      Stores Z (writeBlocks Z blockSize (sortSlices (existing ++ new.map entryBytes)) rest) chunks' := by
  obtain ⟨A, B, C, rfl, hA, hC, hunpack⟩ := unpackRange_spec hZ (new.map Entry.time) (firstTime new)
    (lastTime new) h
  have hall := h.ascending
  have hallfits := h.fits
  rw [flatten_append, flatten_append] at hall hallfits
  obtain ⟨hAasc, hBC, hABC⟩ := ascending_append.mp hall
  obtain ⟨hBasc, hCasc, hBC'⟩ := ascending_append.mp hBC
  -- the new entries are after `A` and before `C`
  have hAnew : ∀ x ∈ A.flatten, ∀ y ∈ new, x.key < y.key := by
    intro x hx y hy
    exact (key_lt_iff (hallfits x (mem_append_left _ hx)).nonneg (hfits y hy).nonneg).mpr
      (Int64.lt_of_lt_of_le (hA x hx) (firstTime_le hnew hfits hy))
  have hnewC : ∀ x ∈ new, ∀ y ∈ C.flatten, x.key < y.key := by
    intro x hx y hy
    exact (key_lt_iff (hfits x hx).nonneg
      (hallfits y (mem_append_right _ (mem_append_right _ hy))).nonneg).mpr
      (Int64.lt_of_le_of_lt (le_lastTime hnew hfits hx) (hC y hy))
  have hoverlay : overlay Entry.key (A.flatten ++ (B.flatten ++ C.flatten)) new =
      A.flatten ++ (overlay Entry.key B.flatten new ++ C.flatten) := by
    have h₁ := overlay_append_append (a := A.flatten) (b := B.flatten ++ C.flatten) (c := [])
      (d := new) hall hnew hAnew nofun
    have h₂ := overlay_append_append (a := B.flatten) (b := C.flatten) (c := new) (d := []) hBC
      (by rwa [append_nil]) (fun _ _ _ hy => absurd hy not_mem_nil) hnewC
    rw [nil_append, overlay_nil] at h₁
    rw [append_nil, overlay_nil] at h₂
    rw [h₁, h₂]
  have hasc : Ascending Entry.key
      (A.flatten ++ (overlay Entry.key B.flatten new ++ C.flatten)) := by
    rw [← hoverlay]
    exact ascending_overlay new hall
  have hfits' : ∀ e ∈ A.flatten ++ (overlay Entry.key B.flatten new ++ C.flatten), Fits e := by
    rw [← hoverlay]
    intro e he
    rcases mem_of_mem_overlay hall he with he | he
    · exact hallfits e he
    · exact hfits e he
  obtain ⟨chunks', hflat, hstores⟩ := writeBlocks_spec Z blockSize
    (forall_mem_append.mp h.nonempty).1
    (fun c hc => h.nonempty c (mem_append_right _ (mem_append_right _ hc))) hasc hfits'
  refine ⟨_, _, chunks', hunpack, ?_, ?_⟩
  · rw [hflat, flatten_append, flatten_append, hoverlay]
  · rwa [sortSlices_merge hBasc hnew]

/-- **A write overlays the batch**, and leaves blocks in order. -/
theorem Stores.writeIndex (blockSize : ℕ) (hZ : Z.RoundTrip) (h : Stores Z bkt chunks) (hfits : ∀ e ∈ batch, Fits e) :
    ∃ bkt' chunks', Bz1.writeIndex Z blockSize (batch.map Entry.slice) bkt = some bkt' ∧ Stores Z bkt' chunks' ∧
      chunks'.flatten = overlay Entry.key chunks.flatten batch := by
  by_cases hnil : batch = []
  · subst hnil
    exact ⟨bkt, chunks, rfl, h, rfl⟩
  have hnew : Ascending Entry.key (ofList Entry.key batch) := ascending_ofList batch
  have hnewfits : ∀ e ∈ ofList Entry.key batch, Fits e := fun e he => hfits e (mem_of_mem_ofList he)
  have hne : ofList Entry.key batch ≠ [] := by
    obtain ⟨e, es, rfl⟩ := exists_cons_of_ne_nil hnil
    obtain ⟨x, -, -, hx⟩ := @Keyed.exists_mem_ofList_of_split _ _ _ Entry.key [] es e
    exact ne_nil_of_mem hx
  rw [← overlay_ofList h.ascending]
  rw [Bz1.writeIndex, if_neg (fun h' => hnil (map_eq_nil_iff.mp h')), dedupeEntries_eq]
  simp only [bind_eq_bind, bind_some, map_marshalEntry, head_timestamp hne, last_timestamp hne,
    map_timestamp]
  split
  · rename_i hlast
    obtain ⟨chunks', hflat, hstores⟩ := h.append blockSize hnew hnewfits hlast
    exact ⟨_, chunks', rfl, hstores, hflat⟩
  · obtain ⟨existing, rest, chunks', hunpack, hflat, hstores⟩ := h.rewrite blockSize hZ hnew hnewfits
    rw [hunpack]
    exact ⟨_, chunks', rfl, hstores, hflat⟩

/-- **All writes together**: the last point of each time. -/
theorem Stores.writeAll (blockSize : ℕ) (hZ : Z.RoundTrip) {batches : List (List Entry)}
    (hfits : ∀ es ∈ batches, ∀ e ∈ es, Fits e) :
    ∃ bkt chunks, Bz1.writeAll Z blockSize batches [] = some bkt ∧ Stores Z bkt chunks ∧
      chunks.flatten = ofList Entry.key batches.flatten := by
  induction batches using List.reverseRecOn with
  | nil => exact ⟨[], [], rfl, ⟨rfl, nofun, List.Pairwise.nil, nofun⟩, rfl⟩
  | append_singleton batches es ih =>
    obtain ⟨bkt, chunks, hall, hstores, hflat⟩ := ih (forall_mem_append.mp hfits).1
    obtain ⟨bkt', chunks', hwrite, hstores', hflat'⟩ := hstores.writeIndex blockSize hZ
      (hfits es (mem_append_right _ mem_cons_self))
    refine ⟨bkt', chunks', ?_, hstores', ?_⟩
    · rw [Bz1.writeAll] at hall ⊢
      rw [foldlM_append, hall]
      simp only [bind_eq_bind, bind_some, foldlM_cons, foldlM_nil, hwrite]
      rfl
    · rw [hflat', hflat, flatten_append, flatten_singleton]
      exact (overlay_append [] batches.flatten es).symm

/-- The ranges of the blocks are in order, and do not overlap. -/
def DisjointRanges (bkt : Bucket) : Prop :=
  (∀ kv ∈ bkt, blockMin kv ≤ blockMax kv) ∧ bkt.Pairwise (fun a b => blockMax a < blockMin b)

theorem Stores.disjointRanges (h : Stores Z bkt chunks) : DisjointRanges bkt := by
  obtain ⟨-, hpair⟩ := pairwise_flatten.mp h.ascending
  rw [h.blocks]
  constructor
  · intro kv hkv
    obtain ⟨c, hc, rfl⟩ := mem_map.mp hkv
    rw [blockMin_blockOf, blockMax_blockOf]
    exact h.firstTime_le_lastTime hc
  · refine pairwise_map.mpr (hpair.imp_of_mem (fun {c c'} hc hc' hlt => ?_))
    obtain ⟨x, hx, hlast⟩ := lastTime_mem (h.nonempty c hc)
    obtain ⟨y, hy, hfirst⟩ := firstTime_mem (h.nonempty c' hc')
    rw [blockMax_blockOf, blockMin_blockOf, hlast, hfirst]
    exact time_lt_of_key_lt (h.chunk_fits hc x hx).nonneg (h.chunk_fits hc' y hy).nonneg (hlt x hx y hy)

end Write

end AndyEnv.Bz1
