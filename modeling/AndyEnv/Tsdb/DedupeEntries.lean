import AndyEnv.Lib.Bytes
import AndyEnv.Lib.Keyed

/-!
# Points as slices

The engines `b1` and `bz1` and their WAL pass the points of a series as slices:
eight bytes of time, then the data. `DedupeEntries` keeps the last slice of each
time and sorts them.
-/

namespace AndyEnv.Tsdb

open List Bytes Keyed

structure Entry : Type where
  time : Int64
  data : Bytes
deriving DecidableEq, Repr

namespace Entry

def slice (e : Entry) : Bytes := putUint64 e.time.toUInt64 ++ e.data

/-- What slices are ordered by: the time, as eight bytes. -/
def key (e : Entry) : ℕ := e.time.toUInt64.toNat

variable {s t : Int64} {a b : Entry}

theorem toUInt64_inj : s.toUInt64 = t.toUInt64 ↔ s = t := by
  constructor
  · intro h
    rw [← Int64.toInt64_toUInt64 s, h, Int64.toInt64_toUInt64]
  · rintro rfl
    rfl

theorem key_eq_iff : a.key = b.key ↔ a.time = b.time := by
  rw [key, key, UInt64.toNat_inj, toUInt64_inj]

section

variable (e : Entry)

theorem take_slice : e.slice.take 8 = putUint64 e.time.toUInt64 := by
  rw [slice, take_append_of_le_length (by simp), take_of_length_le (by simp)]

@[simp] theorem drop_slice : e.slice.drop 8 = e.data := drop_putUint64_append _ _

@[simp] theorem uint64_slice : uint64 e.slice = e.time.toUInt64 :=
  uint64_putUint64_append _ _

theorem length_slice : 8 ≤ e.slice.length := by
  simp [slice]

end

theorem putUint64_inj {a b : UInt64} (h : putUint64 a = putUint64 b) : a = b := by
  rw [← uint64_putUint64_append a [], ← uint64_putUint64_append b [], h]

theorem take_slice_eq_iff : a.slice.take 8 = b.slice.take 8 ↔ a.key = b.key := by
  rw [take_slice, take_slice, key_eq_iff, ← toUInt64_inj]
  exact ⟨putUint64_inj, congrArg _⟩

theorem le_slice_of_lt (h : a.key < b.key) : le a.slice b.slice = true :=
  le_putUint64_append.mpr (.inl (UInt64.lt_iff_toNat_lt.mpr h))

theorem toNat_toUInt64 (h : 0 ≤ t) : (t.toUInt64.toNat : ℤ) = t.toInt := by
  rw [Int64.le_iff_toInt_le] at h
  have hcond := BitVec.toInt_eq_toNat_cond t.toBitVec
  have hlt := t.toBitVec.isLt
  change t.toInt = _ at hcond
  change (t.toBitVec.toNat : ℤ) = t.toInt
  change 0 ≤ t.toInt at h
  split at hcond
  · exact hcond.symm
  · omega

theorem toUInt64_lt_of_neg (hs : 0 ≤ s) (ht : t < 0) : s.toUInt64 < t.toUInt64 := by
  have hnat := toNat_toUInt64 hs
  have hsint := BitVec.toInt_lt (x := s.toBitVec)
  have hcond := BitVec.toInt_eq_toNat_cond t.toBitVec
  rw [Int64.lt_iff_toInt_lt] at ht
  change t.toInt = _ at hcond
  change t.toInt < 0 at ht
  change s.toInt < _ at hsint
  rw [UInt64.lt_iff_toNat_lt]
  change _ < t.toBitVec.toNat
  split at hcond
  · omega
  · omega

theorem lt_or_le (s t : Int64) : s < t ∨ t ≤ s := by
  by_cases h : s < t
  · exact .inl h
  · exact .inr (Int64.not_lt.mp h)

theorem key_lt_iff (ha : 0 ≤ a.time) (hb : 0 ≤ b.time) : a.key < b.key ↔ a.time < b.time := by
  rw [Int64.lt_iff_toInt_lt, ← toNat_toUInt64 ha, ← toNat_toUInt64 hb, Nat.cast_lt]
  rfl

end Entry

/-! ## Deduplication -/

/-- The map from times to slices, filled in order: the last slice of a time stays. -/
def lastSlices (a : List Bytes) : List Bytes :=
  a.foldl (fun m b => m.filter (fun x => x.take 8 ≠ b.take 8) ++ [b]) []

/-- `sort.Sort(ByteSlices(a))`. -/
def sortSlices (a : List Bytes) : List Bytes := a.insertionSort (fun x y => le x y = true)

/-- `DedupeEntries`; it panics on a slice without a time. -/
def dedupeEntries (a : List Bytes) : Option (List Bytes) :=
  if ∀ b ∈ a, 8 ≤ b.length then some (sortSlices (lastSlices a)) else none

theorem lastSlices_perm (es : List Entry) :
    (lastSlices (es.map Entry.slice)).Perm ((ofList Entry.key es).map Entry.slice) := by
  induction es using List.reverseRecOn with
  | nil => exact List.Perm.nil
  | append_singleton es e ih =>
    have hfilter : ((ofList Entry.key es).map Entry.slice).filter
          (fun x => x.take 8 ≠ e.slice.take 8) =
        ((ofList Entry.key es).filter (fun x => x.key ≠ e.key)).map Entry.slice := by
      rw [filter_map]
      congr 2
      funext x
      simp only [Function.comp_apply, ne_eq, Entry.take_slice_eq_iff]
    have hasc : Ascending Entry.key (ofList Entry.key es) := ascending_ofList es
    have hupsert := (upsert_perm (v := e) hasc).map Entry.slice
    rw [map_append, ← hfilter] at hupsert
    rw [ofList_concat, map_append, lastSlices, foldl_append]
    exact ((ih.filter _).append_right _).trans hupsert.symm

theorem sortSlices_eq {a : List Bytes} {es : List Entry} (hperm : a.Perm (es.map Entry.slice))
    (hasc : Ascending Entry.key es) : sortSlices a = es.map Entry.slice := by
  have htotal : Std.Total (fun x y : Bytes => le x y = true) := ⟨le_total⟩
  have htrans : IsTrans Bytes (fun x y => le x y = true) := ⟨fun _ _ _ => le_trans⟩
  have hsorted : (es.map Entry.slice).Pairwise (fun x y => le x y = true) :=
    pairwise_map.mpr (List.Pairwise.imp Entry.le_slice_of_lt hasc)
  exact ((perm_insertionSort _ a).trans hperm).eq_of_pairwise (fun _ _ _ _ => le_antisymm)
    (pairwise_insertionSort _ a) hsorted

/-- **Deduplicated points**: the last one of each time, in order. -/
theorem dedupeEntries_eq (es : List Entry) :
    dedupeEntries (es.map Entry.slice) = some ((ofList Entry.key es).map Entry.slice) := by
  have hlen : ∀ b ∈ es.map Entry.slice, 8 ≤ b.length :=
    forall_mem_map.mpr (fun e _ => e.length_slice)
  rw [dedupeEntries, if_pos hlen, sortSlices_eq (lastSlices_perm es) (ascending_ofList es)]

/-! ## Entries that are read -/

def returned {α : Type} (decodeValue : Bytes → Option α) (e : Entry) : Int64 × Option α :=
  (e.time, decodeValue e.data)

def beforeKey (seek : UInt64) (es : List Entry) : List Entry := es.takeWhile (fun e => e.key < seek.toNat)

def fromKey (seek : UInt64) (es : List Entry) : List Entry := es.dropWhile (fun e => e.key < seek.toNat)

theorem beforeKey_append_fromKey (seek : UInt64) (es : List Entry) : beforeKey seek es ++ fromKey seek es = es :=
  takeWhile_append_dropWhile

end AndyEnv.Tsdb
