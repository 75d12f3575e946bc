import Mathlib.Data.List.TakeWhile
import AndyEnv.Lib.Search
import AndyEnv.Tsdb.Cursor
import AndyEnv.Tsdb.DedupeEntries

/-!
# The cursor over the cache (`wal.go`)

The cache of a series is a sorted list of slices. Going back, `SeekTo` goes to the
first slice that is not before the seek, which is the entry of the seek only if
there is one.
-/

namespace AndyEnv.Wal

open Tsdb Bytes
open List

structure Cursor : Type where
  cache : List Bytes
  position : ℤ
  ascending : Bool
deriving DecidableEq, Repr

namespace Cursor

/-- `newCursor`. -/
def new (cache : List Bytes) (ascending : Bool) : Cursor :=
  ⟨cache, if ascending then -1 else cache.length, ascending⟩

section

variable {α : Type} (decodeValue : Bytes → Option α)

/-- The entry at the position; `decodeValue` is the value of `DecodeKeyValue`. -/
def read (c : Cursor) : Int64 × Option α :=
  match (if c.position < 0 then none else c.cache[c.position.toNat]?) with
  | none => (EOF, none)
  | some v => ((uint64 v).toInt64, decodeValue (v.drop 8))

def seekTo (seek : Int64) (c : Cursor) : (Int64 × Option α) × Cursor :=
  let found := Search.searchList c.cache (fun v => le (putUint64 seek.toUInt64) (v.take 8))
  let position := if !c.ascending ∧ found ≥ c.cache.length then c.cache.length else found
  let c := { c with position := position }
  (c.read decodeValue, c)

def next (c : Cursor) : (Int64 × Option α) × Cursor :=
  let c := { c with position := if c.ascending then c.position + 1 else c.position - 1 }
  (c.read decodeValue, c)

def cursor : KeyedCursor Cursor Int64 (Option α) where
  seekTo seek c := some (seekTo decodeValue seek c)
  next c := some (next decodeValue c)

end

/-! ## Going back -/

/-- What is returned, going back from a key: the first entry that is not before it,
and all that are. -/
def scanDown (seek : UInt64) (es : List Entry) : List Entry :=
  match fromKey seek es with
  | [] => []
  | e :: _ => e :: (beforeKey seek es).reverse

section Down

variable {α : Type} (decodeValue : Bytes → Option α) {c : Cursor} {seek : Int64} {es : List Entry}

variable {x y : List Entry} {e : Entry}

theorem read_at (hcache : c.cache = (x ++ e :: y).map Entry.slice)
    (hpos : c.position = x.length) : c.read decodeValue = returned decodeValue e := by
  have hget : c.cache[c.position.toNat]? = some e.slice := by
    rw [hcache, hpos]
    simp
  rw [read, if_neg (by omega), hget]
  simp only [Entry.uint64_slice, Int64.toInt64_toUInt64, Entry.drop_slice]
  rfl

theorem read_end (h : c.position < 0 ∨ (c.cache.length : ℤ) ≤ c.position) : c.read decodeValue = (EOF, none) := by
  rw [read]
  by_cases hneg : c.position < 0
  · rw [if_pos hneg]
  · rw [if_neg hneg, List.getElem?_eq_none (by omega)]

theorem searchList_slices (hasc : Keyed.Ascending Entry.key es) (seek : UInt64) :
    Search.searchList (es.map Entry.slice) (fun v => le (putUint64 seek) (v.take 8)) =
      (beforeKey seek es).length := by
  have hle : ∀ e : Entry, le (putUint64 seek) (e.slice.take 8) = true ↔ ¬ e.key < seek.toNat := by
    intro e
    rw [Entry.take_slice, le_putUint64, UInt64.le_iff_toNat_le]
    exact Nat.not_lt.symm
  rw [Search.searchList_eq, takeWhile_map, length_map, beforeKey]
  · congr 2
    funext e
    rw [Function.comp_apply, Bool.eq_iff_iff, Bool.not_eq_true', decide_eq_true_iff, ← Bool.not_eq_true, hle,
      not_not]
  · refine pairwise_map.mpr (List.Pairwise.imp (fun {a b} hab h => ?_) hasc)
    rw [hle] at h ⊢
    omega

variable (hdown : c.ascending = false)
include hdown

theorem next_down :
    next decodeValue c = (({ c with position := c.position - 1 } : Cursor).read decodeValue,
      { c with position := c.position - 1 }) := by
  unfold next
  rw [if_neg (by rw [hdown]; exact Bool.false_ne_true)]

/-- **A reading back**, from an entry with `x` before it. -/
theorem rest_down (hcache : c.cache = (x ++ e :: y).map Entry.slice) (hpos : c.position = x.length)
    (hne : ∀ f ∈ x, f.time ≠ EOF) :
    (cursor decodeValue).Rest EOF c (x.reverse.map (returned decodeValue)) := by
  induction x using List.reverseRecOn generalizing c e y with
  | nil =>
    refine @KeyedCursor.Rest.eof _ _ _ _ _ c { c with position := c.position - 1 } none ?_
    change some (next decodeValue c) = _
    rw [next_down decodeValue hdown, read_end]
    exact .inl (by simp only [hpos, length_nil]; omega)
  | append_singleton x f ih =>
    have hcache' : c.cache = (x ++ f :: e :: y).map Entry.slice := by rw [hcache, append_assoc]; rfl
    have hpos' : c.position - 1 = x.length := by
      rw [hpos, length_append, length_singleton]
      omega
    rw [reverse_append, reverse_singleton, singleton_append, map_cons]
    have hread := @read_at _ decodeValue { c with position := c.position - 1 } x (e :: y) f hcache' hpos'
    have hnext : (cursor decodeValue).next c =
        some (returned decodeValue f, { c with position := c.position - 1 }) := by
      rw [← hread, ← next_down decodeValue hdown]
      rfl
    exact .step hnext (hne f (by simp)) (@ih { c with position := c.position - 1 } (e :: y) f hdown hcache' hpos'
      (forall_mem_append.mp hne).1)

/-- **What the cache returns**, going back from a seek. -/
theorem scan_down (hcache : c.cache = es.map Entry.slice)
    (hasc : Keyed.Ascending Entry.key es) (hne : ∀ e ∈ es, e.time ≠ EOF) :
    (cursor decodeValue).Scan EOF seek c ((scanDown seek.toUInt64 es).map (returned decodeValue)) := by
  have hsplit := beforeKey_append_fromKey seek.toUInt64 es
  have hpos : (if !c.ascending ∧ Search.searchList c.cache
        (fun v => le (putUint64 seek.toUInt64) (v.take 8)) ≥ c.cache.length then c.cache.length
      else Search.searchList c.cache (fun v => le (putUint64 seek.toUInt64) (v.take 8))) =
      (beforeKey seek.toUInt64 es).length := by
    have hle : (beforeKey seek.toUInt64 es).length ≤ es.length := ( takeWhile_prefix _).length_le
    rw [hcache, searchList_slices hasc, length_map]
    split <;> omega
  have hseek : seekTo decodeValue seek c =
      (({ c with position := (beforeKey seek.toUInt64 es).length } : Cursor).read decodeValue,
        { c with position := (beforeKey seek.toUInt64 es).length }) := by
    simp only [seekTo, hpos]
  rw [scanDown]
  split
  · rename_i hnil
    rw [hnil, append_nil] at hsplit
    refine @KeyedCursor.Scan.eof _ _ _ _ _ _ c { c with position := (beforeKey seek.toUInt64 es).length } none ?_
    change some (seekTo decodeValue seek c) = _
    rw [hseek, read_end]
    exact .inr (by simp only [hcache, length_map, hsplit, le_refl])
  · rename_i e y hcons
    rw [hcons] at hsplit
    have hcache' : c.cache = (beforeKey seek.toUInt64 es ++ e :: y).map Entry.slice := by rw [hsplit, hcache]
    rw [map_cons]
    have hread := @read_at _ decodeValue { c with position := (beforeKey seek.toUInt64 es).length } _ y e hcache' rfl
    have hfound : (cursor decodeValue).seekTo seek c =
        some (returned decodeValue e, { c with position := (beforeKey seek.toUInt64 es).length }) := by
      rw [← hread, ← hseek]
      rfl
    refine .step hfound (hne e (by rw [← hsplit]; simp)) (@rest_down _ decodeValue
      { c with position := (beforeKey seek.toUInt64 es).length } _ y e hdown hcache' rfl (fun f hf => ?_))
    exact hne f (by rw [← hsplit]; exact mem_append_left _ hf)

end Down

end Cursor

end AndyEnv.Wal
