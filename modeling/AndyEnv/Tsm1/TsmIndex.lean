import AndyEnv.Lib.Bytes
import AndyEnv.Lib.Search
import Mathlib.Data.List.AList

/-!
# The index of a TSM file (`data_file.go`)

The index lists the blocks of a key with their times. The direct index is a map;
the indirect one searches the encoded index, where the keys stand in order. Both
look up the block of a time by the same test of an entry.
-/

namespace AndyEnv.Tsm1

open List Bytes

/-! ## The code -/

/-- The times are nanoseconds. -/
structure IndexEntry : Type where
  minTime : ℤ
  maxTime : ℤ
  offset : Int64
  size : UInt32
deriving DecidableEq, Repr

def indexEntrySize : ℕ := 28

namespace IndexEntry

/-- `Contains`. In the source `&&` binds more strongly than `||`. -/
def contains (e : IndexEntry) (t : ℤ) : Bool :=
  e.minTime == t || (decide (e.minTime < t) && e.maxTime == t) || decide (e.maxTime > t)

/-- `UnmarshalBinary`; nothing if the buffer is short. -/
def unmarshalBinary (b : Bytes) : Option IndexEntry :=
  if b.length ≠ indexEntrySize then none
  else some ⟨(uint64 b).toInt64.toInt, (uint64 (b.drop 8)).toInt64.toInt,
    (uint64 (b.drop 16)).toInt64, uint32 (b.drop 24)⟩

end IndexEntry

/-- `for _, entry := range entries { if entry.Contains(t) { return entry } }`. -/
def firstContaining (entries : List IndexEntry) (t : ℤ) : Option IndexEntry :=
  entries.find? (fun entry => entry.contains t)

structure DirectIndex : Type where
  blocks : AList (fun _ : Bytes => List IndexEntry)

namespace DirectIndex

def entries (d : DirectIndex) (key : Bytes) : List IndexEntry := (d.blocks.lookup key).getD []

def add (d : DirectIndex) (key : Bytes) (minTime maxTime : ℤ) (offset : Int64) (size : UInt32) : DirectIndex :=
  ⟨d.blocks.insert key (d.entries key ++ [⟨minTime, maxTime, offset, size⟩])⟩

def entry (d : DirectIndex) (key : Bytes) (t : ℤ) : Option IndexEntry := firstContaining (d.entries key) t

end DirectIndex

structure IndirectIndex : Type where
  b : Bytes
  offsets : List Int32
deriving DecidableEq

/-- `b[i:]`; nothing on a panic. -/
def sliceFrom (b : Bytes) (i : Int32) : Option Bytes :=
  if 0 ≤ i ∧ i.toInt ≤ b.length then some (b.drop i.toNatClampNeg) else none

/-- `b[i:j]`. -/
def sliceOf (b : Bytes) (i j : Int32) : Option Bytes :=
  if 0 ≤ i ∧ i ≤ j ∧ j.toInt ≤ b.length then some ((b.take j.toNatClampNeg).drop i.toNatClampNeg) else none

namespace IndirectIndex

def keyAt (d : IndirectIndex) (offset : Int32) : Option Bytes := do
  let keyLen ← sliceOf d.b offset (offset + 2)
  sliceOf d.b (offset + 2) (offset + 2 + Int32.ofNat (uint16 keyLen).toNat)

def readKey (b : Bytes) : Option (ℕ × Bytes) :=
  let size := (uint16 b).toNat
  if 2 + size ≤ b.length then some (2 + size, (b.drop 2).take size) else none

def readEntries (b : Bytes) : Option (ℕ × List IndexEntry) := do
  guard (2 ≤ b.length)
  let count := (uint16 b).toNat
  let entries ← (List.range count).mapM (fun i =>
    IndexEntry.unmarshalBinary ((b.drop (i * indexEntrySize + 2)).take indexEntrySize))
  return (2 + count * indexEntrySize, entries)

def entries (d : IndirectIndex) (key : Bytes) : Option (List IndexEntry) := do
  let i ← Search.search? d.offsets.length (fun i => do
    let k ← d.keyAt (← d.offsets[i]?)
    return le key k)
  if i < d.offsets.length then
    let ofs ← d.offsets[i]?
    let (n, k) ← readKey (← sliceFrom d.b ofs)
    if k ≠ key then return []
    let (_, entries) ← readEntries (← sliceFrom d.b (ofs + Int32.ofNat n))
    return entries
  else return []

def entry (d : IndirectIndex) (key : Bytes) (t : ℤ) : Option (Option IndexEntry) := do
  let entries ← d.entries key
  return firstContaining entries t

end IndirectIndex

inductive TsmIndex : Type
  | direct (d : DirectIndex)
  | indirect (d : IndirectIndex)

namespace TsmIndex

def entries : TsmIndex → Bytes → Option (List IndexEntry)
  | direct d, key => some (d.entries key)
  | indirect d, key => d.entries key

def entry : TsmIndex → Bytes → ℤ → Option (Option IndexEntry)
  | direct d, key, t => some (d.entry key t)
  | indirect d, key, t => d.entry key t

end TsmIndex

/-! ## The lookup of a time -/

namespace IndexEntry

def Covers (e : IndexEntry) (t : ℤ) : Prop := e.minTime ≤ t ∧ t ≤ e.maxTime

/-- The time is before the entry, or the times of the entry are the wrong way round. -/
def Misread (e : IndexEntry) (t : ℤ) : Prop :=
  t < e.minTime ∧ t < e.maxTime ∨ t = e.minTime ∧ e.maxTime < t

variable {e : IndexEntry} {t : ℤ}

instance : Decidable (e.Covers t) := inferInstanceAs (Decidable (_ ∧ _))

instance : Decidable (e.Misread t) := inferInstanceAs (Decidable (_ ∨ _))

theorem contains_iff : e.contains t = true ↔ e.Covers t ∨ e.Misread t := by
  simp only [contains, Covers, Misread, Bool.or_eq_true, Bool.and_eq_true, beq_iff_eq, decide_eq_true_eq]
  omega

theorem Misread.not_covers (h : e.Misread t) : ¬ e.Covers t := by
  unfold Misread at h
  unfold Covers
  omega

end IndexEntry

/-- What is found covers the time, and is found if an entry does. -/
def ExactFor (es : List IndexEntry) (t : ℤ) (found : Option IndexEntry) : Prop :=
  (found.isSome = true ↔ ∃ e ∈ es, e.Covers t) ∧ ∀ e ∈ found, e ∈ es ∧ e.Covers t

variable {es : List IndexEntry}

theorem TsmIndex.entry_eq {d : TsmIndex} {key : Bytes} (h : d.entries key = some es) (t : ℤ) :
    d.entry key t = some (firstContaining es t) := by
  cases d with
  | direct d =>
    obtain rfl := Option.some.inj h
    rfl
  | indirect d =>
    have h : d.entries key = some es := h
    rw [TsmIndex.entry, IndirectIndex.entry, h]
    rfl

theorem exactFor_iff {t : ℤ} : ExactFor es t (firstContaining es t) ↔
    ∀ pre e post, es = pre ++ e :: post → e.Misread t → ∃ e' ∈ pre, e'.Covers t := by
  constructor
  · rintro ⟨-, hfound⟩ pre e post rfl hmisread
    -- what is found is in `pre`, since the search does not get past `e`
    by_contra hnone
    have hcontains : e.contains t = true := IndexEntry.contains_iff.mpr (.inr hmisread)
    cases hpre : pre.find? (fun x => x.contains t) with
    | some x =>
      refine hnone ⟨x, mem_of_find?_eq_some hpre, (hfound x ?_).2⟩
      rw [firstContaining, find?_append, hpre]
      rfl
    | none =>
      refine hmisread.not_covers (hfound e ?_).2
      rw [firstContaining, find?_append, hpre, find?_cons, hcontains]
      rfl
  · intro h
    cases hfind : firstContaining es t with
    | none =>
      refine ⟨⟨nofun, fun ⟨e, he, hcovers⟩ => ?_⟩, nofun⟩
      exact absurd (IndexEntry.contains_iff.mpr (.inl hcovers)) (find?_eq_none.mp hfind e he)
    | some e =>
      obtain ⟨hcontains, pre, post, hsplit, hbefore⟩ := find?_eq_some_iff_append.mp hfind
      have hmem : e ∈ es := mem_of_find?_eq_some hfind
      have hcovers : e.Covers t := by
        refine (IndexEntry.contains_iff.mp hcontains).resolve_right (fun hmisread => ?_)
        obtain ⟨e', he', hcovers⟩ := h pre e post hsplit hmisread
        have hnot := hbefore e' he'
        rw [IndexEntry.contains_iff.mpr (.inl hcovers)] at hnot
        cases hnot
      refine ⟨⟨fun _ => ⟨e, hmem, hcovers⟩, fun _ => rfl⟩, ?_⟩
      rintro x ⟨⟩
      exact ⟨hmem, hcovers⟩

/-- **The lookup of a time is exact if and only if** every entry that the test misreads comes
after one that covers the time. -/
theorem TsmIndex.entry_exact_iff (d : TsmIndex) (key : Bytes) (t : ℤ) (es : List IndexEntry)
    (h : d.entries key = some es) : (∃ found, d.entry key t = some found ∧ ExactFor es t found) ↔
      ∀ pre e post, es = pre ++ e :: post → e.Misread t → ∃ e' ∈ pre, e'.Covers t := by
  rw [TsmIndex.entry_eq h, ← exactFor_iff]
  simp only [Option.some.injEq, exists_eq_left']

def oneBlock : DirectIndex := DirectIndex.add ⟨∅⟩ [97] 5 7 0 10

theorem TsmIndex.entry_exact_iff_oneBlock :
    ∃ found, (direct oneBlock).entry [97] 6 = some found ∧ ExactFor [⟨5, 7, 0, 10⟩] 6 found := by
  refine (TsmIndex.entry_exact_iff (direct oneBlock) [97] 6 [⟨5, 7, 0, 10⟩] (by decide +kernel)).mpr ?_
  intro pre e post hsplit hmisread
  obtain rfl : e = ⟨5, 7, 0, 10⟩ := by
    rw [← mem_singleton, hsplit]
    simp
  exact absurd hmisread (by decide)

def oneBlockIndirect : IndirectIndex :=
  ⟨[0, 1, 97, 0, 1, 0, 0, 0, 0, 0, 0, 0, 5, 0, 0, 0, 0, 0, 0, 0, 7, 0, 0, 0, 0, 0, 0, 0, 0, 0, 0, 0, 10], [0]⟩

/-- A time before the block is found in it. -/
theorem TsmIndex.entry_not_exact : (direct oneBlock).entry [97] 1 = some (some ⟨5, 7, 0, 10⟩) ∧
      (indirect oneBlockIndirect).entry [97] 1 = some (some ⟨5, 7, 0, 10⟩) ∧
      ¬ (⟨5, 7, 0, 10⟩ : IndexEntry).Covers 1 := by
  decide +kernel

end AndyEnv.Tsm1
