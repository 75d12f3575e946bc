import AndyEnv.Bz1.DescendingReads
import AndyEnv.Wal.Cursor

/-!
# The WAL and the blocks, going back

`Tx.Cursor` merges the cursor over the cache of the WAL with the cursor over the
blocks. Both miss a seek that is between two of their entries: the cursor over the
cache returns an entry after it, or nothing if the seek is after the cache; the
cursor over the blocks returns an entry after a seek that is in no block.
-/

namespace AndyEnv.Bz1

open Tsdb Keyed
open Tsm1.Codec (Snappy)
open List

/-! ## The cursor of a transaction -/

abbrev TxCursor (α : Type) : Type := Wal.Cursor ⊕ MultiCursor (Wal.Cursor ⊕ Cursor) α

section

variable (Z : Snappy) {α : Type} (decodeValue : Bytes → Option α)

def Cursor.last (c : Cursor) : Option Cursor :=
  Cursor.setBuf Z (c.bucket.valueAt c.bucket.last) { c with position := c.bucket.last }

/-- `Tx.Cursor`, of a series with or without a bucket. -/
def txCursor (cache : List Bytes) (bucket : Option Bucket) (ascending : Bool) : Option (TxCursor α) :=
  match bucket with
  | none => some (.inl (Wal.Cursor.new cache ascending))
  | some bkt => do
    let c : Cursor := ⟨bkt, none, [], 0, ascending, [], 0⟩
    let c ← if ascending then some c else Cursor.last Z c
    return .inr (MultiCursor.new [.inl (Wal.Cursor.new cache ascending), .inr c] ascending)

abbrev parts : KeyedCursor (Wal.Cursor ⊕ Cursor) Int64 (Option α) :=
  (Wal.Cursor.cursor decodeValue).sum (Cursor.cursor Z decodeValue)

def txReader (fuel : ℕ) : KeyedCursor (TxCursor α) Int64 (Option α) :=
  (Wal.Cursor.cursor decodeValue).sum (MultiCursor.cursor (parts Z decodeValue) fuel)

end

/-! ## What is returned -/

def entriesUpTo {α : Type} (decodeValue : Bytes → Option α) (seek : Int64) (es : List Entry) :
    List (Int64 × Option α) :=
  (es.filter (fun e => e.time ≤ seek)).reverse.map (returned decodeValue)

/-- The seek is in the range of a block, or after all blocks. -/
def InBlocks (seek : Int64) (chunks : List (List Entry)) : Prop :=
  chunks = [] ∨ 0 ≤ seek ∧ ((∃ c ∈ chunks, firstTime c ≤ seek ∧ seek ≤ lastTime c) ∨
    ∀ e ∈ chunks.flatten, e.time < seek)

/-- When a seek back reads all: the seek is the time of an entry of the cache, or is
after the cache and the blocks have all that the cache has; and the seek is in the
range of a block, or after all blocks. -/
structure ReadsBack {α : Type} (decodeValue : Bytes → Option α) (seek : Int64) (W : List Entry)
    (chunks : List (List Entry)) : Prop where
  cache : seek < 0 ∨ (∃ w ∈ W, w.time = seek) ∨
    ∀ w ∈ W, w.time < seek ∧ ∃ b ∈ chunks.flatten, returned decodeValue b = returned decodeValue w
  blocks : InBlocks seek chunks

variable {e : Entry} {key : UInt64} {B A : List Entry}

section Order

variable {α : Type} (decodeValue : Bytes → Option α) {l : List Entry}

theorem rank_returned_lt {a b : Entry} (ha : 0 ≤ a.time) (hb : 0 ≤ b.time) (h : a.key < b.key) :
    rank false (returned decodeValue b).1 < rank false (returned decodeValue a).1 :=
  neg_lt_neg_iff.mpr (Int64.lt_iff_toInt_lt.mp (time_lt_of_key_lt ha hb h))

theorem pairwise_reverse (hasc : Ascending Entry.key l) (hnonneg : ∀ e ∈ l, 0 ≤ e.time) :
    (l.reverse.map (returned decodeValue)).Pairwise (fun e f => rank false e.1 < rank false f.1) := by
  rw [pairwise_map, List.pairwise_reverse]
  exact List.Pairwise.imp_of_mem (fun {a b} ha hb h =>
    rank_returned_lt decodeValue (hnonneg a ha) (hnonneg b hb) h) hasc

theorem pairwise_cons_reverse (hasc : Ascending Entry.key l) (hnonneg : ∀ f ∈ e :: l, 0 ≤ f.time)
    (hlast : ∀ f ∈ l, f.key ≤ e.key) :
    ((e :: l.reverse).map (returned decodeValue)).Pairwise (fun e f => rank false e.1 ≤ rank false f.1) := by
  rw [map_cons, pairwise_cons]
  refine ⟨?_, (pairwise_reverse decodeValue hasc (forall_mem_cons.mp hnonneg).2).imp le_of_lt⟩
  intro f hf
  obtain ⟨x, hx, rfl⟩ := mem_map.mp hf
  rw [mem_reverse] at hx
  rcases (hlast x hx).lt_or_eq with hlt | heq
  · exact (rank_returned_lt decodeValue (hnonneg x (mem_cons_of_mem e hx)) (hnonneg e mem_cons_self) hlt).le
  · exact le_of_eq (congrArg (rank false) (Entry.key_eq_iff.mp heq).symm)

/-- Entries with different keys have one value for a key. -/
theorem functional_returned {es : List Entry} (hasc : Ascending Entry.key es) (hsub : ∀ e ∈ l, e ∈ es) :
    ∀ e ∈ l.map (returned decodeValue), ∀ f ∈ l.map (returned decodeValue), e.1 = f.1 → e = f := by
  intro e he f hf heq
  obtain ⟨a, ha, rfl⟩ := mem_map.mp he
  obtain ⟨b, hb, rfl⟩ := mem_map.mp hf
  rw [hasc.eq_of_key_eq (hsub a ha) (hsub b hb) (Entry.key_eq_iff.mpr heq)]

end Order

/-! ## The cursor over the cache -/

section Cache

variable {W : List Entry} {seek : UInt64}

/-- What the cursor over the cache returns are entries of it, going back. -/
theorem scanDown_sublist (seek : UInt64) (W : List Entry) : (Wal.Cursor.scanDown seek W).reverse.Sublist W := by
  have hsplit := beforeKey_append_fromKey seek W
  rw [Wal.Cursor.scanDown]
  split
  · exact nil_sublist W
  rename_i e y hcons
  rw [hcons] at hsplit
  rw [reverse_cons, reverse_reverse]
  nth_rewrite 2 [← hsplit]
  exact (List.Sublist.refl _).append (List.Sublist.cons_cons e (nil_sublist y))

/-- The cache is before the seek, or the first entry that is not before it comes
first. -/
theorem scanDown_cases (hasc : Ascending Entry.key W) :
    ((∀ w ∈ W, w.key < seek.toNat) ∧ Wal.Cursor.scanDown seek W = []) ∨
      ∃ x e y, W = x ++ e :: y ∧ seek.toNat ≤ e.key ∧ (∀ w ∈ x, w.key < seek.toNat) ∧
        Wal.Cursor.scanDown seek W = e :: x.reverse := by
  have hsplit := beforeKey_append_fromKey seek W
  have hbefore : ∀ w ∈ beforeKey seek W, w.key < seek.toNat := by
    intro w hw
    rw [beforeKey, (takeWhile_dropWhile_eq_filter hasc seek.toNat).1, mem_filter] at hw
    exact of_decide_eq_true hw.2
  rw [Wal.Cursor.scanDown]
  cases hfrom : fromKey seek W with
  | nil =>
    rw [hfrom, append_nil] at hsplit
    rw [hsplit] at hbefore
    exact .inl ⟨hbefore, rfl⟩
  | cons e y =>
    rw [hfrom] at hsplit
    refine .inr ⟨beforeKey seek W, e, y, hsplit.symm, ?_, hbefore, rfl⟩
    have he : e ∈ fromKey seek W := by rw [hfrom]; exact mem_cons_self
    rw [fromKey, (takeWhile_dropWhile_eq_filter hasc seek.toNat).2, mem_filter] at he
    exact of_decide_eq_true he.2

section

variable (hasc : Ascending Entry.key W) (hnonneg : ∀ w ∈ W, 0 ≤ w.time)
include hasc hnonneg

/-- What the cursor over the cache returns: nothing if the cache is before the seek,
the entries up to the seek if it has the seek, and otherwise an entry after it. -/
theorem scanDown_spec {seek : Int64} (hseek : 0 ≤ seek) :
    ((∀ w ∈ W, w.time < seek) ∧ Wal.Cursor.scanDown seek.toUInt64 W = []) ∨
      ((∃ w ∈ W, w.time = seek) ∧ ∀ e, e ∈ Wal.Cursor.scanDown seek.toUInt64 W ↔ e ∈ W ∧ e.time ≤ seek) ∨
      ((∀ w ∈ W, w.time ≠ seek) ∧ (∃ w ∈ W, seek ≤ w.time) ∧ ∃ e ∈ Wal.Cursor.scanDown seek.toUInt64 W, seek < e.time) := by
  have hkey : ∀ w ∈ W, (w.key < seek.toUInt64.toNat ↔ w.time < seek) :=
    fun w hw => Entry.key_lt_iff (a := w) (b := ⟨seek, []⟩) (hnonneg w hw) hseek
  rcases @scanDown_cases W seek.toUInt64 hasc with ⟨hall, hnil⟩ | ⟨x, e, y, rfl, he, hx, hscan⟩
  · exact .inl ⟨fun w hw => (hkey w hw).mp (hall w hw), hnil⟩
  have hemem : e ∈ x ++ e :: y := by simp
  have hle : seek ≤ e.time := Int64.not_lt.mp (fun hlt => not_lt.mpr he ((hkey e hemem).mpr hlt))
  have hxlt : ∀ w ∈ x, w.time < seek := fun w hw => (hkey w (mem_append_left _ hw)).mp (hx w hw)
  have hylt : ∀ w ∈ y, e.time < w.time := by
    intro w hw
    have hin := (ascending_append.mp hasc).2.1
    exact time_lt_of_key_lt (hnonneg e hemem) (hnonneg w (by simp [hw])) ((ascending_cons.mp hin).1 w hw)
  right
  by_cases heq : e.time = seek
  · refine .inl ⟨⟨e, hemem, heq⟩, fun w => ?_⟩
    rw [hscan, mem_cons, mem_reverse, mem_append, mem_cons]
    constructor
    · rintro (rfl | hw)
      · exact ⟨.inr (.inl rfl), heq ▸ Int64.le_refl _⟩
      · exact ⟨.inl hw, Int64.le_of_lt (hxlt w hw)⟩
    · rintro ⟨hw | rfl | hw, hle'⟩
      · exact .inr hw
      · exact .inl rfl
      · rw [← heq] at hle'
        exact absurd (hylt w hw) (Int64.not_lt.mpr hle')
  · have hlt : seek < e.time := Int64.lt_of_le_of_ne hle (Ne.symm heq)
    refine .inr ⟨fun w hw => ?_, ⟨e, hemem, hle⟩, e, by rw [hscan]; exact mem_cons_self, hlt⟩
    rcases mem_append.mp hw with hw | hw
    · exact Int64.ne_of_lt (hxlt w hw)
    · rcases mem_cons.mp hw with rfl | hw
      · exact heq
      · exact (Int64.ne_of_lt (Int64.lt_trans hlt (hylt w hw))).symm

theorem scanDown_neg {seek : Int64} (hseek : seek < 0) : Wal.Cursor.scanDown seek.toUInt64 W = [] := by
  rcases @scanDown_cases W seek.toUInt64 hasc with ⟨-, hnil⟩ | ⟨x, e, y, rfl, he, -, -⟩
  · exact hnil
  · have hlt := Entry.toUInt64_lt_of_neg (hnonneg e (by simp)) hseek
    exact absurd (UInt64.lt_iff_toNat_lt.mp hlt) (not_lt.mpr he)

theorem pairwise_walScanDown {α : Type} (decodeValue : Bytes → Option α) :
    ((Wal.Cursor.scanDown key W).map (returned decodeValue)).Pairwise (fun e f => rank false e.1 < rank false f.1) := by
  have hsub := scanDown_sublist key W
  rw [← reverse_reverse (Wal.Cursor.scanDown key W)]
  exact pairwise_reverse decodeValue (hasc.sublist hsub) (fun f hf => hnonneg f (hsub.subset hf))

end

end Cache

/-! ## The cursor over the blocks -/

section Blocks

variable {Z : Snappy} {bkt : Bucket} {chunks : List (List Entry)} {seek : Int64}

variable {es : List Entry} {pre post : List (List Entry)}

section

variable (h : Stores Z bkt chunks) (hchunks : chunks = pre ++ es :: post)
include h hchunks

/-- A seek to a block that is not after it returns the entries up to the seek. -/
theorem Stores.mem_scanDown
    (hseek : 0 ≤ seek) (hfirst : firstTime es ≤ seek) (hafter : ∀ e ∈ post.flatten, seek < e.time)
    (e : Entry) :
    e ∈ Cursor.scanDown seek.toUInt64 pre es ↔ e ∈ chunks.flatten ∧ e.time ≤ seek := by
  subst hchunks
  have hes : es ∈ pre ++ es :: post := by simp
  have hkey : ∀ f ∈ es, (f.key ≤ seek.toUInt64.toNat ↔ f.time ≤ seek) := by
    intro f hf
    have hlt := Entry.key_lt_iff (a := ⟨seek, []⟩) (b := f) hseek (h.chunk_fits hes f hf).nonneg
    rw [← not_lt, ← Int64.not_lt]
    exact not_congr hlt
  have hpre : ∀ f ∈ pre.flatten, f.time ≤ seek :=
    fun f hf => Int64.le_of_lt (Int64.lt_of_lt_of_le (h.time_lt_firstTime rfl f hf) hfirst)
  obtain ⟨x, hx, hfx⟩ := firstTime_mem (h.nonempty es hes)
  have hxmem : x ∈ es.filter (fun e => e.key ≤ seek.toUInt64.toNat) := by
    rw [mem_filter, decide_eq_true_iff, hkey x hx, ← hfx]
    exact ⟨hx, hfirst⟩
  have hmem : e ∈ Cursor.scanDown seek.toUInt64 pre es ↔
      e ∈ pre.flatten ∨ e ∈ es.filter (fun e => e.key ≤ seek.toUInt64.toNat) := by
    rw [Cursor.scanDown, List.getLast?_eq_some_getLast (ne_nil_of_mem hxmem)]
    simp only [mem_cons, mem_reverse, mem_append]
    refine or_iff_right_of_imp (fun heq => .inr ?_)
    rw [heq]
    exact getLast_mem _
  rw [hmem, flatten_append, flatten_cons, mem_append, mem_append, mem_filter, decide_eq_true_iff]
  constructor
  · rintro (he | ⟨he, hle⟩)
    · exact ⟨.inl he, hpre e he⟩
    · exact ⟨.inr (.inl he), (hkey e he).mp hle⟩
  · rintro ⟨he | he | he, hle⟩
    · exact .inl he
    · exact .inr ⟨he, (hkey e he).mpr hle⟩
    · exact absurd (hafter e he) (Int64.not_lt.mpr hle)

/-- What is returned of the blocks: an entry, and entries that are not after it. -/
theorem Stores.scanDown_eq (key : UInt64) :
    ∃ (e : Entry) (l : List Entry), Cursor.scanDown key pre es = e :: l.reverse ∧ e ∈ chunks.flatten ∧ l.Sublist chunks.flatten ∧
      ∀ f ∈ l, f.key ≤ e.key := by
  subst hchunks
  have hasc := h.ascending
  rw [flatten_append, flatten_cons] at hasc ⊢
  have hsub : (pre.flatten ++ es.filter (fun e => e.key ≤ key.toNat)).Sublist
      (pre.flatten ++ (es ++ post.flatten)) :=
    (List.Sublist.refl _).append (filter_sublist.trans (sublist_append_left _ _))
  rw [Cursor.scanDown]
  split
  · rename_i e he
    obtain ⟨ys, hys⟩ := List.getLast?_eq_some_iff.mp he
    refine ⟨e, _, rfl, hsub.subset (mem_append_right _ (mem_of_getLast? he)), hsub, ?_⟩
    rw [hys, ← append_assoc] at hsub ⊢
    rw [forall_mem_append, forall_mem_singleton]
    exact ⟨fun f hf => ((ascending_append.mp (hasc.sublist hsub)).2.2 f hf e mem_cons_self).le, le_rfl⟩
  · obtain ⟨e, es, rfl⟩ := exists_cons_of_ne_nil (h.nonempty es (by simp))
    exact ⟨e, pre.flatten, rfl, by simp, sublist_append_left _ _,
      fun f hf => ((ascending_append.mp hasc).2.2 f hf e (by simp)).le⟩

theorem Stores.mem_of_mem_scanDown (he : e ∈ Cursor.scanDown key pre es) : e ∈ chunks.flatten := by
  obtain ⟨x, l, hscan, hx, hsub, -⟩ := h.scanDown_eq hchunks key
  rw [hscan, mem_cons, mem_reverse] at he
  rcases he with rfl | he
  · exact hx
  · exact hsub.subset he

theorem Stores.not_inBlocks (hlt : seek < firstTime es) (hpre : ∀ e ∈ pre.flatten, e.time < seek) :
    ¬ InBlocks seek chunks := by
  have hes : es ∈ chunks := by simp [hchunks]
  have hlast := Int64.lt_of_lt_of_le hlt (h.firstTime_le_lastTime hes)
  rintro (hnil | ⟨-, ⟨c, hc, hle, hge⟩ | hall⟩)
  · exact ne_nil_of_mem hes hnil
  · have hc' := hc
    rw [hchunks, mem_append, mem_cons] at hc'
    rcases hc' with hcpre | rfl | hcpost
    · obtain ⟨y, hy, hlasty⟩ := lastTime_mem (h.nonempty c hc)
      rw [hlasty] at hge
      exact Int64.not_lt.mpr hge (hpre y (mem_flatten.mpr ⟨c, hcpre, hy⟩))
    · exact Int64.not_lt.mpr hle hlt
    · obtain ⟨y, hy, hfirsty⟩ := firstTime_mem (h.nonempty c hc)
      rw [hfirsty] at hle
      have hpost := h.lastTime_lt_time hchunks y (mem_flatten.mpr ⟨c, hcpost, hy⟩)
      exact Int64.not_lt.mpr hle (Int64.lt_trans hlast hpost)
  · obtain ⟨x, hx, hlastx⟩ := lastTime_mem (h.nonempty es hes)
    rw [hlastx] at hlast
    exact Int64.not_lt.mpr (Int64.le_of_lt hlast) (hall x (mem_flatten.mpr ⟨es, hes, hx⟩))

end

/-- The first entry of a block, if all of them are after the seek. -/
theorem head_mem_scanDown
    (hall : ∀ e ∈ es, key.toNat < e.key) {x : Entry} (hx : es.head? = some x) : x ∈ Cursor.scanDown key pre es := by
  have hfilter : es.filter (fun e => e.key ≤ key.toNat) = [] :=
    filter_eq_nil_iff.mpr (fun e he => by simpa using hall e he)
  rw [Cursor.scanDown, hfilter, hx]
  exact mem_append_left _ mem_cons_self

/-- What the cursor over the blocks returns: the entries up to the seek if the seek is
in the blocks, and otherwise an entry after it. -/
structure Down (seek : Int64) (chunks : List (List Entry)) (A : List Entry) : Prop where
  mem : ∀ e ∈ A, e ∈ chunks.flatten
  upTo : InBlocks seek chunks → ∀ e, e ∈ A ↔ e ∈ chunks.flatten ∧ e.time ≤ seek
  after : ¬ InBlocks seek chunks → ∃ e ∈ A, seek < e.time

theorem Down.nil (seek : Int64) : Down seek [] [] :=
  ⟨nofun, fun _ _ => ⟨nofun, fun he => absurd he.1 not_mem_nil⟩, fun hnot => absurd (.inl rfl) hnot⟩

/-- A cursor over the blocks returns `A`, which falls. -/
structure ReturnsDown {α : Type} (Z : Snappy) (decodeValue : Bytes → Option α) (bkt : Bucket)
    (chunks : List (List Entry)) (seek : Int64) (A : List Entry) : Prop where
  falls : (A.map (returned decodeValue)).Pairwise (fun e f => rank false e.1 ≤ rank false f.1)
  length_le : A.length ≤ chunks.flatten.length + 1
  scan : ∀ c : Cursor, c.bucket = bkt → c.ascending = false →
    (Cursor.cursor Z decodeValue).Scan EOF seek c (A.map (returned decodeValue))

variable {α : Type}

theorem ReturnsDown.nil (decodeValue : Bytes → Option α) (h : Stores Z bkt []) (seek : Int64) :
    ReturnsDown Z decodeValue bkt [] seek [] :=
  ⟨List.Pairwise.nil, Nat.zero_le _, fun _ hc _ => Cursor.scan_empty decodeValue (hc.trans h.blocks)⟩

theorem Stores.returnsDown (decodeValue : Bytes → Option α) (hZ : Z.RoundTrip) (h : Stores Z bkt chunks)
    (hchunks : chunks = pre ++ es :: post) (hpos : Cursor.seekPosition bkt seek = some pre.length) :
    ReturnsDown Z decodeValue bkt chunks seek (Cursor.scanDown seek.toUInt64 pre es) := by
  obtain ⟨e, l, hscan, he, hsub, hle⟩ := h.scanDown_eq hchunks seek.toUInt64
  refine ⟨?_, ?_, ?_⟩
  · rw [hscan]
    exact pairwise_cons_reverse decodeValue (h.ascending.sublist hsub) (forall_mem_cons.mpr
      ⟨(h.fits e he).nonneg, fun f hf => (h.fits f (hsub.subset hf)).nonneg⟩) hle
  · rw [hscan, length_cons, length_reverse]
    exact Nat.succ_le_succ hsub.length_le
  · subst hchunks
    rintro c rfl hdown
    exact Cursor.scan_descending decodeValue hZ hdown h.blocks hpos h.nonempty
      (h.chunk_ascending (by simp)) h.fits

/-- A negative seek goes to the last block, and is in no block. -/
theorem Stores.down_neg (h : Stores Z bkt (pre ++ [es])) (hneg : seek < 0) :
    Down seek (pre ++ [es]) (Cursor.scanDown seek.toUInt64 pre es) := by
  refine ⟨fun e => h.mem_of_mem_scanDown rfl, ?_, fun _ => ?_⟩
  · rintro (hnil | ⟨hge, -⟩)
    · exact absurd hnil (append_ne_nil_of_right_ne_nil _ (cons_ne_nil _ _))
    · exact absurd hneg (Int64.not_lt.mpr hge)
  · obtain ⟨e, l, hscan, he, -⟩ := h.scanDown_eq rfl seek.toUInt64
    exact ⟨e, hscan ▸ mem_cons_self, Int64.lt_of_lt_of_le hneg (h.fits e he).nonneg⟩

theorem Stores.exists_down (decodeValue : Bytes → Option α) (hZ : Z.RoundTrip) (h : Stores Z bkt chunks)
    (seek : Int64) : ∃ A, Down seek chunks A ∧ ReturnsDown Z decodeValue bkt chunks seek A := by
  rcases Entry.lt_or_le seek 0 with hneg | hseek
  · rcases eq_nil_or_concat' chunks with rfl | ⟨pre, es, rfl⟩
    · exact ⟨[], .nil seek, .nil decodeValue h seek⟩
    · have hpos : Cursor.seekPosition bkt seek = some pre.length := by
        rw [h.seekPosition_neg hneg, h.blocks, last_concat]
      exact ⟨_, h.down_neg hneg, h.returnsDown decodeValue hZ rfl hpos⟩
  · rcases h.seekPosition_cases hseek with ⟨rfl, -⟩ | ⟨pre, es, post, hchunks, hpos, hcases⟩
    · exact ⟨[], .nil seek, .nil decodeValue h seek⟩
    have hmem : ∀ e ∈ Cursor.scanDown seek.toUInt64 pre es, e ∈ chunks.flatten :=
      fun e => h.mem_of_mem_scanDown hchunks
    have hes : es ∈ chunks := by simp [hchunks]
    have hle := h.firstTime_le_lastTime hes
    refine ⟨_, ?_, h.returnsDown decodeValue hZ hchunks hpos⟩
    rcases hcases with ⟨hfirst, hlast⟩ | ⟨rfl, hlast⟩ | ⟨hlt, hpre⟩
    · have hin : InBlocks seek chunks := .inr ⟨hseek, .inl ⟨es, hes, hfirst, hlast⟩⟩
      refine ⟨hmem, fun _ => h.mem_scanDown hchunks hseek hfirst (fun f hf => ?_), fun hnot => absurd hin hnot⟩
      exact Int64.lt_of_le_of_lt hlast (h.lastTime_lt_time hchunks f hf)
    · have hall : ∀ e ∈ chunks.flatten, e.time < seek := by
        intro e he
        rw [hchunks, flatten_append, flatten_singleton] at he
        exact Int64.lt_of_le_of_lt (h.time_le_lastTime hchunks e he) hlast
      have hin : InBlocks seek chunks := .inr ⟨hseek, .inr hall⟩
      exact ⟨hmem, fun _ => h.mem_scanDown hchunks hseek (Int64.le_of_lt (Int64.lt_of_le_of_lt hle hlast)) nofun,
        fun hnot => absurd hin hnot⟩
    · refine ⟨hmem, fun hin => absurd hin (h.not_inBlocks hchunks hlt hpre), fun _ => ?_⟩
      obtain ⟨x, xs, rfl⟩ := exists_cons_of_ne_nil (h.nonempty es hes)
      refine ⟨x, head_mem_scanDown (fun e he => ?_) rfl, hlt⟩
      have htime := Int64.lt_of_lt_of_le hlt (firstTime_le (h.chunk_ascending hes) (h.chunk_fits hes) he)
      exact (Entry.key_lt_iff (a := ⟨seek, []⟩) (b := e) hseek (h.chunk_fits hes e he).nonneg).mpr htime

end Blocks

/-! ## Both together -/

section Tx

variable {Z : Snappy} {α : Type} (decodeValue : Bytes → Option α) {chunks : List (List Entry)} {W : List Entry}
  {seek : Int64}

theorem Stores.last {bkt : Bucket} (hZ : Z.RoundTrip) (h : Stores Z bkt chunks) :
    ∃ c, Cursor.last Z ⟨bkt, none, [], 0, false, [], 0⟩ = some c ∧ c.bucket = bkt ∧ c.ascending = false := by
  rcases eq_nil_or_concat' chunks with rfl | ⟨pre, es, rfl⟩
  · have hnil := h.blocks
    subst hnil
    exact ⟨_, rfl, rfl, rfl⟩
  have hes : es ∈ pre ++ [es] := by simp
  have hlast : bkt.last = some pre.length := by rw [h.blocks, last_concat]
  have hvalue : bkt.valueAt (some pre.length) = (blockOf Z es).2 := by rw [h.blocks, valueAt_split]
  rcases eq_nil_or_concat' es with rfl | ⟨x, e, rfl⟩
  · exact absurd rfl (h.nonempty [] hes)
  have hset := Cursor.setBuf_descending (c := ⟨bkt, none, [], 0, false, [], 0⟩) hZ rfl pre.length
    (fun f hf => (h.chunk_fits hes f hf).short)
  refine ⟨_, Eq.trans ?_ hset, rfl, rfl⟩
  rw [Cursor.last]
  simp only [hlast, hvalue]

theorem wins_two {A B : List (Int64 × Option α)} {e : Int64 × Option α} :
    MultiCursor.Wins (MultiCursor.listAt [A, B]) e ↔ e ∈ A ∨ e ∈ B ∧ ∀ f ∈ A, f.1 ≠ e.1 := by
  constructor
  · rintro ⟨i, he, hall⟩
    match i, he, hall with
    | 0, he, _ => exact .inl he
    | 1, he, hall => exact .inr ⟨he, hall 0 one_pos⟩
    | n + 2, he, _ => exact absurd he not_mem_nil
  · rintro (he | ⟨he, hall⟩)
    · exact ⟨0, he, fun j hj => absurd hj (Nat.not_lt_zero j)⟩
    · refine ⟨1, he, fun j hj => ?_⟩
      rw [Nat.lt_one_iff.mp hj]
      exact hall

theorem txCursor_scan (hZ : Z.RoundTrip) {bkt : Option Bucket} (h : Stores Z (bkt.getD []) chunks)
    (hasc : Ascending Entry.key W) (hnonneg : ∀ w ∈ W, 0 ≤ w.time) {fuel : ℕ}
    (hfuel : W.length + chunks.flatten.length + 2 ≤ fuel) :
    ∃ s, txCursor Z (W.map Entry.slice) bkt false = some s ∧ ∀ seek, ∃ A out, Down seek chunks A ∧
      (txReader Z decodeValue fuel).Scan EOF seek s out ∧
      out.Pairwise (fun e f => rank false e.1 < rank false f.1) ∧
      ∀ e, e ∈ out ↔ e ∈ (Wal.Cursor.scanDown seek.toUInt64 W).map (returned decodeValue) ∨
        e ∈ A.map (returned decodeValue) ∧
          ∀ f ∈ (Wal.Cursor.scanDown seek.toUInt64 W).map (returned decodeValue), f.1 ≠ e.1 := by
  have hne : ∀ w ∈ W, w.time ≠ EOF := fun w hw heq => absurd (hnonneg w hw) (by rw [heq]; decide)
  have hwal : ∀ seek, (Wal.Cursor.cursor decodeValue).Scan EOF seek (Wal.Cursor.new (W.map Entry.slice) false)
      ((Wal.Cursor.scanDown seek.toUInt64 W).map (returned decodeValue)) :=
    fun seek => Wal.Cursor.scan_down decodeValue rfl rfl hasc hne
  cases bkt with
  | none =>
    have hnil : chunks = [] := map_eq_nil_iff.mp h.blocks.symm
    subst hnil
    refine ⟨_, rfl, fun seek => ⟨[], _, .nil seek, (hwal seek).inl,
      pairwise_walScanDown hasc hnonneg decodeValue, fun e => ?_⟩⟩
    exact ⟨.inl, fun he => he.resolve_right (fun he' => absurd he'.1 not_mem_nil)⟩
  | some bkt =>
    rw [Option.getD_some] at h
    obtain ⟨c, hlast, hbucket, hdown⟩ := Stores.last hZ h
    have htx : (txCursor Z (W.map Entry.slice) (some bkt) false : Option (TxCursor α)) =
        some (.inr (MultiCursor.new [.inl (Wal.Cursor.new (W.map Entry.slice) false), .inr c] false)) := by
      rw [txCursor]
      simp only [Bool.false_eq_true, if_false, hlast]
      rfl
    refine ⟨_, htx, fun seek => ?_⟩
    obtain ⟨A, hA, hpair, hlen, hscan⟩ := h.exists_down decodeValue hZ seek
    have hwsub := scanDown_sublist seek.toUInt64 W
    have hwlen := hwsub.length_le
    rw [length_reverse] at hwlen
    have hsum : (([(Wal.Cursor.scanDown seek.toUInt64 W).map (returned decodeValue),
        A.map (returned decodeValue)]).map List.length).sum < fuel := by
      simp only [map_cons, map_nil, sum_cons, sum_nil, length_map]
      omega
    obtain ⟨out, hout, hsorted, hmem⟩ := MultiCursor.multiCursor_scan false
      (.cons ((hwal seek).inl (d := Cursor.cursor Z decodeValue))
        (.cons ((hscan c hbucket hdown).inr (c := Wal.Cursor.cursor decodeValue)) .nil))
      (forall_mem_cons.mpr ⟨(pairwise_walScanDown hasc hnonneg decodeValue).imp le_of_lt,
        forall_mem_singleton.mpr hpair⟩)
      (forall_mem_cons.mpr ⟨functional_returned decodeValue hasc (fun e he => hwsub.subset (mem_reverse.mpr he)),
        forall_mem_singleton.mpr (functional_returned decodeValue h.ascending hA.mem)⟩)
      hsum
    exact ⟨A, out, hA, hout.inr, hsorted, fun e => by rw [hmem e, wins_two]⟩

theorem mem_entriesUpTo (hB : Ascending Entry.key B) (hasc : Ascending Entry.key W)
    {e : Int64 × Option α} : e ∈ entriesUpTo decodeValue seek (overlay Entry.key B W) ↔
      ∃ p, (p ∈ W ∨ p ∈ B ∧ ∀ w ∈ W, w.time ≠ p.time) ∧ p.time ≤ seek ∧ returned decodeValue p = e := by
  simp only [entriesUpTo, mem_map, mem_reverse, mem_filter, decide_eq_true_iff,
    mem_overlay hB hasc, ne_eq, Entry.key_eq_iff, and_assoc]

/-- All entries up to the seek, with the cache over the blocks. -/
def Complete (seek : Int64) (W B : List Entry) (A₀ A₁ : List Entry) : Prop :=
  ∀ e, (e ∈ A₀.map (returned decodeValue) ∨
      e ∈ A₁.map (returned decodeValue) ∧ ∀ f ∈ A₀.map (returned decodeValue), f.1 ≠ e.1) ↔
    ∃ p, (p ∈ W ∨ p ∈ B ∧ ∀ w ∈ W, w.time ≠ p.time) ∧ p.time ≤ seek ∧ returned decodeValue p = e

theorem Complete.le {A₀ A₁ : List Entry} (h : Complete decodeValue seek W B A₀ A₁)
    (he : e ∈ A₀ ∨ e ∈ A₁) : e.time ≤ seek := by
  have hreturned : ∀ x : Entry, (returned decodeValue x ∈ A₀.map (returned decodeValue) ∨
      returned decodeValue x ∈ A₁.map (returned decodeValue) ∧
        ∀ f ∈ A₀.map (returned decodeValue), f.1 ≠ (returned decodeValue x).1) → x.time ≤ seek := by
    intro x hx
    obtain ⟨p, -, hp, heq⟩ := (h _).mp hx
    have htime : p.time = x.time := congrArg Prod.fst heq
    rwa [← htime]
  by_cases hkey : ∃ w ∈ A₀, w.time = e.time
  · obtain ⟨w, hw, heq⟩ := hkey
    rw [← heq]
    exact hreturned w (.inl (mem_map_of_mem hw))
  refine hreturned e ?_
  rcases he with he | he
  · exact absurd ⟨e, he, rfl⟩ hkey
  · refine .inr ⟨mem_map_of_mem he, fun f hf heq => hkey ?_⟩
    obtain ⟨w, hw, rfl⟩ := mem_map.mp hf
    exact ⟨w, hw, heq⟩

theorem Complete.readsBack (hasc : Ascending Entry.key W) (hnonneg : ∀ w ∈ W, 0 ≤ w.time)
    (hA : Down seek chunks A)
    (h : Complete decodeValue seek W chunks.flatten (Wal.Cursor.scanDown seek.toUInt64 W) A) :
    ReadsBack decodeValue seek W chunks where
  cache := by
    rcases Entry.lt_or_le seek 0 with hneg | hseek
    · exact .inl hneg
    right
    rcases scanDown_spec hasc hnonneg hseek with ⟨hall, hnil⟩ | ⟨hfound, -⟩ | ⟨-, -, e, he, hlt⟩
    · refine .inr (fun w hw => ⟨hall w hw, ?_⟩)
      rw [hnil] at h
      rcases (h (returned decodeValue w)).mpr ⟨w, .inl hw, Int64.le_of_lt (hall w hw), rfl⟩ with hmem | ⟨hmem, -⟩
      · exact absurd hmem not_mem_nil
      · obtain ⟨b, hb, heq⟩ := mem_map.mp hmem
        exact ⟨b, hA.mem b hb, heq⟩
    · exact .inl hfound
    · exact absurd hlt (Int64.not_lt.mpr (h.le decodeValue (.inl he)))
  blocks := by
    by_contra hnot
    obtain ⟨e, he, hlt⟩ := hA.after hnot
    exact Int64.not_lt.mpr (h.le decodeValue (.inr he)) hlt

/-- Nothing of the cache is returned, and the blocks have all of it. -/
theorem complete_of_blocks (hB : Ascending Entry.key B) (hA : ∀ e, e ∈ A ↔ e ∈ B ∧ e.time ≤ seek)
    (hsame : ∀ w ∈ W, w.time ≤ seek → ∃ b ∈ B, returned decodeValue b = returned decodeValue w) :
    Complete decodeValue seek W B [] A := by
  intro e
  simp only [map_nil, not_mem_nil, false_or, mem_map, hA]
  constructor
  · rintro ⟨⟨b, ⟨hb, hle⟩, rfl⟩, -⟩
    by_cases hover : ∃ w ∈ W, w.time = b.time
    · obtain ⟨w, hw, htime⟩ := hover
      obtain ⟨b', hb', heq⟩ := hsame w hw (by rw [htime]; exact hle)
      have hbb : b' = b := hB.eq_of_key_eq hb' hb (Entry.key_eq_iff.mpr ((congrArg Prod.fst heq).trans htime))
      exact ⟨w, .inl hw, by rw [htime]; exact hle, by rw [← heq, hbb]⟩
    · exact ⟨b, .inr ⟨hb, fun w hw heq => hover ⟨w, hw, heq⟩⟩, hle, rfl⟩
  · rintro ⟨p, hp | ⟨hp, -⟩, hle, rfl⟩
    · obtain ⟨b, hb, heq⟩ := hsame p hp hle
      have htime : b.time = p.time := congrArg Prod.fst heq
      exact ⟨⟨b, ⟨hb, by rw [htime]; exact hle⟩, heq⟩, nofun⟩
    · exact ⟨⟨p, ⟨hp, hle⟩, rfl⟩, nofun⟩

/-- Both return what they have up to the seek. -/
theorem complete_of_both {A₀ : List Entry} (hA₀ : ∀ e, e ∈ A₀ ↔ e ∈ W ∧ e.time ≤ seek)
    (hA : ∀ e, e ∈ A ↔ e ∈ B ∧ e.time ≤ seek) : Complete decodeValue seek W B A₀ A := by
  intro e
  simp only [mem_map, hA₀, hA]
  constructor
  · rintro (⟨w, ⟨hw, hle⟩, rfl⟩ | ⟨⟨b, ⟨hb, hle⟩, rfl⟩, hother⟩)
    · exact ⟨w, .inl hw, hle, rfl⟩
    · refine ⟨b, .inr ⟨hb, fun w hw heq => ?_⟩, hle, rfl⟩
      exact hother _ ⟨w, ⟨hw, by rw [heq]; exact hle⟩, rfl⟩ heq
  · rintro ⟨p, hp | ⟨hp, hother⟩, hle, rfl⟩
    · exact .inl ⟨p, ⟨hp, hle⟩, rfl⟩
    · refine .inr ⟨⟨p, ⟨hp, hle⟩, rfl⟩, ?_⟩
      rintro f ⟨w, ⟨hw, -⟩, rfl⟩ heq
      exact hother w hw heq

theorem ReadsBack.complete (hB : Ascending Entry.key chunks.flatten)
    (hasc : Ascending Entry.key W) (hnonneg : ∀ w ∈ W, 0 ≤ w.time) (hA : Down seek chunks A)
    (h : ReadsBack decodeValue seek W chunks) :
    Complete decodeValue seek W chunks.flatten (Wal.Cursor.scanDown seek.toUInt64 W) A := by
  have hmemA := hA.upTo h.blocks
  rcases Entry.lt_or_le seek 0 with hneg | hseek
  · rw [scanDown_neg hasc hnonneg hneg]
    refine complete_of_blocks decodeValue hB hmemA (fun w hw hle => ?_)
    exact absurd hneg (Int64.not_lt.mpr (Int64.le_trans (hnonneg w hw) hle))
  rcases scanDown_spec hasc hnonneg hseek with ⟨hall, hnil⟩ | ⟨-, hmemW⟩ | ⟨hne, ⟨w, hw, hle⟩, -⟩
  · rw [hnil]
    refine complete_of_blocks decodeValue hB hmemA (fun w hw _ => ?_)
    rcases h.cache with hneg | ⟨v, hv, heq⟩ | hsame
    · exact absurd hneg (Int64.not_lt.mpr hseek)
    · exact absurd (hall v hv) (by rw [heq]; exact Int64.lt_irrefl)
    · exact (hsame w hw).2
  · exact complete_of_both decodeValue hmemW hmemA
  · exfalso
    rcases h.cache with hneg | ⟨v, hv, heq⟩ | hsame
    · exact Int64.not_lt.mpr hseek hneg
    · exact hne v hv heq
    · exact Int64.not_lt.mpr hle (hsame w hw).1

/-- **Reading back over the WAL and the blocks**: the points up to the seek, each once,
the last of them first and that of the WAL on a tie, if and only if both cursors find
the seek. -/
theorem tx_scan_descending_iff {Z : Snappy} {α : Type} (hZ : Z.RoundTrip) (decodeValue : Bytes → Option α)
    (W : List Entry) (hasc : Ascending Entry.key W) (hnonneg : ∀ w ∈ W, 0 ≤ w.time)
    (bkt : Option Bucket) (chunks : List (List Entry)) (h : Stores Z (bkt.getD []) chunks) (fuel : ℕ)
    (hfuel : W.length + chunks.flatten.length + 2 ≤ fuel) :
    ∃ s, txCursor Z (W.map Entry.slice) bkt false = some s ∧ ∀ seek : Int64,
      ((txReader Z decodeValue fuel).Scan EOF seek s
          (entriesUpTo decodeValue seek (overlay Entry.key chunks.flatten W)) ↔
        ReadsBack decodeValue seek W chunks) := by
  obtain ⟨s, htx, hscan⟩ := txCursor_scan decodeValue hZ h hasc hnonneg hfuel
  refine ⟨s, htx, fun seek => ?_⟩
  obtain ⟨A, out, hA, hout, hsorted, hmem⟩ := hscan seek
  have hBnonneg : ∀ b ∈ chunks.flatten, 0 ≤ b.time := fun b hb => (h.fits b hb).nonneg
  have hexpected : (entriesUpTo decodeValue seek (overlay Entry.key chunks.flatten W)).Pairwise
      (fun e f => rank false e.1 < rank false f.1) := by
    have hover : Ascending Entry.key (overlay Entry.key chunks.flatten W) :=
      ascending_overlay W h.ascending
    refine pairwise_reverse decodeValue (hover.sublist filter_sublist) (fun e he => ?_)
    rcases mem_of_mem_overlay h.ascending (mem_of_mem_filter he) with he | he
    · exact hBnonneg e he
    · exact hnonneg e he
  constructor
  · intro hread
    refine Complete.readsBack decodeValue hasc hnonneg hA (fun e => ?_)
    rw [← hmem e, hout.unique hread]
    exact mem_entriesUpTo decodeValue h.ascending hasc
  · intro hback
    have hcomplete := hback.complete decodeValue h.ascending hasc hnonneg hA
    have heq : entriesUpTo decodeValue seek (overlay Entry.key chunks.flatten W) = out := by
      refine @Keyed.ascending_ext _ _ _ (fun e : Int64 × Option α => rank false e.1) _ _ hexpected hsorted (fun e => ?_)
      rw [hmem e, hcomplete e]
      exact mem_entriesUpTo decodeValue h.ascending hasc
    rw [heq]
    exact hout

def oneBlock : Bucket := [blockOf Snappy.plain [⟨1, [10]⟩, ⟨5, [50]⟩]]

theorem oneBlock_stores : Stores Snappy.plain oneBlock [[⟨1, [10]⟩, ⟨5, [50]⟩]] where
  blocks := rfl
  nonempty := forall_mem_singleton.mpr (cons_ne_nil _ _)
  ascending := by decide
  fits := by
    rw [flatten_singleton, forall_mem_cons, forall_mem_singleton]
    exact ⟨⟨by decide, by decide⟩, ⟨by decide, by decide⟩⟩

/-- A seek to a time that both have. -/
theorem tx_scan_descending_both :
    ∃ s, txCursor Snappy.plain ([⟨5, [51]⟩].map Entry.slice) (some oneBlock) false = some s ∧
      (txReader Snappy.plain some 5).Scan EOF 5 s [(5, some [51]), (1, some [10])] := by
  obtain ⟨s, htx, hscan⟩ := tx_scan_descending_iff Snappy.plain_roundTrip some [⟨5, [51]⟩] (pairwise_singleton _ _)
    (forall_mem_singleton.mpr (by decide)) (some oneBlock) _ oneBlock_stores 5 (by decide)
  refine ⟨s, htx, (hscan 5).mpr ⟨.inr (.inl ⟨_, mem_cons_self, rfl⟩), .inr ⟨by decide, .inl ?_⟩⟩⟩
  exact ⟨_, mem_cons_self, by decide, by decide⟩

/-- A point of the WAL at 3, and a seek to 7. -/
theorem tx_scan_descending_lost :
    ∃ s, txCursor Snappy.plain ([⟨3, [30]⟩].map Entry.slice) (some oneBlock) false = some s ∧
      (txReader Snappy.plain some 5).Scan EOF 7 s [(5, some [50]), (1, some [10])] ∧
      entriesUpTo some 7 (overlay Entry.key [⟨1, [10]⟩, ⟨5, [50]⟩] [⟨3, [30]⟩]) =
        [(5, some [50]), (3, some [30]), (1, some [10])] :=
  ⟨_, rfl, .step rfl (by decide) (.step rfl (by decide) (.eof rfl)), by decide⟩

end Tx

end AndyEnv.Bz1
