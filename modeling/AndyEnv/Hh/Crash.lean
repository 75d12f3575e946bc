import AndyEnv.Hh.Restart

/-!
# A crash in the middle of an operation

The process stops between two writes of an `append` or `advance` of a segment, and
the segment is opened again. An `advance` has one write. An `append` has three, and
after the first of them the length of the new record is where the footer was.
-/

namespace AndyEnv.Hh

open List Bytes

inductive SegmentOp : Type
  | append (b : Bytes)
  | advance
deriving DecidableEq, Repr

variable {v : UInt64} {maxSize : Int64} {k : ℕ}

namespace Segment

/-! ## The writes of an operation -/

def writes (s : Segment) : SegmentOp → List Bytes
  | .append b => if s.size + b.length > s.maxSize.toInt then [] else s.appendWrites b
  | .advance => if s.AtEnd then [] else [putUint64 (UInt64.ofInt s.nextPos)]

def crashed (s : Segment) (file : Bytes) (op : SegmentOp) (k : ℕ) : Bytes :=
  match seekFooter file with
  | .error _ => file
  | .ok footer => writeBytes file footer ((s.writes op).take k) none

def after (s : Segment) (file : Bytes) : SegmentOp → Bytes
  | .append b => (s.append file b none).2.2
  | .advance => (s.advance file none).2.2

/-- Two files are opened as the same segment, with the same records. -/
def ShowsAs (maxSize : Int64) (file file' : Bytes) : Prop :=
  ∃ s, newSegment maxSize file none = (.ok s, file) ∧ newSegment maxSize file' none = (.ok s, file') ∧
    s.unread file = s.unread file'

/-- **Crash atomicity**: after any number of the writes the segment can be opened, and is as before the
operation or as after it. -/
def CrashAtomic (s : Segment) (file : Bytes) (op : SegmentOp) : Prop :=
  ∀ k, ShowsAs s.maxSize (s.crashed file op k) file ∨
    ShowsAs s.maxSize (s.crashed file op k) (s.after file op)

/-- An open segment whose file has its position in the footer. -/
structure Intact (s : Segment) (file : Bytes) : Prop where
  isOpen : s.isOpen = true
  size : s.size = file.length
  footed : s.Footed file
  pos_nonneg : 0 ≤ s.pos
  pos_lt : s.pos < 2 ^ 63

/-- The position that an `advance` writes is one that can be read. -/
def Safe (s : Segment) : SegmentOp → Prop
  | .append b => s.size + b.length > s.maxSize.toInt ∨ b = [] ∧ s.pos = 0
  | .advance => s.AtEnd ∨ 0 ≤ int64 (UInt64.ofInt s.nextPos)

/-! ## Opening a file -/

theorem footer_spec (records : Bytes) (v : UInt64) :
    (records ++ putUint64 v).length = records.length + 8 ∧
      readUint64 (records ++ putUint64 v) records.length = .ok v := by
  have h := readUint64_append records v []
  rw [append_nil] at h
  exact ⟨by rw [length_append, length_putUint64], h⟩

theorem newSegment_footer (maxSize : Int64) (records : Bytes) (hv : 0 ≤ int64 v) : ∃ c,
    newSegment maxSize (records ++ putUint64 v) none =
      (.ok ⟨true, (records ++ putUint64 v).length, int64 v, c, maxSize⟩,
        records ++ putUint64 v) := by
  obtain ⟨hlen, hread⟩ := footer_spec records v
  have hseek : seek (int64 v) = .ok (int64 v).toNat := by
    unfold seek
    rw [if_neg (by omega)]
  unfold newSegment
  simp only [hlen]
  rw [if_neg (by omega)]
  unfold openExisting
  simp only [seekFooter_append (length_putUint64 v), hread, hseek, bind, Except.bind, pure, Except.pure]
  by_cases hlt : int64 v < ((records.length + 8 : ℕ) : ℤ) - footerSize
  · have hbytes : ∃ w, readUint64 (records ++ putUint64 v) (int64 v).toNat = .ok w := by
      unfold readUint64 readBytes
      simp only [footerSize] at hlt
      rw [if_neg (by decide), hlen, if_neg (by omega), if_neg (by omega)]
      exact ⟨_, rfl⟩
    obtain ⟨w, hw⟩ := hbytes
    rw [if_pos hlt, hw]
    exact ⟨_, rfl⟩
  · rw [if_neg hlt]
    exact ⟨_, rfl⟩

variable {s : Segment} {file file' : Bytes}

theorem nonneg_of_newSegment {records : Bytes}
    (h : newSegment maxSize (records ++ putUint64 v) none = (.ok s, file)) : 0 ≤ int64 v := by
  by_contra hneg
  obtain ⟨hlen, hread⟩ := footer_spec records v
  have hseek : seek (int64 v) = .error .invalid := if_pos (by omega)
  unfold newSegment at h
  simp only [hlen] at h
  rw [if_neg (by omega)] at h
  unfold openExisting at h
  simp only [seekFooter_append (length_putUint64 v), hread, hseek, bind, Except.bind] at h
  cases (Prod.mk.inj h).1

theorem size_of_openExisting {t : Segment} (h : s.openExisting file = .ok t) : t.size = s.size := by
  obtain ⟨footer, -, h⟩ := except_bind_eq_ok.mp h
  obtain ⟨pos, -, h⟩ := except_bind_eq_ok.mp h
  obtain ⟨offset, -, h⟩ := except_bind_eq_ok.mp h
  split at h
  · obtain ⟨size, -, h⟩ := except_bind_eq_ok.mp h
    cases h
    rfl
  · cases h
    rfl

theorem size_of_newSegment (hfile : file ≠ [])
    (h : newSegment maxSize file none = (.ok s, file')) : s.size = file.length := by
  unfold newSegment at h
  have hne : ¬(file.length : ℤ) = 0 := by
    intro heq
    exact hfile (length_eq_zero_iff.mp (by omega))
  rw [if_neg hne] at h
  exact size_of_openExisting (Prod.mk.inj h).1

theorem showsAs_self (maxSize : Int64) (records : Bytes) (hv : 0 ≤ int64 v) :
    ShowsAs maxSize (records ++ putUint64 v) (records ++ putUint64 v) := by
  obtain ⟨c, hc⟩ := newSegment_footer maxSize records hv
  exact ⟨_, hc, hc, rfl⟩

theorem ShowsAs.length_eq (h : ShowsAs maxSize file file')
    (hfile : file ≠ []) (hfile' : file' ≠ []) : file.length = file'.length := by
  obtain ⟨s, hs, hs', -⟩ := h
  have hsize := (size_of_newSegment hfile hs).symm.trans (size_of_newSegment hfile' hs')
  exact_mod_cast hsize

/-! ## The operations -/

section

variable {s : Segment} {records : Bytes}

theorem crashed_of_nil {op : SegmentOp} (h : (s.writes op).take k = []) :
    s.crashed (records ++ putUint64 v) op k = records ++ putUint64 v := by
  unfold crashed
  rw [seekFooter_append (length_putUint64 v), h]
  simp [writeBytes, Dir.overwrite]

theorem crashed_of_cons {w : UInt64} {op : SegmentOp} {ws : List Bytes}
    (h : (s.writes op).take k = putUint64 w :: ws) :
    s.crashed (records ++ putUint64 v) op k = records ++ (putUint64 w ++ ws.flatten) := by
  unfold crashed
  rw [seekFooter_append (length_putUint64 v), h]
  refine writeBytes_footer (length_putUint64 v) _ ?_
  rw [flatten_cons, length_append, length_putUint64]
  exact Nat.le_add_right _ _

theorem crashed_all (hopen : s.isOpen = true) (op : SegmentOp) (hk : (s.writes op).length ≤ k) :
    s.crashed (records ++ putUint64 v) op k = s.after (records ++ putUint64 v) op := by
  have hnot : ¬s.isOpen = false := by
    rw [hopen]
    decide
  have hall : (s.writes op).take k = s.writes op := take_of_length_le hk
  cases op with
  | append b =>
    show _ = (s.append _ b none).2.2
    unfold append
    rw [if_neg hnot]
    by_cases hfull : s.size + b.length > s.maxSize.toInt
    · rw [if_pos hfull, crashed_of_nil]
      rw [hall]
      exact if_pos hfull
    · have hwrites : s.writes (.append b) = s.appendWrites b := if_neg hfull
      rw [if_neg hfull]
      unfold crashed
      rw [hall, hwrites, seekFooter_append (length_putUint64 v)]
  | advance =>
    show _ = (s.advance _ none).2.2
    unfold advance
    rw [if_neg hnot]
    by_cases hend : s.pos = s.size - footerSize
    · rw [if_pos hend, crashed_of_nil]
      rw [hall]
      exact if_pos hend
    · have hwrites : s.writes .advance = [putUint64 (UInt64.ofInt s.nextPos)] := if_neg hend
      rw [if_neg hend]
      unfold crashed
      rw [hall, hwrites, seekFooter_append (length_putUint64 v)]

end

variable {s : Segment} {file : Bytes}

section

variable (h : s.Intact file)
include h

theorem Intact.int64_pos : int64 (UInt64.ofInt s.pos) = s.pos := by
  have hlt := h.pos_lt
  obtain ⟨n, hn⟩ := Int.eq_ofNat_of_zero_le h.pos_nonneg
  rw [hn] at hlt ⊢
  rw [ofInt_natCast]
  exact int64_ofNat (by omega)

theorem Intact.showsAs : ShowsAs s.maxSize file file := by
  obtain ⟨records, hfile⟩ := h.footed
  rw [hfile]
  exact showsAs_self _ _ (by rw [h.int64_pos]; exact h.pos_nonneg)

theorem Intact.showsAs_crashed {op : SegmentOp} (hnil : (s.writes op).take k = []) :
    ShowsAs s.maxSize (s.crashed file op k) file := by
  obtain ⟨records, hfile⟩ := h.footed
  rw [hfile, crashed_of_nil hnil, ← hfile]
  exact h.showsAs

/-- **An `append` is atomic if it writes nothing**, or an empty record to a segment that has not been read;
and in no other case. -/
theorem Intact.append_atomic_iff (b : Bytes) :
    s.CrashAtomic file (.append b) ↔ s.Safe (.append b) := by
  obtain ⟨records, hfile⟩ := h.footed
  by_cases hfull : s.size + b.length > s.maxSize.toInt
  · have hwrites : s.writes (.append b) = [] := if_pos hfull
    exact ⟨fun _ => .inl hfull, fun _ k => .inl (h.showsAs_crashed (by rw [hwrites, take_nil]))⟩
  have hwrites : s.writes (.append b) = s.appendWrites b := if_neg hfull
  have hsize := h.size
  have hmax := s.maxSize.toInt_lt
  have hfit : b.length < 2 ^ 63 := by omega
  have hfirst : s.crashed file (.append b) 1 = records ++ putUint64 (UInt64.ofNat b.length) := by
    rw [hfile, crashed_of_cons (by rw [hwrites]; rfl)]
    simp
  have hsecond : s.crashed file (.append b) 2 =
      records ++ (putUint64 (UInt64.ofNat b.length) ++ b) := by
    rw [hfile, crashed_of_cons (by rw [hwrites]; rfl)]
    simp
  have hafter : s.after file (.append b) =
      records ++ (putUint64 (UInt64.ofNat b.length) ++ (b ++ putUint64 (UInt64.ofInt s.pos))) := by
    rw [hfile, ← crashed_all h.isOpen (.append b) (le_refl _), crashed_of_cons (by
      rw [take_length, hwrites]; rfl)]
    simp
  have hlength : file.length = records.length + 8 := by
    rw [hfile, (footer_spec records _).1]
  have hlengthAfter : (s.after file (.append b)).length = records.length + 8 + b.length + 8 := by
    rw [hafter]
    simp only [length_append, length_putUint64]
    omega
  have hne : file ≠ [] := ne_nil_of_length_pos (by omega)
  have hneAfter : s.after file (.append b) ≠ [] := ne_nil_of_length_pos (by omega)
  constructor
  · intro hatomic
    have hpos : (b.length : ℤ) = s.pos := by
      have hlen := (footer_spec records (UInt64.ofNat b.length)).1
      rcases hatomic 1 with hbefore | hshows
      · obtain ⟨t, hcrashed, hopened, -⟩ := hbefore
        obtain ⟨c, hc⟩ := newSegment_footer s.maxSize records
          (show 0 ≤ int64 (UInt64.ofNat b.length) by rw [int64_ofNat hfit]; omega)
        obtain ⟨c', hc'⟩ := newSegment_footer s.maxSize records
          (show 0 ≤ int64 (UInt64.ofInt s.pos) by rw [h.int64_pos]; exact h.pos_nonneg)
        rw [hfirst, hc] at hcrashed
        rw [hfile, hc'] at hopened
        have heq := Except.ok.inj ((Prod.mk.inj hcrashed).1.trans (Prod.mk.inj hopened).1.symm)
        have hposEq := congrArg Segment.pos heq
        simp only [int64_ofNat hfit, h.int64_pos] at hposEq
        exact hposEq
      · rw [hfirst] at hshows
        have := hshows.length_eq (ne_nil_of_length_pos (by omega)) hneAfter
        omega
    have hempty : b.length = 0 := by
      have hlen : (s.crashed file (.append b) 2).length = records.length + 8 + b.length := by
        rw [hsecond, length_append, length_append, length_putUint64]
        omega
      have hne₂ : s.crashed file (.append b) 2 ≠ [] := ne_nil_of_length_pos (by omega)
      rcases hatomic 2 with hshows | hshows
      · have := hshows.length_eq hne₂ hne
        omega
      · have := hshows.length_eq hne₂ hneAfter
        omega
    exact .inr ⟨length_eq_zero_iff.mp hempty, by omega⟩
  · rintro (habsurd | ⟨rfl, hpos⟩)
    · exact absurd habsurd hfull
    · have hsame : records ++ putUint64 (UInt64.ofNat ([] : Bytes).length) = file := by
        rw [hfile, hpos]
        rfl
      intro k
      match k with
      | 0 => exact .inl (h.showsAs_crashed take_zero)
      | 1 =>
        left
        rw [hfirst, hsame]
        exact h.showsAs
      | 2 =>
        left
        rw [hsecond, append_nil, hsame]
        exact h.showsAs
      | k + 3 =>
        right
        rw [hfile, crashed_all h.isOpen (.append []) (by rw [hwrites]; exact Nat.le_add_left 3 k),
          ← hfile, hafter, nil_append, ← append_assoc]
        exact showsAs_self _ _ (by rw [h.int64_pos]; exact h.pos_nonneg)

/-- **An `advance` is atomic** if the position that it writes can be read again. -/
theorem Intact.advance_atomic_iff : s.CrashAtomic file .advance ↔ s.Safe .advance := by
  obtain ⟨records, hfile⟩ := h.footed
  by_cases hend : s.AtEnd
  · have hwrites : s.writes .advance = [] := if_pos hend
    exact ⟨fun _ => .inl hend, fun _ k => .inl (h.showsAs_crashed (by rw [hwrites, take_nil]))⟩
  have hwrites : s.writes .advance = [putUint64 (UInt64.ofInt s.nextPos)] := if_neg hend
  have hfirst : ∀ k, s.crashed file .advance (k + 1) =
      records ++ putUint64 (UInt64.ofInt s.nextPos) := by
    intro k
    rw [hfile, crashed_of_cons (by rw [hwrites]; rfl)]
    simp
  have hafter : s.after file .advance = records ++ putUint64 (UInt64.ofInt s.nextPos) := by
    rw [← hfirst 0, hfile]
    exact (crashed_all h.isOpen .advance (by rw [hwrites]; exact le_refl _)).symm
  constructor
  · intro hatomic
    right
    rcases hatomic 1 with ⟨t, ht, -⟩ | ⟨t, ht, -⟩
    · rw [hfirst 0] at ht
      exact nonneg_of_newSegment ht
    · rw [hfirst 0] at ht
      exact nonneg_of_newSegment ht
  · rintro (habsurd | hnext)
    · exact absurd habsurd hend
    · intro k
      cases k with
      | zero => exact .inl (h.showsAs_crashed take_zero)
      | succ k =>
        right
        rw [hfirst k, hafter]
        exact showsAs_self _ _ hnext

end

/-- **Which operations are crash-atomic.** -/
theorem crashAtomic_iff (h : s.Intact file) (op : SegmentOp) : s.CrashAtomic file op ↔ s.Safe op := by
  cases op with
  | append b => exact h.append_atomic_iff b
  | advance => exact h.advance_atomic_iff

/-- A new segment, and one with a record that has not been read. -/
theorem crashAtomic_new : (⟨true, 8, 0, 0, 100⟩ : Segment).CrashAtomic (putUint64 0) (.append []) ∧
      (⟨true, 18, 0, 2, 100⟩ : Segment).CrashAtomic (Frames.frame [5, 6] ++ putUint64 0) .advance :=
  ⟨(crashAtomic_iff ⟨rfl, rfl, ⟨[], rfl⟩, by decide, by decide⟩ _).mpr (.inr ⟨rfl, rfl⟩),
    (crashAtomic_iff ⟨rfl, rfl, ⟨Frames.frame [5, 6], rfl⟩, by decide, by decide⟩ _).mpr
      (.inr (by decide +kernel))⟩

/-- A segment with the record 5, 6 is stopped after the first write of an append: it is opened at the
position 1, and `current` finds no record there. -/
theorem not_crashAtomic : ∃ s t : Segment, ∃ file b : Bytes, s.Intact file ∧ s.current file =
      (.ok [5, 6], s) ∧
    newSegment s.maxSize (s.crashed file (.append b) 1) none = (.ok t, s.crashed file (.append b) 1) ∧
    (t.current (s.crashed file (.append b) 1)).1 = .error (.recordSizeOutOfRange 100 517) ∧
    ¬s.CrashAtomic file (.append b) := by
  have hintact : (⟨true, 18, 0, 2, 100⟩ : Segment).Intact (Frames.frame [5, 6] ++ putUint64 0) :=
    ⟨rfl, rfl, ⟨Frames.frame [5, 6], rfl⟩, by decide, by decide⟩
  refine ⟨⟨true, 18, 0, 2, 100⟩, ⟨true, 18, 1, 517, 100⟩, Frames.frame [5, 6] ++ putUint64 0, [7],
    hintact, by decide +kernel, by decide +kernel, by decide +kernel, fun hatomic => ?_⟩
  rcases (hintact.append_atomic_iff [7]).mp hatomic with hfull | ⟨hnil, -⟩
  · revert hfull
    decide +kernel
  · cases hnil

end Segment

end AndyEnv.Hh
