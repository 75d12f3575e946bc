import AndyEnv.Hh.Segment

/-!
# The records of a segment

`Holds` says which records are in a segment, those before the position and those
from it on. Each operation is described by what it does to these two lists.
-/

namespace AndyEnv.Hh

open Frames Bytes
open List

/-! ## Reading and writing -/

theorem int64_ofNat {n : ℕ} (h : n < 2 ^ 63) : int64 (UInt64.ofNat n) = n := by
  unfold int64
  rw [UInt64.toInt64_ofNat', Int64.toInt_ofNat_of_lt h]

theorem seek_natCast (n : ℕ) : seek (n : ℤ) = .ok n := by
  unfold seek
  rw [if_neg (by omega), Int.toNat_natCast]

variable {records footer : Bytes}

theorem seekFooter_append (h : footer.length = 8) :
    seekFooter (records ++ footer) = .ok records.length := by
  unfold seekFooter
  rw [length_append, h]
  have : ((records.length + 8 : ℕ) : ℤ) - footerSize = records.length := by
    simp [footerSize]
  rw [this, seek_natCast]

theorem readBytes_append (before b rest : Bytes) :
    readBytes (before ++ (b ++ rest)) before.length b.length = .ok b := by
  unfold readBytes
  split
  next h => rw [length_eq_zero_iff.mp h]
  next h =>
    have hlen : (before ++ (b ++ rest)).length = before.length + (b.length + rest.length) := by
      simp only [length_append]
    rw [hlen, if_neg (by omega), if_neg (by omega), drop_left, take_left]

theorem readUint64_append (before : Bytes) (v : UInt64) (rest : Bytes) :
    readUint64 (before ++ (putUint64 v ++ rest)) before.length = .ok v := by
  have h := readBytes_append before (putUint64 v) rest
  rw [length_putUint64] at h
  unfold readUint64
  rw [h]
  have huint := uint64_putUint64_append v []
  rw [append_nil] at huint
  exact congrArg Except.ok huint

theorem writeBytes_footer (h : footer.length = 8) (writes : List Bytes)
    (hlen : 8 ≤ writes.flatten.length) :
    writeBytes (records ++ footer) records.length writes none = records ++ writes.flatten := by
  unfold writeBytes Dir.overwrite
  rw [take_left, append_assoc, drop_eq_nil_of_le, append_nil]
  show (records ++ footer).length ≤ records.length + writes.flatten.length
  rw [length_append]
  omega

namespace Segment

/-! ## What a segment holds -/

/-- The segment holds the two lists of records, and its position is between them. -/
structure Holds (s : Segment) (file : Bytes) (read unread : List Bytes) : Prop where
  isOpen : s.isOpen = true
  size : s.size = file.length
  layout : ∃ footer, footer.length = 8 ∧ file = frames (read ++ unread) ++ footer
  pos : s.pos = (frames read).length
  fits : ∀ b ∈ read ++ unread, (b.length : ℤ) ≤ s.maxSize.toInt
  short : (frames (read ++ unread)).length < 2 ^ 63

/-- What `current` returns, given the records that have not been read. -/
def next : List Bytes → Except QueueError Bytes
  | [] => .error .eof
  | b :: _ => .ok b

def Footed (s : Segment) (file : Bytes) : Prop :=
  ∃ records, file = records ++ putUint64 (UInt64.ofInt s.pos)

/-- The size kept in memory is that of the current record. -/
def Sized (s : Segment) : List Bytes → Prop
  | [] => True
  | b :: _ => s.currentSize = b.length

namespace Holds

variable {s : Segment} {file : Bytes} {read unread : List Bytes}

section

variable (h : s.Holds file read unread)
include h

theorem size_eq : s.size = (frames read).length + (frames unread).length + 8 := by
  obtain ⟨footer, hfooter, hfile⟩ := h.layout
  rw [h.size, hfile, length_append, frames_append, length_append, hfooter]
  push_cast
  rfl

theorem atEnd_iff : s.AtEnd ↔ unread = [] := by
  unfold AtEnd footerSize
  rw [h.size_eq, h.pos]
  cases unread with
  | nil => simp
  | cons b rest =>
    rw [frames_cons, length_append, length_frame]
    constructor
    · intro heq
      omega
    · intro hnil
      cases hnil

theorem unread_eq : s.unread file = unread := by
  obtain ⟨footer, hfooter, hfile⟩ := h.layout
  have hshort := h.short
  unfold Segment.unread footerSize
  rw [h.size_eq, h.pos, hfile]
  rw [frames_append, append_assoc, length_append] at *
  have hcount : (((frames read).length + (frames unread).length + 8 : ℤ) - (8 : ℕ) -
      (frames read).length).toNat = (frames unread).length := by omega
  rw [Int.toNat_natCast, drop_left, hcount, take_left]
  exact parse_frames (by omega) (by rw [length_append]; omega)

/-- What follows the position: the size of the current record, or the footer. -/
theorem readUint64_pos : ∃ v,
    readUint64 file (frames read).length = .ok v ∧ ∀ b rest, unread = b :: rest → int64 v = b.length ∧
      v.toNat = b.length := by
  obtain ⟨footer, hfooter, hfile⟩ := h.layout
  have hshort := h.short
  cases unread with
  | nil =>
    have hread := readBytes_append (frames read) footer []
    rw [hfooter, append_nil] at hread
    refine ⟨uint64 footer, ?_, fun b rest heq => nomatch heq⟩
    unfold readUint64
    rw [hfile, append_nil, hread]
    rfl
  | cons b rest =>
    rw [frames_append, frames_cons, length_append, length_append, length_frame] at hshort
    refine ⟨UInt64.ofNat b.length, ?_, ?_⟩
    · rw [hfile, frames_append, frames_cons, frame]
      simp only [append_assoc]
      exact readUint64_append _ _ _
    · rintro _ _ ⟨rfl, rfl⟩
      exact ⟨int64_ofNat (by omega),
        UInt64.toNat_ofNat_of_lt' (lt_trans (show b.length < 2 ^ 63 by omega) (by decide))⟩

theorem setCurrentSize (n : ℤ) : ({ s with currentSize := n } : Segment).Holds file read unread :=
  ⟨h.isOpen, h.size, h.layout, h.pos, h.fits, h.short⟩

/-- The footer and the size in memory do not matter. -/
theorem of_footer (currentSize : ℤ) {footer : Bytes} (hfooter : footer.length = 8) :
    ({ s with currentSize := currentSize } : Segment).Holds (frames (read ++ unread) ++ footer)
      read unread where
  isOpen := h.isOpen
  size := by
    have hsize := h.size_eq
    rw [length_append, hfooter, frames_append, length_append]
    push_cast
    exact hsize
  layout := ⟨footer, hfooter, rfl⟩
  pos := h.pos
  fits := h.fits
  short := h.short

end

variable {b : Bytes} {rest : List Bytes}

theorem reload_nil (h : s.Holds file read []) :
    s.reload file = (.error .eof, { s with currentSize := 0 }) := by
  obtain ⟨v, hread, -⟩ := h.readUint64_pos
  have hseek : seek s.pos = .ok (frames read).length := by
    rw [h.pos, seek_natCast]
  unfold Segment.reload
  simp only [hseek, hread]
  exact if_pos (h.atEnd_iff.mpr rfl)

section

variable (h : s.Holds file read (b :: rest))
include h

theorem readBytes_record : readBytes file ((frames read).length + 8) b.length = .ok b := by
  obtain ⟨footer, -, hfile⟩ := h.layout
  have hread := readBytes_append (frames read ++ putUint64 (UInt64.ofNat b.length)) b
    (frames rest ++ footer)
  rw [length_append, length_putUint64] at hread
  rw [hfile, frames_append, frames_cons, frame]
  simp only [append_assoc] at hread ⊢
  exact hread

/-- **`current` gives the first record that has not been read.** -/
theorem current_cons : s.current file = (.ok b, { s with currentSize := b.length }) := by
  have hnot : ¬s.pos = s.size - 8 := fun heq => nomatch h.atEnd_iff.mp heq
  have hfits := h.fits b (mem_append_right _ mem_cons_self)
  obtain ⟨v, hread, hv⟩ := h.readUint64_pos
  obtain ⟨hint, hnat⟩ := hv b rest rfl
  unfold Segment.current
  rw [if_neg hnot, if_neg (by rw [h.isOpen]; decide), h.pos, seek_natCast]
  simp only [hread]
  rw [hint, if_neg (by omega), if_neg (by omega), hnat, h.readBytes_record]

theorem reload_cons : s.reload file = (.ok (), { s with currentSize := b.length }) := by
  obtain ⟨v, hread, hv⟩ := h.readUint64_pos
  have hseek : seek s.pos = .ok (frames read).length := by
    rw [h.pos, seek_natCast]
  unfold Segment.reload
  simp only [hseek, hread]
  rw [(hv b rest rfl).1]
  exact if_neg (fun heq => nomatch h.atEnd_iff.mp heq)

theorem of_pos {pos : ℤ} (hpos : pos = (frames (read ++ [b])).length) :
    ({ s with pos := pos } : Segment).Holds file (read ++ [b]) rest := by
  have hlists : read ++ [b] ++ rest = read ++ b :: rest := by simp
  refine ⟨h.isOpen, h.size, ?_, hpos, ?_, ?_⟩
  · rw [hlists]
    exact h.layout
  · rw [hlists]
    exact h.fits
  · rw [hlists]
    exact h.short

theorem nextPos_eq (hsized : s.currentSize = b.length) : s.nextPos = (frames (read ++ [b])).length := by
  unfold nextPos
  rw [h.pos, hsized, frames_append, frames_cons, length_append, length_append, length_frame]
  push_cast
  simp only [frames_nil, length_nil]
  omega

/-- **`advance` passes the current record**, if its size is known. -/
theorem advance (hsized : s.currentSize = b.length) : ∃ s' file',
      s.advance file none = (if rest = [] then .error .eof else .ok (), s', file') ∧
        s'.Holds file' (read ++ [b]) rest ∧ s'.maxSize = s.maxSize ∧ s'.Sized rest ∧
        s'.Footed file' := by
  obtain ⟨footer, hfooter, hfile⟩ := h.layout
  have hnot : ¬s.pos = s.size - footerSize := fun heq => nomatch h.atEnd_iff.mp heq
  have hwritten : writeBytes file (frames (read ++ b :: rest)).length
      [putUint64 (UInt64.ofInt s.nextPos)] none =
        frames (read ++ b :: rest) ++ putUint64 (UInt64.ofInt s.nextPos) := by
    rw [hfile, writeBytes_footer hfooter]
    · simp
    · simp
  have hholds : ∀ c, ({ s with currentSize := c, pos := s.nextPos } : Segment).Holds
      (frames (read ++ b :: rest) ++ putUint64 (UInt64.ofInt s.nextPos)) (read ++ [b]) rest :=
    fun c => (h.of_footer c (length_putUint64 _)).of_pos (h.nextPos_eq hsized)
  unfold Segment.advance
  rw [if_neg (by rw [h.isOpen]; decide), if_neg hnot, hfile, seekFooter_append hfooter, ← hfile]
  simp only [hwritten]
  cases rest with
  | nil =>
    rw [(hholds s.currentSize).reload_nil]
    exact ⟨_, _, rfl, hholds 0, rfl, trivial, _, rfl⟩
  | cons c rest =>
    rw [(hholds s.currentSize).reload_cons]
    exact ⟨_, _, rfl, hholds c.length, rfl, rfl, _, rfl⟩

/-- An `advance` whose write fails leaves the segment where it is. -/
theorem advance_failure (n : ℕ) :
    ∃ file', s.advance file (some n) = (.error .writeFailed, s, file') ∧
      s.Holds file' read (b :: rest) := by
  obtain ⟨footer, hfooter, hfile⟩ := h.layout
  have hnot : ¬s.pos = s.size - footerSize := fun heq => nomatch h.atEnd_iff.mp heq
  unfold Segment.advance
  rw [if_neg (by rw [h.isOpen]; decide), if_neg hnot, hfile, seekFooter_append hfooter]
  refine ⟨_, rfl, ?_⟩
  have hwritten : ∃ footer', footer'.length = 8 ∧
      writeBytes (frames (read ++ b :: rest) ++ footer) (frames (read ++ b :: rest)).length
        [putUint64 (UInt64.ofInt s.nextPos)] (some n) = frames (read ++ b :: rest) ++ footer' := by
    unfold writeBytes Dir.overwrite
    rw [take_left, append_assoc, drop_append]
    refine ⟨_, ?_, rfl⟩
    simp only [flatten_cons, flatten_nil, append_nil, length_append,
      List.length_take, length_drop, length_putUint64, hfooter]
    omega
  obtain ⟨footer', hfooter', heq⟩ := hwritten
  rw [heq]
  exact h.of_footer s.currentSize hfooter'

end

theorem current_nil (h : s.Holds file read []) : s.current file = (.error .eof, s) := by
  unfold Segment.current
  exact if_pos (h.atEnd_iff.mpr rfl)

protected theorem current (h : s.Holds file read unread) : ∃ s', s.current file = (next unread, s') ∧
    s'.Holds file read unread ∧ s'.pos = s.pos ∧ s'.maxSize = s.maxSize ∧ s'.Sized unread := by
  cases unread with
  | nil => exact ⟨s, h.current_nil, h, rfl, rfl, trivial⟩
  | cons b rest => exact ⟨_, h.current_cons, h.setCurrentSize _, rfl, rfl, rfl⟩

/-- **`append` adds a record at the end**, or the segment is full. -/
theorem append (h : s.Holds file read unread) (b : Bytes) :
    (s.append file b none = (.error .segmentFull, s, file) ∧ s.size + b.length > s.maxSize.toInt) ∨
      ∃ s' file', s.append file b none = (.ok (), s', file') ∧ s'.Holds file' read (unread ++ [b]) ∧
        s'.maxSize = s.maxSize ∧
        s'.Footed file' := by
  obtain ⟨footer, hfooter, hfile⟩ := h.layout
  unfold Segment.append
  rw [if_neg (by rw [h.isOpen]; decide)]
  by_cases hfull : s.size + b.length > s.maxSize.toInt
  · exact .inl ⟨if_pos hfull, hfull⟩
  right
  have hsize := h.size_eq
  have hmax := s.maxSize.toInt_lt
  have hframes : frames (read ++ (unread ++ [b])) = frames (read ++ unread) ++ frame b := by
    rw [← append_assoc, frames_append, frames_cons, frames_nil, append_nil]
  have hwritten : writeBytes file (frames (read ++ unread)).length (s.appendWrites b) none =
      frames (read ++ (unread ++ [b])) ++ putUint64 (UInt64.ofInt s.pos) := by
    have hwrites : (s.appendWrites b).flatten = frame b ++ putUint64 (UInt64.ofInt s.pos) := by
      simp [appendWrites, frame]
    rw [hfile, writeBytes_footer hfooter, hwrites, hframes, append_assoc]
    rw [hwrites, length_append, length_frame]
    omega
  rw [if_neg hfull, hfile, seekFooter_append hfooter, ← hfile]
  refine ⟨_, _, rfl, ?_, rfl, _, hwritten⟩
  exact {
    isOpen := h.isOpen
    layout := ⟨_, length_putUint64 _, hwritten⟩
    size := by
      rw [hwritten, hframes]
      simp only [length_append, length_frame, length_putUint64, frames_append]
      push_cast
      omega
    pos := h.pos
    fits := by
      rw [← append_assoc]
      refine forall_mem_append.mpr ⟨h.fits, forall_mem_singleton.mpr ?_⟩
      show (b.length : ℤ) ≤ s.maxSize.toInt
      omega
    short := by
      rw [hframes]
      simp only [length_append, length_frame, frames_append]
      omega }

theorem advance_of_atEnd (h : s.Holds file read []) (failure : Option ℕ) :
    s.advance file failure = (.error .eof, { s with currentSize := 0 }, file) := by
  unfold Segment.advance
  rw [if_neg (by rw [h.isOpen]; decide)]
  exact if_pos (h.atEnd_iff.mpr rfl)

end Holds

/-! ## Opening a segment -/

theorem newSegment_nil (maxSize : Int64) : newSegment maxSize [] none =
      (.ok ⟨true, footerSize, 0, 0, maxSize⟩, putUint64 (UInt64.ofInt 0)) := rfl

theorem holds_newSegment (maxSize : Int64) :
    (⟨true, footerSize, 0, 0, maxSize⟩ : Segment).Holds (putUint64 (UInt64.ofInt 0)) [] [] where
  isOpen := rfl
  size := rfl
  layout := ⟨_, length_putUint64 _, rfl⟩
  pos := rfl
  fits := fun b hb => nomatch hb
  short := by decide

/-- **A segment is opened where it was left**, if its footer has the position. -/
theorem newSegment_of_holds {s : Segment} {file : Bytes} {read unread : List Bytes}
    (h : s.Holds file read unread) (hfooted : s.Footed file) :
    ∃ s', newSegment s.maxSize file none = (.ok s', file) ∧ s'.Holds file read unread ∧
      s'.maxSize = s.maxSize ∧ s'.pos = s.pos ∧ s'.Sized unread := by
  have hfooter : file = frames (read ++ unread) ++ putUint64 (UInt64.ofInt s.pos) := by
    obtain ⟨footer, hlength, hfile⟩ := h.layout
    obtain ⟨records, hrecords⟩ := hfooted
    have heq := append_inj' (hfile.symm.trans hrecords) (by rw [hlength, length_putUint64])
    rw [hfile, heq.2]
  have hne : ¬((file.length : ℤ) = 0) := by
    have hsize := h.size_eq
    rw [h.size] at hsize
    omega
  have hpos : int64 (UInt64.ofInt s.pos) = s.pos := by
    have hshort := h.short
    rw [frames_append, length_append] at hshort
    rw [h.pos, ofInt_natCast]
    exact int64_ofNat (by omega)
  have hend : readUint64 file (frames (read ++ unread)).length = .ok (UInt64.ofInt s.pos) := by
    have hread := readUint64_append (frames (read ++ unread)) (UInt64.ofInt s.pos) []
    rw [append_nil, ← hfooter] at hread
    exact hread
  have hseek : seek s.pos = .ok (frames read).length := by
    rw [h.pos, seek_natCast]
  have hfoot : seekFooter file = .ok (frames (read ++ unread)).length := by
    rw [hfooter]
    exact seekFooter_append (length_putUint64 _)
  obtain ⟨v, hread, hv⟩ := h.readUint64_pos
  have hopened : ∀ c, (⟨true, file.length, s.pos, c, s.maxSize⟩ : Segment).Holds file read unread :=
    fun c => ⟨rfl, rfl, h.layout, h.pos, h.fits, h.short⟩
  have hopen : ∀ t : Segment, t.openExisting file =
      if s.pos < t.size - footerSize then .ok { t with pos := s.pos, currentSize := int64 v }
      else .ok { t with pos := s.pos } := by
    intro t
    unfold openExisting
    simp only [hfoot, hend, hpos, hseek, hread, bind, Except.bind, pure, Except.pure]
  unfold newSegment
  simp only [if_neg hne, hopen]
  have hsize := (hopened 0).size_eq
  have hspos := h.pos
  cases unread with
  | nil =>
    rw [if_neg (by simp only [frames_nil, length_nil, footerSize] at hsize ⊢; omega)]
    exact ⟨_, rfl, hopened 0, rfl, rfl, trivial⟩
  | cons b rest =>
    rw [frames_cons, length_append, length_frame] at hsize
    rw [if_pos (by simp only [footerSize] at hsize ⊢; omega)]
    exact ⟨_, rfl, hopened _, rfl, rfl, (hv b rest rfl).1⟩

end Segment

end AndyEnv.Hh
