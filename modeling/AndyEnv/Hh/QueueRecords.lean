import AndyEnv.Hh.Queue
import AndyEnv.Hh.Records

/-!
# The records of a queue

What each operation does to the records that are in the queue. The invariant of a
queue is that each of its segments holds some records; what is known of the
footers is a parameter, since a failed write may leave any footer.
-/

namespace AndyEnv.Hh.Queue

open Frames AList
open List

/-! ## One segment -/

section

variable (q : Queue) (path p : ℕ) (s : Segment) (file : Bytes)

theorem file_put : (q.put path s file).file p = if p = path then file else q.file p := by
  unfold Queue.file put
  by_cases h : p = path
  · rw [if_pos h, h, lookup_insert]
    rfl
  · rw [if_neg h, lookup_insert_ne h]

theorem objects_put : (q.put path s file).objects p = if p = path then s else q.objects p :=
  Function.update_apply ..

theorem unread_put :
    (q.put path s file).unread p = if p = path then s.unread file else q.unread p := by
  unfold Queue.unread
  rw [objects_put, file_put]
  by_cases h : p = path
  · simp only [if_pos h]
  · simp only [if_neg h]

end

def recordsOf (q : Queue) (paths : List ℕ) : List (ℕ × Bytes) :=
  paths.flatMap (fun path => (q.unread path).map (fun b => (path, b)))

variable {q q' : Queue} {paths : List ℕ}

theorem recordsOf_congr (h : ∀ p ∈ paths, q'.unread p = q.unread p) :
    q'.recordsOf paths = q.recordsOf paths :=
  flatMap_congr (fun p hp => by rw [h p hp])

variable {path p : ℕ} {s : Segment} {file : Bytes} {read unread : List Bytes}

theorem recordsOf_put_of_notMem (h : path ∉ paths)
    (s : Segment) (file : Bytes) : (q.put path s file).recordsOf paths = q.recordsOf paths :=
  recordsOf_congr (fun p hp => by
    rw [unread_put, if_neg (ne_of_mem_of_not_mem hp h)])

@[simp] theorem recordsOf_cons (q : Queue) (path : ℕ) (paths : List ℕ) :
    q.recordsOf (path :: paths) = (q.unread path).map (fun b => (path, b)) ++ q.recordsOf paths := rfl

@[simp] theorem recordsOf_append (q : Queue) (paths paths' : List ℕ) :
    q.recordsOf (paths ++ paths') = q.recordsOf paths ++ q.recordsOf paths' :=
  flatMap_append

/-! ## The invariant -/

section

variable (P : Segment → Bytes → Prop)

/-- Each segment of the queue holds some records. -/
structure Inv (q : Queue) : Prop where
  nodup : q.segments.Nodup
  ne_nil : q.segments ≠ []
  head : q.head = q.segments.head?
  holds : ∀ path ∈ q.segments, ∃ read, (q.objects path).Holds (q.file path) read (q.unread path)
  footer : ∀ path ∈ q.segments, P (q.objects path) (q.file path)
  maxSize : ∀ path ∈ q.segments, (q.objects path).maxSize = q.maxSegmentSize

end

def Attached (q : Queue) : Prop := q.tail = q.segments.getLast?

def TailOpen (q : Queue) : Prop := ∃ tail, q.tail = some tail ∧ (q.objects tail).isOpen = true

def NextFree (q : Queue) : Prop := q.dir.lookup (nextSegmentID q.dir) = none

instance (q : Queue) : Decidable q.NextFree := inferInstanceAs (Decidable (_ = _))

def HeadSized (q : Queue) : Prop := ∀ head ∈ q.head, (q.objects head).Sized (q.unread head)

/-- A head that has been read to its end is the head of a queue without records. -/
def HeadLive (q : Queue) : Prop :=
  ∀ head ∈ q.head, (q.objects head).AtEnd → ∀ path ∈ q.segments, (q.objects path).AtEnd

instance (s : Segment) (unread : List Bytes) : Decidable (s.Sized unread) :=
  match unread with
  | [] => .isTrue trivial
  | b :: _ => inferInstanceAs (Decidable (s.currentSize = b.length))

instance (q : Queue) : Decidable q.HeadSized :=
  inferInstanceAs (Decidable (∀ head ∈ q.head, _))

instance (q : Queue) : Decidable q.HeadLive :=
  inferInstanceAs (Decidable (∀ head ∈ q.head, _ → ∀ path ∈ q.segments, _))

def Sound (P : Segment → Bytes → Prop) (q : Queue) (path : ℕ) : Prop :=
  (∃ read, (q.objects path).Holds (q.file path) read (q.unread path)) ∧ P (q.objects path) (q.file path) ∧
    (q.objects path).maxSize = q.maxSegmentSize

variable {P : Segment → Bytes → Prop} {q : Queue}
variable {rest : List ℕ} {head : ℕ}

theorem Sound.congr (h : q.Sound P p) (hobjects : q'.objects p = q.objects p)
    (hfile : q'.file p = q.file p) (hmax : q'.maxSegmentSize = q.maxSegmentSize) : q'.Sound P p := by
  unfold Sound Queue.unread
  rw [hobjects, hfile, hmax]
  exact h

theorem sound_put (hholds : s.Holds file read unread) (hfooter : P s file)
    (hmax : s.maxSize = q.maxSegmentSize) : (q.put path s file).Sound P path := by
  unfold Sound
  rw [unread_put, objects_put, file_put, if_pos rfl, if_pos rfl, if_pos rfl, hholds.unread_eq]
  exact ⟨⟨read, hholds⟩, hfooter, hmax⟩

namespace Inv

theorem notMem_of_free (h : q.Inv P) (hfree : q.dir.lookup path = none) : path ∉ q.segments := by
  intro hmem
  obtain ⟨read, hholds⟩ := h.holds path hmem
  have hsize := hholds.size_eq
  rw [hholds.size, Queue.file, hfree] at hsize
  simp only [Option.getD_none, length_nil, Nat.cast_zero] at hsize
  omega

theorem sound (h : q.Inv P) : ∀ path ∈ q.segments, q.Sound P path :=
  fun path hpath => ⟨h.holds path hpath, h.footer path hpath, h.maxSize path hpath⟩

theorem of_sound (hnodup : q.segments.Nodup) (hne : q.segments ≠ []) (hhead : q.head = q.segments.head?)
    (h : ∀ path ∈ q.segments, q.Sound P path) : q.Inv P :=
  ⟨hnodup, hne, hhead, fun path hpath => (h path hpath).1, fun path hpath => (h path hpath).2.1,
    fun path hpath => (h path hpath).2.2⟩

theorem put (h : q.Inv P)
    (hholds : s.Holds file read unread) (hfooter : P s file) (hmax : s.maxSize = q.maxSegmentSize) :
    (q.put path s file).Inv P := by
  refine .of_sound h.nodup h.ne_nil h.head (fun p hp => ?_)
  by_cases heq : p = path
  · rw [heq]
    exact sound_put hholds hfooter hmax
  · exact (h.sound p hp).congr (by rw [objects_put, if_neg heq]) (by rw [file_put, if_neg heq]) rfl

variable (h : q.Inv P) (hpath : path ∉ q.segments)
include h hpath

theorem of_dir (file : Bytes) : ({ q with dir := q.dir.insert path file } : Queue).Inv P ∧
      ({ q with dir := q.dir.insert path file } : Queue).records = q.records := by
  have hfile : ∀ p ∈ q.segments, ({ q with dir := q.dir.insert path file } : Queue).file p = q.file p := by
    intro p hp
    unfold Queue.file
    rw [lookup_insert_ne (ne_of_mem_of_not_mem hp hpath)]
  refine ⟨.of_sound h.nodup h.ne_nil h.head (fun p hp => (h.sound p hp).congr rfl (hfile p hp) rfl),
    recordsOf_congr (fun p hp => ?_)⟩
  unfold Queue.unread
  rw [hfile p hp]

theorem concat (hholds : s.Holds file read unread) (hfooter : P s file)
    (hmax : s.maxSize = q.maxSegmentSize) :
    ({ q.put path s file with segments := q.segments ++ [path] } : Queue).Inv P := by
  refine .of_sound ?_ (append_ne_nil_of_left_ne_nil h.ne_nil _) ?_ (fun p hp => ?_)
  · exact nodup_append.mpr ⟨h.nodup, nodup_singleton _, fun a ha b hb heq =>
      hpath (mem_singleton.mp hb ▸ heq ▸ ha)⟩
  · show q.head = (q.segments ++ [path]).head?
    rw [h.head, List.head?_append_of_ne_nil _ h.ne_nil]
  · rcases mem_append.mp hp with hp | hp
    · exact ((h.put hholds hfooter hmax).sound p hp).congr rfl rfl rfl
    · rw [mem_singleton.mp hp]
      exact (sound_put (q := q) hholds hfooter hmax).congr rfl rfl rfl

end Inv

/-! ## A new segment -/

def added (q : Queue) : Queue :=
  { q.put (nextSegmentID q.dir) ⟨true, footerSize, 0, 0, q.maxSegmentSize⟩
      (Bytes.putUint64 (UInt64.ofInt 0)) with
    segments := q.segments ++ [nextSegmentID q.dir] }

theorem file_of_nextFree (hfree : q.NextFree) : q.file (nextSegmentID q.dir) = [] := by
  unfold Queue.file
  rw [hfree]
  rfl

theorem addSegment_none (hfree : q.NextFree) :
    q.addSegment none = (.ok (nextSegmentID q.dir), q.added) := by
  unfold addSegment
  simp only [file_of_nextFree hfree, Segment.newSegment_nil]
  rfl

theorem addSegment_some (hfree : q.NextFree) (n : ℕ) : ∃ file, q.addSegment (some n) =
      (.error .writeFailed, { q with dir := q.dir.insert (nextSegmentID q.dir) file }) := by
  unfold addSegment
  simp only [file_of_nextFree hfree]
  exact ⟨_, rfl⟩

theorem objects_added (hp : p ≠ nextSegmentID q.dir) : q.added.objects p = q.objects p :=
  Function.update_of_ne hp _ _

theorem Inv.added (h : q.Inv P) (hP : ∀ s file, Segment.Footed s file → P s file)
    (hfree : q.NextFree) : q.added.Inv P :=
  h.concat (h.notMem_of_free hfree) (Segment.holds_newSegment _) (hP _ _ ⟨[], rfl⟩) rfl

theorem Inv.records_added (h : q.Inv P) (hfree : q.NextFree) : q.added.records = q.records := by
  have hempty := (Segment.holds_newSegment q.maxSegmentSize).unread_eq
  show q.added.recordsOf (q.segments ++ [nextSegmentID q.dir]) = q.recordsOf q.segments
  rw [recordsOf_append, recordsOf_cons]
  have hlast : q.added.unread (nextSegmentID q.dir) = [] := by
    show (q.put _ _ _).unread _ = _
    rw [unread_put, if_pos rfl, hempty]
  rw [hlast]
  have hrest : q.added.recordsOf q.segments = q.recordsOf q.segments :=
    recordsOf_put_of_notMem (h.notMem_of_free hfree) _ _
  rw [hrest]
  simp [recordsOf]

/-! ## A head less -/

def trimmed (q : Queue) (head : ℕ) (rest : List ℕ) : Queue :=
  { q.closeSegment head with segments := rest, dir := q.dir.erase head, head := rest.head? }

theorem Inv.trimHead_eq (h : q.Inv P) : q.trimHead = (.ok (), match q.segments with
    | head :: next :: rest => q.trimmed head (next :: rest)
    | _ => q) := by
  have hhead := h.head
  rcases hs : q.segments with _ | ⟨head, _ | ⟨next, rest⟩⟩
  · exact absurd hs h.ne_nil
  · rw [hs] at hhead
    unfold trimHead
    rw [hhead, hs]
    rfl
  · rw [hs] at hhead
    obtain ⟨read, hholds⟩ := h.holds head (by rw [hs]; exact mem_cons_self)
    unfold trimHead
    rw [hhead, hs]
    exact if_neg (by rw [hholds.isOpen]; decide)

theorem objects_trimmed (hp : p ≠ head) : (q.trimmed head rest).objects p = q.objects p :=
  Function.update_of_ne hp _ _

theorem file_trimmed (hp : p ≠ head) : (q.trimmed head rest).file p = q.file p := by
  unfold Queue.file
  show Option.getD ((q.dir.erase head).lookup p) [] = _
  rw [lookup_erase_ne hp]

theorem unread_trimmed (hp : p ≠ head) : (q.trimmed head rest).unread p = q.unread p := by
  unfold Queue.unread
  rw [objects_trimmed hp, file_trimmed hp]

section

variable (h : q.Inv P) (hs : q.segments = head :: rest)
include h hs

theorem Inv.trimmed (hrest : rest ≠ []) : (q.trimmed head rest).Inv P := by
  have hnodup := nodup_cons.mp (hs ▸ h.nodup)
  have hne : ∀ p ∈ rest, p ≠ head := fun p hp => ne_of_mem_of_not_mem hp hnodup.1
  have hmem : ∀ p ∈ rest, p ∈ q.segments := fun p hp => hs ▸ mem_cons_of_mem _ hp
  exact .of_sound hnodup.2 hrest rfl (fun p hp =>
    (h.sound p (hmem p hp)).congr (objects_trimmed (hne p hp)) (file_trimmed (hne p hp)) rfl)

theorem Inv.records_trimmed : (q.trimmed head rest).records = q.recordsOf rest := by
  have hnodup := nodup_cons.mp (hs ▸ h.nodup)
  exact recordsOf_congr (fun p hp => unread_trimmed (ne_of_mem_of_not_mem hp hnodup.1))

/-! ## The operations -/

theorem Inv.head_eq : q.head = some head ∧ head ∈ q.segments := by
  rw [h.head, hs]
  exact ⟨rfl, mem_cons_self⟩

omit h in
theorem records_eq : q.records = (q.unread head).map (fun b => (head, b)) ++ q.recordsOf rest := by
  show q.recordsOf q.segments = _
  rw [hs, recordsOf_cons]

theorem Inv.put_head
    (hholds : s.Holds file read unread) (hfooter : P s file) (hmax : s.maxSize = q.maxSegmentSize) :
    (q.put head s file).Inv P ∧
      (q.put head s file).records = unread.map (fun b => (head, b)) ++ q.recordsOf rest ∧
      (q.put head s file).unread head = unread ∧
      (∀ p, p ≠ head → (q.put head s file).objects p = q.objects p) := by
  have hnodup := nodup_cons.mp (hs ▸ h.nodup)
  have hunread : (q.put head s file).unread head = unread := by
    rw [unread_put, if_pos rfl, hholds.unread_eq]
  refine ⟨h.put hholds hfooter hmax, ?_, hunread, fun p hp => by rw [objects_put, if_neg hp]⟩
  rw [records_eq (q := q.put head s file) hs, hunread, recordsOf_put_of_notMem hnodup.1]

/-- **`Current` gives the first record of the head.** -/
theorem Inv.current (hP : ∀ s s' file, s.pos = s'.pos → P s file → P s' file) : ∃ q',
      q.current = (Segment.next (q.unread head), q') ∧ q'.Inv P ∧ q'.records = q.records ∧
        q'.segments = q.segments ∧ q'.tail = q.tail ∧ q'.HeadSized ∧
        q'.unread head = q.unread head ∧ (∀ p, p ≠ head → q'.objects p = q.objects p) := by
  obtain ⟨hhead, hmem⟩ := h.head_eq hs
  obtain ⟨read, hholds⟩ := h.holds head hmem
  obtain ⟨s, hcurrent, hholds', hpos, hmax, hsized⟩ := hholds.current
  obtain ⟨hinv, hrecords, hunread, hobjects⟩ := h.put_head hs hholds'
    (hP (q.objects head) s _ hpos.symm (h.footer head hmem)) (hmax.trans (h.maxSize head hmem))
  unfold Queue.current
  simp only [hhead]
  rw [hcurrent]
  refine ⟨_, rfl, hinv, hrecords.trans (records_eq hs).symm, rfl, rfl, fun head' hhead' => ?_, hunread, hobjects⟩
  obtain rfl := Option.some.inj (hhead.symm.trans hhead')
  rw [hunread, objects_put, if_pos rfl]
  exact hsized

/-- The head is removed if it has been read to its end and there is another segment. -/
theorem Inv.trimHead_of_atEnd (hend : q.unread head = []) : ∃ q', q.trimHead = (.ok (), q') ∧ q'.Inv P ∧ q'.records = q.records ∧
      q'.segments = (if rest = [] then [head] else rest) ∧ q'.tail = q.tail ∧
      (∀ p, p ≠ head → q'.objects p = q.objects p) := by
  have hrecords := records_eq hs
  rw [hend, map_nil, nil_append] at hrecords
  rw [h.trimHead_eq, hs]
  cases rest with
  | nil => exact ⟨q, rfl, h, rfl, by rw [hs, if_pos rfl], rfl, fun _ _ => rfl⟩
  | cons next rest =>
    refine ⟨_, rfl, h.trimmed hs (cons_ne_nil _ _), ?_, (if_neg (cons_ne_nil _ _)).symm, rfl,
      fun p hp => objects_trimmed hp⟩
    rw [h.records_trimmed hs, hrecords]

/-- **`Advance` passes the first record of the head**, if its size is known. A failed write changes
nothing, and so does an `Advance` at the end of the head but for the head itself. -/
theorem Inv.advance (hP : ∀ s file, Segment.Footed s file → P s file)
    (hsame : ∀ s s' file, s.pos = s'.pos → P s file → P s' file) {failure : Option ℕ}
    (hfailure : failure = none ∨ ∀ s file, P s file) (hsized : q.HeadSized) : ∃ q', q.advance failure = (.ok (), q') ∧ q'.Inv P ∧
      q'.records = (if q.unread head = [] ∨ failure ≠ none then q.records else q.records.tail) ∧
      q'.tail = q.tail ∧ (q'.segments = q.segments ∨ q'.segments = rest ∧ rest ≠ []) ∧
      (q.unread head = [] → rest ≠ [] → q'.segments = rest) ∧
      (∀ p, p ≠ head → q'.objects p = q.objects p) := by
  obtain ⟨hhead, hmem⟩ := h.head_eq hs
  obtain ⟨read, hholds⟩ := h.holds head hmem
  have hrecords := records_eq hs
  have hsized := hsized head hhead
  -- what is left when the head is removed after the operation
  have htrim : ∀ {s : Segment} {file : Bytes} {read : List Bytes}, s.Holds file read [] →
      P s file → s.maxSize = q.maxSegmentSize → ∃ q', (q.put head s file).trimHead = (.ok (), q') ∧
        q'.Inv P ∧ q'.records = q.recordsOf rest ∧ q'.tail = q.tail ∧
        (q'.segments = q.segments ∨ q'.segments = rest ∧ rest ≠ []) ∧ (rest ≠ [] → q'.segments = rest) ∧
        (∀ p, p ≠ head → q'.objects p = q.objects p) := by
    intro s file read hholds hfooter hmax
    obtain ⟨hinv, hrec, hunread, hobjects⟩ := h.put_head hs hholds hfooter hmax
    obtain ⟨q', htrim, hinv', hrec', hseg, htail, hobjects'⟩ := hinv.trimHead_of_atEnd hs hunread
    refine ⟨q', htrim, hinv', hrec'.trans hrec, htail, ?_, fun hrest => by rw [hseg, if_neg hrest],
      fun p hp => (hobjects' p hp).trans (hobjects p hp)⟩
    by_cases hrest : rest = []
    · rw [if_pos hrest] at hseg
      left
      rw [hseg, hs, hrest]
    · rw [if_neg hrest] at hseg
      exact .inr ⟨hseg, hrest⟩
  unfold Queue.advance
  simp only [hhead]
  rcases hunread : q.unread head with _ | ⟨b, bs⟩
  · rw [hunread] at hholds hrecords
    rw [hholds.advance_of_atEnd, if_pos (.inl rfl), hrecords]
    obtain ⟨q', htrim, hinv, hrec, htail, hseg, hseg', hobjects⟩ := htrim (hholds.setCurrentSize 0)
      (hsame (q.objects head) _ _ rfl (h.footer head hmem)) (h.maxSize head hmem)
    exact ⟨q', htrim, hinv, hrec, htail, hseg, fun _ => hseg', hobjects⟩
  · rw [hunread] at hholds hrecords hsized
    cases failure with
    | some n =>
      obtain ⟨file', hadvance, hholds'⟩ := hholds.advance_failure n
      obtain ⟨hinv, hrec, -, hobjects⟩ := h.put_head hs hholds'
        (hfailure.resolve_left (fun hnone => nomatch hnone) _ _) (h.maxSize head hmem)
      rw [hadvance, if_pos (.inr (fun hnone => nomatch hnone)), hrecords]
      exact ⟨_, rfl, hinv, hrec, rfl, .inl rfl, fun hnil => (nomatch hnil), hobjects⟩
    | none =>
      obtain ⟨s', file', hadvance, hholds', hmax, -, hfooted⟩ := hholds.advance hsized
      have hmax' := hmax.trans (h.maxSize head hmem)
      have hnot : ¬(b :: bs = [] ∨ (none : Option ℕ) ≠ none) := by
        rintro (hnil | hne)
        · cases hnil
        · exact hne rfl
      rw [hadvance, if_neg hnot, hrecords]
      by_cases hbs : bs = []
      · subst hbs
        rw [if_pos rfl]
        obtain ⟨q', htrim, hinv, hrec, htail, hseg, -, hobjects⟩ := htrim hholds' (hP _ _ hfooted) hmax'
        exact ⟨q', htrim, hinv, hrec, htail, hseg, fun hnil => (nomatch hnil), hobjects⟩
      · rw [if_neg hbs]
        obtain ⟨hinv, hrec, -, hobjects⟩ := h.put_head hs hholds' (hP _ _ hfooted) hmax'
        exact ⟨_, rfl, hinv, hrec, rfl, .inl rfl, fun hnil => (nomatch hnil), hobjects⟩

end

theorem Inv.exists_head (h : q.Inv P) : ∃ head rest, q.segments = head :: rest ∧ q.head = some head := by
  obtain ⟨head, rest, hs⟩ := exists_cons_of_ne_nil h.ne_nil
  exact ⟨head, rest, hs, (h.head_eq hs).1⟩

/-- The number of the next segment depends on the names that are there only. -/
theorem nextSegmentID_insert {dir : Dir UInt8} (h : path ∈ dir) (file : Bytes) :
    nextSegmentID (dir.insert path file) = nextSegmentID dir := by
  have hkeys : (dir.insert path file).keys.Perm dir.keys := by
    rw [keys_insert]
    exact (perm_cons_erase (mem_keys.mpr h)).symm
  have hsorted : (readDir (dir.insert path file)).Perm (readDir dir) :=
    (perm_insertionSort _ _).trans (hkeys.trans (perm_insertionSort _ _).symm)
  unfold nextSegmentID
  rw [hsorted.foldl_eq]

theorem NextFree.put (hfree : q.NextFree) (h : path ∈ q.dir) (s : Segment) (file : Bytes) :
    (q.put path s file).NextFree := by
  show (q.dir.insert path file).lookup (nextSegmentID (q.dir.insert path file)) = none
  rw [nextSegmentID_insert h]
  have hne : nextSegmentID q.dir ≠ path := by
    intro heq
    rw [← heq, ← lookup_isSome, hfree] at h
    cases h
  rw [lookup_insert_ne hne]
  exact hfree

theorem Inv.mem_dir (h : q.Inv P) (hpath : path ∈ q.segments) : path ∈ q.dir := by
  by_contra hnot
  exact h.notMem_of_free (lookup_eq_none.mpr hnot) hpath

theorem Inv.of_tail (h : q.Inv P) (tail : Option ℕ) : ({ q with tail := tail } : Queue).Inv P :=
  ⟨h.nodup, h.ne_nil, h.head, h.holds, h.footer, h.maxSize⟩

/-- **The last segment takes the record**, or it is full. -/
theorem Inv.appendTo (h : q.Inv P) (hP : ∀ s file, Segment.Footed s file → P s file) {init : List ℕ}
    {tail : ℕ} (hs : q.segments = init ++ [tail]) (b : Bytes) : ∃ r s file,
      q.appendTo tail b none = (r, q.put tail s file) ∧ (q.put tail s file).Inv P ∧
        (r = .error .segmentFull ∧ (q.put tail s file).records = q.records ∨
          r = .ok () ∧ (q.put tail s file).records = q.records ++ [(tail, b)]) := by
  have hmem : tail ∈ q.segments := by
    rw [hs]
    exact mem_append_right _ mem_cons_self
  obtain ⟨read, hholds⟩ := h.holds tail hmem
  have hnodup := h.nodup
  rw [hs, nodup_append] at hnodup
  have hnot : tail ∉ init := fun hin => hnodup.2.2 tail hin tail mem_cons_self rfl
  have hrecords : ∀ {s : Segment} {file : Bytes} {read unread : List Bytes}, s.Holds file read unread →
      (q.put tail s file).records = q.recordsOf init ++ unread.map (fun b => (tail, b)) := by
    intro s file read unread hholds
    show (q.put tail s file).recordsOf q.segments = _
    rw [hs, recordsOf_append, recordsOf_put_of_notMem hnot, recordsOf_cons, unread_put, if_pos rfl,
      hholds.unread_eq]
    simp [recordsOf]
  have hbefore : q.records = q.recordsOf init ++ (q.unread tail).map (fun b => (tail, b)) := by
    show q.recordsOf q.segments = _
    rw [hs, recordsOf_append, recordsOf_cons]
    simp [recordsOf]
  unfold Queue.appendTo
  rcases hholds.append b with ⟨hfull, -⟩ | ⟨s', file', happend, hholds', hmax, hfooted⟩
  · rw [hfull]
    refine ⟨_, _, _, rfl, h.put hholds (h.footer tail hmem) (h.maxSize tail hmem), .inl ⟨rfl, ?_⟩⟩
    rw [hrecords hholds, hbefore]
  · rw [happend]
    refine ⟨_, _, _, rfl, h.put hholds' (hP _ _ hfooted) (hmax.trans (h.maxSize tail hmem)),
      .inr ⟨rfl, ?_⟩⟩
    rw [hrecords hholds', hbefore, map_append, append_assoc]
    rfl

/-- **`Append` adds the record at the end, or fails and changes no record**, if the tail is the last
segment and no write of a record fails. -/
theorem Inv.append (h : q.Inv P) (hP : ∀ s file, Segment.Footed s file → P s file) (htail : q.Attached)
    (hfree : q.NextFree) {failures : Failures} (hfailures : failures.tail = none ∧ failures.retry = none)
    (b : Bytes) : ∃ r q', q.append b failures = (r, q') ∧ q'.Inv P ∧ q'.Attached ∧
      (r = .ok () ∧ (∃ tail, q'.tail = some tail ∧ q'.records = q.records ++ [(tail, b)]) ∨
        r ≠ .ok () ∧ q'.records = q.records) := by
  obtain ⟨init, tail, hs⟩ := (eq_nil_or_concat' q.segments).resolve_left h.ne_nil
  have hq : q.tail = some tail := by
    rw [htail, hs, List.getLast?_concat]
  have hmem : tail ∈ q.segments := by
    rw [hs]
    exact mem_append_right _ mem_cons_self
  unfold Queue.append
  simp only [hq]
  by_cases hdisk : q.diskUsage + b.length > q.maxSize.toInt
  · rw [if_pos hdisk]
    exact ⟨_, _, rfl, h, htail, .inr ⟨by decide, rfl⟩⟩
  rw [if_neg hdisk, hfailures.1]
  obtain ⟨r, s, file, happend, hinv, hcase⟩ := h.appendTo hP hs b
  rw [happend]
  rcases hcase with ⟨rfl, hrec⟩ | ⟨rfl, hrec⟩
  · -- the tail is full, a new segment is made
    have hfree₁ := hfree.put (h.mem_dir hmem) s file
    rcases hcreate : failures.create with _ | n
    · have hadded := (hinv.added hP hfree₁).of_tail (some (nextSegmentID (q.put tail s file).dir))
      obtain ⟨r, s₂, file₂, happend₂, hinv₂, hcase₂⟩ := hadded.appendTo hP rfl b
      have hlast : ∀ (segments : List ℕ) (path : ℕ), some path = (segments ++ [path]).getLast? :=
        fun _ _ => List.getLast?_concat.symm
      simp only [addSegment_none hfree₁, hfailures.2]
      rw [happend₂]
      have hrec₁ : (q.put tail s file).added.records = q.records :=
        (hinv.records_added hfree₁).trans hrec
      rcases hcase₂ with ⟨rfl, hrec₂⟩ | ⟨rfl, hrec₂⟩
      · exact ⟨_, _, rfl, hinv₂, hlast _ _, .inr ⟨by decide, hrec₂.trans hrec₁⟩⟩
      · exact ⟨_, _, rfl, hinv₂, hlast _ _, .inl ⟨rfl, _, rfl, hrec₂.trans (congrArg (· ++ _) hrec₁)⟩⟩
    · obtain ⟨file', hadd⟩ := addSegment_some hfree₁ n
      obtain ⟨hinv', hrec'⟩ := hinv.of_dir (hinv.notMem_of_free hfree₁) file'
      simp only [hadd]
      exact ⟨_, _, rfl, hinv', htail, .inr ⟨by decide, hrec'.trans hrec⟩⟩
  · exact ⟨_, _, rfl, hinv, htail, .inl ⟨rfl, tail, hq, hrec⟩⟩

end AndyEnv.Hh.Queue
