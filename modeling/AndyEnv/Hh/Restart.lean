import AndyEnv.Hh.Fifo

/-!
# Opening the queue again

`Close` forgets the segments, and `Open` finds them by listing the directory. The
list is sorted by file name, as text: "10" comes before "9". If that order is
the order in which the segments were made, the queue is as it was.
-/

namespace AndyEnv.Hh

open Frames
open List

namespace Queue

/-! ## Closing -/

theorem foldl_closeSegment (paths : List ℕ) : ∀ q : Queue,
    (paths.foldl closeSegment q).dir = q.dir ∧
      (paths.foldl closeSegment q).maxSegmentSize = q.maxSegmentSize := by
  induction paths with
  | nil => exact fun q => ⟨rfl, rfl⟩
  | cons path paths ih => exact fun q => ih (q.closeSegment path)

theorem dir_close (q : Queue) : q.close.dir = q.dir := (foldl_closeSegment q.segments q).1

theorem maxSegmentSize_close (q : Queue) : q.close.maxSegmentSize = q.maxSegmentSize :=
  (foldl_closeSegment q.segments q).2

theorem file_close (q : Queue) (path : ℕ) : q.close.file path = q.file path := by
  unfold Queue.file
  rw [dir_close]

/-! ## Loading the segments -/

theorem loadSegments_ok : ∀ {paths : List ℕ} {q : Queue}, paths.Nodup →
    (∀ p ∈ paths, ∃ s, Segment.newSegment q.maxSegmentSize (q.file p) none = (.ok s, q.file p)) →
    ∃ q', loadSegments paths q = .ok q' ∧ q'.segments = q.segments ++ paths ∧
      q'.maxSegmentSize = q.maxSegmentSize ∧ (∀ p, q'.file p = q.file p) ∧
      (∀ p ∉ paths, q'.objects p = q.objects p) ∧
      ∀ p ∈ paths, Segment.newSegment q.maxSegmentSize (q.file p) none = (.ok (q'.objects p), q.file p)
  | [], q, _, _ => ⟨q, rfl, (append_nil _).symm, rfl, fun _ => rfl, fun _ _ => rfl, fun _ hp => nomatch hp⟩
  | path :: paths, q, hnodup, hopens => by
    obtain ⟨hpath, hnodup⟩ := nodup_cons.mp hnodup
    obtain ⟨s, hs⟩ := hopens path mem_cons_self
    have hfile : ∀ p, (q.put path s (q.file path)).file p = q.file p := by
      intro p
      rw [file_put]
      by_cases heq : p = path
      · rw [if_pos heq, heq]
      · rw [if_neg heq]
    obtain ⟨q', hload, hsegments, hmax, hfile', hobjects, hnew⟩ := loadSegments_ok
      (q := { q.put path s (q.file path) with segments := q.segments ++ [path] }) hnodup (by
        intro p hp
        obtain ⟨s', hs'⟩ := hopens p (mem_cons_of_mem _ hp)
        refine ⟨s', ?_⟩
        show Segment.newSegment q.maxSegmentSize ((q.put path s (q.file path)).file p) none =
          (.ok s', (q.put path s (q.file path)).file p)
        rw [hfile p]
        exact hs')
    refine ⟨q', ?_, ?_, hmax, ?_, ?_, ?_⟩
    · unfold loadSegments
      rw [hs]
      exact hload
    · rw [hsegments, append_assoc]
      rfl
    · intro p
      exact (hfile' p).trans (hfile p)
    · intro p hp
      rw [mem_cons, not_or] at hp
      refine (hobjects p hp.2).trans ?_
      show (q.put path s (q.file path)).objects p = _
      rw [objects_put, if_neg hp.1]
    · intro p hp
      rcases mem_cons.mp hp with rfl | hp
      · have hself : q'.objects p = s := by
          refine (hobjects p hpath).trans ?_
          show (q.put p s (q.file p)).objects p = s
          rw [objects_put, if_pos rfl]
        rw [hself, hs]
      · have hpnew := hnew p hp
        change Segment.newSegment q.maxSegmentSize ((q.put path s (q.file path)).file p) none =
          (.ok (q'.objects p), (q.put path s (q.file path)).file p) at hpnew
        rw [hfile p] at hpnew
        exact hpnew

/-! ## Opening -/

/-- A head that is at its end is removed, and the records are as before. -/
theorem Inv.setHead {q : Queue} {head : ℕ} {rest : List ℕ}
    (h : ({ q with head := some head, tail := q.segments.getLast? } : Queue).Inv Segment.Footed)
    (hs : q.segments = head :: rest) : ∃ q', q.setHead = .ok q' ∧ q'.Inv Segment.Footed ∧
      q'.Attached ∧ q'.records = q.records := by
  have hattached : ({ q with head := some head, tail := q.segments.getLast? } : Queue).Attached := rfl
  unfold Queue.setHead
  split
  next hnil =>
    rw [hs] at hnil
    cases hnil
  rename_i head' rest' heq
  obtain ⟨rfl, rfl⟩ := List.cons.inj (hs.symm.trans heq)
  generalize hq : ({ q with head := some head, tail := q.segments.getLast? } : Queue) = q₁
    at h hattached ⊢
  dsimp only
  have hs₁ : q₁.segments = head :: rest := by
    rw [← hq]
    exact hs
  have hrecords : q₁.records = q.records := by
    rw [← hq]
    rfl
  have hmem : head ∈ q₁.segments := by
    rw [hs₁]
    exact mem_cons_self
  obtain ⟨read, hholds⟩ := h.holds head hmem
  rcases hunread : q₁.unread head with _ | ⟨b, bs⟩
  · rw [hunread] at hholds
    rw [hholds.current_nil]
    obtain ⟨q', htrim, hinv, hrecords', hsegments, htail, -⟩ := h.trimHead_of_atEnd hs₁ hunread
    rw [htrim]
    refine ⟨q', rfl, hinv, ?_, hrecords'.trans hrecords⟩
    refine attached_of_segments hattached hs₁ htail ?_
    by_cases hrest : rest = []
    · rw [if_pos hrest] at hsegments
      rw [hsegments, hs₁, hrest]
      exact .inl rfl
    · rw [if_neg hrest] at hsegments
      exact .inr ⟨hsegments, hrest⟩
  · rw [hunread] at hholds
    obtain ⟨q', hcurrent, hinv, hrecords', hsegments, htail, -⟩ := h.current hs₁ footed_of_pos
    have hhead : q₁.head = some head := by
      rw [← hq]
    unfold Queue.current at hcurrent
    simp only [hhead] at hcurrent
    rw [hholds.current_cons] at hcurrent ⊢
    obtain ⟨-, rfl⟩ := Prod.mk.inj hcurrent
    exact ⟨_, rfl, hinv, attached_of_segments hattached hs₁ htail (.inl hsegments), hrecords'.trans hrecords⟩

/-- **`Open` finds the records that were there**, if the names are in the order of the segments. -/
theorem Inv.reopen {q : Queue} (h : q.Inv Segment.Footed) (hnames : readDir q.dir = q.segments) :
    ∃ q', q.close.openQueue = .ok q' ∧ q'.Inv Segment.Footed ∧ q'.Attached ∧ q'.records = q.records := by
  have hopens : ∀ p ∈ q.segments, ∃ s read,
      Segment.newSegment q.maxSegmentSize (q.file p) none = (.ok s, q.file p) ∧
        s.Holds (q.file p) read (q.unread p) ∧ s.maxSize = q.maxSegmentSize ∧ s.Footed (q.file p) := by
    intro p hp
    obtain ⟨read, hholds⟩ := h.holds p hp
    obtain ⟨s, hs, hholds', hmax, hpos, -⟩ := Segment.newSegment_of_holds hholds (h.footer p hp)
    rw [h.maxSize p hp] at hs hmax
    exact ⟨s, read, hs, hholds', hmax, footed_of_pos _ _ _ hpos.symm (h.footer p hp)⟩
  obtain ⟨q₁, hload, hsegments, hmax, hfile, -, hnew⟩ := loadSegments_ok
    (q := { q.close with segments := [] }) h.nodup (by
      intro p hp
      obtain ⟨s, -, hs, -⟩ := hopens p hp
      refine ⟨s, ?_⟩
      show Segment.newSegment q.close.maxSegmentSize (q.close.file p) none = (.ok s, q.close.file p)
      rw [maxSegmentSize_close, file_close]
      exact hs)
  change q₁.segments = [] ++ q.segments at hsegments
  rw [nil_append] at hsegments
  have hfile₁ : ∀ p, q₁.file p = q.file p := fun p => (hfile p).trans (file_close q p)
  have hmax₁ : q₁.maxSegmentSize = q.maxSegmentSize := hmax.trans (maxSegmentSize_close q)
  have hholds₁ : ∀ p ∈ q.segments, ∃ read, (q₁.objects p).Holds (q.file p) read (q.unread p) ∧
      (q₁.objects p).maxSize = q.maxSegmentSize ∧ (q₁.objects p).Footed (q.file p) := by
    intro p hp
    obtain ⟨s, read, hs, hholds, hmax, hfooted⟩ := hopens p hp
    have hpnew := hnew p hp
    change Segment.newSegment q.close.maxSegmentSize (q.close.file p) none = (.ok (q₁.objects p), _) at hpnew
    rw [maxSegmentSize_close, file_close, hs] at hpnew
    obtain rfl := Except.ok.inj (Prod.mk.inj hpnew).1
    exact ⟨read, hholds, hmax, hfooted⟩
  have hunread₁ : ∀ p ∈ q.segments, q₁.unread p = q.unread p := by
    intro p hp
    obtain ⟨read, hholds, -⟩ := hholds₁ p hp
    unfold Queue.unread
    rw [hfile₁]
    exact hholds.unread_eq
  have hrecords : q₁.records = q.records := by
    show q₁.recordsOf q₁.segments = _
    rw [hsegments]
    exact recordsOf_congr hunread₁
  obtain ⟨head, rest, hs⟩ := exists_cons_of_ne_nil h.ne_nil
  have hs₁ : q₁.segments = head :: rest := hsegments.trans hs
  -- the queue when its head and tail are set
  have hinv : ({ q₁ with head := some head, tail := q₁.segments.getLast? } : Queue).Inv
      Segment.Footed := by
    refine ⟨by rw [hsegments]; exact h.nodup, by rw [hsegments]; exact h.ne_nil, ?_, ?_, ?_, ?_⟩
    · rw [hs₁]
      rfl
    · intro p hp
      rw [hsegments] at hp
      obtain ⟨read, hholds, -⟩ := hholds₁ p hp
      refine ⟨read, ?_⟩
      show (q₁.objects p).Holds (q₁.file p) read (q₁.unread p)
      rw [hfile₁, hunread₁ p hp]
      exact hholds
    · intro p hp
      rw [hsegments] at hp
      obtain ⟨read, -, -, hfooted⟩ := hholds₁ p hp
      show (q₁.objects p).Footed (q₁.file p)
      rw [hfile₁]
      exact hfooted
    · intro p hp
      rw [hsegments] at hp
      obtain ⟨read, -, hmax, -⟩ := hholds₁ p hp
      exact hmax.trans hmax₁.symm
  obtain ⟨q', hset, hinv', hattached, hrecords'⟩ := hinv.setHead hs₁
  refine ⟨q', ?_, hinv', hattached, hrecords'.trans hrecords⟩
  have hnames' : readDir q.close.dir = q.segments := by
    rw [dir_close, hnames]
  have hopen : q.close.openQueue = (Except.ok q₁).bind (fun q => q.ensureSegment.bind Queue.setHead) := by
    unfold openQueue
    rw [hnames']
    exact congrArg (fun r => Except.bind r (fun q => q.ensureSegment.bind Queue.setHead)) hload
  rw [hopen]
  show q₁.ensureSegment.bind Queue.setHead = .ok q'
  unfold ensureSegment
  rw [if_neg (by rw [hs₁]; exact cons_ne_nil _ _)]
  exact hset

end Queue

/-! ## Runs with restarts -/

/-- `Steady`, and when the queue is opened again the segment files are, by name, in the order of the
segments. -/
def QueueRun.Orderly (s : QueueRun) (op : QueueOp) : Prop :=
  s.Steady op ∧ (op = .reopen → readDir s.queue.dir = s.queue.segments)

instance (s : QueueRun) (op : QueueOp) : Decidable (s.Orderly op) := inferInstanceAs (Decidable (_ ∧ _))

theorem QueueRun.Fifo.reopen {s : QueueRun} (h : s.Fifo) (hnames : readDir s.queue.dir = s.queue.segments)
    {s' : QueueRun} (hstep : s.step .reopen = some s') : s'.Fifo := by
  obtain ⟨q', hopen, hinv, hattached, hrecords⟩ := h.inv.reopen hnames
  unfold QueueRun.step at hstep
  simp only [hopen] at hstep
  cases hstep
  refine ⟨hinv, hattached, ?_⟩
  show s.appended = s.delivered ++ q'.records.map Prod.snd
  rw [hrecords]
  exact h.records

theorem QueueRun.fifo_of_reaches {maxSize size : Int64} {s : QueueRun}
    (h : (queueSystem maxSize size).Reaches QueueRun.Orderly s) : s.Fifo := by
  refine h.invariant (fun s hinit => ?_) (fun s op s' hs hok hstep => ?_)
  · exact .of_init hinit
  · cases op with
    | append b => exact hs.append hok.1 hstep
    | current => exact hs.current hstep
    | advance => exact hs.advance hok.1 hstep
    | reopen => exact hs.reopen (hok.2 rfl) hstep

end AndyEnv.Hh
