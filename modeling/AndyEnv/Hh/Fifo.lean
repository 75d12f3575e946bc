import AndyEnv.Hh.QueueRecords
import AndyEnv.Lib.Run

/-!
# The queue is a FIFO

Runs of a queue that is made, opened and given a segment size. `appended` are the
records whose `Append` has returned nil, `delivered` those that `Current` had to
return before an `Advance`. The records in the queue are the difference.

There are two ways to lose this. `append` takes a current size of zero for the sign
of an empty segment, but the current record may be empty; the next `Advance` then
passes the wrong number of bytes. And a head that has been read to its end stays the head
while it is the only segment: once a second segment follows it, `Current` returns
`io.EOF` though there are records.
-/

namespace AndyEnv.Hh

open List Option

/-! ## Runs -/

structure QueueRun : Type where
  queue : Queue
  /-- The records whose `Append` has returned nil. -/
  appended : List Bytes
  /-- The records that `Current` returned before each `Advance`. -/
  delivered : List Bytes

inductive QueueOp : Type
  | append (b : Bytes)
  | current
  | advance
  /-- `Close` and `Open`. -/
  | reopen
deriving DecidableEq, Repr

/-- `newQueue`, `Open` and `SetMaxSegmentSize`. -/
def initQueue (maxSize size : Int64) : Except QueueError Queue :=
  (Queue.new maxSize).openQueue.bind (fun q => q.setMaxSegmentSize size)

def acknowledged (appended : List Bytes) (b : Bytes) : Except QueueError Unit → List Bytes
  | .ok _ => appended ++ [b]
  | .error _ => appended

def passed (delivered : List Bytes) : Except QueueError Bytes → List Bytes
  | .ok b => delivered ++ [b]
  | .error _ => delivered

def QueueRun.step (s : QueueRun) : QueueOp → Option QueueRun
  | .append b =>
    let r := s.queue.append b ⟨none, none, none⟩
    some { s with queue := r.2, appended := acknowledged s.appended b r.1 }
  | .current => some { s with queue := s.queue.current.2 }
  | .advance =>
    some { s with
      queue := (s.queue.advance none).2
      delivered := passed s.delivered s.queue.current.1 }
  | .reopen => s.queue.close.openQueue.toOption.map (fun q => { s with queue := q })

def queueSystem (maxSize size : Int64) : System QueueRun QueueOp where
  init s := initQueue maxSize size = .ok s.queue ∧ s.appended = [] ∧ s.delivered = []
  step s op s' := s.step op = some s'

def OneOpening (_ : QueueRun) (op : QueueOp) : Prop := op ≠ .reopen

instance (s : QueueRun) (op : QueueOp) : Decidable (OneOpening s op) :=
  inferInstanceAs (Decidable (_ ≠ _))

/-- There is a number for the next segment, and an `Advance` knows the size of the record. -/
def QueueRun.Steady (s : QueueRun) : QueueOp → Prop
  | .append _ => s.queue.NextFree
  | .current => True
  | .advance => s.queue.HeadSized
  | .reopen => True

instance (s : QueueRun) (op : QueueOp) : Decidable (s.Steady op) :=
  match op with
  | .append _ => inferInstanceAs (Decidable s.queue.NextFree)
  | .current => .isTrue trivial
  | .advance => inferInstanceAs (Decidable s.queue.HeadSized)
  | .reopen => .isTrue trivial

def QueueRun.run (maxSize size : Int64) (ok : QueueRun → QueueOp → Prop) [∀ s op, Decidable (ok s op)]
    (ops : List QueueOp) : Option QueueRun :=
  (initQueue maxSize size).toOption.bind (fun q => System.runIf ok QueueRun.step ⟨q, [], []⟩ ops)

variable {s : QueueRun} {maxSize size : Int64}

theorem QueueRun.reaches_run {ok : QueueRun → QueueOp → Prop} [∀ s op, Decidable (ok s op)]
    {ops : List QueueOp} (h : QueueRun.run maxSize size ok ops = some s) : (queueSystem maxSize size).Reaches ok s := by
  obtain ⟨q, hq, hrun⟩ := bind_eq_some_iff.mp h
  exact System.Reaches.runIf (.init ⟨except_toOption_eq_some.mp hq, rfl, rfl⟩) hrun

/-! ## The invariant -/

/-- **The records in the queue** are those appended and not delivered. -/
structure QueueRun.Fifo (s : QueueRun) : Prop where
  inv : s.queue.Inv Segment.Footed
  attached : s.queue.Attached
  records : s.appended = s.delivered ++ s.queue.records.map Prod.snd

theorem footed_of_pos (s s' : Segment) (file : Bytes) (hpos : s.pos = s'.pos) (h : s.Footed file) :
    s'.Footed file := by
  obtain ⟨records, hfile⟩ := h
  exact ⟨records, by rw [← hpos, hfile]⟩

variable {q : Queue} {s' : QueueRun}

/-- `HeadLive` is what `Current` needs to see the first of the records. -/
theorem Queue.Inv.current_eq_next_iff {P : Segment → Bytes → Prop} (h : q.Inv P)
    (hP : ∀ s s' file, Segment.pos s = Segment.pos s' → P s file → P s' file) :
    q.current.1 = Segment.next (q.records.map Prod.snd) ↔ q.HeadLive := by
  obtain ⟨head, rest, hs, hhead⟩ := h.exists_head
  obtain ⟨q', hcurrent, -⟩ := h.current hs hP
  have hatEnd : ∀ path ∈ q.segments, ((q.objects path).AtEnd ↔ q.unread path = []) := by
    intro path hpath
    obtain ⟨read, hholds⟩ := h.holds path hpath
    exact hholds.atEnd_iff
  have hmem : head ∈ q.segments := by
    rw [hs]
    exact mem_cons_self
  have hrecords := Queue.records_eq hs
  have hempty : q.records = [] ↔ ∀ path ∈ q.segments, (q.objects path).AtEnd := by
    unfold Queue.records
    rw [flatMap_eq_nil_iff]
    exact forall₂_congr (fun path hpath => by rw [hatEnd path hpath, map_eq_nil_iff])
  rw [hcurrent]
  unfold Queue.HeadLive
  simp only [hhead, mem_def, some.injEq, forall_eq']
  rw [hatEnd head hmem, ← hempty]
  rcases hunread : q.unread head with _ | ⟨b, bs⟩
  · simp only [true_implies]
    constructor
    · intro heq
      rcases hr : q.records with _ | ⟨r, rs⟩
      · rfl
      · rw [hr] at heq
        cases heq
    · intro hnil
      rw [hnil]
      rfl
  · rw [hrecords, hunread]
    exact ⟨fun _ hnil => (nomatch hnil), fun _ => rfl⟩

/-! ## The beginning -/

theorem openQueue_new (maxSize : Int64) : ∃ q, (Queue.new maxSize).openQueue = .ok q ∧
    q.segments = [1] ∧ q.head = some 1 ∧ q.tail = some 1 ∧
    q.file 1 = Bytes.putUint64 (UInt64.ofInt 0) ∧ q.objects 1 = ⟨true, footerSize, 0, 0, 10485760⟩ ∧
    q.NextFree :=
  ⟨_, rfl, rfl, rfl, rfl, rfl, rfl, rfl⟩

theorem initQueue_ok (h : initQueue maxSize size = .ok q) :
    q.Inv Segment.Footed ∧ q.Attached ∧ q.records = [] := by
  obtain ⟨q₀, hopen, hsegments, hhead, htail, hfile, hobject, hfree⟩ := openQueue_new maxSize
  unfold initQueue at h
  rw [hopen] at h
  change q₀.setMaxSegmentSize size = .ok q at h
  unfold Queue.setMaxSegmentSize at h
  -- the queue with the new size
  generalize hq₁ : ({ q₀ with
    maxSegmentSize := size
    objects := fun path =>
      if path ∈ q₀.segments then { q₀.objects path with maxSize := size } else q₀.objects path } : Queue)
    = q₁ at h
  have hobject₁ : q₁.objects 1 = ⟨true, footerSize, 0, 0, size⟩ := by
    rw [← hq₁]
    simp only [hsegments, hobject, mem_singleton, if_true]
  have hfile₁ : q₁.file 1 = Bytes.putUint64 (UInt64.ofInt 0) := by
    rw [← hq₁]
    exact hfile
  have hsegments₁ : q₁.segments = [1] := by
    rw [← hq₁]
    exact hsegments
  have hholds := Segment.holds_newSegment size
  have hunread : q₁.unread 1 = [] := by
    unfold Queue.unread
    rw [hobject₁, hfile₁, hholds.unread_eq]
  have hinv : q₁.Inv Segment.Footed := by
    refine ⟨?_, ?_, ?_, ?_, ?_, ?_⟩
    · rw [hsegments₁]
      exact nodup_singleton _
    · rw [hsegments₁]
      exact cons_ne_nil _ _
    · rw [hsegments₁, ← hq₁]
      exact hhead
    · intro path hpath
      rw [hsegments₁] at hpath
      rw [mem_singleton.mp hpath, hobject₁, hfile₁, hunread]
      exact ⟨[], hholds⟩
    · intro path hpath
      rw [hsegments₁] at hpath
      rw [mem_singleton.mp hpath, hobject₁, hfile₁]
      exact ⟨[], rfl⟩
    · intro path hpath
      rw [hsegments₁] at hpath
      rw [mem_singleton.mp hpath, hobject₁, ← hq₁]
  have htail₁ : q₁.tail = some 1 := by
    rw [← hq₁]
    exact htail
  have hrecords : q₁.records = [] := by
    unfold Queue.records
    rw [hsegments₁, flatMap_cons, hunread]
    rfl
  have hfree₁ : q₁.NextFree := by
    rw [← hq₁]
    exact hfree
  simp only [htail₁] at h
  split at h
  · rw [Queue.addSegment_none hfree₁] at h
    cases h
    refine ⟨(hinv.added (fun _ _ hfooted => hfooted) hfree₁).of_tail _, List.getLast?_concat.symm, ?_⟩
    exact (hinv.records_added hfree₁).trans hrecords
  · cases h
    refine ⟨hinv, ?_, hrecords⟩
    unfold Queue.Attached
    rw [htail₁, hsegments₁]
    rfl

theorem QueueRun.Fifo.of_init (h : (queueSystem maxSize size).init s) : s.Fifo := by
  obtain ⟨hqueue, happended, hdelivered⟩ := h
  obtain ⟨hinv, hattached, hrecords⟩ := initQueue_ok hqueue
  refine ⟨hinv, hattached, ?_⟩
  rw [happended, hdelivered, hrecords]
  rfl

/-! ## The steps -/

theorem attached_of_segments {q' : Queue} (h : q.Attached) {head : ℕ} {rest : List ℕ}
    (hs : q.segments = head :: rest) (htail : q'.tail = q.tail)
    (hsegments : q'.segments = q.segments ∨ q'.segments = rest ∧ rest ≠ []) : q'.Attached := by
  unfold Queue.Attached at *
  rcases hsegments with heq | ⟨heq, hrest⟩
  · rw [htail, heq, h]
  · rw [htail, heq, h, hs, List.getLast?_cons_of_ne_nil hrest]

theorem QueueRun.Fifo.append (h : s.Fifo) (hfree : s.queue.NextFree) {b : Bytes}
    (hstep : s.step (.append b) = some s') : s'.Fifo := by
  cases hstep
  have hnone : (⟨none, none, none⟩ : Queue.Failures).tail = none ∧
    (⟨none, none, none⟩ : Queue.Failures).retry = none := ⟨rfl, rfl⟩
  obtain ⟨r, q', happend, hinv, hattached, hcase⟩ := h.inv.append (fun _ _ hfooted => hfooted) h.attached
    hfree hnone b
  refine ⟨?_, ?_, ?_⟩
  · rw [happend]
    exact hinv
  · rw [happend]
    exact hattached
  · rw [happend]
    rcases hcase with ⟨rfl, tail, -, hrecords⟩ | ⟨hr, hrecords⟩
    · show s.appended ++ [b] = s.delivered ++ q'.records.map Prod.snd
      rw [hrecords, h.records, map_append, append_assoc]
      rfl
    have hsame : acknowledged s.appended b r = s.appended := by
      rcases r with e | u
      · rfl
      · exact absurd rfl hr
    show acknowledged s.appended b r = s.delivered ++ q'.records.map Prod.snd
    rw [hsame, hrecords, h.records]

theorem QueueRun.Fifo.current (h : s.Fifo) (hstep : s.step .current = some s') : s'.Fifo := by
  cases hstep
  obtain ⟨head, rest, hs, -⟩ := h.inv.exists_head
  obtain ⟨q', hcurrent, hinv, hrecords, hsegments, htail, -⟩ := h.inv.current hs footed_of_pos
  refine ⟨?_, ?_, ?_⟩
  · rw [hcurrent]
    exact hinv
  · rw [hcurrent]
    exact attached_of_segments h.attached hs htail (.inl hsegments)
  · rw [hcurrent]
    show s.appended = s.delivered ++ q'.records.map Prod.snd
    rw [hrecords, h.records]

theorem QueueRun.Fifo.advance (h : s.Fifo) (hsized : s.queue.HeadSized)
    (hstep : s.step .advance = some s') : s'.Fifo := by
  cases hstep
  obtain ⟨head, rest, hs, -⟩ := h.inv.exists_head
  obtain ⟨qc, hcurrent, -⟩ := h.inv.current hs footed_of_pos
  obtain ⟨q', hadvance, hinv, hrecords, htail, hsegments, -⟩ := h.inv.advance hs
    (fun _ _ hfooted => hfooted) footed_of_pos (.inl rfl) hsized
  have hbefore := Queue.records_eq hs
  refine ⟨?_, ?_, ?_⟩
  · rw [hadvance]
    exact hinv
  · rw [hadvance]
    exact attached_of_segments h.attached hs htail hsegments
  · rw [hadvance, hcurrent]
    show s.appended = passed s.delivered (Segment.next (s.queue.unread head)) ++ q'.records.map Prod.snd
    rw [hrecords, h.records]
    rcases hunread : s.queue.unread head with _ | ⟨b, bs⟩
    · rw [if_pos (.inl rfl)]
      rfl
    · rw [if_neg (by simp), hbefore, hunread]
      simp [Segment.next, passed]

/-! ## Runs within one opening -/

end AndyEnv.Hh
