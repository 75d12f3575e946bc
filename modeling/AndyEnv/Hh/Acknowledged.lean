import AndyEnv.Hh.Fifo

/-!
# Acknowledged hints

Runs in which any write of a segment may fail and old segments are purged. `stored`
are the records whose `Append` has returned nil, each with its segment, but for those
that have been delivered and those whose segment has been purged.

`Append` drops every error of the tail but `ErrSegmentFull`. So it returns nil when a
write has failed, and when the tail has been closed: `PurgeOlderThan` removes the only segment
after it has appended a new one, but does not make that the tail.
-/

namespace AndyEnv.Hh

open Meta (Time)
open List Option

/-! ## Runs -/

structure HintRun : Type where
  queue : Queue
  stored : List (ℕ × Bytes)

inductive HintOp : Type
  | append (b : Bytes) (failures : Queue.Failures)
  | current
  | advance (failure : Option ℕ)
  /-- A pass of `PurgeOlderThan`. -/
  | purgeHead (cutoff mod : Time) (failure : Option ℕ)
deriving DecidableEq, Repr

/-- What is stored after an `Append`: a record is in the segment that is the tail then. -/
def appendStored (stored : List (ℕ × Bytes)) (b : Bytes) (r : Except QueueError Unit × Queue) :
    List (ℕ × Bytes) :=
  match r.1 with
  | .ok _ => stored ++ [(r.2.tail.getD 0, b)]
  | .error _ => stored

def advanceStored (stored : List (ℕ × Bytes)) (failure : Option ℕ) :
    Except QueueError Bytes → List (ℕ × Bytes)
  | .ok _ => if failure = none then stored.tail else stored
  | .error _ => stored

def HintRun.step (s : HintRun) : HintOp → HintRun
  | .append b failures =>
    let r := s.queue.append b failures
    ⟨r.2, appendStored s.stored b r⟩
  | .current => ⟨s.queue.current.2, s.stored⟩
  | .advance failure =>
    ⟨(s.queue.advance failure).2, advanceStored s.stored failure s.queue.current.1⟩
  | .purgeHead cutoff mod failure =>
    let q := (s.queue.purgeHead cutoff mod failure).2
    ⟨q, s.stored.filter (fun r => r.1 ∈ q.segments)⟩

def hintSystem (maxSize size : Int64) : System HintRun HintOp where
  init s := initQueue maxSize size = .ok s.queue ∧ s.stored = []
  step s op s' := some (s.step op) = some s'

/-- No write of a record fails, and the tail has not been closed. There is a number for the next
segment, and an `Advance` knows the size of the record. -/
def HintRun.Safe (s : HintRun) : HintOp → Prop
  | .append _ failures =>
    (failures.tail = none ∧ failures.retry = none) ∧ s.queue.TailOpen ∧ s.queue.NextFree
  | .current => True
  | .advance _ => s.queue.HeadSized
  | .purgeHead _ _ _ => s.queue.NextFree

instance (q : Queue) : Decidable q.TailOpen :=
  decidable_of_iff (q.tail.any (fun tail => (q.objects tail).isOpen) = true)
    (by unfold Queue.TailOpen; rw [Option.any_eq_true])

instance (s : HintRun) (op : HintOp) : Decidable (s.Safe op) :=
  match op with
  | .append _ _ => inferInstanceAs (Decidable (_ ∧ _ ∧ _))
  | .current => .isTrue trivial
  | .advance _ => inferInstanceAs (Decidable s.queue.HeadSized)
  | .purgeHead _ _ _ => inferInstanceAs (Decidable s.queue.NextFree)

def HintRun.run (maxSize size : Int64) (ok : HintRun → HintOp → Prop) [∀ s op, Decidable (ok s op)]
    (ops : List HintOp) : Option HintRun :=
  (initQueue maxSize size).toOption.bind
    (fun q => System.runIf ok (fun s op => some (HintRun.step s op)) ⟨q, []⟩ ops)

variable {s : HintRun} {P : Segment → Bytes → Prop}
variable {q : Queue} {rest : List ℕ}

theorem HintRun.reaches_run {maxSize size : Int64} {ok : HintRun → HintOp → Prop}
    [∀ s op, Decidable (ok s op)] {ops : List HintOp} (h : HintRun.run maxSize size ok ops = some s) : (hintSystem maxSize size).Reaches ok s := by
  obtain ⟨q, hq, hrun⟩ := bind_eq_some_iff.mp h
  exact System.Reaches.runIf (.init ⟨except_toOption_eq_some.mp hq, rfl⟩) hrun

/-! ## The tail -/

def Queue.TailClosed (q : Queue) : Prop := ∃ tail, q.tail = some tail ∧ (q.objects tail).isOpen = false

/-- **What is stored is in the queue**, and the tail is the last segment unless it is closed. -/
structure HintRun.Stored (s : HintRun) : Prop where
  inv : s.queue.Inv (fun _ _ => True)
  tail : s.queue.Attached ∨ s.queue.TailClosed
  records : s.stored = s.queue.records

theorem Queue.TailClosed.not_tailOpen (h : q.TailClosed) : ¬q.TailOpen := by
  obtain ⟨tail, htail, hclosed⟩ := h
  rintro ⟨tail', htail', hopen⟩
  obtain rfl := some.inj (htail.symm.trans htail')
  rw [hclosed] at hopen
  cases hopen

theorem Queue.TailClosed.of_head {q' : Queue} (h : q.TailClosed) (hinv : q.Inv P) {head : ℕ}
    (hs : q.segments = head :: rest) (htail : q'.tail = q.tail)
    (hobjects : ∀ p, p ≠ head → q'.objects p = q.objects p) : q'.TailClosed := by
  obtain ⟨tail, hq, hclosed⟩ := h
  have hne : tail ≠ head := by
    rintro rfl
    obtain ⟨read, hholds⟩ := hinv.holds tail (by rw [hs]; exact mem_cons_self)
    rw [hholds.isOpen] at hclosed
    cases hclosed
  exact ⟨tail, htail.trans hq, by rw [hobjects tail hne, hclosed]⟩

/-! ## Purging -/

theorem Queue.filter_recordsOf (q : Queue) (paths : List ℕ) :
    (q.recordsOf paths).filter (fun r => r.1 ∈ paths) = q.recordsOf paths := by
  rw [filter_eq_self]
  intro r hr
  obtain ⟨path, hpath, hr⟩ := mem_flatMap.mp hr
  obtain ⟨b, -, rfl⟩ := mem_map.mp hr
  exact decide_eq_true hpath

theorem Queue.Inv.recordsOf_rest (h : q.Inv P) {head : ℕ} (hs : q.segments = head :: rest) :
    q.recordsOf rest = q.records.filter (fun r => r.1 ∈ rest) := by
  have hnodup := h.nodup
  rw [hs, nodup_cons] at hnodup
  rw [Queue.records_eq hs, filter_append]
  have hhead : ((q.unread head).map (fun b => (head, b))).filter (fun r => r.1 ∈ rest) = [] := by
    rw [filter_eq_nil_iff]
    intro r hr
    obtain ⟨b, -, rfl⟩ := mem_map.mp hr
    rw [decide_eq_true_eq]
    exact hnodup.1
  rw [hhead, q.filter_recordsOf, nil_append]

theorem Queue.Inv.trimHead_cons (h : q.Inv P) {head next : ℕ}
    (hs : q.segments = head :: next :: rest) : ∃ q', q.trimHead = (.ok (), q') ∧
      q'.Inv P ∧ q'.segments = next :: rest ∧ q'.tail = q.tail ∧
      q'.records = q.records.filter (fun r => r.1 ∈ q'.segments) ∧
      (q'.objects head).isOpen = false ∧ (∀ p, p ≠ head → q'.objects p = q.objects p) := by
  rw [h.trimHead_eq, hs]
  refine ⟨_, rfl, h.trimmed hs (cons_ne_nil _ _), rfl, rfl, ?_, ?_, fun p hp => Queue.objects_trimmed hp⟩
  · rw [h.records_trimmed hs]
    exact h.recordsOf_rest hs
  · show (Function.update q.objects head _ head).isOpen = false
    rw [Function.update_self]

/-- **A purge removes the head with its records**, or nothing. -/
theorem HintRun.Stored.purgeHead (h : s.Stored) (hfree : s.queue.NextFree) (cutoff mod : Time)
    (failure : Option ℕ) : (s.step (.purgeHead cutoff mod failure)).Stored := by
  obtain ⟨head, rest, hs, hhead⟩ := h.inv.exists_head
  -- it is enough to know the queue after the pass
  suffices hq : ((s.queue.purgeHead cutoff mod failure).2.Inv (fun _ _ => True)) ∧
      ((s.queue.purgeHead cutoff mod failure).2.Attached ∨
        (s.queue.purgeHead cutoff mod failure).2.TailClosed) ∧
      (s.queue.purgeHead cutoff mod failure).2.records = s.queue.records.filter
        (fun r => r.1 ∈ (s.queue.purgeHead cutoff mod failure).2.segments) by
    refine ⟨hq.1, hq.2.1, ?_⟩
    show s.stored.filter _ = _
    rw [h.records]
    exact hq.2.2.symm
  unfold Queue.purgeHead
  by_cases hold : cutoff ≤ mod
  · rw [if_pos hold]
    exact ⟨h.inv, h.tail, (s.queue.filter_recordsOf _).symm⟩
  rw [if_neg hold]
  cases rest with
  | nil =>
    rw [if_pos (by rw [hs]; rfl)]
    cases failure with
    | some n =>
      obtain ⟨file, hadd⟩ := Queue.addSegment_some hfree n
      obtain ⟨hinv, hrecords⟩ := h.inv.of_dir (h.inv.notMem_of_free hfree) file
      rw [hadd]
      refine ⟨hinv, h.tail, ?_⟩
      show ({ s.queue with dir := _ } : Queue).records = _
      rw [hrecords]
      exact (s.queue.filter_recordsOf _).symm
    | none =>
      have hadded := h.inv.added (fun _ _ _ => trivial) hfree
      have hs' : s.queue.added.segments = head :: nextSegmentID s.queue.dir :: [] := by
        show s.queue.segments ++ [_] = _
        rw [hs]
        rfl
      obtain ⟨q', htrim, hinv, hsegments, htail, hrecords, hclosed, hobjects⟩ :=
        hadded.trimHead_cons hs'
      rw [Queue.addSegment_none hfree]
      simp only [htrim]
      refine ⟨hinv, ?_, ?_⟩
      · rcases h.tail with hattached | ⟨tail, hq, htailClosed⟩
        · refine .inr ⟨head, htail.trans ?_, hclosed⟩
          show s.queue.tail = some head
          rw [hattached, hs]
          rfl
        have hne : tail ≠ head := by
          rintro rfl
          obtain ⟨read, hholds⟩ := h.inv.holds tail (by rw [hs]; exact mem_cons_self)
          rw [hholds.isOpen] at htailClosed
          cases htailClosed
        by_cases hnew : tail = nextSegmentID s.queue.dir
        · left
          unfold Queue.Attached
          rw [hsegments, ← hnew]
          exact htail.trans hq
        · refine .inr ⟨tail, htail.trans hq, ?_⟩
          rw [hobjects tail hne, Queue.objects_added hnew, htailClosed]
      · rw [hrecords, h.inv.records_added hfree]
  | cons next rest =>
    rw [if_neg (by rw [hs]; simp)]
    obtain ⟨q', htrim, hinv, hsegments, htail, hrecords, hclosed, hobjects⟩ := h.inv.trimHead_cons hs
    simp only [htrim]
    refine ⟨hinv, ?_, hrecords⟩
    rcases h.tail with hattached | hclosed
    · exact .inl (attached_of_segments hattached hs htail (.inr ⟨hsegments, cons_ne_nil _ _⟩))
    · exact .inr (hclosed.of_head h.inv hs htail hobjects)

/-! ## The other steps -/

theorem HintRun.Stored.append (h : s.Stored) {b : Bytes} {failures : Queue.Failures}
    (hok : s.Safe (.append b failures)) : (s.step (.append b failures)).Stored := by
  obtain ⟨hfailures, hopen, hfree⟩ := hok
  have hattached : s.queue.Attached := h.tail.resolve_right (fun hclosed => hclosed.not_tailOpen hopen)
  obtain ⟨r, q', happend, hinv, hattached', hcase⟩ := h.inv.append (fun _ _ _ => trivial) hattached hfree
    hfailures b
  show HintRun.Stored ⟨(s.queue.append b failures).2, appendStored s.stored b (s.queue.append b failures)⟩
  rw [happend]
  refine ⟨hinv, .inl hattached', ?_⟩
  show appendStored s.stored b (r, q') = q'.records
  rcases hcase with ⟨rfl, tail, htail, hrecords⟩ | ⟨hr, hrecords⟩
  · show s.stored ++ [(q'.tail.getD 0, b)] = q'.records
    rw [htail, hrecords, h.records]
    rfl
  · rcases r with e | u
    · rw [hrecords]
      exact h.records
    · exact absurd rfl hr

theorem HintRun.Stored.current (h : s.Stored) : (s.step .current).Stored := by
  obtain ⟨head, rest, hs, -⟩ := h.inv.exists_head
  obtain ⟨q', hcurrent, hinv, hrecords, hsegments, htail, -, -, hobjects⟩ := h.inv.current hs
    (fun _ _ _ _ _ => trivial)
  show HintRun.Stored ⟨s.queue.current.2, s.stored⟩
  rw [hcurrent]
  refine ⟨hinv, ?_, h.records.trans hrecords.symm⟩
  rcases h.tail with hattached | hclosed
  · exact .inl (attached_of_segments hattached hs htail (.inl hsegments))
  · exact .inr (hclosed.of_head h.inv hs htail hobjects)

theorem HintRun.Stored.advance (h : s.Stored) (hsized : s.queue.HeadSized) (failure : Option ℕ) : (s.step (.advance failure)).Stored := by
  obtain ⟨head, rest, hs, -⟩ := h.inv.exists_head
  obtain ⟨qc, hcurrent, -⟩ := h.inv.current hs (fun _ _ _ _ _ => trivial)
  have hfailure : failure = none ∨ ∀ (s : Segment) (file : Bytes),
      (fun (_ : Segment) (_ : Bytes) => True) s file := .inr (fun _ _ => trivial)
  obtain ⟨q', hadvance, hinv, hrecords, htail, hsegments, -, hobjects⟩ := h.inv.advance hs
    (fun _ _ _ => trivial) (fun _ _ _ _ _ => trivial) hfailure hsized
  show HintRun.Stored ⟨(s.queue.advance failure).2, advanceStored s.stored failure s.queue.current.1⟩
  rw [hadvance, hcurrent]
  refine ⟨hinv, ?_, ?_⟩
  · rcases h.tail with hattached | hclosed
    · exact .inl (attached_of_segments hattached hs htail hsegments)
    · exact .inr (hclosed.of_head h.inv hs htail hobjects)
  · show advanceStored s.stored failure (Segment.next (s.queue.unread head)) = q'.records
    rw [hrecords, h.records]
    rcases s.queue.unread head with _ | ⟨b, bs⟩
    · rw [if_pos (.inl rfl)]
      rfl
    · cases failure with
      | none => rw [if_neg (by simp)]; rfl
      | some n => rw [if_pos (.inr (by simp))]; rfl

/-! ## What is stored is returned -/

/-- A reader looks at the current record and passes it. -/
def Queue.deliver (q : Queue) : Queue := (q.current.2.advance none).2

/-- **Every record is returned** by `Current` after some passes of a reader, in the order of the
records. -/
theorem Queue.Inv.exists_deliver (h : q.Inv (fun _ _ => True)) {before : List (ℕ × Bytes)}
    {r : ℕ × Bytes} {after : List (ℕ × Bytes)} (hrecords : q.records = before ++ r :: after) :
    ∃ n, (Queue.deliver^[n] q).current.1 = .ok r.2 := by
  -- each pass removes a record or a segment
  induction hk : before.length + q.segments.length using Nat.strong_induction_on
    generalizing q before with
  | _ k ih =>
    obtain ⟨head, rest, hs, -⟩ := h.exists_head
    obtain ⟨qc, hcurrent, hinvc, hrecordsc, hsegmentsc, -, hsizedc, hunreadc, -⟩ := h.current hs
      (fun _ _ _ _ _ => trivial)
    obtain ⟨q', hadvance, hinv', hrecords', -, hsegments, hskip, -⟩ := hinvc.advance (hsegmentsc.trans hs)
      (fun _ _ _ => trivial) (fun _ _ _ _ _ => trivial) (.inl rfl) hsizedc
    have hdeliver : q.deliver = q' := by
      unfold Queue.deliver
      rw [hcurrent]
      exact congrArg Prod.snd hadvance
    have hnext : ∀ {before' : List (ℕ × Bytes)}, q'.records = before' ++ r :: after →
        before'.length + q'.segments.length < k → ∃ n, (Queue.deliver^[n] q).current.1 = .ok r.2 := by
      intro before' hrec hlen
      obtain ⟨n, hn⟩ := ih _ hlen hinv' hrec rfl
      exact ⟨n + 1, by rw [Function.iterate_succ_apply, hdeliver, hn]⟩
    have hall := Queue.records_eq hs
    rw [hunreadc] at hrecords' hskip
    rcases hunread : q.unread head with _ | ⟨b, bs⟩
    · -- the head is at its end, so the record is in another segment
      rw [hunread] at hrecords' hskip hall
      have hrest : rest ≠ [] := by
        rintro rfl
        rw [hrecords] at hall
        simp [Queue.recordsOf] at hall
      have hseg := hskip rfl hrest
      rw [if_pos (.inl rfl), hrecordsc, hrecords] at hrecords'
      refine hnext hrecords' ?_
      rw [hseg]
      rw [hs, length_cons] at hk
      omega
    · cases before with
      | nil =>
        refine ⟨0, ?_⟩
        rw [hrecords, hunread] at hall
        have hr : r = (head, b) := by
          simpa using congrArg List.head? hall
        show q.current.1 = _
        rw [hcurrent, hunread, hr]
        rfl
      | cons r₀ before =>
        rw [hunread, if_neg (by simp), hrecordsc, hrecords] at hrecords'
        refine hnext hrecords' ?_
        have hlen : q'.segments.length ≤ q.segments.length := by
          rcases hsegments with heq | ⟨heq, -⟩
          · rw [heq, hsegmentsc]
          · rw [heq, hs, length_cons]
            omega
        rw [length_cons] at hk
        omega

/-- **An acknowledged hint is stored and returned.** In runs whose steps meet the condition, the
records whose `Append` has returned nil are in the queue, in order, but for those that have been delivered
or purged with their segment. `Current` returns the first of them in the states that `HeadLive` describes,
and each of them after some passes of a reader. -/
theorem append_stored {maxSize size : Int64} {s : HintRun}
    (h : (hintSystem maxSize size).Reaches HintRun.Safe s) : s.stored = s.queue.records ∧
      (s.queue.current.1 = Segment.next (s.stored.map Prod.snd) ↔ s.queue.HeadLive) ∧
      ∀ before r after, s.stored = before ++ r :: after →
        ∃ n, (Queue.deliver^[n] s.queue).current.1 = .ok r.2 := by
  have hstored : s.Stored := by
    refine h.invariant (fun s hinit => ?_) (fun s op s' hs hok hstep => ?_)
    · obtain ⟨hinv, hattached, hrecords⟩ := initQueue_ok hinit.1
      exact ⟨⟨hinv.nodup, hinv.ne_nil, hinv.head, hinv.holds, fun _ _ => trivial, hinv.maxSize⟩,
        .inl hattached, hinit.2.trans hrecords.symm⟩
    · cases hstep
      cases op with
      | append b failures => exact hs.append hok
      | current => exact hs.current
      | advance failure => exact hs.advance hok failure
      | purgeHead cutoff mod failure => exact hs.purgeHead hok cutoff mod failure
  refine ⟨hstored.records, ?_, fun before r after hsplit => ?_⟩
  · rw [hstored.records]
    exact hstored.inv.current_eq_next_iff (fun _ _ _ _ _ => trivial)
  · rw [hstored.records] at hsplit
    exact hstored.inv.exists_deliver hsplit

/-- An `Append` whose new segment cannot be made fails; an `Advance` whose write fails passes nothing. -/
theorem append_stored_one : ∃ s : HintRun, s.stored = [(1, [1])] ∧ s.queue.records = [(1, [1])] ∧
    s.queue.current.1 = .ok [1] := by
  have hrun : (HintRun.run 1000 17 HintRun.Safe
      [.append [1] ⟨none, none, none⟩, .advance (some 3), .append [2] ⟨none, some 4, none⟩]).map
        (fun s => (s.stored, decide s.queue.HeadLive)) = some ([(1, [1])], true) := by
    decide +kernel
  obtain ⟨s, hs, hfacts⟩ := map_eq_some_iff.mp hrun
  obtain ⟨hstored, hlive⟩ := Prod.mk.inj hfacts
  obtain ⟨hrecords, hcurrent, -⟩ := append_stored (HintRun.reaches_run hs)
  have hcurrent := hcurrent.mpr (of_decide_eq_true hlive)
  rw [hstored] at hrecords hcurrent
  exact ⟨s, hstored, hrecords.symm, hcurrent⟩

/-- `Append` returns nil and the record is not in the queue. -/
theorem append_not_stored :
    (∃ s : HintRun, HintRun.run 1000 500 (fun _ _ => True) [.append [2] ⟨some 0, none, none⟩] = some s ∧
      s.stored = [(1, [2])] ∧ s.queue.records = []) ∧
    ∃ s : HintRun, HintRun.run 1000 500 (fun _ _ => True)
        [.append [1] ⟨none, none, none⟩, .purgeHead 5 1 none, .append [2] ⟨none, none, none⟩] = some s ∧
      s.stored = [(1, [2])] ∧ s.queue.records = [] := by
  have hfirst : (HintRun.run 1000 500 (fun _ _ => True) [.append [2] ⟨some 0, none, none⟩]).map
      (fun s => (s.stored, s.queue.records)) = some ([(1, [2])], []) := by
    decide +kernel
  have hsecond : (HintRun.run 1000 500 (fun _ _ => True)
      [.append [1] ⟨none, none, none⟩, .purgeHead 5 1 none, .append [2] ⟨none, none, none⟩]).map
      (fun s => (s.stored, s.queue.records)) = some ([(1, [2])], []) := by
    decide +kernel
  obtain ⟨s, hs, hfacts⟩ := map_eq_some_iff.mp hfirst
  obtain ⟨s', hs', hfacts'⟩ := map_eq_some_iff.mp hsecond
  exact ⟨⟨s, hs, Prod.mk.inj hfacts⟩, s', hs', Prod.mk.inj hfacts'⟩

end AndyEnv.Hh
