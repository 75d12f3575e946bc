import AndyEnv.Tsm1.Engine
import AndyEnv.Tsm1.WriteLock

/-!
# Locking the files of a write

`filesAndLock` copies the list of files, selects the files of a write, locks
their range and compares the copy with the list as it is then. Other writers
and compactions run all the time: they lock ranges of the same `WriteLock`, and
a client that holds a range swaps files inside it for new ones. A file that is
no longer in the list is closed at some time, and from then on both its times
read as 0.
-/

namespace AndyEnv.Tsm1

open List Function

/-- A `*dataFile`. The number tells files apart. -/
structure FileHandle where
  id : ℕ
  minTime : Int64
  maxTime : Int64
  le : minTime ≤ maxTime
  deriving DecidableEq

/-! ## The computations of `filesAndLock` -/

section

variable {F : Type} (minTime maxTime : F → Int64)

/-- The loop of `filesAndLock`. The second comparison is of `fmin` with itself. -/
def selectFiles (files : List F) (min max : Int64) : List F :=
  files.filter (fun f =>
    (decide (min < maxTime f) && decide (minTime f ≥ minTime f)) ||
      (decide (max ≥ minTime f) && decide (max < maxTime f)))

def lockBounds (min max : Int64) : List F → Int64 × Int64
  | [] => (min, max)
  | f :: fs =>
    let lockEnd := maxTime ((f :: fs).getLast (cons_ne_nil f fs))
    (minTime f, if max > lockEnd then max else lockEnd)

def dataFilesEquals (a b : List F) : Bool :=
  decide (a.length = b.length) &&
    (a.zip b).all (fun p => !(decide (minTime p.1 ≠ minTime p.2) && decide (maxTime p.1 ≠ maxTime p.2)))

end

theorem selectFiles_eq {F : Type} {minTime maxTime : F → Int64} {min max : Int64} (h : min ≤ max) (files : List F) :
    selectFiles minTime maxTime files min max = files.filter (fun f => min < maxTime f) := by
  refine filter_congr (fun f _ => ?_)
  rw [Bool.eq_iff_iff]
  simp only [Bool.or_eq_true, Bool.and_eq_true, decide_eq_true_eq, ge_iff_le, Int64.lt_iff_toInt_lt,
    Int64.le_iff_toInt_le] at h ⊢
  omega

/-! ## The call and its surroundings -/

/-- Where the call of `filesAndLock` stands. -/
inductive FilesCall where
  | start
  | copied (files : List FileHandle)
  | selected (files a : List FileHandle)
  | locking (files a : List FileHandle) (lockStart lockEnd : Int64)
  | locked (files a : List FileHandle) (lockStart lockEnd : Int64)
  | recopied (files a : List FileHandle) (lockStart lockEnd : Int64) (filesAfterLock : List FileHandle)
  | returned (a : List FileHandle) (lockStart lockEnd : Int64)
  deriving DecidableEq

/-- The list that was copied, before files are selected. -/
def FilesCall.copy : FilesCall → Option (List FileHandle)
  | copied files => some files
  | _ => none

def FilesCall.copies : FilesCall → Option (List FileHandle × List FileHandle)
  | recopied files _ _ _ filesAfterLock => some (files, filesAfterLock)
  | _ => none

/-- The range locks, the engine's files, the numbers of the closed files, the
next number, and the call, which is client 0 of the range locks. -/
structure FilesState where
  lock : WriteLock
  files : List FileHandle
  closed : List ℕ
  nextID : ℕ
  call : FilesCall

namespace FilesState

variable (s : FilesState)

/-- `MinTime()`. -/
def minTime (f : FileHandle) : Int64 := if f.id ∈ s.closed then 0 else f.minTime

/-- `MaxTime()`. -/
def maxTime (f : FileHandle) : Int64 := if f.id ∈ s.closed then 0 else f.maxTime

/-- A writer or a compaction takes files out of the list and puts new ones in. -/
def swap (removed : List ℕ) (added : List { p : Int64 × Int64 // p.1 ≤ p.2 }) : FilesState :=
  let new := added.mapIdx (fun i p => (⟨s.nextID + i, p.1.1, p.1.2, p.2⟩ : FileHandle))
  { s with
    files := (s.files.filter (fun f => f.id ∉ removed) ++ new).insertionSort
      (fun f g => f.minTime.toInt ≤ g.minTime.toInt)
    nextID := s.nextID + added.length }

end FilesState

inductive FilesLabel where
  | copyFiles
  | select
  | lockRange
  | lock (l : LockLabel)
  | locked
  | copyFilesAfterLock
  | compare
  | swap (c : ℕ) (removed : List ℕ) (added : List { p : Int64 × Int64 // p.1 ≤ p.2 })
  | close (id : ℕ)

namespace FilesState

def step (min max : Int64) (s : FilesState) : FilesLabel → Option FilesState
  | .copyFiles =>
    match s.call with
    | .start => some { s with call := .copied s.files }
    | _ => none
  | .select =>
    match s.call with
    | .copied files =>
      some { s with call := .selected files (selectFiles s.minTime s.maxTime s.files min max) }
    | _ => none
  | .lockRange =>
    match s.call with
    | .selected files a =>
      let b := lockBounds s.minTime s.maxTime min max a
      (s.lock.step (.call 0 b.1 b.2)).map (fun w => { s with lock := w, call := .locking files a b.1 b.2 })
    | _ => none
  | .lock l =>
    -- the other clients, and the loop of this call's `LockRange`
    if l.client ≠ 0 ∨ l.inLockRange = true then (s.lock.step l).map (fun w => { s with lock := w }) else none
  | .locked =>
    match s.call, s.lock.clients 0 with
    | .locking files a lockStart lockEnd, .holds _ => some { s with call := .locked files a lockStart lockEnd }
    | _, _ => none
  | .copyFilesAfterLock =>
    match s.call with
    | .locked files a lockStart lockEnd => some { s with call := .recopied files a lockStart lockEnd s.files }
    | _ => none
  | .compare =>
    match s.call with
    | .recopied files a lockStart lockEnd filesAfterLock =>
      if dataFilesEquals s.minTime s.maxTime files filesAfterLock then
        some { s with call := .returned a lockStart lockEnd }
      else (s.lock.step (.unlockRange 0)).map (fun w => { s with lock := w, call := .start })
    | _ => none
  | .swap c removed added =>
    match s.lock.clients c with
    | .holds p =>
      if c ≠ 0 ∧ ∀ f ∈ s.files, f.id ∈ removed →
          (s.lock.heap p).min ≤ f.minTime ∧ f.maxTime ≤ (s.lock.heap p).max then
        some (s.swap removed added)
      else none
    | _ => none
  | .close id =>
    if id < s.nextID ∧ ∀ f ∈ s.files, f.id ≠ id then some { s with closed := id :: s.closed } else none

structure Begins (s : FilesState) : Prop where
  lock : s.lock = .init
  fresh : ∀ f ∈ s.files, f.id < s.nextID
  isOpen : ∀ f ∈ s.files, f.id ∉ s.closed
  closed : ∀ id ∈ s.closed, id < s.nextID
  call : s.call = .start

def system (min max : Int64) : System FilesState FilesLabel :=
  ⟨Begins, fun s l s' => s.step min max l = some s'⟩

/-- What holds of the files and the range of a call that has returned. -/
def Covered (min max : Int64) (s : FilesState) : Prop :=
  match s.call with
  | .returned a lockStart lockEnd =>
    (lockStart ≤ min ∧ min ≤ lockEnd ∧ lockStart ≤ max ∧ max ≤ lockEnd) ∧
      ∀ f ∈ a, f ∈ s.files ∧ lockStart ≤ f.minTime ∧ f.maxTime ≤ lockEnd
  | _ => True

/-- The oldest file that ends after `min` begins at or before `min`, the others of
them do not begin before it, and none of them ends after both `max` and the last one. -/
def Spans (min max : Int64) (files : List FileHandle) : Prop :=
  ∀ f ∈ (files.filter (fun f => min < f.maxTime)).head?, f.minTime ≤ min ∧
    ∀ g ∈ files.filter (fun f => min < f.maxTime), f.minTime ≤ g.minTime ∧
      (g.maxTime ≤ max ∨ ∃ h ∈ (files.filter (fun f => min < f.maxTime)).getLast?, g.maxTime ≤ h.maxTime)

instance (min max : Int64) (files : List FileHandle) : Decidable (Spans min max files) :=
  inferInstanceAs (Decidable (∀ f ∈ (files.filter _).head?, _))

/-- The condition on a step. The files are selected from the list that was
copied, and it spans the range. A list that is compared with a copy of another
list has another length, or somewhere a file with both times different. And
the range locks are free when they are looked at again. -/
def Undisturbed (min max : Int64) (s : FilesState) : FilesLabel → Prop
  | .select => ∀ files ∈ s.call.copy, s.files = files ∧ Spans min max s.files
  | .compare => ∀ p ∈ s.call.copies, p.1 ≠ p.2 → p.1.length ≠ p.2.length ∨
      ∃ q ∈ p.1.zip p.2, s.minTime q.1 ≠ s.minTime q.2 ∧ s.maxTime q.1 ≠ s.maxTime q.2
  | .lock l => s.lock.WaitedFree l
  | _ => True

instance (min max : Int64) (s : FilesState) : ∀ l, Decidable (s.Undisturbed min max l)
  | .select => inferInstanceAs (Decidable (∀ files ∈ s.call.copy, _ ∧ _))
  | .compare => inferInstanceAs (Decidable (∀ p ∈ s.call.copies, _ → _))
  | .lock l => inferInstanceAs (Decidable (s.lock.WaitedFree l))
  | .copyFiles | .lockRange | .locked | .copyFilesAfterLock | .swap .. | .close _ => isTrue trivial

/-! ## The bounds -/

variable {min max : Int64} {f : FileHandle} {s' : FilesState} {removed : List ℕ}

theorem lockBounds_congr {F : Type} {minTime maxTime minTime' maxTime' : F → Int64} {a : List F}
    (h : ∀ f ∈ a, minTime f = minTime' f ∧ maxTime f = maxTime' f) :
    lockBounds minTime maxTime min max a = lockBounds minTime' maxTime' min max a := by
  cases a with
  | nil => rfl
  | cons f fs => simp only [lockBounds, (h f mem_cons_self).1, (h _ (getLast_mem _)).2]

/-- The bounds of a list that spans the range hold the range and the selected files. -/
theorem lockBounds_of_spans {files : List FileHandle} (hspans : Spans min max files)
    {lockStart lockEnd : Int64} (h : (lockStart, lockEnd) = lockBounds FileHandle.minTime FileHandle.maxTime min max
      (files.filter (fun f => min < f.maxTime))) :
    lockStart ≤ min ∧ max ≤ lockEnd ∧
      ∀ f ∈ files.filter (fun f => min < f.maxTime), lockStart ≤ f.minTime ∧ f.maxTime ≤ lockEnd := by
  unfold Spans at hspans
  generalize files.filter (fun f => min < f.maxTime) = a at hspans h ⊢
  cases a with
  | nil =>
    cases h
    exact ⟨Int64.le_refl _, Int64.le_refl _, fun f hf => (nomatch hf)⟩
  | cons f fs =>
    obtain ⟨hmin, hall⟩ := hspans f rfl
    obtain ⟨rfl, hend⟩ := Prod.mk.inj h
    have hlast : ∀ t : Int64, t ≤ max ∨ t ≤ ((f :: fs).getLast (cons_ne_nil f fs)).maxTime → t ≤ lockEnd := by
      intro t ht
      rw [hend]
      simp only [Int64.le_iff_toInt_le] at ht ⊢
      split
      all_goals
        rename_i hgt
        rw [gt_iff_lt, Int64.lt_iff_toInt_lt] at hgt
        omega
    refine ⟨hmin, hlast max (.inl (Int64.le_refl _)), fun g hg => ⟨(hall g hg).1, hlast _ ?_⟩⟩
    refine (hall g hg).2.imp_right ?_
    rintro ⟨l, hl, hgl⟩
    rw [List.getLast?_eq_some_getLast (cons_ne_nil f fs)] at hl
    cases hl
    exact hgl

/-! ## The invariant -/

/-- The files of the call are those of the copied list that end after `min`. -/
structure Chosen (min max : Int64) (s : FilesState) (files a : List FileHandle) : Prop where
  fresh : ∀ f ∈ files, f.id < s.nextID
  spans : Spans min max files
  eq : a = files.filter (fun f => min < f.maxTime)

def Holds (s : FilesState) (lockStart lockEnd : Int64) : Prop :=
  ∃ r, s.lock.clients 0 = .holds r ∧ (s.lock.heap r).min = lockStart ∧ (s.lock.heap r).max = lockEnd

/-- What holds while the call runs. The bounds are read from files that may be
closed; they are right if the files are still there. -/
def CallInv (min max : Int64) (s : FilesState) : Prop :=
  match s.call with
  | .start | .copied _ => True
  | .selected files a => Chosen min max s files a
  | .locking files a lockStart lockEnd => Chosen min max s files a ∧
      ((∀ f ∈ files, f ∈ s.files) →
        (lockStart, lockEnd) = lockBounds FileHandle.minTime FileHandle.maxTime min max a) ∧
      ∀ r ∈ (s.lock.clients 0).own, (s.lock.heap r).min = lockStart ∧ (s.lock.heap r).max = lockEnd
  | .locked files a lockStart lockEnd => Chosen min max s files a ∧
      ((∀ f ∈ files, f ∈ s.files) →
        (lockStart, lockEnd) = lockBounds FileHandle.minTime FileHandle.maxTime min max a) ∧
      s.Holds lockStart lockEnd
  | .recopied files a lockStart lockEnd filesAfterLock => Chosen min max s files a ∧
      (files = filesAfterLock →
        (lockStart, lockEnd) = lockBounds FileHandle.minTime FileHandle.maxTime min max a) ∧
      s.Holds lockStart lockEnd ∧
      ∀ f ∈ filesAfterLock, lockStart ≤ f.minTime → f.maxTime ≤ lockEnd → f ∈ s.files
  | .returned _ lockStart lockEnd => s.Holds lockStart lockEnd ∧ s.Covered min max

structure Inv (min max : Int64) (s : FilesState) : Prop where
  lock : s.lock.Inv
  fresh : ∀ f ∈ s.files, f.id < s.nextID
  isOpen : ∀ f ∈ s.files, f.id ∉ s.closed
  closed : ∀ id ∈ s.closed, id < s.nextID
  call : s.CallInv min max

variable {min max : Int64} {s : FilesState}

theorem times_of_mem (h : Inv min max s) (hf : f ∈ s.files) :
    s.minTime f = f.minTime ∧ s.maxTime f = f.maxTime :=
  ⟨if_neg (h.isOpen f hf), if_neg (h.isOpen f hf)⟩

theorem selectFiles_of_inv (h : Inv min max s) (hle : min ≤ max) :
    selectFiles s.minTime s.maxTime s.files min max = s.files.filter (fun f => min < f.maxTime) := by
  rw [selectFiles_eq hle]
  exact filter_congr (fun f hf => by rw [(times_of_mem h hf).2])

/-- What the other clients do leaves the call's facts as they are: files that
were taken out do not come back, and files in the call's range stay. -/
theorem callInv_of_frame (h : s.CallInv min max) (hcall : s'.call = s.call)
    (hnext : s.nextID ≤ s'.nextID) (hback : ∀ f ∈ s'.files, f.id < s.nextID → f ∈ s.files)
    (hkeep : ∀ lockStart lockEnd, s.Holds lockStart lockEnd → ∀ f ∈ s.files, lockStart ≤ f.minTime →
      f.maxTime ≤ lockEnd → f ∈ s'.files)
    (hholds : ∀ lockStart lockEnd, s.Holds lockStart lockEnd → s'.Holds lockStart lockEnd)
    (hown : ∀ lockStart lockEnd,
      (∀ r ∈ (s.lock.clients 0).own, (s.lock.heap r).min = lockStart ∧ (s.lock.heap r).max = lockEnd) →
      ∀ r ∈ (s'.lock.clients 0).own, (s'.lock.heap r).min = lockStart ∧ (s'.lock.heap r).max = lockEnd) :
    s'.CallInv min max := by
  have hchosen : ∀ {files a : List FileHandle}, Chosen min max s files a → Chosen min max s' files a :=
    fun hc => ⟨fun f hf => (hc.fresh f hf).trans_le hnext, hc.spans, hc.eq⟩
  have hall : ∀ {files a : List FileHandle}, Chosen min max s files a → (∀ f ∈ files, f ∈ s'.files) →
      ∀ f ∈ files, f ∈ s.files :=
    fun hc hf f hmem => hback f (hf f hmem) (hc.fresh f hmem)
  unfold CallInv at h ⊢
  rw [hcall]
  cases hc : s.call with
  | start => trivial
  | copied files => trivial
  | selected files a =>
    rw [hc] at h
    exact hchosen h
  | locking files a lockStart lockEnd =>
    rw [hc] at h
    obtain ⟨hch, hbounds, hr⟩ := h
    exact ⟨hchosen hch, fun hf => hbounds (hall hch hf), hown _ _ hr⟩
  | locked files a lockStart lockEnd =>
    rw [hc] at h
    obtain ⟨hch, hbounds, hr⟩ := h
    exact ⟨hchosen hch, fun hf => hbounds (hall hch hf), hholds _ _ hr⟩
  | recopied files a lockStart lockEnd filesAfterLock =>
    rw [hc] at h
    obtain ⟨hch, hbounds, hr, hafter⟩ := h
    exact ⟨hchosen hch, hbounds, hholds _ _ hr,
      fun f hf hmin hmax => hkeep _ _ hr f (hafter f hf hmin hmax) hmin hmax⟩
  | returned a lockStart lockEnd =>
    rw [hc] at h
    obtain ⟨hr, hcov⟩ := h
    unfold Covered at hcov
    rw [hc] at hcov
    refine ⟨hholds _ _ hr, ?_⟩
    unfold Covered
    rw [hcall, hc]
    refine ⟨hcov.1, fun f hf => ?_⟩
    obtain ⟨hmem, hmin, hmax⟩ := hcov.2 f hf
    exact ⟨hkeep _ _ hr f hmem hmin hmax, hmin, hmax⟩

theorem Inv.lockStep (h : Inv min max s) {l : LockLabel} {w : WriteLock}
    (hl : l.client ≠ 0 ∨ l.inLockRange = true) (hok : s.lock.WaitedFree l) (hs : s.lock.step l = some w) :
    Inv min max { s with lock := w } := by
  have hframe := WriteLock.frame_step hs
  have hown : ∀ r ∈ (w.clients 0).own, r ∈ (s.lock.clients 0).own := by
    intro r hr
    by_cases hc : l.client = 0
    · rw [← hc, hframe.own (hl.resolve_left (not_not.mpr hc)), hc] at hr
      exact hr
    · rwa [hframe.clients 0 (Ne.symm hc)] at hr
  refine ⟨h.lock.step hok hs, h.fresh, h.isOpen, h.closed,
    callInv_of_frame h.call rfl le_rfl (fun f hf _ => hf) (fun _ _ _ f hf _ _ => hf) ?_ ?_⟩
  · rintro lockStart lockEnd ⟨r, hc, hmin, hmax⟩
    have hne : l.client ≠ 0 := by
      intro hzero
      rw [← hzero] at hc
      rw [WriteLock.step_of_holds hc (hl.resolve_left (not_not.mpr hzero))] at hs
      cases hs
    obtain ⟨hbmin, hbmax⟩ := hframe.bounds r (h.lock.owned 0 r (by rw [hc]; rfl))
    exact ⟨r, (hframe.clients 0 (Ne.symm hne)).trans hc, hbmin.trans hmin, hbmax.trans hmax⟩
  · intro lockStart lockEnd hbounds r hr
    have hr' := hown r hr
    obtain ⟨hbmin, hbmax⟩ := hframe.bounds r (h.lock.owned 0 r hr')
    exact ⟨hbmin.trans (hbounds r hr').1, hbmax.trans (hbounds r hr').2⟩

variable {added : List { p : Int64 × Int64 // p.1 ≤ p.2 }}

theorem mem_swap : f ∈ (s.swap removed added).files ↔ (f ∈ s.files ∧ f.id ∉ removed) ∨
      f ∈ added.mapIdx (fun i p => (⟨s.nextID + i, p.1.1, p.1.2, p.2⟩ : FileHandle)) := by
  unfold swap
  rw [mem_insertionSort, mem_append, mem_filter, decide_eq_true_eq]

theorem id_of_mem_new {n : ℕ}
    (hf : f ∈ added.mapIdx (fun i p => (⟨n + i, p.1.1, p.1.2, p.2⟩ : FileHandle))) :
    n ≤ f.id ∧ f.id < n + added.length := by
  obtain ⟨i, hi, rfl⟩ := mem_mapIdx.mp hf
  exact ⟨Nat.le_add_right _ _, Nat.add_lt_add_left hi _⟩

/-- Another client swaps files in its range, which does not meet that of the call. -/
theorem Inv.swapFiles (h : Inv min max s) {c p : ℕ} (hc : s.lock.clients c = .holds p) (hne : c ≠ 0)
    (hin : ∀ f ∈ s.files, f.id ∈ removed → (s.lock.heap p).min ≤ f.minTime ∧ f.maxTime ≤ (s.lock.heap p).max) :
    Inv min max (s.swap removed added) := by
  refine ⟨h.lock, ?_, ?_, fun id hid => (h.closed id hid).trans_le (Nat.le_add_right _ _),
    callInv_of_frame h.call rfl (Nat.le_add_right _ _) ?_ ?_ (fun _ _ hr => hr)
    (fun _ _ hr => hr)⟩
  · intro f hf
    rcases mem_swap.mp hf with ⟨hf, -⟩ | hf
    · exact (h.fresh f hf).trans_le (Nat.le_add_right _ _)
    · exact (id_of_mem_new hf).2
  · intro f hf hmem
    rcases mem_swap.mp hf with ⟨hf, -⟩ | hf
    · exact h.isOpen f hf hmem
    · exact absurd (h.closed _ hmem) (not_lt.mpr (id_of_mem_new hf).1)
  · intro f hf hid
    rcases mem_swap.mp hf with ⟨hf, -⟩ | hf
    · exact hf
    · exact absurd hid (not_lt.mpr (id_of_mem_new hf).1)
  · rintro lockStart lockEnd ⟨r, hr, rfl, rfl⟩ f hf hmin hmax
    refine mem_swap.mpr (.inl ⟨hf, fun hrem => ?_⟩)
    obtain ⟨hpmin, hpmax⟩ := hin f hf hrem
    -- the file's first time would lie in both ranges
    exact h.lock.exclusive c 0 p r hne hc hr ⟨f.minTime, ⟨hpmin, Int64.le_trans f.le hpmax⟩,
      hmin, Int64.le_trans f.le hmax⟩

/-! ## The steps of the call -/

namespace Inv

theorem select (h : Inv min max s) (hle : min ≤ max) (hspans : Spans min max s.files) :
    Inv min max { s with call := .selected s.files (selectFiles s.minTime s.maxTime s.files min max) } :=
  ⟨h.lock, h.fresh, h.isOpen, h.closed, ⟨h.fresh, hspans, selectFiles_of_inv h hle⟩⟩

variable {lockStart lockEnd : Int64} {files a : List FileHandle}

theorem lockRange (h : Inv min max s) (hcall : s.call = .selected files a) {w : WriteLock}
    (hb : lockBounds s.minTime s.maxTime min max a = (lockStart, lockEnd))
    (hs : s.lock.step (.call 0 lockStart lockEnd) = some w) :
    Inv min max { s with lock := w, call := .locking files a lockStart lockEnd } := by
  have hchosen : Chosen min max s files a := by
    have := h.call
    unfold CallInv at this
    rwa [hcall] at this
  refine ⟨h.lock.step (by exact trivial) hs, h.fresh, h.isOpen, h.closed,
    ⟨hchosen.fresh, hchosen.spans, hchosen.eq⟩, fun hall => ?_, fun r hr => ?_⟩
  · -- a file that is in the list is open, so its times are its own
    rw [← hb]
    refine lockBounds_congr (fun f hf => times_of_mem h (hall f ?_))
    rw [hchosen.eq] at hf
    exact mem_of_mem_filter hf
  · simp only [WriteLock.step] at hs
    split at hs
    · cases hs
      change r ∈ (update s.lock.clients 0 _ 0).own at hr
      rw [update_self] at hr
      cases hr
      show (update s.lock.heap s.lock.next _ s.lock.next).min = _ ∧
        (update s.lock.heap s.lock.next _ s.lock.next).max = _
      rw [update_self]
      exact ⟨rfl, rfl⟩
    · cases hs

theorem locked (h : Inv min max s) {r : ℕ} (hcall : s.call = .locking files a lockStart lockEnd)
    (hr : s.lock.clients 0 = .holds r) :
    Inv min max { s with call := .locked files a lockStart lockEnd } := by
  have hinv := h.call
  unfold CallInv at hinv
  rw [hcall] at hinv
  obtain ⟨hchosen, hbounds, hown⟩ := hinv
  obtain ⟨hmin, hmax⟩ := hown r (by rw [hr]; rfl)
  exact ⟨h.lock, h.fresh, h.isOpen, h.closed, ⟨hchosen.fresh, hchosen.spans, hchosen.eq⟩, hbounds,
    r, hr, hmin, hmax⟩

theorem copyFilesAfterLock (h : Inv min max s) (hcall : s.call = .locked files a lockStart lockEnd) :
    Inv min max { s with call := .recopied files a lockStart lockEnd s.files } := by
  have hinv := h.call
  unfold CallInv at hinv
  rw [hcall] at hinv
  obtain ⟨hchosen, hbounds, hholds⟩ := hinv
  exact ⟨h.lock, h.fresh, h.isOpen, h.closed, ⟨hchosen.fresh, hchosen.spans, hchosen.eq⟩,
    fun heq => hbounds (fun f hf => heq ▸ hf), hholds, fun f hf _ _ => hf⟩

theorem returned (h : Inv min max s) (hle : min ≤ max) {filesAfterLock : List FileHandle}
    (hcall : s.call = .recopied files a lockStart lockEnd filesAfterLock)
    (heq : files = filesAfterLock) : Inv min max { s with call := .returned a lockStart lockEnd } := by
  have hinv := h.call
  unfold CallInv at hinv
  rw [hcall] at hinv
  obtain ⟨hchosen, hbounds, hholds, hafter⟩ := hinv
  have hb := hbounds heq
  rw [hchosen.eq] at hb
  obtain ⟨hstart, hend, hfiles⟩ := lockBounds_of_spans hchosen.spans hb
  refine ⟨h.lock, h.fresh, h.isOpen, h.closed, hholds,
    ⟨hstart, Int64.le_trans hle hend, Int64.le_trans hstart hle, hend⟩, fun f hf => ?_⟩
  rw [hchosen.eq] at hf
  obtain ⟨hmin, hmax⟩ := hfiles f hf
  exact ⟨hafter f (heq ▸ mem_of_mem_filter hf) hmin hmax, hmin, hmax⟩

end Inv

theorem Inv.step (h : Inv min max s) (hle : min ≤ max) {l : FilesLabel}
    (hok : s.Undisturbed min max l) (hs : s.step min max l = some s') : Inv min max s' := by
  cases l with (simp only [FilesState.step] at hs; split at hs <;> try cases hs)
  | copyFiles => exact ⟨h.lock, h.fresh, h.isOpen, h.closed, trivial⟩
  | select =>
    rename_i hcall
    obtain ⟨rfl, hspans⟩ := hok _ (by rw [hcall]; rfl)
    exact h.select hle hspans
  | lockRange =>
    rename_i hcall
    obtain ⟨w, hw, rfl⟩ := Option.map_eq_some_iff.mp hs
    exact h.lockRange hcall rfl hw
  | lock l =>
    rename_i hl
    obtain ⟨w, hw, rfl⟩ := Option.map_eq_some_iff.mp hs
    exact h.lockStep hl hok hw
  | locked =>
    rename_i hcall hr
    exact h.locked hcall hr
  | copyFilesAfterLock =>
    rename_i hcall
    exact h.copyFilesAfterLock hcall
  | compare =>
    rename_i hcall
    split at hs
    · rename_i hequal
      cases hs
      obtain ⟨hlen, hall⟩ := Bool.and_eq_true_iff.mp hequal
      refine h.returned hle hcall ?_
      by_contra hne
      rcases hok (_, _) (by rw [hcall]; rfl) hne with hlen' | ⟨p, hp, hmin, hmax⟩
      · exact hlen' (of_decide_eq_true hlen)
      · have := all_eq_true.mp hall p hp
        simp [hmin, hmax] at this
    · obtain ⟨w, hw, rfl⟩ := Option.map_eq_some_iff.mp hs
      exact ⟨h.lock.step (by exact trivial) hw, h.fresh, h.isOpen, h.closed, trivial⟩
  | swap c removed added =>
    rename_i p hc
    split_ifs at hs with hin
    cases hs
    exact h.swapFiles hc hin.1 hin.2
  | close id =>
    rename_i hid
    refine ⟨h.lock, h.fresh, ?_, ?_, callInv_of_frame h.call rfl le_rfl (fun f hf _ => hf)
      (fun _ _ _ f hf _ _ => hf) (fun _ _ hr => hr) (fun _ _ hr => hr)⟩
    · intro f hf hmem
      rcases mem_cons.mp hmem with heq | hmem
      · exact hid.2 f hf heq
      · exact h.isOpen f hf hmem
    · intro i hi
      rcases mem_cons.mp hi with rfl | hi
      · exact hid.1
      · exact h.closed i hi

theorem Begins.inv (h : s.Begins) : Inv min max s := by
  refine ⟨h.lock ▸ WriteLock.inv_init, h.fresh, h.isOpen, h.closed, ?_⟩
  unfold CallInv
  rw [h.call]
  trivial

/-- **`filesAndLock` covers what it returns** in every run whose steps are undisturbed. -/
theorem covered_of_undisturbed {min max : Int64} (hle : min ≤ max) {s : FilesState}
    (h : (system min max).Reaches (Undisturbed min max) s) : s.Covered min max := by
  have hinv : Inv min max s :=
    h.invariant (fun _ hs => Begins.inv hs) (fun _ _ _ hinv hok hs => hinv.step hle hok hs)
  have hcall := hinv.call
  unfold Covered
  unfold CallInv at hcall
  split
  · rename_i hc
    rw [hc] at hcall
    have := hcall.2
    unfold Covered at this
    rwa [hc] at this
  · trivial

def begin (files : List FileHandle) : FilesState := ⟨.init, files, [], files.length, .start⟩

/-- Another client adds a file, and the call waits for it. -/
def waits : List FilesLabel :=
  [.lock (.call 1 400 500), .lock (.currentlyLockedRanges 1), .lock (.recheck 1), .swap 1 [] [⟨(400, 500), by decide⟩],
    .copyFiles, .select, .lockRange, .lock (.currentlyLockedRanges 0), .lock (.sleep 0), .lock (.unlockRange 1),
    .lock (.acquire 0), .lock (.release 0), .lock (.recheck 0), .locked, .copyFilesAfterLock, .compare]

theorem covered_waits : (10 : Int64) ≤ 250 ∧ ∃ s, (system 10 250).Reaches (Undisturbed 10 250) s ∧
    s.call = .returned [⟨0, 0, 100, by decide⟩, ⟨1, 200, 300, by decide⟩, ⟨2, 400, 500, by decide⟩] 0 500 ∧
      s.Covered 10 250 := by
  have hrun : (System.runIf (Undisturbed 10 250) (step 10 250)
      (begin [⟨0, 0, 100, by decide⟩, ⟨1, 200, 300, by decide⟩]) waits).any (fun s => s.call =
        .returned [⟨0, 0, 100, by decide⟩, ⟨1, 200, 300, by decide⟩, ⟨2, 400, 500, by decide⟩] 0 500) = true := by
    decide +kernel
  obtain ⟨s, hreach, hs⟩ := System.Reaches.exists_of_runIf Begins
    ⟨rfl, by decide, by decide, by decide, rfl⟩ (Undisturbed 10 250) (step 10 250) waits hrun
  exact ⟨by decide, s, hreach, of_decide_eq_true hs, covered_of_undisturbed (by decide) hreach⟩

/-- A call for a range that begins before the first file. -/
def early : List FilesLabel :=
  [.copyFiles, .select, .lockRange, .lock (.currentlyLockedRanges 0), .lock (.recheck 0), .locked,
    .copyFilesAfterLock, .compare]

/-- Another client rewrites the file while the call waits for it; the new file has the same times. -/
def rewritten : List FilesLabel :=
  [.lock (.call 1 0 100), .lock (.currentlyLockedRanges 1), .lock (.recheck 1), .copyFiles, .select, .lockRange,
    .lock (.currentlyLockedRanges 0), .swap 1 [0] [⟨(0, 100), by decide⟩], .lock (.unlockRange 1),
    .lock (.acquire 0), .lock (.release 0), .lock (.recheck 0), .locked, .copyFilesAfterLock, .compare]

/-- The range is not locked from `min` on, and a file is returned that is not in the list any more. -/
theorem not_covered : (∃ s, (system 10 150).Reachable s ∧ ¬ s.Covered 10 150) ∧
    ∃ s, (system 10 20).Reachable s ∧ ¬ s.Covered 10 20 := by
  have hearly : (System.runIf (fun _ _ => True) (step 10 150) (begin [⟨0, 100, 200, by decide⟩]) early).any
      (fun s => s.call = .returned [⟨0, 100, 200, by decide⟩] 100 200) = true := by decide +kernel
  have hrewritten : (System.runIf (fun _ _ => True) (step 10 20) (begin [⟨0, 0, 100, by decide⟩]) rewritten).any
      (fun s => s.call = .returned [⟨0, 0, 100, by decide⟩] 0 100 ∧ s.files = [⟨1, 0, 100, by decide⟩]) = true := by
    decide +kernel
  constructor
  · obtain ⟨s, hreach, hs⟩ := System.Reaches.exists_of_runIf Begins
      ⟨rfl, by decide, by decide, by decide, rfl⟩ (fun _ _ => True) (step 10 150) early hearly
    refine ⟨s, hreach, fun h => ?_⟩
    rw [Covered, of_decide_eq_true hs] at h
    exact absurd h.1.1 (by decide)
  · obtain ⟨s, hreach, hs⟩ := System.Reaches.exists_of_runIf Begins
      ⟨rfl, by decide, by decide, by decide, rfl⟩ (fun _ _ => True) (step 10 20) rewritten hrewritten
    obtain ⟨hcall, hfiles⟩ := of_decide_eq_true hs
    refine ⟨s, hreach, fun h => ?_⟩
    rw [Covered, hcall] at h
    have hmem := (h.2 _ mem_cons_self).1
    rw [hfiles] at hmem
    exact absurd hmem (by decide)

end FilesState

end AndyEnv.Tsm1
