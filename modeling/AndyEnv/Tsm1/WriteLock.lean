import AndyEnv.Lib.Run
import Mathlib.Logic.Function.Basic

/-!
# The range write lock

`LockRange` copies the list of locked ranges, waits for each of them that
overlaps its own range by taking and giving back that range's mutex, and then
compares the copy with the list once more under the main lock. The comparison
is `reflect.DeepEqual`: it follows the pointers, so two range locks are equal
if they have the same bounds and the same mutex state.

The steps of any number of clients interleave. What runs under the main lock
is one step; taking and giving back the mutex of a range are two.
-/

namespace AndyEnv.Tsm1

open List Function

/-- The state of a `sync.Mutex`: whether it is locked and how many sleep on it. -/
structure Mutex where
  locked : Bool
  waiters : ℕ
  deriving DecidableEq, Repr

structure RangeLock where
  mu : Mutex
  min : Int64
  max : Int64
  deriving DecidableEq, Repr

namespace RangeLock

def overlaps (r l : RangeLock) : Bool :=
  if l.min ≥ r.min ∧ l.min ≤ r.max then true
  else if l.max ≥ r.min ∧ l.max ≤ r.max then true
  else if l.min ≤ r.min ∧ l.max ≥ r.max then true
  else if l.min ≥ r.min ∧ l.max ≤ r.max then true
  else false

def Contains (r : RangeLock) (t : Int64) : Prop := r.min ≤ t ∧ t ≤ r.max

def sameBounds (r : RangeLock) (min max : Int64) : Bool := r.min == min && r.max == max

variable {r l : RangeLock}

theorem overlaps_of_contains {t : Int64} (hr : r.Contains t) (hl : l.Contains t) :
    r.overlaps l = true := by
  simp only [Contains, Int64.le_iff_toInt_le] at hr hl
  unfold overlaps
  simp only [ge_iff_le, Int64.le_iff_toInt_le]
  split_ifs <;> first | rfl | omega

theorem overlaps_of_sameBounds (h : r.sameBounds l.min l.max = true) : r.overlaps l = true := by
  obtain ⟨hmin, hmax⟩ := Bool.and_eq_true_iff.mp h
  rw [beq_iff_eq] at hmin hmax
  unfold overlaps
  simp only [hmin, hmax, ge_iff_le, Int64.le_refl, and_self, if_true]
  split_ifs <;> rfl

theorem overlaps_congr {r' l' : RangeLock} (hr : r'.min = r.min ∧ r'.max = r.max)
    (hl : l'.min = l.min ∧ l'.max = l.max) : r'.overlaps l' = r.overlaps l := by
  unfold overlaps
  rw [hr.1, hr.2, hl.1, hl.2]

end RangeLock

/-! ## The clients -/

/-- Where a client stands. A range lock is named by its address; `todo` are the
ranges of the copy that the loop has not looked at. -/
inductive LockClient where
  | idle
  | start (r : ℕ)
  | waiting (r : ℕ) (ranges todo : List ℕ) (asleep : Bool)
  | inside (r : ℕ) (ranges : List ℕ) (rr : ℕ) (todo : List ℕ)
  | holds (r : ℕ)
  deriving DecidableEq, Repr

namespace LockClient

def own : LockClient → Option ℕ
  | idle => none
  | start r | waiting r _ _ _ | inside r _ _ _ | holds r => some r

def copied : LockClient → List ℕ
  | waiting _ ranges _ _ | inside _ ranges _ _ => ranges
  | _ => []

/-- The part of the copy that is still to be looked at. -/
def left : LockClient → List ℕ
  | waiting _ _ todo _ | inside _ _ _ todo => todo
  | _ => []

/-- The range whose mutex the client has taken to see that it is free. -/
def entered : LockClient → Option ℕ
  | inside _ _ rr _ => some rr
  | _ => none

end LockClient

/-- The range locks by address (`next` is the first address not in use), the
list of the locked ones, and the clients. -/
structure WriteLock where
  heap : ℕ → RangeLock
  next : ℕ
  ranges : List ℕ
  clients : ℕ → LockClient

inductive LockLabel where
  | call (c : ℕ) (min max : Int64)
  | currentlyLockedRanges (c : ℕ)
  | skip (c : ℕ)
  | sleep (c : ℕ)
  | acquire (c : ℕ)
  | release (c : ℕ)
  | recheck (c : ℕ)
  | unlockRange (c : ℕ)

def LockLabel.client : LockLabel → ℕ
  | call c _ _ | currentlyLockedRanges c | skip c | sleep c | acquire c | release c | recheck c | unlockRange c => c

def LockLabel.inLockRange : LockLabel → Bool
  | call .. | unlockRange _ => false
  | _ => true

namespace WriteLock

def init : WriteLock := ⟨fun _ => ⟨⟨false, 0⟩, 0, 0⟩, 0, [], fun _ => .idle⟩

def move (w : WriteLock) (c : ℕ) (k : LockClient) : WriteLock :=
  { w with clients := update w.clients c k }

def setMu (w : WriteLock) (p : ℕ) (mu : Mutex) : WriteLock :=
  { w with heap := update w.heap p { w.heap p with mu := mu } }

theorem setMu_bounds (w : WriteLock) (rr : ℕ) (mu : Mutex) (p : ℕ) :
    ((w.setMu rr mu).heap p).min = (w.heap p).min ∧ ((w.setMu rr mu).heap p).max = (w.heap p).max := by
  show (update w.heap rr _ p).min = _ ∧ (update w.heap rr _ p).max = _
  by_cases hp : p = rr
  · rw [hp, update_self]
    exact ⟨rfl, rfl⟩
  · rw [update_of_ne hp]
    exact ⟨rfl, rfl⟩

/-- `reflect.DeepEqual` of two slices of pointers. -/
def deepEqual (w : WriteLock) (a b : List ℕ) : Bool := decide (a.map w.heap = b.map w.heap)

def unlockRange (w : WriteLock) (min max : Int64) : WriteLock :=
  { w with
    heap := fun p =>
      if p ∈ w.ranges ∧ (w.heap p).sameBounds min max = true then
        { w.heap p with mu := { (w.heap p).mu with locked := false } }
      else w.heap p
    ranges := w.ranges.filter (fun p => !(w.heap p).sameBounds min max) }

theorem unlockRange_bounds (w : WriteLock) (min max : Int64) (p : ℕ) :
    ((w.unlockRange min max).heap p).min = (w.heap p).min ∧
      ((w.unlockRange min max).heap p).max = (w.heap p).max := by
  unfold unlockRange
  dsimp only
  split
  · exact ⟨rfl, rfl⟩
  · exact ⟨rfl, rfl⟩

/-- The end of an iteration of `LockRange`, under the main lock. -/
def recheck (w : WriteLock) (c r : ℕ) (ranges : List ℕ) : WriteLock :=
  if w.ranges = [] ∨ w.deepEqual ranges w.ranges = true then
    let w := w.setMu r { (w.heap r).mu with locked := true }
    { w with ranges := w.ranges ++ [r] }.move c (.holds r)
  else w.move c (.start r)

def step (w : WriteLock) : LockLabel → Option WriteLock
  | .call c min max =>
    match w.clients c with
    | .idle =>
      some ({ w with heap := update w.heap w.next ⟨⟨false, 0⟩, min, max⟩,
                     next := w.next + 1 }.move c (.start w.next))
    | _ => none
  | .currentlyLockedRanges c =>
    match w.clients c with
    | .start r => some (w.move c (.waiting r w.ranges w.ranges false))
    | _ => none
  | .skip c =>
    match w.clients c with
    | .waiting r ranges (rr :: todo) _ =>
      if (w.heap rr).overlaps (w.heap r) then none
      else some (w.move c (.waiting r ranges todo false))
    | _ => none
  | .sleep c =>
    match w.clients c with
    | .waiting r ranges (rr :: todo) false =>
      if (w.heap rr).overlaps (w.heap r) ∧ (w.heap rr).mu.locked = true then
        some ((w.setMu rr { (w.heap rr).mu with waiters := (w.heap rr).mu.waiters + 1 }).move c
          (.waiting r ranges (rr :: todo) true))
      else none
    | _ => none
  | .acquire c =>
    match w.clients c with
    | .waiting r ranges (rr :: todo) asleep =>
      if (w.heap rr).overlaps (w.heap r) ∧ (w.heap rr).mu.locked = false then
        some ((w.setMu rr ⟨true, (w.heap rr).mu.waiters - if asleep then 1 else 0⟩).move c
          (.inside r ranges rr todo))
      else none
    | _ => none
  | .release c =>
    match w.clients c with
    | .inside r ranges rr todo =>
      some ((w.setMu rr { (w.heap rr).mu with locked := false }).move c (.waiting r ranges todo false))
    | _ => none
  | .recheck c =>
    match w.clients c with
    | .waiting r ranges [] _ => some (w.recheck c r ranges)
    | _ => none
  | .unlockRange c =>
    match w.clients c with
    | .holds r => some ((w.unlockRange (w.heap r).min (w.heap r).max).move c .idle)
    | _ => none

def system : System WriteLock LockLabel := ⟨fun w => w = init, fun w l w' => w.step l = some w'⟩

/-! ## What a step leaves as it is -/

/-- What a step leaves as it is: the other clients, the bounds of the range
locks and, in the loop of `LockRange`, the client's own range lock. -/
structure Frame (w : WriteLock) (l : LockLabel) (w' : WriteLock) : Prop where
  clients : ∀ d, d ≠ l.client → w'.clients d = w.clients d
  bounds : ∀ p, p < w.next → (w'.heap p).min = (w.heap p).min ∧ (w'.heap p).max = (w.heap p).max
  own : l.inLockRange = true → (w'.clients l.client).own = (w.clients l.client).own

variable {w w' : WriteLock} {l : LockLabel}

theorem frame_move {heap : ℕ → RangeLock} {next : ℕ} {ranges : List ℕ} {k : LockClient}
    (h : ∀ p, p < w.next → (heap p).min = (w.heap p).min ∧ (heap p).max = (w.heap p).max)
    (hk : l.inLockRange = true → k.own = (w.clients l.client).own) :
    Frame w l ((⟨heap, next, ranges, w.clients⟩ : WriteLock).move l.client k) where
  clients _ hd := update_of_ne hd _ _
  bounds := h
  own hl := (congrArg LockClient.own (update_self _ _ _)).trans (hk hl)

inductive Steps (w : WriteLock) : LockLabel → WriteLock → Prop
  | call {c : ℕ} {min max : Int64} : w.clients c = .idle →
      Steps w (.call c min max) ({ w with heap := update w.heap w.next ⟨⟨false, 0⟩, min, max⟩,
                                          next := w.next + 1 }.move c (.start w.next))
  | currentlyLockedRanges {c r : ℕ} : w.clients c = .start r →
      Steps w (.currentlyLockedRanges c) (w.move c (.waiting r w.ranges w.ranges false))
  | skip {c r rr : ℕ} {ranges todo : List ℕ} {asleep : Bool} :
      w.clients c = .waiting r ranges (rr :: todo) asleep → (w.heap rr).overlaps (w.heap r) = false →
      Steps w (.skip c) (w.move c (.waiting r ranges todo false))
  | sleep {c r rr n : ℕ} {ranges todo : List ℕ} : w.clients c = .waiting r ranges (rr :: todo) false →
      Steps w (.sleep c) ((w.setMu rr { (w.heap rr).mu with waiters := n }).move c
        (.waiting r ranges (rr :: todo) true))
  | acquire {c r rr : ℕ} {ranges todo : List ℕ} {asleep : Bool} {mu : Mutex} :
      w.clients c = .waiting r ranges (rr :: todo) asleep → (w.heap rr).mu.locked = false →
      Steps w (.acquire c) ((w.setMu rr mu).move c (.inside r ranges rr todo))
  | release {c r rr : ℕ} {ranges todo : List ℕ} {mu : Mutex} : w.clients c = .inside r ranges rr todo →
      Steps w (.release c) ((w.setMu rr mu).move c (.waiting r ranges todo false))
  | recheck {c r : ℕ} {ranges : List ℕ} {asleep : Bool} : w.clients c = .waiting r ranges [] asleep →
      Steps w (.recheck c) (w.recheck c r ranges)
  | unlockRange {c r : ℕ} : w.clients c = .holds r →
      Steps w (.unlockRange c) ((w.unlockRange (w.heap r).min (w.heap r).max).move c .idle)

theorem Steps.of_step (hs : w.step l = some w') : Steps w l w' := by
  cases l with (simp only [step] at hs; split at hs <;> try cases hs)
  | call c min max => exact .call ‹_›
  | currentlyLockedRanges c => exact .currentlyLockedRanges ‹_›
  | skip c =>
    split_ifs at hs with hover
    cases hs
    exact .skip ‹_› (Bool.eq_false_iff.mpr hover)
  | sleep c =>
    split_ifs at hs
    cases hs
    exact .sleep ‹_›
  | acquire c =>
    rename_i hc
    split at hs
    · rename_i hfree
      cases hs
      exact .acquire hc hfree.2
    · cases hs
  | release c => exact .release ‹_›
  | recheck c => exact .recheck ‹_›
  | unlockRange c => exact .unlockRange ‹_›

theorem frame_step (hs : w.step l = some w') : Frame w l w' := by
  have hkept : ∀ {c : ℕ} {k k' : LockClient}, w.clients c = k → k'.own = k.own → k'.own = (w.clients c).own :=
    fun hc hk => hk.trans (congrArg LockClient.own hc).symm
  cases Steps.of_step hs with
  | call hc =>
    refine frame_move (fun p hp => ?_) (fun h => (nomatch h))
    rw [update_of_ne hp.ne]
    exact ⟨rfl, rfl⟩
  | currentlyLockedRanges hc | skip hc => exact frame_move (fun _ _ => ⟨rfl, rfl⟩) (fun _ => hkept hc rfl)
  | sleep hc | acquire hc | release hc => exact frame_move (fun p _ => w.setMu_bounds _ _ p) (fun _ => hkept hc rfl)
  | recheck hc =>
    unfold recheck
    split
    · exact frame_move (fun p _ => w.setMu_bounds _ _ p) (fun _ => hkept hc rfl)
    · exact frame_move (fun _ _ => ⟨rfl, rfl⟩) (fun _ => hkept hc rfl)
  | unlockRange hc => exact frame_move (fun p _ => w.unlockRange_bounds _ _ p) (fun h => (nomatch h))

/-- A client that holds its range is out of `LockRange`. -/
theorem step_of_holds {r : ℕ} (hc : w.clients l.client = .holds r)
    (hl : l.inLockRange = true) : w.step l = none := by
  cases l with
  | call | unlockRange => cases hl
  | _ =>
    simp only [LockLabel.client] at hc
    simp only [step, hc]

/-- No two clients hold ranges with a common time. -/
def Exclusive (w : WriteLock) : Prop :=
  ∀ c d p q, c ≠ d → w.clients c = .holds p → w.clients d = .holds q →
    ¬ ∃ t, (w.heap p).Contains t ∧ (w.heap q).Contains t

/-- The condition on a step: when a client looks at the list again, no other
client stands between taking and giving back the mutex of a range that the
client has waited for, that is, the mutex of such a range is free. -/
def WaitedFree (w : WriteLock) : LockLabel → Prop
  | .recheck c => ∀ r ∈ (w.clients c).own, ∀ p ∈ (w.clients c).copied,
      (w.heap p).overlaps (w.heap r) = true → p ∉ w.ranges → (w.heap p).mu.locked = false
  | _ => True

instance (w : WriteLock) : ∀ l, Decidable (w.WaitedFree l)
  | .recheck c =>
    match h : (w.clients c).own with
    | none => isTrue (fun r hr => by rw [h] at hr; cases hr)
    | some r =>
      decidable_of_iff (∀ p ∈ (w.clients c).copied, (w.heap p).overlaps (w.heap r) = true → p ∉ w.ranges →
        (w.heap p).mu.locked = false) (by simp [WaitedFree, h])
  | .call .. | .currentlyLockedRanges _ | .skip _ | .sleep _ | .acquire _ | .release _ | .unlockRange _ =>
    isTrue trivial

/-! ## The invariant -/

structure Inv (w : WriteLock) : Prop where
  owned : ∀ c, ∀ p ∈ (w.clients c).own, p < w.next
  distinct : ∀ c d, ∀ p ∈ (w.clients c).own, p ∈ (w.clients d).own → c = d
  held : ∀ p, p ∈ w.ranges ↔ ∃ c, w.clients c = .holds p
  locked : ∀ p ∈ w.ranges, (w.heap p).mu.locked = true
  /-- A range of a copy is still locked, or it is given back for good. -/
  copied : ∀ c, ∀ p ∈ (w.clients c).copied, p ∈ w.ranges ∨ (p < w.next ∧ ∀ d, p ∉ (w.clients d).own)
  waited : ∀ c, ∀ r ∈ (w.clients c).own, ∀ p ∈ (w.clients c).copied,
    p ∈ (w.clients c).left ∨ (w.heap p).overlaps (w.heap r) = false ∨ p ∉ w.ranges
  left : ∀ c, ∀ p ∈ (w.clients c).left, p ∈ (w.clients c).copied
  entered : ∀ c, ∀ p ∈ (w.clients c).entered, p ∈ (w.clients c).copied ∧ p ∉ w.ranges
  apart : ∀ p ∈ w.ranges, ∀ q ∈ w.ranges, p ≠ q →
    (w.heap p).overlaps (w.heap q) = false ∨ (w.heap q).overlaps (w.heap p) = false

/-- Client `c` may move to `k`: it keeps its range lock or has a new one, and its copy
and what is left of it stay as the invariant has them. -/
structure Follows (w : WriteLock) (heap : ℕ → RangeLock) (next c : ℕ) (k : LockClient) : Prop where
  next_le : w.next ≤ next
  bounds : ∀ p, p < w.next → (heap p).min = (w.heap p).min ∧ (heap p).max = (w.heap p).max
  own : ∀ p ∈ k.own, p ∈ (w.clients c).own ∨ (w.next ≤ p ∧ p < next ∧ k = .start p)
  copied : ∀ p ∈ k.copied, p ∈ w.ranges ∨ p ∈ (w.clients c).copied
  waited : ∀ r ∈ k.own, ∀ p ∈ k.copied, p ∈ k.left ∨ (w.heap p).overlaps (w.heap r) = false ∨ p ∉ w.ranges
  left : ∀ p ∈ k.left, p ∈ k.copied
  entered : ∀ p ∈ k.entered, p ∈ k.copied ∧ p ∉ w.ranges

theorem inv_init : Inv init where
  owned _ _ hp := by cases hp
  distinct _ _ _ hp := by cases hp
  held p := ⟨fun hp => (nomatch hp), fun ⟨_, hc⟩ => (nomatch hc)⟩
  locked _ hp := by cases hp
  copied _ _ hp := by cases hp
  waited _ _ hp := by cases hp
  left _ _ hp := by cases hp
  entered _ _ hp := by cases hp
  apart _ hp := by cases hp

namespace Inv

variable {w : WriteLock}

theorem lt_next (h : Inv w) {p : ℕ} (hp : p ∈ w.ranges) : p < w.next := by
  obtain ⟨c, hc⟩ := (h.held p).mp hp
  exact h.owned c p (by rw [hc]; rfl)

theorem eq_of_sameBounds (h : Inv w) {p q : ℕ} (hp : p ∈ w.ranges) (hq : q ∈ w.ranges)
    (hbounds : (w.heap p).sameBounds (w.heap q).min (w.heap q).max = true) : p = q := by
  by_contra hne
  have hsym : (w.heap q).sameBounds (w.heap p).min (w.heap p).max = true := by
    simp only [RangeLock.sameBounds, Bool.and_eq_true, beq_iff_eq] at hbounds ⊢
    exact ⟨hbounds.1.symm, hbounds.2.symm⟩
  rcases h.apart p hp q hq hne with hpq | hqp
  · rw [RangeLock.overlaps_of_sameBounds hbounds] at hpq
    cases hpq
  · rw [RangeLock.overlaps_of_sameBounds hsym] at hqp
    cases hqp

theorem exclusive (h : Inv w) : w.Exclusive := by
  rintro c d p q hne hc hd ⟨t, hp, hq⟩
  have hpq : p ≠ q := by
    rintro rfl
    exact hne (h.distinct c d p (by rw [hc]; rfl) (by rw [hd]; rfl))
  rcases h.apart p ((h.held p).mpr ⟨c, hc⟩) q ((h.held q).mpr ⟨d, hd⟩) hpq with ho | ho
  · rw [RangeLock.overlaps_of_contains hp hq] at ho
    cases ho
  · rw [RangeLock.overlaps_of_contains hq hp] at ho
    cases ho

variable {asleep : Bool} {ranges todo : List ℕ} {c r rr next : ℕ} {heap : ℕ → RangeLock} {k : LockClient}
  {mu : Mutex}

section

variable (h : Inv w)
include h

/-- **One client moves on.** What the invariant says of the other clients stays
true, whatever happens to the list and to the mutexes, if their own ranges are
in the list as before. -/
theorem moves (hk : Follows w heap next c k) (hfree : ∀ p, w.clients c = .holds p → p ∉ k.own)
    (hheld : ∀ p, p ∈ ranges ↔ k = .holds p ∨ ∃ d, d ≠ c ∧ w.clients d = .holds p)
    (hlocked : ∀ p ∈ ranges, (heap p).mu.locked = true)
    (hapart : ∀ p ∈ ranges, ∀ q ∈ ranges, p ≠ q → (w.heap p).overlaps (w.heap q) = false ∨ (w.heap q).overlaps (w.heap p) = false) :
    Inv ((⟨heap, next, ranges, w.clients⟩ : WriteLock).move c k) := by
  obtain ⟨hnext, hbounds, hown, hcopied, hwaited, hleft, hentered⟩ := hk
  have hover : ∀ p q, p < w.next → q < w.next →
      (heap p).overlaps (heap q) = (w.heap p).overlaps (w.heap q) :=
    fun p q hp hq => RangeLock.overlaps_congr (hbounds p hp) (hbounds q hq)
  have hlt : ∀ p ∈ ranges, p < w.next := by
    intro p hp
    rcases (hheld p).mp hp with rfl | ⟨d, -, hd⟩
    · rcases hown p rfl with hp | ⟨-, -, hk⟩
      · exact h.owned c p hp
      · cases hk
    · exact h.owned d p (by rw [hd]; rfl)
  -- the client's range is no other client's
  have hother : ∀ d, d ≠ c → ∀ p ∈ k.own, p ∉ (w.clients d).own := by
    intro d hd p hp hpd
    rcases hown p hp with hpc | ⟨hp, -⟩
    · exact hd (h.distinct d c p hpd hpc)
    · exact absurd (h.owned d p hpd) (not_lt.mpr hp)
  -- a range of a copy: it stays in the list or it is gone, and what is gone does not come back
  have hstays : ∀ d, ∀ p ∈ (w.clients d).copied, p ∉ w.ranges → p ∉ ranges := by
    intro d p hp hgone hmem
    obtain ⟨-, hnot⟩ := (h.copied d p hp).resolve_left hgone
    rcases (hheld p).mp hmem with rfl | ⟨e, -, he⟩
    · rcases hown p rfl with hp | ⟨-, -, hk⟩
      · exact hnot c hp
      · cases hk
    · exact hgone ((h.held p).mpr ⟨e, he⟩)
  have hgone : ∀ p, (∀ d, d ≠ c → p ∉ (w.clients d).own) → p ∉ k.own →
      ∀ d, p ∉ (update w.clients c k d).own := fun p hothers hk =>
    (forall_update_iff w.clients (fun _ k => p ∉ k.own)).mpr ⟨hk, hothers⟩
  have hcopy : ∀ p, p ∈ w.ranges ∨ (p < w.next ∧ ∀ d, p ∉ (w.clients d).own) →
      p ∈ ranges ∨ (p < next ∧ ∀ d, p ∉ (update w.clients c k d).own) := by
    rintro p (hp | ⟨hp, hnot⟩)
    · obtain ⟨d, hd⟩ := (h.held p).mp hp
      by_cases hdc : d = c
      · subst hdc
        refine .inr ⟨(h.lt_next hp).trans_le hnext, hgone p (fun e he hpe => ?_) (hfree p hd)⟩
        exact he (h.distinct e d p hpe (by rw [hd]; rfl))
      · exact .inl ((hheld p).mpr (.inr ⟨d, hdc, hd⟩))
    · refine .inr ⟨hp.trans_le hnext, hgone p (fun d _ => hnot d) (fun hk => ?_)⟩
      rcases hown p hk with hk | ⟨hk, -⟩
      · exact hnot c hk
      · exact absurd hp (not_lt.mpr hk)
  have hkcopied : ∀ p ∈ k.copied, p ∈ w.ranges ∨ (p < w.next ∧ ∀ d, p ∉ (w.clients d).own) :=
    fun p hp => (hcopied p hp).elim .inl (h.copied c p)
  have hkstays : ∀ p ∈ k.copied, p ∉ w.ranges → p ∉ ranges := fun p hp hnot =>
    hstays c p ((hcopied p hp).resolve_left hnot) hnot
  refine ⟨?_, ?_, ?_, hlocked, ?_, ?_, ?_, ?_, ?_⟩
  · refine (forall_update_iff w.clients (fun _ k => ∀ p ∈ k.own, p < next)).mpr ⟨fun p hp => ?_, ?_⟩
    · exact (hown p hp).elim (fun hp => (h.owned c p hp).trans_le hnext) (fun hp => hp.2.1)
    · exact fun d _ p hp => (h.owned d p hp).trans_le hnext
  · intro d e p hd he
    change p ∈ (update w.clients c k d).own at hd
    change p ∈ (update w.clients c k e).own at he
    by_cases hdc : d = c <;> by_cases hec : e = c
    · rw [hdc, hec]
    · rw [hdc, update_self] at hd
      rw [update_of_ne hec] at he
      exact absurd he (hother e hec p hd)
    · rw [hec, update_self] at he
      rw [update_of_ne hdc] at hd
      exact absurd hd (hother d hdc p he)
    · rw [update_of_ne hdc] at hd
      rw [update_of_ne hec] at he
      exact h.distinct d e p hd he
  · intro p
    exact (hheld p).trans (exists_update_iff w.clients (fun _ k => k = .holds p)).symm
  · exact (forall_update_iff w.clients (fun _ k' => ∀ p ∈ k'.copied, p ∈ ranges ∨
      (p < next ∧ ∀ d, p ∉ (update w.clients c k d).own))).mpr
      ⟨fun p hp => hcopy p (hkcopied p hp), fun d _ p hp => hcopy p (h.copied d p hp)⟩
  · refine (forall_update_iff w.clients (fun _ k => ∀ r ∈ k.own, ∀ p ∈ k.copied,
      p ∈ k.left ∨ (heap p).overlaps (heap r) = false ∨ p ∉ ranges)).mpr
      ⟨fun r hr p hp => ?_, fun d _ r hr p hp => ?_⟩
    · rcases hown r hr with hrc | ⟨-, -, hk⟩
      · have hplt := (hkcopied p hp).elim h.lt_next And.left
        rw [hover p r hplt (h.owned c r hrc)]
        exact (hwaited r hr p hp).imp_right (Or.imp_right (hkstays p hp))
      · rw [hk] at hp
        cases hp
    · rw [hover p r ((h.copied d p hp).elim h.lt_next And.left) (h.owned d r hr)]
      exact (h.waited d r hr p hp).imp_right (Or.imp_right (hstays d p hp))
  · exact (forall_update_iff w.clients (fun _ k => ∀ p ∈ k.left, p ∈ k.copied)).mpr
      ⟨hleft, fun d _ => h.left d⟩
  · exact (forall_update_iff w.clients (fun _ k => ∀ p ∈ k.entered, p ∈ k.copied ∧ p ∉ ranges)).mpr
      ⟨fun p hp => ⟨(hentered p hp).1, hkstays p (hentered p hp).1 (hentered p hp).2⟩,
        fun d _ p hp => ⟨(h.entered d p hp).1, hstays d p (h.entered d p hp).1 (h.entered d p hp).2⟩⟩
  · intro p hp q hq hne
    show (heap p).overlaps (heap q) = false ∨ (heap q).overlaps (heap p) = false
    rw [hover p q (hlt p hp) (hlt q hq), hover q p (hlt q hq) (hlt p hp)]
    exact hapart p hp q hq hne

/-- A step that takes and gives back no range. -/
theorem quiet (hk : Follows w heap next c k) (hlocked : ∀ p ∈ w.ranges, (heap p).mu.locked = (w.heap p).mu.locked)
    (hbefore : ∀ p, w.clients c ≠ .holds p) (hafter : ∀ p, k ≠ .holds p) :
    Inv ((⟨heap, next, w.ranges, w.clients⟩ : WriteLock).move c k) := by
  refine h.moves hk (fun p hp => absurd hp (hbefore p)) (fun p => ?_)
    (fun p hp => (hlocked p hp).trans (h.locked p hp)) h.apart
  rw [h.held, or_iff_right (hafter p)]
  refine exists_congr (fun d => (and_iff_right_of_imp ?_).symm)
  rintro hd rfl
  exact hbefore p hd

/-- The client goes on in its loop: the mutex of a range that is not locked may change, and
the ranges it does not look at any more do not overlap its own or are not locked. -/
theorem goesOn {k₀ : LockClient} (hc : w.clients c = k₀)
    (hmu : rr ∈ w.ranges → mu.locked = (w.heap rr).mu.locked) (hown : k.own = k₀.own)
    (hbefore : ∀ p, k₀ ≠ .holds p) (hafter : ∀ p, k ≠ .holds p)
    (hcopied : k.copied = k₀.copied) (hleft : ∀ p ∈ k.left, p ∈ k₀.left)
    (hdone : ∀ r ∈ k.own, ∀ p ∈ k₀.left,
      p ∈ k.left ∨ (w.heap p).overlaps (w.heap r) = false ∨ p ∉ w.ranges)
    (hentered : ∀ p ∈ k.entered, p ∈ k₀.copied ∧ p ∉ w.ranges) :
    Inv ((w.setMu rr mu).move c k) := by
  subst hc
  rw [← hcopied] at hentered
  refine h.quiet ⟨le_rfl, fun p _ => w.setMu_bounds rr mu p, fun p hp => .inl (hown ▸ hp),
    fun p hp => .inr (hcopied ▸ hp), fun r hr p hp => ?_, fun p hp => ?_, hentered⟩ ?_ hbefore hafter
  · exact (h.waited c r (hown ▸ hr) p (hcopied ▸ hp)).elim (hdone r hr p) .inr
  · rw [hcopied]
    exact h.left c p (hleft p hp)
  · intro p hp
    by_cases hrr : p = rr
    · rw [hrr, update_self]
      exact hmu (hrr ▸ hp)
    · rw [update_of_ne hrr]

theorem call (hc : w.clients c = .idle) (r : RangeLock) :
    Inv ({ w with heap := update w.heap w.next r, next := w.next + 1 }.move c (.start w.next)) := by
  have hheap : ∀ p, p < w.next → update w.heap w.next r p = w.heap p :=
    fun p hp => update_of_ne hp.ne _ _
  refine h.quiet ⟨Nat.le_succ _, fun p hp => by rw [hheap p hp]; exact ⟨rfl, rfl⟩, fun p hp => ?_,
    fun _ hp => (nomatch hp), fun _ _ _ hp => (nomatch hp), fun _ hp => (nomatch hp), fun _ hp => (nomatch hp)⟩
    (fun p hp => by rw [hheap p (h.lt_next hp)]) (by simp [hc]) (by simp)
  cases hp
  exact .inr ⟨le_rfl, Nat.lt_succ_self _, rfl⟩

/-- A client takes its range, which meets none of the locked ones. -/
theorem take (hc : w.clients c = .waiting r ranges [] asleep)
    (hmu : mu.locked = true) (hfree : ∀ q ∈ w.ranges, (w.heap q).overlaps (w.heap r) = false) :
    Inv ({ w.setMu r mu with ranges := w.ranges ++ [r] }.move c (.holds r)) := by
  have hown : r ∈ (w.clients c).own := by rw [hc]; rfl
  have hholds : ∀ d p, w.clients d = .holds p → d ≠ c := by
    rintro d p hd rfl
    rw [hc] at hd
    cases hd
  have hnot : r ∉ w.ranges := by
    intro hr
    obtain ⟨d, hd⟩ := (h.held r).mp hr
    exact hholds d r hd (h.distinct d c r (by rw [hd]; rfl) hown)
  refine h.moves ⟨le_rfl, fun p _ => w.setMu_bounds r mu p, fun p hp => .inl ?_, fun _ hp => (nomatch hp),
    fun _ _ _ hp => (nomatch hp), fun _ hp => (nomatch hp), fun _ hp => (nomatch hp)⟩
    (fun p hp => absurd rfl (hholds c p hp)) (fun p => ?_) (fun p hp => ?_) (fun p hp q hq hne => ?_)
  · cases hp
    exact hown
  · rw [mem_append, mem_singleton, h.held, or_comm, LockClient.holds.injEq, eq_comm]
    exact or_congr_right (exists_congr (fun d => (and_iff_right_of_imp (hholds d p)).symm))
  · show (update w.heap r { w.heap r with mu := mu } p).mu.locked = true
    rcases mem_append.mp hp with hp | hp
    · rw [update_of_ne (ne_of_mem_of_not_mem hp hnot)]
      exact h.locked p hp
    · rw [mem_singleton.mp hp, update_self]
      exact hmu
  · rcases mem_append.mp hp with hp | hp
    · rcases mem_append.mp hq with hq | hq
      · exact h.apart p hp q hq hne
      · rw [mem_singleton.mp hq]
        exact .inl (hfree p hp)
    · rw [mem_singleton.mp hp] at hne ⊢
      rcases mem_append.mp hq with hq | hq
      · exact .inr (hfree q hq)
      · exact absurd (mem_singleton.mp hq).symm hne

theorem mem_unlockRange (hr : r ∈ w.ranges) (p : ℕ) :
    p ∈ (w.unlockRange (w.heap r).min (w.heap r).max).ranges ↔ p ∈ w.ranges ∧ p ≠ r := by
  show p ∈ w.ranges.filter _ ↔ _
  rw [mem_filter]
  refine and_congr_right (fun hp => ?_)
  rw [Bool.not_eq_true', Bool.eq_false_iff]
  refine not_congr ⟨h.eq_of_sameBounds hp hr, ?_⟩
  rintro rfl
  simp [RangeLock.sameBounds]

theorem unlock (hc : w.clients c = .holds r) :
    Inv ((w.unlockRange (w.heap r).min (w.heap r).max).move c .idle) := by
  have hr : r ∈ w.ranges := (h.held r).mpr ⟨c, hc⟩
  have hmem := h.mem_unlockRange hr
  refine h.moves ⟨le_rfl, fun p _ => w.unlockRange_bounds _ _ p, fun _ hp => (nomatch hp), fun _ hp => (nomatch hp),
    fun _ _ _ hp => (nomatch hp), fun _ hp => (nomatch hp), fun _ hp => (nomatch hp)⟩
    (fun _ _ hp => (nomatch hp)) (fun p => (hmem p).trans ?_) (fun p hp => ?_) (fun p hp q hq => h.apart p ((hmem p).mp hp).1 q ((hmem q).mp hq).1)
  · rw [h.held, or_iff_right (fun hk => nomatch hk)]
    constructor
    · rintro ⟨⟨d, hd⟩, hne⟩
      refine ⟨d, ?_, hd⟩
      rintro rfl
      rw [hc] at hd
      cases hd
      exact hne rfl
    · rintro ⟨d, hdc, hd⟩
      refine ⟨⟨d, hd⟩, ?_⟩
      rintro rfl
      exact hdc (h.distinct d c p (by rw [hd]; rfl) (by rw [hc]; rfl))
  · obtain ⟨hp, hne⟩ := (hmem p).mp hp
    show (if p ∈ w.ranges ∧ (w.heap p).sameBounds (w.heap r).min (w.heap r).max = true then _
      else w.heap p).mu.locked = true
    rw [if_neg (fun hb => hne (h.eq_of_sameBounds hp hr hb.2))]
    exact h.locked p hp

/-- What an accepted comparison says when the mutexes are free. -/
theorem free_of_deepEqual (hc : w.clients c = .waiting r ranges [] asleep)
    (hok : w.WaitedFree (.recheck c)) (heq : w.deepEqual ranges w.ranges = true) :
    ∀ q ∈ w.ranges, (w.heap q).overlaps (w.heap r) = false := by
  intro q hq
  have hmem : w.heap q ∈ ranges.map w.heap := of_decide_eq_true heq ▸ mem_map_of_mem hq
  obtain ⟨p, hp, hpq⟩ := mem_map.mp hmem
  have hown : r ∈ (w.clients c).own := by rw [hc]; rfl
  have hcopied : p ∈ (w.clients c).copied := by rw [hc]; exact hp
  rw [← hpq, ← Bool.not_eq_true]
  intro hover
  rcases h.waited c r hown p hcopied with hleft | hnot | hgone
  · rw [hc] at hleft
    cases hleft
  · rw [hover] at hnot
    cases hnot
  · -- `p` was given back, so its mutex is free, but that of `q` is not
    have hlocked := h.locked q hq
    rw [← hpq, hok r hown p hcopied hover hgone] at hlocked
    cases hlocked

theorem skip (hc : w.clients c = .waiting r ranges (rr :: todo) asleep)
    (hover : (w.heap rr).overlaps (w.heap r) = false) : Inv (w.move c (.waiting r ranges todo false)) := by
  have hsame : w.setMu rr (w.heap rr).mu = w := by
    rw [setMu, update_eq_self]
  rw [← hsame]
  refine h.goesOn hc (fun _ => rfl) rfl (by simp) (by simp) rfl (fun p => mem_cons_of_mem rr) ?_
    (fun _ hp => (nomatch hp))
  rintro _ ⟨⟩ p hp
  rcases mem_cons.mp hp with rfl | hp
  · exact .inr (.inl hover)
  · exact .inl hp

theorem sleep (hc : w.clients c = .waiting r ranges (rr :: todo) false) (n : ℕ) :
    Inv ((w.setMu rr { (w.heap rr).mu with waiters := n }).move c (.waiting r ranges (rr :: todo) true)) :=
  h.goesOn hc (fun _ => rfl) rfl (by simp) (by simp) rfl (fun _ => id) (fun _ _ _ => .inl)
    (fun _ hp => (nomatch hp))

theorem acquire (hc : w.clients c = .waiting r ranges (rr :: todo) asleep)
    (hfree : (w.heap rr).mu.locked = false) (mu : Mutex) : Inv ((w.setMu rr mu).move c (.inside r ranges rr todo)) := by
  have hleft := h.left c rr (by rw [hc]; exact mem_cons_self)
  -- the mutex is free, so the range is not locked any more
  have hgone : rr ∉ w.ranges := by
    intro hrr
    rw [h.locked rr hrr] at hfree
    cases hfree
  refine h.goesOn hc (fun hrr => absurd hrr hgone) rfl (by simp) (by simp) rfl
    (fun p => mem_cons_of_mem rr) ?_ ?_
  · rintro _ - p hp
    rcases mem_cons.mp hp with rfl | hp
    · exact .inr (.inr hgone)
    · exact .inl hp
  · rintro _ ⟨⟩
    exact ⟨hc ▸ hleft, hgone⟩

theorem release (hc : w.clients c = .inside r ranges rr todo)
    (mu : Mutex) : Inv ((w.setMu rr mu).move c (.waiting r ranges todo false)) := by
  have hgone := (h.entered c rr (by rw [hc]; rfl)).2
  exact h.goesOn hc (fun hrr => absurd hrr hgone) rfl (by simp) (by simp) rfl (fun _ => id)
    (fun _ _ _ => .inl) (fun _ hp => (nomatch hp))

theorem recheck (hc : w.clients c = .waiting r ranges [] asleep) (hok : w.WaitedFree (.recheck c)) :
    Inv (w.recheck c r ranges) := by
  unfold WriteLock.recheck
  split
  · rename_i hequal
    refine h.take hc rfl ?_
    rcases hequal with hnil | hequal
    · rw [hnil]
      exact fun q hq => (nomatch hq)
    · exact h.free_of_deepEqual hc hok hequal
  · exact h.quiet ⟨le_rfl, fun _ _ => ⟨rfl, rfl⟩, by rw [hc]; exact fun _ => .inl, fun p hp => (nomatch hp),
      fun _ _ p hp => (nomatch hp), fun _ hp => (nomatch hp), fun _ hp => (nomatch hp)⟩ (fun _ _ => rfl)
      (by simp [hc]) (by simp)

theorem step {l : LockLabel} {w' : WriteLock} (hok : w.WaitedFree l)
    (hs : w.step l = some w') : Inv w' := by
  cases Steps.of_step hs with
  | call hc => exact h.call hc _
  | currentlyLockedRanges hc =>
    exact h.quiet ⟨le_rfl, fun _ _ => ⟨rfl, rfl⟩, by rw [hc]; exact fun _ => .inl, fun p hp => .inl hp,
      fun _ _ p hp => .inl hp, fun _ hp => hp, fun _ hp => (nomatch hp)⟩ (fun _ _ => rfl) (by simp [hc]) (by simp)
  | skip hc hover => exact h.skip hc hover
  | sleep hc => exact h.sleep hc _
  | acquire hc hfree => exact h.acquire hc hfree _
  | release hc => exact h.release hc _
  | recheck hc => exact h.recheck hc hok
  | unlockRange hc => exact h.unlock hc

end

end Inv

/-- **Range locks exclude each other** in every run in which, each time a client
looks at the list again, the mutexes of the ranges it has waited for are free. -/
theorem exclusive_of_waitedFree {w : WriteLock} (h : system.Reaches WaitedFree w) : w.Exclusive :=
  Inv.exclusive (h.invariant (fun _ hw => hw ▸ inv_init) (fun _ _ _ hinv hok hs => hinv.step hok hs))

/-- Client 1 waits for client 0 and has to start again, because client 2 has come in between. -/
def contended : List LockLabel :=
  [.call 0 1 10, .currentlyLockedRanges 0, .recheck 0, .call 1 5 20, .currentlyLockedRanges 1, .sleep 1,
    .call 2 30 40, .currentlyLockedRanges 2, .skip 2, .recheck 2, .unlockRange 0, .acquire 1, .release 1, .recheck 1,
    .currentlyLockedRanges 1, .skip 1, .recheck 1]

theorem exclusive_contended : ∃ w, system.Reaches WaitedFree w ∧
    (w.clients 1 = .holds 1 ∧ w.clients 2 = .holds 2) ∧ w.Exclusive := by
  have hrun : (System.runIf WaitedFree step init contended).any
      (fun w => w.clients 1 = .holds 1 ∧ w.clients 2 = .holds 2) = true := by decide +kernel
  obtain ⟨w, hreach, hw⟩ := System.Reaches.exists_of_runIf (· = init) rfl WaitedFree step contended hrun
  exact ⟨w, hreach, of_decide_eq_true hw, exclusive_of_waitedFree hreach⟩

/-- Client 2 holds the mutex of the range that client 0 gave back, while
client 0 has locked the same range again: client 1 takes the new range lock for the old one. -/
def mistaken : List LockLabel :=
  [.call 0 1 10, .currentlyLockedRanges 0, .recheck 0, .call 1 1 10, .currentlyLockedRanges 1,
    .call 2 1 10, .currentlyLockedRanges 2, .unlockRange 0, .acquire 1, .release 1,
    .call 0 1 10, .currentlyLockedRanges 0, .recheck 0, .acquire 2, .recheck 1]

/-- Two clients hold the range `[1, 10]` at the same time. -/
theorem not_exclusive : ∃ w, system.Reachable w ∧ ¬ w.Exclusive := by
  have hrun : (System.runIf (fun _ _ => True) step init mistaken).any
      (fun w => w.clients 0 = .holds 3 ∧ w.clients 1 = .holds 1 ∧ w.heap 3 = ⟨⟨true, 0⟩, 1, 10⟩ ∧
        w.heap 1 = ⟨⟨true, 0⟩, 1, 10⟩) = true := by decide +kernel
  obtain ⟨w, hreach, hw⟩ := System.Reaches.exists_of_runIf (· = init) rfl (fun _ _ => True) step mistaken hrun
  obtain ⟨h0, h1, h3, hp⟩ := of_decide_eq_true hw
  refine ⟨w, hreach, fun h => h 0 1 3 1 (by decide) h0 h1 ⟨5, ?_⟩⟩
  rw [h3, hp]
  exact ⟨⟨by decide, by decide⟩, by decide, by decide⟩

end WriteLock

end AndyEnv.Tsm1
