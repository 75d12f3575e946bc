import Mathlib

/-!
# Selection of a sorted range

`getSortedRange` discards the lower elements and then the upper ones with quickselect loops, and
sorts what is left.
-/

namespace AndyEnv.Tsdb

open List

variable {α : Type}

/-- `data[low], data[high] = data[high], data[low]` on `data[low:high+1]`, if `low < high`. -/
def swapEnds : List α → List α
  | x :: y :: m => (y :: m).getLast (cons_ne_nil y m) :: (y :: m).dropLast ++ [x]
  | m => m

theorem swapEnds_perm : ∀ mid : List α, swapEnds mid ~ mid
  | [] => Perm.nil
  | [x] => Perm.refl _
  | x :: y :: m => by
    have hlast := dropLast_append_getLast (cons_ne_nil y m)
    exact (perm_append_singleton x _).trans
      (((perm_append_singleton _ _).symm.trans (.of_eq hlast)).cons x)

variable [LinearOrder α] (pivot : α)

/-- What the loop of `partition` has still to do: once the first element is not above the pivot,
each iteration passes over it. -/
def weight : List α → ℕ
  | [] => 0
  | x :: m => if x ≤ pivot then m.length + 1 else m.length + 2

/-- `data[low:high+1]` after an iteration. -/
def narrow (mid : List α) : List α :=
  swapEnds ((mid.dropWhile (· ≤ pivot)).rdropWhile (pivot ≤ ·))

theorem weight_narrow_lt {mid : List α} (hmid : mid ≠ []) :
    weight pivot (narrow pivot mid) < weight pivot mid := by
  have hlast := rdropWhile_last_not (pivot ≤ ·) (mid.dropWhile (· ≤ pivot))
  have hle := ( rdropWhile_prefix (pivot ≤ ·) (l := mid.dropWhile (· ≤ pivot))).length_le
  have hlt : (mid.dropWhile (· ≤ pivot)).length < weight pivot mid := by
    cases mid with
    | nil => exact absurd rfl hmid
    | cons x m =>
      have hm := (dropWhile_suffix (· ≤ pivot) (l := m)).length_le
      simp only [weight, dropWhile_cons, decide_eq_true_eq]
      split_ifs <;> grind
  unfold narrow
  generalize (mid.dropWhile (· ≤ pivot)).rdropWhile (pivot ≤ ·) = m at *
  match m with
  | [] => exact Nat.zero_lt_of_lt hlt
  | [x] => grind [swapEnds, weight]
  | x :: y :: m => grind [swapEnds, weight]

/-- The loop of `partition` on `data[1:low]`, `data[low:high+1]` and `data[high+1:]`. -/
def partitionLoop (lows mid highs : List α) : List α × List α :=
  if _h : mid = [] then (lows, highs)
  else
    partitionLoop (lows ++ mid.takeWhile (· ≤ pivot)) (narrow pivot mid)
      ((mid.dropWhile (· ≤ pivot)).rtakeWhile (pivot ≤ ·) ++ highs)
termination_by weight pivot mid
decreasing_by exact weight_narrow_lt pivot _h

theorem partitionLoop_spec (lows mid highs : List α) (hlows : ∀ x ∈ lows, x ≤ pivot)
    (hhighs : ∀ x ∈ highs, pivot ≤ x) :
    (partitionLoop pivot lows mid highs).1 ++ (partitionLoop pivot lows mid highs).2 ~
        lows ++ mid ++ highs ∧
      (∀ x ∈ (partitionLoop pivot lows mid highs).1, x ≤ pivot) ∧
      ∀ x ∈ (partitionLoop pivot lows mid highs).2, pivot ≤ x := by
  fun_induction partitionLoop pivot lows mid highs with
  | case1 lows highs => simpa using ⟨hlows, hhighs⟩
  | case2 lows mid highs hmid ih =>
    obtain ⟨hperm, h⟩ := ih
      (forall_mem_append.mpr ⟨hlows, fun x hx => by simpa using mem_takeWhile_imp hx⟩)
      (forall_mem_append.mpr ⟨fun x hx => by simpa using mem_rtakeWhile_imp hx, hhighs⟩)
    have hmid : mid.takeWhile (· ≤ pivot) ++ ((mid.dropWhile (· ≤ pivot)).rdropWhile (pivot ≤ ·) ++
        (mid.dropWhile (· ≤ pivot)).rtakeWhile (pivot ≤ ·)) = mid := by
      rw [rdropWhile_append_rtakeWhile, takeWhile_append_dropWhile]
    refine ⟨hperm.trans ?_, h⟩
    conv_rhs => rw [← hmid]
    simp only [append_assoc]
    exact (((swapEnds_perm _).append_right _).append_left _).append_left _

/-- `partition`, with the random number for the pivot; `none` if there is no element. -/
def partition (rand : ℕ) : List α → Option (List α × α × List α)
  | [] => none
  | first :: rest =>
    let pivotIndex := rand % (first :: rest).length
    let pivotValue := (first :: rest).getD pivotIndex first
    let parts := partitionLoop pivotValue [] ((first :: rest).set pivotIndex first).tail []
    some (parts.1, pivotValue, parts.2)

variable {data : List α}

theorem partition_spec (rand : ℕ) (h : data ≠ []) : ∃ lows pivotValue highs,
    partition rand data = some (lows, pivotValue, highs) ∧ pivotValue :: (lows ++ highs) ~ data ∧
      (∀ x ∈ lows, x ≤ pivotValue) ∧ ∀ x ∈ highs, pivotValue ≤ x := by
  cases data with
  | nil => exact absurd rfl h
  | cons first rest =>
    have hlt := Nat.mod_lt rand (length_pos_iff.mpr h)
    have hswap := set_set_perm hlt (Nat.zero_lt_of_lt hlt)
    generalize hi : rand % (first :: rest).length = i at hlt hswap
    obtain ⟨hperm, hle⟩ := partitionLoop_spec ((first :: rest).getD i first) []
      ((first :: rest).set i first).tail [] (forall_mem_nil _) (forall_mem_nil _)
    refine ⟨_, _, _, by rw [partition, hi], (hperm.cons _).trans ?_, hle⟩
    refine .trans (.of_eq ?_) hswap
    rw [getD_eq_getElem _ _ hlt]
    cases i <;> simp

/-- What is discarded of a partition, the pivot and what is kept. -/
def sides (upper : Bool) : List α × α × List α → List α × α × List α
  | (lows, pivotValue, highs) =>
    if upper then (highs, pivotValue, lows) else (lows, pivotValue, highs)

def Before (upper : Bool) (d x : α) : Prop := if upper then x ≤ d else d ≤ x

theorem Before.trans {upper : Bool} {d x y : α} (h : Before upper d x) (h' : Before upper x y) :
    Before upper d y := by
  cases upper with
  | false => exact le_trans h h'
  | true => exact le_trans h' h

theorem sides_spec (upper : Bool) (rand : ℕ) (h : data ≠ []) : ∃ discarded pivotValue kept,
      (partition rand data).map (sides upper) = some (discarded, pivotValue, kept) ∧
      pivotValue :: (discarded ++ kept) ~ data ∧
      (∀ d ∈ discarded, Before upper d pivotValue) ∧ ∀ x ∈ kept, Before upper pivotValue x := by
  obtain ⟨lows, pivotValue, highs, hpart, hperm, hlows, hhighs⟩ := partition_spec rand h
  rw [hpart]
  cases upper with
  | false => exact ⟨lows, pivotValue, highs, rfl, hperm, hlows, hhighs⟩
  | true =>
    exact ⟨highs, pivotValue, lows, rfl, (perm_append_comm.cons _).trans hperm, hhighs, hlows⟩

/-- Writes to the result of `size` elements, of which `out` have been written. -/
def write (size : ℕ) (out vs : List α) : Option (List α) :=
  if out.length + vs.length ≤ size then some (out ++ vs) else none

/-- The loop of `discardLowerRange` and `discardUpperRange`. `none` is a panic, a copy that is cut
short or an element of the result that is not written. -/
def discardLoop (upper : Bool) (rand : ℕ → ℕ) (size : ℕ) :
    ℕ → List α → ℕ → List α → Option (List α)
  | 0, _, _, _ => none
  | fuel + 1, data, k, out =>
    if k = 0 then (write size out data).filter (·.length = size)
    else ((partition (rand fuel) data).map (sides upper)).bind fun (discarded, pivotValue, kept) =>
      if discarded.length > k then
        (write size out (pivotValue :: kept)).bind (discardLoop upper rand size fuel discarded k)
      else if k - discarded.length = 0 then
        (write size out [pivotValue]).bind (discardLoop upper rand size fuel kept 0)
      else discardLoop upper rand size fuel kept (k - discarded.length - 1) out

/-- `kept` is what is left of `data` without the `k` elements that come first. -/
def Kept (upper : Bool) (data : List α) (k : ℕ) (kept : List α) : Prop :=
  ∃ dropped, dropped.length = k ∧ dropped ++ kept ~ data ∧
    ∀ d ∈ dropped, ∀ x ∈ kept, Before upper d x

theorem discardLoop_spec (upper : Bool) (rand : ℕ → ℕ) {size fuel : ℕ} (data out : List α) (k : ℕ)
    (hfuel : data.length < fuel) (hk : k = 0 ∨ k < data.length)
    (hsize : out.length + data.length = size + k) : ∃ kept,
      discardLoop upper rand size fuel data k out = some (out ++ kept) ∧
        Kept upper data k kept := by
  induction fuel generalizing data k out with
  | zero => exact absurd hfuel (Nat.not_lt_zero _)
  | succ fuel ih =>
    rw [discardLoop]
    split_ifs with hzero
    · refine ⟨data, ?_, [], hzero.symm, .refl _, forall_mem_nil _⟩
      simp [write, hsize, hzero]
    obtain ⟨discarded, p, kept, hsides, hperm, hdiscarded, hkept⟩ :=
      sides_spec upper (rand fuel) (length_pos_iff.mp (Nat.zero_lt_of_lt (hk.resolve_left hzero)))
    have hlen := hperm.length_eq
    rw [length_cons, length_append] at hlen
    have hbetween : ∀ d ∈ discarded, ∀ x ∈ kept, Before upper d x :=
      fun d hd x hx => (hdiscarded d hd).trans (hkept x hx)
    simp only [hsides, Option.bind_some, write, length_cons, length_nil]
    split_ifs with hmore hfit hpivot hfit
    · obtain ⟨kept', hrun, dropped, hd, hperm', hbefore⟩ :=
        ih discarded (out ++ p :: kept) k (by omega) (.inr hmore) (by grind)
      have hmem := fun x => hperm'.mem_iff (a := x)
      exact ⟨p :: kept ++ kept', by simp [hrun], dropped, hd, by grind, by grind⟩
    · omega
    · obtain ⟨kept', hrun, dropped, hd, hperm', -⟩ :=
        ih kept (out ++ [p]) 0 (by omega) (.inl rfl) (by grind)
      have hmem := fun x => hperm'.mem_iff (a := x)
      exact ⟨p :: kept', by simp [hrun], discarded, by omega, by grind, by grind⟩
    · omega
    · obtain ⟨kept', hrun, dropped, hd, hperm', hbefore⟩ :=
        ih kept out (k - discarded.length - 1) (by omega) (by omega) (by omega)
      have hmem := fun x => hperm'.mem_iff (a := x)
      exact ⟨kept', hrun, discarded ++ p :: dropped, by grind, by grind, by grind⟩

/-- `discardLowerRange` or `discardUpperRange`. -/
def discardRange (upper : Bool) (rand : ℕ → ℕ) (data : List α) (k : ℕ) : Option (List α) :=
  discardLoop upper rand (data.length - k) (data.length + 1) data k []

theorem discardRange_spec (upper : Bool) (rand : ℕ → ℕ) (data : List α) {k : ℕ}
    (hk : k < data.length) :
    ∃ kept, discardRange upper rand data k = some kept ∧ Kept upper data k kept :=
  discardLoop_spec upper rand data [] k (Nat.lt_succ_self _) (.inr hk) (by simp; omega)

/-- `getSortedRange`, with the random numbers of the two loops. -/
def getSortedRange (lower upper : ℕ → ℕ) (data : List α) (start count : ℕ) : Option (List α) :=
  (discardRange false lower data start).bind fun out =>
    let k := out.length - count
    (if k > 0 then discardRange true upper out k else some out).map (insertionSort (· ≤ ·))

theorem insertionSort_eq_append {l r : List α} (hperm : l ++ r ~ data)
    (hle : ∀ a ∈ l, ∀ b ∈ r, a ≤ b) :
    data.insertionSort (· ≤ ·) = l.insertionSort (· ≤ ·) ++ r.insertionSort (· ≤ ·) := by
  refine Perm.eq_of_pairwise (fun _ _ _ _ => le_antisymm) (pairwise_insertionSort _ _)
    (pairwise_append.mpr ⟨pairwise_insertionSort _ _, pairwise_insertionSort _ _,
      fun a ha b hb => hle a ((mem_insertionSort _).mp ha) b ((mem_insertionSort _).mp hb)⟩) ?_
  exact (perm_insertionSort _ _).trans (hperm.symm.trans
    ((perm_insertionSort _ _).symm.append (perm_insertionSort _ _).symm))

/-- **Partial selection is correct for any pivots.** -/
theorem getSortedRange_eq (lower upper : ℕ → ℕ) {data : List α} {start count : ℕ}
    (hcount : 1 ≤ count) (h : start + count ≤ data.length) :
    getSortedRange lower upper data start count =
      some (((data.insertionSort (· ≤ ·)).drop start).take count) := by
  obtain ⟨out, hrun, dropped, hstart, hperm, hle⟩ :=
    discardRange_spec false lower data (k := start) (by omega)
  have hlen := hperm.length_eq
  rw [length_append] at hlen
  rw [insertionSort_eq_append hperm hle, drop_left' (by rw [length_insertionSort, hstart]),
    getSortedRange, hrun, Option.bind_some]
  dsimp only
  split_ifs with hk
  · obtain ⟨out', hrun', dropped', hk', hperm', hle'⟩ :=
      discardRange_spec true upper out (k := out.length - count) (by omega)
    have hlen' := hperm'.length_eq
    rw [length_append] at hlen'
    rw [insertionSort_eq_append (perm_append_comm.trans hperm') fun a ha b hb => hle' b hb a ha,
      take_left' (by rw [length_insertionSort]; omega), hrun', Option.map_some]
  · rw [take_of_length_le (by rw [length_insertionSort]; omega), Option.map_some]

theorem getSortedRange_middle : getSortedRange (fun _ => 5) id [7, 2, 9, 2] 1 2 = some [2, 7] :=
  getSortedRange_eq _ _ (by decide) (by decide)

end AndyEnv.Tsdb
