import AndyEnv.Tsm1.Engine

/-!
# The time range of a rewritten file

`rewriteFile` computes the time range of the new file in one pass over the
batch, in the order `range` visits the map. The maximum is exclusive: a last
time above the current maximum replaces it by that time plus one. A last time
*equal* to the current maximum does not, and this is where a stored time can
end up outside the file's range: when the latest time of the batch is the old
file's maximum, or when it follows the last time of another id by one
nanosecond and is visited after it. `Untied` is the exact condition under
which no order of the map loses the latest time.
-/

namespace AndyEnv.Tsm1

open List Int64

theorem toInt_add_one {a : Int64} (h : a ≠ Int64.maxValue) : (a + 1).toInt = a.toInt + 1 := by
  have hlt : a.toInt < 2 ^ 63 - 1 := by
    have := a.toInt_lt
    by_contra hge
    apply h
    apply toInt_inj.mp
    rw [toInt_maxValue]
    omega
  have hle := a.le_toInt
  rw [toInt_add]
  exact Int.bmod_eq_of_le (by simp; omega) (by simp; omega)

/-! ## The exclusive maximum -/

def widenMax (maxTime last : ℤ) : ℤ := if maxTime < last then last + 1 else maxTime

/-- The latest of the times is neither the maximum so far nor one more than
another of the times that is above it. -/
def Untied (maxTime : ℤ) (lasts : List ℤ) : Prop :=
  ∀ m ∈ lasts, (∀ m' ∈ lasts, m' ≤ m) → m ≠ maxTime ∧ ∀ m' ∈ lasts, m' + 1 = m → m' ≤ maxTime

theorem le_widenMax (maxTime last : ℤ) : maxTime ≤ widenMax maxTime last := by
  unfold widenMax
  split
  · omega
  · exact le_rfl

theorem le_foldl_widenMax (lasts : List ℤ) (maxTime : ℤ) :
    maxTime ≤ lasts.foldl widenMax maxTime := by
  induction lasts generalizing maxTime with
  | nil => exact le_rfl
  | cons m ms ih => exact (le_widenMax maxTime m).trans (ih _)

/-- The maximum is the one it started from, or the successor of a time above
that. -/
theorem foldl_widenMax_eq {M₀ : ℤ} : ∀ {lasts : List ℤ} {M : ℤ}, M₀ ≤ M →
    lasts.foldl widenMax M = M ∨ ∃ m ∈ lasts, lasts.foldl widenMax M = m + 1 ∧ M₀ < m
  | [], M, _ => .inl rfl
  | x :: xs, M, hM => by
    rw [foldl_cons]
    rcases @foldl_widenMax_eq M₀ xs (widenMax M x) (hM.trans (le_widenMax M x)) with h | ⟨m, hm, h, hlt⟩
    · rw [h]
      unfold widenMax
      split
      · exact .inr ⟨x, mem_cons_self, rfl, by omega⟩
      · exact .inl rfl
    · exact .inr ⟨m, mem_cons_of_mem _ hm, h, hlt⟩

variable {lasts : List ℤ}

theorem foldl_widenMax_eq_self {M : ℤ} (h : ∀ m ∈ lasts, m ≤ M) : lasts.foldl widenMax M = M := by
  induction lasts with
  | nil => rfl
  | cons m ms ih =>
    have hm : widenMax M m = M := if_neg (not_lt.mpr (h m mem_cons_self))
    rw [foldl_cons, hm]
    exact ih (forall_mem_cons.mp h).2

theorem exists_latest (h : lasts ≠ []) : ∃ m ∈ lasts, ∀ m' ∈ lasts, m' ≤ m := by
  obtain ⟨m, hm, hle⟩ := lasts.toFinset.exists_max_image id (toFinset_nonempty_iff _ |>.mpr h)
  exact ⟨m, by simpa using hm, fun m' hm' => hle m' (by simpa using hm')⟩

/-- No order of the map misses a time. -/
theorem Untied.lt_foldl {M₀ : ℤ} (h : Untied M₀ lasts) {order : List ℤ} (hperm : order.Perm lasts) : ∀ m ∈ lasts, m < order.foldl widenMax M₀ := by
  intro m hm
  obtain ⟨top, htop, hle⟩ := exists_latest (ne_nil_of_mem hm)
  refine lt_of_le_of_lt (hle m hm) ?_
  obtain ⟨hne, htie⟩ := h top htop hle
  -- split the order where the latest time is visited
  obtain ⟨before, after, rfl⟩ := append_of_mem (hperm.mem_iff.mpr htop)
  rw [foldl_append, foldl_cons]
  refine lt_of_lt_of_le ?_ (le_foldl_widenMax after _)
  unfold widenMax
  split
  · omega
  rename_i hnot
  rw [not_lt] at hnot
  refine lt_of_le_of_ne hnot (fun heq => ?_)
  rcases @foldl_widenMax_eq M₀ before M₀ le_rfl with hM | ⟨m', hm', hM, hlt⟩
  · exact hne (heq.trans hM)
  · have hmem : m' ∈ lasts := hperm.mem_iff.mp (mem_append_left _ hm')
    have := htie m' hmem (hM.symm.trans heq.symm)
    omega

def lastTimes (valuesByID : ValuesByID) : List ℤ :=
  valuesByID.filterMap (fun p => p.2.maxTime.map Int64.toInt)

/-- What `rewriteFile`'s pass over the map computes, when no time is the
largest `int64`. -/
theorem widenRange_spec : ∀ {entries : ValuesByID} {range : Int64 × Int64},
    (∀ p ∈ entries, p.2 ≠ [] ∧ Values.Ascending p.2) →
    (∀ p ∈ entries, ∀ v ∈ p.2, v.time ≠ Int64.maxValue) →
    ∃ r : Int64 × Int64, (entries.map Prod.snd).foldlM widenRange range = some r ∧
      r.2.toInt = (lastTimes entries).foldl widenMax range.2.toInt ∧
      r.1.toInt ≤ range.1.toInt ∧ (∀ p ∈ entries, ∀ v ∈ p.2, r.1.toInt ≤ v.unixNano) ∧
      (r.1 = range.1 ∨ ∃ p ∈ entries, ∃ v ∈ p.2, v.time = r.1)
  | [], range, _, _ => ⟨range, rfl, rfl, le_rfl, by simp, .inl rfl⟩
  | p :: ps, range, hvals, hmax => by
    obtain ⟨hne, hasc⟩ := hvals p mem_cons_self
    obtain ⟨lo, hlo⟩ := exists_minTime hne
    obtain ⟨hi, hhi⟩ := exists_maxTime hne
    have hlo_mem : ∃ v ∈ p.2, v.time = lo := by
      obtain ⟨v, hv, rfl⟩ := Option.map_eq_some_iff.mp hlo
      exact ⟨v, mem_of_mem_head? hv, rfl⟩
    have hhi_ne : hi ≠ Int64.maxValue := by
      obtain ⟨v, hv, rfl⟩ := Option.map_eq_some_iff.mp hhi
      exact hmax p mem_cons_self v (mem_of_mem_getLast? hv)
    obtain ⟨r, hr, hr2, hr1, hrle, hrmem⟩ := @widenRange_spec ps
      (if lo < range.1 then lo else range.1, if range.2 < hi then hi + 1 else range.2)
      (forall_mem_cons.mp hvals).2
      (forall_mem_cons.mp hmax).2
    have hmin : (if lo < range.1 then lo else range.1).toInt ≤ range.1.toInt ∧
        (if lo < range.1 then lo else range.1).toInt ≤ lo.toInt := by
      split
      · rename_i h
        rw [lt_iff_toInt_lt] at h
        omega
      · rename_i h
        rw [lt_iff_toInt_lt] at h
        omega
    refine ⟨r, ?_, ?_, hr1.trans hmin.1, ?_, ?_⟩
    · rw [map_cons, foldlM_cons, widenRange, hlo, hhi]
      exact hr
    · rw [hr2, lastTimes, lastTimes, filterMap_cons, hhi]
      simp only [Option.map_some, foldl_cons, widenMax]
      congr 1
      by_cases hlt : range.2 < hi
      · rw [if_pos hlt, if_pos (lt_iff_toInt_lt.mp hlt), toInt_add_one hhi_ne]
      · rw [if_neg hlt, if_neg (mt lt_iff_toInt_lt.mpr hlt)]
    · refine forall_mem_cons.mpr ⟨fun v hv => ?_, hrle⟩
      exact (hr1.trans hmin.2).trans (minTime_le hasc hlo v hv)
    · rcases hrmem with h | ⟨q, hq, h⟩
      · by_cases hlt : lo < range.1
        · rw [if_pos hlt] at h
          obtain ⟨v, hv, hvt⟩ := hlo_mem
          exact .inr ⟨p, mem_cons_self, v, hv, hvt.trans h.symm⟩
        · rw [if_neg hlt] at h
          exact .inl h
      · exact .inr ⟨q, mem_cons_of_mem _ hq, h⟩

end AndyEnv.Tsm1
