import Mathlib.Data.List.TakeWhile
import AndyEnv.Lib.Keyed
import AndyEnv.Tsdb.AggregateMapper

/-!
# The intervals of an aggregate query

Without limits the intervals of a query should cover its time range `[qmin, qmax]`: each
point of the range is read in one of them, and no interval reads points of two buckets.
The range includes `qmax`, but a query that has a single interval reads up to `qmax` only.
-/

namespace AndyEnv.Tsdb

open Keyed
open List

namespace IntervalState

variable {V W : Type}
variable {m : IntervalState}

/-! ## The points that an interval reads -/

/-- The times that `NextChunk` reads for an interval. -/
def Reads (m : IntervalState) (interval : ℤ × ℤ) (t : ℤ) : Prop :=
  let qmin := if interval.1 < m.qmin then m.qmin else interval.1
  let qmax := if interval.2 > m.qmax then wrap (m.qmax + 1) else interval.2
  qmin ≤ t ∧ (t = qmin ∨ t < qmax)

instance (m : IntervalState) (interval : ℤ × ℤ) (t : ℤ) : Decidable (m.Reads interval t) :=
  inferInstanceAs (Decidable (_ ∧ _))

theorem mem_readItems (pick : V → Option W) {tmin tmax t : ℤ} {w : W} : ∀ {points : List (ℤ × V)},
    Ascending Prod.fst points → (∀ p ∈ points, tmin ≤ p.1) →
    ((t, w) ∈ readItems pick tmin tmax points ↔
      ∃ v, (t, v) ∈ points ∧ pick v = some w ∧ (t = tmin ∨ t < tmax)) := by
  intro points
  induction points with
  | nil => exact fun _ _ => ⟨fun h => (nomatch h), fun ⟨v, h, _⟩ => (nomatch h)⟩
  | cons p points ih =>
    rcases p with ⟨t', v'⟩
    intro hasc hmin
    obtain ⟨hlt, hasc'⟩ := ascending_cons.mp hasc
    have hmin' : tmin ≤ t' := hmin (t', v') mem_cons_self
    have ih := ih hasc' (forall_mem_cons.mp hmin).2
    simp only [mem_cons, Prod.mk.injEq]
    rw [readItems]
    split
    case isTrue hstop =>
      -- the points after this one are later still
      constructor
      · exact fun h => (nomatch h)
      · rintro ⟨v, ⟨rfl, rfl⟩ | hv, -, ht⟩
        · omega
        · have := hlt (t, v) hv
          dsimp only at this
          omega
    case isFalse hgo =>
      have ht' : t' = tmin ∨ t' < tmax := by omega
      split
      next hpick =>
        rw [ih]
        constructor
        · rintro ⟨v, hv, h⟩
          exact ⟨v, .inr hv, h⟩
        · rintro ⟨v, ⟨rfl, rfl⟩ | hv, h⟩
          · exact (nomatch hpick.symm.trans h.1)
          · exact ⟨v, hv, h⟩
      next w' hpick =>
        rw [mem_cons, ih]
        constructor
        · rintro (h | ⟨v, hv, h⟩)
          · obtain ⟨rfl, rfl⟩ := Prod.mk.inj h
            exact ⟨v', .inl ⟨rfl, rfl⟩, hpick, ht'⟩
          · exact ⟨v, .inr hv, h⟩
        · rintro ⟨v, ⟨rfl, rfl⟩ | hv, hw, ht⟩
          · exact .inl (by rw [Option.some.inj (hpick.symm.trans hw)])
          · exact .inr ⟨v, hv, hw, ht⟩

/-- **The items of an interval** are the points that it reads. -/
theorem mem_chunkItems (m : IntervalState) (pick : V → Option W) (interval : ℤ × ℤ) {points : List (ℤ × V)}
    (hasc : Ascending Prod.fst points) {t : ℤ} {w : W} :
    (t, w) ∈ m.chunkItems pick interval points ↔
      ∃ v, (t, v) ∈ points ∧ pick v = some w ∧ m.Reads interval t := by
  unfold chunkItems readMapItems Reads
  dsimp only
  rw [(takeWhile_dropWhile_eq_filter hasc _).2, mem_readItems pick (hasc.sublist filter_sublist)]
  · simp only [mem_filter, decide_eq_true_eq]
    constructor
    · rintro ⟨v, ⟨hv, hle⟩, hw, ht⟩
      exact ⟨v, hv, hw, hle, ht⟩
    · rintro ⟨v, hv, hw, hle, ht⟩
      exact ⟨v, ⟨hv, hle⟩, hw, ht⟩
  · intro p hp
    exact of_decide_eq_true (mem_filter.mp hp).2

/-- **The intervals cover the time range.** -/
structure Covers (m : IntervalState) (interval : ℤ) : Prop where
  /-- A point of the range is an item of one interval. -/
  once : ∀ {V W : Type} (pick : V → Option W) (points : List (ℤ × V)), Ascending Prod.fst points →
    ∀ t v w, (t, v) ∈ points → pick v = some w → m.qmin ≤ t → t ≤ m.qmax →
    ∃! i : ℕ, ∃ r, m.allIntervals[i]? = some r ∧ (t, w) ∈ m.chunkItems pick r points
  /-- A point that is not in the range is in no interval. -/
  inside : ∀ {V W : Type} (pick : V → Option W) (points : List (ℤ × V)), Ascending Prod.fst points →
    ∀ r ∈ m.allIntervals, ∀ t w, (t, w) ∈ m.chunkItems pick r points → m.qmin ≤ t ∧ t ≤ m.qmax
  /-- The items of an interval are of one bucket. -/
  bucket : 0 < interval →
    ∀ {V W : Type} (pick : V → Option W) (points : List (ℤ × V)), Ascending Prod.fst points →
    ∀ r ∈ m.allIntervals, ∀ t w t' w', (t, w) ∈ m.chunkItems pick r points →
      (t', w') ∈ m.chunkItems pick r points → t / interval = t' / interval

/-- It is a question of the times that the intervals read. -/
theorem covers_of_reads {interval : ℤ}
    (honce : ∀ t, m.qmin ≤ t → t ≤ m.qmax → ∃! i : ℕ, ∃ r, m.allIntervals[i]? = some r ∧ m.Reads r t)
    (hinside : ∀ r ∈ m.allIntervals, ∀ t, m.Reads r t → m.qmin ≤ t ∧ t ≤ m.qmax)
    (hbucket : 0 < interval → ∀ r ∈ m.allIntervals, ∀ t t', m.Reads r t → m.Reads r t' →
      t / interval = t' / interval) : m.Covers interval where
  once := by
    intro V W pick points hasc t v w hv hw hmin hmax
    have hreads : ∀ r, (t, w) ∈ m.chunkItems pick r points ↔ m.Reads r t := by
      intro r
      rw [mem_chunkItems m pick r hasc]
      exact ⟨fun ⟨_, _, _, h⟩ => h, fun h => ⟨v, hv, hw, h⟩⟩
    simp only [hreads]
    exact honce t hmin hmax
  inside := by
    intro V W pick points hasc r hr t w ht
    obtain ⟨_, _, _, hreads⟩ := (mem_chunkItems m pick r hasc).mp ht
    exact hinside r hr t hreads
  bucket := by
    intro hpos V W pick points hasc r hr t w t' w' ht ht'
    obtain ⟨_, _, _, hreads⟩ := (mem_chunkItems m pick r hasc).mp ht
    obtain ⟨_, _, _, hreads'⟩ := (mem_chunkItems m pick r hasc).mp ht'
    exact hbucket hpos r hr t t' hreads hreads'

/-- If the intervals cover the range, each time of it is read in one of them. -/
theorem Covers.reads {interval : ℤ} (h : m.Covers interval) {t : ℤ} (hmin : m.qmin ≤ t)
    (hmax : t ≤ m.qmax) : ∃ r ∈ m.allIntervals, m.Reads r t := by
  have hasc : Ascending Prod.fst [(t, ())] := pairwise_singleton _ _
  obtain ⟨i, ⟨r, hr, hitem⟩, -⟩ := h.once some [(t, ())] hasc t () () mem_cons_self rfl hmin hmax
  obtain ⟨_, _, _, hreads⟩ := (mem_chunkItems m some r hasc).mp hitem
  exact ⟨r, mem_of_getElem? hr, hreads⟩

theorem allIntervals_of_forall (h : ∀ i < m.intervalN.toNat, 0 ≤ m.start i ∧ m.start i ≤ m.qmax) :
    m.allIntervals =
      (List.range m.intervalN.toNat).map (fun i => (m.start i, wrap (m.start i + m.intervalSize))) := by
  have hall : ∀ t ∈ (List.range m.intervalN.toNat).map m.start, decide (0 ≤ t ∧ t ≤ m.qmax) = true := by
    intro t ht
    obtain ⟨i, hi, rfl⟩ := mem_map.mp ht
    exact decide_eq_true (h i (mem_range.mp hi))
  rw [allIntervals_eq, takeWhile_eq_self_iff.mpr hall, map_map]
  rfl

/-- **One interval covers the range** if it ends after it and the range is in one bucket, or if the
range is a single time. -/
theorem covers_single_iff {e interval : ℤ} (hall : m.allIntervals = [(m.qmin, e)])
    (hmin : 0 ≤ m.qmin) (hle : m.qmin ≤ m.qmax) (hmax : m.qmax < 2 ^ 63 - 1)
    (hbucket : m.qmax < e → 0 < interval → m.qmin / interval = m.qmax / interval) :
    m.Covers interval ↔ m.qmax < e ∨ m.qmin = m.qmax := by
  have hwrap : wrap (m.qmax + 1) = m.qmax + 1 := wrap_of_mem (by omega) (by omega)
  have hreads : ∀ t, m.Reads (m.qmin, e) t ↔ m.qmin ≤ t ∧ (t = m.qmin ∨ t < if e > m.qmax then m.qmax + 1 else e) := by
    intro t
    unfold Reads
    simp only [lt_irrefl, if_false, hwrap]
  constructor
  · intro h
    obtain ⟨r, hr, hread⟩ := h.reads hle le_rfl
    rw [hall, mem_singleton] at hr
    rw [hr, hreads] at hread
    by_cases he : e > m.qmax
    · exact .inl he
    · rw [if_neg he] at hread
      omega
  · intro h
    have hreads' : ∀ t, m.Reads (m.qmin, e) t ↔ m.qmin ≤ t ∧ t ≤ m.qmax := by
      intro t
      rw [hreads]
      split <;> omega
    apply covers_of_reads
    · intro t hmin hmax
      refine ⟨0, ⟨(m.qmin, e), by rw [hall]; rfl, (hreads' t).mpr ⟨hmin, hmax⟩⟩, ?_⟩
      rintro i ⟨r, hr, -⟩
      rw [hall, List.getElem?_singleton] at hr
      by_contra hi
      rw [if_neg hi] at hr
      exact (nomatch hr)
    · intro r hr t ht
      rw [hall, mem_singleton] at hr
      rw [hr] at ht
      exact (hreads' t).mp ht
    · intro hpos r hr t t' ht ht'
      rw [hall, mem_singleton] at hr
      rw [hr, hreads'] at ht ht'
      have hmono : ∀ t, m.qmin ≤ t ∧ t ≤ m.qmax → t / interval = m.qmin / interval := by
        intro t ht
        have hend : m.qmax / interval = m.qmin / interval := by
          rcases h with h | h
          · exact (hbucket h hpos).symm
          · rw [h]
        have := Int.ediv_le_ediv hpos ht.1
        have := Int.ediv_le_ediv hpos ht.2
        omega
      rw [hmono t ht, hmono t' ht']

end IntervalState

namespace AggregateQuery

/-! ## The number of intervals -/

def buckets (q : AggregateQuery) : ℤ := q.qmax / q.interval - q.qmin / q.interval + 1

variable {q : AggregateQuery}

theorem buckets_pos (hle : q.qmin ≤ q.qmax) (hpos : 0 < q.interval) : 0 < q.buckets := by
  have := Int.ediv_le_ediv hpos hle
  unfold buckets
  omega

section

variable (hmin : 0 < q.qmin) (hle : q.qmin ≤ q.qmax) (hmax : q.qmax < 2 ^ 63)
  (hpos : 0 < q.interval)
include hmin hle hmax hpos

theorem bucketN_eq_wrap : q.bucketN = (wrap (q.buckets * q.interval)).tdiv q.interval := by
  have hsingle : ¬q.single := by
    rintro (h | h) <;> omega
  have htop : wrap (q.qmax / q.interval * q.interval) = q.qmax / q.interval * q.interval := by
    have := Int.ediv_mul_le q.qmax hpos.ne'
    have := Int.mul_nonneg (Int.ediv_nonneg (hmin.le.trans hle) hpos.le) hpos.le
    exact wrap_of_mem (by omega) (by omega)
  have hbottom : wrap (q.qmin / q.interval * q.interval) = q.qmin / q.interval * q.interval := by
    have := Int.ediv_mul_le q.qmin hpos.ne'
    have := Int.mul_nonneg (Int.ediv_nonneg hmin.le hpos.le) hpos.le
    exact wrap_of_mem (by omega) (by omega)
  unfold bucketN buckets
  rw [if_neg hsingle]
  dsimp only
  rw [Int.tdiv_eq_ediv_of_nonneg (hmin.le.trans hle), Int.tdiv_eq_ediv_of_nonneg hmin.le, htop, hbottom,
    wrap_wrap_sub]
  congr 2
  ring

theorem bucketN_eq (hfit : q.buckets * q.interval < 2 ^ 63) : q.bucketN = q.buckets := by
  have hnonneg := Int.mul_nonneg (buckets_pos hle hpos).le hpos.le
  rw [bucketN_eq_wrap hmin hle hmax hpos, wrap_of_mem (by omega) hfit, Int.mul_tdiv_cancel _ hpos.ne']

theorem bucketN_nonpos
    (hinterval : q.interval < 2 ^ 63) (hfit : 2 ^ 63 ≤ q.buckets * q.interval) : q.bucketN ≤ 0 := by
  have hbase := Int.mul_nonneg (Int.ediv_nonneg hmin.le hpos.le) hpos.le
  have htop := Int.ediv_mul_le q.qmax hpos.ne'
  have hsum : q.buckets * q.interval =
      q.qmax / q.interval * q.interval + q.interval - q.qmin / q.interval * q.interval := by
    unfold buckets
    ring
  rw [bucketN_eq_wrap hmin hle hmax hpos, wrap_of_ge hfit (by omega)]
  have hdiv : 0 ≤ (-(q.buckets * q.interval - 2 ^ 64)).tdiv q.interval := Int.tdiv_nonneg (by omega) hpos.le
  rw [Int.neg_tdiv] at hdiv
  omega

end

theorem of_many (hmin : 0 < q.qmin) (hpos : 0 < q.interval) (hmany : 1 < q.buckets) :
    q.interval ≤ q.qmax ∧ q.qmin ≠ q.qmax := by
  have hbase := Int.ediv_nonneg hmin.le hpos.le
  unfold buckets at hmany
  constructor
  · rw [← one_mul q.interval]
    exact (Int.le_ediv_iff_mul_le hpos).mp (by omega)
  · intro h
    rw [h] at hmany
    omega

theorem lt_add_of_one (hpos : 0 < q.interval) (hone : q.buckets = 1) : q.qmax < q.qmin + q.interval := by
  have h1 := Int.lt_ediv_add_one_mul_self q.qmax hpos
  have h2 := Int.ediv_mul_le q.qmin hpos.ne'
  have hsame : q.qmax / q.interval = q.qmin / q.interval := by
    unfold buckets at hone
    omega
  rw [hsame, add_mul, one_mul] at h1
  omega

theorem bucket_mem (hmin : 0 < q.qmin) (hpos : 0 < q.interval) {k : ℤ}
    (hk : q.qmin / q.interval ≤ k) (hk' : k ≤ q.qmax / q.interval) :
    0 ≤ k * q.interval ∧ k * q.interval ≤ q.qmax ∧ q.qmin < k * q.interval + q.interval := by
  refine ⟨Int.mul_nonneg ((Int.ediv_nonneg hmin.le hpos.le).trans hk) hpos.le, ?_, ?_⟩
  · exact (Int.le_ediv_iff_mul_le hpos).mp hk'
  · have := (Int.ediv_lt_iff_lt_mul hpos).mp (Int.lt_add_one_of_le hk)
    rw [add_mul, one_mul] at this
    exact this

/-! ## The mapper of a query without limits -/

def state (q : AggregateQuery) : IntervalState :=
  ⟨q.qmin, q.qmax, q.offset, 0, q.intervalN, q.intervalSize, q.qminWindow⟩

theorem intervalN_of_no_limit (hlimit : q.limit = 0) (hoffset : q.offset = 0) : q.intervalN = q.bucketN := by
  unfold intervalN hasLimit
  rw [if_neg (by omega)]

theorem openMapper_of_no_limit {V : Type} (hlimit : q.limit = 0) (hoffset : q.offset = 0)
    (cursors : List (CursorSet V)) : q.openMapper cursors =
      if maxGroupByPoints < q.bucketN then .error .tooManyPoints else .ok ⟨q.state, cursors⟩ := by
  unfold openMapper state
  rw [if_neg (by unfold hasLimit; omega), intervalN_of_no_limit hlimit hoffset]

section

variable (hmin : 0 < q.qmin) (hle : q.qmin ≤ q.qmax) (hmax : q.qmax < 2 ^ 62)
  (hpos : 0 < q.interval) (hoffset : q.offset = 0) (hN : q.intervalN = q.buckets)
  (hmany : 1 < q.buckets)
include hmin hle hmax hpos hoffset hN hmany

/-- **All buckets, each once.** -/
theorem allIntervals_state : q.state.allIntervals = (List.range q.buckets.toNat).map (fun i : ℕ =>
      ((q.qmin / q.interval + i) * q.interval, (q.qmin / q.interval + i) * q.interval + q.interval)) := by
  have hsize : q.intervalSize = q.interval := by
    unfold intervalSize
    rw [if_neg]
    rintro (h | h) <;> omega
  have hbase := Int.ediv_nonneg hmin.le hpos.le
  have hinterval := (of_many hmin hpos hmany).1
  have hstart : ∀ i < q.buckets.toNat, q.state.start i = (q.qmin / q.interval + i) * q.interval ∧
      0 ≤ (q.qmin / q.interval + i) * q.interval ∧ (q.qmin / q.interval + i) * q.interval ≤ q.qmax := by
    intro i hi
    obtain ⟨h0, hend, -⟩ := bucket_mem (k := q.qmin / q.interval + i) hmin hpos (by omega) (by
      unfold buckets at hi
      omega)
    refine ⟨?_, h0, hend⟩
    rw [add_mul] at h0 hend ⊢
    rw [IntervalState.start_eq]
    unfold state qminWindow
    dsimp only
    rw [hsize, if_pos ⟨hpos, hN ▸ hmany⟩, hoffset, add_zero, Int.tdiv_eq_ediv_of_nonneg hmin.le,
      wrap_wrap_add, wrap_of_mem (by omega) (by omega)]
  have hN' : q.state.intervalN.toNat = q.buckets.toNat := congrArg Int.toNat hN
  rw [IntervalState.allIntervals_of_forall, hN']
  · apply map_congr_left
    intro i hi
    obtain ⟨hs, h0, hend⟩ := hstart i (mem_range.mp hi)
    rw [hs]
    show (_, wrap (_ + q.intervalSize)) = _
    rw [hsize, wrap_of_mem (by omega) (by omega)]
  · rw [hN']
    intro i hi
    obtain ⟨hs, h0, hend⟩ := hstart i hi
    rw [hs]
    exact ⟨h0, hend⟩

theorem covers_of_many : q.state.Covers q.interval := by
  have hall := allIntervals_state hmin hle hmax hpos hoffset hN hmany
  have hreads : ∀ i < q.buckets.toNat, ∀ t, q.state.Reads ((q.qmin / q.interval + i) * q.interval,
      (q.qmin / q.interval + i) * q.interval + q.interval) t ↔
      q.qmin ≤ t ∧ t ≤ q.qmax ∧ t / q.interval = q.qmin / q.interval + i := by
    intro i hi t
    unfold buckets at hi
    obtain ⟨k, hk⟩ : ∃ k, k = q.qmin / q.interval + i := ⟨_, rfl⟩
    obtain ⟨h0, hstart, hend⟩ := bucket_mem (k := k) hmin hpos (by omega) (by omega)
    have hdiv : t / q.interval = k ↔ k * q.interval ≤ t ∧ t < k * q.interval + q.interval := by
      rw [← Int.le_ediv_iff_mul_le hpos, ← add_one_mul k, ← Int.ediv_lt_iff_lt_mul hpos]
      omega
    unfold IntervalState.Reads
    dsimp only [state]
    rw [← hk, wrap_of_mem (by omega) (by omega), hdiv]
    split_ifs <;> omega
  have hmem : ∀ r ∈ q.state.allIntervals, ∃ k, ∀ t, q.state.Reads r t →
      (q.qmin ≤ t ∧ t ≤ q.qmax) ∧ t / q.interval = k := by
    intro r hr
    rw [hall] at hr
    obtain ⟨i, hi, rfl⟩ := mem_map.mp hr
    refine ⟨q.qmin / q.interval + i, fun t ht => ?_⟩
    obtain ⟨h1, h2, h3⟩ := (hreads i (mem_range.mp hi) t).mp ht
    exact ⟨⟨h1, h2⟩, h3⟩
  apply IntervalState.covers_of_reads
  · intro t hmin' hmax'
    have h1 := Int.ediv_le_ediv hpos hmin'
    have h2 := Int.ediv_le_ediv hpos hmax'
    change q.qmin / q.interval ≤ t / q.interval at h1
    change t / q.interval ≤ q.qmax / q.interval at h2
    have hlt : (t / q.interval - q.qmin / q.interval).toNat < q.buckets.toNat := by
      unfold buckets
      omega
    refine ⟨(t / q.interval - q.qmin / q.interval).toNat, ⟨_, ?_, (hreads _ hlt t).mpr ⟨hmin', hmax', by omega⟩⟩, ?_⟩
    · rw [hall, List.getElem?_map, List.getElem?_range hlt]
      rfl
    · rintro i ⟨r, hr, hread⟩
      rw [hall, List.getElem?_map] at hr
      obtain ⟨j, hj, rfl⟩ := Option.map_eq_some_iff.mp hr
      obtain ⟨hi, hj⟩ := List.getElem?_eq_some_iff.mp hj
      rw [length_range] at hi
      rw [getElem_range] at hj
      subst hj
      have := ((hreads i hi t).mp hread).2.2
      omega
  · intro r hr t ht
    obtain ⟨k, hk⟩ := hmem r hr
    exact (hk t ht).1
  · intro _ r hr t t' ht ht'
    obtain ⟨k, hk⟩ := hmem r hr
    rw [(hk t ht).2, (hk t' ht').2]

end

theorem allIntervals_of_one (hmin : 0 ≤ q.qmin) (hle : q.qmin ≤ q.qmax) (hmax : q.qmax < 2 ^ 63)
    (hoffset : q.offset = 0) (hN : q.intervalN = 1) :
    q.state.allIntervals = [(q.qmin, wrap (q.qmin + q.intervalSize))] := by
  have hstart : q.state.start 0 = q.qmin := by
    rw [IntervalState.start_eq]
    unfold state qminWindow
    dsimp only
    rw [if_neg (by omega), hoffset, Nat.cast_zero, add_zero, zero_mul, add_zero]
    exact wrap_of_mem (by omega) (by omega)
  have hN' : q.state.intervalN.toNat = 1 := congrArg Int.toNat hN
  rw [IntervalState.allIntervals_of_forall, hN']
  · show [(q.state.start 0, wrap (q.state.start 0 + q.intervalSize))] = _
    rw [hstart]
  · rw [hN']
    intro i hi
    obtain rfl : i = 0 := by omega
    rw [hstart]
    exact ⟨hmin, hle⟩

theorem buckets_mul_lt (hmin : 0 < q.qmin) (hle : q.qmin ≤ q.qmax) (hmax : q.qmax < 2 ^ 62) (hpos : 0 < q.interval)
    (hinterval : q.interval < 2 ^ 63) : q.buckets * q.interval < 2 ^ 63 := by
  by_cases hmany : 1 < q.buckets
  · have h1 := (of_many hmin hpos hmany).1
    have h2 := Int.ediv_mul_le q.qmax hpos.ne'
    have h3 := Int.mul_nonneg (Int.ediv_nonneg hmin.le hpos.le) hpos.le
    unfold buckets
    rw [add_mul, sub_mul, one_mul]
    omega
  · have := buckets_pos hle hpos
    obtain hone : q.buckets = 1 := by omega
    rw [hone, one_mul]
    exact hinterval

/-! ## Every point of the range once -/

/-- **Every point of the range is seen once**: the query opens, `NextChunk` delivers the intervals of
every tag set, and the intervals cover the range. -/
def Complete (q : AggregateQuery) : Prop :=
  ∃ m : IntervalState, (∀ {V W : Type} (picks : List (V → Option W)) (cursors : List (CursorSet V)),
      q.openMapper cursors = .ok ⟨m, cursors⟩ ∧
        ∃ fuel, AggregateMapper.chunks picks fuel ⟨m, cursors⟩ = some (cursors.flatMap (m.outputs picks))) ∧
    m.Covers q.interval

theorem complete_iff (hlimit : q.limit = 0) (hoffset : q.offset = 0) :
    q.Complete ↔ q.bucketN ≤ maxGroupByPoints ∧ q.state.Covers q.interval := by
  constructor
  · rintro ⟨m, hm, hcovers⟩
    have hopen := (hm ([] : List (Unit → Option Unit)) []).1
    rw [openMapper_of_no_limit hlimit hoffset] at hopen
    by_cases hN : maxGroupByPoints < q.bucketN
    · rw [if_pos hN] at hopen
      exact (nomatch hopen)
    · rw [if_neg hN] at hopen
      obtain rfl : q.state = m := congrArg AggregateMapper.state (Except.ok.inj hopen)
      exact ⟨not_lt.mp hN, hcovers⟩
  · rintro ⟨hN, hcovers⟩
    refine ⟨q.state, fun picks cursors => ⟨?_, ?_⟩, hcovers⟩
    · rw [openMapper_of_no_limit hlimit hoffset, if_neg (not_lt.mpr hN)]
    · exact AggregateMapper.exists_chunks picks q.state rfl cursors

/-- The range is a single time, or it is grouped by time: into not too many buckets, with an end of the
first of them that can be represented. -/
def Inclusive (q : AggregateQuery) : Prop :=
  q.qmin = q.qmax ∨ q.qmin ≠ 0 ∧ q.interval ≠ 0 ∧ q.buckets ≤ maxGroupByPoints ∧ q.qmin + q.interval < 2 ^ 63

instance (q : AggregateQuery) : Decidable q.Inclusive := inferInstanceAs (Decidable (_ ∨ _))

/-- **An aggregate query sees every point of its range once if and only if** the range is a single time,
or the points are grouped by time from a start that is not the epoch. -/
theorem complete_iff_inclusive (q : AggregateQuery) (hmin : 0 ≤ q.qmin) (hle : q.qmin ≤ q.qmax)
    (hmax : q.qmax < 2 ^ 62) (hinterval : 0 ≤ q.interval) (hinterval' : q.interval < 2 ^ 63)
    (hlimit : q.limit = 0) (hoffset : q.offset = 0) : q.Complete ↔ q.Inclusive := by
  have hN := intervalN_of_no_limit hlimit hoffset
  rw [complete_iff hlimit hoffset]
  by_cases hsingle : q.single
  · have hbucketN : q.bucketN = 1 := if_pos hsingle
    have hsize : q.intervalSize = q.qmax - q.qmin := by
      unfold intervalSize
      rw [if_pos hsingle]
      exact wrap_of_mem (by omega) (by omega)
    have hall := allIntervals_of_one hmin hle (by omega) hoffset (hN.trans hbucketN)
    rw [hsize, add_sub_cancel, wrap_of_mem (by omega) (by omega)] at hall
    have hcovers := @IntervalState.covers_single_iff _ _ q.interval hall hmin hle
      (by show q.qmax < _; omega) (fun h => absurd h (lt_irrefl _))
    rw [hcovers, hbucketN]
    unfold Inclusive maxGroupByPoints
    unfold single at hsingle
    show _ ∧ (q.qmax < q.qmax ∨ q.qmin = q.qmax) ↔ _
    omega
  · unfold single at hsingle
    have hmin' : 0 < q.qmin := by omega
    have hpos : 0 < q.interval := by omega
    have hB := bucketN_eq hmin' hle (by omega) hpos (buckets_mul_lt hmin' hle hmax hpos hinterval')
    rw [hB]
    rw [hB] at hN
    have hBpos := buckets_pos hle hpos
    unfold Inclusive
    by_cases hmany : 1 < q.buckets
    · have hcovers := covers_of_many hmin' hle hmax hpos hoffset hN hmany
      obtain ⟨hinterval, hne⟩ := of_many hmin' hpos hmany
      constructor
      · exact fun h => .inr ⟨hmin'.ne', hpos.ne', h.1, by omega⟩
      · exact fun h => ⟨by omega, hcovers⟩
    · have hone : q.buckets = 1 := by omega
      have hall := allIntervals_of_one hmin hle (by omega) hoffset (hN.trans hone)
      have hsize : q.intervalSize = q.interval := if_neg (by unfold single; omega)
      have hcovers := @IntervalState.covers_single_iff _ _ q.interval hall hmin hle
        (by show q.qmax < _; omega) (fun _ _ => by
          show q.qmin / _ = q.qmax / _
          unfold buckets at hone
          omega)
      rw [hcovers, hone, hsize]
      show 1 ≤ 100000 ∧ (q.qmax < _ ∨ q.qmin = q.qmax) ↔ _
      by_cases hfit : q.qmin + q.interval < 2 ^ 63
      · rw [wrap_of_mem (by omega) hfit]
        have : q.qmax < q.qmin + q.interval := lt_add_of_one hpos hone
        unfold maxGroupByPoints
        omega
      · rw [wrap_of_ge (by omega) (by omega)]
        omega

theorem complete_five : (⟨1, 10, 5, 0, 0⟩ : AggregateQuery).Complete :=
  (complete_iff_inclusive ⟨1, 10, 5, 0, 0⟩ (by decide) (by decide) (by decide) (by decide) (by decide) rfl
    rfl).mpr (by decide)

/-- Of points at the times `1` and `10`, the query of `[1, 10]` without `GROUP BY` sees the
first. -/
theorem not_complete_no_interval : ¬(⟨1, 10, 0, 0, 0⟩ : AggregateQuery).Complete ∧
      (((⟨1, 10, 0, 0, 0⟩ : AggregateQuery).openMapper [⟨"", [[(1, ()), (10, ())]]⟩]).toOption.bind
        (fun m => (m.chunks [some] 3).map (fun outputs => outputs.map (fun output => output.values)))) =
          some [[[[(1, ())]]]] := by
  constructor
  · rw [complete_iff rfl rfl]
    rintro ⟨-, h⟩
    have hall : (⟨1, 10, 0, 0, 0⟩ : AggregateQuery).state.allIntervals = [(1, 10)] := by
      decide
    have hlast : ¬(⟨1, 10, 0, 0, 0⟩ : AggregateQuery).state.Reads (1, 10) 10 := by
      decide
    obtain ⟨r, hr, hreads⟩ := h.reads (t := 10) (by decide) (by decide)
    rw [hall, mem_singleton] at hr
    rw [hr] at hreads
    exact hlast hreads
  · decide

end AggregateQuery

end AndyEnv.Tsdb
