import AndyEnv.Tsdb.AggregateIntervals

/-!
# Limits of an aggregate query

`LIMIT` and `OFFSET` should select some of the intervals that the query has without them.
`Open` makes the limit the number of intervals first, and aligns the first interval to the
buckets only if there is more than one.
-/

namespace AndyEnv.Tsdb

open List

/-- A list of starts that go up is cut at the first that is not in the range. -/
theorem takeWhile_map_range' (p : ℤ → Bool) (start : ℕ → ℤ) {B : ℕ} (hin : ∀ k < B, p (start k) = true)
    (hstop : p (start B) = false) (n : ℕ) : ∀ o ≤ B,
    ((List.range' o n).map start).takeWhile p = (List.range' o (min n (B - o))).map start := by
  induction n with
  | zero =>
    intro o ho
    rw [zero_min]
    rfl
  | succ n ih =>
    intro o ho
    rw [range'_succ, map_cons, takeWhile_cons]
    rcases lt_or_eq_of_le ho with hlt | rfl
    · have hmin : min (n + 1) (B - o) = min n (B - (o + 1)) + 1 := by omega
      rw [if_pos (hin o hlt), ih (o + 1) hlt, hmin, range'_succ, map_cons]
    · rw [hstop, Nat.sub_self, Nat.min_zero]
      rfl

namespace AggregateQuery

variable {V W : Type} {q : AggregateQuery}

def unlimited (q : AggregateQuery) : AggregateQuery := { q with limit := 0, offset := 0 }

/-- What the limits should leave of the intervals of a tag set. -/
def select {α : Type} (q : AggregateQuery) (outputs : List α) : List α :=
  if q.limit = 0 then outputs.drop q.offset.toNat else (outputs.drop q.offset.toNat).take q.limit.toNat

/-- **The limits only select intervals**: of each tag set the query delivers those that the limits leave
of what it delivers without them. -/
def Selects (q : AggregateQuery) : Prop :=
  ∀ {V W : Type} (picks : List (V → Option W)) (cursors : List (CursorSet V)) (all : List (MapperOutput W)),
    q.unlimited.Delivers picks cursors all →
    ∃ outputs : CursorSet V → List (MapperOutput W), all = cursors.flatMap outputs ∧
      (∀ c, ∀ output ∈ outputs c, output.cursorKey = c.key) ∧
      q.Delivers picks cursors (cursors.flatMap (fun c => q.select (outputs c)))

/-! ## The starts of the intervals -/

/-- The offset is higher than the number of intervals. -/
def beyond (q : AggregateQuery) : Prop := q.hasLimit ∧ q.bucketN < q.offset

instance (q : AggregateQuery) : Decidable q.beyond := inferInstanceAs (Decidable (_ ∧ _))

def starts (q : AggregateQuery) : List ℤ :=
  if q.beyond then []
  else ((List.range q.intervalN.toNat).map q.state.start).takeWhile (fun t => 0 ≤ t ∧ t ≤ q.qmax)

def delivered (q : AggregateQuery) (picks : List (V → Option W)) (c : CursorSet V) : List (MapperOutput W) :=
  q.starts.map (fun t => q.state.chunk picks (t, wrap (t + q.intervalSize)) c)

theorem delivers_iff_delivered (hN : q.intervalN ≤ maxGroupByPoints) (picks : List (V → Option W))
    (cursors : List (CursorSet V)) (outputs : List (MapperOutput W)) :
    q.Delivers picks cursors outputs ↔ outputs = cursors.flatMap (q.delivered picks) := by
  rw [delivers_iff, openMapper]
  by_cases hbeyond : q.beyond
  · have hnil : cursors.flatMap (q.delivered picks) = [] := by
      rw [flatMap_eq_nil_iff]
      intro c _
      rw [delivered, starts, if_pos hbeyond, map_nil]
    unfold beyond at hbeyond
    rw [if_pos hbeyond, hnil]
    constructor
    · rintro ⟨m, hm, rfl⟩
      rw [← Except.ok.inj hm]
      rfl
    · rintro rfl
      exact ⟨_, rfl, rfl⟩
  · have houtputs : q.state.outputs picks = q.delivered picks := by
      funext c
      rw [IntervalState.outputs, IntervalState.allIntervals_eq, map_map, delivered, starts, if_neg hbeyond]
      rfl
    unfold beyond at hbeyond
    rw [if_neg hbeyond, if_neg (not_lt.mpr hN), ← houtputs]
    constructor
    · rintro ⟨m, hm, rfl⟩
      rw [← Except.ok.inj hm]
      rfl
    · rintro rfl
      exact ⟨_, rfl, rfl⟩

theorem select_map {α β : Type} (f : α → β) (xs : List α) : q.select (xs.map f) = (q.select xs).map f := by
  unfold select
  split
  · rw [map_drop]
  · rw [map_take, map_drop]

theorem selects_iff_starts (hN : q.intervalN ≤ q.unlimited.intervalN) :
    q.Selects ↔ (q.unlimited.intervalN ≤ maxGroupByPoints → q.starts = q.select q.unlimited.starts) := by
  have htimes : ∀ q : AggregateQuery, ∀ c : CursorSet Unit,
      (q.delivered ([] : List (Unit → Option Unit)) c).map MapperOutput.time = q.starts := by
    intro q c
    rw [delivered, map_map]
    exact map_id _
  constructor
  · intro h hopens
    obtain ⟨outputs, hall, -, hdelivers⟩ := h ([] : List (Unit → Option Unit)) [⟨"", []⟩] _
      ((delivers_iff_delivered hopens _ _ _).mpr rfl)
    rw [delivers_iff_delivered (hN.trans hopens)] at hdelivers
    simp only [flatMap_cons, flatMap_nil, append_nil] at hall hdelivers
    rw [← htimes q ⟨"", []⟩, ← hdelivers, ← hall, ← select_map, htimes]
  · intro h V W picks cursors all hall
    by_cases hopens : q.unlimited.intervalN ≤ maxGroupByPoints
    · rw [delivers_iff_delivered hopens] at hall
      refine ⟨q.unlimited.delivered picks, hall, ?_, ?_⟩
      · intro c output houtput
        obtain ⟨t, -, rfl⟩ := mem_map.mp houtput
        rfl
      · rw [delivers_iff_delivered (hN.trans hopens)]
        have hc : (fun c => q.select (q.unlimited.delivered picks c)) = q.delivered picks := by
          funext c
          rw [delivered, select_map, ← h hopens]
          rfl
        rw [hc]
    · obtain ⟨m, hm, -⟩ := (delivers_iff _ _ _ _).mp hall
      rw [openMapper_of_no_limit rfl rfl, ← intervalN_of_no_limit rfl rfl, if_pos (not_le.mp hopens)] at hm
      exact (nomatch hm)

/-! ## The starts in the buckets -/

def startFrom (q : AggregateQuery) (w : ℤ) (k : ℕ) : ℤ := wrap (w + k * q.interval)

/-- Where the first interval should begin: the range begins in this bucket. -/
def window (q : AggregateQuery) : ℤ := if 1 < q.buckets then q.qmin / q.interval * q.interval else q.qmin

theorem startFrom_window (hmin : 0 < q.qmin) (hle : q.qmin ≤ q.qmax) (hmax : q.qmax < 2 ^ 63) (hpos : 0 < q.interval)
    {k : ℕ} (hk : k < q.buckets.toNat) :
    q.startFrom q.window k = q.window + k * q.interval ∧ 0 ≤ q.startFrom q.window k ∧
      q.startFrom q.window k ≤ q.qmax := by
  have hB := buckets_pos hle hpos
  have hmem : 0 ≤ q.window + k * q.interval ∧ q.window + k * q.interval ≤ q.qmax := by
    unfold window
    split
    · obtain ⟨h0, h1, -⟩ := bucket_mem (k := q.qmin / q.interval + k) hmin hpos (by omega) (by
        unfold buckets at hk
        omega)
      rw [add_mul] at h0 h1
      exact ⟨h0, h1⟩
    · obtain rfl : k = 0 := by omega
      rw [Nat.cast_zero, zero_mul, add_zero]
      exact ⟨hmin.le, hle⟩
  have hwrap : q.startFrom q.window k = q.window + k * q.interval := wrap_of_mem (by omega) (by omega)
  rw [hwrap]
  exact ⟨rfl, hmem⟩

theorem start_eq_startFrom (hsize : q.intervalSize = q.interval) (hoffset : 0 ≤ q.offset) (i : ℕ) :
    q.state.start i = q.startFrom q.qminWindow (q.offset.toNat + i) := by
  rw [IntervalState.start_eq, startFrom, Nat.cast_add, Int.toNat_of_nonneg hoffset, add_comm q.offset]
  unfold state
  rw [hsize]

theorem starts_of_nonpos (h : q.intervalN ≤ 0) : q.starts = [] := by
  unfold starts
  split
  · rfl
  · rw [Int.toNat_of_nonpos h]
    rfl

theorem qminWindow_eq (hmin : 0 < q.qmin) (hmax : q.qmin < 2 ^ 63) (hpos : 0 < q.interval) :
    q.qminWindow = if 1 < q.intervalN then q.qmin / q.interval * q.interval else q.qmin := by
  have hsize : q.intervalSize = q.interval := if_neg (by unfold single; omega)
  have h1 := Int.ediv_mul_le q.qmin hpos.ne'
  have h2 := Int.mul_nonneg (Int.ediv_nonneg hmin.le hpos.le) hpos.le
  unfold qminWindow
  rw [hsize, Int.tdiv_eq_ediv_of_nonneg hmin.le, wrap_of_mem (by omega) (by omega)]
  simp only [hpos, true_and]

theorem select_buckets (F : ℕ → ℤ) (n : ℕ) : q.select ((List.range' 0 n).map F) =
      (List.range' q.offset.toNat
        (if q.limit = 0 then n - q.offset.toNat else min q.limit.toNat (n - q.offset.toNat))).map F := by
  rw [select_map]
  unfold select
  split
  · rw [drop_range', mul_one, zero_add]
  · rw [drop_range', mul_one, zero_add, range'_eq_map_range, ← map_take,
      take_range, ← range'_eq_map_range]

/-! ## When the limits only select -/

/-- There is a limit of two or more, or one interval that begins where its bucket begins; or there is
nothing to select. (Where the number of buckets overflows there are no intervals at all.) -/
def KeepsWindow (q : AggregateQuery) : Prop :=
  2 ≤ q.limit ∨ (q.limit = 1 ∧ (q.buckets = 1 ∨ q.interval ∣ q.qmin)) ∨ (q.limit = 0 ∧ q.offset = 0) ∨
    q.buckets ≤ q.offset

theorem map_range'_inj {F : ℕ → ℤ} {o n n' : ℕ} :
    (List.range' o n).map F = (List.range' o n').map F ↔ n = n' := by
  constructor
  · intro h
    have := congrArg List.length h
    rwa [length_map, length_map, length_range', length_range'] at this
  · rintro rfl
    rfl

section Buckets

variable (hmin : 0 < q.qmin) (hle : q.qmin ≤ q.qmax) (hmax : q.qmax < 2 ^ 63) (hpos : 0 < q.interval)
  (hfit : q.buckets * q.interval < 2 ^ 63)

include hmin hle hmax hpos hfit

theorem startFrom_beyond {w : ℤ} (hw : q.qmin / q.interval * q.interval ≤ w) (hw' : w ≤ q.qmin) :
    decide (0 ≤ q.startFrom w q.buckets.toNat ∧ q.startFrom w q.buckets.toNat ≤ q.qmax) = false := by
  have hB := buckets_pos hle hpos
  have hlast := Int.lt_ediv_add_one_mul_self q.qmax hpos
  have hnonneg := Int.mul_nonneg (Int.ediv_nonneg hmin.le hpos.le) hpos.le
  have hsum : q.buckets * q.interval =
      (q.qmax / q.interval + 1) * q.interval - q.qmin / q.interval * q.interval := by
    unfold buckets
    ring
  rw [startFrom, Int.toNat_of_nonneg hB.le]
  apply decide_eq_false
  by_cases hover : w + q.buckets * q.interval < 2 ^ 63
  · rw [wrap_of_mem (by omega) hover]
    omega
  · rw [wrap_of_ge (by omega) (by omega)]
    omega

/-- **The starts of a query** whose first interval begins where it should. -/
theorem starts_of_window (hoffset : 0 ≤ q.offset) (hoffset' : q.offset ≤ q.buckets)
    (hwindow : q.qminWindow = q.window) :
    q.starts = (List.range' q.offset.toNat (min q.intervalN.toNat (q.buckets.toNat - q.offset.toNat))).map
      (q.startFrom q.window) := by
  have hB := bucketN_eq hmin hle hmax hpos hfit
  have hsize : q.intervalSize = q.interval := if_neg (by unfold single; omega)
  have hstart : (List.range q.intervalN.toNat).map q.state.start =
      (List.range' q.offset.toNat q.intervalN.toNat).map (q.startFrom q.window) := by
    rw [range'_eq_map_range, map_map]
    apply map_congr_left
    intro i _
    rw [start_eq_startFrom hsize hoffset, hwindow]
    rfl
  have hbase := Int.ediv_mul_le q.qmin hpos.ne'
  rw [starts, if_neg (by unfold beyond; omega), hstart]
  refine takeWhile_map_range' _ _ ?_ (startFrom_beyond hmin hle hmax hpos hfit ?_ ?_) _ _ (by omega)
  · intro k hk
    exact decide_eq_true (startFrom_window hmin hle hmax hpos hk).2
  · unfold window
    split <;> omega
  · unfold window
    split <;> omega

theorem unlimited_starts : q.unlimited.starts = (List.range' 0 q.buckets.toNat).map (q.startFrom q.window) := by
  have hN : q.unlimited.intervalN = q.buckets :=
    (intervalN_of_no_limit rfl rfl).trans (bucketN_eq (q := q.unlimited) hmin hle hmax hpos hfit)
  have hwindow : q.unlimited.qminWindow = q.unlimited.window := by
    rw [qminWindow_eq (q := q.unlimited) hmin (hle.trans_lt hmax) hpos, hN]
    rfl
  have h := starts_of_window (q := q.unlimited) hmin hle hmax hpos hfit le_rfl (buckets_pos hle hpos).le hwindow
  rw [hN] at h
  rw [h]
  show (List.range' 0 (min q.buckets.toNat (q.buckets.toNat - 0))).map _ = _
  rw [Nat.sub_zero, min_self]
  rfl

/-- A single interval that does not begin with its bucket is not one of the buckets. -/
theorem starts_ne_of_one (hoffset : 0 ≤ q.offset) (hoffset' : q.offset < q.buckets)
    (hN : q.intervalN = 1) (hmany : 1 < q.buckets) (hdvd : ¬q.interval ∣ q.qmin) :
    q.starts ≠ [q.startFrom q.window q.offset.toNat] := by
  intro h
  have hsize : q.intervalSize = q.interval := if_neg (by unfold single; omega)
  have hB := bucketN_eq hmin hle hmax hpos hfit
  have hne : q.qmin / q.interval * q.interval ≠ q.qmin := fun h => hdvd (Dvd.intro_left _ h)
  obtain ⟨hstart, h0, hlast⟩ := startFrom_window (k := q.offset.toNat) hmin hle hmax hpos (by omega)
  have hmem : q.startFrom q.window q.offset.toNat ∈ (List.range q.intervalN.toNat).map q.state.start := by
    have hmem : q.startFrom q.window q.offset.toNat ∈ q.starts := by
      rw [h]
      exact mem_singleton_self _
    rw [starts, if_neg (by unfold beyond; omega)] at hmem
    exact takeWhile_subset _ hmem
  obtain ⟨i, hi, heq⟩ := mem_map.mp hmem
  rw [hN, mem_range] at hi
  obtain rfl : i = 0 := by
    change i < 1 at hi
    omega
  rw [start_eq_startFrom hsize hoffset, hstart, qminWindow_eq hmin (by omega) hpos, hN, if_neg (lt_irrefl _),
    add_zero, startFrom] at heq
  rw [hstart] at h0
  have hmul : 0 ≤ (q.offset.toNat : ℤ) * q.interval ∧
      (q.offset.toNat : ℤ) * q.interval ≤ q.buckets * q.interval := by
    refine ⟨Int.mul_nonneg (Int.natCast_nonneg _) hpos.le, ?_⟩
    exact Int.mul_le_mul_of_nonneg_right (by omega) hpos.le
  unfold window at heq h0
  rw [if_pos hmany] at heq h0
  by_cases hover : q.qmin + q.offset.toNat * q.interval < 2 ^ 63
  · rw [wrap_of_mem (by omega) hover] at heq
    omega
  · rw [wrap_of_ge (by omega) (by omega)] at heq
    omega

/-- A single interval after the last bucket is not delivered. -/
theorem starts_of_last (hoffset : q.offset = q.buckets) (hN : q.intervalN = 1) : q.starts = [] := by
  have hsize : q.intervalSize = q.interval := if_neg (by unfold single; omega)
  have hB := buckets_pos hle hpos
  have hstart : q.state.start 0 = q.startFrom q.qmin q.buckets.toNat := by
    rw [start_eq_startFrom hsize (by omega), qminWindow_eq hmin (by omega) hpos, hN, if_neg (lt_irrefl _), hoffset,
      add_zero]
  have hstop := startFrom_beyond hmin hle hmax hpos hfit (Int.ediv_mul_le q.qmin hpos.ne') le_rfl
  unfold starts
  split
  · rfl
  rw [hN]
  show List.takeWhile _ [q.state.start 0] = []
  rw [hstart, takeWhile_cons_of_neg]
  rw [hstop]
  exact Bool.false_ne_true

theorem starts_eq_select_iff (hlimit : 0 ≤ q.limit) (hoffset : 0 ≤ q.offset) :
    q.starts = q.select q.unlimited.starts ↔ q.KeepsWindow := by
  have hB := buckets_pos hle hpos
  have hbucketN := bucketN_eq hmin hle hmax hpos hfit
  have hN : q.intervalN = if (0 < q.limit ∨ 0 < q.offset) ∧ q.limit < q.buckets then q.limit else q.buckets := by
    unfold intervalN
    rw [hbucketN]
    exact if_congr Iff.rfl rfl rfl
  have hwindow := qminWindow_eq hmin (hle.trans_lt hmax) hpos
  rw [unlimited_starts hmin hle hmax hpos hfit, select_buckets]
  unfold KeepsWindow
  by_cases hbeyond : q.buckets < q.offset
  · -- the offset is beyond the last bucket
    have hnone : q.starts = [] := if_pos ⟨.inr (by omega), by omega⟩
    rw [hnone]
    refine iff_of_true ?_ (by omega)
    have hlen : (if q.limit = 0 then q.buckets.toNat - q.offset.toNat
        else min q.limit.toNat (q.buckets.toNat - q.offset.toNat)) = 0 := by
      split <;> omega
    rw [hlen]
    rfl
  · by_cases hkept : q.qminWindow = q.window
    · -- the buckets are as without limits
      rw [starts_of_window hmin hle hmax hpos hfit hoffset (by omega) hkept, map_range'_inj]
      have hsingle : q.limit = 1 → q.buckets = 1 ∨ q.interval ∣ q.qmin := by
        intro hlimit1
        by_cases hmany : 1 < q.buckets
        · have hN1 : q.intervalN = 1 := by
            rw [hN, if_pos ⟨by omega, by omega⟩, hlimit1]
          rw [hwindow, hN1, if_neg (lt_irrefl _), window, if_pos hmany] at hkept
          exact .inr (Dvd.intro_left _ hkept.symm)
        · exact .inl (by omega)
      by_cases hzero : q.limit = 0
      · rw [if_pos hzero]
        split at hN <;> omega
      · rw [if_neg hzero]
        split at hN <;> omega
    · -- at most one interval is left, and there are more buckets
      have hfew : q.intervalN ≤ 1 ∧ 1 < q.buckets ∧ ¬q.interval ∣ q.qmin := by
        rw [hwindow, window] at hkept
        by_cases hmany : 1 < q.buckets
        · rw [if_pos hmany] at hkept
          by_cases hN1 : 1 < q.intervalN
          · exact absurd (if_pos hN1) hkept
          · rw [if_neg hN1] at hkept
            exact ⟨not_lt.mp hN1, hmany, fun h => hkept (Int.ediv_mul_cancel h).symm⟩
        · rw [if_neg hmany] at hkept
          have hN1 : ¬1 < q.intervalN := by
            split at hN <;> omega
          exact absurd (if_neg hN1) hkept
      obtain ⟨hone, hmany, hdvd⟩ := hfew
      by_cases hzero : q.limit = 0
      · have hnone : q.intervalN ≤ 0 := by
          split at hN <;> omega
        rw [starts_of_nonpos hnone, if_pos hzero, eq_comm, map_eq_nil_iff, range'_eq_nil_iff]
        omega
      have hlimit1 : q.limit = 1 ∧ q.intervalN = 1 := by
        split at hN <;> omega
      have hlimit1' : q.limit.toNat = 1 := by omega
      rw [if_neg hzero, hlimit1']
      rcases lt_or_eq_of_le (not_lt.mp hbeyond) with hlt | heq
      · have hlen : min 1 (q.buckets.toNat - q.offset.toNat) = 1 := by omega
        rw [hlen]
        refine iff_of_false ?_ (by omega)
        exact starts_ne_of_one hmin hle hmax hpos hfit hoffset hlt hlimit1.2 hmany hdvd
      · have hlen : min 1 (q.buckets.toNat - q.offset.toNat) = 0 := by omega
        rw [hlen]
        exact iff_of_true (starts_of_last hmin hle hmax hpos hfit heq hlimit1.2) (by omega)

end Buckets

/-- **`LIMIT` and `OFFSET` only select intervals if and only if** the limit keeps the window, or the query
without them has no intervals: they are too many, or their number overflows. -/
theorem selects_iff (q : AggregateQuery) (hmin : 0 < q.qmin) (hle : q.qmin ≤ q.qmax) (hmax : q.qmax < 2 ^ 63)
    (hpos : 0 < q.interval) (hinterval : q.interval < 2 ^ 63) (hlimit : 0 ≤ q.limit) (hoffset : 0 ≤ q.offset) :
    q.Selects ↔ q.KeepsWindow ∨ maxGroupByPoints < q.buckets ∨ 2 ^ 63 ≤ q.buckets * q.interval := by
  have hN : q.unlimited.intervalN = q.bucketN := intervalN_of_no_limit rfl rfl
  have hle' : q.intervalN ≤ q.unlimited.intervalN := by
    rw [hN]
    unfold intervalN
    split <;> omega
  rw [selects_iff_starts hle', hN]
  by_cases hfit : q.buckets * q.interval < 2 ^ 63
  · rw [bucketN_eq hmin hle hmax hpos hfit, starts_eq_select_iff hmin hle hmax hpos hfit hlimit hoffset]
    constructor
    · intro h
      by_cases hmany : maxGroupByPoints < q.buckets
      · exact .inr (.inl hmany)
      · exact .inl (h (not_lt.mp hmany))
    · rintro (h | h | h) hopens
      · exact h
      · exact absurd hopens (not_le.mpr h)
      · exact absurd hfit (not_lt.mpr h)
  · refine iff_of_true (fun _ => ?_) (.inr (.inr (not_lt.mp hfit)))
    have hnone := bucketN_nonpos hmin hle hmax hpos hinterval (not_lt.mp hfit)
    rw [starts_of_nonpos (hle'.trans (hN.trans_le hnone)), starts_of_nonpos (hN.trans_le hnone)]
    unfold select
    rw [drop_nil, take_nil, ite_self]

theorem selects_two : (⟨7, 40, 5, 2, 3⟩ : AggregateQuery).Selects :=
  (selects_iff ⟨7, 40, 5, 2, 3⟩ (by decide) (by decide) (by decide) (by decide) (by decide) (by decide)
    (by decide)).mpr (.inl (.inl (by decide)))

/-- The range `[7, 40]` has eight buckets of size `5`. With `LIMIT 1` the interval begins at `7`, and with
an offset but no limit there is none. -/
theorem limits_not_selection :
    (⟨7, 40, 5, 0, 0⟩ : AggregateQuery).starts = [5, 10, 15, 20, 25, 30, 35, 40] ∧
      ((⟨7, 40, 5, 1, 0⟩ : AggregateQuery).starts = [7] ∧ ¬(⟨7, 40, 5, 1, 0⟩ : AggregateQuery).Selects) ∧
      ((⟨7, 40, 5, 0, 1⟩ : AggregateQuery).starts = [] ∧ ¬(⟨7, 40, 5, 0, 1⟩ : AggregateQuery).Selects) := by
  refine ⟨by decide, ⟨by decide, fun h => ?_⟩, by decide, fun h => ?_⟩
  · have heq := (selects_iff_starts (by decide)).mp h (by decide)
    exact absurd heq (by decide)
  · have heq := (selects_iff_starts (by decide)).mp h (by decide)
    exact absurd heq (by decide)

end AggregateQuery

end AndyEnv.Tsdb
