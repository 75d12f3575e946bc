import AndyEnv.Lib.Wrap

/-!
# Aggregate queries (`aggregate.go`)

An `AggregateMapper` cuts the time range of a query into intervals. For each tag set
and each interval `NextChunk` reads the points of the interval from the cursors of
the tag set.

A cursor is the list of its points, ascending in time, and `SeekTo` finds the first
of them that is not before the given time. What the map function, the filter and the
field make of a value is a parameter.
-/

namespace AndyEnv.Tsdb

open List Option

def maxGroupByPoints : ℤ := 100000

inductive AggregateError : Type
  | tooManyPoints
deriving DecidableEq, Repr

/-- What the mapper takes from the statement: the time range, with `qmax` in it, the `GROUP BY`
interval, and the limits. -/
structure AggregateQuery : Type where
  qmin : ℤ
  qmax : ℤ
  interval : ℤ
  limit : ℤ
  offset : ℤ
deriving DecidableEq, Repr

structure CursorSet (V : Type) : Type where
  key : String
  cursors : List (List (ℤ × V))

/-- What `NextChunk` returns: for each cursor and each map function the items of the interval. -/
structure MapperOutput (W : Type) : Type where
  cursorKey : String
  time : ℤ
  values : List (List (List (ℤ × W)))

/-- The fields of the mapper that say where it is in the time range. -/
structure IntervalState : Type where
  qmin : ℤ
  qmax : ℤ
  offset : ℤ
  interval : ℤ
  intervalN : ℤ
  intervalSize : ℤ
  qminWindow : ℤ
deriving DecidableEq, Repr

structure AggregateMapper (V : Type) : Type where
  state : IntervalState
  /-- The tag sets that are left. -/
  cursors : List (CursorSet V)

namespace AggregateQuery

variable (q : AggregateQuery)

/-- There is one interval. -/
def single : Prop := q.qmin = 0 ∨ q.interval = 0

instance : Decidable q.single := inferInstanceAs (Decidable (_ ∨ _))

def bucketN : ℤ :=
  if q.single then 1
  else
    let intervalTop := wrap (wrap (q.qmax.tdiv q.interval * q.interval) + q.interval)
    let intervalBottom := wrap (q.qmin.tdiv q.interval * q.interval)
    (wrap (intervalTop - intervalBottom)).tdiv q.interval

def intervalSize : ℤ := if q.single then wrap (q.qmax - q.qmin) else q.interval

def hasLimit : Prop := 0 < q.limit ∨ 0 < q.offset

instance : Decidable q.hasLimit := inferInstanceAs (Decidable (_ ∨ _))

def intervalN : ℤ := if q.hasLimit ∧ q.limit < q.bucketN then q.limit else q.bucketN

def qminWindow : ℤ :=
  if 0 < q.intervalSize ∧ 1 < q.intervalN then wrap (q.qmin.tdiv q.intervalSize * q.intervalSize)
  else q.qmin

/-- `Open`. -/
def openMapper {V : Type} (cursors : List (CursorSet V)) : Except AggregateError (AggregateMapper V) :=
  -- the offset is higher than the number of points we'd get
  if q.hasLimit ∧ q.bucketN < q.offset then
    .ok ⟨⟨q.qmin, q.qmax, q.offset, 0, q.bucketN, q.intervalSize, 0⟩, []⟩
  else if maxGroupByPoints < q.intervalN then .error .tooManyPoints
  else .ok ⟨⟨q.qmin, q.qmax, q.offset, 0, q.intervalN, q.intervalSize, q.qminWindow⟩, cursors⟩

end AggregateQuery

namespace IntervalState

variable {V W : Type}
variable {m : IntervalState}

/-- `nextInterval`; it is over if the start is negative. -/
def nextInterval (m : IntervalState) : (ℤ × ℤ) × IntervalState :=
  let t := wrap (m.qminWindow + wrap ((m.interval + m.offset) * m.intervalSize))
  let m := { m with interval := m.interval + 1 }
  if t > m.qmax ∨ m.interval > m.intervalN then ((-1, 1), m)
  else ((t, wrap (t + m.intervalSize)), m)

def intervals : ℕ → IntervalState → List (ℤ × ℤ)
  | 0, _ => []
  | fuel + 1, m =>
    let r := m.nextInterval
    if r.1.1 < 0 then [] else r.1 :: intervals fuel r.2

/-- All intervals: after `intervalN` of them it is over. -/
def allIntervals (m : IntervalState) : List (ℤ × ℤ) :=
  { m with interval := 0 }.intervals (m.intervalN.toNat + 1)

def readItems (pick : V → Option W) (tmin tmax : ℤ) : List (ℤ × V) → List (ℤ × W)
  | [] => []
  | (t, v) :: points =>
    -- we're done if the point is outside the time range
    if t ≠ tmin ∧ (t < tmin ∨ tmax ≤ t) then []
    else
      match pick v with
      | none => readItems pick tmin tmax points
      | some w => (t, w) :: readItems pick tmin tmax points

def readMapItems (pick : V → Option W) (seek tmin tmax : ℤ) (cursor : List (ℤ × V)) : List (ℤ × W) :=
  readItems pick tmin tmax (cursor.dropWhile (fun p => p.1 < seek))

def chunkItems (m : IntervalState) (pick : V → Option W) (interval : ℤ × ℤ)
    (cursor : List (ℤ × V)) : List (ℤ × W) :=
  let qmin := if interval.1 < m.qmin then m.qmin else interval.1
  let qmax := if interval.2 > m.qmax then wrap (m.qmax + 1) else interval.2
  readMapItems pick qmin qmin qmax cursor

def chunk (m : IntervalState) (picks : List (V → Option W)) (interval : ℤ × ℤ) (c : CursorSet V) :
    MapperOutput W :=
  ⟨c.key, interval.1, c.cursors.map (fun cursor => picks.map (fun pick => m.chunkItems pick interval cursor))⟩

theorem nextInterval_snd (m : IntervalState) : m.nextInterval.2 = { m with interval := m.interval + 1 } := by
  unfold nextInterval
  dsimp only
  split <;> rfl

theorem nextInterval_done (h : m.intervalN ≤ m.interval) : m.nextInterval.1.1 < 0 := by
  unfold nextInterval
  dsimp only
  rw [if_pos (.inr (by omega))]
  exact Int.negSucc_lt_zero 0

theorem intervals_of_done (h : m.nextInterval.1.1 < 0) (fuel : ℕ) :
    m.intervals (fuel + 1) = [] := if_pos h

theorem intervals_of_next (h : ¬m.nextInterval.1.1 < 0) (fuel : ℕ) :
    m.intervals (fuel + 1) = m.nextInterval.1 :: m.nextInterval.2.intervals fuel := if_neg h

def start (m : IntervalState) (i : ℕ) : ℤ := wrap (m.qminWindow + wrap ((i + m.offset) * m.intervalSize))

theorem start_eq (m : IntervalState) (i : ℕ) :
    m.start i = wrap (m.qminWindow + (i + m.offset) * m.intervalSize) := wrap_add_wrap _ _

theorem nextInterval_at {i : ℕ} (hi : m.interval = i) : m.nextInterval.1 =
      if m.start i > m.qmax ∨ m.intervalN ≤ i then (-1, 1) else (m.start i, wrap (m.start i + m.intervalSize)) := by
  unfold nextInterval start
  dsimp only
  rw [hi]
  by_cases h : m.intervalN ≤ i
  · rw [if_pos (.inr (by omega)), if_pos (.inr h)]
  · by_cases ht : wrap (m.qminWindow + wrap ((i + m.offset) * m.intervalSize)) > m.qmax
    · rw [if_pos (.inl ht), if_pos (.inl ht)]
    · rw [if_neg (by omega), if_neg (by omega)]

theorem intervals_eq (n : ℕ) : ∀ (m : IntervalState) (i : ℕ), m.interval = i → (m.intervalN - i).toNat = n →
    m.intervals (n + 1) =
      (((List.range' i n).map m.start).takeWhile (fun t => 0 ≤ t ∧ t ≤ m.qmax)).map
        (fun t => (t, wrap (t + m.intervalSize))) := by
  induction n with
  | zero =>
    intro m i hi hn
    exact intervals_of_done (nextInterval_done (by omega)) 0
  | succ n ih =>
    intro m i hi hn
    have hnext := nextInterval_at hi
    rw [range'_succ, map_cons, takeWhile_cons]
    by_cases hin : 0 ≤ m.start i ∧ m.start i ≤ m.qmax
    · rw [if_neg (by omega)] at hnext
      rw [if_pos (by rw [decide_eq_true_eq]; exact hin),
        intervals_of_next (by rw [hnext]; exact not_lt.mpr hin.1), hnext, m.nextInterval_snd,
        ih _ (i + 1) (by rw [hi]; rfl) (by dsimp only; omega)]
      rfl
    · have hdone : m.nextInterval.1.1 < 0 := by
        rw [hnext]
        split
        · exact Int.negSucc_lt_zero 0
        · show m.start i < 0
          omega
      rw [if_neg (by rw [decide_eq_true_eq]; exact hin), intervals_of_done hdone]
      rfl

/-- **The intervals of a mapper**: their starts go up until one of them is not in the time range. -/
theorem allIntervals_eq (m : IntervalState) : m.allIntervals =
      (((List.range m.intervalN.toNat).map m.start).takeWhile (fun t => 0 ≤ t ∧ t ≤ m.qmax)).map
        (fun t => (t, wrap (t + m.intervalSize))) := by
  rw [range_eq_range']
  exact intervals_eq m.intervalN.toNat _ 0 rfl (by dsimp only; omega)

end IntervalState

namespace AggregateMapper

variable {V W : Type}

/-- The loop of `NextChunk`, over the tag sets that are left. -/
def nextChunkOf (picks : List (V → Option W)) :
    List (CursorSet V) → IntervalState → Option (MapperOutput W) × AggregateMapper V
  | [], m => (none, ⟨m, []⟩)
  | c :: rest, m =>
    let r := m.nextInterval
    if r.1.1 < 0 then nextChunkOf picks rest { r.2 with interval := 0 }
    else (some (r.2.chunk picks r.1 c), ⟨r.2, c :: rest⟩)

def nextChunk (picks : List (V → Option W)) (m : AggregateMapper V) :
    Option (MapperOutput W) × AggregateMapper V := nextChunkOf picks m.cursors m.state

/-- `NextChunk` until it returns nil; `none` if the fuel does not suffice. -/
def chunks (picks : List (V → Option W)) : ℕ → AggregateMapper V → Option (List (MapperOutput W))
  | 0, _ => none
  | fuel + 1, m =>
    match nextChunk picks m with
    | (none, _) => some []
    | (some output, m) => (chunks picks fuel m).map (output :: ·)

/-! ## The chunks of a mapper -/

theorem chunks_of_done (picks : List (V → Option W)) {m : IntervalState} (c : CursorSet V)
    (rest : List (CursorSet V)) (hdone : m.nextInterval.1.1 < 0) :
    ∀ fuel, chunks picks fuel ⟨m, c :: rest⟩ = chunks picks fuel ⟨{ m with interval := 0 }, rest⟩
  | 0 => rfl
  | fuel + 1 => by
    have hchunk : nextChunk picks ⟨m, c :: rest⟩ = nextChunk picks ⟨{ m with interval := 0 }, rest⟩ := by
      show (if m.nextInterval.1.1 < 0 then nextChunkOf picks rest { m.nextInterval.2 with interval := 0 }
        else _) = _
      rw [if_pos hdone, m.nextInterval_snd]
      rfl
    rw [chunks, chunks, hchunk]

/-- **The chunks of a tag set** are those of its intervals, and then those of the other tag sets
follow. -/
theorem exists_chunks_cons (picks : List (V → Option W)) {c : CursorSet V} {rest : List (CursorSet V)}
    {outputs : List (MapperOutput W)} {fuel : ℕ} (k : ℕ) : ∀ m : IntervalState,
    (m.intervalN - m.interval).toNat ≤ k →
    chunks picks fuel ⟨{ m with interval := 0 }, rest⟩ = some outputs →
    ∃ fuel', chunks picks fuel' ⟨m, c :: rest⟩ =
      some ((m.intervals (k + 1)).map (fun interval => m.chunk picks interval c) ++ outputs) := by
  induction k with
  | zero =>
    intro m hk hrest
    have hdone := IntervalState.nextInterval_done (m := m) (by omega)
    refine ⟨fuel, ?_⟩
    rw [chunks_of_done picks c rest hdone, hrest, IntervalState.intervals_of_done hdone]
    rfl
  | succ k ih =>
    intro m hk hrest
    by_cases hdone : m.nextInterval.1.1 < 0
    · refine ⟨fuel, ?_⟩
      rw [chunks_of_done picks c rest hdone, hrest, IntervalState.intervals_of_done hdone]
      rfl
    have hsnd := m.nextInterval_snd
    obtain ⟨fuel', hfuel'⟩ := ih m.nextInterval.2
      (by rw [hsnd]; show (m.intervalN - (m.interval + 1)).toNat ≤ k; omega)
      (by rw [hsnd]; exact hrest)
    have hchunk : ∀ interval, m.nextInterval.2.chunk picks interval c = m.chunk picks interval c := by
      intro interval
      rw [hsnd]
      rfl
    refine ⟨fuel' + 1, ?_⟩
    have hnext : nextChunk picks ⟨m, c :: rest⟩ =
        (some (m.chunk picks m.nextInterval.1 c), ⟨m.nextInterval.2, c :: rest⟩) := by
      show (if m.nextInterval.1.1 < 0 then _ else _) = _
      rw [if_neg hdone, m.nextInterval_snd]
      rfl
    rw [chunks, hnext]
    dsimp only
    rw [hfuel', IntervalState.intervals_of_next hdone]
    simp only [hchunk, map_some, map_cons, cons_append]

/-- **`NextChunk` delivers, for each tag set, all its intervals.** -/
theorem exists_chunks (picks : List (V → Option W)) (m : IntervalState) (hm : m.interval = 0) :
    ∀ cursors : List (CursorSet V), ∃ fuel, chunks picks fuel ⟨m, cursors⟩ =
      some (cursors.flatMap (fun c => m.allIntervals.map (fun interval => m.chunk picks interval c)))
  | [] => ⟨1, rfl⟩
  | c :: rest => by
    have hstart : { m with interval := 0 } = m := by
      rw [← hm]
    obtain ⟨fuel, hfuel⟩ := exists_chunks picks m hm rest
    obtain ⟨fuel', hfuel'⟩ := exists_chunks_cons picks (c := c) m.intervalN.toNat m
      (by rw [hm, sub_zero]) ((congrArg (fun m => chunks picks fuel ⟨m, rest⟩) hstart).trans hfuel)
    have hall : m.allIntervals = m.intervals (m.intervalN.toNat + 1) :=
      congrArg (IntervalState.intervals (m.intervalN.toNat + 1)) hstart
    refine ⟨fuel', ?_⟩
    rw [hfuel', flatMap_cons, hall]

theorem chunks_unique (picks : List (V → Option W)) (fuel : ℕ) : ∀ (m : AggregateMapper V) (fuel' : ℕ)
    (outputs outputs' : List (MapperOutput W)), chunks picks fuel m = some outputs →
    chunks picks fuel' m = some outputs' → outputs = outputs' := by
  induction fuel with
  | zero => exact fun m fuel' outputs outputs' h => (nomatch h)
  | succ fuel ih =>
    intro m fuel' outputs outputs' h h'
    cases fuel' with
    | zero => exact (nomatch h')
    | succ fuel' =>
      rw [chunks] at h h'
      generalize nextChunk picks m = r at h h'
      rcases r with ⟨_ | output, m'⟩
      · exact some.inj (h.symm.trans h')
      · obtain ⟨rest, hrest, rfl⟩ := map_eq_some_iff.mp h
        obtain ⟨rest', hrest', rfl⟩ := map_eq_some_iff.mp h'
        rw [ih m' fuel' rest rest' hrest hrest']

end AggregateMapper

/-- The query opens, and `NextChunk` delivers these outputs. -/
def AggregateQuery.Delivers {V W : Type} (q : AggregateQuery) (picks : List (V → Option W))
    (cursors : List (CursorSet V)) (outputs : List (MapperOutput W)) : Prop :=
  ∃ m fuel, q.openMapper cursors = .ok m ∧ m.chunks picks fuel = some outputs

def IntervalState.outputs {V W : Type} (m : IntervalState) (picks : List (V → Option W)) (c : CursorSet V) :
    List (MapperOutput W) := m.allIntervals.map (fun interval => m.chunk picks interval c)

/-- **What a query delivers** is, for each tag set, all its intervals. -/
theorem AggregateQuery.delivers_iff {V W : Type} (q : AggregateQuery) (picks : List (V → Option W))
    (cursors : List (CursorSet V)) (outputs : List (MapperOutput W)) :
    q.Delivers picks cursors outputs ↔
      ∃ m, q.openMapper cursors = .ok m ∧ outputs = m.cursors.flatMap (m.state.outputs picks) := by
  have hinterval : ∀ m, q.openMapper cursors = .ok m → m.state.interval = 0 := by
    intro m hm
    unfold openMapper at hm
    split at hm
    · rw [← Except.ok.inj hm]
    · split at hm
      · exact (nomatch hm)
      · rw [← Except.ok.inj hm]
  constructor
  · rintro ⟨m, fuel, hm, houtputs⟩
    obtain ⟨fuel', hfuel'⟩ := AggregateMapper.exists_chunks picks m.state (hinterval m hm) m.cursors
    exact ⟨m, hm, AggregateMapper.chunks_unique picks fuel m fuel' _ _ houtputs hfuel'⟩
  · rintro ⟨m, hm, rfl⟩
    obtain ⟨fuel, hfuel⟩ := AggregateMapper.exists_chunks picks m.state (hinterval m hm) m.cursors
    exact ⟨m, fuel, hm, hfuel⟩

end AndyEnv.Tsdb
