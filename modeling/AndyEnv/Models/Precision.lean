import AndyEnv.Lib.Wrap
import AndyEnv.Models.Batch

/-!
# Timestamps with a precision

`ParsePointsWithPrecision` multiplies the timestamp of a line by the nanoseconds of the precision,
in 64 bits. If the product does not fit, the line is accepted with another time.
-/

namespace AndyEnv.Models

open List

inductive Precision : Type
  | n | u | ms | s | m | h

def Precision.multiplier : Precision → Int64
  | n => 1
  | u => 1000
  | ms => 1000000
  | s => 1000000000
  | m => 60000000000
  | h => 3600000000000

section

variable (parseFloat : Bytes → Option UInt64)

def scanPoint (buf : Bytes) : Except ParseError (Bytes × Bytes × Bytes) := do
  let (key, before, rest) ← scanKey buf
  if key = [] then throw .missingMeasurement
  let (fields, rest) ← scanFields parseFloat before rest
  if fields = [] then throw .missingFields
  let ts ← scanTime rest
  return (key, fields, ts)

/-- `parsePoint` with a precision, to which the default is truncated. -/
def parsePointWithPrecision (p : Precision) (defaultTime : Int64) (buf : Bytes) : Except ParseError Point := do
  let (key, fields, ts) ← scanPoint parseFloat buf
  if ts = [] then
    return ⟨key, fields, Int64.ofInt (defaultTime.toInt - defaultTime.toInt % p.multiplier.toInt)⟩
  else
    match Strconv.parseInt ts with
    | none => throw (.parseTimestamp ts)
    | some t => return ⟨key, fields, t * p.multiplier⟩

/-- What `ParsePointsWithPrecision` makes of each line with a point. -/
def parseLines (p : Precision) (now : Int64) (buf : Bytes) : List (Bytes × Except ParseError Point) :=
  ((blocks buf).filter (fun block => !isSkipped block)).map
    (fun block => (lineOf block, parsePointWithPrecision parseFloat p now (lineOf block)))

def timestampOf (line : Bytes) : Option Int64 :=
  (scanPoint parseFloat line).toOption.bind (fun parts => Strconv.parseInt parts.2.2)

/-- An error is reported, or the time is exact. -/
def ExactOrFailed (p : Precision) (t : Int64) (r : Except ParseError Point) : Prop :=
  (∃ e, r = .error e) ∨ ∃ pt, r = .ok pt ∧ pt.time.toInt = t.toInt * p.multiplier.toInt

end

variable {parseFloat : Bytes → Option UInt64} {p : Precision} {now t : Int64} {line : Bytes}

/-- A line with a timestamp has the product as its time. -/
theorem parsePointWithPrecision_eq (h : timestampOf parseFloat line = some t) : ∃ pt,
    parsePointWithPrecision parseFloat p now line = .ok pt ∧ pt.time = t * p.multiplier := by
  obtain ⟨⟨key, fields, ts⟩, hscan, ht⟩ := Option.bind_eq_some_iff.mp h
  have hne : ts ≠ [] := by
    rintro rfl
    cases ht
  have ht' : Strconv.parseInt ts = some t := ht
  refine ⟨⟨key, fields, t * p.multiplier⟩, ?_, rfl⟩
  simp only [parsePointWithPrecision, except_toOption_eq_some.mp hscan, bind, Except.bind, if_neg hne,
    ht', pure, Except.pure]

theorem exactOrFailed_iff (h : timestampOf parseFloat line = some t) :
    ExactOrFailed p t (parsePointWithPrecision parseFloat p now line) ↔
      -2 ^ 63 ≤ t.toInt * p.multiplier.toInt ∧ t.toInt * p.multiplier.toInt < 2 ^ 63 := by
  obtain ⟨pt, hpt, htime⟩ := @parsePointWithPrecision_eq parseFloat p now t line h
  have hmul : pt.time.toInt = wrap (t.toInt * p.multiplier.toInt) := by
    rw [htime, Int64.toInt_mul]
    rfl
  rw [hpt]
  constructor
  · rintro (⟨e, he⟩ | ⟨pt', heq, htime'⟩)
    · cases he
    · cases heq
      rw [← htime']
      exact ⟨pt.time.le_toInt, pt.time.toInt_lt⟩
  · rintro ⟨hlo, hhi⟩
    exact .inr ⟨pt, rfl, hmul.trans (wrap_of_mem hlo hhi)⟩

/-- **Timestamps are exact** if and only if their products fit in 64 bits. -/
theorem timestamps_exact_iff (parseFloat : Bytes → Option UInt64) (p : Precision) (now : Int64) (buf : Bytes) :
    (∀ r ∈ parseLines parseFloat p now buf, ∀ t, timestampOf parseFloat r.1 = some t → ExactOrFailed p t r.2) ↔
      ∀ r ∈ parseLines parseFloat p now buf, ∀ t, timestampOf parseFloat r.1 = some t →
        -2 ^ 63 ≤ t.toInt * p.multiplier.toInt ∧ t.toInt * p.multiplier.toInt < 2 ^ 63 := by
  refine forall₂_congr (fun r hr => forall₂_congr (fun t ht => ?_))
  obtain ⟨block, -, rfl⟩ := mem_map.mp hr
  exact exactOrFailed_iff ht

/-- `m f=1 2562048` in hours is a time in the year 1677. -/
theorem timestamps_not_exact :
    parseLines parseOne .h 0 [109, 32, 102, 61, 49, 32, 50, 53, 54, 50, 48, 52, 56] =
      [([109, 32, 102, 61, 49, 32, 50, 53, 54, 50, 48, 52, 56], .ok ⟨[109], [102, 61, 49], -9223371273709551616⟩)] ∧
    timestampOf parseOne [109, 32, 102, 61, 49, 32, 50, 53, 54, 50, 48, 52, 56] = some 2562048 := by
  decide +kernel

end AndyEnv.Models
