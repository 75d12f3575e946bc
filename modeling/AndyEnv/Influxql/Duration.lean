import AndyEnv.Lib.Strconv

/-!
# Durations

`FormatDuration` writes a duration in the largest unit that divides it; `ParseDuration` reads the
unit off the end of the text. A text without a unit is in microseconds.
-/

namespace AndyEnv.Influxql

open List Strconv

def microsecond : Int64 := 1000
def millisecond : Int64 := 1000 * microsecond
def second : Int64 := 1000 * millisecond
def minute : Int64 := 60 * second
def hour : Int64 := 60 * minute

/-- Multiplies by the unit of measure: `u` or `µ`, `ms`, `s`, `m`, `h`, `d`, `w`. -/
def scale (n : Int64) (uom : Bytes) : Option Int64 :=
  if uom = [117] ∨ uom = [194, 181] then some (n * microsecond)
  else if uom = [109, 115] then some (n * millisecond)
  else if uom = [115] then some (n * second)
  else if uom = [109] then some (n * minute)
  else if uom = [104] then some (n * hour)
  else if uom = [100] then some (n * 24 * hour)
  else if uom = [119] then some (n * 7 * 24 * hour)
  else none

/-- The number and the unit, for at least two bytes, from the end of the text. A rune of more
bytes is no unit, and neither is its last byte. -/
def splitUnit (c b : UInt8) (rest : Bytes) : Bytes × Bytes :=
  if isDigit c then ((c :: b :: rest).reverse, [117])
  else if rest ≠ [] ∧ [b, c] = [109, 115] ∨ [b, c] = [194, 181] then (rest.reverse, [b, c])
  else ((b :: rest).reverse, [c])

/-- `none` is `ErrInvalidDuration`. -/
def parseDuration (s : Bytes) : Option Int64 :=
  match s.reverse with
  | [] => none
  | [_] => (parseInt s).map (· * microsecond)
  | c :: b :: rest => (parseInt (splitUnit c b rest).1).bind (scale · (splitUnit c b rest).2)

def formatDuration (d : Int64) : Bytes :=
  if d = 0 then [48, 115]
  else if d % (7 * 24 * hour) = 0 then formatInt (d / (7 * 24 * hour)) ++ [119]
  else if d % (24 * hour) = 0 then formatInt (d / (24 * hour)) ++ [100]
  else if d % hour = 0 then formatInt (d / hour) ++ [104]
  else if d % minute = 0 then formatInt (d / minute) ++ [109]
  else if d % second = 0 then formatInt (d / second) ++ [115]
  else if d % millisecond = 0 then formatInt (d / millisecond) ++ [109, 115]
  else formatInt (d / microsecond)

theorem exists_reverse_formatInt (n : Int64) :
    ∃ c rest, (formatInt n).reverse = c :: rest ∧ isDigit c := by
  have hdigit := isDigit_formatNat n.toInt.natAbs
  obtain ⟨front, c, hf⟩ := (formatNat n.toInt.natAbs).eq_nil_or_concat.resolve_left
    (formatNat_ne_nil _)
  rw [hf] at hdigit
  refine ⟨c, if n.toInt < 0 then front.reverse ++ [minus] else front.reverse, ?_,
    hdigit c (by simp)⟩
  unfold formatInt
  split_ifs <;> simp [hf]

theorem parseDuration_number (n : Int64) : parseDuration (formatInt n) = some (n * microsecond) := by
  obtain ⟨c, rest, hrev, hc⟩ := exists_reverse_formatInt n
  have hparse := parseInt_formatInt n
  rw [parseDuration, hrev]
  cases rest with
  | nil => simp [hparse]
  | cons b rest => simp [splitUnit, hc, ← hrev, hparse, scale]

theorem div_mul_cancel {d u : Int64} (hu : u ≠ -1) (h : d % u = 0) : d / u * u = d := by
  have hmod := Int64.toInt_mod d u
  rw [h] at hmod
  rw [← Int64.toInt_inj, Int64.toInt_mul, Int64.toInt_div_of_ne_right _ _ hu,
    Int.tdiv_mul_cancel (Int.dvd_of_tmod_eq_zero hmod.symm)]
  exact Int.bmod_eq_of_le d.le_toInt d.toInt_lt

theorem parseDuration_unit {d u : Int64} {uom : Bytes}
    (huom : uom ∈ [[119], [100], [104], [109], [115], [109, 115]])
    (hscale : ∀ n, scale n uom = some (n * u)) (hu : u ≠ -1) (h : d % u = 0) :
    parseDuration (formatInt (d / u) ++ uom) = some d := by
  obtain ⟨c, rest, hrev, hc⟩ := exists_reverse_formatInt (d / u)
  -- the byte before the unit is a digit, so an `s` is not the end of `ms`
  have hne : c ≠ 109 ∧ c ≠ 194 := by
    constructor <;>
    · rintro rfl
      exact absurd hc (by decide)
  have hparse := parseInt_formatInt (d / u)
  have hvalue := hscale (d / u)
  rw [div_mul_cancel hu h] at hvalue
  rw [reverse_eq_iff.mp hrev] at *
  fin_cases huom <;> simp_all [parseDuration, splitUnit, isDigit]

/-- **Durations round trip**: a multiple of a microsecond is parsed as it was. -/
theorem parseDuration_formatDuration {d : Int64} (h : d % microsecond = 0) :
    parseDuration (formatDuration d) = some d := by
  unfold formatDuration
  split_ifs with hzero hw hd hh hm hs hms
  · rw [hzero]
    decide
  · exact parseDuration_unit (by decide) (by simp [scale, Int64.mul_assoc]) (by decide) hw
  · exact parseDuration_unit (by decide) (by simp [scale, Int64.mul_assoc]) (by decide) hd
  · exact parseDuration_unit (by decide) (fun _ => rfl) (by decide) hh
  · exact parseDuration_unit (by decide) (fun _ => rfl) (by decide) hm
  · exact parseDuration_unit (by decide) (fun _ => rfl) (by decide) hs
  · exact parseDuration_unit (by decide) (fun _ => rfl) (by decide) hms
  · rw [parseDuration_number, div_mul_cancel (by decide) h]

theorem parseDuration_formatDuration_day :
    parseDuration (formatDuration (-24 * hour)) = some (-24 * hour) :=
  parseDuration_formatDuration (by decide)

end AndyEnv.Influxql
