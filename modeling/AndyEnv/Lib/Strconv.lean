import AndyEnv.Lib.Bytes

/-!
# Decimal text of 64-bit integers

`parseInt` and `formatInt` are `strconv.ParseInt` and `strconv.FormatInt` for
base 10 and 64 bits.
-/

namespace AndyEnv

open List

namespace Strconv

def minus : UInt8 := 45

def plus : UInt8 := 43

def isDigit (c : UInt8) : Bool := decide (48 ≤ c) && decide (c ≤ 57)

/-- The number that digits denote; nothing if there are none, or a byte is not a
digit. -/
def parseNat (b : Bytes) : Option ℕ :=
  if b ≠ [] ∧ b.all isDigit then some (b.foldl (fun n c => 10 * n + (c.toNat - 48)) 0) else none

def parseInt : Bytes → Option Int64
  | [] => none
  | c :: digits =>
    if c = minus then
      (parseNat digits).bind (fun n => if n ≤ 2 ^ 63 then some (Int64.ofInt (-n)) else none)
    else
      (parseNat (if c = plus then digits else c :: digits)).bind
        (fun n => if n < 2 ^ 63 then some (Int64.ofInt n) else none)

def formatNat (n : ℕ) : Bytes :=
  if n = 0 then [48] else (Nat.digits 10 n).reverse.map (fun d => UInt8.ofNat (48 + d))

def formatInt (v : Int64) : Bytes :=
  if v.toInt < 0 then minus :: formatNat v.toInt.natAbs else formatNat v.toInt.natAbs

theorem toNat_digit {d : ℕ} (h : d < 10) : (UInt8.ofNat (48 + d)).toNat = 48 + d :=
  UInt8.toNat_ofNat_of_lt' (show 48 + d < 256 by omega)

theorem isDigit_digit {d : ℕ} (h : d < 10) : isDigit (UInt8.ofNat (48 + d)) = true := by
  have hd := toNat_digit h
  simp only [isDigit, Bool.and_eq_true, decide_eq_true_eq, UInt8.le_iff_toNat_le, hd]
  exact ⟨Nat.le_add_right _ _, show 48 + d ≤ 57 by omega⟩

theorem isDigit_formatNat (n : ℕ) : ∀ c ∈ formatNat n, isDigit c = true := by
  intro c hc
  unfold formatNat at hc
  split at hc
  · rw [mem_singleton.mp hc]
    decide
  · obtain ⟨d, hd, rfl⟩ := mem_map.mp hc
    exact isDigit_digit (Nat.digits_lt_base (by decide) (mem_reverse.mp hd))

theorem formatNat_ne_nil (n : ℕ) : formatNat n ≠ [] := by
  unfold formatNat
  split
  · nofun
  · rename_i hn
    simp [Nat.digits_ne_nil_iff_ne_zero.mpr hn]

theorem foldl_digits : ∀ {ds : List ℕ}, (∀ d ∈ ds, d < 10) →
    (ds.reverse.map (fun d => UInt8.ofNat (48 + d))).foldl (fun n c => 10 * n + (c.toNat - 48)) 0 =
      Nat.ofDigits 10 ds
  | [], _ => rfl
  | d :: ds, h => by
    rw [reverse_cons, map_append, foldl_append,
      foldl_digits (forall_mem_cons.mp h).2, Nat.ofDigits_cons]
    simp only [map_cons, map_nil, foldl_cons, foldl_nil, toNat_digit (h d mem_cons_self)]
    omega

theorem parseNat_formatNat (n : ℕ) : parseNat (formatNat n) = some n := by
  have hall : (formatNat n).all isDigit = true := all_eq_true.mpr (isDigit_formatNat n)
  rw [parseNat, if_pos ⟨formatNat_ne_nil n, hall⟩, formatNat]
  split
  · rename_i hn
    rw [hn]
    rfl
  · rw [foldl_digits (fun d hd => Nat.digits_lt_base (by decide) hd), Nat.ofDigits_digits]

/-- **A formatted integer is parsed as it was.** -/
theorem parseInt_formatInt (v : Int64) : parseInt (formatInt v) = some v := by
  have hlt := v.toInt_lt
  have hle := v.le_toInt
  unfold formatInt
  split
  · rename_i hneg
    have hval : (-(v.toInt.natAbs : ℤ)) = v.toInt := by omega
    rw [parseInt, if_pos rfl, parseNat_formatNat, Option.bind_some, if_pos (by omega), hval,
      Int64.ofInt_toInt]
  rename_i hneg
  have hval : (v.toInt.natAbs : ℤ) = v.toInt := by omega
  have hdigit := isDigit_formatNat v.toInt.natAbs
  have hparse := parseNat_formatNat v.toInt.natAbs
  cases hf : formatNat v.toInt.natAbs with
  | nil => exact absurd hf (formatNat_ne_nil _)
  | cons c digits =>
    rw [hf] at hdigit hparse
    have hc := hdigit c mem_cons_self
    have hminus : c ≠ minus := by
      rintro rfl
      exact absurd hc (by decide)
    have hplus : c ≠ plus := by
      rintro rfl
      exact absurd hc (by decide)
    rw [parseInt, if_neg hminus, if_neg hplus, hparse, Option.bind_some, if_pos (by omega),
      hval, Int64.ofInt_toInt]

end Strconv

end AndyEnv
