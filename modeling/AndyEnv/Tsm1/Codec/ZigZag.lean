import Mathlib.Tactic

/-!
# Zig-zag encoding

`ZigZagEncode` interleaves the negative and the non-negative integers: 0, -1,
1, -2 become 0, 1, 2, 3. The shifts and exclusive ors of the source are
compared with that arithmetic.
-/

namespace AndyEnv.Tsm1.Codec

open BitVec

def zigZagEncode (x : Int64) : UInt64 := (x <<< 1).toUInt64 ^^^ (x >>> 63).toUInt64

def zigZagDecode (v : UInt64) : Int64 :=
  ((v >>> 1) ^^^ (((v &&& 1).toInt64 <<< 63) >>> 63).toUInt64).toInt64

/-- The sign, in every bit. -/
theorem sshiftRight_63 (b : BitVec 64) :
    b.sshiftRight 63 = if b.msb then BitVec.allOnes 64 else 0#64 := by
  split
  · rename_i h
    have hzero : ((~~~b) >>> 63) = 0#64 := by
      apply eq_of_toNat_eq
      have := le_toNat_of_msb_true h
      rw [toNat_ushiftRight, Nat.shiftRight_eq_div_pow, toNat_not]
      simp
      omega
    rw [sshiftRight_eq_of_msb_true h, hzero]
    rfl
  · rename_i h
    have h : b.msb = false := by simpa using h
    apply eq_of_toNat_eq
    have := toNat_lt_of_msb_false h
    rw [sshiftRight_eq_of_msb_false h, toNat_ushiftRight, Nat.shiftRight_eq_div_pow]
    simp
    omega

theorem toBitVec_zigZagEncode (x : Int64) :
    (zigZagEncode x).toBitVec = (x.toBitVec <<< 1) ^^^ x.toBitVec.sshiftRight 63 := rfl

theorem toBitVec_zigZagDecode (v : UInt64) : (zigZagDecode v).toBitVec =
      (v.toBitVec >>> 1) ^^^ ((v.toBitVec &&& 1#64) <<< 63).sshiftRight 63 := rfl

/-- **`ZigZagEncode`, as arithmetic.** -/
theorem toNat_zigZagEncode (x : Int64) :
    ((zigZagEncode x).toNat : ℤ) = if 0 ≤ x.toInt then 2 * x.toInt else -2 * x.toInt - 1 := by
  have hx : x.toInt = if 2 * x.toBitVec.toNat < 2 ^ 64 then (x.toBitVec.toNat : ℤ)
      else (x.toBitVec.toNat : ℤ) - (2 ^ 64 : ℕ) := toInt_eq_toNat_cond x.toBitVec
  have hlt := x.toBitVec.isLt
  have henc : (zigZagEncode x).toNat = (zigZagEncode x).toBitVec.toNat := rfl
  rw [henc, toBitVec_zigZagEncode, sshiftRight_63, msb_eq_decide]
  split
  · rename_i hmsb
    have hmsb : 2 ^ (64 - 1) ≤ x.toBitVec.toNat := of_decide_eq_true hmsb
    rw [xor_allOnes, toNat_not, toNat_shiftLeft, Nat.shiftLeft_eq]
    rw [if_neg (by omega)] at hx
    rw [if_neg (by omega)]
    omega
  · rename_i hmsb
    have hmsb : ¬ 2 ^ (64 - 1) ≤ x.toBitVec.toNat := by simpa using hmsb
    rw [xor_zero, toNat_shiftLeft, Nat.shiftLeft_eq]
    rw [if_pos (by omega)] at hx
    rw [if_pos (by omega)]
    omega

/-- **`ZigZagDecode`, as arithmetic.** -/
theorem toInt_zigZagDecode (v : UInt64) : (zigZagDecode v).toInt =
      if v.toNat % 2 = 0 then (v.toNat / 2 : ℤ) else -(v.toNat / 2 : ℤ) - 1 := by
  have hlt := v.toNat_lt
  have hdec : (zigZagDecode v).toInt = (zigZagDecode v).toBitVec.toInt := rfl
  have hv : v.toNat = v.toBitVec.toNat := rfl
  have hand : (v.toBitVec &&& 1#64).toNat = v.toBitVec.toNat % 2 := by
    rw [toNat_and]
    exact Nat.and_one_is_mod _
  have hmsb : ((v.toBitVec &&& 1#64) <<< 63).msb = decide (v.toBitVec.toNat % 2 ≠ 0) := by
    rw [msb_eq_decide, toNat_shiftLeft, hand, Nat.shiftLeft_eq]
    apply decide_eq_decide.mpr
    omega
  have hshift : (v.toBitVec >>> 1).toNat = v.toBitVec.toNat / 2 := by
    rw [toNat_ushiftRight, Nat.shiftRight_eq_div_pow]
  rw [hdec, toBitVec_zigZagDecode, sshiftRight_63, hmsb, hv]
  by_cases heven : v.toBitVec.toNat % 2 = 0
  · rw [if_neg (by simpa using heven), if_pos heven, xor_zero, toInt_eq_toNat_cond,
      hshift, if_pos (by omega)]
    omega
  · rw [if_pos (by simpa using heven), if_neg heven, xor_allOnes,
      toInt_eq_toNat_cond, toNat_not, hshift, if_neg (by omega)]
    omega

theorem zigZagDecode_zigZagEncode (x : Int64) : zigZagDecode (zigZagEncode x) = x := by
  have hx := toNat_zigZagEncode x
  apply Int64.toInt_inj.mp
  rw [toInt_zigZagDecode]
  split at hx <;> split <;> omega

theorem zigZagEncode_inj {x y : Int64} (h : zigZagEncode x = zigZagEncode y) : x = y := by
  rw [← zigZagDecode_zigZagEncode x, h, zigZagDecode_zigZagEncode]

theorem zigZagEncode_zigZagDecode (v : UInt64) : zigZagEncode (zigZagDecode v) = v := by
  have hv := toInt_zigZagDecode v
  have henc := toNat_zigZagEncode (zigZagDecode v)
  rw [hv] at henc
  apply UInt64.toNat_inj.mp
  split at henc <;> split at henc <;> omega

end AndyEnv.Tsm1.Codec
