import AndyEnv.Tsm1.Codec.Int64

/-!
# Runs of the int64 codec

The decoder of the run-length format does not add up differences. It
multiplies the encoded difference and decodes the sum. That is right exactly
while nothing is negative and nothing overflows, or when the difference is
zero (`RunSafe`).
-/

namespace AndyEnv.Tsm1.Codec

open List

/-! ## When the run-length format is right -/

def progression (v δ : Int64) : ℕ → Int64
  | 0 => v
  | j + 1 => progression v δ j + δ

/-- Nothing is negative and nothing overflows, or the values are all equal. -/
def RunSafe (v δ : Int64) (len : ℕ) : Prop :=
  δ = 0 ∨ 0 ≤ v.toInt ∧ 0 < δ.toInt ∧ v.toInt + (len - 1 : ℕ) * δ.toInt < 2 ^ 63

theorem toNat_run (a d : UInt64) (j : ℕ) :
    (a + UInt64.ofNat j * d).toNat = (a.toNat + j * d.toNat) % 2 ^ 64 := by
  rw [UInt64.toNat_add, UInt64.toNat_mul, UInt64.toNat_ofNat']
  simp [Nat.mul_mod, Nat.add_mod]

theorem toInt_add_of_lt {a b : Int64} (ha : 0 ≤ a.toInt) (hb : 0 ≤ b.toInt)
    (h : a.toInt + b.toInt < 2 ^ 63) : (a + b).toInt = a.toInt + b.toInt := by
  rw [Int64.toInt_add]
  exact Int.bmod_eq_of_le (by simp; omega) (by simp; omega)

theorem toInt_add_cases (a b : Int64) :
    (a + b).toInt = a.toInt + b.toInt ∨ (a + b).toInt = a.toInt + b.toInt + 2 ^ 64 ∨
      (a + b).toInt = a.toInt + b.toInt - 2 ^ 64 := by
  have ha := a.toInt_lt
  have ha' := a.le_toInt
  have hb := b.toInt_lt
  have hb' := b.le_toInt
  rw [Int64.toInt_add, Int.bmod_def]
  split <;> omega

variable {v δ : Int64} {len : ℕ}

theorem toInt_progression {v δ : Int64} (hv : 0 ≤ v.toInt) (hδ : 0 ≤ δ.toInt) : ∀ {j : ℕ},
    v.toInt + j * δ.toInt < 2 ^ 63 → (progression v δ j).toInt = v.toInt + j * δ.toInt
  | 0, _ => by simp [progression]
  | j + 1, h => by
    push_cast at h ⊢
    rw [Int.add_mul, Int.one_mul] at h ⊢
    have hj := @toInt_progression v δ hv hδ j (by omega)
    have hnonneg : 0 ≤ (j : ℤ) * δ.toInt := Int.mul_nonneg (by omega) hδ
    rw [progression, toInt_add_of_lt (by omega) hδ (by omega)]
    omega

/-- **The computed values are right** when the run is safe. -/
theorem run_eq_of_safe (h : RunSafe v δ len) {j : ℕ} (hj : j < len) :
    zigZagEncode v + UInt64.ofNat j * zigZagEncode δ = zigZagEncode (progression v δ j) := by
  rcases h with rfl | ⟨hv, hδ, hlast⟩
  · have hconst : ∀ j, progression v 0 j = v := by
      intro j
      induction j with
      | zero => rfl
      | succ j ih => rw [progression, ih, Int64.add_zero]
    rw [hconst, show zigZagEncode 0 = 0 by decide, UInt64.mul_zero, UInt64.add_zero]
  · have hle : (j : ℤ) * δ.toInt ≤ (len - 1 : ℕ) * δ.toInt :=
      Int.mul_le_mul_of_nonneg_right (by omega) hδ.le
    have hnonneg : 0 ≤ (j : ℤ) * δ.toInt := Int.mul_nonneg (by omega) hδ.le
    have hx := toInt_progression hv hδ.le (j := j) (by omega)
    have hzv := toNat_zigZagEncode v
    have hzδ := toNat_zigZagEncode δ
    have hzx := toNat_zigZagEncode (progression v δ j)
    rw [if_pos hv] at hzv
    rw [if_pos hδ.le] at hzδ
    rw [hx, if_pos (by omega)] at hzx
    apply UInt64.toNat_inj.mp
    have hmul : ((j * (zigZagEncode δ).toNat : ℕ) : ℤ) = 2 * (j * δ.toInt) := by
      push_cast
      rw [hzδ]
      ring
    rw [toNat_run, Nat.mod_eq_of_lt (by omega)]
    omega

/-- While the computed values are right, a run that starts and rises from a
non-negative value does not overflow: the next value would be negative, and
the encoding of a negative value is odd. -/
theorem toInt_progression_of_eq {v δ : Int64} (hv : 0 ≤ v.toInt) (hδ : 0 < δ.toInt) {len : ℕ}
    (h : ∀ j < len, zigZagEncode v + UInt64.ofNat j * zigZagEncode δ =
      zigZagEncode (progression v δ j)) : ∀ {j : ℕ}, j < len →
      (progression v δ j).toInt = v.toInt + j * δ.toInt
  | 0, _ => by simp [progression]
  | j + 1, hj => by
    have hprev := @toInt_progression_of_eq v δ hv hδ len h j (by omega)
    have heq := congrArg UInt64.toNat (h (j + 1) hj)
    rw [toNat_run] at heq
    have hzv := toNat_zigZagEncode v
    have hzδ := toNat_zigZagEncode δ
    have hzx := toNat_zigZagEncode (progression v δ (j + 1))
    rw [if_pos hv] at hzv
    rw [if_pos hδ.le] at hzδ
    have hmul : (((j + 1) * (zigZagEncode δ).toNat : ℕ) : ℤ) = 2 * ((j + 1) * δ.toInt) := by
      push_cast
      rw [hzδ]
      ring
    have hnonneg : 0 ≤ (progression v δ (j + 1)).toInt := by
      by_contra hneg
      rw [if_neg hneg] at hzx
      omega
    have hx := (progression v δ j).toInt_lt
    have hd := δ.toInt_lt
    have hj0 : 0 ≤ (j : ℤ) * δ.toInt := Int.mul_nonneg (by omega) hδ.le
    have hadd := toInt_add_cases (progression v δ j) δ
    rw [show progression v δ j + δ = progression v δ (j + 1) from rfl] at hadd
    push_cast
    rw [Int.add_mul, Int.one_mul]
    omega

/-- **Only safe runs are computed right.** -/
theorem safe_of_run_eq (hlen : 2 < len)
    (h : ∀ j < len, zigZagEncode v + UInt64.ofNat j * zigZagEncode δ =
      zigZagEncode (progression v δ j)) : RunSafe v δ len := by
  by_cases hδ0 : δ = 0
  · exact .inl hδ0
  refine .inr ?_
  have hne : δ.toInt ≠ 0 := fun h0 => hδ0 (Int64.toInt_inj.mp h0)
  by_cases hsign : 0 ≤ v.toInt ∧ 0 < δ.toInt
  · obtain ⟨hv, hδ⟩ := hsign
    have hlast := toInt_progression_of_eq hv hδ h (j := len - 1) (by omega)
    have := (progression v δ (len - 1)).toInt_lt
    exact ⟨hv, hδ, by omega⟩
  -- the second and the third value are wrong
  exfalso
  have h1 := congrArg UInt64.toNat (h 1 (by omega))
  have h2 := congrArg UInt64.toNat (h 2 hlen)
  rw [toNat_run] at h1 h2
  have hzv := toNat_zigZagEncode v
  have hzδ := toNat_zigZagEncode δ
  have hz1 := toNat_zigZagEncode (progression v δ 1)
  have hz2 := toNat_zigZagEncode (progression v δ 2)
  have hx1 := toInt_add_cases v δ
  have hx2 := toInt_add_cases (progression v δ 1) δ
  rw [show v + δ = progression v δ 1 from rfl] at hx1
  rw [show progression v δ 1 + δ = progression v δ 2 from rfl] at hx2
  have b1 := v.toInt_lt
  have b2 := v.le_toInt
  have b3 := δ.toInt_lt
  have b4 := δ.le_toInt
  have b5 := (progression v δ 1).toInt_lt
  have b6 := (progression v δ 1).le_toInt
  have b7 := (progression v δ 2).toInt_lt
  have b8 := (progression v δ 2).le_toInt
  split at hzv <;> split at hzδ <;> split at hz1 <;> split at hz2 <;> omega

theorem eq_progression_of_steps : ∀ {vs : List Int64} {k : ℕ},
    (∀ d ∈ stepsFrom (progression v δ k) vs, d = δ) →
      vs = (List.range' (k + 1) vs.length).map (progression v δ)
  | [], _, _ => rfl
  | w :: vs, k, h => by
    have hw : w = progression v δ (k + 1) := by
      have := h _ mem_cons_self
      rw [progression, ← this]
      grind
    rw [length_cons, range'_succ, map_cons, ← hw]
    congr 1
    refine eq_progression_of_steps (fun d hd => h d (mem_cons_of_mem _ ?_))
    rwa [hw]

theorem eq_progression {w : Int64} {vs : List Int64}
    (h : AllEqual ((encodedSteps (v :: w :: vs)).drop 1)) :
    v :: w :: vs = (List.range (vs.length + 2)).map (progression v (w - v)) := by
  have hsteps : ∀ d ∈ stepsFrom v (w :: vs), d = w - v := by
    intro d hd
    have := h _ (mem_map_of_mem hd)
    exact (zigZagEncode_inj (Option.some.inj this)).symm
  rw [range_eq_range', range'_succ, map_cons]
  congr 1
  exact @eq_progression_of_steps v (w - v) (w :: vs) 0 hsteps

/-- The condition: run-length encoded values are all equal, or they rise from a
non-negative one without an overflow. -/
def RunsSafe (vs : List Int64) : Prop :=
  RunLength vs → RunSafe (vs.getD 0 0) (vs.getD 1 0 - vs.getD 0 0) vs.length

theorem decoded_eq_iff (vs : List Int64) : decoded vs = vs ↔ RunsSafe vs := by
  unfold decoded RunsSafe
  by_cases hrun : RunLength vs
  · rw [if_pos hrun]
    simp only [hrun, true_imp_iff]
    obtain ⟨v, w, us, rfl⟩ : ∃ v w us, vs = v :: w :: us := by
      match vs, hrun.1 with
      | v :: w :: us, _ => exact ⟨v, w, us, rfl⟩
    have hfirst : (encodedSteps (v :: w :: us)).getD 0 0 = zigZagEncode v := by
      rw [encodedSteps, stepsFrom, Int64.sub_zero]
      rfl
    have hsecond : (encodedSteps (v :: w :: us)).getD 1 0 = zigZagEncode (w - v) := rfl
    rw [hfirst, hsecond]
    change _ ↔ RunSafe v (w - v) _
    have hprog : v :: w :: us =
        (List.range (v :: w :: us).length).map (progression v (w - v)) := eq_progression hrun.2
    constructor
    · intro h
      refine safe_of_run_eq hrun.1 (fun j hj => ?_)
      have hj' := map_inj_left.mp (h.trans hprog) j (mem_range.mpr hj)
      rw [← hj', zigZagEncode_zigZagDecode]
    · intro h
      refine Eq.trans ?_ hprog.symm
      refine map_congr_left (fun j hj => ?_)
      rw [run_eq_of_safe h (mem_range.mp hj), zigZagDecode_zigZagEncode]
  · rw [if_neg hrun]
    exact ⟨fun _ hr => absurd hr hrun, fun _ => rfl⟩

/-! ## The round trip -/

/-- **The values survive the codec exactly when their runs are safe.** -/
theorem int64s_roundTrip_iff (S : Simple8b) (hS : S.WordsRoundTrip) (vs : List Int64)
    (hlen : vs.length < 2 ^ 63) :
    (∃ b d', (vs.foldl Int64Encoder.write Int64Encoder.new).bytes S = some b ∧
      (Int64Decoder.cursor S).Drains (Int64Decoder.new b) vs d' ∧ d'.err = none) ↔
      RunsSafe vs := by
  obtain ⟨b, d, hbytes, hdrains, herr⟩ := drains_bytes hS vs hlen
  rw [← decoded_eq_iff]
  constructor
  · rintro ⟨b', d', hbytes', hdrains', -⟩
    obtain rfl := Option.some.inj (hbytes.symm.trans hbytes')
    exact (hdrains.unique hdrains').1
  · intro heq
    rw [heq] at hdrains
    exact ⟨b, d, hbytes, hdrains, herr⟩

/-- A counter that falls: 5, 4, 3 are run-length encoded, and read as 5, -6,
6. -/
theorem int64s_not_roundTrip :
    ∃ b d', ([5, 4, 3].foldl Int64Encoder.write Int64Encoder.new).bytes Simple8b.plain = some b ∧
      (Int64Decoder.cursor Simple8b.plain).Drains (Int64Decoder.new b) [5, -6, 6] d' ∧
      ¬ ∃ d'', (Int64Decoder.cursor Simple8b.plain).Drains (Int64Decoder.new b) [5, 4, 3] d'' := by
  obtain ⟨b, d, hbytes, hdrains, -⟩ := drains_bytes Simple8b.plain_wordsRoundTrip [5, 4, 3]
    (by decide)
  rw [show decoded [5, 4, 3] = [5, -6, 6] by decide +kernel] at hdrains
  refine ⟨b, d, hbytes, hdrains, fun ⟨d'', h⟩ => ?_⟩
  exact absurd (hdrains.unique h).1 (by decide)

/-- A counter that rises is read back. -/
theorem int64s_roundTrip_rising : RunsSafe [5, 6, 7] ∧ ∃ b d',
      ([5, 6, 7].foldl Int64Encoder.write Int64Encoder.new).bytes Simple8b.plain = some b ∧
      (Int64Decoder.cursor Simple8b.plain).Drains (Int64Decoder.new b) [5, 6, 7] d' ∧
      d'.err = none := by
  have hsafe : RunsSafe [5, 6, 7] := fun _ => .inr ⟨by decide, by decide, by decide⟩
  exact ⟨hsafe, (int64s_roundTrip_iff Simple8b.plain Simple8b.plain_wordsRoundTrip [5, 6, 7]
    (by decide)).mpr hsafe⟩

end AndyEnv.Tsm1.Codec
