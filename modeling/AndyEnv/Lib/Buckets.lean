import Mathlib.Tactic

/-!
# Buckets

The integers are cut into buckets `[k * d, (k + 1) * d)`. Two buckets of lengths of
which one divides the other have no number in common, or one lies in the other.
-/

namespace AndyEnv

def bucket (d x : ℤ) : ℤ := x - x % d

section

variable {d e x y s : ℤ}

theorem bucket_le (hd : 0 < d) : bucket d x ≤ x := by
  have := Int.emod_nonneg x hd.ne'
  unfold bucket
  omega

theorem lt_bucket_add (hd : 0 < d) : x < bucket d x + d := by
  have := Int.emod_lt_of_pos x hd
  unfold bucket
  omega

theorem dvd_bucket : d ∣ bucket d x := Int.dvd_self_sub_emod

theorem le_of_dvd_of_lt_add (hd : 0 < d) (hx : d ∣ x) (hy : d ∣ y) (h : x < y + d) : x ≤ y := by
  obtain ⟨k, rfl⟩ := hx
  obtain ⟨l, rfl⟩ := hy
  have hlt : d * k < d * (l + 1) := by rw [mul_add, mul_one]; exact h
  exact mul_le_mul_of_nonneg_left (Int.lt_add_one_iff.mp (lt_of_mul_lt_mul_left hlt hd.le)) hd.le

/-- The bucket of a number is the only one that contains it. -/
theorem bucket_eq_of_mem (hd : 0 < d) (hs : d ∣ s) (hle : s ≤ x) (hlt : x < s + d) : bucket d x = s := by
  apply le_antisymm
  · exact le_of_dvd_of_lt_add hd dvd_bucket hs (lt_of_le_of_lt (bucket_le hd) hlt)
  · exact le_of_dvd_of_lt_add hd hs dvd_bucket (lt_of_le_of_lt hle (lt_bucket_add hd))

/-- **Buckets of different lengths.** A bucket `[s, s + e)` that does not contain `x` and
the bucket of `x` have no number in common, exactly if the first one does not begin in
the second one. -/
theorem bucket_disjoint_iff (hd : 0 < d) (he : 0 < e) (hde : d ∣ e ∨ e ∣ d) (hs : e ∣ s)
    (hx : ¬(s ≤ x ∧ x < s + e)) :
    (∀ t, ¬((s ≤ t ∧ t < s + e) ∧ (bucket d x ≤ t ∧ t < bucket d x + d))) ↔
      bucket d s ≠ bucket d x := by
  constructor
  · intro hdisjoint heq
    refine hdisjoint s ⟨⟨le_refl s, by omega⟩, ?_⟩
    rw [← heq]
    exact ⟨bucket_le hd, lt_bucket_add hd⟩
  · rintro hne t ⟨⟨hst, hts⟩, hbt, htb⟩
    have ht : bucket d t = bucket d x := bucket_eq_of_mem hd dvd_bucket hbt htb
    rcases hde with hde | hde
    · -- the bucket of `x` lies in the long one
      have hle := le_of_dvd_of_lt_add hd (hde.trans hs) dvd_bucket (lt_of_le_of_lt hst htb)
      have hlt := le_of_dvd_of_lt_add hd (x := bucket d x + d) (y := s + e) (dvd_bucket.add dvd_rfl)
        ((hde.trans hs).add hde) (by omega)
      exact hx ⟨hle.trans (bucket_le hd), (lt_bucket_add hd).trans_le hlt⟩
    · -- the short one lies in the bucket of its beginning
      have hend := le_of_dvd_of_lt_add he (x := s + e) (y := bucket d s + d) (hs.add dvd_rfl)
        ((hde.trans dvd_bucket).add hde) (by have := lt_bucket_add (x := s) hd; omega)
      apply hne
      rw [← ht]
      exact (bucket_eq_of_mem hd dvd_bucket ((bucket_le hd).trans hst) (hts.trans_le hend)).symm

end

end AndyEnv
