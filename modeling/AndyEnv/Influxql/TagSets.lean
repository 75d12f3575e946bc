import AndyEnv.Lib.Wrap

/-!
# SLIMIT and SOFFSET

`LimitTagSets` is called once for each measurement, always on the same statement. To clamp the
limit to a short list it writes the statement, so later calls have a lower limit, or none at all
if the limit has become 0. It takes a limit of 0 for a number as soon as there is an offset.
-/

namespace AndyEnv.Influxql

open List

/-- The parser reads two numbers that are not negative. -/
structure SelectStatement : Type where
  sLimit : ℕ
  sOffset : ℕ
  limit_lt : sLimit < 2 ^ 63
  offset_lt : sOffset < 2 ^ 63

variable {α : Type}

/-- `a[low:high]`, or a panic. -/
def slice (a : List α) (low : ℕ) (high : ℤ) : Option (List α) :=
  if low ≤ high ∧ high ≤ a.length then some ((a.take high.toNat).drop low) else none

namespace SelectStatement

/-- Clamp limit to the max number of tag sets. -/
def clamp (s : SelectStatement) (n : ℕ) : SelectStatement :=
  if h : n < wrap (s.sOffset + s.sLimit) then
    have hlt : wrap (s.sOffset + s.sLimit) < 2 ^ 63 := Int.bmod_lt (by norm_num)
    ⟨n - s.sOffset, s.sOffset, by omega, s.offset_lt⟩
  else s

/-- `LimitTagSets`: the tag sets, and the statement as it is left. -/
def limitTagSets (s : SelectStatement) (a : List α) : Option (List α × SelectStatement) :=
  if s.sLimit = 0 ∧ s.sOffset = 0 then some (a, s)
  else if a.length < s.sOffset then some ([], s)
  else
    let s := s.clamp a.length
    (slice a s.sOffset (wrap (s.sOffset + s.sLimit))).map (fun sets => (sets, s))

/-- The calls for the measurements, up to a panic. -/
def limitAll : SelectStatement → List (List α) → List (Option (List α))
  | _, [] => []
  | s, a :: as =>
    match s.limitTagSets a with
    | none => [none]
    | some (sets, s) => some sets :: s.limitAll as

def selected (s : SelectStatement) (a : List α) : List α :=
  if s.sLimit = 0 then a.drop s.sOffset else (a.drop s.sOffset).take s.sLimit

/-- **One call**: a sum that does not fit is a panic, and the limit stays at most what was left. -/
theorem limitTagSets_spec (s : SelectStatement) (a : List α) :
    (s.sOffset ≤ a.length ∧ 2 ^ 63 ≤ s.sOffset + s.sLimit ∧ s.limitTagSets a = none) ∨
      (s.sOffset ≤ a.length → s.sOffset + s.sLimit < 2 ^ 63) ∧ ∃ s', s.limitTagSets a = some
        (if s.sLimit = 0 ∧ s.sOffset = 0 then a else (a.drop s.sOffset).take s.sLimit, s') ∧
        s'.sOffset = s.sOffset ∧
        ∀ n, n ≤ s'.sLimit ↔ n ≤ s.sLimit ∧ (s.sOffset ≤ a.length → s.sOffset + n ≤ a.length) := by
  have hlim := s.limit_lt
  have hoff := s.offset_lt
  unfold limitTagSets
  by_cases hzero : s.sLimit = 0 ∧ s.sOffset = 0
  · rw [if_pos hzero, if_pos hzero]
    exact .inr ⟨by omega, s, rfl, rfl, by omega⟩
  rw [if_neg hzero, if_neg hzero]
  by_cases hlen : a.length < s.sOffset
  · rw [if_pos hlen, drop_eq_nil_of_le hlen.le, take_nil]
    exact .inr ⟨by omega, s, rfl, rfl, by omega⟩
  rw [if_neg hlen]
  by_cases hsum : s.sOffset + s.sLimit < 2 ^ 63
  · have hwrap : wrap (s.sOffset + s.sLimit) = ((s.sOffset + s.sLimit : ℕ) : ℤ) := wrap_of_mem (by omega) (by omega)
    refine .inr ⟨fun _ => hsum, s.clamp a.length, ?_⟩
    by_cases hshort : a.length < s.sOffset + s.sLimit
    · have hclamp : s.clamp a.length = ⟨a.length - s.sOffset, s.sOffset, by omega, hoff⟩ := dif_pos (by omega)
      have hwrap' : wrap (s.sOffset + (a.length - s.sOffset : ℕ)) = a.length :=
        (wrap_of_mem (by omega) (by omega)).trans (by omega)
      simp only [hclamp, slice, hwrap']
      rw [if_pos (by omega), Int.toNat_natCast, take_length, take_of_length_le (by rw [length_drop]; omega)]
      exact ⟨rfl, trivial, by omega⟩
    · have hclamp : s.clamp a.length = s := dif_neg (by omega)
      simp only [hclamp, slice, hwrap]
      rw [if_pos (by omega), Int.toNat_natCast, take_drop]
      exact ⟨rfl, trivial, by omega⟩
  · have hwrap : wrap (s.sOffset + s.sLimit) < 0 := by rw [wrap_of_ge (by omega) (by omega)]; omega
    have hclamp : s.clamp a.length = s := dif_neg (by omega)
    simp only [hclamp, slice]
    rw [if_neg (by omega)]
    exact .inl ⟨by omega, by omega, rfl⟩

/-- The condition on a call, with the lists of the calls before it: none of them has left less
than the call needs, unless an empty one has left no limit and none is needed. -/
def Kept (s : SelectStatement) (before : List (List α)) (a : List α) : Prop :=
  s.sOffset ≤ a.length → if s.sLimit = 0 then s.sOffset = 0 ∨ a.length = s.sOffset
    else s.sOffset + s.sLimit < 2 ^ 63 ∧ (s.sOffset = 0 ∧ [] ∈ before ∧ a.length ≤ s.sLimit ∨
      ∀ b ∈ before, s.sOffset ≤ b.length → a.length ≤ b.length ∨ s.sOffset + s.sLimit ≤ b.length)

def AllKept (s : SelectStatement) : List (List α) → List (List α) → Prop
  | _, [] => True
  | before, a :: as => s.Kept before a ∧ s.AllKept (before ++ [a]) as

/-- What the calls before have left of the limit. -/
structure Left (s₀ s : SelectStatement) (before : List (List α)) : Prop where
  offset_eq : s.sOffset = s₀.sOffset
  limit : ∀ n, n ≤ s.sLimit ↔ n ≤ s₀.sLimit ∧ ∀ b ∈ before, s₀.sOffset ≤ b.length → s₀.sOffset + n ≤ b.length
  fits : s.sLimit = s₀.sLimit ∨ s₀.sOffset + s₀.sLimit < 2 ^ 63

variable {s₀ s s' : SelectStatement} {before : List (List α)} {a : List α}

/-- Without a panic, what is returned is right if the condition holds. -/
theorem Left.kept_iff (h : Left s₀ s before) (hsum : s.sOffset ≤ a.length → s.sOffset + s.sLimit < 2 ^ 63) :
    (if s.sLimit = 0 ∧ s.sOffset = 0 then a else (a.drop s.sOffset).take s.sLimit) = s₀.selected a ↔
      s₀.Kept before a := by
  obtain ⟨hoff, hlimit, hfits⟩ := h
  have hle := ((hlimit s.sLimit).mp le_rfl).1
  rw [hoff] at hsum ⊢
  unfold Kept selected
  by_cases hlen : s₀.sOffset ≤ a.length
  · have hsum := hsum hlen
    rw [imp_iff_right hlen]
    by_cases hzero : s₀.sLimit = 0
    · have hs : s.sLimit = 0 := by omega
      rw [if_pos hzero, if_pos hzero, hs, take_zero]
      by_cases ho : s₀.sOffset = 0
      · simp [ho]
      · rw [if_neg (fun hc => ho hc.2), or_iff_right ho, eq_comm, drop_eq_nil_iff]
        omega
    · rw [if_neg hzero, if_neg hzero, and_iff_right (show s₀.sOffset + s₀.sLimit < 2 ^ 63 by omega)]
      by_cases hnone : s.sLimit = 0 ∧ s₀.sOffset = 0
      · rw [if_pos hnone, hnone.2, drop_zero, eq_comm, take_eq_self_iff]
        -- an empty list came before
        obtain ⟨b, hb, hbnil⟩ : ∃ b ∈ before, b.length = 0 := by
          by_contra hnot
          push Not at hnot
          have := (hlimit 1).mpr ⟨by omega, fun b hb _ => by have := hnot b hb; omega⟩
          omega
        obtain rfl := length_eq_zero_iff.mp hbnil
        refine ⟨fun hle => .inl ⟨rfl, hb, hle⟩, ?_⟩
        rintro (⟨-, -, hle⟩ | hall)
        · exact hle
        · have := hall [] hb (by simp)
          simp only [length_nil] at this
          omega
      · rw [if_neg hnone, take_eq_take_iff, length_drop]
        have hmin := hlimit (min s₀.sLimit (a.length - s₀.sOffset))
        constructor
        · intro heq
          refine .inr (fun b hb hbl => ?_)
          have := (hmin.mp (by omega)).2 b hb hbl
          omega
        · rintro (⟨ho, hb, -⟩ | hall)
          · have := ((hlimit s.sLimit).mp le_rfl).2 [] hb (by simp [ho])
            simp only [length_nil] at this
            omega
          · have := hmin.mpr ⟨min_le_left _ _, fun b hb hbl => by have := hall b hb hbl; omega⟩
            omega
  · have hnil := drop_eq_nil_of_le (not_le.mp hlen).le
    rw [if_neg (by omega), hnil, take_nil, take_nil, ite_self]
    exact iff_of_true rfl (fun h => absurd h hlen)

theorem limitAll_iff {as : List (List α)} (h : Left s₀ s before) :
    s.limitAll as = as.map (fun a => some (s₀.selected a)) ↔ s₀.AllKept before as := by
  induction as generalizing s before with
  | nil => exact iff_of_true rfl trivial
  | cons a as ih =>
    rw [AllKept, map_cons, limitAll]
    rcases limitTagSets_spec s a with ⟨hlen, hsum, hcall⟩ | ⟨hsum, s', hcall, hoff, hlimit⟩
    · rw [hcall]
      have hle := ((h.limit s.sLimit).mp le_rfl).1
      rw [h.offset_eq] at hlen hsum
      refine iff_of_false (fun heq => by cases heq) (fun hall => ?_)
      have hkept := hall.1 hlen
      have := s₀.offset_lt
      split_ifs at hkept <;> omega
    · rw [hcall]
      have hleft : Left s₀ s' (before ++ [a]) := by
        refine ⟨hoff.trans h.offset_eq, fun n => ?_, ?_⟩
        · rw [hlimit, h.limit, h.offset_eq, forall_mem_append, forall_mem_singleton, and_assoc]
        · by_cases hlen : s.sOffset ≤ a.length
          · have := hsum hlen
            have := h.fits
            have := h.offset_eq
            omega
          · have hsame : s'.sLimit = s.sLimit := by
              have h1 := (hlimit s'.sLimit).mp le_rfl
              have h2 := (hlimit s.sLimit).mpr ⟨le_rfl, fun h => absurd h hlen⟩
              omega
            rw [hsame]
            exact h.fits
      simp only [List.cons.injEq, Option.some.injEq, h.kept_iff hsum, ih hleft]

/-- **SLIMIT and SOFFSET only select tag sets** if and only if each call meets the condition. -/
theorem limitAll_selects_iff (s : SelectStatement) (as : List (List α)) :
    s.limitAll as = as.map (fun a => some (s.selected a)) ↔ s.AllKept [] as := by
  have hleft : Left s s ([] : List (List α)) := ⟨rfl, fun n => by simp, .inl rfl⟩
  exact limitAll_iff hleft

/-- `SLIMIT 2`: the limit that is left by the first list is that of the second, and `SOFFSET 1`
alone selects nothing. -/
theorem limitAll_not_selects : limitAll ⟨2, 0, by decide, by decide⟩ [[1], [1, 2]] = [some [1], some [1]] ∧
    limitAll ⟨0, 1, by decide, by decide⟩ [[1, 2]] = [some []] := by
  decide +kernel

end SelectStatement

end AndyEnv.Influxql
