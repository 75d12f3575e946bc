import Mathlib

/-!
# Series ids

The index keeps the ids of the series of a tag value in order. `AND`, `OR` and `NOT` of a
condition are two-index merges of such lists.
-/

namespace AndyEnv.Tsdb

open List

abbrev SeriesIDs := List UInt64

namespace SeriesIDs

/-- What an operation that may drop ids appends. -/
def keep (k : Bool) (ids : SeriesIDs) : SeriesIDs := if k then ids else []

/-- The loop of the three operations over what is left of the lists, and the remainder. -/
def merge (both left right : Bool) : SeriesIDs → SeriesIDs → SeriesIDs
  | [], rs => keep right rs
  | ls, [] => keep left ls
  | l :: ls, r :: rs =>
    if l = r then keep both [l] ++ merge both left right ls rs
    else if l < r then keep left [l] ++ merge both left right ls (r :: rs)
    else keep right [r] ++ merge both left right (l :: ls) rs
termination_by ls rs => ls.length + rs.length

/-- Iterates through the shortest one and stops. -/
def intersect (a other : SeriesIDs) : SeriesIDs :=
  if other.length < a.length then merge true false false other a
  else merge true false false a other

def union : SeriesIDs → SeriesIDs → SeriesIDs := merge true true true

def reject : SeriesIDs → SeriesIDs → SeriesIDs := merge false true false

variable {k both left right : Bool} {a b : SeriesIDs} {x : UInt64}

@[simp, grind =]
theorem mem_keep : x ∈ keep k a ↔ k ∧ x ∈ a := by
  cases k <;> simp [keep]

variable (ha : a.Pairwise (· < ·)) (hb : b.Pairwise (· < ·))
include ha

theorem pairwise_keep : (keep k a).Pairwise (· < ·) := by
  cases k with
  | false => exact Pairwise.nil
  | true => exact ha

include hb

theorem mem_merge : x ∈ merge both left right a b ↔
    x ∈ a ∧ x ∈ b ∧ both ∨ x ∈ a ∧ x ∉ b ∧ left ∨ x ∉ a ∧ x ∈ b ∧ right := by
  fun_induction merge both left right a b with
  | case1 rs => simp [and_comm]
  | case2 ls => simp [and_comm]
  | case3 ls r rs ih => grind [pairwise_cons]
  | case4 l ls r rs hne hlt ih => grind [pairwise_cons]
  | case5 l ls r rs hne hlt ih => grind [pairwise_cons]

theorem pairwise_merge : (merge both left right a b).Pairwise (· < ·) := by
  have hone := fun k l => pairwise_keep (k := k) (pairwise_singleton (· < ·) (l : UInt64))
  fun_induction merge both left right a b with
  | case1 rs => exact pairwise_keep hb
  | case2 ls => exact pairwise_keep ha
  | case3 ls r rs ih =>
    refine pairwise_append.mpr ⟨hone _ _, ih ha.of_cons hb.of_cons, ?_⟩
    grind [mem_merge, pairwise_cons]
  | case4 l ls r rs hne hlt ih =>
    refine pairwise_append.mpr ⟨hone _ _, ih ha.of_cons hb, ?_⟩
    grind [mem_merge, pairwise_cons]
  | case5 l ls r rs hne hlt ih =>
    refine pairwise_append.mpr ⟨hone _ _, ih ha hb.of_cons, ?_⟩
    grind [mem_merge, pairwise_cons]

/-- **The operations are set operations**, on strictly ascending ids. -/
theorem set_operations :
    ((a.intersect b).Pairwise (· < ·) ∧ ∀ x, x ∈ a.intersect b ↔ x ∈ a ∧ x ∈ b) ∧
    ((a.union b).Pairwise (· < ·) ∧ ∀ x, x ∈ a.union b ↔ x ∈ a ∨ x ∈ b) ∧
    ((a.reject b).Pairwise (· < ·) ∧ ∀ x, x ∈ a.reject b ↔ x ∈ a ∧ x ∉ b) := by
  refine ⟨?_, ⟨pairwise_merge ha hb, fun x => ?_⟩, pairwise_merge ha hb, fun x => ?_⟩
  · unfold intersect
    split
    · exact ⟨pairwise_merge hb ha, fun x => by simp [mem_merge hb ha, and_comm]⟩
    · exact ⟨pairwise_merge ha hb, fun x => by simp [mem_merge ha hb]⟩
  · rw [union, mem_merge ha hb]
    tauto
  · simp [reject, mem_merge ha hb]

omit ha hb

theorem set_operations_three : 3 ∈ intersect [1, 3] [2, 3, 4] :=
  ((set_operations (by decide) (by decide)).1.2 3).mpr (by decide)

end SeriesIDs

end AndyEnv.Tsdb
