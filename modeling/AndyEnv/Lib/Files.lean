import AndyEnv.Lib.Bytes
import AndyEnv.Lib.Keyed
import Mathlib.Data.List.AList
import Mathlib.Tactic

/-!
# Numbered files

A directory whose files are named by numbers. A file is opened without
truncation, written at an offset, and removed. What a write does to the other
files, and where a write at the end of a file goes, is all that the lemmas
say.
-/

namespace AndyEnv

open List AList Bytes

abbrev Dir (β : Type*) : Type _ := AList (fun _ : ℕ => List β)

namespace Dir

variable {β : Type*}

/-- `open` with `O_CREATE` and without `O_TRUNC`. -/
def create (d : Dir β) (id : ℕ) : Dir β := if id ∈ d then d else d.insert id []

/-- A write replaces what was at the offset. -/
def overwrite (content : List β) (offset : ℕ) (bs : List β) : List β :=
  content.take offset ++ bs ++ content.drop (offset + bs.length)

def writeAt (d : Dir β) (id offset : ℕ) (bs : List β) : Dir β :=
  d.insert id (overwrite ((d.lookup id).getD []) offset bs)

/-- Of the listed files, those numbered up to `last` are removed. -/
def removeUpTo (last : ℕ) : List ℕ → Dir β → Dir β
  | [], d => d
  | id :: ids, d => removeUpTo last ids (if id ≤ last then d.erase id else d)

theorem lookup_create (d : Dir β) (id j : ℕ) :
    (d.create id).lookup j = if j = id then some ((d.lookup id).getD []) else d.lookup j := by
  unfold create
  split
  · rename_i h
    obtain ⟨c, hc⟩ := Option.isSome_iff_exists.mp (lookup_isSome.mpr h)
    split
    · rename_i hj
      rw [hj, hc]
      rfl
    · rfl
  · rename_i h
    split
    · rename_i hj
      rw [hj, lookup_insert, lookup_eq_none.mpr h]
      rfl
    · rename_i hj
      rw [lookup_insert_ne hj]

theorem lookup_writeAt (d : Dir β) (id offset : ℕ) (bs : List β) (j : ℕ) :
    (d.writeAt id offset bs).lookup j =
      if j = id then some (overwrite ((d.lookup id).getD []) offset bs) else d.lookup j := by
  unfold writeAt
  split
  · rename_i hj
    rw [hj, lookup_insert]
  · rename_i hj
    rw [lookup_insert_ne hj]

theorem overwrite_length (content bs : List β) :
    overwrite content content.length bs = content ++ bs := by
  rw [overwrite, take_length, drop_eq_nil_of_le (Nat.le_add_right _ _), append_nil]

theorem lookup_removeUpTo {last : ℕ} {j : ℕ} : ∀ {ids : List ℕ} {d : Dir β},
    (removeUpTo last ids d).lookup j = if j ∈ ids ∧ j ≤ last then none else d.lookup j
  | [], d => by simp [removeUpTo]
  | id :: ids, d => by
    rw [removeUpTo, lookup_removeUpTo]
    by_cases hrest : j ∈ ids ∧ j ≤ last
    · rw [if_pos hrest, if_pos ⟨mem_cons_of_mem _ hrest.1, hrest.2⟩]
    rw [if_neg hrest]
    by_cases hj : j = id
    · subst hj
      by_cases hle : j ≤ last
      · rw [if_pos hle, if_pos ⟨mem_cons_self, hle⟩, lookup_erase]
      · rw [if_neg hle, if_neg (fun h => hle h.2)]
    · have hnot : ¬ (j ∈ id :: ids ∧ j ≤ last) := by
        rintro ⟨hmem, hle⟩
        exact hrest ⟨(mem_cons.mp hmem).resolve_left hj, hle⟩
      rw [if_neg hnot]
      split
      · exact lookup_erase_ne hj
      · rfl

end Dir

/-! ## The order of the files -/

/-- Numbers that are sorted by their names are ascending if the order of the names agrees
with theirs. -/
theorem pairwise_lt_insertionSort {name : ℕ → Bytes} {ids : List ℕ} (hnodup : ids.Nodup)
    (h : ∀ a ∈ ids, ∀ b ∈ ids, le (name a) (name b) = true → a ≤ b) :
    (ids.insertionSort (fun a b => le (name a) (name b) = true)).Pairwise (· < ·) := by
  let r : ℕ → ℕ → Prop := fun a b => le (name a) (name b) = true
  have htotal : Std.Total r := ⟨fun a b => le_total _ _⟩
  have htrans : IsTrans ℕ r := ⟨fun a b c => le_trans⟩
  have hperm := perm_insertionSort r ids
  have hsorted := (pairwise_insertionSort r ids).and (hperm.nodup_iff.mpr hnodup)
  apply hsorted.imp_of_mem
  intro a b ha hb hab
  exact lt_of_le_of_ne (h a (hperm.mem_iff.mp ha) b (hperm.mem_iff.mp hb) hab.1) hab.2

/-! ## What goes to which file -/

section Groups

variable {α : Type*} {f : α → ℕ}

theorem filter_append_filter_of_sorted {i : ℕ} {l : List α}
    (hs : l.Pairwise (fun x y => f x ≤ f y)) (hi : ∀ x ∈ l, i ≤ f x) :
    l.filter (fun x => f x = i) ++ l.filter (fun x => f x ≠ i) = l := by
  have hsplit := Keyed.filter_append_filter_not (p := fun x => decide (f x = i))
    (hs.imp_of_mem (fun {a b} ha _ hle hb => decide_eq_true
      (le_antisymm (hle.trans_eq (of_decide_eq_true hb)) (hi a ha))))
  simpa using hsplit

/-- **What went to the files in ascending order** is read back in that order
when the files are read in ascending order. -/
theorem flatMap_filter_of_sorted : ∀ {ids : List ℕ} {l : List α}, ids.Pairwise (· < ·) →
    l.Pairwise (fun x y => f x ≤ f y) → (∀ x ∈ l, f x ∈ ids) →
    ids.flatMap (fun i => l.filter (fun x => f x = i)) = l
  | [], l, _, _, hmem => by
    cases l with
    | nil => rfl
    | cons x l => cases hmem x mem_cons_self
  | i :: ids, l, hids, hs, hmem => by
    obtain ⟨hi, hids⟩ := pairwise_cons.mp hids
    have hle : ∀ x ∈ l, i ≤ f x := by
      intro x hx
      rcases mem_cons.mp (hmem x hx) with h | h
      · exact h.ge
      · exact (hi _ h).le
    have hrest := flatMap_filter_of_sorted (l := l.filter (fun x => f x ≠ i)) hids
      (hs.sublist filter_sublist) (by
        intro x hx
        obtain ⟨hx, hne⟩ := mem_filter.mp hx
        exact (mem_cons.mp (hmem x hx)).resolve_left (of_decide_eq_true hne))
    rw [flatMap_cons]
    refine Eq.trans (congrArg₂ _ rfl ?_) (filter_append_filter_of_sorted hs hle)
    rw [← hrest]
    refine flatMap_congr (fun j hj => ?_)
    rw [filter_filter]
    refine filter_congr (fun x _ => ?_)
    have := hi j hj
    by_cases h : f x = j
    · simp [h, this.ne']
    · simp [h]

end Groups

end AndyEnv
