import Mathlib.Tactic

/-!
# The last write of each key

A list of writes to keys, of which the last one to a key counts. `Absorbed log l`
says that to repeat the writes of `l` after `log` changes nothing: they are in `log`
already, and what overwrote them is in `l` as well. A log that has absorbed a list has
absorbed what is left of it when its first writes are dropped, so the list can be
forgotten from the front.
-/

namespace AndyEnv.LastWrite

open List

variable {α κ : Type*} [DecidableEq κ] (key : α → κ)

def last (l : List α) (k : κ) : Option α := l.reverse.find? (fun a => key a = k)

/-- To repeat the writes changes nothing. -/
def Absorbed (log l : List α) : Prop := ∀ k, last key (log ++ l) k = last key log k

variable {key}

@[simp] theorem last_nil (k : κ) : last key ([] : List α) k = none := rfl

theorem last_append (l l' : List α) (k : κ) :
    last key (l ++ l') k = (last key l' k).or (last key l k) := by
  rw [last, reverse_append, List.find?_append]
  rfl

theorem last_filter {p : α → Bool} {k : κ} (h : ∀ a, key a = k → p a = true) (l : List α) :
    last key (l.filter p) k = last key l k := by
  unfold last
  rw [← filter_reverse, List.find?_filter]
  congr 1
  funext a
  by_cases hk : key a = k
  · simp [hk, h a hk]
  · simp [hk]

/-! ## Writes that are repeated -/

variable {log l l' rest : List α}

theorem absorbed_append (h : ∀ k, last key l' k = last key l k) : Absorbed key (log ++ l') l := by
  intro k
  rw [last_append, last_append, h, ← Option.or_assoc, Option.or_self]

theorem Absorbed.of_append (h : Absorbed key log (l ++ l')) : Absorbed key log l' := by
  intro k
  have hk := h k
  rw [last_append, last_append] at hk
  rw [last_append]
  cases hl' : last key l' k with
  | none => rfl
  | some a =>
    rw [hl'] at hk
    exact hk

/-- **The first writes can be dropped** from a list that is absorbed. -/
theorem Absorbed.last_drop (h : Absorbed key log (l ++ l')) (k : κ) :
    last key (log ++ (l' ++ rest)) k = last key (log ++ (l ++ l' ++ rest)) k := by
  rw [← append_assoc, ← append_assoc, last_append _ rest, last_append _ rest, h k, h.of_append k]

/-- The writes that follow can be made in advance. -/
theorem last_append_advance (h : ∀ k, last key l' k = last key l k)
    (k : κ) : last key (log ++ l' ++ (l ++ rest)) k = last key (log ++ (l ++ rest)) k := by
  rw [← append_assoc, ← append_assoc, last_append _ rest, last_append _ rest,
    absorbed_append h k, last_append, last_append, h]

end AndyEnv.LastWrite
