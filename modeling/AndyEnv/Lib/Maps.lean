import Mathlib.Data.List.AList

/-!
# Maps that are filled in a loop

What the map holds after a loop that stores each element of a list under its key, if it has one;
and finding an element of a list by its key.
-/

namespace AndyEnv

open List

variable {α κ β : Type} [DecidableEq κ]

def insertAll (key : α → Option κ) (value : α → β) : List α → AList (fun _ : κ => β) → AList (fun _ : κ => β)
  | [], m => m
  | x :: xs, m => insertAll key value xs ((key x).elim m (fun k => m.insert k (value x)))

variable {key : α → Option κ} {value : α → β} {k : κ}

theorem lookup_insertAll_of_forall_ne : ∀ {xs : List α} {m : AList (fun _ : κ => β)},
    (∀ x ∈ xs, key x ≠ some k) → (insertAll key value xs m).lookup k = m.lookup k
  | [], _, _ => rfl
  | x :: xs, m, h => by
    have hx := h x mem_cons_self
    have ih := @lookup_insertAll_of_forall_ne xs ((key x).elim m (fun k => m.insert k (value x)))
      (forall_mem_cons.mp h).2
    refine ih.trans ?_
    cases hkey : key x with
    | none => rfl
    | some k' => exact AList.lookup_insert_ne (fun heq => hx (by rw [hkey, heq]))

theorem lookup_insertAll_of_mem {xs : List α} {m : AList (fun _ : κ => β)} {x : α} (hx : x ∈ xs)
    (hkey : key x = some k) (huniq : ∀ y ∈ xs, key y = some k → y = x) :
    (insertAll key value xs m).lookup k = some (value x) := by
  induction xs generalizing m with
  | nil => exact (nomatch hx)
  | cons y ys ih =>
    have huniq' : ∀ z ∈ ys, key z = some k → z = x := fun z hz => huniq z (mem_cons_of_mem _ hz)
    by_cases hmem : x ∈ ys
    · exact ih hmem huniq'
    obtain rfl : y = x := ((mem_cons.mp hx).resolve_right hmem).symm
    have hlater : ∀ z ∈ ys, key z ≠ some k := fun z hz hz' => hmem (huniq' z hz hz' ▸ hz)
    refine (lookup_insertAll_of_forall_ne hlater).trans ?_
    rw [hkey]
    exact AList.lookup_insert m

theorem exists_of_lookup_insertAll {v : β} : ∀ {xs : List α} {m : AList (fun _ : κ => β)},
    (insertAll key value xs m).lookup k = some v → m.lookup k = some v ∨ ∃ x ∈ xs, value x = v
  | [], _, h => .inl h
  | x :: xs, m, h => by
    rcases @exists_of_lookup_insertAll v xs _ h with h | ⟨y, hy, hv⟩
    · cases hkey : key x with
      | none =>
        rw [hkey] at h
        exact .inl h
      | some k' =>
        rw [hkey] at h
        by_cases heq : k = k'
        · subst heq
          exact .inr ⟨x, mem_cons_self, Option.some.inj ((AList.lookup_insert m).symm.trans h)⟩
        · exact .inl ((AList.lookup_insert_ne heq).symm.trans h)
    · exact .inr ⟨y, mem_cons_of_mem _ hy, hv⟩

/-- Where no two elements have one key, the map filled from nothing has exactly the elements. -/
theorem lookup_insertAll_empty_iff {xs : List α} (huniq : ∀ x ∈ xs, ∀ y ∈ xs, key x = some k → key y = some k → x = y)
    {v : β} : (insertAll key value xs ∅).lookup k = some v ↔ ∃ x ∈ xs, key x = some k ∧ value x = v := by
  by_cases hex : ∃ x ∈ xs, key x = some k
  · obtain ⟨x, hx, hkey⟩ := hex
    rw [lookup_insertAll_of_mem hx hkey (fun y hy hy' => huniq y hy x hx hy' hkey), Option.some.injEq]
    constructor
    · intro hv
      exact ⟨x, hx, hkey, hv⟩
    · rintro ⟨y, hy, hy', hv⟩
      rw [huniq x hx y hy hkey hy', hv]
  · rw [lookup_insertAll_of_forall_ne (fun x hx hkey => hex ⟨x, hx, hkey⟩), AList.lookup_empty]
    refine iff_of_false (fun h => (nomatch h)) ?_
    rintro ⟨x, hx, hkey, -⟩
    exact hex ⟨x, hx, hkey⟩

theorem find?_key_of_mem {key : α → κ} {x : α} : ∀ {l : List α},
    (l.map key).Nodup → x ∈ l → l.find? (fun y => key y == key x) = some x
  | y :: l, hnodup, hx => by
    rw [map_cons, nodup_cons] at hnodup
    rcases mem_cons.mp hx with rfl | hx
    · exact List.find?_cons_of_pos (BEq.refl _)
    · have hne : ¬(key y == key x) = true := fun h => hnodup.1 (eq_of_beq h ▸ mem_map_of_mem hx)
      exact (List.find?_cons_of_neg (p := fun y => key y == key x) hne).trans (find?_key_of_mem hnodup.2 hx)

end AndyEnv
