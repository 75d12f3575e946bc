import Mathlib.Data.List.Sort
import Mathlib.Tactic

/-!
# Binary search for the first index of a monotone predicate

`search n f` is the loop of `sort.Search`: it keeps an interval `[i, j)` with
`f` false below `i` and true from `j` on, and halves it. On a monotone
predicate the result is the first index at which `f` holds, or `n`
(`search_spec`); over the positions of a list this is the length of the
prefix on which the predicate fails (`searchList_eq`).
-/

namespace AndyEnv.Search

open List

/-- The halving loop, on the interval `[i, j)`. -/
def searchLoop (f : ℕ → Bool) : ℕ → ℕ → ℕ → ℕ
  | 0, i, _ => i
  | fuel + 1, i, j =>
    if i < j then
      let h := i + (j - i) / 2
      if f h then searchLoop f fuel i h else searchLoop f fuel (h + 1) j
    else i

/-- `sort.Search(n, f)`. The interval shrinks at each step, so `n` steps are
enough. -/
def search (n : ℕ) (f : ℕ → Bool) : ℕ := searchLoop f n 0 n

def searchLoop? (f : ℕ → Option Bool) : ℕ → ℕ → ℕ → Option ℕ
  | 0, i, _ => some i
  | fuel + 1, i, j =>
    if i < j then do
      let h := i + (j - i) / 2
      if ← f h then searchLoop? f fuel i h else searchLoop? f fuel (h + 1) j
    else some i

def search? (n : ℕ) (f : ℕ → Option Bool) : Option ℕ := searchLoop? f n 0 n

variable {f : ℕ → Bool}

theorem searchLoop_spec (hmono : ∀ a b, a ≤ b → f a = true → f b = true) :
    ∀ (fuel i j n : ℕ), i ≤ j → j ≤ n → j - i ≤ fuel →
      (∀ a, a < i → f a = false) → (∀ a, j ≤ a → a < n → f a = true) →
      searchLoop f fuel i j ≤ n ∧ (∀ a, a < searchLoop f fuel i j → f a = false) ∧
        (∀ a, searchLoop f fuel i j ≤ a → a < n → f a = true)
  | 0, i, j, n, hij, hjn, hfuel, hlo, hhi => by
    have : i = j := by omega
    subst this
    exact ⟨hjn, hlo, hhi⟩
  | fuel + 1, i, j, n, hij, hjn, hfuel, hlo, hhi => by
    by_cases hlt : i < j
    · cases hf : f (i + (j - i) / 2) with
      | true =>
        rw [searchLoop, if_pos hlt]
        simp only [hf, if_true]
        refine searchLoop_spec hmono fuel i _ n (by omega) (by omega) (by omega) hlo ?_
        intro a ha _
        exact hmono _ _ ha hf
      | false =>
        rw [searchLoop, if_pos hlt]
        simp only [hf, Bool.false_eq_true, if_false]
        refine searchLoop_spec hmono fuel _ j n (by omega) hjn (by omega) ?_ hhi
        intro a ha
        -- a true value at or below the midpoint would be true at the midpoint
        by_contra hne
        have ht : f a = true := by simpa using hne
        rw [hmono a _ (by omega) ht] at hf
        exact Bool.noConfusion hf
    · have : i = j := by omega
      subst this
      rw [searchLoop, if_neg hlt]
      exact ⟨hjn, hlo, hhi⟩

/-- **`sort.Search` on a monotone predicate** returns the first index at
which it holds, or `n`. -/
theorem search_spec (hmono : ∀ a b, a ≤ b → f a = true → f b = true) (n : ℕ) :
    search n f ≤ n ∧ (∀ a, a < search n f → f a = false) ∧
      (∀ a, search n f ≤ a → a < n → f a = true) :=
  searchLoop_spec hmono n 0 n n (Nat.zero_le n) le_rfl (by omega)
    (fun a ha => absurd ha (Nat.not_lt_zero a)) (fun a ha hlt => absurd hlt (by omega))

variable {α : Type*}

/-- The prefix on which `p` holds ends where it is said to end. -/
theorem length_takeWhile_eq {p : α → Bool} : ∀ {l : List α} {k : ℕ}, k ≤ l.length →
    (∀ (i : ℕ) (hi : i < l.length), i < k → p l[i] = true) →
    (∀ (i : ℕ) (hi : i < l.length), k ≤ i → p l[i] = false) →
    (l.takeWhile p).length = k
  | [], k, hk, _, _ => by simpa using (Nat.le_zero.mp hk).symm
  | x :: xs, 0, _, _, hhi => by
    have hx : p x = false := hhi 0 (by simp) le_rfl
    simp [hx]
  | x :: xs, k + 1, hk, hlo, hhi => by
    have hx : p x = true := hlo 0 (by simp) (Nat.succ_pos k)
    have ih := length_takeWhile_eq (p := p) (l := xs) (k := k) (by simpa using hk)
      (fun i hi hik => hlo (i + 1) (by simpa using hi) (by omega))
      (fun i hi hik => hhi (i + 1) (by simpa using hi) (by omega))
    simp [hx, ih]

/-- `sort.Search(len(l), func(i int) bool { return q(l[i]) })`. -/
def searchList (l : List α) (q : α → Bool) : ℕ :=
  search l.length (fun i => l[i]?.elim true q)

/-- Searching a list in which `q` fails on a prefix and holds after it gives
the length of that prefix. -/
theorem searchList_eq {l : List α} {q : α → Bool}
    (hmono : l.Pairwise (fun a b => q a = true → q b = true)) :
    searchList l q = (l.takeWhile (fun v => !q v)).length := by
  have hm : ∀ a b : ℕ, a ≤ b → l[a]?.elim true q = true → l[b]?.elim true q = true := by
    intro a b hab ha
    by_cases hb : b < l.length
    · have halt : a < l.length := by omega
      rw [List.getElem?_eq_getElem halt] at ha
      rw [List.getElem?_eq_getElem hb]
      rcases eq_or_lt_of_le hab with rfl | hlt
      · exact ha
      · exact pairwise_iff_getElem.mp hmono a b halt hb hlt ha
    · rw [List.getElem?_eq_none (not_lt.mp hb)]
      rfl
  obtain ⟨hle, hlo, hhi⟩ := search_spec hm l.length
  symm
  refine length_takeWhile_eq hle ?_ ?_
  · intro i hi hlt
    have := hlo i hlt
    rw [List.getElem?_eq_getElem hi] at this
    simpa using this
  · intro i hi hge
    have := hhi i hge hi
    rw [List.getElem?_eq_getElem hi] at this
    simpa using this

/-- The first place where a predicate holds splits the list. -/
theorem findIdx?_cases (p : α → Bool) (l : List α) :
    ((∀ x ∈ l, p x = false) ∧ l.findIdx? p = none) ∨
      ∃ pre x post, l = pre ++ x :: post ∧ (∀ y ∈ pre, p y = false) ∧ p x = true ∧
        l.findIdx? p = some pre.length := by
  induction l with
  | nil => exact .inl ⟨nofun, rfl⟩
  | cons x l ih =>
    rw [List.findIdx?_cons]
    cases hx : p x with
    | true => exact .inr ⟨[], x, l, rfl, nofun, hx, rfl⟩
    | false =>
      rcases ih with ⟨hall, hnone⟩ | ⟨pre, y, post, rfl, hpre, hy, hsome⟩
      · exact .inl ⟨forall_mem_cons.mpr ⟨hx, hall⟩, by rw [hnone]; rfl⟩
      · exact .inr ⟨x :: pre, y, post, rfl, forall_mem_cons.mpr ⟨hx, hpre⟩, hy, by rw [hsome]; rfl⟩

theorem findIdx?_congr {p q : α → Bool} {l : List α} (h : ∀ x ∈ l, p x = q x) :
    l.findIdx? p = l.findIdx? q := by
  induction l with
  | nil => rfl
  | cons x xs ih =>
    rw [List.findIdx?_cons, List.findIdx?_cons, h x mem_cons_self,
      ih (forall_mem_cons.mp h).2]

end AndyEnv.Search
