import Mathlib.Tactic

/-!
# Cursors

A decoder that is read value by value: `next` moves to the next value and says
whether there is one, `read` returns it. Both may change the decoder, and
`next` may panic. `Drains` is the reading of a decoder to its end. A `Reader` is
a decoder whose `read` may panic as well; two of them are read side by side.
-/

namespace AndyEnv

structure Cursor (σ α : Type*) where
  next : σ → Option (Bool × σ)
  read : σ → α × σ

namespace Cursor

variable {σ α : Type*} (c : Cursor σ α)

/-- `for d.Next() { … d.Read() … }`: the values read, and the decoder after
that. -/
inductive Drains : σ → List α → σ → Prop where
  | stop {s s' : σ} : c.next s = some (false, s') → Drains s [] s'
  | step {s s₁ s' : σ} {as : List α} : c.next s = some (true, s₁) →
      Drains (c.read s₁).2 as s' → Drains s ((c.read s₁).1 :: as) s'

variable {c}

theorem Drains.cons {s s₁ s₂ s' : σ} {a : α} {as : List α} (hnext : c.next s = some (true, s₁))
    (hread : c.read s₁ = (a, s₂)) (h : c.Drains s₂ as s') : c.Drains s (a :: as) s' := by
  have hstep := Drains.step hnext (by rw [hread]; exact h)
  rwa [hread] at hstep

theorem Drains.unique {s s' s'' : σ} {as bs : List α} (h : c.Drains s as s')
    (h' : c.Drains s bs s'') : as = bs ∧ s' = s'' := by
  induction h generalizing bs with
  | stop hnext =>
    cases h' with
    | stop hnext' =>
      rw [hnext] at hnext'
      cases hnext'
      exact ⟨rfl, rfl⟩
    | step hnext' _ =>
      rw [hnext] at hnext'
      cases hnext'
  | step hnext _ ih =>
    cases h' with
    | stop hnext' =>
      rw [hnext] at hnext'
      cases hnext'
    | step hnext' hrest =>
      rw [hnext] at hnext'
      cases hnext'
      obtain ⟨rfl, rfl⟩ := ih hrest
      exact ⟨rfl, rfl⟩

end Cursor

/-! ## Readers -/

structure Reader (σ α : Type*) where
  next : σ → Option (Bool × σ)
  read : σ → Option (α × σ)

namespace Reader

variable {σ τ α β : Type}

/-- Some rounds of `next` and `read`: the values read, and the decoder after
that. -/
inductive Reads (r : Reader σ α) : σ → List α → σ → Prop where
  | nil {s : σ} : Reads r s [] s
  | cons {s s₁ s₂ s' : σ} {a : α} {as : List α} : r.next s = some (true, s₁) →
      r.read s₁ = some (a, s₂) → Reads r s₂ as s' → Reads r s (a :: as) s'

/-- `for d.Next() && e.Next() { … d.Read() … e.Read() … }`: the second decoder
is not asked when the first is at its end. -/
def readPairs (r : Reader σ α) (q : Reader τ β) : ℕ → σ → τ → Option (List (α × β) × σ × τ)
  | 0, _, _ => none
  | fuel + 1, s, t =>
    match r.next s with
    | none => none
    | some (false, s') => some ([], s', t)
    | some (true, s₁) =>
      match q.next t with
      | none => none
      | some (false, t') => some ([], s₁, t')
      | some (true, t₁) => do
        let (a, s₂) ← r.read s₁
        let (b, t₂) ← q.read t₁
        let (rest, s', t') ← readPairs r q fuel s₂ t₂
        return ((a, b) :: rest, s', t')

/-- **Two decoders of one length are read to the end.** -/
theorem readPairs_of_reads {r : Reader σ α} {q : Reader τ β} {s s' s'' : σ} {t t' : τ}
    {as : List α} {bs : List β} (hr : r.Reads s as s') (hend : r.next s' = some (false, s''))
    (hq : q.Reads t bs t') (hlen : as.length = bs.length) {fuel : ℕ} (hfuel : as.length < fuel) :
    r.readPairs q fuel s t = some (as.zip bs, s'', t') := by
  induction hr generalizing t bs fuel with
  | nil =>
    obtain rfl := List.length_eq_zero_iff.mp hlen.symm
    cases hq
    obtain ⟨fuel, rfl⟩ := Nat.exists_eq_add_of_lt hfuel
    rw [readPairs, hend]
    rfl
  | cons hnext hread _ ih =>
    cases hq with
    | nil => cases hlen
    | cons hnext' hread' hrest' =>
      cases fuel with
      | zero => cases hfuel
      | succ fuel =>
        have hih := ih hend hrest' (Nat.succ.inj hlen) (Nat.lt_of_succ_lt_succ hfuel)
        simp [readPairs, hnext, hnext', hread, hread', hih]

end Reader

namespace Cursor

variable {σ α : Type} {c : Cursor σ α}

def reader (c : Cursor σ α) : Reader σ α where
  next := c.next
  read s := some (c.read s)

theorem Drains.reads {s s' : σ} {as : List α} (h : c.Drains s as s') :
    ∃ t, c.reader.Reads s as t ∧ c.next t = some (false, s') := by
  induction h with
  | stop hnext => exact ⟨_, .nil, hnext⟩
  | step hnext _ ih =>
    obtain ⟨t, hreads, hend⟩ := ih
    exact ⟨t, .cons hnext rfl hreads, hend⟩

end Cursor

end AndyEnv
