import Mathlib.Tactic

/-!
# Transition systems

A system has initial states and labelled steps. `Reaches ok` are the states
of the runs all of whose steps meet the condition `ok` on the label and the
state before the step; an invariant of such runs is proved once, step by step.
-/

namespace AndyEnv

/-- States `σ`, labels `ℓ`. -/
structure System (σ ℓ : Type*) where
  init : σ → Prop
  step : σ → ℓ → σ → Prop

namespace System

variable {σ ℓ : Type*} (S : System σ ℓ)

/-- The states reached by steps that all meet the condition. -/
inductive Reaches (ok : σ → ℓ → Prop) : σ → Prop where
  | init {s : σ} : S.init s → Reaches ok s
  | step {s s' : σ} {l : ℓ} : Reaches ok s → ok s l → S.step s l s' → Reaches ok s'

def Reachable (s : σ) : Prop := S.Reaches (fun _ _ => True) s

variable {S}

/-- **The invariant rule.** -/
theorem Reaches.invariant {ok : σ → ℓ → Prop} {I : σ → Prop} (hinit : ∀ s, S.init s → I s)
    (hstep : ∀ s l s', I s → ok s l → S.step s l s' → I s') {s : σ} (h : S.Reaches ok s) : I s := by
  induction h with
  | init hs => exact hinit _ hs
  | step _ hok hs ih => exact hstep _ _ _ ih hok hs

/-! ## Runs that are computed -/

/-- The state after a list of steps, if all of them meet the condition. -/
def runIf (ok : σ → ℓ → Prop) [∀ s l, Decidable (ok s l)] (step : σ → ℓ → Option σ) (s : σ)
    (ls : List ℓ) : Option σ :=
  ls.foldlM (fun s l => if ok s l then step s l else none) s

theorem Reaches.runIf {init : σ → Prop} {ok : σ → ℓ → Prop} [∀ s l, Decidable (ok s l)]
    {step : σ → ℓ → Option σ} {ls : List ℓ} : ∀ {s s' : σ},
    Reaches ⟨init, fun s l s' => step s l = some s'⟩ ok s → System.runIf ok step s ls = some s' →
    Reaches ⟨init, fun s l s' => step s l = some s'⟩ ok s' := by
  induction ls with
  | nil =>
    intro s s' hs h
    cases h
    exact hs
  | cons l ls ih =>
    intro s s' hs h
    obtain ⟨s₁, h₁, h⟩ := Option.bind_eq_some_iff.mp h
    by_cases hok : ok s l
    · exact ih (.step hs hok ((if_pos hok).symm.trans h₁)) h
    · cases (if_neg hok).symm.trans h₁

/-- A run that is computed ends in a state with the property. -/
theorem Reaches.exists_of_runIf (init : σ → Prop) {s : σ} (hs : init s) (ok : σ → ℓ → Prop)
    [∀ s l, Decidable (ok s l)] (step : σ → ℓ → Option σ) (ls : List ℓ) {P : σ → Bool}
    (h : (System.runIf ok step s ls).any P = true) :
    ∃ s', Reaches ⟨init, fun s l s' => step s l = some s'⟩ ok s' ∧ P s' = true := by
  cases hrun : System.runIf ok step s ls with
  | none =>
    rw [hrun] at h
    cases h
  | some s' =>
    rw [hrun] at h
    exact ⟨s', .runIf (.init hs) hrun, h⟩

end System

end AndyEnv
