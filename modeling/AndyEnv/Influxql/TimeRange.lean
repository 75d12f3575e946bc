import Mathlib.Data.Int.Order.Basic
import Mathlib.Data.List.Induction
import Mathlib.Order.Bounds.Basic

/-!
# The time range of a condition

`TimeRange` walks over a condition and narrows two bounds with every comparison of `time`. The
value of a strict comparison is compared with the bound before it is moved by a nanosecond: of
`time > 4 AND time > 5` the second makes no difference, and the range begins at 5.

A time is the number of nanoseconds after the zero time.
-/

namespace AndyEnv.Influxql

open List

/-! ## Expressions -/

inductive Token : Type
  | and | eq | lt | lte | gt | gte | other
deriving DecidableEq

/-- The value of a number is that of `int64`. -/
inductive Expr : Type
  | varRef (val : String)
  | timeLiteral (val : ℤ)
  | durationLiteral (val : Int64)
  | numberLiteral (val : Int64)
  | binaryExpr (op : Token) (lhs rhs : Expr)
  | parenExpr (expr : Expr)
  | other

/-- `time.Unix(0, nsec)`. -/
def unix (nsec : Int64) : ℤ := 62135596800000000000 + nsec.toInt

def timeExprValue : Expr → Expr → ℤ
  | .varRef val, lit =>
    if val.toLower = "time" then
      match lit with
      | .timeLiteral t => t
      | .durationLiteral d => unix d
      | .numberLiteral n => unix n
      | _ => 0
    else 0
  | _, _ => 0

def Token.flip : Token → Token
  | .lt => .gt
  | .lte => .gte
  | .gt => .lt
  | .gte => .lte
  | op => op

/-- The two results; a zero time is no bound. -/
structure Bounds : Type where
  min : ℤ
  max : ℤ
deriving DecidableEq

namespace Bounds

def raise (b : Bounds) (value bound : ℤ) : Bounds :=
  { b with min := if b.min = 0 ∨ value > b.min then bound else b.min }

def lower (b : Bounds) (value bound : ℤ) : Bounds :=
  { b with max := if b.max = 0 ∨ value < b.max then bound else b.max }

def update (b : Bounds) (op : Token) (value : ℤ) : Bounds :=
  match op with
  | .gt => b.raise value (value + 1)
  | .gte => b.raise value value
  | .lt => b.lower value (value - 1)
  | .lte => b.lower value value
  | .eq => (b.raise value value).lower value value
  | _ => b

def visit (b : Bounds) (op : Token) (lhs rhs : Expr) : Bounds :=
  if timeExprValue lhs rhs ≠ 0 then b.update op (timeExprValue lhs rhs)
  else if timeExprValue rhs lhs ≠ 0 then b.update op.flip (timeExprValue rhs lhs)
  else b

def walk (b : Bounds) : Expr → Bounds
  | .binaryExpr op lhs rhs => ((b.visit op lhs rhs).walk lhs).walk rhs
  | .parenExpr expr => b.walk expr
  | _ => b

end Bounds

def timeRange (expr : Expr) : Bounds := (Bounds.mk 0 0).walk expr

/-! ## Conjunctions -/

def Token.Compares : Token → ℤ → ℤ → Prop
  | .eq, s, t => s = t
  | .lt, s, t => s < t
  | .lte, s, t => s ≤ t
  | .gt, s, t => s > t
  | .gte, s, t => s ≥ t
  | _, _, _ => True

/-- A comparison of `time` with a time literal, which may be on the left. -/
structure Comparison : Type where
  ref : String
  time : ref.toLower = "time"
  op : Token
  left : Bool
  value : ℤ

namespace Comparison

def expr (c : Comparison) : Expr :=
  if c.left then .binaryExpr c.op (.timeLiteral c.value) (.varRef c.ref)
  else .binaryExpr c.op (.varRef c.ref) (.timeLiteral c.value)

def Holds (c : Comparison) (t : ℤ) : Prop :=
  if c.left then c.op.Compares c.value t else c.op.Compares t c.value

def token (c : Comparison) : Token := if c.left then c.op.flip else c.op

/-- Neither the literal nor the bound it gives is the zero time. -/
def NonZero (c : Comparison) : Prop :=
  c.value ≠ 0 ∧ (c.token = .gt → c.value + 1 ≠ 0) ∧ (c.token = .lt → c.value - 1 ≠ 0)

end Comparison

/-- The comparison is not a strict one with the first or the last of the times. -/
def Inside (S : Set ℤ) (op : Token) (value : ℤ) : Prop :=
  (op = .gt → ¬IsLeast S value) ∧ (op = .lt → ¬IsGreatest S value)

inductive Conj : Type
  | comparison (c : Comparison)
  | and (lhs rhs : Conj)
  | paren (e : Conj)

namespace Conj

def expr : Conj → Expr
  | .comparison c => c.expr
  | .and lhs rhs => .binaryExpr .and lhs.expr rhs.expr
  | .paren e => .parenExpr e.expr

def comparisons : Conj → List Comparison
  | .comparison c => [c]
  | .and lhs rhs => lhs.comparisons ++ rhs.comparisons
  | .paren e => e.comparisons

end Conj

def times (cs : List Comparison) : Set ℤ := { t | ∀ c ∈ cs, c.Holds t }

def Bounds.times (b : Bounds) : Set ℤ := { t | (b.min = 0 ∨ b.min ≤ t) ∧ (b.max = 0 ∨ t ≤ b.max) }

/-! ## The walk -/

theorem Comparison.holds_iff (c : Comparison) (t : ℤ) : c.Holds t ↔ c.token.Compares t c.value := by
  obtain ⟨ref, time, op, left, value⟩ := c
  cases left with
  | false => exact Iff.rfl
  | true =>
    cases op with
    | eq => exact eq_comm
    | _ => exact Iff.rfl

def Bounds.narrow (b : Bounds) (c : Comparison) : Bounds :=
  if c.value = 0 then b else b.update c.token c.value

theorem timeExprValue_expr (e : Conj) (lit : Expr) : timeExprValue e.expr lit = 0 := by
  induction e with
  | comparison c =>
    rw [Conj.expr, Comparison.expr]
    split <;> rfl
  | _ => rfl

theorem walk_expr (e : Conj) (b : Bounds) : b.walk e.expr = e.comparisons.foldl Bounds.narrow b := by
  induction e generalizing b with
  | comparison c =>
    have hvalue : timeExprValue (.varRef c.ref) (.timeLiteral c.value) = c.value := if_pos c.time
    have hother : timeExprValue (.timeLiteral c.value) (.varRef c.ref) = 0 := rfl
    change b.walk c.expr = b.narrow c
    rw [Comparison.expr, Bounds.narrow, Comparison.token]
    split
    all_goals
      simp only [Bounds.walk, Bounds.visit, hvalue, hother, ne_eq, not_true_eq_false, if_false]
      split_ifs <;> rfl
  | and lhs rhs ihl ihr =>
    rw [Conj.expr, Bounds.walk, Bounds.visit, timeExprValue_expr, timeExprValue_expr, ihl, ihr]
    exact (foldl_append ..).symm
  | paren e ih => exact ih b

variable {b : Bounds} {t : ℤ}

theorem Bounds.mem_times :
    t ∈ b.times ↔ (b.min = 0 ∨ b.min ≤ t) ∧ (b.max = 0 ∨ t ≤ b.max) := Iff.rfl

/-- **One comparison** narrows the bounds as it should, if it is not a strict one with the first or
the last time. -/
theorem Bounds.times_update {op : Token} {v : ℤ} (hv : v ≠ 0)
    (hgt : op = .gt → v + 1 ≠ 0) (hlt : op = .lt → v - 1 ≠ 0) :
    (∀ t, t ∈ (b.update op v).times ↔ t ∈ b.times ∧ op.Compares t v) ↔ Inside b.times op v := by
  cases op with
  | gt =>
    have hbound := hgt rfl
    simp only [update, raise, Token.Compares]
    constructor
    · refine fun h => ⟨fun _ hleast => ?_, nofun⟩
      have hmem := h v
      have hfirst := fun hlow : v - 1 ∈ b.times => hleast.2 hlow
      have hv := hleast.1
      simp only [mem_times] at hmem hfirst hv
      split_ifs at hmem <;> omega
    · intro h t
      have hnot : ¬(v ∈ b.times ∧ b.min = v) := by
        rintro ⟨hmem, rfl⟩
        exact h.1 rfl ⟨hmem, fun s hs => hs.1.resolve_left hv⟩
      simp only [mem_times] at hnot ⊢
      split_ifs <;> omega
  | lt =>
    have hbound := hlt rfl
    simp only [update, lower, Token.Compares]
    constructor
    · refine fun h => ⟨nofun, fun _ hgreatest => ?_⟩
      have hmem := h v
      have hlast := fun hhigh : v + 1 ∈ b.times => hgreatest.2 hhigh
      have hv := hgreatest.1
      simp only [mem_times] at hmem hlast hv
      split_ifs at hmem <;> omega
    · intro h t
      have hnot : ¬(v ∈ b.times ∧ b.max = v) := by
        rintro ⟨hmem, rfl⟩
        exact h.2 rfl ⟨hmem, fun s hs => hs.2.resolve_left hv⟩
      simp only [mem_times] at hnot ⊢
      split_ifs <;> omega
  | and | other => exact iff_of_true (fun t => (and_iff_left trivial).symm) ⟨nofun, nofun⟩
  | _ =>
    refine iff_of_true (fun t => ?_) ⟨nofun, nofun⟩
    simp only [update, raise, lower, mem_times, Token.Compares]
    split_ifs <;> omega

/-! ## The whole condition -/

/-- The range of the condition is that of the times that satisfy it. -/
def Conj.Exact (e : Conj) : Prop := ∀ t, t ∈ times e.comparisons ↔ t ∈ (timeRange e.expr).times

/-- Every comparison is inside the times that satisfy those before it. -/
def Tight (cs : List Comparison) : Prop :=
  ∀ pre c post, cs = pre ++ c :: post → c.NonZero ∧ Inside (times pre) c.token c.value

variable {cs : List Comparison} {c : Comparison}

theorem mem_times_concat : t ∈ times (cs ++ [c]) ↔ t ∈ times cs ∧ c.token.Compares t c.value := by
  rw [← c.holds_iff]
  exact forall_mem_append.trans (and_congr_right' forall_mem_singleton)

theorem exact_concat_iff (h : ∀ t, t ∈ times cs ↔ t ∈ (cs.foldl Bounds.narrow ⟨0, 0⟩).times) (hc : c.NonZero) :
    (∀ t, t ∈ times (cs ++ [c]) ↔ t ∈ ((cs ++ [c]).foldl Bounds.narrow ⟨0, 0⟩).times) ↔
      Inside (times cs) c.token c.value := by
  obtain ⟨hv, hgt, hlt⟩ := hc
  rw [Set.ext h, ← Bounds.times_update hv hgt hlt, foldl_append, foldl_cons, foldl_nil, Bounds.narrow, if_neg hv]
  refine forall_congr' (fun t => ?_)
  rw [mem_times_concat, h t]
  exact iff_comm

theorem Tight.exact (h : Tight cs) : ∀ t, t ∈ times cs ↔ t ∈ (cs.foldl Bounds.narrow ⟨0, 0⟩).times := by
  induction cs using List.reverseRecOn with
  | nil => exact fun t => iff_of_true (forall_mem_nil _) ⟨.inl rfl, .inl rfl⟩
  | append_singleton cs c ih =>
    obtain ⟨hc, hinside⟩ := h cs c [] rfl
    refine (exact_concat_iff (ih (fun pre d post hsplit => ?_)) hc).mpr hinside
    exact h pre d (post ++ [c]) (by rw [hsplit, append_assoc]; rfl)

end AndyEnv.Influxql
