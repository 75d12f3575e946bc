import AndyEnv.Lib.Bytes
import AndyEnv.Lib.Keyed

/-!
# tsm1 values (`encoding.go`)

A `Value` is a timestamp with a float, an integer, a boolean or a string; a
float is its 64-bit pattern. `Values` is meant to be a time-ascending list
of values of one type. `Deduplicate` assigns the values one after the other
to a map keyed by time and returns the map's values sorted by time, which is
`Keyed.ofList`.
-/

namespace AndyEnv.Tsm1

inductive FieldType : Type where
  | float64
  | int64
  | bool
  | string
deriving DecidableEq, Repr

inductive Datum : Type where
  | float64 (bits : UInt64)
  | int64 (v : Int64)
  | bool (v : Bool)
  | string (v : Bytes)
deriving DecidableEq, Repr

/-- `FloatValue`, `Int64Value`, `BoolValue` and `StringValue`. -/
structure Value : Type where
  time : Int64
  value : Datum
deriving DecidableEq, Repr

namespace Value

/-- `UnixNano()`, as an integer: every comparison of times in the source is
the signed one. -/
def unixNano (v : Value) : ℤ := v.time.toInt

/-- The dynamic type a type switch on the value finds. -/
def type (v : Value) : FieldType :=
  match v.value with
  | .float64 _ => .float64
  | .int64 _ => .int64
  | .bool _ => .bool
  | .string _ => .string

/-- `Size()`: eight bytes of time and the payload. -/
def size (v : Value) : ℕ :=
  match v.value with
  | .float64 _ => 16
  | .int64 _ => 16
  | .bool _ => 9
  | .string s => 8 + s.length

end Value

abbrev Values : Type := List Value

namespace Values

/-- `a[0].Time().UnixNano()`; an empty slice panics. -/
def minTime (a : Values) : Option Int64 := a.head?.map Value.time

/-- `a[len(a)-1].Time().UnixNano()`; an empty slice panics. -/
def maxTime (a : Values) : Option Int64 := a.getLast?.map Value.time

def deduplicate (a : Values) : Values := Keyed.ofList Value.unixNano a

abbrev Ascending (a : Values) : Prop := Keyed.Ascending Value.unixNano a

def OfType (ty : FieldType) (a : Values) : Prop := ∀ v ∈ a, v.type = ty

instance (ty : FieldType) (a : Values) : Decidable (OfType ty a) :=
  inferInstanceAs (Decidable (∀ v ∈ a, v.type = ty))

theorem OfType.sublist {ty : FieldType} {a b : Values} (hb : OfType ty b)
    (h : a.Sublist b) : OfType ty a :=
  fun v hv => hb v (h.subset hv)

end Values

/-- **The newest-wins merge.** `out` is the merge of `old` and `new`:
strictly ascending, holding every new value, and an old value exactly when no
new one has its timestamp. By `Keyed.ascending_ext` there is only one such
list. -/
structure NewestMerge (old new out : Values) : Prop where
  ascending : Values.Ascending out
  mem_iff : ∀ v, v ∈ out ↔ v ∈ new ∨ (v ∈ old ∧ ∀ w ∈ new, w.unixNano ≠ v.unixNano)

theorem newestMerge_iff {old new out : Values} (hold : Values.Ascending old)
    (hnew : Values.Ascending new) :
    NewestMerge old new out ↔ out = Keyed.overlay Value.unixNano old new := by
  constructor
  · rintro ⟨hasc, hmem⟩
    refine Keyed.ascending_ext hasc (Keyed.ascending_overlay new hold) (fun v => ?_)
    rw [hmem, Keyed.mem_overlay hold hnew]
  · rintro rfl
    exact ⟨Keyed.ascending_overlay new hold, fun v => Keyed.mem_overlay hold hnew⟩

end AndyEnv.Tsm1
