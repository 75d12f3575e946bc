import AndyEnv.Tsm1.DataFile

/-!
# An uncompressed block codec

A block codec in the layout of the source's blocks, with nothing compressed:
eight bytes of the first time, then value by value the time, a type byte and
the payload. It is an exact round trip, so files can be evaluated.
-/

namespace AndyEnv.Tsm1

open List Bytes

namespace Plain

/-- A string, each byte marked with a `1` and the end with a `0`. -/
def putString : Bytes → Bytes
  | [] => [0]
  | b :: bs => 1 :: b :: putString bs

def takeString : Bytes → Option (Bytes × Bytes)
  | 0 :: rest => some ([], rest)
  | 1 :: b :: rest => (takeString rest).map (fun p => (b :: p.1, p.2))
  | _ => none

def putDatum : Datum → Bytes
  | .float64 bits => 0 :: putUint64 bits
  | .int64 v => 1 :: putUint64 v.toUInt64
  | .bool v => [2, if v then 1 else 0]
  | .string v => 3 :: putString v

def takeDatum : Bytes → Option (Datum × Bytes)
  | 0 :: rest => some (.float64 (uint64 rest), rest.drop 8)
  | 1 :: rest => some (.int64 (uint64 rest).toInt64, rest.drop 8)
  | 2 :: b :: rest => some (.bool (b == 1), rest)
  | 3 :: rest => (takeString rest).map (fun p => (.string p.1, p.2))
  | _ => none

def putValue (v : Value) : Bytes := putUint64 v.time.toUInt64 ++ putDatum v.value

def takeValue (data : Bytes) : Option (Value × Bytes) :=
  (takeDatum (data.drop 8)).map (fun p => (⟨(uint64 data).toInt64, p.1⟩, p.2))

def putValues (vs : Values) : Bytes := vs.flatMap putValue

def takeValues : ℕ → Bytes → Option Values
  | _, [] => some []
  | 0, _ => none
  | fuel + 1, data => do
    let (v, rest) ← takeValue data
    let vs ← takeValues fuel rest
    return v :: vs

theorem takeString_put (rest : Bytes) :
    ∀ s : Bytes, takeString (putString s ++ rest) = some (s, rest)
  | [] => rfl
  | b :: bs => by simp [putString, takeString, takeString_put rest bs]

theorem takeDatum_put (rest : Bytes) (v : Datum) :
    takeDatum (putDatum v ++ rest) = some (v, rest) := by
  cases v with
  | float64 bits => simp [putDatum, takeDatum, uint64_putUint64_append]
  | int64 v => simp [putDatum, takeDatum, uint64_putUint64_append]
  | bool v => cases v <;> rfl
  | string v => simp [putDatum, takeDatum, takeString_put]

theorem takeValue_put (v : Value) (rest : Bytes) :
    takeValue (putValue v ++ rest) = some (v, rest) := by
  rw [takeValue, putValue, append_assoc, drop_putUint64_append, takeDatum_put,
    uint64_putUint64_append]
  simp

theorem length_putValue_pos (v : Value) : 0 < (putValue v).length := by
  simp [putValue]

theorem takeValues_put : ∀ {vs : Values} {fuel : ℕ}, (putValues vs).length ≤ fuel →
      takeValues fuel (putValues vs) = some vs
  | [], fuel, _ => by cases fuel <;> rfl
  | v :: vs, fuel, h => by
    have hcons : putValues (v :: vs) = putValue v ++ putValues vs := flatMap_cons
    have hpos := length_putValue_pos v
    rw [hcons, length_append] at h
    obtain ⟨k, rfl⟩ : ∃ k, fuel = k + 1 := ⟨fuel - 1, by omega⟩
    obtain ⟨x, xs, hx⟩ := exists_cons_of_length_pos hpos
    have hstep : takeValues (k + 1) (putValues (v :: vs)) = (do
        let (w, rest) ← takeValue (putValues (v :: vs))
        let ws ← takeValues k rest
        return w :: ws) := by
      rw [hcons, hx]
      rfl
    rw [hstep, hcons, takeValue_put]
    simp [takeValues_put (show (putValues vs).length ≤ k by omega)]

theorem length_putString : ∀ s : Bytes, (putString s).length = 2 * s.length + 1
  | [] => rfl
  | _ :: bs => by
    simp only [putString, length_cons, length_putString bs]
    omega

def codec : BlockCodec where
  encodeBlock vs := some (putUint64 ((vs.head?.map Value.time).getD 0).toUInt64 ++ putValues vs)
  decodeBlock data := takeValues data.length (data.drop 8)

theorem codec_exact : codec.Exact := by
  intro ty vs hne _
  refine ⟨hne, rfl, ?_, ?_⟩
  · simp only [codec, BlockCodec.bytes, Option.getD_some]
    rw [drop_putUint64_append]
    exact takeValues_put (by simp)
  · obtain ⟨v, rest, rfl⟩ := exists_cons_of_ne_nil hne
    simp only [codec, BlockCodec.bytes, Option.getD_some]
    rw [uint64_putUint64_append]
    simp [Values.minTime]

theorem length_bytes_string (t : Int64) (s : Bytes) :
    (codec.bytes [⟨t, .string s⟩]).length = 18 + 2 * s.length := by
  simp only [codec, BlockCodec.bytes, Option.getD_some, putValues, flatMap_cons,
    flatMap_nil, putValue, putDatum, append_nil, length_append,
    length_putUint64, length_cons, length_putString]
  omega

end Plain

/-! ## A small file -/

def intValue (t : Int64) : Value := ⟨t, .int64 t⟩

def twoBlocks : List Values := [[intValue 0, intValue 1], [intValue 10]]

def twoBlockFile : DataFile where
  blocks := encodeRun Plain.codec 1 twoBlocks
  index := indexOf (encodeRun Plain.codec 1 twoBlocks)
  minTime := 0
  maxTime := 11

theorem twoBlockFile_wellFormed :
    twoBlockFile.WellFormed Plain.codec (fun _ => FieldType.int64) := by
  refine @wellFormed_of_layout Plain.codec _ twoBlockFile [1] (fun _ => twoBlocks)
    (pairwise_singleton _ _) (by simp [dataFileEOF]) ?_ (by simp [twoBlockFile]) rfl
    (by decide +kernel)
  intro id _
  have hty : ∀ vs ∈ twoBlocks, ∀ v ∈ vs, v.type = FieldType.int64 := by decide
  have hne : ∀ vs ∈ twoBlocks, vs ≠ [] := by decide
  exact ⟨fun vs hvs => ⟨Plain.codec_exact _ vs (hne vs hvs) (hty vs hvs), hty vs hvs⟩, by decide⟩

end AndyEnv.Tsm1
