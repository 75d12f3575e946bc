import AndyEnv.Lib.Varint

/-!
# simple8b

The packing of small integers that the codecs use, as a parameter: the
streaming encoder and decoder of the timestamps, and the word-by-word ones of
the integers. What is asked of them is that they undo each other on values up
to `maxValue`.
-/

namespace AndyEnv.Tsm1.Codec

open List Bytes

structure Simple8b : Type where
  /-- `Encoder.Write` of every value and `Bytes`. -/
  bytes : List UInt64 → Option Bytes
  /-- `Decoder.Next` and `Read` to the end. -/
  readAll : Bytes → List UInt64
  encodeAll : List UInt64 → Option (List UInt64)
  /-- `Decode` of one word. -/
  decode : UInt64 → Option (List UInt64)

namespace Simple8b

def maxValue : UInt64 := 1152921504606846975

/-- The streaming decoder undoes the streaming encoder. -/
def StreamRoundTrip (S : Simple8b) : Prop :=
  ∀ vs : List UInt64, (∀ v ∈ vs, v ≤ maxValue) → ∃ b, S.bytes vs = some b ∧ S.readAll b = vs

/-- The words of `EncodeAll` decode to the values, a few at a time. -/
def WordsRoundTrip (S : Simple8b) : Prop :=
  ∀ vs : List UInt64, (∀ v ∈ vs, v ≤ maxValue) →
    ∃ (words : List UInt64) (groups : List (List UInt64)), S.encodeAll vs = some words ∧
      words.map S.decode = groups.map some ∧ (∀ g ∈ groups, g ≠ [] ∧ g.length ≤ 240) ∧
      groups.flatten = vs

/-! ## One value a word -/

def words : ℕ → Bytes → List UInt64
  | 0, _ => []
  | fuel + 1, b => if b = [] then [] else uint64 b :: words fuel (b.drop 8)

/-- Every value is a word of its own. -/
def plain : Simple8b where
  bytes vs := some (vs.flatMap putUint64)
  readAll b := words b.length b
  encodeAll vs := some vs
  decode v := some [v]

theorem words_flatMap : ∀ {vs : List UInt64} {fuel : ℕ}, vs.length ≤ fuel →
    words fuel (vs.flatMap putUint64) = vs
  | [], 0, _ => rfl
  | [], _ + 1, _ => rfl
  | v :: vs, 0, h => absurd h (Nat.not_succ_le_zero _)
  | v :: vs, fuel + 1, h => by
    rw [flatMap_cons, words, if_neg (putUint64_append_ne_nil v _), uint64_putUint64_append,
      drop_putUint64_append, words_flatMap (Nat.le_of_succ_le_succ h)]

theorem plain_streamRoundTrip : plain.StreamRoundTrip := by
  intro vs _
  refine ⟨_, rfl, words_flatMap ?_⟩
  rw [length_flatMap_putUint64]
  omega

theorem plain_wordsRoundTrip : plain.WordsRoundTrip := by
  intro vs _
  refine ⟨vs, vs.map (fun v => [v]), rfl, ?_, ?_, ?_⟩
  · rw [map_map]
    rfl
  · intro g hg
    obtain ⟨v, -, rfl⟩ := mem_map.mp hg
    exact ⟨cons_ne_nil _ _, by simp⟩
  · rw [← flatMap_def, flatMap_singleton']

end Simple8b

end AndyEnv.Tsm1.Codec
