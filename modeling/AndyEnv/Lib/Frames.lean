import AndyEnv.Lib.Bytes

/-!
# Frames

Byte strings, one after the other, each behind its length in eight bytes.
-/

namespace AndyEnv.Frames

open List Bytes

def frame (b : Bytes) : Bytes := putUint64 (UInt64.ofNat b.length) ++ b

def frames (bs : List Bytes) : Bytes := bs.flatMap frame

/-- The byte strings of the first frames, as many as the first number. -/
def parse : ℕ → Bytes → List Bytes
  | 0, _ => []
  | n + 1, bs =>
    if bs = [] then []
    else
      let rest := bs.drop 8
      let size := (uint64 bs).toNat
      rest.take size :: parse n (rest.drop size)

@[simp] theorem length_frame (b : Bytes) : (frame b).length = 8 + b.length := by
  simp [frame]

@[simp] theorem frames_nil : frames [] = [] := rfl

@[simp] theorem frames_cons (b : Bytes) (bs : List Bytes) : frames (b :: bs) = frame b ++ frames bs := rfl

@[simp] theorem frames_append (bs cs : List Bytes) : frames (bs ++ cs) = frames bs ++ frames cs :=
  flatMap_append

theorem uint64_frame_append {b : Bytes} (h : b.length < 2 ^ 64) (rest : Bytes) :
    (uint64 (frame b ++ rest)).toNat = b.length := by
  rw [frame, append_assoc, uint64_putUint64_append]
  exact UInt64.toNat_ofNat_of_lt h

theorem drop_frame_append (b rest : Bytes) : (frame b ++ rest).drop 8 = b ++ rest := by
  rw [frame, append_assoc, drop_putUint64_append]

/-- **Frames are read back.** -/
theorem parse_frames : ∀ {bs : List Bytes} {n : ℕ}, (frames bs).length < 2 ^ 64 →
    (frames bs).length ≤ n → parse n (frames bs) = bs
  | [], 0, _, _ => rfl
  | [], n + 1, _, _ => by rw [frames_nil, parse, if_pos rfl]
  | b :: bs, 0, _, hn => by
    rw [frames_cons, length_append, length_frame] at hn
    omega
  | b :: bs, n + 1, hlt, hn => by
    rw [frames_cons, length_append, length_frame] at hlt hn
    have hne : frame b ++ frames bs ≠ [] := by
      intro h
      have := congrArg List.length h
      rw [length_append, length_frame] at this
      simp only [length_nil] at this
      omega
    rw [frames_cons, parse, if_neg hne, uint64_frame_append (by omega), drop_frame_append]
    simp only [take_left, drop_left]
    rw [parse_frames (by omega) (by omega)]

end AndyEnv.Frames
