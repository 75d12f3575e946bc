import AndyEnv.Lib.Bits
import AndyEnv.Lib.Cursor

/-!
# The float codec

A float is written as the exclusive or with the float before it: one zero bit
if nothing has changed, and otherwise the bits of a window outside of which the
difference is zero. The window is that of the difference before, where it is
wide enough, or a new one is written. A NaN marks the end.

Floats are taken as 64-bit words, and the bit stream as a list of bits.
-/

namespace AndyEnv.Tsm1.Codec

open List Bits

/-! ## Words -/

/-- `math.IsNaN`: the exponent is all ones, and the mantissa is not zero. -/
def isNaN (v : UInt64) : Bool :=
  decide (v &&& 0x7FF0000000000000 = 0x7FF0000000000000) && decide (v &&& 0xFFFFFFFFFFFFF ≠ 0)

def nan : UInt64 := 0x7FF8000000000001

def clz (v : UInt64) : UInt64 := if v = 0 then 64 else UInt64.ofNat (63 - Nat.log2 v.toNat)

def ctzLoop : ℕ → ℕ → ℕ
  | 0, _ => 0
  | fuel + 1, n => if n % 2 = 1 then 0 else 1 + ctzLoop fuel (n / 2)

def ctz (v : UInt64) : UInt64 := UInt64.ofNat (ctzLoop 64 v.toNat)

/-- `v << s`, which is 0 for 64 and more. -/
def shl (v s : UInt64) : UInt64 := if s ≥ 64 then 0 else v <<< s

/-- `v >> s`, which is 0 for 64 and more. -/
def shr (v s : UInt64) : UInt64 := if s ≥ 64 then 0 else v >>> s

/-! ## The encoder -/

def floatCompressedGorilla : UInt8 := 1

structure FloatEncoder : Type where
  val : UInt64
  /-- An error `unsupported value: NaN`. -/
  err : Bool
  leading : UInt64
  trailing : UInt64
  buf : List Bool
  first : Bool
  finished : Bool
deriving DecidableEq, Repr

namespace FloatEncoder

/-- `^uint64(0)`: there is no window yet. -/
def noWindow : UInt64 := 0xFFFFFFFFFFFFFFFF

/-- `NewFloatEncoder`. -/
def new : FloatEncoder := ⟨0, false, noWindow, 0, [], true, false⟩

def clampLeading (vDelta : UInt64) : UInt64 :=
  let leading := clz vDelta &&& 0x1F
  if leading ≥ 32 then 31 else leading

/-- `Push` of a value after the first. -/
def pushDelta (s : FloatEncoder) (v : UInt64) : FloatEncoder :=
  let vDelta := v ^^^ s.val
  if vDelta = 0 then { s with buf := s.buf ++ [false], val := v }
  else
    let leading := clampLeading vDelta
    let trailing := ctz vDelta
    if s.leading ≠ noWindow ∧ leading ≥ s.leading ∧ trailing ≥ s.trailing then
      { s with
        buf := s.buf ++ (true :: false :: writeBits (shr vDelta s.trailing).toNat
          (64 - s.leading.toNat - s.trailing.toNat))
        val := v }
    else
      let sigbits := 64 - leading - trailing
      { s with
        leading := leading
        trailing := trailing
        buf := s.buf ++ (true :: true :: (writeBits leading.toNat 5 ++ (writeBits sigbits.toNat 6 ++
            writeBits (shr vDelta trailing).toNat sigbits.toNat)))
        val := v }

def push (s : FloatEncoder) (v : UInt64) : FloatEncoder :=
  -- only allow NaN as a sentinel value
  if isNaN v && !s.finished then { s with err := true }
  else if s.first then
    { s with val := v, first := false, buf := s.buf ++ writeBits v.toNat 64 }
  else s.pushDelta v

def finish (s : FloatEncoder) : FloatEncoder :=
  if s.finished then s else push { s with finished := true } nan

/-- `Bytes`, with the error beside the bytes. -/
def bytes (s : FloatEncoder) : Bytes × Bool := ((floatCompressedGorilla <<< 4) :: pack s.buf, s.err)

end FloatEncoder

/-! ## The decoder -/

structure FloatDecoder : Type where
  val : UInt64
  leading : UInt64
  trailing : UInt64
  br : List Bool
  first : Bool
  finished : Bool
  /-- The stream has ended too soon. -/
  err : Bool
deriving DecidableEq, Repr

namespace FloatDecoder

/-- `NewFloatDecoder`; an error if there are no 64 bits. -/
def new (b : Bytes) : Option FloatDecoder :=
  (readBits 64 (unpack (b.drop 1))).map (fun p =>
    ⟨UInt64.ofNat p.1, 0, 0, p.2, true, false, false⟩)

def readWindow (it : FloatDecoder) : Option FloatDecoder := do
  let (reset, br) ← readBits 1 it.br
  if reset = 0 then return { it with br := br }
  let (leading, br) ← readBits 5 br
  let (bits, br) ← readBits 6 br
  let mbits := if bits = 0 then 64 else bits
  return { it with
    leading := UInt64.ofNat leading
    trailing := 64 - UInt64.ofNat leading - UInt64.ofNat mbits
    br := br }

def readDelta (it : FloatDecoder) : Option (UInt64 × FloatDecoder) := do
  let it ← it.readWindow
  let (bits, br) ← readBits (64 - it.leading - it.trailing).toNat it.br
  return (it.val ^^^ shl (UInt64.ofNat bits) it.trailing, { it with br := br })

def nextValue (it : FloatDecoder) : Bool × FloatDecoder :=
  match readBits 1 it.br with
  | none => (false, { it with err := true })
  | some (0, br) => (true, { it with br := br })
  | some (_, br) =>
    match readDelta { it with br := br } with
    | none => (false, { it with err := true })
    | some (val, it) =>
      if isNaN val then (false, { it with finished := true })
      else (true, { it with val := val })

def next (it : FloatDecoder) : Bool × FloatDecoder :=
  if it.err || it.finished then (false, it)
  else if it.first then
    -- mark as finished if there were no values
    if isNaN it.val then (false, { it with first := false, finished := true })
    else (true, { it with first := false })
  else it.nextValue

def cursor : Cursor FloatDecoder UInt64 where
  next it := some it.next
  read it := (it.val, it)

end FloatDecoder

/-! ## Windows -/

open FloatEncoder (push pushDelta clampLeading noWindow)
open FloatDecoder (readWindow readDelta nextValue cursor)

/-- Outside of the window the word is zero. -/
structure Window (v leading trailing : UInt64) : Prop where
  lt : leading.toNat + trailing.toNat < 64
  high : v.toNat < 2 ^ (64 - leading.toNat)
  low : 2 ^ trailing.toNat ∣ v.toNat

theorem two_pow_ctzLoop_dvd : ∀ (fuel n : ℕ), 2 ^ ctzLoop fuel n ∣ n
  | 0, n => one_dvd n
  | fuel + 1, n => by
    rw [ctzLoop]
    split
    · exact one_dvd n
    rename_i hodd
    have heven : n = 2 * (n / 2) := by omega
    rw [pow_add, pow_one]
    conv_rhs => rw [heven]
    exact mul_dvd_mul_left 2 (two_pow_ctzLoop_dvd fuel (n / 2))

theorem ctzLoop_le : ∀ fuel n : ℕ, ctzLoop fuel n ≤ fuel
  | 0, _ => le_rfl
  | fuel + 1, n => by
    rw [ctzLoop]
    split
    · exact Nat.zero_le _
    · have := ctzLoop_le fuel (n / 2)
      omega

theorem toNat_ctz (v : UInt64) : (ctz v).toNat = ctzLoop 64 v.toNat := by
  have := ctzLoop_le 64 v.toNat
  exact UInt64.toNat_ofNat_of_lt' (show _ < 2 ^ 64 by omega)

variable {v : UInt64}

theorem clampLeading_spec (hv : v ≠ 0) : (clampLeading v).toNat < 32 ∧
      v.toNat < 2 ^ (64 - (clampLeading v).toNat) := by
  have hne : v.toNat ≠ 0 := fun h => hv (UInt64.toNat_inj.mp h)
  have hclz : (clz v).toNat = 63 - Nat.log2 v.toNat := by
    rw [clz, if_neg hv]
    exact UInt64.toNat_ofNat_of_lt' (show _ < 2 ^ 64 by omega)
  have hmask : (clz v &&& 0x1F).toNat = (clz v).toNat % 32 := by
    rw [UInt64.toNat_and]
    exact Nat.and_two_pow_sub_one_eq_mod (clz v).toNat 5
  have hclamp : clampLeading v = clz v &&& 0x1F := by
    unfold clampLeading
    dsimp only
    rw [if_neg]
    intro hge
    have : 32 ≤ (clz v &&& 0x1F).toNat := UInt64.le_iff_toNat_le.mp hge
    omega
  have hlog : v.toNat < 2 ^ (Nat.log2 v.toNat + 1) := (Nat.log2_lt hne).mp (Nat.lt_succ_self _)
  have hlog64 : Nat.log2 v.toNat < 64 := (Nat.log2_lt hne).mpr v.toNat_lt
  rw [hclamp, hmask, hclz]
  refine ⟨Nat.mod_lt _ (by decide), hlog.trans_le (Nat.pow_le_pow_right (by decide) ?_)⟩
  omega

/-- **The window of a difference.** -/
theorem window_clamp (hv : v ≠ 0) : Window v (clampLeading v) (ctz v) := by
  have hne : v.toNat ≠ 0 := fun h => hv (UInt64.toNat_inj.mp h)
  obtain ⟨-, hhigh⟩ := clampLeading_spec hv
  have hlow : 2 ^ (ctz v).toNat ∣ v.toNat := toNat_ctz v ▸ two_pow_ctzLoop_dvd 64 v.toNat
  refine ⟨?_, hhigh, hlow⟩
  have hle := Nat.le_of_dvd (Nat.pos_of_ne_zero hne) hlow
  have hlt := (Nat.pow_lt_pow_iff_right (by decide : 1 < 2)).mp (hle.trans_lt hhigh)
  omega

variable {l t : UInt64} {s : FloatEncoder}

section

variable (h : Window v l t)
include h

theorem Window.mono {l' t' : UInt64} (hl : l' ≤ l) (ht : t' ≤ t) : Window v l' t' := by
  have hl := UInt64.le_iff_toNat_le.mp hl
  have ht := UInt64.le_iff_toNat_le.mp ht
  have hlt := h.lt
  refine ⟨by omega, h.high.trans_le (Nat.pow_le_pow_right (by decide) (by omega)), ?_⟩
  exact (Nat.pow_dvd_pow 2 ht).trans h.low

theorem Window.not_ge : ¬ t ≥ 64 := by
  intro hge
  have hlt := h.lt
  have : 64 ≤ t.toNat := UInt64.le_iff_toNat_le.mp hge
  omega

theorem Window.toNat_shr : (shr v t).toNat = v.toNat / 2 ^ t.toNat := by
  have hlt := h.lt
  rw [shr, if_neg h.not_ge, UInt64.toNat_shiftRight, Nat.shiftRight_eq_div_pow,
    Nat.mod_eq_of_lt (by omega)]

theorem Window.shr_lt : (shr v t).toNat < 2 ^ (64 - l.toNat - t.toNat) := by
  have hlt := h.lt
  have hhigh := h.high
  rw [h.toNat_shr, Nat.div_lt_iff_lt_mul (Nat.two_pow_pos _), ← pow_add,
    Nat.sub_add_cancel (by omega)]
  exact hhigh

/-- **The bits of the window are the word.** -/
theorem Window.shl_shr : shl (UInt64.ofNat (shr v t).toNat) t = v := by
  have hlt := h.lt
  apply UInt64.toNat_inj.mp
  rw [shl, if_neg h.not_ge, UInt64.ofNat_toNat, UInt64.toNat_shiftLeft, h.toNat_shr,
    Nat.mod_eq_of_lt (by omega : t.toNat < 64), Nat.shiftLeft_eq, Nat.div_mul_cancel h.low]
  exact Nat.mod_eq_of_lt v.toNat_lt

end

/-! ## One value -/

def windowBits (v leading trailing : UInt64) : List Bool :=
  writeBits (shr v trailing).toNat (64 - leading.toNat - trailing.toNat)

/-- The window of the difference before is wide enough. -/
def Reuses (s : FloatEncoder) (v : UInt64) : Prop :=
  s.leading ≠ noWindow ∧ clampLeading (v ^^^ s.val) ≥ s.leading ∧
    ctz (v ^^^ s.val) ≥ s.trailing

theorem pushDelta_same (h : v ^^^ s.val = 0) :
    s.pushDelta v = { s with buf := s.buf ++ [false], val := v } := by
  unfold pushDelta
  dsimp only
  rw [if_pos h]

theorem pushDelta_reuse (h : v ^^^ s.val ≠ 0) (hreuse : Reuses s v) : s.pushDelta v = { s with
      buf := s.buf ++ (true :: false :: windowBits (v ^^^ s.val) s.leading s.trailing)
      val := v } := by
  unfold Reuses at hreuse
  unfold pushDelta
  dsimp only
  rw [if_neg h, if_pos hreuse]
  rfl

theorem toNat_width (h : l.toNat + t.toNat < 64) : (64 - l - t).toNat = 64 - l.toNat - t.toNat := by
  have h64 : (64 : UInt64).toNat = 64 := rfl
  have hl : l ≤ 64 := UInt64.le_iff_toNat_le.mpr (by omega)
  have hsub : (64 - l).toNat = 64 - l.toNat := UInt64.toNat_sub_of_le _ _ hl
  have ht : t ≤ 64 - l := UInt64.le_iff_toNat_le.mpr (by omega)
  rw [UInt64.toNat_sub_of_le _ _ ht, hsub]

theorem pushDelta_new (h : v ^^^ s.val ≠ 0) (hreuse : ¬ Reuses s v) : s.pushDelta v = { s with
      leading := clampLeading (v ^^^ s.val)
      trailing := ctz (v ^^^ s.val)
      buf := s.buf ++ (true :: true ::
        (writeBits (clampLeading (v ^^^ s.val)).toNat 5 ++
          (writeBits (64 - (clampLeading (v ^^^ s.val)).toNat -
              (ctz (v ^^^ s.val)).toNat) 6 ++
            windowBits (v ^^^ s.val) (clampLeading (v ^^^ s.val))
              (ctz (v ^^^ s.val)))))
      val := v } := by
  have hwidth := toNat_width (window_clamp h).lt
  unfold Reuses at hreuse
  unfold pushDelta
  dsimp only
  rw [if_neg h, if_neg hreuse, hwidth]
  rfl

/-- The encoder and the decoder have the same value and the same window. -/
structure InStep (s : FloatEncoder) (it : FloatDecoder) : Prop where
  val : it.val = s.val
  notNaN : isNaN s.val = false
  first : it.first = false
  finished : it.finished = false
  err : it.err = false
  window : s.leading = noWindow ∨
    it.leading = s.leading ∧ it.trailing = s.trailing ∧ s.leading.toNat + s.trailing.toNat < 64

theorem InStep.next_eq {it : FloatDecoder} (h : InStep s it) : it.next = it.nextValue := by
  rw [FloatDecoder.next, if_neg (by simp [h.err, h.finished]), if_neg (by simp [h.first])]

theorem readDelta_of_window {it it₁ : FloatDecoder} {v w : UInt64} {rest : List Bool}
    (hwindow : it.readWindow = some it₁) (h : Window v it₁.leading it₁.trailing)
    (hbr : it₁.br = windowBits v it₁.leading it₁.trailing ++ rest) (hval : it₁.val ^^^ v = w) :
    it.readDelta = some (w, { it₁ with br := rest }) := by
  unfold readDelta
  rw [hwindow]
  change (readBits (64 - it₁.leading - it₁.trailing).toNat it₁.br).bind _ = _
  rw [toNat_width h.lt, hbr, windowBits, readBits_writeBits h.shr_lt]
  change some (it₁.val ^^^ shl _ _, _) = _
  rw [h.shl_shr, hval]

theorem readWindow_reuse (it : FloatDecoder) (rest : List Bool) :
    readWindow { it with br := false :: rest } = some { it with br := rest } := by
  simp [readWindow]

/-- A new window is read. 64 significant bits are written as 0. -/
theorem readWindow_new (it : FloatDecoder) (hl : l.toNat < 32)
    (hlt : l.toNat + t.toNat < 64) (rest : List Bool) : readWindow { it with
      br := true :: (writeBits l.toNat 5 ++ (writeBits (64 - l.toNat - t.toNat) 6 ++ rest)) } =
      some { it with leading := l, trailing := t, br := rest } := by
  have hbits : (if (64 - l.toNat - t.toNat) % 2 ^ 6 = 0 then 64
      else (64 - l.toNat - t.toNat) % 2 ^ 6) = 64 - l.toNat - t.toNat := by
    split <;> omega
  have htrailing : 64 - l - UInt64.ofNat (64 - l.toNat - t.toNat) = t := by
    rw [← toNat_width hlt, UInt64.ofNat_toNat]
    grind
  unfold readWindow
  simp only [readBits_one_cons, readBits_writeBits (show l.toNat < 2 ^ 5 from hl),
    readBits_writeBits_mod, hbits, UInt64.ofNat_toNat, htrailing, Option.bind_eq_bind,
    Option.bind_some]
  rfl

theorem xor_xor_cancel (a b : UInt64) : b ^^^ (a ^^^ b) = a := by
  rw [UInt64.xor_comm a b, ← UInt64.xor_assoc, UInt64.xor_self, UInt64.zero_xor]

theorem nextValue_of_readDelta {s' : FloatEncoder} {it it' : FloatDecoder} (h : InStep s it)
    {bits : List Bool} (hbr : it.br = true :: bits)
    (hread : readDelta { it with br := bits } = some (v, it')) (hval : s'.val = v)
    (hfirst : it'.first = it.first) (hfinished : it'.finished = it.finished)
    (herr : it'.err = it.err)
    (hwindow : it'.leading = s'.leading ∧ it'.trailing = s'.trailing ∧ s'.leading.toNat + s'.trailing.toNat < 64) :
    (isNaN v = false → ∃ it₁, it.nextValue = (true, it₁) ∧ it₁.br = it'.br ∧ InStep s' it₁) ∧
      (isNaN v = true → ∃ it₁, it.nextValue = (false, it₁) ∧ it₁.err = false) := by
  have hnext : it.nextValue = if isNaN v then (false, { it' with finished := true })
      else (true, { it' with val := v }) := by
    unfold nextValue
    rw [hbr, readBits_one_cons]
    simp [hread]
  refine ⟨fun hnan => ⟨{ it' with val := v }, by simp [hnext, hnan], rfl, ?_⟩,
    fun hnan => ⟨{ it' with finished := true }, by simp [hnext, hnan], herr.trans h.err⟩⟩
  exact ⟨hval.symm, by rw [hval]; exact hnan, hfirst.trans h.first, hfinished.trans h.finished,
    herr.trans h.err, .inr hwindow⟩

/-- **A value is read as it was written**, and the encoder and the decoder stay
in step; a NaN ends the reading. -/
theorem nextValue_pushDelta (s : FloatEncoder) (v : UInt64) :
    ∃ bits, (s.pushDelta v).buf = s.buf ++ bits ∧ ∀ it rest, InStep s it → it.br = bits ++ rest →
      (isNaN v = false → ∃ it', it.nextValue = (true, it') ∧ it'.br = rest ∧
        InStep (s.pushDelta v) it') ∧
      (isNaN v = true → ∃ it', it.nextValue = (false, it') ∧ it'.err = false) := by
  by_cases hne : v ^^^ s.val = 0
  · have hv : v = s.val := UInt64.xor_eq_zero_iff.mp hne
    refine ⟨[false], by rw [pushDelta_same hne], fun it rest h hbr => ⟨fun _ => ?_, fun hnan => ?_⟩⟩
    · refine ⟨{ it with br := rest }, ?_, rfl, ?_⟩
      · unfold nextValue
        rw [hbr, singleton_append, readBits_one_cons]
        rfl
      · rw [pushDelta_same hne, hv]
        exact ⟨h.val, h.notNaN, h.first, h.finished, h.err, h.window⟩
    · rw [hv, h.notNaN] at hnan
      cases hnan
  · have hwin := window_clamp hne
    by_cases hreuse : Reuses s v
    · -- the window of the difference before
      rw [pushDelta_reuse hne hreuse]
      refine ⟨_, rfl, fun it rest h hbr => ?_⟩
      obtain ⟨hl, ht, hlt⟩ := h.window.resolve_left hreuse.1
      have hval : it.val ^^^ (v ^^^ s.val) = v := by rw [h.val, xor_xor_cancel]
      have hread := @readDelta_of_window { it with
          br := false :: (windowBits (v ^^^ s.val) s.leading s.trailing ++ rest) } _
        (v ^^^ s.val) v rest (readWindow_reuse it _)
        (by rw [hl, ht]; exact hwin.mono hreuse.2.1 hreuse.2.2) (by rw [hl, ht]) hval
      exact nextValue_of_readDelta h hbr hread rfl rfl rfl rfl ⟨hl, ht, hlt⟩
    · -- a new window
      rw [pushDelta_new hne hreuse]
      refine ⟨_, rfl, fun it rest h hbr => ?_⟩
      have hwindow := readWindow_new it (clampLeading_spec hne).1 hwin.lt
        (windowBits (v ^^^ s.val) (clampLeading (v ^^^ s.val))
          (ctz (v ^^^ s.val)) ++ rest)
      have hval : it.val ^^^ (v ^^^ s.val) = v := by rw [h.val, xor_xor_cancel]
      have hread := readDelta_of_window hwindow hwin rfl hval
      simp only [cons_append, append_assoc] at hbr
      exact nextValue_of_readDelta h hbr hread rfl rfl rfl rfl ⟨rfl, rfl, hwin.lt⟩

/-! ## The stream -/

namespace FloatEncoder

theorem pushDelta_flags (s : FloatEncoder) (v : UInt64) :
    (s.pushDelta v).first = s.first ∧ (s.pushDelta v).finished = s.finished ∧
      (s.pushDelta v).err = s.err ∧ (s.pushDelta v).val = v := by
  unfold pushDelta
  dsimp only
  split
  · exact ⟨rfl, rfl, rfl, rfl⟩
  · split <;> exact ⟨rfl, rfl, rfl, rfl⟩

theorem push_of_not_first (hfirst : s.first = false)
    (hv : isNaN v = false ∨ s.finished = true) : s.push v = s.pushDelta v := by
  unfold push
  rw [if_neg (by rcases hv with h | h <;> simp [h]), if_neg (by simp [hfirst])]

theorem push_finished (s : FloatEncoder) (v : UInt64) : (s.push v).finished = s.finished := by
  unfold push
  split
  · rfl
  · split
    · rfl
    · exact (pushDelta_flags s v).2.1

/-- An error stays, and a NaN is one as long as the encoder has not finished. -/
theorem push_err (s : FloatEncoder) (v : UInt64) :
    (s.push v).err = (s.err || (isNaN v && !s.finished)) := by
  unfold push
  split
  · rename_i hnan
    rw [hnan, Bool.or_true]
  rename_i hnan
  rw [Bool.not_eq_true] at hnan
  rw [hnan, Bool.or_false]
  split
  · rfl
  · exact (pushDelta_flags s v).2.2.1

theorem foldl_push_err (vs : List UInt64) (h : s.finished = false) :
    (vs.foldl push s).err = (s.err || vs.any isNaN) := by
  induction vs generalizing s with
  | nil => rw [foldl_nil, any_nil, Bool.or_false]
  | cons v vs ih =>
    rw [foldl_cons, ih ((push_finished s v).trans h), push_err, h, any_cons,
      Bool.not_false, Bool.and_true, Bool.or_assoc]

theorem finish_err (s : FloatEncoder) : s.finish.err = s.err := by
  unfold finish
  split
  · rfl
  · rw [push_err, Bool.not_true, Bool.and_false, Bool.or_false]

end FloatEncoder

open FloatEncoder (push_of_not_first foldl_push_err finish_err)

/-- The values after the first, and the NaN at the end. -/
theorem drains_finish : ∀ (vs : List UInt64) (s : FloatEncoder), s.first = false →
    s.finished = false → (∀ v ∈ vs, isNaN v = false) →
    ∃ bits, (vs.foldl push s).finish.buf = s.buf ++ bits ∧
      ∀ it rest, InStep s it → it.br = bits ++ rest →
        ∃ it', cursor.Drains it vs it' ∧ it'.err = false
  | [], s, hfirst, hfinished, _ => by
    obtain ⟨bits, hbuf, hnext⟩ := nextValue_pushDelta { s with finished := true } nan
    refine ⟨bits, ?_, fun it rest hin hbr => ?_⟩
    · have hpush := @push_of_not_first nan { s with finished := true } hfirst
        (.inr rfl)
      rw [foldl_nil, FloatEncoder.finish, hfinished, if_neg (by decide), hpush]
      exact hbuf
    · obtain ⟨it', hnext', herr⟩ := (hnext it rest
        ⟨hin.val, hin.notNaN, hin.first, hin.finished, hin.err, hin.window⟩ hbr).2 (by decide)
      refine ⟨it', .stop ?_, herr⟩
      change some (it.next) = _
      rw [hin.next_eq, hnext']
  | v :: vs, s, hfirst, hfinished, hnan => by
    have hv := hnan v mem_cons_self
    obtain ⟨hf, hfin, -, hpushed⟩ := s.pushDelta_flags v
    obtain ⟨bits, hbuf, hnext⟩ := nextValue_pushDelta s v
    obtain ⟨bits', hbuf', hrest⟩ := drains_finish vs (s.pushDelta v) (hf.trans hfirst)
      (hfin.trans hfinished) (forall_mem_cons.mp hnan).2
    refine ⟨bits ++ bits', ?_, fun it rest hin hbr => ?_⟩
    · rw [foldl_cons, push_of_not_first hfirst (.inl hv), hbuf', hbuf, append_assoc]
    · rw [append_assoc] at hbr
      obtain ⟨it₁, hnext₁, hbr₁, hin₁⟩ := (hnext it _ hin hbr).1 hv
      obtain ⟨it', hdrains, herr⟩ := hrest it₁ rest hin₁ hbr₁
      have hstep : cursor.next it = some (true, it₁) := by
        change some (it.next) = _
        rw [hin.next_eq, hnext₁]
      have hval : it₁.val = v := hin₁.val.trans hpushed
      refine ⟨it', ?_, herr⟩
      have := Cursor.Drains.step hstep hdrains
      rwa [show (cursor.read it₁).1 = v from hval] at this

/-! ## The round trip -/

/-- A decoder starts with the first value of the stream. -/
theorem new_of_buf (v : UInt64) (bits : List Bool) (format : UInt8) :
    ∃ rest, FloatDecoder.new (format :: pack (writeBits v.toNat 64 ++ bits)) =
      some ⟨v, 0, 0, bits ++ rest, true, false, false⟩ := by
  obtain ⟨k, hk⟩ := unpack_pack (writeBits v.toNat 64 ++ bits)
  refine ⟨List.replicate k false, ?_⟩
  rw [FloatDecoder.new, drop_one, tail_cons, hk, append_assoc, readBits_writeBits v.toNat_lt]
  simp

/-- The bits of a list of values: the first one in full, and the values after it. -/
theorem drains_new : ∀ vs : List UInt64, (∀ v ∈ vs, isNaN v = false) →
    ∃ d d', FloatDecoder.new (vs.foldl push FloatEncoder.new).finish.bytes.1 = some d ∧
      cursor.Drains d vs d' ∧ d'.err = false
  | [], _ => by
    obtain ⟨rest, hnew⟩ := new_of_buf nan [] (floatCompressedGorilla <<< 4)
    have hnan : isNaN nan = true := by decide
    exact ⟨_, ⟨nan, 0, 0, [] ++ rest, false, true, false⟩, hnew,
      .stop (by simp [cursor, FloatDecoder.next, hnan]), rfl⟩
  | v :: vs, hnan => by
    have hv := hnan v mem_cons_self
    have hpush : FloatEncoder.new.push v =
        ⟨v, false, noWindow, 0, writeBits v.toNat 64, false, false⟩ := by
      unfold push
      rw [if_neg (by simp [hv])]
      rfl
    obtain ⟨bits, hbuf, hdrains⟩ := drains_finish vs (FloatEncoder.new.push v) (by rw [hpush])
      (by rw [hpush]) (forall_mem_cons.mp hnan).2
    obtain ⟨rest, hnew⟩ := new_of_buf v bits (floatCompressedGorilla <<< 4)
    obtain ⟨d', hd, herr⟩ := hdrains ⟨v, 0, 0, bits ++ rest, false, false, false⟩ rest
      (by rw [hpush]; exact ⟨rfl, hv, rfl, rfl, rfl, .inl rfl⟩) rfl
    have hnext : cursor.next ⟨v, 0, 0, bits ++ rest, true, false, false⟩ =
        some (true, ⟨v, 0, 0, bits ++ rest, false, false, false⟩) := by
      simp [cursor, FloatDecoder.next, hv]
    refine ⟨⟨v, 0, 0, bits ++ rest, true, false, false⟩, d', ?_, .step hnext hd, herr⟩
    rw [foldl_cons, FloatEncoder.bytes, hbuf, hpush]
    exact hnew

/-- **Floats survive the codec**: a list without NaN is read back as it is, and
the reading ends without an error. A NaN makes `Bytes` fail. -/
theorem floats_roundTrip (vs : List UInt64) : ((∀ v ∈ vs, isNaN v = false) →
      ∃ b d d', (vs.foldl push FloatEncoder.new).finish.bytes = (b, false) ∧
        FloatDecoder.new b = some d ∧ cursor.Drains d vs d' ∧ d'.err = false) ∧
      ((∃ v ∈ vs, isNaN v = true) → (vs.foldl push FloatEncoder.new).bytes.2 = true ∧
          (vs.foldl push FloatEncoder.new).finish.bytes.2 = true) := by
  have herr : (vs.foldl push FloatEncoder.new).err = vs.any isNaN := by
    rw [foldl_push_err vs rfl]
    rfl
  refine ⟨fun hnan => ?_, fun ⟨v, hv, hnan⟩ => ?_⟩
  · obtain ⟨d, d', hnew, hdrains, hend⟩ := drains_new vs hnan
    have hany : vs.any isNaN = false := any_eq_false.mpr (fun v hv => by simp [hnan v hv])
    refine ⟨_, d, d', Prod.ext rfl ?_, hnew, hdrains, hend⟩
    change (FloatEncoder.finish _).err = false
    rw [finish_err, herr, hany]
  · have hany : vs.any isNaN = true := any_eq_true.mpr ⟨v, hv, hnan⟩
    refine ⟨herr.trans hany, ?_⟩
    change (FloatEncoder.finish _).err = true
    rw [finish_err, herr, hany]

/-- `1.0, 1.5, -0.0` is read back. -/
theorem floats_roundTrip_three :
    ∃ b d d', ([0x3FF0000000000000, 0x3FF8000000000000, 0x8000000000000000].foldl
        push FloatEncoder.new).finish.bytes = (b, false) ∧
      FloatDecoder.new b = some d ∧ cursor.Drains d
        [0x3FF0000000000000, 0x3FF8000000000000, 0x8000000000000000] d' ∧ d'.err = false :=
  (floats_roundTrip _).1 (forall_mem_cons.mpr ⟨by decide, forall_mem_cons.mpr
    ⟨by decide, forall_mem_singleton.mpr (by decide)⟩⟩)

end AndyEnv.Tsm1.Codec
