import Mathlib.Data.Nat.Bitwise
import AndyEnv.Lib.Bits
import AndyEnv.Lib.Cursor
import AndyEnv.Lib.Varint

/-!
# The bool codec

One bit a value, the first value in the highest bit of the first byte, after
a header with the format and the number of values. The last byte is filled up
with zeros.
-/

namespace AndyEnv.Tsm1.Codec

open List Bytes Bits

/-! ## The encoder -/

def boolCompressedBitPacked : UInt8 := 1

structure BoolEncoder : Type where
  bytes : Bytes
  /-- The byte that is being filled. -/
  b : UInt8
  /-- The number of values in `b`. -/
  i : ℕ
  /-- The number of values written. -/
  n : ℕ
deriving DecidableEq, Repr

namespace BoolEncoder

def new : BoolEncoder := ⟨[], 0, 0, 0⟩

/-- `k` turns of the loop that shifts a zero in. -/
def pad : ℕ → UInt8 → UInt8
  | 0, b => b
  | k + 1, b => pad k (b <<< 1)

/-- `flush`. The padding leaves `i` at eight or more, so that a byte is appended
whatever was written. -/
def flush (e : BoolEncoder) : BoolEncoder :=
  { e with bytes := e.bytes ++ [pad (8 - e.i) e.b], b := 0, i := 0 }

def write (e : BoolEncoder) (v : Bool) : BoolEncoder :=
  let e := if e.i ≥ 8 then e.flush else e
  let b := e.b <<< 1
  { e with b := if v then b ||| 1 else b, i := e.i + 1, n := e.n + 1 }

/-- `Bytes`. -/
def finish (e : BoolEncoder) : Bytes :=
  (boolCompressedBitPacked <<< 4) :: (putUvarint (UInt64.ofNat e.n) ++ e.flush.bytes)

end BoolEncoder

/-! ## The decoder -/

structure BoolDecoder : Type where
  b : Bytes
  i : ℤ
  n : ℤ
deriving DecidableEq, Repr

namespace BoolDecoder

/-- `NewBoolDecoder`; it panics without a header, and where the count is cut. -/
def new : Bytes → Option BoolDecoder
  | [] => none
  | _ :: b =>
    let (count, n) := uvarint b
    if n < 0 then none else some ⟨b.drop n.toNat, -1, count.toInt64.toInt⟩

def next (d : BoolDecoder) : Bool × BoolDecoder :=
  let i := d.i + 1
  (decide (i < d.n), { d with i := i })

/-- `Read`; it panics where there is no such byte. -/
def read (d : BoolDecoder) : Option Bool :=
  let idx := d.i.tdiv 8
  let pos := (8 - d.i.tmod 8) - 1
  let mask := UInt8.ofNat (2 ^ pos.toNat)
  if idx < 0 then none else (d.b[idx.toNat]?).map (fun v => v &&& mask == mask)

def reader : Reader BoolDecoder Bool where
  next d := some d.next
  read d := d.read.map (fun v => (v, d))

end BoolDecoder

variable {e : BoolEncoder} {done pending : List Bool}

/-! ## What is written -/

namespace BoolEncoder

/-- The full bytes hold the values but the last few, and `b` holds those. -/
structure Holds (e : BoolEncoder) (done pending : List Bool) : Prop where
  bytes : unpack e.bytes = done
  byte : e.b.toNat = toNat pending
  i : e.i = pending.length
  n : e.n = done.length + pending.length
  le : pending.length ≤ 8

theorem holds_new : new.Holds [] [] := ⟨rfl, rfl, rfl, rfl, Nat.zero_le 8⟩

theorem toNat_shiftLeft_one {b : UInt8} (h : b.toNat < 128) : (b <<< 1).toNat = 2 * b.toNat := by
  rw [UInt8.toNat_shiftLeft]
  simp only [UInt8.reduceToNat, Nat.reduceMod, Nat.shiftLeft_eq, pow_one]
  omega

theorem toNat_shift_or {b : UInt8} (h : b.toNat < 128) (v : Bool) :
    (if v then b <<< 1 ||| 1 else b <<< 1).toNat = 2 * b.toNat + v.toNat := by
  cases v with
  | false => exact toNat_shiftLeft_one h
  | true =>
    rw [if_pos rfl, UInt8.toNat_or, toNat_shiftLeft_one h]
    exact (Nat.two_pow_add_eq_or_of_lt (i := 1) (b := 1) (by decide) b.toNat).symm

theorem toNat_concat (bits : List Bool) (v : Bool) :
    toNat (bits ++ [v]) = 2 * toNat bits + v.toNat := by
  rw [Bits.toNat, foldl_append]
  rfl

theorem toNat_pad : ∀ {k : ℕ} {b : UInt8} {bits : List Bool}, b.toNat = toNat bits →
    bits.length + k = 8 → (pad k b).toNat = toNat (bits ++ List.replicate k false)
  | 0, b, bits, hb, _ => by simpa [pad] using hb
  | k + 1, b, bits, hb, hlen => by
    have hlt : b.toNat < 128 := by
      rw [hb]
      calc toNat bits < 2 ^ bits.length := toNat_lt bits
        _ ≤ 2 ^ 7 := Nat.pow_le_pow_right (by decide) (by omega)
    have hshift : (b <<< 1).toNat = toNat (bits ++ [false]) := by
      rw [toNat_shiftLeft_one hlt, toNat_concat, hb]
      rfl
    rw [pad, toNat_pad hshift (by rw [length_append, length_singleton]; omega),
      append_assoc, replicate_succ]
    rfl

theorem unpack_append_singleton (bytes : Bytes) (b : UInt8) :
    unpack (bytes ++ [b]) = unpack bytes ++ writeBits b.toNat 8 := by
  rw [unpack, flatMap_append, flatMap_singleton]
  rfl

theorem Holds.unpack_flush (h : e.Holds done pending) :
    unpack e.flush.bytes = done ++ (pending ++ List.replicate (8 - pending.length) false) := by
  have hle := h.le
  have hbits := writeBits_toNat (pending ++ List.replicate (8 - pending.length) false)
  rw [length_append, length_replicate, Nat.add_sub_cancel' hle] at hbits
  rw [flush, unpack_append_singleton, h.bytes, h.i, toNat_pad h.byte (Nat.add_sub_cancel' hle), hbits]

theorem Holds.flush (h : e.Holds done pending)
    (hfull : pending.length = 8) : e.flush.Holds (done ++ pending) [] := by
  refine ⟨?_, rfl, rfl, ?_, Nat.zero_le 8⟩
  · rw [h.unpack_flush, hfull, replicate_zero, append_nil]
  · rw [length_append]
    exact h.n

theorem Holds.write_of_lt (h : e.Holds done pending)
    (hlt : pending.length < 8) (v : Bool) : (e.write v).Holds done (pending ++ [v]) := by
  have hb : e.b.toNat < 128 := by
    rw [h.byte]
    calc toNat pending < 2 ^ pending.length := toNat_lt pending
      _ ≤ 2 ^ 7 := Nat.pow_le_pow_right (by decide) (by omega)
  rw [write, if_neg (by rw [h.i]; omega)]
  refine ⟨h.bytes, ?_, ?_, ?_, ?_⟩
  · rw [toNat_concat, ← h.byte]
    exact toNat_shift_or hb v
  · rw [length_append, ← h.i]
    rfl
  · rw [length_append, ← add_assoc, ← h.n]
    rfl
  · rw [length_append]
    exact hlt

/-- **A value is written behind the others.** -/
theorem Holds.write (h : e.Holds done pending)
    (v : Bool) : ∃ done' pending', (e.write v).Holds done' pending' ∧
      done' ++ pending' = done ++ pending ++ [v] := by
  by_cases hlt : pending.length < 8
  · exact ⟨done, pending ++ [v], h.write_of_lt hlt v, (append_assoc _ _ _).symm⟩
  have hfull : pending.length = 8 := Nat.le_antisymm h.le (Nat.le_of_not_lt hlt)
  have hwrite : e.write v = e.flush.write v := by
    rw [BoolEncoder.write, if_pos (by rw [h.i, hfull])]
    rfl
  refine ⟨done ++ pending, [v], ?_, rfl⟩
  rw [hwrite]
  exact (h.flush hfull).write_of_lt (by decide) v

theorem Holds.foldl_write : ∀ (vs : List Bool) {e : BoolEncoder} {done pending : List Bool},
    e.Holds done pending → ∃ done' pending', (vs.foldl BoolEncoder.write e).Holds done' pending' ∧
      done' ++ pending' = done ++ pending ++ vs
  | [], _, done, pending, h => ⟨done, pending, h, (append_nil _).symm⟩
  | v :: vs, _, _, _, h => by
    obtain ⟨done₁, pending₁, h₁, heq₁⟩ := h.write v
    obtain ⟨done', pending', h', heq'⟩ := h₁.foldl_write vs
    refine ⟨done', pending', h', ?_⟩
    rw [heq', heq₁, append_assoc]
    rfl

/-- The bytes of a list of values: their number, and the values with zeros after
them. -/
theorem finish_eq (vs : List Bool) : ∃ packed k, (vs.foldl write new).finish =
      (boolCompressedBitPacked <<< 4) :: (putUvarint (UInt64.ofNat vs.length) ++ packed) ∧
      unpack packed = vs ++ List.replicate k false := by
  obtain ⟨done, pending, h, heq⟩ := holds_new.foldl_write vs
  rw [nil_append] at heq
  have hn : (vs.foldl write new).n = vs.length := by rw [h.n, ← length_append, heq]; rfl
  refine ⟨(vs.foldl write new).flush.bytes, 8 - pending.length, by rw [finish, hn], ?_⟩
  rw [h.unpack_flush, ← append_assoc, heq]
  rfl

end BoolEncoder

/-! ## What is read -/

theorem and_mask (v : UInt8) {k : ℕ} (hk : k < 8) :
    (v &&& UInt8.ofNat (2 ^ k) == UInt8.ofNat (2 ^ k)) = v.toNat.testBit k := by
  have hmask : (UInt8.ofNat (2 ^ k)).toNat = 2 ^ k := by
    rw [UInt8.toNat_ofNat']
    exact Nat.mod_eq_of_lt (Nat.pow_lt_pow_right (by decide) hk)
  rw [Bool.eq_iff_iff, beq_iff_eq, ← UInt8.toNat_inj, UInt8.toNat_and, hmask, Nat.and_two_pow]
  have hpos : 2 ^ k ≠ 0 := pow_ne_zero k (by decide)
  cases v.toNat.testBit k <;> simp [hpos.symm]

theorem getElem?_writeBits (n : ℕ) : ∀ {width i : ℕ}, i < width →
    (writeBits n width)[i]? = some (n.testBit (width - 1 - i))
  | 0, _, h => absurd h (Nat.not_lt_zero _)
  | width + 1, 0, _ => rfl
  | width + 1, i + 1, h => by
    rw [writeBits, List.getElem?_cons_succ, getElem?_writeBits n (Nat.lt_of_succ_lt_succ h)]
    congr 2
    omega

theorem getElem?_unpack : ∀ (bytes : Bytes) (i : ℕ),
    (unpack bytes)[i]? = (bytes[i / 8]?).map (fun v => v.toNat.testBit (7 - i % 8))
  | [], i => rfl
  | v :: bytes, i => by
    have hlen := length_writeBits v.toNat 8
    rw [unpack, flatMap_cons]
    by_cases hi : i < 8
    · rw [List.getElem?_append_left (by omega), getElem?_writeBits _ hi, Nat.div_eq_of_lt hi,
        Nat.mod_eq_of_lt hi]
      rfl
    · have ih := getElem?_unpack bytes (i - 8)
      have hdiv : i / 8 = (i - 8) / 8 + 1 := by omega
      have hmod : (i - 8) % 8 = i % 8 := by omega
      rw [List.getElem?_append_right (by omega), hlen, hdiv, List.getElem?_cons_succ, ← hmod]
      exact ih

namespace BoolDecoder

theorem read_eq (b : Bytes) (i : ℕ) (n : ℤ) : read ⟨b, i, n⟩ = (unpack b)[i]? := by
  have hdiv : (i : ℤ).tdiv 8 = (i / 8 : ℕ) := rfl
  have hmod : (8 - (i : ℤ).tmod 8 - 1).toNat = 7 - i % 8 := by
    have : (i : ℤ).tmod 8 = (i % 8 : ℕ) := rfl
    omega
  rw [getElem?_unpack, read]
  dsimp only
  rw [hdiv, hmod, if_neg (by omega), Int.toNat_natCast]
  congr 1
  funext v
  exact and_mask v (by omega)

theorem reads_from {b : Bytes} {n : ℕ} {pad : List Bool} : ∀ {vs done : List Bool},
    unpack b = done ++ vs ++ pad → n = done.length + vs.length →
      reader.Reads ⟨b, (done.length : ℤ) - 1, n⟩ vs ⟨b, (n : ℤ) - 1, n⟩
  | [], done, _, hn => by
    rw [hn]
    exact .nil
  | v :: vs, done, hb, hn => by
    have hnext : reader.next ⟨b, (done.length : ℤ) - 1, n⟩ = some (true, ⟨b, done.length, n⟩) := by
      have hlt : (done.length : ℤ) < n := by rw [hn, length_cons]; omega
      simp [reader, next, hlt]
    have hread : reader.read ⟨b, done.length, n⟩ = some (v, ⟨b, done.length, n⟩) := by
      have hat : (unpack b)[done.length]? = some v := by
        rw [hb, append_assoc, List.getElem?_append_right (Nat.le_refl _), Nat.sub_self]
        rfl
      simp [reader, read_eq, hat]
    have hrest := @reads_from b n pad vs (done ++ [v]) (by rw [hb]; simp) (by rw [hn]; simp; omega)
    rw [length_append] at hrest
    push_cast at hrest
    rw [length_singleton, Nat.cast_one, add_sub_cancel_right] at hrest
    exact .cons hnext hread hrest

end BoolDecoder

/-- **The bools survive the codec.** -/
theorem reads_bools (vs : List Bool) (hlen : vs.length < 2 ^ 63) :
    ∃ d d', BoolDecoder.new (vs.foldl BoolEncoder.write BoolEncoder.new).finish = some d ∧
      BoolDecoder.reader.Reads d vs d' := by
  obtain ⟨packed, k, hfinish, hunpack⟩ := BoolEncoder.finish_eq vs
  have hcount : (UInt64.ofNat vs.length).toInt64.toInt = vs.length := Int64.toInt_ofNat_of_lt hlen
  have hnew : BoolDecoder.new (vs.foldl BoolEncoder.write BoolEncoder.new).finish =
      some ⟨packed, -1, vs.length⟩ := by
    rw [hfinish, BoolDecoder.new, uvarint_putUvarint_append]
    dsimp only
    rw [if_neg (by omega), Int.toNat_natCast, drop_left, hcount]
  exact ⟨_, _, hnew, @BoolDecoder.reads_from packed vs.length _ vs [] hunpack (by simp)⟩

end AndyEnv.Tsm1.Codec
