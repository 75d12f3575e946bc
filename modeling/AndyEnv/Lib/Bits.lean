import AndyEnv.Lib.Bytes

/-!
# Bit streams

Bits are written most significant first and packed into bytes; the last byte
is filled up with zeros. `readBits` takes from the front what `writeBits` has
put there.
-/

namespace AndyEnv

open List

namespace Bits

/-- The low `width` bits of `n`, the highest first. -/
def writeBits (n : ℕ) : ℕ → List Bool
  | 0 => []
  | width + 1 => n.testBit width :: writeBits n width

def toNat (bits : List Bool) : ℕ := bits.foldl (fun acc b => 2 * acc + b.toNat) 0

def readBits (width : ℕ) (bits : List Bool) : Option (ℕ × List Bool) :=
  if bits.length < width then none else some (toNat (bits.take width), bits.drop width)

@[simp] theorem length_writeBits (n : ℕ) : ∀ width, (writeBits n width).length = width
  | 0 => rfl
  | width + 1 => congrArg Nat.succ (length_writeBits n width)

theorem foldl_writeBits (n : ℕ) : ∀ (width acc : ℕ),
    (writeBits n width).foldl (fun acc b => 2 * acc + b.toNat) acc = acc * 2 ^ width + n % 2 ^ width
  | 0, acc => by simp [writeBits, Nat.mod_one]
  | width + 1, acc => by
    rw [writeBits, foldl_cons, foldl_writeBits n width, Nat.mod_pow_succ, Nat.toNat_testBit]
    ring

/-- **What was written is read**, whatever follows. -/
theorem readBits_writeBits_mod (n width : ℕ) (rest : List Bool) :
    readBits width (writeBits n width ++ rest) = some (n % 2 ^ width, rest) := by
  have hlen := length_writeBits n width
  rw [readBits, if_neg (by simp), take_left' hlen, drop_left' hlen, toNat,
    foldl_writeBits, zero_mul, zero_add]

theorem readBits_writeBits {n width : ℕ} (h : n < 2 ^ width) (rest : List Bool) :
    readBits width (writeBits n width ++ rest) = some (n, rest) := by
  rw [readBits_writeBits_mod, Nat.mod_eq_of_lt h]

@[simp] theorem readBits_one_cons (b : Bool) (rest : List Bool) :
    readBits 1 (b :: rest) = some (b.toNat, rest) := by
  simp [readBits, toNat]

/-! ## Bytes -/

def packLoop : ℕ → List Bool → Bytes
  | 0, _ => []
  | fuel + 1, bits =>
    if bits = [] then []
    else
      let group := bits.take 8
      UInt8.ofNat (toNat (group ++ List.replicate (8 - group.length) false)) ::
        packLoop fuel (bits.drop 8)

/-- The bytes of a stream that is flushed with zeros. -/
def pack (bits : List Bool) : Bytes := packLoop bits.length bits

def unpack (bytes : Bytes) : List Bool := bytes.flatMap (fun b => writeBits b.toNat 8)

theorem foldl_toNat : ∀ (bits : List Bool) (acc : ℕ),
    bits.foldl (fun acc b => 2 * acc + b.toNat) acc = 2 ^ bits.length * acc + toNat bits
  | [], acc => by simp [toNat]
  | b :: bits, acc => by
    have hnil := foldl_toNat bits (2 * 0 + b.toNat)
    rw [toNat, foldl_cons, foldl_cons, hnil, foldl_toNat bits, length_cons, pow_succ]
    ring

theorem toNat_cons (b : Bool) (bits : List Bool) :
    toNat (b :: bits) = 2 ^ bits.length * b.toNat + toNat bits := by
  rw [toNat, foldl_cons, foldl_toNat]
  simp

theorem toNat_lt : ∀ bits : List Bool, toNat bits < 2 ^ bits.length
  | [] => by decide
  | b :: bits => by
    have ih := toNat_lt bits
    rw [toNat_cons, length_cons, pow_succ]
    cases b <;> simp <;> omega

theorem writeBits_congr {n m : ℕ} : ∀ {width : ℕ},
    (∀ i < width, n.testBit i = m.testBit i) → writeBits n width = writeBits m width
  | 0, _ => rfl
  | width + 1, h => by
    rw [writeBits, writeBits, h width (Nat.lt_succ_self _),
      writeBits_congr (fun i hi => h i (Nat.lt_succ_of_lt hi))]

theorem writeBits_toNat : ∀ bits : List Bool, writeBits (toNat bits) bits.length = bits
  | [] => rfl
  | b :: bits => by
    have hbit := Nat.testBit_two_pow_mul_add b.toNat (toNat_lt bits)
    rw [length_cons, writeBits, toNat_cons, hbit, if_neg (Nat.lt_irrefl _), Nat.sub_self]
    have hrest : writeBits (2 ^ bits.length * b.toNat + toNat bits) bits.length =
        writeBits (toNat bits) bits.length :=
      writeBits_congr (fun i hi => by rw [hbit, if_pos hi])
    rw [hrest, writeBits_toNat bits]
    cases b <;> rfl

/-- **The bytes hold the bits**, and zeros after them. -/
theorem unpack_packLoop : ∀ {fuel : ℕ} {bits : List Bool}, bits.length ≤ fuel →
    ∃ k, unpack (packLoop fuel bits) = bits ++ List.replicate k false
  | 0, bits, h => by
    rw [length_eq_zero_iff.mp (Nat.le_zero.mp h)]
    exact ⟨0, rfl⟩
  | fuel + 1, bits, h => by
    rw [packLoop]
    split
    · rename_i hnil
      rw [hnil]
      exact ⟨0, rfl⟩
    rename_i hne
    have hpos := length_pos_iff.mpr hne
    obtain ⟨k, hk⟩ := @unpack_packLoop fuel (bits.drop 8) (by rw [length_drop]; omega)
    have hlen : (bits.take 8 ++ List.replicate (8 - (bits.take 8).length) false).length = 8 := by
      rw [length_append, length_replicate, List.length_take]
      omega
    have hbyte : (UInt8.ofNat (toNat (bits.take 8 ++
        List.replicate (8 - (bits.take 8).length) false))).toNat =
          toNat (bits.take 8 ++ List.replicate (8 - (bits.take 8).length) false) := by
      refine UInt8.toNat_ofNat_of_lt' (lt_of_lt_of_le (toNat_lt _) ?_)
      rw [hlen]
      decide
    have hbits := writeBits_toNat
      (bits.take 8 ++ List.replicate (8 - (bits.take 8).length) false)
    rw [hlen] at hbits
    rw [unpack, flatMap_cons, hbyte, hbits]
    change ∃ k, _ ++ unpack (packLoop fuel (bits.drop 8)) = _
    rw [hk]
    by_cases hlong : 8 ≤ bits.length
    · refine ⟨k, ?_⟩
      rw [List.length_take, Nat.min_eq_left hlong, Nat.sub_self, replicate_zero,
        append_nil, ← append_assoc, take_append_drop]
    · refine ⟨8 - bits.length + k, ?_⟩
      rw [take_of_length_le (by omega), drop_eq_nil_of_le (by omega),
        nil_append, append_assoc, ← replicate_add]

theorem unpack_pack (bits : List Bool) : ∃ k, unpack (pack bits) = bits ++ List.replicate k false :=
  unpack_packLoop le_rfl

end Bits

end AndyEnv
