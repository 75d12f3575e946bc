import AndyEnv.Lib.Bytes

/-!
# Varints

`putUvarint` and `uvarint` follow `encoding/binary`'s `PutUvarint` and
`Uvarint`: seven bits a byte, the low ones first, and the high bit set on
every byte but the last.
-/

namespace AndyEnv

open List

namespace Bytes

def putUvarintLoop : ℕ → ℕ → Bytes
  | 0, _ => []
  | fuel + 1, x =>
    if x ≥ 128 then UInt8.ofNat (x % 128 + 128) :: putUvarintLoop fuel (x / 128)
    else [UInt8.ofNat x]

/-- Ten bytes hold 64 bits. -/
def putUvarint (x : UInt64) : Bytes := putUvarintLoop 10 x.toNat

theorem putUvarint_ne_nil (x : UInt64) : putUvarint x ≠ [] := by
  rw [putUvarint, putUvarintLoop]
  split <;> exact cons_ne_nil _ _

/-- From byte `i` on, with the bits `x` read so far. -/
def uvarintLoop (i x : ℕ) : Bytes → UInt64 × ℤ
  | [] => (0, 0)
  | b :: bs =>
    if b.toNat < 128 then
      -- overflow
      if i > 9 ∨ i = 9 ∧ b.toNat > 1 then (0, -(i + 1))
      else (UInt64.ofNat (x + b.toNat * 2 ^ (7 * i)), i + 1)
    else uvarintLoop (i + 1) ((x + (b.toNat - 128) * 2 ^ (7 * i)) % 2 ^ 64) bs

/-- The value, and the number of bytes read: 0 if the bytes end too soon, and
negative on overflow. -/
def uvarint (b : Bytes) : UInt64 × ℤ := uvarintLoop 0 0 b

theorem uvarintLoop_append (rest : Bytes) : ∀ {fuel i acc x : ℕ}, fuel + i = 10 →
    x * 2 ^ (7 * i) < 2 ^ 64 → acc < 2 ^ (7 * i) → (i = 10 → x ≠ 0) →
    uvarintLoop i acc (putUvarintLoop fuel x ++ rest) =
      (UInt64.ofNat (acc + x * 2 ^ (7 * i)), ((i + (putUvarintLoop fuel x).length : ℕ) : ℤ))
  | 0, i, acc, x, hfuel, hx, _, hne => by
    -- ten bytes have taken more than 64 bits
    obtain rfl : i = 10 := by omega
    have := hne rfl
    omega
  | fuel + 1, i, acc, x, hfuel, hx, hacc, _ => by
    rw [putUvarintLoop]
    split
    · rename_i hge
      have hbyte : (UInt8.ofNat (x % 128 + 128)).toNat = x % 128 + 128 :=
        UInt8.toNat_ofNat_of_lt' (show x % 128 + 128 < 256 by omega)
      have hpow : 2 ^ (7 * (i + 1)) = 128 * 2 ^ (7 * i) := by
        rw [Nat.mul_succ, Nat.pow_add, Nat.mul_comm]
      have hsplit : x * 2 ^ (7 * i) = x % 128 * 2 ^ (7 * i) + x / 128 * (128 * 2 ^ (7 * i)) := by
        rw [← Nat.mul_assoc, ← Nat.add_mul, Nat.mul_comm (x / 128), Nat.mod_add_div]
      have hlow : acc + x % 128 * 2 ^ (7 * i) < 128 * 2 ^ (7 * i) :=
        calc acc + x % 128 * 2 ^ (7 * i) < 2 ^ (7 * i) + x % 128 * 2 ^ (7 * i) := by omega
          _ = (x % 128 + 1) * 2 ^ (7 * i) := by ring
          _ ≤ 128 * 2 ^ (7 * i) := Nat.mul_le_mul_right _ (by omega)
      have hfit : 128 * 2 ^ (7 * i) ≤ x * 2 ^ (7 * i) := Nat.mul_le_mul_right _ hge
      rw [cons_append, uvarintLoop, hbyte, if_neg (by omega), Nat.add_sub_cancel,
        Nat.mod_eq_of_lt (by omega),
        uvarintLoop_append rest (by omega) (by rw [hpow]; omega) (by rw [hpow]; exact hlow)
          (by omega), hpow, length_cons]
      refine Prod.ext ?_ ?_
      · dsimp only
        congr 1
        omega
      · dsimp only
        omega
    · rename_i hlt
      have hbyte : (UInt8.ofNat x).toNat = x := UInt8.toNat_ofNat_of_lt' (show x < 256 by omega)
      rw [singleton_append, uvarintLoop, hbyte, if_pos (by omega), if_neg]
      · rfl
      · rintro (h | ⟨h, h'⟩)
        · omega
        · subst h
          omega

/-- **`Uvarint` undoes `PutUvarint`**, whatever follows. -/
theorem uvarint_putUvarint_append (v : UInt64) (rest : Bytes) :
    uvarint (putUvarint v ++ rest) = (v, ((putUvarint v).length : ℤ)) := by
  have h := @uvarintLoop_append rest 10 0 0 v.toNat rfl (by simpa using v.toNat_lt) one_pos
    nofun
  simpa [uvarint, putUvarint] using h

theorem uvarint_putUvarint (v : UInt64) :
    uvarint (putUvarint v) = (v, ((putUvarint v).length : ℤ)) := by
  have := uvarint_putUvarint_append v []
  rwa [append_nil] at this

end Bytes

end AndyEnv
