import Mathlib.Data.List.Sort
import Mathlib.Tactic

/-!
# Byte strings and big-endian words

`beBytes k n` writes the low `k` base-256 digits of `n`, most significant
first; `beNat` reads a byte string back. The fixed-width accessors
`putUint64`, `uint64`, `putUint32` and `uint32` follow `encoding/binary`'s
`BigEndian`.
-/

namespace AndyEnv

open List

abbrev Bytes : Type := List UInt8

instance : LawfulBEq Bytes := instLawfulBEq

namespace Bytes

/-- The low `k` base-256 digits of `n`, most significant digit first. -/
def beBytes : ℕ → ℕ → Bytes
  | 0, _ => []
  | k + 1, n => beBytes k (n / 256) ++ [UInt8.ofNat n]

def beNat (b : Bytes) : ℕ := b.foldl (fun acc x => acc * 256 + x.toNat) 0

@[simp] theorem length_beBytes : ∀ k n, (beBytes k n).length = k
  | 0, _ => rfl
  | k + 1, n => by simp [beBytes, length_beBytes k]

theorem beNat_append_singleton (b : Bytes) (x : UInt8) :
    beNat (b ++ [x]) = beNat b * 256 + x.toNat := by
  simp [beNat]

/-- Reading the digits back gives the number modulo `256 ^ k`. -/
theorem beNat_beBytes : ∀ k n, beNat (beBytes k n) = n % 256 ^ k
  | 0, n => by simp [beBytes, beNat, Nat.mod_one]
  | k + 1, n => by
    rw [beBytes, beNat_append_singleton, beNat_beBytes k]
    have hx : (UInt8.ofNat n).toNat = n % 256 := by simp
    rw [hx, pow_succ', Nat.mod_mul]
    ring

def putUint64 (v : UInt64) : Bytes := beBytes 8 v.toNat

/-- `binary.BigEndian.Uint64(b)`: the first eight bytes of `b`. -/
def uint64 (b : Bytes) : UInt64 := UInt64.ofNat (beNat (b.take 8))

def putUint32 (v : UInt32) : Bytes := beBytes 4 v.toNat

def uint32 (b : Bytes) : UInt32 := UInt32.ofNat (beNat (b.take 4))

def putUint16 (v : UInt16) : Bytes := beBytes 2 v.toNat

def uint16 (b : Bytes) : UInt16 := UInt16.ofNat (beNat (b.take 2))

@[simp] theorem length_putUint64 (v : UInt64) : (putUint64 v).length = 8 := length_beBytes 8 _

@[simp] theorem length_putUint32 (v : UInt32) : (putUint32 v).length = 4 := length_beBytes 4 _

theorem beNat_take_append (k n : ℕ) (rest : Bytes) :
    beNat ((beBytes k n ++ rest).take k) = n % 256 ^ k := by
  rw [take_left' (length_beBytes k n), beNat_beBytes]

theorem uint64_putUint64_append (v : UInt64) (rest : Bytes) : uint64 (putUint64 v ++ rest) = v := by
  have hlt : v.toNat < 256 ^ 8 := v.toNat_lt
  rw [uint64, putUint64, beNat_take_append, Nat.mod_eq_of_lt hlt, UInt64.ofNat_toNat]

theorem uint32_putUint32_append (v : UInt32) (rest : Bytes) : uint32 (putUint32 v ++ rest) = v := by
  have hlt : v.toNat < 256 ^ 4 := v.toNat_lt
  rw [uint32, putUint32, beNat_take_append, Nat.mod_eq_of_lt hlt, UInt32.ofNat_toNat]

@[simp] theorem length_putUint16 (v : UInt16) : (putUint16 v).length = 2 := length_beBytes 2 _

theorem uint16_putUint16_append (v : UInt16) (rest : Bytes) : uint16 (putUint16 v ++ rest) = v := by
  have hlt : v.toNat < 256 ^ 2 := v.toNat_lt
  rw [uint16, putUint16, beNat_take_append, Nat.mod_eq_of_lt hlt, UInt16.ofNat_toNat]

theorem drop_putUint64_append (v : UInt64) (rest : Bytes) :
    (putUint64 v ++ rest).drop 8 = rest := by
  rw [drop_append_of_le_length (by simp), drop_of_length_le (by simp), nil_append]

theorem putUint64_append_ne_nil (z : UInt64) (rest : Bytes) : putUint64 z ++ rest ≠ [] := by
  rw [← length_pos_iff, length_append, length_putUint64]
  omega

theorem length_putUint64_append (z : UInt64) (rest : Bytes) :
    ¬ (putUint64 z ++ rest).length < 8 := by
  rw [length_append, length_putUint64]
  omega

theorem length_flatMap_putUint64 (vs : List UInt64) :
    (vs.flatMap putUint64).length = 8 * vs.length := by
  induction vs with
  | nil => rfl
  | cons v vs ih =>
    rw [flatMap_cons, length_append, ih, length_putUint64, length_cons]
    omega

/-! ## The order of byte strings -/

/-- `a <= b` as byte strings compare: byte by byte, a proper beginning
first. -/
def le : Bytes → Bytes → Bool
  | [], _ => true
  | _ :: _, [] => false
  | a :: as, b :: bs => decide (a < b) || (decide (a = b) && le as bs)

theorem le_cons {a b : UInt8} {as bs : Bytes} :
    le (a :: as) (b :: bs) = true ↔ a < b ∨ a = b ∧ le as bs = true := by
  simp [le]

theorem le_total : ∀ a b : Bytes, le a b = true ∨ le b a = true
  | [], _ => .inl rfl
  | _ :: _, [] => .inr rfl
  | a :: as, b :: bs => by
    have htri : a < b ∨ a = b ∨ b < a := by grind
    rw [le_cons, le_cons]
    rcases htri with h | h | h
    · exact .inl (.inl h)
    · rcases le_total as bs with h' | h'
      · exact .inl (.inr ⟨h, h'⟩)
      · exact .inr (.inr ⟨h.symm, h'⟩)
    · exact .inr (.inl h)

theorem le_trans : ∀ {a b c : Bytes}, le a b = true → le b c = true → le a c = true
  | [], _, _, _, _ => rfl
  | _ :: _, [], _, h, _ => by cases h
  | _ :: _, _ :: _, [], _, h => by cases h
  | a :: as, b :: bs, c :: cs, h, h' => by
    rw [le_cons] at h h' ⊢
    rcases h with h | ⟨rfl, h⟩
    · rcases h' with h' | ⟨rfl, -⟩
      · exact .inl (UInt8.lt_trans h h')
      · exact .inl h
    · rcases h' with h' | ⟨rfl, h'⟩
      · exact .inl h'
      · exact .inr ⟨rfl, le_trans h h'⟩

theorem le_antisymm : ∀ {a b : Bytes}, le a b = true → le b a = true → a = b
  | [], [], _, _ => rfl
  | [], _ :: _, _, h => by cases h
  | _ :: _, [], h, _ => by cases h
  | a :: as, b :: bs, h, h' => by
    rw [le_cons] at h h'
    rcases h with h | ⟨rfl, h⟩
    · rcases h' with h' | ⟨rfl, -⟩
      · exact absurd h' (UInt8.not_lt.mpr (UInt8.le_of_lt h))
      · exact absurd h (UInt8.lt_irrefl _)
    · rcases h' with h' | ⟨-, h'⟩
      · exact absurd h' (UInt8.lt_irrefl _)
      · rw [le_antisymm h h']

/-- **Big-endian words are ordered as numbers.** -/
theorem le_beBytes_append : ∀ {k a b : ℕ} {as bs : Bytes}, a < 256 ^ k → b < 256 ^ k →
    (le (beBytes k a ++ as) (beBytes k b ++ bs) = true ↔ a < b ∨ a = b ∧ le as bs = true)
  | 0, a, b, as, bs, ha, hb => by
    have : a = 0 ∧ b = 0 := by simpa using And.intro ha hb
    obtain ⟨rfl, rfl⟩ := this
    simp [beBytes]
  | k + 1, a, b, as, bs, ha, hb => by
    have hdigit : ∀ n, (UInt8.ofNat n).toNat = n % 256 := fun n => by simp
    rw [pow_succ] at ha hb
    rw [beBytes, beBytes, append_assoc, append_assoc,
      le_beBytes_append (Nat.div_lt_of_lt_mul (by omega)) (Nat.div_lt_of_lt_mul (by omega)),
      singleton_append, singleton_append, le_cons, UInt8.lt_iff_toNat_lt, ← UInt8.toNat_inj,
      hdigit, hdigit]
    constructor
    · rintro (h | ⟨heq, h | ⟨h, hrest⟩⟩)
      · exact .inl (by omega)
      · exact .inl (by omega)
      · exact .inr ⟨by omega, hrest⟩
    · rintro (h | ⟨rfl, hrest⟩)
      · by_cases heq : a / 256 = b / 256
        · exact .inr ⟨heq, .inl (by omega)⟩
        · exact .inl (by omega)
      · exact .inr ⟨rfl, .inr ⟨rfl, hrest⟩⟩

theorem le_putUint64_append {a b : UInt64} {as bs : Bytes} :
    le (putUint64 a ++ as) (putUint64 b ++ bs) = true ↔ a < b ∨ a = b ∧ le as bs = true := by
  rw [putUint64, putUint64, le_beBytes_append a.toNat_lt b.toNat_lt, UInt64.lt_iff_toNat_lt, UInt64.toNat_inj]

theorem le_putUint64 {a b : UInt64} : le (putUint64 a) (putUint64 b) = true ↔ a ≤ b := by
  have h := @le_putUint64_append a b [] []
  rw [append_nil, append_nil] at h
  rw [h, UInt64.le_iff_lt_or_eq]
  simp [le]

/-! ## Decimal numbers -/

/-- The low `w` decimal digits of `n`, as text. -/
def decimal : ℕ → ℕ → Bytes
  | 0, _ => []
  | w + 1, n => decimal w (n / 10) ++ [UInt8.ofNat (48 + n % 10)]

/-- **Padded numbers are ordered as numbers.** -/
theorem le_decimal_append : ∀ {w a b : ℕ} {as bs : Bytes}, a < 10 ^ w → b < 10 ^ w →
    le (decimal w a ++ as) (decimal w b ++ bs) = true → a < b ∨ a = b ∧ le as bs = true
  | 0, a, b, as, bs, ha, hb, h => by
    have : a = 0 ∧ b = 0 := by simpa using And.intro ha hb
    exact .inr ⟨this.1.trans this.2.symm, h⟩
  | w + 1, a, b, as, bs, ha, hb, h => by
    rw [pow_succ] at ha hb
    rw [decimal, decimal, append_assoc, append_assoc] at h
    rcases le_decimal_append (Nat.div_lt_of_lt_mul (by omega))
      (Nat.div_lt_of_lt_mul (by omega)) h with h | ⟨heq, h⟩
    · omega
    have hdigit : ∀ n, (UInt8.ofNat (48 + n % 10)).toNat = 48 + n % 10 := fun n =>
      UInt8.toNat_ofNat_of_lt' (show 48 + n % 10 < 256 by omega)
    rw [singleton_append, singleton_append, le_cons, UInt8.lt_iff_toNat_lt,
      ← UInt8.toNat_inj, hdigit, hdigit] at h
    rcases h with h | ⟨h, hrest⟩
    · omega
    · exact .inr ⟨by omega, hrest⟩

theorem ofInt_natCast (n : ℕ) : UInt64.ofInt (n : ℤ) = UInt64.ofNat n := by
  apply UInt64.toNat_inj.mp
  simp only [UInt64.ofInt, UInt64.toNat_ofNat']
  omega

theorem decimal_eq : ∀ {w n : ℕ}, n < 10 ^ w →
    decimal w n = (List.replicate (w - (Nat.digits 10 n).length) 0 ++
      (Nat.digits 10 n).reverse).map (fun d => UInt8.ofNat (48 + d))
  | 0, n, h => by
    have : n = 0 := by simpa using h
    subst this
    rfl
  | w + 1, n, h => by
    have hdiv : n / 10 < 10 ^ w := Nat.div_lt_of_lt_mul (by rw [pow_succ] at h; omega)
    rw [decimal, decimal_eq hdiv]
    rcases Nat.eq_zero_or_pos n with rfl | hpos
    · simp [replicate_succ']
    · rw [Nat.digits_def' (by omega) hpos]
      simp

end Bytes

end AndyEnv
