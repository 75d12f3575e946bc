import AndyEnv.Lib.Cursor
import AndyEnv.Tsm1.Codec.Simple8b

/-!
# The timestamp codec

The times of a block are delta-encoded, scaled down by the largest power of
ten that divides every delta, and stored in one of three formats: run-length
encoded when all deltas are equal, packed by simple8b when they are small
enough, raw otherwise.
-/

namespace AndyEnv.Tsm1.Codec

open List Bytes

/-! ## The encoder -/

/-- `timeUncompressed`, `timeCompressedPackedSimple` and `timeCompressedRLE`. -/
def timeUncompressed : UInt8 := 0
def timeCompressedPackedSimple : UInt8 := 1
def timeCompressedRLE : UInt8 := 2

/-- `math.Log10`, on powers of ten. -/
def log10 (div : UInt64) : UInt8 := UInt8.ofNat (Nat.log 10 div.toNat)

def pow10 (e : UInt8) : UInt64 := UInt64.ofNat (10 ^ e.toNat)

structure TimeEncoder : Type where
  ts : List UInt64
deriving DecidableEq, Repr

namespace TimeEncoder

def new : TimeEncoder := ⟨[]⟩

def write (e : TimeEncoder) (t : Int64) : TimeEncoder := ⟨e.ts ++ [t.toUInt64]⟩

structure Reduced : Type where
  max : UInt64
  divisor : UInt64
  rle : Bool
  deltas : List UInt64
deriving DecidableEq, Repr

/-- The search for a divisor of `v`. Thirteen rounds get from `1e12` to 1. -/
def shrinkDivisor : ℕ → UInt64 → UInt64 → UInt64
  | 0, _, divisor => divisor
  | fuel + 1, v, divisor =>
    if v % divisor = 0 then divisor else shrinkDivisor fuel v (divisor / 10)

/-- `reduce` goes over the times from the end, so that each delta can replace
the time it belongs to. -/
def reduce : List UInt64 → Reduced
  | [] => ⟨0, 1000000000000, true, []⟩
  | [t] => ⟨0, 1000000000000, true, [t]⟩
  | t :: u :: ts =>
    let r := reduce (u :: ts)
    let v := u - t
    -- the deltas after this one
    let next := r.deltas.drop 1
    { max := if v > r.max then v else r.max
      divisor := shrinkDivisor 13 v r.divisor
      rle := decide (next = []) || (r.rle && decide (next.head? = some v))
      deltas := t :: v :: next }

def encodeRLE (first delta div : UInt64) (n : ℕ) : Bytes :=
  (timeCompressedRLE <<< 4 ||| log10 div) :: (putUint64 first ++
    (putUvarint (delta / div) ++ putUvarint (UInt64.ofNat n)))

def encodeRaw (dts : List UInt64) : Bytes :=
  (timeUncompressed <<< 4) :: dts.flatMap putUint64

def encodePacked (S : Simple8b) (div : UInt64) (dts : List UInt64) : Option Bytes :=
  (S.bytes ((dts.drop 1).map (fun v => v / div))).map (fun deltas =>
    (timeCompressedPackedSimple <<< 4 ||| log10 div) :: (putUint64 (dts.headD 0) ++ deltas))

/-- `Bytes`. The deltas are left in place of the times. -/
def bytes (S : Simple8b) (e : TimeEncoder) : Option Bytes × TimeEncoder :=
  if e.ts.length = 0 then (some [], e)
  else
    let r := reduce e.ts
    let e : TimeEncoder := ⟨r.deltas⟩
    if r.rle && decide (e.ts.length > 1) then
      (some (encodeRLE (e.ts.getD 0 0) (e.ts.getD 1 0) r.divisor e.ts.length), e)
    else if r.max > Simple8b.maxValue then (some (encodeRaw e.ts), e)
    else (encodePacked S r.divisor r.deltas, e)

end TimeEncoder

/-! ## The decoder -/

structure TimeDecoder : Type where
  v : Int64
  ts : List UInt64
  /-- The encoding of an `unknown encoding` error. -/
  err : Option UInt8
deriving DecidableEq, Repr

namespace TimeDecoder

/-- The prefix sums of the deltas, scaled back up. -/
def prefixSums (div : UInt64) : UInt64 → List UInt64 → List UInt64
  | prev, [] => [prev]
  | prev, d :: ds => prev :: prefixSums div (prev + d * div) ds

/-- `decodePacked`; it panics on less than nine bytes. -/
def decodePacked (S : Simple8b) (b : Bytes) : Option (List UInt64) :=
  if b.length < 9 then none
  else some (prefixSums (pow10 (b.headD 0 &&& 0xF)) (uint64 (b.drop 1))
    (S.readAll (b.drop 9)))

/-- `decodeRLE`; it panics on less than nine bytes, on an overflow that leads
before the first byte, and on a count of 0. -/
def decodeRLE (b : Bytes) : Option (List UInt64) :=
  if b.length < 9 then none
  else
    let first := uint64 (b.drop 1)
    let (value, n) := uvarint (b.drop 9)
    let i := 9 + n
    if i < 0 ∨ (b.length : ℤ) < i then none
    else
      let (count, _) := uvarint (b.drop i.toNat)
      if count = 0 then none
      else some (prefixSums (pow10 (b.headD 0 &&& 0xF)) first
        (List.replicate (count.toNat - 1) value))

/-- The loop of `decodeRaw`, after the first delta. -/
def decodeRawLoop : ℕ → UInt64 → Bytes → List UInt64
  | 0, _, _ => []
  | n + 1, prev, b =>
    let t := prev + uint64 b
    t :: decodeRawLoop n t (b.drop 8)

def decodeRaw (b : Bytes) : List UInt64 :=
  -- the sum that the first delta is added to is 0
  decodeRawLoop (b.length / 8) 0 b

/-- `NewTimeDecoder`. -/
def new (S : Simple8b) (b : Bytes) : Option TimeDecoder :=
  match b with
  | [] => some ⟨0, [], none⟩
  | h :: rest =>
    let encoding := h >>> 4
    if encoding = timeUncompressed then some ⟨0, decodeRaw rest, none⟩
    else if encoding = timeCompressedRLE then (decodeRLE b).map (fun ts => ⟨0, ts, none⟩)
    else if encoding = timeCompressedPackedSimple then
      (decodePacked S b).map (fun ts => ⟨0, ts, none⟩)
    else some ⟨0, [], some encoding⟩

def next (d : TimeDecoder) : Bool × TimeDecoder :=
  match d.ts with
  | [] => (false, d)
  | t :: ts => (true, { d with v := t.toInt64, ts := ts })

def cursor : Cursor TimeDecoder Int64 where
  next d := some d.next
  read d := (d.v, d)

end TimeDecoder

/-! ## Deltas -/

open TimeDecoder (prefixSums decodeRawLoop decodeRaw decodePacked decodeRLE cursor)

def deltasFrom : UInt64 → List UInt64 → List UInt64
  | _, [] => []
  | prev, t :: ts => (t - prev) :: deltasFrom t ts

theorem length_deltasFrom : ∀ (prev : UInt64) (ts : List UInt64),
    (deltasFrom prev ts).length = ts.length
  | _, [] => rfl
  | _, t :: ts => congrArg Nat.succ (length_deltasFrom t ts)

/-- **Prefix sums undo deltas**, when the scaling does no harm. -/
theorem prefixSums_deltasFrom {div : UInt64} : ∀ {prev : UInt64} {ts : List UInt64},
    (∀ v ∈ deltasFrom prev ts, v / div * div = v) →
    prefixSums div prev ((deltasFrom prev ts).map (fun v => v / div)) = prev :: ts
  | _, [], _ => rfl
  | prev, t :: ts, h => by
    have ht : prev + (t - prev) / div * div = t := by
      rw [h _ mem_cons_self]
      grind
    rw [deltasFrom, map_cons, prefixSums, ht,
      prefixSums_deltasFrom (forall_mem_cons.mp h).2]

theorem decodeRawLoop_deltasFrom : ∀ {prev : UInt64} {ts : List UInt64},
    decodeRawLoop ts.length prev ((deltasFrom prev ts).flatMap putUint64) = ts
  | _, [] => rfl
  | prev, t :: ts => by
    have ht : prev + (t - prev) = t := by grind
    rw [length_cons, decodeRawLoop, deltasFrom, flatMap_cons,
      uint64_putUint64_append, drop_putUint64_append, ht, decodeRawLoop_deltasFrom]

/-! ## What `reduce` finds -/

namespace TimeEncoder

theorem toNat_ofNat_pow {k : ℕ} (hk : k ≤ 12) : (UInt64.ofNat (10 ^ k)).toNat = 10 ^ k := by
  refine UInt64.toNat_ofNat_of_lt' ?_
  calc 10 ^ k ≤ 10 ^ 12 := Nat.pow_le_pow_right (by omega) hk
    _ < UInt64.size := by decide

theorem mod_eq_zero_iff {v d : UInt64} : v % d = 0 ↔ d.toNat ∣ v.toNat := by
  rw [← UInt64.toNat_inj, UInt64.toNat_mod, Nat.dvd_iff_mod_eq_zero]
  rfl

theorem div_mul_of_mod_eq_zero {v d : UInt64} (h : v % d = 0) : v / d * d = v := by
  rw [← UInt64.toNat_inj, UInt64.toNat_mul, UInt64.toNat_div,
    Nat.div_mul_cancel (mod_eq_zero_iff.mp h)]
  exact Nat.mod_eq_of_lt v.toNat_lt

/-- **The search ends** with a power of ten that divides the delta. -/
theorem shrinkDivisor_spec (v : UInt64) : ∀ {fuel k : ℕ}, k < fuel → k ≤ 12 →
    ∃ j ≤ k, shrinkDivisor fuel v (UInt64.ofNat (10 ^ k)) = UInt64.ofNat (10 ^ j) ∧
      v % UInt64.ofNat (10 ^ j) = 0
  | 0, k, h, _ => absurd h (Nat.not_lt_zero k)
  | fuel + 1, k, h, hk => by
    rw [shrinkDivisor]
    split
    · rename_i hmod
      exact ⟨k, le_rfl, rfl, hmod⟩
    rename_i hmod
    cases k with
    | zero =>
      refine absurd (mod_eq_zero_iff.mpr ?_) hmod
      rw [toNat_ofNat_pow hk]
      exact one_dvd _
    | succ k =>
      have hdiv : UInt64.ofNat (10 ^ (k + 1)) / 10 = UInt64.ofNat (10 ^ k) := by
        rw [← UInt64.toNat_inj, UInt64.toNat_div, toNat_ofNat_pow hk,
          toNat_ofNat_pow (by omega), pow_succ]
        exact Nat.mul_div_cancel _ (by decide)
      rw [hdiv]
      obtain ⟨j, hj, heq, hmod'⟩ := shrinkDivisor_spec v (Nat.lt_of_succ_lt_succ h)
        (show k ≤ 12 by omega)
      exact ⟨j, by omega, heq, hmod'⟩

/-- What `reduce` returns for the times from `t` on. -/
structure Reduced.Spec (r : Reduced) (t : UInt64) (ts : List UInt64) : Prop where
  deltas : r.deltas = t :: deltasFrom t ts
  max : ∀ v ∈ deltasFrom t ts, v ≤ r.max
  divisor : ∃ k ≤ 12, r.divisor = UInt64.ofNat (10 ^ k)
  mod : ∀ v ∈ deltasFrom t ts, v % r.divisor = 0
  rle : r.rle = true → ∀ v ∈ deltasFrom t ts, (deltasFrom t ts).head? = some v

/-- **One pass finds the deltas, their maximum, their divisor and whether they
are all equal.** -/
theorem reduce_spec : ∀ (t : UInt64) (ts : List UInt64), (reduce (t :: ts)).Spec t ts
  | t, [] =>
    { deltas := rfl
      max := nofun
      divisor := ⟨12, le_rfl, rfl⟩
      mod := nofun
      rle := nofun }
  | t, u :: ts => by
    have h := reduce_spec u ts
    obtain ⟨k, hk, hdiv⟩ := h.divisor
    obtain ⟨j, hj, hshrink, hmod⟩ := shrinkDivisor_spec (u - t) (show k < 13 by omega) hk
    rw [← hdiv] at hshrink
    have hnext : (reduce (u :: ts)).deltas.drop 1 = deltasFrom u ts := by rw [h.deltas]; rfl
    constructor
    · rw [reduce, hnext]
      rfl
    · intro v hv
      change v ≤ if u - t > (reduce (u :: ts)).max then u - t else (reduce (u :: ts)).max
      rcases mem_cons.mp hv with rfl | hv
      · split
        · exact UInt64.le_refl _
        · rename_i hle
          exact UInt64.not_lt.mp hle
      · split
        · rename_i hlt
          exact UInt64.le_trans (h.max v hv) (UInt64.le_of_lt hlt)
        · exact h.max v hv
    · exact ⟨j, by omega, hshrink⟩
    · intro v hv
      change v % shrinkDivisor 13 (u - t) (reduce (u :: ts)).divisor = 0
      rw [hshrink]
      rcases mem_cons.mp hv with rfl | hv
      · exact hmod
      -- what the larger power divides, the smaller one divides
      have hold := mod_eq_zero_iff.mp (h.mod v hv)
      rw [hdiv, toNat_ofNat_pow hk] at hold
      rw [mod_eq_zero_iff, toNat_ofNat_pow (by omega)]
      exact (pow_dvd_pow 10 hj).trans hold
    · intro hrle v hv
      rw [reduce] at hrle
      simp only [hnext, Bool.or_eq_true, decide_eq_true_eq, Bool.and_eq_true] at hrle
      rw [deltasFrom, List.head?_cons]
      rcases mem_cons.mp hv with rfl | hv
      · rfl
      · rcases hrle with hnil | ⟨hrle, hhead⟩
        · rw [hnil] at hv
          cases hv
        · exact hhead.symm.trans (h.rle hrle v hv)

theorem Reduced.Spec.div_mul {r : Reduced} {t : UInt64} {ts : List UInt64} (h : r.Spec t ts) :
    ∀ v ∈ deltasFrom t ts, v / r.divisor * r.divisor = v :=
  fun v hv => div_mul_of_mod_eq_zero (h.mod v hv)

theorem foldl_write (ts : List Int64) (e : TimeEncoder) :
    ts.foldl write e = ⟨e.ts ++ ts.map Int64.toUInt64⟩ := by
  induction ts generalizing e with
  | nil => simp
  | cons t ts ih => rw [foldl_cons, ih]; simp [write]

end TimeEncoder

/-! ## The formats -/

open TimeEncoder hiding new bytes

/-- The header byte holds the encoding and the power of ten. -/
theorem header_spec {t : UInt8} (ht : t = timeCompressedRLE ∨ t = timeCompressedPackedSimple)
    {k : ℕ} (hk : k ≤ 12) : (t <<< 4 ||| log10 (UInt64.ofNat (10 ^ k))) >>> 4 = t ∧
      pow10 ((t <<< 4 ||| log10 (UInt64.ofNat (10 ^ k))) &&& 0xF) = UInt64.ofNat (10 ^ k) := by
  have hlog : log10 (UInt64.ofNat (10 ^ k)) = UInt8.ofNat k := by
    rw [log10, toNat_ofNat_pow hk, Nat.log_pow (by decide)]
  rw [hlog]
  rcases ht with rfl | rfl <;> interval_cases k <;> decide

theorem new_encodeRaw (S : Simple8b) (t : UInt64) (ts : List UInt64) :
    TimeDecoder.new S (encodeRaw (t :: deltasFrom t ts)) = some ⟨0, t :: ts, none⟩ := by
  have hdeltas : t :: deltasFrom t ts = deltasFrom 0 (t :: ts) := by
    rw [deltasFrom, UInt64.sub_zero]
  have hraw : decodeRaw ((deltasFrom 0 (t :: ts)).flatMap putUint64) = t :: ts := by
    rw [decodeRaw, length_flatMap_putUint64, length_deltasFrom,
      Nat.mul_div_cancel_left _ (by decide), decodeRawLoop_deltasFrom]
  rw [hdeltas, encodeRaw, TimeDecoder.new, if_pos (by decide), hraw]

theorem drop_header (h : UInt8) (t : UInt64) (rest : Bytes) :
    uint64 ((h :: (putUint64 t ++ rest)).drop 1) = t ∧ (h :: (putUint64 t ++ rest)).drop 9 = rest ∧
      (h :: (putUint64 t ++ rest)).length = 9 + rest.length := by
  refine ⟨uint64_putUint64_append t rest, drop_putUint64_append t rest, ?_⟩
  rw [length_cons, length_append, length_putUint64]
  omega

variable {S : Simple8b} {t : UInt64} {ts : List UInt64} {r : Reduced}

theorem new_encodePacked (hS : S.StreamRoundTrip)
    (h : r.Spec t ts) (hmax : r.max ≤ Simple8b.maxValue) :
    ∃ b, encodePacked S r.divisor r.deltas = some b ∧
      TimeDecoder.new S b = some ⟨0, t :: ts, none⟩ := by
  obtain ⟨k, hk, hdiv⟩ := h.divisor
  obtain ⟨hencoding, hpow⟩ := header_spec (.inr rfl) hk
  rw [← hdiv] at hencoding hpow
  -- a scaled delta is no larger than the delta
  have hsmall : ∀ v ∈ (deltasFrom t ts).map (fun v => v / r.divisor), v ≤ Simple8b.maxValue := by
    intro v hv
    obtain ⟨w, hw, rfl⟩ := mem_map.mp hv
    refine UInt64.le_trans ?_ (UInt64.le_trans (h.max w hw) hmax)
    rw [UInt64.le_iff_toNat_le, UInt64.toNat_div]
    exact Nat.div_le_self _ _
  obtain ⟨b, hbytes, hread⟩ := hS _ hsmall
  refine ⟨(timeCompressedPackedSimple <<< 4 ||| log10 r.divisor) :: (putUint64 t ++ b), ?_, ?_⟩
  · rw [encodePacked, h.deltas, drop_one, tail_cons, hbytes]
    rfl
  · obtain ⟨hfirst, hrest, hlength⟩ := drop_header
      (timeCompressedPackedSimple <<< 4 ||| log10 r.divisor) t b
    have hdecode : decodePacked S
        ((timeCompressedPackedSimple <<< 4 ||| log10 r.divisor) :: (putUint64 t ++ b)) =
          some (t :: ts) := by
      rw [decodePacked, if_neg (by omega), hfirst, hrest, headD_cons, hpow, hread,
        prefixSums_deltasFrom h.div_mul]
    rw [TimeDecoder.new, hencoding, if_neg (by decide), if_neg (by decide), if_pos rfl, hdecode]
    rfl

theorem decodeRLE_parts {h : UInt8} {v n : UInt64} (hn : n ≠ 0) :
    decodeRLE (h :: (putUint64 t ++ (putUvarint v ++ putUvarint n))) =
      some (prefixSums (pow10 (h &&& 0xF)) t (List.replicate (n.toNat - 1) v)) := by
  obtain ⟨hfirst, hrest, hlength⟩ := drop_header h t (putUvarint v ++ putUvarint n)
  have hskip : (h :: (putUint64 t ++ (putUvarint v ++ putUvarint n))).drop
      (9 + ((putUvarint v).length : ℤ)).toNat = putUvarint n := by
    rw [show (9 + ((putUvarint v).length : ℤ)).toNat = 9 + (putUvarint v).length by omega,
      ← drop_drop, hrest, drop_left]
  unfold decodeRLE
  rw [if_neg (by omega), hfirst, hrest, uvarint_putUvarint_append]
  dsimp only
  rw [if_neg (by rw [hlength, length_append]; push_cast; omega), hskip, uvarint_putUvarint]
  dsimp only
  rw [if_neg hn, headD_cons]

theorem new_encodeRLE (S : Simple8b) {u : UInt64} (h : r.Spec t (u :: ts)) (hrle : r.rle = true)
    (hlen : ts.length + 2 < 2 ^ 63) :
    TimeDecoder.new S (encodeRLE t (u - t) r.divisor (ts.length + 2)) =
      some ⟨0, t :: u :: ts, none⟩ := by
  obtain ⟨k, hk, hdiv⟩ := h.divisor
  obtain ⟨hencoding, hpow⟩ := header_spec (.inl rfl) hk
  rw [← hdiv] at hencoding hpow
  have hcount : (UInt64.ofNat (ts.length + 2)).toNat = ts.length + 2 :=
    UInt64.toNat_ofNat_of_lt' (show _ < 2 ^ 64 by omega)
  have hne : UInt64.ofNat (ts.length + 2) ≠ 0 := by
    intro heq
    rw [heq] at hcount
    cases hcount
  -- all deltas are the first one
  have hsame : deltasFrom t (u :: ts) = List.replicate (ts.length + 1) (u - t) := by
    refine eq_replicate_iff.mpr ⟨length_deltasFrom t (u :: ts), fun v hv => ?_⟩
    exact (Option.some.inj (h.rle hrle v hv)).symm
  have hsums := prefixSums_deltasFrom h.div_mul
  rw [hsame, map_replicate] at hsums
  rw [encodeRLE, TimeDecoder.new, hencoding, if_neg (by decide), if_pos rfl, decodeRLE_parts hne,
    hpow, hcount, ← hsums]
  rfl

/-! ## The round trip -/

theorem drains_times : ∀ (ts : List UInt64) (v : Int64) (err : Option UInt8),
    ∃ d, cursor.Drains ⟨v, ts, err⟩ (ts.map UInt64.toInt64) d ∧ d.err = err
  | [], v, err => ⟨⟨v, [], err⟩, .stop rfl, rfl⟩
  | t :: ts, v, err => by
    obtain ⟨d, hd, herr⟩ := drains_times ts t.toInt64 err
    have hnext : cursor.next ⟨v, t :: ts, err⟩ = some (true, ⟨t.toInt64, ts, err⟩) :=
      rfl
    exact ⟨d, .step hnext hd, herr⟩

/-- **Whatever format `Bytes` takes, `NewTimeDecoder` has the times.** -/
theorem new_bytes (hS : S.StreamRoundTrip) (ts : List UInt64) (hlen : ts.length < 2 ^ 63) :
    ∃ b, (TimeEncoder.bytes S ⟨ts⟩).1 = some b ∧ TimeDecoder.new S b = some ⟨0, ts, none⟩ := by
  cases ts with
  | nil => exact ⟨[], rfl, rfl⟩
  | cons t ts =>
    have h := reduce_spec t ts
    have hlength : (reduce (t :: ts)).deltas.length = ts.length + 1 := by
      rw [h.deltas, length_cons, length_deltasFrom]
    rw [TimeEncoder.bytes, if_neg (by simp)]
    dsimp only
    split
    · rename_i hrle
      rw [Bool.and_eq_true, decide_eq_true_eq, hlength] at hrle
      cases ts with
      | nil => exact absurd hrle.2 (lt_irrefl 1)
      | cons u ts =>
        refine ⟨_, rfl, ?_⟩
        rw [hlength, h.deltas]
        exact new_encodeRLE S h hrle.1 hlen
    · split
      · refine ⟨_, rfl, ?_⟩
        rw [h.deltas]
        exact new_encodeRaw S t ts
      · rename_i hmax
        exact new_encodePacked hS h (UInt64.not_lt.mp hmax)

/-- **The times survive the codec**, sorted or not. -/
theorem times_roundTrip (S : Simple8b) (hS : S.StreamRoundTrip) (ts : List Int64)
    (hlen : ts.length < 2 ^ 63) : ∃ b d d', ((ts.foldl write TimeEncoder.new).bytes S).1 = some b ∧
      TimeDecoder.new S b = some d ∧ cursor.Drains d ts d' ∧ d'.err = none := by
  obtain ⟨b, hbytes, hnew⟩ := new_bytes hS (ts.map Int64.toUInt64) (by rwa [length_map])
  obtain ⟨d', hdrains, herr⟩ := drains_times (ts.map Int64.toUInt64) 0 none
  refine ⟨b, _, d', ?_, hnew, ?_, herr⟩
  · rw [foldl_write]
    exact hbytes
  · rw [map_map, map_congr_left (g := id)] at hdrains
    · rwa [map_id] at hdrains
    · intro t _
      exact Int64.toInt64_toUInt64 t

/-- Three times apart by different powers of ten. -/
theorem times_roundTrip_packed : ∃ b d d', (([1000, 3000, 13000].foldl write TimeEncoder.new).bytes
        Simple8b.plain).1 = some b ∧
      TimeDecoder.new Simple8b.plain b = some d ∧
      cursor.Drains d [1000, 3000, 13000] d' ∧ d'.err = none :=
  times_roundTrip Simple8b.plain Simple8b.plain_streamRoundTrip [1000, 3000, 13000] (by decide)

end AndyEnv.Tsm1.Codec
