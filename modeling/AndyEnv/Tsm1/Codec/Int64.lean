import AndyEnv.Lib.Cursor
import AndyEnv.Tsm1.Codec.Simple8b
import AndyEnv.Tsm1.Codec.ZigZag

/-!
# The int64 codec

Every value is written as the zig-zag encoded difference to the one before.
The encoded differences are run-length encoded when all but the first are
equal, packed by simple8b when they are small enough, and stored as they are
otherwise. `decoded` is what comes back (`drains_bytes`).
-/

namespace AndyEnv.Tsm1.Codec

open List Bytes

/-! ## The encoder -/

def intUncompressed : UInt8 := 0
def intCompressedSimple : UInt8 := 1
def intCompressedRLE : UInt8 := 2

structure Int64Encoder : Type where
  prev : Int64
  rle : Bool
  values : List UInt64
deriving DecidableEq, Repr

namespace Int64Encoder

def new : Int64Encoder := ⟨0, true, []⟩

def write (e : Int64Encoder) (v : Int64) : Int64Encoder :=
  let delta := v - e.prev
  let enc := zigZagEncode delta
  { prev := v
    rle := if e.values.length > 1 then e.rle && decide (e.values.getLast? = some enc) else e.rle
    values := e.values ++ [enc] }

def encodeRLE (e : Int64Encoder) : Bytes :=
  (intCompressedRLE <<< 4) :: (putUint64 (e.values.getD 0 0) ++ (putUvarint (e.values.getD 1 0) ++
      putUvarint (UInt64.ofNat (e.values.length - 1))))

def encodePacked (S : Simple8b) (e : Int64Encoder) : Option Bytes :=
  match e.values with
  | [] => some []
  | v :: vs => (S.encodeAll vs).map (fun encoded =>
    (intCompressedSimple <<< 4) :: (putUint64 v ++ encoded.flatMap putUint64))

def encodeUncompressed (e : Int64Encoder) : Bytes :=
  match e.values with
  | [] => []
  | vs => (intUncompressed <<< 4) :: vs.flatMap putUint64

def bytes (S : Simple8b) (e : Int64Encoder) : Option Bytes :=
  if e.rle && decide (e.values.length > 2) then some e.encodeRLE
  else if e.values.any (fun v => v > Simple8b.maxValue) then some e.encodeUncompressed
  else e.encodePacked S

end Int64Encoder

/-! ## The decoder -/

inductive Int64Error : Type where
  | unknownEncoding (encoding : UInt8)
  | undecodable (v : UInt64)
deriving DecidableEq, Repr

structure Int64Decoder : Type where
  /-- 240 values. -/
  values : List UInt64
  bytes : Bytes
  i : ℤ
  n : ℤ
  prev : Int64
  first : Bool
  rleFirst : UInt64
  rleDelta : UInt64
  encoding : UInt8
  err : Option Int64Error
deriving DecidableEq, Repr

namespace Int64Decoder

/-- `NewInt64Decoder`. -/
def new (b : Bytes) : Int64Decoder where
  values := List.replicate 240 0
  bytes := b.drop 1
  i := 0
  n := 0
  prev := 0
  first := true
  rleFirst := 0
  rleDelta := 0
  encoding := b.headD 0 >>> 4
  err := none

/-- The values of a word go to the front. -/
def fill (values group : List UInt64) : List UInt64 := group ++ values.drop group.length

/-- `decodeRLE`; it panics on less than eight bytes, and where the first
varint leads out of the bytes. -/
def decodeRLE (d : Int64Decoder) : Option Int64Decoder :=
  if d.bytes = [] then some d
  else if d.bytes.length < 8 then none
  else
    let first := uint64 d.bytes
    let (value, n) := uvarint (d.bytes.drop 8)
    let i := 8 + n
    if i < 0 ∨ (d.bytes.length : ℤ) < i then none
    else
      let (count, _) := uvarint (d.bytes.drop i.toNat)
      some { d with
        rleFirst := first
        rleDelta := value
        n := (count.toInt64 + 1).toInt
        i := 0
        bytes := [] }

/-- `decodePacked`; it panics on one to seven bytes. -/
def decodePacked (S : Simple8b) (d : Int64Decoder) : Option Int64Decoder :=
  if d.bytes = [] then some d
  else if d.bytes.length < 8 then none
  else
    let v := uint64 d.bytes
    let d' : Int64Decoder :=
      -- the first value is always unencoded
      if d.first then { d with first := false, n := 1, values := fill d.values [v] }
      else match S.decode v with
        | none => { d with err := some (.undecodable v), n := 0 }
        | some group => { d with n := group.length, values := fill d.values group }
    some { d' with i := 0, bytes := d.bytes.drop 8 }

/-- `decodeUncompressed`; it panics on one to seven bytes. -/
def decodeUncompressed (d : Int64Decoder) : Option Int64Decoder :=
  if d.bytes = [] then some d
  else if d.bytes.length < 8 then none
  else some { d with
    values := fill d.values [uint64 d.bytes], i := 0, n := 1, bytes := d.bytes.drop 8 }

def decode (S : Simple8b) (d : Int64Decoder) : Option Int64Decoder :=
  if d.encoding = intUncompressed then d.decodeUncompressed
  else if d.encoding = intCompressedSimple then d.decodePacked S
  else if d.encoding = intCompressedRLE then d.decodeRLE
  else some { d with err := some (.unknownEncoding d.encoding) }

def next (S : Simple8b) (d : Int64Decoder) : Option (Bool × Int64Decoder) :=
  if d.i ≥ d.n ∧ d.bytes = [] then some (false, d)
  else
    let d := { d with i := d.i + 1 }
    if d.i ≥ d.n then (d.decode S).map (fun d => (decide (d.i < d.n), d))
    else some (true, d)

def read (d : Int64Decoder) : Int64 × Int64Decoder :=
  if d.encoding = intCompressedRLE then
    (zigZagDecode (d.rleFirst + UInt64.ofInt d.i * d.rleDelta), d)
  else
    let v := zigZagDecode (d.values.getD d.i.toNat 0) + d.prev
    (v, { d with prev := v })

def cursor (S : Simple8b) : Cursor Int64Decoder Int64 where
  next := next S
  read := read

end Int64Decoder

/-! ## Differences and sums -/

def stepsFrom : Int64 → List Int64 → List Int64
  | _, [] => []
  | prev, v :: vs => (v - prev) :: stepsFrom v vs

def sumsFrom : Int64 → List Int64 → List Int64
  | _, [] => []
  | prev, d :: ds => (d + prev) :: sumsFrom (d + prev) ds

theorem sumsFrom_stepsFrom : ∀ (prev : Int64) (vs : List Int64),
    sumsFrom prev (stepsFrom prev vs) = vs
  | _, [] => rfl
  | prev, v :: vs => by
    have hv : v - prev + prev = v := by grind
    rw [stepsFrom, sumsFrom, hv, sumsFrom_stepsFrom v vs]

theorem length_stepsFrom : ∀ (prev : Int64) (vs : List Int64),
    (stepsFrom prev vs).length = vs.length
  | _, [] => rfl
  | _, v :: vs => congrArg Nat.succ (length_stepsFrom v vs)

/-! ## What is written -/

def AllEqual (vs : List UInt64) : Prop := ∀ v ∈ vs, vs.head? = some v

instance (vs : List UInt64) : Decidable (AllEqual vs) :=
  List.decidableBAll (fun v => vs.head? = some v) vs

theorem allEqual_of_length_le : ∀ {vs : List UInt64}, vs.length ≤ 1 → AllEqual vs
  | [], _ => nofun
  | [v], _ => fun w hw => by
    rw [mem_singleton.mp hw]
    rfl
  | _ :: _ :: _, h => absurd h (by simp)

theorem allEqual_concat {vs : List UInt64} {v : UInt64} (hne : vs ≠ []) :
    AllEqual (vs ++ [v]) ↔ AllEqual vs ∧ vs.getLast? = some v := by
  obtain ⟨x, xs, rfl⟩ := exists_cons_of_ne_nil hne
  constructor
  · intro h
    have hx : ∀ y ∈ x :: xs ++ [v], y = x := fun y hy => (Option.some.inj (h y hy)).symm
    refine ⟨fun y hy => ?_, ?_⟩
    · rw [hx y (mem_append_left _ hy)]
      rfl
    · rw [List.getLast?_eq_some_getLast hne, hx _ (mem_append_left _ (getLast_mem hne)),
        hx v (mem_append_right _ mem_cons_self)]
  · rintro ⟨h, hlast⟩ y hy
    rw [List.getLast?_eq_some_getLast hne] at hlast
    rcases mem_append.mp hy with hy | hy
    · exact h y hy
    · rw [mem_singleton.mp hy, ← Option.some.inj hlast]
      exact h _ (getLast_mem hne)

namespace Int64Encoder

/-- `rle` says whether all differences but the first are equal. -/
def RleSpec (e : Int64Encoder) : Prop := e.rle = true ↔ AllEqual (e.values.drop 1)

theorem RleSpec.write {e : Int64Encoder} (h : e.RleSpec) (v : Int64) : (e.write v).RleSpec := by
  have hrle : e.rle = true ↔ AllEqual (e.values.drop 1) := h
  unfold RleSpec Int64Encoder.write
  dsimp only
  split
  · rename_i hlong
    have hne : e.values.drop 1 ≠ [] := by
      rw [← length_pos_iff, length_drop]
      omega
    rw [drop_append_of_le_length (by omega), allEqual_concat hne, Bool.and_eq_true, hrle,
      decide_eq_true_eq, List.getLast?_drop, if_neg (by omega)]
  · rename_i hshort
    refine ⟨fun _ => allEqual_of_length_le ?_, fun _ => hrle.mpr (allEqual_of_length_le ?_)⟩
    · rw [length_drop, length_append, length_singleton]
      omega
    · rw [length_drop]
      omega

theorem foldl_write (vs : List Int64) (e : Int64Encoder) :
    (vs.foldl write e).values = e.values ++ (stepsFrom e.prev vs).map zigZagEncode ∧
      (e.RleSpec → (vs.foldl write e).RleSpec) := by
  induction vs generalizing e with
  | nil => exact ⟨(append_nil _).symm, id⟩
  | cons v vs ih =>
    obtain ⟨hvalues, hrle⟩ := ih (e.write v)
    refine ⟨?_, fun h => hrle (h.write v)⟩
    rw [foldl_cons, hvalues, stepsFrom, map_cons]
    simp [write]

end Int64Encoder

/-! ## What is read -/

namespace Int64Decoder

variable {S : Simple8b}

variable {d : Int64Decoder}

theorem next_nil (hbytes : d.bytes = []) (hn : d.n ≤ d.i + 1)
    (henc : d.encoding = intUncompressed ∨ d.encoding = intCompressedSimple ∨ d.encoding = intCompressedRLE) :
    ∃ d', (cursor S).next d = some (false, d') ∧ d'.err = d.err := by
  change ∃ d', next S d = some (false, d') ∧ d'.err = d.err
  unfold next
  by_cases hi : d.i ≥ d.n
  · exact ⟨d, if_pos ⟨hi, hbytes⟩, rfl⟩
  refine ⟨{ d with i := d.i + 1 }, ?_, rfl⟩
  have hdecode : decode S { d with i := d.i + 1 } = some { d with i := d.i + 1 } := by
    unfold decode
    rcases henc with henc | henc | henc <;> rw [henc]
    · exact if_pos hbytes
    · exact if_pos hbytes
    · exact if_pos hbytes
  rw [if_neg (fun h => hi h.1)]
  dsimp only
  rw [if_pos hn, hdecode]
  simp
  omega

theorem next_pending (hn : d.i + 1 < d.n) :
    (cursor S).next d = some (true, { d with i := d.i + 1 }) := by
  change next S d = _
  unfold next
  rw [if_neg (fun h => by omega)]
  dsimp only
  rw [if_neg (by omega)]

theorem next_decode {d' : Int64Decoder} (hbytes : d.bytes ≠ []) (hn : d.n ≤ d.i + 1)
    (hdecode : decode S { d with i := d.i + 1 } = some d') (hlt : d'.i < d'.n) :
    (cursor S).next d = some (true, d') := by
  change next S d = _
  unfold next
  rw [if_neg (fun h => hbytes h.2)]
  dsimp only
  rw [if_pos hn, hdecode, Option.map_some, decide_eq_true hlt]

theorem read_of_ne (henc : d.encoding ≠ intCompressedRLE) :
    (cursor S).read d = (zigZagDecode (d.values.getD d.i.toNat 0) + d.prev,
      { d with prev := zigZagDecode (d.values.getD d.i.toNat 0) + d.prev }) := by
  change read d = _
  unfold read
  rw [if_neg henc]

/-- **The uncompressed format** is read word by word. -/
theorem drains_uncompressed : ∀ {zs : List UInt64} {d : Int64Decoder},
    d.encoding = intUncompressed → d.bytes = zs.flatMap putUint64 → d.n ≤ d.i + 1 →
    ∃ d', (cursor S).Drains d (sumsFrom d.prev (zs.map zigZagDecode)) d' ∧ d'.err = d.err
  | [], d, henc, hbytes, hn => by
    obtain ⟨d', hnext, herr⟩ := next_nil (S := S) hbytes hn (.inl henc)
    exact ⟨d', .stop hnext, herr⟩
  | z :: zs, d, henc, hbytes, hn => by
    rw [flatMap_cons] at hbytes
    have hdecode : decode S { d with i := d.i + 1 } = some { d with
        values := fill d.values [z], i := 0, n := 1
        bytes := zs.flatMap putUint64 } := by
      unfold decode decodeUncompressed
      rw [if_pos henc]
      dsimp only
      rw [hbytes, if_neg (putUint64_append_ne_nil z _), if_neg (length_putUint64_append z _),
        uint64_putUint64_append, drop_putUint64_append]
    have hnext := next_decode (hbytes ▸ putUint64_append_ne_nil z _) hn hdecode Int.one_pos
    obtain ⟨d', hdrains, herr⟩ := @drains_uncompressed zs { d with
        values := fill d.values [z], i := 0, n := 1
        bytes := zs.flatMap putUint64, prev := zigZagDecode z + d.prev } henc rfl le_rfl
    refine ⟨d', .cons hnext (read_of_ne ?_) hdrains, herr⟩
    rw [show _ = intUncompressed from henc]
    decide

structure Pending (d : Int64Decoder) (pending : List UInt64) : Prop where
  encoding : d.encoding = intCompressedSimple
  first : d.first = false
  nonneg : 0 ≤ d.i
  n_eq : d.n = d.i + 1 + pending.length
  values : ∃ front rest, d.values = front ++ (pending ++ rest) ∧ front.length = d.i.toNat + 1

theorem encoding_ne (henc : d.encoding = intCompressedSimple) : d.encoding ≠ intCompressedRLE := by
  rw [henc]
  decide

theorem Pending.tail {z : UInt64} {zs : List UInt64} (h : d.Pending (z :: zs)) :
    d.values.getD (d.i + 1).toNat 0 = z ∧
      Pending { d with i := d.i + 1, prev := zigZagDecode z + d.prev } zs := by
  obtain ⟨front, rest, hvalues, hlength⟩ := h.values
  have hi := h.nonneg
  have hindex : (d.i + 1).toNat = front.length := by omega
  refine ⟨?_, ⟨h.encoding, h.first, by dsimp only; omega, ?_, ?_⟩⟩
  · rw [hindex, hvalues, getD_eq_getElem?_getD, List.getElem?_append_right le_rfl, Nat.sub_self]
    rfl
  · have := h.n_eq
    rw [length_cons] at this
    dsimp only
    omega
  · refine ⟨front ++ [z], rest, ?_, ?_⟩
    · rw [hvalues]
      simp
    · rw [length_append, length_singleton]
      dsimp only
      omega

theorem pending_fill (d : Int64Decoder) (z : UInt64) (zs : List UInt64) (rest : Bytes)
    (henc : d.encoding = intCompressedSimple) (v : Int64) : Pending { d with
      values := fill d.values (z :: zs), i := 0, n := (z :: zs).length, bytes := rest
      first := false, prev := v } zs := by
  refine ⟨henc, rfl, le_rfl, ?_, [z], d.values.drop (z :: zs).length, ?_, rfl⟩
  · rw [length_cons]
    push_cast
    omega
  · rw [fill]
    rfl

/-- **The packed format** is read word by word, and every word value by
value. -/
theorem drains_packed : ∀ {words : List UInt64} {groups : List (List UInt64)},
    words.map S.decode = groups.map some → (∀ g ∈ groups, g ≠ [] ∧ g.length ≤ 240) →
    ∀ {pending : List UInt64} {d : Int64Decoder}, d.Pending pending →
      d.bytes = words.flatMap putUint64 →
      ∃ d', (cursor S).Drains d
        (sumsFrom d.prev ((pending ++ groups.flatten).map zigZagDecode)) d' ∧ d'.err = d.err
  | words, groups, hdecodes, hgroups, z :: zs, d, hd, hbytes => by
    obtain ⟨hz, htail⟩ := hd.tail
    have hn := hd.n_eq
    rw [length_cons] at hn
    have hnext := next_pending (S := S) (d := d) (by omega)
    have hread := read_of_ne (S := S) (d := { d with i := d.i + 1 }) (encoding_ne hd.encoding)
    dsimp only at hread
    rw [hz] at hread
    obtain ⟨d', hdrains, herr⟩ := drains_packed hdecodes hgroups htail hbytes
    exact ⟨d', .cons hnext hread hdrains, herr⟩
  | [], [], _, _, [], d, hd, hbytes => by
    have hn := hd.n_eq
    obtain ⟨d', hnext, herr⟩ := next_nil (S := S) hbytes (by simp at hn; omega)
      (.inr (.inl hd.encoding))
    exact ⟨d', .stop hnext, herr⟩
  | w :: words, [] :: groups, hdecodes, hgroups, [], d, hd, hbytes =>
    absurd rfl (hgroups [] mem_cons_self).1
  | w :: words, (z :: zs) :: groups, hdecodes, hgroups, [], d, hd, hbytes => by
    rw [map_cons, map_cons, List.cons.injEq] at hdecodes
    rw [flatMap_cons] at hbytes
    have hn := hd.n_eq
    have hdecode : decode S { d with i := d.i + 1 } = some { d with
        values := fill d.values (z :: zs), i := 0, n := (z :: zs).length
        bytes := words.flatMap putUint64 } := by
      unfold decode decodePacked
      rw [show _ = intCompressedSimple from hd.encoding, if_neg (by decide), if_pos rfl]
      dsimp only
      rw [hbytes, if_neg (putUint64_append_ne_nil w _), if_neg (length_putUint64_append w _),
        uint64_putUint64_append, drop_putUint64_append, hd.first, hdecodes.1]
      rfl
    have hnext := next_decode (hbytes ▸ putUint64_append_ne_nil w _) (by simp at hn; omega)
      hdecode (by dsimp only [length_cons]; omega)
    have hpending := pending_fill d z zs (words.flatMap putUint64) hd.encoding
      (zigZagDecode z + d.prev)
    rw [← hd.first] at hpending
    obtain ⟨d', hdrains, herr⟩ := drains_packed hdecodes.2
      (forall_mem_cons.mp hgroups).2 hpending rfl
    exact ⟨d', .cons hnext (read_of_ne (encoding_ne hd.encoding)) hdrains, herr⟩
termination_by words _ _ _ pending => (words.length, pending.length)

/-- **The run-length format** is computed, value by value. -/
theorem drains_rle : ∀ {k : ℕ} {d : Int64Decoder}, d.encoding = intCompressedRLE → d.bytes = [] →
    0 ≤ d.i → d.n = d.i + 1 + k →
    ∃ d', (cursor S).Drains d ((List.range' (d.i.toNat + 1) k).map (fun j =>
      zigZagDecode (d.rleFirst + UInt64.ofNat j * d.rleDelta))) d' ∧ d'.err = d.err
  | 0, d, henc, hbytes, _, hn => by
    obtain ⟨d', hnext, herr⟩ := next_nil (S := S) hbytes (by omega) (.inr (.inr henc))
    exact ⟨d', .stop hnext, herr⟩
  | k + 1, d, henc, hbytes, hi, hn => by
    have hnext := next_pending (S := S) (d := d) (by omega)
    have hindex : UInt64.ofInt (d.i + 1) = UInt64.ofNat (d.i.toNat + 1) := by
      rw [show d.i + 1 = ((d.i.toNat + 1 : ℕ) : ℤ) by omega, ofInt_natCast]
    have hread : (cursor S).read { d with i := d.i + 1 } =
        (zigZagDecode (d.rleFirst + UInt64.ofNat (d.i.toNat + 1) * d.rleDelta),
          { d with i := d.i + 1 }) := by
      change read _ = _
      unfold read
      rw [if_pos henc, hindex]
    obtain ⟨d', hdrains, herr⟩ := @drains_rle k { d with i := d.i + 1 } henc hbytes
      (by dsimp only; omega) (by dsimp only; omega)
    refine ⟨d', ?_, herr⟩
    have hstep := Cursor.Drains.cons hnext hread hdrains
    rw [show (d.i + 1).toNat = d.i.toNat + 1 by omega] at hstep
    rw [range'_succ]
    exact hstep

end Int64Decoder

/-! ## What comes back -/

def encodedSteps (vs : List Int64) : List UInt64 := (stepsFrom 0 vs).map zigZagEncode

def RunLength (vs : List Int64) : Prop := vs.length > 2 ∧ AllEqual ((encodedSteps vs).drop 1)

instance (vs : List Int64) : Decidable (RunLength vs) :=
  inferInstanceAs (Decidable (_ ∧ _))

def decoded (vs : List Int64) : List Int64 :=
  if RunLength vs then (List.range vs.length).map (fun j =>
    zigZagDecode ((encodedSteps vs).getD 0 0 + UInt64.ofNat j * (encodedSteps vs).getD 1 0))
  else vs

theorem length_encodedSteps (vs : List Int64) : (encodedSteps vs).length = vs.length := by
  rw [encodedSteps, length_map, length_stepsFrom]

theorem sumsFrom_encodedSteps (vs : List Int64) :
    sumsFrom 0 ((encodedSteps vs).map zigZagDecode) = vs := by
  rw [encodedSteps, map_map, map_congr_left (g := id), map_id, sumsFrom_stepsFrom]
  intro v _
  exact zigZagDecode_zigZagEncode v

section Formats

variable {S : Simple8b}

variable {z : UInt64} {zs : List UInt64}

open Int64Decoder in
theorem drains_encodeUncompressed :
    ∃ d', (cursor S).Drains (new ((intUncompressed <<< 4) :: (z :: zs).flatMap putUint64))
      (sumsFrom 0 ((z :: zs).map zigZagDecode)) d' ∧ d'.err = none :=
  @drains_uncompressed S (z :: zs)
    (new ((intUncompressed <<< 4) :: (z :: zs).flatMap putUint64))
    (show (intUncompressed <<< 4) >>> 4 = intUncompressed by decide) rfl
    (show (0 : ℤ) ≤ 0 + 1 by decide)

open Int64Decoder in
theorem drains_encodePacked (hS : S.WordsRoundTrip) (hsmall : ∀ v ∈ zs, v ≤ Simple8b.maxValue) :
    ∃ words d', S.encodeAll zs = some words ∧
      (cursor S).Drains (new ((intCompressedSimple <<< 4) :: (putUint64 z ++
        words.flatMap putUint64))) (sumsFrom 0 ((z :: zs).map zigZagDecode)) d' ∧
      d'.err = none := by
  obtain ⟨words, groups, hencode, hdecodes, hgroups, hflatten⟩ := hS zs hsmall
  refine ⟨words, ?_⟩
  have henc : (new ((intCompressedSimple <<< 4) :: (putUint64 z ++
      words.flatMap putUint64))).encoding = intCompressedSimple :=
    show (intCompressedSimple <<< 4) >>> 4 = intCompressedSimple by decide
  generalize hd : new ((intCompressedSimple <<< 4) :: (putUint64 z ++
    words.flatMap putUint64)) = d at henc
  have hbytes : d.bytes = putUint64 z ++ words.flatMap putUint64 := by rw [← hd]; rfl
  have hfirst : d.first = true ∧ d.i = 0 ∧ d.n = 0 ∧ d.prev = 0 ∧ d.err = none := by
    rw [← hd]
    exact ⟨rfl, rfl, rfl, rfl, rfl⟩
  obtain ⟨hfirst, hi, hn, hprev, herr⟩ := hfirst
  -- the first value is a word of its own
  have hdecode : decode S { d with i := d.i + 1 } = some { d with
      first := false, n := 1, values := fill d.values [z], i := 0
      bytes := words.flatMap putUint64 } := by
    unfold decode decodePacked
    rw [show _ = intCompressedSimple from henc, if_neg (by decide), if_pos rfl]
    dsimp only
    rw [hbytes, if_neg (putUint64_append_ne_nil z _), if_neg (length_putUint64_append z _),
      uint64_putUint64_append, drop_putUint64_append, hfirst]
    rfl
  have hnext := next_decode (hbytes ▸ putUint64_append_ne_nil z _) (by omega) hdecode Int.one_pos
  have hpending := pending_fill d z [] (words.flatMap putUint64) henc
    (zigZagDecode z + d.prev)
  obtain ⟨d', hdrains, herr'⟩ := drains_packed hdecodes hgroups hpending rfl
  refine ⟨d', hencode, ?_, herr'.trans herr⟩
  have hstep := Cursor.Drains.cons hnext (read_of_ne (encoding_ne henc)) hdrains
  rw [nil_append, hflatten] at hstep
  rw [← hprev]
  exact hstep

open Int64Decoder in
theorem drains_encodeRLE {first delta : UInt64} {n : ℕ} (hn : n + 1 < 2 ^ 63) :
    ∃ d', (cursor S).Drains (new ((intCompressedRLE <<< 4) :: (putUint64 first ++
        (putUvarint delta ++ putUvarint (UInt64.ofNat n)))))
      ((List.range (n + 1)).map (fun j => zigZagDecode (first + UInt64.ofNat j * delta))) d' ∧
      d'.err = none := by
  have henc : (new ((intCompressedRLE <<< 4) :: (putUint64 first ++
      (putUvarint delta ++ putUvarint (UInt64.ofNat n))))).encoding = intCompressedRLE :=
    show (intCompressedRLE <<< 4) >>> 4 = intCompressedRLE by decide
  generalize hd : new ((intCompressedRLE <<< 4) :: (putUint64 first ++
    (putUvarint delta ++ putUvarint (UInt64.ofNat n)))) = d at henc
  have hbytes : d.bytes = putUint64 first ++
      (putUvarint delta ++ putUvarint (UInt64.ofNat n)) := by rw [← hd]; rfl
  have hfields : d.i = 0 ∧ d.n = 0 ∧ d.err = none := by
    rw [← hd]
    exact ⟨rfl, rfl, rfl⟩
  obtain ⟨hi, hn', herr⟩ := hfields
  have hcount : ((UInt64.ofNat n).toInt64 + 1).toInt = n + 1 := by
    have hint : (UInt64.ofNat n).toInt64.toInt = n := Int64.toInt_ofNat_of_lt (by omega)
    rw [Int64.toInt_add, hint, Int.bmod_eq_of_le (by simp; omega) (by simp; omega)]
    rfl
  have hskip : (putUint64 first ++ (putUvarint delta ++
      putUvarint (UInt64.ofNat n))).drop (8 + ((putUvarint delta).length : ℤ)).toNat =
        putUvarint (UInt64.ofNat n) := by
    rw [show (8 + ((putUvarint delta).length : ℤ)).toNat =
      8 + (putUvarint delta).length by omega, ← drop_drop,
      drop_putUint64_append, drop_left]
  have hdecode : decode S { d with i := d.i + 1 } = some { d with
      rleFirst := first, rleDelta := delta, n := n + 1, i := 0, bytes := [] } := by
    unfold decode decodeRLE
    rw [show _ = intCompressedRLE from henc, if_neg (by decide), if_neg (by decide), if_pos rfl]
    dsimp only
    rw [hbytes, if_neg (putUint64_append_ne_nil first _), if_neg (length_putUint64_append first _),
      uint64_putUint64_append, drop_putUint64_append, uvarint_putUvarint_append]
    dsimp only
    rw [if_neg (by simp only [length_append, length_putUint64]; push_cast; omega),
      hskip, uvarint_putUvarint, hcount]
  have hnext := next_decode (hbytes ▸ putUint64_append_ne_nil first _) (by omega) hdecode
    (by dsimp only; omega)
  have hread : (cursor S).read { d with
      rleFirst := first, rleDelta := delta, n := n + 1, i := 0, bytes := [] } =
      (zigZagDecode (first + UInt64.ofNat 0 * delta), { d with
        rleFirst := first, rleDelta := delta, n := n + 1, i := 0, bytes := [] }) := by
    change Int64Decoder.read _ = _
    unfold Int64Decoder.read
    rw [if_pos henc]
    rfl
  obtain ⟨d', hdrains, herr'⟩ := @drains_rle S n { d with
    rleFirst := first, rleDelta := delta, n := n + 1, i := 0, bytes := [] } henc rfl le_rfl
    (by dsimp only; omega)
  rw [range_eq_range', range'_succ]
  exact ⟨d', .cons hnext hread hdrains, herr'.trans herr⟩

end Formats

/-- **What is read** of the values that were written. -/
theorem drains_bytes {S : Simple8b} (hS : S.WordsRoundTrip) (vs : List Int64)
    (hlen : vs.length < 2 ^ 63) :
    ∃ b d', (vs.foldl Int64Encoder.write Int64Encoder.new).bytes S = some b ∧
      (Int64Decoder.cursor S).Drains (Int64Decoder.new b) (decoded vs) d' ∧ d'.err = none := by
  obtain ⟨hvalues, hrle⟩ := Int64Encoder.foldl_write vs Int64Encoder.new
  have hrle : (vs.foldl Int64Encoder.write Int64Encoder.new).RleSpec :=
    hrle ⟨fun _ => nofun, fun _ => rfl⟩
  have hvalues : (vs.foldl Int64Encoder.write Int64Encoder.new).values = encodedSteps vs := hvalues
  generalize vs.foldl Int64Encoder.write Int64Encoder.new = e at hvalues hrle
  have hrle : e.rle = true ↔ AllEqual ((encodedSteps vs).drop 1) := hvalues ▸ hrle
  have hlength := length_encodedSteps vs
  have hsums := sumsFrom_encodedSteps vs
  unfold Int64Encoder.bytes decoded
  rw [hvalues, hlength]
  by_cases hrun : RunLength vs
  · have hlong := hrun.1
    rw [if_pos (by simp [hrle.mpr hrun.2, hlong]), if_pos hrun]
    obtain ⟨d', hdrains, herr⟩ := @drains_encodeRLE S ((encodedSteps vs).getD 0 0)
      ((encodedSteps vs).getD 1 0) (vs.length - 1) (by omega)
    refine ⟨_, d', rfl, ?_, herr⟩
    rw [Int64Encoder.encodeRLE, hvalues, hlength]
    rwa [Nat.sub_add_cancel (by omega)] at hdrains
  · have hnot : ¬ (e.rle && decide (vs.length > 2)) = true := by
      rw [Bool.and_eq_true, decide_eq_true_eq]
      exact fun h => hrun ⟨h.2, hrle.mp h.1⟩
    rw [if_neg hnot, if_neg hrun]
    split
    · rename_i hany
      obtain ⟨z, zs, hcons⟩ : ∃ z zs, encodedSteps vs = z :: zs := by
        refine exists_cons_of_ne_nil (fun hnil => ?_)
        rw [hnil] at hany
        cases hany
      rw [Int64Encoder.encodeUncompressed, hvalues, hcons]
      rw [hcons] at hsums
      obtain ⟨d', hdrains, herr⟩ := @drains_encodeUncompressed S z zs
      exact ⟨_, d', rfl, hsums ▸ hdrains, herr⟩
    · rename_i hany
      rw [Int64Encoder.encodePacked, hvalues]
      cases hcons : encodedSteps vs with
      | nil =>
        rw [hcons] at hsums
        refine ⟨[], Int64Decoder.new [], rfl, ?_, rfl⟩
        rw [← hsums]
        exact .stop rfl
      | cons z zs =>
        rw [hcons] at hsums hany
        have hsmall : ∀ v ∈ zs, v ≤ Simple8b.maxValue := by
          intro v hv
          by_contra hgt
          refine hany (any_eq_true.mpr ⟨v, mem_cons_of_mem _ hv, ?_⟩)
          exact decide_eq_true (UInt64.not_le.mp hgt)
        obtain ⟨words, d', hencode, hdrains, herr⟩ := drains_encodePacked (z := z) hS hsmall
        refine ⟨_, d', ?_, hsums ▸ hdrains, herr⟩
        dsimp only
        rw [hencode]
        rfl

end AndyEnv.Tsm1.Codec
