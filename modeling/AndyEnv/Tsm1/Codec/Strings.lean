import AndyEnv.Lib.Cursor
import AndyEnv.Lib.Varint

/-!
# The string codec

Every string is written with its length before it, and the whole is compressed
by snappy, which is a parameter. A string is its bytes.
-/

namespace AndyEnv.Tsm1.Codec

open List Bytes

/-! ## Snappy -/

structure Snappy : Type where
  encode : Bytes → Bytes
  decode : Bytes → Option Bytes

namespace Snappy

def RoundTrip (Z : Snappy) : Prop := ∀ b, Z.decode (Z.encode b) = some b

/-- Bytes as they are. -/
def plain : Snappy := ⟨id, some⟩

theorem plain_roundTrip : plain.RoundTrip := fun _ => rfl

end Snappy

/-! ## The encoder -/

def stringCompressedSnappy : UInt8 := 1

structure StringEncoder : Type where
  bytes : Bytes
deriving DecidableEq, Repr

namespace StringEncoder

def new : StringEncoder := ⟨[]⟩

def write (e : StringEncoder) (s : Bytes) : StringEncoder :=
  ⟨e.bytes ++ putUvarint (UInt64.ofNat s.length) ++ s⟩

/-- `Bytes`. -/
def finish (Z : Snappy) (e : StringEncoder) : Bytes := (stringCompressedSnappy <<< 4) :: Z.encode e.bytes

end StringEncoder

/-! ## The decoder -/

structure StringDecoder : Type where
  b : Bytes
  /-- The length of the last string with its header. -/
  l : ℤ
  i : ℤ
deriving DecidableEq, Repr

namespace StringDecoder

/-- `NewStringDecoder`, after the header. -/
def new (Z : Snappy) (b : Bytes) : Option StringDecoder := (Z.decode b).map (⟨·, 0, 0⟩)

def next (d : StringDecoder) : Bool × StringDecoder :=
  let i := d.i + d.l
  (decide (i < d.b.length), { d with i := i })

/-- `Read`; it panics where a bound of a slice is out of range. -/
def read (d : StringDecoder) : Option (Bytes × StringDecoder) :=
  if d.i < 0 ∨ (d.b.length : ℤ) < d.i then none
  else
    let (length, n) := uvarint (d.b.drop d.i.toNat)
    let low := d.i + n
    let high := low + length.toInt64.toInt
    if low < 0 ∨ high < low ∨ (d.b.length : ℤ) < high then none
    else some ((d.b.drop low.toNat).take (high - low).toNat,
      { d with l := length.toInt64.toInt + n })

def reader : Reader StringDecoder Bytes where
  next d := some d.next
  read := read

end StringDecoder

/-! ## The round trip -/

def stringEntry (s : Bytes) : Bytes := putUvarint (UInt64.ofNat s.length) ++ s

theorem StringEncoder.foldl_write (ss : List Bytes) (e : StringEncoder) :
    (ss.foldl write e).bytes = e.bytes ++ ss.flatMap stringEntry := by
  induction ss generalizing e with
  | nil => exact (append_nil _).symm
  | cons s ss ih =>
    rw [foldl_cons, ih, write, flatMap_cons, stringEntry]
    simp only [append_assoc]

theorem StringDecoder.read_entry {b done s rest : Bytes} {l : ℤ}
    (hb : b = done ++ (stringEntry s ++ rest)) (hs : s.length < 2 ^ 63) :
    read ⟨b, l, done.length⟩ = some (s, ⟨b, (stringEntry s).length, done.length⟩) := by
  have hlength : (UInt64.ofNat s.length).toInt64.toInt = s.length := Int64.toInt_ofNat_of_lt hs
  have hentry : (stringEntry s).length =
      (putUvarint (UInt64.ofNat s.length)).length + s.length := length_append
  have hblen : b.length = done.length + (stringEntry s).length + rest.length := by
    rw [hb, length_append, length_append, Nat.add_assoc]
  have hlow : b.drop (done.length + (putUvarint (UInt64.ofNat s.length)).length) = s ++ rest := by
    rw [hb, drop_length_add_append, stringEntry, append_assoc, drop_left]
  unfold read
  dsimp only
  rw [if_neg (by omega), Int.toNat_natCast]
  have hdrop : b.drop done.length = putUvarint (UInt64.ofNat s.length) ++ (s ++ rest) := by
    rw [hb, drop_left, stringEntry, append_assoc]
  rw [hdrop, uvarint_putUvarint_append]
  dsimp only
  rw [hlength, if_neg (by omega), ← Nat.cast_add, Int.toNat_natCast, hlow, add_sub_cancel_left,
    Int.toNat_natCast, take_left, hentry, Nat.cast_add, add_comm]

theorem StringDecoder.reads_from {b : Bytes} : ∀ {ss : List Bytes} {done : Bytes} {l i : ℤ},
    b = done ++ ss.flatMap stringEntry → i + l = done.length → (∀ s ∈ ss, s.length < 2 ^ 63) →
      ∃ d', reader.Reads ⟨b, l, i⟩ ss d'
  | [], _, _, _, _, _, _ => ⟨_, .nil⟩
  | s :: ss, done, l, i, hb, hi, hss => by
    rw [flatMap_cons] at hb
    have hlt : (done.length : ℤ) < b.length := by
      have hpos := length_pos_of_ne_nil (putUvarint_ne_nil (UInt64.ofNat s.length))
      rw [hb, stringEntry]
      simp only [length_append]
      omega
    have hnext : reader.next ⟨b, l, i⟩ = some (true, ⟨b, l, done.length⟩) := by
      simp [reader, next, hi, hlt]
    have hread := @read_entry b done s (ss.flatMap stringEntry) l hb (hss s mem_cons_self)
    obtain ⟨d', hrest⟩ := @reads_from b ss (done ++ stringEntry s) (stringEntry s).length done.length
      (by rw [hb, append_assoc]) (by rw [length_append, Nat.cast_add])
      (forall_mem_cons.mp hss).2
    exact ⟨d', .cons hnext hread hrest⟩

/-- **The strings survive the codec**, empty ones as well. -/
theorem reads_strings {Z : Snappy} (hZ : Z.RoundTrip) (ss : List Bytes)
    (hss : ∀ s ∈ ss, s.length < 2 ^ 63) :
    ∃ b d d', (ss.foldl StringEncoder.write StringEncoder.new).finish Z =
        (stringCompressedSnappy <<< 4) :: b ∧
      StringDecoder.new Z b = some d ∧ StringDecoder.reader.Reads d ss d' := by
  have hbytes := StringEncoder.foldl_write ss StringEncoder.new
  obtain ⟨d', hreads⟩ := @StringDecoder.reads_from (ss.foldl StringEncoder.write .new).bytes
    ss [] 0 0 hbytes rfl hss
  refine ⟨_, _, d', rfl, ?_, hreads⟩
  rw [StringDecoder.new, hZ]
  rfl

end AndyEnv.Tsm1.Codec
