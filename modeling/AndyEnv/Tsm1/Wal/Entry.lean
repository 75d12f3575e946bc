import AndyEnv.Tsm1.Value

/-!
# WAL entries (`wal.go`)

A segment file is a sequence of entries: a type byte, the length of the
payload as a big-endian `uint32`, and the payload. The payload is the
compressed text of the entry; compression, line protocol and JSON are the
parameter `EntryCodec`, of which nothing is assumed.

`readEntries` follows `readFileToCache`: it stops quietly at the end of the
file, at a payload that is cut off and at a payload that does not decompress,
and it fails on a header that is cut off and on a text that does not parse.
-/

namespace AndyEnv.Tsm1.Wal

open List Bytes

/-! ## Points -/

/-- A point as `addToCache` sees it: `Fields()` in the order `range` visits
the map. -/
structure Point : Type where
  key : Bytes
  fields : List (Bytes × Datum)
  time : Int64
deriving DecidableEq, Repr

/-- `keyFieldSeparator`, the text `#!~#`. -/
def keyFieldSeparator : Bytes := [35, 33, 126, 35]

def seriesFieldKey (seriesKey field : Bytes) : Bytes := seriesKey ++ keyFieldSeparator ++ field

/-- The series of a composite key: what stands before the first separator
(`seriesAndFieldFromCompositeKey`). -/
def seriesFromCompositeKey : Bytes → Bytes
  | [] => []
  | b :: bs =>
    if keyFieldSeparator.isPrefixOf (b :: bs) then [] else b :: seriesFromCompositeKey bs

def Point.values (p : Point) : List (Bytes × Value) :=
  p.fields.map (fun f => (seriesFieldKey p.key f.1, ⟨p.time, f.2⟩))

/-! ## Entries -/

/-- What an entry holds. Of the new fields and of the new series only the
names are kept. -/
inductive Entry : Type where
  | points (points : List Point)
  | fields (names : List Bytes)
  | series (keys : List Bytes)
  | delete (keys : List Bytes) (measurementName : Bytes)
deriving DecidableEq, Repr

namespace Entry

def type : Entry → UInt8
  | .points _ => 1
  | .fields _ => 2
  | .series _ => 3
  | .delete _ _ => 4

def values : Entry → List (Bytes × Value)
  | .points ps => ps.flatMap Point.values
  | _ => []

end Entry

inductive Decoded : Type where
  | entry (e : Entry)
  /-- `snappy.Decode` fails. -/
  | undecodable
  /-- The text does not parse. -/
  | invalid
  /-- No entry has this type. -/
  | unknown
deriving DecidableEq, Repr

/-- The payload of an entry, and what is read from a payload of a type. -/
structure EntryCodec : Type where
  payload : Entry → Bytes
  decode : UInt8 → Bytes → Decoded

section Codec

variable (C : EntryCodec)

def entryBytes (e : Entry) : Bytes :=
  e.type :: (putUint32 (UInt32.ofNat (C.payload e).length) ++ C.payload e)

inductive ReadEnd : Type where
  | endOfFile
  | cutHeader
  | cutPayload
  | undecodable
  | invalid
deriving DecidableEq, Repr

/-- `readFileToCache` returns an error. -/
def ReadEnd.isError : ReadEnd → Bool
  | .cutHeader => true
  | .invalid => true
  | _ => false

/-- The loop of `readFileToCache`, with the entries it hands to the cache.
Every round reads at least five bytes. -/
def readLoop : ℕ → Bytes → List Entry × ReadEnd
  | 0, _ => ([], .endOfFile)
  | fuel + 1, buf =>
    if buf = [] then ([], .endOfFile)
    else if buf.length < 5 then ([], .cutHeader)
    else
      let length := (uint32 (buf.drop 1)).toNat
      let rest := buf.drop 5
      if rest.length < length then ([], .cutPayload)
      else match C.decode (buf.headD 0) (rest.take length) with
        | .undecodable => ([], .undecodable)
        | .invalid => ([], .invalid)
        | .unknown => readLoop fuel (rest.drop length)
        | .entry e =>
          let r := readLoop fuel (rest.drop length)
          (e :: r.1, r.2)

def readEntries (buf : Bytes) : List Entry × ReadEnd := readLoop C (buf.length + 1) buf

end Codec

/-! ## Reading back -/

section ReadBack

variable {C : EntryCodec}

theorem length_entryBytes (e : Entry) : (entryBytes C e).length = 5 + (C.payload e).length := by
  rw [entryBytes, length_cons, length_append, length_putUint32]
  omega

theorem entryBytes_ne_nil (e : Entry) : entryBytes C e ≠ [] := cons_ne_nil _ _

/-- The entry fits the length field, and its payload is read as `e'`. -/
structure ReadsAs (C : EntryCodec) (e e' : Entry) : Prop where
  length_lt : (C.payload e).length < 2 ^ 32
  decode : C.decode e.type (C.payload e) = .entry e'

theorem readLoop_entry {e e' : Entry} (h : ReadsAs C e e') (fuel : ℕ) (rest : Bytes) :
    readLoop C (fuel + 1) (entryBytes C e ++ rest) =
      (e' :: (readLoop C fuel rest).1, (readLoop C fuel rest).2) := by
  have hlen : (UInt32.ofNat (C.payload e).length).toNat = (C.payload e).length :=
    UInt32.toNat_ofNat_of_lt' h.length_lt
  have hcons : entryBytes C e ++ rest = e.type ::
      (putUint32 (UInt32.ofNat (C.payload e).length) ++ (C.payload e ++ rest)) := by
    rw [entryBytes, cons_append, append_assoc]
  have hdrop : (entryBytes C e ++ rest).drop 5 = C.payload e ++ rest := by
    rw [hcons, drop_succ_cons, drop_append_of_le_length (by simp),
      drop_of_length_le (by simp), nil_append]
  have hread : uint32 ((entryBytes C e ++ rest).drop 1) = UInt32.ofNat (C.payload e).length := by
    rw [hcons, drop_succ_cons, drop_zero, uint32_putUint32_append]
  rw [readLoop, if_neg (by simp [entryBytes_ne_nil]), if_neg]
  · dsimp only
    rw [hdrop, hread, hlen, if_neg (by simp), take_left, drop_left, hcons, headD_cons, h.decode]
  · rw [length_append, length_entryBytes]
    omega

variable {es es' : List Entry}

/-- **What was written is read back**, entry by entry. -/
theorem readLoop_flatMap (h : List.Forall₂ (ReadsAs C) es es') : ∀ {fuel : ℕ}, es.length < fuel →
      readLoop C fuel (es.flatMap (entryBytes C)) = (es', .endOfFile) := by
  induction h with
  | nil =>
    intro fuel hfuel
    obtain ⟨n, rfl⟩ : ∃ n, fuel = n + 1 := ⟨fuel - 1, by simp at hfuel; omega⟩
    rfl
  | @cons e e' es es' he _ ih =>
    intro fuel hfuel
    obtain ⟨n, rfl⟩ : ∃ n, fuel = n + 1 := ⟨fuel - 1, by simp at hfuel; omega⟩
    rw [flatMap_cons, readLoop_entry he, ih (by simpa using hfuel)]

theorem length_le_length_flatMap (es : List Entry) :
    es.length ≤ (es.flatMap (entryBytes C)).length := by
  induction es with
  | nil => exact le_rfl
  | cons e es ih =>
    rw [flatMap_cons, length_append, length_cons, length_entryBytes]
    omega

theorem readEntries_flatMap (h : List.Forall₂ (ReadsAs C) es es') :
    readEntries C (es.flatMap (entryBytes C)) = (es', .endOfFile) :=
  readLoop_flatMap h (Nat.lt_succ_of_le (length_le_length_flatMap es))

end ReadBack

end AndyEnv.Tsm1.Wal
