import AndyEnv.Tsm1.DataFile
import AndyEnv.Tsm1.Codec.Bool
import AndyEnv.Tsm1.Codec.Float
import AndyEnv.Tsm1.Codec.Int64Runs
import AndyEnv.Tsm1.Codec.Strings
import AndyEnv.Tsm1.Codec.Timestamp

/-!
# Encoded blocks (`encoding.go`)

A block is the first timestamp in eight bytes, a byte for the type of the
values, the length of the encoded timestamps, the encoded timestamps and the
encoded values. The functions for the four types differ in the codec of the
values: a `Column` is such a codec.
-/

namespace AndyEnv.Tsm1.Codec

open List Bytes

/-! ## Packing -/

inductive BlockError : Type where
  | panic
  /-- `invalid block type: exp %d, got %d`. -/
  | invalidBlockType (exp got : UInt8)
  /-- An error of the codec of the timestamps. -/
  | timestamps
  /-- An error of the codec of the values. -/
  | values
deriving DecidableEq, Repr

/-- A constructor that fails in one way. -/
def orError {α : Type} (e : BlockError) : Option α → Except BlockError α
  | none => .error e
  | some a => .ok a

def packBlockHeader (firstTime : Int64) (blockType : UInt8) : Bytes :=
  putUint64 firstTime.toUInt64 ++ [blockType]

def packBlock (ts values : Bytes) : Bytes :=
  putUvarint (UInt64.ofNat ts.length) ++ ts ++ values

/-- `unpackBlock`; it panics where a bound of a slice is out of range. -/
def unpackBlock (buf : Bytes) : Option (Bytes × Bytes) :=
  let (tsLen, i) := uvarint buf
  let high := i + tsLen.toInt64.toInt
  if i < 0 ∨ high < i ∨ (buf.length : ℤ) < high then none
  else some ((buf.drop i.toNat).take (high - i).toNat, buf.drop high.toNat)

theorem unpackBlock_packBlock {ts : Bytes} (hts : ts.length < 2 ^ 63) (values : Bytes) :
    unpackBlock (packBlock ts values) = some (ts, values) := by
  have hlength : (UInt64.ofNat ts.length).toInt64.toInt = ts.length := Int64.toInt_ofNat_of_lt hts
  rw [unpackBlock, packBlock, append_assoc, uvarint_putUvarint_append]
  dsimp only
  rw [hlength, if_neg (by simp only [length_append]; omega), Int.toNat_natCast, drop_left,
    add_sub_cancel_left, Int.toNat_natCast, take_left, ← Nat.cast_add, Int.toNat_natCast,
    drop_length_add_append, drop_left]

/-! ## Columns -/

/-- The codec of the values of one type, with the type assertion that takes them
out of a value. -/
structure Column : Type 1 where
  Elem : Type
  Decoder : Type
  blockType : UInt8
  toDatum : Elem → Datum
  ofDatum : Datum → Option Elem
  encode : List Elem → Option Bytes
  new : Bytes → Except BlockError Decoder
  reader : Reader Decoder Elem
  failed : Decoder → Bool
  toDatum_ofDatum : ∀ {d : Datum} {a : Elem}, ofDatum d = some a → toDatum a = d

def floatColumn : Column where
  Elem := UInt64
  Decoder := FloatDecoder
  blockType := 0
  toDatum := .float64
  ofDatum
    | .float64 bits => some bits
    | _ => none
  encode vs := let (b, err) := (vs.foldl FloatEncoder.push FloatEncoder.new).finish.bytes
    if err then none else some b
  new b := if b = [] then .error .panic else orError .values (FloatDecoder.new b)
  reader := FloatDecoder.cursor.reader
  failed d := d.err
  toDatum_ofDatum {d _} h := by cases d <;> cases h; rfl

def int64Column (S : Simple8b) : Column where
  Elem := Int64
  Decoder := Int64Decoder
  blockType := 1
  toDatum := .int64
  ofDatum
    | .int64 v => some v
    | _ => none
  encode vs := (vs.foldl Int64Encoder.write Int64Encoder.new).bytes S
  new b := .ok (Int64Decoder.new b)
  reader := (Int64Decoder.cursor S).reader
  failed d := d.err.isSome
  toDatum_ofDatum {d _} h := by cases d <;> cases h; rfl

def boolColumn : Column where
  Elem := Bool
  Decoder := BoolDecoder
  blockType := 2
  toDatum := .bool
  ofDatum
    | .bool v => some v
    | _ => none
  encode vs := some (vs.foldl BoolEncoder.write BoolEncoder.new).finish
  new b := orError .panic (BoolDecoder.new b)
  reader := BoolDecoder.reader
  failed _ := false
  toDatum_ofDatum {d _} h := by cases d <;> cases h; rfl

def stringColumn (Z : Snappy) : Column where
  Elem := Bytes
  Decoder := StringDecoder
  blockType := 3
  toDatum := .string
  ofDatum
    | .string v => some v
    | _ => none
  encode vs := some ((vs.foldl StringEncoder.write StringEncoder.new).finish Z)
  new
    | [] => .error .panic
    | _ :: b => orError .values (StringDecoder.new Z b)
  reader := StringDecoder.reader
  failed _ := false
  toDatum_ofDatum {d _} h := by cases d <;> cases h; rfl

/-! ## Blocks of one type -/

/-- The loop over the values, and the bytes. A value of another type panics, and
so does `values[0]` on an empty list. -/
def encodeColumn (S : Simple8b) (C : Column) : Values → Except BlockError Bytes
  | [] => .error .panic
  | v :: vs =>
    match (v :: vs).mapM (fun v => C.ofDatum v.value) with
    | none => .error .panic
    | some elems =>
      match ((((v :: vs).map Value.time).foldl TimeEncoder.write TimeEncoder.new).bytes S).1 with
      | none => .error .timestamps
      | some tb =>
        match C.encode elems with
        | none => .error .values
        | some vb => .ok (packBlockHeader v.time C.blockType ++ packBlock tb vb)

def encodeFloatBlock (S : Simple8b) (values : Values) : Except BlockError Bytes :=
  if values = [] then .ok [] else encodeColumn S floatColumn values

def encodeBoolBlock (S : Simple8b) (values : Values) : Except BlockError Bytes :=
  if values = [] then .ok [] else encodeColumn S boolColumn values

def encodeInt64Block (S : Simple8b) (values : Values) : Except BlockError Bytes :=
  encodeColumn S (int64Column S) values

def encodeStringBlock (S : Simple8b) (Z : Snappy) (values : Values) : Except BlockError Bytes :=
  encodeColumn S (stringColumn Z) values

/-- The loop over both decoders, and their errors. -/
def decodeColumn (S : Simple8b) (C : Column) (block : Bytes) : Except BlockError Values :=
  match block.drop 8 with
  | [] => .error .panic
  | blockType :: rest =>
    if blockType ≠ C.blockType then .error (.invalidBlockType C.blockType blockType)
    else
      match unpackBlock rest with
      | none => .error .panic
      | some (tb, vb) =>
        match TimeDecoder.new S tb with
        | none => .error .panic
        | some dec => do
          let vdec ← C.new vb
          match TimeDecoder.cursor.reader.readPairs C.reader (dec.ts.length + 1) dec vdec with
          | none => .error .panic
          | some (pairs, dec, vdec) =>
            if dec.err.isSome then .error .timestamps
            else if C.failed vdec then .error .values
            else .ok (pairs.map (fun p => ⟨p.1, C.toDatum p.2⟩))

def decodeFloatBlock (S : Simple8b) : Bytes → Except BlockError Values := decodeColumn S floatColumn

def decodeInt64Block (S : Simple8b) : Bytes → Except BlockError Values :=
  decodeColumn S (int64Column S)

def decodeBoolBlock (S : Simple8b) : Bytes → Except BlockError Values := decodeColumn S boolColumn

def decodeStringBlock (S : Simple8b) (Z : Snappy) : Bytes → Except BlockError Values :=
  decodeColumn S (stringColumn Z)

/-! ## Blocks -/

/-- `Values.Encode`; the first value says the type. -/
def encode (S : Simple8b) (Z : Snappy) : Values → Except BlockError Bytes
  | [] => .error .panic
  | v :: vs =>
    match v.type with
    | .float64 => encodeFloatBlock S (v :: vs)
    | .int64 => encodeInt64Block S (v :: vs)
    | .bool => encodeBoolBlock S (v :: vs)
    | .string => encodeStringBlock S Z (v :: vs)

def encodedBlockHeaderSize : ℕ := 9

/-- `DecodeBlock`; it panics on a short block and on a type it does not know. -/
def decodeBlock (S : Simple8b) (Z : Snappy) (block : Bytes) : Except BlockError Values :=
  if block.length ≤ encodedBlockHeaderSize then .error .panic
  else
    let blockType := block.getD 8 0
    if blockType = 0 then decodeFloatBlock S block
    else if blockType = 1 then decodeInt64Block S block
    else if blockType = 2 then decodeBoolBlock S block
    else if blockType = 3 then decodeStringBlock S Z block
    else .error .panic

/-! ## The round trip of a column -/

/-- The values come back from the codec of the column. -/
def Column.Survives (C : Column) (elems : List C.Elem) : Prop :=
  ∃ b d d', C.encode elems = some b ∧ C.new b = .ok d ∧ C.reader.Reads d elems d' ∧ C.failed d' = false

/-- A decoder without an error at the end had none before the last `next`. -/
theorem err_of_next {d d' : FloatDecoder} (h : FloatDecoder.cursor.next d = some (false, d'))
    (herr : d'.err = false) : d.err = false := by
  cases hd : d.err with
  | false => rfl
  | true =>
    have hnext : d.next = (false, d) := by rw [FloatDecoder.next, if_pos (by simp [hd])]
    obtain rfl : d = d' := (Prod.ext_iff.mp (hnext.symm.trans (Option.some.inj h))).2
    exact absurd (hd.symm.trans herr) (by decide)

theorem survives_float {vs : List UInt64} (h : ∀ v ∈ vs, isNaN v = false) :
    floatColumn.Survives vs := by
  obtain ⟨d, d', hnew, hdrains, herr⟩ := drains_new vs h
  obtain ⟨t, hreads, hend⟩ := hdrains.reads
  have hok : (vs.foldl FloatEncoder.push FloatEncoder.new).finish.err = false := by
    rw [FloatEncoder.finish_err, FloatEncoder.foldl_push_err vs rfl]
    exact any_eq_false.mpr (fun v hv => by simp [h v hv])
  exact ⟨_, d, t, if_neg (by simp [hok]), congrArg (orError .values) hnew, hreads,
    err_of_next hend herr⟩

theorem survives_bool {vs : List Bool} (h : vs.length < 2 ^ 63) : boolColumn.Survives vs := by
  obtain ⟨d, d', hnew, hreads⟩ := reads_bools vs h
  exact ⟨_, d, d', rfl, congrArg (orError .panic) hnew, hreads, rfl⟩

variable {Z : Snappy} {C : Column}

theorem survives_string (hZ : Z.RoundTrip) {ss : List Bytes}
    (h : ∀ s ∈ ss, s.length < 2 ^ 63) : (stringColumn Z).Survives ss := by
  obtain ⟨b, d, d', hfinish, hnew, hreads⟩ := reads_strings hZ ss h
  exact ⟨_, d, d', congrArg some hfinish, congrArg (orError .values) hnew, hreads, rfl⟩

variable {S : Simple8b}

variable {d d' : Int64Decoder} {v : Value} {vs values : Values} {ty : FieldType}

theorem err_of_decode (h : d.decode S = some d') (herr : d'.err = none) : d.err = none := by
  unfold Int64Decoder.decode at h
  split at h
  · unfold Int64Decoder.decodeUncompressed at h
    grind
  split at h
  · unfold Int64Decoder.decodePacked at h
    grind
  split at h
  · unfold Int64Decoder.decodeRLE at h
    grind
  · obtain rfl := Option.some.inj h
    cases herr

theorem err_of_next_int64 {b : Bool}
    (h : (Int64Decoder.cursor S).next d = some (b, d')) (herr : d'.err = none) : d.err = none := by
  change d.next S = _ at h
  unfold Int64Decoder.next at h
  split at h
  · cases h
    exact herr
  dsimp only at h
  split at h
  · obtain ⟨e, hdecode, he⟩ := Option.map_eq_some_iff.mp h
    cases he
    have hd : ({ d with i := d.i + 1 } : Int64Decoder).err = none := err_of_decode hdecode herr
    exact hd
  · cases h
    exact herr

theorem survives_int64 (hS : S.WordsRoundTrip) {vs : List Int64} (hsafe : RunsSafe vs)
    (hlen : vs.length < 2 ^ 63) : (int64Column S).Survives vs := by
  obtain ⟨b, d, hbytes, hdrains, herr⟩ := drains_bytes hS vs hlen
  rw [(decoded_eq_iff vs).mpr hsafe] at hdrains
  obtain ⟨t, hreads, hend⟩ := hdrains.reads
  refine ⟨b, _, t, hbytes, rfl, hreads, ?_⟩
  change t.err.isSome = false
  rw [err_of_next_int64 hend herr]
  rfl

theorem reads_times (S : Simple8b) (hS : S.StreamRoundTrip) (ts : List Int64)
    (hlen : ts.length < 2 ^ 63) :
    ∃ b d t t', ((ts.foldl TimeEncoder.write TimeEncoder.new).bytes S).1 = some b ∧
      TimeDecoder.new S b = some d ∧ d.ts.length = ts.length ∧
      TimeDecoder.cursor.reader.Reads d ts t ∧ TimeDecoder.cursor.next t = some (false, t') ∧
      t'.err = none := by
  obtain ⟨b, hbytes, hnew⟩ := new_bytes hS (ts.map Int64.toUInt64) (by rwa [length_map])
  obtain ⟨t', hdrains, herr⟩ := drains_times (ts.map Int64.toUInt64) 0 none
  obtain ⟨t, hreads, hend⟩ := hdrains.reads
  refine ⟨b, _, t, t', ?_, hnew, length_map _, ?_, hend, herr⟩
  · rw [TimeEncoder.foldl_write]
    exact hbytes
  · have hid : (ts.map Int64.toUInt64).map UInt64.toInt64 = ts := by
      rw [map_map, map_congr_left (g := id), map_id]
      intro t _
      exact Int64.toInt64_toUInt64 t
    rwa [hid] at hreads

theorem length_of_mapM : ∀ {values : Values} {elems : List C.Elem},
    values.mapM (fun v => C.ofDatum v.value) = some elems → values.length = elems.length
  | [], _, h => by
    obtain rfl := Option.some.inj h
    rfl
  | v :: values, elems, h => by
    simp only [mapM_cons, Option.bind_eq_bind, Option.bind_eq_some_iff, Option.pure_def,
      Option.some.injEq] at h
    obtain ⟨a, ha, as, has, rfl⟩ := h
    rw [length_cons, length_cons, length_of_mapM has]

theorem map_zip_eq : ∀ {values : Values} {elems : List C.Elem},
    values.mapM (fun v => C.ofDatum v.value) = some elems →
      ((values.map Value.time).zip elems).map (fun p => (⟨p.1, C.toDatum p.2⟩ : Value)) = values
  | [], _, h => by
    obtain rfl := Option.some.inj h
    rfl
  | v :: values, elems, h => by
    simp only [mapM_cons, Option.bind_eq_bind, Option.bind_eq_some_iff, Option.pure_def,
      Option.some.injEq] at h
    obtain ⟨a, ha, as, has, rfl⟩ := h
    rw [map_cons, zip_cons_cons, map_cons, map_zip_eq has, C.toDatum_ofDatum ha]

/-- **A column comes back from its block.** -/
theorem decodeColumn_encodeColumn (hS : S.StreamRoundTrip)
    {elems : List C.Elem} (helems : (v :: vs).mapM (fun v => C.ofDatum v.value) = some elems)
    (hC : C.Survives elems) (hlen : (v :: vs).length < 2 ^ 63) :
    ∃ rest, encodeColumn S C (v :: vs) = .ok (packBlockHeader v.time C.blockType ++ rest) ∧
      rest ≠ [] ∧ (rest.length < 2 ^ 63 →
        decodeColumn S C (packBlockHeader v.time C.blockType ++ rest) = .ok (v :: vs)) := by
  obtain ⟨vb, d, d', hencode, hnew, hreads, hfailed⟩ := hC
  obtain ⟨tb, dec, t, t', htb, hdec, hcount, htimes, hend, herr⟩ :=
    reads_times S hS ((v :: vs).map Value.time) (by rwa [length_map])
  have helems_length : ((v :: vs).map Value.time).length = elems.length := by
    rw [length_map, length_of_mapM helems]
  refine ⟨packBlock tb vb, ?_, ?_, fun hrest => ?_⟩
  · simp only [encodeColumn, helems, htb, hencode]
  · rw [packBlock, append_assoc]
    exact append_ne_nil_of_left_ne_nil (putUvarint_ne_nil _) _
  · have htb_length : tb.length < 2 ^ 63 := by
      simp only [packBlock, length_append] at hrest
      omega
    have hdrop : (packBlockHeader v.time C.blockType ++ packBlock tb vb).drop 8 =
        C.blockType :: packBlock tb vb := by
      rw [packBlockHeader, append_assoc, drop_putUint64_append]
      rfl
    have hfuel : ((v :: vs).map Value.time).length < dec.ts.length + 1 := by omega
    have hpairs := Reader.readPairs_of_reads htimes hend hreads helems_length hfuel
    simp only [decodeColumn, hdrop, unpackBlock_packBlock htb_length, hdec, hnew, bind, Except.bind,
      hpairs, herr, hfailed, map_zip_eq helems, ne_eq, not_true_eq_false, if_false]
    rfl

/-! ## The round trip of a block -/

def column (S : Simple8b) (Z : Snappy) : FieldType → Column
  | .float64 => floatColumn
  | .int64 => int64Column S
  | .bool => boolColumn
  | .string => stringColumn Z

theorem encode_cons (S : Simple8b) (Z : Snappy) (v : Value) (vs : Values) :
    encode S Z (v :: vs) = encodeColumn S (column S Z v.type) (v :: vs) := by
  rw [encode]
  cases v.type <;> rfl

theorem decodeBlock_header (S : Simple8b) (Z : Snappy) (ty : FieldType) (t : Int64) {rest : Bytes}
    (hrest : rest ≠ []) : decodeBlock S Z (packBlockHeader t (column S Z ty).blockType ++ rest) =
      decodeColumn S (column S Z ty) (packBlockHeader t (column S Z ty).blockType ++ rest) := by
  have hlength : (packBlockHeader t (column S Z ty).blockType ++ rest).length = 9 + rest.length := by
    rw [length_append, packBlockHeader, length_append, length_putUint64]
    rfl
  have hat : (packBlockHeader t (column S Z ty).blockType ++ rest).getD 8 0 =
      (column S Z ty).blockType := by
    rw [packBlockHeader, append_assoc, getD_eq_getElem?_getD,
      List.getElem?_append_right (by simp), length_putUint64]
    rfl
  have hpos := length_pos_of_ne_nil hrest
  rw [decodeBlock, if_neg (by rw [hlength, encodedBlockHeaderSize]; omega)]
  dsimp only
  rw [hat]
  cases ty <;> rfl

theorem exists_elems {P : C.Elem → Prop} : ∀ values : Values,
    (∀ v ∈ values, ∃ a, C.ofDatum v.value = some a ∧ P a) →
      ∃ elems, values.mapM (fun v => C.ofDatum v.value) = some elems ∧ ∀ a ∈ elems, P a
  | [], _ => ⟨[], rfl, nofun⟩
  | v :: values, h => by
    obtain ⟨a, ha, hP⟩ := h v mem_cons_self
    obtain ⟨elems, helems, hPs⟩ := exists_elems values (forall_mem_cons.mp h).2
    refine ⟨a :: elems, ?_, forall_mem_cons.mpr ⟨hP, hPs⟩⟩
    rw [mapM_cons, ha, helems]
    rfl

def Survives (S : Simple8b) (Z : Snappy) (ty : FieldType) (values : Values) : Prop :=
  ∃ elems, values.mapM (fun v => (column S Z ty).ofDatum v.value) = some elems ∧
    (column S Z ty).Survives elems

/-- **A block with a column that survives is read back.** -/
theorem roundTrip_of_survives (hS : S.StreamRoundTrip)
    (h : Survives S Z v.type (v :: vs)) (hlen : (v :: vs).length < 2 ^ 63) :
    ∃ rest, encode S Z (v :: vs) = .ok (packBlockHeader v.time (column S Z v.type).blockType ++ rest) ∧
      (rest.length < 2 ^ 63 →
        decodeBlock S Z (packBlockHeader v.time (column S Z v.type).blockType ++ rest) =
          .ok (v :: vs)) := by
  obtain ⟨elems, helems, hsurvives⟩ := h
  obtain ⟨rest, hencode, hne, hdecode⟩ := decodeColumn_encodeColumn hS helems hsurvives hlen
  refine ⟨rest, ?_, fun hrest => ?_⟩
  · rw [encode_cons, hencode]
  · rw [decodeBlock_header S Z v.type v.time hne, hdecode hrest]

/-- Floats that are numbers, integers whose runs are safe, bools and strings survive. -/
theorem survives_of_type (hZ : Z.RoundTrip) (htype : Values.OfType ty values)
    (hruns : ty = .int64 → S.WordsRoundTrip ∧ ∀ elems, values.mapM (fun v => (int64Column S).ofDatum v.value) = some elems → RunsSafe elems)
    (hnan : ∀ v ∈ values, ∀ bits, v.value = .float64 bits → isNaN bits = false)
    (hlen : values.length < 2 ^ 63) (hsize : ∀ v ∈ values, v.size < 2 ^ 63) :
    Survives S Z ty values := by
  cases ty with
  | float64 =>
    obtain ⟨elems, helems, hall⟩ := exists_elems (C := floatColumn) (P := fun bits => isNaN bits = false)
      values (fun v hv => by
        obtain ⟨time, value⟩ := v
        cases value with
        | float64 bits => exact ⟨bits, rfl, hnan _ hv bits rfl⟩
        | int64 _ | bool _ | string _ => cases htype _ hv)
    exact ⟨elems, helems, survives_float hall⟩
  | int64 =>
    obtain ⟨elems, helems, -⟩ := exists_elems (C := int64Column S) (P := fun _ => True) values
      (fun v hv => by
        obtain ⟨time, value⟩ := v
        cases value with
        | int64 i => exact ⟨i, rfl, trivial⟩
        | float64 _ | bool _ | string _ => cases htype _ hv)
    have hlength : values.length = List.length elems := length_of_mapM helems
    exact ⟨elems, helems, survives_int64 (hruns rfl).1 ((hruns rfl).2 elems helems) (hlength ▸ hlen)⟩
  | bool =>
    obtain ⟨elems, helems, -⟩ := exists_elems (C := boolColumn) (P := fun _ => True) values
      (fun v hv => by
        obtain ⟨time, value⟩ := v
        cases value with
        | bool b => exact ⟨b, rfl, trivial⟩
        | float64 _ | int64 _ | string _ => cases htype _ hv)
    have hlength : values.length = List.length elems := length_of_mapM helems
    exact ⟨elems, helems, survives_bool (hlength ▸ hlen)⟩
  | string =>
    obtain ⟨elems, helems, hall⟩ := exists_elems (C := stringColumn Z)
      (P := fun s : Bytes => s.length < 2 ^ 63) values (fun v hv => by
        obtain ⟨time, value⟩ := v
        cases value with
        | string s =>
          have hsize_string : 8 + s.length < 2 ^ 63 := hsize _ hv
          exact ⟨s, rfl, by omega⟩
        | float64 _ | int64 _ | bool _ => cases htype _ hv)
    exact ⟨elems, helems, survives_string hZ hall⟩

/-- **Blocks of bools, strings and numbers are read back as they were.** The sizes
are those that an `int` can count. -/
theorem decodeBlock_encode (S : Simple8b) (hS : S.StreamRoundTrip) (Z : Snappy) (hZ : Z.RoundTrip)
    (ty : FieldType) (hty : ty ≠ .int64) (values : Values) (hne : values ≠ [])
    (htype : Values.OfType ty values)
    (hnan : ∀ v ∈ values, ∀ bits, v.value = .float64 bits → isNaN bits = false)
    (hlen : values.length < 2 ^ 63) (hsize : ∀ v ∈ values, v.size < 2 ^ 63) :
    ∃ block, encode S Z values = .ok block ∧
      (block.length < 2 ^ 63 → decodeBlock S Z block = .ok values) := by
  have hsurvives := survives_of_type (S := S) hZ htype (fun h => absurd h hty) hnan hlen hsize
  cases values with
  | nil => exact absurd rfl hne
  | cons v vs =>
    obtain rfl := htype v mem_cons_self
    obtain ⟨rest, hencode, hdecode⟩ := roundTrip_of_survives hS hsurvives hlen
    refine ⟨_, hencode, fun hblock => hdecode ?_⟩
    rw [length_append] at hblock
    omega

/-- Two bools. -/
theorem decodeBlock_encode_bools :
    ∃ block, encode Simple8b.plain Snappy.plain [⟨1000, .bool true⟩, ⟨2000, .bool false⟩] = .ok block ∧
      (block.length < 2 ^ 63 → decodeBlock Simple8b.plain Snappy.plain block =
        .ok [⟨1000, .bool true⟩, ⟨2000, .bool false⟩]) :=
  decodeBlock_encode Simple8b.plain Simple8b.plain_streamRoundTrip Snappy.plain Snappy.plain_roundTrip
    .bool (by decide) [⟨1000, .bool true⟩, ⟨2000, .bool false⟩] (by decide) (by decide)
    (forall_mem_cons.mpr ⟨nofun, forall_mem_singleton.mpr nofun⟩) (by decide)
    (forall_mem_cons.mpr ⟨by decide, forall_mem_singleton.mpr (by decide)⟩)

/-! ## The codec of the data files -/

/-- `Values.Encode` and `DecodeBlock` as the data files use them. -/
def fileCodec (S : Simple8b) (Z : Snappy) : BlockCodec where
  encodeBlock values := (encode S Z values).toOption
  decodeBlock block := (decodeBlock S Z block).toOption

/-- **The codec of the data files** on values of one type that survive. -/
theorem fileCodec_roundTrips (hS : S.StreamRoundTrip)
    (hne : values ≠ []) (htype : Values.OfType ty values) (hsurvives : Survives S Z ty values)
    (hlen : values.length < 2 ^ 63)
    (hblock : ((fileCodec S Z).bytes values).length < 2 ^ 63) : (fileCodec S Z).RoundTrips values := by
  cases values with
  | nil => exact absurd rfl hne
  | cons v vs =>
    obtain rfl := htype v mem_cons_self
    obtain ⟨rest, hencode, hdecode⟩ := roundTrip_of_survives hS hsurvives hlen
    have hbytes : (fileCodec S Z).bytes (v :: vs) =
        packBlockHeader v.time (column S Z v.type).blockType ++ rest := by
      simp [BlockCodec.bytes, fileCodec, hencode, Except.toOption]
    rw [hbytes, length_append] at hblock
    refine ⟨hne, ?_, ?_, ?_⟩
    · rw [hbytes]
      simp [fileCodec, hencode, Except.toOption]
    · rw [hbytes]
      simp [fileCodec, hdecode (by omega), Except.toOption]
    · rw [hbytes, packBlockHeader, append_assoc, uint64_putUint64_append, Int64.toInt64_toUInt64]
      rfl

end AndyEnv.Tsm1.Codec
