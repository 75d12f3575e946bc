import AndyEnv.Lib.Bytes
import AndyEnv.Lib.Except
import AndyEnv.Lib.Maps

/-!
# The field codec (`shard.go`)

The fields of a point are stored as one byte string: for each field its id and then its value,
in a form that depends on the type. A string is stored after its length, in sixteen bits.

A map that is ranged over is a list of its entries, in the order of the iteration. A float is the
word of its bits, and `Fault.panic` stands for every way to panic.
-/

namespace AndyEnv.Tsdb

open List AList Bytes Option

inductive DataType : Type
  | unknown | float | integer | boolean | string | time | duration
deriving DecidableEq, Repr

inductive FieldValue : Type
  | float (bits : UInt64)
  | int (v : Int64)
  | int32 (v : Int32)
  | int64 (v : Int64)
  | boolean (b : Bool)
  | string (s : Bytes)
  | time (t : ℤ)
  | duration (d : Int64)
  /-- Any other type. -/
  | other
deriving DecidableEq

namespace FieldValue

def inspectDataType : FieldValue → DataType
  | float _ => .float
  | int _ | int32 _ | int64 _ => .integer
  | boolean _ => .boolean
  | string _ => .string
  | time _ => .time
  | duration _ => .duration
  | other => .unknown

def maxStringLength : ℕ := 64 * 1024

/-- The value as it should be read back: integers have one size, and a string is cut. -/
def stored : FieldValue → FieldValue
  | int v => int64 v
  | int32 v => int64 v.toInt64
  | string s => string (s.take maxStringLength)
  | v => v

end FieldValue

structure Field : Type where
  id : UInt8
  name : String
  type : DataType
deriving DecidableEq, Repr

/-- The registered fields; their ids and their names are distinct. -/
structure FieldCodec : Type where
  fields : List Field
  ids : (fields.map Field.id).Nodup
  names : (fields.map Field.name).Nodup

inductive Fault : Type
  | panic
  | fieldTypeConflict
  | fieldUnmappedID
  | fieldNotFound
deriving DecidableEq, Repr

variable {s : Bytes}

/-! ## Encoding -/

namespace FieldCodec

def fieldByID (c : FieldCodec) (id : UInt8) : Option Field := c.fields.find? (fun f => f.id == id)

def fieldByName (c : FieldCodec) (name : String) : Option Field := c.fields.find? (fun f => f.name == name)

def encodeValue : DataType → FieldValue → Except Fault Bytes
  | .float, .float bits => .ok (putUint64 bits)
  | .integer, .int v => .ok (putUint64 v.toUInt64)
  | .integer, .int32 v => .ok (putUint64 v.toInt64.toUInt64)
  | .integer, .int64 v => .ok (putUint64 v.toUInt64)
  | .boolean, .boolean b => .ok [if b then 1 else 0]
  | .string, .string s =>
    let value := s.take FieldValue.maxStringLength
    .ok (putUint16 (UInt16.ofNat value.length) ++ value)
  | _, _ => .error .panic

def encodeFields (c : FieldCodec) : List (String × FieldValue) → Except Fault Bytes
  | [] => .ok []
  | (k, v) :: values =>
    match c.fieldByName k with
    | none => .error .panic
    | some field =>
      if v.inspectDataType ≠ field.type then .error .fieldTypeConflict
      else
        (encodeValue field.type v).bind (fun buf =>
          (c.encodeFields values).map (fun b => field.id :: buf ++ b))

/-! ## Decoding -/

/-- The value at the front of `b`, after its id, and the bytes that follow it. -/
def decodeValue (type : DataType) (b : Bytes) : Except Fault (FieldValue × Bytes) :=
  match type with
  | .float => if b.length < 8 then .error .panic else .ok (.float (uint64 b), b.drop 8)
  | .integer => if b.length < 8 then .error .panic else .ok (.int64 (uint64 b).toInt64, b.drop 8)
  | .boolean =>
    match b with
    | [] => .error .panic
    | x :: b => .ok (.boolean (x == 1), b)
  | .string =>
    if b.length < 2 then .error .panic
    else
      let size := uint16 b
      -- the end of the slice, counted from the id, is a 16 bit number
      let stop := (size + 3).toNat
      if stop < 3 ∨ b.length + 1 < stop then .error .panic
      else .ok (.string ((b.drop 2).take (stop - 3)), b.drop (stop - 1))
  | _ => .error .panic

def decodeLoop (c : FieldCodec) : ℕ → Bytes → AList (fun _ : UInt8 => FieldValue) →
    Except Fault (AList (fun _ : UInt8 => FieldValue))
  | _, [], values => .ok values
  | 0, _ :: _, _ => .error .panic
  | fuel + 1, id :: b, values =>
    match c.fieldByID id with
    | none => .error .fieldUnmappedID
    | some field => (decodeValue field.type b).bind (fun r => c.decodeLoop fuel r.2 (values.insert id r.1))

def decodeFields (c : FieldCodec) (b : Bytes) : Except Fault (AList (fun _ : UInt8 => FieldValue)) :=
  c.decodeLoop b.length b ∅

def decodeFieldsWithNames (c : FieldCodec) (b : Bytes) : Except Fault (AList (fun _ : String => FieldValue)) :=
  (c.decodeFields b).map (fun fields =>
    insertAll (fun e => (c.fieldByID e.1).map Field.name) (fun e => e.2) fields.entries ∅)

def findLoop (c : FieldCodec) (targetID : UInt8) : ℕ → Bytes → Except Fault FieldValue
  | _, [] => .error .fieldNotFound
  | 0, _ :: _ => .error .panic
  | fuel + 1, id :: b =>
    match c.fieldByID id with
    | none => .error .fieldUnmappedID
    | some field =>
      (decodeValue field.type b).bind (fun r =>
        if field.id = targetID then .ok r.1 else c.findLoop targetID fuel r.2)

def decodeByID (c : FieldCodec) (targetID : UInt8) (b : Bytes) : Except Fault FieldValue :=
  c.findLoop targetID b.length b

def decodeByName (c : FieldCodec) (name : String) (b : Bytes) : Except Fault FieldValue :=
  match c.fieldByName name with
  | none => .error .fieldNotFound
  | some field => c.decodeByID field.id b

/-! ## The fields of a codec -/

variable {c : FieldCodec} {f : Field}

theorem fieldByID_of_mem (hf : f ∈ c.fields) : c.fieldByID f.id = some f := find?_key_of_mem c.ids hf

theorem fieldByName_of_mem (hf : f ∈ c.fields) : c.fieldByName f.name = some f := find?_key_of_mem c.names hf

variable {g : Field} {v : FieldValue} {b : Bytes}

theorem eq_of_id (hf : f ∈ c.fields) (hg : g ∈ c.fields) (h : f.id = g.id) : f = g :=
  some.inj ((fieldByID_of_mem hf).symm.trans (h ▸ fieldByID_of_mem hg))

theorem eq_of_name (hf : f ∈ c.fields) (hg : g ∈ c.fields) (h : f.name = g.name) : f = g :=
  some.inj ((fieldByName_of_mem hf).symm.trans (h ▸ fieldByName_of_mem hg))

theorem mem_of_fieldByID {id : UInt8} (h : c.fieldByID id = some f) : f ∈ c.fields ∧ f.id = id :=
  ⟨mem_of_find?_eq_some h, eq_of_beq (List.find?_some (p := fun f : Field => f.id == id) h)⟩

/-! ## One value -/

/-- The value can be stored: the length of a string, and of the record that it is in, fits in sixteen bits. -/
def Storable : FieldValue → Prop
  | .string s => s.length + 3 < 2 ^ 16
  | .time _ | .duration _ | .other => False
  | _ => True

instance : DecidablePred Storable
  | .string s => inferInstanceAs (Decidable (s.length + 3 < 2 ^ 16))
  | .time _ | .duration _ | .other => inferInstanceAs (Decidable False)
  | .float _ | .int _ | .int32 _ | .int64 _ | .boolean _ => inferInstanceAs (Decidable True)

theorem decodeValue_float (w : UInt64) (rest : Bytes) :
    decodeValue .float (putUint64 w ++ rest) = .ok (.float w, rest) := by
  rw [decodeValue, if_neg (length_putUint64_append w rest), uint64_putUint64_append,
    drop_putUint64_append]

theorem decodeValue_integer (v : Int64) (rest : Bytes) :
    decodeValue .integer (putUint64 v.toUInt64 ++ rest) = .ok (.int64 v, rest) := by
  rw [decodeValue, if_neg (length_putUint64_append _ rest), uint64_putUint64_append,
    drop_putUint64_append, Int64.toInt64_toUInt64]

theorem decodeValue_string (hs : s.length + 3 < 2 ^ 16) (rest : Bytes) :
    decodeValue .string (putUint16 (UInt16.ofNat s.length) ++ s ++ rest) = .ok (.string s, rest) := by
  have hsize : (UInt16.ofNat s.length + 3).toNat = s.length + 3 := by
    rw [UInt16.toNat_add, UInt16.toNat_ofNat_of_lt' (Nat.lt_of_add_right_lt hs)]
    exact Nat.mod_eq_of_lt hs
  have hlen : (putUint16 (UInt16.ofNat s.length) ++ (s ++ rest)).length = 2 + (s.length + rest.length) := by
    rw [length_append, length_append, length_putUint16]
  have hdrop : (putUint16 (UInt16.ofNat s.length) ++ (s ++ rest)).drop 2 = s ++ rest :=
    drop_left' (length_putUint16 _)
  have hdrop' : (putUint16 (UInt16.ofNat s.length) ++ (s ++ rest)).drop (s.length + 3 - 1) = rest := by
    have hstop : s.length + 3 - 1 = 2 + s.length := by omega
    rw [hstop, ← drop_drop, hdrop, drop_left]
  rw [append_assoc, decodeValue, if_neg (by rw [hlen]; omega)]
  dsimp only
  rw [uint16_putUint16_append, hsize, if_neg (by rw [hlen]; omega), hdrop, hdrop', Nat.add_sub_cancel,
    take_left]

/-- **A value is read back** from what is encoded, and what follows it is left. -/
theorem decodeValue_encodeValue (hv : Storable v) :
    ∃ buf, encodeValue v.inspectDataType v = .ok buf ∧
      ∀ rest, decodeValue v.inspectDataType (buf ++ rest) = .ok (v.stored, rest) := by
  cases v with
  | float bits => exact ⟨_, rfl, decodeValue_float bits⟩
  | int32 v => exact ⟨_, rfl, decodeValue_integer v.toInt64⟩
  | int v | int64 v => exact ⟨_, rfl, decodeValue_integer v⟩
  | boolean b => exact ⟨_, rfl, fun rest => by cases b <;> rfl⟩
  | string s =>
    have hs : s.length + 3 < 2 ^ 16 := hv
    have htake : s.take FieldValue.maxStringLength = s :=
      take_of_length_le (by unfold FieldValue.maxStringLength; omega)
    refine ⟨_, rfl, fun rest => ?_⟩
    rw [FieldValue.stored, htake]
    exact decodeValue_string hs rest
  | time _ | duration _ | other => exact hv.elim

/-- A string that is read back is shorter than the number of its length allows. -/
theorem length_of_decodeValue {type : DataType} {rest : Bytes}
    (h : decodeValue type b = .ok (.string s, rest)) : s.length + 3 < 2 ^ 16 := by
  unfold decodeValue at h
  cases type with
  | string =>
    dsimp only at h
    split at h
    · exact (nomatch h)
    split at h
    · exact (nomatch h)
    obtain ⟨hs, -⟩ := Prod.mk.inj (Except.ok.inj h)
    have hlen := congrArg List.length (FieldValue.string.inj hs)
    have hlt := (uint16 b + 3).toNat_lt
    rw [List.length_take] at hlen
    omega
  | float | integer =>
    dsimp only at h
    split at h <;> exact (nomatch h)
  | boolean => cases b <;> exact (nomatch h)
  | unknown | time | duration => exact (nomatch h)

/-! ## All values of a point -/

/-- The bytes of the values can be walked: whatever the map holds, each value is stored under the id of
its field. -/
theorem exists_encodeFields : ∀ {values : List (String × FieldValue)},
    (∀ p ∈ values, ∃ f ∈ c.fields, f.name = p.1 ∧ f.type = p.2.inspectDataType) →
    (∀ p ∈ values, Storable p.2) →
    ∃ b, c.encodeFields values = .ok b ∧ (∀ fuel m, b.length ≤ fuel → c.decodeLoop fuel b m =
        .ok (insertAll (fun p => (c.fieldByName p.1).map Field.id) (fun p => p.2.stored) values m)) ∧
      ∀ fuel, b.length ≤ fuel → ∀ f ∈ c.fields, c.findLoop f.id fuel b =
        ((values.lookup f.name).elim (.error .fieldNotFound) (fun v => .ok v.stored))
  | [], _, _ => ⟨[], rfl, fun fuel m _ => by cases fuel <;> rfl, fun fuel _ f _ => by cases fuel <;> rfl⟩
  | (k, v) :: values, htyped, hstorable => by
    obtain ⟨f, hf, rfl, htype⟩ := htyped (k, v) mem_cons_self
    obtain ⟨b, hb, hloop, hfind⟩ := exists_encodeFields (forall_mem_cons.mp htyped).2
      (forall_mem_cons.mp hstorable).2
    obtain ⟨buf, hbuf, hdecode⟩ := decodeValue_encodeValue (hstorable (f.name, v) mem_cons_self)
    dsimp only at htype hbuf hdecode
    have hname := fieldByName_of_mem hf
    have hid := fieldByID_of_mem hf
    refine ⟨f.id :: (buf ++ b), ?_, ?_, ?_⟩
    · rw [encodeFields, hname]
      dsimp only
      rw [if_neg (not_not.mpr htype.symm), htype, hbuf, hb]
      rfl
    · rintro (_ | fuel) m hfuel
      · exact (nomatch hfuel)
      rw [decodeLoop, hid]
      dsimp only
      rw [htype, hdecode]
      refine (hloop fuel _ ?_).trans ?_
      · rw [length_cons, length_append] at hfuel
        omega
      · rw [insertAll, hname]
        rfl
    · rintro (_ | fuel) hfuel g hg
      · exact (nomatch hfuel)
      rw [findLoop, hid]
      dsimp only
      rw [htype, hdecode]
      show (if f.id = g.id then _ else _) = _
      by_cases heq : f = g
      · subst heq
        rw [if_pos rfl, lookup_cons_self]
        rfl
      have hname' : (g.name == f.name) = false := by
        rw [beq_eq_false_iff_ne]
        exact fun h => heq (eq_of_name hf hg h.symm)
      rw [if_neg (fun h => heq (eq_of_id hf hg h)), lookup_cons, hname']
      refine hfind fuel ?_ g hg
      rw [length_cons, length_append] at hfuel
      omega

/-- The values of a point: some of the fields, each with a value of its type. -/
def Typed (c : FieldCodec) (values : List (String × FieldValue)) : Prop :=
  (values.map Prod.fst).Nodup ∧ ∀ p ∈ values, ∃ f ∈ c.fields, f.name = p.1 ∧ f.type = p.2.inspectDataType

/-- **The values are read back as they should**, by all three decoders. -/
def RoundTrips (c : FieldCodec) (values : List (String × FieldValue)) : Prop :=
  ∃ b, c.encodeFields values = .ok b ∧ (∃ m, c.decodeFieldsWithNames b = .ok m ∧
      ∀ name, m.lookup name = (values.lookup name).map FieldValue.stored) ∧
    ∀ f ∈ c.fields,
      c.decodeByID f.id b = (values.lookup f.name).elim (.error .fieldNotFound) (fun v => .ok v.stored) ∧
      c.decodeByName f.name b = c.decodeByID f.id b

variable {values : List (String × FieldValue)}

theorem lookup_of_mem {name : String} : ∀ {values : List (String × FieldValue)},
    (values.map Prod.fst).Nodup → (name, v) ∈ values → values.lookup name = some v
  | (k, w) :: values, hnodup, h => by
    rw [map_cons, nodup_cons] at hnodup
    rcases mem_cons.mp h with h | hmem
    · obtain ⟨rfl, rfl⟩ := Prod.mk.inj h
      exact lookup_cons_self
    have hne : (name == k) = false := by
      rw [beq_eq_false_iff_ne]
      rintro rfl
      exact hnodup.1 (mem_map.mpr ⟨(name, v), hmem, rfl⟩)
    rw [lookup_cons, hne]
    exact lookup_of_mem hnodup.2 hmem

theorem lookup_ids (h : c.Typed values) (hf : f ∈ c.fields) :
    (insertAll (fun p => (c.fieldByName p.1).map Field.id) (fun p => p.2.stored) values ∅).lookup f.id =
      (values.lookup f.name).map FieldValue.stored := by
  have hkey : ∀ p ∈ values, (c.fieldByName p.1).map Field.id = some f.id → p.1 = f.name := by
    intro p hp hid
    obtain ⟨g, hg, hname, -⟩ := h.2 p hp
    rw [← hname, fieldByName_of_mem hg] at hid
    rw [← hname, eq_of_id hg hf (some.inj hid)]
  by_cases hmem : ∃ v, (f.name, v) ∈ values
  · obtain ⟨v, hv⟩ := hmem
    have hlookup := lookup_of_mem h.1 hv
    rw [hlookup]
    refine lookup_insertAll_of_mem hv (by rw [fieldByName_of_mem hf]; rfl) ?_
    rintro ⟨k, w⟩ hp hid
    obtain rfl : k = f.name := hkey _ hp hid
    rw [some.inj ((lookup_of_mem h.1 hp).symm.trans hlookup)]
  · have hnone : values.lookup f.name = none := by
      rw [lookup_eq_none_iff]
      rintro ⟨k, v⟩ hp
      rw [bne_iff_ne]
      rintro rfl
      exact hmem ⟨v, hp⟩
    rw [hnone]
    refine lookup_insertAll_of_forall_ne ?_
    rintro ⟨k, v⟩ hp hid
    obtain rfl : k = f.name := hkey _ hp hid
    exact hmem ⟨v, hp⟩

theorem lookup_names (h : c.Typed values) {m : AList (fun _ : UInt8 => FieldValue)}
    (hm : ∀ f ∈ c.fields, m.lookup f.id = (values.lookup f.name).map FieldValue.stored) (name : String) :
    (insertAll (fun e : Sigma (fun _ : UInt8 => FieldValue) => (c.fieldByID e.1).map Field.name) (fun e => e.2)
      m.entries ∅).lookup name = (values.lookup name).map FieldValue.stored := by
  have hentry : ∀ e ∈ m.entries, (c.fieldByID e.1).map Field.name = some name →
      ∃ f ∈ c.fields, f.name = name ∧ f.id = e.1 ∧ m.lookup f.id = some e.2 := by
    intro e he hname
    obtain ⟨f, hf, rfl⟩ := map_eq_some_iff.mp hname
    obtain ⟨hf, hid⟩ := mem_of_fieldByID hf
    refine ⟨f, hf, rfl, hid, ?_⟩
    rw [hid]
    exact mem_lookup_iff.mpr he
  cases hlookup : values.lookup name with
  | none =>
    refine lookup_insertAll_of_forall_ne ?_
    intro e he hname
    obtain ⟨f, hf, rfl, hid, hvalue⟩ := hentry e he hname
    rw [hm f hf, hlookup] at hvalue
    exact (nomatch hvalue)
  | some v =>
    obtain ⟨f, hf, rfl⟩ : ∃ f ∈ c.fields, f.name = name := by
      obtain ⟨pre, post, hvalues, -⟩ := lookup_eq_some_iff.mp hlookup
      obtain ⟨f, hf, hname, -⟩ := h.2 (name, v) (by rw [hvalues]; exact mem_append_right _ mem_cons_self)
      exact ⟨f, hf, hname⟩
    have hid : m.lookup f.id = some v.stored := by
      rw [hm f hf, hlookup]
      rfl
    have he := mem_lookup_iff.mp hid
    refine lookup_insertAll_of_mem he (by rw [fieldByID_of_mem hf]; rfl) ?_
    intro e he' hname
    obtain ⟨g, hg, hname', hid', hvalue⟩ := hentry e he' hname
    obtain rfl := eq_of_name hg hf hname'
    rcases e with ⟨id, w⟩
    obtain rfl : g.id = id := hid'
    rw [some.inj (hid.symm.trans hvalue)]

theorem roundTrips_of_storable (h : c.Typed values) (hstorable : ∀ p ∈ values, Storable p.2) :
    c.RoundTrips values := by
  obtain ⟨b, hb, hloop, hfind⟩ := exists_encodeFields h.2 hstorable
  refine ⟨b, hb, ⟨_, ?_, lookup_names h (fun f hf => lookup_ids h hf)⟩, ?_⟩
  · rw [decodeFieldsWithNames, decodeFields, hloop b.length ∅ le_rfl]
    rfl
  · intro f hf
    refine ⟨hfind b.length le_rfl f hf, ?_⟩
    rw [decodeByName, fieldByName_of_mem hf]

/-! ## What cannot be stored -/

def Short {κ : Type} [DecidableEq κ] (m : AList (fun _ : κ => FieldValue)) : Prop :=
  ∀ k s, m.lookup k = some (.string s) → s.length + 3 < 2 ^ 16

theorem short_of_decodeLoop : ∀ {fuel : ℕ} {b : Bytes} {m m' : AList (fun _ : UInt8 => FieldValue)}, Short m →
    c.decodeLoop fuel b m = .ok m' → Short m'
  | 0, [], m, m', hm, h => Except.ok.inj h ▸ hm
  | _ + 1, [], m, m', hm, h => Except.ok.inj h ▸ hm
  | 0, _ :: _, _, _, _, h => (nomatch h)
  | fuel + 1, id :: b, m, m', hm, h => by
    rw [decodeLoop] at h
    cases hfield : c.fieldByID id with
    | none =>
      rw [hfield] at h
      exact (nomatch h)
    | some field =>
      rw [hfield] at h
      obtain ⟨⟨v, rest⟩, hvalue, h⟩ := except_bind_eq_ok.mp h
      refine short_of_decodeLoop ?_ h
      intro k s hs
      by_cases hk : k = id
      · subst hk
        rw [lookup_insert] at hs
        obtain rfl : v = .string s := some.inj hs
        exact length_of_decodeValue hvalue
      · rw [lookup_insert_ne hk] at hs
        exact hm k s hs

theorem short_of_decodeFieldsWithNames {m : AList (fun _ : String => FieldValue)}
    (h : c.decodeFieldsWithNames b = .ok m) : Short m := by
  obtain ⟨fields, hfields, rfl⟩ := except_map_eq_ok.mp h
  have hshort : Short fields := short_of_decodeLoop (m := ∅) (fun k s hs => (nomatch (lookup_empty k).symm.trans hs)) hfields
  intro k s hs
  rcases exists_of_lookup_insertAll hs with hs | ⟨⟨id, v⟩, he, rfl⟩
  · exact (nomatch (lookup_empty k).symm.trans hs)
  · exact hshort id s (mem_lookup_iff.mpr he)

theorem encodeValue_of_encodeFields : ∀ {values : List (String × FieldValue)} {b : Bytes},
    c.encodeFields values = .ok b → ∀ p ∈ values, ∃ buf, encodeValue p.2.inspectDataType p.2 = .ok buf
  | (k, v) :: values, b, h, p, hp => by
    rw [encodeFields] at h
    cases hfield : c.fieldByName k with
    | none =>
      rw [hfield] at h
      exact (nomatch h)
    | some field =>
      rw [hfield] at h
      dsimp only at h
      split at h
      · exact (nomatch h)
      rename_i htype
      obtain ⟨buf, hbuf, h⟩ := except_bind_eq_ok.mp h
      obtain ⟨b', hb, -⟩ := except_map_eq_ok.mp h
      rcases mem_cons.mp hp with rfl | hp
      · exact ⟨buf, (not_not.mp htype) ▸ hbuf⟩
      · exact encodeValue_of_encodeFields hb p hp

theorem storable_of_roundTrips (hnodup : (values.map Prod.fst).Nodup) (h : c.RoundTrips values) :
    ∀ p ∈ values, Storable p.2 := by
  rintro ⟨k, v⟩ hp
  obtain ⟨b, hb, ⟨m, hm, hlookup⟩, -⟩ := h
  obtain ⟨buf, hbuf⟩ := encodeValue_of_encodeFields hb _ hp
  cases v with
  | string s =>
    have hs := hlookup k
    rw [lookup_of_mem hnodup hp] at hs
    have := short_of_decodeFieldsWithNames hm k _ hs
    rw [List.length_take] at this
    unfold FieldValue.maxStringLength at this
    show s.length + 3 < 2 ^ 16
    omega
  | time _ | duration _ | other => exact (nomatch hbuf)
  | float _ | int _ | int32 _ | int64 _ | boolean _ => trivial

/-- **The values of a point are read back if and only if** no string of them is longer than `65532` bytes
(and none is of a type that cannot be encoded). -/
theorem roundTrips_iff_storable (c : FieldCodec) (values : List (String × FieldValue)) (h : c.Typed values) :
    c.RoundTrips values ↔ ∀ p ∈ values, Storable p.2 :=
  ⟨storable_of_roundTrips h.1, roundTrips_of_storable h⟩

def hostCodec : FieldCodec := ⟨[⟨1, "host", .string⟩], by decide, by decide⟩

theorem roundTrips_host : hostCodec.RoundTrips [("host", .string [97, 98])] :=
  (roundTrips_iff_storable hostCodec [("host", .string [97, 98])]
    ⟨by decide, by decide⟩).mpr (by decide)

/-- The end of a string that is a little too long is a small number. -/
theorem decodeValue_long (hs : s.length = 65533) (rest : Bytes) :
    decodeValue .string (putUint16 (UInt16.ofNat s.length) ++ rest) = .error .panic := by
  have hlen : ¬(putUint16 (UInt16.ofNat s.length) ++ rest).length < 2 := by
    rw [length_append, length_putUint16]
    omega
  rw [decodeValue, if_neg hlen]
  dsimp only
  rw [uint16_putUint16_append, hs, if_pos (.inl (by decide))]

theorem encodeFields_host (s : Bytes) (hs : s.length ≤ FieldValue.maxStringLength) :
    hostCodec.encodeFields [("host", .string s)] = .ok (1 :: (putUint16 (UInt16.ofNat s.length) ++ s)) := by
  have htake : s.take FieldValue.maxStringLength = s := take_of_length_le hs
  have hfield : hostCodec.fieldByName "host" = some ⟨1, "host", .string⟩ := by
    decide
  rw [encodeFields, hfield]
  dsimp only
  have htype : ¬(FieldValue.string s).inspectDataType ≠ DataType.string := fun h => h rfl
  rw [if_neg htype, encodeValue, htake]
  show Except.ok (1 :: (putUint16 (UInt16.ofNat s.length) ++ s) ++ []) = _
  rw [append_nil]

/-- A string of `65533` bytes is within the maximum, and encoded; the decoder computes the end of it to be
`0`, and panics. -/
theorem decodeFields_panics : hostCodec.Typed [("host", .string (List.replicate 65533 97))] ∧
      (hostCodec.encodeFields [("host", .string (List.replicate 65533 97))]).bind
        hostCodec.decodeFieldsWithNames = .error .panic := by
  have hlong : ∀ s : Bytes, s.length = 65533 → hostCodec.Typed [("host", .string s)] ∧
      (hostCodec.encodeFields [("host", .string s)]).bind hostCodec.decodeFieldsWithNames = .error .panic := by
    intro s hs
    refine ⟨⟨nodup_singleton _, ?_⟩, ?_⟩
    · intro p hp
      obtain rfl := mem_singleton.mp hp
      exact ⟨_, mem_cons_self, rfl, rfl⟩
    · rw [encodeFields_host s (by rw [hs]; decide)]
      have hfield : hostCodec.fieldByID 1 = some ⟨1, "host", .string⟩ := by
        decide
      show hostCodec.decodeFieldsWithNames _ = _
      rw [decodeFieldsWithNames, decodeFields, length_cons, decodeLoop, hfield]
      dsimp only
      rw [decodeValue_long hs]
      rfl
  exact hlong _ length_replicate

end FieldCodec

end AndyEnv.Tsdb
