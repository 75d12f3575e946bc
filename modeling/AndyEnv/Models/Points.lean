import AndyEnv.Models.Scan

/-!
# Points and their text

`parsePoints` cuts a buffer into lines and reads each as a point, `Point.string`
writes a point as a line, and `Point.decodedFields` decodes the fields.

A time is its number of nanoseconds. The zero time, which `String` leaves out,
is outside of that range.
-/

namespace AndyEnv.Models

open Strconv

open Escape (backslash)

structure Point : Type where
  /-- The text of the measurement and the tags. -/
  key : Bytes
  /-- The text of the fields. -/
  fields : Bytes
  time : Int64
deriving DecidableEq, Repr

section

variable (parseFloat : Bytes → Option UInt64)

/-- The time of a point: the default, if the line has none. -/
def parseTime (defaultTime : Int64) (ts : Bytes) : Except ParseError Int64 :=
  if ts = [] then .ok defaultTime
  else
    match parseInt ts with
    | none => .error (.parseTimestamp ts)
    | some t => .ok t

def parsePoint (defaultTime : Int64) (buf : Bytes) : Except ParseError Point := do
  let (key, before, rest) ← scanKey buf
  if key = [] then throw .missingMeasurement
  let (fields, rest) ← scanFields parseFloat before rest
  if fields = [] then throw .missingFields
  let ts ← scanTime rest
  let time ← parseTime defaultTime ts
  return ⟨key, fields, time⟩

/-- The line of a block: without the whitespace at its start, and the newline at
its end. -/
def lineOf (block : Bytes) : Bytes :=
  let line := skipWhitespace block
  if block.getLast? = some newline then line.dropLast else line

/-- A block without a point: only whitespace, or a comment. -/
def isSkipped (block : Bytes) : Bool :=
  (skipWhitespace block).isEmpty || (skipWhitespace block).head? == some hash

/-- The loop of `ParsePointsWithPrecision`: the points, and the lines that failed. -/
def parsePointsLoop (defaultTime : Int64) : ℕ → Bytes → Bytes →
    List Point × List (Bytes × ParseError)
  | 0, _, _ => ([], [])
  | fuel + 1, before, rest =>
    let (block, rest) := scanLine before rest
    if block = [] then ([], [])
    else
      let next := parsePointsLoop defaultTime fuel (newline :: block.reverse ++ before) (rest.drop 1)
      if isSkipped block then next
      else
        let next := if rest.length ≤ 1 then ([], []) else next
        match parsePoint parseFloat defaultTime (lineOf block) with
        | .error e => (next.1, (lineOf block, e) :: next.2)
        | .ok pt => (pt :: next.1, next.2)

def parsePoints (now : Int64) (buf : Bytes) : List Point × List (Bytes × ParseError) :=
  parsePointsLoop parseFloat now (buf.length + 1) [] buf

end

namespace Point

def string (p : Point) : Bytes := p.key ++ space :: p.fields ++ space :: formatInt p.time

end Point

/-- Lines joined by newlines, as `WritePoints` of the log joins them. -/
def joinLines : List Bytes → Bytes
  | [] => []
  | [line] => line
  | line :: lines => line ++ newline :: joinLines lines

/-! ## Fields -/

inductive FieldValue : Type
  | nil
  | string (b : Bytes)
  | integer (v : Int64)
  | float (bits : UInt64)
  | bool (b : Bool)
deriving DecidableEq, Repr

def unescape : Bytes → Bytes
  | [] => []
  | [c] => [c]
  | c :: d :: rest =>
    if c = backslash ∧ isFieldEscapeChar d then d :: unescape rest else c :: unescape (d :: rest)

def unescapeStringField : Bytes → Bytes
  | [] => []
  | [c] => [c]
  | c :: d :: rest =>
    if c = backslash ∧ (d = backslash ∨ d = quote) then d :: unescapeStringField rest
    else c :: unescapeStringField (d :: rest)

def scanFieldValue (quoted skip : Bool) : Bytes → Bytes × Bytes
  | [] => ([], [])
  | c :: rest =>
    if skip then
      let p := scanFieldValue quoted false rest
      (c :: p.1, p.2)
    else if c == backslash && rest.head? == some quote then
      let p := scanFieldValue quoted true rest
      (c :: p.1, p.2)
    else if c == quote then
      let p := scanFieldValue (!quoted) false rest
      (c :: p.1, p.2)
    else if c == comma && !quoted then ([], c :: rest)
    else
      let p := scanFieldValue quoted false rest
      (c :: p.1, p.2)

def parseBool (b : Bytes) : Option Bool :=
  if b ∈ [[49], [116], [84], [84, 82, 85, 69], [116, 114, 117, 101], [84, 114, 117, 101]] then some true
  else if b ∈ [[48], [102], [70], [70, 65, 76, 83, 69], [102, 97, 108, 115, 101],
      [70, 97, 108, 115, 101]] then some false
  else none

section

variable (parseFloat : Bytes → Option UInt64)

/-- `parseNumber`; an error makes `Fields` panic. -/
def parseNumber (val : Bytes) : Option FieldValue :=
  if val.getLast? = some 105 then (parseInt val.dropLast).map .integer
  else (parseFloat val).map .float

/-- The first byte of a number, or of `NaN` or `Inf`. -/
def decodesNumber (c : UInt8) : Bool :=
  isNumeric c || c == minus || c == plus || c == 78 || c == 110 || c == 73 || c == 105

def decodeValue : Bytes → Option FieldValue
  | [] => some .nil
  | c :: rest =>
    if c = quote then
      if rest = [] then none else some (.string (unescapeStringField rest.dropLast))
    else if decodesNumber c then parseNumber parseFloat (c :: rest)
    else (parseBool (c :: rest)).map .bool

/-- The loop of `newFieldsFromBinary`, the last field first. Nothing, if it panics
or does not end: a field without a name is scanned again and again. -/
def newFieldsFromBinaryLoop : ℕ → List (Bytes × FieldValue) → Bytes → Option (List (Bytes × FieldValue))
  | 0, _, _ => none
  | _, fields, [] => some fields
  | fuel + 1, fields, buf =>
    let (name, rest) := scanTo equal buf
    if name = [] then none
    else
      let (valueBuf, rest) := scanFieldValue false false (rest.drop 1)
      (decodeValue parseFloat valueBuf).bind (fun value =>
        newFieldsFromBinaryLoop fuel ((unescape name, value) :: fields)
          (if valueBuf = [] then rest else rest.drop 1))

/-- `Fields`: the value of a name. A later field overwrites an earlier one. -/
def Point.decodedFields (p : Point) : Option (Bytes → Option FieldValue) :=
  (newFieldsFromBinaryLoop parseFloat (p.fields.length + 1) [] p.fields).map
    (fun fields name => fields.lookup name)

end

end AndyEnv.Models
