import AndyEnv.Lib.Escape
import AndyEnv.Lib.Except
import AndyEnv.Lib.Strconv

/-!
# The scanners of the line protocol

A position in a buffer is given by the bytes before it, the last one first, and
the bytes after it. A jump over some bytes is a number of bytes to skip. The
parser of floating point numbers is a parameter.
-/

namespace AndyEnv.Models

open Strconv

def comma : UInt8 := 44

def space : UInt8 := 32

def equal : UInt8 := 61

def quote : UInt8 := 34

def newline : UInt8 := 10

def hash : UInt8 := 35

open Escape (backslash)

inductive ParseError : Type
  | missingMeasurement
  | missingTagKey
  | missingTagValue
  | invalidTagFormat
  | duplicateTags
  | missingFields
  | missingFieldKey
  | missingFieldValue
  | unbalancedQuotes
  | invalidFieldFormat
  | invalidNumber
  | invalidFloat
  | invalidBoolean
  | badTimestamp
  /-- With the error of `strconv.ParseInt`. -/
  | unableToParseInteger (text : Bytes)
  /-- The error of `strconv.ParseInt` for a timestamp. -/
  | parseTimestamp (text : Bytes)
deriving DecidableEq, Repr

def isWhitespace (c : UInt8) : Bool := c == space || c == 9 || c == 0

def skipWhitespace (buf : Bytes) : Bytes := buf.dropWhile isWhitespace

def scanTo (stop : UInt8) (buf : Bytes) : Bytes × Bytes := Escape.scan (· == stop) false buf

def scanToSpaceOr (stop : UInt8) (buf : Bytes) : Bytes × Bytes :=
  Escape.scan (fun c => c == stop || c == space) false buf

/-! ## Lines -/

/-- The loop of `scanLine`. A quote counts after the first space, if no backslash
stands before it. -/
def scanLineLoop (quoted fields : Bool) (before : Bytes) : Bytes → Bytes × Bytes
  | [] => ([], [])
  | c :: rest =>
    let fields := fields || c == space
    if fields && c == quote && (decide (before.length > 1) && before.head? != some backslash) then
      let p := scanLineLoop (!quoted) fields (c :: before) rest
      (c :: p.1, p.2)
    else if c == newline && !quoted then ([], c :: rest)
    else
      let p := scanLineLoop quoted fields (c :: before) rest
      (c :: p.1, p.2)

def scanLine (before rest : Bytes) : Bytes × Bytes := scanLineLoop false false before rest

/-! ## The key -/

structure KeyScan : Type where
  commas : ℕ
  equals : ℕ
  /-- Where the tags start, and at last where the fields do. -/
  indices : List ℕ
deriving DecidableEq, Repr

/-- The bytes before an equals sign miss a name: `buf[i-1]` is a separator, and
`buf[i-2]` is no backslash. -/
def missesName (before : Bytes) : Bool :=
  (before.head? == some comma || before.head? == some space) &&
    before.tail.head? != some backslash

def scanKeyLoop (k : KeyScan) (skip : Bool) (before : Bytes) :
    Bytes → Except ParseError (KeyScan × Bytes × Bytes)
  | [] =>
    if k.equals = 0 ∧ k.commas > 0 then .error .missingTagValue
    else if k.equals > 0 ∧ k.commas ≠ k.equals then .error .invalidTagFormat
    else .error .missingFields
  | c :: rest =>
    if skip then scanKeyLoop k false (c :: before) rest
    else if c = equal ∧ k.commas > 0 then
      if before.length < 2 ∨ missesName before then .error .missingTagKey
      else if rest.head? = some space ∨ rest.head? = some comma then .error .missingTagValue
      else scanKeyLoop { k with equals := k.equals + 1 } false (c :: before) rest
    else if c = backslash then scanKeyLoop k true (c :: before) rest
    else if c = comma then
      if k.equals = 0 ∧ k.commas > 0 then .error .missingTagValue
      else if rest.head? = some space then .error .missingTagKey
      else scanKeyLoop { k with
          commas := k.commas + 1
          indices := k.indices ++ [before.length + 1] } false (c :: before) rest
    else if c = space then
      if k.equals = 0 ∧ k.commas > 0 then .error .missingTagValue
      else if k.equals > 0 ∧ k.commas ≠ k.equals then .error .missingTagValue
      else .ok ({ k with indices := k.indices ++ [before.length + 1] }, before, c :: rest)
    else scanKeyLoop k false (c :: before) rest

/-- `buf[i:j]`. -/
def slice (buf : Bytes) (i j : ℕ) : Bytes := (buf.take j).drop i

def tagName (buf : Bytes) (indices : List ℕ) (j : ℕ) : Bytes :=
  (scanTo equal (slice buf (indices.getD j 0) (indices.getD (j + 1) 0 - 1))).1

/-- One comparison of the first and the last tags: equal names are an error, and a
greater name on the left means that the tags are not sorted. -/
def comparePair (buf : Bytes) (k : KeyScan) (sorted : Bool) (j : ℕ) : Except ParseError Bool :=
  let left := tagName buf k.indices j
  let right := tagName buf k.indices (k.commas - j - 1)
  if left = right then .error .duplicateTags
  else .ok (sorted && Bytes.le left right)

/-- `less`: the names are scanned in the whole buffer. -/
def less (buf : Bytes) (i j : ℕ) : Bool :=
  !Bytes.le (scanTo equal (buf.drop j)).1 (scanTo equal (buf.drop i)).1

/-- `insertionSort`: each index moves to the left while it is less. -/
def insertionSort (buf : Bytes) (indices : List ℕ) : List ℕ :=
  (indices.foldl (fun sorted i => sorted.orderedInsert (fun x y => !less buf x y) i) []).reverse

/-- The key with its tags in the order of the indices. -/
def rebuildKey (buf : Bytes) (start : ℕ) (indices sorted : List ℕ) : Bytes :=
  slice buf start (indices.getD 0 0 - 1) ++
    sorted.flatMap (fun i => comma :: (scanToSpaceOr comma (buf.drop i)).1)

/-- `scanKey` at the start of a buffer: the key, with its tags sorted, the bytes
before the end of the scan, and those after it. -/
def scanKey (buf : Bytes) : Except ParseError (Bytes × Bytes × Bytes) := do
  let before := (buf.takeWhile isWhitespace).reverse
  let start := before.length
  let (k, before, rest) ← scanKeyLoop ⟨0, 0, []⟩ false before (skipWhitespace buf)
  let sorted ← (List.range (k.commas / 2)).foldlM (comparePair buf k) true
  if !sorted && decide (k.commas > 0) then
    return (rebuildKey buf start k.indices (insertionSort buf (k.indices.take k.commas)), before, rest)
  return (slice buf start before.length, before, rest)

/-! ## Numbers and booleans -/

def endsValue (c : UInt8) : Bool := c == comma || c == space

def isNumeric (c : UInt8) : Bool := isDigit c || c == 46

def isExponent (c : UInt8) : Bool := c == 101 || c == 69

structure NumberScan : Type where
  isInt : Bool
  decimals : ℕ
  scientific : Bool
deriving DecidableEq, Repr

/-- The loop of `scanNumber`; `text` is what was scanned, the last byte first. -/
def scanNumberLoop (s : NumberScan) (text : Bytes) : Bytes → Except ParseError (NumberScan × Bytes)
  | [] => .ok (s, text)
  | c :: rest =>
    if endsValue c then .ok (s, text)
    else if c == 105 && !text.isEmpty && !s.isInt then
      scanNumberLoop { s with isInt := true } (c :: text) rest
    else
      let s := if c == 46 then { s with decimals := s.decimals + 1 } else s
      if s.decimals > 1 then .error .invalidNumber
      else if !text.isEmpty && isExponent c then
        scanNumberLoop { s with scientific := true } (c :: text) rest
      else if (c == plus || c == minus) && text.head?.any isExponent then
        scanNumberLoop s (c :: text) rest
      else if decide (rest.length ≥ 2) && (c == 78 || c == 110) then .error .invalidNumber
      else if !isNumeric c then .error .invalidNumber
      else scanNumberLoop s (c :: text) rest

def maxInt64Digits : ℕ := 19

def minInt64Digits : ℕ := 20

def maxFloat64Digits : ℕ := 25

def minFloat64Digits : ℕ := 27

variable (parseFloat : Bytes → Option UInt64)

def checkNumber (s : NumberScan) (text : Bytes) : Except ParseError Bytes :=
  if s.isInt ∧ (s.decimals > 0 ∨ s.scientific) then .error .invalidNumber
  else if s.isInt then
    -- the last byte must be the i
    if text.getLast? ≠ some 105 then .error .invalidNumber
    else if (text.dropLast.length ≥ maxInt64Digits ∨ text.dropLast.length ≥ minInt64Digits) ∧
        parseInt text.dropLast = none then
      .error (.unableToParseInteger text.dropLast)
    else .ok text
  else if (s.scientific ∨ text.length ≥ maxFloat64Digits ∨ text.length ≥ minFloat64Digits) ∧
      parseFloat text = none then .error .invalidFloat
  else .ok text

def scanNumber (buf : Bytes) : Except ParseError Bytes := do
  if buf = [minus] then throw .invalidNumber
  let (s, text) ←
    if buf.head? = some minus then scanNumberLoop ⟨false, 0, false⟩ [minus] buf.tail
    else scanNumberLoop ⟨false, 0, false⟩ [] buf
  checkNumber parseFloat s text.reverse

def isTrueByte (c : UInt8) : Bool := c == 116 || c == 84

def isFalseByte (c : UInt8) : Bool := c == 102 || c == 70

/-- `t`, `T`, `true`, `TRUE`, `True` and `f`, `F`, `false`, `FALSE`, `False`. -/
def checkBoolean (text : Bytes) : Except ParseError Bytes :=
  if !(text.head?.any (fun c => isTrueByte c || isFalseByte c)) then .error .invalidBoolean
  else if text.length = 1 then .ok text
  else if text.head?.any isTrueByte ∧ text.length ≠ 4 then .error .invalidBoolean
  else if text.head?.any isFalseByte ∧ text.length ≠ 5 then .error .invalidBoolean
  else if text ∈ [[116, 114, 117, 101], [102, 97, 108, 115, 101], [84, 82, 85, 69],
      [84, 114, 117, 101], [70, 65, 76, 83, 69], [70, 97, 108, 115, 101]] then .ok text
  else .error .invalidBoolean

def scanBoolean : Bytes → Except ParseError Bytes
  | [] => .ok []
  | c :: rest => checkBoolean (c :: rest.takeWhile (!endsValue ·))

/-! ## Fields -/

/-- The keys of `escape.Codes`. -/
def isFieldEscapeChar (c : UInt8) : Bool := c == comma || c == quote || c == space || c == equal

structure FieldScan : Type where
  quoted : Bool
  equals : ℕ
  commas : ℕ
deriving DecidableEq, Repr

def escapes (quoted : Bool) (c : UInt8) : Bool :=
  if quoted then c == quote || c == backslash else isFieldEscapeChar c

def startsNumber (c : UInt8) : Bool :=
  isNumeric c || c == minus || c == 78 || c == 110

/-- The value after an equals sign, if it is a number or a boolean: its text is
skipped. Nothing is skipped of a string. -/
def scanValue : Bytes → Except ParseError Bytes
  | [] => .error .missingFieldValue
  | c :: rest =>
    if endsValue c then .error .missingFieldValue
    else if startsNumber c then scanNumber parseFloat (c :: rest)
    else if c ≠ quote then scanBoolean (c :: rest)
    else .ok []

def checkFields (f : FieldScan) (before rest : Bytes) : Except ParseError (Bytes × Bytes) :=
  if f.quoted then .error .unbalancedQuotes
  else if f.equals = 0 ∨ f.commas + 1 ≠ f.equals then .error .invalidFieldFormat
  else .ok (before, rest)

def scanFieldsLoop (f : FieldScan) (skip : ℕ) (before : Bytes) :
    Bytes → Except ParseError (Bytes × Bytes)
  | [] => checkFields f before []
  | c :: rest =>
    match skip with
    | skip + 1 => scanFieldsLoop f skip (c :: before) rest
    | 0 =>
      if c == backslash && rest.head?.any (escapes f.quoted) then
        scanFieldsLoop f 1 (c :: before) rest
      else if c == quote then scanFieldsLoop { f with quoted := !f.quoted } 0 (c :: before) rest
      else if c == equal && !f.quoted then
        if missesName before then .error .missingFieldKey
        else
          match scanValue parseFloat rest with
          | .error e => .error e
          | .ok text =>
            scanFieldsLoop { f with equals := f.equals + 1 } text.length (c :: before) rest
      else if c == comma && !f.quoted then
        scanFieldsLoop { f with commas := f.commas + 1 } 0 (c :: before) rest
      else if c == space && !f.quoted then checkFields f before (c :: rest)
      else scanFieldsLoop f 0 (c :: before) rest

def scanFields (before rest : Bytes) : Except ParseError (Bytes × Bytes) := do
  let before := (rest.takeWhile isWhitespace).reverse ++ before
  let (stop, rest) ← scanFieldsLoop parseFloat ⟨false, 0, 0⟩ 0 before (skipWhitespace rest)
  return ((stop.take (stop.length - before.length)).reverse, rest)

/-! ## The time -/

def scanTime (rest : Bytes) : Except ParseError Bytes :=
  let ts := skipWhitespace rest
  let digits := if ts.head? = some minus then ts.tail else ts
  if digits.all isDigit then .ok ts else .error .badTimestamp

end AndyEnv.Models
