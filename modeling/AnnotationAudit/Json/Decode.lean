import AnnotationAudit.Mismatch
import AnnotationAudit.Text.Cursor

/-!
# Reading JSON

A `Decoder` reads one value of a known shape from the front of a text, without building the value's
tree first: the shape is checked as the text is read, so whichever fault stands first is reported,
be it one of the text or one of the shape.

* `Cause`            what can be wrong: the text breaks off, its grammar is broken, or a value does
                     not have the shape that is asked for;
* `Fault`            a cause and where it is reported. A fault of shape gets its place when the
                     value around it has been left;
* `natural`, `boolean`, `string`, `optional`, `list`, `variant`   the decoders of the shapes;
* `skipValue`        steps over a value of any shape.

A fault is reported with the line and the byte column of the last byte that was looked at.
-/

namespace AnnotationAudit
namespace Json

open Text (Cursor)

/-! ## faults -/

/-- the three classes of causes -/
inductive Category where
  /-- the text breaks off -/
  | eof
  /-- the grammar is broken -/
  | syntaxError
  /-- a value has the wrong shape -/
  | data
deriving DecidableEq, Repr, Inhabited

inductive Cause where
  | eofList
  | eofObject
  | eofString
  | eofValue
  | expectedColon
  | expectedListEnd
  | expectedObjectEnd
  | expectedIdent
  | expectedValue
  | invalidEscape
  | invalidNumber
  | numberOutOfRange
  | controlCharacter
  | keyNotString
  | loneSurrogate
  | trailingComma
  | trailingCharacters
  | unexpectedEndOfEscape
  | shape (m : Mismatch)
deriving DecidableEq, Repr, Inhabited

namespace Cause

def category : Cause → Category
  | .eofList | .eofObject | .eofString | .eofValue => .eof
  | .shape _ => .data
  | _ => .syntaxError

def message : Cause → String
  | .eofList => "EOF while parsing a list"
  | .eofObject => "EOF while parsing an object"
  | .eofString => "EOF while parsing a string"
  | .eofValue => "EOF while parsing a value"
  | .expectedColon => "expected `:`"
  | .expectedListEnd => "expected `,` or `]`"
  | .expectedObjectEnd => "expected `,` or `\x7d`"
  | .expectedIdent => "expected ident"
  | .expectedValue => "expected value"
  | .invalidEscape => "invalid escape"
  | .invalidNumber => "invalid number"
  | .numberOutOfRange => "number out of range"
  | .controlCharacter =>
    "control character (\\u0000-\\u001F) found while parsing a string"
  | .keyNotString => "key must be a string"
  | .loneSurrogate => "lone leading surrogate in hex escape"
  | .trailingComma => "trailing comma"
  | .trailingCharacters => "trailing characters"
  | .unexpectedEndOfEscape => "unexpected end of hex escape"
  | .shape m => m.message

end Cause

/-- a cause and the byte offset at which it is reported -/
structure Fault where
  cause : Cause
  /-- nothing until the value around a fault of shape has been left -/
  offset : Option Nat
deriving Repr, Inhabited

/-- reads from the front of a text; the cursor is kept also behind a fault -/
abbrev Decoder := EStateM Fault Cursor

namespace Decode

/-! ## steps -/

def faultHere (cause : Cause) : Decoder α := fun c => .error ⟨cause, some c.offset⟩ c

/-- a fault at the byte that comes next, if the text has not ended -/
def faultNext (cause : Cause) : Decoder α := fun c =>
  .error ⟨cause, some (if c.atEnd then c.offset else c.offset + 1)⟩ c

/-- a fault of shape, without a place yet -/
def mismatch (m : Mismatch) : Decoder α := fun c => .error ⟨.shape m, none⟩ c

/-- gives a fault of shape its place: the cursor -/
def settle (d : Decoder α) : Decoder α := fun c =>
  match d c with
  | .ok a c' => .ok a c'
  | .error ⟨cause, none⟩ c' => .error ⟨cause, some c'.offset⟩ c'
  | .error f c' => .error f c'

def peek : Decoder (Option Char) := fun c => .ok c.peek c

def advance : Decoder Unit := fun c => .ok () c.next

def isSpace (c : Char) : Bool := c == ' ' || c == '\n' || c == '\t' || c == '\r'

/-- the cursor behind leading blanks -/
def pastSpace (p : Text.Position) : List Char → Cursor
  | [] => ⟨p, []⟩
  | c :: cs => if isSpace c then pastSpace (p.step c) cs else ⟨p, c :: cs⟩

/-- steps over blanks, to the next character -/
def token : Decoder (Option Char) := fun c =>
  let c' := pastSpace c.position c.rest
  .ok c'.peek c'

/-- the rest of a word whose first letter has been read -/
def word : List Char → Decoder Unit
  | [] => pure ()
  | x :: xs => do
    match ← peek with
    | none => faultHere .eofValue
    | some c => if c == x then do advance; word xs else faultNext .expectedIdent

/-! ## strings -/

def hexValue? (c : Char) : Option Nat :=
  if c.isDigit then some (c.toNat - '0'.toNat)
  else if 'a' ≤ c && c ≤ 'f' then some (c.toNat - 'a'.toNat + 10)
  else if 'A' ≤ c && c ≤ 'F' then some (c.toNat - 'A'.toNat + 10)
  else none

def byteLength (cs : List Char) : Nat := (cs.map Char.utf8Size).foldl (· + ·) 0

def hexEscape : Decoder Nat := fun c =>
  match c.rest.take 4 |>.mapM hexValue? with
  | some [a, b, d, e] => .ok (((a * 16 + b) * 16 + d) * 16 + e) (c.run 4)
  | _ =>
    if byteLength c.rest < 4 then .error ⟨.eofString, some (c.offset + byteLength c.rest)⟩ c
    else .error ⟨.invalidEscape, some (c.offset + 4)⟩ c

/-- the character `x`, as the continuation of a surrogate pair -/
def expectEscape (x : Char) : Decoder Unit := do
  match ← peek with
  | none => faultHere .eofString
  | some c => if c == x then advance else faultNext .unexpectedEndOfEscape

/-- the code point of an escape, of which the backslash and the letter have been read -/
def unicodeEscape : Decoder Char := do
  let n ← hexEscape
  if 0xDC00 ≤ n && n ≤ 0xDFFF then faultHere .loneSurrogate
  else if 0xD800 ≤ n && n ≤ 0xDBFF then do
    expectEscape '\\'
    expectEscape 'u'
    let m ← hexEscape
    if m < 0xDC00 || 0xDFFF < m then faultHere .loneSurrogate
    else pure (Char.ofNat ((n - 0xD800) * 0x400 + (m - 0xDC00) + 0x10000))
  else pure (Char.ofNat n)

/-- the character that a letter behind a backslash stands for -/
def simpleEscape? (c : Char) : Option Char :=
  if c == '"' || c == '\\' || c == '/' then some c
  else if c == 'b' then some (Char.ofNat 8)
  else if c == 'f' then some (Char.ofNat 12)
  else if c == 'n' then some '\n'
  else if c == 'r' then some '\r'
  else if c == 't' then some '\t'
  else none

/-- an escape whose backslash has been read -/
def escape : Decoder Char := do
  match ← peek with
  | none => faultHere .eofString
  | some c =>
    match simpleEscape? c with
    | some x => do advance; pure x
    | none => if c == 'u' then do advance; unicodeEscape else faultNext .invalidEscape

/-- the rest of a string whose opening quotation mark has been read, within `fuel` characters; `acc`
holds what was read, reversed -/
def stringFrom : Nat → List Char → Decoder String
  | 0, _ => faultHere .eofString
  | fuel + 1, acc => do
    match ← peek with
    | none => faultHere .eofString
    | some c =>
      if c == '"' then do advance; pure (String.ofList acc.reverse)
      else if c == '\\' then do
        advance
        let x ← escape
        stringFrom fuel (x :: acc)
      else if c.toNat < 0x20 then faultNext .controlCharacter
      else do advance; stringFrom fuel (c :: acc)

/-- the rest of a string whose opening quotation mark has been read -/
def stringRest : Decoder String := fun c => stringFrom (c.rest.length + 1) [] c

/-- an escape that is only stepped over -/
def skipEscape : Decoder Unit := do
  match ← peek with
  | none => faultHere .eofString
  | some c =>
    if (simpleEscape? c).isSome then advance
    else if c == 'u' then do
      advance
      let _ ← hexEscape
    else faultNext .invalidEscape

/-- steps over the rest of a string, within `fuel` characters -/
def skipStringFrom : Nat → Decoder Unit
  | 0 => faultHere .eofString
  | fuel + 1 => do
    match ← peek with
    | none => faultHere .eofString
    | some c =>
      if c == '"' then advance
      else if c == '\\' then do advance; skipEscape; skipStringFrom fuel
      else if c.toNat < 0x20 then faultHere .controlCharacter
      else do advance; skipStringFrom fuel

def skipString : Decoder Unit := fun c => skipStringFrom (c.rest.length + 1) c

/-! ## numbers -/

/-- a number as it is read: integers that fit into 64 bits, all else in floating point -/
inductive Number where
  | natural (n : Nat)
  | negative (n : Nat)
  | float (x : Float)

def Number.found : Number → Found
  | .natural n => .integer n
  | .negative n => .integer (-(n : Int))
  | .float x => .float (Text.Shortest.ofFloat x).brief

/-- the digits at the front of a text, and the cursor behind them -/
def digitsFrom (p : Text.Position) : List Char → List Char × Cursor
  | [] => ([], ⟨p, []⟩)
  | c :: cs =>
    if c.isDigit then
      let (ds, rest) := digitsFrom (p.step c) cs
      (c :: ds, rest)
    else ([], ⟨p, c :: cs⟩)

def digits : Decoder (List Char) := fun c =>
  let (ds, c') := digitsFrom c.position c.rest
  .ok ds c'

def maxWord : Nat := Nat.pow 2 64 - 1

/-- the value of as many digits behind those of value `acc` as fit into 64 bits, and those left
over -/
def significand (acc : Nat) : List Char → Nat × List Char
  | [] => (acc, [])
  | d :: ds =>
    let next := acc * 10 + (d.toNat - '0'.toNat)
    if maxWord < next then (acc, d :: ds) else significand next ds

def powerOfTen (e : Nat) : Float := OfScientific.ofScientific 1 false e

/-- `f * 10 ^ e`, where steps of `10 ^ 308` are taken until the exponent is a float's -/
def scale : Nat → Float → Int → Option Float
  | 0, f, _ => some f
  | fuel + 1, f, e =>
    if e.natAbs ≤ 308 then
      if 0 ≤ e then
        let g := f * powerOfTen e.natAbs
        if g.isInf then none else some g
      else some (f / powerOfTen e.natAbs)
    else if f == 0 then some f
    else if 0 ≤ e then none
    else scale fuel (f / powerOfTen 308) (e + 308)

/-- the number `m * 10 ^ e`, with a sign -/
def floatOfParts (positive : Bool) (m : Nat) (e : Int) : Decoder Number :=
  match scale (e.natAbs / 308 + 2) (UInt64.ofNat m).toFloat e with
  | none => faultHere .numberOutOfRange
  | some f => pure (.float (if positive then f else -f))

def maxExponent : Nat := Nat.pow 2 31 - 1

/-- an exponent whose letter comes next, behind `m * 10 ^ e` -/
def exponent (positive : Bool) (m : Nat) (e : Int) : Decoder Number := do
  advance
  let up ← do
    match ← peek with
    | some '+' => do advance; pure true
    | some '-' => do advance; pure false
    | _ => pure true
  match ← peek with
  | none => faultHere .eofValue
  | some c =>
    if !c.isDigit then faultNext .invalidNumber
    else do
      let ds ← digits
      let x := Text.digitsValue 0 ds
      if maxExponent < x then
        if m != 0 && up then overflow ds
        else pure (.float (if positive then 0 else -0.0))
      else floatOfParts positive m (if up then e + x else e - x)
where
  /-- the fault is reported behind the digit that makes the exponent too great -/
  overflow (ds : List Char) : Decoder Number := fun c =>
    let fits := (List.range ds.length).filter fun k => Text.digitsValue 0 (ds.take k) ≤ maxExponent
    .error ⟨.numberOutOfRange, some (c.offset + fits.length - ds.length)⟩ c

/-- the digits behind a point that comes next, behind `m * 10 ^ e` -/
def fraction (positive : Bool) (m : Nat) (e : Int) : Decoder Number := do
  advance
  let ds ← digits
  if ds.isEmpty then
    match ← peek with
    | none => faultNext .eofValue
    | some _ => faultNext .invalidNumber
  else
    let (m', left) := significand m ds
    let e' := e - ((ds.length - left.length : Nat) : Int)
    match ← peek with
    | some 'e' | some 'E' => exponent positive m' e'
    | _ => floatOfParts positive m' e'

/-- a number whose sign has been read -/
def number (positive : Bool) : Decoder Number := do
  match ← peek with
  | none => faultHere .eofValue
  | some c =>
    if !c.isDigit then faultNext .invalidNumber
    else do
      let ds ← if c == '0' then do advance; pure [c] else digits
      match ← peek with
      | some d => if c == '0' && d.isDigit then faultNext .invalidNumber else finish ds
      | none => finish ds
where
  finish (ds : List Char) : Decoder Number := do
    let (m, left) := significand 0 ds
    match ← peek with
    | some '.' => fraction positive m left.length
    | some 'e' | some 'E' => exponent positive m left.length
    | _ =>
      if !left.isEmpty then floatOfParts positive m left.length
      else if positive then pure (.natural m)
      else if 0 < m && m ≤ Nat.pow 2 63 then pure (.negative m)
      else pure (.float (-(UInt64.ofNat m).toFloat))

/-- steps over the exponent whose letter comes next -/
def skipExponent : Decoder Unit := do
  advance
  match ← peek with
  | some '+' | some '-' => advance
  | _ => pure ()
  match ← peek with
  | some c =>
    if c.isDigit then do
      let _ ← digits
    else faultNext .invalidNumber
  | none => faultHere .invalidNumber

/-- steps over a number whose sign has been read -/
def skipNumber : Decoder Unit := do
  match ← peek with
  | none => faultHere .invalidNumber
  | some c =>
    if !c.isDigit then faultNext .invalidNumber
    else if c == '0' then do
      advance
      match ← peek with
      | some d => if d.isDigit then faultNext .invalidNumber else tail
      | none => pure ()
    else do
      let _ ← digits
      tail
where
  tail : Decoder Unit := do
    match ← peek with
    | some '.' => do
      advance
      let ds ← digits
      if ds.isEmpty then faultNext .invalidNumber
      else
        match ← peek with
        | some 'e' | some 'E' => skipExponent
        | _ => pure ()
    | some 'e' | some 'E' => skipExponent
    | _ => pure ()

/-! ## a value that is not what is expected -/

/-- reads the value that begins with `c` far enough to name it, and reports it -/
def wrongType (c : Char) (expected : String) : Decoder α := settle do
  if c == 'n' then do
    advance
    word "ull".toList
    mismatch (.invalidType .null expected)
  else if c == 't' then do
    advance
    word "rue".toList
    mismatch (.invalidType (.boolean true) expected)
  else if c == 'f' then do
    advance
    word "alse".toList
    mismatch (.invalidType (.boolean false) expected)
  else if c == '-' then do
    advance
    let n ← number false
    mismatch (.invalidType n.found expected)
  else if c.isDigit then do
    let n ← number true
    mismatch (.invalidType n.found expected)
  else if c == '"' then do
    advance
    let s ← stringRest
    mismatch (.invalidType (.text s) expected)
  else if c == '[' then mismatch (.invalidType .sequence expected)
  else if c == '\x7b' then mismatch (.invalidType .map expected)
  else faultNext .expectedValue

/-! ## scalars -/

def natural : Decoder Nat := settle do
  match ← token with
  | none => faultNext .eofValue
  | some c =>
    if c == '-' then do advance; accept (← number false)
    else if c.isDigit then do accept (← number true)
    else wrongType c "usize"
where
  accept : Number → Decoder Nat
    | .natural n => pure n
    | .negative n => mismatch (.invalidValue (.integer (-(n : Int))) "usize")
    | .float x => mismatch (.invalidType (Number.float x).found "usize")

def boolean : Decoder Bool := settle do
  match ← token with
  | none => faultNext .eofValue
  | some c =>
    if c == 't' then do advance; word "rue".toList; pure true
    else if c == 'f' then do advance; word "alse".toList; pure false
    else wrongType c "a boolean"

/-- a string, which stands for `expected` -/
def stringAs (expected : String) : Decoder String := do
  match ← token with
  | none => faultNext .eofValue
  | some c => if c == '"' then do advance; stringRest else wrongType c expected

def string : Decoder String := settle (stringAs "a string")

def optional (d : Decoder α) : Decoder (Option α) := do
  match ← token with
  | some 'n' => do advance; word "ull".toList; pure none
  | _ => some <$> d

/-- nothing but `null` -/
def unit : Decoder Unit := settle do
  match ← token with
  | none => faultNext .eofValue
  | some c => if c == 'n' then do advance; word "ull".toList else wrongType c "unit"

/-! ## names -/

def colon : Decoder Unit := do
  match ← token with
  | none => faultNext .eofObject
  | some c => if c == ':' then advance else faultNext .expectedColon

def name (choices : List (String × α)) : Decoder α := settle do
  let s ← stringAs "variant identifier"
  match choices.find? fun p => p.1 == s with
  | some p => pure p.2
  | none => mismatch (.unknownVariant s (choices.map Prod.fst))

/-- one of the given names, as a string or as the only member of an object, with the value `null` -/
def variant (choices : List (String × α)) : Decoder α := do
  match ← token with
  | none => faultNext .eofValue
  | some c =>
    if c == '\x7b' then do
      advance
      let a ← name choices
      colon
      unit
      match ← token with
      | none => faultHere .eofObject
      | some c => if c == '\x7d' then do advance; pure a else faultHere .expectedValue
    else if c == '"' then name choices
    else faultNext .expectedValue

/-! ## lists and objects -/

/-- is there another element? Before it stands a comma unless it is the first. -/
def hasElement (first : Bool) : Decoder Bool := do
  match ← token with
  | none => faultNext .eofList
  | some c =>
    if c == ']' then pure false
    else if first then pure true
    else if c == ',' then do
      advance
      match ← token with
      | none => faultNext .eofValue
      | some d => if d == ']' then faultNext .trailingComma else pure true
    else faultNext .expectedListEnd

def nextKey (first : Bool) : Decoder (Option String) := do
  match ← token with
  | none => faultNext .eofObject
  | some c =>
    if c == '\x7d' then pure none
    else if first then
      if c == '"' then do advance; some <$> stringRest else faultNext .keyNotString
    else if c == ',' then do
      advance
      match ← token with
      | none => faultNext .eofValue
      | some d =>
        if d == '"' then do advance; some <$> stringRest
        else if d == '\x7d' then faultNext .trailingComma
        else faultNext .keyNotString
    else faultNext .expectedObjectEnd

def closeList : Decoder Unit := do
  match ← token with
  | none => faultNext .eofList
  | some c =>
    if c == ']' then advance
    else if c == ',' then do
      advance
      match ← token with
      | some ']' => faultNext .trailingComma
      | _ => faultNext .trailingCharacters
    else faultNext .trailingCharacters

def closeObject : Decoder Unit := do
  match ← token with
  | none => faultNext .eofObject
  | some c =>
    if c == '\x7d' then advance
    else if c == ',' then faultNext .trailingComma
    else faultNext .trailingCharacters

/-- the contents, then the end, which is looked for also behind a fault of the contents -/
def enclosed (contents : Decoder α) (close : Decoder Unit) : Decoder α := fun c =>
  match contents c with
  | .ok a c' =>
    match close c' with
    | .ok _ c'' => .ok a c''
    | .error f c'' => .error f c''
  | .error f c' =>
    match close c' with
    | .ok _ c'' => .error f c''
    | .error _ c'' => .error f c''

/-- the elements of a list, within `fuel` elements -/
def elements (d : Decoder α) : Nat → Bool → Decoder (List α)
  | 0, _ => pure []
  | fuel + 1, first => do
    if ← hasElement first then do
      let a ← d
      let as ← elements d fuel false
      pure (a :: as)
    else pure []

/-- a list of values of one shape -/
def list (d : Decoder α) : Decoder (List α) := settle do
  match ← token with
  | none => faultNext .eofValue
  | some c =>
    if c == '[' then do
      advance
      enclosed (fun c => elements d (c.rest.length + 1) true c) closeList
    else wrongType c "a sequence"

/-! ## values of any shape -/

/-- what a value that is stepped over stands in -/
inductive Frame where
  | list
  | object
deriving DecidableEq, Repr

namespace Frame

def closing : Frame → Char
  | .list => ']'
  | .object => '\x7d'

def eof : Frame → Cause
  | .list => .eofList
  | .object => .eofObject

def expectedEnd : Frame → Cause
  | .list => .expectedListEnd
  | .object => .expectedObjectEnd

end Frame

/-- where stepping over a value has got to -/
inductive SkipState where
  /-- before a value -/
  | value
  /-- behind the beginning of the innermost frame -/
  | opened
  /-- behind a value -/
  | valueEnd

/-- steps over the name of a member and its colon -/
def skipKey : Decoder Unit := do
  match ← token with
  | none => faultNext .eofObject
  | some c =>
    if c == '"' then do advance; skipString; colon else faultNext .keyNotString

/-- steps over a value without lists and objects; the innermost frame opens if it is one of them -/
def skipScalar (c : Char) : Decoder (Option Frame) :=
  if c == 'n' then do advance; word "ull".toList; pure none
  else if c == 't' then do advance; word "rue".toList; pure none
  else if c == 'f' then do advance; word "alse".toList; pure none
  else if c == '-' then do advance; skipNumber; pure none
  else if c.isDigit then do skipNumber; pure none
  else if c == '"' then do advance; skipString; pure none
  else if c == '[' then do advance; pure (some .list)
  else if c == '\x7b' then do advance; pure (some .object)
  else faultNext .expectedValue

/-- before the next value of a frame -/
def skipBefore : Frame → Decoder Unit
  | .list => pure ()
  | .object => skipKey

/-- steps over what is left of a value in the given frames, within `fuel` steps -/
def skipFrom : Nat → SkipState → List Frame → Decoder Unit
  | 0, _, _ => pure ()
  | fuel + 1, .value, frames => do
    match ← token with
    | none => faultNext .eofValue
    | some c =>
      match ← skipScalar c with
      | none => skipFrom fuel .valueEnd frames
      | some f => skipFrom fuel .opened (f :: frames)
  | _ + 1, .opened, [] => pure ()
  | fuel + 1, .opened, f :: frames => do
    match ← token with
    | none => faultNext f.eof
    | some c =>
      if c == f.closing then do advance; skipFrom fuel .valueEnd frames
      else do skipBefore f; skipFrom fuel .value (f :: frames)
  | _ + 1, .valueEnd, [] => pure ()
  | fuel + 1, .valueEnd, f :: frames => do
    match ← token with
    | none => faultNext f.eof
    | some c =>
      if c == ',' then do advance; skipBefore f; skipFrom fuel .value (f :: frames)
      else if c == f.closing then do advance; skipFrom fuel .valueEnd frames
      else faultNext f.expectedEnd

/-- steps over a value of any shape -/
def skipValue : Decoder Unit := fun c => skipFrom (2 * c.rest.length + 2) .value [] c

end Decode

/-! ## whole texts -/

/-- a fault and its place in the text -/
structure ReadError where
  cause : Cause
  line : Nat
  column : Nat
deriving DecidableEq, Repr, Inhabited

def ReadError.message (e : ReadError) : String :=
  e.cause.message ++ " at line " ++ Text.decimal e.line ++ " column " ++ Text.decimal e.column

/-- the line of a byte offset, counted from one, and the number of bytes before it in that line -/
def placeFrom (offset line start : Nat) : Nat → List Char → Nat × Nat
  | _, [] => (line, offset - start)
  | here, c :: cs =>
    if offset ≤ here then (line, offset - start)
    else if c == '\n' then placeFrom offset (line + 1) (here + 1) (here + 1) cs
    else placeFrom offset line start (here + c.utf8Size) cs

/-- a value that fills the whole text -/
def decode (d : Decoder α) (text : String) : Except ReadError α :=
  let whole : Decoder α := do
    let a ← d
    match ← Decode.token with
    | none => pure a
    | some _ => Decode.faultNext .trailingCharacters
  match whole (Cursor.ofList text.toList) with
  | .ok a _ => .ok a
  | .error f c =>
    let (line, column) := placeFrom (f.offset.getD c.offset) 1 0 0 text.toList
    .error ⟨f.cause, line, column⟩

end Json
end AnnotationAudit
