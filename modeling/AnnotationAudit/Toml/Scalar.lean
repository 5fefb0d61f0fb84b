import AnnotationAudit.Toml.Datetime
import AnnotationAudit.Toml.Document

/-!
# Keys and scalars of TOML documents

`readKey` and `readScalar` read the texts that the structure of a document leaves as they are
written. Integers have no bound here, and floating-point numbers are kept as text.
-/

namespace AnnotationAudit
namespace Toml

/-- a scalar -/
inductive Scalar where
  | text (s : String)
  | integer (n : Int)
  /-- a floating-point number in decimal, without underscores -/
  | float (digits : List Char)
  | boolean (b : Bool)
  | datetime
deriving DecidableEq, Repr, Inhabited

open Document (fault)

/-! ## strings -/

def isStringChar (c : Char) : Bool := c == '\t' || (0x20 ≤ c.toNat && c.toNat != 0x7F)

/-- what stands between `opening` and `closing`, or the text without `opening` if it is not
closed -/
def between (opening closing : List Char) (text : List Char) : List Char × Bool :=
  let body := text.drop opening.length
  if opening.length + closing.length ≤ text.length &&
      text.drop (text.length - closing.length) == closing then
    (body.take (body.length - closing.length), true)
  else (body, false)

def hexDigit? (c : Char) : Option Nat :=
  if c.isDigit then some (c.toNat - '0'.toNat)
  else if 'a' ≤ c && c ≤ 'f' then some (c.toNat - 'a'.toNat + 10)
  else if 'A' ≤ c && c ≤ 'F' then some (c.toNat - 'A'.toNat + 10)
  else none

/-- the letters of the escapes, as they are named in faults -/
def escapeLetters : List Expected :=
  ["b", "e", "f", "n", "r", "\\", "\"", "x", "u", "U"].map .literal

def escape? (c : Char) : Option Char :=
  if c = 'b' then some (Char.ofNat 8)
  else if c = 't' then some '\t'
  else if c = 'n' then some '\n'
  else if c = 'f' then some (Char.ofNat 12)
  else if c = 'r' then some '\r'
  else if c = 'e' then some (Char.ofNat 27)
  else if c = '"' then some '"'
  else if c = '\\' then some '\\'
  else none

/-- the number of digits of an escape by code point -/
def escapeWidth? (c : Char) : Option Nat :=
  if c = 'x' then some 2 else if c = 'u' then some 4 else if c = 'U' then some 8 else none

/-- is a number a code point of a character? -/
def isScalarValue (n : Nat) : Bool := n < 0xD800 || (0xDFFF < n && n < 0x110000)

/-- the character of `n` hexadecimal digits at the front of a text that begins at a byte of the
document -/
def codePoint (n here : Nat) (cs : List Char) : Except Fault Char :=
  let ds := (cs.take n).takeWhile fun c => (hexDigit? c).isSome
  let expected := [Expected.description "unicode hexadecimal value"]
  if ds.length < n then
    .error (fault "too few unicode value digits" expected ⟨here + ds.length, here + ds.length⟩)
  else
    let value := ds.foldl (fun acc c => acc * 16 + (hexDigit? c).getD 0) 0
    if isScalarValue value then .ok (Char.ofNat value)
    else .error (fault "invalid value" expected ⟨here, here + n⟩)

/-- the body of a string with escapes that begins at a byte of the document. In a string of several
lines, a backslash at the end of a line takes all blanks behind it along. -/
def unescape (long : Bool) (what : String) : Nat → Nat → List Char → Except Fault (List Char)
  | 0, _, _ => .ok []
  | _ + 1, _, [] => .ok []
  | fuel + 1, here, c :: cs =>
    if c = '\\' then
      match cs with
      | [] => .error (fault "missing escaped value" escapeLetters ⟨here + 1, here + 1⟩)
      | d :: rest =>
        match escape? d with
        | some x => do
          let body ← unescape long what fuel (here + 2) rest
          pure (x :: body)
        | none =>
          match escapeWidth? d with
          | some n => do
            let x ← codePoint n (here + 2) rest
            let body ← unescape long what fuel (here + 2 + n) (rest.drop n)
            pure (x :: body)
          | none =>
            let afterSpace := cs.dropWhile isSpace
            if long && (afterSpace.head? == some '\n' || afterSpace.take 2 == ['\r', '\n']) then
              let isBlank (x : Char) : Bool := isSpace x || x == '\n' || x == '\r'
              let skipped := cs.takeWhile isBlank
              unescape long what fuel (here + 1 + skipped.length) (cs.drop skipped.length)
            else .error (fault "missing escaped value" escapeLetters ⟨here + 1, here + 1⟩)
    else if isStringChar c || (long && c == '\n') then do
      let body ← unescape long what fuel (here + c.utf8Size) cs
      pure (c :: body)
    else if long && c == '\r' then
      match cs with
      | '\n' :: rest => do
        let body ← unescape long what fuel (here + 2) rest
        pure ('\r' :: '\n' :: body)
      | _ =>
        .error (fault "carriage return must be followed by newline" [.literal "\n"]
          ⟨here + 1, here + 1⟩)
    else
      .error (fault what [.description "non-double-quote visible characters", .literal "\\"]
        ⟨here, here + c.utf8Size⟩)

/-- the body of a string without escapes that begins at a byte of the document -/
def plainBody (long : Bool) (what : String) : Nat → List Char → Except Fault (List Char)
  | _, [] => .ok []
  | here, c :: cs =>
    if isStringChar c || (long && c == '\n') || (long && c == '\r' && cs.head? == some '\n') then do
      let body ← plainBody long what (here + c.utf8Size) cs
      pure (c :: body)
    else if long && c == '\r' then
      .error (fault "carriage return must be followed by newline" [.literal "\n"]
        ⟨here + 1, here + 1⟩)
    else
      .error (fault what [.description "non-single-quote visible characters"] ⟨here, here⟩)

/-- a text without the line end that it begins with, and the number of bytes dropped -/
def dropLineEnd : List Char → Nat × List Char
  | '\n' :: cs => (1, cs)
  | '\r' :: '\n' :: cs => (2, cs)
  | cs => (0, cs)

/-- a string, whose quotes are kept in its text -/
def readString (raw : Raw) : Except Fault String := do
  let unclosed (what mark : String) : Fault := fault what [.literal mark] raw.span.after
  match raw.encoding with
  | .literal => do
    let what := "invalid literal string"
    let (body, closed) := between ['\''] ['\''] raw.text
    if !closed then .error (unclosed what "'")
    else do
      let body ← plainBody false what (raw.span.start + 1) body
      pure (String.ofList body)
  | .basic => do
    let what := "invalid basic string"
    let (body, closed) := between ['"'] ['"'] raw.text
    if !closed then .error (unclosed what "\"")
    else do
      let body ← unescape false what (body.length + 1) (raw.span.start + 1) body
      pure (String.ofList body)
  | .longLiteral => do
    let what := "invalid multi-line literal string"
    let (body, closed) := between ['\'', '\'', '\''] ['\'', '\'', '\''] raw.text
    if !closed then .error (unclosed what "'")
    else do
      let (n, body) := dropLineEnd body
      let body ← plainBody true what (raw.span.start + 3 + n) body
      pure (String.ofList body)
  | .longBasic => do
    let what := "invalid multi-line basic string"
    let (body, closed) := between ['"', '"', '"'] ['"', '"', '"'] raw.text
    if !closed then .error (unclosed what "\"")
    else do
      let (n, body) := dropLineEnd body
      let body ← unescape true what (body.length + 1) (raw.span.start + 3 + n) body
      pure (String.ofList body)
  | .bare => pure (String.ofList raw.text)

/-! ## keys -/

def isKeyChar (c : Char) : Bool := c.isAlphanum || c == '-' || c == '_'

/-- what may stand in a bare key, as it is named in faults -/
def keyChars : List Expected :=
  [.description "letters", .description "numbers", .literal "-", .literal "_"]

def readKey (raw : Raw) : Except Fault String :=
  match raw.encoding with
  | .bare =>
    if raw.text.isEmpty then .error (fault "unquoted keys cannot be empty" keyChars raw.span)
    else
      match raw.text.dropWhile isKeyChar with
      | [] => .ok (String.ofList raw.text)
      | c :: _ =>
        let place := Fault.byteLength (raw.text.takeWhile isKeyChar)
        .error (fault "invalid unquoted key" keyChars (raw.span.sub place (place + c.utf8Size)))
  | .longLiteral =>
    .error (fault "keys cannot be multi-line literal strings"
      [.description "basic string", .description "literal string"] raw.span)
  | .longBasic =>
    .error (fault "keys cannot be multi-line basic strings"
      [.description "basic string", .description "literal string"] raw.span)
  | _ => readString raw

/-! ## numbers -/

/-- where a text that ends a scalar begins in it -/
def offsetIn (raw : Raw) (rest : List Char) : Nat :=
  Fault.byteLength raw.text - Fault.byteLength rest

def partFault (raw : Raw) (what : String) (expected : List Expected) (a b : Nat) : Fault :=
  fault what expected (raw.span.sub a b)

/-- the fault of an underscore that does not stand between digits; `stream` is the end of the
scalar, and `isDigit` tells what counts as a digit -/
def underscoreFault? (raw : Raw) (isDigit : Char → Bool) (stream : List Char) : Option Fault :=
  let size := Fault.byteLength raw.text
  let bad (a : Nat) : Fault := partFault raw "`_` may only go between digits" [] a (a + 1)
  let start := offsetIn raw stream
  let rec between (last : Option Char) (here : Nat) : List Char → Option Fault
    | [] => none
    | c :: cs =>
      if c = '_' then
        if last.any isDigit && cs.head?.any isDigit then between (some c) (here + 1) cs
        else some (bad here)
      else between (some c) (here + c.utf8Size) cs
  if !stream.contains '_' then none
  else if stream.head? == some '_' then some (bad start)
  else if 1 < stream.length && stream.getLast? == some '_' then some (bad (size - 1))
  else between none start stream

/-- digits and underscores at the front of a text, and what follows -/
def digitRun (cs : List Char) : List Char × List Char :=
  let inside (c : Char) : Bool := c.isDigit || c == '_'
  (cs.takeWhile inside, cs.dropWhile inside)

/-- the fault of a run of digits at the front of a text -/
def runFault? (raw : Raw) (zeros : Bool) (what : String) (cs : List Char) : Option Fault :=
  let count := (digitRun cs).1.filter Char.isDigit |>.length
  let place := offsetIn raw cs
  if count = 0 then some (partFault raw what [.description "digits"] place place)
  else if 1 < count && !zeros && cs.head? == some '0' then
    some (partFault raw "unexpected leading zero" [] place (place + 1))
  else none

/-- the fault of a floating-point number without its sign -/
def floatFault? (raw : Raw) (cs : List Char) : Option Fault :=
  let rest := (digitRun cs).2
  let (fraction, rest) := match rest with
    | '.' :: rest => (runFault? raw true "invalid fraction" rest, (digitRun rest).2)
    | rest => (none, rest)
  let (exponent, rest) := match rest with
    | c :: rest =>
      if c = 'e' ∨ c = 'E' then
        let rest := match rest with
          | d :: more => if d = '+' ∨ d = '-' then more else d :: more
          | [] => []
        (runFault? raw true "invalid exponent" rest, (digitRun rest).2)
      else (none, c :: rest)
    | [] => (none, [])
  let trailing :=
    if rest.isEmpty then none
    else some (partFault raw "invalid float" [] (offsetIn raw rest) (Fault.byteLength raw.text))
  runFault? raw false "invalid mantissa" cs <|> fraction <|> exponent <|> trailing

/-- the value of digits in a base; underscores do not count -/
def valueIn (base : Nat) (cs : List Char) : Nat :=
  (cs.filter (· != '_')).foldl (fun acc c => acc * base + (hexDigit? c).getD 0) 0

def orFault (f : Option Fault) (s : Scalar) : Except Fault Scalar :=
  match f with
  | some f => .error f
  | none => .ok s

/-- a decimal integer with the sign that stands before it -/
def decimalInteger (raw : Raw) (negative : Bool) (cs : List Char) : Except Fault Scalar :=
  let zero :=
    if cs.head? == some '0' && 1 < cs.length then
      some (partFault raw "unexpected leading zero" [] (offsetIn raw cs) (offsetIn raw cs + 1))
    else none
  let n : Int := valueIn 10 cs
  orFault (zero <|> underscoreFault? raw Char.isDigit cs) (.integer (if negative then -n else n))

/-- an integer in another base, whose letter has been read -/
def radixInteger (raw : Raw) (base : Nat) (name : String) (letter : Char) (signed : Bool)
    (isDigit : Char → Bool) (cs : List Char) : Except Fault Scalar :=
  let size := Fault.byteLength raw.text
  let sign :=
    if signed then some (partFault raw "integers with a radix cannot be signed" [] 0 1) else none
  let start := offsetIn raw cs
  let case :=
    if letter.isUpper then
      some (partFault raw "radix must be lowercase"
        [.literal (String.ofList ['0', letter.toLower])] (start - 2) start)
    else none
  let digits := cs.takeWhile fun c => isDigit c || c == '_'
  let other :=
    if digits.length = cs.length then none
    else
      let place := start + Fault.byteLength digits
      some (partFault raw ("invalid " ++ name ++ " number") [.description "digits"] place size)
  let empty :=
    if cs.isEmpty then
      some (partFault raw ("invalid " ++ name ++ " number") [.description "digits"] start size)
    else none
  orFault (sign <|> case <|> empty <|> other <|> underscoreFault? raw isDigit cs)
    (.integer (valueIn base cs))

def datetime (raw : Raw) : Except Fault Scalar :=
  match Datetime.check raw.text with
  | none => .ok .datetime
  | some p => .error ⟨p.what, p.expected.map fun e => [.description e], raw.span⟩

def invalidScalar (raw : Raw) : Except Fault Scalar :=
  let quote (mark : String) : Except Fault Scalar :=
    .error (fault "missing opening quote" [.literal mark] raw.span.before)
  match raw.text.reverse with
  | '\'' :: '\'' :: '\'' :: _ => quote "'''"
  | '"' :: '"' :: '"' :: _ => quote "\"\"\""
  | '\'' :: _ => quote "'"
  | '"' :: _ => quote "\""
  | _ =>
    .error (fault "string values must be quoted" [.description "literal string"] raw.span)

/-- a date, a time or a number; `cs` is the scalar without its sign -/
def numeric (raw : Raw) (negative : Bool) (cs : List Char) : Except Fault Scalar :=
  match cs.dropWhile Char.isDigit with
  | [] => decimalInteger raw negative cs
  | c :: rest =>
    if c = '-' ∨ c = ':' ∨ rest.contains ' ' then datetime raw
    else if (c :: rest).any fun x => x == '.' || x == 'e' || x == 'E' then
      let digits := raw.text.filter (· != '_')
      orFault (floatFault? raw cs <|> underscoreFault? raw Char.isDigit cs) (.float digits)
    else if c = '_' then
      if (c :: rest).all fun x => x == '_' || x.isDigit then decimalInteger raw negative cs
      else invalidScalar raw
    else invalidScalar raw

def wordScalar (raw : Raw) (what word : String) (s : Scalar) (cs : List Char) :
    Except Fault Scalar :=
  if cs = word.toList then .ok s
  else .error (fault what [.literal word] raw.span)

/-- a number or word; `cs` is the scalar without its sign, which is a minus if `negative` -/
def unsigned (raw : Raw) (signed negative : Bool) (cs : List Char) : Except Fault Scalar :=
  match cs with
  | [] => invalidScalar raw
  | c :: rest =>
    if c = '0' then
      match rest with
      | d :: digits =>
        if d = 'x' ∨ d = 'X' then
          radixInteger raw 16 "hexadecimal" d signed (fun c => (hexDigit? c).isSome) digits
        else if d = 'o' ∨ d = 'O' then
          radixInteger raw 8 "octal" d signed (fun c => '0' ≤ c && c ≤ '7') digits
        else if d = 'b' ∨ d = 'B' then
          radixInteger raw 2 "binary" d signed (fun c => c == '0' || c == '1') digits
        else if d = 'd' ∨ d = 'D' then
          .error (partFault raw "redundant integer number prefix" [] 0 2)
        else numeric raw negative cs
      | [] => numeric raw negative cs
    else if c.isDigit || c == '_' then numeric raw negative cs
    else if c = '.' then orFault (floatFault? raw cs) (.float raw.text)
    else if c = 'i' ∨ c = 'I' then
      wordScalar raw "invalid float" "inf" (.float raw.text) cs
    else if c = 'n' ∨ c = 'N' then
      wordScalar raw "invalid float" "nan" (.float raw.text) cs
    else if signed then invalidScalar raw
    else if c = 't' ∨ c = 'T' then wordScalar raw "invalid boolean" "true" (.boolean true) cs
    else if c = 'f' ∨ c = 'F' then wordScalar raw "invalid boolean" "false" (.boolean false) cs
    else invalidScalar raw

def bareScalar (raw : Raw) : Except Fault Scalar :=
  match raw.text with
  | c :: cs =>
    if c = '+' ∨ c = '-' then
      match cs with
      | d :: _ =>
        if d = '+' ∨ d = '-' then .error (partFault raw "redundant numeric sign" [] 1 2)
        else unsigned raw true (c == '-') cs
      | [] => invalidScalar raw
    else unsigned raw false false raw.text
  | [] => invalidScalar raw

def readScalar (raw : Raw) : Except Fault Scalar :=
  match raw.encoding with
  | .bare => bareScalar raw
  | _ => do
    let s ← readString raw
    pure (.text s)

/-! ## floating-point numbers -/

def floatOfDecimal (negative : Bool) (digits : Nat) (exponent : Int) : Float :=
  let size : Int := (Text.decimalDigits digits).length
  let x : Float :=
    if digits = 0 then 0
    else if 400 < size + exponent then 1.0 / 0.0
    else if size + exponent < -400 then 0
    else OfScientific.ofScientific digits (decide (exponent < 0)) exponent.natAbs
  if negative then -x else x

/-- the number that a text stands for, unless it is too great -/
def floatOf? (text : List Char) : Option Float :=
  let (negative, cs) := match text with
    | '-' :: cs => (true, cs)
    | '+' :: cs => (false, cs)
    | cs => (false, cs)
  if cs = "inf".toList then some (if negative then -1.0 / 0.0 else 1.0 / 0.0)
  else if cs = "nan".toList then some (0.0 / 0.0)
  else
    let whole := cs.takeWhile Char.isDigit
    let rest := cs.dropWhile Char.isDigit
    let (fraction, rest) := match rest with
      | '.' :: rest => (rest.takeWhile Char.isDigit, rest.dropWhile Char.isDigit)
      | rest => ([], rest)
    let exponent : Int := match rest with
      | _ :: '-' :: ds => -(Text.digitsValue 0 ds : Int)
      | _ :: '+' :: ds => Text.digitsValue 0 ds
      | _ :: ds => Text.digitsValue 0 ds
      | [] => 0
    let x := floatOfDecimal negative (Text.digitsValue 0 (whole ++ fraction))
      (exponent - (fraction.length : Int))
    if x.isInf then none else some x

end Toml
end AnnotationAudit
