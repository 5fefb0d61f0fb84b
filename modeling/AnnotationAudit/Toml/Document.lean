import AnnotationAudit.Toml.Token

/-!
# The structure of TOML documents

`Document.parse` finds the headers, keys and values of a document and leaves the texts of keys and
scalars as they are written:

* `Raw`          a key or scalar as it is written;
* `RawValue`     a scalar, an array, or an inline table;
* `Expression`   a header or a pair of a key and a value.

The first fault ends the reading.
-/

namespace AnnotationAudit
namespace Toml

/-- how a key or a scalar is written -/
inductive Encoding where
  | bare
  | literal
  | basic
  | longLiteral
  | longBasic
deriving DecidableEq, Repr, Inhabited

/-- a key or a scalar as it is written -/
structure Raw where
  encoding : Encoding
  span : Span
  text : List Char
deriving DecidableEq, Repr, Inhabited

inductive RawValue where
  | scalar (raw : Raw)
  | array (span : Span) (items : List RawValue)
  | table (span : Span) (entries : List (List Raw × RawValue))
deriving Inhabited

inductive Expression where
  /-- the header of a table, or of an element of an array of tables -/
  | header (ofArray : Bool) (span : Span) (key : List Raw)
  | pair (key : List Raw) (value : RawValue)
deriving Inhabited

namespace Document

abbrev Reader (α : Type) := List Token → Except Fault (α × List Token)

/-- a fault with what could have stood in its place -/
def fault (what : String) (expected : List Expected) (span : Span) : Fault :=
  ⟨what, some expected, span⟩

/-- the encoding of a token that can be a key or a scalar -/
def encoding? : TokenKind → Option Encoding
  | .atom => some .bare
  | .literal => some .literal
  | .basic => some .basic
  | .longLiteral => some .longLiteral
  | .longBasic => some .longBasic
  | _ => none

def absent (span : Span) : Raw := ⟨.bare, span, []⟩

def here : List Token → Span
  | [] => ⟨0, 0⟩
  | t :: _ => t.span.before

/-- the tokens behind leading blanks -/
def skipSpace : List Token → List Token
  | [] => []
  | t :: ts => if t.kind = .space then ts else t :: ts

/-! ## comments and line ends -/

def isCommentChar (c : Char) : Bool := c == '\t' || (0x20 ≤ c.toNat && c.toNat != 0x7F)

def commentFault? (t : Token) : Option Fault :=
  let before := t.text.takeWhile isCommentChar
  if before.length = t.text.length then none
  else
    let place := Fault.byteLength before
    some (fault "invalid comment character" [.description "printable characters"]
      (t.span.sub place place))

def newlineFault? (t : Token) : Option Fault :=
  if t.text = ['\r'] then
    some (fault "carriage return must be followed by newline" [.literal "\n"] t.span.after)
  else none

/-- the fault of a token between keys and values -/
def blankFault? (t : Token) : Option Fault :=
  match t.kind with
  | .comment => commentFault? t
  | .newline => newlineFault? t
  | _ => none

/-- steps over a blank, comment or line end -/
def accept (t : Token) : Except Fault Unit :=
  match blankFault? t with
  | some f => .error f
  | none => .ok ()

/-- the end of a line, with a comment perhaps; nothing else may stand before it -/
def lineEnd : List Token → Except Fault (List Token)
  | [] => .ok []
  | t :: ts =>
    match t.kind with
    | .space => lineEnd ts
    | .comment => do
      accept t
      match ts with
      | u :: rest =>
        if u.kind = .newline then do
          accept u
          pure rest
        else pure (u :: rest)
      | [] => pure []
    | .newline => do
      accept t
      pure ts
    | .eof => .ok (t :: ts)
    | _ => .error (fault "unexpected key or value" [.literal "\n", .literal "#"] t.span.before)

/-! ## keys -/

/-- the parts of a key from here on; a part that is not there is empty. The flag tells whether the
last part is there. -/
def keyFrom : Nat → Reader (List Raw × Bool)
  | 0, ts => .ok (([], false), ts)
  | fuel + 1, ts =>
    match skipSpace ts with
    | [] => .ok (([absent ⟨0, 0⟩], false), [])
    | t :: rest =>
      match encoding? t.kind with
      | some e => do
        let part : Raw := ⟨e, t.span, t.text⟩
        match skipSpace rest with
        | [] => pure (([part], true), [])
        | u :: more =>
          if u.kind = .dot then do
            let ((parts, complete), ts) ← keyFrom fuel more
            pure ((part :: parts, complete), ts)
          else pure (([part], true), u :: more)
      | none =>
        if t.kind = .dot then do
          let ((parts, complete), ts) ← keyFrom fuel rest
          pure ((absent t.span.before :: parts, complete), ts)
        else .ok (([absent t.span.before], false), t :: rest)

def key : Reader (List Raw × Bool) := fun ts => keyFrom (ts.length + 1) ts

/-! ## values -/

/-- does a scalar look like a date, so that a time may follow behind a blank? -/
def isDate (text : List Char) : Bool :=
  match text with
  | [a, b, c, d, '-', e, f, '-', g, h] => [a, b, c, d, e, f, g, h].all Char.isDigit
  | _ => false

/-- the atoms and dots that a bare scalar goes on with -/
def bareRest : Raw → List Token → Raw × List Token
  | raw, [] => (raw, [])
  | raw, t :: ts =>
    if t.kind = .dot ∨ t.kind = .atom then
      bareRest ⟨.bare, raw.span.append t.span, raw.text ++ t.text⟩ ts
    else (raw, t :: ts)

def timeRest (raw : Raw) : List Token → Raw × List Token
  | s :: t :: ts =>
    if isDate raw.text ∧ s.text = [' '] ∧ t.kind = .atom ∧ t.text.head?.any Char.isDigit then
      bareRest ⟨.bare, raw.span.append t.span, raw.text ++ s.text ++ t.text⟩ ts
    else (raw, s :: t :: ts)
  | ts => (raw, ts)

def scalar (e : Encoding) (t : Token) (ts : List Token) : Raw × List Token :=
  let raw : Raw := ⟨e, t.span, t.text⟩
  if e = .bare then
    let (raw, ts) := bareRest raw ts
    timeRest raw ts
  else (raw, ts)

/-- the greatest depth of arrays and inline tables -/
def maxDepth : Nat := 80

def depthFault (span : Span) : Fault :=
  ⟨"cannot recurse further; max recursion depth met", none, span⟩

/-- the tokens from the value of an entry on -/
def valueStart : List Token → Except Fault (List Token)
  | [] => .ok []
  | t :: ts =>
    match t.kind with
    | .space => valueStart ts
    | .comment | .newline => do
      accept t
      valueStart ts
    | .eof => .error (fault "unclosed inline table" [.literal "\x7d"] t.span)
    | .comma => .error (fault "extra comma in inline table" [.description "value"] t.span.before)
    | .equals =>
      .error (fault "extra assignment between key-value pairs" [.description "value"] t.span.before)
    | .closeBrace =>
      .error (fault "inline table element without value" [.description "value"] t.span.before)
    | _ => .ok (t :: ts)

/-- the tokens behind the equals sign of an entry, from its value on -/
def entryValue : List Token → Except Fault (List Token)
  | [] => .ok []
  | t :: ts =>
    match t.kind with
    | .space => entryValue ts
    | .comment | .newline => do
      accept t
      entryValue ts
    | .eof => .error (fault "unclosed inline table" [.literal "\x7d"] t.span)
    | .equals => valueStart ts
    | .comma => .error (fault "extra comma in inline table" [.literal "="] t.span.before)
    | .closeBrace =>
      .error (fault "inline table element without value" [.literal "="] t.span.before)
    | _ => .error (fault "missing assignment between key-value pairs" [.literal "="] t.span.before)

mutual

/-- a value, within `fuel` steps and at a given depth -/
def value : Nat → Nat → Reader RawValue
  | 0, _, ts => .ok (.scalar (absent (here ts)), ts)
  | _ + 1, _, [] => .ok (.scalar (absent ⟨0, 0⟩), [])
  | fuel + 1, depth, t :: ts =>
    match encoding? t.kind with
    | some e =>
      let (raw, rest) := scalar e t ts
      .ok (.scalar raw, rest)
    | none =>
      match t.kind with
      | .dot =>
        let (raw, rest) := scalar .bare t ts
        .ok (.scalar raw, rest)
      | .equals => .error (fault "extra `=`" [] t.span)
      | .openBracket =>
        if depth < maxDepth then do
          let ((items, span), rest) ← items fuel (depth + 1) t.span false ts
          pure (.array span items, rest)
        else .error (depthFault t.span)
      | .closeBracket => .error (fault "missing array opening" [.literal "["] t.span.before)
      | .openBrace =>
        if depth < maxDepth then do
          let ((entries, span), rest) ← entries fuel (depth + 1) t.span false ts
          pure (.table span entries, rest)
        else .error (depthFault t.span)
      | .closeBrace =>
        .error (fault "missing inline table opening" [.literal "\x7b"] t.span.before)
      | _ => .ok (.scalar (absent t.span.before), t :: ts)

/-- the elements of an array that begins at a span, and the array's span; `full` tells whether an
element has just been read -/
def items : Nat → Nat → Span → Bool → Reader (List RawValue × Span)
  | 0, _, start, _, ts => .ok (([], start), ts)
  | _ + 1, _, start, _, [] => .ok (([], start), [])
  | fuel + 1, depth, start, full, t :: ts =>
    match t.kind with
    | .space => items fuel depth start full ts
    | .comment | .newline => do
      accept t
      items fuel depth start full ts
    | .eof => .error (fault "unclosed array" [.literal "]"] t.span)
    | .comma =>
      if full then items fuel depth start false ts
      else .error (fault "extra comma in array" [.description "value"] t.span)
    | .equals =>
      .error (fault "unexpected `=` in array" [.description "value", .literal "]"] t.span)
    | .closeBracket => .ok (([], start.append t.span), ts)
    | .closeBrace =>
      .error (fault "missing inline table opening" [.literal "\x7b"] t.span.before)
    | _ =>
      if full then
        .error (fault "missing comma between array elements" [.literal ","] t.span.before)
      else do
        let (v, rest) ← value fuel depth (t :: ts)
        let ((vs, span), rest) ← items fuel depth start true rest
        pure ((v :: vs, span), rest)

/-- the entries of an inline table that begins at a span, and the table's span; `full` tells whether
an entry has just been read -/
def entries : Nat → Nat → Span → Bool → Reader (List (List Raw × RawValue) × Span)
  | 0, _, start, _, ts => .ok (([], start), ts)
  | _ + 1, _, start, _, [] => .ok (([], start), [])
  | fuel + 1, depth, start, full, t :: ts =>
    match t.kind with
    | .space => entries fuel depth start full ts
    | .comment | .newline => do
      accept t
      entries fuel depth start full ts
    | .eof => .error (fault "unclosed inline table" [.literal "\x7d"] t.span)
    | .comma =>
      if full then entries fuel depth start false ts
      else .error (fault "extra comma in inline table" [.description "key"] t.span.before)
    | .closeBrace => .ok (([], start.append t.span), ts)
    | .openBracket | .openBrace | .closeBracket =>
      if full then
        .error (fault "missing comma between key-value pairs" [.literal ","] t.span.before)
      else .error (fault "missing key for inline table element" [.description "key"] t.span.before)
    | _ =>
      if full then
        if t.kind = .equals then
          .error (fault "extra assignment between key-value pairs" [.literal ","] t.span.before)
        else
          .error (fault "missing comma between key-value pairs" [.literal ","] t.span.before)
      else do
        let ((k, _), rest) ← key (t :: ts)
        let rest ← entryValue rest
        let (v, rest) ← value fuel depth rest
        let ((es, span), rest) ← entries fuel depth start true rest
        pure (((k, v) :: es, span), rest)

end

/-! ## expressions -/

/-- a header whose first bracket has been read -/
def header (start : Span) (ts : List Token) : Except Fault (Expression × List Token) := do
  let (ofArray, opening, ts) : Bool × Span × List Token := match ts with
    | t :: rest =>
      if t.kind = .openBracket then (true, start.append t.span, rest) else (false, start, t :: rest)
    | [] => (false, start, [])
  let ((k, complete), rest) ← key ts
  match skipSpace rest with
  | [] => pure (.header ofArray opening k, [])
  | t :: rest =>
    if t.kind = .closeBracket then
      if ofArray then
        match rest with
        | u :: more =>
          if u.kind = .closeBracket then do
            let rest ← lineEnd more
            pure (.header true (start.append u.span) k, rest)
          else .error (fault "unclosed array table" [.literal "]"] t.span.after)
        | [] => .error (fault "unclosed array table" [.literal "]"] t.span.after)
      else do
        let rest ← lineEnd rest
        pure (.header false (start.append t.span) k, rest)
    else if complete then
      let last := (k.getLast?.map Raw.span).getD start
      if ofArray then .error (fault "unclosed array table" [.literal "]]"] last.after)
      else .error (fault "unclosed table" [.literal "]"] last.after)
    else do
      -- a key that is not there is the fault to report, and it is found when the key is read
      pure (.header ofArray (start.append t.span) k,
        (t :: rest).dropWhile fun t => t.kind != .newline && t.kind != .eof)

/-- a pair whose key comes next -/
def pair (ts : List Token) : Except Fault (Expression × List Token) := do
  let ((k, _), rest) ← key ts
  match skipSpace rest with
  | [] => pure (.pair k (.scalar (absent ⟨0, 0⟩)), [])
  | t :: rest =>
    if t.kind = .equals then do
      let rest := skipSpace rest
      let (v, rest) ← value (2 * rest.length + 2) 0 rest
      let rest ← lineEnd rest
      pure (.pair k v, rest)
    else .error (fault "key with no value" [.literal "="] t.span.before)

/-- the expressions of a document, within `fuel` steps -/
def expressions : Nat → List Token → Except Fault (List Expression)
  | 0, _ => .ok []
  | _ + 1, [] => .ok []
  | fuel + 1, t :: ts =>
    match t.kind with
    | .eof => .ok []
    | .space => expressions fuel ts
    | .comment | .newline => do
      accept t
      expressions fuel ts
    | .openBracket => do
      let (e, rest) ← header t.span ts
      let es ← expressions fuel rest
      pure (e :: es)
    | .closeBracket => .error (fault "missing table open" [.literal "["] t.span.before)
    | .comma | .openBrace | .closeBrace =>
      .error (fault "invalid key-value pair" [.description "key"] t.span.before)
    | _ => do
      let (e, rest) ← pair (t :: ts)
      let es ← expressions fuel rest
      pure (e :: es)

def parse (document : String) : Except Fault (List Expression) :=
  let ts := tokens document
  expressions (ts.length + 1) ts

end Document

end Toml
end AnnotationAudit
