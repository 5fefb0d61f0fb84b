import AnnotationAudit.Toml.Fault

/-!
# Tokens of TOML documents

`tokens` cuts a document into tokens that keep their text. Every text can be cut: what is wrong with
a token is found out when it is read. A string that is not closed ends before the end of its line,
or with the document if it may have several lines.
-/

namespace AnnotationAudit
namespace Toml

inductive TokenKind where
  | dot
  | equals
  | comma
  | openBracket
  | closeBracket
  | openBrace
  | closeBrace
  | space
  | comment
  | newline
  /-- a string between apostrophes -/
  | literal
  /-- a string between quotation marks -/
  | basic
  /-- a string between three apostrophes -/
  | longLiteral
  /-- a string between three quotation marks -/
  | longBasic
  /-- a run of other characters -/
  | atom
  /-- the end of the document -/
  | eof
deriving DecidableEq, Repr, Inhabited

structure Token where
  kind : TokenKind
  span : Span
  text : List Char
deriving DecidableEq, Repr, Inhabited

/-! ## strings -/

/-- the rest of a string between apostrophes, and what follows -/
def literalRest : List Char → List Char × List Char
  | [] => ([], [])
  | c :: cs =>
    if c = '\'' then ([c], cs)
    else if c = '\n' then ([], c :: cs)
    else
      let (body, rest) := literalRest cs
      (c :: body, rest)

/-- the rest of a string between quotation marks, and what follows; a backslash takes the quotation
mark or the backslash behind it along -/
def basicRest : List Char → List Char × List Char
  | [] => ([], [])
  | '\\' :: '"' :: cs =>
    let (body, rest) := basicRest cs
    ('\\' :: '"' :: body, rest)
  | '\\' :: '\\' :: cs =>
    let (body, rest) := basicRest cs
    ('\\' :: '\\' :: body, rest)
  | c :: cs =>
    if c = '"' then ([c], cs)
    else if c = '\n' then ([], c :: cs)
    else
      let (body, rest) := basicRest cs
      (c :: body, rest)

/-- up to two more closing quotes -/
def extraQuotes (q : Char) : List Char → List Char × List Char
  | a :: b :: cs =>
    if a = q then if b = q then ([a, b], cs) else ([a], b :: cs) else ([], a :: b :: cs)
  | [a] => if a = q then ([a], []) else ([], [a])
  | [] => ([], [])

/-- the rest of a string between three apostrophes, and what follows -/
def longLiteralRest : List Char → List Char × List Char
  | [] => ([], [])
  | '\'' :: '\'' :: '\'' :: cs =>
    let (more, rest) := extraQuotes '\'' cs
    ('\'' :: '\'' :: '\'' :: more, rest)
  | c :: cs =>
    let (body, rest) := longLiteralRest cs
    (c :: body, rest)

/-- the rest of a string between three quotation marks, and what follows -/
def longBasicRest : List Char → List Char × List Char
  | [] => ([], [])
  | '"' :: '"' :: '"' :: cs =>
    let (more, rest) := extraQuotes '"' cs
    ('"' :: '"' :: '"' :: more, rest)
  | '\\' :: '"' :: cs =>
    let (body, rest) := longBasicRest cs
    ('\\' :: '"' :: body, rest)
  | '\\' :: '\\' :: cs =>
    let (body, rest) := longBasicRest cs
    ('\\' :: '\\' :: body, rest)
  | c :: cs =>
    let (body, rest) := longBasicRest cs
    (c :: body, rest)

/-! ## tokens -/

def isSpace (c : Char) : Bool := c == ' ' || c == '\t'

def mark? (c : Char) : Option TokenKind :=
  if c = '.' then some .dot
  else if c = '=' then some .equals
  else if c = ',' then some .comma
  else if c = '[' then some .openBracket
  else if c = ']' then some .closeBracket
  else if c = '\x7b' then some .openBrace
  else if c = '\x7d' then some .closeBrace
  else if c = '\n' then some .newline
  else none

/-- does a character belong to a run of other characters? Quotes do. -/
def isAtomChar (c : Char) : Bool :=
  (mark? c).isNone && !isSpace c && c != '#' && c != '\r'

def scan (c : Char) (cs : List Char) : TokenKind × List Char × List Char :=
  match mark? c with
  | some kind => (kind, [c], cs)
  | none =>
    if isSpace c then (.space, c :: cs.takeWhile isSpace, cs.dropWhile isSpace)
    else if c = '#' then
      let inside (x : Char) : Bool := x != '\n' && x != '\r'
      (.comment, c :: cs.takeWhile inside, cs.dropWhile inside)
    else if c = '\r' then
      match cs with
      | '\n' :: rest => (.newline, ['\r', '\n'], rest)
      | _ => (.newline, [c], cs)
    else if c = '\'' then
      match cs with
      | '\'' :: '\'' :: rest =>
        let (body, rest) := longLiteralRest rest
        (.longLiteral, '\'' :: '\'' :: '\'' :: body, rest)
      | _ =>
        let (body, rest) := literalRest cs
        (.literal, c :: body, rest)
    else if c = '"' then
      match cs with
      | '"' :: '"' :: rest =>
        let (body, rest) := longBasicRest rest
        (.longBasic, '"' :: '"' :: '"' :: body, rest)
      | _ =>
        let (body, rest) := basicRest cs
        (.basic, c :: body, rest)
    else (.atom, c :: cs.takeWhile isAtomChar, cs.dropWhile isAtomChar)

/-- the tokens of a text that begins at a byte, within `fuel` tokens -/
def tokensFrom : Nat → Nat → List Char → List Token
  | 0, here, _ => [⟨.eof, ⟨here, here⟩, []⟩]
  | _ + 1, here, [] => [⟨.eof, ⟨here, here⟩, []⟩]
  | fuel + 1, here, c :: cs =>
    let (kind, text, rest) := scan c cs
    let stop := here + Fault.byteLength text
    ⟨kind, ⟨here, stop⟩, text⟩ :: tokensFrom fuel stop rest

/-- the mark of the byte order, which may stand before everything else -/
def byteOrderMark : Char := Char.ofNat 0xFEFF

def tokens (document : String) : List Token :=
  match document.toList with
  | [] => tokensFrom 0 0 []
  | c :: cs =>
    if c = byteOrderMark then tokensFrom cs.length 3 cs
    else tokensFrom (cs.length + 1) 0 (c :: cs)

end Toml
end AnnotationAudit
