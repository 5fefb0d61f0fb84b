import AnnotationAudit.Text.Decimal
import AnnotationAudit.Text.Split

/-!
# Faults of TOML documents

* `Span`          a part of a document, in bytes;
* `Fault`         what is wrong, and where;
* `Fault.render`  the fault for a reader: its place, the line with the place marked, and the
                  description.
-/

namespace AnnotationAudit
namespace Toml

/-- the bytes from `start` up to `stop` -/
structure Span where
  start : Nat
  stop : Nat
deriving DecidableEq, Repr, Inhabited

namespace Span

def before (s : Span) : Span := ⟨s.start, s.start⟩

def after (s : Span) : Span := ⟨s.stop, s.stop⟩

/-- from the beginning of the first part to the end of the second -/
def append (s t : Span) : Span := ⟨s.start, t.stop⟩

/-- the bytes from `a` up to `b` of a part -/
def sub (s : Span) (a b : Nat) : Span := ⟨s.start + a, s.start + b⟩

end Span

/-- what could have stood at the place of a fault -/
inductive Expected where
  | literal (s : String)
  | description (s : String)
deriving DecidableEq, Repr, Inhabited

def Expected.message : Expected → String
  | .literal s => if s = "\n" then "newline" else "`" ++ s ++ "`"
  | .description s => s

/-- what is wrong with a document, and where -/
structure Fault where
  what : String
  /-- what could have stood there, if that is known -/
  expected : Option (List Expected)
  span : Span
deriving DecidableEq, Repr, Inhabited

namespace Fault

def message (f : Fault) : String :=
  match f.expected with
  | none => f.what
  | some [] => f.what ++ ", expected nothing"
  | some es => f.what ++ ", expected " ++ ", ".intercalate (es.map Expected.message)

/-! ## places -/

def byteLength : List Char → Nat
  | [] => 0
  | c :: cs => c.utf8Size + byteLength cs

/-- where a byte stands: its line and its column, both from zero. Columns count characters, but
bytes if the byte belongs to a character of several bytes that is not complete with it. -/
def placeFrom (index line start column : Nat) : Nat → List Char → Nat × Nat
  | _, [] => (line, column)
  | here, c :: cs =>
    let next := here + c.utf8Size
    if index < next then
      if index + 1 = next then (line, column) else (line, index - start)
    else if c = '\n' then placeFrom index (line + 1) next 0 next cs
    else placeFrom index line start (column + 1) next cs

/-- the line and the column of an offset, both from zero; the end of the text is one column behind
its last byte -/
def place (text : List Char) (offset : Nat) : Nat × Nat :=
  let size := byteLength text
  if size = 0 then (0, offset)
  else if offset < size then placeFrom offset 0 0 0 0 text
  else
    let (line, column) := placeFrom (size - 1) 0 0 0 0 text
    (line, column + (offset - (size - 1)))

/-- a fault in a document, over several lines; the last line is the description -/
def render (f : Fault) (document : String) : String :=
  let text := document.toList
  let (line, column) := place text f.span.start
  let number := Text.decimal (line + 1)
  let content := (Text.splitOn '\n' text)[line]?.getD []
  let gutter := String.ofList (List.replicate (number.length + 1) ' ')
  let marks := min (f.span.stop - f.span.start) (byteLength content - column)
  "TOML parse error at line " ++ number ++ ", column " ++ Text.decimal (column + 1) ++ "\n" ++
    gutter ++ "|\n" ++
    number ++ " | " ++ String.ofList content ++ "\n" ++
    gutter ++ "|" ++ String.ofList (List.replicate (column + 1) ' ') ++
    String.ofList (List.replicate (max marks 1) '^') ++ "\n" ++
    f.message ++ "\n"

end Fault

end Toml
end AnnotationAudit
