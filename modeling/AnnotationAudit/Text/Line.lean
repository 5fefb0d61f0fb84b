/-!
# Lines of a text

`lines` are the pieces of a text that a line feed ends, and what follows the last one if there is
something. A carriage return before the line feed does not belong to the line.
-/

namespace AnnotationAudit
namespace Text

/-- a line without the carriage return at its end; the line is given backwards -/
def ended : List Char → List Char
  | '\r' :: line => line.reverse
  | line => line.reverse

/-- the lines of a text; `line` is the one under way, backwards -/
def linesFrom : List Char → List Char → List (List Char)
  | line, [] => if line.isEmpty then [] else [line.reverse]
  | line, c :: cs => if c = '\n' then ended line :: linesFrom [] cs else linesFrom (c :: line) cs

def lines (s : String) : List String := (linesFrom [] s.toList).map String.ofList

end Text
end AnnotationAudit
