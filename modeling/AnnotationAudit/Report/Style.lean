import AnnotationAudit.Text.Search

/-!
# Styled text

`paint` sets a text in a style of the terminal. A text that itself ends a style takes up the style
it stands in again.
-/

namespace AnnotationAudit
namespace Report

inductive Style where
  | bold
  | dimmed
  | red
  | green
deriving DecidableEq, Repr, Inhabited

def control (parameter : String) : List Char := Char.ofNat 27 :: '[' :: parameter.toList ++ ['m']

def Style.start : Style → List Char
  | .bold => control "1"
  | .dimmed => control "2"
  | .red => control "31"
  | .green => control "32"

/-- the control sequence that ends every style -/
def reset : List Char := control "0"

/-- `again` behind every reset of a text; the first `n` characters are passed over -/
def resumeFrom (again : List Char) : Nat → List Char → List Char
  | _, [] => []
  | 0, c :: cs =>
    if Text.startsWith reset (c :: cs) then c :: resumeFrom again (reset.length - 1) cs
    else c :: resumeFrom again 0 cs
  | 1, c :: cs => c :: again ++ resumeFrom again 0 cs
  | n + 2, c :: cs => c :: resumeFrom again (n + 1) cs

def paint (styled : Bool) (style : Style) (s : String) : String :=
  if styled then String.ofList (style.start ++ resumeFrom style.start 0 s.toList ++ reset)
  else s

theorem paint_false (style : Style) (s : String) : paint false style s = s := rfl

end Report
end AnnotationAudit
