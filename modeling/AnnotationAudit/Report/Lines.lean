import AnnotationAudit.Outcome
import AnnotationAudit.Report.Style
import AnnotationAudit.Text.Decimal

/-!
# Reports for readers

`Report.lines` has a line for each violation and for each failure, an empty line, and a summary; if
there is nothing to report it has one line that says so.
-/

namespace AnnotationAudit
namespace Report

/-- `path:line: message` -/
def violationLine (styled : Bool) (v : Violation) : String :=
  paint styled .bold v.file ++ paint styled .dimmed (":" ++ Text.decimal v.line ++ ":") ++ " " ++
    v.message

/-- `path:line: error: message`, or without the line -/
def failureLine (styled : Bool) (f : FileFailure) : String :=
  let place := match f.line with
    | some line => f.file ++ ":" ++ Text.decimal line ++ ":"
    | none => f.file ++ ":"
  paint styled .bold place ++ " " ++ paint styled .red "error:" ++ " " ++ f.message

def counted (n : Nat) (noun : String) : String :=
  Text.decimal n ++ " " ++ noun ++ (if n = 1 then "" else "s")

def summary (o : Outcome) : String :=
  "Found " ++ counted o.violations.length "missing annotation" ++ " in " ++
    counted o.filesWithViolations "file" ++
    (if o.failures.isEmpty then ""
     else " (" ++ counted o.failures.length "file" ++ " could not be checked)")

def lines (styled : Bool) (o : Outcome) : List String :=
  o.violations.map (violationLine styled) ++ o.failures.map (failureLine styled) ++
    (if o.isClean then [paint styled .green "No issues found"]
     else ["", paint styled .red (summary o)])

def text (styled : Bool) (o : Outcome) : String :=
  String.join ((lines styled o).map fun l => l ++ "\n")

end Report
end AnnotationAudit
