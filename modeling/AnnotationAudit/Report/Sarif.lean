import AnnotationAudit.Json.Value
import AnnotationAudit.Outcome
import AnnotationAudit.Report.Document
import AnnotationAudit.Text.Search

/-!
# Reports in the interchange format SARIF

`Report.sarif` lists the rules of the audit and a result for each violation. Lines are counted from
one, and paths have slashes.
-/

namespace AnnotationAudit
namespace Report

def sarifVersion : String := "2.1.0"

def sarifSchema : String :=
  "https://raw.githubusercontent.com/oasis-tcs/sarif-spec/master/Schemata/sarif-schema-2.1.0.json"

def toolName : String := "pyleft"

/-- the level of every rule and every result -/
def sarifLevel : String := "error"

def ruleTitle : ViolationRule → String
  | .missingArgument => "MissingArgumentAnnotation"
  | .missingReturn => "MissingReturnAnnotation"

def ruleDescription : ViolationRule → String
  | .missingArgument => "Function argument has no type annotation"
  | .missingReturn => "Function has no return type annotation"

def sarifMessage (text : String) : Json := .object [("text", .text text)]

def sarifRule (r : ViolationRule) : Json :=
  .object [("id", .text r.id), ("name", .text (ruleTitle r)),
    ("shortDescription", sarifMessage (ruleDescription r)),
    ("defaultConfiguration", .object [("level", .text sarifLevel)])]

def sarifLocation (v : Violation) : Json :=
  .object [("physicalLocation", .object [
    ("artifactLocation", .object [("uri", .text (Text.replaceChar '\\' '/' v.file))]),
    ("region", .object [("startLine", .number (max v.line 1))])])]

def sarifResult (v : Violation) : Json :=
  .object [("ruleId", .text v.rule.id), ("level", .text sarifLevel),
    ("message", sarifMessage v.message), ("locations", .array [sarifLocation v])]

def sarifDocument (o : Outcome) : Json :=
  .object [("version", .text sarifVersion), ("$schema", .text sarifSchema),
    ("runs", .array [.object [
      ("tool", .object [("driver", .object [("name", .text toolName),
        ("version", .text packageVersion),
        ("rules", .array (ViolationRule.all.map sarifRule))])]),
      ("results", .array (o.violations.map sarifResult))]])]

def sarif (o : Outcome) : String := (sarifDocument o).pretty ++ "\n"

end Report
end AnnotationAudit
