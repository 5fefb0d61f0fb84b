import AnnotationAudit.Report.Document
import AnnotationAudit.Report.Lines
import AnnotationAudit.Report.Sarif

/-!
# Reports

`Report.render` writes an outcome in one of three formats.
-/

namespace AnnotationAudit

/-- the format of a report -/
inductive ReportFormat where
  /-- lines for readers -/
  | text
  | json
  | sarif
deriving DecidableEq, Repr, Inhabited

namespace ReportFormat

def all : List ReportFormat := [.text, .json, .sarif]

def id : ReportFormat → String
  | .text => "text"
  | .json => "json"
  | .sarif => "sarif"

def ofId? (s : String) : Option ReportFormat := all.find? fun f => f.id == s

end ReportFormat

/-- the report of an outcome; only lines for readers are styled -/
def Report.render (format : ReportFormat) (styled : Bool) (o : Outcome) : String :=
  match format with
  | .text => Report.text styled o
  | .json => Report.json o
  | .sarif => Report.sarif o

end AnnotationAudit
