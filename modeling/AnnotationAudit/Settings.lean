import AnnotationAudit.Audit
import AnnotationAudit.Config

/-!
# Settings of a run

`Settings.merge` puts the settings of a document and of a command line together: the items of lists
one behind the other, and flags and the format from the command line if it gives them.
-/

namespace AnnotationAudit

/-- the settings of a run -/
structure Settings where
  files : List String
  exclude : List String
  noGitignore : Bool
  quiet : Bool
  verbose : Bool
  ignoreIfHasDefault : Bool
  format : ReportFormat
deriving DecidableEq, Repr, Inhabited

namespace Settings

/-- the items of two lists, one behind the other -/
def mergeList (file cli : Option StringList) : List String :=
  (file.map StringList.items).getD [] ++ (cli.map StringList.items).getD []

/-- the command line's flag, else the document's, else not set -/
def mergeFlag (file cli : Option Bool) : Bool := (cli <|> file).getD false

/-- the settings of a document and of a command line together; there must be files -/
def merge (file cli : Config) : Except ConfigError Settings :=
  let files := mergeList file.files cli.files
  if files.isEmpty then .error .noFiles
  else .ok
    { files
      exclude := mergeList file.exclude cli.exclude
      noGitignore := mergeFlag file.noGitignore cli.noGitignore
      quiet := mergeFlag file.quiet cli.quiet
      verbose := mergeFlag file.verbose cli.verbose
      ignoreIfHasDefault := mergeFlag file.ignoreIfHasDefault cli.ignoreIfHasDefault
      format := (cli.format <|> file.format).getD .text }

def audit (s : Settings) : AuditOptions := ⟨s.ignoreIfHasDefault⟩

end Settings

end AnnotationAudit
