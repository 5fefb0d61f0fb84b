import AnnotationAudit.Audit
import AnnotationAudit.Files.Access
import AnnotationAudit.Log
import AnnotationAudit.Outcome
import AnnotationAudit.Outline
import AnnotationAudit.Text.Decimal

/-!
# Checking files

`Checker.run` checks files one by one and puts their outcomes together. A file that cannot be read
or is refused is a failure, and does not keep the others from being checked.
-/

namespace AnnotationAudit

/-- what files are checked for, and how their paths are shown -/
structure Checker where
  tree : FileTree
  /-- the directory that paths are shown relative to -/
  base : Path
  options : AuditOptions := {}
deriving Repr, Inhabited

namespace Checker

/-- a checker whose base is a location, if the directory exists -/
def ofBase (tree : FileTree) (base : Path) (options : AuditOptions) : Checker :=
  let base := match tree.canonical base with
    | .ok p => p
    | .error _ => base
  ⟨tree, base, options⟩

def checkText (c : Checker) (shown text : String) : Outcome :=
  match Outline.parse shown text with
  | .ok o => ⟨o.violations c.options, [], 1⟩
  | .error e => Outcome.empty.addFailure (.ofParse shown (some e.line) e.message)

def checkFile (c : Checker) (p : Path) : Outcome :=
  let shown := c.base.shown p
  match c.tree.readText p with
  | .error e => Outcome.empty.addFailure (.ofResolution shown ("cannot read file: " ++ e.message))
  | .ok text => c.checkText shown text

/-- the outcome of files, in their order -/
def run (c : Checker) (files : List Path) : Outcome :=
  files.foldl (fun o p => o.merge (c.checkFile p)) .empty

/-- what the log says of an outcome: the texts that were refused, and a summary -/
def log (o : Outcome) : List LogRecord :=
  let refused := o.failures.filter fun f => f.kind == .parse
  let refusals := refused.map fun f =>
    (⟨.debug, .runner, "Failed to parse " ++ f.file ++ ": " ++ f.message⟩ : LogRecord)
  let summary := "Checked " ++ Text.decimal o.scanned ++ " files: " ++
    Text.decimal o.violations.length ++ " violations, " ++ Text.decimal o.failures.length ++
    " failures"
  refusals ++ [⟨.debug, .runner, summary⟩]

end Checker

end AnnotationAudit
