import AnnotationAudit.Check
import AnnotationAudit.CommandLine
import AnnotationAudit.Selection
import AnnotationAudit.Settings

/-!
# Executing a command

* `Config.ofFile`, `Config.discover`  the settings in a file, and in the project's file;
* `Settings.execute`                  selects, checks and reports;
* `Surroundings.run`                  the whole program: arguments in, texts and an exit code out.

The exit code is 0 if nothing is to be complained about, 1 if something is, and 2 if no check was
made.
-/

namespace AnnotationAudit

/-! ## settings in files -/

def projectFileName : Bytes := "pyproject.toml"

/-- the settings in a file; the label names it in errors -/
def Config.ofFile (tree : FileTree) (p : Path) (label : String) : Except ConfigError Config :=
  match tree.readText p with
  | .error e => .error (.read label e.message)
  | .ok text => Config.parse text label

/-- the settings in the file of the project in a directory, if there is one -/
def Config.discover (tree : FileTree) (directory : Path) : Except ConfigError Config :=
  let file := directory.child projectFileName
  if tree.isFile file then Config.ofFile tree file file.toString else .ok {}

/-! ## execution -/

/-- what an execution leaves behind -/
structure Execution where
  code : Nat
  /-- the report -/
  output : String
  log : List LogRecord
deriving DecidableEq, Repr, Inhabited

namespace Settings

/-- the outcome of a selection and of the check of its files: inputs without files come first -/
def outcome (selection : Selection) (checked : Outcome) : Outcome :=
  { checked with failures := selection.failures ++ checked.failures }

def inputs (s : Settings) : List Path := s.files.map .ofString

def execute (s : Settings) (tree : FileTree) (directory : Path) (styled : Bool) : Execution :=
  let selector := Selector.ofBase tree directory s.exclude (!s.noGitignore)
  let selection := selector.select s.inputs
  let checking := selection.files.map fun p =>
    (⟨.debug, .cli, "Checking " ++ selector.shown p⟩ : LogRecord)
  let checked := (Checker.ofBase tree selector.base s.audit).run selection.files
  let result := outcome selection checked
  { code := if result.isClean then 0 else 1
    output := if s.quiet then "" else Report.render s.format styled result
    log := selection.log ++ checking ++ Checker.log checked }

def formatName : ReportFormat → String
  | .text => "Text"
  | .json => "Json"
  | .sarif => "Sarif"

def flagName (b : Bool) : String := if b then "true" else "false"

def listed (items : List String) : String :=
  "[" ++ ", ".intercalate (items.map Text.quoted) ++ "]"

def shown (s : Settings) : String :=
  "Settings \x7b files: " ++ listed s.files ++ ", exclude: " ++ listed s.exclude ++
    ", no_gitignore: " ++ flagName s.noGitignore ++ ", quiet: " ++ flagName s.quiet ++
    ", verbose: " ++ flagName s.verbose ++ ", ignore_if_has_default: " ++
    flagName s.ignoreIfHasDefault ++ ", format: " ++ formatName s.format ++ " \x7d"

end Settings

/-! ## the program -/

/-- what surrounds the program -/
structure Surroundings where
  tree : FileTree
  /-- the working directory -/
  directory : Path
  /-- the filter of the log, if one is given -/
  logFilter : Option String := none
  /-- is styled output asked for, although nobody may read it? -/
  forceStyle : Option String := none
deriving Repr, Inhabited

namespace Surroundings

/-- the settings in the project's file, or in the file that the command line names -/
def config (w : Surroundings) (c : CommandLine) : Except ConfigError Config :=
  match c.config with
  | some file => Config.ofFile w.tree (w.directory.join (.ofBytes file)) (textOf file)
  | none => Config.discover w.tree w.directory

/-- the settings of a command line and of its file together -/
def settings (w : Surroundings) (c : CommandLine) : Except ConfigError Settings := do
  let file ← w.config c
  Settings.merge file c.overrides

/-- is output styled? A value of `0` is as good as none. -/
def styled (w : Surroundings) (c : CommandLine) : Bool :=
  !c.noColor && w.forceStyle.any fun s => s != "0"

/-- the records that are written -/
def filter (w : Surroundings) (s : Settings) : LogFilter :=
  if s.verbose then .upTo .debug else (w.logFilter.bind LogFilter.parse?).getD (.upTo .warn)

end Surroundings

/-- what the program leaves behind -/
structure Response where
  code : Nat
  output : String := ""
  /-- what is written apart from the output, before the log -/
  complaint : String := ""
  log : List LogRecord := []
deriving DecidableEq, Repr, Inhabited

namespace Response

/-- what is answered to arguments that are not accepted, and to the requests for help and for the
version -/
def ofArgumentError (e : CommandLine.Error) : Response :=
  match e.kind with
  | .help | .version => ⟨0, e.message, "", []⟩
  | _ => ⟨2, "", e.message, []⟩

def ofConfigError (e : ConfigError) : Response := ⟨2, "", "Error: " ++ e.message ++ "\n", []⟩

end Response

namespace Surroundings

/-- the program with a command line that has been read -/
def respond (w : Surroundings) (c : CommandLine) : Response :=
  match w.settings c with
  | .error e => .ofConfigError e
  | .ok s =>
    let x := s.execute w.tree w.directory (w.styled c)
    let log := ⟨.debug, .cli, "Settings: " ++ s.shown⟩ :: x.log
    ⟨x.code, x.output, "", log.filter (w.filter s).writes⟩

def run (w : Surroundings) (args : List Bytes) : Response :=
  match CommandLine.parse args with
  | .error e => .ofArgumentError e
  | .ok c => w.respond c

end Surroundings

end AnnotationAudit
