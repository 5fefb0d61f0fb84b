import AnnotationAudit.Report

/-!
# Options of the command line

* `Switch`  an option, with its names and what it does;
* `Slot`    what an argument can belong to: the list of files, or an option;
* `usage`, `helpText`, `versionText`   what is told about the command line.
-/

namespace AnnotationAudit
namespace CommandLine

/-- an option -/
inductive Switch where
  | exclude
  | noGitignore
  | quiet
  | verbose
  | ignoreIfHasDefault
  | format
  | config
  | noColor
  | help
  | version
deriving DecidableEq, Repr, Inhabited

namespace Switch

def all : List Switch :=
  [.exclude, .noGitignore, .quiet, .verbose, .ignoreIfHasDefault, .format, .config, .noColor, .help,
    .version]

def long : Switch → String
  | .exclude => "exclude"
  | .noGitignore => "no-gitignore"
  | .quiet => "quiet"
  | .verbose => "verbose"
  | .ignoreIfHasDefault => "ignore-if-has-default"
  | .format => "format"
  | .config => "config"
  | .noColor => "no-color"
  | .help => "help"
  | .version => "version"

def short? : Switch → Option Char
  | .exclude => some 'e'
  | .quiet => some 'q'
  | .verbose => some 'v'
  | .format => some 'f'
  | .config => some 'c'
  | .help => some 'h'
  | .version => some 'V'
  | _ => none

def valueName? : Switch → Option String
  | .exclude => some "PATTERN"
  | .format => some "FORMAT"
  | .config => some "FILE"
  | _ => none

def takesValue (s : Switch) : Bool := s.valueName?.isSome

/-- the values to choose from, if not every value is allowed -/
def choices : Switch → List String
  | .format => ReportFormat.all.map ReportFormat.id
  | _ => []

def description : Switch → String
  | .exclude => "Gitignore-style pattern to exclude (repeatable)"
  | .noGitignore => "Don't exclude files listed in .gitignore"
  | .quiet => "Don't print any output"
  | .verbose => "Print debug information to stderr"
  | .ignoreIfHasDefault => "Don't require annotations on arguments that have a default value"
  | .format => "Output format"
  | .config => "Read settings from this TOML file instead of ./pyproject.toml"
  | .noColor => "Disable colored output"
  | .help => "Print help"
  | .version => "Print version"

def ofLong? (name : String) : Option Switch := all.find? fun s => s.long == name

def ofShort? (c : Char) : Option Switch := all.find? fun s => s.short? == some c

def shown (s : Switch) : String :=
  match s.valueName? with
  | some v => "--" ++ s.long ++ " <" ++ v ++ ">"
  | none => "--" ++ s.long

end Switch

/-- what an argument belongs to -/
inductive Slot where
  | files
  | switch (s : Switch)
deriving DecidableEq, Repr, Inhabited

/-! ## what is told about the command line -/

/-- how the program is called, where some arguments are given already -/
def usage (used : List Slot) : String :=
  let switches := used.filterMap fun
    | .switch s => some s.shown
    | .files => none
  if used.isEmpty then Report.toolName ++ " [OPTIONS] [FILES]..."
  else
    " ".intercalate (Report.toolName :: switches ++
      [if used.contains .files then "<FILES>..." else "[FILES]..."])

def usageLine (used : List Slot) : String := "Usage: " ++ usage used

def choiceList : List String → String
  | [] => ""
  | values => "[possible values: " ++ ", ".intercalate values ++ "]"

def helpNames (s : Switch) : String :=
  match s.short? with
  | some c => "  -" ++ String.singleton c ++ ", " ++ s.shown
  | none => "      " ++ s.shown

def helpWidth : Nat := (Switch.all.map fun s => (helpNames s).length).foldl max 0

def helpLine (s : Switch) : String :=
  let names := helpNames s
  let gap := String.ofList (List.replicate (helpWidth - names.length) ' ')
  let values := if s.choices.isEmpty then "" else " " ++ choiceList s.choices
  names ++ gap ++ "  " ++ s.description ++ values ++ "\n"

def programDescription : String :=
  "Python type annotation existence checker - " ++
    "finds functions missing argument or return annotations"

def helpText : String :=
  programDescription ++ "\n\n" ++ usageLine [] ++ "\n\n" ++
    "Arguments:\n  [FILES]...  Files or directories to check\n\n" ++
    "Options:\n" ++ String.join (Switch.all.map helpLine)

def versionText : String := Report.toolName ++ " " ++ packageVersion ++ "\n"

end CommandLine
end AnnotationAudit
