import AnnotationAudit.CommandLine.Switch
import AnnotationAudit.Text.Similarity

/-!
# Why a command line is not accepted

`CommandLine.Error` also covers the requests for help and for the version, which end the reading of
the command line as well.
-/

namespace AnnotationAudit
namespace CommandLine

inductive Error where
  /-- the option needs a value -/
  | missingValue (s : Switch)
  | invalidValue (s : Switch) (value : String)
  /-- the option may be given only once -/
  | repeated (s : Switch)
  /-- no option has this name; perhaps a similar one was meant -/
  | unknown (argument : String) (similar : Option String) (used : List Slot)
  /-- the option has no value -/
  | unneededValue (s : Switch) (value : String) (used : List Slot)
  /-- a value that must be a text is none -/
  | notText
  | help
  | version
deriving DecidableEq, Repr, Inhabited

/-- the classes of errors -/
inductive ErrorKind where
  | invalidValue
  | conflict
  | unknownArgument
  | tooManyValues
  | notText
  | help
  | version
deriving DecidableEq, Repr, Inhabited

namespace Error

def kind : Error → ErrorKind
  | .missingValue _ => .invalidValue
  | .invalidValue _ _ => .invalidValue
  | .repeated _ => .conflict
  | .unknown _ _ _ => .unknownArgument
  | .unneededValue _ _ _ => .tooManyValues
  | .notText => .notText
  | .help => .help
  | .version => .version

/-- the last line of every error -/
def hint : String := "\n\nFor more information, try '--help'.\n"

/-- the values to choose from, on a line of their own -/
def choiceLine (s : Switch) : String :=
  if s.choices.isEmpty then "" else "\n  " ++ choiceList s.choices

def tip (s : String) : String := "\n\n  tip: " ++ s

def message : Error → String
  | .missingValue s =>
    "error: a value is required for '" ++ s.shown ++ "' but none was supplied" ++ choiceLine s ++
      hint
  | .invalidValue s value =>
    let similar := match Text.mostSimilar? value s.choices with
      | some v => tip ("a similar value exists: '" ++ v ++ "'")
      | none => ""
    "error: invalid value '" ++ value ++ "' for '" ++ s.shown ++ "'" ++ choiceLine s ++ similar ++
      hint
  | .repeated s =>
    "error: the argument '" ++ s.shown ++ "' cannot be used multiple times\n\n" ++ usageLine [] ++
      hint
  | .unknown argument similar used =>
    let advice := match similar with
      | some s => tip ("a similar argument exists: '--" ++ s ++ "'")
      | none => tip ("to pass '" ++ argument ++ "' as a value, use '-- " ++ argument ++ "'")
    "error: unexpected argument '" ++ argument ++ "' found" ++ advice ++ "\n\n" ++ usageLine used ++
      hint
  | .unneededValue s value used =>
    "error: unexpected value '" ++ value ++ "' for '" ++ s.shown ++
      "' found; no more were expected\n\n" ++ usageLine used ++ hint
  | .notText =>
    "error: invalid UTF-8 was detected in one or more arguments\n\n" ++ usageLine [] ++ hint
  | .help => helpText
  | .version => versionText

end Error

end CommandLine
end AnnotationAudit
