import AnnotationAudit.Text.Identifier
import AnnotationAudit.Text.Search
import AnnotationAudit.Text.Split

/-!
# Log records

* `LogRecord`        a message, how much it matters, and where it comes from;
* `LogFilter`        which records are written;
* `LogFilter.parse?` reads a filter: directives with commas between them, each a level, an area, or
  an area and its level.

Of several directives that name an area, the one with the longest name decides.
-/

namespace AnnotationAudit

/-- how much a record matters -/
inductive LogLevel where
  | error
  | warn
  | info
  | debug
  | trace
deriving DecidableEq, Repr, Inhabited

namespace LogLevel

/-- the number of a level; the higher, the less a record matters -/
def rank : LogLevel → Nat
  | .error => 1
  | .warn => 2
  | .info => 3
  | .debug => 4
  | .trace => 5

def label : LogLevel → String
  | .error => "ERROR"
  | .warn => "WARN"
  | .info => "INFO"
  | .debug => "DEBUG"
  | .trace => "TRACE"

end LogLevel

/-- where a record comes from -/
inductive LogArea where
  /-- the command line -/
  | cli
  /-- the selection of files -/
  | files
  /-- the check of the files -/
  | runner
deriving DecidableEq, Repr, Inhabited

def LogArea.name : LogArea → String
  | .cli => "pyleft::cli"
  | .files => "pyleft::detect::files"
  | .runner => "pyleft::detect::runner"

/-- a record of the log -/
structure LogRecord where
  level : LogLevel
  area : LogArea
  message : String
deriving DecidableEq, Repr, Inhabited

namespace LogRecord

/-- the record as it is written, without a time -/
def line (r : LogRecord) : String := r.level.label ++ " " ++ r.message

end LogRecord

/-- a directive of a filter: up to which level are the records of an area, or all, written? -/
structure LogDirective where
  area : String
  /-- the highest number of a level that is written -/
  upTo : Nat
deriving DecidableEq, Repr, Inhabited

abbrev LogFilter := List LogDirective

namespace LogFilter

def upTo (level : LogLevel) : LogFilter := [⟨"", level.rank⟩]

def levelNames : List (String × Nat) :=
  [("off", 0), ("error", 1), ("warn", 2), ("info", 3), ("debug", 4), ("trace", 5),
   ("0", 0), ("1", 1), ("2", 2), ("3", 3), ("4", 4), ("5", 5)]

/-- the number of the level of a name, whatever the case of its letters -/
def level? (s : List Char) : Option Nat :=
  (levelNames.find? fun l => l.1.toList == s.map Char.toLower).map Prod.snd

def isAreaChar (c : Char) : Bool := c == ':' || c == '-' || Text.isIdentifierPart c

def directive? (s : List Char) : Option LogDirective :=
  match level? s with
  | some n => some ⟨"", n⟩
  | none =>
    match Text.splitOn '=' s with
    | [area] => named area LogLevel.trace.rank
    | [area, []] => named area LogLevel.trace.rank
    | [area, level] => (level? level).bind (named area)
    | _ => none
where
  named (area : List Char) (n : Nat) : Option LogDirective :=
    if area.isEmpty || !area.all isAreaChar then none else some ⟨String.ofList area, n⟩

def directives? : List (List Char) → Option (List LogDirective)
  | [] => some []
  | s :: rest => do
    let d ← directive? s
    let ds ← directives? rest
    pure (d :: ds)

/-- the filter of a text; without directives, errors are written -/
def parse? (s : String) : Option LogFilter :=
  match directives? ((Text.splitOn ',' s.toList).filter fun part => !part.isEmpty) with
  | some [] => some (upTo .error)
  | other => other

/-- the directive that decides on an area: the last of those with the longest name -/
def decisive? (area : List Char) : LogFilter → Option LogDirective
  | [] => none
  | d :: rest =>
    match decisive? area rest with
    | some e =>
      if Text.startsWith d.area.toList area && e.area.length < d.area.length then some d else some e
    | none => if Text.startsWith d.area.toList area then some d else none

def writes (f : LogFilter) (r : LogRecord) : Bool :=
  match decisive? r.area.name.toList f with
  | some d => r.level.rank ≤ d.upTo
  | none => false

end LogFilter

end AnnotationAudit
