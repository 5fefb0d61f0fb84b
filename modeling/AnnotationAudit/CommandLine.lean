import AnnotationAudit.CommandLine.Error
import AnnotationAudit.Config
import AnnotationAudit.Text.Bytes

/-!
# The command line

* `CommandLine`            what a command line asks for;
* `CommandLine.parse`      reads the arguments one by one;
* `CommandLine.overrides`  the settings that it gives.

Long options are written `--name value` or `--name=value`, short ones `-n value`, `-nvalue` or
`-n=value`, and short options without value can be joined. Behind `--` all arguments are files.

Arguments are bytes. Files and patterns must be texts; the path of the file with the settings need
not be one.
-/

namespace AnnotationAudit

/-- what a command line asks for -/
structure CommandLine where
  files : List String := []
  exclude : List String := []
  noGitignore : Bool := false
  quiet : Bool := false
  verbose : Bool := false
  ignoreIfHasDefault : Bool := false
  format : Option ReportFormat := none
  /-- the path of a file with settings -/
  config : Option Bytes := none
  noColor : Bool := false
deriving DecidableEq, Repr, Inhabited

namespace CommandLine

/-- the arguments read so far -/
structure Progress where
  result : CommandLine := {}
  /-- what has been given, in order -/
  used : List Slot := []
  /-- files, or an option with its value if that has been read already, not yet taken over into the
  result -/
  pending : Option (Slot × List Bytes) := none
  /-- are all further arguments files? -/
  trailing : Bool := false
deriving Inhabited

namespace Progress

def use (p : Progress) (s : Slot) : Progress :=
  if p.used.contains s then p else { p with used := p.used ++ [s] }

def setFlag (c : CommandLine) : Switch → CommandLine
  | .noGitignore => { c with noGitignore := true }
  | .quiet => { c with quiet := true }
  | .verbose => { c with verbose := true }
  | .ignoreIfHasDefault => { c with ignoreIfHasDefault := true }
  | .noColor => { c with noColor := true }
  | _ => c

def setValue (c : CommandLine) (s : Switch) (value : Bytes) : Except Error CommandLine :=
  match s with
  | .exclude =>
    match text? value with
    | some pattern => .ok { c with exclude := c.exclude ++ [pattern] }
    | none => .error .notText
  | .format =>
    if value.isEmpty then .error (.missingValue s)
    else
      match ReportFormat.ofId? (textOf value) with
      | some f => .ok { c with format := some f }
      | none => .error (.invalidValue s (textOf value))
  | .config =>
    if value.isEmpty then .error (.missingValue s) else .ok { c with config := some value }
  | _ => .ok c

/-- takes a slot over into the result; what has been given is known also behind an error -/
def take (p : Progress) (slot : Slot) (values : List Bytes) : Progress × Option Error :=
  match slot with
  | .files =>
    let p := p.use .files
    match values.mapM text? with
    | some files => ({ p with result := { p.result with files := p.result.files ++ files } }, none)
    | none => (p, some .notText)
  | .switch .help => (p, some .help)
  | .switch .version => (p, some .version)
  | .switch s =>
    if s.takesValue then
      match values with
      | [] => (p, some (.missingValue s))
      | value :: _ =>
        if s != .exclude && p.used.contains slot then
          ({ p with used := p.used.erase slot }, some (.repeated s))
        else
          let p := p.use slot
          match setValue p.result s value with
          | .ok result => ({ p with result }, none)
          | .error e => (p, some e)
    else if p.used.contains slot then ({ p with used := p.used.erase slot }, some (.repeated s))
    else
      let p := p.use slot
      ({ p with result := setFlag p.result s }, none)

def settle (p : Progress) : Progress × Option Error :=
  match p.pending with
  | none => (p, none)
  | some (slot, values) => { p with pending := none }.take slot values

def orError : Progress × Option Error → Except Error Progress
  | (p, none) => .ok p
  | (_, some e) => .error e

/-- takes over what is pending, then a slot -/
def react (p : Progress) (slot : Slot) (values : List Bytes) : Except Error Progress := do
  let p ← orError p.settle
  orError (p.take slot values)

/-- an option whose value is yet to come -/
def await (p : Progress) (s : Switch) : Except Error Progress := do
  let p ← orError p.settle
  pure { p with pending := some (.switch s, []) }

def file (p : Progress) (arg : Bytes) : Except Error Progress :=
  match p.pending with
  | some (.files, values) => .ok { p with pending := some (.files, values ++ [arg]) }
  | _ => do
    let p ← orError p.settle
    pure { p with pending := some (.files, [arg]) }

/-- an argument that is no option: the value that an option waits for, or a file -/
def plain (p : Progress) (arg : Bytes) : Except Error Progress :=
  match p.pending with
  | some (.switch s, []) => .ok { p with pending := some (.switch s, [arg]) }
  | _ => p.file arg

/-- a long option without its dashes, cut at its first equals sign -/
def cutLong : Bytes → Bytes × Option Bytes
  | [] => ([], none)
  | b :: bs =>
    if b = Text.equals then ([], some bs)
    else
      let (name, value) := cutLong bs
      (b :: name, value)

/-- a long option; no option has a name that is no text -/
def long (p : Progress) (body : Bytes) : Except Error Progress :=
  let (name, value) := cutLong body
  let name := textOf name
  match Switch.ofLong? name, value with
  | some s, none => if s.takesValue then p.await s else p.react (.switch s) []
  | some s, some value =>
    if s.takesValue then p.react (.switch s) [value]
    else .error (.unneededValue s (textOf value) (p.use (.switch s)).used)
  | none, _ =>
    let similar := Text.mostSimilar? name (Switch.all.map Switch.long)
    let p := p.settle.1
    let p := match similar.bind Switch.ofLong? with
      | some s => p.use (.switch s)
      | none => p
    .error (.unknown ("--" ++ name) similar p.used)

def shorts (p : Progress) : Bytes → Except Error Progress
  | [] => .ok p
  | b :: bs =>
    match Text.char? (b :: bs) with
    | none => .error (.unknown ("-" ++ textOf (b :: bs)) none [])
    | some c =>
      let rest := bs.drop (c.utf8Size - 1)
      match Switch.ofShort? c with
      | none => .error (.unknown (String.ofList ['-', c]) none [])
      | some s =>
        if s.takesValue then
          match rest with
          | [] => p.await s
          | e :: value =>
            if e = Text.equals then p.react (.switch s) [value]
            else p.react (.switch s) [e :: value]
        else do
          let p ← p.react (.switch s) []
          p.shorts rest
termination_by bs => bs.length
decreasing_by
  rw [List.length_drop, List.length_cons]
  omega

def step (p : Progress) (arg : Bytes) : Except Error Progress :=
  if p.trailing then p.file arg
  else
    match arg with
    | [] | [_] => p.plain arg
    | first :: second :: body =>
      if first ≠ Text.dash then p.plain arg
      else if second ≠ Text.dash then p.shorts (second :: body)
      else if body.isEmpty then .ok { p with trailing := true }
      else p.long body

def run : Progress → List Bytes → Except Error Progress
  | p, [] => .ok p
  | p, arg :: args => do
    let p ← p.step arg
    run p args

end Progress

def parse (args : List Bytes) : Except Error CommandLine := do
  let p ← Progress.run {} args
  let p ← Progress.orError p.settle
  pure p.result

def listOverride (items : List String) : Option StringList :=
  if items.isEmpty then none else some (.list items)

def flagOverride (b : Bool) : Option Bool := if b then some true else none

def overrides (c : CommandLine) : Config where
  files := listOverride c.files
  exclude := listOverride c.exclude
  noGitignore := flagOverride c.noGitignore
  quiet := flagOverride c.quiet
  verbose := flagOverride c.verbose
  ignoreIfHasDefault := flagOverride c.ignoreIfHasDefault
  format := c.format

end CommandLine

end AnnotationAudit
