import AnnotationAudit.Mismatch
import AnnotationAudit.Report
import AnnotationAudit.Text.Blank
import AnnotationAudit.Toml.Value

/-!
# Configuration

* `Config`          the settings that a document or a command line gives; each may be left out;
* `Config.parse`    the settings in the table `tool.pyleft` of a TOML document;
* `ConfigError`     why there are none.

A table is read in the order of its keys, so that the first key with a wrong value is reported, and
keys that are no settings are passed over. Instead of a table its values may be given as an array,
in the order of the settings.
-/

namespace AnnotationAudit

/-- a list, written as an array or as words -/
inductive StringList where
  | list (items : List String)
  | words (text : String)
deriving DecidableEq, Repr, Inhabited

/-- the items of a list; words are parted by blanks -/
def StringList.items : StringList → List String
  | .list items => items
  | .words text => Text.words text

/-- settings, each of which may be left out -/
structure Config where
  files : Option StringList := none
  exclude : Option StringList := none
  noGitignore : Option Bool := none
  quiet : Option Bool := none
  verbose : Option Bool := none
  ignoreIfHasDefault : Option Bool := none
  format : Option ReportFormat := none
deriving DecidableEq, Repr, Inhabited

/-! ## reading -/

namespace Config

open Toml (Fault Span Key Scalar Value Entries)

def mismatch (span : Span) (m : Mismatch) : Fault := ⟨m.message, none, span⟩

def plain (span : Span) (message : String) : Fault := ⟨message, none, span⟩

/-- does an integer fit into 64 bits, with a sign or without? -/
def isWord (n : Int) : Bool := -(Nat.pow 2 63 : Int) ≤ n && n < (Nat.pow 2 64 : Int)

/-- does an integer fit into 128 bits, with a sign or without? -/
def isDoubleWord (n : Int) : Bool := -(Nat.pow 2 127 : Int) ≤ n && n < (Nat.pow 2 128 : Int)

/-- the fault of a number that cannot be represented -/
def overflow? (span : Span) : Scalar → Option Fault
  | .integer n => if isDoubleWord n then none else some (plain span "integer number overflowed")
  | .float digits =>
    if (Toml.floatOf? digits).isSome then none
    else some (plain span "floating-point number overflowed")
  | _ => none

/-- the value, as it is named where something else is expected -/
def found : Value → Found
  | .scalar (.text s) => .text s
  | .scalar (.integer n) => if isWord n then .integer n else .wideInteger n
  | .scalar (.float digits) => .float (Text.plainFloat ((Toml.floatOf? digits).getD 0))
  | .scalar (.boolean b) => .boolean b
  | .scalar .datetime => .map
  | .array _ _ => .sequence
  | .table _ _ => .map

def wrongType (expected : String) (span : Span) (v : Value) : Fault :=
  let named := mismatch span (.invalidType (found v) expected)
  match v with
  | .scalar s => (overflow? span s).getD named
  | _ => named

def readFlag (span : Span) : Value → Except Fault Bool
  | .scalar (.boolean b) => .ok b
  | v => .error (wrongType "a boolean" span v)

mutual

/-- the fault of a value that is passed over: a number that cannot be represented -/
def ignoreFault? (span : Span) : Value → Option Fault
  | .scalar s => overflow? span s
  | .array _ items => ignoreItems? items
  | .table _ entries => ignoreEntries? entries

def ignoreItems? : List (Span × Value) → Option Fault
  | [] => none
  | (span, v) :: rest => ignoreFault? span v <|> ignoreItems? rest

def ignoreEntries? : List (Key × Span × Value) → Option Fault
  | [] => none
  | (_, span, v) :: rest => ignoreFault? span v <|> ignoreEntries? rest

end

mutual

/-- the fault of a value that is kept until it is known what it stands for: a number of more than 64
bits -/
def keepFault? (span : Span) : Value → Option Fault
  | .scalar (.integer n) =>
    if isWord n then none else some (wrongType "any value" span (.scalar (.integer n)))
  | .scalar s => overflow? span s
  | .array _ items => keepItems? items
  | .table _ entries => keepEntries? entries

def keepItems? : List (Span × Value) → Option Fault
  | [] => none
  | (span, v) :: rest => keepFault? span v <|> keepItems? rest

def keepEntries? : List (Key × Span × Value) → Option Fault
  | [] => none
  | (_, span, v) :: rest => keepFault? span v <|> keepEntries? rest

end

/-- the texts of an array, if it holds nothing else -/
def texts? : List (Span × Value) → Option (List String)
  | [] => some []
  | (_, .scalar (.text s)) :: rest => (texts? rest).map (s :: ·)
  | _ :: _ => none

def readList (span : Span) (v : Value) : Except Fault StringList :=
  let neither : Fault :=
    plain span "data did not match any variant of untagged enum StringList"
  match keepFault? span v with
  | some f => .error f
  | none =>
    match v with
    | .scalar (.text s) => .ok (.words s)
    | .array _ items =>
      match texts? items with
      | some items => .ok (.list items)
      | none => .error neither
    | _ => .error neither

def readFormatName (span : Span) (name : String) : Except Fault ReportFormat :=
  match ReportFormat.ofId? name with
  | some f => .ok f
  | none => .error (mismatch span (.unknownVariant name (ReportFormat.all.map ReportFormat.id)))

/-- a format, as its name or as a table with its name for the only key -/
def readFormat (span : Span) : Value → Except Fault ReportFormat
  | .scalar (.text s) => readFormatName span s
  | .table _ [] => .error (plain span "wanted exactly 1 element, found 0 elements")
  | .table _ [(key, inner, v)] => do
    let f ← readFormatName key.span key.name
    match v with
    | .array _ [] | .table _ [] => pure f
    | .array _ _ => .error (plain inner "expected empty array")
    | .table _ _ => .error (plain inner "expected empty table")
    | .scalar _ => .error (plain inner ("expected table, found " ++ v.typeName))
  | .table _ _ => .error (plain span "wanted exactly 1 element, more than 1 element")
  | _ => .error (plain span "wanted string or table")

def settingNames : List String :=
  ["files", "exclude", "no-gitignore", "quiet", "verbose", "ignore-if-has-default", "format"]

def readSetting (c : Config) (name : String) (span : Span) (v : Value) : Except Fault Config :=
  match name with
  | "files" => do
    let files ← readList span v
    pure { c with files }
  | "exclude" => do
    let exclude ← readList span v
    pure { c with exclude }
  | "no-gitignore" => do
    let noGitignore ← readFlag span v
    pure { c with noGitignore }
  | "quiet" => do
    let quiet ← readFlag span v
    pure { c with quiet }
  | "verbose" => do
    let verbose ← readFlag span v
    pure { c with verbose }
  | "ignore-if-has-default" => do
    let ignoreIfHasDefault ← readFlag span v
    pure { c with ignoreIfHasDefault }
  | "format" => do
    let format ← readFormat span v
    pure { c with format }
  | _ =>
    match ignoreFault? span v with
    | some f => .error f
    | none => pure c

def readEntries : Config → List (Key × Span × Value) → Except Fault Config
  | c, [] => .ok c
  | c, (key, span, v) :: rest => do
    let c ← readSetting c key.name span v
    readEntries c rest

/-- the settings of an array -/
def readItems : Config → List String → List (Span × Value) → Except Fault Config
  | c, name :: names, (span, v) :: rest => do
    let c ← readSetting c name span v
    readItems c names rest
  | c, _, _ => .ok c

def ofValue (span : Span) : Value → Except Fault Config
  | .table _ entries => readEntries {} entries
  | .array _ items => readItems {} settingNames items
  | .scalar .datetime => .ok {}
  | v => .error (wrongType "struct FileConfig" span v)

def ofTool : List (Key × Span × Value) → Except Fault Config
  | [] => .ok {}
  | (key, span, v) :: rest =>
    if key.name = "pyleft" then do
      let c ← ofValue span v
      match ignoreEntries? rest with
      | some f => .error f
      | none => pure c
    else
      match ignoreFault? span v with
      | some f => .error f
      | none => ofTool rest

def ofToolValue (span : Span) : Value → Except Fault Config
  | .table _ entries => ofTool entries
  | .array _ [] => .ok {}
  | .array _ ((inner, v) :: _) => ofValue inner v
  | .scalar .datetime => .ok {}
  | v => .error (wrongType "struct ToolTable" span v)

def ofEntries : List (Key × Span × Value) → Except Fault Config
  | [] => .ok {}
  | (key, span, v) :: rest =>
    if key.name = "tool" then do
      let c ← ofToolValue span v
      match ignoreEntries? rest with
      | some f => .error f
      | none => pure c
    else
      match ignoreFault? span v with
      | some f => .error f
      | none => ofEntries rest

end Config

/-! ## errors -/

/-- why there are no settings -/
inductive ConfigError where
  /-- the file cannot be read -/
  | read (path : String) (reason : String)
  /-- the document is wrong; the text says where and why -/
  | parse (label : String) (reason : String)
  /-- nothing is to be checked -/
  | noFiles
deriving DecidableEq, Repr, Inhabited

def ConfigError.message : ConfigError → String
  | .read path reason => "failed to read " ++ path ++ ": " ++ reason
  | .parse label reason => "failed to parse " ++ label ++ ": " ++ reason
  | .noFiles =>
    "no files to check: pass paths on the command line or set `files` in [tool.pyleft]"

/-- the settings of a document; the label names it in errors -/
def Config.parse (document label : String) : Except ConfigError Config :=
  match Toml.parse document >>= Config.ofEntries with
  | .ok c => .ok c
  | .error f => .error (.parse label (f.render document))

end AnnotationAudit
