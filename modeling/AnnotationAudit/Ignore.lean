import AnnotationAudit.Files.Access
import AnnotationAudit.Ignore.Rule
import AnnotationAudit.Text.Decimal

/-!
# Ignore lists

* `IgnoreList`          rules that hold below a directory;
* `IgnoreList.verdict`  what the rules say of a path: the last rule that covers it decides, and if
  none does, its parent is looked at;
* `IgnoreList.ignores`  does the list ignore a path below its directory?

`IgnoreList.ofPatterns` and `IgnoreList.ofContent` read a list. A line that is no rule is left out,
and all others hold.
-/

namespace AnnotationAudit

/-- what rules say of a path -/
inductive Verdict where
  | ignored
  | readmitted
deriving DecidableEq, Repr, Inhabited

/-- rules that hold below a directory -/
structure IgnoreList where
  directory : Path
  rules : List IgnoreRule
deriving Repr, Inhabited

namespace IgnoreList

/-! ## what a list says -/

def lastVerdict (path : Bytes) (isDirectory : Bool) : List IgnoreRule → Option Verdict
  | [] => none
  | r :: rules =>
    lastVerdict path isDirectory rules <|>
      if r.covers path isDirectory then some (if r.readmits then .readmitted else .ignored)
      else none

def pathBytes (names : List Bytes) : Bytes := Text.joinWith Text.slash names

/-- the verdict on a path, or else on the nearest of its parents with one; the names are given from
the last to the first -/
def verdictUp (rules : List IgnoreRule) : List Bytes → Bool → Option Verdict
  | [], isDirectory => lastVerdict (pathBytes []) isDirectory rules
  | name :: up, isDirectory =>
    lastVerdict (pathBytes (name :: up).reverse) isDirectory rules <|> verdictUp rules up true

def verdict (l : IgnoreList) (names : List Bytes) (isDirectory : Bool) : Option Verdict :=
  verdictUp l.rules names.reverse isDirectory

/-- is a path below the directory of the list, and ignored? -/
def ignores (l : IgnoreList) (p : Path) (isDirectory : Bool) : Bool :=
  match p.relativeTo? l.directory with
  | some rest => !rest.isEmpty && l.verdict rest.segments isDirectory == some .ignored
  | none => false

/-! ## reading lists -/

/-- the rules of lines, and the errors of those that are none with their numbers -/
def readLines (n : Nat) : List String → List IgnoreRule × List (Nat × RuleError)
  | [] => ([], [])
  | line :: lines =>
    let (rules, errors) := readLines (n + 1) lines
    match IgnoreRule.ofLine line with
    | .ok (some r) => (r :: rules, errors)
    | .ok none => (rules, errors)
    | .error e => (rules, (n, e) :: errors)

/-- the list of patterns, and the errors of those that are no rules -/
def ofPatterns (directory : Path) (patterns : List String) :
    IgnoreList × List (Nat × RuleError) :=
  let (rules, errors) := readLines 1 patterns
  (⟨directory, rules⟩, errors)

/-- a line without the marks of byte order at its beginning -/
def dropMarks (line : String) : String :=
  String.ofList (line.toList.dropWhile fun c => c.toNat == 0xFEFF)

/-- lines, the first without marks of byte order -/
def plainLines : List String → List String
  | [] => []
  | line :: lines => dropMarks line :: lines

def faultLine (file : String) (n : Nat) (message : String) : String :=
  file ++ ": line " ++ Text.decimal n ++ ": " ++ message

/-- the list of an ignore file, and its faults in words -/
def ofContent (directory : Path) (file : String) (content : FileContent) :
    IgnoreList × List String :=
  let (lines, complete) := content.readLines
  let (rules, errors) := readLines 1 (plainLines lines)
  let faults := errors.map fun e => faultLine file e.1 e.2.message
  let last :=
    if complete then [] else [faultLine file (lines.length + 1) AccessError.notText.message]
  (⟨directory, rules⟩, faults ++ last)

end IgnoreList

end AnnotationAudit
