import AnnotationAudit.Ignore.Matching
import AnnotationAudit.Text.Blank
import AnnotationAudit.Text.Search

/-!
# Ignore rules

A line of an ignore file is a rule: a glob, with some marks around it.

* a line that begins with `#` is a comment, and blanks at its end do not count unless the last one
  is escaped;
* `!` at the beginning readmits what earlier rules ignore;
* a slash at the beginning, or inside, ties the glob to the directory of the file; any other glob is
  matched below every directory;
* a slash at the end restricts the rule to directories.

`IgnoreRule.ofLine` reads a line, and `IgnoreRule.covers` applies a rule to a path.
-/

namespace AnnotationAudit

/-- a rule of an ignore file -/
structure IgnoreRule where
  glob : List GlobToken
  /-- are paths readmitted rather than ignored? -/
  readmits : Bool
  onlyDirectories : Bool
deriving Repr, Inhabited

/-- a line that is no rule -/
structure RuleError where
  line : String
  cause : GlobError
deriving DecidableEq, Repr, Inhabited

def RuleError.message (e : RuleError) : String :=
  "error parsing glob '" ++ e.line ++ "': " ++ e.cause.message

namespace IgnoreRule

/-- the line without the blanks at its end, unless the last one is escaped -/
def trimLine (line : String) : String :=
  match line.toList.reverse with
  | ' ' :: '\\' :: _ => line
  | _ => Text.trimEnd line

/-- the marks at the beginning: does the rule readmit, is it tied to its directory, and what is
left? -/
def cutFront : List Char → Bool × Bool × List Char
  | '\\' :: '!' :: cs => (false, false, '!' :: cs)
  | '\\' :: '#' :: cs => (false, false, '#' :: cs)
  | '!' :: '/' :: cs => (true, true, cs)
  | '!' :: cs => (true, false, cs)
  | '/' :: cs => (false, true, cs)
  | cs => (false, false, cs)

/-- the slash at the end, which may be escaped: is there one, and what is left? -/
def cutBack (cs : List Char) : Bool × List Char :=
  match cs.reverse with
  | '/' :: '\\' :: before => (true, before.reverse)
  | '/' :: before => (true, before.reverse)
  | _ => (false, cs)

/-- a glob that is not tied to a directory, below every directory -/
def anywhere (tied : Bool) (cs : List Char) : List Char :=
  if tied || cs.contains '/' || cs == ['*', '*'] then cs else '*' :: '*' :: '/' :: cs

/-- two stars at the end stand for what is inside the directory, not for the directory itself -/
def inside (cs : List Char) : List Char :=
  match cs.reverse with
  | '*' :: '*' :: '/' :: _ => cs ++ ['/', '*']
  | _ => cs

def ofLine (line : String) : Except RuleError (Option IgnoreRule) :=
  let trimmed := trimLine line
  if Text.startsWith ['#'] line.toList || trimmed.isEmpty then .ok none
  else
    let (readmits, tied, body) := cutFront trimmed.toList
    let (onlyDirectories, body) := cutBack body
    match Glob.parse (inside (anywhere tied body)) with
    | .ok glob => .ok (some ⟨glob, readmits, onlyDirectories⟩)
    | .error cause => .error ⟨trimmed, cause⟩

/-- does the rule cover the path of some bytes, which is a directory or not? -/
def covers (r : IgnoreRule) (path : Bytes) (isDirectory : Bool) : Bool :=
  (!r.onlyDirectories || isDirectory) && Glob.accepts r.glob path

end IgnoreRule

end AnnotationAudit
