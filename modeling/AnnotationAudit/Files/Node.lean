import AnnotationAudit.Text.Line
import AnnotationAudit.Path

/-!
# Trees of files

* `FileContent`  what a file holds: a text, or bytes that are none;
* `FileNode`     a file, a directory with its entries, or a link to some other path;
* `FileTree`     all files, below one root;
* `Location`     the names from the root down to a node.

The entries of a directory are kept in the order of their names, and no name occurs twice.
-/

namespace AnnotationAudit

/-! ## content -/

/-- what a file holds -/
inductive FileContent where
  | text (s : String)
  /-- bytes that are no text, and the lines before the first one that is none -/
  | bytes (lines : List String)
deriving DecidableEq, Repr, Inhabited

namespace FileContent

/-- bytes cut at their line feeds -/
def cutLines : Bytes → Bytes → List Bytes
  | line, [] => [line.reverse]
  | line, b :: bs => if b = 10 then line.reverse :: cutLines [] bs else cutLines (b :: line) bs

/-- the texts of the pieces before the first that is no text -/
def leadingTexts : List Bytes → List String
  | [] => []
  | piece :: pieces =>
    match String.fromUTF8? ⟨piece.toArray⟩ with
    | some s => s :: leadingTexts pieces
    | none => []

/-- a line that was followed by a line feed, without its carriage return -/
def endedLine (s : String) : String := String.ofList (Text.ended s.toList.reverse)

def ofBytes (b : ByteArray) : FileContent :=
  match String.fromUTF8? b with
  | some s => .text s
  | none => .bytes ((leadingTexts (cutLines [] b.data.toList)).map endedLine)

def readLines : FileContent → List String × Bool
  | .text s => (Text.lines s, true)
  | .bytes lines => (lines, false)

end FileContent

/-! ## nodes -/

/-- a node of a tree of files -/
inductive FileNode where
  | file (content : FileContent)
  | directory (entries : List (Bytes × FileNode))
  /-- a link to a path, which may be missing -/
  | link (target : Path)
deriving Repr, Inhabited

abbrev FileEntries := List (Bytes × FileNode)

namespace FileEntries

def get? (name : Bytes) : FileEntries → Option FileNode
  | [] => none
  | (n, node) :: rest => if n = name then some node else get? name rest

/-- the entries with a node for a name, at its place -/
def insert (name : Bytes) (node : FileNode) : FileEntries → FileEntries
  | [] => [(name, node)]
  | (n, old) :: rest =>
    if n = name then (name, node) :: rest
    else if name < n then (name, node) :: (n, old) :: rest
    else (n, old) :: insert name node rest

def erase (name : Bytes) (entries : FileEntries) : FileEntries :=
  entries.filter fun e => e.1 != name

end FileEntries

/-- the names from the root down to a node -/
abbrev Location := List Bytes

def Location.path (l : Location) : Path := ⟨true, l⟩

/-- all files -/
structure FileTree where
  /-- the entries of the root -/
  entries : FileEntries := []
deriving Repr, Inhabited

namespace FileNode

def get? : FileNode → Location → Option FileNode
  | node, [] => some node
  | .directory entries, name :: rest => (FileEntries.get? name entries).bind fun n => n.get? rest
  | _, _ :: _ => none

def entries? : FileNode → Option FileEntries
  | .directory entries => some entries
  | _ => none

mutual

def directories : FileNode → Nat
  | .directory entries => directoriesIn entries + 1
  | _ => 0

/-- the number of directories among entries and below them -/
def directoriesIn : List (Bytes × FileNode) → Nat
  | [] => 0
  | e :: rest => directoriesOf e + directoriesIn rest

def directoriesOf : Bytes × FileNode → Nat
  | (_, node) => directories node

end

end FileNode

namespace FileTree

def root (t : FileTree) : FileNode := .directory t.entries

def get? (t : FileTree) (l : Location) : Option FileNode := t.root.get? l

end FileTree

end AnnotationAudit
