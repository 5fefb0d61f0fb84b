import AnnotationAudit.Ignore
import AnnotationAudit.Log
import AnnotationAudit.Outcome
import AnnotationAudit.Text.Quoted

/-!
# Selecting files

* `Selector`         where inputs start from, and what is left out;
* `Selector.select`  the files that inputs stand for.

An input that leads to a file stands for that file, whatever its name. One that leads to a directory
stands for the sources below it: hidden directories and all that an ignore list ignores are left
out, and links are followed. Ignore files are read when their directory is entered, and hold from
then on. Of a source and its stub only the stub is kept.
-/

namespace AnnotationAudit

/-- where inputs start from, and what is left out -/
structure Selector where
  tree : FileTree
  /-- the directory from which inputs start -/
  base : Path
  /-- patterns of paths to leave out -/
  excludes : List String := []
  /-- are ignore files read? -/
  useIgnoreFiles : Bool := true
deriving Repr, Inhabited

/-- the files of inputs, and the inputs without any -/
structure Selection where
  files : List Path := []
  failures : List FileFailure := []
  log : List LogRecord := []
deriving Repr, Inhabited

/-- the selection under way -/
structure SelectionState where
  /-- the ignore lists that have been read -/
  ignores : List IgnoreList := []
  /-- the directories whose ignore file has been looked for -/
  loaded : List Path := []
  /-- the files so far -/
  files : List Path := []
  failures : List FileFailure := []
  log : List LogRecord := []
deriving Repr, Inhabited

namespace SelectionState

def debug (s : SelectionState) (message : String) : SelectionState :=
  { s with log := s.log ++ [⟨.debug, .files, message⟩] }

def warn (s : SelectionState) (message : String) : SelectionState :=
  { s with log := s.log ++ [⟨.warn, .files, message⟩] }

def fail (s : SelectionState) (f : FileFailure) : SelectionState :=
  { s with failures := s.failures ++ [f] }

/-- one more file, unless it has been found before -/
def find (s : SelectionState) (p : Path) : SelectionState :=
  if s.files.contains p then s else { s with files := s.files ++ [p] }

/-- one more ignore list, unless it has no rules -/
def addIgnores (s : SelectionState) (l : IgnoreList) : SelectionState :=
  if l.rules.isEmpty then s else { s with ignores := s.ignores ++ [l] }

/-- does one of the ignore lists ignore a path? -/
def isExcluded (s : SelectionState) (p : Path) (isDirectory : Bool) : Bool :=
  s.ignores.any fun l => l.ignores p isDirectory

end SelectionState

/-- a directory that a walk is in: the path that it was reached by, and its location -/
structure Ancestor where
  path : Path
  location : Location
deriving DecidableEq, Repr, Inhabited

def ignoreFileName : Bytes := ".gitignore"

namespace Selector

/-- a selector whose base is a location, if the directory exists -/
def ofBase (tree : FileTree) (base : Path) (excludes : List String) (useIgnoreFiles : Bool) :
    Selector :=
  let base := match tree.canonical base with
    | .ok p => p
    | .error _ => base
  ⟨tree, base, excludes, useIgnoreFiles⟩

def shown (c : Selector) (p : Path) : String := c.base.shown p

/-! ## ignore files -/

/-- reads the ignore file of a directory, if it has one and none has been looked for -/
def load (c : Selector) (s : SelectionState) (directory : Path) : SelectionState :=
  if s.loaded.contains directory then s
  else
    let s := { s with loaded := s.loaded ++ [directory] }
    let file := directory.child ignoreFileName
    match c.tree.read file with
    | .error _ => s
    | .ok content =>
      let name := file.toString
      let (list, faults) := IgnoreList.ofContent directory name content
      let s := s.debug ("Loading " ++ name)
      let s :=
        if faults.isEmpty then s
        else s.warn ("skipping invalid lines in " ++ name ++ ": " ++ "\n".intercalate faults)
      s.addIgnores list

/-- reads the ignore files of directories one below the other -/
def loadBelow (c : Selector) (s : SelectionState) (directory : Path) :
    List Bytes → SelectionState
  | [] => s
  | name :: names =>
    let directory := directory.child name
    c.loadBelow (c.load s directory) directory names

/-- reads the ignore files of the directories between the base and a path -/
def loadAbove (c : Selector) (s : SelectionState) (p : Path) : SelectionState :=
  match p.relativeTo? c.base with
  | some rest => c.loadBelow s c.base rest.segments.dropLast
  | none => s

/-- the state before the first input: the excluded patterns, and the base's ignore file -/
def start (c : Selector) : SelectionState :=
  let (list, errors) := IgnoreList.ofPatterns c.base c.excludes
  let warning (e : Nat × RuleError) : String :=
    "skipping invalid exclude pattern " ++ Text.quoted ((c.excludes[e.1 - 1]?).getD "") ++ ": " ++
      e.2.message
  let s : SelectionState := errors.foldl (fun s e => s.warn (warning e)) {}
  let s := s.addIgnores list
  if c.useIgnoreFiles then c.load s c.base else s

/-! ## walking -/

/-- a file on a walk, to which the path leads or, for a link, which lies elsewhere -/
def visitFile (c : Selector) (s : SelectionState) (p target : Path) : SelectionState :=
  if !p.isSource then s
  else if s.isExcluded p false then s.debug ("Skipping " ++ c.shown p)
  else s.find target

/-- a directory below the one where the walk began; `enter` goes on inside -/
def visitDirectory (c : Selector) (s : SelectionState) (p : Path)
    (enter : SelectionState → SelectionState) : SelectionState :=
  if p.isHidden || s.isExcluded p true then s.debug ("Skipping " ++ c.shown p)
  else enter (if c.useIgnoreFiles then c.load s p else s)

mutual

/-- a node on a walk, at a path; the directories that the walk is in stand innermost first, and
`jump` follows links -/
def visitNode (c : Selector) (jump : SelectionState → List Ancestor → Path → SelectionState)
    (s : SelectionState) (ancestors : List Ancestor) (p : Path) (location : Location) :
    FileNode → SelectionState
  | .file _ => c.visitFile s p p
  | .directory entries =>
    c.visitDirectory s p fun s => walkWith c jump s (⟨p, location⟩ :: ancestors) p location entries
  | .link _ => jump s ancestors p

def walkWith (c : Selector) (jump : SelectionState → List Ancestor → Path → SelectionState)
    (s : SelectionState) (ancestors : List Ancestor) (here : Path) (location : Location) :
    List (Bytes × FileNode) → SelectionState
  | [] => s
  | e :: rest =>
    walkWith c jump (visitEntry c jump s ancestors here location e) ancestors here location rest

def visitEntry (c : Selector) (jump : SelectionState → List Ancestor → Path → SelectionState)
    (s : SelectionState) (ancestors : List Ancestor) (here : Path) (location : Location) :
    Bytes × FileNode → SelectionState
  | (name, node) => visitNode c jump s ancestors (here.child name) (location ++ [name]) node

end

def brokenLink (c : Selector) (p : Path) (e : AccessError) : FileFailure :=
  .ofResolution (c.shown p) ("IO error for operation on " ++ p.toString ++ ": " ++ e.message)

/-- the failure of a link that leads to a directory that the walk is in -/
def loop (c : Selector) (p : Path) (a : Ancestor) : FileFailure :=
  .ofResolution (c.shown p)
    ("File system loop found: " ++ p.toString ++ " points to an ancestor " ++ a.path.toString)

/-- follows a link, and at most a number of further ones to directories below it -/
def jump (c : Selector) : Nat → SelectionState → List Ancestor → Path → SelectionState
  | links, s, ancestors, p =>
    match c.tree.locate p with
    | .error e => s.fail (c.brokenLink p e)
    | .ok l =>
      match c.tree.get? l with
      | some (.file _) => c.visitFile s p l.path
      | some (.directory entries) =>
        match ancestors.find? fun a => a.location == l with
        | some a => s.fail (c.loop p a)
        | none =>
          match links with
          | 0 => s
          | n + 1 =>
            c.visitDirectory s p fun s => c.walkWith (c.jump n) s (⟨p, l⟩ :: ancestors) p l entries
      | _ => s

/-- walks over a directory; each link followed on the way leads to another directory -/
def walk (c : Selector) (s : SelectionState) (directory : Location) : SelectionState :=
  match c.tree.get? directory with
  | some (.directory entries) =>
    let p := directory.path
    let s := if c.useIgnoreFiles then c.load s p else s
    c.walkWith (c.jump c.tree.root.directories) s [⟨p, directory⟩] p directory entries
  | _ => s

/-! ## inputs -/

def selectInput (c : Selector) (s : SelectionState) (input : Path) : SelectionState :=
  match c.tree.locate (c.base.join input) with
  | .error e => s.fail (.ofResolution input.toString ("cannot access path: " ++ e.message))
  | .ok l =>
    let p := l.path
    let isDirectory := c.tree.isDirectory p
    let s := if c.useIgnoreFiles then c.loadAbove s p else s
    if s.isExcluded p isDirectory then s.debug ("Skipping " ++ c.shown p)
    else if isDirectory then c.walk s l
    else s.find p

def run (c : Selector) (inputs : List Path) : SelectionState :=
  inputs.foldl c.selectInput c.start

/-- the files of inputs, sources with a stub among them included -/
def candidates (c : Selector) (inputs : List Path) : List Path := (c.run inputs).files

def select (c : Selector) (inputs : List Path) : Selection :=
  let s := c.run inputs
  ⟨preferStubs s.files, s.failures, s.log⟩

end Selector

end AnnotationAudit
