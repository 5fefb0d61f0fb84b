import AnnotationAudit.Files.Node

/-!
# Following paths

* `FileTree.locate`     the location that a path leads to, through all links;
* `FileTree.canonical`  the path of that location;
* `FileTree.readText`   the text of the file that a path leads to;
* `AccessError`         why there is none.

A path is followed segment by segment. Each of them, an empty one or a dot too, needs a directory to
start from. A link stands for the segments of its target, and no path leads through more than
`linkLimit` links.
-/

namespace AnnotationAudit

/-- why a path leads nowhere, or its file cannot be read -/
inductive AccessError where
  | notFound
  | alreadyExists
  | notDirectory
  | isDirectory
  | nameTooLong
  | tooManyLinks
  /-- a path holds the byte zero -/
  | zeroByte
  | notText
deriving DecidableEq, Repr, Inhabited

def AccessError.message : AccessError → String
  | .notFound => "No such file or directory (os error 2)"
  | .alreadyExists => "File exists (os error 17)"
  | .notDirectory => "Not a directory (os error 20)"
  | .isDirectory => "Is a directory (os error 21)"
  | .nameTooLong => "File name too long (os error 36)"
  | .tooManyLinks => "Too many levels of symbolic links (os error 40)"
  | .zeroByte => "file name contained an unexpected NUL byte"
  | .notText => "stream did not contain valid UTF-8"

/-- no name has more bytes -/
def nameLimit : Nat := 255

/-- no path leads through more links -/
def linkLimit : Nat := 40

/-- a path that is used as it is written has fewer bytes -/
def pathLimit : Nat := 4096

namespace FileTree

/-- follows segments from the directory at a location; `jump` follows those behind a link -/
def followWith (t : FileTree) (jump : Location → List Bytes → Except AccessError Location) :
    Location → List Bytes → Except AccessError Location
  | here, [] => .ok here
  | here, segment :: rest =>
    match (t.get? here).bind FileNode.entries? with
    | none => .error .notDirectory
    | some entries =>
      if Path.isIdle segment then followWith t jump here rest
      else if segment = [Text.dot, Text.dot] then followWith t jump here.dropLast rest
      else if nameLimit < segment.length then .error .nameTooLong
      else
        match FileEntries.get? segment entries with
        | none => .error .notFound
        | some (.link target) =>
          jump (if target.rooted then [] else here) (target.segments ++ rest)
        | some _ => followWith t jump (here ++ [segment]) rest

/-- follows segments through at most a number of links -/
def follow (t : FileTree) : Nat → Location → List Bytes → Except AccessError Location
  | 0 => t.followWith fun _ _ => .error .tooManyLinks
  | n + 1 => t.followWith (follow t n)

def hasZero (p : Path) : Bool := p.segments.any fun s => s.contains 0

def locate (t : FileTree) (p : Path) : Except AccessError Location :=
  if hasZero p then .error .zeroByte else t.follow linkLimit [] p.segments

/-- the path of the location that a path leads to -/
def canonical (t : FileTree) (p : Path) : Except AccessError Path :=
  (t.locate p).map Location.path

def node (t : FileTree) (p : Path) : Except AccessError FileNode :=
  if hasZero p then .error .zeroByte
  else if pathLimit ≤ p.toBytes.length then .error .nameTooLong
  else do
    let l ← t.locate p
    match t.get? l with
    | some n => pure n
    | none => .error .notFound

def isFile (t : FileTree) (p : Path) : Bool :=
  match t.node p with
  | .ok (.file _) => true
  | _ => false

def isDirectory (t : FileTree) (p : Path) : Bool :=
  match t.node p with
  | .ok (.directory _) => true
  | _ => false

/-- the content of the file that a path leads to -/
def read (t : FileTree) (p : Path) : Except AccessError FileContent := do
  match ← t.node p with
  | .file content => pure content
  | .directory _ => .error .isDirectory
  | .link _ => .error .tooManyLinks

def readText (t : FileTree) (p : Path) : Except AccessError String := do
  match ← t.read p with
  | .text s => pure s
  | .bytes _ => .error .notText

end FileTree

end AnnotationAudit
