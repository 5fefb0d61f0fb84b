import AnnotationAudit.Files.Access

/-!
# Changing a tree of files

* `FileTree.makeDirectories`  a directory and all that are missing above it;
* `FileTree.writeFile`        a file with a content, in place of the one that a link leads to;
* `FileTree.makeLink`         a link;
* `FileTree.remove`           takes an entry away, with all below it.
-/

namespace AnnotationAudit

/-- changes the entries of the directory that is reached by names -/
def FileNode.alter (f : FileEntries → FileEntries) : FileNode → Location → FileNode
  | .directory entries, [] => .directory (f entries)
  | .directory entries, name :: rest =>
    match FileEntries.get? name entries with
    | some node => .directory (FileEntries.insert name (node.alter f rest) entries)
    | none => .directory entries
  | node, _ => node

namespace FileTree

/-- changes the entries of the directory at a location -/
def alter (t : FileTree) (l : Location) (f : FileEntries → FileEntries) : FileTree :=
  match t.root.alter f l with
  | .directory entries => ⟨entries⟩
  | _ => t

def entriesAt (t : FileTree) (l : Location) : Except AccessError FileEntries :=
  match (t.get? l).bind FileNode.entries? with
  | some entries => .ok entries
  | none => .error .notDirectory

/-- puts a node into the directory at a location -/
def put (t : FileTree) (l : Location) (name : Bytes) (n : FileNode) : FileTree :=
  t.alter l (FileEntries.insert name n)

/-- makes the directories of segments, below the one at a location, as far as they are missing -/
def makeDirectories (t : FileTree) (here : Location) :
    List Bytes → Except AccessError (FileTree × Location)
  | [] => .ok (t, here)
  | segment :: rest => do
    let entries ← t.entriesAt here
    if Path.isIdle segment then t.makeDirectories here rest
    else if segment = [Text.dot, Text.dot] then t.makeDirectories here.dropLast rest
    else
      let blocked : AccessError := if rest.all Path.isIdle then .alreadyExists else .notDirectory
      match FileEntries.get? segment entries with
      | none =>
        (t.put here segment (.directory [])).makeDirectories (here ++ [segment]) rest
      | some (.directory _) => t.makeDirectories (here ++ [segment]) rest
      | some (.file _) => .error blocked
      | some (.link target) =>
        match t.follow linkLimit (if target.rooted then [] else here) target.segments with
        | .ok l => if (t.entriesAt l).isOk then t.makeDirectories l rest else .error blocked
        | .error _ => .error blocked

/-- segments as those of a directory and a name in it -/
def cut (segments : List Bytes) : List Bytes × Bytes :=
  match (Path.trimBack segments).reverse with
  | [] => ([], [])
  | name :: before => (before.reverse, name)

/-- writes a file, through at most a number of links -/
def writeThrough (t : FileTree) (content : FileContent) :
    Nat → Location → List Bytes → Except AccessError FileTree
  | links, here, segments => do
    let (before, name) := cut segments
    let l ← t.follow linkLimit here before
    let entries ← t.entriesAt l
    match FileEntries.get? name entries with
    | some (.directory _) => .error .isDirectory
    | some (.link target) =>
      match links with
      | 0 => .error .tooManyLinks
      | n + 1 => t.writeThrough content n (if target.rooted then [] else l) target.segments
    | _ => pure (t.put l name (.file content))

/-- writes a file; missing directories are made -/
def writeFile (t : FileTree) (p : Path) (content : FileContent) : Except AccessError FileTree := do
  let (before, name) := cut p.segments
  let (t, l) ← t.makeDirectories [] before
  t.writeThrough content linkLimit l [name]

/-- makes a directory; missing ones above it are made as well -/
def makeDirectory (t : FileTree) (p : Path) : Except AccessError FileTree :=
  (t.makeDirectories [] p.segments).map Prod.fst

/-- makes a link; missing directories are made -/
def makeLink (t : FileTree) (p target : Path) : Except AccessError FileTree := do
  let (before, name) := cut p.segments
  let (t, l) ← t.makeDirectories [] before
  let entries ← t.entriesAt l
  match FileEntries.get? name entries with
  | some _ => .error .alreadyExists
  | none => if target.isEmpty then .error .notFound else pure (t.put l name (.link target))

def remove (t : FileTree) (p : Path) : Except AccessError FileTree := do
  let (before, name) := cut p.segments
  let l ← t.follow linkLimit [] before
  let entries ← t.entriesAt l
  match FileEntries.get? name entries with
  | none => .error .notFound
  | some _ => pure (t.alter l (FileEntries.erase name))

end FileTree

end AnnotationAudit
