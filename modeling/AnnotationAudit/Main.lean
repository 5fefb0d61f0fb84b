import AnnotationAudit.Execution
import AnnotationAudit.Files.Edit

/-!
# The program

`main` reads the files that a command line can reach into a `FileTree`, answers the command line
with `Surroundings.run`, and writes the answer.
-/

namespace AnnotationAudit
namespace Program

/-- the files read so far -/
structure Snapshot where
  tree : FileTree := {}
  /-- the directories that have been read with all below them -/
  complete : List Path := []

abbrev Reader := StateT Snapshot IO

/-- keeps a change of the tree, if it can be made -/
def change (f : FileTree → Except AccessError FileTree) : Reader Unit :=
  modify fun s =>
    match f s.tree with
    | .ok tree => { s with tree }
    | .error _ => s

/-- does the content of a file matter? -/
def matters (p : Path) : Bool :=
  p.isSource || p.fileName? == some ignoreFileName || p.extension? == some (bytesOf "toml")

/-- reads a file; its content only if it matters -/
def readFile (p : Path) (named : Bool) : Reader Unit := do
  if named || matters p then
    match ← (IO.FS.readBinFile p.toString).toBaseIO with
    | .ok b => change fun t => t.writeFile p (.ofBytes b)
    | .error _ => pure ()
  else change fun t => t.writeFile p (.text "")

/-- where a link leads to; a link that leads nowhere gets a target that does not exist -/
def targetOf (p : Path) : Reader Path := do
  match ← (IO.FS.realPath p.toString).toBaseIO with
  | .ok target => pure (.ofString target.toString)
  | .error _ => pure ⟨false, [[0]]⟩

mutual

/-- reads along segments, with the ignore files on the way, from a directory that has been read, and
all below the place that they lead to -/
partial def readAlong (here : Path) : List Bytes → Reader Unit
  | [] => readBelow here
  | segment :: rest => do
    if Path.isIdle segment then readAlong here rest
    else if segment == [Text.dot, Text.dot] then
      readAlong ⟨here.rooted, here.segments.dropLast⟩ rest
    else
      let p := here.child segment
      match ← ((← IO.currentDir) / p.toString).symlinkMetadata.toBaseIO with
      | .error _ => pure ()
      | .ok data =>
        match data.type with
        | .symlink =>
          let target ← targetOf p
          change fun t => t.makeLink p target
          if target.rooted then readAlong ⟨true, []⟩ (target.segments ++ rest)
        | .dir =>
          change fun t => t.makeDirectory p
          if !rest.isEmpty then readAlong p [ignoreFileName]
          readAlong p rest
        | _ => readFile p true

/-- reads a directory with all below it -/
partial def readBelow (here : Path) : Reader Unit := do
  if (← get).complete.contains here then return
  modify fun s => { s with complete := here :: s.complete }
  match ← ((← IO.currentDir) / here.toString).readDir.toBaseIO with
  | .error _ => pure ()
  | .ok entries =>
    for entry in entries do
      let p := here.child entry.fileName
      match ← entry.path.symlinkMetadata.toBaseIO with
      | .error _ => pure ()
      | .ok data =>
        match data.type with
        | .symlink =>
          let target ← targetOf p
          change fun t => t.makeLink p target
          if target.rooted then readAlong ⟨true, []⟩ target.segments
        | .dir =>
          change fun t => t.makeDirectory p
          readBelow p
        | _ => readFile p false

end

def readPath (directory p : Path) : Reader Unit :=
  readAlong ⟨true, []⟩ (directory.join p).segments

/-- reads all that a command line can reach: the files that it names and those that the settings
name -/
def readReachable (directory : Path) (args : List Bytes) : Reader Unit := do
  match CommandLine.parse args with
  | .error _ => pure ()
  | .ok c =>
    readPath directory (.ofBytes ((c.config).getD projectFileName))
    for input in c.files do readPath directory input
    let w : Surroundings := { tree := (← get).tree, directory }
    match w.settings c with
    | .error _ => pure ()
    | .ok s => for input in s.files do readPath directory input
    readPath directory (.ofBytes ignoreFileName)

end Program
end AnnotationAudit

open AnnotationAudit in
def main (args : List String) : IO UInt32 := do
  let args := args.map bytesOf
  let directory := Path.ofString (← IO.currentDir).toString
  let (_, snapshot) ← (Program.readReachable directory args).run {}
  let w : Surroundings :=
    ⟨snapshot.tree, directory, ← IO.getEnv "RUST_LOG", ← IO.getEnv "CLICOLOR_FORCE"⟩
  let r := w.run args
  (← IO.getStderr).putStr r.complaint
  for record in r.log do (← IO.getStderr).putStrLn record.line
  (← IO.getStdout).putStr r.output
  return r.code.toUInt32
