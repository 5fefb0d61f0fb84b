import AnnotationAudit.Text.Bytes
import AnnotationAudit.Text.Search
import AnnotationAudit.Text.Split

/-!
# Paths

A `Path` is what a path is written with, cut at its slashes. These are bytes, and need not be a
text. A path can be written in several ways: what counts are the `components`, which leave out
empty segments and dots other than a leading one.

* `Path.toBytes`      what a path is written with;
* `Path.toString`     the text that this is shown as;
* `Path.join`         one path below another;
* `Path.relativeTo?`  what is left of a path below another;
* `Path.shown`        a path as it is shown to a reader whose directory is known;
* `preferStubs`       files without those whose stub is there as well.
-/

namespace AnnotationAudit

/-- a path as it is written: does it begin with a slash, and what stands between the slashes? -/
structure Path where
  rooted : Bool
  segments : List Bytes
deriving DecidableEq, Repr, Inhabited

namespace Path

open Text (slash backslash dot)

def ofBytes : Bytes → Path
  | [] => ⟨false, [[]]⟩
  | b :: bs =>
    if b = slash then ⟨true, Text.splitOn slash bs⟩ else ⟨false, Text.splitOn slash (b :: bs)⟩

def ofString (s : String) : Path := ofBytes (bytesOf s)

instance : Coe String Path := ⟨ofString⟩

def toBytes (p : Path) : Bytes :=
  let body := Text.joinWith slash p.segments
  if p.rooted then slash :: body else body

def toString (p : Path) : String := textOf p.toBytes

/-! ## components -/

/-- a step of a path -/
inductive Component where
  | root
  /-- a dot at the very beginning -/
  | here
  /-- two dots -/
  | up
  | name (s : Bytes)
deriving DecidableEq, Repr, Inhabited

/-- the step of a segment, unless it is empty or a dot -/
def stepOf? (segment : Bytes) : Option Component :=
  if segment = [] ∨ segment = [dot] then none
  else if segment = [dot, dot] then some .up
  else some (.name segment)

/-- does a segment make no step? -/
def isIdle (segment : Bytes) : Bool := (stepOf? segment).isNone

/-- the step before the segments, and the segments that follow it -/
def head (p : Path) : Option Component × List Bytes :=
  if p.rooted then (some .root, p.segments)
  else
    match p.segments with
    | [] => (none, [])
    | s :: rest => if s = [dot] then (some .here, rest) else (none, s :: rest)

def components (p : Path) : List Component :=
  p.head.1.toList ++ p.head.2.filterMap stepOf?

/-- two paths are the same if they make the same steps -/
def same (p q : Path) : Bool := p.components == q.components

def isEmpty (p : Path) : Bool := p.toBytes.isEmpty

/-! ## joining -/

/-- `q` below `p`; a path from the root replaces `p` -/
def join (p q : Path) : Path :=
  if q.rooted then q
  else
    match p.segments.getLast? with
    | some [] => ⟨p.rooted, p.segments.dropLast ++ q.segments⟩
    | _ => ⟨p.rooted, p.segments ++ q.segments⟩

/-- the entry `name` of the directory `p` -/
def child (p : Path) (name : Bytes) : Path := p.join ⟨false, [name]⟩

/-! ## what is left below a path -/

/-- the segments without those at the end that make no step -/
def trimBack (segments : List Bytes) : List Bytes :=
  (segments.reverse.dropWhile isIdle).reverse

/-- the segments behind those that make the first `n` steps -/
def dropSteps : Nat → List Bytes → List Bytes
  | 0, segments => segments
  | _, [] => []
  | n + 1, s :: segments => if isIdle s then dropSteps (n + 1) segments else dropSteps n segments

/-- what is left of `p` when it begins with the steps of `base`: the rest of its text without idle
segments at its two ends -/
def relativeTo? (p base : Path) : Option Path :=
  let steps := base.components
  if steps.isEmpty then
    match p.head with
    | (some .here, body) => some ⟨p.rooted, [dot] :: trimBack body⟩
    | (_, body) => some ⟨p.rooted, trimBack body⟩
  else if steps.isPrefixOf p.components then
    let rest := dropSteps (steps.length - p.head.1.toList.length) p.head.2
    some ⟨false, trimBack (rest.dropWhile isIdle)⟩
  else none

/-- the text of a path relative to `base` and with slashes only, if that leaves something, else that
of the path as it is written -/
def shown (base p : Path) : String :=
  match p.relativeTo? base with
  | some rest => if rest.isEmpty then p.toString else Text.replaceChar '\\' '/' rest.toString
  | none => p.toString

/-! ## names and extensions -/

def fileName? (p : Path) : Option Bytes :=
  match p.components.getLast? with
  | some (.name s) => some s
  | _ => none

/-- a name cut at its last dot; a name with no other dot than a leading one is not cut -/
def cutName (name : Bytes) : Bytes × Option Bytes :=
  match (Text.splitOn dot name).reverse with
  | [] | [_] => (name, none)
  | [_, []] => (name, none)
  | last :: before => (Text.joinWith dot before.reverse, some last)

/-- what follows the last dot of the file's name -/
def extension? (p : Path) : Option Bytes := p.fileName?.bind fun s => (cutName s).2

/-- the path with another extension of the file's name -/
def withExtension (p : Path) (extension : Bytes) : Path :=
  match (trimBack p.segments).reverse with
  | [] => p
  | s :: before => ⟨p.rooted, before.reverse ++ [(cutName s).1 ++ dot :: extension]⟩

/-- does the file's name begin with a dot? A name that is no text is never hidden. -/
def isHidden (p : Path) : Bool :=
  match p.fileName? with
  | some s => isText s && s.head? == some dot
  | none => false

end Path

def sourceExtensions : List String := ["py", "pyi"]

def Path.isSource (p : Path) : Bool :=
  p.extension?.any fun e => sourceExtensions.any fun x => bytesOf x == e

/-- is it a source whose stub is among the files? -/
def hasStub (files : List Path) (p : Path) : Bool :=
  p.extension? == some (bytesOf "py") && files.any (p.withExtension "pyi").same

/-- the files without the sources whose stubs are there as well -/
def preferStubs (files : List Path) : List Path := files.filter fun p => !hasStub files p

end AnnotationAudit
