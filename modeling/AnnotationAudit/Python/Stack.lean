import AnnotationAudit.Python.Tree

/-!
# The stack of readings

Where a text can be read in several ways, the parser follows them side by side. Their stacks share
what they have in common: together they are a graph, whose vertices are states and whose links carry
trees; two readings that reach the same state at the same place become one again.

* `Vertex`, `Link`   the graph;
* `Version`          one reading: the vertex on top of its stack, and how it stands;
* `Stack.push`       a tree and a state on top of a version;
* `Stack.popCount`   the ways back over a number of trees;
* `Stack.merge`      two versions become one, if they can.
-/

namespace AnnotationAudit
namespace Python

open Text

/-- a way down from a vertex; no tree marks the place where text stopped fitting -/
structure Link where
  vertex : Nat
  tree : Option Tree
deriving Inhabited

/-- a state at a place in the text, with all ways down -/
structure Vertex where
  state : Nat
  cursor : Cursor
  links : List Link
  cost : Nat
  count : Nat
  weight : Int
deriving Inhabited

/-- how a reading stands -/
inductive Status where
  | active
  /-- the next token fits nowhere -/
  | paused (token : Token)
  | halted
deriving Inhabited

def Status.isActive : Status → Bool
  | .active => true
  | _ => false

def Status.isPaused : Status → Bool
  | .paused _ => true
  | _ => false

def Status.isHalted : Status → Bool
  | .halted => true
  | _ => false

/-- a state that was left behind, `depth` trees below the top -/
structure Landmark where
  cursor : Cursor
  depth : Nat
  state : Nat
deriving Inhabited

/-- one reading of the text so far -/
structure Version where
  vertex : Nat
  status : Status
  /-- the number of nodes when text last stopped fitting -/
  countAtError : Nat
  /-- the layout behind the last layout symbol -/
  layout : Option Layout
  /-- the states to which the reading can go back -/
  landmarks : Option (List Landmark)
deriving Inhabited

structure Stack where
  vertices : Array Vertex
  versions : Array Version
deriving Inhabited

namespace Stack

/-- no more ways down than this are kept at one vertex -/
def maxLinks : Nat := 8

/-- no more ways down than this are followed at once -/
def maxWays : Nat := 64

def start (c : Cursor) : Stack :=
  { vertices := #[⟨Automaton.startState, c, [], 0, 0, 0⟩]
    versions := #[⟨0, .active, 0, none, none⟩] }

/-! ## looking -/

def vertex (s : Stack) (i : Nat) : Vertex := s.vertices[i]?.getD default

def version (s : Stack) (v : Nat) : Version := s.versions[v]?.getD default

def size (s : Stack) : Nat := s.versions.size

def top (s : Stack) (v : Nat) : Vertex := s.vertex (s.version v).vertex

def state (s : Stack) (v : Nat) : Nat := (s.top v).state

def cursor (s : Stack) (v : Nat) : Cursor := (s.top v).cursor

def status (s : Stack) (v : Nat) : Status := (s.version v).status

def isActive (s : Stack) (v : Nat) : Bool := (s.status v).isActive

/-- how badly a version fits the text so far -/
def cost (s : Stack) (v : Nat) : Nat :=
  let top := s.top v
  let broken := top.state == Automaton.errorState &&
    (match top.links with
      | l :: _ => l.tree.isNone
      | [] => true)
  if (s.status v).isPaused || broken then top.cost + Cost.recovery else top.cost

/-- the nodes made since text last stopped fitting -/
def countSinceError (s : Stack) (v : Nat) : Nat := (s.top v).count - (s.version v).countAtError

/-- has a version come forward in the text since text last stopped fitting? -/
def hasAdvancedFrom (s : Stack) (countAtError : Nat) : Nat → Nat → Bool
  | 0, _ => false
  | fuel + 1, i =>
    let x := s.vertex i
    match x.links with
    | [] => false
    | l :: _ =>
      match l.tree with
      | none => false
      | some t =>
        if 0 < t.totalBytes then true
        else if countAtError < x.count && t.cost == 0 then
          hasAdvancedFrom s countAtError fuel l.vertex
        else false

def hasAdvanced (s : Stack) (v : Nat) : Bool :=
  let top := s.top v
  if top.cost == 0 then true
  else
    s.hasAdvancedFrom (s.version v).countAtError s.vertices.size (s.version v).vertex

/-! ## changing versions -/

def setVersion (s : Stack) (v : Nat) (f : Version → Version) : Stack :=
  { s with versions := s.versions.modify v f }

/-- the count at which text last stopped fitting is at most the present one -/
def settleCount (s : Stack) (v : Nat) : Stack :=
  let count := (s.top v).count
  if count < (s.version v).countAtError then
    s.setVersion v fun x => { x with countAtError := count }
  else s

def remove (s : Stack) (v : Nat) : Stack := { s with versions := s.versions.eraseIdxIfInBounds v }

def halt (s : Stack) (v : Nat) : Stack := s.setVersion v fun x => { x with status := .halted }

def pause (s : Stack) (v : Nat) (t : Token) : Stack :=
  let count := (s.top v).count
  s.setVersion v fun x => { x with status := .paused t, countAtError := count }

def resume (s : Stack) (v : Nat) : Stack := s.setVersion v fun x => { x with status := .active }

def setLayout (s : Stack) (v : Nat) (l : Option Layout) : Stack :=
  s.setVersion v fun x => { x with layout := l }

/-- a second version like `v`, behind all others -/
def copy (s : Stack) (v : Nat) : Stack :=
  { s with versions := s.versions.push { s.version v with landmarks := none } }

/-- version `v` takes the place of the earlier version `w` -/
def renumber (s : Stack) (v w : Nat) : Stack :=
  if v == w then s
  else
    let source := s.version v
    let target := s.version w
    let moved := { source with landmarks := source.landmarks.or target.landmarks }
    (s.setVersion w fun _ => moved).remove v

def swap (s : Stack) (v w : Nat) : Stack :=
  { s with versions := s.versions.swapIfInBounds v w }

/-- a tree, or the mark that text stopped fitting, and a state on top of a version -/
def push (s : Stack) (v : Nat) (t : Option Tree) (state : Nat) : Stack :=
  let below := (s.version v).vertex
  let x := s.vertex below
  let y : Vertex :=
    match t with
    | none => { x with state, links := [⟨below, none⟩] }
    | some t =>
      { state, cursor := t.stop, links := [⟨below, some t⟩], cost := x.cost + t.cost,
        count := x.count + t.count, weight := x.weight + t.weight }
  let i := s.vertices.size
  { s with
    vertices := s.vertices.push y
    versions := s.versions.modify v fun h =>
      { h with vertex := i, countAtError := if t.isNone then y.count else h.countAtError } }

/-- version `v` at `c` with nothing below it, as at the beginning -/
def clear (s : Stack) (v : Nat) (c : Cursor) : Stack :=
  let y : Vertex := { s.top v with state := Automaton.startState, cursor := c, links := [] }
  let i := s.vertices.size
  { s with
    vertices := s.vertices.push y
    versions := s.versions.modify v fun h => { h with vertex := i } }

/-! ## ways down -/

/-- a way down the stack: the trees passed, the deepest first, and how many count -/
structure Way where
  vertex : Nat
  trees : List Tree
  count : Nat
deriving Inhabited

/-- what to do at a place on a way -/
structure Verdict where
  take : Bool
  stop : Bool

def Way.follow (w : Way) (l : Link) : Way :=
  match l.tree with
  | none => { w with vertex := l.vertex, count := w.count + 1 }
  | some t =>
    { vertex := l.vertex, trees := t :: w.trees,
      count := if t.extra then w.count else w.count + 1 }

/-- one round over the ways `todo`: the ways that go on, in place and new, and what was taken; `f`
carries a state of type `σ` along -/
def round {σ : Type} (s : Stack) (f : σ → Way → σ × Verdict) :
    List Way → σ → List Way → List Way → List Way → σ × List Way × List Way
  | [], x, kept, new, taken => (x, kept.reverse ++ new, taken)
  | w :: todo, x, kept, new, taken =>
    let (x, verdict) := f x w
    let links := (s.vertex w.vertex).links
    let taken := if verdict.take then w :: taken else taken
    if verdict.stop then round s f todo x kept new taken
    else
      match links with
      | [] => round s f todo x kept new taken
      | l :: ls =>
        let room := maxWays - (kept.length + 1 + todo.length + new.length)
        let new := new ++ (ls.take room).map w.follow
        round s f todo x (w.follow l :: kept) new taken

/-- all rounds, one step down in each -/
def rounds {σ : Type} (s : Stack) (f : σ → Way → σ × Verdict) :
    Nat → List Way → σ → List Way → σ × List Way
  | 0, _, x, taken => (x, taken.reverse)
  | _ + 1, [], x, taken => (x, taken.reverse)
  | fuel + 1, ways, x, taken =>
    let (x, ways, taken) := s.round f ways x [] [] taken
    rounds s f fuel ways x taken

/-- the ways down from version `v` that `f` takes, in the order in which they are taken -/
def ways {σ : Type} (s : Stack) (v : Nat) (x : σ) (f : σ → Way → σ × Verdict) : σ × List Way :=
  s.rounds f (s.vertices.size + 2) [⟨(s.version v).vertex, [], 0⟩] x []

/-- a way that was taken, as a version of its own -/
structure Slice where
  version : Nat
  trees : List Tree
deriving Inhabited

/-- the slice of a way among the slices so far: beside those that end at the same vertex, in their
version, else last, in a new version -/
def addSlice (v : Nat) (acc : Stack × List Slice) (w : Way) : Stack × List Slice :=
  let (s, slices) := acc
  match slices.reverse.find? fun x => (s.version x.version).vertex == w.vertex with
  | some x =>
    let (front, back) := slices.reverse.span fun y => y.version != x.version
    (s, back.reverse ++ [⟨x.version, w.trees⟩] ++ front.reverse)
  | none =>
    let fresh : Version :=
      { s.version v with vertex := w.vertex, status := .active, landmarks := none }
    ({ s with versions := s.versions.push fresh }, slices ++ [⟨s.versions.size, w.trees⟩])

def slices (s : Stack) (v : Nat) (ws : List Way) : Stack × List Slice :=
  ws.foldl (addSlice v) (s, [])

/-- the ways down over `n` trees that count -/
def popCount (s : Stack) (v n : Nat) : Stack × List Slice :=
  let (_, ws) := s.ways v () fun _ w => let hit := w.count == n; ((), ⟨hit, hit⟩)
  s.slices v ws

def popAll (s : Stack) (v : Nat) : Stack × List Slice :=
  let (_, ws) := s.ways v () fun _ w => ((), ⟨(s.vertex w.vertex).links.isEmpty, false⟩)
  s.slices v ws

/-- the tree of text that fits nowhere on top of a version, taken off -/
def popError (s : Stack) (v : Nat) : Stack × Option Tree :=
  let isError (t : Option Tree) : Bool := (t.map Tree.isError).getD false
  if (s.top v).links.any (fun l => isError l.tree) then
    let (_, ws) := s.ways v false fun found w =>
      match w.trees.getLast? with
      | none => (found, ⟨false, false⟩)
      | some t => if !found && t.isError then (true, ⟨true, true⟩) else (found, ⟨false, true⟩)
    let (s, slices) := s.slices v ws
    match slices with
    | [] => (s, none)
    | x :: _ => (s.renumber x.version v, x.trees.head?)
  else (s, none)

/-- notes the states below version `v`, no deeper than `depth` trees -/
def markLandmarks (s : Stack) (v depth : Nat) : Stack :=
  let (marks, _) := s.ways v ([] : List Landmark) fun marks w =>
    let x := s.vertex w.vertex
    if depth < w.count then (marks, ⟨false, true⟩)
    else if (marks.takeWhile fun m => w.count ≤ m.depth).any
        (fun m => m.depth == w.count && m.state == x.state) then
      (marks, ⟨false, false⟩)
    else (⟨x.cursor, w.count, x.state⟩ :: marks, ⟨false, false⟩)
  s.setVersion v fun h => { h with landmarks := some marks.reverse }

/-! ## merging -/

/-- the weight and count of a vertex as reached by a link -/
def viaLink (s : Stack) (l : Link) : Nat × Int :=
  let x := s.vertex l.vertex
  match l.tree with
  | none => (x.count, x.weight)
  | some t => (x.count + t.count, x.weight + t.weight)

def sameVertex (x y : Vertex) : Bool :=
  x.state == y.state && x.cursor.offset == y.cursor.offset && x.cost == y.cost

/-- the first link whose tree can stand for that of `l`, and that either leads to the same vertex or
to one that can become one with it -/
def findLink (s : Stack) (l : Link) (links : List Link) : Option (Nat × Link) :=
  (links.zipIdx.find? fun (m, _) =>
    Tree.equivalent m.tree l.tree &&
      (m.vertex == l.vertex || sameVertex (s.vertex m.vertex) (s.vertex l.vertex))).map
    fun (m, i) => (i, m)

/-- one more way down from vertex `i` -/
def addLink : Nat → Stack → Nat → Link → Stack
  | 0, s, _, _ => s
  | fuel + 1, s, i, l =>
    if l.vertex == i then s
    else
      let x := s.vertex i
      let update (s : Stack) (f : Vertex → Vertex) : Stack :=
        { s with vertices := s.vertices.modify i f }
      let (count, weight) := s.viaLink l
      match s.findLink l x.links with
      | some (k, m) =>
        if m.vertex == l.vertex then
          let heavier : Bool := match l.tree, m.tree with
            | some t, some u => u.weight < t.weight
            | _, _ => false
          if heavier then update s fun x => { x with links := x.links.set k l, weight := weight }
          else s
        else
          let s := (s.vertex l.vertex).links.foldl (fun s n => addLink fuel s m.vertex n) s
          update s fun x => { x with weight := max x.weight weight }
      | none =>
        if maxLinks ≤ x.links.length then s
        else update s fun x =>
          { x with links := x.links ++ [l], count := max x.count count,
                   weight := max x.weight weight }

def canMerge (s : Stack) (v w : Nat) : Bool :=
  s.isActive v && s.isActive w && sameVertex (s.top v) (s.top w) &&
    (s.version v).layout == (s.version w).layout

/-- version `w` becomes part of version `v` -/
def merge (s : Stack) (v w : Nat) : Stack :=
  let i := (s.version v).vertex
  let fuel := s.vertices.size + 1
  let s := (s.top w).links.foldl (fun s l => addLink fuel s i l) s
  let top := s.vertex i
  let s := if top.state == Automaton.errorState then
      s.setVersion v fun h => { h with countAtError := top.count }
    else s
  s.remove w

end Stack

end Python
end AnnotationAudit
