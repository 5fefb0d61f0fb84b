import AnnotationAudit.Python.Token

/-!
# Parse trees

* `Tree`           a symbol with the trees below it, hidden symbols and blanks included;
* `Tree.leaf`      the tree of a token; `Tree.absent` the tree of a token that should be there;
* `Tree.branch`    the tree of a production; `Tree.wreck` the tree of text that fits nowhere;
* `Tree.cost`      how badly a tree fits its text; zero if and only if it fits;
* `Tree.preferred` which of two readings of one text is taken.
-/

namespace AnnotationAudit
namespace Python

open Text

/-! ## costs -/

namespace Cost

/-- for every stretch of text that fits nowhere -/
def recovery : Nat := 500
/-- for every token that is missing -/
def absent : Nat := 110
/-- for every tree inside a stretch that fits nowhere -/
def tree : Nat := 100
/-- for every byte of such a stretch -/
def byte : Nat := 1
/-- for every line end in such a stretch -/
def line : Nat := 30

end Cost

/-- what is known of a tree apart from its children -/
structure Tree.Info where
  symbol : Symbol
  /-- the steps of the production, with their marks; empty for tokens -/
  steps : List Step
  before : Cursor
  start : Cursor
  stop : Cursor
  /-- may the tree stand anywhere, so that productions do not count it? -/
  extra : Bool
  absent : Bool
  cost : Nat
  weight : Int
  /-- the number of visible nodes below -/
  descendants : Nat
  /-- the number of visible nodes directly below -/
  visibleChildren : Nat
  layout : Option Layout
deriving Inhabited

/-- a symbol with the trees below it -/
inductive Tree where
  | node (info : Tree.Info) (children : List Tree)
deriving Inhabited

namespace Tree

def info : Tree → Info
  | .node i _ => i

def children : Tree → List Tree
  | .node _ cs => cs

def symbol (t : Tree) : Symbol := t.info.symbol
def before (t : Tree) : Cursor := t.info.before
def start (t : Tree) : Cursor := t.info.start
def stop (t : Tree) : Cursor := t.info.stop
def extra (t : Tree) : Bool := t.info.extra
def cost (t : Tree) : Nat := t.info.cost
def weight (t : Tree) : Int := t.info.weight

def isError (t : Tree) : Bool := t.symbol == .error

/-- the bytes of a tree, the blanks before it included -/
def totalBytes (t : Tree) : Nat := t.before.bytesTo t.stop

/-- the visible nodes of a tree; collected tokens that were skipped count once more, so that
collecting them shows as progress -/
def count (t : Tree) : Nat :=
  t.info.descendants + (if t.symbol.isVisible then 1 else 0) +
    (if t.symbol == .skipped then 1 else 0)

def leaf (t : Token) (extra : Bool) : Tree :=
  .node
    { symbol := match t.symbol with
        | some x => .terminal x
        | none => .error
      steps := [], before := t.before, start := t.start, stop := t.stop
      extra := extra || t.symbol == some .endOfText, absent := false, cost := 0, weight := 0
      descendants := 0, visibleChildren := 0, layout := t.layout } []

/-- the tree of a token that should stand at `c` -/
def missing (x : Terminal) (c : Cursor) : Tree :=
  .node
    { symbol := .terminal x, steps := [], before := c, start := c, stop := c, extra := false
      absent := true, cost := Cost.absent + Cost.recovery, weight := 0, descendants := 0
      visibleChildren := 0, layout := none } []

/-- what a tree of text that fits nowhere pays for the child `t` -/
def skipCost (t : Tree) : Nat :=
  if t.extra || (t.isError && t.children.isEmpty) then 0
  else if t.symbol.isVisible then Cost.tree
  else Cost.tree * t.info.visibleChildren

/-- each child with the step it stands for; extras stand for none -/
def withSteps : List Step → List Tree → List (Option Step × Tree)
  | _, [] => []
  | ss, t :: ts =>
    if t.extra then (none, t) :: withSteps ss ts
    else
      match ss with
      | [] => (none, t) :: withSteps [] ts
      | s :: ss => (some s, t) :: withSteps ss ts

/-- is the child a node of its own, by its symbol or by what it is shown as? -/
def isShown (c : Option Step × Tree) : Bool :=
  (c.1.bind (·.shown)).isSome || c.2.symbol.isVisible

/-- a tree at `c`, or where its children are if it has any -/
def build (symbol : Symbol) (steps : List Step) (extra : Bool) (c : Cursor)
    (children : List Tree) : Tree :=
  let marked := withSteps steps children
  let before := (children.head?.map Tree.before).getD c
  let start := (children.head?.map Tree.start).getD c
  let stop := (children.getLast?.map Tree.stop).getD c
  let below := children.foldl (fun n t => if t.symbol == .skipped then n else n + t.cost) 0
  let own :=
    if symbol == .error || symbol == .skipped then
      children.foldl (fun n t => n + t.skipCost) 0 + Cost.recovery +
        Cost.byte * start.bytesTo stop + Cost.line * start.rowsTo stop
    else 0
  .node
    { symbol, steps, before, start, stop, extra, absent := false
      cost := below + own
      weight := children.foldl (fun n t => n + t.weight) 0
      descendants := marked.foldl
        (fun n c => n + c.2.info.descendants + if isShown c then 1 else 0) 0
      visibleChildren := marked.foldl
        (fun n c => n + if isShown c then 1 else c.2.info.visibleChildren) 0
      layout := none }
    children

/-- the tree of a production, before the production's own weight is added -/
def branch (symbol : Symbol) (steps : List Step) (c : Cursor) (children : List Tree) : Tree :=
  build symbol steps false c children

/-- the tree of text that fits nowhere -/
def wreck (extra : Bool) (c : Cursor) (children : List Tree) : Tree :=
  build .error [] extra c children

/-- tokens that have been skipped -/
def skipped (c : Cursor) (children : List Tree) : Tree := build .skipped [] false c children

def addWeight (w : Int) : Tree → Tree
  | .node i cs => .node { i with weight := i.weight + w } cs

/-! ## choosing between readings -/

mutual

/-- the order of trees: by symbol, then by number of children, then by the children -/
def compare : Tree → Tree → Ordering
  | .node i cs, t =>
    (Ord.compare i.symbol.rank t.symbol.rank).then <|
      (Ord.compare cs.length t.children.length).then (compareLists cs t.children)

def compareLists : List Tree → List Tree → Ordering
  | [], _ => .eq
  | _ :: _, [] => .eq
  | a :: as, b :: bs => (compare a b).then (compareLists as bs)

end

/-- is `b` taken rather than `a`? The better fit is, then the one of more weight; among trees that
fit equally badly the second, among those that fit the one that comes first in the order. -/
def preferred (a b : Tree) : Bool :=
  if b.cost < a.cost then true
  else if a.cost < b.cost then false
  else if a.weight < b.weight then true
  else if b.weight < a.weight then false
  else if 0 < a.cost then true
  else a.compare b == .gt

/-- can one of two trees over the same text stand for both? -/
def equivalent (a b : Option Tree) : Bool :=
  match a, b with
  | none, none => true
  | some a, some b =>
    a.symbol == b.symbol &&
      ((0 < a.cost && 0 < b.cost) ||
        (a.before.bytesTo a.start == b.before.bytesTo b.start &&
          a.start.bytesTo a.stop == b.start.bytesTo b.stop &&
          a.children.length == b.children.length && a.extra == b.extra &&
          a.info.layout == b.info.layout))
  | _, _ => false

/-- the trees up to the last that is not extra, and the extras behind it -/
def splitTrailing (ts : List Tree) : List Tree × List Tree :=
  let back := ts.reverse
  ((back.dropWhile Tree.extra).reverse, (back.takeWhile Tree.extra).reverse)

end Tree

end Python
end AnnotationAudit
