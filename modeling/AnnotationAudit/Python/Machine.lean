import AnnotationAudit.Python.Stack

/-!
# The parsing machine

* `Machine`        the automaton, the readings under way and the best tree so far;
* `Machine.reduce` closes a production in a version, along all ways down;
* `Machine.accept` makes a version's trees into a tree of the whole text;
* `Standing`, `Comparison`  how versions are compared.

What happens with text that fits nowhere is in `AnnotationAudit.Python.Recovery`.
-/

namespace AnnotationAudit
namespace Python

open Text

structure Machine where
  automaton : Automaton
  stack : Stack
  finished : Option Tree
  /-- how many trees of the whole text have been found -/
  accepts : Nat
deriving Inhabited

abbrev Run := StateM Machine

namespace Machine

/-- no more versions than this are kept -/
def maxVersions : Nat := 6

/-- by so many versions the bound may be passed while productions are closed -/
def versionOverflow : Nat := 4

def start (a : Automaton) (c : Cursor) : Machine :=
  { automaton := a, stack := .start c, finished := none, accepts := 0 }

def stack! (f : Stack → Stack) : Run Unit := modify fun m => { m with stack := f m.stack }

def stackSize : Run Nat := return (← get).stack.size

def stateOf (v : Nat) : Run Nat := return (← get).stack.state v

def cursorOf (v : Nat) : Run Cursor := return (← get).stack.cursor v

def goto (state : Nat) (x : Symbol) : Run Nat :=
  modifyGet fun m =>
    let (a, target) := m.automaton.goto state x
    (target, { m with automaton := a })

def actions (state : Nat) (x : Terminal) : Run (List Action) :=
  return (← get).automaton.actions state x

def hasActions (state : Nat) (x : Terminal) : Run Bool :=
  return (← get).automaton.hasActions state x

def push (v : Nat) (t : Tree) (state : Nat) : Run Unit := stack! (·.push v (some t) state)

/-- a tree on top of a version, in the state behind the tree's symbol -/
def pushNext (v : Nat) (t : Tree) : Run Unit := do push v t (← goto (← stateOf v) t.symbol)

/-- a tree on top of a version that may stand anywhere and does not change the state -/
def pushExtra (v : Nat) (t : Tree) : Run Unit := do push v t (← stateOf v)

/-- the symbol with productions at place `v` -/
def symbolOf (v : Nat) : Symbol :=
  if v < Nonterminal.count then
    match Nonterminal.all[v]? with
    | some n => .nonterminal n
    | none => .error
  else .repetition (v - Nonterminal.count)

/-! ## reading a token -/

/-- a token on top of a version; a layout symbol sets the version's layout -/
def shift (v : Nat) (t : Token) (extra : Bool) : Run Unit := do
  let leaf := Tree.leaf t extra
  if leaf.extra then pushExtra v leaf else pushNext v leaf
  if t.layout.isSome then stack! (·.setLayout v t.layout)

/-! ## closing a production -/

/-- the slices of each version together; the versions are in order, each after the one before -/
def groups : List Stack.Slice → List (List (List Tree))
  | [] => []
  | [x] => [[x.trees]]
  | x :: y :: xs =>
    match groups (y :: xs) with
    | ts :: rest =>
      if y.version == x.version then (x.trees :: ts) :: rest else [x.trees] :: ts :: rest
    | [] => [[x.trees]]

/-- the best tree over the alternatives, with the extras behind it -/
def bestBranch (symbol : Symbol) (steps : List Step) (c : Cursor) :
    List (List Tree) → Tree × List Tree
  | [] => (Tree.branch symbol steps c [], [])
  | ts :: rest =>
    let (inner, extras) := Tree.splitTrailing ts
    rest.foldl
      (fun (best : Tree × List Tree) ts =>
        let (inner, extras) := Tree.splitTrailing ts
        let other := Tree.branch symbol steps c inner
        if best.1.preferred other then (other, extras) else best)
      (Tree.branch symbol steps c inner, extras)

/-- merges version `w` into the first of the versions `vs` that it can become part of -/
def mergeInto (w : Nat) : List Nat → Run Bool
  | [] => return false
  | v :: vs => do
    if (← get).stack.canMerge v w then
      stack! (·.merge v w)
      return true
    else mergeInto w vs

/-- pushes the closed production in the version of each group, from version `w` on -/
def closeGroups (v : Nat) (symbol : Symbol) (steps : List Step) (weight : Int) :
    List (List (List Tree)) → Nat → Run Unit
  | [], _ => return
  | alternatives :: rest, w => do
    if maxVersions + versionOverflow < w then
      stack! (·.remove w)
      closeGroups v symbol steps weight rest w
    else
      let (tree, extras) := bestBranch symbol steps (← cursorOf w) alternatives
      pushNext w (tree.addWeight weight)
      extras.forM (pushExtra w)
      let merged ← mergeInto w ((List.range w).filter (· != v))
      closeGroups v symbol steps weight rest (if merged then w else w + 1)

/-- closes the production `p` in version `v`; the first new version, if there is one -/
def close (v : Nat) (p : Production) : Run (Option Nat) := do
  let before ← stackSize
  let slices ← modifyGet fun m =>
    let (s, slices) := m.stack.popCount v p.steps.length
    (slices, { m with stack := s })
  closeGroups v (symbolOf p.variableIndex) p.steps p.weight (groups slices) before
  return if before < (← stackSize) then some before else none

/-- closes the production with a number in version `v`, if there are such a version and such a
production -/
def reduce (v production : Nat) : Run (Option Nat) := do
  let m ← get
  if m.stack.size ≤ v then return none
  else (m.automaton.tables.numbered.get? production).elim (return none) (close v)

/-! ## the end of the text -/

/-- the last tree that is not extra takes in all others -/
def wholeTree (c : Cursor) (trees : List Tree) : Option Tree :=
  let back := trees.reverse
  match back.dropWhile Tree.extra with
  | [] => none
  | t :: front =>
    some (Tree.build t.symbol t.info.steps false c
      (front.reverse ++ t.children ++ (back.takeWhile Tree.extra).reverse))

def finish (t : Tree) (m : Machine) : Machine :=
  { m with
    accepts := m.accepts + 1
    finished := some (m.finished.elim t fun u => if u.preferred t then t else u) }

/-- version `v` is over, and so is the one that its ways down have made -/
def retire (v : Nat) : List Stack.Slice → Run Unit
  | x :: _ => stack! fun s => (s.remove x.version).halt v
  | [] => stack! (·.halt v)

/-- version `v` has read the whole text; behind its trees come those in `rest` and the end -/
def accept (v : Nat) (rest : List Tree) (eof : Token) : Run Unit := do
  let slices ← modifyGet fun m =>
    let (s, slices) := m.stack.popAll v
    (slices, { m with stack := s.clear v eof.stop })
  slices.forM fun x =>
    (wholeTree eof.stop (x.trees ++ rest ++ [Tree.leaf eof true])).forM fun t => modify (finish t)
  retire v slices

/-! ## comparing versions -/

/-- how a version stands -/
structure Standing where
  cost : Nat
  count : Nat
  weight : Int
  broken : Bool

/-- which of two versions is better, and whether so much that the other can go -/
inductive Comparison where
  | takeLeft
  | preferLeft
  | none
  | preferRight
  | takeRight
deriving DecidableEq

/-- a version may cost so much more than another before it goes -/
def maxCostDifference : Nat := 18 * Cost.tree

def Standing.compare (a b : Standing) : Comparison :=
  if !a.broken && b.broken then if a.cost < b.cost then .takeLeft else .preferLeft
  else if a.broken && !b.broken then if b.cost < a.cost then .takeRight else .preferRight
  else if a.cost < b.cost then
    if maxCostDifference < (b.cost - a.cost) * (1 + a.count) then .takeLeft else .preferLeft
  else if b.cost < a.cost then
    if maxCostDifference < (a.cost - b.cost) * (1 + b.count) then .takeRight else .preferRight
  else if b.weight < a.weight then .preferLeft
  else if a.weight < b.weight then .preferRight
  else .none

/-- the standing of a version; its count is settled on the way -/
def standing (v : Nat) : Run Standing := do
  stack! (·.settleCount v)
  let s := (← get).stack
  let paused := (s.status v).isPaused
  return {
    cost := if paused then s.cost v + Cost.tree else s.cost v
    count := s.countSinceError v
    weight := (s.top v).weight
    broken := paused || s.state v == Automaton.errorState }

/-- among the versions `ws`, is one better than `v` would be with `mine`? -/
def betterAmong (v : Nat) (mine : Standing) : List Nat → Run Bool
  | [] => return false
  | w :: ws => do
    let s := (← get).stack
    if w == v || !s.isActive w || (s.cursor w).offset < (s.cursor v).offset then
      betterAmong v mine ws
    else
      match mine.compare (← standing w) with
      | .takeRight => return true
      | .preferRight =>
        if (← get).stack.canMerge w v then return true else betterAmong v mine ws
      | _ => betterAmong v mine ws

/-- is there a version, or a finished tree, that is better than `v` would be at this cost? -/
def betterExists (v : Nat) (broken : Bool) (cost : Nat) : Run Bool := do
  let m ← get
  match m.finished with
  | some t => if t.cost ≤ cost then return true else pure ()
  | none => pure ()
  stack! (·.settleCount v)
  let s := (← get).stack
  betterAmong v ⟨cost, s.countSinceError v, (s.top v).weight, broken⟩ (List.range s.size)

end Machine

end Python
end AnnotationAudit
