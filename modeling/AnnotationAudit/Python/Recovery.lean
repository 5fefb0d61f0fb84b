import AnnotationAudit.Python.Machine

/-!
# Text that fits nowhere

When no version can use the next token, the best of them is mended:

* a token may be missing: if one more token would let the parser go on, it is put in;
* a state below may be able to go on: then all above it becomes one tree of text that fits nowhere;
* else the token is skipped.

All of these are followed side by side as versions, and the cheapest wins.
-/

namespace AnnotationAudit
namespace Python
namespace Machine

open Text

/-- no deeper than this does a version go back -/
def maxLandmarkDepth : Nat := 16

/-! ## closing all that can be closed -/

/-- what a state does on some of the terminals -/
structure Outlook where
  canShift : Bool := false
  /-- the productions that can be closed, one for each symbol and length -/
  reduces : List Nat := []

/-- have the productions the same symbol and length? -/
def sameShape (t : Tables) (p q : Nat) : Bool :=
  match t.numbered.get? p, t.numbered.get? q with
  | some a, some b => a.variableIndex == b.variableIndex && a.steps.length == b.steps.length
  | _, _ => false

def Outlook.add (t : Tables) (o : Outlook) : Action → Outlook
  | .shift false => { o with canShift := true }
  | .recover => { o with canShift := true }
  | .reduce p =>
    if ((t.numbered.get? p).map (·.steps.isEmpty)).getD true || o.reduces.any (sameShape t p)
    then o
    else { o with reduces := o.reduces ++ [p] }
  | _ => o

/-- what a state does on a terminal, or on any terminal -/
def outlook (state : Nat) (x : Option Terminal) : Run Outlook := do
  let a := (← get).automaton
  let terminals := match x with
    | some x => [x]
    | none => Terminal.all.drop 1
  return terminals.foldl (fun o x => (a.actions state x).foldl (Outlook.add a.tables) o) {}

/-- closes the productions one after the other, each in version `v` -/
def reduceEach (v : Nat) : List Nat → Option Nat → Run (Option Nat)
  | [], last => return last
  | p :: ps, _ => do reduceEach v ps (← reduce v p)

/-- closes all that can be closed in the versions from `v` on, beginning with `first`, whatever
comes next or, if `x` is given, in front of `x`; can some version then read `x`? -/
def closeAllFrom (first initial : Nat) (x : Option Terminal) : Nat → Nat → Nat → Bool → Run Bool
  | 0, _, _, can => return can
  | fuel + 1, turn, v, can => do
    let count ← stackSize
    if count ≤ v then return can
    else
      if ← mergeInto v ((List.range v).drop initial) then
        closeAllFrom first initial x fuel (turn + 1) v can
      else
        let o ← outlook (← stateOf v) x
        let new ← reduceEach v o.reduces none
        let next := if v == first then count else v + 1
        if o.canShift then closeAllFrom first initial x fuel (turn + 1) next true
        else
          match new with
          | some w =>
            if turn < maxVersions then
              stack! (·.renumber w v)
              closeAllFrom first initial x fuel (turn + 1) v can
            else
              if x.isSome then stack! (·.remove v)
              closeAllFrom first initial x fuel (turn + 1) next can
          | none =>
            if x.isSome then stack! (·.remove v)
            closeAllFrom first initial x fuel (turn + 1) next can

/-- closes all that can be closed in version `v`, in new versions -/
def closeAll (v : Nat) (x : Option Terminal) : Run Bool := do
  closeAllFrom v (← stackSize) x 1000 0 v false

/-! ## going back -/

/-- the trees that a version goes back over, those in the tree of text that fits nowhere below them
included -/
def reopened (error : Option Tree) (trees : List Tree) : List Tree :=
  (error.elim [] Tree.children) ++ trees

/-- version `v` gets one tree of text that fits nowhere for `trees`, and the extras at their end -/
def pushWreck (v : Nat) (trees : List Tree) : Run Unit := do
  let (inner, extras) := Tree.splitTrailing trees
  if !inner.isEmpty then pushExtra v (Tree.wreck true (← cursorOf v) inner)
  extras.forM (pushExtra v)

/-- the versions of `slices` in the state `goal` get one tree of all that was above it -/
def landSlices (goal : Nat) : List Stack.Slice → Option Nat → Run (Option Nat)
  | [], last => return last
  | x :: xs, last => do
    if last == some x.version then landSlices goal xs last
    else
      if (← stateOf x.version) != goal then
        stack! (·.halt x.version)
        landSlices goal xs last
      else
        let error ← modifyGet fun m =>
          let (s, t) := m.stack.popError x.version
          (t, { m with stack := s })
        pushWreck x.version (reopened error x.trees)
        landSlices goal xs (some x.version)

/-- goes back over `depth` trees to the state `goal`, in a new version; could it? -/
def landAt (v depth goal : Nat) : Run Bool := do
  let slices ← modifyGet fun m =>
    let (s, slices) := m.stack.popCount v depth
    (slices, { m with stack := s })
  return (← landSlices goal slices none).isSome

def landingCost (cost : Nat) (c : Cursor) (l : Landmark) : Nat :=
  cost + l.depth * Cost.tree + l.cursor.bytesTo c * Cost.byte + l.cursor.rowsTo c * Cost.line

/-- goes back to the first landmark that can use the token; could it? -/
def landAmong (v versions : Nat) (c : Cursor) (cost : Nat) (progress : Bool) (x : Terminal) :
    List Landmark → Run Bool
  | [] => return false
  | l :: ls => do
    let s := (← get).stack
    let taken := (List.range versions).any fun w =>
      s.state w == l.state && (s.cursor w).offset == c.offset
    if l.state == Automaton.errorState || l.cursor.offset == c.offset || taken then
      landAmong v versions c cost progress x ls
    else if ← betterExists v false (landingCost cost c l) then return false
    else if ← hasActions l.state x then
      if ← landAt v (if progress then l.depth + 1 else l.depth) l.state then return true
      else landAmong v versions c cost progress x ls
    else landAmong v versions c cost progress x ls

def removeIdle : Nat → Nat → Run Unit
  | 0, _ => return
  | fuel + 1, v => do
    let s := (← get).stack
    if s.size ≤ v then return
    else if s.isActive v then removeIdle fuel (v + 1)
    else
      stack! (·.remove v)
      removeIdle fuel v

/-! ## skipping -/

/-- adds the token to the skipped ones on top of a version -/
def skipToken (v : Nat) (progress : Bool) (t : Token) : Run Unit := do
  let extra := (t.symbol.map Terminal.isExtra).getD false
  let c ← cursorOf v
  let one := Tree.skipped c [Tree.leaf t extra]
  let all ←
    if progress then do
      let slices ← modifyGet fun m =>
        let (s, slices) := m.stack.popCount v 1
        (slices, { m with stack := s })
      match slices with
      | [] => pure one
      | x :: _ =>
        stack! fun s =>
          ({ s with versions := s.versions.take (x.version + 1) } : Stack).renumber x.version v
        pure (Tree.skipped c (x.trees ++ [one]))
    else pure one
  push v all Automaton.errorState
  if t.layout.isSome then stack! (·.setLayout v t.layout)

/-- goes on from the error state with the token -/
def recover (v : Nat) (t : Token) : Run Unit := do
  stack! (·.settleCount v)
  let versions ← stackSize
  let s := (← get).stack
  let c := s.cursor v
  let progress := 0 < s.countSinceError v
  let cost := s.cost v
  let landed ←
    match t.symbol, (s.version v).landmarks with
    | some x, some ls => landAmong v versions c cost progress x ls
    | _, _ => pure false
  removeIdle (2 * (← stackSize)) versions
  if landed && (maxVersions < (← stackSize) || t.layoutChanged) then stack! (·.halt v)
  else if t.symbol == some .endOfText then
    accept v [Tree.wreck false c []] t
  else
    let skipCost := cost + Cost.tree + t.before.bytesTo t.stop * Cost.byte +
      t.before.rowsTo t.stop * Cost.line
    if ← betterExists v false skipCost then stack! (·.halt v)
    else skipToken v progress t

/-! ## putting in a missing token -/

/-- puts in the first of the terminals `xs` that lets version `v` go on with `x`; did it? -/
def insertAmong (v : Nat) (x : Terminal) : List Terminal → Run Bool
  | [] => return false
  | m :: ms => do
    let state ← stateOf v
    let shifts := match (← actions state m).getLast? with
      | some (.shift _) => true
      | _ => false
    if !shifts then insertAmong v x ms
    else
      let next ← goto state (.terminal m)
      if next == state then insertAmong v x ms
      else
        let closes := match (← actions next x).head? with
          | some (.reduce _) => true
          | _ => false
        if !closes then insertAmong v x ms
        else
          let w ← stackSize
          stack! (·.copy v)
          push w (Tree.missing m (← cursorOf v)) next
          let ahead := if x == .endOfText then none else some x
          if ← closeAll w ahead then return true else insertAmong v x ms

/-- tries to put in a missing token in each of the versions `vs` until it works once, and marks in
each that text stopped fitting -/
def breakAll (x : Option Terminal) : List Nat → Bool → Run Unit
  | [], _ => return
  | v :: vs, inserted => do
    let inserted ←
      match x with
      | some x => if inserted then pure true else insertAmong v x (Terminal.all.drop 1)
      | none => pure inserted
    stack! (·.push v none Automaton.errorState)
    breakAll x vs inserted

/-- the token fits nowhere in version `v`: everything that can be closed is, and recovery begins -/
def handleMisfit (v : Nat) (t : Token) : Run Unit := do
  let previous ← stackSize
  let _ ← closeAll v none
  let count ← stackSize
  breakAll t.symbol (v :: (List.range count).drop previous) false
  ((List.range count).drop previous).forM fun _ => do
    let _ ← mergeInto previous [v]
  stack! (·.markLandmarks v maxLandmarkDepth)
  recover v t

end Machine
end Python
end AnnotationAudit
