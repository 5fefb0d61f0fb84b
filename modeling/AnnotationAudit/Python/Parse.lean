import AnnotationAudit.Python.Recovery

/-!
# Parsing

* `Machine.advance`   one token further in one version;
* `Machine.condense`  compares all versions, drops those that are clearly worse, and mends the best
                      if none can go on;
* `parse`             the tree of a text. Every text has one; text that fits nowhere is part of it.
-/

namespace AnnotationAudit
namespace Python

open Text

namespace Machine

/-! ## one version -/

/-- what became of the actions on a token -/
inductive Progress where
  /-- the token was used -/
  | used
  /-- productions were closed; the last one made this version -/
  | closed (v : Nat)
  | stuck

/-- the actions on a token, one after the other: each closed production makes a version of its own,
and reading the token ends the turn -/
def perform (v : Nat) (t : Token) : List Action → Option Nat → Run Progress
  | [], none => return .stuck
  | [], some w => return .closed w
  | a :: rest, last => do
    match a with
    | .shift true => perform v t rest last
    | .shift false =>
      if t.symbol.isSome then shift v t false
      return .used
    | .shiftExtra =>
      shift v t true
      return .used
    | .reduce p =>
      let new ← reduce v p
      perform v t rest (new.or last)
    | .accept =>
      accept v [] t
      return .used
    | .recover =>
      recover v t
      return .used

/-- what version `v` does after the actions on the token: it tries again where productions were
closed, takes a keyword for a name, or waits to be mended -/
def proceed (v state : Nat) (t : Token) (again : Token → Run Unit) : Progress → Run Unit
  | .used => return
  | .closed w => do
    stack! (·.renumber w v)
    again t
  | .stuck => do
    let isKeyword := (t.symbol.map Terminal.isKeyword).getD false
    if isKeyword && (← hasActions state .identifier) then
      again { t with symbol := some .identifier }
    else if state == Automaton.errorState then recover v t
    else stack! (·.pause v t)

/-- uses the token in version `v`, after closing what has to be closed before it -/
def consume (v : Nat) : Nat → Token → Run Unit
  | 0, _ => stack! (·.halt v)
  | fuel + 1, t => do
    let state ← stateOf v
    let as ← t.symbol.elim (return []) (actions state)
    proceed v state t (consume v fuel) (← perform v t as none)

/-- one token further in version `v` -/
def advance (v fuel : Nat) : Run Unit := do
  let m ← get
  let t := Token.read m.automaton (m.stack.state v) (m.stack.hasAdvanced v)
    (m.stack.version v).layout (m.stack.cursor v)
  consume v fuel t

/-- goes on with version `v` until it has come as far as any before; the place reached -/
def advanceWhile (v budget : Nat) : Nat → Nat → Run Nat
  | 0, last => return last
  | fuel + 1, last => do
    if (← get).stack.isActive v then
      advance v budget
      let place := (← cursorOf v).offset
      if last < place || (0 < v && place == last) then return place
      else advanceWhile v budget fuel last
    else return last

/-- goes on with all versions from `v` on; the place reached and the number of versions -/
def advanceAll (budget : Nat) : Nat → Nat → Nat → Run (Nat × Nat)
  | 0, _, last => return (last, 0)
  | fuel + 1, v, last => do
    let count ← stackSize
    if count ≤ v then return (last, count)
    else
      let last ← advanceWhile v budget budget last
      advanceAll budget fuel (v + 1) last

/-! ## all versions -/

/-- what becomes of version `i` after it has been compared with the versions before it -/
inductive Fate where
  | stays
  | gone

/-- compares version `i`, whose standing is `mine`, with the versions from `j` on before it; the
place at which `i` ends up -/
def compareWithEarlier (mine : Standing) : Nat → Nat → Nat → Run (Nat × Fate)
  | 0, _, i => return (i, .stays)
  | fuel + 1, j, i => do
    if i ≤ j then return (i, .stays)
    else
      match (← standing j).compare mine with
      | .takeLeft =>
        stack! (·.remove i)
        return (i, .gone)
      | .preferLeft | .none =>
        if ← mergeInto i [j] then return (i, .gone)
        else compareWithEarlier mine fuel (j + 1) i
      | .preferRight =>
        if ← mergeInto i [j] then return (i, .gone)
        else
          stack! (·.swap i j)
          compareWithEarlier mine fuel (j + 1) i
      | .takeRight =>
        stack! (·.remove j)
        compareWithEarlier mine fuel j (i - 1)

/-- compares all versions from `i` on with those before them; the least cost of a version that is
not broken -/
def compareAll : Nat → Nat → Option Nat → Run (Option Nat)
  | 0, _, least => return least
  | fuel + 1, i, least => do
    let s := (← get).stack
    if s.size ≤ i then return least
    else if (s.status i).isHalted then
      stack! (·.remove i)
      compareAll fuel i least
    else
      let mine ← standing i
      let least :=
        if mine.broken then least
        else match least with
          | some n => some (min n mine.cost)
          | none => some mine.cost
      match ← compareWithEarlier mine (s.size + 1) 0 i with
      | (i, .stays) => compareAll fuel (i + 1) least
      | (i, .gone) => compareAll fuel i least

/-- resumes and mends the best paused version if no version before it can go on, and removes the
other paused ones; `least` is the cost to beat -/
def mend : Nat → Nat → Nat → Bool → Option Nat → Run (Option Nat)
  | 0, _, _, _, least => return least
  | fuel + 1, i, n, going, least => do
    if n ≤ i then return least
    else
      let m ← get
      match m.stack.status i with
      | .paused t =>
        if !going && m.accepts < maxVersions then
          let cost := m.stack.cost i
          stack! (·.resume i)
          handleMisfit i t
          mend fuel (i + 1) n true (some cost)
        else
          stack! (·.remove i)
          mend fuel i (n - 1) going least
      | _ => mend fuel (i + 1) n true least

/-- orders the versions, drops the hopeless ones and mends the best if none can go on; the cost that
a finished tree has to beat -/
def condense : Run (Option Nat) := do
  let size ← stackSize
  let least ← compareAll (2 * size + 1) 0 none
  stack! fun s => { s with versions := s.versions.take maxVersions }
  let n ← stackSize
  mend (2 * n + 1) 0 n false least

/-- is the finished tree better than anything still under way? -/
def settled (m : Machine) (least : Option Nat) : Bool :=
  match m.finished, least with
  | some t, some n => t.cost < n
  | some _, none => true
  | none, _ => false

/-- goes on until the text has been read in the best way -/
def run (budget : Nat) : Nat → Nat → Run Unit
  | 0, _ => return
  | fuel + 1, last => do
    let (last, count) ← advanceAll budget budget 0 last
    let least ← condense
    if settled (← get) least || count == 0 then return
    else run budget fuel last

end Machine

/-- enough rounds for any text of this many characters -/
def budgetFor (n : Nat) : Nat := 2000 + 100 * n

def parse (text : List Char) : Tree :=
  let c := Cursor.ofList text
  let budget := budgetFor text.length
  let (_, m) := (Machine.run budget budget 0).run (Machine.start Automaton.python c)
  m.finished.getD (Tree.wreck false c [])

end Python
end AnnotationAudit
