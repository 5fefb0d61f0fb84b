import AnnotationAudit.Python.Production
import AnnotationAudit.Python.Table

/-!
# The parsing automaton

A canonical LR(1) automaton whose states are made when they are first entered.

* `Tables`       what is computed from the productions once: first terminals, which symbols can
                 begin which, and when two places in productions count as the same;
* `Entry`        a place in a production with the terminals that may follow the whole of it;
* `State`        the entries of a state and what follows from them;
* `State.actions` what a state allows on a terminal, with conflicts settled by rank and side;
* `Automaton`    the states made so far; `Automaton.goto` finds the successor of a state.

No symbol but the start symbol derives the empty text.
-/

namespace AnnotationAudit
namespace Python

/-! ## tables -/

/-- do the places before step `d` of `p` and of `q` count as the same? What has been read matters
only by its marks. -/
def Production.sameAt (p q : Production) (d : Nat) : Bool :=
  p.variableIndex == q.variableIndex && p.weight == q.weight &&
  p.steps.length == q.steps.length &&
  (match d with
    | 0 => true
    | e + 1 =>
      match p.steps[e]?, q.steps[e]? with
      | some s, some t => s.rank == t.rank && s.side == t.side
      | _, _ => true) &&
  ((p.steps.take d).zip (q.steps.take d)).all
    (fun st => st.1.shown == st.2.shown && st.1.field == st.2.field) &&
  p.steps.drop d == q.steps.drop d

/-- everything that depends on the productions alone -/
structure Tables where
  /-- the productions, and behind them the one that holds the start symbol alone -/
  productions : Array Production
  /-- the same, to look them up -/
  numbered : Table Production
  /-- for each symbol with productions, the terminals its texts can begin with -/
  first : Table Terminals
  /-- for each symbol with productions, the symbols that can begin it, as a bit mask -/
  reach : Table Nat
  /-- for each symbol with productions, the symbols it can consist of: each has the first bit of its
  row -/
  units : List Rows
  /-- for each symbol with productions, the symbols that begin longer productions of it, with the
  terminals that can come next there -/
  follows : List Rows
  /-- for each symbol, the productions of the grammar that begin with it -/
  starting : Rows
  /-- the productions of the empty text -/
  empties : List Nat
  /-- for each production and place, the first production that is the same there -/
  same : Table (List Nat)
deriving Inhabited

namespace Tables

/-- the number of symbols with productions, the start production's own included -/
def width (t : Tables) : Nat := t.units.length

/-- the terminals a symbol's texts can begin with -/
def firstOf (first : Table Terminals) (s : Symbol) : Terminals :=
  match s with
  | .terminal t => Terminals.single t
  | _ =>
    match s.variableIndex? with
    | some v => first.getD v 0
    | none => 0

/-- the numbered productions of `k` left-hand sides, from `v` on; they stand in this order -/
def groups : Nat → Nat → List (Production × Nat) → List (List (Production × Nat))
  | 0, _, _ => []
  | k + 1, v, ps =>
    ps.takeWhile (·.1.variableIndex == v) ::
      groups k (v + 1) (ps.dropWhile (·.1.variableIndex == v))

/-- for each left-hand side, the union of what its productions give -/
def gather (gs : List (List (Production × Nat))) (f : Production → Nat) : List Nat :=
  gs.map fun row => row.foldl (fun m c => m ||| f c.1) 0

/-- for each symbol, the numbers of the productions that begin with it, which are below `n` -/
def startingWith (n : Nat) (ps : List (Production × Nat)) : Rows :=
  ps.foldl (fun r c =>
    match c.1.steps with
    | s :: _ => r.add n s.symbol.rank (1 <<< c.2)
    | [] => r) 0

/-- for each place in `p`, the number of the first production that is the same there; `i` is that of
`p` -/
def firstSame (peers : List (Production × Nat)) (p : Production) (i : Nat) : List Nat :=
  (List.range (p.steps.length + 1)).map fun d =>
    ((peers.find? fun q => p.sameAt q.1 d).map (·.2)).getD i

/-- the production that holds the start symbol alone; its own symbol comes behind all others -/
def startOf (count : Nat) : Production :=
  ⟨count, [⟨.nonterminal .module, none, none, none, none⟩], 0⟩

def build (grammar : Array Production) (count : Nat) : Tables :=
  let n := count + 1
  let ps := grammar.push (startOf count)
  let gs := groups n 0 ps.toList.zipIdx
  let begins := closure n <| gather gs fun p =>
    match p.steps with
    | s :: _ => 1 <<< s.symbol.rank
    | [] => 0
  let consists := closure n <| gather gs fun p =>
    match p.steps with
    | [s] => 1 <<< s.symbol.rank
    | _ => 0
  let first := Table.ofList (begins.map (· % 1 <<< Terminal.count))
  let follows := gs.map fun row => row.foldl (fun r c =>
    match c.1.steps with
    | s :: next :: _ =>
      match s.symbol.variableIndex? with
      | some v => r.add Terminal.count v (firstOf first next.symbol)
      | none => r
    | _ => r) 0
  let empties := (ps.toList.zipIdx.filter fun (p, _) => p.steps.isEmpty).map (·.2)
  let peers := Table.ofList gs
  { productions := ps, numbered := .ofList ps.toList, first
    reach := .ofList (begins.map (· >>> Terminal.count))
    units := consists.map fun r =>
      (members n (r >>> Terminal.count)).foldl (fun r v => Rows.add Terminal.count r v 1) 0
    follows
    starting := startingWith grammar.size grammar.toList.zipIdx, empties
    same := .ofList (ps.toList.zipIdx.map fun (p, i) =>
      firstSame (peers.getD p.variableIndex []) p i) }

def python : Tables := build Python.productions variableCount

/-- the number of the production that holds the start symbol alone -/
def startProduction (t : Tables) : Nat := t.productions.size - 1

/-- the left-hand side of a production -/
def variableOf (t : Tables) (p : Nat) : Nat :=
  match t.numbered.get? p with
  | some q => q.variableIndex
  | none => 0

/-- the productions of the grammar that begin with a symbol -/
def beginningWith (t : Tables) (x : Symbol) : List Nat :=
  members t.startProduction (t.starting.row t.startProduction x.rank)

def step? (t : Tables) (p d : Nat) : Option Step := (t.numbered.get? p).bind (·.steps[d]?)

end Tables

/-! ## entries -/

/-- a place in a production: `dot` steps have been read; `ahead` may follow the whole -/
structure Entry where
  production : Nat
  dot : Nat
  ahead : Terminals
deriving DecidableEq, Inhabited

namespace Entry

def next? (t : Tables) (e : Entry) : Option Step := t.step? e.production e.dot

def last? (t : Tables) (e : Entry) : Option Step :=
  match e.dot with
  | 0 => none
  | d + 1 => t.step? e.production d

/-- the rank of a place: that of the step read last -/
def rank (t : Tables) (e : Entry) : Int := ((e.last? t).bind (·.rank)).getD 0

def side (t : Tables) (e : Entry) : Option Associativity := (e.last? t).bind (·.side)

def advance (t : Tables) (e : Entry) : Entry :=
  { e with
    production := (t.same.getD e.production [])[e.dot + 1]?.getD e.production
    dot := e.dot + 1 }

def before (a b : Entry) : Bool :=
  a.production < b.production || (a.production == b.production && a.dot ≤ b.dot)

/-- equal places in a sorted list become one, which may be followed by what either may -/
def merge : List Entry → List Entry
  | [] => []
  | e :: rest =>
    match merge rest with
    | f :: fs =>
      if e.production == f.production && e.dot == f.dot then
        { f with ahead := e.ahead ||| f.ahead } :: fs
      else e :: f :: fs
    | [] => [e]

end Entry

/-! ## states -/

/-- a state of the automaton -/
structure State where
  /-- what has been begun -/
  entries : List Entry
  /-- for each symbol with productions that may come next, what may follow it; else 0 -/
  ahead : Rows
  /-- the terminals that may come next -/
  shifts : Terminals
  /-- the terminals on which the state does anything -/
  tokens : Terminals
  /-- a number that tells most states apart -/
  key : Nat
  /-- the successors found so far -/
  targets : List (Nat × Nat)
deriving Inhabited

namespace State

/-- a number that tells most lists of entries apart -/
def keyOf (es : List Entry) : Nat :=
  es.foldl (fun h e => (h * 8191 + e.production * 31 + e.dot + e.ahead) % 2305843009213693951) 7

/-- the symbols with productions that come next in some entry, with what may follow them -/
def seeds (t : Tables) (es : List Entry) : List (Nat × Terminals) :=
  es.filterMap fun e =>
    match (e.next? t).bind (·.symbol.variableIndex?) with
    | none => none
    | some v =>
      match t.step? e.production (e.dot + 1) with
      | some s => some (v, Tables.firstOf t.first s.symbol)
      | none => some (v, e.ahead)

def ofEntries (t : Tables) (es : List Entry) : State :=
  let seeds := seeds t es
  let active := seeds.foldl (fun m s => m ||| t.reach.getD s.1 0) 0
  let own : Rows := (among active t.follows).foldl (fun r row => r ||| row.1)
    (seeds.foldl (fun r s => Rows.add Terminal.count r s.1 s.2) 0)
  let ahead : Rows := (among active t.units).foldl
    (fun r row => r ||| row.1 * own.row Terminal.count row.2) 0
  let shifts := es.foldl (fun ts e =>
    match e.next? t with
    | some s => ts ||| Tables.firstOf t.first s.symbol
    | none => ts) 0
  let reduces := es.foldl (fun ts e => if (e.next? t).isNone then ts ||| e.ahead else ts) <|
    t.empties.foldl (fun ts p => ts ||| ahead.row Terminal.count (t.variableOf p)) 0
  let extras := Terminals.ofList (Terminal.all.filter Terminal.isExtra)
  { entries := es, ahead, shifts, tokens := shifts ||| reduces ||| extras, key := keyOf es,
    targets := [] }

/-- the entries behind the symbol `x` -/
def successor (t : Tables) (s : State) (x : Symbol) : List Entry :=
  let begun := s.entries.filterMap fun e =>
    match e.next? t with
    | some step => if step.symbol = x then some (e.advance t) else none
    | none => none
  let fresh := (t.beginningWith x).filterMap fun p =>
    match s.ahead.row Terminal.count (t.variableOf p) with
    | 0 => none
    | ahead => some (Entry.advance t ⟨p, 0, ahead⟩)
  Entry.merge (sorted Entry.before (begun ++ fresh))

end State

/-! ## actions -/

/-- what a state does on a terminal -/
inductive Action where
  /-- read it; a `repeated` one is never taken, because the repetition is closed first -/
  | shift (repeated : Bool)
  /-- read it without a change of state -/
  | shiftExtra
  /-- close a production -/
  | reduce (production : Nat)
  | accept
  /-- look for a state that can go on -/
  | recover
deriving DecidableEq, Repr, Inhabited

namespace Action

/-- the order in which productions are closed when several can be -/
def reduceBefore (t : Tables) (a b : Entry) : Bool :=
  let key (e : Entry) : Nat × Nat × Int :=
    (e.dot, t.variableOf e.production, ((t.numbered.get? e.production).map (·.weight)).getD 0)
  let (d, v, w) := key a
  let (d', v', w') := key b
  d < d' || (d == d' && (v < v' || (v == v' && w ≤ w')))

/-- the entries that a reader of `x` could close, those of the highest rank only -/
def highest (t : Tables) (es : List Entry) : List Entry :=
  let ranks := es.map (Entry.rank t)
  match ranks.max? with
  | none => []
  | some top => es.filter fun e => e.rank t == top

/-- the action that closes an entry -/
def closing (t : Tables) (e : Entry) : Action :=
  if e.production == t.startProduction then .accept else .reduce e.production

/-- is `v` the left-hand side of a repetition? -/
def isRepetition (v : Nat) : Bool := Nonterminal.count ≤ v

/-- what remains of closing `closed` and reading on when the entries `open_` can go on -/
def settle (t : Tables) (complete closed open_ : List Entry) : List Action :=
  let reduces := closed.map (closing t)
  let involved := (open_ ++ complete).map fun e => t.variableOf e.production
  match involved with
  | [] => [.shift false]
  | v :: vs =>
    if isRepetition v && v < t.width - 1 && vs.all (· == v) then reduces ++ [.shift true]
    else
      let rank := match closed with
        | [] => 0
        | e :: _ => e.rank t
      let more := open_.any fun e => rank < e.rank t
      let less := open_.any fun e => e.rank t < rank
      if more && !less then [.shift false]
      else if less && !more then reduces
      else if less && more then reduces ++ [.shift false]
      else
        let sides := closed.map (Entry.side t)
        if sides.all (· == some .left) then reduces
        else if sides.all (· == some .right) then [.shift false]
        else reduces ++ [.shift false]

end Action

namespace State

/-- the entries that are complete and may be followed by `x` -/
def complete (t : Tables) (s : State) (x : Terminal) : List Entry :=
  (s.entries.filter fun e => (e.next? t).isNone && Terminals.has e.ahead x) ++
    t.empties.filterMap fun p =>
      let ahead := s.ahead.row Terminal.count (t.variableOf p)
      if Terminals.has ahead x then some ⟨p, 0, ahead⟩ else none

def actions (t : Tables) (s : State) (x : Terminal) : List Action :=
  if !Terminals.has s.tokens x then []
  else
    let complete := s.complete t x
    match complete with
    | [] => if Terminals.has s.shifts x then [.shift false] else [.shiftExtra]
    | _ =>
      let closed := sorted (Action.reduceBefore t) (Action.highest t complete)
      if Terminals.has s.shifts x then
        let open_ := s.entries.filter fun e =>
          match e.next? t with
          | some step => Terminals.has (Tables.firstOf t.first step.symbol) x
          | none => false
        Action.settle t complete closed open_
      else closed.map (Action.closing t)

end State

/-! ## the automaton -/

/-- the states made so far -/
structure Automaton where
  tables : Tables
  states : Array State
deriving Inhabited

namespace Automaton

def errorState : Nat := 0

def startState : Nat := 1

/-- on which terminals does the state in which nothing fits do anything? -/
def errorTokens : Terminals :=
  Terminals.ofList (Terminal.all.filter (· ≠ .formatText))

def start (t : Tables) : Automaton :=
  let nowhere : State :=
    { entries := [], ahead := 0, shifts := 0, tokens := errorTokens, key := 0, targets := [] }
  let first := State.ofEntries t [⟨t.startProduction, 0, Terminals.single .endOfText⟩]
  { tables := t, states := #[nowhere, first] }

/-- the automaton of the Python grammar before any text has been read -/
def python : Automaton := start Tables.python

def tokens (a : Automaton) (s : Nat) : Terminals :=
  match a.states[s]? with
  | some st => st.tokens
  | none => 0

def actions (a : Automaton) (s : Nat) (x : Terminal) : List Action :=
  if s == errorState then
    if x.isExtra then [.shiftExtra]
    else if Terminals.has errorTokens x then [.recover] else []
  else
    match a.states[s]? with
    | some st => st.actions a.tables x
    | none => []

def hasActions (a : Automaton) (s : Nat) (x : Terminal) : Bool := Terminals.has (a.tokens s) x

/-- the state behind the symbol `x`, made if it is new; the error state if `x` cannot come next -/
def goto (a : Automaton) (s : Nat) (x : Symbol) : Automaton × Nat :=
  match a.states[s]? with
  | none => (a, errorState)
  | some st =>
    match st.targets.lookup x.rank with
    | some target => (a, target)
    | none =>
      let es := st.successor a.tables x
      if es.isEmpty then (a, errorState)
      else
        let key := State.keyOf es
        let (states, target) :=
          match a.states.findIdx? (fun u => u.key == key && u.entries == es) with
          | some i => (a.states, i)
          | none => (a.states.push (State.ofEntries a.tables es), a.states.size)
        ({ a with states := states.modify s fun u =>
            { u with targets := (x.rank, target) :: u.targets } }, target)

end Automaton

end Python
end AnnotationAudit
