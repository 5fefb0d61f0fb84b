import AnnotationAudit.Python.Node

/-!
# What is refused

A text is refused where its tree has a fault. A tree without faults is still refused where it uses
what only version 2 of the language knows, or declares parameters in a way no version allows.

* `firstFault`        the first node that does not fit or should be there and is not;
* `firstInvalid`      the first parameter that repeats a name, unpacks a tuple, or lacks a default
                      behind a positional parameter that has one;
* `firstRefused`      the first construct that is refused in a tree without faults;
* `refusal`           the node at which a text is refused, if it is.
-/

namespace AnnotationAudit

open Python Text

/-! ## faults -/

mutual

/-- the first fault at or below a node; only faulty children are looked at -/
def firstFault : Node → Option Node
  | .mk k n a f s e cs =>
    if k == .error || a then some (.mk k n a f s e cs) else firstFaultIn cs

def firstFaultIn : List (Option Field × Node) → Option Node
  | [] => none
  | (_, c) :: cs =>
    if c.faulty || c.absent then
      match firstFault c with
      | some n => some n
      | none => firstFaultIn cs
    else firstFaultIn cs

end

/-! ## parameter lists -/

/-- what a child of a parameter list is -/
inductive ParameterForm where
  /-- a parameter without stars -/
  | plain (name : Node) (hasDefault : Bool)
  /-- a parameter with stars -/
  | splat (name : Node)
  /-- a tuple to be unpacked -/
  | tuple
  /-- a lone star -/
  | separator
  | other
deriving Inhabited

namespace ParameterForm

def isSplat (n : Node) : Bool := n.kind == .listSplatPattern || n.kind == .dictionarySplatPattern

def ofTarget (target : Node) (hasDefault : Bool) : ParameterForm :=
  if isSplat target then .splat (target.namedChildren.head?.getD target)
  else .plain target hasDefault

def ofNode (n : Node) : ParameterForm :=
  match n.kind with
  | .defaultParameter | .typedDefaultParameter =>
    match n.child? .name with
    | some target => ofTarget target true
    | none => .other
  | .typedParameter =>
    match n.namedChildren.head? with
    | some target => ofTarget target false
    | none => .other
  | .identifier | .listSplatPattern | .dictionarySplatPattern => ofTarget n false
  | .tuplePattern => .tuple
  | .keywordSeparator => .separator
  | _ => .other

end ParameterForm

/-- what has been seen of a parameter list -/
structure Declared where
  names : List String := []
  afterDefault : Bool := false
  keywordOnly : Bool := false
deriving Inhabited

namespace Declared

/-- one more name; `none` if it is there already. Only plain identifiers are names. -/
def declare (source : String) (d : Declared) (name : Node) : Option Declared :=
  if name.kind == .identifier then
    let text := name.text source
    if d.names.contains text then none else some { d with names := text :: d.names }
  else some d

/-- one more child of the list; `none` if it is invalid -/
def add (source : String) (d : Declared) (n : Node) : Option Declared :=
  match ParameterForm.ofNode n with
  | .tuple => none
  | .separator => some { d with keywordOnly := true }
  | .other => some d
  | .splat name => { d with keywordOnly := true }.declare source name
  | .plain name hasDefault =>
    if d.keywordOnly then d.declare source name
    else if hasDefault then { d with afterDefault := true }.declare source name
    else if d.afterDefault then none
    else d.declare source name

end Declared

/-- the first invalid child of a parameter list -/
def firstInvalidFrom (source : String) (d : Declared) : List Node → Option Node
  | [] => none
  | n :: ns =>
    match d.add source n with
    | none => some n
    | some d => firstInvalidFrom source d ns

def firstInvalid (source : String) (list : Node) : Option Node :=
  firstInvalidFrom source {} list.namedChildren

/-! ## constructs -/

def isParameterList (k : Kind) : Bool := k == .parameters || k == .lambdaParameters

/-- is the node a statement of version 2 of the language? -/
def isOldStatement (k : Kind) : Bool := k == .printStatement || k == .execStatement

/-- what is refused at a node itself, before anything below it is looked at -/
def refusedAt (source : String) (n : Node) : Option Node :=
  if isOldStatement n.kind then some n
  else if isParameterList n.kind then firstInvalid source n
  else none

mutual

def firstRefused (source : String) : Node → Option Node
  | .mk k n a f s e cs =>
    match refusedAt source (.mk k n a f s e cs) with
    | some bad => some bad
    | none => firstRefusedIn source cs

def firstRefusedIn (source : String) : List (Option Field × Node) → Option Node
  | [] => none
  | (_, c) :: cs =>
    if c.named then
      match firstRefused source c with
      | some bad => some bad
      | none => firstRefusedIn source cs
    else firstRefusedIn source cs

end

def refusal (source : String) (root : Node) : Option Node :=
  if root.faulty then some ((firstFault root).getD root) else firstRefused source root

end AnnotationAudit
