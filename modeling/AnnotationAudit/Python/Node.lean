import AnnotationAudit.Python.Parse

/-!
# Syntax nodes

`Node` is the tree of a text as its readers see it: hidden symbols are dissolved into their parents,
and every child knows which part it plays.

* `Node.ofTree`        the visible nodes of a parse tree;
* `Node.namedChildren` the children that are more than punctuation;
* `Node.child?`        the child that plays a given part;
* `Node.preorder`      all nodes below a node and the node itself, in document order.
-/

namespace AnnotationAudit
namespace Python

open Text

/-- a visible node; `faulty` tells whether something below or at it does not fit -/
inductive Node where
  | mk (kind : Kind) (named absent faulty : Bool) (start stop : Position)
      (children : List (Option Field × Node))
deriving Inhabited

namespace Node

def kind : Node → Kind
  | .mk k _ _ _ _ _ _ => k

/-- is the node more than punctuation? -/
def named : Node → Bool
  | .mk _ n _ _ _ _ _ => n

/-- is the node a token that should be there? -/
def absent : Node → Bool
  | .mk _ _ a _ _ _ _ => a

/-- does something below or at the node not fit? -/
def faulty : Node → Bool
  | .mk _ _ _ f _ _ _ => f

def start : Node → Position
  | .mk _ _ _ _ s _ _ => s

def stop : Node → Position
  | .mk _ _ _ _ _ s _ => s

/-- the children with their parts -/
def parts : Node → List (Option Field × Node)
  | .mk _ _ _ _ _ _ cs => cs

def children (n : Node) : List Node := n.parts.map (·.2)

def namedChildren (n : Node) : List Node := n.children.filter named

/-- the first child that plays the part `f` -/
def child? (n : Node) (f : Field) : Option Node :=
  (n.parts.find? fun c => c.1 == some f).map (·.2)

def row (n : Node) : Nat := n.start.row

/-- the text from one byte of a source to another -/
def slice (source : String) (start stop : Nat) : String :=
  String.Pos.Raw.extract source ⟨start⟩ ⟨stop⟩

def text (source : String) (n : Node) : String := slice source n.start.offset n.stop.offset

/-- is the node text that does not fit, or a token that should be there? -/
def isFault (n : Node) : Bool := n.kind == .error || n.absent

mutual

def preorder : Node → List Node
  | .mk k n a f s e cs => .mk k n a f s e cs :: preorderParts cs

def preorderParts : List (Option Field × Node) → List Node
  | [] => []
  | (_, c) :: cs => preorder c ++ preorderParts cs

end

/-! ## comparing nodes -/

mutual

def decEq : (m n : Node) → Decidable (m = n)
  | .mk k a b f s e cs, .mk k' a' b' f' s' e' cs' =>
    match decEqParts cs cs' with
    | .isTrue h => decidable_of_iff (k = k' ∧ a = a' ∧ b = b' ∧ f = f' ∧ s = s' ∧ e = e')
        (by rw [mk.injEq]; simp only [h, and_true])
    | .isFalse h => .isFalse fun same => h (mk.inj same).2.2.2.2.2.2

def decEqParts : (cs ds : List (Option Field × Node)) → Decidable (cs = ds)
  | [], [] => .isTrue rfl
  | [], _ :: _ | _ :: _, [] => .isFalse nofun
  | (p, c) :: cs, (q, d) :: ds =>
    match decEq c d, decEqParts cs ds with
    | .isTrue h, .isTrue hs => decidable_of_iff (p = q)
        (by rw [List.cons.injEq, Prod.mk.injEq]; simp only [h, hs, and_true])
    | .isFalse h, _ => .isFalse fun same => h (Prod.mk.inj (List.cons.inj same).1).2
    | _, .isFalse h => .isFalse fun same => h (List.cons.inj same).2

end

instance : DecidableEq Node := decEq

/-! ## from parse trees -/

mutual

/-- the visible nodes of a tree that stands for the step `step`, playing the part `part` unless the
step gives another, in front of the nodes `after` -/
def collect (step : Option Step) (part : Option Field) (after : List (Option Field × Node)) :
    Tree → List (Option Field × Node)
  | .node i cs =>
    let part := (step.bind (·.field)).or part
    let shown := step.bind (·.shown)
    if shown.isSome || i.symbol.isVisible then
      let kind := shown.getD i.symbol.kind
      let named := match shown with
        | some .notIn | some .isNot => false
        | some _ => true
        | none => i.symbol.isNamed
      (part, .mk kind named i.absent (0 < i.cost) i.start.position i.stop.position
        (collectAll i.steps none [] cs)) :: after
    else collectAll i.steps part after cs

/-- the visible nodes of the children of a tree with the given steps. A part that a dissolved tree
plays is played by its first visible node. -/
def collectAll (steps : List Step) (part : Option Field) (after : List (Option Field × Node)) :
    List Tree → List (Option Field × Node)
  | [] => after
  | t :: ts =>
    let (step, rest) :=
      if t.extra then (none, steps)
      else (steps.head?, steps.drop 1)
    let part := if t.extra then none else part
    collect step part (collectAll rest part after ts) t

end

def ofTree (t : Tree) : Node :=
  match collect none none [] t with
  | (_, n) :: _ => n
  | [] => .mk .error true false true .origin .origin []

end Node

end Python
end AnnotationAudit
