import AnnotationAudit.Python.Nonterminal
import AnnotationAudit.Python.Terminal

/-!
# Grammar rules

`Rule` is the language in which the grammar is written: sequences, choices and repetitions of
symbols, with marks for precedence, for the part a child plays and for the kind it is shown as.
-/

namespace AnnotationAudit
namespace Python

/-- which of two equally ranked readings of `a ∘ b ∘ c` is meant -/
inductive Associativity where
  | left
  | right
deriving DecidableEq, Repr, Inhabited

/-- the right-hand side of a grammar rule -/
inductive Rule where
  /-- nothing -/
  | blank
  | terminal (t : Terminal)
  | nonterminal (n : Nonterminal)
  | seq (a b : Rule)
  | alt (a b : Rule)
  /-- one or more times -/
  | repeat1 (r : Rule)
  /-- conflicts are settled for the higher rank, and between equals by associativity -/
  | ranked (rank : Int) (side : Option Associativity) (r : Rule)
  /-- of two readings of the same text, the one of more weight is taken -/
  | weighed (weight : Int) (r : Rule)
  /-- the children play the part `f` -/
  | field (f : Field) (r : Rule)
  /-- the child is shown as a node of kind `k` -/
  | shown (k : Kind) (r : Rule)
deriving DecidableEq, Repr, Inhabited

namespace Rule

def tok (t : Terminal) : Rule := .terminal t

def nt (n : Nonterminal) : Rule := .nonterminal n

def all : List Rule → Rule
  | [] => .blank
  | [r] => r
  | r :: rs => .seq r (all rs)

def any : List Rule → Rule
  | [] => .blank
  | [r] => r
  | r :: rs => .alt r (any rs)

def anyTok (ts : List Terminal) : Rule := any (ts.map tok)

def anyNt (ns : List Nonterminal) : Rule := any (ns.map nt)

def opt (r : Rule) : Rule := .alt r .blank

def many (r : Rule) : Rule := opt (.repeat1 r)

def sep1 (r sep : Rule) : Rule := .seq r (many (.seq sep r))

def commaSep1 (r : Rule) : Rule := sep1 r (tok .comma)

def prec (rank : Int) (r : Rule) : Rule := .ranked rank none r

def precLeft (rank : Int) (r : Rule) : Rule := .ranked rank (some .left) r

def precRight (rank : Int) (r : Rule) : Rule := .ranked rank (some .right) r

end Rule

end Python
end AnnotationAudit
