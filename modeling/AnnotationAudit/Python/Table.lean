import AnnotationAudit.Python.Terminal

/-!
# Tables

What is computed from the grammar is kept in numbers and in lists of pieces, so that looking
something up takes few steps.

* `Rows`      bit masks, one behind the other in one number;
* `closure`   the transitive closure of a relation between symbols;
* `Table`     a list in which items are looked up by number;
* `sorted`    a list in order.
-/

namespace AnnotationAudit
namespace Python

/-! ## bit masks -/

/-- the members of a bit mask, at most `n` of them, the largest first -/
def members : Nat → Nat → List Nat
  | 0, _ => []
  | n + 1, mask => if mask = 0 then [] else mask.log2 :: members n (mask ^^^ 1 <<< mask.log2)

/-- the rows whose numbers are members of a bit mask, with these numbers -/
def among {α : Type} (mask : Nat) (rows : List α) : List (α × Nat) :=
  rows.zipIdx.filter fun row => mask.testBit row.2

/-- bit masks of the same width, one behind the other in one number -/
abbrev Rows := Nat

namespace Rows

def row (w : Nat) (r : Rows) (v : Nat) : Nat := (r >>> (v * w)) % 1 <<< w

def add (w : Nat) (r : Rows) (v mask : Nat) : Rows := r ||| mask <<< (v * w)

/-- one round of a transitive closure: what is reached from `v` is added wherever `v` is reached.
The first bits of the rows are `ones`. -/
def closeOver (w ones : Nat) (r : Rows) (v : Nat) : Rows :=
  r ||| (r >>> (Terminal.count + v) &&& ones) * r.row w v

end Rows

/-- the reflexive and transitive closure of a relation between `n` symbols with productions and all
symbols: for each of the former, a bit mask of the ranks of the latter -/
def closure (n : Nat) (rows : List Nat) : List Nat :=
  let w := Terminal.count + n
  let start := rows.zipIdx.foldl
    (fun r c => Rows.add w r c.2 (c.1 ||| 1 <<< (Terminal.count + c.2))) 0
  let ones := (List.range n).foldl (fun r v => Rows.add w r v 1) 0
  let closed := (List.range n).foldl (Rows.closeOver w ones) start
  (List.range n).map (Rows.row w closed)

/-! ## lists -/

/-- a list in which items are looked up by number; it is kept in pieces, so that few items are
passed by on the way -/
structure Table (α : Type) where
  pieces : Array (Array α)
deriving Inhabited

namespace Table

variable {α : Type}

def size : Nat := 32

/-- the first `n` pieces of a list -/
def piecesOf : Nat → List α → List (Array α)
  | 0, _ => []
  | n + 1, xs => (xs.take size).toArray :: piecesOf n (xs.drop size)

def ofList (xs : List α) : Table α := ⟨(piecesOf (xs.length / size + 1) xs).toArray⟩

def get? (t : Table α) (i : Nat) : Option α := (t.pieces[i / size]?).bind (·[i % size]?)

def getD (t : Table α) (i : Nat) (default : α) : α := (t.get? i).getD default

end Table

/-- `x` in front of the first item that need not come before it -/
def place {α : Type} (before : α → α → Bool) (x : α) : List α → List α
  | [] => [x]
  | y :: ys => if before x y then x :: y :: ys else y :: place before x ys

/-- a list in order; what is equal stays as it is -/
def sorted {α : Type} (before : α → α → Bool) (xs : List α) : List α := xs.foldr (place before) []

end Python
end AnnotationAudit
