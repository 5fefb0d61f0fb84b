import AnnotationAudit.Python.Node

/-!
# Walking through a syntax tree

A walk stands at a node of a tree. It can go to the first child of the node, to its next sibling and
back to its parent, and it never leaves the tree in which it began.

* `Walk`           a place in a tree, with what is behind it at every level;
* `Walk.leave?`    the next sibling of the node or of the nearest node above that has one;
* `Walk.next?`     the next place in document order;
* `Walk.ahead`     the nodes that are still to come, beginning with the one at the place itself;
* `Walk.ahead_eq`  the next place has one node less ahead, and it is the one that was left.
-/

namespace AnnotationAudit
namespace Python

/-- one level of the way to a node: the node above it, and the siblings behind it -/
structure Walk.Level where
  parent : Node
  behind : List (Option Field × Node)

/-- a place in a tree, with the levels above it, the nearest first -/
structure Walk where
  node : Node
  above : List Walk.Level

namespace Walk

def start (root : Node) : Walk := ⟨root, []⟩

/-! ## moves -/

def firstChild? (w : Walk) : Option Walk :=
  match w.node.parts with
  | [] => none
  | (_, c) :: behind => some ⟨c, ⟨w.node, behind⟩ :: w.above⟩

def nextSibling? (w : Walk) : Option Walk :=
  match w.above with
  | ⟨parent, (_, c) :: behind⟩ :: above => some ⟨c, ⟨parent, behind⟩ :: above⟩
  | _ => none

def parent? (w : Walk) : Option Walk :=
  match w.above with
  | [] => none
  | level :: above => some ⟨level.parent, above⟩

theorem length_above_of_parent? {w v : Walk} (h : w.parent? = some v) :
    v.above.length < w.above.length := by
  rw [parent?] at h
  split at h
  · cases h
  · next level above levels =>
    obtain rfl := Option.some.inj h
    rw [levels]
    exact Nat.lt_succ_self _

/-- out of a node below which all has been seen: to its next sibling, or to that of the nearest node
above that has one -/
def leave? (w : Walk) : Option Walk :=
  match w.nextSibling? with
  | some v => some v
  | none =>
    match _ : w.parent? with
    | some v => v.leave?
    | none => none
termination_by w.above.length
decreasing_by exact length_above_of_parent? ‹_›

def next? (w : Walk) : Option Walk :=
  match w.firstChild? with
  | some v => some v
  | none => w.leave?

/-! ## what is still to come -/

/-- the nodes behind those on the way, from the lowest level up -/
def behind (levels : List Level) : List Node :=
  levels.flatMap fun level => Node.preorderParts level.behind

/-- the nodes that are still to come in document order -/
def ahead (w : Walk) : List Node := w.node.preorder ++ behind w.above

theorem ahead_start (root : Node) : (start root).ahead = root.preorder := List.append_nil _

theorem behind_cons (parent : Node) (part : Option Field) (c : Node)
    (cs : List (Option Field × Node)) (levels : List Level) :
    behind (⟨parent, (part, c) :: cs⟩ :: levels) = ahead ⟨c, ⟨parent, cs⟩ :: levels⟩ := by
  simp only [behind, ahead, List.flatMap_cons, Node.preorderParts, List.append_assoc]

/-- what is behind a node is ahead of the place to which it is left -/
theorem behind_above (w : Walk) : behind w.above = w.leave?.elim [] ahead := by
  fun_induction leave? w with
  | case1 w v sibling =>
    rw [nextSibling?] at sibling
    split at sibling
    · next parent part c cs above levels =>
      obtain rfl := Option.some.inj sibling
      rw [levels, behind_cons]
      rfl
    · cases sibling
  | case2 w alone v parent ih =>
    rw [parent?] at parent
    split at parent
    · cases parent
    · next level above levels =>
      obtain rfl := Option.some.inj parent
      -- the level has no more siblings, so what is behind it is behind those above
      rw [← ih, levels]
      rw [nextSibling?, levels] at alone
      obtain ⟨parent, cs⟩ := level
      cases cs with
      | nil => rfl
      | cons c cs => cases alone
  | case3 w alone root =>
    rw [parent?] at root
    split at root
    · next levels =>
      rw [levels]
      rfl
    · cases root

/-- **With every turn the node at the place is done, and nothing else is**: from the next place on
there are the same nodes to come without the first. -/
theorem ahead_eq (w : Walk) : w.ahead = w.node :: w.next?.elim [] ahead := by
  obtain ⟨⟨k, n, a, f, s, e, cs⟩, above⟩ := w
  cases cs with
  | nil => exact congrArg (List.cons _) (behind_above ⟨.mk k n a f s e [], above⟩)
  | cons c cs => exact congrArg (List.cons _) (behind_cons _ c.1 c.2 cs above)

theorem length_ahead_of_next? {w v : Walk} (h : w.next? = some v) :
    v.ahead.length < w.ahead.length := by
  rw [w.ahead_eq, h]
  exact Nat.lt_succ_self _

end Walk

end Python
end AnnotationAudit
