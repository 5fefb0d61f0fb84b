import AnnotationAudit.Outline
import Mathlib.Data.List.Basic

/-!
# The walk that collects comments

The walk comes to every node of a tree once, named or not, in document order, and ends behind the
last one. So it collects what a recursive visit of the tree finds.

* `Walk.turn`               the place of a walk after some turns;
* `Walk.node_turn`          after `k` turns a walk stands at the `k`-th node that was ahead;
* `CommentMap.collect_eq`   from a place on, a walk collects the comments that are ahead;
* `CommentMap.on?_ofNode`   the comments on a row are those of the tree, wherever they hang;
* `CommentMap.ofNode_law`   the walk ends, and what it has collected then.
-/

namespace AnnotationAudit

open Python

namespace Python.Walk

/-- the place of a walk after some turns; none if the walk has ended by then -/
def turn : Nat → Walk → Option Walk
  | 0, w => some w
  | k + 1, w => w.next?.bind (turn k)

theorem node_turn (k : Nat) (w : Walk) : (w.turn k).map node = w.ahead[k]? := by
  induction k generalizing w with
  | zero =>
    rw [w.ahead_eq]
    rfl
  | succ k ih =>
    rw [turn, w.ahead_eq, List.getElem?_cons_succ]
    cases w.next? with
    | none => rfl
    | some v => exact ih v

end Python.Walk

/-! ## comments by rows -/

namespace CommentMap

variable {text : String}

theorem lookup_cons (first : Nat) (comments : List String) (es : List (Nat × List String))
    (r : Nat) : ((first, comments) :: es).lookup r =
      if r = first then some comments else es.lookup r := by
  rw [List.lookup_cons]
  by_cases h : r = first
  · rw [if_pos h, beq_iff_eq.mpr h]
  · rw [if_neg h, beq_eq_false_iff_ne.mpr h]

/-- rows behind the last one are not there -/
theorem lookup_eq_none {first row : Nat} {comments : List String} {es : List (Nat × List String)}
    (h : ((first, comments) :: es).Pairwise fun a b => b.1 < a.1) (behind : first < row) :
    ((first, comments) :: es).lookup row = none := by
  refine List.lookup_eq_none_iff.mpr fun e he => bne_iff_ne.mpr ?_
  rcases List.mem_cons.mp he with rfl | he
  · exact Nat.ne_of_gt behind
  · exact Nat.ne_of_gt (Nat.lt_trans (List.rel_of_pairwise_cons h he) behind)

theorem lookup_insert {es : List (Nat × List String)} (h : es.Pairwise fun a b => b.1 < a.1)
    (row : Nat) (comment : String) (r : Nat) : (insert row comment es).lookup r =
      if r = row then some ((es.lookup row).getD [] ++ [comment]) else es.lookup r := by
  fun_induction insert row comment es with
  | case1 => exact lookup_cons row [comment] [] r
  | case2 first comments es behind =>
    rw [lookup_cons row, lookup_eq_none h behind]
    rfl
  | case3 comments es =>
    rw [lookup_cons, lookup_cons, lookup_cons, if_pos rfl]
    by_cases here : r = row
    · rw [if_pos here, if_pos here]
      rfl
    · rw [if_neg here, if_neg here, if_neg here]
  | case4 first comments es _ other ih =>
    rw [lookup_cons, lookup_cons, lookup_cons, if_neg (Ne.symm other), ih h.of_cons]
    by_cases here : r = row
    · subst here
      rw [if_neg (Ne.symm other), if_pos rfl, if_pos rfl]
    · rw [if_neg here, if_neg here]

theorem on?_add (m : CommentMap) (row : Nat) (comment : String) (r : Nat) :
    (m.add row comment).on? r =
      if r = row then some ((m.on? row).getD [] ++ [comment]) else m.on? r :=
  lookup_insert m.descending row comment r

/-- the comments among some nodes that begin on a row -/
def found (row : Nat) (ns : List Node) : List Node :=
  ns.filter fun n => n.kind == .comment && n.row == row

theorem found_cons (row : Nat) (n : Node) (ns : List Node) :
    found row (n :: ns) =
      if n.kind == .comment && n.row == row then n :: found row ns else found row ns :=
  List.filter_cons

theorem on?_note (m : CommentMap) (n : Node) (row : Nat) :
    (m.note text n).on? row =
      if n.kind == .comment && n.row == row then some ((m.on? row).getD [] ++ [n.text text])
      else m.on? row := by
  rw [note]
  cases comment : n.kind == .comment with
  | false => rfl
  | true =>
    rw [if_pos rfl, on?_add, Bool.true_and]
    by_cases h : row = n.row
    · subst h
      rw [if_pos rfl, if_pos (beq_self_eq_true _)]
    · rw [if_neg h, if_neg (by simpa using Ne.symm h)]

theorem on?_foldl_note (ns : List Node) (m : CommentMap) (row : Nat) :
    (ns.foldl (note text) m).on? row =
      if (found row ns).isEmpty then m.on? row
      else some ((m.on? row).getD [] ++ (found row ns).map (·.text text)) := by
  induction ns generalizing m with
  | nil => rfl
  | cons n ns ih =>
    rw [List.foldl_cons, ih, on?_note, found_cons]
    cases n.kind == .comment && n.row == row with
    | false => rfl
    | true =>
      rw [if_pos rfl, if_pos rfl, List.isEmpty_cons, if_neg Bool.false_ne_true, List.map_cons]
      cases found row ns with
      | nil => rfl
      | cons k ks =>
        rw [List.isEmpty_cons, if_neg Bool.false_ne_true, Option.getD_some, List.append_assoc]
        rfl

/-! ## the walk -/

theorem collect_eq (m : CommentMap) (w : Walk) :
    collect text m w = w.ahead.foldl (note text) m := by
  fun_induction collect text m w with
  | case1 m w v next ih =>
    rw [ih, w.ahead_eq, next]
    rfl
  | case2 m w ended =>
    rw [w.ahead_eq, ended]
    rfl

theorem ofNode_eq (text : String) (root : Node) :
    ofNode text root = root.preorder.foldl (note text) {} := by
  rw [ofNode, collect_eq, Walk.ahead_start]

theorem on?_ofNode (text : String) (root : Node) (row : Nat) :
    (ofNode text root).on? row =
      if (found row root.preorder).isEmpty then none
      else some ((found row root.preorder).map (·.text text)) := by
  rw [ofNode_eq, on?_foldl_note]
  rfl

/-- **The walk is a complete visit of the tree that ends.** After `k` turns it stands at the `k`-th
node in document order, and after as many turns as there are nodes it has ended. What it has
collected then is what a recursive visit of all nodes, named or not, collects: every row on which
comments begin has their texts, each once and in document order, and no other row is there. -/
theorem ofNode_law (text : String) (root : Node) :
    (∀ k, (Walk.turn k (.start root)).map Walk.node = root.preorder[k]?) ∧
    ofNode text root = root.preorder.foldl (note text) {} ∧
    ∀ row, (ofNode text root).on? row =
      let comments := root.preorder.filter fun n => n.kind == .comment && n.row == row
      if comments.isEmpty then none else some (comments.map (·.text text)) := by
  refine ⟨fun k => ?_, ofNode_eq text root, on?_ofNode text root⟩
  rw [Walk.node_turn, Walk.ahead_start]

end CommentMap

theorem Source.commentsOn_ofNode (text : String) (root : Node) (row : Nat) :
    (Source.ofNode text root).commentsOn row =
      (CommentMap.found row root.preorder).map (·.text text) := by
  show ((CommentMap.ofNode text root).on? row).getD [] = _
  rw [CommentMap.on?_ofNode]
  cases CommentMap.found row root.preorder <;> rfl

end AnnotationAudit
