import AnnotationAudit.Python.Walk

/-!
# The comments of a text

* `CommentMap`           texts of comments by the rows on which the comments begin;
* `CommentMap.add`       one more comment on a row;
* `CommentMap.collect`   the comments that a walk comes to;
* `CommentMap.ofNode`    the comments of a syntax tree.
-/

namespace AnnotationAudit

open Python

/-- the rows on which comments begin, each with the texts of these comments. The last row comes
first: there a walk in document order goes on. -/
structure CommentMap where
  entries : List (Nat × List String) := []
  descending : entries.Pairwise fun a b => b.1 < a.1 := by exact .nil

namespace CommentMap

instance : Inhabited CommentMap := ⟨{}⟩

def on? (m : CommentMap) (row : Nat) : Option (List String) := m.entries.lookup row

/-! ## one more comment -/

def insert (row : Nat) (comment : String) :
    List (Nat × List String) → List (Nat × List String)
  | [] => [(row, [comment])]
  | (r, cs) :: es =>
    if r < row then (row, [comment]) :: (r, cs) :: es
    else if r = row then (r, cs ++ [comment]) :: es
    else (r, cs) :: insert row comment es

theorem row_of_mem_insert {row : Nat} {comment : String} {es : List (Nat × List String)}
    {e : Nat × List String} (he : e ∈ insert row comment es) :
    e.1 = row ∨ ∃ d ∈ es, e.1 = d.1 := by
  fun_induction insert row comment es with
  | case1 => exact .inl (congrArg Prod.fst (List.mem_singleton.mp he))
  | case2 r cs es below =>
    rcases List.mem_cons.mp he with rfl | he
    · exact .inl rfl
    · exact .inr ⟨e, he, rfl⟩
  | case3 cs es =>
    rcases List.mem_cons.mp he with rfl | he
    · exact .inl rfl
    · exact .inr ⟨e, List.mem_cons_of_mem _ he, rfl⟩
  | case4 r cs es _ _ ih =>
    rcases List.mem_cons.mp he with rfl | he
    · exact .inr ⟨_, List.mem_cons_self, rfl⟩
    · exact (ih he).imp_right fun ⟨d, hd, same⟩ => ⟨d, List.mem_cons_of_mem _ hd, same⟩

theorem descending_insert {row : Nat} {comment : String} {es : List (Nat × List String)}
    (h : es.Pairwise fun a b => b.1 < a.1) :
    (insert row comment es).Pairwise fun a b => b.1 < a.1 := by
  fun_induction insert row comment es with
  | case1 => exact List.pairwise_singleton _ _
  | case2 r cs es below =>
    refine .cons (fun e he => ?_) h
    rcases List.mem_cons.mp he with rfl | he
    · exact below
    · exact Nat.lt_trans (List.rel_of_pairwise_cons h he) below
  | case3 cs es => exact .cons (fun e he => List.rel_of_pairwise_cons h he) h.of_cons
  | case4 r cs es notBelow other ih =>
    refine .cons (fun e he => ?_) (ih h.of_cons)
    rcases row_of_mem_insert he with same | ⟨d, hd, same⟩
    · rw [same]
      exact Nat.lt_of_le_of_ne (Nat.le_of_not_lt notBelow) (Ne.symm other)
    · rw [same]
      exact List.rel_of_pairwise_cons h hd

/-- one more comment on a row, behind those that are there -/
def add (m : CommentMap) (row : Nat) (comment : String) : CommentMap :=
  ⟨insert row comment m.entries, descending_insert m.descending⟩

/-- the node too, if it is a comment -/
def note (text : String) (m : CommentMap) (n : Node) : CommentMap :=
  if n.kind == .comment then m.add n.row (n.text text) else m

/-! ## all comments -/

/-- `m` and the comments that a walk comes to from a place on. Comments can hang anywhere in a tree,
so the walk goes through all of it. -/
def collect (text : String) (m : CommentMap) (w : Walk) : CommentMap :=
  match _ : w.next? with
  | some v => collect text (m.note text w.node) v
  | none => m.note text w.node
termination_by w.ahead.length
decreasing_by exact Walk.length_ahead_of_next? ‹_›

def ofNode (text : String) (root : Node) : CommentMap := collect text {} (.start root)

end CommentMap

end AnnotationAudit
