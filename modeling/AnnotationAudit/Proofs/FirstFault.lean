import AnnotationAudit.Proofs.Acceptance

/-!
# The first fault

The search for the first fault looks at no child without a flag. It misses nothing by that: where it
goes on, there is no fault at or below a child without a flag.

* `Node.IsCovered`           the search of a tree passes by no fault;
* `firstFault_eq`            so it finds the first fault of all nodes in document order;
* `Node.IsFlagged`           a node is flagged if and only if there is a fault at or below it;
* `refusal_of_isFlagged`     where a tree with such flags is refused;
* `Machine.Whole.isCovered`  the tree of a text is covered;
* `Outline.parse_faulty`     where a text is refused that does not fit.

The flags of a text's tree need not be exact: a missing line end is a flag without a fault, and
inside text that does not fit there are faults without flags. Neither makes the search miss a fault.
-/

namespace AnnotationAudit
namespace Python

namespace Node

/-- nothing at the node or below it is a fault -/
def IsSound (n : Node) : Prop := ∀ m ∈ n.preorder, m.isFault = false

/-- the search passes by no fault: it ends at a node that is one, whatever is below, and goes on
below other nodes, whose children are sound if they have no flag -/
inductive IsCovered : Node → Prop where
  | fault {n : Node} : n.isFault = true → IsCovered n
  | inner {n : Node} : (∀ c ∈ n.parts, c.2.faulty = false → c.2.IsSound) →
      (∀ c ∈ n.parts, IsCovered c.2) → IsCovered n

/-- the flags of a tree are exact: a node has one if and only if there is a fault at or below it -/
def IsFlagged (root : Node) : Prop :=
  ∀ n ∈ root.preorder, n.faulty = true ↔ ∃ m ∈ n.preorder, m.isFault = true

instance (root : Node) : Decidable root.IsFlagged :=
  inferInstanceAs (Decidable (∀ n ∈ root.preorder, _ ↔ _))

namespace IsFlagged

variable {n : Node}

theorem part (h : n.IsFlagged) {c : Option Field × Node} (hc : c ∈ n.parts) : c.2.IsFlagged :=
  fun m hm => h m (mem_preorder_of_mem_parts hc hm)

theorem isSound_iff (h : n.IsFlagged) : n.IsSound ↔ n.faulty = false := by
  rw [← Bool.not_eq_true, h n n.mem_preorder_self]
  simp [IsSound]

theorem isCovered (h : n.IsFlagged) : n.IsCovered := by
  induction n using Node.induction with
  | step n ih =>
    exact .inner (fun c hc clear => (h.part hc).isSound_iff.mpr clear)
      fun c hc => ih c hc (h.part hc)

end IsFlagged

end Node

end Python

open Python

/-! ## the search -/

theorem firstFault_cases (n : Node) :
    firstFault n = if n.isFault then some n else firstFaultIn n.parts := by
  cases n
  rfl

theorem firstFaultIn_eq {cs : List (Option Field × Node)}
    (flags : ∀ c ∈ cs, c.2.faulty = false → c.2.IsSound)
    (ih : ∀ c ∈ cs, firstFault c.2 = c.2.preorder.find? Node.isFault) :
    firstFaultIn cs = (cs.flatMap (·.2.preorder)).find? Node.isFault := by
  induction cs with
  | nil => rfl
  | cons c cs rest =>
    obtain ⟨part, c⟩ := c
    obtain ⟨flag, flags⟩ := List.forall_mem_cons.mp flags
    obtain ⟨here, ih⟩ := List.forall_mem_cons.mp ih
    rw [firstFaultIn, List.flatMap_cons, List.find?_append, ← rest flags ih]
    cases flagged : c.faulty || c.absent with
    | true =>
      rw [if_pos rfl, here]
      cases c.preorder.find? Node.isFault <;> rfl
    | false =>
      have sound : c.IsSound := flag (Bool.or_eq_false_iff.mp flagged).1
      have none : c.preorder.find? Node.isFault = none :=
        List.find?_eq_none.mpr fun m hm => Bool.not_eq_true _ ▸ sound m hm
      rw [if_neg Bool.false_ne_true, none]
      rfl

/-- **The search finds the first fault of all nodes in document order**, if it passes by none. -/
theorem firstFault_eq {n : Node} (h : n.IsCovered) :
    firstFault n = n.preorder.find? Node.isFault := by
  induction h with
  | @fault n fault =>
    rw [firstFault_cases, if_pos fault, Node.preorder_eq, List.find?_cons_of_pos fault]
  | @inner n flags _ ih =>
    rw [firstFault_cases, Node.preorder_eq]
    cases fault : n.isFault with
    | true => rw [if_pos rfl, List.find?_cons_of_pos fault]
    | false =>
      rw [if_neg Bool.false_ne_true, firstFaultIn_eq flags ih,
        List.find?_cons_of_neg (by simp [fault])]

theorem firstFault_eq_none_iff {n : Node} (h : n.IsCovered) : firstFault n = none ↔ n.IsSound := by
  rw [firstFault_eq h, List.find?_eq_none]
  simp [Node.IsSound]

/-- a covered tree that is not sound has a first fault, and the search ends there -/
theorem exists_firstFault {root : Node} (h : root.IsCovered) (unsound : ¬ root.IsSound) :
    ∃ before n after, root.preorder = before ++ n :: after ∧ (∀ m ∈ before, m.isFault = false) ∧
      n.isFault = true ∧ firstFault root = some n := by
  obtain ⟨n, hn⟩ := Option.ne_none_iff_exists'.mp fun none =>
    unsound ((firstFault_eq_none_iff h).mp none)
  obtain ⟨fault, before, after, split, clear⟩ :=
    List.find?_eq_some_iff_append.mp ((firstFault_eq h).symm.trans hn)
  exact ⟨before, n, after, split, fun m hm => by simpa using clear m hm, fault, hn⟩

theorem refusal_of_faulty {root : Node} (faulty : root.faulty = true) (text : String) :
    refusal text root = some ((firstFault root).getD root) := by
  rw [refusal, if_pos faulty]

theorem Outline.check_of_refusal {root n : Node} {text : String} (h : refusal text root = some n)
    (path : String) : check path text root = .error (.at_ n) := by
  rw [check, h]

/-- **In a tree with exact flags the search finds the first fault** of all nodes in document order,
for all that it passes by. It finds none only in a tree without a flag. So a tree with a flag is
never refused at its root for want of a fault: it is refused where its first fault begins. -/
theorem refusal_of_isFlagged {root : Node} (flagged : root.IsFlagged) (path text : String) :
    firstFault root = root.preorder.find? Node.isFault ∧
    (firstFault root = none ↔ root.faulty = false) ∧
    (root.faulty = true → ∃ before n after, root.preorder = before ++ n :: after ∧
      (∀ m ∈ before, m.isFault = false) ∧ n.isFault = true ∧
      firstFault root = some n ∧ refusal text root = some n ∧
      Outline.check path text root = .error ⟨n.start.row + 1, n.start.column + 1⟩) := by
  have covered := flagged.isCovered
  refine ⟨firstFault_eq covered, (firstFault_eq_none_iff covered).trans flagged.isSound_iff, ?_⟩
  intro faulty
  have unsound : ¬ root.IsSound := fun sound =>
    Bool.false_ne_true ((flagged.isSound_iff.mp sound).symm.trans faulty)
  obtain ⟨before, n, after, split, clear, fault, found⟩ := exists_firstFault covered unsound
  have refused : refusal text root = some n := by
    rw [refusal_of_faulty faulty, found, Option.getD_some]
  exact ⟨before, n, after, split, clear, fault, found, refused,
    Outline.check_of_refusal refused path⟩

/-- the tree of a name, of a function whose parameters are not closed, and of two names in
parentheses -/
def unclosedTree : Node :=
  let place (row column : Nat) : Text.Position := ⟨[0, 2, 12, 18].getD row 0 + column, row, column⟩
  let node (kind : Kind) (faulty : Bool) (row first last : Nat)
      (parts : List (Option Field × Node)) : Node :=
    .mk kind true false faulty (place row first) (place row last) parts
  let mark (row first last : Nat) : Node :=
    .mk .other false false false (place row first) (place row last) []
  .mk .module true false true (place 0 0) (place 3 0)
    [(none, node .other false 0 0 1 [(none, node .identifier false 0 0 1 [])]),
      (none, node .functionDefinition true 1 0 9
        [(none, mark 1 0 3), (some .name, node .identifier false 1 4 5 []),
          (some .parameters, node .parameters true 1 5 6
            [(none, mark 1 5 6),
              (none, .mk .other false true true (place 1 6) (place 1 6) [])]),
          (none, mark 1 6 7),
          (some .body, node .block false 1 8 9
            [(none, node .other false 1 8 9 [(none, node .other false 1 8 9 [])])])]),
      (none, node .other true 2 0 5
        [(none, node .parenthesizedExpression true 2 0 5
          [(none, mark 2 0 1), (none, node .identifier false 2 1 2 []),
            (none, node .error true 2 3 4 [(none, node .identifier false 2 3 4 [])]),
            (none, mark 2 4 5)])])]

/-- the parenthesis that is missing comes before the name that is too many -/
theorem refusal_of_isFlagged_unclosed : unclosedTree.IsFlagged ∧ unclosedTree.faulty = true ∧
    (∃ before n after, unclosedTree.preorder = before ++ n :: after ∧
      (∀ m ∈ before, m.isFault = false) ∧ n.isFault = true ∧ firstFault unclosedTree = some n ∧
      refusal "x\ndef f(: 1\n(y z)\n" unclosedTree = some n ∧
      Outline.check "a.py" "x\ndef f(: 1\n(y z)\n" unclosedTree =
        .error ⟨n.start.row + 1, n.start.column + 1⟩) ∧
    Outline.check "a.py" "x\ndef f(: 1\n(y z)\n" unclosedTree = .error ⟨2, 7⟩ :=
  have flagged : unclosedTree.IsFlagged := by decide
  ⟨flagged, rfl, (refusal_of_isFlagged flagged "a.py" "x\ndef f(: 1\n(y z)\n").2.2 rfl, rfl⟩

/-! ## the trees of texts -/

namespace Python

namespace Node

/-- text that does not fit is shown as such -/
theorem isFault_of_isError {t : Tree} {step : Option Step} (error : t.symbol = .error)
    (hs : t.StandsFor step) : (ofChild step t).isFault = true := by
  have none : step = none := Option.eq_none_iff_forall_not_mem.mpr fun s hs' => by
    obtain ⟨same, p, hp, mem⟩ := hs s hs'
    have real := regular_productions.isReal p hp s mem
    rw [same, error] at real
    cases real
  rw [isFault, kind_ofChild, none, error]
  rfl

/-- a node without a flag is of a tree that costs nothing -/
theorem isSound_ofChild {t : Tree} {step : Option Step} (ht : t.Formed productions)
    (hs : t.StandsFor step) (shown : Tree.isShown (step, t) = true)
    (clear : (ofChild step t).faulty = false) : (ofChild step t).IsSound := by
  have cost : t.cost = 0 := Nat.eq_zero_of_not_pos fun pos =>
    Bool.false_ne_true (clear.symm.trans ((faulty_ofChild step t).mpr pos))
  exact ht.forall_mem_preorder (Q := fun _ => True) (fun _ _ _ _ => trivial)
    (fun _ _ _ ht cost hs _ => isFault_ofChild ht cost hs) trivial cost step none hs _
    (mem_collect_of_isShown none shown)

/-- the nodes that a formed tree makes are covered, and sound if they have no flag -/
theorem isCovered_of_mem_collect {t : Tree} (ht : t.Formed productions)
    (unskipped : t.symbol ≠ .skipped) : ∀ step part, t.StandsFor step →
      ∀ d ∈ collect step part [] t, d.2.IsCovered ∧ (d.2.faulty = false → d.2.IsSound) := by
  induction ht with
  | @token i symbol fits =>
    intro step part hs d hd
    have formed : (Tree.node i []).Formed productions := .token symbol fits
    cases shown : Tree.isShown (step, .node i []) with
    | true =>
      rw [collect_of_isShown shown] at hd
      obtain rfl := List.mem_singleton.mp hd
      exact ⟨.inner (fun c hc => absurd hc List.not_mem_nil) fun c hc => absurd hc List.not_mem_nil,
        isSound_ofChild formed hs shown⟩
    | false =>
      rw [collect_eq_nil shown rfl] at hd
      exact absurd hd List.not_mem_nil
  | @broken i cs symbol cost children extras =>
    intro step part hs d hd
    have formed : (Tree.node i cs).Formed productions := .broken symbol cost children extras
    have error : (Tree.node i cs).symbol = .error := symbol.resolve_right unskipped
    have shown : Tree.isShown (step, .node i cs) = true := by
      rw [Tree.isShown, error]
      exact Bool.or_true _
    rw [collect_of_isShown shown] at hd
    obtain rfl := List.mem_singleton.mp hd
    exact ⟨.fault (isFault_of_isError error hs), isSound_ofChild formed hs shown⟩
  | @branch i cs p mem symbol marks symbols children extras present costs free ih =>
    intro step part hs d hd
    have formed : (Tree.node i cs).Formed productions :=
      .branch mem symbol marks symbols children extras present costs free
    have below : ∀ part, ∀ d ∈ collectAll i.steps part [] cs,
        d.2.IsCovered ∧ (d.2.faulty = false → d.2.IsSound) := by
      intro part d hd
      rw [collectAll_congr marks] at hd
      obtain ⟨c, hc, step, q, stands, hd⟩ := Tree.exists_child_of_mem_collectAll mem symbols hd
      exact ih c hc (Filled.symbol_ne_skipped mem symbols extras hc) step q stands d hd
    cases shown : Tree.isShown (step, .node i cs) with
    | true =>
      rw [collect_of_isShown shown] at hd
      obtain rfl := List.mem_singleton.mp hd
      exact ⟨.inner (fun c hc => (below none c hc).2) fun c hc => (below none c hc).1,
        isSound_ofChild formed hs shown⟩
    | false =>
      rw [collect_of_hidden shown] at hd
      exact below _ d hd

end Node

/-- **The search of the tree of a text passes by no fault**, though not all its flags are exact. -/
theorem Machine.Whole.isCovered {t : Tree} (whole : Machine.Whole productions t) :
    (Node.ofTree t).IsCovered := by
  rw [whole.ofTree_eq]
  exact (Node.isCovered_of_mem_collect whole.1 whole.symbol_ne_skipped none none
    (Tree.standsFor_none t) _ (Node.mem_collect_of_isShown none whole.isShown)).1

end Python

/-- **A text that does not fit is refused at its first fault**, whatever text it is. Where only
tokens are missing that make no nodes, such as line ends, there is none, and it is refused at its
root. -/
theorem Outline.parse_faulty (path text : String) :
    let root := Node.ofTree (Python.parse text.toList)
    root.faulty = true →
      (∃ before n after, root.preorder = before ++ n :: after ∧
        (∀ m ∈ before, m.isFault = false) ∧ n.isFault = true ∧
        parse path text = .error (.at_ n)) ∨
      (∀ m ∈ root.preorder, m.isFault = false) ∧ parse path text = .error (.at_ root) := by
  intro root faulty
  have covered : root.IsCovered := (whole_parse text.toList).isCovered
  have refused := check_of_refusal (refusal_of_faulty faulty text) path
  by_cases sound : root.IsSound
  · rw [(firstFault_eq_none_iff covered).mpr sound] at refused
    exact .inr ⟨sound, refused⟩
  · obtain ⟨before, n, after, split, clear, fault, found⟩ := exists_firstFault covered sound
    rw [found] at refused
    exact .inl ⟨before, n, after, split, clear, fault, refused⟩

end AnnotationAudit
