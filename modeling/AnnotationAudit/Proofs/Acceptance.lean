import AnnotationAudit.Proofs.Placement

/-!
# Which texts are accepted

A text has an outline if and only if all of it fits, nothing is missing from it, and none of its
nodes is refused at any depth. A text that fits is refused at its first such node.

* `Tree.Fits`                      there is no text at or below a tree that does not fit, and no
                                   token is missing;
* `Tree.Formed.cost_eq_zero_iff`   a formed tree costs nothing if and only if it fits;
* `Tree.Formed.forall_mem_preorder`  what holds of all nodes that formed trees make holds of all
                                   nodes of a tree;
* `Node.isHarmless_ofChild`        nothing is refused at or below a node without a name;
* `firstRefused_eq`                so the search that passes these by is one over all nodes;
* `Outline.parse_accepts`          which texts are accepted, and where the others are refused.
-/

namespace AnnotationAudit
namespace Python

open Text

/-! ## trees that fit -/

namespace Tree

mutual

/-- the tree and all trees below it, hidden symbols included, in document order -/
def preorder : Tree → List Tree
  | .node i cs => .node i cs :: preorderAll cs

def preorderAll : List Tree → List Tree
  | [] => []
  | t :: ts => preorder t ++ preorderAll ts

end

theorem preorderAll_eq (ts : List Tree) : preorderAll ts = ts.flatMap preorder := by
  induction ts with
  | nil => rfl
  | cons t ts ih => rw [preorderAll, ih, List.flatMap_cons]

/-- there is neither text that does not fit nor a token that should be there at or below the tree. A
line end that is missing makes no visible node, but it is missing all the same. -/
def Fits (t : Tree) : Prop := ∀ u ∈ t.preorder, u.isFault = false

theorem fits_node {i : Info} {cs : List Tree} :
    (node i cs).Fits ↔ (node i cs).isFault = false ∧ ∀ c ∈ cs, c.Fits := by
  simp only [Fits, preorder, preorderAll_eq, List.forall_mem_cons, List.mem_flatMap,
    forall_exists_index, and_imp]
  exact and_congr_right fun _ => ⟨fun h c hc u hu => h u c hc hu, fun h u c hc hu => h c hc u hu⟩

/-- **A formed tree costs nothing if and only if it fits.** -/
theorem Formed.cost_eq_zero_iff {t : Tree} (ht : t.Formed productions) (hs : t.symbol ≠ .skipped) :
    t.cost = 0 ↔ t.Fits := by
  -- skipped tokens have a cost without a fault of their own, but they stand in text that does not
  -- fit and nowhere else
  induction ht with
  | @token i symbol cost =>
    rw [fits_node]
    exact cost.trans ⟨fun h => ⟨h, fun c hc => absurd hc List.not_mem_nil⟩, And.left⟩
  | @broken i cs symbol cost =>
    have error : (node i cs).isFault = true := by
      rw [isFault, isError, show (node i cs).symbol = _ from symbol.resolve_right hs]
      rfl
    refine iff_of_false (Nat.pos_iff_ne_zero.mp cost) fun fits => ?_
    rw [(fits_node.mp fits).1] at error
    cases error
  | @branch i cs p mem symbol marks symbols children extras present costs free ih =>
    have real := Machine.isReal_symbolOf p.variableIndex
    have whole : (node i cs).isFault = false := by
      rw [isFault, isError, show (node i cs).symbol = _ from symbol, Bool.or_eq_false_iff]
      refine ⟨?_, present⟩
      generalize Machine.symbolOf p.variableIndex = x at real
      cases x <;> first | rfl | cases real
    have unskipped : ∀ c ∈ cs, c.symbol ≠ .skipped := fun c hc =>
      Filled.symbol_ne_skipped mem symbols extras hc
    have total : i.cost = 0 ↔ ∀ c ∈ cs, c.cost = 0 :=
      ⟨Filled.cost_eq_zero mem symbols extras costs, free⟩
    have below : (∀ c ∈ cs, c.cost = 0) ↔ ∀ c ∈ cs, c.Fits :=
      forall₂_congr fun c hc => ih c hc (unskipped c hc)
    rw [fits_node]
    exact total.trans (below.trans ⟨fun h => ⟨whole, h⟩, And.right⟩)

theorem Formed.isFault_eq_false {t : Tree} (ht : t.Formed productions) (cost : t.cost = 0) :
    t.isFault = false := by
  have unskipped : t.symbol ≠ .skipped := by
    cases ht with
    | token symbol => exact Symbol.ne_skipped_of_isToken symbol
    | broken _ pos => exact absurd cost (Nat.pos_iff_ne_zero.mp pos)
    | @branch i cs p _ symbol =>
      show i.symbol ≠ .skipped
      rw [symbol]
      exact Symbol.ne_skipped_of_isReal (Machine.isReal_symbolOf p.variableIndex)
  obtain ⟨i, cs⟩ := t
  exact (fits_node.mp ((ht.cost_eq_zero_iff unskipped).mp cost)).1

/-! ## all nodes of a tree -/

/-- the tree may stand for the step in some production, or for none -/
def StandsFor (t : Tree) (step : Option Step) : Prop :=
  ∀ s ∈ step, s.symbol = t.symbol ∧ ∃ p ∈ productions, s ∈ p.steps

theorem standsFor_none (t : Tree) : t.StandsFor none := fun s hs =>
  absurd hs (Option.not_mem_none s)

theorem standsFor_some {t : Tree} {p : Production} (hp : p ∈ productions) {s : Step}
    (hs : s ∈ p.steps) (same : t.symbol = s.symbol) : t.StandsFor (some s) := fun _ hr =>
  Option.mem_some_iff.mp hr ▸ ⟨same.symm, p, hp, hs⟩

/-- the node of a tree has the kind of its symbol, or the kind that a step shows it as -/
theorem StandsFor.kind_cases {t : Tree} {step : Option Step} (hs : t.StandsFor step) {k : Kind}
    (hk : (Node.ofChild step t).kind = k) :
    t.symbol.kind = k ∨
      ∃ p ∈ productions, ∃ s ∈ p.steps, s.symbol = t.symbol ∧ s.shown = some k := by
  rw [Node.kind_ofChild] at hk
  cases marked : step.bind (·.shown) with
  | none =>
    rw [marked] at hk
    exact .inl hk
  | some l =>
    rw [marked] at hk
    obtain rfl : l = k := hk
    obtain ⟨s, rfl, shown⟩ := Option.bind_eq_some_iff.mp marked
    obtain ⟨same, p, hp, mem⟩ := hs s rfl
    exact .inr ⟨p, hp, s, mem, same, shown⟩

/-- the children of a production stand for its steps, or they are extras -/
theorem exists_child_of_mem_collectAll {p : Production} (mem : p ∈ productions) {cs : List Tree}
    (symbols : solid cs = p.steps.map (·.symbol)) {part : Option Field} {d : Option Field × Node}
    (hd : d ∈ Node.collectAll p.steps part [] cs) :
    ∃ c ∈ cs, ∃ step q, c.StandsFor step ∧ d ∈ Node.collect step q [] c := by
  obtain ⟨c, hc, q, -, hd⟩ := Node.mem_collectAll hd
  obtain ⟨hmem, hstep⟩ := mem_withSteps symbols hc
  refine ⟨c.2, hmem, c.1, q, ?_, hd⟩
  rcases hstep with ⟨hn, -⟩ | ⟨s, hs, hn, same⟩
  · exact hn ▸ standsFor_none c.2
  · exact hn ▸ standsFor_some mem hs same

/-- **What holds of all nodes that formed trees make holds of all nodes of a tree.** Of the trees it
may be known what a tree hands down to its children. -/
theorem Formed.forall_mem_preorder {P : Node → Prop} {Q : Tree → Prop}
    (down : ∀ t, Q t → ∀ c ∈ t.children, Q c)
    (made : ∀ (t : Tree) (step : Option Step), Q t → t.Formed productions → t.cost = 0 →
      t.StandsFor step → isShown (step, t) = true → P (Node.ofChild step t))
    {t : Tree} (ht : t.Formed productions) (hq : Q t) (cost : t.cost = 0) :
    ∀ step part, t.StandsFor step → ∀ d ∈ Node.collect step part [] t, ∀ m ∈ d.2.preorder, P m := by
  induction ht with
  | @token i symbol fits =>
    intro step part hs d hd m hm
    cases shown : isShown (step, node i []) with
    | true =>
      rw [Node.collect_of_isShown shown] at hd
      rw [List.mem_singleton.mp hd] at hm
      obtain rfl := List.mem_singleton.mp hm
      exact made _ step hq (.token symbol fits) cost hs shown
    | false =>
      rw [Node.collect_eq_nil shown rfl] at hd
      exact absurd hd List.not_mem_nil
  | broken _ pos => exact absurd cost (Nat.pos_iff_ne_zero.mp pos)
  | @branch i cs p mem symbol marks symbols children extras present costs free ih =>
    intro step part hs d hd
    have formed : (node i cs).Formed productions :=
      .branch mem symbol marks symbols children extras present costs free
    have below : ∀ part, ∀ d ∈ Node.collectAll i.steps part [] cs, ∀ m ∈ d.2.preorder, P m := by
      intro part d hd
      rw [Node.collectAll_congr marks] at hd
      obtain ⟨c, hc, step, q, stands, hd⟩ := exists_child_of_mem_collectAll mem symbols hd
      have fits := Filled.cost_eq_zero mem symbols extras costs cost c hc
      exact ih c hc (down _ hq c hc) fits step q stands d hd
    cases shown : isShown (step, node i cs) with
    | true =>
      rw [Node.collect_of_isShown shown] at hd
      rw [List.mem_singleton.mp hd, Node.forall_mem_preorder]
      exact ⟨made _ step hq formed cost hs shown, below none⟩
    | false =>
      rw [Node.collect_of_hidden shown] at hd
      exact below _ d hd

end Tree

/-! ## nodes without a name -/

namespace Rule

/-- is the rule one of two words that are shown as one node? -/
def isOperator : Rule → Bool
  | .nonterminal .notIn | .nonterminal .isNot => true
  | _ => false

/-- what may be shown as a node without a name: an operator of two words, which has nothing but
tokens below it. Nothing is shown as text that does not fit. -/
def unnames (head : Rule) : Check := fun r k _ =>
  match r, k with
  | .terminal _, none => true
  | _, some .error => false
  | _, some .notIn | _, some .isNot => r.isOperator && !head.isOperator
  | _, _ => !head.isOperator

theorem unnames_rules : (Nonterminal.all.all fun n =>
    (Rule.of n).every (Rule.unfolded (Rule.unnames (.nonterminal n))) none none) = true := by
  decide +kernel

theorem unnames_repeated : (Nonterminal.all.all fun n => (Rule.of n).repeated.all fun r =>
    (Rule.alt (.repeat1 r) r).every (Rule.unfolded (Rule.unnames (.repeat1 r))) none none) =
      true := by
  decide +kernel

end Rule

namespace Production

variable {p : Production} {s : Step}

theorem unnames_of_mem (hp : p ∈ productions) (hs : s ∈ p.steps) :
    ∃ r x, (Machine.symbolOf p.variableIndex).asRule? repetitions = some r ∧
      s.symbol.asRule? repetitions = some x ∧ r.unnames x s.shown s.field = true :=
  passes_of_mem Rule.unnames_rules Rule.unnames_repeated hp hs

theorem isOperator_of_mem (hp : p ∈ productions) (hs : s ∈ p.steps)
    (hk : s.shown = some .notIn ∨ s.shown = some .isNot) :
    ∃ r, s.symbol.asRule? repetitions = some r ∧ r.isOperator = true := by
  obtain ⟨r, x, -, hx, hc⟩ := unnames_of_mem hp hs
  refine ⟨x, hx, ?_⟩
  rcases hk with hk | hk
  all_goals
    rw [hk, Rule.unnames.eq_def] at hc
    cases x <;> exact (Bool.and_eq_true_iff.mp hc).1

theorem shown_ne_error (hp : p ∈ productions) (hs : s ∈ p.steps) : s.shown ≠ some .error := by
  intro hk
  obtain ⟨r, x, -, -, hc⟩ := unnames_of_mem hp hs
  rw [hk, Rule.unnames.eq_def] at hc
  cases x <;> cases hc

/-- below an operator there are tokens -/
theorem isToken_of_mem_operator (hp : p ∈ productions) (hs : s ∈ p.steps) {r : Rule}
    (hr : (Machine.symbolOf p.variableIndex).asRule? repetitions = some r)
    (operator : r.isOperator = true) : s.symbol.isToken = true ∧ s.shown = none := by
  obtain ⟨_, x, hr', hx, hc⟩ := unnames_of_mem hp hs
  obtain rfl := Option.some.inj (hr.symm.trans hr')
  have symbol := Symbol.eq_of_asRule? hx
  rw [Rule.unnames.eq_def, operator] at hc
  split at hc
  · next hk =>
    rw [symbol]
    exact ⟨rfl, hk⟩
  all_goals simp at hc

end Production

def Kind.isHarmless (k : Kind) : Bool := !isOldStatement k && !isParameterList k

theorem Symbol.isHarmless_kind {x : Symbol} (h : x.isToken = true) : x.kind.isHarmless = true := by
  cases x with
  | terminal t =>
    show t.kind.isHarmless = true
    unfold Terminal.kind
    split <;> rfl
  | error => rfl
  | _ => cases h

theorem Symbol.kind_ne_error {x : Symbol} (h : x ≠ .error) : x.kind ≠ .error := by
  cases x with
  | terminal t =>
    show t.kind ≠ .error
    unfold Terminal.kind
    split <;> nofun
  | nonterminal n =>
    show n.kind ≠ .error
    unfold Nonterminal.kind
    split <;> nofun
  | error => exact absurd rfl h
  | _ => nofun

namespace Node

/-- nothing is refused at the node or below it -/
def IsHarmless (n : Node) : Prop := ∀ m ∈ n.preorder, m.kind.isHarmless = true

theorem isHarmless_iff {n : Node} :
    n.IsHarmless ↔ n.kind.isHarmless = true ∧ ∀ d ∈ n.parts, d.2.IsHarmless :=
  forall_mem_preorder

theorem refusedAt_of_isHarmless {n : Node} (h : n.kind.isHarmless = true) (source : String) :
    refusedAt source n = none := by
  rw [Kind.isHarmless, Bool.and_eq_true, Bool.not_eq_true', Bool.not_eq_true'] at h
  rw [refusedAt, h.1, h.2]
  rfl

theorem IsHarmless.findSome? {n : Node} (h : n.IsHarmless) (source : String) :
    n.preorder.findSome? (refusedAt source) = none :=
  List.findSome?_eq_none_iff.mpr fun m hm => refusedAt_of_isHarmless (h m hm) source

theorem isHarmless_of_isToken {t : Tree} (token : t.symbol.isToken = true) (nil : t.children = [])
    {step : Option Step} (unmarked : step.bind (·.shown) = none) {part : Option Field} :
    ∀ d ∈ collect step part [] t, d.2.IsHarmless := by
  intro d hd
  rw [eq_of_mem_collect nil hd]
  refine isHarmless_iff.mpr ⟨?_, fun e he => ?_⟩
  · rw [kind_ofChild, unmarked]
    exact Symbol.isHarmless_kind token
  · rw [parts_eq_nil step nil] at he
    exact absurd he List.not_mem_nil

/-- an operator makes a node with nothing but tokens below it -/
theorem isHarmless_of_isOperator {t : Tree} (ht : t.Formed productions) (cost : t.cost = 0)
    {r : Rule} (hr : t.symbol.asRule? repetitions = some r) (operator : r.isOperator = true)
    {step : Option Step} (hk : (ofChild step t).kind.isHarmless = true) :
    (ofChild step t).IsHarmless := by
  refine isHarmless_iff.mpr ⟨hk, fun d hd => ?_⟩
  rcases ht.filled cost with ⟨-, nil⟩ | ⟨p, symbol, filled, parts⟩
  · rw [parts_eq_nil step nil] at hd
    exact absurd hd List.not_mem_nil
  · rw [parts step] at hd
    obtain ⟨c, hc, q, -, hd⟩ := mem_collectAll hd
    obtain ⟨hmem, hstep⟩ := Tree.mem_withSteps filled.symbols hc
    have token : c.2.symbol.isToken = true ∧ c.1.bind (·.shown) = none := by
      rcases hstep with ⟨hn, extra⟩ | ⟨s, hs, hn, same⟩
      · exact ⟨Symbol.isToken_of_isExtra (filled.extras c.2 hmem extra), by rw [hn]; rfl⟩
      · rw [hn, same]
        exact Production.isToken_of_mem_operator filled.mem hs (symbol.symm ▸ hr) operator
    exact isHarmless_of_isToken token.1 ((filled.placed c.2 hmem).token token.1) token.2 d hd

/-- a node without a name is harmless -/
theorem isHarmless_ofChild {t : Tree} {step : Option Step} (ht : t.Formed productions)
    (cost : t.cost = 0) (hs : t.StandsFor step) (shown : Tree.isShown (step, t) = true)
    (unnamed : (ofChild step t).named = false) : (ofChild step t).IsHarmless := by
  rw [named_ofChild] at unnamed
  cases hk : step.bind (·.shown) with
  | some k =>
    obtain ⟨s, rfl, hk'⟩ := Option.bind_eq_some_iff.mp hk
    obtain ⟨same, p, hp, hmem⟩ := hs s rfl
    have operator : k = .notIn ∨ k = .isNot := by
      rw [hk] at unnamed
      split at unnamed
      · next h => exact .inl (Option.some.inj h)
      · next h => exact .inr (Option.some.inj h)
      · cases unnamed
      · next h => cases h
    have mark : s.shown = some .notIn ∨ s.shown = some .isNot := by
      rcases operator with rfl | rfl
      · exact .inl hk'
      · exact .inr hk'
    obtain ⟨r, hr, hop⟩ := Production.isOperator_of_mem hp hmem mark
    refine isHarmless_of_isOperator ht cost (same ▸ hr) hop ?_
    rw [kind_ofChild, hk]
    rcases operator with rfl | rfl <;> rfl
  | none =>
    have token : t.symbol.isToken = true := by
      rw [Tree.isShown, hk] at shown
      have shown : t.symbol.isVisible = true := shown
      rw [hk] at unnamed
      have unnamed : t.symbol.isNamed = false := unnamed
      cases hx : t.symbol with
      | terminal x => rfl
      | nonterminal n =>
        rw [hx] at shown unnamed
        exact absurd (shown.symm.trans unnamed) (by decide)
      | error => rfl
      | repetition k => rw [hx] at shown; cases shown
      | skipped => rw [hx] at shown; cases shown
    exact isHarmless_of_isToken token ((ht.placed cost).token token) hk _
      (mem_collect_of_isShown none shown)

theorem isFault_ofChild {t : Tree} {step : Option Step} (ht : t.Formed productions)
    (cost : t.cost = 0) (hs : t.StandsFor step) : (ofChild step t).isFault = false := by
  obtain ⟨error, present⟩ := Bool.or_eq_false_iff.mp (ht.isFault_eq_false cost)
  have absent : (ofChild step t).absent = t.info.absent := by
    cases t
    rfl
  rw [isFault, absent, present, Bool.or_false, kind_ofChild, beq_eq_false_iff_ne]
  cases hk : step.bind (·.shown) with
  | some k =>
    obtain ⟨s, rfl, hk'⟩ := Option.bind_eq_some_iff.mp hk
    obtain ⟨-, p, hp, hmem⟩ := hs s rfl
    rintro rfl
    exact Production.shown_ne_error hp hmem hk'
  | none => exact Symbol.kind_ne_error (beq_eq_false_iff_ne.mp error)

end Node

namespace Machine.Whole

variable {t : Tree}

theorem faulty_ofTree (whole : Machine.Whole productions t) :
    (Node.ofTree t).faulty = true ↔ ¬ t.Fits := by
  rw [whole.ofTree_eq, Node.faulty_ofChild, Nat.pos_iff_ne_zero]
  exact not_congr (whole.1.cost_eq_zero_iff whole.symbol_ne_skipped)

/-- what holds of all nodes that formed trees make, with what is handed down from the tree as a
whole, holds of all nodes of the tree -/
theorem forall_mem_preorder_of {P : Node → Prop} {Q : Tree → Prop}
    (down : ∀ u, Q u → ∀ c ∈ u.children, Q c)
    (made : ∀ (u : Tree) (step : Option Step), Q u → u.Formed productions → u.cost = 0 →
      u.StandsFor step → Tree.isShown (step, u) = true → P (Node.ofChild step u))
    (whole : Machine.Whole productions t) (hq : Q t) (fits : t.Fits) :
    ∀ n ∈ (Node.ofTree t).preorder, P n := by
  have cost := (whole.1.cost_eq_zero_iff whole.symbol_ne_skipped).mpr fits
  rw [whole.ofTree_eq]
  exact whole.1.forall_mem_preorder down made hq cost none none (Tree.standsFor_none t) _
    (Node.mem_collect_of_isShown none whole.isShown)

theorem forall_mem_preorder {P : Node → Prop}
    (made : ∀ (u : Tree) (step : Option Step), u.Formed productions → u.cost = 0 →
      u.StandsFor step → Tree.isShown (step, u) = true → P (Node.ofChild step u))
    (whole : Machine.Whole productions t) (fits : t.Fits) :
    ∀ n ∈ (Node.ofTree t).preorder, P n :=
  whole.forall_mem_preorder_of (Q := fun _ => True) (fun _ _ _ _ => trivial)
    (fun u step _ => made u step) trivial fits

theorem isHarmless (whole : Machine.Whole productions t) (fits : t.Fits) :
    ∀ n ∈ (Node.ofTree t).preorder, n.named = false → n.IsHarmless :=
  whole.forall_mem_preorder (fun _ _ => Node.isHarmless_ofChild) fits

/-- **No node of a whole tree that fits is a fault.** -/
theorem isFault_eq_false (whole : Machine.Whole productions t) (fits : t.Fits) :
    ∀ n ∈ (Node.ofTree t).preorder, n.isFault = false :=
  whole.forall_mem_preorder (fun _ _ ht cost hs _ => Node.isFault_ofChild ht cost hs) fits

end Machine.Whole

end Python

open Python

/-! ## the first node that is refused -/

/-- the node is neither a statement of version 2 of the language nor a list with an invalid
parameter; what is below it does not matter -/
structure Python.Node.IsValid (text : String) (n : Node) : Prop where
  statement : isOldStatement n.kind = false
  list : isParameterList n.kind = true → firstInvalid text n = none

theorem refusedAt_eq_none_iff {text : String} {n : Node} :
    refusedAt text n = none ↔ n.IsValid text := by
  rw [refusedAt]
  cases statement : isOldStatement n.kind with
  | true => exact ⟨nofun, fun h => absurd (statement.symm.trans h.statement) (by decide)⟩
  | false =>
    rw [if_neg Bool.false_ne_true]
    cases list : isParameterList n.kind with
    | true => exact ⟨fun h => ⟨statement, fun _ => h⟩, fun h => h.list list⟩
    | false => exact ⟨fun _ => ⟨statement, fun h => nomatch list.symm.trans h⟩, fun _ => rfl⟩

theorem refusedAt_cases {text : String} {n m : Node} (h : refusedAt text n = some m) :
    isOldStatement n.kind = true ∧ m = n ∨
      isParameterList n.kind = true ∧ firstInvalid text n = some m := by
  rw [refusedAt] at h
  split at h
  · next statement => exact .inl ⟨statement, (Option.some.inj h).symm⟩
  · split at h
    · next list => exact .inr ⟨list, h⟩
    · cases h

theorem firstRefusedIn_eq {source : String} {cs : List (Option Field × Node)}
    (unnamed : ∀ c ∈ cs, c.2.named = false → c.2.preorder.findSome? (refusedAt source) = none)
    (ih : ∀ c ∈ cs, firstRefused source c.2 = c.2.preorder.findSome? (refusedAt source)) :
    firstRefusedIn source cs = (cs.flatMap (·.2.preorder)).findSome? (refusedAt source) := by
  induction cs with
  | nil => rfl
  | cons c cs rest =>
    obtain ⟨part, c⟩ := c
    obtain ⟨hc, hcs⟩ := List.forall_mem_cons.mp unnamed
    obtain ⟨ihc, ihcs⟩ := List.forall_mem_cons.mp ih
    rw [firstRefusedIn, List.flatMap_cons, List.findSome?_append, ← rest hcs ihcs]
    cases named : c.named with
    | true =>
      rw [if_pos rfl, ihc]
      cases c.preorder.findSome? (refusedAt source) <;> rfl
    | false =>
      rw [if_neg Bool.false_ne_true, hc named]
      rfl

/-- **The search for what is refused goes through all nodes in document order**, if nothing is
refused at or below nodes without a name. -/
theorem firstRefused_eq (source : String) (n : Node)
    (unnamed : ∀ m ∈ n.preorder, m.named = false → m.IsHarmless) :
    firstRefused source n = n.preorder.findSome? (refusedAt source) := by
  induction n using Node.induction with
  | step n ih =>
    have parts : firstRefusedIn source n.parts =
        (n.parts.flatMap (·.2.preorder)).findSome? (refusedAt source) := by
      refine firstRefusedIn_eq (fun c hc named => ?_) fun c hc => ih c hc fun m hm => ?_
      · have mem := Node.mem_preorder_of_mem_parts hc (Node.mem_preorder_self c.2)
        exact (unnamed c.2 mem named).findSome? source
      · exact unnamed m (Node.mem_preorder_of_mem_parts hc hm)
    rw [Node.preorder_eq, List.findSome?_cons, ← parts]
    obtain ⟨k, n, a, f, s, e, cs⟩ := n
    rw [firstRefused]
    cases refusedAt source (.mk k n a f s e cs) <;> rfl

/-- a whole tree that fits is refused at its first node that is not valid -/
theorem refusal_of_fits {t : Tree} (whole : Machine.Whole productions t) (fits : t.Fits)
    (text : String) : refusal text (Node.ofTree t) =
      (Node.ofTree t).preorder.findSome? (refusedAt text) := by
  rw [refusal, if_neg fun faulty => whole.faulty_ofTree.mp faulty fits]
  exact firstRefused_eq text _ (whole.isHarmless fits)

/-- **A whole tree is not refused if and only if it fits and all its nodes are valid.** -/
theorem refusal_eq_none_iff {t : Tree} (whole : Machine.Whole productions t) (text : String) :
    refusal text (Node.ofTree t) = none ↔
      t.Fits ∧ ∀ n ∈ (Node.ofTree t).preorder, n.IsValid text := by
  by_cases fits : t.Fits
  · rw [refusal_of_fits whole fits, List.findSome?_eq_none_iff]
    simp only [refusedAt_eq_none_iff, fits, true_and]
  · rw [refusal, if_pos (whole.faulty_ofTree.mpr fits)]
    exact iff_of_false (Option.some_ne_none _) fun h => fits h.1

namespace Outline

/-- **A text has an outline if and only if** its tree fits, and at no depth has a statement of
version 2 of the language or a list with an invalid parameter. A text that fits and has no outline
is refused at the first of these in document order: at the statement itself, or at the first
invalid parameter of the list, whatever there is further down in the list. A tree does not fit
either if a line end is missing from it, although that makes no node. -/
theorem parse_accepts (path text : String) :
    let t := Python.parse text.toList
    let root := Node.ofTree t
    ((∃ o, parse path text = .ok o) ↔ t.Fits ∧
      (∀ n ∈ root.preorder, isOldStatement n.kind = false) ∧
      ∀ n ∈ root.preorder, isParameterList n.kind = true → firstInvalid text n = none) ∧
    (t.Fits → ∀ e, parse path text = .error e →
      ∃ before n after m, root.preorder = before ++ n :: after ∧
        (∀ k ∈ before, k.IsValid text) ∧
        (isOldStatement n.kind = true ∧ m = n ∨
          isParameterList n.kind = true ∧ firstInvalid text n = some m) ∧
        e = ⟨m.start.row + 1, m.start.column + 1⟩) := by
  intro t root
  have whole : Machine.Whole productions t := whole_parse text.toList
  have valid : (∀ n ∈ root.preorder, n.IsValid text) ↔
      (∀ n ∈ root.preorder, isOldStatement n.kind = false) ∧
        ∀ n ∈ root.preorder, isParameterList n.kind = true → firstInvalid text n = none :=
    ⟨fun h => ⟨fun n hn => (h n hn).statement, fun n hn => (h n hn).list⟩,
      fun h n hn => ⟨h.1 n hn, h.2 n hn⟩⟩
  have accepted : (∃ o, parse path text = .ok o) ↔ refusal text root = none := by
    rw [parse, check]
    cases refusal text root with
    | none => exact iff_of_true ⟨_, rfl⟩ rfl
    | some n =>
      refine iff_of_false ?_ (Option.some_ne_none n)
      rintro ⟨o, ho⟩
      cases ho
  refine ⟨accepted.trans ((refusal_eq_none_iff whole text).trans (and_congr_right' valid)), ?_⟩
  intro fits e he
  have refused : ∃ m, refusal text root = some m ∧ e = .at_ m := by
    rw [parse, check] at he
    cases hr : refusal text root with
    | none => rw [hr] at he; cases he
    | some m => rw [hr] at he; exact ⟨m, rfl, (Except.error.inj he).symm⟩
  obtain ⟨m, hm, rfl⟩ := refused
  rw [refusal_of_fits whole fits, List.findSome?_eq_some_iff] at hm
  obtain ⟨before, n, after, split, here, earlier⟩ := hm
  exact ⟨before, n, after, m, split, fun k hk => refusedAt_eq_none_iff.mp (earlier k hk),
    refusedAt_cases here, rfl⟩

-- no node of the tree is a fault, but the line end between the two statements is missing
example :
    let root := Node.ofTree (Python.parse "import a import b".toList)
    root.faulty = true ∧ root.preorder.all fun n => !n.isFault := by
  decide +kernel

end Outline

end AnnotationAudit
