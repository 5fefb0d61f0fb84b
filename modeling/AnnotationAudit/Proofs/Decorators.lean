import AnnotationAudit.Proofs.DottedNames
import AnnotationAudit.Proofs.Scopes

/-!
# Decorators and their layout

A function has the decorators of the decorated definition that is right around it, one for each of
its decorators and in their order. A decorator has one expression, and if this is a dotted name,
called any number of times or not at all, the name is found unless a line continuation stands before
it, or a comment, a line continuation or a character without a width stands in it.

* `Node.decoratorsOf`     the decorators of the nearest node around;
* `Source.headsAt`        functions have the decorators of the node around them;
* `Node.Decorates`        the expression of a decorator;
* `Node.Calls`            what is called, any number of times;
* `Source.IsToldBy`       what a decorator is found to be;
* `Outline.parse_decorates`  so it is for all decorators of an accepted text.
-/

namespace AnnotationAudit
namespace Python

open Text

/-! ## the functions at a node -/

namespace Node

/-- the functions at a node and below it, each with the nodes around it -/
def functionsAt (around : List Node) (n : Node) : List (List Node × Node) :=
  (n.sites around).filter (·.2.isFunction)

theorem functionsAt_eq (around : List Node) (n : Node) :
    n.functionsAt around = (if n.isFunction then [(around, n)] else []) ++
      n.parts.flatMap fun c => c.2.functionsAt (n :: around) := by
  rw [functionsAt, sites_eq, List.filter_cons, List.filter_flatMap]
  split <;> rfl

theorem functionsAt_of_isPlain (around : List Node) {n : Node} (h : n.IsPlain) :
    n.functionsAt around = [] := by
  refine List.filter_eq_nil_iff.mpr fun x hx function => ?_
  have mem : x.2 ∈ n.preorder := by
    rw [← map_sites around n]
    exact List.mem_map_of_mem hx
  have definition : x.2.isDefinition = true :=
    isDefinition_iff.mpr (.inl (beq_iff_eq.mp function))
  cases definition.symm.trans (h x.2 mem)

theorem mem_preorder_of_mem_sites {around : List Node} {n : Node} {x : List Node × Node}
    (hx : x ∈ n.sites around) : x.2 ∈ n.preorder ∧ ∀ w ∈ x.1, w ∈ n.preorder ∨ w ∈ around := by
  induction n using Node.induction generalizing around with
  | step n ih =>
    rw [sites_eq] at hx
    rcases List.mem_cons.mp hx with rfl | hx
    · exact ⟨n.mem_preorder_self, fun w hw => .inr hw⟩
    · obtain ⟨c, hc, hx⟩ := List.mem_flatMap.mp hx
      obtain ⟨here, above⟩ := ih c hc hx
      refine ⟨mem_preorder_of_mem_parts hc here, fun w hw => ?_⟩
      rcases above w hw with below | around
      · exact .inl (mem_preorder_of_mem_parts hc below)
      · rcases List.mem_cons.mp around with rfl | around
        · exact .inl w.mem_preorder_self
        · exact .inr around

/-- the decorators of the nearest node around, if that is a decorated definition -/
def decoratorsOf : List Node → List Node
  | [] => []
  | w :: _ =>
    if w.kind == .decoratedDefinition then w.namedChildren.filter (·.kind == .decorator) else []

theorem decoratorsOf_cons {w : Node} (hk : w.kind ≠ .decoratedDefinition) (around : List Node) :
    decoratorsOf (w :: around) = [] :=
  if_neg fun h => hk (beq_iff_eq.mp h)

theorem of_mem_decoratorsOf {around : List Node} {d : Node} (hd : d ∈ decoratorsOf around) :
    d.kind = .decorator ∧ ∃ w ∈ around, d ∈ w.namedChildren := by
  cases around with
  | nil => cases hd
  | cons w around =>
    rw [decoratorsOf] at hd
    split at hd
    · obtain ⟨mem, hk⟩ := List.mem_filter.mp hd
      exact ⟨beq_iff_eq.mp hk, w, List.mem_cons_self, mem⟩
    · cases hd

end Node

end Python

open Python Text

theorem forall₂_filterMap {α β : Type} {R : α → β → Prop} {g : α → Option β} {as : List α}
    (h : ∀ a ∈ as, ∃ b, g a = some b ∧ R a b) : List.Forall₂ R as (as.filterMap g) := by
  induction as with
  | nil => exact .nil
  | cons a as ih =>
    obtain ⟨⟨b, found, holds⟩, others⟩ := List.forall_mem_cons.mp h
    rw [List.filterMap_cons_some found]
    exact .cons holds (ih others)

namespace Source

def decoratorAt? (s : Source) (d : Node) : Option Decorator :=
  (d.namedChildren.find? fun n => n.kind != .comment).map fun n => .ofName (s.decoratorName n)

theorem decorators_eq (s : Source) {w : Node} (hk : w.kind = .decoratedDefinition)
    (around : List Node) :
    s.decorators w.parts = (Node.decoratorsOf (w :: around)).filterMap s.decoratorAt? := by
  have same : (w.children.filter fun d => d.kind == .decorator && d.named) =
      w.children.filter fun d => d.named && d.kind == .decorator :=
    List.filter_congr fun d _ => Bool.and_comm _ _
  rw [Node.decoratorsOf, hk, if_pos (beq_self_eq_true _), Node.namedChildren, List.filter_filter,
    same]
  rfl

/-- a function has the head of a node, with the decorators of the node right around it -/
def IsHeadAt (s : Source) (x : List Node × Node) (f : Signature) : Prop :=
  ∃ scope, f = s.signature scope ((Node.decoratorsOf x.1).filterMap s.decoratorAt?) x.2

/-- the functions at a node are lowered with their decorators: at the node as it is, among its
parts, and as the definition below decorators -/
structure HeadsAt (s : Source) (n : Node) : Prop where
  node : ∀ scope around, Node.decoratorsOf around = [] →
    List.Forall₂ s.IsHeadAt (n.functionsAt around) (functionsOf (s.definitionsAt scope n))
  parts : n.kind ≠ .decoratedDefinition → ∀ scope around,
    List.Forall₂ s.IsHeadAt (n.parts.flatMap fun c => c.2.functionsAt (n :: around))
      (functionsOf (s.definitions scope n.parts))
  decorated : n.isDefinition = true → ∀ scope around,
    List.Forall₂ s.IsHeadAt (n.functionsAt around)
      (functionsOf (s.decoratedAt scope ((Node.decoratorsOf around).filterMap s.decoratorAt?) n))

variable {s : Source} {n : Node}

theorem headsAt_definitions {cs : List (Option Field × Node)} (below : ∀ c ∈ cs, s.HeadsAt c.2)
    (scope : Scope) {around : List Node} (bare : Node.decoratorsOf around = []) :
    List.Forall₂ s.IsHeadAt (cs.flatMap fun c => c.2.functionsAt around)
      (functionsOf (s.definitions scope cs)) := by
  induction cs with
  | nil => exact .nil
  | cons c cs ih =>
    obtain ⟨first, below⟩ := List.forall_mem_cons.mp below
    show List.Forall₂ _ _ (functionsOf (s.definitionsAt scope c.2 ++ s.definitions scope cs))
    rw [List.flatMap_cons, functionsOf_append]
    exact List.rel_append (first.node scope around bare) (ih below)

/-- what stands in a definition is lowered by its body -/
theorem headsAt_bodyOf (here : n.InPlace) (below : ∀ c ∈ n.parts, s.HeadsAt c.2)
    (hd : n.isDefinition = true) (scope : Scope) (around : List Node) :
    List.Forall₂ s.IsHeadAt (n.parts.flatMap fun c => c.2.functionsAt (n :: around))
      (functionsOf (s.bodyOf scope n.parts)) := by
  rw [Node.flatMap_of_rest_plain (fun m => Node.functionsAt_of_isPlain _) (here.head hd), bodyOf_eq]
  cases hb : n.child? .body with
  | none => exact .nil
  | some b =>
    obtain ⟨c, hc, rfl⟩ := Node.mem_parts_of_child? hb
    have block : c.2.kind = .block := here.body hd _ hb
    have function : c.2.isFunction = false := by rw [Node.isFunction, block]; rfl
    show List.Forall₂ _ (c.2.functionsAt (n :: around)) (functionsOf (s.definitionsBelow scope c.2))
    rw [Node.functionsAt_eq, function, if_neg Bool.false_ne_true, List.nil_append,
      definitionsBelow_eq]
    exact (below c hc).parts (by rw [block]; nofun) scope (n :: around)

theorem headsAt_decoratedAt (here : n.InPlace) (below : ∀ c ∈ n.parts, s.HeadsAt c.2)
    (hd : n.isDefinition = true) (scope : Scope) (around : List Node) :
    List.Forall₂ s.IsHeadAt (n.functionsAt around)
      (functionsOf
        (s.decoratedAt scope ((Node.decoratorsOf around).filterMap s.decoratorAt?) n)) := by
  have body := headsAt_bodyOf here below hd
  have hk := Node.isDefinition_iff.mp hd
  rw [Node.functionsAt_eq]
  rcases hk with hk | hk
  · have function : n.isFunction = true := by rw [Node.isFunction, hk]; rfl
    rw [function, if_pos rfl]
    have inner := body .inFunction around
    cases n
    obtain rfl := hk
    show List.Forall₂ _ _ (_ :: functionsOf _ ++ [])
    rw [List.append_nil]
    exact .cons ⟨scope, rfl⟩ inner
  · have function : n.isFunction = false := by rw [Node.isFunction, hk]; rfl
    rw [function, if_neg Bool.false_ne_true, List.nil_append]
    have inner := body .inClass around
    cases n
    obtain rfl := hk
    show List.Forall₂ _ _ (functionsOf _ ++ [])
    rw [List.append_nil]
    exact inner

theorem headsAt_definitionsAt (here : n.InPlace) (below : ∀ c ∈ n.parts, s.HeadsAt c.2)
    (scope : Scope) {around : List Node} (bare : Node.decoratorsOf around = []) :
    List.Forall₂ s.IsHeadAt (n.functionsAt around) (functionsOf (s.definitionsAt scope n)) := by
  by_cases hn : n.named = true
  · by_cases hd : n.isDefinition = true
    · have decorated := headsAt_decoratedAt here below hd scope around
      rw [bare] at decorated
      rw [definitionsAt_of_isDefinition s scope hn hd]
      exact decorated
    · have function : n.isFunction = false := by
        rw [Bool.eq_false_iff]
        exact fun h => hd (Node.isDefinition_iff.mpr (.inl (beq_iff_eq.mp h)))
      rw [Bool.not_eq_true] at hd
      by_cases hk : n.kind = .decoratedDefinition
      · -- the one child with definitions is lowered with the decorators of this node
        rw [Node.functionsAt_eq, function, if_neg Bool.false_ne_true, List.nil_append,
          Node.flatMap_of_rest_plain (fun m => Node.functionsAt_of_isPlain _) (here.decorators hk),
          definitionsAt_of_decorated s scope hn hk, decorated_eq, decorators_eq s hk around]
        cases definition : n.child? .definition with
        | none => exact .nil
        | some d =>
          obtain ⟨c, hc, rfl⟩ := Node.mem_parts_of_child? definition
          exact (below c hc).decorated (here.decorated hk _ definition) scope (n :: around)
      · by_cases hl : n.kind = .lambda
        · rw [Node.functionsAt_of_isPlain around (here.lambda hl)]
          cases n
          obtain rfl := hn
          obtain rfl := hl
          exact .nil
        · rw [Node.functionsAt_eq, function, if_neg Bool.false_ne_true, List.nil_append,
            definitionsAt_of_other s scope hn hd hk hl]
          exact headsAt_definitions below scope (Node.decoratorsOf_cons hk around)
  · rw [Bool.not_eq_true] at hn
    rw [Node.functionsAt_of_isPlain around (here.unnamed hn), definitionsAt_of_unnamed s scope hn]
    exact .nil

/-- **Where all is in place, functions have the decorators of the node around them.** -/
theorem headsAt (s : Source) {n : Node} (h : ∀ m ∈ n.preorder, m.InPlace) : s.HeadsAt n := by
  induction n using Node.induction with
  | step n ih =>
    have here := h n n.mem_preorder_self
    have below : ∀ c ∈ n.parts, s.HeadsAt c.2 := fun c hc =>
      ih c hc fun m hm => h m (Node.mem_preorder_of_mem_parts hc hm)
    exact ⟨fun scope _ bare => headsAt_definitionsAt here below scope bare,
      fun hk scope around => headsAt_definitions below scope (Node.decoratorsOf_cons hk around),
      headsAt_decoratedAt here below⟩

end Source

/-! ## the expression of a decorator -/

namespace Python

/-- the steps of a decorator: its mark, an expression and the end of the line -/
def markStep : Step := .plain (.terminal .at_) none

def expressionStep : Step := .plain (.nonterminal .expression) none

def endStep : Step := .plain (.terminal .newline) none

theorem decorator_readings (reps : List Rule) :
    (((Rule.of .decorator).readings reps {} true).all fun x =>
      (inlineAll reps x.steps).all fun y =>
        y.steps.map Step.marked == [markStep, expressionStep, endStep].map Step.marked) = true := by
  cbv

namespace Node

/-- the expression of a decorator: the first child with a name that is no extra -/
def expression? (d : Node) : Option Node := d.namedChildren.find? fun n => !n.kind.isExtra

/-- what stands before the expression of a decorator -/
def leading (d : Node) : List Node := d.namedChildren.takeWhile fun n => n.kind.isExtra

/-- among the children with a name of a decorator is one that is no extra -/
structure Decorates (d : Node) (before : List Node) (n : Node) (after : List Node) : Prop where
  children : d.namedChildren = before ++ n :: after
  plain : n.kind.isExtra = false
  extras : ∀ m ∈ before ++ after, m.kind.isExtra = true

namespace Decorates

variable {d n : Node} {before after : List Node}

theorem expression?_eq (h : d.Decorates before n after) : d.expression? = some n := by
  have none : (before.find? fun n => !n.kind.isExtra) = none := by
    refine List.find?_eq_none.mpr fun m hm => ?_
    rw [h.extras m (List.mem_append_left after hm)]
    exact Bool.false_ne_true
  rw [expression?, h.children, List.find?_append, none,
    List.find?_cons_of_pos (by rw [h.plain]; rfl)]
  rfl

theorem leading_eq (h : d.Decorates before n after) : d.leading = before := by
  rw [leading, h.children,
    List.takeWhile_append_of_pos fun m hm => h.extras m (List.mem_append_left after hm),
    List.takeWhile_cons_of_neg (by rw [h.plain]; exact Bool.false_ne_true), List.append_nil]

theorem ne_comment (h : d.Decorates before n after) : (n.kind != .comment) = true := by
  have plain := h.plain
  rw [Kind.isExtra, Bool.or_eq_false_iff] at plain
  rw [bne, plain.1]
  rfl

end Decorates

end Node

variable {text : String} {t : Tree}

/-- **A decorator has one expression.** -/
theorem Tree.Settled.decorates (h : t.Settled text.toList)
    (symbol : t.symbol = .nonterminal .decorator) (step : Option Step) :
    ∃ before n after, (Node.ofChild step t).Decorates before n after := by
  obtain ⟨x, es, y, fs, z, three, below, parts⟩ :=
    h.exists_three symbol (by decide) (decorator_readings repetitions)
  obtain ⟨-, hy, hz, hes, hfs⟩ := three.mem
  obtain ⟨symx, symy, symz⟩ := three.symbols
  obtain ⟨n, named, plain, -, expression⟩ := (below y hy).1.collect_expression symy rfl none
  have mark : Node.collect (some markStep) none [] x = [(none, Node.ofChild (some markStep) x)] :=
    Node.collect_of_shows symx rfl
  have unnamed : (Node.ofChild (some markStep) x).named = false := by
    rw [Node.named_ofChild, symx]
    rfl
  have hidden : Tree.isShown (some endStep, z) = false := (Node.isShown_of_symbol symz).trans rfl
  have token : z.children = [] :=
    ((below z hz).1.formed.placed (below z hz).1.cost).token (by rw [symz]; rfl)
  have ends : Node.collect (some endStep) none [] z = [] := Node.collect_eq_nil hidden token
  have expression : Node.collect (some expressionStep) none [] y = [(none, n)] := expression
  have parts := (parts step).trans (three.collectAll_eq markStep expressionStep endStep)
  rw [mark, expression, ends, List.append_nil] at parts
  have extras {gs : List Tree} (hgs : gs ⊆ t.children) (free : ∀ g ∈ gs, g.extra = true) :
      ∀ m ∈ ((gs.flatMap (Node.collect none none [])).map (·.2)).filter Node.named,
        m.kind.isExtra = true := by
    intro m hm
    obtain ⟨d, hd, rfl⟩ := List.mem_map.mp (List.mem_of_mem_filter hm)
    obtain ⟨g, hg, hd⟩ := List.mem_flatMap.mp hd
    obtain ⟨settled, extra⟩ := below g (hgs hg)
    exact (settled.of_mem_collect_extra (extra (free g hg)) hd).2
  refine ⟨_, n, _, ?_, plain, List.forall_mem_append.mpr
    ⟨extras hes three.extras.1, extras hfs three.extras.2⟩⟩
  rw [Node.namedChildren, Node.children, parts, List.map_append, List.map_append, List.map_append,
    List.filter_append, List.filter_append, List.filter_append, List.map_singleton,
    List.map_singleton, List.filter_cons_of_neg (by rw [unnamed]; exact Bool.false_ne_true),
    List.filter_cons_of_pos named]
  rfl

theorem Machine.Whole.decorates {text : String} (fits : (parse text.toList).Fits) :
    ∀ d ∈ (Node.ofTree (parse text.toList)).preorder, d.kind = .decorator →
      ∃ before n after, d.Decorates before n after :=
  (whole_parse text.toList).forall_mem_preorder_of (Q := Tree.LiesIn text.toList)
    (fun _ h => h.down)
    (fun u step lies ht cost hs _ hk =>
      have settled : u.Settled text.toList := ⟨lies, ht, cost⟩
      settled.decorates (hs.symbol_eq hk rfl rfl) step)
    (liesIn_parse text.toList) fits

/-! ## what is called -/

namespace Node

/-- what is called in the end, however many lists of arguments stand behind it, or none -/
inductive Calls : Node → Node → Prop where
  | self {n : Node} : n.kind ≠ .call → Calls n n
  | call {n f m : Node} : n.kind = .call → n.child? .function = some f → Calls f m → Calls n m

theorem Calls.mem_preorder {n m : Node} (h : n.Calls m) : m ∈ n.preorder := by
  induction h with
  | @self n => exact n.mem_preorder_self
  | call hk hf calls ih => exact mem_preorder_trans (mem_preorder_of_child? hf) ih

end Node

end Python

theorem Decorator.ofName_injective : Function.Injective Decorator.ofName := by
  intro a b same
  unfold ofName at same
  split at same
  all_goals
    repeat' split at same
    all_goals first | (subst_vars; rfl) | cases same
  rfl

namespace Source

variable {s : Source} {n m : Node} {names : List String}

theorem decoratorName_eq (s : Source) (n : Node) :
    s.decoratorName n =
      if n.kind == .call then (s.calledName n.parts).getD (s.textOf n) else s.dottedName n := by
  cases n
  rw [decoratorName]
  rfl

theorem decoratorName_of_ne_call (s : Source) {n : Node} (hk : n.kind ≠ .call) :
    s.decoratorName n = s.dottedName n := by
  rw [decoratorName_eq, if_neg fun call => hk (beq_iff_eq.mp call)]

theorem calledName_eq (s : Source) (n : Node) :
    s.calledName n.parts = (n.child? .function).map s.decoratorName := by
  rw [Node.child?_eq]
  induction n.parts with
  | nil => rfl
  | cons c cs ih =>
    show (if Node.plays .function c then some (s.decoratorName c.2) else s.calledName cs) = _
    by_cases hc : Node.plays .function c = true
    · rw [if_pos hc, List.find?_cons_of_pos hc]
      rfl
    · rw [if_neg hc, List.find?_cons_of_neg hc, ih]

/-- the arguments are left out -/
theorem decoratorName_of_calls (s : Source) (h : n.Calls m) :
    s.decoratorName n = s.dottedName m := by
  induction h with
  | self hk => exact s.decoratorName_of_ne_call hk
  | @call n f m hk hf calls ih =>
    rw [decoratorName_eq, if_pos (beq_iff_eq.mpr hk), calledName_eq, hf]
    exact ih

/-! ## what a decorator is found to be -/

/-- the entry for a decorator: where its expression is a dotted name, called or not, it is the entry
for this name if and only if no line continuation stands before the expression and the name is bare.
So blanks do not matter, nor what stands in the arguments or behind the name. -/
def IsToldBy (s : Source) (d : Node) (e : Decorator) : Prop :=
  ∃ n, d.expression? = some n ∧ ∀ m names, n.Calls m → s.Spells m names →
    (e = .ofName (".".intercalate names) ↔
      (∀ b ∈ d.leading, b.kind ≠ .lineContinuation) ∧ s.IsBare m)

/-- a line continuation is no part of a name -/
theorem dottedName_ne_of_continuation {b : Node} (legible : b.IsLegible s.text)
    (hb : b.kind = .lineContinuation) (spells : s.Spells m names)
    (readable : ∀ k ∈ m.preorder, k.IsLegible s.text) :
    s.dottedName b ≠ ".".intercalate names := by
  intro same
  have none : isBlank '\\' = false ∧ isIdentifierPart '\\' = false := by decide +kernel
  have backslash : '\\' ∈ (s.dottedName b).toList := by
    rw [dottedName, String.toList_ofList]
    exact List.mem_filter.mpr ⟨legible.continuation hb, by rw [none.1]; rfl⟩
  rw [same] at backslash
  rcases spells.letters readable _ backslash with part | dot
  · cases part.symm.trans none.2
  · exact absurd dot (by decide)

/-- **Each decorator has an entry**, which is told by it. -/
theorem exists_entry {d : Node} (legible : ∀ m ∈ d.preorder, m.IsLegible s.text)
    {before after : List Node} (decorates : d.Decorates before n after) :
    ∃ e, s.decoratorAt? d = some e ∧ s.IsToldBy d e := by
  have children := decorates.children
  have below : ∀ b ∈ d.namedChildren, ∀ k ∈ b.preorder, k.IsLegible s.text := fun b hb k hk =>
    legible k (Node.mem_preorder_trans (Node.mem_preorder_of_mem_namedChildren hb) hk)
  have here : n ∈ d.namedChildren := by
    rw [children]
    exact List.mem_append_right before List.mem_cons_self
  have readable {m : Node} (calls : n.Calls m) : ∀ k ∈ m.preorder, k.IsLegible s.text :=
    fun k hk => below n here k (Node.mem_preorder_trans calls.mem_preorder hk)
  cases found : before.find? fun b => b.kind != .comment with
  | none =>
    have comments : ∀ b ∈ before, b.kind = .comment := by simpa using found
    have first : ((n :: after).find? fun b => b.kind != .comment) = some n :=
      List.find?_cons_of_pos decorates.ne_comment
    refine ⟨.ofName (s.decoratorName n), ?_, n, decorates.expression?_eq,
      fun m names calls spells => ?_⟩
    · rw [decoratorAt?, children, List.find?_append, found, first]
      rfl
    · have continued : ∀ b ∈ d.leading, b.kind ≠ .lineContinuation := fun b hb => by
        rw [decorates.leading_eq] at hb
        rw [comments b hb]
        decide
      rw [s.decoratorName_of_calls calls, Decorator.ofName_injective.eq_iff,
        dottedName_eq_iff spells (readable calls), and_iff_right continued]
  | some b =>
    -- the first of the line continuations is looked at in place of the expression
    have mem : b ∈ before := List.mem_of_find?_eq_some found
    have continuation : b.kind = .lineContinuation := by
      have other := List.find?_some found
      have extra := decorates.extras b (List.mem_append_left after mem)
      rw [Kind.isExtra, Bool.or_eq_true, beq_iff_eq, beq_iff_eq] at extra
      exact extra.resolve_left (bne_iff_ne.mp other)
    have child : b ∈ d.namedChildren := by
      rw [children]
      exact List.mem_append_left _ mem
    refine ⟨.ofName (s.decoratorName b), ?_, n, decorates.expression?_eq,
      fun m names calls spells => ?_⟩
    · rw [decoratorAt?, children, List.find?_append, found]
      rfl
    · have other := dottedName_ne_of_continuation (below b child b b.mem_preorder_self) continuation
        spells (readable calls)
      rw [s.decoratorName_of_ne_call (by rw [continuation]; decide),
        Decorator.ofName_injective.eq_iff, decorates.leading_eq]
      exact ⟨fun same => absurd same other, fun h => absurd continuation (h.1 b mem)⟩

/-- the decorator is a dotted name, called or not, in a layout in which the name is found -/
def Names (s : Source) (d : Node) (names : List String) : Prop :=
  ∃ n m, d.expression? = some n ∧ n.Calls m ∧ s.Spells m names ∧
    (∀ b ∈ d.leading, b.kind ≠ .lineContinuation) ∧ s.IsBare m

theorem IsToldBy.eq_of_names {d : Node} {e : Decorator} (told : s.IsToldBy d e)
    (named : s.Names d names) : e = .ofName (".".intercalate names) := by
  obtain ⟨n, found, told⟩ := told
  obtain ⟨n', m, found', calls, spells, plain⟩ := named
  obtain rfl := Option.some.inj (found.symm.trans found')
  exact (told m names calls spells).mpr plain

theorem eq_map_of_names {ds : List Node} {es : List Decorator} {names : List (List String)}
    (told : List.Forall₂ s.IsToldBy ds es) (named : List.Forall₂ s.Names ds names) :
    es = names.map fun ns => .ofName (".".intercalate ns) := by
  induction told generalizing names with
  | nil =>
    cases named
    rfl
  | cons first told ih =>
    cases named with
    | cons name named => rw [List.map_cons, ← ih named, first.eq_of_names name]

end Source

/-! ## kinds of methods -/

/-- the kind of a function from its scope, its name and the dotted names of its decorators -/
def MethodKind.ofNames (scope : Scope) (name : String) (names : List (List String)) : MethodKind :=
  if scope ≠ .inClass then .function
  else if ["staticmethod"] ∈ names then .staticMethod
  else if ["classmethod"] ∈ names ∨ name = "__new__" then .classMethod
  else .instanceMethod

/-- a name without a dot is no dotted name but itself -/
theorem intercalate_eq_iff {name : String} (nonempty : name ≠ "") (plain : '.' ∉ name.toList)
    {names : List String} : ".".intercalate names = name ↔ names = [name] := by
  refine ⟨fun same => ?_, fun same => by rw [same, String.intercalate_singleton]⟩
  match names with
  | [] => exact absurd same.symm nonempty
  | [a] => rw [← same, String.intercalate_singleton]
  | a :: b :: names =>
    rw [← same, String.intercalate_cons_cons] at plain
    refine absurd ?_ plain
    rw [String.toList_append, String.toList_append]
    exact List.mem_append_left _ (List.mem_append_right _ (List.mem_singleton_self _))

/-- **The kind of a method is told by the names of its decorators.** -/
theorem Signature.methodKind_eq {f : Signature} {names : List (List String)}
    (h : f.decorators = names.map fun ns => .ofName (".".intercalate ns)) :
    f.methodKind = .ofNames f.scope f.name names := by
  have known (name : String) (nonempty : name ≠ "") (plain : '.' ∉ name.toList) :
      f.hasDecorator (.ofName name) = true ↔ [name] ∈ names := by
    rw [hasDecorator, h, List.contains_iff_mem, List.mem_map]
    constructor
    · rintro ⟨ns, mem, same⟩
      have same := Decorator.ofName_injective same
      exact (intercalate_eq_iff nonempty plain).mp same ▸ mem
    · exact fun mem => ⟨[name], mem, by rw [String.intercalate_singleton]⟩
  have static : f.hasDecorator .staticMethod = true ↔ ["staticmethod"] ∈ names :=
    known "staticmethod" (by decide) (by decide)
  have onClass : f.hasDecorator .classMethod = true ↔ ["classmethod"] ∈ names :=
    known "classmethod" (by decide) (by decide)
  have outside : (!f.isMethod) = true ↔ f.scope ≠ .inClass := by
    rw [Bool.not_eq_true', isMethod, beq_eq_false_iff_ne]
  unfold methodKind MethodKind.ofNames
  simp only [outside, static, onClass, Bool.or_eq_true, beq_iff_eq]

namespace Outline

/-- **Each decorator of a function has an entry, in their order**, and where it is a dotted name,
called any number of times or not at all, the entry is the one for this name if and only if no line
continuation stands before its expression and the name is bare. So neither blanks nor arguments
matter, and if all decorators of a function are such names, its kind is told by them. This holds of
all functions of an accepted text. -/
theorem parse_decorates (path text : String) :
    let root := Node.ofTree (Python.parse text.toList)
    let source := Source.ofNode text root
    (∃ n, refusal text root = some n ∧ parse path text = .error (.at_ n)) ∨
      ∃ o, parse path text = .ok o ∧
        List.Forall₂
          (fun x f => IsHeadOf source x.2 f ∧
            List.Forall₂ source.IsToldBy (Node.decoratorsOf x.1) f.decorators ∧
            ∀ names, List.Forall₂ source.Names (Node.decoratorsOf x.1) names →
              f.methodKind = .ofNames f.scope f.name names)
          ((root.sites []).filter (·.2.isFunction)) o.functions := by
  intro root source
  refine (parse_cases path text).imp_right fun ⟨o, ho, unrefused, _⟩ => ⟨o, ho, ?_⟩
  have whole := whole_parse text.toList
  obtain ⟨fits, -⟩ := (refusal_eq_none_iff whole text).mp unrefused
  obtain ⟨module, places⟩ := inPlace_of_refusal_eq_none whole unrefused
  have legible := Machine.Whole.isLegible fits
  obtain rfl : o = ofNode path text root := eq_ofNode_of_check ho
  have heads : List.Forall₂ source.IsHeadAt (root.functionsAt [])
      (ofNode path text root).functions := by
    have function : root.isFunction = false := by rw [Node.isFunction, module]; rfl
    rw [Node.functionsAt_eq, function, if_neg Bool.false_ne_true, List.nil_append]
    exact (source.headsAt places).parts (by rw [module]; nofun) .module []
  have inside : List.Forall₂ (fun x f => x ∈ root.functionsAt [] ∧ source.IsHeadAt x f)
      (root.functionsAt []) (ofNode path text root).functions :=
    (List.forall₂_and_left _ _).mpr ⟨fun x hx => hx, heads⟩
  refine inside.imp fun x f ⟨hx, scope, head⟩ => ?_
  have told : List.Forall₂ source.IsToldBy (Node.decoratorsOf x.1) f.decorators := by
    rw [head]
    refine forall₂_filterMap fun d hd => ?_
    obtain ⟨hk, w, hw, mem⟩ := Node.of_mem_decoratorsOf hd
    have around := (Node.mem_preorder_of_mem_sites (List.mem_of_mem_filter hx)).2 w hw
    have below := Node.mem_preorder_trans (around.resolve_right List.not_mem_nil)
      (Node.mem_preorder_of_mem_namedChildren mem)
    obtain ⟨before, n, after, decorates⟩ := Machine.Whole.decorates fits d below hk
    exact Source.exists_entry (fun m hm => legible m (Node.mem_preorder_trans below hm)) decorates
  exact ⟨⟨scope, _, head⟩, told, fun names named =>
    Signature.methodKind_eq (Source.eq_map_of_names told named)⟩

end Outline

end AnnotationAudit
