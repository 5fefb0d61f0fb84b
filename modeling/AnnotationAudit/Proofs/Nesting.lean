import AnnotationAudit.Outline
import Mathlib.Data.List.Forall2

/-!
# The outline keeps the nesting of a syntax tree

The definitions of a syntax tree form a forest of their own: all other nodes are dissolved, and what
stands in a definition hangs below it. The outline of the tree is compared with that forest.

* `Node.nests`     the definitions of a tree, each with those that it is the nearest around;
* `Node.InPlace`   the definitions around a node stand where statements do;
* `Lowers`         a definition of an outline is the lowered form of a nest: it has the head of the
                   nest's node, and its body holds the lowered forms of the inner nests in order;
* `lowered`        where all is in place, definitions are lowered so.

The functions of a lowered forest are then its function nodes in document order
(`LowersAll.functions`, `Node.functionsAll_nests`).
-/

namespace AnnotationAudit
namespace Python

namespace Node

/-! ## parts of a node -/

mutual

theorem induction {P : Node → Prop} (step : ∀ n : Node, (∀ c ∈ n.parts, P c.2) → P n) :
    ∀ n : Node, P n
  | .mk _ _ _ _ _ _ cs => step _ (induction_parts step cs)

theorem induction_parts {P : Node → Prop} (step : ∀ n : Node, (∀ c ∈ n.parts, P c.2) → P n) :
    ∀ cs : List (Option Field × Node), ∀ c ∈ cs, P c.2
  | [], _, h => absurd h List.not_mem_nil
  | (_, n) :: cs, c, h => by
    rcases List.mem_cons.mp h with rfl | h
    · exact induction step n
    · exact induction_parts step cs c h

end

theorem preorderParts_eq (cs : List (Option Field × Node)) :
    preorderParts cs = cs.flatMap (·.2.preorder) := by
  induction cs with
  | nil => rfl
  | cons c cs ih => rw [List.flatMap_cons, ← ih]; rfl

theorem preorderParts_append (xs ys : List (Option Field × Node)) :
    preorderParts (xs ++ ys) = preorderParts xs ++ preorderParts ys := by
  rw [preorderParts_eq, preorderParts_eq, preorderParts_eq, List.flatMap_append]

theorem preorder_eq (n : Node) : n.preorder = n :: n.parts.flatMap (·.2.preorder) := by
  cases n
  rw [preorder, preorderParts_eq]
  rfl

theorem mem_preorder_self (n : Node) : n ∈ n.preorder := by
  rw [preorder_eq]
  exact List.mem_cons_self

theorem mem_preorder_of_mem_parts {n m : Node} {c : Option Field × Node} (hc : c ∈ n.parts)
    (hm : m ∈ c.2.preorder) : m ∈ n.preorder := by
  rw [preorder_eq]
  exact List.mem_cons_of_mem _ (List.mem_flatMap.mpr ⟨c, hc, hm⟩)

theorem mem_preorder_trans {n m k : Node} (hm : m ∈ n.preorder) (hk : k ∈ m.preorder) :
    k ∈ n.preorder := by
  induction n using Node.induction with
  | step n ih =>
    rw [preorder_eq, List.mem_cons, List.mem_flatMap] at hm
    rcases hm with rfl | ⟨c, hc, hm⟩
    · exact hk
    · exact mem_preorder_of_mem_parts hc (ih c hc hm)

theorem forall_mem_preorder {P : Node → Prop} {n : Node} :
    (∀ m ∈ n.preorder, P m) ↔ P n ∧ ∀ d ∈ n.parts, ∀ m ∈ d.2.preorder, P m := by
  simp only [preorder_eq n, List.forall_mem_cons, List.mem_flatMap, forall_exists_index, and_imp]
  exact and_congr_right fun _ => ⟨fun h d hd m => h m d hd, fun h m d hd => h d hd m⟩

def plays (f : Field) (c : Option Field × Node) : Bool := c.1 == some f

theorem child?_eq (n : Node) (f : Field) :
    n.child? f = (n.parts.find? (plays f)).map (·.2) := rfl

/-- a search among parts for the first that plays `f` finds the child that does -/
theorem search_parts {β : Type} {f : Field} {g : List (Option Field × Node) → List β}
    {h : Node → List β} (hnil : g [] = [])
    (hcons : ∀ c cs, g (c :: cs) = if plays f c then h c.2 else g cs) (n : Node) :
    g n.parts = ((n.child? f).map h).getD [] := by
  rw [child?_eq]
  induction n.parts with
  | nil => exact hnil
  | cons c cs ih =>
    rw [hcons]
    by_cases hc : plays f c = true
    · rw [List.find?_cons_of_pos hc, if_pos hc]
      rfl
    · rw [List.find?_cons_of_neg hc, if_neg hc, ih]

theorem mem_parts_of_child? {n d : Node} {f : Field} (h : n.child? f = some d) :
    ∃ c ∈ n.parts, c.2 = d := by
  obtain ⟨c, hc, rfl⟩ := Option.map_eq_some_iff.mp h
  exact ⟨c, List.mem_of_find?_eq_some hc, rfl⟩

/-! ## definitions in place -/

/-- is the node a `def` or `async def`? -/
def isFunction (n : Node) : Bool := n.kind == .functionDefinition

def isDefinition (n : Node) : Bool := n.kind == .functionDefinition || n.kind == .classDefinition

theorem isDefinition_iff {n : Node} :
    n.isDefinition = true ↔ n.kind = .functionDefinition ∨ n.kind = .classDefinition := by
  simp [isDefinition]

/-- no definition at the node or below it -/
def IsPlain (n : Node) : Prop := ∀ m ∈ n.preorder, m.isDefinition = false

/-- what the grammar promises of a node: definitions stand only where statements do, so that neither
punctuation nor a lambda holds one, a definition holds others in the block that is its body and in
no other of its parts, and below decorators there is a definition and none beside it -/
@[mk_iff]
structure InPlace (n : Node) : Prop where
  unnamed : n.named = false → n.IsPlain
  lambda : n.kind = .lambda → n.IsPlain
  body : n.isDefinition = true → ∀ b ∈ n.child? .body, b.kind = .block
  head : n.isDefinition = true → ∀ c ∈ n.parts.eraseP (plays .body), c.2.IsPlain
  decorated : n.kind = .decoratedDefinition → ∀ d ∈ n.child? .definition, d.isDefinition = true
  decorators : n.kind = .decoratedDefinition →
    ∀ c ∈ n.parts.eraseP (plays .definition), c.2.IsPlain

instance (n : Node) : Decidable n.IsPlain :=
  inferInstanceAs (Decidable (∀ m ∈ n.preorder, m.isDefinition = false))

instance (n : Node) : Decidable n.InPlace := decidable_of_iff' _ (inPlace_iff n)

end Node

/-! ## nests -/

/-- a definition of a syntax tree with those that it is the nearest around -/
inductive Nest where
  | mk (node : Node) (inner : List Nest)

namespace Node

mutual

/-- the outermost definitions at a node and below it, with what is in them -/
def nests : Node → List Nest
  | .mk k n a f b e cs =>
    if isDefinition (.mk k n a f b e cs) then [.mk (.mk k n a f b e cs) (nestsOf cs)]
    else nestsOf cs

/-- the outermost definitions among the parts of a node and below them -/
def nestsOf : List (Option Field × Node) → List Nest
  | [] => []
  | (_, c) :: cs => nests c ++ nestsOf cs

end

theorem nestsOf_eq (cs : List (Option Field × Node)) : nestsOf cs = cs.flatMap (·.2.nests) := by
  induction cs with
  | nil => rfl
  | cons c cs ih => rw [List.flatMap_cons, ← ih]; rfl

theorem nests_of_isDefinition {n : Node} (h : n.isDefinition = true) :
    n.nests = [.mk n (nestsOf n.parts)] := by
  cases n
  rw [nests, if_pos h]
  rfl

theorem nests_of_not_isDefinition {n : Node} (h : n.isDefinition = false) :
    n.nests = nestsOf n.parts := by
  cases n
  rw [nests, h]
  rfl

/-- a plain node has no nests -/
theorem IsPlain.nests_eq_nil {n : Node} (h : n.IsPlain) : n.nests = [] := by
  induction n using Node.induction with
  | step n ih =>
    rw [nests_of_not_isDefinition (h n n.mem_preorder_self), nestsOf_eq, List.flatMap_eq_nil_iff]
    intro c hc
    exact ih c hc fun m hm => h m (mem_preorder_of_mem_parts hc hm)

/-- what plain nodes do not have is all in the part that plays `f`, if the others are plain -/
theorem flatMap_of_rest_plain {β : Type} {g : Node → List β} (none : ∀ m, m.IsPlain → g m = [])
    {n : Node} {f : Field} (h : ∀ c ∈ n.parts.eraseP (plays f), c.2.IsPlain) :
    (n.parts.flatMap fun c => g c.2) = ((n.child? f).map g).getD [] := by
  rw [child?_eq]
  generalize n.parts = cs at h ⊢
  induction cs with
  | nil => rfl
  | cons c cs ih =>
    rw [List.flatMap_cons]
    by_cases hc : plays f c = true
    · rw [List.eraseP_cons_of_pos hc] at h
      rw [List.find?_cons_of_pos hc,
        List.flatMap_eq_nil_iff.mpr fun d hd => none d.2 (h d hd), List.append_nil]
      rfl
    · rw [List.eraseP_cons_of_neg hc] at h
      rw [List.find?_cons_of_neg hc, none c.2 (h c List.mem_cons_self), List.nil_append]
      exact ih fun d hd => h d (List.mem_cons_of_mem _ hd)

theorem nestsOf_of_rest_plain {n : Node} {f : Field}
    (h : ∀ c ∈ n.parts.eraseP (plays f), c.2.IsPlain) :
    nestsOf n.parts = ((n.child? f).map nests).getD [] := by
  rw [nestsOf_eq]
  exact flatMap_of_rest_plain (fun _ plain => plain.nests_eq_nil) h

end Node

/-! ## the functions of nests -/

namespace Nest

mutual

/-- the function nodes of a nest, each before those in its body -/
def functions : Nest → List Node
  | .mk n inner => (if n.isFunction then [n] else []) ++ functionsAll inner

def functionsAll : List Nest → List Node
  | [] => []
  | x :: xs => functions x ++ functionsAll xs

end

theorem functionsAll_append (xs ys : List Nest) :
    functionsAll (xs ++ ys) = functionsAll xs ++ functionsAll ys := by
  induction xs with
  | nil => rfl
  | cons x xs ih => rw [List.cons_append, functionsAll, functionsAll, ih, List.append_assoc]

end Nest

namespace Node

theorem functionsAll_nestsOf {cs : List (Option Field × Node)}
    (h : ∀ c ∈ cs, Nest.functionsAll c.2.nests = c.2.preorder.filter isFunction) :
    Nest.functionsAll (nestsOf cs) = (preorderParts cs).filter isFunction := by
  induction cs with
  | nil => rfl
  | cons c cs ih =>
    show Nest.functionsAll (c.2.nests ++ nestsOf cs) = (c.2.preorder ++ preorderParts cs).filter _
    rw [Nest.functionsAll_append, h c List.mem_cons_self,
      ih fun d hd => h d (List.mem_cons_of_mem _ hd), List.filter_append]

/-- the functions of a tree's nests are its function nodes in document order -/
theorem functionsAll_nests (n : Node) :
    Nest.functionsAll n.nests = n.preorder.filter isFunction := by
  induction n using Node.induction with
  | step n ih =>
    have below := functionsAll_nestsOf ih
    rw [preorder_eq, ← preorderParts_eq, List.filter_cons]
    by_cases hd : n.isDefinition = true
    · rw [nests_of_isDefinition hd, Nest.functionsAll, Nest.functions, Nest.functionsAll,
        List.append_nil, below]
      split <;> rfl
    · have hf : ¬ n.isFunction = true := fun h =>
        hd (isDefinition_iff.mpr (.inl (by simpa [isFunction] using h)))
      rw [nests_of_not_isDefinition (by simpa using hd), if_neg hf, below]

end Node

end Python

open Python

/-! ## lowered forms -/

mutual

/-- a definition is the lowered form of a nest in a scope: it has the head of the nest's node, and
its body holds the lowered forms of the inner nests -/
inductive Lowers (s : Source) : Scope → Nest → Definition → Prop where
  | function {scope : Scope} {n : Node} {inner : List Nest} {body : List Definition}
      (decorators : List Decorator) :
      n.kind = .functionDefinition → LowersAll s .inFunction inner body →
      Lowers s scope (.mk n inner) (.function (s.signature scope decorators n) body)
  | classDef {scope : Scope} {n : Node} {inner : List Nest} {body : List Definition} :
      n.kind = .classDefinition → LowersAll s .inClass inner body →
      Lowers s scope (.mk n inner) (.classDef (s.fieldText n .name) body)

/-- definitions are the lowered forms of nests, one by one and in order -/
inductive LowersAll (s : Source) : Scope → List Nest → List Definition → Prop where
  | nil {scope : Scope} : LowersAll s scope [] []
  | cons {scope : Scope} {x : Nest} {d : Definition} {xs : List Nest} {ds : List Definition} :
      Lowers s scope x d → LowersAll s scope xs ds → LowersAll s scope (x :: xs) (d :: ds)

end

namespace LowersAll

variable {s : Source} {scope : Scope}

theorem append {xs ys : List Nest} {ds es : List Definition} (h : LowersAll s scope xs ds)
    (h' : LowersAll s scope ys es) : LowersAll s scope (xs ++ ys) (ds ++ es) := by
  induction xs generalizing ds with
  | nil =>
    cases h
    exact h'
  | cons x xs ih =>
    cases h with
    | cons hx hxs => exact .cons hx (ih hxs)

end LowersAll

/-- the head of a function is the one of a function node, in some scope and below some decorators -/
def IsHeadOf (s : Source) (n : Node) (f : Signature) : Prop :=
  ∃ scope decorators, f = s.signature scope decorators n

mutual

/-- the functions of a lowered form have the heads of the nest's function nodes, in their order -/
theorem Lowers.functions {s : Source} : ∀ {scope : Scope} {x : Nest} {d : Definition},
    Lowers s scope x d → List.Forall₂ (IsHeadOf s) x.functions d.functions
  | _, _, _, .function ds hk hi => by
    rw [Nest.functions, Definition.functions, Node.isFunction, hk]
    exact .cons ⟨_, ds, rfl⟩ hi.functions
  | _, _, _, .classDef hk hi => by
    rw [Nest.functions, Definition.functions, Node.isFunction, hk]
    exact hi.functions

theorem LowersAll.functions {s : Source} : ∀ {scope : Scope} {xs : List Nest}
    {ds : List Definition}, LowersAll s scope xs ds →
      List.Forall₂ (IsHeadOf s) (Nest.functionsAll xs) (functionsOf ds)
  | _, _, _, .nil => .nil
  | _, _, _, .cons hx hxs => List.rel_append hx.functions hxs.functions

end

/-! ## lowering -/

namespace Source

theorem bodyOf_eq (s : Source) (scope : Scope) (n : Node) :
    s.bodyOf scope n.parts = ((n.child? .body).map (s.definitionsBelow scope)).getD [] :=
  Node.search_parts rfl (fun _ _ => rfl) n

theorem decorated_eq (s : Source) (scope : Scope) (decorators : List Decorator) (n : Node) :
    s.decorated scope decorators n.parts =
      ((n.child? .definition).map (s.decoratedAt scope decorators)).getD [] :=
  Node.search_parts rfl (fun _ _ => rfl) n

theorem definitionsBelow_eq (s : Source) (scope : Scope) (n : Node) :
    s.definitionsBelow scope n = s.definitions scope n.parts := by
  cases n
  rfl

theorem definitionsAt_of_unnamed (s : Source) (scope : Scope) {n : Node} (h : n.named = false) :
    s.definitionsAt scope n = [] := by
  cases n
  obtain rfl := h
  rfl

/-- at a definition no decorators are as good as an empty list of them -/
theorem definitionsAt_of_isDefinition (s : Source) (scope : Scope) {n : Node}
    (hn : n.named = true) (hd : n.isDefinition = true) :
    s.definitionsAt scope n = s.decoratedAt scope [] n := by
  have hk := Node.isDefinition_iff.mp hd
  cases n
  obtain rfl := hn
  rcases hk with rfl | rfl <;> rfl

theorem definitionsAt_of_decorated (s : Source) (scope : Scope) {n : Node}
    (hn : n.named = true) (hk : n.kind = .decoratedDefinition) :
    s.definitionsAt scope n = s.decorated scope (s.decorators n.parts) n.parts := by
  cases n
  obtain rfl := hn
  obtain rfl := hk
  rfl

/-- all other nodes are dissolved -/
theorem definitionsAt_of_other (s : Source) (scope : Scope) {n : Node} (hn : n.named = true)
    (hd : n.isDefinition = false) (hk : n.kind ≠ .decoratedDefinition) (hl : n.kind ≠ .lambda) :
    s.definitionsAt scope n = s.definitions scope n.parts := by
  cases n with
  | mk k _ _ _ _ _ _ =>
    obtain rfl := hn
    cases k <;> first | rfl | exact absurd rfl hk | exact absurd rfl hl | cases hd

/-- a node is lowered, as it is, from its parts, and below decorators if it is a definition -/
structure Lowered (s : Source) (n : Node) : Prop where
  node : ∀ scope, LowersAll s scope n.nests (s.definitionsAt scope n)
  parts : ∀ scope, LowersAll s scope (Node.nestsOf n.parts) (s.definitions scope n.parts)
  decorated : n.isDefinition = true →
    ∀ scope decorators, LowersAll s scope n.nests (s.decoratedAt scope decorators n)

theorem lowersAll_definitions {s : Source} {cs : List (Option Field × Node)}
    (h : ∀ c ∈ cs, s.Lowered c.2) (scope : Scope) :
    LowersAll s scope (Node.nestsOf cs) (s.definitions scope cs) := by
  induction cs with
  | nil => exact .nil
  | cons c cs ih =>
    exact ((h c List.mem_cons_self).node scope).append
      (ih fun d hd => h d (List.mem_cons_of_mem _ hd))

/-- a definition is lowered by its body: nothing else in it holds definitions -/
theorem lowersAll_bodyOf {s : Source} {n : Node} (here : n.InPlace)
    (below : ∀ c ∈ n.parts, s.Lowered c.2) (hd : n.isDefinition = true) (scope : Scope) :
    LowersAll s scope (Node.nestsOf n.parts) (s.bodyOf scope n.parts) := by
  rw [Node.nestsOf_of_rest_plain (here.head hd), bodyOf_eq]
  cases hb : n.child? .body with
  | none => exact .nil
  | some b =>
    obtain ⟨c, hc, rfl⟩ := Node.mem_parts_of_child? hb
    have hk : c.2.isDefinition = false := by rw [Node.isDefinition, here.body hd _ hb]; rfl
    show LowersAll s scope c.2.nests (s.definitionsBelow scope c.2)
    rw [Node.nests_of_not_isDefinition hk, definitionsBelow_eq]
    exact (below c hc).parts scope

theorem lowersAll_decoratedAt {s : Source} {n : Node} (here : n.InPlace)
    (below : ∀ c ∈ n.parts, s.Lowered c.2) (hd : n.isDefinition = true) (scope : Scope)
    (decorators : List Decorator) :
    LowersAll s scope n.nests (s.decoratedAt scope decorators n) := by
  have body := lowersAll_bodyOf here below hd
  rw [Node.nests_of_isDefinition hd]
  have hk := Node.isDefinition_iff.mp hd
  cases n
  rcases hk with rfl | rfl
  · exact .cons (.function decorators rfl (body .inFunction)) .nil
  · exact .cons (.classDef rfl (body .inClass)) .nil

/-- what stands below decorators is lowered, and nothing else in them holds definitions -/
theorem lowersAll_decorated {s : Source} {n : Node} (here : n.InPlace)
    (below : ∀ c ∈ n.parts, s.Lowered c.2) (hk : n.kind = .decoratedDefinition) (scope : Scope)
    (decorators : List Decorator) :
    LowersAll s scope (Node.nestsOf n.parts) (s.decorated scope decorators n.parts) := by
  rw [Node.nestsOf_of_rest_plain (here.decorators hk), decorated_eq]
  cases hd : n.child? .definition with
  | none => exact .nil
  | some d =>
    obtain ⟨c, hc, rfl⟩ := Node.mem_parts_of_child? hd
    exact (below c hc).decorated (here.decorated hk _ hd) scope decorators

theorem lowersAll_definitionsAt {s : Source} {n : Node} (here : n.InPlace)
    (below : ∀ c ∈ n.parts, s.Lowered c.2) (scope : Scope) :
    LowersAll s scope n.nests (s.definitionsAt scope n) := by
  by_cases hn : n.named = true
  · by_cases hd : n.isDefinition = true
    · rw [definitionsAt_of_isDefinition s scope hn hd]
      exact lowersAll_decoratedAt here below hd scope []
    · rw [Bool.not_eq_true] at hd
      by_cases hk : n.kind = .decoratedDefinition
      · rw [Node.nests_of_not_isDefinition hd, definitionsAt_of_decorated s scope hn hk]
        exact lowersAll_decorated here below hk scope _
      · by_cases hl : n.kind = .lambda
        · rw [(here.lambda hl).nests_eq_nil]
          cases n
          obtain rfl := hn
          obtain rfl := hl
          exact .nil
        · rw [Node.nests_of_not_isDefinition hd, definitionsAt_of_other s scope hn hd hk hl]
          exact lowersAll_definitions below scope
  · rw [Bool.not_eq_true] at hn
    rw [(here.unnamed hn).nests_eq_nil, definitionsAt_of_unnamed s scope hn]
    exact .nil

/-- **Where all is in place, definitions are lowered to the nests that they form.** -/
theorem lowered (s : Source) {n : Node} (h : ∀ m ∈ n.preorder, m.InPlace) : s.Lowered n := by
  induction n using Node.induction with
  | step n ih =>
    have here := h n n.mem_preorder_self
    have below : ∀ c ∈ n.parts, s.Lowered c.2 := fun c hc =>
      ih c hc fun m hm => h m (Node.mem_preorder_of_mem_parts hc hm)
    exact ⟨lowersAll_definitionsAt here below, lowersAll_definitions below,
      lowersAll_decoratedAt here below⟩

end Source

/-! ## outlines -/

namespace Outline

theorem eq_ofNode_of_check {path text : String} {root : Node} {o : Outline}
    (h : check path text root = .ok o) : o = ofNode path text root := by
  rw [check] at h
  split at h
  · exact nomatch h
  · exact (Except.ok.inj h).symm

/-- **Where all is in place, the outline of an accepted tree has the tree's functions and no
others**, in document order and with their names and lines, and each definition stands in the body
of the definition that is the nearest around it, or in the outline itself if there is none. -/
theorem check_keeps_functions {path text : String} {root : Node} {o : Outline}
    (module : root.kind = .module) (grammar : ∀ n ∈ root.preorder, n.InPlace)
    (accepted : check path text root = .ok o) :
    List.Forall₂
        (fun n f => f.name = ((n.child? .name).map (Node.text text)).getD "" ∧ f.line = n.row + 1)
        (root.preorder.filter Node.isFunction) o.functions ∧
      LowersAll (Source.ofNode text root) .module root.nests o.body := by
  obtain rfl := eq_ofNode_of_check accepted
  have hd : root.isDefinition = false := by rw [Node.isDefinition, module]; rfl
  have lowers : LowersAll (Source.ofNode text root) .module root.nests
      (ofNode path text root).body := by
    rw [Node.nests_of_not_isDefinition hd]
    exact (Source.lowered _ grammar).parts .module
  refine ⟨?_, lowers⟩
  rw [← Node.functionsAll_nests]
  refine lowers.functions.imp fun n f hf => ?_
  obtain ⟨scope, decorators, rfl⟩ := hf
  exact ⟨rfl, rfl⟩

end Outline

end AnnotationAudit
