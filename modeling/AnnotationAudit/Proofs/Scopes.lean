import AnnotationAudit.Proofs.Placement

/-!
# Where functions stand

The scope of a function is handed down while a syntax tree is lowered. Here it is compared with what
stands around the function in the tree: of all that, only the nearest definition matters.

* `Node.sites`         the nodes of a tree in document order, each with the nodes around it;
* `Scope.IsToldBy`     the scope that the nodes around a definition give it;
* `Nest.sites`         the function nodes of a nest, each with the definitions around it;
* `AllScoped`          in an outline, what stands in a body has the scope of that body;
* `Outline.parse_scopes`  all functions of an accepted text have the scopes that they should.
-/

namespace AnnotationAudit
namespace Python

namespace Node

/-! ## sites -/

mutual

/-- the node and all nodes below it, in document order, each with the nodes around it, the nearest
first -/
def sites (around : List Node) : Node → List (List Node × Node)
  | .mk k n a f s e cs =>
    (around, .mk k n a f s e cs) :: sitesOf (.mk k n a f s e cs :: around) cs

def sitesOf (around : List Node) : List (Option Field × Node) → List (List Node × Node)
  | [] => []
  | (_, c) :: cs => sites around c ++ sitesOf around cs

end

theorem sitesOf_eq (around : List Node) (cs : List (Option Field × Node)) :
    sitesOf around cs = cs.flatMap fun c => c.2.sites around := by
  induction cs with
  | nil => rfl
  | cons c cs ih => rw [List.flatMap_cons, ← ih]; rfl

theorem sites_eq (around : List Node) (n : Node) :
    n.sites around = (around, n) :: n.parts.flatMap fun c => c.2.sites (n :: around) := by
  cases n
  rw [sites, sitesOf_eq]
  rfl

/-- without what is around them, the sites are the nodes -/
theorem map_sites (around : List Node) (n : Node) : (n.sites around).map (·.2) = n.preorder := by
  induction n using Node.induction generalizing around with
  | step n ih =>
    rw [sites_eq, preorder_eq, List.map_cons, List.map_flatMap]
    exact congrArg (n :: ·) (List.flatMap_congr fun c hc => ih c hc (n :: around))

end Node

/-! ## the functions of nests with the definitions around them -/

namespace Nest

mutual

/-- the function nodes of a nest, each with the definitions around it, the nearest first -/
def sites (around : List Node) : Nest → List (List Node × Node)
  | .mk n inner => (if n.isFunction then [(around, n)] else []) ++ sitesAll (n :: around) inner

def sitesAll (around : List Node) : List Nest → List (List Node × Node)
  | [] => []
  | x :: xs => sites around x ++ sitesAll around xs

end

theorem sitesAll_append (around : List Node) (xs ys : List Nest) :
    sitesAll around (xs ++ ys) = sitesAll around xs ++ sitesAll around ys := by
  induction xs with
  | nil => rfl
  | cons x xs ih => rw [List.cons_append, sitesAll, sitesAll, ih, List.append_assoc]

end Nest

namespace Node

/-- the sites of functions, with only the definitions among the nodes around them -/
def functionSites (around : List Node) (n : Node) : List (List Node × Node) :=
  ((n.sites around).filter (·.2.isFunction)).map fun x => (x.1.filter isDefinition, x.2)

theorem functionSites_eq (around : List Node) (n : Node) :
    n.functionSites around =
      (if n.isFunction then [(around.filter isDefinition, n)] else []) ++
        n.parts.flatMap fun c => c.2.functionSites (n :: around) := by
  rw [functionSites, sites_eq, List.filter_cons, List.filter_flatMap]
  split
  · rw [List.map_cons, List.map_flatMap]
    rfl
  · rw [List.map_flatMap]
    rfl

theorem sitesAll_nestsOf {around : List Node} {cs : List (Option Field × Node)}
    (h : ∀ c ∈ cs, Nest.sitesAll (around.filter isDefinition) c.2.nests =
      c.2.functionSites around) :
    Nest.sitesAll (around.filter isDefinition) (nestsOf cs) =
      cs.flatMap fun c => c.2.functionSites around := by
  induction cs with
  | nil => rfl
  | cons c cs ih =>
    show Nest.sitesAll _ (c.2.nests ++ nestsOf cs) = _
    rw [Nest.sitesAll_append, h c List.mem_cons_self,
      ih fun d hd => h d (List.mem_cons_of_mem _ hd), List.flatMap_cons]

/-- the functions of a tree's nests stand where they do in the tree, if nothing but definitions is
looked at -/
theorem sitesAll_nests (around : List Node) (n : Node) :
    Nest.sitesAll (around.filter isDefinition) n.nests = n.functionSites around := by
  induction n using Node.induction generalizing around with
  | step n ih =>
    have below := sitesAll_nestsOf fun c hc => ih c hc (n :: around)
    rw [functionSites_eq, ← below]
    by_cases hd : n.isDefinition = true
    · rw [nests_of_isDefinition hd, Nest.sitesAll, Nest.sites, Nest.sitesAll, List.append_nil,
        List.filter_cons_of_pos hd]
    · have hf : ¬ n.isFunction = true := fun h =>
        hd (isDefinition_iff.mpr (.inl (by simpa [isFunction] using h)))
      rw [nests_of_not_isDefinition (by simpa using hd), if_neg hf, List.nil_append,
        List.filter_cons_of_neg hd]

end Node

end Python

open Python

/-! ## scopes -/

/-- a scope is the one that the nodes around a definition tell, the nearest first: of these only the
first definition counts -/
structure Scope.IsToldBy (around : List Node) (scope : Scope) : Prop where
  inClass : scope = .inClass ↔ ∃ d ∈ around.find? Node.isDefinition, d.kind = .classDefinition
  inFunction :
    scope = .inFunction ↔ ∃ d ∈ around.find? Node.isDefinition, d.kind = .functionDefinition
  module : scope = .module ↔ ∀ d ∈ around, d.isDefinition = false

namespace Scope.IsToldBy

variable {around : List Node} {scope : Scope}

theorem nil : Scope.IsToldBy [] .module where
  inClass := ⟨nofun, nofun⟩
  inFunction := ⟨nofun, nofun⟩
  module := ⟨fun _ => nofun, fun _ => rfl⟩

theorem cons_function {n : Node} (hk : n.kind = .functionDefinition) :
    Scope.IsToldBy (n :: around) .inFunction := by
  have hd : n.isDefinition = true := Node.isDefinition_iff.mpr (.inl hk)
  have first : (n :: around).find? Node.isDefinition = some n := List.find?_cons_of_pos hd
  refine ⟨⟨nofun, ?_⟩, ⟨fun _ => ⟨n, first, hk⟩, fun _ => rfl⟩, ⟨nofun, fun h => ?_⟩⟩
  · rintro ⟨d, found, hc⟩
    obtain rfl := Option.some.inj (first.symm.trans found)
    cases hk.symm.trans hc
  · cases hd.symm.trans (h n List.mem_cons_self)

theorem cons_class {n : Node} (hk : n.kind = .classDefinition) :
    Scope.IsToldBy (n :: around) .inClass := by
  have hd : n.isDefinition = true := Node.isDefinition_iff.mpr (.inr hk)
  have first : (n :: around).find? Node.isDefinition = some n := List.find?_cons_of_pos hd
  refine ⟨⟨fun _ => ⟨n, first, hk⟩, fun _ => rfl⟩, ⟨nofun, ?_⟩, ⟨nofun, fun h => ?_⟩⟩
  · rintro ⟨d, found, hf⟩
    obtain rfl := Option.some.inj (first.symm.trans found)
    cases hk.symm.trans hf
  · cases hd.symm.trans (h n List.mem_cons_self)

/-- all that is no definition may lie between -/
theorem of_filter (h : scope.IsToldBy (around.filter Node.isDefinition)) :
    scope.IsToldBy around := by
  have first : (around.filter Node.isDefinition).find? Node.isDefinition =
      around.find? Node.isDefinition := by
    rw [← List.head?_filter, ← List.head?_filter, List.filter_filter]
    simp only [Bool.and_self]
  obtain ⟨inClass, inFunction, module⟩ := h
  rw [first] at inClass inFunction
  refine ⟨inClass, inFunction, module.trans ⟨fun h d hd => ?_, fun h d hd => ?_⟩⟩
  · by_contra isDefinition
    rw [Bool.not_eq_false] at isDefinition
    cases isDefinition.symm.trans (h d (List.mem_filter.mpr ⟨hd, isDefinition⟩))
  · exact h d (List.mem_of_mem_filter hd)

end Scope.IsToldBy

mutual

/-- the functions of a lowered form have the scopes that the definitions around them tell -/
theorem Lowers.sites {s : Source} : ∀ {scope : Scope} {around : List Node} {x : Nest}
    {d : Definition}, scope.IsToldBy around → Lowers s scope x d →
      List.Forall₂ (fun x f => IsHeadOf s x.2 f ∧ f.scope.IsToldBy x.1) (x.sites around) d.functions
  | _, _, _, _, told, .function ds hk hi => by
    rw [Nest.sites, Definition.functions, Node.isFunction, hk]
    exact .cons ⟨⟨_, ds, rfl⟩, told⟩ (hi.sites (.cons_function hk))
  | _, _, _, _, _, .classDef hk hi => by
    rw [Nest.sites, Definition.functions, Node.isFunction, hk]
    exact hi.sites (.cons_class hk)

theorem LowersAll.sites {s : Source} : ∀ {scope : Scope} {around : List Node} {xs : List Nest}
    {ds : List Definition}, scope.IsToldBy around → LowersAll s scope xs ds →
      List.Forall₂ (fun x f => IsHeadOf s x.2 f ∧ f.scope.IsToldBy x.1)
        (Nest.sitesAll around xs) (functionsOf ds)
  | _, _, _, _, _, .nil => .nil
  | _, _, _, _, told, .cons hx hxs => List.rel_append (hx.sites told) (hxs.sites told)

end

/-! ## scopes in an outline -/

mutual

/-- a function has the scope, and what stands in the body of a function or class has the scope of
that body -/
def Definition.IsScoped (scope : Scope) : Definition → Prop
  | .function head body => head.scope = scope ∧ AllScoped .inFunction body
  | .classDef _ body => AllScoped .inClass body

def AllScoped (scope : Scope) : List Definition → Prop
  | [] => True
  | d :: ds => d.IsScoped scope ∧ AllScoped scope ds

end

mutual

theorem Lowers.isScoped {s : Source} : ∀ {scope : Scope} {x : Nest} {d : Definition},
    Lowers s scope x d → d.IsScoped scope
  | _, _, _, .function _ _ hi => ⟨rfl, hi.allScoped⟩
  | _, _, _, .classDef _ hi => hi.allScoped

theorem LowersAll.allScoped {s : Source} : ∀ {scope : Scope} {xs : List Nest}
    {ds : List Definition}, LowersAll s scope xs ds → AllScoped scope ds
  | _, _, _, .nil => trivial
  | _, _, _, .cons hx hxs => ⟨hx.isScoped, hxs.allScoped⟩

end

namespace Outline

/-- **The scope of a function is that of the nearest definition around it** in the syntax tree of an
accepted text, whatever statements lie between, and in the outline it is that of the body that it
stands in. -/
theorem parse_scopes (path text : String) :
    let root := Node.ofTree (Python.parse text.toList)
    (∃ n, refusal text root = some n ∧ parse path text = .error (.at_ n)) ∨
      ∃ o, parse path text = .ok o ∧
        List.Forall₂
          (fun x f => IsHeadOf (Source.ofNode text root) x.2 f ∧ f.scope.IsToldBy x.1)
          ((root.sites []).filter (·.2.isFunction)) o.functions ∧
        AllScoped .module o.body := by
  intro root
  refine (parse_cases path text).imp_right fun ⟨o, ho, _, lowers⟩ => ⟨o, ho, ?_, lowers.allScoped⟩
  have told : List.Forall₂ _ (Nest.sitesAll [] root.nests) o.functions := lowers.sites .nil
  rw [show ([] : List Node) = [].filter Node.isDefinition from rfl, Node.sitesAll_nests,
    Node.functionSites, List.forall₂_map_left_iff] at told
  exact told.imp fun x f h => ⟨h.1, h.2.of_filter⟩

end Outline

end AnnotationAudit
