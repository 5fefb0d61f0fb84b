import AnnotationAudit.Proofs.Acceptance

/-!
# What the grammar says of parameters

The check of a parameter list and its lowering both ask a parameter for its parts. Here is what the
grammar promises about these, rule by rule, and so for every node of a text that fits.

* `Rule.declares`        nothing is shown as a parameter, and only lists are called parameters;
* `Filled.find?_first`   a child that stands first is found by the part it plays;
* `Node.IsFormed`        the parts that nodes of parameters have;
* `Machine.Whole.isFormed`  all nodes of a whole tree that fits have them.
-/

namespace AnnotationAudit

open Python

theorem ParameterForm.isSplat_iff {t : Node} : isSplat t = true ↔
    t.kind = .listSplatPattern ∨ t.kind = .dictionarySplatPattern := by
  rw [isSplat, Bool.or_eq_true, beq_iff_eq, beq_iff_eq]

namespace Python

/-! ## the rules -/

def Kind.isParameter : Kind → Bool
  | .defaultParameter | .typedDefaultParameter | .typedParameter | .listSplatPattern
  | .dictionarySplatPattern => true
  | _ => false

/-- can a node of the kind be a tuple that is unpacked, or be called by one? -/
def Kind.mayUnpack : Kind → Bool
  | .tuplePattern | .defaultParameter => true
  | _ => false

namespace Rule

def isList : Rule → Bool
  | .nonterminal .parameters | .nonterminal .lambdaParameters => true
  | _ => false

/-- what may be shown, and where a part may be called parameters -/
def declares (head : Rule) : Check := fun r k f =>
  !k.any Kind.isParameter &&
    (f != some .parameters || (k == none && r.isList && head.isWhole none))

theorem declares_rules : (Nonterminal.all.all fun n =>
    (Rule.of n).every (Rule.unfolded (Rule.declares (.nonterminal n))) none none) = true := by
  decide +kernel

theorem declares_repeated : (Nonterminal.all.all fun n => (Rule.of n).repeated.all fun r =>
    (Rule.alt (.repeat1 r) r).every (Rule.unfolded (Rule.declares (.repeat1 r))) none none) =
      true := by
  decide +kernel

end Rule

namespace Production

variable {p : Production} {s : Step}

theorem declares_of_mem (hp : p ∈ productions) (hs : s ∈ p.steps) :
    ∃ r x, (Machine.symbolOf p.variableIndex).asRule? repetitions = some r ∧
      s.symbol.asRule? repetitions = some x ∧ r.declares x s.shown s.field = true :=
  passes_of_mem Rule.declares_rules Rule.declares_repeated hp hs

/-- nothing is shown as a parameter -/
theorem isParameter_shown (hp : p ∈ productions) (hs : s ∈ p.steps) {k : Kind}
    (hk : s.shown = some k) : k.isParameter = false := by
  obtain ⟨r, x, -, -, hc⟩ := declares_of_mem hp hs
  rw [Rule.declares, hk, Bool.and_eq_true] at hc
  exact Bool.not_eq_true' _ ▸ hc.1

theorem list_of_parameters (hp : p ∈ productions) (hs : s ∈ p.steps)
    (hf : s.field = some .parameters) :
    s.shown = none ∧
      (s.symbol = .nonterminal .parameters ∨ s.symbol = .nonterminal .lambdaParameters) ∧
      (Machine.symbolOf p.variableIndex).isVisible = true := by
  obtain ⟨r, x, hr, hx, hc⟩ := declares_of_mem hp hs
  rw [Rule.declares, hf, Bool.and_eq_true, bne_self_eq_false, Bool.false_or, Bool.and_eq_true,
    Bool.and_eq_true, beq_iff_eq] at hc
  obtain ⟨-, ⟨shown, list⟩, head⟩ := hc
  refine ⟨shown, ?_, ?_⟩
  · unfold Rule.isList at list
    split at list
    · exact .inl (Symbol.eq_of_asRule? hx)
    · exact .inr (Symbol.eq_of_asRule? hx)
    · cases list
  · have token := Machine.isToken_symbolOf p.variableIndex
    generalize Machine.symbolOf p.variableIndex = y at hr token
    cases r with
    | terminal t => rw [Symbol.eq_of_asRule? hr] at token; cases token
    | nonterminal n => rw [Symbol.eq_of_asRule? hr]; exact head
    | _ => cases head

end Production

theorem Field.isOuter_parameters : Field.IsOuter .parameters := by
  intro p hp hidden s hs hf
  obtain ⟨-, -, visible⟩ := Production.list_of_parameters hp hs hf
  cases hidden.symm.trans visible

/-! ## the productions of parameters -/

namespace Step

def kind (s : Step) : Kind := s.shown.getD s.symbol.kind

def names (s : Step) : Bool :=
  s.shows &&
    match s.shown with
    | some .notIn | some .isNot => false
    | some _ => true
    | none => s.symbol.isNamed

end Step

/-- does the first step play the part `f` with a node of one of the kinds? -/
def startsWith (f : Field) (kinds : Kind → Bool) (ss : List Step) : Bool :=
  ss.head?.any fun s => s.fills f && kinds s.kind

/-- do all steps make nodes, and none one that unpacks a tuple? -/
def binds (ss : List Step) : Bool := ss.all fun s => s.shows && !s.kind.mayUnpack

def isTarget (k : Kind) : Bool := k == .identifier || k == .tuplePattern

theorem startsWith_default (reps : List Rule) :
    (((Rule.of .defaultParameter).readings reps {} true).all fun x =>
      (inlineAll reps x.steps).all fun y => startsWith .name isTarget y.steps) = true := by
  cbv

theorem startsWith_typedDefault (reps : List Rule) :
    (((Rule.of .typedDefaultParameter).readings reps {} true).all fun x =>
      (inlineAll reps x.steps).all fun y =>
        startsWith .name (· == .identifier) y.steps) = true := by
  cbv

theorem binds_typed (reps : List Rule) :
    (((Rule.of .typedParameter).readings reps {} true).all fun x =>
      (inlineAll reps x.steps).all fun y => binds y.steps) = true := by
  cbv

theorem binds_splat {n : Nonterminal}
    (h : n = .listSplatPattern ∨ n = .dictionarySplatPattern) (reps : List Rule) :
    (((Rule.of n).readings reps {} true).all fun x =>
      (inlineAll reps x.steps).all fun y => binds y.steps && y.steps.any Step.names) = true := by
  rcases h with rfl | rfl <;> cbv

/-! ## the parts of a production's node -/

namespace Node

variable {s : Step} {t : Tree}

theorem kind_of_step (same : t.symbol = s.symbol) : (ofChild (some s) t).kind = s.kind := by
  rw [kind_ofChild, same]
  rfl

theorem named_of_step (same : t.symbol = s.symbol) (h : s.names = true) :
    (ofChild (some s) t).named = true := by
  rw [named_ofChild, same]
  exact (Bool.and_eq_true_iff.mp h).2

end Node

namespace Filled

variable {p : Production} {cs : List Tree} {f : Field}

/-- a part that is called by an outer field comes from a step that is -/
theorem step_of_part (h : Filled p cs) (outer : f.IsOuter) {d : Option Field × Node}
    (hd : d ∈ Node.collectAll p.steps none [] cs) (hf : d.1 = some f) :
    ∃ s ∈ p.steps, s.field = some f ∧
      ∃ t, t.symbol = s.symbol ∧ d ∈ Node.collect (some s) none [] t := by
  rw [Node.collectAll_eq] at hd
  obtain ⟨c, hc, hd⟩ := List.mem_flatMap.mp hd
  obtain ⟨hmem, ⟨hn, -⟩ | ⟨s, hs, hn, same⟩⟩ := Tree.mem_withSteps h.symbols hc
  · rw [hn] at hd
    exact absurd hf ((h.placed c.2 hmem).part outer none none nofun d hd)
  · rw [hn] at hd
    refine ⟨s, hs, ?_, c.2, same, hd⟩
    by_contra field
    refine (h.placed c.2 hmem).part outer (some s) none ?_ d hd hf
    rwa [Option.or_none]

theorem exists_part (h : Filled p cs) {s : Step} (hs : s ∈ p.steps) (shows : s.shows = true) :
    ∃ t, t.symbol = s.symbol ∧
      (s.field, Node.ofChild (some s) t) ∈ Node.collectAll p.steps none [] cs := by
  have order := Tree.filterMap_withSteps h.symbols
  rw [← order] at hs
  obtain ⟨c, hc, hn⟩ := List.mem_filterMap.mp hs
  obtain ⟨-, ⟨none, -⟩ | ⟨r, -, hr, same⟩⟩ := Tree.mem_withSteps h.symbols hc
  · cases none.symm.trans hn
  · obtain rfl := Option.some.inj (hr.symm.trans hn)
    refine ⟨c.2, same, ?_⟩
    rw [Node.collectAll_eq, List.mem_flatMap]
    refine ⟨c, hc, ?_⟩
    rw [hn, Node.collect_of_shows same shows]
    exact List.mem_singleton_self _

/-- if all steps make nodes, all parts are nodes of steps or extras, which are tokens -/
theorem part_cases (h : Filled p cs) (shows : ∀ s ∈ p.steps, s.shows = true)
    {d : Option Field × Node} (hd : d ∈ Node.collectAll p.steps none [] cs) :
    (∃ s ∈ p.steps, d.2.kind = s.kind) ∨
      ∃ x : Symbol, x.isToken = true ∧ d.2.kind = x.kind := by
  rw [Node.collectAll_eq] at hd
  obtain ⟨c, hc, hd⟩ := List.mem_flatMap.mp hd
  obtain ⟨hmem, ⟨hn, extra⟩ | ⟨s, hs, hn, same⟩⟩ := Tree.mem_withSteps h.symbols hc
  · have token := Symbol.isToken_of_isExtra (h.extras c.2 hmem extra)
    rw [hn] at hd
    rw [Node.eq_of_mem_collect ((h.placed c.2 hmem).token token) hd]
    exact .inr ⟨c.2.symbol, token, Node.kind_ofChild none c.2⟩
  · rw [hn, Node.collect_of_shows same (shows s hs)] at hd
    rw [List.mem_singleton.mp hd]
    exact .inl ⟨s, hs, Node.kind_of_step same⟩

/-- the node of the first step is found by the part that it plays: only extras stand before it -/
theorem find?_first (h : Filled p cs) {kinds : Kind → Bool}
    (first : startsWith f kinds p.steps = true) :
    ∃ n, (Node.collectAll p.steps none [] cs).find? (Node.plays f) = some (some f, n) ∧
      kinds n.kind = true := by
  obtain ⟨-, symbols, extras, placed⟩ := h
  generalize p.steps = ss at symbols first
  cases ss with
  | nil => cases first
  | cons s ss =>
    obtain ⟨fills, hk⟩ := Bool.and_eq_true_iff.mp first
    obtain ⟨field, shows⟩ := Bool.and_eq_true_iff.mp fills
    rw [beq_iff_eq] at field
    induction cs with
    | nil => cases symbols
    | cons t cs ih =>
      cases ht : t.extra with
      | true =>
        have token := Symbol.isToken_of_isExtra (extras t List.mem_cons_self ht)
        have nil := (placed t List.mem_cons_self).token token
        have passed : (Node.collect none none [] t).find? (Node.plays f) = none := by
          rw [List.find?_eq_none]
          intro d hd
          rw [Node.eq_of_mem_collect nil hd]
          exact Bool.false_ne_true
        rw [Tree.solid_cons, ht, if_pos rfl] at symbols
        rw [Node.collectAll_cons_extra ht, Node.collect_append, List.find?_append, passed,
          Option.none_or]
        exact ih (fun c hc => extras c (List.mem_cons_of_mem _ hc))
          (fun c hc => placed c (List.mem_cons_of_mem _ hc)) symbols
      | false =>
        rw [Tree.solid_cons, ht, if_neg Bool.false_ne_true] at symbols
        have same : t.symbol = s.symbol := (List.cons.inj symbols).1
        refine ⟨Node.ofChild (some s) t, ?_, by rwa [Node.kind_of_step same]⟩
        rw [Node.collectAll_cons_solid ht, Node.collect_append, List.head?_cons,
          Node.collect_of_shows same shows, field]
        exact List.find?_cons_of_pos (beq_self_eq_true _)

end Filled

/-! ## all nodes -/

theorem Nonterminal.eq_of_kind {m n : Nonterminal} (hn : n.kind.isParameter = true)
    (h : m.kind = n.kind) : m = n := by
  cases n <;> first | (cases hn; done) | (cases m <;> first | rfl | cases h)

theorem Symbol.eq_of_kind {x : Symbol} {n : Nonterminal} (hn : n.kind.isParameter = true)
    (h : x.kind = n.kind) : x = .nonterminal n := by
  cases x with
  | nonterminal m => exact congrArg _ (Nonterminal.eq_of_kind hn h)
  | terminal t =>
    have other : t.kind.isParameter = false := by
      unfold Terminal.kind
      split <;> rfl
    rw [← h] at hn
    cases hn.symm.trans other
  | _ => rw [← h] at hn; cases hn

theorem Symbol.mayUnpack_of_isToken {x : Symbol} (h : x.isToken = true) :
    x.kind.mayUnpack = false := by
  cases x with
  | terminal t =>
    show t.kind.mayUnpack = false
    unfold Terminal.kind
    split <;> rfl
  | error => rfl
  | _ => cases h

namespace Node

/-- what is called parameters is a list of them, and a parameter has the parts it is asked for -/
structure IsFormed (n : Node) : Prop where
  list : ∀ l ∈ n.child? .parameters, isParameterList l.kind = true
  default : n.kind = .defaultParameter → ∃ m ∈ n.child? .name, isTarget m.kind = true
  typedDefault : n.kind = .typedDefaultParameter → ∃ m ∈ n.child? .name, m.kind = .identifier
  typed : n.kind = .typedParameter → ∀ m ∈ n.children, m.kind.mayUnpack = false
  splat : ParameterForm.isSplat n = true →
    n.namedChildren ≠ [] ∧ ∀ m ∈ n.children, m.kind.mayUnpack = false

variable {t : Tree} {step : Option Step}

/-- nothing is shown as a parameter, so the node of a parameter has the kind of its symbol -/
theorem symbol_of_kind (hs : t.StandsFor step) {n : Nonterminal} (hn : n.kind.isParameter = true)
    (hk : (ofChild step t).kind = n.kind) : t.symbol = .nonterminal n := by
  rcases hs.kind_cases hk with kind | ⟨p, hp, s, mem, -, shown⟩
  · exact Symbol.eq_of_kind hn kind
  · cases hn.symm.trans (Production.isParameter_shown hp mem shown)

theorem filled_of_kind (ht : t.Formed productions) (cost : t.cost = 0) (hs : t.StandsFor step)
    {n : Nonterminal} (hn : n.kind.isParameter = true) (hk : (ofChild step t).kind = n.kind) :
    ∃ p, Machine.symbolOf p.variableIndex = .nonterminal n ∧ Filled p t.children ∧
      (ofChild step t).parts = collectAll p.steps none [] t.children := by
  have same := symbol_of_kind hs hn hk
  rcases ht.filled cost with ⟨token, -⟩ | ⟨p, symbol, filled, parts⟩
  · rw [same] at token
    cases token
  · exact ⟨p, symbol.trans same, filled, parts step⟩

theorem isParameterList_of_child (ht : t.Formed productions) (cost : t.cost = 0) :
    ∀ l ∈ (ofChild step t).child? .parameters, isParameterList l.kind = true := by
  intro l hl
  obtain ⟨d, hd, rfl⟩ := Option.map_eq_some_iff.mp hl
  have plays : plays .parameters d = true := List.find?_some hd
  have mem := List.mem_of_find?_eq_some hd
  rcases ht.filled cost with ⟨-, nil⟩ | ⟨p, -, filled, parts⟩
  · rw [parts_eq_nil step nil] at mem
    exact absurd mem List.not_mem_nil
  · rw [parts step] at mem
    obtain ⟨s, hs, hf, u, same, hd⟩ :=
      filled.step_of_part Field.isOuter_parameters mem (beq_iff_eq.mp plays)
    obtain ⟨shown, list, -⟩ := Production.list_of_parameters filled.mem hs hf
    have shows : s.shows = true := by
      rw [Step.shows, shown]
      rcases list with h | h <;> rw [h] <;> rfl
    rw [collect_of_shows same shows] at hd
    rw [List.mem_singleton.mp hd, kind_of_step same, Step.kind, shown]
    rcases list with h | h <;> rw [h] <;> rfl

/-- the name of a parameter with a default stands first -/
theorem name_of_startsWith (ht : t.Formed productions) (cost : t.cost = 0) (hs : t.StandsFor step)
    {n : Nonterminal} (hn : n.kind.isParameter = true) {kinds : Kind → Bool}
    (first : (((Rule.of n).readings repetitions {} true).all fun x =>
      (inlineAll repetitions x.steps).all fun y => startsWith .name kinds y.steps) = true)
    (hk : (ofChild step t).kind = n.kind) :
    ∃ m ∈ (ofChild step t).child? .name, kinds m.kind = true := by
  obtain ⟨p, symbol, filled, parts⟩ := filled_of_kind ht cost hs hn hk
  obtain ⟨m, found, hm⟩ := filled.find?_first (Production.of_readings filled.mem symbol first)
  refine ⟨m, ?_, hm⟩
  rw [child?_eq, parts, found]
  rfl

theorem mayUnpack_of_binds {p : Production} (filled : Filled p t.children)
    (parts : (ofChild step t).parts = collectAll p.steps none [] t.children)
    (h : binds p.steps = true) : ∀ m ∈ (ofChild step t).children, m.kind.mayUnpack = false := by
  have steps : ∀ s ∈ p.steps, s.shows = true ∧ s.kind.mayUnpack = false := fun s hs => by
    simpa using List.all_eq_true.mp h s hs
  intro m hm
  obtain ⟨d, hd, rfl⟩ := List.mem_map.mp hm
  rw [parts] at hd
  rcases filled.part_cases (fun s hs => (steps s hs).1) hd with ⟨s, hs, hk⟩ | ⟨x, hx, hk⟩
  · rw [hk]
    exact (steps s hs).2
  · rw [hk]
    exact Symbol.mayUnpack_of_isToken hx

theorem isFormed_ofChild (ht : t.Formed productions) (cost : t.cost = 0) (hs : t.StandsFor step) :
    (ofChild step t).IsFormed where
  list := isParameterList_of_child ht cost
  default hk := name_of_startsWith ht cost hs rfl (startsWith_default repetitions) hk
  typedDefault hk := by
    obtain ⟨m, hm, identifier⟩ :=
      name_of_startsWith ht cost hs rfl (startsWith_typedDefault repetitions) hk
    exact ⟨m, hm, beq_iff_eq.mp identifier⟩
  typed hk := by
    obtain ⟨p, symbol, filled, parts⟩ := filled_of_kind ht cost hs (n := .typedParameter) rfl hk
    exact mayUnpack_of_binds filled parts
      (Production.of_readings filled.mem symbol (binds_typed repetitions))
  splat h := by
    obtain ⟨n, splat, hn, hk⟩ : ∃ n : Nonterminal,
        (n = .listSplatPattern ∨ n = .dictionarySplatPattern) ∧ n.kind.isParameter = true ∧
          (ofChild step t).kind = n.kind := by
      rcases ParameterForm.isSplat_iff.mp h with hk | hk
      · exact ⟨.listSplatPattern, .inl rfl, rfl, hk⟩
      · exact ⟨.dictionarySplatPattern, .inr rfl, rfl, hk⟩
    obtain ⟨p, symbol, filled, parts⟩ := filled_of_kind ht cost hs hn hk
    have steps := Production.of_readings (q := fun ss => binds ss && ss.any Step.names) filled.mem
      symbol (binds_splat splat repetitions)
    obtain ⟨all, some⟩ := Bool.and_eq_true_iff.mp steps
    refine ⟨?_, mayUnpack_of_binds filled parts all⟩
    obtain ⟨s, hmem, names⟩ := List.any_eq_true.mp some
    obtain ⟨u, same, hu⟩ := filled.exists_part hmem (Bool.and_eq_true_iff.mp names).1
    rw [← parts] at hu
    exact List.ne_nil_of_mem (List.mem_filter.mpr
      ⟨List.mem_map_of_mem hu, named_of_step same names⟩)

end Node

/-- **All nodes of a whole tree that fits have the parts that parameters are asked for.** -/
theorem Machine.Whole.isFormed {t : Tree} (whole : Machine.Whole productions t) (fits : t.Fits) :
    ∀ n ∈ (Node.ofTree t).preorder, n.IsFormed :=
  whole.forall_mem_preorder (fun _ _ ht cost hs _ => Node.isFormed_ofChild ht cost hs) fits

end Python
end AnnotationAudit
