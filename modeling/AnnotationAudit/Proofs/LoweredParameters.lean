import AnnotationAudit.Proofs.DocumentOrder
import AnnotationAudit.Proofs.Parameters
import Mathlib.Data.List.Infix

/-!
# What a parameter list is lowered to

The grammar has nothing in a parameter list but parameters, lone stars and slashes, and what may
stand anywhere. So the list is lowered to one parameter for each child that declares one, and what
the parameter is can be told from that child and from those before it.

* `Rule.lists`           what stands in parameter lists, rule by rule;
* `Node.IsLowerable`     the children that lists and parameters with types have;
* `Node.lowerable_ofChild`  all nodes of a text that fits have them;
* `Parameter.Describes`  a parameter is what a child declares behind others;
* `Source.describes_parameters`  a list is lowered to what its children declare;
* `Outline.parse_lowers_parameters`  so it is in every accepted text.
-/

namespace AnnotationAudit
namespace Python

/-! ## lists in the grammar -/

/-- is it a kind of parameter? -/
def Kind.declares : Kind → Bool
  | .identifier | .tuplePattern => true
  | k => k.isParameter

/-- is it a kind of node in parameter lists that declares nothing: a lone star or slash, or what may
stand anywhere? -/
def Kind.isPassedBy : Kind → Bool
  | .keywordSeparator | .positionalSeparator | .comment | .lineContinuation => true
  | _ => false

theorem Kind.isPassedBy_of_declares {k : Kind} (h : k.declares = true) : k.isPassedBy = false := by
  cases k <;> first | rfl | cases h

namespace Rule

/-- is the rule part of a list of parameters, without a node of its own? -/
def isInList : Rule → Bool
  | .nonterminal .parameterList | .nonterminal .parameter => true
  | .repeat1 r => r == .seq (tok .comma) (nt .parameter)
  | _ => false

/-- does the rule make a node that may stand in a list of parameters, or one without a name? -/
def isListed : Rule → Bool
  | .terminal t => t == .identifier || !t.isNamed
  | .nonterminal n => !n.isHidden && (n.kind.declares || n.kind.isPassedBy)
  | _ => false

/-- what stands in lists of parameters, and that nothing is shown as one -/
def lists (head : Rule) : Check := fun r k _ =>
  !k.any isParameterList &&
    (!(head.isList || head.isInList) || (k == none && (r.isInList || r.isListed)))

theorem lists_rules : (Nonterminal.all.all fun n =>
    (Rule.of n).every (Rule.unfolded (Rule.lists (.nonterminal n))) none none) = true := by
  decide +kernel

theorem lists_repeated : (Nonterminal.all.all fun n => (Rule.of n).repeated.all fun r =>
    (Rule.alt (.repeat1 r) r).every (Rule.unfolded (Rule.lists (.repeat1 r))) none none) =
      true := by
  decide +kernel

end Rule

/-! ## the children of lists -/

theorem Production.lists_of_mem {p : Production} {s : Step} (hp : p ∈ productions)
    (hs : s ∈ p.steps) :
    ∃ r x, (Machine.symbolOf p.variableIndex).asRule? repetitions = some r ∧
      s.symbol.asRule? repetitions = some x ∧ r.lists x s.shown s.field = true :=
  passes_of_mem Rule.lists_rules Rule.lists_repeated hp hs

namespace Node

/-- a node that may stand in a list of parameters -/
def IsListed (n : Node) : Prop :=
  n.named = true → n.kind.declares = true ∨ n.kind.isPassedBy = true

theorem isListed_of_isExtra {t : Tree} (ht : t.Formed productions) (cost : t.cost = 0)
    (extra : t.symbol.isExtra = true) (part : Option Field) :
    ∀ d ∈ collect none part [] t, d.2.IsListed := by
  intro d hd
  have token := Symbol.isToken_of_isExtra extra
  rw [eq_of_mem_collect ((ht.placed cost).token token) hd]
  intro named
  rw [named_ofChild] at named
  rw [kind_ofChild]
  have named : t.symbol.isNamed = true := named
  have sound := (Bool.or_eq_false_iff.mp (ht.isFault_eq_false cost)).1
  show t.symbol.kind.declares = true ∨ t.symbol.kind.isPassedBy = true
  cases symbol : t.symbol with
  | terminal x =>
    rw [symbol] at extra named
    rcases Bool.or_eq_true_iff.mp extra with h | h
    · cases x <;> first | exact .inr rfl | cases h
    · rw [beq_iff_eq] at h
      rw [h] at named
      cases named
  | error =>
    rw [Tree.isError, symbol] at sound
    cases sound
  | _ => rw [symbol] at extra; cases extra

/-- a step that makes nodes of lists makes a node of its symbol's kind -/
theorem isListed_of_step {t : Tree} (ht : t.Formed productions) (cost : t.cost = 0) {s : Step}
    (same : t.symbol = s.symbol) (shown : s.shown = none) {x : Rule}
    (hx : s.symbol.asRule? repetitions = some x) (listed : x.isListed = true)
    (part : Option Field) : ∀ d ∈ collect (some s) part [] t, d.2.IsListed := by
  intro d hd
  have made : d.2 = ofChild (some s) t := by
    cases x with
    | terminal y =>
      have symbol : t.symbol = .terminal y := same.trans (Symbol.eq_of_asRule? hx)
      have nil := (ht.placed cost).token (by rw [symbol]; rfl)
      rw [eq_of_mem_collect nil hd]
    | nonterminal n =>
      have symbol : s.symbol = .nonterminal n := Symbol.eq_of_asRule? hx
      have visible : Tree.isShown (some s, t) = true := by
        rw [isShown_of_symbol same, Step.shows, shown, symbol]
        exact (Bool.and_eq_true_iff.mp listed).1
      rw [collect_of_isShown visible] at hd
      rw [List.mem_singleton.mp hd]
    | _ => cases listed
  rw [made]
  intro named
  rw [kind_of_step same, Step.kind, shown]
  rw [named_ofChild, same] at named
  cases x with
  | terminal y =>
    have symbol : s.symbol = .terminal y := Symbol.eq_of_asRule? hx
    have named : s.symbol.isNamed = true := by simpa [shown] using named
    rw [symbol] at named ⊢
    rcases Bool.or_eq_true_iff.mp listed with h | h
    · rw [beq_iff_eq.mp h]
      exact .inl rfl
    · rw [show y.isNamed = true from named] at h
      cases h
  | nonterminal n =>
    have symbol : s.symbol = .nonterminal n := Symbol.eq_of_asRule? hx
    rw [symbol]
    exact Bool.or_eq_true_iff.mp (Bool.and_eq_true_iff.mp listed).2
  | _ => cases listed

end Node

theorem Symbol.isVisible_of_isInList {x : Symbol} {r : Rule} (hr : x.asRule? repetitions = some r)
    (inList : r.isInList = true) : x.isVisible = false := by
  have symbol := Symbol.eq_of_asRule? hr
  unfold Rule.isInList at inList
  split at inList
  · rw [show x = .nonterminal .parameterList from symbol]
    rfl
  · rw [show x = .nonterminal .parameter from symbol]
    rfl
  · obtain ⟨k, hk⟩ : ∃ k, x = .repetition k := symbol
    rw [hk]
    rfl
  · cases inList

theorem Symbol.list_of_kind {x : Symbol} (h : isParameterList x.kind = true) :
    x = .nonterminal .parameters ∨ x = .nonterminal .lambdaParameters := by
  cases x with
  | nonterminal n => cases n <;> first | exact .inl rfl | exact .inr rfl | cases h
  | terminal t => cases t <;> cases h
  | _ => cases h

/-- **In a list of parameters stand parameters, separators and what may stand anywhere.** -/
theorem Tree.Formed.isListed {t : Tree} (ht : t.Formed productions) (cost : t.cost = 0) {r : Rule}
    (hr : t.symbol.asRule? repetitions = some r) (list : (r.isList || r.isInList) = true) :
    ∀ part, ∀ d ∈ Node.collectAll t.info.steps part [] t.children, d.2.IsListed := by
  induction ht generalizing r with
  | token => exact fun _ d hd => absurd hd List.not_mem_nil
  | broken _ pos => exact absurd cost (Nat.pos_iff_ne_zero.mp pos)
  | @branch i cs p mem symbol marks symbols children extras present costs free ih =>
    intro part d hd
    have fits := Filled.cost_eq_zero mem symbols extras costs cost
    have hd : d ∈ Node.collectAll p.steps part [] cs := Node.collectAll_congr marks ▸ hd
    obtain ⟨c, hc, q, -, hd⟩ := Node.mem_collectAll hd
    obtain ⟨hmem, ⟨none, extra⟩ | ⟨s, hs, some, same⟩⟩ := Tree.mem_withSteps symbols hc
    · rw [none] at hd
      exact Node.isListed_of_isExtra (children c.2 hmem) (fits c.2 hmem) (extras c.2 hmem extra) q
        d hd
    · obtain ⟨r', x, hr', hx, lists⟩ := Production.lists_of_mem mem hs
      obtain rfl : r = r' := by
        have hr : i.symbol.asRule? repetitions = _ := hr
        exact Option.some.inj (hr.symm.trans (symbol ▸ hr'))
      rw [Rule.lists, list, Bool.not_true, Bool.false_or, Bool.and_eq_true, Bool.and_eq_true,
        Bool.or_eq_true, beq_iff_eq] at lists
      obtain ⟨-, shown, inList | listed⟩ := lists
      · have hidden : Tree.isShown (c.1, c.2) = false := by
          rw [some, Node.isShown_of_symbol same, Step.shows, shown]
          exact Symbol.isVisible_of_isInList hx inList
        rw [Node.collect_of_hidden hidden] at hd
        exact ih c.2 hmem (fits c.2 hmem) (same ▸ hx) (Bool.or_eq_true_iff.mpr (.inr inList)) _ d hd
      · rw [some] at hd
        exact Node.isListed_of_step (children c.2 hmem) (fits c.2 hmem) same shown hx listed q d hd

/-! ## parameters with types -/

def Kind.isTyped (k : Kind) : Bool := k == .typedParameter || k == .typedDefaultParameter

/-- is it what a type can be given to: a name, with stars or without? -/
def Kind.takesType : Kind → Bool
  | .identifier | .listSplatPattern | .dictionarySplatPattern => true
  | _ => false

/-- does the first step make a node with a name that takes a type? -/
def beginsTyped (ss : List Step) : Bool :=
  ss.head?.any fun s => s.names && s.kind.takesType

theorem beginsTyped_readings (reps : List Rule) :
    (((Rule.of .typedParameter).readings reps {} true).all fun x =>
      (inlineAll reps x.steps).all fun y => beginsTyped y.steps) = true := by
  cbv

theorem typed_readings {n : Nonterminal} (h : n = .typedParameter ∨ n = .typedDefaultParameter)
    (reps : List Rule) :
    (((Rule.of n).readings reps {} true).all fun x =>
      (inlineAll reps x.steps).all fun y => y.steps.any (Step.fills .type)) = true := by
  rcases h with rfl | rfl <;> cbv

namespace Node

/-- a list has nothing but parameters and what declares nothing, and a parameter with a type has one
and begins with what it is given to -/
structure IsLowerable (n : Node) : Prop where
  list : isParameterList n.kind = true → ∀ m ∈ n.children, m.IsListed
  typed : n.kind = .typedParameter → ∃ m ms, n.namedChildren = m :: ms ∧ m.kind.takesType = true
  type : n.kind.isTyped = true → ∃ m, n.child? .type = some m

variable {t : Tree} {step : Option Step}

theorem list_ofChild (ht : t.Formed productions) (cost : t.cost = 0) (hs : t.StandsFor step)
    (list : isParameterList (ofChild step t).kind = true) :
    ∀ m ∈ (ofChild step t).children, m.IsListed := by
  have symbol : t.symbol = .nonterminal .parameters ∨
      t.symbol = .nonterminal .lambdaParameters := by
    rcases hs.kind_cases rfl with kind | ⟨p, hp, s, mem, -, shown⟩
    · exact Symbol.list_of_kind (kind ▸ list)
    · obtain ⟨r, x, -, -, lists⟩ := Production.lists_of_mem hp mem
      rw [Rule.lists, shown, Option.any_some, list] at lists
      cases lists
  intro m hm
  obtain ⟨d, hd, rfl⟩ := List.mem_map.mp hm
  have hd : d ∈ collectAll t.info.steps none [] t.children := by
    obtain ⟨i, cs⟩ := t
    exact hd
  rcases symbol with symbol | symbol
  · exact ht.isListed cost (r := .nonterminal .parameters) (by rw [symbol]; rfl) rfl none d hd
  · exact ht.isListed cost (r := .nonterminal .lambdaParameters) (by rw [symbol]; rfl) rfl none d hd

theorem type_ofChild (ht : t.Formed productions) (cost : t.cost = 0) (hs : t.StandsFor step)
    (typed : (ofChild step t).kind.isTyped = true) :
    ∃ m, (ofChild step t).child? .type = some m := by
  obtain ⟨n, typed, hn, hk⟩ : ∃ n : Nonterminal,
      (n = .typedParameter ∨ n = .typedDefaultParameter) ∧
        n.kind.isParameter = true ∧ (ofChild step t).kind = n.kind := by
    rcases Bool.or_eq_true_iff.mp typed with h | h
    · exact ⟨.typedParameter, .inl rfl, rfl, beq_iff_eq.mp h⟩
    · exact ⟨.typedDefaultParameter, .inr rfl, rfl, beq_iff_eq.mp h⟩
  obtain ⟨p, symbol, filled, parts⟩ := filled_of_kind ht cost hs hn hk
  have some := Production.of_readings (q := fun ss => ss.any (Step.fills .type)) filled.mem symbol
    (typed_readings typed repetitions)
  obtain ⟨s, hmem, fills⟩ := List.any_eq_true.mp some
  obtain ⟨field, shows⟩ := Bool.and_eq_true_iff.mp fills
  obtain ⟨u, -, hu⟩ := filled.exists_part hmem shows
  rw [beq_iff_eq.mp field, ← parts] at hu
  have found : ((ofChild step t).parts.find? (plays .type)).isSome = true :=
    List.find?_isSome.mpr ⟨_, hu, beq_self_eq_true _⟩
  obtain ⟨d, hd⟩ := Option.isSome_iff_exists.mp found
  exact ⟨d.2, by rw [child?_eq, hd]; rfl⟩

theorem typed_ofChild {text : List Char} (lies : t.LiesIn text) (ht : t.Formed productions)
    (cost : t.cost = 0) (hs : t.StandsFor step) (hk : (ofChild step t).kind = .typedParameter) :
    ∃ m ms, (ofChild step t).namedChildren = m :: ms ∧ m.kind.takesType = true := by
  have symbol := symbol_of_kind hs (n := .typedParameter) rfl hk
  have settled : t.Settled text := ⟨lies, ht, cost⟩
  obtain ⟨p, hp, built⟩ := settled.exists_built symbol (by decide)
  have begins := Production.of_readings (q := beginsTyped) built.filled.mem hp
    (beginsTyped_readings repetitions)
  cases steps : p.steps with
  | nil =>
    rw [steps] at begins
    cases begins
  | cons s ss =>
    rw [steps] at begins
    obtain ⟨names, takes⟩ := Bool.and_eq_true_iff.mp begins
    obtain ⟨c, cs, same, parts⟩ := built.parts_head steps (Bool.and_eq_true_iff.mp names).1
    have first : (ofChild step t).namedChildren =
        ofChild (some s) c :: ((collectAll ss none [] cs).map (·.2)).filter named := by
      rw [namedChildren, children, parts step, List.map_cons,
        List.filter_cons_of_pos (named_of_step same names)]
    exact ⟨_, _, first, by rwa [kind_of_step same]⟩

theorem isLowerable_ofChild {text : List Char} (lies : t.LiesIn text) (ht : t.Formed productions)
    (cost : t.cost = 0) (hs : t.StandsFor step) : (ofChild step t).IsLowerable where
  list := list_ofChild ht cost hs
  typed := typed_ofChild lies ht cost hs
  type := type_ofChild ht cost hs

end Node

theorem Machine.Whole.isLowerable {text : List Char} (fits : (parse text).Fits) :
    ∀ n ∈ (Node.ofTree (parse text)).preorder, n.IsLowerable :=
  (whole_parse text).forall_mem_preorder_of (Q := Tree.LiesIn text) (fun _ h => h.down)
    (fun _ _ lies ht cost hs _ => Node.isLowerable_ofChild lies ht cost hs) (liesIn_parse text) fits

/-! ## what the children of a list declare -/

namespace Node

/-- is it a splat with the given stars, with a type or without? -/
def IsSplat (stars : Kind) (n : Node) : Prop :=
  n.kind = stars ∨ n.kind = .typedParameter ∧ ∃ m ∈ n.namedChildren.head?, m.kind = stars

theorem not_isSplat_of_isPassedBy {n : Node} (h : n.kind.isPassedBy = true) :
    ¬ n.IsSplat .listSplatPattern := by
  rintro (hk | ⟨hk, -⟩) <;> rw [hk] at h <;> cases h

/-- does a parameter behind the child have to be passed by keyword? -/
def EndsPositional (n : Node) : Prop := n.kind = .keywordSeparator ∨ n.IsSplat .listSplatPattern

end Node

end Python

open Python

/-- the parameter is what the child `c` of a list declares behind the children `earlier` -/
structure Parameter.Describes (s : Source) (earlier : List Node) (c : Node) (p : Parameter) :
    Prop where
  varPositional : p.kind = .varPositional ↔ c.IsSplat .listSplatPattern
  varKeyword : p.kind = .varKeyword ↔ c.IsSplat .dictionarySplatPattern
  keywordOnly : p.kind = .keywordOnly ↔
    ¬ c.IsSplat .listSplatPattern ∧ ¬ c.IsSplat .dictionarySplatPattern ∧
      ∃ e ∈ earlier, e.EndsPositional
  positional : p.kind = .positional ↔
    ¬ c.IsSplat .listSplatPattern ∧ ¬ c.IsSplat .dictionarySplatPattern ∧
      ∀ e ∈ earlier, ¬ e.EndsPositional
  annotated : p.annotation.isSome = c.kind.isTyped
  annotation : c.kind.isTyped = true → p.annotation = (c.child? .type).map s.textOf
  hasDefault : p.hasDefault = true ↔ c.kind = .defaultParameter ∨ c.kind = .typedDefaultParameter

namespace Source

variable {s : Source} {plain : ParameterKind} {c : Node}

/-- the kind of a parameter is that of its stars, or that of parameters without stars -/
structure Tells (s : Source) (plain : ParameterKind) (c : Node) (d : Declaration) : Prop where
  kind :
    d.kind = .varPositional ∧ c.IsSplat .listSplatPattern ∧ ¬ c.IsSplat .dictionarySplatPattern ∨
      d.kind = .varKeyword ∧ c.IsSplat .dictionarySplatPattern ∧ ¬ c.IsSplat .listSplatPattern ∨
      d.kind = plain ∧ ¬ c.IsSplat .listSplatPattern ∧ ¬ c.IsSplat .dictionarySplatPattern
  annotated : d.annotation.isSome = c.kind.isTyped
  annotation : c.kind.isTyped = true → d.annotation = (c.child? .type).map s.textOf
  hasDefault : d.hasDefault = true ↔ c.kind = .defaultParameter ∨ c.kind = .typedDefaultParameter

theorem declaration_of_isPassedBy (h : c.kind.isPassedBy = true) :
    s.declaration plain c = none := by
  unfold declaration
  cases hk : c.kind <;> first | rfl | (rw [hk] at h; cases h)

theorem annotated_of_isTyped (lowerable : c.IsLowerable) (h : c.kind.isTyped = true) :
    ((c.child? .type).map s.textOf).isSome = c.kind.isTyped := by
  obtain ⟨m, hm⟩ := lowerable.type h
  rw [hm, h]
  rfl

/-- **A child that declares a parameter declares what it is.** -/
theorem tells_declaration (lowerable : c.IsLowerable) (h : c.kind.declares = true)
    (bare : c.kind ≠ .tuplePattern) : ∃ d, s.declaration plain c = some d ∧ s.Tells plain c d := by
  have annotated := annotated_of_isTyped (s := s) lowerable
  cases hk : c.kind with
  | identifier | defaultParameter | typedDefaultParameter =>
    rw [hk] at annotated
    rw [declaration, hk]
    refine ⟨_, rfl, .inr (.inr ⟨rfl, ?_, ?_⟩), ?_, ?_, ?_⟩
    all_goals simp [Node.IsSplat, hk, Kind.isTyped, annotated]
  | listSplatPattern | dictionarySplatPattern =>
    rw [declaration, hk]
    refine ⟨_, rfl, ?_, ?_, ?_, ?_⟩
    all_goals simp [Node.IsSplat, hk, Kind.isTyped]
  | typedParameter =>
    obtain ⟨m, ms, first, takes⟩ := lowerable.typed hk
    have splat (stars : Kind) (other : stars ≠ .typedParameter) :
        c.IsSplat stars ↔ m.kind = stars := by
      simp [Node.IsSplat, hk, first, other.symm]
    have one := splat .listSplatPattern (by decide)
    have two := splat .dictionarySplatPattern (by decide)
    rw [hk] at annotated
    rw [declaration, hk, first]
    cases hm : m.kind with
    | identifier | listSplatPattern | dictionarySplatPattern =>
      simp only [List.head?_cons, hm]
      refine ⟨_, rfl, ?_, ?_, ?_, ?_⟩
      all_goals simp [one, two, hm, hk, annotated, Kind.isTyped]
    | _ =>
      rw [hm] at takes
      cases takes
  | tuplePattern => exact absurd hk bare
  | _ =>
    rw [hk] at h
    cases h

/-- the kind of parameters without stars tells what stands before them -/
theorem Tells.describes {d : Declaration} {keywordOnly : Bool}
    (h : s.Tells (plainKind keywordOnly) c d)
    {earlier : List Node} (seen : keywordOnly = true ↔ ∃ e ∈ earlier, e.EndsPositional)
    (position : Nat) :
    Parameter.Describes s earlier c ⟨d.name, position, d.kind, d.annotation, d.hasDefault⟩ := by
  have none : keywordOnly = false ↔ ∀ e ∈ earlier, ¬ e.EndsPositional := by
    rw [← Bool.not_eq_true, seen]
    simp only [not_exists, not_and]
  refine ⟨?_, ?_, ?_, ?_, h.annotated, h.annotation, h.hasDefault⟩
  all_goals
    simp only [← seen, ← none]
    rcases h.kind with ⟨kind, one, two⟩ | ⟨kind, two, one⟩ | ⟨kind, one, two⟩
    all_goals cases keywordOnly <;> simp [kind, one, two, plainKind]

theorem zip_inits_cons (earlier : List Node) (c : Node) (cs : List Node) :
    ((c :: cs).inits.map (earlier ++ ·)).zip (c :: cs) =
      (earlier, c) :: (cs.inits.map (earlier ++ [c] ++ ·)).zip cs := by
  simp [Function.comp_def]

/-- **A list is lowered to what its children declare**, from any child on. -/
theorem describes_parametersFrom {cs : List Node} (earlier : List Node) {keywordOnly : Bool}
    (lowerable : ∀ c ∈ cs, c.IsLowerable)
    (listed : ∀ c ∈ cs, c.kind.isPassedBy = true ∨ c.kind.declares = true ∧ c.kind ≠ .tuplePattern)
    (seen : keywordOnly = true ↔ ∃ e ∈ earlier, e.EndsPositional) (position : Nat) :
    List.Forall₂ (fun c p => Parameter.Describes s c.1 c.2 p)
      (((cs.inits.map (earlier ++ ·)).zip cs).filter fun c => !c.2.kind.isPassedBy)
      (s.parametersFrom position keywordOnly cs) := by
  -- `seen` carries the induction: the flag of the loop tells what stood earlier in the list
  induction cs generalizing earlier keywordOnly position with
  | nil => exact .nil
  | cons c cs ih =>
    obtain ⟨here, lowerable⟩ := List.forall_mem_cons.mp lowerable
    obtain ⟨kind, listed⟩ := List.forall_mem_cons.mp listed
    rw [zip_inits_cons, parametersFrom, ← plainKind]
    rcases kind with passed | ⟨declares, bare⟩
    · rw [declaration_of_isPassedBy passed, List.filter_cons_of_neg (by simpa using passed)]
      refine ih _ lowerable listed ?_ position
      rw [Bool.or_eq_true, beq_iff_eq, seen, exists_mem_concat, Node.EndsPositional,
        or_iff_left (Node.not_isSplat_of_isPassedBy passed)]
    · obtain ⟨d, declared, tells⟩ := tells_declaration (s := s) here declares bare
      have stays := Kind.isPassedBy_of_declares declares
      have describes := tells.describes seen position
      have other : c.kind ≠ .keywordSeparator := fun hk => by rw [hk] at stays; cases stays
      rw [declared, List.filter_cons_of_pos (by simpa using stays)]
      refine .cons describes (ih _ lowerable listed ?_ (position + 1))
      rw [Bool.or_eq_true, beq_iff_eq, seen, exists_mem_concat, Node.EndsPositional,
        or_iff_right other, describes.varPositional]

theorem positions_parametersFrom (cs : List Node) (position : Nat) (keywordOnly : Bool) :
    (s.parametersFrom position keywordOnly cs).map (·.position) =
      List.range' position (s.parametersFrom position keywordOnly cs).length := by
  induction cs generalizing position keywordOnly with
  | nil => rfl
  | cons c cs ih =>
    rw [parametersFrom, ← plainKind]
    cases s.declaration (plainKind keywordOnly) c with
    | none => exact ih _ _
    | some d => exact congrArg (position :: ·) (ih _ _)

theorem kind_of_declaration {d : Declaration} (h : s.declaration plain c = some d) :
    d.kind = .varPositional ∨ d.kind = .varKeyword ∨ d.kind = plain := by
  unfold declaration at h
  dsimp only at h
  split at h
  case h_4 =>
    split at h
    · cases h
    · split at h <;> cases h <;> simp
  all_goals cases h <;> simp

theorem kind_ne_positional {cs : List Node} {position : Nat} :
    ∀ p ∈ s.parametersFrom position true cs, p.kind ≠ .positional := by
  induction cs generalizing position with
  | nil => exact fun _ => nofun
  | cons c cs ih =>
    rw [parametersFrom, ← plainKind]
    cases hd : s.declaration (plainKind true) c with
    | none => exact ih
    | some d =>
      refine List.forall_mem_cons.mpr ⟨fun positional => ?_, ih⟩
      have positional : d.kind = .positional := positional
      rcases kind_of_declaration hd with h | h | h <;> cases h.symm.trans positional

/-- **Behind a parameter with one star, none is positional.** -/
theorem pairwise_parametersFrom (cs : List Node) (position : Nat) (keywordOnly : Bool) :
    (s.parametersFrom position keywordOnly cs).Pairwise fun p q =>
      p.kind = .varPositional → q.kind ≠ .positional := by
  induction cs generalizing position keywordOnly with
  | nil => exact .nil
  | cons c cs ih =>
    rw [parametersFrom, ← plainKind]
    cases s.declaration (plainKind keywordOnly) c with
    | none => exact ih _ _
    | some d =>
      refine .cons (fun q hq starred => ?_) (ih _ _)
      have starred : d.kind = .varPositional := starred
      rw [starred, beq_self_eq_true, Bool.or_true] at hq
      exact kind_ne_positional q hq

end Source

/-! ## accepted texts -/

namespace Outline

/-- **A list of parameters is lowered to one parameter for each of its children but separators,
comments and line continuations**, in the same order, numbered from 0 on, and each of them is what
the child declares behind those before it. So behind a parameter with one star none is positional.
This holds of all lists in an accepted text, those of lambdas included, and the functions of its
outline have the parameters of their lists. -/
theorem parse_lowers_parameters (path text : String) :
    let root := Node.ofTree (Python.parse text.toList)
    let source := Source.ofNode text root
    (∃ n, refusal text root = some n ∧ parse path text = .error (.at_ n)) ∨
      ∃ o, parse path text = .ok o ∧
        (∀ l ∈ root.preorder, isParameterList l.kind = true →
          List.Forall₂ (fun c p => Parameter.Describes source c.1 c.2 p)
              ((l.namedChildren.inits.zip l.namedChildren).filter fun c => !c.2.kind.isPassedBy)
              (source.parameters l) ∧
            (source.parameters l).map (·.position) = List.range (source.parameters l).length ∧
            (source.parameters l).Pairwise fun p q =>
              p.kind = .varPositional → q.kind ≠ .positional) ∧
        List.Forall₂
          (fun n f => ∀ l, n.child? .parameters = some l → l ∈ root.preorder ∧
            isParameterList l.kind = true ∧ f.parameters = source.parameters l)
          (root.preorder.filter Node.isFunction) o.functions := by
  intro root source
  refine (parse_cases path text).imp_right fun ⟨o, ho, unrefused, lowers⟩ => ?_
  have whole := whole_parse text.toList
  obtain ⟨fits, valid⟩ := (refusal_eq_none_iff whole text).mp unrefused
  refine ⟨o, ho, fun l hl list => ?_, ?_⟩
  · -- the grammar lists what stands there, and the check has refused bare tuples
    have lowerable := Machine.Whole.isLowerable fits
    have bare := kind_ne_tuplePattern ((valid l hl).list list)
    refine ⟨?_, ?_, source.pairwise_parametersFrom l.namedChildren 0 false⟩
    · rw [← List.map_id l.namedChildren.inits]
      refine source.describes_parametersFrom [] (fun c hc => ?_) (fun c hc => ?_) ?_ 0
      · exact lowerable c (Node.mem_preorder_trans hl (Node.mem_preorder_of_mem_namedChildren hc))
      · obtain ⟨mem, named⟩ := List.mem_filter.mp hc
        rcases (lowerable l hl).list list c mem named with declares | passed
        · exact .inr ⟨declares, bare c hc⟩
        · exact .inl passed
      · simp
    · rw [List.range_eq_range']
      exact source.positions_parametersFrom l.namedChildren 0 false
  · have formed := whole.isFormed fits
    have heads : List.Forall₂ (IsHeadOf source) (root.preorder.filter Node.isFunction)
        o.functions := by
      rw [← Node.functionsAll_nests]
      exact lowers.functions
    have inside : List.Forall₂ (fun n f => n ∈ root.preorder ∧ IsHeadOf source n f)
        (root.preorder.filter Node.isFunction) o.functions :=
      (List.forall₂_and_left _ _).mpr ⟨fun n hn => List.mem_of_mem_filter hn, heads⟩
    refine inside.imp fun n f ⟨hn, head⟩ l hl => ⟨?_, (formed n hn).list l hl, ?_⟩
    · exact Node.mem_preorder_trans hn (Node.mem_preorder_of_child? hl)
    · rw [head.parameters_eq, hl]
      rfl

end Outline

end AnnotationAudit
