import AnnotationAudit.Audit
import AnnotationAudit.Proofs.Forms

/-!
# The check of parameter lists and their lowering

A parameter list is gone through twice: once to see whether it is valid, and once to lower it. Here
the two are compared. They agree on the names, and up to the first parameter with two stars on what
is positional; and the check sees all tuples but those with a default.

* `Declared.Adds`        what one more child of a list does to what has been seen of it;
* `Source.Declares`      a child is lowered to what the check takes it for;
* `defaults_last`        in a valid list, behind a default there are only defaults;
* `nodup_identifiers`    in a valid list, no identifier names two parameters;
* `Outline.parse_defaults_last`, `Outline.parse_unpacks`, `Outline.parse_parameter_names`
                         what it says of accepted texts.
-/

namespace AnnotationAudit

open Python Text

theorem exists_mem_concat {α : Type} {as : List α} {a : α} {P : α → Prop} :
    (∃ b ∈ as ++ [a], P b) ↔ (∃ b ∈ as, P b) ∨ P a := by
  simp only [List.mem_append, List.mem_singleton, or_and_right, exists_or, exists_eq_left]

/-! ## the check, child by child -/

namespace ParameterForm

def name? : ParameterForm → Option Node
  | .plain name _ | .splat name => some name
  | .tuple | .separator | .other => none

theorem isSplat_of_isTarget {t : Node} (h : isTarget t.kind = true) : isSplat t = false := by
  rw [Bool.eq_false_iff]
  intro splat
  rcases isSplat_iff.mp splat with hk | hk <;> rw [hk] at h <;> cases h

theorem ofTarget_of_isSplat {t : Node} (h : isSplat t = true) (hasDefault : Bool) :
    ofTarget t hasDefault = .splat (t.namedChildren.head?.getD t) := if_pos h

theorem ofTarget_of_not_isSplat {t : Node} (h : isSplat t = false) (hasDefault : Bool) :
    ofTarget t hasDefault = .plain t hasDefault := if_neg (Bool.eq_false_iff.mp h)

theorem ofTarget_ne_separator (t : Node) (hasDefault : Bool) :
    ofTarget t hasDefault ≠ .separator := by
  unfold ofTarget
  split <;> nofun

theorem ofNode_eq_separator_iff {n : Node} :
    ofNode n = .separator ↔ n.kind = .keywordSeparator := by
  unfold ofNode
  split
  case h_9 other => exact ⟨nofun, fun hk => absurd hk other⟩
  all_goals next hk =>
    rw [hk]
    try split
    all_goals simp [ofTarget_ne_separator]

end ParameterForm

namespace Declared

variable {source : String} {d d' : Declared}

/-- the name is noted if it is an identifier, and then it is new; nothing else changes -/
theorem declare_cases {name : Node} (h : d.declare source name = some d') :
    d' = { d with names := d'.names } ∧
      (name.kind = .identifier ∧ name.text source ∉ d.names ∧
          d'.names = name.text source :: d.names ∨
        name.kind ≠ .identifier ∧ d'.names = d.names) := by
  unfold declare at h
  by_cases identifier : name.kind = .identifier
  · rw [if_pos (beq_iff_eq.mpr identifier)] at h
    by_cases seen : d.names.contains (name.text source) = true
    · rw [if_pos seen] at h
      cases h
    · rw [if_neg seen] at h
      obtain rfl := Option.some.inj h
      exact ⟨rfl, .inl ⟨identifier, fun hm => seen (List.contains_iff_mem.mpr hm), rfl⟩⟩
  · rw [if_neg (fun hk => identifier (beq_iff_eq.mp hk))] at h
    obtain rfl := Option.some.inj h
    exact ⟨rfl, .inr ⟨identifier, rfl⟩⟩

theorem keywordOnly_of_declare {name : Node} (h : d.declare source name = some d') :
    d'.keywordOnly = d.keywordOnly := by
  rw [(declare_cases h).1]

theorem afterDefault_of_declare {name : Node} (h : d.declare source name = some d') :
    d'.afterDefault = d.afterDefault := by
  rw [(declare_cases h).1]

/-- what one more child of a valid list does to what has been seen of the list -/
inductive Adds (source : String) (d : Declared) : ParameterForm → Declared → Prop where
  | plain {name : Node} {hasDefault : Bool} {d' : Declared}
      (order : d.keywordOnly = false → d.afterDefault = true → hasDefault = true)
      (next : { d with afterDefault := d.afterDefault || (!d.keywordOnly && hasDefault) }.declare
        source name = some d') : Adds source d (.plain name hasDefault) d'
  | splat {name : Node} {d' : Declared}
      (next : { d with keywordOnly := true }.declare source name = some d') :
      Adds source d (.splat name) d'
  | separator : Adds source d .separator { d with keywordOnly := true }
  | other : Adds source d .other d

theorem adds_of_add {n : Node} (h : d.add source n = some d') :
    d.Adds source (ParameterForm.ofNode n) d' := by
  rw [add] at h
  generalize ParameterForm.ofNode n = form at h
  obtain ⟨names, afterDefault, keywordOnly⟩ := d
  cases form with
  | tuple => cases h
  | separator => exact Option.some.inj h ▸ .separator
  | other => exact Option.some.inj h ▸ .other
  | splat name => exact .splat h
  | plain name hasDefault =>
    cases keywordOnly with
    | true => exact .plain nofun (by simpa using h)
    | false =>
      cases hasDefault with
      | true => exact .plain (fun _ _ => rfl) (by simpa using h)
      | false =>
        cases afterDefault with
        | true => cases h
        | false => exact .plain (fun _ => nofun) (by simpa using h)

end Declared

/-- the rest of a valid list is valid behind its first child -/
theorem firstInvalidFrom_cons {source : String} {d : Declared} {c : Node} {cs : List Node}
    (h : firstInvalidFrom source d (c :: cs) = none) :
    ∃ d', d.Adds source (ParameterForm.ofNode c) d' ∧ firstInvalidFrom source d' cs = none := by
  rw [firstInvalidFrom] at h
  cases added : d.add source c with
  | none => rw [added] at h; cases h
  | some d' => rw [added] at h; exact ⟨d', Declared.adds_of_add added, h⟩

/-! ## the lowering, child by child -/

namespace Source

/-- a child of a list is lowered to what the check takes it for; `plain` is the kind of parameters
without stars -/
inductive Declares (s : Source) (plain : ParameterKind) :
    ParameterForm → Option Declaration → Prop where
  | plain (name : Node) (type : Option String) (hasDefault : Bool) :
      Declares s plain (.plain name hasDefault) (some ⟨s.textOf name, plain, type, hasDefault⟩)
  | splat (name : Node) (kind : ParameterKind) (type : Option String)
      (variadic : kind = .varPositional ∨ kind = .varKeyword) :
      Declares s plain (.splat name) (some ⟨s.textOf name, kind, type, false⟩)
  | none (form : ParameterForm) (h : form.name? = none) : Declares s plain form none

variable {s : Source} {plain : ParameterKind} {n : Node}

theorem splatName_eq (h : n.namedChildren ≠ []) :
    s.splatName n = s.textOf (n.namedChildren.head?.getD n) := by
  obtain ⟨m, ms, hm⟩ := List.exists_cons_of_ne_nil h
  rw [splatName, hm]
  rfl

theorem fieldText_eq {f : Field} {m : Node} (h : m ∈ n.child? f) :
    s.fieldText n f = s.textOf m := by
  rw [fieldText, show n.child? f = some m from h]
  rfl

theorem declares_plain {t : Node} (h : ParameterForm.isSplat t = false) (type : Option String)
    (hasDefault : Bool) :
    s.Declares plain (.ofTarget t hasDefault) (some ⟨s.textOf t, plain, type, hasDefault⟩) := by
  rw [ParameterForm.ofTarget_of_not_isSplat h]
  exact .plain t type hasDefault

theorem declares_splat {t : Node} (formed : t.IsFormed) (h : ParameterForm.isSplat t = true)
    {kind : ParameterKind} (variadic : kind = .varPositional ∨ kind = .varKeyword)
    (type : Option String) :
    s.Declares plain (.ofTarget t false) (some ⟨s.splatName t, kind, type, false⟩) := by
  rw [ParameterForm.ofTarget_of_isSplat h, splatName_eq (formed.splat h).1]
  exact .splat _ kind type variadic

/-- the grammar sees to it that the parts which are asked for are there -/
theorem declares_declaration (formed : n.IsFormed) (below : ∀ m ∈ n.namedChildren, m.IsFormed) :
    s.Declares plain (ParameterForm.ofNode n) (s.declaration plain n) := by
  cases hk : n.kind with
  | identifier =>
    rw [ParameterForm.ofNode, declaration, hk]
    exact declares_plain (ParameterForm.isSplat_of_isTarget (by rw [hk]; rfl)) Option.none false
  | defaultParameter =>
    obtain ⟨m, hm, target⟩ := formed.default hk
    rw [ParameterForm.ofNode, declaration, hk]
    simp only [show n.child? .name = some m from hm, fieldText_eq hm]
    exact declares_plain (ParameterForm.isSplat_of_isTarget target) Option.none true
  | typedDefaultParameter =>
    obtain ⟨m, hm, identifier⟩ := formed.typedDefault hk
    rw [ParameterForm.ofNode, declaration, hk]
    simp only [show n.child? .name = some m from hm, fieldText_eq hm]
    exact declares_plain (ParameterForm.isSplat_of_isTarget (by rw [identifier]; rfl)) _ true
  | typedParameter =>
    rw [ParameterForm.ofNode, declaration, hk]
    cases ht : n.namedChildren with
    | nil => exact .none _ rfl
    | cons t ts =>
      have target : t.IsFormed := below t (ht ▸ List.mem_cons_self)
      simp only [List.head?_cons]
      by_cases hs : ParameterForm.isSplat t = true
      · rcases ParameterForm.isSplat_iff.mp hs with h | h
        · rw [h]
          exact declares_splat target hs (.inl rfl) _
        · rw [h]
          exact declares_splat target hs (.inr rfl) _
      · split
        · next h => exact absurd (ParameterForm.isSplat_iff.mpr (.inl h)) hs
        · next h => exact absurd (ParameterForm.isSplat_iff.mpr (.inr h)) hs
        · exact declares_plain (Bool.eq_false_iff.mpr hs) _ false
  | listSplatPattern =>
    rw [ParameterForm.ofNode, declaration, hk]
    exact declares_splat formed (ParameterForm.isSplat_iff.mpr (.inl hk)) (.inl rfl) Option.none
  | dictionarySplatPattern =>
    rw [ParameterForm.ofNode, declaration, hk]
    exact declares_splat formed (ParameterForm.isSplat_iff.mpr (.inr hk)) (.inr rfl) Option.none
  | _ =>
    rw [ParameterForm.ofNode, declaration, hk]
    exact .none _ rfl

end Source

/-! ## what is positional -/

/-- the parameter may stand before the other: behind a positional parameter with a default, all have
one -/
def Parameter.MayPrecede (p q : Parameter) : Prop :=
  p.kind = .positional → q.kind = .positional → p.hasDefault = true → q.hasDefault = true

/-- the parameters before the first with two stars -/
def beforeKeywords (ps : List Parameter) : List Parameter := ps.takeWhile (·.kind != .varKeyword)

/-- the parameters are in order, and the positional ones have defaults if there was one before -/
structure InOrder (afterDefault : Bool) (ps : List Parameter) : Prop where
  order : (beforeKeywords ps).Pairwise Parameter.MayPrecede
  behind : afterDefault = true → ∀ q ∈ beforeKeywords ps, q.kind = .positional → q.hasDefault = true

namespace InOrder

variable {before after : Bool} {p : Parameter} {ps : List Parameter}

/-- what follows a parameter with two stars does not count -/
theorem cons_varKeyword (hk : p.kind = .varKeyword) : InOrder before (p :: ps) := by
  have none : beforeKeywords (p :: ps) = [] := List.takeWhile_cons_of_neg (by simp [hk])
  refine ⟨?_, fun _ q hq => ?_⟩
  · rw [none]
    exact .nil
  · rw [none] at hq
    exact absurd hq List.not_mem_nil

theorem cons (rest : InOrder after ps) (hk : p.kind ≠ .varKeyword)
    (here : before = true → p.kind = .positional → p.hasDefault = true)
    (later : before = true → after = true)
    (default : p.kind = .positional → p.hasDefault = true → after = true) :
    InOrder before (p :: ps) := by
  have some : beforeKeywords (p :: ps) = p :: beforeKeywords ps :=
    List.takeWhile_cons_of_pos (bne_iff_ne.mpr hk)
  refine ⟨?_, fun h q hq hq' => ?_⟩
  · rw [some, List.pairwise_cons]
    refine ⟨fun q hq hp hq' hd => ?_, rest.order⟩
    exact rest.behind (default hp hd) q hq hq'
  · rw [some] at hq
    rcases List.mem_cons.mp hq with rfl | hq
    · exact here h hq'
    · exact rest.behind (later h) q hq hq'

end InOrder

namespace Source

def plainKind (keywordOnly : Bool) : ParameterKind :=
  if keywordOnly then .keywordOnly else .positional

theorem plainKind_eq_positional {keywordOnly : Bool} (h : plainKind keywordOnly = .positional) :
    keywordOnly = false := by
  cases keywordOnly with
  | true => cases h
  | false => rfl

theorem plainKind_ne (keywordOnly : Bool) :
    plainKind keywordOnly ≠ .varPositional ∧ plainKind keywordOnly ≠ .varKeyword := by
  cases keywordOnly <;> exact ⟨nofun, nofun⟩

end Source

/-- **In a valid list, behind a default there are only defaults**, among the positional parameters
before the first with two stars. -/
theorem defaults_last {s : Source} {cs : List Node}
    (agree : ∀ plain, ∀ c ∈ cs, s.Declares plain (ParameterForm.ofNode c) (s.declaration plain c))
    {d : Declared} (valid : firstInvalidFrom s.text d cs = none) (position : Nat) :
    InOrder d.afterDefault (s.parametersFrom position d.keywordOnly cs) := by
  -- up to the first parameter with two stars, both know the same of what has been seen: whether
  -- parameters are keyword-only
  induction cs generalizing d position with
  | nil => exact ⟨.nil, fun _ _ => nofun⟩
  | cons c cs ih =>
    obtain ⟨d', added, rest⟩ := firstInvalidFrom_cons valid
    have here := agree (Source.plainKind d.keywordOnly) c List.mem_cons_self
    have separator := ParameterForm.ofNode_eq_separator_iff (n := c)
    have ih := ih (fun plain c hc => agree plain c (List.mem_cons_of_mem _ hc)) rest
    rw [Source.parametersFrom, ← Source.plainKind]
    generalize ParameterForm.ofNode c = form at added here separator
    generalize s.declaration (Source.plainKind d.keywordOnly) c = declared at here
    cases here with
    | plain name type hasDefault =>
      cases added with
      | plain order next =>
        obtain ⟨starred, keywords⟩ := Source.plainKind_ne d.keywordOnly
        rw [Declared.keywordOnly_of_declare next, Declared.afterDefault_of_declare next] at ih
        simp only [beq_false_of_ne starred, Bool.or_false]
        refine (ih (position + 1)).cons keywords (fun after hk => ?_) (fun after => ?_)
          fun hk default => ?_
        · exact order (Source.plainKind_eq_positional hk) after
        · rw [after, Bool.true_or]
        · rw [Source.plainKind_eq_positional hk, show hasDefault = true from default]
          exact Bool.or_true _
    | splat name kind type variadic =>
      cases added with
      | splat next =>
        rw [Declared.keywordOnly_of_declare next, Declared.afterDefault_of_declare next] at ih
        rcases variadic with rfl | rfl
        · simp only [beq_self_eq_true, Bool.or_true]
          exact (ih (position + 1)).cons nofun nofun id nofun
        · exact .cons_varKeyword rfl
    | none form h =>
      have seen : d'.keywordOnly = (d.keywordOnly || c.kind == .keywordSeparator) ∧
          d'.afterDefault = d.afterDefault := by
        cases added with
        | plain => cases h
        | splat => cases h
        | separator =>
          rw [separator.mp rfl, beq_self_eq_true, Bool.or_true]
          exact ⟨rfl, rfl⟩
        | other =>
          have hk : c.kind ≠ .keywordSeparator := fun hk => nomatch separator.mpr hk
          rw [beq_false_of_ne hk, Bool.or_false]
          exact ⟨rfl, rfl⟩
      rw [seen.1, seen.2] at ih
      exact ih position

/-- behind `**k`, the check has stopped to ask for defaults, and `b` is still positional -/
example :
    let node (k : Kind) (start stop : Nat) (parts : List (Option Field × Node)) : Node :=
      .mk k true false false ⟨start, 0, start⟩ ⟨stop, 0, stop⟩ parts
    let list := [node .defaultParameter 0 3 [(some .name, node .identifier 0 1 [])],
      node .dictionarySplatPattern 5 8 [(none, node .identifier 7 8 [])],
      node .identifier 10 11 []]
    firstInvalidFrom "a=1, **k, b" {} list = none ∧
      ((Source.mk "a=1, **k, b" {}).parametersFrom 0 false list).map
          (fun p => (p.name, p.kind, p.hasDefault)) =
        [("a", .positional, true), ("k", .varKeyword, false), ("b", .positional, false)] := by
  decide

/-! ## names -/

def namesOf (cs : List Node) : List Node := cs.filterMap fun c => (ParameterForm.ofNode c).name?

def identifiersOf (source : String) (names : List Node) : List String :=
  (names.filter (·.kind == .identifier)).map (Node.text source)

theorem identifiersOf_cons (source : String) (m : Node) (ms : List Node) :
    identifiersOf source (m :: ms) =
      if m.kind = .identifier then m.text source :: identifiersOf source ms
      else identifiersOf source ms := by
  by_cases h : m.kind = .identifier <;> simp [identifiersOf, h]

/-- **In a valid list, no identifier names two parameters.** -/
theorem nodup_identifiers {source : String} {cs : List Node} {d : Declared}
    (valid : firstInvalidFrom source d cs = none) :
    (identifiersOf source (namesOf cs)).Nodup ∧
      ∀ x ∈ identifiersOf source (namesOf cs), x ∉ d.names := by
  induction cs generalizing d with
  | nil => exact ⟨.nil, fun _ => nofun⟩
  | cons c cs ih =>
    obtain ⟨d', added, rest⟩ := firstInvalidFrom_cons valid
    obtain ⟨nodup, fresh⟩ := ih rest
    have noted : ∀ {e : Declared} {name : Node}, e.declare source name = some d' →
        e.names = d.names →
          (identifiersOf source (name :: namesOf cs)).Nodup ∧
            ∀ x ∈ identifiersOf source (name :: namesOf cs), x ∉ d.names := by
      intro e name declared same
      rw [identifiersOf_cons]
      obtain ⟨-, ⟨hk, new, names⟩ | ⟨hk, names⟩⟩ := Declared.declare_cases declared
      · rw [names, same] at fresh
        rw [same] at new
        rw [if_pos hk]
        refine ⟨List.nodup_cons.mpr ⟨fun hm => fresh _ hm List.mem_cons_self, nodup⟩, ?_⟩
        exact List.forall_mem_cons.mpr
          ⟨new, fun x hx hm => fresh x hx (List.mem_cons_of_mem _ hm)⟩
      · rw [names, same] at fresh
        rw [if_neg hk]
        exact ⟨nodup, fresh⟩
    rw [namesOf, List.filterMap_cons]
    generalize ParameterForm.ofNode c = form at added
    cases added with
    | plain order next => exact noted next rfl
    | splat next => exact noted next rfl
    | separator => exact ⟨nodup, fresh⟩
    | other => exact ⟨nodup, fresh⟩

/-- a list is lowered to parameters with the names that the check compares -/
theorem names_parametersFrom {s : Source} {cs : List Node}
    (agree : ∀ plain, ∀ c ∈ cs, s.Declares plain (ParameterForm.ofNode c) (s.declaration plain c))
    (position : Nat) (keywordOnly : Bool) :
    (s.parametersFrom position keywordOnly cs).map (·.name) = (namesOf cs).map s.textOf := by
  induction cs generalizing position keywordOnly with
  | nil => rfl
  | cons c cs ih =>
    have here := agree (Source.plainKind keywordOnly) c List.mem_cons_self
    have ih := ih fun plain c hc => agree plain c (List.mem_cons_of_mem _ hc)
    rw [Source.parametersFrom, ← Source.plainKind, namesOf, List.filterMap_cons]
    generalize ParameterForm.ofNode c = form at here
    generalize s.declaration (Source.plainKind keywordOnly) c = declared at here
    cases here with
    | plain name type hasDefault => exact congrArg (_ :: ·) (ih _ _)
    | splat name kind type variadic => exact congrArg (_ :: ·) (ih _ _)
    | none form h =>
      rw [h]
      exact ih _ _

/-- no two violations name the same argument if no two parameters have the same name -/
theorem Signature.nodup_arguments {f : Signature} (h : (f.parameters.map (·.name)).Nodup)
    (file : String) (o : AuditOptions) :
    ((f.violations file o).filterMap (·.argument)).Nodup := by
  have returns : (f.returnViolations file).filterMap (·.argument) = [] := by
    unfold returnViolations
    split <;> rfl
  have arguments : (f.argumentViolations file o).filterMap (·.argument) =
      (f.parameters.filter fun p => p.needsAnnotation f.methodKind o && !p.isAnnotated).map
        (·.name) := by
    rw [argumentViolations, List.filterMap_map]
    exact congrFun (List.filterMap_eq_map (f := Parameter.name)) _
  rw [violations, List.filterMap_append, returns, List.append_nil, arguments]
  exact h.sublist (List.filter_sublist.map _)

/-! ## tuples -/

namespace Python.Node

/-- a parameter unpacks a tuple: it is one, or it is called by one, or one is behind its stars or
before its type -/
inductive Unpacks : Node → Prop where
  | tuple {n : Node} (h : n.kind = .tuplePattern) : Unpacks n
  | called {n m : Node} (hk : n.kind = .defaultParameter ∨ n.kind = .typedDefaultParameter)
      (hm : m ∈ n.child? .name) (h : Unpacks m) : Unpacks n
  | inner {n m : Node} (hk : n.kind = .typedParameter ∨ ParameterForm.isSplat n = true)
      (hm : m ∈ n.namedChildren) (h : Unpacks m) : Unpacks n

theorem mem_preorder_of_child? {n m : Node} {f : Field} (h : n.child? f = some m) :
    m ∈ n.preorder := by
  obtain ⟨c, hc, rfl⟩ := mem_parts_of_child? h
  exact mem_preorder_of_mem_parts hc (mem_preorder_self _)

theorem mem_preorder_of_mem_namedChildren {n m : Node} (h : m ∈ n.namedChildren) :
    m ∈ n.preorder := by
  obtain ⟨c, hc, rfl⟩ := List.mem_map.mp (List.mem_of_mem_filter h)
  exact mem_preorder_of_mem_parts hc (mem_preorder_self _)

/-- the grammar has tuples only as parameters and before defaults -/
theorem Unpacks.mayUnpack {n : Node} (h : n.Unpacks) (formed : ∀ m ∈ n.preorder, m.IsFormed) :
    n.kind.mayUnpack = true := by
  induction h with
  | tuple hk => rw [hk]; rfl
  | @called n m hk hm _ ih =>
    have here := formed n n.mem_preorder_self
    rcases hk with hk | hk
    · rw [hk]
      rfl
    · obtain ⟨m', hm', identifier⟩ := here.typedDefault hk
      obtain rfl : m = m' := Option.mem_unique hm hm'
      have unpacks := ih fun k hk => formed k (mem_preorder_trans (mem_preorder_of_child? hm) hk)
      rw [identifier] at unpacks
      cases unpacks
  | @inner n m hk hm _ ih =>
    have here := formed n n.mem_preorder_self
    have plain : m.kind.mayUnpack = false := by
      have mem : m ∈ n.children := List.mem_of_mem_filter hm
      rcases hk with hk | hk
      · exact here.typed hk m mem
      · exact (here.splat hk).2 m mem
    have unpacks := ih fun k hk =>
      formed k (mem_preorder_trans (mem_preorder_of_mem_namedChildren hm) hk)
    cases plain.symm.trans unpacks

end Python.Node

/-- a valid list has no bare tuples -/
theorem kind_ne_tuplePattern {source : String} {cs : List Node} {d : Declared}
    (valid : firstInvalidFrom source d cs = none) : ∀ c ∈ cs, c.kind ≠ .tuplePattern := by
  induction cs generalizing d with
  | nil => exact fun _ => nofun
  | cons c cs ih =>
    obtain ⟨d', added, rest⟩ := firstInvalidFrom_cons valid
    refine List.forall_mem_cons.mpr ⟨fun hk => ?_, ih rest⟩
    rw [ParameterForm.ofNode, hk] at added
    cases added

/-! ## accepted texts -/

namespace Python.Node

/-- the nodes below have the parts that they should, and the parameters are valid -/
structure IsAccepted (text : String) (n : Node) : Prop where
  formed : ∀ m ∈ n.preorder, m.IsFormed
  valid : ∀ l ∈ n.child? .parameters, firstInvalidFrom text {} l.namedChildren = none

def parameterNames (n : Node) : List Node :=
  ((n.child? .parameters).map fun l => namesOf l.namedChildren).getD []

variable {text : String} {n : Node}

theorem IsAccepted.agree (h : n.IsAccepted text) (s : Source) {l : Node}
    (hl : n.child? .parameters = some l) (plain : ParameterKind) :
    ∀ c ∈ l.namedChildren,
      s.Declares plain (ParameterForm.ofNode c) (s.declaration plain c) := by
  intro c hc
  have mem : c ∈ n.preorder :=
    mem_preorder_trans (mem_preorder_of_child? hl) (mem_preorder_of_mem_namedChildren hc)
  refine Source.declares_declaration (h.formed c mem) fun m hm => ?_
  exact h.formed m (mem_preorder_trans mem (mem_preorder_of_mem_namedChildren hm))

end Python.Node

namespace IsHeadOf

variable {s : Source} {n : Node} {f : Signature}

theorem parameters_eq (h : IsHeadOf s n f) :
    f.parameters = ((n.child? .parameters).map s.parameters).getD [] := by
  obtain ⟨scope, decorators, rfl⟩ := h
  rfl

theorem defaults_last (h : IsHeadOf s n f) (accepted : n.IsAccepted s.text) :
    (beforeKeywords f.parameters).Pairwise Parameter.MayPrecede := by
  rw [h.parameters_eq]
  cases hl : n.child? .parameters with
  | none => exact .nil
  | some l =>
    exact (AnnotationAudit.defaults_last (accepted.agree s hl) (accepted.valid l hl) 0).order

theorem names_eq (h : IsHeadOf s n f) (accepted : n.IsAccepted s.text) :
    f.parameters.map (·.name) = n.parameterNames.map (Node.text s.text) := by
  rw [h.parameters_eq, Node.parameterNames]
  cases hl : n.child? .parameters with
  | none => rfl
  | some l => exact names_parametersFrom (accepted.agree s hl) 0 false

theorem nodup_identifiers (accepted : n.IsAccepted s.text) :
    (identifiersOf s.text n.parameterNames).Nodup := by
  rw [Node.parameterNames]
  cases hl : n.child? .parameters with
  | none => exact .nil
  | some l => exact (AnnotationAudit.nodup_identifiers (accepted.valid l hl)).1

end IsHeadOf

namespace Outline

/-- a text is refused, or its outline has the functions of its syntax tree, and all its nodes are
accepted -/
theorem parse_accepted (path text : String) :
    let root := Node.ofTree (Python.parse text.toList)
    (∃ n, refusal text root = some n ∧ parse path text = .error (.at_ n)) ∨
      ∃ o, parse path text = .ok o ∧ (∀ n ∈ root.preorder, n.IsAccepted text) ∧
        List.Forall₂ (fun n f => n.IsAccepted text ∧ IsHeadOf (Source.ofNode text root) n f)
          (root.preorder.filter Node.isFunction) o.functions := by
  intro root
  refine (parse_cases path text).imp_right fun ⟨o, ho, unrefused, lowers⟩ => ?_
  have whole := whole_parse text.toList
  obtain ⟨fits, valid⟩ := (refusal_eq_none_iff whole text).mp unrefused
  have formed := whole.isFormed fits
  have accepted : ∀ n ∈ root.preorder, n.IsAccepted text := by
    refine fun n hn => ⟨fun m hm => formed m (Node.mem_preorder_trans hn hm), fun l hl => ?_⟩
    have mem : l ∈ root.preorder := Node.mem_preorder_trans hn (Node.mem_preorder_of_child? hl)
    exact (valid l mem).list ((formed n hn).list l hl)
  refine ⟨o, ho, accepted, (List.forall₂_and_left _ _).mpr ⟨fun n hn => ?_, ?_⟩⟩
  · exact accepted n (List.mem_of_mem_filter hn)
  · rw [← Node.functionsAll_nests]
    exact lowers.functions

/-- **Behind a positional parameter with a default, all positional parameters have one**, up to the
first parameter with two stars, in every function of an accepted text. -/
theorem parse_defaults_last (path text : String) :
    let root := Node.ofTree (Python.parse text.toList)
    (∃ n, refusal text root = some n ∧ parse path text = .error (.at_ n)) ∨
      ∃ o, parse path text = .ok o ∧
        ∀ f ∈ o.functions, (beforeKeywords f.parameters).Pairwise Parameter.MayPrecede := by
  intro root
  refine (parse_accepted path text).imp_right fun ⟨o, ho, _, heads⟩ => ⟨o, ho, ?_⟩
  have last : List.Forall₂ (fun f n => (beforeKeywords f.parameters).Pairwise Parameter.MayPrecede ∧
      IsHeadOf (Source.ofNode text root) n f) o.functions (root.preorder.filter Node.isFunction) :=
    .flip (heads.imp fun n f ⟨accepted, head⟩ => ⟨head.defaults_last accepted, head⟩)
  exact ((List.forall₂_and_left _ _).mp last).1

/-- **Only a parameter with a default unpacks a tuple** in the functions and lambdas of an accepted
text, at any depth. -/
theorem parse_unpacks (path text : String) :
    let root := Node.ofTree (Python.parse text.toList)
    (∃ n, refusal text root = some n ∧ parse path text = .error (.at_ n)) ∨
      (∃ o, parse path text = .ok o) ∧
        ∀ n ∈ root.preorder, ∀ l ∈ n.child? .parameters, isParameterList l.kind = true ∧
          ∀ c ∈ l.namedChildren, c.Unpacks → c.kind = .defaultParameter := by
  intro root
  refine (parse_accepted path text).imp_right fun ⟨o, ho, accepted, _⟩ => ⟨⟨o, ho⟩, ?_⟩
  intro n hn l hl
  obtain ⟨formed, valid⟩ := accepted n hn
  refine ⟨(formed n n.mem_preorder_self).list l hl, fun c hc unpacks => ?_⟩
  have below : ∀ m ∈ c.preorder, m.IsFormed := fun m hm =>
    formed m (Node.mem_preorder_trans (Node.mem_preorder_of_child? hl)
      (Node.mem_preorder_trans (Node.mem_preorder_of_mem_namedChildren hc) hm))
  have kind := unpacks.mayUnpack below
  have bare := kind_ne_tuplePattern (valid l hl) c hc
  unfold Kind.mayUnpack at kind
  split at kind
  · next hk => exact absurd hk bare
  · next hk => exact hk
  · cases kind

/-- **The parameters of a function have the names that its check compares**, and of these no two
identifiers are the same. So if all names are identifiers, they are distinct, and no two violations
of the function name the same argument. -/
theorem parse_parameter_names (path text : String) :
    let root := Node.ofTree (Python.parse text.toList)
    (∃ n, refusal text root = some n ∧ parse path text = .error (.at_ n)) ∨
      ∃ o, parse path text = .ok o ∧
        List.Forall₂
          (fun n f => IsHeadOf (Source.ofNode text root) n f ∧
            f.parameters.map (·.name) = n.parameterNames.map (Node.text text) ∧
            (identifiersOf text n.parameterNames).Nodup ∧
            ((∀ m ∈ n.parameterNames, m.kind = .identifier) →
              (f.parameters.map (·.name)).Nodup ∧
                ∀ file options, ((f.violations file options).filterMap (·.argument)).Nodup))
          (root.preorder.filter Node.isFunction) o.functions := by
  intro root
  refine (parse_accepted path text).imp_right fun ⟨o, ho, _, heads⟩ => ⟨o, ho, ?_⟩
  refine heads.imp fun n f ⟨accepted, head⟩ => ?_
  have names := head.names_eq accepted
  have distinct := IsHeadOf.nodup_identifiers (s := Source.ofNode text root) accepted
  refine ⟨head, names, distinct, fun all => ?_⟩
  have nodup : (f.parameters.map (·.name)).Nodup := by
    have identifiers : identifiersOf text n.parameterNames =
        n.parameterNames.map (Node.text text) := by
      rw [identifiersOf, List.filter_eq_self.mpr fun m hm => beq_iff_eq.mpr (all m hm)]
    rw [names]
    exact identifiers ▸ distinct
  exact ⟨nodup, fun file options => Signature.nodup_arguments nodup file options⟩

end Outline

end AnnotationAudit
