import AnnotationAudit.Proofs.Productions

/-!
# Where the grammar puts definitions

A function or a class is a statement, and the grammar has statements only in blocks. This is checked
once, rule by rule, and then holds of every production.

* `Nonterminal.isPlain`   symbols below which there is no statement that could be a definition;
* `Rule.admits`           what may stand in the rule of a symbol, and in which part;
* `admits_of_mem`         all steps of all productions are admitted;
* `regular_productions`   the grammar is as the automaton supposes;
* `Field.IsOuter`         a part that nothing dissolved plays;
* `Production.of_readings`  what holds of all readings of a rule holds of its productions;
* `countP_fills`          a definition has one body, and one definition is decorated.
-/

namespace AnnotationAudit
namespace Python

/-! ## what a rule admits -/

/-- is there no definition below the symbol? -/
def Nonterminal.isPlain : Nonterminal → Bool
  | .module | .statement | .compoundStatement | .ifStatement | .elifClause | .elseClause
  | .matchStatement | .matchBlock | .caseClause | .forStatement | .whileStatement | .tryStatement
  | .exceptClause | .exceptGroupClause | .finallyClause | .withStatement | .functionDefinition
  | .classDefinition | .decoratedDefinition | .suite | .block => false
  | _ => true

/-- is the kind that of a function, of a class or of one of them with decorators? -/
def Kind.isDefinition : Kind → Bool
  | .functionDefinition | .classDefinition | .decoratedDefinition => true
  | _ => false

/-- what has definitions below it is a definition or a statement around some -/
theorem Nonterminal.cases_of_not_isPlain (n : Nonterminal) : n.isPlain = false →
    (n = .functionDefinition ∨ n = .classDefinition) ∨ n = .decoratedDefinition ∨
      n.kind.isDefinition = false ∧ n.kind ≠ .lambda := by
  cases n <;> decide

namespace Rule

/-- is there no definition below the symbols in a rule? -/
def isPlain : Rule → Bool
  | .blank | .terminal _ => true
  | .nonterminal n => n.isPlain
  | .seq a b | .alt a b => a.isPlain && b.isPlain
  | .repeat1 r | .ranked _ _ r | .weighed _ r | .field _ r | .shown _ r => r.isPlain

/-- can a symbol be shown so? Nothing is shown as a definition, and where there may be definitions
below, only as a block. -/
def mayBe (r : Rule) : Option Kind → Bool
  | some .functionDefinition | some .classDefinition | some .decoratedDefinition => false
  | none | some .block => true
  | some _ => r.isPlain

/-- does a symbol make one node, or none if it is a token? -/
def isWhole (r : Rule) (k : Option Kind) : Bool :=
  k.isSome ||
    match r with
    | .terminal _ => true
    | .nonterminal n => !n.isHidden
    | _ => false

def isBody (r : Rule) (k : Option Kind) : Bool :=
  match r, k with
  | _, some .block | .nonterminal .block, none | .terminal .indent, none => true
  | _, _ => false

/-- what may stand in the rule of the symbol `head` -/
def admits (head : Rule) : Check := fun r k f =>
  (!head.isPlain || r.isPlain) && r.mayBe k &&
    match head with
    | .nonterminal .functionDefinition | .nonterminal .classDefinition =>
      r.isWhole k && if f == some .body then r.isBody k else r.isPlain
    | .nonterminal .decoratedDefinition =>
      if f == some .definition then
        k == none && (r == .nonterminal .functionDefinition || r == .nonterminal .classDefinition)
      else r.isPlain
    | _ => f != some .definition

end Rule

namespace Step

/-- does a step make a node of its own? -/
def shows (s : Step) : Bool := s.shown.isSome || s.symbol.isVisible

/-- does a step play the part `f` with a node? -/
def fills (f : Field) (s : Step) : Bool := s.field == some f && s.shows

end Step

/-! ## the check -/

theorem admits_rules : (Nonterminal.all.all fun n =>
    (Rule.of n).every (Rule.unfolded (Rule.admits (.nonterminal n))) none none) = true := by
  decide +kernel

theorem admits_repeated : (Nonterminal.all.all fun n => (Rule.of n).repeated.all fun r =>
    (Rule.alt (.repeat1 r) r).every (Rule.unfolded (Rule.admits (.repeat1 r))) none none) =
      true := by
  decide +kernel

/-- **All steps of all productions are admitted.** -/
theorem Production.admits_of_mem {p : Production} (hp : p ∈ productions) {s : Step}
    (hs : s ∈ p.steps) : ∃ r x, (Machine.symbolOf p.variableIndex).asRule? repetitions = some r ∧
      s.symbol.asRule? repetitions = some x ∧ r.admits x s.shown s.field = true :=
  passes_of_mem admits_rules admits_repeated hp hs

theorem regular_productions : Regular productions variableCount where
  variableIndex_ne p hp := by
    rw [variableCount]
    rcases mem_productions hp with ⟨n, h⟩ | ⟨k, r, hk, h⟩
    · have := n.rank_lt
      have := (mem_productionsOf h).1
      omega
    · have := (List.getElem?_eq_some_iff.mp hk).1
      have := (mem_productionsOf h).1
      omega
  isReal p hp s hs := by
    obtain ⟨-, x, -, hx, -⟩ := Production.admits_of_mem hp hs
    exact Symbol.isReal_of_asRule? hx

/-! ## what it says of productions -/

/-- is there no definition below the symbol? -/
def Symbol.IsPlain (x : Symbol) : Prop := ∀ r, x.asRule? repetitions = some r → r.isPlain = true

theorem Symbol.isPlain_of_asRule? {x : Symbol} {r : Rule} (hr : x.asRule? repetitions = some r)
    (plain : r.isPlain = true) : x.IsPlain := fun _ hs =>
  Option.some.inj (hr.symm.trans hs) ▸ plain

theorem Symbol.isPlain_of_isToken {x : Symbol} (h : x.isToken = true) : x.IsPlain := by
  intro _ hr
  cases x with
  | terminal t => cases hr; rfl
  | error => cases hr
  | _ => cases h

theorem Symbol.isPlain_nonterminal {n : Nonterminal} :
    (Symbol.nonterminal n).IsPlain ↔ n.isPlain = true :=
  ⟨fun h => h _ rfl, fun h _ hr => Option.some.inj hr ▸ h⟩

/-- a symbol without definitions below can be shown as anything but one of them, all others can be
shown as blocks -/
def Symbol.MayBe (x : Symbol) (k : Option Kind) : Prop :=
  ∀ l, k = some l → l = .block ∨ x.IsPlain ∧ l.isDefinition = false

theorem Symbol.mayBe_none (x : Symbol) : x.MayBe none := nofun

/-- nothing without definitions below makes one of them -/
theorem Symbol.IsPlain.isDefinition_kind {x : Symbol} (hx : x.IsPlain) {k : Option Kind}
    (hk : x.MayBe k) : (k.getD x.kind).isDefinition = false := by
  cases k with
  | some l =>
    rcases hk l rfl with rfl | ⟨-, hl⟩
    · rfl
    · exact hl
  | none =>
    cases x with
    | terminal t => show t.kind.isDefinition = false; unfold Terminal.kind; split <;> rfl
    | nonterminal n =>
      have plain := isPlain_nonterminal.mp hx
      cases n <;> first | rfl | cases plain
    | _ => rfl

/-- a step that makes a node of one of the kinds if it plays the part `f`, and else has no
definition below and plays nothing else that is called `f` -/
structure Step.Serves (f : Field) (kinds : Kind → Prop) (s : Step) : Prop where
  kind : s.field = some f → s.shows = true → kinds (s.shown.getD s.symbol.kind)
  plain : s.field ≠ some f → s.symbol.IsPlain
  whole : s.shows = true ∨ s.symbol.isToken = true ∨ (f = .definition ∧ s.field ≠ some f)

/-- no part of a hidden symbol is called so -/
def Field.IsOuter (f : Field) : Prop :=
  ∀ p ∈ productions, (Machine.symbolOf p.variableIndex).isVisible = false →
    ∀ s ∈ p.steps, s.field ≠ some f

/-- what can be in a body is a block if it is a node -/
theorem Step.kind_of_isBody {s : Step} {r : Rule} (hr : s.symbol.asRule? repetitions = some r)
    (body : r.isBody s.shown = true) (shows : s.shows = true) :
    s.shown.getD s.symbol.kind = .block := by
  have symbol := Symbol.eq_of_asRule? hr
  unfold Rule.isBody at body
  split at body
  · next hk => rw [hk]; rfl
  · next hk => rw [hk, symbol]; rfl
  · next hk => rw [Step.shows, hk, symbol] at shows; cases shows
  · cases body

theorem Step.shows_of_isWhole {s : Step} {r : Rule} (hr : s.symbol.asRule? repetitions = some r)
    (whole : r.isWhole s.shown = true) : s.shows = true ∨ s.symbol.isToken = true := by
  have symbol := Symbol.eq_of_asRule? hr
  unfold Rule.isWhole at whole
  rw [Bool.or_eq_true] at whole
  rcases whole with hk | whole
  · exact .inl (by rw [Step.shows, hk]; rfl)
  · split at whole
    · exact .inr (by rw [symbol]; rfl)
    · exact .inl (by rw [Step.shows, symbol, Bool.or_eq_true]; exact .inr whole)
    · cases whole

namespace Production

variable {p : Production}

theorem isPlain_of_mem (hp : p ∈ productions) {s : Step} (hs : s ∈ p.steps)
    (plain : (Machine.symbolOf p.variableIndex).IsPlain) : s.symbol.IsPlain := by
  obtain ⟨r, x, hr, hx, hc⟩ := admits_of_mem hp hs
  simp only [Rule.admits, Bool.and_eq_true, plain r hr, Bool.not_true, Bool.false_or] at hc
  exact Symbol.isPlain_of_asRule? hx hc.1.1

theorem mayBe_of_mem (hp : p ∈ productions) {s : Step} (hs : s ∈ p.steps) :
    s.symbol.MayBe s.shown := by
  obtain ⟨r, x, -, hx, hc⟩ := admits_of_mem hp hs
  simp only [Rule.admits, Bool.and_eq_true] at hc
  obtain ⟨⟨-, shown⟩, -⟩ := hc
  intro k hk
  rw [hk] at shown
  cases k with
  | block => exact .inl rfl
  | functionDefinition => cases shown
  | classDefinition => cases shown
  | decoratedDefinition => cases shown
  | _ => exact .inr ⟨Symbol.isPlain_of_asRule? hx shown, rfl⟩

/-- no part of a hidden symbol is called a definition -/
theorem isOuter_definition : Field.IsOuter .definition := by
  intro p hp hidden s hs
  obtain ⟨r, x, hr, -, hc⟩ := admits_of_mem hp hs
  generalize Machine.symbolOf p.variableIndex = y at hr hidden
  simp only [Rule.admits, Bool.and_eq_true] at hc
  obtain ⟨-, hc⟩ := hc
  split at hc
  · rw [Symbol.eq_of_asRule? hr] at hidden; cases hidden
  · rw [Symbol.eq_of_asRule? hr] at hidden; cases hidden
  · rw [Symbol.eq_of_asRule? hr] at hidden; cases hidden
  · exact bne_iff_ne.mp hc

/-- in a definition, blocks are in its body and nowhere else -/
theorem serves_body (hp : p ∈ productions) {n : Nonterminal}
    (hn : Machine.symbolOf p.variableIndex = .nonterminal n)
    (definition : n = .functionDefinition ∨ n = .classDefinition) :
    ∀ s ∈ p.steps, s.Serves .body (· = .block) := by
  intro s hs
  obtain ⟨r, x, hr, hx, hc⟩ := admits_of_mem hp hs
  rw [hn] at hr
  obtain rfl := Option.some.inj hr
  have parts : x.isWhole s.shown = true ∧
      (if s.field == some .body then x.isBody s.shown else x.isPlain) = true := by
    rcases definition with rfl | rfl <;>
      (simp only [Rule.admits, Bool.and_eq_true] at hc; exact hc.2)
  obtain ⟨whole, part⟩ := parts
  refine ⟨fun hf hshows => ?_, fun hf => ?_, ?_⟩
  · rw [hf] at part
    exact Step.kind_of_isBody hx part hshows
  · rw [if_neg (by simpa using hf)] at part
    exact Symbol.isPlain_of_asRule? hx part
  · exact (Step.shows_of_isWhole hx whole).imp_right .inl

/-- below decorators there is one definition, and no other -/
theorem serves_definition (hp : p ∈ productions)
    (hn : Machine.symbolOf p.variableIndex = .nonterminal .decoratedDefinition) :
    ∀ s ∈ p.steps, s.Serves .definition
      fun k => k = .functionDefinition ∨ k = .classDefinition := by
  intro s hs
  obtain ⟨r, x, hr, hx, hc⟩ := admits_of_mem hp hs
  rw [hn] at hr
  obtain rfl := Option.some.inj hr
  simp only [Rule.admits, Bool.and_eq_true] at hc
  obtain ⟨-, part⟩ := hc
  by_cases hf : s.field = some .definition
  · rw [hf, if_pos BEq.rfl, Bool.and_eq_true, Bool.or_eq_true, beq_iff_eq, beq_iff_eq,
      beq_iff_eq] at part
    obtain ⟨shown, rfl | rfl⟩ := part
    all_goals
      have symbol := Symbol.eq_of_asRule? hx
      refine ⟨fun _ _ => ?_, fun h => absurd hf h, .inl ?_⟩
    · rw [shown, symbol]; exact .inl rfl
    · rw [Step.shows, symbol]; exact Bool.or_true _
    · rw [shown, symbol]; exact .inr rfl
    · rw [Step.shows, symbol]; exact Bool.or_true _
  · rw [if_neg (by simpa using hf)] at part
    exact ⟨fun h => absurd h hf, fun _ => Symbol.isPlain_of_asRule? hx part,
      .inr (.inr ⟨rfl, hf⟩)⟩

end Production

/-! ## one part each -/

theorem countP_fills_body {n : Nonterminal} (h : n = .functionDefinition ∨ n = .classDefinition)
    (reps : List Rule) : (((Rule.of n).readings reps {} true).all fun x =>
      (inlineAll reps x.steps).all fun y => y.steps.countP (Step.fills .body) ≤ 1) = true := by
  rcases h with rfl | rfl <;> cbv

theorem countP_fills_definition (reps : List Rule) :
    (((Rule.of .decoratedDefinition).readings reps {} true).all fun x =>
      (inlineAll reps x.steps).all fun y =>
        y.steps.countP (Step.fills .definition) ≤ 1) = true := by
  cbv

/-- what holds of all readings of a symbol's rule holds of its productions -/
theorem Production.of_readings {p : Production} (hp : p ∈ productions) {n : Nonterminal}
    {q : List Step → Bool} (hn : Machine.symbolOf p.variableIndex = .nonterminal n)
    (h : (((Rule.of n).readings repetitions {} true).all fun x =>
      (inlineAll repetitions x.steps).all fun y => q y.steps) = true) : q p.steps = true := by
  rcases mem_productions hp with ⟨m, hm⟩ | ⟨k, r, hk, hm⟩
  · obtain ⟨hv, x, hx, y, hy, hsteps⟩ := mem_productionsOf hm
    rw [hv, Machine.symbolOf_rank] at hn
    obtain rfl := Symbol.nonterminal.inj hn
    rw [hsteps]
    exact List.all_eq_true.mp (List.all_eq_true.mp h x (List.mem_eraseDups.mp hx)) y hy
  · rw [(mem_productionsOf hm).1, Machine.symbolOf_repetition] at hn
    cases hn

theorem Production.countP_fills {p : Production} (hp : p ∈ productions) {n : Nonterminal}
    {f : Field} (hn : Machine.symbolOf p.variableIndex = .nonterminal n)
    (h : (((Rule.of n).readings repetitions {} true).all fun x =>
      (inlineAll repetitions x.steps).all fun y => y.steps.countP (Step.fills f) ≤ 1) = true) :
    p.steps.countP (Step.fills f) ≤ 1 :=
  of_decide_eq_true (of_readings (q := fun ss => ss.countP (Step.fills f) ≤ 1) hp hn h)

end Python
end AnnotationAudit
