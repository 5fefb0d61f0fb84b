import AnnotationAudit.Proofs.Gaps
import AnnotationAudit.Proofs.Parameters

/-!
# The text of dotted names

The node of an attribute is written as its object, a dot and its name, with nothing between them but
blanks, comments and line continuations. So whether the text of a dotted name is the name itself,
but for its blanks, can be told from its characters.

* `Node.Joins`, `Tree.Settled.joins`  how attributes are written;
* `Node.IsLegible`, `Machine.Whole.isLegible`  how all nodes of a text that fits are written;
* `Source.Spells`         a node is a dotted name;
* `Source.IsBare`         nothing but names, dots and blanks stands in the text of a node;
* `Source.dottedName_eq_iff`  what is left of a dotted name without its blanks.
-/

namespace AnnotationAudit
namespace Python

open Text

variable {text : String} {t : Tree}

/-! ## attributes -/

/-- the steps of an attribute: its object, a dot and its name -/
def objectStep : Step := .plain (.nonterminal .primaryExpression) (some .object)

def dotStep : Step := .plain (.terminal .dot) none

def nameStep : Step := .plain (.terminal .identifier) (some .attribute_)

theorem attribute_readings (reps : List Rule) :
    (((Rule.of .attributeAccess).readings reps {} true).all fun x =>
      (inlineAll reps x.steps).all fun y =>
        y.steps.map Step.marked == [objectStep, dotStep, nameStep].map Step.marked) = true := by
  cbv

/-- the node is written as its object, a dot and its name, with gaps between -/
structure Node.Joins (text : String) (n o a : Node) : Prop where
  name : a.kind = .identifier
  text : ∃ before behind, IsGap before ∧ IsGap behind ∧ (n.text text).toList =
    (o.text text).toList ++ (before ++ '.' :: (behind ++ (a.text text).toList))

/-- **An attribute is written as its object, a dot and its name.** -/
theorem Tree.Settled.joins (h : t.Settled text.toList)
    (symbol : t.symbol = .nonterminal .attributeAccess) {step : Option Step} {o a : Node}
    (ho : (Node.ofChild step t).child? .object = some o)
    (ha : (Node.ofChild step t).child? .attribute_ = some a) :
    (Node.ofChild step t).Joins text o a := by
  obtain ⟨x, es, y, fs, z, three, below, parts⟩ :=
    h.exists_three symbol (by decide) (attribute_readings repetitions)
  obtain ⟨before, behind, gap, gap', chars⟩ := three.chars_eq h below rfl rfl
  obtain ⟨hx, hy, hz, hes, hfs⟩ := three.mem
  obtain ⟨symx, symy, symz⟩ := three.symbols
  obtain ⟨m, -, -, text, object⟩ :=
    (below x hx).1.collect_expression symx rfl (some .object)
  have dot : Node.collect (some dotStep) none [] y = [(none, Node.ofChild (some dotStep) y)] :=
    Node.collect_of_shows symy rfl
  have name : Node.collect (some nameStep) none [] z =
      [(some .attribute_, Node.ofChild (some nameStep) z)] := Node.collect_of_shows symz rfl
  have object : Node.collect (some objectStep) none [] x = [(some .object, m)] := object
  have parts := (parts step).trans (three.collectAll_eq objectStep dotStep nameStep)
  rw [object, dot, name] at parts
  rw [Node.child?_eq, parts] at ho ha
  obtain rfl : m = o := Option.some.inj ho
  obtain rfl : a = Node.ofChild (some nameStep) z := by
    obtain ⟨d, found, rfl⟩ := Option.map_eq_some_iff.mp ha
    have plays : Node.plays .attribute_ d = true := List.find?_some found
    have called : d.1 = some .attribute_ := beq_iff_eq.mp plays
    have uncalled {gs : List Tree} (hgs : gs ⊆ t.children) (extras : ∀ g ∈ gs, g.extra = true)
        (hd : d ∈ gs.flatMap (Node.collect none none [])) : d.1 = none := by
      obtain ⟨g, hg, hd⟩ := List.mem_flatMap.mp hd
      obtain ⟨settled, extra⟩ := below g (hgs hg)
      exact (settled.of_mem_collect_extra (extra (extras g hg)) hd).1
    have mem := List.mem_of_find?_eq_some found
    simp only [List.mem_append, List.mem_singleton] at mem
    rcases mem with rfl | mem | rfl | mem | rfl
    · cases called
    · cases called.symm.trans (uncalled hes three.extras.1 mem)
    · cases called
    · cases called.symm.trans (uncalled hfs three.extras.2 mem)
    · rfl
  refine ⟨by rw [Node.kind_ofChild, symz]; rfl, before, behind, gap, gap', ?_⟩
  have letter : y.chars = ['.'] := ((below y hy).1.isRead symy).spelled "." rfl rfl
  rw [h.text_ofChild, text, (below z hz).1.text_ofChild, String.toList_ofList, String.toList_ofList,
    String.toList_ofList, chars, letter]
  rfl

/-! ## all nodes -/

def Rule.isWord : Rule → Bool
  | .terminal x => x.isKeyword
  | _ => false

/-- what may be shown: only words are shown as identifiers, and nothing is shown as an extra or a
decorator. Only the names of attributes are called attributes. -/
def Rule.writes (head : Rule) : Check := fun r k f =>
  !k.any (fun k => k.isExtra || k == .decorator) && (k != some .identifier || r.isWord) &&
    (f != some .attribute_ || head == .nonterminal .attributeAccess)

theorem Rule.writes_rules : (Nonterminal.all.all fun n =>
    (Rule.of n).every (Rule.unfolded (Rule.writes (.nonterminal n))) none none) = true := by
  decide +kernel

theorem Rule.writes_repeated : (Nonterminal.all.all fun n => (Rule.of n).repeated.all fun r =>
    (Rule.alt (.repeat1 r) r).every (Rule.unfolded (Rule.writes (.repeat1 r))) none none) =
      true := by
  decide +kernel

theorem Production.writes_of_mem {p : Production} {s : Step} (hp : p ∈ productions)
    (hs : s ∈ p.steps) :
    ∃ r x, (Machine.symbolOf p.variableIndex).asRule? repetitions = some r ∧
      s.symbol.asRule? repetitions = some x ∧ r.writes x s.shown s.field = true :=
  passes_of_mem Rule.writes_rules Rule.writes_repeated hp hs

/-- the only symbol whose nodes are of a kind, for some kinds -/
def Kind.symbol? : Kind → Option Symbol
  | .identifier => some (.terminal .identifier)
  | .comment => some (.terminal .comment)
  | .lineContinuation => some (.terminal .lineContinuation)
  | .decorator => some (.nonterminal .decorator)
  | _ => none

theorem Symbol.eq_of_symbol? {x y : Symbol} (h : x.kind.symbol? = some y) : x = y := by
  cases x with
  | terminal t => cases t <;> first | exact Option.some.inj h | cases h
  | nonterminal n => cases n <;> first | exact Option.some.inj h | cases h
  | _ => cases h

/-- the symbol of the node of a comment, a line continuation or a decorator -/
theorem Tree.StandsFor.symbol_eq {step : Option Step} (hs : t.StandsFor step) {k : Kind}
    (hk : (Node.ofChild step t).kind = k) (bare : (k.isExtra || k == .decorator) = true)
    {x : Symbol} (hx : k.symbol? = some x) : t.symbol = x := by
  rcases hs.kind_cases hk with kind | ⟨p, hp, s, mem, -, shown⟩
  · exact Symbol.eq_of_symbol? (kind ▸ hx)
  · obtain ⟨r, x, -, -, writes⟩ := Production.writes_of_mem hp mem
    rw [Rule.writes, shown, Option.any_some, bare] at writes
    cases writes

/-- an identifier has been read as a name, or as a word that is taken for one -/
theorem Tree.StandsFor.asName_eq {step : Option Step} (hs : t.StandsFor step)
    (hk : (Node.ofChild step t).kind = .identifier) :
    ∃ x : Terminal, t.symbol = .terminal x ∧ x.asName = .identifier := by
  rcases hs.kind_cases hk with kind | ⟨p, hp, s, mem, same, shown⟩
  · exact ⟨.identifier, Symbol.eq_of_symbol? (by rw [kind]; rfl), by decide⟩
  · obtain ⟨r, x, -, hx, writes⟩ := Production.writes_of_mem hp mem
    have word : x.isWord = true := by
      rw [Rule.writes, shown] at writes
      simpa using (Bool.and_eq_true_iff.mp (Bool.and_eq_true_iff.mp writes).1).2
    cases x with
    | terminal y =>
      have symbol : s.symbol = .terminal y := Symbol.eq_of_asRule? hx
      exact ⟨y, same.symm.trans symbol, if_pos word⟩
    | _ => cases word

theorem Field.symbol_of_attribute {p : Production} (hp : p ∈ productions) {s : Step}
    (hs : s ∈ p.steps) (hf : s.field = some .attribute_) :
    Machine.symbolOf p.variableIndex = .nonterminal .attributeAccess := by
  obtain ⟨r, x, hr, -, writes⟩ := Production.writes_of_mem hp hs
  rw [Rule.writes, hf, bne_self_eq_false, Bool.false_or, Bool.and_eq_true, beq_iff_eq] at writes
  obtain ⟨-, rfl⟩ := writes
  exact Symbol.eq_of_asRule? hr

theorem Field.isOuter_attribute : Field.IsOuter .attribute_ := by
  intro p hp hidden s hs hf
  rw [Field.symbol_of_attribute hp hs hf] at hidden
  cases hidden

/-- how names, attributes and line continuations are written -/
structure Node.IsLegible (text : String) (n : Node) : Prop where
  name : n.kind = .identifier → ∀ c ∈ (n.text text).toList, isIdentifierPart c = true
  joins : ∀ o ∈ n.child? .object, ∀ a ∈ n.child? .attribute_, n.Joins text o a
  continuation : n.kind = .lineContinuation → '\\' ∈ (n.text text).toList

theorem Tree.Settled.isLegible (h : t.Settled text.toList) {step : Option Step}
    (hs : t.StandsFor step) : (Node.ofChild step t).IsLegible text where
  name hk := by
    obtain ⟨x, symbol, name⟩ := hs.asName_eq hk
    rw [h.text_ofChild, String.toList_ofList]
    exact (h.isRead symbol).isIdentifierPart_of_mem name
  joins o ho a ha := by
    refine h.joins ?_ ho ha
    obtain ⟨d, found, rfl⟩ := Option.map_eq_some_iff.mp ha
    have plays : Node.plays .attribute_ d = true := List.find?_some found
    have mem := List.mem_of_find?_eq_some found
    rcases h.formed.filled h.cost with ⟨-, nil⟩ | ⟨p, symbol, filled, parts⟩
    · rw [Node.parts_eq_nil step nil] at mem
      exact absurd mem List.not_mem_nil
    · rw [parts step] at mem
      obtain ⟨s, hmem, field, -⟩ :=
        filled.step_of_part Field.isOuter_attribute mem (beq_iff_eq.mp plays)
      rw [← symbol, Field.symbol_of_attribute filled.mem hmem field]
  continuation hk := by
    have symbol := hs.symbol_eq hk rfl rfl
    obtain ⟨c, cs, all, first, -⟩ :=
      Pattern.exists_of_matches_seq ((h.isRead symbol).pattern _ rfl)
    rw [h.text_ofChild, String.toList_ofList, Tree.chars, all, beq_iff_eq.mp first]
    exact List.mem_cons_self

/-- **All nodes of a text that fits are written as they should be.** -/
theorem Machine.Whole.isLegible {text : String} (fits : (parse text.toList).Fits) :
    ∀ n ∈ (Node.ofTree (parse text.toList)).preorder, n.IsLegible text :=
  (whole_parse text.toList).forall_mem_preorder_of (Q := Tree.LiesIn text.toList)
    (fun _ h => h.down)
    (fun _ _ lies ht cost hs _ => Tree.Settled.isLegible ⟨lies, ht, cost⟩ hs)
    (liesIn_parse text.toList) fits

end Python

open Python Text

/-! ## dotted names -/

namespace Source

/-- the node is a dotted name: an identifier, or an attribute of a dotted name -/
inductive Spells (s : Source) : Node → List String → Prop where
  | name {n : Node} : n.kind = .identifier → Spells s n [s.textOf n]
  | access {n o a : Node} {names : List String} : n.child? .object = some o →
      n.child? .attribute_ = some a → Spells s o names → Spells s n (names ++ [s.textOf a])

/-- may the character stand in the text of a dotted name that has neither comments nor line
continuations in it? -/
def IsOfName (c : Char) : Prop := isBlank c = true ∨ isIdentifierPart c = true ∨ c = '.'

/-- nothing but names, dots and blanks stands in the text of the node: no comment, no line
continuation, and none of the characters without a width that may stand between tokens -/
def IsBare (s : Source) (n : Node) : Prop := ∀ c ∈ (s.textOf n).toList, IsOfName c

theorem isBlank_of_isGap {cs : List Char} (gap : IsGap cs) (bare : ∀ c ∈ cs, IsOfName c) :
    ∀ c ∈ cs, isBlank c = true := by
  have foreign : ¬ IsOfName '#' ∧ ¬ IsOfName '\\' := by
    unfold IsOfName
    decide +kernel
  have skipped := gap (fun hash => foreign.1 (bare _ hash))
    (fun backslash => foreign.2 (bare _ backslash))
  intro c hc
  rcases bare c hc with blank | part | rfl
  · exact blank
  · cases part.symm.trans (not_isIdentifierPart_of_isSeparator (skipped c hc))
  · cases skipped _ hc

variable {s : Source} {n : Node} {names : List String}

namespace Spells

theorem ne_nil (h : s.Spells n names) : names ≠ [] := by
  cases h with
  | name => exact List.cons_ne_nil _ _
  | access => exact List.append_ne_nil_of_right_ne_nil _ (List.cons_ne_nil _ _)

theorem toList_intercalate_concat (ne : names ≠ []) (name : String) :
    (".".intercalate (names ++ [name])).toList =
      (".".intercalate names).toList ++ '.' :: name.toList := by
  rw [String.intercalate_append_of_ne_nil ne (List.cons_ne_nil _ _), String.intercalate_singleton,
    String.toList_append, String.toList_append, List.append_assoc]
  rfl

/-- a name has letters and dots -/
theorem letters (h : s.Spells n names) (legible : ∀ m ∈ n.preorder, m.IsLegible s.text) :
    ∀ c ∈ (".".intercalate names).toList, isIdentifierPart c = true ∨ c = '.' := by
  induction h with
  | @name n hk =>
    rw [String.intercalate_singleton]
    exact fun c hc => .inl ((legible n n.mem_preorder_self).name hk c hc)
  | @access n o a names ho ha spells ih =>
    have names := ih fun m hm => legible m
      (Node.mem_preorder_trans (Node.mem_preorder_of_child? ho) hm)
    have kind := ((legible n n.mem_preorder_self).joins o ho a ha).name
    have name := (legible a (Node.mem_preorder_of_child? ha)).name kind
    rw [toList_intercalate_concat spells.ne_nil]
    refine List.forall_mem_append.mpr ⟨names, List.forall_mem_cons.mpr ⟨.inr rfl, ?_⟩⟩
    exact fun c hc => .inl (name c hc)

/-- without its blanks, the text of a bare name is the name -/
theorem filter_eq (h : s.Spells n names) (legible : ∀ m ∈ n.preorder, m.IsLegible s.text)
    (bare : s.IsBare n) :
    ((s.textOf n).toList.filter fun c => !isBlank c) = (".".intercalate names).toList := by
  have keeps {cs : List Char} (hcs : ∀ c ∈ cs, isIdentifierPart c = true) :
      (cs.filter fun c => !isBlank c) = cs :=
    List.filter_eq_self.mpr fun c hc => by rw [isBlank_of_isIdentifierPart (hcs c hc)]; rfl
  have drops {cs : List Char} (hcs : ∀ c ∈ cs, isBlank c = true) :
      (cs.filter fun c => !isBlank c) = [] :=
    List.filter_eq_nil_iff.mpr fun c hc => by rw [hcs c hc]; exact Bool.false_ne_true
  induction h with
  | @name n hk =>
    rw [String.intercalate_singleton]
    exact keeps ((legible n n.mem_preorder_self).name hk)
  | @access n o a names ho ha spells ih =>
    have joins := (legible n n.mem_preorder_self).joins o ho a ha
    obtain ⟨kind, before, behind, gap, gap', text⟩ := joins
    have name := (legible a (Node.mem_preorder_of_child? ha)).name kind
    have bare : ∀ c ∈ (n.text s.text).toList, IsOfName c := bare
    rw [text] at bare
    obtain ⟨object, bare⟩ := List.forall_mem_append.mp bare
    obtain ⟨first, bare⟩ := List.forall_mem_append.mp bare
    obtain ⟨second, -⟩ := List.forall_mem_append.mp (List.forall_mem_cons.mp bare).2
    have names := ih (fun m hm => legible m
      (Node.mem_preorder_trans (Node.mem_preorder_of_child? ho) hm)) object
    have dot : isBlank '.' = false := by decide
    show ((n.text s.text).toList.filter fun c => !isBlank c) = _
    rw [text, toList_intercalate_concat spells.ne_nil, List.filter_append, List.filter_append,
      List.filter_cons_of_pos (by rw [dot]; rfl), List.filter_append,
      drops (isBlank_of_isGap gap first), drops (isBlank_of_isGap gap' second), keeps name]
    exact congrArg (· ++ _) names

end Spells

/-- **A dotted name is what is left of its text without blanks if and only if the text is bare.** -/
theorem dottedName_eq_iff (h : s.Spells n names) (legible : ∀ m ∈ n.preorder, m.IsLegible s.text) :
    s.dottedName n = ".".intercalate names ↔ s.IsBare n := by
  rw [dottedName, ← String.toList_inj, String.toList_ofList]
  refine ⟨fun same c hc => ?_, h.filter_eq legible⟩
  by_cases blank : isBlank c = true
  · exact .inl blank
  · have kept : c ∈ (s.textOf n).toList.filter fun c => !isBlank c :=
      List.mem_filter.mpr ⟨hc, by simpa using blank⟩
    rw [same] at kept
    exact .inr (h.letters legible c kept)

end Source

end AnnotationAudit
