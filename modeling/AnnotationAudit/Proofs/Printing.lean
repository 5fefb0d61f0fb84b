import AnnotationAudit.Proofs.Skeletons

/-!
# Heads come back

What is written of the head of a function is read from the nodes that this makes.

* `Skeleton.Item.Reads`                  a node is read as one item of a parameter list;
* `Skeleton.Parameters.parameters_eq`    the parameters of a list, each with its kind and place;
* `Skeleton.Parameters.firstInvalid_eq_none`  legal lists pass the check of parameter lists;
* `Skeleton.decorators_eq`               the decorators above a function;
* `Skeleton.functionAt`                  the node of a function and what is read from it.
-/

namespace AnnotationAudit

open Python Text

namespace Skeleton

variable {s : Source} {p : Position}

/-! ## parameters -/

def Item.isLone : Item → Bool
  | .lone => true
  | .plain _ | .args _ | .kwargs _ => false

/-- the node of a name -/
structure Name.IsAt (text : String) (n : Name) (m : Node) : Prop where
  kind : m.kind = .identifier
  text_eq : m.text text = n.text

/-- the form in which the check of parameter lists sees an item -/
inductive Item.Forms (text : String) : Item → ParameterForm → Prop where
  | plain {x : Plain} {m : Node} (name : x.name.IsAt text m) :
      Forms text (.plain x) (.plain m x.hasDefault)
  | lone : Forms text .lone .separator
  | args {n : Name} {m : Node} (name : n.IsAt text m) : Forms text (.args n) (.splat m)
  | kwargs {n : Name} {m : Node} (name : n.IsAt text m) : Forms text (.kwargs n) (.splat m)

/-- a parameter without its place, at the place 0 -/
def declared (d : Source.Declaration) : Parameter := ⟨d.name, 0, d.kind, d.annotation, d.hasDefault⟩

/-- the node `n` is read as the item -/
structure Item.Reads (s : Source) (x : Item) (n : Node) : Prop where
  named : n.named = true
  declaration : ∀ plain, (s.declaration plain n).map declared = x.parameter plain
  separator : (n.kind == .keywordSeparator) = x.isLone
  form : x.Forms s.text (ParameterForm.ofNode n)

theorem Name.isAt {n : Name} (h : StandsAt s.text p n.text.toList) :
    n.IsAt s.text (.mk .identifier true false false p (p.run n.text.toList) []) :=
  ⟨rfl, h.slice_eq.trans String.ofList_toList⟩

theorem Name.type_text {n : Name} (part : Field) (h : StandsAt s.text p (n.type part).text) :
    Node.slice s.text p.offset (p.run (n.type part).text).offset = n.text := by
  rw [h.slice_eq]
  simp [Name.type, Name.token, Piece.text, Piece.textOf]

theorem Plain.reads {x : Plain} (h : StandsAt s.text p x.piece.text) :
    ∃ n, x.piece.nodes p = [(none, n)] ∧ (Item.plain x).Reads s n := by
  obtain ⟨n, annotation, hasDefault⟩ := x
  cases annotation with
  | none =>
    have made : ∀ {m : Node} (kind : ParameterKind), n.IsAt s.text m →
        some (⟨m.text s.text, 0, kind, none, hasDefault⟩ : Parameter) =
          (Item.plain ⟨n, none, hasDefault⟩).parameter kind := fun kind name => by
      rw [name.text_eq]
      rfl
    cases hasDefault with
    | false =>
      have name := Name.isAt h
      exact ⟨_, rfl, rfl, fun kind => made kind name, rfl, .plain name⟩
    | true =>
      have name := Name.isAt h.take
      exact ⟨_, rfl, rfl, fun kind => made kind name, rfl, .plain name⟩
  | some t =>
    have made : ∀ {m k : Node} (kind : ParameterKind), n.IsAt s.text m → k.text s.text = t.text →
        some (⟨m.text s.text, 0, kind, some (k.text s.text), hasDefault⟩ : Parameter) =
          (Item.plain ⟨n, some t, hasDefault⟩).parameter kind := fun kind name type => by
      rw [name.text_eq, type]
      rfl
    cases hasDefault with
    | false =>
      have name := Name.isAt h.take
      have type := Name.type_text (n := t) .type h.skip.skip.skip.take
      exact ⟨_, rfl, rfl, fun kind => made kind name type, rfl, .plain name⟩
    | true =>
      have name := Name.isAt h.take
      have type := Name.type_text (n := t) .type h.skip.skip.skip.take
      exact ⟨_, rfl, rfl, fun kind => made kind name type, rfl, .plain name⟩

theorem Item.reads {x : Item} (h : StandsAt s.text p x.piece.text) :
    ∃ n, x.piece.nodes p = [(none, n)] ∧ x.Reads s n := by
  cases x with
  | plain x => exact Plain.reads h
  | lone => exact ⟨_, rfl, rfl, fun _ => rfl, rfl, .lone⟩
  | args n =>
    have name := Name.isAt (n := n) h.skip.take
    refine ⟨_, rfl, rfl, fun _ => ?_, rfl, .args name⟩
    exact congrArg (fun t => some (⟨t, 0, .varPositional, none, false⟩ : Parameter)) name.text_eq
  | kwargs n =>
    have name := Name.isAt (n := n) h.skip.take
    refine ⟨_, rfl, rfl, fun _ => ?_, rfl, .kwargs name⟩
    exact congrArg (fun t => some (⟨t, 0, .varKeyword, none, false⟩ : Parameter)) name.text_eq

theorem reads_listed {xs : List Item} (h : StandsAt s.text p (Piece.textOf (listed xs))) :
    List.Forall₂ (Item.Reads s) xs
      (((Piece.nodesOf p (listed xs)).map (·.2)).filter Node.named) := by
  induction xs generalizing p with
  | nil => exact .nil
  | cons x xs ih =>
    cases xs with
    | nil =>
      obtain ⟨n, nodes, reads⟩ := Item.reads h.take
      rw [listed, Piece.nodesOf, nodes]
      simp only [Piece.nodesOf, List.append_nil, List.map_cons, List.map_nil]
      rw [List.filter_cons_of_pos reads.named]
      exact .cons reads .nil
    | cons y xs =>
      obtain ⟨n, nodes, reads⟩ := Item.reads h.take
      have rest := ih h.skip.skip.skip
      rw [listed, Piece.nodesOf, nodes]
      simp only [List.singleton_append, List.map_cons]
      rw [List.filter_cons_of_pos reads.named]
      exact .cons reads rest

/-- one more child of a list is lowered to the parameter that its item declares -/
theorem Item.Reads.parametersFrom_cons {x : Item} {n : Node} (h : x.Reads s n) (i : Nat)
    (keywordOnly : Bool) (ns : List Node) :
    s.parametersFrom i keywordOnly (n :: ns) =
      match x.parameter (if keywordOnly then .keywordOnly else .positional) with
      | some q => { q with position := i } ::
          s.parametersFrom (i + 1) (keywordOnly || q.kind == .varPositional) ns
      | none => s.parametersFrom i (keywordOnly || x.isLone) ns := by
  have made := h.declaration (if keywordOnly then .keywordOnly else .positional)
  rw [Source.parametersFrom, ← made, ← h.separator]
  cases s.declaration (if keywordOnly then .keywordOnly else .positional) n <;> rfl

theorem parametersFrom_keywordOnly {xs : List Item} {ns : List Node}
    (h : List.Forall₂ (Item.Reads s) xs ns) (i : Nat) :
    s.parametersFrom i true ns = numbered i (xs.filterMap (·.parameter .keywordOnly)) := by
  induction h generalizing i with
  | nil => rfl
  | @cons x n xs ns reads rest ih =>
    rw [reads.parametersFrom_cons, if_pos rfl, List.filterMap_cons]
    cases x.parameter .keywordOnly with
    | none => exact ih i
    | some q => exact congrArg _ (ih (i + 1))

theorem parametersFrom_behind {star : Star} {kwargs : Option Name} {ns : List Node}
    (h : List.Forall₂ (Item.Reads s) (star.items ++ (kwargs.map Item.kwargs).toList) ns)
    (i : Nat) : s.parametersFrom i false ns = numbered i
      ((star.items ++ (kwargs.map Item.kwargs).toList).filterMap (·.parameter .keywordOnly)) := by
  cases star with
  | none =>
    cases kwargs with
    | none =>
      cases h
      rfl
    | some k =>
      cases h with
      | cons reads rest =>
        cases rest
        exact reads.parametersFrom_cons i false []
  | lone first others =>
    cases h with
    | cons reads rest =>
      rw [reads.parametersFrom_cons]
      exact parametersFrom_keywordOnly rest i
  | args n others =>
    cases h with
    | cons reads rest =>
      rw [reads.parametersFrom_cons]
      exact congrArg _ (parametersFrom_keywordOnly rest (i + 1))

theorem parametersFrom_positional {xs : List Plain} {ys : List Item} {ns : List Node}
    (h : List.Forall₂ (Item.Reads s) (xs.map .plain ++ ys) ns) {qs : List Parameter}
    (behind : ∀ i ns, List.Forall₂ (Item.Reads s) ys ns →
      s.parametersFrom i false ns = numbered i qs) (i : Nat) : s.parametersFrom i false ns =
      numbered i ((xs.map Item.plain).filterMap (·.parameter .positional) ++ qs) := by
  induction xs generalizing ns i with
  | nil => exact behind i ns h
  | cons x xs ih =>
    cases h with
    | cons reads rest =>
      rw [reads.parametersFrom_cons]
      exact congrArg _ (ih rest (i + 1))

/-- **The parameters of a list come back**, each with its kind and place. -/
theorem Parameters.parameters_eq {ps : Parameters} {n : Node}
    (h : List.Forall₂ (Item.Reads s) ps.items n.namedChildren) :
    s.parameters n = ps.declared := by
  rw [Parameters.items, itemsOf, List.append_assoc] at h
  exact parametersFrom_positional h (fun i ns behind => parametersFrom_behind behind i) 0

/-! ## the check of parameter lists -/

theorem Name.IsAt.declare {n : Name} {m : Node} {source : String} (h : n.IsAt source m)
    {d : Declared} (new : n.text ∉ d.names) :
    d.declare source m = some { d with names := n.text :: d.names } := by
  have unseen : ¬ d.names.contains n.text = true := fun seen => new (List.contains_iff_mem.mp seen)
  rw [Declared.declare, h.kind, h.text_eq, if_pos (beq_self_eq_true _)]
  exact if_neg unseen

/-- the names of the items are all new, and no two are the same -/
structure AreNew (xs : List Item) (d : Declared) : Prop where
  distinct : (xs.filterMap Item.name?).Nodup
  new : ∀ t ∈ xs.filterMap Item.name?, t ∉ d.names

theorem AreNew.tail {x : Item} {xs : List Item} {d d' : Declared} (h : AreNew (x :: xs) d)
    (names : ∀ t ∈ d'.names, t ∈ x.name? ∨ t ∈ d.names) : AreNew xs d' := by
  obtain ⟨distinct, new⟩ := h
  rw [List.filterMap_cons] at distinct new
  cases hx : x.name? with
  | none =>
    rw [hx] at distinct new names
    refine ⟨distinct, fun t ht seen => ?_⟩
    exact (names t seen).elim (fun h => Option.not_mem_none t h) (new t ht)
  | some u =>
    rw [hx] at distinct new names
    obtain ⟨unlike, distinct⟩ := List.nodup_cons.mp distinct
    refine ⟨distinct, fun t ht seen => ?_⟩
    rcases names t seen with h | h
    · obtain rfl := Option.some.inj h
      exact unlike ht
    · exact new t (List.mem_cons_of_mem _ ht) h

theorem AreNew.head {x : Item} {xs : List Item} {d : Declared} (h : AreNew (x :: xs) d)
    {t : String} (ht : x.name? = some t) : t ∉ d.names := by
  refine h.new t ?_
  rw [List.filterMap_cons, ht]
  exact List.mem_cons_self

/-- behind a star anything goes, and what has stars goes anywhere -/
theorem Item.Reads.add_behind {x : Item} {n : Node} (h : x.Reads s n) {d : Declared}
    {xs : List Item} (new : AreNew (x :: xs) d)
    (behind : ∀ q, x = .plain q → d.keywordOnly = true) :
    ∃ d', d.add s.text n = some d' ∧ d'.keywordOnly = true ∧ AreNew xs d' := by
  have form := h.form
  rw [Declared.add]
  generalize ParameterForm.ofNode n = seen at form
  cases form with
  | @plain q m name =>
    have only := behind q rfl
    refine ⟨_, (if_pos only).trans (name.declare (new.head rfl)), only, new.tail ?_⟩
    exact fun t ht => (List.mem_cons.mp ht).imp_left fun h => congrArg some h.symm
  | lone => exact ⟨_, rfl, rfl, new.tail fun t ht => .inr ht⟩
  | args name | kwargs name =>
    refine ⟨_, name.declare (new.head rfl), rfl, new.tail ?_⟩
    exact fun t ht => (List.mem_cons.mp ht).imp_left fun h => congrArg some h.symm

theorem Item.Reads.add_positional {q : Plain} {n : Node} (h : (Item.plain q).Reads s n)
    {d : Declared} {xs : List Item} (new : AreNew (.plain q :: xs) d)
    (positional : d.keywordOnly = false) (order : d.afterDefault = true → q.hasDefault = true) :
    ∃ d', d.add s.text n = some d' ∧ d'.keywordOnly = false ∧
      (d'.afterDefault = true → d.afterDefault = true ∨ q.hasDefault = true) ∧ AreNew xs d' := by
  have form := h.form
  obtain ⟨names, after, only⟩ := d
  obtain rfl : only = false := positional
  have seen : ∀ t ∈ q.name.text :: names, t ∈ (Item.plain q).name? ∨ t ∈ names :=
    fun t ht => (List.mem_cons.mp ht).imp_left fun h => congrArg some h.symm
  rw [Declared.add]
  generalize ParameterForm.ofNode n = form' at form
  cases form with
  | plain name =>
    cases given : q.hasDefault with
    | true => exact ⟨_, name.declare (new.head rfl), rfl, fun _ => .inr rfl, new.tail seen⟩
    | false =>
      cases after with
      | true => exact absurd (given.symm.trans (order rfl)) Bool.false_ne_true
      | false => exact ⟨_, name.declare (new.head rfl), rfl, fun h => .inl h, new.tail seen⟩

theorem firstInvalidFrom_behind {xs : List Item} {ns : List Node}
    (h : List.Forall₂ (Item.Reads s) xs ns) {d : Declared} (new : AreNew xs d)
    (behind : ∀ q, xs.head? = some (.plain q) → d.keywordOnly = true) :
    firstInvalidFrom s.text d ns = none := by
  induction h generalizing d with
  | nil => rfl
  | @cons x n xs ns reads rest ih =>
    obtain ⟨d', added, only, new'⟩ := reads.add_behind new fun q hq => behind q (congrArg some hq)
    rw [firstInvalidFrom, added]
    exact ih new' fun _ _ => only

theorem firstInvalidFrom_positional {ps : List Plain} {ys : List Item} {ns : List Node}
    (h : List.Forall₂ (Item.Reads s) (ps.map .plain ++ ys) ns) {d : Declared}
    (new : AreNew (ps.map .plain ++ ys) d) (positional : d.keywordOnly = false)
    (ordered : ps.Pairwise fun p q => p.hasDefault = true → q.hasDefault = true)
    (after : d.afterDefault = true → ∀ p ∈ ps, p.hasDefault = true)
    (starred : ∀ q, ys.head? ≠ some (.plain q)) : firstInvalidFrom s.text d ns = none := by
  induction ps generalizing ns d with
  | nil => exact firstInvalidFrom_behind h new fun q hq => absurd hq (starred q)
  | cons p ps ih =>
    obtain ⟨first, ordered⟩ := List.pairwise_cons.mp ordered
    cases h with
    | cons reads rest =>
      obtain ⟨d', added, positional', defaults, new'⟩ := reads.add_positional new positional
        fun h => after h p List.mem_cons_self
      rw [firstInvalidFrom, added]
      refine ih rest new' positional' ordered fun h q hq => ?_
      rcases defaults h with h | h
      · exact after h q (List.mem_cons_of_mem _ hq)
      · exact first q hq h

/-- **Legal parameter lists pass the check.** -/
theorem Parameters.firstInvalid_eq_none {ps : Parameters} {n : Node}
    (h : List.Forall₂ (Item.Reads s) ps.items n.namedChildren) : firstInvalid s.text n = none := by
  have new : AreNew ps.items {} := ⟨ps.distinct, fun _ _ => List.not_mem_nil⟩
  rw [Parameters.items, itemsOf, List.append_assoc] at h new
  refine firstInvalidFrom_positional h new rfl ps.ordered nofun fun q hq => ?_
  cases hs : ps.star with
  | none =>
    rw [hs] at hq
    cases hk : ps.kwargs with
    | none => rw [hk] at hq; cases hq
    | some k => rw [hk] at hq; cases hq
  | lone first others => rw [hs] at hq; cases hq
  | args n others => rw [hs] at hq; cases hq

/-! ## decorators -/

theorem isBlank_of_isNameChar {c : Char} (h : isNameChar c = true) : isBlank c = false := by
  rw [isNameChar, Bool.or_eq_true, beq_iff_eq] at h
  have range : 48 ≤ c.toNat ∧ c.toNat ≤ 122 := by
    rcases h with h | rfl
    · have same : c.toNat = c.val.toNat := rfl
      have codes : ((decide (65 ≤ c.val ∧ c.val ≤ 90) ||
          (decide (97 ≤ c.val) && decide (c.val ≤ 122))) ||
          (decide (48 ≤ c.val) && decide (c.val ≤ 57))) = true := h
      simp [UInt32.le_iff_toNat_le] at codes
      omega
    · decide
  simp [isBlank, blankRanges]
  omega

theorem Dotted.text_piece (part : Option Field) (d : Dotted) :
    (d.piece part).text = d.text.toList := by
  induction d generalizing part with
  | name n => rfl
  | member d n ih =>
    simp [piece, Name.token, Piece.text, Piece.textOf, text, ih]

theorem Dotted.isBlank_eq_false (d : Dotted) : ∀ c ∈ d.text.toList, isBlank c = false := by
  induction d with
  | name n => exact fun c hc => isBlank_of_isNameChar (n.chars c hc)
  | member d n ih =>
    have dot : isBlank '.' = false := by decide
    have name : ∀ c ∈ n.text.toList, isBlank c = false :=
      fun c hc => isBlank_of_isNameChar (n.chars c hc)
    rw [text, String.toList_append, String.toList_append]
    exact List.forall_mem_append.mpr ⟨List.forall_mem_append.mpr
      ⟨ih, List.forall_mem_singleton.mpr dot⟩, name⟩

/-- the node of a dotted name, and what it is read as -/
theorem Dotted.reads {part : Option Field} {d : Dotted}
    (h : StandsAt s.text p (d.piece part).text) :
    ∃ n, (d.piece part).nodes p = [(part, n)] ∧ n.named = true ∧ n.kind ≠ .comment ∧
      s.decoratorName n = d.text := by
  have text := h.slice_eq
  rw [d.text_piece, String.ofList_toList] at text
  have dotted : ∀ {n : Node}, n.text s.text = d.text → s.dottedName n = d.text := by
    intro n hn
    rw [Source.dottedName, Source.textOf, hn, List.filter_eq_self.mpr, String.ofList_toList]
    exact fun c hc => by rw [d.isBlank_eq_false c hc]; rfl
  cases d with
  | name n => exact ⟨_, rfl, rfl, nofun, dotted text⟩
  | member d n =>
    rw [← Dotted.text_piece part] at text
    exact ⟨_, rfl, rfl, nofun, dotted text⟩

theorem decorators_append (cs ds : List (Option Field × Node)) :
    s.decorators (cs ++ ds) = s.decorators cs ++ s.decorators ds := by
  simp [Source.decorators]

theorem decorators_singleton {part : Option Field} {d n : Node} (kind : d.kind = .decorator)
    (named : d.named = true) (children : d.namedChildren = [n]) (other : n.kind ≠ .comment) :
    s.decorators [(part, d)] = [Decorator.ofName (s.decoratorName n)] := by
  simp [Source.decorators, kind, named, children, other]

theorem Dotted.decorators_line {depth : Nat} {d : Dotted}
    (h : StandsAt s.text p (Piece.textOf (d.line depth))) :
    s.decorators (Piece.nodesOf p (d.line depth)) = [Decorator.ofName d.text] := by
  obtain ⟨n, nodes, named, other, name⟩ := Dotted.reads h.take.skip.take
  have nodes : (d.piece none).nodes (p.run ['@']) = [(none, n)] := nodes
  have children : ((Piece.nodesOf p [.mark ['@'], d.piece none]).map (·.2)).filter Node.named =
      [n] := by
    show List.filter Node.named (_ :: (Piece.nodes (p.run ['@']) (d.piece none) ++ []).map _) = _
    rw [nodes, List.filter_cons_of_neg Bool.false_ne_true]
    exact List.filter_cons_of_pos named
  rw [← name]
  exact decorators_singleton rfl rfl children other

theorem decorators_eq {depth : Nat} {ds : List Dotted}
    (h : StandsAt s.text p (Piece.textOf (ds.flatMap (·.line depth)))) :
    s.decorators (Piece.nodesOf p (ds.flatMap (·.line depth))) =
      ds.map fun d => Decorator.ofName d.text := by
  induction ds generalizing p with
  | nil => rfl
  | cons d ds ih =>
    rw [List.flatMap_cons, Piece.textOf_append] at h
    rw [List.flatMap_cons, Piece.nodesOf_append, decorators_append, d.decorators_line h.take,
      ih h.skip]
    rfl

/-! ## definitions -/

/-- the children of a parameter list are read as its items -/
theorem Parameters.reads {ps : Parameters} (h : StandsAt s.text p ps.piece.text) :
    List.Forall₂ (Item.Reads s) ps.items (Node.namedChildren (.mk .parameters true false false p
      (p.run ps.piece.text) (Piece.nodesOf p (.mark ['('] :: (listed ps.items ++ [.mark [')']])))))
    := by
  have inner : StandsAt s.text p (['('] ++ Piece.textOf (listed ps.items ++ [.mark [')']])) := h
  have items := inner.skip
  rw [Piece.textOf_append] at items
  have reads := reads_listed items.take
  show List.Forall₂ _ _ (List.filter Node.named
    ((_ :: Piece.nodesOf (p.run ['(']) (listed ps.items ++ [.mark [')']])).map _))
  rw [Piece.nodesOf_append, List.map_cons, List.filter_cons_of_neg Bool.false_ne_true,
    List.map_append, List.filter_append]
  have closing : List.filter Node.named ((Piece.nodesOf ((p.run ['(']).run
      (Piece.textOf (listed ps.items))) [.mark [')']]).map (·.2)) = [] := rfl
  rw [closing, List.append_nil]
  exact reads

def functionAt (p : Position) (h : Head) (rest : List Piece) : Node :=
  .mk .functionDefinition true false false p (p.run (Piece.textOf (h.pieces ++ rest)))
    (Piece.nodesOf p (h.pieces ++ rest))

theorem fieldText_name {h : Head} (stands : StandsAt s.text p (Piece.textOf h.pieces))
    (rest : List Piece) : s.fieldText (functionAt p h rest) .name = h.name.text := by
  have name : StandsAt s.text ((p.run ['d', 'e', 'f']).run [' ']) h.name.text.toList :=
    stands.skip.skip.take
  exact (Name.isAt name).text_eq

theorem parameters_functionAt {h : Head} (stands : StandsAt s.text p (Piece.textOf h.pieces))
    (rest : List Piece) :
    ((functionAt p h rest).child? .parameters).map s.parameters = some h.parameters.declared := by
  have list : StandsAt s.text (((p.run ['d', 'e', 'f']).run [' ']).run h.name.text.toList)
      h.parameters.piece.text := stands.skip.skip.skip.take
  exact congrArg some (Parameters.parameters_eq (Parameters.reads list))

theorem returns_functionAt {h : Head} (stands : StandsAt s.text p (Piece.textOf h.pieces))
    (depth : Nat) (body : List Piece) :
    ((functionAt p h (block depth body)).child? .returnType).map s.textOf =
      h.returns.map (·.text) := by
  obtain ⟨name, decorators, parameters, returns, note⟩ := h
  cases returns with
  | none => cases note <;> rfl
  | some t =>
    have type := Name.type_text (n := t) .returnType
      stands.skip.skip.skip.skip.skip.skip.skip.take
    cases note <;> exact congrArg some type

/-- what comes before the body of a definition plays another part -/
theorem bodyOf_block {before : List Piece} (head : ∀ c ∈ Piece.nodesOf p before, c.1 ≠ some .body)
    (scope : Scope) (depth : Nat) (body : List Piece) :
    s.bodyOf scope (Piece.nodesOf p (before ++ block depth body)) = s.definitions scope
      (Piece.nodesOf (bodyStart depth (p.run (Piece.textOf before))) body) := by
  rw [Piece.nodesOf_append]
  generalize Piece.nodesOf p before = cs at head
  induction cs with
  | nil => rfl
  | cons c cs ih =>
    obtain ⟨first, rest⟩ := List.forall_mem_cons.mp head
    rw [List.cons_append, Source.bodyOf, if_neg fun body => first (beq_iff_eq.mp body)]
    exact ih rest

theorem ne_body_of_all {cs : List (Option Field × Node)}
    (h : (cs.all fun c => c.1 != some .body) = true) : ∀ c ∈ cs, c.1 ≠ some .body :=
  fun c hc => bne_iff_ne.mp (List.all_eq_true.mp h c hc)

theorem Head.ne_body (h : Head) (p : Position) : ∀ c ∈ Piece.nodesOf p h.pieces,
    c.1 ≠ some .body := by
  obtain ⟨name, decorators, parameters, returns, note⟩ := h
  refine ne_body_of_all ?_
  cases returns <;> cases note <;> rfl

end Skeleton

end AnnotationAudit
