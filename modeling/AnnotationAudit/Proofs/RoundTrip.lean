import AnnotationAudit.Proofs.CommentWalk
import AnnotationAudit.Proofs.Printing

/-!
# Skeletons come back

The outline of a printed skeleton, with the syntax tree that goes with it, is the skeleton. It holds
at any depth: an indentation only has to be read as such to be read back.

* `Agrees`                      which comments a text has on some rows;
* `Skeleton.definitions_piece`  the definitions at the nodes of a skeleton;
* `Skeleton.valid_piece`        nothing is refused at them;
* `Skeleton.check_print`        so the outline of what is printed is what has been printed.
-/

namespace AnnotationAudit

open Python Text

/-! ## comments on rows -/

def onRow (row : Nat) (cs : List (Nat × String)) : List String :=
  (cs.filter fun c => c.1 == row).map (·.2)

theorem onRow_append (row : Nat) (cs ds : List (Nat × String)) :
    onRow row (cs ++ ds) = onRow row cs ++ onRow row ds := by
  rw [onRow, List.filter_append, List.map_append]
  rfl

theorem onRow_eq_nil {row : Nat} {cs : List (Nat × String)} (h : ∀ c ∈ cs, c.1 ≠ row) :
    onRow row cs = [] := by
  have none : (cs.filter fun c => c.1 == row) = [] :=
    List.filter_eq_nil_iff.mpr fun c hc same => h c hc (beq_iff_eq.mp same)
  rw [onRow, none]
  rfl

theorem onRow_commentsOf (row : Nat) (text : String) (ns : List Node) :
    onRow row (Piece.commentsOf text ns) = (CommentMap.found row ns).map (·.text text) := by
  rw [onRow, Piece.commentsOf, List.filter_map, List.map_map, List.filter_filter]
  exact congrArg (List.map _) (List.filter_congr fun _ _ => Bool.and_comm _ _)

/-- the comments on the rows from `low` on and before `high` are those among `cs` -/
def Agrees (s : Source) (low high : Nat) (cs : List (Nat × String)) : Prop :=
  ∀ row, low ≤ row → row < high → s.commentsOn row = onRow row cs

namespace Agrees

variable {s : Source} {low high : Nat} {cs ds : List (Nat × String)}

theorem mono (h : Agrees s low high cs) {low' high' : Nat} (first : low ≤ low')
    (last : high' ≤ high) : Agrees s low' high' cs :=
  fun row above below => h row (first.trans above) (below.trans_le last)

theorem left (h : Agrees s low high (cs ++ ds)) (mid : Nat) (within : mid ≤ high)
    (behind : ∀ d ∈ ds, mid ≤ d.1) : Agrees s low mid cs := by
  intro row first last
  have none : onRow row ds = [] := onRow_eq_nil fun d hd => by
    have := behind d hd
    omega
  rw [h row first (by omega), onRow_append, none, List.append_nil]

theorem right (h : Agrees s low high (cs ++ ds)) {mid : Nat} (within : low ≤ mid)
    (before : ∀ c ∈ cs, c.1 < mid) : Agrees s mid high ds := by
  intro row first last
  have none : onRow row cs = [] := onRow_eq_nil fun c hc => by
    have := before c hc
    omega
  rw [h row (by omega) last, onRow_append, none, List.nil_append]

end Agrees

namespace Skeleton

variable {s : Source} {p : Position}

mutual

theorem mem_notes (row : Nat) : ∀ x : Skeleton, ∀ c ∈ x.notes row,
    row ≤ c.1 ∧ c.1 < row + x.height
  | .function h body, c, hc => by
    rw [height]
    rw [notes] at hc
    rcases List.mem_append.mp hc with own | below
    · obtain ⟨n, -, rfl⟩ := Option.map_eq_some_iff.mp (Option.mem_toList.mp own)
      show row ≤ row + _ ∧ row + _ < _
      omega
    · have := mem_notesOf _ body c below
      omega
  | .classDef n body, c, hc => by
    have := mem_notesOf _ body c hc
    rw [height]
    omega

theorem mem_notesOf (row : Nat) : ∀ xs : List Skeleton, ∀ c ∈ notesOf row xs,
    row ≤ c.1 ∧ c.1 < row + heightOf xs
  | [], c, hc => absurd hc List.not_mem_nil
  | x :: xs, c, hc => by
    rw [heightOf]
    rw [notesOf] at hc
    rcases List.mem_append.mp hc with first | rest
    · have := mem_notes row x c first
      omega
    · have := mem_notesOf _ xs c rest
      omega

end

/-- the comments of the first skeleton, and those of the others -/
theorem agrees_cons {row : Nat} {x : Skeleton} {xs : List Skeleton}
    (h : Agrees s row (row + heightOf (x :: xs)) (notesOf row (x :: xs))) :
    Agrees s row (row + x.height) (x.notes row) ∧
      Agrees s (row + x.height) (row + x.height + heightOf xs) (notesOf (row + x.height) xs) := by
  rw [heightOf, notesOf, ← Nat.add_assoc] at h
  exact ⟨h.left _ (Nat.le_add_right _ _) fun c hc => (mem_notesOf _ xs c hc).1,
    h.right (Nat.le_add_right _ _) fun c hc => (mem_notes _ x c hc).2⟩

/-- the comment behind the head of a function is the only one on its row -/
theorem agrees_function {h : Head} {row : Nat} {body : List Skeleton}
    (agrees : Agrees s row (row + height (.function h body)) (notes row (.function h body))) :
    s.commentsOn (row + h.decorators.length) = (h.note.map Note.comment).toList ∧
      Agrees s (row + h.decorators.length + 2) (row + h.decorators.length + 2 + heightOf body)
        (notesOf (row + h.decorators.length + 2) body) := by
  rw [height, notes] at agrees
  generalize def_row : row + h.decorators.length = r at agrees ⊢
  have rows := mem_notesOf (r + 2) body
  constructor
  · have own := agrees.left (r + 1) (by omega) fun c hc => by
      have := rows c hc
      omega
    rw [own r (by omega) (Nat.lt_succ_self r)]
    cases h.note with
    | none => rfl
    | some n => simp [onRow]
  · refine (agrees.right (by omega) fun c hc => ?_).mono (Nat.le_refl _) (by omega)
    obtain ⟨n, -, rfl⟩ := Option.map_eq_some_iff.mp (Option.mem_toList.mp hc)
    exact Nat.lt_add_of_pos_right Nat.two_pos

/-! ## definitions -/

theorem signature_functionAt {h : Head} (stands : StandsAt s.text p (Piece.textOf h.pieces))
    (scope : Scope) (depth : Nat) (body : List Piece) (line : Nat)
    (row : p.row + 1 = line + h.decorators.length)
    (comments : s.commentsOn p.row = (h.note.map Note.comment).toList) :
    s.signature scope (h.decorators.map fun d => Decorator.ofName d.text)
      (functionAt p h (block depth body)) = h.signature scope line := by
  rw [Source.signature, fieldText_name stands, parameters_functionAt stands,
    returns_functionAt stands, Head.signature, ← row]
  exact congrArg _ comments

/-- decorators are no definition -/
theorem decorated_append {before : List (Option Field × Node)}
    (head : ∀ c ∈ before, c.1 ≠ some .definition) (scope : Scope) (ds : List Decorator)
    (cs : List (Option Field × Node)) :
    s.decorated scope ds (before ++ cs) = s.decorated scope ds cs := by
  induction before with
  | nil => rfl
  | cons c before ih =>
    obtain ⟨first, rest⟩ := List.forall_mem_cons.mp head
    rw [List.cons_append, Source.decorated, if_neg fun same => first (beq_iff_eq.mp same)]
    exact ih rest

theorem ne_definition_decorators (depth : Nat) (ds : List Dotted) (p : Position) :
    ∀ c ∈ Piece.nodesOf p (ds.flatMap (·.line depth)), c.1 ≠ some .definition := by
  induction ds generalizing p with
  | nil => exact fun c hc => absurd hc List.not_mem_nil
  | cons d ds ih =>
    rw [List.flatMap_cons, Piece.nodesOf_append]
    intro c hc
    rcases List.mem_append.mp hc with first | rest
    · obtain rfl := List.mem_singleton.mp first
      nofun
    · exact ih _ c rest

/-- a function below its decorators, if it has any -/
theorem definitions_decorated {h : Head} {rest : List Piece} {depth : Nat} {scope : Scope}
    {x : List Decorator → Definition}
    (stands : StandsAt s.text p (Piece.textOf (h.decorators.flatMap (·.line depth))))
    (made : ∀ ds, s.decoratedAt scope ds (functionAt
      (p.run (Piece.textOf (h.decorators.flatMap (·.line depth)))) h rest) = [x ds]) :
    s.definitions scope (Piece.nodes p (.node none .decoratedDefinition
      (h.decorators.flatMap (·.line depth) ++
        [.node (some .definition) .functionDefinition (h.pieces ++ rest)]))) =
      [x (h.decorators.map fun d => Decorator.ofName d.text)] := by
  show s.decorated scope (s.decorators _) _ ++ [] = _
  rw [List.append_nil, Piece.nodesOf_append, decorators_append, decorators_eq stands,
    decorated_append (ne_definition_decorators depth h.decorators p)]
  have none : s.decorators (Piece.nodesOf
      (p.run (Piece.textOf (h.decorators.flatMap (·.line depth))))
      [.node (some .definition) .functionDefinition (h.pieces ++ rest)]) = [] := rfl
  rw [none, List.append_nil]
  exact made _

theorem definitions_append (scope : Scope) (cs ds : List (Option Field × Node)) :
    s.definitions scope (cs ++ ds) = s.definitions scope cs ++ s.definitions scope ds := by
  induction cs with
  | nil => rfl
  | cons c cs ih =>
    rw [List.cons_append, Source.definitions, Source.definitions, ih, List.append_assoc]

theorem stands_block {text : String} {depth : Nat} {body : List Piece}
    (h : StandsAt text p (Piece.textOf (block depth body))) :
    StandsAt text (bodyStart depth p) (Piece.textOf body) :=
  h.skip.take.skip

theorem ne_body_classPieces (n : Name) (p : Position) :
    ∀ c ∈ Piece.nodesOf p (classPieces n), c.1 ≠ some .body :=
  ne_body_of_all rfl

mutual

/-- **The definitions at the nodes of a skeleton are those of the skeleton.** -/
theorem definitions_piece (depth : Nat) (scope : Scope) : ∀ (x : Skeleton) {p : Position}
    {row : Nat}, p.row = row → StandsAt s.text p (x.piece depth).text →
      Agrees s row (row + x.height) (x.notes row) →
      s.definitions scope ((x.piece depth).nodes p) = [x.definition scope (row + 1)]
  | .function h body, p, row, first, stands, agrees => by
    obtain ⟨comments, behind⟩ := agrees_function agrees
    have function : ∀ q : Position, q.row = row + h.decorators.length →
        StandsAt s.text q
          (Piece.textOf (h.pieces ++ block (depth + 1) (inBody (depth + 1) body))) →
        [Definition.function
          (s.signature scope (h.decorators.map fun d => Decorator.ofName d.text)
            (functionAt q h (block (depth + 1) (inBody (depth + 1) body))))
          (s.bodyOf .inFunction
            (Piece.nodesOf q (h.pieces ++ block (depth + 1) (inBody (depth + 1) body))))] =
          [definition scope (row + 1) (.function h body)] := by
      intro q def_row stands
      rw [Piece.textOf_append] at stands
      have head := signature_functionAt stands.take scope (depth + 1) (inBody (depth + 1) body)
        (row + 1) (by omega) (def_row ▸ comments)
      have start : (bodyStart (depth + 1) (q.run (Piece.textOf h.pieces))).row + 1 =
          row + h.decorators.length + 2 := by
        rw [row_bodyStart, row_of_count h.count_pieces, def_row]
      have below := definitions_inBody (depth + 1) .inFunction body start
        (stands_block stands.skip) behind
      have line : row + h.decorators.length + 2 + 1 = row + 1 + h.decorators.length + 2 := by omega
      rw [head, bodyOf_block (h.ne_body q), below, definition, line]
    rw [piece] at stands ⊢
    split at stands
    · next none =>
      rw [none] at function
      exact function p first stands
    · rw [Piece.text, Piece.textOf_append, Piece.textOf, Piece.textOf, List.append_nil] at stands
      refine (definitions_decorated stands.take fun ds => rfl).trans (function _ ?_ stands.skip)
      rw [row_decorators, first]
  | .classDef n body, p, row, first, stands, agrees => by
    have whole : StandsAt s.text p (Piece.textOf (classPieces n ++
        block (depth + 1) (inBody (depth + 1) body))) := stands
    rw [Piece.textOf_append] at whole
    rw [height, notes, ← Nat.add_assoc] at agrees
    have name := (Name.isAt (n := n) (s := s) whole.take.skip.skip.take).text_eq
    have start : (bodyStart (depth + 1) (p.run (Piece.textOf (classPieces n)))).row + 1 =
        row + 2 := by
      rw [row_bodyStart, row_of_count (count_classPieces n), first]
    have below := definitions_inBody (depth + 1) .inClass body start (stands_block whole.skip)
      (agrees.mono (Nat.le_add_right _ _) (Nat.le_refl _))
    rw [← bodyOf_block (ne_body_classPieces n p)] at below
    have line : row + 1 + 2 = row + 2 + 1 := rfl
    rw [definition, line, ← below, ← name]
    rfl

theorem definitions_inBody (depth : Nat) (scope : Scope) : ∀ (xs : List Skeleton) {p : Position}
    {row : Nat}, p.row + 1 = row → StandsAt s.text p (Piece.textOf (inBody depth xs)) →
      Agrees s row (row + heightOf xs) (notesOf row xs) →
      s.definitions scope (Piece.nodesOf p (inBody depth xs)) = definitions scope (row + 1) xs
  | [], _, _, _, _, _ => rfl
  | x :: xs, p, row, first, stands, agrees => by
    obtain ⟨own, behind⟩ := agrees_cons agrees
    have here : (p.run (newLine depth)).row = row := (row_newLine depth p).trans first
    have next : ((p.run (newLine depth)).run (x.piece depth).text).row + 1 = row + x.height := by
      rw [row_piece, here]
    have one := definitions_piece depth scope x here stands.skip.take own
    have rest := definitions_inBody depth scope xs next stands.skip.skip behind
    show s.definitions scope ((x.piece depth).nodes (p.run (newLine depth)) ++ _) = _
    rw [definitions_append, one, definitions, Nat.add_right_comm]
    exact congrArg (_ :: ·) rest

end

theorem definitions_inModule (xs : List Skeleton) {p : Position} {row : Nat} (first : p.row = row)
    (stands : StandsAt s.text p (Piece.textOf (inModule xs)))
    (agrees : Agrees s row (row + heightOf xs) (notesOf row xs)) :
    s.definitions .module (Piece.nodesOf p (inModule xs)) = definitions .module (row + 1) xs := by
  induction xs generalizing p row with
  | nil => rfl
  | cons x xs ih =>
    obtain ⟨own, behind⟩ := agrees_cons agrees
    have next : ((p.run (x.piece 0).text).run ['\n']).row = row + x.height :=
      (row_piece 0 x p).trans (congrArg (· + _) first)
    have one := definitions_piece 0 .module x first stands.take own
    have rest := ih next stands.skip.skip behind
    show s.definitions .module ((x.piece 0).nodes p ++ _) = _
    rw [definitions_append, one, definitions, Nat.add_right_comm]
    exact congrArg (_ :: ·) rest

/-! ## what is refused -/

theorem Parameters.valid {ps : Parameters} (stands : StandsAt s.text p ps.piece.text) :
    Piece.AreValid s.text (ps.piece.nodes p) := by
  have items := everyOf_listed (c := Kind.isHarmless) (by decide) ps.items
  refine .node ⟨rfl, fun _ => Parameters.firstInvalid_eq_none (Parameters.reads stands)⟩
    (Piece.valid_of_everyOf s.text ?_)
  simp [Piece.everyOf, Piece.everyOf_append, Piece.every, items]

theorem Head.valid {h : Head} (stands : StandsAt s.text p (Piece.textOf h.pieces)) :
    Piece.AreValid s.text (Piece.nodesOf p h.pieces) := by
  have returns := everyOf_returnPieces (c := Kind.isHarmless) (by decide) h.returns
  have note : Piece.everyOf Kind.isHarmless (notePieces h.note) = true := by
    cases h.note <;> rfl
  have before : Piece.everyOf Kind.isHarmless [.mark ['d', 'e', 'f'], .blank [' '],
      h.name.token (some .name)] = true := rfl
  have behind : Piece.everyOf Kind.isHarmless (returnPieces h.returns ++ ([.mark [':']] ++
      notePieces h.note)) = true := by
    simp [Piece.everyOf_append, Piece.everyOf, Piece.every, returns, note]
  have parts : h.pieces = [.mark ['d', 'e', 'f'], .blank [' '], h.name.token (some .name)] ++
      ([h.parameters.piece] ++
        (returnPieces h.returns ++ ([.mark [':']] ++ notePieces h.note))) := by
    simp [pieces]
  rw [parts, Piece.textOf_append, Piece.textOf_append] at stands
  rw [parts, Piece.nodesOf_append, Piece.nodesOf_append]
  refine (Piece.valid_of_everyOf s.text before).append (.append ?_
    (Piece.valid_of_everyOf s.text behind))
  rw [Piece.nodesOf, Piece.nodesOf, List.append_nil]
  exact Parameters.valid stands.skip.take.take

theorem valid_block {depth : Nat} {body : List Piece}
    (below : Piece.AreValid s.text (Piece.nodesOf (bodyStart depth p) body)) :
    Piece.AreValid s.text (Piece.nodesOf p (block depth body)) := by
  have pass : Piece.AreValid s.text (Piece.nodes (p.run (newLine depth))
      (.node none .other [.mark ['p', 'a', 's', 's']])) := Piece.valid_of_every s.text rfl
  have whole : Piece.AreValid s.text (Piece.nodes (p.run (newLine depth)) (.node (some .body) .block
      (.node none .other [.mark ['p', 'a', 's', 's']] :: body))) :=
    .node (Piece.isValid_of_isHarmless s.text rfl) (pass.append below)
  rw [block, Piece.nodesOf, Piece.nodesOf, Piece.nodesOf, List.append_nil]
  exact whole

mutual

/-- **No node of a skeleton is refused.** -/
theorem valid_piece (depth : Nat) : ∀ (x : Skeleton) (p : Position),
    StandsAt s.text p (x.piece depth).text → Piece.AreValid s.text ((x.piece depth).nodes p)
  | .function h body, p, stands => by
    have function : ∀ q : Position, StandsAt s.text q (Piece.textOf (h.pieces ++
        block (depth + 1) (inBody (depth + 1) body))) → ∀ part : Option Field,
        Piece.AreValid s.text (Piece.nodes q (.node part .functionDefinition (h.pieces ++
          block (depth + 1) (inBody (depth + 1) body)))) := by
      intro q stands part
      rw [Piece.textOf_append] at stands
      refine .node (Piece.isValid_of_isHarmless s.text rfl) ?_
      rw [Piece.nodesOf_append]
      exact (Head.valid stands.take).append (valid_block (valid_inBody (depth + 1) body _
        (stands_block stands.skip)))
    rw [piece] at stands ⊢
    split at stands
    · exact function p stands none
    · rw [Piece.text, Piece.textOf_append, Piece.textOf, Piece.textOf, List.append_nil] at stands
      have decorators := everyOf_decorators (c := Kind.isHarmless) (by decide) rfl depth
        h.decorators
      refine .node (Piece.isValid_of_isHarmless s.text rfl) ?_
      rw [Piece.nodesOf_append, Piece.nodesOf, Piece.nodesOf, List.append_nil]
      exact (Piece.valid_of_everyOf s.text decorators).append (function _ stands.skip _)
  | .classDef n body, p, stands => by
    have whole : StandsAt s.text p (Piece.textOf (classPieces n ++
        block (depth + 1) (inBody (depth + 1) body))) := stands
    rw [Piece.textOf_append] at whole
    have head : Piece.everyOf Kind.isHarmless (classPieces n) = true := rfl
    refine .node (Piece.isValid_of_isHarmless s.text rfl) ?_
    show Piece.AreValid s.text (Piece.nodesOf p (classPieces n ++ _))
    rw [Piece.nodesOf_append]
    exact (Piece.valid_of_everyOf s.text head).append (valid_block (valid_inBody (depth + 1) body _
      (stands_block whole.skip)))

theorem valid_inBody (depth : Nat) : ∀ (xs : List Skeleton) (p : Position),
    StandsAt s.text p (Piece.textOf (inBody depth xs)) →
      Piece.AreValid s.text (Piece.nodesOf p (inBody depth xs))
  | [], _, _ => fun _ hn => absurd hn List.not_mem_nil
  | x :: xs, p, stands => by
    have first := valid_piece depth x _ stands.skip.take
    have rest := valid_inBody depth xs _ stands.skip.skip
    exact first.append rest

end

theorem valid_inModule (xs : List Skeleton) (p : Position)
    (stands : StandsAt s.text p (Piece.textOf (inModule xs))) :
    Piece.AreValid s.text (Piece.nodesOf p (inModule xs)) := by
  induction xs generalizing p with
  | nil => exact fun _ hn => absurd hn List.not_mem_nil
  | cons x xs ih => exact (valid_piece 0 x p stands.take).append (ih _ stands.skip.skip)

theorem standsAt_print (xs : List Skeleton) :
    StandsAt (print xs) .origin (Piece.textOf (inModule xs)) := by
  have whole := StandsAt.origin (print xs)
  rw [print, String.toList_ofList] at whole
  exact whole

theorem preorder_syntaxTree (xs : List Skeleton) : (syntaxTree xs).preorder =
    syntaxTree xs :: Node.preorderParts (Piece.nodesOf .origin (inModule xs)) := by
  rw [syntaxTree, Node.preorder]

theorem refusal_print (xs : List Skeleton) : refusal (print xs) (syntaxTree xs) = none := by
  have valid : Piece.AreValid (print xs) (Piece.nodesOf .origin (inModule xs)) :=
    valid_inModule (s := ⟨print xs, {}⟩) xs .origin (standsAt_print xs)
  have unnamed : ∀ n ∈ (syntaxTree xs).preorder, n.named = false → n.IsHarmless := by
    rw [preorder_syntaxTree]
    exact List.forall_mem_cons.mpr ⟨nofun, Piece.areHarmless_of_unnamed⟩
  have root : (syntaxTree xs).IsValid (print xs) := Piece.isValid_of_isHarmless _ rfl
  have sound : (syntaxTree xs).faulty = false := rfl
  rw [refusal, sound, if_neg Bool.false_ne_true, firstRefused_eq _ _ unnamed,
    List.findSome?_eq_none_iff, preorder_syntaxTree]
  exact List.forall_mem_cons.mpr ⟨refusedAt_eq_none_iff.mpr root,
    fun n hn => refusedAt_eq_none_iff.mpr (valid n hn)⟩

/-- the comments of what is printed are those of the skeletons -/
theorem comments_print (xs : List Skeleton) :
    Piece.commentsOf (print xs) (syntaxTree xs).preorder = notesOf 0 xs := by
  have below := Piece.notesOf_eq (standsAt_print xs)
  rw [notes_inModule] at below
  rw [preorder_syntaxTree, Piece.commentsOf_cons, below]
  rfl

/-- **The outline of what is printed is what has been printed**, however deep and wide it is: every
definition is there with its name, its place and its line, every function with its parameters,
decorators, return annotation and comment. -/
theorem check_print (path : String) (xs : List Skeleton) :
    Outline.check path (print xs) (syntaxTree xs) = .ok ⟨path, definitions .module 1 xs⟩ := by
  have agrees : Agrees (Source.ofNode (print xs) (syntaxTree xs)) 0 (0 + heightOf xs)
      (notesOf 0 xs) := by
    intro row _ _
    rw [Source.commentsOn_ofNode, ← comments_print, onRow_commentsOf]
  have outline := definitions_inModule (s := .ofNode (print xs) (syntaxTree xs)) xs
    (p := .origin) rfl (standsAt_print xs) agrees
  have parts : (syntaxTree xs).parts = Piece.nodesOf .origin (inModule xs) := rfl
  rw [Outline.check, refusal_print]
  show Except.ok (Outline.ofNode path (print xs) (syntaxTree xs)) = _
  rw [Outline.ofNode, parts, outline]
  rfl

-- the layout of what is printed
example :
    let c : Name := ⟨"C", ⟨'C', [], rfl, rfl⟩, List.forall_mem_singleton.mpr rfl, rfl⟩
    let f : Name := ⟨"f", ⟨'f', [], rfl, rfl⟩, List.forall_mem_singleton.mpr rfl, rfl⟩
    let x : Name := ⟨"x", ⟨'x', [], rfl, rfl⟩, List.forall_mem_singleton.mpr rfl, rfl⟩
    let list : Parameters :=
      ⟨[⟨f, none, false⟩], .lone ⟨x, some c, true⟩ [], none, by decide, by decide⟩
    print [.classDef c [.function ⟨f, [.member (.name c) x], list, some c, none⟩ []]] =
      "class C:\n    pass\n    @C.x\n    def f(f, *, x: C = 0) -> C:\n        pass\n" := by
  decide

-- the syntax tree that goes with what is printed is the one that the parser finds
example :
    let c : Name := ⟨"C", ⟨'C', [], rfl, rfl⟩, List.forall_mem_singleton.mpr rfl, rfl⟩
    let f : Name := ⟨"f", ⟨'f', [], rfl, rfl⟩, List.forall_mem_singleton.mpr rfl, rfl⟩
    let x : Name := ⟨"x", ⟨'x', [], rfl, rfl⟩, List.forall_mem_singleton.mpr rfl, rfl⟩
    let list : Parameters := ⟨[⟨x, none, false⟩], .none, none, by decide, by decide⟩
    let xs : List Skeleton := [.classDef c [.function ⟨f, [], list, none, none⟩ []]]
    Node.ofTree (Python.parse (print xs).toList) = syntaxTree xs := by
  decide +kernel

end Skeleton

end AnnotationAudit
