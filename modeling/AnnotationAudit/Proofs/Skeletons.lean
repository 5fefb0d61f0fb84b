import AnnotationAudit.Definition
import AnnotationAudit.Proofs.Pieces

/-!
# Skeletons

A skeleton is a program without statements: classes and functions in one another to any depth, with
decorators, parameters and comments, and `pass` in every body.

* `Skeleton`                what there is to print;
* `Skeleton.print`          the text in the standard layout, four blanks to a level;
* `Skeleton.syntaxTree`     the syntax tree of that text;
* `Skeleton.definitions`    the definitions that an outline has to have;
* `Skeleton.notes_piece`    the comments of the text and their rows.
-/

namespace AnnotationAudit

open Python Text

namespace Skeleton

/-! ## what there is to print -/

def isNameChar (c : Char) : Bool := c.isAlphanum || c == '_'

/-- an ASCII identifier that is no keyword -/
structure Name where
  text : String
  start : ∃ c cs, text.toList = c :: cs ∧ c.isDigit = false
  chars : ∀ c ∈ text.toList, isNameChar c = true
  free : Token.keyword? text.toList = none

/-- what stands in a comment behind the number sign -/
structure Note where
  text : String
  line : '\n' ∉ text.toList

/-- a dotted name -/
inductive Dotted where
  | name (n : Name)
  | member (of : Dotted) (n : Name)

/-- a parameter without stars -/
structure Plain where
  name : Name
  annotation : Option Name
  hasDefault : Bool

/-- what stands behind the positional parameters, but for `**kwargs` -/
inductive Star where
  | none
  /-- a lone star and the keyword-only parameters behind it -/
  | lone (first : Plain) (others : List Plain)
  /-- `*args` and the keyword-only parameters behind it -/
  | args (name : Name) (others : List Plain)

/-- one of the things that commas part in a parameter list -/
inductive Item where
  | plain (p : Plain)
  | lone
  | args (n : Name)
  | kwargs (n : Name)

def Item.name? : Item → Option String
  | .plain p => some p.name.text
  | .lone => none
  | .args n | .kwargs n => some n.text

def Star.items : Star → List Item
  | .none => []
  | .lone first others => .lone :: (first :: others).map .plain
  | .args n others => .args n :: others.map .plain

def itemsOf (positional : List Plain) (star : Star) (kwargs : Option Name) : List Item :=
  positional.map .plain ++ star.items ++ (kwargs.map .kwargs).toList

/-- a legal parameter list -/
structure Parameters where
  positional : List Plain
  star : Star
  kwargs : Option Name
  /-- behind a default there are only defaults -/
  ordered : positional.Pairwise fun p q => p.hasDefault = true → q.hasDefault = true
  distinct : ((itemsOf positional star kwargs).filterMap Item.name?).Nodup

def Parameters.items (ps : Parameters) : List Item := itemsOf ps.positional ps.star ps.kwargs

/-- all of a function but its body -/
structure Head where
  name : Name
  decorators : List Dotted
  parameters : Parameters
  returns : Option Name
  note : Option Note

end Skeleton

open Skeleton in
/-- a function or a class with the definitions in its body -/
inductive Skeleton where
  | function (head : Head) (body : List Skeleton)
  | classDef (name : Name) (body : List Skeleton)

namespace Skeleton

/-! ## the text and its syntax -/

/-- a line end and the indentation of the next line -/
def newLine (depth : Nat) : List Char := '\n' :: List.replicate (4 * depth) ' '

def Name.token (part : Option Field) (n : Name) : Piece :=
  .token part .identifier n.text.toList

def Name.type (part : Field) (n : Name) : Piece := .node (some part) .other [n.token none]

def zero : Piece := .token (some .value) .other ['0']

def Plain.piece (p : Plain) : Piece :=
  match p.annotation, p.hasDefault with
  | none, false => p.name.token none
  | none, true => .node none .defaultParameter [p.name.token (some .name), .mark ['='], zero]
  | some t, false =>
    .node none .typedParameter [p.name.token none, .mark [':'], .blank [' '], t.type .type]
  | some t, true =>
    .node none .typedDefaultParameter [p.name.token (some .name), .mark [':'], .blank [' '],
      t.type .type, .blank [' '], .mark ['='], .blank [' '], zero]

def Item.piece : Item → Piece
  | .plain p => p.piece
  | .lone => .node none .keywordSeparator [.mark ['*']]
  | .args n => .node none .listSplatPattern [.mark ['*'], n.token none]
  | .kwargs n => .node none .dictionarySplatPattern [.mark ['*', '*'], n.token none]

def listed : List Item → List Piece
  | [] => []
  | [x] => [x.piece]
  | x :: y :: xs => x.piece :: .mark [','] :: .blank [' '] :: listed (y :: xs)

def Parameters.piece (ps : Parameters) : Piece :=
  .node (some .parameters) .parameters (.mark ['('] :: (listed ps.items ++ [.mark [')']]))

def Dotted.piece (part : Option Field) : Dotted → Piece
  | .name n => n.token part
  | .member d n =>
    .node part .other [d.piece (some .object), .mark ['.'], n.token (some .attribute_)]

/-- the line of a decorator and the indentation of the next line -/
def Dotted.line (depth : Nat) (d : Dotted) : List Piece :=
  [.node none .decorator [.mark ['@'], d.piece none], .blank (newLine depth)]

def returnPieces : Option Name → List Piece
  | none => []
  | some t => [.blank [' '], .mark ['-', '>'], .blank [' '], t.type .returnType]

def notePieces : Option Note → List Piece
  | none => []
  | some n => [.blank [' ', ' '], .token none .comment ('#' :: n.text.toList)]

def Head.pieces (h : Head) : List Piece :=
  [.mark ['d', 'e', 'f'], .blank [' '], h.name.token (some .name), h.parameters.piece] ++
    returnPieces h.returns ++ [.mark [':']] ++ notePieces h.note

def classPieces (n : Name) : List Piece :=
  [.mark ['c', 'l', 'a', 's', 's'], .blank [' '], n.token (some .name), .mark [':']]

/-- the body of a definition, from the end of its first line on -/
def block (depth : Nat) (body : List Piece) : List Piece :=
  [.blank (newLine depth),
    .node (some .body) .block (.node none .other [.mark ['p', 'a', 's', 's']] :: body)]

mutual

def piece (depth : Nat) : Skeleton → Piece
  | .function h body =>
    let pieces := h.pieces ++ block (depth + 1) (inBody (depth + 1) body)
    match h.decorators with
    | [] => .node none .functionDefinition pieces
    | ds => .node none .decoratedDefinition
        (ds.flatMap (·.line depth) ++ [.node (some .definition) .functionDefinition pieces])
  | .classDef n body =>
    .node none .classDefinition (classPieces n ++ block (depth + 1) (inBody (depth + 1) body))

/-- definitions in a body, each on lines of its own -/
def inBody (depth : Nat) : List Skeleton → List Piece
  | [] => []
  | x :: xs => .blank (newLine depth) :: x.piece depth :: inBody depth xs

end

def inModule : List Skeleton → List Piece
  | [] => []
  | x :: xs => x.piece 0 :: .blank ['\n'] :: inModule xs

def print (xs : List Skeleton) : String := String.ofList (Piece.textOf (inModule xs))

def syntaxTree (xs : List Skeleton) : Node :=
  .mk .module true false false .origin (Position.origin.run (Piece.textOf (inModule xs)))
    (Piece.nodesOf .origin (inModule xs))

/-! ## the outline -/

def Dotted.text : Dotted → String
  | .name n => n.text
  | .member d n => d.text ++ "." ++ n.text

/-- the parameter that an item declares, at the place 0; `plain` is the kind of those without
stars -/
def Item.parameter (plain : ParameterKind) : Item → Option Parameter
  | .plain p => some ⟨p.name.text, 0, plain, p.annotation.map (·.text), p.hasDefault⟩
  | .lone => none
  | .args n => some ⟨n.text, 0, .varPositional, none, false⟩
  | .kwargs n => some ⟨n.text, 0, .varKeyword, none, false⟩

/-- parameters numbered from `i` on -/
def numbered (i : Nat) : List Parameter → List Parameter
  | [] => []
  | p :: ps => { p with position := i } :: numbered (i + 1) ps

/-- the parameters of a list, each with its kind and place -/
def Parameters.declared (ps : Parameters) : List Parameter :=
  numbered 0 ((ps.positional.map Item.plain).filterMap (·.parameter .positional) ++
    (ps.star.items ++ (ps.kwargs.map Item.kwargs).toList).filterMap (·.parameter .keywordOnly))

def Note.comment (n : Note) : String := String.ofList ('#' :: n.text.toList)

mutual

/-- the number of lines that a skeleton takes up -/
def height : Skeleton → Nat
  | .function h body => h.decorators.length + 2 + heightOf body
  | .classDef _ body => 2 + heightOf body

def heightOf : List Skeleton → Nat
  | [] => 0
  | x :: xs => x.height + heightOf xs

end

/-- the head of a function whose first line, that of its first decorator if it has any, is `line` -/
def Head.signature (scope : Scope) (line : Nat) (h : Head) : Signature :=
  { name := h.name.text
    line := line + h.decorators.length
    scope
    parameters := h.parameters.declared
    returns := h.returns.map (·.text)
    decorators := h.decorators.map fun d => Decorator.ofName d.text
    comments := (h.note.map Note.comment).toList }

mutual

def definition (scope : Scope) (line : Nat) : Skeleton → Definition
  | .function h body =>
    .function (h.signature scope line)
      (definitions .inFunction (line + h.decorators.length + 2) body)
  | .classDef n body => .classDef n.text (definitions .inClass (line + 2) body)

/-- the definitions of skeletons of which the first begins on `line` -/
def definitions (scope : Scope) (line : Nat) : List Skeleton → List Definition
  | [] => []
  | x :: xs => x.definition scope line :: definitions scope (line + x.height) xs

end

mutual

/-- the comments of a skeleton that begins on `row`, with their rows -/
def notes (row : Nat) : Skeleton → List (Nat × String)
  | .function h body =>
    (h.note.map fun n => (row + h.decorators.length, n.comment)).toList ++
      notesOf (row + h.decorators.length + 2) body
  | .classDef _ body => notesOf (row + 2) body

def notesOf (row : Nat) : List Skeleton → List (Nat × String)
  | [] => []
  | x :: xs => x.notes row ++ notesOf (row + x.height) xs

end

/-! ## lines of the text -/

theorem Name.count_newline (n : Name) : n.text.toList.count '\n' = 0 := by
  rw [List.count_eq_zero]
  intro mem
  have char := n.chars _ mem
  revert char
  decide

theorem Note.count_newline (n : Note) : n.text.toList.count '\n' = 0 :=
  List.count_eq_zero.mpr n.line

theorem count_newLine (depth : Nat) : (newLine depth).count '\n' = 1 := by
  simp [newLine, List.count_replicate]

theorem Plain.count_piece (p : Plain) : p.piece.text.count '\n' = 0 := by
  obtain ⟨n, annotation, hasDefault⟩ := p
  have name := n.count_newline
  cases annotation with
  | none => cases hasDefault <;> simp [piece, Name.token, zero, Piece.text, Piece.textOf, name]
  | some t =>
    have type := t.count_newline
    cases hasDefault <;>
      simp [piece, Name.token, Name.type, zero, Piece.text, Piece.textOf, name, type]

theorem Item.count_piece (x : Item) : x.piece.text.count '\n' = 0 := by
  cases x with
  | plain p => exact p.count_piece
  | lone => rfl
  | args n | kwargs n =>
    have name := n.count_newline
    simp [piece, Name.token, Piece.text, Piece.textOf, name]

theorem count_listed (xs : List Item) : (Piece.textOf (listed xs)).count '\n' = 0 := by
  induction xs with
  | nil => rfl
  | cons x xs ih =>
    have first := x.count_piece
    cases xs with
    | nil => simpa [listed, Piece.textOf] using first
    | cons y xs => simpa [listed, Piece.textOf, Piece.text, first] using ih

theorem Dotted.count_piece (part : Option Field) (d : Dotted) :
    (d.piece part).text.count '\n' = 0 := by
  induction d generalizing part with
  | name n => exact n.count_newline
  | member d n ih =>
    have of := ih (some .object)
    have name := n.count_newline
    simp [piece, Name.token, Piece.text, Piece.textOf, of, name]

theorem count_decorators (depth : Nat) (ds : List Dotted) :
    (Piece.textOf (ds.flatMap (·.line depth))).count '\n' = ds.length := by
  induction ds with
  | nil => rfl
  | cons d ds ih =>
    have one : (Piece.textOf (d.line depth)).count '\n' = 1 := by
      simp [Dotted.line, Piece.textOf, Piece.text, d.count_piece, count_newLine]
    rw [List.flatMap_cons, Piece.textOf_append, List.count_append, one, ih, List.length_cons]
    omega

theorem Head.count_pieces (h : Head) : (Piece.textOf h.pieces).count '\n' = 0 := by
  have name := h.name.count_newline
  have list := count_listed h.parameters.items
  have returns : (Piece.textOf (returnPieces h.returns)).count '\n' = 0 := by
    cases h.returns with
    | none => rfl
    | some t =>
      simp [returnPieces, Name.type, Name.token, Piece.textOf, Piece.text, t.count_newline]
  have note : (Piece.textOf (notePieces h.note)).count '\n' = 0 := by
    cases h.note with
    | none => rfl
    | some n => simp [notePieces, Piece.textOf, Piece.text, n.count_newline]
  simp [pieces, Parameters.piece, Name.token, Piece.textOf_append, Piece.textOf, Piece.text, name,
    list, returns, note]

theorem count_classPieces (n : Name) : (Piece.textOf (classPieces n)).count '\n' = 0 := by
  simp [classPieces, Name.token, Piece.textOf, Piece.text, n.count_newline]

theorem count_block (depth : Nat) (body : List Piece) :
    (Piece.textOf (block depth body)).count '\n' = 1 + (Piece.textOf body).count '\n' := by
  simp [block, Piece.textOf, Piece.text, count_newLine]

mutual

/-- a skeleton takes up as many lines as it should, the last one without its end -/
theorem count_piece (depth : Nat) : ∀ x : Skeleton,
    (x.piece depth).text.count '\n' + 1 = x.height
  | .function h body => by
    have below := count_inBody (depth + 1) body
    have pieces : (Piece.textOf (h.pieces ++ block (depth + 1) (inBody (depth + 1) body))).count
        '\n' = 1 + heightOf body := by
      rw [Piece.textOf_append, List.count_append, h.count_pieces, count_block, below]
      omega
    have decorators := count_decorators depth h.decorators
    rw [piece, height]
    split
    · next none =>
      rw [none, List.length_nil, Piece.text, pieces]
      omega
    · rw [Piece.text, Piece.textOf_append, List.count_append, decorators, Piece.textOf, Piece.text,
        Piece.textOf, List.append_nil, pieces]
      omega
  | .classDef n body => by
    have below := count_inBody (depth + 1) body
    rw [piece, height, Piece.text, Piece.textOf_append, List.count_append, count_classPieces,
      count_block, below]
    omega

theorem count_inBody (depth : Nat) : ∀ xs : List Skeleton,
    (Piece.textOf (inBody depth xs)).count '\n' = heightOf xs
  | [] => rfl
  | x :: xs => by
    have first := count_piece depth x
    have rest := count_inBody depth xs
    rw [inBody, heightOf, Piece.textOf, Piece.textOf, List.count_append, List.count_append, rest,
      Piece.text, count_newLine]
    omega

end

theorem row_of_count {cs : List Char} (h : cs.count '\n' = 0) (p : Position) :
    (p.run cs).row = p.row := by
  rw [Position.row_run, h, Nat.add_zero]

theorem row_newLine (depth : Nat) (p : Position) : (p.run (newLine depth)).row = p.row + 1 := by
  rw [Position.row_run, count_newLine]

theorem row_decorators (depth : Nat) (ds : List Dotted) (p : Position) :
    (p.run (Piece.textOf (ds.flatMap (·.line depth)))).row = p.row + ds.length := by
  rw [Position.row_run, count_decorators]

/-- the row behind a skeleton -/
theorem row_piece (depth : Nat) (x : Skeleton) (p : Position) :
    (p.run (x.piece depth).text).row + 1 = p.row + x.height := by
  rw [Position.row_run, ← count_piece depth x]
  rfl

/-- where the first definition of a body follows, behind `pass` -/
def bodyStart (depth : Nat) (p : Position) : Position :=
  (p.run (newLine depth)).run ['p', 'a', 's', 's']

theorem row_bodyStart (depth : Nat) (p : Position) : (bodyStart depth p).row = p.row + 1 := by
  rw [bodyStart, row_of_count (by decide), row_newLine]

/-! ## kinds of nodes -/

/-- the kinds of the nodes in parameters, and in the names of decorators -/
def itemKinds : List Kind :=
  [.identifier, .other, .defaultParameter, .typedDefaultParameter, .typedParameter,
    .keywordSeparator, .listSplatPattern, .dictionarySplatPattern]

section Every

variable {c : Kind → Bool} (h : ∀ k ∈ itemKinds, c k = true)

include h

theorem Item.every_piece (x : Item) : x.piece.every c = true := by
  simp only [itemKinds, List.forall_mem_cons] at h
  cases x with
  | plain p =>
    obtain ⟨n, annotation, hasDefault⟩ := p
    cases annotation <;> cases hasDefault <;>
      simp [piece, Plain.piece, Name.token, Name.type, zero, Piece.every, Piece.everyOf, h]
  | lone | args n | kwargs n => simp [piece, Name.token, Piece.every, Piece.everyOf, h]

theorem everyOf_listed (xs : List Item) : Piece.everyOf c (listed xs) = true := by
  induction xs with
  | nil => rfl
  | cons x xs ih =>
    have first := x.every_piece h
    cases xs with
    | nil => simp [listed, Piece.everyOf, first]
    | cons y xs => simp [listed, Piece.everyOf, Piece.every, first, ih]

theorem Dotted.every_piece (part : Option Field) (d : Dotted) :
    (d.piece part).every c = true := by
  have kinds := h
  simp only [itemKinds, List.forall_mem_cons] at kinds
  induction d generalizing part with
  | name n => exact kinds.1
  | member d n ih => simp [piece, Name.token, Piece.every, Piece.everyOf, kinds, ih]

theorem everyOf_returnPieces (t : Option Name) :
    Piece.everyOf c (returnPieces t) = true := by
  simp only [itemKinds, List.forall_mem_cons] at h
  cases t <;> simp [returnPieces, Name.type, Name.token, Piece.every, Piece.everyOf, h]

theorem everyOf_decorators (decorator : c .decorator = true) (depth : Nat) (ds : List Dotted) :
    Piece.everyOf c (ds.flatMap (·.line depth)) = true := by
  induction ds with
  | nil => rfl
  | cons d ds ih =>
    have first := d.every_piece h none
    rw [List.flatMap_cons, Piece.everyOf_append, ih]
    simp [Dotted.line, Piece.everyOf, Piece.every, decorator, first]

end Every

/-! ## comments -/

theorem Head.notesOf_pieces (h : Head) (p : Position) :
    Piece.notesOf p h.pieces = (h.note.map fun n => (p.row, n.comment)).toList := by
  have kinds : ∀ k ∈ itemKinds, (k != .comment) = true := by decide
  have list := everyOf_listed kinds h.parameters.items
  have returns := everyOf_returnPieces kinds h.returns
  have quiet : Piece.everyOf (· != .comment) ([.mark ['d', 'e', 'f'], .blank [' '],
      h.name.token (some .name), h.parameters.piece] ++ returnPieces h.returns ++ [.mark [':']]) =
        true := by
    simp [Piece.everyOf_append, Piece.everyOf, Piece.every, Name.token, Parameters.piece, list,
      returns]
  have row : ∀ q : Position, q.row = p.row → Piece.notesOf q (notePieces h.note) =
      (h.note.map fun n => (p.row, n.comment)).toList := by
    intro q same
    cases h.note with
    | none => rfl
    | some n =>
      have blanks : (q.run [' ', ' ']).row = q.row := row_of_count (by decide) q
      show [((q.run [' ', ' ']).row, n.comment)] = _
      rw [blanks, same]
      rfl
  have count := h.count_pieces
  rw [pieces, Piece.textOf_append, List.count_append] at count
  rw [pieces, Piece.notesOf_append, Piece.notesOf_of_every quiet, List.nil_append]
  exact row _ (row_of_count (by omega) p)

theorem notesOf_block (depth : Nat) (body : List Piece) (p : Position) :
    Piece.notesOf p (block depth body) = Piece.notesOf (bodyStart depth p) body := by
  simp [block, Piece.notesOf, Piece.notes, Piece.text, Piece.textOf, bodyStart]

mutual

/-- **The comments of a skeleton stand on the rows that they should.** -/
theorem notes_piece (depth : Nat) : ∀ (x : Skeleton) (p : Position),
    (x.piece depth).notes p = x.notes p.row
  | .function h body, p => by
    have kinds : ∀ k ∈ itemKinds, (k != .comment) = true := by decide
    have function : ∀ q : Position, Piece.notesOf q (h.pieces ++ block (depth + 1)
        (inBody (depth + 1) body)) = (h.note.map fun n => (q.row, n.comment)).toList ++
          notesOf (q.row + 2) body := by
      intro q
      rw [Piece.notesOf_append, h.notesOf_pieces, notesOf_block, notes_inBody, row_bodyStart,
        row_of_count h.count_pieces]
    have quiet := everyOf_decorators kinds (by decide) depth h.decorators
    rw [piece, notes]
    split
    · next none =>
      rw [none, List.length_nil]
      exact function p
    · show Piece.notesOf p (_ ++ [.node _ _ _]) = _
      rw [Piece.notesOf_append, Piece.notesOf_of_every quiet, List.nil_append, Piece.notesOf,
        Piece.notesOf, List.append_nil]
      have below := function (p.run (Piece.textOf (h.decorators.flatMap (·.line depth))))
      rw [row_decorators] at below
      exact below
  | .classDef n body, p => by
    have quiet : Piece.everyOf (· != .comment) (classPieces n) = true := rfl
    rw [piece, notes]
    show Piece.notesOf p (_ ++ _) = _
    rw [Piece.notesOf_append, Piece.notesOf_of_every quiet, List.nil_append, notesOf_block,
      notes_inBody, row_bodyStart, row_of_count (count_classPieces n)]

theorem notes_inBody (depth : Nat) : ∀ (xs : List Skeleton) (p : Position),
    Piece.notesOf p (inBody depth xs) = notesOf (p.row + 1) xs
  | [], _ => rfl
  | x :: xs, p => by
    rw [inBody, notesOf, Piece.notesOf, Piece.notesOf, notes_piece, notes_inBody, row_piece]
    exact congrArg (fun row => x.notes row ++ notesOf (row + x.height) xs) (row_newLine depth p)

end

theorem notes_inModule (xs : List Skeleton) (p : Position) :
    Piece.notesOf p (inModule xs) = notesOf p.row xs := by
  induction xs generalizing p with
  | nil => rfl
  | cons x xs ih =>
    rw [inModule, notesOf, Piece.notesOf, Piece.notesOf, notes_piece, ih, ← row_piece 0 x p]
    rfl

end Skeleton

end AnnotationAudit
