import AnnotationAudit.Comments
import AnnotationAudit.Definition
import AnnotationAudit.Refusal
import AnnotationAudit.Text.Blank

/-!
# From text to outline

* `Outline.ofNode`   the definitions of a syntax tree: those of functions and classes wherever
                     compound statements lie around them, and nothing else;
* `Outline.parse`    the outline of a text, or the place at which the text is refused.
-/

namespace AnnotationAudit

open Python Text

/-- what is needed of a text to outline it -/
structure Source where
  text : String
  comments : CommentMap
deriving Inhabited

namespace Source

def textOf (s : Source) (n : Node) : String := n.text s.text

/-- the text of the child that plays the part `f`, or nothing -/
def fieldText (s : Source) (n : Node) (f : Field) : String :=
  ((n.child? f).map s.textOf).getD ""

def ofNode (text : String) (root : Node) : Source := { text, comments := .ofNode text root }

def commentsOn (s : Source) (row : Nat) : List String := (s.comments.on? row).getD []

/-! ## parameters -/

def splatName (s : Source) (n : Node) : String :=
  match n.namedChildren.head? with
  | some name => s.textOf name
  | none => String.ofList ((s.textOf n).toList.dropWhile (· == '*'))

/-- a parameter without its place -/
structure Declaration where
  name : String
  kind : ParameterKind
  annotation : Option String := none
  hasDefault : Bool := false

/-- the parameter that a child of a parameter list declares; `plain` is the kind of those without
stars -/
def declaration (s : Source) (plain : ParameterKind) (n : Node) : Option Declaration :=
  let type := (n.child? .type).map s.textOf
  match n.kind with
  | .identifier => some { name := s.textOf n, kind := plain }
  | .defaultParameter =>
    some { name := s.fieldText n .name, kind := plain, hasDefault := true }
  | .typedDefaultParameter =>
    some { name := s.fieldText n .name, kind := plain, annotation := type, hasDefault := true }
  | .typedParameter =>
    match n.namedChildren.head? with
    | none => none
    | some target =>
      match target.kind with
      | .listSplatPattern =>
        some { name := s.splatName target, kind := .varPositional, annotation := type }
      | .dictionarySplatPattern =>
        some { name := s.splatName target, kind := .varKeyword, annotation := type }
      | _ => some { name := s.textOf target, kind := plain, annotation := type }
  | .listSplatPattern => some { name := s.splatName n, kind := .varPositional }
  | .dictionarySplatPattern => some { name := s.splatName n, kind := .varKeyword }
  | _ => none

/-- the parameters of a list from the place `position` on; those without stars are keyword-only
behind a lone star or a parameter with one star -/
def parametersFrom (s : Source) (position : Nat) (keywordOnly : Bool) :
    List Node → List Parameter
  | [] => []
  | n :: ns =>
    let plain : ParameterKind := if keywordOnly then .keywordOnly else .positional
    match s.declaration plain n with
    | some d =>
      ⟨d.name, position, d.kind, d.annotation, d.hasDefault⟩ ::
        parametersFrom s (position + 1) (keywordOnly || d.kind == .varPositional) ns
    | none => parametersFrom s position (keywordOnly || n.kind == .keywordSeparator) ns

def parameters (s : Source) (list : Node) : List Parameter :=
  s.parametersFrom 0 false list.namedChildren

/-! ## decorators -/

/-- the dotted name of a decorator, blanks left out -/
def dottedName (s : Source) (n : Node) : String :=
  String.ofList ((s.textOf n).toList.filter fun c => !isBlank c)

mutual

/-- the name of a decorator, call arguments left out -/
def decoratorName (s : Source) : Node → String
  | .mk k n a f b e cs =>
    if k == .call then
      (calledName s cs).getD (s.textOf (.mk k n a f b e cs))
    else s.dottedName (.mk k n a f b e cs)

/-- the name of what is called, of the parts of a call -/
def calledName (s : Source) : List (Option Field × Node) → Option String
  | [] => none
  | (part, c) :: cs => if part == some .function then some (decoratorName s c) else calledName s cs

end

def decorators (s : Source) (parts : List (Option Field × Node)) : List Decorator :=
  ((parts.map (·.2)).filter fun n => n.named && n.kind == .decorator).filterMap fun d =>
    (d.namedChildren.find? fun n => n.kind != .comment).map fun n =>
      Decorator.ofName (s.decoratorName n)

/-! ## definitions -/

def signature (s : Source) (scope : Scope) (decorators : List Decorator) (n : Node) : Signature :=
  { name := s.fieldText n .name
    line := n.row + 1
    scope
    parameters := ((n.child? .parameters).map s.parameters).getD []
    returns := (n.child? .returnType).map s.textOf
    decorators
    comments := s.commentsOn n.row }

mutual

def definitionsAt (s : Source) (scope : Scope) : Node → List Definition
  | .mk k n a f b e cs =>
    if n then
      match k with
      | .functionDefinition =>
        [.function (s.signature scope [] (.mk k n a f b e cs)) (bodyOf s .inFunction cs)]
      | .classDefinition =>
        [.classDef (s.fieldText (.mk k n a f b e cs) .name) (bodyOf s .inClass cs)]
      | .decoratedDefinition => decorated s scope (s.decorators cs) cs
      | .lambda => []
      | _ => definitions s scope cs
    else []

/-- the definitions among the parts of a node and below them -/
def definitions (s : Source) (scope : Scope) : List (Option Field × Node) → List Definition
  | [] => []
  | (_, c) :: rest => definitionsAt s scope c ++ definitions s scope rest

def definitionsBelow (s : Source) (scope : Scope) : Node → List Definition
  | .mk _ _ _ _ _ _ cs => definitions s scope cs

/-- the definitions in the body of a definition with the given parts -/
def bodyOf (s : Source) (scope : Scope) : List (Option Field × Node) → List Definition
  | [] => []
  | (part, c) :: rest =>
    if part == some .body then definitionsBelow s scope c else bodyOf s scope rest

/-- the definition at a node under decorators -/
def decoratedAt (s : Source) (scope : Scope) (decorators : List Decorator) :
    Node → List Definition
  | .mk k n a f b e cs =>
    match k with
    | .functionDefinition =>
      [.function (s.signature scope decorators (.mk k n a f b e cs)) (bodyOf s .inFunction cs)]
    | .classDefinition =>
      [.classDef (s.fieldText (.mk k n a f b e cs) .name) (bodyOf s .inClass cs)]
    | _ => []

/-- the definition under decorators, among the parts of a decorated definition -/
def decorated (s : Source) (scope : Scope) (decorators : List Decorator) :
    List (Option Field × Node) → List Definition
  | [] => []
  | (part, c) :: rest =>
    if part == some .definition then decoratedAt s scope decorators c
    else decorated s scope decorators rest

end

end Source

/-! ## outlines -/

/-- the place at which a text is refused, lines and byte columns counted from one -/
structure SyntaxError where
  line : Nat
  column : Nat
deriving DecidableEq, Repr, Inhabited

namespace SyntaxError

def at_ (n : Node) : SyntaxError := ⟨n.start.row + 1, n.start.column + 1⟩

def message (e : SyntaxError) : String :=
  s!"invalid syntax at line {e.line}, column {e.column}"

end SyntaxError

namespace Outline

def ofNode (path text : String) (root : Node) : Outline :=
  ⟨path, (Source.ofNode text root).definitions .module root.parts⟩

/-- the outline of a syntax tree, unless something in it is refused -/
def check (path text : String) (root : Node) : Except SyntaxError Outline :=
  match refusal text root with
  | some n => .error (.at_ n)
  | none => .ok (ofNode path text root)

def parse (path text : String) : Except SyntaxError Outline :=
  check path text (Node.ofTree (Python.parse text.toList))

end Outline

end AnnotationAudit
