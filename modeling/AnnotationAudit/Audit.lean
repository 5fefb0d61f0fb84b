import AnnotationAudit.Definition
import AnnotationAudit.Text.Search
import AnnotationAudit.Violation

/-!
# The audit

Every parameter and every return needs an annotation, but for

* the receiver of a method that is not static;
* the return of a constructor in a class;
* `*args` and `**kwargs`;
* parameters with a default, if so wanted;
* functions with a suppression comment on the line of their `def`.

`Signature.violations` checks one function and `Outline.violations` a whole file.
-/

namespace AnnotationAudit

/-- what is checked -/
structure AuditOptions where
  /-- leave out parameters with a default -/
  ignoreIfHasDefault : Bool := false
deriving DecidableEq, Repr, Inhabited

/-! ## suppression -/

/-- the text that suppresses a function's violations when a comment on its line holds it -/
def suppressionMarker : String := "# noqa"

def isSuppressionComment (comment : String) : Bool :=
  Text.occursIn suppressionMarker.toList comment.toList

def Signature.isSuppressed (s : Signature) : Bool := s.comments.any isSuppressionComment

/-! ## methods -/

/-- how a function binds its first parameter -/
inductive MethodKind where
  /-- not in the body of a class: no receiver -/
  | function
  /-- the first parameter is the instance -/
  | instanceMethod
  /-- the first parameter is the class -/
  | classMethod
  /-- no receiver -/
  | staticMethod
deriving DecidableEq, Repr, Inhabited

def MethodKind.hasReceiver : MethodKind → Bool
  | .instanceMethod | .classMethod => true
  | _ => false

def Signature.methodKind (s : Signature) : MethodKind :=
  if !s.isMethod then .function
  else if s.hasDecorator .staticMethod then .staticMethod
  else if s.hasDecorator .classMethod || s.name == "__new__" then .classMethod
  else .instanceMethod

/-! ## one function -/

/-- the methods whose return needs no annotation -/
def implicitReturnMethods : List String := ["__init__", "__new__"]

def Parameter.needsAnnotation (p : Parameter) (kind : MethodKind) (o : AuditOptions) : Bool :=
  !p.kind.isVariadic &&
    !(p.position == 0 && p.kind == .positional && kind.hasReceiver) &&
    !(o.ignoreIfHasDefault && p.hasDefault)

def Signature.needsReturn (s : Signature) : Bool :=
  !(s.isMethod && implicitReturnMethods.contains s.name)

/-- the violations of a function's parameters, in their order -/
def Signature.argumentViolations (s : Signature) (file : String) (o : AuditOptions) :
    List Violation :=
  (s.parameters.filter fun p => p.needsAnnotation s.methodKind o && !p.isAnnotated).map fun p =>
    .ofArgument file s.line s.name p.name

def Signature.returnViolations (s : Signature) (file : String) : List Violation :=
  if s.needsReturn && s.returns.isNone then [.ofReturn file s.line s.name] else []

/-- the violations of one function, suppressed or not; what its body holds does not count -/
def Signature.violations (s : Signature) (file : String) (o : AuditOptions) : List Violation :=
  s.argumentViolations file o ++ s.returnViolations file

/-! ## a file -/

mutual

/-- the violations of a definition and of those in its body. A suppressed function does not suppress
those in its body. -/
def Definition.violations (file : String) (o : AuditOptions) : Definition → List Violation
  | .function head body =>
    (if head.isSuppressed then [] else head.violations file o) ++ violationsOf file o body
  | .classDef _ body => violationsOf file o body

def violationsOf (file : String) (o : AuditOptions) : List Definition → List Violation
  | [] => []
  | d :: ds => d.violations file o ++ violationsOf file o ds

end

/-- the violations of a file, in the order of its definitions -/
def Outline.violations (t : Outline) (o : AuditOptions) : List Violation :=
  violationsOf t.path o t.body

end AnnotationAudit
