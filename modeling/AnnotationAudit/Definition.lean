/-!
# Definitions

What a Python file defines, as far as annotations are concerned.

* `Parameter`, `Decorator`, `Signature`  the parts of a function's head;
* `Definition`                           a function or a class with the definitions in its body;
* `Outline`                              the definitions of one file;
* `Outline.functions`                    all functions of a file, each before those in its body.
-/

namespace AnnotationAudit

/-- where a definition stands, whatever `if`, `try` or `with` lies between -/
inductive Scope where
  /-- in no other definition -/
  | module
  /-- directly in the body of a class -/
  | inClass
  /-- directly in the body of a function -/
  | inFunction
deriving DecidableEq, Repr, Inhabited

inductive ParameterKind where
  | positional
  /-- declared behind `*` or `*args` -/
  | keywordOnly
  /-- `*args` -/
  | varPositional
  /-- `**kwargs` -/
  | varKeyword
deriving DecidableEq, Repr, Inhabited

/-- is it `*args` or `**kwargs`? -/
def ParameterKind.isVariadic : ParameterKind → Bool
  | .varPositional | .varKeyword => true
  | _ => false

/-- a decorator, by its spelling: only the bare names are known -/
inductive Decorator where
  | classMethod
  | staticMethod
  | property
  | overload
  | other (name : String)
deriving DecidableEq, Repr, Inhabited

/-- the decorator of a dotted name, call arguments already left out -/
def Decorator.ofName (name : String) : Decorator :=
  if name = "classmethod" then .classMethod
  else if name = "staticmethod" then .staticMethod
  else if name = "property" then .property
  else if name = "overload" then .overload
  else .other name

structure Parameter where
  /-- without stars -/
  name : String
  /-- the place in the list, separators not counted -/
  position : Nat
  kind : ParameterKind
  /-- the text of the annotation -/
  annotation : Option String
  hasDefault : Bool
deriving DecidableEq, Repr, Inhabited

def Parameter.isAnnotated (p : Parameter) : Bool := p.annotation.isSome

/-- the head of a `def` or `async def` -/
structure Signature where
  name : String
  /-- the line of the `def`, counted from one; decorators do not matter -/
  line : Nat
  scope : Scope
  parameters : List Parameter
  /-- the text of the return annotation -/
  returns : Option String
  decorators : List Decorator
  /-- the comments that begin on the line of the `def` -/
  comments : List String
deriving DecidableEq, Repr, Inhabited

namespace Signature

def hasDecorator (s : Signature) (d : Decorator) : Bool := s.decorators.contains d

def isMethod (s : Signature) : Bool := s.scope == .inClass

end Signature

/-- a function or a class with the definitions in its body -/
inductive Definition where
  | function (head : Signature) (body : List Definition)
  | classDef (name : String) (body : List Definition)
deriving Inhabited, Repr

mutual

/-- the functions of a definition, each before those in its body -/
def Definition.functions : Definition → List Signature
  | .function head body => head :: functionsOf body
  | .classDef _ body => functionsOf body

def functionsOf : List Definition → List Signature
  | [] => []
  | d :: ds => d.functions ++ functionsOf ds

end

theorem functionsOf_cons (d : Definition) (ds : List Definition) :
    functionsOf (d :: ds) = d.functions ++ functionsOf ds := rfl

theorem functionsOf_append (ds es : List Definition) :
    functionsOf (ds ++ es) = functionsOf ds ++ functionsOf es := by
  induction ds with
  | nil => rfl
  | cons d ds ih => rw [List.cons_append, functionsOf_cons, functionsOf_cons, ih, List.append_assoc]

/-- the definitions of one file -/
structure Outline where
  /-- the path as it is shown in reports -/
  path : String
  body : List Definition
deriving Inhabited, Repr

def Outline.functions (o : Outline) : List Signature := functionsOf o.body

end AnnotationAudit
