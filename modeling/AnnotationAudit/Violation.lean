/-!
# Violations

* `ViolationRule` the two things that can be missing;
* `Violation`     one missing annotation, with the place of the function that lacks it.
-/

namespace AnnotationAudit

/-- what is missing -/
inductive ViolationRule where
  | missingArgument
  | missingReturn
deriving DecidableEq, Repr, Inhabited

namespace ViolationRule

def all : List ViolationRule := [.missingArgument, .missingReturn]

/-- the name under which the rule is reported -/
def id : ViolationRule → String
  | .missingArgument => "missing-argument-annotation"
  | .missingReturn => "missing-return-annotation"

end ViolationRule

/-- a missing annotation -/
structure Violation where
  rule : ViolationRule
  /-- the path as it is shown in reports -/
  file : String
  /-- the line of the function's definition -/
  line : Nat
  function : String
  /-- the parameter without annotation -/
  argument : Option String
deriving DecidableEq, Repr, Inhabited

namespace Violation

def ofArgument (file : String) (line : Nat) (function argument : String) : Violation :=
  ⟨.missingArgument, file, line, function, some argument⟩

def ofReturn (file : String) (line : Nat) (function : String) : Violation :=
  ⟨.missingReturn, file, line, function, none⟩

def message (v : Violation) : String :=
  match v.rule, v.argument with
  | .missingArgument, some a =>
    "Argument '" ++ a ++ "' of function '" ++ v.function ++ "' has no type annotation"
  | _, _ => "Function '" ++ v.function ++ "' has no return type annotation"

end Violation

end AnnotationAudit
