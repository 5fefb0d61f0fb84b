import AnnotationAudit.Violation

/-!
# Outcomes

* `FileFailure`  a path that could not be checked, and why;
* `Outcome`      what a run found: violations, failures, and the number of files it read.

Outcomes of several files are merged by appending, so an outcome lists what it holds in the order of
the files.
-/

namespace AnnotationAudit

/-- why a path was not checked -/
inductive FailureKind where
  /-- it could not be found or read -/
  | resolution
  /-- its text is refused -/
  | parse
deriving DecidableEq, Repr, Inhabited

namespace FailureKind

def all : List FailureKind := [.resolution, .parse]

/-- the name under which the kind is reported -/
def id : FailureKind → String
  | .resolution => "resolution"
  | .parse => "parse"

end FailureKind

/-- a path that could not be checked -/
structure FileFailure where
  kind : FailureKind
  /-- the path as it is shown in reports -/
  file : String
  /-- the line of the refused text -/
  line : Option Nat
  message : String
deriving DecidableEq, Repr, Inhabited

namespace FileFailure

def ofResolution (file message : String) : FileFailure := ⟨.resolution, file, none, message⟩

def ofParse (file : String) (line : Option Nat) (message : String) : FileFailure :=
  ⟨.parse, file, line, message⟩

end FileFailure

/-- what a run found -/
structure Outcome where
  violations : List Violation := []
  failures : List FileFailure := []
  /-- the number of files that were read and accepted -/
  scanned : Nat := 0
deriving DecidableEq, Repr, Inhabited

namespace Outcome

def empty : Outcome := {}

def merge (a b : Outcome) : Outcome :=
  ⟨a.violations ++ b.violations, a.failures ++ b.failures, a.scanned + b.scanned⟩

def addViolation (o : Outcome) (v : Violation) : Outcome :=
  { o with violations := o.violations ++ [v] }

def addFailure (o : Outcome) (f : FileFailure) : Outcome :=
  { o with failures := o.failures ++ [f] }

def isClean (o : Outcome) : Bool := o.violations.isEmpty && o.failures.isEmpty

/-- the number of runs of equal neighbours -/
def runs : List String → Nat
  | [] => 0
  | [_] => 1
  | a :: b :: rest => (if a = b then 0 else 1) + runs (b :: rest)

/-- the number of files with a violation, where the violations of a file stand together -/
def filesWithViolations (o : Outcome) : Nat := runs (o.violations.map Violation.file)

def count (o : Outcome) (rule : ViolationRule) : Nat :=
  (o.violations.filter fun v => v.rule == rule).length

theorem merge_empty (o : Outcome) : o.merge empty = o := by
  simp [merge, empty]

theorem empty_merge (o : Outcome) : empty.merge o = o := by
  simp [merge, empty]

theorem merge_assoc (a b c : Outcome) : (a.merge b).merge c = a.merge (b.merge c) := by
  simp [merge, List.append_assoc, Nat.add_assoc]

theorem isClean_iff {o : Outcome} : o.isClean = true ↔ o.violations = [] ∧ o.failures = [] := by
  simp [isClean]

end Outcome

end AnnotationAudit
