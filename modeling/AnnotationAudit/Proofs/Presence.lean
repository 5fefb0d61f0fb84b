import AnnotationAudit.Proofs.Coverage
import Mathlib.Data.List.Forall2

/-!
# Only presence matters

Two files of the same shape are audited alike if their functions agree in what the audit looks at.
Of annotations, decorators and comments, this is only whether they are there.

* `Parameter.Alike`, `Signature.Alike`  what must agree of two parameters and two functions;
* `Definition.Alike`, `AllAlike`        two files have the same shape, with such functions;
* `Signature.Alike.violations_eq`       functions that are alike have the same violations;
* `AllAlike.violationsOf_eq`            so have definitions that are alike, at every depth;
* `Outline.bare`                        a file without all that does not matter;
* `Outline.violations_alike`            files that are alike have the same violations.
-/

namespace AnnotationAudit

/-! ## what is looked at -/

/-- two parameters that agree in all but the texts of their annotations -/
structure Parameter.Alike (p q : Parameter) : Prop where
  name : p.name = q.name
  position : p.position = q.position
  kind : p.kind = q.kind
  hasDefault : p.hasDefault = q.hasDefault
  annotated : p.annotation.isSome = q.annotation.isSome

/-- two functions that agree in what the audit looks at -/
structure Signature.Alike (f g : Signature) : Prop where
  name : f.name = g.name
  line : f.line = g.line
  inClass : f.scope = .inClass ↔ g.scope = .inClass
  static : Decorator.staticMethod ∈ f.decorators ↔ Decorator.staticMethod ∈ g.decorators
  suppressed : f.isSuppressed = g.isSuppressed
  returns : f.returns.isSome = g.returns.isSome
  parameters : List.Forall₂ Parameter.Alike f.parameters g.parameters

mutual

/-- two definitions of the same shape whose functions are alike; the names of classes may differ -/
inductive Definition.Alike : Definition → Definition → Prop where
  | function {f g : Signature} {ds es : List Definition} :
      f.Alike g → AllAlike ds es → Definition.Alike (.function f ds) (.function g es)
  | classDef {m n : String} {ds es : List Definition} :
      AllAlike ds es → Definition.Alike (.classDef m ds) (.classDef n es)

/-- two lists of definitions that are alike one by one -/
inductive AllAlike : List Definition → List Definition → Prop where
  | nil : AllAlike [] []
  | cons {d e : Definition} {ds es : List Definition} :
      d.Alike e → AllAlike ds es → AllAlike (d :: ds) (e :: es)

end

/-! ## one function -/

namespace Signature.Alike

variable {f g : Signature}

theorem lacksReturn_iff (h : f.Alike g) : f.LacksReturn ↔ g.LacksReturn := by
  rw [LacksReturn, LacksReturn, h.name, h.inClass, ← Option.not_isSome_iff_eq_none,
    ← Option.not_isSome_iff_eq_none, h.returns]

/-- whether a method binds the instance or the class, both have a receiver; so of the decorators
only `staticmethod` matters -/
theorem lacksType_iff (h : f.Alike g) (o : AuditOptions) {p q : Parameter} (hp : p.Alike q) :
    p.LacksType o f ↔ q.LacksType o g := by
  rw [Parameter.LacksType, Parameter.LacksType, hp.kind, hp.position, hp.hasDefault, h.inClass,
    h.static, ← Option.not_isSome_iff_eq_none, ← Option.not_isSome_iff_eq_none, hp.annotated]

theorem argumentViolations_eq (h : f.Alike g) (file : String) (o : AuditOptions) :
    f.argumentViolations file o = g.argumentViolations file o := by
  rw [f.argumentViolations_eq, g.argumentViolations_eq, h.line, h.name]
  have parameters := h.parameters
  generalize f.parameters = ps, g.parameters = qs at parameters
  induction parameters with
  | nil => rfl
  | @cons p q ps qs hp _ ih =>
    have lacks : decide (p.LacksType o f) = decide (q.LacksType o g) :=
      decide_eq_decide.mpr (h.lacksType_iff o hp)
    rw [List.filter_cons, List.filter_cons, lacks]
    split
    · rw [List.map_cons, List.map_cons, ih, hp.name]
    · exact ih

theorem returnViolations_eq (h : f.Alike g) (file : String) :
    f.returnViolations file = g.returnViolations file := by
  have lacks : (f.needsReturn && f.returns.isNone) = (g.needsReturn && g.returns.isNone) := by
    rw [Bool.eq_iff_iff, f.needsReturn_and_isNone_iff, g.needsReturn_and_isNone_iff]
    exact h.lacksReturn_iff
  rw [returnViolations, returnViolations, lacks, h.line, h.name]

theorem violations_eq (h : f.Alike g) (file : String) (o : AuditOptions) :
    f.violations file o = g.violations file o := by
  rw [violations, violations, h.argumentViolations_eq, h.returnViolations_eq]

end Signature.Alike

/-! ## a file -/

mutual

theorem Definition.Alike.violations_eq (file : String) (o : AuditOptions) :
    ∀ {d e : Definition}, d.Alike e → d.violations file o = e.violations file o
  | _, _, .function head body => by
    rw [Definition.violations, Definition.violations, head.suppressed, head.violations_eq,
      body.violationsOf_eq]
  | _, _, .classDef body => body.violationsOf_eq file o

theorem AllAlike.violationsOf_eq (file : String) (o : AuditOptions) :
    ∀ {ds es : List Definition}, AllAlike ds es → violationsOf file o ds = violationsOf file o es
  | _, _, .nil => rfl
  | _, _, .cons d ds => by
    rw [violationsOf, violationsOf, d.violations_eq, ds.violationsOf_eq]

end

/-! ## what does not matter -/

/-- the parameter without the text of its annotation -/
def Parameter.bare (p : Parameter) : Parameter :=
  { p with annotation := p.annotation.map fun _ => "" }

/-- the function without the texts of its annotations, without comments that do not suppress it and
without all decorators but `staticmethod`; if it is not directly in a class, it forgets where it
is -/
def Signature.bare (f : Signature) : Signature :=
  { f with
    scope := if f.isMethod then .inClass else .module
    parameters := f.parameters.map Parameter.bare
    returns := f.returns.map fun _ => ""
    decorators := f.decorators.filter (· = .staticMethod)
    comments := f.comments.filter isSuppressionComment }

mutual

/-- the definition with bare functions, and without the names of classes -/
def Definition.bare : Definition → Definition
  | .function head body => .function head.bare (bareAll body)
  | .classDef _ body => .classDef "" (bareAll body)

def bareAll : List Definition → List Definition
  | [] => []
  | d :: ds => d.bare :: bareAll ds

end

def Outline.bare (t : Outline) : Outline := ⟨t.path, bareAll t.body⟩

theorem Parameter.alike_bare (p : Parameter) : p.bare.Alike p :=
  ⟨rfl, rfl, rfl, rfl, Option.isSome_map⟩

theorem Signature.alike_bare (f : Signature) : f.bare.Alike f where
  name := rfl
  line := rfl
  inClass := by
    by_cases h : f.scope = .inClass <;> simp [bare, isMethod, h]
  static := by simp [bare]
  suppressed := by simp [bare, isSuppressed, List.any_filter]
  returns := Option.isSome_map
  parameters := by
    rw [bare, List.forall₂_map_left_iff, List.forall₂_same]
    exact fun p _ => p.alike_bare

mutual

theorem Definition.alike_bare : ∀ d : Definition, d.bare.Alike d
  | .function head body => .function head.alike_bare (alike_bareAll body)
  | .classDef _ body => .classDef (alike_bareAll body)

theorem alike_bareAll : ∀ ds : List Definition, AllAlike (bareAll ds) ds
  | [] => .nil
  | d :: ds => .cons d.alike_bare (alike_bareAll ds)

end

/-- **Only presence matters.** Two files with the same path and the same shape, whose functions
agree in what the audit looks at, have the same violations. So a file has the same violations
without the texts of its annotations, the names of its classes, the comments without the marker,
the decorators other than `staticmethod` and the difference between module and function scope. -/
theorem Outline.violations_alike (o : AuditOptions) :
    (∀ t u : Outline, t.path = u.path → AllAlike t.body u.body → t.violations o = u.violations o) ∧
      ∀ t : Outline, t.bare.violations o = t.violations o := by
  have alike : ∀ t u : Outline, t.path = u.path → AllAlike t.body u.body →
      t.violations o = u.violations o := by
    intro t u path body
    rw [violations, violations, path, body.violationsOf_eq]
  exact ⟨alike, fun t => alike t.bare t rfl (alike_bareAll t.body)⟩

/-- a class with a method that holds a function -/
def plainFile : Outline :=
  ⟨"a.py", [.classDef "C" [.function ⟨"m", 3, .inClass, [⟨"cls", 0, .positional, none, false⟩,
      ⟨"x", 1, .positional, some "int", false⟩, ⟨"y", 2, .positional, none, true⟩], none,
      [.classMethod], ["# todo"]⟩
    [.function ⟨"inner", 4, .inFunction, [], some "int", [], []⟩ []]]]⟩

/-- the same file with other texts: the receiver is the instance now -/
def retouchedFile : Outline :=
  ⟨"a.py", [.classDef "D" [.function ⟨"m", 3, .inClass, [⟨"cls", 0, .positional, none, false⟩,
      ⟨"x", 1, .positional, some "str", false⟩, ⟨"y", 2, .positional, none, true⟩], none,
      [.property, .other "cache"], []⟩
    [.function ⟨"inner", 4, .module, [], some "None", [.overload], ["# none"]⟩ []]]]⟩

theorem alike_retouchedFile : AllAlike plainFile.body retouchedFile.body := by
  have parameters {name : String} {position : Nat} {kind : ParameterKind}
      {type type' : Option String} {hasDefault : Bool} (h : type.isSome = type'.isSome) :
      Parameter.Alike ⟨name, position, kind, type, hasDefault⟩
        ⟨name, position, kind, type', hasDefault⟩ := ⟨rfl, rfl, rfl, rfl, h⟩
  refine .cons (.classDef (.cons (.function ?_ (.cons (.function ?_ .nil) .nil)) .nil)) .nil
  · exact ⟨rfl, rfl, by decide, by decide, by decide, rfl,
      .cons (parameters rfl) (.cons (parameters rfl) (.cons (parameters rfl) .nil))⟩
  · exact ⟨rfl, rfl, by decide, by decide, by decide, rfl, .nil⟩

/-- the two files have the same violations, and there are some -/
theorem Outline.violations_alike_retouched :
    plainFile.path = retouchedFile.path ∧ AllAlike plainFile.body retouchedFile.body ∧
      plainFile.violations {} = retouchedFile.violations {} ∧
      plainFile.violations {} = [.ofArgument "a.py" 3 "m" "y", .ofReturn "a.py" 3 "m"] :=
  ⟨rfl, alike_retouchedFile,
    (violations_alike {}).1 plainFile retouchedFile rfl alike_retouchedFile, by decide⟩

end AnnotationAudit
