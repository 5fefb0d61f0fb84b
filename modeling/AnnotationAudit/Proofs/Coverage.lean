import AnnotationAudit.Audit
import Mathlib.Data.List.Basic

/-!
# What the audit of a file covers

The audit walks over nested definitions on its own. Here it is compared with the flat list of a
file's functions.

* `Outline.audited`            the functions of a file that are not suppressed;
* `Signature.LacksReturn`      a function needs a return annotation and has none;
* `Parameter.LacksType`  a parameter of a function needs an annotation and has none;
* `violationsOf_eq`            the walk finds the violations of the audited functions one after
                               the other, at every depth;
* `Outline.violations_cover`   so it finds one violation for each lack and no other.
-/

namespace AnnotationAudit

/-- the functions of a file that are not suppressed, each before those in its body -/
def Outline.audited (t : Outline) : List Signature :=
  t.functions.filter fun f => !f.isSuppressed

/-- the function has no return annotation, and is no constructor in a class -/
def Signature.LacksReturn (f : Signature) : Prop :=
  f.returns = none ∧ ¬ (f.scope = .inClass ∧ (f.name = "__init__" ∨ f.name = "__new__"))
deriving Decidable

/-- the parameter of the function has no annotation, and is neither variadic, nor the receiver of a
method that is not static, nor excused by its default -/
def Parameter.LacksType (o : AuditOptions) (f : Signature) (p : Parameter) : Prop :=
  p.annotation = none ∧ ¬ (p.kind = .varPositional ∨ p.kind = .varKeyword) ∧
    ¬ (p.kind = .positional ∧ p.position = 0 ∧ f.scope = .inClass ∧
      Decorator.staticMethod ∉ f.decorators) ∧
    ¬ (o.ignoreIfHasDefault = true ∧ p.hasDefault = true)
deriving Decidable

/-! ## the walk and the list of functions -/

section
variable (file : String) (o : AuditOptions)

mutual

theorem Definition.violations_eq : ∀ d : Definition, d.violations file o =
    (d.functions.filter fun f => !f.isSuppressed).flatMap fun f => f.violations file o
  | .function head body => by
    have ih := violationsOf_eq body
    rw [Definition.violations, Definition.functions, List.filter_cons, ih]
    by_cases h : head.isSuppressed = true
    · simp only [h, if_true, Bool.not_true, Bool.false_eq_true, if_false, List.nil_append]
    · simp only [h, Bool.false_eq_true, if_false, Bool.not_false, if_true, List.flatMap_cons]
  | .classDef _ body => by
    rw [Definition.violations, Definition.functions]
    exact violationsOf_eq body

/-- the walk over definitions finds the violations of their functions one after the other -/
theorem violationsOf_eq : ∀ ds : List Definition, violationsOf file o ds =
    ((functionsOf ds).filter fun f => !f.isSuppressed).flatMap fun f => f.violations file o
  | [] => rfl
  | d :: ds => by
    rw [violationsOf, functionsOf, List.filter_append, List.flatMap_append,
      Definition.violations_eq d, violationsOf_eq ds]

end

end

/-! ## one function -/

namespace Signature

theorem hasReceiver_methodKind (f : Signature) : f.methodKind.hasReceiver = true ↔
    f.scope = .inClass ∧ Decorator.staticMethod ∉ f.decorators := by
  unfold methodKind isMethod hasDecorator
  by_cases hc : f.scope = .inClass
  · by_cases hs : Decorator.staticMethod ∈ f.decorators
    · simp [hc, hs, MethodKind.hasReceiver]
    · simp only [hc, hs, beq_self_eq_true, Bool.not_true, Bool.false_eq_true, if_false,
        List.contains_eq_mem, decide_false, not_false_eq_true, and_self, iff_true]
      split <;> rfl
  · simp [hc, MethodKind.hasReceiver]

theorem needsAnnotation_and_not_isAnnotated_iff (o : AuditOptions) (f : Signature)
    (p : Parameter) :
    (p.needsAnnotation f.methodKind o && !p.isAnnotated) = true ↔ p.LacksType o f := by
  have hr := hasReceiver_methodKind f
  have hv : p.kind.isVariadic = true ↔ p.kind = .varPositional ∨ p.kind = .varKeyword := by
    cases p.kind <;> simp [ParameterKind.isVariadic]
  unfold Parameter.needsAnnotation Parameter.isAnnotated Parameter.LacksType
  rw [← hv, ← hr]
  cases p.annotation with
  | none => simp; grind
  | some a => simp

theorem needsReturn_and_isNone_iff (f : Signature) :
    (f.needsReturn && f.returns.isNone) = true ↔ f.LacksReturn := by
  unfold needsReturn isMethod implicitReturnMethods LacksReturn
  cases f.returns with
  | none => simp; tauto
  | some r => simp

variable (f : Signature) (file : String) (o : AuditOptions)

theorem argumentViolations_eq : f.argumentViolations file o =
    (f.parameters.filter fun p => p.LacksType o f).map fun p =>
      .ofArgument file f.line f.name p.name := by
  rw [argumentViolations]
  congr 1
  refine List.filter_congr fun p _ => ?_
  rw [Bool.eq_iff_iff, needsAnnotation_and_not_isAnnotated_iff, decide_eq_true_iff]

/-- violations for returns come from the return, whatever is wanted of the parameters -/
theorem filter_missingReturn_violations :
    (f.violations file o).filter (·.rule = .missingReturn) = f.returnViolations file := by
  have arguments : (f.argumentViolations file o).filter (·.rule = .missingReturn) = [] := by
    rw [List.filter_eq_nil_iff]
    intro v hv
    obtain ⟨p, -, rfl⟩ := List.mem_map.mp hv
    simp [Violation.ofArgument]
  rw [violations, List.filter_append, arguments, List.nil_append, returnViolations]
  split <;> rfl

/-- a function has a violation for its return if it lacks one -/
theorem countP_missingReturn_violations :
    (f.violations file o).countP (·.rule = .missingReturn) = if f.LacksReturn then 1 else 0 := by
  have hret := needsReturn_and_isNone_iff f
  rw [List.countP_eq_length_filter, filter_missingReturn_violations, returnViolations]
  by_cases h : f.LacksReturn
  · rw [if_pos (hret.mpr h), if_pos h]
    rfl
  · rw [if_neg (fun h' => h (hret.mp h')), if_neg h]
    rfl

/-- a function has a violation for each parameter that lacks an annotation -/
theorem countP_missingArgument_violations :
    (f.violations file o).countP (·.rule = .missingArgument) =
      f.parameters.countP fun p => p.LacksType o f := by
  have hret : (f.returnViolations file).countP (·.rule = .missingArgument) = 0 := by
    unfold returnViolations
    split <;> rfl
  rw [violations, List.countP_append, hret, Nat.add_zero, argumentViolations, List.countP_map,
    List.countP_filter]
  apply List.countP_congr
  intro p _
  rw [Bool.and_eq_true, needsAnnotation_and_not_isAnnotated_iff, decide_eq_true_iff]
  exact and_iff_right rfl

end Signature

/-! ## a file -/

theorem Outline.violations_eq (t : Outline) (o : AuditOptions) :
    t.violations o = t.audited.flatMap fun f => f.violations t.path o :=
  violationsOf_eq t.path o t.body

/-- **The audit of a file finds what its functions lack**: its violations are those of the functions
that are not suppressed, one function after the other, with one for each return and one for each
parameter that lacks an annotation. -/
theorem Outline.violations_cover (t : Outline) (o : AuditOptions) :
    t.violations o = t.audited.flatMap (fun f => f.violations t.path o) ∧
      (t.violations o).countP (·.rule = .missingReturn) =
        t.audited.countP (fun f => f.LacksReturn) ∧
      (t.violations o).countP (·.rule = .missingArgument) =
        (t.audited.flatMap fun f => f.parameters.map (f, ·)).countP
          fun fp => fp.2.LacksType o fp.1 := by
  have walk : t.violations o = t.audited.flatMap (fun f => f.violations t.path o) :=
    violationsOf_eq t.path o t.body
  refine ⟨walk, ?_, ?_⟩
  · rw [walk]
    induction t.audited with
    | nil => rfl
    | cons f fs ih =>
      rw [List.flatMap_cons, List.countP_append, ih, f.countP_missingReturn_violations,
        List.countP_cons, Nat.add_comm]
      simp only [decide_eq_true_eq]
  · rw [walk]
    induction t.audited with
    | nil => rfl
    | cons f fs ih =>
      rw [List.flatMap_cons, List.flatMap_cons, List.countP_append, List.countP_append, ih,
        f.countP_missingArgument_violations, List.countP_map]
      rfl

end AnnotationAudit
