import AnnotationAudit.Proofs.Coverage
import Mathlib.Data.List.Flatten
import Mathlib.Data.List.Perm.Basic

/-!
# What defaults excuse

An audit that leaves out parameters with a default is compared with one that does not.

* `Parameter.IsExcused`         its default is all that excuses a parameter without annotation;
* `Outline.excused`             the parameters of a file that are excused by their defaults;
* `Signature.perm_lacksType`    what parameters lack, with and without the excused ones;
* `Outline.violations_relaxed`  the violations of excused parameters are left out, and no others.
-/

namespace AnnotationAudit

def AuditOptions.strict : AuditOptions := ⟨false⟩

/-- the audit that leaves out parameters with a default -/
def AuditOptions.relaxed : AuditOptions := ⟨true⟩

/-! ## one parameter -/

/-- the parameter of the function has a default and no annotation, and would need one: it is neither
variadic nor the receiver of a method that is not static -/
def Parameter.IsExcused (f : Signature) (p : Parameter) : Prop :=
  p.hasDefault = true ∧ p.annotation = none ∧ ¬ (p.kind = .varPositional ∨ p.kind = .varKeyword) ∧
    ¬ (p.kind = .positional ∧ p.position = 0 ∧ f.scope = .inClass ∧
      Decorator.staticMethod ∉ f.decorators)
deriving Decidable

namespace Parameter

variable {f : Signature} {p : Parameter}

theorem lacksType_relaxed_iff :
    p.LacksType .relaxed f ↔ p.LacksType .strict f ∧ p.hasDefault = false := by
  simp [LacksType, AuditOptions.strict, AuditOptions.relaxed, and_assoc]

theorem isExcused_iff : p.IsExcused f ↔ p.LacksType .strict f ∧ p.hasDefault = true := by
  simp [IsExcused, LacksType, AuditOptions.strict, and_comm, and_assoc]

end Parameter

/-! ## one function -/

namespace Signature

variable (f : Signature) (file : String)

def excused : List Parameter := f.parameters.filter fun p => p.IsExcused f

theorem violations_relaxed_sublist :
    (f.violations file .relaxed).Sublist (f.violations file .strict) := by
  rw [violations, violations, argumentViolations_eq, argumentViolations_eq]
  refine List.Sublist.append (List.Sublist.map _ ?_) (List.Sublist.refl _)
  refine List.monotone_filter_right _ fun p lacks => ?_
  rw [decide_eq_true_iff] at lacks ⊢
  exact (Parameter.lacksType_relaxed_iff.mp lacks).1

/-- the parameters that lack an annotation are those that still lack one when defaults are left out,
and the excused ones -/
theorem perm_lacksType : (f.parameters.filter fun p => p.LacksType .strict f).Perm
    ((f.parameters.filter fun p => p.LacksType .relaxed f) ++ f.excused) := by
  have parts := List.filter_append_perm (fun p => !p.hasDefault)
    (f.parameters.filter fun p => p.LacksType .strict f)
  rw [List.filter_filter, List.filter_filter] at parts
  refine parts.symm.trans (.of_eq (congrArg₂ (· ++ ·) ?_ ?_))
  · refine List.filter_congr fun p _ => ?_
    rw [Bool.eq_iff_iff, decide_eq_true_iff, Parameter.lacksType_relaxed_iff]
    simp [and_comm]
  · refine List.filter_congr fun p _ => ?_
    rw [Bool.eq_iff_iff, decide_eq_true_iff, Parameter.isExcused_iff]
    simp [and_comm]

theorem violations_strict_perm : (f.violations file .strict).Perm
    (f.violations file .relaxed ++
      f.excused.map fun p => .ofArgument file f.line f.name p.name) := by
  have arguments := f.perm_lacksType.map fun p => Violation.ofArgument file f.line f.name p.name
  rw [List.map_append, ← argumentViolations_eq, ← argumentViolations_eq] at arguments
  rw [violations, violations, List.append_assoc]
  refine (arguments.append_right _).trans ?_
  rw [List.append_assoc]
  exact List.perm_append_comm.append_left _

end Signature

/-! ## a file -/

/-- the parameters of audited functions that are excused by their defaults, with their functions -/
def Outline.excused (t : Outline) : List (Signature × Parameter) :=
  (t.audited.flatMap fun f => f.parameters.map (f, ·)).filter fun (f, p) => p.IsExcused f

theorem Outline.excused_eq (t : Outline) :
    t.excused = t.audited.flatMap fun f => f.excused.map (f, ·) := by
  rw [excused, List.filter_flatMap]
  exact List.flatMap_congr fun f _ => List.filter_map

/-- **Defaults excuse parameters, and nothing else.** When parameters with a default are left out,
the violations that remain keep their order, those of returns are all there, and what is missing are
the violations of the excused parameters: there are as many fewer as parameters are excused. -/
theorem Outline.violations_relaxed (t : Outline) :
    (t.violations .relaxed).Sublist (t.violations .strict) ∧
      (t.violations .relaxed).filter (·.rule = .missingReturn) =
        (t.violations .strict).filter (·.rule = .missingReturn) ∧
      (t.violations .strict).Perm (t.violations .relaxed ++
        t.excused.map fun (f, p) => .ofArgument t.path f.line f.name p.name) ∧
      (t.violations .strict).length = (t.violations .relaxed).length + t.excused.length := by
  have difference : (t.violations .strict).Perm (t.violations .relaxed ++
      t.excused.map fun (f, p) => .ofArgument t.path f.line f.name p.name) := by
    rw [violations_eq, violations_eq, excused_eq, List.map_flatMap]
    refine List.Perm.trans ?_ (List.flatMap_append_perm _ _ _).symm
    refine List.Perm.flatMap_left _ fun f _ => ?_
    rw [List.map_map]
    exact f.violations_strict_perm t.path
  refine ⟨?_, ?_, difference, ?_⟩
  · rw [violations_eq, violations_eq]
    exact List.Sublist.flatMap_right _ fun f _ => f.violations_relaxed_sublist t.path
  · rw [violations_eq, violations_eq, List.filter_flatMap, List.filter_flatMap]
    refine List.flatMap_congr fun f _ => ?_
    rw [f.filter_missingReturn_violations, f.filter_missingReturn_violations]
  · rw [difference.length_eq, List.length_append, List.length_map]

end AnnotationAudit
