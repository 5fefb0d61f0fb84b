import AnnotationAudit.Check
import Mathlib.Data.List.Basic

/-!
# Every file is accounted for

* `Checker.outline?`        the outline of a file, if it can be read and is accepted;
* `Checker.checkFile_eq`    a file with an outline is scanned and brings its violations, any other
                            brings one failure;
* `Checker.run_append`      files are checked independently of each other;
* `Checker.run_accounts`    so no file is lost, and those that fail leave no trace in the others.
-/

namespace AnnotationAudit
namespace Checker

variable (c : Checker)

/-- the outline of a file, unless it cannot be read or is refused -/
def outline? (p : Path) : Option Outline :=
  match c.tree.readText p with
  | .error _ => none
  | .ok text => (Outline.parse (c.base.shown p) text).toOption

/-! ## one file -/

theorem checkText_eq (shown text : String) :
    match (Outline.parse shown text).toOption with
    | some o => c.checkText shown text = ⟨o.violations c.options, [], 1⟩
    | none => ∃ f : FileFailure, f.file = shown ∧ c.checkText shown text = ⟨[], [f], 0⟩ := by
  unfold checkText
  cases Outline.parse shown text with
  | error e => exact ⟨.ofParse shown (some e.line) e.message, rfl, rfl⟩
  | ok o => rfl

/-- what a file brings: its violations, or one failure that names it -/
theorem checkFile_eq (p : Path) :
    match c.outline? p with
    | some o => c.checkFile p = ⟨o.violations c.options, [], 1⟩
    | none => ∃ f : FileFailure, f.file = c.base.shown p ∧ c.checkFile p = ⟨[], [f], 0⟩ := by
  unfold outline? checkFile
  cases c.tree.readText p with
  | error e => exact ⟨_, rfl, rfl⟩
  | ok text => exact c.checkText_eq (c.base.shown p) text

theorem checkFile_of_outline {p : Path} {o : Outline} (h : c.outline? p = some o) :
    c.checkFile p = ⟨o.violations c.options, [], 1⟩ := by
  have hp := c.checkFile_eq p
  rw [h] at hp
  exact hp

theorem checkFile_of_no_outline {p : Path} (h : c.outline? p = none) :
    ∃ f : FileFailure, f.file = c.base.shown p ∧ c.checkFile p = ⟨[], [f], 0⟩ := by
  have hp := c.checkFile_eq p
  rw [h] at hp
  exact hp

/-- a file is either scanned or a failure -/
theorem scanned_add_failures_checkFile (p : Path) :
    (c.checkFile p).scanned + (c.checkFile p).failures.length = 1 := by
  cases h : c.outline? p with
  | some o => rw [c.checkFile_of_outline h]; rfl
  | none =>
    obtain ⟨f, -, hf⟩ := c.checkFile_of_no_outline h
    rw [hf]
    rfl

theorem outline?_eq_some_iff {p : Path} {o : Outline} : c.outline? p = some o ↔
    ∃ text, c.tree.readText p = .ok text ∧ Outline.parse (c.base.shown p) text = .ok o := by
  unfold outline?
  cases c.tree.readText p with
  | error e => simp
  | ok text => cases h : Outline.parse (c.base.shown p) text <;> simp [h, Except.toOption]

/-- nothing is found in a file if and only if it has an outline, and that has no violations -/
theorem isClean_checkFile_iff (p : Path) : (c.checkFile p).isClean = true ↔
    ∃ o, c.outline? p = some o ∧ o.violations c.options = [] := by
  rw [Outcome.isClean_iff]
  cases h : c.outline? p with
  | some o =>
    rw [c.checkFile_of_outline h]
    simp
  | none =>
    obtain ⟨f, -, hf⟩ := c.checkFile_of_no_outline h
    rw [hf]
    simp

/-! ## files one after the other -/

theorem foldl_merge (o : Outcome) (files : List Path) :
    files.foldl (fun o p => o.merge (c.checkFile p)) o = o.merge (c.run files) := by
  induction files generalizing o with
  | nil => exact o.merge_empty.symm
  | cons p ps ih =>
    have hrun : c.run (p :: ps) = (Outcome.empty.merge (c.checkFile p)).merge (c.run ps) := ih _
    rw [List.foldl_cons, ih, hrun, Outcome.empty_merge, Outcome.merge_assoc]

theorem run_nil : c.run [] = .empty := rfl

theorem run_cons (p : Path) (ps : List Path) :
    c.run (p :: ps) = (c.checkFile p).merge (c.run ps) := by
  rw [run, List.foldl_cons, foldl_merge, Outcome.empty_merge]

theorem run_append (xs ys : List Path) : c.run (xs ++ ys) = (c.run xs).merge (c.run ys) := by
  rw [run, List.foldl_append, foldl_merge]
  rfl

theorem run_singleton (p : Path) : c.run [p] = c.checkFile p := by
  rw [run_cons, run_nil, Outcome.merge_empty]

theorem scanned_add_failures_run (files : List Path) :
    (c.run files).scanned + (c.run files).failures.length = files.length := by
  induction files with
  | nil => rfl
  | cons p ps ih =>
    have hp := c.scanned_add_failures_checkFile p
    rw [run_cons, List.length_cons]
    show (c.checkFile p).scanned + (c.run ps).scanned +
      ((c.checkFile p).failures ++ (c.run ps).failures).length = ps.length + 1
    rw [List.length_append]
    omega

theorem isClean_run_iff (files : List Path) : (c.run files).isClean = true ↔
    ∀ p ∈ files, ∃ o, c.outline? p = some o ∧ o.violations c.options = [] := by
  induction files with
  | nil => simp [run_nil, Outcome.empty, Outcome.isClean]
  | cons p ps ih =>
    rw [List.forall_mem_cons, ← c.isClean_checkFile_iff p, ← ih, run_cons]
    simp only [Outcome.isClean_iff, Outcome.merge, List.append_eq_nil_iff]
    tauto

/-- the number of scanned files never exceeds that of the files -/
theorem scanned_run_take_le (files : List Path) (k : Nat) :
    (c.run (files.take k)).scanned ≤ files.length := by
  have h := c.scanned_add_failures_run (files.take k)
  rw [List.length_take] at h
  omega

/-- what was found in the files that have an outline does not depend on the others -/
theorem run_filter_outline (files : List Path) :
    (c.run (files.filter fun p => (c.outline? p).isSome)).violations = (c.run files).violations ∧
      (c.run (files.filter fun p => (c.outline? p).isSome)).scanned = (c.run files).scanned := by
  induction files with
  | nil => exact ⟨rfl, rfl⟩
  | cons p ps ih =>
    obtain ⟨hv, hs⟩ := ih
    rw [List.filter_cons, c.run_cons p ps]
    cases h : c.outline? p with
    | some o =>
      rw [Option.isSome_some, if_pos rfl, run_cons]
      exact ⟨congrArg (_ ++ ·) hv, congrArg (_ + ·) hs⟩
    | none =>
      obtain ⟨f, -, hf⟩ := c.checkFile_of_no_outline h
      rw [Option.isSome_none, if_neg Bool.false_ne_true, hf, Outcome.merge]
      exact ⟨hv, hs.trans (Nat.zero_add _).symm⟩

/-- **Every file is accounted for, and failures are isolated.** -/
theorem run_accounts (files : List Path) :
    (∀ xs ys, c.run (xs ++ ys) = (c.run xs).merge (c.run ys)) ∧
      (c.run files).scanned + (c.run files).failures.length = files.length ∧
      (∀ k, (c.run (files.take k)).scanned ≤ files.length) ∧
      (∀ p, match c.outline? p with
        | some o => c.run [p] = ⟨o.violations c.options, [], 1⟩
        | none => ∃ f : FileFailure, f.file = c.base.shown p ∧ c.run [p] = ⟨[], [f], 0⟩) ∧
      (c.run (files.filter fun p => (c.outline? p).isSome)).violations =
        (c.run files).violations ∧
      (c.run (files.filter fun p => (c.outline? p).isSome)).scanned = (c.run files).scanned := by
  refine ⟨c.run_append, c.scanned_add_failures_run files, c.scanned_run_take_le files, fun p => ?_,
    c.run_filter_outline files⟩
  rw [run_singleton]
  exact c.checkFile_eq p

end Checker
end AnnotationAudit
