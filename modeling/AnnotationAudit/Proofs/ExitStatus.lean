import AnnotationAudit.Execution
import AnnotationAudit.Proofs.Accounting
import AnnotationAudit.Proofs.Failures

/-!
# What the exit code says

* `Surroundings.ConfigUnusable`  the file with the settings cannot be read, or is wrong;
* `Surroundings.NothingGiven`    neither the settings nor the command line name a file;
* `Settings.AllWell`             every input leads somewhere, every walk goes well, and every
                                 selected file is read, accepted and without violation;
* `Surroundings.respond_code`    the exit code is 2 in the first two cases, 0 in the third and 1
                                 otherwise, however the report is written.
-/

namespace AnnotationAudit

/-! ## settings -/

namespace Surroundings

variable (w : Surroundings) (c : CommandLine)

/-- the file with the settings and its name in errors: the one that the command line names, else
the project's if there is one -/
def configFile? : Option (Path × String) :=
  match c.config with
  | some file => some (w.directory.join (.ofBytes file), textOf file)
  | none =>
    let file := w.directory.child projectFileName
    if w.tree.isFile file then some (file, file.toString) else none

/-- the file with the settings cannot be read, or is wrong -/
def ConfigUnusable : Prop :=
  ∃ file ∈ w.configFile? c, (∃ e, w.tree.readText file.1 = .error e) ∨
    ∃ text e, w.tree.readText file.1 = .ok text ∧ Config.parse text file.2 = .error e

/-- the settings name no file, and neither does the command line -/
def NothingGiven : Prop :=
  ∃ file, w.config c = .ok file ∧ (file.files.map StringList.items).getD [] ++ c.files = []

theorem config_eq : w.config c =
    match w.configFile? c with
    | some file => Config.ofFile w.tree file.1 file.2
    | none => .ok {} := by
  unfold config configFile? Config.discover
  cases c.config with
  | some file => rfl
  | none =>
    dsimp only
    split <;> rfl

theorem configUnusable_iff : w.ConfigUnusable c ↔ ∃ e, w.config c = .error e := by
  unfold ConfigUnusable
  rw [config_eq]
  cases w.configFile? c with
  | none => simp
  | some file =>
    unfold Config.ofFile
    cases h : w.tree.readText file.1 with
    | error e => simp [h]
    | ok text => simp [h]

end Surroundings

theorem Settings.mergeList_listOverride (file : Option StringList) (items : List String) :
    Settings.mergeList file (CommandLine.listOverride items) =
      (file.map StringList.items).getD [] ++ items := by
  unfold Settings.mergeList CommandLine.listOverride
  cases items <;> rfl

theorem Settings.mergeList_overrides (file : Config) (c : CommandLine) :
    Settings.mergeList file.files c.overrides.files =
      (file.files.map StringList.items).getD [] ++ c.files :=
  mergeList_listOverride file.files c.files

namespace Surroundings

variable (w : Surroundings) (c : CommandLine)

/-- settings are refused where no file with them can be used, and where no file is to be checked -/
theorem settings_eq_error_iff : (∃ e, w.settings c = .error e) ↔
    w.ConfigUnusable c ∨ w.NothingGiven c := by
  rw [configUnusable_iff]
  unfold NothingGiven settings
  cases w.config c with
  | error e => exact ⟨fun _ => .inl ⟨e, rfl⟩, fun _ => ⟨e, rfl⟩⟩
  | ok file =>
    show (∃ e, Settings.merge file c.overrides = .error e) ↔ _
    unfold Settings.merge
    rw [Settings.mergeList_overrides]
    simp only [List.isEmpty_iff]
    split
    · next h => exact ⟨fun _ => .inr ⟨file, rfl, h⟩, fun _ => ⟨_, rfl⟩⟩
    · next h =>
      constructor
      · rintro ⟨e, he⟩
        cases he
      · rintro (⟨e, he⟩ | ⟨file', hf, hn⟩)
        · cases he
        · cases hf
          exact absurd hn h

end Surroundings

/-! ## checking -/

namespace Settings

variable (s : Settings) (tree : FileTree) (directory : Path)

def selector : Selector := Selector.ofBase tree directory s.exclude (!s.noGitignore)

def checker : Checker := Checker.ofBase tree (s.selector tree directory).base s.audit

/-- nothing is to be complained about: every input leads somewhere, every walk goes well, and every
selected file is read, accepted and without violation -/
structure AllWell : Prop where
  inputs : ∀ i ∈ s.inputs, (s.selector tree directory).Resolves i
  walks : ∀ x ∈ (s.selector tree directory).walks s.inputs, (s.selector tree directory).GoesWell x
  files : ∀ p ∈ ((s.selector tree directory).select s.inputs).files,
    ∃ text o, tree.readText p = .ok text ∧
      Outline.parse ((s.checker tree directory).base.shown p) text = .ok o ∧
      o.violations s.audit = []

theorem execute_code (styled : Bool) : (s.execute tree directory styled).code =
    if (outcome ((s.selector tree directory).select s.inputs) ((s.checker tree directory).run
      ((s.selector tree directory).select s.inputs).files)).isClean then 0 else 1 := rfl

theorem isClean_outcome_iff (x : Selection) (o : Outcome) :
    (outcome x o).isClean = true ↔ x.failures = [] ∧ o.isClean = true := by
  simp only [Outcome.isClean_iff, outcome, List.append_eq_nil_iff]
  tauto

/-- the four sources of the verdict: inputs, walks, files that fail, and violations -/
theorem isClean_iff_allWell :
    (outcome ((s.selector tree directory).select s.inputs) ((s.checker tree directory).run
      ((s.selector tree directory).select s.inputs).files)).isClean = true ↔
      s.AllWell tree directory := by
  have hsel : ((s.selector tree directory).select s.inputs).failures = [] ↔ _ :=
    (s.selector tree directory).failures_run_eq_nil_iff s.inputs
  rw [isClean_outcome_iff, hsel, Checker.isClean_run_iff]
  simp only [Checker.outline?_eq_some_iff]
  constructor
  · rintro ⟨⟨hi, hw⟩, hf⟩
    refine ⟨hi, hw, fun p hp => ?_⟩
    obtain ⟨o, ⟨text, ht, ho⟩, hv⟩ := hf p hp
    exact ⟨text, o, ht, ho, hv⟩
  · rintro ⟨hi, hw, hf⟩
    refine ⟨⟨hi, hw⟩, fun p hp => ?_⟩
    obtain ⟨text, o, ht, ho, hv⟩ := hf p hp
    exact ⟨o, ⟨text, ht, ho⟩, hv⟩

theorem execute_code_eq_zero_iff (styled : Bool) :
    (s.execute tree directory styled).code = 0 ↔ s.AllWell tree directory := by
  rw [execute_code, ← isClean_iff_allWell]
  split
  · next h => exact iff_of_true rfl h
  · next h => exact iff_of_false Nat.one_ne_zero h

theorem execute_code_le (styled : Bool) : (s.execute tree directory styled).code ≤ 1 := by
  rw [execute_code]
  split
  · exact Nat.zero_le 1
  · exact Nat.le_refl 1

end Settings

/-! ## the program -/

namespace Surroundings

variable (w : Surroundings) (c : CommandLine)

theorem respond_of_error {e : ConfigError} (h : w.settings c = .error e) :
    w.respond c = .ofConfigError e := by
  unfold respond
  rw [h]

theorem code_respond_of_ok {s : Settings} (h : w.settings c = .ok s) :
    (w.respond c).code = (s.execute w.tree w.directory (w.styled c)).code := by
  unfold respond
  rw [h]

theorem output_respond_of_ok {s : Settings} (h : w.settings c = .ok s) :
    (w.respond c).output = (s.execute w.tree w.directory (w.styled c)).output := by
  unfold respond
  rw [h]

/-- no report is written where settings are refused, or ask for none -/
theorem output_respond : (w.respond c).output = "" ∨
    ∃ s, w.settings c = .ok s ∧ s.quiet = false := by
  cases h : w.settings c with
  | error e => exact .inl (by rw [w.respond_of_error c h]; rfl)
  | ok s =>
    cases hq : s.quiet with
    | false => exact .inr ⟨s, rfl, hq⟩
    | true =>
      left
      rw [w.output_respond_of_ok c h]
      show (if s.quiet then "" else _) = ""
      rw [hq]
      rfl

/-- the settings of a command line whose report is written differently select and check alike -/
theorem settings_restyled (quiet verbose noColor : Bool) (format : Option ReportFormat) :
    w.settings { c with quiet, verbose, format, noColor } =
      (w.settings c).map fun s =>
        { s with
          quiet := Settings.mergeFlag ((w.config c).toOption.bind Config.quiet)
            (CommandLine.flagOverride quiet)
          verbose := Settings.mergeFlag ((w.config c).toOption.bind Config.verbose)
            (CommandLine.flagOverride verbose)
          format := (format <|> (w.config c).toOption.bind Config.format).getD .text } := by
  have hc : w.config { c with quiet, verbose, format, noColor } = w.config c := rfl
  unfold settings
  rw [hc]
  cases w.config c with
  | error e => rfl
  | ok file =>
    show Settings.merge file _ = (Settings.merge file c.overrides).map _
    unfold Settings.merge
    rw [Settings.mergeList_overrides, Settings.mergeList_overrides]
    dsimp only
    split <;> rfl

/-- the exit code does not depend on how the report is written -/
theorem code_respond_restyled (quiet verbose noColor : Bool) (format : Option ReportFormat) :
    (w.respond { c with quiet, verbose, format, noColor }).code = (w.respond c).code := by
  have hs := w.settings_restyled c quiet verbose noColor format
  cases h : w.settings c with
  | error e =>
    rw [h] at hs
    rw [w.respond_of_error c h, w.respond_of_error _ hs]
  | ok s =>
    rw [h] at hs
    rw [w.code_respond_of_ok c h, w.code_respond_of_ok _ hs]
    rfl

theorem output_respond_quiet : (w.respond { c with quiet := true }).output = "" := by
  rcases w.output_respond { c with quiet := true } with h | ⟨s, hs, hq⟩
  · exact h
  · -- the command line's flag beats the one in the file
    have hs' := w.settings_restyled c true c.verbose c.noColor c.format
    rw [hs] at hs'
    cases hc : w.settings c with
    | error e => rw [hc] at hs'; cases hs'
    | ok s' =>
      rw [hc] at hs'
      cases hs'
      cases hq

end Surroundings

end AnnotationAudit
