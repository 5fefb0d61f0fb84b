import AnnotationAudit.Proofs.JsonValues
import AnnotationAudit.Report

/-!
# Failures in reports

A report for readers and a report in JSON tell an outcome with failures from the one that is left
when the failures are taken out. A report in SARIF does not: it is made from the violations alone.

* `Outcome.withoutFailures`          the outcome with its failures taken out;
* `Report.closing`                   the last line of a report for readers;
* `Report.text_ne`, `Report.json_ne` the two reports that tell;
* `Report.render_discloses`          which formats tell.
-/

namespace AnnotationAudit

def Outcome.withoutFailures (o : Outcome) : Outcome := { o with failures := [] }

namespace Report

variable {o : Outcome}

theorem isClean_of_failures (h : o.failures ≠ []) : o.isClean = false := by
  rw [← Bool.not_eq_true, Outcome.isClean_iff]
  exact fun clean => h clean.2

/-! ## reports for readers -/

/-- the last line of a report without styles -/
def closing (o : Outcome) : String := if o.isClean then "No issues found" else summary o

theorem join_concat (ss : List String) (s : String) :
    String.join (ss ++ [s]) = String.join ss ++ s := by
  simp [String.join_append, String.join_cons, String.join_nil]

theorem text_eq (o : Outcome) : ∃ before, text false o = before ++ closing o ++ "\n" := by
  have last : ∃ ls, lines false o = ls ++ [closing o] := by
    by_cases clean : o.isClean = true
    · exact ⟨_, by rw [lines, closing, if_pos clean, if_pos clean, paint_false]⟩
    · refine ⟨o.violations.map (violationLine false) ++ o.failures.map (failureLine false) ++ [""],
        ?_⟩
      rw [lines, closing, if_neg clean, if_neg clean, paint_false]
      simp
  obtain ⟨ls, hls⟩ := last
  refine ⟨String.join (ls.map fun l => l ++ "\n"), ?_⟩
  rw [text, hls, List.map_append, List.map_singleton, join_concat, String.append_assoc]

/-- so the report ends with the last character of its last line, and a line feed -/
theorem getLast?_text {o : Outcome} {c : Char} {cs : List Char}
    (h : (closing o).toList = cs ++ [c]) : (text false o).toList.dropLast.getLast? = some c := by
  obtain ⟨before, ht⟩ := text_eq o
  have chars : (text false o).toList = before.toList ++ cs ++ [c] ++ ['\n'] := by
    rw [ht, String.toList_append, String.toList_append, h]
    simp
  rw [chars, List.dropLast_concat, List.getLast?_concat]

theorem closing_of_failures (h : o.failures ≠ []) :
    ∃ cs, (closing o).toList = cs ++ [')'] := by
  have some_failure : o.failures.isEmpty = false := by simpa using h
  refine ⟨("Found " ++ counted o.violations.length "missing annotation" ++ " in " ++
    counted o.filesWithViolations "file" ++ " (" ++ counted o.failures.length "file" ++
    " could not be checked").toList, ?_⟩
  rw [closing, isClean_of_failures h, summary, some_failure]
  simp

/-- a noun in the singular or in the plural ends a line without failures -/
theorem closing_of_no_failures (h : o.failures = []) :
    ∃ cs c, c ≠ ')' ∧ (closing o).toList = cs ++ [c] := by
  by_cases clean : o.isClean = true
  · exact ⟨"No issues foun".toList, 'd', by decide, by rw [closing, if_pos clean]; decide⟩
  · have line : (closing o).toList = ("Found " ++
        counted o.violations.length "missing annotation" ++ " in ").toList ++
        (Text.decimal o.filesWithViolations ++ " fil").toList ++
          (if o.filesWithViolations = 1 then ['e'] else ['e', 's']) := by
      rw [closing, if_neg clean, summary, h]
      simp only [List.isEmpty_nil, if_true, counted]
      by_cases one : o.filesWithViolations = 1
      · simp [one]
      · simp [one]
    by_cases one : o.filesWithViolations = 1
    · rw [if_pos one] at line
      exact ⟨_, 'e', by decide, line⟩
    · rw [if_neg one, show ['e', 's'] = ['e'] ++ ['s'] from rfl, ← List.append_assoc] at line
      exact ⟨_, 's', by decide, line⟩

theorem text_ne (h : o.failures ≠ []) : text false o ≠ text false o.withoutFailures := by
  intro same
  obtain ⟨cs, hcs⟩ := closing_of_failures h
  obtain ⟨ds, d, hd, hds⟩ := closing_of_no_failures (o := o.withoutFailures) rfl
  have ends := getLast?_text hcs
  rw [same, getLast?_text hds] at ends
  exact hd (Option.some.inj ends)

/-! ## reports for programs -/

theorem json_ne (h : o.failures ≠ []) : json o ≠ json o.withoutFailures := by
  intro same
  have read (o : Outcome) : Json.parse? (json o) = some (Document.ofOutcome o).toJson :=
    Json.parse?_eq (Json.isTextOf_prettyLine _)
  have documents := read o
  rw [same, read o.withoutFailures] at documents
  have failures : some (Json.array []) = some (.array (o.failures.map FileFailure.toJson)) :=
    congrArg (fun doc => doc.bind (Json.at? · [.member "failures"])) documents
  exact h (List.map_eq_nil_iff.mp (Json.array.inj (Option.some.inj failures)).symm)

/-! ## all formats -/

theorem sarif_withoutFailures (o : Outcome) : sarif o.withoutFailures = sarif o := rfl

/-- **Failures show in every report but one in SARIF.** -/
theorem render_discloses (format : ReportFormat) (h : o.failures ≠ []) :
    render format false o ≠ render format false o.withoutFailures ↔ format ≠ .sarif := by
  cases format with
  | text => exact iff_of_true (text_ne h) nofun
  | json => exact iff_of_true (json_ne h) nofun
  | sarif => exact iff_of_false (fun ne => ne (sarif_withoutFailures o).symm) fun ne => ne rfl

/-- a run on two files, one of which is no Python -/
def brokenRun : Outcome :=
  { violations := [.ofReturn "a.py" 3 "add"]
    failures := [.ofParse "bad.py" (some 4) "invalid syntax at line 4, column 1"]
    scanned := 1 }

theorem render_discloses_broken : brokenRun.failures ≠ [] ∧
    render .text false brokenRun ≠ render .text false brokenRun.withoutFailures ∧
    render .json false brokenRun ≠ render .json false brokenRun.withoutFailures :=
  ⟨List.cons_ne_nil _ _, (render_discloses .text (List.cons_ne_nil _ _)).mpr nofun,
    (render_discloses .json (List.cons_ne_nil _ _)).mpr nofun⟩

/-- In SARIF a run on a single file that is no Python is reported as a run that found nothing. -/
theorem not_render_discloses : ¬ ∀ (format : ReportFormat) (o : Outcome), o.failures ≠ [] →
    render format false o ≠ render format false o.withoutFailures := by
  intro discloses
  refine discloses .sarif
    { failures := [.ofParse "bad.py" (some 4) "invalid syntax at line 4, column 1"] }
    (List.cons_ne_nil _ _) ?_
  exact (sarif_withoutFailures _).symm

end Report
end AnnotationAudit
