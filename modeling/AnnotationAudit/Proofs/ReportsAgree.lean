import AnnotationAudit.Proofs.DocumentOrder
import AnnotationAudit.Proofs.JsonValues
import AnnotationAudit.Proofs.ViolatingFiles
import AnnotationAudit.Report

/-!
# The three reports agree

The reports for readers, in JSON and in SARIF are written one by one. What they say of the same
outcome is read back here and put side by side.

* `Text.lines_join`            lines that are joined with their ends are found again;
* `Report.text_eq_noIssues`    what a report for readers says of a clean outcome, and of no other;
* `Checker.line_pos_of_mem`    a violation is reported for a line that is counted from one;
* `Violation.IsOneLine`        no text of the violation has a line feed in it;
* `Report.Tells`               a finding in JSON tells a violation;
* `Report.Matches`             a result in SARIF says what a finding in JSON says;
* `Checker.reports_agree`      the three reports of a run tell of the same violations.
-/

namespace AnnotationAudit

/-! ## lines -/

namespace Text

/-- the text can stand on a line: it has no line feed, and no carriage return at its end -/
def IsLine (s : String) : Prop := '\n' ∉ s.toList ∧ s.toList.getLast? ≠ some '\r'

theorem ended_reverse {cs : List Char} (h : cs.getLast? ≠ some '\r') : ended cs.reverse = cs := by
  unfold ended
  split
  · next line reversed =>
    refine absurd ?_ h
    rw [← List.reverse_reverse cs, reversed, List.getLast?_reverse, List.head?_cons]
  · exact List.reverse_reverse cs

theorem linesFrom_append {cs : List Char} (h : '\n' ∉ cs) (line rest : List Char) :
    linesFrom line (cs ++ '\n' :: rest) = ended (cs.reverse ++ line) :: linesFrom [] rest := by
  induction cs generalizing line with
  | nil => rw [List.nil_append, linesFrom, if_pos rfl, List.reverse_nil, List.nil_append]
  | cons c cs ih =>
    obtain ⟨hc, hcs⟩ := List.ne_and_not_mem_of_not_mem_cons h
    rw [List.cons_append, linesFrom, if_neg (Ne.symm hc), ih hcs, List.reverse_cons,
      List.append_assoc, List.singleton_append]

/-- lines that are joined with their ends are found again, in front of those of what follows -/
theorem lines_join {ls : List String} (h : ∀ l ∈ ls, IsLine l) (rest : String) :
    lines (String.join (ls.map fun l => l ++ "\n") ++ rest) = ls ++ lines rest := by
  induction ls with
  | nil => rw [List.map_nil, String.join_nil, String.empty_append, List.nil_append]
  | cons l ls ih =>
    obtain ⟨⟨noFeed, noReturn⟩, others⟩ := List.forall_mem_cons.mp h
    have chars : (l ++ "\n" ++ String.join (ls.map fun l => l ++ "\n") ++ rest).toList =
        l.toList ++ '\n' :: (String.join (ls.map fun l => l ++ "\n") ++ rest).toList := by
      simp
    rw [List.map_cons, String.join_cons, lines, chars, linesFrom_append noFeed, List.append_nil,
      ended_reverse noReturn, List.map_cons, String.ofList_toList]
    exact congrArg (l :: ·) (ih others)

/-- every line brings its end -/
theorem length_le_count_join (ls : List String) :
    ls.length ≤ (String.join (ls.map fun l => l ++ "\n")).toList.count '\n' := by
  induction ls with
  | nil => exact Nat.zero_le _
  | cons l ls ih =>
    rw [List.map_cons, String.join_cons, String.toList_append, String.toList_append,
      List.count_append, List.count_append, List.length_cons]
    have : ("\n".toList).count '\n' = 1 := rfl
    omega

theorem notMem_decimal (n : Nat) : '\n' ∉ (decimal n).toList := by
  rw [decimal, String.toList_ofList]
  exact fun h => absurd (isDigit_of_mem_decimalDigits h) (by decide)

end Text

/-- no text that the violation reports has a line feed -/
structure Violation.IsOneLine (v : Violation) : Prop where
  file : '\n' ∉ v.file.toList
  function : '\n' ∉ v.function.toList
  argument : ∀ a ∈ v.argument, '\n' ∉ a.toList

/-- the words of a violation end with a letter -/
theorem Violation.message_ends (v : Violation) : ∃ cs, v.message.toList = cs ++ ['n'] := by
  have ends (s : String) : ∃ cs, (s ++ "' has no return type annotation").toList = cs ++ ['n'] :=
    ⟨s.toList ++ "' has no return type annotatio".toList, by
      rw [String.toList_append, List.append_assoc]
      rfl⟩
  unfold message
  split
  · next a _ _ =>
    exact ⟨("Argument '" ++ a ++ "' of function '" ++ v.function).toList ++
      "' has no type annotatio".toList, by
        rw [String.toList_append, List.append_assoc]
        rfl⟩
  · exact ends _

theorem Violation.IsOneLine.message {v : Violation} (h : v.IsOneLine) :
    '\n' ∉ v.message.toList := by
  have function := h.function
  unfold Violation.message
  split
  · next a _ given =>
    have argument := h.argument a given
    simp [function, argument]
  · simp [function]

namespace Report

variable {o : Outcome}

/-- what a report for readers says of a violation -/
theorem violationLine_false (v : Violation) : violationLine false v =
    v.file ++ ":" ++ Text.decimal v.line ++ ": " ++ v.message := by
  have joint : ": " = ":" ++ " " := rfl
  rw [violationLine, paint_false, paint_false, joint]
  simp only [String.append_assoc]

theorem isLine_violationLine {v : Violation} (h : v.IsOneLine) :
    Text.IsLine (violationLine false v) := by
  rw [violationLine_false]
  constructor
  · have number := Text.notMem_decimal v.line
    simp [h.file, h.message, number]
  · obtain ⟨cs, ends⟩ := v.message_ends
    rw [String.toList_append, ends, ← List.append_assoc, List.getLast?_concat]
    decide

/-- a report for readers begins with a line for each violation -/
theorem lines_text (h : ∀ v ∈ o.violations, v.IsOneLine) :
    ∃ others, Text.lines (text false o) = o.violations.map (violationLine false) ++ others := by
  have split : ∃ rest, text false o =
      String.join ((o.violations.map (violationLine false)).map fun l => l ++ "\n") ++ rest := by
    rw [text, lines, List.append_assoc, List.map_append, String.join_append]
    exact ⟨_, rfl⟩
  obtain ⟨rest, ht⟩ := split
  exact ⟨Text.lines rest, ht ▸ Text.lines_join (List.forall_mem_map.mpr fun v hv =>
    isLine_violationLine (h v hv)) rest⟩

/-- a report for readers says that there are no issues if that is so, and only then -/
theorem text_eq_noIssues : text false o = "No issues found\n" ↔ o.isClean = true := by
  constructor
  · intro h
    by_contra dirty
    have few : (lines false o).length ≤ 1 := by
      have := Text.length_le_count_join (lines false o)
      rw [← text, h] at this
      exact this
    rw [lines, if_neg dirty, List.length_append] at few
    exact absurd few (by simp)
  · intro clean
    obtain ⟨noViolations, noFailures⟩ := Outcome.isClean_iff.mp clean
    rw [text, lines, if_pos clean, noViolations, noFailures]
    rfl

end Report

/-! ## lines are counted from one -/

theorem Outline.line_pos_of_mem {path text : String} {t : Outline} (h : parse path text = .ok t)
    {options : AuditOptions} {v : Violation} (hv : v ∈ t.violations options) : 1 ≤ v.line := by
  rcases parse_cases path text with ⟨n, -, refused⟩ | ⟨o, ho, -, lowers⟩
  · exact absurd (refused.symm.trans h) nofun
  · obtain rfl : o = t := Except.ok.inj (ho.symm.trans h)
    have counted : ∀ f ∈ functionsOf o.body, 1 ≤ f.line :=
      ((List.forall₂_and_left _ _).mp (lowers.functions.flip.imp fun f n head =>
        ⟨IsHeadOf.line_eq head ▸ Nat.succ_pos n.row, head⟩)).1
    rw [violations, violationsOf_eq] at hv
    obtain ⟨f, hf, hv⟩ := List.mem_flatMap.mp hv
    exact Signature.line_of_mem_violations hv ▸ counted f (List.mem_of_mem_filter hf)

theorem Checker.mem_violations_run (c : Checker) {files : List Path} {v : Violation} :
    v ∈ (c.run files).violations ↔ ∃ p ∈ files, v ∈ (c.checkFile p).violations := by
  induction files with
  | nil => exact iff_of_false List.not_mem_nil fun ⟨_, hp, _⟩ => absurd hp List.not_mem_nil
  | cons p ps ih =>
    rw [run_cons, Outcome.merge, List.mem_append, ih]
    exact (List.exists_mem_cons_iff (fun q => v ∈ (c.checkFile q).violations) p ps).symm

theorem Checker.line_pos_of_mem (c : Checker) {files : List Path} {v : Violation}
    (h : v ∈ (c.run files).violations) : 1 ≤ v.line := by
  obtain ⟨p, -, hv⟩ := c.mem_violations_run.mp h
  cases ho : c.outline? p with
  | none =>
    obtain ⟨f, -, hf⟩ := c.checkFile_of_no_outline ho
    rw [hf] at hv
    exact absurd hv List.not_mem_nil
  | some t =>
    rw [c.checkFile_of_outline ho] at hv
    obtain ⟨text, -, parsed⟩ := c.outline?_eq_some_iff.mp ho
    exact Outline.line_pos_of_mem parsed hv

/-! ## findings and results -/

namespace Report

open Json

/-- a finding in JSON tells a violation: all that is known of it, and its words -/
structure Tells (finding : Json) (v : Violation) : Prop where
  rule : finding.at? [.member "rule"] = some (.text v.rule.id)
  file : finding.at? [.member "file"] = some (.text v.file)
  line : finding.at? [.member "line"] = some (.number v.line)
  function : finding.at? [.member "function"] = some (.text v.function)
  argument : finding.at? [.member "argument"] = v.argument.map .text
  message : finding.at? [.member "message"] = some (.text v.message)

/-- a result in SARIF says what a finding in JSON says, by a rule of the driver -/
structure Matches (rules : List Json) (result finding : Json) : Prop where
  rule : result.at? [.member "ruleId"] = finding.at? [.member "rule"]
  declared : ∃ r ∈ rules, r.at? [.member "id"] = result.at? [.member "ruleId"]
  message : result.at? [.member "message", .member "text"] = finding.at? [.member "message"]
  line : result.at? [.member "locations", .item 0, .member "physicalLocation", .member "region",
    .member "startLine"] = finding.at? [.member "line"]
  uri : ∃ file, finding.at? [.member "file"] = some (.text file) ∧
    result.at? [.member "locations", .item 0, .member "physicalLocation",
      .member "artifactLocation", .member "uri"] = some (.text (Text.replaceChar '\\' '/' file))

theorem tells (v : Violation) : Tells (Finding.ofViolation v).toJson v := by
  obtain ⟨rule, file, line, function, argument⟩ := v
  cases argument with
  | none => exact ⟨rfl, rfl, rfl, rfl, rfl, rfl⟩
  | some a => exact ⟨rfl, rfl, rfl, rfl, rfl, rfl⟩

theorem matches_of_tells {v : Violation} {finding : Json} (h : Tells finding v)
    (counted : 1 ≤ v.line) : Matches (ViolationRule.all.map sarifRule) (sarifResult v) finding where
  rule := h.rule.symm
  declared := ⟨sarifRule v.rule, List.mem_map_of_mem (by cases v.rule <;> decide), rfl⟩
  message := h.message.symm
  line := by
    have line : max v.line 1 = v.line := Nat.max_eq_left counted
    rw [h.line, ← line]
    rfl
  uri := ⟨v.file, h.file, rfl⟩

end Report

/-! ## the reports of a run -/

open Json in
/-- **The three reports agree.** Read back, the report in JSON lists the violations of a run with
all that is known of them. The report in SARIF has one result for each of these findings, in their
order, for the same rule, words, line and file. The report for readers begins with a line for each
violation if no text has a line feed in it, and says that there are no issues just when the report
in JSON says that the audit is passed. -/
theorem Checker.reports_agree (c : Checker) (files : List Path) :
    let o := c.run files
    ∃ doc sarif run findings results rules,
      Json.parse? (Report.json o) = some doc ∧ Json.parse? (Report.sarif o) = some sarif ∧
      doc.at? [.member "violations"] = some (.array findings) ∧
      sarif.at? [.member "runs"] = some (.array [run]) ∧
      run.at? [.member "results"] = some (.array results) ∧
      run.at? [.member "tool", .member "driver", .member "rules"] = some (.array rules) ∧
      List.Forall₂ Report.Tells findings o.violations ∧
      List.Forall₂ (Report.Matches rules) results findings ∧
      ((∀ v ∈ o.violations, v.IsOneLine) → ∀ (i : Nat) (v : Violation), o.violations[i]? = some v →
        (Text.lines (Report.text false o))[i]? =
          some (v.file ++ ":" ++ Text.decimal v.line ++ ": " ++ v.message)) ∧
      doc.at? [.member "passed"] =
        some (.boolean (Report.text false o == "No issues found\n")) := by
  intro o
  let finding (v : Violation) : Json := (Report.Finding.ofViolation v).toJson
  have listed : (o.violations.map Report.Finding.ofViolation).map Report.Finding.toJson =
      o.violations.map finding := List.map_map
  have told : List.Forall₂ Report.Tells (o.violations.map finding) o.violations :=
    List.forall₂_map_left_iff.mpr (List.forall₂_same.mpr fun v _ => Report.tells v)
  refine ⟨(Report.Document.ofOutcome o).toJson, Report.sarifDocument o, _, o.violations.map finding,
    o.violations.map Report.sarifResult, ViolationRule.all.map Report.sarifRule,
    Json.parse?_eq (Json.isTextOf_prettyLine _), Json.parse?_eq (Json.isTextOf_prettyLine _),
    congrArg (fun findings => some (Json.array findings)) listed, rfl, rfl, rfl, told, ?matched,
    ?readers, ?passed⟩
  case matched =>
    rw [List.forall₂_map_left_iff, List.forall₂_map_right_iff]
    exact List.forall₂_same.mpr fun v hv =>
      Report.matches_of_tells (Report.tells v) (c.line_pos_of_mem hv)
  case readers =>
    intro oneLine i v hv
    obtain ⟨others, hl⟩ := Report.lines_text oneLine
    obtain ⟨short, -⟩ := List.getElem?_eq_some_iff.mp hv
    rw [hl, List.getElem?_append_left (by rwa [List.length_map]), List.getElem?_map, hv,
      Option.map_some, Report.violationLine_false]
  case passed =>
    show some (Json.boolean o.isClean) = _
    rw [Bool.eq_iff_iff.mpr (Report.text_eq_noIssues.symm.trans beq_iff_eq.symm)]

end AnnotationAudit
