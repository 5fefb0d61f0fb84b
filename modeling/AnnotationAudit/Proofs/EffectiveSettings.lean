import AnnotationAudit.Proofs.ExitStatus

/-!
# Which settings are in force

* `Text.IsRuns`              the maximal runs of characters of a text that are not blank;
* `Text.wordsFrom_eq_iff`    they are what a text is split into;
* `StringList.eq_items_iff`  so they are the items of a list that is written as words;
* `Settings.merge_overrides`  what the settings of a document and of a command line come to.
-/

namespace AnnotationAudit

/-! ## words -/

namespace Text

/-- the maximal runs of characters of a text that are not blank, in order: each of them begins
behind blanks or at the front, and ends before a blank or with the text -/
inductive IsRuns : List Char → List (List Char) → Prop where
  | blank {gap : List Char} (blank : ∀ c ∈ gap, isBlank c = true) : IsRuns gap []
  | run {gap run rest : List Char} {runs : List (List Char)}
      (blank : ∀ c ∈ gap, isBlank c = true) (nonempty : run ≠ [])
      (solid : ∀ c ∈ run, isBlank c = false) (ends : ∀ c ∈ rest.head?, isBlank c = true)
      (more : IsRuns rest runs) : IsRuns (gap ++ run ++ rest) (run :: runs)

variable {c : Char} {cs word : List Char} {runs : List (List Char)}

theorem IsRuns.cons_blank (h : IsRuns cs runs) (hc : isBlank c = true) :
    IsRuns (c :: cs) runs := by
  cases h with
  | blank blank => exact .blank (List.forall_mem_cons.mpr ⟨hc, blank⟩)
  | @run gap run rest runs blank nonempty solid ends more =>
    exact @IsRuns.run (c :: gap) run rest runs (List.forall_mem_cons.mpr ⟨hc, blank⟩) nonempty
      solid ends more

/-- a text is split into its runs, whatever of the first one has been read already -/
theorem isRuns_wordsFrom (cs : List Char) {word : List Char}
    (solid : ∀ c ∈ word, isBlank c = false) :
    IsRuns (word.reverse ++ cs) (wordsFrom word cs) := by
  have solid' {word : List Char} (h : ∀ c ∈ word, isBlank c = false) :
      ∀ c ∈ word.reverse, isBlank c = false := fun c hc => h c (List.mem_reverse.mp hc)
  induction cs generalizing word with
  | nil =>
    rw [wordsFrom]
    cases word with
    | nil => exact .blank (fun c hc => absurd hc List.not_mem_nil)
    | cons w ws =>
      exact @IsRuns.run [] _ _ _ (fun c hc => absurd hc List.not_mem_nil) (by simp) (solid' solid)
        (fun c hc => absurd hc (by simp)) (.blank fun c hc => absurd hc List.not_mem_nil)
  | cons c cs ih =>
    rw [wordsFrom]
    by_cases hc : isBlank c = true
    · have later : IsRuns (c :: cs) (wordsFrom [] cs) :=
        (@ih [] fun c hc => absurd hc List.not_mem_nil).cons_blank hc
      rw [if_pos hc]
      cases word with
      | nil => exact later
      | cons w ws =>
        exact @IsRuns.run [] _ _ _ (fun c hc => absurd hc List.not_mem_nil) (by simp) (solid' solid)
          (by simpa using hc) later
    · have grown := @ih (c :: word)
        (List.forall_mem_cons.mpr ⟨Bool.eq_false_iff.mpr hc, solid⟩)
      rw [if_neg hc]
      rwa [List.reverse_cons, List.append_assoc] at grown

theorem wordsFrom_gap {gap : List Char} (blank : ∀ c ∈ gap, isBlank c = true) (cs : List Char) :
    wordsFrom [] (gap ++ cs) = wordsFrom [] cs := by
  induction gap with
  | nil => rfl
  | cons c gap ih =>
    obtain ⟨hc, blank⟩ := List.forall_mem_cons.mp blank
    rw [List.cons_append, wordsFrom, if_pos hc]
    exact ih blank

theorem wordsFrom_run {run : List Char} (solid : ∀ c ∈ run, isBlank c = false)
    (word cs : List Char) : wordsFrom word (run ++ cs) = wordsFrom (run.reverse ++ word) cs := by
  induction run generalizing word with
  | nil => rfl
  | cons c run ih =>
    obtain ⟨hc, solid⟩ := List.forall_mem_cons.mp solid
    rw [List.cons_append, wordsFrom, hc, if_neg Bool.false_ne_true, ih solid, List.reverse_cons,
      List.append_assoc]
    rfl

theorem wordsFrom_end (nonempty : word ≠ []) (ends : ∀ c ∈ cs.head?, isBlank c = true) :
    wordsFrom word cs = word.reverse :: wordsFrom [] cs := by
  have full : word.isEmpty = false := by simpa using nonempty
  cases cs with
  | nil => rw [wordsFrom, wordsFrom, full, if_neg Bool.false_ne_true]; rfl
  | cons c cs =>
    rw [wordsFrom, wordsFrom, if_pos (ends c rfl), if_pos (ends c rfl), full,
      if_neg Bool.false_ne_true]
    rfl

theorem IsRuns.wordsFrom_eq (h : IsRuns cs runs) : wordsFrom [] cs = runs := by
  induction h with
  | @blank gap blank => rw [← List.append_nil gap, wordsFrom_gap blank]; rfl
  | @run gap run rest runs blank nonempty solid ends more ih =>
    rw [List.append_assoc, wordsFrom_gap blank, wordsFrom_run solid, List.append_nil,
      wordsFrom_end (by simpa using nonempty) ends, List.reverse_reverse, ih]

/-- the words of a text are its maximal runs of characters that are not blank -/
theorem wordsFrom_eq_iff : wordsFrom [] cs = runs ↔ IsRuns cs runs :=
  ⟨fun h => h ▸ isRuns_wordsFrom cs fun _ hc => absurd hc List.not_mem_nil,
    IsRuns.wordsFrom_eq⟩

/-- no run is empty, and none holds a blank -/
theorem IsRuns.solid (h : IsRuns cs runs) :
    ∀ run ∈ runs, run ≠ [] ∧ ∀ c ∈ run, isBlank c = false := by
  induction h with
  | blank => exact fun run hrun => absurd hrun List.not_mem_nil
  | run _ nonempty solid _ _ ih => exact List.forall_mem_cons.mpr ⟨⟨nonempty, solid⟩, ih⟩

end Text

namespace StringList

theorem eq_items_iff (text : String) (ws : List String) :
    ws = (words text).items ↔ Text.IsRuns text.toList (ws.map String.toList) := by
  rw [← Text.wordsFrom_eq_iff, eq_comm]
  show (Text.wordsFrom [] text.toList).map String.ofList = ws ↔ _
  constructor
  · rintro rfl
    simp
  · intro h
    rw [h]
    simp

/-- an item of a list that is written as words is not empty and holds no blank -/
theorem solid_of_mem_words {text item : String} (h : item ∈ (words text).items) :
    item ≠ "" ∧ ∀ c ∈ item.toList, Text.isBlank c = false := by
  have runs := (eq_items_iff text _).mp rfl
  obtain ⟨nonempty, solid⟩ := runs.solid item.toList (List.mem_map_of_mem h)
  exact ⟨fun he => nonempty (by rw [he]; rfl), solid⟩

def given (l : Option StringList) : List String := (l.map items).getD []

end StringList

/-! ## settings -/

namespace Settings

open StringList (given)

/-- a flag that is set on the command line cannot be taken back, nor one in the document -/
theorem mergeFlag_flagOverride (file : Option Bool) (b : Bool) :
    mergeFlag file (CommandLine.flagOverride b) = true ↔ b = true ∨ file = some true := by
  unfold mergeFlag CommandLine.flagOverride
  rcases file with _ | _ | _ <;> cases b <;> decide

/-- lists are merged by their items, however they are written -/
theorem merge_congr {file other cli : Config} (files : given file.files = given other.files)
    (exclude : given file.exclude = given other.exclude)
    (rest : { file with files := none, exclude := none } =
      { other with files := none, exclude := none }) :
    merge file cli = merge other cli := by
  obtain ⟨-, -, noGitignore, quiet, verbose, ignoreIfHasDefault, format⟩ := Config.mk.inj rest
  unfold merge mergeList
  unfold given at files exclude
  rw [files, exclude, noGitignore, quiet, verbose, ignoreIfHasDefault, format]

/-- **Which settings are in force.** There are none if and only if no file is given by the document
and none by the command line, and that is then the error. Otherwise the lists are those of the
document and behind them those of the command line, a flag is set if either sets it, and the format
is that of the command line, else of the document, else text. A list that is written as words counts
as the list of its runs of characters that are not blank. -/
theorem merge_overrides (file : Config) (c : CommandLine) :
    (merge file c.overrides = .error .noFiles ↔ given file.files = [] ∧ c.files = []) ∧
      (¬ (given file.files = [] ∧ c.files = []) → ∃ s, merge file c.overrides = .ok s ∧
        s.files = given file.files ++ c.files ∧
        s.exclude = given file.exclude ++ c.exclude ∧
        (s.noGitignore = true ↔ c.noGitignore = true ∨ file.noGitignore = some true) ∧
        (s.quiet = true ↔ c.quiet = true ∨ file.quiet = some true) ∧
        (s.verbose = true ↔ c.verbose = true ∨ file.verbose = some true) ∧
        (s.ignoreIfHasDefault = true ↔
          c.ignoreIfHasDefault = true ∨ file.ignoreIfHasDefault = some true) ∧
        s.format = c.format.getD (file.format.getD .text)) ∧
      (∀ (text : String) (ws : List String), Text.IsRuns text.toList (ws.map String.toList) →
        (file.files = some (.words text) →
          merge { file with files := some (.list ws) } c.overrides = merge file c.overrides) ∧
        (file.exclude = some (.words text) →
          merge { file with exclude := some (.list ws) } c.overrides = merge file c.overrides)) ∧
      ∀ text : String,
        Text.IsRuns text.toList ((StringList.words text).items.map String.toList) ∧
        ∀ item ∈ (StringList.words text).items,
          item ≠ "" ∧ ∀ ch ∈ item.toList, Text.isBlank ch = false := by
  have files : mergeList file.files c.overrides.files = given file.files ++ c.files :=
    mergeList_overrides file c
  have none_iff : (mergeList file.files c.overrides.files).isEmpty = true ↔
      given file.files = [] ∧ c.files = [] := by
    rw [files, List.isEmpty_iff, List.append_eq_nil_iff]
  refine ⟨?_, fun some_file => ?_, fun text ws runs => ?_,
    fun text => ⟨(StringList.eq_items_iff text _).mp rfl,
      fun item => StringList.solid_of_mem_words⟩⟩
  · rw [← none_iff]
    unfold merge
    dsimp only
    split
    · next h => exact iff_of_true rfl h
    · next h => exact iff_of_false nofun h
  · unfold merge
    rw [if_neg (mt none_iff.mp some_file)]
    refine ⟨_, rfl, files, mergeList_listOverride file.exclude c.exclude,
      mergeFlag_flagOverride _ _, mergeFlag_flagOverride _ _, mergeFlag_flagOverride _ _,
      mergeFlag_flagOverride _ _, ?_⟩
    show (c.format <|> file.format).getD .text = _
    cases c.format <;> rfl
  · have same : given (some (.list ws)) = given (some (.words text)) :=
      (StringList.eq_items_iff text ws).mpr runs
    exact ⟨fun h => merge_congr (h ▸ same) rfl rfl, fun h => merge_congr rfl (h ▸ same) rfl⟩

/-- a list of blanks gives no file -/
example :
    merge { files := some (.words " \t") } ({} : CommandLine).overrides = .error .noFiles := by
  decide +kernel

end Settings

end AnnotationAudit
