import AnnotationAudit.Proofs.Accounting
import AnnotationAudit.Proofs.Coverage
import AnnotationAudit.Proofs.ExitStatus
import AnnotationAudit.Proofs.FileCount
import AnnotationAudit.Proofs.Narrowing
import AnnotationAudit.Proofs.Nesting
import AnnotationAudit.Proofs.ShownPaths
import Mathlib.Data.List.Chain

/-!
# The files of an execution that have violations

An execution checks no path twice, and the violations of a file stand together. So the summary
counts the files with violations as they are, unless two of them that follow each other are shown
alike, which cannot be where all names are plain texts.

* `FileTree.HasNames`             what holds of the names of all entries;
* `Selector.names_candidates`     it holds of the names in what is selected;
* `Checker.file_of_mem_checkFile` a violation names its file by the path that is shown;
* `Checker.filesWithViolations_run`     the count is that of the runs of shown paths;
* `Settings.result`               the outcome that an execution reports;
* `Settings.filesWithViolations_result`  how many files it counts.
-/

namespace AnnotationAudit

/-! ## names of entries -/

/-- `P` holds of the names of all entries of a directory -/
def FileNode.HasNames (P : Bytes → Prop) : FileNode → Prop
  | .directory entries => ∀ e ∈ entries, P e.1
  | _ => True

instance (P : Bytes → Prop) [DecidablePred P] : DecidablePred (FileNode.HasNames P)
  | .directory entries => inferInstanceAs (Decidable (∀ e ∈ entries, P e.1))
  | .file _ => .isTrue trivial
  | .link _ => .isTrue trivial

/-- `P` holds of the names of all entries of all directories -/
def FileTree.HasNames (P : Bytes → Prop) (t : FileTree) : Prop := t.root.Every (FileNode.HasNames P)

instance (P : Bytes → Prop) [DecidablePred P] : DecidablePred (FileTree.HasNames P) := fun t =>
  inferInstanceAs (Decidable (t.root.Every (FileNode.HasNames P)))

variable {P : Bytes → Prop}

theorem FileNode.names_of_get? {n k : FileNode} {l : Location} (h : n.Every (HasNames P))
    (hk : n.get? l = some k) : ∀ s ∈ l, P s := by
  induction l generalizing n with
  | nil => exact fun _ hs => absurd hs List.not_mem_nil
  | cons s l ih =>
    obtain ⟨entries, d, rfl, hd, hk⟩ := entries_of_get?_cons hk
    obtain ⟨names, nodes⟩ := Every.directory_iff.mp h
    have mem := FileEntries.mem_of_get? hd
    exact List.forall_mem_cons.mpr ⟨names _ mem, ih (nodes _ mem) hk⟩

namespace Walk

open FileNode

/-- a walk names what it finds by names of entries -/
theorem passes_names {t : FileTree} (h : t.HasNames P) :
    Passes t (fun x _ n => (∀ s ∈ x, P s) ∧ n.Every (HasNames P))
      fun p => ∃ y : Location, (∀ s ∈ y, P s) ∧ p = y.path := by
  have below {x : Location} {es : FileEntries} (hx : ∀ s ∈ x, P s)
      (hes : (FileNode.directory es).Every (HasNames P)) (e : Bytes × FileNode) (he : e ∈ es) :
      (∀ s ∈ x ++ [e.1], P s) ∧ e.2.Every (HasNames P) := by
    obtain ⟨names, nodes⟩ := Every.directory_iff.mp hes
    exact ⟨List.forall_mem_append.mpr ⟨hx, List.forall_mem_singleton.mpr (names e he)⟩, nodes e he⟩
  exact
    { file := fun h => ⟨_, h.1, rfl⟩
      target := fun hk => ⟨_, names_of_get? h hk, rfl⟩
      entry := fun h => below h.1 h.2
      behind := fun hx hk => below hx.1 (h.get? hk) }

end Walk

namespace Selector

variable {c : Selector}

theorem names_candidates (w : c.tree.WellFormed) (h : c.tree.HasNames P) (inputs : List Path) :
    ∀ p ∈ c.candidates inputs, ∃ y : Location, (∀ s ∈ y, P s) ∧ p = y.path :=
  (candidates_finds w
    (fun _ _ => Walk.forall_mem_sources (Walk.passes_names h) fun _ hi =>
      ⟨FileNode.names_of_get? h hi, h.get? hi⟩)
    (fun i hi => hi.elim fun _ hn => ⟨i, FileNode.names_of_get? h hn.1, rfl⟩) inputs).2

theorem nodup_select (w : c.tree.WellFormed) (inputs : List Path) :
    (c.select inputs).files.Nodup :=
  (candidates_finds w (P := fun _ => True) (fun _ _ _ _ => trivial) (fun _ _ => trivial)
    inputs).1.filter _

/-- where all names are texts without backslashes, no two selected paths are shown alike -/
theorem shown_select_inj (w : c.tree.WellFormed)
    (plain : c.tree.HasNames fun s => Text.backslash ∉ s ∧ isText s = true) {inputs : List Path}
    {base p q : Path} (hp : p ∈ (c.select inputs).files) (hq : q ∈ (c.select inputs).files)
    (h : base.shown p = base.shown q) : p = q := by
  have kept : ∀ p ∈ (c.select inputs).files,
      ∃ y : Location, y.IsNamed ∧ y.IsPlain ∧ y.IsText ∧ p = y.path := by
    intro p hp
    have mem := (mem_preferStubs.mp hp).1
    obtain ⟨y, named, rfl⟩ := isNamed_candidates w inputs p mem
    obtain ⟨z, names, same⟩ := names_candidates w plain inputs _ mem
    obtain rfl := Location.path_inj.mp same
    exact ⟨y, named, fun s hs => (names s hs).1, fun s hs => (names s hs).2, rfl⟩
  obtain ⟨x, namedX, plainX, textX, rfl⟩ := kept p hp
  obtain ⟨y, namedY, plainY, textY, rfl⟩ := kept q hq
  rw [Location.shown_inj namedX namedY plainX plainY textX textY h]

end Selector

/-! ## violations of a file -/

theorem Signature.file_of_mem_violations {f : Signature} {file : String} {o : AuditOptions}
    {v : Violation} (h : v ∈ f.violations file o) : v.file = file := by
  rcases List.mem_append.mp h with h | h
  · obtain ⟨p, -, rfl⟩ := List.mem_map.mp h
    rfl
  · rw [returnViolations] at h
    split at h
    · rw [List.mem_singleton.mp h]
      rfl
    · exact absurd h List.not_mem_nil

theorem Outline.file_of_mem_violations {t : Outline} {o : AuditOptions} {v : Violation}
    (h : v ∈ t.violations o) : v.file = t.path := by
  rw [Outline.violations, violationsOf_eq] at h
  obtain ⟨f, -, hv⟩ := List.mem_flatMap.mp h
  exact Signature.file_of_mem_violations hv

namespace Checker

variable (c : Checker)

/-- a violation names its file by the path that is shown -/
theorem file_of_mem_checkFile {p : Path} {v : Violation} (h : v ∈ (c.checkFile p).violations) :
    v.file = c.base.shown p := by
  cases ho : c.outline? p with
  | none =>
    obtain ⟨f, -, hf⟩ := c.checkFile_of_no_outline ho
    rw [hf] at h
    exact absurd h List.not_mem_nil
  | some o =>
    rw [c.checkFile_of_outline ho] at h
    obtain ⟨text, -, parsed⟩ := c.outline?_eq_some_iff.mp ho
    rw [Outline.file_of_mem_violations h, Outline.eq_ofNode_of_check parsed]
    rfl

/-- does a file have a violation? -/
def Violates (p : Path) : Prop := (c.checkFile p).violations ≠ []

instance : DecidablePred c.Violates := fun p =>
  inferInstanceAs (Decidable ((c.checkFile p).violations ≠ []))

/-- **The count is that of the runs of shown paths** of the files with violations. -/
theorem filesWithViolations_run (files : List Path) : (c.run files).filesWithViolations =
    Outcome.runs ((files.filter c.Violates).map c.base.shown) := by
  -- both lists begin alike, so that one more file changes their counts alike
  suffices h : ((c.run files).violations.map Violation.file).head? =
        ((files.filter c.Violates).map c.base.shown).head? ∧
      (c.run files).filesWithViolations =
        Outcome.runs ((files.filter c.Violates).map c.base.shown) from h.2
  induction files with
  | nil => exact ⟨rfl, rfl⟩
  | cons p ps ih =>
    obtain ⟨first, rest⟩ := ih
    unfold Outcome.filesWithViolations at rest ⊢
    rw [run_cons, Outcome.merge, List.map_append, List.filter_cons]
    by_cases violates : c.Violates p
    · have named : ∀ a ∈ (c.checkFile p).violations.map Violation.file, a = c.base.shown p :=
        List.forall_mem_map.mpr fun v hv => c.file_of_mem_checkFile hv
      have some : (c.checkFile p).violations.map Violation.file ≠ [] :=
        mt List.map_eq_nil_iff.mp violates
      rw [if_pos (decide_eq_true violates), List.map_cons]
      constructor
      · obtain ⟨a, block, hb⟩ := List.exists_cons_of_ne_nil some
        rw [hb] at named ⊢
        exact congrArg Option.some (named a List.mem_cons_self)
      · rw [Outcome.runs_block some named, Outcome.runs_cons, Outcome.runs_cons, first, rest]
    · have none : (c.checkFile p).violations = [] := not_not.mp violates
      rw [none, if_neg (by simpa using violates)]
      exact ⟨first, rest⟩

end Checker

/-! ## executions -/

namespace Settings

variable (s : Settings) {t : FileTree}

/-- the outcome that an execution reports -/
def result (t : FileTree) (directory : Path) : Outcome :=
  let selection := (s.selector t directory).select s.inputs
  outcome selection ((s.checker t directory).run selection.files)

/-- **How many files an execution counts.** The outcome that an execution reports counts each of the
selected files that have a violation once, unless two of them that follow each other are shown
alike: then it counts less. Where all names are texts without backslashes no two are. A file is the
path by which it was selected: one that is selected under two paths, through a link, is two. -/
theorem filesWithViolations_result (w : t.WellFormed) (directory : Path) :
    let c := s.checker t directory
    let files := ((s.selector t directory).select s.inputs).files
    let count := (s.result t directory).filesWithViolations
    files.Nodup ∧
      count ≤ (files.toFinset.filter c.Violates).card ∧
      (count = (files.toFinset.filter c.Violates).card ↔
        (files.filter c.Violates).IsChain fun p q => c.base.shown p ≠ c.base.shown q) ∧
      ((t.HasNames fun name => Text.backslash ∉ name ∧ isText name = true) →
        count = (files.toFinset.filter c.Violates).card) ∧
      ∀ styled, s.execute t directory styled =
        { code := if (s.result t directory).isClean then 0 else 1
          output := if s.quiet then "" else Report.render s.format styled (s.result t directory)
          log := (s.execute t directory styled).log } := by
  intro c files count
  have nodup : files.Nodup := Selector.nodup_select w s.inputs
  have counted : count = Outcome.runs ((files.filter c.Violates).map c.base.shown) :=
    c.filesWithViolations_run files
  have once : (files.toFinset.filter c.Violates).card =
      ((files.filter c.Violates).map c.base.shown).length := by
    rw [List.length_map, ← List.toFinset_card_of_nodup (nodup.filter _)]
    congr 1
    ext p
    simp only [Finset.mem_filter, List.mem_toFinset, List.mem_filter, decide_eq_true_eq]
  have exact_iff : count = (files.toFinset.filter c.Violates).card ↔
      (files.filter c.Violates).IsChain fun p q => c.base.shown p ≠ c.base.shown q := by
    rw [counted, once, Outcome.runs_eq_length_iff, List.isChain_map]
  refine ⟨nodup, counted ▸ once ▸ Outcome.runs_le_length _, exact_iff, fun plain => ?_,
    fun styled => rfl⟩
  refine exact_iff.mpr (List.Pairwise.isChain ?_)
  have once : (files.filter c.Violates).Pairwise (· ≠ ·) := nodup.filter _
  refine once.imp_of_mem fun hp hq differ same => differ ?_
  exact Selector.shown_select_inj (c := s.selector t directory) w plain
    (List.mem_of_mem_filter hp) (List.mem_of_mem_filter hq) same

/-- two packages side by side, each with a file of the same name -/
def neighbours : FileTree :=
  ⟨[("p", .directory [("a.py", .file (.text "def f(): ...\n"))]),
    ("q", .directory [("a.py", .file (.text "def g(x): ...\n"))])]⟩

/-- the settings to check the working directory and the package beside it -/
def besides : Settings where
  files := [".", "../q"]
  exclude := []
  noGitignore := false
  quiet := false
  verbose := false
  ignoreIfHasDefault := false
  format := .text

theorem filesWithViolations_neighbours :
    let c := besides.checker neighbours ⟨true, ["p"]⟩
    (neighbours.WellFormed ∧
      neighbours.HasNames fun name => Text.backslash ∉ name ∧ isText name = true) ∧
      ((besides.selector neighbours ⟨true, ["p"]⟩).select besides.inputs).files =
        [⟨true, ["p", "a.py"]⟩, ⟨true, ["q", "a.py"]⟩] ∧
      (besides.result neighbours ⟨true, ["p"]⟩).filesWithViolations =
        (([⟨true, ["p", "a.py"]⟩, ⟨true, ["q", "a.py"]⟩] : List Path).toFinset.filter
          c.Violates).card := by
  have w : neighbours.WellFormed := by decide +kernel
  have plain : neighbours.HasNames fun name => Text.backslash ∉ name ∧ isText name = true := by
    decide +kernel
  have files : ((besides.selector neighbours ⟨true, ["p"]⟩).select besides.inputs).files =
      [⟨true, ["p", "a.py"]⟩, ⟨true, ["q", "a.py"]⟩] := by decide +kernel
  obtain ⟨-, -, -, counted, -⟩ := besides.filesWithViolations_result w ⟨true, ["p"]⟩
  exact ⟨⟨w, plain⟩, files, files ▸ counted plain⟩

/-- a package with two files whose names are no texts -/
def garbled : FileTree :=
  ⟨[("p", .directory [
    (0xFE :: bytesOf ".py", .file (.text "def f():\n    pass\n")),
    (0xFF :: bytesOf ".py", .file (.text "def f():\n    pass\n"))])]⟩

/-- both files of the package are selected and have a violation, but they are shown alike, and are
counted as one -/
theorem filesWithViolations_garbled :
    let c := besides.checker garbled ⟨true, ["p"]⟩
    let files := ((besides.selector garbled ⟨true, ["p"]⟩).select besides.inputs).files
    (garbled.WellFormed ∧ garbled.HasNames fun name => Text.backslash ∉ name) ∧
      (besides.result garbled ⟨true, ["p"]⟩).filesWithViolations = 1 ∧
      (files.toFinset.filter c.Violates).card = 2 := by
  decide +kernel

end Settings

end AnnotationAudit
