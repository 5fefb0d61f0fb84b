import AnnotationAudit.Proofs.Contents
import AnnotationAudit.Proofs.ExitStatus
import AnnotationAudit.Proofs.RealFiles

/-!
# Files that do not matter

An execution reads ignore files and the files that it selects. All other files could hold anything.

* `Selector.run_rewrite`     a selection reads ignore files only;
* `Checker.run_rewrite`      a check reads its files only;
* `Settings.execute_eq`      so an execution in two trees that differ elsewhere is the same;
* `Settings.execute_eq_of_linkFree`  in trees without links, ignore files are told by their names,
                             and selected files by their paths;
* `Settings.not_execute_eq`  through links, they are not.
-/

namespace AnnotationAudit

variable {f : Location → FileContent → FileContent}

/-! ## selecting -/

namespace Selector

variable {c : Selector}

/-- files that are read for what they ignore hold what they held -/
def KeepsIgnoreFiles (c : Selector) (f : Location → FileContent → FileContent) : Prop :=
  ∀ (d : Path) l content, c.tree.locate (d.child ignoreFileName) = .ok l →
    c.tree.get? l = some (.file content) → f l content = content

theorem load_rewrite (h : c.KeepsIgnoreFiles f) : (c.rewrite f).load = c.load := by
  funext s d
  unfold load
  dsimp only
  rw [tree_rewrite, FileTree.read_rewrite (h d)]

theorem visitDirectory_rewrite (h : c.KeepsIgnoreFiles f) (s : SelectionState) (p : Path)
    (enter : SelectionState → SelectionState) :
    (c.rewrite f).visitDirectory s p enter = c.visitDirectory s p enter := by
  unfold visitDirectory
  rw [load_rewrite h]
  rfl

variable {jump : SelectionState → List Ancestor → Path → SelectionState}

mutual

/-- a walk never asks what a file holds -/
theorem visitNode_rewrite (h : c.KeepsIgnoreFiles f) (s : SelectionState) (as : List Ancestor)
    (p : Path) (l : Location) : ∀ n : FileNode,
      (c.rewrite f).visitNode jump s as p l (n.rewrite f l) = c.visitNode jump s as p l n
  | .file _ => rfl
  | .directory es => by
    rw [FileNode.rewrite, visitNode, visitNode, visitDirectory_rewrite h]
    exact congrArg (c.visitDirectory s p) (funext fun s => walkWith_rewrite h s _ p l es)
  | .link _ => rfl

theorem walkWith_rewrite (h : c.KeepsIgnoreFiles f) (s : SelectionState) (as : List Ancestor)
    (here : Path) (l : Location) : ∀ es : List (Bytes × FileNode),
      (c.rewrite f).walkWith jump s as here l (FileNode.rewriteIn f l es) =
        c.walkWith jump s as here l es
  | [] => rfl
  | e :: es => by
    rw [FileNode.rewriteIn, walkWith, walkWith, visitEntry_rewrite h s as here l e,
      walkWith_rewrite h _ as here l es]

theorem visitEntry_rewrite (h : c.KeepsIgnoreFiles f) (s : SelectionState) (as : List Ancestor)
    (here : Path) (l : Location) : ∀ e : Bytes × FileNode,
      (c.rewrite f).visitEntry jump s as here l (FileNode.rewriteOf f l e) =
        c.visitEntry jump s as here l e
  | (name, n) => visitNode_rewrite h s as (here.child name) (l ++ [name]) n

end

/-- the induction is on the number of links to follow -/
theorem jump_rewrite (h : c.KeepsIgnoreFiles f) (links : Nat) :
    (c.rewrite f).jump links = c.jump links := by
  induction links using Nat.strongRecOn with
  | ind links ih =>
    funext s as p
    unfold jump
    rw [tree_rewrite, FileTree.locate_rewrite]
    cases c.tree.locate p with
    | error e => rfl
    | ok l =>
      dsimp only
      rw [FileTree.get?_rewrite]
      cases c.tree.get? l with
      | none => rfl
      | some n =>
        cases n with
        | file => rfl
        | link => rfl
        | directory es =>
          dsimp only [Option.map_some, FileNode.rewrite]
          cases as.find? fun a => a.location == l with
          | some a => rfl
          | none =>
            cases links with
            | zero => rfl
            | succ n =>
              dsimp only
              rw [visitDirectory_rewrite h, ih n (Nat.lt_succ_self n)]
              exact congrArg (c.visitDirectory s p) (funext fun s => walkWith_rewrite h s _ p l es)

theorem walk_rewrite (h : c.KeepsIgnoreFiles f) (s : SelectionState) (i : Location) :
    (c.rewrite f).walk s i = c.walk s i := by
  unfold walk
  rw [tree_rewrite, FileTree.get?_rewrite, FileTree.directories_rewrite, jump_rewrite h,
    load_rewrite h]
  cases c.tree.get? i with
  | none => rfl
  | some n =>
    cases n with
    | file => rfl
    | link => rfl
    | directory es => exact walkWith_rewrite h _ _ _ i es

theorem loadBelow_rewrite (h : c.KeepsIgnoreFiles f) (s : SelectionState) (d : Path)
    (names : List Bytes) : (c.rewrite f).loadBelow s d names = c.loadBelow s d names := by
  induction names generalizing s d with
  | nil => rfl
  | cons name names ih => rw [loadBelow, loadBelow, load_rewrite h, ih]

theorem selectInput_rewrite (h : c.KeepsIgnoreFiles f) (s : SelectionState) (input : Path) :
    (c.rewrite f).selectInput s input = c.selectInput s input := by
  have looking (p : Path) : (c.rewrite f).loadAbove s p = c.loadAbove s p := by
    unfold loadAbove
    rw [base_rewrite]
    cases p.relativeTo? c.base with
    | none => rfl
    | some rest => exact loadBelow_rewrite h s c.base _
  unfold selectInput
  dsimp only
  rw [tree_rewrite, base_rewrite, FileTree.locate_rewrite]
  cases c.tree.locate (c.base.join input) with
  | error e => rfl
  | ok l =>
    dsimp only
    rw [looking, walk_rewrite h]
    rw [FileTree.isDirectory_rewrite]
    rfl

theorem run_rewrite (h : c.KeepsIgnoreFiles f) (inputs : List Path) :
    (c.rewrite f).run inputs = c.run inputs := by
  have start : (c.rewrite f).start = c.start := by
    unfold start
    rw [load_rewrite h]
    rfl
  have step : (c.rewrite f).selectInput = c.selectInput := by
    funext s input
    exact selectInput_rewrite h s input
  unfold run
  rw [start, step]

end Selector

/-! ## checking -/

namespace Checker

variable {t : FileTree} {base : Path} {o : AuditOptions}

theorem run_rewrite {files : List Path} (h : ∀ p ∈ files, ∀ l content, t.locate p = .ok l →
      t.get? l = some (.file content) → f l content = content) :
    (⟨t.rewrite f, base, o⟩ : Checker).run files = (⟨t, base, o⟩ : Checker).run files := by
  refine List.foldl_ext _ _ _ fun x p hp => ?_
  have read : (t.rewrite f).readText p = t.readText p := by
    unfold FileTree.readText
    rw [FileTree.read_rewrite (h p hp)]
  unfold checkFile
  rw [read]
  rfl

end Checker

/-! ## executing -/

namespace Settings

/-- an execution reads ignore files and the files that it selects -/
theorem execute_rewrite (s : Settings) {t : FileTree} (directory : Path) (styled : Bool)
    (hi : (s.selector t directory).KeepsIgnoreFiles f)
    (hs : ∀ p ∈ ((s.selector t directory).select s.inputs).files, ∀ l content,
      t.locate p = .ok l → t.get? l = some (.file content) → f l content = content) :
    s.execute (t.rewrite f) directory styled = s.execute t directory styled := by
  have selector : Selector.ofBase (t.rewrite f) directory s.exclude (!s.noGitignore) =
      (s.selector t directory).rewrite f := Selector.ofBase_rewrite t directory s.exclude _
  have selection : ((s.selector t directory).rewrite f).select s.inputs =
      (s.selector t directory).select s.inputs := by
    unfold Selector.select
    rw [Selector.run_rewrite hi]
  have checked : (Checker.ofBase (t.rewrite f) ((s.selector t directory).rewrite f).base
      s.audit).run ((s.selector t directory).select s.inputs).files =
      (s.checker t directory).run ((s.selector t directory).select s.inputs).files := by
    unfold checker Checker.ofBase
    rw [FileTree.canonical_rewrite]
    exact Checker.run_rewrite hs
  unfold execute
  rw [selector]
  dsimp only
  rw [selection, checked]
  rfl

/-- **Files that do not matter.** Trees that differ in the contents of files only, and of no file
that a path to an ignore file or a selected path leads to, give the same execution: the same exit
code, the same report and the same log. -/
theorem execute_eq (s : Settings) {t u : FileTree} (w : u.WellFormed) (directory : Path)
    (styled : Bool)
    (h : t.DiffersAt (fun l => (∀ d : Path, t.locate (d.child ignoreFileName) ≠ .ok l) ∧
      ∀ p ∈ ((s.selector t directory).select s.inputs).files, t.locate p ≠ .ok l) u) :
    s.execute u directory styled = s.execute t directory styled := by
  obtain ⟨f, rfl, hf⟩ := h.exists_rewrite w
  refine s.execute_rewrite directory styled (fun d l content hl hc => ?_)
    fun p hp l content hl hc => ?_
  · exact hf l content hc fun hP => hP.1 d hl
  · exact hf l content hc fun hP => hP.2 p hp hl

/-- in trees without links, ignore files are told by their names, and selected files by their paths
-/
theorem execute_eq_of_linkFree (s : Settings) {t u : FileTree} (wt : t.WellFormed)
    (plain : t.LinkFree) (wu : u.WellFormed) (directory : Path) (styled : Bool)
    (h : t.DiffersAt (fun l => l.getLast? ≠ some ignoreFileName ∧
      l.path ∉ ((s.selector t directory).select s.inputs).files) u) :
    s.execute u directory styled = s.execute t directory styled := by
  obtain ⟨f, rfl, hf⟩ := h.exists_rewrite wu
  refine s.execute_rewrite directory styled (fun d l content hl hc => ?_)
    fun p hp l content hl hc => ?_
  · refine hf l content hc fun hP => hP.1 ?_
    exact FileTree.getLast?_of_locate_child plain (by decide +kernel) hl
  · refine hf l content hc fun hP => hP.2 ?_
    obtain ⟨x, rfl, hx⟩ := (Selector.files_run wt s.inputs).2 p (mem_preferStubs.mp hp).1
    have unlinked : ¬ t.Linked x := by
      rintro ⟨m, target, -, hm⟩
      have hlink := (plain.get? hm).self
      cases hlink
    have leads : t.locate x.path = .ok x := FileTree.locate_path wt (hx.resolve_left unlinked)
    obtain rfl := Except.ok.inj (leads.symm.trans hl)
    exact hp

/-- a project with a source that has a stub -/
def shadowed : FileTree :=
  ⟨[("p", .directory [("x.py", .file (.text "")), ("x.pyi", .file (.bytes []))])]⟩

/-- the settings to check the working directory, without a report -/
def quietly : Settings where
  files := ["."]
  exclude := []
  noGitignore := false
  quiet := true
  verbose := false
  ignoreIfHasDefault := false
  format := .text

theorem execute_eq_shadowed :
    (shadowed.setContent ["p", "x.py"] (.text "def")).WellFormed ∧
      shadowed.DiffersAt (fun l => (∀ d : Path, shadowed.locate (d.child ignoreFileName) ≠ .ok l) ∧
        ∀ p ∈ ((quietly.selector shadowed ⟨true, ["p"]⟩).select quietly.inputs).files,
          shadowed.locate p ≠ .ok l) (shadowed.setContent ["p", "x.py"] (.text "def")) ∧
      (quietly.execute shadowed ⟨true, ["p"]⟩ false).code = 1 ∧
      quietly.execute (shadowed.setContent ["p", "x.py"] (.text "def")) ⟨true, ["p"]⟩ false =
        quietly.execute shadowed ⟨true, ["p"]⟩ false := by
  have w : (shadowed.setContent ["p", "x.py"] (.text "def")).WellFormed := by decide +kernel
  have plain : shadowed.LinkFree := by decide +kernel
  have files : ((quietly.selector shadowed ⟨true, ["p"]⟩).select quietly.inputs).files =
      [⟨true, ["p", "x.pyi"]⟩] := by decide +kernel
  have differ : shadowed.DiffersAt (fun l =>
      (∀ d : Path, shadowed.locate (d.child ignoreFileName) ≠ .ok l) ∧
      ∀ p ∈ ((quietly.selector shadowed ⟨true, ["p"]⟩).select quietly.inputs).files,
        shadowed.locate p ≠ .ok l) (shadowed.setContent ["p", "x.py"] (.text "def")) := by
    refine FileTree.differsAt_setContent ⟨fun d hd => ?_, ?_⟩ (.text "def")
    · have name := FileTree.getLast?_of_locate_child plain (by decide +kernel) hd
      exact absurd name (by decide)
    · rw [files]
      exact List.forall_mem_singleton.mpr (by decide +kernel)
  exact ⟨w, differ, by decide +kernel, quietly.execute_eq w ⟨true, ["p"]⟩ false differ⟩

/-- a project whose ignore file is a link to a file with another name -/
def redirected : FileTree :=
  ⟨[("p", .directory [
    (".gitignore", .link ⟨false, ["rules"]⟩),
    ("a.py", .file (.bytes [])),
    ("rules", .file (.text ""))])]⟩

/-- through a link, a file matters although it is neither named as an ignore file nor selected -/
theorem not_execute_eq :
    ¬ ∀ (s : Settings) (t u : FileTree) (directory : Path) (styled : Bool), t.WellFormed →
      u.WellFormed → t.DiffersAt (fun l => l.getLast? ≠ some ignoreFileName ∧
        l.path ∉ ((s.selector t directory).select s.inputs).files) u →
      (s.execute u directory styled).output = (s.execute t directory styled).output ∧
        (s.execute u directory styled).code = (s.execute t directory styled).code := by
  intro h
  have files : ((quietly.selector redirected ⟨true, ["p"]⟩).select quietly.inputs).files =
      [⟨true, ["p", "a.py"]⟩] := by decide +kernel
  have differ : redirected.DiffersAt (fun l => l.getLast? ≠ some ignoreFileName ∧
      l.path ∉ ((quietly.selector redirected ⟨true, ["p"]⟩).select quietly.inputs).files)
      (redirected.setContent ["p", "rules"] (.text "a.py\n")) :=
    FileTree.differsAt_setContent ⟨by decide, by rw [files]; decide⟩ (.text "a.py\n")
  obtain ⟨-, code⟩ := h quietly redirected _ ⟨true, ["p"]⟩ false (by decide +kernel)
    (by decide +kernel) differ
  exact absurd code (by decide +kernel)

end Settings

end AnnotationAudit
