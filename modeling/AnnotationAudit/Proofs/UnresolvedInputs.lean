import AnnotationAudit.Proofs.Selecting
import AnnotationAudit.Proofs.ShownBack
import AnnotationAudit.Proofs.ViolatingFiles

/-!
# Inputs that lead nowhere

A selection writes failures down and never reads them, so earlier failures only stand in front of
what comes later. An input that leads nowhere does nothing but fail, and a selection with it is the
one without it, with one more failure.

* `SelectionState.behind`       a state with earlier failures;
* `Selector.selectInput_behind`  earlier failures do not change what an input does;
* `Selector.unresolved?`        the failure of an input that leads nowhere;
* `Selector.told`               what each input adds to the failures;
* `Selector.select_unresolved`  inputs that lead nowhere leave no trace but their own failures;
* `Settings.result_unresolved`  neither in a selection nor in what an execution reports.
-/

namespace AnnotationAudit

/-! ## failures are not read -/

namespace SelectionState

/-- a state with earlier failures in front of its own -/
def behind (s : SelectionState) (earlier : List FileFailure) : SelectionState :=
  { s with failures := earlier ++ s.failures }

def silent (s : SelectionState) : SelectionState := { s with failures := [] }

variable (s : SelectionState) (fs : List FileFailure)

theorem behind_silent : s.silent.behind s.failures = s := by
  unfold behind silent
  rw [List.append_nil]

theorem silent_behind : (s.behind fs).silent = s.silent := rfl

theorem fail_behind (f : FileFailure) : (s.behind fs).fail f = (s.fail f).behind fs := by
  unfold fail behind
  rw [List.append_assoc]

theorem find_behind (p : Path) : (s.behind fs).find p = (s.find p).behind fs := by
  unfold find
  rw [apply_ite (behind · fs)]
  rfl

theorem addIgnores_behind (l : IgnoreList) :
    (s.behind fs).addIgnores l = (s.addIgnores l).behind fs := by
  unfold addIgnores
  rw [apply_ite (behind · fs)]
  rfl

end SelectionState

namespace Selector

variable (c : Selector) (s : SelectionState) (fs : List FileFailure)

theorem load_behind (p : Path) : c.load (s.behind fs) p = (c.load s p).behind fs := by
  unfold load
  rw [apply_ite (SelectionState.behind · fs)]
  refine ite_congr rfl (fun _ => rfl) fun _ => ?_
  dsimp only
  cases c.tree.read (p.child ignoreFileName) with
  | error e => rfl
  | ok content =>
    dsimp only
    rw [← SelectionState.addIgnores_behind, apply_ite (SelectionState.behind · fs)]
    rfl

theorem loadBelow_behind (p : Path) (names : List Bytes) :
    c.loadBelow (s.behind fs) p names = (c.loadBelow s p names).behind fs := by
  induction names generalizing s p with
  | nil => rfl
  | cons name names ih => rw [loadBelow, loadBelow, load_behind, ih]

theorem looking_behind (p : Path) : c.looking (s.behind fs) p = (c.looking s p).behind fs := by
  unfold looking loadAbove
  split
  · split
    · exact c.loadBelow_behind s fs c.base _
    · rfl
  · rfl

theorem visitFile_behind (p target : Path) :
    c.visitFile (s.behind fs) p target = (c.visitFile s p target).behind fs := by
  unfold visitFile
  rw [SelectionState.find_behind, apply_ite (SelectionState.behind · fs),
    apply_ite (SelectionState.behind · fs)]
  rfl

variable {s fs} in
theorem visitDirectory_behind (p : Path) {enter : SelectionState → SelectionState}
    (h : ∀ s, enter (s.behind fs) = (enter s).behind fs) :
    c.visitDirectory (s.behind fs) p enter = (c.visitDirectory s p enter).behind fs := by
  unfold visitDirectory
  rw [load_behind, ← apply_ite (SelectionState.behind · fs), h,
    apply_ite (SelectionState.behind · fs)]
  rfl

variable {fs}

mutual

theorem visitNode_behind {jump : SelectionState → List Ancestor → Path → SelectionState}
    (hj : ∀ s as p, jump (s.behind fs) as p = (jump s as p).behind fs) (s : SelectionState)
    (as : List Ancestor) (p : Path) (l : Location) : ∀ n : FileNode,
      c.visitNode jump (s.behind fs) as p l n = (c.visitNode jump s as p l n).behind fs
  | .file _ => c.visitFile_behind s fs p p
  | .directory entries => by
    rw [visitNode, visitNode]
    exact c.visitDirectory_behind p fun s => walkWith_behind hj s (⟨p, l⟩ :: as) p l entries
  | .link _ => hj s as p

theorem walkWith_behind {jump : SelectionState → List Ancestor → Path → SelectionState}
    (hj : ∀ s as p, jump (s.behind fs) as p = (jump s as p).behind fs) (s : SelectionState)
    (as : List Ancestor) (here : Path) (l : Location) : ∀ es : FileEntries,
      c.walkWith jump (s.behind fs) as here l es = (c.walkWith jump s as here l es).behind fs
  | [] => rfl
  | e :: es => by
    rw [walkWith, walkWith, visitEntry_behind hj s as here l e, walkWith_behind hj _ as here l es]

theorem visitEntry_behind {jump : SelectionState → List Ancestor → Path → SelectionState}
    (hj : ∀ s as p, jump (s.behind fs) as p = (jump s as p).behind fs) (s : SelectionState)
    (as : List Ancestor) (here : Path) (l : Location) : ∀ e : Bytes × FileNode,
      c.visitEntry jump (s.behind fs) as here l e = (c.visitEntry jump s as here l e).behind fs
  | (name, node) => visitNode_behind hj s as (here.child name) (l ++ [name]) node

end

/-- following links does not look at failures; the induction is on the number of links to follow -/
theorem jump_behind (links : Nat) : ∀ (s : SelectionState) (as : List Ancestor) (p : Path),
    c.jump links (s.behind fs) as p = (c.jump links s as p).behind fs := by
  induction links using Nat.strongRecOn with
  | ind links ih =>
    intro s as p
    unfold jump
    cases c.tree.locate p with
    | error e => exact s.fail_behind fs _
    | ok l =>
      dsimp only
      cases c.tree.get? l with
      | none => rfl
      | some n =>
        cases n with
        | file content => exact c.visitFile_behind s fs p l.path
        | link target => rfl
        | directory entries =>
          dsimp only
          cases as.find? fun a => a.location == l with
          | some a => exact s.fail_behind fs _
          | none =>
            cases links with
            | zero => rfl
            | succ n =>
              exact c.visitDirectory_behind p fun s =>
                c.walkWith_behind (ih n (Nat.lt_succ_self n)) s _ p l entries

theorem walk_behind (l : Location) : c.walk (s.behind fs) l = (c.walk s l).behind fs := by
  unfold walk
  cases c.tree.get? l with
  | none => rfl
  | some n =>
    cases n with
    | file content => rfl
    | link target => rfl
    | directory entries =>
      dsimp only
      rw [load_behind, ← apply_ite (SelectionState.behind · fs),
        c.walkWith_behind (c.jump_behind _)]

/-- earlier failures do not change what an input does -/
theorem selectInput_behind (input : Path) :
    c.selectInput (s.behind fs) input = (c.selectInput s input).behind fs := by
  cases h : c.tree.locate (c.base.join input) with
  | error e => rw [selectInput_of_error h, selectInput_of_error h, SelectionState.fail_behind]
  | ok l =>
    rw [selectInput_of_leadsTo h, selectInput_of_leadsTo h, looking_behind, walk_behind,
      SelectionState.find_behind, apply_ite (SelectionState.behind · fs),
      apply_ite (SelectionState.behind · fs)]
    rfl

theorem foldl_behind (inputs : List Path) : inputs.foldl c.selectInput (s.behind fs) =
    (inputs.foldl c.selectInput s).behind fs := by
  induction inputs generalizing s with
  | nil => rfl
  | cons i is ih => rw [List.foldl_cons, List.foldl_cons, selectInput_behind, ih]

/-- nor do the failures of a state change anything but failures -/
theorem foldl_silent (inputs : List Path) : (inputs.foldl c.selectInput s.silent).silent =
    (inputs.foldl c.selectInput s).silent := by
  conv => rhs; rw [← s.behind_silent, foldl_behind, SelectionState.silent_behind]

/-! ## inputs that lead nowhere -/

/-- the failure of an input that leads nowhere: it names the input as it is written -/
def unresolved? (input : Path) : Option FileFailure :=
  match c.tree.locate (c.base.join input) with
  | .error e => some (.ofResolution input.toString ("cannot access path: " ++ e.message))
  | .ok _ => none

def resolved (inputs : List Path) : List Path :=
  inputs.filter fun i => (c.unresolved? i).isNone

/-- what each input adds to the failures, from a state on -/
def told (s : SelectionState) : List Path → List (List FileFailure)
  | [] => []
  | i :: is =>
    (c.selectInput s.silent i).failures :: told (c.selectInput s.silent i).silent is

variable {c}

theorem names_unresolved {i : Path} {f : FileFailure} (h : c.unresolved? i = some f) :
    f.kind = .resolution ∧ f.file = i.toString := by
  unfold unresolved? at h
  split at h
  · obtain rfl := Option.some.inj h
    exact ⟨rfl, rfl⟩
  · cases h

theorem selectInput_of_unresolved {i : Path} {f : FileFailure} (h : c.unresolved? i = some f) :
    c.selectInput s i = s.fail f := by
  unfold unresolved? at h
  cases hl : c.tree.locate (c.base.join i) with
  | error e =>
    rw [hl] at h
    rw [selectInput_of_error hl, Option.some.inj h]
  | ok l =>
    rw [hl] at h
    cases h

variable (c)

theorem length_told (inputs : List Path) : (c.told s inputs).length = inputs.length := by
  induction inputs generalizing s with
  | nil => rfl
  | cons i is ih => rw [told, List.length_cons, List.length_cons, ih]

theorem told_take (inputs : List Path) (n : Nat) :
    c.told s (inputs.take n) = (c.told s inputs).take n := by
  induction inputs generalizing s n with
  | nil => rw [List.take_nil, told, List.take_nil]
  | cons i is ih =>
    cases n with
    | zero => rfl
    | succ n => rw [List.take_succ_cons, told, told, List.take_succ_cons, ih]

/-- the failures of a run are those that its inputs add, one behind the other -/
theorem failures_foldl (inputs : List Path) :
    (inputs.foldl c.selectInput s.silent).failures = (c.told s inputs).flatten := by
  induction inputs generalizing s with
  | nil => rfl
  | cons i is ih =>
    have next := @foldl_behind c (c.selectInput s.silent i).silent
      (c.selectInput s.silent i).failures is
    rw [SelectionState.behind_silent] at next
    rw [List.foldl_cons, told, List.flatten_cons, next, ← ih]
    rfl

theorem told_unresolved (inputs : List Path) : ∀ x ∈ inputs.zip (c.told s inputs), ∀ f,
    c.unresolved? x.1 = some f → x.2 = [f] ∧ f.kind = .resolution ∧ f.file = x.1.toString := by
  induction inputs generalizing s with
  | nil => exact fun x hx => absurd hx List.not_mem_nil
  | cons i is ih =>
    rw [told, List.zip_cons_cons]
    refine List.forall_mem_cons.mpr ⟨fun f hf => ⟨?_, names_unresolved hf⟩, ih _⟩
    show (c.selectInput s.silent i).failures = [f]
    rw [selectInput_of_unresolved _ hf]
    rfl

/-- the inputs that lead somewhere do without the others what they do with them -/
theorem foldl_resolved (inputs : List Path) :
    ((c.resolved inputs).foldl c.selectInput s.silent).silent =
        (inputs.foldl c.selectInput s.silent).silent ∧
      c.told s (c.resolved inputs) =
        ((inputs.zip (c.told s inputs)).filter fun x => (c.unresolved? x.1).isNone).map
          Prod.snd := by
  induction inputs generalizing s with
  | nil => exact ⟨rfl, rfl⟩
  | cons i is ih =>
    obtain ⟨state, blocks⟩ := ih (c.selectInput s.silent i).silent
    rw [told, List.zip_cons_cons, resolved, List.filter_cons, List.filter_cons, ← resolved]
    cases h : c.unresolved? i with
    | none =>
      rw [Option.isNone_none, if_pos rfl, if_pos rfl, List.map_cons, told, List.foldl_cons,
        List.foldl_cons, ← c.foldl_silent, ← c.foldl_silent _ is]
      exact ⟨state, congrArg _ blocks⟩
    | some f =>
      have same : (c.selectInput s.silent i).silent = s.silent := by
        rw [selectInput_of_unresolved _ h]
        rfl
      have later : c.told s (c.resolved is) = c.told s.silent (c.resolved is) := by
        cases c.resolved is <;> rfl
      rw [same] at state blocks ⊢
      rw [Option.isNone_some, if_neg Bool.false_ne_true, if_neg Bool.false_ne_true,
        List.foldl_cons, ← c.foldl_silent _ is, same, later]
      exact ⟨state, blocks⟩

/-- Inputs that lead nowhere do not change what is selected. The failures are those that the inputs
add one by one; each input that leads nowhere adds its own, and the others add the same without
it. -/
theorem select_unresolved (inputs : List Path) :
    (c.select inputs).files = (c.select (c.resolved inputs)).files ∧
      ∃ told : List (List FileFailure), told.length = inputs.length ∧
        (∀ n, (c.select (inputs.take n)).failures = (told.take n).flatten) ∧
        (∀ x ∈ inputs.zip told, ∀ f, c.unresolved? x.1 = some f →
          x.2 = [f] ∧ f.kind = .resolution ∧ f.file = x.1.toString) ∧
        (c.select (c.resolved inputs)).failures =
          (((inputs.zip told).filter fun x => (c.unresolved? x.1).isNone).map
            Prod.snd).flatten := by
  have start : c.start.silent = c.start := by
    unfold SelectionState.silent
    rw [← c.failures_start]
  have run (is : List Path) : c.run is = is.foldl c.selectInput c.start.silent := by
    rw [start, Selector.run]
  have failures (is : List Path) : (c.select is).failures = (c.told c.start is).flatten := by
    rw [← failures_foldl, ← run]
    rfl
  obtain ⟨state, blocks⟩ := c.foldl_resolved c.start inputs
  rw [← run, ← run] at state
  refine ⟨?_, c.told c.start inputs, c.length_told c.start inputs, fun n => ?_,
    c.told_unresolved c.start inputs, ?_⟩
  · have files : (c.run (c.resolved inputs)).silent.files = (c.run inputs).silent.files := by
      rw [state]
    exact congrArg preferStubs files.symm
  · rw [failures, told_take]
  · rw [failures, blocks]

/-- the failure of a link on a walk stands between those of the inputs before and behind -/
example : (Selector.select
    { tree := ⟨[("p", .directory [("link", .link ⟨false, ["gone"]⟩)])]⟩, base := ⟨true, ["p"]⟩ }
    ["a.py", ".", "b.py"]).failures.map FileFailure.file = ["a.py", "link", "b.py"] := by
  decide +kernel

end Selector

/-! ## executions -/

namespace Settings

variable (s : Settings) (t : FileTree) (directory : Path)

def withoutUnresolved : Settings :=
  { s with files := s.files.filter fun f => ((s.selector t directory).unresolved? f).isNone }

theorem inputs_withoutUnresolved : (s.withoutUnresolved t directory).inputs =
    (s.selector t directory).resolved s.inputs := by
  rw [inputs, inputs, Selector.resolved, List.filter_map]
  rfl

theorem toString_inputs : s.inputs.map Path.toString = s.files := by
  rw [inputs, List.map_map]
  exact (List.map_congr_left fun f _ => Path.toString_ofString f).trans (List.map_id _)

/-- **Inputs that lead nowhere are inert.** What is selected is the same without them, and so are
the violations and the number of files of an execution. The failures of a selection are those that
the inputs add one by one: an input that leads nowhere adds one failure, which names it as it is
written, and the others add what they add without it. The failures of files come behind them. -/
theorem result_unresolved :
    (∀ (c : Selector) (inputs : List Path),
      (c.select inputs).files = (c.select (c.resolved inputs)).files ∧
        ∃ told : List (List FileFailure), told.length = inputs.length ∧
          (∀ n, (c.select (inputs.take n)).failures = (told.take n).flatten) ∧
          (∀ x ∈ inputs.zip told, ∀ f, c.unresolved? x.1 = some f →
            x.2 = [f] ∧ f.kind = .resolution ∧ f.file = x.1.toString) ∧
          (c.select (c.resolved inputs)).failures =
            (((inputs.zip told).filter fun x => (c.unresolved? x.1).isNone).map
              Prod.snd).flatten) ∧
      let c := s.selector t directory
      let without := s.withoutUnresolved t directory
      let checked := (s.checker t directory).run (c.select s.inputs).files
      s.inputs.map Path.toString = s.files ∧
        (s.result t directory).violations = (without.result t directory).violations ∧
        (s.result t directory).scanned = (without.result t directory).scanned ∧
        (s.result t directory).failures = (c.select s.inputs).failures ++ checked.failures ∧
        (without.result t directory).failures =
          (c.select (c.resolved s.inputs)).failures ++ checked.failures ∧
        ∀ styled, s.execute t directory styled =
          { code := if (s.result t directory).isClean then 0 else 1
            output := if s.quiet then "" else Report.render s.format styled (s.result t directory)
            log := (s.execute t directory styled).log } := by
  refine ⟨Selector.select_unresolved, ?_⟩
  intro c without checked
  have resolved : without.inputs = c.resolved s.inputs := s.inputs_withoutUnresolved t directory
  have files : (c.select s.inputs).files = (c.select (c.resolved s.inputs)).files :=
    (c.select_unresolved s.inputs).1
  have same : without.result t directory =
      outcome (c.select (c.resolved s.inputs)) checked := by
    show outcome (c.select without.inputs) ((s.checker t directory).run
      (c.select without.inputs).files) = _
    rw [resolved, ← files]
  rw [same]
  exact ⟨s.toString_inputs, rfl, rfl, rfl, rfl, fun styled => rfl⟩

end Settings

end AnnotationAudit
