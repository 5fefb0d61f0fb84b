import AnnotationAudit.Selection
import Mathlib.Data.List.Basic

/-!
# What fails while files are selected

A selection appends to its failures and never looks at them.

* `SelectionState.Extends`      one state has the failures of another and further ones of a kind;
* `Selector.LinkFault`          the failure of a link that leads nowhere, or back into a directory
                                that the walk is in;
* `Selector.walk_extends`       a walk fails at links only;
* `Selector.walks`              the walks that inputs lead to;
* `Selector.failures_run_eq_nil_iff`  nothing fails if and only if every input leads somewhere and
                                every walk goes well.
-/

namespace AnnotationAudit

/-! ## states -/

namespace SelectionState

/-- `t` has the failures of `s`, and behind them only such as `P` holds for -/
def Extends (P : FileFailure → Prop) (s t : SelectionState) : Prop :=
  ∃ new, t.failures = s.failures ++ new ∧ ∀ f ∈ new, P f

namespace Extends

variable {P : FileFailure → Prop} {s t u : SelectionState}

theorem of_eq (h : t.failures = s.failures) : Extends P s t :=
  ⟨[], by rw [h, List.append_nil], fun _ hf => absurd hf List.not_mem_nil⟩

theorem trans (h : Extends P s t) (h' : Extends P t u) : Extends P s u := by
  obtain ⟨new, hst, hnew⟩ := h
  obtain ⟨more, htu, hmore⟩ := h'
  refine ⟨new ++ more, by rw [htu, hst, List.append_assoc], fun f hf => ?_⟩
  rcases List.mem_append.mp hf with hf | hf
  · exact hnew f hf
  · exact hmore f hf

theorem fail {f : FileFailure} (h : P f) : Extends P s (s.fail f) :=
  ⟨[f], rfl, fun _ hg => List.mem_singleton.mp hg ▸ h⟩

/-- without failures behind there are none before -/
theorem failures_eq_nil (h : Extends P s t) (ht : t.failures = []) : s.failures = [] := by
  obtain ⟨new, hst, -⟩ := h
  rw [hst] at ht
  exact (List.append_eq_nil_iff.mp ht).1

end Extends

@[simp] theorem failures_debug (s : SelectionState) (m : String) :
    (s.debug m).failures = s.failures := rfl

@[simp] theorem failures_warn (s : SelectionState) (m : String) :
    (s.warn m).failures = s.failures := rfl

@[simp] theorem failures_find (s : SelectionState) (p : Path) :
    (s.find p).failures = s.failures := by
  unfold find
  split <;> rfl

@[simp] theorem failures_addIgnores (s : SelectionState) (l : IgnoreList) :
    (s.addIgnores l).failures = s.failures := by
  unfold addIgnores
  split <;> rfl

end SelectionState

open SelectionState (Extends)

namespace Selector

variable (c : Selector)

/-! ## reading ignore files -/

@[simp] theorem failures_load (s : SelectionState) (p : Path) :
    (c.load s p).failures = s.failures := by
  unfold load
  split
  · rfl
  · dsimp only
    split
    · rfl
    · simp only [SelectionState.failures_addIgnores]
      split <;> rfl

theorem failures_loadIf (s : SelectionState) (p : Path) :
    (if c.useIgnoreFiles then c.load s p else s).failures = s.failures := by
  split
  · exact c.failures_load s p
  · rfl

@[simp] theorem failures_loadBelow (s : SelectionState) (p : Path) (names : List Bytes) :
    (c.loadBelow s p names).failures = s.failures := by
  induction names generalizing s p with
  | nil => rfl
  | cons name names ih => rw [loadBelow, ih, failures_load]

@[simp] theorem failures_loadAbove (s : SelectionState) (p : Path) :
    (c.loadAbove s p).failures = s.failures := by
  unfold loadAbove
  split <;> simp

@[simp] theorem failures_start : c.start.failures = [] := by
  have warned : ∀ (es : List (Nat × RuleError)) (f : Nat × RuleError → String)
      (s : SelectionState), (es.foldl (fun s e => s.warn (f e)) s).failures = s.failures := by
    intro es f
    induction es with
    | nil => intro s; rfl
    | cons e es ih => intro s; rw [List.foldl_cons, ih]; rfl
  unfold start
  dsimp only
  split <;> simp [warned]

/-! ## walking -/

/-- the failure of a link that leads nowhere, or back into a directory that the walk is in -/
def LinkFault (f : FileFailure) : Prop :=
  ∃ p, (∃ e, c.tree.locate p = .error e ∧ f = c.brokenLink p e) ∨
    ∃ a : Ancestor, c.tree.locate p = .ok a.location ∧ f = c.loop p a

@[simp] theorem failures_visitFile (s : SelectionState) (p target : Path) :
    (c.visitFile s p target).failures = s.failures := by
  unfold visitFile
  split
  · rfl
  · split <;> simp

theorem visitDirectory_extends (s : SelectionState) (p : Path)
    {enter : SelectionState → SelectionState}
    (h : ∀ s, Extends c.LinkFault s (enter s)) :
    Extends c.LinkFault s (c.visitDirectory s p enter) := by
  unfold visitDirectory
  split
  · exact .of_eq rfl
  · refine Extends.trans (.of_eq ?_) (h _)
    split <;> simp

mutual

theorem visitNode_extends {jump : SelectionState → List Ancestor → Path → SelectionState}
    (hj : ∀ s as p, Extends c.LinkFault s (jump s as p)) (s : SelectionState)
    (as : List Ancestor) (p : Path) (l : Location) :
    ∀ n : FileNode, Extends c.LinkFault s (c.visitNode jump s as p l n)
  | .file _ => .of_eq (c.failures_visitFile s p p)
  | .directory entries => c.visitDirectory_extends s p fun s =>
      walkWith_extends hj s (⟨p, l⟩ :: as) p l entries
  | .link _ => hj s as p

/-- walking over entries fails at links only, if following links does -/
theorem walkWith_extends {jump : SelectionState → List Ancestor → Path → SelectionState}
    (hj : ∀ s as p, Extends c.LinkFault s (jump s as p)) (s : SelectionState)
    (as : List Ancestor) (here : Path) (l : Location) :
    ∀ es : List (Bytes × FileNode), Extends c.LinkFault s (c.walkWith jump s as here l es)
  | [] => .of_eq rfl
  | e :: es => (visitEntry_extends hj s as here l e).trans (walkWith_extends hj _ as here l es)

theorem visitEntry_extends {jump : SelectionState → List Ancestor → Path → SelectionState}
    (hj : ∀ s as p, Extends c.LinkFault s (jump s as p)) (s : SelectionState)
    (as : List Ancestor) (here : Path) (l : Location) :
    ∀ e : Bytes × FileNode, Extends c.LinkFault s (c.visitEntry jump s as here l e)
  | (name, node) => visitNode_extends hj s as (here.child name) (l ++ [name]) node

end

/-- following links fails at links only; the induction is on the number of links to follow -/
theorem jump_extends (links : Nat) : ∀ (s : SelectionState) (as : List Ancestor) (p : Path),
    Extends c.LinkFault s (c.jump links s as p) := by
  induction links using Nat.strongRecOn with
  | ind links ih =>
    intro s as p
    unfold jump
    split
    · next e he => exact .fail ⟨p, .inl ⟨e, he, rfl⟩⟩
    · next l hl =>
      split
      · exact .of_eq (c.failures_visitFile s p _)
      · split
        · next a ha =>
          have hloc : a.location = l := by simpa using List.find?_some ha
          exact .fail ⟨p, .inr ⟨a, hloc ▸ hl, rfl⟩⟩
        · split
          · exact .of_eq rfl
          · next n =>
            exact c.visitDirectory_extends s p fun s =>
              c.walkWith_extends (ih n (Nat.lt_succ_self n)) s _ p l _
      · exact .of_eq rfl

/-- a walk fails at links only -/
theorem walk_extends (s : SelectionState) (l : Location) :
    Extends c.LinkFault s (c.walk s l) := by
  unfold walk
  split
  · refine Extends.trans (.of_eq ?_) (c.walkWith_extends (c.jump_extends _) _ _ _ _ _)
    split <;> simp
  · exact .of_eq rfl

/-! ## inputs -/

def Resolves (input : Path) : Prop := ∃ l, c.tree.locate (c.base.join input) = .ok l

/-- the state in which an input that leads to a path is looked at -/
def looking (s : SelectionState) (p : Path) : SelectionState :=
  if c.useIgnoreFiles then c.loadAbove s p else s

/-- the walk that an input leads to, and the state in which it begins; there is none if the input
leads nowhere, to a file, or to a directory that is left out -/
def walkOf? (s : SelectionState) (input : Path) : Option (SelectionState × Location) :=
  match c.tree.locate (c.base.join input) with
  | .error _ => none
  | .ok l =>
    if c.tree.isDirectory l.path && !(c.looking s l.path).isExcluded l.path true then
      some (c.looking s l.path, l)
    else none

def walksFrom (s : SelectionState) : List Path → List (SelectionState × Location)
  | [] => []
  | input :: inputs => (c.walkOf? s input).toList ++ walksFrom (c.selectInput s input) inputs

def walks (inputs : List Path) : List (SelectionState × Location) := c.walksFrom c.start inputs

/-- a walk goes well if no link on its way fails -/
def GoesWell (w : SelectionState × Location) : Prop := (c.walk w.1 w.2).failures = w.1.failures

theorem failures_looking (s : SelectionState) (p : Path) :
    (c.looking s p).failures = s.failures := by
  unfold looking
  split <;> simp

/-- what an input does: it fails, or it is walked over, or it fails nowhere -/
theorem selectInput_cases (s : SelectionState) (input : Path) :
    (¬ c.Resolves input ∧ ∃ f, c.selectInput s input = s.fail f) ∨
    (c.Resolves input ∧ ∃ w, c.walkOf? s input = some w ∧ w.1.failures = s.failures ∧
      c.selectInput s input = c.walk w.1 w.2) ∨
    (c.Resolves input ∧ c.walkOf? s input = none ∧
      (c.selectInput s input).failures = s.failures) := by
  unfold Resolves walkOf? selectInput
  cases c.tree.locate (c.base.join input) with
  | error e =>
    refine .inl ⟨?_, _, rfl⟩
    rintro ⟨l, hl⟩
    cases hl
  | ok l =>
    have hl : ∃ l', (Except.ok l : Except AccessError Location) = .ok l' := ⟨l, rfl⟩
    have hf := c.failures_looking s l.path
    dsimp only
    rw [← looking]
    cases hd : c.tree.isDirectory l.path with
    | false =>
      refine .inr (.inr ⟨hl, by simp, ?_⟩)
      split
      · exact hf
      · rw [if_neg Bool.false_ne_true, SelectionState.failures_find, hf]
    | true =>
      cases hx : (c.looking s l.path).isExcluded l.path true with
      | true => exact .inr (.inr ⟨hl, by simp, hf⟩)
      | false => exact .inr (.inl ⟨hl, (c.looking s l.path, l), by simp, hf, by simp⟩)

theorem failures_selectInput_eq_nil_iff (s : SelectionState) (input : Path) :
    (c.selectInput s input).failures = [] ↔
      s.failures = [] ∧ c.Resolves input ∧ ∀ w ∈ c.walkOf? s input, c.GoesWell w := by
  rcases c.selectInput_cases s input with ⟨hr, f, hs⟩ | ⟨hr, w, hw, hf, hs⟩ | ⟨hr, hw, hs⟩
  · rw [hs]
    constructor
    · intro h
      exact absurd h (List.append_ne_nil_of_right_ne_nil _ (List.cons_ne_nil f []))
    · rintro ⟨-, h, -⟩
      exact absurd h hr
  · rw [hs, hw]
    constructor
    · intro h
      have h0 := (c.walk_extends w.1 w.2).failures_eq_nil h
      refine ⟨hf ▸ h0, hr, fun v hv => ?_⟩
      obtain rfl : w = v := Option.some.inj hv
      exact h.trans h0.symm
    · rintro ⟨h, -, hgo⟩
      exact (hgo w rfl).trans (hf.trans h)
  · rw [hs, hw]
    exact ⟨fun h => ⟨h, hr, fun v hv => absurd hv (Option.not_mem_none v)⟩, fun h => h.1⟩

theorem failures_foldl_eq_nil_iff (s : SelectionState) (inputs : List Path) :
    (inputs.foldl c.selectInput s).failures = [] ↔
      s.failures = [] ∧ (∀ i ∈ inputs, c.Resolves i) ∧
        ∀ w ∈ c.walksFrom s inputs, c.GoesWell w := by
  induction inputs generalizing s with
  | nil => simp [walksFrom]
  | cons i is ih =>
    rw [List.foldl_cons, ih, failures_selectInput_eq_nil_iff, walksFrom, List.forall_mem_cons,
      List.forall_mem_append]
    simp only [Option.mem_toList]
    tauto

/-- **Nothing fails while files are selected** if and only if every input leads somewhere and every
walk goes well. -/
theorem failures_run_eq_nil_iff (inputs : List Path) :
    (c.run inputs).failures = [] ↔
      (∀ i ∈ inputs, c.Resolves i) ∧ ∀ w ∈ c.walks inputs, c.GoesWell w := by
  rw [run, failures_foldl_eq_nil_iff, failures_start]
  exact and_iff_right rfl

end Selector

end AnnotationAudit
