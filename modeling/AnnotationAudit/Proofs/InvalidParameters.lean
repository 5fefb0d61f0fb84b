import AnnotationAudit.Proofs.Parameters
import Mathlib.Order.Bounds.Basic

/-!
# The first invalid parameter

The check of a parameter list goes through its children once and keeps what it has seen in three
variables. Here it is compared with a rule that says of each child, by what stands before it in the
list, whether it is invalid.

* `Node.BindsPlain`, `Node.BindsStarred`, `Node.IsCalled`  what a child declares, and its name;
* `Node.InvalidBehind`    the rule: a tuple, a default that is missing, or a name that is repeated;
* `Declared.Tells`        the variables tell what has been seen;
* `Declared.Tells.add`    so they do behind one more child, if it is valid by the rule;
* `firstInvalid_isLeast`  the check finds the first child that is invalid by the rule.
-/

namespace AnnotationAudit

open Python Text

/-! ## the rule -/

namespace Python.Node

/-- what a parameter binds, with its stars; a child that is no parameter binds nothing -/
def bound? (n : Node) : Option Node :=
  match n.kind with
  | .identifier | .listSplatPattern | .dictionarySplatPattern => some n
  | .typedParameter => n.namedChildren.head?
  | .defaultParameter | .typedDefaultParameter => n.child? .name
  | _ => none

/-- a parameter without stars -/
def BindsPlain (n : Node) : Prop := ∃ t ∈ n.bound?, ParameterForm.isSplat t = false

/-- a parameter with one or two stars, with a type or without -/
def BindsStarred (n : Node) : Prop := ∃ t ∈ n.bound?, ParameterForm.isSplat t = true

def hasDefault (n : Node) : Bool :=
  n.kind == .defaultParameter || n.kind == .typedDefaultParameter

/-- the node that names a parameter: what it binds, or what comes first behind the stars -/
def nameNode? (n : Node) : Option Node :=
  n.bound?.bind fun t => if ParameterForm.isSplat t then t.namedChildren.head? else some t

/-- the name of a parameter is the identifier `x` -/
def IsCalled (source : String) (x : String) (n : Node) : Prop :=
  ∃ m ∈ n.nameNode?, m.kind = .identifier ∧ m.text source = x

/-- a child of a parameter list is invalid behind the children `earlier` -/
inductive InvalidBehind (source : String) (earlier : List Node) (c : Node) : Prop where
  /-- it is a tuple to be unpacked -/
  | tuple (kind : c.kind = .tuplePattern)
  /-- it is positional and lacks a default behind a parameter that has one -/
  | order (plain : c.BindsPlain) (bare : c.hasDefault = false)
      (positional : ∀ e ∈ earlier, e.kind ≠ .keywordSeparator ∧ ¬ e.BindsStarred)
      (default : ∃ e ∈ earlier, e.BindsPlain ∧ e.hasDefault = true)
  /-- it has the name of an earlier parameter -/
  | repeated {x : String} (here : c.IsCalled source x) (before : ∃ e ∈ earlier, e.IsCalled source x)

/-- in a list, the child at `i` is invalid behind those before it -/
def InvalidAt (source : String) (cs : List Node) (i : Nat) : Prop :=
  ∃ c, cs[i]? = some c ∧ c.InvalidBehind source (cs.take i)

/-! ## what the check takes a child for -/

/-- the form of a child, told from what it binds -/
inductive HasForm (n : Node) : ParameterForm → Prop where
  | plain {t : Node} (bound : t ∈ n.bound?) (bare : ParameterForm.isSplat t = false) :
      HasForm n (.plain t n.hasDefault)
  | splat {t : Node} (bound : t ∈ n.bound?) (starred : ParameterForm.isSplat t = true) :
      HasForm n (.splat (t.namedChildren.head?.getD t))
  | nameless {form : ParameterForm} (unbound : n.bound? = none) (nameless : form.name? = none)
      (tuple : n.kind = .tuplePattern ↔ form = .tuple) : HasForm n form

theorem hasForm_ofTarget {n t : Node} (bound : n.bound? = some t) :
    n.HasForm (.ofTarget t n.hasDefault) := by
  by_cases starred : ParameterForm.isSplat t = true
  · rw [ParameterForm.ofTarget_of_isSplat starred]
    exact .splat bound starred
  · rw [ParameterForm.ofTarget_of_not_isSplat (Bool.eq_false_iff.mpr starred)]
    exact .plain bound (Bool.eq_false_iff.mpr starred)

theorem hasForm_ofNode (n : Node) : n.HasForm (.ofNode n) := by
  have binds {b : Bool} (h : n.hasDefault = b) {t : Node} (bound : n.bound? = some t) :
      n.HasForm (.ofTarget t b) := h ▸ hasForm_ofTarget bound
  have other : ParameterForm.other ≠ .tuple := by simp
  cases hk : n.kind with
  | defaultParameter | typedDefaultParameter =>
    have bound : n.bound? = n.child? .name := by rw [bound?, hk]
    rw [ParameterForm.ofNode, hk]
    cases target : n.child? .name with
    | none => exact .nameless (bound.trans target) rfl (iff_of_false (by rw [hk]; decide) other)
    | some t => exact binds (by rw [hasDefault, hk]; rfl) (bound.trans target)
  | typedParameter =>
    have bound : n.bound? = n.namedChildren.head? := by rw [bound?, hk]
    rw [ParameterForm.ofNode, hk]
    cases target : n.namedChildren.head? with
    | none => exact .nameless (bound.trans target) rfl (iff_of_false (by rw [hk]; decide) other)
    | some t => exact binds (by rw [hasDefault, hk]; rfl) (bound.trans target)
  | identifier | listSplatPattern | dictionarySplatPattern =>
    rw [ParameterForm.ofNode, hk]
    exact binds (by rw [hasDefault, hk]; rfl) (by rw [bound?, hk])
  | tuplePattern =>
    rw [ParameterForm.ofNode, hk]
    exact .nameless (by rw [bound?, hk]) rfl (iff_of_true hk rfl)
  | keywordSeparator =>
    rw [ParameterForm.ofNode, hk]
    exact .nameless (by rw [bound?, hk]) rfl (iff_of_false (by rw [hk]; decide) (by simp))
  | _ =>
    rw [ParameterForm.ofNode, hk]
    exact .nameless (by rw [bound?, hk]) rfl (iff_of_false (by rw [hk]; decide) other)

namespace HasForm

variable {n : Node} {form : ParameterForm} (h : n.HasForm form)
include h

theorem bindsPlain_iff {hasDefault : Bool} :
    n.BindsPlain ∧ n.hasDefault = hasDefault ↔ ∃ name, form = .plain name hasDefault := by
  cases h with
  | plain bound bare =>
    simp only [ParameterForm.plain.injEq, exists_and_right, exists_eq', true_and]
    exact and_iff_right ⟨_, bound, bare⟩
  | splat bound starred =>
    refine iff_of_false ?_ nofun
    rintro ⟨⟨t, ht, bare⟩, -⟩
    obtain rfl := Option.mem_unique bound ht
    cases starred.symm.trans bare
  | nameless unbound nameless =>
    refine iff_of_false ?_ ?_
    · rintro ⟨⟨t, ht, -⟩, -⟩
      cases unbound.symm.trans ht
    · rintro ⟨name, rfl⟩
      cases nameless

theorem bindsStarred_iff : n.BindsStarred ↔ ∃ name, form = .splat name := by
  cases h with
  | plain bound bare =>
    refine iff_of_false ?_ nofun
    rintro ⟨t, ht, starred⟩
    obtain rfl := Option.mem_unique bound ht
    cases starred.symm.trans bare
  | splat bound starred => exact iff_of_true ⟨_, bound, starred⟩ ⟨_, rfl⟩
  | nameless unbound nameless =>
    refine iff_of_false ?_ ?_
    · rintro ⟨t, ht, -⟩
      cases unbound.symm.trans ht
    · rintro ⟨name, rfl⟩
      cases nameless

theorem isCalled_iff {source x : String} :
    n.IsCalled source x ↔ ∃ name ∈ form.name?, name.kind = .identifier ∧ name.text source = x := by
  cases h with
  | @plain t bound bare =>
    have name : n.nameNode? = some t := by
      rw [nameNode?, show n.bound? = some t from bound, Option.bind_some, bare]
      rfl
    rw [IsCalled, name]
    rfl
  | @splat t bound starred =>
    have name : n.nameNode? = t.namedChildren.head? := by
      rw [nameNode?, show n.bound? = some t from bound, Option.bind_some, starred]
      rfl
    rw [IsCalled, name, ParameterForm.name?]
    cases t.namedChildren.head? with
    | some m => rfl
    | none =>
      refine iff_of_false nofun ?_
      rintro ⟨m, hm, hk, -⟩
      obtain rfl := Option.some.inj hm
      rcases ParameterForm.isSplat_iff.mp starred with stars | stars <;> cases hk.symm.trans stars
  | nameless unbound nameless =>
    rw [IsCalled, nameNode?, unbound, nameless]
    rfl

theorem kind_eq_tuplePattern_iff : n.kind = .tuplePattern ↔ form = .tuple := by
  cases h with
  | plain bound | splat bound =>
    refine iff_of_false (fun hk => ?_) nofun
    rw [bound?, hk] at bound
    cases bound
  | nameless unbound nameless tuple => exact tuple

end HasForm

end Python.Node

/-! ## one step of the check -/

namespace Declared

variable {source : String} {d d' : Declared} {form : ParameterForm}

/-- what makes the check refuse one more child of a list -/
inductive Refuses (source : String) (d : Declared) : ParameterForm → Prop where
  | tuple : Refuses source d .tuple
  | order {name : Node} (positional : d.keywordOnly = false) (behind : d.afterDefault = true) :
      Refuses source d (.plain name false)
  | repeated {form : ParameterForm} {name : Node} (hn : name ∈ form.name?)
      (hk : name.kind = .identifier) (seen : name.text source ∈ d.names) : Refuses source d form

theorem declare_eq_none_iff {name : Node} :
    d.declare source name = none ↔ name.kind = .identifier ∧ name.text source ∈ d.names := by
  by_cases hk : name.kind = .identifier <;> simp [declare, hk]

theorem refuses_of_add {c : Node} (h : d.add source c = none) :
    d.Refuses source (ParameterForm.ofNode c) := by
  rw [add] at h
  generalize ParameterForm.ofNode c = form at h
  have repeated {e : Declared} {name : Node} (hn : name ∈ form.name?)
      (h : e.declare source name = none) (same : e.names = d.names) : d.Refuses source form := by
    obtain ⟨hk, seen⟩ := declare_eq_none_iff.mp h
    exact .repeated hn hk (same ▸ seen)
  obtain ⟨names, afterDefault, keywordOnly⟩ := d
  cases form with
  | tuple => exact .tuple
  | separator => cases h
  | other => cases h
  | splat name => exact repeated rfl h rfl
  | plain name hasDefault =>
    cases keywordOnly with
    | true => exact repeated rfl h rfl
    | false =>
      cases hasDefault with
      | true => exact repeated rfl h rfl
      | false =>
        cases afterDefault with
        | true => exact .order rfl rfl
        | false => exact repeated rfl h rfl

namespace Adds

variable (added : d.Adds source form d')
include added

theorem exists_declare {name : Node} (hn : name ∈ form.name?) :
    ∃ e : Declared, e.declare source name = some d' ∧ e.names = d.names := by
  cases added with
  | plain order next =>
    obtain rfl := Option.some.inj hn
    exact ⟨_, next, rfl⟩
  | splat next =>
    obtain rfl := Option.some.inj hn
    exact ⟨_, next, rfl⟩
  | separator => cases hn
  | other => cases hn

theorem names_eq (hn : form.name? = none) : d'.names = d.names := by
  cases added with
  | plain => cases hn
  | splat => cases hn
  | separator => rfl
  | other => rfl

theorem mem_names {x : String} : x ∈ d'.names ↔ x ∈ d.names ∨
    ∃ name ∈ form.name?, name.kind = .identifier ∧ name.text source = x := by
  cases hn : form.name? with
  | none =>
    rw [added.names_eq hn]
    exact (or_iff_left nofun).symm
  | some name =>
    obtain ⟨e, next, same⟩ := added.exists_declare hn
    simp only [Option.mem_some_iff, exists_eq_left', ← same]
    obtain ⟨-, ⟨hk, -, names⟩ | ⟨hk, names⟩⟩ := declare_cases next
    · rw [names, List.mem_cons, or_comm, eq_comm, and_iff_right hk]
    · rw [names, or_iff_left fun h => hk h.1]

/-- a name that is noted is new -/
theorem notMem_names {name : Node} (hn : name ∈ form.name?) (hk : name.kind = .identifier) :
    name.text source ∉ d.names := by
  obtain ⟨e, next, same⟩ := added.exists_declare hn
  obtain ⟨-, ⟨-, new, -⟩ | ⟨other, -⟩⟩ := declare_cases next
  · exact same ▸ new
  · exact absurd hk other

theorem keywordOnly_iff : d'.keywordOnly = true ↔
    d.keywordOnly = true ∨ form = .separator ∨ ∃ name, form = .splat name := by
  cases added with
  | plain order next =>
    rw [keywordOnly_of_declare next]
    exact (or_iff_left (by rintro (h | ⟨_, h⟩) <;> cases h)).symm
  | splat next =>
    rw [keywordOnly_of_declare next]
    exact iff_of_true rfl (.inr (.inr ⟨_, rfl⟩))
  | separator => exact iff_of_true rfl (.inr (.inl rfl))
  | other => exact (or_iff_left (by rintro (h | ⟨_, h⟩) <;> cases h)).symm

theorem afterDefault_iff (positional : d'.keywordOnly = false) : d'.afterDefault = true ↔
    d.afterDefault = true ∨ ∃ name, form = .plain name true := by
  cases added with
  | @plain name hasDefault _ order next =>
    rw [keywordOnly_of_declare next] at positional
    rw [afterDefault_of_declare next]
    simp only [show d.keywordOnly = false from positional, Bool.not_false, Bool.true_and,
      Bool.or_eq_true, ParameterForm.plain.injEq, exists_and_right, exists_eq', true_and]
  | splat next => cases (keywordOnly_of_declare next).symm.trans positional
  | separator => cases positional
  | other => exact (or_iff_left nofun).symm

end Adds

/-! ## what has been seen -/

/-- the variables tell what the children `earlier` are; once parameters are keyword-only, defaults
do not matter -/
structure Tells (source : String) (earlier : List Node) (d : Declared) : Prop where
  names : ∀ x, x ∈ d.names ↔ ∃ e ∈ earlier, e.IsCalled source x
  keywordOnly : d.keywordOnly = true ↔ ∃ e ∈ earlier, e.kind = .keywordSeparator ∨ e.BindsStarred
  afterDefault : d.keywordOnly = false →
    (d.afterDefault = true ↔ ∃ e ∈ earlier, e.BindsPlain ∧ e.hasDefault = true)

namespace Tells

variable {earlier : List Node} {c : Node}

theorem nil (source : String) : Tells source [] {} := ⟨by simp, by simp, by simp⟩

theorem keywordOnly_eq_false_iff (told : d.Tells source earlier) : d.keywordOnly = false ↔
    ∀ e ∈ earlier, e.kind ≠ .keywordSeparator ∧ ¬ e.BindsStarred := by
  rw [← Bool.not_eq_true, told.keywordOnly]
  simp only [not_exists, not_and, not_or, ne_eq]

/-- what the check refuses is invalid by the rule -/
theorem invalidBehind (told : d.Tells source earlier) (h : d.add source c = none) :
    c.InvalidBehind source earlier := by
  have form := c.hasForm_ofNode
  have refused := refuses_of_add h
  generalize ParameterForm.ofNode c = shape at form refused
  cases refused with
  | tuple => exact .tuple (form.kind_eq_tuplePattern_iff.mpr rfl)
  | order positional behind =>
    obtain ⟨plain, bare⟩ := form.bindsPlain_iff.mpr ⟨_, rfl⟩
    exact .order plain bare (told.keywordOnly_eq_false_iff.mp positional)
      ((told.afterDefault positional).mp behind)
  | @repeated _ name hn hk seen =>
    exact .repeated (form.isCalled_iff.mpr ⟨name, hn, hk, rfl⟩) ((told.names _).mp seen)

/-- what the check passes is valid by the rule -/
theorem not_invalidBehind (told : d.Tells source earlier)
    (added : d.Adds source (ParameterForm.ofNode c) d') : ¬ c.InvalidBehind source earlier := by
  have form := c.hasForm_ofNode
  rintro (kind | ⟨plain, bare, positional, default⟩ | ⟨here, before⟩)
  · rw [form.kind_eq_tuplePattern_iff.mp kind] at added
    cases added
  · obtain ⟨name, shape⟩ := form.bindsPlain_iff.mp ⟨plain, bare⟩
    have keywords := told.keywordOnly_eq_false_iff.mpr positional
    rw [shape] at added
    cases added with
    | plain order => cases order keywords ((told.afterDefault keywords).mpr default)
  · obtain ⟨name, hn, hk, rfl⟩ := form.isCalled_iff.mp here
    exact added.notMem_names hn hk ((told.names _).mpr before)

/-- behind one more child, the variables tell what has been seen with it -/
theorem add (told : d.Tells source earlier) (added : d.Adds source (ParameterForm.ofNode c) d') :
    d'.Tells source (earlier ++ [c]) where
  names x := by
    rw [added.mem_names, told.names, exists_mem_concat, c.hasForm_ofNode.isCalled_iff]
  keywordOnly := by
    rw [added.keywordOnly_iff, told.keywordOnly, exists_mem_concat,
      c.hasForm_ofNode.bindsStarred_iff, ParameterForm.ofNode_eq_separator_iff]
  afterDefault positional := by
    have before : d.keywordOnly = false := by
      rw [Bool.eq_false_iff] at positional ⊢
      exact fun h => positional (added.keywordOnly_iff.mpr (.inl h))
    rw [added.afterDefault_iff positional, told.afterDefault before, exists_mem_concat,
      c.hasForm_ofNode.bindsPlain_iff]

end Tells

end Declared

/-! ## the run of the check -/

section
variable {source : String} {earlier : List Node} {c : Node}

theorem invalidAt_length (cs : List Node) :
    Node.InvalidAt source (earlier ++ c :: cs) earlier.length ↔
      c.InvalidBehind source earlier := by
  rw [Node.InvalidAt, List.getElem?_append_right (Nat.le_refl _), Nat.sub_self, List.take_left]
  simp only [List.getElem?_cons_zero, Option.some.injEq, exists_eq_left']

/-- from any child on, the check finds the first that is invalid by the rule -/
theorem firstInvalidFrom_cases {d : Declared} (told : d.Tells source earlier) (cs : List Node) :
    (firstInvalidFrom source d cs = none ∧
        ∀ i, earlier.length ≤ i → ¬ Node.InvalidAt source (earlier ++ cs) i) ∨
      ∃ i, firstInvalidFrom source d cs = (earlier ++ cs)[i]? ∧
        IsLeast {j | earlier.length ≤ j ∧ Node.InvalidAt source (earlier ++ cs) j} i := by
  -- what has been seen grows by one child in every round, and the whole list stays the same
  induction cs generalizing earlier d with
  | nil =>
    refine .inl ⟨rfl, fun i hi => ?_⟩
    rintro ⟨c, hc, -⟩
    rw [List.append_nil, List.getElem?_eq_none hi] at hc
    cases hc
  | cons c cs ih =>
    rw [firstInvalidFrom]
    cases next : d.add source c with
    | none =>
      have invalid := (invalidAt_length cs).mpr (told.invalidBehind next)
      refine .inr ⟨earlier.length, ?_, ⟨Nat.le_refl _, invalid⟩, fun j hj => hj.1⟩
      rw [List.getElem?_append_right (Nat.le_refl _), Nat.sub_self]
      rfl
    | some d' =>
      have added := Declared.adds_of_add next
      have valid := (invalidAt_length cs).not.mpr (told.not_invalidBehind added)
      have rest := ih (told.add added)
      rw [List.append_assoc, List.singleton_append, List.length_append,
        List.length_singleton] at rest
      have beyond : ∀ i, Node.InvalidAt source (earlier ++ c :: cs) i →
          (earlier.length + 1 ≤ i ↔ earlier.length ≤ i) := by
        refine fun i invalid => ⟨Nat.le_of_succ_le, fun hi => ?_⟩
        exact Nat.lt_of_le_of_ne hi fun same => valid (same ▸ invalid)
      rcases rest with ⟨none, rest⟩ | ⟨i, found, least⟩
      · exact .inl ⟨none, fun i hi invalid => rest i ((beyond i invalid).mpr hi) invalid⟩
      · refine .inr ⟨i, found, ?_⟩
        have same : {j | earlier.length + 1 ≤ j ∧ Node.InvalidAt source (earlier ++ c :: cs) j} =
            {j | earlier.length ≤ j ∧ Node.InvalidAt source (earlier ++ c :: cs) j} :=
          Set.ext fun j => and_congr_left (beyond j)
        exact same ▸ least

end

namespace Python.Node

variable {source : String} {earlier : List Node} {c : Node}

/-- the kinds of children that the check can report -/
def parameterKinds : List Kind :=
  [.identifier, .defaultParameter, .typedDefaultParameter, .typedParameter, .listSplatPattern,
    .dictionarySplatPattern, .tuplePattern]

theorem kind_mem_of_bound {t : Node} (bound : c.bound? = some t) : c.kind ∈ parameterKinds := by
  unfold bound? at bound
  split at bound
  case h_7 => cases bound
  all_goals next hk => rw [hk]; decide

theorem InvalidBehind.kind_mem (h : c.InvalidBehind source earlier) :
    c.kind ∈ parameterKinds := by
  cases h with
  | tuple kind => rw [kind]; decide
  | order plain =>
    obtain ⟨t, bound, -⟩ := plain
    exact kind_mem_of_bound bound
  | repeated here =>
    obtain ⟨m, name, -⟩ := here
    obtain ⟨t, bound, -⟩ := Option.bind_eq_some_iff.mp name
    exact kind_mem_of_bound bound

end Python.Node

/-- **The check of a parameter list finds the first child that is invalid by the rule**, and none
if there is none. It never reports a separator, a comment or anything else that is no parameter. -/
theorem firstInvalid_isLeast (source : String) (list : Node) :
    (∀ i, IsLeast {j | Node.InvalidAt source list.namedChildren j} i →
        firstInvalid source list = list.namedChildren[i]?) ∧
      (firstInvalid source list = none ↔ ∀ i, ¬ Node.InvalidAt source list.namedChildren i) ∧
      ∀ c ∈ firstInvalid source list, c.kind ∈ Node.parameterKinds := by
  have run := firstInvalidFrom_cases (.nil source) list.namedChildren
  rw [List.nil_append, ← firstInvalid] at run
  simp only [List.length_nil, Nat.zero_le, true_and, forall_const] at run
  rcases run with ⟨none, valid⟩ | ⟨i, found, least⟩
  · refine ⟨fun i least => absurd least.1 (valid i), iff_of_true none valid, ?_⟩
    rw [none]
    nofun
  · obtain ⟨c, hc, invalid⟩ := least.1
    rw [hc] at found
    refine ⟨fun j least' => ?_, iff_of_false ?_ fun valid => valid i least.1, ?_⟩
    · rw [found, least'.unique least, hc]
    · rw [found]
      nofun
    · rintro c' hc'
      obtain rfl := Option.mem_unique found hc'
      exact invalid.kind_mem

end AnnotationAudit
