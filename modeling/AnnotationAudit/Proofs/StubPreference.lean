import AnnotationAudit.Proofs.ShownPaths
import AnnotationAudit.Proofs.Stubs
import Mathlib.Data.List.TakeWhile

/-!
# Which files a stub replaces

A stub stands beside its source: the steps of both differ in the ending of the last name only. What
becomes of a file is told by the steps of the paths in the list, however they are spelled.

* `Path.cutName_iff`          a name is cut at its last dot, if something stands before it;
* `Path.components_append`    the steps of a path up to a segment that makes one;
* `Path.components_withExtension`  another extension changes the last step only;
* `Path.IsStubOf`             a stub beside a source;
* `Path.isStubOf_iff`         a stub takes the steps of the source with the other extension;
* `preferStubs_law`           which files are left.
-/

namespace AnnotationAudit

theorem Text.splitOn_concat {α : Type} [DecidableEq α] {sep : α} {last : List α} (h : sep ∉ last)
    (cs : List α) :
    splitOn sep (cs ++ sep :: last) = splitOn sep cs ++ [last] := by
  have joined : cs ++ sep :: last = joinWith sep (splitOn sep cs ++ [last]) := by
    rw [joinWith_concat sep (splitOn_ne_nil sep cs), joinWith_splitOn]
  rw [joined]
  refine splitOn_joinWith (List.append_ne_nil_of_right_ne_nil _ (List.cons_ne_nil _ _)) ?_
  intro part hpart
  rcases List.mem_append.mp hpart with hpart | hpart
  · exact notMem_of_mem_splitOn hpart
  · exact List.mem_singleton.mp hpart ▸ h

theorem Text.joinWith_eq_nil {α : Type} {sep : α} {parts : List (List α)}
    (h : joinWith sep parts = []) : parts = [] ∨ parts = [[]] := by
  cases parts with
  | nil => exact .inl rfl
  | cons part parts =>
    cases parts with
    | nil => exact .inr (congrArg (fun part => [part]) h)
    | cons next parts => exact absurd (List.append_eq_nil_iff.mp h).2 (List.cons_ne_nil _ _)

namespace Path

open Text (dot)

/-! ## names -/

/-- a name is cut at its last dot, if something stands before it -/
theorem cutName_iff {name stem extension : Bytes} :
    cutName name = (stem, some extension) ↔
      stem ≠ [] ∧ dot ∉ extension ∧ name = stem ++ dot :: extension := by
  constructor
  · intro h
    have whole := eq_of_cutName h
    unfold cutName at h
    split at h
    · cases h
    · cases h
    · cases h
    · next last before one two parts =>
      obtain ⟨rfl, rfl⟩ : _ ∧ last = extension := (Prod.mk.inj h).imp id Option.some.inj
      refine ⟨fun empty => two ?_, ?_, whole⟩
      · rcases Text.joinWith_eq_nil empty with nothing | nothing
        · exact absurd (List.reverse_eq_nil_iff.mp nothing) one
        · exact List.reverse_eq_iff.mp nothing
      · have last_mem : last ∈ Text.splitOn dot name := by
          rw [← List.mem_reverse, parts]
          exact List.mem_cons_self
        exact Text.notMem_of_mem_splitOn last_mem
  · rintro ⟨stemmed, plain, rfl⟩
    have stemParts := Text.joinWith_splitOn dot stem
    unfold cutName
    rw [Text.splitOn_concat plain, List.reverse_concat]
    split
    · next h => cases h
    · next h =>
      exact absurd (List.reverse_eq_nil_iff.mp (List.cons.inj h).2) (Text.splitOn_ne_nil _ _)
    · next h =>
      rw [List.reverse_eq_iff.mp (List.cons.inj h).2] at stemParts
      exact absurd stemParts.symm stemmed
    · next h =>
      obtain ⟨rfl, rfl⟩ := List.cons.inj h
      rw [List.reverse_reverse, stemParts]

/-! ## steps -/

/-- the steps of a path up to a segment that makes one -/
theorem components_append (rooted : Bool) (before : List Bytes) {s : Bytes} {step : Component}
    (hs : stepOf? s = some step) {after : List Bytes} (idle : ∀ t ∈ after, isIdle t = true) :
    (⟨rooted, before ++ s :: after⟩ : Path).components =
      (⟨rooted, before⟩ : Path).components ++ [step] := by
  have behind : (s :: after).filterMap stepOf? = [step] := by
    rw [List.filterMap_cons_some hs, List.filterMap_eq_nil_iff.mpr]
    exact fun t ht => Option.isNone_iff_eq_none.mp (idle t ht)
  have other : s ≠ [dot] := by
    rintro rfl
    cases hs
  cases rooted with
  | true =>
    rw [components_of_rooted rfl, components_of_rooted rfl, List.filterMap_append, behind,
      List.cons_append]
  | false =>
    cases before with
    | nil =>
      show (head ⟨false, s :: after⟩).1.toList ++ (head ⟨false, s :: after⟩).2.filterMap stepOf? = _
      rw [head, if_neg Bool.false_ne_true]
      dsimp only
      rw [if_neg other, behind]
      rfl
    | cons t before =>
      unfold components head
      rw [if_neg Bool.false_ne_true, if_neg Bool.false_ne_true]
      dsimp only [List.cons_append]
      split
      · dsimp only
        rw [List.filterMap_append, behind, List.append_assoc]
      · dsimp only
        rw [← List.cons_append, List.filterMap_append, behind, List.append_assoc]

/-- a name among the steps is a segment -/
theorem mem_segments {p : Path} {s : Bytes} (h : .name s ∈ p.components) :
    s ∈ p.segments ∧ stepOf? s = some (.name s) := by
  have behind : .name s ∈ p.head.2.filterMap stepOf? ∧ p.head.2 <:+ p.segments := by
    unfold components at h
    rcases List.mem_append.mp h with h | h
    · unfold head at h
      split at h
      · cases List.mem_singleton.mp h
      · split at h
        · cases h
        · split at h
          · cases List.mem_singleton.mp h
          · cases h
    · refine ⟨h, ?_⟩
      unfold head
      split
      · exact List.suffix_refl _
      · split
        · next hs => exact hs ▸ List.suffix_refl _
        · next hs =>
          split
          · exact hs ▸ List.suffix_cons _ _
          · exact hs ▸ List.suffix_refl _
  obtain ⟨t, ht, step⟩ := List.mem_filterMap.mp behind.1
  obtain rfl := eq_of_stepOf? step
  exact ⟨behind.2.subset ht, step⟩

/-- what is left when idle segments at the end are taken away ends with one that makes a step -/
theorem exists_trimBack {segments : List Bytes} {s : Bytes} (mem : s ∈ segments)
    (hs : isIdle s = false) :
    ∃ before t after, trimBack segments = before ++ [t] ∧ segments = before ++ t :: after ∧
      (∃ step, stepOf? t = some step) ∧ ∀ u ∈ after, isIdle u = true := by
  have cut := List.takeWhile_append_dropWhile (p := isIdle) (l := segments.reverse)
  cases last : segments.reverse.dropWhile isIdle with
  | nil =>
    have idle := List.dropWhile_eq_nil_iff.mp last s (List.mem_reverse.mpr mem)
    exact absurd (hs.symm.trans idle) Bool.false_ne_true
  | cons t rest =>
    refine ⟨rest.reverse, t, (segments.reverse.takeWhile isIdle).reverse, ?_, ?_, ?_, ?_⟩
    · rw [trimBack, last, List.reverse_cons]
    · rw [last] at cut
      have whole := congrArg List.reverse cut
      rw [List.reverse_reverse, List.reverse_append, List.reverse_cons, List.append_assoc,
        List.singleton_append] at whole
      exact whole.symm
    · have first : isIdle t = false := by
        have head := List.head?_dropWhile_not isIdle segments.reverse
        rwa [last] at head
      refine Option.ne_none_iff_exists'.mp fun stepless => ?_
      rw [isIdle, stepless] at first
      cases first
    · exact fun u hu => List.mem_takeWhile_imp (List.mem_reverse.mp hu)

/-- **Another extension changes the last step only.** -/
theorem components_withExtension {p : Path} {steps : List Component} {s : Bytes}
    (h : p.components = steps ++ [.name s]) {extension : Bytes} (long : 1 < extension.length) :
    (p.withExtension extension).components =
      steps ++ [.name ((cutName s).1 ++ dot :: extension)] := by
  obtain ⟨mem, step⟩ := mem_segments (h ▸ List.mem_append_right steps List.mem_cons_self)
  have makes : isIdle s = false := by rw [isIdle, step]; rfl
  obtain ⟨before, t, after, trimmed, whole, ⟨last, hlast⟩, idle⟩ := exists_trimBack mem makes
  obtain ⟨rooted, segments⟩ := p
  obtain rfl : segments = before ++ t :: after := whole
  rw [components_append rooted before hlast idle] at h
  obtain ⟨rfl, same⟩ := List.append_inj' h rfl
  obtain rfl := List.singleton_inj.mp same
  obtain rfl := eq_of_stepOf? hlast
  unfold withExtension
  rw [trimmed, List.reverse_concat]
  dsimp only
  rw [List.reverse_reverse]
  have none : ∀ t ∈ ([] : List Bytes), isIdle t = true := fun _ ht => absurd ht List.not_mem_nil
  exact components_append rooted before (stepOf?_dotted _ extension long) none

/-! ## stubs -/

/-- `q` is the stub beside the source `p`: both are in one directory, and their names differ in
their endings only -/
def IsStubOf (q p : Path) : Prop :=
  ∃ (steps : List Component) (stem : Bytes), stem ≠ [] ∧
    p.components = steps ++ [.name (stem ++ bytesOf ".py")] ∧
      q.components = steps ++ [.name (stem ++ bytesOf ".pyi")]

theorem fileName?_eq_some {p : Path} {s : Bytes} :
    p.fileName? = some s ↔ ∃ steps, p.components = steps ++ [.name s] := by
  unfold fileName?
  rw [← List.getLast?_eq_some_iff]
  split
  · next t h => rw [h, Option.some_inj, Option.some_inj, Component.name.injEq]
  · next h => exact ⟨nofun, fun hs => absurd hs (h s)⟩

/-- **A stub takes the steps of the source, with the other extension.** -/
theorem isStubOf_iff {q p : Path} : q.IsStubOf p ↔
    p.extension? = some (bytesOf "py") ∧ q.components = (p.withExtension "pyi").components := by
  have source : bytesOf ".py" = dot :: bytesOf "py" := rfl
  have stub : bytesOf ".pyi" = dot :: bytesOf "pyi" := rfl
  unfold IsStubOf
  rw [source, stub]
  constructor
  · rintro ⟨steps, stem, stemmed, hp, hq⟩
    have cut : cutName (stem ++ dot :: bytesOf "py") = (stem, some (bytesOf "py")) :=
      cutName_iff.mpr ⟨stemmed, by decide, rfl⟩
    have last : p.fileName? = some (stem ++ dot :: bytesOf "py") :=
      fileName?_eq_some.mpr ⟨steps, hp⟩
    constructor
    · rw [extension?, last, Option.bind_some, cut]
    · rw [hq, components_withExtension hp (by decide), cut]
  · rintro ⟨hx, hq⟩
    obtain ⟨s, last, cut⟩ := Option.bind_eq_some_iff.mp hx
    obtain ⟨steps, hp⟩ := fileName?_eq_some.mp last
    obtain ⟨stemmed, -, whole⟩ :=
      cutName_iff.mp (Prod.ext rfl cut : cutName s = (_, some (bytesOf "py")))
    rw [components_withExtension hp (by decide)] at hq
    exact ⟨steps, (cutName s).1, stemmed, whole ▸ hp, hq⟩

instance (q p : Path) : Decidable (q.IsStubOf p) := decidable_of_iff' _ isStubOf_iff

theorem isStubOf_congr {p p' q q' : Path} (hp : p.components = p'.components)
    (hq : q.components = q'.components) : q.IsStubOf p ↔ q'.IsStubOf p' := by
  unfold IsStubOf
  rw [hp, hq]

/-- no stub has a stub -/
theorem IsStubOf.not_isStubOf {p q r : Path} (h : q.IsStubOf p) : ¬ r.IsStubOf q := by
  rintro ⟨steps, stem, -, hq, -⟩
  obtain ⟨steps', stem', -, -, hq'⟩ := h
  have same := (List.append_inj' (hq.symm.trans hq') rfl).2
  have last := congrArg List.getLast? (Component.name.inj (List.singleton_inj.mp same))
  rw [List.getLast?_append, List.getLast?_append] at last
  cases last

end Path

/-- a file is left out if the stub of it is among the files -/
theorem hasStub_eq_true {files : List Path} {p : Path} :
    hasStub files p = true ↔ ∃ q ∈ files, q.IsStubOf p := by
  unfold hasStub
  rw [Bool.and_eq_true, beq_iff_eq, List.any_eq_true]
  constructor
  · rintro ⟨hx, q, hq, same⟩
    exact ⟨q, hq, Path.isStubOf_iff.mpr ⟨hx, (eq_of_beq same).symm⟩⟩
  · rintro ⟨q, hq, stub⟩
    obtain ⟨hx, same⟩ := Path.isStubOf_iff.mp stub
    exact ⟨hx, q, hq, beq_iff_eq.mpr same.symm⟩

theorem preferStubs_eq (files : List Path) :
    preferStubs files = files.filter fun p => ¬ ∃ q ∈ files, q.IsStubOf p := by
  refine List.filter_congr fun p _ => ?_
  rw [decide_not, Bool.not_eq_eq_eq_not, Bool.not_not, Bool.eq_iff_iff, decide_eq_true_iff,
    hasStub_eq_true]

/-- whether a file is left out depends on the steps of the paths only -/
theorem hasStub_respelled {files others : List Path}
    (h : ∀ steps, steps ∈ files.map Path.components ↔ steps ∈ others.map Path.components)
    {p p' : Path} (hp : p.components = p'.components) :
    hasStub files p = hasStub others p' := by
  have half {files others : List Path}
      (h : ∀ steps, steps ∈ files.map Path.components → steps ∈ others.map Path.components)
      {p p' : Path} (hp : p.components = p'.components) (stub : hasStub files p = true) :
      hasStub others p' = true := by
    obtain ⟨q, hq, stub⟩ := hasStub_eq_true.mp stub
    obtain ⟨q', hq', same⟩ := List.mem_map.mp (h _ (List.mem_map.mpr ⟨q, hq, rfl⟩))
    exact hasStub_eq_true.mpr ⟨q', hq', (Path.isStubOf_congr hp same.symm).mp stub⟩
  exact Bool.eq_iff_iff.mpr
    ⟨half (fun steps => (h steps).mp) hp, half (fun steps => (h steps).mpr) hp.symm⟩

/-- **What is left of a list of files are those without a stub in it**, in their order. A file of
another kind stays. A source does not stay beside its stub, but is left out only for a stub that
stays. To prefer stubs once is enough, and what becomes of a file is the same in every list of the
same files, however they are spelled, in any order and however often. -/
theorem preferStubs_law (files : List Path) :
    (preferStubs files = files.filter fun p => ¬ ∃ q ∈ files, q.IsStubOf p) ∧
    (∀ p q : Path, q.IsStubOf p ↔
      p.extension? = some (bytesOf "py") ∧ q.components = (p.withExtension "pyi").components) ∧
    ((preferStubs files).filter (·.extension? ≠ some (bytesOf "py")) =
      files.filter (·.extension? ≠ some (bytesOf "py"))) ∧
    (∀ p ∈ preferStubs files, ∀ q ∈ preferStubs files, ¬ q.IsStubOf p) ∧
    (∀ p ∈ files, p ∉ preferStubs files → ∃ q ∈ preferStubs files, q.IsStubOf p) ∧
    preferStubs (preferStubs files) = preferStubs files ∧
    ∀ others : List Path,
      (∀ steps, steps ∈ files.map Path.components ↔ steps ∈ others.map Path.components) →
        ∀ p ∈ files, ∀ q ∈ others, p.components = q.components →
          (p ∈ preferStubs files ↔ q ∈ preferStubs others) := by
  have apart : ∀ p ∈ preferStubs files, ∀ q ∈ preferStubs files, ¬ q.IsStubOf p := by
    intro p hp q hq stub
    have without := (mem_preferStubs.mp hp).2
    rw [hasStub_eq_true.mpr ⟨q, (mem_preferStubs.mp hq).1, stub⟩] at without
    cases without
  refine ⟨preferStubs_eq files, fun p q => Path.isStubOf_iff, ?_, apart, ?_, ?_, ?_⟩
  · rw [preferStubs, List.filter_filter]
    refine List.filter_congr fun p _ => ?_
    rw [Bool.and_eq_left_iff_imp]
    intro other
    unfold hasStub
    rw [beq_false_of_ne (of_decide_eq_true other), Bool.false_and, Bool.not_false]
  · intro p hp gone
    have left : hasStub files p = true :=
      Bool.of_not_eq_false fun alone => gone (mem_preferStubs.mpr ⟨hp, alone⟩)
    obtain ⟨q, hq, stub⟩ := hasStub_eq_true.mp left
    have stays : hasStub files q = false := by
      refine Bool.eq_false_iff.mpr fun again => ?_
      obtain ⟨r, -, stub'⟩ := hasStub_eq_true.mp again
      exact stub.not_isStubOf stub'
    exact ⟨q, mem_preferStubs.mpr ⟨hq, stays⟩, stub⟩
  · rw [preferStubs_eq (preferStubs files), List.filter_eq_self]
    intro p hp
    rw [decide_eq_true_iff]
    rintro ⟨q, hq, stub⟩
    exact apart p hp q hq stub
  · intro others same p hp q hq respelled
    rw [mem_preferStubs, mem_preferStubs, hasStub_respelled same respelled]
    exact ⟨fun h => ⟨hq, h.2⟩, fun h => ⟨hp, h.2⟩⟩

/-- two lists of the same files, with a source and its stub spelled in two ways -/
theorem preferStubs_law_respelled :
    let files := ["a//b.py", "a/./b.pyi", ".py", "c.pyi"].map Path.ofString
    let others := [".py/", "c.pyi", "a/b.pyi/.", "c.pyi", "a/b.py"].map Path.ofString
    preferStubs files = ["a/./b.pyi", ".py", "c.pyi"].map Path.ofString ∧
      (Path.ofString ".py" ∈ preferStubs files ↔ Path.ofString ".py/" ∈ preferStubs others) := by
  intro files others
  have there : ∀ steps ∈ files.map Path.components, steps ∈ others.map Path.components := by
    decide +kernel
  have back : ∀ steps ∈ others.map Path.components, steps ∈ files.map Path.components := by
    decide +kernel
  exact ⟨by decide +kernel, (preferStubs_law files).2.2.2.2.2.2 others
    (fun steps => ⟨there steps, back steps⟩) _ (by decide +kernel) _ (by decide +kernel)
    (by decide +kernel)⟩

end AnnotationAudit
