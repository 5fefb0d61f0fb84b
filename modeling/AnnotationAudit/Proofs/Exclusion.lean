import AnnotationAudit.Selection
import AnnotationAudit.Proofs.Locations

/-!
# What is left out

A selection reads ignore files as it comes across their directories. Whatever it has read so far,
what it leaves out can be told from the directories that it has been to.

* `Selector.ignoreList`      what the ignore file of a directory says;
* `Selector.HasRead`         a state ignores what the patterns ignore, and the ignore files of the
                             directories that it has been to;
* `Selector.HasRead.load`, `Selector.hasRead_start`  every state of a selection does;
* `Selector.leavesOut`       what is left out below a directory, told from the files alone.
-/

namespace AnnotationAudit

/-! ## states -/

namespace SelectionState

variable (s : SelectionState)

@[simp] theorem isExcluded_find (p : Path) : (s.find p).isExcluded = s.isExcluded := by
  unfold find
  split <;> rfl

@[simp] theorem loaded_find (p : Path) : (s.find p).loaded = s.loaded := by
  unfold find
  split <;> rfl

@[simp] theorem loaded_addIgnores (l : IgnoreList) : (s.addIgnores l).loaded = s.loaded := by
  unfold addIgnores
  split <;> rfl

@[simp] theorem files_addIgnores (l : IgnoreList) : (s.addIgnores l).files = s.files := by
  unfold addIgnores
  split <;> rfl

/-- warnings change nothing but the log -/
theorem foldl_warn {α : Type} (xs : List α) (f : α → String) :
    (xs.foldl (fun s x => s.warn (f x)) s).loaded = s.loaded ∧
      (xs.foldl (fun s x => s.warn (f x)) s).files = s.files ∧
      (xs.foldl (fun s x => s.warn (f x)) s).isExcluded = s.isExcluded := by
  induction xs generalizing s with
  | nil => exact ⟨rfl, rfl, rfl⟩
  | cons x xs ih => exact ih (s.warn (f x))

theorem isExcluded_addIgnores (l : IgnoreList) (p : Path) (isDirectory : Bool) :
    (s.addIgnores l).isExcluded p isDirectory =
      (s.isExcluded p isDirectory || l.ignores p isDirectory) := by
  unfold addIgnores
  split
  · next h =>
    rw [IgnoreList.ignores_of_isEmpty (List.isEmpty_iff.mp h), Bool.or_false]
  · unfold isExcluded
    rw [List.any_append, List.any_cons, List.any_nil, Bool.or_false]

end SelectionState

namespace Selector

variable (c : Selector)

/-! ## lists -/

def patterns : IgnoreList := (IgnoreList.ofPatterns c.base c.excludes).1

/-- what the ignore file of a directory says; nothing if there is none that can be read -/
def ignoreList (directory : Path) : IgnoreList :=
  let file := directory.child ignoreFileName
  match c.tree.read file with
  | .error _ => ⟨directory, []⟩
  | .ok content => (IgnoreList.ofContent directory file.toString content).1

theorem directory_ignoreList (p : Path) : (c.ignoreList p).directory = p := by
  unfold ignoreList
  dsimp only
  split <;> rfl

/-! ## reading ignore files -/

/-- reading the ignore file of a directory, unless that has been done -/
theorem load_cases (s : SelectionState) (p : Path) :
    p ∈ s.loaded ∧ c.load s p = s ∨
      (c.load s p).loaded = s.loaded ++ [p] ∧ (c.load s p).files = s.files ∧
        ∀ q isDirectory, (c.load s p).isExcluded q isDirectory =
          (s.isExcluded q isDirectory || (c.ignoreList p).ignores q isDirectory) := by
  unfold load
  split
  · next h => exact .inl ⟨List.contains_iff_mem.mp h, rfl⟩
  · right
    unfold ignoreList
    dsimp only
    cases c.tree.read (p.child ignoreFileName) with
    | error e =>
      refine ⟨rfl, rfl, fun q isDirectory => ?_⟩
      rw [IgnoreList.ignores_of_isEmpty rfl, Bool.or_false]
      rfl
    | ok content =>
      refine ⟨?_, ?_, fun q isDirectory => ?_⟩
      · rw [SelectionState.loaded_addIgnores]
        split <;> rfl
      · rw [SelectionState.files_addIgnores]
        split <;> rfl
      · rw [SelectionState.isExcluded_addIgnores]
        split <;> rfl

variable {c} {s : SelectionState} {p q : Path}

theorem mem_loaded_load : q ∈ (c.load s p).loaded ↔ q ∈ s.loaded ∨ q = p := by
  rcases c.load_cases s p with ⟨hp, h⟩ | ⟨h, -, -⟩
  · rw [h]
    constructor
    · exact .inl
    · rintro (hq | rfl)
      · exact hq
      · exact hp
  · rw [h, List.mem_append, List.mem_singleton]

variable (c s p) in
@[simp] theorem files_load : (c.load s p).files = s.files := by
  rcases c.load_cases s p with ⟨-, h⟩ | ⟨-, h, -⟩ <;> rw [h]

variable (c) in
/-- a state ignores what the patterns ignore, and the ignore files of the directories that it has
been to -/
def HasRead (s : SelectionState) : Prop :=
  ∀ p isDirectory, s.isExcluded p isDirectory =
    (c.patterns.ignores p isDirectory ||
      s.loaded.any fun q => (c.ignoreList q).ignores p isDirectory)

theorem HasRead.of_eq {t : SelectionState} (h : c.HasRead s) (hx : t.isExcluded = s.isExcluded)
    (hl : t.loaded = s.loaded) : c.HasRead t := by
  unfold HasRead
  rw [hx, hl]
  exact h

theorem HasRead.load (h : c.HasRead s) (p : Path) : c.HasRead (c.load s p) := by
  rcases c.load_cases s p with ⟨-, hs⟩ | ⟨hl, -, hx⟩
  · rw [hs]
    exact h
  · intro q isDirectory
    rw [hx, hl, h, List.any_append, List.any_cons, List.any_nil, Bool.or_false, Bool.or_assoc]

theorem HasRead.isExcluded_iff (h : c.HasRead s) (isDirectory : Bool) :
    s.isExcluded p isDirectory = true ↔ c.patterns.ignores p isDirectory = true ∨
      ∃ q ∈ s.loaded, (c.ignoreList q).ignores p isDirectory = true := by
  rw [h, Bool.or_eq_true, List.any_eq_true]

theorem HasRead.loadBelow (h : c.HasRead s) (p : Path) (names : List Bytes) :
    c.HasRead (c.loadBelow s p names) := by
  induction names generalizing s p with
  | nil => exact h
  | cons name names ih => exact ih (h.load _) _

theorem HasRead.loadAbove (h : c.HasRead s) (p : Path) : c.HasRead (c.loadAbove s p) := by
  unfold Selector.loadAbove
  split
  · exact h.loadBelow _ _
  · exact h

variable (c s) in
@[simp] theorem files_loadBelow (p : Path) (names : List Bytes) :
    (c.loadBelow s p names).files = s.files := by
  induction names generalizing s p with
  | nil => rfl
  | cons name names ih => rw [loadBelow, ih, files_load]

variable (c s p) in
@[simp] theorem files_loadAbove : (c.loadAbove s p).files = s.files := by
  unfold loadAbove
  split <;> simp

/-- going down, the ignore files of all directories on the way are read -/
theorem mem_loaded_loadBelow {l m : Location} (hn : Location.IsNamed (l ++ m)) :
    q ∈ (c.loadBelow s l.path m).loaded ↔
      q ∈ s.loaded ∨ ∃ k, k ≠ [] ∧ k <+: m ∧ q = Location.path (l ++ k) := by
  induction m generalizing s l with
  | nil =>
    show q ∈ s.loaded ↔ _
    constructor
    · exact .inl
    · rintro (hq | ⟨k, hk, hkm, -⟩)
      · exact hq
      · exact absurd (List.prefix_nil.mp hkm) hk
  | cons name m ih =>
    rw [List.append_cons] at hn
    unfold loadBelow
    rw [Location.child_path (Location.isNamed_append.mp (Location.isNamed_append.mp hn).1).1,
      ih hn, mem_loaded_load, or_assoc]
    refine or_congr_right ⟨?_, ?_⟩
    · rintro (rfl | ⟨k, -, hkm, rfl⟩)
      · exact ⟨[name], List.cons_ne_nil name [], ⟨m, rfl⟩, rfl⟩
      · exact ⟨name :: k, List.cons_ne_nil name k, List.cons_prefix_cons.mpr ⟨rfl, hkm⟩,
          congrArg Location.path (List.append_cons l name k).symm⟩
    · rintro ⟨k, hk, hkm, rfl⟩
      cases k with
      | nil => exact absurd rfl hk
      | cons s k =>
        obtain ⟨rfl, hk'⟩ := List.cons_prefix_cons.mp hkm
        cases k with
        | nil => exact .inl rfl
        | cons t k =>
          exact .inr ⟨t :: k, List.cons_ne_nil t k, hk',
            congrArg Location.path (List.append_cons l s (t :: k))⟩

/-- before a path below the base is looked at, the ignore files of all directories between the two
are read -/
theorem mem_loaded_loadAbove {base l : Location} (hb : c.base = base.path) (hl : l.IsNamed)
    (hbl : base <+: l) :
    q ∈ (c.loadAbove s l.path).loaded ↔
      q ∈ s.loaded ∨ ∃ k : Location, base.Above k ∧ k.Above l ∧ q = k.path := by
  obtain ⟨m, rfl⟩ := hbl
  unfold loadAbove
  rw [hb, Location.relativeTo?_path_append hl]
  dsimp only
  have hm : Location.IsNamed (base ++ m.dropLast) :=
    hl.mono ((List.prefix_append_right_inj base).mpr (List.dropLast_prefix m))
  rw [mem_loaded_loadBelow hm]
  refine or_congr_right ⟨?_, ?_⟩
  · rintro ⟨k, hk, hkm, rfl⟩
    have hne : m ≠ [] := by
      rintro rfl
      exact hk (List.prefix_nil.mp hkm)
    exact ⟨base ++ k, .append hk,
      Location.above_append.mpr ((Location.Above.iff_dropLast hne).mpr hkm), rfl⟩
  · rintro ⟨k, ⟨⟨j, rfl⟩, hj⟩, hkl, rfl⟩
    have hjm := Location.above_append.mp hkl
    have hne : m ≠ [] := by
      rintro rfl
      exact hjm.2 (List.prefix_nil.mp hjm.1)
    exact ⟨j, fun h => hj (by rw [h, List.append_nil]),
      (Location.Above.iff_dropLast hne).mp hjm, rfl⟩

/-! ## the beginning -/

variable (c) in
/-- the state before the base's ignore file is read -/
theorem start_cases : ∃ s : SelectionState, s.loaded = [] ∧ s.files = [] ∧
    (∀ p isDirectory, s.isExcluded p isDirectory = c.patterns.ignores p isDirectory) ∧
    c.start = if c.useIgnoreFiles then c.load s c.base else s := by
  have warned := SelectionState.foldl_warn {}
    (IgnoreList.ofPatterns c.base c.excludes).2
    fun e => "skipping invalid exclude pattern " ++
      Text.quoted ((c.excludes[e.1 - 1]?).getD "") ++ ": " ++ e.2.message
  unfold start
  dsimp only
  refine ⟨_, ?_, ?_, fun p isDirectory => ?_, rfl⟩
  · rw [SelectionState.loaded_addIgnores, warned.1]
  · rw [SelectionState.files_addIgnores, warned.2.1]
  · rw [SelectionState.isExcluded_addIgnores, warned.2.2]
    rfl

variable (c)

theorem hasRead_start : c.HasRead c.start := by
  obtain ⟨s, hl, -, hx, hs⟩ := c.start_cases
  have h : c.HasRead s := fun p isDirectory => by
    rw [hx, hl, List.any_nil, Bool.or_false]
  rw [hs]
  split
  · exact h.load _
  · exact h

theorem mem_loaded_start : q ∈ c.start.loaded ↔ c.useIgnoreFiles = true ∧ q = c.base := by
  obtain ⟨s, hl, -, -, hs⟩ := c.start_cases
  rw [hs]
  split
  · next h => rw [mem_loaded_load, hl, h]; simp
  · next h => rw [hl]; simp [h]

@[simp] theorem files_start : c.start.files = [] := by
  obtain ⟨s, -, hf, -, hs⟩ := c.start_cases
  rw [hs]
  split <;> simp [hf]

/-! ## what is left out -/

/-- is a location below `top` left out: do the patterns ignore it, or the ignore file of a directory
from `top` down to its parent? -/
def leavesOut (top l : Location) (isDirectory : Bool) : Bool :=
  c.patterns.ignores l.path isDirectory ||
    c.useIgnoreFiles &&
      (top.parents l).any fun m => (c.ignoreList m.path).ignores l.path isDirectory

variable {c} in
theorem leavesOut_iff {top l : Location} {isDirectory : Bool} :
    c.leavesOut top l isDirectory = true ↔ c.patterns.ignores l.path isDirectory = true ∨
      c.useIgnoreFiles = true ∧ ∃ m : Location, top <+: m ∧ m.Above l ∧
        (c.ignoreList m.path).ignores l.path isDirectory = true := by
  unfold leavesOut
  simp only [Bool.or_eq_true, Bool.and_eq_true, List.any_eq_true, Location.mem_parents, and_assoc]

end Selector

end AnnotationAudit
