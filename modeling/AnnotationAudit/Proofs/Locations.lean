import AnnotationAudit.Files.Access
import AnnotationAudit.Ignore
import Mathlib.Data.List.Infix
import Mathlib.Tactic.Tauto

/-!
# Paths of locations

The paths that a selection looks at are those of locations: names behind a slash, each of them a
step of its own. On such paths "below" is "behind the names of", and an ignore list has a say below
its directory only.

* `IsFileName`               a name that an entry of a directory can have;
* `Location.IsNamed`         a location made of such names;
* `Location.Above`, `Location.parents`  the directories above a location;
* `Path.components_of_rooted`  the steps of a path from the root;
* `Location.relativeTo?_path_append`  what is left of a path below a directory;
* `IgnoreList.ignores_path_append`    what a list says of a path below its directory;
* `IgnoreList.above_of_ignores`       a list ignores only what is below its directory.
-/

namespace AnnotationAudit

/-! ## file names -/

/-- a name that an entry of a directory can have: neither empty nor one of the two that stand for
directories, without slashes and zeros, and not too long -/
structure IsFileName (s : Bytes) : Prop where
  step : Path.stepOf? s = some (.name s)
  noSlash : Text.slash ∉ s
  noZero : s.contains 0 = false
  size : s.length ≤ nameLimit

instance : DecidablePred IsFileName := fun s =>
  decidable_of_iff (Path.stepOf? s = some (.name s) ∧ Text.slash ∉ s ∧ s.contains 0 = false ∧
      s.length ≤ nameLimit)
    ⟨fun ⟨step, noSlash, noZero, size⟩ => ⟨step, noSlash, noZero, size⟩,
      fun ⟨step, noSlash, noZero, size⟩ => ⟨step, noSlash, noZero, size⟩⟩

namespace IsFileName

variable {s : Bytes} (h : IsFileName s)

include h

theorem ne_nil : s ≠ [] := by
  rintro rfl
  cases h.step

theorem ne_up : s ≠ [Text.dot, Text.dot] := by
  rintro rfl
  cases h.step

theorem isIdle_eq : Path.isIdle s = false := by
  rw [Path.isIdle, h.step]
  rfl

end IsFileName

namespace Path

theorem eq_of_stepOf? {s t : Bytes} (h : stepOf? s = some (.name t)) : s = t := by
  unfold stepOf? at h
  split at h
  · cases h
  · split at h
    · cases h
    · exact Component.name.inj (Option.some.inj h)

theorem idle_cases {s : Bytes} (h : stepOf? s = none) : s = [] ∨ s = [Text.dot] := by
  unfold stepOf? at h
  split at h
  · assumption
  · split at h <;> cases h

theorem stepOf?_ne_root (s : Bytes) : stepOf? s ≠ some .root := by
  unfold stepOf?
  split
  · exact nofun
  · split <;> exact nofun

theorem stepOf?_ne_here (s : Bytes) : stepOf? s ≠ some .here := by
  unfold stepOf?
  split
  · exact nofun
  · split <;> exact nofun

/-- only a path from the root begins with the root -/
theorem rooted_of_components {p : Path} {steps : List Component}
    (h : p.components = .root :: steps) : p.rooted = true := by
  by_contra hp
  have here : .root ∈ p.components := h ▸ List.mem_cons_self
  unfold components head at here
  rw [if_neg hp] at here
  rcases List.mem_append.mp here with hr | hr
  · split at hr
    · cases hr
    · split at hr <;> simp at hr
  · obtain ⟨s, -, hs⟩ := List.mem_filterMap.mp hr
    exact stepOf?_ne_root s hs

theorem components_of_rooted {p : Path} (h : p.rooted = true) :
    p.components = .root :: p.segments.filterMap stepOf? := by
  unfold components head
  rw [if_pos h]
  rfl

/-- the steps of a path below another come behind the steps of that one -/
theorem segments_join (p : Path) {q : Path} (hq : q.rooted = false) :
    (p.join q).segments.filterMap stepOf? =
      p.segments.filterMap stepOf? ++ q.segments.filterMap stepOf? := by
  unfold join
  rw [hq, if_neg Bool.false_ne_true]
  split
  · next h =>
    obtain ⟨before, hb⟩ := List.getLast?_eq_some_iff.mp h
    rw [hb, List.dropLast_concat, List.filterMap_append, List.filterMap_append]
    have idle : stepOf? [] = none := by rfl
    rw [List.filterMap_cons_none idle, List.filterMap_nil, List.append_nil]
  · rw [List.filterMap_append]

theorem rooted_join (p : Path) {q : Path} (hq : q.rooted = false) :
    (p.join q).rooted = p.rooted := by
  unfold join
  rw [hq, if_neg Bool.false_ne_true]
  split <;> rfl

theorem segments_child (p : Path) (s : Bytes) :
    (p.child s).segments.filterMap stepOf? =
      p.segments.filterMap stepOf? ++ (stepOf? s).toList := by
  have step : [s].filterMap stepOf? = (stepOf? s).toList := by
    cases hs : stepOf? s with
    | none => rw [List.filterMap_cons_none hs]; rfl
    | some step => rw [List.filterMap_cons_some hs]; rfl
  rw [child, segments_join p rfl, step]

theorem exists_segments_child (p : Path) (s : Bytes) :
    ∃ before, (p.child s).segments = before ++ [s] := by
  unfold child join
  rw [if_neg Bool.false_ne_true]
  split
  · exact ⟨_, rfl⟩
  · exact ⟨_, rfl⟩

theorem rooted_child (p : Path) (s : Bytes) : (p.child s).rooted = p.rooted := p.rooted_join rfl

/-- what is left below a path depends on its steps only -/
theorem relativeTo?_congr (p : Path) {q r : Path} (h : q.components = r.components) :
    p.relativeTo? q = p.relativeTo? r := by
  unfold relativeTo?
  rw [h]

theorem relativeTo?_of_not_prefix {p q : Path} (hq : q.components ≠ [])
    (h : ¬ q.components <+: p.components) : p.relativeTo? q = none := by
  unfold relativeTo?
  dsimp only
  rw [List.isEmpty_eq_false_iff.mpr hq, if_neg Bool.false_ne_true,
    if_neg (mt List.isPrefixOf_iff_prefix.mp h)]

end Path

namespace Location

/-- all names of the location are file names -/
def IsNamed (l : Location) : Prop := ∀ s ∈ l, IsFileName s

instance : DecidablePred IsNamed := fun l => inferInstanceAs (Decidable (∀ s ∈ l, IsFileName s))

variable {l m : Location}

theorem isNamed_nil : IsNamed [] := fun _ hs => absurd hs List.not_mem_nil

theorem isNamed_append : IsNamed (l ++ m) ↔ IsNamed l ∧ IsNamed m := List.forall_mem_append

theorem IsNamed.snoc {s : Bytes} (hl : IsNamed l) (hs : IsFileName s) : IsNamed (l ++ [s]) :=
  isNamed_append.mpr ⟨hl, fun _ ht => List.mem_singleton.mp ht ▸ hs⟩

theorem IsNamed.mono (hl : IsNamed l) (h : m <+: l) : IsNamed m :=
  fun s hs => hl s (h.subset hs)

/-! ## above a location -/

/-- a directory on the way to a location -/
def Above (m l : Location) : Prop := m <+: l ∧ m ≠ l

instance (m l : Location) : Decidable (m.Above l) := inferInstanceAs (Decidable (m <+: l ∧ m ≠ l))

/-- the directories above a location, from `top` on -/
def parents (top l : Location) : List Location :=
  l.inits.filter fun m => top.isPrefixOf m && m != l

theorem mem_parents {k : Location} : k ∈ l.parents m ↔ l <+: k ∧ k.Above m := by
  unfold parents Above
  rw [List.mem_filter, List.mem_inits, Bool.and_eq_true, List.isPrefixOf_iff_prefix, bne_iff_ne]
  tauto

theorem Above.append (h : m ≠ []) : l.Above (l ++ m) :=
  ⟨List.prefix_append l m, fun he => h (List.append_right_eq_self.mp he.symm)⟩

theorem Above.mono {k : Location} (h : l.Above m) (hk : k <+: l) : k.Above m := by
  refine ⟨hk.trans h.1, ?_⟩
  rintro rfl
  exact h.2 (h.1.eq_of_length_le hk.length_le)

theorem Above.trans {k : Location} (h : k.Above l) (hm : l.Above m) : k.Above m :=
  hm.mono h.1

/-- above an entry of a directory are the directory and what is above that -/
theorem above_snoc {s : Bytes} : m.Above (l ++ [s]) ↔ m <+: l := by
  unfold Above
  rw [List.prefix_concat_iff]
  constructor
  · rintro ⟨h | h, hne⟩
    · exact absurd h hne
    · exact h
  · intro h
    refine ⟨.inr h, ?_⟩
    rintro rfl
    have hlen := h.length_le
    rw [List.length_append, List.length_singleton] at hlen
    omega

theorem above_append {k : Location} : (l ++ k).Above (l ++ m) ↔ k.Above m := by
  unfold Above
  rw [List.prefix_append_right_inj, Ne, List.append_cancel_left_eq]

/-- on the way through a first name, all locations but the start are behind it -/
theorem forall_above_cons {s : Bytes} {P : Location → Prop} :
    (∀ k : Location, k ≠ [] → k.Above (s :: m) → P k) ↔ ∀ k : Location, k.Above m → P (s :: k) := by
  constructor
  · exact fun h k hk => h (s :: k) (List.cons_ne_nil s k) (above_append (l := [s]).mpr hk)
  · intro h k hk hkm
    cases k with
    | nil => exact absurd rfl hk
    | cons t k =>
      obtain ⟨rfl, -⟩ := List.cons_prefix_cons.mp hkm.1
      exact h k (above_append (l := [t]).mp hkm)

theorem Above.iff_dropLast (h : l ≠ []) : m.Above l ↔ m <+: l.dropLast := by
  obtain ⟨k, s, rfl⟩ := (List.eq_nil_or_concat l).resolve_left h
  rw [List.concat_eq_append, List.dropLast_concat, above_snoc]

/-! ## the path of a location -/

theorem path_inj : l.path = m.path ↔ l = m := by
  constructor
  · intro h
    exact congrArg Path.segments h
  · rintro rfl
    rfl

theorem filterMap_stepOf? (hl : IsNamed l) : l.filterMap Path.stepOf? = l.map .name := by
  induction l with
  | nil => rfl
  | cons s l ih =>
    rw [List.filterMap_cons_some (hl s List.mem_cons_self).step, List.map_cons,
      ih fun t ht => hl t (List.mem_cons_of_mem s ht)]

theorem components_path (hl : IsNamed l) :
    l.path.components = .root :: l.map .name := by
  show [Path.Component.root] ++ l.filterMap Path.stepOf? = _
  rw [filterMap_stepOf? hl]
  rfl

variable (l) in
theorem components_ne_nil : l.path.components ≠ [] := by
  rw [Path.components_of_rooted rfl]
  exact List.cons_ne_nil _ _

theorem child_path (hl : IsNamed l) (s : Bytes) : l.path.child s = (l ++ [s]).path := by
  unfold Path.child Path.join
  rw [if_neg Bool.false_ne_true]
  split
  · next h => exact absurd rfl (hl [] (List.mem_of_getLast? h)).ne_nil
  · rfl

theorem fileName?_path {s : Bytes} (h : IsNamed (l ++ [s])) :
    (Location.path (l ++ [s])).fileName? = some s := by
  unfold Path.fileName?
  rw [components_path h, List.map_append, ← List.cons_append, List.map_singleton,
    List.getLast?_concat]

/-! ## what is left below a location -/

theorem dropWhile_isIdle (hl : IsNamed l) : l.dropWhile Path.isIdle = l := by
  cases l with
  | nil => rfl
  | cons s l => rw [List.dropWhile_cons, (hl s List.mem_cons_self).isIdle_eq]; rfl

theorem trimBack_eq (hl : IsNamed l) : Path.trimBack l = l := by
  have hr : IsNamed l.reverse := fun s hs => hl s (List.mem_reverse.mp hs)
  rw [Path.trimBack, dropWhile_isIdle hr, List.reverse_reverse]

theorem dropSteps_eq (hl : IsNamed l) (n : Nat) : Path.dropSteps n l = l.drop n := by
  induction l generalizing n with
  | nil => cases n <;> rfl
  | cons s l ih =>
    cases n with
    | zero => rfl
    | succ n =>
      rw [Path.dropSteps, (hl s List.mem_cons_self).isIdle_eq, List.drop_succ_cons]
      exact ih (fun t ht => hl t (List.mem_cons_of_mem s ht)) n

/-- behind the names of a directory stands what is below it -/
theorem relativeTo?_path_append (h : IsNamed (l ++ m)) :
    (Location.path (l ++ m)).relativeTo? l.path = some ⟨false, m⟩ := by
  obtain ⟨hl, hm⟩ := isNamed_append.mp h
  have hp : (Path.Component.root :: l.map .name).isPrefixOf
      (.root :: (l ++ m).map .name) = true := by
    rw [List.isPrefixOf_iff_prefix, List.map_append, ← List.cons_append]
    exact List.prefix_append _ _
  unfold Path.relativeTo?
  rw [components_path hl, components_path h]
  dsimp only
  rw [List.isEmpty_cons, if_neg Bool.false_ne_true, if_pos hp]
  show some (⟨false, Path.trimBack ((Path.dropSteps ((l.map Path.Component.name).length + 1 - 1)
    (l ++ m)).dropWhile Path.isIdle)⟩ : Path) = _
  rw [Nat.add_sub_cancel, List.length_map, dropSteps_eq h, List.drop_left, dropWhile_isIdle hm,
    trimBack_eq hm]

theorem relativeTo?_path_of_not_prefix (hl : IsNamed l) (hm : IsNamed m) (h : ¬ l <+: m) :
    m.path.relativeTo? l.path = none := by
  refine Path.relativeTo?_of_not_prefix l.components_ne_nil ?_
  rw [components_path hl, components_path hm, List.cons_prefix_cons]
  rintro ⟨-, hp⟩
  exact h ((List.prefix_map_iff_of_injective fun _ _ => Path.Component.name.inj).mp hp)

theorem isEmpty_relative (hl : IsNamed l) : (⟨false, l⟩ : Path).isEmpty = l.isEmpty := by
  cases l with
  | nil => rfl
  | cons s l =>
    have hs := (hl s List.mem_cons_self).ne_nil
    show (Text.joinWith Text.slash (s :: l)).isEmpty = false
    rw [List.isEmpty_eq_false_iff]
    cases l with
    | nil => exact hs
    | cons t l => exact List.append_ne_nil_of_left_ne_nil hs _

end Location

/-! ## what a list says below its directory -/

namespace IgnoreList

variable {list : IgnoreList} {l m : Location}

/-- the verdict on a path is that on the names behind those of the directory -/
theorem ignores_path_append (hd : list.directory = l.path) (h : Location.IsNamed (l ++ m))
    (isDirectory : Bool) :
    list.ignores (Location.path (l ++ m)) isDirectory =
      (!m.isEmpty && list.verdict m isDirectory == some .ignored) := by
  unfold ignores
  rw [hd, Location.relativeTo?_path_append h]
  dsimp only
  rw [Location.isEmpty_relative (Location.isNamed_append.mp h).2]

/-- what a list ignores is below its directory -/
theorem above_of_ignores (hd : list.directory = l.path) (hl : l.IsNamed) (hm : m.IsNamed)
    {isDirectory : Bool} (h : list.ignores m.path isDirectory = true) : l.Above m := by
  have hp : l <+: m := by
    by_contra hp
    unfold ignores at h
    rw [hd, Location.relativeTo?_path_of_not_prefix hl hm hp] at h
    cases h
  refine ⟨hp, ?_⟩
  rintro rfl
  have hl' : Location.IsNamed (l ++ []) := (List.append_nil l).symm ▸ hl
  have hnone := ignores_path_append hd hl' isDirectory
  rw [List.append_nil, h] at hnone
  cases hnone

theorem ignores_congr {other : IgnoreList} (hr : list.rules = other.rules)
    (hd : list.directory.components = other.directory.components) (p : Path) (isDirectory : Bool) :
    list.ignores p isDirectory = other.ignores p isDirectory := by
  unfold ignores verdict
  rw [Path.relativeTo?_congr p hd, hr]

/-- a list of any directory ignores only what is below a location with the same steps -/
theorem exists_above_of_ignores (hd : list.directory.components ≠ []) (hm : m.IsNamed)
    {isDirectory : Bool} (h : list.ignores m.path isDirectory = true) :
    ∃ k : Location, k.Above m ∧ list.directory.components = k.path.components := by
  have hp : list.directory.components <+: .root :: m.map .name := by
    by_contra hp
    rw [← Location.components_path hm] at hp
    unfold ignores at h
    rw [Path.relativeTo?_of_not_prefix hd hp] at h
    cases h
  rcases List.prefix_cons_iff.mp hp with hnil | ⟨steps, hsteps, hprefix⟩
  · exact absurd hnil hd
  · obtain ⟨k, hk, rfl⟩ : ∃ k : Location, k <+: m ∧ steps = k.map .name :=
      List.prefix_map_iff.mp hprefix
    have hkn : k.IsNamed := hm.mono hk
    have hc : list.directory.components = k.path.components := by
      rw [Location.components_path hkn, hsteps]
    have same : list.ignores m.path isDirectory =
        (⟨k.path, list.rules⟩ : IgnoreList).ignores m.path isDirectory :=
      ignores_congr (by rfl) hc m.path isDirectory
    exact ⟨k, above_of_ignores rfl hkn hm (same.symm.trans h), hc⟩

theorem verdictUp_nil (names : List Bytes) (isDirectory : Bool) :
    verdictUp [] names isDirectory = none := by
  induction names generalizing isDirectory with
  | nil => rfl
  | cons name names ih => exact ih true

theorem ignores_of_isEmpty (h : list.rules = []) (p : Path) (isDirectory : Bool) :
    list.ignores p isDirectory = false := by
  unfold ignores verdict
  rw [h]
  split
  · rw [verdictUp_nil, Bool.and_eq_false_iff]
    exact .inr rfl
  · rfl

end IgnoreList

end AnnotationAudit
