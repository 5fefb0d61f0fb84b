import AnnotationAudit.Proofs.Failures
import AnnotationAudit.Proofs.Walking

/-!
# What inputs stand for

What is left out at a location depends on the directories above it that have been looked into. Below
the base, these are all of them whatever has been looked at before; elsewhere, they are those from
the input on, unless another input leads further up. So every input stands for the same files
wherever it is given, and the files of inputs are those of each of them.

* `Selector.LeadsTo`        the location of an input;
* `Selector.Apart`          no input leads outside of the base to a directory above another one;
* `Selector.listing`        the files that an input stands for, told from the files alone;
* `Selector.Between`        what holds between the inputs;
* `Selector.selectInput_finds`  what an input adds in any state;
* `Selector.selectInput_listing`  an input adds its files and keeps `Between`;
* `Selector.candidates_finds`  what holds of all that walks find holds of the files of inputs;
* `Selector.candidates_eq`  the files of inputs are those of each of them, without repetitions.
-/

namespace AnnotationAudit
namespace Selector

variable (c : Selector)

/-! ## inputs -/

/-- an input leads to a location -/
def LeadsTo (input : Path) (i : Location) : Prop :=
  c.tree.locate (c.base.join input) = .ok i

/-- the selector starts from the location that some path leads to -/
def BasedAt (base : Location) : Prop :=
  ∃ directory, c.tree.locate directory = .ok base ∧
    c = ofBase c.tree directory c.excludes c.useIgnoreFiles

/-- the directory from which on ignore files have a say where an input leads: the base, or what the
input leads to if that is not below -/
def topOf (base i : Location) : Location := if base <+: i then base else i

/-- the files that an input stands for -/
def listing (base : Location) (input : Path) : List Path :=
  match c.tree.locate (c.base.join input) with
  | .error _ => []
  | .ok i =>
    if c.leavesOut (topOf base i) i (c.tree.isDirectory i.path) then []
    else if c.tree.isDirectory i.path then Walk.sources (c.leavesOut (topOf base i)) c.tree i
    else [i.path]

/-- if ignore files are read, no input leads outside of the base to a directory above what another
input leads to -/
def Apart (base : Location) (inputs : List Path) : Prop :=
  c.useIgnoreFiles = true → ∀ outer ∈ inputs, ∀ inner ∈ inputs, ∀ j i : Location,
    c.LeadsTo outer j → c.LeadsTo inner i → j.Above i → base <+: j

/-- a state in which the base has been looked into, and otherwise only directories below it or below
what inputs lead to -/
structure Between (base : Location) (inputs : List Path) (s : SelectionState) : Prop where
  read : c.HasRead s
  start : c.useIgnoreFiles = true → base.path ∈ s.loaded
  below : ∀ q ∈ s.loaded, c.useIgnoreFiles = true ∧ ∃ k : Location, k.IsNamed ∧ q = k.path ∧
    (base <+: k ∨ ∃ input ∈ inputs, ∃ j, c.LeadsTo input j ∧ j <+: k)

variable {c} {base i : Location} {s u : SelectionState} {input : Path} {inputs : List Path}

theorem topOf_eq (h : base <+: i) : topOf base i = base := if_pos h

theorem isPrefixOf_topOf : topOf base i <+: i := by
  unfold topOf
  split
  · assumption
  · exact List.prefix_rfl

theorem LeadsTo.unique {j : Location} (hi : c.LeadsTo input i) (hj : c.LeadsTo input j) : i = j :=
  Except.ok.inj (hi.symm.trans hj)

theorem BasedAt.base_eq (h : c.BasedAt base) : c.base = base.path := by
  obtain ⟨directory, hl, hc⟩ := h
  rw [hc]
  unfold ofBase FileTree.canonical
  rw [hl]
  rfl

theorem BasedAt.isNamed (h : c.BasedAt base) (w : c.tree.WellFormed) : base.IsNamed :=
  h.elim fun _ hd => (FileTree.stands_of_locate hd.1).isNamed w

namespace Apart

theorem singleton : c.Apart base [input] := by
  rintro - outer hout inner hin j i hj hi hji
  obtain rfl := List.mem_singleton.mp hout
  obtain rfl := List.mem_singleton.mp hin
  exact absurd (hj.unique hi) hji.2

theorem of_locations (ls : List Location) (h : ∀ input ∈ inputs, ∃ i ∈ ls, c.LeadsTo input i)
    (ha : ∀ j ∈ ls, ∀ i ∈ ls, j.Above i → base <+: j) : c.Apart base inputs := by
  rintro - outer hout inner hin j i hj hi hji
  obtain ⟨j', hj', hlj⟩ := h outer hout
  obtain ⟨i', hi', hli⟩ := h inner hin
  obtain rfl := hj.unique hlj
  obtain rfl := hi.unique hli
  exact ha j hj' i hi' hji

theorem congr {others : List Path} (h : c.Apart base inputs)
    (hm : ∀ input, input ∈ inputs ↔ input ∈ others) : c.Apart base others :=
  fun hu outer hout inner hin => h hu outer ((hm outer).mpr hout) inner ((hm inner).mpr hin)

end Apart

/-! ## between inputs -/

theorem between_start (hb : c.base = base.path) (hn : base.IsNamed) :
    c.Between base inputs c.start := by
  refine ⟨c.hasRead_start, fun hu => c.mem_loaded_start.mpr ⟨hu, hb.symm⟩, fun q hq => ?_⟩
  obtain ⟨hu, rfl⟩ := c.mem_loaded_start.mp hq
  exact ⟨hu, base, hn, hb, .inl List.prefix_rfl⟩

namespace Between

theorem of_eq (h : c.Between base inputs s) (hx : u.isExcluded = s.isExcluded)
    (hl : u.loaded = s.loaded) : c.Between base inputs u :=
  ⟨h.read.of_eq hx hl, hl ▸ h.start, hl ▸ h.below⟩

theorem of_walking (h : c.Between base inputs s) (hin : input ∈ inputs) (hi : c.LeadsTo input i)
    {here : Location} (hw : c.Walking s i here u) : c.Between base inputs u := by
  refine ⟨hw.read, fun hu => hw.kept _ (h.start hu), fun q hq => ?_⟩
  rcases hw.fresh q hq with hq | ⟨hu, k, hk, hik, rfl⟩
  · exact h.below q hq
  · exact ⟨hu, k, hk, rfl, .inr ⟨input, hin, i, hi, hik⟩⟩

/-- of the directories that have been looked into, those that have a say where an input leads are
below the directory from which on ignore files do -/
theorem below_topOf (h : c.Between base inputs s) (ha : c.Apart base inputs) (hin : input ∈ inputs)
    (hi : c.LeadsTo input i) {x : Location} (hx : x.IsNamed) (hix : i <+: x) {q : Path}
    (hq : q ∈ s.loaded) {isDirectory : Bool}
    (hout : (c.ignoreList q).ignores x.path isDirectory = true) :
    c.useIgnoreFiles = true ∧ ∃ k : Location, q = k.path ∧ topOf base i <+: k ∧ k.Above x := by
  obtain ⟨hu, k, hk, rfl, origin⟩ := h.below q hq
  have hkx := IgnoreList.above_of_ignores (c.directory_ignoreList _) hk hx hout
  refine ⟨hu, k, rfl, ?_, hkx⟩
  rcases List.prefix_or_prefix_of_prefix (isPrefixOf_topOf.trans hix) hkx.1 with htk | hkt
  · exact htk
  · by_contra hn
    have hki : k.Above i := ⟨hkt.trans isPrefixOf_topOf, fun he => hn (he ▸ isPrefixOf_topOf)⟩
    have hbk : base <+: k := by
      rcases origin with hbk | ⟨outer, hout, j, hj, hjk⟩
      · exact hbk
      · exact (ha hu outer hout input hin j i hj hi (hki.mono hjk)).trans hjk
    exact hn ((topOf_eq (hbk.trans hki.1)).symm ▸ hbk)

/-- what is known when the location of an input is looked at: in addition, the directories above it
that have a say have been looked into -/
theorem looking (h : c.Between base inputs s) (hb : c.base = base.path) (hn : base.IsNamed)
    (hi : i.IsNamed) : c.Between base inputs (c.looking s i.path) ∧
      (c.useIgnoreFiles = true → ∀ m : Location, topOf base i <+: m → m.Above i →
        m.path ∈ (c.looking s i.path).loaded) := by
  unfold Selector.looking
  split
  · by_cases hbi : base <+: i
    · have hmem (q : Path) := mem_loaded_loadAbove (s := s) (q := q) hb hi hbi
      rw [topOf_eq hbi]
      refine ⟨⟨h.read.loadAbove _, fun hu => (hmem _).mpr (.inl (h.start hu)), fun q hq => ?_⟩,
        fun hu m hm hmi => (hmem _).mpr ?_⟩
      · rcases (hmem q).mp hq with hq | ⟨k, hbk, hki, rfl⟩
        · exact h.below q hq
        · exact ⟨‹_›, k, hi.mono hki.1, rfl, .inl hbk.1⟩
      · rcases eq_or_ne base m with rfl | hne
        · exact .inl (h.start hu)
        · exact .inr ⟨m, ⟨hm, hne⟩, hmi, rfl⟩
    · have same : c.loadAbove s i.path = s := by
        unfold loadAbove
        rw [hb, Location.relativeTo?_path_of_not_prefix hn hi hbi]
      rw [same]
      refine ⟨h, fun _ m him hmi => ?_⟩
      rw [topOf, if_neg hbi] at him
      exact absurd (hmi.1.eq_of_length_le him.length_le) hmi.2
  · next hu => exact ⟨h, fun hu' => absurd hu' hu⟩

variable (h : c.Between base inputs s) (ha : c.Apart base inputs) (hin : input ∈ inputs)
  (hi : c.LeadsTo input i)
  (hl : c.useIgnoreFiles = true → ∀ m : Location, topOf base i <+: m → m.Above i →
    m.path ∈ s.loaded)

include h ha hin hi hl

theorem isExcluded_eq (hn : i.IsNamed) (isDirectory : Bool) :
    s.isExcluded i.path isDirectory = c.leavesOut (topOf base i) i isDirectory := by
  rw [Bool.eq_iff_iff, h.read.isExcluded_iff, leavesOut_iff]
  refine or_congr_right ⟨?_, ?_⟩
  · rintro ⟨q, hq, hout⟩
    obtain ⟨hu, k, rfl, htk, hki⟩ := h.below_topOf ha hin hi hn List.prefix_rfl hq hout
    exact ⟨hu, k, htk, hki, hout⟩
  · rintro ⟨hu, m, htm, hmi, hout⟩
    exact ⟨m.path, hl hu m htm hmi, hout⟩

theorem walksBy : c.WalksBy s i (c.leavesOut (topOf base i)) := by
  refine ⟨h.read, fun x isDirectory hx hix => ?_⟩
  rw [Bool.eq_iff_iff, leavesOut_iff]
  unfold leavesOutFrom
  simp only [Bool.or_eq_true, h.read.isExcluded_iff, Bool.and_eq_true, List.any_eq_true,
    Location.mem_parents, or_assoc]
  refine or_congr_right ⟨?_, ?_⟩
  · rintro (⟨q, hq, hout⟩ | ⟨hu, m, ⟨him, hmx⟩, hout⟩)
    · obtain ⟨hu, k, rfl, htk, hkx⟩ := h.below_topOf ha hin hi hx hix.1 hq hout
      exact ⟨hu, k, htk, hkx, hout⟩
    · exact ⟨hu, m, isPrefixOf_topOf.trans him, hmx, hout⟩
  · rintro ⟨hu, m, htm, hmx, hout⟩
    by_cases him : i <+: m
    · exact .inr ⟨hu, m, ⟨him, hmx⟩, hout⟩
    · have hmi : m <+: i := (List.prefix_or_prefix_of_prefix hix.1 hmx.1).resolve_left him
      have hne : m ≠ i := fun he => him (he ▸ List.prefix_rfl)
      exact .inl ⟨m.path, hl hu m htm ⟨hmi, hne⟩, hout⟩

end Between

/-! ## one input -/

theorem selectInput_of_error {e : AccessError}
    (h : c.tree.locate (c.base.join input) = .error e) :
    c.selectInput s input =
      s.fail (.ofResolution input.toString ("cannot access path: " ++ e.message)) := by
  unfold selectInput
  rw [h]

/-- an input that leads to a location is left out, walked over or found -/
theorem selectInput_of_leadsTo (h : c.LeadsTo input i) :
    c.selectInput s input =
      if (c.looking s i.path).isExcluded i.path (c.tree.isDirectory i.path) then
        (c.looking s i.path).debug ("Skipping " ++ c.shown i.path)
      else if c.tree.isDirectory i.path then c.walk (c.looking s i.path) i
      else (c.looking s i.path).find i.path := by
  unfold LeadsTo at h
  unfold selectInput
  rw [h]
  rfl

theorem listing_of_leadsTo (h : c.LeadsTo input i) :
    c.listing base input =
      if c.leavesOut (topOf base i) i (c.tree.isDirectory i.path) then []
      else if c.tree.isDirectory i.path then Walk.sources (c.leavesOut (topOf base i)) c.tree i
      else [i.path] := by
  unfold LeadsTo at h
  unfold listing
  rw [h]

variable (c s) in
theorem files_looking (p : Path) : (c.looking s p).files = s.files := by
  unfold looking
  split <;> simp

theorem looking_of_unused (h : c.useIgnoreFiles = false) (p : Path) : c.looking s p = s := by
  rw [looking, h, if_neg Bool.false_ne_true]

variable (c s) in
/-- the files that an input adds in a state -/
def finds (input : Path) : List Path :=
  match c.tree.locate (c.base.join input) with
  | .error _ => []
  | .ok i =>
    if (c.looking s i.path).isExcluded i.path (c.tree.isDirectory i.path) then []
    else if c.tree.isDirectory i.path then
      Walk.sources (c.leavesOutFrom (c.looking s i.path) i) c.tree i
    else [i.path]

theorem finds_of_error {e : AccessError}
    (h : c.tree.locate (c.base.join input) = .error e) : c.finds s input = [] := by
  unfold finds
  rw [h]

theorem finds_of_leadsTo (h : c.LeadsTo input i) :
    c.finds s input =
      if (c.looking s i.path).isExcluded i.path (c.tree.isDirectory i.path) then []
      else if c.tree.isDirectory i.path then
        Walk.sources (c.leavesOutFrom (c.looking s i.path) i) c.tree i
      else [i.path] := by
  unfold LeadsTo at h
  unfold finds
  rw [h]

theorem HasRead.looking (h : c.HasRead s) (p : Path) : c.HasRead (c.looking s p) := by
  unfold Selector.looking
  split
  · exact h.loadAbove p
  · exact h

/-- what an input adds; if ignore files are not read, no directory is looked into for them -/
theorem selectInput_finds (w : c.tree.WellFormed) (h : c.HasRead s) (input : Path) :
    c.HasRead (c.selectInput s input) ∧
      (c.selectInput s input).files = addNew s.files (c.finds s input) ∧
      (c.useIgnoreFiles = false → (c.selectInput s input).loaded ⊆ s.loaded) := by
  cases hl : c.tree.locate (c.base.join input) with
  | error e =>
    rw [selectInput_of_error hl, finds_of_error hl]
    exact ⟨h.of_eq rfl rfl, rfl, fun _ => List.Subset.refl _⟩
  | ok i =>
    have stands := FileTree.stands_of_locate hl
    have hlook := h.looking i.path
    have hfiles := c.files_looking s i.path
    have unread : c.useIgnoreFiles = false → (c.looking s i.path).loaded ⊆ s.loaded := by
      intro hu
      rw [looking_of_unused hu]
      exact List.Subset.refl _
    rw [selectInput_of_leadsTo hl, finds_of_leadsTo hl]
    split
    · exact ⟨hlook.of_eq rfl rfl, hfiles, unread⟩
    · split
      · next hd =>
        obtain ⟨es, hes⟩ := FileTree.directory_of_isDirectory w stands hd
        obtain ⟨hw, hf⟩ := walk_finds ⟨hlook, fun _ _ _ _ => rfl⟩ w hes
        refine ⟨hw.read, by rw [hf, hfiles], fun hu q hq => ?_⟩
        rcases hw.fresh q hq with hq | ⟨hu', -⟩
        · exact unread hu hq
        · rw [hu] at hu'
          cases hu'
      · refine ⟨hlook.of_eq (SelectionState.isExcluded_find _ _)
          (SelectionState.loaded_find _ _), ?_, fun hu => ?_⟩
        · rw [SelectionState.files_find, hfiles]
        · rw [SelectionState.loaded_find]
          exact unread hu

/-- what an input adds is found on a walk, or is what the input leads to -/
theorem forall_mem_finds {P : Path → Prop}
    (hw : ∀ out i, ∀ p ∈ Walk.sources out c.tree i, P p)
    (hs : ∀ i, c.tree.Stands i → P i.path) : ∀ p ∈ c.finds s input, P p := by
  cases hl : c.tree.locate (c.base.join input) with
  | error e =>
    rw [finds_of_error hl]
    exact fun _ hp => absurd hp List.not_mem_nil
  | ok i =>
    rw [finds_of_leadsTo hl]
    split
    · exact fun _ hp => absurd hp List.not_mem_nil
    · split
      · exact hw _ i
      · exact List.forall_mem_singleton.mpr (hs i (FileTree.stands_of_locate hl))

/-- **An input adds the files that it stands for**, whatever has been looked at before. -/
theorem selectInput_listing (w : c.tree.WellFormed) (hb : c.BasedAt base)
    (ha : c.Apart base inputs) (hin : input ∈ inputs) (h : c.Between base inputs s) :
    c.Between base inputs (c.selectInput s input) ∧
      (c.selectInput s input).files = addNew s.files (c.listing base input) := by
  cases hi : c.tree.locate (c.base.join input) with
  | error e =>
    rw [selectInput_of_error hi, listing, hi]
    exact ⟨h.of_eq rfl rfl, rfl⟩
  | ok i =>
    have stands := FileTree.stands_of_locate hi
    have hn := stands.isNamed w
    obtain ⟨hlook, hl⟩ := h.looking hb.base_eq (hb.isNamed w) hn
    have hfiles := c.files_looking s i.path
    rw [selectInput_of_leadsTo hi, hlook.isExcluded_eq ha hin hi hl hn, listing_of_leadsTo hi]
    split
    · exact ⟨hlook.of_eq rfl rfl, hfiles⟩
    · split
      · next hd =>
        obtain ⟨es, hes⟩ := FileTree.directory_of_isDirectory w stands hd
        obtain ⟨hw, hf⟩ := walk_finds (hlook.walksBy ha hin hi hl) w hes
        exact ⟨hlook.of_walking hin hi hw, by rw [hf, hfiles]⟩
      · refine ⟨hlook.of_eq (SelectionState.isExcluded_find _ _)
          (SelectionState.loaded_find _ _), ?_⟩
        rw [SelectionState.files_find, hfiles]

/-! ## all inputs -/

/-- what holds of all that walks and inputs find holds of the files of inputs, and none of these
occurs twice -/
theorem foldl_finds (w : c.tree.WellFormed) {P : Path → Prop}
    (hw : ∀ out i, ∀ p ∈ Walk.sources out c.tree i, P p)
    (hs : ∀ i, c.tree.Stands i → P i.path) (inputs : List Path) (h : c.HasRead s)
    (hd : s.files.Nodup) (hp : ∀ p ∈ s.files, P p) :
    (inputs.foldl c.selectInput s).files.Nodup ∧
      ∀ p ∈ (inputs.foldl c.selectInput s).files, P p := by
  induction inputs generalizing s with
  | nil => exact ⟨hd, hp⟩
  | cons input inputs ih =>
    obtain ⟨hread, hf, -⟩ := selectInput_finds w h input
    refine ih hread (hf ▸ nodup_addNew _ hd) fun p hin => ?_
    rw [hf, mem_addNew] at hin
    exact hin.elim (hp p) (forall_mem_finds hw hs p)

theorem candidates_finds (w : c.tree.WellFormed) {P : Path → Prop}
    (hw : ∀ out i, ∀ p ∈ Walk.sources out c.tree i, P p)
    (hs : ∀ i, c.tree.Stands i → P i.path) (inputs : List Path) :
    (c.candidates inputs).Nodup ∧ ∀ p ∈ c.candidates inputs, P p := by
  have none_yet : ∀ p ∈ c.start.files, P p := by
    rw [files_start]
    exact fun _ hp => absurd hp List.not_mem_nil
  exact foldl_finds w hw hs inputs c.hasRead_start (c.files_start.symm ▸ List.nodup_nil) none_yet

theorem files_foldl (w : c.tree.WellFormed) (hb : c.BasedAt base) (ha : c.Apart base inputs)
    (h : c.Between base inputs s) {given : List Path} (hg : given ⊆ inputs) :
    (given.foldl c.selectInput s).files = addNew s.files (given.flatMap (c.listing base)) := by
  induction given generalizing s with
  | nil => rfl
  | cons input given ih =>
    obtain ⟨hin, hg⟩ := List.cons_subset.mp hg
    obtain ⟨hs, hf⟩ := selectInput_listing w hb ha hin h
    rw [List.foldl_cons, ih hs hg, hf, List.flatMap_cons, addNew_append]

/-- **The files of inputs are those of each of them**, each at its first occurrence. -/
theorem candidates_eq (w : c.tree.WellFormed) (hb : c.BasedAt base) (ha : c.Apart base inputs) :
    c.candidates inputs = (inputs.flatMap (c.listing base)).eraseDups := by
  have start : c.Between base inputs c.start := between_start hb.base_eq (hb.isNamed w)
  unfold candidates run
  rw [files_foldl w hb ha start (List.Subset.refl inputs), files_start, ← List.eraseDups_nil,
    addNew_eraseDups, List.nil_append]

theorem mem_candidates (w : c.tree.WellFormed) (hb : c.BasedAt base) (ha : c.Apart base inputs)
    {q : Path} : q ∈ c.candidates inputs ↔ ∃ input ∈ inputs, q ∈ c.listing base input := by
  rw [candidates_eq w hb ha, List.mem_eraseDups, List.mem_flatMap]

end Selector
end AnnotationAudit
