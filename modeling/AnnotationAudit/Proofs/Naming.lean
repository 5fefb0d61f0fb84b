import AnnotationAudit.Proofs.Candidates
import AnnotationAudit.Proofs.Stubs

/-!
# Naming a file, and walking to it

A file that is named is looked at alone; a walk gets to it through the directories above it, and is
turned back where one of them is left out. So a walk finds no more than naming does, and less where
a rule readmits a file below a directory that another one ignores.

* `IgnoreList.ignores_below`   without rules that readmit, all below an ignored directory is so;
* `Selector.NeverReadmits`     no rule that applies to a location readmits;
* `Selector.mem_select_name`   what naming a file selects;
* `Selector.naming_law`        when a walk from the base finds a file that can be named;
* `Selector.not_naming_agrees` naming and walking do not always agree.
-/

namespace AnnotationAudit

/-! ## rules that do not readmit -/

namespace IgnoreList

variable {list : IgnoreList}

theorem lastVerdict_ne_readmitted {rules : List IgnoreRule}
    (h : ∀ r ∈ rules, r.readmits = false) (path : List UInt8) (isDirectory : Bool) :
    lastVerdict path isDirectory rules ≠ some .readmitted := by
  induction rules with
  | nil => exact fun h => by cases h
  | cons r rules ih =>
    obtain ⟨hr, hrules⟩ := List.forall_mem_cons.mp h
    have hrest := ih hrules
    unfold lastVerdict
    rw [hr]
    cases hv : lastVerdict path isDirectory rules with
    | some v =>
      rw [hv] at hrest
      exact hrest
    | none =>
      show (if r.covers path isDirectory then some Verdict.ignored else none) ≠ _
      split <;> exact fun h => by cases h

/-- without rules that readmit, what is in an ignored directory is ignored; the names are given from
the last to the first -/
theorem verdictUp_cons {rules : List IgnoreRule} (h : ∀ r ∈ rules, r.readmits = false)
    {up : List Bytes} (hup : verdictUp rules up true = some .ignored) (s : Bytes)
    (isDirectory : Bool) : verdictUp rules (s :: up) isDirectory = some .ignored := by
  have hne := lastVerdict_ne_readmitted h (pathBytes (s :: up).reverse) isDirectory
  unfold verdictUp
  cases hv : lastVerdict (pathBytes (s :: up).reverse) isDirectory rules with
  | none => exact hup
  | some v =>
    cases v with
    | ignored => rfl
    | readmitted => exact absurd hv hne

theorem verdictUp_append {rules : List IgnoreRule} (h : ∀ r ∈ rules, r.readmits = false)
    {up : List Bytes} (hup : verdictUp rules up true = some .ignored) (names : List Bytes) :
    verdictUp rules (names ++ up) true = some .ignored := by
  induction names with
  | nil => exact hup
  | cons s names ih => exact verdictUp_cons h ih s true

/-- without rules that readmit, all below an ignored directory is ignored -/
theorem ignores_below {l m x : Location} (hd : list.directory = l.path) (hl : l.IsNamed)
    (h : ∀ r ∈ list.rules, r.readmits = false) (hx : x.IsNamed) (hmx : m.Above x)
    (hm : list.ignores m.path true = true) (isDirectory : Bool) :
    list.ignores x.path isDirectory = true := by
  obtain ⟨⟨k, rfl⟩, -⟩ := above_of_ignores hd hl (hx.mono hmx.1) hm
  obtain ⟨⟨j, rfl⟩, hj⟩ := hmx
  rw [ignores_path_append hd (hx.mono (List.prefix_append _ j)), Bool.and_eq_true,
    Bool.not_eq_true', beq_iff_eq] at hm
  rw [List.append_assoc] at hx ⊢
  rw [ignores_path_append hd hx, Bool.and_eq_true, Bool.not_eq_true', beq_iff_eq]
  obtain ⟨hk, hv⟩ := hm
  constructor
  · cases k with
    | nil => cases hk
    | cons => rfl
  · unfold verdict at hv ⊢
    rw [List.reverse_append]
    obtain ⟨i, s, rfl⟩ : ∃ i s, j = i ++ [s] := by
      rcases List.eq_nil_or_concat j with rfl | ⟨i, s, rfl⟩
      · exact absurd (List.append_nil _).symm hj
      · exact ⟨i, s, List.concat_eq_append⟩
    rw [List.reverse_append, List.reverse_singleton, List.singleton_append, List.cons_append]
    exact verdictUp_cons h (verdictUp_append h hv i.reverse) s isDirectory

end IgnoreList

/-! ## leaving out without rules that readmit -/

namespace Selector

variable {c : Selector} {base x m : Location} {input : Path}

theorem leavesOut_base (hb : c.BasedAt base) (w : c.tree.WellFormed) (isDirectory : Bool) :
    c.leavesOut base base isDirectory = false := by
  have hn := hb.isNamed w
  rw [Bool.eq_false_iff, Ne, leavesOut_iff]
  rintro (h | ⟨-, k, hbk, hkb, -⟩)
  · exact (IgnoreList.above_of_ignores hb.base_eq hn hn h).2 rfl
  · exact hkb.2 (hkb.1.eq_of_length_le hbk.length_le)

variable (c base x) in
/-- none of the rules that apply to a location readmits -/
def NeverReadmits : Prop :=
  (∀ r ∈ c.patterns.rules, r.readmits = false) ∧
    (c.useIgnoreFiles = true → ∀ m ∈ base.parents x,
      ∀ r ∈ (c.ignoreList m.path).rules, r.readmits = false)

theorem leavesOut_below (hb : c.BasedAt base) (w : c.tree.WellFormed)
    (h : c.NeverReadmits base x) (hx : x.IsNamed) (hmx : m.Above x)
    (hm : c.leavesOut base m true = true) (isDirectory : Bool) :
    c.leavesOut base x isDirectory = true := by
  rw [leavesOut_iff] at hm ⊢
  rcases hm with hm | ⟨hu, k, hbk, hkm, hm⟩
  · exact .inl (IgnoreList.ignores_below hb.base_eq (hb.isNamed w) h.1 hx hmx hm isDirectory)
  · have hkx : k.Above x := hkm.trans hmx
    exact .inr ⟨hu, k, hbk, hkx, IgnoreList.ignores_below (c.directory_ignoreList _)
      (hx.mono hkx.1) (h.2 hu k (Location.mem_parents.mpr ⟨hbk, hkx⟩)) hx hmx hm isDirectory⟩

/-! ## one file -/

theorem isDirectory_of_file (w : c.tree.WellFormed) {content : FileContent}
    (hx : c.tree.get? x = some (.file content)) : c.tree.isDirectory x.path = false := by
  rw [Bool.eq_false_iff]
  intro hd
  obtain ⟨es, hes⟩ := FileTree.directory_of_isDirectory w ⟨_, hx, rfl⟩ hd
  cases hx.symm.trans hes

/-- a file below the base that is named is selected unless it is left out -/
theorem mem_select_name (w : c.tree.WellFormed) (hb : c.BasedAt base) (hi : c.LeadsTo input x)
    (hbx : base <+: x) {content : FileContent} (hx : c.tree.get? x = some (.file content)) :
    x.path ∈ (c.select [input]).files ↔ c.leavesOut base x false = false := by
  have hlist : c.listing base input = if c.leavesOut base x false then [] else [x.path] := by
    rw [listing_of_leadsTo hi, topOf_eq hbx, isDirectory_of_file w hx,
      if_neg Bool.false_ne_true]
  show x.path ∈ preferStubs (c.candidates [input]) ↔ _
  rw [candidates_eq w hb .singleton, List.flatMap_singleton, hlist]
  cases c.leavesOut base x false with
  | true => exact iff_of_false List.not_mem_nil (by decide)
  | false =>
    have hone : [x.path].eraseDups = [x.path] := by rw [List.eraseDups_cons]; rfl
    rw [if_neg Bool.false_ne_true, hone, preferStubs_singleton (w.isNamed hx)]
    exact iff_of_true (List.mem_singleton.mpr rfl) rfl

/-- a walk from the base finds a source unless it is left out, or a directory on the way is hidden
or left out -/
theorem mem_candidates_base (w : c.tree.WellFormed) (plain : c.tree.LinkFree)
    (hb : c.BasedAt base) (hd : c.tree.isDirectory base.path = true) (hi : c.LeadsTo input base)
    {below : Location} {content : FileContent}
    (hf : c.tree.get? (base ++ below) = some (.file content))
    (hs : (Location.path (base ++ below)).isSource = true) :
    Location.path (base ++ below) ∈ c.candidates [input] ↔
      c.leavesOut base (base ++ below) false = false ∧ ∀ m : Location, m ≠ [] → m.Above below →
        (Location.path (base ++ m)).isHidden = false ∧
          c.leavesOut base (base ++ m) true = false := by
  rw [mem_candidates w hb .singleton]
  simp only [List.mem_singleton, exists_eq_left, mem_listing w plain hi List.prefix_rfl (.inr hd)]
  constructor
  · intro h
    generalize hq : Location.path (base ++ below) = q at h
    cases h with
    | file hfile => exact absurd hd (by rw [FileTree.isDirectory_of_isFile hfile]; decide)
    | source _ _ _ _ kept way =>
      obtain rfl := List.append_cancel_left (Location.path_inj.mp hq)
      exact ⟨kept, way⟩
  · rintro ⟨kept, way⟩
    exact .source hd (leavesOut_base hb w true) ⟨content, hf⟩ hs kept way

/-- **A walk from the base finds a file** if naming it selects it and no directory above it is left
out. Without rules that readmit, the two agree. -/
theorem naming_law (w : c.tree.WellFormed) (plain : c.tree.LinkFree) (hb : c.BasedAt base)
    (hd : c.tree.isDirectory base.path = true) {all name : Path} (hall : c.LeadsTo all base)
    {below : Location} (hname : c.LeadsTo name (base ++ below)) {content : FileContent}
    (hf : c.tree.get? (base ++ below) = some (.file content))
    (hs : (Location.path (base ++ below)).isSource = true)
    (hv : ∀ m : Location, m ≠ [] → m.Above below →
      (Location.path (base ++ m)).isHidden = false) :
    (Location.path (base ++ below) ∈ c.candidates [all] ↔
      Location.path (base ++ below) ∈ (c.select [name]).files ∧
        ∀ m : Location, m ≠ [] → m.Above below → c.leavesOut base (base ++ m) true = false) ∧
    (c.NeverReadmits base (base ++ below) →
      (Location.path (base ++ below) ∈ (c.select [name]).files ↔
        Location.path (base ++ below) ∈ c.candidates [all])) := by
  have named := mem_select_name w hb hname (List.prefix_append base below) hf
  have walked := mem_candidates_base w plain hb hd hall hf hs
  have first : Location.path (base ++ below) ∈ c.candidates [all] ↔
      Location.path (base ++ below) ∈ (c.select [name]).files ∧
        ∀ m : Location, m ≠ [] → m.Above below → c.leavesOut base (base ++ m) true = false := by
    rw [walked, named]
    exact and_congr_right fun _ => forall_congr' fun m => forall₂_congr fun hm hmb =>
      and_iff_right (hv m hm hmb)
  refine ⟨first, fun never => ?_⟩
  rw [first, iff_self_and, named]
  intro kept m _ hmb
  rw [Bool.eq_false_iff]
  intro hm
  have hout := leavesOut_below hb w never (w.isNamed hf) (Location.above_append.mpr hmb) hm false
  rw [kept] at hout
  cases hout

theorem naming_sample :
    sample.tree.WellFormed ∧ sample.tree.LinkFree ∧ sample.BasedAt ["p"] ∧
      sample.tree.isDirectory (Location.path ["p"]) = true ∧ sample.LeadsTo "." ["p"] ∧
      sample.LeadsTo "pkg/keep.py" ["p", "pkg", "keep.py"] ∧
      sample.NeverReadmits ["p"] ["p", "pkg", "keep.py"] ∧
      (Location.path ["p", "pkg", "keep.py"] ∈ (sample.select ["pkg/keep.py"]).files ↔
        Location.path ["p", "pkg", "keep.py"] ∈ sample.candidates ["."]) := by
  have w : sample.tree.WellFormed := by decide +kernel
  have plain : sample.tree.LinkFree := by decide +kernel
  have hb : sample.BasedAt ["p"] := ⟨⟨true, ["p"]⟩, by rfl, by rfl⟩
  have hd : sample.tree.isDirectory (Location.path ["p"]) = true := by decide +kernel
  have hall : sample.LeadsTo "." ["p"] := by rfl
  have hname : sample.LeadsTo "pkg/keep.py" (["p"] ++ ["pkg", "keep.py"]) := by rfl
  have hf : sample.tree.get? (["p"] ++ ["pkg", "keep.py"]) = some (.file (.text "")) := by rfl
  have hv : ∀ m : Location, m ≠ [] → m.Above ["pkg", "keep.py"] →
      (Location.path ("p" :: m)).isHidden = false := by
    have checked : ∀ m ∈ List.inits (["pkg", "keep.py"] : Location),
        (Location.path ("p" :: m)).isHidden = false := by decide +kernel
    exact fun m _ hm => checked m ((List.mem_inits _ _).mpr hm.1)
  have never : sample.NeverReadmits ["p"] (["p"] ++ ["pkg", "keep.py"]) := by
    constructor <;> decide +kernel
  exact ⟨w, plain, hb, hd, hall, hname, never,
    (naming_law w plain hb hd hall hname hf (by decide +kernel) hv).2 never⟩

/-- a project in which a file is readmitted below an ignored directory -/
def readmitting : Selector where
  tree := ⟨[("p", .directory [
    (".gitignore", .file (.text "build/\n!build/keep.py\n")),
    ("build", .directory [("keep.py", .file (.text ""))])])]⟩
  base := ⟨true, ["p"]⟩

/-- naming a file and walking to it do not always agree: where a rule readmits a file below an
ignored directory, the file is selected if it is named, but no walk finds it -/
theorem not_naming_agrees : ¬ ∀ (c : Selector) (base below : Location) (all name : Path)
    (content : FileContent), c.tree.WellFormed → c.tree.LinkFree → c.BasedAt base →
      c.tree.isDirectory base.path = true → c.LeadsTo all base →
      c.LeadsTo name (base ++ below) → c.tree.get? (base ++ below) = some (.file content) →
      (Location.path (base ++ below)).isSource = true →
      (∀ m : Location, m ≠ [] → m.Above below → (Location.path (base ++ m)).isHidden = false) →
      (Location.path (base ++ below) ∈ (c.select [name]).files ↔
        Location.path (base ++ below) ∈ c.candidates [all]) := by
  intro h
  have named : Location.path ["p", "build", "keep.py"] ∈
      (readmitting.select ["build/keep.py"]).files := by decide +kernel
  have walked : Location.path ["p", "build", "keep.py"] ∉ readmitting.candidates ["."] := by
    decide +kernel
  have hv : ∀ m : Location, m ≠ [] → m.Above ["build", "keep.py"] →
      (Location.path ("p" :: m)).isHidden = false := by
    have checked : ∀ m ∈ List.inits (["build", "keep.py"] : Location),
        (Location.path ("p" :: m)).isHidden = false := by decide +kernel
    exact fun m _ hm => checked m ((List.mem_inits _ _).mpr hm.1)
  exact walked ((h readmitting ["p"] ["build", "keep.py"] "." "build/keep.py" (.text "")
    (by decide +kernel) (by decide +kernel) ⟨⟨true, ["p"]⟩, by rfl, by rfl⟩ (by decide +kernel)
    (by rfl) (by rfl) (by rfl) (by decide +kernel) hv).mp named)

end Selector

end AnnotationAudit
