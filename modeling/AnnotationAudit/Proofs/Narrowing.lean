import AnnotationAudit.Proofs.Selecting
import AnnotationAudit.Proofs.Stubs

/-!
# Ignore files only narrow a selection

With ignore files, a selection leaves out more directories and more files. So it finds no more than
without them; but a source that gave way to its stub comes back when the stub is ignored.

* `Walk.sources_subset`       a walk that leaves out more finds less;
* `Selector.finds`            the files that an input adds in a state;
* `Selector.candidates_subset`  with ignore files there are no other candidates than without;
* `Selector.select_narrows`   and nothing else is selected, up to sources whose stub is ignored.
-/

namespace AnnotationAudit

open FileNode (Every IsOrdered)

/-! ## walks that leave out more -/

namespace Walk

variable {out out' : Location → Bool → Bool} {jump jump' : List Ancestor → Location → List Path}

theorem file_subset (h : ∀ x d, out' x d = true → out x d = true) (x : Location) (target : Path) :
    file out x target ⊆ file out' x target := by
  intro p hp
  unfold file at hp ⊢
  split at hp
  · next hx =>
    rw [Bool.and_eq_true, Bool.not_eq_true'] at hx
    have hout : out' x false = false := by
      rw [Bool.eq_false_iff]
      intro hout
      rw [h x false hout] at hx
      exact absurd hx.2 (by decide)
    rw [hx.1, hout]
    exact hp
  · exact absurd hp List.not_mem_nil

theorem inside_subset (h : ∀ x d, out' x d = true → out x d = true) (x : Location)
    {found found' : List Path} (hf : found ⊆ found') :
    inside out x found ⊆ inside out' x found' := by
  intro p hp
  unfold inside at hp ⊢
  split at hp
  · exact absurd hp List.not_mem_nil
  · next hx =>
    rw [if_neg]
    · exact hf hp
    · intro hx'
      rw [Bool.or_eq_true] at hx hx'
      exact hx (hx'.imp_right (h x true))

mutual

theorem node_subset (h : ∀ x d, out' x d = true → out x d = true)
    (hj : ∀ as x, jump as x ⊆ jump' as x) (as : List Ancestor) (x l : Location) :
    ∀ n : FileNode, node out jump as x l n ⊆ node out' jump' as x l n
  | .file _ => file_subset h x x.path
  | .directory es => inside_subset h x (entries_subset h hj _ x l es)
  | .link _ => hj as x

theorem entries_subset (h : ∀ x d, out' x d = true → out x d = true)
    (hj : ∀ as x, jump as x ⊆ jump' as x) (as : List Ancestor) (here l : Location) :
    ∀ es : List (Bytes × FileNode), entries out jump as here l es ⊆ entries out' jump' as here l es
  | [] => List.Subset.refl []
  | e :: es => by
    intro p hp
    unfold entries at hp ⊢
    rw [List.mem_append] at hp ⊢
    exact hp.imp (fun hp => entry_subset h hj as here l e hp)
      fun hp => entries_subset h hj as here l es hp

theorem entry_subset (h : ∀ x d, out' x d = true → out x d = true)
    (hj : ∀ as x, jump as x ⊆ jump' as x) (as : List Ancestor) (here l : Location) :
    ∀ e : Bytes × FileNode, entry out jump as here l e ⊆ entry out' jump' as here l e
  | (s, n) => node_subset h hj as (here ++ [s]) (l ++ [s]) n

end

/-- the induction is on the number of links to follow; both walks are in the same directories when
they come to a link, so neither takes it for a loop without the other -/
theorem behind_subset (h : ∀ x d, out' x d = true → out x d = true) (t : FileTree) (links : Nat) :
    ∀ as x, behind out t links as x ⊆ behind out' t links as x := by
  induction links using Nat.strongRecOn with
  | ind links ih =>
    intro as x
    unfold behind
    cases t.locate x.path with
    | error e => exact List.Subset.refl []
    | ok l =>
      dsimp only
      cases t.get? l with
      | none => exact List.Subset.refl []
      | some n =>
        cases n with
        | file content => exact file_subset h x l.path
        | link target => exact List.Subset.refl []
        | directory es =>
          dsimp only
          split
          · exact List.Subset.refl []
          · cases links with
            | zero => exact List.Subset.refl []
            | succ n =>
              exact inside_subset h x (entries_subset h (ih n (Nat.lt_succ_self n)) _ x l es)

theorem sources_subset (h : ∀ x d, out' x d = true → out x d = true) (t : FileTree)
    (i : Location) : sources out t i ⊆ sources out' t i := by
  unfold sources
  split
  · exact entries_subset h (behind_subset h t _) _ i i _
  · exact List.Subset.refl []

/-- all that a walk finds is named by names of entries -/
theorem passes_isNamed {t : FileTree} (w : t.WellFormed) :
    Passes t (fun x _ n => x.IsNamed ∧ n.Every IsOrdered)
      fun p => ∃ y : Location, y.IsNamed ∧ p = y.path where
  file h := ⟨_, h.1, rfl⟩
  target h := ⟨_, w.isNamed h, rfl⟩
  entry h e he := by
    obtain ⟨ordered, nodes⟩ := Every.directory_iff.mp h.2
    exact ⟨h.1.snoc (ordered.2 e he), nodes e he⟩
  behind h hk e he := by
    obtain ⟨ordered, nodes⟩ := Every.directory_iff.mp (w.get? hk)
    exact ⟨h.1.snoc (ordered.2 e he), nodes e he⟩

theorem isNamed_sources {t : FileTree} (w : t.WellFormed) (i : Location) :
    ∀ p ∈ sources out t i, ∃ y : Location, y.IsNamed ∧ p = y.path :=
  forall_mem_sources (passes_isNamed w) fun _ hi => ⟨w.isNamed hi, w.get? hi⟩

end Walk

/-! ## two runs -/

namespace Selector

/-- the selector that reads ignore files, or that reads none -/
def withIgnoreFiles (c : Selector) (use : Bool) : Selector := { c with useIgnoreFiles := use }

variable {c : Selector} {s t : SelectionState}

theorem isNamed_candidates (w : c.tree.WellFormed) (inputs : List Path) :
    ∀ p ∈ c.candidates inputs, ∃ y : Location, y.IsNamed ∧ p = y.path :=
  (candidates_finds w (fun _ i => Walk.isNamed_sources w i)
    (fun i hi => ⟨i, hi.isNamed w, rfl⟩) inputs).2

/-- a state of the run that reads ignore files, and one of the run that reads none -/
structure Narrows (c : Selector) (s t : SelectionState) : Prop where
  read : (c.withIgnoreFiles true).HasRead s
  readNone : (c.withIgnoreFiles false).HasRead t
  loaded : t.loaded = []
  files : s.files ⊆ t.files

namespace Narrows

theorem isExcluded (hs : (c.withIgnoreFiles true).HasRead s)
    (ht : (c.withIgnoreFiles false).HasRead t) (hl : t.loaded = []) {p : Path} {isDirectory : Bool}
    (h : t.isExcluded p isDirectory = true) : s.isExcluded p isDirectory = true := by
  rw [hs.isExcluded_iff]
  rw [ht.isExcluded_iff, hl] at h
  rcases h with h | ⟨q, hq, -⟩
  · exact .inl h
  · exact absurd hq List.not_mem_nil

/-- an input adds nothing that it does not add without ignore files -/
theorem finds (h : c.Narrows s t) (input : Path) :
    (c.withIgnoreFiles true).finds s input ⊆ (c.withIgnoreFiles false).finds t input := by
  cases hl : c.tree.locate (c.base.join input) with
  | error e =>
    have none_found : (c.withIgnoreFiles true).finds s input = [] := finds_of_error hl
    rw [none_found]
    exact List.nil_subset _
  | ok i =>
    have hi : (c.withIgnoreFiles true).LeadsTo input i := hl
    have hi' : (c.withIgnoreFiles false).LeadsTo input i := hl
    have unread : (c.withIgnoreFiles false).looking t i.path = t := looking_of_unused rfl i.path
    rw [finds_of_leadsTo hi, finds_of_leadsTo hi', unread]
    have kept {p : Path} {isDirectory : Bool} : t.isExcluded p isDirectory = true →
        ((c.withIgnoreFiles true).looking s i.path).isExcluded p isDirectory = true :=
      isExcluded (h.read.looking i.path) h.readNone h.loaded
    -- without ignore files, what is left out on a walk is what is ignored when it begins
    have out (x : Location) (d : Bool)
        (hx : (c.withIgnoreFiles false).leavesOutFrom t i x d = true) :
        (c.withIgnoreFiles true).leavesOutFrom
          ((c.withIgnoreFiles true).looking s i.path) i x d = true := by
      unfold leavesOutFrom at hx ⊢
      rw [Bool.or_eq_true] at hx ⊢
      rcases hx with hx | hx
      · exact .inl (kept hx)
      · cases hx
    split
    · exact List.nil_subset _
    · next hs =>
      have ht : ¬ t.isExcluded i.path ((c.withIgnoreFiles false).tree.isDirectory i.path) = true :=
        fun ht => hs (kept ht)
      rw [if_neg ht]
      show (if c.tree.isDirectory i.path then _ else _ : List Path) ⊆
        if c.tree.isDirectory i.path then _ else _
      split
      · exact Walk.sources_subset out c.tree i
      · exact List.Subset.refl _

theorem foldl (w : c.tree.WellFormed) (inputs : List Path) (h : c.Narrows s t) :
    c.Narrows (inputs.foldl (c.withIgnoreFiles true).selectInput s)
      (inputs.foldl (c.withIgnoreFiles false).selectInput t) := by
  induction inputs generalizing s t with
  | nil => exact h
  | cons input inputs ih =>
    have first := selectInput_finds (c := c.withIgnoreFiles true) w h.read input
    have second := selectInput_finds (c := c.withIgnoreFiles false) w h.readNone input
    refine ih ⟨first.1, second.1, ?_, fun p hp => ?_⟩
    · exact List.subset_nil.mp (h.loaded ▸ second.2.2 rfl)
    · rw [first.2.1, mem_addNew] at hp
      rw [second.2.1, mem_addNew]
      exact hp.imp (fun hp => h.files hp) fun hp => h.finds input hp

end Narrows

/-- with ignore files, there are no other candidates than without -/
theorem candidates_subset (w : c.tree.WellFormed) (inputs : List Path) :
    (c.withIgnoreFiles true).candidates inputs ⊆ (c.withIgnoreFiles false).candidates inputs := by
  refine (Narrows.foldl w inputs ⟨hasRead_start _, hasRead_start _, ?_, ?_⟩).files
  · refine List.eq_nil_iff_forall_not_mem.mpr fun q hq => ?_
    have hu := ((c.withIgnoreFiles false).mem_loaded_start.mp hq).1
    cases hu
  · rw [files_start]
    exact List.nil_subset _

/-- **Ignore files only narrow a selection, up to stubs.** What is selected with ignore files is
selected without them too, or it is a source whose stub is selected without them and is not even a
candidate with them. -/
theorem select_narrows (w : c.tree.WellFormed) (inputs : List Path) :
    ∀ p ∈ ((c.withIgnoreFiles true).select inputs).files,
      p ∈ ((c.withIgnoreFiles false).select inputs).files ∨
        ∃ (l : Location) (x : Bytes), p = Location.path (l ++ [x ++ Text.dot :: bytesOf "py"]) ∧
          Location.path (l ++ [x ++ Text.dot :: bytesOf "pyi"]) ∈
            ((c.withIgnoreFiles false).select inputs).files ∧
          Location.path (l ++ [x ++ Text.dot :: bytesOf "pyi"]) ∉
            (c.withIgnoreFiles true).candidates inputs := by
  intro p hp
  obtain ⟨candidate, alone⟩ := mem_preferStubs.mp hp
  have named := isNamed_candidates (c := c.withIgnoreFiles true) w inputs
  have namedAll := isNamed_candidates (c := c.withIgnoreFiles false) w inputs
  have also : p ∈ (c.withIgnoreFiles false).candidates inputs :=
    candidates_subset w inputs candidate
  cases hstub : hasStub ((c.withIgnoreFiles false).candidates inputs) p with
  | false => exact .inl (mem_preferStubs.mpr ⟨also, hstub⟩)
  | true =>
    obtain ⟨m, hm, rfl⟩ := named p candidate
    obtain ⟨hx, l, x, rfl, stub⟩ := (hasStub_iff namedAll hm).mp hstub
    refine .inr ⟨l, x, rfl, mem_preferStubs.mpr ⟨stub, ?_⟩, fun hcand => ?_⟩
    · obtain ⟨k, hk, hpath⟩ := namedAll _ stub
      obtain rfl := Location.path_inj.mp hpath
      rw [Bool.eq_false_iff]
      exact fun h => Path.extension?_stub hk ((hasStub_iff namedAll hk).mp h).1
    · rw [Bool.eq_false_iff] at alone
      exact alone ((hasStub_iff named hm).mpr ⟨hx, l, x, rfl, hcand⟩)

/-- a project that ignores a stub, and not the source beside it -/
def stubless : Selector where
  tree := ⟨[("p", .directory [
    (".gitignore", .file (.text "x.pyi\n")),
    ("x.py", .file (.text "")),
    ("x.pyi", .file (.text ""))])]⟩
  base := ⟨true, ["p"]⟩

theorem select_narrows_stubless :
    stubless.tree.WellFormed ∧
      ((stubless.withIgnoreFiles true).select ["."]).files = [⟨true, ["p", "x.py"]⟩] ∧
      ((stubless.withIgnoreFiles false).select ["."]).files = [⟨true, ["p", "x.pyi"]⟩] ∧
      ∀ p ∈ ((stubless.withIgnoreFiles true).select ["."]).files,
        p ∈ ((stubless.withIgnoreFiles false).select ["."]).files ∨
          ∃ (l : Location) (x : Bytes), p = Location.path (l ++ [x ++ Text.dot :: bytesOf "py"]) ∧
            Location.path (l ++ [x ++ Text.dot :: bytesOf "pyi"]) ∈
              ((stubless.withIgnoreFiles false).select ["."]).files ∧
            Location.path (l ++ [x ++ Text.dot :: bytesOf "pyi"]) ∉
              (stubless.withIgnoreFiles true).candidates ["."] := by
  have w : stubless.tree.WellFormed := by decide +kernel
  exact ⟨w, by decide +kernel, by decide +kernel, select_narrows w ["."]⟩

end Selector

end AnnotationAudit
