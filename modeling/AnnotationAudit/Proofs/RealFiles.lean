import AnnotationAudit.Proofs.Selecting
import AnnotationAudit.Proofs.Stubs

/-!
# Selected paths and real files

A walk follows links and names what it finds by the way it went. So a selected path leads to itself
unless it goes through a link, and a file can be selected under two paths if one of them does.

* `FileTree.Linked`          a location that is reached through a link;
* `FileTree.Named`           a path that leads to itself, or goes through a link;
* `Walk.named_sources`       what a walk finds is named like that;
* `Selector.files_run`       so is what a selection finds, whatever its inputs;
* `Selector.canonical_of_mem_select`  without links on the way, selected paths are those of real
                             files, each of them once;
* `Selector.not_canonical_select`  through links, they are not.
-/

namespace AnnotationAudit

/-! ## links on the way -/

namespace FileTree

variable (t : FileTree)

/-- there is a link above a location -/
def Linked (x : Location) : Prop := ∃ m target, m.Above x ∧ t.get? m = some (.link target)

/-- a path that leads to itself, or goes through a link -/
def Named (p : Path) : Prop := ∃ x : Location, p = x.path ∧ (t.Linked x ∨ t.Stands x)

/-- the node that a walk comes to by a way: the one that stands there, unless the way goes through a
link -/
def Reached (x l : Location) (n : FileNode) : Prop := x = l ∧ t.get? l = some n ∨ t.Linked x

variable {t} {x l : Location} {n : FileNode} {es : FileEntries}

theorem Linked.below {m : Location} (h : t.Linked x) (hm : x <+: m) : t.Linked m := by
  obtain ⟨k, target, hk, hlink⟩ := h
  rcases eq_or_ne x m with rfl | hne
  · exact ⟨k, target, hk, hlink⟩
  · exact ⟨k, target, hk.trans ⟨hm, hne⟩, hlink⟩

theorem Reached.entry (w : t.WellFormed) (h : t.Reached x l (.directory es))
    {e : Bytes × FileNode} (he : e ∈ es) : t.Reached (x ++ [e.1]) (l ++ [e.1]) e.2 := by
  rcases h with ⟨rfl, hl⟩ | h
  · exact .inl ⟨rfl, get?_of_mem w hl he⟩
  · exact .inr (h.below (List.prefix_append x _))

theorem Reached.behind {target : Path} (h : t.Reached x l (.link target)) {m : Location}
    (hm : x.Above m) : t.Linked m := by
  rcases h with ⟨rfl, hl⟩ | h
  · exact ⟨x, target, hm, hl⟩
  · exact h.below hm.1

end FileTree

/-! ## what a walk finds -/

namespace Walk

open FileTree (Named Reached)

variable {out : Location → Bool → Bool} {t : FileTree}

/-- behind a link, a file is named by its location, and what is found in a directory by the way -/
theorem passes_reached (w : t.WellFormed) : Passes t t.Reached t.Named where
  file {x l content} h := by
    refine ⟨x, rfl, ?_⟩
    rcases h with ⟨rfl, hl⟩ | h
    · exact .inr ⟨_, hl, rfl⟩
    · exact .inl h
  target {l content} h := ⟨l, rfl, .inr ⟨_, h, rfl⟩⟩
  entry h _ he := h.entry w he
  behind h _ e _ := .inr (h.behind (Location.Above.append (List.cons_ne_nil e.1 [])))

theorem named_sources (w : t.WellFormed) (i : Location) : ∀ p ∈ sources out t i, t.Named p :=
  forall_mem_sources (passes_reached w) fun _ hi => .inl ⟨rfl, hi⟩

end Walk

/-! ## what is selected -/

namespace Selector

variable {c : Selector}

/-- whatever the inputs are, no file is found twice by the same way, and all are named after it -/
theorem files_run (w : c.tree.WellFormed) (inputs : List Path) :
    (c.run inputs).files.Nodup ∧ ∀ p ∈ (c.run inputs).files, c.tree.Named p :=
  candidates_finds w (fun _ i => Walk.named_sources w i) (fun i hi => ⟨i, rfl, .inr hi⟩) inputs

theorem canonical_of_not_linked (w : c.tree.WellFormed) {x : Location} (h : c.tree.Named x.path)
    (hx : ¬ c.tree.Linked x) : c.tree.canonical x.path = .ok x.path := by
  obtain ⟨y, hy, hl⟩ := h
  obtain rfl := Location.path_inj.mp hy
  unfold FileTree.canonical
  rw [FileTree.locate_path w (hl.resolve_left hx)]
  rfl

/-- **Selected paths and real files.** No path is selected twice. A selected path is a location, and
if there is no link above that, it leads to itself; so of such paths no two lead to the same
file. -/
theorem canonical_of_mem_select (w : c.tree.WellFormed) (inputs : List Path) :
    (c.select inputs).files.Nodup ∧
      (∀ p ∈ (c.select inputs).files, ∃ x : Location, p = x.path ∧
        (¬ c.tree.Linked x → c.tree.canonical p = .ok p)) ∧
      ∀ x y : Location, x.path ∈ (c.select inputs).files → y.path ∈ (c.select inputs).files →
        ¬ c.tree.Linked x → ¬ c.tree.Linked y →
        c.tree.canonical x.path = c.tree.canonical y.path → x = y := by
  obtain ⟨nodup, named⟩ := files_run w inputs
  have kept : ∀ p ∈ (c.select inputs).files, c.tree.Named p :=
    fun p hp => named p (mem_preferStubs.mp hp).1
  refine ⟨nodup.filter _, fun p hp => ?_, fun x y hx hy hlx hly hxy => ?_⟩
  · obtain ⟨x, rfl, -⟩ := kept p hp
    exact ⟨x, rfl, canonical_of_not_linked w (kept _ hp)⟩
  · rw [canonical_of_not_linked w (kept _ hx) hlx, canonical_of_not_linked w (kept _ hy) hly] at hxy
    exact Location.path_inj.mp (Except.ok.inj hxy)

/-- a project with a link to one of its directories -/
def aliasing : Selector where
  tree := ⟨[("p", .directory [
    ("d", .link ⟨false, ["sub"]⟩),
    ("sub", .directory [("x.py", .file (.text ""))])])]⟩
  base := ⟨true, ["p"]⟩

theorem canonical_aliasing :
    aliasing.tree.WellFormed ∧ (aliasing.select ["sub", "d"]).files.Nodup ∧
      ∀ p ∈ (aliasing.select ["sub", "d"]).files, ∃ x : Location, p = x.path ∧
        (¬ aliasing.tree.Linked x → aliasing.tree.canonical p = .ok p) := by
  have w : aliasing.tree.WellFormed := by decide +kernel
  obtain ⟨nodup, canonical, -⟩ := canonical_of_mem_select w ["sub", "d"]
  exact ⟨w, nodup, canonical⟩

/-- below a link to a directory, selected paths lead elsewhere, and a file that is also reached
without the link is selected under both of its paths -/
theorem not_canonical_select :
    (¬ ∀ (c : Selector) (base : Location) (inputs : List Path), c.tree.WellFormed →
      c.BasedAt base → ∀ p ∈ (c.select inputs).files, c.tree.canonical p = .ok p) ∧
    ¬ ∀ (c : Selector) (base : Location) (inputs : List Path), c.tree.WellFormed →
      c.BasedAt base → ∀ p ∈ (c.select inputs).files, ∀ q ∈ (c.select inputs).files,
        c.tree.canonical p = c.tree.canonical q → p = q := by
  have w : aliasing.tree.WellFormed := by decide +kernel
  have hb : aliasing.BasedAt ["p"] := ⟨⟨true, ["p"]⟩, by rfl, by rfl⟩
  have files : (aliasing.select ["."]).files =
      [Location.path ["p", "d", "x.py"], Location.path ["p", "sub", "x.py"]] := by decide +kernel
  have first : Location.path ["p", "d", "x.py"] ∈ (aliasing.select ["."]).files :=
    files ▸ List.mem_cons_self
  have second : Location.path ["p", "sub", "x.py"] ∈ (aliasing.select ["."]).files :=
    files ▸ List.mem_cons_of_mem _ List.mem_cons_self
  have one : aliasing.tree.canonical (Location.path ["p", "d", "x.py"]) =
      .ok (Location.path ["p", "sub", "x.py"]) := by rfl
  have two : aliasing.tree.canonical (Location.path ["p", "sub", "x.py"]) =
      .ok (Location.path ["p", "sub", "x.py"]) := by rfl
  constructor
  · intro h
    exact absurd (one.symm.trans (h aliasing ["p"] ["."] w hb _ first)) (by decide)
  · intro h
    exact absurd (h aliasing ["p"] ["."] w hb _ first _ second (one.trans two.symm)) (by decide)

end Selector
end AnnotationAudit
