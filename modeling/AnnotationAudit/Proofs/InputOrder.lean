import AnnotationAudit.Proofs.Selecting
import AnnotationAudit.Proofs.Stubs

/-!
# The order of inputs

* `Selector.mem_select_congr`  what is selected depends on which inputs are given, not on how often;
* `Selector.mem_select_perm`  the order of the inputs does not decide what is selected, in any tree,
                              if none leads outside of the base to a directory above another one;
* `Selector.not_select_perm`  if one does, the order can decide.

A walk outside of the base reads ignore files that hold from then on, while a file there that is
given before is looked at without them.
-/

namespace AnnotationAudit
namespace Selector

variable {c : Selector} {base : Location} {inputs others : List Path}

theorem mem_candidates_congr (w : c.tree.WellFormed) (hb : c.BasedAt base)
    (ha : c.Apart base inputs) (h : ∀ input, input ∈ inputs ↔ input ∈ others) (q : Path) :
    q ∈ c.candidates inputs ↔ q ∈ c.candidates others := by
  rw [mem_candidates w hb ha, mem_candidates w hb (ha.congr h)]
  simp only [h]

theorem mem_select_congr (w : c.tree.WellFormed) (hb : c.BasedAt base)
    (ha : c.Apart base inputs) (h : ∀ input, input ∈ inputs ↔ input ∈ others) (q : Path) :
    q ∈ (c.select inputs).files ↔ q ∈ (c.select others).files := by
  have same := mem_candidates_congr w hb ha h
  show q ∈ preferStubs (c.candidates inputs) ↔ q ∈ preferStubs (c.candidates others)
  rw [mem_preferStubs, mem_preferStubs, same q, hasStub_congr same q]

/-- **The order of inputs does not decide what is selected**, in any tree, if ignore files are not
read or no input leads outside of the base to a directory above what another one leads to. -/
theorem mem_select_perm (w : c.tree.WellFormed) (hb : c.BasedAt base)
    (ha : c.Apart base inputs) (hp : inputs.Perm others) (q : Path) :
    q ∈ (c.select inputs).files ↔ q ∈ (c.select others).files :=
  mem_select_congr w hb ha (fun _ => hp.mem_iff) q

/-- a project with a link to a directory outside of it -/
def linking : Selector where
  tree := ⟨[
    ("out", .directory [
      (".gitignore", .file (.text "f.py\n")),
      ("f.py", .file (.text "")),
      ("g.py", .file (.text ""))]),
    ("p", .directory [
      ("a.py", .file (.text "")),
      ("dir", .link ⟨false, ["..", "out"]⟩)])]⟩
  base := ⟨true, ["p"]⟩

theorem linking_select_perm :
    linking.tree.WellFormed ∧ linking.BasedAt ["p"] ∧ linking.Apart ["p"] [".", "dir"] ∧
      ([".", "dir"] : List Path).Perm ["dir", "."] ∧
      Location.path ["out", "g.py"] ∈ (linking.select ["dir", "."]).files ∧
      ∀ q, q ∈ (linking.select [".", "dir"]).files ↔ q ∈ (linking.select ["dir", "."]).files := by
  have w : linking.tree.WellFormed := by decide +kernel
  have hb : linking.BasedAt ["p"] := ⟨⟨true, ["p"]⟩, by rfl, by rfl⟩
  have ha : linking.Apart ["p"] [".", "dir"] := by
    refine .of_locations [["p"], ["out"]] (List.forall_mem_cons.mpr ⟨?_, ?_⟩) (by decide)
    · exact ⟨["p"], by decide, by rfl⟩
    · exact List.forall_mem_singleton.mpr ⟨["out"], by decide, by rfl⟩
  have hp : ([".", "dir"] : List Path).Perm ["dir", "."] := by decide
  exact ⟨w, hb, ha, hp, by decide +kernel, mem_select_perm w hb ha hp⟩

/-- a project beside a directory that ignores one of its files -/
def besides : Selector where
  tree := ⟨[
    ("out", .directory [
      (".gitignore", .file (.text "f.py\n")),
      ("f.py", .file (.text ""))]),
    ("p", .directory [])]⟩
  base := ⟨true, ["p"]⟩

/-- outside of the base, the order of inputs decides what is selected, even without links: a file
that is ignored is selected if it is given before its directory, and not behind it -/
theorem not_select_perm : ¬ ∀ (c : Selector) (base : Location) (inputs others : List Path),
    c.tree.WellFormed → c.tree.LinkFree → c.BasedAt base → inputs.Perm others →
      ∀ q, q ∈ (c.select inputs).files ↔ q ∈ (c.select others).files := by
  intro h
  have first : Location.path ["out", "f.py"] ∈
      (besides.select ["../out/f.py", "../out"]).files := by decide +kernel
  have behind : Location.path ["out", "f.py"] ∉
      (besides.select ["../out", "../out/f.py"]).files := by decide +kernel
  exact behind ((h besides ["p"] ["../out/f.py", "../out"] ["../out", "../out/f.py"]
    (by decide +kernel) (by decide +kernel) ⟨⟨true, ["p"]⟩, by rfl, by rfl⟩ (by decide) _).mp first)

end Selector
end AnnotationAudit
