import AnnotationAudit.Proofs.Locations

/-!
# Sources and their stubs

* `Path.eq_of_cutName`       a name is what it is cut into, with a dot between;
* `Path.same_withExtension`  no file is its own stub;
* `Path.extension?_stub`     and no stub is a source;
* `mem_preferStubs`          which files are kept;
* `hasStub_iff`              which files have a stub among others.
-/

namespace AnnotationAudit

theorem Text.joinWith_concat {α : Type} (sep : α) {parts : List (List α)} (h : parts ≠ [])
    (last : List α) :
    Text.joinWith sep (parts ++ [last]) = Text.joinWith sep parts ++ sep :: last := by
  induction parts with
  | nil => exact absurd rfl h
  | cons part parts ih =>
    cases parts with
    | nil => rfl
    | cons next parts =>
      have hrest := ih (List.cons_ne_nil next parts)
      show part ++ sep :: Text.joinWith sep ((next :: parts) ++ [last]) = _
      rw [hrest]
      show _ = (part ++ sep :: Text.joinWith sep (next :: parts)) ++ sep :: last
      rw [List.append_assoc, List.cons_append]

namespace Path

open Text (dot)

/-- a name is what it is cut into, with a dot between -/
theorem eq_of_cutName {name stem extension : Bytes}
    (h : cutName name = (stem, some extension)) : name = stem ++ dot :: extension := by
  unfold cutName at h
  split at h
  · cases h
  · cases h
  · cases h
  · next last before hone _ hsplit =>
    obtain ⟨rfl, he⟩ := Prod.mk.inj h
    obtain rfl := Option.some.inj he
    have hb : before.reverse ≠ [] := fun hb => hone (List.reverse_eq_nil_iff.mp hb)
    have hparts : Text.splitOn dot name = before.reverse ++ [last] := by
      rw [← List.reverse_cons, ← hsplit, List.reverse_reverse]
    have hname := Text.joinWith_splitOn dot name
    rw [hparts, Text.joinWith_concat dot hb] at hname
    exact hname.symm

theorem withExtension_path {l : Location} {s : Bytes} (h : Location.IsNamed (l ++ [s]))
    (extension : Bytes) : (Location.path (l ++ [s])).withExtension extension =
      (l ++ [(cutName s).1 ++ dot :: extension]).path := by
  unfold withExtension Location.path
  dsimp only
  rw [Location.trimBack_eq h, List.reverse_append, List.reverse_singleton, List.singleton_append]
  dsimp only
  rw [List.reverse_reverse]

theorem components_snoc {l : Location} (h : l.IsNamed) (s : Bytes) :
    (Location.path (l ++ [s])).components = .root :: (l.map .name ++ (stepOf? s).toList) := by
  show Component.root :: (l ++ [s]).filterMap stepOf? = _
  rw [List.filterMap_append, Location.filterMap_stepOf? h]
  cases hs : stepOf? s with
  | none => rw [List.filterMap_cons_none hs]; rfl
  | some step => rw [List.filterMap_cons_some hs]; rfl

/-- no file is the stub of its own -/
theorem same_withExtension {l : Location} {s : Bytes} (h : Location.IsNamed (l ++ [s]))
    (hx : (Location.path (l ++ [s])).extension? = some (bytesOf "py")) :
    ((Location.path (l ++ [s])).withExtension "pyi").same (Location.path (l ++ [s])) = false := by
  have hl := (Location.isNamed_append.mp h).1
  have hstep := (h s (List.mem_append_right l List.mem_cons_self)).step
  unfold extension? at hx
  rw [Location.fileName?_path h, Option.bind_some] at hx
  have hname : s = (cutName s).1 ++ dot :: bytesOf "py" := eq_of_cutName (Prod.ext rfl hx)
  rw [withExtension_path h, Bool.eq_false_iff]
  unfold same
  rw [components_snoc hl, components_snoc hl, hstep]
  intro heq
  have hcut := List.append_cancel_left (List.cons.inj (eq_of_beq heq)).2
  rw [Option.toList_some, Option.toList_eq_singleton_iff] at hcut
  have hlen := congrArg List.length ((eq_of_stepOf? hcut).trans hname)
  rw [List.length_append, List.length_append] at hlen
  exact absurd (Nat.add_left_cancel hlen) (by decide)

theorem stepOf?_dotted (x extension : Bytes) (h : 1 < extension.length) :
    stepOf? (x ++ dot :: extension) = some (.name (x ++ dot :: extension)) := by
  have hlen : (x ++ dot :: extension).length = x.length + (extension.length + 1) := by
    rw [List.length_append, List.length_cons]
  have hne {s : Bytes} (hs : s.length ≤ 2) : x ++ dot :: extension ≠ s := by
    rintro rfl
    omega
  unfold stepOf?
  rw [if_neg (not_or.mpr ⟨hne (by decide), hne (by decide)⟩), if_neg (hne (by decide))]

/-- a path that takes the same steps as a path with an extension is that path -/
theorem eq_of_same_dotted {l m : Location} (hl : l.IsNamed) (hm : m.IsNamed) {x extension : Bytes}
    (h : 1 < extension.length)
    (hsame : (Location.path (l ++ [x ++ dot :: extension])).same m.path = true) :
    m = l ++ [x ++ dot :: extension] := by
  unfold same at hsame
  rw [components_snoc hl, stepOf?_dotted x extension h, Location.components_path hm] at hsame
  have hmap := (List.cons.inj (eq_of_beq hsame)).2
  rw [Option.toList_some, ← List.map_singleton, ← List.map_append] at hmap
  exact (List.map_injective_iff.mpr fun _ _ => Component.name.inj) hmap.symm

/-- a stub is no source -/
theorem extension?_stub {l : Location} {x : Bytes}
    (h : Location.IsNamed (l ++ [x ++ dot :: bytesOf "pyi"])) :
    (Location.path (l ++ [x ++ dot :: bytesOf "pyi"])).extension? ≠ some (bytesOf "py") := by
  intro hx
  unfold extension? at hx
  rw [Location.fileName?_path h, Option.bind_some] at hx
  have hlast := congrArg List.getLast? (eq_of_cutName (Prod.ext rfl hx))
  have last (y : Bytes) {bs : Bytes} {b : UInt8} (h : bs.getLast? = some b) :
      (y ++ bs).getLast? = some b := by
    rw [List.getLast?_append, h, Option.some_or]
  rw [last x (b := 105) rfl, last _ (b := 121) rfl] at hlast
  exact absurd hlast (by decide)

end Path

/-! ## files that are kept -/

open Text (dot)

theorem mem_preferStubs {files : List Path} {p : Path} :
    p ∈ preferStubs files ↔ p ∈ files ∧ hasStub files p = false := by
  unfold preferStubs
  rw [List.mem_filter, Bool.not_eq_true']

/-- whether a file has a stub depends on which files there are, not on their order -/
theorem hasStub_congr {files others : List Path} (h : ∀ p, p ∈ files ↔ p ∈ others) (p : Path) :
    hasStub files p = hasStub others p := by
  unfold hasStub
  rw [Bool.eq_iff_iff]
  simp only [Bool.and_eq_true, List.any_eq_true, h]

/-- a file has a stub if it is a source, and the stub beside it is among the files -/
theorem hasStub_iff {files : List Path} (hf : ∀ p ∈ files, ∃ m : Location, m.IsNamed ∧ p = m.path)
    {m : Location} (hm : m.IsNamed) :
    hasStub files m.path = true ↔ m.path.extension? = some (bytesOf "py") ∧
      ∃ (l : Location) (x : Bytes), m = l ++ [x ++ dot :: bytesOf "py"] ∧
        Location.path (l ++ [x ++ dot :: bytesOf "pyi"]) ∈ files := by
  unfold hasStub
  rw [Bool.and_eq_true, beq_iff_eq, List.any_eq_true]
  refine and_congr_right fun hx => ?_
  obtain ⟨l, s, rfl⟩ : ∃ (l : Location) (s : Bytes), m = l ++ [s] := by
    rcases List.eq_nil_or_concat m with rfl | ⟨l, s, rfl⟩
    · cases hx
    · exact ⟨l, s, List.concat_eq_append⟩
  have hl := (Location.isNamed_append.mp hm).1
  rw [Path.withExtension_path hm]
  unfold Path.extension? at hx
  rw [Location.fileName?_path hm, Option.bind_some] at hx
  have hname : s = (Path.cutName s).1 ++ dot :: bytesOf "py" := Path.eq_of_cutName (Prod.ext rfl hx)
  constructor
  · rintro ⟨q, hq, hsame⟩
    obtain ⟨k, hk, rfl⟩ := hf q hq
    obtain rfl := Path.eq_of_same_dotted hl hk (by decide) hsame
    exact ⟨l, (Path.cutName s).1, congrArg (l ++ [·]) hname, hq⟩
  · rintro ⟨k, x, hkx, hq⟩
    obtain ⟨rfl, hs⟩ := List.append_inj' hkx rfl
    have hstem : (Path.cutName s).1 = x := by
      have heq := hname.symm.trans (List.singleton_inj.mp hs)
      exact List.append_cancel_right heq
    refine ⟨_, hq, ?_⟩
    rw [hstem]
    exact beq_self_eq_true _

theorem preferStubs_singleton {l : Location} (h : l.IsNamed) : preferStubs [l.path] = [l.path] := by
  have kept : hasStub [l.path] l.path = false := by
    unfold hasStub
    rw [List.any_cons, List.any_nil, Bool.or_false]
    rcases List.eq_nil_or_concat l with rfl | ⟨m, s, rfl⟩
    · rfl
    · rw [List.concat_eq_append] at h ⊢
      cases hx : (Location.path (m ++ [s])).extension? == some (bytesOf "py") with
      | false => rfl
      | true => exact Path.same_withExtension h (eq_of_beq hx)
  unfold preferStubs
  rw [List.filter_cons, kept]
  rfl

end AnnotationAudit
