import AnnotationAudit.Proofs.Contents
import AnnotationAudit.Proofs.Narrowing

/-!
# An ignore file acts below its directory

Other contents below a directory change what is found there, and with that which further ignore
files are read. All that stays below the directory: two runs over trees without links that differ
below it only find the same files beside it, in the same order.

* `Selector.Sound`           what holds of every state of a selection;
* `SelectionState.SameBeside`  two states that agree on all beside a directory;
* `Selector.Stays`           steps that change nothing beside it;
* `Selector.walkWith_stays`  a walk below the directory is such a step;
* `Selector.Twins`           states of two runs that agree on all beside it;
* `Selector.walkWith_twins`  walks beside the directory keep them;
* `Selector.select_beside`   what is selected beside the directory of an ignore file.
-/

namespace AnnotationAudit

open FileNode (Every IsOrdered)

/-! ## beside a directory -/

/-- is a path not below a directory? -/
def Location.beside (D : Location) (p : Path) : Bool := !D.Above p.segments

/-- two states agree on all beside a directory: on the directories that have been looked into, and
on the files and their order -/
structure SelectionState.SameBeside (D : Location) (s t : SelectionState) : Prop where
  loaded : ∀ q : Path, ¬ D.path.components <+: q.components → (q ∈ s.loaded ↔ q ∈ t.loaded)
  files : s.files.filter D.beside = t.files.filter D.beside

namespace SelectionState.SameBeside

variable {D : Location} {s t u : SelectionState}

theorem of_eq (hl : t.loaded = s.loaded) (hf : t.files = s.files) : SameBeside D s t :=
  ⟨fun q _ => by rw [hl], by rw [hf]⟩

theorem symm (h : SameBeside D s t) : SameBeside D t s :=
  ⟨fun q hq => (h.loaded q hq).symm, h.files.symm⟩

theorem trans (h : SameBeside D s t) (h' : SameBeside D t u) : SameBeside D s u :=
  ⟨fun q hq => (h.loaded q hq).trans (h'.loaded q hq), h.files.trans h'.files⟩

theorem find_below {p : Path} (hp : D.Above p.segments) : SameBeside D s (s.find p) := by
  refine ⟨fun q _ => by rw [loaded_find], ?_⟩
  have unseen : [p].filter D.beside = [] :=
    List.filter_eq_nil_iff.mpr (by simp [Location.beside, hp])
  rw [files_find, filter_addNew, unseen, addNew_nil]

theorem find (h : SameBeside D s t) (p : Path) : SameBeside D (s.find p) (t.find p) := by
  refine ⟨fun q hq => ?_, ?_⟩
  · rw [loaded_find, loaded_find]
    exact h.loaded q hq
  · rw [files_find, files_find, filter_addNew, filter_addNew, h.files]

end SelectionState.SameBeside

open SelectionState (SameBeside)

namespace Selector

variable {c : Selector} {D : Location} {s t u : SelectionState}

/-! ## one run -/

/-- a state of a selection: it has read the ignore files of paths that take a step at least -/
structure Sound (c : Selector) (s : SelectionState) : Prop where
  read : c.HasRead s
  steps : ∀ q ∈ s.loaded, q.components ≠ []

namespace Sound

theorem of_eq (h : c.Sound s) (hx : t.isExcluded = s.isExcluded) (hl : t.loaded = s.loaded) :
    c.Sound t := ⟨h.read.of_eq hx hl, hl ▸ h.steps⟩

theorem load (h : c.Sound s) {p : Path} (hp : p.components ≠ []) : c.Sound (c.load s p) := by
  refine ⟨h.read.load p, fun q hq => ?_⟩
  rcases mem_loaded_load.mp hq with hq | rfl
  · exact h.steps q hq
  · exact hp

theorem find (h : c.Sound s) (p : Path) : c.Sound (s.find p) :=
  h.of_eq (s.isExcluded_find p) (s.loaded_find p)

end Sound

/-- a step changes nothing beside a directory -/
def Stays (c : Selector) (D : Location) (s t : SelectionState) : Prop :=
  c.Sound s → c.Sound t ∧ SameBeside D s t

namespace Stays

theorem of_eq (hx : t.isExcluded = s.isExcluded) (hl : t.loaded = s.loaded)
    (hf : t.files = s.files) : c.Stays D s t := fun h => ⟨h.of_eq hx hl, .of_eq hl hf⟩

theorem trans (h : c.Stays D s t) (h' : c.Stays D t u) : c.Stays D s u := fun hs =>
  ⟨(h' (h hs).1).1, (h hs).2.trans (h' (h hs).1).2⟩

theorem find {p : Path} (hp : D.Above p.segments) : c.Stays D s (s.find p) := fun h =>
  ⟨h.find p, .find_below hp⟩

theorem load {x : Location} (hx : x.IsNamed) (hD : D <+: x) : c.Stays D s (c.load s x.path) := by
  have hsteps : D.path.components <+: x.path.components := by
    rw [Location.components_path (hx.mono hD), Location.components_path hx]
    exact List.cons_prefix_cons.mpr ⟨rfl, hD.map _⟩
  refine fun h => ⟨h.load x.components_ne_nil, fun q hq => ?_, by rw [files_load]⟩
  rw [mem_loaded_load]
  constructor
  · exact .inl
  · rintro (hs | rfl)
    · exact hs
    · exact absurd hsteps hq

theorem loadIf {x : Location} (hx : x.IsNamed) (hD : D <+: x) :
    c.Stays D s (if c.useIgnoreFiles then c.load s x.path else s) := by
  split
  · exact .load hx hD
  · exact .of_eq rfl rfl rfl

end Stays

theorem visitFile_stays (p : Path) {target : Path} (ht : D.Above target.segments) :
    c.Stays D s (c.visitFile s p target) := by
  unfold visitFile
  split
  · exact .of_eq rfl rfl rfl
  · split
    · exact .of_eq rfl rfl rfl
    · exact .find ht

theorem visitDirectory_stays {x : Location} (hx : x.IsNamed) (hD : D <+: x)
    {enter : SelectionState → SelectionState} (he : ∀ u, c.Stays D u (enter u)) :
    c.Stays D s (c.visitDirectory s x.path enter) := by
  unfold visitDirectory
  split
  · exact .of_eq rfl rfl rfl
  · exact (Stays.loadIf hx hD).trans (he _)

variable {jump : SelectionState → List Ancestor → Path → SelectionState}

mutual

theorem visitNode_stays {x : Location} (hx : x.IsNamed) (hD : D.Above x) (s : SelectionState)
    (as : List Ancestor) (l : Location) : ∀ n : FileNode, n.Every IsOrdered →
      n.Every (fun n => n.isLink = false) → c.Stays D s (c.visitNode jump s as x.path l n)
  | .file _, _, _ => visitFile_stays x.path hD
  | .directory es, .directory ordered nodes, .directory _ plain =>
    visitDirectory_stays hx hD.1 fun u =>
      walkWith_stays hx hD.1 u _ l es (fun e he => ⟨ordered.2 e he, nodes e he⟩) plain
  | .link _, _, .link plain => by cases plain

/-- a walk below a directory changes nothing beside it -/
theorem walkWith_stays {here : Location} (hh : here.IsNamed) (hD : D <+: here)
    (s : SelectionState) (as : List Ancestor) (l : Location) :
    ∀ es : List (Bytes × FileNode), (∀ e ∈ es, IsFileName e.1 ∧ e.2.Every IsOrdered) →
      (∀ e ∈ es, e.2.Every fun n => n.isLink = false) →
      c.Stays D s (c.walkWith jump s as here.path l es)
  | [], _, _ => .of_eq rfl rfl rfl
  | e :: es, hes, plain => by
    obtain ⟨he, hes⟩ := List.forall_mem_cons.mp hes
    obtain ⟨pe, plain⟩ := List.forall_mem_cons.mp plain
    exact (visitEntry_stays hh hD s as l e he.1 he.2 pe).trans
      (walkWith_stays hh hD _ as l es hes plain)

theorem visitEntry_stays {here : Location} (hh : here.IsNamed) (hD : D <+: here)
    (s : SelectionState) (as : List Ancestor) (l : Location) :
    ∀ e : Bytes × FileNode, IsFileName e.1 → e.2.Every IsOrdered →
      e.2.Every (fun n => n.isLink = false) →
      c.Stays D s (c.visitEntry jump s as here.path l e)
  | (name, n), hname, hn, plain => by
    have hnode := visitNode_stays (hh.snoc hname) (Location.above_snoc.mpr hD) s as
      (l ++ [name]) n hn plain
    rw [← Location.child_path hh] at hnode
    exact hnode

end

theorem walk_stays (w : c.tree.WellFormed) (plain : c.tree.LinkFree) {i : Location}
    (hi : i.IsNamed) (hD : D <+: i) (s : SelectionState) : c.Stays D s (c.walk s i) := by
  unfold walk
  split
  · next es hes =>
    obtain ⟨ordered, nodes⟩ := Every.directory_iff.mp (w.get? hes)
    obtain ⟨-, links⟩ := Every.directory_iff.mp (plain.get? hes)
    exact (Stays.loadIf hi hD).trans
      (walkWith_stays hi hD _ _ i es (fun e he => ⟨ordered.2 e he, nodes e he⟩) links)
  · exact .of_eq rfl rfl rfl

/-! ## two runs -/

variable {f : Location → FileContent → FileContent}

/-- in a tree without links, other contents stand below a directory only -/
structure RewritesBelow (c : Selector) (f : Location → FileContent → FileContent)
    (D : Location) : Prop where
  named : D.IsNamed
  plain : c.tree.LinkFree
  same : ∀ l content, ¬ D.Above l → f l content = content

/-- the ignore file of a directory has a say about what is below the directory -/
theorem exists_above_of_ignoreList {q : Path} (hq : q.components ≠ []) {x : Location}
    (hx : x.IsNamed) {isDirectory : Bool}
    (h : (c.ignoreList q).ignores x.path isDirectory = true) :
    ∃ k : Location, k.Above x ∧ q.components = k.path.components := by
  have hd := c.directory_ignoreList q
  obtain ⟨k, hkx, hk⟩ := IgnoreList.exists_above_of_ignores (hd.symm ▸ hq) hx h
  exact ⟨k, hkx, hd ▸ hk⟩

/-- an ignore file that says something else is below the directory, and says nothing beside it -/
theorem RewritesBelow.ignores (r : c.RewritesBelow f D) {q : Path} (hq : q.components ≠ [])
    {x : Location} (hx : x.IsNamed) (hD : ¬ D.Above x) (isDirectory : Bool) :
    ((c.rewrite f).ignoreList q).ignores x.path isDirectory =
      (c.ignoreList q).ignores x.path isDirectory := by
  by_cases above : ∃ k : Location, k.Above x ∧ q.components = k.path.components
  · -- then the directory is not below `D`, and its ignore file says what it said
    obtain ⟨k, hkx, hk⟩ := above
    have same : (c.rewrite f).ignoreList q = c.ignoreList q := by
      refine ignoreList_rewrite fun l content hl _ => r.same l content fun hDl => ?_
      rw [FileTree.locate_child r.plain (hx.mono hkx.1) hk (by decide +kernel) hl,
        Location.above_snoc] at hDl
      exact hD (hkx.mono hDl)
    rw [same]
  · have silent (e : Selector) : (e.ignoreList q).ignores x.path isDirectory = false :=
      Bool.eq_false_iff.mpr fun h => above (exists_above_of_ignoreList hq hx h)
    rw [silent, silent]

/-- what has a say about a path beside `D` is not the ignore file of a directory below it -/
theorem not_below_of_ignores (hDn : D.IsNamed) {q : Path} (hq : q.components ≠ []) {x : Location}
    (hx : x.IsNamed) (hD : ¬ D.Above x) {isDirectory : Bool}
    (h : (c.ignoreList q).ignores x.path isDirectory = true) :
    ¬ D.path.components <+: q.components := by
  obtain ⟨k, hkx, hk⟩ := exists_above_of_ignoreList hq hx h
  rw [Location.components_path (hx.mono hkx.1)] at hk
  rw [hk, Location.components_path hDn, List.cons_prefix_cons]
  rintro ⟨-, hDk⟩
  have hDk := (List.prefix_map_iff_of_injective fun _ _ => Path.Component.name.inj).mp hDk
  exact hD (hkx.mono hDk)

/-- states of two runs that agree on all beside a directory -/
structure Twins (c : Selector) (f : Location → FileContent → FileContent) (D : Location)
    (s t : SelectionState) : Prop where
  left : c.Sound s
  right : (c.rewrite f).Sound t
  same : SameBeside D s t

namespace Twins

variable {s' t' : SelectionState}

theorem stays (h : c.Twins f D s t) (hs : c.Stays D s s') (ht : (c.rewrite f).Stays D t t') :
    c.Twins f D s' t' :=
  ⟨(hs h.left).1, (ht h.right).1, ((hs h.left).2.symm.trans h.same).trans (ht h.right).2⟩

theorem of_eq (h : c.Twins f D s t) (hx : s'.isExcluded = s.isExcluded)
    (hl : s'.loaded = s.loaded) (hf : s'.files = s.files) (hx' : t'.isExcluded = t.isExcluded)
    (hl' : t'.loaded = t.loaded) (hf' : t'.files = t.files) : c.Twins f D s' t' :=
  h.stays (.of_eq hx hl hf) (.of_eq hx' hl' hf')

theorem find (h : c.Twins f D s t) (p : Path) : c.Twins f D (s.find p) (t.find p) :=
  ⟨h.left.find p, h.right.find p, h.same.find p⟩

theorem load (h : c.Twins f D s t) {p : Path} (hp : p.components ≠ []) :
    c.Twins f D (c.load s p) ((c.rewrite f).load t p) := by
  refine ⟨h.left.load hp, h.right.load hp, fun q hq => ?_, ?_⟩
  · rw [mem_loaded_load, mem_loaded_load, h.same.loaded q hq]
  · rw [files_load, files_load]
    exact h.same.files

theorem loadIf (h : c.Twins f D s t) {p : Path} (hp : p.components ≠ []) :
    c.Twins f D (if c.useIgnoreFiles then c.load s p else s)
      (if (c.rewrite f).useIgnoreFiles then (c.rewrite f).load t p else t) := by
  show c.Twins f D _ (if c.useIgnoreFiles then _ else t)
  split
  · exact h.load hp
  · exact h

theorem isExcluded (h : c.Twins f D s t) (r : c.RewritesBelow f D) {x : Location} (hx : x.IsNamed)
    (hD : ¬ D.Above x) (isDirectory : Bool) :
    t.isExcluded x.path isDirectory = s.isExcluded x.path isDirectory := by
  rw [Bool.eq_iff_iff, h.right.read.isExcluded_iff, h.left.read.isExcluded_iff]
  -- the ignore files that have a say are those of directories that both runs have looked into
  refine or_congr_right ⟨?_, ?_⟩
  · rintro ⟨q, hq, hi⟩
    have hsteps := h.right.steps q hq
    rw [r.ignores hsteps hx hD] at hi
    have beside := not_below_of_ignores r.named hsteps hx hD hi
    exact ⟨q, (h.same.loaded q beside).mpr hq, hi⟩
  · rintro ⟨q, hq, hi⟩
    have hsteps := h.left.steps q hq
    have beside := not_below_of_ignores r.named hsteps hx hD hi
    refine ⟨q, (h.same.loaded q beside).mp hq, ?_⟩
    rw [r.ignores hsteps hx hD]
    exact hi

end Twins

theorem visitFile_twins (h : c.Twins f D s t) (r : c.RewritesBelow f D) {x : Location}
    (hx : x.IsNamed) :
    c.Twins f D (c.visitFile s x.path x.path) ((c.rewrite f).visitFile t x.path x.path) := by
  by_cases hD : D.Above x
  · exact h.stays (visitFile_stays x.path hD) (visitFile_stays x.path hD)
  · unfold visitFile
    rw [h.isExcluded r hx hD]
    split
    · exact h
    · split
      · exact h.of_eq rfl rfl rfl rfl rfl rfl
      · exact h.find x.path

theorem visitDirectory_twins (h : c.Twins f D s t) (r : c.RewritesBelow f D) {x : Location}
    (hx : x.IsNamed) (hD : ¬ D.Above x) {enter enter' : SelectionState → SelectionState}
    (he : ∀ u v, c.Twins f D u v → c.Twins f D (enter u) (enter' v)) :
    c.Twins f D (c.visitDirectory s x.path enter)
      ((c.rewrite f).visitDirectory t x.path enter') := by
  unfold visitDirectory
  rw [h.isExcluded r hx hD]
  split
  · exact h.of_eq rfl rfl rfl rfl rfl rfl
  · exact he _ _ (h.loadIf x.components_ne_nil)

variable {jump' : SelectionState → List Ancestor → Path → SelectionState}

mutual

/-- what is below the directory changes nothing beside it in either run, and all else is done by
both -/
theorem visitNode_twins (r : c.RewritesBelow f D) {x : Location} (hx : x.IsNamed)
    (as : List Ancestor) (l : Location) : ∀ n : FileNode, n.Every IsOrdered →
      n.Every (fun n => n.isLink = false) → ∀ s t, c.Twins f D s t →
      c.Twins f D (c.visitNode jump s as x.path l n)
        ((c.rewrite f).visitNode jump' t as x.path l (n.rewrite f l))
  | .file _, _, _ => fun _ _ h => visitFile_twins h r hx
  | .directory es, .directory ordered nodes, .directory link plain => fun s t h => by
    by_cases hD : D.Above x
    · have hn : (FileNode.directory es).Every IsOrdered := .directory ordered nodes
      have hp : (FileNode.directory es).Every (fun n => n.isLink = false) := .directory link plain
      exact h.stays (visitNode_stays hx hD s as l _ hn hp)
        (visitNode_stays hx hD t as l _ (hn.rewrite fun _ _ => FileNode.isOrdered_rewrite)
          (hp.rewrite fun n _ h => n.isLink_rewrite.trans h))
    · exact visitDirectory_twins h r hx hD fun u v huv =>
        walkWith_twins r hx _ l es (fun e he => ⟨ordered.2 e he, nodes e he⟩) plain u v huv
  | .link _, _, .link plain => by cases plain

theorem walkWith_twins (r : c.RewritesBelow f D) {here : Location} (hh : here.IsNamed)
    (as : List Ancestor) (l : Location) :
    ∀ es : List (Bytes × FileNode), (∀ e ∈ es, IsFileName e.1 ∧ e.2.Every IsOrdered) →
      (∀ e ∈ es, e.2.Every fun n => n.isLink = false) → ∀ s t, c.Twins f D s t →
      c.Twins f D (c.walkWith jump s as here.path l es)
        ((c.rewrite f).walkWith jump' t as here.path l (FileNode.rewriteIn f l es))
  | [], _, _ => fun _ _ h => h
  | e :: es, hes, plain => fun s t h => by
    obtain ⟨he, hes⟩ := List.forall_mem_cons.mp hes
    obtain ⟨pe, plain⟩ := List.forall_mem_cons.mp plain
    exact walkWith_twins r hh as l es hes plain _ _
      (visitEntry_twins r hh as l e he.1 he.2 pe s t h)

theorem visitEntry_twins (r : c.RewritesBelow f D) {here : Location} (hh : here.IsNamed)
    (as : List Ancestor) (l : Location) :
    ∀ e : Bytes × FileNode, IsFileName e.1 → e.2.Every IsOrdered →
      e.2.Every (fun n => n.isLink = false) → ∀ s t, c.Twins f D s t →
      c.Twins f D (c.visitEntry jump s as here.path l e)
        ((c.rewrite f).visitEntry jump' t as here.path l (FileNode.rewriteOf f l e))
  | (name, n), hname, hn, plain => fun s t h => by
    have hnode := visitNode_twins r (hh.snoc hname) as (l ++ [name]) n hn plain s t h
    rw [← Location.child_path hh] at hnode
    exact hnode

end

theorem walk_twins (r : c.RewritesBelow f D) (w : c.tree.WellFormed) {i : Location}
    (hi : i.IsNamed) (h : c.Twins f D s t) :
    c.Twins f D (c.walk s i) ((c.rewrite f).walk t i) := by
  unfold walk
  rw [tree_rewrite, FileTree.get?_rewrite]
  cases hn : c.tree.get? i with
  | none => exact h
  | some n =>
    cases n with
    | file => exact h
    | link => exact h
    | directory es =>
      obtain ⟨ordered, nodes⟩ := Every.directory_iff.mp (w.get? hn)
      obtain ⟨-, links⟩ := Every.directory_iff.mp (r.plain.get? hn)
      exact walkWith_twins r hi _ i es (fun e he => ⟨ordered.2 e he, nodes e he⟩) links _ _
        (h.loadIf i.components_ne_nil)

/-! ## inputs -/

theorem loadBelow_twins (h : c.Twins f D s t) {p : Path} (hp : p.rooted = true)
    (names : List Bytes) :
    c.Twins f D (c.loadBelow s p names) ((c.rewrite f).loadBelow t p names) := by
  induction names generalizing s t p with
  | nil => exact h
  | cons name names ih =>
    have hchild : (p.child name).rooted = true := (p.rooted_child name).trans hp
    refine ih (h.load ?_) hchild
    rw [Path.components_of_rooted hchild]
    exact List.cons_ne_nil _ _

theorem looking_twins (h : c.Twins f D s t) (hb : c.base.components ≠ []) (i : Location) :
    c.Twins f D (c.looking s i.path) ((c.rewrite f).looking t i.path) := by
  unfold looking
  show c.Twins f D (if c.useIgnoreFiles then _ else _) (if c.useIgnoreFiles then _ else _)
  split
  · unfold loadAbove
    rw [base_rewrite]
    cases hrest : i.path.relativeTo? c.base with
    | none => exact h
    | some rest =>
      have below : c.base.components <+: i.path.components := by
        by_contra hn
        rw [Path.relativeTo?_of_not_prefix hb hn] at hrest
        cases hrest
      rw [Path.components_of_rooted (p := i.path) rfl] at below
      obtain hnil | ⟨steps, hsteps, -⟩ := List.prefix_cons_iff.mp below
      · exact absurd hnil hb
      · exact loadBelow_twins h (Path.rooted_of_components hsteps) _
  · exact h

/-- an input that leads below a directory changes nothing beside it, once the ignore files on the
way have been read -/
theorem selectInput_stays (w : c.tree.WellFormed) (plain : c.tree.LinkFree) {input : Path}
    {i : Location} (hl : c.tree.locate (c.base.join input) = .ok i) (hD : D.Above i) :
    c.Stays D (c.looking s i.path) (c.selectInput s input) := by
  have hi := (FileTree.stands_of_locate hl).isNamed w
  rw [selectInput_of_leadsTo hl]
  split
  · exact .of_eq rfl rfl rfl
  · split
    · exact walk_stays w plain hi hD.1 _
    · exact .find hD

/-- an input keeps the two runs alike, whether it leads below the directory or not -/
theorem selectInput_twins (r : c.RewritesBelow f D) (w : c.tree.WellFormed)
    (hb : c.base.components ≠ []) (h : c.Twins f D s t) (input : Path) :
    c.Twins f D (c.selectInput s input) ((c.rewrite f).selectInput t input) := by
  have same : (c.rewrite f).tree.locate ((c.rewrite f).base.join input) =
      c.tree.locate (c.base.join input) := FileTree.locate_rewrite _
  cases hl : c.tree.locate (c.base.join input) with
  | error e =>
    rw [selectInput_of_error hl, selectInput_of_error (same.trans hl)]
    exact h.of_eq rfl rfl rfl rfl rfl rfl
  | ok i =>
    have hi := (FileTree.stands_of_locate hl).isNamed w
    have hlook := looking_twins h hb i
    by_cases hD : D.Above i
    · exact hlook.stays (selectInput_stays w r.plain hl hD)
        (selectInput_stays w.rewrite r.plain.rewrite (same.trans hl) hD)
    · rw [selectInput_of_leadsTo hl, selectInput_of_leadsTo (same.trans hl), tree_rewrite,
        FileTree.isDirectory_rewrite, hlook.isExcluded r hi hD]
      split
      · exact hlook.of_eq rfl rfl rfl rfl rfl rfl
      · split
        · exact walk_twins r w hi hlook
        · exact hlook.find i.path

theorem run_twins (r : c.RewritesBelow f D) (w : c.tree.WellFormed) (hb : c.base.components ≠ [])
    (inputs : List Path) : c.Twins f D (c.run inputs) ((c.rewrite f).run inputs) := by
  have begun (e : Selector) (he : e.base.components ≠ []) : e.Sound e.start :=
    ⟨e.hasRead_start, fun q hq => (e.mem_loaded_start.mp hq).2 ▸ he⟩
  have start : c.Twins f D c.start (c.rewrite f).start := by
    refine ⟨begun c hb, begun (c.rewrite f) hb, fun q _ => ?_, ?_⟩
    · rw [mem_loaded_start, mem_loaded_start]
      rfl
    · rw [files_start, files_start]
  unfold run
  generalize c.start = s at start ⊢
  generalize (c.rewrite f).start = t at start ⊢
  induction inputs generalizing s t with
  | nil => exact start
  | cons input inputs ih => exact ih _ _ (selectInput_twins r w hb start input)

end Selector

/-! ## stubs -/

/-- a source and its stub are both below a directory, or both beside it -/
theorem filter_preferStubs {D : Location} {files others : List Path}
    (hf : ∀ p ∈ files, ∃ m : Location, m.IsNamed ∧ p = m.path)
    (ho : ∀ p ∈ others, ∃ m : Location, m.IsNamed ∧ p = m.path)
    (h : files.filter D.beside = others.filter D.beside) :
    (preferStubs files).filter D.beside = (preferStubs others).filter D.beside := by
  have mem {p : Path} (hp : D.beside p = true) : p ∈ files ↔ p ∈ others := by
    have seen (xs : List Path) : p ∈ xs ↔ p ∈ xs.filter D.beside := by
      rw [List.mem_filter, and_iff_left hp]
    rw [seen files, seen others, h]
  have same : ∀ p ∈ others.filter D.beside, hasStub files p = hasStub others p := by
    intro p hp
    obtain ⟨hp, beside⟩ := List.mem_filter.mp hp
    obtain ⟨m, hm, rfl⟩ := ho p hp
    rw [Bool.eq_iff_iff, hasStub_iff hf hm, hasStub_iff ho hm]
    refine and_congr_right fun _ => exists_congr fun l => exists_congr fun x =>
      and_congr_right fun hlx => mem ?_
    subst hlx
    unfold Location.beside Location.path at beside ⊢
    simp only [Location.above_snoc] at beside ⊢
    exact beside
  calc (preferStubs files).filter D.beside
      = (files.filter D.beside).filter (fun p => !hasStub files p) := List.filter_comm _ _ _
    _ = (others.filter D.beside).filter (fun p => !hasStub files p) := by rw [h]
    _ = (others.filter D.beside).filter (fun p => !hasStub others p) :=
        List.filter_congr fun p hp => by rw [same p hp]
    _ = (preferStubs others).filter D.beside := List.filter_comm _ _ _

/-! ## what is selected -/

namespace Selector

theorem components_ofBase {t : FileTree} (directory : Path) (excludes : List String) (use : Bool) :
    (ofBase t directory excludes use).base.components ≠ [] := by
  unfold ofBase
  dsimp only
  unfold FileTree.canonical
  cases hl : t.locate directory with
  | ok l => exact l.components_ne_nil
  | error e =>
    intro (h : directory.components = [])
    rw [FileTree.locate_of_components_eq_nil h] at hl
    cases hl

/-- **An ignore file acts below its directory only.** In a tree without links, whatever the ignore
file of a directory says, the same files are selected beside that directory, in the same order: from
any base and for all inputs, wherever they lead. -/
theorem select_beside {t : FileTree} (w : t.WellFormed) (plain : t.LinkFree) {D : Location}
    (hD : D.IsNamed) (content : FileContent) (directory : Path) (excludes : List String)
    (use : Bool) (inputs : List Path) :
    ((ofBase (t.setContent (D ++ [ignoreFileName]) content) directory excludes use).select
        inputs).files.filter (fun p => !D.Above p.segments) =
      ((ofBase t directory excludes use).select inputs).files.filter
        (fun p => !D.Above p.segments) := by
  unfold FileTree.setContent
  rw [ofBase_rewrite]
  have r : (ofBase t directory excludes use).RewritesBelow
      (fun m old => if m = D ++ [ignoreFileName] then content else old) D := by
    refine ⟨hD, plain, fun l old hl => if_neg ?_⟩
    rintro rfl
    exact hl (Location.above_snoc.mpr List.prefix_rfl)
  have twins := run_twins r w (components_ofBase directory excludes use) inputs
  exact (filter_preferStubs (isNamed_candidates w inputs) (isNamed_candidates w.rewrite inputs)
    twins.same.files).symm

/-- a project with an ignore file in one of its directories, and a source that is found beside it -/
def nested : FileTree :=
  ⟨[("p", .directory [
    ("a.py", .file (.text "")),
    ("sub", .directory [
      (".gitignore", .file (.text "x.py\n")),
      ("x.py", .file (.text "")),
      ("y.py", .file (.text ""))])])]⟩

theorem select_beside_nested :
    nested.WellFormed ∧ nested.LinkFree ∧ Location.IsNamed ["p", "sub"] ∧
      ((ofBase nested ⟨true, ["p"]⟩ [] true).select [".", "sub/x.py"]).files =
        [⟨true, ["p", "a.py"]⟩, ⟨true, ["p", "sub", "y.py"]⟩] ∧
      ((ofBase (nested.setContent ["p", "sub", ignoreFileName] (.text "*\n")) ⟨true, ["p"]⟩ []
        true).select [".", "sub/x.py"]).files = [⟨true, ["p", "a.py"]⟩] ∧
      ((ofBase (nested.setContent ["p", "sub", ignoreFileName] (.text "*\n")) ⟨true, ["p"]⟩ []
          true).select [".", "sub/x.py"]).files.filter
          (fun p => !Location.Above ["p", "sub"] p.segments) =
        ((ofBase nested ⟨true, ["p"]⟩ [] true).select [".", "sub/x.py"]).files.filter
          (fun p => !Location.Above ["p", "sub"] p.segments) := by
  have w : nested.WellFormed := by decide +kernel
  have plain : nested.LinkFree := by decide +kernel
  have hD : Location.IsNamed ["p", "sub"] := by decide +kernel
  exact ⟨w, plain, hD, by decide +kernel, by decide +kernel,
    select_beside w plain hD (.text "*\n") ⟨true, ["p"]⟩ [] true [".", "sub/x.py"]⟩

end Selector

end AnnotationAudit
