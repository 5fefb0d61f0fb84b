import AnnotationAudit.Proofs.Failures
import AnnotationAudit.Proofs.Selecting
import Mathlib.Data.List.Perm.Subperm

/-!
# When a walk fails

A walk fails if it gets to a link that leads nowhere, or back to a directory that it is in, and only
then. It may stop following links only because each of them leads to another directory, of which
there are no more than the tree has.

* `FileNode.directoryLocations`  where the directories of a tree are;
* `Walk.Fails`                what a walk gets to has a fault;
* `Walk.Room`                 there are enough links left to follow;
* `Selector.walk_reports`     a walk reports a fault if and only if it gets to one;
* `Selector.goesWell_iff`     so the walks of a selection go well just if they get to none.
-/

namespace AnnotationAudit

/-! ## directories -/

namespace FileNode

mutual

/-- the locations of the directories in a node -/
def directoryLocations : FileNode → List Location
  | .directory es => [] :: directoryLocationsIn es
  | _ => []

def directoryLocationsIn : List (Bytes × FileNode) → List Location
  | [] => []
  | e :: es => directoryLocationsOf e ++ directoryLocationsIn es

def directoryLocationsOf : Bytes × FileNode → List Location
  | (s, n) => n.directoryLocations.map (s :: ·)

end

mutual

theorem length_directoryLocations : ∀ n : FileNode, n.directoryLocations.length = n.directories
  | .file _ | .link _ => rfl
  | .directory es => congrArg (· + 1) (length_directoryLocationsIn es)

theorem length_directoryLocationsIn :
    ∀ es : List (Bytes × FileNode), (directoryLocationsIn es).length = directoriesIn es
  | [] => rfl
  | e :: es => by
    rw [directoryLocationsIn, List.length_append, length_directoryLocationsOf e,
      length_directoryLocationsIn es, directoriesIn]

theorem length_directoryLocationsOf :
    ∀ e : Bytes × FileNode, (directoryLocationsOf e).length = directoriesOf e
  | (_, n) => (List.length_map _).trans (length_directoryLocations n)

end

theorem mem_directoryLocationsIn {s : Bytes} {d : FileNode} {l : Location}
    (hl : l ∈ d.directoryLocations) : ∀ {es : List (Bytes × FileNode)}, (s, d) ∈ es →
      s :: l ∈ directoryLocationsIn es
  | e :: es, h => by
    rw [directoryLocationsIn, List.mem_append]
    rcases List.mem_cons.mp h with rfl | h
    · exact .inl (List.mem_map_of_mem hl)
    · exact .inr (mem_directoryLocationsIn hl h)

theorem mem_directoryLocations {n : FileNode} {l : Location} {es : FileEntries}
    (h : n.get? l = some (.directory es)) : l ∈ n.directoryLocations := by
  induction l generalizing n with
  | nil =>
    obtain rfl := Option.some.inj h
    exact List.mem_cons_self
  | cons s l ih =>
    obtain ⟨entries, d, rfl, hd, hk⟩ := entries_of_get?_cons h
    exact List.mem_cons_of_mem _ (mem_directoryLocationsIn (ih hk) (FileEntries.mem_of_get? hd))

end FileNode

/-- there are no more directories than the tree has -/
theorem FileTree.length_le_directories {t : FileTree} {ks : List Location} (once : ks.Nodup)
    (directories : ∀ k ∈ ks, ∃ es, t.get? k = some (.directory es)) :
    ks.length ≤ t.root.directories := by
  rw [← t.root.length_directoryLocations]
  refine (once.subperm fun k hk => ?_).length_le
  obtain ⟨es, h⟩ := directories k hk
  exact FileNode.mem_directoryLocations h

/-! ## faults -/

namespace Walk

/-- A walk that leaves out what `out` says, and is in the directories `as`, fails at a node or on
the way below it. The node is reached by the location `x` and stands at the location `l`. -/
inductive Fails (t : FileTree) (out : Location → Bool → Bool) :
    List Ancestor → Location → Location → FileNode → Prop where
  /-- a link leads nowhere -/
  | broken {as x l target e} (leads : t.locate x.path = .error e) :
    Fails t out as x l (.link target)
  /-- a link leads back to a directory that the walk is in -/
  | loop {as x l target k es} (leads : t.locate x.path = .ok k)
    (directory : t.get? k = some (.directory es)) (back : ∃ a ∈ as, a.location = k) :
    Fails t out as x l (.link target)
  /-- there is a fault in a directory that is not left out -/
  | inside {as x l es e} (seen : x.path.isHidden = false) (kept : out x true = false)
    (entry : e ∈ es) (below : Fails t out (⟨x.path, l⟩ :: as) (x ++ [e.1]) (l ++ [e.1]) e.2) :
    Fails t out as x l (.directory es)
  /-- there is one in a directory that a link leads to -/
  | behind {as x l target k es e} (leads : t.locate x.path = .ok k)
    (directory : t.get? k = some (.directory es)) (new : ∀ a ∈ as, a.location ≠ k)
    (seen : x.path.isHidden = false) (kept : out x true = false) (entry : e ∈ es)
    (below : Fails t out (⟨x.path, k⟩ :: as) (x ++ [e.1]) (k ++ [e.1]) e.2) :
    Fails t out as x l (.link target)

/-- a walk that begins in the directory `top` fails -/
def FailsBelow (t : FileTree) (out : Location → Bool → Bool) (top : Location) : Prop :=
  ∃ es, t.get? top = some (.directory es) ∧
    ∃ e ∈ es, Fails t out [⟨top.path, top⟩] (top ++ [e.1]) (top ++ [e.1]) e.2

section
variable {t : FileTree} {out : Location → Bool → Bool} {as : List Ancestor} {x l k : Location}
  {target : Path} {es : FileEntries}

theorem fails_directory_iff : Fails t out as x l (.directory es) ↔
    (x.path.isHidden = false ∧ out x true = false) ∧
      ∃ e ∈ es, Fails t out (⟨x.path, l⟩ :: as) (x ++ [e.1]) (l ++ [e.1]) e.2 := by
  constructor
  · rintro (_ | _ | ⟨seen, kept, entry, below⟩)
    exact ⟨⟨seen, kept⟩, _, entry, below⟩
  · rintro ⟨⟨seen, kept⟩, e, entry, below⟩
    exact .inside seen kept entry below

/-- a link to a directory that the walk is not in fails where that directory does -/
theorem fails_link_iff (leads : t.locate x.path = .ok k)
    (directory : t.get? k = some (.directory es)) (new : ∀ a ∈ as, a.location ≠ k) :
    Fails t out as x l (.link target) ↔ (x.path.isHidden = false ∧ out x true = false) ∧
      ∃ e ∈ es, Fails t out (⟨x.path, k⟩ :: as) (x ++ [e.1]) (k ++ [e.1]) e.2 := by
  constructor
  · rintro (leads' | ⟨leads', -, a, ha, back⟩ | _ |
      ⟨leads', directory', -, seen, kept, entry, below⟩)
    · exact absurd (leads.symm.trans leads') nofun
    · exact absurd (back.trans (Except.ok.inj (leads'.symm.trans leads))) (new a ha)
    · obtain rfl := Except.ok.inj (leads'.symm.trans leads)
      obtain rfl := FileNode.directory.inj (Option.some.inj (directory'.symm.trans directory))
      exact ⟨⟨seen, kept⟩, _, entry, below⟩
  · rintro ⟨⟨seen, kept⟩, e, entry, below⟩
    exact .behind leads directory new seen kept entry below

/-- no fault is met where a link leads to something else than a directory -/
theorem not_fails_link (leads : t.locate x.path = .ok k)
    (other : ∀ es, t.get? k ≠ some (.directory es)) : ¬ Fails t out as x l (.link target) := by
  rintro (leads' | ⟨leads', directory, -⟩ | _ | ⟨leads', directory, -, -, -, -, -⟩)
  · exact absurd (leads.symm.trans leads') nofun
  all_goals
    obtain rfl := Except.ok.inj (leads'.symm.trans leads)
    exact other _ directory

/-- The links followed so far, and the beginning of the walk, have led to different directories, in
which the walk still is. With the links that may be followed yet these are more than there are. -/
def Room (t : FileTree) (links : Nat) (as : List Ancestor) : Prop :=
  ∃ ks : List Location, ks.Nodup ∧ (∀ k ∈ ks, ∃ es, t.get? k = some (.directory es)) ∧
    (∀ k ∈ ks, ∃ a ∈ as, a.location = k) ∧ t.root.directories < ks.length + links

namespace Room

variable {links : Nat} {a : Ancestor}

theorem start (directory : t.get? k = some (.directory es)) :
    Room t t.root.directories [⟨k.path, k⟩] :=
  ⟨[k], List.nodup_singleton k, List.forall_mem_singleton.mpr ⟨es, directory⟩,
    List.forall_mem_singleton.mpr ⟨_, List.mem_cons_self, rfl⟩,
    by rw [List.length_singleton]; omega⟩

theorem enter (h : Room t links as) : Room t links (a :: as) := by
  obtain ⟨ks, once, directories, within, room⟩ := h
  exact ⟨ks, once, directories, fun k hk =>
    (within k hk).imp fun b hb => ⟨List.mem_cons_of_mem a hb.1, hb.2⟩, room⟩

theorem jump {n : Nat} (h : Room t (n + 1) as) (directory : t.get? k = some (.directory es))
    (new : ∀ a ∈ as, a.location ≠ k) (p : Path) : Room t n (⟨p, k⟩ :: as) := by
  obtain ⟨ks, once, directories, within, room⟩ := h
  have fresh : k ∉ ks := fun hk => by
    obtain ⟨a, ha, same⟩ := within k hk
    exact new a ha same
  refine ⟨k :: ks, List.nodup_cons.mpr ⟨fresh, once⟩,
    List.forall_mem_cons.mpr ⟨⟨es, directory⟩, directories⟩,
    List.forall_mem_cons.mpr ⟨⟨_, List.mem_cons_self, rfl⟩, fun k' hk' =>
      (within k' hk').imp fun b hb => ⟨List.mem_cons_of_mem _ hb.1, hb.2⟩⟩, ?_⟩
  rw [List.length_cons]
  omega

theorem pos (h : Room t links as) : links ≠ 0 := by
  obtain ⟨ks, once, directories, -, room⟩ := h
  have := FileTree.length_le_directories once directories
  omega

end Room

end

end Walk

/-! ## what a walk reports -/

namespace SelectionState

/-- the failures change from one state to the next just if there is a fault -/
def Reports (s t : SelectionState) (fault : Prop) : Prop := t.failures ≠ s.failures ↔ fault

namespace Reports

variable {s t u : SelectionState} {F G : Prop} {P : FileFailure → Prop}

theorem of_eq (h : t.failures = s.failures) (hF : ¬ F) : Reports s t F :=
  iff_of_false (not_not.mpr h) hF

theorem fail {f : FileFailure} (hF : F) : Reports s (s.fail f) F :=
  iff_of_true (fun h => List.cons_ne_nil f [] (List.append_right_eq_self.mp h)) hF

/-- failures are only added, so that none of two steps takes back what the other reports -/
theorem trans (first : Extends P s t) (second : Extends P t u) (h : Reports s t F)
    (h' : Reports t u G) : Reports s u (F ∨ G) := by
  obtain ⟨new, ht, -⟩ := first
  obtain ⟨more, hu, -⟩ := second
  unfold Reports at h h' ⊢
  rw [ht, ne_eq, List.append_right_eq_self] at h
  rw [hu, ne_eq, List.append_right_eq_self] at h'
  rw [hu, ht, List.append_assoc, ne_eq, List.append_right_eq_self, List.append_eq_nil_iff,
    not_and_or, h, h']

end Reports

end SelectionState

namespace Selector

open SelectionState (Reports)

variable {c : Selector} {s : SelectionState} {top : Location} {out : Location → Bool → Bool}

/-- following links reports the faults met behind them -/
def ReportsBehind (c : Selector) (s : SelectionState) (top : Location)
    (out : Location → Bool → Bool) (links : Nat) : Prop :=
  ∀ t as here name l target, c.Walking s top here t → Location.IsNamed (here ++ [name]) →
    top <+: here → Walk.Room c.tree links as →
      Reports t (c.jump links t as (Location.path (here ++ [name])))
        (Walk.Fails c.tree out as (here ++ [name]) l (.link target))

theorem visitDirectory_reports (hs : c.WalksBy s top out) {here : Location} {name : Bytes}
    {t : SelectionState} (h : c.Walking s top here t) (hx : Location.IsNamed (here ++ [name]))
    (ht : top <+: here) {enter : SelectionState → SelectionState} {F : Prop}
    (he : ∀ u, c.Walking s top (here ++ [name]) u → Reports u (enter u) F) :
    Reports t (c.visitDirectory t (Location.path (here ++ [name])) enter)
      (((Location.path (here ++ [name])).isHidden = false ∧ out (here ++ [name]) true = false) ∧
        F) := by
  unfold visitDirectory
  rw [h.isExcluded_eq hs hx ht]
  split
  · next left =>
    refine .of_eq rfl ?_
    rintro ⟨⟨seen, kept⟩, -⟩
    rw [seen, kept] at left
    exact absurd left Bool.false_ne_true
  · next kept =>
    rw [Bool.or_eq_true, not_or, Bool.not_eq_true, Bool.not_eq_true] at kept
    have inside := he _ (h.enter hx (ht.trans (List.prefix_append here [name])))
    unfold Reports at inside ⊢
    rw [failures_loadIf] at inside
    rw [inside, and_iff_right kept]

mutual

theorem visitNode_reports (hs : c.WalksBy s top out) (w : c.tree.WellFormed) {links : Nat}
    (hj : c.ReportsBehind s top out links) {here : Location} {name : Bytes} {t : SelectionState}
    (h : c.Walking s top here t) (hx : Location.IsNamed (here ++ [name])) (ht : top <+: here)
    {as : List Ancestor} (room : Walk.Room c.tree links as) (l : Location) :
    ∀ n : FileNode, n.Every FileNode.IsOrdered →
      Reports t (c.visitNode (c.jump links) t as (Location.path (here ++ [name])) l n)
        (Walk.Fails c.tree out as (here ++ [name]) l n)
  | .file _, _ => .of_eq (c.failures_visitFile t _ _) nofun
  | .directory es, .directory ordered nodes => by
    rw [Walk.fails_directory_iff]
    exact visitDirectory_reports hs h hx ht fun u hu => walkWith_reports hs w hj hu hx
      (ht.trans (List.prefix_append here [name])) room.enter l es fun e he =>
        ⟨ordered.2 e he, nodes e he⟩
  | .link target, _ => hj t as here name l target h hx ht room

/-- walking over entries reports the faults met there, if following links does -/
theorem walkWith_reports (hs : c.WalksBy s top out) (w : c.tree.WellFormed) {links : Nat}
    (hj : c.ReportsBehind s top out links) {here : Location} {t : SelectionState}
    (h : c.Walking s top here t) (hh : here.IsNamed) (ht : top <+: here) {as : List Ancestor}
    (room : Walk.Room c.tree links as) (l : Location) :
    ∀ es : List (Bytes × FileNode), (∀ e ∈ es, IsFileName e.1 ∧ e.2.Every FileNode.IsOrdered) →
      Reports t (c.walkWith (c.jump links) t as here.path l es)
        (∃ e ∈ es, Walk.Fails c.tree out as (here ++ [e.1]) (l ++ [e.1]) e.2)
  | [], _ => .of_eq rfl fun ⟨_, he, _⟩ => absurd he List.not_mem_nil
  | e :: es, hes => by
    obtain ⟨he, hes⟩ := List.forall_mem_cons.mp hes
    have walking := (visitEntry_finds hs (jump_finds hs w links) h hh ht as l e he.1 he.2).1
    have first := visitEntry_reports hs w hj h hh ht room l e he.1 he.2
    have rest := walkWith_reports hs w hj walking hh ht room l es hes
    rw [List.exists_mem_cons_iff]
    exact first.trans (c.visitEntry_extends (c.jump_extends links) t as here.path l e)
      (c.walkWith_extends (c.jump_extends links) _ as here.path l es) rest

theorem visitEntry_reports (hs : c.WalksBy s top out) (w : c.tree.WellFormed) {links : Nat}
    (hj : c.ReportsBehind s top out links) {here : Location} {t : SelectionState}
    (h : c.Walking s top here t) (hh : here.IsNamed) (ht : top <+: here) {as : List Ancestor}
    (room : Walk.Room c.tree links as) (l : Location) :
    ∀ e : Bytes × FileNode, IsFileName e.1 → e.2.Every FileNode.IsOrdered →
      Reports t (c.visitEntry (c.jump links) t as here.path l e)
        (Walk.Fails c.tree out as (here ++ [e.1]) (l ++ [e.1]) e.2)
  | (name, n), hname, hn => by
    have node := visitNode_reports hs w hj h (hh.snoc hname) ht room (l ++ [name]) n hn
    rw [← Location.child_path hh] at node
    exact node

end

/-- following links reports the faults met behind them; the induction is on the number of links to
follow -/
theorem jump_reports (hs : c.WalksBy s top out) (w : c.tree.WellFormed) (links : Nat) :
    c.ReportsBehind s top out links := by
  induction links using Nat.strongRecOn with
  | ind links ih =>
    intro t as here name l target h hx ht room
    unfold jump
    cases leads : c.tree.locate (Location.path (here ++ [name])) with
    | error e => exact .fail (.broken leads)
    | ok k =>
      dsimp only
      cases hn : c.tree.get? k with
      | none => exact .of_eq rfl (Walk.not_fails_link leads (by simp [hn]))
      | some n =>
        cases n with
        | file content =>
          exact .of_eq (c.failures_visitFile t _ _)
            (Walk.not_fails_link leads (by simp [hn]))
        | link target => exact .of_eq rfl (Walk.not_fails_link leads (by simp [hn]))
        | directory es =>
          dsimp only
          cases found : as.find? fun a => a.location == k with
          | some a =>
            refine .fail (.loop leads hn ⟨a, List.mem_of_find?_eq_some found, ?_⟩)
            exact beq_iff_eq.mp (List.find?_some (p := fun a : Ancestor => a.location == k) found)
          | none =>
            have new : ∀ a ∈ as, a.location ≠ k := fun a ha same =>
              absurd (List.find?_eq_none.mp found a ha) (by simp [same])
            cases links with
            | zero => exact absurd rfl room.pos
            | succ n =>
              rw [Walk.fails_link_iff leads hn new]
              cases w.get? hn with
              | directory ordered nodes =>
                exact visitDirectory_reports hs h hx ht fun u hu =>
                  walkWith_reports hs w (ih n (Nat.lt_succ_self n)) hu hx
                    (ht.trans (List.prefix_append here [name])) (room.jump hn new _) k es
                    fun e he => ⟨ordered.2 e he, nodes e he⟩

/-- **A walk reports a failure if and only if** it gets to a link that leads nowhere, or back to a
directory that it is in. -/
theorem walk_reports (hs : c.WalksBy s top out) (w : c.tree.WellFormed) :
    Reports s (c.walk s top) (Walk.FailsBelow c.tree out top) := by
  have other (h : ∀ es, c.tree.get? top ≠ some (.directory es)) :
      ¬ Walk.FailsBelow c.tree out top := fun ⟨es, hd, _⟩ => h es hd
  unfold walk
  cases hd : c.tree.get? top with
  | none => exact .of_eq rfl (other (by simp [hd]))
  | some n =>
    cases n with
    | file content => exact .of_eq rfl (other (by simp [hd]))
    | link target => exact .of_eq rfl (other (by simp [hd]))
    | directory es =>
      have named := w.isNamed hd
      have below : Walk.FailsBelow c.tree out top ↔
          ∃ e ∈ es, Walk.Fails c.tree out [⟨top.path, top⟩] (top ++ [e.1]) (top ++ [e.1]) e.2 := by
        unfold Walk.FailsBelow
        rw [hd]
        exact ⟨fun ⟨_, same, h⟩ => FileNode.directory.inj (Option.some.inj same) ▸ h,
          fun h => ⟨es, rfl, h⟩⟩
      rw [below]
      cases w.get? hd with
      | directory ordered nodes =>
        have walked := walkWith_reports hs w (jump_reports hs w c.tree.root.directories)
          (hs.walking named) named List.prefix_rfl (Walk.Room.start hd) top es
          fun e he => ⟨ordered.2 e he, nodes e he⟩
        unfold Reports at walked ⊢
        rw [failures_loadIf] at walked
        exact walked

theorem read_of_mem_walksFrom (w : c.tree.WellFormed) (inputs : List Path) (h : c.HasRead s) :
    ∀ x ∈ c.walksFrom s inputs, c.HasRead x.1 := by
  induction inputs generalizing s with
  | nil => exact fun _ hx => absurd hx List.not_mem_nil
  | cons i is ih =>
    rw [walksFrom, List.forall_mem_append]
    refine ⟨fun x hx => ?_, ih (selectInput_finds w h i).1⟩
    have walked := Option.mem_toList.mp hx
    unfold walkOf? at walked
    split at walked
    · cases walked
    · split at walked
      · obtain rfl := Option.some.inj walked
        exact h.looking _
      · cases walked

/-- **When the walks of a selection go well.** They do just if none of them gets to a link that
leads nowhere, or back to a directory that the walk is in. Directories that are left out are not
entered. -/
theorem goesWell_iff (w : c.tree.WellFormed) {inputs : List Path} :
    ∀ x ∈ c.walks inputs,
      c.GoesWell x ↔ ¬ Walk.FailsBelow c.tree (c.leavesOutFrom x.1 x.2) x.2 := fun x hx =>
  not_ne_iff.symm.trans (not_congr
    (walk_reports ⟨read_of_mem_walksFrom w inputs (hasRead_start c) x hx, fun _ _ _ _ => rfl⟩ w))

end Selector

end AnnotationAudit
