import AnnotationAudit.Proofs.Exclusion
import AnnotationAudit.Proofs.Trees
import Mathlib.Data.List.Nodup

/-!
# What a walk finds

A walk reads ignore files on its way, and leaves out what they ignore. What it finds can be told
without following it: the ignore files that can have a say about a path are those of the directories
above it, and the walk has been to all of them when it gets there.

* `Walk.sources`             the files that a walk finds, if it is known what is left out;
* `Walk.forall_mem_sources`  what holds of all of them;
* `Selector.Walking`         what holds of the state while a walk is inside a directory;
* `Selector.Walking.isExcluded`  it ignores what `Selector.leavesOutFrom` says;
* `Selector.files_walk`      the walk finds `Walk.sources` and nothing else.
-/

namespace AnnotationAudit

/-! ## files found -/

/-- files, and new ones behind them unless they are there -/
def addNew (files new : List Path) : List Path :=
  new.foldl (fun files p => if files.contains p then files else files ++ [p]) files

theorem addNew_nil (files : List Path) : addNew files [] = files := rfl

theorem addNew_append (files new more : List Path) :
    addNew files (new ++ more) = addNew (addNew files new) more := List.foldl_append

theorem SelectionState.files_find (s : SelectionState) (p : Path) :
    (s.find p).files = addNew s.files [p] := by
  unfold find
  show _ = if s.files.contains p then s.files else s.files ++ [p]
  split <;> rfl

/-- of files that are found again, only the first one counts -/
theorem addNew_eraseDups (files new : List Path) :
    addNew files.eraseDups new = (files ++ new).eraseDups := by
  induction new generalizing files with
  | nil => rw [addNew_nil, List.append_nil]
  | cons p new ih =>
    have hp : addNew files.eraseDups [p] = (files ++ [p]).eraseDups := by
      show (if files.eraseDups.contains p then files.eraseDups else files.eraseDups ++ [p]) = _
      rw [List.eraseDups_append]
      by_cases hp : p ∈ files <;> simp [List.removeAll, List.eraseDups_cons, hp]
    rw [← List.singleton_append, addNew_append, hp, ih, List.append_assoc]

theorem nodup_addNew {files : List Path} (new : List Path) (h : files.Nodup) :
    (addNew files new).Nodup := by
  induction new generalizing files with
  | nil => exact h
  | cons p new ih =>
    rw [← List.singleton_append, addNew_append]
    refine ih ?_
    show (if files.contains p then files else files ++ [p]).Nodup
    split
    · exact h
    · next hp =>
      rw [List.contains_iff_mem] at hp
      exact List.Nodup.append h (List.nodup_singleton p) (List.disjoint_singleton.mpr hp)

theorem mem_addNew {files new : List Path} {p : Path} :
    p ∈ addNew files new ↔ p ∈ files ∨ p ∈ new := by
  induction new generalizing files with
  | nil => simp [addNew_nil]
  | cons q new ih =>
    rw [← List.singleton_append, addNew_append, ih, List.mem_append, ← or_assoc]
    refine or_congr_left ?_
    show p ∈ (if files.contains q then files else files ++ [q]) ↔ _
    split
    · next hq =>
      rw [List.contains_iff_mem] at hq
      simp only [List.mem_singleton, iff_self_or]
      rintro rfl
      exact hq
    · rw [List.mem_append]

/-- what is left out does not matter for what is kept -/
theorem filter_addNew (b : Path → Bool) (files new : List Path) :
    (addNew files new).filter b = addNew (files.filter b) (new.filter b) := by
  induction new generalizing files with
  | nil => rfl
  | cons q new ih =>
    have first : (addNew files [q]).filter b = addNew (files.filter b) ([q].filter b) := by
      show (if files.contains q then files else files ++ [q]).filter b = _
      cases hq : b q with
      | false =>
        have none_new : [q].filter b = [] := List.filter_eq_nil_iff.mpr (by simp [hq])
        rw [none_new, addNew_nil]
        split
        · rfl
        · rw [List.filter_append, none_new, List.append_nil]
      | true =>
        have one_new : [q].filter b = [q] := List.filter_eq_self.mpr (by simp [hq])
        have seen : (files.filter b).contains q = files.contains q := by
          rw [Bool.eq_iff_iff, List.contains_iff_mem, List.contains_iff_mem, List.mem_filter,
            and_iff_left hq]
        rw [one_new]
        show _ = if (files.filter b).contains q then files.filter b else files.filter b ++ [q]
        rw [seen]
        split
        · rfl
        · rw [List.filter_append, one_new]
    rw [← List.singleton_append, addNew_append, ih, first, List.filter_append, addNew_append]

/-! ## the files of a walk -/

namespace Walk

variable (out : Location → Bool → Bool)

/-- a file, unless it is no source or is left out; a link to it may stand at a location -/
def file (x : Location) (target : Path) : List Path :=
  if x.path.isSource && !out x false then [target] else []

/-- what is found in a directory, unless that is hidden or is left out -/
def inside (x : Location) (found : List Path) : List Path :=
  if x.path.isHidden || out x true then [] else found

mutual

/-- what is found at a node; `jump` tells what is behind links -/
def node (jump : List Ancestor → Location → List Path) (ancestors : List Ancestor)
    (x l : Location) : FileNode → List Path
  | .file _ => file out x x.path
  | .directory es => inside out x (entries jump (⟨x.path, l⟩ :: ancestors) x l es)
  | .link _ => jump ancestors x

def entries (jump : List Ancestor → Location → List Path) (ancestors : List Ancestor)
    (here l : Location) : List (Bytes × FileNode) → List Path
  | [] => []
  | e :: es => entry jump ancestors here l e ++ entries jump ancestors here l es

def entry (jump : List Ancestor → Location → List Path) (ancestors : List Ancestor)
    (here l : Location) : Bytes × FileNode → List Path
  | (name, n) => node jump ancestors (here ++ [name]) (l ++ [name]) n

end

/-- what is found behind a link, and at most a number of further ones -/
def behind (t : FileTree) : Nat → List Ancestor → Location → List Path
  | links, ancestors, x =>
    match t.locate x.path with
    | .error _ => []
    | .ok l =>
      match t.get? l with
      | some (.file _) => file out x l.path
      | some (.directory es) =>
        if (ancestors.find? fun a => a.location == l).isSome then []
        else
          match links with
          | 0 => []
          | n + 1 => inside out x (entries out (behind t n) (⟨x.path, l⟩ :: ancestors) x l es)
      | _ => []

def sources (t : FileTree) (i : Location) : List Path :=
  match t.get? i with
  | some (.directory es) => entries out (behind out t t.root.directories) [⟨i.path, i⟩] i i es
  | _ => []

/-- what `R` says of a node, by the way to it and its location, is so for all that the walk comes
to, and then `P` holds of all that it finds -/
structure Passes (t : FileTree) (R : Location → Location → FileNode → Prop) (P : Path → Prop) :
    Prop where
  file : ∀ {x l content}, R x l (.file content) → P x.path
  target : ∀ {l content}, t.get? l = some (.file content) → P l.path
  entry : ∀ {x l es}, R x l (.directory es) → ∀ e ∈ es, R (x ++ [e.1]) (l ++ [e.1]) e.2
  behind : ∀ {x l target k es}, R x l (.link target) → t.get? k = some (.directory es) →
    ∀ e ∈ es, R (x ++ [e.1]) (k ++ [e.1]) e.2

section
variable {out : Location → Bool → Bool} {t : FileTree} {R : Location → Location → FileNode → Prop}
  {P : Path → Prop} {jump : List Ancestor → Location → List Path}

theorem forall_mem_file {x : Location} {target : Path} (h : P target) :
    ∀ p ∈ file out x target, P p := by
  intro p hp
  unfold file at hp
  split at hp
  · exact List.mem_singleton.mp hp ▸ h
  · exact absurd hp List.not_mem_nil

theorem mem_of_mem_inside {x : Location} {found : List Path} {p : Path}
    (h : p ∈ inside out x found) : p ∈ found := by
  unfold inside at h
  split at h
  · exact absurd h List.not_mem_nil
  · exact h

mutual

theorem forall_mem_node (h : Passes t R P)
    (hj : ∀ as x l target, R x l (.link target) → ∀ p ∈ jump as x, P p) (as : List Ancestor)
    (x l : Location) : ∀ n : FileNode, R x l n → ∀ p ∈ node out jump as x l n, P p
  | .file _, hn => forall_mem_file (h.file hn)
  | .directory es, hn => fun p hp =>
    forall_mem_entries h hj _ x l es (h.entry hn) p (mem_of_mem_inside hp)
  | .link target, hn => hj as x l target hn

theorem forall_mem_entries (h : Passes t R P)
    (hj : ∀ as x l target, R x l (.link target) → ∀ p ∈ jump as x, P p) (as : List Ancestor)
    (x l : Location) :
    ∀ es : List (Bytes × FileNode), (∀ e ∈ es, R (x ++ [e.1]) (l ++ [e.1]) e.2) →
      ∀ p ∈ entries out jump as x l es, P p
  | [], _ => fun _ hp => absurd hp List.not_mem_nil
  | e :: es, hes => fun p hp => by
    obtain ⟨he, hes⟩ := List.forall_mem_cons.mp hes
    rw [entries, List.mem_append] at hp
    rcases hp with hp | hp
    · exact forall_mem_entry h hj as x l e he p hp
    · exact forall_mem_entries h hj as x l es hes p hp

theorem forall_mem_entry (h : Passes t R P)
    (hj : ∀ as x l target, R x l (.link target) → ∀ p ∈ jump as x, P p) (as : List Ancestor)
    (x l : Location) :
    ∀ e : Bytes × FileNode, R (x ++ [e.1]) (l ++ [e.1]) e.2 →
      ∀ p ∈ entry out jump as x l e, P p
  | (s, n), hn => forall_mem_node h hj as (x ++ [s]) (l ++ [s]) n hn

end

/-- the induction is on the number of links to follow -/
theorem forall_mem_behind (h : Passes t R P) (links : Nat) :
    ∀ as x l target, R x l (.link target) → ∀ p ∈ behind out t links as x, P p := by
  induction links using Nat.strongRecOn with
  | ind links ih =>
    intro as x l target hx
    unfold behind
    cases t.locate x.path with
    | error e => exact fun _ hp => absurd hp List.not_mem_nil
    | ok k =>
      dsimp only
      cases hn : t.get? k with
      | none => exact fun _ hp => absurd hp List.not_mem_nil
      | some n =>
        cases n with
        | file content => exact forall_mem_file (h.target hn)
        | link target => exact fun _ hp => absurd hp List.not_mem_nil
        | directory es =>
          dsimp only
          split
          · exact fun _ hp => absurd hp List.not_mem_nil
          · cases links with
            | zero => exact fun _ hp => absurd hp List.not_mem_nil
            | succ n =>
              intro p hp
              exact forall_mem_entries h (ih n (Nat.lt_succ_self n)) _ x k es (h.behind hx hn) p
                (mem_of_mem_inside hp)

/-- `P` holds of all that a walk finds, if `R` holds where it begins -/
theorem forall_mem_sources (h : Passes t R P) {i : Location}
    (hi : ∀ es, t.get? i = some (.directory es) → R i i (.directory es)) :
    ∀ p ∈ sources out t i, P p := by
  unfold sources
  split
  · next es hd =>
    exact forall_mem_entries h (forall_mem_behind h _) _ i i es (h.entry (hi es hd))
  · exact fun _ hp => absurd hp List.not_mem_nil

end

end Walk

/-! ## during a walk -/

namespace Selector

variable (c : Selector)

/-- is a location below `top` left out, if the walk began there in a state? -/
def leavesOutFrom (s : SelectionState) (top x : Location) (isDirectory : Bool) : Bool :=
  s.isExcluded x.path isDirectory ||
    c.useIgnoreFiles &&
      (top.parents x).any fun m => (c.ignoreList m.path).ignores x.path isDirectory

/-- a walk that began at `top` in the state `s` is in the directory `here`: it has been to all
directories between the two, and to others below `top` -/
structure Walking (s : SelectionState) (top here : Location) (t : SelectionState) : Prop where
  read : c.HasRead t
  kept : ∀ q ∈ s.loaded, q ∈ t.loaded
  fresh : ∀ q ∈ t.loaded, q ∈ s.loaded ∨
    c.useIgnoreFiles = true ∧ ∃ k : Location, k.IsNamed ∧ top <+: k ∧ q = k.path
  parents : c.useIgnoreFiles = true → ∀ k : Location, top <+: k → k <+: here → k.path ∈ t.loaded

namespace Walking

variable {c} {s t u : SelectionState} {top here x : Location} {name : Bytes}

theorem of_eq (h : c.Walking s top here t) (hx : u.isExcluded = t.isExcluded)
    (hl : u.loaded = t.loaded) : c.Walking s top here u :=
  ⟨h.read.of_eq hx hl, hl ▸ h.kept, hl ▸ h.fresh, hl ▸ h.parents⟩

theorem up (h : c.Walking s top x t) (hx : here <+: x) : c.Walking s top here t :=
  ⟨h.read, h.kept, h.fresh, fun hu k hk hkh => h.parents hu k hk (hkh.trans hx)⟩

/-- the ignore file of a directory is read where the walk goes in -/
theorem enter (h : c.Walking s top here t) (hx : Location.IsNamed (here ++ [name]))
    (ht : top <+: here ++ [name]) :
    c.Walking s top (here ++ [name])
      (if c.useIgnoreFiles then c.load t (Location.path (here ++ [name])) else t) := by
  split
  · next hu =>
    refine ⟨h.read.load _, fun q hq => mem_loaded_load.mpr (.inl (h.kept q hq)), fun q hq => ?_,
      fun _ k hk hkx => mem_loaded_load.mpr ?_⟩
    · rcases mem_loaded_load.mp hq with hq | rfl
      · exact h.fresh q hq
      · exact .inr ⟨hu, _, hx, ht, rfl⟩
    · rcases List.prefix_concat_iff.mp hkx with rfl | hkh
      · exact .inr rfl
      · exact .inl (h.parents hu k hk hkh)
  · next hu =>
    exact ⟨h.read, h.kept, h.fresh, fun hu' => absurd hu' hu⟩

/-- what is ignored in a directory that the walk is in -/
theorem isExcluded (hs : c.HasRead s) (h : c.Walking s top here t)
    (hx : Location.IsNamed (here ++ [name])) (isDirectory : Bool) :
    t.isExcluded (Location.path (here ++ [name])) isDirectory =
      c.leavesOutFrom s top (here ++ [name]) isDirectory := by
  rw [Bool.eq_iff_iff, h.read.isExcluded_iff]
  unfold leavesOutFrom
  simp only [Bool.or_eq_true, hs.isExcluded_iff, Bool.and_eq_true, List.any_eq_true,
    Location.mem_parents, Location.above_snoc]
  constructor
  · rintro (hp | ⟨q, hq, hi⟩)
    · exact .inl (.inl hp)
    · rcases h.fresh q hq with hq | ⟨hu, k, hk, htk, rfl⟩
      · exact .inl (.inr ⟨q, hq, hi⟩)
      · -- wherever else the walk has been, only what is above has a say
        have hkx := IgnoreList.above_of_ignores (c.directory_ignoreList _) hk hx hi
        exact .inr ⟨hu, k, ⟨htk, Location.above_snoc.mp hkx⟩, hi⟩
  · rintro ((hp | ⟨q, hq, hi⟩) | ⟨hu, k, ⟨htk, hkh⟩, hi⟩)
    · exact .inl hp
    · exact .inr ⟨q, h.kept q hq, hi⟩
    · exact .inr ⟨_, h.parents hu k htk hkh, hi⟩

end Walking

/-! ## the files of a walk -/

/-- a step in the directory `here` finds files -/
def Finds (s : SelectionState) (top here : Location) (t u : SelectionState)
    (found : List Path) : Prop :=
  c.Walking s top here u ∧ u.files = addNew t.files found

/-- following links finds files, wherever the walk is -/
def FindsBehind (s : SelectionState) (top : Location)
    (jump : SelectionState → List Ancestor → Path → SelectionState)
    (behind : List Ancestor → Location → List Path) : Prop :=
  ∀ t ancestors here name, c.Walking s top here t → Location.IsNamed (here ++ [name]) →
    top <+: here → c.Finds s top here t (jump t ancestors (Location.path (here ++ [name])))
      (behind ancestors (here ++ [name]))

/-- a walk that begins at `top` in the state `s` leaves out what `out` says -/
structure WalksBy (s : SelectionState) (top : Location) (out : Location → Bool → Bool) : Prop where
  read : c.HasRead s
  out_eq : ∀ (x : Location) isDirectory, x.IsNamed → top.Above x →
    c.leavesOutFrom s top x isDirectory = out x isDirectory

variable {c} {s : SelectionState} {top : Location} {out : Location → Bool → Bool}

theorem Walking.isExcluded_eq (hs : c.WalksBy s top out) {here : Location} {name : Bytes}
    {t : SelectionState} (h : c.Walking s top here t) (hx : Location.IsNamed (here ++ [name]))
    (ht : top <+: here) (isDirectory : Bool) :
    t.isExcluded (Location.path (here ++ [name])) isDirectory =
      out (here ++ [name]) isDirectory := by
  rw [h.isExcluded hs.read hx, hs.out_eq _ _ hx (Location.above_snoc.mpr ht)]

theorem visitFile_finds (hs : c.WalksBy s top out) {here : Location} {name : Bytes}
    {t : SelectionState} (h : c.Walking s top here t) (hx : Location.IsNamed (here ++ [name]))
    (ht : top <+: here) (target : Path) :
    c.Finds s top here t (c.visitFile t (Location.path (here ++ [name])) target)
      (Walk.file out (here ++ [name]) target) := by
  unfold visitFile Walk.file
  rw [h.isExcluded_eq hs hx ht]
  cases (Location.path (here ++ [name])).isSource with
  | false => exact ⟨h, rfl⟩
  | true =>
    cases out (here ++ [name]) false with
    | true => exact ⟨h.of_eq rfl rfl, rfl⟩
    | false =>
      exact ⟨h.of_eq (t.isExcluded_find target) (t.loaded_find target), t.files_find target⟩

theorem visitDirectory_finds (hs : c.WalksBy s top out) {here : Location} {name : Bytes}
    {t : SelectionState} (h : c.Walking s top here t) (hx : Location.IsNamed (here ++ [name]))
    (ht : top <+: here) {enter : SelectionState → SelectionState} {found : List Path}
    (he : ∀ u, c.Walking s top (here ++ [name]) u →
      c.Finds s top (here ++ [name]) u (enter u) found) :
    c.Finds s top here t (c.visitDirectory t (Location.path (here ++ [name])) enter)
      (Walk.inside out (here ++ [name]) found) := by
  unfold visitDirectory Walk.inside
  rw [h.isExcluded_eq hs hx ht]
  split
  · exact ⟨h.of_eq rfl rfl, rfl⟩
  · obtain ⟨hw, hf⟩ := he _ (h.enter hx (ht.trans (List.prefix_append here [name])))
    refine ⟨hw.up (List.prefix_append here [name]), hf.trans ?_⟩
    split
    · rw [files_load]
    · rfl

mutual

theorem visitNode_finds (hs : c.WalksBy s top out)
    {jump : SelectionState → List Ancestor → Path → SelectionState}
    {behind : List Ancestor → Location → List Path} (hj : c.FindsBehind s top jump behind)
    {here : Location} {name : Bytes} {t : SelectionState} (h : c.Walking s top here t)
    (hx : Location.IsNamed (here ++ [name])) (ht : top <+: here) (ancestors : List Ancestor)
    (l : Location) : ∀ n : FileNode, n.Every FileNode.IsOrdered →
      c.Finds s top here t (c.visitNode jump t ancestors (Location.path (here ++ [name])) l n)
        (Walk.node out behind ancestors (here ++ [name]) l n)
  | .file _, _ => visitFile_finds hs h hx ht _
  | .directory _, .directory ordered nodes => visitDirectory_finds hs h hx ht fun _ hu =>
      walkWith_finds hs hj hu hx (ht.trans (List.prefix_append here [name])) _ l _
        fun e he => ⟨ordered.2 e he, nodes e he⟩
  | .link _, _ => hj t ancestors here name h hx ht

/-- walking over entries finds what they hold, if following links does -/
theorem walkWith_finds (hs : c.WalksBy s top out)
    {jump : SelectionState → List Ancestor → Path → SelectionState}
    {behind : List Ancestor → Location → List Path} (hj : c.FindsBehind s top jump behind)
    {here : Location} {t : SelectionState} (h : c.Walking s top here t) (hh : here.IsNamed)
    (ht : top <+: here) (ancestors : List Ancestor) (l : Location) :
    ∀ es : List (Bytes × FileNode), (∀ e ∈ es, IsFileName e.1 ∧ e.2.Every FileNode.IsOrdered) →
      c.Finds s top here t (c.walkWith jump t ancestors here.path l es)
        (Walk.entries out behind ancestors here l es)
  | [], _ => ⟨h, rfl⟩
  | e :: es, hes => by
    obtain ⟨he, hes⟩ := List.forall_mem_cons.mp hes
    have first := visitEntry_finds hs hj h hh ht ancestors l e he.1 he.2
    have rest := walkWith_finds hs hj first.1 hh ht ancestors l es hes
    refine ⟨rest.1, rest.2.trans ?_⟩
    rw [first.2, ← addNew_append]
    rfl

theorem visitEntry_finds (hs : c.WalksBy s top out)
    {jump : SelectionState → List Ancestor → Path → SelectionState}
    {behind : List Ancestor → Location → List Path} (hj : c.FindsBehind s top jump behind)
    {here : Location} {t : SelectionState} (h : c.Walking s top here t) (hh : here.IsNamed)
    (ht : top <+: here) (ancestors : List Ancestor) (l : Location) :
    ∀ e : Bytes × FileNode, IsFileName e.1 → e.2.Every FileNode.IsOrdered →
      c.Finds s top here t (c.visitEntry jump t ancestors here.path l e)
        (Walk.entry out behind ancestors here l e)
  | (name, n), hname, hn => by
    have hnode := visitNode_finds hs hj h (hh.snoc hname) ht ancestors (l ++ [name]) n hn
    rw [← Location.child_path hh] at hnode
    exact hnode

end

/-- following links finds what is behind them; the induction is on the number of links to follow -/
theorem jump_finds (hs : c.WalksBy s top out) (w : c.tree.WellFormed) (links : Nat) :
    c.FindsBehind s top (c.jump links) (Walk.behind out c.tree links) := by
  induction links using Nat.strongRecOn with
  | ind links ih =>
    intro t ancestors here name h hx ht
    unfold jump Walk.behind
    cases c.tree.locate (Location.path (here ++ [name])) with
    | error e => exact ⟨h.of_eq rfl rfl, rfl⟩
    | ok l =>
      dsimp only
      cases hn : c.tree.get? l with
      | none => exact ⟨h, rfl⟩
      | some n =>
        cases n with
        | file content => exact visitFile_finds hs h hx ht l.path
        | link target => exact ⟨h, rfl⟩
        | directory es =>
          dsimp only
          cases ancestors.find? fun a => a.location == l with
          | some a => exact ⟨h.of_eq rfl rfl, rfl⟩
          | none =>
            cases links with
            | zero => exact ⟨h, rfl⟩
            | succ n =>
              have hd := w.get? hn
              cases hd with
              | directory ordered nodes =>
                exact visitDirectory_finds hs h hx ht fun u hu =>
                  walkWith_finds hs (ih n (Nat.lt_succ_self n)) hu hx
                    (ht.trans (List.prefix_append here [name])) _ l es
                    fun e he => ⟨ordered.2 e he, nodes e he⟩

/-- before a walk begins, the ignore file of its directory is read -/
theorem WalksBy.walking (hs : c.WalksBy s top out) (ht : top.IsNamed) :
    c.Walking s top top (if c.useIgnoreFiles then c.load s top.path else s) := by
  split
  · next hu =>
    refine ⟨hs.read.load _, fun q hq => mem_loaded_load.mpr (.inl hq), fun q hq => ?_,
      fun _ k hk hkt => mem_loaded_load.mpr (.inr ?_)⟩
    · exact (mem_loaded_load.mp hq).imp_right fun h => ⟨hu, top, ht, List.prefix_rfl, h⟩
    · rw [hk.eq_of_length_le hkt.length_le]
  · next hu =>
    exact ⟨hs.read, fun _ hq => hq, fun _ hq => .inl hq, fun hu' => absurd hu' hu⟩

/-- **A walk finds the sources below its directory** and no other files. -/
theorem walk_finds (hs : c.WalksBy s top out) (w : c.tree.WellFormed) {es : FileEntries}
    (hd : c.tree.get? top = some (.directory es)) :
    c.Finds s top top s (c.walk s top) (Walk.sources out c.tree top) := by
  have ht := w.isNamed hd
  unfold walk Walk.sources
  rw [hd]
  have hn := w.get? hd
  cases hn with
  | directory ordered nodes =>
    obtain ⟨hw, hf⟩ :=
      walkWith_finds hs (jump_finds hs w c.tree.root.directories) (hs.walking ht) ht
        List.prefix_rfl [⟨top.path, top⟩] top es fun e he => ⟨ordered.2 e he, nodes e he⟩
    refine ⟨hw, hf.trans ?_⟩
    split
    · rw [files_load]
    · rfl

end Selector

end AnnotationAudit
