import AnnotationAudit.Proofs.Exclusion
import AnnotationAudit.Proofs.Trees

/-!
# Trees that differ in contents

When files get other contents, all nodes stand where they stood, and all paths lead where they led.

* `FileTree.rewrite`         a tree with other contents in its files;
* `FileTree.get?_rewrite`    what stands at a location;
* `FileTree.locate_rewrite`  paths lead to the same locations;
* `FileTree.read_rewrite`    what is read where the content is the same;
* `Selector.rewrite`         a selector in the tree with the other contents;
* `FileTree.DiffersAt`       a tree that differs from another in the contents of some files only;
* `FileTree.DiffersAt.exists_rewrite`  it is the other one with these contents.
-/

namespace AnnotationAudit

open FileNode (Every IsOrdered)

variable {f : Location → FileContent → FileContent}

/-! ## nodes -/

namespace FileNode

mutual

/-- a node at a location with other contents in its files; `f` tells them from their location -/
def rewrite (f : Location → FileContent → FileContent) (l : Location) : FileNode → FileNode
  | .file content => .file (f l content)
  | .directory entries => .directory (rewriteIn f l entries)
  | .link target => .link target

def rewriteIn (f : Location → FileContent → FileContent) (l : Location) :
    List (Bytes × FileNode) → List (Bytes × FileNode)
  | [] => []
  | e :: rest => rewriteOf f l e :: rewriteIn f l rest

def rewriteOf (f : Location → FileContent → FileContent) (l : Location) :
    Bytes × FileNode → Bytes × FileNode
  | (name, node) => (name, node.rewrite f (l ++ [name]))

end

variable {l : Location}

theorem rewriteIn_eq_map (es : FileEntries) :
    rewriteIn f l es = es.map fun e => (e.1, e.2.rewrite f (l ++ [e.1])) := by
  induction es with
  | nil => rfl
  | cons e es ih =>
    obtain ⟨s, n⟩ := e
    rw [rewriteIn, ih, List.map_cons]
    rfl

theorem names_rewriteIn (es : FileEntries) : (rewriteIn f l es).map Prod.fst = es.map Prod.fst := by
  rw [rewriteIn_eq_map, List.map_map]
  rfl

theorem isLink_rewrite (n : FileNode) : (n.rewrite f l).isLink = n.isLink := by
  cases n <;> rfl

theorem entries?_rewrite (n : FileNode) :
    (n.rewrite f l).entries? = n.entries?.map (rewriteIn f l) := by
  cases n <;> rfl

theorem get?_rewriteIn (s : Bytes) (es : FileEntries) :
    FileEntries.get? s (rewriteIn f l es) =
      (FileEntries.get? s es).map fun n => n.rewrite f (l ++ [s]) := by
  induction es with
  | nil => rfl
  | cons e es ih =>
    obtain ⟨t, n⟩ := e
    unfold rewriteIn rewriteOf FileEntries.get?
    split
    · next hts => rw [hts, Option.map_some]
    · exact ih

theorem get?_rewrite (n : FileNode) (m : Location) :
    (n.rewrite f l).get? m = (n.get? m).map fun k => k.rewrite f (l ++ m) := by
  induction m generalizing n l with
  | nil => rw [get?_nil, get?_nil, Option.map_some, List.append_nil]
  | cons s m ih =>
    cases n with
    | file => rfl
    | link => rfl
    | directory es =>
      show (FileEntries.get? s (rewriteIn f l es)).bind (fun k => k.get? m) =
        ((FileEntries.get? s es).bind fun k => k.get? m).map _
      rw [get?_rewriteIn]
      cases FileEntries.get? s es with
      | none => rfl
      | some k => rw [Option.map_some, Option.bind_some, Option.bind_some, ih, ← List.append_cons]

mutual

theorem directories_rewrite (l : Location) :
    ∀ n : FileNode, (n.rewrite f l).directories = n.directories
  | .file _ => rfl
  | .directory es => congrArg (· + 1) (directoriesIn_rewrite l es)
  | .link _ => rfl

theorem directoriesIn_rewrite (l : Location) :
    ∀ es : List (Bytes × FileNode), directoriesIn (rewriteIn f l es) = directoriesIn es
  | [] => rfl
  | e :: es => by
    rw [rewriteIn, directoriesIn, directoriesIn, directoriesOf_rewrite l e,
      directoriesIn_rewrite l es]

theorem directoriesOf_rewrite (l : Location) :
    ∀ e : Bytes × FileNode, directoriesOf (rewriteOf f l e) = directoriesOf e
  | (s, n) => directories_rewrite (l ++ [s]) n

end

theorem isOrdered_rewrite {n : FileNode} (h : n.IsOrdered) : (n.rewrite f l).IsOrdered := by
  cases n with
  | file => trivial
  | link => trivial
  | directory es =>
    refine ⟨names_rewriteIn es ▸ h.1, fun e he => ?_⟩
    have hname : e.1 ∈ es.map Prod.fst := names_rewriteIn (f := f) es ▸ List.mem_map_of_mem he
    obtain ⟨d, hd, hde⟩ := List.mem_map.mp hname
    exact hde ▸ h.2 d hd

/-- what does not depend on contents holds of all nodes still -/
theorem Every.rewrite {P : FileNode → Prop}
    (hP : ∀ (n : FileNode) l, P n → P (n.rewrite f l)) {n : FileNode} (h : n.Every P) :
    (n.rewrite f l).Every P := by
  induction h generalizing l with
  | file h => exact .file (hP _ l h)
  | link h => exact .link (hP _ l h)
  | directory h _ ih =>
    refine .directory (hP _ l h) fun e he => ?_
    rw [rewriteIn_eq_map] at he
    obtain ⟨d, hd, rfl⟩ := List.mem_map.mp he
    exact ih d hd

end FileNode

/-! ## trees -/

namespace FileTree

/-- a tree with other contents in its files; `f` tells them from their location -/
def rewrite (f : Location → FileContent → FileContent) (t : FileTree) : FileTree :=
  ⟨FileNode.rewriteIn f [] t.entries⟩

/-- a tree with another content in the file at a location, if there is one -/
def setContent (t : FileTree) (l : Location) (content : FileContent) : FileTree :=
  t.rewrite fun m old => if m = l then content else old

variable {t : FileTree}

theorem get?_rewrite (l : Location) :
    (t.rewrite f).get? l = (t.get? l).map fun n => n.rewrite f l := t.root.get?_rewrite l

theorem get?_rewrite_file {l : Location} {content : FileContent}
    (h : t.get? l = some (.file content)) : (t.rewrite f).get? l = some (.file (f l content)) := by
  rw [get?_rewrite, h]
  rfl

theorem directories_rewrite : (t.rewrite f).root.directories = t.root.directories :=
  FileNode.directories_rewrite [] t.root

theorem WellFormed.rewrite (w : t.WellFormed) : (t.rewrite f).WellFormed :=
  Every.rewrite (l := []) (fun _ _ => FileNode.isOrdered_rewrite) w

theorem LinkFree.rewrite (plain : t.LinkFree) : (t.rewrite f).LinkFree :=
  Every.rewrite (l := []) (fun n _ h => (n.isLink_rewrite).trans h) plain

/-! ## paths -/

theorem followWith_rewrite (jump : Location → List Bytes → Except AccessError Location)
    (segments : List Bytes) (here : Location) :
    (t.rewrite f).followWith jump here segments = t.followWith jump here segments := by
  induction segments generalizing here with
  | nil => rfl
  | cons s segments ih =>
    have entries : ((t.rewrite f).get? here).bind FileNode.entries? =
        ((t.get? here).bind FileNode.entries?).map (FileNode.rewriteIn f here) := by
      rw [get?_rewrite]
      cases t.get? here with
      | none => rfl
      | some n => exact n.entries?_rewrite
    unfold followWith
    rw [entries]
    cases (t.get? here).bind FileNode.entries? with
    | none => rfl
    | some es =>
      dsimp only [Option.map_some]
      rw [ih, ih, FileNode.get?_rewriteIn]
      cases FileEntries.get? s es with
      | none => rfl
      | some n =>
        cases n with
        | link target => rfl
        | file content =>
          dsimp only [Option.map_some, FileNode.rewrite]
          rw [ih]
        | directory es =>
          dsimp only [Option.map_some, FileNode.rewrite]
          rw [ih]

theorem follow_rewrite (links : Nat) : (t.rewrite f).follow links = t.follow links := by
  induction links with
  | zero =>
    funext here segments
    exact followWith_rewrite _ segments here
  | succ links ih =>
    funext here segments
    unfold follow
    rw [ih]
    exact followWith_rewrite _ segments here

@[simp] theorem locate_rewrite (p : Path) : (t.rewrite f).locate p = t.locate p := by
  unfold locate
  rw [follow_rewrite]

@[simp] theorem canonical_rewrite (p : Path) : (t.rewrite f).canonical p = t.canonical p := by
  unfold canonical
  rw [locate_rewrite]

/-- the node that a path leads to is the one that it led to, with its new contents -/
theorem node_rewrite (p : Path) : (t.rewrite f).node p =
    (t.node p).bind fun n => (t.locate p).map fun l => n.rewrite f l := by
  unfold node
  split
  · rfl
  · split
    · rfl
    · rw [locate_rewrite]
      cases t.locate p with
      | error e => rfl
      | ok l =>
        dsimp only [bind, Except.bind]
        rw [get?_rewrite]
        cases t.get? l with
        | none => rfl
        | some n => rfl

@[simp] theorem isDirectory_rewrite (p : Path) :
    (t.rewrite f).isDirectory p = t.isDirectory p := by
  unfold isDirectory
  rw [node_rewrite]
  cases hn : t.node p with
  | error e => rfl
  | ok n =>
    obtain ⟨l, hl, -⟩ := get?_of_node hn
    rw [hl]
    cases n <;> rfl

/-- what is read where the content is the same -/
theorem read_rewrite {p : Path}
    (h : ∀ l content, t.locate p = .ok l → t.get? l = some (.file content) →
      f l content = content) : (t.rewrite f).read p = t.read p := by
  unfold read
  rw [node_rewrite]
  cases hn : t.node p with
  | error e => rfl
  | ok n =>
    obtain ⟨l, hl, hk⟩ := get?_of_node hn
    rw [hl]
    cases n with
    | file content =>
      show Except.ok (f l content) = Except.ok content
      rw [h l content hl hk]
    | directory es => rfl
    | link target => rfl

end FileTree

/-! ## trees that differ -/

namespace FileNode

variable {g : Location → FileContent → FileContent} {l : Location}

mutual

theorem rewrite_rewrite (l : Location) : ∀ n : FileNode,
    (n.rewrite f l).rewrite g l = n.rewrite (fun m old => g m (f m old)) l
  | .file _ => rfl
  | .directory es => congrArg directory (rewriteIn_rewriteIn l es)
  | .link _ => rfl

theorem rewriteIn_rewriteIn (l : Location) : ∀ es : List (Bytes × FileNode),
    rewriteIn g l (rewriteIn f l es) = rewriteIn (fun m old => g m (f m old)) l es
  | [] => rfl
  | e :: es => congrArg₂ List.cons (rewriteOf_rewriteOf l e) (rewriteIn_rewriteIn l es)

theorem rewriteOf_rewriteOf (l : Location) : ∀ e : Bytes × FileNode,
    rewriteOf g l (rewriteOf f l e) = rewriteOf (fun m old => g m (f m old)) l e
  | (s, n) => congrArg (Prod.mk s) (rewrite_rewrite (l ++ [s]) n)

end

/-- entries that hold what the rewritten ones hold, one by one, are these -/
theorem rewriteIn_eq {ns es : FileEntries} (h : rewriteIn g l ns = rewriteIn g l es)
    (hes : ∀ e ∈ es, ∀ n : FileNode, n.rewrite g (l ++ [e.1]) = e.2.rewrite g (l ++ [e.1]) →
      n.rewrite f (l ++ [e.1]) = e.2) : rewriteIn f l ns = es := by
  induction es generalizing ns with
  | nil =>
    cases ns with
    | nil => rfl
    | cons => cases h
  | cons e es ih =>
    obtain ⟨first, rest⟩ := List.forall_mem_cons.mp hes
    cases ns with
    | nil => cases h
    | cons d ns =>
      obtain ⟨hd, hns⟩ := List.cons.inj h
      obtain ⟨s, k⟩ := e
      obtain ⟨s', n⟩ := d
      obtain ⟨rfl, hn⟩ := Prod.mk.inj hd
      rw [rewriteIn, ih hns rest, rewriteOf, first n hn]

/-- a node of the same shape is the rewritten one, if files are rewritten to what it holds -/
theorem rewrite_eq {n k : FileNode} (h : n.rewrite g l = k.rewrite g l) (hk : k.Every IsOrdered)
    (hf : ∀ m content, k.get? m = some (.file content) → ∀ old, f (l ++ m) old = content) :
    n.rewrite f l = k := by
  induction hk generalizing n l with
  | @file content _ =>
    cases n with
    | file old => exact congrArg file (List.append_nil l ▸ hf [] content rfl old)
    | directory => cases h
    | link => cases h
  | link _ =>
    cases n with
    | file => cases h
    | directory => cases h
    | link => exact h
  | @directory es ordered _ ih =>
    cases n with
    | file => cases h
    | link => cases h
    | directory ns =>
      refine congrArg directory (rewriteIn_eq (directory.inj h) fun e he d hd =>
        ih e he hd fun m content hm old => ?_)
      rw [← List.append_cons]
      refine hf (e.1 :: m) content ?_ old
      show (FileEntries.get? e.1 es).bind (fun d => d.get? m) = _
      rw [FileEntries.get?_of_mem ordered.nodup he]
      exact hm

end FileNode

namespace FileTree

/-- the tree with nothing in its files -/
def emptied (t : FileTree) : FileTree := t.rewrite fun _ _ => .text ""

/-- the trees have the same names, kinds of nodes and links, and files that hold something else are
at locations with `P` -/
structure DiffersAt (P : Location → Prop) (t u : FileTree) : Prop where
  shape : t.emptied = u.emptied
  contents : ∀ l a b, t.get? l = some (.file a) → u.get? l = some (.file b) → a ≠ b → P l

variable {P : Location → Prop} {t u : FileTree}

theorem emptied_rewrite : (t.rewrite f).emptied = t.emptied :=
  congrArg FileTree.mk (FileNode.rewriteIn_rewriteIn [] t.entries)

theorem differsAt_rewrite
    (h : ∀ l content, t.get? l = some (.file content) → f l content ≠ content → P l) :
    t.DiffersAt P (t.rewrite f) := by
  refine ⟨emptied_rewrite.symm, fun l a b ha hb hne => ?_⟩
  rw [get?_rewrite_file ha] at hb
  cases hb
  exact h l a ha hne.symm

theorem differsAt_setContent {l : Location} (h : P l) (content : FileContent) :
    t.DiffersAt P (t.setContent l content) := by
  refine differsAt_rewrite fun m old _ hne => ?_
  by_cases hm : m = l
  · exact hm ▸ h
  · exact absurd (if_neg hm) hne

theorem DiffersAt.exists_rewrite (h : t.DiffersAt P u) (w : u.WellFormed) :
    ∃ f, u = t.rewrite f ∧
      ∀ l content, t.get? l = some (.file content) → ¬ P l → f l content = content := by
  have held : ∀ (l : Location) (old : FileContent),
      ∃ held, ∀ content, u.get? l = some (.file content) → held = content := by
    intro l old
    by_cases hu : ∃ held, u.get? l = some (.file held)
    · obtain ⟨held, hheld⟩ := hu
      refine ⟨held, fun content hcontent => ?_⟩
      cases hheld.symm.trans hcontent
      rfl
    · exact ⟨old, fun content hcontent => absurd ⟨content, hcontent⟩ hu⟩
  choose f hf using held
  have hu : t.root.rewrite f [] = u.root :=
    FileNode.rewrite_eq (congrArg root h.shape) w fun m content hm old => hf m old content hm
  have ht : u = t.rewrite f := by
    obtain ⟨es⟩ := u
    exact congrArg FileTree.mk (FileNode.directory.inj hu).symm
  refine ⟨f, ht, fun l content hl hP => ?_⟩
  have hul : u.get? l = some (.file (f l content)) := ht ▸ get?_rewrite_file hl
  by_contra hne
  exact hP (h.contents l content (f l content) hl hul fun heq => hne heq.symm)

end FileTree

/-! ## selectors -/

namespace Selector

/-- a selector in a tree with other contents -/
def rewrite (f : Location → FileContent → FileContent) (c : Selector) : Selector :=
  { c with tree := c.tree.rewrite f }

@[simp] theorem tree_rewrite (c : Selector) : (c.rewrite f).tree = c.tree.rewrite f := rfl

@[simp] theorem base_rewrite (c : Selector) : (c.rewrite f).base = c.base := rfl

theorem ofBase_rewrite (t : FileTree) (directory : Path) (excludes : List String) (use : Bool) :
    ofBase (t.rewrite f) directory excludes use = (ofBase t directory excludes use).rewrite f := by
  unfold ofBase rewrite
  rw [FileTree.canonical_rewrite]

theorem ignoreList_rewrite {c : Selector} {p : Path}
    (h : ∀ l content, c.tree.locate (p.child ignoreFileName) = .ok l →
      c.tree.get? l = some (.file content) → f l content = content) :
    (c.rewrite f).ignoreList p = c.ignoreList p := by
  unfold ignoreList
  dsimp only
  rw [tree_rewrite, FileTree.read_rewrite h]

end Selector

end AnnotationAudit
