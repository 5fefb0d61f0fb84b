import AnnotationAudit.Proofs.Selecting

/-!
# The candidates of inputs

Without links, the files that a walk finds are told by a law that does not mention the walk.

* `Walk.Found`               a file below a node is found;
* `Walk.mem_node`, `Walk.mem_entries`  a walk lists the files that are found;
* `Path.Before`              the order of paths, name by name;
* `Walk.pairwise_node`       in which a walk lists them;
* `Selector.StandsFor`       a file that an input stands for;
* `Selector.candidates_law`  the files of inputs, and their order.
-/

namespace AnnotationAudit

open FileNode (Every IsOrdered)

/-! ## what is found -/

namespace Walk

/-- the file that names lead to from a node is found: it is a source and is not left out, and no
directory on the way is hidden or left out -/
structure Found (out : Location → Bool → Bool) (n : FileNode) (l below : Location) : Prop where
  file : ∃ content, n.get? below = some (.file content)
  source : (Location.path (l ++ below)).isSource = true
  kept : out (l ++ below) false = false
  way : ∀ m : Location, m.Above below →
    (Location.path (l ++ m)).isHidden = false ∧ out (l ++ m) true = false

variable {out : Location → Bool → Bool} {l below : Location} {n : FileNode} {q : Path}

theorem found_file {content : FileContent} :
    Found out (.file content) l below ↔
      below = [] ∧ l.path.isSource = true ∧ out l false = false := by
  constructor
  · rintro ⟨⟨c, hc⟩, source, kept, -⟩
    cases below with
    | nil =>
      rw [List.append_nil] at source kept
      exact ⟨rfl, source, kept⟩
    | cons => cases hc
  · rintro ⟨rfl, source, kept⟩
    rw [← List.append_nil l] at source kept
    exact ⟨⟨content, rfl⟩, source, kept, fun m hm => absurd (List.prefix_nil.mp hm.1) hm.2⟩

theorem not_found_nil {es : FileEntries} : ¬ Found out (.directory es) l [] := by
  rintro ⟨⟨c, hc⟩, -⟩
  cases hc

/-- a file below an entry is found below its directory, if that is neither hidden nor left out -/
theorem found_cons {es : FileEntries} {s : Bytes} :
    Found out (.directory es) l (s :: below) ↔
      (l.path.isHidden = false ∧ out l true = false) ∧
        ∃ n, FileEntries.get? s es = some n ∧ Found out n (l ++ [s]) below := by
  constructor
  · rintro ⟨⟨c, hc⟩, source, kept, way⟩
    obtain ⟨n, hn, hc⟩ := Option.bind_eq_some_iff.mp hc
    have here := way [] (Location.Above.append (List.cons_ne_nil s below))
    rw [List.append_nil] at here
    rw [List.append_cons] at source kept
    refine ⟨here, n, hn, ⟨c, hc⟩, source, kept, fun m hm => ?_⟩
    rw [← List.append_cons]
    exact Location.forall_above_cons.mp (fun k _ hk => way k hk) m hm
  · rintro ⟨here, n, hn, ⟨c, hc⟩, source, kept, way⟩
    rw [← List.append_cons] at source kept
    have behind : ∀ m : Location, m ≠ [] → m.Above (s :: below) →
        (Location.path (l ++ m)).isHidden = false ∧ out (l ++ m) true = false := by
      refine Location.forall_above_cons.mpr fun k hk => ?_
      rw [List.append_cons]
      exact way k hk
    refine ⟨⟨c, Option.bind_eq_some_iff.mpr ⟨n, hn, hc⟩⟩, source, kept, fun m hm => ?_⟩
    rcases eq_or_ne m [] with rfl | hne
    · rw [List.append_nil]
      exact here
    · exact behind m hne hm

variable {behind : List Ancestor → Location → List Path}

mutual

/-- at a node without links, a walk lists the files that are found -/
theorem mem_node (ancestors : List Ancestor) (l : Location) :
    ∀ n : FileNode, n.Every IsOrdered → n.Every (fun n => n.isLink = false) →
      (q ∈ node out behind ancestors l l n ↔
        ∃ below, Found out n l below ∧ q = Location.path (l ++ below))
  | .file _, _, _ => by
    unfold node file
    simp only [found_file, and_assoc, exists_eq_left, List.append_nil]
    cases l.path.isSource <;> cases out l false <;> simp
  | .directory es, .directory ordered nodes, .directory _ plain => by
    have hes := mem_entries (⟨l.path, l⟩ :: ancestors) l es nodes plain
    unfold node inside
    constructor
    · intro h
      split at h
      · exact absurd h List.not_mem_nil
      · next here =>
        rw [Bool.not_eq_true, Bool.or_eq_false_iff] at here
        obtain ⟨e, he, below, hf, rfl⟩ := hes.mp h
        refine ⟨e.1 :: below, found_cons.mpr ⟨here, e.2, ?_, hf⟩, ?_⟩
        · exact FileEntries.get?_of_mem ordered.nodup he
        · exact congrArg Location.path (List.append_cons l e.1 below).symm
    · rintro ⟨below, hf, rfl⟩
      cases below with
      | nil => exact absurd hf not_found_nil
      | cons s below =>
        obtain ⟨here, n, hn, hf⟩ := found_cons.mp hf
        rw [here.1, here.2, if_neg (by decide)]
        exact hes.mpr ⟨(s, n), FileEntries.mem_of_get? hn, below, hf,
          congrArg Location.path (List.append_cons l s below)⟩
  | .link _, _, .link plain => by cases plain

theorem mem_entries (ancestors : List Ancestor) (l : Location) :
    ∀ es : List (Bytes × FileNode), (∀ e ∈ es, e.2.Every IsOrdered) →
      (∀ e ∈ es, e.2.Every fun n => n.isLink = false) →
      (q ∈ entries out behind ancestors l l es ↔
        ∃ e ∈ es, ∃ below, Found out e.2 (l ++ [e.1]) below ∧
          q = Location.path (l ++ [e.1] ++ below))
  | [], _, _ => by simp [entries]
  | e :: es, ordered, plain => by
    have first :=
      mem_entry ancestors l e (ordered e List.mem_cons_self) (plain e List.mem_cons_self)
    have rest := mem_entries ancestors l es (fun e he => ordered e (List.mem_cons_of_mem _ he))
      fun e he => plain e (List.mem_cons_of_mem _ he)
    rw [entries, List.mem_append, first, rest, List.exists_mem_cons_iff]

theorem mem_entry (ancestors : List Ancestor) (l : Location) :
    ∀ e : Bytes × FileNode, e.2.Every IsOrdered → e.2.Every (fun n => n.isLink = false) →
      (q ∈ entry out behind ancestors l l e ↔
        ∃ below, Found out e.2 (l ++ [e.1]) below ∧ q = Location.path (l ++ [e.1] ++ below))
  | (s, n), ordered, plain => mem_node ancestors (l ++ [s]) n ordered plain

end

end Walk

/-! ## the order of paths -/

/-- one path comes before another, name by name in the order of their bytes -/
def Path.Before (p q : Path) : Prop := p.segments < q.segments

theorem Path.before_of_lt {l : Location} {s t : Bytes} (h : s < t) (below other : Location) :
    Path.Before (Location.path (l ++ [s] ++ below)) (Location.path (l ++ [t] ++ other)) := by
  show l ++ [s] ++ below < l ++ [t] ++ other
  rw [List.append_assoc, List.append_assoc]
  exact List.append_left_lt (List.cons_lt_cons_iff.mpr (.inl h))

namespace Walk

variable {out : Location → Bool → Bool} {behind : List Ancestor → Location → List Path}

mutual

/-- at a node without links, a walk lists files in their order -/
theorem pairwise_node (ancestors : List Ancestor) (l : Location) :
    ∀ n : FileNode, n.Every IsOrdered → n.Every (fun n => n.isLink = false) →
      (node out behind ancestors l l n).Pairwise Path.Before
  | .file _, _, _ => by
    unfold node file
    split
    · exact List.pairwise_singleton _ _
    · exact .nil
  | .directory es, .directory ordered nodes, .directory _ plain => by
    unfold node inside
    split
    · exact .nil
    · exact pairwise_entries _ l es ordered.1 nodes plain
  | .link _, _, .link plain => by cases plain

theorem pairwise_entries (ancestors : List Ancestor) (l : Location) :
    ∀ es : List (Bytes × FileNode), (es.map Prod.fst).Pairwise (· < ·) →
      (∀ e ∈ es, e.2.Every IsOrdered) → (∀ e ∈ es, e.2.Every fun n => n.isLink = false) →
      (entries out behind ancestors l l es).Pairwise Path.Before
  | [], _, _, _ => .nil
  | e :: es, names, ordered, plain => by
    obtain ⟨he, hes⟩ := List.forall_mem_cons.mp ordered
    obtain ⟨pe, pes⟩ := List.forall_mem_cons.mp plain
    obtain ⟨first, names⟩ := List.pairwise_cons.mp names
    rw [entries, List.pairwise_append]
    refine ⟨pairwise_entry ancestors l e he pe, pairwise_entries ancestors l es names hes pes, ?_⟩
    intro p hp q hq
    obtain ⟨below, -, rfl⟩ := (mem_entry ancestors l e he pe).mp hp
    obtain ⟨d, hd, other, -, rfl⟩ := (mem_entries ancestors l es hes pes).mp hq
    exact Path.before_of_lt (first d.1 (List.mem_map_of_mem hd)) below other

theorem pairwise_entry (ancestors : List Ancestor) (l : Location) :
    ∀ e : Bytes × FileNode, e.2.Every IsOrdered → e.2.Every (fun n => n.isLink = false) →
      (entry out behind ancestors l l e).Pairwise Path.Before
  | (s, n), ordered, plain => pairwise_node ancestors (l ++ [s]) n ordered plain

end

variable {t : FileTree} {i : Location} {es : FileEntries}

/-- **The files of a walk without links.** -/
theorem mem_sources (w : t.WellFormed) (plain : t.LinkFree) (hd : t.get? i = some (.directory es))
    {q : Path} : q ∈ sources out t i ↔ ∃ below : Location, q = Location.path (i ++ below) ∧
      (∃ content, t.get? (i ++ below) = some (.file content)) ∧ q.isSource = true ∧
      out (i ++ below) false = false ∧ ∀ m : Location, m ≠ [] → m.Above below →
        (Location.path (i ++ m)).isHidden = false ∧ out (i ++ m) true = false := by
  obtain ⟨-, nodes⟩ := (Every.directory_iff).mp (w.get? hd)
  obtain ⟨-, links⟩ := (Every.directory_iff).mp (plain.get? hd)
  have below {s : Bytes} {n : FileNode} (hn : FileEntries.get? s es = some n) (m : Location) :
      t.get? (i ++ [s] ++ m) = n.get? m := by
    rw [FileTree.get?_append, FileTree.get?_snoc hd, hn]
    rfl
  unfold sources
  rw [hd]
  dsimp only
  -- the directory where the walk begins is never asked for, so its entries stand for it
  rw [mem_entries _ i es nodes links]
  constructor
  · rintro ⟨e, he, m, ⟨⟨content, hc⟩, source, kept, way⟩, rfl⟩
    have hn := FileEntries.get?_of_mem (w.get? hd).self.nodup he
    refine ⟨e.1 :: m, congrArg Location.path (List.append_cons i e.1 m).symm, ⟨content, ?_⟩,
      source, ?_, Location.forall_above_cons.mpr fun k hk => ?_⟩
    · rw [List.append_cons, below hn, hc]
    · rw [List.append_cons]
      exact kept
    · rw [List.append_cons]
      exact way k hk
  · rintro ⟨m, rfl, ⟨content, hc⟩, source, kept, way⟩
    cases m with
    | nil =>
      rw [List.append_nil, hd] at hc
      cases hc
    | cons s m =>
      rw [List.append_cons] at hc source kept ⊢
      obtain ⟨n, hn⟩ : ∃ n, FileEntries.get? s es = some n := by
        rw [FileTree.get?_append, FileTree.get?_snoc hd] at hc
        exact (Option.bind_eq_some_iff.mp hc).imp fun _ h => h.1
      refine ⟨(s, n), FileEntries.mem_of_get? hn, m,
        ⟨⟨content, (below hn m).symm.trans hc⟩, source, kept, fun k hk => ?_⟩, rfl⟩
      rw [← List.append_cons]
      exact Location.forall_above_cons.mp way k hk

theorem pairwise_sources (w : t.WellFormed) (plain : t.LinkFree) :
    (sources out t i).Pairwise Path.Before := by
  unfold sources
  split
  · next es hd =>
    obtain ⟨ordered, nodes⟩ := (Every.directory_iff).mp (w.get? hd)
    obtain ⟨-, links⟩ := (Every.directory_iff).mp (plain.get? hd)
    exact pairwise_entries _ i es ordered.1 nodes links
  · exact .nil

end Walk

/-! ## what inputs stand for -/

namespace Selector

/-- a file that an input stands for when it leads to `i`, which is not left out: the file there, or
a source below the directory there that is not left out, if no directory on the way is hidden or
left out -/
inductive StandsFor (c : Selector) (base i : Location) : Path → Prop
  | file : c.tree.isFile i.path = true → c.leavesOut base i false = false →
    StandsFor c base i i.path
  | source {below : Location} : c.tree.isDirectory i.path = true →
    c.leavesOut base i true = false →
    (∃ content, c.tree.get? (i ++ below) = some (.file content)) →
    (Location.path (i ++ below)).isSource = true → c.leavesOut base (i ++ below) false = false →
    (∀ m : Location, m ≠ [] → m.Above below →
      (Location.path (i ++ m)).isHidden = false ∧ c.leavesOut base (i ++ m) true = false) →
    StandsFor c base i (Location.path (i ++ below))

/-- an input that leads to a file or a directory below the base -/
def IsBelow (c : Selector) (base : Location) (input : Path) : Prop :=
  ∃ i, c.LeadsTo input i ∧ base <+: i ∧
    (c.tree.isFile i.path = true ∨ c.tree.isDirectory i.path = true)

variable {c : Selector} {base i : Location} {input : Path}

theorem mem_listing (w : c.tree.WellFormed) (plain : c.tree.LinkFree) (hi : c.LeadsTo input i)
    (hbi : base <+: i) (hn : c.tree.isFile i.path = true ∨ c.tree.isDirectory i.path = true)
    {q : Path} : q ∈ c.listing base input ↔ c.StandsFor base i q := by
  have stands := FileTree.stands_of_locate hi
  rw [listing_of_leadsTo hi, topOf_eq hbi]
  rcases hn with hf | hd
  · have hd := FileTree.isDirectory_of_isFile hf
    rw [hd, if_neg Bool.false_ne_true]
    constructor
    · intro h
      split at h
      · exact absurd h List.not_mem_nil
      · next hout =>
        rw [List.mem_singleton.mp h]
        exact .file hf (Bool.not_eq_true _ ▸ hout)
    · rintro (⟨-, hout⟩ | ⟨hd', -⟩)
      · rw [hout]
        exact List.mem_singleton.mpr rfl
      · rw [hd] at hd'
        cases hd'
  · obtain ⟨es, hes⟩ := FileTree.directory_of_isDirectory w stands hd
    rw [hd, if_pos rfl]
    constructor
    · intro h
      split at h
      · exact absurd h List.not_mem_nil
      · next hout =>
        obtain ⟨below, rfl, hc, source, kept, way⟩ := (Walk.mem_sources w plain hes).mp h
        exact .source hd (Bool.not_eq_true _ ▸ hout) hc source kept way
    · rintro (⟨hf, -⟩ | ⟨-, hout, hc, source, kept, way⟩)
      · rw [FileTree.isDirectory_of_isFile hf] at hd
        cases hd
      · rw [hout, if_neg Bool.false_ne_true]
        exact (Walk.mem_sources w plain hes).mpr ⟨_, rfl, hc, source, kept, way⟩

theorem pairwise_listing (w : c.tree.WellFormed) (plain : c.tree.LinkFree) :
    (c.listing base input).Pairwise Path.Before := by
  unfold listing
  split
  · exact .nil
  · split
    · exact .nil
    · split
      · exact Walk.pairwise_sources w plain
      · exact List.pairwise_singleton _ _

theorem IsBelow.apart {inputs : List Path} (h : ∀ input ∈ inputs, c.IsBelow base input) :
    c.Apart base inputs := by
  rintro - outer hout - - j - hj - -
  obtain ⟨i, hi, hbi, -⟩ := h outer hout
  exact hj.unique hi ▸ hbi

/-- a project in which one directory is ignored, and another one has an ignore file of its own -/
def sample : Selector where
  tree := ⟨[("p", .directory [
    (".gitignore", .file (.text "gen/\n")),
    ("a.py", .file (.text "")),
    ("gen", .directory [("x.py", .file (.text ""))]),
    ("pkg", .directory [
      (".gitignore", .file (.text "skip.py\n")),
      ("keep.py", .file (.text "")),
      ("skip.py", .file (.text ""))])])]⟩
  base := ⟨true, ["p"]⟩
  excludes := ["b.py"]

end Selector

end AnnotationAudit
