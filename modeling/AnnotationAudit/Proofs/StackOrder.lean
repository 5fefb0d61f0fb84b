import AnnotationAudit.Proofs.Tokens
import AnnotationAudit.Proofs.Machine

/-!
# The order of trees on the stack

The trees of the parser stand one right behind the other in the text, those below a tree inside of
it, and those on the way from one vertex of the stack to another between the two. Nothing lies
between them, since a tree begins with the blanks before it.

* `Tree.Ordered`        a tree lies behind its blanks, begins where its first child does, and has
                        its children one behind the other; `Tree.Between` says so of lists of trees;
* `Tree.Led`            a tree begins and ends with children of its production, not with extras;
* `Tree.Row`            trees in order, each with its children in its place unless it is a token;
* `Row.build`           trees that stand between two cursors may become one;
* `Stack.Ordered`       the tree of every link stands between the vertices that it links, and a
                        token that waits behind the vertex of its version;
* `Stack.Moves`         what becomes of a stack when a tree goes on top of a version;
* `Reaches.row`         the trees that a way down passes stand between its ends.
-/

namespace AnnotationAudit
namespace Python

open Text

/-! ## trees -/

namespace Tree

/-- if as many of the trees as `count` are no extras, the first is one of them -/
def LedBy (count : Nat) (ts : List Tree) : Prop :=
  ∀ t ∈ ts.head?, t.extra = true → (solid ts).length ≠ count

/-- the last of the trees is no extra -/
def Closed (ts : List Tree) : Prop := ∀ t ∈ ts.getLast?, t.extra = false

/-- a tree that has a child for each of its steps begins with one of these and ends with one, not
with an extra -/
def Led (t : Tree) : Prop :=
  t.info.steps ≠ [] → LedBy t.info.steps.length t.children ∧ Closed t.children

mutual

/-- the tree and the trees below it stand in order. Where a token is, unless it is missing, it has
been read. What is no token stands where its children do, except for text that was skipped. -/
inductive Ordered : Tree → Prop where
  | node {i : Info} {cs : List Tree} (start : i.before.Precedes i.start)
      (stop : i.start.Precedes i.stop) (first : ∀ c ∈ cs.head?, i.start = c.start)
      (token : cs = [] → i.absent = false → ∀ x : Terminal, i.symbol = .terminal x →
        x.IsRead i.before i.start i.stop)
      (children : cs ≠ [] → Between i.before cs i.stop)
      (inside : i.symbol ≠ .skipped → ∀ c ∈ cs, (∀ x, c.symbol ≠ .terminal x) →
        Between c.before c.children c.stop) : Ordered (.node i cs)

/-- the trees stand in order, one right behind the other, from one cursor to another -/
inductive Between : Cursor → List Tree → Cursor → Prop where
  | nil {c d : Cursor} (here : c = d) : Between c [] d
  | cons {c d : Cursor} {t : Tree} {ts : List Tree} (before : c = t.before)
      (ordered : Ordered t) (led : Led t) (rest : Between t.stop ts d) : Between c (t :: ts) d

end

/-- the children of a tree stand in its place, unless it is a token -/
def Opens (t : Tree) : Prop := (∀ x, t.symbol ≠ .terminal x) → Between t.before t.children t.stop

/-- trees in order from one cursor to another, each with its children in its place -/
structure Row (c : Cursor) (ts : List Tree) (d : Cursor) : Prop where
  between : Between c ts d
  opens : ∀ t ∈ ts, t.Opens

namespace Ordered

variable {t : Tree}

theorem start_precedes (h : t.Ordered) : t.before.Precedes t.start := by
  cases h with
  | node start => exact start

theorem stop_precedes (h : t.Ordered) : t.start.Precedes t.stop := by
  cases h with
  | node _ stop => exact stop

theorem precedes (h : t.Ordered) : t.before.Precedes t.stop :=
  h.start_precedes.trans h.stop_precedes

theorem children_between (h : t.Ordered) (ne : t.children ≠ []) :
    Between t.before t.children t.stop := by
  cases h with
  | node _ _ _ _ children => exact children ne

theorem opens_of_mem (h : t.Ordered) (other : t.symbol ≠ .skipped) :
    ∀ c ∈ t.children, c.Opens := by
  cases h with
  | node _ _ _ _ _ inside => exact inside other

end Ordered

namespace Between

variable {c d e : Cursor} {t : Tree} {ts us : List Tree}

theorem precedes (h : Between c ts d) : c.Precedes d := by
  induction ts generalizing c with
  | nil =>
    cases h with
    | nil here => exact here ▸ .refl c
  | cons t ts ih =>
    cases h with
    | cons before ordered led rest => exact (before ▸ ordered.precedes).trans (ih rest)

theorem append (h : Between c ts d) (h' : Between d us e) : Between c (ts ++ us) e := by
  induction ts generalizing c with
  | nil =>
    cases h with
    | nil here => exact here ▸ h'
  | cons t ts ih =>
    cases h with
    | cons before ordered led rest => exact .cons before ordered led (ih rest)

theorem of_append (h : Between c (ts ++ us) d) : ∃ e, Between c ts e ∧ Between e us d := by
  induction ts generalizing c with
  | nil => exact ⟨c, .nil rfl, h⟩
  | cons t ts ih =>
    cases h with
    | cons before ordered led rest =>
      obtain ⟨e, hts, hus⟩ := ih rest
      exact ⟨e, .cons before ordered led hts, hus⟩

theorem single (ordered : t.Ordered) (led : t.Led) : Between t.before [t] t.stop :=
  .cons rfl ordered led (.nil rfl)

theorem of_mem (h : Between c ts d) (ht : t ∈ ts) :
    c.Precedes t.before ∧ t.Ordered ∧ t.Led := by
  induction ts generalizing c with
  | nil => exact absurd ht List.not_mem_nil
  | cons u ts ih =>
    cases h with
    | cons before ordered led rest =>
      rcases List.mem_cons.mp ht with rfl | ht
      · exact ⟨before ▸ .refl c, ordered, led⟩
      · exact (ih rest ht).imp_left (before ▸ ordered.precedes).trans

theorem getLast (h : Between c (t :: ts) d) :
    ∃ l, (t :: ts).getLast? = some l ∧ l.stop = d := by
  induction ts generalizing c t with
  | nil =>
    cases h with
    | cons before ordered led rest =>
      cases rest with
      | nil here => exact ⟨t, rfl, here⟩
  | cons u ts ih =>
    cases h with
    | cons before ordered led rest =>
      obtain ⟨l, hl, stop⟩ := ih rest
      exact ⟨l, by rw [List.getLast?_cons_cons, hl], stop⟩

end Between

namespace Row

variable {c d e : Cursor} {t : Tree} {ts us : List Tree}

theorem nil (c : Cursor) : Row c [] c := ⟨.nil rfl, nofun⟩

theorem single (ordered : t.Ordered) (led : t.Led) (opens : t.Opens) :
    Row t.before [t] t.stop := ⟨.single ordered led, List.forall_mem_singleton.mpr opens⟩

theorem append (h : Row c ts d) (h' : Row d us e) : Row c (ts ++ us) e :=
  ⟨h.between.append h'.between, List.forall_mem_append.mpr ⟨h.opens, h'.opens⟩⟩

theorem of_append (h : Row c (ts ++ us) d) : ∃ e, Row c ts e ∧ Row e us d := by
  obtain ⟨e, hts, hus⟩ := h.between.of_append
  obtain ⟨opens, opens'⟩ := List.forall_mem_append.mp h.opens
  exact ⟨e, ⟨hts, opens⟩, ⟨hus, opens'⟩⟩

theorem eq_of_nil (h : Row c [] d) : c = d := by
  cases h.between with
  | nil here => exact here

theorem head (h : Row c (t :: ts) d) : Row c [t] t.stop := by
  obtain ⟨between, opens⟩ := h
  cases between with
  | cons before ordered led rest =>
    rw [before]
    exact .single ordered led (opens t List.mem_cons_self)

theorem tail (h : Row c (t :: ts) d) : Row t.stop ts d := by
  obtain ⟨between, opens⟩ := h
  cases between with
  | cons before ordered led rest => exact ⟨rest, (List.forall_mem_cons.mp opens).2⟩

end Row

/-! ## trees that are made -/

theorem ordered_leaf {t : Token} (h : t.Stands) (extra : Bool) : (leaf t extra).Ordered := by
  refine .node h.start h.stop nofun (fun _ _ x hx => h.read x ?_) (fun ne => absurd rfl ne)
    fun _ _ hc => absurd hc List.not_mem_nil
  cases ht : t.symbol with
  | none =>
    rw [ht] at hx
    cases hx
  | some y =>
    rw [ht] at hx
    cases hx
    rfl

theorem led_of_steps {t : Tree} (h : t.info.steps = []) : t.Led := fun ne => absurd h ne

theorem between_leaf {t : Token} (h : t.Stands) (extra : Bool) :
    Between t.before [leaf t extra] t.stop :=
  .single (t := leaf t extra) (ordered_leaf h extra) (led_of_steps rfl)

theorem symbol_leaf {t : Token} {x : Terminal} (h : t.symbol = some x) (extra : Bool) :
    (leaf t extra).symbol = .terminal x := by
  obtain ⟨symbol, before, start, stop, layout, layoutChanged⟩ := t
  obtain rfl : symbol = some x := h
  rfl

theorem Row.leaf {t : Token} (h : t.Stands) (known : t.symbol.isSome = true) (extra : Bool) :
    Row t.before [Tree.leaf t extra] t.stop := by
  obtain ⟨x, hx⟩ := Option.isSome_iff_exists.mp known
  refine ⟨between_leaf h extra, List.forall_mem_singleton.mpr fun other => ?_⟩
  exact absurd (symbol_leaf hx extra) (other x)

theorem row_missing (x : Terminal) (c : Cursor) : Row c [missing x c] c :=
  .single (t := missing x c) (.node (.refl c) (.refl c) nofun (fun _ present => nomatch present)
    (fun ne => absurd rfl ne) fun _ _ hc => absurd hc List.not_mem_nil) (led_of_steps rfl)
    fun other => absurd rfl (other x)

theorem row_build_nil {symbol : Symbol} (hs : ∀ x, symbol ≠ .terminal x) {steps : List Step}
    (led : steps ≠ [] → LedBy steps.length [] ∧ Closed []) (extra : Bool) (c : Cursor) :
    Row c [build symbol steps extra c []] c :=
  .single (t := build symbol steps extra c []) (.node (.refl c) (.refl c) nofun
    (fun _ _ x hx => absurd hx (hs x)) (fun ne => absurd rfl ne)
    fun _ _ hc => absurd hc List.not_mem_nil) led fun _ => .nil rfl

theorem row_wreck_nil (extra : Bool) (c : Cursor) : Row c [wreck extra c []] c :=
  have symbol : ∀ x, Symbol.error ≠ .terminal x := nofun
  row_build_nil symbol (fun ne => absurd rfl ne) extra c

theorem stop_build {ts : List Tree} {l : Tree} (hl : ts.getLast? = some l) (symbol : Symbol)
    (steps : List Step) (extra : Bool) (c : Cursor) :
    (build symbol steps extra c ts).stop = l.stop := by
  show ((ts.getLast?).map Tree.stop).getD c = l.stop
  rw [hl]
  rfl

theorem Between.ordered_build {c d : Cursor} {t : Tree} {ts : List Tree} (h : Between c (t :: ts) d)
    {symbol : Symbol} (inside : symbol ≠ .skipped → ∀ u ∈ t :: ts, u.Opens) (steps : List Step)
    (extra : Bool) (c' : Cursor) :
    (Tree.build symbol steps extra c' (t :: ts)).Ordered ∧ c = t.before ∧
      (Tree.build symbol steps extra c' (t :: ts)).stop = d := by
  obtain ⟨l, hl, rfl⟩ := h.getLast
  have stop := stop_build hl symbol steps extra c'
  rw [← stop] at h ⊢
  cases h with
  | cons before ordered led rest =>
    refine ⟨.node ordered.start_precedes ?_ (fun u hu => ?_) nofun (fun _ => ?_) inside, before,
      rfl⟩
    · exact ordered.stop_precedes.trans rest.precedes
    · exact Option.some.inj hu ▸ rfl
    · exact .cons rfl ordered led rest

theorem Between.build_cons {c d : Cursor} {t : Tree} {ts : List Tree} (h : Between c (t :: ts) d)
    {symbol : Symbol} (inside : symbol ≠ .skipped → ∀ u ∈ t :: ts, u.Opens) {steps : List Step}
    (led : steps ≠ [] → LedBy steps.length (t :: ts) ∧ Closed (t :: ts)) (extra : Bool)
    (c' : Cursor) : Row c [Tree.build symbol steps extra c' (t :: ts)] d := by
  obtain ⟨ordered, rfl, rfl⟩ := h.ordered_build inside steps extra c'
  exact .single (t := Tree.build symbol steps extra c' (t :: ts)) ordered led fun _ => h

theorem Between.skipped {c d : Cursor} {t : Tree} {ts : List Tree} (h : Between c (t :: ts) d)
    (c' : Cursor) : Row c [Tree.skipped c' (t :: ts)] d :=
  have free : Symbol.skipped ≠ .skipped → ∀ u ∈ t :: ts, u.Opens := fun ne => absurd rfl ne
  h.build_cons free (fun ne => absurd rfl ne) false c'

/-- **Trees between two cursors may become one**, with those behind them left as they are. -/
theorem Row.build {c d : Cursor} {ts us : List Tree} (h : Row c (ts ++ us) d)
    {symbol : Symbol} (hs : ∀ x, symbol ≠ .terminal x) {steps : List Step} {extra : Bool}
    {c' : Cursor} (nil : ts = [] → c' = c)
    (led : steps ≠ [] → LedBy steps.length ts ∧ Closed ts) :
    Row c (Tree.build symbol steps extra c' ts :: us) d := by
  obtain ⟨e, hts, hus⟩ := h.of_append
  have one : Row c [Tree.build symbol steps extra c' ts] e := by
    cases ts with
    | nil =>
      obtain rfl := nil rfl
      cases hts.between with
      | nil here => exact here ▸ row_build_nil hs led extra _
    | cons t ts => exact hts.between.build_cons (fun _ => hts.opens) led extra c'
  exact one.append hus

theorem Row.wreck {c d : Cursor} {ts us : List Tree} (h : Row c (ts ++ us) d)
    (extra : Bool) : Row c (Tree.wreck extra c ts :: us) d :=
  have symbol : ∀ x, Symbol.error ≠ .terminal x := nofun
  h.build symbol (fun _ => rfl) fun none => absurd rfl none

theorem Row.addWeight {c d : Cursor} {t : Tree} {ts : List Tree} (h : Row c (t :: ts) d)
    (w : Int) : Row c (t.addWeight w :: ts) d := by
  obtain ⟨between, opens⟩ := h
  obtain ⟨first, others⟩ := List.forall_mem_cons.mp opens
  cases between with
  | cons before ordered led rest =>
    cases ordered with
    | node start stop head token children inside =>
      refine ⟨?_, List.forall_mem_cons.mpr ⟨first, others⟩⟩
      exact .cons before (.node start stop head token children inside) led rest

theorem LedBy.splitTrailing {count : Nat} {ts : List Tree} (h : LedBy count ts) :
    LedBy count (Tree.splitTrailing ts).1 := by
  obtain ⟨split, extras⟩ := Machine.splitTrailing_spec ts
  intro t ht extra
  have head : t ∈ ts.head? := by
    rw [← split, List.head?_append, Option.mem_def.mp ht]
    rfl
  have solid : solid (Tree.splitTrailing ts).1 = solid ts := by
    rw [← congrArg Tree.solid split, solid_append, solid_eq_nil extras, List.append_nil]
  rw [solid]
  exact h t head extra

theorem closed_splitTrailing (ts : List Tree) : Closed (Tree.splitTrailing ts).1 := by
  intro t ht
  have last : t ∈ (ts.reverse.dropWhile Tree.extra).reverse.getLast? := ht
  rw [List.getLast?_reverse] at last
  have solid := List.head?_dropWhile_not (p := Tree.extra) ts.reverse
  rw [Option.mem_def.mp last] at solid
  simpa using solid

end Tree

/-! ## stacks -/

/-- the vertex of a version, and how it stands -/
def Version.seat (x : Version) : Nat × Status := (x.vertex, x.status)

namespace Stack

open Python.Tree

/-- a version stands at a vertex that there is, and a token for which it waits behind that vertex -/
structure Admits (s : Stack) (x : Nat × Status) : Prop where
  lt_size : x.1 < s.vertices.size
  waiting : ∀ t, x.2 = .paused t → t.Stands ∧ (s.vertex x.1).cursor = t.before

/-- what holds of the stack of a text at all times -/
structure Ordered (text : List Char) (s : Stack) : Prop where
  pos : 0 < s.vertices.size
  versions : ∀ x ∈ s.versions, s.Admits x.seat
  isIn : ∀ i < s.vertices.size, (s.vertex i).cursor.IsIn text
  links : ∀ i, ∀ l ∈ (s.vertex i).links, l.vertex < s.vertices.size ∧
    Row (s.vertex l.vertex).cursor l.tree.toList (s.vertex i).cursor

/-- a link may hang below a vertex at the cursor -/
def Links (s : Stack) (c : Cursor) (l : Link) : Prop :=
  l.vertex < s.vertices.size ∧ Row (s.vertex l.vertex).cursor l.tree.toList c

/-- later stacks have more vertices, and the same cursors in those that there were -/
structure Widens (s s' : Stack) : Prop where
  size_le : s.vertices.size ≤ s'.vertices.size
  cursor : ∀ i < s.vertices.size, (s'.vertex i).cursor = (s.vertex i).cursor

namespace Widens

variable {s s' s'' : Stack}

theorem refl (s : Stack) : s.Widens s := ⟨Nat.le_refl _, fun _ _ => rfl⟩

theorem trans (h : s.Widens s') (h' : s'.Widens s'') : s.Widens s'' where
  size_le := Nat.le_trans h.size_le h'.size_le
  cursor i hi := by rw [h'.cursor i (Nat.lt_of_lt_of_le hi h.size_le), h.cursor i hi]

theorem of_vertices (h : s'.vertices = s.vertices) : s.Widens s' :=
  ⟨Nat.le_of_eq (congrArg Array.size h.symm), fun i _ => by rw [vertex, vertex, h]⟩

theorem admits (h : s.Widens s') {x : Nat × Status} (hx : s.Admits x) : s'.Admits x where
  lt_size := Nat.lt_of_lt_of_le hx.lt_size h.size_le
  waiting t ht := by
    rw [h.cursor _ hx.lt_size]
    exact hx.waiting t ht

theorem links (h : s.Widens s') {c : Cursor} {l : Link} (hl : s.Links c l) : s'.Links c l := by
  refine ⟨Nat.lt_of_lt_of_le hl.1 h.size_le, ?_⟩
  rw [h.cursor _ hl.1]
  exact hl.2

end Widens

variable {text : List Char} {s : Stack}

theorem vertex_of_size_le {i : Nat} (h : s.vertices.size ≤ i) : s.vertex i = default := by
  rw [vertex, Array.getElem?_eq_none h]
  rfl

theorem version_of_size_le {v : Nat} (h : s.size ≤ v) : s.version v = default := by
  rw [version, Array.getElem?_eq_none h]
  rfl

theorem mem_versions {v : Nat} (h : v < s.size) : s.version v ∈ s.versions := by
  have hv : s.versions[v]? = some (s.version v) := by
    rw [version, Array.getElem?_eq_getElem h]
    rfl
  exact Array.mem_of_getElem? hv

theorem Ordered.admits (h : s.Ordered text) (v : Nat) : s.Admits (s.version v).seat := by
  by_cases hv : v < s.size
  · exact h.versions _ (mem_versions hv)
  · rw [version_of_size_le (Nat.le_of_not_lt hv)]
    exact ⟨h.pos, nofun⟩

theorem Ordered.vertex_lt (h : s.Ordered text) (v : Nat) :
    (s.version v).vertex < s.vertices.size := (h.admits v).lt_size

theorem Ordered.cursor_isIn (h : s.Ordered text) (v : Nat) : (s.cursor v).IsIn text :=
  h.isIn _ (h.vertex_lt v)

/-! ## changing versions -/

theorem Ordered.ofVersions (h : s.Ordered text) {vs : Array Version}
    (hv : ∀ x ∈ vs, s.Admits x.seat) : ({ s with versions := vs } : Stack).Ordered text :=
  ⟨h.pos, fun x hx => ⟨(hv x hx).lt_size, (hv x hx).waiting⟩, h.isIn, h.links⟩

theorem Ordered.setVersion (h : s.Ordered text) {v : Nat} {f : Version → Version}
    (hf : ∀ x ∈ s.versions, s.Admits (f x).seat) : (s.setVersion v f).Ordered text :=
  h.ofVersions fun x hx => by
    rcases mem_modify hx with hx | ⟨y, hy, rfl⟩
    · exact h.versions x hx
    · exact hf y hy

theorem Ordered.setVersion_of_seat (h : s.Ordered text) {v : Nat} {f : Version → Version}
    (hf : ∀ x, (f x).seat = x.seat) : (s.setVersion v f).Ordered text :=
  h.setVersion fun x hx => by
    rw [hf]
    exact h.versions x hx

theorem Admits.of_status {x : Nat × Status} {i : Nat} {y : Status} (h : s.Admits x)
    (hi : i = x.1) (hy : y.isPaused = false) : s.Admits (i, y) := by
  refine ⟨hi ▸ h.lt_size, fun t ht => ?_⟩
  obtain rfl : y = .paused t := ht
  cases hy

theorem Ordered.halt (h : s.Ordered text) (v : Nat) : (s.halt v).Ordered text :=
  h.setVersion fun x hx => (h.versions x hx).of_status rfl rfl

theorem Ordered.resume (h : s.Ordered text) (v : Nat) : (s.resume v).Ordered text :=
  h.setVersion fun x hx => (h.versions x hx).of_status rfl rfl

theorem Ordered.pause (h : s.Ordered text) {v : Nat} {t : Token} (ht : t.Stands)
    (hv : s.cursor v = t.before) : (s.pause v t).Ordered text := by
  refine h.ofVersions fun x hx => ?_
  obtain ⟨j, hj⟩ := Array.mem_iff_getElem?.mp hx
  rw [Array.getElem?_modify] at hj
  split at hj
  · next same =>
    subst same
    obtain ⟨y, hy, rfl⟩ := Option.map_eq_some_iff.mp hj
    have here : s.version v = y := by
      rw [version, hy]
      rfl
    refine ⟨(h.versions y (Array.mem_of_getElem? hy)).lt_size, fun u hu => ?_⟩
    obtain rfl : t = u := Status.paused.inj hu
    exact ⟨ht, here ▸ hv⟩
  · exact h.versions x (Array.mem_of_getElem? hj)

theorem Ordered.remove (h : s.Ordered text) (v : Nat) : (s.remove v).Ordered text :=
  h.ofVersions fun x hx => h.versions x <| by
    rw [← Array.mem_toList_iff, Array.toList_eraseIdxIfInBounds] at hx
    exact Array.mem_toList_iff.mp (List.mem_of_mem_eraseIdx hx)

theorem Ordered.takeVersions (h : s.Ordered text) (n : Nat) :
    ({ s with versions := s.versions.take n } : Stack).Ordered text :=
  h.ofVersions fun x hx => h.versions x <| by
    obtain ⟨i, -, rfl⟩ := Array.mem_extract_iff_getElem.mp hx
    exact Array.getElem_mem _

theorem Ordered.swap (h : s.Ordered text) (v w : Nat) : (s.swap v w).Ordered text :=
  h.ofVersions fun x hx => h.versions x <| by
    rw [Array.swapIfInBounds_def] at hx
    split at hx
    · split at hx
      · exact (Array.swap_perm _ _).mem_iff.mp hx
      · exact hx
    · exact hx

theorem Ordered.copy (h : s.Ordered text) (v : Nat) : (s.copy v).Ordered text :=
  h.ofVersions fun x hx => by
    rcases Array.mem_push.mp hx with hx | rfl
    · exact h.versions x hx
    · exact h.admits v

theorem Ordered.renumber (h : s.Ordered text) (v w : Nat) : (s.renumber v w).Ordered text := by
  rw [Stack.renumber]
  split
  · exact h
  · refine Ordered.remove (h.setVersion ?_) v
    exact fun _ _ => h.admits v

/-! ## the versions that are there -/

theorem seat_setVersion {f : Version → Version} (hf : ∀ x, (f x).seat = x.seat) (v w : Nat) :
    ((s.setVersion w f).version v).seat = (s.version v).seat := by
  show ((s.versions.modify w f)[v]?.getD default).seat = (s.versions[v]?.getD default).seat
  rw [Array.getElem?_modify]
  split
  · cases s.versions[v]? with
    | none => rfl
    | some x => exact hf x
  · rfl

theorem version_setVersion_ne {v w : Nat} (h : v ≠ w) (f : Version → Version) :
    (s.setVersion w f).version v = s.version v := by
  show (s.versions.modify w f)[v]?.getD default = _
  rw [Array.getElem?_modify, if_neg (Ne.symm h)]
  rfl

theorem version_setVersion_self {v : Nat} (h : v < s.size) (f : Version → Version) :
    (s.setVersion v f).version v = f (s.version v) := by
  show (s.versions.modify v f)[v]?.getD default = f (s.versions[v]?.getD default)
  rw [Array.getElem?_modify, if_pos rfl, Array.getElem?_eq_getElem h]
  rfl

theorem size_setVersion (s : Stack) (v : Nat) (f : Version → Version) :
    (s.setVersion v f).size = s.size := Array.size_modify

theorem version_remove (s : Stack) (v w : Nat) :
    (s.remove w).version v = s.version (if v < w then v else v + 1) := by
  have list : (s.versions.eraseIdxIfInBounds w)[v]? = (s.versions.toList.eraseIdx w)[v]? := by
    rw [← Array.getElem?_toList, Array.toList_eraseIdxIfInBounds]
  show (s.versions.eraseIdxIfInBounds w)[v]?.getD default = _
  rw [list, List.getElem?_eraseIdx]
  split <;> rw [Array.getElem?_toList] <;> rfl

theorem size_remove (s : Stack) (w : Nat) :
    (s.remove w).size = if w < s.size then s.size - 1 else s.size := by
  show (s.versions.eraseIdxIfInBounds w).size = _
  rw [← Array.length_toList, Array.toList_eraseIdxIfInBounds, List.length_eraseIdx,
    Array.length_toList]
  rfl

theorem version_copy {v w : Nat} (h : w < s.size) : (s.copy v).version w = s.version w := by
  have ne : w ≠ s.versions.size := Nat.ne_of_lt h
  show (s.versions.push _)[w]?.getD default = _
  rw [Array.getElem?_push, if_neg ne]
  rfl

theorem version_copy_size (s : Stack) (v : Nat) :
    (s.copy v).version s.size = { s.version v with landmarks := none } := by
  show (s.versions.push _)[s.versions.size]?.getD default = _
  rw [Array.getElem?_push_size]
  rfl

theorem size_copy (s : Stack) (v : Nat) : (s.copy v).size = s.size + 1 := Array.size_push _

/-! ## pushing -/

theorem vertex_addVertex (s : Stack) (y : Vertex) (i : Nat) :
    ({ s with vertices := s.vertices.push y } : Stack).vertex i =
      if i = s.vertices.size then y else s.vertex i := by
  rw [vertex, Array.getElem?_push]
  split
  · rfl
  · rfl

theorem widens_addVertex (s : Stack) (y : Vertex) :
    s.Widens { s with vertices := s.vertices.push y } where
  size_le := by simp
  cursor i hi := by rw [vertex_addVertex, if_neg (Nat.ne_of_lt hi)]

theorem Ordered.addVertex (h : s.Ordered text) {y : Vertex} (hy : y.cursor.IsIn text)
    (links : ∀ l ∈ y.links, s.Links y.cursor l) :
    ({ s with vertices := s.vertices.push y } : Stack).Ordered text := by
  have wide := widens_addVertex s y
  refine ⟨Nat.lt_of_lt_of_le h.pos wide.size_le, fun x hx => wide.admits (h.versions x hx), ?_, ?_⟩
  · intro i hi
    rw [vertex_addVertex]
    split
    · exact hy
    · next ne =>
      have hi : i < (s.vertices.push y).size := hi
      rw [Array.size_push] at hi
      exact h.isIn i (by omega)
  · intro i l hl
    refine wide.links (l := l) ?_
    rw [vertex_addVertex] at hl ⊢
    by_cases last : i = s.vertices.size
    · rw [if_pos last] at hl ⊢
      exact links l hl
    · rw [if_neg last] at hl ⊢
      exact h.links i l hl

/-- what becomes of a stack when version `v` moves on to a new vertex -/
structure Moves (text : List Char) (s : Stack) (v : Nat) (y : Vertex) (s' : Stack) : Prop where
  ordered : s'.Ordered text
  widens : s.Widens s'
  size : s'.size = s.size
  other : ∀ w, w ≠ v → (s'.version w).seat = (s.version w).seat
  status : s'.status v = s.status v
  cursor : v < s.size → s'.cursor v = y.cursor

theorem Ordered.moveTo (h : s.Ordered text) {v : Nat} {y : Vertex} (hy : y.cursor.IsIn text)
    (links : ∀ l ∈ y.links, s.Links y.cursor l)
    (waiting : (s.status v).isPaused = false ∨ y.cursor = s.cursor v) {f : Version → Version}
    (hf : ∀ x, (f x).seat = (s.vertices.size, x.status)) :
    Moves text s v y
      { s with vertices := s.vertices.push y, versions := s.versions.modify v f } := by
  let t : Stack := { s with vertices := s.vertices.push y }
  have ordered : t.Ordered text := h.addVertex hy links
  have wide : s.Widens t := widens_addVertex s y
  have last : t.vertex s.vertices.size = y := by
    show ({ s with vertices := s.vertices.push y } : Stack).vertex s.vertices.size = y
    rw [vertex_addVertex, if_pos rfl]
  refine ⟨?_, wide.trans (.of_vertices rfl), size_setVersion s v f, fun w hw => ?_, ?_,
    fun hv => ?_⟩
  · refine ordered.ofVersions fun x hx => ?_
    obtain ⟨j, hj⟩ := Array.mem_iff_getElem?.mp hx
    rw [Array.getElem?_modify] at hj
    split at hj
    · next same =>
      subst same
      obtain ⟨z, hz, rfl⟩ := Option.map_eq_some_iff.mp hj
      obtain rfl : s.version v = z := by
        rw [version, hz]
        rfl
      rw [hf]
      refine ⟨by simp [t], fun u hu => ?_⟩
      have hu : (s.version v).status = .paused u := hu
      rcases waiting with active | same
      · rw [status, hu] at active
        cases active
      · obtain ⟨stands, behind⟩ := (h.admits v).waiting u hu
        refine ⟨stands, ?_⟩
        rw [show ((s.vertices.size, (s.version v).status) : Nat × Status).1 = s.vertices.size
          from rfl, last, same]
        exact behind
    · exact wide.admits (h.versions x (Array.mem_of_getElem? hj))
  · exact congrArg Version.seat (version_setVersion_ne hw f)
  · by_cases hv : v < s.size
    · have moved := version_setVersion_self hv f
      show ((s.setVersion v f).version v).status = _
      rw [moved]
      exact congrArg Prod.snd (hf (s.version v))
    · have out : (s.setVersion v f).size ≤ v := by
        rw [size_setVersion]
        exact Nat.le_of_not_lt hv
      show ((s.setVersion v f).version v).status = (s.version v).status
      rw [version_of_size_le out, version_of_size_le (Nat.le_of_not_lt hv)]
  · have moved : ((s.setVersion v f).version v).vertex = s.vertices.size := by
      rw [version_setVersion_self hv]
      exact congrArg Prod.fst (hf (s.version v))
    show (t.vertex ((s.setVersion v f).version v).vertex).cursor = _
    rw [moved, last]

/-- a tree that stands at the cursor of a version goes on top of it; if the version waits, it
has to stay where it is -/
theorem Ordered.push_some (h : s.Ordered text) {v : Nat} {t : Tree}
    (waiting : (s.status v).isPaused = false ∨ t.stop = s.cursor v)
    (row : Row (s.cursor v) [t] t.stop) (q : Nat) :
    ∃ y, y.cursor = t.stop ∧ Moves text s v y (s.push v (some t) q) := by
  refine ⟨_, rfl, h.moveTo ?_ (fun l hl => ?_) waiting fun _ => rfl⟩
  · exact (h.cursor_isIn v).trans row.between.precedes
  · obtain rfl := List.mem_singleton.mp hl
    exact ⟨h.vertex_lt v, row⟩

theorem Ordered.push_none (h : s.Ordered text) (v q : Nat) :
    ∃ y, y.cursor = s.cursor v ∧ Moves text s v y (s.push v none q) := by
  let y : Vertex := { s.top v with state := q, links := [⟨(s.version v).vertex, none⟩] }
  have here : y.cursor.IsIn text := h.cursor_isIn v
  refine ⟨y, rfl, h.moveTo here (fun l hl => ?_) (.inr rfl) fun _ => rfl⟩
  obtain rfl := List.mem_singleton.mp hl
  exact ⟨h.vertex_lt v, .nil _⟩

theorem Ordered.clear (h : s.Ordered text) {v : Nat} (active : (s.status v).isPaused = false)
    {c : Cursor} (hc : c.IsIn text) : ∃ y, Moves text s v y (s.clear v c) :=
  ⟨_, h.moveTo hc (fun _ hl => absurd hl List.not_mem_nil) (.inl active) fun _ => rfl⟩

/-! ## merging -/

theorem widens_setVertex {i : Nat} {f : Vertex → Vertex} (hf : ∀ x, (f x).cursor = x.cursor) :
    s.Widens { s with vertices := s.vertices.modify i f } where
  size_le := by simp
  cursor j _ := by
    rw [vertex, vertex, Array.getElem?_modify]
    split
    · cases s.vertices[j]? with
      | none => rfl
      | some x => exact hf x
    · rfl

theorem Ordered.setVertex (h : s.Ordered text) {i : Nat} {f : Vertex → Vertex}
    (hf : ∀ x, (f x).cursor = x.cursor)
    (links : ∀ l ∈ (f (s.vertex i)).links, l ∈ (s.vertex i).links ∨
      s.Links (s.vertex i).cursor l) :
    ({ s with vertices := s.vertices.modify i f } : Stack).Ordered text := by
  have wide : s.Widens { s with vertices := s.vertices.modify i f } := widens_setVertex hf
  have size : (s.vertices.modify i f).size = s.vertices.size := Array.size_modify
  refine ⟨Nat.lt_of_lt_of_le h.pos wide.size_le, fun x hx => wide.admits (h.versions x hx),
    fun j hj => ?_, fun j l hl => ?_⟩
  · have hj : j < s.vertices.size := size ▸ hj
    rw [wide.cursor j hj]
    exact h.isIn j hj
  · by_cases hj : j < s.vertices.size
    · rw [wide.cursor j hj]
      refine wide.links ?_
      rw [vertex, Array.getElem?_modify] at hl
      split at hl
      · next same =>
        subst same
        rw [getElem?_of_lt hj] at hl
        exact (links l hl).elim (h.links i l) id
      · exact h.links j l hl
    · rw [vertex_of_size_le (by rw [size]; exact Nat.le_of_not_lt hj)] at hl
      exact absurd hl List.not_mem_nil

theorem Ordered.foldl_addLink {add : Stack → Nat → Link → Stack}
    (one : ∀ {s : Stack} {i l}, s.Ordered text → i < s.vertices.size →
      s.Links (s.vertex i).cursor l → (add s i l).Ordered text ∧ s.Widens (add s i l))
    (h : s.Ordered text) {i : Nat} (hi : i < s.vertices.size) {ls : List Link}
    (hl : ∀ l ∈ ls, s.Links (s.vertex i).cursor l) :
    (ls.foldl (fun s l => add s i l) s).Ordered text ∧
      s.Widens (ls.foldl (fun s l => add s i l) s) := by
  induction ls generalizing s with
  | nil => exact ⟨h, .refl s⟩
  | cons l ls ih =>
    obtain ⟨hs, wide⟩ := one h hi (hl l List.mem_cons_self)
    obtain ⟨hs', wide'⟩ := ih hs (Nat.lt_of_lt_of_le hi wide.size_le) fun n hn => by
      rw [wide.cursor i hi]
      exact wide.links (hl n (List.mem_cons_of_mem _ hn))
    exact ⟨hs', wide.trans wide'⟩

theorem Ordered.links_of_offset (h : s.Ordered text) {i j : Nat} (hi : i < s.vertices.size)
    (hj : j < s.vertices.size) (same : (s.vertex i).cursor.offset = (s.vertex j).cursor.offset) :
    ∀ l ∈ (s.vertex j).links, s.Links (s.vertex i).cursor l := by
  rw [(h.isIn i hi).eq_of_offset (h.isIn j hj) same]
  exact h.links j

theorem Ordered.addLink (fuel : Nat) (h : s.Ordered text) {i : Nat} {l : Link}
    (hi : i < s.vertices.size) (hl : s.Links (s.vertex i).cursor l) :
    (Stack.addLink fuel s i l).Ordered text ∧ s.Widens (Stack.addLink fuel s i l) := by
  induction fuel generalizing s i l with
  | zero => exact ⟨h, .refl s⟩
  | succ fuel ih =>
    have stay : s.Ordered text ∧ s.Widens s := ⟨h, .refl s⟩
    rw [Stack.addLink]
    split
    · exact stay
    · simp only
      split
      · next k m hm =>
        obtain ⟨hm, same⟩ := of_findLink hm
        split
        · have replaced : ({ s with vertices := s.vertices.modify i fun x =>
              { x with links := x.links.set k l, weight := (s.viaLink l).2 } } : Stack).Ordered
                text :=
            h.setVertex (fun _ => rfl) fun n hn => by
              rcases List.mem_or_eq_of_mem_set hn with hn | rfl
              · exact .inl hn
              · exact .inr hl
          have wide : s.Widens { s with vertices := s.vertices.modify i fun x =>
              { x with links := x.links.set k l, weight := (s.viaLink l).2 } } :=
            widens_setVertex fun _ => rfl
          repeat' split
          all_goals first | exact ⟨replaced, wide⟩ | exact stay
        · next hne =>
          -- the two vertices below are at the same place, and all ways down are the other's
          have below := (h.links i m hm).1
          have offset := offset_of_sameVertex (same.resolve_left (by simpa using hne))
          obtain ⟨hs, wide⟩ := Ordered.foldl_addLink (fun h hi hl => ih h hi hl) h below
            (h.links_of_offset below hl.1 offset)
          exact ⟨hs.setVertex (fun _ => rfl) fun n hn => .inl hn,
            wide.trans (widens_setVertex fun _ => rfl)⟩
      · split
        · exact stay
        · refine ⟨h.setVertex (fun _ => rfl) fun n hn => ?_, widens_setVertex fun _ => rfl⟩
          rcases List.mem_append.mp hn with hn | hn
          · exact .inl hn
          · obtain rfl := List.mem_singleton.mp hn
            exact .inr hl

theorem Ordered.merge (h : s.Ordered text) {v w : Nat} (hm : s.canMerge v w = true) :
    (s.merge v w).Ordered text ∧ s.Widens (s.merge v w) := by
  have same := offset_of_sameVertex (sameVertex_of_canMerge hm)
  obtain ⟨hs, wide⟩ := Ordered.foldl_addLink
    (fun h hi hl => Ordered.addLink (s.vertices.size + 1) h hi hl) h (h.vertex_lt v)
    (h.links_of_offset (h.vertex_lt v) (h.vertex_lt w) same)
  rw [Stack.merge]
  split
  · refine ⟨Ordered.remove (hs.setVersion_of_seat ?_) w, wide.trans (.of_vertices rfl)⟩
    exact fun _ => rfl
  · exact ⟨hs.remove w, wide.trans (.of_vertices rfl)⟩

theorem seat_merge (s : Stack) (u v w : Nat) : ((s.merge u w).version v).seat =
    (s.version (if v < w then v else v + 1)).seat := by
  have same := versions_foldl (fun t l => versions_addLink (s.vertices.size + 1) t
    (s.version u).vertex l) (s.top w).links s
  rw [merge, version_remove]
  split
  · refine (seat_setVersion ?_ _ u).trans ?_
    · exact fun _ => rfl
    · rw [version, same]
      rfl
  · rw [version, same]
    rfl

theorem size_merge (s : Stack) (u w : Nat) :
    (s.merge u w).size = if w < s.size then s.size - 1 else s.size := by
  have same := versions_foldl (fun t l => versions_addLink (s.vertices.size + 1) t
    (s.version u).vertex l) (s.top w).links s
  have size : ∀ f : Version → Version, ((Stack.setVersion ((s.top w).links.foldl
      (fun t l => addLink (s.vertices.size + 1) t (s.version u).vertex l) s) u f)).size =
        s.size := fun f => by
    rw [size_setVersion, Stack.size, same]
    rfl
  rw [merge, size_remove]
  split
  · rw [size]
  · rw [Stack.size, same]
    rfl

/-! ## ways down -/

/-- **The trees that a way down passes stand between its ends.** -/
theorem Reaches.row (h : s.Ordered text) {i : Nat} (hi : i < s.vertices.size) {w : Way}
    (hw : s.Reaches i w) : w.vertex < s.vertices.size ∧
      Row (s.vertex w.vertex).cursor w.trees (s.vertex i).cursor := by
  induction hw with
  | start => exact ⟨hi, .nil _⟩
  | @follow w l _ hl ih =>
    obtain ⟨lt_size, row⟩ := h.links w.vertex l hl
    have passed : (w.follow l).vertex = l.vertex ∧
        (w.follow l).trees = l.tree.toList ++ w.trees := by
      rw [Way.follow]
      cases l.tree <;> exact ⟨rfl, rfl⟩
    rw [passed.1, passed.2]
    exact ⟨lt_size, row.append ih.2⟩

/-- ways on which the first tree is the last pass one tree at most, and where it has to be text that
fits nowhere they pass such a tree -/
theorem error_of_mem_ways {σ : Type} {v : Nat} {x : σ} {f : σ → Way → σ × Verdict}
    (stop : ∀ x w, w.trees ≠ [] → (f x w).2.stop = true)
    (take : ∀ x w, (f x w).2.take = true → ∃ t ∈ w.trees.getLast?, t.isError = true) {w : Way}
    (h : w ∈ (s.ways v x f).2) : ∃ t, w.trees = [t] ∧ t.isError = true := by
  have follow : ∀ {x : σ} {w : Way} {l : Link}, w.trees.length ≤ 1 → (f x w).2.stop = false →
      (w.follow l).trees.length ≤ 1 := by
    intro x w l _ goes
    have nil : w.trees = [] := by
      by_contra ne
      cases goes.symm.trans (stop x w ne)
    rw [Way.follow]
    cases l.tree with
    | none => exact Nat.le_of_lt (by rw [nil]; exact Nat.zero_lt_one)
    | some t => rw [nil]; exact Nat.le_refl 1
  obtain ⟨short, y, taken⟩ := forall_mem_rounds (P := fun w => w.trees.length ≤ 1)
    (fun hw goes _ => follow hw goes)
    (fun w hw => by rw [List.mem_singleton.mp hw]; exact Nat.zero_le 1)
    (fun _ hw => absurd hw List.not_mem_nil) w h
  obtain ⟨t, ht, error⟩ := take y w taken
  cases trees : w.trees with
  | nil =>
    rw [trees] at ht
    cases ht
  | cons u us =>
    rw [trees] at ht short
    obtain rfl : us = [] := List.eq_nil_of_length_eq_zero (by simpa using short)
    obtain rfl : u = t := Option.some.inj ht
    exact ⟨u, rfl, error⟩

/-- the ways down over a number of trees that count begin with one of these -/
theorem ledBy_of_mem_ways {v count : Nat} {w : Way}
    (h : w ∈ (s.ways v () fun _ w => ((), ⟨w.count == count, w.count == count⟩)).2) :
    Tree.LedBy count w.trees := by
  -- an extra leads only ways that go on, or that pass the mark that text stopped fitting
  let P : Way → Prop := fun w => (solid w.trees).length ≤ w.count ∧
    ∀ t ∈ w.trees.head?, t.extra = true → w.count ≠ count ∨ (solid w.trees).length < w.count
  have follow : ∀ {w : Way} {l : Link}, P w → (w.count == count) = false → P (w.follow l) := by
    rintro w l ⟨le, lead⟩ goes
    have goes : w.count ≠ count := by simpa using goes
    show (solid (w.follow l).trees).length ≤ (w.follow l).count ∧ ∀ t ∈ (w.follow l).trees.head?,
      t.extra = true → (w.follow l).count ≠ count ∨
        (solid (w.follow l).trees).length < (w.follow l).count
    rw [Way.follow]
    cases l.tree with
    | none => exact ⟨Nat.le_succ_of_le le, fun t _ _ => .inr (Nat.lt_succ_of_le le)⟩
    | some t =>
      dsimp only
      rw [solid_cons]
      cases he : t.extra with
      | true => exact ⟨le, fun _ _ _ => .inl goes⟩
      | false =>
        refine ⟨Nat.succ_le_succ le, fun u hu extra => ?_⟩
        obtain rfl : t = u := Option.some.inj hu
        rw [he] at extra
        cases extra
  obtain ⟨⟨-, lead⟩, -, hit⟩ := forall_mem_rounds (P := P) (fun hw goes _ => follow hw goes)
    (fun w hw => by
      rw [List.mem_singleton.mp hw]
      exact ⟨Nat.le_refl 0, fun _ ht _ => absurd ht (Option.not_mem_none _)⟩)
    (fun _ hw => absurd hw List.not_mem_nil) w h
  have hit : w.count = count := by simpa using hit
  intro t ht extra
  have := lead t ht extra
  omega

end Stack

end Python
end AnnotationAudit
