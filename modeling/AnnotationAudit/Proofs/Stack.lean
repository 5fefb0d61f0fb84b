import AnnotationAudit.Python.Parse
import AnnotationAudit.Proofs.Automaton
import Mathlib.Data.List.TakeDrop

/-!
# Trees and ways down

Every tree on the stack is formed after a production, and every way down from a state passes what
the state's entries say has been read.

* `Tree.isFault`     text that does not fit, or a token that is missing;
* `Tree.Formed`      the children of a tree are those of a production, or the tree has a cost; and
                     without faults in it, it has none;
* `Stack.Sound`      the tree of every link is formed and leads from the state below to that above;
* `Way.Reaches`      a way leads down from a vertex, link by link;
* `Reaches.symbols`  a way over the length of an entry passes the symbols of a production;
* `Reaches.whole`    a way from an accepting state to the bottom passes the start symbol only.
-/

namespace AnnotationAudit
namespace Python

open Text

/-! ## formed trees -/

/-- can a tree of the symbol stand alone: is it a token, or text that does not fit? -/
def Symbol.isToken : Symbol → Bool
  | .terminal _ | .error => true
  | _ => false

/-- can a tree of the symbol stand anywhere, between the symbols that productions count? -/
def Symbol.isExtra : Symbol → Bool
  | .terminal x => x.isExtra || x == .endOfText
  | .error => true
  | _ => false

theorem Symbol.isToken_of_isExtra {x : Symbol} (h : x.isExtra = true) : x.isToken = true := by
  cases x <;> first | rfl | cases h

theorem Symbol.ne_skipped_of_isToken {x : Symbol} (h : x.isToken = true) : x ≠ .skipped := by
  rintro rfl
  cases h

theorem Symbol.ne_skipped_of_isReal {x : Symbol} (h : x.isReal = true) : x ≠ .skipped := by
  rintro rfl
  cases h

namespace Machine

/-- the symbols with productions are real -/
theorem isReal_symbolOf (v : Nat) : (symbolOf v).isReal = true := by
  rw [symbolOf]
  split
  · next h =>
    rw [← Nonterminal.length_all] at h
    rw [List.getElem?_eq_getElem h]
    rfl
  · rfl

theorem isToken_symbolOf (v : Nat) : (symbolOf v).isToken = false := by
  rw [symbolOf]
  split
  · next h =>
    rw [← Nonterminal.length_all] at h
    rw [List.getElem?_eq_getElem h]
    rfl
  · rfl

end Machine

namespace Tree

/-- the symbols of the trees that productions count -/
def solid (ts : List Tree) : List Symbol := (ts.filter fun t => !t.extra).map symbol

theorem solid_cons (t : Tree) (ts : List Tree) :
    solid (t :: ts) = if t.extra then solid ts else t.symbol :: solid ts := by
  rw [solid, List.filter_cons]
  cases t.extra <;> rfl

theorem solid_append (ts us : List Tree) : solid (ts ++ us) = solid ts ++ solid us := by
  rw [solid, List.filter_append, List.map_append]
  rfl

theorem solid_eq_nil {ts : List Tree} (h : ∀ t ∈ ts, t.extra = true) : solid ts = [] := by
  rw [solid, List.filter_eq_nil_iff.mpr fun t ht => by simp [h t ht]]
  rfl

/-- is the tree text that does not fit, or a token that should be there? -/
def isFault (t : Tree) : Bool := t.isError || t.info.absent

/-- a token, a tree of text that does not fit, or a tree with the children of a production: what
their symbols and marks say has been read is so, and they cost something if and only if something
does not fit -/
inductive Formed (grammar : Array Production) : Tree → Prop where
  | token {i : Info} (symbol : i.symbol.isToken = true)
      (cost : i.cost = 0 ↔ (node i []).isFault = false) : Formed grammar (.node i [])
  | broken {i : Info} {cs : List Tree} (symbol : i.symbol = .error ∨ i.symbol = .skipped)
      (cost : 0 < i.cost) (children : ∀ c ∈ cs, c.extra = true → Formed grammar c)
      (extras : ∀ c ∈ cs, c.extra = true → c.symbol.isExtra = true) : Formed grammar (.node i cs)
  | branch {i : Info} {cs : List Tree} {p : Production} (mem : p ∈ grammar)
      (symbol : i.symbol = Machine.symbolOf p.variableIndex)
      (marks : i.steps.map (fun s => (s.shown, s.field)) = p.marks)
      (symbols : solid cs = p.steps.map (·.symbol))
      (children : ∀ c ∈ cs, Formed grammar c)
      (extras : ∀ c ∈ cs, c.extra = true → c.symbol.isExtra = true)
      (present : i.absent = false)
      (cost : ∀ c ∈ cs, c.symbol ≠ .skipped → c.cost ≤ i.cost)
      (free : (∀ c ∈ cs, c.cost = 0) → i.cost = 0) : Formed grammar (.node i cs)

/-- what holds of every tree on the stack -/
structure Sound (grammar : Array Production) (t : Tree) : Prop where
  formed : t.Formed grammar
  isExtra_of_extra : t.extra = true → t.symbol.isExtra = true

variable {grammar : Array Production}

/-- a token of some symbol fits, if it is extra only where it may stand anywhere -/
theorem sound_leaf {t : Token} {x : Terminal} (hx : t.symbol = some x) {extra : Bool}
    (free : extra = true → (Symbol.terminal x).isExtra = true) : (leaf t extra).Sound grammar := by
  have symbol : (leaf t extra).symbol = .terminal x := by
    rw [leaf, hx]
    rfl
  have token : (leaf t extra).symbol.isToken = true := by
    rw [symbol]
    rfl
  have fits : (leaf t extra).isFault = false := by
    rw [isFault, isError, symbol]
    rfl
  refine ⟨.token token (iff_of_true rfl fits), fun h => ?_⟩
  have h : (extra || t.symbol == some .endOfText) = true := h
  rw [symbol]
  rcases Bool.or_eq_true_iff.mp h with h | h
  · exact free h
  · rw [hx, beq_iff_eq, Option.some_inj] at h
    rw [h]
    rfl

/-- the tree of text that begins no token is never extra -/
theorem sound_leaf_of_extra {t : Token}
    (h : (leaf t ((t.symbol.map Terminal.isExtra).getD false)).extra = true) :
    (leaf t ((t.symbol.map Terminal.isExtra).getD false)).Sound grammar := by
  cases hx : t.symbol with
  | none => rw [leaf, hx] at h; cases h
  | some x => exact sound_leaf hx fun extra => Bool.or_eq_true_iff.mpr (.inl extra)

theorem sound_missing (x : Terminal) (c : Cursor) : (missing x c).Sound grammar := by
  have fault : (missing x c).isFault = true := Bool.or_true _
  have cost : (missing x c).cost ≠ 0 := (by decide : Cost.absent + Cost.recovery ≠ 0)
  exact ⟨.token rfl (iff_of_false cost (fault.trans_ne (by decide))), nofun⟩

/-- text that does not fit has a cost -/
theorem cost_build_pos {symbol : Symbol} (h : symbol = .error ∨ symbol = .skipped)
    (steps : List Step)
    (extra : Bool) (c : Cursor) (ts : List Tree) : 0 < (build symbol steps extra c ts).cost := by
  have recovery : 0 < Cost.recovery := by decide
  rcases h with rfl | rfl
  all_goals
    show 0 < _ + (_ + Cost.recovery + _ + _)
    omega

theorem formed_build_of_broken {symbol : Symbol} (h : symbol = .error ∨ symbol = .skipped)
    (steps : List Step) (extra : Bool) (c : Cursor) {ts : List Tree}
    (hts : ∀ t ∈ ts, t.extra = true → t.Sound grammar) :
    (build symbol steps extra c ts).Formed grammar :=
  .broken h (cost_build_pos h steps extra c ts) (fun t ht he => (hts t ht he).formed)
    fun t ht he => (hts t ht he).isExtra_of_extra he

theorem sound_wreck (extra : Bool) (c : Cursor) {ts : List Tree}
    (hts : ∀ t ∈ ts, t.extra = true → t.Sound grammar) : (wreck extra c ts).Sound grammar :=
  ⟨formed_build_of_broken (.inl rfl) [] extra c hts, fun _ => rfl⟩

theorem sound_skipped (c : Cursor) {ts : List Tree}
    (hts : ∀ t ∈ ts, t.extra = true → t.Sound grammar) : (skipped c ts).Sound grammar :=
  ⟨formed_build_of_broken (.inr rfl) [] false c hts, nofun⟩

/-- extras are sound wherever they stand -/
theorem Formed.sound_of_extra {t : Tree} (h : t.Formed grammar) :
    ∀ c ∈ t.children, c.extra = true → c.Sound grammar := by
  intro c hc he
  cases h with
  | token _ _ => exact absurd hc List.not_mem_nil
  | broken _ _ children extras => exact ⟨children c hc he, extras c hc⟩
  | branch _ _ _ _ children extras _ _ _ => exact ⟨children c hc, extras c hc⟩

/-- a tree costs at least what its children cost -/
theorem cost_le_foldl {ts : List Tree} {t : Tree} (ht : t ∈ ts) (hs : t.symbol ≠ .skipped)
    (n : Nat) :
    t.cost ≤ ts.foldl (fun n t => if t.symbol == .skipped then n else n + t.cost) n := by
  have mono : ∀ (us : List Tree) (n : Nat),
      n ≤ us.foldl (fun n t => if t.symbol == .skipped then n else n + t.cost) n := by
    intro us
    induction us with
    | nil => exact fun n => Nat.le_refl n
    | cons u us ih =>
      intro n
      refine Nat.le_trans ?_ (ih _)
      dsimp only
      split <;> omega
  induction ts generalizing n with
  | nil => exact absurd ht List.not_mem_nil
  | cons u us ih =>
    rcases List.mem_cons.mp ht with rfl | ht
    · refine Nat.le_trans ?_ (mono us _)
      dsimp only
      rw [if_neg (by simpa using hs)]
      omega
    · exact ih ht _

theorem cost_le_build (symbol : Symbol) (steps : List Step) (extra : Bool) (c : Cursor)
    {ts : List Tree} {t : Tree} (ht : t ∈ ts) (hs : t.symbol ≠ .skipped) :
    t.cost ≤ (build symbol steps extra c ts).cost :=
  Nat.le_trans (cost_le_foldl ht hs 0) (Nat.le_add_right _ _)

theorem foldl_cost_eq_zero {ts : List Tree} (h : ∀ t ∈ ts, t.cost = 0) :
    ts.foldl (fun n t => if t.symbol == .skipped then n else n + t.cost) 0 = 0 := by
  refine List.foldlRecOn (motive := (· = 0)) ts _ rfl fun n hn t ht => ?_
  rw [h t ht, hn]
  split <;> rfl

/-- a tree of a symbol with productions costs nothing if its children do not -/
theorem cost_build_eq_zero (v : Nat) (steps : List Step) (extra : Bool) (c : Cursor)
    {ts : List Tree} (h : ∀ t ∈ ts, t.cost = 0) :
    (build (Machine.symbolOf v) steps extra c ts).cost = 0 := by
  have real := Machine.isReal_symbolOf v
  have whole : (Machine.symbolOf v == .error || Machine.symbolOf v == .skipped) = false := by
    generalize Machine.symbolOf v = x at real
    cases x <;> first | rfl | cases real
  show ts.foldl _ 0 + (if (Machine.symbolOf v == .error || Machine.symbolOf v == .skipped) = true
    then _ else 0) = 0
  rw [foldl_cost_eq_zero h, whole]
  rfl

/-- a closed production is formed -/
theorem formed_build {p : Production} (hp : p ∈ grammar) {steps : List Step} (extra : Bool)
    (c : Cursor)
    {ts : List Tree} (marks : steps.map (fun s => (s.shown, s.field)) = p.marks)
    (symbols : solid ts = p.steps.map (·.symbol)) (sound : ∀ t ∈ ts, t.Sound grammar) :
    (build (Machine.symbolOf p.variableIndex) steps extra c ts).Formed grammar :=
  .branch hp rfl marks symbols (fun t ht => (sound t ht).formed)
    (fun t ht => (sound t ht).isExtra_of_extra) rfl
    (fun _ ht hs => cost_le_build _ steps extra c ht hs) (cost_build_eq_zero _ steps extra c)

theorem Formed.addWeight {t : Tree} (h : t.Formed grammar) (w : Int) :
    (t.addWeight w).Formed grammar := by
  cases h with
  | token symbol cost => exact .token symbol cost
  | broken symbol cost children extras => exact .broken symbol cost children extras
  | branch mem symbol marks symbols children extras present cost free =>
    exact .branch mem symbol marks symbols children extras present cost free

end Tree

/-! ## sound stacks -/

/-- a link with a tree leads from the state `q` to the state `q'` above: extras do not change the
state, and what counts leads on; where text stopped fitting, the state above is the error state -/
def LinkSound (grammar : Array Production) (a : Automaton) (q : Nat) (t : Option Tree) (q' : Nat) :
    Prop :=
  match t with
  | none => q' = Automaton.errorState
  | some t => t.Sound grammar ∧ if t.extra then q' = q else a.Leads grammar q t.symbol q'

theorem LinkSound.mono {grammar : Array Production} {a b : Automaton} (h : a.Extends b) {q q' : Nat}
    {t : Option Tree} (hq : q' < a.states.size) (hl : LinkSound grammar a q t q') :
    LinkSound grammar b q t q' := by
  cases t with
  | none => exact hl
  | some t =>
    refine ⟨hl.1, ?_⟩
    have hl := hl.2
    split at hl
    · next he => rwa [if_pos he]
    · next he =>
      rw [if_neg he]
      exact h.leads hq hl

namespace Stack

/-- a link that may hang below a vertex in the state `q'` -/
structure Allows (grammar : Array Production) (a : Automaton) (s : Stack) (q' : Nat) (l : Link) :
    Prop where
  lt_size : l.vertex < s.vertices.size
  sound : LinkSound grammar a (s.vertex l.vertex).state l.tree q'

/-- what holds of the stack at all times -/
structure Sound (grammar : Array Production) (a : Automaton) (s : Stack) : Prop where
  pos : 0 < s.vertices.size
  versions : ∀ x ∈ s.versions, x.vertex < s.vertices.size
  states : ∀ {i : Nat} {x : Vertex}, s.vertices[i]? = some x → x.state < a.states.size
  links : ∀ {i : Nat} {x : Vertex}, s.vertices[i]? = some x →
    ∀ l ∈ x.links, s.Allows grammar a x.state l

/-- later stacks have more vertices, and the same states in those that there were -/
structure Extends (s s' : Stack) : Prop where
  size_le : s.vertices.size ≤ s'.vertices.size
  state : ∀ i < s.vertices.size, (s'.vertex i).state = (s.vertex i).state

namespace Extends

variable {grammar : Array Production} {a : Automaton} {s s' s'' : Stack}

theorem refl (s : Stack) : s.Extends s := ⟨Nat.le_refl _, fun _ _ => rfl⟩

theorem trans (h : s.Extends s') (h' : s'.Extends s'') : s.Extends s'' where
  size_le := Nat.le_trans h.size_le h'.size_le
  state i hi := by rw [h'.state i (Nat.lt_of_lt_of_le hi h.size_le), h.state i hi]

theorem allows (h : s.Extends s') {q : Nat} {l : Link} (hl : s.Allows grammar a q l) :
    s'.Allows grammar a q l where
  lt_size := Nat.lt_of_lt_of_le hl.lt_size h.size_le
  sound := by
    rw [h.state _ hl.lt_size]
    exact hl.sound

end Extends

variable {grammar : Array Production} {count : Nat} {a : Automaton} {s : Stack}

theorem vertex_of_getElem? {i : Nat} {x : Vertex} (h : s.vertices[i]? = some x) :
    s.vertex i = x := by
  rw [vertex, h]
  rfl

theorem getElem?_of_lt {i : Nat} (h : i < s.vertices.size) :
    s.vertices[i]? = some (s.vertex i) := by
  rw [vertex, Array.getElem?_eq_getElem h]
  rfl

theorem Sound.mono (h : s.Sound grammar a) {b : Automaton} (hb : a.Extends b) :
    s.Sound grammar b where
  pos := h.pos
  versions := h.versions
  states hx := Nat.lt_of_lt_of_le (h.states hx) hb.size_le
  links hx l hl := ⟨(h.links hx l hl).lt_size, (h.links hx l hl).sound.mono hb (h.states hx)⟩

theorem Sound.vertex_lt (h : s.Sound grammar a) (v : Nat) :
    (s.version v).vertex < s.vertices.size := by
  rw [version]
  cases hv : s.versions[v]? with
  | none => exact h.pos
  | some x => exact h.versions x (Array.mem_of_getElem? hv)

theorem Sound.state_lt (h : s.Sound grammar a) (v : Nat) : s.state v < a.states.size :=
  h.states (getElem?_of_lt (h.vertex_lt v))

/-- the links of a vertex, in bounds or not -/
theorem Sound.links_vertex (h : s.Sound grammar a) (i : Nat) :
    ∀ l ∈ (s.vertex i).links, s.Allows grammar a (s.vertex i).state l := by
  intro l hl
  by_cases hi : i < s.vertices.size
  · exact h.links (getElem?_of_lt hi) l hl
  · rw [vertex, Array.getElem?_eq_none (Nat.le_of_not_lt hi)] at hl
    exact absurd hl List.not_mem_nil

/-! ## what keeps a stack sound -/

/-- versions do not matter, if they stand somewhere -/
theorem Sound.setVersions (h : s.Sound grammar a) {vs : Array Version}
    (hv : ∀ x ∈ vs, x.vertex < s.vertices.size) :
    ({ s with versions := vs } : Stack).Sound grammar a :=
  ⟨h.pos, hv, h.states, fun hx l hl => ⟨(h.links hx l hl).lt_size, (h.links hx l hl).sound⟩⟩

theorem extends_addVertex (s : Stack) (y : Vertex) :
    s.Extends { s with vertices := s.vertices.push y } where
  size_le := by simp
  state i hi := by
    rw [vertex, vertex, Array.getElem?_push, if_neg (Nat.ne_of_lt hi)]

theorem Sound.addVertex (h : s.Sound grammar a) {y : Vertex} (hy : y.state < a.states.size)
    (links : ∀ l ∈ y.links, s.Allows grammar a y.state l) :
    ({ s with vertices := s.vertices.push y } : Stack).Sound grammar a := by
  have ext := extends_addVertex s y
  refine ⟨Nat.lt_of_lt_of_le h.pos ext.size_le,
    fun x hx => Nat.lt_of_lt_of_le (h.versions x hx) ext.size_le, ?_, ?_⟩
  · intro i x hx
    rw [Array.getElem?_push] at hx
    split at hx
    · exact Option.some.inj hx ▸ hy
    · exact h.states hx
  · intro i x hx l hl
    rw [Array.getElem?_push] at hx
    split at hx
    · obtain rfl := Option.some.inj hx
      exact ext.allows (links l hl)
    · exact ext.allows (h.links hx l hl)

theorem extends_setVertex {i : Nat} {f : Vertex → Vertex} (hf : ∀ x, (f x).state = x.state) :
    s.Extends { s with vertices := s.vertices.modify i f } where
  size_le := by simp
  state j hj := by
    rw [vertex, vertex, Array.getElem?_modify]
    split
    · cases s.vertices[j]? with
      | none => rfl
      | some x => exact hf x
    · rfl

theorem Sound.setVertex (h : s.Sound grammar a) {i : Nat} {f : Vertex → Vertex}
    (hf : ∀ x, (f x).state = x.state)
    (links : ∀ l ∈ (f (s.vertex i)).links, l ∈ (s.vertex i).links ∨
      s.Allows grammar a (s.vertex i).state l) :
    ({ s with vertices := s.vertices.modify i f } : Stack).Sound grammar a := by
  have ext : s.Extends { s with vertices := s.vertices.modify i f } := extends_setVertex hf
  refine ⟨Nat.lt_of_lt_of_le h.pos ext.size_le,
    fun x hx => Nat.lt_of_lt_of_le (h.versions x hx) ext.size_le, ?_, ?_⟩
  · intro j x hx
    rw [Array.getElem?_modify] at hx
    split at hx
    · obtain ⟨y, hy, rfl⟩ := Option.map_eq_some_iff.mp hx
      rw [hf]
      exact h.states hy
    · exact h.states hx
  · intro j x hx l hl
    rw [Array.getElem?_modify] at hx
    split at hx
    · next hij =>
      subst hij
      obtain ⟨y, hy, rfl⟩ := Option.map_eq_some_iff.mp hx
      rw [← vertex_of_getElem? hy] at hl ⊢
      rw [hf]
      exact ext.allows ((links l hl).elim (h.links_vertex i l) id)
    · exact ext.allows (h.links hx l hl)

/-! ## versions -/

theorem mem_modify {α : Type} {xs : Array α} {i : Nat} {f : α → α} {x : α} (h : x ∈ xs.modify i f) :
    x ∈ xs ∨ ∃ y ∈ xs, x = f y := by
  obtain ⟨j, hj⟩ := Array.mem_iff_getElem?.mp h
  rw [Array.getElem?_modify] at hj
  split at hj
  · obtain ⟨y, hy, rfl⟩ := Option.map_eq_some_iff.mp hj
    exact .inr ⟨y, Array.mem_of_getElem? hy, rfl⟩
  · exact .inl (Array.mem_of_getElem? hj)

theorem Sound.setVersion (h : s.Sound grammar a) {v : Nat} {f : Version → Version}
    (hf : ∀ x ∈ s.versions, (f x).vertex < s.vertices.size) : (s.setVersion v f).Sound grammar a :=
  h.setVersions fun x hx => by
    rcases mem_modify hx with hx | ⟨y, hy, rfl⟩
    · exact h.versions x hx
    · exact hf y hy

theorem Sound.setVersion_of_vertex (h : s.Sound grammar a) {v : Nat} {f : Version → Version}
    (hf : ∀ x, (f x).vertex = x.vertex) : (s.setVersion v f).Sound grammar a :=
  h.setVersion fun x hx => by
    rw [hf]
    exact h.versions x hx

theorem Sound.halt (h : s.Sound grammar a) (v : Nat) : (s.halt v).Sound grammar a :=
  h.setVersion_of_vertex fun _ => rfl

theorem Sound.pause (h : s.Sound grammar a) (v : Nat) (t : Token) : (s.pause v t).Sound grammar a :=
  h.setVersion_of_vertex fun _ => rfl

theorem Sound.resume (h : s.Sound grammar a) (v : Nat) : (s.resume v).Sound grammar a :=
  h.setVersion_of_vertex fun _ => rfl

theorem Sound.setLayout (h : s.Sound grammar a) (v : Nat) (l : Option Layout) :
    (s.setLayout v l).Sound grammar a :=
  h.setVersion_of_vertex fun _ => rfl

theorem Sound.settleCount (h : s.Sound grammar a) (v : Nat) :
    (s.settleCount v).Sound grammar a := by
  simp only [Stack.settleCount]
  split
  · exact h.setVersion_of_vertex fun _ => rfl
  · exact h

theorem Sound.markLandmarks (h : s.Sound grammar a) (v depth : Nat) :
    (s.markLandmarks v depth).Sound grammar a :=
  h.setVersion_of_vertex fun _ => rfl

theorem Sound.remove (h : s.Sound grammar a) (v : Nat) : (s.remove v).Sound grammar a :=
  h.setVersions fun x hx => h.versions x <| by
    rw [← Array.mem_toList_iff, Array.toList_eraseIdxIfInBounds] at hx
    exact Array.mem_toList_iff.mp (List.mem_of_mem_eraseIdx hx)

theorem Sound.takeVersions (h : s.Sound grammar a) (n : Nat) :
    ({ s with versions := s.versions.take n } : Stack).Sound grammar a :=
  h.setVersions fun x hx => h.versions x <| by
    obtain ⟨i, -, rfl⟩ := Array.mem_extract_iff_getElem.mp hx
    exact Array.getElem_mem _

theorem Sound.swap (h : s.Sound grammar a) (v w : Nat) : (s.swap v w).Sound grammar a :=
  h.setVersions fun x hx => h.versions x <| by
    rw [Array.swapIfInBounds_def] at hx
    split at hx
    · split at hx
      · exact (Array.swap_perm _ _).mem_iff.mp hx
      · exact hx
    · exact hx

theorem Sound.copy (h : s.Sound grammar a) (v : Nat) : (s.copy v).Sound grammar a :=
  h.setVersions fun x hx => by
    rcases Array.mem_push.mp hx with hx | rfl
    · exact h.versions x hx
    · exact h.vertex_lt v

theorem Sound.renumber (h : s.Sound grammar a) (v w : Nat) : (s.renumber v w).Sound grammar a := by
  rw [Stack.renumber]
  split
  · exact h
  · refine Sound.remove (h.setVersion ?_) v
    exact fun _ _ => h.vertex_lt v

theorem extends_of_vertices {s' : Stack} (h : s'.vertices = s.vertices) : s.Extends s' :=
  ⟨Nat.le_of_eq (congrArg Array.size h.symm), fun i _ => by rw [vertex, vertex, h]⟩

/-! ## pushing -/

/-- a new vertex takes the place of a version's -/
theorem Sound.moveTo (h : s.Sound grammar a) {y : Vertex} (hy : y.state < a.states.size)
    (links : ∀ l ∈ y.links, s.Allows grammar a y.state l) {v : Nat} {f : Version → Version}
    (hf : ∀ x, (f x).vertex = s.vertices.size) :
    ({ s with vertices := s.vertices.push y, versions := s.versions.modify v f } : Stack).Sound
      grammar a :=
  (h.addVertex hy links).setVersion (v := v) fun x _ => by
    rw [hf]
    simp

theorem Sound.push (h : s.Sound grammar a) {v q : Nat} {t : Option Tree} (hq : q < a.states.size)
    (hl : LinkSound grammar a (s.state v) t q) : (s.push v t q).Sound grammar a := by
  have allows : ∀ {y : Vertex}, y.state = q → y.links = [⟨(s.version v).vertex, t⟩] →
      y.state < a.states.size ∧ ∀ l ∈ y.links, s.Allows grammar a y.state l := by
    intro y hstate hlinks
    refine ⟨hstate ▸ hq, fun l hm => ?_⟩
    rw [hlinks] at hm
    obtain rfl := List.mem_singleton.mp hm
    exact ⟨h.vertex_lt v, hstate ▸ hl⟩
  cases t with
  | none => exact h.moveTo (allows rfl rfl).1 (allows rfl rfl).2 fun _ => rfl
  | some t => exact h.moveTo (allows rfl rfl).1 (allows rfl rfl).2 fun _ => rfl

theorem extends_push (s : Stack) (v : Nat) (t : Option Tree) (q : Nat) : s.Extends (s.push v t q) :=
  (extends_addVertex s _).trans (extends_of_vertices rfl)

theorem Sound.clear (h : s.Sound grammar a) (ha : a.Sound grammar count) (v : Nat) (c : Cursor) :
    (s.clear v c).Sound grammar a :=
  h.moveTo (show 1 < _ from ha.two_le_size) (fun _ hl => absurd hl List.not_mem_nil) fun _ => rfl

/-! ## merging -/

theorem state_of_sameVertex {x y : Vertex} (h : sameVertex x y = true) : x.state = y.state := by
  rw [sameVertex, Bool.and_eq_true, Bool.and_eq_true, beq_iff_eq] at h
  exact h.1.1

theorem offset_of_sameVertex {x y : Vertex} (h : sameVertex x y = true) :
    x.cursor.offset = y.cursor.offset := by
  rw [sameVertex, Bool.and_eq_true, Bool.and_eq_true, beq_iff_eq, beq_iff_eq] at h
  exact h.1.2

theorem of_findLink {l m : Link} {links : List Link} {k : Nat}
    (h : s.findLink l links = some (k, m)) :
    m ∈ links ∧ (m.vertex = l.vertex ∨
      sameVertex (s.vertex m.vertex) (s.vertex l.vertex) = true) := by
  obtain ⟨c, hc, hm⟩ := Option.map_eq_some_iff.mp h
  have mem := List.mem_zipIdx_iff_getElem?.mp (List.mem_of_find?_eq_some hc)
  have found := List.find?_some (p := fun c : Link × Nat => Tree.equivalent c.1.tree l.tree &&
    (c.1.vertex == l.vertex || sameVertex (s.vertex c.1.vertex) (s.vertex l.vertex))) hc
  obtain rfl : c.1 = m := congrArg Prod.snd hm
  refine ⟨List.mem_of_getElem? mem, ?_⟩
  rcases Bool.or_eq_true_iff.mp (Bool.and_eq_true_iff.mp found).2 with same | same
  · exact .inl (by simpa using same)
  · exact .inr same

/-- one after the other, many ways down are added as one is -/
theorem Sound.foldl_addLink {add : Stack → Nat → Link → Stack}
    (one : ∀ {s : Stack} {i l}, s.Sound grammar a → s.Allows grammar a (s.vertex i).state l →
      (add s i l).Sound grammar a ∧ s.Extends (add s i l))
    (h : s.Sound grammar a) {i : Nat} (hi : i < s.vertices.size) {ls : List Link}
    (hl : ∀ l ∈ ls, s.Allows grammar a (s.vertex i).state l) :
    (ls.foldl (fun s l => add s i l) s).Sound grammar a ∧
      s.Extends (ls.foldl (fun s l => add s i l) s) := by
  induction ls generalizing s with
  | nil => exact ⟨h, .refl s⟩
  | cons l ls ih =>
    obtain ⟨hs, ext⟩ := one h (hl l List.mem_cons_self)
    obtain ⟨hs', ext'⟩ := ih hs (Nat.lt_of_lt_of_le hi ext.size_le) fun n hn => by
      rw [ext.state i hi]
      exact ext.allows (hl n (List.mem_cons_of_mem _ hn))
    exact ⟨hs', ext.trans ext'⟩

/-- one more way down keeps the stack sound, if the way is allowed -/
theorem Sound.addLink (fuel : Nat) (h : s.Sound grammar a) {i : Nat} {l : Link}
    (hl : s.Allows grammar a (s.vertex i).state l) :
    (Stack.addLink fuel s i l).Sound grammar a ∧ s.Extends (Stack.addLink fuel s i l) := by
  induction fuel generalizing s i l with
  | zero => exact ⟨h, .refl s⟩
  | succ fuel ih =>
    rw [Stack.addLink]
    split
    · exact ⟨h, .refl s⟩
    · simp only
      split
      · next k m hm =>
        obtain ⟨hm, same⟩ := of_findLink hm
        split
        · have replaced : ({ s with vertices := s.vertices.modify i fun x =>
              { x with links := x.links.set k l, weight := (s.viaLink l).2 } } : Stack).Sound
                grammar a :=
            h.setVertex (fun _ => rfl) fun n hn => by
              rcases List.mem_or_eq_of_mem_set hn with hn | rfl
              · exact .inl hn
              · exact .inr hl
          have ext : s.Extends { s with vertices := s.vertices.modify i fun x =>
              { x with links := x.links.set k l, weight := (s.viaLink l).2 } } :=
            extends_setVertex fun _ => rfl
          repeat' split
          all_goals first | exact ⟨replaced, ext⟩ | exact ⟨h, .refl s⟩
        · next hne =>
          -- the two vertices below become one, so that the links of one hang below the other
          have same : (s.vertex m.vertex).state = (s.vertex l.vertex).state :=
            state_of_sameVertex (same.resolve_left (by simpa using hne))
          obtain ⟨hs, ext⟩ := Sound.foldl_addLink (fun h hl => ih h hl) h
            (h.links_vertex i m hm).lt_size (same ▸ h.links_vertex l.vertex)
          exact ⟨hs.setVertex (fun _ => rfl) fun n hn => .inl hn,
            ext.trans (extends_setVertex fun _ => rfl)⟩
      · split
        · exact ⟨h, .refl s⟩
        · refine ⟨h.setVertex (fun _ => rfl) fun n hn => ?_, extends_setVertex fun _ => rfl⟩
          rcases List.mem_append.mp hn with hn | hn
          · exact .inl hn
          · obtain rfl := List.mem_singleton.mp hn
            exact .inr hl

theorem versions_foldl {f : Stack → Link → Stack} (hf : ∀ s l, (f s l).versions = s.versions)
    (ls : List Link) (s : Stack) : (ls.foldl f s).versions = s.versions := by
  induction ls generalizing s with
  | nil => rfl
  | cons l ls ih => rw [List.foldl_cons, ih, hf]

theorem versions_addLink (fuel : Nat) (s : Stack) (i : Nat) (l : Link) :
    (Stack.addLink fuel s i l).versions = s.versions := by
  induction fuel generalizing s i l with
  | zero => rfl
  | succ fuel ih =>
    rw [Stack.addLink]
    split
    · rfl
    · dsimp only
      split
      · split
        · repeat' split
          all_goals rfl
        · exact versions_foldl (fun s n => ih s _ n) _ s
      · split <;> rfl

theorem sameVertex_of_canMerge {v w : Nat} (h : s.canMerge v w = true) :
    sameVertex (s.top v) (s.top w) = true := by
  rw [canMerge, Bool.and_eq_true, Bool.and_eq_true] at h
  exact h.1.2

theorem Sound.merge (h : s.Sound grammar a) {v w : Nat} (hm : s.canMerge v w = true) :
    (s.merge v w).Sound grammar a ∧ s.Extends (s.merge v w) := by
  have same := state_of_sameVertex (sameVertex_of_canMerge hm)
  have links : ∀ l ∈ (s.top w).links,
      s.Allows grammar a (s.vertex (s.version v).vertex).state l := by
    rw [show (s.vertex (s.version v).vertex).state = _ from same]
    exact h.links_vertex (s.version w).vertex
  obtain ⟨hs, ext⟩ := Sound.foldl_addLink (fun h hl => Sound.addLink (s.vertices.size + 1) h hl) h
    (h.vertex_lt v) links
  rw [Stack.merge]
  split
  · refine ⟨Sound.remove (hs.setVersion_of_vertex ?_) w, ext.trans (extends_of_vertices rfl)⟩
    exact fun _ => rfl
  · exact ⟨hs.remove w, ext.trans (extends_of_vertices rfl)⟩

/-! ## ways down -/

/-- a way leads down from the vertex `i`, link by link -/
inductive Reaches (s : Stack) (i : Nat) : Way → Prop where
  | start : Reaches s i ⟨i, [], 0⟩
  | follow {w : Way} {l : Link} : Reaches s i w → l ∈ (s.vertex w.vertex).links →
      Reaches s i (w.follow l)

/-- one round follows ways and takes some of those that there were -/
theorem forall_mem_round {σ : Type} {f : σ → Way → σ × Verdict} {P : Way → Prop}
    (follow : ∀ {x w l}, P w → (f x w).2.stop = false → l ∈ (s.vertex w.vertex).links →
      P (w.follow l)) {todo : List Way}
    {x : σ} {kept new taken : List Way} (htodo : ∀ w ∈ todo, P w) (hkept : ∀ w ∈ kept, P w)
    (hnew : ∀ w ∈ new, P w) (htaken : ∀ w ∈ taken, P w ∧ ∃ x, (f x w).2.take = true) :
    (∀ w ∈ (s.round f todo x kept new taken).2.1, P w) ∧
      ∀ w ∈ (s.round f todo x kept new taken).2.2, P w ∧ ∃ x, (f x w).2.take = true := by
  induction todo generalizing x kept new taken with
  | nil =>
    refine ⟨fun w hw => ?_, htaken⟩
    rcases List.mem_append.mp hw with hw | hw
    · exact hkept w (List.mem_reverse.mp hw)
    · exact hnew w hw
  | cons v todo ih =>
    have hv := htodo v List.mem_cons_self
    have htodo' : ∀ w ∈ todo, P w := fun w hw => htodo w (List.mem_cons_of_mem _ hw)
    have htaken' : ∀ w ∈ (if (f x v).2.take then v :: taken else taken),
        P w ∧ ∃ x, (f x w).2.take = true := by
      intro w hw
      split at hw
      · next take =>
        rcases List.mem_cons.mp hw with rfl | hw
        · exact ⟨hv, x, take⟩
        · exact htaken w hw
      · exact htaken w hw
    rw [round]
    dsimp only
    split
    · exact ih htodo' hkept hnew htaken'
    · next goes =>
      have goes : (f x v).2.stop = false := Bool.eq_false_iff.mpr goes
      split
      · exact ih htodo' hkept hnew htaken'
      · next l ls hlinks =>
        refine ih htodo' (fun w hw => ?_) (fun w hw => ?_) htaken'
        · rcases List.mem_cons.mp hw with rfl | hw
          · exact follow hv goes (hlinks ▸ List.mem_cons_self)
          · exact hkept w hw
        · rcases List.mem_append.mp hw with hw | hw
          · exact hnew w hw
          · obtain ⟨m, hm, rfl⟩ := List.mem_map.mp hw
            exact follow hv goes (hlinks ▸ List.mem_cons_of_mem _ (List.mem_of_mem_take hm))

theorem forall_mem_rounds {σ : Type} {f : σ → Way → σ × Verdict} {P : Way → Prop}
    (follow : ∀ {x w l}, P w → (f x w).2.stop = false → l ∈ (s.vertex w.vertex).links →
      P (w.follow l)) {fuel : Nat}
    {todo : List Way} {x : σ} {taken : List Way} (htodo : ∀ w ∈ todo, P w)
    (htaken : ∀ w ∈ taken, P w ∧ ∃ x, (f x w).2.take = true) :
    ∀ w ∈ (s.rounds f fuel todo x taken).2, P w ∧ ∃ x, (f x w).2.take = true := by
  induction fuel generalizing todo x taken with
  | zero => exact fun w hw => htaken w (List.mem_reverse.mp hw)
  | succ fuel ih =>
    cases todo with
    | nil => exact fun w hw => htaken w (List.mem_reverse.mp hw)
    | cons v todo =>
      obtain ⟨hways, htaken'⟩ := forall_mem_round follow (x := x) htodo
        (fun _ hw => absurd hw List.not_mem_nil) (fun _ hw => absurd hw List.not_mem_nil) htaken
      exact ih hways htaken'

/-- the ways that are taken lead down from the version and are to be taken -/
theorem reaches_of_mem_ways {σ : Type} {v : Nat} {x : σ} {f : σ → Way → σ × Verdict} {w : Way}
    (h : w ∈ (s.ways v x f).2) :
    s.Reaches (s.version v).vertex w ∧ ∃ x, (f x w).2.take = true :=
  forall_mem_rounds (fun hw _ hl => .follow hw hl)
    (fun w hw => by rw [List.mem_singleton.mp hw]; exact .start)
    (fun _ hw => absurd hw List.not_mem_nil) w h

theorem Reaches.vertex_lt (h : s.Sound grammar a) {i : Nat} (hi : i < s.vertices.size) {w : Way}
    (hw : s.Reaches i w) : w.vertex < s.vertices.size := by
  cases hw with
  | start => exact hi
  | @follow w l hw hl =>
    rw [show (w.follow l).vertex = l.vertex by rw [Way.follow]; split <;> rfl]
    exact (h.links_vertex _ l hl).lt_size

/-- what becomes of a stack whose versions are taken down along ways: there are more versions, each
for some of the ways -/
structure Sliced (s : Stack) (ws : List Way) (r : Stack × List Slice) : Prop where
  vertices : r.1.vertices = s.vertices
  version : ∀ i < s.size, r.1.version i = s.version i
  size_le : s.size ≤ r.1.size
  lt_size : ∀ x ∈ r.1.versions, x ∈ s.versions ∨ ∃ w ∈ ws, x.vertex = w.vertex
  trees : ∀ x ∈ r.2, ∃ w ∈ ws, x.trees = w.trees

theorem sliced_addSlice {ws : List Way} {v : Nat} {r : Stack × List Slice} (h : s.Sliced ws r)
    {w : Way}
    (hw : w ∈ ws) : s.Sliced ws (addSlice v r w) := by
  rw [addSlice]
  dsimp only
  split
  · next y hy =>
    refine ⟨h.vertices, h.version, h.size_le, h.lt_size, fun x hx => ?_⟩
    have front := List.takeWhile_sublist (l := r.2.reverse) fun z => z.version != y.version
    have back := List.dropWhile_sublist (l := r.2.reverse) fun z => z.version != y.version
    rw [List.span_eq_takeWhile_dropWhile] at hx
    simp only [List.mem_append, List.mem_reverse, List.mem_singleton] at hx
    rcases hx with (hx | rfl) | hx
    · exact h.trees x (List.mem_reverse.mp (back.mem hx))
    · exact ⟨w, hw, rfl⟩
    · exact h.trees x (List.mem_reverse.mp (front.mem hx))
  · refine ⟨h.vertices, fun i hi => ?_, ?_, fun x hx => ?_, fun x hx => ?_⟩
    · have hi' : i ≠ r.1.versions.size := Nat.ne_of_lt (Nat.lt_of_lt_of_le hi h.size_le)
      rw [← h.version i hi, version, Array.getElem?_push, if_neg hi']
      rfl
    · show s.size ≤ (r.1.versions.push _).size
      rw [Array.size_push]
      exact Nat.le_succ_of_le h.size_le
    · rcases Array.mem_push.mp hx with hx | rfl
      · exact h.lt_size x hx
      · exact .inr ⟨w, hw, rfl⟩
    · rcases List.mem_append.mp hx with hx | hx
      · exact h.trees x hx
      · rw [List.mem_singleton.mp hx]
        exact ⟨w, hw, rfl⟩

theorem sliced_slices (s : Stack) (v : Nat) (ws : List Way) : s.Sliced ws (s.slices v ws) := by
  refine List.foldlRecOn (motive := s.Sliced ws) ws (addSlice v) ?_ ?_
  · exact ⟨rfl, fun _ _ => rfl, Nat.le_refl _, fun x hx => .inl hx,
      fun _ hx => absurd hx List.not_mem_nil⟩
  · exact fun r h w hw => sliced_addSlice h hw

theorem Sliced.sound {ws : List Way} {r : Stack × List Slice} (hr : s.Sliced ws r)
    (h : s.Sound grammar a) (hw : ∀ w ∈ ws, w.vertex < s.vertices.size) : r.1.Sound grammar a := by
  have versions : ∀ x ∈ r.1.versions, x.vertex < s.vertices.size := by
    intro x hx
    rcases hr.lt_size x hx with hx | ⟨w, hm, hx⟩
    · exact h.versions x hx
    · rw [hx]
      exact hw w hm
  have sound := h.setVersions versions
  rwa [← hr.vertices] at sound

/-! ## what a way passes -/

/-- the ways to follow a link -/
theorem follow_cases (h : s.Sound grammar a) {w : Way} {l : Link}
    (hl : l ∈ (s.vertex w.vertex).links) :
    (s.vertex w.vertex).state = Automaton.errorState ∧ (w.follow l).count = w.count + 1 ∧
        (w.follow l).trees = w.trees ∨
      (∃ t : Tree, t.Sound grammar ∧ t.extra = true ∧ (w.follow l).count = w.count ∧
        (w.follow l).trees = t :: w.trees ∧
        (s.vertex (w.follow l).vertex).state = (s.vertex w.vertex).state) ∨
      ∃ t : Tree, t.Sound grammar ∧ t.extra = false ∧ (w.follow l).count = w.count + 1 ∧
        (w.follow l).trees = t :: w.trees ∧
        a.Leads grammar (s.vertex (w.follow l).vertex).state t.symbol
          (s.vertex w.vertex).state := by
  have sound := (h.links_vertex w.vertex l hl).sound
  rw [Way.follow]
  cases ht : l.tree with
  | none =>
    rw [ht] at sound
    exact .inl ⟨sound, rfl, rfl⟩
  | some t =>
    rw [ht] at sound
    obtain ⟨formed, leads⟩ := sound
    cases he : t.extra with
    | true =>
      rw [he, if_pos rfl] at leads
      exact .inr (.inl ⟨t, formed, he, if_pos he, rfl, leads.symm⟩)
    | false =>
      rw [he, if_neg Bool.false_ne_true] at leads
      exact .inr (.inr ⟨t, formed, he, if_neg (by simp [he]), rfl, leads⟩)

theorem Reaches.sound (h : s.Sound grammar a) {i : Nat} {w : Way} (hw : s.Reaches i w) :
    ∀ t ∈ w.trees, t.Sound grammar := by
  induction hw with
  | start => exact fun t ht => absurd ht List.not_mem_nil
  | follow _ hl ih =>
    intro t ht
    obtain ⟨-, -, htrees⟩ | ⟨u, hu, -, -, htrees, -⟩ | ⟨u, hu, -, -, htrees, -⟩ := follow_cases h hl
    · exact ih t (htrees ▸ ht)
    all_goals
      rw [htrees] at ht
      rcases List.mem_cons.mp ht with rfl | ht
      · exact hu
      · exact ih t ht

/-- a place in a production some way down: `n` steps after it the production is like `p` -/
structure Passed (grammar : Array Production) (a : Automaton) (s : Stack) (p : Production) (n : Nat)
    (w : Way) (j d : Nat) (p' : Production) : Prop where
  before : At grammar (a.entries (s.vertex w.vertex).state) j d
  production : a.tables.productions[j]? = some p'
  dot : d + w.count = n
  variableIndex : p'.variableIndex = p.variableIndex
  marks : p'.marks = p.marks
  symbols : Tree.solid w.trees = ((p'.steps.drop d).take w.count).map (·.symbol)

/-- **A way down from a state passes what its entries say has been read**: if `n` steps of a
production have been read, it passes the last of them, up to symbols, one by one. -/
theorem Reaches.symbols (h : s.Sound grammar a) (ha : a.Sound grammar count) {i : Nat} {w : Way}
    (hw : s.Reaches i w) {j n : Nat} {p : Production}
    (before : At grammar (a.entries (s.vertex i).state) j n)
    (hp : a.tables.productions[j]? = some p) (hn : w.count ≤ n) :
    ∃ j d p', Passed grammar a s p n w j d p' := by
  induction hw with
  | start => exact ⟨j, n, p, before, hp, rfl, rfl, rfl, rfl⟩
  | @follow w l hw hl ih =>
    have begun : ∀ {j d}, At grammar (a.entries (s.vertex w.vertex).state) j d → 0 < d →
        ∃ e ∈ a.entries (s.vertex w.vertex).state, e.production = j ∧ e.dot = d := by
      intro j d before hd
      cases before with
      | begun he => exact ⟨_, he, rfl, rfl⟩
      | fresh _ => exact absurd hd (Nat.lt_irrefl 0)
    obtain ⟨hstate, hcount, -⟩ | ⟨t, -, he, hcount, htrees, hstate⟩ |
      ⟨t, -, he, hcount, htrees, leads⟩ := follow_cases h hl
    · rw [hcount] at hn
      obtain ⟨j, d, p', passed⟩ := ih (Nat.le_of_succ_le hn)
      have := passed.dot
      obtain ⟨e, he, -⟩ := begun passed.before (by omega)
      rw [hstate, ha.error] at he
      exact absurd he List.not_mem_nil
    · rw [hcount] at hn
      obtain ⟨j, d, p', passed⟩ := ih hn
      refine ⟨j, d, p', hstate ▸ passed.before, passed.production, hcount ▸ passed.dot,
        passed.variableIndex, passed.marks, ?_⟩
      rw [htrees, hcount, Tree.solid_cons, if_pos he]
      exact passed.symbols
    · rw [hcount] at hn
      obtain ⟨j, d, p', passed⟩ := ih (Nat.le_of_succ_le hn)
      have hdot := passed.dot
      obtain ⟨e, hmem, rfl, rfl⟩ := begun passed.before (by omega)
      obtain ⟨before', hd, hp₀, hp', alike, hs, hx⟩ := leads e hmem
      obtain rfl := Option.some.inj (passed.production.symm.trans hp')
      refine ⟨_, _, _, before', hp₀, by omega, alike.variableIndex.trans passed.variableIndex,
        alike.marks.trans passed.marks, ?_⟩
      obtain ⟨hlt, hget⟩ := List.getElem?_eq_some_iff.mp hs
      rw [htrees, hcount, Tree.solid_cons, if_neg (by simp [he]), passed.symbols,
        List.drop_eq_getElem_cons hlt, List.take_succ_cons, List.map_cons, hget, hx, alike.rest, hd]

/-- **A way down from an accepting state passes the start symbol and extras only.** -/
theorem Reaches.whole (h : s.Sound grammar a) (ha : a.Sound grammar count)
    (hg : Regular grammar count) {i : Nat} {w : Way} (hw : s.Reaches i w)
    (accepting : a.Accepting (s.vertex i).state) :
    ((∀ t ∈ w.trees, t.extra = true) ∧ (s.vertex w.vertex).state = (s.vertex i).state) ∨
      ∃ front t back, w.trees = front ++ t :: back ∧ (∀ u ∈ front, u.extra = true) ∧
        (∀ u ∈ back, u.extra = true) ∧ t.extra = false ∧ t.symbol = .nonterminal .module ∧
        (s.vertex w.vertex).state = Automaton.startState := by
  induction hw with
  | start => exact .inl ⟨fun t ht => absurd ht List.not_mem_nil, rfl⟩
  | @follow w l hw hl ih =>
    obtain ⟨hstate, -, -⟩ | ⟨t, -, he, -, htrees, hstate⟩ | ⟨t, -, he, -, htrees, leads⟩ :=
      follow_cases h hl
    · rcases ih with ⟨-, ih⟩ | ⟨-, -, -, -, -, -, -, -, ih⟩
      · obtain ⟨e, hmem, -⟩ := accepting
        rw [← ih, hstate, ha.error] at hmem
        exact absurd hmem List.not_mem_nil
      · rw [hstate] at ih
        cases ih
    · rw [htrees, hstate]
      rcases ih with ⟨extras, ih⟩ | ⟨front, u, back, hw, hfront, hback, hu, hx, ih⟩
      · exact .inl ⟨List.forall_mem_cons.mpr ⟨he, extras⟩, ih⟩
      · exact .inr ⟨t :: front, u, back, by rw [hw]; rfl, List.forall_mem_cons.mpr ⟨he, hfront⟩,
          hback, hu, hx, ih⟩
    · rcases ih with ⟨extras, ih⟩ | ⟨-, -, -, -, -, -, -, -, ih⟩
      · obtain ⟨e, hmem, hstart, -⟩ := accepting
        obtain ⟨hx, hlow⟩ := ha.start_of_leads hg leads (ih ▸ hmem) hstart
        exact .inr ⟨[], t, w.trees, htrees, fun u hu => absurd hu List.not_mem_nil, extras, he, hx,
          hlow⟩
      · -- nothing leads to the first state, because nothing has been read of its entry
        obtain ⟨e, hmem, hdot⟩ := ha.start
        have := (leads e (ih ▸ hmem)).dot_pos
        omega

end Stack

end Python
end AnnotationAudit
