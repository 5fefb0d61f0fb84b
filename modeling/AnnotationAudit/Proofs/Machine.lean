import AnnotationAudit.Proofs.Stack
import Mathlib.Data.List.TakeWhile

/-!
# The parser builds what the grammar allows

The machine closes productions and reads the end of the text; what it builds is formed after the
grammar.

* `Machine.Whole`    what is promised of the finished tree;
* `Machine.Sound`    automaton and stack are sound, and the finished tree is whole;
* `Machine.Keeps`    a computation keeps the machine sound and the first versions where they are;
* `reduce_keeps`     closing a production does, if the state allows it;
* `accept_keeps`     so does reading the end of the text.
-/

namespace AnnotationAudit
namespace Python

open Text

/-! ## versions that stay where they are -/

namespace Stack

theorem vertex_push {s : Stack} {v w : Nat} (h : v ≠ w) (t : Option Tree) (q : Nat) :
    ((s.push w t q).version v).vertex = (s.version v).vertex := by
  show ((s.versions.modify w _)[v]?.getD default).vertex = _
  rw [Array.getElem?_modify, if_neg (Ne.symm h)]
  rfl

theorem vertex_remove {s : Stack} {v w : Nat} (h : v < w) :
    ((s.remove w).version v).vertex = (s.version v).vertex := by
  have same : (s.versions.eraseIdxIfInBounds w)[v]? = s.versions[v]? := by
    rw [← Array.getElem?_toList, Array.toList_eraseIdxIfInBounds, List.getElem?_eraseIdx_of_lt h,
      Array.getElem?_toList]
  show ((s.versions.eraseIdxIfInBounds w)[v]?.getD default).vertex = _
  rw [same]
  rfl

theorem vertex_setVersion {s : Stack} {f : Version → Version} (hf : ∀ x, (f x).vertex = x.vertex)
    (v w : Nat) : ((s.setVersion w f).version v).vertex = (s.version v).vertex := by
  show ((s.versions.modify w f)[v]?.getD default).vertex = (s.versions[v]?.getD default).vertex
  rw [Array.getElem?_modify]
  split
  · cases s.versions[v]? with
    | none => rfl
    | some x => exact hf x
  · rfl

theorem vertex_merge {s : Stack} {u v w : Nat} (h : v < w) :
    ((s.merge u w).version v).vertex = (s.version v).vertex := by
  rw [merge, vertex_remove h]
  have same := versions_foldl (fun t l => versions_addLink (s.vertices.size + 1) t
    (s.version u).vertex l) (s.top w).links s
  split
  · refine (vertex_setVersion ?_ v u).trans ?_
    · exact fun _ => rfl
    · rw [version, same]
      rfl
  · rw [version, same]
    rfl

end Stack

namespace Machine

variable {grammar : Array Production} {count : Nat} {α β : Type} {n : Nat}

/-! ## keeping the machine sound -/

/-- what a tree of a whole text is: a formed one of the start symbol, or text that does not fit -/
def Whole (grammar : Array Production) (t : Tree) : Prop :=
  t.Formed grammar ∧ (t.symbol = .nonterminal .module ∨ t.symbol = .error ∧ 0 < t.cost)

/-- what holds of the machine at all times -/
structure Sound (grammar : Array Production) (count : Nat) (m : Machine) : Prop where
  automaton : m.automaton.Sound grammar count
  stack : m.stack.Sound grammar m.automaton
  finished : ∀ t, m.finished = some t → Whole grammar t

/-- what may become of a machine while the first `n` versions stay where they are -/
structure Becomes (grammar : Array Production) (count n : Nat) (m m' : Machine) : Prop where
  sound : m'.Sound grammar count
  automaton : m.automaton.Extends m'.automaton
  stack : m.stack.Extends m'.stack
  vertex : ∀ v < n, (m'.stack.version v).vertex = (m.stack.version v).vertex

namespace Becomes

variable {m m' m'' : Machine}

theorem refl (h : m.Sound grammar count) : Becomes grammar count n m m :=
  ⟨h, .refl _, .refl _, fun _ _ => rfl⟩

theorem trans (h : Becomes grammar count n m m') (h' : Becomes grammar count n m' m'') :
    Becomes grammar count n m m'' where
  sound := h'.sound
  automaton := h.automaton.trans h'.automaton
  stack := h.stack.trans h'.stack
  vertex v hv := (h'.vertex v hv).trans (h.vertex v hv)

/-- the states of versions that stay where they are stay as they are -/
theorem state_eq (h : Becomes grammar count n m m') (hm : m.Sound grammar count) {v : Nat}
    (hv : v < n) :
    m'.stack.state v = m.stack.state v := by
  show (m'.stack.vertex (m'.stack.version v).vertex).state = _
  rw [h.vertex v hv]
  exact h.stack.state _ (hm.stack.vertex_lt v)

theorem ofStack (h : m.Sound grammar count) {s : Stack} (hs : s.Sound grammar m.automaton)
    (ext : m.stack.Extends s)
    (vertex : ∀ v < n, (s.version v).vertex = (m.stack.version v).vertex) :
    Becomes grammar count n m { m with stack := s } :=
  ⟨⟨h.automaton, hs, h.finished⟩, .refl _, ext, vertex⟩

theorem ofAutomaton (h : m.Sound grammar count) {a : Automaton} (ha : a.Sound grammar count)
    (ext : m.automaton.Extends a) : Becomes grammar count n m { m with automaton := a } :=
  ⟨⟨ha, h.stack.mono ext, h.finished⟩, ext, .refl _, fun _ _ => rfl⟩

theorem ite {c d : Run α} {p : Prop} [Decidable p]
    (hc : Becomes grammar count n m (c.run m).2) (hd : Becomes grammar count n m (d.run m).2) :
    Becomes grammar count n m (StateT.run (if p then c else d) m).2 := by
  split
  · exact hc
  · exact hd

theorem push (h : m.Sound grammar count) {v q : Nat} {t : Option Tree} (hv : n ≤ v)
    (hq : q < m.automaton.states.size) (hl : LinkSound grammar m.automaton (m.stack.state v) t q) :
    Becomes grammar count n m { m with stack := m.stack.push v t q } :=
  .ofStack h (h.stack.push hq hl) (m.stack.extends_push v t q) fun w hw =>
    Stack.vertex_push (by omega) t q

end Becomes

/-- a computation keeps the machine sound and leaves the first `n` versions where they are -/
def Keeps (grammar : Array Production) (count n : Nat) (c : Run α) : Prop :=
  ∀ m : Machine, m.Sound grammar count → Becomes grammar count n m (c.run m).2

namespace Keeps

theorem pure (x : α) : Keeps grammar count n (Pure.pure x : Run α) := fun _ h => .refl h

theorem bind {c : Run α} {f : α → Run β} (hc : Keeps grammar count n c)
    (hf : ∀ x, Keeps grammar count n (f x)) : Keeps grammar count n (c >>= f) := fun m h =>
  (hc m h).trans (hf _ _ (hc m h).sound)

theorem ite {c d : Run α} {p : Prop} [Decidable p] (hc : Keeps grammar count n c)
    (hd : Keeps grammar count n d) : Keeps grammar count n (if p then c else d) := fun m h =>
  .ite (hc m h) (hd m h)

theorem get : Keeps grammar count n (MonadState.get : Run Machine) := fun _ h => .refl h

theorem forM {xs : List α} {f : α → Run PUnit} (h : ∀ x ∈ xs, Keeps grammar count n (f x)) :
    Keeps grammar count n (xs.forM f) := by
  induction xs with
  | nil => exact .pure _
  | cons x xs ih =>
    exact .bind (h x List.mem_cons_self) fun _ => ih fun y hy => h y (List.mem_cons_of_mem _ hy)

theorem stackSize : Keeps grammar count n stackSize := fun _ h => .refl h
theorem stateOf (v : Nat) : Keeps grammar count n (stateOf v) := fun _ h => .refl h
theorem cursorOf (v : Nat) : Keeps grammar count n (cursorOf v) := fun _ h => .refl h
theorem hasActions (q : Nat) (x : Terminal) : Keeps grammar count n (hasActions q x) :=
  fun _ h => .refl h

theorem stack! {f : Stack → Stack}
    (hs : ∀ {s : Stack} {a : Automaton}, s.Sound grammar a → (f s).Sound grammar a)
    (ext : ∀ {s : Stack} {a : Automaton}, s.Sound grammar a → s.Extends (f s))
    (vertex : ∀ s, ∀ v < n, ((f s).version v).vertex = (s.version v).vertex) :
    Keeps grammar count n (stack! f) := fun m h =>
  .ofStack h (hs h.stack) (ext h.stack) (vertex m.stack)

/-- a change to versions alone, if none has to stay -/
theorem versions! {f : Stack → Stack}
    (hs : ∀ {s : Stack} {a : Automaton}, s.Sound grammar a → (f s).Sound grammar a)
    (same : ∀ s, (f s).vertices = s.vertices) : Keeps grammar count 0 (Machine.stack! f) :=
  .stack! hs (fun {s _} _ => Stack.extends_of_vertices (same s)) fun _ _ hv =>
    absurd hv (Nat.not_lt_zero _)

/-! ## trees on top of a version -/

/-- extras leave the state as it is -/
theorem pushExtra {v : Nat} (hv : n ≤ v) {t : Tree} (ht : t.Sound grammar) (he : t.extra = true) :
    Keeps grammar count n (pushExtra v t) := fun m h =>
  .push h hv (h.stack.state_lt v) ⟨ht, by rw [if_pos he]⟩

/-- what counts leads on -/
theorem pushNext (hg : Regular grammar count) {v : Nat} (hv : n ≤ v) {t : Tree}
    (ht : t.Sound grammar) (he : t.extra = false) (hx : t.symbol.isReal = true) :
    Keeps grammar count n (pushNext v t) := fun m h => by
  have spec := Automaton.goto_spec h.automaton hg (m.stack.state v) hx
  have step : Becomes grammar count n m
      { m with automaton := (m.automaton.goto (m.stack.state v) t.symbol).1 } :=
    .ofAutomaton h spec.sound spec.extends_
  refine step.trans (Becomes.push step.sound hv spec.lt_size ⟨ht, ?_⟩)
  rw [if_neg (by simp [he])]
  exact spec.leads

/-- in the error state anything can be put on top -/
theorem pushBroken {v : Nat} (hv : n ≤ v) {t : Tree} (ht : t.Sound grammar) (he : t.extra = false) :
    Keeps grammar count n (Machine.push v t Automaton.errorState) := fun m h => by
  refine .push h hv (Nat.lt_of_lt_of_le Nat.zero_lt_two h.automaton.two_le_size) ⟨ht, ?_⟩
  rw [if_neg (by simp [he])]
  exact h.automaton.leads_errorState _ _

/-! ## merging -/

theorem remove {w : Nat} (hw : n ≤ w) : Keeps grammar count n (Machine.stack! (·.remove w)) :=
  .stack! (fun h => h.remove w) (fun _ => Stack.extends_of_vertices rfl) fun _ v hv =>
    Stack.vertex_remove (by omega)

theorem mergeInto {w : Nat} (hw : n ≤ w) (vs : List Nat) :
    Keeps grammar count n (mergeInto w vs) := by
  induction vs with
  | nil => exact .pure _
  | cons v vs ih =>
    intro m h
    show Becomes grammar count n m (StateT.run (if m.stack.canMerge v w then
      (do Machine.stack! (·.merge v w); return true) else Machine.mergeInto w vs) m).2
    split
    · next hm =>
      obtain ⟨hs, ext⟩ := h.stack.merge hm
      exact .ofStack h hs ext fun u hu => Stack.vertex_merge (by omega)
    · exact ih m h

end Keeps

/-! ## closing a production -/

/-- trees that a production with the left-hand side `v` and the marks of `steps` can take in -/
structure Fill (grammar : Array Production) (v : Nat) (steps : List Step) (ts : List Tree) :
    Prop where
  production : ∃ p ∈ grammar, p.variableIndex = v ∧
    p.marks = steps.map (fun s => (s.shown, s.field)) ∧ Tree.solid ts = p.steps.map (·.symbol)
  sound : ∀ t ∈ ts, t.Sound grammar

theorem splitTrailing_spec (ts : List Tree) :
    (Tree.splitTrailing ts).1 ++ (Tree.splitTrailing ts).2 = ts ∧
      ∀ t ∈ (Tree.splitTrailing ts).2, t.extra = true := by
  refine ⟨?_, fun t ht => ?_⟩
  · show (ts.reverse.dropWhile Tree.extra).reverse ++ (ts.reverse.takeWhile Tree.extra).reverse = ts
    rw [← List.reverse_append, List.takeWhile_append_dropWhile, List.reverse_reverse]
  · exact List.mem_takeWhile_imp (List.mem_reverse.mp ht)

theorem bestBranch_spec (symbol : Symbol) (steps : List Step) (c : Cursor) {g : List (List Tree)}
    (hg : g ≠ []) : ∃ ts ∈ g, bestBranch symbol steps c g =
      (Tree.branch symbol steps c (Tree.splitTrailing ts).1, (Tree.splitTrailing ts).2) := by
  cases g with
  | nil => exact absurd rfl hg
  | cons ts rest =>
    rw [bestBranch]
    refine List.foldlRecOn (motive := fun best => ∃ us ∈ ts :: rest, best =
      (Tree.branch symbol steps c (Tree.splitTrailing us).1, (Tree.splitTrailing us).2))
      rest _ ?_ ?_
    · exact ⟨ts, List.mem_cons_self, rfl⟩
    · intro best ih us hus
      dsimp only
      split
      · exact ⟨us, List.mem_cons_of_mem _ hus, rfl⟩
      · exact ih

theorem mem_groups {xs : List Stack.Slice} {g : List (List Tree)} (h : g ∈ groups xs) :
    g ≠ [] ∧ ∀ ts ∈ g, ∃ x ∈ xs, x.trees = ts := by
  induction xs generalizing g with
  | nil => exact absurd h List.not_mem_nil
  | cons x xs ih =>
    have single : g = [x.trees] → g ≠ [] ∧ ∀ ts ∈ g, ∃ y ∈ x :: xs, y.trees = ts := by
      rintro rfl
      refine ⟨List.cons_ne_nil _ _, fun ts hts => ⟨x, List.mem_cons_self, ?_⟩⟩
      exact (List.mem_singleton.mp hts).symm
    have old : g ∈ groups xs → g ≠ [] ∧ ∀ ts ∈ g, ∃ y ∈ x :: xs, y.trees = ts := fun hg =>
      ⟨(ih hg).1, fun ts hts => by
        obtain ⟨y, hy, rfl⟩ := (ih hg).2 ts hts
        exact ⟨y, List.mem_cons_of_mem _ hy, rfl⟩⟩
    cases xs with
    | nil => exact single (List.mem_singleton.mp h)
    | cons y xs =>
      rw [groups] at h
      split at h
      · next us rest hgroups =>
        split at h
        · rcases List.mem_cons.mp h with rfl | h
          · refine ⟨List.cons_ne_nil _ _, fun ts hts => ?_⟩
            rcases List.mem_cons.mp hts with rfl | hts
            · exact ⟨x, List.mem_cons_self, rfl⟩
            · obtain ⟨z, hz, rfl⟩ := (ih (hgroups ▸ List.mem_cons_self)).2 ts hts
              exact ⟨z, List.mem_cons_of_mem _ hz, rfl⟩
          · exact old (hgroups ▸ List.mem_cons_of_mem _ h)
        · rcases List.mem_cons.mp h with rfl | h
          · exact single rfl
          · exact old (hgroups ▸ h)
      · exact single (List.mem_singleton.mp h)

theorem Fill.sound_branch {i : Nat} {steps : List Step} {ts : List Tree}
    (h : Fill grammar i steps ts) (c : Cursor) (w : Int) :
    ((Tree.branch (symbolOf i) steps c (Tree.splitTrailing ts).1).addWeight w).Sound grammar := by
  obtain ⟨⟨p, hp, rfl, hmarks, hsymbols⟩, sound⟩ := h
  obtain ⟨split, extras⟩ := splitTrailing_spec ts
  refine ⟨Tree.Formed.addWeight (Tree.formed_build hp false c hmarks.symm ?_ ?_) w, nofun⟩
  · rw [← hsymbols, ← split, Tree.solid_append, split, Tree.solid_eq_nil extras, List.append_nil]
  · exact fun t ht => sound t (split ▸ List.mem_append_left _ ht)

namespace Keeps

theorem closeGroups (hg : Regular grammar count) (v : Nat) {i : Nat} {steps : List Step}
    (weight : Int)
    {gs : List (List (List Tree))} (h : ∀ g ∈ gs, g ≠ [] ∧ ∀ ts ∈ g, Fill grammar i steps ts)
    {w : Nat} (hw : n ≤ w) :
    Keeps grammar count n (closeGroups v (symbolOf i) steps weight gs w) := by
  induction gs generalizing w with
  | nil => exact .pure _
  | cons g gs ih =>
    have rest : ∀ {w}, n ≤ w → Keeps grammar count n
        (Machine.closeGroups v (symbolOf i) steps weight gs w) :=
      fun hw => ih (fun g hg => h g (List.mem_cons_of_mem _ hg)) hw
    obtain ⟨hne, fill⟩ := h g List.mem_cons_self
    rw [Machine.closeGroups]
    split
    · exact .bind (.remove hw) fun _ => rest hw
    · refine .bind (.cursorOf w) fun c => ?_
      obtain ⟨ts, hts, best⟩ := bestBranch_spec (symbolOf i) steps c hne
      rw [best]
      refine .bind (.pushNext hg hw ((fill ts hts).sound_branch c weight) rfl (isReal_symbolOf i))
        fun _ => ?_
      refine .bind (.forM fun t ht => .pushExtra hw ?_ ((splitTrailing_spec ts).2 t ht)) fun _ => ?_
      · refine (fill ts hts).sound t ?_
        rw [← (splitTrailing_spec ts).1]
        exact List.mem_append_right _ ht
      · refine .bind (.mergeInto hw _) fun merged => rest ?_
        split <;> omega

end Keeps

/-- the ways down of a version stay in bounds -/
theorem Sound.way_lt {m : Machine} (h : m.Sound grammar count) {v : Nat} {σ : Type} {x : σ}
    {f : σ → Stack.Way → σ × Stack.Verdict} :
    ∀ w ∈ (m.stack.ways v x f).2, w.vertex < m.stack.vertices.size := fun _ hw =>
  (Stack.reaches_of_mem_ways hw).1.vertex_lt h.stack (h.stack.vertex_lt v)

/-- a version is taken down along ways -/
theorem Becomes.slices {m : Machine} (h : m.Sound grammar count) {v : Nat} {ws : List Stack.Way}
    (hw : ∀ w ∈ ws, w.vertex < m.stack.vertices.size) (hn : n ≤ m.stack.size) :
    Becomes grammar count n m { m with stack := (m.stack.slices v ws).1 } := by
  have sliced := Stack.sliced_slices m.stack v ws
  refine .ofStack h (sliced.sound h.stack hw) (Stack.extends_of_vertices sliced.vertices) ?_
  intro u hu
  rw [sliced.version u (Nat.lt_of_lt_of_le hu hn)]

/-- the ways down from a state in which a production can be closed pass what it takes in -/
theorem fill_of_reaches (hg : Regular grammar count) {m : Machine} (h : m.Sound grammar count)
    {v i : Nat} {p : Production} (hp : m.automaton.tables.productions[i]? = some p)
    (hmem : p ∈ grammar)
    (before : At grammar (m.automaton.entries (m.stack.state v)) i p.steps.length) {w : Stack.Way}
    (reaches : m.stack.Reaches (m.stack.version v).vertex w) (hcount : w.count = p.steps.length) :
    Fill grammar p.variableIndex p.steps w.trees := by
  obtain ⟨j, d, p', passed⟩ := reaches.symbols h.stack h.automaton before hp (Nat.le_of_eq hcount)
  refine ⟨⟨p', ?_, passed.variableIndex, passed.marks, ?_⟩, reaches.sound h.stack⟩
  · exact h.automaton.mem_grammar_of_variableIndex passed.production
      (passed.variableIndex ▸ hg.variableIndex_ne p hmem)
  · have hd : d = 0 := by
      have := passed.dot
      omega
    have hlen : p'.steps.length = p.steps.length := by
      simpa [Production.marks] using congrArg List.length passed.marks
    rw [passed.symbols, hd, List.drop_zero, hcount, ← hlen, List.take_length]

/-- closing a production keeps the machine sound and all versions where they are, if the ways down
pass what the production takes in -/
theorem close_keeps (hg : Regular grammar count) {m : Machine} (h : m.Sound grammar count) {v : Nat}
    {p : Production}
    (fill : ∀ w, m.stack.Reaches (m.stack.version v).vertex w → w.count = p.steps.length →
      Fill grammar p.variableIndex p.steps w.trees) :
    Becomes grammar count m.stack.size m ((close v p).run m).2 := by
  let ws := (m.stack.ways v () fun _ w =>
    ((), ⟨w.count == p.steps.length, w.count == p.steps.length⟩)).2
  have step : Becomes grammar count m.stack.size m { m with stack := (m.stack.slices v ws).1 } :=
    .slices h h.way_lt (Nat.le_refl _)
  refine step.trans (Keeps.bind (.closeGroups hg v p.weight ?_ (Nat.le_refl _)) (fun _ =>
    .bind .stackSize fun _ => .pure _) _ step.sound)
  intro g hgs
  obtain ⟨hne, htrees⟩ := mem_groups hgs
  refine ⟨hne, fun ts hts => ?_⟩
  obtain ⟨x, hx, rfl⟩ := htrees ts hts
  obtain ⟨w, hw, hxw⟩ := (Stack.sliced_slices m.stack v ws).trees x hx
  obtain ⟨reaches, -, hit⟩ := Stack.reaches_of_mem_ways hw
  rw [hxw]
  exact fill w reaches (by simpa using hit)

/-- **Closing a production that the state allows to close** keeps the machine sound and the version
in its state. -/
theorem reduce_keeps (hg : Regular grammar count) {m : Machine} (h : m.Sound grammar count)
    {v i : Nat} (hc : m.automaton.Closable grammar (m.stack.state v) i) :
    Becomes grammar count 0 m ((reduce v i).run m).2 ∧
      ((reduce v i).run m).2.stack.state v = m.stack.state v := by
  obtain ⟨p, hp, hmem, before⟩ := hc
  by_cases hv : m.stack.size ≤ v
  · have stay : (reduce v i).run m = (none, m) := by
      show StateT.run (if m.stack.size ≤ v then (pure none : Run _) else _) m = _
      rw [if_pos hv]
      rfl
    rw [stay]
    exact ⟨.refl h, rfl⟩
  · have close : (reduce v i).run m = (close v p).run m := by
      show StateT.run (if m.stack.size ≤ v then (pure none : Run _) else _) m = _
      rw [if_neg hv, h.automaton.tables.numbered, hp]
      rfl
    have step := close_keeps hg h fun w => fill_of_reaches hg h hp hmem before
    rw [close]
    exact ⟨⟨step.sound, step.automaton, step.stack, fun _ hu => absurd hu (Nat.not_lt_zero _)⟩,
      step.state_eq h (by omega)⟩

/-! ## the end of the text -/

theorem wholeTree_of_solid {front back : List Tree} {t : Tree} (ht : t.extra = false)
    (hback : ∀ u ∈ back, u.extra = true) (c : Cursor) :
    wholeTree c (front ++ t :: back) =
      some (Tree.build t.symbol t.info.steps false c (front ++ t.children ++ back)) := by
  have reversed : (front ++ t :: back).reverse = back.reverse ++ t :: front.reverse := by simp
  have extras : ∀ u ∈ back.reverse, u.extra = true := fun u hu => hback u (List.mem_reverse.mp hu)
  have stop : ¬ t.extra = true := by simp [ht]
  rw [wholeTree, reversed, List.dropWhile_append_of_pos extras, List.takeWhile_append_of_pos extras,
    List.dropWhile_cons_of_neg stop, List.takeWhile_cons_of_neg stop]
  simp

theorem wholeTree_of_extras {ts : List Tree} (h : ∀ t ∈ ts, t.extra = true) (c : Cursor) :
    wholeTree c ts = none := by
  rw [wholeTree, List.dropWhile_eq_nil_iff.mpr fun t ht => h t (List.mem_reverse.mp ht)]

/-- a tree of the start symbol takes in extras and stays what it is -/
theorem whole_build {front back : List Tree} {t : Tree} (ht : t.Formed grammar)
    (hx : t.symbol = .nonterminal .module)
    (hfront : ∀ u ∈ front, u.Sound grammar ∧ u.extra = true)
    (hback : ∀ u ∈ back, u.Sound grammar ∧ u.extra = true) (c : Cursor) :
    Whole grammar (Tree.build t.symbol t.info.steps false c (front ++ t.children ++ back)) := by
  refine ⟨?_, .inl hx⟩
  cases ht with
  | @token i h _ =>
    have hx : i.symbol = .nonterminal .module := hx
    rw [hx] at h
    cases h
  | @broken i cs h _ _ _ =>
    have hx : i.symbol = .nonterminal .module := hx
    rw [hx] at h
    rcases h with h | h <;> cases h
  | @branch i cs p mem symbol marks symbols children extras _ _ _ =>
    show (Tree.build i.symbol i.steps false c (front ++ cs ++ back)).Formed grammar
    rw [symbol]
    refine Tree.formed_build mem false c marks ?_ fun u hu => ?_
    · rw [Tree.solid_append, Tree.solid_append, Tree.solid_eq_nil fun u hu => (hfront u hu).2,
        Tree.solid_eq_nil fun u hu => (hback u hu).2, List.append_nil, List.nil_append]
      exact symbols
    · simp only [List.mem_append] at hu
      rcases hu with (hu | hu) | hu
      · exact (hfront u hu).1
      · exact ⟨children u hu, extras u hu⟩
      · exact (hback u hu).1

theorem finish_keeps {t : Tree} (ht : Whole grammar t) :
    Keeps grammar count n (modify (finish t) : Run PUnit) := fun m h => by
  refine ⟨⟨h.automaton, h.stack, fun u hu => ?_⟩, .refl _, .refl _, fun _ _ => rfl⟩
  have hu : m.finished.elim t (fun v => if v.preferred t then t else v) = u := Option.some.inj hu
  rw [← hu]
  cases hm : m.finished with
  | none => exact ht
  | some v =>
    rw [Option.elim_some]
    split
    · exact ht
    · exact h.finished v hm

theorem Keeps.retire (v : Nat) (xs : List Stack.Slice) : Keeps grammar count 0 (retire v xs) := by
  cases xs with
  | nil => exact .versions! (fun hs => hs.halt v) fun _ => rfl
  | cons x xs => exact .versions! (fun hs => (hs.remove _).halt v) fun _ => rfl

/-- reading the end of the text keeps the machine sound if all trees that it makes are whole -/
theorem accept_keeps_of {m : Machine} (h : m.Sound grammar count) {v : Nat} {rest : List Tree}
    {eof : Token}
    (whole : ∀ w t, m.stack.Reaches (m.stack.version v).vertex w →
      wholeTree eof.stop (w.trees ++ rest ++ [Tree.leaf eof true]) = some t → Whole grammar t) :
    Becomes grammar count 0 m ((accept v rest eof).run m).2 := by
  let ws := (m.stack.ways v () fun _ w => ((), ⟨(m.stack.vertex w.vertex).links.isEmpty, false⟩)).2
  let r := m.stack.slices v ws
  have step : Becomes grammar count 0 m { m with stack := r.1 } :=
    .slices h h.way_lt (Nat.zero_le _)
  have cleared : Becomes grammar count 0 m { m with stack := r.1.clear v eof.stop } :=
    step.trans (.ofStack step.sound (step.sound.stack.clear h.automaton v eof.stop)
      ((Stack.extends_addVertex _ _).trans (Stack.extends_of_vertices rfl))
      fun _ hu => absurd hu (Nat.not_lt_zero _))
  refine cleared.trans (Keeps.bind (.forM fun x hx => ?_) (fun _ => .retire v r.2) _ cleared.sound)
  obtain ⟨w, hw, hxw⟩ := (Stack.sliced_slices m.stack v ws).trees x hx
  rw [hxw]
  cases ht : wholeTree eof.stop (w.trees ++ rest ++ [Tree.leaf eof true]) with
  | none => exact .pure _
  | some t => exact finish_keeps (whole w t (Stack.reaches_of_mem_ways hw).1 ht)

/-- **In an accepting state the trees of a version are whole.** -/
theorem accept_keeps (hg : Regular grammar count) {m : Machine} (h : m.Sound grammar count)
    {v : Nat} {eof : Token} (ht : eof.symbol = some .endOfText)
    (accepting : m.automaton.Accepting (m.stack.state v)) :
    Becomes grammar count 0 m ((accept v [] eof).run m).2 := by
  refine accept_keeps_of h fun w t reaches made => ?_
  have sound := reaches.sound h.stack
  have leaf : (Tree.leaf eof true).Sound grammar ∧ (Tree.leaf eof true).extra = true :=
    ⟨Tree.sound_leaf ht fun _ => rfl, rfl⟩
  rw [List.append_nil] at made
  obtain ⟨extras, -⟩ | ⟨front, u, back, hw, hfront, hback, hu, hx, -⟩ :=
    reaches.whole h.stack h.automaton hg accepting
  · rw [wholeTree_of_extras (List.forall_mem_append.mpr
      ⟨extras, fun u hu => List.mem_singleton.mp hu ▸ leaf.2⟩)] at made
    cases made
  · rw [hw] at made sound
    have extras : ∀ u ∈ back ++ [Tree.leaf eof true], u.Sound grammar ∧ u.extra = true := by
      intro u hu
      rcases List.mem_append.mp hu with hu | hu
      · exact ⟨sound u (by simp [hu]), hback u hu⟩
      · exact List.mem_singleton.mp hu ▸ leaf
    rw [List.append_assoc, List.cons_append,
      wholeTree_of_solid hu fun u hu => (extras u hu).2] at made
    obtain rfl := Option.some.inj made
    exact whole_build (sound u (by simp)).formed hx
      (fun u hu => ⟨sound u (by simp [hu]), hfront u hu⟩) extras eof.stop

/-- where the text does not fit to its end, the tree has a cost -/
theorem accept_wreck_keeps (v : Nat) (c : Cursor) {eof : Token}
    (ht : eof.symbol = some .endOfText) :
    Keeps grammar count 0 (accept v [Tree.wreck false c []] eof) := fun m h =>
  accept_keeps_of h fun w t reaches made => by
    rw [List.append_assoc, List.singleton_append,
      wholeTree_of_solid rfl (fun u hu => List.mem_singleton.mp hu ▸ rfl)] at made
    obtain rfl := Option.some.inj made
    refine ⟨Tree.formed_build_of_broken (.inl rfl) [] false eof.stop fun u hu _ => ?_,
      .inr ⟨rfl, Tree.cost_build_pos (.inl rfl) [] false _ _⟩⟩
    simp only [List.mem_append, List.mem_singleton] at hu
    rcases hu with (hu | hu) | rfl
    · exact reaches.sound h.stack u hu
    · exact absurd hu List.not_mem_nil
    · exact Tree.sound_leaf ht fun _ => rfl

end Machine
end Python
end AnnotationAudit
