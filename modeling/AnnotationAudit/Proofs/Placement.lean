import AnnotationAudit.Proofs.Nesting
import AnnotationAudit.Proofs.Parsing
import AnnotationAudit.Proofs.Statements

/-!
# Accepted texts are in place

The nodes of a text are those of its parse tree, which is formed after the grammar. So definitions
stand where the grammar puts them, and the outline of the text keeps their nesting.

* `Node.collectAll_eq`          the parts of a node are the visible nodes of a tree's children;
* `Placed`                      what is known of the visible nodes of a tree;
* `Tree.Formed.placed`          it holds of every formed tree that fits its text;
* `Tree.Formed.filled`          the production whose children a formed tree has;
* `Machine.Whole.ofTree_eq`     the root of a text is the node of its parse tree;
* `Outline.parse_cases`         a text is refused, or its outline is the lowered form of its tree;
* `Outline.parse_keeps_functions`  the outline of an accepted text has its functions and no others.
-/

namespace AnnotationAudit
namespace Python

open Text

/-! ## visible nodes -/

namespace Tree

variable {steps : List Step} {t : Tree} {ts : List Tree}

theorem withSteps_cons_extra (h : t.extra = true) :
    withSteps steps (t :: ts) = (none, t) :: withSteps steps ts := by
  cases steps <;> rw [withSteps, if_pos h]

theorem withSteps_cons_solid (h : t.extra = false) :
    withSteps steps (t :: ts) = (steps.head?, t) :: withSteps (steps.drop 1) ts := by
  cases steps <;> rw [withSteps, if_neg (by simp [h])] <;> rfl

/-- a child that is not extra stands for a step of its own symbol -/
theorem mem_withSteps (h : solid ts = steps.map (·.symbol)) {c : Option Step × Tree}
    (hc : c ∈ withSteps steps ts) :
    c.2 ∈ ts ∧ (c.1 = none ∧ c.2.extra = true ∨
      ∃ s ∈ steps, c.1 = some s ∧ c.2.symbol = s.symbol) := by
  induction ts generalizing steps with
  | nil => exact absurd hc List.not_mem_nil
  | cons t ts ih =>
    rw [solid_cons] at h
    cases ht : t.extra with
    | true =>
      rw [ht, if_pos rfl] at h
      rw [withSteps_cons_extra ht] at hc
      rcases List.mem_cons.mp hc with rfl | hc
      · exact ⟨List.mem_cons_self, .inl ⟨rfl, ht⟩⟩
      · exact (ih h hc).imp_left (List.mem_cons_of_mem _)
    | false =>
      rw [ht, if_neg (by simp)] at h
      rw [withSteps_cons_solid ht] at hc
      cases steps with
      | nil => cases h
      | cons s steps =>
        obtain ⟨symbol, rest⟩ := List.cons.inj h
        rcases List.mem_cons.mp hc with rfl | hc
        · exact ⟨List.mem_cons_self, .inr ⟨s, List.mem_cons_self, rfl, symbol⟩⟩
        · obtain ⟨hmem, hstep⟩ := ih rest hc
          refine ⟨List.mem_cons_of_mem _ hmem, hstep.imp_right ?_⟩
          exact fun ⟨u, hu, hcu⟩ => ⟨u, List.mem_cons_of_mem _ hu, hcu⟩

/-- children and steps are in the same order -/
theorem filterMap_withSteps (h : solid ts = steps.map (·.symbol)) :
    (withSteps steps ts).filterMap (·.1) = steps := by
  induction ts generalizing steps with
  | nil => exact (List.map_eq_nil_iff.mp h.symm).symm
  | cons t ts ih =>
    rw [solid_cons] at h
    cases ht : t.extra with
    | true =>
      rw [ht, if_pos rfl] at h
      rw [withSteps_cons_extra ht, List.filterMap_cons_none rfl, ih h]
    | false =>
      rw [ht, if_neg (by simp)] at h
      cases steps with
      | nil => cases h
      | cons s steps =>
        rw [withSteps_cons_solid ht]
        exact congrArg (s :: ·) (ih (List.cons.inj h).2)

end Tree

namespace Node

variable {steps : List Step} {part : Option Field} {after : List (Option Field × Node)} {t : Tree}
  {ts : List Tree}

theorem collectAll_cons_extra (h : t.extra = true) :
    collectAll steps part after (t :: ts) =
      collect none none (collectAll steps none after ts) t := by
  rw [collectAll, h]
  rfl

theorem collectAll_cons_solid (h : t.extra = false) :
    collectAll steps part after (t :: ts) =
      collect steps.head? part (collectAll (steps.drop 1) part after ts) t := by
  rw [collectAll, h]
  rfl

mutual

theorem collect_append (step : Option Step) (part : Option Field)
    (after : List (Option Field × Node)) :
    ∀ t : Tree, collect step part after t = collect step part [] t ++ after
  | .node i cs => by
    rw [collect, collect]
    split
    · rfl
    · exact collectAll_append i.steps _ after cs

theorem collectAll_append (steps : List Step) (part : Option Field)
    (after : List (Option Field × Node)) :
    ∀ ts : List Tree, collectAll steps part after ts = collectAll steps part [] ts ++ after
  | [] => rfl
  | t :: ts => by
    cases h : t.extra with
    | true =>
      rw [collectAll_cons_extra h, collectAll_cons_extra h, collect_append _ _ _ t,
        collectAll_append _ _ after ts, collect_append _ _ (collectAll _ _ [] ts) t,
        List.append_assoc]
    | false =>
      rw [collectAll_cons_solid h, collectAll_cons_solid h, collect_append _ _ _ t,
        collectAll_append _ _ after ts, collect_append _ _ (collectAll _ _ [] ts) t,
        List.append_assoc]

end

/-- of a step only its marks matter -/
theorem collect_congr {s s' : Option Step}
    (h : s.map (fun s => (s.shown, s.field)) = s'.map fun s => (s.shown, s.field)) :
    collect s part after t = collect s' part after t := by
  have shown : s.bind (·.shown) = s'.bind (·.shown) := by
    simpa [Option.bind_map, Function.comp_def] using congrArg (Option.bind · Prod.fst) h
  have field : s.bind (·.field) = s'.bind (·.field) := by
    simpa [Option.bind_map, Function.comp_def] using congrArg (Option.bind · Prod.snd) h
  cases t
  rw [collect, collect, shown, field]

theorem collectAll_congr {steps' : List Step}
    (h : steps.map (fun s => (s.shown, s.field)) = steps'.map fun s => (s.shown, s.field)) :
    collectAll steps part after ts = collectAll steps' part after ts := by
  induction ts generalizing steps steps' part with
  | nil => rfl
  | cons t ts ih =>
    cases ht : t.extra with
    | true => rw [collectAll_cons_extra ht, collectAll_cons_extra ht, ih h]
    | false =>
      have first := congrArg List.head? h
      have rest := congrArg (List.drop 1) h
      rw [List.head?_map, List.head?_map] at first
      rw [← List.map_drop, ← List.map_drop] at rest
      rw [collectAll_cons_solid ht, collectAll_cons_solid ht, ih rest, collect_congr first]

/-- the visible nodes of a tree's children, child by child -/
theorem mem_collectAll {d : Option Field × Node} (h : d ∈ collectAll steps part [] ts) :
    ∃ c ∈ Tree.withSteps steps ts, ∃ q, (q = part ∨ q = none) ∧ d ∈ collect c.1 q [] c.2 := by
  induction ts generalizing steps part with
  | nil => exact absurd h List.not_mem_nil
  | cons t ts ih =>
    cases ht : t.extra with
    | true =>
      rw [collectAll_cons_extra ht, collect_append, List.mem_append] at h
      rw [Tree.withSteps_cons_extra ht]
      rcases h with h | h
      · exact ⟨_, List.mem_cons_self, none, .inr rfl, h⟩
      · obtain ⟨c, hc, q, hq, hd⟩ := ih h
        exact ⟨c, List.mem_cons_of_mem _ hc, q, .inr (hq.elim id id), hd⟩
    | false =>
      rw [collectAll_cons_solid ht, collect_append, List.mem_append] at h
      rw [Tree.withSteps_cons_solid ht]
      rcases h with h | h
      · exact ⟨_, List.mem_cons_self, part, .inl rfl, h⟩
      · obtain ⟨c, hc, q, hq, hd⟩ := ih h
        exact ⟨c, List.mem_cons_of_mem _ hc, q, hq, hd⟩

theorem collectAll_eq : collectAll steps none [] ts =
    (Tree.withSteps steps ts).flatMap fun c => collect c.1 none [] c.2 := by
  induction ts generalizing steps with
  | nil => rfl
  | cons t ts ih =>
    cases ht : t.extra with
    | true =>
      rw [collectAll_cons_extra ht, Tree.withSteps_cons_extra ht, collect_append, ih,
        List.flatMap_cons]
    | false =>
      rw [collectAll_cons_solid ht, Tree.withSteps_cons_solid ht, collect_append, ih,
        List.flatMap_cons]

/-- the node that a tree makes where it is visible or shown -/
def ofChild (step : Option Step) : Tree → Node
  | .node i cs =>
    .mk ((step.bind (·.shown)).getD i.symbol.kind)
      (match step.bind (·.shown) with
        | some .notIn | some .isNot => false
        | some _ => true
        | none => i.symbol.isNamed)
      i.absent (0 < i.cost) i.start.position i.stop.position (collectAll i.steps none [] cs)

theorem parts_eq_nil (step : Option Step) (nil : t.children = []) :
    (ofChild step t).parts = [] := by
  obtain ⟨i, cs⟩ := t
  obtain rfl : cs = [] := nil
  rfl

theorem collect_of_isShown {step : Option Step} (h : Tree.isShown (step, t) = true) :
    collect step part [] t = [((step.bind (·.field)).or part, ofChild step t)] := by
  cases t
  rw [collect]
  exact if_pos h

theorem mem_collect_of_isShown (part : Option Field) {step : Option Step}
    (h : Tree.isShown (step, t) = true) :
    ((step.bind (·.field)).or part, ofChild step t) ∈ collect step part [] t := by
  rw [collect_of_isShown h]
  exact List.mem_singleton_self _

theorem isShown_of_symbol {s : Step} (same : t.symbol = s.symbol) :
    Tree.isShown (some s, t) = s.shows := by
  rw [Tree.isShown, Step.shows, same]
  rfl

/-- a step that shows makes one node, which plays the part of the step -/
theorem collect_of_shows {s : Step} (same : t.symbol = s.symbol) (h : s.shows = true) :
    collect (some s) none [] t = [(s.field, ofChild (some s) t)] := by
  rw [collect_of_isShown ((isShown_of_symbol same).trans h)]
  exact congrArg (fun x => [(x, _)]) Option.or_none

theorem collect_of_hidden {step : Option Step} (h : Tree.isShown (step, t) = false) :
    collect step part [] t =
      collectAll t.info.steps ((step.bind (·.field)).or part) [] t.children := by
  cases t
  rw [collect]
  exact if_neg (Bool.eq_false_iff.mp h)

theorem collect_eq_nil {step : Option Step} (h : Tree.isShown (step, t) = false)
    (nil : t.children = []) : collect step part [] t = [] := by
  rw [collect_of_hidden h, nil]
  rfl

/-- a tree without children makes one node or none -/
theorem eq_of_mem_collect {step : Option Step} (nil : t.children = []) {d : Option Field × Node}
    (hd : d ∈ collect step part [] t) : d = ((step.bind (·.field)).or part, ofChild step t) := by
  cases h : Tree.isShown (step, t) with
  | true =>
    rw [collect_of_isShown h] at hd
    exact List.mem_singleton.mp hd
  | false =>
    rw [collect_eq_nil h nil] at hd
    exact absurd hd List.not_mem_nil

theorem kind_ofChild (step : Option Step) (t : Tree) :
    (ofChild step t).kind = (step.bind (·.shown)).getD t.symbol.kind := by
  cases t
  rfl

theorem faulty_ofChild (step : Option Step) (t : Tree) :
    (ofChild step t).faulty = true ↔ 0 < t.cost := by
  cases t
  exact decide_eq_true_iff

theorem named_ofChild (step : Option Step) (t : Tree) :
    (ofChild step t).named =
      match step.bind (·.shown) with
      | some .notIn | some .isNot => false
      | some _ => true
      | none => t.symbol.isNamed := by
  cases t
  rfl

/-! ## nodes in place -/

theorem isPlain_iff {n : Node} :
    n.IsPlain ↔ n.isDefinition = false ∧ ∀ d ∈ n.parts, d.2.IsPlain :=
  forall_mem_preorder

theorem isDefinition_of_kind {n : Node} (h : n.kind.isDefinition = false) :
    n.isDefinition = false := by
  rw [Bool.eq_false_iff]
  intro hd
  rcases isDefinition_iff.mp hd with hk | hk <;> rw [hk] at h <;> cases h

/-- little is asked of nodes that are no definitions -/
theorem InPlace.of_kind {n : Node} (hk : n.kind.isDefinition = false)
    (unnamed : n.named = false → n.IsPlain) (lambda : n.kind = .lambda → n.IsPlain) :
    n.InPlace := by
  have hd : ¬ n.isDefinition = true := Bool.eq_false_iff.mp (isDefinition_of_kind hk)
  have hk : ¬ n.kind = .decoratedDefinition := fun h => by rw [h] at hk; cases hk
  exact ⟨unnamed, lambda, fun h => absurd h hd, fun h => absurd h hd, fun h => absurd h hk,
    fun h => absurd h hk⟩

/-- if one part at most plays `f`, no other does -/
theorem mem_eraseP {P : List (Option Field × Node)} {f : Field} (h : P.countP (plays f) ≤ 1)
    {d : Option Field × Node} (hd : d ∈ P.eraseP (plays f)) : d ∈ P ∧ plays f d = false := by
  induction P with
  | nil => exact absurd hd List.not_mem_nil
  | cons e P ih =>
    by_cases he : plays f e = true
    · rw [List.countP_cons_of_pos he] at h
      rw [List.eraseP_cons_of_pos he] at hd
      have none := List.countP_eq_zero.mp (Nat.le_zero.mp (Nat.le_of_succ_le_succ h)) d hd
      exact ⟨List.mem_cons_of_mem _ hd, Bool.eq_false_iff.mpr none⟩
    · rw [List.countP_cons_of_neg he] at h
      rw [List.eraseP_cons_of_neg he] at hd
      rcases List.mem_cons.mp hd with rfl | hd
      · exact ⟨List.mem_cons_self, Bool.eq_false_iff.mpr he⟩
      · exact (ih h hd).imp_left (List.mem_cons_of_mem _)

end Node

/-! ## trees that fit -/

/-- what is known of the nodes that a tree makes, whatever step it stands for and part it plays:
definitions are in place, there are none below symbols that have none, and a part is called by an
outer field only if the tree is -/
structure Placed (t : Tree) : Prop where
  inPlace : ∀ step part, t.symbol.MayBe (step.bind (·.shown)) →
    ∀ d ∈ Node.collect step part [] t, ∀ m ∈ d.2.preorder, m.InPlace
  plain : t.symbol.IsPlain → ∀ step part, t.symbol.MayBe (step.bind (·.shown)) →
    ∀ d ∈ Node.collect step part [] t, d.2.IsPlain
  part : ∀ {f : Field}, f.IsOuter → ∀ step part, (step.bind (·.field)).or part ≠ some f →
    ∀ d ∈ Node.collect step part [] t, d.1 ≠ some f
  token : t.symbol.isToken = true → t.children = []

/-- a token makes one node or none -/
theorem placed_token {i : Tree.Info} (h : i.symbol.isToken = true) : Placed (.node i []) := by
  have shows : ∀ {step part d}, d ∈ Node.collect step part [] (.node i []) →
      d = ((step.bind (·.field)).or part, Node.ofChild step (.node i [])) :=
    Node.eq_of_mem_collect rfl
  have plain : ∀ {step : Option Step}, i.symbol.MayBe (step.bind (·.shown)) →
      (Node.ofChild step (.node i [])).kind.isDefinition = false ∧
        (Node.ofChild step (.node i [])).IsPlain := by
    intro step hk
    have kind : (Node.ofChild step (.node i [])).kind.isDefinition = false :=
      (Symbol.isPlain_of_isToken h).isDefinition_kind hk
    refine ⟨kind, Node.isPlain_iff.mpr ⟨?_, fun d hd => absurd hd List.not_mem_nil⟩⟩
    exact Node.isDefinition_of_kind kind
  refine ⟨fun step part hk d hd m hm => ?_, fun _ step part hk d hd => ?_,
    fun _ step part hp d hd => ?_, fun _ => rfl⟩
  · rw [shows hd] at hm
    obtain ⟨kind, isPlain⟩ := plain hk
    obtain rfl := List.mem_singleton.mp hm
    exact .of_kind kind (fun _ => isPlain) fun _ => isPlain
  · rw [shows hd]
    exact (plain hk).2
  · rw [shows hd]
    exact hp

/-! ## parts that only one child plays -/

/-- what is asked of the nodes that a child of a definition makes, where `f` is the part of the body
-/
structure Serves (f : Field) (kinds : Kind → Prop) (most : Bool) (P : List (Option Field × Node)) :
    Prop where
  kind : ∀ d ∈ P, Node.plays f d = true → kinds d.2.kind
  plain : ∀ d ∈ P, Node.plays f d = false → d.2.IsPlain
  count : P.countP (Node.plays f) ≤ if most then 1 else 0

variable {f : Field} {kinds : Kind → Prop}

theorem serves_of_not_plays {P : List (Option Field × Node)} {most : Bool}
    (plays : ∀ d ∈ P, Node.plays f d = false) (plain : ∀ d ∈ P, d.2.IsPlain) :
    Serves f kinds most P where
  kind d hd h := by rw [plays d hd] at h; cases h
  plain d hd _ := plain d hd
  count := by
    rw [List.countP_eq_zero.mpr fun d hd => Bool.eq_false_iff.mp (plays d hd)]
    exact Nat.zero_le _

/-- extras are tokens and play no part -/
theorem Placed.serves_none {t : Tree} (ht : Placed t) (token : t.symbol.isToken = true) :
    Serves f kinds false (Node.collect none none [] t) := by
  refine serves_of_not_plays (fun d hd => ?_)
    (ht.plain (Symbol.isPlain_of_isToken token) none none (Symbol.mayBe_none _))
  rw [Node.eq_of_mem_collect (ht.token token) hd]
  rfl

theorem Placed.serves_some {t : Tree} (ht : Placed t) {s : Step} (hs : t.symbol = s.symbol)
    (hk : s.symbol.MayBe s.shown) (h : s.Serves f kinds) :
    Serves f kinds (s.fills f) (Node.collect (some s) none [] t) := by
  have plain : s.field ≠ some f → ∀ d ∈ Node.collect (some s) none [] t, d.2.IsPlain := fun hf =>
    ht.plain (hs ▸ h.plain hf) (some s) none (hs ▸ hk)
  have shows : Tree.isShown (some s, t) = s.shows := Node.isShown_of_symbol hs
  cases hshows : s.shows with
  | true =>
    have single := Node.collect_of_shows hs hshows
    by_cases hf : s.field = some f
    · have fills : s.fills f = true := by rw [Step.fills, hf, hshows, BEq.rfl]; rfl
      rw [fills, single, hf]
      refine ⟨fun d hd _ => ?_, fun d hd hp => ?_, List.countP_le_length⟩
      · rw [List.mem_singleton.mp hd, Node.kind_ofChild, hs]
        exact h.kind hf hshows
      · rw [List.mem_singleton.mp hd, Node.plays, BEq.rfl] at hp
        cases hp
    · refine serves_of_not_plays (fun d hd => ?_) (plain hf)
      rw [single] at hd
      rw [List.mem_singleton.mp hd, Node.plays]
      exact beq_false_of_ne hf
  | false =>
    rcases h.whole with h | token | ⟨rfl, hf⟩
    · rw [hshows] at h; cases h
    · rw [Node.collect_eq_nil (shows.trans hshows) (ht.token (hs ▸ token))]
      exact serves_of_not_plays (fun d hd => absurd hd List.not_mem_nil)
        fun d hd => absurd hd List.not_mem_nil
    · refine serves_of_not_plays (fun d hd => ?_) (plain hf)
      exact beq_false_of_ne
        (ht.part Production.isOuter_definition (some s) none (by simpa using hf) d hd)

namespace Serves

theorem flatMap {α : Type} {l : List α} {g : α → List (Option Field × Node)} {q : α → Bool}
    (h : ∀ a ∈ l, Serves f kinds (q a) (g a)) (most : l.countP q ≤ 1) :
    Serves f kinds true (l.flatMap g) where
  kind d hd := by
    obtain ⟨a, ha, hd⟩ := List.mem_flatMap.mp hd
    exact (h a ha).kind d hd
  plain d hd := by
    obtain ⟨a, ha, hd⟩ := List.mem_flatMap.mp hd
    exact (h a ha).plain d hd
  count := by
    refine Nat.le_trans ?_ most
    clear most
    induction l with
    | nil => exact Nat.le_refl 0
    | cons a l ih =>
      rw [List.flatMap_cons, List.countP_append, List.countP_cons, Nat.add_comm]
      exact Nat.add_le_add (ih fun b hb => h b (List.mem_cons_of_mem _ hb))
        (h a List.mem_cons_self).count

theorem child {n : Node} {most : Bool} (h : Serves f kinds most n.parts) :
    ∀ b ∈ n.child? f, kinds b.kind := by
  intro b hb
  obtain ⟨d, hd, rfl⟩ := Option.map_eq_some_iff.mp hb
  exact h.kind d (List.mem_of_find?_eq_some hd) (List.find?_some hd)

theorem rest {n : Node} (h : Serves f kinds true n.parts) :
    ∀ d ∈ n.parts.eraseP (Node.plays f), d.2.IsPlain := fun d hd =>
  have ⟨hmem, hplays⟩ := Node.mem_eraseP h.count hd
  h.plain d hmem hplays

end Serves

/-! ## formed trees -/

/-- the children of a production, with the steps they stand for -/
structure Filled (p : Production) (cs : List Tree) : Prop where
  mem : p ∈ productions
  symbols : Tree.solid cs = p.steps.map (·.symbol)
  extras : ∀ c ∈ cs, c.extra = true → c.symbol.isExtra = true
  placed : ∀ c ∈ cs, Placed c

namespace Filled

variable {p : Production} {cs : List Tree}

theorem mayBe (h : Filled p cs) {c : Option Step × Tree} (hc : c ∈ Tree.withSteps p.steps cs) :
    c.2.symbol.MayBe (c.1.bind (·.shown)) := by
  obtain ⟨-, ⟨hn, -⟩ | ⟨s, hs, hn, hx⟩⟩ := Tree.mem_withSteps h.symbols hc
  · rw [hn]
    exact Symbol.mayBe_none _
  · rw [hn, hx]
    exact Production.mayBe_of_mem h.mem hs

theorem inPlace (h : Filled p cs) (part : Option Field) :
    ∀ d ∈ Node.collectAll p.steps part [] cs, ∀ m ∈ d.2.preorder, m.InPlace := by
  intro d hd
  obtain ⟨c, hc, q, -, hd⟩ := Node.mem_collectAll hd
  exact (h.placed c.2 (Tree.mem_withSteps h.symbols hc).1).inPlace c.1 q (h.mayBe hc) d hd

theorem plain (h : Filled p cs) (hp : (Machine.symbolOf p.variableIndex).IsPlain)
    (part : Option Field) : ∀ d ∈ Node.collectAll p.steps part [] cs, d.2.IsPlain := by
  intro d hd
  obtain ⟨c, hc, q, -, hd⟩ := Node.mem_collectAll hd
  obtain ⟨hmem, hstep⟩ := Tree.mem_withSteps h.symbols hc
  refine (h.placed c.2 hmem).plain ?_ c.1 q (h.mayBe hc) d hd
  rcases hstep with ⟨-, extra⟩ | ⟨s, hs, -, hx⟩
  · exact Symbol.isPlain_of_isToken (Symbol.isToken_of_isExtra (h.extras c.2 hmem extra))
  · rw [hx]
    exact Production.isPlain_of_mem h.mem hs hp

theorem part (h : Filled p cs) (outer : f.IsOuter)
    (hp : (Machine.symbolOf p.variableIndex).isVisible = false)
    {part : Option Field} (hpart : part ≠ some f) :
    ∀ d ∈ Node.collectAll p.steps part [] cs, d.1 ≠ some f := by
  intro d hd
  obtain ⟨c, hc, q, hq, hd⟩ := Node.mem_collectAll hd
  obtain ⟨hmem, hstep⟩ := Tree.mem_withSteps h.symbols hc
  refine (h.placed c.2 hmem).part outer c.1 q ?_ d hd
  have hq : q ≠ some f := by
    rcases hq with rfl | rfl
    · exact hpart
    · exact nofun
  rcases hstep with ⟨hn, -⟩ | ⟨s, hs, hn, -⟩
  · rwa [hn]
  · have field := outer p h.mem hp s hs
    rw [hn]
    show s.field.or q ≠ _
    cases hf : s.field with
    | none => exact hq
    | some g => rwa [hf] at field

/-- if all steps serve a part and one at most fills it, the nodes do -/
theorem serves (h : Filled p cs) (steps : ∀ s ∈ p.steps, s.Serves f kinds)
    (most : p.steps.countP (Step.fills f) ≤ 1) :
    Serves f kinds true (Node.collectAll p.steps none [] cs) := by
  rw [Node.collectAll_eq]
  rw [← Tree.filterMap_withSteps h.symbols, List.countP_filterMap] at most
  refine Serves.flatMap (fun c hc => ?_) most
  obtain ⟨hmem, ⟨hn, extra⟩ | ⟨s, hs, hn, hx⟩⟩ := Tree.mem_withSteps h.symbols hc
  · rw [hn]
    exact (h.placed c.2 hmem).serves_none (Symbol.isToken_of_isExtra (h.extras c.2 hmem extra))
  · rw [hn]
    exact (h.placed c.2 hmem).serves_some hx (Production.mayBe_of_mem h.mem hs) (steps s hs)

theorem symbol_ne_skipped (mem : p ∈ productions) (symbols : Tree.solid cs = p.steps.map (·.symbol))
    (extras : ∀ c ∈ cs, c.extra = true → c.symbol.isExtra = true) {c : Tree} (hc : c ∈ cs) :
    c.symbol ≠ .skipped := by
  cases he : c.extra with
  | true => exact Symbol.ne_skipped_of_isToken (Symbol.isToken_of_isExtra (extras c hc he))
  | false =>
    have hsolid : c.symbol ∈ Tree.solid cs :=
      List.mem_map_of_mem (List.mem_filter.mpr ⟨hc, by rw [he]; rfl⟩)
    rw [symbols] at hsolid
    obtain ⟨s, hs, hx⟩ := List.mem_map.mp hsolid
    rw [← hx]
    exact Symbol.ne_skipped_of_isReal (regular_productions.isReal p mem s hs)

variable {i : Tree.Info} {step : Option Step}

/-- a tree that costs nothing has children that cost nothing -/
theorem cost_eq_zero (mem : p ∈ productions) (symbols : Tree.solid cs = p.steps.map (·.symbol))
    (extras : ∀ c ∈ cs, c.extra = true → c.symbol.isExtra = true)
    (costs : ∀ c ∈ cs, c.symbol ≠ .skipped → c.cost ≤ i.cost) (cost : i.cost = 0) :
    ∀ c ∈ cs, c.cost = 0 := fun c hc =>
  Nat.le_zero.mp (cost ▸ costs c hc (symbol_ne_skipped mem symbols extras hc))

theorem parts_ofChild (marks : i.steps.map (fun s => (s.shown, s.field)) = p.marks) :
    (Node.ofChild step (.node i cs)).parts = Node.collectAll p.steps none [] cs :=
  Node.collectAll_congr marks

theorem isPlain_ofChild (h : Filled p cs) (symbol : i.symbol = Machine.symbolOf p.variableIndex)
    (marks : i.steps.map (fun s => (s.shown, s.field)) = p.marks)
    (hk : i.symbol.MayBe (step.bind (·.shown))) (plain : i.symbol.IsPlain) :
    (Node.ofChild step (.node i cs)).IsPlain := by
  refine Node.isPlain_iff.mpr ⟨Node.isDefinition_of_kind (plain.isDefinition_kind hk), ?_⟩
  rw [parts_ofChild marks]
  exact h.plain (symbol ▸ plain) none

/-- the node of a symbol with definitions below is a definition with a body, one with decorators, or
a statement that is dissolved -/
theorem inPlace_of_nonterminal (h : Filled p cs) {n : Nonterminal}
    (symbol : i.symbol = Machine.symbolOf p.variableIndex) (hn : i.symbol = .nonterminal n)
    (marks : i.steps.map (fun s => (s.shown, s.field)) = p.marks)
    (hs : step.bind (·.shown) = none) (visible : i.symbol.isVisible = true)
    (plain : n.isPlain = false) : (Node.ofChild step (.node i cs)).InPlace := by
  have kind : (Node.ofChild step (.node i cs)).kind = n.kind := by
    rw [Node.kind_ofChild, hs]
    exact congrArg Symbol.kind hn
  have named : (Node.ofChild step (.node i cs)).named = true := by
    rw [Node.named_ofChild, hs]
    show i.symbol.isNamed = true
    rw [hn] at visible ⊢
    exact visible
  have hv : Machine.symbolOf p.variableIndex = .nonterminal n := symbol ▸ hn
  have unnamed : (Node.ofChild step (.node i cs)).named = false →
      (Node.ofChild step (.node i cs)).IsPlain := fun h => by rw [named] at h; cases h
  rcases n.cases_of_not_isPlain plain with definition | rfl | ⟨other, lambda⟩
  · have serves : Serves .body (· = .block) true (Node.ofChild step (.node i cs)).parts :=
      parts_ofChild marks ▸ h.serves (Production.serves_body h.mem hv definition)
        (Production.countP_fills h.mem hv (countP_fills_body definition repetitions))
    refine ⟨unnamed, fun hk => ?_, fun _ => serves.child, fun _ => serves.rest, fun hk => ?_,
      fun hk => ?_⟩
    all_goals
      rw [kind] at hk
      rcases definition with rfl | rfl <;> cases hk
  · have serves : Serves .definition (fun k => k = .functionDefinition ∨ k = .classDefinition) true
        (Node.ofChild step (.node i cs)).parts :=
      parts_ofChild marks ▸ h.serves (Production.serves_definition h.mem hv)
        (Production.countP_fills h.mem hv (countP_fills_definition repetitions))
    refine ⟨unnamed, fun hk => ?_, fun hd => ?_, fun hd => ?_,
      fun _ d hd => Node.isDefinition_iff.mpr (serves.child d hd), fun _ => serves.rest⟩
    · rw [kind] at hk
      cases hk
    all_goals
      rw [Node.isDefinition, kind] at hd
      cases hd
  · refine .of_kind (kind ▸ other) unnamed fun hk => ?_
    exact absurd (kind.symm.trans hk) lambda

theorem inPlace_ofChild (h : Filled p cs) (symbol : i.symbol = Machine.symbolOf p.variableIndex)
    (marks : i.steps.map (fun s => (s.shown, s.field)) = p.marks)
    (hk : i.symbol.MayBe (step.bind (·.shown)))
    (shown : Tree.isShown (step, .node i cs) = true) :
    (Node.ofChild step (.node i cs)).InPlace := by
  by_cases plain : i.symbol.IsPlain
  · have isPlain := h.isPlain_ofChild symbol marks hk plain
    exact .of_kind (plain.isDefinition_kind hk) (fun _ => isPlain) fun _ => isPlain
  cases hs : step.bind (·.shown) with
  | some k =>
    obtain rfl : k = .block := (hk k hs).resolve_right fun hp => plain hp.1
    have kind : (Node.ofChild step (.node i cs)).kind = .block := by
      rw [Node.kind_ofChild, hs]
      rfl
    refine .of_kind (kind ▸ rfl) (fun named => ?_) fun hl => ?_
    · rw [Node.named_ofChild, hs] at named
      cases named
    · rw [kind] at hl
      cases hl
  | none =>
    have visible : i.symbol.isVisible = true := by
      rw [Tree.isShown, hs] at shown
      exact shown
    rcases Machine.symbolOf_cases p.variableIndex with ⟨n, hn⟩ | ⟨k, hn⟩
    · rw [← symbol] at hn
      refine h.inPlace_of_nonterminal symbol hn marks hs visible (Bool.eq_false_iff.mpr ?_)
      rw [hn, Symbol.isPlain_nonterminal] at plain
      exact plain
    · rw [symbol, hn] at visible
      cases visible

/-- what is known of the children is known of the tree -/
theorem placed_node (h : Filled p cs) (symbol : i.symbol = Machine.symbolOf p.variableIndex)
    (marks : i.steps.map (fun s => (s.shown, s.field)) = p.marks) : Placed (.node i cs) := by
  have parts {part : Option Field} :
      Node.collectAll i.steps part [] cs = Node.collectAll p.steps part [] cs :=
    Node.collectAll_congr marks
  refine ⟨fun step part hk d hd => ?_, fun plain step part hk d hd => ?_,
    fun outer step part hpart d hd => ?_, fun token => ?_⟩
  · cases hs : Tree.isShown (step, .node i cs) with
    | true =>
      rw [Node.collect_of_isShown hs] at hd
      rw [List.mem_singleton.mp hd, Node.forall_mem_preorder, parts_ofChild marks]
      exact ⟨h.inPlace_ofChild symbol marks hk hs, h.inPlace none⟩
    | false =>
      rw [Node.collect_of_hidden hs] at hd
      exact h.inPlace _ d (parts ▸ hd)
  · cases hs : Tree.isShown (step, .node i cs) with
    | true =>
      rw [Node.collect_of_isShown hs] at hd
      rw [List.mem_singleton.mp hd]
      exact h.isPlain_ofChild symbol marks hk plain
    | false =>
      rw [Node.collect_of_hidden hs] at hd
      exact h.plain (symbol ▸ plain) _ d (parts ▸ hd)
  · cases hs : Tree.isShown (step, .node i cs) with
    | true =>
      rw [Node.collect_of_isShown hs] at hd
      rw [List.mem_singleton.mp hd]
      exact hpart
    | false =>
      rw [Node.collect_of_hidden hs] at hd
      have hidden : i.symbol.isVisible = false := (Bool.or_eq_false_iff.mp hs).2
      exact h.part outer (symbol ▸ hidden) hpart d (parts ▸ hd)
  · rw [show (Tree.node i cs).symbol = _ from symbol, Machine.isToken_symbolOf] at token
    cases token

end Filled

/-- **Definitions are in place in every formed tree that fits its text.** -/
theorem Tree.Formed.placed {t : Tree} (ht : t.Formed productions) (cost : t.cost = 0) :
    Placed t := by
  -- the induction is on how the tree was formed; a tree that fits has children that fit
  induction ht with
  | token symbol _ => exact placed_token symbol
  | broken _ pos => exact absurd cost (Nat.pos_iff_ne_zero.mp pos)
  | @branch i cs p mem symbol marks symbols children extras _ costs _ ih =>
    have below := Filled.cost_eq_zero mem symbols extras costs cost
    exact Filled.placed_node ⟨mem, symbols, extras, fun c hc => ih c hc (below c hc)⟩ symbol marks

/-- a formed tree that fits is a token, or filled after one of the productions of its symbol -/
theorem Tree.Formed.filled {t : Tree} (ht : t.Formed productions) (cost : t.cost = 0) :
    t.symbol.isToken = true ∧ t.children = [] ∨
      ∃ p, Machine.symbolOf p.variableIndex = t.symbol ∧ Filled p t.children ∧
        ∀ step, (Node.ofChild step t).parts = Node.collectAll p.steps none [] t.children := by
  cases ht with
  | token symbol => exact .inl ⟨symbol, rfl⟩
  | broken _ pos => exact absurd cost (Nat.pos_iff_ne_zero.mp pos)
  | @branch i cs p mem symbol marks symbols children extras _ costs _ =>
    have below := Filled.cost_eq_zero mem symbols extras costs cost
    refine .inr ⟨p, symbol.symm, ?_, fun step => Filled.parts_ofChild marks⟩
    exact ⟨mem, symbols, extras, fun c hc => (children c hc).placed (below c hc)⟩

theorem whole_parse (text : List Char) : Machine.Whole productions (parse text) :=
  Machine.run_whole regular_productions (Cursor.ofList text) (budgetFor text.length)

namespace Machine.Whole

variable {t : Tree}

theorem isShown (whole : Machine.Whole productions t) : Tree.isShown (none, t) = true := by
  rcases whole.2 with hx | ⟨hx, -⟩ <;> rw [Tree.isShown, hx] <;> rfl

theorem ofTree_eq (whole : Machine.Whole productions t) :
    Node.ofTree t = Node.ofChild none t := by
  rw [Node.ofTree, Node.collect_of_isShown whole.isShown]

theorem symbol_ne_skipped (whole : Machine.Whole productions t) : t.symbol ≠ .skipped := by
  intro skipped
  rcases whole.2 with hx | ⟨hx, -⟩ <;> rw [skipped] at hx <;> cases hx

end Machine.Whole

/-- a whole tree that is not refused is one of the start symbol, and its nodes are in place -/
theorem inPlace_of_refusal_eq_none {t : Tree} (whole : Machine.Whole productions t) {text : String}
    (accepted : refusal text (Node.ofTree t) = none) :
    (Node.ofTree t).kind = .module ∧ ∀ n ∈ (Node.ofTree t).preorder, n.InPlace := by
  have cost : t.cost = 0 := by
    rw [refusal] at accepted
    split at accepted
    · cases accepted
    · next faulty =>
      rw [whole.ofTree_eq, Node.faulty_ofChild] at faulty
      exact Nat.eq_zero_of_not_pos faulty
  have mem : (none, Node.ofChild none t) ∈ Node.collect none none [] t := by
    rw [Node.collect_of_isShown whole.isShown]
    exact List.mem_singleton_self _
  rw [whole.ofTree_eq]
  refine ⟨?_, (whole.1.placed cost).inPlace none none (Symbol.mayBe_none _) _ mem⟩
  rcases whole.2 with hx | ⟨-, pos⟩
  · rw [Node.kind_ofChild, hx]
    rfl
  · omega

end Python

open Python

namespace Outline

/-- a text is refused, or its outline is the lowered form of its syntax tree -/
theorem parse_cases (path text : String) :
    let root := Node.ofTree (Python.parse text.toList)
    (∃ n, refusal text root = some n ∧ parse path text = .error (.at_ n)) ∨
      ∃ o, parse path text = .ok o ∧ refusal text root = none ∧
        LowersAll (Source.ofNode text root) .module root.nests o.body := by
  intro root
  cases hr : refusal text root with
  | some n => exact .inl ⟨n, rfl, by rw [parse, check, hr]⟩
  | none =>
    obtain ⟨module, grammar⟩ := inPlace_of_refusal_eq_none (whole_parse text.toList) hr
    have accepted : check path text root = .ok (ofNode path text root) := by rw [check, hr]
    exact .inr ⟨_, accepted, rfl, (check_keeps_functions module grammar accepted).2⟩

/-- **The outline of a text has the functions of its syntax tree and no others**, in document order
and with their names and lines, and each definition stands in the body of the definition that is
the nearest around it, or in the outline itself if there is none; unless something in the text is
refused, and then there is no outline. -/
theorem parse_keeps_functions (path text : String) :
    let root := Node.ofTree (Python.parse text.toList)
    (∃ n, refusal text root = some n ∧ parse path text = .error (.at_ n)) ∨
      ∃ o, parse path text = .ok o ∧
        List.Forall₂
          (fun n f => f.name = ((n.child? .name).map (Node.text text)).getD "" ∧ f.line = n.row + 1)
          (root.preorder.filter Node.isFunction) o.functions ∧
        LowersAll (Source.ofNode text root) .module root.nests o.body := by
  intro root
  cases hr : refusal text root with
  | some n => exact .inl ⟨n, rfl, by rw [parse, check, hr]⟩
  | none =>
    obtain ⟨module, grammar⟩ := inPlace_of_refusal_eq_none (whole_parse text.toList) hr
    have accepted : check path text root = .ok (ofNode path text root) := by rw [check, hr]
    exact .inr ⟨_, accepted, check_keeps_functions module grammar accepted⟩

end Outline

end AnnotationAudit
