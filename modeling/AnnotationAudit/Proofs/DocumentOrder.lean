import AnnotationAudit.Proofs.Acceptance
import AnnotationAudit.Proofs.Coverage
import AnnotationAudit.Proofs.ParsingOrder

/-!
# Document order

The trees of a text stand in order, and so do the nodes that they make: a node begins where its
first child does, and each child behind the one before it. The order survives lowering and the walk
over nested definitions, so that the violations of a file come line by line.

* `Position.UpTo`           a position that is not behind another;
* `Tree.Ordered.spread`     the nodes of a tree begin one behind the other;
* `Tree.Settled`            a tree that fits its text, with the children of a production;
* `Node.BeginsAt`           a node begins at one of some words, and so on a line of the text;
* `Machine.Whole.beginsAt`  functions begin at `def` or `async`;
* `Outline.parse_sorts`     the violations of an accepted text are in the order of its lines.
-/

namespace AnnotationAudit

namespace Text

/-- the position is not behind the other, in bytes nor in rows -/
structure Position.UpTo (p q : Position) : Prop where
  offset : p.offset ≤ q.offset
  row : p.row ≤ q.row

namespace Position.UpTo

theorem refl (p : Position) : p.UpTo p := ⟨Nat.le_refl _, Nat.le_refl _⟩

theorem trans {p q r : Position} (h : p.UpTo q) (h' : q.UpTo r) : p.UpTo r :=
  ⟨Nat.le_trans h.offset h'.offset, Nat.le_trans h.row h'.row⟩

end Position.UpTo

theorem Cursor.Precedes.upTo {c d : Cursor} (h : c.Precedes d) : c.position.UpTo d.position :=
  ⟨h.offset_le, h.row_le⟩

end Text

namespace Python

open Text

/-! ## nodes in order -/

/-- nodes begin one behind the other, from one position to another -/
structure Node.Spread (p : Position) (ns : List Node) (q : Position) : Prop where
  sorted : ns.Pairwise fun n m => n.start.UpTo m.start
  low : ∀ n ∈ ns, p.UpTo n.start
  high : ∀ n ∈ ns, n.start.UpTo q

namespace Node.Spread

variable {p p' q r : Position} {n : Node} {ns ms : List Node}

theorem nil (p q : Position) : Spread p [] q := ⟨.nil, nofun, nofun⟩

theorem mono_left (h : Spread p ns q) (hp : p'.UpTo p) : Spread p' ns q :=
  ⟨h.sorted, fun n hn => hp.trans (h.low n hn), h.high⟩

theorem cons (h : Spread p ns q) (hn : n.start = p) (stop : p.UpTo q) : Spread p (n :: ns) q where
  sorted := .cons (hn ▸ h.low) h.sorted
  low := List.forall_mem_cons.mpr ⟨hn ▸ .refl _, h.low⟩
  high := List.forall_mem_cons.mpr ⟨hn ▸ stop, h.high⟩

theorem append (h : Spread p ns q) (hpq : p.UpTo q) (hqr : q.UpTo r) (h' : Spread q ms r) :
    Spread p (ns ++ ms) r where
  sorted := List.pairwise_append.mpr
    ⟨h.sorted, h'.sorted, fun n hn m hm => (h.high n hn).trans (h'.low m hm)⟩
  low := List.forall_mem_append.mpr ⟨h.low, fun m hm => hpq.trans (h'.low m hm)⟩
  high := List.forall_mem_append.mpr ⟨fun n hn => (h.high n hn).trans hqr, h'.high⟩

end Node.Spread

namespace Tree

open Node

mutual

/-- **The nodes that a tree makes begin one behind the other**, inside of the tree. -/
theorem Ordered.spread (step : Option Step) (part : Option Field) : ∀ {t : Tree}, t.Ordered →
    Spread t.start.position (preorderParts (collect step part [] t)) t.stop.position
  | .node i cs, h => by
    cases h with
    | node start stop first token children inside =>
      have below : ∀ part, Spread i.start.position (preorderParts (collectAll i.steps part [] cs))
          i.stop.position := fun part => by
        cases cs with
        | nil => exact .nil _ _
        | cons c cs =>
          exact Between.spread i.steps part (children (List.cons_ne_nil c cs)) fun c hc =>
            first c hc ▸ .refl _
      rw [collect]
      split
      · show Spread i.start.position (_ :: preorderParts (collectAll i.steps none [] cs) ++ []) _
        rw [List.append_nil]
        exact (below none).cons rfl stop.upTo
      · exact below _

theorem Between.spread (steps : List Step) (part : Option Field) {c d : Cursor} {p : Position} :
    ∀ {ts : List Tree}, Between c ts d → (∀ t ∈ ts.head?, p.UpTo t.start.position) →
      Spread p (preorderParts (collectAll steps part [] ts)) d.position
  | [], _, _ => .nil _ _
  | t :: ts, h, hp => by
    cases h with
    | cons before ordered led rest =>
      have behind : ∀ steps part,
          Spread t.stop.position (preorderParts (collectAll steps part [] ts)) d.position := by
        intro steps part
        refine Between.spread steps part rest fun u hu => ?_
        cases ts with
        | nil => cases hu
        | cons v ts =>
          obtain rfl : v = u := Option.some.inj hu
          cases rest with
          | cons before ordered led rest =>
            rw [before]
            exact ordered.start_precedes.upTo
      have both : ∀ step part steps part', Spread p (preorderParts (collect step part [] t ++
          collectAll steps part' [] ts)) d.position := by
        intro step part steps part'
        rw [preorderParts_append]
        exact ((Ordered.spread step part ordered).append ordered.stop_precedes.upTo
          rest.precedes.upTo (behind steps part')).mono_left (hp t rfl)
      cases extra : t.extra with
      | true =>
        rw [collectAll_cons_extra extra, collect_append]
        exact both _ _ _ _
      | false =>
        rw [collectAll_cons_solid extra, collect_append]
        exact both _ _ _ _

end

end Tree

/-- **The tree of a text stands in order, and in the text.** -/
theorem parse_ordered (text : List Char) :
    (parse text).Ordered ∧ (parse text).before.IsIn text :=
  ordered_of_run text fun x hx => by
    rcases (whole_parse text).2 with h | ⟨h, -⟩ <;> cases hx.symm.trans h

/-- **The nodes of a text begin in document order.** -/
theorem sorted_preorder_parse (text : List Char) :
    (Node.ofTree (parse text)).preorder.Pairwise fun n m => n.start.UpTo m.start := by
  have whole := whole_parse text
  have spread := (parse_ordered text).1.spread none none
  rw [Node.collect_of_isShown whole.isShown, ← whole.ofTree_eq] at spread
  have sorted := spread.sorted
  rwa [Node.preorderParts, Node.preorderParts, List.append_nil] at sorted

/-! ## where functions begin -/

def functionWords : List String := ["async", "def"]

/-- do the steps of a production begin with one of the words at which functions begin? -/
def beginsWithWord : List Step → Bool
  | [] => false
  | s :: _ => s.symbol == .terminal .kwAsync || s.symbol == .terminal .kwDef

theorem beginsWithWord_readings (reps : List Rule) :
    (((Rule.of .functionDefinition).readings reps {} true).all fun x =>
      (inlineAll reps x.steps).all fun y => beginsWithWord y.steps) = true := by
  cbv

theorem Production.steps_of_function {p : Production} (hp : p ∈ productions)
    (hn : Machine.symbolOf p.variableIndex = .nonterminal .functionDefinition) :
    ∃ s ss, p.steps = s :: ss ∧ ∃ x, s.symbol = .terminal x ∧ x.isKeyword = true ∧
      ∃ w ∈ functionWords, x.spelling? = some w := by
  have begins := of_readings (q := beginsWithWord) hp hn (beginsWithWord_readings repetitions)
  cases hs : p.steps with
  | nil =>
    rw [hs] at begins
    cases begins
  | cons s ss =>
    rw [hs, beginsWithWord, Bool.or_eq_true, beq_iff_eq, beq_iff_eq] at begins
    refine ⟨s, ss, rfl, ?_⟩
    rcases begins with h | h
    · exact ⟨_, h, by decide, "async", by decide, rfl⟩
    · exact ⟨_, h, by decide, "def", by decide, rfl⟩

/-- the node begins where one of the words stands in the text -/
def Node.BeginsAt (text : List Char) (words : List String) (n : Node) : Prop :=
  ∃ c : Cursor, c.IsIn text ∧ c.position = n.start ∧
    ∃ w ∈ words, c.rest.takeWhile isIdentifierPart = w.toList

/-- what is known of a tree in a text, and handed down to its children -/
structure Tree.LiesIn (text : List Char) (t : Tree) : Prop where
  ordered : t.Ordered
  before : t.before.IsIn text
  led : ∀ n, t.symbol = .nonterminal n → n ≠ .module → t.Led

theorem Tree.LiesIn.down {text : List Char} {t : Tree} (h : t.LiesIn text) :
    ∀ c ∈ t.children, c.LiesIn text := fun _ hc =>
  have ⟨before, ordered, led⟩ :=
    (h.ordered.children_between (List.ne_nil_of_mem hc)).of_mem hc
  ⟨ordered, h.before.trans before, fun _ _ _ => led⟩

/-- a tree that fits its text -/
structure Tree.Settled (text : List Char) (t : Tree) : Prop where
  lies : t.LiesIn text
  formed : t.Formed productions
  cost : t.cost = 0

/-- a tree that fits its text has the children of a production, with its marks, and begins and ends
with one of these -/
structure Tree.Built (text : List Char) (p : Production) (t : Tree) : Prop where
  filled : Filled p t.children
  settled : ∀ c ∈ t.children, c.Settled text
  collectAll_eq : ∀ part, Node.collectAll t.info.steps part [] t.children =
    Node.collectAll p.steps part [] t.children
  led : p.steps ≠ [] → LedBy p.steps.length t.children ∧ Closed t.children

namespace Tree

variable {text : List Char} {t : Tree} {ts es : List Tree}

/-- the first child that is no extra -/
theorem exists_of_solid {x : Symbol} {xs : List Symbol} (h : solid ts = x :: xs) :
    ∃ es t rest, ts = es ++ t :: rest ∧ (∀ e ∈ es, e.extra = true) ∧ t.extra = false ∧
      t.symbol = x ∧ solid rest = xs := by
  induction ts with
  | nil => cases h
  | cons u ts ih =>
    rw [solid_cons] at h
    cases extra : u.extra with
    | true =>
      rw [extra, if_pos rfl] at h
      obtain ⟨es, t, rest, rfl, extras, solid⟩ := ih h
      exact ⟨u :: es, t, rest, rfl, List.forall_mem_cons.mpr ⟨extra, extras⟩, solid⟩
    | false =>
      rw [extra, if_neg Bool.false_ne_true] at h
      obtain ⟨symbol, others⟩ := List.cons.inj h
      exact ⟨[], u, ts, rfl, nofun, extra, symbol, others⟩

theorem LedBy.eq_nil {count : Nat} (h : LedBy count (es ++ ts))
    (all : (solid (es ++ ts)).length = count) (extras : ∀ e ∈ es, e.extra = true) : es = [] := by
  cases es with
  | nil => rfl
  | cons e es => exact absurd all (h e rfl (extras e List.mem_cons_self))

/-- a tree that is no token and not a whole text is built after a production of its symbol -/
theorem Settled.exists_built (h : t.Settled text) {n : Nonterminal}
    (symbol : t.symbol = .nonterminal n) (hn : n ≠ .module) :
    ∃ p, Machine.symbolOf p.variableIndex = .nonterminal n ∧ t.Built text p := by
  obtain ⟨lies, formed, cost⟩ := h
  cases formed with
  | @token i token =>
    have token : (node i []).symbol.isToken = true := token
    rw [symbol] at token
    cases token
  | broken _ pos => exact absurd cost (Nat.pos_iff_ne_zero.mp pos)
  | @branch i cs p mem here marks symbols children extras present costs free =>
    have fits := Filled.cost_eq_zero mem symbols extras costs cost
    have length : i.steps.length = p.steps.length := by
      have same := congrArg List.length marks
      rwa [Production.marks, List.length_map, List.length_map] at same
    refine ⟨p, here.symm.trans symbol, ⟨mem, symbols, extras, fun c hc =>
      (children c hc).placed (fits c hc)⟩, fun c hc => ⟨lies.down c hc, children c hc, fits c hc⟩,
      fun part => Node.collectAll_congr marks, fun ne => ?_⟩
    rw [← length]
    refine lies.led n symbol hn fun nil => ne ?_
    rw [← List.length_eq_zero_iff, ← length, show i.steps = [] from nil]
    rfl

/-- a token that fits has been read -/
theorem Settled.isRead (h : t.Settled text) {x : Terminal} (symbol : t.symbol = .terminal x) :
    x.IsRead t.before t.start t.stop := by
  have token : t.symbol.isToken = true := by
    rw [symbol]
    rfl
  have nil := (h.formed.placed h.cost).token token
  have present := (Bool.or_eq_false_iff.mp (h.formed.isFault_eq_false h.cost)).2
  cases h.lies.ordered with
  | node _ _ _ read _ _ => exact read nil present x symbol

namespace Built

variable {p : Production} {s : Step} {ss : List Step}

theorem parts_ofChild (h : t.Built text p) (step : Option Step) :
    (Node.ofChild step t).parts = Node.collectAll p.steps none [] t.children := by
  rw [← h.collectAll_eq none]
  cases t
  rfl

/-- the first child stands for the first step -/
theorem head (h : t.Built text p) (steps : p.steps = s :: ss) :
    ∃ c cs, t.children = c :: cs ∧ c.extra = false ∧ c.symbol = s.symbol := by
  obtain ⟨led, -⟩ := h.led (by rw [steps]; exact List.cons_ne_nil s ss)
  have symbols := h.filled.symbols
  have length := congrArg List.length symbols
  rw [List.length_map] at length
  rw [steps] at symbols
  obtain ⟨es, c, cs, children, before, solid, same, -⟩ := exists_of_solid symbols
  rw [children] at led length
  obtain rfl := led.eq_nil length before
  exact ⟨c, cs, children, solid, same⟩

/-- the parts of the node begin with the node of the first step, if that makes one -/
theorem parts_head (h : t.Built text p) (steps : p.steps = s :: ss) (shows : s.shows = true) :
    ∃ c cs, c.symbol = s.symbol ∧ ∀ step, (Node.ofChild step t).parts =
      (s.field, Node.ofChild (some s) c) :: Node.collectAll ss none [] cs := by
  obtain ⟨c, cs, children, solid, same⟩ := h.head steps
  refine ⟨c, cs, same, fun step => ?_⟩
  rw [h.parts_ofChild step, children, Node.collectAll_cons_solid solid, Node.collect_append, steps,
    List.head?_cons, Node.collect_of_shows same shows]
  rfl

end Built

end Tree

theorem Symbol.eq_of_kind_function {x : Symbol} (h : x.kind = .functionDefinition) :
    x = .nonterminal .functionDefinition := by
  cases x with
  | terminal t => cases t <;> cases h
  | nonterminal n => cases n <;> first | rfl | cases h
  | error => cases h
  | repetition k => cases h
  | skipped => cases h

theorem Tree.Settled.head_word {text : List Char} {t : Tree} (h : t.Settled text)
    (symbol : t.symbol = .nonterminal .functionDefinition) :
    ∃ c ∈ t.children.head?, ∃ w ∈ functionWords,
      c.start.rest.takeWhile isIdentifierPart = w.toList := by
  obtain ⟨p, hp, built⟩ := h.exists_built symbol (by decide)
  obtain ⟨s, ss, steps, x, hx, keyword, w, hw, spelling⟩ :=
    Production.steps_of_function built.filled.mem hp
  obtain ⟨c, cs, children, -, same⟩ := built.head steps
  have settled := built.settled c (by rw [children]; exact List.mem_cons_self)
  have read := settled.isRead (same.trans hx)
  obtain ⟨-, v, hv, text⟩ := Token.of_keyword? (read.word keyword)
  obtain rfl := Option.some.inj (spelling.symm.trans hv)
  exact ⟨c, by rw [children]; rfl, w, hw, text⟩

/-- **A function begins at `async` or `def`.** -/
theorem Node.beginsAt_ofChild {text : List Char} {t : Tree} {step : Option Step}
    (lies : t.LiesIn text) (ht : t.Formed productions) (cost : t.cost = 0) (hs : t.StandsFor step)
    (function : (ofChild step t).isFunction = true) :
    (ofChild step t).BeginsAt text functionWords := by
  have symbol : t.symbol = .nonterminal .functionDefinition := by
    rcases hs.kind_cases (beq_iff_eq.mp function) with kind | ⟨p, hp, s, mem, -, shown⟩
    · exact Symbol.eq_of_kind_function kind
    · rcases Production.mayBe_of_mem hp mem _ shown with h | ⟨-, h⟩ <;> cases h
  have settled : t.Settled text := ⟨lies, ht, cost⟩
  obtain ⟨c, hc, word⟩ := settled.head_word symbol
  have inside := lies.down c (List.mem_of_head? hc)
  have start : (ofChild step t).start = c.start.position := by
    obtain ⟨i, cs⟩ := t
    cases lies.ordered with
    | node _ _ first _ _ _ => exact congrArg Cursor.position (first c hc)
  exact ⟨c.start, inside.before.trans inside.ordered.start_precedes, start.symm, word⟩

theorem Node.BeginsAt.row_lt {text : String} {words : List String} {n : Node}
    (h : n.BeginsAt text.toList words) (hw : ∀ w ∈ words, w ≠ "") :
    n.row < (lines text).length := by
  obtain ⟨c, hc, start, w, mem, word⟩ := h
  have rest : c.rest ≠ [] := by
    intro nil
    rw [nil] at word
    exact hw w mem (String.toList_eq_nil_iff.mp word.symm)
  rw [Node.row, ← start, lines, List.length_map]
  exact hc.row_lt_length rest

theorem liesIn_parse (text : List Char) : (parse text).LiesIn text := by
  obtain ⟨ordered, before⟩ := parse_ordered text
  refine ⟨ordered, before, fun n symbol other => ?_⟩
  rcases (whole_parse text).2 with hx | ⟨hx, -⟩
  · exact absurd (Symbol.nonterminal.inj (symbol.symm.trans hx)) other
  · cases symbol.symm.trans hx

namespace Machine.Whole

/-- **The functions of a text that fits begin at `async` or `def`.** -/
theorem beginsAt {text : List Char} (fits : (parse text).Fits) :
    ∀ n ∈ (Node.ofTree (parse text)).preorder, n.isFunction = true →
      n.BeginsAt text functionWords := by
  exact (whole_parse text).forall_mem_preorder_of (Q := Tree.LiesIn text) (fun _ h => h.down)
    (fun u step lies ht cost hs _ => Node.beginsAt_ofChild lies ht cost hs) (liesIn_parse text) fits

end Machine.Whole

end Python

open Python Text

/-! ## lines of violations -/

namespace Signature

theorem line_of_mem_violations {f : Signature} {file : String} {o : AuditOptions} {v : Violation}
    (h : v ∈ f.violations file o) : v.line = f.line := by
  rcases List.mem_append.mp h with h | h
  · obtain ⟨p, -, rfl⟩ := List.mem_map.mp h
    rfl
  · rw [returnViolations] at h
    split at h
    · rw [List.mem_singleton.mp h]
      rfl
    · exact absurd h List.not_mem_nil

theorem sorted_flatMap_violations {fs : List Signature} (h : fs.Pairwise (·.line ≤ ·.line))
    (file : String) (o : AuditOptions) :
    (fs.flatMap fun f => f.violations file o).Pairwise (·.line ≤ ·.line) := by
  refine List.pairwise_flatMap.mpr ⟨fun f _ => ?_, h.imp fun le x hx y hy => ?_⟩
  · refine List.pairwise_iff_forall_sublist.mpr fun {x y} both => ?_
    have hx := line_of_mem_violations (both.subset List.mem_cons_self)
    have hy := line_of_mem_violations (both.subset (List.mem_cons_of_mem _ List.mem_cons_self))
    exact Nat.le_of_eq (hx.trans hy.symm)
  · rwa [line_of_mem_violations hx, line_of_mem_violations hy]

end Signature

theorem IsHeadOf.line_eq {s : Source} {n : Node} {f : Signature} (h : IsHeadOf s n f) :
    f.line = n.row + 1 := by
  obtain ⟨scope, decorators, rfl⟩ := h
  rfl

namespace Outline

/-- **The violations of a file are in the order of its lines**: unless the text is refused, no
violation is reported for an earlier line than the one before it, and each is reported for one of
the lines that there are. -/
theorem parse_sorts (path text : String) :
    let root := Node.ofTree (Python.parse text.toList)
    (∃ n, refusal text root = some n ∧ parse path text = .error (.at_ n)) ∨
      ∃ o, parse path text = .ok o ∧ ∀ options,
        (o.violations options).Pairwise (·.line ≤ ·.line) ∧
        ∀ v ∈ o.violations options, 1 ≤ v.line ∧ v.line ≤ (lines text).length := by
  intro root
  refine (parse_cases path text).imp_right fun ⟨o, ho, unrefused, lowers⟩ =>
    ⟨o, ho, fun options => ?_⟩
  have fits := ((refusal_eq_none_iff (whole_parse text.toList) text).mp unrefused).1
  have heads : List.Forall₂ (IsHeadOf (Source.ofNode text root))
      (root.preorder.filter Node.isFunction) o.functions := by
    rw [← Node.functionsAll_nests]
    exact lowers.functions
  have same : (root.preorder.filter Node.isFunction).map (fun n => n.row + 1) =
      o.functions.map (·.line) := by
    rw [← List.forall₂_eq_eq_eq, List.forall₂_map_left_iff, List.forall₂_map_right_iff]
    exact heads.imp fun n f head => head.line_eq.symm
  have sorted : o.functions.Pairwise (·.line ≤ ·.line) := by
    rw [← List.pairwise_map, ← same, List.pairwise_map]
    exact ((sorted_preorder_parse text.toList).filter _).imp fun le => Nat.succ_le_succ le.row
  have within : ∀ f ∈ o.functions, 1 ≤ f.line ∧ f.line ≤ (lines text).length := by
    intro f hf
    obtain ⟨n, hn, line⟩ := List.mem_map.mp (same ▸ List.mem_map_of_mem hf)
    obtain ⟨mem, function⟩ := List.mem_filter.mp hn
    have begins := Machine.Whole.beginsAt fits n mem function
    rw [← line]
    exact ⟨Nat.succ_pos _, begins.row_lt (by decide)⟩
  have walk : o.violations options = o.audited.flatMap fun f => f.violations o.path options :=
    violationsOf_eq o.path options o.body
  rw [walk]
  refine ⟨Signature.sorted_flatMap_violations (sorted.filter _) _ _, fun v hv => ?_⟩
  obtain ⟨f, hf, hv⟩ := List.mem_flatMap.mp hv
  rw [Signature.line_of_mem_violations hv]
  exact within f (List.mem_of_mem_filter hf)

end Outline

end AnnotationAudit
