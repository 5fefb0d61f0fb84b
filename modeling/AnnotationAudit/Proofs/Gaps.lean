import AnnotationAudit.Proofs.DocumentOrder
import AnnotationAudit.Proofs.Forms
import AnnotationAudit.Proofs.Pieces
import AnnotationAudit.Text.Blank

/-!
# What stands between the children of a tree

The children of a tree stand for the steps of a production, with comments and line continuations
between them, and blanks before each. So the text of a tree is made of the texts of its children and
of gaps. An expression has one child, and makes the node that this makes.

* `Pattern.forall_of_matches_many`, `Pattern.exists_of_matches_seq`  the texts of two patterns;
* `IsGap`                what stands between two tokens;
* `Tree.isGap_before`    before a token stands a gap, with the extras before it;
* `Tree.Settled.exists_expression`  an expression makes one node, with its text;
* `Tree.Settled.exists_three`, `Tree.Three.chars_eq`  a tree with three steps.
-/

namespace AnnotationAudit

namespace Text

/-! ## patterns -/

namespace Pattern

variable {p : Char → Bool} {cs : List Char}

theorem matches_never (cs : List Char) : never.Matches cs = false := by
  induction cs with
  | nil => rfl
  | cons c cs ih => exact ih

theorem forall_of_matches_many (h : (many (one p)).Matches cs = true) : ∀ c ∈ cs, p c = true := by
  induction cs with
  | nil => exact nofun
  | cons c cs ih =>
    have left : after c (many (one p)) = if p c then many (one p) else never := by
      rw [after, after]
      split <;> rfl
    have h : (after c (many (one p))).Matches cs = true := h
    rw [left] at h
    split at h
    · next here => exact List.forall_mem_cons.mpr ⟨here, ih h⟩
    · rw [matches_never] at h
      cases h

theorem exists_of_matches_seq {b : Pattern} (h : (seq (one p) b).Matches cs = true) :
    ∃ c ds, cs = c :: ds ∧ p c = true ∧ b.Matches ds = true := by
  cases cs with
  | nil => cases h
  | cons c ds =>
    have left : after c (seq (one p) b) = if p c then b else never := by
      rw [after, nullable, if_neg Bool.false_ne_true, after]
      split <;> rfl
    have h : (after c (seq (one p) b)).Matches ds = true := h
    rw [left] at h
    split at h
    · next here => exact ⟨c, ds, rfl, here, h⟩
    · rw [matches_never] at h
      cases h

end Pattern

/-! ## characters -/

theorem not_isIdentifierPart_blanks : (blankRanges.all fun r =>
    (List.range' r.1 (r.2 + 1 - r.1)).all fun n => !isIdentifierPart (Char.ofNat n)) = true := by
  decide +kernel

theorem isBlank_of_isIdentifierPart {c : Char} (h : isIdentifierPart c = true) :
    isBlank c = false := by
  rw [Bool.eq_false_iff]
  intro blank
  obtain ⟨r, hr, within⟩ := List.any_eq_true.mp blank
  rw [Bool.and_eq_true, decide_eq_true_iff, decide_eq_true_iff] at within
  have none := List.all_eq_true.mp (List.all_eq_true.mp not_isIdentifierPart_blanks r hr) c.toNat
    (List.mem_range'_1.mpr (by omega))
  rw [Char.ofNat_toNat, h] at none
  cases none

end Text

namespace Python

open Text

/-- what is skipped between tokens is a blank, or one of three characters without a width -/
theorem isBlank_of_isSeparator {c : Char} (h : isSeparator c = true) :
    isBlank c = true ∨ c = '\uFEFF' ∨ c = '\u2060' ∨ c = '\u200B' := by
  rw [isSeparator, Bool.or_eq_true, Bool.or_eq_true, Bool.or_eq_true, Bool.or_eq_true,
    Bool.and_eq_true, decide_eq_true_iff, decide_eq_true_iff, beq_iff_eq, beq_iff_eq, beq_iff_eq,
    beq_iff_eq] at h
  rcases h with (((⟨low, high⟩ | space) | h) | h) | h
  · refine .inl (List.any_eq_true.mpr ⟨(0x09, 0x0D), List.mem_cons_self, ?_⟩)
    rw [Bool.and_eq_true, decide_eq_true_iff, decide_eq_true_iff]
    exact ⟨low, high⟩
  · exact .inl (space ▸ by decide)
  · exact .inr (.inl h)
  · exact .inr (.inr (.inl h))
  · exact .inr (.inr (.inr h))

theorem not_isIdentifierPart_of_isSeparator {c : Char} (h : isSeparator c = true) :
    isIdentifierPart c = false := by
  rcases isBlank_of_isSeparator h with blank | rfl | rfl | rfl
  · rw [Bool.eq_false_iff]
    intro part
    cases blank.symm.trans (isBlank_of_isIdentifierPart part)
  all_goals decide +kernel

/-! ## what stands between tokens -/

/-- characters between two tokens: they are skipped, unless a comment or a line continuation stands
among them -/
def IsGap (cs : List Char) : Prop :=
  '#' ∉ cs → '\\' ∉ cs → ∀ c ∈ cs, isSeparator c = true

theorem IsGap.append {cs ds : List Char} (hc : IsGap cs) (hd : IsGap ds) : IsGap (cs ++ ds) := by
  intro comment continuation
  rw [List.mem_append, not_or] at comment continuation
  exact List.forall_mem_append.mpr
    ⟨hc comment.1 continuation.1, hd comment.2 continuation.2⟩

namespace Terminal.IsRead

variable {x : Terminal} {before start stop : Cursor}

theorem isGap (h : x.IsRead before start stop) (layout : x.isLayout = false) :
    IsGap (before.charsTo start) :=
  fun _ _ => h.blank layout

/-- a comment begins with its mark, and a line continuation with a backslash -/
theorem mem_of_isExtra (h : x.IsRead before start stop) (extra : x.isExtra = true) :
    '#' ∈ start.charsTo stop ∨ '\\' ∈ start.charsTo stop := by
  have first {c : Char} {b : Pattern}
      (hm : (Pattern.seq (.char c) b).Matches (start.charsTo stop) = true) :
      c ∈ start.charsTo stop := by
    obtain ⟨d, ds, all, same, -⟩ := Pattern.exists_of_matches_seq hm
    rw [all, beq_iff_eq.mp same]
    exact List.mem_cons_self
  cases x <;> first | exact .inl (first (h.pattern _ rfl)) | exact .inr (first (h.pattern _ rfl)) |
    cases extra

theorem isIdentifierPart_of_mem (h : x.IsRead before start stop) (name : x.asName = .identifier) :
    ∀ c ∈ start.charsTo stop, isIdentifierPart c = true := by
  obtain ⟨c, cs, all, first, others⟩ :=
    Pattern.exists_of_matches_seq (h.pattern _ (by rw [name]; rfl))
  rw [all]
  exact List.forall_mem_cons.mpr
    ⟨isIdentifierPart_of_start first, Pattern.forall_of_matches_many others⟩

end Terminal.IsRead

/-! ## trees that fit -/

namespace Tree

/-- the characters of a tree, without the blanks before it -/
def chars (t : Tree) : List Char := t.start.charsTo t.stop

namespace Settled

variable {text : String} {t : Tree}

theorem text_ofChild (h : t.Settled text.toList) (step : Option Step) :
    (Node.ofChild step t).text text = String.ofList t.chars := by
  obtain ⟨i, cs⟩ := t
  have stop : i.start.Precedes i.stop := h.lies.ordered.stop_precedes
  have here : i.start.IsIn text.toList := h.lies.before.trans h.lies.ordered.start_precedes
  have stands : StandsAt text i.start.position (i.start.charsTo i.stop) :=
    ⟨i.stop.rest, stop.rest_eq ▸ here⟩
  have slice := stands.slice_eq
  rw [← stop.position_eq] at slice
  exact slice

/-- an extra that fits is a comment, a line continuation or the end of the text -/
theorem terminal_of_isExtra (h : t.Settled text.toList) (extra : t.symbol.isExtra = true) :
    ∃ x, t.symbol = .terminal x ∧ (x.isExtra = true ∨ x = .endOfText) := by
  have sound := (Bool.or_eq_false_iff.mp (h.formed.isFault_eq_false h.cost)).1
  cases symbol : t.symbol with
  | terminal x =>
    rw [symbol] at extra
    exact ⟨x, rfl, (Bool.or_eq_true_iff.mp extra).imp_right beq_iff_eq.mp⟩
  | error =>
    rw [Tree.isError, symbol] at sound
    cases sound
  | _ =>
    rw [symbol] at extra
    cases extra

end Settled

/-! ## children among extras -/

variable {text : String} {ts es rest : List Tree} {c d : Cursor} {t : Tree}

theorem extra_of_solid_nil (h : solid ts = []) : ∀ e ∈ ts, e.extra = true := by
  intro e he
  by_contra other
  rw [Bool.not_eq_true] at other
  have mem : e.symbol ∈ solid ts := List.mem_map_of_mem (List.mem_filter.mpr ⟨he, by simp [other]⟩)
  rw [h] at mem
  exact absurd mem List.not_mem_nil

theorem Closed.eq_nil (h : Closed (ts ++ es)) (extras : ∀ e ∈ es, e.extra = true) : es = [] := by
  rcases List.eq_nil_or_concat es with rfl | ⟨fs, e, rfl⟩
  · rfl
  · rw [List.concat_eq_append] at h extras
    have last := h e (by rw [← List.append_assoc, List.getLast?_concat]; rfl)
    cases last.symm.trans (extras e (List.mem_append_right fs List.mem_cons_self))

theorem eq_singleton_of_solid {x : Symbol} (symbols : solid ts = [x]) (led : LedBy 1 ts)
    (closed : Closed ts) : ∃ t, ts = [t] ∧ t.extra = false ∧ t.symbol = x := by
  obtain ⟨es, t, rest, rfl, before, solid, same, none⟩ := exists_of_solid symbols
  obtain rfl := led.eq_nil (congrArg List.length symbols) before
  have closed : Closed ([t] ++ rest) := closed
  obtain rfl := closed.eq_nil (extra_of_solid_nil none)
  exact ⟨t, rfl, solid, same⟩

/-- three children with extras between them -/
structure Three (ts : List Tree) (x y z : Symbol) (a : Tree) (es : List Tree) (b : Tree)
    (fs : List Tree) (c : Tree) : Prop where
  eq : ts = a :: (es ++ b :: (fs ++ [c]))
  solid : a.extra = false ∧ b.extra = false ∧ c.extra = false
  symbols : a.symbol = x ∧ b.symbol = y ∧ c.symbol = z
  extras : (∀ e ∈ es, e.extra = true) ∧ ∀ f ∈ fs, f.extra = true

theorem Three.mem {x y z : Symbol} {a b c : Tree} {fs : List Tree}
    (h : Three ts x y z a es b fs c) : a ∈ ts ∧ b ∈ ts ∧ c ∈ ts ∧ es ⊆ ts ∧ fs ⊆ ts := by
  rw [h.eq]
  refine ⟨?_, ?_, ?_, ?_, ?_⟩
  all_goals simp +contextual [List.subset_def]

theorem three_of_solid {x y z : Symbol} (symbols : solid ts = [x, y, z]) (led : LedBy 3 ts)
    (closed : Closed ts) : ∃ a es b fs c, Three ts x y z a es b fs c := by
  obtain ⟨ds, a, ts, rfl, before, ha, hx, symbols'⟩ := exists_of_solid symbols
  obtain rfl := led.eq_nil (congrArg List.length symbols) before
  obtain ⟨es, b, ts, rfl, extras, hb, hy, symbols'⟩ := exists_of_solid symbols'
  obtain ⟨fs, c, rest, rfl, extras', hc, hz, none⟩ := exists_of_solid symbols'
  have all : [] ++ a :: (es ++ b :: (fs ++ c :: rest)) =
      a :: (es ++ b :: (fs ++ [c])) ++ rest := by simp
  rw [all] at closed
  obtain rfl := closed.eq_nil (extra_of_solid_nil none)
  exact ⟨a, es, b, fs, c, rfl, ⟨ha, hb, hc⟩, ⟨hx, hy, hz⟩, extras, extras'⟩

theorem withSteps_extras {steps : List Step} (extras : ∀ e ∈ es, e.extra = true) :
    withSteps steps (es ++ ts) = es.map (Prod.mk none) ++ withSteps steps ts := by
  induction es with
  | nil => rfl
  | cons e es ih =>
    obtain ⟨extra, extras⟩ := List.forall_mem_cons.mp extras
    rw [List.cons_append, withSteps_cons_extra extra, ih extras, List.map_cons, List.cons_append]

/-- the nodes of three children, and those of the extras between them -/
theorem Three.collectAll_eq {x y z : Symbol} {a b c : Tree} {fs : List Tree}
    (h : Three ts x y z a es b fs c) (r s u : Step) :
    Node.collectAll [r, s, u] none [] ts =
      Node.collect (some r) none [] a ++ (es.flatMap (Node.collect none none []) ++
        (Node.collect (some s) none [] b ++ (fs.flatMap (Node.collect none none []) ++
          Node.collect (some u) none [] c))) := by
  obtain ⟨rfl, ⟨ha, hb, hc⟩, -, extras, extras'⟩ := h
  rw [Node.collectAll_eq, withSteps_cons_solid ha, withSteps_extras extras,
    withSteps_cons_solid hb, withSteps_extras extras', withSteps_cons_solid hc]
  simp [List.flatMap_append, List.flatMap_map, withSteps]

/-! ## the text between children -/

/-- before a child stands a gap, with the extras that stand before it -/
theorem isGap_before {x : Terminal} (between : Between c (es ++ t :: rest) d)
    (extras : ∀ e ∈ es, e.Settled text.toList ∧ e.symbol.isExtra = true)
    (read : x.IsRead t.before t.start t.stop) (layout : x.isLayout = false) :
    c.Precedes t.start ∧ IsGap (c.charsTo t.start) ∧ Between t.stop rest d := by
  induction es generalizing c with
  | nil =>
    cases between with
    | cons before ordered led rest =>
      rw [before]
      exact ⟨ordered.start_precedes, read.isGap layout, rest⟩
  | cons e es ih =>
    obtain ⟨⟨settled, extra⟩, extras⟩ := List.forall_mem_cons.mp extras
    cases between with
    | cons before ordered led between =>
      obtain ⟨precedes, gap, rest⟩ := ih between extras
      rw [before]
      refine ⟨ordered.precedes.trans precedes, ?_, rest⟩
      rw [ordered.precedes.charsTo_append precedes,
        ordered.start_precedes.charsTo_append ordered.stop_precedes]
      obtain ⟨x, symbol, kind⟩ := settled.terminal_of_isExtra extra
      have read := settled.isRead symbol
      refine IsGap.append (IsGap.append (read.isGap ?_) ?_) gap
      · rcases kind with h | rfl
        · cases x <;> first | rfl | cases h
        · rfl
      · rcases kind with h | rfl
        · intro comment continuation
          exact absurd (read.mem_of_isExtra h) (not_or.mpr ⟨comment, continuation⟩)
        · rw [read.ended rfl]
          exact fun _ _ => nofun

end Tree

/-- a tree with one child stands where the child does -/
theorem Tree.Settled.chars_singleton {text : String} {t c : Tree} (h : t.Settled text.toList)
    (one : t.children = [c]) : t.chars = c.chars := by
  have between := h.lies.ordered.children_between (by rw [one]; exact List.cons_ne_nil c [])
  obtain ⟨i, cs⟩ := t
  obtain rfl : cs = [c] := one
  cases h.lies.ordered with
  | node _ _ first _ _ _ =>
    have start : i.start = c.start := first c rfl
    cases between with
    | cons _ _ _ rest =>
      cases rest with
      | nil stop =>
        have stop : c.stop = i.stop := stop
        show i.start.charsTo i.stop = c.start.charsTo c.stop
        rw [start, stop]

/-! ## expressions -/

/-- a step with a part, or without -/
def Step.plain (x : Symbol) (f : Option Field) : Step := ⟨x, none, none, none, f⟩

/-- is it the kind of what may stand anywhere? -/
def Kind.isExtra (k : Kind) : Bool := k == .comment || k == .lineContinuation

/-- is it the symbol of an expression, which makes no node of its own? -/
def Symbol.isExpression (x : Symbol) : Bool :=
  x == .nonterminal .expression || x == .nonterminal .primaryExpression

/-- one step without a part, which makes a node with a name or is an expression again -/
def makesOne : List Step → Bool
  | [s] => s.field == none &&
    (s.names && !s.kind.isExtra || s.shown == none && s.symbol.isExpression)
  | _ => false

theorem makesOne_readings {n : Nonterminal} (h : n = .expression ∨ n = .primaryExpression)
    (reps : List Rule) :
    (((Rule.of n).readings reps {} true).all fun x =>
      (inlineAll reps x.steps).all fun y => makesOne y.steps) = true := by
  rcases h with rfl | rfl <;> cbv

theorem makesOne_iff {ss : List Step} : makesOne ss = true ↔ ∃ s, ss = [s] ∧ s.field = none ∧
    (s.names = true ∧ s.kind.isExtra = false ∨
      s.shown = none ∧ s.symbol.isExpression = true) := by
  unfold makesOne
  split
  · next s =>
    rw [Bool.and_eq_true, Bool.or_eq_true, Bool.and_eq_true, Bool.and_eq_true, beq_iff_eq,
      beq_iff_eq, Bool.not_eq_true']
    exact ⟨fun h => ⟨s, rfl, h⟩, fun ⟨_, same, h⟩ => (List.singleton_inj.mp same) ▸ h⟩
  · next other => exact ⟨nofun, fun ⟨s, same, _⟩ => absurd same (other s)⟩

theorem Symbol.isExpression_iff {x : Symbol} : x.isExpression = true ↔
    ∃ n : Nonterminal, x = .nonterminal n ∧ (n = .expression ∨ n = .primaryExpression) := by
  rw [isExpression, Bool.or_eq_true, beq_iff_eq, beq_iff_eq]
  constructor
  · rintro (h | h)
    · exact ⟨_, h, .inl rfl⟩
    · exact ⟨_, h, .inr rfl⟩
  · rintro ⟨n, rfl, rfl | rfl⟩
    · exact .inl rfl
    · exact .inr rfl

variable {text : String} {t : Tree}

/-- **An expression makes one node**, with the text of the expression. -/
theorem Tree.Settled.exists_expression (h : t.Settled text.toList)
    (hx : t.symbol.isExpression = true) :
    ∃ n : Node, n.named = true ∧ n.kind.isExtra = false ∧ n.text text = String.ofList t.chars ∧
      ∀ part, Node.collectAll t.info.steps part [] t.children = [(part, n)] := by
  -- on the tree, since the child of an expression may be an expression again
  obtain ⟨lies, formed, cost⟩ := h
  induction formed with
  | @token i token =>
    obtain ⟨n, symbol, -⟩ := Symbol.isExpression_iff.mp hx
    have token : (Tree.node i []).symbol.isToken = true := token
    rw [symbol] at token
    cases token
  | broken _ pos => exact absurd cost (Nat.pos_iff_ne_zero.mp pos)
  | @branch i cs p mem here marks symbols children extras present costs free ih =>
    have settled : (Tree.node i cs).Settled text.toList :=
      ⟨lies, .branch mem here marks symbols children extras present costs free, cost⟩
    obtain ⟨n, symbol, hn⟩ := Symbol.isExpression_iff.mp hx
    have other : n ≠ .module := by rcases hn with rfl | rfl <;> nofun
    obtain ⟨q, hq, built⟩ := settled.exists_built symbol other
    have one := Production.of_readings built.filled.mem hq (makesOne_readings hn repetitions)
    obtain ⟨s, steps, field, kind⟩ := makesOne_iff.mp one
    obtain ⟨ledBy, closed⟩ := built.led (by rw [steps]; exact List.cons_ne_nil s [])
    have symbols := built.filled.symbols
    rw [steps] at ledBy symbols
    obtain ⟨c, hc, solid, same⟩ := Tree.eq_singleton_of_solid symbols ledBy closed
    obtain rfl : cs = [c] := hc
    have child : c ∈ [c] := List.mem_cons_self
    have same : c.symbol = s.symbol := same
    have made (part : Option Field) :
        Node.collectAll i.steps part [] [c] = Node.collect (some s) part [] c := by
      show Node.collectAll (Tree.node i [c]).info.steps part [] (Tree.node i [c]).children = _
      rw [built.collectAll_eq part, steps]
      exact Node.collectAll_cons_solid solid
    have place : (Tree.node i [c]).chars = c.chars := settled.chars_singleton rfl
    have below : c.Settled text.toList := built.settled c child
    rcases kind with ⟨names, plain⟩ | ⟨unmarked, again⟩
    · have shown := (Node.isShown_of_symbol same).trans (Bool.and_eq_true_iff.mp names).1
      refine ⟨Node.ofChild (some s) c, Node.named_of_step same names, ?_, ?_, fun part => ?_⟩
      · rwa [Node.kind_of_step same]
      · rw [below.text_ofChild, place]
      · show Node.collectAll i.steps part [] [c] = _
        rw [made, Node.collect_of_isShown shown]
        show [(s.field.or part, _)] = _
        rw [field, Option.none_or]
    · obtain ⟨m, named, plain, text, one⟩ :=
        ih c child (by rwa [same]) below.lies below.cost
      have hidden : Tree.isShown (some s, c) = false := by
        rw [Node.isShown_of_symbol same, Step.shows, unmarked]
        obtain ⟨n, hn, rfl | rfl⟩ := Symbol.isExpression_iff.mp again
        all_goals
          rw [hn]
          rfl
      refine ⟨m, named, plain, by rw [text, place], fun part => ?_⟩
      show Node.collectAll i.steps part [] [c] = _
      rw [made, Node.collect_of_hidden hidden]
      show Node.collectAll c.info.steps (s.field.or part) [] c.children = _
      rw [field, Option.none_or, one]

/-- the node of an expression, where it stands for a step -/
theorem Tree.Settled.collect_expression (h : t.Settled text.toList) {x : Symbol}
    (symbol : t.symbol = x) (hx : x.isExpression = true) (f : Option Field) :
    ∃ n : Node, n.named = true ∧ n.kind.isExtra = false ∧ n.text text = String.ofList t.chars ∧
      Node.collect (some (.plain x f)) none [] t = [(f, n)] := by
  obtain ⟨n, named, plain, text, one⟩ := h.exists_expression (symbol ▸ hx)
  have hidden : Tree.isShown (some (.plain x f), t) = false := by
    rw [Node.isShown_of_symbol symbol]
    obtain ⟨n, rfl, rfl | rfl⟩ := Symbol.isExpression_iff.mp hx <;> rfl
  refine ⟨n, named, plain, text, ?_⟩
  rw [Node.collect_of_hidden hidden, one]
  exact congrArg (fun q => [(q, n)]) Option.or_none

/-- an extra makes one node at most, which plays no part -/
theorem Tree.Settled.of_mem_collect_extra (h : t.Settled text.toList)
    (extra : t.symbol.isExtra = true) {d : Option Field × Node}
    (hd : d ∈ Node.collect none none [] t) :
    d.1 = none ∧ d.2.kind.isExtra = true := by
  have nil := (h.formed.placed h.cost).token (Symbol.isToken_of_isExtra extra)
  obtain ⟨x, symbol, kind⟩ := h.terminal_of_isExtra extra
  have visible : Tree.isShown (none, t) = x.isVisible := congrArg Symbol.isVisible symbol
  rcases kind with comment | rfl
  · rw [Node.eq_of_mem_collect nil hd, Node.kind_ofChild, symbol]
    refine ⟨rfl, ?_⟩
    cases x <;> first | rfl | cases comment
  · rw [Node.collect_eq_nil visible nil] at hd
    exact absurd hd List.not_mem_nil

/-! ## three children -/

def Step.marked (s : Step) : Symbol × Option Kind × Option Field := (s.symbol, s.shown, s.field)

/-- the tree of a symbol with three steps has a child for each of them, and extras between them -/
theorem Tree.Settled.exists_three (h : t.Settled text.toList) {n : Nonterminal}
    (symbol : t.symbol = .nonterminal n) (hn : n ≠ .module) {r s u : Step}
    (readings : (((Rule.of n).readings repetitions {} true).all fun x =>
      (inlineAll repetitions x.steps).all fun y =>
        y.steps.map Step.marked == [r, s, u].map Step.marked) = true) :
    ∃ a es b fs c, Tree.Three t.children r.symbol s.symbol u.symbol a es b fs c ∧
      (∀ v ∈ t.children, v.Settled text.toList ∧ (v.extra = true → v.symbol.isExtra = true)) ∧
      ∀ step, (Node.ofChild step t).parts = Node.collectAll [r, s, u] none [] t.children := by
  obtain ⟨p, hp, built⟩ := h.exists_built symbol hn
  -- the productions of the symbol have these steps, up to what plays no part in the nodes
  have steps := beq_iff_eq.mp (Production.of_readings (q := fun ss =>
    ss.map Step.marked == [r, s, u].map Step.marked) built.filled.mem hp readings)
  have length : p.steps.length = 3 := by simpa using congrArg List.length steps
  have symbols : Tree.solid t.children = [r.symbol, s.symbol, u.symbol] := by
    have first := congrArg (List.map Prod.fst) steps
    rw [List.map_map, List.map_map] at first
    exact built.filled.symbols.trans first
  obtain ⟨ledBy, closed⟩ := built.led fun nil => by
    rw [nil] at length
    cases length
  obtain ⟨a, es, b, fs, c, three⟩ := Tree.three_of_solid symbols (length ▸ ledBy) closed
  refine ⟨a, es, b, fs, c, three,
    fun v hv => ⟨built.settled v hv, built.filled.extras v hv⟩, fun step => ?_⟩
  have marks := congrArg (List.map Prod.snd) steps
  rw [List.map_map, List.map_map] at marks
  have made : Node.collectAll p.steps none [] t.children =
      Node.collectAll [r, s, u] none [] t.children := Node.collectAll_congr marks
  exact (built.parts_ofChild step).trans made

/-- the text of three children, of which the second is a token and the third is one, too -/
theorem Tree.Three.chars_eq {x : Symbol} {y z : Terminal} {a b c : Tree} {es fs : List Tree}
    (h : t.Settled text.toList) (three : Three t.children x (.terminal y) (.terminal z) a es b fs c)
    (below : ∀ v ∈ t.children, v.Settled text.toList ∧ (v.extra = true → v.symbol.isExtra = true))
    (hy : y.isLayout = false) (hz : z.isLayout = false) :
    ∃ before behind, IsGap before ∧ IsGap behind ∧
      t.chars = a.chars ++ (before ++ (b.chars ++ (behind ++ c.chars))) := by
  obtain ⟨eq, -, ⟨-, symb, symc⟩, extras, extras'⟩ := three
  have between := h.lies.ordered.children_between (by rw [eq]; exact List.cons_ne_nil _ _)
  have start : t.start = a.start := by
    obtain ⟨i, cs⟩ := t
    cases h.lies.ordered with
    | node _ _ first _ _ _ =>
      obtain rfl : cs = _ := eq
      exact first a rfl
  rw [eq] at between below
  obtain ⟨-, below⟩ := List.forall_mem_cons.mp below
  obtain ⟨hes, below⟩ := List.forall_mem_append.mp below
  obtain ⟨⟨hb, -⟩, below⟩ := List.forall_mem_cons.mp below
  obtain ⟨hfs, below⟩ := List.forall_mem_append.mp below
  obtain ⟨⟨hc, -⟩, -⟩ := List.forall_mem_cons.mp below
  cases between with
  | cons _ ordered _ between =>
    obtain ⟨one, before, between⟩ := isGap_before between
      (fun e he => ⟨(hes e he).1, (hes e he).2 (extras e he)⟩) (hb.isRead symb) hy
    obtain ⟨two, behind, between⟩ := isGap_before between
      (fun f hf => ⟨(hfs f hf).1, (hfs f hf).2 (extras' f hf)⟩) (hc.isRead symc) hz
    have stop : c.stop = t.stop := by
      cases between with
      | nil stop => exact stop
    refine ⟨_, _, before, behind, ?_⟩
    have first := ordered.stop_precedes
    have second := hb.lies.ordered.stop_precedes
    have third := hc.lies.ordered.stop_precedes
    rw [chars, start, ← stop, first.charsTo_append (one.trans (second.trans (two.trans third))),
      one.charsTo_append (second.trans (two.trans third)),
      second.charsTo_append (two.trans third), two.charsTo_append third]
    rfl

end Python
end AnnotationAudit
