import AnnotationAudit.Proofs.CommentWalk
import AnnotationAudit.Proofs.DocumentOrder

/-!
# What suppresses a function

The comments of a text are collected in one pass, keyed by the row on which they begin, and joined
with the functions in another. Here both are compared with the syntax tree.

* `Node.parts_of_comment`     a comment is a token: nothing hangs below it;
* `Source.mem_commentsOn`     the comments of a row are those of the tree, wherever they hang;
* `Node.Suppresses`           a comment with the marker begins on the row of a node;
* `IsHeadOf.isSuppressed_iff` a function is suppressed if and only if a comment suppresses its node;
* `Outline.parse_suppresses`  so it is in every accepted text, and the audit leaves out these
                              functions and no others.
-/

namespace AnnotationAudit
namespace Python

/-! ## comments are tokens -/

namespace Rule

/-- nothing is shown as a comment -/
def leavesComments : Check := fun _ k _ => k != some .comment

theorem leavesComments_rules : (Nonterminal.all.all fun n =>
    (Rule.of n).every (Rule.unfolded Rule.leavesComments) none none) = true := by
  decide +kernel

theorem leavesComments_repeated : (Nonterminal.all.all fun n => (Rule.of n).repeated.all fun r =>
    (Rule.alt (.repeat1 r) r).every (Rule.unfolded Rule.leavesComments) none none) = true := by
  decide +kernel

end Rule

theorem Production.shown_ne_comment {p : Production} {s : Step} (hp : p ∈ productions)
    (hs : s ∈ p.steps) : s.shown ≠ some .comment := by
  obtain ⟨_, _, -, -, left⟩ := passes_of_mem (c := fun _ => Rule.leavesComments)
    Rule.leavesComments_rules Rule.leavesComments_repeated hp hs
  exact bne_iff_ne.mp left

theorem Nonterminal.kind_ne_comment (n : Nonterminal) : n.kind ≠ .comment := by
  unfold Nonterminal.kind
  split <;> nofun

theorem Symbol.isToken_of_kind {x : Symbol} (h : x.kind = .comment) : x.isToken = true := by
  cases x with
  | terminal t => rfl
  | nonterminal n => exact absurd h n.kind_ne_comment
  | error => cases h
  | repetition k => cases h
  | skipped => cases h

namespace Node

theorem parts_ofChild_of_comment {t : Tree} {step : Option Step} (ht : t.Formed productions)
    (cost : t.cost = 0) (hs : t.StandsFor step) (hk : (ofChild step t).kind = .comment) :
    (ofChild step t).parts = [] := by
  rcases hs.kind_cases hk with kind | ⟨p, hp, s, mem, -, shown⟩
  · exact parts_eq_nil step ((ht.placed cost).token (Symbol.isToken_of_kind kind))
  · exact absurd shown (Production.shown_ne_comment hp mem)

end Node

/-- **A comment is a token**, in every text that fits. -/
theorem Machine.Whole.parts_of_comment {t : Tree} (whole : Machine.Whole productions t)
    (fits : t.Fits) : ∀ c ∈ (Node.ofTree t).preorder, c.kind = .comment → c.parts = [] :=
  whole.forall_mem_preorder (fun _ _ ht cost hs _ => Node.parts_ofChild_of_comment ht cost hs) fits

end Python

open Python

/-! ## comments on a row -/

namespace Source

variable {text comment : String} {root : Node} {row : Nat}

theorem mem_commentsOn : comment ∈ (Source.ofNode text root).commentsOn row ↔
    ∃ c ∈ root.preorder, c.kind = .comment ∧ c.row = row ∧ c.text text = comment := by
  simp only [commentsOn_ofNode, CommentMap.found, List.mem_map, List.mem_filter, Bool.and_eq_true,
    beq_iff_eq]
  constructor
  · rintro ⟨c, ⟨mem, hk, hrow⟩, rfl⟩
    exact ⟨c, mem, hk, hrow, rfl⟩
  · rintro ⟨c, mem, hk, hrow, rfl⟩
    exact ⟨c, ⟨mem, hk, hrow⟩, rfl⟩

end Source

theorem isSuppressionComment_iff {comment : String} : isSuppressionComment comment = true ↔
    ∃ before after, comment.toList = before ++ suppressionMarker.toList ++ after :=
  Text.occursIn_iff

/-- `c` is a comment that begins on the row on which `n` begins, and the marker is in its text -/
structure Python.Node.Suppresses (text : String) (c n : Node) : Prop where
  kind : c.kind = .comment
  row : c.row = n.row
  marker : ∃ before after, (c.text text).toList = before ++ suppressionMarker.toList ++ after

namespace IsHeadOf

variable {text : String} {root n : Node} {f : Signature}

theorem comments_eq {s : Source} (h : IsHeadOf s n f) : f.comments = s.commentsOn n.row := by
  obtain ⟨scope, decorators, rfl⟩ := h
  rfl

theorem isSuppressed_iff (h : IsHeadOf (Source.ofNode text root) n f) :
    f.isSuppressed = true ↔ ∃ c ∈ root.preorder, c.Suppresses text n := by
  rw [Signature.isSuppressed, h.comments_eq, List.any_eq_true]
  constructor
  · rintro ⟨comment, mem, marked⟩
    obtain ⟨c, hc, hk, hrow, rfl⟩ := Source.mem_commentsOn.mp mem
    exact ⟨c, hc, hk, hrow, isSuppressionComment_iff.mp marked⟩
  · rintro ⟨c, hc, hk, hrow, marker⟩
    have mem : c.text text ∈ (Source.ofNode text root).commentsOn n.row :=
      Source.mem_commentsOn.mpr ⟨c, hc, hk, hrow, rfl⟩
    exact ⟨_, mem, isSuppressionComment_iff.mpr marker⟩

end IsHeadOf

namespace Outline

/-- what the audit reports of one function after the other, at every depth -/
theorem violations_eq_flatMap (o : Outline) (options : AuditOptions) :
    o.violations options = o.functions.flatMap fun f =>
      if f.isSuppressed then [] else f.violations o.path options := by
  rw [violations, violationsOf_eq, functions]
  induction functionsOf o.body with
  | nil => rfl
  | cons f fs ih =>
    rw [List.filter_cons, List.flatMap_cons, ← ih]
    cases f.isSuppressed <;> rfl

/-- **A function is suppressed by a comment that begins on its row, and by nothing else.** In the
outline of an accepted text a function is suppressed if and only if there is a comment with the
marker, anywhere in the syntax tree, that begins on the row of the `async` or `def` at which the
node of the function begins. Comments are tokens, so text of other tokens never counts, nor do
comments on other rows: those of decorators, of later lines of the head, or of the body. -/
theorem parse_suppresses (path text : String) :
    let root := Node.ofTree (Python.parse text.toList)
    (∃ n, refusal text root = some n ∧ parse path text = .error (.at_ n)) ∨
      ∃ o, parse path text = .ok o ∧
        List.Forall₂
          (fun n f => IsHeadOf (Source.ofNode text root) n f ∧
            (f.isSuppressed = true ↔ ∃ c ∈ root.preorder, c.Suppresses text n))
          (root.preorder.filter Node.isFunction) o.functions ∧
        (∀ n ∈ root.preorder, n.isFunction = true → n.BeginsAt text.toList functionWords) ∧
        (∀ c ∈ root.preorder, c.kind = .comment → c.parts = []) ∧
        ∀ options, o.violations options = o.functions.flatMap fun f =>
          if f.isSuppressed then [] else f.violations o.path options := by
  intro root
  refine (parse_cases path text).imp_right fun ⟨o, ho, unrefused, lowers⟩ => ?_
  have whole := whole_parse text.toList
  have fits := ((refusal_eq_none_iff whole text).mp unrefused).1
  refine ⟨o, ho, ?_, Machine.Whole.beginsAt fits, whole.parts_of_comment fits,
    o.violations_eq_flatMap⟩
  rw [← Node.functionsAll_nests]
  exact lowers.functions.imp fun n f head => ⟨head, head.isSuppressed_iff⟩

end Outline

end AnnotationAudit
