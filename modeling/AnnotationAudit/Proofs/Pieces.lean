import AnnotationAudit.Proofs.Acceptance
import AnnotationAudit.Proofs.Cursors
import Mathlib.Data.String.Basic

/-!
# Texts with their syntax

A piece is a stretch of text together with the nodes that a reader sees in it. Whoever writes a text
piece by piece so writes its syntax tree, too, and knows what stands at every node.

* `StandsAt`             some characters stand at a place of a text;
* `Piece.text`, `Piece.nodes`  what a piece writes, and the nodes that this makes;
* `Piece.notes_eq`       the comments of a piece, with the rows on which they begin;
* `Piece.valid_of_every` nothing is refused in pieces without parameter lists.
-/

namespace AnnotationAudit

open Python Text

/-! ## places in a text -/

theorem Text.Position.offset_run (p : Position) (cs : List Char) :
    (p.run cs).offset = p.offset + String.utf8Len cs := by
  induction cs generalizing p with
  | nil => rfl
  | cons c cs ih =>
    have one : (p.step c).offset = p.offset + c.utf8Size := by
      rw [Position.step]
      split
      · next h =>
        subst h
        rfl
      · rfl
    rw [Position.run_cons, ih, one, String.utf8Len_cons]
    omega

theorem Text.Position.row_run (p : Position) (cs : List Char) :
    (p.run cs).row = p.row + cs.count '\n' := by
  induction cs generalizing p with
  | nil => rfl
  | cons c cs ih =>
    rw [Position.run_cons, ih, List.count_cons, Position.step]
    by_cases h : c = '\n'
    · simp only [h, if_true, beq_self_eq_true]
      omega
    · simp [h]

/-- the characters `cs` stand at `p` in the text -/
def StandsAt (text : String) (p : Position) (cs : List Char) : Prop :=
  ∃ after, Cursor.IsIn text.toList ⟨p, cs ++ after⟩

namespace StandsAt

variable {text : String} {p : Position} {cs ds : List Char}

theorem origin (text : String) : StandsAt text .origin text.toList := by
  refine ⟨[], ?_⟩
  rw [List.append_nil]
  exact Cursor.isIn_ofList text.toList

theorem take (h : StandsAt text p (cs ++ ds)) : StandsAt text p cs := by
  obtain ⟨after, h⟩ := h
  rw [List.append_assoc] at h
  exact ⟨ds ++ after, h⟩

theorem skip (h : StandsAt text p (cs ++ ds)) : StandsAt text (p.run cs) ds := by
  obtain ⟨after, h⟩ := h
  rw [List.append_assoc] at h
  exact ⟨after, h.trans ⟨cs, rfl, rfl⟩⟩

theorem slice_eq (h : StandsAt text p cs) :
    Node.slice text p.offset (p.run cs).offset = String.ofList cs := by
  obtain ⟨after, before, split, hp⟩ := h
  have hp : p = Position.origin.run before := hp
  have place : p.offset = String.utf8Len before := by
    rw [hp, Position.offset_run]
    exact Nat.zero_add _
  have whole : text = String.ofList (before ++ cs ++ after) := by
    rw [List.append_assoc]
    exact String.toList_injective (split.trans String.toList_ofList.symm)
  rw [Node.slice, Position.offset_run, place, whole]
  exact String.extract_of_valid before cs after

end StandsAt

/-! ## pieces -/

/-- a stretch of text with the nodes in it: blanks, punctuation, tokens with a name, and nodes made
of pieces; a node plays a part in the node around it, or none -/
inductive Piece where
  | blank (cs : List Char)
  | mark (cs : List Char)
  | token (part : Option Field) (kind : Kind) (cs : List Char)
  | node (part : Option Field) (kind : Kind) (ps : List Piece)

namespace Piece

mutual

def text : Piece → List Char
  | .blank cs | .mark cs | .token _ _ cs => cs
  | .node _ _ ps => textOf ps

def textOf : List Piece → List Char
  | [] => []
  | q :: qs => q.text ++ textOf qs

end

mutual

def nodes (p : Position) : Piece → List (Option Field × Node)
  | .blank _ => []
  | .mark cs => [(none, .mk .other false false false p (p.run cs) [])]
  | .token part kind cs => [(part, .mk kind true false false p (p.run cs) [])]
  | .node part kind ps => [(part, .mk kind true false false p (p.run (textOf ps)) (nodesOf p ps))]

def nodesOf (p : Position) : List Piece → List (Option Field × Node)
  | [] => []
  | q :: qs => q.nodes p ++ nodesOf (p.run q.text) qs

end

mutual

/-- the comments of a piece that stands at `p`, with the rows on which they begin -/
def notes (p : Position) : Piece → List (Nat × String)
  | .blank _ | .mark _ => []
  | .token _ kind cs => if kind == .comment then [(p.row, String.ofList cs)] else []
  | .node _ kind ps =>
    (if kind == .comment then [(p.row, String.ofList (textOf ps))] else []) ++ notesOf p ps

def notesOf (p : Position) : List Piece → List (Nat × String)
  | [] => []
  | q :: qs => q.notes p ++ notesOf (p.run q.text) qs

end

mutual

/-- are all nodes with a name in a piece of kinds that satisfy `c`? -/
def every (c : Kind → Bool) : Piece → Bool
  | .blank _ | .mark _ => true
  | .token _ kind _ => c kind
  | .node _ kind ps => c kind && everyOf c ps

def everyOf (c : Kind → Bool) : List Piece → Bool
  | [] => true
  | q :: qs => q.every c && everyOf c qs

end

/-- the node and all nodes below it -/
theorem preorder_node (p : Position) (part : Option Field) (kind : Kind) (ps : List Piece) :
    Node.preorderParts (nodes p (.node part kind ps)) =
      .mk kind true false false p (p.run (textOf ps)) (nodesOf p ps) ::
        Node.preorderParts (nodesOf p ps) := by
  rw [nodes, Node.preorderParts, Node.preorder, Node.preorderParts, List.append_nil]

theorem textOf_append (ps qs : List Piece) : textOf (ps ++ qs) = textOf ps ++ textOf qs := by
  induction ps with
  | nil => rfl
  | cons q ps ih => rw [List.cons_append, textOf, ih, textOf, List.append_assoc]

theorem everyOf_append (c : Kind → Bool) (ps qs : List Piece) :
    everyOf c (ps ++ qs) = (everyOf c ps && everyOf c qs) := by
  induction ps with
  | nil => rfl
  | cons q ps ih => rw [List.cons_append, everyOf, ih, everyOf, Bool.and_assoc]

theorem nodesOf_append (p : Position) (ps qs : List Piece) :
    nodesOf p (ps ++ qs) = nodesOf p ps ++ nodesOf (p.run (textOf ps)) qs := by
  induction ps generalizing p with
  | nil => rfl
  | cons q ps ih =>
    rw [List.cons_append, nodesOf, ih, nodesOf, textOf, Position.run_append, List.append_assoc]

theorem notesOf_append (p : Position) (ps qs : List Piece) :
    notesOf p (ps ++ qs) = notesOf p ps ++ notesOf (p.run (textOf ps)) qs := by
  induction ps generalizing p with
  | nil => rfl
  | cons q ps ih =>
    rw [List.cons_append, notesOf, ih, notesOf, textOf, Position.run_append, List.append_assoc]

/-! ## what stands at the nodes -/

variable {text : String}

/-- the comments of some nodes, with the rows on which they begin -/
def commentsOf (text : String) (ns : List Node) : List (Nat × String) :=
  (ns.filter fun n => n.kind == .comment).map fun n => (n.row, n.text text)

theorem commentsOf_append (text : String) (ns ms : List Node) :
    commentsOf text (ns ++ ms) = commentsOf text ns ++ commentsOf text ms := by
  rw [commentsOf, List.filter_append, List.map_append]
  rfl

theorem commentsOf_cons (text : String) (n : Node) (ns : List Node) :
    commentsOf text (n :: ns) =
      (if n.kind == .comment then [(n.row, n.text text)] else []) ++ commentsOf text ns := by
  rw [commentsOf, List.filter_cons]
  cases n.kind == .comment <;> rfl

mutual

/-- **The comments among the nodes of a piece are those that it writes.** -/
theorem notes_eq : ∀ {p : Position} {q : Piece}, StandsAt text p q.text →
    commentsOf text (Node.preorderParts (q.nodes p)) = q.notes p
  | _, .blank _, _ => rfl
  | _, .mark _, _ => rfl
  | p, .token part kind cs, h => by
    have here : Node.text text (.mk kind true false false p (p.run cs) []) = String.ofList cs :=
      StandsAt.slice_eq h
    show commentsOf text [.mk kind true false false p (p.run cs) []] = _
    rw [commentsOf_cons, here]
    exact List.append_nil _
  | p, .node part kind ps, h => by
    have here : Node.text text (.mk kind true false false p (p.run (textOf ps)) (nodesOf p ps)) =
        String.ofList (textOf ps) := StandsAt.slice_eq h
    have below : commentsOf text (Node.preorderParts (nodesOf p ps)) = notesOf p ps :=
      notesOf_eq h
    rw [preorder_node, commentsOf_cons, here, below]
    rfl

theorem notesOf_eq : ∀ {p : Position} {ps : List Piece}, StandsAt text p (textOf ps) →
    commentsOf text (Node.preorderParts (nodesOf p ps)) = notesOf p ps
  | _, [], _ => rfl
  | p, q :: qs, h => by
    have first := notes_eq (q := q) h.take
    have rest : commentsOf text (Node.preorderParts (nodesOf (p.run q.text) qs)) =
        notesOf (p.run q.text) qs := notesOf_eq h.skip
    rw [nodesOf, notesOf, Node.preorderParts_append, commentsOf_append, first, rest]

end

mutual

theorem notes_of_every : ∀ {p : Position} {q : Piece}, q.every (· != .comment) = true →
    q.notes p = []
  | _, .blank _, _ => rfl
  | _, .mark _, _ => rfl
  | _, .token _ kind _, h => by
    have other : kind ≠ .comment := bne_iff_ne.mp h
    rw [notes, if_neg fun same => other (beq_iff_eq.mp same)]
  | p, .node _ kind ps, h => by
    rw [every, Bool.and_eq_true] at h
    have other : kind ≠ .comment := bne_iff_ne.mp h.1
    rw [notes, if_neg fun same => other (beq_iff_eq.mp same), notesOf_of_every h.2]
    rfl

theorem notesOf_of_every : ∀ {p : Position} {ps : List Piece},
    everyOf (· != .comment) ps = true → notesOf p ps = []
  | _, [], _ => rfl
  | p, q :: qs, h => by
    rw [everyOf, Bool.and_eq_true] at h
    rw [notesOf, notes_of_every h.1, notesOf_of_every h.2]
    rfl

end

/-! ## what is refused -/

theorem isValid_of_isHarmless (text : String) {n : Node} (h : n.kind.isHarmless = true) :
    n.IsValid text :=
  refusedAt_eq_none_iff.mp (Node.refusedAt_of_isHarmless h text)

/-- all nodes at or below the parts are valid -/
def AreValid (text : String) (cs : List (Option Field × Node)) : Prop :=
  ∀ n ∈ Node.preorderParts cs, n.IsValid text

theorem AreValid.append {cs ds : List (Option Field × Node)} (hc : AreValid text cs)
    (hd : AreValid text ds) : AreValid text (cs ++ ds) := by
  intro n hn
  rw [Node.preorderParts_append] at hn
  exact (List.mem_append.mp hn).elim (hc n) (hd n)

theorem AreValid.node {p : Position} {part : Option Field} {kind : Kind} {ps : List Piece}
    (here : (Node.mk kind true false false p (p.run (textOf ps)) (nodesOf p ps)).IsValid text)
    (below : AreValid text (nodesOf p ps)) : AreValid text (nodes p (.node part kind ps)) := by
  rw [AreValid, preorder_node]
  exact List.forall_mem_cons.mpr ⟨here, below⟩

mutual

theorem valid_of_every (text : String) : ∀ {p : Position} {q : Piece},
    q.every Kind.isHarmless = true → AreValid text (q.nodes p)
  | _, .blank _, _ => fun _ hn => absurd hn List.not_mem_nil
  | _, .mark _, _ => fun n hn => by
    obtain rfl := List.mem_singleton.mp hn
    exact isValid_of_isHarmless text rfl
  | _, .token _ kind _, h => fun n hn => by
    obtain rfl := List.mem_singleton.mp hn
    exact isValid_of_isHarmless text h
  | p, .node _ kind ps, h => by
    rw [every, Bool.and_eq_true] at h
    exact .node (isValid_of_isHarmless text h.1) (valid_of_everyOf text h.2)

theorem valid_of_everyOf (text : String) : ∀ {p : Position} {ps : List Piece},
    everyOf Kind.isHarmless ps = true → AreValid text (nodesOf p ps)
  | _, [], _ => fun _ hn => absurd hn List.not_mem_nil
  | p, q :: qs, h => by
    rw [everyOf, Bool.and_eq_true] at h
    exact (valid_of_every text h.1).append (valid_of_everyOf text h.2)

end

mutual

/-- nothing is refused at or below punctuation -/
theorem isHarmless_of_unnamed : ∀ {p : Position} {q : Piece},
    ∀ n ∈ Node.preorderParts (q.nodes p), n.named = false → n.IsHarmless
  | _, .blank _, _, hn, _ => absurd hn List.not_mem_nil
  | _, .mark _, n, hn, _ => by
    obtain rfl := List.mem_singleton.mp hn
    intro m hm
    obtain rfl := List.mem_singleton.mp hm
    rfl
  | _, .token _ _ _, n, hn, unnamed => by
    obtain rfl := List.mem_singleton.mp hn
    cases unnamed
  | p, .node _ _ ps, n, hn, unnamed => by
    rw [preorder_node] at hn
    rcases List.mem_cons.mp hn with rfl | hn
    · cases unnamed
    · exact areHarmless_of_unnamed n hn unnamed

theorem areHarmless_of_unnamed : ∀ {p : Position} {ps : List Piece},
    ∀ n ∈ Node.preorderParts (nodesOf p ps), n.named = false → n.IsHarmless
  | _, [], _, hn, _ => absurd hn List.not_mem_nil
  | p, q :: qs, n, hn, unnamed => by
    rw [nodesOf, Node.preorderParts_append] at hn
    rcases List.mem_append.mp hn with hn | hn
    · exact isHarmless_of_unnamed n hn unnamed
    · exact areHarmless_of_unnamed n hn unnamed

end

end Piece

end AnnotationAudit
