import AnnotationAudit.Text.Line
import AnnotationAudit.Text.Pattern
import Mathlib.Data.List.Basic

/-!
# The order of cursors

* `Cursor.Precedes`         one cursor is where one gets from another by reading on;
* `Cursor.charsTo`          the characters that are read on the way;
* `Cursor.IsIn`             a cursor in a text, and so in order with all others in it;
* `IsIn.row_lt_length`      a cursor with text behind it stands on one of the text's lines;
* `Pattern.longest_precedes`  what a pattern stands for ends behind its beginning;
* `Pattern.longest_matches`   and is a text that the pattern stands for.
-/

namespace AnnotationAudit
namespace Text

namespace Position

theorem offset_lt_step (p : Position) (c : Char) : p.offset < (p.step c).offset := by
  have pos := c.utf8Size_pos
  rw [step]
  split
  · show p.offset < p.offset + 1
    omega
  · show p.offset < p.offset + c.utf8Size
    omega

theorem row_le_step (p : Position) (c : Char) : p.row ≤ (p.step c).row := by
  rw [step]
  split
  · exact Nat.le_succ _
  · exact Nat.le_refl _

theorem row_le_run (p : Position) (cs : List Char) : p.row ≤ (p.run cs).row := by
  induction cs generalizing p with
  | nil => exact Nat.le_refl _
  | cons c cs ih => exact Nat.le_trans (p.row_le_step c) (ih (p.step c))

theorem offset_add_length_le_run (p : Position) (cs : List Char) :
    p.offset + cs.length ≤ (p.run cs).offset := by
  induction cs generalizing p with
  | nil => exact Nat.le_refl _
  | cons c cs ih =>
    have one := p.offset_lt_step c
    have rest := ih (p.step c)
    rw [run_cons, List.length_cons]
    omega

end Position

namespace Cursor

/-- one gets from `c` to `d` by reading on, if only over nothing -/
def Precedes (c d : Cursor) : Prop :=
  ∃ cs, c.rest = cs ++ d.rest ∧ d.position = c.position.run cs

def charsTo (c d : Cursor) : List Char := c.rest.take (c.rest.length - d.rest.length)

/-- a cursor in a text -/
def IsIn (text : List Char) (c : Cursor) : Prop := (ofList text).Precedes c

theorem charsTo_eq {c d : Cursor} {cs : List Char} (h : c.rest = cs ++ d.rest) :
    c.charsTo d = cs := by
  rw [charsTo, h, List.length_append, Nat.add_sub_cancel_right, List.take_left]

theorem charsTo_self (c : Cursor) : c.charsTo c = [] := charsTo_eq rfl

namespace Precedes

variable {c d e : Cursor}

theorem refl (c : Cursor) : c.Precedes c := ⟨[], rfl, rfl⟩

theorem trans (h : c.Precedes d) (h' : d.Precedes e) : c.Precedes e := by
  obtain ⟨cs, hc, hd⟩ := h
  obtain ⟨ds, hd', he⟩ := h'
  refine ⟨cs ++ ds, ?_, ?_⟩
  · rw [hc, hd', List.append_assoc]
  · rw [he, hd, Position.run_append]

theorem next (c : Cursor) : c.Precedes c.next := by
  rw [Cursor.next]
  split
  · exact .refl c
  · next x xs hx => exact ⟨[x], hx, rfl⟩

theorem offset_le (h : c.Precedes d) : c.offset ≤ d.offset := by
  obtain ⟨cs, -, hd⟩ := h
  have more := c.position.offset_add_length_le_run cs
  rw [offset, offset, hd]
  omega

theorem row_le (h : c.Precedes d) : c.position.row ≤ d.position.row := by
  obtain ⟨cs, -, hd⟩ := h
  rw [hd]
  exact c.position.row_le_run cs

theorem rest_eq (h : c.Precedes d) : c.rest = c.charsTo d ++ d.rest := by
  obtain ⟨cs, hc, -⟩ := h
  rw [charsTo_eq hc, hc]

theorem position_eq (h : c.Precedes d) : d.position = c.position.run (c.charsTo d) := by
  obtain ⟨cs, hc, hd⟩ := h
  rw [charsTo_eq hc, hd]

theorem charsTo_append (h : c.Precedes d) (h' : d.Precedes e) :
    c.charsTo e = c.charsTo d ++ d.charsTo e :=
  charsTo_eq (by rw [List.append_assoc, ← h'.rest_eq, ← h.rest_eq])

end Precedes

variable {text : List Char} {c d : Cursor}

theorem isIn_ofList (text : List Char) : (ofList text).IsIn text := .refl _

theorem IsIn.trans (hc : c.IsIn text) (h : c.Precedes d) : d.IsIn text := Precedes.trans hc h

/-- of two cursors in one text the one with the lower offset comes first -/
theorem IsIn.precedes (hc : c.IsIn text) (hd : d.IsIn text) (h : c.offset ≤ d.offset) :
    c.Precedes d := by
  obtain ⟨cs, hcs, hpc⟩ := hc
  obtain ⟨ds, hds, hpd⟩ := hd
  have same : cs ++ c.rest = ds ++ d.rest := hcs.symm.trans hds
  rcases List.append_eq_append_iff.mp same with ⟨es, rfl, hrest⟩ | ⟨es, rfl, hrest⟩
  · exact ⟨es, hrest, by rw [hpd, hpc, Position.run_append]⟩
  · rw [Position.run_append, ← hpd] at hpc
    have more := d.position.offset_add_length_le_run es
    rw [← hpc] at more
    have nil : es = [] := List.eq_nil_of_length_eq_zero (by
      rw [offset, offset] at h
      omega)
    rw [nil] at hpc hrest
    exact ⟨[], hrest.symm, hpc.symm⟩

/-- cursors in one text at the same place are the same -/
theorem IsIn.eq_of_offset (hc : c.IsIn text) (hd : d.IsIn text) (h : c.offset = d.offset) :
    c = d := by
  obtain ⟨cs, rest, position⟩ := hc.precedes hd (Nat.le_of_eq h)
  have more := c.position.offset_add_length_le_run cs
  rw [← position] at more
  have nil : cs = [] := List.eq_nil_of_length_eq_zero (by
    rw [offset, offset] at h
    omega)
  rw [nil] at rest position
  cases c
  cases d
  exact congrArg₂ Cursor.mk position.symm rest

/-! ## rows and lines -/

theorem length_linesFrom_pos {line cs : List Char} (h : line ≠ [] ∨ cs ≠ []) :
    0 < (linesFrom line cs).length := by
  induction cs generalizing line with
  | nil =>
    have hline : line.isEmpty = false := by simpa using h
    rw [linesFrom, hline]
    exact Nat.zero_lt_one
  | cons c cs ih =>
    rw [linesFrom]
    split
    · exact Nat.succ_pos _
    · exact ih (.inl (List.cons_ne_nil _ _))

/-- every line feed that has been read has ended a line, and what follows begins another -/
theorem row_run_lt (line cs : List Char) (p : Position) {rest : List Char} (h : rest ≠ []) :
    (p.run cs).row < p.row + (linesFrom line (cs ++ rest)).length := by
  induction cs generalizing line p with
  | nil =>
    have pos : 0 < (linesFrom line rest).length := length_linesFrom_pos (.inr h)
    show p.row < p.row + (linesFrom line rest).length
    omega
  | cons c cs ih =>
    rw [Position.run_cons, List.cons_append, linesFrom, Position.step]
    split
    · have below := ih [] ⟨p.offset + 1, p.row + 1, 0⟩
      rw [List.length_cons]
      dsimp only at below ⊢
      omega
    · exact ih (c :: line) ⟨p.offset + c.utf8Size, p.row, p.column + c.utf8Size⟩

theorem IsIn.row_lt_length (hc : c.IsIn text) (rest : c.rest ≠ []) :
    c.position.row < (linesFrom [] text).length := by
  obtain ⟨cs, htext, hp⟩ := hc
  have below := row_run_lt [] cs .origin rest
  rw [← htext, show Position.origin.row = 0 from rfl, Nat.zero_add] at below
  rw [hp]
  exact below

end Cursor

theorem Pattern.longestFrom_precedes {c : Cursor} {best : Option Cursor} {p : Pattern}
    {pos : Position} {cs : List Char} (here : c.Precedes ⟨pos, cs⟩)
    (hbest : ∀ d ∈ best, c.Precedes d) : ∀ d ∈ p.longestFrom best pos cs, c.Precedes d := by
  induction cs generalizing best p pos with
  | nil =>
    intro d hd
    rw [longestFrom] at hd
    split at hd
    · exact Option.mem_some_iff.mp hd ▸ here
    · exact hbest d hd
  | cons x cs ih =>
    have best' : ∀ d ∈ (if p.nullable then Option.some ⟨pos, x :: cs⟩ else best),
        c.Precedes d := by
      intro d hd
      split at hd
      · exact Option.mem_some_iff.mp hd ▸ here
      · exact hbest d hd
    rw [longestFrom]
    split
    · exact best'
    · exact ih (here.trans (.next ⟨pos, x :: cs⟩)) best'

theorem Pattern.longest_precedes (p : Pattern) (c : Cursor) : ∀ d ∈ p.longest c, c.Precedes d :=
  longestFrom_precedes (.refl c) nofun

/-- what is left of a pattern stands for the rest of a text once the pattern has read the first of
it -/
theorem Pattern.longestFrom_matches {c : Cursor} {q p : Pattern} {best : Option Cursor}
    {read cs : List Char} {pos : Position} (here : c.rest = read ++ cs)
    (left : p = read.foldl (fun q x => after x q) q)
    (hbest : ∀ d ∈ best, q.Matches (c.charsTo d) = true) :
    ∀ d ∈ p.longestFrom best pos cs, q.Matches (c.charsTo d) = true := by
  have found : ∀ cs : List Char, c.rest = read ++ cs → p.nullable = true →
      q.Matches (c.charsTo ⟨pos, cs⟩) = true := by
    intro cs rest nullable
    rw [Cursor.charsTo_eq (d := ⟨pos, cs⟩) rest, Matches, ← left]
    exact nullable
  induction cs generalizing best p pos read with
  | nil =>
    intro d hd
    rw [longestFrom] at hd
    split at hd
    · next nullable => exact Option.mem_some_iff.mp hd ▸ found [] here nullable
    · exact hbest d hd
  | cons x cs ih =>
    have best' : ∀ d ∈ (if p.nullable then Option.some ⟨pos, x :: cs⟩ else best),
        q.Matches (c.charsTo d) = true := by
      intro d hd
      split at hd
      · next nullable => exact Option.mem_some_iff.mp hd ▸ found (x :: cs) here nullable
      · exact hbest d hd
    rw [longestFrom]
    split
    · exact best'
    · have next : after x p = (read ++ [x]).foldl (fun q x => after x q) q := by
        rw [List.foldl_append, ← left]
        rfl
      have here : c.rest = (read ++ [x]) ++ cs := by rw [here, List.append_assoc]; rfl
      refine ih here next best' fun ds rest nullable => ?_
      rw [Cursor.charsTo_eq (d := ⟨pos.step x, ds⟩) rest, Matches, ← next]
      exact nullable

theorem Pattern.longest_matches (p : Pattern) (c : Cursor) :
    ∀ d ∈ p.longest c, p.Matches (c.charsTo d) = true :=
  have here : c.rest = [] ++ c.rest := rfl
  longestFrom_matches here rfl nofun

end Text

end AnnotationAudit
