import AnnotationAudit.Python.Table
import Mathlib.Data.List.Basic
import Mathlib.Data.Nat.Bitwise

/-!
# What is found in tables

* `testBit_foldl`       a bit of a mask that was put together was there at first or has been put in;
* `testBit_of_mem_members`  the members of a mask are bits of it;
* `Rows.testBit_row`, `Rows.testBit_add`  the bits of rows;
* `Table.get?_ofList`   an item is looked up where it stands in the list;
* `mem_sorted`          a list in order has the items it had.
-/

namespace AnnotationAudit
namespace Python

/-! ## bit masks -/

theorem testBit_foldl {α : Type} {f : Nat → α → Nat} {P : α → Prop} {k : Nat}
    (step : ∀ m a, (f m a).testBit k = true → m.testBit k = true ∨ P a) {as : List α} {m : Nat}
    (h : (as.foldl f m).testBit k = true) : m.testBit k = true ∨ ∃ a ∈ as, P a := by
  induction as generalizing m with
  | nil => exact .inl h
  | cons a as ih =>
    rcases ih h with h | ⟨b, hb, hP⟩
    · exact (step m a h).imp_right fun hP => ⟨a, List.mem_cons_self, hP⟩
    · exact .inr ⟨b, List.mem_cons_of_mem a hb, hP⟩

/-- what is put together from nothing has only bits that have been put in -/
theorem testBit_foldl_zero {α : Type} {f : Nat → α → Nat} {P : α → Prop} {k : Nat}
    (step : ∀ m a, (f m a).testBit k = true → m.testBit k = true ∨ P a) {as : List α}
    (h : (as.foldl f 0).testBit k = true) : ∃ a ∈ as, P a :=
  (testBit_foldl step h).resolve_left (by rw [Nat.zero_testBit]; exact Bool.false_ne_true)

theorem testBit_of_mem_members {n mask i : Nat} (h : i ∈ members n mask) :
    mask.testBit i = true := by
  induction n generalizing mask with
  | zero => exact absurd h List.not_mem_nil
  | succ n ih =>
    rw [members] at h
    split at h
    · exact absurd h List.not_mem_nil
    · next some =>
      rcases List.mem_cons.mp h with rfl | h
      · exact Nat.testBit_log2 some
      · have rest := ih h
        rw [Nat.testBit_xor, Nat.one_shiftLeft, Nat.testBit_two_pow] at rest
        by_cases last : mask.log2 = i
        · exact last ▸ Nat.testBit_log2 some
        · rwa [decide_eq_false last, Bool.xor_false] at rest

namespace Rows

variable {w v i k : Nat} {r mask : Nat}

theorem testBit_row : (row w r v).testBit i = (decide (i < w) && r.testBit (v * w + i)) := by
  rw [row, Nat.one_shiftLeft, Nat.testBit_mod_two_pow, Nat.testBit_shiftRight]

/-- what is added to a row stands in that row -/
theorem testBit_add (h : (add w r v mask).testBit k = true) :
    r.testBit k = true ∨ ∃ i, k = v * w + i ∧ mask.testBit i = true := by
  rw [add, Nat.testBit_or, Bool.or_eq_true, Nat.testBit_shiftLeft, Bool.and_eq_true] at h
  exact h.imp_right fun ⟨le, bit⟩ =>
    ⟨k - v * w, (Nat.add_sub_cancel' (of_decide_eq_true le)).symm, bit⟩

end Rows

/-! ## lists -/

namespace Table

variable {α : Type}

theorem getElem?_piecesOf (n k : Nat) (xs : List α) : (piecesOf n xs)[k]? =
    if k < n then some ((xs.drop (size * k)).take size).toArray else none := by
  induction n generalizing k xs with
  | zero => rfl
  | succ n ih =>
    cases k with
    | zero => rfl
    | succ k =>
      rw [piecesOf, List.getElem?_cons_succ, ih, List.drop_drop, Nat.mul_succ, Nat.add_comm size]
      simp only [Nat.succ_lt_succ_iff]

theorem get?_ofList (xs : List α) (i : Nat) : (ofList xs).get? i = xs[i]? := by
  have place := Nat.div_add_mod i size
  have inside : i % size < size := Nat.mod_lt i (by decide)
  rw [get?, ofList, List.getElem?_toArray, getElem?_piecesOf]
  split
  · rw [Option.bind_some, List.getElem?_toArray, List.getElem?_take_of_lt inside,
      List.getElem?_drop, place]
  · next outside =>
    rw [Option.bind_none, List.getElem?_eq_none (Nat.le_of_not_lt fun h : i < xs.length =>
      outside (Nat.lt_succ_of_le (Nat.div_le_div_right h.le)))]

theorem getD_ofList (xs : List α) (i : Nat) (d : α) : (ofList xs).getD i d = xs[i]?.getD d := by
  rw [getD, get?_ofList]

end Table

theorem mem_place {α : Type} {before : α → α → Bool} {x y : α} {ys : List α} :
    y ∈ place before x ys ↔ y = x ∨ y ∈ ys := by
  induction ys with
  | nil => rw [place, List.mem_cons]
  | cons z ys ih =>
    rw [place]
    split
    · exact List.mem_cons
    · rw [List.mem_cons, ih, List.mem_cons, or_left_comm]

theorem mem_sorted {α : Type} {before : α → α → Bool} {y : α} {xs : List α} :
    y ∈ sorted before xs ↔ y ∈ xs := by
  induction xs with
  | nil => rfl
  | cons x xs ih => exact mem_place.trans ((or_congr_right ih).trans List.mem_cons.symm)

end Python
end AnnotationAudit
