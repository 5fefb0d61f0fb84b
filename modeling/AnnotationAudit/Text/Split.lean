/-!
# Splitting and joining

* `splitOn`   the parts of a list, of characters or of bytes, between the occurrences of an item;
* `joinWith`  parts with an item between them.

Splitting and joining at the same item are inverse to each other.
-/

namespace AnnotationAudit
namespace Text

variable {α : Type}

section

variable [DecidableEq α]

/-- the parts of a list between the occurrences of `sep`; there is always one -/
def splitOn (sep : α) : List α → List (List α)
  | [] => [[]]
  | c :: cs =>
    if c = sep then [] :: splitOn sep cs
    else
      match splitOn sep cs with
      | [] => [[c]]
      | part :: parts => (c :: part) :: parts

end

/-- parts with `sep` between them -/
def joinWith (sep : α) : List (List α) → List α
  | [] => []
  | [part] => part
  | part :: parts => part ++ sep :: joinWith sep parts

variable [DecidableEq α]

theorem splitOn_ne_nil (sep : α) (cs : List α) : splitOn sep cs ≠ [] := by
  induction cs with
  | nil => simp [splitOn]
  | cons c cs ih =>
    simp only [splitOn]
    split
    · simp
    · split <;> simp

theorem joinWith_splitOn (sep : α) (cs : List α) : joinWith sep (splitOn sep cs) = cs := by
  induction cs with
  | nil => rfl
  | cons c cs ih =>
    simp only [splitOn]
    split
    · rename_i h
      cases hs : splitOn sep cs with
      | nil => exact absurd hs (splitOn_ne_nil sep cs)
      | cons part parts =>
        rw [hs] at ih
        simp only [joinWith, List.nil_append, ih, h]
    · cases hs : splitOn sep cs with
      | nil => exact absurd hs (splitOn_ne_nil sep cs)
      | cons part parts =>
        rw [hs] at ih
        cases parts with
        | nil =>
          simp only [joinWith] at ih ⊢
          rw [ih]
        | cons q parts =>
          simp only [joinWith] at ih ⊢
          rw [← ih, List.cons_append]

end Text
end AnnotationAudit
