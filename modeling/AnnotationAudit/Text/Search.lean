/-!
# Finding and replacing

* `startsWith`, `occursIn` one list of characters at the beginning of, or somewhere in, another;
* `replaceChar`            one character for another, everywhere.
-/

namespace AnnotationAudit
namespace Text

def startsWith : List Char → List Char → Bool
  | [], _ => true
  | _ :: _, [] => false
  | x :: needle, c :: cs => x == c && startsWith needle cs

/-- does `needle` stand somewhere in `cs`? -/
def occursIn (needle : List Char) : List Char → Bool
  | [] => needle.isEmpty
  | c :: cs => startsWith needle (c :: cs) || occursIn needle cs

theorem startsWith_iff {needle cs : List Char} :
    startsWith needle cs = true ↔ ∃ rest, cs = needle ++ rest := by
  induction needle generalizing cs with
  | nil => simp [startsWith]
  | cons x needle ih =>
    cases cs with
    | nil => simp [startsWith]
    | cons c cs =>
      simp only [startsWith, Bool.and_eq_true, beq_iff_eq, ih, List.cons_append, List.cons.injEq]
      constructor
      · rintro ⟨rfl, rest, rfl⟩
        exact ⟨rest, rfl, rfl⟩
      · rintro ⟨rest, rfl, rfl⟩
        exact ⟨rfl, rest, rfl⟩

theorem occursIn_iff {needle cs : List Char} :
    occursIn needle cs = true ↔ ∃ before rest, cs = before ++ needle ++ rest := by
  induction cs with
  | nil =>
    simp only [occursIn, List.isEmpty_iff]
    constructor
    · rintro rfl
      exact ⟨[], [], rfl⟩
    · rintro ⟨before, rest, h⟩
      have h := congrArg List.length h
      simp only [List.length_nil, List.length_append] at h
      exact List.eq_nil_of_length_eq_zero (by omega)
  | cons c cs ih =>
    simp only [occursIn, Bool.or_eq_true, startsWith_iff, ih]
    constructor
    · rintro (⟨rest, h⟩ | ⟨before, rest, h⟩)
      · exact ⟨[], rest, h⟩
      · exact ⟨c :: before, rest, by rw [h]; rfl⟩
    · rintro ⟨before, rest, h⟩
      cases before with
      | nil => exact .inl ⟨rest, h⟩
      | cons b before =>
        rw [List.cons_append, List.cons_append] at h
        exact .inr ⟨before, rest, (List.cons.inj h).2⟩

def replaceChar (x y : Char) (s : String) : String :=
  String.ofList (s.toList.map fun c => if c = x then y else c)

end Text
end AnnotationAudit
