import AnnotationAudit.Json.Decode
import AnnotationAudit.Json.Value

/-!
# Texts of JSON values

A value can be written with blanks between its tokens or without. What reads it must not care, so
the texts of a value are told here once, and both layouts are seen to be among them.

* `Json.Written`         the texts of a value, with any blanks between the tokens;
* `Json.written_compact` the text without blanks is one of them;
* `Json.written_pretty`  so is the text over several lines.
-/

namespace AnnotationAudit
namespace Json

def Blanks (ws : List Char) : Prop := ∀ c ∈ ws, Decode.isSpace c = true

/-- what stands before an element or a member: a comma, unless it is the first -/
def comma (first : Bool) : List Char := if first then [] else [',']

mutual

/-- the texts of a value: its tokens in their order, with any blanks between them -/
inductive Written : Json → List Char → Prop
  | null : Written .null "null".toList
  | yes : Written (.boolean true) "true".toList
  | no : Written (.boolean false) "false".toList
  | number (n : Nat) : Written (.number n) (Text.decimalDigits n)
  | text (s : String) : Written (.text s) (stringChars s)
  | array {vs : List Json} {cs : List Char} :
    WrittenItems true vs cs → Written (.array vs) ('[' :: cs ++ [']'])
  | object {ms : List (String × Json)} {cs : List Char} :
    WrittenMembers true ms cs → Written (.object ms) ('\x7b' :: cs ++ ['\x7d'])

/-- the texts of the elements from some element on, up to the end of the list -/
inductive WrittenItems : Bool → List Json → List Char → Prop
  | nil {first : Bool} {ws : List Char} : Blanks ws → WrittenItems first [] ws
  | cons {first : Bool} {v : Json} {vs : List Json} {ws us cs ds : List Char} :
    Blanks ws → Blanks us → Written v cs → WrittenItems false vs ds →
      WrittenItems first (v :: vs) (ws ++ comma first ++ us ++ cs ++ ds)

/-- the texts of the members from some member on, up to the end of the object -/
inductive WrittenMembers : Bool → List (String × Json) → List Char → Prop
  | nil {first : Bool} {ws : List Char} : Blanks ws → WrittenMembers first [] ws
  | cons {first : Bool} {k : String} {v : Json} {ms : List (String × Json)}
      {ws us xs ys cs ds : List Char} :
    Blanks ws → Blanks us → Blanks xs → Blanks ys → Written v cs → WrittenMembers false ms ds →
      WrittenMembers first ((k, v) :: ms)
        (ws ++ comma first ++ us ++ stringChars k ++ (xs ++ [':'] ++ (ys ++ cs ++ ds)))

end

theorem blanks_nil : Blanks [] := fun _ h => absurd h List.not_mem_nil

theorem blanks_newLine (depth : Nat) : Blanks (newLine depth) := by
  refine List.forall_mem_cons.mpr ⟨by decide, fun c hc => ?_⟩
  rw [List.eq_of_mem_replicate hc]
  decide

theorem blanks_singleton : Blanks [' '] := List.forall_mem_singleton.mpr (by decide)

/-! ## the layouts -/

mutual

theorem written_compactChars : ∀ v : Json, Written v v.compactChars
  | .null => .null
  | .boolean true => .yes
  | .boolean false => .no
  | .number n => .number n
  | .text s => .text s
  | .array [] => .array (.nil blanks_nil)
  | .array (v :: vs) => .array (written_compactItems (v :: vs) true (List.cons_ne_nil v vs))
  | .object [] => .object (.nil blanks_nil)
  | .object (m :: ms) => .object (written_compactMembers (m :: ms) true (List.cons_ne_nil m ms))

theorem written_compactItems : ∀ (vs : List Json) (first : Bool), vs ≠ [] →
    WrittenItems first vs (comma first ++ compactItems vs)
  | [], _, h => absurd rfl h
  | [v], first, _ => by
    have h : WrittenItems first [v] _ := .cons blanks_nil blanks_nil (written_compactChars v)
      (.nil blanks_nil)
    simpa [compactItems] using h
  | v :: w :: vs, first, _ => by
    have h : WrittenItems first (v :: w :: vs) _ := .cons blanks_nil blanks_nil
      (written_compactChars v) (written_compactItems (w :: vs) false (List.cons_ne_nil w vs))
    simpa [compactItems, comma] using h

theorem written_compactMembers : ∀ (ms : List (String × Json)) (first : Bool), ms ≠ [] →
    WrittenMembers first ms (comma first ++ compactMembers ms)
  | [], _, h => absurd rfl h
  | [(k, v)], first, _ => by
    have h : WrittenMembers first [(k, v)] _ := .cons blanks_nil blanks_nil blanks_nil blanks_nil
      (written_compactChars v) (.nil blanks_nil)
    simpa [compactMembers] using h
  | (k, v) :: m :: ms, first, _ => by
    have h : WrittenMembers first ((k, v) :: m :: ms) _ := .cons blanks_nil blanks_nil blanks_nil
      blanks_nil (written_compactChars v)
      (written_compactMembers (m :: ms) false (List.cons_ne_nil m ms))
    simpa [compactMembers, comma] using h

end

mutual

theorem written_prettyChars : ∀ (v : Json) (depth : Nat), Written v (v.prettyChars depth)
  | .null, _ => .null
  | .boolean true, _ => .yes
  | .boolean false, _ => .no
  | .number n, _ => .number n
  | .text s, _ => .text s
  | .array [], _ => .array (.nil blanks_nil)
  | .array (v :: vs), depth => by
    have h := Written.array (written_prettyItems (v :: vs) (depth + 1) true
      (List.cons_ne_nil v vs) (blanks_newLine depth))
    simpa [prettyChars, comma] using h
  | .object [], _ => .object (.nil blanks_nil)
  | .object (m :: ms), depth => by
    have h := Written.object (written_prettyMembers (m :: ms) (depth + 1) true
      (List.cons_ne_nil m ms) (blanks_newLine depth))
    simpa [prettyChars, comma] using h

/-- each element on a line of its own; `ws` stands before the end of the list -/
theorem written_prettyItems : ∀ (vs : List Json) (depth : Nat) (first : Bool), vs ≠ [] →
    ∀ {ws : List Char}, Blanks ws →
      WrittenItems first vs (comma first ++ newLine depth ++ prettyItems depth vs ++ ws)
  | [], _, _, h, _, _ => absurd rfl h
  | [v], depth, first, _, _, hws => by
    have h : WrittenItems first [v] _ := .cons blanks_nil (blanks_newLine depth)
      (written_prettyChars v depth) (.nil hws)
    simpa [prettyItems] using h
  | v :: w :: vs, depth, first, _, _, hws => by
    have h : WrittenItems first (v :: w :: vs) _ := .cons blanks_nil (blanks_newLine depth)
      (written_prettyChars v depth)
      (written_prettyItems (w :: vs) depth false (List.cons_ne_nil w vs) hws)
    simpa [prettyItems, comma] using h

theorem written_prettyMembers : ∀ (ms : List (String × Json)) (depth : Nat) (first : Bool),
    ms ≠ [] → ∀ {ws : List Char}, Blanks ws →
      WrittenMembers first ms (comma first ++ newLine depth ++ prettyMembers depth ms ++ ws)
  | [], _, _, h, _, _ => absurd rfl h
  | [(k, v)], depth, first, _, _, hws => by
    have h : WrittenMembers first [(k, v)] _ := .cons blanks_nil (blanks_newLine depth)
      blanks_nil blanks_singleton (written_prettyChars v depth) (.nil hws)
    simpa [prettyMembers] using h
  | (k, v) :: m :: ms, depth, first, _, _, hws => by
    have h : WrittenMembers first ((k, v) :: m :: ms) _ := .cons blanks_nil (blanks_newLine depth)
      blanks_nil blanks_singleton (written_prettyChars v depth)
      (written_prettyMembers (m :: ms) depth false (List.cons_ne_nil m ms) hws)
    simpa [prettyMembers, comma] using h

end

/-- **Both layouts are texts of the value.** -/
theorem written_compact (v : Json) : Written v v.compact.toList := by
  rw [compact, String.toList_ofList]
  exact written_compactChars v

theorem written_pretty (v : Json) : Written v v.pretty.toList := by
  rw [pretty, String.toList_ofList]
  exact written_prettyChars v 0

end Json
end AnnotationAudit
