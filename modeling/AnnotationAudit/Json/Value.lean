import AnnotationAudit.Text.Decimal
import AnnotationAudit.Text.Quoted

/-!
# JSON values and how they are written

* `Json`          a value; an object is the list of its members in order;
* `Json.compact`  written without blanks;
* `Json.pretty`   written over several lines, two blanks per level.

Only natural numbers occur.
-/

namespace AnnotationAudit

inductive Json where
  | null
  | boolean (b : Bool)
  | number (n : Nat)
  | text (s : String)
  | array (items : List Json)
  | object (members : List (String × Json))
deriving Inhabited

namespace Json

/-! ## strings -/

/-- a character as it stands in a string: quotation marks, backslashes and controls are escaped -/
def escapedChar (c : Char) : List Char :=
  if c == '"' || c == '\\' then ['\\', c]
  else if c == '\n' then ['\\', 'n']
  else if c == '\r' then ['\\', 'r']
  else if c == '\t' then ['\\', 't']
  else if c.toNat == 8 then ['\\', 'b']
  else if c.toNat == 12 then ['\\', 'f']
  else if c.toNat < 0x20 then
    ['\\', 'u', '0', '0', Nat.digitChar (c.toNat / 16), Nat.digitChar (c.toNat % 16)]
  else [c]

def stringChars (s : String) : List Char := '"' :: s.toList.flatMap escapedChar ++ ['"']

/-! ## without blanks -/

mutual

def compactChars : Json → List Char
  | .null => "null".toList
  | .boolean true => "true".toList
  | .boolean false => "false".toList
  | .number n => Text.decimalDigits n
  | .text s => stringChars s
  | .array items => '[' :: compactItems items ++ [']']
  | .object members => '\x7b' :: compactMembers members ++ ['\x7d']

def compactItems : List Json → List Char
  | [] => []
  | [v] => compactChars v
  | v :: vs => compactChars v ++ ',' :: compactItems vs

def compactMembers : List (String × Json) → List Char
  | [] => []
  | [(k, v)] => stringChars k ++ ':' :: compactChars v
  | (k, v) :: ms => stringChars k ++ ':' :: compactChars v ++ ',' :: compactMembers ms

end

def compact (v : Json) : String := String.ofList v.compactChars

/-! ## over several lines -/

/-- the beginning of a line at a given depth -/
def newLine (depth : Nat) : List Char := '\n' :: List.replicate (2 * depth) ' '

mutual

def prettyChars (depth : Nat) : Json → List Char
  | .array [] => ['[', ']']
  | .array (v :: vs) =>
    '[' :: newLine (depth + 1) ++ prettyItems (depth + 1) (v :: vs) ++ newLine depth ++ [']']
  | .object [] => ['\x7b', '\x7d']
  | .object (m :: ms) =>
    '\x7b' :: newLine (depth + 1) ++ prettyMembers (depth + 1) (m :: ms) ++ newLine depth ++
      ['\x7d']
  | .null => "null".toList
  | .boolean true => "true".toList
  | .boolean false => "false".toList
  | .number n => Text.decimalDigits n
  | .text s => stringChars s

def prettyItems (depth : Nat) : List Json → List Char
  | [] => []
  | [v] => prettyChars depth v
  | v :: vs => prettyChars depth v ++ ',' :: newLine depth ++ prettyItems depth vs

def prettyMembers (depth : Nat) : List (String × Json) → List Char
  | [] => []
  | [(k, v)] => stringChars k ++ ':' :: ' ' :: prettyChars depth v
  | (k, v) :: ms =>
    stringChars k ++ ':' :: ' ' :: prettyChars depth v ++ ',' :: newLine depth ++
      prettyMembers depth ms

end

def pretty (v : Json) : String := String.ofList (v.prettyChars 0)

/-- the member of an optional value, left out if there is none -/
def member? (name : String) (f : α → Json) : Option α → List (String × Json)
  | none => []
  | some a => [(name, f a)]

end Json

end AnnotationAudit
