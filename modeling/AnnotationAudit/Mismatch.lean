import AnnotationAudit.Text.Decimal
import AnnotationAudit.Text.Quoted

/-!
# Data of the wrong shape

When the text of a document is well formed but a value in it is not what is asked for, the reader
reports a `Mismatch`: what was `Found`, and what was expected.
-/

namespace AnnotationAudit

/-- what stands in a document where something else is expected -/
inductive Found where
  | null
  | boolean (b : Bool)
  | integer (n : Int)
  /-- an integer of more than 64 bits -/
  | wideInteger (n : Int)
  /-- a floating-point number, as it is written -/
  | float (text : String)
  | text (s : String)
  | sequence
  | map
deriving DecidableEq, Repr, Inhabited

def Text.signed (n : Int) : String :=
  if n < 0 then "-" ++ Text.decimal n.natAbs else Text.decimal n.natAbs

def Text.marked (s : String) : String := "`" ++ s ++ "`"

def Found.message : Found → String
  | .null => "null"
  | .boolean b => "boolean " ++ Text.marked (if b then "true" else "false")
  | .integer n => "integer " ++ Text.marked (Text.signed n)
  | .wideInteger n =>
    "integer " ++ Text.marked (Text.signed n) ++
      (if n < (Nat.pow 2 127 : Int) then " as i128" else " as u128")
  | .float t => "floating point " ++ Text.marked t
  | .text s => "string " ++ Text.quoted s
  | .sequence => "sequence"
  | .map => "map"

/-- what is wrong with a value -/
inductive Mismatch where
  | invalidType (found : Found) (expected : String)
  | invalidValue (found : Found) (expected : String)
  /-- a sequence with too few elements -/
  | invalidLength (length : Nat) (expected : String)
  | unknownVariant (name : String) (known : List String)
  | missingField (name : String)
  | duplicateField (name : String)
  /-- a mismatch with a text of its own -/
  | other (message : String)
deriving DecidableEq, Repr, Inhabited

namespace Mismatch

/-- a choice between names -/
def choice : List String → String
  | [] => ""
  | [a] => Text.marked a
  | [a, b] => Text.marked a ++ " or " ++ Text.marked b
  | names => "one of " ++ ", ".intercalate (names.map Text.marked)

def message : Mismatch → String
  | .invalidType found expected => "invalid type: " ++ found.message ++ ", expected " ++ expected
  | .invalidValue found expected => "invalid value: " ++ found.message ++ ", expected " ++ expected
  | .invalidLength length expected =>
    "invalid length " ++ Text.decimal length ++ ", expected " ++ expected
  | .unknownVariant name known =>
    "unknown variant " ++ Text.marked name ++ ", expected " ++ choice known
  | .missingField name => "missing field " ++ Text.marked name
  | .duplicateField name => "duplicate field " ++ Text.marked name
  | .other message => message

end Mismatch

end AnnotationAudit
