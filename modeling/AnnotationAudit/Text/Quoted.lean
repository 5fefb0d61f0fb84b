import AnnotationAudit.Text.Printable

/-!
# Quoted text

`quoted` writes a text between quotation marks so that every character of it can be seen: quotation
marks, backslashes and the usual controls get a backslash, and what cannot be printed or would join
the character before it is written as its code point.
-/

namespace AnnotationAudit
namespace Text

/-- the digits of a number in base sixteen, in lower case -/
def hexDigits (n : Nat) : List Char :=
  if n < 16 then [Nat.digitChar n] else hexDigits (n / 16) ++ [Nat.digitChar (n % 16)]
termination_by n
decreasing_by omega

def quotedChar (c : Char) : List Char :=
  if c == '"' || c == '\\' then ['\\', c]
  else if c == '\n' then ['\\', 'n']
  else if c == '\r' then ['\\', 'r']
  else if c == '\t' then ['\\', 't']
  else if c.toNat == 0 then ['\\', '0']
  else if isPrintable c && !isGraphemeExtend c then [c]
  else ['\\', 'u', '\x7b'] ++ hexDigits c.toNat ++ ['\x7d']

def quoted (s : String) : String :=
  String.ofList ('"' :: s.toList.flatMap quotedChar ++ ['"'])

end Text
end AnnotationAudit
