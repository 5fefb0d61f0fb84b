/-!
# White space

`isBlank` is the Unicode property `White_Space`: the characters at which words are split and which
are dropped from a dotted name.
-/

namespace AnnotationAudit
namespace Text

/-- the ranges of the Unicode property `White_Space` -/
def blankRanges : List (Nat × Nat) :=
  [(0x09, 0x0D), (0x20, 0x20), (0x85, 0x85), (0xA0, 0xA0), (0x1680, 0x1680), (0x2000, 0x200A),
   (0x2028, 0x2029), (0x202F, 0x202F), (0x205F, 0x205F), (0x3000, 0x3000)]

/-- does `c` have the Unicode property `White_Space`? -/
def isBlank (c : Char) : Bool := blankRanges.any fun r => r.1 ≤ c.toNat && c.toNat ≤ r.2

/-- the maximal runs of characters that are not blank; `word` is the run under way, reversed -/
def wordsFrom : List Char → List Char → List (List Char)
  | word, [] => if word.isEmpty then [] else [word.reverse]
  | word, c :: cs =>
    if isBlank c then
      if word.isEmpty then wordsFrom [] cs else word.reverse :: wordsFrom [] cs
    else wordsFrom (c :: word) cs

/-- the words of a text: its maximal runs of characters that are not blank, in order -/
def words (s : String) : List String := (wordsFrom [] s.toList).map String.ofList

/-- a text without its blanks at the end -/
def trimEnd (s : String) : String :=
  String.ofList (s.toList.reverse.dropWhile isBlank).reverse

end Text
end AnnotationAudit
