/-!
# Similarity of words

`similarity` is Jaro's measure: one for equal words and zero for words without a common letter. Two
letters match if they are equal and not further apart than half of the longer word; what counts are
the matches and how many of them stand in another order.

`mostSimilar?` picks the word that is most similar to a misspelt one.
-/

namespace AnnotationAudit
namespace Text

/-- finds the first letter `c` at an index from `lo` up to `hi` that is not taken yet, and takes it;
the word is given with what is taken, and `i` is the index of its first letter -/
def takeMatch (c : Char) (lo hi : Nat) : Nat → List (Char × Bool) → Option (List (Char × Bool))
  | _, [] => none
  | i, (d, taken) :: ds =>
    if hi ≤ i then none
    else if lo ≤ i ∧ c = d ∧ !taken then some ((d, true) :: ds)
    else (takeMatch c lo hi (i + 1) ds).map ((d, taken) :: ·)

/-- the letters of a word that match, and the other word with what is taken -/
def takeMatches (range size : Nat) :
    Nat → List Char → List (Char × Bool) → List Char × List (Char × Bool)
  | _, [], ds => ([], ds)
  | i, c :: cs, ds =>
    match takeMatch c (i - range) (min size (i + range + 1)) 0 ds with
    | some ds =>
      let (found, ds) := takeMatches range size (i + 1) cs ds
      (c :: found, ds)
    | none => takeMatches range size (i + 1) cs ds

/-- Jaro's measure of the similarity of two words -/
def similarity (a b : List Char) : Float :=
  if a.isEmpty && b.isEmpty then 1
  else if a.isEmpty || b.isEmpty then 0
  else
    let range := max a.length b.length / 2 - 1
    let (found, marked) := takeMatches range b.length 0 a (b.map fun d => (d, false))
    let other := (marked.filter Prod.snd).map Prod.fst
    let moved := ((found.zip other).filter fun p => p.1 != p.2).length / 2
    if found.isEmpty then 0
    else
      let m := found.length.toFloat
      (m / a.length.toFloat + m / b.length.toFloat + (found.length - moved).toFloat / m) / 3

/-- the word that is most similar to another, the last one of several, if any is similar enough -/
def mostSimilar? (word : String) (words : List String) : Option String :=
  let pick (best : Option (Float × String)) (w : String) : Option (Float × String) :=
    let s := similarity word.toList w.toList
    if 0.7 < s then
      match best with
      | some (t, _) => if t ≤ s then some (s, w) else best
      | none => some (s, w)
    else best
  (words.foldl pick none).map Prod.snd

end Text
end AnnotationAudit
