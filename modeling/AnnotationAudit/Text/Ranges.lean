/-!
# Tables of code points

`inRanges` looks a number up in a sorted table of ranges, by halving.
-/

namespace AnnotationAudit
namespace Text

/-- does a range between the indices `lo` and `hi` of a sorted table hold `n`? Each round halves the
gap, so as many rounds as the table's length are always enough. -/
def inRangesFrom (table : Array (Nat × Nat)) (n : Nat) : Nat → Nat → Nat → Bool
  | 0, _, _ => false
  | fuel + 1, lo, hi =>
    if lo < hi then
      let mid := (lo + hi) / 2
      match table[mid]? with
      | none => false
      | some r =>
        if n < r.1 then inRangesFrom table n fuel lo mid
        else if r.2 < n then inRangesFrom table n fuel (mid + 1) hi
        else true
    else false

/-- does a range of a sorted table hold `n`? -/
def inRanges (table : Array (Nat × Nat)) (n : Nat) : Bool :=
  inRangesFrom table n table.size 0 table.size

end Text
end AnnotationAudit
