import AnnotationAudit.Text.Cursor

/-!
# Regular patterns

* `Pattern`         regular expressions over characters;
* `Pattern.after`   what is left of a pattern once a character has been read;
* `Pattern.Matches` the texts a pattern stands for;
* `Pattern.longest` the cursor behind the longest text at a cursor that a pattern stands for.
-/

namespace AnnotationAudit
namespace Text

/-- a regular expression; single characters are given by a test -/
inductive Pattern where
  | never
  | done
  | one (p : Char → Bool)
  | seq (a b : Pattern)
  | alt (a b : Pattern)
  | many (a : Pattern)
deriving Inhabited

namespace Pattern

def char (c : Char) : Pattern := .one (· == c)

def oneOf (s : String) : Pattern := .one (s.toList.contains ·)

/-- the characters of a text, one after the other -/
def literal (s : String) : Pattern := s.toList.foldr (fun c p => .seq (char c) p) .done

def all (ps : List Pattern) : Pattern := ps.foldr .seq .done

def any (ps : List Pattern) : Pattern := ps.foldr .alt .never

def opt (p : Pattern) : Pattern := .alt p .done

def some (p : Pattern) : Pattern := .seq p (.many p)

def times : Nat → Pattern → Pattern
  | 0, _ => .done
  | n + 1, p => .seq p (times n p)

def nullable : Pattern → Bool
  | .never => false
  | .done => true
  | .one _ => false
  | .seq a b => a.nullable && b.nullable
  | .alt a b => a.nullable || b.nullable
  | .many _ => true

/-- `seq` that keeps an impossible pattern recognisable -/
def join : Pattern → Pattern → Pattern
  | .never, _ => .never
  | .done, b => b
  | _, .never => .never
  | a, b => .seq a b

/-- `alt` that keeps an impossible pattern recognisable -/
def either : Pattern → Pattern → Pattern
  | .never, b => b
  | a, .never => a
  | a, b => .alt a b

/-- what is left of the pattern once `c` has been read -/
def after (c : Char) : Pattern → Pattern
  | .never => .never
  | .done => .never
  | .one p => if p c then .done else .never
  | .seq a b =>
    if a.nullable then either (join (after c a) b) (after c b) else join (after c a) b
  | .alt a b => either (after c a) (after c b)
  | .many a => join (after c a) (.many a)

/-- does the pattern stand for exactly this text? -/
def Matches (p : Pattern) (cs : List Char) : Bool := (cs.foldl (fun q c => after c q) p).nullable

/-- the longest match so far is `best`; `p` is what is left of the pattern at `pos` -/
def longestFrom (best : Option Cursor) (p : Pattern) (pos : Position) : List Char → Option Cursor
  | [] => if p.nullable then .some ⟨pos, []⟩ else best
  | c :: cs =>
    let best := if p.nullable then .some ⟨pos, c :: cs⟩ else best
    match after c p with
    | .never => best
    | q => longestFrom best q (pos.step c) cs

/-- the cursor behind the longest match at a cursor -/
def longest (p : Pattern) (c : Cursor) : Option Cursor := longestFrom none p c.position c.rest

end Pattern

end Text
end AnnotationAudit
