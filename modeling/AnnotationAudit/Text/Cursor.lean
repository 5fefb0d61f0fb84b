/-!
# Places in a text

* `Position`   a place: its byte offset, its row, and its byte column in that row;
* `Cursor`     a place together with the text that follows it;
* `Cursor.run` the cursor behind a given number of characters.

Rows end at a line feed and at nothing else; offsets and columns count UTF-8 bytes.
-/

namespace AnnotationAudit
namespace Text

/-- a place in a text; rows and columns start at zero -/
structure Position where
  offset : Nat
  row : Nat
  column : Nat
deriving DecidableEq, Repr, Inhabited

namespace Position

/-- the place before the first character -/
def origin : Position := ⟨0, 0, 0⟩

/-- the place behind the character `c` that stands at `p` -/
def step (p : Position) (c : Char) : Position :=
  if c = '\n' then ⟨p.offset + 1, p.row + 1, 0⟩
  else ⟨p.offset + c.utf8Size, p.row, p.column + c.utf8Size⟩

/-- the place behind the characters `cs` that stand at `p` -/
def run (p : Position) (cs : List Char) : Position := cs.foldl step p

theorem run_nil (p : Position) : p.run [] = p := rfl

theorem run_cons (p : Position) (c : Char) (cs : List Char) :
    p.run (c :: cs) = (p.step c).run cs := rfl

theorem run_append (p : Position) (cs ds : List Char) :
    p.run (cs ++ ds) = (p.run cs).run ds := List.foldl_append

end Position

/-- a place and the text behind it -/
structure Cursor where
  position : Position
  rest : List Char
deriving Inhabited

namespace Cursor

/-- the cursor before the first character of `cs` -/
def ofList (cs : List Char) : Cursor := ⟨.origin, cs⟩

/-- the next character, if the text has not ended -/
def peek (c : Cursor) : Option Char := c.rest.head?

def atEnd (c : Cursor) : Bool := c.rest.isEmpty

/-- one character further; at the end of the text nothing moves -/
def next (c : Cursor) : Cursor :=
  match c.rest with
  | [] => c
  | x :: xs => ⟨c.position.step x, xs⟩

def offset (c : Cursor) : Nat := c.position.offset

def run : Nat → Cursor → Cursor
  | 0, c => c
  | n + 1, c => run n c.next

def bytesTo (c d : Cursor) : Nat := d.offset - c.offset

def rowsTo (c d : Cursor) : Nat := d.position.row - c.position.row

end Cursor

end Text
end AnnotationAudit
