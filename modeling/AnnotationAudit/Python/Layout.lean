import AnnotationAudit.Python.Terminal

/-!
# Layout

Line ends, indentation and strings cannot be told from the characters at hand alone. `Layout` is
what has to be remembered for them, and `Layout.scan` finds the terminal symbols that depend on it.

* `Quotes`        how an open string ends and what is special inside it;
* `Layout`        the open indentations and the open strings;
* `Layout.scan`   the layout symbol at a cursor, if there is one that fits.
-/

namespace AnnotationAudit
namespace Python

open Text

/-- an open string -/
structure Quotes where
  mark : Char
  triple : Bool
  raw : Bool
  format : Bool
  bytes : Bool
deriving DecidableEq, Repr, Inhabited

/-- the open indentations and strings, the innermost first -/
structure Layout where
  indents : List Nat
  strings : List Quotes
  insideFormat : Bool
deriving DecidableEq, Repr, Inhabited

namespace Layout

def initial : Layout := ⟨[0], [], false⟩

/-- a layout as it is kept between tokens: widths count modulo 256, and no more than 255 strings
and 1024 bytes in all are kept, the outermost first -/
def kept (l : Layout) : Layout :=
  let strings := l.strings.drop (l.strings.length - 255)
  let room := 1024 - 2 - strings.length + 1
  { l with
    indents := (l.indents.drop (l.indents.length - room)).map (· % 256)
    strings := strings }

/-- a symbol found by the scanner -/
structure Found where
  symbol : Terminal
  start : Cursor
  stop : Cursor
  layout : Layout
deriving Inhabited

/-! ## inside strings -/

/-- what reading the text of a string comes to -/
inductive Content where
  /-- a symbol was found -/
  | found (symbol : Terminal) (stop : Cursor) (layout : Layout)
  /-- nothing fits here -/
  | nothing
  /-- the text ended, or a zero character came -/
  | ended (at_ : Cursor)

/-- the character under a cursor, where a zero character counts as none -/
def peek? (c : Cursor) : Option Char :=
  match c.peek with
  | some '\x00' => none
  | x => x

/-- the cursor behind `x` if it stands there -/
def skipChar (x : Char) (c : Cursor) : Cursor := if c.peek == some x then c.next else c

/-- behind a backslash of a raw string: an escaped quote or backslash, then a line end -/
def skipRawEscape (mark : Char) (c : Cursor) : Cursor :=
  let c := if c.peek == some mark || c.peek == some '\\' then c.next else c
  if c.peek == some '\r' then skipChar '\n' c.next else skipChar '\n' c

/-- the layout once the innermost string has ended -/
def closeString (l : Layout) : Layout :=
  { l with strings := l.strings.drop 1, insideFormat := false }

/-- a quote at `c` inside the string `q` -/
def quote (l : Layout) (q : Quotes) (any : Bool) (c : Cursor) : Content :=
  if q.triple then
    let c₁ := c.next
    if c₁.peek == some q.mark then
      let c₂ := c₁.next
      if c₂.peek == some q.mark then
        if any then .found .stringContent c l else .found .stringEnd c₂.next l.closeString
      else .found .stringContent c₂ l
    else .found .stringContent c₁ l
  else if any then .found .stringContent c l
  else .found .stringEnd c.next l.closeString

/-- the text of the string `q`, read from `c`; `any` tells whether some of it has been read. There
are no more steps than characters in `left`. -/
def content (l : Layout) (q : Quotes) : (left : List Char) → Bool → Cursor → Content
  | [], _, c => .ended c
  | _ :: left, any, c =>
    match peek? c with
    | none => .ended c
    | some x =>
      if (x == '{' || x == '}') && q.format then
        if any then .found .stringContent c l else .nothing
      else if x == '\\' then
        if q.raw then content l q left any (skipRawEscape q.mark c.next)
        else if q.bytes then
          match c.next.peek with
          | some y =>
            if y == 'N' || y == 'u' || y == 'U' then content l q left true c.next.next.next
            else if any then .found .stringContent c l else .nothing
          | none => if any then .found .stringContent c l else .nothing
        else if any then .found .stringContent c l
        else .nothing
      else if x == q.mark then quote l q any c
      else if x == '\n' && any && !q.triple then .nothing
      else content l q left true c.next

/-! ## between symbols -/

/-- what has been seen while skipping blanks, line ends and whole-line comments -/
structure Margin where
  cursor : Cursor
  /-- has anything been skipped? -/
  moved : Bool
  newline : Bool
  indent : Nat
  /-- the indentation of the first whole-line comment -/
  comment : Option Nat

/-- the cursor behind the rest of a line, its line feed included; there are no more steps than
characters in `left` -/
def skipLine : (left : List Char) → Cursor → Cursor
  | [], c => c
  | _ :: left, c =>
    match peek? c with
    | none => c.next
    | some '\n' => c.next
    | some _ => skipLine left c.next

/-- skip blanks, line ends, continued lines and, if `comments`, whole-line comments; `none` if a
comment or a backslash rules out every layout symbol. There are no more steps than characters in
`left`. -/
def margin (comments : Bool) : (left : List Char) → Margin → Option Margin
  | [], m => some m
  | _ :: left, m =>
    let skip (m : Margin) (c : Cursor) : Margin := { m with cursor := c, moved := true }
    match m.cursor.peek with
    | some '\n' =>
      margin comments left { skip m m.cursor.next with newline := true, indent := 0 }
    | some ' ' => margin comments left { skip m m.cursor.next with indent := m.indent + 1 }
    | some '\r' | some '\x0c' => margin comments left { skip m m.cursor.next with indent := 0 }
    | some '\t' => margin comments left { skip m m.cursor.next with indent := m.indent + 8 }
    | some '#' =>
      if comments then
        if m.newline then
          let c := skipLine (' ' :: m.cursor.rest) m.cursor
          margin comments left
            { skip m c with comment := m.comment.or (some m.indent), indent := 0 }
        else none
      else some m
    | some '\\' =>
      let c := skipChar '\r' m.cursor.next
      if c.atEnd || c.peek == some '\n' then margin comments left (skip m c.next) else none
    | some _ => some m
    | none => some { m with newline := true, indent := 0 }

/-! ## the beginning of a string -/

/-- the letters before an opening quote; there are no more steps than characters in `left` -/
def flags : (left : List Char) → Quotes → Cursor → Quotes × Cursor
  | [], q, c => (q, c)
  | _ :: left, q, c =>
    match c.peek with
    | some 'f' | some 'F' => flags left { q with format := true } c.next
    | some 'r' | some 'R' => flags left { q with raw := true } c.next
    | some 'b' | some 'B' => flags left { q with bytes := true } c.next
    | some 'u' | some 'U' => flags left q c.next
    | _ => (q, c)

def opening (l : Layout) (c : Cursor) : Option Found :=
  let (q, d) := flags c.rest ⟨' ', false, false, false, false⟩ c
  let opened (q : Quotes) (stop : Cursor) : Option Found :=
    some ⟨.stringStart, c, stop, { l with strings := q :: l.strings, insideFormat := q.format }⟩
  match d.peek with
  | some '`' => opened { q with mark := '`' } d.next
  | some x =>
    if x == '\'' || x == '"' then
      let d₁ := d.next
      if d₁.peek == some x && d₁.next.peek == some x then
        opened { q with mark := x, triple := true } d₁.next.next
      else opened { q with mark := x } d₁
    else none
  | none => none

/-! ## the scanner -/

/-- the symbols that depend on the margin: line ends and changes of indentation -/
def lineSymbol (valid : Terminals) (recovering : Bool) (l : Layout) (m : Margin)
    (start stop : Cursor) : Option Found :=
  let has (t : Terminal) : Bool := Terminals.has valid t
  let bracketed := has .braceClose || has .parenClose || has .bracketClose
  let quoted := m.cursor.peek == some '"' || m.cursor.peek == some '\'' ||
    m.cursor.peek == some '`'
  let changed : Option Found :=
    match l.indents with
    | [] => none
    | current :: outer =>
      if has .indent && current < m.indent then
        some ⟨.indent, start, stop, { l with indents := m.indent :: l.indents }⟩
      else if (has .dedent || (!has .newline && !(has .stringStart && quoted) && !bracketed)) &&
          m.indent < current && !l.insideFormat &&
          (match m.comment with
            | none => true
            | some n => n < current) then
        some ⟨.dedent, start, stop, { l with indents := outer }⟩
      else none
  match changed with
  | some f => some f
  | none => if has .newline && !recovering then some ⟨.newline, start, stop, l⟩ else none

/-- everything but the text of strings, read from `c`; `origin` is where the scanner began -/
def scanMargin (valid : Terminals) (recovering : Bool) (l : Layout) (origin c : Cursor) :
    Option Found :=
  let has (t : Terminal) : Bool := Terminals.has valid t
  let comments := has .indent || has .dedent || has .newline || has .kwExcept
  match margin comments (' ' :: c.rest) ⟨c, false, false, 0, none⟩ with
  | none => none
  | some m =>
    let start := if m.moved then c else origin
    let line := if m.newline then lineSymbol valid recovering l m start c else none
    match line with
    | some f => some f
    | none => if m.comment.isNone && has .stringStart then opening l m.cursor else none

/-- the layout symbol at `c` among the `valid` ones -/
def scan (valid : Terminals) (l : Layout) (c : Cursor) : Option Found :=
  let has (t : Terminal) : Bool := Terminals.has valid t
  let recovering := has .stringContent && has .indent
  match l.strings with
  | [] => scanMargin valid recovering l c c
  | q :: _ =>
    if has .escapeInterpolation && (c.peek == some '{' || c.peek == some '}') && !recovering &&
        q.format then
      if c.next.peek == c.peek then some ⟨.escapeInterpolation, c, c.next.next, l⟩ else none
    else if has .stringContent && !recovering then
      match content l q (' ' :: c.rest) false c with
      | .found t stop l => some ⟨t, c, stop, l⟩
      | .nothing => none
      | .ended d => scanMargin valid recovering l c d
    else scanMargin valid recovering l c c

end Layout

end Python
end AnnotationAudit
