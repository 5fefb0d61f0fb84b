import AnnotationAudit.Python.Automaton
import AnnotationAudit.Python.Layout

/-!
# Tokens

Which token a text begins with depends on what the parser can use: in each state only the terminals
on which the state does something are looked for, and only if none of them is there, all are.

* `readToken`     the longest token among given terminals;
* `Token`         a token with its surroundings;
* `Token.read`    the token at a cursor for a state of the automaton.

A word that is spelled like a keyword is one only where the state can use that keyword.
-/

namespace AnnotationAudit
namespace Python

open Text

/-! ## single tokens -/

def isSeparator (c : Char) : Bool :=
  ('\t' ≤ c && c ≤ '\r') || c == ' ' || c == '\uFEFF' || c == '\u2060' || c == '\u200B'

/-- the cursor behind the characters that `p` holds for -/
def skipWhile (p : Char → Bool) (pos : Position) : List Char → Cursor
  | [] => ⟨pos, []⟩
  | c :: cs => if p c then skipWhile p (pos.step c) cs else ⟨pos, c :: cs⟩

/-- the cursor behind the characters `cs` if they stand there -/
def readChars (cs : List Char) (c : Cursor) : Option Cursor :=
  match cs with
  | [] => some c
  | x :: xs =>
    match c.rest with
    | y :: _ => if x == y then readChars xs c.next else none
    | [] => none

/-- the symbols with a fixed spelling that is not a word -/
def punctuation : List (Terminal × List Char) :=
  Terminal.all.filterMap fun t =>
    match t.spelling? with
    | some s => if t.isKeyword then none else some (t, s.toList)
    | none => none

/-- the words with a meaning of their own -/
def keywords : List (List Char × Terminal) :=
  Terminal.all.filterMap fun t =>
    match t.spelling? with
    | some s => if t.isKeyword then some (s.toList, t) else none
    | none => none

def keywordSet : Terminals := Terminals.ofList (keywords.map (·.2))

/-- the symbols whose text varies -/
def patterns : List (Terminal × Pattern) :=
  Terminal.all.filterMap fun t => t.pattern?.map (t, ·)

/-- a token that could be read -/
structure Candidate where
  symbol : Terminal
  stop : Cursor
deriving Inhabited

namespace Candidate

/-- is `b` to be read rather than `a`? An urgent token wins, then a longer one. -/
def better (a b : Candidate) : Bool :=
  if a.symbol.isUrgent != b.symbol.isUrgent then b.symbol.isUrgent
  else a.stop.offset < b.stop.offset

def choose (a : Option Candidate) (b : Candidate) : Option Candidate :=
  match a with
  | none => some b
  | some a => if a.better b then some b else some a

end Candidate

/-- the token at `c` among the `valid` terminals; `fresh` tells whether it follows the token before
it without a blank -/
def candidate? (valid : Terminals) (fresh : Bool) (c : Cursor) : Option Candidate :=
  let valid := if valid &&& keywordSet == 0 then valid else valid ||| Terminals.single .identifier
  let usable (t : Terminal) : Bool := Terminals.has valid t && (fresh || !t.isImmediate)
  let fixed := punctuation.foldl
    (fun best (t, cs) =>
      if usable t then
        match readChars cs c with
        | some stop => Candidate.choose best ⟨t, stop⟩
        | none => best
      else best)
    none
  patterns.foldl
    (fun best (t, p) =>
      if usable t then
        match p.longest c with
        | some stop => Candidate.choose best ⟨t, stop⟩
        | none => best
      else best)
    fixed

/-- the token among the `valid` terminals behind the blanks at `c`, with its beginning; where format
text may stand, only line feeds are skipped -/
def readToken (valid : Terminals) (c : Cursor) : Cursor × Option Candidate :=
  let separator := if Terminals.has valid .formatText then (· == '\n') else isSeparator
  let start := skipWhile separator c.position c.rest
  if start.atEnd then
    (start, if Terminals.has valid .endOfText then some ⟨.endOfText, start⟩ else none)
  else (start, candidate? valid (start.offset == c.offset) start)

/-! ## tokens for the parser -/

/-- a token: the blanks before it run from `before` to `start` -/
structure Token where
  /-- `none` for text that begins no token -/
  symbol : Option Terminal
  before : Cursor
  start : Cursor
  stop : Cursor
  /-- the layout behind a layout symbol -/
  layout : Option Layout := none
  /-- does it differ from the layout before? -/
  layoutChanged : Bool := false
deriving Inhabited

namespace Token

/-- the keyword that a word spells -/
def keyword? (word : List Char) : Option Terminal := keywords.lookup word

/-- a word becomes a keyword where the state can use it -/
def asKeyword (a : Automaton) (state : Nat) (start : Cursor) (t : Terminal) : Terminal :=
  if t == .identifier then
    match keyword? (start.rest.takeWhile isIdentifierPart) with
    | some k => if a.hasActions state k then k else t
    | none => t
  else t

/-- a mark at the very beginning of a text that tells its encoding is skipped -/
def skipMark (c : Cursor) : Cursor :=
  if c.offset == 0 && c.peek == some '\uFEFF' then c.next else c

/-- the layout symbol at `c`, unless it is empty and changes nothing while `stuck` -/
def layoutSymbol (valid : Terminals) (stuck : Bool) (layout : Option Layout) (c : Cursor) :
    Option (Layout.Found × Bool) :=
  match Layout.scan valid (layout.getD .initial) (skipMark c) with
  | none => none
  | some f =>
    let f := { f with layout := f.layout.kept }
    let changed := layout != some f.layout
    if f.stop.offset ≤ c.offset && !changed && stuck then none else some (f, changed)

/-- text that begins no token, from `first` up to the next token -/
def skipJunk (layout : Option Layout) (before first : Cursor) : Nat → Cursor → Token
  | 0, c => { symbol := none, before, start := first, stop := c }
  | fuel + 1, c =>
    let junk : Token := { symbol := none, before, start := first, stop := c }
    match layoutSymbol Automaton.errorTokens true layout c with
    | some _ => junk
    | none =>
      match readToken Automaton.errorTokens c with
      | (_, some _) => junk
      | (start, none) =>
        if start.offset != c.offset then skipJunk layout before first fuel start
        else if c.atEnd then junk
        else skipJunk layout before first fuel c.next

/-- the token at `c` when every terminal is looked for -/
def readAny (a : Automaton) (state : Nat) (layout : Option Layout) (c : Cursor) : Token :=
  match layoutSymbol Automaton.errorTokens true layout c with
  | some (f, changed) =>
    { symbol := some f.symbol, before := c, start := f.start, stop := f.stop,
      layout := some f.layout, layoutChanged := changed }
  | none =>
    match readToken Automaton.errorTokens (skipMark c) with
    | (start, some t) =>
      { symbol := some (asKeyword a state start t.symbol), before := c, start, stop := t.stop }
    | (start, none) => skipJunk layout c start (2 * start.rest.length + 1) start.next

/-- the token at `c` in a state of the automaton; `advanced` tells whether the parser has come
forward since it last met text that did not fit -/
def read (a : Automaton) (state : Nat) (advanced : Bool) (layout : Option Layout) (c : Cursor) :
    Token :=
  if state == Automaton.errorState then readAny a state layout c
  else
    let valid := a.tokens state
    match layoutSymbol valid (!advanced) layout c with
    | some (f, changed) =>
      { symbol := some f.symbol, before := c, start := f.start, stop := f.stop,
        layout := some f.layout, layoutChanged := changed }
    | none =>
      match readToken valid (skipMark c) with
      | (start, some t) =>
        { symbol := some (asKeyword a state start t.symbol), before := c, start, stop := t.stop }
      | (_, none) => readAny a state layout c

end Token

end Python
end AnnotationAudit
