import AnnotationAudit.Text.Cursor
import AnnotationAudit.Text.Identifier
import AnnotationAudit.Text.Pattern
import AnnotationAudit.Python.Kind

/-!
# Terminal symbols

* `Terminal`           the terminal symbols of the Python grammar, in their order of preference;
* `Terminal.spelling?` the fixed text of a symbol that has one;
* `Terminal.pattern?`  the pattern of a symbol whose text varies;
* `Terminals`          sets of terminal symbols, as bit masks.

`newline` up to `stringEnd` depend on the layout of the text and are found by
`AnnotationAudit.Python.Layout`.
-/

namespace AnnotationAudit
namespace Python

open Text

/-- a terminal symbol -/
inductive Terminal where
  | endOfText
  | identifier
  | semicolon
  | kwImport
  | dot
  | kwFrom
  | kwFuture
  | parenOpen
  | parenClose
  | comma
  | kwAs
  | star
  | kwPrint
  | shiftRight
  | kwAssert
  | colonEquals
  | kwReturn
  | kwDel
  | kwRaise
  | kwPass
  | kwBreak
  | kwContinue
  | kwIf
  | colon
  | kwElif
  | kwElse
  | kwMatch
  | kwCase
  | kwAsync
  | kwFor
  | kwIn
  | kwWhile
  | kwTry
  | kwExcept
  | kwExceptStar
  | kwFinally
  | kwWith
  | kwDef
  | arrow
  | starStar
  | kwGlobal
  | kwNonlocal
  | kwExec
  | kwType
  | equals
  | kwClass
  | bracketOpen
  | bracketClose
  | at_
  | minus
  | underscore
  | bar
  | braceOpen
  | braceClose
  | plus
  | kwNot
  | kwAnd
  | kwOr
  | slash
  | percent
  | slashSlash
  | ampersand
  | caret
  | shiftLeft
  | tilde
  | kwIs
  | less
  | lessEquals
  | equalsEquals
  | bangEquals
  | greaterEquals
  | greater
  | lessGreater
  | kwLambda
  | plusEquals
  | minusEquals
  | starEquals
  | slashEquals
  | atEquals
  | slashSlashEquals
  | percentEquals
  | starStarEquals
  | shiftRightEquals
  | shiftLeftEquals
  | ampersandEquals
  | caretEquals
  | barEquals
  | kwYield
  | ellipsis
  | escapeSequence
  | loneBackslash
  | formatText
  | typeConversion
  | integer
  | float
  | kwAwait
  | kwTrue
  | kwFalse
  | kwNone
  | comment
  | lineContinuation
  | newline
  | indent
  | dedent
  | stringStart
  | stringContent
  | escapeInterpolation
  | stringEnd
deriving DecidableEq, Repr, Inhabited

namespace Terminal

def all : List Terminal :=
  [.endOfText, .identifier, .semicolon, .kwImport, .dot, .kwFrom, .kwFuture, .parenOpen,
   .parenClose, .comma, .kwAs, .star, .kwPrint, .shiftRight, .kwAssert, .colonEquals, .kwReturn,
   .kwDel, .kwRaise, .kwPass, .kwBreak, .kwContinue, .kwIf, .colon, .kwElif, .kwElse, .kwMatch,
   .kwCase, .kwAsync, .kwFor, .kwIn, .kwWhile, .kwTry, .kwExcept, .kwExceptStar, .kwFinally,
   .kwWith, .kwDef, .arrow, .starStar, .kwGlobal, .kwNonlocal, .kwExec, .kwType, .equals,
   .kwClass, .bracketOpen, .bracketClose, .at_, .minus, .underscore, .bar, .braceOpen,
   .braceClose, .plus, .kwNot, .kwAnd, .kwOr, .slash, .percent, .slashSlash, .ampersand, .caret,
   .shiftLeft, .tilde, .kwIs, .less, .lessEquals, .equalsEquals, .bangEquals, .greaterEquals,
   .greater, .lessGreater, .kwLambda, .plusEquals, .minusEquals, .starEquals, .slashEquals,
   .atEquals, .slashSlashEquals, .percentEquals, .starStarEquals, .shiftRightEquals,
   .shiftLeftEquals, .ampersandEquals, .caretEquals, .barEquals, .kwYield, .ellipsis,
   .escapeSequence, .loneBackslash, .formatText, .typeConversion, .integer, .float, .kwAwait,
   .kwTrue, .kwFalse, .kwNone, .comment, .lineContinuation, .newline, .indent, .dedent,
   .stringStart, .stringContent, .escapeInterpolation, .stringEnd]

def rank (t : Terminal) : Nat := t.ctorIdx

def count : Nat := 108

theorem length_all : all.length = count := rfl

/-- the list holds every symbol at its rank -/
theorem getElem?_all (t : Terminal) : all[t.rank]? = some t := by cases t <;> rfl

/-- the fixed text of a symbol, for the symbols that have one -/
def spelling? : Terminal → Option String
  | .semicolon => ";"
  | .kwImport => "import"
  | .dot => "."
  | .kwFrom => "from"
  | .kwFuture => "__future__"
  | .parenOpen => "("
  | .parenClose => ")"
  | .comma => ","
  | .kwAs => "as"
  | .star => "*"
  | .kwPrint => "print"
  | .shiftRight => ">>"
  | .kwAssert => "assert"
  | .colonEquals => ":="
  | .kwReturn => "return"
  | .kwDel => "del"
  | .kwRaise => "raise"
  | .kwPass => "pass"
  | .kwBreak => "break"
  | .kwContinue => "continue"
  | .kwIf => "if"
  | .colon => ":"
  | .kwElif => "elif"
  | .kwElse => "else"
  | .kwMatch => "match"
  | .kwCase => "case"
  | .kwAsync => "async"
  | .kwFor => "for"
  | .kwIn => "in"
  | .kwWhile => "while"
  | .kwTry => "try"
  | .kwExcept => "except"
  | .kwExceptStar => "except*"
  | .kwFinally => "finally"
  | .kwWith => "with"
  | .kwDef => "def"
  | .arrow => "->"
  | .starStar => "**"
  | .kwGlobal => "global"
  | .kwNonlocal => "nonlocal"
  | .kwExec => "exec"
  | .kwType => "type"
  | .equals => "="
  | .kwClass => "class"
  | .bracketOpen => "["
  | .bracketClose => "]"
  | .at_ => "@"
  | .minus => "-"
  | .underscore => "_"
  | .bar => "|"
  | .braceOpen => "\x7b"
  | .braceClose => "\x7d"
  | .plus => "+"
  | .kwNot => "not"
  | .kwAnd => "and"
  | .kwOr => "or"
  | .slash => "/"
  | .percent => "%"
  | .slashSlash => "//"
  | .ampersand => "&"
  | .caret => "^"
  | .shiftLeft => "<<"
  | .tilde => "~"
  | .kwIs => "is"
  | .less => "<"
  | .lessEquals => "<="
  | .equalsEquals => "=="
  | .bangEquals => "!="
  | .greaterEquals => ">="
  | .greater => ">"
  | .lessGreater => "<>"
  | .kwLambda => "lambda"
  | .plusEquals => "+="
  | .minusEquals => "-="
  | .starEquals => "*="
  | .slashEquals => "/="
  | .atEquals => "@="
  | .slashSlashEquals => "//="
  | .percentEquals => "%="
  | .starStarEquals => "**="
  | .shiftRightEquals => ">>="
  | .shiftLeftEquals => "<<="
  | .ampersandEquals => "&="
  | .caretEquals => "^="
  | .barEquals => "|="
  | .kwYield => "yield"
  | .ellipsis => "..."
  | .loneBackslash => "\\"
  | .kwAwait => "await"
  | .kwTrue => "True"
  | .kwFalse => "False"
  | .kwNone => "None"
  | _ => none

/-- is the symbol a word, told from an identifier only where the grammar can use it? -/
def isKeyword (t : Terminal) : Bool :=
  match t.spelling? with
  | none => false
  | some s =>
    match s.toList with
    | [] => false
    | c :: cs => isIdentifierStart c && cs.all isIdentifierPart

/-! ## patterns -/

/-- digits, each with at most one underscore behind it -/
def digits : Pattern :=
  .all [.one Char.isDigit, .many (.seq (.opt (.char '_')) (.one Char.isDigit)), .opt (.char '_')]

/-- digits of a base, each with at most one underscore before it -/
def based (marks : String) (digit : Char → Bool) : Pattern :=
  .all [.char '0', .oneOf marks, .some (.seq (.opt (.char '_')) (.one digit)),
    .opt (.oneOf "Ll")]

def isHexDigit (c : Char) : Bool :=
  c.isDigit || ('a' ≤ c && c ≤ 'f') || ('A' ≤ c && c ≤ 'F')

def integerPattern : Pattern :=
  .any [based "xX" isHexDigit, based "oO" (fun c => '0' ≤ c && c ≤ '7'),
    based "bB" (fun c => c == '0' || c == '1'),
    .seq digits (.any [.opt (.oneOf "Ll"), .opt (.oneOf "jJ")])]

def exponent : Pattern := .all [.oneOf "eE", .opt (.oneOf "+-"), digits]

def floatPattern : Pattern :=
  .seq
    (.any [.all [digits, .char '.', .opt digits, .opt exponent],
      .all [.opt digits, .char '.', digits, .opt exponent],
      .seq digits exponent])
    (.opt (.oneOf "jJ"))

def escapePattern : Pattern :=
  .seq (.char '\\')
    (.any [.seq (.char 'u') (.times 4 (.one isHexDigit)),
      .seq (.char 'U') (.times 8 (.one isHexDigit)),
      .seq (.char 'x') (.times 2 (.one isHexDigit)),
      .all [.one Char.isDigit, .opt (.one Char.isDigit), .opt (.one Char.isDigit)],
      .seq (.opt (.char '\r')) (.char '\n'),
      .oneOf "'\"abfrntv\\",
      .all [.literal "N\x7b", .some (.one (· != '}')), .char '}']])

/-- the pattern of a symbol whose text varies -/
def pattern? : Terminal → Option Pattern
  | .identifier => some (.seq (.one isIdentifierStart) (.many (.one isIdentifierPart)))
  | .escapeSequence => some escapePattern
  | .formatText => some (.some (.one fun c => c != '{' && c != '}' && c != '\n'))
  | .typeConversion => some (.seq (.char '!') (.one fun c => 'a' ≤ c && c ≤ 'z'))
  | .integer => some integerPattern
  | .float => some floatPattern
  | .comment => some (.seq (.char '#') (.many (.one (· != '\n'))))
  | .lineContinuation =>
    some (.seq (.char '\\') (.alt (.seq (.opt (.char '\r')) (.char '\n')) (.char '\x00')))
  | _ => none

/-- must the symbol follow the one before it without a blank? -/
def isImmediate : Terminal → Bool
  | .escapeSequence | .loneBackslash => true
  | _ => false

/-- does the symbol win over longer ones? -/
def isUrgent : Terminal → Bool
  | .escapeSequence | .formatText => true
  | _ => false

/-- may the symbol stand between any two others? -/
def isExtra : Terminal → Bool
  | .comment | .lineContinuation => true
  | _ => false

def isLayout : Terminal → Bool
  | .newline | .indent | .dedent | .stringStart | .stringContent | .escapeInterpolation
  | .stringEnd => true
  | _ => false

def isNamed : Terminal → Bool
  | .identifier | .ellipsis | .escapeSequence | .typeConversion | .integer | .float | .kwTrue
  | .kwFalse | .kwNone | .comment | .lineContinuation | .stringStart | .escapeInterpolation
  | .stringEnd => true
  | _ => false

def isVisible : Terminal → Bool
  | .endOfText | .loneBackslash | .formatText | .newline | .indent | .dedent
  | .stringContent => false
  | _ => true

def kind : Terminal → Kind
  | .identifier => .identifier
  | .comment => .comment
  | .lineContinuation => .lineContinuation
  | _ => .other

end Terminal

/-! ## sets of terminal symbols -/

/-- a set of terminal symbols: bit `t.rank` tells whether `t` is in it -/
abbrev Terminals := Nat

namespace Terminals

def single (t : Terminal) : Terminals := 1 <<< t.rank

def ofList (ts : List Terminal) : Terminals := ts.foldl (fun s t => s ||| single t) 0

def has (s : Terminals) (t : Terminal) : Bool := Nat.testBit s t.rank

end Terminals

end Python
end AnnotationAudit
