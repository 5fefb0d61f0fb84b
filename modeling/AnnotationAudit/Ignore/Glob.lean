/-!
# Globs

* `GlobToken`   what a part of a glob stands for;
* `Glob.parse`  the tokens of a glob;
* `GlobError`   why a text is no glob.

A star and a question mark do not stand for a slash. Two stars are special only as a whole component
of the path: there they stand for any number of directories. Braces hold branches, which commas
part, and may be nested. A bracket opens a class of characters; where none of the brackets behind it
closes the class, it and all further ones stand for themselves.
-/

namespace AnnotationAudit

/-- a part of a glob -/
inductive GlobToken where
  | literal (c : Char)
  /-- one character, but no slash -/
  | any
  /-- any characters, but no slash -/
  | star
  /-- any directories, or none, at the beginning -/
  | leading
  /-- a slash and anything behind it -/
  | trailing
  /-- a slash, or directories between two of them -/
  | between
  /-- one character in, or not in, some ranges -/
  | oneOf (negated : Bool) (ranges : List (Char × Char))
  /-- one of several branches -/
  | choice (branches : List (List GlobToken))
deriving Repr, Inhabited

/-- why a text is no glob -/
inductive GlobError where
  | invalidRange (low high : Char)
  | unopenedGroup
  | unclosedGroup
  | danglingEscape
deriving DecidableEq, Repr, Inhabited

def GlobError.message : GlobError → String
  | .invalidRange low high =>
    "invalid range; '" ++ String.ofList [low] ++ "' > '" ++ String.ofList [high] ++ "'"
  | .unopenedGroup =>
    "unopened alternate group; missing '\x7b' (maybe escape '\x7d' with '[\x7d]'?)"
  | .unclosedGroup =>
    "unclosed alternate group; missing '\x7d' (maybe escape '\x7b' with '[\x7b]'?)"
  | .danglingEscape => "dangling '\\'"

namespace Glob

/-! ## classes -/

/-- a class under way -/
structure ClassDraft where
  /-- the ranges, last first -/
  ranges : List (Char × Char) := []
  /-- has nothing been read? -/
  first : Bool := true
  /-- is the end of a range to come? -/
  pending : Bool := false

def ClassDraft.add (d : ClassDraft) (c : Char) : Except GlobError ClassDraft :=
  match d.pending, d.ranges with
  | true, (low, _) :: rest =>
    if c < low then .error (.invalidRange low c) else .ok ⟨(low, c) :: rest, false, false⟩
  | _, ranges =>
    if c = '-' ∧ d.first = false then .ok ⟨ranges, false, true⟩
    else .ok ⟨(c, c) :: ranges, false, false⟩

/-- the ranges of a class that is closed; a dash at its end stands for itself -/
def ClassDraft.close (d : ClassDraft) : List (Char × Char) :=
  (if d.pending then ('-', '-') :: d.ranges else d.ranges).reverse

/-- the ranges of a class and the number of characters read for it, if it is closed -/
def readClass (d : ClassDraft) (read : Nat) :
    List Char → Except GlobError (Option (List (Char × Char) × Nat))
  | [] => .ok none
  | c :: cs =>
    if c = ']' ∧ d.first = false then .ok (some (d.close, read + 1))
    else
      match d.add c with
      | .error e => .error e
      | .ok d => readClass d (read + 1) cs

/-! ## tokens -/

/-- a glob under way -/
structure Draft where
  /-- the tokens of the branch, last first -/
  tokens : List GlobToken := []
  /-- the open groups, innermost first: the branches that have been read, and the tokens before the
  group, both last first -/
  groups : List (List (List GlobToken) × List GlobToken) := []
  /-- the character before the next one -/
  previous : Option Char := none
  /-- do brackets stand for themselves? -/
  plainBrackets : Bool := false
deriving Inhabited

namespace Draft

def push (d : Draft) (t : GlobToken) : Draft := { d with tokens := t :: d.tokens }

/-- directories in the place of the slash before two stars -/
def pushDirectories (d : Draft) (atEnd : Bool) : Draft :=
  match d.tokens with
  | .leading :: _ => d
  | .trailing :: _ => d
  | _ :: rest => { d with tokens := (if atEnd then .trailing else .between) :: rest }
  | [] => d

/-- a star, and the number of characters behind it that belong to it -/
def pushStar (d : Draft) (cs : List Char) : Draft × Nat :=
  match cs with
  | '*' :: next =>
    let plain := (d.push .star |>.push .star, 1)
    if d.tokens.isEmpty then
      match next with
      | [] => (d.push .leading, 1)
      | '/' :: _ => (d.push .leading, 2)
      | _ => plain
    else
      let afterSlash := d.previous == some '/'
      let opensBranch :=
        !d.groups.isEmpty && (d.previous == some ',' || d.previous == some '\x7b')
      if !(afterSlash || opensBranch) then plain
      else
        match next with
        | [] => (d.pushDirectories true, 1)
        | '/' :: _ => (d.pushDirectories false, 2)
        | c :: _ =>
          if !d.groups.isEmpty && (c == ',' || c == '\x7d') then (d.pushDirectories true, 1)
          else plain
  | _ => (d.push .star, 0)

/-- a bracket, and the number of characters behind it that belong to its class -/
def pushBracket (d : Draft) (cs : List Char) : Except GlobError (Draft × Nat) :=
  let literal (d : Draft) : Draft × Nat := (d.push (.literal '['), 0)
  if d.plainBrackets then .ok (literal d)
  else
    let (negated, body) := match cs with
      | '!' :: body => (true, body)
      | '^' :: body => (true, body)
      | body => (false, body)
    match readClass {} (if negated then 1 else 0) body with
    | .error e => .error e
    | .ok (some (ranges, n)) => .ok (d.push (.oneOf negated ranges), n)
    | .ok none => .ok (literal { d with plainBrackets := true })

/-- the next character, and the number of characters behind it that belong to it -/
def step (d : Draft) (c : Char) (cs : List Char) : Except GlobError (Draft × Nat) :=
  match c with
  | '?' => .ok (d.push .any, 0)
  | '*' => .ok (d.pushStar cs)
  | '[' => d.pushBracket cs
  | '\x7b' => .ok ({ d with tokens := [], groups := ([], d.tokens) :: d.groups }, 0)
  | '\x7d' =>
    match d.groups with
    | [] => .error .unopenedGroup
    | (branches, before) :: groups =>
      let group : GlobToken := .choice ((d.tokens.reverse :: branches).reverse)
      .ok ({ d with tokens := group :: before, groups }, 0)
  | ',' =>
    match d.groups with
    | [] => .ok (d.push (.literal ','), 0)
    | (branches, before) :: groups =>
      .ok ({ d with tokens := [], groups := (d.tokens.reverse :: branches, before) :: groups }, 0)
  | '\\' =>
    match cs with
    | [] => .error .danglingEscape
    | c :: _ => .ok (d.push (.literal c), 1)
  | c => .ok (d.push (.literal c), 0)

/-- the tokens of a glob; some of the characters have been read with the ones before -/
def run (d : Draft) : Nat → List Char → Except GlobError (List GlobToken)
  | _, [] => if d.groups.isEmpty then .ok d.tokens.reverse else .error .unclosedGroup
  | n + 1, c :: cs => run { d with previous := some c } n cs
  | 0, c :: cs =>
    match d.step c cs with
    | .error e => .error e
    | .ok (d, n) => run { d with previous := some c } n cs

end Draft

def parse (cs : List Char) : Except GlobError (List GlobToken) := Draft.run {} 0 cs

end Glob

end AnnotationAudit
