import AnnotationAudit.Ignore.Glob
import AnnotationAudit.Text.Bytes

/-!
# Matching globs

A glob is matched against the bytes of a path. `GlobToken.rests` gives what can be left of bytes
when a token has taken its share of their beginning; a glob matches if all its tokens together can
leave nothing.

Characters of more than one byte stand for their bytes, one by one, in a class as well.
-/

namespace AnnotationAudit

namespace Glob

open Text (slash)

def charBytes (c : Char) : Bytes := bytesOf (String.ofList [c])

def behindSlashes : Bytes → List Bytes
  | [] => []
  | b :: bs => if b = slash then bs :: behindSlashes bs else behindSlashes bs

/-- all that can be left when bytes are taken from the beginning -/
def tails : Bytes → List Bytes
  | [] => [[]]
  | b :: bs => (b :: bs) :: tails bs

/-- all that can be left when bytes other than slashes are taken from the beginning -/
def tailsInName : Bytes → List Bytes
  | [] => [[]]
  | b :: bs => if b = slash then [b :: bs] else (b :: bs) :: tailsInName bs

def byteRanges (low high : Char) : List (UInt8 × UInt8) :=
  let single (bs : Bytes) := bs.map fun b => (b, b)
  if low = high then single (charBytes low)
  else
    match (charBytes low).getLast?, charBytes high with
    | some b, c :: rest => single (charBytes low).dropLast ++ (b, c) :: single rest
    | _, _ => []

def inClass (negated : Bool) (ranges : List (Char × Char)) (b : UInt8) : Bool :=
  (ranges.any fun r => (byteRanges r.1 r.2).any fun q => q.1 ≤ b && b ≤ q.2) != negated

def behind : Bytes → Bytes → List Bytes
  | [], s => [s]
  | x :: xs, b :: bs => if x = b then behind xs bs else []
  | _ :: _, [] => []

/-- one of each; what is left of the same bytes is known by its length -/
def distinct : List Bytes → List Bytes
  | [] => []
  | s :: rest => s :: (distinct rest).filter fun r => r.length != s.length

mutual

/-- does a token stand for nothing at all? -/
def isVoid : GlobToken → Bool
  | .choice branches => allVoid branches
  | _ => false

def isVoidBranch : List GlobToken → Bool
  | [] => true
  | t :: ts => isVoid t && isVoidBranch ts

def allVoid : List (List GlobToken) → Bool
  | [] => true
  | b :: bs => isVoidBranch b && allVoid bs

end

mutual

/-- what can be left behind the share of a token -/
def rests : GlobToken → Bytes → List Bytes
  | .literal c, s => behind (charBytes c) s
  | .any, b :: bs => if b = slash then [] else [bs]
  | .any, [] => []
  | .star, s => tailsInName s
  | .leading, s => s :: behindSlashes s
  | .trailing, b :: bs => if b = slash then tails bs else []
  | .trailing, [] => []
  | .between, b :: bs => if b = slash then bs :: behindSlashes bs else []
  | .between, [] => []
  | .oneOf negated ranges, b :: bs => if inClass negated ranges b then [bs] else []
  | .oneOf _ _, [] => []
  | .choice branches, s => if allVoid branches then [s] else restsOfAny branches s

/-- what can be left behind the shares of tokens, one behind the other -/
def restsOfAll : List GlobToken → List Bytes → List Bytes
  | [], ss => ss
  | t :: ts, ss => restsOfAll ts (distinct (ss.flatMap fun s => rests t s))

/-- what can be left behind one of several branches; those that stand for nothing do not count -/
def restsOfAny : List (List GlobToken) → Bytes → List Bytes
  | [], _ => []
  | b :: bs, s => (if isVoidBranch b then [] else restsOfAll b [s]) ++ restsOfAny bs s

end

/-- do tokens match bytes as a whole? Directories at the beginning and nothing else match
everything. -/
def accepts (tokens : List GlobToken) (s : Bytes) : Bool :=
  match tokens with
  | [.leading] => true
  | _ => (restsOfAll tokens [s]).any List.isEmpty

end Glob

end AnnotationAudit
