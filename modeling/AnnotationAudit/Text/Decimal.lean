/-!
# Decimal numbers

* `decimal`         the decimal digits of a natural number, without leading zeros;
* `Shortest`        the decimal digits of a floating-point number: as few as identify it, and of
                    those the nearest;
* `Shortest.plain`  written without an exponent;
* `Shortest.brief`  written with an exponent where that is shorter to read.
-/

namespace AnnotationAudit
namespace Text

/-! ## natural numbers -/

def digitChar (d : Nat) : Char := Char.ofNat ('0'.toNat + d)

def decimalDigits (n : Nat) : List Char :=
  if n < 10 then [digitChar n] else decimalDigits (n / 10) ++ [digitChar (n % 10)]
termination_by n
decreasing_by omega

def decimal (n : Nat) : String := String.ofList (decimalDigits n)

/-- the value of decimal digits behind those of value `acc` -/
def digitsValue (acc : Nat) : List Char → Nat
  | [] => acc
  | c :: cs => digitsValue (acc * 10 + (c.toNat - '0'.toNat)) cs

/-! ## floating-point numbers -/

/-- a decimal number `digits * 10 ^ exponent` -/
structure Shortest where
  negative : Bool
  digits : Nat
  exponent : Int
deriving DecidableEq, Repr, Inhabited

namespace Shortest

/-- a fraction `num / den` and the ends of the interval of what is rounded to it, over the same
denominator; `closed` tells whether the ends belong to it -/
structure Target where
  low : Nat
  value : Nat
  high : Nat
  den : Nat
  closed : Bool

/-- the target of the number `m * 2 ^ q`; the gap below a power of two is half as wide -/
def target (m : Nat) (q : Int) (narrow : Bool) : Target :=
  let low := if narrow then 4 * m - 1 else 4 * m - 2
  let closed := m % 2 == 0
  if 2 ≤ q then
    let s := Nat.pow 2 (q - 2).toNat
    ⟨low * s, 4 * m * s, (4 * m + 2) * s, 1, closed⟩
  else ⟨low, 4 * m, 4 * m + 2, Nat.pow 2 (2 - q).toNat, closed⟩

/-- the least `j` up to `fuel` with `den ≤ num * 10 ^ j` -/
def leadingZeros (num den : Nat) : Nat → Nat → Nat
  | 0, j => j
  | fuel + 1, j => if den ≤ num * Nat.pow 10 j then j else leadingZeros num den fuel (j + 1)

/-- the power of ten of a number's first digit -/
def magnitude (num den : Nat) : Int :=
  if den ≤ num then ((decimalDigits (num / den)).length : Int) - 1
  else -(leadingZeros num den 400 1 : Int)

/-- the number of `n` digits that is nearest to the target, if one lies in its interval -/
def withDigits (t : Target) (e : Int) (n : Nat) : Option (Nat × Int) :=
  let k := e - (n : Int) + 1
  let up := Nat.pow 10 (-k).toNat
  let unit := t.den * Nat.pow 10 k.toNat
  let inside (d : Nat) : Bool :=
    let x := d * unit
    if t.closed then t.low * up ≤ x && x ≤ t.high * up
    else t.low * up < x && x < t.high * up
  let below := t.value * up / unit
  let above := below + 1
  match inside below, inside above with
  | true, true =>
    let down := t.value * up - below * unit
    let rise := above * unit - t.value * up
    let nearest : Nat := if down < rise || (down == rise && below % 2 == 0) then below else above
    some (nearest, k)
  | true, false => some (below, k)
  | false, true => some (above, k)
  | false, false => none

/-- the first of the digit counts from `n` on that has a number in the interval -/
def search (t : Target) (e : Int) : Nat → Nat → Nat × Int
  | 0, _ => (0, 0)
  | fuel + 1, n =>
    match withDigits t e n with
    | some r => r
    | none => search t e fuel (n + 1)

/-- digits without zeros at their end -/
def strip : Nat → Nat → Int → Nat × Int
  | 0, d, k => (d, k)
  | fuel + 1, d, k => if d % 10 == 0 && d != 0 then strip fuel (d / 10) (k + 1) else (d, k)

/-- the shortest decimal number that identifies a finite floating-point number -/
def ofFloat (x : Float) : Shortest :=
  let bits := x.toBits.toNat
  let negative := bits / Nat.pow 2 63 == 1
  let field : Nat := bits / Nat.pow 2 52 % Nat.pow 2 11
  let fraction := bits % Nat.pow 2 52
  if field == 0 && fraction == 0 then ⟨negative, 0, 0⟩
  else
    let (m, q) : Nat × Int :=
      if field == 0 then (fraction, -1074) else (Nat.pow 2 52 + fraction, (field : Int) - 1075)
    let t := target m q (fraction == 0 && 1 < field)
    let (d, k) := search t (magnitude t.value t.den) 18 1
    let (d, k) := strip 20 d k
    ⟨negative, d, k⟩

/-- digits with a point before the last `n` of them -/
def point (n : Nat) (digits : List Char) : List Char :=
  let digits := List.replicate (n + 1 - digits.length) '0' ++ digits
  digits.take (digits.length - n) ++ ['.'] ++ digits.drop (digits.length - n)

/-- written without an exponent, with at least one digit behind the point -/
def plain (s : Shortest) : String :=
  let digits := decimalDigits s.digits
  let body :=
    if 0 ≤ s.exponent then digits ++ List.replicate s.exponent.toNat '0' ++ ['.', '0']
    else point (-s.exponent).toNat digits
  String.ofList (if s.negative then '-' :: body else body)

/-- written with an exponent unless the first digit stands between the fifth place behind the point
and the sixteenth before it -/
def brief (s : Shortest) : String :=
  let digits := decimalDigits s.digits
  let e := (digits.length : Int) - 1 + s.exponent
  if s.digits == 0 || (-5 ≤ e && e ≤ 15) then s.plain
  else
    let mantissa := match digits with
      | [] => []
      | [d] => [d]
      | d :: ds => d :: '.' :: ds
    let size := decimalDigits e.natAbs
    let power := if size.length < 2 then '0' :: size else size
    let body := mantissa ++ ['e', if e < 0 then '-' else '+'] ++ power
    String.ofList (if s.negative then '-' :: body else body)

end Shortest

/-- a floating-point number without an exponent -/
def plainFloat (x : Float) : String :=
  if x.isNaN then "NaN"
  else if x.isInf then if x < 0 then "-inf" else "inf"
  else (Shortest.ofFloat x).plain

end Text
end AnnotationAudit
