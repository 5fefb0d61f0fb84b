import AnnotationAudit.Text.Decimal

/-!
# Dates and times

`Datetime.check` tells what is wrong with the text of a date, a time, or both. Nothing else is asked
about dates and times, so they are not kept.
-/

namespace AnnotationAudit
namespace Toml
namespace Datetime

/-- what is wrong with the text of a date or time -/
structure Problem where
  /-- the part it is wrong with -/
  part : Option String := none
  expected : Option String := none
deriving DecidableEq, Repr, Inhabited

def Problem.what (p : Problem) : String :=
  match p.part with
  | some part => "invalid " ++ part
  | none => "invalid datetime"

/-! ## tokens -/

inductive Token where
  | digits (ds : List Char)
  | dash
  | colon
  | dot
  /-- the letter between a date and a time -/
  | between
  | blank
  /-- the letter of the zero offset -/
  | zulu
  | plus
  | other
deriving DecidableEq, Repr, Inhabited

def mark (c : Char) : Token :=
  if c = '-' then .dash
  else if c = ':' then .colon
  else if c = '.' then .dot
  else if c = 'T' ∨ c = 't' then .between
  else if c = ' ' then .blank
  else if c = 'Z' ∨ c = 'z' then .zulu
  else if c = '+' then .plus
  else .other

def tokens : List Char → List Token
  | [] => []
  | c :: cs =>
    if c.isDigit then
      match tokens cs with
      | .digits ds :: ts => .digits (c :: ds) :: ts
      | ts => .digits [c] :: ts
    else mark c :: tokens cs

/-! ## reading -/

abbrev Reader (α : Type) := List Token → Except Problem (α × List Token)

/-- digits, which stand for the part that is named -/
def digits (p : Problem) : Reader (List Char)
  | .digits ds :: ts => .ok (ds, ts)
  | _ => .error p

def expect (t : Token) (p : Problem) : List Token → Except Problem (List Token)
  | u :: ts => if u = t then .ok ts else .error p
  | [] => .error p

def demand (ok : Bool) (p : Problem) : Except Problem Unit := if ok then .ok () else .error p

def isLeap (year : Nat) : Bool := year % 4 == 0 && (year % 100 != 0 || year % 400 == 0)

def daysIn (year month : Nat) : Nat :=
  if month = 2 then if isLeap year then 29 else 28
  else if month = 4 ∨ month = 6 ∨ month = 9 ∨ month = 11 then 30
  else 31

/-- the rest of a date behind its year and the first dash -/
def date (year : List Char) (ts : List Token) : Except Problem (List Token) := do
  let problem (s : String) : Problem := ⟨some "date", some s⟩
  let (month, ts) ← digits (problem "month") ts
  let ts ← expect .dash (problem "`-` (MM-DD)") ts
  let (day, ts) ← digits (problem "day") ts
  demand (year.length == 4) (problem "a four-digit year (YYYY)")
  demand (month.length == 2) (problem "a two-digit month (MM)")
  demand (day.length == 2) (problem "a two-digit day (DD)")
  let y := Text.digitsValue 0 year
  let m := Text.digitsValue 0 month
  let d := Text.digitsValue 0 day
  demand (1 ≤ m && m ≤ 12) (problem "month between 01 and 12")
  demand (1 ≤ d && d ≤ daysIn y m)
    (problem ("day between 01 and " ++ Text.decimal (daysIn y m)))
  pure ts

/-- a time; seconds and their fraction may be left out -/
def time (ts : List Token) : Except Problem (List Token) := do
  let problem (s : String) : Problem := ⟨some "time", some s⟩
  let (hour, ts) ← digits (problem "hour") ts
  let ts ← expect .colon (problem "`:` (HH:MM)") ts
  let (minute, ts) ← digits (problem "minute") ts
  let (second, ts) ←
    match ts with
    | .colon :: ts => do
      let (second, ts) ← digits (problem "second") ts
      match ts with
      | .dot :: ts => do
        let (_, ts) ← digits (problem "nanosecond") ts
        pure (some second, ts)
      | ts => pure (some second, ts)
    | ts => pure (none, ts)
  demand (hour.length == 2) (problem "a two-digit hour (HH)")
  demand (minute.length == 2) (problem "a two-digit minute (MM)")
  demand (second.all fun s => s.length == 2) (problem "a two-digit second (SS)")
  demand (Text.digitsValue 0 hour ≤ 23) (problem "hour between 00 and 23")
  demand (Text.digitsValue 0 minute ≤ 59) (problem "minute between 00 and 59")
  demand (second.all fun s => Text.digitsValue 0 s ≤ 60) (problem "second between 00 and 60")
  pure ts

def offset : List Token → Except Problem (List Token)
  | [] => .ok []
  | .zulu :: ts => .ok ts
  | t :: ts => do
    let problem (s : String) : Problem := ⟨some "offset", some s⟩
    demand (t == .plus || t == .dash) (problem "`Z`, +OFFSET, -OFFSET")
    let (hour, ts) ← digits (problem "hour") ts
    let ts ← expect .colon (problem "`:` (HH:MM)") ts
    let (minute, ts) ← digits (problem "minute") ts
    demand (hour.length == 2) (problem "a two-digit hour (HH)")
    demand (minute.length == 2) (problem "a two-digit minute (MM)")
    demand (Text.digitsValue 0 hour ≤ 23) (problem "hours between 00 and 23")
    demand (Text.digitsValue 0 minute ≤ 59) (problem "minutes between 00 and 59")
    pure ts

/-- a date, a time, or a date and a time, which alone may have an offset -/
def read (ts : List Token) : Except Problem (List Token) := do
  let (first, rest) ← digits ⟨none, some "year or hour"⟩ ts
  match rest with
  | .dash :: rest => do
    let rest ← date first rest
    match rest with
    | [] => pure []
    | t :: rest => do
      demand (t == .between || t == .blank) ⟨some "date-time", some "`T` between date and time"⟩
      let rest ← time rest
      offset rest
  | .colon :: _ => time ts
  | _ => .error ⟨none, some "`-` (YYYY-MM) or `:` (HH:MM)"⟩

def check (text : List Char) : Option Problem :=
  match read (tokens text) with
  | .error p => some p
  | .ok [] => none
  | .ok _ => some {}

end Datetime
end Toml
end AnnotationAudit
