import AnnotationAudit.Json.Decode

/-!
# Records in JSON

A record is an object with the record's fields as members, in any order, or a list of their values
in the order of the fields. `Record.decoder` reads it into a draft, field by field:

* a member that is no field is stepped over;
* a field may not come twice;
* a field that is neither optional nor given is missing.
-/

namespace AnnotationAudit
namespace Json

open Decode

/-- a field of a record whose drafts are `δ` -/
structure Field (δ : Type) where
  name : String
  /-- may it be left out? -/
  mayLack : Bool
  /-- has the draft a value for it? -/
  isSet : δ → Bool
  /-- reads its value into the draft -/
  read : δ → Decoder δ

/-- a record `α` whose drafts are `δ` -/
structure Record (δ α : Type) where
  name : String
  fields : List (Field δ)
  /-- the draft without any value -/
  blank : δ
  /-- the record of a draft, or the first field that is missing -/
  finish : δ → Except Mismatch α

namespace Record

variable {δ α : Type}

def need (name : String) : Option β → Except Mismatch β
  | some b => .ok b
  | none => .error (.missingField name)

def finished (r : Record δ α) (draft : δ) : Decoder α :=
  match r.finish draft with
  | .ok a => pure a
  | .error m => mismatch m

/-- the values of the fields from the `i`-th on, as elements of a list -/
def readElements (r : Record δ α) : Nat → List (Field δ) → δ → Decoder δ
  | _, [], draft => pure draft
  | i, f :: fs, draft => do
    if ← hasElement (i == 0) then do
      let draft ← f.read draft
      readElements r (i + 1) fs draft
    else if f.mayLack then readElements r (i + 1) fs draft
    else
      mismatch (.invalidLength i
        ("struct " ++ r.name ++ " with " ++ Text.decimal r.fields.length ++ " elements"))

/-- the members of an object, within `fuel` members -/
def readMembers (r : Record δ α) : Nat → Bool → δ → Decoder δ
  | 0, _, draft => pure draft
  | fuel + 1, first, draft => do
    match ← nextKey first with
    | none => pure draft
    | some key =>
      match r.fields.find? fun f => f.name == key with
      | none => do
        colon
        skipValue
        readMembers r fuel false draft
      | some f =>
        if f.isSet draft then mismatch (.duplicateField f.name)
        else do
          colon
          let draft ← f.read draft
          readMembers r fuel false draft

def decoder (r : Record δ α) : Decoder α := settle do
  match ← token with
  | none => faultNext .eofValue
  | some c =>
    if c == '[' then do
      advance
      enclosed (do r.finished (← r.readElements 0 r.fields r.blank)) closeList
    else if c == '\x7b' then do
      advance
      enclosed (do r.finished (← fun c => r.readMembers (c.rest.length + 1) true r.blank c))
        closeObject
    else wrongType c ("struct " ++ r.name)

end Record

end Json
end AnnotationAudit
