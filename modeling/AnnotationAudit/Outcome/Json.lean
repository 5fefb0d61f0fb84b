import AnnotationAudit.Json.Record
import AnnotationAudit.Json.Value
import AnnotationAudit.Outcome

/-!
# Outcomes in JSON

`Outcome.toJson` writes an outcome and `Outcome.ofJson` reads it; likewise for violations and
failures. The argument of a violation and the line of a failure are left out if there is none, and
read as none if they are left out.
-/

namespace AnnotationAudit

open Json (Decoder Field Record)

/-! ## violations -/

def Violation.toJson (v : Violation) : Json :=
  .object ([("rule", .text v.rule.id), ("file", .text v.file), ("line", .number v.line),
    ("function", .text v.function)] ++ Json.member? "argument" .text v.argument)

/-- the values of a violation read so far -/
structure Violation.Draft where
  rule : Option ViolationRule := none
  file : Option String := none
  line : Option Nat := none
  function : Option String := none
  argument : Option (Option String) := none

def Violation.record : Record Violation.Draft Violation where
  name := "Violation"
  fields := [
    ⟨"rule", false, fun d => d.rule.isSome, fun d => do
      let rule ← Json.Decode.variant (ViolationRule.all.map fun r => (r.id, r))
      pure { d with rule }⟩,
    ⟨"file", false, fun d => d.file.isSome, fun d => do
      let file ← Json.Decode.string
      pure { d with file }⟩,
    ⟨"line", false, fun d => d.line.isSome, fun d => do
      let line ← Json.Decode.natural
      pure { d with line }⟩,
    ⟨"function", false, fun d => d.function.isSome, fun d => do
      let function ← Json.Decode.string
      pure { d with function }⟩,
    ⟨"argument", true, fun d => d.argument.isSome, fun d => do
      let argument ← Json.Decode.optional Json.Decode.string
      pure { d with argument }⟩]
  blank := {}
  finish := fun d => do
    let rule ← Record.need "rule" d.rule
    let file ← Record.need "file" d.file
    let line ← Record.need "line" d.line
    let function ← Record.need "function" d.function
    pure ⟨rule, file, line, function, d.argument.join⟩

def Violation.ofJson (text : String) : Except Json.ReadError Violation :=
  Json.decode Violation.record.decoder text

/-! ## failures -/

def FileFailure.toJson (f : FileFailure) : Json :=
  .object ([("kind", .text f.kind.id), ("file", .text f.file)] ++
    Json.member? "line" .number f.line ++ [("message", .text f.message)])

/-- the values of a failure read so far -/
structure FileFailure.Draft where
  kind : Option FailureKind := none
  file : Option String := none
  line : Option (Option Nat) := none
  message : Option String := none

def FileFailure.record : Record FileFailure.Draft FileFailure where
  name := "FileFailure"
  fields := [
    ⟨"kind", false, fun d => d.kind.isSome, fun d => do
      let kind ← Json.Decode.variant (FailureKind.all.map fun k => (k.id, k))
      pure { d with kind }⟩,
    ⟨"file", false, fun d => d.file.isSome, fun d => do
      let file ← Json.Decode.string
      pure { d with file }⟩,
    ⟨"line", true, fun d => d.line.isSome, fun d => do
      let line ← Json.Decode.optional Json.Decode.natural
      pure { d with line }⟩,
    ⟨"message", false, fun d => d.message.isSome, fun d => do
      let message ← Json.Decode.string
      pure { d with message }⟩]
  blank := {}
  finish := fun d => do
    let kind ← Record.need "kind" d.kind
    let file ← Record.need "file" d.file
    let message ← Record.need "message" d.message
    pure ⟨kind, file, d.line.join, message⟩

/-! ## outcomes -/

def Outcome.toJson (o : Outcome) : Json :=
  .object [("violations", .array (o.violations.map Violation.toJson)),
    ("failures", .array (o.failures.map FileFailure.toJson)), ("scanned", .number o.scanned)]

/-- the values of an outcome read so far -/
structure Outcome.Draft where
  violations : Option (List Violation) := none
  failures : Option (List FileFailure) := none
  scanned : Option Nat := none

def Outcome.record : Record Outcome.Draft Outcome where
  name := "DetectionResult"
  fields := [
    ⟨"violations", false, fun d => d.violations.isSome, fun d => do
      let violations ← Json.Decode.list Violation.record.decoder
      pure { d with violations }⟩,
    ⟨"failures", true, fun d => d.failures.isSome, fun d => do
      let failures ← Json.Decode.list FileFailure.record.decoder
      pure { d with failures }⟩,
    ⟨"scanned", false, fun d => d.scanned.isSome, fun d => do
      let scanned ← Json.Decode.natural
      pure { d with scanned }⟩]
  blank := {}
  finish := fun d => do
    let violations ← Record.need "violations" d.violations
    let scanned ← Record.need "scanned" d.scanned
    pure ⟨violations, d.failures.getD [], scanned⟩

def Outcome.ofJson (text : String) : Except Json.ReadError Outcome :=
  Json.decode Outcome.record.decoder text

end AnnotationAudit
