import AnnotationAudit.Outcome.Json

/-!
# Reports for programs

* `Report.Finding`   a violation with its message;
* `Report.Document`  an outcome as a report in JSON, which can be written and read.
-/

namespace AnnotationAudit

def packageVersion : String := "0.1.0"

namespace Report

open Json (Decoder Field Record)

/-- a violation in a report -/
structure Finding where
  rule : String
  file : String
  line : Nat
  function : String
  argument : Option String
  message : String
deriving DecidableEq, Repr, Inhabited

namespace Finding

def ofViolation (v : Violation) : Finding :=
  ⟨v.rule.id, v.file, v.line, v.function, v.argument, v.message⟩

def toJson (f : Finding) : Json :=
  .object ([("rule", .text f.rule), ("file", .text f.file), ("line", .number f.line),
    ("function", .text f.function)] ++ Json.member? "argument" .text f.argument ++
    [("message", .text f.message)])

/-- the values of a finding read so far -/
structure Draft where
  rule : Option String := none
  file : Option String := none
  line : Option Nat := none
  function : Option String := none
  argument : Option (Option String) := none
  message : Option String := none

def record : Record Draft Finding where
  name := "JsonViolation"
  fields := [
    ⟨"rule", false, fun d => d.rule.isSome, fun d => do
      let rule ← Json.Decode.string
      pure { d with rule }⟩,
    ⟨"file", false, fun d => d.file.isSome, fun d => do
      let file ← Json.Decode.string
      pure { d with file }⟩,
    ⟨"line", false, fun d => d.line.isSome, fun d => do
      let line ← Json.Decode.natural
      pure { d with line }⟩,
    ⟨"function", false, fun d => d.function.isSome, fun d => do
      let function ← Json.Decode.string
      pure { d with function }⟩,
    ⟨"argument", true, fun d => d.argument.isSome, fun d => do
      let argument ← Json.Decode.optional Json.Decode.string
      pure { d with argument }⟩,
    ⟨"message", false, fun d => d.message.isSome, fun d => do
      let message ← Json.Decode.string
      pure { d with message }⟩]
  blank := {}
  finish := fun d => do
    let rule ← Record.need "rule" d.rule
    let file ← Record.need "file" d.file
    let line ← Record.need "line" d.line
    let function ← Record.need "function" d.function
    let message ← Record.need "message" d.message
    pure ⟨rule, file, line, function, d.argument.join, message⟩

end Finding

/-- a report -/
structure Document where
  version : String
  passed : Bool
  filesScanned : Nat
  violations : List Finding
  failures : List FileFailure
deriving DecidableEq, Repr, Inhabited

namespace Document

def ofOutcome (o : Outcome) : Document :=
  ⟨packageVersion, o.isClean, o.scanned, o.violations.map Finding.ofViolation, o.failures⟩

def toJson (d : Document) : Json :=
  .object [("version", .text d.version), ("passed", .boolean d.passed),
    ("files_scanned", .number d.filesScanned),
    ("violations", .array (d.violations.map Finding.toJson)),
    ("failures", .array (d.failures.map FileFailure.toJson))]

/-- the values of a report read so far -/
structure Draft where
  version : Option String := none
  passed : Option Bool := none
  filesScanned : Option Nat := none
  violations : Option (List Finding) := none
  failures : Option (List FileFailure) := none

def record : Record Draft Document where
  name := "JsonReport"
  fields := [
    ⟨"version", false, fun d => d.version.isSome, fun d => do
      let version ← Json.Decode.string
      pure { d with version }⟩,
    ⟨"passed", false, fun d => d.passed.isSome, fun d => do
      let passed ← Json.Decode.boolean
      pure { d with passed }⟩,
    ⟨"files_scanned", false, fun d => d.filesScanned.isSome, fun d => do
      let filesScanned ← Json.Decode.natural
      pure { d with filesScanned }⟩,
    ⟨"violations", false, fun d => d.violations.isSome, fun d => do
      let violations ← Json.Decode.list Finding.record.decoder
      pure { d with violations }⟩,
    ⟨"failures", false, fun d => d.failures.isSome, fun d => do
      let failures ← Json.Decode.list FileFailure.record.decoder
      pure { d with failures }⟩]
  blank := {}
  finish := fun d => do
    let version ← Record.need "version" d.version
    let passed ← Record.need "passed" d.passed
    let filesScanned ← Record.need "files_scanned" d.filesScanned
    let violations ← Record.need "violations" d.violations
    let failures ← Record.need "failures" d.failures
    pure ⟨version, passed, filesScanned, violations, failures⟩

def ofJson (text : String) : Except Json.ReadError Document :=
  Json.decode record.decoder text

end Document

/-- an outcome as a report over several lines -/
def json (o : Outcome) : String := (Document.ofOutcome o).toJson.pretty ++ "\n"

end Report
end AnnotationAudit
