import AnnotationAudit.Proofs.JsonReading
import AnnotationAudit.Report.Document

/-!
# Outcomes survive their JSON

An outcome is read back from any text of its value, and a report in JSON determines the outcome that
it reports. The strings may hold any characters; the numbers have to be of at most 64 bits.

* `Json.Decode.Fills.optional`  a member that is left out if there is no value for it;
* `Violation.reads`, `FileFailure.reads`, `Outcome.reads`   the decoders of outcomes read what is
                                written;
* `Report.Finding.reads`, `Report.Document.reads`   so do those of reports;
* `Report.Document.ofOutcome_injective`   a report leaves nothing of an outcome out;
* `Outcome.ofJson_toJson`       the round trip.
-/

namespace AnnotationAudit

open Json Json.Decode

/-! ## members -/

namespace Json.Decode

variable {α β δ : Type} {r : Record δ α} {draft draft' draft'' : δ} {d : Decoder β} {v : Json}
  {b : β}

theorem Reads.into (h : Reads d v b) (put : β → δ) :
    Reads (do let b ← d; pure (put b)) v (put b) :=
  h.andThen fun rest => takes_pure (put b) rest

theorem reads_map {bs : List β} {encode : β → Json} (h : ∀ b ∈ bs, Reads d (encode b) b) :
    Reads (list d) (.array (bs.map encode)) bs :=
  reads_list (List.forall₂_map_left_iff.mpr (List.forall₂_same.mpr h))

theorem Fills.append {ms ns : List (String × Json)} (h : Fills r draft ms draft')
    (h' : Fills r draft' ns draft'') : Fills r draft (ms ++ ns) draft'' := by
  induction h with
  | nil => exact h'
  | cons found fresh reads _ ih => exact .cons found fresh reads (ih h')

theorem Fills.one {k : String} {f : Field δ}
    (found : r.fields.find? (fun f => f.name == k) = some f) (fresh : f.isSet draft = false)
    (reads : Reads (f.read draft) v draft') : Fills r draft [(k, v)] draft' :=
  .cons found fresh reads (.nil draft')

/-- a member that is left out if there is no value for it -/
theorem Fills.optional {k : String} {encode : β → Json} (put : Option (Option β) → δ)
    (value : Option β)
    (h : ∀ b, value = some b → Fills r (put none) [(k, encode b)] (put (some (some b)))) :
    Fills r (put none) (Json.member? k encode value) (put (value.map some)) := by
  cases value with
  | none => exact .nil _
  | some b => exact h b rfl

theorem join_map_some (value : Option β) : (value.map some).join = value := by
  cases value <;> rfl

end Json.Decode

/-! ## outcomes -/

theorem ViolationRule.id_injective : Function.Injective ViolationRule.id := by
  rintro (_ | _) (_ | _) h
  all_goals first | rfl | exact absurd h (by decide)

theorem Violation.reads (v : Violation) (fits : v.line ≤ maxWord) :
    Reads Violation.record.decoder v.toJson v := by
  obtain ⟨rule, file, line, function, argument⟩ := v
  have named : Reads (variant (ViolationRule.all.map fun r => (r.id, r))) (.text rule.id) rule :=
    reads_variant (by cases rule <;> rfl)
  refine reads_decoder ⟨some rule, some file, some line, some function, argument.map some⟩
    (.append ?required (.optional (Draft.mk _ _ _ _) argument ?given)) ?_
  case required =>
    exact .cons rfl rfl (named.into _) <| .cons rfl rfl ((reads_string file).into _) <|
      .cons rfl rfl ((reads_natural fits).into _) <| .one rfl rfl ((reads_string function).into _)
  case given => exact fun a _ => .one rfl rfl ((reads_optional (reads_string a) nofun).into _)
  show Except.ok (Violation.mk rule file line function (argument.map some).join) = _
  rw [join_map_some]

theorem FileFailure.reads (f : FileFailure) (fits : ∀ n ∈ f.line, n ≤ maxWord) :
    Reads FileFailure.record.decoder f.toJson f := by
  obtain ⟨kind, file, line, message⟩ := f
  have named : Reads (variant (FailureKind.all.map fun k => (k.id, k))) (.text kind.id) kind :=
    reads_variant (by cases kind <;> rfl)
  refine reads_decoder ⟨some kind, some file, line.map some, some message⟩
    (.append (.append ?required (.optional (fun l => ⟨some kind, some file, l, none⟩) line ?given))
      (.one rfl rfl ((reads_string message).into _))) ?_
  case required =>
    exact .cons rfl rfl (named.into _) <| .one rfl rfl ((reads_string file).into _)
  case given =>
    exact fun n hn => .one rfl rfl ((reads_optional (reads_natural (fits n hn)) nofun).into _)
  show Except.ok (FileFailure.mk kind file (line.map some).join message) = _
  rw [join_map_some]

namespace Outcome

/-- the numbers of the outcome have at most 64 bits -/
structure Fits (o : Outcome) : Prop where
  scanned : o.scanned < Nat.pow 2 64
  violations : ∀ v ∈ o.violations, v.line < Nat.pow 2 64
  failures : ∀ f ∈ o.failures, ∀ n ∈ f.line, n < Nat.pow 2 64

variable {o : Outcome}

theorem Fits.reads_failures (fits : o.Fits) :
    Reads (list FileFailure.record.decoder) (.array (o.failures.map FileFailure.toJson))
      o.failures :=
  reads_map fun f hf => f.reads fun n hn => Nat.le_pred_of_lt (fits.failures f hf n hn)

theorem reads (fits : o.Fits) : Reads Outcome.record.decoder o.toJson o := by
  have violations : Reads (list Violation.record.decoder)
      (.array (o.violations.map Violation.toJson)) o.violations :=
    reads_map fun v hv => v.reads (Nat.le_pred_of_lt (fits.violations v hv))
  refine reads_decoder ⟨some o.violations, some o.failures, some o.scanned⟩ ?_ rfl
  exact .cons rfl rfl (violations.into _) <| .cons rfl rfl (fits.reads_failures.into _) <|
    .one rfl rfl ((reads_natural (Nat.le_pred_of_lt fits.scanned)).into _)

end Outcome

/-! ## reports -/

namespace Report

theorem Finding.reads (f : Finding) (fits : f.line ≤ maxWord) :
    Reads Finding.record.decoder f.toJson f := by
  obtain ⟨rule, file, line, function, argument, message⟩ := f
  refine reads_decoder ⟨some rule, some file, some line, some function, argument.map some,
    some message⟩ (.append (.append ?required (.optional
      (fun a => ⟨some rule, some file, some line, some function, a, none⟩) argument ?given))
      (.one rfl rfl ((reads_string message).into _))) ?_
  case required =>
    exact .cons rfl rfl ((reads_string rule).into _) <|
      .cons rfl rfl ((reads_string file).into _) <|
      .cons rfl rfl ((reads_natural fits).into _) <| .one rfl rfl ((reads_string function).into _)
  case given => exact fun a _ => .one rfl rfl ((reads_optional (reads_string a) nofun).into _)
  show Except.ok (Finding.mk rule file line function (argument.map some).join message) = _
  rw [join_map_some]

theorem Finding.ofViolation_injective : Function.Injective Finding.ofViolation := by
  rintro ⟨rule, file, line, function, argument⟩ ⟨rule', file', line', function', argument'⟩ h
  obtain ⟨named, same⟩ := Finding.mk.inj h
  have rules : rule = rule' := ViolationRule.id_injective named
  simpa only [Violation.mk.injEq] using ⟨rules, same.1, same.2.1, same.2.2.1, same.2.2.2.1⟩

namespace Document

theorem reads {o : Outcome} (fits : o.Fits) :
    Reads Document.record.decoder (ofOutcome o).toJson (ofOutcome o) := by
  have findings : Reads (list Finding.record.decoder)
      (.array ((o.violations.map Finding.ofViolation).map Finding.toJson))
      (o.violations.map Finding.ofViolation) :=
    reads_map (List.forall_mem_map.mpr fun v hv =>
      (Finding.ofViolation v).reads (Nat.le_pred_of_lt (fits.violations v hv)))
  refine reads_decoder ⟨some packageVersion, some o.isClean, some o.scanned,
    some (o.violations.map Finding.ofViolation), some o.failures⟩ ?_ rfl
  exact .cons rfl rfl ((reads_string packageVersion).into _) <|
    .cons rfl rfl ((reads_boolean o.isClean).into _) <|
    .cons rfl rfl ((reads_natural (Nat.le_pred_of_lt fits.scanned)).into _) <|
    .cons rfl rfl (findings.into _) <| .one rfl rfl (fits.reads_failures.into _)

/-- a report leaves nothing of an outcome out -/
theorem ofOutcome_injective : Function.Injective ofOutcome := by
  rintro ⟨violations, failures, scanned⟩ ⟨violations', failures', scanned'⟩ h
  obtain ⟨-, -, counts, findings, same⟩ := Document.mk.inj h
  have listed := List.map_injective_iff.mpr Finding.ofViolation_injective findings
  simpa only [Outcome.mk.injEq] using ⟨listed, same, counts⟩

end Document
end Report

/-! ## round trips -/

namespace Outcome

/-- **Nothing is lost.** An outcome is read back from every text of its value, be it compact or over
several lines; a report is read back too, and two outcomes with the same report are the same. -/
theorem ofJson_toJson (o : Outcome) (fits : o.Fits) :
    (∀ text, o.toJson.IsTextOf text → ofJson text = .ok o) ∧
      ofJson o.toJson.compact = .ok o ∧ ofJson o.toJson.pretty = .ok o ∧
      Report.Document.ofJson (Report.json o) = .ok (.ofOutcome o) ∧
      ∀ o' : Outcome, o'.Fits → Report.json o' = Report.json o →
        o'.violations = o.violations ∧ o'.failures = o.failures ∧ o'.scanned = o.scanned := by
  have back (text : String) (h : o.toJson.IsTextOf text) : ofJson text = .ok o :=
    Json.decode_of_reads (reads fits) h
  have report {o : Outcome} (fits : o.Fits) :
      Report.Document.ofJson (Report.json o) = .ok (.ofOutcome o) :=
    Json.decode_of_reads (Report.Document.reads fits) (Json.isTextOf_prettyLine _)
  refine ⟨back, back _ (Json.isTextOf_compact _), back _ (Json.isTextOf_pretty _), report fits,
    fun o' fits' h => ?_⟩
  have again := report fits'
  rw [h, report fits] at again
  obtain rfl := Report.Document.ofOutcome_injective (Except.ok.inj again)
  exact ⟨rfl, rfl, rfl⟩

/-- violations and failures with and without their optional fields, and strings that need escapes -/
def motley : Outcome where
  violations := [.ofArgument "dir/\\a \"b\".py" 3 "f\u0001" "größe\n", .ofReturn "日本.py" 7 "g"]
  failures := [.ofParse "c.py" (some maxWord) "\ttab", .ofResolution "" "\u007f\u0000"]
  scanned := 2

theorem ofJson_toJson_motley :
    motley.Fits ∧ ofJson motley.toJson.compact = .ok motley ∧
      ofJson motley.toJson.pretty = .ok motley ∧
      Report.Document.ofJson (Report.json motley) = .ok (.ofOutcome motley) := by
  have fits : motley.Fits := ⟨by decide, by decide, by decide⟩
  obtain ⟨-, compact, pretty, report, -⟩ := ofJson_toJson motley fits
  exact ⟨fits, compact, pretty, report⟩

end Outcome
end AnnotationAudit
