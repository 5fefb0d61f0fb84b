import AnnotationAudit.Json.Record
import AnnotationAudit.Proofs.JsonTokens
import Mathlib.Data.List.Forall2

/-!
# Reading JSON values

A decoder reads a value if it gives the same result for every text of that value, whatever stands
before and behind it. The decoders of lists and records read a value when those of their parts do.

* `Json.Written.begins`        a text of a value is told from the end of a list by its first
                               character;
* `Json.Decode.Reads`          a decoder reads a value;
* `Json.Decode.reads_list`     a list is read element by element;
* `Json.Decode.Fills`          the members of an object fill a draft, one after the other;
* `Json.Decode.reads_decoder`  a record is read from an object whose members fill its draft;
* `Json.decode_of_reads`       what a decoder that reads a value makes of a whole text.
-/

namespace AnnotationAudit
namespace Json

open Decode

/-! ## the ends of texts -/

/-- the first character of a text of a value: no blank, not the end of a list, and that of `null`
for `null` alone -/
theorem Written.begins {v : Json} {cs : List Char} (h : Written v cs) :
    ∃ c ds, cs = c :: ds ∧ isSpace c = false ∧ c ≠ ']' ∧ (c = 'n' → v = .null) := by
  have other {c : Char} (h : c ≠ 'n') (hc : c = 'n') : v = .null := absurd hc h
  cases h with
  | null => exact ⟨'n', _, rfl, by decide, by decide, fun _ => rfl⟩
  | yes => exact ⟨'t', _, rfl, by decide, by decide, other (by decide)⟩
  | no => exact ⟨'f', _, rfl, by decide, by decide, other (by decide)⟩
  | text s => exact ⟨'"', _, rfl, by decide, by decide, other (by decide)⟩
  | array _ => exact ⟨'[', _, rfl, by decide, by decide, other (by decide)⟩
  | object _ => exact ⟨'\x7b', _, rfl, by decide, by decide, other (by decide)⟩
  | number n =>
    obtain ⟨d, ds, hd⟩ : ∃ d ds, Text.decimalDigits n = d :: ds := by
      rcases Text.decimalDigits_cases n with zero | ⟨d, ds, hd, -⟩
      · exact ⟨'0', [], zero⟩
      · exact ⟨d, ds, hd⟩
    have digit : d.isDigit = true := Text.isDigit_of_mem_decimalDigits (hd ▸ List.mem_cons_self)
    refine ⟨d, ds, hd, ?_, ?_, ?_⟩
    · rw [isSpace, ← Bool.not_eq_true]
      simp only [Bool.or_eq_true, beq_iff_eq]
      rintro (((rfl | rfl) | rfl) | rfl) <;> exact absurd digit (by decide)
    all_goals
      rintro rfl
      exact absurd digit (by decide)

theorem stops_of_blanks {ws rest : List Char} (hws : Blanks ws) (h : Stops rest) :
    Stops (ws ++ rest) := by
  cases ws with
  | nil => exact h
  | cons w ws => exact fun c hc => .inl (Option.some.inj hc ▸ hws w List.mem_cons_self)

theorem stops_cons {c : Char} (h : c = ',' ∨ c = ']' ∨ c = '\x7d') (rest : List Char) :
    Stops (c :: rest) := fun _ hd => .inr (Option.some.inj hd ▸ h)

/-- an element ends where the next begins, or the list ends -/
theorem WrittenItems.stops {vs : List Json} {cs : List Char} (h : WrittenItems false vs cs)
    (rest : List Char) : Stops (cs ++ ']' :: rest) := by
  cases h with
  | nil hws => exact stops_of_blanks hws (stops_cons (by decide) rest)
  | cons hws _ _ _ =>
    simp only [comma, List.append_assoc]
    exact stops_of_blanks hws (stops_cons (by decide) _)

theorem WrittenMembers.stops {ms : List (String × Json)} {cs : List Char}
    (h : WrittenMembers false ms cs) (rest : List Char) : Stops (cs ++ '\x7d' :: rest) := by
  cases h with
  | nil hws => exact stops_of_blanks hws (stops_cons (by decide) rest)
  | cons hws _ _ _ _ _ =>
    simp only [comma, List.append_assoc]
    exact stops_of_blanks hws (stops_cons (by decide) _)

/-- an element has a character at least, so the text of a list bounds their number -/
theorem WrittenItems.length_le {first : Bool} {vs : List Json} {cs : List Char}
    (h : WrittenItems first vs cs) : vs.length ≤ cs.length := by
  induction vs generalizing first cs with
  | nil => exact Nat.zero_le _
  | cons v vs ih =>
    cases h with
    | cons _ _ written further =>
      obtain ⟨c, ds, rfl, -⟩ := written.begins
      have := ih further
      simp only [List.length_append, List.length_cons]
      omega

theorem WrittenMembers.length_le {first : Bool} {ms : List (String × Json)} {cs : List Char}
    (h : WrittenMembers first ms cs) : ms.length ≤ cs.length := by
  induction ms generalizing first cs with
  | nil => exact Nat.zero_le _
  | cons m ms ih =>
    cases h with
    | cons _ _ _ _ _ further =>
      have := ih further
      simp only [List.length_append, List.length_cons]
      omega

namespace Decode

variable {α β δ : Type} {a : α} {v : Json} {d : Decoder α}

/-- the decoder reads the value `v` as `a`, from any of its texts -/
def Reads (d : Decoder α) (v : Json) (a : α) : Prop :=
  ∀ ⦃ws cs rest : List Char⦄, Blanks ws → Written v cs → Stops rest → Takes d (ws ++ cs) a rest

theorem Reads.map (h : Reads d v a) (f : α → β) : Reads (f <$> d) v (f a) :=
  fun _ _ _ hws written stops => (h hws written stops).map f

theorem Reads.settle (h : Reads d v a) : Reads (settle d) v a :=
  fun _ _ _ hws written stops => (h hws written stops).settle

/-- a decoder that only gives another value for what it reads -/
theorem Reads.andThen {f : α → Decoder β} {b : β} (h : Reads d v a)
    (h' : ∀ rest, Takes (f a) [] b rest) : Reads (d >>= f) v b :=
  fun _ _ rest hws written stops => (h hws written stops).andThen (h' rest)

/-! ## scalars -/

theorem reads_natural {n : Nat} (fits : n ≤ maxWord) : Reads natural (.number n) n := by
  refine Reads.settle fun ws cs rest hws written stops => ?_
  obtain ⟨c, ds, hc, blank, -, notNull⟩ := written.begins
  cases written with
  | number =>
    have digit : c.isDigit = true := Text.isDigit_of_mem_decimalDigits (hc ▸ List.mem_cons_self)
    have unsigned : ¬ (c == '-') = true := fun h => by
      rw [eq_of_beq h] at digit
      exact absurd digit (by decide)
    have number := takes_number fits stops
    rw [hc] at number ⊢
    refine .behind hws blank ?_
    show Takes (if c == '-' then _ else if c.isDigit then _ else _) _ _ _
    rw [if_neg unsigned, if_pos digit]
    exact number.andThen (takes_pure n rest)

theorem reads_boolean (b : Bool) : Reads boolean (.boolean b) b := by
  refine Reads.settle fun ws cs rest hws written stops => ?_
  cases written with
  | yes =>
    refine .behind (c := 't') hws (by decide) (.over 't' ?_)
    exact (takes_word _ rest).andThen (takes_pure true rest)
  | no =>
    refine .behind (c := 'f') hws (by decide) (.over 'f' ?_)
    exact (takes_word _ rest).andThen (takes_pure false rest)

theorem reads_stringAs (expected s : String) : Reads (stringAs expected) (.text s) s := by
  intro ws cs rest hws written stops
  cases written with
  | text => exact .behind (c := '"') hws (by decide) (.over '"' (takes_stringRest s rest))

theorem reads_string (s : String) : Reads string (.text s) s := (reads_stringAs _ s).settle

/-- a value that is there -/
theorem reads_optional (h : Reads d v a) (some_value : v ≠ .null) :
    Reads (optional d) v (some a) := by
  intro ws cs rest hws written stops
  obtain ⟨c, ds, rfl, blank, -, notNull⟩ := written.begins
  have value : Takes (some <$> d) (c :: ds) (some a) rest :=
    (h blanks_nil written stops).map some
  refine .behind hws blank ?_
  split
  · next null => exact absurd (notNull (Option.some.inj null)) some_value
  · exact value

theorem reads_variant {choices : List (String × α)} {s : String}
    (h : choices.find? (fun p => p.1 == s) = some (s, a)) :
    Reads (variant choices) (.text s) a := by
  have named : Reads (name choices) (.text s) a := by
    refine Reads.settle ((reads_stringAs _ s).andThen fun rest => ?_)
    rw [h]
    exact takes_pure a rest
  intro ws cs rest hws written stops
  cases written with
  | text => exact .behind (c := '"') hws (by decide) (named blanks_nil (.text s) stops)

/-! ## lists -/

/-- before an element, up to its first character -/
theorem takes_hasElement {ws us rest : List Char} {c : Char} (first : Bool) (hws : Blanks ws)
    (hus : Blanks us) (blank : isSpace c = false) (notEnd : c ≠ ']') :
    Takes (hasElement first) (ws ++ comma first ++ us) true (c :: rest) := by
  cases first with
  | true =>
    have between : Blanks (ws ++ us) := List.forall_mem_append.mpr ⟨hws, hus⟩
    rw [comma, if_pos rfl, List.append_nil]
    refine (takes_tokenOf between blank rest).andThen ?_
    show Takes (if c == ']' then _ else if true then pure true else _) _ _ _
    rw [if_neg (mt eq_of_beq notEnd), if_pos rfl]
    exact takes_pure true _
  | false =>
    rw [comma, if_neg Bool.false_ne_true, List.append_assoc]
    refine .behind (c := ',') hws (by decide) (.over ',' ?_)
    refine (takes_tokenOf hus blank rest).andThen ?_
    show Takes (if c == ']' then _ else pure true) _ _ _
    rw [if_neg (mt eq_of_beq notEnd)]
    exact takes_pure true _

theorem takes_noElement {ws : List Char} (first : Bool) (hws : Blanks ws) (rest : List Char) :
    Takes (hasElement first) ws false (']' :: rest) :=
  (takes_tokenOf hws (c := ']') (by decide) rest).andThen (takes_pure false _)

theorem takes_elements {vs : List Json} {as : List α} (h : List.Forall₂ (Reads d) vs as)
    {first : Bool} {cs : List Char} (written : WrittenItems first vs cs) {fuel : Nat}
    (enough : vs.length < fuel) (rest : List Char) :
    Takes (elements d fuel first) cs as (']' :: rest) := by
  induction h generalizing first cs fuel with
  | nil =>
    obtain ⟨fuel, rfl⟩ := Nat.exists_eq_add_one_of_ne_zero (Nat.ne_zero_of_lt enough)
    cases written with
    | nil hws => exact (takes_noElement first hws rest).andThen (takes_pure [] _)
  | @cons v a vs as reads _ ih =>
    obtain ⟨fuel, rfl⟩ := Nat.exists_eq_add_one_of_ne_zero (Nat.ne_zero_of_lt enough)
    cases written with
    | @cons _ _ _ ws us cs ds hws hus written further =>
      obtain ⟨c, cs', rfl, blank, notEnd, -⟩ := written.begins
      rw [List.append_assoc]
      refine (takes_hasElement first hws hus blank notEnd).bind ?_
      have element : Takes d (c :: cs') a (ds ++ ']' :: rest) :=
        reads blanks_nil written (further.stops rest)
      have others := ih further (Nat.lt_of_succ_lt_succ enough)
      exact element.bind (others.andThen (takes_pure (a :: as) _))

/-- a list is read element by element -/
theorem reads_list {vs : List Json} {as : List α} (h : List.Forall₂ (Reads d) vs as) :
    Reads (list d) (.array vs) as := by
  refine Reads.settle fun ws cs rest hws written stops => ?_
  cases written with
  | @array _ cs items =>
    have contents : Takes (fun c => elements d (c.rest.length + 1) true c) cs as (']' :: rest) := by
      refine takes_of_length (d := fun fuel => elements d fuel true) fun fuel enough => ?_
      have := items.length_le
      exact takes_elements h items (by simp only [List.length_append] at enough; omega) rest
    have close : Takes closeList [']'] () rest :=
      .behind (c := ']') blanks_nil (by decide) (takes_advance ']' rest)
    exact .behind (c := '[') hws (by decide) (.over '[' (contents.enclosed close))

/-! ## objects -/

/-- the name of a member, and the colon behind it -/
theorem takes_nextKey {ws us rest : List Char} (first : Bool) (k : String) (hws : Blanks ws)
    (hus : Blanks us) :
    Takes (nextKey first) (ws ++ comma first ++ us ++ stringChars k) (some k) rest := by
  have key : Takes (do advance; some <$> stringRest) (stringChars k) (some k) rest :=
    .over '"' ((takes_stringRest k rest).map some)
  cases first with
  | true =>
    have between : Blanks (ws ++ us) := List.forall_mem_append.mpr ⟨hws, hus⟩
    rw [comma, if_pos rfl, List.append_nil]
    exact .behind (c := '"') between (by decide) key
  | false =>
    rw [comma, if_neg Bool.false_ne_true, List.append_assoc, List.append_assoc]
    exact .behind (c := ',') hws (by decide) (.over ',' (.behind (c := '"') hus (by decide) key))

theorem takes_noKey {ws : List Char} (first : Bool) (hws : Blanks ws) (rest : List Char) :
    Takes (nextKey first) ws none ('\x7d' :: rest) :=
  (takes_tokenOf hws (c := '\x7d') (by decide) rest).andThen (takes_pure none _)

/-- the colon behind a name, the value, and what follows it -/
theorem takes_colon {xs ys cs ds rest : List Char} {g : α → Decoder β} {b : β} (hxs : Blanks xs)
    (hys : Blanks ys) (reads : Reads d v a) (written : Written v cs) (stops : Stops (ds ++ rest))
    (h : Takes (g a) ds b rest) :
    Takes (do colon; let a ← d; g a) (xs ++ [':'] ++ (ys ++ cs ++ ds)) b rest := by
  have name : Takes colon (xs ++ [':']) () (ys ++ cs ++ ds ++ rest) :=
    .behind (c := ':') hxs (by decide) (takes_advance ':' _)
  exact name.bind ((reads hys written stops).bind h)

/-- the members fill the draft: each is read by the field of its name, which has no value yet -/
inductive Fills (r : Record δ α) : δ → List (String × Json) → δ → Prop
  | nil (draft : δ) : Fills r draft [] draft
  | cons {draft draft' draft'' : δ} {k : String} {v : Json} {ms : List (String × Json)}
      {f : Field δ} :
    r.fields.find? (fun f => f.name == k) = some f → f.isSet draft = false →
      Reads (f.read draft) v draft' → Fills r draft' ms draft'' →
        Fills r draft ((k, v) :: ms) draft''

theorem takes_readMembers {r : Record δ α} {draft draft' : δ} {ms : List (String × Json)}
    (h : Fills r draft ms draft') {first : Bool} {cs : List Char}
    (written : WrittenMembers first ms cs) {fuel : Nat} (enough : ms.length < fuel)
    (rest : List Char) : Takes (r.readMembers fuel first draft) cs draft' ('\x7d' :: rest) := by
  induction h generalizing first cs fuel with
  | nil draft =>
    obtain ⟨fuel, rfl⟩ := Nat.exists_eq_add_one_of_ne_zero (Nat.ne_zero_of_lt enough)
    cases written with
    | nil hws => exact (takes_noKey first hws rest).andThen (takes_pure draft _)
  | @cons draft draft' draft'' k v ms f found fresh reads _ ih =>
    obtain ⟨fuel, rfl⟩ := Nat.exists_eq_add_one_of_ne_zero (Nat.ne_zero_of_lt enough)
    cases written with
    | @cons _ _ _ _ ws us xs ys cs ds hws hus hxs hys written further =>
      refine (takes_nextKey first k hws hus).bind ?_
      dsimp only
      rw [found]
      dsimp only
      rw [fresh, if_neg Bool.false_ne_true]
      exact takes_colon hxs hys reads written (further.stops rest)
        (ih further (Nat.lt_of_succ_lt_succ enough))

/-- **Records.** A record is read from an object whose members fill its draft. -/
theorem reads_decoder {r : Record δ α} (draft : δ) {ms : List (String × Json)}
    (h : Fills r r.blank ms draft) (finish : r.finish draft = .ok a) :
    Reads r.decoder (.object ms) a := by
  refine Reads.settle fun ws cs rest hws written stops => ?_
  cases written with
  | @object _ cs members =>
    have filled : Takes (fun c => r.readMembers (c.rest.length + 1) true r.blank c) cs draft
        ('\x7d' :: rest) := by
      refine takes_of_length (d := fun fuel => r.readMembers fuel true r.blank)
        fun fuel enough => ?_
      have := members.length_le
      exact takes_readMembers h members (by simp only [List.length_append] at enough; omega) rest
    have finished : Takes (r.finished draft) [] a ('\x7d' :: rest) := by
      unfold Record.finished
      rw [finish]
      exact takes_pure a _
    have close : Takes closeObject ['\x7d'] () rest :=
      .behind (c := '\x7d') blanks_nil (by decide) (takes_advance '\x7d' rest)
    exact .behind (c := '\x7b') hws (by decide)
      (.over '\x7b' ((filled.andThen finished).enclosed close))

end Decode

/-! ## whole texts -/

/-- the text holds the value and nothing else, perhaps between blanks -/
def IsTextOf (v : Json) (text : String) : Prop :=
  ∃ ws cs us, text.toList = ws ++ cs ++ us ∧ Blanks ws ∧ Written v cs ∧ Blanks us

theorem isTextOf_compact (v : Json) : v.IsTextOf v.compact :=
  ⟨[], _, [], by simp, blanks_nil, written_compact v, blanks_nil⟩

theorem isTextOf_pretty (v : Json) : v.IsTextOf v.pretty :=
  ⟨[], _, [], by simp, blanks_nil, written_pretty v, blanks_nil⟩

/-- a line feed behind the value -/
theorem isTextOf_prettyLine (v : Json) : v.IsTextOf (v.pretty ++ "\n") :=
  ⟨[], _, ['\n'], by simp, blanks_nil, written_pretty v, List.forall_mem_singleton.mpr (by decide)⟩

/-- what a decoder that reads a value makes of a text of it -/
theorem decode_of_reads {α : Type} {d : Decoder α} {v : Json} {a : α} {text : String}
    (h : Reads d v a) (isText : v.IsTextOf text) : decode d text = .ok a := by
  obtain ⟨ws, cs, us, chars, hws, written, hus⟩ := isText
  have ended : ∀ {P : Char → Prop}, ∀ c ∈ ([] : List Char).head?, P c := fun _ hc =>
    absurd hc (Option.not_mem_none _)
  have value : Takes d (ws ++ cs) a (us ++ []) := h hws written (stops_of_blanks hus ended)
  have verdict {e : Decoder α} {r : EStateM.Result Fault Text.Cursor α}
      (ran : e (.ofList text.toList) = r) (takes : Takes e (ws ++ cs ++ us) a []) :
      ∃ c, r = .ok a c := by
    obtain ⟨q, hq⟩ := takes .origin
    rw [List.append_nil, ← chars] at hq
    exact ⟨_, ran.symm.trans hq⟩
  -- a fault cannot be, as the decoder of the whole text is known to give a value
  unfold decode
  dsimp only
  split
  all_goals
    rename_i ran
    obtain ⟨c, hc⟩ := verdict ran (value.bind ((takes_token hus ended).andThen (takes_pure a [])))
    cases hc
  rfl

end Json
end AnnotationAudit
