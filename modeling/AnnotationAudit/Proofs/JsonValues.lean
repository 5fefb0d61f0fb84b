import AnnotationAudit.Proofs.JsonReading

/-!
# Reading values of any shape

What a text of JSON says can be asked without knowing its shape beforehand: `Json.parse?` gives the
value of a text, and `Json.at?` a part of a value.

* `Json.Decode.value`       reads a value of any shape, of natural numbers of any size;
* `Json.Written.depth_le`   the length of a text bounds how deep its value is nested;
* `Json.Decode.reads_value` every value is read as it is;
* `Json.parse?_eq`          so a text gives the value that it holds.
-/

namespace AnnotationAudit
namespace Json

/-! ## the reader -/

namespace Decode

variable {α : Type}

/-- the members of an object, whatever their names, within `fuel` members -/
def members (d : Decoder α) : Nat → Bool → Decoder (List (String × α))
  | 0, _ => pure []
  | fuel + 1, first => do
    match ← nextKey first with
    | none => pure []
    | some key => do
      colon
      let a ← d
      let rest ← members d fuel false
      pure ((key, a) :: rest)

def object (d : Decoder α) : Decoder (List (String × α)) := settle do
  match ← token with
  | none => faultNext .eofValue
  | some c =>
    if c == '\x7b' then do
      advance
      enclosed (fun c => members d (c.rest.length + 1) true c) closeObject
    else wrongType c "a map"

def anyNatural : Decoder Nat := do
  match ← peek with
  | some '0' => do advance; pure 0
  | _ => Text.digitsValue 0 <$> digits

/-- a value of any shape, within `fuel` levels of nesting -/
def value : Nat → Decoder Json
  | 0 => faultHere .eofValue
  | fuel + 1 => do
    match ← token with
    | none => faultNext .eofValue
    | some c =>
      if c == 'n' then (fun _ => .null) <$> unit
      else if c == 't' || c == 'f' then .boolean <$> boolean
      else if c.isDigit then .number <$> anyNatural
      else if c == '"' then .text <$> string
      else if c == '[' then .array <$> list (value fuel)
      else if c == '\x7b' then .object <$> object (value fuel)
      else faultNext .expectedValue

end Decode

def parse? (text : String) : Option Json := (decode (Decode.value (text.length + 1)) text).toOption

/-- a step from a value to one of its parts -/
inductive Step where
  | member (name : String)
  | item (i : Nat)

def part? : Json → Step → Option Json
  | .object ms, .member name => (ms.find? fun m => m.1 == name).map Prod.snd
  | .array vs, .item i => vs[i]?
  | _, _ => none

/-- the part of a value that some steps lead to -/
def at? (v : Json) (steps : List Step) : Option Json := steps.foldlM part? v

/-! ## nesting -/

mutual

/-- how deep lists and objects are nested -/
def depth : Json → Nat
  | .null | .boolean _ | .number _ | .text _ => 0
  | .array vs => depthItems vs + 1
  | .object ms => depthMembers ms + 1

def depthItems : List Json → Nat
  | [] => 0
  | v :: vs => max (depth v) (depthItems vs)

def depthMembers : List (String × Json) → Nat
  | [] => 0
  | (_, v) :: ms => max (depth v) (depthMembers ms)

end

mutual

/-- every level of nesting takes two characters -/
theorem Written.depth_le : ∀ {v : Json} {cs : List Char}, Written v cs → v.depth ≤ cs.length
  | .null, _, _ | .boolean _, _, _ | .number _, _, _ | .text _, _, _ => Nat.zero_le _
  | .array _, _, .array items => by
    have := items.depth_le
    simp only [depth, List.cons_append, List.length_cons, List.length_append]
    omega
  | .object _, _, .object members => by
    have := members.depth_le
    simp only [depth, List.cons_append, List.length_cons, List.length_append]
    omega

theorem WrittenItems.depth_le : ∀ {first : Bool} {vs : List Json} {cs : List Char},
    WrittenItems first vs cs → depthItems vs ≤ cs.length
  | _, [], _, _ => Nat.zero_le _
  | _, _ :: _, _, .cons _ _ written further => by
    have := written.depth_le
    have := further.depth_le
    simp only [depthItems, List.length_append]
    omega

theorem WrittenMembers.depth_le : ∀ {first : Bool} {ms : List (String × Json)} {cs : List Char},
    WrittenMembers first ms cs → depthMembers ms ≤ cs.length
  | _, [], _, _ => Nat.zero_le _
  | _, _ :: _, _, .cons _ _ _ _ written further => by
    have := written.depth_le
    have := further.depth_le
    simp only [depthMembers, List.length_append]
    omega

end

/-! ## values are read as they are -/

namespace Decode

variable {α : Type} {d : Decoder α}

theorem takes_members {ms : List (String × Json)} {as : List (String × α)}
    (h : List.Forall₂ (fun m a => m.1 = a.1 ∧ Reads d m.2 a.2) ms as) {first : Bool}
    {cs : List Char} (written : WrittenMembers first ms cs) {fuel : Nat}
    (enough : ms.length < fuel) (rest : List Char) :
    Takes (members d fuel first) cs as ('\x7d' :: rest) := by
  induction h generalizing first cs fuel with
  | nil =>
    obtain ⟨fuel, rfl⟩ := Nat.exists_eq_add_one_of_ne_zero (Nat.ne_zero_of_lt enough)
    cases written with
    | nil hws => exact (takes_noKey first hws rest).andThen (takes_pure [] _)
  | @cons m a ms as same _ ih =>
    obtain ⟨fuel, rfl⟩ := Nat.exists_eq_add_one_of_ne_zero (Nat.ne_zero_of_lt enough)
    obtain ⟨k', a⟩ := a
    cases written with
    | @cons _ k _ _ _ _ _ _ _ _ hws hus hxs hys written further =>
      obtain ⟨rfl, reads⟩ : k = k' ∧ Reads d _ a := same
      have others := ih further (Nat.lt_of_succ_lt_succ enough)
      exact (takes_nextKey first k hws hus).bind (takes_colon hxs hys reads written
        (further.stops rest) (others.andThen (takes_pure ((k, a) :: _) _)))

theorem reads_object {ms : List (String × Json)} {as : List (String × α)}
    (h : List.Forall₂ (fun m a => m.1 = a.1 ∧ Reads d m.2 a.2) ms as) :
    Reads (object d) (.object ms) as := by
  refine Reads.settle fun ws cs rest hws written stops => ?_
  cases written with
  | @object _ cs written =>
    have contents : Takes (fun c => members d (c.rest.length + 1) true c) cs as
        ('\x7d' :: rest) := by
      refine takes_of_length (d := fun fuel => members d fuel true) fun fuel enough => ?_
      have := written.length_le
      exact takes_members h written (by simp only [List.length_append] at enough; omega) rest
    have close : Takes closeObject ['\x7d'] () rest :=
      .behind (c := '\x7d') blanks_nil (by decide) (takes_advance '\x7d' rest)
    exact .behind (c := '\x7b') hws (by decide) (.over '\x7b' (contents.enclosed close))

theorem reads_unit : Reads unit .null () := by
  refine Reads.settle fun ws cs rest hws written stops => ?_
  cases written with
  | null => exact .behind (c := 'n') hws (by decide) (.over 'n' (takes_word _ rest))

theorem takes_anyNatural {rest : List Char} (n : Nat) (stops : Stops rest) :
    Takes anyNatural (Text.decimalDigits n) n rest := by
  have taken := takes_digits (fun _ hd => Text.isDigit_of_mem_decimalDigits (n := n) hd)
    (notDigit_of_stops stops)
  have value := Text.digitsValue_decimalDigits n
  rcases Text.decimalDigits_cases n with zero | ⟨d, ds, hd, nonzero⟩
  · rw [zero] at value ⊢
    exact .ahead (.over '0' (value ▸ takes_pure 0 rest))
  · rw [hd] at value taken ⊢
    refine .ahead ?_
    split
    · next zero => exact absurd (Option.some.inj zero) nonzero
    · exact value ▸ taken.map (Text.digitsValue 0)

theorem reads_number (n fuel : Nat) : Reads (value (fuel + 1)) (.number n) (.number n) := by
  intro ws cs rest hws written stops
  obtain ⟨c, ds, hc, blank, -⟩ := written.begins
  cases written with
  | number =>
    have digit : c.isDigit = true := Text.isDigit_of_mem_decimalDigits (hc ▸ List.mem_cons_self)
    have other {x : Char} (hx : x.isDigit = false) : ¬ (c == x) = true := fun h => by
      rw [eq_of_beq h, hx] at digit
      exact Bool.false_ne_true digit
    have noBoolean : ¬ (c == 't' || c == 'f') = true := by
      rw [Bool.or_eq_true]
      exact fun h => h.elim (other rfl) (other rfl)
    have taken := (takes_anyNatural n stops).map Json.number
    rw [hc] at taken ⊢
    refine .behind hws blank ?_
    show Takes (if c == 'n' then _ else if c == 't' || c == 'f' then _ else if c.isDigit then _
      else _) _ _ _
    rw [if_neg (other rfl), if_neg noBoolean, if_pos digit]
    exact taken

mutual

/-- every value is read as it is -/
theorem reads_value : ∀ {v : Json} {fuel : Nat}, v.depth < fuel → Reads (value fuel) v v
  | .null, fuel + 1, _ => fun _ _ rest hws written stops => by
    have taken := reads_unit.map (fun _ => Json.null) blanks_nil written stops
    cases written with
    | null => exact .behind (c := 'n') hws (by decide) taken
  | .boolean b, fuel + 1, _ => fun _ _ rest hws written stops => by
    have taken := (reads_boolean b).map Json.boolean blanks_nil written stops
    cases written with
    | yes => exact .behind (c := 't') hws (by decide) taken
    | no => exact .behind (c := 'f') hws (by decide) taken
  | .number n, fuel + 1, _ => reads_number n fuel
  | .text s, fuel + 1, _ => fun _ _ rest hws written stops => by
    have taken := (reads_string s).map Json.text blanks_nil written stops
    cases written with
    | text => exact .behind (c := '"') hws (by decide) taken
  | .array vs, fuel + 1, h => fun _ _ rest hws written stops => by
    have items := reads_items (Nat.lt_of_succ_lt_succ h)
    have taken := (reads_list items).map Json.array blanks_nil written stops
    cases written with
    | array => exact .behind (c := '[') hws (by decide) taken
  | .object ms, fuel + 1, h => fun _ _ rest hws written stops => by
    have members := reads_members (Nat.lt_of_succ_lt_succ h)
    have taken := (reads_object members).map Json.object blanks_nil written stops
    cases written with
    | object => exact .behind (c := '\x7b') hws (by decide) taken

theorem reads_items : ∀ {vs : List Json} {fuel : Nat}, depthItems vs < fuel →
    List.Forall₂ (Reads (value fuel)) vs vs
  | [], _, _ => .nil
  | _ :: _, _, h =>
    .cons (reads_value (Nat.lt_of_le_of_lt (Nat.le_max_left _ _) h))
      (reads_items (Nat.lt_of_le_of_lt (Nat.le_max_right _ _) h))

theorem reads_members : ∀ {ms : List (String × Json)} {fuel : Nat}, depthMembers ms < fuel →
    List.Forall₂ (fun m a => m.1 = a.1 ∧ Reads (value fuel) m.2 a.2) ms ms
  | [], _, _ => .nil
  | (_, _) :: _, _, h =>
    .cons ⟨rfl, reads_value (Nat.lt_of_le_of_lt (Nat.le_max_left _ _) h)⟩
      (reads_members (Nat.lt_of_le_of_lt (Nat.le_max_right _ _) h))

end

end Decode

/-- **A text gives the value that it holds.** -/
theorem parse?_eq {v : Json} {text : String} (h : v.IsTextOf text) : parse? text = some v := by
  obtain ⟨ws, cs, us, chars, -, written, -⟩ := id h
  have shallow : v.depth < text.length + 1 := by
    have := written.depth_le
    rw [← String.length_toList, chars]
    simp only [List.length_append]
    omega
  rw [parse?, decode_of_reads (Decode.reads_value shallow) h]
  rfl

end Json
end AnnotationAudit
