import AnnotationAudit.Proofs.JsonTexts

/-!
# Reading JSON tokens

What a decoder does with a text that is as it should be: it steps over the part that it asks for,
and leaves what follows.

* `Json.Decode.Takes`              a decoder steps over some characters and gives a value;
* `Json.Decode.takes_token`        blanks are stepped over, up to the next token;
* `Json.Decode.takes_stringRest`   a written string gives its characters back;
* `Text.digitsValue_decimalDigits` the digits of a number give the number back;
* `Json.Stops`                     what may follow a value;
* `Json.Decode.takes_number`       a written number of at most 64 bits is read as it is.
-/

namespace AnnotationAudit

/-! ## digits -/

namespace Text

theorem isDigit_digitChar : ∀ d < 10, (digitChar d).isDigit = true := by decide

theorem value_digitChar : ∀ d < 10, (digitChar d).toNat - '0'.toNat = d := by decide

theorem digitChar_ne_zero : ∀ d < 10, d ≠ 0 → digitChar d ≠ '0' := by decide

theorem digitsValue_digitChar (acc : Nat) {d : Nat} (h : d < 10) :
    digitsValue acc [digitChar d] = acc * 10 + d :=
  congrArg (acc * 10 + ·) (value_digitChar d h)

theorem digitsValue_append (acc : Nat) (cs ds : List Char) :
    digitsValue acc (cs ++ ds) = digitsValue (digitsValue acc cs) ds := by
  induction cs generalizing acc with
  | nil => rfl
  | cons c cs ih => exact ih _

theorem le_digitsValue (acc : Nat) (ds : List Char) : acc ≤ digitsValue acc ds := by
  induction ds generalizing acc with
  | nil => exact Nat.le_refl acc
  | cons d ds ih => exact Nat.le_trans (by omega) (ih (acc * 10 + (d.toNat - '0'.toNat)))

/-- the digits of a number give the number back -/
theorem digitsValue_decimalDigits (n : Nat) : digitsValue 0 (decimalDigits n) = n := by
  induction n using decimalDigits.induct with
  | case1 n small =>
    rw [decimalDigits, if_pos small, digitsValue_digitChar 0 small]
    omega
  | case2 n large ih =>
    rw [decimalDigits, if_neg large, digitsValue_append, ih,
      digitsValue_digitChar (n / 10) (by omega)]
    omega

theorem isDigit_of_mem_decimalDigits {n : Nat} {c : Char} (h : c ∈ decimalDigits n) :
    c.isDigit = true := by
  induction n using decimalDigits.induct with
  | case1 n small =>
    rw [decimalDigits, if_pos small, List.mem_singleton] at h
    rw [h, isDigit_digitChar n small]
  | case2 n large ih =>
    rw [decimalDigits, if_neg large, List.mem_append, List.mem_singleton] at h
    rcases h with h | rfl
    · exact ih h
    · exact isDigit_digitChar (n % 10) (by omega)

/-- a number has a first digit, and it is not zero unless it is the only one -/
theorem decimalDigits_cases (n : Nat) :
    decimalDigits n = ['0'] ∨ ∃ d ds, decimalDigits n = d :: ds ∧ d ≠ '0' := by
  induction n using decimalDigits.induct with
  | case1 n small =>
    rw [decimalDigits, if_pos small]
    by_cases zero : n = 0
    · exact .inl (by rw [zero]; rfl)
    · exact .inr ⟨digitChar n, [], rfl, digitChar_ne_zero n small zero⟩
  | case2 n large ih =>
    rw [decimalDigits, if_neg large]
    rcases ih with zero | ⟨d, ds, hd, first⟩
    · have value := digitsValue_decimalDigits (n / 10)
      rw [zero] at value
      have : n / 10 = 0 := value.symm
      omega
    · exact .inr ⟨d, ds ++ [digitChar (n % 10)], by rw [hd]; rfl, first⟩

end Text

namespace Json

open Text (Cursor)

/-- what may follow a value: nothing, a blank, a comma, or the end of a list or of an object -/
def Stops (rest : List Char) : Prop :=
  ∀ c ∈ rest.head?, Decode.isSpace c = true ∨ c = ',' ∨ c = ']' ∨ c = '\x7d'

namespace Decode

variable {α β : Type} {cs ds rest ws : List Char} {a : α} {b : β} {c : Char}

/-- the decoder steps over the characters `cs` in front of `rest`, and gives `a` -/
def Takes (d : Decoder α) (cs : List Char) (a : α) (rest : List Char) : Prop :=
  ∀ p, ∃ q, d ⟨p, cs ++ rest⟩ = .ok a ⟨q, rest⟩

/-! ## steps -/

theorem takes_pure (a : α) (rest : List Char) : Takes (pure a) [] a rest := fun p => ⟨p, rfl⟩

theorem Takes.bind {d : Decoder α} {f : α → Decoder β} (h : Takes d cs a (ds ++ rest))
    (h' : Takes (f a) ds b rest) : Takes (d >>= f) (cs ++ ds) b rest := by
  intro p
  obtain ⟨q, hq⟩ := h p
  obtain ⟨r, hr⟩ := h' q
  refine ⟨r, ?_⟩
  show EStateM.bind d f _ = _
  rw [EStateM.bind, List.append_assoc, hq]
  exact hr

/-- a step that only looks -/
theorem Takes.look {d : Decoder α} {f : α → Decoder β} (h : Takes d [] a (cs ++ rest))
    (h' : Takes (f a) cs b rest) : Takes (d >>= f) cs b rest := h.bind h'

/-- a last step that only gives a value -/
theorem Takes.andThen {d : Decoder α} {f : α → Decoder β} (h : Takes d cs a rest)
    (h' : Takes (f a) [] b rest) : Takes (d >>= f) cs b rest := by
  have both : Takes (d >>= f) (cs ++ []) b rest := h.bind h'
  rwa [List.append_nil] at both

theorem Takes.map {d : Decoder α} (h : Takes d cs a rest) (f : α → β) :
    Takes (f <$> d) cs (f a) rest := by
  intro p
  obtain ⟨q, hq⟩ := h p
  refine ⟨q, ?_⟩
  show EStateM.map f d _ = _
  rw [EStateM.map, hq]

theorem Takes.settle {d : Decoder α} (h : Takes d cs a rest) : Takes (settle d) cs a rest := by
  intro p
  obtain ⟨q, hq⟩ := h p
  refine ⟨q, ?_⟩
  unfold Decode.settle
  rw [hq]

theorem Takes.enclosed {d : Decoder α} {close : Decoder Unit} (h : Takes d cs a (ds ++ rest))
    (h' : Takes close ds () rest) : Takes (enclosed d close) (cs ++ ds) a rest := by
  intro p
  obtain ⟨q, hq⟩ := h p
  obtain ⟨r, hr⟩ := h' q
  refine ⟨r, ?_⟩
  unfold Decode.enclosed
  rw [List.append_assoc, hq]
  dsimp only
  rw [hr]

/-- a decoder that is given as many steps as there are characters -/
theorem takes_of_length {d : Nat → Decoder α}
    (h : ∀ fuel, (cs ++ rest).length < fuel → Takes (d fuel) cs a rest) :
    Takes (fun c => d (c.rest.length + 1) c) cs a rest :=
  fun p => h _ (Nat.lt_succ_self _) p

theorem takes_peek (rest : List Char) : Takes peek [] rest.head? rest := fun p => ⟨p, rfl⟩

theorem Takes.ahead {f : Option Char → Decoder α} (h : Takes (f (cs ++ rest).head?) cs a rest) :
    Takes (peek >>= f) cs a rest := (takes_peek (cs ++ rest)).look h

theorem takes_advance (c : Char) (rest : List Char) : Takes advance [c] () rest :=
  fun p => ⟨p.step c, rfl⟩

theorem Takes.over {f : Unit → Decoder α} (c : Char) (h : Takes (f ()) cs a rest) :
    Takes (advance >>= f) (c :: cs) a rest := (takes_advance c (cs ++ rest)).bind h

/-- blanks are stepped over, up to the next token -/
theorem takes_token (hws : Blanks ws) (h : ∀ c ∈ rest.head?, isSpace c = false) :
    Takes token ws rest.head? rest := by
  suffices skip : ∀ p, ∃ q, pastSpace p (ws ++ rest) = ⟨q, rest⟩ by
    intro p
    obtain ⟨q, hq⟩ := skip p
    refine ⟨q, ?_⟩
    unfold token
    dsimp only
    rw [hq]
    rfl
  induction ws with
  | nil =>
    intro p
    cases rest with
    | nil => exact ⟨p, rfl⟩
    | cons c rest =>
      exact ⟨p, by rw [List.nil_append, pastSpace, h c rfl, if_neg Bool.false_ne_true]⟩
  | cons w ws ih =>
    obtain ⟨hw, hws⟩ := List.forall_mem_cons.mp hws
    intro p
    rw [List.cons_append, pastSpace, hw, if_pos rfl]
    exact ih hws (p.step w)

/-- the token behind blanks, by its first character -/
theorem takes_tokenOf (hws : Blanks ws) (hc : isSpace c = false) (rest : List Char) :
    Takes token ws (some c) (c :: rest) := by
  have here : ∀ d ∈ (c :: rest).head?, isSpace d = false := fun _ hd => Option.some.inj hd ▸ hc
  exact takes_token hws here

/-- a step over blanks, then over a token that is told by its first character -/
theorem Takes.behind {f : Option Char → Decoder α} (hws : Blanks ws) (hc : isSpace c = false)
    (h : Takes (f (some c)) (c :: cs) a rest) : Takes (token >>= f) (ws ++ c :: cs) a rest :=
  (takes_tokenOf hws hc (cs ++ rest)).bind h

theorem takes_word (xs rest : List Char) : Takes (word xs) xs () rest := by
  induction xs with
  | nil => exact takes_pure () rest
  | cons x xs ih =>
    refine .ahead ?_
    show Takes (if x == x then do advance; word xs else _) _ _ _
    rw [if_pos (beq_self_eq_true x)]
    exact ih.over x

/-! ## strings -/

theorem hexValue?_digitChar : ∀ k < 16, hexValue? (Nat.digitChar k) = some k := by decide

theorem takes_unicodeEscape (hc : c.toNat < 0x20) (rest : List Char) :
    Takes unicodeEscape ['0', '0', Nat.digitChar (c.toNat / 16), Nat.digitChar (c.toNat % 16)] c
      rest := by
  have high := hexValue?_digitChar (c.toNat / 16) (by omega)
  have low := hexValue?_digitChar (c.toNat % 16) (by omega)
  have code : ((0 * 16 + 0) * 16 + c.toNat / 16) * 16 + c.toNat % 16 = c.toNat := by omega
  have digits : Takes hexEscape ['0', '0', Nat.digitChar (c.toNat / 16),
      Nat.digitChar (c.toNat % 16)] c.toNat rest := by
    intro p
    refine ⟨(((p.step '0').step '0').step (Nat.digitChar (c.toNat / 16))).step
      (Nat.digitChar (c.toNat % 16)), ?_⟩
    have values : (['0', '0', Nat.digitChar (c.toNat / 16), Nat.digitChar (c.toNat % 16)].mapM
        hexValue?) = some [0, 0, c.toNat / 16, c.toNat % 16] := by
      rw [List.mapM_cons, List.mapM_cons, List.mapM_cons, List.mapM_cons, high, low]
      rfl
    unfold hexEscape
    simp only [List.cons_append, List.nil_append, List.take_succ_cons, List.take_zero, values, code]
    rfl
  refine digits.andThen ?_
  have belowSurrogates (low high : Nat) (h : 0x20 ≤ low) :
      ¬ (decide (low ≤ c.toNat) && decide (c.toNat ≤ high)) = true := by
    rw [Bool.and_eq_true, decide_eq_true_eq]
    omega
  rw [if_neg (belowSurrogates _ _ (by decide)), if_neg (belowSurrogates _ _ (by decide)),
    Char.ofNat_toNat]
  exact takes_pure c rest

/-- a character is written as it is, or by an escape that gives it back -/
theorem escapedChar_cases (c : Char) :
    (escapedChar c = [c] ∧ c ≠ '"' ∧ c ≠ '\\' ∧ ¬ c.toNat < 0x20) ∨
      ∃ ds, escapedChar c = '\\' :: ds ∧ ∀ rest, Takes escape ds c rest := by
  have simple {x y : Char} (h : simpleEscape? x = some y) (rest : List Char) :
      Takes escape [x] y rest := by
    refine .ahead ?_
    dsimp only [List.cons_append, List.head?_cons]
    rw [h]
    exact (takes_pure y rest).over x
  unfold escapedChar
  by_cases quoted : (c == '"' || c == '\\') = true
  · rw [if_pos quoted]
    refine .inr ⟨[c], rfl, simple ?_⟩
    rcases Bool.or_eq_true_iff.mp quoted with h | h <;> obtain rfl := eq_of_beq h <;> rfl
  rw [if_neg quoted]
  by_cases lineFeed : (c == '\n') = true
  · obtain rfl := eq_of_beq lineFeed
    exact .inr ⟨['n'], rfl, simple rfl⟩
  rw [if_neg lineFeed]
  by_cases carriageReturn : (c == '\r') = true
  · obtain rfl := eq_of_beq carriageReturn
    exact .inr ⟨['r'], rfl, simple rfl⟩
  rw [if_neg carriageReturn]
  by_cases tab : (c == '\t') = true
  · obtain rfl := eq_of_beq tab
    exact .inr ⟨['t'], rfl, simple rfl⟩
  rw [if_neg tab]
  by_cases backspace : (c.toNat == 8) = true
  · rw [if_pos backspace]
    obtain rfl : c = Char.ofNat 8 := by rw [← eq_of_beq backspace, Char.ofNat_toNat]
    exact .inr ⟨['b'], rfl, simple rfl⟩
  rw [if_neg backspace]
  by_cases formFeed : (c.toNat == 12) = true
  · rw [if_pos formFeed]
    obtain rfl : c = Char.ofNat 12 := by rw [← eq_of_beq formFeed, Char.ofNat_toNat]
    exact .inr ⟨['f'], rfl, simple rfl⟩
  rw [if_neg formFeed]
  by_cases control : c.toNat < 0x20
  · rw [if_pos control]
    refine .inr ⟨_, rfl, fun rest => ?_⟩
    exact .ahead ((takes_unicodeEscape control rest).over 'u')
  · rw [if_neg control]
    simp only [Bool.or_eq_true, beq_iff_eq, not_or] at quoted
    exact .inl ⟨rfl, quoted.1, quoted.2, control⟩

theorem takes_stringFrom {fuel : Nat} {s acc : List Char} (h : s.length < fuel)
    (rest : List Char) : Takes (stringFrom fuel acc) (s.flatMap escapedChar ++ ['"'])
      (String.ofList (acc.reverse ++ s)) rest := by
  induction s generalizing fuel acc with
  | nil =>
    obtain ⟨fuel, rfl⟩ := Nat.exists_eq_add_of_lt h
    rw [List.append_nil]
    exact .ahead (.over '"' (takes_pure _ rest))
  | cons c s ih =>
    obtain ⟨fuel, rfl⟩ := Nat.exists_eq_add_one_of_ne_zero (Nat.ne_zero_of_lt h)
    have further : Takes (stringFrom fuel (c :: acc)) (s.flatMap escapedChar ++ ['"'])
        (String.ofList ((c :: acc).reverse ++ s)) rest := ih (Nat.lt_of_succ_lt_succ h)
    rw [List.reverse_cons, List.append_assoc, List.singleton_append] at further
    rw [List.flatMap_cons, List.append_assoc]
    rcases escapedChar_cases c with ⟨plain, quote, backslash, control⟩ | ⟨ds, escaped, takes⟩
    · rw [plain]
      refine .ahead ?_
      show Takes (if c == '"' then _ else if c == '\\' then _ else if c.toNat < 0x20 then _ else
        do advance; stringFrom fuel (c :: acc)) _ _ _
      rw [if_neg (mt eq_of_beq quote), if_neg (mt eq_of_beq backslash), if_neg control]
      exact further.over c
    · rw [escaped]
      exact .ahead (((takes _).bind further).over '\\')

/-- a written string gives its characters back -/
theorem takes_stringRest (s : String) (rest : List Char) :
    Takes stringRest (s.toList.flatMap escapedChar ++ ['"']) s rest := by
  refine takes_of_length (d := fun fuel => stringFrom fuel []) fun fuel h => ?_
  -- no escape is empty, so there are no more steps to take than characters
  have short : ∀ cs : List Char, cs.length ≤ (cs.flatMap escapedChar).length := by
    intro cs
    induction cs with
    | nil => exact Nat.le_refl 0
    | cons c cs ih =>
      have some_char : 1 ≤ (escapedChar c).length := by
        rcases escapedChar_cases c with ⟨h, -⟩ | ⟨ds, h, -⟩ <;> rw [h]
        · exact Nat.le_refl 1
        · exact Nat.succ_le_succ (Nat.zero_le _)
      rw [List.flatMap_cons, List.length_append, List.length_cons]
      omega
  have enough : s.toList.length < fuel := by
    have := short s.toList
    simp only [List.length_append] at h
    omega
  have taken : Takes (stringFrom fuel []) _ (String.ofList ([] ++ s.toList)) rest :=
    takes_stringFrom enough rest
  rwa [List.nil_append, String.ofList_toList] at taken

/-! ## numbers -/

/-- no number goes on where a value ends -/
theorem notDigit_of_stops (h : Stops rest) : ∀ c ∈ rest.head?, c.isDigit = false := by
  intro c hc
  rcases h c hc with blank | rfl | rfl | rfl
  · simp only [isSpace, Bool.or_eq_true, beq_iff_eq] at blank
    rcases blank with ((rfl | rfl) | rfl) | rfl <;> rfl
  all_goals rfl

theorem head?_ne_of_stops (h : Stops rest) (blank : isSpace c = false)
    (other : c ≠ ',' ∧ c ≠ ']' ∧ c ≠ '\x7d') : rest.head? ≠ some c := by
  intro hc
  rcases h c hc with space | comma | list | object
  · exact Bool.false_ne_true (blank.symm.trans space)
  · exact other.1 comma
  · exact other.2.1 list
  · exact other.2.2 object

theorem takes_digits (hds : ∀ d ∈ ds, d.isDigit = true)
    (h : ∀ c ∈ rest.head?, c.isDigit = false) : Takes digits ds ds rest := by
  suffices run : ∀ p, ∃ q, digitsFrom p (ds ++ rest) = (ds, ⟨q, rest⟩) by
    intro p
    obtain ⟨q, hq⟩ := run p
    refine ⟨q, ?_⟩
    unfold digits
    dsimp only
    rw [hq]
  induction ds with
  | nil =>
    intro p
    cases rest with
    | nil => exact ⟨p, rfl⟩
    | cons c rest =>
      exact ⟨p, by rw [List.nil_append, digitsFrom, h c rfl, if_neg Bool.false_ne_true]⟩
  | cons d ds ih =>
    obtain ⟨hd, hds⟩ := List.forall_mem_cons.mp hds
    intro p
    obtain ⟨q, hq⟩ := ih hds (p.step d)
    exact ⟨q, by rw [List.cons_append, digitsFrom, hd, if_pos rfl, hq]⟩

theorem significand_eq {ds : List Char} {acc : Nat} (h : Text.digitsValue acc ds ≤ maxWord) :
    significand acc ds = (Text.digitsValue acc ds, []) := by
  induction ds generalizing acc with
  | nil => rfl
  | cons d ds ih =>
    have fits : ¬ maxWord < acc * 10 + (d.toNat - '0'.toNat) :=
      Nat.not_lt.mpr (Nat.le_trans (Text.le_digitsValue _ ds) h)
    rw [significand, if_neg fits]
    exact ih h

/-- where a number ends, neither a fraction nor an exponent follows -/
theorem takes_finish {n : Nat} (fits : n ≤ maxWord) (stops : Stops rest) :
    Takes (number.finish true (Text.decimalDigits n)) [] (Number.natural n) rest := by
  have value := Text.digitsValue_decimalDigits n
  unfold number.finish
  rw [significand_eq (value.symm ▸ fits), value]
  refine .ahead ?_
  split
  · next dot => exact absurd dot (head?_ne_of_stops stops rfl (by decide))
  · next e => exact absurd e (head?_ne_of_stops stops rfl (by decide))
  · next e => exact absurd e (head?_ne_of_stops stops rfl (by decide))
  · exact takes_pure (Number.natural n) rest

/-- a written number of at most 64 bits is read as it is -/
theorem takes_number {n : Nat} (fits : n ≤ maxWord) (stops : Stops rest) :
    Takes (number true) (Text.decimalDigits n) (.natural n) rest := by
  have notDigit := notDigit_of_stops stops
  have finish := takes_finish fits stops
  have further (first : Char) (c : Char) (hc : rest.head? = some c) :
      ¬ (first == '0' && c.isDigit) = true := by
    rw [notDigit c hc, Bool.and_false]
    exact Bool.false_ne_true
  have all_digits : ∀ d ∈ Text.decimalDigits n, d.isDigit = true := fun _ hd =>
    Text.isDigit_of_mem_decimalDigits hd
  have taken := takes_digits all_digits notDigit
  rcases Text.decimalDigits_cases n with zero | ⟨d, ds, hd, nonzero⟩
  case' inl =>
    rw [zero] at finish ⊢
    refine .ahead (.over '0' (.look (takes_pure ['0'] rest) (.ahead ?_)))
  case' inr =>
    rw [hd] at all_digits taken finish ⊢
    refine .ahead ?_
    show Takes (if !d.isDigit then _ else if d == '0' then _ else _) _ _ _
    rw [all_digits d List.mem_cons_self, if_neg (by decide), if_neg (mt eq_of_beq nonzero)]
    refine taken.andThen (.ahead ?_)
  all_goals
    split
    · next c hc =>
      rw [if_neg (further _ c hc)]
      exact finish
    · exact finish

end Decode
end Json
end AnnotationAudit
