import AnnotationAudit.Proofs.Cursors
import AnnotationAudit.Python.Token

/-!
# Where tokens stand

Whatever reads a token begins at some cursor and ends at one behind it, and what it has read is
spelled as the token is.

* `Terminal.IsRead`     what is known of the text that is read as a terminal;
* `readToken_stands`    the tokens that do not depend on the layout;
* `Layout.scan_stands`  the layout symbols;
* `Token.Stands`        a token begins behind its blanks and ends behind its beginning, and is read;
* `Token.read_stands`   every token that is read stands behind the cursor at which it is read.
-/

namespace AnnotationAudit
namespace Python

open Text

/-! ## single tokens -/

theorem skipWhile_precedes (p : Char → Bool) (pos : Position) (cs : List Char) :
    Cursor.Precedes ⟨pos, cs⟩ (skipWhile p pos cs) := by
  induction cs generalizing pos with
  | nil => exact .refl _
  | cons c cs ih =>
    rw [skipWhile]
    split
    · exact Cursor.Precedes.trans (.next ⟨pos, c :: cs⟩) (ih _)
    · exact .refl _

/-- what is skipped passes the test -/
theorem forall_mem_charsTo_skipWhile (p : Char → Bool) (pos : Position) (cs : List Char) :
    ∀ x ∈ Cursor.charsTo ⟨pos, cs⟩ (skipWhile p pos cs), p x = true := by
  induction cs generalizing pos with
  | nil =>
    rw [skipWhile, Cursor.charsTo_self]
    exact fun x hx => absurd hx List.not_mem_nil
  | cons c cs ih =>
    rw [skipWhile]
    split
    · next hc =>
      have rest := (skipWhile_precedes p (pos.step c) cs).rest_eq
      have all : Cursor.charsTo ⟨pos, c :: cs⟩ (skipWhile p (pos.step c) cs) =
          c :: Cursor.charsTo ⟨pos.step c, cs⟩ (skipWhile p (pos.step c) cs) :=
        Cursor.charsTo_eq (congrArg (c :: ·) rest)
      rw [all]
      exact List.forall_mem_cons.mpr ⟨hc, ih (pos.step c)⟩
    · rw [Cursor.charsTo_self]
      exact fun x hx => absurd hx List.not_mem_nil

theorem rest_of_readChars {cs : List Char} {c : Cursor} :
    ∀ d ∈ readChars cs c, c.Precedes d ∧ c.rest = cs ++ d.rest := by
  induction cs generalizing c with
  | nil =>
    intro d hd
    exact Option.mem_some_iff.mp hd ▸ ⟨.refl c, rfl⟩
  | cons x cs ih =>
    intro d hd
    rw [readChars] at hd
    split at hd
    · next y ys rest =>
      split at hd
      · next same =>
        obtain ⟨behind, read⟩ := ih d hd
        rw [Cursor.next, rest] at read
        rw [rest, beq_iff_eq.mp same, List.cons_append, ← read]
        exact ⟨(Cursor.Precedes.next c).trans behind, rfl⟩
      · cases hd
    · cases hd

def Terminal.asName (x : Terminal) : Terminal := if x.isKeyword then .identifier else x

/-- what is known of the text that was read as the terminal `x`: the blanks before it, and how it is
spelled. Where a keyword begins the word stands that it is, and the end of the text is empty. -/
structure Terminal.IsRead (x : Terminal) (before start stop : Cursor) : Prop where
  word : x.isKeyword = true → Token.keyword? (start.rest.takeWhile isIdentifierPart) = some x
  blank : x.isLayout = false → ∀ c ∈ before.charsTo start, isSeparator c = true
  spelled : ∀ s, x.spelling? = some s → x.isKeyword = false → start.charsTo stop = s.toList
  pattern : ∀ p, x.asName.pattern? = some p → p.Matches (start.charsTo stop) = true
  ended : x = .endOfText → start.charsTo stop = []

/-- a symbol that is found at `c` ends behind it, and is no word with a meaning of its own -/
structure Candidate.Stands (c : Cursor) (t : Candidate) : Prop where
  stop : c.Precedes t.stop
  symbol : t.symbol.isKeyword = false
  spelled : ∀ s, t.symbol.spelling? = some s → c.charsTo t.stop = s.toList
  pattern : ∀ p, t.symbol.pattern? = some p → p.Matches (c.charsTo t.stop) = true
  ended : t.symbol = .endOfText → c.charsTo t.stop = []

theorem Candidate.choose_cases (a : Option Candidate) (b : Candidate) :
    choose a b = some b ∨ choose a b = a := by
  cases a with
  | none => exact .inl rfl
  | some a =>
    rw [choose]
    split
    · exact .inl rfl
    · exact .inr rfl

/-- a step of a search for tokens: what it finds is the token of the step, or was there before -/
theorem Candidate.of_step {P : Candidate → Prop} {best : Option Candidate} {usable : Bool}
    {x : Terminal} {stop : Option Cursor} {t : Candidate}
    (ht : t ∈ (if usable then
        match stop with
        | some stop => choose best ⟨x, stop⟩
        | none => best
      else best))
    (hbest : ∀ t ∈ best, P t) (hstop : ∀ d ∈ stop, P ⟨x, d⟩) : P t := by
  split at ht
  · split at ht
    · next d =>
      rcases choose_cases best ⟨x, d⟩ with h | h
      · rw [h, Option.mem_some_iff] at ht
        exact ht ▸ hstop d rfl
      · exact hbest t (h ▸ ht)
    · exact hbest t ht
  · exact hbest t ht

/-- no symbol has both a spelling and a pattern -/
theorem Terminal.pattern?_of_spelling? {x : Terminal} {s : String} (h : x.spelling? = some s) :
    x.pattern? = none := by
  cases x <;> first | rfl | cases h

theorem of_mem_punctuation {x : Terminal} {cs : List Char} (h : (x, cs) ∈ punctuation) :
    x.isKeyword = false ∧ ∃ s, x.spelling? = some s ∧ cs = s.toList := by
  obtain ⟨y, -, hy⟩ := List.mem_filterMap.mp h
  split at hy
  · next s hs =>
    split at hy
    · cases hy
    · next word =>
      obtain ⟨rfl, rfl⟩ := Prod.mk.inj (Option.some.inj hy)
      exact ⟨Bool.eq_false_iff.mpr word, s, hs, rfl⟩
  · cases hy

theorem of_mem_patterns {x : Terminal} {p : Pattern} (h : (x, p) ∈ patterns) :
    x.pattern? = some p := by
  obtain ⟨y, -, hy⟩ := List.mem_filterMap.mp h
  obtain ⟨q, hq, same⟩ := Option.map_eq_some_iff.mp hy
  obtain ⟨rfl, rfl⟩ := Prod.mk.inj same
  exact hq

theorem Candidate.stands_of_spelling {x : Terminal} {s : String} {c d : Cursor}
    (word : x.isKeyword = false) (hs : x.spelling? = some s) (hd : d ∈ readChars s.toList c) :
    Candidate.Stands c ⟨x, d⟩ := by
  obtain ⟨behind, rest⟩ := rest_of_readChars d hd
  refine ⟨behind, word, fun r hr => ?_, fun p hp => ?_, fun ended => ?_⟩
  · obtain rfl := Option.some.inj (hs.symm.trans hr)
    exact Cursor.charsTo_eq rest
  · cases (Terminal.pattern?_of_spelling? hs).symm.trans hp
  · obtain rfl : x = .endOfText := ended
    cases hs

theorem Candidate.stands_of_pattern {x : Terminal} {p : Pattern} {c d : Cursor}
    (hp : x.pattern? = some p) (hd : d ∈ p.longest c) : Candidate.Stands c ⟨x, d⟩ := by
  have unspelled : x.spelling? = none := by
    cases hs : x.spelling? with
    | none => rfl
    | some s => cases (Terminal.pattern?_of_spelling? hs).symm.trans hp
  refine ⟨p.longest_precedes c d hd, by rw [Terminal.isKeyword, unspelled], fun s hs => ?_,
    fun q hq => ?_, fun ended => ?_⟩
  · cases unspelled.symm.trans hs
  · obtain rfl := Option.some.inj (hp.symm.trans hq)
    exact p.longest_matches c d hd
  · obtain rfl : x = .endOfText := ended
    cases hp

theorem candidate_stands (valid : Terminals) (fresh : Bool) (c : Cursor) :
    ∀ t ∈ candidate? valid fresh c, t.Stands c := by
  refine List.foldlRecOn (motive := fun best : Option Candidate => ∀ t ∈ best, t.Stands c)
    _ _ ?_ ?_
  · refine List.foldlRecOn (motive := fun best : Option Candidate => ∀ t ∈ best, t.Stands c)
      _ _ nofun ?_
    intro best hbest (x, cs) mem t ht
    obtain ⟨word, s, hs, rfl⟩ := of_mem_punctuation mem
    exact Candidate.of_step (P := Candidate.Stands c) ht hbest fun d hd =>
      Candidate.stands_of_spelling word hs hd
  · intro best hbest (x, p) mem t ht
    exact Candidate.of_step (P := Candidate.Stands c) ht hbest fun d hd =>
      Candidate.stands_of_pattern (of_mem_patterns mem) hd

/-- the blanks that are skipped before a token -/
theorem readToken_blank (valid : Terminals) (c : Cursor) :
    c.Precedes (readToken valid c).1 ∧
      ∀ x ∈ c.charsTo (readToken valid c).1, isSeparator x = true := by
  have skipped : (readToken valid c).1 = skipWhile
      (if Terminals.has valid .formatText then (· == '\n') else isSeparator) c.position c.rest := by
    rw [readToken]
    repeat' split
    all_goals rfl
  rw [skipped]
  refine ⟨skipWhile_precedes _ _ _, fun x hx => ?_⟩
  have passed := forall_mem_charsTo_skipWhile _ c.position c.rest x hx
  split at passed
  · rw [beq_iff_eq.mp passed]
    rfl
  · exact passed

theorem readToken_stands (valid : Terminals) (c : Cursor) :
    ∀ t ∈ (readToken valid c).2, t.Stands (readToken valid c).1 := by
  rw [readToken]
  generalize skipWhile _ c.position c.rest = start
  split
  · intro t ht
    dsimp only at ht
    split at ht
    · obtain rfl := Option.some.inj ht
      exact ⟨.refl start, show Terminal.endOfText.isKeyword = false by decide, nofun, nofun,
        fun _ => start.charsTo_self⟩
    · cases ht
  · exact candidate_stands _ _ start

/-! ## layout symbols -/

namespace Layout

theorem skipChar_precedes (x : Char) (c : Cursor) : c.Precedes (skipChar x c) := by
  rw [skipChar]
  split
  · exact .next c
  · exact .refl c

theorem skipRawEscape_precedes (mark : Char) (c : Cursor) :
    c.Precedes (skipRawEscape mark c) := by
  have first : c.Precedes (if c.peek == some mark || c.peek == some '\\' then c.next else c) := by
    split
    · exact .next c
    · exact .refl c
  rw [skipRawEscape]
  generalize (if c.peek == some mark || c.peek == some '\\' then c.next else c) = d at first
  split
  · exact (first.trans (.next d)).trans (skipChar_precedes '\n' d.next)
  · exact first.trans (skipChar_precedes '\n' d)

/-- what reading the text of a string comes to stands behind `c` -/
def Content.Stands (c : Cursor) : Content → Prop
  | .found x d _ => c.Precedes d ∧ x.isLayout = true
  | .nothing => True
  | .ended d => c.Precedes d

theorem Content.Stands.of_precedes {c d : Cursor} (h : c.Precedes d) {x : Content}
    (hx : x.Stands d) : x.Stands c := by
  cases x with
  | found t e l => exact ⟨h.trans hx.1, hx.2⟩
  | nothing => trivial
  | ended e => exact h.trans hx

theorem quote_stands (l : Layout) (q : Quotes) (any : Bool) (c : Cursor) :
    (quote l q any c).Stands c := by
  have one : c.Precedes c.next := .next c
  have two : c.Precedes c.next.next := one.trans (.next _)
  have three : c.Precedes c.next.next.next := two.trans (.next _)
  rw [quote]
  dsimp only
  repeat' split
  · exact ⟨.refl c, rfl⟩
  · exact ⟨three, rfl⟩
  · exact ⟨two, rfl⟩
  · exact ⟨one, rfl⟩
  · exact ⟨.refl c, rfl⟩
  · exact ⟨one, rfl⟩

theorem content_stands (l : Layout) (q : Quotes) (left : List Char) (any : Bool) (c : Cursor) :
    (content l q left any c).Stands c := by
  induction left generalizing any c with
  | nil => exact .refl c
  | cons _ left ih =>
    have found : (Content.found .stringContent c l).Stands c := ⟨.refl c, rfl⟩
    have next := fun any => (ih any c.next).of_precedes (.next c)
    rw [content]
    split
    · exact .refl c
    · next x _ =>
      by_cases brace : ((x == '{' || x == '}') && q.format) = true
      · rw [if_pos brace]
        split
        · exact found
        · trivial
      · rw [if_neg brace]
        by_cases backslash : (x == '\\') = true
        · rw [if_pos backslash]
          split
          · exact (ih any _).of_precedes ((Cursor.Precedes.next c).trans
              (skipRawEscape_precedes q.mark c.next))
          · repeat' split
            · exact (ih true _).of_precedes
                (((Cursor.Precedes.next c).trans (.next _)).trans (.next _))
            all_goals first | exact found | trivial
        · rw [if_neg backslash]
          split
          · exact quote_stands l q any c
          · split
            · trivial
            · exact next true

theorem skipLine_precedes (left : List Char) (c : Cursor) : c.Precedes (skipLine left c) := by
  induction left generalizing c with
  | nil => exact .refl c
  | cons _ left ih =>
    rw [skipLine]
    split
    · exact .next c
    · exact .next c
    · exact (Cursor.Precedes.next c).trans (ih _)

theorem margin_precedes {comments : Bool} {left : List Char} {m m' : Margin}
    (h : margin comments left m = some m') : m.cursor.Precedes m'.cursor := by
  induction left generalizing m with
  | nil =>
    obtain rfl := Option.some.inj h
    exact .refl _
  | cons _ left ih =>
    have one : m.cursor.Precedes m.cursor.next := .next _
    rw [margin] at h
    dsimp only at h
    split at h
    · exact one.trans (ih h)
    · exact one.trans (ih h)
    · exact one.trans (ih h)
    · exact one.trans (ih h)
    · exact one.trans (ih h)
    · split at h
      · split at h
        · exact (skipLine_precedes _ m.cursor).trans (ih h)
        · cases h
      · obtain rfl := Option.some.inj h
        exact .refl _
    · split at h
      · exact ((one.trans (skipChar_precedes '\r' _)).trans (.next _)).trans (ih h)
      · cases h
    · obtain rfl := Option.some.inj h
      exact .refl _
    · obtain rfl := Option.some.inj h
      exact .refl _

theorem flags_precedes (left : List Char) (q : Quotes) (c : Cursor) :
    c.Precedes (flags left q c).2 := by
  induction left generalizing q c with
  | nil => exact .refl c
  | cons _ left ih =>
    have next := fun q => (Cursor.Precedes.next c).trans (ih q c.next)
    rw [flags]
    split
    all_goals first | exact next _ | exact .refl c

/-- a layout symbol that is found begins behind `c` and ends behind its beginning -/
structure Found.Stands (c : Cursor) (f : Found) : Prop where
  start : c.Precedes f.start
  stop : f.start.Precedes f.stop
  symbol : f.symbol.isLayout = true

theorem opening_stands (l : Layout) {c : Cursor} {f : Found} (h : opening l c = some f) :
    f.Stands c := by
  have flags := flags_precedes c.rest ⟨' ', false, false, false, false⟩ c
  rw [opening] at h
  generalize Layout.flags c.rest ⟨' ', false, false, false, false⟩ c = r at h flags
  have one : c.Precedes r.2.next := flags.trans (.next _)
  dsimp only at h
  split at h
  · obtain rfl := Option.some.inj h
    exact ⟨.refl c, one, rfl⟩
  · split at h
    · split at h
      · obtain rfl := Option.some.inj h
        exact ⟨.refl c, (one.trans (.next _)).trans (.next _), rfl⟩
      · obtain rfl := Option.some.inj h
        exact ⟨.refl c, one, rfl⟩
    · cases h
  · cases h

theorem lineSymbol_stands {valid : Terminals} {recovering : Bool} {l : Layout} {m : Margin}
    {start stop : Cursor} {f : Found} (h : lineSymbol valid recovering l m start stop = some f) :
    f.start = start ∧ f.stop = stop ∧ f.symbol.isLayout = true := by
  rw [lineSymbol] at h
  dsimp only at h
  split at h
  · next g hg =>
    obtain rfl := Option.some.inj h
    split at hg
    · cases hg
    · split at hg
      · obtain rfl := Option.some.inj hg
        exact ⟨rfl, rfl, rfl⟩
      · replace hg := (Option.ite_none_right_eq_some.mp hg).2
        obtain rfl := Option.some.inj hg
        exact ⟨rfl, rfl, rfl⟩
  · split at h
    · obtain rfl := Option.some.inj h
      exact ⟨rfl, rfl, rfl⟩
    · cases h

theorem scanMargin_stands {valid : Terminals} {recovering : Bool} {l : Layout} {origin c : Cursor}
    (here : origin.Precedes c) {f : Found} (h : scanMargin valid recovering l origin c = some f) :
    f.Stands origin := by
  rw [scanMargin] at h
  dsimp only at h
  split at h
  · cases h
  · next m hm =>
    have line : ∀ g, (if m.newline then lineSymbol valid recovering l m
        (if m.moved then c else origin) c else none) = some g → g.Stands origin := by
      intro g hg
      split at hg
      · obtain ⟨hstart, hstop, symbol⟩ := lineSymbol_stands hg
        split at hstart
        · exact ⟨hstart ▸ here, by rw [hstart, hstop]; exact .refl c, symbol⟩
        · exact ⟨hstart ▸ .refl origin, by rw [hstart, hstop]; exact here, symbol⟩
      · cases hg
    split at h
    · next g hg =>
      obtain rfl := Option.some.inj h
      exact line g hg
    · split at h
      · have found := opening_stands l h
        exact ⟨(here.trans (margin_precedes hm)).trans found.start, found.stop, found.symbol⟩
      · cases h

/-- **The layout scanner reads on**, and finds layout symbols only. -/
theorem scan_stands {valid : Terminals} {l : Layout} {c : Cursor} {f : Found}
    (h : scan valid l c = some f) : f.Stands c := by
  rw [scan] at h
  dsimp only at h
  split at h
  · exact scanMargin_stands (.refl c) h
  · next q _ _ =>
    split at h
    · split at h
      · obtain rfl := Option.some.inj h
        exact ⟨.refl c, (Cursor.Precedes.next c).trans (.next _), rfl⟩
      · cases h
    · split at h
      · have content := content_stands l q (' ' :: c.rest) false c
        split at h
        · next hc =>
          obtain rfl := Option.some.inj h
          rw [hc] at content
          exact ⟨.refl c, content.1, content.2⟩
        · cases h
        · next hc =>
          rw [hc] at content
          exact scanMargin_stands content h
      · exact scanMargin_stands (.refl c) h

end Layout

/-! ## tokens for the parser -/

/-- the layout symbols are spelled in many ways -/
theorem Terminal.isRead_of_isLayout {x : Terminal} (h : x.isLayout = true)
    (before start stop : Cursor) : x.IsRead before start stop := by
  have unspelled : x.spelling? = none ∧ x.pattern? = none := by
    cases x <;> first | exact ⟨rfl, rfl⟩ | cases h
  have word : ¬ x.isKeyword = true := by
    rw [isKeyword, unspelled.1]
    exact Bool.false_ne_true
  refine ⟨fun h => absurd h word, fun h' => ?_, fun s hs => ?_, fun p hp => ?_, fun ended => ?_⟩
  · cases h.symm.trans h'
  · cases unspelled.1.symm.trans hs
  · rw [asName, if_neg word, unspelled.2] at hp
    cases hp
  · rw [ended] at h
    cases h

namespace Token

/-- a token begins at the cursor at which it is read or behind it, ends behind its beginning, and is
spelled as it should be -/
structure Stands (t : Token) : Prop where
  start : t.before.Precedes t.start
  stop : t.start.Precedes t.stop
  read : ∀ x ∈ t.symbol, x.IsRead t.before t.start t.stop

/-- a keyword may be taken for a name -/
theorem Stands.asIdentifier {t : Token} (h : t.Stands) {x : Terminal} (hx : x ∈ t.symbol)
    (word : x.isKeyword = true) : ({ t with symbol := some .identifier } : Token).Stands := by
  refine ⟨h.start, h.stop, fun y hy => ?_⟩
  obtain rfl := Option.some.inj hy
  have read := h.read x hx
  have layout : x.isLayout = false := by
    cases x <;> first | rfl | exact absurd word (by decide)
  refine ⟨fun word => absurd word (by decide), fun _ => read.blank layout, nofun, fun p hp => ?_,
    nofun⟩
  refine read.pattern p ?_
  rw [Terminal.asName, if_pos word]
  exact hp

theorem skipMark_precedes (c : Cursor) : c.Precedes (skipMark c) := by
  rw [skipMark]
  split
  · exact .next c
  · exact .refl c

theorem skipMark_blank (c : Cursor) : ∀ x ∈ c.charsTo (skipMark c), isSeparator x = true := by
  rw [skipMark]
  split
  · next mark =>
    have peek := beq_iff_eq.mp (Bool.and_eq_true_iff.mp mark).2
    obtain ⟨position, rest⟩ := c
    cases rest with
    | nil => cases peek
    | cons x xs =>
      obtain rfl := Option.some.inj peek
      have one : Cursor.charsTo ⟨position, '\uFEFF' :: xs⟩
          (Cursor.next ⟨position, '\uFEFF' :: xs⟩) = ['\uFEFF'] := Cursor.charsTo_eq rfl
      rw [one]
      exact List.forall_mem_singleton.mpr rfl
  · rw [Cursor.charsTo_self]
    exact fun x hx => absurd hx List.not_mem_nil

theorem layoutSymbol_stands {valid : Terminals} {stuck : Bool} {layout : Option Layout}
    {c : Cursor} {f : Layout.Found} {changed : Bool}
    (h : layoutSymbol valid stuck layout c = some (f, changed)) : f.Stands c := by
  rw [layoutSymbol] at h
  split at h
  · cases h
  · next g hg =>
    have found := Layout.scan_stands hg
    dsimp only at h
    split at h
    · cases h
    · obtain rfl := congrArg Prod.fst (Option.some.inj h)
      exact ⟨(skipMark_precedes c).trans found.start, found.stop, found.symbol⟩

theorem stands_of_layout {c : Cursor} {f : Layout.Found} (h : f.Stands c) (changed : Bool) :
    ({ symbol := some f.symbol, before := c, start := f.start, stop := f.stop,
       layout := some f.layout, layoutChanged := changed } : Token).Stands := by
  refine ⟨h.start, h.stop, fun x hx => ?_⟩
  obtain rfl := Option.some.inj hx
  exact Terminal.isRead_of_isLayout h.symbol _ _ _

theorem asKeyword_cases (a : Automaton) (state : Nat) (start : Cursor) (x : Terminal) :
    asKeyword a state start x = x ∨ x = .identifier ∧
      keyword? (start.rest.takeWhile isIdentifierPart) = some (asKeyword a state start x) := by
  rw [asKeyword]
  split
  · next name =>
    split
    · next k hk =>
      split
      · exact .inr ⟨beq_iff_eq.mp name, hk⟩
      · exact .inl rfl
    · exact .inl rfl
  · exact .inl rfl

/-- a keyword is told by its spelling -/
theorem of_keyword? {w : List Char} {x : Terminal} (h : keyword? w = some x) :
    x.isKeyword = true ∧ ∃ s, x.spelling? = some s ∧ w = s.toList := by
  obtain ⟨front, back, split, -⟩ := List.lookup_eq_some_iff.mp h
  have mem : (w, x) ∈ keywords := split ▸ List.mem_append_right _ List.mem_cons_self
  obtain ⟨y, -, hy⟩ := List.mem_filterMap.mp mem
  split at hy
  · next s hs =>
    split at hy
    · next word =>
      obtain ⟨rfl, rfl⟩ := Prod.mk.inj (Option.some.inj hy)
      exact ⟨word, s, hs, rfl⟩
    · cases hy
  · cases hy

theorem isRead_of_candidate {c start : Cursor} {t : Candidate} (stands : t.Stands start)
    (blank : ∀ x ∈ c.charsTo start, isSeparator x = true) (a : Automaton) (state : Nat) :
    (asKeyword a state start t.symbol).IsRead c start t.stop := by
  obtain ⟨-, plain, spelled, pattern, ended⟩ := stands
  rcases asKeyword_cases a state start t.symbol with same | ⟨name, found⟩
  · rw [same]
    refine ⟨fun word => ?_, fun _ => blank, fun s hs _ => spelled s hs, fun p hp => pattern p ?_,
      ended⟩
    · cases plain.symm.trans word
    · rwa [Terminal.asName, plain, if_neg Bool.false_ne_true] at hp
  · have word := (of_keyword? found).1
    refine ⟨fun _ => found, fun _ => blank, fun s _ plain => ?_, fun p hp => pattern p ?_,
      fun ended => ?_⟩
    · cases word.symm.trans plain
    · rw [name]
      rwa [Terminal.asName, if_pos word] at hp
    · rw [ended] at word
      exact absurd word (by decide)

theorem stands_of_readToken {valid : Terminals} {c start : Cursor} {t : Candidate}
    (h : readToken valid (skipMark c) = (start, some t)) (a : Automaton) (state : Nat) :
    ({ symbol := some (asKeyword a state start t.symbol), before := c, start,
       stop := t.stop } : Token).Stands := by
  obtain ⟨here, blank⟩ := readToken_blank valid (skipMark c)
  have stands := readToken_stands valid (skipMark c)
  rw [h] at here blank stands
  have stands : t.Stands start := stands t rfl
  have mark := skipMark_precedes c
  refine ⟨mark.trans here, stands.stop, fun x hx => ?_⟩
  obtain rfl := Option.some.inj hx
  refine isRead_of_candidate stands (fun x hx => ?_) a state
  rw [mark.charsTo_append here] at hx
  exact (List.mem_append.mp hx).elim (skipMark_blank c x) (blank x)

theorem skipJunk_stands {layout : Option Layout} {before first : Cursor} {fuel : Nat} {c : Cursor}
    (hfirst : before.Precedes first) (hc : first.Precedes c) :
    (skipJunk layout before first fuel c).Stands := by
  induction fuel generalizing c with
  | zero => exact ⟨hfirst, hc, nofun⟩
  | succ fuel ih =>
    have junk : ({ symbol := none, before, start := first, stop := c } : Token).Stands :=
      ⟨hfirst, hc, nofun⟩
    rw [skipJunk]
    split
    · exact junk
    · split
      · exact junk
      · next start hread =>
        have here := (readToken_blank Automaton.errorTokens c).1
        rw [hread] at here
        split
        · exact ih (hc.trans here)
        · split
          · exact junk
          · exact ih (hc.trans (.next c))

theorem readAny_stands (a : Automaton) (state : Nat) (layout : Option Layout) (c : Cursor) :
    (readAny a state layout c).before = c ∧ (readAny a state layout c).Stands := by
  have before : ∀ first fuel d, (skipJunk layout c first fuel d).before = c := by
    intro first fuel
    induction fuel with
    | zero => exact fun _ => rfl
    | succ fuel ih =>
      intro d
      rw [skipJunk]
      repeat' split
      all_goals first | rfl | exact ih _
  rw [readAny]
  split
  · next f changed hf => exact ⟨rfl, stands_of_layout (layoutSymbol_stands hf) changed⟩
  · split
    · next start t hread => exact ⟨rfl, stands_of_readToken hread a state⟩
    · next start hread =>
      have here := (readToken_blank Automaton.errorTokens (skipMark c)).1
      rw [hread] at here
      exact ⟨before _ _ _, skipJunk_stands ((skipMark_precedes c).trans here) (.next start)⟩

/-- **Every token that is read stands behind the cursor at which it is read.** -/
theorem read_stands (a : Automaton) (state : Nat) (advanced : Bool) (layout : Option Layout)
    (c : Cursor) : (read a state advanced layout c).before = c ∧
      (read a state advanced layout c).Stands := by
  rw [read]
  split
  · exact readAny_stands a state layout c
  · dsimp only
    split
    · next f changed hf => exact ⟨rfl, stands_of_layout (layoutSymbol_stands hf) changed⟩
    · split
      · next start t hread => exact ⟨rfl, stands_of_readToken hread a state⟩
      · exact readAny_stands a state layout c

end Token

end Python
end AnnotationAudit
