import AnnotationAudit.Proofs.ShownPaths

/-!
# Shown paths lead back

Any bytes that begin with a slash spell a path, with slashes in a row, dots and slashes at its end.
However a path and the reader's directory are spelled, the bytes of which it is shown lead back to
it from there. What is shown is a text, and leads back if and only if these bytes are one.

* `Path.toBytes_ofBytes`      a path is written as it was read;
* `Path.ofBytes_relative`     what is left below a directory is read as it was written;
* `Path.filterMap_trimBack`, `Path.filterMap_dropSteps`  idle segments make no difference;
* `Path.exists_rest`          what is left of a path behind the steps of a directory;
* `Path.components_join_shownBytes`  joined to the directory, they take the steps of the path;
* `Path.isText_of_mem_ofString`  the segments of a text are texts;
* `Path.shown_leads_back`     so what is shown leads back, and tells the path, where it is a text,
  and nowhere else.
-/

namespace AnnotationAudit

theorem Text.mem_joinWith_of_mem {α : Type} (sep : α) {parts : List (List α)} {part : List α}
    {c : α} (hpart : part ∈ parts) (hc : c ∈ part) : c ∈ Text.joinWith sep parts := by
  induction parts with
  | nil => exact absurd hpart List.not_mem_nil
  | cons first parts ih =>
    cases parts with
    | nil => exact List.mem_singleton.mp hpart ▸ hc
    | cons next parts =>
      show c ∈ first ++ sep :: Text.joinWith sep (next :: parts)
      rcases List.mem_cons.mp hpart with rfl | hpart
      · exact List.mem_append_left _ hc
      · exact List.mem_append_right _ (List.mem_cons_of_mem _ (ih hpart))

namespace Path

/-! ## paths and their bytes -/

theorem ofBytes_cons (b : UInt8) (bs : Bytes) : ofBytes (b :: bs) =
    if b = Text.slash then ⟨true, Text.splitOn Text.slash bs⟩
    else ⟨false, Text.splitOn Text.slash (b :: bs)⟩ := rfl

theorem rooted_ofBytes_cons (b : UInt8) (bs : Bytes) :
    (ofBytes (b :: bs)).rooted = decide (b = Text.slash) := by
  rw [ofBytes_cons]
  split
  · next h => exact (decide_eq_true h).symm
  · next h => exact (decide_eq_false h).symm

/-- **A path is written as it was read.** -/
theorem toBytes_ofBytes (bs : Bytes) : (ofBytes bs).toBytes = bs := by
  cases bs with
  | nil => rfl
  | cons b bs =>
    rw [ofBytes_cons]
    split
    · next h =>
      rw [toBytes, if_pos rfl, Text.joinWith_splitOn, h]
    · rw [toBytes, if_neg Bool.false_ne_true, Text.joinWith_splitOn]

theorem toString_ofString (s : String) : (ofString s).toString = s := by
  rw [toString, ofString, toBytes_ofBytes, textOf_bytesOf]

theorem segments_ofBytes_subset (bs : Bytes) :
    (ofBytes bs).segments ⊆ Text.splitOn Text.slash bs := by
  cases bs with
  | nil => exact List.Subset.refl _
  | cons b bs =>
    rw [ofBytes_cons]
    split
    · next h =>
      rw [Text.splitOn, if_pos h]
      exact List.subset_cons_self _ _
    · exact List.Subset.refl _

theorem noSlash_ofBytes {bs segment : Bytes} (h : segment ∈ (ofBytes bs).segments) :
    Text.slash ∉ segment :=
  Text.notMem_of_mem_splitOn (segments_ofBytes_subset bs h)

/-- segments without slashes, the first of them not empty, are read as they were written -/
theorem ofBytes_relative {s : Bytes} {segments : List Bytes} (hs : s ≠ [])
    (noSlash : ∀ t ∈ s :: segments, Text.slash ∉ t) :
    ofBytes (⟨false, s :: segments⟩ : Path).toBytes = ⟨false, s :: segments⟩ := by
  have parts : Text.splitOn Text.slash (Text.joinWith Text.slash (s :: segments)) = s :: segments :=
    Text.splitOn_joinWith (List.cons_ne_nil _ _) noSlash
  obtain ⟨b, s, rfl⟩ := List.exists_cons_of_ne_nil hs
  obtain ⟨body, whole⟩ : ∃ body, Text.joinWith Text.slash ((b :: s) :: segments) = b :: body := by
    cases segments with
    | nil => exact ⟨_, rfl⟩
    | cons t segments => exact ⟨_, rfl⟩
  have other : b ≠ Text.slash := fun h => noSlash _ List.mem_cons_self (h ▸ List.mem_cons_self)
  show ofBytes (Text.joinWith Text.slash ((b :: s) :: segments)) = _
  rw [whole, ofBytes_cons, if_neg other, ← whole, parts]

/-! ## idle segments -/

theorem filterMap_dropWhile_isIdle (segments : List Bytes) :
    (segments.dropWhile isIdle).filterMap stepOf? = segments.filterMap stepOf? := by
  induction segments with
  | nil => rfl
  | cons s segments ih =>
    rw [List.dropWhile_cons]
    split
    · next idle => rw [ih, List.filterMap_cons_none (Option.isNone_iff_eq_none.mp idle)]
    · rfl

theorem filterMap_trimBack (segments : List Bytes) :
    (trimBack segments).filterMap stepOf? = segments.filterMap stepOf? := by
  rw [trimBack, List.filterMap_reverse, filterMap_dropWhile_isIdle, List.filterMap_reverse,
    List.reverse_reverse]

theorem filterMap_dropSteps (n : Nat) (segments : List Bytes) :
    (dropSteps n segments).filterMap stepOf? = (segments.filterMap stepOf?).drop n := by
  induction segments generalizing n with
  | nil => cases n <;> rfl
  | cons s segments ih =>
    cases n with
    | zero => rfl
    | succ n =>
      rw [dropSteps, isIdle]
      cases hs : stepOf? s with
      | none =>
        rw [List.filterMap_cons_none hs]
        exact ih (n + 1)
      | some step =>
        rw [List.filterMap_cons_some hs]
        exact ih n

theorem trimBack_sublist (segments : List Bytes) : (trimBack segments).Sublist segments := by
  rw [trimBack, ← List.reverse_sublist, List.reverse_reverse]
  exact List.dropWhile_sublist _

theorem dropSteps_sublist (n : Nat) (segments : List Bytes) :
    (dropSteps n segments).Sublist segments := by
  induction segments generalizing n with
  | nil => cases n <;> exact .refl _
  | cons s segments ih =>
    cases n with
    | zero => exact .refl _
    | succ n =>
      rw [dropSteps]
      split
      · exact (ih (n + 1)).cons s
      · exact (ih n).cons s

/-- what is left between idle segments at both ends begins with a segment that is not idle -/
theorem isIdle_of_trimmed {s : Bytes} {segments trimmed : List Bytes}
    (h : trimBack (segments.dropWhile isIdle) = s :: trimmed) : isIdle s = false := by
  have before : s :: trimmed <+: segments.dropWhile isIdle := by
    rw [← h, trimBack, ← List.reverse_suffix, List.reverse_reverse]
    exact List.dropWhile_suffix _
  obtain ⟨rest, hrest⟩ := before
  have first := List.head?_dropWhile_not isIdle segments
  rw [← hrest] at first
  simpa using first

/-! ## leading back -/

theorem components_join {p : Path} (hp : p.rooted = true) {q : Path} (hq : q.rooted = false) :
    (p.join q).components = p.components ++ q.segments.filterMap stepOf? := by
  rw [components_of_rooted ((p.rooted_join hq).trans hp), components_of_rooted hp,
    p.segments_join hq, List.cons_append]

/-- what is left of a path behind the steps of a directory: segments that take its other steps, and
that are read as they were written if there are any -/
theorem exists_rest {p base : Path} (hp : p.rooted = true) (hb : base.rooted = true)
    (noSlash : ∀ t ∈ p.segments, Text.slash ∉ t) (below : base.components <+: p.components) :
    ∃ rest : Path, p.relativeTo? base = some rest ∧ rest.rooted = false ∧
      rest.segments.Sublist p.segments ∧
      p.components = base.components ++ rest.segments.filterMap stepOf? ∧
      (rest.isEmpty = false → ofBytes rest.toBytes = rest) := by
  let rest := trimBack ((dropSteps (base.components.length - 1) p.segments).dropWhile isIdle)
  have sub : rest.Sublist p.segments :=
    ((trimBack_sublist _).trans (List.dropWhile_sublist _)).trans (dropSteps_sublist _ _)
  have steps := components_of_rooted hb
  refine ⟨⟨false, rest⟩, ?_, rfl, sub, ?_, fun some => ?_⟩
  · have ne : base.components.isEmpty = false := by rw [steps, List.isEmpty_cons]
    have head : p.head = (some .root, p.segments) := by rw [Path.head, if_pos hp]
    unfold relativeTo?
    dsimp only
    rw [ne, if_neg Bool.false_ne_true, if_pos (List.isPrefixOf_iff_prefix.mpr below), head]
    rfl
  · have behind : rest.filterMap stepOf? =
        (p.segments.filterMap stepOf?).drop (base.components.length - 1) := by
      rw [filterMap_trimBack, filterMap_dropWhile_isIdle, filterMap_dropSteps]
    obtain ⟨tail, htail⟩ := below
    rw [behind, ← htail]
    rw [components_of_rooted hp, steps, List.cons_append] at htail
    rw [← (List.cons.inj htail).2, steps, List.length_cons, Nat.add_sub_cancel, List.drop_left]
  · cases hrest : rest with
    | nil =>
      rw [hrest] at some
      cases some
    | cons t segments =>
      refine ofBytes_relative ?_ fun u hu => noSlash u (sub.subset (hrest ▸ hu))
      rintro rfl
      cases isIdle_of_trimmed hrest

/-- the two ways in which a path from the root is shown: as it is written, or by segments of it that
take its steps behind those of the reader's directory -/
theorem shownBytes_cases {p base : Path} (hp : p.rooted = true) (hb : base.rooted = true)
    (noSlash : ∀ t ∈ p.segments, Text.slash ∉ t) :
    base.shownBytes p = p.toBytes ∨ ∃ rest : Path, base.shownBytes p = rest.toBytes ∧
      rest.rooted = false ∧ rest.segments.Sublist p.segments ∧
      p.components = base.components ++ rest.segments.filterMap stepOf? ∧
      ofBytes rest.toBytes = rest := by
  by_cases below : base.components <+: p.components
  · obtain ⟨rest, left, relative, sub, steps, read⟩ := exists_rest hp hb noSlash below
    rw [shownBytes, left]
    dsimp only
    split
    · exact .inl rfl
    · next some =>
      exact .inr ⟨rest, rfl, relative, sub, steps, read (Bool.eq_false_iff.mpr some)⟩
  · have ne : base.components ≠ [] := by
      rw [components_of_rooted hb]
      exact List.cons_ne_nil _ _
    rw [shownBytes, relativeTo?_of_not_prefix ne below]
    exact .inl rfl

variable {base p q : Bytes}

/-- **Joined to the reader's directory, the bytes of which a path is shown take the steps of the
path.** -/
theorem components_join_shownBytes (hb : (ofBytes base).rooted = true)
    (hp : (ofBytes p).rooted = true) :
    ((ofBytes base).join (ofBytes ((ofBytes base).shownBytes (ofBytes p)))).components =
      (ofBytes p).components := by
  rcases shownBytes_cases hp hb fun t => noSlash_ofBytes with
    h | ⟨rest, h, relative, -, steps, read⟩ <;> rw [h]
  · rw [toBytes_ofBytes, join, if_pos hp]
  · rw [read, components_join hb relative, ← steps]

theorem notMem_shownBytes (hb : (ofBytes base).rooted = true) (hp : (ofBytes p).rooted = true)
    (plain : Text.backslash ∉ p) :
    Text.backslash ∉ (ofBytes base).shownBytes (ofBytes p) := by
  have segments : Location.IsPlain (ofBytes p).segments := by
    intro s hs mem
    refine plain ?_
    rw [← toBytes_ofBytes p, toBytes, if_pos hp]
    exact List.mem_cons_of_mem _ (Text.mem_joinWith_of_mem _ hs mem)
  rcases shownBytes_cases hp hb fun t => noSlash_ofBytes with h | ⟨rest, h, -, sub, -⟩ <;> rw [h]
  · rw [toBytes_ofBytes]
    exact plain
  · exact Location.notMem_toBytes (fun s hs => segments s (sub.subset hs)) rest.rooted

end Path

/-! ## the bytes of texts -/

namespace Text

/-- only the slash is written with the byte of the slash -/
theorem eq_of_slash_mem {c : Char} (h : slash ∈ String.utf8EncodeChar c) : c = '/' := by
  have small : c.val.toNat < 1114112 := by
    rcases c.valid with h | ⟨-, h⟩
    · exact Nat.lt_trans h (by decide)
    · exact h
  have same : c.val.toNat = 47 := by
    have code {n : Nat} (hn : n < 256) (h : slash = UInt8.ofNat n) : n = 47 := by
      rw [← UInt8.toNat_ofNat_of_lt' hn, ← h]
      rfl
    unfold String.utf8EncodeChar at h
    dsimp only at h
    generalize c.val.toNat = n at h small ⊢
    split_ifs at h <;> simp only [List.mem_cons, List.not_mem_nil, or_false] at h
    · exact code (by omega) h
    · rcases h with h | h <;> have := code (by omega) h <;> omega
    · rcases h with h | h | h <;> have := code (by omega) h <;> omega
    · rcases h with h | h | h | h <;> have := code (by omega) h <;> omega
  exact Char.ext (UInt32.toNat_inj.mp same)

/-- the bytes of a character begin with that of the slash just if the character is one -/
theorem exists_utf8EncodeChar (c : Char) :
    ∃ b bs, String.utf8EncodeChar c = b :: bs ∧ (b = slash ↔ c = '/') := by
  cases h : String.utf8EncodeChar c with
  | nil => exact absurd h String.utf8EncodeChar_ne_nil
  | cons b bs =>
    refine ⟨b, bs, rfl, fun hb => eq_of_slash_mem (h ▸ hb ▸ List.mem_cons_self), ?_⟩
    rintro rfl
    exact (List.cons.inj h).1.symm

theorem splitOn_prepend {sep : UInt8} {bs : Bytes} (h : sep ∉ bs) {cs part : Bytes}
    {parts : List Bytes} (split : splitOn sep cs = part :: parts) :
    splitOn sep (bs ++ cs) = (bs ++ part) :: parts := by
  induction bs with
  | nil => exact split
  | cons b bs ih =>
    obtain ⟨hb, hbs⟩ := not_or.mp (mt List.mem_cons.mpr h)
    rw [List.cons_append, splitOn, if_neg (Ne.symm hb), ih hbs]
    rfl

/-- a text is split at its slashes as its bytes are -/
theorem splitOn_flatMap (cs : List Char) :
    splitOn slash (cs.flatMap String.utf8EncodeChar) =
      (splitOn '/' cs).map fun part => part.flatMap String.utf8EncodeChar := by
  induction cs with
  | nil => rfl
  | cons c cs ih =>
    rw [List.flatMap_cons, splitOn]
    by_cases hc : c = '/'
    · subst hc
      have bytes : String.utf8EncodeChar '/' = [slash] := by decide
      rw [if_pos rfl, List.map_cons, ← ih, bytes]
      rfl
    · rw [if_neg hc]
      cases hs : splitOn '/' cs with
      | nil => exact absurd hs (splitOn_ne_nil '/' cs)
      | cons part parts =>
        rw [hs, List.map_cons] at ih
        exact splitOn_prepend (mt eq_of_slash_mem hc) ih

end Text

namespace Path

theorem isText_of_mem_ofString {s : String} {segment : Bytes}
    (h : segment ∈ (ofString s).segments) : isText segment = true := by
  have part := segments_ofBytes_subset _ h
  rw [bytesOf_eq, Text.splitOn_flatMap] at part
  obtain ⟨cs, -, rfl⟩ := List.mem_map.mp part
  exact isText_iff.mpr ⟨String.ofList cs, (bytesOf_ofList cs).symm⟩

theorem rooted_ofString_cons (c : Char) (cs : List Char) :
    (ofString (String.ofList (c :: cs))).rooted = decide (c = '/') := by
  obtain ⟨b, bs, hc, slash⟩ := Text.exists_utf8EncodeChar c
  rw [ofString, bytesOf_ofList, List.flatMap_cons, hc, List.cons_append, rooted_ofBytes_cons]
  exact decide_eq_decide.mpr slash

/-- the mark of what is no character does not make a path begin with a slash -/
theorem rooted_textOf (bs : Bytes) : (ofString (textOf bs)).rooted = (ofBytes bs).rooted := by
  cases bs with
  | nil => rfl
  | cons b bs =>
    rw [textOf, Text.charsFrom, rooted_ofBytes_cons]
    split
    · next c read =>
      obtain ⟨rest, whole⟩ := Text.eq_append_of_char? read
      obtain ⟨d, ds, hc, slash⟩ := Text.exists_utf8EncodeChar c
      rw [hc] at whole
      obtain rfl : b = d := (List.cons.inj whole).1
      rw [rooted_ofString_cons]
      exact decide_eq_decide.mpr slash.symm
    · next none =>
      have other : b ≠ Text.slash := by
        rintro rfl
        have some := Text.char?_append '/' bs
        rw [show String.utf8EncodeChar '/' ++ bs = Text.slash :: bs from rfl, none] at some
        cases some
      rw [rooted_ofString_cons, decide_eq_false other]
      rfl

theorem eq_of_step {s t : Bytes} {step : Component} (hs : stepOf? s = some step)
    (ht : stepOf? t = some step) : s = t := by
  have up {u : Bytes} (hu : stepOf? u = some .up) : u = [Text.dot, Text.dot] := by
    unfold stepOf? at hu
    split at hu
    · cases hu
    · split at hu
      · assumption
      · cases hu
  cases step with
  | root => exact absurd hs (stepOf?_ne_root s)
  | here => exact absurd hs (stepOf?_ne_here s)
  | up => exact (up hs).trans (up ht).symm
  | name n => exact (eq_of_stepOf? hs).trans (eq_of_stepOf? ht).symm

/-- segments that take the steps of texts are texts -/
theorem isText_of_steps {segments others : List Bytes}
    (h : segments.filterMap stepOf? = others.filterMap stepOf?)
    (text : ∀ s ∈ others, isText s = true) : ∀ s ∈ segments, isText s = true := by
  intro s hs
  cases step : stepOf? s with
  | none =>
    rcases idle_cases step with rfl | rfl
    · exact isText_nil
    · exact isText_iff.mpr ⟨".", by decide⟩
  | some c =>
    obtain ⟨t, ht, same⟩ := List.mem_filterMap.mp (h ▸ List.mem_filterMap.mpr ⟨s, hs, step⟩)
    exact eq_of_step step same ▸ text t ht

/-! ## what is shown leads back -/

variable {base p : Bytes}

/-- what leads back takes the steps of a text, so the bytes that are shown are one -/
theorem isText_of_leads_back (hb : (ofBytes base).rooted = true) (hp : (ofBytes p).rooted = true)
    (back : ((ofBytes base).join
        (ofString (textOf ((ofBytes base).shownBytes (ofBytes p))))).components =
      (ofBytes p).components) :
    isText ((ofBytes base).shownBytes (ofBytes p)) = true := by
  have texts (bs : Bytes) : ∀ s ∈ (ofString (textOf bs)).segments, isText s = true :=
    fun s => isText_of_mem_ofString
  have rooted := rooted_textOf ((ofBytes base).shownBytes (ofBytes p))
  rcases shownBytes_cases hp hb fun t => noSlash_ofBytes with
    h | ⟨rest, h, relative, -, steps, read⟩ <;> rw [h] at back rooted ⊢
  · rw [toBytes_ofBytes] at back rooted ⊢
    have from_root := rooted.trans hp
    rw [join, if_pos from_root, components_of_rooted from_root, components_of_rooted hp] at back
    have segments := isText_of_steps (List.cons.inj back).2.symm (texts p)
    rw [← toBytes_ofBytes p, show ofBytes p = ⟨true, (ofBytes p).segments⟩ from hp ▸ rfl]
    exact Location.isText_toBytes segments true
  · rw [read, relative] at rooted
    rw [components_join hb rooted, steps] at back
    have segments := isText_of_steps (List.append_cancel_left back).symm (texts rest.toBytes)
    exact Location.isText_toBytes segments rest.rooted

/-- **Joined to the reader's directory, what is shown of a path leads back to it if and only if the
bytes that are shown are a text**, however both are spelled, if no name holds a backslash. So among
such paths it tells the path. -/
theorem shown_leads_back (hb : (ofBytes base).rooted = true) (hp : (ofBytes p).rooted = true)
    (plain : Text.backslash ∉ p) :
    (((ofBytes base).join (ofString ((ofBytes base).shown (ofBytes p)))).components =
        (ofBytes p).components ↔ isText ((ofBytes base).shownBytes (ofBytes p)) = true) ∧
      ∀ q : Bytes, (ofBytes q).rooted = true → Text.backslash ∉ q →
        isText ((ofBytes base).shownBytes (ofBytes p)) = true →
        isText ((ofBytes base).shownBytes (ofBytes q)) = true →
        (ofBytes base).shown (ofBytes p) = (ofBytes base).shown (ofBytes q) →
          (ofBytes p).components = (ofBytes q).components := by
  rw [shown_eq (notMem_shownBytes hb hp plain)]
  refine ⟨⟨isText_of_leads_back hb hp, fun text => ?_⟩, fun q hq plain' text text' same => ?_⟩
  · rw [ofString, bytesOf_textOf text, components_join_shownBytes hb hp]
  · rw [shown_eq (notMem_shownBytes hb hq plain')] at same
    rw [← components_join_shownBytes hb hp, textOf_inj text text' same,
      components_join_shownBytes hb hq]

/-- a directory and two spellings of one path below it, all with idle segments -/
theorem shown_leads_back_respelled :
    let base := ofString "//w/./x/"
    let p := ofString "/w//x/../a/./b/."
    let q := ofString "/w/x/.//../a/./b"
    (base.rooted = true ∧ p.rooted = true ∧ q.rooted = true ∧ base.shown p = base.shown q) ∧
      (base.join (ofString (base.shown p))).components = p.components ∧
        p.components = q.components := by
  have respelled := @shown_leads_back (bytesOf "//w/./x/") (bytesOf "/w//x/../a/./b/.")
    (by decide +kernel) (by decide +kernel) (by decide +kernel)
  have text : isText ((ofString "//w/./x/").shownBytes (ofString "/w//x/../a/./b/.")) = true := by
    decide +kernel
  exact ⟨⟨by decide +kernel, by decide +kernel, by decide +kernel, by decide +kernel⟩,
    respelled.1.mpr text, respelled.2 (bytesOf "/w/x/.//../a/./b") (by decide +kernel)
      (by decide +kernel) text (by decide +kernel) (by decide +kernel)⟩

/-- a name that begins with a byte of no text is shown with the mark, as the name is that begins
with the mark itself, and leads to that one -/
theorem shown_with_mark :
    let base := ofString "/w"
    let p := ofBytes (bytesOf "/w/" ++ 0xFF :: bytesOf ".py")
    let q := ofString "/w/\uFFFD.py"
    (base.rooted = true ∧ p.rooted = true ∧ q.rooted = true) ∧
      (Text.backslash ∉ p.toBytes ∧ Text.backslash ∉ q.toBytes) ∧
      base.shown p = base.shown q ∧ p.components ≠ q.components ∧
        (base.join (ofString (base.shown p))).components ≠ p.components := by
  decide +kernel

end Path
end AnnotationAudit
