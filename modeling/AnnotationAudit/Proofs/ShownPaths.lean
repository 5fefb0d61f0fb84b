import AnnotationAudit.Proofs.Locations

/-!
# Shown paths

A path is shown as it is written, or as what is left of it below the reader's directory. Different
locations are written differently there. What is shown is a text, though: where the names are texts
and hold no backslash, it tells which location it is.

* `Text.splitOn_joinWith`         joining and then splitting gives the parts back;
* `Text.mem_charsFrom`            the characters that bytes are shown as are made of the bytes;
* `Path.shownBytes`               the bytes of which a path is shown;
* `Location.IsPlain`, `Location.IsText`  no name of the location holds a backslash; all are texts;
* `Location.shownBytes_cases`     the two ways in which a location is shown;
* `Location.shownBytes_inj`       different locations are shown by different bytes;
* `Location.shown_inj`            and never alike, if their names are plain texts.
-/

namespace AnnotationAudit

/-! ## splitting what was joined -/

namespace Text

section

variable {α : Type} {sep : α}

theorem mem_joinWith {parts : List (List α)} {c : α} (h : c ∈ joinWith sep parts) :
    c = sep ∨ ∃ part ∈ parts, c ∈ part := by
  induction parts with
  | nil => exact absurd h List.not_mem_nil
  | cons part parts ih =>
    cases parts with
    | nil => exact .inr ⟨part, List.mem_cons_self, h⟩
    | cons next parts =>
      have h : c ∈ part ++ sep :: joinWith sep (next :: parts) := h
      rcases List.mem_append.mp h with h | h
      · exact .inr ⟨part, List.mem_cons_self, h⟩
      · rcases List.mem_cons.mp h with h | h
        · exact .inl h
        · refine (ih h).imp_right fun ⟨q, hq, hc⟩ => ⟨q, List.mem_cons_of_mem part hq, hc⟩

variable [DecidableEq α]

theorem splitOn_of_notMem {part : List α} (h : sep ∉ part) : splitOn sep part = [part] := by
  induction part with
  | nil => rfl
  | cons c cs ih =>
    obtain ⟨hc, hcs⟩ := not_or.mp (mt List.mem_cons.mpr h)
    rw [splitOn, if_neg (Ne.symm hc), ih hcs]

theorem splitOn_append {part : List α} (h : sep ∉ part) (cs : List α) :
    splitOn sep (part ++ sep :: cs) = part :: splitOn sep cs := by
  induction part with
  | nil => exact if_pos rfl
  | cons c part ih =>
    obtain ⟨hc, hpart⟩ := not_or.mp (mt List.mem_cons.mpr h)
    rw [List.cons_append, splitOn, if_neg (Ne.symm hc), ih hpart]

theorem splitOn_joinWith {parts : List (List α)} (hne : parts ≠ [])
    (h : ∀ part ∈ parts, sep ∉ part) : splitOn sep (joinWith sep parts) = parts := by
  induction parts with
  | nil => exact absurd rfl hne
  | cons part parts ih =>
    obtain ⟨hpart, hparts⟩ := List.forall_mem_cons.mp h
    cases parts with
    | nil => exact splitOn_of_notMem hpart
    | cons next parts =>
      show splitOn sep (part ++ sep :: joinWith sep (next :: parts)) = _
      rw [splitOn_append hpart, ih (List.cons_ne_nil next parts) hparts]

theorem notMem_of_mem_splitOn {cs part : List α} (h : part ∈ splitOn sep cs) : sep ∉ part := by
  induction cs generalizing part with
  | nil =>
    rw [List.mem_singleton.mp h]
    exact List.not_mem_nil
  | cons c cs ih =>
    rw [splitOn] at h
    split at h
    · rcases List.mem_cons.mp h with rfl | h
      · exact List.not_mem_nil
      · exact ih h
    · next hc =>
      cases hs : splitOn sep cs with
      | nil => exact absurd hs (splitOn_ne_nil sep cs)
      | cons first parts =>
        rw [hs] at h ih
        rcases List.mem_cons.mp h with rfl | h
        · exact List.not_mem_cons_of_ne_of_not_mem (Ne.symm hc) (ih List.mem_cons_self)
        · exact ih (List.mem_cons_of_mem _ h)

end

/-! ## characters and their bytes -/

theorem eq_append_of_char? {bs : Bytes} {c : Char} (h : char? bs = some c) :
    ∃ rest, bs = String.utf8EncodeChar c ++ rest := by
  obtain ⟨behind, whole⟩ := ByteArray.exists_of_utf8DecodeChar?_eq_some h
  have first := congrArg (fun b : ByteArray => b.data.toList) whole
  rw [ByteArray.data_append, Array.toList_append, List.toList_data_toByteArray,
    List.toList_data_toByteArray] at first
  refine ⟨behind.data.toList ++ bs.drop 4, ?_⟩
  rw [← List.append_assoc, ← first, List.take_append_drop]

/-- a character among those that bytes are shown as is the mark of what is none, or its bytes are
there -/
theorem mem_charsFrom {n : Nat} {bs : Bytes} {c : Char} (h : c ∈ charsFrom n bs) :
    c = replacement ∨ ∀ b ∈ String.utf8EncodeChar c, b ∈ bs := by
  fun_induction charsFrom n bs with
  | case1 => exact absurd h List.not_mem_nil
  | case2 n b bs ih => exact (ih h).imp_right fun all b hb => List.mem_cons_of_mem _ (all b hb)
  | case3 b bs d read ih =>
    rcases List.mem_cons.mp h with rfl | h
    · obtain ⟨rest, whole⟩ := eq_append_of_char? read
      exact .inr fun b hb => whole ▸ List.mem_append_left rest hb
    · exact (ih h).imp_right fun all b hb => List.mem_cons_of_mem _ (all b hb)
  | case4 b bs _ ih =>
    rcases List.mem_cons.mp h with rfl | h
    · exact .inl rfl
    · exact (ih h).imp_right fun all b hb => List.mem_cons_of_mem _ (all b hb)

theorem replaceChar_of_notMem {x y : Char} {s : String} (h : x ∉ s.toList) :
    replaceChar x y s = s := by
  have same : (s.toList.map fun c => if c = x then y else c) = s.toList.map id :=
    List.map_congr_left fun c hc => if_neg fun (hcx : c = x) => h (hcx ▸ hc)
  rw [replaceChar, same, List.map_id, String.ofList_toList]

theorem notMem_textOf {bs : Bytes} (h : backslash ∉ bs) : '\\' ∉ (textOf bs).toList := by
  intro mem
  rw [textOf, String.toList_ofList] at mem
  rcases mem_charsFrom mem with mark | all
  · exact absurd mark (by decide)
  · exact h (all backslash (by decide))

end Text

theorem isText_nil : isText [] = true := rfl

theorem isText_slash : isText [Text.slash] = true := isText_iff.mpr ⟨"/", by decide⟩

theorem isText_append {xs ys : Bytes} (hx : isText xs = true) (hy : isText ys = true) :
    isText (xs ++ ys) = true := by
  obtain ⟨s, rfl⟩ := isText_iff.mp hx
  obtain ⟨t, rfl⟩ := isText_iff.mp hy
  exact isText_iff.mpr ⟨s ++ t, (bytesOf_append s t).symm⟩

/-- texts with slashes between them are a text -/
theorem isText_joinWith {parts : List Bytes} (h : ∀ part ∈ parts, isText part = true) :
    isText (Text.joinWith Text.slash parts) = true := by
  induction parts with
  | nil => exact isText_nil
  | cons part parts ih =>
    obtain ⟨hpart, hparts⟩ := List.forall_mem_cons.mp h
    cases parts with
    | nil => exact hpart
    | cons next parts =>
      show isText (part ++ ([Text.slash] ++ Text.joinWith Text.slash (next :: parts))) = true
      exact isText_append hpart (isText_append isText_slash (ih hparts))

/-- the bytes of which a path is shown: what is left of it below `base`, if that is something, else
all of it -/
def Path.shownBytes (base p : Path) : Bytes :=
  match p.relativeTo? base with
  | some rest => if rest.isEmpty then p.toBytes else rest.toBytes
  | none => p.toBytes

/-- without backslashes, these bytes are shown as they are -/
theorem Path.shown_eq {base p : Path} (h : Text.backslash ∉ base.shownBytes p) :
    base.shown p = textOf (base.shownBytes p) := by
  unfold shownBytes at h
  unfold shown shownBytes
  cases left : p.relativeTo? base with
  | none => rfl
  | some rest =>
    rw [left] at h
    dsimp only at h ⊢
    split
    · rfl
    · next some =>
      rw [if_neg some] at h
      exact Text.replaceChar_of_notMem (Text.notMem_textOf h)

namespace Location

/-- no name of the location holds a backslash -/
def IsPlain (l : Location) : Prop := ∀ s ∈ l, Text.backslash ∉ s

/-- all names of the location are texts -/
def IsText (l : Location) : Prop := ∀ s ∈ l, isText s = true

variable {l m : Location}

/-! ## the bytes of a location -/

/-- names joined by slashes tell the names -/
theorem joinWith_inj (hl : l.IsNamed) (hm : m.IsNamed)
    (h : Text.joinWith Text.slash l = Text.joinWith Text.slash m) : l = m := by
  have nothing {k : Location} (hk : k.IsNamed) (h : Text.joinWith Text.slash k = []) : k = [] := by
    have bytes : (⟨false, k⟩ : Path).isEmpty = true := List.isEmpty_iff.mpr h
    rwa [isEmpty_relative hk, List.isEmpty_iff] at bytes
  rcases eq_or_ne l [] with rfl | hln
  · exact (nothing hm h.symm).symm
  · rcases eq_or_ne m [] with rfl | hmn
    · exact nothing hl h
    · have parts := congrArg (Text.splitOn Text.slash) h
      rwa [Text.splitOn_joinWith hln fun s hs => (hl s hs).noSlash,
        Text.splitOn_joinWith hmn fun s hs => (hm s hs).noSlash] at parts

theorem toBytes_path_inj (hl : l.IsNamed) (hm : m.IsNamed)
    (h : l.path.toBytes = m.path.toBytes) : l = m :=
  joinWith_inj hl hm (List.cons.inj h).2

/-- what is left below a directory does not begin with a slash, as the bytes of a location do -/
theorem toBytes_path_ne (hm : m.IsNamed) (l : Location) :
    l.path.toBytes ≠ (⟨false, m⟩ : Path).toBytes := by
  intro h
  cases m with
  | nil => cases h
  | cons s m =>
    have hs := hm s List.mem_cons_self
    obtain ⟨b, bs, rfl⟩ := List.exists_cons_of_ne_nil hs.ne_nil
    have first : b = Text.slash := by
      cases m with
      | nil => exact (List.cons.inj h).1.symm
      | cons t m => exact (List.cons.inj h).1.symm
    exact hs.noSlash (first ▸ List.mem_cons_self)

theorem components_inj (hl : l.IsNamed) (hm : m.IsNamed)
    (h : l.path.components = m.path.components) : l = m := by
  rw [components_path hl, components_path hm] at h
  exact List.map_injective_iff.mpr (fun _ _ => Path.Component.name.inj) (List.cons.inj h).2

theorem notMem_toBytes (hl : l.IsPlain) (rooted : Bool) :
    Text.backslash ∉ (⟨rooted, l⟩ : Path).toBytes := by
  have body : Text.backslash ∉ Text.joinWith Text.slash l := by
    intro h
    rcases Text.mem_joinWith h with h | ⟨s, hs, h⟩
    · exact absurd h (by decide)
    · exact hl s hs h
  cases rooted with
  | false => exact body
  | true => exact List.not_mem_cons_of_ne_of_not_mem (by decide) body

theorem isText_toBytes (hl : l.IsText) (rooted : Bool) :
    AnnotationAudit.isText (⟨rooted, l⟩ : Path).toBytes = true := by
  have body := isText_joinWith hl
  cases rooted with
  | false => exact body
  | true =>
    show AnnotationAudit.isText ([Text.slash] ++ Text.joinWith Text.slash l) = true
    exact isText_append isText_slash body

/-! ## how a location is shown -/

/-- a location is shown as it is written, or as what is left behind the names of the reader's
directory -/
theorem shownBytes_cases (hl : l.IsNamed) (base : Path) :
    base.shownBytes l.path = l.path.toBytes ∨ ∃ d m : Location, l = d ++ m ∧
      d.path.components = base.components ∧
        base.shownBytes l.path = (⟨false, m⟩ : Path).toBytes := by
  by_cases hb : base.components = []
  · left
    have rest : l.path.relativeTo? base = some l.path := by
      unfold Path.relativeTo?
      rw [hb]
      show some (⟨true, Path.trimBack l⟩ : Path) = _
      rw [trimBack_eq hl]
      rfl
    rw [Path.shownBytes, rest]
    exact ite_self _
  · by_cases below : base.components <+: l.path.components
    · obtain ⟨d, hd, steps⟩ : ∃ d : Location, d <+: l ∧ base.components = d.path.components := by
        rw [components_path hl] at below
        obtain hnil | ⟨steps, hsteps, hprefix⟩ := List.prefix_cons_iff.mp below
        · exact absurd hnil hb
        · obtain ⟨d, hd, rfl⟩ := List.prefix_map_iff.mp hprefix
          exact ⟨d, hd, hsteps.trans (components_path (hl.mono hd)).symm⟩
      obtain ⟨m, rfl⟩ := hd
      have rest : (Location.path (d ++ m)).relativeTo? base = some ⟨false, m⟩ :=
        (Path.relativeTo?_congr _ steps).trans (relativeTo?_path_append hl)
      rw [Path.shownBytes, rest]
      dsimp only
      split
      · exact .inl rfl
      · exact .inr ⟨d, m, rfl, steps.symm, rfl⟩
    · left
      rw [Path.shownBytes, Path.relativeTo?_of_not_prefix hb below]

/-- **Different locations are shown by different bytes**, whatever the reader's directory is. -/
theorem shownBytes_inj (hl : l.IsNamed) (hm : m.IsNamed) {base : Path}
    (h : base.shownBytes l.path = base.shownBytes m.path) : l = m := by
  rcases shownBytes_cases hl base with hx | ⟨d, r, rfl, hd, hx⟩ <;>
    rcases shownBytes_cases hm base with hy | ⟨e, q, rfl, he, hy⟩ <;> rw [hx, hy] at h
  · exact toBytes_path_inj hl hm h
  · exact absurd h (toBytes_path_ne (isNamed_append.mp hm).2 l)
  · exact absurd h.symm (toBytes_path_ne (isNamed_append.mp hl).2 m)
  · obtain ⟨hd', hr⟩ := isNamed_append.mp hl
    obtain ⟨he', hq⟩ := isNamed_append.mp hm
    rw [components_inj hd' he' (hd.trans he.symm), joinWith_inj hr hq h]

theorem notMem_shownBytes (hl : l.IsNamed) (plain : l.IsPlain) (base : Path) :
    Text.backslash ∉ base.shownBytes l.path := by
  rcases shownBytes_cases hl base with h | ⟨d, m, rfl, -, h⟩ <;> rw [h]
  · exact notMem_toBytes plain true
  · exact notMem_toBytes (fun s hs => plain s (List.mem_append_right d hs)) false

theorem isText_shownBytes (hl : l.IsNamed) (text : l.IsText) (base : Path) :
    AnnotationAudit.isText (base.shownBytes l.path) = true := by
  rcases shownBytes_cases hl base with h | ⟨d, m, rfl, -, h⟩ <;> rw [h]
  · exact isText_toBytes text true
  · exact isText_toBytes (fun s hs => text s (List.mem_append_right d hs)) false

/-- **Different locations are never shown alike**, if their names are texts without backslashes. -/
theorem shown_inj (hl : l.IsNamed) (hm : m.IsNamed) (pl : l.IsPlain) (pm : m.IsPlain)
    (tl : l.IsText) (tm : m.IsText) {base : Path} (h : base.shown l.path = base.shown m.path) :
    l = m := by
  rw [Path.shown_eq (notMem_shownBytes hl pl base),
    Path.shown_eq (notMem_shownBytes hm pm base)] at h
  exact shownBytes_inj hl hm
    (textOf_inj (isText_shownBytes hl tl base) (isText_shownBytes hm tm base) h)

end Location

end AnnotationAudit
