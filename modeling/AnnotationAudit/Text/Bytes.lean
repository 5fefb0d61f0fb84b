/-!
# Bytes and texts

* `bytesOf`              the bytes of a text;
* `textOf`               the text that bytes are shown as;
* `textOf_bytesOf`       the bytes of a text are shown as the text;
* `isText_iff`           bytes are a text if they are the bytes of one;
* `text?`                the text that bytes are, if they are one;
* `bytesOf_ofList`, `bytesOf_append`  the bytes of a text are those of its characters, in order.

Not all bytes are a text. Where a character is begun and not completed, and where a byte begins
none, a mark is shown in the place of the bytes that are of no use.
-/

namespace AnnotationAudit

abbrev Bytes := List UInt8

def bytesOf (s : String) : Bytes := s.toUTF8.data.toList

instance : Coe String Bytes := ⟨bytesOf⟩

namespace Text

def slash : UInt8 := 47

def backslash : UInt8 := 92

def dot : UInt8 := 46

def dash : UInt8 := 45

def equals : UInt8 := 61

/-! ## reading bytes -/

/-- the character at the beginning of bytes -/
def char? (bs : Bytes) : Option Char := (bs.take 4).toByteArray.utf8DecodeChar? 0

/-- the number of bytes behind the first byte of a character; none follow a byte that begins none -/
def followers (b : UInt8) : Nat :=
  if b < 0xC2 then 0
  else if b < 0xE0 then 1
  else if b < 0xF0 then 2
  else if b < 0xF5 then 3
  else 0

def goesOn (b : UInt8) : Bool := 0x80 ≤ b && b < 0xC0

/-- can the second byte of a character stand behind the first? Some first bytes leave only a part of
the bytes that go on with a character: the others would make characters that can be written with
fewer bytes, that are too large, or that are halves of pairs. -/
def isSecond (first b : UInt8) : Bool :=
  goesOn b && (first != 0xE0 || 0xA0 ≤ b) && (first != 0xED || b < 0xA0) &&
    (first != 0xF0 || 0x90 ≤ b) && (first != 0xF4 || b < 0x90)

/-- the number of bytes behind the first one of a character that is not completed -/
def wasted (first : UInt8) : Bytes → Nat
  | [] => 0
  | b :: bs =>
    if followers first = 0 || !isSecond first b then 0
    else 1 + ((bs.take (followers first - 1)).takeWhile goesOn).length

/-- the mark in the place of bytes that are no character -/
def replacement : Char := '\uFFFD'

/-- the characters that bytes are shown as; some of the bytes have been read with the ones before -/
def charsFrom : Nat → Bytes → List Char
  | _, [] => []
  | n + 1, _ :: bs => charsFrom n bs
  | 0, b :: bs =>
    match char? (b :: bs) with
    | some c => c :: charsFrom (c.utf8Size - 1) bs
    | none => replacement :: charsFrom (wasted b bs) bs

end Text

/-- the text that bytes are shown as -/
def textOf (bs : Bytes) : String := String.ofList (Text.charsFrom 0 bs)

/-- are bytes those of a text? -/
def isText (bs : Bytes) : Bool := bytesOf (textOf bs) == bs

def text? (bs : Bytes) : Option String := if isText bs then some (textOf bs) else none

/-! ## texts as bytes -/

theorem bytesOf_ofList (cs : List Char) :
    bytesOf (String.ofList cs) = cs.flatMap String.utf8EncodeChar := by
  unfold bytesOf String.toUTF8
  rw [String.toByteArray_ofList]
  exact List.toList_data_toByteArray

theorem bytesOf_eq (s : String) : bytesOf s = s.toList.flatMap String.utf8EncodeChar := by
  rw [← bytesOf_ofList, String.ofList_toList]

theorem bytesOf_append (s t : String) : bytesOf (s ++ t) = bytesOf s ++ bytesOf t := by
  rw [bytesOf_eq, bytesOf_eq, bytesOf_eq, String.toList_append, List.flatMap_append]

namespace Text

theorem char?_append (c : Char) (bs : Bytes) :
    char? (String.utf8EncodeChar c ++ bs) = some c := by
  have whole : (String.utf8EncodeChar c).take 4 = String.utf8EncodeChar c :=
    List.take_of_length_le (String.length_utf8EncodeChar c ▸ c.utf8Size_le_four)
  rw [char?, List.take_append, whole, List.toByteArray_append]
  exact ByteArray.utf8DecodeChar?_utf8EncodeChar_append

/-- bytes that have been read already are passed by -/
theorem charsFrom_append (read bs : Bytes) :
    charsFrom read.length (read ++ bs) = charsFrom 0 bs := by
  induction read with
  | nil => rfl
  | cons b read ih => exact ih

theorem charsFrom_char (c : Char) (bs : Bytes) :
    charsFrom 0 (String.utf8EncodeChar c ++ bs) = c :: charsFrom 0 bs := by
  have first := char?_append c bs
  cases h : String.utf8EncodeChar c with
  | nil => exact absurd h String.utf8EncodeChar_ne_nil
  | cons b rest =>
    have size : c.utf8Size - 1 = rest.length := by
      rw [← String.length_utf8EncodeChar, h, List.length_cons, Nat.add_sub_cancel]
    rw [h, List.cons_append] at first
    rw [List.cons_append, charsFrom, first]
    dsimp only
    rw [size, charsFrom_append]

theorem charsFrom_flatMap (cs : List Char) :
    charsFrom 0 (cs.flatMap String.utf8EncodeChar) = cs := by
  induction cs with
  | nil => rfl
  | cons c cs ih => rw [List.flatMap_cons, charsFrom_char, ih]

end Text

/-- **The bytes of a text are shown as the text.** -/
theorem textOf_bytesOf (s : String) : textOf (bytesOf s) = s := by
  rw [textOf, bytesOf_eq, Text.charsFrom_flatMap, String.ofList_toList]

theorem isText_iff {bs : Bytes} : isText bs = true ↔ ∃ s, bs = bytesOf s := by
  rw [isText, beq_iff_eq]
  constructor
  · exact fun h => ⟨textOf bs, h.symm⟩
  · rintro ⟨s, rfl⟩
    rw [textOf_bytesOf]

theorem bytesOf_textOf {bs : Bytes} (h : isText bs = true) : bytesOf (textOf bs) = bs :=
  beq_iff_eq.mp h

theorem textOf_inj {bs cs : Bytes} (hb : isText bs = true) (hc : isText cs = true)
    (h : textOf bs = textOf cs) : bs = cs := by
  rw [← bytesOf_textOf hb, h, bytesOf_textOf hc]

theorem text?_bytesOf (s : String) : text? (bytesOf s) = some s := by
  rw [text?, if_pos (isText_iff.mpr ⟨s, rfl⟩), textOf_bytesOf]

end AnnotationAudit
