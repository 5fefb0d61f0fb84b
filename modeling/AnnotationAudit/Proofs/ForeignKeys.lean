import AnnotationAudit.Config
import AnnotationAudit.Proofs.TomlTables
import Mathlib.Data.List.Perm.Basic

/-!
# Keys of other tools

A document is read for the settings in its table `tool.pyleft`. What it says under other keys, in
that table and outside of it, is passed over, whatever its type.

* `Toml.Content`               what a value says, apart from its place and spelling;
* `Toml.Value.Fits`            all numbers of a value can be represented;
* `Config.readBelow`           reading under one key, with all others passed over;
* `Config.tables?`             the tables of a document that are read for settings;
* `Config.parse_eq_ok_iff`     the settings of a document by the contents of its settings;
* `Config.parse_of_agrees`     documents that agree on the settings give the same, except that a
                               number that cannot be represented is refused wherever it stands.
-/

namespace AnnotationAudit

namespace Toml

/-! ## contents -/

/-- what a value says. Floating-point numbers and dates are not told apart: no setting is one. -/
inductive Content where
  | text (s : String)
  | integer (n : Int)
  | float
  | boolean (b : Bool)
  | datetime
  | array (items : List Content)
  | table (entries : List (String × Content))
deriving Inhabited

namespace Content

mutual

/-- do two contents say the same? -/
def beq : Content → Content → Bool
  | .text s, .text s' => s == s'
  | .integer n, .integer n' => n == n'
  | .float, .float => true
  | .boolean b, .boolean b' => b == b'
  | .datetime, .datetime => true
  | .array xs, .array ys => beqItems xs ys
  | .table xs, .table ys => beqEntries xs ys
  | _, _ => false

def beqItems : List Content → List Content → Bool
  | [], [] => true
  | x :: xs, y :: ys => x.beq y && beqItems xs ys
  | _, _ => false

def beqEntries : List (String × Content) → List (String × Content) → Bool
  | [], [] => true
  | (k, x) :: xs, (l, y) :: ys => k == l && (x.beq y && beqEntries xs ys)
  | _, _ => false

end

mutual

theorem beq_iff : ∀ x y : Content, x.beq y = true ↔ x = y
  | .text _, y | .integer _, y | .boolean _, y => by cases y <;> simp [beq]
  | .float, y | .datetime, y => by cases y <;> simp [beq]
  | .array xs, y => by cases y <;> simp [beq, beqItems_iff]
  | .table xs, y => by cases y <;> simp [beq, beqEntries_iff]

theorem beqItems_iff : ∀ xs ys : List Content, beqItems xs ys = true ↔ xs = ys
  | [], ys => by cases ys <;> simp [beqItems]
  | x :: xs, ys => by cases ys <;> simp [beqItems, beq_iff, beqItems_iff]

theorem beqEntries_iff : ∀ xs ys : List (String × Content), beqEntries xs ys = true ↔ xs = ys
  | [], ys => by cases ys <;> simp [beqEntries]
  | (k, x) :: xs, ys => by
    cases ys <;> simp [beqEntries, beq_iff, beqEntries_iff, Prod.ext_iff, and_assoc]

end

instance : DecidableEq Content := fun x y => decidable_of_iff (x.beq y = true) (beq_iff x y)

end Content

def Scalar.content : Scalar → Content
  | .text s => .text s
  | .integer n => .integer n
  | .float _ => .float
  | .boolean b => .boolean b
  | .datetime => .datetime

mutual

def Value.content : Value → Content
  | .scalar s => s.content
  | .array _ items => .array (itemContents items)
  | .table _ entries => .table (entryContents entries)

def itemContents : List (Span × Value) → List Content
  | [] => []
  | (_, v) :: rest => v.content :: itemContents rest

def entryContents : List (Key × Span × Value) → List (String × Content)
  | [] => []
  | (key, _, v) :: rest => (key.name, v.content) :: entryContents rest

end

def Entries.contentOf? (es : Entries) (k : String) : Option Content :=
  (Entries.get? es k).map fun e => e.2.2.content

/-! ## numbers that can be represented -/

/-- a number that can be represented: an integer in 128 bits, with a sign or without, and a
floating-point number in 64 -/
def Scalar.Fits : Scalar → Prop
  | .integer n => -(Nat.pow 2 127 : Int) ≤ n ∧ n < (Nat.pow 2 128 : Int)
  | .float digits => (floatOf? digits).isSome
  | _ => True

instance : DecidablePred Scalar.Fits
  | .integer n =>
    inferInstanceAs (Decidable (-(Nat.pow 2 127 : Int) ≤ n ∧ n < (Nat.pow 2 128 : Int)))
  | .float digits => inferInstanceAs (Decidable ((floatOf? digits).isSome = true))
  | .text _ | .boolean _ | .datetime => isTrue trivial

mutual

def Value.scalars : Value → List Scalar
  | .scalar s => [s]
  | .array _ items => itemScalars items
  | .table _ entries => entryScalars entries

def itemScalars : List (Span × Value) → List Scalar
  | [] => []
  | (_, v) :: rest => v.scalars ++ itemScalars rest

def entryScalars : List (Key × Span × Value) → List Scalar
  | [] => []
  | (_, _, v) :: rest => v.scalars ++ entryScalars rest

end

/-- all numbers inside a value can be represented -/
def Value.Fits (v : Value) : Prop := ∀ s ∈ v.scalars, s.Fits

/-- all numbers of entries can be represented, those under some keys apart -/
def Entries.FitsBeside (names : List String) (es : Entries) : Prop :=
  ∀ e ∈ es, e.1.name ∉ names → e.2.2.Fits

instance : DecidablePred Value.Fits := fun v =>
  inferInstanceAs (Decidable (∀ s ∈ v.scalars, s.Fits))

instance (names : List String) : DecidablePred (Entries.FitsBeside names) := fun es =>
  inferInstanceAs (Decidable (∀ e ∈ es, e.1.name ∉ names → e.2.2.Fits))

end Toml

namespace Config

open Toml

mutual

/-- a value can be passed over if its numbers can be represented -/
theorem ignoreFault?_eq_none : ∀ (span : Span) (v : Value), ignoreFault? span v = none ↔ v.Fits
  | span, .scalar s => by
    cases s <;>
      simp [ignoreFault?, overflow?, isDoubleWord, Value.Fits, Value.scalars, Scalar.Fits,
        Option.isSome_iff_ne_none]
  | span, .array _ items => by
    rw [ignoreFault?, ignoreItems?_eq_none, Value.Fits, Value.scalars]
  | span, .table _ entries => by
    rw [ignoreFault?, ignoreEntries?_eq_none_iff_scalars, Value.Fits, Value.scalars]

theorem ignoreItems?_eq_none : ∀ items : List (Span × Value),
    ignoreItems? items = none ↔ ∀ s ∈ itemScalars items, s.Fits
  | [] => by simp [ignoreItems?, itemScalars]
  | (span, v) :: rest => by
    simp [ignoreItems?, itemScalars, ignoreFault?_eq_none span v, ignoreItems?_eq_none rest,
      Value.Fits, or_imp, forall_and]

theorem ignoreEntries?_eq_none_iff_scalars : ∀ es : List (Key × Span × Value),
    ignoreEntries? es = none ↔ ∀ s ∈ entryScalars es, s.Fits
  | [] => by simp [ignoreEntries?, entryScalars]
  | (_, span, v) :: rest => by
    simp [ignoreEntries?, entryScalars, ignoreFault?_eq_none span v,
      ignoreEntries?_eq_none_iff_scalars rest, Value.Fits, or_imp, forall_and]

end

theorem ignoreEntries?_eq_none (es : Entries) :
    ignoreEntries? es = none ↔ ∀ e ∈ es, e.2.2.Fits := by
  induction es with
  | nil => simp [ignoreEntries?]
  | cons e es ih =>
    obtain ⟨key, span, v⟩ := e
    simp [ignoreEntries?, ignoreFault?_eq_none, ih]

/-- a computation, unless there is a fault -/
def unlessFault {α : Type} (fault : Option Fault) (x : Except Fault α) : Except Fault α :=
  match fault with
  | some f => .error f
  | none => x

theorem unlessFault_eq_ok_iff {α : Type} {fault : Option Fault} {x : Except Fault α} {a : α} :
    unlessFault fault x = .ok a ↔ fault = none ∧ x = .ok a := by
  cases fault with
  | none => exact (and_iff_right rfl).symm
  | some f => exact ⟨nofun, nofun⟩

/-! ## what the values of settings say -/

def flagOf? : Content → Option Bool
  | .boolean b => some b
  | _ => none

/-- the texts that contents say, if they say nothing else -/
def textsOf? : List Content → Option (List String)
  | [] => some []
  | .text s :: rest => (textsOf? rest).map (s :: ·)
  | _ :: _ => none

def listOf? : Content → Option StringList
  | .text s => some (.words s)
  | .array items => (textsOf? items).map .list
  | _ => none

def isVoid : Content → Bool
  | .array [] | .table [] => true
  | _ => false

/-- the format that a content says, by its name or as the only key of a table -/
def formatOf? : Content → Option ReportFormat
  | .text name => ReportFormat.ofId? name
  | .table [(name, x)] => if isVoid x then ReportFormat.ofId? name else none
  | _ => none

theorem toOption_readFlag (span : Span) (v : Value) :
    (readFlag span v).toOption = flagOf? v.content := by
  cases v with
  | scalar s => cases s <;> rfl
  | array ofTables items => rfl
  | table origin entries => rfl

theorem texts?_eq (items : List (Span × Value)) : texts? items = textsOf? (itemContents items) := by
  induction items with
  | nil => rfl
  | cons item items ih =>
    obtain ⟨span, v⟩ := item
    cases v with
    | scalar s =>
      cases s with
      | text s => simp [texts?, itemContents, Value.content, Scalar.content, textsOf?, ih]
      | _ => rfl
    | array ofTables items => rfl
    | table origin entries => rfl

/-- texts are kept, whatever they turn out to stand for -/
theorem keepItems?_of_texts {items : List (Span × Value)} {names : List String}
    (h : texts? items = some names) : keepItems? items = none := by
  induction items generalizing names with
  | nil => rfl
  | cons item items ih =>
    obtain ⟨span, v⟩ := item
    cases v with
    | scalar s =>
      cases s with
      | text s =>
        obtain ⟨rest, hr, -⟩ := Option.map_eq_some_iff.mp h
        rw [keepItems?, ih hr]
        rfl
      | _ => cases h
    | array ofTables items => cases h
    | table origin entries => cases h

theorem toOption_readList (span : Span) (v : Value) :
    (readList span v).toOption = listOf? v.content := by
  unfold readList
  cases v with
  | scalar s =>
    cases s with
    | text s => rfl
    | _ => dsimp only; split <;> rfl
  | table origin entries => dsimp only; split <;> rfl
  | array ofTables items =>
    rw [Value.content, listOf?, ← texts?_eq]
    cases found : texts? items with
    | none => dsimp only; rw [found]; split <;> rfl
    | some names => rw [keepFault?, keepItems?_of_texts found]; dsimp only; rw [found]; rfl

theorem toOption_readFormatName (span : Span) (name : String) :
    (readFormatName span name).toOption = ReportFormat.ofId? name := by
  unfold readFormatName
  cases ReportFormat.ofId? name <;> rfl

theorem toOption_bind_pure {α β : Type} (x : Except Fault α) (f : α → β) :
    (x >>= fun a => pure (f a)).toOption = x.toOption.map f := by
  cases x <;> rfl

theorem toOption_readFormat (span : Span) (v : Value) :
    (readFormat span v).toOption = formatOf? v.content := by
  cases v with
  | scalar s =>
    cases s with
    | text name => exact toOption_readFormatName span name
    | _ => rfl
  | array ofTables items => rfl
  | table origin entries =>
    match entries with
    | [] => rfl
    | [(key, inner, v)] =>
      have named := toOption_readFormatName key.span key.name
      have refused (f : ReportFormat → Fault) : (readFormatName key.span key.name >>= fun a =>
          (.error (f a) : Except Fault ReportFormat)).toOption = none := by
        cases readFormatName key.span key.name <;> rfl
      have given : (readFormatName key.span key.name >>= fun a => pure a).toOption =
          ReportFormat.ofId? key.name := by
        rw [bind_pure, named]
      cases v with
      | scalar s => cases s <;> exact refused _
      | array ofTables items =>
        cases items with
        | nil => exact given
        | cons item items => exact refused _
      | table origin entries =>
        cases entries with
        | nil => exact given
        | cons e entries => exact refused _
    | (_, _, _) :: (_, _, _) :: _ => rfl

/-! ## settings -/

/-- the settings with that of a name, if its content says one -/
def assign? (c : Config) (name : String) (x : Content) : Option Config :=
  match name with
  | "files" => (listOf? x).map fun list => { c with files := some list }
  | "exclude" => (listOf? x).map fun list => { c with exclude := some list }
  | "no-gitignore" => (flagOf? x).map fun flag => { c with noGitignore := some flag }
  | "quiet" => (flagOf? x).map fun flag => { c with quiet := some flag }
  | "verbose" => (flagOf? x).map fun flag => { c with verbose := some flag }
  | "ignore-if-has-default" =>
    (flagOf? x).map fun flag => { c with ignoreIfHasDefault := some flag }
  | "format" => (formatOf? x).map fun format => { c with format := some format }
  | _ => some c

theorem toOption_readSetting (c : Config) {name : String} (h : name ∈ settingNames) (span : Span)
    (v : Value) : (readSetting c name span v).toOption = assign? c name v.content := by
  simp only [settingNames, List.mem_cons, List.not_mem_nil, or_false] at h
  rcases h with rfl | rfl | rfl | rfl | rfl | rfl | rfl
  · rw [readSetting, toOption_bind_pure, toOption_readList, assign?]
  · rw [readSetting, toOption_bind_pure, toOption_readList, assign?]
  · rw [readSetting, toOption_bind_pure, toOption_readFlag, assign?]
  · rw [readSetting, toOption_bind_pure, toOption_readFlag, assign?]
  · rw [readSetting, toOption_bind_pure, toOption_readFlag, assign?]
  · rw [readSetting, toOption_bind_pure, toOption_readFlag, assign?]
  · rw [readSetting, toOption_bind_pure, toOption_readFormat, assign?]

theorem readSetting_foreign (c : Config) {name : String} (h : name ∉ settingNames) (span : Span)
    (v : Value) :
    readSetting c name span v = unlessFault (ignoreFault? span v) (.ok c) := by
  simp only [settingNames, List.mem_cons, List.not_mem_nil, or_false, not_or] at h
  obtain ⟨h₁, h₂, h₃, h₄, h₅, h₆, h₇⟩ := h
  unfold readSetting
  split <;> first | contradiction | rfl

/-- what the settings among entries say, in their order -/
def settingsIn (es : Entries) : List (String × Content) :=
  (es.filter fun e => e.1.name ∈ settingNames).map fun e => (e.1.name, e.2.2.content)

/-- the settings that named contents say, one after the other -/
def assignAll? (c : Config) (said : List (String × Content)) : Option Config :=
  said.foldlM (fun c x => assign? c x.1 x.2) c

theorem fitsBeside_cons {names : List String} {e : Key × Span × Value} {es : Entries} :
    Entries.FitsBeside names (e :: es) ↔
      (e.1.name ∉ names → e.2.2.Fits) ∧ Entries.FitsBeside names es :=
  List.forall_mem_cons

/-- the settings of a table: those among its entries are read, and the others have to be such that
they can be passed over -/
theorem readEntries_eq_ok_iff (es : Entries) : ∀ c c' : Config,
    readEntries c es = .ok c' ↔
      es.FitsBeside settingNames ∧ assignAll? c (settingsIn es) = some c' := by
  induction es with
  | nil => simp [readEntries, Entries.FitsBeside, assignAll?, settingsIn]
  | cons e es ih =>
    obtain ⟨key, span, v⟩ := e
    intro c c'
    rw [readEntries, fitsBeside_cons]
    by_cases own : key.name ∈ settingNames
    · have said : settingsIn ((key, span, v) :: es) = (key.name, v.content) :: settingsIn es := by
        simp [settingsIn, own]
      have read := toOption_readSetting c own span v
      rw [said, assignAll?, List.foldlM_cons, ← read]
      cases readSetting c key.name span v with
      | error f => exact ⟨nofun, nofun⟩
      | ok d =>
        have first : key.name ∉ settingNames → v.Fits := absurd own
        rw [and_iff_right first]
        exact ih d c'
    · have said : settingsIn ((key, span, v) :: es) = settingsIn es := by
        simp [settingsIn, own]
      rw [said, readSetting_foreign c own]
      have skip : unlessFault (ignoreFault? span v) (.ok c) >>= (readEntries · es) =
          unlessFault (ignoreFault? span v) (readEntries c es) := by
        cases ignoreFault? span v <;> rfl
      rw [skip, unlessFault_eq_ok_iff, ignoreFault?_eq_none, ih, imp_iff_right own, and_assoc]

end Config

/-! ## sorted entries -/

namespace Toml.Entries

variable {es : Entries} {k : String}

theorem Ascends.tail {e : Key × Span × Value} (h : Ascends (e :: es)) : es.Ascends :=
  (List.pairwise_cons.mp h).2

/-- the key of the first of sorted entries is not there again -/
theorem Ascends.name_ne {e f : Key × Span × Value} (h : Ascends (e :: es)) (hf : f ∈ es) :
    f.1.name ≠ e.1.name :=
  (String.ne_of_lt ((List.pairwise_cons.mp h).1 f hf)).symm

/-- an entry of a sorted table is what is found under its key -/
theorem Ascends.get?_of_mem (h : es.Ascends) {e : Key × Span × Value} (he : e ∈ es) :
    Entries.get? es e.1.name = some e := by
  induction es with
  | nil => exact absurd he List.not_mem_nil
  | cons f es ih =>
    rw [Entries.get?]
    rcases List.mem_cons.mp he with rfl | he
    · exact if_pos rfl
    · rw [if_neg (h.name_ne he).symm, ih h.tail he]

/-- the entries of the table under a key, which has none if it is not there -/
def below? (es : Entries) (k : String) : Option Entries :=
  match Entries.get? es k with
  | none => some []
  | some (_, _, .table _ inner) => some inner
  | some _ => none

theorem IsSorted.below? (h : es.IsSorted) {inner : Entries} (below : es.below? k = some inner) :
    inner.IsSorted := by
  unfold Entries.below? at below
  split at below
  · obtain rfl := Option.some.inj below
    exact isSorted_empty {}
  · next found =>
    obtain rfl := Option.some.inj below
    exact (h.get? found).entries
  · cases below

end Toml.Entries

namespace Config

open Toml

theorem mem_settingsIn {es : Entries} (h : es.Ascends) {k : String} {x : Content} :
    (k, x) ∈ settingsIn es ↔ k ∈ settingNames ∧ es.contentOf? k = some x := by
  simp only [settingsIn, List.mem_map, List.mem_filter, decide_eq_true_eq, Prod.mk.injEq,
    Entries.contentOf?, Option.map_eq_some_iff]
  constructor
  · rintro ⟨e, ⟨mem, setting⟩, rfl, rfl⟩
    exact ⟨setting, e, h.get?_of_mem mem, rfl⟩
  · rintro ⟨setting, e, found, rfl⟩
    obtain ⟨mem, rfl⟩ := Entries.mem_of_get? found
    exact ⟨e, ⟨mem, setting⟩, rfl, rfl⟩

/-- sorted entries with the same settings say them in the same order -/
theorem settingsIn_eq {es es' : Entries} (h : es.Ascends) (h' : es'.Ascends)
    (agree : ∀ k ∈ settingNames, es.contentOf? k = es'.contentOf? k) :
    settingsIn es = settingsIn es' := by
  have ascend {es : Entries} (h : es.Ascends) :
      (settingsIn es).Pairwise fun a b => a.1 < b.1 :=
    List.pairwise_map.mpr (h.filter _)
  have nodup {es : Entries} (h : es.Ascends) : (settingsIn es).Nodup :=
    (ascend h).imp fun {a b} lt (same : a = b) => String.lt_irrefl b.1 (same ▸ lt)
  -- both lists ascend, so that it is enough that they have the same members
  have perm : (settingsIn es).Perm (settingsIn es') := by
    refine (List.perm_ext_iff_of_nodup (nodup h) (nodup h')).mpr fun (k, x) => ?_
    rw [mem_settingsIn h, mem_settingsIn h']
    exact and_congr_right fun setting => by rw [agree k setting]
  exact perm.eq_of_pairwise (fun a b _ _ lt gt => absurd gt (String.lt_asymm lt)) (ascend h)
    (ascend h')

/-! ## tables -/

/-- the settings of the value of a key, beside which everything is passed over -/
def readBelow (k : String) (read : Span → Value → Except Fault Config) :
    Entries → Except Fault Config
  | [] => .ok {}
  | (key, span, v) :: rest =>
    if key.name = k then do
      let c ← read span v
      unlessFault (ignoreEntries? rest) (.ok c)
    else unlessFault (ignoreFault? span v) (readBelow k read rest)

theorem ofTool_eq (es : Entries) : ofTool es = readBelow "pyleft" ofValue es := by
  induction es with
  | nil => rfl
  | cons e es ih =>
    rw [ofTool, readBelow, ih]
    rfl

theorem ofEntries_eq (es : Entries) : ofEntries es = readBelow "tool" ofToolValue es := by
  induction es with
  | nil => rfl
  | cons e es ih =>
    rw [ofEntries, readBelow, ih]
    rfl

theorem readBelow_eq_ok_iff {k : String} {read : Span → Value → Except Fault Config}
    {es : Entries} (h : es.Ascends) (c : Config) :
    readBelow k read es = .ok c ↔ es.FitsBeside [k] ∧
      (Entries.get? es k).elim (.ok {}) (fun e => read e.2.1 e.2.2) = .ok c := by
  induction es with
  | nil => simp [readBelow, Entries.FitsBeside, Entries.get?]
  | cons e es ih =>
    obtain ⟨key, span, v⟩ := e
    rw [readBelow, fitsBeside_cons, Entries.get?]
    by_cases here : key.name = k
    · subst here
      have rest : Entries.FitsBeside [key.name] es ↔ ∀ e ∈ es, e.2.2.Fits :=
        forall₂_congr fun e he =>
          imp_iff_right fun same => h.name_ne he (List.mem_singleton.mp same)
      rw [if_pos rfl, if_pos rfl, rest, ← ignoreEntries?_eq_none, Option.elim_some]
      dsimp only
      cases read span v with
      | error f =>
        refine iff_of_false (fun h => ?_) (fun h => ?_)
        · cases h
        · cases h.2
      | ok d => exact unlessFault_eq_ok_iff.trans (and_congr_left fun _ => by simp)
    · rw [if_neg here, if_neg here, unlessFault_eq_ok_iff, ignoreFault?_eq_none, ih h.tail,
        imp_iff_right fun same => here (List.mem_singleton.mp same), and_assoc]

/-- a table below another one is read with the rest passed over; one that is absent is empty -/
theorem readBelow_table {k : String} {read : Span → Value → Except Fault Config}
    {readTable : Entries → Except Fault Config} {es inner : Entries} (h : es.Ascends)
    (table : ∀ span origin inner, read span (.table origin inner) = readTable inner)
    (empty : readTable [] = .ok {}) (below : es.below? k = some inner) (c : Config) :
    readBelow k read es = .ok c ↔ es.FitsBeside [k] ∧ readTable inner = .ok c := by
  rw [readBelow_eq_ok_iff h]
  refine and_congr_right fun _ => ?_
  unfold Entries.below? at below
  split at below
  · next found =>
    rw [found, ← Option.some.inj below, empty, Option.elim_none]
  · next found =>
    rw [found, ← Option.some.inj below, Option.elim_some, table]
  · cases below

/-- the tables that are read for settings; one that is absent is empty -/
structure Tables where
  root : Entries
  tool : Entries
  own : Entries

/-- the tables of a document, if it is one and `tool` and `tool.pyleft` are tables or absent -/
def tables? (document : String) : Option Tables := do
  let root ← (Toml.parse document).toOption
  let tool ← root.below? "tool"
  let own ← tool.below? "pyleft"
  pure ⟨root, tool, own⟩

namespace Tables

/-- all numbers under other keys can be represented -/
def Fits (t : Tables) : Prop :=
  t.root.FitsBeside ["tool"] ∧ t.tool.FitsBeside ["pyleft"] ∧ t.own.FitsBeside settingNames

/-- the settings are there in both or in none, and say the same -/
def Agrees (t t' : Tables) : Prop :=
  ∀ k ∈ settingNames, t.own.contentOf? k = t'.own.contentOf? k

instance (t : Tables) : Decidable t.Fits :=
  inferInstanceAs (Decidable (t.root.FitsBeside _ ∧ t.tool.FitsBeside _ ∧ t.own.FitsBeside _))

instance (t t' : Tables) : Decidable (t.Agrees t') :=
  inferInstanceAs (Decidable (∀ k ∈ settingNames, t.own.contentOf? k = t'.own.contentOf? k))

end Tables

variable {document document' label label' : String} {t t' : Tables}

theorem toOption_eq_some_iff {ε α : Type} {x : Except ε α} {a : α} :
    x.toOption = some a ↔ x = .ok a := by
  cases x with
  | error e => exact ⟨nofun, nofun⟩
  | ok b => exact ⟨fun h => congrArg _ (Option.some.inj h), fun h => congrArg _ (Except.ok.inj h)⟩

theorem of_tables? (h : tables? document = some t) :
    Toml.parse document = .ok t.root ∧ t.root.below? "tool" = some t.tool ∧
      t.tool.below? "pyleft" = some t.own := by
  simp only [tables?, Option.bind_eq_bind, Option.bind_eq_some_iff] at h
  obtain ⟨root, parsed, tool, belowRoot, own, belowTool, ⟨⟩⟩ := h
  exact ⟨toOption_eq_some_iff.mp parsed, belowRoot, belowTool⟩

theorem sorted_of_tables? (h : tables? document = some t) :
    t.root.IsSorted ∧ t.tool.IsSorted ∧ t.own.IsSorted := by
  obtain ⟨parsed, belowRoot, belowTool⟩ := of_tables? h
  have root := isSorted_of_parse parsed
  have tool := root.below? belowRoot
  exact ⟨root, tool, tool.below? belowTool⟩

/-- a document gives settings if all numbers under other keys can be represented and its settings
say some -/
theorem parse_eq_ok_iff (h : tables? document = some t) (c : Config) :
    Config.parse document label = .ok c ↔
      t.Fits ∧ assignAll? {} (settingsIn t.own) = some c := by
  obtain ⟨parsed, belowRoot, belowTool⟩ := of_tables? h
  obtain ⟨root, tool, -⟩ := sorted_of_tables? h
  have labelled : Config.parse document label = .ok c ↔ ofEntries t.root = .ok c := by
    unfold Config.parse
    have read : (Except.ok t.root >>= ofEntries : Except Fault Config) = ofEntries t.root := rfl
    rw [parsed, read]
    cases ofEntries t.root <;> simp
  calc Config.parse document label = .ok c
      ↔ ofEntries t.root = .ok c := labelled
    _ ↔ t.root.FitsBeside ["tool"] ∧ ofTool t.tool = .ok c := by
      rw [ofEntries_eq, readBelow_table root.ascends (fun _ _ _ => rfl) rfl belowRoot]
    _ ↔ t.root.FitsBeside ["tool"] ∧ t.tool.FitsBeside ["pyleft"] ∧
          readEntries {} t.own = .ok c := by
      rw [ofTool_eq, readBelow_table tool.ascends (fun _ _ _ => rfl) rfl belowTool]
    _ ↔ t.Fits ∧ assignAll? {} (settingsIn t.own) = some c := by
      rw [readEntries_eq_ok_iff, Tables.Fits, and_assoc, and_assoc]

/-- documents that agree on the settings give the same, unless one of them has a number under
another key that cannot be represented: such a document gives nothing -/
theorem parse_of_agrees (h : tables? document = some t) (h' : tables? document' = some t')
    (agree : t.Agrees t') :
    (¬ t.Fits → (Config.parse document label).toOption = none) ∧
      ((t.Fits ↔ t'.Fits) →
        (Config.parse document label).toOption = (Config.parse document' label').toOption) := by
  have said : settingsIn t.own = settingsIn t'.own :=
    settingsIn_eq (sorted_of_tables? h).2.2.ascends (sorted_of_tables? h').2.2.ascends agree
  constructor
  · intro misfit
    refine Option.eq_none_iff_forall_ne_some.mpr fun c read => misfit ?_
    exact ((parse_eq_ok_iff h c).mp (toOption_eq_some_iff.mp read)).1
  · intro fits
    ext c
    rw [toOption_eq_some_iff, toOption_eq_some_iff, parse_eq_ok_iff h, parse_eq_ok_iff h', said,
      fits]

/-- a list of files and nothing else -/
def bare : String := "[tool.pyleft]\nfiles = ['a']\n"

/-- the same list in another spelling, beside keys of other tools -/
def crowded : String :=
  "x = 18446744073709551616\n[tool]\ny = [1, inf]\n[tool.pyleft]\nno_gitignore = 1\n" ++
    "files = [\"a\"]\n"

/-- a number that cannot be represented and nothing else -/
def oversized : String := "x = 340282366920938463463374607431768211456\n"

theorem parse_of_agrees_crowded :
    ∃ t t' : Tables, tables? bare = some t ∧ tables? crowded = some t' ∧ t.Agrees t' ∧
      (t.Fits ↔ t'.Fits) ∧
      (Config.parse bare "a").toOption = (Config.parse crowded "b").toOption := by
  obtain ⟨t, h⟩ : ∃ t, tables? bare = some t :=
    Option.isSome_iff_exists.mp (by decide +kernel)
  obtain ⟨t', h'⟩ : ∃ t', tables? crowded = some t' :=
    Option.isSome_iff_exists.mp (by decide +kernel)
  have both : ∀ t ∈ tables? bare, ∀ t' ∈ tables? crowded, t.Agrees t' ∧ (t.Fits ↔ t'.Fits) := by
    decide +kernel
  obtain ⟨agree, fits⟩ := both t h t' h'
  exact ⟨t, t', h, h', agree, fits, (parse_of_agrees h h' agree).2 fits⟩

/-- agreement on the settings is not enough: the numbers under other keys have to be such that they
can be represented -/
theorem not_parse_eq_of_agrees :
    ¬ ∀ {document document' label label' : String} {t t' : Tables},
      tables? document = some t → tables? document' = some t' → t.Agrees t' →
        (Config.parse document label).toOption = (Config.parse document' label').toOption := by
  intro all
  obtain ⟨t, h⟩ : ∃ t, tables? "" = some t := Option.isSome_iff_exists.mp (by decide +kernel)
  obtain ⟨t', h'⟩ : ∃ t', tables? oversized = some t' :=
    Option.isSome_iff_exists.mp (by decide +kernel)
  have agree : ∀ t ∈ tables? "", ∀ t' ∈ tables? oversized, t.Agrees t' := by decide +kernel
  have differ : (Config.parse "" "a").toOption ≠ (Config.parse oversized "a").toOption := by
    decide +kernel
  exact differ (all h h' (agree t h t' h'))

end Config
end AnnotationAudit
