import AnnotationAudit.CommandLine
import Mathlib.Data.List.Basic
import Mathlib.Data.List.Nodup
import Mathlib.Data.List.Perm.Basic

/-!
# Spelling command lines

Whatever a command line asks for can be written down: an option for each flag, pattern, format and
file that is given, in long form and with the value behind an equals sign, then `--`, then the
files. The options may come in any order that keeps the patterns in theirs.

* `CommandLine.Given`         an option as it is given, with its value;
* `CommandLine.Given.argument`  how it is written;
* `CommandLine.options`       the options of a command line;
* `Progress.step_argument`    what one option does to the arguments read so far;
* `Progress.run_arguments`    and what options do one behind the other;
* `CommandLine.parse_options`  a command line that is written down is read back.
-/

namespace AnnotationAudit
namespace CommandLine

/-! ## options as they are written -/

/-- is an option one that is given or not, without a value? -/
def Switch.isFlag : Switch → Bool
  | .noGitignore | .quiet | .verbose | .ignoreIfHasDefault | .noColor => true
  | _ => false

/-- an option as it is given, with its value -/
inductive Given where
  | flag (s : Switch)
  | exclude (pattern : String)
  | format (f : ReportFormat)
  | config (file : Bytes)
deriving DecidableEq, Repr

namespace Given

def switch : Given → Switch
  | .flag s => s
  | .exclude _ => .exclude
  | .format _ => .format
  | .config _ => .config

/-- the value behind the name, with the equals sign before it -/
def tail : Given → Bytes
  | .flag _ => []
  | .exclude pattern => Text.equals :: pattern
  | .format f => Text.equals :: f.id
  | .config file => Text.equals :: file

def argument (g : Given) : Bytes := bytesOf ("--" ++ g.switch.long) ++ g.tail

def pattern? : Given → Option String
  | .exclude pattern => some pattern
  | _ => none

def format? : Given → Option ReportFormat
  | .format f => some f
  | _ => none

def file? : Given → Option Bytes
  | .config file => some file
  | _ => none

/-- the option, if it may be given only once -/
def single? : Given → Option Switch
  | .exclude _ => none
  | g => some g.switch

/-- flags are flags, and the file with the settings has a name -/
def IsValid : Given → Prop
  | .flag s => s.isFlag = true
  | .config file => file ≠ []
  | _ => True

/-- what an option adds to a command line -/
def apply (c : CommandLine) : Given → CommandLine
  | .flag s => Progress.setFlag c s
  | .exclude pattern => { c with exclude := c.exclude ++ [pattern] }
  | .format f => { c with format := some f }
  | .config file => { c with config := some file }

end Given

def isSet (c : CommandLine) : Switch → Bool
  | .noGitignore => c.noGitignore
  | .quiet => c.quiet
  | .verbose => c.verbose
  | .ignoreIfHasDefault => c.ignoreIfHasDefault
  | .noColor => c.noColor
  | _ => false

/-- the options of a command line: one for each flag that is set, for each pattern, and for the
format and the file with the settings if there are any -/
def options (c : CommandLine) : List Given :=
  (Switch.all.filter c.isSet).map .flag ++ c.exclude.map .exclude ++
    c.format.toList.map .format ++ c.config.toList.map .config

/-! ## names -/

theorem Switch.ofLong?_long (s : Switch) : Switch.ofLong? s.long = some s := by
  cases s <;> decide +kernel

theorem Switch.equals_notMem_long (s : Switch) : Text.equals ∉ bytesOf s.long := by
  cases s <;> decide +kernel

theorem Switch.exists_long (s : Switch) : ∃ b bs, bytesOf s.long = b :: bs :=
  List.exists_cons_of_ne_nil (by cases s <;> decide +kernel)

theorem ofId?_id (f : ReportFormat) : ReportFormat.ofId? f.id = some f := by
  cases f <;> decide +kernel

theorem bytesOf_id_ne_nil (f : ReportFormat) : (bytesOf f.id).isEmpty = false := by
  cases f <;> decide +kernel

namespace Progress

variable {p : Progress}

/-! ## one option -/

theorem cutLong_eq {name : Bytes} (h : Text.equals ∉ name) : cutLong name = (name, none) := by
  induction name with
  | nil => rfl
  | cons c name ih =>
    obtain ⟨hc, h⟩ := not_or.mp (mt List.mem_cons.mpr h)
    rw [cutLong, if_neg (Ne.symm hc), ih h]

/-- a long option is cut at the equals sign behind its name, whatever its value holds -/
theorem cutLong_append {name : Bytes} (h : Text.equals ∉ name) (value : Bytes) :
    cutLong (name ++ Text.equals :: value) = (name, some value) := by
  induction name with
  | nil => rfl
  | cons c name ih =>
    obtain ⟨hc, h⟩ := not_or.mp (mt List.mem_cons.mpr h)
    rw [List.cons_append, cutLong, if_neg (Ne.symm hc), ih h]

/-- the arguments read so far and one more option -/
def after (p : Progress) (g : Given) : Progress :=
  { p.use (.switch g.switch) with result := g.apply p.result }

theorem step_long (open_ : p.trailing = false) (s : Switch) (tail : Bytes) :
    p.step (bytesOf ("--" ++ s.long) ++ tail) = p.long (bytesOf s.long ++ tail) := by
  obtain ⟨b, bs, hbs⟩ := s.exists_long
  have dashes : bytesOf "--" = [Text.dash, Text.dash] := rfl
  unfold step
  rw [open_, if_neg Bool.false_ne_true, bytesOf_append, dashes, hbs]
  rfl

theorem react_eq (idle : p.pending = none) (slot : Slot) (values : List Bytes) :
    p.react slot values = orError (p.take slot values) := by
  unfold react settle
  rw [idle]
  rfl

theorem long_flag (idle : p.pending = none) {s : Switch} (flag : s.isFlag = true) :
    p.long (bytesOf s.long ++ []) = orError (p.take (.switch s) []) := by
  have valueless : s.takesValue = false := by
    revert flag
    cases s <;> decide
  unfold long
  rw [List.append_nil, cutLong_eq s.equals_notMem_long]
  dsimp only
  rw [textOf_bytesOf, s.ofLong?_long]
  dsimp only
  rw [valueless, if_neg Bool.false_ne_true, react_eq idle]

theorem long_value (idle : p.pending = none) {s : Switch} (takes : s.takesValue = true)
    (value : Bytes) :
    p.long (bytesOf s.long ++ Text.equals :: value) = orError (p.take (.switch s) [value]) := by
  unfold long
  rw [cutLong_append s.equals_notMem_long]
  dsimp only
  rw [textOf_bytesOf, s.ofLong?_long]
  dsimp only
  rw [if_pos takes, react_eq idle]

theorem take_flag {s : Switch} (flag : s.isFlag = true) (new : .switch s ∉ p.used) :
    p.take (.switch s) [] =
      ({ p.use (.switch s) with result := setFlag p.result s }, none) := by
  have unused : p.used.contains (.switch s) = false := by simpa using new
  unfold take use
  rw [unused]
  cases s <;> first | rfl | exact absurd flag (by decide)

theorem take_value {s : Switch} (takes : s.takesValue = true)
    (new : s = .exclude ∨ .switch s ∉ p.used) {value : Bytes} {c : CommandLine}
    (h : setValue p.result s value = .ok c) :
    p.take (.switch s) [value] = ({ p.use (.switch s) with result := c }, none) := by
  have fresh : (s != .exclude && p.used.contains (.switch s)) = false := by
    rcases new with rfl | new
    · rfl
    · simp [new]
  have same : setValue (p.use (.switch s)).result s value = .ok c := by
    rw [← h]
    unfold use
    split <;> rfl
  unfold take
  cases s <;> first
    | (dsimp only; rw [if_pos takes, fresh, same]; rfl)
    | exact absurd takes (by decide)

/-- one option is taken over, if it has not been given before or may be given again -/
theorem step_argument (idle : p.pending = none) (open_ : p.trailing = false) {g : Given}
    (valid : g.IsValid) (new : ∀ s ∈ g.single?, .switch s ∉ p.used) :
    p.step g.argument = .ok (p.after g) := by
  unfold Given.argument
  rw [step_long open_]
  cases g with
  | flag s =>
    exact (long_flag idle valid).trans (congrArg orError (take_flag valid (new s rfl)))
  | exclude pattern =>
    have value : setValue p.result .exclude pattern =
        .ok { p.result with exclude := p.result.exclude ++ [pattern] } := by
      unfold setValue
      rw [text?_bytesOf]
    refine (long_value (s := .exclude) idle rfl pattern).trans ?_
    rw [take_value rfl (.inl rfl) value]
    rfl
  | format f =>
    have value : setValue p.result .format f.id = .ok { p.result with format := some f } := by
      unfold setValue
      rw [bytesOf_id_ne_nil, textOf_bytesOf, ofId?_id]
      rfl
    refine (long_value (s := .format) idle rfl f.id).trans ?_
    rw [take_value rfl (.inr (new .format rfl)) value]
    rfl
  | config file =>
    have named : file.isEmpty = false := by
      rw [← Bool.not_eq_true, List.isEmpty_iff]
      exact valid
    have value : setValue p.result .config file = .ok { p.result with config := some file } := by
      unfold setValue
      rw [named]
      rfl
    refine (long_value (s := .config) idle rfl file).trans ?_
    rw [take_value rfl (.inr (new .config rfl)) value]
    rfl

/-! ## options one behind the other -/

theorem mem_used_after {g : Given} {slot : Slot} (h : slot ∈ (p.after g).used) :
    slot ∈ p.used ∨ slot = .switch g.switch := by
  have same : (p.after g).used = (p.use (.switch g.switch)).used := rfl
  rw [same] at h
  unfold use at h
  split at h
  · exact .inl h
  · simpa using h

theorem idle_after (idle : p.pending = none) (g : Given) : (p.after g).pending = none := by
  rw [← idle]
  show (p.use (.switch g.switch)).pending = _
  unfold use
  split <;> rfl

theorem open_after (open_ : p.trailing = false) (g : Given) : (p.after g).trailing = false := by
  rw [← open_]
  show (p.use (.switch g.switch)).trailing = _
  unfold use
  split <;> rfl

/-- options are taken over one by one, if those that may be given only once are -/
theorem run_arguments {gs : List Given} (idle : p.pending = none) (open_ : p.trailing = false)
    (valid : ∀ g ∈ gs, g.IsValid) (once : (gs.filterMap Given.single?).Nodup)
    (new : ∀ s ∈ gs.filterMap Given.single?, .switch s ∉ p.used) (rest : List Bytes) :
    p.run (gs.map Given.argument ++ rest) = (gs.foldl after p).run rest := by
  induction gs generalizing p with
  | nil => rfl
  | cons g gs ih =>
    obtain ⟨valid_g, valid_gs⟩ := List.forall_mem_cons.mp valid
    have singles : (g :: gs).filterMap Given.single? =
        g.single?.toList ++ gs.filterMap Given.single? := by
      cases h : g.single? <;> simp [h]
    rw [singles] at once new
    have step := step_argument idle open_ valid_g fun s hs =>
      new s (List.mem_append_left _ (Option.mem_toList.mpr hs))
    rw [List.map_cons, List.cons_append, run, step]
    refine ih (idle_after idle g) (open_after open_ g) valid_gs once.of_append_right
      fun s hs used => ?_
    rcases mem_used_after used with used | same
    · exact new s (List.mem_append_right _ hs) used
    · obtain rfl : s = g.switch := Slot.switch.inj same
      cases g with
      | exclude pattern =>
        obtain ⟨g', hg', single⟩ := List.mem_filterMap.mp hs
        have flag : g'.IsValid := valid_gs g' hg'
        cases g' <;> cases single
        exact absurd (show Switch.isFlag .exclude = true from flag) (by decide)
      | flag s => exact (List.nodup_append.mp once).2.2 s List.mem_cons_self s hs rfl
      | format f => exact (List.nodup_append.mp once).2.2 _ List.mem_cons_self _ hs rfl
      | config file => exact (List.nodup_append.mp once).2.2 _ List.mem_cons_self _ hs rfl

theorem idle_foldl (idle : p.pending = none) (gs : List Given) :
    (gs.foldl after p).pending = none := by
  induction gs generalizing p with
  | nil => exact idle
  | cons g gs ih => exact ih (idle_after idle g)

theorem open_foldl (open_ : p.trailing = false) (gs : List Given) :
    (gs.foldl after p).trailing = false := by
  induction gs generalizing p with
  | nil => exact open_
  | cons g gs ih => exact ih (open_after open_ g)

theorem result_foldl (gs : List Given) :
    (gs.foldl after p).result = gs.foldl Given.apply p.result := by
  induction gs generalizing p with
  | nil => rfl
  | cons g gs ih => exact ih

/-! ## files -/

/-- behind `--` all arguments are files -/
theorem run_files (files values : List Bytes) (trailing : p.trailing = true)
    (pending : p.pending = some (.files, values)) :
    p.run files = .ok { p with pending := some (.files, values ++ files) } := by
  induction files generalizing p values with
  | nil =>
    rw [List.append_nil, ← pending]
    rfl
  | cons file files ih =>
    have step : p.step file = .ok { p with pending := some (.files, values ++ [file]) } := by
      unfold step Progress.file
      rw [if_pos trailing, pending]
    have rest := ih (p := { p with pending := some (.files, values ++ [file]) })
      (values ++ [file]) trailing rfl
    rw [List.append_assoc] at rest
    rw [run, step]
    exact rest

theorem mapM_text? (files : List String) : (files.map bytesOf).mapM text? = some files := by
  induction files with
  | nil => rfl
  | cons file files ih => rw [List.map_cons, List.mapM_cons, text?_bytesOf, ih]; rfl

theorem settle_files (values : List String)
    (pending : p.pending = some (.files, values.map bytesOf)) :
    ∃ r, orError p.settle = .ok r ∧
      r.result = { p.result with files := p.result.files ++ values } := by
  unfold settle
  rw [pending]
  dsimp only [take]
  rw [mapM_text?]
  refine ⟨_, rfl, ?_⟩
  dsimp only [use]
  split <;> rfl

/-- the files behind `--` are taken over at the end -/
theorem run_trailing (idle : p.pending = none) (open_ : p.trailing = false) (files : List String) :
    ∃ q r, p.run (bytesOf "--" :: files.map bytesOf) = .ok q ∧ orError q.settle = .ok r ∧
      r.result = { p.result with files := p.result.files ++ files } := by
  have step : p.step (bytesOf "--") = .ok { p with trailing := true } := by
    unfold step
    rw [open_]
    rfl
  rw [run, step]
  cases files with
  | nil =>
    refine ⟨_, { p with trailing := true }, rfl, ?_, ?_⟩
    · unfold settle
      dsimp only
      rw [idle]
      rfl
    · dsimp only
      rw [List.append_nil]
  | cons file files =>
    have first : Progress.step { p with trailing := true } (bytesOf file) =
        .ok { p with trailing := true, pending := some (.files, [bytesOf file]) } := by
      unfold Progress.step Progress.file settle
      dsimp only
      rw [if_pos rfl, idle]
      rfl
    have rest := run_files
      (p := { p with trailing := true, pending := some (.files, [bytesOf file]) })
      (files.map bytesOf) [bytesOf file] rfl rfl
    obtain ⟨r, settled, result⟩ := settle_files (file :: files) (p := { p with
      trailing := true, pending := some (.files, (file :: files).map bytesOf) }) rfl
    refine ⟨_, r, ?_, settled, result⟩
    show run { p with trailing := true } (bytesOf file :: files.map bytesOf) = _
    rw [run, first]
    exact rest

end Progress

/-! ## what options come to -/

section

variable (c : CommandLine) (gs : List Given)

theorem isSet_setFlag {s : Switch} (flag : s.isFlag = true) (t : Switch) :
    (Progress.setFlag c s).isSet t = (c.isSet t || decide (t = s)) := by
  cases s <;> first | exact absurd flag (by decide) | (cases t <;> simp [Progress.setFlag, isSet])

theorem isSet_foldl (valid : ∀ g ∈ gs, g.IsValid) (s : Switch) :
    (gs.foldl Given.apply c).isSet s = true ↔ c.isSet s = true ∨ .flag s ∈ gs := by
  induction gs generalizing c with
  | nil => simp
  | cons g gs ih =>
    obtain ⟨valid_g, valid⟩ := List.forall_mem_cons.mp valid
    rw [List.foldl_cons, ih _ valid, List.mem_cons]
    cases g with
    | flag t =>
      rw [Given.apply, isSet_setFlag c valid_g]
      simp [or_assoc]
    | exclude pattern => cases s <;> simp [Given.apply, isSet]
    | format f => cases s <;> simp [Given.apply, isSet]
    | config file => cases s <;> simp [Given.apply, isSet]

theorem exclude_foldl :
    (gs.foldl Given.apply c).exclude = c.exclude ++ gs.filterMap Given.pattern? := by
  induction gs generalizing c with
  | nil => simp
  | cons g gs ih =>
    rw [List.foldl_cons, ih]
    cases g with
    | flag s => cases s <;> rfl
    | exclude pattern => simp [Given.apply, Given.pattern?]
    | format f => rfl
    | config file => rfl

theorem files_foldl : (gs.foldl Given.apply c).files = c.files := by
  induction gs generalizing c with
  | nil => rfl
  | cons g gs ih =>
    rw [List.foldl_cons, ih]
    cases g with
    | flag s => cases s <;> rfl
    | _ => rfl

/-- of what options replace, the last one counts -/
theorem foldl_replace {α : Type} (get : CommandLine → Option α) (pick : Given → Option α)
    (h : ∀ c g, get (g.apply c) = (pick g).or (get c)) :
    get (gs.foldl Given.apply c) = (gs.filterMap pick).getLast?.or (get c) := by
  induction gs generalizing c with
  | nil => rfl
  | cons g gs ih =>
    rw [List.foldl_cons, ih, h]
    cases hg : pick g with
    | none => rw [List.filterMap_cons_none hg]; rfl
    | some a =>
      rw [List.filterMap_cons_some hg, List.getLast?_cons]
      cases (gs.filterMap pick).getLast? <;> rfl

theorem format_foldl : (gs.foldl Given.apply c).format =
    (gs.filterMap Given.format?).getLast?.or c.format := by
  refine foldl_replace c gs CommandLine.format Given.format? fun c g => ?_
  cases g with
  | flag s => cases s <;> rfl
  | _ => rfl

theorem config_foldl : (gs.foldl Given.apply c).config =
    (gs.filterMap Given.file?).getLast?.or c.config := by
  refine foldl_replace c gs CommandLine.config Given.file? fun c g => ?_
  cases g with
  | flag s => cases s <;> rfl
  | _ => rfl

theorem isFlag_of_isSet {s : Switch} (h : c.isSet s = true) : s.isFlag = true := by
  cases s <;> first | rfl | exact absurd h Bool.false_ne_true

theorem eq_of_isSet {c d : CommandLine} (files : c.files = d.files)
    (exclude : c.exclude = d.exclude) (format : c.format = d.format) (config : c.config = d.config)
    (flags : ∀ s, c.isSet s = d.isSet s) : c = d := by
  have noGitignore : c.noGitignore = d.noGitignore := flags .noGitignore
  have quiet : c.quiet = d.quiet := flags .quiet
  have verbose : c.verbose = d.verbose := flags .verbose
  have ignoreIfHasDefault : c.ignoreIfHasDefault = d.ignoreIfHasDefault :=
    flags .ignoreIfHasDefault
  have noColor : c.noColor = d.noColor := flags .noColor
  obtain ⟨⟩ := c
  obtain ⟨⟩ := d
  simp_all

/-! ## the options of a command line -/

/-- what is picked from the options of a command line, kind by kind -/
theorem filterMap_options {α : Type} (pick : Given → Option α) :
    c.options.filterMap pick =
      (Switch.all.filter c.isSet).filterMap (fun s => pick (.flag s)) ++
        c.exclude.filterMap (fun p => pick (.exclude p)) ++
        c.format.toList.filterMap (fun f => pick (.format f)) ++
        c.config.toList.filterMap (fun f => pick (.config f)) := by
  unfold options
  simp only [List.filterMap_append, List.filterMap_map]
  rfl

theorem formats_options : c.options.filterMap Given.format? = c.format.toList := by
  rw [filterMap_options]
  simp [Given.format?]

theorem files_options : c.options.filterMap Given.file? = c.config.toList := by
  rw [filterMap_options]
  simp [Given.file?]

theorem nodup_options : (c.options.filterMap Given.single?).Nodup := by
  have flags : (Switch.all.filter c.isSet).Nodup := (by decide : Switch.all.Nodup).filter _
  have apart : ∀ s ∈ Switch.all.filter c.isSet, s ≠ .format ∧ s ≠ .config := by
    intro s hs
    have set := (List.mem_filter.mp hs).2
    exact ⟨by rintro rfl; exact Bool.false_ne_true set, by rintro rfl; exact Bool.false_ne_true set⟩
  rw [filterMap_options]
  simp only [Given.single?, Given.switch, List.filterMap_none, List.append_nil, List.filterMap_some]
  generalize Switch.all.filter c.isSet = flagged at flags apart
  cases c.format <;> cases c.config <;> simp_all [List.nodup_append]

theorem mem_options {s : Switch} : .flag s ∈ c.options ↔ c.isSet s = true := by
  unfold options
  simp only [List.mem_append, List.mem_map, List.mem_filter]
  have all : s ∈ Switch.all := by cases s <;> decide
  simp [all]

theorem valid_options (named : c.config ≠ some []) : ∀ g ∈ c.options, g.IsValid := by
  intro g hg
  cases g with
  | flag s => exact c.isFlag_of_isSet (c.mem_options.mp hg)
  | exclude pattern => trivial
  | format f => trivial
  | config file =>
    have given : file ∈ c.options.filterMap Given.file? := List.mem_filterMap.mpr ⟨_, hg, rfl⟩
    rw [files_options, Option.mem_toList] at given
    rintro rfl
    exact named given

/-- a permutation of at most one element is that element -/
theorem getLast?_of_perm {α : Type} {l : List α} {o : Option α} (h : l.Perm o.toList) :
    l.getLast? = o := by
  cases o with
  | none => rw [h.eq_nil]; rfl
  | some a => rw [List.perm_singleton.mp h]; rfl

end

variable {c : CommandLine}

/-- **Whatever a command line asks for can be written down**, and is read back from its options in
any order that keeps the patterns in theirs, with `--` and the files behind them; only a file with
settings must have a name. -/
theorem parse_options (named : c.config ≠ some []) {options : List Given}
    (perm : options.Perm c.options) (order : options.filterMap Given.pattern? = c.exclude) :
    parse (options.map Given.argument ++ bytesOf "--" :: c.files.map bytesOf) = .ok c := by
  have valid : ∀ g ∈ options, g.IsValid := fun g hg => c.valid_options named g (perm.mem_iff.mp hg)
  have once : (options.filterMap Given.single?).Nodup :=
    (perm.filterMap _).nodup_iff.mpr c.nodup_options
  have taken := Progress.run_arguments (p := {}) rfl rfl valid once
    (fun _ _ h => absurd h List.not_mem_nil) (bytesOf "--" :: c.files.map bytesOf)
  obtain ⟨q, r, run, settled, result⟩ := Progress.run_trailing
    (Progress.idle_foldl (p := {}) rfl options) (Progress.open_foldl rfl options) c.files
  have read : r.result = c := by
    rw [result, Progress.result_foldl]
    refine eq_of_isSet ?_ ?_ ?_ ?_ fun s => ?_
    · show (options.foldl Given.apply {}).files ++ c.files = c.files
      rw [files_foldl]
      rfl
    · show (options.foldl Given.apply {}).exclude = c.exclude
      rw [exclude_foldl, order]
      rfl
    · show (options.foldl Given.apply {}).format = c.format
      rw [format_foldl, getLast?_of_perm (c.formats_options ▸ perm.filterMap _)]
      exact Option.or_none
    · show (options.foldl Given.apply {}).config = c.config
      rw [config_foldl, getLast?_of_perm (c.files_options ▸ perm.filterMap _)]
      exact Option.or_none
    · have same := isSet_foldl {} options valid s
      rw [perm.mem_iff, mem_options] at same
      have unset : CommandLine.isSet {} s = false := by cases s <;> rfl
      rw [unset] at same
      rw [Bool.eq_iff_iff]
      refine Iff.trans ?_ (same.trans (by simp))
      cases s <;> exact Iff.rfl
  unfold parse
  rw [taken, run]
  show (Progress.orError q.settle >>= _) = _
  rw [settled]
  exact congrArg Except.ok read

/-- a command line whose patterns, files and settings look like options; the path of the settings is
no text -/
def disguised : CommandLine where
  files := ["--", "-e", "--exclude=a"]
  exclude := ["--", "-q=1 x"]
  quiet := true
  format := some .json
  config := some (Text.equals :: [0xFF])
  noColor := true

theorem parse_options_disguised :
    disguised.config ≠ some [] ∧
      [Given.config [Text.equals, 0xFF], .exclude "--", .flag .noColor, .format .json,
        .exclude "-q=1 x", .flag .quiet].Perm disguised.options ∧
      [Given.config [Text.equals, 0xFF], .exclude "--", .flag .noColor, .format .json,
        .exclude "-q=1 x", .flag .quiet].filterMap Given.pattern? = disguised.exclude ∧
      parse ((bytesOf "--config==" ++ [0xFF]) :: ["--exclude=--", "--no-color", "--format=json",
        "--exclude=-q=1 x", "--quiet", "--", "--", "-e", "--exclude=a"].map bytesOf) =
          .ok disguised := by
  have named : disguised.config ≠ some [] := by decide
  have perm : [Given.config [Text.equals, 0xFF], .exclude "--", .flag .noColor, .format .json,
      .exclude "-q=1 x", .flag .quiet].Perm disguised.options := by decide
  exact ⟨named, perm, rfl, parse_options named perm rfl⟩

end CommandLine
end AnnotationAudit
