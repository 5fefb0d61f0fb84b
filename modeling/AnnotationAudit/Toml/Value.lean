import AnnotationAudit.Toml.Scalar

/-!
# TOML values

* `Value`        a scalar, an array or a table. Tables are sorted by their keys, and remember how
                 they came about, since that decides whether they may be extended;
* `Toml.parse`   the table of a whole document.

A key may not be given twice, and neither may a table that was given as such.
-/

namespace AnnotationAudit
namespace Toml

/-- a key and its place -/
structure Key where
  name : String
  span : Span
deriving DecidableEq, Repr, Inhabited

/-- how a table came about -/
structure Origin where
  /-- only by tables below it -/
  implicit : Bool := false
  /-- by a key of several parts -/
  dotted : Bool := false
  /-- as an inline table, or inside one -/
  inline : Bool := false
deriving DecidableEq, Repr, Inhabited

inductive Value where
  | scalar (s : Scalar)
  /-- an array; of tables, if it was given by headers -/
  | array (ofTables : Bool) (items : List (Span × Value))
  | table (origin : Origin) (entries : List (Key × Span × Value))
deriving Inhabited

/-- the entries of a table, sorted by their keys -/
abbrev Entries := List (Key × Span × Value)

/-- a table under construction -/
structure Table where
  origin : Origin := {}
  entries : Entries := []
deriving Inhabited

namespace Value

def ofTable (t : Table) : Value := .table t.origin t.entries

def typeName : Value → String
  | .scalar (.text _) => "string"
  | .scalar (.integer _) => "integer"
  | .scalar (.float _) => "float"
  | .scalar (.boolean _) => "boolean"
  | .scalar .datetime => "datetime"
  | .array _ _ => "array"
  | .table _ _ => "table"

end Value

/-! ## entries -/

namespace Entries

def get? : Entries → String → Option (Key × Span × Value)
  | [], _ => none
  | e :: es, k => if e.1.name = k then some e else get? es k

/-- the entries with another one, which replaces the one of the same key -/
def insert (e : Key × Span × Value) : Entries → Entries
  | [] => [e]
  | f :: fs =>
    if e.1.name = f.1.name then (f.1, e.2) :: fs
    else if e.1.name < f.1.name then e :: f :: fs
    else f :: insert e fs

def erase : Entries → String → Entries
  | [], _ => []
  | e :: es, k => if e.1.name = k then es else e :: erase es k

end Entries

/-! ## descending -/

def duplicateKey (k : Key) : Fault := ⟨"duplicate key", none, k.span⟩

/-- the fault of a key below a value that is no table -/
def cannotExtend (type : String) (k : Key) : Fault :=
  ⟨"cannot extend value of type " ++ type ++ " with a dotted key", none, k.span⟩

/-- changes the table at a path, where tables that are missing are made -/
def Table.descend (dotted inline : Bool) (f : Table → Except Fault Table) :
    List Key → Table → Except Fault Table
  | [], t => f t
  | k :: path, t => do
    let put (span : Span) (v : Value) : Table :=
      { t with entries := Entries.insert (k, span, v) t.entries }
    match Entries.get? t.entries k.name with
    | none => do
      let child ← Table.descend dotted inline f path ⟨⟨true, dotted, inline⟩, []⟩
      pure (put k.span (.ofTable child))
    | some (_, span, .table origin entries) =>
      if origin.inline && !inline then .error (cannotExtend "inline table" k)
      else if dotted && !origin.implicit then .error (duplicateKey k)
      else do
        let child ← Table.descend dotted inline f path ⟨origin, entries⟩
        pure (put span (.ofTable child))
    | some (_, span, .array true items) =>
      match items.reverse with
      | (last, .table origin entries) :: before => do
        let child ← Table.descend dotted inline f path ⟨origin, entries⟩
        pure (put span (.array true (before.reverse ++ [(last, .ofTable child)])))
      | _ => .error (cannotExtend "array" k)
    | some (_, _, v) => .error (cannotExtend v.typeName k)

def Table.add (path : List Key) (k : Key) (span : Span) (v : Value) (inline : Bool) (t : Table) :
    Except Fault Table :=
  t.descend (!path.isEmpty) inline (fun parent =>
    if parent.origin.dotted == path.isEmpty then .error (duplicateKey k)
    else
      match Entries.get? parent.entries k.name with
      | some _ => .error (duplicateKey k)
      | none => .ok { parent with entries := Entries.insert (k, span, v) parent.entries }) path

/-! ## values -/

def readKeys : List Raw → Except Fault (List Key)
  | [] => .ok []
  | raw :: raws => do
    let name ← readKey raw
    let ks ← readKeys raws
    pure (⟨name, raw.span⟩ :: ks)

/-- a key as the path to a table and the last part -/
def splitKey (raws : List Raw) : Except Fault (List Key × Key) := do
  let ks ← readKeys raws
  pure (ks.dropLast, ks.getLast?.getD ⟨"", ⟨0, 0⟩⟩)

mutual

def readValue : RawValue → Except Fault (Span × Value)
  | .scalar raw => do
    let s ← readScalar raw
    pure (raw.span, .scalar s)
  | .array span raws => do
    let vs ← readItems raws
    pure (span, .array false vs)
  | .table span raws => do
    let t ← readEntries raws ⟨⟨false, false, true⟩, []⟩
    pure (span, .ofTable t)

def readItems : List RawValue → Except Fault (List (Span × Value))
  | [] => .ok []
  | raw :: raws => do
    let v ← readValue raw
    let vs ← readItems raws
    pure (v :: vs)

/-- the entries of an inline table, added to those read before -/
def readEntries : List (List Raw × RawValue) → Table → Except Fault Table
  | [], t => .ok t
  | (key, raw) :: rest, t => do
    let (path, k) ← splitKey key
    let (span, v) ← readValue raw
    let t ← t.add path k span v true
    readEntries rest t

end

/-! ## documents -/

/-- a header that has been read -/
structure Header where
  ofArray : Bool
  span : Span
  path : List Key
  key : Key

/-- the tables of a document read so far -/
structure Progress where
  root : Table := {}
  /-- the table that is being read -/
  current : Table := {}
  /-- the header of that table; there is none before the first header -/
  header : Option Header := none

namespace Progress

/-- puts the table that is being read where it belongs -/
def close (p : Progress) : Except Fault Progress :=
  match p.header with
  | none => .ok { root := p.current }
  | some h => do
    let root ← p.root.descend false false (fun parent =>
      if h.ofArray then
        match Entries.get? parent.entries h.key.name with
        | none =>
          .ok { parent with
            entries := Entries.insert
              (h.key, h.key.span, .array true [(h.span, .ofTable p.current)]) parent.entries }
        | some (_, span, .array true items) =>
          .ok { parent with
            entries := Entries.insert
              (h.key, span, .array true (items ++ [(h.span, .ofTable p.current)]))
              parent.entries }
        | some _ => .error (duplicateKey h.key)
      else
        .ok { parent with
          entries := Entries.insert (h.key, h.span, .ofTable p.current) parent.entries }) h.path
    pure { root }

/-- begins the table of a header; a table that so far came about only by tables below it is taken
up -/
def start (p : Progress) (h : Header) : Except Fault Progress :=
  if h.ofArray then .ok { p with current := {}, header := some h }
  else do
    let _ ← p.root.descend false false (fun parent =>
      match Entries.get? parent.entries h.key.name with
      | none => .ok parent
      | some (_, _, .table origin _) =>
        if origin.implicit && !origin.dotted then .ok parent else .error (duplicateKey h.key)
      | some _ => .error (duplicateKey h.key)) h.path
    let current := entriesAt p.root (h.path ++ [h.key])
    pure { p with current := ⟨{}, current⟩, header := some h }
where
  /-- the entries of the table at a path -/
  entriesAt (t : Table) : List Key → Entries
    | [] => t.entries
    | k :: path =>
      match Entries.get? t.entries k.name with
      | some (_, _, .table origin entries) => entriesAt ⟨origin, entries⟩ path
      | some (_, _, .array true items) =>
        match items.getLast? with
        | some (_, .table origin entries) => entriesAt ⟨origin, entries⟩ path
        | _ => []
      | _ => []

def step (p : Progress) : Expression → Except Fault Progress
  | .header ofArray span raws => do
    let p ← p.close
    let (path, key) ← splitKey raws
    p.start ⟨ofArray, span, path, key⟩
  | .pair raws raw => do
    let (path, k) ← splitKey raws
    let (span, v) ← readValue raw
    let current ← p.current.add path k span v false
    pure { p with current }

def run : Progress → List Expression → Except Fault Progress
  | p, [] => .ok p
  | p, e :: es => do
    let p ← p.step e
    run p es

end Progress

def parse (document : String) : Except Fault Entries := do
  let es ← Document.parse document
  let p ← Progress.run {} es
  let p ← p.close
  pure p.root.entries

end Toml
end AnnotationAudit
