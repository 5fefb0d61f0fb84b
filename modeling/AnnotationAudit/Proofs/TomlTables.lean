import AnnotationAudit.Toml.Value

/-!
# Tables of TOML documents

A table is built by inserting entries where they belong, so that its keys ascend and none of them
is there twice, in the table of a document and in all tables inside it.

* `Yields`                what a computation may give;
* `Value.IsSorted`        the keys of all tables of a value ascend;
* `Table.descend_sorted`  changing a table below others keeps that;
* `Progress.step_sorted`  so does one expression of a document;
* `isSorted_of_parse`     so it holds of documents.
-/

namespace AnnotationAudit
namespace Toml

/-! ## what a computation may give -/

/-- all that a computation gives has a property; it may fail -/
def Yields {α : Type} (P : α → Prop) (x : Except Fault α) : Prop := ∀ a, x = .ok a → P a

namespace Yields

variable {α β : Type} {P : α → Prop} {Q : β → Prop}

theorem error (f : Fault) : Yields P (.error f) := nofun

theorem ok {a : α} (h : P a) : Yields P (.ok a) := fun _ ha => Except.ok.inj ha ▸ h

theorem any (x : Except Fault α) : Yields (fun _ => True) x := fun _ _ => trivial

theorem bind {x : Except Fault α} {f : α → Except Fault β} (hx : Yields P x)
    (hf : ∀ a, P a → Yields Q (f a)) : Yields Q (x >>= f) := by
  cases x with
  | error e => exact nofun
  | ok a => exact hf a (hx a rfl)

/-- a first step of which nothing has to be known -/
theorem after (x : Except Fault α) {f : α → Except Fault β} (hf : ∀ a, Yields Q (f a)) :
    Yields Q (x >>= f) := (any x).bind fun a _ => hf a

end Yields

/-! ## sorted tables -/

/-- the keys of entries ascend, so that none of them is there twice -/
def Entries.Ascends (es : Entries) : Prop := es.Pairwise fun a b => a.1.name < b.1.name

/-- the keys of all tables of a value ascend -/
inductive Value.IsSorted : Value → Prop where
  | scalar (s : Scalar) : IsSorted (.scalar s)
  | array (ofTables : Bool) {items : List (Span × Value)}
      (items_sorted : ∀ x ∈ items, IsSorted x.2) : IsSorted (.array ofTables items)
  | table (origin : Origin) {es : List (Key × Span × Value)} (ascends : Entries.Ascends es)
      (values_sorted : ∀ e ∈ es, IsSorted e.2.2) : IsSorted (.table origin es)

/-- entries whose keys ascend, in them as well -/
structure Entries.IsSorted (es : Entries) : Prop where
  ascends : es.Ascends
  values : ∀ e ∈ es, e.2.2.IsSorted

def Table.IsSorted (t : Table) : Prop := t.entries.IsSorted

theorem Value.IsSorted.entries {origin : Origin} {es : Entries}
    (h : (Value.table origin es).IsSorted) : es.IsSorted := by
  cases h with
  | table _ ascends values => exact ⟨ascends, values⟩

theorem Value.IsSorted.items {ofTables : Bool} {items : List (Span × Value)}
    (h : (Value.array ofTables items).IsSorted) : ∀ x ∈ items, x.2.IsSorted := by
  cases h with
  | array _ items => exact items

theorem Table.IsSorted.value {t : Table} (h : t.IsSorted) : (Value.ofTable t).IsSorted :=
  .table t.origin h.ascends h.values

theorem isSorted_empty (origin : Origin) : Table.IsSorted ⟨origin, []⟩ :=
  ⟨List.Pairwise.nil, fun _ he => absurd he List.not_mem_nil⟩

namespace Entries

variable {es : Entries} {e x : Key × Span × Value} {k : String}

theorem mem_of_get? (h : Entries.get? es k = some e) : e ∈ es ∧ e.1.name = k := by
  induction es with
  | nil => cases h
  | cons f es ih =>
    rw [Entries.get?] at h
    split at h
    · obtain rfl := Option.some.inj h
      exact ⟨List.mem_cons_self, ‹_›⟩
    · exact (ih h).imp_left (List.mem_cons_of_mem f)

/-- what is found under a key of sorted entries is sorted -/
theorem IsSorted.get? (h : es.IsSorted) (he : Entries.get? es k = some e) : e.2.2.IsSorted :=
  h.values e (mem_of_get? he).1

/-- an entry that is inserted takes the place of the one of its key, if there is one -/
theorem mem_insert (h : x ∈ Entries.insert e es) : x ∈ es ∨ x.1.name = e.1.name ∧ x.2 = e.2 := by
  induction es with
  | nil =>
    obtain rfl := List.mem_singleton.mp h
    exact .inr ⟨rfl, rfl⟩
  | cons f es ih =>
    rw [Entries.insert] at h
    split at h
    · next same =>
      rcases List.mem_cons.mp h with rfl | h
      · exact .inr ⟨same.symm, rfl⟩
      · exact .inl (List.mem_cons_of_mem f h)
    · split at h
      · rcases List.mem_cons.mp h with rfl | h
        · exact .inr ⟨rfl, rfl⟩
        · exact .inl h
      · rcases List.mem_cons.mp h with rfl | h
        · exact .inl List.mem_cons_self
        · exact (ih h).imp_left (List.mem_cons_of_mem f)

theorem Ascends.insert (h : es.Ascends) (e : Key × Span × Value) :
    (Entries.insert e es).Ascends := by
  induction es with
  | nil => exact List.pairwise_singleton _ e
  | cons f es ih =>
    obtain ⟨first, rest⟩ := List.pairwise_cons.mp h
    rw [Entries.insert]
    split
    · exact List.pairwise_cons.mpr ⟨first, rest⟩
    · next other =>
      split
      · next before =>
        refine List.pairwise_cons.mpr ⟨fun x hx => ?_, h⟩
        rcases List.mem_cons.mp hx with rfl | hx
        · exact before
        · exact String.lt_trans before (first x hx)
      · next notBefore =>
        refine List.pairwise_cons.mpr ⟨fun x hx => ?_, ih rest⟩
        rcases mem_insert hx with hx | ⟨hx, -⟩
        · exact first x hx
        · rw [hx]
          exact String.not_le.mp fun le =>
            other (String.le_antisymm le (String.not_lt.mp notBefore))

theorem IsSorted.insert (h : es.IsSorted) (he : e.2.2.IsSorted) :
    (Entries.insert e es).IsSorted := by
  refine ⟨h.ascends.insert e, fun x hx => ?_⟩
  rcases mem_insert hx with hx | ⟨-, hx⟩
  · exact h.values x hx
  · rw [hx]
    exact he

end Entries

/-! ## building tables -/

/-- changing the table at a path keeps all tables sorted, if it keeps that table sorted -/
theorem Table.descend_sorted {dotted inline : Bool} {f : Table → Except Fault Table}
    (hf : ∀ t, t.IsSorted → Yields Table.IsSorted (f t)) (path : List Key) :
    ∀ t : Table, t.IsSorted → Yields Table.IsSorted (t.descend dotted inline f path) := by
  induction path with
  | nil => exact hf
  | cons k path ih =>
    intro t h
    have put {v : Value} (hv : v.IsSorted) (span : Span) :
        Table.IsSorted { t with entries := Entries.insert (k, span, v) t.entries } :=
      Entries.IsSorted.insert h hv
    rw [Table.descend]
    dsimp only
    split
    · exact (ih _ (isSorted_empty _)).bind fun child hc => .ok (put hc.value _)
    · next span origin entries found =>
      have inside : Table.IsSorted ⟨origin, entries⟩ := (Entries.IsSorted.get? h found).entries
      split
      · exact .error _
      · split
        · exact .error _
        · exact (ih _ inside).bind fun child hc => .ok (put hc.value _)
    · next span items found =>
      have elements := (Entries.IsSorted.get? h found).items
      split
      · next last origin entries before reversed =>
        have mem {x : Span × Value} :
            x ∈ items ↔ x = (last, .table origin entries) ∨ x ∈ before := by
          rw [← List.mem_reverse, reversed, List.mem_cons]
        have inside : Table.IsSorted ⟨origin, entries⟩ := (elements _ (mem.mpr (.inl rfl))).entries
        refine (ih _ inside).bind fun child hc => .ok (put (.array true fun x hx => ?_) _)
        rcases List.mem_append.mp hx with hx | hx
        · exact elements x (mem.mpr (.inr (List.mem_reverse.mp hx)))
        · obtain rfl := List.mem_singleton.mp hx
          exact hc.value
      · exact .error _
    · exact .error _

theorem Table.add_sorted {t : Table} (h : t.IsSorted) {v : Value} (hv : v.IsSorted)
    (path : List Key) (k : Key) (span : Span) (inline : Bool) :
    Yields Table.IsSorted (t.add path k span v inline) := by
  refine descend_sorted (fun parent hp => ?_) path t h
  split
  · exact .error _
  · split
    · exact .error _
    · exact .ok (Entries.IsSorted.insert hp hv)

/-! ## values -/

mutual

theorem readValue_sorted : ∀ raw : RawValue, Yields (fun v => v.2.IsSorted) (readValue raw)
  | .scalar raw => by
    rw [readValue]
    exact .after _ fun s => .ok (.scalar s)
  | .array span raws => by
    rw [readValue]
    exact (readItems_sorted raws).bind fun vs hvs => .ok (.array false hvs)
  | .table span raws => by
    rw [readValue]
    exact (readEntries_sorted raws _ (isSorted_empty _)).bind fun t ht => .ok ht.value

theorem readItems_sorted : ∀ raws : List RawValue,
    Yields (fun vs => ∀ v ∈ vs, v.2.IsSorted) (readItems raws)
  | [] => .ok fun _ hv => absurd hv List.not_mem_nil
  | raw :: raws => by
    rw [readItems]
    exact (readValue_sorted raw).bind fun v hv => (readItems_sorted raws).bind fun vs hvs =>
      .ok (List.forall_mem_cons.mpr ⟨hv, hvs⟩)

theorem readEntries_sorted : ∀ (raws : List (List Raw × RawValue)) (t : Table), t.IsSorted →
    Yields Table.IsSorted (readEntries raws t)
  | [], t, h => .ok h
  | (key, raw) :: rest, t, h => by
    rw [readEntries]
    exact .after _ fun (path, k) => (readValue_sorted raw).bind fun (span, v) hv =>
      (Table.add_sorted h hv path k span true).bind fun t' ht' => readEntries_sorted rest t' ht'

end

/-! ## documents -/

namespace Progress

/-- the tables of a document read so far are sorted -/
structure IsSorted (p : Progress) : Prop where
  root : p.root.IsSorted
  current : p.current.IsSorted

theorem entriesAt_sorted (path : List Key) : ∀ t : Table, t.IsSorted →
    Entries.IsSorted (start.entriesAt t path) := by
  have none_found : Entries.IsSorted [] := isSorted_empty {}
  induction path with
  | nil => exact fun t h => h
  | cons k path ih =>
    intro t h
    rw [start.entriesAt]
    split
    · next found => exact ih _ (Entries.IsSorted.get? h found).entries
    · next found =>
      have elements := (Entries.IsSorted.get? h found).items
      split
      · next last => exact ih _ (elements _ (List.mem_of_getLast? last)).entries
      · exact none_found
    · exact none_found

theorem close_sorted {p : Progress} (h : p.IsSorted) : Yields IsSorted p.close := by
  unfold close
  split
  · exact .ok ⟨h.current, isSorted_empty {}⟩
  · next hd _ =>
    have element : ∀ x ∈ [(hd.span, Value.ofTable p.current)], x.2.IsSorted :=
      fun x hx => List.mem_singleton.mp hx ▸ h.current.value
    refine (Table.descend_sorted (fun parent hp => ?_) hd.path p.root h.root).bind
      fun root hr => .ok ⟨hr, isSorted_empty {}⟩
    split
    · split
      · exact .ok (Entries.IsSorted.insert hp (.array true element))
      · next found =>
        have elements := (Entries.IsSorted.get? hp found).items
        refine .ok (Entries.IsSorted.insert hp (.array true fun x hx => ?_))
        exact (List.mem_append.mp hx).elim (elements x) (element x)
      · exact .error _
    · exact .ok (Entries.IsSorted.insert hp h.current.value)

theorem start_sorted {p : Progress} (h : p.IsSorted) (hd : Header) :
    Yields IsSorted (p.start hd) := by
  unfold start
  split
  · exact .ok ⟨h.root, isSorted_empty {}⟩
  · exact .after _ fun _ => .ok ⟨h.root, entriesAt_sorted _ p.root h.root⟩

/-- one expression keeps all tables sorted -/
theorem step_sorted {p : Progress} (h : p.IsSorted) (e : Expression) :
    Yields IsSorted (p.step e) := by
  cases e with
  | header ofArray span raws =>
    unfold step
    exact (close_sorted h).bind fun q hq => .after _ fun (path, key) => start_sorted hq _
  | pair raws raw =>
    unfold step
    exact .after _ fun (path, k) => (readValue_sorted raw).bind fun (span, v) hv =>
      (Table.add_sorted h.current hv path k span false).bind fun t ht => .ok ⟨h.root, ht⟩

theorem run_sorted (es : List Expression) : ∀ p : Progress, p.IsSorted →
    Yields IsSorted (p.run es) := by
  induction es with
  | nil => exact fun p h => .ok h
  | cons e es ih =>
    intro p h
    rw [run]
    exact (step_sorted h e).bind ih

end Progress

/-- the keys of all tables of a document ascend -/
theorem isSorted_of_parse {document : String} {es : Entries} (h : parse document = .ok es) :
    es.IsSorted := by
  have empty : Progress.IsSorted {} := ⟨isSorted_empty {}, isSorted_empty {}⟩
  have yields : Yields Entries.IsSorted (parse document) := by
    unfold parse
    exact .after _ fun expressions => (Progress.run_sorted expressions {} empty).bind fun p hp =>
      (Progress.close_sorted hp).bind fun q hq => .ok hq.root
  exact yields es h

end Toml
end AnnotationAudit
