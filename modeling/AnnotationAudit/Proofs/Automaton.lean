import AnnotationAudit.Proofs.Tables
import AnnotationAudit.Python.Automaton

/-!
# What the automaton remembers

A state knows which productions are under way, but of the steps already read it keeps the marks
only: productions that differ in the symbols of those steps count as one.

* `Production.Alike`         two productions differ at most in symbols before a place;
* `At`                       a production may be under way at a place in a state;
* `Automaton.Leads`          every entry of a state comes from a place before the symbol just read;
* `State.Reads`              the symbols on which a state does something;
* `Entry.Ends`               behind the start production, the text ends;
* `Automaton.Sound`          what holds of the automaton at all times;
* `goto_spec`                `goto` keeps it, changes no entry and leads to the state it gives;
* `permits_of_mem_actions`   a state has no action but those that what has been read permits.
-/

namespace AnnotationAudit
namespace Python

/-! ## symbols -/

theorem Terminal.rank_injective {t u : Terminal} (h : t.rank = u.rank) : t = u :=
  Option.some.inj (by rw [← t.getElem?_all, h, u.getElem?_all])

theorem Nonterminal.rank_injective {n m : Nonterminal} (h : n.rank = m.rank) : n = m :=
  Option.some.inj (by rw [← n.getElem?_all, h, m.getElem?_all])

theorem Terminal.rank_lt (t : Terminal) : t.rank < Terminal.count := by
  obtain ⟨h, -⟩ := List.getElem?_eq_some_iff.mp t.getElem?_all
  exact Terminal.length_all ▸ h

theorem Nonterminal.rank_lt (n : Nonterminal) : n.rank < Nonterminal.count := by
  obtain ⟨h, -⟩ := List.getElem?_eq_some_iff.mp n.getElem?_all
  exact Nonterminal.length_all ▸ h

def Symbol.isReal : Symbol → Bool
  | .skipped | .error => false
  | _ => true

/-- the grammar's symbols are told apart by their ranks -/
theorem Symbol.eq_of_rank {x y : Symbol} (hx : x.isReal = true) (hy : y.isReal = true)
    (h : x.rank = y.rank) : x = y := by
  cases x <;> cases y <;> simp only [Symbol.rank, Symbol.isReal, Bool.false_eq_true] at h hx hy
  case terminal.terminal => rw [Terminal.rank_injective h]
  case terminal.nonterminal t n => have := t.rank_lt; omega
  case terminal.repetition t k => have := t.rank_lt; omega
  case nonterminal.terminal n t => have := t.rank_lt; omega
  case nonterminal.nonterminal => rw [Nonterminal.rank_injective (Nat.add_left_cancel h)]
  case nonterminal.repetition n k => have := n.rank_lt; omega
  case repetition.terminal k t => have := t.rank_lt; omega
  case repetition.nonterminal k n => have := n.rank_lt; omega
  case repetition.repetition => rw [Nat.add_left_cancel h]

/-! ## sets of terminal symbols -/

namespace Terminals

variable {s t : Terminals} {x y : Terminal}

theorem has_or : has (s ||| t) x = true ↔ has s x = true ∨ has t x = true := by
  rw [has, Nat.testBit_or, Bool.or_eq_true]
  rfl

theorem eq_of_has_single (h : has (single y) x = true) : x = y := by
  rw [has, single, Nat.one_shiftLeft, Nat.testBit_two_pow] at h
  exact (Terminal.rank_injective (of_decide_eq_true h)).symm

theorem mem_of_has_ofList {ts : List Terminal} (h : has (ofList ts) x = true) : x ∈ ts := by
  have added : ∀ (s : Terminals) (y : Terminal), has (s ||| single y) x = true →
      has s x = true ∨ x = y := fun s y h => (has_or.mp h).imp_right eq_of_has_single
  obtain ⟨y, hy, rfl⟩ := testBit_foldl_zero added h
  exact hy

end Terminals

/-! ## productions that count as one -/

namespace Production

/-- what the steps of a production are shown as and which parts they play -/
def marks (p : Production) : List (Option Kind × Option Field) :=
  p.steps.map fun s => (s.shown, s.field)

/-- the productions differ at most in the symbols of their first `d` steps -/
structure Alike (p q : Production) (d : Nat) : Prop where
  variableIndex : p.variableIndex = q.variableIndex
  marks : p.marks = q.marks
  rest : p.steps.drop d = q.steps.drop d

theorem Alike.refl (p : Production) (d : Nat) : p.Alike p d := ⟨rfl, rfl, rfl⟩

theorem Alike.length_eq {p q : Production} {d : Nat} (h : p.Alike q d) :
    p.steps.length = q.steps.length := by
  simpa [Production.marks] using congrArg List.length h.marks

theorem alike_of_sameAt {p q : Production} {d : Nat} (h : p.sameAt q d = true) : p.Alike q d := by
  simp only [sameAt, Bool.and_eq_true, beq_iff_eq] at h
  obtain ⟨⟨⟨⟨⟨hv, -⟩, hl⟩, -⟩, hm⟩, hr⟩ := h
  refine ⟨hv, ?_, hr⟩
  have front : (p.steps.take d).map (fun s => (s.shown, s.field)) =
      (q.steps.take d).map (fun s => (s.shown, s.field)) := by
    have hlen : (p.steps.take d).length = (q.steps.take d).length := by simp [hl]
    generalize p.steps.take d = ss at hm hlen
    generalize q.steps.take d = ts at hm hlen
    induction ss generalizing ts with
    | nil => cases ts with
      | nil => rfl
      | cons t ts => simp at hlen
    | cons s ss ih => cases ts with
      | nil => simp at hlen
      | cons t ts =>
        simp only [List.zip_cons_cons, List.all_cons, Bool.and_eq_true, beq_iff_eq] at hm
        rw [List.map_cons, List.map_cons, hm.1.1, hm.1.2, ih ts hm.2 (by simpa using hlen)]
  rw [marks, marks, ← List.take_append_drop d p.steps, ← List.take_append_drop d q.steps,
    List.map_append, List.map_append, front, hr]

end Production

/-! ## tables -/

namespace Tables

/-- what the automaton relies on in its tables -/
structure Sound (grammar : Array Production) (count : Nat) (t : Tables) : Prop where
  productions : t.productions = grammar.push (startOf count)
  numbered : ∀ i, t.numbered.get? i = t.productions[i]?
  /-- a place is kept for all that are like it -/
  same : ∀ {i d : Nat} {p : Production}, t.productions[i]? = some p →
    ∃ q, t.productions[(t.same.getD i [])[d]?.getD i]? = some q ∧ p.Alike q d
  starting : ∀ {x : Symbol} {i : Nat}, i ∈ t.beginningWith x →
    ∃ p s ss, grammar[i]? = some p ∧ p.steps = s :: ss ∧ s.symbol.rank = x.rank
  empties : ∀ i ∈ t.empties, ∃ p, t.productions[i]? = some p ∧ p.steps = []

/-- the numbered items of an array -/
theorem mem_zipIdx_toList {α : Type} {xs : Array α} {c : α × Nat} :
    c ∈ xs.toList.zipIdx ↔ xs[c.2]? = some c.1 := by
  rw [List.mem_zipIdx_iff_getElem?, Array.getElem?_toList]

theorem testBit_startingWith {n k : Nat} {ps : List (Production × Nat)}
    (h : (startingWith n ps).testBit k = true) :
    ∃ c ∈ ps, ∃ s ss, c.1.steps = s :: ss ∧ k = s.symbol.rank * n + c.2 := by
  refine testBit_foldl_zero (fun r c h => ?_) h
  split at h
  · next s ss steps =>
    refine (Rows.testBit_add h).imp_right fun ⟨i, hk, bit⟩ => ⟨s, ss, steps, ?_⟩
    rw [Nat.one_shiftLeft, Nat.testBit_two_pow] at bit
    rw [hk, of_decide_eq_true bit]
  · exact .inl h

/-- no production is put in a group that was not there -/
theorem mem_groups {k v : Nat} {cs row : List (Production × Nat)} (h : row ∈ groups k v cs)
    {c : Production × Nat} (hc : c ∈ row) : c ∈ cs := by
  induction k generalizing v cs with
  | zero => exact absurd h List.not_mem_nil
  | succ k ih =>
    rcases List.mem_cons.mp h with rfl | h
    · exact (List.takeWhile_sublist _).subset hc
    · exact (List.dropWhile_sublist _).subset (ih h)

/-- the production kept for a place is like the one that it is kept for -/
theorem alike_firstSame {i : Nat} {ps : Array Production} {peers : List (Production × Nat)}
    (numbered : ∀ c ∈ peers, ps[c.2]? = some c.1) {p : Production} (hp : ps[i]? = some p)
    (d : Nat) :
    ∃ q, ps[(firstSame peers p i)[d]?.getD i]? = some q ∧ p.Alike q d := by
  rw [firstSame, List.getElem?_map]
  by_cases hd : d < p.steps.length + 1
  · rw [List.getElem?_range hd, Option.map_some, Option.getD_some]
    cases hq : peers.find? fun q => p.sameAt q.1 d with
    | none => exact ⟨p, hp, .refl p d⟩
    | some q =>
      have same := List.find?_some (p := fun q : Production × Nat => p.sameAt q.1 d) hq
      exact ⟨q.1, numbered q (List.mem_of_find?_eq_some hq), Production.alike_of_sameAt same⟩
  · rw [List.getElem?_eq_none (by rw [List.length_range]; omega)]
    exact ⟨p, hp, .refl p d⟩

theorem sound_build (grammar : Array Production) (count : Nat) :
    (build grammar count).Sound grammar count where
  productions := rfl
  numbered i := by
    rw [build, Table.get?_ofList, Array.getElem?_toList]
  same := by
    intro i d p hp
    have hi : (grammar.push (startOf count))[i]? = some p := hp
    let gs := groups (count + 1) 0 (grammar.push (startOf count)).toList.zipIdx
    have row : (build grammar count).same.getD i [] =
        firstSame ((Table.ofList gs).getD p.variableIndex []) p i := by
      rw [build, Table.getD_ofList, List.getElem?_map, List.getElem?_zipIdx, Array.getElem?_toList,
        hi, Option.map_some, Option.map_some, Option.getD_some, Nat.zero_add]
    rw [row]
    refine alike_firstSame (fun c hc => ?_) hi d
    rw [Table.getD_ofList] at hc
    cases hg : gs[p.variableIndex]? with
    | none => exact absurd (hg ▸ hc) List.not_mem_nil
    | some peers =>
      rw [hg] at hc
      exact mem_zipIdx_toList.mp (mem_groups (List.mem_of_getElem? hg) hc)
  starting := by
    intro x i hi
    have size : (build grammar count).startProduction = grammar.size := by
      rw [startProduction, build, Array.size_push, Nat.add_sub_cancel]
    have bit := testBit_of_mem_members hi
    rw [size, Rows.testBit_row, Bool.and_eq_true] at bit
    obtain ⟨c, hc, s, ss, steps, place⟩ := testBit_startingWith bit.2
    have number := mem_zipIdx_toList.mp hc
    have hi : i < grammar.size := of_decide_eq_true bit.1
    have hc : c.2 < grammar.size := (Array.getElem?_eq_some_iff.mp number).1
    have row (r : Nat) {j : Nat} (hj : j < grammar.size) :
        (r * grammar.size + j) / grammar.size = r := by
      rw [Nat.mul_comm, Nat.mul_add_div (Nat.zero_lt_of_lt hj), Nat.div_eq_of_lt hj, Nat.add_zero]
    have rank : s.symbol.rank = x.rank := by
      rw [← row s.symbol.rank hc, ← place, row x.rank hi]
    obtain rfl : c.2 = i := by
      rw [rank] at place
      omega
    exact ⟨c.1, s, ss, number, steps, rank⟩
  empties := by
    intro i hi
    obtain ⟨⟨p, j⟩, hj, rfl⟩ := List.mem_map.mp hi
    obtain ⟨hj, he⟩ := List.mem_filter.mp hj
    exact ⟨p, mem_zipIdx_toList.mp hj, List.isEmpty_iff.mp he⟩

variable {grammar : Array Production} {count : Nat} {t : Tables}

theorem Sound.startProduction_eq (h : t.Sound grammar count) :
    t.startProduction = grammar.size := by
  rw [startProduction, h.productions, Array.size_push, Nat.add_sub_cancel]

theorem Sound.productions_start (h : t.Sound grammar count) :
    t.productions[t.startProduction]? = some (startOf count) := by
  rw [h.startProduction_eq, h.productions, Array.getElem?_push_size]

theorem Sound.step?_eq (h : t.Sound grammar count) {i : Nat} {p : Production}
    (hp : t.productions[i]? = some p) (d : Nat) : t.step? i d = p.steps[d]? := by
  rw [step?, h.numbered, hp, Option.bind_some]

/-- all productions but the start production are the grammar's -/
theorem Sound.mem_grammar (h : t.Sound grammar count) {i : Nat} {p : Production}
    (hp : t.productions[i]? = some p) (hi : i ≠ t.startProduction) : p ∈ grammar := by
  rw [h.startProduction_eq] at hi
  rw [h.productions, Array.getElem?_push, if_neg hi] at hp
  exact Array.mem_of_getElem? hp

end Tables

/-! ## the places of a state -/

/-- what is supposed of the grammar: no production is one of the start production's own symbol, and
productions consist of real symbols -/
structure Regular (grammar : Array Production) (count : Nat) : Prop where
  variableIndex_ne : ∀ p ∈ grammar, p.variableIndex ≠ count
  isReal : ∀ p ∈ grammar, ∀ s ∈ p.steps, s.symbol.isReal = true

/-- `d` steps of the production with number `i` may have been read where the entries are `es`: one
of them says so, or nothing has been read of a production of the grammar -/
inductive At (grammar : Array Production) (es : List Entry) : Nat → Nat → Prop where
  | begun {e : Entry} : e ∈ es → At grammar es e.production e.dot
  | fresh {i : Nat} : i < grammar.size → At grammar es i 0

theorem At.mono {grammar : Array Production} {es fs : List Entry} {i d : Nat}
    (h : At grammar es i d)
    (sub : ∀ e ∈ es, e ∈ fs) : At grammar fs i d := by
  cases h with
  | begun he => exact .begun (sub _ he)
  | fresh hi => exact .fresh hi

/-- the entry `e` comes from a place among `es` at which `x` is next; `ps` are all productions -/
inductive Follows (grammar ps : Array Production) (es : List Entry) (x : Symbol) (e : Entry) :
    Prop where
  | mk {i d : Nat} {p p' : Production} {s : Step} (before : At grammar es i d)
      (dot : e.dot = d + 1) (source : ps[i]? = some p) (target : ps[e.production]? = some p')
      (alike : p.Alike p' (d + 1)) (step : p.steps[d]? = some s) (symbol : s.symbol = x)

/-- the entry is a place in a production -/
def Entry.Valid (ps : Array Production) (e : Entry) : Prop :=
  ∃ p, ps[e.production]? = some p ∧ e.dot ≤ p.steps.length

namespace Follows

variable {grammar ps : Array Production} {es fs : List Entry} {x : Symbol} {e : Entry}

theorem mono (h : Follows grammar ps es x e) (sub : ∀ e ∈ es, e ∈ fs) :
    Follows grammar ps fs x e := by
  obtain ⟨at_, hd, hp, hp', alike, hs, hx⟩ := h
  exact ⟨at_.mono sub, hd, hp, hp', alike, hs, hx⟩

theorem dot_pos (h : Follows grammar ps es x e) : 0 < e.dot := by
  obtain ⟨-, hd, -⟩ := h
  omega

theorem valid (h : Follows grammar ps es x e) : e.Valid ps := by
  obtain ⟨-, hd, -, hp', alike, hs, -⟩ := h
  refine ⟨_, hp', ?_⟩
  have := (List.getElem?_eq_some_iff.mp hs).1
  have := alike.length_eq
  omega

end Follows

/-- a place in a merged list is one in the list. What can be said of the symbols that may follow it,
and of two sets only if it can be said of one of them, can be said there. -/
theorem Entry.mem_merge {P : Terminals → Prop} (apart : ∀ a b, P (a ||| b) → P a ∨ P b)
    {es : List Entry} {e : Entry} (h : e ∈ Entry.merge es) (he : P e.ahead) :
    ∃ f ∈ es, f.production = e.production ∧ f.dot = e.dot ∧ P f.ahead := by
  induction es generalizing e with
  | nil => exact absurd h List.not_mem_nil
  | cons d es ih =>
    have old : ∀ f ∈ Entry.merge es, P f.ahead →
        ∃ f' ∈ d :: es, f'.production = f.production ∧ f'.dot = f.dot ∧ P f'.ahead :=
      fun f hf hP => by
        obtain ⟨f', hf', same⟩ := ih hf hP
        exact ⟨f', List.mem_cons_of_mem _ hf', same⟩
    rw [Entry.merge] at h
    split at h
    · next g gs hg =>
      split at h
      · next same =>
        rw [Bool.and_eq_true, beq_iff_eq, beq_iff_eq] at same
        rcases List.mem_cons.mp h with rfl | h
        · rcases apart _ _ he with hP | hP
          · exact ⟨d, List.mem_cons_self, same.1, same.2, hP⟩
          · exact old g (by rw [hg]; exact List.mem_cons_self) hP
        · exact old e (by rw [hg]; exact List.mem_cons_of_mem _ h) he
      · rcases List.mem_cons.mp h with rfl | h
        · exact ⟨e, List.mem_cons_self, rfl, rfl, he⟩
        · exact old e (by rw [hg]; exact h) he
    · obtain rfl := List.mem_singleton.mp h
      exact ⟨e, List.mem_cons_self, rfl, rfl, he⟩

/-- the entries behind a symbol come from places at which it is next -/
theorem State.follows_of_mem_successor {grammar : Array Production} {count : Nat} {t : Tables}
    (ht : t.Sound grammar count) (hg : Regular grammar count) {st : State} {x : Symbol}
    (hx : x.isReal = true) (valid : ∀ e ∈ st.entries, e.Valid t.productions) {e : Entry}
    (h : e ∈ st.successor t x) : Follows grammar t.productions st.entries x e := by
  obtain ⟨f, hf, hprod, hdot, -⟩ :=
    Entry.mem_merge (P := fun _ => True) (fun _ _ => .inl) h trivial
  have advanced : ∀ (e' : Entry) {p : Production} {s : Step},
      At grammar st.entries e'.production e'.dot → t.productions[e'.production]? = some p →
      p.steps[e'.dot]? = some s → s.symbol = x → e'.advance t = f →
      Follows grammar t.productions st.entries x e := by
    rintro e' p s before hp hs rfl rfl
    obtain ⟨p', hp', alike⟩ := ht.same (d := e'.dot + 1) hp
    exact ⟨before, hdot.symm, hp, by rw [← hprod]; exact hp', alike, hs, rfl⟩
  rw [mem_sorted, List.mem_append, List.mem_filterMap, List.mem_filterMap] at hf
  rcases hf with ⟨e', he', hf⟩ | ⟨i, hi, hf⟩
  · obtain ⟨p, hp, -⟩ := valid e' he'
    split at hf
    · next s hs =>
      rw [Entry.next?, ht.step?_eq hp] at hs
      split at hf
      · next hsx => exact advanced e' (.begun he') hp hs hsx (Option.some.inj hf)
      · cases hf
    · cases hf
  · obtain ⟨p, s, ss, hp, hss, hrank⟩ := ht.starting hi
    have hi' : i < grammar.size := (Array.getElem?_eq_some_iff.mp hp).1
    have hsx : s.symbol = x := Symbol.eq_of_rank
      (hg.isReal p (Array.mem_of_getElem? hp) s (by rw [hss]; exact List.mem_cons_self)) hx hrank
    have hp' : t.productions[i]? = some p := by
      rw [ht.productions, Array.getElem?_push, if_neg (Nat.ne_of_lt hi')]
      exact hp
    split at hf
    · cases hf
    · exact advanced ⟨i, 0, _⟩ (.fresh hi') hp' (by rw [hss]; rfl) hsx (Option.some.inj hf)

/-- what may follow the start production is the end of the text -/
def Entry.Ends (t : Tables) (e : Entry) : Prop :=
  e.production = t.startProduction → ∀ x, Terminals.has e.ahead x = true → x = .endOfText

/-- so it is one step further -/
theorem State.ends_of_mem_successor {grammar : Array Production} {count : Nat} {t : Tables}
    (ht : t.Sound grammar count) (hg : Regular grammar count) {st : State} {y : Symbol}
    (valid : ∀ e ∈ st.entries, e.Valid t.productions) (ends : ∀ e ∈ st.entries, e.Ends t)
    {e : Entry} (h : e ∈ st.successor t y) : e.Ends t := by
  intro start x hx
  obtain ⟨f, hf, hprod, -, hx⟩ :=
    Entry.mem_merge (P := fun s => Terminals.has s x = true) (fun _ _ => Terminals.has_or.mp) h hx
  have same : ∀ (e' : Entry) {p : Production}, t.productions[e'.production]? = some p →
      e'.advance t = f → e'.production = t.startProduction := by
    rintro e' p hp rfl
    obtain ⟨p', hp', alike⟩ := ht.same (d := e'.dot + 1) hp
    by_contra other
    have last : (e'.advance t).production = t.startProduction := hprod.trans start
    have target : t.productions[(e'.advance t).production]? = some p' := hp'
    rw [last, ht.productions_start] at target
    exact hg.variableIndex_ne p (ht.mem_grammar hp other)
      (alike.variableIndex.trans (congrArg _ (Option.some.inj target).symm))
  rw [mem_sorted, List.mem_append, List.mem_filterMap, List.mem_filterMap] at hf
  rcases hf with ⟨e', he', hf⟩ | ⟨i, hi, hf⟩
  · obtain ⟨p, hp, -⟩ := valid e' he'
    split at hf
    · split at hf
      · obtain rfl := Option.some.inj hf
        exact ends e' he' (same e' hp rfl) x hx
      · cases hf
    · cases hf
  · obtain ⟨p, s, ss, hp, -⟩ := ht.starting hi
    have hi' : i < grammar.size := (Array.getElem?_eq_some_iff.mp hp).1
    have hp' : t.productions[i]? = some p := by
      rw [ht.productions, Array.getElem?_push, if_neg (Nat.ne_of_lt hi')]
      exact hp
    split at hf
    · cases hf
    · have first : i = t.startProduction := same ⟨i, 0, _⟩ hp' (Option.some.inj hf)
      rw [ht.startProduction_eq] at first
      omega

/-- a state does something on the symbols that may come next, on those that may follow what is
complete, and on those that may stand anywhere -/
def State.Reads (t : Tables) (st : State) : Prop :=
  ∀ x, Terminals.has st.tokens x = true →
    Terminals.has st.shifts x = true ∨ st.complete t x ≠ [] ∨ x.isExtra = true

/-- what may follow something complete -/
def State.ends (t : Tables) (st : State) : Terminals :=
  st.entries.foldl (fun ts e => if (e.next? t).isNone then ts ||| e.ahead else ts) <|
    t.empties.foldl (fun ts p => ts ||| st.ahead.row Terminal.count (t.variableOf p)) 0

theorem State.complete_ne_nil {t : Tables} {st : State} {x : Terminal}
    (h : Terminals.has (st.ends t) x = true) : st.complete t x ≠ [] := by
  have begun : ∀ (ts : Terminals) (e : Entry),
      Terminals.has (if (e.next? t).isNone then ts ||| e.ahead else ts) x = true →
        Terminals.has ts x = true ∨ ((e.next? t).isNone && Terminals.has e.ahead x) = true := by
    intro ts e h
    split at h
    · next complete => exact (Terminals.has_or.mp h).imp_right fun h => by rw [complete, h]; rfl
    · exact .inl h
  have fresh : ∀ (ts : Terminals) (p : Nat),
      Terminals.has (ts ||| st.ahead.row Terminal.count (t.variableOf p)) x = true →
        Terminals.has ts x = true ∨
          Terminals.has (st.ahead.row Terminal.count (t.variableOf p)) x = true :=
    fun _ _ => Terminals.has_or.mp
  rcases testBit_foldl begun h with h | ⟨e, he, complete⟩
  · obtain ⟨p, hp, h⟩ := testBit_foldl_zero fresh h
    refine List.ne_nil_of_mem (a := ⟨p, 0, st.ahead.row Terminal.count (t.variableOf p)⟩) ?_
    exact List.mem_append_right _ (List.mem_filterMap.mpr ⟨p, hp, if_pos h⟩)
  · exact List.ne_nil_of_mem (List.mem_append_left _ (List.mem_filter.mpr ⟨he, complete⟩))

theorem State.reads_ofEntries (t : Tables) (es : List Entry) : (ofEntries t es).Reads t := by
  intro x h
  rcases Terminals.has_or.mp h with h | h
  · exact (Terminals.has_or.mp h).imp_right fun h => .inl (State.complete_ne_nil h)
  · exact .inr (.inr (List.mem_filter.mp (Terminals.mem_of_has_ofList h)).2)

namespace Automaton

def entries (a : Automaton) (q : Nat) : List Entry := (a.states[q]?.map State.entries).getD []

/-- every entry of `q'` comes from a place of `q` at which `x` is next -/
def Leads (grammar : Array Production) (a : Automaton) (q : Nat) (x : Symbol) (q' : Nat) : Prop :=
  ∀ e ∈ a.entries q', Follows grammar a.tables.productions (a.entries q) x e

/-- later automata have more states, and the same entries in those that there were -/
structure Extends (a b : Automaton) : Prop where
  tables : b.tables = a.tables
  size_le : a.states.size ≤ b.states.size
  entries : ∀ q < a.states.size, b.entries q = a.entries q

namespace Extends

variable {grammar : Array Production} {a b c : Automaton}

theorem refl (a : Automaton) : a.Extends a := ⟨rfl, Nat.le_refl _, fun _ _ => rfl⟩

theorem trans (h : a.Extends b) (h' : b.Extends c) : a.Extends c where
  tables := h'.tables.trans h.tables
  size_le := Nat.le_trans h.size_le h'.size_le
  entries q hq := by rw [h'.entries q (Nat.lt_of_lt_of_le hq h.size_le), h.entries q hq]

theorem mem_entries (h : a.Extends b) {q : Nat} {e : Entry} (he : e ∈ a.entries q) :
    e ∈ b.entries q := by
  by_cases hq : q < a.states.size
  · rwa [h.entries q hq]
  · have none : a.states[q]? = none := Array.getElem?_eq_none (Nat.le_of_not_lt hq)
    rw [Automaton.entries, none] at he
    exact absurd he List.not_mem_nil

theorem leads (h : a.Extends b) {q q' : Nat} {x : Symbol} (hq : q' < a.states.size)
    (hl : Leads grammar a q x q') : Leads grammar b q x q' := by
  intro e he
  rw [h.entries q' hq] at he
  rw [h.tables]
  exact (hl e he).mono fun _ => h.mem_entries

end Extends

/-- what holds of the automaton at all times -/
structure Sound (grammar : Array Production) (count : Nat) (a : Automaton) : Prop where
  tables : a.tables.Sound grammar count
  two_le_size : 2 ≤ a.states.size
  error : a.entries errorState = []
  start : ∃ e ∈ a.entries startState, e.dot = 0
  /-- only in the first state nothing has been read of an entry -/
  dot_pos : ∀ q ≠ startState, ∀ e ∈ a.entries q, 0 < e.dot
  valid : ∀ q, ∀ e ∈ a.entries q, e.Valid a.tables.productions
  ends : ∀ q, ∀ e ∈ a.entries q, e.Ends a.tables
  reads : ∀ {q st}, q ≠ errorState → a.states[q]? = some st → st.Reads a.tables
  /-- the successors found so far are successors -/
  targets : ∀ {q st}, a.states[q]? = some st → ∀ c ∈ st.targets, c.2 < a.states.size ∧
    ∀ x : Symbol, x.isReal = true → x.rank = c.1 → Leads grammar a q x c.2

variable {grammar : Array Production} {count : Nat} {a : Automaton}

theorem entries_of_getElem? {q : Nat} {st : State} (h : a.states[q]? = some st) :
    a.entries q = st.entries := by
  rw [entries, h]
  rfl

theorem entries_push (st : State) (q : Nat) :
    ({ a with states := a.states.push st } : Automaton).entries q =
      if q = a.states.size then st.entries else a.entries q := by
  show ((a.states.push st)[q]?.map State.entries).getD [] = _
  rw [Array.getElem?_push]
  split <;> rfl

def addTarget (a : Automaton) (q : Nat) (c : Nat × Nat) : Automaton :=
  { a with states := a.states.modify q fun u => { u with targets := c :: u.targets } }

theorem entries_addTarget (a : Automaton) (q : Nat) (c : Nat × Nat) (r : Nat) :
    (a.addTarget q c).entries r = a.entries r := by
  show ((a.states.modify q _)[r]?.map State.entries).getD [] = _
  rw [Array.getElem?_modify, entries]
  split
  · cases a.states[r]? <;> rfl
  · rfl

theorem extends_addTarget (a : Automaton) (q : Nat) (c : Nat × Nat) :
    a.Extends (a.addTarget q c) where
  tables := rfl
  size_le := Nat.le_of_eq Array.size_modify.symm
  entries r _ := entries_addTarget a q c r

theorem Sound.addTarget (h : a.Sound grammar count) {q : Nat} {c : Nat × Nat}
    (hc : c.2 < a.states.size)
    (leads : ∀ x : Symbol, x.isReal = true → x.rank = c.1 → Leads grammar a q x c.2) :
    (a.addTarget q c).Sound grammar count := by
  have same := entries_addTarget a q c
  have size : (a.addTarget q c).states.size = a.states.size := by
    rw [Automaton.addTarget, Array.size_modify]
  have ext := extends_addTarget a q c
  refine ⟨h.tables, size ▸ h.two_le_size, by rw [same, h.error], ?_, ?_, ?_, ?_, ?_, ?_⟩
  · rw [same]
    exact h.start
  · intro r hr e he
    exact h.dot_pos r hr e (same r ▸ he)
  · intro r e he
    exact h.valid r e (same r ▸ he)
  · intro r e he
    exact h.ends r e (same r ▸ he)
  · intro r st hr hst
    rw [Automaton.addTarget, Array.getElem?_modify] at hst
    split at hst
    · next hqr =>
      obtain ⟨old, hold, rfl⟩ := Option.map_eq_some_iff.mp hst
      have reads : old.Reads a.tables := h.reads hr hold
      exact reads
    · exact h.reads hr hst
  · intro r st hst d hd
    have mono : (d.2 < a.states.size ∧ ∀ x : Symbol, x.isReal = true → x.rank = d.1 →
        Leads grammar a r x d.2) → d.2 < (a.addTarget q c).states.size ∧
        ∀ x : Symbol, x.isReal = true → x.rank = d.1 → Leads grammar (a.addTarget q c) r x d.2 :=
      fun ⟨hlt, hl⟩ => ⟨size ▸ hlt, fun x hx hr => ext.leads hlt (hl x hx hr)⟩
    rw [Automaton.addTarget, Array.getElem?_modify] at hst
    split at hst
    · next hqr =>
      subst hqr
      obtain ⟨old, hold, rfl⟩ := Option.map_eq_some_iff.mp hst
      rcases List.mem_cons.mp hd with rfl | hd
      · exact mono ⟨hc, leads⟩
      · exact mono (h.targets hold d hd)
    · exact mono (h.targets hst d hd)

def addState (a : Automaton) (st : State) : Automaton := { a with states := a.states.push st }

theorem extends_addState (a : Automaton) (st : State) : a.Extends (a.addState st) where
  tables := rfl
  size_le := by
    rw [addState, Array.size_push]
    omega
  entries r hr := by
    rw [addState, entries_push, if_neg (Nat.ne_of_lt hr)]

theorem Sound.addState (h : a.Sound grammar count) {st : State} (pos : ∀ e ∈ st.entries, 0 < e.dot)
    (valid : ∀ e ∈ st.entries, e.Valid a.tables.productions)
    (ends : ∀ e ∈ st.entries, e.Ends a.tables) (reads : st.Reads a.tables)
    (fresh : st.targets = []) :
    (a.addState st).Sound grammar count := by
  have ext := extends_addState a st
  have two := h.two_le_size
  have cases_ : ∀ {r e}, e ∈ (a.addState st).entries r → e ∈ st.entries ∨ e ∈ a.entries r := by
    intro r e he
    rw [Automaton.addState, entries_push] at he
    split at he
    · exact .inl he
    · exact .inr he
  refine ⟨h.tables, Nat.le_trans two ext.size_le, ?_, ?_, ?_, ?_, ?_, ?_, ?_⟩
  · rw [ext.entries _ (by rw [errorState]; omega), h.error]
  · rw [ext.entries _ (by rw [startState]; omega)]
    exact h.start
  · intro r hr e he
    exact (cases_ he).elim (pos e) (h.dot_pos r hr e)
  · intro r e he
    exact (cases_ he).elim (valid e) (h.valid r e)
  · intro r e he
    exact (cases_ he).elim (ends e) (h.ends r e)
  · intro r st' hr hst
    rw [Automaton.addState, Array.getElem?_push] at hst
    split at hst
    · exact Option.some.inj hst ▸ reads
    · exact h.reads hr hst
  · intro r st' hst d hd
    rw [Automaton.addState, Array.getElem?_push] at hst
    split at hst
    · obtain rfl := Option.some.inj hst
      rw [fresh] at hd
      exact absurd hd List.not_mem_nil
    · obtain ⟨hlt, hl⟩ := h.targets hst d hd
      exact ⟨Nat.lt_of_lt_of_le hlt ext.size_le, fun x hx hr => ext.leads hlt (hl x hx hr)⟩

/-- what a search for the successor of a state gives -/
structure GotoSpec (grammar : Array Production) (count : Nat) (a : Automaton) (q : Nat) (x : Symbol)
    (r : Automaton × Nat) : Prop where
  sound : r.1.Sound grammar count
  extends_ : a.Extends r.1
  lt_size : r.2 < r.1.states.size
  leads : Leads grammar r.1 q x r.2

/-- nothing is under way in the error state, so that every symbol leads there -/
theorem Sound.leads_errorState (h : a.Sound grammar count) (q : Nat) (x : Symbol) :
    Leads grammar a q x errorState := by
  intro e he
  rw [h.error] at he
  exact absurd he List.not_mem_nil

/-- what is found is remembered under the rank of the symbol, and that is the symbol's alone -/
theorem GotoSpec.addTarget {q target : Nat} {x : Symbol} {b : Automaton} (hx : x.isReal = true)
    (hb : b.Sound grammar count) (ext : a.Extends b) (hlt : target < b.states.size)
    (hl : Leads grammar b q x target) :
    GotoSpec grammar count a q x (b.addTarget q (x.rank, target), target) := by
  have ext' := extends_addTarget b q (x.rank, target)
  refine ⟨hb.addTarget hlt fun y hy hr => ?_, ext.trans ext',
    Nat.lt_of_lt_of_le hlt ext'.size_le, ext'.leads hlt hl⟩
  rw [Symbol.eq_of_rank hy hx hr]
  exact hl

/-- **`goto` keeps the automaton sound, leaves all entries as they are and leads to its result.** -/
theorem goto_spec (h : a.Sound grammar count) (hg : Regular grammar count) (q : Nat) {x : Symbol}
    (hx : x.isReal = true) : GotoSpec grammar count a q x (a.goto q x) := by
  have nowhere : GotoSpec grammar count a q x (a, errorState) :=
    ⟨h, .refl a, Nat.lt_of_lt_of_le Nat.zero_lt_two h.two_le_size, h.leads_errorState q x⟩
  rw [goto]
  split
  · exact nowhere
  · next st hst =>
    split
    · next target htarget =>
      obtain ⟨front, back, htargets, -⟩ := List.lookup_eq_some_iff.mp htarget
      obtain ⟨hlt, hl⟩ := h.targets hst (x.rank, target)
        (htargets ▸ List.mem_append_right _ List.mem_cons_self)
      exact ⟨h, .refl a, hlt, hl x hx rfl⟩
    · have valid : ∀ e ∈ st.entries, e.Valid a.tables.productions := fun e he =>
        h.valid q e (entries_of_getElem? hst ▸ he)
      have follows : ∀ e ∈ st.successor a.tables x,
          Follows grammar a.tables.productions (a.entries q) x e := by
        rw [entries_of_getElem? hst]
        exact fun e he => State.follows_of_mem_successor h.tables hg hx valid he
      have ends : ∀ e ∈ st.successor a.tables x, e.Ends a.tables := fun e he =>
        State.ends_of_mem_successor h.tables hg valid
          (fun e he => h.ends q e (entries_of_getElem? hst ▸ he)) he
      simp only
      split
      · exact nowhere
      · split
        · next i hi =>
          obtain ⟨hlt, hes, -⟩ := Array.findIdx?_eq_some_iff_getElem.mp hi
          have hes : a.entries i = st.successor a.tables x := by
            rw [entries_of_getElem? (Array.getElem?_eq_getElem hlt)]
            simpa using (Bool.and_eq_true_iff.mp hes).2
          refine .addTarget hx h (.refl a) hlt ?_
          intro e he
          exact follows e (hes ▸ he)
        · have ext := extends_addState a (.ofEntries a.tables (st.successor a.tables x))
          refine .addTarget hx (h.addState (fun e he => (follows e he).dot_pos)
            (fun e he => (follows e he).valid) ends (State.reads_ofEntries _ _) rfl) ext
            (by simp [Automaton.addState]) ?_
          intro e he
          have he : e ∈ st.successor a.tables x := by
            rw [addState, entries_push, if_pos rfl] at he
            exact he
          exact (follows e he).mono fun _ => ext.mem_entries

theorem sound_start {t : Tables} (ht : t.Sound grammar count) : (start t).Sound grammar count where
  tables := ht
  two_le_size := Nat.le_refl 2
  error := rfl
  start := ⟨_, List.mem_cons_self, rfl⟩
  dot_pos := by
    intro q hq e he
    match q, hq with
    | 0, _ => exact absurd he List.not_mem_nil
    | 1, hq => exact absurd rfl hq
    | q + 2, _ => exact absurd he List.not_mem_nil
  valid := by
    intro q e he
    match q with
    | 0 => exact absurd he List.not_mem_nil
    | 1 =>
      obtain rfl := List.mem_singleton.mp he
      refine ⟨Tables.startOf count, ?_, Nat.zero_le _⟩
      exact ht.productions_start
    | q + 2 => exact absurd he List.not_mem_nil
  ends := by
    intro q e he _ x hx
    match q with
    | 0 => exact absurd he List.not_mem_nil
    | 1 =>
      obtain rfl := List.mem_singleton.mp he
      exact Terminals.eq_of_has_single hx
    | q + 2 => exact absurd he List.not_mem_nil
  reads := by
    intro q st hq hst
    match q with
    | 0 => exact absurd rfl hq
    | 1 =>
      obtain rfl := Option.some.inj hst
      exact State.reads_ofEntries t _
    | q + 2 => exact nomatch hst
  targets := by
    intro q st hst c hc
    match q with
    | 0 | 1 =>
      obtain rfl := Option.some.inj hst
      exact absurd hc List.not_mem_nil
    | q + 2 => exact nomatch hst

end Automaton

/-! ## actions -/

/-- settling a conflict makes no action that was not there -/
theorem Action.mem_settle {t : Tables} {complete closed open_ : List Entry} {x : Action}
    (h : x ∈ settle t complete closed open_) :
    (∃ e ∈ closed, closing t e = x) ∨ ∃ b, x = .shift b := by
  have reduces : x ∈ closed.map (closing t) → ∃ e ∈ closed, closing t e = x := List.mem_map.mp
  have one : ∀ {b}, x ∈ [Action.shift b] → ∃ b, x = .shift b := fun h =>
    ⟨_, List.mem_singleton.mp h⟩
  have both : ∀ {b}, x ∈ closed.map (closing t) ++ [Action.shift b] →
      (∃ e ∈ closed, closing t e = x) ∨ ∃ b, x = .shift b := fun h =>
    (List.mem_append.mp h).imp reduces one
  simp only [settle] at h
  split at h
  · exact .inr (one h)
  · repeat' split at h
    all_goals first | exact .inr (one h) | exact .inl (reduces h) | exact both h

theorem State.has_ahead_of_mem_complete {t : Tables} {st : State} {x : Terminal} {e : Entry}
    (he : e ∈ st.complete t x) : Terminals.has e.ahead x = true := by
  rw [State.complete, List.mem_append] at he
  rcases he with he | he
  · exact (Bool.and_eq_true_iff.mp (List.mem_filter.mp he).2).2
  · obtain ⟨i, hi, he⟩ := List.mem_filterMap.mp he
    simp only at he
    split at he
    · next has =>
      obtain rfl := Option.some.inj he
      exact has
    · cases he

/-- a state closes only what is complete, and stays as it is only on symbols that may stand anywhere
-/
theorem State.mem_actions {t : Tables} {st : State} (reads : st.Reads t) {x : Terminal} {y : Action}
    (h : y ∈ st.actions t x) :
    (∃ e ∈ st.complete t x, Action.closing t e = y) ∨ (y = .shiftExtra ∧ x.isExtra = true) ∨
      ∃ b, y = .shift b := by
  have closed : ∀ {e}, e ∈ sorted (Action.reduceBefore t) (Action.highest t (st.complete t x)) →
      e ∈ st.complete t x := by
    intro e he
    rw [mem_sorted, Action.highest] at he
    split at he
    · exact absurd he List.not_mem_nil
    · exact (List.mem_filter.mp he).1
  rw [actions] at h
  split at h
  · exact absurd h List.not_mem_nil
  · next known =>
    have tokens : Terminals.has st.tokens x = true := by simpa using known
    simp only at h
    split at h
    · next none =>
      split at h
      · exact .inr (.inr ⟨_, List.mem_singleton.mp h⟩)
      · next other =>
        have extra := ((reads x tokens).resolve_left other).resolve_left (absurd none)
        exact .inr (.inl ⟨List.mem_singleton.mp h, extra⟩)
    · split at h
      · obtain ⟨e, he, hy⟩ | hy := Action.mem_settle h
        · exact .inl ⟨e, closed he, hy⟩
        · exact .inr (.inr hy)
      · obtain ⟨e, he, hy⟩ := List.mem_map.mp h
        exact .inl ⟨e, closed he, hy⟩

namespace Automaton

variable {grammar : Array Production} {count : Nat} {a : Automaton}

/-- the production with number `i` can be closed in a state -/
def Closable (grammar : Array Production) (a : Automaton) (q i : Nat) : Prop :=
  ∃ p, a.tables.productions[i]? = some p ∧ p ∈ grammar ∧ At grammar (a.entries q) i p.steps.length

/-- what has been read in a state is the start symbol -/
def Accepting (a : Automaton) (q : Nat) : Prop :=
  ∃ e ∈ a.entries q, e.production = a.tables.startProduction ∧ 0 < e.dot

/-- is a state such that an action can be taken in it on a symbol? -/
structure Permits (grammar : Array Production) (a : Automaton) (q : Nat) (x : Terminal)
    (y : Action) : Prop where
  closable : ∀ i, y = .reduce i → Closable grammar a q i
  accepting : y = .accept → a.Accepting q ∧ x = .endOfText
  isExtra : y = .shiftExtra → x.isExtra = true

theorem Extends.closable {b : Automaton} (h : a.Extends b) {q i : Nat}
    (hc : Closable grammar a q i) : Closable grammar b q i := by
  obtain ⟨p, hp, hmem, at_⟩ := hc
  exact ⟨p, h.tables ▸ hp, hmem, at_.mono fun _ => h.mem_entries⟩

theorem Extends.accepting {b : Automaton} (h : a.Extends b) {q : Nat} (ha : a.Accepting q) :
    b.Accepting q := by
  obtain ⟨e, he, hp, hd⟩ := ha
  exact ⟨e, h.mem_entries he, by rw [h.tables, hp], hd⟩

theorem Extends.permits {b : Automaton} (h : a.Extends b) {q : Nat} {x : Terminal} {y : Action}
    (hy : a.Permits grammar q x y) : b.Permits grammar q x y where
  closable i hi := h.closable (hy.closable i hi)
  accepting ha := (hy.accepting ha).imp_left h.accepting
  isExtra := hy.isExtra

/-- complete entries have been read to the end -/
theorem Sound.at_of_mem_complete (h : a.Sound grammar count) {q : Nat} {st : State}
    (hst : a.states[q]? = some st) {x : Terminal} {e : Entry} (he : e ∈ st.complete a.tables x) :
    ∃ p, a.tables.productions[e.production]? = some p ∧ e.dot = p.steps.length ∧
      (e ∈ a.entries q ∨ p.steps = []) := by
  rw [State.complete, List.mem_append] at he
  rcases he with he | he
  · obtain ⟨he, hn⟩ := List.mem_filter.mp he
    rw [← entries_of_getElem? hst] at he
    obtain ⟨p, hp, hle⟩ := h.valid q e he
    have hn : p.steps[e.dot]? = none := by
      rw [← h.tables.step?_eq hp]
      exact Option.isNone_iff_eq_none.mp (Bool.and_eq_true_iff.mp hn).1
    exact ⟨p, hp, Nat.le_antisymm hle (List.getElem?_eq_none_iff.mp hn), .inl he⟩
  · obtain ⟨i, hi, he⟩ := List.mem_filterMap.mp he
    obtain ⟨p, hp, hs⟩ := h.tables.empties i hi
    simp only at he
    split at he
    · obtain rfl := Option.some.inj he
      exact ⟨p, hp, by rw [hs]; rfl, .inr hs⟩
    · cases he

theorem permits_shiftExtra {q : Nat} {x : Terminal} (h : x.isExtra = true) :
    a.Permits grammar q x .shiftExtra := ⟨nofun, nofun, fun _ => h⟩

theorem permits_of_other {q : Nat} {x : Terminal} {y : Action}
    (h : y = .recover ∨ ∃ b, y = .shift b) : a.Permits grammar q x y := by
  rcases h with rfl | ⟨b, rfl⟩ <;> exact ⟨nofun, nofun, nofun⟩

/-- what is complete can be closed, and the text is read if it is the start production -/
theorem Sound.permits_closing (h : a.Sound grammar count) {q : Nat} {st : State}
    (hst : a.states[q]? = some st) {x : Terminal} {e : Entry} (he : e ∈ st.complete a.tables x) :
    a.Permits grammar q x (.closing a.tables e) := by
  obtain ⟨p, hp, hd, place⟩ := h.at_of_mem_complete hst he
  rw [Action.closing]
  split
  · next hstart =>
    refine ⟨nofun, fun _ => ?_, nofun⟩
    have hstart : e.production = a.tables.startProduction := by simpa using hstart
    have hp' : p = Tables.startOf count := by
      rw [hstart, h.tables.productions_start] at hp
      exact (Option.some.inj hp).symm
    rcases place with place | none
    · refine ⟨⟨e, place, hstart, by rw [hd, hp']; exact Nat.zero_lt_one⟩, ?_⟩
      exact h.ends q e place hstart x (State.has_ahead_of_mem_complete he)
    · rw [hp'] at none
      cases none
  · next hstart =>
    refine ⟨fun i hi => ?_, nofun, nofun⟩
    obtain rfl := Action.reduce.inj hi
    have hstart : e.production ≠ a.tables.startProduction := by simpa using hstart
    refine ⟨p, hp, h.tables.mem_grammar hp hstart, ?_⟩
    rcases place with place | none
    · exact hd ▸ .begun place
    · rw [none]
      refine .fresh ?_
      have hlt := (Array.getElem?_eq_some_iff.mp hp).1
      rw [h.tables.productions, Array.size_push] at hlt
      rw [h.tables.startProduction_eq] at hstart
      omega

/-- **A state permits the actions that it has.** -/
theorem Sound.permits_of_mem_actions (h : a.Sound grammar count) {q : Nat} {x : Terminal}
    {y : Action} (hy : y ∈ a.actions q x) : a.Permits grammar q x y := by
  rw [actions] at hy
  split at hy
  · split at hy
    · next extra =>
      rw [List.mem_singleton.mp hy]
      exact permits_shiftExtra extra
    · split at hy
      · exact permits_of_other (.inl (List.mem_singleton.mp hy))
      · exact absurd hy List.not_mem_nil
  · next sane =>
    have sane : q ≠ errorState := fun error => sane (beq_iff_eq.mpr error)
    split at hy
    · next st hst =>
      obtain ⟨e, he, rfl⟩ | ⟨rfl, extra⟩ | hy := State.mem_actions (h.reads sane hst) hy
      · exact h.permits_closing hst he
      · exact permits_shiftExtra extra
      · exact permits_of_other (.inr hy)
    · exact absurd hy List.not_mem_nil

/-- the symbol of the start production tells it from the grammar's -/
theorem Sound.mem_grammar_of_variableIndex (h : a.Sound grammar count) {i : Nat} {p : Production}
    (hp : a.tables.productions[i]? = some p) (hv : p.variableIndex ≠ count) : p ∈ grammar := by
  refine h.tables.mem_grammar hp ?_
  rintro rfl
  rw [h.tables.productions_start] at hp
  exact hv (Option.some.inj hp ▸ rfl)

/-- the start production has been read only behind the first state, and what was read is the start
symbol -/
theorem Sound.start_of_leads (h : a.Sound grammar count) (hg : Regular grammar count) {q q' : Nat}
    {x : Symbol} (leads : Leads grammar a q x q') {e : Entry} (he : e ∈ a.entries q')
    (hstart : e.production = a.tables.startProduction) :
    x = .nonterminal .module ∧ q = startState := by
  cases leads e he with
  | @mk i d p p' s before _ hp hp' alike hs hx =>
    have start : ∀ {p}, a.tables.productions[a.tables.startProduction]? = some p →
        p = Tables.startOf count := fun hp => by
      rw [h.tables.productions_start] at hp
      exact (Option.some.inj hp).symm
    obtain rfl := start (hstart ▸ hp')
    have hi : i = a.tables.startProduction := by
      by_contra hi
      exact hg.variableIndex_ne p (h.tables.mem_grammar hp hi) alike.variableIndex
    subst hi
    obtain rfl := start hp
    match d with
    | 0 =>
      obtain rfl := Option.some.inj hs
      refine ⟨hx.symm, ?_⟩
      by_contra hq
      generalize hi : a.tables.startProduction = i at before
      generalize hd : 0 = d at before
      cases before with
      | begun he =>
        have := h.dot_pos q hq _ he
        omega
      | fresh hlt =>
        rw [h.tables.startProduction_eq] at hi
        omega
    | d + 1 => cases hs

end Automaton

end Python
end AnnotationAudit
