import AnnotationAudit.Proofs.Stack

/-!
# From rules to productions

What can be checked of the symbols in the rules of the grammar, with what they are shown as and the
parts they play, holds of the steps of all productions.

* `Rule.every`     a check of all symbols in a rule; a repeated rule stands for its own symbol;
* `Rule.unfolded`  the check that looks through inlined symbols;
* `Step.Suits`     a step passes a check;
* `suits_of_mem`, `Production.passes_of_mem`  checked rules have checked productions.
-/

namespace AnnotationAudit
namespace Python

/-! ## checking rules -/

/-- what is asked of a symbol, what it is shown as and the part it plays. The symbol is given as the
rule it is: a repetition as the repeated rule. -/
abbrev Check := Rule → Option Kind → Option Field → Bool

namespace Rule

/-- do all symbols in a rule pass a check, under what they are shown as and the part they play
unless the rule says otherwise? -/
def every (c : Check) : Option Kind → Option Field → Rule → Bool
  | _, _, .blank => true
  | k, f, .terminal t => c (.terminal t) k f
  | k, f, .nonterminal n => c (.nonterminal n) k f
  | k, f, .seq a b => a.every c k f && b.every c k f
  | k, f, .alt a b => a.every c k f && b.every c k f
  | k, f, .repeat1 r => c (.repeat1 r) k f
  | k, f, .ranked _ _ r => r.every c k f
  | k, f, .weighed _ r => r.every c k f
  | k, _, .field f r => r.every c k (some f)
  | _, f, .shown k r => r.every c (some k) f

/-- the check that asks of an inlined symbol what `c` asks of its rule -/
def unfolded (c : Check) : Check := fun r k f =>
  match r with
  | .nonterminal n =>
    if n.isInlined then (Rule.of n).every (fun r l g => c r (k.or l) (f.or g)) none none
    else c r k f
  | _ => c r k f

def repeated : Rule → List Rule
  | .seq a b | .alt a b => a.repeated ++ b.repeated
  | .repeat1 r => r :: r.repeated
  | .ranked _ _ r | .weighed _ r | .field _ r | .shown _ r => r.repeated
  | _ => []

theorem mem_repetitions {x r : Rule} {seen : List Rule} :
    x ∈ r.repetitions seen ↔ x ∈ seen ∨ x ∈ r.repeated := by
  induction r generalizing seen with
  | blank => exact (or_iff_left List.not_mem_nil).symm
  | terminal t => exact (or_iff_left List.not_mem_nil).symm
  | nonterminal n => exact (or_iff_left List.not_mem_nil).symm
  | seq a b iha ihb => rw [repetitions, ihb, iha, repeated, List.mem_append, or_assoc]
  | alt a b iha ihb => rw [repetitions, ihb, iha, repeated, List.mem_append, or_assoc]
  | repeat1 r ih =>
    have added : x ∈ (Rule.repeat1 r).repetitions seen ↔ x ∈ r.repetitions seen ∨ x = r := by
      show x ∈ (if (r.repetitions seen).contains r then r.repetitions seen
        else r.repetitions seen ++ [r]) ↔ _
      split
      · next h =>
        refine (or_iff_left_of_imp ?_).symm
        rintro rfl
        simpa using h
      · rw [List.mem_append, List.mem_singleton]
    rw [added, ih, repeated, List.mem_cons, or_assoc, or_comm (a := x = r)]
  | ranked p side r ih => exact ih
  | weighed w r ih => exact ih
  | field f r ih => exact ih
  | shown k r ih => exact ih

/-- what is repeated inside a repeated rule is repeated -/
theorem repeated_subset {x r : Rule} (hx : x ∈ r.repeated) : ∀ y ∈ x.repeated, y ∈ r.repeated := by
  induction r with
  | blank => exact absurd hx List.not_mem_nil
  | terminal t => exact absurd hx List.not_mem_nil
  | nonterminal n => exact absurd hx List.not_mem_nil
  | seq a b iha ihb =>
    rcases List.mem_append.mp hx with hx | hx
    · exact fun y hy => List.mem_append_left _ (iha hx y hy)
    · exact fun y hy => List.mem_append_right _ (ihb hx y hy)
  | alt a b iha ihb =>
    rcases List.mem_append.mp hx with hx | hx
    · exact fun y hy => List.mem_append_left _ (iha hx y hy)
    · exact fun y hy => List.mem_append_right _ (ihb hx y hy)
  | repeat1 r ih =>
    rcases List.mem_cons.mp hx with rfl | hx
    · exact fun y hy => List.mem_cons_of_mem _ hy
    · exact fun y hy => List.mem_cons_of_mem _ (ih hx y hy)
  | ranked p side r ih => exact ih hx
  | weighed w r ih => exact ih hx
  | field f r ih => exact ih hx
  | shown k r ih => exact ih hx

end Rule

theorem mem_repetitions {x : Rule} : x ∈ repetitions ↔ ∃ n, x ∈ (Rule.of n).repeated := by
  have fold : ∀ (ns : List Nonterminal) (seen : List Rule),
      x ∈ ns.foldl (fun seen n => (Rule.of n).repetitions seen) seen ↔
        x ∈ seen ∨ ∃ n ∈ ns, x ∈ (Rule.of n).repeated := by
    intro ns
    induction ns with
    | nil => simp
    | cons n ns ih =>
      intro seen
      simp only [List.foldl_cons, ih, Rule.mem_repetitions, List.mem_cons, exists_eq_or_imp,
        or_assoc]
  rw [repetitions, fold]
  constructor
  · rintro (h | ⟨n, -, h⟩)
    · exact absurd h List.not_mem_nil
    · exact ⟨n, h⟩
  · exact fun ⟨n, h⟩ => .inr ⟨n, List.mem_of_getElem? n.getElem?_all, h⟩

/-! ## steps that pass a check -/

/-- the rule that a symbol is, where `reps` are the repeated ones -/
def Symbol.asRule? (reps : List Rule) : Symbol → Option Rule
  | .terminal t => some (.terminal t)
  | .nonterminal n => some (.nonterminal n)
  | .repetition k => reps[k]?.map .repeat1
  | _ => none

theorem Symbol.asRule?_repetition {reps : List Rule} {r : Rule} (h : r ∈ reps) :
    (Symbol.repetition (reps.idxOf r)).asRule? reps = some (.repeat1 r) := by
  rw [asRule?, List.getElem?_idxOf h]
  rfl

/-- a symbol can be told from the rule that it is, up to the number of a repetition -/
theorem Symbol.eq_of_asRule? {reps : List Rule} {x : Symbol} {r : Rule} :
    x.asRule? reps = some r →
      match r with
      | .terminal t => x = .terminal t
      | .nonterminal n => x = .nonterminal n
      | _ => ∃ k, x = .repetition k := by
  intro h
  cases x with
  | terminal t => cases h; rfl
  | nonterminal n => cases h; rfl
  | repetition k =>
    obtain ⟨r, -, rfl⟩ := Option.map_eq_some_iff.mp h
    exact ⟨k, rfl⟩
  | skipped => cases h
  | error => cases h

/-- does a step pass a check? -/
def Step.Suits (reps : List Rule) (c : Check) (s : Step) : Prop :=
  ∃ r, s.symbol.asRule? reps = some r ∧ c r s.shown s.field = true

variable {reps : List Rule} {c : Check}

theorem Symbol.isReal_of_asRule? {x : Symbol} {r : Rule} (hr : x.asRule? reps = some r) :
    x.isReal = true := by
  cases x with
  | skipped => cases hr
  | error => cases hr
  | _ => rfl

namespace Reading

/-- do all steps of a reading pass a check? -/
def Suits (reps : List Rule) (c : Check) (x : Reading) : Prop := ∀ s ∈ x.steps, s.Suits reps c

theorem suits_singleton {s : Step} (h : s.Suits reps c) {w : Int} : Suits reps c ⟨[s], w⟩ :=
  fun _ ht => List.mem_singleton.mp ht ▸ h

theorem Suits.append {x y : Reading} (hx : x.Suits reps c) (hy : y.Suits reps c) :
    (x.append y).Suits reps c := fun s hs => (List.mem_append.mp hs).elim (hx s) (hy s)

/-- ranks and sides do not matter -/
theorem Suits.mapLast {x : Reading} (h : x.Suits reps c) {f : Step → Step}
    (hf : ∀ s, s.Suits reps c → (f s).Suits reps c) : (x.mapLast f).Suits reps c := by
  rw [Reading.mapLast]
  split
  · exact h
  · next s hs =>
    intro t ht
    rcases List.mem_append.mp ht with ht | ht
    · exact h t (List.dropLast_subset _ ht)
    · rw [List.mem_singleton.mp ht]
      exact hf s (h s (List.mem_of_getLast? hs))

end Reading

theorem Rule.suits_readings {r : Rule} (hr : ∀ x ∈ r.repeated, x ∈ reps) {marks : Marks}
    {last : Bool} (h : r.every c marks.shown marks.field = true) :
    ∀ x ∈ r.readings reps marks last, x.Suits reps c := by
  induction r generalizing marks last with
  | blank =>
    intro x hx s hs
    rw [List.mem_singleton.mp hx] at hs
    exact absurd hs List.not_mem_nil
  | terminal t =>
    intro x hx
    rw [List.mem_singleton.mp hx]
    exact Reading.suits_singleton ⟨_, rfl, h⟩
  | nonterminal n =>
    intro x hx
    rw [List.mem_singleton.mp hx]
    exact Reading.suits_singleton ⟨_, rfl, h⟩
  | repeat1 r ih =>
    intro x hx
    rw [List.mem_singleton.mp hx]
    exact Reading.suits_singleton
      ⟨_, Symbol.asRule?_repetition (hr r List.mem_cons_self), h⟩
  | seq a b iha ihb =>
    obtain ⟨ha, hb⟩ := Bool.and_eq_true_iff.mp h
    intro x hx
    obtain ⟨y, hy, hx⟩ := List.mem_flatMap.mp hx
    obtain ⟨z, hz, rfl⟩ := List.mem_map.mp hx
    exact (iha (fun x hx => hr x (List.mem_append_left _ hx)) ha y hy).append
      (ihb (fun x hx => hr x (List.mem_append_right _ hx)) hb z hz)
  | alt a b iha ihb =>
    obtain ⟨ha, hb⟩ := Bool.and_eq_true_iff.mp h
    intro x hx
    rcases List.mem_append.mp hx with hx | hx
    · exact iha (fun x hx => hr x (List.mem_append_left _ hx)) ha x hx
    · exact ihb (fun x hx => hr x (List.mem_append_right _ hx)) hb x hx
  | ranked p side r ih =>
    intro x hx
    rw [Rule.readings] at hx
    have inner : ∀ y ∈ r.readings reps ⟨some p, side.or marks.side, marks.shown, marks.field⟩ last,
        y.Suits reps c := ih hr h
    split at hx
    · exact inner x hx
    · obtain ⟨y, hy, rfl⟩ := List.mem_map.mp hx
      exact (inner y hy).mapLast fun s hs => hs
  | weighed w r ih =>
    intro x hx
    obtain ⟨y, hy, rfl⟩ := List.mem_map.mp hx
    exact ih hr h y hy
  | field f r ih => exact ih hr h
  | shown k r ih => exact ih hr h

theorem Rule.suits_expand {r : Rule} (hr : ∀ x ∈ r.repeated, x ∈ reps)
    (h : r.every c none none = true) : ∀ x ∈ r.expand reps, x.Suits reps c := fun x hx =>
  r.suits_readings hr h x (List.mem_eraseDups.mp hx)

/-! ## inlining -/

/-- the readings in the place of a step pass a check if they do under the marks of the step -/
theorem Step.suits_inline {s : Step} {xs : List Reading}
    (h : ∀ x ∈ xs, x.Suits reps fun r k f => c r (s.shown.or k) (s.field.or f)) :
    ∀ y ∈ s.inline xs, y.Suits reps c := by
  intro y hy
  obtain ⟨x, hx, rfl⟩ := List.mem_map.mp hy
  refine Reading.Suits.mapLast (fun t ht => ?_) fun t ht => ht
  obtain ⟨i, hi, rfl⟩ := List.mem_map.mp ht
  exact h x hx i hi

/-- what stands in the place of a step that passes the unfolded check -/
theorem Step.suits_replaced (hreps : ∀ n, ∀ x ∈ (Rule.of n).repeated, x ∈ reps) {s : Step}
    (h : s.Suits reps (Rule.unfolded c)) :
    ∀ x ∈ (match s.symbol with
      | .nonterminal n =>
        if n.isInlined then s.inline ((Rule.of n).expand reps) else [⟨[s], 0⟩]
      | _ => [⟨[s], 0⟩]), x.Suits reps c := by
  obtain ⟨r, hr, hc⟩ := h
  have kept : ∀ {x : Reading}, x ∈ [(⟨[s], 0⟩ : Reading)] → c r s.shown s.field = true →
      x.Suits reps c := fun hx h =>
    List.mem_singleton.mp hx ▸ Reading.suits_singleton ⟨r, hr, h⟩
  intro x hx
  split at hx
  · next n hs =>
    rw [hs] at hr
    obtain rfl := Option.some.inj hr
    simp only [Rule.unfolded] at hc
    split at hx
    · next inlined =>
      rw [if_pos inlined] at hc
      exact Step.suits_inline (Rule.suits_expand (hreps n) hc) x hx
    · next inlined =>
      rw [if_neg inlined] at hc
      exact kept hx hc
  · next other =>
    refine kept hx ?_
    cases r with
    | nonterminal n =>
      exact absurd (Symbol.eq_of_asRule? hr) (other n)
    | _ => exact hc

theorem suits_inlineAll (hreps : ∀ n, ∀ x ∈ (Rule.of n).repeated, x ∈ reps) {ss : List Step}
    (h : ∀ s ∈ ss, s.Suits reps (Rule.unfolded c)) : ∀ y ∈ inlineAll reps ss, y.Suits reps c := by
  induction ss with
  | nil =>
    intro y hy s hs
    rw [List.mem_singleton.mp hy] at hs
    exact absurd hs List.not_mem_nil
  | cons s ss ih =>
    intro y hy
    obtain ⟨x, hx, hy⟩ := List.mem_flatMap.mp hy
    obtain ⟨z, hz, rfl⟩ := List.mem_map.mp hy
    exact (Step.suits_replaced hreps (h s List.mem_cons_self) x hx).append
      (ih (fun t ht => h t (List.mem_cons_of_mem _ ht)) z hz)

/-! ## all productions -/

theorem mem_productionsOf {v : Nat} {xs : List Reading} {p : Production}
    (h : p ∈ productionsOf reps v xs) :
    p.variableIndex = v ∧ ∃ x ∈ xs, ∃ y ∈ inlineAll reps x.steps, p.steps = y.steps := by
  obtain ⟨x, hx, h⟩ := List.mem_flatMap.mp h
  obtain ⟨y, hy, rfl⟩ := List.mem_map.mp h
  exact ⟨rfl, x, hx, y, hy, rfl⟩

/-- a production comes from the rule of a symbol that is not inlined, or from a repeated rule -/
theorem mem_productions {p : Production} (h : p ∈ productions) :
    (∃ n : Nonterminal, p ∈ productionsOf repetitions n.rank ((Rule.of n).expand repetitions)) ∨
      ∃ k r, repetitions[k]? = some r ∧
        p ∈ productionsOf repetitions (Nonterminal.count + k)
          (repetitionReadings repetitions k r) := by
  rw [productions, List.mem_toArray, List.mem_append] at h
  rcases h with h | h
  · obtain ⟨n, -, h⟩ := List.mem_flatMap.mp h
    split at h
    · exact absurd h List.not_mem_nil
    · exact .inl ⟨n, h⟩
  · obtain ⟨⟨r, k⟩, hk, h⟩ := List.mem_flatMap.mp h
    rw [List.mem_zipIdx_iff_getElem?] at hk
    exact .inr ⟨k, r, hk, h⟩

namespace Machine

theorem symbolOf_rank (n : Nonterminal) : symbolOf n.rank = .nonterminal n := by
  rw [symbolOf, if_pos n.rank_lt, n.getElem?_all]

theorem symbolOf_repetition (k : Nat) : symbolOf (Nonterminal.count + k) = .repetition k := by
  rw [symbolOf, if_neg (by omega), Nat.add_sub_cancel_left]

theorem symbolOf_cases (v : Nat) :
    (∃ n, symbolOf v = .nonterminal n) ∨ ∃ k, symbolOf v = .repetition k := by
  have token := isToken_symbolOf v
  have real := isReal_symbolOf v
  cases h : symbolOf v with
  | nonterminal n => exact .inl ⟨n, rfl⟩
  | repetition k => exact .inr ⟨k, rfl⟩
  | terminal t => rw [h] at token; cases token
  | skipped => rw [h] at real; cases real
  | error => rw [h] at real; cases real

end Machine

/-- **Checked rules have checked productions.** What is asked of the symbols in a rule may depend on
the symbol that the rule is of. -/
theorem suits_of_mem {c : Rule → Check}
    (named : ∀ n, (Rule.of n).every (Rule.unfolded (c (.nonterminal n))) none none = true)
    (repeated : ∀ n, ∀ r ∈ (Rule.of n).repeated,
      (Rule.alt (.repeat1 r) r).every (Rule.unfolded (c (.repeat1 r))) none none = true)
    {p : Production} (hp : p ∈ productions) :
    ∃ r, (Machine.symbolOf p.variableIndex).asRule? repetitions = some r ∧
      ∀ s ∈ p.steps, s.Suits repetitions (c r) := by
  have hreps : ∀ n, ∀ x ∈ (Rule.of n).repeated, x ∈ repetitions := fun n x hx =>
    mem_repetitions.mpr ⟨n, hx⟩
  rcases mem_productions hp with ⟨n, h⟩ | ⟨k, r, hk, h⟩
  · obtain ⟨hv, x, hx, y, hy, hsteps⟩ := mem_productionsOf h
    refine ⟨.nonterminal n, by rw [hv, Machine.symbolOf_rank]; rfl, ?_⟩
    rw [hsteps]
    exact suits_inlineAll hreps (Rule.suits_expand (hreps n) (named n) x hx) y hy
  · obtain ⟨hv, x, hx, y, hy, hsteps⟩ := mem_productionsOf h
    have self : (Symbol.repetition k).asRule? repetitions = some (.repeat1 r) := by
      rw [Symbol.asRule?, hk]
      rfl
    obtain ⟨n, hn⟩ := mem_repetitions.mp (List.mem_of_getElem? hk)
    obtain ⟨first, second⟩ := Bool.and_eq_true_iff.mp (repeated n r hn)
    refine ⟨.repeat1 r, by rw [hv, Machine.symbolOf_repetition, self], ?_⟩
    rw [hsteps]
    refine suits_inlineAll hreps ?_ y hy
    rcases List.mem_cons.mp hx with rfl | hx
    · simp only [List.mem_cons, List.not_mem_nil, or_false, or_self]
      rintro s rfl
      exact ⟨_, self, first⟩
    · exact Rule.suits_expand (fun x hx => hreps n x (Rule.repeated_subset hn x hx)) second x hx

/-- if all rules pass a check, all steps of all productions do -/
theorem Production.passes_of_mem {c : Rule → Check}
    (named : (Nonterminal.all.all fun n =>
      (Rule.of n).every (Rule.unfolded (c (.nonterminal n))) none none) = true)
    (repeated : (Nonterminal.all.all fun n => (Rule.of n).repeated.all fun r =>
      (Rule.alt (.repeat1 r) r).every (Rule.unfolded (c (.repeat1 r))) none none) = true)
    {p : Production} (hp : p ∈ productions) {s : Step} (hs : s ∈ p.steps) :
    ∃ r x, (Machine.symbolOf p.variableIndex).asRule? repetitions = some r ∧
      s.symbol.asRule? repetitions = some x ∧ c r x s.shown s.field = true := by
  have mem (n : Nonterminal) : n ∈ Nonterminal.all := List.mem_of_getElem? n.getElem?_all
  obtain ⟨r, hr, suits⟩ := suits_of_mem (c := c)
    (fun n => List.all_eq_true.mp named n (mem n))
    (fun n r hr => List.all_eq_true.mp (List.all_eq_true.mp repeated n (mem n)) r hr) hp
  obtain ⟨x, hx, hc⟩ := suits s hs
  exact ⟨r, x, hr, hx, hc⟩

end Python
end AnnotationAudit
