import AnnotationAudit.Proofs.RecoveryOrder

/-!
# The parser keeps the order of the text

A version takes a token only where it stands behind it, so that one step of the parser keeps the
order, and with it the whole run does.

* `Performed`           what the actions on a token leave behind;
* `consume_order`       one token in one version keeps the order;
* `Preserves.condense`, `Preserves.run`  all versions, until the text has been read;
* `ordered_of_run`      the tree of a text stands in order, and in the text.
-/

namespace AnnotationAudit
namespace Python

open Text

namespace Machine

variable {text : List Char} {α β : Type}

/-! ## one version -/

theorem shift_order {m : Machine} (h : m.Ordered text) {v : Nat} {t : Token}
    (ready : m.Ready v t.before) (stands : t.Stands) (known : t.symbol.isSome = true)
    (extra : Bool) : Has text v ((shift v t extra).run m).2 := by
  have leaf : Tree.Row (m.stack.cursor v) [Tree.leaf t extra] t.stop :=
    ready.cursor ▸ .leaf stands known extra
  have after : ∀ {m' : Machine}, Takes text v m m' → Has text v (StateT.run (m := Id)
      (if t.layout.isSome = true then stack! (·.setLayout v t.layout) else pure PUnit.unit) m').2 :=
    fun takes => (KeepsOrder.takeLayout v t).has (Nat.lt_succ_self v) takes.ordered
      (takes.size ▸ ready.lt_size)
  rw [shift]
  dsimp only
  split
  · exact after (push_order h ready.lt_size ready.active leaf _ _).1
  · exact after (pushNext_order h ready.lt_size ready.active leaf).1

/-- what the actions on a token that is read at `b` leave behind -/
inductive Performed (text : List Char) (v : Nat) (b : Cursor) (m : Machine) : Progress → Prop where
  | used (has : Has text v m) : Performed text v b m .used
  | closed {w : Nat} (ordered : m.Ordered text) (behind : v < w) (ready : m.Ready w b) :
      Performed text v b m (.closed w)
  | stuck (ordered : m.Ordered text) (ready : m.Ready v b) : Performed text v b m .stuck

theorem perform_order {v : Nat} {t : Token} (stands : t.Stands) {as : List Action}
    (known : as ≠ [] → t.symbol.isSome = true) {last : Option Nat} {m : Machine}
    (h : m.Ordered text) (ready : m.Ready v t.before)
    (hlast : ∀ w ∈ last, v < w ∧ m.Ready w t.before) :
    Performed text v t.before ((perform v t as last).run m).2 ((perform v t as last).run m).1 := by
  induction as generalizing last m with
  | nil =>
    cases last with
    | none => exact .stuck h ready
    | some w => exact .closed h (hlast w rfl).1 (hlast w rfl).2
  | cons a as ih =>
    have isSome := known (List.cons_ne_nil a as)
    have ih := @ih fun _ => isSome
    cases a with
    | shift repeated =>
      cases repeated with
      | true => exact ih h ready hlast
      | false =>
        rw [perform, if_pos isSome]
        exact .used (shift_order h ready stands isSome false)
    | shiftExtra => exact .used (shift_order h ready stands isSome true)
    | reduce i =>
      have reduced := reduce_order h v i
      obtain ⟨stays, told⟩ := reduced.ready h ready
      refine ih reduced.follows.ordered stays fun w hw => ?_
      rcases Option.or_eq_some_iff.mp hw with hw | ⟨-, hw⟩
      · exact told w hw
      · obtain ⟨behind, old⟩ := hlast w hw
        exact ⟨behind, reduced.follows.ready h old.lt_size old⟩
    | accept =>
      have leaf : Tree.Row (m.stack.cursor v) ([] ++ [Tree.leaf t true]) t.stop :=
        ready.cursor ▸ .leaf stands isSome true
      exact .used (accept_order h ready leaf)
    | recover => exact .used (recover_order h ready stands)

theorem proceed_order {v : Nat} {t : Token} (stands : t.Stands) (state : Nat) {r : Progress}
    {again : Token → Run Unit} {m : Machine} (performed : Performed text v t.before m r)
    (hagain : ∀ (t : Token) (m : Machine), m.Ordered text → m.Ready v t.before → t.Stands →
      Has text v ((again t).run m).2) :
    Has text v ((proceed v state t again r).run m).2 := by
  cases performed with
  | used has => exact has
  | closed ordered behind ready =>
    obtain ⟨ordered', ready'⟩ := renumber_order ordered behind ready
    exact hagain t _ ordered' ready' stands
  | stuck ordered ready =>
    show Has text v (StateT.run (m := Id) (if ((t.symbol.map Terminal.isKeyword).getD false &&
      m.automaton.hasActions state .identifier) = true then (_ : Run Unit) else _) m).2
    split
    · next asName =>
      have word := (Bool.and_eq_true_iff.mp asName).1
      cases hx : t.symbol with
      | none =>
        rw [hx] at word
        cases word
      | some x =>
        rw [hx] at word
        exact hagain _ m ordered ready (stands.asIdentifier hx word)
    · refine Has.ite (recover_order ordered ready stands) ⟨⟨?_, ordered.finished⟩, ?_⟩
      · exact ordered.stack.pause stands ready.cursor
      · show v < (m.stack.pause v t).size
        rw [Stack.pause, Stack.size_setVersion]
        exact ready.lt_size

/-- **One token in one version keeps the order.** -/
theorem consume_order {v fuel : Nat} {t : Token} {m : Machine} (h : m.Ordered text)
    (ready : m.Ready v t.before) (stands : t.Stands) :
    Has text v ((consume v fuel t).run m).2 := by
  induction fuel generalizing t m with
  | zero => exact Has.halt ⟨h, ready.lt_size⟩ v
  | succ fuel ih =>
    have performed : ∀ as : List Action, (as ≠ [] → t.symbol.isSome = true) →
        Has text v ((proceed v (m.stack.state v) t (consume v fuel)
          ((perform v t as none).run m).1).run ((perform v t as none).run m).2).2 :=
      fun as known =>
        proceed_order stands _ (perform_order stands known h ready nofun) fun _ _ h ready stands =>
          ih h ready stands
    rw [consume]
    cases hx : t.symbol with
    | none => exact performed [] fun ne => absurd rfl ne
    | some x => exact performed (m.automaton.actions (m.stack.state v) x) fun _ => hx ▸ rfl

theorem advance_order {v fuel : Nat} {m : Machine} (h : Has text v m)
    (active : m.stack.isActive v = true) : Has text v ((advance v fuel).run m).2 := by
  obtain ⟨before, stands⟩ := Token.read_stands m.automaton (m.stack.state v)
    (m.stack.hasAdvanced v) (m.stack.version v).layout (m.stack.cursor v)
  have unpaused : (m.stack.status v).isPaused = false := by
    rw [Stack.isActive] at active
    cases hs : m.stack.status v with
    | active | halted => rfl
    | paused t =>
      rw [hs] at active
      cases active
  exact consume_order h.ordered ⟨h.lt_size, unpaused, before.symm⟩ stands

/-! ## all versions -/

/-- a computation keeps the machine ordered -/
def Preserves (text : List Char) (c : Run α) : Prop :=
  ∀ m : Machine, m.Ordered text → (c.run m).2.Ordered text

theorem KeepsOrder.preserves {c : Run α} (hc : KeepsOrder text 0 c) : Preserves text c :=
  fun m h => (hc m h (Nat.zero_le _)).ordered

namespace Preserves

theorem pure (x : α) : Preserves text (Pure.pure x : Run α) := fun _ h => h

theorem bind {c : Run α} {f : α → Run β} (hc : Preserves text c)
    (hf : ∀ x, Preserves text (f x)) : Preserves text (c >>= f) := fun m h => hf _ _ (hc m h)

theorem ite {c d : Run α} {p : Prop} [Decidable p] (hc : Preserves text c)
    (hd : Preserves text d) : Preserves text (if p then c else d) := by
  split
  · exact hc
  · exact hd

theorem stackSize : Preserves text stackSize := fun _ h => h

theorem get : Preserves text (MonadState.get : Run Machine) := fun _ h => h

theorem mergeInto (w : Nat) (vs : List Nat) : Preserves text (mergeInto w vs) :=
  (KeepsOrder.mergeInto (Nat.zero_le w) vs).preserves

theorem remove (v : Nat) : Preserves text (stack! (·.remove v)) :=
  (KeepsOrder.remove (Nat.zero_le v)).preserves

theorem versions! {f : Stack → Stack} (hf : ∀ {s : Stack}, s.Ordered text → (f s).Ordered text) :
    Preserves text (stack! f) := fun _ h => ⟨hf h.stack, h.finished⟩

end Preserves

theorem advanceWhile_order {v budget fuel last : Nat} {m : Machine} (h : Has text v m) :
    Has text v ((advanceWhile v budget fuel last).run m).2 := by
  induction fuel generalizing last m with
  | zero => exact h
  | succ fuel ih =>
    rw [advanceWhile]
    refine get_bind (P := Has text v) ?_
    by_cases active : m.stack.isActive v = true
    · rw [if_pos active]
      have step : Has text v ((advance v budget).run m).2 := advance_order h active
      exact Has.ite (m := ((advance v budget).run m).2) step (ih step)
    · rw [if_neg active]
      exact h

namespace Preserves

theorem advanceAll (budget fuel v last : Nat) : Preserves text (advanceAll budget fuel v last) := by
  induction fuel generalizing v last with
  | zero => exact .pure _
  | succ fuel ih =>
    intro m h
    rw [Machine.advanceAll]
    refine stackSize_bind (P := Ordered text) ?_
    split
    · exact h
    · next out => exact ih _ _ _ (advanceWhile_order ⟨h, Nat.lt_of_not_le out⟩).ordered

theorem compareWithEarlier (mine : Standing) (fuel j i : Nat) :
    Preserves text (compareWithEarlier mine fuel j i) := by
  induction fuel generalizing j i with
  | zero => exact .pure _
  | succ fuel ih =>
    rw [Machine.compareWithEarlier]
    refine .ite (.pure _) (.bind (KeepsOrder.standing j).preserves fun other => ?_)
    split
    · exact .bind (.remove _) fun _ => .pure _
    · exact .bind (.mergeInto _ _) fun _ => .ite (.pure _) (ih _ _)
    · exact .bind (.mergeInto _ _) fun _ => .ite (.pure _) (ih _ _)
    · exact .bind (.mergeInto _ _) fun _ => .ite (.pure _)
        (.bind (.versions! fun h => h.swap i j) fun _ => ih _ _)
    · exact .bind (.remove _) fun _ => ih _ _

theorem compareAll (fuel i : Nat) (least : Option Nat) :
    Preserves text (compareAll fuel i least) := by
  induction fuel generalizing i least with
  | zero => exact .pure _
  | succ fuel ih =>
    rw [Machine.compareAll]
    refine .bind .get fun m => .ite (.pure _) (.ite (.bind (.remove _) fun _ => ih _ _) ?_)
    refine .bind (KeepsOrder.standing i).preserves fun mine =>
      .bind (.compareWithEarlier _ _ _ _) fun r => ?_
    split <;> exact ih _ _

/-- a version that waits for its token can take it once it goes on -/
theorem resumeMisfit {m : Machine} (h : m.Ordered text) {i : Nat} {t : Token}
    (paused : m.stack.status i = .paused t) :
    ((do stack! (·.resume i); handleMisfit i t : Run Unit).run m).2.Ordered text := by
  have hi : i < m.stack.size := by
    by_contra out
    rw [Stack.status, Stack.version_of_size_le (Nat.le_of_not_lt out)] at paused
    cases paused
  obtain ⟨stands, behind⟩ := (h.stack.admits i).waiting t paused
  have resumed : (m.stack.resume i).version i = { m.stack.version i with status := .active } :=
    Stack.version_setVersion_self hi _
  have ready : Machine.Ready { m with stack := m.stack.resume i } i t.before := by
    refine ⟨?_, ?_, ?_⟩
    · show i < (m.stack.resume i).size
      rw [Stack.resume, Stack.size_setVersion]
      exact hi
    · show ((m.stack.resume i).version i).status.isPaused = false
      rw [resumed]
      rfl
    · show (m.stack.vertex ((m.stack.resume i).version i).vertex).cursor = t.before
      rw [resumed]
      exact behind
  have ordered : Machine.Ordered text { m with stack := m.stack.resume i } :=
    ⟨h.stack.resume i, h.finished⟩
  exact (handleMisfit_order ordered ready stands).ordered

theorem mend (fuel i k : Nat) (going : Bool) (least : Option Nat) :
    Preserves text (mend fuel i k going least) := by
  induction fuel generalizing i k going least with
  | zero => exact .pure _
  | succ fuel ih =>
    intro m h
    rw [Machine.mend]
    split
    · exact h
    · refine get_bind (P := Ordered text) ?_
      dsimp only
      split
      · next t paused =>
        split
        · exact ih _ _ _ _ _ (resumeMisfit h paused)
        · exact Preserves.bind (.remove i) (fun _ => ih _ _ _ _) m h
      · exact ih _ _ _ _ m h

theorem condense : Preserves text condense :=
  .bind .stackSize fun _ => .bind (.compareAll _ _ _) fun _ =>
    .bind (.versions! fun h => h.takeVersions _) fun _ =>
    .bind .stackSize fun _ => .mend _ _ _ _ _

theorem run (budget fuel last : Nat) : Preserves text (run budget fuel last) := by
  induction fuel generalizing last with
  | zero => exact .pure _
  | succ fuel ih =>
    exact .bind (.advanceAll _ _ _ _) fun r => .bind .condense fun least =>
      .bind .get fun m => .ite (.pure _) (ih _)

end Preserves

theorem ordered_start (a : Automaton) (text : List Char) :
    (start a (.ofList text)).Ordered text := by
  have bottom : ∀ i, ((start a (.ofList text)).stack.vertex i).links = [] := by
    intro i
    cases i with
    | zero => rfl
    | succ i =>
      have out : (start a (.ofList text)).stack.vertices.size ≤ i + 1 := Nat.le_add_left 1 i
      rw [Stack.vertex_of_size_le out]
      rfl
  refine ⟨⟨Nat.zero_lt_one, fun x hx => ?_, fun i hi => ?_, fun i l hl => ?_⟩, nofun⟩
  · obtain rfl := List.mem_singleton.mp (Array.mem_toList_iff.mpr hx)
    exact ⟨Nat.zero_lt_one, nofun⟩
  · obtain rfl : i = 0 := Nat.lt_one_iff.mp hi
    exact Cursor.isIn_ofList text
  · rw [bottom i] at hl
    exact absurd hl List.not_mem_nil

end Machine

/-- **The tree of a text stands in order, and in the text**, unless it is a single token. -/
theorem ordered_of_run (text : List Char) (other : ∀ x, (parse text).symbol ≠ .terminal x) :
    (parse text).Ordered ∧ (parse text).before.IsIn text := by
  have run : ∀ budget, let m := ((Machine.run budget budget 0).run
      (Machine.start Automaton.python (.ofList text))).2
      let t := m.finished.getD (Tree.wreck false (.ofList text) [])
      (∀ x, t.symbol ≠ .terminal x) → t.Ordered ∧ t.before.IsIn text := by
    intro budget m t other
    have ordered : m.Ordered text := Machine.Preserves.run budget budget 0 _
      (Machine.ordered_start Automaton.python text)
    cases hm : m.finished with
    | some u =>
      have same : t = u := by
        show m.finished.getD _ = u
        rw [hm]
        rfl
      rw [same] at other ⊢
      exact ordered.finished u hm other
    | none =>
      have same : t = Tree.wreck false (.ofList text) [] := by
        show m.finished.getD _ = _
        rw [hm]
        rfl
      rw [same]
      have row := Tree.row_wreck_nil false (Cursor.ofList text)
      exact ⟨(row.between.of_mem List.mem_cons_self).2.1, Cursor.isIn_ofList text⟩
  exact run (budgetFor text.length) other

end Python
end AnnotationAudit
