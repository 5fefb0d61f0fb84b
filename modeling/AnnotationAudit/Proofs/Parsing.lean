import AnnotationAudit.Proofs.Machine

/-!
# Every tree of the parser is formed

All that the machine does keeps it sound: comparing versions, recovering from text that does not
fit, and reading token by token. So the tree of a text is formed after the grammar.

* `Keeps.recover`, `Keeps.handleMisfit`  recovery;
* `Keeps.consume`, `Keeps.condense`      one token in one version, and all versions together;
* `run_whole`                            what the machine has at the end.
-/

namespace AnnotationAudit
namespace Python
namespace Machine

open Text

variable {grammar : Array Production} {count : Nat}

namespace Keeps

variable {α β : Type}

/-! ## comparing versions -/

theorem settleCount (v : Nat) : Keeps grammar count 0 (Machine.stack! (·.settleCount v)) :=
  .versions! (fun h => h.settleCount v) fun s => by
    rw [Stack.settleCount]
    split <;> rfl

theorem standing (v : Nat) : Keeps grammar count 0 (standing v) :=
  .bind (.settleCount v) fun _ => .bind .get fun _ => .pure _

theorem betterAmong (v : Nat) (mine : Standing) (ws : List Nat) :
    Keeps grammar count 0 (betterAmong v mine ws) := by
  induction ws with
  | nil => exact .pure _
  | cons w ws ih =>
    rw [Machine.betterAmong]
    refine .bind .get fun m => .ite ih (.bind (.standing w) fun other => ?_)
    split
    · exact .pure _
    · exact .bind .get fun _ => .ite (.pure _) ih
    · exact ih

theorem betterExists (v : Nat) (broken : Bool) (cost : Nat) :
    Keeps grammar count 0 (betterExists v broken cost) := by
  have rest : Keeps grammar count 0 (do
      Machine.stack! (·.settleCount v)
      let s := (← MonadState.get).stack
      Machine.betterAmong v ⟨cost, s.countSinceError v, (s.top v).weight, broken⟩
        (List.range s.size)) :=
    .bind (.settleCount v) fun _ => .bind .get fun m => .betterAmong v _ _
  refine .bind .get fun m => ?_
  cases m.finished with
  | none => exact rest
  | some t => exact .ite (.pure _) rest

theorem renumber (v w : Nat) : Keeps grammar count 0 (Machine.stack! (·.renumber v w)) :=
  .versions! (fun h => h.renumber v w) fun s => by
    rw [Stack.renumber]
    split <;> rfl

theorem halt (v : Nat) : Keeps grammar count 0 (Machine.stack! (·.halt v)) :=
  .versions! (fun h => h.halt v) fun _ => rfl

/-! ## closing all that can be closed -/

end Keeps

/-- closing one production after the other, all of them allowed at the beginning -/
theorem reduceEach_keeps (hg : Regular grammar count) {v : Nat} {is : List Nat} {last : Option Nat}
    {m : Machine} (h : m.Sound grammar count)
    (hc : ∀ i ∈ is, m.automaton.Closable grammar (m.stack.state v) i) :
    Becomes grammar count 0 m ((reduceEach v is last).run m).2 := by
  induction is generalizing last m with
  | nil => exact .refl h
  | cons i is ih =>
    obtain ⟨step, state⟩ := reduce_keeps hg h (hc i List.mem_cons_self)
    refine step.trans (ih step.sound fun j hj => ?_)
    rw [state]
    exact step.automaton.closable (hc j (List.mem_cons_of_mem _ hj))

/-- an outlook holds only what can be closed -/
theorem closable_of_mem_outlook {m : Machine} (h : m.Sound grammar count) (q : Nat)
    (x : Option Terminal) :
    ∀ i ∈ ((outlook q x).run m).1.reduces, m.automaton.Closable grammar q i := by
  have add : ∀ {o : Outlook} {y : Action},
      (∀ i ∈ o.reduces, m.automaton.Closable grammar q i) →
      (∀ i, y = .reduce i → m.automaton.Closable grammar q i) →
      ∀ i ∈ (o.add m.automaton.tables y).reduces, m.automaton.Closable grammar q i := by
    intro o y ho hy i hi
    cases y with
    | shift repeated => cases repeated <;> exact ho i hi
    | reduce j =>
      rw [Outlook.add] at hi
      split at hi
      · exact ho i hi
      · rcases List.mem_append.mp hi with hi | hi
        · exact ho i hi
        · exact hy i (by rw [List.mem_singleton.mp hi])
    | shiftExtra | accept | recover => exact ho i hi
  refine List.foldlRecOn (motive := fun o : Outlook => ∀ i ∈ o.reduces,
    m.automaton.Closable grammar q i) _ _ ?_ ?_
  · exact fun i hi => absurd hi List.not_mem_nil
  · intro o ho x _
    refine List.foldlRecOn (motive := fun o : Outlook => ∀ i ∈ o.reduces,
      m.automaton.Closable grammar q i) _ _ ho ?_
    exact fun o ho y hy => add ho (h.automaton.permits_of_mem_actions hy).closable

namespace Keeps

/-- looking what can be closed in a version and closing it -/
theorem closeAllIn (hg : Regular grammar count) (v : Nat) (x : Option Terminal)
    {f : Outlook → Option Nat → Run α} (hf : ∀ o new, Keeps grammar count 0 (f o new)) :
    Keeps grammar count 0 (do
      let o ← outlook (← Machine.stateOf v) x
      let new ← reduceEach v o.reduces none
      f o new) := fun m h => by
  have step : Becomes grammar count 0 m
      ((reduceEach v ((outlook (m.stack.state v) x).run m).1.reduces none).run m).2 :=
    reduceEach_keeps hg h (closable_of_mem_outlook h _ x)
  exact step.trans (hf _ _ _ step.sound)

theorem closeAllFrom (hg : Regular grammar count) (first initial : Nat) (x : Option Terminal)
    (fuel turn v : Nat) (can : Bool) :
    Keeps grammar count 0 (closeAllFrom first initial x fuel turn v can) := by
  induction fuel generalizing turn v can with
  | zero => exact .pure _
  | succ fuel ih =>
    rw [Machine.closeAllFrom]
    refine .bind .stackSize fun size => .ite (.pure _) ?_
    refine .bind (.mergeInto (Nat.zero_le _) _) fun merged => .ite (ih _ _ _) ?_
    refine closeAllIn hg v x fun o new => .ite (ih _ _ _) ?_
    have drop : ∀ {w}, Keeps grammar count 0 (do
        if x.isSome then Machine.stack! (·.remove v)
        Machine.closeAllFrom first initial x fuel (turn + 1) w can) :=
      fun {w} => .ite (.bind (.remove (Nat.zero_le _)) fun _ => ih _ w can) (ih _ w can)
    cases new with
    | none => exact drop
    | some w => exact .ite (.bind (.renumber w v) fun _ => ih _ _ _) drop

theorem closeAll (hg : Regular grammar count) (v : Nat) (x : Option Terminal) :
    Keeps grammar count 0 (closeAll v x) :=
  .bind .stackSize fun _ => .closeAllFrom hg v _ x _ _ _ _

/-! ## going back -/

theorem slices_sound {m : Machine} (h : m.Sound grammar count) {v : Nat} {σ : Type} {x : σ}
    {f : σ → Stack.Way → σ × Stack.Verdict} {ws : List Stack.Way}
    (hws : (m.stack.ways v x f).2 = ws) :
    Becomes grammar count 0 m { m with stack := (m.stack.slices v ws).1 } ∧
      ∀ y ∈ (m.stack.slices v ws).2, ∀ t ∈ y.trees, t.Sound grammar := by
  subst hws
  refine ⟨.slices h h.way_lt (Nat.zero_le _), fun y hy t ht => ?_⟩
  obtain ⟨w, hw, hyw⟩ := (Stack.sliced_slices m.stack v _).trees y hy
  exact (Stack.reaches_of_mem_ways hw).1.sound h.stack t (hyw ▸ ht)

/-- what the ways over a number of trees pass is sound -/
theorem popCount (v k : Nat) {f : List Stack.Slice → Run α}
    (hf : ∀ xs, (∀ x ∈ xs, ∀ t ∈ x.trees, t.Sound grammar) → Keeps grammar count 0 (f xs)) :
    Keeps grammar count 0 ((modifyGet fun m =>
      ((m.stack.popCount v k).2, { m with stack := (m.stack.popCount v k).1 })) >>= f) := by
  intro m h
  obtain ⟨step, sound⟩ := slices_sound h (v := v) (x := ()) (f := fun _ w =>
    ((), ⟨w.count == k, w.count == k⟩)) rfl
  exact step.trans (hf _ sound _ step.sound)

theorem popError (v : Nat) {f : Option Tree → Run α}
    (hf : ∀ e : Option Tree, (∀ t ∈ e, t.Sound grammar) → Keeps grammar count 0 (f e)) :
    Keeps grammar count 0 ((modifyGet fun m =>
      ((m.stack.popError v).2, { m with stack := (m.stack.popError v).1 })) >>= f) := fun m h => by
  have spec : Becomes grammar count 0 m { m with stack := (m.stack.popError v).1 } ∧
      ∀ t ∈ (m.stack.popError v).2, t.Sound grammar := by
    rw [Stack.popError]
    dsimp only
    split
    · generalize hws : (m.stack.ways v false _).2 = ws
      obtain ⟨step, sound⟩ := slices_sound h hws
      split
      · exact ⟨step, fun t ht => nomatch ht⟩
      · next x xs hxs =>
        refine ⟨step.trans (Keeps.renumber x.version v _ step.sound), fun t ht => ?_⟩
        exact sound x (hxs ▸ List.mem_cons_self) t (List.mem_of_head? ht)
    · exact ⟨.refl h, fun t ht => nomatch ht⟩
  exact spec.1.trans (hf _ spec.2 _ spec.1.sound)

/-- the trees that a version goes back over are as sound as they were -/
theorem sound_reopened {e : Option Tree} {ts : List Tree} (he : ∀ t ∈ e, t.Sound grammar)
    (hts : ∀ t ∈ ts, t.Sound grammar) : ∀ t ∈ reopened e ts, t.extra = true → t.Sound grammar := by
  intro t ht hextra
  rcases List.mem_append.mp ht with ht | ht
  · cases e with
    | none => exact absurd ht List.not_mem_nil
    | some e => exact (he e rfl).formed.sound_of_extra t ht hextra
  · exact hts t ht

theorem pushWreck (v : Nat) {ts : List Tree} (hts : ∀ t ∈ ts, t.extra = true → t.Sound grammar) :
    Keeps grammar count 0 (pushWreck v ts) := by
  obtain ⟨split, trailing⟩ := splitTrailing_spec ts
  have extras : Keeps grammar count 0 ((Tree.splitTrailing ts).2.forM (Machine.pushExtra v)) :=
    .forM fun t ht => .pushExtra (Nat.zero_le _)
      (hts t (split ▸ List.mem_append_right _ ht) (trailing t ht)) (trailing t ht)
  have wreck : ∀ c, (Tree.wreck true c (Tree.splitTrailing ts).1).Sound grammar := fun c =>
    Tree.sound_wreck true c fun t ht => hts t (split ▸ List.mem_append_left _ ht)
  exact .ite (.bind (.cursorOf v) fun c => .bind (.pushExtra (Nat.zero_le _) (wreck c) rfl)
    fun _ => extras) extras

theorem landSlices (goal : Nat) (xs : List Stack.Slice) (last : Option Nat)
    (hxs : ∀ x ∈ xs, ∀ t ∈ x.trees, t.Sound grammar) :
    Keeps grammar count 0 (landSlices goal xs last) := by
  induction xs generalizing last with
  | nil => exact .pure _
  | cons x xs ih =>
    have ih := fun last => ih last fun y hy => hxs y (List.mem_cons_of_mem _ hy)
    rw [Machine.landSlices]
    refine .ite (ih _) (.bind (.stateOf _) fun q => .ite (.bind (.halt _) fun _ => ih _) ?_)
    exact popError x.version fun e he =>
      .bind (.pushWreck _ (sound_reopened he (hxs x List.mem_cons_self))) fun _ => ih _

theorem landAt (v depth goal : Nat) : Keeps grammar count 0 (landAt v depth goal) :=
  popCount v depth fun xs hxs => .bind (.landSlices goal xs none hxs) fun _ => .pure _

theorem landAmong (v versions : Nat) (c : Cursor) (cost : Nat) (progress : Bool) (x : Terminal)
    (ls : List Landmark) : Keeps grammar count 0 (landAmong v versions c cost progress x ls) := by
  induction ls with
  | nil => exact .pure _
  | cons l ls ih =>
    rw [Machine.landAmong]
    refine .bind .get fun m => .ite ih (.bind (.betterExists _ _ _) fun better => .ite (.pure _) ?_)
    refine .bind (.hasActions _ _) fun has => .ite (.bind (.landAt _ _ _) fun landed => ?_) ih
    exact .ite (.pure _) ih

theorem removeIdle (fuel v : Nat) : Keeps grammar count 0 (removeIdle fuel v) := by
  induction fuel generalizing v with
  | zero => exact .pure _
  | succ fuel ih =>
    rw [Machine.removeIdle]
    exact .bind .get fun m => .ite (.pure _) (.ite (ih _)
      (.bind (.remove (Nat.zero_le _)) fun _ => ih _))

/-! ## skipping -/

theorem setLayout (v : Nat) (l : Option Layout) :
    Keeps grammar count 0 (Machine.stack! (·.setLayout v l)) :=
  .versions! (fun h => h.setLayout v l) fun _ => rfl

theorem skipToken (v : Nat) (progress : Bool) (t : Token) :
    Keeps grammar count 0 (skipToken v progress t) := by
  rw [Machine.skipToken]
  refine .bind (.cursorOf v) fun c => ?_
  have one : (Tree.skipped c
      [Tree.leaf t ((t.symbol.map Terminal.isExtra).getD false)]).Sound grammar := by
    refine Tree.sound_skipped c fun u hu he => ?_
    obtain rfl := List.mem_singleton.mp hu
    exact Tree.sound_leaf_of_extra he
  have rest : ∀ all : Tree, all.Sound grammar → all.extra = false → Keeps grammar count 0 (do
      Machine.push v all Automaton.errorState
      if t.layout.isSome then Machine.stack! (·.setLayout v t.layout)) := fun all hall he =>
    .bind (.pushBroken (Nat.zero_le _) hall he) fun _ => .ite (.setLayout v _) (.pure _)
  refine .ite (popCount v 1 fun xs hxs => ?_) (rest _ one rfl)
  cases xs with
  | nil => exact rest _ one rfl
  | cons x xs =>
    refine .bind (.versions! (fun h => (h.takeVersions _).renumber _ v) fun s => ?_) fun _ =>
      rest _ (Tree.sound_skipped c fun u hu _ => ?_) rfl
    · rw [Stack.renumber]
      split <;> rfl
    · rcases List.mem_append.mp hu with hu | hu
      · exact hxs x List.mem_cons_self u hu
      · exact List.mem_singleton.mp hu ▸ one

/-- **Recovery keeps the machine sound.** -/
theorem recover (v : Nat) (t : Token) : Keeps grammar count 0 (recover v t) := by
  rw [Machine.recover]
  refine .bind (.settleCount v) fun _ => .bind .stackSize fun versions => .bind .get fun m => ?_
  have rest : ∀ (landed : Bool) (c : Cursor) (skipCost : Nat) (progress : Bool),
      Keeps grammar count 0 (do
        Machine.removeIdle (2 * (← Machine.stackSize)) versions
        if landed && (maxVersions < (← Machine.stackSize) || t.layoutChanged) then
          Machine.stack! (·.halt v)
        else if t.symbol == some .endOfText then accept v [Tree.wreck false c []] t
        else if ← Machine.betterExists v false skipCost then Machine.stack! (·.halt v)
        else Machine.skipToken v progress t) := fun landed c skipCost progress => by
    refine .bind .stackSize fun _ => .bind (.removeIdle _ _) fun _ => .bind .stackSize fun _ =>
      .ite (.halt v) ?_
    by_cases hx : t.symbol = some .endOfText
    · rw [if_pos (beq_iff_eq.mpr hx)]
      exact accept_wreck_keeps v c hx
    · rw [if_neg (by simpa using hx)]
      exact .bind (.betterExists _ _ _) fun _ => .ite (.halt v) (.skipToken v _ t)
  dsimp only
  split
  · exact .bind (.landAmong _ _ _ _ _ _ _) fun landed => rest landed _ _ _
  · exact rest false _ _ _

/-! ## putting in a missing token -/

theorem state_copy (s : Stack) (v : Nat) : (s.copy v).state s.size = s.state v := by
  have last : (s.copy v).version s.size = { s.version v with landmarks := none } := by
    show ((s.versions.push _)[s.versions.size]?).getD default = _
    rw [Array.getElem?_push_size]
    rfl
  show ((s.copy v).vertex ((s.copy v).version s.size).vertex).state = _
  rw [last]
  rfl

/-- what follows a search for a state may rely on it -/
theorem gotoThen (hg : Regular grammar count) (v : Nat) {x : Symbol} (hx : x.isReal = true)
    {f : Nat → Run α} (hf : ∀ (m : Machine) (q : Nat), m.Sound grammar count →
      q < m.automaton.states.size → m.automaton.Leads grammar (m.stack.state v) x q →
      Becomes grammar count 0 m ((f q).run m).2) {m : Machine} (h : m.Sound grammar count) :
    Becomes grammar count 0 m ((goto (m.stack.state v) x >>= f).run m).2 := by
  have spec := Automaton.goto_spec h.automaton hg (m.stack.state v) hx
  have step : Becomes grammar count 0 m
      { m with automaton := (m.automaton.goto (m.stack.state v) x).1 } :=
    .ofAutomaton h spec.sound spec.extends_
  exact step.trans (hf _ _ step.sound spec.lt_size spec.leads)

/-- a token that is missing is put in in the state behind it, in a new version -/
theorem pushMissing {m : Machine} (h : m.Sound grammar count) {v q : Nat} {y : Terminal}
    (hq : q < m.automaton.states.size)
    (leads : m.automaton.Leads grammar (m.stack.state v) (.terminal y) q) (c : Cursor) :
    Becomes grammar count 0 m
      { m with stack := (m.stack.copy v).push m.stack.size (some (Tree.missing y c)) q } := by
  have copied : Becomes grammar count 0 m { m with stack := m.stack.copy v } :=
    Keeps.versions! (fun h => h.copy v) (fun _ => rfl) m h
  refine copied.trans (.push copied.sound (Nat.zero_le _) hq ⟨Tree.sound_missing y c, ?_⟩)
  rw [state_copy]
  exact leads

theorem insertAmong (hg : Regular grammar count) (v : Nat) (x : Terminal) (ys : List Terminal) :
    Keeps grammar count 0 (insertAmong v x ys) := by
  induction ys with
  | nil => exact .pure _
  | cons y ys ih =>
    intro m h
    rw [Machine.insertAmong]
    show Becomes grammar count 0 m (StateT.run (if _ then Machine.insertAmong v x ys else
      goto (m.stack.state v) (.terminal y) >>= _) m).2
    refine .ite (ih m h) (gotoThen hg v rfl (fun m q h hq leads => ?_) h)
    refine .ite (ih m h) ?_
    show Becomes grammar count 0 m (StateT.run (if _ then Machine.insertAmong v x ys else _) m).2
    refine .ite (ih m h) ?_
    have pushed := pushMissing h hq leads ((m.stack.copy v).cursor v)
    have rest : Keeps grammar count 0 (do
        if ← Machine.closeAll m.stack.size (if x == .endOfText then none else some x) then
          return true
        else Machine.insertAmong v x ys) :=
      .bind (.closeAll hg _ _) fun _ => .ite (.pure _) ih
    exact pushed.trans (rest _ pushed.sound)

theorem breakAll (hg : Regular grammar count) (x : Option Terminal) (vs : List Nat)
    (inserted : Bool) :
    Keeps grammar count 0 (breakAll x vs inserted) := by
  induction vs generalizing inserted with
  | nil => exact .pure _
  | cons v vs ih =>
    unfold Machine.breakAll
    have rest : ∀ inserted, Keeps grammar count 0 (do
        Machine.stack! (·.push v none Automaton.errorState)
        Machine.breakAll x vs inserted) := fun inserted =>
      .bind (fun m h => .push h (Nat.zero_le _)
        (Nat.lt_of_lt_of_le Nat.zero_lt_two h.automaton.two_le_size) rfl) fun _ => ih inserted
    cases x with
    | none => exact rest inserted
    | some x => exact .ite (rest true) (.bind (.insertAmong hg v x _) fun inserted => rest inserted)

theorem handleMisfit (hg : Regular grammar count) (v : Nat) (t : Token) :
    Keeps grammar count 0 (handleMisfit v t) := by
  rw [Machine.handleMisfit]
  refine .bind .stackSize fun previous => .bind (.closeAll hg v none) fun _ =>
    .bind .stackSize fun size => .bind (.breakAll hg _ _ _) fun _ =>
    .bind (.forM fun _ _ => .bind (.mergeInto (Nat.zero_le _) _) fun _ => .pure _) fun _ =>
    .bind (.versions! (fun h => h.markLandmarks v _) fun _ => rfl) fun _ => .recover v t

/-! ## one version -/

theorem shift (hg : Regular grammar count) (v : Nat) (t : Token) {x : Terminal}
    (hx : t.symbol = some x) (extra : Bool) (free : extra = true → x.isExtra = true) :
    Keeps grammar count 0 (shift v t extra) := by
  have leaf : (Tree.leaf t extra).Sound grammar :=
    Tree.sound_leaf hx fun h => Bool.or_eq_true_iff.mpr (.inl (free h))
  have real : (Tree.leaf t extra).symbol.isReal = true := by
    rw [Tree.leaf, hx]
    rfl
  have layout : Keeps grammar count 0 (if t.layout.isSome = true then
      Machine.stack! (·.setLayout v t.layout) else Pure.pure ()) := .ite (.setLayout v _) (.pure _)
  rw [Machine.shift]
  cases he : (Tree.leaf t extra).extra with
  | true => exact .bind (.pushExtra (Nat.zero_le _) leaf he) fun _ => layout
  | false => exact .bind (.pushNext hg (Nat.zero_le _) leaf he real) fun _ => layout

end Keeps

/-- the actions on a token, all of them permitted at the beginning -/
theorem perform_keeps (hg : Regular grammar count) {v : Nat} {t : Token} {x : Terminal}
    (hx : t.symbol = some x) {as : List Action} {last : Option Nat} {m : Machine}
    (h : m.Sound grammar count)
    (has : ∀ y ∈ as, m.automaton.Permits grammar (m.stack.state v) x y) :
    Becomes grammar count 0 m ((perform v t as last).run m).2 := by
  induction as generalizing last m with
  | nil => cases last <;> exact .refl h
  | cons y as ih =>
    have now := has _ List.mem_cons_self
    have later := fun z hz => has z (List.mem_cons_of_mem _ hz)
    cases y with
    | shift repeated =>
      cases repeated with
      | true => exact ih h later
      | false =>
        exact Keeps.ite (.bind (.shift hg v t hx false nofun) fun _ => .pure _) (.pure _) m h
    | shiftExtra =>
      exact Keeps.bind (.shift hg v t hx true fun _ => now.isExtra rfl) (fun _ => .pure _) m h
    | reduce i =>
      obtain ⟨step, state⟩ := reduce_keeps hg h (now.closable i rfl)
      refine step.trans (ih step.sound fun z hz => ?_)
      rw [state]
      exact step.automaton.permits (later z hz)
    | accept =>
      obtain ⟨accepting, rfl⟩ := now.accepting rfl
      have step : Becomes grammar count 0 m ((accept v [] t).run m).2 :=
        accept_keeps hg h hx accepting
      exact step.trans (.refl step.sound)
    | recover => exact Keeps.bind (.recover v t) (fun _ => .pure _) m h

namespace Keeps

theorem proceed (v state : Nat) (t : Token) (r : Progress) {again : Token → Run Unit}
    (h : ∀ t, Keeps grammar count 0 (again t)) :
    Keeps grammar count 0 (proceed v state t again r) := by
  cases r with
  | used => exact .pure _
  | closed w => exact .bind (.renumber w v) fun _ => h t
  | stuck =>
    exact .bind (.hasActions state _) fun _ => .ite (h _) (.ite (.recover v t)
      (.versions! (fun hs => hs.pause v t) fun _ => rfl))

/-- **One token in one version keeps the machine sound.** -/
theorem consume (hg : Regular grammar count) (v fuel : Nat) (t : Token) :
    Keeps grammar count 0 (consume v fuel t) := by
  induction fuel generalizing t with
  | zero => exact .halt v
  | succ fuel ih =>
    intro m h
    have again : ∀ r, Keeps grammar count 0
        (Machine.proceed v (m.stack.state v) t (Machine.consume v fuel) r) := fun r =>
      proceed v _ t r ih
    rw [Machine.consume]
    cases hx : t.symbol with
    | none => exact again .stuck m h
    | some x =>
      have step : Becomes grammar count 0 m
          ((perform v t (m.automaton.actions (m.stack.state v) x) none).run m).2 :=
        perform_keeps hg hx h fun y hy => h.automaton.permits_of_mem_actions hy
      exact step.trans (again _ _ step.sound)

theorem advance (hg : Regular grammar count) (v fuel : Nat) :
    Keeps grammar count 0 (advance v fuel) :=
  .bind .get fun _ => .consume hg v fuel _

theorem advanceWhile (hg : Regular grammar count) (v budget fuel last : Nat) :
    Keeps grammar count 0 (advanceWhile v budget fuel last) := by
  induction fuel generalizing last with
  | zero => exact .pure _
  | succ fuel ih =>
    exact .bind .get fun m => .ite (.bind (.advance hg v budget) fun _ =>
      .bind (.cursorOf v) fun _ => .ite (.pure _) (ih _)) (.pure _)

theorem advanceAll (hg : Regular grammar count) (budget fuel v last : Nat) :
    Keeps grammar count 0 (advanceAll budget fuel v last) := by
  induction fuel generalizing v last with
  | zero => exact .pure _
  | succ fuel ih =>
    exact .bind .stackSize fun size => .ite (.pure _)
      (.bind (.advanceWhile hg _ _ _ _) fun _ => ih _ _)

/-! ## all versions -/

theorem compareWithEarlier (mine : Standing) (fuel j i : Nat) :
    Keeps grammar count 0 (compareWithEarlier mine fuel j i) := by
  induction fuel generalizing j i with
  | zero => exact .pure _
  | succ fuel ih =>
    rw [Machine.compareWithEarlier]
    refine .ite (.pure _) (.bind (.standing j) fun other => ?_)
    split
    · exact .bind (.remove (Nat.zero_le _)) fun _ => .pure _
    · exact .bind (.mergeInto (Nat.zero_le _) _) fun _ => .ite (.pure _) (ih _ _)
    · exact .bind (.mergeInto (Nat.zero_le _) _) fun _ => .ite (.pure _) (ih _ _)
    · exact .bind (.mergeInto (Nat.zero_le _) _) fun _ => .ite (.pure _)
        (.bind (.versions! (fun h => h.swap i j) fun _ => rfl) fun _ => ih _ _)
    · exact .bind (.remove (Nat.zero_le _)) fun _ => ih _ _

theorem compareAll (fuel i : Nat) (least : Option Nat) :
    Keeps grammar count 0 (compareAll fuel i least) := by
  induction fuel generalizing i least with
  | zero => exact .pure _
  | succ fuel ih =>
    rw [Machine.compareAll]
    refine .bind .get fun m => .ite (.pure _)
      (.ite (.bind (.remove (Nat.zero_le _)) fun _ => ih _ _) ?_)
    refine .bind (.standing i) fun mine => .bind (.compareWithEarlier _ _ _ _) fun r => ?_
    split <;> exact ih _ _

theorem mend (hg : Regular grammar count) (fuel i k : Nat) (going : Bool) (least : Option Nat) :
    Keeps grammar count 0 (mend fuel i k going least) := by
  induction fuel generalizing i k going least with
  | zero => exact .pure _
  | succ fuel ih =>
    rw [Machine.mend]
    refine .ite (.pure _) (.bind .get fun m => ?_)
    split
    · exact .ite (.bind (.versions! (fun h => h.resume i) fun _ => rfl) fun _ =>
        .bind (.handleMisfit hg _ _) fun _ => ih _ _ _ _)
        (.bind (.remove (Nat.zero_le _)) fun _ => ih _ _ _ _)
    · exact ih _ _ _ _

theorem condense (hg : Regular grammar count) : Keeps grammar count 0 condense :=
  .bind .stackSize fun _ => .bind (.compareAll _ _ _) fun _ =>
    .bind (.versions! (fun h => h.takeVersions _) fun _ => rfl) fun _ =>
    .bind .stackSize fun _ => .mend hg _ _ _ _ _

theorem run (hg : Regular grammar count) (budget fuel last : Nat) :
    Keeps grammar count 0 (run budget fuel last) := by
  induction fuel generalizing last with
  | zero => exact .pure _
  | succ fuel ih =>
    exact .bind (.advanceAll hg _ _ _ _) fun r => .bind (.condense hg) fun least =>
      .bind .get fun m => .ite (.pure _) (ih _)

end Keeps

theorem sound_start {a : Automaton} (ha : a.Sound grammar count) (c : Cursor) :
    (start a c).Sound grammar count where
  automaton := ha
  stack := by
    have bottom : ∀ {i : Nat} {x : Vertex}, (Stack.start c).vertices[i]? = some x →
        x = ⟨Automaton.startState, c, [], 0, 0, 0⟩ := fun hx =>
      List.mem_singleton.mp (Array.mem_toList_iff.mpr (Array.mem_of_getElem? hx))
    refine ⟨Nat.zero_lt_one, fun x hx => ?_, fun hx => ?_, fun hx l hl => ?_⟩
    · obtain rfl := List.mem_singleton.mp (Array.mem_toList_iff.mpr hx)
      exact Nat.zero_lt_one
    · rw [bottom hx]
      exact ha.two_le_size
    · rw [bottom hx] at hl
      exact absurd hl List.not_mem_nil
  finished := nofun

/-- **Every tree of a parser is whole**: it is formed after the grammar, and if all of the text
fits, it is one of the start symbol. -/
theorem run_whole (hg : Regular grammar count) (c : Cursor) (budget : Nat) :
    Whole grammar ((((run budget budget 0).run
      (start (.start (.build grammar count)) c)).2.finished).getD (Tree.wreck false c [])) := by
  have sound := (Keeps.run hg budget budget 0 _ (sound_start
    (Automaton.sound_start (Tables.sound_build grammar count)) c)).sound
  cases ht : ((run budget budget 0).run (start (.start (.build grammar count)) c)).2.finished with
  | none =>
    exact ⟨(Tree.sound_wreck false c fun t ht => absurd ht List.not_mem_nil).formed,
      .inr ⟨rfl, Tree.cost_build_pos (.inl rfl) [] false c []⟩⟩
  | some t => exact sound.finished t ht

end Machine
end Python
end AnnotationAudit
