import AnnotationAudit.Proofs.MachineOrder

/-!
# Recovery keeps the order of the text

Where text does not fit, versions are compared, go back, take in text that fits nowhere and get
tokens that are missing. All of this keeps the machine ordered.

* `accept_order`         reading the end of the text makes trees in order;
* `closeAll_ready`       closing all that can be closed in a version leaves it ready;
* `landAt_order`         so does going back to where the text fitted, behind the other versions;
* `skipToken_order`      a token that is skipped stands behind what was skipped before it;
* `recover_order`, `handleMisfit_order`  recovery as a whole.
-/

namespace AnnotationAudit
namespace Python
namespace Machine

open Text

variable {text : List Char} {n : Nat} {α β : Type}

/-- an ordered machine that has the version `v` -/
structure Has (text : List Char) (v : Nat) (m : Machine) : Prop where
  ordered : m.Ordered text
  lt_size : v < m.stack.size

theorem KeepsOrder.has {c : Run α} (hc : KeepsOrder text n c) {v : Nat} (hv : v < n)
    {m : Machine} (h : m.Ordered text) (hn : n ≤ m.stack.size) : Has text v (c.run m).2 :=
  ⟨(hc m h hn).ordered, Nat.lt_of_lt_of_le hv (hc m h hn).le_size⟩

theorem KeepsOrder.ready {c : Run α} (hc : KeepsOrder text n c) {v : Nat} (hv : v < n)
    {m : Machine} (h : m.Ordered text) (hn : n ≤ m.stack.size) {b : Cursor} (ready : m.Ready v b) :
    (c.run m).2.Ordered text ∧ (c.run m).2.Ready v b :=
  ⟨(hc m h hn).ordered, (hc m h hn).ready h hv ready⟩

theorem KeepsOrder.andThen {c : Run α} {f : α → Run β} {P : Machine → Prop}
    (hc : KeepsOrder text n c) {m : Machine} (h : m.Ordered text) (hn : n ≤ m.stack.size)
    (hf : ∀ x m', Follows text n m m' → P ((f x).run m').2) : P ((c >>= f).run m).2 :=
  hf _ _ (hc m h hn)

theorem stackSize_bind {f : Nat → Run α} {P : Machine → Prop} {m : Machine}
    (h : P ((f m.stack.size).run m).2) : P ((stackSize >>= f).run m).2 := h

theorem cursorOf_bind {f : Cursor → Run α} {P : Machine → Prop} {m : Machine} {v : Nat}
    (h : P ((f (m.stack.cursor v)).run m).2) : P ((cursorOf v >>= f).run m).2 := h

theorem popCount_bind (v count : Nat) {f : List Stack.Slice → Run α} {P : Machine → Prop}
    {m : Machine} (h : P ((f (m.stack.popCount v count).2).run
      { m with stack := (m.stack.popCount v count).1 }).2) :
    P (((modifyGet fun m => ((m.stack.popCount v count).2,
      { m with stack := (m.stack.popCount v count).1 })) >>= f).run m).2 := h

theorem get_bind {f : Machine → Run α} {P : Machine → Prop} {m : Machine}
    (h : P ((f m).run m).2) : P ((get >>= f).run m).2 := h

theorem ready_bind {c : Run α} {f : α → Run β} {P : Machine → Prop} {m : Machine} {v : Nat}
    {b : Cursor} (hc : (c.run m).2.Ordered text ∧ (c.run m).2.Ready v b)
    (hf : ∀ x m', m'.Ordered text → m'.Ready v b → P ((f x).run m').2) :
    P ((c >>= f).run m).2 :=
  hf _ _ hc.1 hc.2

theorem Has.ite_of {c d : Run α} {p : Prop} [Decidable p] {v : Nat} {m : Machine}
    (hc : p → Has text v (c.run m).2) (hd : Has text v (d.run m).2) :
    Has text v ((if p then c else d).run m).2 := by
  split
  · next hp => exact hc hp
  · exact hd

theorem Has.ite {c d : Run α} {p : Prop} [Decidable p] {v : Nat} {m : Machine}
    (hc : Has text v (c.run m).2) (hd : Has text v (d.run m).2) :
    Has text v ((if p then c else d).run m).2 := .ite_of (fun _ => hc) hd

theorem Has.halt {v : Nat} {m : Machine} (h : Has text v m) (w : Nat) :
    Has text v ((stack! (·.halt w)).run m).2 := by
  refine ⟨⟨h.ordered.stack.halt w, h.ordered.finished⟩, ?_⟩
  show v < (m.stack.halt w).size
  rw [Stack.halt, Stack.size_setVersion]
  exact h.lt_size

theorem Has.retire {v : Nat} {m : Machine} (h : Has text v m) {xs : List Stack.Slice}
    (behind : ∀ x ∈ xs, v < x.version) : Has text v ((retire v xs).run m).2 := by
  cases xs with
  | nil => exact h.halt v
  | cons x xs =>
    have hx : v + 1 ≤ x.version := behind x List.mem_cons_self
    exact ((KeepsOrder.remove hx).has (Nat.lt_succ_self v) h.ordered h.lt_size).halt v

/-! ## the end of the text -/

theorem wholeTree_cases {c : Cursor} {ts : List Tree} {t : Tree} (h : wholeTree c ts = some t) :
    ∃ front u back, ts = front ++ u :: back ∧ u.extra = false ∧
      t = Tree.build u.symbol u.info.steps false c (front ++ u.children ++ back) := by
  have split := List.takeWhile_append_dropWhile (p := Tree.extra) (l := ts.reverse)
  rw [wholeTree] at h
  split at h
  · cases h
  · next u front hu =>
    obtain rfl := Option.some.inj h
    have solid : u.extra = false := by
      have := List.head?_dropWhile_not (p := Tree.extra) ts.reverse
      rw [hu] at this
      simpa using this
    refine ⟨front.reverse, u, (ts.reverse.takeWhile Tree.extra).reverse, ?_, solid, rfl⟩
    rw [hu] at split
    have back := congrArg List.reverse split
    rw [List.reverse_append, List.reverse_cons, List.reverse_reverse, List.append_assoc,
      List.singleton_append] at back
    exact back.symm

/-- the trees of a whole text, the end of the text behind them, become one in order, unless that
would be a token -/
theorem ordered_wholeTree {b c d : Cursor} {ts : List Tree} {eof : Token} {t : Tree}
    (row : Tree.Row b (ts ++ [Tree.leaf eof true]) d)
    (h : wholeTree c (ts ++ [Tree.leaf eof true]) = some t) (other : ∀ x, t.symbol ≠ .terminal x) :
    t.Ordered ∧ b.Precedes t.before := by
  obtain ⟨front, u, back, hts, solid, rfl⟩ := wholeTree_cases h
  rw [hts] at row
  obtain ⟨e, hfront, hu⟩ := row.of_append
  have opened : Tree.Between e u.children u.stop := by
    cases hu.between with
    | cons before ordered led rest => exact before ▸ hu.opens u List.mem_cons_self other
  have inner : Tree.Between b (front ++ u.children ++ back) d :=
    (hfront.between.append opened).append hu.tail.between
  have inside : u.symbol ≠ .skipped → ∀ v ∈ front ++ u.children ++ back, v.Opens := by
    intro sound
    have ordered : u.Ordered := (hu.between.of_mem List.mem_cons_self).2.1
    exact List.forall_mem_append.mpr
      ⟨List.forall_mem_append.mpr ⟨hfront.opens, ordered.opens_of_mem sound⟩, hu.tail.opens⟩
  -- the end of the text is extra, so it is not the tree that takes in the others
  cases hall : front ++ u.children ++ back with
  | cons x xs =>
    rw [hall] at inner inside
    obtain ⟨whole, first, -⟩ := inner.ordered_build inside u.info.steps false c
    exact ⟨whole, first ▸ .refl b⟩
  | nil =>
    have nil : back = [] := (List.append_eq_nil_iff.mp hall).2
    rw [nil] at hts
    have last := List.append_inj_right' hts rfl
    rw [← (List.cons.inj last).1] at solid
    cases solid

theorem KeepsOrder.finish {t : Tree}
    (ht : (∀ x, t.symbol ≠ .terminal x) → t.Ordered ∧ t.before.IsIn text) :
    KeepsOrder text n (modify (finish t) : Run PUnit) := fun m h hn => by
  refine ⟨⟨h.stack, fun u hu => ?_⟩, .refl _, hn, fun _ _ => rfl⟩
  have hu : m.finished.elim t (fun v => if v.preferred t then t else v) = u := Option.some.inj hu
  rw [← hu]
  cases hm : m.finished with
  | none => exact ht
  | some v =>
    rw [Option.elim_some]
    split
    · exact ht
    · exact h.finished v hm

/-- **Reading the end of the text makes trees in order**, if what is left of the text is. -/
theorem accept_order {m : Machine} (h : m.Ordered text) {v : Nat} {eof : Token}
    (ready : m.Ready v eof.before) {rest : List Tree}
    (row : Tree.Row (m.stack.cursor v) (rest ++ [Tree.leaf eof true]) eof.stop) :
    Has text v ((accept v rest eof).run m).2 := by
  have run : (accept v rest eof).run m = ((do
      (m.stack.popAll v).2.forM fun x => (wholeTree eof.stop
        (x.trees ++ rest ++ [Tree.leaf eof true])).forM fun t => modify (finish t)
      retire v (m.stack.popAll v).2 : Run Unit).run
        { m with stack := (m.stack.popAll v).1.clear v eof.stop }) := rfl
  obtain ⟨gs, sliced, -⟩ := slices_order h v () fun _ w =>
    ((), ⟨(m.stack.vertex w.vertex).links.isEmpty, false⟩)
  have sliced : SlicedFrom text m v (m.stack.popAll v) gs := sliced
  rw [run]
  generalize m.stack.popAll v = r at sliced
  have hv : v < m.stack.size := ready.lt_size
  have active : (r.1.status v).isPaused = false := (sliced.follows.ready h hv ready).active
  have stop : eof.stop.IsIn text := (h.stack.cursor_isIn v).trans row.between.precedes
  obtain ⟨y, moves⟩ := sliced.follows.ordered.stack.clear active stop
  have cleared : Takes text v { m with stack := r.1 } { m with stack := r.1.clear v eof.stop } :=
    .ofMoves sliced.follows.ordered moves
  have size : v + 1 ≤ (r.1.clear v eof.stop).size := by
    rw [show (r.1.clear v eof.stop).size = r.1.size from cleared.size]
    exact Nat.lt_of_lt_of_le hv sliced.follows.le_size
  have made : KeepsOrder text (v + 1) (r.2.forM fun x => (wholeTree eof.stop
      (x.trees ++ rest ++ [Tree.leaf eof true])).forM fun t => modify (finish t) : Run Unit) := by
    refine .forM fun x hx => ?_
    obtain ⟨-, -, -, passed⟩ := sliced.of_mem hx
    have whole : Tree.Row (r.1.cursor x.version)
        (x.trees ++ rest ++ [Tree.leaf eof true]) eof.stop := by
      rw [List.append_assoc]
      exact passed.append row
    cases ht : wholeTree eof.stop (x.trees ++ rest ++ [Tree.leaf eof true]) with
    | none => exact .pure _
    | some t =>
      refine .finish fun other => ?_
      obtain ⟨ordered, first⟩ := ordered_wholeTree whole ht other
      exact ⟨ordered, (sliced.follows.ordered.stack.cursor_isIn x.version).trans first⟩
  have finished := made.has (Nat.lt_succ_self v) cleared.ordered size
  refine finished.retire fun x hx => ?_
  exact Nat.lt_of_lt_of_le hv (sliced.of_mem hx).1

/-! ## comparing versions -/

namespace KeepsOrder

theorem standing (v : Nat) : KeepsOrder text n (standing v) :=
  .bind (.settleCount v) fun _ => .bind .get fun _ => .pure _

theorem betterAmong (v : Nat) (mine : Standing) (ws : List Nat) :
    KeepsOrder text n (betterAmong v mine ws) := by
  induction ws with
  | nil => exact .pure _
  | cons w ws ih =>
    rw [Machine.betterAmong]
    refine .bind .get fun m => .ite ih (.bind (.standing w) fun other => ?_)
    split
    · exact .pure _
    · exact .bind .get fun _ => .ite (.pure _) ih
    · exact ih

theorem betterExists (v : Nat) (broken : Bool) (cost : Nat) :
    KeepsOrder text n (betterExists v broken cost) := by
  have rest : KeepsOrder text n (do
      Machine.stack! (·.settleCount v)
      let s := (← MonadState.get).stack
      Machine.betterAmong v ⟨cost, s.countSinceError v, (s.top v).weight, broken⟩
        (List.range s.size)) :=
    .bind (.settleCount v) fun _ => .bind .get fun m => .betterAmong v _ _
  refine .bind .get fun m => ?_
  cases m.finished with
  | none => exact rest
  | some t => exact .ite (.pure _) rest

/-! ## closing all that can be closed -/

end KeepsOrder

theorem reduceEach_order {m m' : Machine} (h : m.Ordered text) {v : Nat} (hv : v < m.stack.size)
    {is : List Nat} {last : Option Nat} (reduced : Reduced text m v (last, m')) :
    Reduced text m v ((reduceEach v is last).run m') := by
  induction is generalizing last m' with
  | nil => exact reduced
  | cons i is ih =>
    exact ih (reduced.step h hv (reduce_order reduced.follows.ordered v i) fun w hw => .inl hw)

/-- a version behind takes the place of one that there is -/
theorem renumber_seat {s : Stack} {v w : Nat} (hvw : v < w) (hw : w < s.size) :
    (s.renumber w v).vertices = s.vertices ∧ (s.renumber w v).size = s.size - 1 ∧
      ((s.renumber w v).version v).seat = (s.version w).seat ∧
      ∀ u < w, u ≠ v → ((s.renumber w v).version u).seat = (s.version u).seat := by
  have ne : ¬ (w == v) = true := by simpa using Nat.ne_of_gt hvw
  rw [Stack.renumber, if_neg ne]
  refine ⟨rfl, ?_, ?_, fun u hu hne => ?_⟩
  · rw [Stack.size_remove, Stack.size_setVersion, if_pos hw]
  · rw [Stack.version_remove, if_pos hvw, Stack.version_setVersion_self (Nat.lt_trans hvw hw)]
    rfl
  · rw [Stack.version_remove, if_pos hu, Stack.version_setVersion_ne hne]

theorem renumber_order {m : Machine} (h : m.Ordered text) {v w : Nat} (hvw : v < w) {c : Cursor}
    (ready : m.Ready w c) :
    ((stack! (·.renumber w v)).run m).2.Ordered text ∧
      ((stack! (·.renumber w v)).run m).2.Ready v c := by
  obtain ⟨vertices, size, seat, -⟩ := renumber_seat hvw ready.lt_size
  obtain ⟨cursor, status⟩ := cursor_of_seat h.stack (.of_vertices vertices) seat
  refine ⟨⟨h.stack.renumber w v, h.finished⟩, ?_, status ▸ ready.active, cursor ▸ ready.cursor⟩
  show v < (m.stack.renumber w v).size
  have := ready.lt_size
  omega

theorem closeAllIn_order (P : Machine → Prop) {m : Machine} (h : m.Ordered text) {v : Nat}
    (hv : v < m.stack.size) (x : Option Terminal) {f : Outlook → Option Nat → Run α}
    (hf : ∀ (o : Outlook) (r : Option Nat × Machine), Reduced text m v r →
      P ((f o r.1).run r.2).2) :
    P ((do
      let o ← outlook (← stateOf v) x
      let new ← reduceEach v o.reduces none
      f o new : Run α).run m).2 :=
  hf _ ((reduceEach v ((outlook (m.stack.state v) x).run m).1.reduces none).run m)
    (reduceEach_order h hv (.refl h v))

/-- what merging, closing and removing keep of the versions from `low` on, closing all that can be
closed there keeps -/
theorem closeAllFrom_induction (P : Machine → Prop) (ordered : ∀ m, P m → m.Ordered text)
    {low first initial : Nat} {x : Option Terminal}
    (merge : ∀ m v, low ≤ v → P m → P ((mergeInto v ((List.range v).drop initial)).run m).2)
    (reduce : ∀ m v r, low ≤ v → v < m.stack.size → P m → Reduced text m v r →
      P r.2 ∧ ∀ w ∈ r.1, P ((stack! (·.renumber w v)).run r.2).2)
    (remove : x.isSome = true → ∀ m v, low ≤ v → P m → P ((stack! (·.remove v)).run m).2)
    (fuel turn : Nat) {v : Nat} (hv : low ≤ v) (can : Bool) {m : Machine} (h : P m) :
    P ((closeAllFrom first initial x fuel turn v can).run m).2 := by
  induction fuel generalizing turn v can m with
  | zero => exact h
  | succ fuel ih =>
    rw [closeAllFrom]
    show P (StateT.run (if m.stack.size ≤ v then (pure can : Run Bool)
      else mergeInto v ((List.range v).drop initial) >>= _) m).2
    by_cases out : m.stack.size ≤ v
    · rw [if_pos out]
      exact h
    rw [if_neg out]
    have merged := merge m v hv h
    show P (StateT.run (if ((mergeInto v ((List.range v).drop initial)).run m).1 = true then
      (_ : Run Bool) else _) ((mergeInto v ((List.range v).drop initial)).run m).2).2
    rcases mergeInto_cases (ordered m h) v ((List.range v).drop initial) with ⟨no, same⟩ | ⟨yes, -⟩
    · rw [no, same, if_neg Bool.false_ne_true]
      refine closeAllIn_order P (ordered m h) (Nat.lt_of_not_le out) x fun o r reduced => ?_
      obtain ⟨closed, moved⟩ := reduce m v r hv (Nat.lt_of_not_le out) h reduced
      have next : low ≤ (if v == first then m.stack.size else v + 1) := by
        split <;> omega
      have drop : P ((do
          if x.isSome then stack! (·.remove v)
          closeAllFrom first initial x fuel (turn + 1)
            (if v == first then m.stack.size else v + 1) can : Run Bool).run r.2).2 := by
        show P (StateT.run (if x.isSome = true then (_ : Run Bool) else _) r.2).2
        split
        · next some => exact ih _ next _ (remove some r.2 v hv closed)
        · exact ih _ next _ closed
      dsimp only
      split
      · exact ih _ next _ closed
      · cases hr : r.1 with
        | none => exact drop
        | some w =>
          dsimp only
          split
          · exact ih _ hv _ (moved w hr)
          · exact drop
    · rw [yes, if_pos rfl]
      exact ih _ hv _ merged

namespace KeepsOrder

theorem closeAllFrom (first initial : Nat) (x : Option Terminal) (fuel turn : Nat) {v : Nat}
    (hv : n ≤ v) (can : Bool) :
    KeepsOrder text n (closeAllFrom first initial x fuel turn v can) := fun m h hn => by
  refine closeAllFrom_induction (Follows text n m) (fun _ step => step.ordered)
    (fun m' w hw step => ?_) (fun m' w r hw _ step reduced => ?_) (fun _ m' w hw step => ?_) fuel
    turn hv can (.refl h hn)
  · exact step.trans (KeepsOrder.mergeInto hw _ m' step.ordered step.le_size)
  · have closed := step.trans (reduced.follows.mono step.le_size)
    refine ⟨closed, fun u hu => closed.trans ?_⟩
    exact KeepsOrder.renumber (Nat.le_trans step.le_size (reduced.told u hu).1) hw _
      closed.ordered closed.le_size
  · exact step.trans (KeepsOrder.remove hw m' step.ordered step.le_size)

theorem closeAll {v : Nat} (hv : n ≤ v) (x : Option Terminal) :
    KeepsOrder text n (closeAll v x) :=
  .bind .stackSize fun _ => .closeAllFrom v _ x _ _ hv _

end KeepsOrder

/-- the version in which all is closed stays ready, whatever comes next -/
theorem closeAll_ready {m : Machine} (h : m.Ordered text) {v : Nat} {c : Cursor}
    (ready : m.Ready v c) : ((closeAll v none).run m).2.Ordered text ∧
      ((closeAll v none).run m).2.Ready v c := by
  have run : ∀ fuel, (do closeAllFrom v (← stackSize) none fuel 0 v false : Run Bool).run m =
      (closeAllFrom v m.stack.size none fuel 0 v false).run m := fun _ => rfl
  rw [closeAll, run]
  generalize 1000 = fuel
  refine closeAllFrom_induction (fun m => m.Ordered text ∧ m.Ready v c) (fun _ h => h.1)
    (fun m' w hw h => ?_) (fun m' w r hw hlt h reduced => ?_) (fun no => ?_) fuel 0
    (Nat.le_refl v) false ⟨h, ready⟩
  · by_cases first : w = v
    · subst first
      have none : (List.range w).drop m.stack.size = [] :=
        List.drop_of_length_le (by
          rw [List.length_range]
          exact Nat.le_of_lt ready.lt_size)
      rw [none]
      exact h
    · exact (KeepsOrder.mergeInto (by omega) _).ready (Nat.lt_succ_self v) h.1 h.2.lt_size h.2
  · have stays := reduced.follows.ready h.1 h.2.lt_size h.2
    refine ⟨⟨reduced.follows.ordered, stays⟩, fun u hu => ?_⟩
    by_cases first : w = v
    · subst first
      obtain ⟨behind, told⟩ := (reduced.ready h.1 h.2).2 u hu
      exact renumber_order reduced.follows.ordered behind told
    · have behind : v + 1 ≤ u := Nat.lt_of_lt_of_le h.2.lt_size (reduced.told u hu).1
      exact (KeepsOrder.renumber behind (by omega)).ready (Nat.lt_succ_self v)
        reduced.follows.ordered stays.lt_size stays
  · cases no

/-! ## going back -/

/-- what becomes of a machine when version `v` alone is taken down and takes trees -/
structure Lands (text : List Char) (v : Nat) (m m' : Machine) : Prop where
  ordered : m'.Ordered text
  widens : m.stack.Widens m'.stack
  le_size : m.stack.size ≤ m'.stack.size
  other : ∀ u < m.stack.size, u ≠ v → (m'.stack.version u).seat = (m.stack.version u).seat

namespace Lands

variable {v : Nat} {m m' m'' : Machine}

theorem ofFollows (h : Follows text m.stack.size m m') (v : Nat) : Lands text v m m' :=
  ⟨h.ordered, h.widens, h.le_size, fun u hu _ => h.seat u hu⟩

theorem ofTakes (h : Takes text v m m') : Lands text v m m' :=
  ⟨h.ordered, h.widens, Nat.le_of_eq h.size.symm, fun u _ hne => h.other u hne⟩

theorem trans (h : Lands text v m m') (h' : Lands text v m' m'') : Lands text v m m'' where
  ordered := h'.ordered
  widens := h.widens.trans h'.widens
  le_size := Nat.le_trans h.le_size h'.le_size
  other u hu hne := (h'.other u (Nat.lt_of_lt_of_le hu h.le_size) hne).trans (h.other u hu hne)

theorem follows (h : Lands text v m m') (hv : n ≤ v) (hn : n ≤ m.stack.size) :
    Follows text n m m' :=
  ⟨h.ordered, h.widens, Nat.le_trans hn h.le_size, fun u hu => h.other u (by omega) (by omega)⟩

end Lands

/-- a tree of text that fits nowhere is opened, and the trees behind it stay -/
theorem row_reopened {b c d : Cursor} {t : Tree} {ts : List Tree} (h : Tree.Row b [t] c)
    (error : t.isError = true) (rest : Tree.Row c ts d) :
    Tree.Row b (reopened (some t) ts) d := by
  have symbol : t.symbol = .error := beq_iff_eq.mp error
  have opens : t.Opens := h.opens t List.mem_cons_self
  cases h.between with
  | cons before ordered led stop =>
    cases stop with
    | nil stop =>
      have inside := ordered.opens_of_mem (by rw [symbol]; exact nofun)
      have opened := opens (by rw [symbol]; exact nofun)
      rw [← before, stop] at opened
      exact Tree.Row.append ⟨opened, inside⟩ rest

/-- the tree of text that fits nowhere on top of a version is taken off, and what was in it stands
where it stood -/
theorem popError_order {m : Machine} (h : m.Ordered text) {v : Nat} (hv : v < m.stack.size)
    (active : (m.stack.status v).isPaused = false) {ts : List Tree} {c : Cursor}
    (row : Tree.Row (m.stack.cursor v) ts c) :
    let m' : Machine := { m with stack := (m.stack.popError v).1 }
    Lands text v m m' ∧ (m'.stack.status v).isPaused = false ∧
      Tree.Row (m'.stack.cursor v) (reopened (m.stack.popError v).2 ts) c := by
  rw [Stack.popError]
  dsimp only
  split
  · generalize hslices : m.stack.slices v _ = r
    obtain ⟨gs, sliced, ways⟩ := slices_order h v false _
    rw [hslices] at sliced
    have follows := sliced.follows
    split
    · obtain ⟨cursor, status⟩ := cursor_of_seat h.stack follows.widens (follows.seat v hv)
      refine ⟨.ofFollows follows v, ?_, ?_⟩
      · exact status ▸ active
      · exact cursor ▸ row
    · next x xs hx =>
      have hx : x ∈ r.2 := hx ▸ List.mem_cons_self
      obtain ⟨low, high, active', below⟩ := sliced.of_mem hx
      obtain ⟨vertices, size, moved, other⟩ := renumber_seat (Nat.lt_of_lt_of_le hv low) high
      have wide : Stack.Widens r.1 (r.1.renumber x.version v) := .of_vertices vertices
      obtain ⟨cursor, status⟩ := cursor_of_seat follows.ordered.stack wide moved
      refine ⟨⟨⟨follows.ordered.stack.renumber _ _, h.finished⟩, follows.widens.trans wide, ?_,
        fun u hu hne => ?_⟩, status ▸ active', ?_⟩
      · show m.stack.size ≤ (r.1.renumber x.version v).size
        omega
      · exact (other u (Nat.lt_of_lt_of_le hu low) hne).trans (follows.seat u hu)
      · obtain ⟨k, g, hk, -, trees⟩ := Stack.of_mem_slicesFrom (sliced.slices ▸ hx)
        obtain ⟨w, hw, passed⟩ := ways g (List.mem_of_getElem? hk) x.trees trees
        have one : ∃ t, w.trees = [t] ∧ t.isError = true := by
          refine Stack.error_of_mem_ways (fun found u ne => ?_) (fun found u taken => ?_) hw
          · cases last : u.trees.getLast? with
            | none => exact absurd (List.getLast?_eq_none_iff.mp last) ne
            | some t =>
              dsimp only
              split <;> rfl
          · cases last : u.trees.getLast? with
            | none =>
              rw [last] at taken
              cases taken
            | some t =>
              rw [last] at taken
              dsimp only at taken
              split at taken
              · next error => exact ⟨t, rfl, (Bool.and_eq_true_iff.mp error).2⟩
              · cases taken
        obtain ⟨t, single, error⟩ := one
        rw [← passed, single] at below ⊢
        rw [cursor]
        exact row_reopened below error row
  · exact ⟨.ofFollows (.refl h (Nat.le_refl _)) v, active, row⟩

theorem pushWreck_order {m : Machine} (h : m.Ordered text) {v : Nat} (hv : v < m.stack.size)
    (active : (m.stack.status v).isPaused = false) {ts : List Tree} {c : Cursor}
    (row : Tree.Row (m.stack.cursor v) ts c) :
    Takes text v m ((pushWreck v ts).run m).2 := by
  have extras : ∀ {m' : Machine}, Takes text v m m' →
      Tree.Row (m'.stack.cursor v) (Tree.splitTrailing ts).2 c →
      Takes text v m (((Tree.splitTrailing ts).2.forM (pushExtra v)).run m').2 := by
    intro m' takes behind
    rw [← List.append_nil (Tree.splitTrailing ts).2] at behind
    exact takes.trans (pushExtras_order takes.ordered (takes.size ▸ hv) (takes.status ▸ active)
      behind).1
  rw [← (splitTrailing_spec ts).1] at row
  show Takes text v m (StateT.run (if (!(Tree.splitTrailing ts).1.isEmpty) = true then
    (_ : Run Unit) else _) m).2
  split
  · obtain ⟨takes, behind⟩ := push_order h hv active (row.wreck true) m.automaton
      (m.stack.state v)
    exact extras takes behind
  · next none =>
    have nil : (Tree.splitTrailing ts).1 = [] := by simpa using none
    rw [nil, List.nil_append] at row
    exact extras (.refl h v) row

/-- what is known of the slices that have not landed: the versions of those that are not to be
passed over can take their trees -/
structure Landing (m : Machine) (n : Nat) (c : Cursor) (last : Option Nat)
    (xs : List Stack.Slice) : Prop where
  sorted : xs.Pairwise fun x y => x.version ≤ y.version
  bounds : ∀ x ∈ xs, n ≤ x.version ∧ x.version < m.stack.size
  le : ∀ l ∈ last, ∀ x ∈ xs, l ≤ x.version
  todo : ∀ x ∈ xs, last ≠ some x.version → (m.stack.status x.version).isPaused = false ∧
    Tree.Row (m.stack.cursor x.version) x.trees c

namespace Landing

variable {m m' : Machine} {c : Cursor} {last : Option Nat} {x : Stack.Slice}
  {xs : List Stack.Slice}

theorem tail (h : Landing m n c last (x :: xs)) : Landing m n c last xs :=
  ⟨(List.pairwise_cons.mp h.sorted).2, fun y hy => h.bounds y (List.mem_cons_of_mem _ hy),
    fun l hl y hy => h.le l hl y (List.mem_cons_of_mem _ hy),
    fun y hy => h.todo y (List.mem_cons_of_mem _ hy)⟩

theorem halt (h : Landing m n c last xs) (w : Nat) :
    Landing ((stack! (·.halt w)).run m).2 n c last xs := by
  refine ⟨h.sorted, fun y hy => ?_, h.le, fun y hy ne => ?_⟩
  · show _ ∧ _ < (m.stack.halt w).size
    rw [Stack.halt, Stack.size_setVersion]
    exact h.bounds y hy
  · obtain ⟨active, row⟩ := h.todo y hy ne
    show ((m.stack.halt w).version y.version).status.isPaused = false ∧
      Tree.Row (m.stack.vertex ((m.stack.halt w).version y.version).vertex).cursor y.trees c
    rw [Stack.halt]
    by_cases hw : y.version = w
    · rw [← hw, Stack.version_setVersion_self (h.bounds y hy).2]
      exact ⟨rfl, row⟩
    · rw [Stack.version_setVersion_ne hw]
      exact ⟨active, row⟩

theorem land (h : Landing m n c last (x :: xs)) (hm : m.Ordered text)
    (lands : Lands text x.version m m') : Landing m' n c (some x.version) xs := by
  obtain ⟨first, sorted⟩ := List.pairwise_cons.mp h.sorted
  refine ⟨sorted, fun y hy => ?_, fun l hl => ?_, fun y hy ne => ?_⟩
  · obtain ⟨low, high⟩ := h.bounds y (List.mem_cons_of_mem _ hy)
    exact ⟨low, Nat.lt_of_lt_of_le high lands.le_size⟩
  · obtain rfl := Option.some.inj hl
    exact first
  · have mem := List.mem_cons_of_mem x hy
    have ne : y.version ≠ x.version := fun same => ne (congrArg some same.symm)
    have hlast : last ≠ some y.version := fun same => by
      have := h.le y.version same x List.mem_cons_self
      have := first y hy
      omega
    obtain ⟨cursor, status⟩ := cursor_of_seat hm.stack lands.widens
      (lands.other y.version (h.bounds y mem).2 ne)
    rw [cursor, status]
    exact h.todo y mem hlast

end Landing

theorem landSlices_order (goal : Nat) {c : Cursor} {xs : List Stack.Slice} {last : Option Nat}
    {m : Machine} (h : m.Ordered text) (hn : n ≤ m.stack.size) (landing : Landing m n c last xs) :
    Follows text n m ((landSlices goal xs last).run m).2 := by
  induction xs generalizing last m with
  | nil => exact .refl h hn
  | cons x xs ih =>
    obtain ⟨low, high⟩ := landing.bounds x List.mem_cons_self
    have rest : ∀ {m' : Machine} {last'}, Follows text n m m' → Landing m' n c last' xs →
        Follows text n m ((landSlices goal xs last').run m').2 := fun step landing' =>
      step.trans (ih step.ordered step.le_size landing')
    rw [landSlices]
    by_cases landed : (last == some x.version) = true
    · rw [if_pos landed]
      exact ih h hn landing.tail
    rw [if_neg landed]
    show Follows text n m (StateT.run (if (m.stack.state x.version != goal) = true then
      (_ : Run (Option Nat)) else _) m).2
    split
    · exact rest (KeepsOrder.halt low m h hn) (landing.tail.halt x.version)
    · obtain ⟨active, row⟩ := landing.todo x List.mem_cons_self (by simpa using landed)
      obtain ⟨lands, active', row'⟩ := popError_order h high active row
      have takes := pushWreck_order lands.ordered (Nat.lt_of_lt_of_le high lands.le_size) active'
        row'
      have all := lands.trans (.ofTakes takes)
      exact rest (all.follows low hn) (landing.land h all)

theorem landAt_order (v depth goal : Nat) : KeepsOrder text n (landAt v depth goal) := by
  intro m h hn
  have run : ((landAt v depth goal).run m).2 =
      ((landSlices goal (m.stack.popCount v depth).2 none).run
        { m with stack := (m.stack.popCount v depth).1 }).2 := rfl
  rw [run]
  obtain ⟨gs, sliced, -⟩ := popCount_order h v depth
  generalize m.stack.popCount v depth = r at sliced
  have step := sliced.follows.mono hn
  refine step.trans (landSlices_order goal (c := m.stack.cursor v) step.ordered step.le_size ?_)
  refine ⟨?_, fun x hx => ?_, nofun, fun x hx _ => ?_⟩
  · rw [sliced.slices]
    exact Stack.sorted_slicesFrom _ _
  · obtain ⟨low, high, -⟩ := sliced.of_mem hx
    exact ⟨Nat.le_trans hn low, high⟩
  · exact (sliced.of_mem hx).2.2

namespace KeepsOrder

theorem landAmong (v versions : Nat) (c : Cursor) (cost : Nat) (progress : Bool) (x : Terminal)
    (ls : List Landmark) :
    KeepsOrder text n (landAmong v versions c cost progress x ls) := by
  induction ls with
  | nil => exact .pure _
  | cons l ls ih =>
    rw [Machine.landAmong]
    refine .bind .get fun m => .ite ih (.bind (.betterExists _ _ _) fun better => .ite (.pure _) ?_)
    refine .bind (.hasActions _ _) fun has => .ite (.bind (landAt_order _ _ _) fun landed => ?_) ih
    exact .ite (.pure _) ih

theorem removeIdle (fuel : Nat) {v : Nat} (hv : n ≤ v) : KeepsOrder text n (removeIdle fuel v) := by
  induction fuel generalizing v with
  | zero => exact .pure _
  | succ fuel ih =>
    rw [Machine.removeIdle]
    exact .bind .get fun m => .ite (.pure _) (.ite (ih (Nat.le_succ_of_le hv))
      (.bind (.remove hv) fun _ => ih hv))

end KeepsOrder

/-! ## skipping -/

/-- a version takes the place of one before it, and those behind it go -/
def takeBack (s : Stack) (w v : Nat) : Stack :=
  ({ s with versions := s.versions.take (w + 1) } : Stack).renumber w v

theorem takeBack_order {s : Stack} (h : s.Ordered text) {v w : Nat} (hvw : v < w)
    (hw : w < s.size) : (takeBack s w v).Ordered text ∧ v < (takeBack s w v).size ∧
      (takeBack s w v).status v = s.status w ∧ (takeBack s w v).cursor v = s.cursor w := by
  let front : Stack := { s with versions := s.versions.take (w + 1) }
  have size : front.size = w + 1 := by
    have : s.versions.size = s.size := rfl
    show (s.versions.extract 0 (w + 1)).size = w + 1
    rw [Array.size_extract]
    omega
  have same : front.version w = s.version w := by
    have : s.versions.size = s.size := rfl
    show (s.versions.extract 0 (w + 1))[w]?.getD default = _
    rw [Array.getElem?_extract, if_pos (by omega), Nat.zero_add]
    rfl
  obtain ⟨vertices, size', seat, -⟩ := renumber_seat hvw (show w < front.size by omega)
  have wide : s.Widens (front.renumber w v) := .of_vertices vertices
  rw [same] at seat
  obtain ⟨cursor, status⟩ := cursor_of_seat h wide seat
  refine ⟨(h.takeVersions (w + 1)).renumber w v, ?_, status, cursor⟩
  show v < (front.renumber w v).size
  omega

theorem pushSkipped_order {m : Machine} (h : m.Ordered text) {v : Nat} (hv : v < m.stack.size)
    (active : (m.stack.status v).isPaused = false) {t : Token} {ts : List Tree} (hts : ts ≠ [])
    {c d : Cursor} (between : Tree.Between (m.stack.cursor v) ts d) :
    Has text v ((do
      push v (Tree.skipped c ts) Automaton.errorState
      if t.layout.isSome then stack! (·.setLayout v t.layout) : Run Unit).run m).2 := by
  obtain ⟨u, us, rfl⟩ := List.exists_cons_of_ne_nil hts
  have row := between.skipped c
  obtain ⟨takes, -⟩ := push_order h hv active row m.automaton Automaton.errorState
  exact (KeepsOrder.takeLayout v t).has (Nat.lt_succ_self v) takes.ordered (takes.size ▸ hv)

theorem skipToken_order {m : Machine} (h : m.Ordered text) {v : Nat} {t : Token}
    (ready : m.Ready v t.before) (stands : t.Stands) (progress : Bool) :
    Has text v ((skipToken v progress t).run m).2 := by
  have hv := ready.lt_size
  let leaf := Tree.leaf t ((t.symbol.map Terminal.isExtra).getD false)
  have single : ∀ {m' : Machine}, m'.Ready v t.before →
      Tree.Between (m'.stack.cursor v) [leaf] t.stop := fun ready => by
    rw [ready.cursor]
    exact Tree.between_leaf stands _
  have one := (single ready).skipped (m.stack.cursor v)
  rw [skipToken]
  refine cursorOf_bind (P := Has text v) ?_
  refine Has.ite (popCount_bind v 1 (P := Has text v) ?_)
    (pushSkipped_order h hv ready.active (List.cons_ne_nil _ _) (single ready))
  obtain ⟨gs, sliced, -⟩ := popCount_order h v 1
  generalize m.stack.popCount v 1 = r at sliced
  have follows := sliced.follows
  cases hr : r.2 with
  | nil =>
    have ready' := follows.ready h hv ready
    exact pushSkipped_order follows.ordered ready'.lt_size ready'.active (List.cons_ne_nil _ _)
      (single ready')
  | cons x xs =>
    obtain ⟨low, high, active, below⟩ := sliced.of_mem (hr ▸ List.mem_cons_self)
    obtain ⟨ordered, hv', status, cursor⟩ := takeBack_order follows.ordered.stack
      (Nat.lt_of_lt_of_le hv low) high
    have all := below.between.append one.between
    rw [← cursor] at all
    have whole : Machine.Ordered text { m with stack := takeBack r.1 x.version v } :=
      ⟨ordered, h.finished⟩
    exact pushSkipped_order whole hv' (status ▸ active)
      (List.append_ne_nil_of_right_ne_nil _ (List.cons_ne_nil _ _)) all

/-- **Recovery keeps the order**: a version that can take a token goes on from it. -/
theorem recover_order {m : Machine} (h : m.Ordered text) {v : Nat} {t : Token}
    (ready : m.Ready v t.before) (stands : t.Stands) :
    Has text v ((recover v t).run m).2 := by
  rw [recover]
  refine (KeepsOrder.settleCount v).andThen h ready.lt_size fun _ m₁ settled => ?_
  have ready₁ := settled.ready h (Nat.lt_succ_self v) ready
  have here : m₁.Ready v (m₁.stack.cursor v) := ⟨ready₁.lt_size, ready₁.active, rfl⟩
  -- however it went to go back to a landmark, the version is where it was
  have rest : ∀ (landed : Bool) (skipCost : Nat) (progress : Bool) (m₂ : Machine),
      Follows text m₁.stack.size m₁ m₂ → Has text v ((do
        removeIdle (2 * (← stackSize)) m₁.stack.size
        if landed && (maxVersions < (← stackSize) || t.layoutChanged) then stack! (·.halt v)
        else if t.symbol == some .endOfText then
          accept v [Tree.wreck false (m₁.stack.cursor v) []] t
        else if ← betterExists v false skipCost then stack! (·.halt v)
        else skipToken v progress t : Run Unit).run m₂).2 := by
    intro landed skipCost progress m₂ step
    refine (KeepsOrder.stackSize).andThen step.ordered step.le_size fun _ m₃ looked => ?_
    refine (KeepsOrder.removeIdle _ (Nat.le_refl _)).andThen looked.ordered looked.le_size
      fun _ m₄ removed => ?_
    refine (KeepsOrder.stackSize).andThen removed.ordered removed.le_size fun _ m₅ looked' => ?_
    have all := ((step.trans looked).trans removed).trans looked'
    have ready₅ := all.ready settled.ordered ready₁.lt_size ready₁
    have here₅ := all.ready settled.ordered ready₁.lt_size here
    have has : Has text v m₅ := ⟨all.ordered, ready₅.lt_size⟩
    refine Has.ite (has.halt v) (Has.ite_of (fun isEnd => ?_) ?_)
    · have known : t.symbol.isSome = true := by
        rw [beq_iff_eq.mp isEnd]
        rfl
      have wreck : Tree.Row (m₅.stack.cursor v)
          ([Tree.wreck false (m₁.stack.cursor v) []] ++ [Tree.leaf t true]) t.stop := by
        rw [here₅.cursor, ready₁.cursor]
        exact (Tree.row_wreck_nil false t.before).append (.leaf stands known true)
      exact accept_order all.ordered ready₅ wreck
    · refine (KeepsOrder.betterExists v false skipCost).andThen all.ordered ready₅.lt_size
        fun _ m₆ compared => ?_
      have ready₆ := compared.ready all.ordered (Nat.lt_succ_self v) ready₅
      have has₆ : Has text v m₆ := ⟨compared.ordered, ready₆.lt_size⟩
      exact Has.ite (has₆.halt v) (skipToken_order compared.ordered ready₆ stands progress)
  refine stackSize_bind (P := Has text v) (get_bind (P := Has text v) ?_)
  dsimp only
  split
  · exact (KeepsOrder.landAmong _ _ _ _ _ _ _).andThen settled.ordered (Nat.le_refl _)
      fun landed m₂ step => rest landed _ _ m₂ step
  · exact rest false _ _ m₁ (.refl settled.ordered (Nat.le_refl _))

/-! ## putting in a missing token -/

theorem cursor_copy (s : Stack) (v : Nat) :
    (s.copy v).cursor v = s.cursor v ∧ (s.copy v).cursor s.size = s.cursor v := by
  have last : (s.copy v).cursor s.size = s.cursor v := by
    rw [Stack.cursor, Stack.top, Stack.version_copy_size]
    rfl
  refine ⟨?_, last⟩
  rcases Nat.lt_trichotomy v s.size with old | new | out
  · rw [Stack.cursor, Stack.top, Stack.version_copy old]
    rfl
  · rw [new] at last ⊢
    exact last
  · have none : (s.copy v).size ≤ v := by
      rw [Stack.size_copy]
      exact out
    rw [Stack.cursor, Stack.top, Stack.version_of_size_le none, Stack.cursor, Stack.top,
      Stack.version_of_size_le (Nat.le_of_lt out)]
    rfl

theorem pushMissing_order {m : Machine} (h : m.Ordered text) (v : Nat) (x : Terminal) (q : Nat) :
    let t := Tree.missing x ((m.stack.copy v).cursor v)
    Follows text m.stack.size m
      { m with stack := (m.stack.copy v).push m.stack.size (some t) q } := by
  intro t
  obtain ⟨here, last⟩ := cursor_copy m.stack v
  have same : (m.stack.copy v).cursor m.stack.size = (m.stack.copy v).cursor v :=
    last.trans here.symm
  obtain ⟨y, -, moves⟩ := (h.stack.copy v).push_some (.inr same.symm) (t := t)
    (same ▸ Tree.row_missing x _) q
  have wide : m.stack.Widens (m.stack.copy v) := .of_vertices rfl
  refine .ofStack h moves.ordered (wide.trans moves.widens) ?_ fun u hu => ?_
  · rw [moves.size, Stack.size_copy]
    exact Nat.le_succ _
  · rw [moves.other u (Nat.ne_of_lt hu), Stack.version_copy hu]

theorem KeepsOrder.insertAmong (v : Nat) (x : Terminal) (ys : List Terminal) :
    KeepsOrder text n (insertAmong v x ys) := by
  induction ys generalizing n with
  | nil => exact .pure _
  | cons y ys ih =>
    rw [Machine.insertAmong]
    refine .bind (.stateOf v) fun q => .bind (.actions q y) fun as => ?_
    refine .ite ih (.bind (.goto q _) fun next => .ite ih (.bind (.actions next x) fun bs => ?_))
    refine .ite ih fun m h hn => ?_
    have pushed := pushMissing_order h v y next
    have rest : KeepsOrder text m.stack.size (do
        if ← Machine.closeAll m.stack.size (if x == .endOfText then none else some x) then
          return true
        else Machine.insertAmong v x ys) :=
      .bind (.closeAll (Nat.le_refl _) _) fun _ => .ite (.pure _) ih
    exact (pushed.trans (rest _ pushed.ordered pushed.le_size)).mono hn

/-- the mark that text stopped fitting leaves all versions where they stand -/
theorem pushMark_ready {m : Machine} (h : m.Ordered text) {v : Nat} {c : Cursor}
    (ready : m.Ready v c) (w q : Nat) :
    ((stack! (·.push w none q)).run m).2.Ordered text ∧
      ((stack! (·.push w none q)).run m).2.Ready v c := by
  obtain ⟨y, hy, moves⟩ := h.stack.push_none w q
  refine ⟨⟨moves.ordered, h.finished⟩, ?_⟩
  by_cases same : v = w
  · subst same
    refine ⟨moves.size ▸ ready.lt_size, moves.status ▸ ready.active, ?_⟩
    show (m.stack.push v none q).cursor v = c
    rw [moves.cursor ready.lt_size, hy]
    exact ready.cursor
  · obtain ⟨cursor, status⟩ := cursor_of_seat h.stack moves.widens (moves.other v same)
    exact ⟨moves.size ▸ ready.lt_size, status ▸ ready.active, cursor ▸ ready.cursor⟩

theorem breakAll_ready (x : Option Terminal) (vs : List Nat) (inserted : Bool) {m : Machine}
    (h : m.Ordered text) {v : Nat} {c : Cursor} (ready : m.Ready v c) :
    ((breakAll x vs inserted).run m).2.Ordered text ∧
      ((breakAll x vs inserted).run m).2.Ready v c := by
  induction vs generalizing inserted m with
  | nil => exact ⟨h, ready⟩
  | cons w vs ih =>
    have rest : ∀ (inserted : Bool) {m : Machine}, m.Ordered text → m.Ready v c →
        let m' := ((do
          stack! (·.push w none Automaton.errorState)
          breakAll x vs inserted : Run Unit).run m).2
        m'.Ordered text ∧ m'.Ready v c := fun inserted _ h ready =>
      have marked := pushMark_ready h ready w Automaton.errorState
      ih inserted marked.1 marked.2
    cases x with
    | none => exact rest inserted h ready
    | some x =>
      cases inserted with
      | true => exact rest true h ready
      | false =>
        have put := (KeepsOrder.insertAmong w x (Terminal.all.drop 1)).ready (Nat.lt_succ_self v)
          h ready.lt_size ready
        exact rest _ put.1 put.2

/-- **Text that fits nowhere in a version keeps the order.** -/
theorem handleMisfit_order {m : Machine} (h : m.Ordered text) {v : Nat} {t : Token}
    (ready : m.Ready v t.before) (stands : t.Stands) :
    Has text v ((handleMisfit v t).run m).2 := by
  have hv := ready.lt_size
  rw [handleMisfit]
  refine stackSize_bind (P := Has text v) ?_
  refine ready_bind (P := Has text v) (closeAll_ready h ready) fun _ m₁ h₁ ready₁ => ?_
  refine stackSize_bind (P := Has text v) ?_
  refine ready_bind (P := Has text v) (breakAll_ready _ _ _ h₁ ready₁) fun _ m₂ h₂ ready₂ => ?_
  have merge : KeepsOrder text (v + 1) (((List.range m₁.stack.size).drop m.stack.size).forM
      fun _ => do let _ ← mergeInto m.stack.size [v] : Run PUnit) :=
    .forM fun _ _ => .bind (.mergeInto hv _) fun _ => .pure _
  refine merge.andThen h₂ ready₂.lt_size fun _ m₃ merged => ?_
  have ready₃ := merged.ready h₂ (Nat.lt_succ_self v) ready₂
  refine (KeepsOrder.markLandmarks v _).andThen merged.ordered ready₃.lt_size
    fun _ m₄ marked => ?_
  exact recover_order marked.ordered
    (marked.ready merged.ordered (Nat.lt_succ_self v) ready₃) stands

end Machine
end Python
end AnnotationAudit
