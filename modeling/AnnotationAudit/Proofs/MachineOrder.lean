import AnnotationAudit.Proofs.StackOrder

/-!
# The machine keeps the order of the text

Closing a production makes one tree of trees that stand one behind the other, so that what the
machine builds stands in order.

* `Stack.Dealt`            what the versions that ways are sliced into have to do with these ways;
* `Machine.Ordered`        stack and finished tree are in order;
* `Machine.Follows`        what may become of an ordered machine while its first versions stay;
* `Machine.KeepsOrder`     a computation keeps the machine ordered and its first versions;
* `Machine.Ready`          a version that can take a token or tree at a cursor;
* `reduce_order`           closing a production makes versions that are as ready as the old one.
-/

namespace AnnotationAudit
namespace Python

open Text

/-! ## the versions of ways -/

namespace Stack

/-- the slices of groups of ways, the first group in version `n` and each other in the next one -/
def slicesFrom (n : Nat) : List (List (List Tree)) → List Slice
  | [] => []
  | g :: gs => g.map (fun ts => ⟨n, ts⟩) ++ slicesFrom (n + 1) gs

theorem slicesFrom_append (n : Nat) (gs hs : List (List (List Tree))) :
    slicesFrom n (gs ++ hs) = slicesFrom n gs ++ slicesFrom (n + gs.length) hs := by
  induction gs generalizing n with
  | nil => rfl
  | cons g gs ih =>
    rw [List.cons_append, slicesFrom, slicesFrom, ih, List.append_assoc, List.length_cons,
      Nat.add_right_comm, Nat.add_assoc]

theorem of_mem_slicesFrom {n : Nat} {gs : List (List (List Tree))} {x : Slice}
    (h : x ∈ slicesFrom n gs) : ∃ k g, gs[k]? = some g ∧ x.version = n + k ∧ x.trees ∈ g := by
  induction gs generalizing n with
  | nil => exact absurd h List.not_mem_nil
  | cons g gs ih =>
    rcases List.mem_append.mp h with h | h
    · obtain ⟨ts, hts, rfl⟩ := List.mem_map.mp h
      exact ⟨0, g, rfl, rfl, hts⟩
    · obtain ⟨k, g', hk, hv, hts⟩ := ih h
      exact ⟨k + 1, g', hk, by omega, hts⟩

theorem sorted_slicesFrom (n : Nat) (gs : List (List (List Tree))) :
    (slicesFrom n gs).Pairwise fun x y => x.version ≤ y.version := by
  induction gs generalizing n with
  | nil => exact .nil
  | cons g gs ih =>
    refine List.pairwise_append.mpr ⟨?_, ih (n + 1), fun x hx y hy => ?_⟩
    · exact List.pairwise_map.mpr (List.pairwise_of_forall fun _ _ => Nat.le_refl n)
    · obtain ⟨ts, -, rfl⟩ := List.mem_map.mp hx
      obtain ⟨k, -, -, version, -⟩ := of_mem_slicesFrom hy
      show n ≤ y.version
      omega

/-- what the versions that ways are sliced into have to do with these ways: there is one for each
group, behind those that there were, and it stands where all ways of the group end -/
structure Dealt (s : Stack) (ws : List Way) (r : Stack × List Slice)
    (gs : List (List (List Tree))) : Prop where
  slices : r.2 = slicesFrom s.size gs
  ne_nil : ∀ g ∈ gs, g ≠ []
  size : r.1.size = s.size + gs.length
  seat : ∀ k g, gs[k]? = some g → ∃ i, (r.1.version (s.size + k)).seat = (i, .active) ∧
    ∀ ts ∈ g, ∃ w ∈ ws, w.vertex = i ∧ w.trees = ts

variable {s : Stack} {ws : List Way} {r : Stack × List Slice} {gs : List (List (List Tree))}

/-- a way that ends where a group does joins it, behind the ways that are there -/
theorem Dealt.join (h : s.Dealt ws r gs) {w : Way} (hw : w ∈ ws) {x : Slice} (hx : x ∈ r.2)
    (same : (r.1.version x.version).vertex = w.vertex) :
    ∃ gs', s.Dealt ws (r.1,
      (r.2.reverse.dropWhile fun y => y.version != x.version).reverse ++ [⟨x.version, w.trees⟩] ++
        (r.2.reverse.takeWhile fun y => y.version != x.version).reverse) gs' := by
  obtain ⟨k, g, hk, hv, -⟩ := of_mem_slicesFrom (h.slices ▸ hx)
  obtain ⟨hlt, hg⟩ := List.getElem?_eq_some_iff.mp hk
  refine ⟨gs.set k (g ++ [w.trees]), ?_, fun g' hg' => ?_, ?_, fun j g' hj => ?_⟩
  · have split : gs = gs.take k ++ g :: gs.drop (k + 1) := by
      rw [← hg, List.getElem_cons_drop, List.take_append_drop]
    have behind : ∀ y ∈ (slicesFrom (s.size + k + 1) (gs.drop (k + 1))).reverse,
        (y.version != x.version) = true := by
      intro y hy
      obtain ⟨j, _, -, hj, -⟩ := of_mem_slicesFrom (List.mem_reverse.mp hy)
      rw [bne_iff_ne]
      omega
    have last : ∃ init l, g = init ++ [l] :=
      ⟨_, _, (List.dropLast_append_getLast (h.ne_nil g (List.mem_of_getElem? hk))).symm⟩
    obtain ⟨init, l, rfl⟩ := last
    have back : r.2.reverse = (slicesFrom (s.size + k + 1) (gs.drop (k + 1))).reverse ++
        ⟨s.size + k, l⟩ :: ((init.map fun ts => (⟨s.size + k, ts⟩ : Slice)).reverse ++
          (slicesFrom s.size (gs.take k)).reverse) := by
      have length : (gs.take k).length = k := List.length_take_of_le (Nat.le_of_lt hlt)
      conv_lhs => rw [h.slices, split, slicesFrom_append, slicesFrom, length]
      simp
    have stop : ¬ ((s.size + k != x.version) = true) := by simp [hv]
    rw [back, List.takeWhile_append_of_pos behind, List.dropWhile_append_of_pos behind,
      List.takeWhile_cons, List.dropWhile_cons, if_neg stop, if_neg stop,
      List.set_eq_take_append_cons_drop, if_pos hlt, slicesFrom_append, slicesFrom,
      List.length_take_of_le (Nat.le_of_lt hlt), hv]
    simp
  · rcases List.mem_or_eq_of_mem_set hg' with hg' | rfl
    · exact h.ne_nil g' hg'
    · exact List.append_ne_nil_of_right_ne_nil g (List.cons_ne_nil _ _)
  · rw [List.length_set]
    exact h.size
  · rw [List.getElem?_set] at hj
    split at hj
    · next hkj =>
      subst hkj
      obtain rfl := Option.some.inj hj
      obtain ⟨i, seat, all⟩ := h.seat k g hk
      refine ⟨i, seat, fun ts hts => ?_⟩
      rcases List.mem_append.mp hts with hts | hts
      · exact all ts hts
      · rw [hv] at same
        exact ⟨w, hw, same.symm.trans (congrArg Prod.fst seat), (List.mem_singleton.mp hts).symm⟩
    · exact h.seat j g' hj

/-- a way that ends where no group does makes a group of its own, in a new version -/
theorem Dealt.append (h : s.Dealt ws r gs) {w : Way} (hw : w ∈ ws) {fresh : Version}
    (hfresh : fresh.seat = (w.vertex, .active)) :
    s.Dealt ws ({ r.1 with versions := r.1.versions.push fresh },
      r.2 ++ [⟨r.1.versions.size, w.trees⟩]) (gs ++ [[w.trees]]) := by
  have size : r.1.versions.size = s.size + gs.length := h.size
  refine ⟨?_, fun g hg => ?_, ?_, fun k g hk => ?_⟩
  · rw [h.slices, slicesFrom_append, size]
    rfl
  · rcases List.mem_append.mp hg with hg | hg
    · exact h.ne_nil g hg
    · rw [List.mem_singleton.mp hg]
      exact List.cons_ne_nil _ _
  · show (r.1.versions.push fresh).size = _
    rw [Array.size_push, size, List.length_append, List.length_singleton, Nat.add_assoc]
  · show ∃ i, ((r.1.versions.push fresh)[s.size + k]?.getD default).seat = _ ∧ _
    rw [Array.getElem?_push, size]
    by_cases last : k = gs.length
    · subst last
      rw [List.getElem?_concat_length] at hk
      rw [if_pos rfl, ← Option.some.inj hk]
      exact ⟨w.vertex, hfresh, fun ts hts => ⟨w, hw, rfl, (List.mem_singleton.mp hts).symm⟩⟩
    · have hlt := (List.getElem?_eq_some_iff.mp hk).1
      rw [List.length_append, List.length_singleton] at hlt
      rw [List.getElem?_append_left (by omega)] at hk
      rw [if_neg (by omega)]
      exact h.seat k g hk

theorem exists_dealt (s : Stack) (v : Nat) (ws : List Way) :
    ∃ gs, s.Dealt ws (s.slices v ws) gs := by
  refine List.foldlRecOn (motive := fun r => ∃ gs, s.Dealt ws r gs) ws (addSlice v) ?_ ?_
  · exact ⟨[], rfl, nofun, rfl, nofun⟩
  · rintro r ⟨gs, h⟩ w hw
    rw [addSlice]
    dsimp only
    split
    · next x hx =>
      have found := List.find?_some hx
      have joined := h.join hw (List.mem_reverse.mp (List.mem_of_find?_eq_some hx))
        (by simpa using found)
      rw [List.span_eq_takeWhile_dropWhile]
      exact joined
    · exact ⟨_, h.append hw rfl⟩

end Stack

namespace Machine

theorem groups_cons {x y : Stack.Slice} {xs : List Stack.Slice} {g : List (List Tree)}
    {gs : List (List (List Tree))} (h : groups (y :: xs) = g :: gs) :
    groups (x :: y :: xs) =
      if y.version == x.version then (x.trees :: g) :: gs else [x.trees] :: g :: gs := by
  rw [groups, h]

theorem groups_slicesFrom {gs : List (List (List Tree))} (h : ∀ g ∈ gs, g ≠ []) (n : Nat) :
    groups (Stack.slicesFrom n gs) = gs := by
  induction gs generalizing n with
  | nil => rfl
  | cons g gs ih =>
    obtain ⟨ne, others⟩ := List.forall_mem_cons.mp h
    have rest := ih others (n + 1)
    rw [Stack.slicesFrom]
    clear h ih
    induction g with
    | nil => exact absurd rfl ne
    | cons ts g ih =>
      cases g with
      | cons us g =>
        exact (groups_cons (ih (List.cons_ne_nil _ _))).trans (if_pos (beq_self_eq_true n))
      | nil =>
        cases gs with
        | nil => rfl
        | cons g gs =>
          cases g with
          | nil => exact absurd rfl (others [] List.mem_cons_self)
          | cons us g => exact (groups_cons rest).trans (if_neg (by simp))

variable {text : List Char} {n : Nat} {α β : Type}

/-! ## ordered machines -/

/-- what holds of the machine at all times -/
structure Ordered (text : List Char) (m : Machine) : Prop where
  stack : m.stack.Ordered text
  finished : ∀ t, m.finished = some t → (∀ x, t.symbol ≠ .terminal x) →
    t.Ordered ∧ t.before.IsIn text

/-- what may become of an ordered machine while its first `n` versions stay as they are -/
structure Follows (text : List Char) (n : Nat) (m m' : Machine) : Prop where
  ordered : m'.Ordered text
  widens : m.stack.Widens m'.stack
  le_size : n ≤ m'.stack.size
  seat : ∀ v < n, (m'.stack.version v).seat = (m.stack.version v).seat

/-- the version `v` can take what begins at the cursor `c` -/
structure Ready (m : Machine) (v : Nat) (c : Cursor) : Prop where
  lt_size : v < m.stack.size
  active : (m.stack.status v).isPaused = false
  cursor : m.stack.cursor v = c

theorem cursor_of_seat {s s' : Stack} (h : s.Ordered text) (wide : s.Widens s') {v v' : Nat}
    (seat : (s'.version v').seat = (s.version v).seat) :
    s'.cursor v' = s.cursor v ∧ s'.status v' = s.status v := by
  have vertex : (s'.version v').vertex = (s.version v).vertex := congrArg Prod.fst seat
  refine ⟨?_, congrArg Prod.snd seat⟩
  show (s'.vertex (s'.version v').vertex).cursor = (s.vertex (s.version v).vertex).cursor
  rw [vertex]
  exact wide.cursor _ (h.vertex_lt v)

namespace Follows

variable {m m' m'' : Machine}

theorem refl (h : m.Ordered text) (hn : n ≤ m.stack.size) : Follows text n m m :=
  ⟨h, .refl _, hn, fun _ _ => rfl⟩

theorem trans (h : Follows text n m m') (h' : Follows text n m' m'') : Follows text n m m'' where
  ordered := h'.ordered
  widens := h.widens.trans h'.widens
  le_size := h'.le_size
  seat v hv := (h'.seat v hv).trans (h.seat v hv)

theorem mono {k : Nat} (h : Follows text n m m') (hk : k ≤ n) : Follows text k m m' :=
  ⟨h.ordered, h.widens, Nat.le_trans hk h.le_size,
    fun v hv => h.seat v (Nat.lt_of_lt_of_le hv hk)⟩

theorem ready (h : Follows text n m m') (hm : m.Ordered text) {v : Nat} (hv : v < n) {c : Cursor}
    (ready : m.Ready v c) : m'.Ready v c := by
  obtain ⟨cursor, status⟩ := cursor_of_seat hm.stack h.widens (h.seat v hv)
  exact ⟨Nat.lt_of_lt_of_le hv h.le_size, status ▸ ready.active, cursor ▸ ready.cursor⟩

theorem ofStack (h : m.Ordered text) {s : Stack} (hs : s.Ordered text) (wide : m.stack.Widens s)
    (size : n ≤ s.size) (seat : ∀ v < n, (s.version v).seat = (m.stack.version v).seat) :
    Follows text n m { m with stack := s } :=
  ⟨⟨hs, h.finished⟩, wide, size, seat⟩

theorem ofAutomaton (h : m.Ordered text) (hn : n ≤ m.stack.size) (a : Automaton) :
    Follows text n m { m with automaton := a } :=
  ⟨⟨h.stack, h.finished⟩, .refl _, hn, fun _ _ => rfl⟩

end Follows

/-- a computation keeps the machine ordered and leaves the first `n` versions as they are -/
def KeepsOrder (text : List Char) (n : Nat) (c : Run α) : Prop :=
  ∀ m : Machine, m.Ordered text → n ≤ m.stack.size → Follows text n m (c.run m).2

namespace KeepsOrder

theorem pure (x : α) : KeepsOrder text n (Pure.pure x : Run α) := fun _ h hn => .refl h hn

theorem bind {c : Run α} {f : α → Run β} (hc : KeepsOrder text n c)
    (hf : ∀ x, KeepsOrder text n (f x)) : KeepsOrder text n (c >>= f) := fun m h hn =>
  (hc m h hn).trans (hf _ _ (hc m h hn).ordered (hc m h hn).le_size)

theorem ite {c d : Run α} {p : Prop} [Decidable p] (hc : KeepsOrder text n c)
    (hd : KeepsOrder text n d) : KeepsOrder text n (if p then c else d) := by
  split
  · exact hc
  · exact hd

theorem get : KeepsOrder text n (MonadState.get : Run Machine) := fun _ h hn => .refl h hn

theorem forM {xs : List α} {f : α → Run PUnit} (h : ∀ x ∈ xs, KeepsOrder text n (f x)) :
    KeepsOrder text n (xs.forM f) := by
  induction xs with
  | nil => exact .pure _
  | cons x xs ih =>
    exact .bind (h x List.mem_cons_self) fun _ => ih fun y hy => h y (List.mem_cons_of_mem _ hy)

theorem stackSize : KeepsOrder text n stackSize := fun _ h hn => .refl h hn
theorem stateOf (v : Nat) : KeepsOrder text n (stateOf v) := fun _ h hn => .refl h hn
theorem actions (q : Nat) (x : Terminal) : KeepsOrder text n (actions q x) :=
  fun _ h hn => .refl h hn
theorem hasActions (q : Nat) (x : Terminal) : KeepsOrder text n (hasActions q x) :=
  fun _ h hn => .refl h hn
theorem goto (q : Nat) (x : Symbol) : KeepsOrder text n (goto q x) :=
  fun _ h hn => .ofAutomaton h hn _

/-! ## changing versions -/

theorem versions! {f : Stack → Stack} (hs : ∀ {s : Stack}, s.Ordered text → (f s).Ordered text)
    (same : ∀ s, (f s).vertices = s.vertices) (size : ∀ s, n ≤ s.size → n ≤ (f s).size)
    (seat : ∀ s, ∀ v < n, ((f s).version v).seat = (s.version v).seat) :
    KeepsOrder text n (stack! f) := fun m h hn =>
  .ofStack h (hs h.stack) (.of_vertices (same m.stack)) (size m.stack hn) (seat m.stack)

theorem setVersion (v : Nat) {f : Stack → Version → Version}
    (hf : ∀ s x, (f s x).seat = x.seat) :
    KeepsOrder text n (stack! fun s => s.setVersion v (f s)) :=
  .versions! (fun {s} h => h.setVersion_of_seat (hf s)) (fun _ => rfl)
    (fun s hn => by rwa [Stack.size_setVersion]) fun s w _ => Stack.seat_setVersion (hf s) w v

theorem setLayout (v : Nat) (l : Option Layout) : KeepsOrder text n (stack! (·.setLayout v l)) :=
  .setVersion v fun _ _ => rfl

theorem takeLayout (v : Nat) (t : Token) : KeepsOrder text n
    (if t.layout.isSome = true then stack! (·.setLayout v t.layout) else Pure.pure PUnit.unit) :=
  .ite (.setLayout v t.layout) (.pure _)

theorem markLandmarks (v depth : Nat) : KeepsOrder text n (stack! (·.markLandmarks v depth)) :=
  .setVersion v fun _ _ => rfl

theorem settleCount (v : Nat) : KeepsOrder text n (stack! (·.settleCount v)) := by
  intro m h hn
  show Follows text n m { m with stack := m.stack.settleCount v }
  rw [Stack.settleCount]
  split
  · exact KeepsOrder.setVersion v
      (f := fun s x => { x with countAtError := (s.top v).count }) (fun _ _ => rfl) m h hn
  · exact .refl h hn

theorem halt {w : Nat} (hw : n ≤ w) : KeepsOrder text n (stack! (·.halt w)) :=
  .versions! (fun h => h.halt w) (fun _ => rfl)
    (fun s hn => by rwa [Stack.halt, Stack.size_setVersion])
    fun s v hv => congrArg Version.seat (Stack.version_setVersion_ne (by omega) _)

theorem remove {w : Nat} (hw : n ≤ w) : KeepsOrder text n (stack! (·.remove w)) :=
  .versions! (fun h => h.remove w) (fun _ => rfl)
    (fun s hn => by
      rw [Stack.size_remove]
      split <;> omega)
    fun s v hv => by rw [Stack.version_remove, if_pos (by omega)]

theorem renumber {v w : Nat} (hv : n ≤ v) (hw : n ≤ w) :
    KeepsOrder text n (stack! (·.renumber v w)) := by
  refine .versions! (fun h => h.renumber v w) (fun s => ?_) (fun s hn => ?_) fun s u hu => ?_
  all_goals
    rw [Stack.renumber]
    split
  · rfl
  · rfl
  · exact hn
  · rw [Stack.size_remove, Stack.size_setVersion]
    split <;> omega
  · rfl
  · rw [Stack.version_remove, if_pos (by omega), Stack.version_setVersion_ne (by omega)]

end KeepsOrder

/-! ## merging -/

/-- a version that is merged is gone, and those behind it move up -/
theorem mergeInto_cases {m : Machine} (h : m.Ordered text) (w : Nat) (vs : List Nat) :
    ((mergeInto w vs).run m).1 = false ∧ ((mergeInto w vs).run m).2 = m ∨
      ((mergeInto w vs).run m).1 = true ∧
        ((mergeInto w vs).run m).2.Ordered text ∧
        m.stack.Widens ((mergeInto w vs).run m).2.stack ∧
        ((mergeInto w vs).run m).2.stack.size =
          (if w < m.stack.size then m.stack.size - 1 else m.stack.size) ∧
        ∀ v, (((mergeInto w vs).run m).2.stack.version v).seat =
          (m.stack.version (if v < w then v else v + 1)).seat := by
  induction vs with
  | nil => exact .inl ⟨rfl, rfl⟩
  | cons v vs ih =>
    have run : (mergeInto w (v :: vs)).run m = (if m.stack.canMerge v w = true then
        (do stack! (·.merge v w); return true : Run Bool) else mergeInto w vs).run m := rfl
    rw [run]
    split
    · next hm =>
      obtain ⟨hs, wide⟩ := h.stack.merge hm
      exact .inr ⟨rfl, ⟨hs, h.finished⟩, wide, m.stack.size_merge v w, fun u =>
        m.stack.seat_merge v u w⟩
    · exact ih

theorem KeepsOrder.mergeInto {w : Nat} (hw : n ≤ w) (vs : List Nat) :
    KeepsOrder text n (mergeInto w vs) := fun m h hn => by
  rcases mergeInto_cases h w vs with ⟨-, same⟩ | ⟨-, ordered, wide, size, seat⟩
  · rw [same]
    exact .refl h hn
  · refine ⟨ordered, wide, ?_, fun u hu => ?_⟩
    · rw [size]
      split <;> omega
    · rw [seat, if_pos (by omega)]

/-! ## trees on top of a version -/

/-- what becomes of a machine when version `w` alone takes trees -/
structure Takes (text : List Char) (w : Nat) (m m' : Machine) : Prop where
  ordered : m'.Ordered text
  widens : m.stack.Widens m'.stack
  size : m'.stack.size = m.stack.size
  other : ∀ v, v ≠ w → (m'.stack.version v).seat = (m.stack.version v).seat
  status : m'.stack.status w = m.stack.status w

namespace Takes

variable {w : Nat} {m m' m'' : Machine}

theorem refl (h : m.Ordered text) (w : Nat) : Takes text w m m :=
  ⟨h, .refl _, rfl, fun _ _ => rfl, rfl⟩

theorem trans (h : Takes text w m m') (h' : Takes text w m' m'') : Takes text w m m'' where
  ordered := h'.ordered
  widens := h.widens.trans h'.widens
  size := h'.size.trans h.size
  other v hv := (h'.other v hv).trans (h.other v hv)
  status := h'.status.trans h.status

theorem follows (h : Takes text w m m') (hw : n ≤ w) (hn : n ≤ m.stack.size) :
    Follows text n m m' :=
  ⟨h.ordered, h.widens, h.size ▸ hn, fun v hv => h.other v (by omega)⟩

theorem ofMoves (h : m.Ordered text) {y : Vertex} {s : Stack} {a : Automaton}
    (moves : Stack.Moves text m.stack w y s) :
    Takes text w m { m with automaton := a, stack := s } :=
  ⟨⟨moves.ordered, h.finished⟩, moves.widens, moves.size, moves.other, moves.status⟩

end Takes

/-- a tree that stands at the cursor of a version goes on top of it, and what stands behind the tree
stands at the cursor of the version then -/
theorem push_order {m : Machine} (h : m.Ordered text) {w : Nat} (hw : w < m.stack.size)
    (active : (m.stack.status w).isPaused = false) {t : Tree} {ts : List Tree} {c : Cursor}
    (row : Tree.Row (m.stack.cursor w) (t :: ts) c) (a : Automaton) (q : Nat) :
    let m' := { m with automaton := a, stack := m.stack.push w (some t) q }
    Takes text w m m' ∧ Tree.Row (m'.stack.cursor w) ts c := by
  obtain ⟨y, hy, moves⟩ := h.stack.push_some (.inl active) row.head q
  refine ⟨.ofMoves h moves, ?_⟩
  rw [show (m.stack.push w (some t) q).cursor w = y.cursor from moves.cursor hw, hy]
  exact row.tail

theorem pushNext_order {m : Machine} (h : m.Ordered text) {w : Nat} (hw : w < m.stack.size)
    (active : (m.stack.status w).isPaused = false) {t : Tree} {ts : List Tree} {c : Cursor}
    (row : Tree.Row (m.stack.cursor w) (t :: ts) c) :
    let m' := ((pushNext w t).run m).2
    Takes text w m m' ∧ Tree.Row (m'.stack.cursor w) ts c :=
  push_order h hw active row _ _

theorem pushExtras_order {m : Machine} (h : m.Ordered text) {w : Nat} (hw : w < m.stack.size)
    (active : (m.stack.status w).isPaused = false) {ts us : List Tree} {c : Cursor}
    (row : Tree.Row (m.stack.cursor w) (ts ++ us) c) :
    let m' := ((ts.forM (pushExtra w)).run m).2
    Takes text w m m' ∧ Tree.Row (m'.stack.cursor w) us c := by
  induction ts generalizing m with
  | nil => exact ⟨.refl h w, row⟩
  | cons t ts ih =>
    obtain ⟨takes, rest⟩ := push_order h hw active row m.automaton (m.stack.state w)
    obtain ⟨takes', rest'⟩ := ih takes.ordered (takes.size ▸ hw) (takes.status ▸ active) rest
    exact ⟨takes.trans takes', rest'⟩

/-! ## closing a production -/

/-- what is known while the groups of a production are closed: behind the first `n` versions stand
those that have taken their trees, up to `w`, and then those whose trees are still to come -/
structure Closing (m : Machine) (n w : Nat) (c : Cursor) (gs : List (List (List Tree))) :
    Prop where
  size : m.stack.size = w + gs.length
  done : ∀ v, n ≤ v → v < w → m.Ready v c
  todo : ∀ k g, gs[k]? = some g → g ≠ [] ∧ (m.stack.status (w + k)).isPaused = false ∧
    ∀ ts ∈ g, Tree.Row (m.stack.cursor (w + k)) ts c

namespace Closing

variable {m m' : Machine} {w : Nat} {c : Cursor} {g : List (List Tree)}
  {gs : List (List (List Tree))}

theorem lt_size (h : Closing m n w c (g :: gs)) : w < m.stack.size := by
  have size := h.size
  rw [List.length_cons] at size
  omega

theorem take (h : Closing m n w c (g :: gs)) (hm : m.Ordered text) (takes : Takes text w m m')
    (here : m'.stack.cursor w = c) : Closing m' n (w + 1) c gs := by
  have active : (m.stack.status w).isPaused = false := (h.todo 0 g rfl).2.1
  have other : ∀ v, v ≠ w → m'.stack.cursor v = m.stack.cursor v ∧
      m'.stack.status v = m.stack.status v := fun v hv =>
    cursor_of_seat hm.stack takes.widens (takes.other v hv)
  have size := h.size
  rw [List.length_cons] at size
  refine ⟨by rw [takes.size, size]; omega, fun v hn hv => ?_, fun k g' hk => ?_⟩
  · by_cases last : v = w
    · subst last
      exact ⟨takes.size ▸ h.lt_size, takes.status ▸ active, here⟩
    · obtain ⟨hlt, hactive, cursor⟩ := h.done v hn (by omega)
      obtain ⟨same, status⟩ := other v last
      exact ⟨takes.size ▸ hlt, status ▸ hactive, same ▸ cursor⟩
  · obtain ⟨same, status⟩ := other (w + 1 + k) (by omega)
    rw [same, status, Nat.add_right_comm]
    exact h.todo (k + 1) g' hk

theorem of_removed (hm : m.Ordered text) (total : m.stack.size = w + 1 + gs.length)
    (done : ∀ v, n ≤ v → v < w → m.Ready v c)
    (todo : ∀ k g, gs[k]? = some g → g ≠ [] ∧ (m.stack.status (w + 1 + k)).isPaused = false ∧
      ∀ ts ∈ g, Tree.Row (m.stack.cursor (w + 1 + k)) ts c)
    (wide : m.stack.Widens m'.stack)
    (size : m'.stack.size = if w < m.stack.size then m.stack.size - 1 else m.stack.size)
    (seat : ∀ v, (m'.stack.version v).seat =
      (m.stack.version (if v < w then v else v + 1)).seat) : Closing m' n w c gs := by
  rw [if_pos (by omega)] at size
  refine ⟨by omega, fun v hn hv => ?_, fun k g hk => ?_⟩
  · have same := seat v
    rw [if_pos hv] at same
    obtain ⟨cursor, status⟩ := cursor_of_seat hm.stack wide same
    obtain ⟨-, hactive, hcursor⟩ := done v hn hv
    exact ⟨by omega, status ▸ hactive, cursor ▸ hcursor⟩
  · have same := seat (w + k)
    rw [if_neg (by omega)] at same
    obtain ⟨cursor, status⟩ := cursor_of_seat hm.stack wide same
    rw [cursor, status, Nat.add_right_comm]
    exact todo k g hk

/-- the version that has just taken its trees may become part of one before it -/
theorem merge (h : Closing m n (w + 1) c gs) (hm : m.Ordered text) (hw : n ≤ w) (vs : List Nat) :
    let r := (mergeInto w vs).run m
    n ≤ (if r.1 then w else w + 1) ∧ Closing r.2 n (if r.1 then w else w + 1) c gs := by
  intro r
  rcases mergeInto_cases hm w vs with ⟨no, same⟩ | ⟨yes, -, wide, size, seat⟩
  · rw [show r.1 = false from no, show r.2 = m from same]
    exact ⟨Nat.le_succ_of_le hw, h⟩
  · rw [show r.1 = true from yes]
    have before : ∀ v, n ≤ v → v < w → m.Ready v c := fun v hn hv =>
      h.done v hn (Nat.lt_succ_of_lt hv)
    exact ⟨hw, .of_removed hm h.size before h.todo wide size seat⟩

end Closing

theorem symbolOf_ne_terminal (v : Nat) : ∀ x, symbolOf v ≠ .terminal x := fun x hx => by
  have token := isToken_symbolOf v
  rw [hx] at token
  cases token

/-- the first version to come takes the tree that is made of its trees, and the extras behind it -/
theorem closeOne_order (i : Nat) (steps : List Step) (weight : Int) {c : Cursor}
    {g : List (List Tree)} {gs : List (List (List Tree))} {w : Nat} {m : Machine}
    (h : m.Ordered text) (closing : Closing m n w c (g :: gs)) {ts : List Tree} (hts : ts ∈ g)
    (led : Tree.LedBy steps.length ts) :
    let t := Tree.branch (symbolOf i) steps (m.stack.cursor w) (Tree.splitTrailing ts).1
    let m' := (((Tree.splitTrailing ts).2.forM (pushExtra w)).run
      ((pushNext w (t.addWeight weight)).run m).2).2
    Takes text w m m' ∧ Closing m' n (w + 1) c gs := by
  intro t
  obtain ⟨-, active, trees⟩ := closing.todo 0 g rfl
  have row : Tree.Row (m.stack.cursor w)
      (t.addWeight weight :: (Tree.splitTrailing ts).2) c := by
    have whole := trees ts hts
    rw [← (splitTrailing_spec ts).1] at whole
    exact (whole.build (symbolOf_ne_terminal i) (fun _ => rfl)
      fun _ => ⟨led.splitTrailing, Tree.closed_splitTrailing ts⟩).addWeight weight
  obtain ⟨takes, behind⟩ := pushNext_order h closing.lt_size active row
  rw [← List.append_nil (Tree.splitTrailing ts).2] at behind
  obtain ⟨takes', behind'⟩ := pushExtras_order takes.ordered
    (takes.size ▸ closing.lt_size) (takes.status ▸ active) behind
  exact ⟨takes.trans takes', closing.take h (takes.trans takes') behind'.eq_of_nil⟩

theorem closeGroups_order (v i : Nat) (steps : List Step) (weight : Int) {c : Cursor}
    {gs : List (List (List Tree))} {w : Nat} {m : Machine} (h : m.Ordered text) (hw : n ≤ w)
    (closing : Closing m n w c gs) (led : ∀ g ∈ gs, ∀ ts ∈ g, Tree.LedBy steps.length ts) :
    let m' := ((closeGroups v (symbolOf i) steps weight gs w).run m).2
    Follows text n m m' ∧ ∀ u, n ≤ u → u < m'.stack.size → m'.Ready u c := by
  induction gs generalizing w m with
  | nil =>
    have size := closing.size
    refine ⟨.refl h (by omega), fun u hn hu => closing.done u hn ?_⟩
    rw [List.length_nil, Nat.add_zero] at size
    exact size ▸ hu
  | cons g gs ih =>
    have hn : n ≤ m.stack.size := Nat.le_trans hw (Nat.le_of_lt closing.lt_size)
    -- once a computation on `m` has left the other groups to close, so has all that follows it
    have rest : ∀ {m' : Machine} {w' : Nat}, Follows text n m m' → n ≤ w' →
        Closing m' n w' c gs →
        let m'' := ((closeGroups v (symbolOf i) steps weight gs w').run m').2
        Follows text n m m'' ∧ ∀ u, n ≤ u → u < m''.stack.size → m''.Ready u c :=
      fun step hw' closing' =>
        (ih step.ordered hw' closing' fun g hg => led g (List.mem_cons_of_mem _ hg)).imp_left
          fun next => step.trans next
    rw [closeGroups]
    by_cases crowded : maxVersions + versionOverflow < w
    · rw [if_pos crowded]
      have step := KeepsOrder.remove hw m h hn
      have total := closing.size
      rw [List.length_cons] at total
      refine rest step hw (.of_removed h (by omega) closing.done (fun k g hk => ?_) step.widens
        (m.stack.size_remove w) fun u => congrArg Version.seat (m.stack.version_remove u w))
      rw [Nat.add_assoc, Nat.add_comm 1]
      exact closing.todo (k + 1) g hk
    · rw [if_neg crowded]
      obtain ⟨ts, hts, best⟩ := bestBranch_spec (symbolOf i) steps (m.stack.cursor w)
        (closing.todo 0 g rfl).1
      obtain ⟨takes, closed⟩ := closeOne_order i steps weight h closing hts
        (led g List.mem_cons_self ts hts)
      have step := takes.follows hw hn
      have merging := KeepsOrder.mergeInto hw ((List.range w).filter (· != v)) _ step.ordered
        step.le_size
      have next := closed.merge step.ordered hw ((List.range w).filter (· != v))
      show let m'' := StateT.run (let b := bestBranch (symbolOf i) steps (m.stack.cursor w) g
          do
            pushNext w (b.1.addWeight weight)
            b.2.forM (pushExtra w)
            let merged ← mergeInto w ((List.range w).filter (· != v))
            closeGroups v (symbolOf i) steps weight gs (if merged then w else w + 1)) m
        Follows text n m m''.2 ∧ ∀ u, n ≤ u → u < m''.2.stack.size → m''.2.Ready u c
      rw [best]
      exact rest (step.trans merging) next.1 next.2

/-- what becomes of a machine when ways down from version `v` are sliced: the versions of the ways
are behind the others, and there the trees of the ways stand behind them -/
structure SlicedFrom (text : List Char) (m : Machine) (v : Nat)
    (r : Stack × List Stack.Slice) (gs : List (List (List Tree))) : Prop where
  slices : r.2 = Stack.slicesFrom m.stack.size gs
  ne_nil : ∀ g ∈ gs, g ≠ []
  size : r.1.size = m.stack.size + gs.length
  follows : Follows text m.stack.size m { m with stack := r.1 }
  group : ∀ k g, gs[k]? = some g → (r.1.status (m.stack.size + k)).isPaused = false ∧
    ∀ ts ∈ g, Tree.Row (r.1.cursor (m.stack.size + k)) ts (m.stack.cursor v)

theorem SlicedFrom.of_mem {m : Machine} {v : Nat} {r : Stack × List Stack.Slice}
    {gs : List (List (List Tree))} (h : SlicedFrom text m v r gs) {x : Stack.Slice}
    (hx : x ∈ r.2) : m.stack.size ≤ x.version ∧ x.version < r.1.size ∧
      (r.1.status x.version).isPaused = false ∧
      Tree.Row (r.1.cursor x.version) x.trees (m.stack.cursor v) := by
  obtain ⟨k, g, hk, version, trees⟩ := Stack.of_mem_slicesFrom (h.slices ▸ hx)
  obtain ⟨active, rows⟩ := h.group k g hk
  have lt_length := (List.getElem?_eq_some_iff.mp hk).1
  have size := h.size
  rw [version]
  exact ⟨by omega, by omega, active, rows _ trees⟩

/-- **Ways down from a version are sliced into versions behind those that there are.** -/
theorem slices_order {m : Machine} (h : m.Ordered text) (v : Nat) {σ : Type} (x : σ)
    (f : σ → Stack.Way → σ × Stack.Verdict) :
    ∃ gs, SlicedFrom text m v (m.stack.slices v (m.stack.ways v x f).2) gs ∧
      ∀ g ∈ gs, ∀ ts ∈ g, ∃ w ∈ (m.stack.ways v x f).2, w.trees = ts := by
  have passed : ∀ w ∈ (m.stack.ways v x f).2, w.vertex < m.stack.vertices.size ∧
      Tree.Row (m.stack.vertex w.vertex).cursor w.trees (m.stack.cursor v) :=
    fun w hw => (Stack.reaches_of_mem_ways hw).1.row h.stack (h.stack.vertex_lt v)
  generalize (m.stack.ways v x f).2 = ws at passed
  obtain ⟨gs, dealt⟩ := m.stack.exists_dealt v ws
  have sliced := Stack.sliced_slices m.stack v ws
  have wide : m.stack.Widens (m.stack.slices v ws).1 := .of_vertices sliced.vertices
  have versions : ∀ x ∈ (m.stack.slices v ws).1.versions, m.stack.Admits x.seat := by
    intro x hx
    obtain ⟨j, hj, rfl⟩ := Array.getElem_of_mem hx
    have here : (m.stack.slices v ws).1.versions[j] = (m.stack.slices v ws).1.version j := by
      rw [Stack.version, Array.getElem?_eq_getElem hj]
      rfl
    rw [here]
    by_cases old : j < m.stack.size
    · rw [sliced.version j old]
      exact h.stack.admits j
    · have hj : j < (m.stack.slices v ws).1.size := hj
      rw [dealt.size] at hj
      have hk : j - m.stack.size < gs.length := by omega
      obtain ⟨i, seat, all⟩ := dealt.seat (j - m.stack.size) _ (List.getElem?_eq_getElem hk)
      rw [Nat.add_sub_cancel' (Nat.le_of_not_lt old)] at seat
      obtain ⟨ts, hts⟩ := List.exists_mem_of_ne_nil _ (dealt.ne_nil _ (List.getElem_mem hk))
      obtain ⟨w, hw, rfl, -⟩ := all ts hts
      rw [seat]
      exact ⟨(passed w hw).1, fun t ht => by cases ht⟩
  have ordered := h.stack.ofVersions versions
  rw [← sliced.vertices] at ordered
  have follows : Follows text m.stack.size m { m with stack := (m.stack.slices v ws).1 } :=
    .ofStack h ordered wide sliced.size_le fun u hu => congrArg Version.seat (sliced.version u hu)
  refine ⟨gs, ⟨dealt.slices, dealt.ne_nil, dealt.size, follows, fun k g hk => ?_⟩,
    fun g hg ts hts => ?_⟩
  · obtain ⟨i, seat, all⟩ := dealt.seat k g hk
    refine ⟨?_, fun ts hts => ?_⟩
    · rw [Stack.status, show ((m.stack.slices v ws).1.version (m.stack.size + k)).status = .active
        from congrArg Prod.snd seat]
      rfl
    · obtain ⟨w, hw, rfl, rfl⟩ := all ts hts
      obtain ⟨lt_size, row⟩ := passed w hw
      have vertex : ((m.stack.slices v ws).1.version (m.stack.size + k)).vertex = w.vertex :=
        congrArg Prod.fst seat
      rw [Stack.cursor, Stack.top, vertex, wide.cursor _ lt_size]
      exact row
  · obtain ⟨k, hk⟩ := List.getElem?_of_mem hg
    obtain ⟨i, -, all⟩ := dealt.seat k g hk
    obtain ⟨w, hw, -, trees⟩ := all ts hts
    exact ⟨w, hw, trees⟩

theorem popCount_order {m : Machine} (h : m.Ordered text) (v count : Nat) :
    ∃ gs, SlicedFrom text m v (m.stack.popCount v count) gs ∧
      ∀ g ∈ gs, ∀ ts ∈ g, Tree.LedBy count ts := by
  obtain ⟨gs, sliced, passed⟩ := slices_order h v () fun _ w =>
    ((), ⟨w.count == count, w.count == count⟩)
  refine ⟨gs, sliced, fun g hg ts hts => ?_⟩
  obtain ⟨w, hw, rfl⟩ := passed g hg ts hts
  exact Stack.ledBy_of_mem_ways hw

/-- what becomes of a machine when productions are closed in version `v`: there are new versions
behind the others, where the version is or before, and the one that is told of is among them -/
structure Reduced (text : List Char) (m : Machine) (v : Nat) (r : Option Nat × Machine) :
    Prop where
  follows : Follows text m.stack.size m r.2
  new : ∀ u, m.stack.size ≤ u → u < r.2.stack.size → r.2.Ready u (m.stack.cursor v)
  told : ∀ w ∈ r.1, m.stack.size ≤ w ∧ w < r.2.stack.size

namespace Reduced

variable {m m' : Machine} {v : Nat} {last : Option Nat} {r : Option Nat × Machine}

theorem refl (h : m.Ordered text) (v : Nat) : Reduced text m v (none, m) :=
  ⟨.refl h (Nat.le_refl _), fun _ hu hu' => absurd hu' (Nat.not_lt_of_le hu), nofun⟩

/-- one production after the other; of the versions told of any may be taken -/
theorem step (h : Reduced text m v (last, m')) (hm : m.Ordered text) (hv : v < m.stack.size)
    (h' : Reduced text m' v r) {new : Option Nat} (hnew : ∀ w ∈ new, w ∈ r.1 ∨ w ∈ last) :
    Reduced text m v (new, r.2) := by
  have size : m.stack.size ≤ m'.stack.size := h.follows.le_size
  have here : m'.stack.cursor v = m.stack.cursor v :=
    (cursor_of_seat hm.stack h.follows.widens (h.follows.seat v hv)).1
  refine ⟨h.follows.trans (h'.follows.mono size), fun u hu hu' => ?_, fun w hw => ?_⟩
  · by_cases old : u < m'.stack.size
    · exact h'.follows.ready h.follows.ordered old (h.new u hu old)
    · exact here ▸ h'.new u (Nat.le_of_not_lt old) hu'
  · rcases hnew w hw with hw | hw
    · obtain ⟨hlow, hhigh⟩ := h'.told w hw
      exact ⟨Nat.le_trans size hlow, hhigh⟩
    · obtain ⟨hlow, hhigh⟩ := h.told w hw
      exact ⟨hlow, Nat.lt_of_lt_of_le hhigh h'.follows.le_size⟩

/-- the version itself stays ready, and the one told of is -/
theorem ready (h : Reduced text m v r) (hm : m.Ordered text) {c : Cursor} (hv : m.Ready v c) :
    r.2.Ready v c ∧ ∀ w ∈ r.1, v < w ∧ r.2.Ready w c := by
  refine ⟨h.follows.ready hm hv.lt_size hv, fun w hw => ?_⟩
  obtain ⟨hlow, hhigh⟩ := h.told w hw
  have new := h.new w hlow hhigh
  exact ⟨Nat.lt_of_lt_of_le hv.lt_size hlow, hhigh, new.active, new.cursor.trans hv.cursor⟩

end Reduced

theorem close_run (m : Machine) (v : Nat) (p : Production) :
    let r := m.stack.popCount v p.steps.length
    let m' := ((closeGroups v (symbolOf p.variableIndex) p.steps p.weight (groups r.2)
      m.stack.size).run { m with stack := r.1 }).2
    (close v p).run m = (if m.stack.size < m'.stack.size then some m.stack.size else none, m') :=
  rfl

theorem close_order {m : Machine} (h : m.Ordered text) (v : Nat) (p : Production) :
    Reduced text m v ((close v p).run m) := by
  rw [close_run]
  obtain ⟨gs, sliced, led⟩ := popCount_order h v p.steps.length
  generalize m.stack.popCount v p.steps.length = r at sliced
  have closing : Closing { m with stack := r.1 } m.stack.size m.stack.size (m.stack.cursor v) gs :=
    ⟨sliced.size, fun u hu hu' => absurd hu' (Nat.not_lt_of_le hu), fun k g hk =>
      ⟨sliced.ne_nil g (List.mem_of_getElem? hk), sliced.group k g hk⟩⟩
  obtain ⟨closed, ready⟩ := closeGroups_order v p.variableIndex p.steps p.weight
    sliced.follows.ordered (Nat.le_refl _) closing led
  rw [← groups_slicesFrom sliced.ne_nil m.stack.size, ← sliced.slices] at closed ready
  refine ⟨sliced.follows.trans closed, ready, fun w hw => ?_⟩
  dsimp only at hw
  split at hw
  · next more =>
    obtain rfl := Option.some.inj hw
    exact ⟨Nat.le_refl _, more⟩
  · cases hw

/-- **Closing a production makes versions that are as ready as the one it is closed in.** -/
theorem reduce_order {m : Machine} (h : m.Ordered text) (v i : Nat) :
    Reduced text m v ((reduce v i).run m) := by
  show Reduced text m v (StateT.run (if m.stack.size ≤ v then (pure none : Run _)
    else (m.automaton.tables.numbered.get? i).elim (pure none) (close v)) m)
  split
  · exact .refl h v
  · cases m.automaton.tables.numbered.get? i with
    | none => exact .refl h v
    | some p => exact close_order h v p

end Machine
end Python
end AnnotationAudit
