import AnnotationAudit.Proofs.Locations

/-!
# Trees that a file system can hold

* `FileNode.Every`           a property of all nodes that a node holds;
* `FileTree.WellFormed`      the entries of every directory have file names, in order;
* `FileTree.LinkFree`        no node is a link;
* `FileTree.Stands`          a file or a directory is found at a location;
* `FileTree.stands_of_locate`, `FileTree.locate_path`  paths lead to such locations, and the path of
                             such a location leads back to it;
* `FileTree.followWith_of_steps`, `FileTree.locate_child`  in a tree without links, segments lead
                             down by the names that they hold.
-/

namespace AnnotationAudit

/-! ## entries -/

namespace FileEntries

theorem mem_of_get? {s : Bytes} {n : FileNode} {entries : FileEntries}
    (h : get? s entries = some n) : (s, n) ∈ entries := by
  induction entries with
  | nil => cases h
  | cons e entries ih =>
    obtain ⟨t, m⟩ := e
    unfold get? at h
    split at h
    · next hts =>
      cases h
      exact hts ▸ List.mem_cons_self
    · exact List.mem_cons_of_mem _ (ih h)

/-- where no name occurs twice, every entry is found by its name -/
theorem get?_of_mem {e : Bytes × FileNode} {entries : FileEntries}
    (hd : (entries.map Prod.fst).Nodup) (h : e ∈ entries) : get? e.1 entries = some e.2 := by
  induction entries with
  | nil => cases h
  | cons d entries ih =>
    rw [List.map_cons, List.nodup_cons] at hd
    unfold get?
    rcases List.mem_cons.mp h with rfl | h
    · exact if_pos rfl
    · have hne : d.1 ≠ e.1 := fun hde => hd.1 (hde ▸ List.mem_map_of_mem h)
      rw [if_neg hne]
      exact ih hd.2 h

end FileEntries

/-! ## nodes -/

namespace FileNode

/-- `P` holds of a node and of all below it -/
inductive Every (P : FileNode → Prop) : FileNode → Prop
  | file {content : FileContent} : P (.file content) → Every P (.file content)
  | link {target : Path} : P (.link target) → Every P (.link target)
  | directory {entries : FileEntries} :
    P (.directory entries) → (∀ e ∈ entries, Every P e.2) → Every P (.directory entries)

/-- a directory whose entries have file names, in order; or no directory -/
def IsOrdered : FileNode → Prop
  | .directory entries =>
    (entries.map Prod.fst).Pairwise (· < ·) ∧ ∀ e ∈ entries, IsFileName e.1
  | _ => True

def isLink : FileNode → Bool
  | .link _ => true
  | _ => false

theorem IsOrdered.nodup {entries : FileEntries} (h : IsOrdered (.directory entries)) :
    (entries.map Prod.fst).Nodup :=
  h.1.imp fun {a b} (hlt : a < b) (heq : a = b) => List.lt_irrefl b (heq ▸ hlt)

variable {P : FileNode → Prop} {n k : FileNode} {l m : Location}

theorem Every.self (h : n.Every P) : P n := by
  cases h <;> assumption

theorem Every.directory_iff {entries : FileEntries} :
    (FileNode.directory entries).Every P ↔ P (.directory entries) ∧ ∀ e ∈ entries, e.2.Every P := by
  constructor
  · rintro ⟨⟩
    exact ⟨‹_›, ‹_›⟩
  · exact fun h => .directory h.1 h.2

theorem Every.get? (h : n.Every P) (hk : n.get? l = some k) : k.Every P := by
  induction l generalizing n with
  | nil =>
    cases n <;> exact Option.some.inj hk ▸ h
  | cons s l ih =>
    cases h with
    | file => cases hk
    | link => cases hk
    | directory hp he =>
      obtain ⟨d, hd, hk⟩ := Option.bind_eq_some_iff.mp hk
      exact ih (he _ (FileEntries.mem_of_get? hd)) hk

mutual

/-- whether `P` holds of a node and of all below it can be told where it can of each -/
def decideEvery (P : FileNode → Prop) [DecidablePred P] : (n : FileNode) → Decidable (n.Every P)
  | .file content => decidable_of_iff (P (.file content)) ⟨.file, Every.self⟩
  | .link target => decidable_of_iff (P (.link target)) ⟨.link, Every.self⟩
  | .directory entries =>
    have := decideEveryIn P entries
    decidable_of_iff _ Every.directory_iff.symm

def decideEveryIn (P : FileNode → Prop) [DecidablePred P] :
    (entries : List (Bytes × FileNode)) → Decidable (∀ e ∈ entries, e.2.Every P)
  | [] => .isTrue fun _ he => absurd he List.not_mem_nil
  | e :: entries =>
    have := decideEveryOf P e
    have := decideEveryIn P entries
    decidable_of_iff _ List.forall_mem_cons.symm

def decideEveryOf (P : FileNode → Prop) [DecidablePred P] :
    (e : Bytes × FileNode) → Decidable (e.2.Every P)
  | (_, n) => decideEvery P n

end

instance (P : FileNode → Prop) [DecidablePred P] : DecidablePred (Every P) := decideEvery P

instance : DecidablePred IsOrdered
  | .directory entries => inferInstanceAs (Decidable ((entries.map Prod.fst).Pairwise (· < ·) ∧
      ∀ e ∈ entries, IsFileName e.1))
  | .file _ => .isTrue trivial
  | .link _ => .isTrue trivial

theorem get?_nil : n.get? [] = some n := by
  cases n <;> rfl

theorem get?_append : n.get? (l ++ m) = (n.get? l).bind fun k => k.get? m := by
  induction l generalizing n with
  | nil => rw [get?_nil]; rfl
  | cons s l ih =>
    cases n with
    | file => rfl
    | link => rfl
    | directory entries =>
      show (FileEntries.get? s entries).bind (fun d => d.get? (l ++ m)) =
        ((FileEntries.get? s entries).bind fun d => d.get? l).bind fun k => k.get? m
      cases FileEntries.get? s entries with
      | none => rfl
      | some d => exact ih

/-- only a directory has something below it -/
theorem entries_of_get?_cons {s : Bytes} (h : n.get? (s :: l) = some k) :
    ∃ entries d, n = .directory entries ∧ FileEntries.get? s entries = some d ∧
      d.get? l = some k := by
  cases n with
  | file => cases h
  | link => cases h
  | directory entries =>
    obtain ⟨d, hd, hk⟩ := Option.bind_eq_some_iff.mp h
    exact ⟨entries, d, rfl, hd, hk⟩

theorem isNamed_of_get? (h : n.Every IsOrdered) (hk : n.get? l = some k) : l.IsNamed := by
  induction l generalizing n with
  | nil => exact Location.isNamed_nil
  | cons s l ih =>
    obtain ⟨entries, d, rfl, hd, hk⟩ := entries_of_get?_cons hk
    cases h with
    | directory hp he =>
      have hm := FileEntries.mem_of_get? hd
      exact List.forall_mem_cons.mpr ⟨hp.2 _ hm, ih (he _ hm) hk⟩

end FileNode

/-! ## trees -/

namespace FileTree

variable (t : FileTree)

/-- the entries of every directory have file names, in order -/
def WellFormed : Prop := t.root.Every FileNode.IsOrdered

def LinkFree : Prop := t.root.Every fun n => n.isLink = false

instance : DecidablePred WellFormed := fun t =>
  inferInstanceAs (Decidable (t.root.Every FileNode.IsOrdered))

instance : DecidablePred LinkFree := fun t =>
  inferInstanceAs (Decidable (t.root.Every fun n => n.isLink = false))

/-- a file or a directory is found at a location -/
def Stands (l : Location) : Prop := ∃ n, t.get? l = some n ∧ n.isLink = false

variable {t} {l m : Location} {n : FileNode}

theorem get?_append : t.get? (l ++ m) = (t.get? l).bind fun k => k.get? m := FileNode.get?_append

theorem get?_snoc {entries : FileEntries} (h : t.get? l = some (.directory entries)) (s : Bytes) :
    t.get? (l ++ [s]) = FileEntries.get? s entries := by
  rw [get?_append, h]
  show (FileEntries.get? s entries).bind (fun d => d.get? []) = _
  cases FileEntries.get? s entries with
  | none => rfl
  | some d => exact FileNode.get?_nil

theorem get?_of_mem (w : t.WellFormed) {entries : FileEntries}
    (h : t.get? l = some (.directory entries)) {e : Bytes × FileNode} (he : e ∈ entries) :
    t.get? (l ++ [e.1]) = some e.2 := by
  rw [get?_snoc h]
  exact FileEntries.get?_of_mem (w.get? h).self.nodup he

theorem WellFormed.isNamed (w : t.WellFormed) (h : t.get? l = some n) : l.IsNamed :=
  FileNode.isNamed_of_get? w h

theorem Stands.isNamed (w : t.WellFormed) (h : t.Stands l) : l.IsNamed :=
  h.elim fun _ hn => w.isNamed hn.1

theorem stands_nil : t.Stands [] := ⟨t.root, rfl, rfl⟩

theorem directory_of_below (h : t.get? (l ++ m) = some n) (hm : m ≠ []) :
    ∃ entries, t.get? l = some (.directory entries) := by
  rw [get?_append] at h
  obtain ⟨k, hk, hn⟩ := Option.bind_eq_some_iff.mp h
  cases m with
  | nil => exact absurd rfl hm
  | cons s m =>
    obtain ⟨entries, -, rfl, -⟩ := FileNode.entries_of_get?_cons hn
    exact ⟨entries, hk⟩

theorem Stands.dropLast (h : t.Stands l) : t.Stands l.dropLast := by
  rcases List.eq_nil_or_concat l with rfl | ⟨m, s, rfl⟩
  · exact h
  · obtain ⟨n, hn, -⟩ := h
    rw [List.concat_eq_append] at hn ⊢
    rw [List.dropLast_concat]
    obtain ⟨entries, he⟩ := directory_of_below hn (List.cons_ne_nil s [])
    exact ⟨_, he, rfl⟩

/-! ## following paths -/

theorem get?_of_entries {entries : FileEntries}
    (h : (t.get? l).bind FileNode.entries? = some entries) :
    t.get? l = some (.directory entries) := by
  obtain ⟨d, hd, he⟩ := Option.bind_eq_some_iff.mp h
  cases d with
  | file => cases he
  | link => cases he
  | directory => exact Option.some.inj he ▸ hd

/-- what one segment does: nothing, or it leads up, through a link, or down -/
theorem followWith_cons {jump : Location → List Bytes → Except AccessError Location}
    {here : Location} {s : Bytes} {segments : List Bytes}
    (h : t.followWith jump here (s :: segments) = .ok l) :
    t.followWith jump here segments = .ok l ∨
      t.followWith jump here.dropLast segments = .ok l ∨
      (∃ start target, (start = [] ∨ start = here) ∧ jump start (target ++ segments) = .ok l) ∨
      t.Stands (here ++ [s]) ∧ t.followWith jump (here ++ [s]) segments = .ok l := by
  unfold followWith at h
  split at h
  · cases h
  · next entries he =>
    split at h
    · exact .inl h
    · split at h
      · exact .inr (.inl h)
      · split at h
        · cases h
        · split at h
          · cases h
          · next target _ =>
            refine .inr (.inr (.inl ⟨_, target.segments, ?_, h⟩))
            split
            · exact .inl rfl
            · exact .inr rfl
          · next k hlink hk =>
            refine .inr (.inr (.inr ⟨⟨k, ?_, ?_⟩, h⟩))
            · rw [get?_snoc (get?_of_entries he), hk]
            · cases k with
              | file => rfl
              | directory => rfl
              | link target => exact absurd rfl (hlink target)

theorem stands_of_followWith {jump : Location → List Bytes → Except AccessError Location}
    (hj : ∀ start segments, t.Stands start → jump start segments = .ok l → t.Stands l)
    {segments : List Bytes} {here : Location} (hh : t.Stands here)
    (h : t.followWith jump here segments = .ok l) : t.Stands l := by
  induction segments generalizing here with
  | nil =>
    cases h
    exact hh
  | cons s segments ih =>
    rcases followWith_cons h with h | h | ⟨start, target, hs, h⟩ | ⟨hd, h⟩
    · exact ih hh h
    · exact ih hh.dropLast h
    · refine hj start _ ?_ h
      rcases hs with rfl | rfl
      · exact stands_nil
      · exact hh
    · exact ih hd h

theorem stands_of_follow (links : Nat) {segments : List Bytes} {here : Location}
    (hh : t.Stands here) (h : t.follow links here segments = .ok l) : t.Stands l := by
  induction links generalizing here segments with
  | zero =>
    refine stands_of_followWith (fun start segments _ h => ?_) hh h
    cases h
  | succ links ih => exact stands_of_followWith (fun start segments hs h => ih hs h) hh h

/-- a path leads to a file or a directory -/
theorem stands_of_locate {p : Path} (h : t.locate p = .ok l) : t.Stands l := by
  unfold locate at h
  split at h
  · cases h
  · exact stands_of_follow linkLimit stands_nil h

/-- names that lead to a file or a directory without links are followed one by one -/
theorem followWith_append (w : t.WellFormed)
    (jump : Location → List Bytes → Except AccessError Location) (h : t.Stands (l ++ m)) :
    t.followWith jump l m = .ok (l ++ m) := by
  induction m generalizing l with
  | nil =>
    rw [List.append_nil]
    rfl
  | cons s m ih =>
    obtain ⟨n, hn, hlink⟩ := h
    obtain ⟨entries, he⟩ := directory_of_below hn (List.cons_ne_nil s m)
    have hs : IsFileName s :=
      w.isNamed hn s (List.mem_append_right l List.mem_cons_self)
    rw [List.append_cons] at hn ⊢
    have hd := hn
    rw [get?_append, get?_snoc he] at hd
    obtain ⟨d, hd, hdn⟩ := Option.bind_eq_some_iff.mp hd
    have down : t.followWith jump (l ++ [s]) m = .ok (l ++ [s] ++ m) := ih ⟨n, hn, hlink⟩
    unfold followWith
    rw [he]
    dsimp only [Option.bind_some, FileNode.entries?]
    rw [hs.isIdle_eq, if_neg Bool.false_ne_true, if_neg hs.ne_up, if_neg (Nat.not_lt.mpr hs.size),
      hd]
    split
    · next hnone => cases hnone
    · next target htarget =>
      cases htarget
      cases m with
      | nil =>
        cases FileNode.get?_nil.symm.trans hdn
        cases hlink
      | cons => cases hdn
    · exact down

theorem followWith_of_locate {p : Path} (h : t.locate p = .ok l) :
    ∃ jump, t.followWith jump [] p.segments = .ok l := by
  unfold locate at h
  split at h
  · cases h
  · exact ⟨t.follow (linkLimit - 1), h⟩

/-- what one segment does in a tree without links: nothing, or it leads up or down -/
theorem followWith_cons_of_linkFree (plain : t.LinkFree)
    {jump : Location → List Bytes → Except AccessError Location} {here : Location} {s : Bytes}
    {segments : List Bytes} (h : t.followWith jump here (s :: segments) = .ok l) :
    Path.stepOf? s = none ∧ t.followWith jump here segments = .ok l ∨
      Path.stepOf? s = some .up ∧ t.followWith jump here.dropLast segments = .ok l ∨
      Path.stepOf? s = some (.name s) ∧ t.followWith jump (here ++ [s]) segments = .ok l := by
  unfold followWith at h
  split at h
  · cases h
  · next entries he =>
    unfold Path.isIdle at h
    split at h
    · next idle => exact .inl ⟨Option.isNone_iff_eq_none.mp idle, h⟩
    · next busy =>
      split at h
      · next hup => exact .inr (.inl ⟨hup ▸ by rfl, h⟩)
      · next hup =>
        have step : Path.stepOf? s = some (.name s) := by
          cases hs : Path.stepOf? s with
          | none => exact absurd (by rw [hs]; rfl) busy
          | some step =>
            unfold Path.stepOf? at hs
            rw [if_neg hup] at hs
            split at hs
            · cases hs
            · exact hs.symm
        split at h
        · cases h
        · split at h
          · cases h
          · next target hk =>
            have hlink := (plain.get? ((get?_snoc (get?_of_entries he) s).trans hk)).self
            cases hlink
          · exact .inr (.inr ⟨step, h⟩)

/-- in a tree without links, segments lead down by the names that they hold -/
theorem followWith_of_steps (plain : t.LinkFree)
    {jump : Location → List Bytes → Except AccessError Location} {segments : List Bytes}
    {here names : Location} (hs : segments.filterMap Path.stepOf? = names.map .name)
    (h : t.followWith jump here segments = .ok l) : l = here ++ names := by
  induction segments generalizing here names with
  | nil =>
    obtain rfl := List.map_eq_nil_iff.mp hs.symm
    rw [List.append_nil]
    exact (Except.ok.inj h).symm
  | cons s segments ih =>
    rcases followWith_cons_of_linkFree plain h with ⟨idle, h⟩ | ⟨up, -⟩ | ⟨step, h⟩
    · rw [List.filterMap_cons_none idle] at hs
      exact ih hs h
    · rw [List.filterMap_cons_some up] at hs
      cases names <;> cases hs
    · rw [List.filterMap_cons_some step] at hs
      obtain ⟨name, names, rfl, hname, rest⟩ := List.map_eq_cons_iff.mp hs.symm
      obtain rfl := Path.Component.name.inj hname
      rw [List.append_cons]
      exact ih rest.symm h

/-- in a tree without links, a name at the end is the name of what is found -/
theorem followWith_concat (plain : t.LinkFree)
    {jump : Location → List Bytes → Except AccessError Location} {segments : List Bytes}
    {here : Location} {s : Bytes} (hs : Path.stepOf? s = some (.name s))
    (h : t.followWith jump here (segments ++ [s]) = .ok l) : l.getLast? = some s := by
  induction segments generalizing here with
  | nil =>
    rcases followWith_cons_of_linkFree plain h with ⟨idle, -⟩ | ⟨up, -⟩ | ⟨-, h⟩
    · rw [hs] at idle
      cases idle
    · rw [hs] at up
      cases up
    · obtain rfl := Except.ok.inj h
      exact List.getLast?_concat
  | cons s' segments ih =>
    rcases followWith_cons_of_linkFree plain h with ⟨-, h⟩ | ⟨-, h⟩ | ⟨-, h⟩ <;> exact ih h

/-- in a tree without links, an entry of a directory is found below the names of that directory -/
theorem locate_child (plain : t.LinkFree) {p : Path} {k : Location} (hk : k.IsNamed)
    (hp : p.components = k.path.components) {s : Bytes} (hs : IsFileName s)
    (h : t.locate (p.child s) = .ok l) : l = k ++ [s] := by
  rw [Location.components_path hk] at hp
  have rooted := Path.rooted_of_components hp
  rw [Path.components_of_rooted rooted] at hp
  have steps : (p.child s).segments.filterMap Path.stepOf? = (k ++ [s]).map .name := by
    rw [Path.segments_child, (List.cons.inj hp).2, hs.step, List.map_append]
    rfl
  obtain ⟨jump, h⟩ := followWith_of_locate h
  have names : l = [] ++ (k ++ [s]) := followWith_of_steps plain steps h
  exact names

/-- in a tree without links, what is found as an entry has its name -/
theorem getLast?_of_locate_child (plain : t.LinkFree) {p : Path} {s : Bytes} (hs : IsFileName s)
    (h : t.locate (p.child s) = .ok l) : l.getLast? = some s := by
  obtain ⟨before, hp⟩ := p.exists_segments_child s
  obtain ⟨jump, h⟩ := followWith_of_locate h
  rw [hp] at h
  exact followWith_concat plain hs.step h

theorem followWith_of_idle (jump : Location → List Bytes → Except AccessError Location)
    {segments : List Bytes} {entries : FileEntries} (hl : t.get? l = some (.directory entries))
    (h : ∀ s ∈ segments, Path.stepOf? s = none) : t.followWith jump l segments = .ok l := by
  induction segments with
  | nil => rfl
  | cons s segments ih =>
    obtain ⟨hs, h⟩ := List.forall_mem_cons.mp h
    have idle : Path.isIdle s = true := by rw [Path.isIdle, hs]; rfl
    unfold followWith
    rw [hl]
    dsimp only [Option.bind_some, FileNode.entries?]
    rw [if_pos idle]
    exact ih h

/-- a path without steps leads to the root -/
theorem locate_of_components_eq_nil {p : Path} (h : p.components = []) : t.locate p = .ok [] := by
  have idle : ∀ s ∈ p.segments, Path.stepOf? s = none := by
    unfold Path.components Path.head at h
    split at h
    · cases h
    · split at h
      · next hnil => rw [hnil]; exact fun _ hs => absurd hs List.not_mem_nil
      · next s segments hcons =>
        split at h
        · cases h
        · rw [hcons]
          exact List.filterMap_eq_nil_iff.mp (List.append_eq_nil_iff.mp h).2
  have noZero : hasZero p = false := by
    refine List.any_eq_false.mpr fun s hs => ?_
    rcases Path.idle_cases (idle s hs) with rfl | rfl <;> decide
  unfold locate
  rw [noZero, if_neg Bool.false_ne_true]
  show t.follow (linkLimit - 1 + 1) [] p.segments = .ok []
  exact followWith_of_idle _ rfl idle

theorem hasZero_path (hl : l.IsNamed) : hasZero l.path = false := by
  refine List.any_eq_false.mpr fun s hs => ?_
  rw [(hl s hs).noZero]
  exact Bool.false_ne_true

/-- the path of a file or a directory leads back to it -/
theorem locate_path (w : t.WellFormed) (h : t.Stands l) : t.locate l.path = .ok l := by
  unfold locate
  rw [hasZero_path (h.isNamed w), if_neg Bool.false_ne_true]
  show t.follow (linkLimit - 1 + 1) [] l = .ok l
  exact followWith_append w _ h

/-! ## looking at nodes -/

/-- the node that a path leads to stands where it leads -/
theorem get?_of_node {p : Path} (h : t.node p = .ok n) :
    ∃ l, t.locate p = .ok l ∧ t.get? l = some n := by
  unfold node at h
  split at h
  · cases h
  · split at h
    · cases h
    · cases hl : t.locate p with
      | error e =>
        rw [hl] at h
        cases h
      | ok l =>
        rw [hl] at h
        cases hk : t.get? l with
        | none =>
          simp only [bind, Except.bind, hk] at h
          cases h
        | some k =>
          simp only [bind, Except.bind, hk, pure, Except.pure, Except.ok.injEq] at h
          exact ⟨l, rfl, h ▸ hk⟩

theorem node_path (w : t.WellFormed) (h : t.Stands l) (hn : t.node l.path = .ok n) :
    t.get? l = some n := by
  obtain ⟨m, hm, hk⟩ := get?_of_node hn
  obtain rfl := Except.ok.inj ((locate_path w h).symm.trans hm)
  exact hk

theorem directory_of_isDirectory (w : t.WellFormed) (h : t.Stands l)
    (hd : t.isDirectory l.path = true) : ∃ entries, t.get? l = some (.directory entries) := by
  unfold isDirectory at hd
  split at hd
  · next entries hn => exact ⟨entries, node_path w h hn⟩
  · cases hd

theorem isDirectory_of_isFile {p : Path} (h : t.isFile p = true) : t.isDirectory p = false := by
  unfold isFile at h
  unfold isDirectory
  split at h
  · next hn => rw [hn]
  · cases h

end FileTree

end AnnotationAudit
