import AnnotationAudit.Proofs.Suppression

/-!
# Suppressing one function

A comment is added to one function, anywhere in a file, and the audits of both files are compared.

* `Definition.setHead`, `setHeads`   definitions with the head of one function replaced;
* `functionsOf_setHeads`             in the list of functions, this replaces one of them;
* `Signature.withComment`            a function with one more comment;
* `reported`                         the violations of the functions in a list that are audited;
* `Outline.violations_suppress`      with the marker in that comment, the violations of the function
                                     are left out, and all others stay where they are.
-/

namespace AnnotationAudit

/-! ## replacing the head of one function -/

mutual

/-- the definition with `g` for the head of its `k`-th function, all bodies left as they are -/
def Definition.setHead (g : Signature) : Definition → Nat → Definition
  | .function _ body, 0 => .function g body
  | .function head body, k + 1 => .function head (setHeads g body k)
  | .classDef name body, k => .classDef name (setHeads g body k)

def setHeads (g : Signature) : List Definition → Nat → List Definition
  | [], _ => []
  | d :: ds, k =>
    if k < d.functions.length then d.setHead g k :: ds
    else d :: setHeads g ds (k - d.functions.length)

end

mutual

theorem Definition.functions_setHead (g : Signature) :
    ∀ (d : Definition) (k : Nat), (d.setHead g k).functions = d.functions.set k g
  | .function _ _, 0 => rfl
  | .function _ body, k + 1 => congrArg (_ :: ·) (functionsOf_setHeads g body k)
  | .classDef _ body, k => functionsOf_setHeads g body k

/-- to replace a head at any depth is to replace it in the list of functions -/
theorem functionsOf_setHeads (g : Signature) :
    ∀ (ds : List Definition) (k : Nat), functionsOf (setHeads g ds k) = (functionsOf ds).set k g
  | [], _ => rfl
  | d :: ds, k => by
    rw [setHeads, functionsOf_cons, List.set_append]
    split
    · rw [functionsOf_cons, d.functions_setHead g k]
    · rw [functionsOf_cons, functionsOf_setHeads g ds _]

end

/-- the file with `g` for the head of its `k`-th function -/
def Outline.setHead (g : Signature) (t : Outline) (k : Nat) : Outline :=
  ⟨t.path, setHeads g t.body k⟩

theorem Outline.functions_setHead (g : Signature) (t : Outline) (k : Nat) :
    (t.setHead g k).functions = t.functions.set k g :=
  functionsOf_setHeads g t.body k

/-! ## one more comment -/

/-- the function with a comment more, behind the first `i` of those that it has -/
def Signature.withComment (f : Signature) (i : Nat) (comment : String) : Signature :=
  { f with comments := f.comments.take i ++ comment :: f.comments.drop i }

theorem Signature.isSuppressed_withComment (f : Signature) (i : Nat) {comment : String}
    (marked : suppressionMarker.toList <:+: comment.toList) :
    (f.withComment i comment).isSuppressed = true := by
  obtain ⟨before, after, h⟩ := marked
  have suppresses : isSuppressionComment comment = true :=
    isSuppressionComment_iff.mpr ⟨before, after, h.symm⟩
  exact List.any_eq_true.mpr
    ⟨comment, List.mem_append_right _ List.mem_cons_self, suppresses⟩

/-! ## a file -/

/-- the violations of those functions in a list that are not suppressed, one after the other -/
def reported (file : String) (o : AuditOptions) (fs : List Signature) : List Violation :=
  (fs.filter fun f => !f.isSuppressed).flatMap fun f => f.violations file o

section
variable (file : String) (o : AuditOptions)

theorem reported_append (fs gs : List Signature) :
    reported file o (fs ++ gs) = reported file o fs ++ reported file o gs := by
  rw [reported, List.filter_append, List.flatMap_append]
  rfl

theorem reported_cons (f : Signature) (fs : List Signature) :
    reported file o (f :: fs) =
      (if f.isSuppressed then [] else f.violations file o) ++ reported file o fs := by
  rw [reported, List.filter_cons]
  cases f.isSuppressed <;> rfl

theorem Outline.violations_eq_reported (t : Outline) :
    t.violations o = reported t.path o t.functions :=
  t.violations_eq o

end

/-- **To suppress one function takes out its violations and leaves all others.** In a file, let `f`
be the `k`-th function and not suppressed, and add a comment with the marker to it. Then `f` is
all that changes of the functions of the file, and of the violations all that changes is that those
of `f`, which stand next to each other, are left out. What comes before are the violations of the
functions before `f`, and what comes behind those of the functions behind it, the functions in its
own body first. -/
theorem Outline.violations_suppress (t : Outline) (o : AuditOptions) {k : Nat} {f : Signature}
    (found : t.functions[k]? = some f) (audited : f.isSuppressed = false) (i : Nat)
    {comment : String} (marked : suppressionMarker.toList <:+: comment.toList) :
    let before := reported t.path o (t.functions.take k)
    let behind := reported t.path o (t.functions.drop (k + 1))
    let suppressed := t.setHead (f.withComment i comment) k
    suppressed.functions = t.functions.set k (f.withComment i comment) ∧
      t.violations o = before ++ f.violations t.path o ++ behind ∧
      suppressed.violations o = before ++ behind := by
  intro before behind suppressed
  have functions : suppressed.functions = t.functions.set k (f.withComment i comment) :=
    t.functions_setHead _ k
  obtain ⟨inside, rfl⟩ := List.getElem?_eq_some_iff.mp found
  refine ⟨functions, ?_, ?_⟩
  · have parts :
        t.functions.take k ++ t.functions[k] :: t.functions.drop (k + 1) = t.functions := by
      rw [← List.drop_eq_getElem_cons inside, List.take_append_drop]
    calc t.violations o
        = reported t.path o (t.functions.take k ++ t.functions[k] :: t.functions.drop (k + 1)) := by
          rw [parts, t.violations_eq_reported]
      _ = before ++ t.functions[k].violations t.path o ++ behind := by
          rw [reported_append, reported_cons, audited, if_neg Bool.false_ne_true,
            List.append_assoc]
  · rw [suppressed.violations_eq_reported, functions, List.set_eq_take_append_cons_drop,
      if_pos inside, reported_append, reported_cons, Signature.isSuppressed_withComment _ i marked]
    rfl

/-- a method with a function in its body, behind another function -/
def nestedFile : Outline :=
  ⟨"a.py", [.function ⟨"f", 1, .module, [], none, [], []⟩ [],
    .classDef "C" [.function ⟨"m", 4, .inClass, [⟨"self", 0, .positional, none, false⟩,
        ⟨"x", 1, .positional, none, false⟩], none, [.classMethod], ["# todo"]⟩
      [.function ⟨"inner", 5, .inFunction, [], none, [], []⟩ []]]]⟩

/-- when the method is suppressed, the functions before it and in its body are still reported -/
theorem Outline.violations_suppress_nested : ∃ m,
    nestedFile.functions[1]? = some m ∧ m.isSuppressed = false ∧
      suppressionMarker.toList <:+: "# noqa: D1".toList ∧
      m.violations "a.py" {} = [.ofArgument "a.py" 4 "m" "x", .ofReturn "a.py" 4 "m"] ∧
      (nestedFile.setHead (m.withComment 1 "# noqa: D1") 1).violations {} =
        [.ofReturn "a.py" 1 "f", .ofReturn "a.py" 5 "inner"] := by
  have marked : suppressionMarker.toList <:+: "# noqa: D1".toList := ⟨[], ": D1".toList, by decide⟩
  refine ⟨_, rfl, by decide, marked, by decide, ?_⟩
  exact (nestedFile.violations_suppress {} rfl (by decide) 1 marked).2.2.trans (by decide)

end AnnotationAudit
