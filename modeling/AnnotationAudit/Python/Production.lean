import AnnotationAudit.Python.Grammar

/-!
# Productions

The grammar's rules, multiplied out.

* `Symbol`        terminal and nonterminal symbols, one nonterminal more for each repetition, and
                  two symbols for text that fits nowhere;
* `Step`          one symbol of a right-hand side with its marks;
* `Production`    a left-hand side, its steps and its weight;
* `repetitions`   the repeated rules of the grammar, each once, inner ones first;
* `productions`   all productions, with the inlined symbols replaced.

A repeated rule `r` becomes a symbol `R` with the productions `R → R R` and `R → r`.
-/

namespace AnnotationAudit
namespace Python

/-- a grammar symbol, or the mark of text that fits nowhere -/
inductive Symbol where
  | terminal (t : Terminal)
  | nonterminal (n : Nonterminal)
  /-- the `k`-th repeated rule -/
  | repetition (k : Nat)
  /-- skipped tokens that are still being collected -/
  | skipped
  /-- text that fits nowhere -/
  | error
deriving DecidableEq, Repr, Inhabited

namespace Symbol

/-- the place of a symbol in the order of all symbols -/
def rank : Symbol → Nat
  | .terminal t => t.rank
  | .nonterminal n => Terminal.count + n.rank
  | .repetition k => Terminal.count + Nonterminal.count + k
  | .skipped => 65534
  | .error => 65535

/-- the place of a symbol with productions among all of these; `none` for the others -/
def variableIndex? : Symbol → Option Nat
  | .nonterminal n => some n.rank
  | .repetition k => some (Nonterminal.count + k)
  | _ => none

/-- does the symbol make a node of its own? -/
def isVisible : Symbol → Bool
  | .terminal t => t.isVisible
  | .nonterminal n => !n.isHidden
  | .repetition _ => false
  | .skipped => false
  | .error => true

def isNamed : Symbol → Bool
  | .terminal t => t.isNamed
  | .nonterminal n => !n.isHidden
  | .repetition _ => false
  | .skipped => false
  | .error => true

def kind : Symbol → Kind
  | .terminal t => t.kind
  | .nonterminal n => n.kind
  | .error => .error
  | _ => .other

end Symbol

/-- one symbol of a right-hand side; rank and side settle conflicts behind it -/
structure Step where
  symbol : Symbol
  rank : Option Int
  side : Option Associativity
  shown : Option Kind
  field : Option Field
deriving DecidableEq, Repr, Inhabited

/-- `variable` is the left-hand side's place among the symbols with productions -/
structure Production where
  variableIndex : Nat
  steps : List Step
  weight : Int
deriving DecidableEq, Repr, Inhabited

/-! ## repetitions -/

/-- the repeated rules inside a rule, added to those seen before -/
def Rule.repetitions : Rule → List Rule → List Rule
  | .seq a b, seen => b.repetitions (a.repetitions seen)
  | .alt a b, seen => b.repetitions (a.repetitions seen)
  | .repeat1 r, seen =>
    let seen := r.repetitions seen
    if seen.contains r then seen else seen ++ [r]
  | .ranked _ _ r, seen => r.repetitions seen
  | .weighed _ r, seen => r.repetitions seen
  | .field _ r, seen => r.repetitions seen
  | .shown _ r, seen => r.repetitions seen
  | _, seen => seen

/-- the repeated rules of the grammar, each once, inner ones first -/
def repetitions : List Rule :=
  Nonterminal.all.foldl (fun seen n => (Rule.of n).repetitions seen) []

/-! ## multiplying out -/

/-- the marks that hold around a rule -/
structure Marks where
  rank : Option Int := none
  side : Option Associativity := none
  shown : Option Kind := none
  field : Option Field := none
deriving Inhabited

/-- one way to read a rule: its steps and its weight -/
structure Reading where
  steps : List Step := []
  weight : Int := 0
deriving DecidableEq, Inhabited

namespace Reading

/-- of two weights the one further from zero counts, of equals the first -/
def heavier (a b : Int) : Int := if a.natAbs < b.natAbs then b else a

def append (x y : Reading) : Reading := ⟨x.steps ++ y.steps, heavier x.weight y.weight⟩

def mapLast (f : Step → Step) (x : Reading) : Reading :=
  match x.steps.getLast? with
  | none => x
  | some s => { x with steps := x.steps.dropLast ++ [f s] }

end Reading

/-- all readings of a rule under `marks`. The rank of a marked rule holds for the last step only if
nothing follows it in the production (`last`). -/
def Rule.readings (reps : List Rule) (marks : Marks) (last : Bool) : Rule → List Reading
  | .blank => [{}]
  | .terminal t => [⟨[⟨.terminal t, marks.rank, marks.side, marks.shown, marks.field⟩], 0⟩]
  | .nonterminal n => [⟨[⟨.nonterminal n, marks.rank, marks.side, marks.shown, marks.field⟩], 0⟩]
  | .seq a b =>
    let bs := b.readings reps marks last
    (a.readings reps marks false).flatMap fun x => bs.map x.append
  | .alt a b => a.readings reps marks last ++ b.readings reps marks last
  | .repeat1 r =>
    [⟨[⟨.repetition (reps.idxOf r), marks.rank, marks.side, marks.shown, marks.field⟩], 0⟩]
  | .ranked p side r =>
    let inner := r.readings reps { marks with rank := some p, side := side.or marks.side } last
    if last then inner
    else inner.map <| Reading.mapLast fun s =>
      { s with rank := marks.rank, side := if side.isSome then marks.side else s.side }
  | .weighed w r =>
    (r.readings reps marks last).map fun x => { x with weight := Reading.heavier w x.weight }
  | .field f r => r.readings reps { marks with field := some f } last
  | .shown k r => r.readings reps { marks with shown := some k } last

/-- all readings of a whole right-hand side, each once -/
def Rule.expand (reps : List Rule) (r : Rule) : List Reading :=
  (r.readings reps {} true).eraseDups

/-! ## inlining -/

/-- the readings of an inlined symbol in the place of the step `s`: they take over what the step
is shown as and which part it plays, and their last step takes over its rank -/
def Step.inline (s : Step) (readings : List Reading) : List Reading :=
  readings.map fun x =>
    Reading.mapLast
      (fun l => { l with rank := l.rank.or s.rank, side := l.side.or s.side })
      { x with steps := x.steps.map fun i =>
          { i with shown := s.shown.or i.shown, field := s.field.or i.field } }

/-- all ways to replace the inlined symbols of a list of steps -/
def inlineAll (reps : List Rule) : List Step → List Reading
  | [] => [{}]
  | s :: rest =>
    let tails := inlineAll reps rest
    let heads :=
      match s.symbol with
      | .nonterminal n =>
        if n.isInlined then s.inline ((Rule.of n).expand reps) else [⟨[s], 0⟩]
      | _ => [⟨[s], 0⟩]
    heads.flatMap fun x => tails.map x.append

/-- the productions of the symbol with productions at place `v`; inlining does not make one twice -/
def productionsOf (reps : List Rule) (v : Nat) (readings : List Reading) : List Production :=
  (readings.flatMap fun x =>
    (inlineAll reps x.steps).map fun y =>
      (⟨v, y.steps, Reading.heavier x.weight y.weight⟩ : Production))

/-- `R → R R` and `R → r` for the repeated rule `r` at place `k` -/
def repetitionReadings (reps : List Rule) (k : Nat) (r : Rule) : List Reading :=
  let self : Step := ⟨.repetition k, none, none, none, none⟩
  ⟨[self, self], 0⟩ :: r.expand reps

/-- all productions, in the order of their left-hand sides -/
def productions : Array Production :=
  let reps := repetitions
  let plain := Nonterminal.all.flatMap fun n =>
    if n.isInlined then [] else productionsOf reps n.rank ((Rule.of n).expand reps)
  let repeated := reps.zipIdx.flatMap fun (r, k) =>
    productionsOf reps (Nonterminal.count + k) (repetitionReadings reps k r)
  (plain ++ repeated).toArray

def variableCount : Nat := Nonterminal.count + repetitions.length

end Python
end AnnotationAudit
