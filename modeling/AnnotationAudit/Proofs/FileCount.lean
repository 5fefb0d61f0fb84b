import AnnotationAudit.Outcome
import Mathlib.Data.Finset.Card
import Mathlib.Data.List.Sublists

/-!
# How many files have violations

An outcome counts the files of its violations by the places where the file changes. Where a file
comes back after another one, it is counted again.

* `Outcome.namedFiles`         the files that the violations name, each of them once;
* `Outcome.card_le_runs`       no file is left out of the count;
* `Outcome.runs_eq_length_iff` every item is counted if and only if its neighbours are different;
* `Outcome.runs_eq_card_iff`   a list is counted right if and only if nothing in it comes back;
* `Outcome.filesWithViolations_law`      so are the files of an outcome;
* `Outcome.not_filesWithViolations_law`  merging can bring a file back.
-/

namespace AnnotationAudit
namespace Outcome

variable {a : String} {l : List String}

def namedFiles (o : Outcome) : Finset String := (o.violations.map Violation.file).toFinset

/-! ## runs -/

theorem runs_cons (a : String) (l : List String) :
    runs (a :: l) = (if l.head? = some a then 0 else 1) + runs l := by
  cases l with
  | nil => rfl
  | cons b l =>
    rw [runs, List.head?_cons]
    by_cases h : a = b
    · rw [if_pos h, if_pos (congrArg some h.symm)]
    · rw [if_neg h, if_neg fun h' => h (Option.some.inj h').symm]

theorem card_le_runs (l : List String) : l.toFinset.card ≤ runs l := by
  induction l with
  | nil => exact Nat.le_refl 0
  | cons a l ih =>
    rw [List.toFinset_cons, runs_cons]
    by_cases h : l.head? = some a
    · rw [if_pos h, Nat.zero_add,
        Finset.insert_eq_of_mem (List.mem_toFinset.mpr (List.mem_of_head? h))]
      exact ih
    · rw [if_neg h]
      exact (Finset.card_insert_le a _).trans (by omega)

theorem runs_le_length (l : List String) : runs l ≤ l.length := by
  induction l with
  | nil => exact Nat.le_refl 0
  | cons a l ih =>
    rw [runs_cons, List.length_cons]
    split <;> omega

/-- every item is counted if and only if no two neighbours are the same -/
theorem runs_eq_length_iff (l : List String) : runs l = l.length ↔ l.IsChain (· ≠ ·) := by
  induction l with
  | nil => exact iff_of_true rfl .nil
  | cons a l ih =>
    cases l with
    | nil => exact iff_of_true rfl (.singleton a)
    | cons b l =>
      have le := runs_le_length (b :: l)
      rw [List.isChain_cons_cons, ← ih, runs, List.length_cons]
      by_cases same : a = b
      · rw [if_pos same]
        exact iff_of_false (by omega) fun h => h.1 same
      · rw [if_neg same]
        exact ⟨fun h => ⟨same, by omega⟩, fun h => by omega⟩

/-- a block of the same counts like one item of it -/
theorem runs_block {block : List String} (hne : block ≠ []) (same : ∀ b ∈ block, b = a) :
    runs (block ++ l) = runs (a :: l) := by
  induction block with
  | nil => exact absurd rfl hne
  | cons b block ih =>
    obtain ⟨rfl, same⟩ := List.forall_mem_cons.mp same
    cases block with
    | nil => rfl
    | cons c block =>
      have first : (c :: block ++ l).head? = some b := congrArg some (same c List.mem_cons_self)
      rw [List.cons_append, runs_cons, if_pos first, Nat.zero_add,
        ih (List.cons_ne_nil c block) same]

/-- nothing comes back after something else -/
def NoReturn (l : List String) : Prop := ∀ a b, [a, b, a].Sublist l → a = b

/-- what is put in front may only be there already if it stands first -/
theorem noReturn_cons : NoReturn (a :: l) ↔ NoReturn l ∧ (a ∈ l → l.head? = some a) := by
  constructor
  · intro h
    refine ⟨fun x y hxy => h x y (hxy.cons a), fun ha => ?_⟩
    cases l with
    | nil => exact absurd ha List.not_mem_nil
    | cons b l =>
      by_contra hne
      rw [List.head?_cons, Option.some_inj] at hne
      have later : a ∈ l := (List.mem_cons.mp ha).resolve_left fun h => hne h.symm
      have back : [a, b, a].Sublist (a :: b :: l) :=
        ((List.singleton_sublist.mpr later).cons_cons b).cons_cons a
      exact hne (h a b back).symm
  · rintro ⟨hl, first⟩ x y hxy
    rcases List.sublist_cons_iff.mp hxy with hxy | ⟨r, hr, hrl⟩
    · exact hl x y hxy
    · obtain ⟨rfl, rfl⟩ := List.cons.inj hr
      have ha : x ∈ l := hrl.subset (List.mem_cons_of_mem y List.mem_cons_self)
      obtain ⟨rest, rfl⟩ := List.head?_eq_some_iff.mp (first ha)
      rcases List.sublist_cons_iff.mp hrl with hrl | ⟨r, hr, -⟩
      · exact hl x y (hrl.cons_cons x)
      · exact (List.cons.inj hr).1.symm

/-- a list is counted right if and only if nothing in it comes back -/
theorem runs_eq_card_iff (l : List String) : runs l = l.toFinset.card ↔ NoReturn l := by
  induction l with
  | nil => exact iff_of_true rfl fun a b h => absurd (h.subset List.mem_cons_self) List.not_mem_nil
  | cons a l ih =>
    have le := card_le_runs l
    rw [noReturn_cons, ← ih, runs_cons, List.toFinset_cons]
    by_cases ha : a ∈ l
    · rw [Finset.insert_eq_of_mem (List.mem_toFinset.mpr ha)]
      by_cases first : l.head? = some a
      · rw [if_pos first, Nat.zero_add]
        exact ⟨fun h => ⟨h, fun _ => first⟩, And.left⟩
      · rw [if_neg first]
        exact iff_of_false (by omega) fun h => first (h.2 ha)
    · have first : l.head? ≠ some a := fun h => ha (List.mem_of_head? h)
      rw [if_neg first, Finset.card_insert_of_notMem (fun h => ha (List.mem_toFinset.mp h))]
      exact ⟨fun h => ⟨by omega, fun h' => absurd h' ha⟩, fun h => by omega⟩

/-! ## files -/

/-- **How many files have violations.** The count is that of the files that the violations name if
and only if no violation of another file stands between two violations of one file; otherwise it is
too high. -/
theorem filesWithViolations_law (o : Outcome) :
    o.namedFiles.card ≤ o.filesWithViolations ∧
      (o.filesWithViolations = o.namedFiles.card ↔
        ∀ a b, [a, b, a].Sublist (o.violations.map Violation.file) → a = b) :=
  ⟨card_le_runs _, runs_eq_card_iff _⟩

/-- the outcome of two files, merged with a violation that was found in the first of them later -/
def interleaved : Outcome :=
  ((empty.addViolation (.ofReturn "a.py" 1 "f")).addViolation (.ofReturn "b.py" 1 "g")).merge
    (empty.addViolation (.ofReturn "a.py" 4 "h"))

/-- a file that comes back is counted twice -/
theorem not_filesWithViolations_law :
    ¬ ∀ o : Outcome, o.filesWithViolations = o.namedFiles.card :=
  fun h => absurd (h interleaved) (by decide +kernel)

end Outcome
end AnnotationAudit
