/-
  What holds of every element of a list relative to the elements BEFORE it.

  An audit walks a list once and asks of each element something that may depend on what came
  before.  `EachAfter P l` says that every element passes.  It is built up from the back
  (`eachAfter_concat`), as a log is; a prefix of a list that passes passes.
-/
import Mathlib.Data.List.Induction

namespace PhReactor.Lib

variable {α : Type} {P : List α → α → Prop}

/-- Every element of the list, given those before it. -/
def EachAfter (P : List α → α → Prop) (l : List α) : Prop :=
  ∀ before x after, l = before ++ x :: after → P before x

theorem eachAfter_nil : EachAfter P [] := by
  intro before x after h
  exact absurd h.symm (List.append_ne_nil_of_right_ne_nil before (List.cons_ne_nil x after))

/-- The last element is asked about all the others. -/
theorem eachAfter_concat {l : List α} {a : α} :
    EachAfter P (l ++ [a]) ↔ EachAfter P l ∧ P l a := by
  constructor
  · intro h
    refine ⟨fun before x after hl => h before x (after ++ [a]) ?_, h l a [] rfl⟩
    rw [hl, List.append_assoc, List.cons_append]
  · rintro ⟨h, ha⟩ before x after hl
    rcases List.eq_nil_or_concat after with rfl | ⟨after, y, rfl⟩
    · obtain ⟨rfl, hx⟩ := List.append_inj' hl rfl
      rw [← (List.cons.inj hx).1]
      exact ha
    · rw [List.concat_eq_append, ← List.cons_append, ← List.append_assoc] at hl
      exact h before x after (List.append_inj' hl rfl).1

end PhReactor.Lib
