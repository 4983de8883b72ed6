/-
  The newest entries of a growing list.

  A bounded memory that forgets its oldest entries first holds `newest n l`, where `l` is everything
  it was ever told.

  1. What it holds after one more entry is decided by what it held (`newest_concat`).

  2. An entry is held until `n` others have come after it (`mem_newest`).
-/
import Mathlib.Data.List.Nodup

namespace PhReactor.Lib

variable {α : Type*} {n : ℕ} {l later : List α} {a : α}

/-- The last `n` entries. -/
def newest (n : ℕ) (l : List α) : List α := l.drop (l.length - n)

theorem length_newest : (newest n l).length = min n l.length := by
  unfold newest
  rw [List.length_drop]
  omega

theorem newest_sublist : (newest n l).Sublist l := List.drop_sublist _ _

/-- A list that is short enough is held whole. -/
theorem newest_of_le (h : l.length ≤ n) : newest n l = l := by
  unfold newest
  rw [Nat.sub_eq_zero_of_le h, List.drop_zero]

/-- The oldest entry goes when there are too many. -/
theorem newest_cons (h : n < (a :: l).length) : newest n (a :: l) = newest n l := by
  unfold newest
  have hlen : (a :: l).length - n = (l.length - n) + 1 := by
    simp only [List.length_cons] at h ⊢
    omega
  rw [hlen, List.drop_succ_cons]

/-- One more entry, added to what is held. -/
theorem newest_concat : newest n (l ++ [a]) = newest n (newest n l ++ [a]) := by
  induction l with
  | nil => simp [newest]
  | cons b l ih =>
    by_cases h : n < (b :: l).length
    · have hlong : n < (b :: (l ++ [a])).length := by
        simp only [List.length_cons, List.length_append, List.length_nil] at h ⊢
        omega
      rw [newest_cons h, List.cons_append, newest_cons hlong, ih]
    · rw [newest_of_le (Nat.not_lt.mp h)]

/-- **An entry is held while fewer than `n` have come after it.** -/
theorem mem_newest (h : later.length < n) : a ∈ newest n (l ++ a :: later) := by
  induction l with
  | nil =>
    rw [List.nil_append, newest_of_le (by simp only [List.length_cons]; omega)]
    exact List.mem_cons_self
  | cons b l ih =>
    by_cases hlen : n < (b :: (l ++ a :: later)).length
    · rw [List.cons_append, newest_cons hlen]
      exact ih
    · rw [List.cons_append, newest_of_le (Nat.not_lt.mp hlen)]
      simp

end PhReactor.Lib
