/-
  Cutting a list into PIECES of one length, the last one perhaps shorter.

  `cutAt n l i` is the piece that is open, with room for `i` more elements, and the pieces behind
  it; `pieces` starts a piece at the first element.  What is put together again is the list
  (`flatten_pieces`).
-/
import Mathlib.Data.List.Basic

namespace PhReactor.Lib

variable {α : Type*}

/-- The piece that has room for `i` more, and the pieces after it; a new piece has room for `n`
    after its first element. -/
def cutAt (n : ℕ) : List α → ℕ → List α × List (List α)
  | [], _ => ([], [])
  | x :: l, 0 => ([], (x :: (cutAt n l n).1) :: (cutAt n l n).2)
  | x :: l, i + 1 => (x :: (cutAt n l i).1, (cutAt n l i).2)

/-- `slice::chunks`: pieces of length `n`, in order. -/
def pieces (n : ℕ) (l : List α) : List (List α) := (cutAt (n - 1) l 0).2

theorem flatten_cutAt (n : ℕ) (l : List α) (i : ℕ) :
    (cutAt n l i).1 ++ (cutAt n l i).2.flatten = l := by
  induction l generalizing i with
  | nil => rfl
  | cons x l ih =>
    cases i with
    | zero => simp [cutAt, ih]
    | succ i => simp [cutAt, ih]

theorem cutAt_zero (n : ℕ) (l : List α) : (cutAt n l 0).1 = [] := by
  cases l <;> rfl

theorem flatten_pieces (n : ℕ) (l : List α) : (pieces n l).flatten = l := by
  have h := flatten_cutAt (n - 1) l 0
  rwa [cutAt_zero] at h

end PhReactor.Lib
