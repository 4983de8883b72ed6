/-
  The lines of a text.

  A line ends at a separator, and what is after the last separator is a line too unless it is empty.
  A return right before a separator belongs to the line end; anywhere else it is kept.

  1. `lines_line`: a line that is written whole, separator and all, is read back, whatever follows.

  2. `lines_flatMap`: so are any number of them.
-/
import Mathlib.Data.List.Basic

namespace PhReactor.Lib

variable {α : Type*} [DecidableEq α] (sep ret : α)

/-- The line whose characters are `cur` in reverse, without the return before its separator. -/
def closeLine : List α → List α
  | [] => []
  | c :: cur => if c = ret then cur.reverse else (c :: cur).reverse

/-- The lines of a text, when `cur` has been read of the first one, in reverse. -/
def linesFrom : List α → List α → List (List α)
  | cur, [] => if cur = [] then [] else [cur.reverse]
  | cur, c :: rest =>
    if c = sep then closeLine ret cur :: linesFrom [] rest else linesFrom (c :: cur) rest

/-- The lines of a text. -/
def lines (text : List α) : List (List α) := linesFrom sep ret [] text

variable {sep ret}

theorem linesFrom_line {line : List α} (hline : sep ∉ line) (cur rest : List α) :
    linesFrom sep ret cur (line ++ sep :: rest) =
      closeLine ret (line.reverse ++ cur) :: lines sep ret rest := by
  induction line generalizing cur with
  | nil =>
    rw [List.nil_append, List.reverse_nil, List.nil_append]
    exact if_pos rfl
  | cons c line ih =>
    rw [List.mem_cons, not_or] at hline
    rw [List.cons_append, linesFrom, if_neg (Ne.symm hline.1), ih hline.2, List.reverse_cons,
      List.append_assoc, List.singleton_append]

theorem closeLine_reverse {line : List α} (hret : line.getLast? ≠ some ret) :
    closeLine ret line.reverse = line := by
  cases hrev : line.reverse with
  | nil => rw [List.reverse_eq_nil_iff.mp hrev]; rfl
  | cons c cur =>
    have hline : line = cur.reverse ++ [c] := by
      rw [← List.reverse_reverse line, hrev, List.reverse_cons]
    have hne : c ≠ ret := by
      rintro rfl
      apply hret
      rw [hline, List.getLast?_concat]
    rw [closeLine, if_neg hne, List.reverse_cons, hline]

/-- **A line that is written whole is read back**, whatever follows. -/
theorem lines_line {line : List α} (hline : sep ∉ line) (hret : line.getLast? ≠ some ret)
    (rest : List α) :
    lines sep ret (line ++ sep :: rest) = line :: lines sep ret rest := by
  unfold lines
  rw [linesFrom_line hline, List.append_nil, closeLine_reverse hret]
  rfl

/-- Lines that are written whole, and what follows. -/
theorem lines_flatMap {β : Type*} {text : β → List α} {l : List β}
    (hline : ∀ b ∈ l, sep ∉ text b) (hret : ∀ b ∈ l, (text b).getLast? ≠ some ret)
    (rest : List α) :
    lines sep ret ((l.flatMap fun b => text b ++ [sep]) ++ rest) =
      l.map text ++ lines sep ret rest := by
  induction l with
  | nil => rfl
  | cons b l ih =>
    have ih' := ih (fun c hc => hline c (List.mem_cons_of_mem b hc))
      fun c hc => hret c (List.mem_cons_of_mem b hc)
    rw [List.flatMap_cons, List.append_assoc, List.append_assoc, List.singleton_append,
      lines_line (hline b List.mem_cons_self) (hret b List.mem_cons_self), ih', List.map_cons,
      List.cons_append]

end PhReactor.Lib
