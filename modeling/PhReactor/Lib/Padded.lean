/-
  Comparing sequences of different lengths, the shorter one PADDED.

  1. Padding both further, beyond the longer one, changes nothing (`compareLex_pad`); so any number
     of comparisons can be made at one length.

  2. Hence the padded comparison has what the comparison of elements has: it is reflexive, its
     reverse is the other way round, and it is transitive; and padding elements at the end do not
     count (`comparePadded_append`).
-/
import Mathlib.Data.List.Basic
import Mathlib.Order.Basic

namespace PhReactor.Lib

open Std

variable {α : Type*} {cmp : α → α → Ordering} {z : α}

/-- At least `n` elements. -/
def pad (z : α) (n : ℕ) (x : List α) : List α := x ++ List.replicate (n - x.length) z

/-- From the left, the shorter sequence padded with `z`. -/
def comparePadded (cmp : α → α → Ordering) (z : α) (x y : List α) : Ordering :=
  List.compareLex cmp (pad z (max x.length y.length) x) (pad z (max x.length y.length) y)

theorem length_pad (z : α) {n : ℕ} {x : List α} (h : x.length ≤ n) : (pad z n x).length = n := by
  unfold pad
  rw [List.length_append, List.length_replicate]
  omega

theorem pad_append (z : α) {n : ℕ} (m : ℕ) {x : List α} (h : x.length ≤ n) :
    pad z (n + m) x = pad z n x ++ List.replicate m z := by
  unfold pad
  rw [List.append_assoc, ← List.replicate_add]
  congr 2
  omega

/-- A common tail decides nothing. -/
theorem compareLex_append [ReflCmp cmp] (w : List α) :
    ∀ {x y : List α}, x.length = y.length →
      List.compareLex cmp (x ++ w) (y ++ w) = List.compareLex cmp x y
  | [], [], _ => by
    rw [List.nil_append]
    exact ReflCmp.compare_self
  | a :: x, b :: y, h => by
    rw [List.cons_append, List.cons_append, List.compareLex_cons_cons, List.compareLex_cons_cons,
      compareLex_append w (Nat.succ.inj h)]

/-- Padding further changes nothing. -/
theorem compareLex_pad [ReflCmp cmp] {n : ℕ} {x y : List α} (hx : x.length ≤ n)
    (hy : y.length ≤ n) :
    List.compareLex cmp (pad z n x) (pad z n y) = comparePadded cmp z x y := by
  obtain ⟨m, rfl⟩ : ∃ m, n = max x.length y.length + m :=
    Nat.exists_eq_add_of_le (Nat.max_le.mpr ⟨hx, hy⟩)
  rw [pad_append z m (Nat.le_max_left _ _), pad_append z m (Nat.le_max_right _ _),
    compareLex_append]
  · rfl
  · rw [length_pad z (Nat.le_max_left _ _), length_pad z (Nat.le_max_right _ _)]

instance [ReflCmp cmp] : ReflCmp (comparePadded cmp z) where
  compare_self := show List.compareLex cmp _ _ = .eq from ReflCmp.compare_self

instance [OrientedCmp cmp] : OrientedCmp (comparePadded cmp z) where
  eq_swap {x y} := by
    unfold comparePadded
    rw [Nat.max_comm y.length x.length]
    exact OrientedCmp.eq_swap

instance [TransCmp cmp] : TransCmp (comparePadded cmp z) where
  isLE_trans {x y w} hxy hyw := by
    -- all three at one length
    have hx : x.length ≤ max x.length (max y.length w.length) := Nat.le_max_left _ _
    have hy : y.length ≤ max x.length (max y.length w.length) := by omega
    have hw : w.length ≤ max x.length (max y.length w.length) := by omega
    rw [← compareLex_pad hx hy] at hxy
    rw [← compareLex_pad hy hw] at hyw
    rw [← compareLex_pad hx hw]
    exact TransCmp.isLE_trans hxy hyw

/-- **Padding at the end does not count.** -/
theorem comparePadded_append [ReflCmp cmp] (x y : List α) (k : ℕ) :
    comparePadded cmp z (x ++ List.replicate k z) y = comparePadded cmp z x y := by
  have hx : x.length ≤ max (x.length + k) y.length := by omega
  have hxk : (x ++ List.replicate k z).length ≤ max (x.length + k) y.length := by
    rw [List.length_append, List.length_replicate]
    exact Nat.le_max_left _ _
  rw [← compareLex_pad hx (Nat.le_max_right _ _), ← compareLex_pad hxk (Nat.le_max_right _ _)]
  have hpad : pad z (max (x.length + k) y.length) (x ++ List.replicate k z) =
      pad z (max (x.length + k) y.length) x := by
    unfold pad
    rw [List.append_assoc, ← List.replicate_add, List.length_append, List.length_replicate]
    congr 2
    omega
  rw [hpad]

end PhReactor.Lib
