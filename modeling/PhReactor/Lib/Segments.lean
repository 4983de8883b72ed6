/-
  A list kept in SEGMENTS, the newest in slot 0 and the oldest in slot `k`.

  `joined k seg` is the whole list, oldest first.  It stays what it is when a segment moves up
  (`joined_move`); it grows at the end of slot 0 (`joined_grow`); clearing slot `k` takes its
  beginning (`joined_clear`), and so does moving all of them up (`joined_shift`).
-/
import Mathlib.Data.List.Basic
import Mathlib.Logic.Function.Basic

namespace PhReactor.Lib

variable {α : Type*}

/-- The segments one after the other, from slot `k` down to slot 0. -/
def joined : ℕ → (ℕ → List α) → List α
  | 0, seg => seg 0
  | k + 1, seg => seg (k + 1) ++ joined k seg

theorem joined_congr {k : ℕ} {seg seg' : ℕ → List α} (h : ∀ n ≤ k, seg n = seg' n) :
    joined k seg = joined k seg' := by
  induction k with
  | zero => exact h 0 (Nat.le_refl _)
  | succ k ih =>
    unfold joined
    rw [h (k + 1) (Nat.le_refl _), ih fun n hn => h n (Nat.le_succ_of_le hn)]

/-- What is appended to the newest segment is appended to the list. -/
theorem joined_grow (k : ℕ) (seg : ℕ → List α) (l : List α) :
    joined k (Function.update seg 0 (seg 0 ++ l)) = joined k seg ++ l := by
  induction k with
  | zero =>
    unfold joined
    rw [Function.update_self]
  | succ k ih =>
    unfold joined
    rw [Function.update_of_ne (Nat.succ_ne_zero k), ih, List.append_assoc]

/-- Clearing the oldest segment takes the beginning of the list. -/
theorem joined_clear (k : ℕ) (seg : ℕ → List α) :
    joined k seg = seg k ++ joined k (Function.update seg k []) := by
  cases k with
  | zero =>
    unfold joined
    rw [Function.update_self, List.append_nil]
  | succ k =>
    unfold joined
    rw [Function.update_self, List.nil_append]
    congr 1
    refine joined_congr fun n hn => ?_
    rw [Function.update_of_ne (by omega)]

/-- **A segment moves up**, behind what is in the slot above it. -/
theorem joined_move {k n : ℕ} (seg : ℕ → List α) (hn : n < k) :
    joined k (Function.update (Function.update seg n []) (n + 1) (seg (n + 1) ++ seg n)) =
      joined k seg := by
  induction k with
  | zero => omega
  | succ k ih =>
    unfold joined
    by_cases hk : n = k
    · -- the two slots are the first two of the list
      subst hk
      have hbelow : joined n (Function.update (Function.update seg n []) (n + 1)
          (seg (n + 1) ++ seg n)) = joined n (Function.update seg n []) :=
        joined_congr fun i hi => Function.update_of_ne (by omega) _ _
      rw [Function.update_self, hbelow, List.append_assoc, ← joined_clear]
    · rw [Function.update_of_ne (by omega), Function.update_of_ne (by omega), ih (by omega)]

/-- **Every segment moves up**: the oldest is gone, and the new one is in slot 0. -/
theorem joined_shift (k : ℕ) {seg seg' : ℕ → List α} (h : ∀ n ≤ k, seg' (n + 1) = seg n) :
    joined (k + 1) seg' = joined k seg ++ seg' 0 := by
  induction k with
  | zero =>
    unfold joined
    rw [h 0 (Nat.le_refl _)]
    rfl
  | succ k ih =>
    rw [show joined (k + 2) seg' = seg' (k + 2) ++ joined (k + 1) seg' from rfl,
      ih fun n hn => h n (Nat.le_succ_of_le hn), h (k + 1) (Nat.le_refl _), ← List.append_assoc]
    rfl

end PhReactor.Lib
