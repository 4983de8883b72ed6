/-
  Bursts: so many events within a window of time.

  Times are listed newest first.  A BURST is `k` events of which any two are at most `w` apart; that
  is, they lie in one interval of that length (`burst_iff_interval`).

  A detector that keeps a count and the last time sees less: the length of the CHAIN, in which each
  event is at most `w` after the one before it.

  1. A burst is a chain (`chain_of_burst`).

  2. The other way round fails for three events or more.  `Creep` is the difference: a chain of `k`
     that is no burst.
-/
import Mathlib.Data.List.Basic
import Mathlib.Order.Basic

namespace PhReactor.Lib

variable {w k t u : ℕ} {times : List ℕ}

/-- The newest `k` events, any two of which are at most `w` apart. -/
def Burst (w k : ℕ) (times : List ℕ) : Prop :=
  k ≤ times.length ∧ ∀ t ∈ times.take k, ∀ u ∈ times.take k, t ≤ u + w

instance : Decidable (Burst w k times) := inferInstanceAs (Decidable (_ ∧ _))

/-- How many events, from the newest back, follow one another within `w`. -/
def chain (w : ℕ) : List ℕ → ℕ
  | [] => 0
  | [_] => 1
  | t :: u :: past => if w < t - u then 1 else chain w (u :: past) + 1

/-- The newest `k` follow one another within `w`, and yet do not fit into one window. -/
def Creep (w k : ℕ) (times : List ℕ) : Prop := k ≤ chain w times ∧ ¬ Burst w k times

instance : Decidable (Creep w k times) := inferInstanceAs (Decidable (_ ∧ _))

/-- **A burst lies in one interval of length `w`.** -/
theorem burst_iff_interval :
    Burst w k times ↔ k ≤ times.length ∧ ∃ s, ∀ t ∈ times.take k, s ≤ t ∧ t ≤ s + w := by
  refine and_congr_right fun _ => ?_
  generalize times.take k = l
  constructor
  · intro h
    cases l with
    | nil => exact ⟨0, fun t ht => absurd ht List.not_mem_nil⟩
    | cons a l =>
      -- the interval begins at the earliest event
      obtain ⟨s, hs⟩ := Option.isSome_iff_exists.mp
        (List.isSome_min?_of_ne_nil (List.cons_ne_nil a l))
      obtain ⟨hs, hmin⟩ := List.min?_eq_some_iff.mp hs
      exact ⟨s, fun t ht => ⟨hmin t ht, h t ht s hs⟩⟩
  · rintro ⟨s, hs⟩ t ht u hu
    have hlow := (hs u hu).1
    have hhigh := (hs t ht).2
    omega

/-! ## Bursts are chains -/

/-- Without its newest event a burst is one of fewer. -/
theorem Burst.tail (h : Burst w (k + 1) (t :: times)) : Burst w k times := by
  obtain ⟨hlen, hclose⟩ := h
  rw [List.take_succ_cons] at hclose
  exact ⟨Nat.le_of_succ_le_succ hlen, fun a ha b hb =>
    hclose a (List.mem_cons_of_mem t ha) b (List.mem_cons_of_mem t hb)⟩

/-- **A burst is a chain.** -/
theorem chain_of_burst (h : Burst w k times) : k ≤ chain w times := by
  induction times generalizing k with
  | nil => exact h.1
  | cons t past ih =>
    cases k with
    | zero => exact Nat.zero_le _
    | succ k =>
      cases past with
      | nil => exact h.1
      | cons u past =>
        have hrest := ih h.tail
        unfold chain
        cases k with
        | zero => split <;> omega
        | succ k =>
          -- the two newest are in the burst
          have hclose : t ≤ u + w := h.2 t (by simp) u (by simp)
          rw [if_neg (by omega)]
          omega

/-- Where nothing creeps, the chain says whether there is a burst. -/
theorem chain_iff_burst : (k ≤ chain w times ↔ Burst w k times) ↔ ¬ Creep w k times := by
  constructor
  · rintro h ⟨hchain, hburst⟩
    exact hburst (h.mp hchain)
  · intro h
    refine ⟨fun hchain => ?_, chain_of_burst⟩
    by_contra hburst
    exact h ⟨hchain, hburst⟩

/-! ## The record since the last alarm -/

/-- The events since the last one that was an alarm, where an alarm is a burst. -/
def sinceBurst (w k : ℕ) (past : List ℕ) (t : ℕ) : List ℕ :=
  if Burst w k (t :: past) then [] else t :: past

end PhReactor.Lib
