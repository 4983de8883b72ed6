/-
  An index over labelled things.

  Things `ι` carry labels `κ`, several of them possibly the SAME one; an index sends a label to one
  of the things that carry it.  `Indexes idx label` says that it does so for every label in use and
  for no other.  The rules say what has to hold of a thing that gets, changes or loses its label for
  the index to stay right: it must not be the one its OLD label leads to, unless it keeps that label
  or, losing it, was the only thing to carry it.
-/
import Mathlib.Logic.Function.Basic

namespace PhReactor.Lib

variable {κ ι : Type*}

/-- The index leads from each label in use to a thing that carries it, and from no other. -/
structure Indexes (idx : κ → Option ι) (label : ι → Option κ) : Prop where
  sound : ∀ k i, idx k = some i → label i = some k
  complete : ∀ i k, label i = some k → (idx k).isSome = true

variable {idx : κ → Option ι} {label : ι → Option κ}

/-- What is found under a label. -/
theorem Indexes.isSome_iff (h : Indexes idx label) (k : κ) :
    (idx k).isSome = true ↔ ∃ i, label i = some k := by
  constructor
  · intro hk
    obtain ⟨i, hi⟩ := Option.isSome_iff_exists.mp hk
    exact ⟨i, h.sound k i hi⟩
  · rintro ⟨i, hi⟩
    exact h.complete i k hi

variable [DecidableEq ι]

/-- `i` gets the label `k`, and the index leads from `k` to `i`. -/
theorem Indexes.put [DecidableEq κ] (h : Indexes idx label) {i : ι} {k : κ}
    (hold : ∀ k', idx k' = some i → k' = k) :
    Indexes (Function.update idx k (some i)) (Function.update label i (some k)) := by
  constructor
  · intro k' j hj
    by_cases hk : k' = k
    · subst hk
      rw [Function.update_self] at hj
      rw [← Option.some.inj hj, Function.update_self]
    · rw [Function.update_of_ne hk] at hj
      have hne : j ≠ i := by
        rintro rfl
        exact hk (hold k' hj)
      rw [Function.update_of_ne hne]
      exact h.sound k' j hj
  · intro j k' hj
    by_cases hk : k' = k
    · rw [hk, Function.update_self]
      rfl
    · rw [Function.update_of_ne hk]
      by_cases hji : j = i
      · subst hji
        rw [Function.update_self] at hj
        exact absurd (Option.some.inj hj).symm hk
      · rw [Function.update_of_ne hji] at hj
        exact h.complete j k' hj

/-- `i`, to which the index leads from nowhere, loses its label. -/
theorem Indexes.drop (h : Indexes idx label) {i : ι} (hold : ∀ k, idx k ≠ some i) :
    Indexes idx (Function.update label i none) := by
  constructor
  · intro k j hj
    have hne : j ≠ i := by
      rintro rfl
      exact hold k hj
    rw [Function.update_of_ne hne]
    exact h.sound k j hj
  · intro j k hj
    by_cases hji : j = i
    · subst hji
      rw [Function.update_self] at hj
      cases hj
    · rw [Function.update_of_ne hji] at hj
      exact h.complete j k hj

/-- `i` loses the label it alone carries, and the index forgets it. -/
theorem Indexes.erase [DecidableEq κ] (h : Indexes idx label) {i : ι} {k : κ}
    (hi : idx k = some i) (halone : ∀ j, label j = some k → j = i) :
    Indexes (Function.update idx k none) (Function.update label i none) := by
  constructor
  · intro k' j hj
    by_cases hk : k' = k
    · subst hk
      rw [Function.update_self] at hj
      cases hj
    · rw [Function.update_of_ne hk] at hj
      have hne : j ≠ i := by
        rintro rfl
        have hlabel := h.sound k' j hj
        rw [h.sound k j hi] at hlabel
        exact hk (Option.some.inj hlabel).symm
      rw [Function.update_of_ne hne]
      exact h.sound k' j hj
  · intro j k' hj
    by_cases hji : j = i
    · subst hji
      rw [Function.update_self] at hj
      cases hj
    · rw [Function.update_of_ne hji] at hj
      have hk : k' ≠ k := by
        rintro rfl
        exact hji (halone j hj)
      rw [Function.update_of_ne hk]
      exact h.complete j k' hj

end PhReactor.Lib
