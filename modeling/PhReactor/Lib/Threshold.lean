/-
  Counting members against a THRESHOLD.

  1. A group with members `L` is asked by the people `S`: do at least `n` of them belong to it.  Two
     groups give the same answers to every nonempty `S` just when they have the same members, or are
     both too small to ever say yes (`sameVerdicts_iff`).

  2. A list is counted in one pass that notes each wanted element the first time it comes by.  The
     pass ends with as many notes as there are distinct wanted elements (`length_foldl_note`), so
     neither order nor repetition of the list matters.
-/
import Mathlib.Data.Finset.Card

namespace PhReactor.Lib

variable {α : Type*} [DecidableEq α]

/-- The two groups answer alike, whoever asks. -/
def SameVerdicts (n : ℕ) (L L' : Finset α) : Prop :=
  ∀ S : Finset α, S.Nonempty → (n ≤ (S ∩ L).card ↔ n ≤ (S ∩ L').card)

theorem SameVerdicts.symm {n : ℕ} {L L' : Finset α} (h : SameVerdicts n L L') :
    SameVerdicts n L' L := fun S hS => (h S hS).symm

/-- A group that can say yes at all has its members in every group that answers alike: put each of
    them among `n` members that ask. -/
theorem SameVerdicts.subset {n : ℕ} {L L' : Finset α} (h : SameVerdicts n L L') (hn : 0 < n)
    (hL : n ≤ L.card) : L ⊆ L' := by
  intro x hx
  obtain ⟨T, hxT, hTL, hcard⟩ := Finset.exists_subsuperset_card_eq
    (Finset.singleton_subset_iff.mpr hx) (by rw [Finset.card_singleton]; exact hn) hL
  have hyes : n ≤ (T ∩ L).card := by
    rw [Finset.inter_eq_left.mpr hTL, hcard]
  have hyes' := (h T ⟨x, Finset.singleton_subset_iff.mp hxT⟩).mp hyes
  -- all of them belong to the other group
  have hall : T ∩ L' = T := by
    apply Finset.eq_of_subset_of_card_le Finset.inter_subset_left
    omega
  exact Finset.inter_eq_left.mp hall (Finset.singleton_subset_iff.mp hxT)

/-- **When two groups answer alike.** -/
theorem sameVerdicts_iff {n : ℕ} {L L' : Finset α} : SameVerdicts n L L' ↔
    n = 0 ∨ L = L' ∨ (L.card < n ∧ L'.card < n) := by
  constructor
  · intro h
    rcases Nat.eq_zero_or_pos n with hn | hn
    · exact Or.inl hn
    refine Or.inr ?_
    by_cases hL : n ≤ L.card
    · have hsub := h.subset hn hL
      exact Or.inl (hsub.antisymm (h.symm.subset hn (hL.trans (Finset.card_le_card hsub))))
    · by_cases hL' : n ≤ L'.card
      · exact absurd (hL'.trans (Finset.card_le_card (h.symm.subset hn hL'))) hL
      · exact Or.inr ⟨by omega, by omega⟩
  · rintro (rfl | rfl | ⟨hL, hL'⟩) S -
    · exact iff_of_true (Nat.zero_le _) (Nat.zero_le _)
    · exact Iff.rfl
    · have hle : (S ∩ L).card ≤ L.card := Finset.card_le_card Finset.inter_subset_right
      have hle' : (S ∩ L').card ≤ L'.card := Finset.card_le_card Finset.inter_subset_right
      exact iff_of_false (by omega) (by omega)

/-! ## Counting each once -/

/-- Note `x` if it is wanted and not noted yet. -/
def note (wanted : α → Bool) (seen : List α) (x : α) : List α :=
  if wanted x && !seen.contains x then seen ++ [x] else seen

variable {wanted : α → Bool}

theorem mem_note {seen : List α} {x y : α} :
    y ∈ note wanted seen x ↔ y ∈ seen ∨ (y = x ∧ wanted x = true) := by
  unfold note
  split
  · next h =>
    rw [Bool.and_eq_true] at h
    rw [List.mem_append, List.mem_singleton, and_iff_left h.1]
  · next h =>
    constructor
    · exact Or.inl
    · rintro (hy | ⟨rfl, hwanted⟩)
      · exact hy
      · -- wanted and not added: it was there
        rw [hwanted, Bool.true_and, Bool.not_eq_true, Bool.not_eq_false'] at h
        exact List.contains_iff_mem.mp h

theorem nodup_note {seen : List α} (hseen : seen.Nodup) (x : α) :
    (note wanted seen x).Nodup := by
  unfold note
  split
  · next h =>
    rw [Bool.and_eq_true, Bool.not_eq_true'] at h
    have hnew : x ∉ seen := fun hx => by
      rw [List.contains_iff_mem.mpr hx] at h
      cases h.2
    exact List.nodup_append.mpr ⟨hseen, List.nodup_singleton x, fun y hy z hz hyz => by
      rw [List.mem_singleton.mp hz] at hyz
      exact hnew (hyz ▸ hy)⟩
  · exact hseen

theorem mem_foldl_note {l : List α} {y : α} : ∀ {seen : List α},
    y ∈ l.foldl (note wanted) seen ↔ y ∈ seen ∨ (y ∈ l ∧ wanted y = true) := by
  induction l with
  | nil => simp
  | cons x l ih =>
    intro seen
    rw [List.foldl_cons, ih, mem_note, List.mem_cons]
    constructor
    · rintro ((hy | ⟨rfl, hwanted⟩) | ⟨hy, hwanted⟩)
      · exact Or.inl hy
      · exact Or.inr ⟨Or.inl rfl, hwanted⟩
      · exact Or.inr ⟨Or.inr hy, hwanted⟩
    · rintro (hy | ⟨rfl | hy, hwanted⟩)
      · exact Or.inl (Or.inl hy)
      · exact Or.inl (Or.inr ⟨rfl, hwanted⟩)
      · exact Or.inr ⟨hy, hwanted⟩

theorem nodup_foldl_note {l : List α} : ∀ {seen : List α}, seen.Nodup →
    (l.foldl (note wanted) seen).Nodup := by
  induction l with
  | nil => exact fun hseen => hseen
  | cons x l ih => exact fun hseen => ih (nodup_note hseen x)

/-- **One pass counts each wanted element once.** -/
theorem length_foldl_note (l : List α) :
    (l.foldl (note wanted) []).length = (l.filter wanted).toFinset.card := by
  rw [← List.toFinset_card_of_nodup (nodup_foldl_note List.nodup_nil)]
  congr 1
  ext y
  rw [List.mem_toFinset, List.mem_toFinset, mem_foldl_note, List.mem_filter]
  simp

end PhReactor.Lib
