/-
  Vector clocks as a join semilattice (`VecClock` of `src/doc.rs`).

  A clock is a sparse map: an origin that is missing and one with the counter zero mean the same.
  So three relations have to be told apart: equality of the maps, equality of the counters
  (`SameCounters`) and mutual covering.

  1. Covering is the pointwise order of the counters (`covers_iff_le`).  It is a preorder, and
     mutual covering is equality of the counters (`covers_antisymm_iff`).

  2. The merge is a least upper bound (`isLUB_merge`).  Up to mutual covering the clocks are a join
     semilattice, and the merge is its join (`toClass_merge`).

  3. The gaps between two clocks are what one has to be raised by to become their merge
     (`sameCounters_raise_gaps`).
-/
import Mathlib.Order.Antisymmetrization
import Mathlib.Order.Bounds.Basic
import PhReactor.Doc

namespace PhReactor.VecClock

/-- The entries of `other` that exceed `self`: the gaps that a peer is missing. -/
def gaps (self other : VecClock) : List (Origin × U64) :=
  other.counts.toList.filter fun (k, v) => self.get k < v

/-- The counters of the listed origins set to the listed values. -/
def raise (c : VecClock) (l : List (Origin × U64)) : VecClock :=
  ⟨l.foldl (fun m (k, v) => m.insert k v) c.counts⟩

/-- Equal counters for every origin. -/
def SameCounters (a b : VecClock) : Prop := ∀ o, a.get o = b.get o

/-! ## Covering -/

/-- A clock is below those that cover it. -/
instance : Preorder VecClock := Preorder.lift get

variable {a b c : VecClock} {o : Origin}

theorem covers_iff_le : a.covers b = true ↔ b ≤ a := covers_iff

/-- Mutual covering is equality of the counters. -/
theorem covers_antisymm_iff : a.covers b = true ∧ b.covers a = true ↔ a.SameCounters b := by
  rw [covers_iff, covers_iff]
  constructor
  · rintro ⟨hab, hba⟩ o
    exact le_antisymm (hba o) (hab o)
  · intro h
    exact ⟨fun o => (h o).ge, fun o => (h o).le⟩

/-! ## The merge -/

/-- **The merge is a least upper bound.** -/
theorem covers_merge_iff : c.covers (a.merge b) = true ↔ c.covers a = true ∧ c.covers b = true := by
  rw [covers_iff, covers_iff, covers_iff, ← forall_and]
  refine forall_congr' fun o => ?_
  rw [get_merge]
  exact max_le_iff

theorem isLUB_merge (a b : VecClock) : IsLUB {a, b} (a.merge b) := by
  constructor
  · rintro x (rfl | rfl)
    · exact covers_iff_le.mp (covers_merge_left _ _)
    · exact covers_iff_le.mp (covers_merge_right _ _)
  · intro x hx
    refine covers_iff_le.mp (covers_merge_iff.mpr ⟨?_, ?_⟩)
    · exact covers_iff_le.mpr (hx (Set.mem_insert a _))
    · exact covers_iff_le.mpr (hx (Set.mem_insert_of_mem a rfl))

/-- The clocks up to mutual covering. -/
abbrev Class := Antisymmetrization VecClock (· ≤ ·)

def toClass (a : VecClock) : Class := toAntisymmetrization (· ≤ ·) a

theorem toClass_eq_iff : a.toClass = b.toClass ↔ a.SameCounters b := by
  rw [← covers_antisymm_iff, covers_iff_le, covers_iff_le, and_comm]
  exact Quotient.eq

/-- The join of two classes. -/
def Class.sup : Class → Class → Class :=
  Quotient.map₂ merge fun a a' ha b b' hb => by
    have hsame := toClass_eq_iff.mp (Quotient.sound ha)
    have hsame' := toClass_eq_iff.mp (Quotient.sound hb)
    refine Quotient.exact (toClass_eq_iff.mpr fun o => ?_)
    rw [get_merge, get_merge, hsame o, hsame' o]

instance : SemilatticeSup Class where
  sup := Class.sup
  le_sup_left x y := by
    induction x, y using Quotient.inductionOn₂ with
    | _ a b => exact (isLUB_merge a b).1 (Set.mem_insert a _)
  le_sup_right x y := by
    induction x, y using Quotient.inductionOn₂ with
    | _ a b => exact (isLUB_merge a b).1 (Set.mem_insert_of_mem a rfl)
  sup_le x y z := by
    induction x, y, z using Quotient.inductionOn₃ with
    | _ a b c =>
      intro ha hb
      refine (isLUB_merge a b).2 ?_
      rintro x (rfl | rfl)
      · exact ha
      · exact hb

/-- **The merge is the join** of the semilattice. -/
theorem toClass_merge (a b : VecClock) : (a.merge b).toClass = a.toClass ⊔ b.toClass := rfl

/-! ## Gaps -/

/-- **There are no gaps exactly when the clock covers the other.** -/
theorem gaps_eq_nil_iff : a.gaps b = [] ↔ a.covers b = true := by
  unfold gaps covers
  rw [List.filter_eq_nil_iff, List.all_eq_true]
  refine forall₂_congr fun p _ => ?_
  simp

theorem mem_gaps {n : U64} : (o, n) ∈ a.gaps b ↔ b.counts[o]? = some n ∧ a.get o < n := by
  unfold gaps
  rw [List.mem_filter, Lib.mem_toList]
  simp

theorem get_raise_of_mem {l : List (Origin × U64)} (hl : l.Pairwise fun p q => p.1 ≠ q.1) {n : U64}
    (h : (o, n) ∈ l) : (a.raise l).get o = n := by
  show (l.foldl (fun m (k, v) => m.insert k (id v)) a.counts)[o]?.getD 0 = n
  rw [Lib.getElem?_foldl_insert_of_mem hl h]
  rfl

theorem get_raise_of_ne {l : List (Origin × U64)} (h : ∀ p ∈ l, p.1 ≠ o) :
    (a.raise l).get o = a.get o := by
  show (l.foldl (fun m (k, v) => m.insert k (id v)) a.counts)[o]?.getD 0 = a.get o
  rw [Lib.getElem?_foldl_insert_of_ne h]
  rfl

/-- **Raised by its gaps to another, a clock is the merge with it.** -/
theorem sameCounters_raise_gaps (a b : VecClock) :
    (a.raise (a.gaps b)).SameCounters (a.merge b) := by
  intro o
  have hdistinct : (a.gaps b).Pairwise fun p q => p.1 ≠ q.1 :=
    (Lib.distinct_toList b.counts).sublist List.filter_sublist
  rw [get_merge]
  by_cases hgap : a.get o < b.get o
  · have hmem : (o, b.get o) ∈ a.gaps b := by
      refine mem_gaps.mpr ⟨?_, hgap⟩
      unfold get at hgap ⊢
      cases hb : b.counts[o]? with
      | none =>
        rw [hb] at hgap
        exact absurd hgap (Fin.not_lt_zero _)
      | some n => rfl
    rw [get_raise_of_mem hdistinct hmem, max_eq_right hgap.le]
  · rw [get_raise_of_ne, max_eq_left (not_lt.mp hgap)]
    rintro ⟨o', n⟩ hmem rfl
    obtain ⟨hb, hlt⟩ := mem_gaps.mp hmem
    refine hgap ?_
    rw [show b.get o' = n by unfold get; rw [hb]; rfl]
    exact hlt

/-! ## All together -/

theorem SameCounters.of_eq (h : a = b) : a.SameCounters b := fun _ => congrArg (get · _) h

/-- **Vector clocks form a join semilattice under `covers`.** -/
theorem covers_semilattice (a b c : VecClock) :
    (a.covers a = true ∧
      (a.covers b = true ∧ b.covers c = true → a.covers c = true) ∧
      (a.covers b = true ∧ b.covers a = true ↔ a.SameCounters b)) ∧
    ((a.merge b).covers a = true ∧ (a.merge b).covers b = true ∧
      (c.covers a = true ∧ c.covers b = true → c.covers (a.merge b) = true)) ∧
    ((a.merge b).SameCounters (b.merge a) ∧
      ((a.merge b).merge c).SameCounters (a.merge (b.merge c)) ∧
      (a.merge a).SameCounters a) ∧
    (a.gaps b = [] ↔ a.covers b = true) ∧
    (a.raise (a.gaps b)).SameCounters (a.merge b) :=
  ⟨⟨covers_refl a, fun h => covers_trans h.1 h.2, covers_antisymm_iff⟩,
    ⟨covers_merge_left a b, covers_merge_right a b, covers_merge_iff.mpr⟩,
    ⟨.of_eq (merge_comm a b), .of_eq (merge_assoc a b c), .of_eq (merge_self a)⟩,
    gaps_eq_nil_iff, sameCounters_raise_gaps a b⟩

end PhReactor.VecClock
