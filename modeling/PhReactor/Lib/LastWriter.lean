/-
  A REGISTER in which an item either takes over or is dropped.

  A register shows only its current state.  An incoming item TAKES the state, which then becomes
  the item's own, or it leaves no trace at all — so what a sequence of items leaves behind may
  depend on their order, even when among themselves the items take over from one another in the
  order of a stamp (`ByStamp`).

  1. From the state of an item, the item with the largest stamp wins (`ByStamp.foldl_put`).

  2. From any state, it wins whenever it takes THAT state (`ByStamp.foldl_last`), however the items
     are ordered and repeated.

  3. That is also necessary: all orders of a set of items agree exactly when none of them takes the
     first state, or the one with the largest stamp does (`ByStamp.orders_agree_iff`).
-/
import Mathlib.Data.List.Perm.Basic
import Mathlib.Data.List.Nodup
import Mathlib.Data.Set.Finite.Lemmas

namespace PhReactor.Lib

variable {α κ σ : Type*} [LinearOrder κ]

/-- When an item takes the state, and what the state then is. -/
structure Register (α σ : Type*) where
  takes : σ → α → Bool
  put : α → σ

namespace Register

/-- One item arrives. -/
def step (R : Register α σ) (s : σ) (x : α) : σ := if R.takes s x then R.put x else s

/-- Among the items of `S`, an item takes over from another exactly when its stamp is larger. -/
structure ByStamp (R : Register α σ) (stamp : α → κ) (S : Set α) : Prop where
  inj : ∀ x ∈ S, ∀ y ∈ S, stamp x = stamp y → x = y
  takes_put : ∀ x ∈ S, ∀ y ∈ S, R.takes (R.put x) y = true ↔ stamp x < stamp y

variable {R : Register α σ} {stamp : α → κ} {S : Set α}

theorem step_of_takes {s : σ} {x : α} (h : R.takes s x = true) : R.step s x = R.put x := if_pos h

theorem step_of_not_takes {s : σ} {x : α} (h : ¬ R.takes s x = true) : R.step s x = s := if_neg h

/-- An item that has just arrived does not take the state again. -/
theorem not_takes_step_self {s : σ} {x : α} (h : ¬ R.takes (R.put x) x = true) :
    ¬ R.takes (R.step s x) x = true := by
  by_cases hx : R.takes s x = true
  · rw [step_of_takes hx]
    exact h
  · rw [step_of_not_takes hx]
    exact hx

/-- An item that does not take the state does not take it after an item that it does not replace
    either. -/
theorem not_takes_step {s : σ} {x y : α} (hs : ¬ R.takes s x = true)
    (hy : ¬ R.takes (R.put y) x = true) : ¬ R.takes (R.step s y) x = true := by
  by_cases ht : R.takes s y = true
  · rw [step_of_takes ht]
    exact hy
  · rw [step_of_not_takes ht]
    exact hs

/-- Items none of which takes the state. -/
theorem foldl_of_not_takes {s : σ} : ∀ l : List α, (∀ x ∈ l, ¬ R.takes s x = true) →
    l.foldl R.step s = s := by
  intro l
  induction l with
  | nil => exact fun _ => rfl
  | cons x l ih =>
    intro h
    rw [List.foldl_cons, step_of_not_takes (h x List.mem_cons_self)]
    exact ih fun y hy => h y (List.mem_cons_of_mem x hy)

/-- From the state of an item the register only ever shows the state of an item. -/
theorem foldl_put_mem (l : List α) : ∀ x : α, ∃ y ∈ x :: l, l.foldl R.step (R.put x) = R.put y := by
  induction l with
  | nil => exact fun x => ⟨x, List.mem_cons_self, rfl⟩
  | cons z l ih =>
    intro x
    rw [List.foldl_cons]
    by_cases hz : R.takes (R.put x) z = true
    · rw [step_of_takes hz]
      obtain ⟨y, hy, heq⟩ := ih z
      exact ⟨y, List.mem_cons_of_mem x hy, heq⟩
    · rw [step_of_not_takes hz]
      obtain ⟨y, hy, heq⟩ := ih x
      refine ⟨y, ?_, heq⟩
      rcases List.mem_cons.mp hy with rfl | hy
      · exact List.mem_cons_self
      · exact List.mem_cons_of_mem x (List.mem_cons_of_mem z hy)

namespace ByStamp

/-- **From the state of an item the largest stamp wins.** -/
theorem foldl_put (h : R.ByStamp stamp S) {m : α} : ∀ (l : List α) (x : α),
    (∀ y ∈ x :: l, y ∈ S) → m ∈ x :: l → (∀ y ∈ x :: l, stamp y ≤ stamp m) →
    l.foldl R.step (R.put x) = R.put m := by
  intro l
  induction l with
  | nil =>
    intro x _ hm _
    rw [List.mem_singleton.mp hm]
    rfl
  | cons y l ih =>
    intro x hS hm hmax
    have hx : x ∈ S := hS x List.mem_cons_self
    have hy : y ∈ S := hS y (List.mem_cons_of_mem x List.mem_cons_self)
    rw [List.foldl_cons]
    by_cases hlt : stamp x < stamp y
    · rw [step_of_takes ((h.takes_put x hx y hy).mpr hlt)]
      refine ih y (fun z hz => hS z (List.mem_cons_of_mem x hz)) ?_
        (fun z hz => hmax z (List.mem_cons_of_mem x hz))
      rcases List.mem_cons.mp hm with rfl | hm
      · exact absurd hlt (not_lt.mpr (hmax y (List.mem_cons_of_mem m List.mem_cons_self)))
      · exact hm
    · rw [step_of_not_takes fun ht => hlt ((h.takes_put x hx y hy).mp ht)]
      have hsub : ∀ z ∈ x :: l, z ∈ x :: y :: l := by
        intro z hz
        rcases List.mem_cons.mp hz with rfl | hz
        · exact List.mem_cons_self
        · exact List.mem_cons_of_mem x (List.mem_cons_of_mem y hz)
      refine ih x (fun z hz => hS z (hsub z hz)) ?_ (fun z hz => hmax z (hsub z hz))
      rcases List.mem_cons.mp hm with rfl | hm
      · exact List.mem_cons_self
      · rcases List.mem_cons.mp hm with rfl | hm
        · -- the winner is `y`, and yet does not take over from `x`: they are the same item
          have hxy : stamp x = stamp m :=
            le_antisymm (hmax x List.mem_cons_self) (not_lt.mp hlt)
          rw [h.inj x hx m hy hxy]
          exact List.mem_cons_self
        · exact List.mem_cons_of_mem x hm

/-- **An item that takes the first state and has the largest stamp wins**, whatever the order and
    however often the items are repeated. -/
theorem foldl_last (h : R.ByStamp stamp S) {s : σ} {m : α} (hm : R.takes s m = true) :
    ∀ l : List α, (∀ y ∈ l, y ∈ S) → m ∈ l → (∀ y ∈ l, stamp y ≤ stamp m) →
    l.foldl R.step s = R.put m := by
  intro l
  induction l with
  | nil => exact fun _ hmem _ => absurd hmem List.not_mem_nil
  | cons x l ih =>
    intro hS hmem hmax
    rw [List.foldl_cons]
    by_cases hx : R.takes s x = true
    · rw [step_of_takes hx]
      exact h.foldl_put l x hS hmem hmax
    · rw [step_of_not_takes hx]
      refine ih (fun y hy => hS y (List.mem_cons_of_mem x hy)) ?_
        fun y hy => hmax y (List.mem_cons_of_mem x hy)
      rcases List.mem_cons.mp hmem with rfl | hmem
      · exact absurd hm hx
      · exact hmem

end ByStamp

/-- Two items can be put in front of a list of distinct items, in either order. -/
theorem exists_perm_cons_cons {l : List α} (hl : l.Nodup) {x y : α} (hx : x ∈ l) (hy : y ∈ l)
    (hxy : x ≠ y) : ∃ r : List α, (x :: y :: r).Perm l ∧ x ∉ y :: r := by
  classical
  have hxl : (x :: l.erase x).Perm l := (List.perm_cons_erase hx).symm
  have hy' : y ∈ l.erase x := (List.mem_erase_of_ne hxy.symm).mpr hy
  have hyl : (y :: (l.erase x).erase y).Perm (l.erase x) := (List.perm_cons_erase hy').symm
  refine ⟨(l.erase x).erase y, (hyl.cons x).trans hxl, ?_⟩
  rw [hyl.mem_iff]
  exact fun hmem => (hl.mem_erase_iff.mp hmem).1 rfl

/-- **When all orders agree.**  The largest stamp must not be dropped by the first state, unless
    everything is. -/
theorem ByStamp.orders_agree_iff (h : R.ByStamp stamp S)
    (hput : ∀ x ∈ S, ∀ y ∈ S, R.put x = R.put y → x = y) (s : σ) {l : List α} (hl : l.Nodup)
    (hS : ∀ x ∈ l, x ∈ S) :
    (∀ l₁ l₂ : List α, l₁.Perm l → l₂.Perm l → l₁.foldl R.step s = l₂.foldl R.step s) ↔
      (∀ x ∈ l, ¬ R.takes s x = true) ∨
        ∃ m ∈ l, (∀ y ∈ l, stamp y ≤ stamp m) ∧ R.takes s m = true := by
  constructor
  · intro hagree
    by_cases hnone : ∀ x ∈ l, ¬ R.takes s x = true
    · exact Or.inl hnone
    · right
      obtain ⟨b, hb, hbt⟩ : ∃ b ∈ l, R.takes s b = true := by
        by_contra hno
        exact hnone fun x hx ht => hno ⟨x, hx, ht⟩
      obtain ⟨m, hm, hmax⟩ : ∃ m ∈ l, ∀ y ∈ l, stamp y ≤ stamp m :=
        Set.exists_max_image {x | x ∈ l} stamp (List.finite_toSet l) ⟨b, hb⟩
      refine ⟨m, hm, hmax, ?_⟩
      by_contra hmt
      have hmb : m ≠ b := fun heq => hmt (heq ▸ hbt)
      -- with `m` in front it is dropped; with `b` in front `m` wins
      obtain ⟨r, hperm, hnot⟩ := exists_perm_cons_cons hl hm hb hmb
      have hswap : (b :: m :: r).Perm l := (List.Perm.swap m b r).trans hperm
      have hmem : ∀ y ∈ b :: m :: r, y ∈ l := fun y hy => hswap.mem_iff.mp hy
      have hlate : (b :: m :: r).foldl R.step s = R.put m :=
        calc (b :: m :: r).foldl R.step s
            = (m :: r).foldl R.step (R.put b) := by rw [List.foldl_cons, step_of_takes hbt]
          _ = R.put m := h.foldl_put (m :: r) b (fun y hy => hS y (hmem y hy)) (by simp)
              fun y hy => hmax y (hmem y hy)
      obtain ⟨y, hy, hearly⟩ := foldl_put_mem (R := R) r b
      have heq : R.put m = R.put y := by
        rw [← hlate, ← hearly, hagree _ _ hswap hperm, List.foldl_cons, step_of_not_takes hmt,
          List.foldl_cons, step_of_takes hbt]
      have hyl : y ∈ l := hperm.mem_iff.mp (List.mem_cons_of_mem m hy)
      have hmy : m = y := hput m (hS m hm) y (hS y hyl) heq
      exact hnot (hmy ▸ hy)
  · rintro (hnone | ⟨m, hm, hmax, hmt⟩) l₁ l₂ h₁ h₂
    · rw [foldl_of_not_takes l₁ fun x hx => hnone x (h₁.mem_iff.mp hx),
        foldl_of_not_takes l₂ fun x hx => hnone x (h₂.mem_iff.mp hx)]
    · have hwins : ∀ l' : List α, l'.Perm l → l'.foldl R.step s = R.put m := fun l' hp =>
        h.foldl_last hmt l' (fun y hy => hS y (hp.mem_iff.mp hy)) (hp.mem_iff.mpr hm)
          fun y hy => hmax y (hp.mem_iff.mp hy)
      rw [hwins l₁ h₁, hwins l₂ h₂]

end Register

end PhReactor.Lib
