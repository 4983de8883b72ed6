/-
  Scanning a list for a GREATEST item: a new one takes over only when it is strictly greater.

  `gt` need not decide between any two items; it is enough that it is asymmetric and that "not
  greater" is transitive on the items in question.  Then nothing exceeds the result
  (`greatest_spec`); among equals the first one wins.
-/
import Mathlib.Tactic.TypeStar
import Mathlib.Data.List.Basic

namespace PhReactor.Lib

variable {α : Type*}

/-- The scan, with the best item so far. -/
def greatest (gt : α → α → Bool) : Option α → List α → Option α
  | best, [] => best
  | none, x :: l => greatest gt (some x) l
  | some b, x :: l => greatest gt (some (if gt x b then x else b)) l

variable {gt : α → α → Bool} {P : α → Prop}

theorem greatest_some_cons (b x : α) (l : List α) :
    greatest gt (some b) (x :: l) = greatest gt (if gt x b then some x else some b) l := by
  rw [greatest, apply_ite some]

/-- **The result is one of the items, and none of them exceeds it.** -/
theorem greatest_spec (hasymm : ∀ x y, P x → P y → gt x y = true → gt y x = false)
    (htrans : ∀ x y w, P x → P y → P w → gt x y = false → gt y w = false → gt x w = false)
    {l : List α} (hl : ∀ x ∈ l, P x) {best : Option α} (hbest : ∀ b, best = some b → P b)
    {r : α} (hr : greatest gt best l = some r) :
    (best = some r ∨ r ∈ l) ∧ ∀ x, best = some x ∨ x ∈ l → gt x r = false := by
  have hirrefl : ∀ x, P x → gt x x = false := by
    intro x hx
    cases hgt : gt x x with
    | false => rfl
    | true => exact hgt.symm.trans (hasymm x x hx hx hgt)
  induction l generalizing best with
  | nil =>
    obtain rfl : best = some r := by cases best <;> exact hr
    refine ⟨Or.inl rfl, fun x hx => ?_⟩
    obtain rfl := Option.some.inj (hx.resolve_right List.not_mem_nil)
    exact hirrefl r (hbest r rfl)
  | cons y l ih =>
    obtain ⟨hy, hl⟩ := List.forall_mem_cons.mp hl
    cases best with
    | none =>
      obtain ⟨hmem, hle⟩ := ih hl (fun b hb => Option.some.inj hb ▸ hy) hr
      refine ⟨Or.inr (List.mem_cons.mpr (hmem.imp (fun h => (Option.some.inj h).symm) id)), ?_⟩
      rintro x (hx | hx)
      · cases hx
      · exact hle x ((List.mem_cons.mp hx).imp (fun h => congrArg some h.symm) id)
    | some b =>
      have hb := hbest b rfl
      -- the better one of the two exceeds neither
      have hkeep : P (if gt y b then y else b) ∧ gt b (if gt y b then y else b) = false ∧
          gt y (if gt y b then y else b) = false := by
        cases hgt : gt y b with
        | true => exact ⟨hy, hasymm y b hy hb hgt, hirrefl y hy⟩
        | false => exact ⟨hb, hirrefl b hb, hgt⟩
      obtain ⟨hP, hble, hyle⟩ := hkeep
      obtain ⟨hmem, hle⟩ := ih hl (fun c hc => Option.some.inj hc ▸ hP) hr
      have hPr : P r := by
        rcases hmem with h | h
        · exact Option.some.inj h ▸ hP
        · exact hl r h
      have hbound := hle _ (Or.inl rfl)
      refine ⟨?_, ?_⟩
      · rcases hmem with h | h
        · have hr' := Option.some.inj h
          split at hr'
          · exact Or.inr (hr' ▸ List.mem_cons_self)
          · exact Or.inl (congrArg some hr')
        · exact Or.inr (List.mem_cons_of_mem y h)
      · rintro x (hx | hx)
        · obtain rfl := Option.some.inj hx
          exact htrans _ _ r hb hP hPr hble hbound
        · rcases List.mem_cons.mp hx with rfl | hx
          · exact htrans _ _ r hy hP hPr hyle hbound
          · exact hle x (Or.inr hx)

/-- There is a result unless there is no item. -/
theorem greatest_isSome {l : List α} {best : Option α} :
    (greatest gt best l).isSome = (best.isSome || !l.isEmpty) := by
  induction l generalizing best with
  | nil => cases best <;> rfl
  | cons y l ih =>
    cases best with
    | none =>
      rw [greatest, ih]
      rfl
    | some b =>
      rw [greatest, ih]
      rfl

end PhReactor.Lib
