/-
  Runs of a system whose steps may be blocked.

  `step s i = none` says that `i` is not possible in `s`.  A run from `s₀` is CAREFUL when a
  condition `C` on the state before each step and on the step holds all along.

  1. `CarefulRun.invariant`: what holds at the start, and careful steps keep, holds all along.  The
     invariant may speak of the history, as `Machine.run_invariant` does.

  2. `CarefulRun.mono`: a run that is careful about more is careful about less.

  3. `CarefulRun.unique`: the inputs decide where a run ends; `CarefulRun.of_foldlM` and
     `CarefulRun.of_guarded` compute it.

  4. `CarefulRun.iff_of_trap`: a TRAP is a predicate no step leaves.  Where a step falls into it
     exactly when it is not careful, a run has stayed out of it exactly when it was careful.
-/
import Mathlib.Data.List.Induction

namespace PhReactor.Lib

variable {σ ι : Type*} {step : σ → ι → Option σ} {C D : σ → ι → Prop} {s₀ s s' : σ}
  {ins : List ι} {i : ι}

/-- From `s₀` the inputs lead to a state, and each of them met the condition where it was taken. -/
inductive CarefulRun (step : σ → ι → Option σ) (C : σ → ι → Prop) (s₀ : σ) : List ι → σ → Prop
  | start : CarefulRun step C s₀ [] s₀
  | next {ins : List ι} {s s' : σ} {i : ι} (past : CarefulRun step C s₀ ins s) (careful : C s i)
    (taken : step s i = some s') : CarefulRun step C s₀ (ins ++ [i]) s'

namespace CarefulRun

/-- **An invariant of state and history holds after every careful run.** -/
theorem invariant {I : List ι → σ → Prop} (hstart : I [] s₀)
    (hstep : ∀ past s i s', I past s → C s i → step s i = some s' → I (past ++ [i]) s')
    (h : CarefulRun step C s₀ ins s) : I ins s := by
  induction h with
  | start => exact hstart
  | next _ careful taken ih => exact hstep _ _ _ _ ih careful taken

theorem mono (hle : ∀ s i, C s i → D s i) (h : CarefulRun step C s₀ ins s) :
    CarefulRun step D s₀ ins s := by
  induction h with
  | start => exact .start
  | next _ careful taken ih => exact ih.next (hle _ _ careful) taken

/-- The last step of a run. -/
theorem concat_iff : CarefulRun step C s₀ (ins ++ [i]) s' ↔
    ∃ s, CarefulRun step C s₀ ins s ∧ C s i ∧ step s i = some s' := by
  constructor
  · intro h
    generalize hins : ins ++ [i] = whole at h
    cases h with
    | start => exact absurd hins (by simp)
    | next past careful taken =>
      obtain ⟨rfl, hi⟩ := List.append_inj' hins rfl
      obtain rfl := List.singleton_inj.mp hi
      exact ⟨_, past, careful, taken⟩
  · rintro ⟨s, past, careful, taken⟩
    exact past.next careful taken

/-- **The inputs decide where a run ends.** -/
theorem unique (h : CarefulRun step C s₀ ins s) (h' : CarefulRun step D s₀ ins s') : s = s' := by
  induction h generalizing s' with
  | start =>
    generalize hins : [] = whole at h'
    cases h' with
    | start => rfl
    | next _ _ _ => exact absurd hins (by simp)
  | next _ _ taken ih =>
    obtain ⟨t, past, -, taken'⟩ := concat_iff.mp h'
    obtain rfl := ih past
    exact Option.some.inj (taken.symm.trans taken')

/-- A run takes its inputs one after the other. -/
theorem foldlM_eq (h : CarefulRun step C s₀ ins s) : ins.foldlM step s₀ = some s := by
  induction h with
  | start => rfl
  | next _ _ taken ih =>
    rw [List.foldlM_append, ih]
    simpa using taken

/-- Inputs that are possible one after the other, and always careful. -/
theorem of_foldlM (h : ins.foldlM step s₀ = some s) (hC : ∀ i ∈ ins, ∀ s, C s i) :
    CarefulRun step C s₀ ins s := by
  induction ins using List.reverseRecOn generalizing s with
  | nil =>
    obtain rfl : s₀ = s := Option.some.inj h
    exact .start
  | append_singleton past i ih =>
    rw [List.foldlM_append] at h
    obtain ⟨t, hpast, htaken⟩ := Option.bind_eq_some_iff.mp h
    have hrun := ih hpast fun j hj => hC j (List.mem_append_left _ hj)
    refine hrun.next (hC i (by simp) t) ?_
    simpa using htaken

/-- Inputs that are possible one after the other, each behind a check. -/
theorem of_guarded {guard : σ → ι → Bool} (hC : ∀ s i, guard s i = true → C s i)
    (h : ins.foldlM (fun s i => if guard s i then step s i else none) s₀ = some s) :
    CarefulRun step C s₀ ins s := by
  induction ins using List.reverseRecOn generalizing s with
  | nil =>
    obtain rfl : s₀ = s := Option.some.inj h
    exact .start
  | append_singleton past i ih =>
    rw [List.foldlM_append] at h
    obtain ⟨t, hpast, htaken⟩ := Option.bind_eq_some_iff.mp h
    replace htaken : (if guard t i then step t i else none) = some s := by simpa using htaken
    by_cases hg : guard t i = true
    · rw [if_pos hg] at htaken
      exact (ih hpast).next (hC t i hg) htaken
    · rw [if_neg hg] at htaken
      cases htaken

/-- **A run has stayed out of a trap exactly when all its steps were careful.**  The invariant `I`
    is what the steps may rely on. -/
theorem iff_of_trap {I T : σ → Prop} (hI : I s₀) (hstart : ¬ T s₀)
    (hkeep : ∀ s i s', I s → step s i = some s' → I s')
    (hinto : ∀ s i s', I s → ¬ T s → step s i = some s' → (¬ T s' ↔ C s i))
    (hstay : ∀ s i s', I s → T s → step s i = some s' → T s')
    (h : CarefulRun step (fun _ _ => True) s₀ ins s) :
    ¬ T s ↔ CarefulRun step C s₀ ins s := by
  suffices hboth : I s ∧ (¬ T s ↔ CarefulRun step C s₀ ins s) from hboth.2
  induction h with
  | start => exact ⟨hI, iff_of_true hstart .start⟩
  | next past _ taken ih =>
    obtain ⟨hinv, ih⟩ := ih
    refine ⟨hkeep _ _ _ hinv taken, ?_⟩
    rw [concat_iff]
    constructor
    · intro hout
      have hbefore := fun htrap => hout (hstay _ _ _ hinv htrap taken)
      exact ⟨_, ih.mp hbefore, (hinto _ _ _ hinv hbefore taken).mp hout, taken⟩
    · rintro ⟨t, hrun, careful, -⟩
      obtain rfl := past.unique hrun
      exact (hinto _ _ _ hinv (ih.mpr hrun) taken).mpr careful

end CarefulRun

end PhReactor.Lib
