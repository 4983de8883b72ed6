/-
  Machines with outputs, and what holds along all their runs.

  A `Machine` takes an input and answers with a new state and the outputs of that step.  Its runs
  are lists of inputs.  Three rules carry everything that is proved about one:

  1. `Machine.run_invariant`: an invariant may speak of the HISTORY, the inputs so far.  It holds
     after every run if it holds at the start and every step keeps it.

  2. `Machine.cuts_invariant`: the same where only CAREFUL steps keep it; `Machine.cuts_iff`: where
     the careful steps are exactly those that do.

  3. `Machine.outputs_eq`: two runs side by side.  If a relation between two states is kept when
     both take the same input, and both then answer alike, the whole runs answer alike.

  4. `Machine.observed` adds an observer, who sees each state and input and keeps notes.  The notes
     change nothing of the run (`run_observed`).

  `sweep` is the same for a loop INSIDE a step: a body with outputs, over a list.
-/
import Mathlib.Data.List.Induction

namespace PhReactor.Lib

/-! ## Loops with outputs -/

section Sweep

variable {σ α ω : Type*}

/-- Run `f` over the list, collecting the outputs. -/
def sweep (f : σ → α → σ × List ω) (s : σ) : List α → σ × List ω
  | [] => (s, [])
  | a :: rest => ((sweep f (f s a).1 rest).1, (f s a).2 ++ (sweep f (f s a).1 rest).2)

/-- What every turn of the body keeps, and puts into its outputs, the loop does. -/
theorem sweep_spec {f : σ → α → σ × List ω} {I : σ → Prop} {P : ω → Prop} {l : List α}
    (hf : ∀ s, ∀ a ∈ l, I s → I (f s a).1 ∧ ∀ o ∈ (f s a).2, P o) {s : σ} (hs : I s) :
    I (sweep f s l).1 ∧ ∀ o ∈ (sweep f s l).2, P o := by
  induction l generalizing s with
  | nil => exact ⟨hs, fun o ho => absurd ho List.not_mem_nil⟩
  | cons a rest ih =>
    obtain ⟨hstep, hout⟩ := hf s a List.mem_cons_self hs
    obtain ⟨hrest, hrestOut⟩ := ih (fun s b hb => hf s b (List.mem_cons_of_mem _ hb)) hstep
    refine ⟨hrest, fun o ho => ?_⟩
    rcases List.mem_append.mp ho with ho | ho
    · exact hout o ho
    · exact hrestOut o ho

/-- Every turn's outputs are among the loop's. -/
theorem exists_mem_sweep (f : σ → α → σ × List ω) {l : List α} {a : α} (ha : a ∈ l) (s : σ) :
    ∃ s', ∀ o ∈ (f s' a).2, o ∈ (sweep f s l).2 := by
  induction l generalizing s with
  | nil => exact absurd ha List.not_mem_nil
  | cons b rest ih =>
    rcases List.mem_cons.mp ha with rfl | ha
    · exact ⟨s, fun o ho => List.mem_append_left _ ho⟩
    · obtain ⟨s', hs'⟩ := ih ha (f s b).1
      exact ⟨s', fun o ho => List.mem_append_right _ (hs' o ho)⟩

end Sweep

/-! ## The steps of a run -/

section Cuts

variable {ι : Type*} {P : List ι → ι → Prop}

/-- An empty run has no step. -/
theorem forall_cuts_nil : ∀ past x rest, [] = past ++ x :: rest → P past x := by
  intro past x rest h
  cases past <;> cases h

/-- The steps of a run are the first one, and those of the rest after it. -/
theorem forall_cuts_cons {i : ι} {l : List ι} :
    (∀ past x rest, i :: l = past ++ x :: rest → P past x) ↔
      P [] i ∧ ∀ past x rest, l = past ++ x :: rest → P (i :: past) x := by
  constructor
  · intro h
    exact ⟨h [] i l rfl, fun past x rest heq => h (i :: past) x rest (congrArg (i :: ·) heq)⟩
  · rintro ⟨hfirst, hrest⟩ past x rest h
    cases past with
    | nil =>
      obtain ⟨rfl, -⟩ := List.cons.inj h
      exact hfirst
    | cons j past =>
      obtain ⟨rfl, htail⟩ := List.cons.inj h
      exact hrest past x rest htail

end Cuts

/-! ## Machines -/

/-- States `σ`, inputs `ι`, outputs `ω`. -/
structure Machine (σ ι ω : Type*) where
  step : σ → ι → σ × List ω

namespace Machine

variable {σ ι ω : Type*} (M : Machine σ ι ω)

/-- The state after a run. -/
def run (s : σ) (ins : List ι) : σ := ins.foldl (fun s i => (M.step s i).1) s

/-- What each step of a run puts out. -/
def outputs (s : σ) : List ι → List (List ω)
  | [] => []
  | i :: rest => (M.step s i).2 :: outputs (M.step s i).1 rest

theorem run_concat (s : σ) (ins : List ι) (i : ι) :
    M.run s (ins ++ [i]) = (M.step (M.run s ins) i).1 := by
  simp [run]

/-- **An invariant of state and history holds after every run.** -/
theorem run_invariant {I : List ι → σ → Prop} {s : σ} (hstart : I [] s)
    (hstep : ∀ past s i, I past s → I (past ++ [i]) (M.step s i).1) (ins : List ι) :
    I ins (M.run s ins) := by
  induction ins using List.reverseRecOn with
  | nil => exact hstart
  | append_singleton past i ih =>
    rw [run_concat]
    exact hstep past _ i ih

/-- **An invariant that careful steps keep**, after every part of a run whose steps are careful. -/
theorem cuts_invariant {I : σ → Prop} {C : σ → ι → Prop} {s : σ} (hstart : I s)
    (hstep : ∀ s i, I s → C s i → I (M.step s i).1) {ins : List ι}
    (hcareful : ∀ past i rest, ins = past ++ i :: rest → C (M.run s past) i) :
    ∀ past rest, ins = past ++ rest → I (M.run s past) := by
  intro past
  induction past using List.reverseRecOn with
  | nil => exact fun _ _ => hstart
  | append_singleton past i ih =>
    intro rest hins
    rw [List.append_assoc] at hins
    rw [run_concat]
    exact hstep _ i (ih _ hins) (hcareful past i rest hins)

/-- **An invariant of state and history holds after every part of a run exactly when every step is
    careful**, where a careful step is one that keeps it. -/
theorem cuts_iff {I : List ι → σ → Prop} {C : σ → ι → Prop} {s : σ} (hstart : I [] s)
    (hstep : ∀ past i, I past (M.run s past) →
      (I (past ++ [i]) (M.step (M.run s past) i).1 ↔ C (M.run s past) i)) (ins : List ι) :
    (∀ past rest, ins = past ++ rest → I past (M.run s past)) ↔
      ∀ past i rest, ins = past ++ i :: rest → C (M.run s past) i := by
  constructor
  · intro hall past i rest hins
    refine (hstep past i (hall past (i :: rest) hins)).mp ?_
    rw [← run_concat]
    exact hall (past ++ [i]) rest (by rw [hins, List.append_assoc]; rfl)
  · intro hcareful past
    induction past using List.reverseRecOn with
    | nil => exact fun _ _ => hstart
    | append_singleton past i ih =>
      intro rest hins
      rw [List.append_assoc] at hins
      rw [run_concat]
      exact (hstep past i (ih _ hins)).mpr (hcareful past i rest hins)

theorem outputs_concat (s : σ) (ins : List ι) (i : ι) :
    M.outputs s (ins ++ [i]) = M.outputs s ins ++ [(M.step (M.run s ins) i).2] := by
  induction ins generalizing s with
  | nil => rfl
  | cons j ins ih =>
    rw [List.cons_append]
    unfold outputs
    rw [ih]
    rfl

/-- **Two runs that stay related answer alike.** -/
theorem outputs_eq {R : σ → σ → Prop} {ins : List ι}
    (hstep : ∀ s t, ∀ i ∈ ins, R s t →
      R (M.step s i).1 (M.step t i).1 ∧ (M.step s i).2 = (M.step t i).2)
    {s t : σ} (h : R s t) : M.outputs s ins = M.outputs t ins := by
  induction ins generalizing s t with
  | nil => rfl
  | cons i rest ih =>
    obtain ⟨hnext, hout⟩ := hstep s t i List.mem_cons_self h
    unfold outputs
    rw [hout, ih (fun s t j hj => hstep s t j (List.mem_cons_of_mem _ hj)) hnext]

/-- The machine with an observer, who turns a state, his notes and the next input into new notes. -/
def observed {γ : Type*} (note : σ → γ → ι → γ) : Machine (σ × γ) ι ω :=
  ⟨fun s i => (((M.step s.1 i).1, note s.1 s.2 i), (M.step s.1 i).2)⟩

theorem run_observed {γ : Type*} (note : σ → γ → ι → γ) (s : σ × γ) (ins : List ι) :
    ((M.observed note).run s ins).1 = M.run s.1 ins := by
  induction ins using List.reverseRecOn with
  | nil => rfl
  | append_singleton past i ih =>
    rw [run_concat, run_concat, ← ih]
    rfl

end Machine

end PhReactor.Lib
