/-
  Programs that may be CUT SHORT between any two of their operations.

  A `Prog` calls operations and goes on with their replies.  What an operation does is decided by
  its state and by an outcome that the program has no say in: success, one failure or another.  So
  a run is given by a list of outcomes; when the list ends the program has crashed.

  1. `Prog.run`, with the outcomes left over, and how it composes (`run_bind`, `run_prefix`).

  2. `Prog.always crash post p s`: the crash condition holds wherever `p` may be cut short when it
     starts in `s`, and the postcondition wherever it may end.  `always_iff_run` is what it means;
     `always_bind` and `always_mono` are its rules.

  3. `Prog.eval c` is the run in which every outcome is `c` (`post_eval`).
-/
import Mathlib.Data.List.Basic

namespace PhReactor.Lib

/-- A program over the operations `Op`, with a result in `α`. -/
inductive Prog (Op : Type) (Reply : Op → Type) (α : Type) where
  | done (a : α)
  | call (o : Op) (k : Reply o → Prog Op Reply α)

namespace Prog

variable {Op : Type} {Reply : Op → Type} {α β ε σ χ : Type}

def bind : Prog Op Reply α → (α → Prog Op Reply β) → Prog Op Reply β
  | .done a, f => f a
  | .call o k, f => .call o fun r => (k r).bind f

/-- Go on with the value of a success; an error ends the program. -/
def andThen (p : Prog Op Reply (Except ε α)) (f : α → Prog Op Reply (Except ε β)) :
    Prog Op Reply (Except ε β) :=
  p.bind fun
    | .ok a => f a
    | .error e => .done (.error e)

/-! ## Runs -/

section

variable (perform : σ → (o : Op) → χ → Reply o × σ)

/-- The run with these outcomes: the result and the outcomes left over, unless it crashed, and the
    state. -/
def run : Prog Op Reply α → List χ → σ → Option (α × List χ) × σ
  | .done a, cs, s => (some (a, cs), s)
  | .call _ _, [], s => (none, s)
  | .call o k, c :: cs, s => run (k (perform s o c).1) cs (perform s o c).2

/-- The crash condition holds wherever the program may be cut short, the postcondition wherever it
    may end. -/
def always (crash : σ → Prop) (post : α → σ → Prop) : Prog Op Reply α → σ → Prop
  | .done a, s => post a s
  | .call o k, s =>
    crash s ∧ ∀ c, always crash post (k (perform s o c).1) (perform s o c).2

/-- The run in which every outcome is `c`. -/
def eval (c : χ) : Prog Op Reply α → σ → α × σ
  | .done a, s => (a, s)
  | .call o k, s => eval c (k (perform s o c).1) (perform s o c).2

end

variable {perform : σ → (o : Op) → χ → Reply o × σ}

theorem run_bind (p : Prog Op Reply α) (f : α → Prog Op Reply β) (cs : List χ) (s : σ) :
    (p.bind f).run perform cs s =
      match p.run perform cs s with
      | (some (a, rest), t) => (f a).run perform rest t
      | (none, t) => (none, t) := by
  induction p generalizing cs s with
  | done a => rfl
  | call o k ih =>
    cases cs with
    | nil => rfl
    | cons c cs => exact ih (perform s o c).1 cs (perform s o c).2

/-- A run uses a prefix of the outcomes, and does not look at the rest. -/
theorem run_prefix {p : Prog Op Reply α} {cs rest : List χ} {s t : σ} {a : α}
    (h : p.run perform cs s = (some (a, rest), t)) :
    ∃ used, ∀ rest', p.run perform (used ++ rest') s = (some (a, rest'), t) := by
  induction p generalizing cs s with
  | done b =>
    obtain ⟨⟨rfl, -⟩, rfl⟩ : (b = a ∧ cs = rest) ∧ s = t := by simpa [run] using h
    exact ⟨[], fun rest' => rfl⟩
  | call o k ih =>
    cases cs with
    | nil => cases h
    | cons c cs =>
      obtain ⟨used, hused⟩ := ih (perform s o c).1 h
      exact ⟨c :: used, hused⟩

theorem eval_bind (c : χ) (p : Prog Op Reply α) (f : α → Prog Op Reply β) (s : σ) :
    (p.bind f).eval perform c s =
      (f (p.eval perform c s).1).eval perform c (p.eval perform c s).2 := by
  induction p generalizing s with
  | done a => rfl
  | call o k ih => exact ih _ _

/-! ## What holds at every crash and at every end -/

section

variable {crash crash' : σ → Prop} {post post' : α → σ → Prop}

/-- **What `always` means.** -/
theorem always_iff_run {p : Prog Op Reply α} {s : σ} :
    p.always perform crash post s ↔
      ∀ cs, match p.run perform cs s with
        | (some (a, _), t) => post a t
        | (none, t) => crash t := by
  induction p generalizing s with
  | done a => exact ⟨fun h _ => h, fun h => h []⟩
  | call o k ih =>
    constructor
    · rintro ⟨hcrash, hrest⟩ cs
      cases cs with
      | nil => exact hcrash
      | cons c cs => exact (ih _).mp (hrest c) cs
    · intro h
      exact ⟨h [], fun c => (ih _).mpr fun cs => h (c :: cs)⟩

theorem always_bind {p : Prog Op Reply α} {f : α → Prog Op Reply β} {post : β → σ → Prop}
    {s : σ} :
    (p.bind f).always perform crash post s ↔
      p.always perform crash (fun a t => (f a).always perform crash post t) s := by
  induction p generalizing s with
  | done a => exact Iff.rfl
  | call o k ih => exact and_congr Iff.rfl (forall_congr' fun c => ih _)

/-- A program that may fail, and what comes after a success. -/
theorem always_andThen {p : Prog Op Reply (Except ε α)} {f : α → Prog Op Reply (Except ε β)}
    {post : Except ε β → σ → Prop} {s : σ} :
    (p.andThen f).always perform crash post s ↔
      p.always perform crash (fun r t =>
        match r with
        | .ok a => (f a).always perform crash post t
        | .error e => post (.error e) t) s := by
  unfold andThen
  rw [always_bind]
  suffices h : (fun r t => Prog.always perform crash post
      (match r with
        | .ok a => f a
        | .error e => .done (.error e)) t) = fun (r : Except ε α) t =>
        match r with
        | .ok a => (f a).always perform crash post t
        | .error e => post (.error e) t by
    rw [← h]
  funext r t
  cases r <;> rfl

theorem always_mono {p : Prog Op Reply α} {s : σ} (h : p.always perform crash post s)
    (hcrash : ∀ t, crash t → crash' t) (hpost : ∀ a t, post a t → post' a t) :
    p.always perform crash' post' s := by
  induction p generalizing s with
  | done a => exact hpost a s h
  | call o k ih => exact ⟨hcrash s h.1, fun c => ih _ (h.2 c)⟩

/-- The postcondition holds at the end of the run with the same outcome throughout. -/
theorem post_eval (c : χ) {p : Prog Op Reply α} {s : σ} (h : p.always perform crash post s) :
    post (p.eval perform c s).1 (p.eval perform c s).2 := by
  induction p generalizing s with
  | done a => exact h
  | call o k ih => exact ih _ (h.2 c)

end

end Prog

end PhReactor.Lib
