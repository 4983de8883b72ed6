/-
  Orders on their way to a keyed table.

  A table gives each key an entry or none.  `act c k o` is what the order `c` makes of the entry `o`
  under the key `k`; an order is carried out for all keys at once, and orders wait in a queue.

  1. `through act q T` is the table once the queue is through.  It does not change when the first
     order is carried out (`through_cons`), so a sender may reason about it and forget the queue.

  2. `Met P q T`: each order finds, when its turn comes, a table as `P` asks.

  3. A list that is sent one order for each item: `through_map_of_nodup` where the items have
     different keys, `through_map_const` where all the orders for one key leave the same entry.
-/
import Mathlib.Data.List.Nodup

namespace PhReactor.Lib

variable {χ κ ω α : Type*} (act : χ → κ → Option ω → Option ω)

/-- The table once the orders are carried out. -/
def through (q : List χ) (T : κ → Option ω) (k : κ) : Option ω :=
  q.foldl (fun o c => act c k o) (T k)

/-- Each order finds a table as `P` asks. -/
def Met (P : χ → (κ → Option ω) → Prop) : List χ → (κ → Option ω) → Prop
  | [], _ => True
  | c :: q, T => P c T ∧ Met P q fun k => act c k (T k)

variable {act} {q r : List χ} {T T' : κ → Option ω} {k : κ}

@[simp] theorem through_nil : through act [] T k = T k := rfl

theorem through_cons (c : χ) :
    through act (c :: q) T k = through act q (fun k => act c k (T k)) k := rfl

theorem through_append : through act (q ++ r) T = through act r (through act q T) :=
  funext fun _ => List.foldl_append

/-- What is under a key depends on what was under it. -/
theorem through_congr (h : T k = T' k) : through act q T k = through act q T' k := by
  unfold through
  rw [h]

/-- Orders that are not about the key. -/
theorem through_of_skips (h : ∀ c ∈ q, ∀ o, act c k o = o) : through act q T k = T k := by
  induction q generalizing T with
  | nil => rfl
  | cons c q ih =>
    rw [through_cons, ih fun c' hc' => h c' (List.mem_cons_of_mem _ hc')]
    exact h c List.mem_cons_self _

/-! ## One order for each item -/

section Items

variable (key : α → κ) {cmd : α → χ} {l : List α}

/-- The items have different keys: the one with this key acts, if there is one. -/
theorem through_map_of_nodup [DecidableEq κ] (hskip : ∀ a o, key a ≠ k → act (cmd a) k o = o)
    (hnodup : (l.map key).Nodup) : through act (l.map cmd) T k =
      (l.find? fun a => key a == k).elim (T k) fun a => act (cmd a) k (T k) := by
  induction l generalizing T with
  | nil => rfl
  | cons a l ih =>
    rw [List.map_cons, List.nodup_cons] at hnodup
    rw [List.map_cons, through_cons, List.find?_cons]
    by_cases ha : key a = k
    · -- the rest is about other keys
      rw [through_of_skips, beq_iff_eq.mpr ha]
      · rfl
      intro c hc o
      obtain ⟨b, hb, rfl⟩ := List.mem_map.mp hc
      refine hskip b o fun heq => hnodup.1 ?_
      rw [ha, ← heq]
      exact List.mem_map_of_mem hb
    · rw [ih hnodup.2, beq_false_of_ne ha, hskip a _ ha]

/-- All the orders for this key leave the same entry. -/
theorem through_map_const [DecidableEq κ] (v : Option ω)
    (hskip : ∀ a o, key a ≠ k → act (cmd a) k o = o)
    (hact : ∀ a o, key a = k → act (cmd a) k o = v) :
    through act (l.map cmd) T k = if k ∈ l.map key then v else T k := by
  induction l generalizing T with
  | nil => rfl
  | cons a l ih =>
    rw [List.map_cons, through_cons, ih, List.map_cons]
    by_cases ha : key a = k
    · rw [hact a _ ha, ite_self, if_pos (ha ▸ List.mem_cons_self)]
    · have hmem : k ∈ key a :: l.map key ↔ k ∈ l.map key :=
        List.mem_cons.trans (or_iff_right fun h => ha h.symm)
      rw [hskip a _ ha]
      simp only [hmem]

end Items

/-! ## Orders that are met -/

variable {P : χ → (κ → Option ω) → Prop}

theorem met_append : Met act P (q ++ r) T ↔ Met act P q T ∧ Met act P r (through act q T) := by
  induction q generalizing T with
  | nil => exact (and_iff_right trivial).symm
  | cons c q ih =>
    show P c T ∧ Met act P (q ++ r) _ ↔ (P c T ∧ Met act P q _) ∧ _
    rw [ih, and_assoc]
    rfl

/-- Orders that ask for nothing. -/
theorem met_of_forall (h : ∀ c ∈ q, ∀ T, P c T) : Met act P q T := by
  induction q generalizing T with
  | nil => trivial
  | cons c q ih =>
    exact ⟨h c List.mem_cons_self T, ih fun c' hc' => h c' (List.mem_cons_of_mem _ hc')⟩

/-- **A table with more entries meets the orders too**, where they ask for entries only, and leave
    none where there was none only. -/
theorem Met.mono (hP : ∀ c (T T' : κ → Option ω), (∀ k, (T k).isSome → (T' k).isSome) →
      P c T → P c T')
    (hact : ∀ c k o o', (o.isSome → o'.isSome) → (act c k o).isSome → (act c k o').isSome)
    (hle : ∀ k, (T k).isSome → (T' k).isSome) (h : Met act P q T) : Met act P q T' := by
  induction q generalizing T T' with
  | nil => trivial
  | cons c q ih => exact ⟨hP c T T' hle h.1, ih (fun k => hact c k _ _ (hle k)) h.2⟩

end PhReactor.Lib
