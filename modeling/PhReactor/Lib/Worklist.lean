/-
  Loops that take their work from a stack.

  1. A stack that UNFOLDS A TREE has no memory: what a node gives and what comes after it depend on
     the node alone.  When every node ranks above those that come after it, the loop ends, and what
     it has collected is the tree in preorder (`unfoldStack_eq`).  The number of its steps is the
     number of nodes, which is the same enumeration again, of one mark for each node.

  2. A stack that SEARCHES A GRAPH marks what it has seen.  `Search` is its invariant: only what has
     a path to the root is marked, and what is marked and not on the stack has all that leads to it
     marked.  When the stack is empty the marks are reachability (`Search.finish`).
-/
import Mathlib.Data.List.Chain
import Mathlib.Logic.Relation

namespace PhReactor.Lib

/-! ## Trees -/

section Tree

variable {σ β : Type*} (emit : σ → List β) (next : σ → List σ)

/-- Takes the node on top, keeps what it gives, and puts what comes after it on top.  There is no
    result when the fuel runs out. -/
def unfoldStack : ℕ → List σ → List β → Option (List β)
  | _, [], out => some out
  | 0, _ :: _, _ => none
  | fuel + 1, s :: stack, out => unfoldStack fuel (next s ++ stack) (out ++ emit s)

/-- What the nodes of a tree give, down to a depth. -/
def preorder : ℕ → σ → List β
  | 0, s => emit s
  | n + 1, s => emit s ++ (next s).flatMap (preorder n)

variable {next} {rank : σ → ℕ} (hrank : ∀ s, ∀ t ∈ next s, rank t < rank s)
include hrank

/-- Below the rank of a node there is nothing. -/
theorem preorder_eq {n : ℕ} {s : σ} (h : rank s ≤ n) :
    preorder emit next n s =
      emit s ++ (next s).flatMap fun t => preorder emit next (rank t) t := by
  induction n using Nat.strongRecOn generalizing s with
  | ind n ih =>
    cases n with
    | zero =>
      have hnone : next s = [] := by
        refine List.eq_nil_iff_forall_not_mem.mpr fun t ht => ?_
        have hlt := hrank s t ht
        omega
      rw [hnone, List.flatMap_nil, List.append_nil]
      rfl
    | succ n =>
      show emit s ++ (next s).flatMap (preorder emit next n) = _
      congr 1
      refine List.flatMap_congr fun t ht => ?_
      have hlt := hrank s t ht
      rw [ih n (Nat.lt_succ_self n) (by omega), ih (rank t) (by omega) (Nat.le_refl _)]

/-- **The loop collects the tree in preorder**, once it has as much fuel as the tree has nodes. -/
theorem unfoldStack_eq {fuel : ℕ} {stack : List σ} (out : List β)
    (h : (stack.flatMap fun s => preorder (fun _ => [()]) next (rank s) s).length ≤ fuel) :
    unfoldStack emit next fuel stack out =
      some (out ++ stack.flatMap fun s => preorder emit next (rank s) s) := by
  induction fuel generalizing stack out with
  | zero =>
    cases stack with
    | nil =>
      rw [List.flatMap_nil, List.append_nil]
      rfl
    | cons s stack =>
      rw [List.flatMap_cons, preorder_eq _ hrank (Nat.le_refl _)] at h
      simp at h
  | succ fuel ih =>
    cases stack with
    | nil =>
      rw [List.flatMap_nil, List.append_nil]
      rfl
    | cons s stack =>
      rw [List.flatMap_cons, preorder_eq _ hrank (Nat.le_refl _)] at h ⊢
      have hfuel : ((next s ++ stack).flatMap fun s =>
          preorder (fun _ => [()]) next (rank s) s).length ≤ fuel := by
        rw [List.flatMap_append, List.length_append]
        simp only [List.length_append, List.length_singleton] at h
        omega
      show unfoldStack emit next fuel (next s ++ stack) (out ++ emit s) = _
      rw [ih (out ++ emit s) hfuel, List.flatMap_append, List.append_assoc, List.append_assoc]

end Tree

/-! ## Graphs -/

section Graph

variable {α : Type*} {edge : α → α → Prop} {root : α}

open Relation

/-- The search, in between: `edge x n` leads from `x` to `n`, and the search goes backwards. -/
structure Search (edge : α → α → Prop) (root : α) (seen : α → Prop) (stack : List α) : Prop where
  sound : ∀ x, seen x → TransGen edge x root
  stacked : ∀ n ∈ stack, n = root ∨ seen n
  closed : ∀ n, n = root ∨ seen n → n ∉ stack → ∀ x, edge x n → seen x

theorem Search.begin : Search edge root (fun _ => False) [root] where
  sound _ h := h.elim
  stacked _ h := Or.inl (List.mem_singleton.mp h)
  closed _ h hnot := absurd (List.mem_singleton.mpr (h.resolve_right id)) hnot

/-- A step: the node on top is taken, and all that leads to it is marked, what is new on top. -/
theorem Search.step {seen seen' : α → Prop} {n : α} {stack stack' : List α}
    (h : Search edge root seen (n :: stack)) (hseen : ∀ x, seen' x ↔ seen x ∨ edge x n)
    (hstack : ∀ x, x ∈ stack' ↔ x ∈ stack ∨ edge x n ∧ ¬ seen x) :
    Search edge root seen' stack' where
  sound x hx := by
    rcases (hseen x).mp hx with hold | hedge
    · exact h.sound x hold
    · rcases h.stacked n List.mem_cons_self with heq | hn
      · exact TransGen.single (heq ▸ hedge)
      · exact TransGen.head hedge (h.sound n hn)
  stacked m hm := by
    rcases (hstack m).mp hm with hold | hnew
    · exact (h.stacked m (List.mem_cons_of_mem n hold)).imp_right fun hs =>
        (hseen m).mpr (Or.inl hs)
    · exact Or.inr ((hseen m).mpr (Or.inr hnew.1))
  closed m hm hnot x hedge := by
    rw [hstack] at hnot
    rw [hseen] at hm ⊢
    by_cases hmn : m = n
    · exact Or.inr (hmn ▸ hedge)
    · refine Or.inl (h.closed m ?_ ?_ x hedge)
      · rcases hm with hroot | hold | hnew
        · exact Or.inl hroot
        · exact Or.inr hold
        · exact Or.inr (by_contra fun hfresh => hnot (Or.inr ⟨hnew, hfresh⟩))
      · rw [List.mem_cons]
        exact fun hin => hin.elim hmn fun hin => hnot (Or.inl hin)

/-- **When nothing is left, the marks are reachability.** -/
theorem Search.finish {seen : α → Prop} (h : Search edge root seen []) (x : α) :
    seen x ↔ TransGen edge x root := by
  refine ⟨h.sound x, fun hpath => ?_⟩
  induction hpath using TransGen.head_induction_on with
  | single hedge => exact h.closed root (Or.inl rfl) List.not_mem_nil _ hedge
  | head hedge _ ih => exact h.closed _ (Or.inr ih) List.not_mem_nil _ hedge

/-- A path between two different nodes has no need of the edges from a node to itself. -/
theorem transGen_ne {x y : α} (h : TransGen edge x y) (hne : x ≠ y) :
    TransGen (fun a b => a ≠ b ∧ edge a b) x y := by
  induction h using TransGen.head_induction_on with
  | single hedge => exact TransGen.single ⟨hne, hedge⟩
  | @head a b hedge _ ih =>
    by_cases hab : a = b
    · subst hab
      exact ih hne
    · by_cases hby : b = y
      · subst hby
        exact TransGen.single ⟨hab, hedge⟩
      · exact TransGen.head ⟨hab, hedge⟩ (ih hby)

/-- A cycle through a node and at least one other, that meets no node twice. -/
def OnCycle (edge : α → α → Prop) (x : α) : Prop :=
  ∃ l, l ≠ [] ∧ (x :: l).Nodup ∧ List.IsChain edge (x :: l ++ [x])

/-- A path can be made simple: what lies between two visits of a node is left out. -/
theorem exists_simple {x y : α} (h : ReflTransGen edge y x) (hne : y ≠ x) :
    ∃ l, (x :: y :: l).Nodup ∧ List.IsChain edge (y :: l ++ [x]) := by
  induction h using ReflTransGen.head_induction_on with
  | refl => exact absurd rfl hne
  | @head b c hedge _ ih =>
    by_cases hcx : c = x
    · subst hcx
      exact ⟨[], by simpa using hne.symm, by simpa using hedge⟩
    · obtain ⟨l, hnodup, hchain⟩ := ih hcx
      by_cases hb : b ∈ c :: l
      · obtain ⟨l₁, l₂, hsplit⟩ := List.append_of_mem hb
        rw [hsplit] at hnodup hchain
        refine ⟨l₂, hnodup.sublist ((List.sublist_append_right l₁ _).cons_cons x), ?_⟩
        rw [List.append_assoc] at hchain
        exact hchain.right_of_append
      · refine ⟨c :: l, ?_, hchain.cons_cons hedge⟩
        rw [List.nodup_cons] at hnodup ⊢
        refine ⟨fun hin => ?_, List.nodup_cons.mpr ⟨hb, hnodup.2⟩⟩
        exact (List.mem_cons.mp hin).elim (fun heq => hne heq.symm) hnodup.1

theorem transGen_of_isChain {x : α} : ∀ {y : α} (l : List α), List.IsChain edge (y :: l ++ [x]) →
    TransGen edge y x
  | _, [], h => TransGen.single (by simpa using h)
  | _, z :: l, h => by
    rw [List.cons_append, List.cons_append, List.isChain_cons_cons] at h
    exact TransGen.head h.1 (transGen_of_isChain l h.2)

/-- **A path that comes back without edges from a node to itself goes round a cycle.** -/
theorem transGen_ne_self_iff {x : α} :
    TransGen (fun a b => a ≠ b ∧ edge a b) x x ↔ OnCycle edge x := by
  constructor
  · intro h
    obtain ⟨y, ⟨hne, hedge⟩, hback⟩ := TransGen.head'_iff.mp h
    have hsub : (fun a b => a ≠ b ∧ edge a b) ≤ edge := fun _ _ h => h.2
    obtain ⟨l, hnodup, hchain⟩ := exists_simple (ReflTransGen.mono hsub y x hback) hne.symm
    exact ⟨y :: l, List.cons_ne_nil y l, hnodup, hchain.cons_cons hedge⟩
  · rintro ⟨l, hne, hnodup, hchain⟩
    obtain ⟨y, l, rfl⟩ := List.exists_cons_of_ne_nil hne
    rw [List.cons_append, List.cons_append, List.isChain_cons_cons] at hchain
    have hxy : x ≠ y := fun heq => (List.nodup_cons.mp hnodup).1 (heq ▸ List.mem_cons_self)
    exact TransGen.head ⟨hxy, hchain.1⟩ (transGen_ne (transGen_of_isChain l hchain.2) hxy.symm)

end Graph

end PhReactor.Lib
