/-
  Folding a collection in the order of a KEY.

  A replicated log keeps its items in the order in which they happened to arrive, but every
  replica folds them in the order of a key that each of them computes from the item itself.  This
  file is the mathematics of that arrangement, over arbitrary items `α`, linearly ordered keys `κ`
  and states `σ`:

  1. `canonSort key` is a STABLE sort by key (`List.insertionSort`), so an item that arrives in
     order is simply appended (`KeySorted.concat_of_not_lt`), a late one goes behind everything
     that sorts at most at it (`KeySorted.canonSort_concat_filter`), and sorting after every
     arrival is sorting once (`canonSort_concat`);

  2. `CanonStep` collects what a step function has to satisfy for repetitions to be harmless:
     it keeps an invariant, applying an item twice in a row is applying it once, and items of one
     key are interchangeable;

  3. `CanonStep.foldl_eq` — the fold of a key-sorted list depends only on WHICH KEYS occur in it,
     neither on how often nor on which of several items of one key came first;

  4. `foldl_attains` — what one item brings about and no item undoes holds at the end;

  5. `foldl_join_eq` — joining up a list in a semilattice depends on its members only, whatever
     the order.
-/
import Mathlib.Data.List.Sort
import Mathlib.Data.Multiset.Fold
import Mathlib.Order.Lattice

namespace PhReactor.Lib

variable {α κ σ : Type*} [LinearOrder κ]

/-! ## The stable sort by key -/

/-- `l` is in key order. -/
def KeySorted (key : α → κ) (l : List α) : Prop := l.Pairwise fun a b => key a ≤ key b

/-- Sort by key; items of one key keep their relative order. -/
def canonSort (key : α → κ) (l : List α) : List α :=
  l.insertionSort fun a b => key a ≤ key b

theorem canonSort_perm (key : α → κ) (l : List α) : (canonSort key l).Perm l :=
  List.perm_insertionSort _ l

theorem mem_canonSort {key : α → κ} {l : List α} {a : α} : a ∈ canonSort key l ↔ a ∈ l :=
  (canonSort_perm key l).mem_iff

theorem canonSort_keySorted (key : α → κ) (l : List α) : KeySorted key (canonSort key l) := by
  have : Std.Total fun a b : α => key a ≤ key b := ⟨fun a b => le_total (key a) (key b)⟩
  have : IsTrans α fun a b : α => key a ≤ key b := ⟨fun _ _ _ => le_trans⟩
  exact List.pairwise_insertionSort _ l

/-- Sorting what is already in order changes nothing. -/
theorem KeySorted.canonSort_eq {key : α → κ} {l : List α} (h : KeySorted key l) :
    canonSort key l = l :=
  List.Pairwise.insertionSort_eq h

theorem KeySorted.concat {key : α → κ} {l : List α} {a : α} (h : KeySorted key l)
    (ha : ∀ b ∈ l, key b ≤ key a) : KeySorted key (l ++ [a]) := by
  refine List.pairwise_append.mpr ⟨h, List.pairwise_singleton _ a, ?_⟩
  intro b hb c hc
  rw [List.mem_singleton.mp hc]
  exact ha b hb

/-- In a sorted list the last item bounds every item. -/
theorem KeySorted.le_getLast {key : α → κ} {l : List α} {z : α} (h : KeySorted key l)
    (hz : l.getLast? = some z) : ∀ b ∈ l, key b ≤ key z := by
  obtain ⟨init, rfl⟩ := List.getLast?_eq_some_iff.mp hz
  intro b hb
  rcases List.mem_append.mp hb with hb | hb
  · exact (List.pairwise_append.mp h).2.2 b hb z (List.mem_singleton_self z)
  · rw [List.mem_singleton.mp hb]

/-- An item that is not below the last one may be appended. -/
theorem KeySorted.concat_of_not_lt {key : α → κ} {l : List α} {a : α} (h : KeySorted key l)
    (ha : ∀ z, l.getLast? = some z → ¬ key a < key z) : KeySorted key (l ++ [a]) := by
  refine h.concat fun b hb => ?_
  cases hz : l.getLast? with
  | none => exact absurd (List.getLast?_eq_none_iff.mp hz ▸ hb) List.not_mem_nil
  | some z => exact (h.le_getLast hz b hb).trans (not_lt.mp (ha z hz))

/-- Items below a sorted front part do not move it. -/
theorem canonSort_append {key : α → κ} {l₁ l₂ : List α} (h₁ : KeySorted key l₁)
    (hle : ∀ a ∈ l₁, ∀ b ∈ l₂, key a ≤ key b) :
    canonSort key (l₁ ++ l₂) = l₁ ++ canonSort key l₂ := by
  induction l₁ with
  | nil => rfl
  | cons a l₁ ih =>
    have hrest := ih (List.pairwise_cons.mp h₁).2 fun b hb c hc =>
      hle b (List.mem_cons_of_mem a hb) c hc
    show List.orderedInsert _ a (canonSort key (l₁ ++ l₂)) = _
    rw [hrest]
    have hhead : ∀ b ∈ l₁ ++ canonSort key l₂, key a ≤ key b := by
      intro b hb
      rcases List.mem_append.mp hb with hb | hb
      · exact (List.pairwise_cons.mp h₁).1 b hb
      · exact hle a List.mem_cons_self b (mem_canonSort.mp hb)
    cases hl : l₁ ++ canonSort key l₂ with
    | nil => rw [List.cons_append, hl]; rfl
    | cons b l =>
      rw [List.cons_append, hl, List.orderedInsert_cons, if_pos (hhead b (by rw [hl]; simp))]

/-- What sorts strictly before an item of a sorted list stands before it. -/
theorem KeySorted.mem_before {key : α → κ} {l₁ l₂ : List α} {p b : α}
    (h : KeySorted key (l₁ ++ p :: l₂)) (hb : b ∈ l₁ ++ p :: l₂) (hlt : key b < key p) :
    b ∈ l₁ := by
  rcases List.mem_append.mp hb with hb | hb
  · exact hb
  · obtain ⟨-, htail, -⟩ := List.pairwise_append.mp h
    rcases List.mem_cons.mp hb with rfl | hb
    · exact absurd hlt (lt_irrefl _)
    · exact absurd hlt (not_lt.mpr ((List.pairwise_cons.mp htail).1 b hb))

/-- **When sorting by a key puts a list into another order**: wherever the key decides, it has to
    decide as that order does.  Items of one key may stand either way round. -/
theorem canonSort_pairwise_iff {key : α → κ} {l : List α} {R : α → α → Prop}
    (htie : ∀ a ∈ l, ∀ b ∈ l, key a = key b → R a b) :
    (canonSort key l).Pairwise R ↔ ∀ a ∈ l, ∀ b ∈ l, key a < key b → R a b := by
  have hsorted := canonSort_keySorted key l
  constructor
  · intro h a ha b hb hlt
    obtain ⟨l₁, l₂, hsplit⟩ := List.append_of_mem (mem_canonSort.mpr hb : b ∈ canonSort key l)
    rw [hsplit] at hsorted h
    have hbefore : a ∈ l₁ :=
      hsorted.mem_before (hsplit ▸ mem_canonSort.mpr ha) hlt
    exact (List.pairwise_append.mp h).2.2 a hbefore b List.mem_cons_self
  · intro h
    refine hsorted.imp_of_mem fun {a b} ha hb hle => ?_
    rcases lt_or_eq_of_le hle with hlt | heq
    · exact h a (mem_canonSort.mp ha) b (mem_canonSort.mp hb) hlt
    · exact htie a (mem_canonSort.mp ha) b (mem_canonSort.mp hb) heq

/-- A late item is inserted somewhere into a sorted list; nothing else moves. -/
theorem canonSort_concat_split {key : α → κ} {l : List α} (h : KeySorted key l) (a : α) :
    ∃ l₁ l₂, l = l₁ ++ l₂ ∧ canonSort key (l ++ [a]) = l₁ ++ a :: l₂ := by
  induction l with
  | nil => exact ⟨[], [], rfl, rfl⟩
  | cons x l ih =>
    obtain ⟨hx, hl⟩ := List.pairwise_cons.mp h
    obtain ⟨l₁, l₂, rfl, hsort⟩ := ih hl
    have hins : canonSort key (x :: (l₁ ++ l₂) ++ [a]) =
        List.orderedInsert (fun a b => key a ≤ key b) x (l₁ ++ a :: l₂) := by
      rw [← hsort]
      rfl
    cases l₁ with
    | cons y l₁ =>
      refine ⟨x :: y :: l₁, l₂, rfl, ?_⟩
      rw [hins, List.cons_append, List.orderedInsert_cons, if_pos (hx y (by simp))]
      rfl
    | nil =>
      by_cases hxa : key x ≤ key a
      · refine ⟨[x], l₂, rfl, ?_⟩
        rw [hins, List.nil_append, List.orderedInsert_cons, if_pos hxa]
        rfl
      · refine ⟨[], x :: l₂, rfl, ?_⟩
        rw [hins, List.nil_append, List.orderedInsert_cons, if_neg hxa]
        cases l₂ with
        | nil => rfl
        | cons y l₂ => rw [List.orderedInsert_cons, if_pos (hx y (by simp))]; rfl

/-- A sorted list is what sorts at most at `a`, followed by what sorts after it. -/
theorem KeySorted.filter_append {key : α → κ} {l : List α} (h : KeySorted key l) (a : α) :
    (l.filter fun b => !decide (key a < key b)) ++ (l.filter fun b => decide (key a < key b)) =
      l := by
  induction l with
  | nil => rfl
  | cons x l ih =>
    obtain ⟨hx, hl⟩ := List.pairwise_cons.mp h
    by_cases hax : key a < key x
    · -- from `x` on everything sorts after `a`
      have hall : ∀ b ∈ l, key a < key b := fun b hb => hax.trans_le (hx b hb)
      have hnone : (l.filter fun b => !decide (key a < key b)) = [] :=
        List.filter_eq_nil_iff.mpr fun b hb => by simp [hall b hb]
      have hself : (l.filter fun b => decide (key a < key b)) = l :=
        List.filter_eq_self.mpr fun b hb => decide_eq_true (hall b hb)
      simp [hax, hnone, hself]
    · simpa [hax] using ih hl

/-- **Where a late item goes**: behind everything that sorts at most at it. -/
theorem KeySorted.canonSort_concat_filter {key : α → κ} {l : List α} (h : KeySorted key l)
    (a : α) : canonSort key (l ++ [a]) =
      (l.filter fun b => !decide (key a < key b)) ++
        a :: l.filter fun b => decide (key a < key b) := by
  have hafter : canonSort key ((l.filter fun b => decide (key a < key b)) ++ [a]) =
      a :: l.filter fun b => decide (key a < key b) := by
    obtain ⟨l₁, l₂, hl, hsort⟩ :=
      canonSort_concat_split
        (h.sublist (List.filter_sublist (p := fun b => decide (key a < key b)))) a
    -- nothing that sorts after `a` can stand before it
    have hsorted := canonSort_keySorted key ((l.filter fun b => decide (key a < key b)) ++ [a])
    rw [hsort] at hsorted
    cases l₁ with
    | nil => rw [hsort, hl]; rfl
    | cons x l₁ =>
      have hle : key x ≤ key a := (List.pairwise_cons.mp hsorted).1 a (by simp)
      have hmem : x ∈ l.filter fun b => decide (key a < key b) := by rw [hl]; simp
      exact absurd (of_decide_eq_true (List.mem_filter.mp hmem).2) (not_lt.mpr hle)
  rw [← hafter]
  conv_lhs => rw [← h.filter_append a, List.append_assoc]
  apply canonSort_append (h.sublist List.filter_sublist)
  intro b hb c hc
  have hba : key b ≤ key a := by simpa using (List.mem_filter.mp hb).2
  rcases List.mem_append.mp hc with hc | hc
  · exact hba.trans (of_decide_eq_true (List.mem_filter.mp hc).2).le
  · rw [List.mem_singleton.mp hc]; exact hba

/-! ### Sorting again after an append -/

/-- Two insertions commute when the keys differ. -/
theorem orderedInsert_comm {key : α → κ} {x y : α} (h : key y < key x) (l : List α) :
    List.orderedInsert (fun a b => key a ≤ key b) y
        (List.orderedInsert (fun a b => key a ≤ key b) x l) =
      List.orderedInsert (fun a b => key a ≤ key b) x
        (List.orderedInsert (fun a b => key a ≤ key b) y l) := by
  have hyx : key y ≤ key x := h.le
  have hxy : ¬ key x ≤ key y := not_le.mpr h
  induction l with
  | nil => simp [hyx, hxy]
  | cons z l ih =>
    by_cases hxz : key x ≤ key z
    · have hyz : key y ≤ key z := hyx.trans hxz
      simp [hxz, hyz, hyx, hxy]
    · by_cases hyz : key y ≤ key z
      · simp [hxz, hyz, hxy]
      · simp [hxz, hyz, ih]

/-- Inserting an item before or after the rest of a list has been inserted below a last item. -/
theorem foldr_orderedInsert {key : α → κ} (a x : α) (l : List α) :
    (List.orderedInsert (fun a b => key a ≤ key b) x l).foldr
        (List.orderedInsert fun a b => key a ≤ key b) [a] =
      List.orderedInsert (fun a b => key a ≤ key b) x
        (l.foldr (List.orderedInsert fun a b => key a ≤ key b) [a]) := by
  induction l with
  | nil => rfl
  | cons y l ih =>
    rw [List.orderedInsert_cons]
    by_cases hxy : key x ≤ key y
    · rw [if_pos hxy]
      rfl
    · rw [if_neg hxy, List.foldr_cons, ih, List.foldr_cons, orderedInsert_comm (not_le.mp hxy)]

/-- **The sort is stable**: sorting what has been sorted before, with one more item behind it, is
    sorting everything at once. -/
theorem canonSort_concat (key : α → κ) (l : List α) (a : α) :
    canonSort key (canonSort key l ++ [a]) = canonSort key (l ++ [a]) := by
  have hfoldr : ∀ l : List α, canonSort key (l ++ [a]) =
      l.foldr (List.orderedInsert fun a b => key a ≤ key b) [a] := by
    intro l
    induction l with
    | nil => rfl
    | cons x l ih => exact congrArg _ ih
  rw [hfoldr, hfoldr]
  induction l with
  | nil => rfl
  | cons x l ih =>
    show (List.orderedInsert _ x (canonSort key l)).foldr _ [a] = _
    rw [foldr_orderedInsert, ih]
    rfl

/-! ## Steps for which repetitions do not matter -/

/-- What a step function has to satisfy, on the items of `S` and the states of `I`, for a fold in
    key order to be a function of the SET of items. -/
structure CanonStep (key : α → κ) (step : σ → α → σ) (I : σ → Prop) (S : Set α) : Prop where
  /-- The invariant is kept. -/
  keeps : ∀ {s a}, a ∈ S → I s → I (step s a)
  /-- A repeated item has no second effect. -/
  idem : ∀ {s a}, a ∈ S → I s → step (step s a) a = step s a
  /-- Items of one key have the same effect. -/
  congr : ∀ {s a b}, a ∈ S → b ∈ S → key a = key b → I s → step s a = step s b

namespace CanonStep

variable {key : α → κ} {step : σ → α → σ} {I : σ → Prop} {S : Set α}

/-- Right after an item, the further items of its key can be left out. -/
theorem foldl_drop_key (h : CanonStep key step I S) {a : α} (ha : a ∈ S) {s : σ} (hs : I s) :
    ∀ l : List α, (∀ b ∈ l, b ∈ S) → KeySorted key l → (∀ b ∈ l, key a ≤ key b) →
      l.foldl step (step s a) = (l.filter fun b => key a < key b).foldl step (step s a) := by
  intro l
  induction l with
  | nil => intro _ _ _; rfl
  | cons b l ih =>
    intro hS hsort hle
    have hSl : ∀ c ∈ l, c ∈ S := fun c hc => hS c (List.mem_cons_of_mem b hc)
    have hbl : ∀ c ∈ l, key b ≤ key c := (List.pairwise_cons.mp hsort).1
    rcases eq_or_lt_of_le (hle b List.mem_cons_self) with hab | hab
    · -- `b` carries the key of `a`: its step is absorbed
      have hb : step (step s a) b = step s a := by
        rw [← h.congr ha (hS b List.mem_cons_self) hab (h.keeps ha hs), h.idem ha hs]
      have hfilt : (b :: l).filter (fun c => key a < key c) = l.filter fun c => key a < key c := by
        rw [List.filter_cons_of_neg]
        simp [hab]
      rw [List.foldl_cons, hb, hfilt]
      exact ih hSl (List.pairwise_cons.mp hsort).2 fun c hc => hab ▸ hbl c hc
    · -- from `b` on every key is larger, and nothing is left out
      have hfilt : (b :: l).filter (fun c => key a < key c) = b :: l := by
        refine List.filter_eq_self.mpr fun c hc => decide_eq_true ?_
        rcases List.mem_cons.mp hc with rfl | hc
        · exact hab
        · exact hab.trans_le (hbl c hc)
      rw [hfilt]

/-- The head of a sorted list has the least key. -/
theorem key_head_le {a : α} {l : List α} (hsort : KeySorted key (a :: l)) {k : κ}
    (hk : ∃ c ∈ a :: l, key c = k) : key a ≤ k := by
  obtain ⟨c, hc, rfl⟩ := hk
  rcases List.mem_cons.mp hc with rfl | hc
  · exact le_rfl
  · exact (List.pairwise_cons.mp hsort).1 c hc

/-- Above the key of the heads, the keys of one tail occur in the other. -/
theorem exists_key_above {a b : α} {l₁ l₂ : List α} (hab : key a = key b)
    (hk : ∀ k, (∃ c ∈ a :: l₁, key c = k) → ∃ c ∈ b :: l₂, key c = k) {k : κ}
    (h : ∃ c ∈ l₁.filter fun c => key a < key c, key c = k) :
    ∃ c ∈ l₂.filter fun c => key b < key c, key c = k := by
  obtain ⟨c, hc, rfl⟩ := h
  obtain ⟨hc, hlt⟩ := List.mem_filter.mp hc
  have hlt : key b < key c := by rw [← hab]; exact of_decide_eq_true hlt
  obtain ⟨d, hd, hdc⟩ := hk (key c) ⟨c, List.mem_cons_of_mem a hc, rfl⟩
  rcases List.mem_cons.mp hd with rfl | hd
  · exact absurd hdc hlt.ne
  · refine ⟨d, List.mem_filter.mpr ⟨hd, decide_eq_true ?_⟩, hdc⟩
    rw [hdc]
    exact hlt

/-- **A fold in key order is a function of the set of keys.**  Two sorted lists in which the same
    keys occur fold to the same state. -/
theorem foldl_eq (h : CanonStep key step I S) :
    ∀ (n : ℕ) (l₁ l₂ : List α) (s : σ), l₁.length ≤ n → I s →
      (∀ a ∈ l₁, a ∈ S) → (∀ a ∈ l₂, a ∈ S) → KeySorted key l₁ → KeySorted key l₂ →
      (∀ k, (∃ a ∈ l₁, key a = k) ↔ ∃ a ∈ l₂, key a = k) →
      l₁.foldl step s = l₂.foldl step s := by
  intro n
  induction n with
  | zero =>
    intro l₁ l₂ s hn hs hS₁ hS₂ hsort₁ hsort₂ hk
    obtain rfl : l₁ = [] := List.length_eq_zero_iff.mp (Nat.le_zero.mp hn)
    cases l₂ with
    | nil => rfl
    | cons b l₂ =>
      obtain ⟨a, ha, -⟩ := (hk (key b)).mpr ⟨b, List.mem_cons_self, rfl⟩
      exact absurd ha List.not_mem_nil
  | succ n ih =>
    intro l₁ l₂ s hn hs hS₁ hS₂ hsort₁ hsort₂ hk
    cases l₁ with
    | nil =>
      cases l₂ with
      | nil => rfl
      | cons b l₂ =>
        obtain ⟨a, ha, -⟩ := (hk (key b)).mpr ⟨b, List.mem_cons_self, rfl⟩
        exact absurd ha List.not_mem_nil
    | cons a l₁ =>
      cases l₂ with
      | nil =>
        obtain ⟨b, hb, -⟩ := (hk (key a)).mp ⟨a, List.mem_cons_self, rfl⟩
        exact absurd hb List.not_mem_nil
      | cons b l₂ =>
        have hal : ∀ c ∈ l₁, key a ≤ key c := (List.pairwise_cons.mp hsort₁).1
        have hbl : ∀ c ∈ l₂, key b ≤ key c := (List.pairwise_cons.mp hsort₂).1
        -- both heads carry the least key
        have hab : key a = key b := by
          apply le_antisymm
          · exact key_head_le hsort₁ ((hk (key b)).mpr ⟨b, List.mem_cons_self, rfl⟩)
          · exact key_head_le hsort₂ ((hk (key a)).mp ⟨a, List.mem_cons_self, rfl⟩)
        have haS : a ∈ S := hS₁ a List.mem_cons_self
        have hbS : b ∈ S := hS₂ b List.mem_cons_self
        have hS₁' : ∀ c ∈ l₁, c ∈ S := fun c hc => hS₁ c (List.mem_cons_of_mem a hc)
        have hS₂' : ∀ c ∈ l₂, c ∈ S := fun c hc => hS₂ c (List.mem_cons_of_mem b hc)
        rw [List.foldl_cons, List.foldl_cons,
          h.foldl_drop_key haS hs l₁ hS₁' (List.pairwise_cons.mp hsort₁).2 hal,
          h.foldl_drop_key hbS hs l₂ hS₂' (List.pairwise_cons.mp hsort₂).2 hbl,
          ← h.congr haS hbS hab hs]
        refine ih _ _ _ ?_ (h.keeps haS hs) (fun c hc => hS₁' c (List.mem_of_mem_filter hc))
          (fun c hc => hS₂' c (List.mem_of_mem_filter hc))
          ((List.pairwise_cons.mp hsort₁).2.filter _)
          ((List.pairwise_cons.mp hsort₂).2.filter _) ?_
        · have := List.length_filter_le (fun c => decide (key a < key c)) l₁
          simp only [List.length_cons] at hn
          omega
        · -- above the least key the two lists still have the same keys
          intro k
          constructor
          · exact exists_key_above hab fun k => (hk k).mp
          · exact exists_key_above hab.symm fun k => (hk k).mpr

end CanonStep

/-! ## What a fold attains -/

/-- What every step keeps on the states of `I`, and some item of the list brings about, holds at the
    end of a fold. -/
theorem foldl_attains {f : σ → α → σ} {I P : σ → Prop} {Q : α → Prop} : ∀ (l : List α),
    (∀ a ∈ l, ∀ s, I s → I (f s a) ∧ (P s ∨ Q a → P (f s a))) → ∀ {s : σ}, I s →
      I (l.foldl f s) ∧ (P s ∨ (∃ a ∈ l, Q a) → P (l.foldl f s)) := by
  intro l
  induction l with
  | nil =>
    intro _ s hs
    refine ⟨hs, fun h => h.elim id ?_⟩
    rintro ⟨a, ha, -⟩
    exact absurd ha List.not_mem_nil
  | cons a l ih =>
    intro hstep s hs
    obtain ⟨hI, hP⟩ := hstep a List.mem_cons_self s hs
    obtain ⟨hI', hP'⟩ := ih (fun b hb => hstep b (List.mem_cons_of_mem a hb)) hI
    refine ⟨hI', fun h => hP' ?_⟩
    rcases h with h | ⟨b, hb, hQ⟩
    · exact Or.inl (hP (Or.inl h))
    · rcases List.mem_cons.mp hb with rfl | hb
      · exact Or.inl (hP (Or.inr hQ))
      · exact Or.inr ⟨b, hb, hQ⟩

/-! ## Joins -/

/-- A fold with a semilattice operation is a function of the set of its items. -/
theorem foldl_join_eq {op : α → α → α} [Std.Commutative op] [Std.Associative op]
    [Std.IdempotentOp op] {l₁ l₂ : List α} (h : ∀ x, x ∈ l₁ ↔ x ∈ l₂) (b : α) :
    l₁.foldl op b = l₂.foldl op b := by
  classical
  have hdedup : (l₁ : Multiset α).dedup = (l₂ : Multiset α).dedup := Multiset.dedup_ext.mpr h
  rw [← Multiset.coe_fold_l, ← Multiset.coe_fold_l, ← Multiset.fold_dedup_idem op (l₁ : Multiset α),
    hdedup, Multiset.fold_dedup_idem]

end PhReactor.Lib
