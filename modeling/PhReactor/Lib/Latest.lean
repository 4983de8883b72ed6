/-
  The LAST items of a history.

  A table that is written once for every item of a history holds, under each key, what the last
  item of that key wrote.  So what such tables say is a matter of last items:

  1. `last? p l` is the last item of `l` with the property `p`; appending and filtering change it
     as one expects.

  2. `latest key l` keeps the last item of each key, in the order of the history.  An item is kept
     exactly when it is the last of its key (`mem_latest`).

  3. `last?_latest`: the last item with another property is still there, and still the last one,
     if it is the last of its key.

  4. A table that is REWRITTEN for every item, without the entries of its key and with the item at
     the end, holds what was not touched and then `latest` (`foldl_rewrite`).  Read under another
     property it still answers with the last item of table and history, unless a later item took
     its entry away (`last?_rewritten`, `ne_of_last?_rewritten`).
-/
import Mathlib.Tactic.TypeStar
import Mathlib.Order.Basic
import Mathlib.Data.List.Induction

namespace PhReactor.Lib

variable {α κ : Type*}

/-! ## The last item with a property -/

/-- The last item of the list with that property. -/
def last? (p : α → Bool) : List α → Option α
  | [] => none
  | x :: l => (last? p l).or (if p x then some x else none)

variable {p q : α → Bool} {x : α} {l l' : List α}

theorem last?_append : last? p (l ++ l') = (last? p l').or (last? p l) := by
  induction l with
  | nil => rw [List.nil_append, last?, Option.or_none]
  | cons x l ih =>
    rw [List.cons_append, last?, last?, ih, Option.or_assoc]

theorem last?_concat : last? p (l ++ [x]) = if p x then some x else last? p l := by
  rw [last?_append]
  cases h : p x <;> simp [last?, h]

theorem last?_mem (h : last? p l = some x) : x ∈ l ∧ p x = true := by
  induction l with
  | nil => cases h
  | cons y l ih =>
    rw [last?, Option.or_eq_some_iff] at h
    rcases h with h | ⟨-, h⟩
    · exact ⟨List.mem_cons_of_mem y (ih h).1, (ih h).2⟩
    · split at h
      · next hy =>
        obtain rfl := Option.some.inj h
        exact ⟨List.mem_cons_self, hy⟩
      · cases h

theorem last?_eq_none : last? p l = none ↔ ∀ x ∈ l, p x = false := by
  induction l with
  | nil => exact iff_of_true rfl fun x hx => absurd hx List.not_mem_nil
  | cons y l ih =>
    rw [last?, Option.or_eq_none_iff, ih, List.forall_mem_cons, and_comm]
    cases p y <;> simp

theorem last?_isSome (hx : x ∈ l) (hp : p x = true) : ∃ y, last? p l = some y := by
  refine Option.ne_none_iff_exists'.mp fun hnone => ?_
  rw [last?_eq_none.mp hnone x hx] at hp
  cases hp

/-- What is found splits the list. -/
theorem exists_of_last? (h : last? p l = some x) :
    ∃ before after, l = before ++ x :: after ∧ ∀ y ∈ after, p y = false := by
  induction l with
  | nil => cases h
  | cons y l ih =>
    rw [last?, Option.or_eq_some_iff] at h
    rcases h with h | ⟨hnone, h⟩
    · obtain ⟨before, after, rfl, hafter⟩ := ih h
      exact ⟨y :: before, after, rfl, hafter⟩
    · split at h
      · obtain rfl := Option.some.inj h
        refine ⟨[], l, rfl, fun z hz => Bool.eq_false_iff.mpr fun hp => ?_⟩
        obtain ⟨w, hw⟩ := last?_isSome hz hp
        rw [hnone] at hw
        cases hw
      · cases h

/-- Two last items that share both properties are one. -/
theorem last?_unique {y : α} (hx : last? p l = some x) (hy : last? q l = some y) (hqx : q x = true)
    (hpy : p y = true) : x = y := by
  induction l with
  | nil => cases hx
  | cons z l ih =>
    rw [last?, Option.or_eq_some_iff] at hx hy
    rcases hx with hx | ⟨hnoneP, hx⟩
    · rcases hy with hy | ⟨hnoneQ, -⟩
      · exact ih hx hy
      · rw [last?_eq_none.mp hnoneQ x (last?_mem hx).1] at hqx
        cases hqx
    · rcases hy with hy | ⟨-, hy⟩
      · rw [last?_eq_none.mp hnoneP y (last?_mem hy).1] at hpy
        cases hpy
      · split at hx
        · split at hy
          · exact (Option.some.inj hx).symm.trans (Option.some.inj hy)
          · cases hy
        · cases hx

/-- The last item stays the last one where it is kept. -/
theorem last?_filter (h : last? p l = some x) (hq : q x = true) :
    last? p (l.filter q) = some x := by
  induction l with
  | nil => cases h
  | cons y l ih =>
    rw [last?, Option.or_eq_some_iff] at h
    rcases h with h | ⟨hnone, h⟩
    · cases hy : q y with
      | true => rw [List.filter_cons_of_pos hy, last?, ih h, Option.some_or]
      | false => rw [List.filter_cons_of_neg (by simp [hy])]; exact ih h
    · split at h
      · next hpy =>
        obtain rfl := Option.some.inj h
        have hrest : last? p (l.filter q) = none :=
          last?_eq_none.mpr fun z hz => last?_eq_none.mp hnone z ((List.mem_filter.mp hz).1)
        rw [List.filter_cons_of_pos hq, last?, hrest, if_pos hpy]
        rfl
      · cases h

/-- Items without the property may be left out. -/
theorem last?_filter_of_imp (h : ∀ y ∈ l, p y = true → q y = true) :
    last? p (l.filter q) = last? p l := by
  induction l with
  | nil => rfl
  | cons y l ih =>
    have hrest := ih fun z hz => h z (List.mem_cons_of_mem y hz)
    cases hq : q y with
    | true => rw [List.filter_cons_of_pos hq, last?, last?, hrest]
    | false =>
      have hp : p y = false :=
        Bool.eq_false_iff.mpr fun hp => by simp [h y List.mem_cons_self hp] at hq
      rw [List.filter_cons_of_neg (by simp [hq]), last?, hrest, hp]
      exact (Option.or_none).symm

/-! ## The last item of each key -/

variable [DecidableEq κ] {key : α → κ}

/-- The last item of each key, in order. -/
def latest (key : α → κ) : List α → List α
  | [] => []
  | x :: l => if l.any (fun y => key y == key x) then latest key l else x :: latest key l

/-- The last item of that key. -/
abbrev lastOf (key : α → κ) (k : κ) (l : List α) : Option α := last? (fun y => key y == k) l

theorem lastOf_key {k : κ} (h : lastOf key k l = some x) : key x = k :=
  beq_iff_eq.mp (last?_mem h).2

theorem exists_lastOf (hx : x ∈ l) : ∃ y, lastOf key (key x) l = some y :=
  last?_isSome hx (beq_self_eq_true _)

theorem latest_sublist (key : α → κ) (l : List α) : (latest key l).Sublist l := by
  induction l with
  | nil => exact List.Sublist.slnil
  | cons x l ih =>
    unfold latest
    split
    · exact ih.cons x
    · exact ih.cons_cons x

/-- **An item is kept exactly when it is the last of its key.** -/
theorem mem_latest : x ∈ latest key l ↔ lastOf key (key x) l = some x := by
  induction l with
  | nil => exact iff_of_false List.not_mem_nil (by simp [lastOf, last?])
  | cons y l ih =>
    unfold latest
    unfold lastOf at ih ⊢
    rw [last?]
    split
    · next hlater =>
      rw [ih]
      constructor
      · intro h
        rw [h, Option.some_or]
      · intro h
        rw [Option.or_eq_some_iff] at h
        rcases h with h | ⟨hnone, h⟩
        · exact h
        · -- the head would be the last of its key, and is not
          split at h
          · obtain rfl := Option.some.inj h
            obtain ⟨z, hz, hkey⟩ := List.any_eq_true.mp hlater
            rw [last?_eq_none.mp hnone z hz] at hkey
            cases hkey
          · cases h
    · next hlast =>
      rw [List.mem_cons, ih]
      have hnone : last? (fun z => key z == key y) l = none := by
        refine last?_eq_none.mpr fun z hz => Bool.eq_false_iff.mpr fun hkey => hlast ?_
        exact List.any_eq_true.mpr ⟨z, hz, hkey⟩
      constructor
      · rintro (rfl | h)
        · rw [hnone, if_pos (beq_self_eq_true _)]
          rfl
        · rw [h, Option.some_or]
      · intro h
        rw [Option.or_eq_some_iff] at h
        rcases h with h | ⟨-, h⟩
        · exact Or.inr h
        · split at h
          · exact Or.inl (Option.some.inj h).symm
          · cases h

/-- **The last item with another property is kept, and stays the last one**, where it is the last
    of its key. -/
theorem last?_latest (h : last? p l = some x) (hkey : lastOf key (key x) l = some x) :
    last? p (latest key l) = some x := by
  induction l with
  | nil => cases h
  | cons y l ih =>
    unfold lastOf at ih hkey
    rw [last?, Option.or_eq_some_iff] at h hkey
    unfold latest
    rcases h with h | ⟨hnone, h⟩
    · -- `x` comes later, so it is the last of its key later on
      have hlater : last? (fun z => key z == key x) l = some x := by
        rcases hkey with hkey | ⟨hno, -⟩
        · exact hkey
        · have hx := last?_eq_none.mp hno x (last?_mem h).1
          simp at hx
      split
      · exact ih h hlater
      · rw [last?, ih h hlater, Option.some_or]
    · split at h
      · next hpy =>
        obtain rfl := Option.some.inj h
        have hrest : last? p (latest key l) = none :=
          last?_eq_none.mpr fun z hz =>
            last?_eq_none.mp hnone z ((latest_sublist key l).subset hz)
        have hlast : ¬ l.any (fun z => key z == key y) = true := by
          intro hany
          obtain ⟨z, hz, hzy⟩ := List.any_eq_true.mp hany
          rcases hkey with hkey | ⟨hno, -⟩
          · have := last?_eq_none.mp hnone y (last?_mem hkey).1
            rw [hpy] at this
            cases this
          · rw [last?_eq_none.mp hno z hz] at hzy
            cases hzy
        rw [if_neg hlast, last?, hrest, if_pos hpy]
        rfl
      · cases h

/-! ## Tables that are rewritten -/

theorem lastOf_isSome {k : κ} : (lastOf key k l).isSome = l.any fun y => key y == k := by
  unfold lastOf
  cases h : l.any fun y => key y == k with
  | true =>
    obtain ⟨y, hy, hkey⟩ := List.any_eq_true.mp h
    obtain ⟨z, hz⟩ := last?_isSome (p := fun y => key y == k) hy hkey
    rw [hz]
    rfl
  | false =>
    rw [last?_eq_none.mpr fun y hy => ?_]
    · rfl
    · exact Bool.eq_false_iff.mpr fun hkey => by
        rw [List.any_eq_true.mpr ⟨y, hy, hkey⟩] at h
        cases h

theorem latest_concat (key : α → κ) (l : List α) (x : α) :
    latest key (l ++ [x]) = (latest key l).filter (fun y => key y ≠ key x) ++ [x] := by
  induction l with
  | nil => rfl
  | cons y l ih =>
    rw [List.cons_append, latest, ih, latest, List.any_append]
    cases hlater : l.any fun z => key z == key y with
    | true => simp
    | false =>
      by_cases hxy : key x = key y
      · simp [hxy]
      · simp [hxy, Ne.symm hxy]

/-- Write one item: the entries of its key go, and it comes last. -/
def rewrite (key : α → κ) (table : List α) (x : α) : List α :=
  table.filter (fun v => key v ≠ key x) ++ [x]

/-- **What the table holds after a history**: the entries of other keys, and the last item of each
    key that was written. -/
theorem foldl_rewrite (key : α → κ) (table l : List α) :
    l.foldl (rewrite key) table =
      table.filter (fun v => !l.any fun x => key x == key v) ++ latest key l := by
  induction l using List.reverseRecOn with
  | nil =>
    show table = table.filter (fun _ => true) ++ []
    rw [List.append_nil, List.filter_eq_self.mpr fun _ _ => rfl]
  | append_singleton l x ih =>
    rw [List.foldl_append, List.foldl_cons, List.foldl_nil, ih, latest_concat, rewrite,
      List.filter_append, List.filter_filter, List.append_assoc]
    congr 2
    funext v
    rw [List.any_append]
    cases l.any fun z => key z == key v <;> simp [eq_comm, beq_eq_decide]

section

variable {table : List α}

/-- The last item with a property is found in the rewritten table, if the last item of its key has
    the property too. -/
theorem last?_rewritten (h : last? p (table ++ l) = some x)
    (hkey : ∀ y, lastOf key (key x) l = some y → p y = true) :
    last? p (l.foldl (rewrite key) table) = some x := by
  rw [foldl_rewrite, last?_append]
  rw [last?_append] at h
  cases hl : last? p l with
  | some z =>
    rw [hl, Option.some_or] at h
    obtain rfl := Option.some.inj h
    obtain ⟨y, hy⟩ : ∃ y, lastOf key (key z) l = some y := exists_lastOf (last?_mem hl).1
    -- the last item of that key has the property, so it is this one
    obtain rfl := last?_unique hl hy (beq_self_eq_true _) (hkey y hy)
    rw [last?_latest hl hy, Option.some_or]
  | none =>
    rw [hl, Option.none_or] at h
    have hnone : lastOf key (key x) l = none := by
      refine Option.eq_none_iff_forall_ne_some.mpr fun y hy => ?_
      have hp := hkey y hy
      rw [last?_eq_none.mp hl y (last?_mem hy).1] at hp
      cases hp
    have huntouched : (!l.any fun z => key z == key x) = true := by
      rw [← lastOf_isSome, hnone]
      rfl
    rw [last?_eq_none.mpr fun z hz => last?_eq_none.mp hl z ((latest_sublist key l).subset hz),
      Option.none_or]
    exact last?_filter h huntouched

theorem last?_rewritten_none (h : last? p (table ++ l) = none) :
    last? p (l.foldl (rewrite key) table) = none := by
  have hno := last?_eq_none.mp h
  rw [foldl_rewrite]
  refine last?_eq_none.mpr fun z hz => hno z ?_
  rcases List.mem_append.mp hz with hz | hz
  · exact List.mem_append_left l (List.mem_filter.mp hz).1
  · exact List.mem_append_right table ((latest_sublist key l).subset hz)

/-- What is found under the property has another key than an item whose key was last written
    without the property. -/
theorem ne_of_last?_rewritten {y z : α} (hy : lastOf key (key x) l = some y) (hp : p y = false)
    (hz : last? p (l.foldl (rewrite key) table) = some z) : key z ≠ key x := by
  rw [foldl_rewrite] at hz
  obtain ⟨hmem, hpz⟩ := last?_mem hz
  intro hkey
  rcases List.mem_append.mp hmem with hkept | hlatest
  · -- its key was written
    have huntouched := (List.mem_filter.mp hkept).2
    rw [hkey, ← lastOf_isSome, hy] at huntouched
    cases huntouched
  · have hlast := mem_latest.mp hlatest
    rw [hkey, hy] at hlast
    obtain rfl := Option.some.inj hlast
    rw [hp] at hpz
    cases hpz

end

end PhReactor.Lib
