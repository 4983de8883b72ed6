/-
  A list of entries with keys, as a table.

  `entry key l n` is the first entry of the list with the key `n`.  Where no two entries have one
  key (`Distinct`) the list is a finite table, and the order of its entries is presentation only.

  1. What replacing, appending, filtering and sorting do to the table (`entry_replaceFirst`,
     `entry_concat`, `entry_filter_ne`, `entry_perm`).

  2. Two sorted lists with the same table are equal (`eq_of_entry`): a sorted list says no more than
     its table.
-/
import Mathlib.Data.List.Nodup
import Mathlib.Data.List.Sort
import Mathlib.Logic.Function.Basic

namespace PhReactor.Lib

variable {α κ : Type*} (key : α → κ)

/-- No two entries have one key. -/
def Distinct (l : List α) : Prop := (l.map key).Nodup

section

variable {key} {l l' : List α}

theorem Distinct.filter (hd : Distinct key l) (p : α → Bool) : Distinct key (l.filter p) :=
  hd.sublist (List.filter_sublist.map key)

theorem Distinct.perm (hd : Distinct key l) (h : l.Perm l') : Distinct key l' :=
  (h.map key).nodup_iff.mp hd

end

variable [DecidableEq κ]

/-- The first entry with this key. -/
def entry (l : List α) (n : κ) : Option α := l.find? fun x => decide (key x = n)

/-- Change the first entry with this key. -/
def replaceFirst (n : κ) (f : α → α) : List α → List α
  | [] => []
  | x :: l => if key x = n then f x :: l else x :: replaceFirst n f l

variable {key} {l l' : List α} {n m : κ} {x : α} {f : α → α}

@[simp] theorem entry_nil : entry key [] n = none := rfl

theorem entry_cons : entry key (x :: l) n = if key x = n then some x else entry key l n := by
  unfold entry
  rw [List.find?_cons]
  by_cases h : key x = n <;> simp [h]

theorem key_of_entry (h : entry key l n = some x) : key x = n := by
  have hx := List.find?_some h
  exact of_decide_eq_true hx

theorem mem_of_entry (h : entry key l n = some x) : x ∈ l := List.mem_of_find?_eq_some h

theorem entry_eq_none_iff : entry key l n = none ↔ ∀ x ∈ l, key x ≠ n := by
  simp [entry]

theorem Distinct.cons_iff :
    Distinct key (x :: l) ↔ entry key l (key x) = none ∧ Distinct key l := by
  unfold Distinct
  rw [List.map_cons, List.nodup_cons, entry_eq_none_iff, List.mem_map]
  constructor
  · rintro ⟨hx, hl⟩
    exact ⟨fun y hy heq => hx ⟨y, hy, heq⟩, hl⟩
  · rintro ⟨hx, hl⟩
    exact ⟨fun ⟨y, hy, heq⟩ => hx y hy heq, hl⟩

/-- **Where the keys are distinct** every entry is the one under its key. -/
theorem Distinct.entry_eq (hd : Distinct key l) (hx : x ∈ l) : entry key l (key x) = some x := by
  induction l with
  | nil => exact absurd hx List.not_mem_nil
  | cons y l ih =>
    obtain ⟨hy, hl⟩ := Distinct.cons_iff.mp hd
    rw [entry_cons]
    rcases List.mem_cons.mp hx with rfl | hx
    · exact if_pos rfl
    · have hne : key y ≠ key x := fun heq => entry_eq_none_iff.mp hy x hx heq.symm
      rw [if_neg hne]
      exact ih hl hx

theorem Distinct.entry_iff (hd : Distinct key l) :
    entry key l n = some x ↔ x ∈ l ∧ key x = n := by
  constructor
  · exact fun h => ⟨mem_of_entry h, key_of_entry h⟩
  · rintro ⟨hx, rfl⟩
    exact hd.entry_eq hx

/-! ## Changing the list -/

theorem map_key_replaceFirst (hf : ∀ x, key x = n → key (f x) = n) :
    (replaceFirst key n f l).map key = l.map key := by
  induction l with
  | nil => rfl
  | cons x l ih =>
    unfold replaceFirst
    split
    · next h => rw [List.map_cons, List.map_cons, hf x h, h]
    · rw [List.map_cons, List.map_cons, ih]

theorem Distinct.replaceFirst (hd : Distinct key l) (hf : ∀ x, key x = n → key (f x) = n) :
    Distinct key (replaceFirst key n f l) := by
  unfold Distinct
  rw [map_key_replaceFirst hf]
  exact hd

theorem entry_replaceFirst (hf : ∀ x, key x = n → key (f x) = n) :
    entry key (replaceFirst key n f l) m =
      if m = n then (entry key l n).map f else entry key l m := by
  induction l with
  | nil => simp [replaceFirst]
  | cons x l ih =>
    unfold replaceFirst
    by_cases hx : key x = n
    · rw [if_pos hx, entry_cons, hf x hx, entry_cons, if_pos hx, entry_cons, hx, Option.map_some]
      by_cases hm : m = n
      · rw [if_pos hm.symm, if_pos hm]
      · rw [if_neg (Ne.symm hm), if_neg hm, if_neg (Ne.symm hm)]
    · rw [if_neg hx, entry_cons, entry_cons, if_neg hx, entry_cons, ih]
      by_cases hm : m = n
      · rw [if_pos hm, if_pos hm, if_neg (hm ▸ hx)]
      · rw [if_neg hm, if_neg hm]

theorem entry_concat (h : entry key l (key x) = none) :
    entry key (l ++ [x]) m = if m = key x then some x else entry key l m := by
  induction l with
  | nil =>
    rw [List.nil_append, entry_cons]
    simp [eq_comm]
  | cons y l ih =>
    rw [entry_cons] at h
    have hy : key y ≠ key x := by
      intro heq
      rw [if_pos heq] at h
      exact absurd h (by simp)
    rw [if_neg hy] at h
    rw [List.cons_append, entry_cons, ih h, entry_cons]
    by_cases hm : m = key x
    · have hne : key y ≠ m := hm ▸ hy
      rw [if_neg hne, if_pos hm, if_pos hm]
    · rw [if_neg hm, if_neg hm]

theorem Distinct.concat (hd : Distinct key l) (h : entry key l (key x) = none) :
    Distinct key (l ++ [x]) := by
  unfold Distinct at *
  rw [List.map_append, List.nodup_append]
  refine ⟨hd, List.nodup_singleton _, fun k hk k' hk' heq => ?_⟩
  obtain ⟨y, hy, rfl⟩ := List.mem_map.mp hk
  rw [List.map_singleton, List.mem_singleton] at hk'
  exact entry_eq_none_iff.mp h y hy (heq.trans hk')

theorem entry_filter_ne :
    entry key (l.filter fun x => decide (key x ≠ n)) m = if m = n then none else entry key l m := by
  induction l with
  | nil => simp
  | cons x l ih =>
    rw [List.filter_cons]
    by_cases hx : key x = n
    · rw [if_neg (by simpa using hx), ih, entry_cons]
      by_cases hm : m = n
      · rw [if_pos hm, if_pos hm]
      · rw [if_neg hm, if_neg hm, hx, if_neg (Ne.symm hm)]
    · rw [if_pos (by simpa using hx), entry_cons, entry_cons, ih]
      by_cases hm : m = n
      · rw [if_pos hm, if_pos hm, if_neg (hm ▸ hx)]
      · rw [if_neg hm, if_neg hm]

/-! ## The order of the entries -/

/-- **Reordering** distinct entries changes no entry. -/
theorem entry_perm (hd : Distinct key l) (h : l.Perm l') : entry key l' n = entry key l n := by
  have hd' := hd.perm h
  cases hl : entry key l n with
  | none =>
    rw [entry_eq_none_iff] at hl ⊢
    exact fun x hx => hl x (h.mem_iff.mpr hx)
  | some x =>
    obtain ⟨hx, hkey⟩ := hd.entry_iff.mp hl
    exact hd'.entry_iff.mpr ⟨h.mem_iff.mp hx, hkey⟩

/-- **A sorted list is its table.** -/
theorem eq_of_entry {r : α → α → Prop} (hanti : ∀ x ∈ l, ∀ y ∈ l, r x y → r y x → x = y)
    (hd : Distinct key l) (hd' : Distinct key l') (hs : l.Pairwise r) (hs' : l'.Pairwise r)
    (h : ∀ n, entry key l n = entry key l' n) : l = l' := by
  have hperm : l.Perm l' := by
    refine (List.perm_ext_iff_of_nodup hd.of_map hd'.of_map).mpr fun x => ?_
    constructor
    · intro hx
      exact mem_of_entry ((h (key x)).symm.trans (hd.entry_eq hx))
    · intro hx
      exact mem_of_entry ((h (key x)).trans (hd'.entry_eq hx))
  exact hperm.eq_of_pairwise (fun x y hx hy => hanti x hx y (hperm.mem_iff.mpr hy)) hs hs'

end PhReactor.Lib
