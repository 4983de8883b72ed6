/-
  Facts about `Std.ExtTreeMap` as an association list.

  The maps of the source are `BTreeMap`s; `Std.ExtTreeMap` is the same thing with extensional
  equality.  Loops over a map run over its entry list in key order, so what a loop does is read
  off `toList`: the keys are distinct (`distinct_toList`) and looking a key up in the list is
  looking it up in the map (`lookup_toList`).
-/
import Mathlib.Order.Basic
import Std.Data.ExtTreeMap

namespace PhReactor.Lib

variable {κ ν : Type*} [Ord κ] [Std.TransOrd κ] [Std.LawfulEqOrd κ]

theorem distinct_toList (m : Std.ExtTreeMap κ ν) : m.toList.Pairwise fun p q => p.1 ≠ q.1 :=
  Std.ExtTreeMap.distinct_keys_toList.imp fun h heq => h (Std.compare_eq_iff_eq.mpr heq)

theorem mem_toList {m : Std.ExtTreeMap κ ν} {k : κ} {v : ν} : (k, v) ∈ m.toList ↔ m[k]? = some v :=
  Std.ExtTreeMap.mem_toList_iff_getElem?_eq_some

theorem lookup_toList [BEq κ] [LawfulBEq κ] (m : Std.ExtTreeMap κ ν) (k : κ) :
    m.toList.lookup k = m[k]? := by
  cases hl : m.toList.lookup k with
  | some v =>
    obtain ⟨l₁, l₂, hsplit, -⟩ := List.lookup_eq_some_iff.mp hl
    exact (mem_toList.mp (by rw [hsplit]; simp)).symm
  | none =>
    cases hm : m[k]? with
    | none => rfl
    | some v =>
      have hne := List.lookup_eq_none_iff.mp hl (k, v) (mem_toList.mpr hm)
      simp at hne

theorem insert_insert (m : Std.ExtTreeMap κ ν) (k : κ) (v w : ν) :
    (m.insert k v).insert k w = m.insert k w := by
  refine Std.ExtTreeMap.ext_getElem? fun {j} => ?_
  rw [Std.ExtTreeMap.getElem?_insert, Std.ExtTreeMap.getElem?_insert,
    Std.ExtTreeMap.getElem?_insert]
  split <;> rfl

/-- Putting back what is there changes nothing. -/
theorem insert_of_getElem? {m : Std.ExtTreeMap κ ν} {k : κ} {v : ν} (h : m[k]? = some v) :
    m.insert k v = m := by
  refine Std.ExtTreeMap.ext_getElem? fun {j} => ?_
  rw [Std.ExtTreeMap.getElem?_insert]
  split
  · next hkj =>
    rw [Std.LawfulEqCmp.compare_eq_iff_eq] at hkj
    rw [← hkj, h]
  · rfl

/-- Other keys do not matter. -/
theorem getElem?_foldl_insert_of_ne {ν' : Type*} {f : ν → ν'} {k : κ} {l : List (κ × ν)}
    (h : ∀ p ∈ l, p.1 ≠ k) (m : Std.ExtTreeMap κ ν') :
    (l.foldl (fun m (k, v) => m.insert k (f v)) m)[k]? = m[k]? := by
  induction l generalizing m with
  | nil => rfl
  | cons p l ih =>
    have hp : compare p.1 k ≠ .eq := fun heq =>
      h p List.mem_cons_self (Std.compare_eq_iff_eq.mp heq)
    rw [List.foldl_cons, ih fun q hq => h q (List.mem_cons_of_mem p hq)]
    rw [Std.ExtTreeMap.getElem?_insert, if_neg hp]

/-- What is inserted for a key, if each key comes once. -/
theorem getElem?_foldl_insert_of_mem {ν' : Type*} {f : ν → ν'} {k : κ} {v : ν} {l : List (κ × ν)}
    (hl : l.Pairwise fun p q => p.1 ≠ q.1) (h : (k, v) ∈ l) (m : Std.ExtTreeMap κ ν') :
    (l.foldl (fun m (k, v) => m.insert k (f v)) m)[k]? = some (f v) := by
  induction l generalizing m with
  | nil => cases h
  | cons p l ih =>
    rw [List.pairwise_cons] at hl
    rw [List.foldl_cons]
    rcases List.mem_cons.mp h with rfl | h
    · rw [getElem?_foldl_insert_of_ne fun q hq heq => hl.1 q hq heq.symm]
      exact Std.ExtTreeMap.getElem?_insert_self
    · exact ih hl.2 h _

end PhReactor.Lib
