/-
  Items that carry vector clocks, and what a clock says about possession.

  An item is made at an origin and carries the counters its maker had seen, its own included.  A
  party joins the clocks of the items it gets.  Its clock then says less than one would like: an
  item may be missing although the clock covers it, because a later one brought the counter along.
  `NoHole` is the property that this is not so, and the lemmas say which steps keep it:

    * getting an item whose clock covers nothing the party lacks (`NoHole.deliver`);
    * somebody else making an item with a counter above the party's own (`NoHole.issue`);
    * making an item oneself, or hearing that one held is known to others (`NoHole.archive_held`).
-/
import Mathlib.Data.Set.Insert
import Mathlib.Order.MinMax

namespace PhReactor.Lib

variable {α O κ : Type*} [LinearOrder κ]

/-- How items are stamped: with their origin, and with a counter for every origin. -/
structure Stamping (α O κ : Type*) where
  origin : α → O
  clock : α → O → κ

/-- The counter an item has at its own origin. -/
def Stamping.seq (st : Stamping α O κ) (b : α) : κ := st.clock b (st.origin b)

/-- Every item of `archive` that the clock `c` covers at the item's own origin is held. -/
def NoHole (st : Stamping α O κ) (archive held : Set α) (c : O → κ) : Prop :=
  ∀ b ∈ archive, st.seq b ≤ c (st.origin b) → b ∈ held

variable {st : Stamping α O κ} {archive held : Set α} {c : O → κ}

/-- Coverage means possession. -/
theorem NoHole.mem_of_covers (h : NoHole st archive held c) {b : α} (hb : b ∈ archive)
    (hc : ∀ o, st.clock b o ≤ c o) : b ∈ held :=
  h b hb (hc (st.origin b))

/-- Getting `p`, when everything of the archive that its clock covers is held, or is `p`. -/
theorem NoHole.deliver (h : NoHole st archive held c) {held' : Set α} {c' : O → κ} {p : α}
    (hp : ∀ b ∈ archive, st.seq b ≤ st.clock p (st.origin b) → b ∈ held ∨ b = p)
    (hheld : ∀ b, b ∈ held ∨ b = p → b ∈ held') (hc : ∀ o, c' o ≤ max (c o) (st.clock p o)) :
    NoHole st archive held' c' := by
  intro b hb hle
  apply hheld
  rcases le_max_iff.mp (hle.trans (hc _)) with hle | hle
  · exact Or.inl (h b hb hle)
  · exact hp b hb hle

/-- The archive gets an item whose own counter is above the clock. -/
theorem NoHole.issue (h : NoHole st archive held c) {p : α} (hp : c (st.origin p) < st.seq p) :
    NoHole st (insert p archive) held c := by
  intro b hb hle
  rcases Set.mem_insert_iff.mp hb with rfl | hb
  · exact absurd hle (not_le.mpr hp)
  · exact h b hb hle

/-- The archive gets an item that is held. -/
theorem NoHole.archive_held (h : NoHole st archive held c) {p : α} (hp : p ∈ held) :
    NoHole st (insert p archive) held c := by
  intro b hb hle
  rcases Set.mem_insert_iff.mp hb with rfl | hb
  · exact hp
  · exact h b hb hle

end PhReactor.Lib
