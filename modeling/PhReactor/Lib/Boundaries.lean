/-
  Fields one after the other, and what can be told of the BOUNDARIES between them.

  A field is written either with the number of its bytes first or raw, with nothing to say where
  it ends.  `flat` is the fields one after the other.

  1. Two sequences of fields of the same kinds may be written alike though they differ.  Then one
     field is DISPLACED (`Displaced`): up to it the two agree; in the one it is longer than in the
     other, by `x` at its end; and `x` followed by the fields after the longer one is what the
     fields after the shorter one are written as.  `flat_eq_iff` says that this is the only way.

  2. What keeps a field from being displaced: a raw field has one length in both, a field with its
     length first is below the bound up to which lengths can be told apart (`not_displaced`).
-/
import Mathlib.Data.Set.Function

namespace PhReactor.Lib

/-- A field: its bytes, and whether their number goes first. -/
structure Segment (β : Type) where
  prefixed : Bool
  bytes : List β

namespace Segment

variable {β : Type}

def raw (bytes : List β) : Segment β := ⟨false, bytes⟩

def counted (bytes : List β) : Segment β := ⟨true, bytes⟩

variable (len : ℕ → List β)

/-- What goes before the bytes. -/
def header (f : Segment β) : List β := if f.prefixed then len f.bytes.length else []

/-- The fields one after the other. -/
def flat (l : List (Segment β)) : List β := l.flatMap fun f => f.header len ++ f.bytes

/-- The field `f` before `rest` reads like the longer `f'` before `rest'`. -/
def Slips (f : Segment β) (rest : List (Segment β)) (f' : Segment β)
    (rest' : List (Segment β)) : Prop :=
  f.header len = f'.header len ∧
    ∃ x, x ≠ [] ∧ f'.bytes = f.bytes ++ x ∧ flat len rest = x ++ flat len rest'

/-- The first field in which the two sequences differ slips, one way or the other. -/
def Displaced : List (Segment β) → List (Segment β) → Prop
  | f :: rest, f' :: rest' =>
    (f = f' ∧ Displaced rest rest') ∨ Slips len f rest f' rest' ∨ Slips len f' rest' f rest
  | _, _ => False

/-- The same kinds of fields, as far as both go; beyond, every field has its length first. -/
def SameKinds : List (Segment β) → List (Segment β) → Prop
  | f :: rest, f' :: rest' => f.prefixed = f'.prefixed ∧ SameKinds rest rest'
  | l, l' => ∀ f ∈ l ++ l', f.prefixed = true

theorem sameKinds_of_counted : ∀ {l l' : List (Segment β)}, (∀ f ∈ l, f.prefixed = true) →
    (∀ f ∈ l', f.prefixed = true) → SameKinds l l' := by
  intro l
  induction l with
  | nil =>
    intro l' _ h' f hf
    exact h' f hf
  | cons f rest ih =>
    rintro (_ | ⟨f', rest'⟩) h h'
    · intro g hg
      rw [List.append_nil] at hg
      exact h g hg
    · refine ⟨(h f List.mem_cons_self).trans (h' f' List.mem_cons_self).symm, ?_⟩
      exact ih (fun g hg => h g (List.mem_cons_of_mem _ hg))
        fun g hg => h' g (List.mem_cons_of_mem _ hg)

variable {len}

theorem flat_cons (f : Segment β) (rest : List (Segment β)) :
    flat len (f :: rest) = f.header len ++ (f.bytes ++ flat len rest) := by
  unfold flat
  rw [List.flatMap_cons, List.append_assoc]

theorem ext_of_bytes {f f' : Segment β} (hkind : f.prefixed = f'.prefixed)
    (h : f.bytes = f'.bytes) : f = f' := by
  cases f
  cases f'
  dsimp only at hkind h
  rw [hkind, h]

section

variable {n : ℕ} (hlen : ∀ k, (len k).length = n)
include hlen

theorem length_header {f f' : Segment β} (h : f.prefixed = f'.prefixed) :
    (f.header len).length = (f'.header len).length := by
  unfold header
  rw [h]
  split
  · rw [hlen, hlen]
  · rfl

theorem flat_ne_nil (hn : n ≠ 0) {f : Segment β} (h : f.prefixed = true) (rest : List (Segment β)) :
    flat len (f :: rest) ≠ [] := by
  intro hnil
  rw [flat_cons] at hnil
  have hheader : len f.bytes.length = [] := by
    have hnil' := (List.append_eq_nil_iff.mp hnil).1
    rwa [header, if_pos h] at hnil'
  apply hn
  rw [← hlen f.bytes.length, hheader, List.length_nil]

/-- **Fields written alike**: they are the same, or one of them is displaced. -/
theorem flat_eq_iff (hn : n ≠ 0) : ∀ {l l' : List (Segment β)}, SameKinds l l' →
    (flat len l = flat len l' ↔ l = l' ∨ Displaced len l l') := by
  intro l
  induction l with
  | nil =>
    rintro (_ | ⟨f', rest'⟩) hkinds
    · exact iff_of_true rfl (Or.inl rfl)
    · refine iff_of_false (fun h => ?_) (by rintro (h | h) <;> cases h)
      exact flat_ne_nil hlen hn (hkinds f' List.mem_cons_self) rest' h.symm
  | cons f rest ih =>
    rintro (_ | ⟨f', rest'⟩) hkinds
    · refine iff_of_false (fun h => ?_) (by rintro (h | h) <;> cases h)
      exact flat_ne_nil hlen hn (hkinds f (by simp)) rest h
    · obtain ⟨hkind, hkinds⟩ := hkinds
      rw [flat_cons, flat_cons]
      constructor
      · intro h
        obtain ⟨hheader, hbody⟩ := List.append_inj h (length_header hlen hkind)
        -- the shorter of the two fields ends inside the longer one
        rcases List.append_eq_append_iff.mp hbody with ⟨x, hlong, hrest⟩ | ⟨x, hlong, hrest⟩
        · cases x with
          | nil =>
            obtain rfl := ext_of_bytes hkind (hlong.trans (List.append_nil _)).symm
            rcases (ih hkinds).mp hrest with rfl | hdisplaced
            · exact Or.inl rfl
            · exact Or.inr (Or.inl ⟨rfl, hdisplaced⟩)
          | cons b x =>
            exact Or.inr (Or.inr (Or.inl ⟨hheader, b :: x, List.cons_ne_nil b x, hlong, hrest⟩))
        · cases x with
          | nil =>
            obtain rfl := ext_of_bytes hkind (hlong.trans (List.append_nil _))
            rcases (ih hkinds).mp hrest.symm with rfl | hdisplaced
            · exact Or.inl rfl
            · exact Or.inr (Or.inl ⟨rfl, hdisplaced⟩)
          | cons b x =>
            exact Or.inr (Or.inr (Or.inr ⟨hheader.symm, b :: x, List.cons_ne_nil b x, hlong,
              hrest⟩))
      · rintro (heq | ⟨rfl, hdisplaced⟩ | ⟨hheader, x, -, hlong, hrest⟩ |
          ⟨hheader, x, -, hlong, hrest⟩)
        · obtain ⟨rfl, rfl⟩ := List.cons.inj heq
          rfl
        · rw [(ih hkinds).mpr (Or.inr hdisplaced)]
        · rw [hheader, hlong, hrest, List.append_assoc]
        · rw [hheader, hlong, hrest, List.append_assoc]

end

/-- Nothing is displaced that differs. -/
theorem ne_of_displaced : ∀ {l l' : List (Segment β)}, Displaced len l l' → l ≠ l' := by
  intro l
  induction l with
  | nil =>
    intro l' h
    cases h
  | cons f rest ih =>
    rintro (_ | ⟨f', rest'⟩) h heq
    · cases h
    obtain ⟨rfl, rfl⟩ := List.cons.inj heq
    -- a field is not longer than itself
    have hself : ∀ {r r' : List (Segment β)}, ¬ Slips len f r f r' := by
      rintro r r' ⟨-, x, hx, hlong, -⟩
      exact hx (List.self_eq_append_right.mp hlong)
    rcases h with ⟨-, h⟩ | h | h
    · exact ih h rfl
    · exact hself h
    · exact hself h

/-- Two fields whose end can be told: a raw one of the same length, or one whose length fits its
    header. -/
def Told (bound : ℕ) (f f' : Segment β) : Prop :=
  if f.prefixed then f.bytes.length < bound ∧ f'.bytes.length < bound
  else f.bytes.length = f'.bytes.length

theorem not_slips {bound : ℕ} (hinj : Set.InjOn len {k | k < bound}) {f f' : Segment β}
    (hkind : f.prefixed = f'.prefixed) (htold : Told bound f f') (rest rest' : List (Segment β)) :
    ¬ Slips len f rest f' rest' := by
  rintro ⟨hheader, x, hx, hlong, -⟩
  have hlength : f.bytes.length = f'.bytes.length := by
    unfold Told at htold
    split at htold
    case isFalse hraw => exact htold
    case isTrue hpre =>
      rw [header, header, ← hkind, if_pos hpre, if_pos hpre] at hheader
      exact hinj htold.1 htold.2 hheader
  have hzero := congrArg List.length hlong
  rw [List.length_append] at hzero
  exact hx (List.length_eq_zero_iff.mp (by omega))

theorem told_symm {bound : ℕ} {f f' : Segment β} (hkind : f.prefixed = f'.prefixed)
    (h : Told bound f f') : Told bound f' f := by
  unfold Told at h ⊢
  rw [← hkind]
  split
  · rename_i hpre
    rw [if_pos hpre] at h
    exact h.symm
  · rename_i hraw
    rw [if_neg hraw] at h
    exact h.symm

/-- **Nothing is displaced** between fields whose ends can be told. -/
theorem not_displaced {bound : ℕ} (hinj : Set.InjOn len {k | k < bound}) :
    ∀ {l l' : List (Segment β)}, SameKinds l l' →
      (∀ p ∈ l.zip l', Told bound p.1 p.2) → ¬ Displaced len l l' := by
  intro l
  induction l with
  | nil =>
    intro l' _ _ h
    cases h
  | cons f rest ih =>
    rintro (_ | ⟨f', rest'⟩) hkinds htold h
    · cases h
    obtain ⟨hkind, hkinds⟩ := hkinds
    rw [List.zip_cons_cons] at htold
    have htold' : Told bound f f' := htold (f, f') List.mem_cons_self
    rcases h with ⟨-, h⟩ | h | h
    · exact ih hkinds (fun p hp => htold p (List.mem_cons_of_mem _ hp)) h
    · exact not_slips hinj hkind htold' rest rest' h
    · exact not_slips hinj hkind.symm (told_symm hkind htold') rest' rest h

end Segment

end PhReactor.Lib
