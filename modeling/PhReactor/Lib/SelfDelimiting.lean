/-
  Codes whose words can be told apart from what follows them.

  A code `enc : α → List β` is SELF-DELIMITING on a set `S` if from a word of `S` followed by
  anything the word can be read off: `enc x ++ r = enc y ++ r'` only if `x = y` and `r = r'`.

  1. Words of one length: it is enough that the code is injective.

  2. Self-delimiting codes compose: a pair is the two words one after the other, an optional value
     is a tag and perhaps a word, an arbitrary list is its length and the list itself — as far as
     the lengths can be told apart.

  3. A list of words is read word by word (`flatMap_injOn`).
-/
import Mathlib.Data.Set.Function

namespace PhReactor.Lib

variable {α β γ : Type}

/-- From a word of `S` followed by anything, the word can be read off. -/
def SelfDelimiting (S : Set α) (enc : α → List β) : Prop :=
  ∀ ⦃x⦄, x ∈ S → ∀ ⦃y⦄, y ∈ S → ∀ r r' : List β, enc x ++ r = enc y ++ r' → x = y ∧ r = r'

namespace SelfDelimiting

variable {S : Set α} {enc : α → List β}

/-- Words of one length. -/
theorem of_length {n : ℕ} (hlen : ∀ x ∈ S, (enc x).length = n) (hinj : Set.InjOn enc S) :
    SelfDelimiting S enc := by
  intro x hx y hy r r' h
  obtain ⟨hword, hrest⟩ := List.append_inj h ((hlen x hx).trans (hlen y hy).symm)
  exact ⟨hinj hx hy hword, hrest⟩

theorem comap (h : SelfDelimiting S enc) {f : γ → α} {T : Set γ} (hmaps : Set.MapsTo f T S)
    (hinj : Set.InjOn f T) : SelfDelimiting T fun x => enc (f x) := by
  intro x hx y hy r r' heq
  obtain ⟨hword, hrest⟩ := h (hmaps hx) (hmaps hy) r r' heq
  exact ⟨hinj hx hy hword, hrest⟩

theorem pair {T : Set γ} {enc' : γ → List β} (h : SelfDelimiting S enc)
    (h' : SelfDelimiting T enc') :
    SelfDelimiting {p : α × γ | p.1 ∈ S ∧ p.2 ∈ T} fun p => enc p.1 ++ enc' p.2 := by
  rintro ⟨x, x'⟩ ⟨hx, hx'⟩ ⟨y, y'⟩ ⟨hy, hy'⟩ r r' heq
  dsimp only at heq
  rw [List.append_assoc, List.append_assoc] at heq
  obtain ⟨rfl, hrest⟩ := h hx hy _ _ heq
  obtain ⟨rfl, htail⟩ := h' hx' hy' _ _ hrest
  exact ⟨rfl, htail⟩

/-- A tag, and the word if there is one. -/
theorem option (h : SelfDelimiting S enc) {yes no : β} (hne : yes ≠ no) :
    SelfDelimiting {o : Option α | ∀ x, o = some x → x ∈ S}
      fun o => o.elim [no] fun x => yes :: enc x := by
  rintro (_ | x) hx (_ | y) hy r r' heq
  · exact ⟨rfl, (List.cons.inj heq).2⟩
  · exact absurd (List.cons.inj heq).1.symm hne
  · exact absurd (List.cons.inj heq).1 hne
  · obtain ⟨rfl, hrest⟩ := h (hx x rfl) (hy y rfl) r r' (List.cons.inj heq).2
    exact ⟨rfl, hrest⟩

/-- The length of a list before the list: it can be read off below the bound up to which lengths
    can be told apart. -/
theorem lengthFirst {bound : ℕ} {len : ℕ → List β} (h : SelfDelimiting {n | n < bound} len) :
    SelfDelimiting {l : List β | l.length < bound} fun l => len l.length ++ l := by
  intro l hl l' hl' r r' heq
  dsimp only at heq
  rw [List.append_assoc, List.append_assoc] at heq
  obtain ⟨hlen, heq⟩ := h hl hl' _ _ heq
  exact List.append_inj heq hlen

/-- **A list of words** is read word by word. -/
theorem flatMap_injOn (h : SelfDelimiting S enc) (hne : ∀ x ∈ S, enc x ≠ []) :
    ∀ {l l' : List α}, (∀ x ∈ l, x ∈ S) → (∀ x ∈ l', x ∈ S) →
      l.flatMap enc = l'.flatMap enc → l = l' := by
  intro l
  induction l with
  | nil =>
    rintro (_ | ⟨y, l'⟩) - hl' heq
    · rfl
    · rw [List.flatMap_nil, List.flatMap_cons] at heq
      exact absurd (List.append_eq_nil_iff.mp heq.symm).1 (hne y (hl' y List.mem_cons_self))
  | cons x l ih =>
    rintro (_ | ⟨y, l'⟩) hl hl' heq
    · rw [List.flatMap_nil, List.flatMap_cons] at heq
      exact absurd (List.append_eq_nil_iff.mp heq).1 (hne x (hl x List.mem_cons_self))
    · rw [List.flatMap_cons, List.flatMap_cons] at heq
      obtain ⟨rfl, hrest⟩ := h (hl x List.mem_cons_self) (hl' y List.mem_cons_self) _ _ heq
      rw [ih (fun z hz => hl z (List.mem_cons_of_mem x hz))
        (fun z hz => hl' z (List.mem_cons_of_mem x hz)) hrest]

end SelfDelimiting

end PhReactor.Lib
