/-
  The grammar of JSON texts (RFC 8259).

  A text is a list of characters.  `JsonText` is one family over the three kinds of parts that
  contain one another: values, the elements of an array, and the members of an object.  White space
  belongs to the elements and the members.

  1. A part is made of strings, braces and plain characters.  `JsonText.pieces` is the induction for
     a reader who looks at nothing else.

  2. An object's text begins with a brace, and no other value's does (`isObjectText_of_head`).
-/
import Mathlib.Data.List.Basic

namespace PhReactor.Lib

/-! ## Blanks, strings and numbers -/

def isBlankChar (c : Char) : Bool := c == ' ' || c == '\n' || c == '\r' || c == '\t'

def Blank (l : List Char) : Prop := ∀ c ∈ l, isBlankChar c = true

def isHexDigit (c : Char) : Bool :=
  c.isDigit || ('a' ≤ c && c ≤ 'f') || ('A' ≤ c && c ≤ 'F')

/-- What stands between the quotes. -/
inductive StringBody : List Char → Prop where
  | nil : StringBody []
  | plain {c : Char} {l : List Char} (hquote : c ≠ '"') (hslash : c ≠ '\\')
      (hcontrol : 32 ≤ c.toNat) (hrest : StringBody l) : StringBody (c :: l)
  | escape {c : Char} {l : List Char} (hc : c ∈ ['"', '\\', '/', 'b', 'f', 'n', 'r', 't'])
      (hrest : StringBody l) : StringBody ('\\' :: c :: l)
  | unicode {a b c d : Char} {l : List Char} (hhex : ∀ x ∈ [a, b, c, d], isHexDigit x = true)
      (hrest : StringBody l) : StringBody ('\\' :: 'u' :: a :: b :: c :: d :: l)

def IsString (l : List Char) : Prop := ∃ body, StringBody body ∧ l = '"' :: body ++ ['"']

def Digits (l : List Char) : Prop := l ≠ [] ∧ ∀ c ∈ l, c.isDigit = true

def IsInteger (l : List Char) : Prop := l = ['0'] ∨ Digits l ∧ l.head? ≠ some '0'

def IsFraction (l : List Char) : Prop := l = [] ∨ ∃ digits, Digits digits ∧ l = '.' :: digits

def IsExponent (l : List Char) : Prop :=
  l = [] ∨ ∃ e sign digits, e ∈ ['e', 'E'] ∧ sign ∈ [[], ['+'], ['-']] ∧ Digits digits ∧
    l = e :: sign ++ digits

def IsNumber (l : List Char) : Prop :=
  ∃ sign int frac exp, sign ∈ [[], ['-']] ∧ IsInteger int ∧ IsFraction frac ∧ IsExponent exp ∧
    l = sign ++ int ++ frac ++ exp

def IsLiteral (l : List Char) : Prop :=
  l ∈ [['t', 'r', 'u', 'e'], ['f', 'a', 'l', 's', 'e'], ['n', 'u', 'l', 'l']]

/-! ## Values -/

inductive Part where
  | value
  | element
  | elements
  | members

/-- The texts of a part. -/
inductive JsonText : Part → List Char → Prop where
  | literal {l : List Char} (h : IsLiteral l) : JsonText .value l
  | number {l : List Char} (h : IsNumber l) : JsonText .value l
  | string {l : List Char} (h : IsString l) : JsonText .value l
  | emptyArray {w : List Char} (hw : Blank w) : JsonText .value ('[' :: w ++ [']'])
  | array {l : List Char} (hl : JsonText .elements l) : JsonText .value ('[' :: l ++ [']'])
  | emptyObject {w : List Char} (hw : Blank w) : JsonText .value ('{' :: w ++ ['}'])
  | object {l : List Char} (hl : JsonText .members l) : JsonText .value ('{' :: l ++ ['}'])
  | element {w v w' : List Char} (hw : Blank w) (hv : JsonText .value v) (hw' : Blank w') :
      JsonText .element (w ++ v ++ w')
  | lastElement {l : List Char} (hl : JsonText .element l) : JsonText .elements l
  | moreElements {l l' : List Char} (hl : JsonText .element l) (hl' : JsonText .elements l') :
      JsonText .elements (l ++ ',' :: l')
  | lastMember {w k w' v : List Char} (hw : Blank w) (hk : IsString k) (hw' : Blank w')
      (hv : JsonText .element v) : JsonText .members (w ++ k ++ w' ++ ':' :: v)
  | moreMembers {w k w' v l : List Char} (hw : Blank w) (hk : IsString k) (hw' : Blank w')
      (hv : JsonText .element v) (hl : JsonText .members l) :
      JsonText .members (w ++ k ++ w' ++ ':' :: v ++ ',' :: l)

/-- The text of an object, without blanks around it. -/
def IsObjectText (l : List Char) : Prop :=
  ∃ body, (Blank body ∨ JsonText .members body) ∧ l = '{' :: body ++ ['}']

/-! ## Pieces -/

/-- A character that neither begins a string nor opens or closes an object. -/
def isPlain (c : Char) : Bool := c != '"' && c != '{' && c != '}'

theorem isPlain_of_isBlankChar {c : Char} (h : isBlankChar c = true) : isPlain c = true := by
  unfold isBlankChar at h
  simp only [Bool.or_eq_true, beq_iff_eq] at h
  rcases h with ((rfl | rfl) | rfl) | rfl <;> decide

theorem isPlain_of_isDigit {c : Char} (h : c.isDigit = true) : isPlain c = true := by
  unfold isPlain
  simp only [Bool.and_eq_true, bne_iff_ne, ne_eq]
  refine ⟨⟨?_, ?_⟩, ?_⟩ <;> rintro rfl <;> exact absurd h (by decide)

theorem isPlain_of_isNumber {l : List Char} (h : IsNumber l) : ∀ c ∈ l, isPlain c = true := by
  obtain ⟨sign, int, frac, exp, hsign, hint, hfrac, hexp, rfl⟩ := h
  have hdigits : ∀ digits, Digits digits → ∀ c ∈ digits, isPlain c = true := fun digits h c hc =>
    isPlain_of_isDigit (h.2 c hc)
  have hsigns : ∀ sign ∈ [[], ['+'], ['-']], sign.all isPlain = true := by decide
  intro c hc
  rw [List.mem_append, List.mem_append, List.mem_append] at hc
  rcases hc with ((hc | hc) | hc) | hc
  · refine List.all_eq_true.mp (hsigns sign ?_) c hc
    rcases List.mem_pair.mp hsign with rfl | rfl <;> decide
  · rcases hint with rfl | hint
    · rw [List.mem_singleton.mp hc]
      decide
    · exact hdigits int hint.1 c hc
  · rcases hfrac with rfl | ⟨digits, hfrac, rfl⟩
    · cases hc
    · rcases List.mem_cons.mp hc with rfl | hc
      · decide
      · exact hdigits digits hfrac c hc
  · rcases hexp with rfl | ⟨e, sign, digits, he, hsign, hexp, rfl⟩
    · cases hc
    · rcases List.mem_cons.mp hc with rfl | hc
      · rcases List.mem_pair.mp he with rfl | rfl <;> decide
      · rcases List.mem_append.mp hc with hc | hc
        · exact List.all_eq_true.mp (hsigns sign hsign) c hc
        · exact hdigits digits hexp c hc

theorem isPlain_of_isLiteral {l : List Char} (h : IsLiteral l) : ∀ c ∈ l, isPlain c = true := by
  have hall : ∀ l ∈ [['t', 'r', 'u', 'e'], ['f', 'a', 'l', 's', 'e'], ['n', 'u', 'l', 'l']],
      l.all isPlain = true := by decide
  exact List.all_eq_true.mp (hall l h)

theorem pieces_of_isPlain {P : List Char → Prop} (hnil : P [])
    (happend : ∀ l l', P l → P l' → P (l ++ l')) (hplain : ∀ c, isPlain c = true → P [c])
    {l : List Char} (h : ∀ c ∈ l, isPlain c = true) : P l := by
  induction l with
  | nil => exact hnil
  | cons c l ih =>
    have hrest : ∀ c ∈ l, isPlain c = true := fun d hd => h d (List.mem_cons_of_mem c hd)
    exact happend [c] l (hplain c (h c List.mem_cons_self)) (ih hrest)

/-- **What holds of plain characters and of strings, and is kept by joining texts and by putting
    braces around one, holds of every part.** -/
theorem JsonText.pieces {P : List Char → Prop} (hnil : P [])
    (happend : ∀ l l', P l → P l' → P (l ++ l')) (hplain : ∀ c, isPlain c = true → P [c])
    (hstring : ∀ l, IsString l → P l) (hbraces : ∀ l, P l → P ('{' :: l ++ ['}']))
    {part : Part} {l : List Char} (h : JsonText part l) : P l := by
  have hplains : ∀ l : List Char, (∀ c ∈ l, isPlain c = true) → P l := fun l hl =>
    pieces_of_isPlain hnil happend hplain hl
  have hblank : ∀ w, Blank w → P w := fun w hw =>
    hplains w fun c hc => isPlain_of_isBlankChar (hw c hc)
  have hcons : ∀ c l, isPlain c = true → P l → P (c :: l) := fun c l hc hl =>
    happend [c] l (hplain c hc) hl
  have hmember : ∀ w k w' v, Blank w → IsString k → Blank w' → P v → P (w ++ k ++ w' ++ ':' :: v) :=
    fun w k w' v hw hk hw' hv => happend _ _
      (happend _ _ (happend _ _ (hblank w hw) (hstring k hk)) (hblank w' hw'))
      (hcons ':' v (by decide) hv)
  induction h with
  | literal h => exact hplains _ (isPlain_of_isLiteral h)
  | number h => exact hplains _ (isPlain_of_isNumber h)
  | string h => exact hstring _ h
  | emptyArray hw =>
    exact hcons '[' _ (by decide) (happend _ _ (hblank _ hw) (hplain ']' (by decide)))
  | array _ ih => exact hcons '[' _ (by decide) (happend _ _ ih (hplain ']' (by decide)))
  | emptyObject hw => exact hbraces _ (hblank _ hw)
  | object _ ih => exact hbraces _ ih
  | element hw _ hw' ih => exact happend _ _ (happend _ _ (hblank _ hw) ih) (hblank _ hw')
  | lastElement _ ih => exact ih
  | moreElements _ _ ih ih' => exact happend _ _ ih (hcons ',' _ (by decide) ih')
  | lastMember hw hk hw' _ ih => exact hmember _ _ _ _ hw hk hw' ih
  | moreMembers hw hk hw' _ _ ih ih' =>
    exact happend _ _ (hmember _ _ _ _ hw hk hw' ih) (hcons ',' _ (by decide) ih')

/-- What is between the braces of an object. -/
theorem IsObjectText.pieces {P : List Char → Prop} (hnil : P [])
    (happend : ∀ l l', P l → P l' → P (l ++ l')) (hplain : ∀ c, isPlain c = true → P [c])
    (hstring : ∀ l, IsString l → P l) (hbraces : ∀ l, P l → P ('{' :: l ++ ['}']))
    {l : List Char} (h : IsObjectText l) : ∃ body, P body ∧ l = '{' :: body ++ ['}'] := by
  obtain ⟨body, hblank | hmembers, rfl⟩ := h
  · exact ⟨body, pieces_of_isPlain hnil happend hplain fun c hc =>
      isPlain_of_isBlankChar (hblank c hc), rfl⟩
  · exact ⟨body, hmembers.pieces hnil happend hplain hstring hbraces, rfl⟩

/-! ## Objects -/

/-- **A value that begins with a brace is an object.** -/
theorem isObjectText_of_head {l : List Char} (h : JsonText .value l) (hhead : l.head? = some '{') :
    IsObjectText l := by
  have hmem : '{' ∈ l := List.mem_of_mem_head? hhead
  cases h with
  | literal h => exact absurd (isPlain_of_isLiteral h _ hmem) (by decide)
  | number h => exact absurd (isPlain_of_isNumber h _ hmem) (by decide)
  | string h =>
    obtain ⟨body, -, rfl⟩ := h
    exact absurd (Option.some.inj hhead) (by decide)
  | emptyArray _ => exact absurd (Option.some.inj hhead) (by decide)
  | array _ => exact absurd (Option.some.inj hhead) (by decide)
  | emptyObject hw => exact ⟨_, Or.inl hw, rfl⟩
  | object hl => exact ⟨_, Or.inr hl, rfl⟩

end PhReactor.Lib
