/-
  The grammar of URIs (RFC 3986), as far as it takes to say what the host of one is.

  A `Uri` is a derivation: its components, each with the proof that it is one, and `Uri.text` is
  what is written.  White space and characters outside of ASCII occur in none of them.

  1. `Encoded` texts are made of the characters of a class and of percent-encoded octets.

  2. A host is an address in brackets, four octets, or a name.  The first that matches is meant, so
     a name is no IPv4 address.  `Host.ipv4?` is the address: an IPv6 address that maps one counts.

  3. The delimiters can be trusted: an authority has no slash, question mark or number sign
     (`Authority.mem_text`), and what comes after it begins with one (`Uri.tail_cases`).
-/
import Mathlib.Data.List.Basic

namespace PhReactor.Lib

/-! ## Characters -/

def isHexdig (c : Char) : Bool := c.isDigit || ('a' ≤ c && c ≤ 'f') || ('A' ≤ c && c ≤ 'F')

def isUnreserved (c : Char) : Bool := c.isAlphanum || ['-', '.', '_', '~'].contains c

def isSubDelim (c : Char) : Bool :=
  ['!', '$', '&', '\'', '(', ')', '*', '+', ',', ';', '='].contains c

def isNameChar (c : Char) : Bool := isUnreserved c || isSubDelim c

def isUserinfoChar (c : Char) : Bool := isNameChar c || c == ':'

def isPathChar (c : Char) : Bool := isNameChar c || [':', '@', '/'].contains c

def isQueryChar (c : Char) : Bool := isPathChar c || c == '?'

def isSchemeChar (c : Char) : Bool := c.isAlphanum || ['+', '-', '.'].contains c

/-- Characters of a class, and percent-encoded octets. -/
inductive Encoded (p : Char → Bool) : List Char → Prop where
  | nil : Encoded p []
  | char {c : Char} {l : List Char} (hc : p c = true) (hl : Encoded p l) : Encoded p (c :: l)
  | octet {a b : Char} {l : List Char} (ha : isHexdig a = true) (hb : isHexdig b = true)
      (hl : Encoded p l) : Encoded p ('%' :: a :: b :: l)

theorem Encoded.mem {p : Char → Bool} {l : List Char} (h : Encoded p l) {c : Char} (hc : c ∈ l) :
    p c = true ∨ c = '%' ∨ isHexdig c = true := by
  induction h with
  | nil => cases hc
  | char hp _ ih =>
    rcases List.mem_cons.mp hc with rfl | hc
    · exact Or.inl hp
    · exact ih hc
  | octet ha hb _ ih =>
    rw [List.mem_cons, List.mem_cons, List.mem_cons] at hc
    rcases hc with rfl | rfl | rfl | hc
    · exact Or.inr (Or.inl rfl)
    · exact Or.inr (Or.inr ha)
    · exact Or.inr (Or.inr hb)
    · exact ih hc

theorem mem_intercalate {s c : Char} {ls : List (List Char)} (h : c ∈ [s].intercalate ls) :
    c = s ∨ ∃ l ∈ ls, c ∈ l := by
  induction ls with
  | nil => cases h
  | cons l ls ih =>
    cases ls with
    | nil =>
      rw [List.intercalate_singleton] at h
      exact Or.inr ⟨l, List.mem_cons_self, h⟩
    | cons l' ls =>
      rw [List.intercalate_cons_cons, List.mem_append, List.mem_append, List.mem_singleton] at h
      rcases h with (h | h) | h
      · exact Or.inr ⟨l, List.mem_cons_self, h⟩
      · exact Or.inl h
      · obtain h | ⟨l'', hl, hc⟩ := ih h
        · exact Or.inl h
        · exact Or.inr ⟨l'', List.mem_cons_of_mem l hl, hc⟩

/-- What may be written between the brackets. -/
def isLiteralChar (c : Char) : Bool := isUserinfoChar c || isHexdig c

theorem isLiteralChar_of_isHexdig {c : Char} (h : isHexdig c = true) : isLiteralChar c = true := by
  unfold isLiteralChar
  rw [h, Bool.or_true]

def isAuthorityChar (c : Char) : Bool := isLiteralChar c || ['[', ']', '%', '@'].contains c

/-! ## Addresses -/

/-- The value of decimal digits. -/
def decValue (l : List Char) : ℕ := l.foldl (fun n c => n * 10 + (c.toNat - '0'.toNat)) 0

def hexDigitValue (c : Char) : ℕ :=
  if c.isDigit then c.toNat - '0'.toNat
  else if 'a' ≤ c then c.toNat - 'a'.toNat + 10
  else c.toNat - 'A'.toNat + 10

def hexValue (l : List Char) : ℕ := l.foldl (fun n c => n * 16 + hexDigitValue c) 0

/-- A decimal number up to 255, without zeros in front. -/
def isDecOctet (l : List Char) : Bool :=
  !l.isEmpty && l.all Char.isDigit && (l.length == 1 || l.head? != some '0') && l.length ≤ 3 &&
    decValue l ≤ 255

structure Ipv4 where
  octets : List (List Char)
  length_eq : octets.length = 4
  valid : ∀ o ∈ octets, isDecOctet o = true

namespace Ipv4

def text (a : Ipv4) : List Char := ['.'].intercalate a.octets

/-- The address as a number of 32 bits. -/
def bits (a : Ipv4) : ℕ := a.octets.foldl (fun n o => n * 256 + decValue o) 0

theorem isDigit_of_mem {o : List Char} (h : isDecOctet o = true) {c : Char} (hc : c ∈ o) :
    c.isDigit = true := by
  unfold isDecOctet at h
  simp only [Bool.and_eq_true, List.all_eq_true] at h
  exact h.1.1.1.2 c hc

theorem mem_text {a : Ipv4} {c : Char} (h : c ∈ a.text) : c = '.' ∨ c.isDigit = true := by
  obtain h | ⟨o, ho, hc⟩ := mem_intercalate h
  · exact Or.inl h
  · exact Or.inr (isDigit_of_mem (a.valid o ho) hc)

/-- The octets can be read off. -/
theorem splitOn_text (a : Ipv4) : a.text.splitOn '.' = a.octets := by
  refine List.splitOn_intercalate '.' (fun o ho hdot => ?_) ?_
  · exact absurd (isDigit_of_mem (a.valid o ho) hdot) (by decide)
  · exact List.ne_nil_of_length_pos (by rw [a.length_eq]; decide)

end Ipv4

/-- One to four hexadecimal digits. -/
structure H16 where
  text : List Char
  length_range : 1 ≤ text.length ∧ text.length ≤ 4
  valid : ∀ c ∈ text, isHexdig c = true

/-- The groups of sixteen bits, in two parts if some are left out between them; the last two may be
    written as an IPv4 address. -/
structure Ipv6 where
  left : Option (List H16)
  right : List H16
  dotted : Option Ipv4
  full : left = none → right.length + 2 * dotted.toList.length = 8
  short : ∀ l ∈ left, l.length + right.length + 2 * dotted.toList.length ≤ 7

namespace Ipv6

def join (l : List (List Char)) : List Char := [':'].intercalate l

def text (a : Ipv6) : List Char :=
  let right := join (a.right.map H16.text ++ a.dotted.toList.map Ipv4.text)
  match a.left with
  | none => right
  | some left => join (left.map H16.text) ++ ':' :: ':' :: right

/-- The values of the groups. -/
def groups (a : Ipv6) : List ℕ :=
  let left := ((a.left.getD []).map fun g => hexValue g.text)
  let right := (a.right.map fun g => hexValue g.text) ++
    a.dotted.toList.flatMap fun v => [v.bits / 65536, v.bits % 65536]
  left ++ List.replicate (8 - left.length - right.length) 0 ++ right

/-- The IPv4 address that is mapped into the others. -/
def mapped? (a : Ipv6) : Option ℕ :=
  match a.groups with
  | [0, 0, 0, 0, 0, 65535, high, low] => some (high * 65536 + low)
  | _ => none

theorem mem_text {a : Ipv6} {c : Char} (h : c ∈ a.text) : isLiteralChar c = true := by
  have hjoin : ∀ left : List H16, ∀ dotted : List Ipv4,
      c ∈ join (left.map H16.text ++ dotted.map Ipv4.text) → isLiteralChar c = true := by
    intro left dotted h
    obtain rfl | ⟨l, hl, hc⟩ := mem_intercalate h
    · decide
    · rcases List.mem_append.mp hl with hl | hl
      · obtain ⟨g, -, rfl⟩ := List.mem_map.mp hl
        exact isLiteralChar_of_isHexdig (g.valid c hc)
      · obtain ⟨v, -, rfl⟩ := List.mem_map.mp hl
        obtain rfl | hdigit := Ipv4.mem_text hc
        · decide
        · exact isLiteralChar_of_isHexdig (by unfold isHexdig; rw [hdigit]; rfl)
  unfold text at h
  cases hleft : a.left with
  | none =>
    rw [hleft] at h
    exact hjoin a.right a.dotted.toList h
  | some left =>
    rw [hleft] at h
    rcases List.mem_append.mp h with h | h
    · exact hjoin left [] (by rwa [List.map_nil, List.append_nil])
    · rw [List.mem_cons, List.mem_cons] at h
      rcases h with rfl | rfl | h
      · decide
      · decide
      · exact hjoin a.right a.dotted.toList h

/-- There is a colon. -/
theorem colon_mem_text (a : Ipv6) : ':' ∈ a.text := by
  have htwo : ∀ l : List (List Char), 2 ≤ l.length → ':' ∈ join l := by
    intro l hl
    match l, hl with
    | x :: y :: l, _ =>
      unfold join
      rw [List.intercalate_cons_cons]
      simp
  unfold text
  cases hleft : a.left with
  | none =>
    have hfull := a.full hleft
    refine htwo _ ?_
    rw [List.length_append, List.length_map, List.length_map]
    cases hdotted : a.dotted with
    | none =>
      rw [hdotted] at hfull
      simp at hfull ⊢
      omega
    | some v =>
      rw [hdotted] at hfull
      simp at hfull ⊢
      omega
  | some left => simp

end Ipv6

/-! ## Hosts -/

inductive Host where
  | ipv6 (a : Ipv6)
  | ipvFuture (v : Char) (version rest : List Char) (hv : v = 'v' ∨ v = 'V')
      (hversion : version ≠ [] ∧ ∀ c ∈ version, isHexdig c = true)
      (hrest : rest ≠ [] ∧ ∀ c ∈ rest, isUserinfoChar c = true)
  | ipv4 (a : Ipv4)
  | name (l : List Char) (hl : Encoded isNameChar l) (hname : ∀ a : Ipv4, l ≠ a.text)

namespace Host

def text : Host → List Char
  | ipv6 a => '[' :: a.text ++ [']']
  | ipvFuture v version rest _ _ _ => '[' :: v :: version ++ '.' :: rest ++ [']']
  | ipv4 a => a.text
  | name l _ _ => l

/-- The IPv4 address of a host, also of one that is written as an IPv6 address. -/
def ipv4? : Host → Option ℕ
  | ipv6 a => a.mapped?
  | ipv4 a => some a.bits
  | _ => none

/-- What is between the brackets, if there are any. -/
theorem mem_text {h : Host} {c : Char} (hc : c ∈ h.text) : isAuthorityChar c = true := by
  have hliteral : ∀ c, isLiteralChar c = true → isAuthorityChar c = true := fun c h => by
    unfold isAuthorityChar
    rw [h, Bool.true_or]
  cases h with
  | ipv6 a =>
    unfold text at hc
    rw [List.mem_append, List.mem_cons, List.mem_singleton] at hc
    rcases hc with (rfl | hc) | rfl
    · decide
    · exact hliteral c (Ipv6.mem_text hc)
    · decide
  | ipvFuture v version rest hv hversion hrest =>
    unfold text at hc
    rw [List.mem_append, List.mem_append, List.mem_cons, List.mem_cons, List.mem_cons,
      List.mem_singleton] at hc
    rcases hc with ((rfl | rfl | hc) | rfl | hc) | rfl
    · decide
    · rcases hv with rfl | rfl <;> decide
    · exact hliteral c (isLiteralChar_of_isHexdig (hversion.2 c hc))
    · decide
    · refine hliteral c ?_
      unfold isLiteralChar
      rw [hrest.2 c hc, Bool.true_or]
    · decide
  | ipv4 a =>
    obtain rfl | hdigit := Ipv4.mem_text hc
    · decide
    · exact hliteral c (isLiteralChar_of_isHexdig (by unfold isHexdig; rw [hdigit]; rfl))
  | name l hl _ =>
    rcases hl.mem hc with hname | rfl | hhex
    · refine hliteral c ?_
      unfold isLiteralChar isUserinfoChar
      rw [hname, Bool.true_or, Bool.true_or]
    · decide
    · exact hliteral c (isLiteralChar_of_isHexdig hhex)

end Host

/-! ## URIs -/

structure Authority where
  userinfo : Option (List Char)
  host : Host
  port : Option (List Char)
  userinfo_valid : ∀ l ∈ userinfo, Encoded isUserinfoChar l
  port_valid : ∀ l ∈ port, ∀ c ∈ l, c.isDigit = true

def Authority.text (a : Authority) : List Char :=
  (a.userinfo.elim [] fun l => l ++ ['@']) ++ a.host.text ++ a.port.elim [] fun l => ':' :: l

theorem Authority.mem_text {a : Authority} {c : Char} (hc : c ∈ a.text) :
    isAuthorityChar c = true := by
  have hhex : ∀ c, isHexdig c = true → isAuthorityChar c = true := fun c h => by
    unfold isAuthorityChar
    rw [isLiteralChar_of_isHexdig h, Bool.true_or]
  unfold Authority.text at hc
  rw [List.mem_append, List.mem_append] at hc
  rcases hc with (hc | hc) | hc
  · cases huser : a.userinfo with
    | none =>
      rw [huser] at hc
      cases hc
    | some l =>
      rw [huser] at hc
      rcases List.mem_append.mp hc with hc | hc
      · rcases (a.userinfo_valid l huser).mem hc with h | rfl | h
        · unfold isAuthorityChar isLiteralChar
          rw [h, Bool.true_or, Bool.true_or]
        · decide
        · exact hhex c h
      · rw [List.mem_singleton.mp hc]
        decide
  · exact Host.mem_text hc
  · cases hport : a.port with
    | none =>
      rw [hport] at hc
      cases hc
    | some l =>
      rw [hport] at hc
      rcases List.mem_cons.mp hc with rfl | hc
      · decide
      · exact hhex c (by unfold isHexdig; rw [a.port_valid l hport c hc]; rfl)

structure Uri where
  scheme : List Char
  authority : Option Authority
  path : List Char
  query : Option (List Char)
  fragment : Option (List Char)
  scheme_valid : (∃ c ∈ scheme.head?, c.isAlpha = true) ∧ ∀ c ∈ scheme, isSchemeChar c = true
  path_valid : Encoded isPathChar path
  path_begins :
    if authority.isSome then path = [] ∨ path.head? = some '/' else ¬ ['/', '/'] <+: path
  query_valid : ∀ l ∈ query, Encoded isQueryChar l
  fragment_valid : ∀ l ∈ fragment, Encoded isQueryChar l

namespace Uri

/-- What comes after the authority. -/
def tail (u : Uri) : List Char :=
  u.path ++ (u.query.elim [] fun l => '?' :: l) ++ u.fragment.elim [] fun l => '#' :: l

def text (u : Uri) : String :=
  String.ofList (u.scheme ++ ':' :: (u.authority.elim [] fun a => '/' :: '/' :: a.text) ++ u.tail)

theorem colon_not_mem_scheme (u : Uri) : ':' ∉ u.scheme := fun h =>
  absurd (u.scheme_valid.2 _ h) (by decide)

/-- What comes after an authority begins with a delimiter. -/
theorem tail_cases {u : Uri} {a : Authority} (ha : u.authority = some a) :
    u.tail = [] ∨ ∃ c rest, u.tail = c :: rest ∧ c ∈ ['/', '?', '#'] := by
  have hbegins := u.path_begins
  rw [ha, Option.isSome_some, if_pos rfl] at hbegins
  unfold tail
  rcases hbegins with hpath | hpath
  · rw [hpath]
    cases u.query with
    | some q => exact Or.inr ⟨'?', _, rfl, by decide⟩
    | none =>
      cases u.fragment with
      | some f => exact Or.inr ⟨'#', _, rfl, by decide⟩
      | none => exact Or.inl rfl
  · obtain ⟨rest, hrest⟩ := List.head?_eq_some_iff.mp hpath
    rw [hrest]
    exact Or.inr ⟨'/', _, rfl, by decide⟩

end Uri

end PhReactor.Lib
