/-
  Base64 with padding, the standard alphabet of RFC 4648.

  Three bytes are four symbols of six bits.  A last group of one or two bytes is padded with `=`;
  the bits that are not used are zero, and a decoder that is strict looks at them.

  1. What was encoded is decoded (`decode_encode`).

  2. A strict decoder accepts one text for each list of bytes (`encode_decode`), so a text can not
     be changed without changing what it stands for.

  3. The text has no white space (`mem_encode`).
-/
import Mathlib.Data.List.GetD

namespace PhReactor.Lib.Base64

/-! ## Symbols -/

def alphabet : List Char :=
  "ABCDEFGHIJKLMNOPQRSTUVWXYZabcdefghijklmnopqrstuvwxyz0123456789+/".toList

/-- The symbol of a group of six bits. -/
def symbol (n : ℕ) : Char := alphabet.getD n '='

def value (c : Char) : Option ℕ := alphabet.findIdx? fun a => decide (a = c)

theorem value_symbol {n : ℕ} (h : n < 64) : value (symbol n) = some n := by
  have hall : ∀ n : Fin 64, value (symbol n) = some n.val := by decide +kernel
  exact hall ⟨n, h⟩

theorem symbol_ne_pad {n : ℕ} (h : n < 64) : symbol n ≠ '=' := by
  have hall : ∀ n : Fin 64, symbol n ≠ '=' := by decide +kernel
  exact hall ⟨n, h⟩

theorem symbol_of_value {c : Char} {n : ℕ} (h : value c = some n) : n < 64 ∧ symbol n = c := by
  obtain ⟨hn, hc, -⟩ := List.findIdx?_eq_some_iff_getElem.mp h
  refine ⟨hn, ?_⟩
  unfold symbol
  rw [List.getD_eq_getElem _ _ hn]
  exact of_decide_eq_true hc

/-! ## Texts -/

def encode : List UInt8 → List Char
  | [] => []
  | [a] => [symbol (a.toNat / 4), symbol (a.toNat % 4 * 16), '=', '=']
  | [a, b] =>
    [symbol (a.toNat / 4), symbol (a.toNat % 4 * 16 + b.toNat / 16), symbol (b.toNat % 16 * 4), '=']
  | a :: b :: c :: rest =>
    symbol (a.toNat / 4) :: symbol (a.toNat % 4 * 16 + b.toNat / 16) ::
      symbol (b.toNat % 16 * 4 + c.toNat / 64) :: symbol (c.toNat % 64) :: encode rest

/-- The last group, when it is padded; `y` may be padding too. -/
def decodeLast (w x y : Char) : Option (List UInt8) := do
  let i ← value w
  let j ← value x
  if y = '=' then
    if j % 16 = 0 then some [UInt8.ofNat (i * 4 + j / 16)] else none
  else
    let k ← value y
    if k % 4 = 0 then some [UInt8.ofNat (i * 4 + j / 16), UInt8.ofNat (j % 16 * 16 + k / 4)]
    else none

def decodeGroup (w x y z : Char) : Option (List UInt8) := do
  let i ← value w
  let j ← value x
  let k ← value y
  let l ← value z
  some [UInt8.ofNat (i * 4 + j / 16), UInt8.ofNat (j % 16 * 16 + k / 4),
    UInt8.ofNat (k % 4 * 64 + l)]

def decode : List Char → Option (List UInt8)
  | [] => some []
  | w :: x :: y :: z :: rest =>
    if z = '=' then if rest = [] then decodeLast w x y else none
    else (decodeGroup w x y z).bind fun bytes => (decode rest).map fun tail => bytes ++ tail
  | _ => none

/-! ## There and back -/

theorem ofNat_eq {n : ℕ} {a : UInt8} (h : n = a.toNat) : UInt8.ofNat n = a := by
  rw [h, UInt8.ofNat_toNat]

/-- **What was encoded is decoded.** -/
theorem decode_encode (bytes : List UInt8) : decode (encode bytes) = some bytes := by
  induction bytes using encode.induct with
  | case1 => rfl
  | case2 a =>
    have ha := a.toNat_lt
    unfold encode decode decodeLast
    rw [if_pos rfl, if_pos rfl, value_symbol (by omega), value_symbol (by omega)]
    simp only [Option.bind_eq_bind, Option.bind_some, if_true]
    rw [if_pos (by omega), ofNat_eq (show _ = a.toNat by omega)]
  | case3 a b =>
    have ha := a.toNat_lt
    have hb := b.toNat_lt
    unfold encode decode decodeLast
    rw [if_pos rfl, if_pos rfl, value_symbol (by omega), value_symbol (by omega),
      value_symbol (by omega)]
    simp only [Option.bind_eq_bind, Option.bind_some]
    rw [if_neg (symbol_ne_pad (by omega)), if_pos (by omega), ofNat_eq (show _ = a.toNat by omega),
      ofNat_eq (show _ = b.toNat by omega)]
  | case4 a b c rest ih =>
    have ha := a.toNat_lt
    have hb := b.toNat_lt
    have hc := c.toNat_lt
    unfold encode decode decodeGroup
    rw [if_neg (symbol_ne_pad (by omega)), value_symbol (by omega), value_symbol (by omega),
      value_symbol (by omega), value_symbol (by omega), ih]
    simp only [Option.bind_eq_bind, Option.bind_some, Option.map_some]
    rw [ofNat_eq (show _ = a.toNat by omega), ofNat_eq (show _ = b.toNat by omega),
      ofNat_eq (show _ = c.toNat by omega)]
    rfl

theorem toNat_ofNat {n : ℕ} (h : n < 256) : (UInt8.ofNat n).toNat = n := by
  rw [UInt8.toNat_ofNat']
  exact Nat.mod_eq_of_lt h

theorem encode_decodeLast {w x y : Char} {bytes : List UInt8}
    (h : decodeLast w x y = some bytes) : encode bytes = [w, x, y, '='] := by
  obtain ⟨i, hi, h₁⟩ := Option.bind_eq_some_iff.mp h
  obtain ⟨j, hj, h₂⟩ := Option.bind_eq_some_iff.mp h₁
  obtain ⟨hi64, hw⟩ := symbol_of_value hi
  obtain ⟨hj64, hx⟩ := symbol_of_value hj
  split at h₂
  · next hpad =>
    split at h₂
    · next hzero =>
      obtain rfl := Option.some.inj h₂
      unfold encode
      rw [toNat_ofNat (by omega), hpad, show (i * 4 + j / 16) / 4 = i by omega,
        show (i * 4 + j / 16) % 4 * 16 = j by omega, hw, hx]
    · cases h₂
  · obtain ⟨k, hk, h₃⟩ := Option.bind_eq_some_iff.mp h₂
    obtain ⟨hk64, hy⟩ := symbol_of_value hk
    split at h₃
    · next hzero =>
      obtain rfl := Option.some.inj h₃
      unfold encode
      rw [toNat_ofNat (by omega), toNat_ofNat (by omega), show (i * 4 + j / 16) / 4 = i by omega,
        show (i * 4 + j / 16) % 4 * 16 + (j % 16 * 16 + k / 4) / 16 = j by omega,
        show (j % 16 * 16 + k / 4) % 16 * 4 = k by omega, hw, hx, hy]
    · cases h₃

theorem encode_decodeGroup {w x y z : Char} {bytes : List UInt8}
    (h : decodeGroup w x y z = some bytes) (tail : List UInt8) :
    encode (bytes ++ tail) = w :: x :: y :: z :: encode tail := by
  obtain ⟨i, hi, h₁⟩ := Option.bind_eq_some_iff.mp h
  obtain ⟨j, hj, h₂⟩ := Option.bind_eq_some_iff.mp h₁
  obtain ⟨k, hk, h₃⟩ := Option.bind_eq_some_iff.mp h₂
  obtain ⟨l, hl, h₄⟩ := Option.bind_eq_some_iff.mp h₃
  obtain ⟨hi64, hw⟩ := symbol_of_value hi
  obtain ⟨hj64, hx⟩ := symbol_of_value hj
  obtain ⟨hk64, hy⟩ := symbol_of_value hk
  obtain ⟨hl64, hz⟩ := symbol_of_value hl
  obtain rfl := Option.some.inj h₄
  show encode (_ :: _ :: _ :: tail) = _
  rw [encode, toNat_ofNat (by omega), toNat_ofNat (by omega), toNat_ofNat (by omega),
    show (i * 4 + j / 16) / 4 = i by omega,
    show (i * 4 + j / 16) % 4 * 16 + (j % 16 * 16 + k / 4) / 16 = j by omega,
    show (j % 16 * 16 + k / 4) % 16 * 4 + (k % 4 * 64 + l) / 64 = k by omega,
    show (k % 4 * 64 + l) % 64 = l by omega, hw, hx, hy, hz]

/-- **One text for each list of bytes.** -/
theorem encode_decode {s : List Char} {bytes : List UInt8} (h : decode s = some bytes) :
    encode bytes = s := by
  induction s using decode.induct generalizing bytes with
  | case1 =>
    obtain rfl := Option.some.inj h
    rfl
  | case2 w x y =>
    have hlast : decodeLast w x y = some bytes := by simpa [decode] using h
    exact encode_decodeLast hlast
  | case3 w x y rest hrest =>
    simp [decode, hrest] at h
  | case4 w x y z rest hpad ih =>
    unfold decode at h
    rw [if_neg hpad] at h
    obtain ⟨front, hgroup, h₁⟩ := Option.bind_eq_some_iff.mp h
    obtain ⟨tail, htail, rfl⟩ := Option.map_eq_some_iff.mp h₁
    rw [encode_decodeGroup hgroup, ih htail]
  | case5 s hnil hgroup =>
    unfold decode at h
    split at h
    · exact absurd rfl hnil
    · exact absurd rfl (hgroup _ _ _ _ _)
    · cases h

theorem decode_eq_some_iff {s : List Char} {bytes : List UInt8} :
    decode s = some bytes ↔ s = encode bytes := by
  constructor
  · exact fun h => (encode_decode h).symm
  · rintro rfl
    exact decode_encode bytes

/-- Every character of the text is a symbol or padding. -/
theorem mem_encode {bytes : List UInt8} {c : Char} (h : c ∈ encode bytes) :
    c ∈ '=' :: alphabet := by
  have hsymbol : ∀ n, symbol n ∈ '=' :: alphabet := by
    intro n
    unfold symbol
    by_cases hn : n < alphabet.length
    · rw [List.getD_eq_getElem _ _ hn]
      exact List.mem_cons_of_mem _ (List.getElem_mem hn)
    · rw [List.getD_eq_default _ _ (Nat.not_lt.mp hn)]
      exact List.mem_cons_self
  induction bytes using encode.induct with
  | case1 => exact absurd h List.not_mem_nil
  | case2 a =>
    unfold encode at h
    simp only [List.mem_cons, List.not_mem_nil, or_false] at h
    rcases h with rfl | rfl | rfl | rfl
    all_goals first | exact hsymbol _ | exact List.mem_cons_self
  | case3 a b =>
    unfold encode at h
    simp only [List.mem_cons, List.not_mem_nil, or_false] at h
    rcases h with rfl | rfl | rfl | rfl
    all_goals first | exact hsymbol _ | exact List.mem_cons_self
  | case4 a b c' rest ih =>
    unfold encode at h
    simp only [List.mem_cons] at h
    rcases h with rfl | rfl | rfl | rfl | h
    · exact hsymbol _
    · exact hsymbol _
    · exact hsymbol _
    · exact hsymbol _
    · exact ih h

end PhReactor.Lib.Base64
