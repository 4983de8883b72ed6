/-
  Model references as text (`ModelRef` of `src/doc.rs`).

  `parse` splits at the FIRST `#` and then at the LAST `@`; `text` puts the parts together and looks
  at none of them.

  1. `splitOnce` and `rsplitOnce` are the inverses of joining (`splitOnce_eq_some`,
     `rsplitOnce_eq_some`).

  2. A hash printed in hexadecimal is read back, and hexadecimal that is read is printed in lower
     case (`hashOfHex_hashText`, `hashText_of_hashOfHex`).

  3. `parse_ok_iff`: a text is read as a reference exactly when it spells it and the reference is
     well formed.  A printed reference always spells itself, so it comes back exactly when it is
     well formed.
-/
import PhReactor.Settings.Plugins
import PhReactor.Store.Verify
import PhReactor.Sync.Framing
import PhReactor.Views.Indexes

namespace PhReactor

/-! ## Splitting -/

theorem splitOnce_eq_none {c : Char} {l : List Char} : splitOnce c l = none ↔ c ∉ l := by
  induction l with
  | nil => exact iff_of_true rfl List.not_mem_nil
  | cons x l ih =>
    unfold splitOnce
    rw [List.mem_cons, not_or]
    by_cases hx : x = c
    · rw [if_pos hx]
      exact iff_of_false (Option.some_ne_none _) fun h => h.1 hx.symm
    · rw [if_neg hx, Option.map_eq_none_iff, ih]
      exact ⟨fun h => ⟨Ne.symm hx, h⟩, And.right⟩

/-- **Split at the first separator.** -/
theorem splitOnce_eq_some {c : Char} {l a b : List Char} :
    splitOnce c l = some (a, b) ↔ l = a ++ c :: b ∧ c ∉ a := by
  induction l generalizing a with
  | nil => simp [splitOnce]
  | cons x l ih =>
    unfold splitOnce
    by_cases hx : x = c
    · subst hx
      rw [if_pos rfl]
      cases a with
      | nil => simp
      | cons y a =>
        simp only [Option.some.injEq, Prod.mk.injEq, List.cons_append, List.cons.injEq,
          List.mem_cons, not_or]
        constructor
        · rintro ⟨h, -⟩
          exact nomatch h
        · rintro ⟨⟨hxy, -⟩, hne, -⟩
          exact absurd hxy hne
    · rw [if_neg hx, Option.map_eq_some_iff]
      constructor
      · rintro ⟨⟨a', b'⟩, hsplit, heq⟩
        obtain ⟨rfl, rfl⟩ := Prod.mk.inj heq
        obtain ⟨rfl, hmem⟩ := ih.mp hsplit
        refine ⟨rfl, ?_⟩
        rw [List.mem_cons, not_or]
        exact ⟨Ne.symm hx, hmem⟩
      · rintro ⟨hl, hmem⟩
        cases a with
        | nil => exact absurd (List.cons.inj hl).1 hx
        | cons y a =>
          obtain ⟨rfl, rfl⟩ := List.cons.inj hl
          rw [List.mem_cons, not_or] at hmem
          exact ⟨(a, b), ih.mpr ⟨rfl, hmem.2⟩, rfl⟩

/-- **Split at the last separator.** -/
theorem rsplitOnce_eq_some {c : Char} {l a b : List Char} :
    rsplitOnce c l = some (a, b) ↔ l = a ++ c :: b ∧ c ∉ b := by
  unfold rsplitOnce
  rw [Option.map_eq_some_iff]
  constructor
  · rintro ⟨⟨b', a'⟩, hsplit, heq⟩
    obtain ⟨rfl, rfl⟩ := Prod.mk.inj heq
    obtain ⟨hl, hmem⟩ := splitOnce_eq_some.mp hsplit
    refine ⟨?_, fun h => hmem (List.mem_reverse.mp h)⟩
    rw [← List.reverse_reverse l, hl]
    simp
  · rintro ⟨rfl, hmem⟩
    refine ⟨(b.reverse, a.reverse), splitOnce_eq_some.mpr ⟨?_, ?_⟩, ?_⟩
    · simp
    · exact fun h => hmem (List.mem_reverse.mp h)
    · simp

/-! ## Hexadecimal -/

theorem hexDigit?_digitChar : ∀ n < 16, hexDigit? (Nat.digitChar n) = some n := by decide

/-- A digit that is read is printed in lower case. -/
theorem digitChar_of_hexDigit? {c : Char} {n : ℕ} (h : hexDigit? c = some n) :
    n < 16 ∧ Nat.digitChar n = c.toLower := by
  have hall : ∀ k < 128, (hexDigit? (Char.ofNat k)).all fun n =>
      decide (n < 16 ∧ Nat.digitChar n = (Char.ofNat k).toLower) := by decide
  have hle : ∀ x : Char, c ≤ x → c.toNat ≤ x.toNat := fun x hx => hx
  have hlt : c.toNat < 128 := by
    unfold hexDigit? at h
    split at h
    · next hc => exact (hle _ hc.2).trans_lt (by decide)
    · split at h
      · next hc => exact (hle _ hc.2).trans_lt (by decide)
      · split at h
        · next hc => exact (hle _ hc.2).trans_lt (by decide)
        · exact nomatch h
  have hc := hall c.toNat hlt
  rw [Char.ofNat_toNat, h] at hc
  exact of_decide_eq_true hc

theorem hexPairs_hexDigits (v : List UInt8) : hexPairs (hexDigits v) = some v := by
  induction v with
  | nil => rfl
  | cons b v ih =>
    have hb := b.toNat_lt
    show hexPairs (_ :: _ :: hexDigits v) = _
    unfold hexPairs
    rw [hexDigit?_digitChar _ (by omega), hexDigit?_digitChar _ (by omega), ih]
    show some (UInt8.ofNat (16 * (b.toNat / 16) + b.toNat % 16) :: v) = _
    rw [Nat.div_add_mod, UInt8.ofNat_toNat]

theorem hexDigits_of_hexPairs {l : List Char} {v : List UInt8} (h : hexPairs l = some v) :
    hexDigits v = l.map Char.toLower := by
  fun_induction hexPairs l generalizing v with
  | case1 =>
    rw [← Option.some.inj h]
    rfl
  | case2 => exact nomatch h
  | case3 hi lo rest ih =>
    obtain ⟨m, hm, h⟩ := Option.bind_eq_some_iff.mp h
    obtain ⟨n, hn, h⟩ := Option.bind_eq_some_iff.mp h
    obtain ⟨v', hv', h⟩ := Option.bind_eq_some_iff.mp h
    obtain ⟨hm16, hmlow⟩ := digitChar_of_hexDigit? hm
    obtain ⟨hn16, hnlow⟩ := digitChar_of_hexDigit? hn
    rw [← Option.some.inj h]
    show Nat.digitChar ((UInt8.ofNat (16 * m + n)).toNat / 16) ::
      Nat.digitChar ((UInt8.ofNat (16 * m + n)).toNat % 16) :: hexDigits v' = _
    rw [UInt8.toNat_ofNat', Nat.mod_eq_of_lt (by omega), show (16 * m + n) / 16 = m from by omega,
      show (16 * m + n) % 16 = n from by omega, hmlow, hnlow, ih hv']
    rfl

/-- Only what is below the width is printed. -/
theorem beBytes_add_mul (n b x : ℕ) : beBytes n (b * 256 ^ n + x) = beBytes n x := by
  unfold beBytes
  refine List.map_congr_left fun i hi => ?_
  rw [List.mem_range] at hi
  have hpow : 256 ^ n = 256 ^ (n - 1 - i) * (256 ^ i * 256) := by
    rw [← Nat.pow_succ, ← Nat.pow_add]
    congr 1
    omega
  rw [← UInt8.toNat_inj, UInt8.toNat_ofNat', UInt8.toNat_ofNat', hpow, Nat.mul_left_comm,
    Nat.mul_add_div (Nat.pow_pos (by omega)), ← Nat.mul_assoc]
  exact Nat.mul_add_mod_self_right _ _ _

/-- Bytes that are read as a number are its big-endian bytes. -/
theorem beBytes_ofBeBytes (v : List UInt8) :
    ofBeBytes v < 256 ^ v.length ∧ beBytes v.length (ofBeBytes v) = v := by
  induction v with
  | nil => exact ⟨Nat.one_pos, rfl⟩
  | cons b v ih =>
    obtain ⟨hlt, hread⟩ := ih
    have hb := b.toNat_lt
    have hcons : ofBeBytes (b :: v) = b.toNat * 256 ^ v.length + ofBeBytes v := by
      show v.foldl _ (0 * 256 + b.toNat) = _
      rw [ofBeBytes_foldl, Nat.zero_mul, Nat.zero_add]
    have hpos : 0 < 256 ^ v.length := Nat.pow_pos (by omega)
    constructor
    · calc ofBeBytes (b :: v)
          = b.toNat * 256 ^ v.length + ofBeBytes v := hcons
        _ < b.toNat * 256 ^ v.length + 256 ^ v.length := Nat.add_lt_add_left hlt _
        _ = (b.toNat + 1) * 256 ^ v.length := (Nat.succ_mul _ _).symm
        _ ≤ 256 * 256 ^ v.length := Nat.mul_le_mul_right _ (by omega)
        _ = 256 ^ (b :: v).length := Nat.pow_succ'.symm
    · rw [hcons, List.length_cons, beBytes_succ, beBytes_add_mul, hread, Nat.mul_comm,
        Nat.mul_add_div hpos, Nat.div_eq_of_lt hlt, Nat.add_zero, UInt8.ofNat_toNat]

theorem hashOfHex_ok_iff {s : String} {h : Hash32} :
    hashOfHex s = .ok h ↔
      ∃ v, hexPairs s.toList = some v ∧ v.length = 32 ∧ h = Fin.ofNat _ (ofBeBytes v) := by
  unfold hashOfHex hexDecode
  cases hexPairs s.toList with
  | none => simp
  | some v =>
    by_cases hv : v.length = 32
    · simp [hv, eq_comm]
    · simp [hv]

/-- **A printed hash is read back.** -/
theorem hashOfHex_hashText (h : Hash32) : hashOfHex (hashText h) = .ok h := by
  refine hashOfHex_ok_iff.mpr ⟨beBytes 32 h, ?_, length_beBytes 32 h, ?_⟩
  · show hexPairs (String.ofList (hexDigits (beBytes 32 h))).toList = _
    rw [String.toList_ofList, hexPairs_hexDigits]
  · refine Fin.ext ?_
    show h.val = ofBeBytes (beBytes 32 h) % 2 ^ 256
    rw [ofBeBytes_beBytes]
    have hh := h.isLt
    omega

/-- **A hash that is read is printed in lower case.** -/
theorem hashText_of_hashOfHex {s : String} {h : Hash32} (hs : hashOfHex s = .ok h) :
    hashText h = String.ofList (s.toList.map Char.toLower) := by
  obtain ⟨v, hv, hlen, rfl⟩ := hashOfHex_ok_iff.mp hs
  obtain ⟨hlt, hread⟩ := beBytes_ofBeBytes v
  rw [hlen] at hlt hread
  show String.ofList (hexDigits (beBytes 32 (ofBeBytes v % 2 ^ 256))) = _
  rw [Nat.mod_eq_of_lt (by omega), hread, hexDigits_of_hexPairs hv]

namespace ModelRef

/-! ## Spelling -/

/-- The references that survive: `name` and `version` are not empty, `#` is in neither of them, and
    `@` is not in `version`. -/
structure WellFormed (r : ModelRef) : Prop where
  name : r.name ≠ ""
  version : r.version ≠ ""
  hash_not_mem_name : '#' ∉ r.name.toList
  hash_not_mem_version : '#' ∉ r.version.toList
  at_not_mem_version : '@' ∉ r.version.toList

/-- The text spells the reference, with the hash in any case. -/
inductive Spells : List Char → ModelRef → Prop
  | plain (name version : List Char) :
    Spells (name ++ '@' :: version) ⟨String.ofList name, String.ofList version, none⟩
  | hashed (name version digits : List Char) (h : Hash32)
    (hread : hashOfHex (String.ofList digits) = .ok h) :
    Spells (name ++ '@' :: version ++ '#' :: digits)
      ⟨String.ofList name, String.ofList version, some h⟩

/-- The text, with what follows the first `#` in lower case. -/
def hashLowered (s : String) : String :=
  match splitOnce '#' s.toList with
  | some (nv, h) => String.ofList (nv ++ '#' :: h.map Char.toLower)
  | none => s

/-- A printed reference spells itself. -/
theorem spells_text (r : ModelRef) : Spells r.text.toList r := by
  obtain ⟨name, version, hash⟩ := r
  cases hash with
  | none =>
    have h := Spells.plain name.toList version.toList
    rw [String.ofList_toList, String.ofList_toList] at h
    simpa [text] using h
  | some hash =>
    have h := Spells.hashed name.toList version.toList (hashText hash).toList hash
      (by rw [String.ofList_toList, hashOfHex_hashText])
    rw [String.ofList_toList, String.ofList_toList] at h
    simpa [text] using h

theorem wellFormed_iff {name version : List Char} {hash : Option Hash32} :
    WellFormed ⟨String.ofList name, String.ofList version, hash⟩ ↔
      name ≠ [] ∧ version ≠ [] ∧ '#' ∉ name ++ '@' :: version ∧ '@' ∉ version := by
  have hempty : ∀ l : List Char, String.ofList l = "" ↔ l = [] := fun l => by
    rw [← String.toList_inj, String.toList_ofList]
    rfl
  have hmem : '#' ∉ name ++ '@' :: version ↔ '#' ∉ name ∧ '#' ∉ version := by simp
  rw [hmem]
  constructor
  · rintro ⟨h₁, h₂, h₃, h₄, h₅⟩
    simp only [String.toList_ofList] at h₃ h₄ h₅
    exact ⟨fun h => h₁ ((hempty _).mpr h), fun h => h₂ ((hempty _).mpr h), ⟨h₃, h₄⟩, h₅⟩
  · rintro ⟨h₁, h₂, ⟨h₃, h₄⟩, h₅⟩
    refine ⟨fun h => h₁ ((hempty _).mp h), fun h => h₂ ((hempty _).mp h), ?_, ?_, ?_⟩ <;>
      simpa only [String.toList_ofList]

/-! ## Parsing -/

/-- What `parse` does with the part before the hash. -/
def parseNamed (s : String) (nv : List Char) (hash : Option Hash32) : Except String ModelRef :=
  match rsplitOnce '@' nv with
  | none => .error ("model ref '" ++ s ++ "' must be name@version")
  | some (name, version) =>
    if name.isEmpty || version.isEmpty then
      .error ("model ref '" ++ s ++ "' has an empty name or version")
    else .ok ⟨String.ofList name, String.ofList version, hash⟩

theorem parse_of_plain {s : String} (h : splitOnce '#' s.toList = none) :
    parse s = parseNamed s s.toList none := by
  unfold parse
  rw [h]
  rfl

theorem parse_of_hashed {s : String} {nv digits : List Char} {hash : Hash32}
    (h : splitOnce '#' s.toList = some (nv, digits))
    (hread : hashOfHex (String.ofList digits) = .ok hash) :
    parse s = parseNamed s nv (some hash) := by
  unfold parse
  rw [h]
  dsimp only
  rw [hread]
  rfl

theorem parse_of_unread {s : String} {nv digits : List Char} {e : String}
    (h : splitOnce '#' s.toList = some (nv, digits))
    (hread : hashOfHex (String.ofList digits) = .error e) :
    parse s = .error ("'" ++ s ++ "': " ++ e) := by
  unfold parse
  rw [h]
  dsimp only
  rw [hread]

theorem parseNamed_ok_iff {s : String} {nv : List Char} {hash : Option Hash32} {r : ModelRef}
    (hnv : '#' ∉ nv) : parseNamed s nv hash = .ok r ↔
      ∃ name version, nv = name ++ '@' :: version ∧
        r = ⟨String.ofList name, String.ofList version, hash⟩ ∧ r.WellFormed := by
  have hsplit := @rsplitOnce_eq_some '@' nv
  unfold parseNamed
  constructor
  · intro h
    cases hnamed : rsplitOnce '@' nv with
    | none => rw [hnamed] at h; exact nomatch h
    | some p =>
      obtain ⟨name, version⟩ := p
      obtain ⟨rfl, hat⟩ := hsplit.mp hnamed
      rw [hnamed] at h
      dsimp only at h
      split at h
      · exact nomatch h
      · next hne =>
        simp only [Bool.or_eq_true, List.isEmpty_iff, not_or] at hne
        rw [← Except.ok.inj h]
        exact ⟨name, version, rfl, rfl, wellFormed_iff.mpr ⟨hne.1, hne.2, hnv, hat⟩⟩
  · rintro ⟨name, version, hjoin, rfl, hwf⟩
    obtain ⟨hname, hversion, -, hat⟩ := wellFormed_iff.mp hwf
    rw [hsplit.mpr ⟨hjoin, hat⟩]
    dsimp only
    rw [if_neg]
    simp only [Bool.or_eq_true, List.isEmpty_iff, not_or]
    exact ⟨hname, hversion⟩

theorem spells_of_parse {s : String} {r : ModelRef} (h : parse s = .ok r) :
    r.WellFormed ∧ Spells s.toList r := by
  cases hsplit : splitOnce '#' s.toList with
  | none =>
    rw [parse_of_plain hsplit] at h
    obtain ⟨name, version, hjoin, rfl, hwf⟩ :=
      (parseNamed_ok_iff (splitOnce_eq_none.mp hsplit)).mp h
    rw [hjoin]
    exact ⟨hwf, .plain name version⟩
  | some p =>
    obtain ⟨nv, digits⟩ := p
    obtain ⟨hs, hnv⟩ := splitOnce_eq_some.mp hsplit
    cases hread : hashOfHex (String.ofList digits) with
    | error e =>
      rw [parse_of_unread hsplit hread] at h
      exact nomatch h
    | ok hash =>
      rw [parse_of_hashed hsplit hread] at h
      obtain ⟨name, version, hjoin, rfl, hwf⟩ := (parseNamed_ok_iff hnv).mp h
      rw [hs, hjoin]
      exact ⟨hwf, .hashed name version digits hash hread⟩

theorem parse_of_spells {s : String} {r : ModelRef} (hwf : r.WellFormed)
    (hs : Spells s.toList r) : parse s = .ok r := by
  generalize hl : s.toList = l at hs
  cases hs with
  | plain name version =>
    have hnv := (wellFormed_iff.mp hwf).2.2.1
    rw [parse_of_plain (by rw [hl]; exact splitOnce_eq_none.mpr hnv), hl]
    exact (parseNamed_ok_iff hnv).mpr ⟨name, version, rfl, rfl, hwf⟩
  | hashed name version digits hash hread =>
    have hnv := (wellFormed_iff.mp hwf).2.2.1
    rw [parse_of_hashed (by rw [hl]; exact splitOnce_eq_some.mpr ⟨rfl, hnv⟩) hread]
    exact (parseNamed_ok_iff hnv).mpr ⟨name, version, rfl, rfl, hwf⟩

/-- **A text is read as a reference** exactly when it spells it and the reference is well formed. -/
theorem parse_ok_iff {s : String} {r : ModelRef} :
    parse s = .ok r ↔ r.WellFormed ∧ Spells s.toList r :=
  ⟨spells_of_parse, fun h => parse_of_spells h.1 h.2⟩

/-- **What is read is printed as it was**, but for the case of the hash. -/
theorem text_of_spells {s : String} {r : ModelRef} (hwf : r.WellFormed)
    (hs : Spells s.toList r) : r.text = hashLowered s := by
  rw [← String.toList_inj]
  unfold hashLowered
  generalize hl : s.toList = l at hs
  cases hs with
  | plain name version =>
    rw [splitOnce_eq_none.mpr (wellFormed_iff.mp hwf).2.2.1, hl]
    simp [text]
  | hashed name version digits hash hread =>
    rw [splitOnce_eq_some.mpr ⟨rfl, (wellFormed_iff.mp hwf).2.2.1⟩]
    simp [text, hashText_of_hashOfHex hread]

/-- **Model references make the round trip**: a printed reference is read back exactly when it is
    well formed; and a reference that is read is well formed, and printed as it was but for the case
    of the hash. -/
theorem text_parse_round_trip :
    (∀ r : ModelRef, parse r.text = .ok r ↔ r.WellFormed) ∧
      ∀ (s : String) (r : ModelRef), parse s = .ok r → r.WellFormed ∧ r.text = hashLowered s := by
  constructor
  · intro r
    rw [parse_ok_iff]
    exact and_iff_left r.spells_text
  · intro s r h
    obtain ⟨hwf, hs⟩ := spells_of_parse h
    exact ⟨hwf, text_of_spells hwf hs⟩

/-- A name with an `@`, and a hash whose last digits are `ff`. -/
def hashedText (ff : String) : String :=
  "@todo@1#" ++ String.ofList (List.replicate 62 '0') ++ ff

/-- A hash in upper case. -/
theorem upper_case_hash_lowered :
    parse (hashedText "FF") = .ok ⟨"@todo", "1", some 255⟩ ∧
      text ⟨"@todo", "1", some 255⟩ = hashedText "ff" := by
  have hread : parse (hashedText "FF") = .ok ⟨"@todo", "1", some 255⟩ := by rfl
  exact ⟨hread, (text_parse_round_trip.2 _ _ hread).2.trans (by decide +kernel)⟩

end ModelRef

end PhReactor
