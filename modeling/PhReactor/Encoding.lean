/-
  The signed bytes say what is signed.

  `messageBytes` concatenates the signed fields of an action: fixed-width numbers, tagged hashes,
  and byte strings that carry their length as `len as u32`.  That cast TRUNCATES, so a length is
  told apart from the next only below `2 ^ 32`.

  1. Every part is self-delimiting on short values (`Lib/SelfDelimiting.lean`), and so the whole:
     two actions with short fields and the same bytes agree in every signed field
     (`sameSigned_of_messageBytes`).  The payload is compared through its JSON text; that the
     printer tells payloads apart is an assumption about `serde_json` (`JsonFaithful`).

  2. Beyond that bound it fails: a model name may swallow the version (`messageBytes_shifted`), and
     one signature then covers two different actions.
-/
import Mathlib.Data.Fintype.Basic
import Mathlib.Data.Set.Function
import PhReactor.Action
import PhReactor.Lib.SelfDelimiting

set_option linter.unusedSectionVars false

namespace PhReactor

open Lib

/-! ## Numbers -/

theorem length_beBytes (n v : ℕ) : (beBytes n v).length = n := by
  unfold beBytes
  rw [List.length_map, List.length_range]

/-- The byte at weight `256 ^ k`. -/
theorem getElem?_beBytes {n k : ℕ} (hk : k < n) (v : ℕ) :
    (beBytes n v)[n - 1 - k]? = some (UInt8.ofNat (v / 256 ^ k)) := by
  unfold beBytes
  rw [List.getElem?_map, List.getElem?_range (by omega), Option.map_some,
    show n - 1 - (n - 1 - k) = k from by omega]

theorem mod_eq_of_digits {v w : ℕ} : ∀ {n : ℕ},
    (∀ k < n, v / 256 ^ k % 256 = w / 256 ^ k % 256) → v % 256 ^ n = w % 256 ^ n := by
  intro n
  induction n with
  | zero => intro _; rw [Nat.pow_zero, Nat.mod_one, Nat.mod_one]
  | succ n ih =>
    intro h
    rw [Nat.mod_pow_succ, Nat.mod_pow_succ, ih fun k hk => h k (Nat.lt_succ_of_lt hk),
      h n (Nat.lt_succ_self n)]

/-- The bytes of a number are those of its remainder, and determine it. -/
theorem beBytes_inj {n v w : ℕ} : beBytes n v = beBytes n w ↔ v % 256 ^ n = w % 256 ^ n := by
  constructor
  · intro h
    refine mod_eq_of_digits fun k hk => ?_
    have hbyte : UInt8.ofNat (v / 256 ^ k) = UInt8.ofNat (w / 256 ^ k) := by
      rw [← Option.some.injEq, ← getElem?_beBytes hk, ← getElem?_beBytes hk, h]
    have hnat := congrArg UInt8.toNat hbyte
    rwa [UInt8.toNat_ofNat', UInt8.toNat_ofNat'] at hnat
  · intro h
    unfold beBytes
    refine List.map_congr_left fun i hi => ?_
    rw [List.mem_range] at hi
    -- the digit at a weight below the modulus
    have hdigit : ∀ x : ℕ, x / 256 ^ (n - 1 - i) % 256 =
        x % 256 ^ n / 256 ^ (n - 1 - i) % 256 := by
      intro x
      have hpow : 256 ^ n = 256 ^ (n - 1 - i) * 256 ^ (i + 1) := by
        rw [← Nat.pow_add]
        congr 1
        omega
      rw [hpow, Nat.mod_mul_right_div_self,
        Nat.mod_mod_of_dvd _ ⟨256 ^ i, by rw [Nat.pow_succ, Nat.mul_comm]⟩]
    apply UInt8.toNat_inj.mp
    rw [UInt8.toNat_ofNat', UInt8.toNat_ofNat', show 2 ^ 8 = 256 from rfl, hdigit v, hdigit w, h]

theorem selfDelimiting_beBytes (n : ℕ) : SelfDelimiting {v | v < 256 ^ n} (beBytes n) := by
  refine SelfDelimiting.of_length (n := n) (fun v _ => length_beBytes n v) fun v hv w hw h => ?_
  have hmod := beBytes_inj.mp h
  rwa [Nat.mod_eq_of_lt hv, Nat.mod_eq_of_lt hw] at hmod

/-- A fixed-width number of the source. -/
theorem selfDelimiting_fin {n m : ℕ} (h : m = 256 ^ n) :
    SelfDelimiting Set.univ fun v : Fin m => beBytes n v := by
  subst h
  exact (selfDelimiting_beBytes n).comap (fun v _ => v.isLt)
    fun v _ w _ hvw => Fin.val_injective hvw

/-! ## Byte strings -/

/-- Shorter than `2 ^ 32` bytes: the length fits its prefix. -/
def shortBytes : Set (List UInt8) := {l | l.length < 2 ^ 32}

instance shortBytesDecidable (l : List UInt8) : Decidable (l ∈ shortBytes) :=
  inferInstanceAs (Decidable (l.length < 2 ^ 32))

theorem selfDelimiting_lenPrefixed : SelfDelimiting shortBytes lenPrefixed := by
  unfold shortBytes
  rw [show (2 : ℕ) ^ 32 = 256 ^ 4 from rfl]
  exact SelfDelimiting.lengthFirst (selfDelimiting_beBytes 4)

theorem loop_toList (bs : ByteArray) (i : ℕ) (r : List UInt8) :
    ByteArray.toList.loop bs i r = r.reverse ++ bs.data.toList.drop i := by
  induction i, r using ByteArray.toList.loop.induct bs with
  | case1 i r hi ih =>
    have hlt : i < bs.data.toList.length := by
      rw [Array.length_toList]
      exact hi
    rw [ByteArray.toList.loop, if_pos hi, ih, List.reverse_cons, List.append_assoc,
      List.drop_eq_getElem_cons hlt, List.singleton_append]
    congr 2
    exact getElem!_pos bs.data i hi
  | case2 i r hi =>
    rw [ByteArray.toList.loop, if_neg hi, List.drop_eq_nil_of_le, List.append_nil]
    rw [Array.length_toList]
    exact Nat.not_lt.mp hi

/-- The bytes of a string. -/
theorem strBytes_eq (t : String) : strBytes t = t.toByteArray.data.toList := by
  unfold strBytes
  rw [String.toUTF8_eq_toByteArray]
  exact loop_toList t.toByteArray 0 []

theorem strBytes_injective : Function.Injective strBytes := by
  intro t u h
  rw [strBytes_eq, strBytes_eq] at h
  exact String.toByteArray_inj.mp (ByteArray.ext (Array.toList_inj.mp h))

theorem strBytes_append (t u : String) : strBytes (t ++ u) = strBytes t ++ strBytes u := by
  rw [strBytes_eq, strBytes_eq, strBytes_eq, String.toByteArray_append,
    ByteArray.toList_data_append]

theorem length_strBytes (t : String) : (strBytes t).length = t.utf8ByteSize := by
  rw [strBytes_eq, Array.length_toList, ByteArray.size_data, String.size_toByteArray]

theorem selfDelimiting_str :
    SelfDelimiting {t | strBytes t ∈ shortBytes} fun t => lenPrefixed (strBytes t) :=
  selfDelimiting_lenPrefixed.comap (fun _ h => h) strBytes_injective.injOn

/-! ## Clocks and hashes -/

theorem mem_shortBytes_of_mem_clock {c : VecClock} (h : vecClockBytes c ∈ shortBytes)
    {p : Origin × U64} (hp : p ∈ c.counts.toList) : strBytes p.1 ∈ shortBytes := by
  obtain ⟨o, n⟩ := p
  have hle : (strBytes o).length ≤ (vecClockBytes c).length := by
    obtain ⟨l₁, l₂, hsplit⟩ := List.append_of_mem hp
    unfold vecClockBytes lenPrefixed
    simp only [hsplit, List.flatMap_append, List.flatMap_cons, List.length_append]
    omega
  exact lt_of_le_of_lt hle h

/-- A clock is read entry by entry. -/
theorem vecClockBytes_injOn : Set.InjOn vecClockBytes {c | vecClockBytes c ∈ shortBytes} := by
  intro c hc c' hc' h
  have hentry : SelfDelimiting {p : Origin × U64 | strBytes p.1 ∈ shortBytes ∧ p.2 ∈ Set.univ}
      fun p => lenPrefixed (strBytes p.1) ++ beBytes 8 p.2 :=
    selfDelimiting_str.pair (selfDelimiting_fin (n := 8) rfl)
  have hlist := hentry.flatMap_injOn (fun p _ hnil => ?_)
    (fun p hp => ⟨mem_shortBytes_of_mem_clock hc hp, trivial⟩)
    (fun p hp => ⟨mem_shortBytes_of_mem_clock hc' hp, trivial⟩) h
  · exact VecClock.ext (Std.ExtTreeMap.toList_inj.mp hlist)
  · have hlen : (lenPrefixed (strBytes p.1) ++ beBytes 8 p.2).length = 0 :=
      congrArg List.length hnil
    rw [List.length_append, length_beBytes] at hlen
    omega

theorem selfDelimiting_clock : SelfDelimiting {c | vecClockBytes c ∈ shortBytes}
    fun c => lenPrefixed (vecClockBytes c) :=
  selfDelimiting_lenPrefixed.comap (fun _ h => h) vecClockBytes_injOn

theorem selfDelimiting_optHash : SelfDelimiting Set.univ optHashBytes := by
  have h := (selfDelimiting_fin (n := 32) (m := 2 ^ 256) rfl).option
    (show (0x01 : UInt8) ≠ 0x00 by decide)
  intro x _ y _ r r' heq
  have hword : ∀ o : Option Hash32, optHashBytes o =
      o.elim [0x00] fun v => 0x01 :: beBytes 32 v := by
    intro o
    cases o <;> rfl
  rw [hword, hword] at heq
  exact h (fun _ _ => trivial) (fun _ _ => trivial) r r' heq

/-! ## The message -/

/-- The space suffix: at the end, so that its absence can be told. -/
theorem space_of_suffix {x y : Option DocId}
    (h : (match x with
      | some space => (0x01 : UInt8) :: beBytes 16 space
      | none => []) = match y with
      | some space => 0x01 :: beBytes 16 space
      | none => []) : x = y := by
  cases x with
  | none =>
    cases y with
    | none => rfl
    | some y => cases h
  | some x =>
    cases y with
    | none => cases h
    | some y =>
      have hbytes := (List.cons.inj h).2
      obtain ⟨rfl, -⟩ := selfDelimiting_fin (n := 16) (m := 2 ^ 128) rfl trivial trivial [] []
        (congrArg (· ++ []) hbytes)
      rfl

variable [Primitives]

/-- The signature is not part of what is signed. -/
theorem messageBytes_withSig (a : Action) (sig : Sig) :
    ({ a with sig := sig } : Action).messageBytes = a.messageBytes := by
  unfold Action.messageBytes
  rfl

/-- Every length that goes into the message fits its prefix. -/
structure Action.Short (a : Action) : Prop where
  name : strBytes a.model.name ∈ shortBytes
  version : strBytes a.model.version ∈ shortBytes
  kind : strBytes a.kind ∈ shortBytes
  payload : toVec a.payload ∈ shortBytes
  clock : vecClockBytes a.clock ∈ shortBytes
  origin : strBytes a.origin ∈ shortBytes

/-- The JSON text of the payloads of `S` tells them apart. -/
def JsonFaithful (S : Set Action) : Prop :=
  ∀ a ∈ S, ∀ b ∈ S, Primitives.jsonText a.payload = Primitives.jsonText b.payload →
    a.payload = b.payload

/-- **The signed bytes say what is signed**: two actions with short fields and the same message
    agree in every signed field. -/
theorem sameSigned_of_messageBytes {a b : Action} (ha : a.Short) (hb : b.Short)
    (hjson : JsonFaithful {a, b}) (h : a.messageBytes = b.messageBytes) : a.SameSigned b := by
  unfold Action.messageBytes at h
  simp only [List.append_assoc, List.cons_append] at h
  -- field by field, from the left
  obtain ⟨hid, h⟩ := selfDelimiting_fin (n := 16) (m := 2 ^ 128) rfl trivial trivial _ _ h
  obtain ⟨hname, h⟩ := selfDelimiting_str ha.name hb.name _ _ (List.cons.inj h).2
  obtain ⟨hversion, h⟩ := selfDelimiting_str ha.version hb.version _ _ (List.cons.inj h).2
  obtain ⟨hhash, h⟩ := selfDelimiting_optHash trivial trivial _ _ h
  obtain ⟨hkind, h⟩ := selfDelimiting_str ha.kind hb.kind _ _ (List.cons.inj h).2
  obtain ⟨hvec, h⟩ := selfDelimiting_lenPrefixed ha.payload hb.payload _ _ (List.cons.inj h).2
  obtain ⟨hts, h⟩ := selfDelimiting_fin (n := 8) (m := 2 ^ 64) rfl trivial trivial _ _ h
  obtain ⟨hclock, h⟩ := selfDelimiting_clock ha.clock hb.clock _ _ (List.cons.inj h).2
  obtain ⟨horigin, h⟩ := selfDelimiting_str ha.origin hb.origin _ _ (List.cons.inj h).2
  obtain ⟨hprev, h⟩ := selfDelimiting_optHash trivial trivial _ _ h
  have hspace := space_of_suffix h
  have hpayload := hjson a (Or.inl rfl) b (Or.inr rfl) (strBytes_injective hvec)
  have hmodel : a.model = b.model := by
    cases ha' : a.model
    cases hb' : b.model
    rw [ha', hb'] at hname hversion hhash
    simp_all only
  unfold Action.SameSigned
  cases a
  cases b
  simp_all only

/-! ## Beyond the bound -/

/-- The bytes between a name and an empty version: a tag and four zeros. -/
def gap : String := "\x01\x00\x00\x00\x00"

theorem strBytes_gap : strBytes gap = [1, 0, 0, 0, 0] := by decide +kernel

/-- **A name swallows the version.**  With `2 ^ 32` bytes in it, both lengths are cut to the same
    prefix: one message, two models. -/
theorem messageBytes_shifted (a : Action) (name text : String)
    (h : text.utf8ByteSize + 5 = 2 ^ 32) :
    ({ a with model := ⟨name, text ++ gap, none⟩ } : Action).messageBytes =
      ({ a with model := ⟨name ++ gap ++ text, "", none⟩ } : Action).messageBytes := by
  have hversion : beBytes 4 ((strBytes (text ++ gap)).length) = [0, 0, 0, 0] := by
    rw [show ([0, 0, 0, 0] : List UInt8) = beBytes 4 0 from by decide, beBytes_inj,
      strBytes_append, List.length_append, length_strBytes, strBytes_gap]
    show (text.utf8ByteSize + 5) % 2 ^ 32 = 0
    rw [h]
    rfl
  have hname : beBytes 4 ((strBytes (name ++ gap ++ text)).length) =
      beBytes 4 ((strBytes name).length) := by
    rw [beBytes_inj, strBytes_append, strBytes_append, List.length_append, List.length_append,
      length_strBytes text, strBytes_gap]
    show ((strBytes name).length + 5 + text.utf8ByteSize) % 2 ^ 32 = (strBytes name).length % 2 ^ 32
    rw [Nat.add_assoc, Nat.add_comm 5, h, Nat.add_mod_right]
  have hempty : strBytes "" = [] ∧ beBytes 4 0 = [0, 0, 0, 0] := by decide +kernel
  unfold Action.messageBytes lenPrefixed
  dsimp only
  rw [hversion, hname, strBytes_append, strBytes_append, strBytes_append, strBytes_gap, hempty.1,
    List.length_nil, hempty.2]
  simp only [List.append_assoc, List.cons_append, List.nil_append]

end PhReactor
