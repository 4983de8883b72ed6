/-
  What a signature is ABOUT: the bytes that are signed, for the three things that carry one.

  1. An action.  Its message is read from the left, field by field, and the optional space stands
     at the end where its absence can be told: the message determines every signed field
     (`messageBytes_unambiguous`).

  2. An invite token and a join-proof (`src/p2p/invite.rs`).  Their strings have the length first,
     but the nonce is raw, and nothing checks that it has the 16 bytes `new_nonce` gives it.  So
     bytes can move between the end of the nonce and what follows it: two different tokens may
     have one message, and then one signature.  `InviteToken.fields` is the fields in the order
     they are written; `invite_binds_iff` says when the message determines them.

  3. With nonces of one length, and strings short enough for their prefixes, it always does
     (`InviteToken.binds`, `InviteAccept.binds`).
-/
import PhReactor.Encoding
import PhReactor.Lib.Boundaries
import PhReactor.Sample
import PhReactor.Sync.Wire

namespace PhReactor

open Lib

/-! ## Actions -/

theorem sameSigned_iff {a b : Action} : a.SameSigned b ↔
    a.docId = b.docId ∧ a.model = b.model ∧ a.kind = b.kind ∧ a.payload = b.payload ∧
    a.ts = b.ts ∧ a.clock = b.clock ∧ a.origin = b.origin ∧ a.prevHash = b.prevHash ∧
    a.space = b.space := by
  unfold Action.SameSigned
  cases a
  cases b
  simp only [Action.mk.injEq, and_true, true_and]

section

variable [Primitives]

/-- Neither the signature nor the co-signatures are part of what is signed. -/
theorem messageBytes_withSigs (a : Action) (sig : Sig) (cosig : List CoSig) :
    ({ a with sig := sig, cosig := cosig } : Action).messageBytes = a.messageBytes := by
  unfold Action.messageBytes
  rfl

theorem messageBytes_of_sameSigned {a b : Action} (h : a.SameSigned b) :
    a.messageBytes = b.messageBytes := by
  rw [← messageBytes_withSigs a b.sig b.cosig, h]

/-- **The signed bytes of an action are unambiguous.** -/
theorem messageBytes_unambiguous {a b : Action} (ha : a.Short) (hb : b.Short)
    (hjson : JsonFaithful {a, b}) :
    (a.messageBytes = b.messageBytes ↔
      a.docId = b.docId ∧ a.model.name = b.model.name ∧ a.model.version = b.model.version ∧
      a.model.hash = b.model.hash ∧ a.kind = b.kind ∧ a.payload = b.payload ∧ a.ts = b.ts ∧
      a.clock = b.clock ∧ a.origin = b.origin ∧ a.prevHash = b.prevHash ∧ a.space = b.space) ∧
    (∀ (sig : Sig) (cosig : List CoSig),
      ({ a with sig := sig, cosig := cosig } : Action).messageBytes = a.messageBytes) ∧
    (a.space = none → b.space ≠ none → a.messageBytes ≠ b.messageBytes) := by
  refine ⟨⟨fun h => ?_, ?_⟩, messageBytes_withSigs a, fun hnone hsome h => ?_⟩
  · obtain ⟨hid, hmodel, hrest⟩ := sameSigned_iff.mp (sameSigned_of_messageBytes ha hb hjson h)
    rw [hmodel]
    exact ⟨hid, rfl, rfl, rfl, hrest⟩
  · rintro ⟨hid, hname, hversion, hhash, hrest⟩
    have hmodel : a.model = b.model := by
      cases ha' : a.model
      cases hb' : b.model
      simp_all only
    exact messageBytes_of_sameSigned (sameSigned_iff.mpr ⟨hid, hmodel, hrest⟩)
  · obtain ⟨-, -, -, -, -, -, -, -, hspace⟩ :=
      sameSigned_iff.mp (sameSigned_of_messageBytes ha hb hjson h)
    exact hsome (hspace.symm.trans hnone)

end

section

attribute [local instance] Sample.primitives

/-- A post in the sample group, and one in the sample space. -/
theorem messageBytes_unambiguous_sample :
    (Sample.post Sample.alice "hi" 20 [("alice", 2)]).messageBytes ≠
      Sample.spaceInit.messageBytes := by
  refine (messageBytes_unambiguous ?_ ?_ ?_).2.2 (by decide +kernel) (by decide +kernel)
  · constructor <;> decide +kernel
  · constructor <;> decide +kernel
  · rintro a (rfl | rfl) b (rfl | rfl) h
    · rfl
    · exact absurd h (by decide +kernel)
    · exact absurd h (by decide +kernel)
    · rfl

end

/-! ## Invite tokens -/

/-- A signed out-of-band invite. -/
structure InviteToken where
  version : Fin (2 ^ 32)
  /-- The inviter's instance name. -/
  name : String
  peerId : Origin
  pubkey : List UInt8
  /-- What the joiner dials. -/
  addr : String
  /-- A random challenge, echoed in the join-proof. -/
  nonce : List UInt8
  /-- What the joiner is granted. -/
  groups : List String
  sig : List UInt8
  deriving DecidableEq

def tokenMagic : List UInt8 := strBytes "ph-reactor/invite/v1"

/-- The length of a nonce of `new_nonce`. -/
def nonceBytes : ℕ := 16

namespace InviteToken

/-- The bytes signed over: the signature is excluded. -/
def messageBytes (t : InviteToken) : List UInt8 :=
  tokenMagic ++ beBytes 4 t.version ++ lenPrefixed (strBytes t.name) ++
    lenPrefixed (strBytes t.peerId) ++ t.pubkey ++ lenPrefixed (strBytes t.addr) ++ t.nonce ++
    beBytes 4 t.groups.length ++ t.groups.flatMap fun g => lenPrefixed (strBytes g)

/-- The key of the token, as a number. -/
def key (t : InviteToken) : PublicKey := Fin.ofNat _ (ofBeBytes t.pubkey)

section

variable [Primitives]

def sign (t : InviteToken) (key : SigningKey) : InviteToken :=
  { t with sig := beBytes 64 (Primitives.sign key t.messageBytes) }

/-- A fresh invite of `key`, with the nonce drawn for it. -/
def make (name : String) (peerId : Origin) (key : SigningKey) (addr : String)
    (groups : List String) (nonce : List UInt8) : InviteToken :=
  sign {
    version := 1
    name
    peerId
    pubkey := beBytes 32 (Primitives.verifyingKey key)
    addr
    nonce
    groups
    sig := [] } key

/-- The signature verifies against the token's own `pubkey`; `decode` checks nothing else. -/
def verify (t : InviteToken) : Bool :=
  t.pubkey.length == 32 && Primitives.keyOk t.key && t.sig.length == 64 &&
    Primitives.verifyStrict t.key t.messageBytes (Fin.ofNat _ (ofBeBytes t.sig))

end

/-- Equal in every signed field. -/
def SameSigned (t t' : InviteToken) : Prop := { t with sig := t'.sig } = t'

instance (t t' : InviteToken) : Decidable (t.SameSigned t') :=
  inferInstanceAs (Decidable ({ t with sig := t'.sig } = t'))

/-- The fields in the order in which they are written: the nonce and the number of groups are raw,
    as are the two of fixed width. -/
def fields (t : InviteToken) : List (Segment UInt8) :=
  .raw (beBytes 4 t.version) :: .counted (strBytes t.name) :: .counted (strBytes t.peerId) ::
    .raw t.pubkey :: .counted (strBytes t.addr) :: .raw t.nonce ::
    .raw (beBytes 4 t.groups.length) :: t.groups.map fun g => .counted (strBytes g)

theorem messageBytes_eq (t : InviteToken) :
    t.messageBytes = tokenMagic ++ Segment.flat (beBytes 4) t.fields := by
  have hgroups : ∀ l : List String,
      Segment.flat (beBytes 4) (l.map fun g => .counted (strBytes g)) =
        l.flatMap fun g => lenPrefixed (strBytes g) := by
    intro l
    unfold Segment.flat
    rw [List.flatMap_map]
    rfl
  unfold messageBytes fields
  simp only [Segment.flat_cons, hgroups, List.append_assoc]
  rfl

/-- The fields say what is signed. -/
theorem fields_eq_iff {t t' : InviteToken} : t.fields = t'.fields ↔ t.SameSigned t' := by
  constructor
  · intro h
    unfold fields Segment.raw Segment.counted at h
    simp only [List.cons.injEq, Segment.mk.injEq, true_and] at h
    obtain ⟨hversion, hname, hpeer, hpubkey, haddr, hnonce, -, hgroups⟩ := h
    have hinj : Function.Injective fun g => (⟨true, strBytes g⟩ : Segment UInt8) := by
      intro g g' hg
      exact strBytes_injective (Segment.mk.inj hg).2
    obtain ⟨hversion', -⟩ := selfDelimiting_fin (n := 4) (m := 2 ^ 32) rfl trivial trivial [] []
      (congrArg (· ++ []) hversion)
    have hgroups' := List.map_injective_iff.mpr hinj hgroups
    have hname' := strBytes_injective hname
    have hpeer' := strBytes_injective hpeer
    have haddr' := strBytes_injective haddr
    unfold SameSigned
    cases t
    cases t'
    simp_all only
  · intro h
    unfold SameSigned at h
    rw [← h]
    rfl

theorem sameKinds_fields (t t' : InviteToken) : Segment.SameKinds t.fields t'.fields := by
  have hcounted : ∀ l : List String, ∀ f ∈ l.map fun g => Segment.counted (strBytes g),
      f.prefixed = true := by
    intro l f hf
    obtain ⟨g, -, rfl⟩ := List.mem_map.mp hf
    rfl
  exact ⟨rfl, rfl, rfl, rfl, rfl, rfl, rfl,
    Segment.sameKinds_of_counted (hcounted t.groups) (hcounted t'.groups)⟩

/-- The strings and their number fit their prefixes. -/
structure Short (t : InviteToken) : Prop where
  name : strBytes t.name ∈ shortBytes
  peerId : strBytes t.peerId ∈ shortBytes
  addr : strBytes t.addr ∈ shortBytes
  groups : ∀ g ∈ t.groups, strBytes g ∈ shortBytes

end InviteToken

/-! ## Join-proofs -/

namespace InviteAccept

section

variable [Primitives]

def sign (a : InviteAccept) (key : SigningKey) : InviteAccept :=
  { a with sig := beBytes 64 (Primitives.sign key a.messageBytes) }

/-- A join-proof of `key` that echoes `nonce`. -/
def make (nonce : List UInt8) (name : String) (peerId : Origin) (key : SigningKey) :
    InviteAccept :=
  sign {
    nonce
    name
    peerId
    pubkey := beBytes 32 (Primitives.verifyingKey key)
    sig := [] } key

end

/-- Equal in every signed field. -/
def SameSigned (a a' : InviteAccept) : Prop := { a with sig := a'.sig } = a'

/-- The fields in the order in which they are written. -/
def fields (a : InviteAccept) : List (Segment UInt8) :=
  [.raw a.nonce, .counted (strBytes a.name), .counted (strBytes a.peerId), .raw a.pubkey]

theorem messageBytes_eq (a : InviteAccept) :
    a.messageBytes = acceptMagic ++ Segment.flat (beBytes 4) a.fields := by
  unfold messageBytes fields
  simp only [Segment.flat_cons, List.append_assoc]
  show acceptMagic ++ (a.nonce ++ _) = acceptMagic ++ (a.nonce ++ _)
  unfold lenPrefixed Segment.counted Segment.header Segment.raw Segment.flat
  simp only [if_true, List.append_assoc, List.flatMap_nil, List.append_nil]
  rfl

theorem fields_eq_iff {a a' : InviteAccept} : a.fields = a'.fields ↔ a.SameSigned a' := by
  constructor
  · intro h
    unfold fields Segment.raw Segment.counted at h
    simp only [List.cons.injEq, Segment.mk.injEq, true_and] at h
    obtain ⟨hnonce, hname, hpeer, hpubkey, -⟩ := h
    have hname' := strBytes_injective hname
    have hpeer' := strBytes_injective hpeer
    unfold SameSigned
    cases a
    cases a'
    simp_all only
  · intro h
    unfold SameSigned at h
    rw [← h]
    rfl

theorem sameKinds_fields (a a' : InviteAccept) : Segment.SameKinds a.fields a'.fields :=
  ⟨rfl, rfl, rfl, rfl, fun _ hf => by cases hf⟩

end InviteAccept

/-! ## When the signature binds -/

/-- Messages of one magic, written field by field: equal for different fields exactly where a field
    is displaced. -/
theorem binds_iff {l l' : List (Segment UInt8)} (magic : List UInt8)
    (hkinds : Segment.SameKinds l l') :
    (magic ++ Segment.flat (beBytes 4) l = magic ++ Segment.flat (beBytes 4) l' → l = l') ↔
      ¬ Segment.Displaced (beBytes 4) l l' := by
  rw [List.append_cancel_left_eq,
    Segment.flat_eq_iff (fun k => length_beBytes 4 k) (by decide) hkinds]
  constructor
  · intro h hdisplaced
    exact Segment.ne_of_displaced hdisplaced (h (Or.inr hdisplaced))
  · rintro hno (heq | hdisplaced)
    · exact heq
    · exact absurd hdisplaced hno

/-- **When an invite binds its fields**, and a join-proof: exactly as long as no field is displaced
    between the two. -/
theorem invite_binds_iff (t t' : InviteToken) (a a' : InviteAccept) :
    ((t.messageBytes = t'.messageBytes → t.SameSigned t') ↔
      ¬ Segment.Displaced (beBytes 4) t.fields t'.fields) ∧
    ((a.messageBytes = a'.messageBytes → a.SameSigned a') ↔
      ¬ Segment.Displaced (beBytes 4) a.fields a'.fields) := by
  constructor
  · rw [t.messageBytes_eq, t'.messageBytes_eq, ← InviteToken.fields_eq_iff]
    exact binds_iff tokenMagic (t.sameKinds_fields t')
  · rw [a.messageBytes_eq, a'.messageBytes_eq, ← InviteAccept.fields_eq_iff]
    exact binds_iff acceptMagic (a.sameKinds_fields a')

theorem told_str {s s' : String} (h : strBytes s ∈ shortBytes) (h' : strBytes s' ∈ shortBytes) :
    Segment.Told (2 ^ 32) (.counted (strBytes s)) (.counted (strBytes s')) :=
  ⟨h, h'⟩

theorem told_raw {l l' : List UInt8} (h : l.length = l'.length) :
    Segment.Told (2 ^ 32) (.raw l) (.raw l') := h

/-- The lengths below the bound have prefixes of their own. -/
theorem lenPrefix_injOn : Set.InjOn (beBytes 4) {k | k < 2 ^ 32} := by
  intro k hk k' hk' h
  have hmod : k % 2 ^ 32 = k' % 2 ^ 32 := beBytes_inj.mp h
  rwa [Nat.mod_eq_of_lt hk, Nat.mod_eq_of_lt hk'] at hmod

/-- Invites with nonces of one length, like all that `make` signs, bind their fields. -/
theorem InviteToken.binds {t t' : InviteToken} (ht : t.Short) (ht' : t'.Short)
    (hpubkey : t.pubkey.length = t'.pubkey.length) (hnonce : t.nonce.length = t'.nonce.length)
    (h : t.messageBytes = t'.messageBytes) : t.SameSigned t' := by
  rw [t.messageBytes_eq, t'.messageBytes_eq] at h
  refine InviteToken.fields_eq_iff.mp ((binds_iff tokenMagic (t.sameKinds_fields t')).mpr ?_ h)
  refine Segment.not_displaced lenPrefix_injOn (t.sameKinds_fields t') ?_
  unfold fields
  simp only [List.zip_cons_cons, List.forall_mem_cons]
  refine ⟨told_raw (by rw [length_beBytes, length_beBytes]), told_str ht.name ht'.name,
    told_str ht.peerId ht'.peerId, told_raw hpubkey, told_str ht.addr ht'.addr, told_raw hnonce,
    told_raw (by rw [length_beBytes, length_beBytes]), ?_⟩
  rintro ⟨f, f'⟩ hp
  obtain ⟨g, hg, rfl⟩ := List.mem_map.mp (List.of_mem_zip hp).1
  obtain ⟨g', hg', rfl⟩ := List.mem_map.mp (List.of_mem_zip hp).2
  exact told_str (ht.groups g hg) (ht'.groups g' hg')

/-- Join-proofs that echo nonces of one length bind their fields. -/
theorem InviteAccept.binds {a a' : InviteAccept} (hname : strBytes a.name ∈ shortBytes)
    (hname' : strBytes a'.name ∈ shortBytes) (hpeer : strBytes a.peerId ∈ shortBytes)
    (hpeer' : strBytes a'.peerId ∈ shortBytes) (hpubkey : a.pubkey.length = a'.pubkey.length)
    (hnonce : a.nonce.length = a'.nonce.length) (h : a.messageBytes = a'.messageBytes) :
    a.SameSigned a' := by
  rw [a.messageBytes_eq, a'.messageBytes_eq] at h
  refine InviteAccept.fields_eq_iff.mp ((binds_iff acceptMagic (a.sameKinds_fields a')).mpr ?_ h)
  refine Segment.not_displaced lenPrefix_injOn (a.sameKinds_fields a') ?_
  unfold fields
  simp only [List.zip_cons_cons, List.forall_mem_cons]
  exact ⟨told_raw hnonce, told_str hname hname', told_str hpeer hpeer', told_raw hpubkey,
    fun p hp => by cases hp⟩

section

attribute [local instance] Sample.primitives

/-- An invite to a group of four zero bytes. -/
def Sample.zeroInvite : InviteToken :=
  .make "inviter" "alice" 1 "/ip4/10.0.0.2/tcp/4201" ["\x00\x00\x00\x00"] (List.replicate 16 7)

/-- The join-proof of a joiner named by four zero bytes. -/
def Sample.zeroAccept : InviteAccept :=
  .make (List.replicate 16 7) "\x00\x00\x00\x00" "bob" 2

/-- **The end of the nonce is not told**: the number of groups, or the length of the name, can be
    read as its last bytes, and the one signature verifies for both. -/
theorem invite_binding_fails :
    (¬ ∀ t t' : InviteToken, t.verify = true → t'.verify = true →
      t.messageBytes = t'.messageBytes → t.SameSigned t') ∧
    (¬ ∀ a a' : InviteAccept, a.verify = true → a'.verify = true →
      a.messageBytes = a'.messageBytes → a.SameSigned a') := by
  constructor
  · intro h
    have hsame := h Sample.zeroInvite
      { Sample.zeroInvite with
        nonce := Sample.zeroInvite.nonce ++ [0, 0, 0, 1, 0, 0, 0, 4]
        groups := [] } (by decide +kernel) (by decide +kernel) (by decide +kernel)
    exact absurd (congrArg InviteToken.groups hsame) (by decide +kernel)
  · intro h
    have hsame := h Sample.zeroAccept
      { Sample.zeroAccept with
        nonce := Sample.zeroAccept.nonce ++ [0, 0, 0, 4]
        name := "" } (by decide +kernel) (by decide +kernel) (by decide +kernel)
    exact absurd (congrArg InviteAccept.name hsame) (by decide +kernel)

end

end PhReactor
