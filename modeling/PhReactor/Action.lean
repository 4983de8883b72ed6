/-
  The action envelope: a signed, model-referenced INTENT (`src/action.rs`).

  An `Action` names the model and reducer it invokes, carries the payload, and is signed by its
  origin over `messageBytes`; co-signers sign the same bytes.  Neither the signature nor the
  co-signatures are part of what is signed, so two different actions may share their message —
  and then their content hash.  `SameSigned` is that relation: equal in every signed field.

  The cryptography and the JSON printer are third-party crates; the model takes them as the
  parameters collected in `Primitives`.
-/
import PhReactor.Doc

namespace PhReactor

/-- An ed25519 public key: 32 bytes. -/
abbrev PublicKey := Fin (2 ^ 256)

/-- An ed25519 signing key: its 32-byte seed. -/
abbrev SigningKey := Fin (2 ^ 256)

/-- What the code takes from `sha2`, `ed25519-dalek` and `serde_json`. -/
class Primitives where
  /-- SHA-256. -/
  sha256 : List UInt8 → Hash32
  /-- `serde_json::to_string`, also the `Display` of a value. -/
  jsonText : Value → String
  /-- `VerifyingKey::from_bytes`: are these 32 bytes a curve point. -/
  keyOk : PublicKey → Bool
  /-- `VerifyingKey::verify_strict`. -/
  verifyStrict : PublicKey → List UInt8 → Sig → Bool
  /-- `SigningKey::verifying_key`. -/
  verifyingKey : SigningKey → PublicKey
  /-- `SigningKey::sign`. -/
  sign : SigningKey → List UInt8 → Sig

/-- An additional signer on a quorum-gated action. -/
structure CoSig where
  origin : Origin
  sig : Sig
  deriving DecidableEq

/-- A signed, model-referenced intent. -/
structure Action where
  docId : DocId
  /-- The model this action invokes, pinned by name + version (and hash). -/
  model : ModelRef
  /-- The reducer to run. -/
  kind : String
  payload : Value
  ts : U64
  /-- The sender's per-document vector clock AFTER this action. -/
  clock : VecClock
  origin : Origin
  cosig : List CoSig
  /-- Hash of the previous action in this document's log. -/
  prevHash : Option Hash32
  /-- The space this document belongs to. -/
  space : Option DocId
  sig : Sig
  deriving DecidableEq

/-- Equal in every signed field: only the signature and the co-signatures may differ. -/
def Action.SameSigned (a b : Action) : Prop := { a with sig := b.sig, cosig := b.cosig } = b

/-! ## The signed bytes -/

/-- The `n` big-endian bytes of `v` (the low `8 * n` bits of it). -/
def beBytes (n v : ℕ) : List UInt8 :=
  (List.range n).map fun i => UInt8.ofNat (v / 256 ^ (n - 1 - i))

/-- `len as u32` in big-endian, then the bytes. -/
def lenPrefixed (bytes : List UInt8) : List UInt8 := beBytes 4 bytes.length ++ bytes

def strBytes (s : String) : List UInt8 := s.toUTF8.toList

/-- Canonical encoding of a clock: `origin_len || origin || count` in origin order. -/
def vecClockBytes (c : VecClock) : List UInt8 :=
  c.counts.toList.flatMap fun (o, n) => lenPrefixed (strBytes o) ++ beBytes 8 n

/-- An optional hash: `0x01 || hash`, or `0x00`. -/
def optHashBytes : Option Hash32 → List UInt8
  | some h => 0x01 :: beBytes 32 h
  | none => [0x00]

/-- A hash in hexadecimal. -/
def hashText (h : Hash32) : String :=
  String.ofList ((beBytes 32 h).flatMap fun b =>
    [Nat.digitChar (b.toNat / 16), Nat.digitChar (b.toNat % 16)])

/-- A blob: its identity, size, and the ordered chunks it is made of. -/
structure BlobRef where
  hash : Hash32
  size : U64
  chunks : List Hash32
  deriving DecidableEq

variable [Primitives]

/-- `serde_json::to_vec`. -/
def toVec (v : Value) : List UInt8 := strBytes (Primitives.jsonText v)

namespace Action

/-- The canonical byte form an action is signed over.  The space suffix is absent, not a marker,
    when there is no space. -/
def messageBytes (a : Action) : List UInt8 :=
  beBytes 16 a.docId
    ++ 0x01 :: lenPrefixed (strBytes a.model.name)
    ++ 0x01 :: lenPrefixed (strBytes a.model.version)
    ++ optHashBytes a.model.hash
    ++ 0x01 :: lenPrefixed (strBytes a.kind)
    ++ 0x01 :: lenPrefixed (toVec a.payload)
    ++ beBytes 8 a.ts
    ++ 0x01 :: lenPrefixed (vecClockBytes a.clock)
    ++ 0x01 :: lenPrefixed (strBytes a.origin)
    ++ optHashBytes a.prevHash
    ++ (match a.space with
      | some space => 0x01 :: beBytes 16 space
      | none => [])

/-- The content hash of this action: the target of the next action's `prevHash`. -/
def hash (a : Action) : Hash32 := Primitives.sha256 a.messageBytes

/-- Sign this action with the sender's identity key. -/
def sign (a : Action) (key : SigningKey) : Action :=
  { a with sig := Primitives.sign key a.messageBytes }

/-- Verify the primary (origin) signature against `pk`. -/
def verify (a : Action) (pk : PublicKey) : Bool :=
  Primitives.verifyStrict pk a.messageBytes a.sig

/-- Verify co-signer `i` against `pk`. -/
def verifyCosig (a : Action) (i : ℕ) (pk : PublicKey) : Bool :=
  match a.cosig[i]? with
  | some c => Primitives.verifyStrict pk a.messageBytes c.sig
  | none => false

/-- The content hash tells the actions of `S` apart up to their signatures: what collision freedom
    of SHA-256 says about the messages of `S`. -/
def HashSeparates (S : Set Action) : Prop :=
  ∀ a ∈ S, ∀ b ∈ S, a.hash = b.hash → a.SameSigned b

end Action

end PhReactor
