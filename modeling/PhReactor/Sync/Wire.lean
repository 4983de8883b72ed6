/-
  What travels between two sync engines (`src/p2p/codec.rs`, `src/p2p/invite.rs`, `src/drives.rs`).

  1. A peer is named by the base58 text of its id: `to_base58` is injective, and the text is what
     member lists and pinned keys use.

  2. The messages are those of `SyncMsg`.  The engine sees decoded messages only; what the frame of
     a catch-up reply holds is in `Framing`.

  3. A drive is a configured remote peer, a join-proof what a joiner sends with its first hello.
-/
import PhReactor.Sync.CatchUp

namespace PhReactor

/-- A libp2p peer id, by its base58 text. -/
abbrev PeerId := Origin

/-! ## Hex -/

/-- The bytes as one big-endian number. -/
def ofBeBytes (bytes : List UInt8) : ℕ := bytes.foldl (fun n b => n * 256 + b.toNat) 0

def hexDigit? (c : Char) : Option ℕ :=
  if '0' ≤ c ∧ c ≤ '9' then some (c.toNat - '0'.toNat)
  else if 'a' ≤ c ∧ c ≤ 'f' then some (c.toNat - 'a'.toNat + 10)
  else if 'A' ≤ c ∧ c ≤ 'F' then some (c.toNat - 'A'.toNat + 10)
  else none

def hexPairs : List Char → Option (List UInt8)
  | [] => some []
  | [_] => none
  | hi :: lo :: rest => do
    let hi ← hexDigit? hi
    let lo ← hexDigit? lo
    let rest ← hexPairs rest
    some (UInt8.ofNat (16 * hi + lo) :: rest)

/-- `hex::decode`. -/
def hexDecode (s : String) : Option (List UInt8) := hexPairs s.toList

/-- `hex::encode`. -/
def hexEncode (bytes : List UInt8) : String :=
  String.ofList (bytes.flatMap fun b =>
    [Nat.digitChar (b.toNat / 16), Nat.digitChar (b.toNat % 16)])

/-- A public key sent as hex: 32 bytes, or nothing. -/
def pubkeyOfHex (s : String) : Option PublicKey :=
  (hexDecode s).bind fun kb => if kb.length = 32 then some (Fin.ofNat _ (ofBeBytes kb)) else none

/-! ## Drives -/

/-- A component of a multiaddr: the peer id, or anything else. -/
inductive Protocol where
  | p2p (peer : PeerId)
  | other (text : String)
  deriving DecidableEq

abbrev Multiaddr := List Protocol

/-- Drive status vocabulary. -/
inductive DriveStatus where
  | synced
  | connecting
  | paused
  | offline
  | requiresAuth
  | error
  deriving DecidableEq

/-- A configured remote drive. -/
structure Drive where
  name : String
  addr : Multiaddr
  /-- Name of the environment variable holding the shared token. -/
  tokenEnv : Option String
  paused : Bool
  availableOffline : Bool

/-- The `/p2p/` component of the multiaddr, if present. -/
def Drive.peerId (d : Drive) : Option PeerId :=
  d.addr.findSome? fun
    | .p2p peer => some peer
    | .other _ => none

/-! ## Join-proofs -/

/-- A signed proof that a joiner holds a valid invite. -/
structure InviteAccept where
  /-- The invite's nonce, echoed. -/
  nonce : List UInt8
  name : String
  peerId : Origin
  pubkey : List UInt8
  sig : List UInt8

def acceptMagic : List UInt8 := strBytes "ph-reactor/accept/v1"

namespace InviteAccept

def messageBytes (a : InviteAccept) : List UInt8 :=
  acceptMagic ++ a.nonce ++ lenPrefixed (strBytes a.name) ++ lenPrefixed (strBytes a.peerId) ++
    a.pubkey

/-- The key of the proof, as a number. -/
def key (a : InviteAccept) : PublicKey := Fin.ofNat _ (ofBeBytes a.pubkey)

/-- The signature verifies against the proof's own `pubkey`. -/
def verify [Primitives] (a : InviteAccept) : Bool :=
  a.pubkey.length == 32 && Primitives.keyOk a.key && a.sig.length == 64 &&
    Primitives.verifyStrict a.key a.messageBytes (Fin.ofNat _ (ofBeBytes a.sig))

end InviteAccept

/-! ## Messages -/

/-- Mismatched versions are rejected in the handshake. -/
def protocolVersion : ℕ := 3

structure DocSummary where
  id : DocId
  name : String
  clock : VecClock

/-- Handshake, sent by the dialer right after the transport connects. -/
structure Hello where
  version : ℕ
  name : String
  peerId : String
  /-- The dialer's public key, hex. -/
  pubkey : String
  token : Option String
  accept : Option InviteAccept

/-- Successful handshake reply. -/
structure HelloAck where
  version : ℕ
  name : String
  docs : List DocSummary
  pubkey : Option String

/-- Typed handshake rejection. -/
inductive HelloError where
  | badVersion (expected got : ℕ)
  | authRequired
  | badToken
  | keyMismatch
  | banned
  deriving DecidableEq

/-- Catch-up request: "send me what I'm missing for this doc". -/
structure CatchUp where
  docId : DocId
  have_ : VecClock

/-- All protocol messages.  The two summaries carry the sender's per-doc clocks. -/
inductive SyncMsg where
  | hello (h : Hello)
  | helloAck (ack : HelloAck)
  | helloErr (err : HelloError)
  | catchUp (c : CatchUp)
  | catchUpAck (ack : CatchUpAck)
  | summary (clocks : List (DocId × VecClock))
  | summaryAck (clocks : List (DocId × VecClock))
  | modelRequest (ref_ : ModelRef)
  | modelDef (ref_ : ModelRef) (def_ : Option Value)
  | chunkRequest (hash : Hash32)
  | chunkData (hash : Hash32) (bytes : Option (List UInt8))

/-- Gossip payload: one signed action for mesh fan-out. -/
structure ActionMsg where
  action : Action
  name : Option String

/-- The documents a message names to the one it is sent to. -/
def SyncMsg.docs : SyncMsg → List DocId
  | .helloAck ack => ack.docs.map DocSummary.id
  | .catchUp c => [c.docId]
  | .catchUpAck ack => ack.docId :: ack.actions.map Action.docId
  | .summary clocks => clocks.map Prod.fst
  | .summaryAck clocks => clocks.map Prod.fst
  | _ => []

end PhReactor
