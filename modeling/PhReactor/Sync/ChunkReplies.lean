/-
  The frame of a chunk (`src/p2p/codec.rs`, `ChunkData` in `SyncMsg`, and `src/blob/mod.rs`,
  `CHUNK_BYTES`).

  A chunk travels as JSON: an array of decimal numbers.  A byte takes one to three digits and a
  comma, so a reply may be four times the size of its chunk, and a chunk is a quarter of the cap.

  1. The size of a reply is that of the digits, the commas, and what stands around them
     (`size_chunkReply`); so it is the content of a chunk that decides, not its length
     (`chunk_fits_iff`).

  2. The commas leave nothing for the envelope: of a full chunk, `largest_chunk_refused` sends the
     worst.  27 bytes fewer are safe whatever they are (`chunk_fits_of_length`).
-/
import Mathlib.Algebra.Ring.Nat
import PhReactor.Blob.Store
import PhReactor.Sync.Framing

set_option linter.unusedSectionVars false

namespace PhReactor

/-! ## JSON text -/

def bytesJson (bytes : List UInt8) : String := jsonArr (bytes.map fun b => toString b.toNat)

/-- `ChunkData`; without a chunk the member `bytes` is skipped. -/
def chunkDataJson (hash : Hash32) (bytes : Option (List UInt8)) : String :=
  jsonObj ([(quoted "hash", hash32Json hash)] ++
    (bytes.map fun bytes => (quoted "bytes", bytesJson bytes)).toList)

/-- The reply as a message, with the tag of `SyncMsg`. -/
def chunkReply (hash : Hash32) (bytes : Option (List UInt8)) : String :=
  jsonObj [(quoted "t", quoted "ChunkData"), (quoted "p", chunkDataJson hash bytes)]

/-! ## Sizes -/

/-- The number of digits of a byte. -/
def digitsOf (b : UInt8) : ℕ := if b.toNat < 10 then 1 else if b.toNat < 100 then 2 else 3

/-- The digits of all bytes. -/
def digitsOfAll (bytes : List UInt8) : ℕ := (bytes.map digitsOf).sum

/-- What a reply has besides digits and commas. -/
def chunkEnvelope : ℕ := 108

theorem size_toString : ∀ n < 256,
    (toString n).utf8ByteSize = if n < 10 then 1 else if n < 100 then 2 else 3 := by
  decide +kernel

theorem size_hash32Json (h : Hash32) : (hash32Json h).utf8ByteSize = 66 := by
  unfold hash32Json hexEncode
  rw [size_quoted, size_hexDigits (beBytes 32 h) (List.Sublist.refl _), List.length_flatMap]
  simp [length_beBytes]

theorem totalBytes_bytes (bytes : List UInt8) :
    totalBytes (bytes.map fun b => toString b.toNat) = digitsOfAll bytes := by
  induction bytes with
  | nil => rfl
  | cons b rest ih =>
    have hone := size_toString b.toNat b.toNat_lt
    unfold digitsOfAll digitsOf at ih ⊢
    rw [List.map_cons, List.map_cons, List.sum_cons]
    unfold totalBytes
    rw [ih, hone]

/-- **The size of a reply with a chunk.** -/
theorem size_chunkReply (hash : Hash32) (bytes : List UInt8) :
    (chunkReply hash (some bytes)).utf8ByteSize =
      chunkEnvelope + digitsOfAll bytes + (bytes.length - 1) := by
  unfold chunkReply chunkDataJson bytesJson chunkEnvelope
  simp only [size_jsonObj, size_jsonArr, size_quoted, size_hash32Json, List.map_cons, List.map_nil,
    totalBytes, String.utf8ByteSize_append, List.length_cons, List.length_nil, List.length_map,
    Option.map_some, Option.toList_some, List.singleton_append, totalBytes_bytes]
  have hkeys : ("t").utf8ByteSize = 1 ∧ ("ChunkData").utf8ByteSize = 9 ∧
      ("p").utf8ByteSize = 1 ∧ ("hash").utf8ByteSize = 4 ∧ ("bytes").utf8ByteSize = 5 ∧
      (":").utf8ByteSize = 1 := by decide
  omega

/-! ## What fits -/

/-- **When a chunk fits into one message**: when the digits of its bytes and the commas between them
    leave room for the envelope. -/
theorem chunk_fits_iff (hash : Hash32) (bytes : List UInt8) :
    (writeMsg (strBytes (chunkReply hash (some bytes)))).isOk = true ↔
      chunkEnvelope + digitsOfAll bytes + (bytes.length - 1) ≤ maxMsgBytes := by
  rw [writeMsg_isOk, length_strBytes, size_chunkReply]

theorem digitsOfAll_le (bytes : List UInt8) : digitsOfAll bytes ≤ 3 * bytes.length := by
  induction bytes with
  | nil => exact Nat.le_refl 0
  | cons b rest ih =>
    unfold digitsOfAll at ih ⊢
    have hone : digitsOf b ≤ 3 := by
      unfold digitsOf
      split
      · decide
      · split <;> decide
    rw [List.map_cons, List.sum_cons, List.length_cons]
    omega

/-- Short chunks fit, whatever is in them. -/
theorem chunk_fits_of_length {bytes : List UInt8} (hash : Hash32)
    (h : bytes.length + 27 ≤ Blob.chunkBytes) :
    (writeMsg (strBytes (chunkReply hash (some bytes)))).isOk = true := by
  rw [chunk_fits_iff]
  have hdigits := digitsOfAll_le bytes
  unfold Blob.chunkBytes at h
  unfold chunkEnvelope maxMsgBytes
  omega

/-- **A full chunk of large bytes is refused.** -/
theorem largest_chunk_refused :
    ¬ ∀ (hash : Hash32) (bytes : List UInt8), bytes.length ≤ Blob.chunkBytes →
      (writeMsg (strBytes (chunkReply hash (some bytes)))).isOk = true := by
  intro h
  have hlen : (List.replicate Blob.chunkBytes (255 : UInt8)).length = Blob.chunkBytes :=
    List.length_replicate
  have hfits := (chunk_fits_iff 0 _).mp (h 0 (List.replicate Blob.chunkBytes 255) hlen.le)
  have hdigits : digitsOfAll (List.replicate Blob.chunkBytes 255) = 3 * Blob.chunkBytes := by
    unfold digitsOfAll
    have hone : digitsOf 255 = 3 := by decide
    rw [List.map_replicate, List.sum_replicate_nat, hone, Nat.mul_comm]
  rw [hdigits, hlen] at hfits
  unfold Blob.chunkBytes chunkEnvelope maxMsgBytes at hfits
  omega

end PhReactor
