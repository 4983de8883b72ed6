/-
  The frame of a catch-up reply (`src/p2p/codec.rs`, `write_msg` and `read_msg`).

  1. The body is the JSON text of the message, member by member in the order of the source's
     structs.  Strings and payloads are printed by `serde_json`; ids, hashes and signatures are
     printed as text that needs no escapes.

  2. `writeMsg` puts the length in front, and refuses a body above `maxMsgBytes`.  A frame it
     writes is read back (`readMsg_writeMsg`): below the cap the four bytes hold the length.

  3. The cap of 64 actions is counted elsewhere, so it says nothing of the size: that is the sum of
     the sizes of the state and of the actions, and what stands around them (`size_message`).
-/
import PhReactor.Sync.Wire
import PhReactor.Encoding

set_option linter.unusedSectionVars false

namespace PhReactor

/-! ## JSON text -/

/-- Text that needs no escapes, in quotes. -/
def quoted (t : String) : String := "\"" ++ t ++ "\""

def jsonArr (items : List String) : String := "[" ++ String.intercalate "," items ++ "]"

/-- An object, from its printed keys and values. -/
def jsonObj (members : List (String × String)) : String :=
  "\x7b" ++ String.intercalate "," (members.map fun m => m.1 ++ ":" ++ m.2) ++ "\x7d"

def jsonOpt {α : Type} (text : α → String) : Option α → String
  | some v => text v
  | none => "null"

def jsonBool (b : Bool) : String := if b then "true" else "false"

def docIdJson (d : DocId) : String := quoted (Store.docIdText d)

def hash32Json (h : Hash32) : String := quoted (hexEncode (beBytes 32 h))

def sigJson (sig : Sig) : String := quoted (hexEncode (beBytes 64 sig))

section

variable [Primitives]

def jsonStr (s : String) : String := Primitives.jsonText (.string s)

def vecClockJson (c : VecClock) : String :=
  jsonObj (c.counts.toList.map fun (o, n) => (jsonStr o, toString n.val))

def modelRefJson (m : ModelRef) : String :=
  jsonObj [(quoted "name", jsonStr m.name), (quoted "version", jsonStr m.version),
    (quoted "hash", jsonOpt hash32Json m.hash)]

def fieldJson (f : Field) : String :=
  jsonObj [(quoted "value", Primitives.jsonText f.value),
    (quoted "version", vecClockJson f.version), (quoted "ts", toString f.ts.val),
    (quoted "origin", jsonStr f.origin), (quoted "deleted", jsonBool f.deleted)]

def docJson (d : Doc) : String :=
  jsonObj [(quoted "id", docIdJson d.id), (quoted "name", jsonStr d.name),
    (quoted "fields", jsonObj (d.fields.toList.map fun (k, f) => (jsonStr k, fieldJson f)))]

def coSigJson (c : CoSig) : String :=
  jsonObj [(quoted "origin", jsonStr c.origin), (quoted "sig", sigJson c.sig)]

/-- The member `space`, which is skipped when there is none. -/
def spaceMember (space : Option DocId) : List (String × String) :=
  (space.map fun d => (quoted "space", docIdJson d)).toList

def actionJson (a : Action) : String :=
  jsonObj ([(quoted "doc_id", docIdJson a.docId), (quoted "model", modelRefJson a.model),
    (quoted "kind", jsonStr a.kind), (quoted "payload", Primitives.jsonText a.payload),
    (quoted "ts", toString a.ts.val), (quoted "clock", vecClockJson a.clock),
    (quoted "origin", jsonStr a.origin), (quoted "cosig", jsonArr (a.cosig.map coSigJson)),
    (quoted "prev_hash", jsonOpt hash32Json a.prevHash)] ++ spaceMember a.space ++
    [(quoted "sig", sigJson a.sig)])

def docStateJson (s : DocState) : String :=
  jsonObj ([(quoted "doc", docJson s.doc), (quoted "clock", vecClockJson s.clock),
    (quoted "deleted", jsonBool s.deleted), (quoted "log_hash", jsonOpt hash32Json s.logHash),
    (quoted "model", modelRefJson s.model)] ++ spaceMember s.space)

def catchUpAckJson (ack : CatchUpAck) : String :=
  jsonObj [(quoted "doc_id", docIdJson ack.docId), (quoted "state", jsonOpt docStateJson ack.state),
    (quoted "actions", jsonArr (ack.actions.map actionJson)), (quoted "more", jsonBool ack.more)]

/-- The reply as a message, with the tag of `SyncMsg`. -/
def CatchUpAck.message (ack : CatchUpAck) : String :=
  jsonObj [(quoted "t", quoted "CatchUpAck"), (quoted "p", catchUpAckJson ack)]

end

/-! ## The frame -/

/-- Maximum framed message size. -/
def maxMsgBytes : ℕ := 2 ^ 20

/-- `write_msg`, from the encoded body on. -/
def writeMsg (body : List UInt8) : Except String (List UInt8) :=
  if maxMsgBytes < body.length then .error "encoded message too large"
  else .ok (beBytes 4 body.length ++ body)

/-- `read_msg`, up to the body. -/
def readMsg (io : List UInt8) : Except String (List UInt8) :=
  if io.length < 4 then .error "unexpected end of file"
  else
    let len := ofBeBytes (io.take 4)
    if maxMsgBytes < len then
      .error ("message too large: " ++ toString len ++ " > " ++ toString maxMsgBytes)
    else if (io.drop 4).length < len then .error "unexpected end of file"
    else .ok ((io.drop 4).take len)

theorem writeMsg_isOk {body : List UInt8} :
    (writeMsg body).isOk = true ↔ body.length ≤ maxMsgBytes := by
  unfold writeMsg
  split
  · next h => exact iff_of_false (by simp [Except.isOk, Except.toBool]) (Nat.not_le.mpr h)
  · next h => exact iff_of_true rfl (Nat.not_lt.mp h)

theorem beBytes_succ (n v : ℕ) :
    beBytes (n + 1) v = UInt8.ofNat (v / 256 ^ n) :: beBytes n v := by
  unfold beBytes
  rw [List.range_succ_eq_map, List.map_cons, List.map_map]
  congr 1
  refine List.map_congr_left fun i hi => ?_
  rw [List.mem_range] at hi
  show UInt8.ofNat (v / 256 ^ (n + 1 - 1 - (i + 1))) = _
  rw [show n + 1 - 1 - (i + 1) = n - 1 - i from by omega]

theorem ofBeBytes_foldl (bytes : List UInt8) (m : ℕ) :
    bytes.foldl (fun n b => n * 256 + b.toNat) m = m * 256 ^ bytes.length + ofBeBytes bytes := by
  induction bytes generalizing m with
  | nil => simp [ofBeBytes]
  | cons b rest ih =>
    unfold ofBeBytes
    rw [List.foldl_cons, List.foldl_cons, ih, ih (0 * 256 + b.toNat), List.length_cons, Nat.add_mul,
      Nat.zero_mul, Nat.zero_add, Nat.mul_assoc, ← Nat.pow_succ', Nat.add_assoc]

/-- The big-endian bytes of a number are read back, up to their width. -/
theorem ofBeBytes_beBytes (n v : ℕ) : ofBeBytes (beBytes n v) = v % 256 ^ n := by
  induction n with
  | zero => rw [Nat.pow_zero, Nat.mod_one]; rfl
  | succ n ih =>
    rw [beBytes_succ]
    show (beBytes n v).foldl _ (0 * 256 + (UInt8.ofNat (v / 256 ^ n)).toNat) = _
    rw [ofBeBytes_foldl, ih, length_beBytes, Nat.zero_mul, Nat.zero_add]
    calc (UInt8.ofNat (v / 256 ^ n)).toNat * 256 ^ n + v % 256 ^ n
        = v / 256 ^ n % 256 * 256 ^ n + v % 256 ^ n := by rw [UInt8.toNat_ofNat']
      _ = v % 256 ^ n + 256 ^ n * (v / 256 ^ n % 256) := by rw [Nat.add_comm, Nat.mul_comm]
      _ = v % 256 ^ (n + 1) := (Nat.mod_pow_succ).symm

/-- **A frame that is written is read back.** -/
theorem readMsg_writeMsg {body io : List UInt8} (h : writeMsg body = .ok io) :
    readMsg io = .ok body := by
  have hle : body.length ≤ maxMsgBytes := writeMsg_isOk.mp (by rw [h]; rfl)
  obtain rfl : beBytes 4 body.length ++ body = io := by
    unfold writeMsg at h
    rw [if_neg (Nat.not_lt.mpr hle)] at h
    exact Except.ok.inj h
  have hfour : (beBytes 4 body.length).length = 4 := length_beBytes 4 _
  have hlen : ofBeBytes ((beBytes 4 body.length ++ body).take 4) = body.length := by
    rw [List.take_left' hfour, ofBeBytes_beBytes]
    refine Nat.mod_eq_of_lt (lt_of_le_of_lt hle ?_)
    decide
  unfold readMsg
  rw [if_neg (by rw [List.length_append, hfour]; omega)]
  dsimp only
  rw [hlen, if_neg (Nat.not_lt.mpr hle), List.drop_left' hfour, if_neg (lt_irrefl _),
    List.take_length]

/-! ## Sizes -/

/-- The size of some pieces of text together. -/
def totalBytes : List String → ℕ
  | [] => 0
  | t :: rest => t.utf8ByteSize + totalBytes rest

theorem size_intercalate (l : List String) :
    (String.intercalate "," l).utf8ByteSize = totalBytes l + (l.length - 1) := by
  induction l with
  | nil => rfl
  | cons t rest ih =>
    cases rest with
    | nil =>
      rw [String.intercalate_singleton]
      rfl
    | cons u rest =>
      rw [String.intercalate_cons_cons, String.utf8ByteSize_append, String.utf8ByteSize_append, ih]
      have hcomma : (",").utf8ByteSize = 1 := rfl
      have htotal : totalBytes (t :: u :: rest) = t.utf8ByteSize + totalBytes (u :: rest) := rfl
      simp only [List.length_cons]
      omega

theorem size_quoted (t : String) : (quoted t).utf8ByteSize = t.utf8ByteSize + 2 := by
  unfold quoted
  rw [String.utf8ByteSize_append, String.utf8ByteSize_append]
  have hquote : ("\"").utf8ByteSize = 1 := rfl
  omega

theorem size_jsonArr (items : List String) :
    (jsonArr items).utf8ByteSize = totalBytes items + (items.length - 1) + 2 := by
  unfold jsonArr
  rw [String.utf8ByteSize_append, String.utf8ByteSize_append, size_intercalate]
  have hopen : ("[").utf8ByteSize = 1 := rfl
  have hclose : ("]").utf8ByteSize = 1 := rfl
  omega

/-- An object's size: its members with a colon each, the commas between them, and the braces. -/
theorem size_jsonObj (members : List (String × String)) :
    (jsonObj members).utf8ByteSize =
      totalBytes (members.map fun m => m.1 ++ ":" ++ m.2) + (members.length - 1) + 2 := by
  unfold jsonObj
  rw [String.utf8ByteSize_append, String.utf8ByteSize_append, size_intercalate, List.length_map]
  have hopen : ("\x7b").utf8ByteSize = 1 := rfl
  have hclose : ("\x7d").utf8ByteSize = 1 := rfl
  omega

/-- A hex digit is one byte. -/
theorem utf8Size_digitChar : ∀ n < 16, (Nat.digitChar n).utf8Size = 1 := by decide

theorem size_ofList {l : List Char} (h : ∀ c ∈ l, c.utf8Size = 1) :
    (String.ofList l).utf8ByteSize = l.length := by
  induction l with
  | nil => rfl
  | cons c rest ih =>
    rw [← List.singleton_append, String.ofList_append, String.utf8ByteSize_append,
      ih fun c' hc' => h c' (List.mem_cons_of_mem c hc'), List.length_append, List.length_singleton]
    congr 1
    exact String.utf8ByteSize_singleton.trans (h c List.mem_cons_self)

/-- The two digits of each byte. -/
theorem size_hexDigits (bytes : List UInt8) {l : List Char}
    (hl : l.Sublist (bytes.flatMap fun b =>
      [Nat.digitChar (b.toNat / 16), Nat.digitChar (b.toNat % 16)])) :
    (String.ofList l).utf8ByteSize = l.length := by
  refine size_ofList fun c hc => ?_
  obtain ⟨b, -, hb⟩ := List.mem_flatMap.mp (hl.subset hc)
  have hbyte := b.toNat_lt
  rcases List.mem_pair.mp hb with rfl | rfl
  · exact utf8Size_digitChar _ (by omega)
  · exact utf8Size_digitChar _ (by omega)

/-- An id is 36 characters long, and two quotes. -/
theorem size_docIdJson (d : DocId) : (docIdJson d).utf8ByteSize = 38 := by
  unfold docIdJson
  rw [size_quoted]
  unfold Store.docIdText
  dsimp only
  generalize hhex : ((beBytes 16 d).flatMap fun b =>
    [Nat.digitChar (b.toNat / 16), Nat.digitChar (b.toNat % 16)]) = hex
  have hlen : hex.length = 32 := by
    rw [← hhex, List.length_flatMap]
    simp [length_beBytes]
  have hsize : ∀ l : List Char, l.Sublist hex → (String.ofList l).utf8ByteSize = l.length :=
    fun l hl => size_hexDigits (beBytes 16 d) (hhex ▸ hl)
  have hpiece : ∀ n k, (String.ofList ((hex.drop n).take k)).utf8ByteSize = min k (32 - n) := by
    intro n k
    rw [hsize _ ((List.take_sublist _ _).trans (List.drop_sublist _ _)), List.length_take,
      List.length_drop, hlen]
  have hfirst := hpiece 0 8
  have hlast : (String.ofList (hex.drop 20)).utf8ByteSize = 12 := by
    rw [hsize _ (List.drop_sublist _ _), List.length_drop, hlen]
  simp only [List.map_cons, List.map_nil, String.intercalate_cons_cons,
    String.intercalate_singleton, String.utf8ByteSize_append, hpiece, hlast,
    List.drop_zero] at hfirst ⊢
  rw [hfirst]
  rfl

variable [Primitives]

/-- What stands around the state and the actions of a reply. -/
def replyOverhead (more : Bool) : ℕ := if more then 106 else 107

/-- The size of a reply, from the sizes of its parts. -/
def replyBytes (state : Option DocState) (actions : List Action) (more : Bool) : ℕ :=
  replyOverhead more + (jsonOpt docStateJson state).utf8ByteSize +
    totalBytes (actions.map actionJson) + (actions.length - 1)

/-- **The size of a reply is that of its parts.** -/
theorem size_message (ack : CatchUpAck) :
    ack.message.utf8ByteSize = replyBytes ack.state ack.actions ack.more := by
  unfold CatchUpAck.message catchUpAckJson replyBytes replyOverhead
  simp only [size_jsonObj, size_jsonArr, size_quoted, size_docIdJson, List.map_cons, List.map_nil,
    totalBytes, String.utf8ByteSize_append, List.length_cons, List.length_nil, List.length_map]
  have hkeys : ("t").utf8ByteSize = 1 ∧ ("CatchUpAck").utf8ByteSize = 10 ∧
      ("p").utf8ByteSize = 1 ∧ ("doc_id").utf8ByteSize = 6 ∧ ("state").utf8ByteSize = 5 ∧
      ("actions").utf8ByteSize = 7 ∧ ("more").utf8ByteSize = 4 ∧
      (":").utf8ByteSize = 1 := by decide
  have hmore : (jsonBool ack.more).utf8ByteSize = if ack.more then 4 else 5 := by
    unfold jsonBool
    split <;> rfl
  rw [hmore]
  cases ack.more
  · simp only [Bool.false_eq_true, if_false]
    omega
  · simp only [if_true]
    omega

end PhReactor
