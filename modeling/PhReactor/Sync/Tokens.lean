/-
  Proposals on their way between the members (`src/p2p/cosign.rs`, and the commands around it).

  A member proposes an action and passes it on as a text.  Another adds his co-signature and passes
  the text on, until somebody submits it.  The text may go through any channel: whoever takes it up
  checks every signature in it under the keys that his own store has pinned.

  1. What a node accepts is the one text of an action that it can check, with white space around it
     (`accepted_tokens_are_signed`).

  2. A chain of members comes to its end exactly when no two of them are the same, nobody is the
     proposer, and each knows the keys of all before him.  Then anybody who knows the keys reads the
     action with all the co-signatures, submits just that, and counts every member once
     (`proposals_are_gathered`).

  The texts of an action, and what goes wrong with a text, are those of `serde_json` and of the
  base64 crate (`Codec`).
-/
import PhReactor.Lib.Base64
import PhReactor.Lib.Machine
import PhReactor.Store.Authoring
import PhReactor.Store.Timestamps
import PhReactor.Sample
import PhReactor.Sync.Cosign
import PhReactor.Update.Release

set_option linter.unusedSectionVars false

namespace PhReactor.Tokens

open Lib

/-! ## Texts -/

/-- The crates that write and read tokens. -/
structure Codec where
  /-- `serde_json::to_vec`. -/
  write : Action → List UInt8
  /-- `serde_json::from_slice`. -/
  read : List UInt8 → Except String Action
  /-- The text of a base64 error. -/
  badBase64 : List Char → String

/-- So that a pasted token is recognisable. -/
def tokenPrefix : List Char := "PROPOSAL:".toList

section

variable [Primitives] (c : Codec)

/-- Encodes an action as a shareable token. -/
def encode (a : Action) : String := String.ofList (tokenPrefix ++ Base64.encode (c.write a))

def base64Decode (s : List Char) : Except String (List UInt8) :=
  match Base64.decode (Update.trim s) with
  | some raw => .ok raw
  | none => .error ("proposal is not valid base64: " ++ c.badBase64 (Update.trim s))

/-- The action in a token, before its signatures are looked at. -/
def parse (token : String) : Except String Action :=
  match (Update.trim token.toList).dropPrefix? tokenPrefix with
  | none => .error "not a proposal token (expected it to start with PROPOSAL:)"
  | some body =>
    match base64Decode c body with
    | .error e => .error e
    | .ok raw =>
      match c.read raw with
      | .error e => .error ("malformed proposal: " ++ e)
      | .ok a => .ok a

/-- The co-signatures from the `i`-th on. -/
def checkCosigs (keyOf : Origin → Option PublicKey) (a : Action) : ℕ → List CoSig →
    Except String Action
  | _, [] => .ok a
  | i, cs :: rest =>
    match keyOf cs.origin with
    | none => .error ("unknown co-signer " ++ cs.origin ++ ": no key for it")
    | some k =>
      if a.verifyCosig i k then checkCosigs keyOf a (i + 1) rest
      else .error ("co-signature from " ++ cs.origin ++
        " does not verify (the proposal was altered)")

def checkSigs (keyOf : Origin → Option PublicKey) (a : Action) : Except String Action :=
  match keyOf a.origin with
  | none => .error ("unknown proposer " ++ a.origin ++ ": no key for it")
  | some k =>
    if a.verify k then checkCosigs keyOf a 0 a.cosig
    else .error "the proposer's signature does not verify (the proposal was altered)"

/-- Decodes a token and verifies every signature it carries. -/
def decode (keyOf : Origin → Option PublicKey) (token : String) : Except String Action :=
  match parse c token with
  | .error e => .error e
  | .ok a => checkSigs keyOf a

/-! ## The commands -/

/-- `Store::peer_key`, if it is a key. -/
def keyOf (s : Inner) (o : Origin) : Option PublicKey :=
  s.knownKeys[o]?.filter fun k => Primitives.keyOk k

/-- `Command::Propose`. -/
def propose (s : Inner) (now : U64) (name : String) (model : ModelRef) (kind : String)
    (payload : Value) : Inner × Except String String :=
  let r := Store.buildLocalAction s now name model kind payload
  (r.1, r.2.map (encode c))

/-- `Command::CoSign`. -/
def coSign (s : Inner) (token : String) : Except String String :=
  match decode c (keyOf s) token with
  | .error e => .error e
  | .ok a => (addCosig a s.origin s.key).2.map fun _ => encode c (addCosig a s.origin s.key).1

/-- `Command::Submit`. -/
def submit (s : Inner) (io : Io) (token : String) : Inner × Except String String :=
  match decode c (keyOf s) token with
  | .error e => (s, .error e)
  | .ok a =>
    let r := Store.applySignedAction s io a
    (r.1, r.2.map fun _ => "applied co-signed " ++ a.kind)

/-- The token goes from member to member. -/
def gather : String → List Inner → Except String String
  | token, [] => .ok token
  | token, s :: rest =>
    match coSign c s token with
    | .error e => .error e
    | .ok token => gather token rest

/-! ## What is accepted -/

/-- The store can check every signature of the action. -/
structure Checked (s : Inner) (a : Action) : Prop where
  origin : ∃ k, keyOf s a.origin = some k ∧ a.verify k = true
  cosigs : ∀ i cs, a.cosig[i]? = some cs → ∃ k, keyOf s cs.origin = some k ∧
    a.verifyCosig i k = true

variable {c} {s : Inner} {a b : Action} {token : String}

theorem checkCosigs_eq_ok_iff {f : Origin → Option PublicKey} {i : ℕ} {l : List CoSig} :
    checkCosigs f a i l = .ok b ↔ b = a ∧ ∀ j cs, l[j]? = some cs →
      ∃ k, f cs.origin = some k ∧ a.verifyCosig (i + j) k = true := by
  induction l generalizing i with
  | nil =>
    constructor
    · exact fun h => ⟨(Except.ok.inj h).symm, fun j cs hj => nomatch hj⟩
    · rintro ⟨rfl, -⟩
      rfl
  | cons cs rest ih =>
    unfold checkCosigs
    have hsplit : (∀ j cs', (cs :: rest)[j]? = some cs' → ∃ k, f cs'.origin = some k ∧
        a.verifyCosig (i + j) k = true) ↔
        (∃ k, f cs.origin = some k ∧ a.verifyCosig i k = true) ∧
          ∀ j cs', rest[j]? = some cs' → ∃ k, f cs'.origin = some k ∧
            a.verifyCosig (i + 1 + j) k = true := by
      constructor
      · intro h
        refine ⟨h 0 cs rfl, fun j cs' hj => ?_⟩
        rw [Nat.add_right_comm, Nat.add_assoc]
        exact h (j + 1) cs' hj
      · rintro ⟨hfirst, hrest⟩ j cs' hj
        cases j with
        | zero =>
          obtain rfl := Option.some.inj hj
          exact hfirst
        | succ j =>
          have hnext := hrest j cs' hj
          rwa [Nat.add_right_comm, Nat.add_assoc] at hnext
    rw [hsplit]
    cases hkey : f cs.origin with
    | none => simp
    | some k =>
      dsimp only
      by_cases hverify : a.verifyCosig i k = true
      · rw [if_pos hverify, ih]
        simp [hverify]
      · rw [if_neg hverify]
        simp [hverify]

theorem checkSigs_eq_ok_iff : checkSigs (keyOf s) a = .ok b ↔ b = a ∧ Checked s a := by
  have hchecked : Checked s a ↔ (∃ k, keyOf s a.origin = some k ∧ a.verify k = true) ∧
      ∀ i cs, a.cosig[i]? = some cs → ∃ k, keyOf s cs.origin = some k ∧
        a.verifyCosig i k = true := ⟨fun h => ⟨h.1, h.2⟩, fun h => ⟨h.1, h.2⟩⟩
  unfold checkSigs
  rw [hchecked]
  cases hkey : keyOf s a.origin with
  | none => simp
  | some k =>
    dsimp only
    by_cases hverify : a.verify k = true
    · rw [if_pos hverify, checkCosigs_eq_ok_iff]
      simp [hverify]
    · rw [if_neg hverify]
      simp [hverify]

/-- The text of the base64 in a token, with white space around both. -/
structure TokenOf (token : String) (raw : List UInt8) : Prop where
  body : ∃ body, Update.trim token.toList = tokenPrefix ++ body ∧
    Update.trim body = Base64.encode raw

theorem base64Decode_eq_ok_iff {l : List Char} {raw : List UInt8} :
    base64Decode c l = .ok raw ↔ Update.trim l = Base64.encode raw := by
  unfold base64Decode
  rw [← Base64.decode_eq_some_iff]
  cases Base64.decode (Update.trim l) with
  | none => simp
  | some r => simp

theorem parse_eq_ok_iff :
    parse c token = .ok a ↔ ∃ raw, TokenOf token raw ∧ c.read raw = .ok a := by
  constructor
  · intro h
    unfold parse at h
    split at h
    · cases h
    · next body hbody =>
      split at h
      · cases h
      · next raw hraw =>
        split at h
        · cases h
        · next a' hread =>
          obtain rfl := Except.ok.inj h
          obtain ⟨p, hp, heq⟩ := List.dropPrefix?_eq_some_iff.mp hbody
          rw [beq_iff_eq.mp heq] at hp
          exact ⟨raw, ⟨body, hp, base64Decode_eq_ok_iff.mp hraw⟩, hread⟩
  · rintro ⟨raw, ⟨body, hbody, htrim⟩, hread⟩
    have hdrop : (Update.trim token.toList).dropPrefix? tokenPrefix = some body :=
      List.dropPrefix?_eq_some_iff.mpr ⟨tokenPrefix, hbody, beq_self_eq_true _⟩
    unfold parse
    rw [hdrop]
    dsimp only
    rw [(base64Decode_eq_ok_iff (c := c)).mpr htrim]
    dsimp only
    rw [hread]

/-- The node reads this action in the token: the token is, but for white space, the one text of the
    action, which carries a signature of its proposer and of every co-signer, each of which verifies
    under the key that the node has pinned for him. -/
structure Reads (c : Codec) (s : Inner) (token : String) (a : Action) : Prop where
  text : ∃ raw, TokenOf token raw ∧ c.read raw = .ok a
  checked : Checked s a

theorem decode_eq_ok_iff : decode c (keyOf s) token = .ok a ↔ Reads c s token a := by
  have hreads : Reads c s token a ↔ parse c token = .ok a ∧ Checked s a := by
    rw [parse_eq_ok_iff]
    exact ⟨fun h => ⟨h.1, h.2⟩, fun h => ⟨h.1, h.2⟩⟩
  rw [hreads]
  unfold decode
  cases hparse : parse c token with
  | error e => simp
  | ok a' =>
    dsimp only
    rw [checkSigs_eq_ok_iff]
    constructor
    · rintro ⟨rfl, hchecked⟩
      exact ⟨rfl, hchecked⟩
    · rintro ⟨heq, hchecked⟩
      obtain rfl := Except.ok.inj heq
      exact ⟨rfl, hchecked⟩

theorem coSign_eq_ok_iff {t : String} : coSign c s token = .ok t ↔
    ∃ a, Reads c s token a ∧ s.origin ∉ a.signers ∧
      t = encode c (addCosig a s.origin s.key).1 := by
  constructor
  · intro h
    unfold coSign at h
    cases hdecode : decode c (keyOf s) token with
    | error e =>
      rw [hdecode] at h
      cases h
    | ok a =>
      rw [hdecode] at h
      dsimp only at h
      refine ⟨a, decode_eq_ok_iff.mp hdecode, fun hmem => ?_, ?_⟩
      · obtain ⟨problem, hadd⟩ := addCosig_of_mem hmem s.key
        rw [hadd] at h
        cases h
      · cases hadd : (addCosig a s.origin s.key).2 with
        | error e =>
          rw [hadd] at h
          cases h
        | ok u =>
          rw [hadd] at h
          exact (Except.ok.inj h).symm
  · rintro ⟨a, hreads, hnew, rfl⟩
    unfold coSign
    rw [decode_eq_ok_iff.mpr hreads]
    dsimp only
    rw [addCosig_of_not_mem hnew]
    rfl

theorem submit_of_reads (h : Reads c s token a) (io : Io) : submit c s io token =
    ((Store.applySignedAction s io a).1,
      (Store.applySignedAction s io a).2.map fun _ => "applied co-signed " ++ a.kind) := by
  unfold submit
  rw [decode_eq_ok_iff.mpr h]

/-- **What a node takes up**, of all the texts that somebody may show it.  It co-signs exactly the
    actions it reads and has not signed; and a submission does nothing, or applies the action that
    is read. -/
theorem accepted_tokens_are_signed (c : Codec) (s : Inner) (token : String) :
    (∀ t, coSign c s token = .ok t ↔ ∃ a, Reads c s token a ∧ s.origin ∉ a.signers ∧
      t = encode c (addCosig a s.origin s.key).1) ∧
    ∀ io, (∃ a, Reads c s token a ∧
        (submit c s io token).1 = (Store.applySignedAction s io a).1) ∨
      ((∀ a, ¬ Reads c s token a) ∧ ∃ e, submit c s io token = (s, .error e)) := by
  refine ⟨fun t => coSign_eq_ok_iff, fun io => ?_⟩
  cases hdecode : decode c (keyOf s) token with
  | ok a =>
    have hreads := decode_eq_ok_iff.mp hdecode
    exact Or.inl ⟨a, hreads, congrArg Prod.fst (submit_of_reads hreads io)⟩
  | error e =>
    refine Or.inr ⟨fun a hreads => ?_, e, ?_⟩
    · rw [decode_eq_ok_iff.mpr hreads] at hdecode
      cases hdecode
    · unfold submit
      rw [hdecode]

/-! ## A token is read as it was written -/

theorem trim_of_plain {l : List Char} (h : ∀ x ∈ l, Update.isWhiteSpace x = false) :
    Update.trim l = l := by
  have hdrop : ∀ l : List Char, (∀ x ∈ l, Update.isWhiteSpace x = false) →
      l.dropWhile Update.isWhiteSpace = l := by
    intro l hl
    cases l with
    | nil => rfl
    | cons x l =>
      rw [List.dropWhile_cons_of_neg (by rw [hl x List.mem_cons_self]; exact Bool.false_ne_true)]
  unfold Update.trim
  rw [hdrop l h, hdrop l.reverse fun x hx => h x (List.mem_reverse.mp hx), List.reverse_reverse]

theorem plain_of_all (l : List Char) (h : (l.all fun x => !Update.isWhiteSpace x) = true) :
    ∀ x ∈ l, Update.isWhiteSpace x = false := by
  intro x hx
  simpa using List.all_eq_true.mp h x hx

theorem plain_base64 (raw : List UInt8) :
    ∀ x ∈ Base64.encode raw, Update.isWhiteSpace x = false := by
  have hall := plain_of_all ('=' :: Base64.alphabet) (by decide +kernel)
  exact fun x hx => hall x (Base64.mem_encode hx)

theorem tokenOf_encode (c : Codec) (a : Action) : TokenOf (encode c a) (c.write a) := by
  have hprefix := plain_of_all tokenPrefix (by decide +kernel)
  refine ⟨Base64.encode (c.write a), ?_, trim_of_plain (plain_base64 _)⟩
  unfold encode
  rw [String.toList_ofList]
  refine trim_of_plain fun x hx => ?_
  rcases List.mem_append.mp hx with hx | hx
  · exact hprefix x hx
  · exact plain_base64 _ x hx

/-- A token stands for one list of bytes. -/
theorem TokenOf.unique {raw raw' : List UInt8} (h : TokenOf token raw) (h' : TokenOf token raw') :
    raw = raw' := by
  obtain ⟨body, hbody, htrim⟩ := h
  obtain ⟨body', hbody', htrim'⟩ := h'
  rw [hbody] at hbody'
  obtain rfl := List.append_cancel_left hbody'
  rw [htrim] at htrim'
  have hsome := congrArg Base64.decode htrim'
  rw [Base64.decode_encode, Base64.decode_encode] at hsome
  exact Option.some.inj hsome

theorem reads_encode_iff (hround : c.read (c.write a) = .ok a) :
    Reads c s (encode c a) b ↔ b = a ∧ Checked s a := by
  constructor
  · rintro ⟨⟨raw, htoken, hread⟩, hchecked⟩
    rw [htoken.unique (tokenOf_encode c a), hround] at hread
    obtain rfl := Except.ok.inj hread
    exact ⟨rfl, hchecked⟩
  · rintro ⟨rfl, hchecked⟩
    exact ⟨⟨_, tokenOf_encode c b, hround⟩, hchecked⟩

/-! ## A chain of members -/

/-- The action with the co-signatures of these members. -/
def cosignedBy (a : Action) (nodes : List Inner) : Action :=
  { a with cosig := a.cosig ++
      nodes.map fun s => ⟨s.origin, Primitives.sign s.key a.messageBytes⟩ }

/-- The store has a key for each of these. -/
def Knows (s : Inner) (nodes : List Inner) : Prop :=
  ∀ t ∈ nodes, s.knownKeys[t.origin]?.isSome = true

/-- Whatever key the store has for one of these is his. -/
def Trusts (s : Inner) (nodes : List Inner) : Prop :=
  ∀ t ∈ nodes, ∀ k, s.knownKeys[t.origin]? = some k → k = Primitives.verifyingKey t.key

/-- A member of the chain can check what comes to him, and is new. -/
def Joins (p : Inner) (past : List Inner) (s : Inner) : Prop :=
  Knows s (p :: past) ∧ s.origin ∉ (p :: past).map Inner.origin

/-- A proposal of `p`, as it was built. -/
structure ProposedBy (p : Inner) (a : Action) : Prop where
  authors : p.Authors
  origin : a.origin = p.origin
  cosig : a.cosig = []
  sig : a.sig = Primitives.sign p.key a.messageBytes

variable {p : Inner} {past nodes : List Inner}

theorem signers_cosignedBy (ha : ProposedBy p a) (nodes : List Inner) :
    (cosignedBy a nodes).signers = ((p :: nodes).map Inner.origin).toFinset := by
  unfold Action.signers cosignedBy
  rw [ha.origin, ha.cosig, List.nil_append, List.map_map]
  rfl

theorem keyOf_of_trusts {t : Inner} (ht : t.Authors) (htrusts : Trusts s nodes) (hmem : t ∈ nodes) :
    (∃ k, keyOf s t.origin = some k) ↔ s.knownKeys[t.origin]?.isSome = true := by
  unfold keyOf
  cases hkey : s.knownKeys[t.origin]? with
  | none => simp
  | some k =>
    rw [htrusts t hmem k hkey, Option.filter_some, ht.keyOk]
    simp

theorem eq_of_keyOf {t : Inner} {k : PublicKey} (htrusts : Trusts s nodes) (hmem : t ∈ nodes)
    (h : keyOf s t.origin = some k) : k = Primitives.verifyingKey t.key :=
  htrusts t hmem k (Option.eq_some_of_filter_eq_some h)

/-- **A node can check a proposal** when it knows everybody who has signed it. -/
theorem checked_cosignedBy_iff (ha : ProposedBy p a) (hnodes : ∀ t ∈ nodes, t.Authors)
    (htrusts : Trusts s (p :: nodes)) :
    Checked s (cosignedBy a nodes) ↔ Knows s (p :: nodes) := by
  have hbytes : (cosignedBy a nodes).messageBytes = a.messageBytes := rfl
  have hauthors : ∀ t ∈ p :: nodes, t.Authors := by
    intro t ht
    rcases List.mem_cons.mp ht with rfl | ht
    · exact ha.authors
    · exact hnodes t ht
  constructor
  · intro h t ht
    refine (keyOf_of_trusts (hauthors t ht) htrusts ht).mp ?_
    rcases List.mem_cons.mp ht with rfl | hmem
    · obtain ⟨k, hk, -⟩ := h.origin
      exact ⟨k, ha.origin ▸ hk⟩
    · obtain ⟨i, hi⟩ := List.mem_iff_getElem?.mp hmem
      have hcosig : (cosignedBy a nodes).cosig[i]? =
          some ⟨t.origin, Primitives.sign t.key a.messageBytes⟩ := by
        unfold cosignedBy
        rw [ha.cosig, List.nil_append, List.getElem?_map, hi]
        rfl
      obtain ⟨k, hk, -⟩ := h.cosigs i _ hcosig
      exact ⟨k, hk⟩
  · intro hknows
    refine ⟨?_, fun i cs hi => ?_⟩
    · obtain ⟨k, hk⟩ := (keyOf_of_trusts ha.authors htrusts List.mem_cons_self).mpr
        (hknows p List.mem_cons_self)
      refine ⟨k, ha.origin.symm ▸ hk, ?_⟩
      unfold Action.verify
      rw [hbytes, eq_of_keyOf htrusts List.mem_cons_self hk]
      show Primitives.verifyStrict _ _ a.sig = true
      rw [ha.sig]
      exact ha.authors.verifies _
    · have hcosig := hi
      unfold cosignedBy at hcosig
      rw [ha.cosig, List.nil_append, List.getElem?_map] at hcosig
      obtain ⟨t, ht, rfl⟩ := Option.map_eq_some_iff.mp hcosig
      have hmem := List.mem_cons_of_mem p (List.mem_of_getElem? ht)
      obtain ⟨k, hk⟩ := (keyOf_of_trusts (hauthors t hmem) htrusts hmem).mpr (hknows t hmem)
      refine ⟨k, hk, ?_⟩
      unfold Action.verifyCosig
      rw [hi, hbytes, eq_of_keyOf htrusts hmem hk]
      exact (hauthors t hmem).verifies _

/-- The text of a proposal is read back, after each of these members. -/
def RoundTrips (c : Codec) (a : Action) (nodes : List Inner) : Prop :=
  ∀ past rest, nodes = past ++ rest →
    c.read (c.write (cosignedBy a past)) = .ok (cosignedBy a past)

/-- **One member.** -/
theorem coSign_cosignedBy_iff
    (hround : c.read (c.write (cosignedBy a past)) = .ok (cosignedBy a past)) (ha : ProposedBy p a)
    (hpast : ∀ t ∈ past, t.Authors) (htrusts : Trusts s (p :: past)) {t : String} :
    coSign c s (encode c (cosignedBy a past)) = .ok t ↔
      Joins p past s ∧ t = encode c (cosignedBy a (past ++ [s])) := by
  have hnext : s.origin ∉ (cosignedBy a past).signers →
      (addCosig (cosignedBy a past) s.origin s.key).1 = cosignedBy a (past ++ [s]) := by
    intro hnew
    rw [addCosig_of_not_mem hnew]
    have hbytes : (cosignedBy a past).messageBytes = a.messageBytes := rfl
    rw [hbytes]
    unfold cosignedBy
    rw [List.map_append, ← List.append_assoc]
    rfl
  rw [coSign_eq_ok_iff]
  constructor
  · rintro ⟨b, hreads, hnew, rfl⟩
    obtain ⟨rfl, hchecked⟩ := (reads_encode_iff hround).mp hreads
    refine ⟨⟨(checked_cosignedBy_iff ha hpast htrusts).mp hchecked, ?_⟩, ?_⟩
    · rw [signers_cosignedBy ha, List.mem_toFinset] at hnew
      exact hnew
    · rw [hnext hnew]
  · rintro ⟨⟨hknows, hnew⟩, rfl⟩
    have hnew' : s.origin ∉ (cosignedBy a past).signers := by
      rw [signers_cosignedBy ha, List.mem_toFinset]
      exact hnew
    refine ⟨cosignedBy a past, (reads_encode_iff hround).mpr ⟨rfl, ?_⟩, hnew', ?_⟩
    · exact (checked_cosignedBy_iff ha hpast htrusts).mpr hknows
    · rw [hnext hnew']

/-- **The chain**, by induction on the members to come. -/
theorem gather_eq_ok_iff (hround : ∀ front rest, nodes = front ++ rest →
      c.read (c.write (cosignedBy a (past ++ front))) = .ok (cosignedBy a (past ++ front)))
    (ha : ProposedBy p a) (hpast : ∀ t ∈ past, t.Authors) (hnodes : ∀ t ∈ nodes, t.Authors)
    (htrusts : ∀ s ∈ nodes, Trusts s (p :: past ++ nodes)) {t : String} :
    gather c (encode c (cosignedBy a past)) nodes = .ok t ↔
      (∀ front s rest, nodes = front ++ s :: rest → Joins p (past ++ front) s) ∧
        t = encode c (cosignedBy a (past ++ nodes)) := by
  induction nodes generalizing past with
  | nil =>
    rw [List.append_nil]
    constructor
    · intro h
      exact ⟨forall_cuts_nil, (Except.ok.inj h).symm⟩
    · rintro ⟨-, rfl⟩
      rfl
  | cons s rest ih =>
    have hs : Trusts s (p :: past) := fun t ht =>
      htrusts s List.mem_cons_self t (List.mem_append_left _ ht)
    have hfirst : c.read (c.write (cosignedBy a past)) = .ok (cosignedBy a past) := by
      have h := hround [] (s :: rest) rfl
      rwa [List.append_nil] at h
    have hpast' : ∀ t ∈ past ++ [s], t.Authors := by
      intro t ht
      rcases List.mem_append.mp ht with ht | ht
      · exact hpast t ht
      · rw [List.mem_singleton.mp ht]
        exact hnodes s List.mem_cons_self
    have hrest := @ih (past ++ [s])
      (fun front later heq => by
        have h := hround (s :: front) later (by rw [heq]; rfl)
        rwa [List.append_assoc]) hpast'
      (fun t ht => hnodes t (List.mem_cons_of_mem _ ht))
      (fun t ht => by
        have htrust := htrusts t (List.mem_cons_of_mem _ ht)
        rwa [List.cons_append, List.append_assoc] at *)
    rw [List.append_assoc] at hrest
    rw [forall_cuts_cons, List.append_nil]
    unfold gather
    cases hsign : coSign c s (encode c (cosignedBy a past)) with
    | error e =>
      refine iff_of_false (fun h => nomatch h) fun h => ?_
      rw [(coSign_cosignedBy_iff hfirst ha hpast hs).mpr ⟨h.1.1, rfl⟩] at hsign
      cases hsign
    | ok t' =>
      obtain ⟨hjoins, rfl⟩ := (coSign_cosignedBy_iff hfirst ha hpast hs).mp hsign
      dsimp only
      rw [hrest]
      simp [hjoins]

/-- What `propose` passes on. -/
theorem propose_eq_ok_iff {now : U64} {name kind : String} {model : ModelRef} {payload : Value} :
    (propose c p now name model kind payload).2 = .ok token ↔
      ∃ a, (Store.buildLocalAction p now name model kind payload).2 = .ok a ∧
        token = encode c a := by
  unfold propose
  dsimp only
  cases (Store.buildLocalAction p now name model kind payload).2 with
  | error e => simp [Except.map]
  | ok a => simp [Except.map, eq_comm]

theorem proposedBy_of_build (hp : p.Authors) {now : U64} {name kind : String} {model : ModelRef}
    {payload : Value} (h : (Store.buildLocalAction p now name model kind payload).2 = .ok a) :
    ProposedBy p a := by
  unfold Store.buildLocalAction at h
  split at h
  · cases h
  · next id hid =>
    unfold Inner.buildAction at h
    dsimp only at h
    split at h
    · cases h
    · obtain rfl := Except.ok.inj h
      exact ⟨hp, rfl, rfl, rfl⟩

theorem kind_of_build {now : U64} {name kind : String} {model : ModelRef} {payload : Value}
    (h : (Store.buildLocalAction p now name model kind payload).2 = .ok a) : a.kind = kind := by
  unfold Store.buildLocalAction at h
  split at h
  · cases h
  · unfold Inner.buildAction at h
    dsimp only at h
    split at h
    · cases h
    · obtain rfl := Except.ok.inj h
      rfl

/-- Members who join one after the other are different, and none is the proposer. -/
theorem nodup_of_joins (h : ∀ front s rest, nodes = front ++ s :: rest → Joins p front s) :
    ((p :: nodes).map Inner.origin).Nodup := by
  induction nodes using List.reverseRecOn with
  | nil => exact List.nodup_singleton _
  | append_singleton front s ih =>
    have hfront := ih fun front' t rest heq =>
      h front' t (rest ++ [s]) (by rw [heq, List.append_assoc]; rfl)
    have hnew := (h front s [] rfl).2
    rw [← List.cons_append, List.map_append, List.nodup_append]
    refine ⟨hfront, List.nodup_singleton _, fun o ho o' ho' heq => ?_⟩
    rw [List.map_singleton, List.mem_singleton] at ho'
    exact hnew (ho' ▸ heq ▸ ho)

theorem length_filter_mem {l : List Origin} (h : l.Nodup) (members : List String) :
    (l.filter fun o => decide (o ∈ members)).length =
      (l.toFinset ∩ members.toFinset).card := by
  rw [← List.toFinset_card_of_nodup (h.filter _)]
  congr 1
  ext o
  simp

/-- **Proposals are gathered.**  `p` has proposed an action, and the token goes from member to
    member; nobody has a wrong key of another.  It comes to its end exactly when each member knows
    the keys of all before him and is none of them.  Then every node that knows them all reads the
    action with all the co-signatures, submits exactly that, and counts each member once. -/
theorem proposals_are_gathered {c : Codec} {p : Inner} (hp : p.Authors) {now : U64}
    {name kind : String} {model : ModelRef} {payload : Value} {token : String}
    (hpropose : (propose c p now name model kind payload).2 = .ok token) {nodes : List Inner}
    (hnodes : ∀ s ∈ nodes, s.Authors) (htrusts : ∀ s ∈ nodes, Trusts s (p :: nodes))
    (hround : ∀ a, (Store.buildLocalAction p now name model kind payload).2 = .ok a →
      RoundTrips c a nodes) :
    ∃ a, (Store.buildLocalAction p now name model kind payload).2 = .ok a ∧
      ((∃ t, gather c token nodes = .ok t) ↔
        ∀ front s rest, nodes = front ++ s :: rest → Joins p front s) ∧
      ∀ t, gather c token nodes = .ok t →
        (∀ s, Trusts s (p :: nodes) → Knows s (p :: nodes) →
          Reads c s t (cosignedBy a nodes) ∧ ∀ io, submit c s io t =
            ((Store.applySignedAction s io (cosignedBy a nodes)).1,
              (Store.applySignedAction s io (cosignedBy a nodes)).2.map
                fun _ => "applied co-signed " ++ kind)) ∧
        ∀ members, endorserCount (cosignedBy a nodes) members =
          (((p :: nodes).map Inner.origin).filter fun o => decide (o ∈ members)).length := by
  obtain ⟨a, hbuild, rfl⟩ := propose_eq_ok_iff.mp hpropose
  have ha := proposedBy_of_build hp hbuild
  have hstart : encode c a = encode c (cosignedBy a []) := by
    unfold cosignedBy
    rw [List.map_nil, List.append_nil]
  have hchain : ∀ t, gather c (encode c a) nodes = .ok t ↔
      (∀ front s rest, nodes = front ++ s :: rest → Joins p front s) ∧
        t = encode c (cosignedBy a nodes) := by
    intro t
    rw [hstart]
    exact @gather_eq_ok_iff _ c a p [] nodes (hround a hbuild) ha (fun _ h => nomatch h) hnodes
      htrusts t
  refine ⟨a, hbuild, ?_, fun t ht => ?_⟩
  · constructor
    · rintro ⟨t, ht⟩
      exact ((hchain t).mp ht).1
    · exact fun h => ⟨_, (hchain _).mpr ⟨h, rfl⟩⟩
  · obtain ⟨hjoins, rfl⟩ := (hchain t).mp ht
    refine ⟨fun s hs hknows => ?_, fun members => ?_⟩
    · have hreads : Reads c s (encode c (cosignedBy a nodes)) (cosignedBy a nodes) :=
        (reads_encode_iff (hround a hbuild nodes [] (List.append_nil _).symm)).mpr
          ⟨rfl, (checked_cosignedBy_iff ha hnodes hs).mpr hknows⟩
      refine ⟨hreads, fun io => ?_⟩
      have hkind : a.kind = kind := kind_of_build hbuild
      rw [← hkind]
      exact submit_of_reads hreads io
    · rw [endorserCount_eq, signers_cosignedBy ha]
      exact (length_filter_mem (nodup_of_joins hjoins) members).symm

end

/-! ### A proposal with two signatures -/

section

attribute [local instance] Sample.primitives

open Sample

def bothKeys : Std.ExtTreeMap Origin PublicKey :=
  ((∅ : Std.ExtTreeMap Origin PublicKey).insert alice.name alice.key).insert bob.name bob.key

/-- Alice has a document, and both know each other. -/
def aliceDesk : Inner :=
  { Store.fresh alice.key alice.name [] with
    entries := (∅ : Std.ExtTreeMap DocId Entry).insert 1 (Entry.new 1)
    names := (∅ : Std.ExtTreeMap String DocId).insert "notes" 1
    knownKeys := bothKeys }

def bobDesk : Inner := { Store.fresh bob.key bob.name [] with knownKeys := bothKeys }

def planPayload : Value := .object [("field", .string "title"), ("value", .string "Plan")]

/-- What alice proposes. -/
def planProposal : Action :=
  Action.sign {
    docId := 1
    model := openRef
    kind := "set"
    payload := planPayload
    ts := 11
    clock := clockOf [("alice", 1)]
    origin := "alice"
    cosig := []
    prevHash := none
    space := none
    sig := 0 } alice.key

def hexText (width n : ℕ) : Value :=
  let digits := Nat.toDigits 16 n
  .string (String.ofList (List.replicate (width - digits.length) '0' ++ digits))

def cosigValue (cs : CoSig) : Value :=
  .object [("origin", .string cs.origin), ("sig", hexText 128 cs.sig.val)]

/-- The JSON of an action without a previous hash and a space. -/
def actionText (a : Action) : String :=
  jsonText (.object [
    ("doc_id", .string "00000000-0000-0000-0000-000000000001"),
    ("model", .object [("name", .string a.model.name), ("version", .string a.model.version),
      ("hash", .null)]),
    ("kind", .string a.kind),
    ("payload", a.payload),
    ("ts", .number (.posInt a.ts)),
    ("clock", .object [("alice", .number (.posInt (a.clock.get "alice")))]),
    ("origin", .string a.origin),
    ("cosig", .array (a.cosig.map cosigValue)),
    ("prev_hash", .null),
    ("sig", hexText 128 a.sig.val)])

/-- Of the texts that occur below, only those of the proposal are actions. -/
def planCodec : Codec where
  write a := strBytes (actionText a)
  read raw :=
    if raw = strBytes (actionText (cosignedBy planProposal [])) then
      .ok (cosignedBy planProposal [])
    else if raw = strBytes (actionText (cosignedBy planProposal [bobDesk])) then
      .ok (cosignedBy planProposal [bobDesk])
    else .error "expected value at line 1 column 1"
  badBase64 _ := "Invalid padding"

theorem planProposal_built :
    (Store.buildLocalAction aliceDesk 10 "notes" openRef "set" planPayload).2 =
      .ok planProposal := by decide +kernel

theorem planProposal_roundTrips : RoundTrips planCodec planProposal [bobDesk] := by
  intro past rest h
  cases past with
  | nil => exact if_pos rfl
  | cons s past =>
    obtain ⟨rfl, hrest⟩ := List.cons.inj h
    obtain ⟨rfl, -⟩ := List.append_eq_nil_iff.mp hrest.symm
    have hne : strBytes (actionText (cosignedBy planProposal [bobDesk])) ≠
        strBytes (actionText (cosignedBy planProposal [])) := by decide +kernel
    exact (if_neg hne).trans (if_pos rfl)

theorem desks_author : aliceDesk.Authors ∧ bobDesk.Authors :=
  ⟨⟨by decide +kernel, rfl, fun _ => beq_self_eq_true _⟩,
    ⟨by decide +kernel, rfl, fun _ => beq_self_eq_true _⟩⟩

theorem bobDesk_trusts : Trusts bobDesk [aliceDesk, bobDesk] := by
  intro t ht k hk
  have halice : bobDesk.knownKeys[aliceDesk.origin]? =
      some (Primitives.verifyingKey aliceDesk.key) := by decide +kernel
  rcases List.mem_cons.mp ht with rfl | ht
  · exact Option.some.inj (hk.symm.trans halice)
  · rw [List.mem_singleton.mp ht] at hk ⊢
    exact Option.some.inj (hk.symm.trans desks_author.2.pinned)

theorem proposals_are_gathered_plan :
    ∃ a, (Store.buildLocalAction aliceDesk 10 "notes" openRef "set" planPayload).2 = .ok a ∧
      ((∃ t, gather planCodec (encode planCodec planProposal) [bobDesk] = .ok t) ↔
        ∀ front s rest, [bobDesk] = front ++ s :: rest → Joins aliceDesk front s) ∧
      ∀ t, gather planCodec (encode planCodec planProposal) [bobDesk] = .ok t →
        (∀ s, Trusts s [aliceDesk, bobDesk] → Knows s [aliceDesk, bobDesk] →
          Reads planCodec s t (cosignedBy a [bobDesk]) ∧ ∀ io, submit planCodec s io t =
            ((Store.applySignedAction s io (cosignedBy a [bobDesk])).1,
              (Store.applySignedAction s io (cosignedBy a [bobDesk])).2.map
                fun _ => "applied co-signed " ++ "set")) ∧
        ∀ members, endorserCount (cosignedBy a [bobDesk]) members =
          (([aliceDesk, bobDesk].map Inner.origin).filter fun o =>
            decide (o ∈ members)).length := by
  refine proposals_are_gathered (c := planCodec) desks_author.1
    (propose_eq_ok_iff.mpr ⟨planProposal, planProposal_built, rfl⟩) ?_ ?_ ?_
  · intro s hs
    rw [List.mem_singleton.mp hs]
    exact desks_author.2
  · intro s hs
    rw [List.mem_singleton.mp hs]
    exact bobDesk_trusts
  · intro a ha
    rw [planProposal_built] at ha
    obtain rfl := Except.ok.inj ha
    exact planProposal_roundTrips

end

end PhReactor.Tokens
