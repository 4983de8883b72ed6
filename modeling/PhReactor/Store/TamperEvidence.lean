/-
  The audit is evidence against tampering.

  Of a log without a snapshot, WHATEVER log it is, that `Store::verify` reports ok:

  1. every signature and co-signature verifies under the known keys, every `prev_hash` names a
     STRICTLY EARLIER action and only the first action has none, and the stored document is the
     fold of the log (`Audited`);

  2. none of three tamperings leaves a log that is reported ok as well (`Tampered`): taking out
     every copy of an action that another one names, moving an action before what it names, and
     changing a signed field without having the result signed.  A COPY of an action agrees with it
     in every signed field; its signatures may differ.

  What is assumed of the primitives is stated for the actions at hand (`Ideal`): their messages do
  not collide under SHA-256, a signature that verifies was made by the holder of the key, and JSON
  text tells payloads apart.

  The message has to tell the signed fields apart, which it does below `2 ^ 32` bytes
  (`Encoding.lean`); beyond that an action can be exchanged for another one under the same signature
  (`one_signature_two_models`).
-/
import PhReactor.Encoding
import PhReactor.Store.NameIndex
import PhReactor.Store.Verify
import PhReactor.Store.Writes

set_option linter.unusedSectionVars false

namespace PhReactor

instance sameSignedDecidable (a b : Action) : Decidable (a.SameSigned b) :=
  inferInstanceAs (Decidable ({ a with sig := b.sig, cosig := b.cosig } = b))

section

variable [Primitives]

/-! ## What a good report says -/

/-- The log of an entry is signed, chained, and folds to its document. -/
structure Inner.Audited (s : Inner) (id : DocId) (e : Entry) : Prop where
  signed : ∀ a ∈ e.log, s.Vouches a.origin a.verify ∧
    ∀ p ∈ a.cosig.zipIdx, s.Vouches p.1.origin (a.verifyCosig p.2)
  chained : ∀ pre a post, e.log = pre ++ a :: post →
    (∀ h, a.prevHash = some h → ∃ b ∈ pre, b.hash = h) ∧ (a.prevHash = none → pre = [])
  folded : (e.log.foldl (refoldScratch s.models) (Entry.new id)).doc.beq e.doc = true

/-- **A good report**, without a snapshot. -/
theorem audited_of_verifies {s : Inner} {name : String} {id : DocId} {e : Entry}
    (hname : s.names[name]? = some id) (he : s.entries[id]? = some e)
    (hsnap : s.disk.snap[id]? = none) (hok : Store.verifies s name = true) :
    s.Audited id e := by
  obtain ⟨id', e', hname', he', hclean, hdoc⟩ := verifies_iff.mp hok
  obtain rfl := Option.some.inj (hname.symm.trans hname')
  obtain rfl := Option.some.inj (he.symm.trans he')
  have hseen : ∀ pre, s.seenAt id pre = pre.map Action.hash := by
    intro pre
    unfold Inner.seenAt
    rw [hsnap]
    rfl
  have hbase : s.baseEntry id = Entry.new id := by
    unfold Inner.baseEntry
    rw [hsnap]
    rfl
  refine ⟨fun a ha => ?_, fun pre a post hsplit => ?_, ?_⟩
  · obtain ⟨pre, post, hsplit⟩ := List.append_of_mem ha
    obtain ⟨-, horigin, hcosig, -⟩ := actionProblems_eq_nil.mp (hclean pre a post hsplit)
    exact ⟨horigin, hcosig⟩
  · obtain ⟨hchain, -⟩ := actionProblems_eq_nil.mp (hclean pre a post hsplit)
    unfold Chained at hchain
    rw [hseen] at hchain
    constructor
    · intro h hprev
      rw [hprev] at hchain
      exact List.mem_map.mp hchain
    · intro hprev
      rw [hprev] at hchain
      exact List.map_eq_nil_iff.mp hchain
  · rw [← hbase]
    exact hdoc

/-! ## Tampering -/

/-- The ways to tamper with a log; `fresh` are the actions that somebody has really signed. -/
inductive Tampered (fresh : Action → Prop) (log : List Action) : List Action → Prop
  /-- Every copy of `x` is taken out, although `y` stays and names it. -/
  | removed {x y : Action} (hx : x ∈ log) (hy : y ∈ log) (hstays : ¬ x.SameSigned y)
    (hprev : y.prevHash = some x.hash) :
    Tampered fresh log (log.filter fun b => !decide (x.SameSigned b))
  /-- `a` is moved to where no copy of the action it names stands before it. -/
  | moved {l₁ l₂ m₁ m₂ : List Action} {a x : Action} (hlog : log = l₁ ++ a :: l₂)
    (hrest : l₁ ++ l₂ = m₁ ++ m₂) (hx : x ∈ log) (hprev : a.prevHash = some x.hash)
    (hbefore : ∀ b ∈ m₁, ¬ x.SameSigned b) : Tampered fresh log (m₁ ++ a :: m₂)
  /-- A signed field of `a` is changed, and nobody has signed the result. -/
  | changed {l₁ l₂ : List Action} {a a' : Action} (hlog : log = l₁ ++ a :: l₂)
    (hdiff : ¬ a.SameSigned a') (hstale : ¬ fresh a') : Tampered fresh log (l₁ ++ a' :: l₂)

variable (issued : PublicKey → Action → Prop)

/-- The holder of the known key of its origin has signed the action. -/
def Inner.Fresh (s : Inner) (a : Action) : Prop :=
  ∃ k c, s.knownKeys[a.origin]? = some k ∧ issued k c ∧ c.SameSigned a

/-- The actions that matter: those of the two logs, and those that were signed. -/
def AtHand (log log' : List Action) : Set Action :=
  {a | a ∈ log ∨ a ∈ log' ∨ ∃ k, issued k a}

/-- What is assumed of SHA-256, ed25519 and the JSON printer, about the actions at hand. -/
structure Ideal (s : Inner) (log log' : List Action) : Prop where
  /-- No two messages collide. -/
  collisionFree : ∀ a ∈ AtHand issued log log', ∀ b ∈ AtHand issued log log',
    a.hash = b.hash → a.messageBytes = b.messageBytes
  /-- A signature of the tampered log that verifies was made by the holder of the key. -/
  unforgeable : ∀ a ∈ log', ∀ k, s.knownKeys[a.origin]? = some k → a.verify k = true →
    ∃ c, issued k c ∧ c.messageBytes = a.messageBytes
  json : JsonFaithful (AtHand issued log log')

variable {issued}

/-- Among short actions the hash tells copies from others. -/
theorem Ideal.copy {s : Inner} {log log' : List Action} (h : Ideal issued s log log')
    (hshort : ∀ a ∈ AtHand issued log log', a.Short) {a b : Action}
    (ha : a ∈ AtHand issued log log') (hb : b ∈ AtHand issued log log')
    (hbytes : a.messageBytes = b.messageBytes) : a.SameSigned b := by
  refine sameSigned_of_messageBytes (hshort a ha) (hshort b hb) ?_ hbytes
  rintro x (rfl | rfl) y (rfl | rfl) hxy
  · rfl
  · exact h.json _ ha _ hb hxy
  · exact h.json _ hb _ ha hxy
  · rfl

/-- **The audit is tamper evident.**  A log without a snapshot that is reported ok is signed,
    chained and folds to the stored document; and if all the actions at hand are short, then no
    tampering with it leaves a log that is reported ok. -/
theorem verify_tamper_evident (issued : PublicKey → Action → Prop) {s : Inner} {name : String}
    {id : DocId} {e : Entry} (hname : s.names[name]? = some id) (he : s.entries[id]? = some e)
    (hsnap : s.disk.snap[id]? = none) (hok : Store.verifies s name = true) :
    s.Audited id e ∧
    ∀ e' : Entry, Ideal issued s e.log e'.log →
      (∀ a ∈ AtHand issued e.log e'.log, a.Short) →
      Tampered (s.Fresh issued) e.log e'.log →
      Store.verifies (s.putEntry id e') name = false := by
  refine ⟨audited_of_verifies hname he hsnap hok, fun e' hideal hshort htamper => ?_⟩
  by_contra hok'
  rw [Bool.not_eq_false] at hok'
  -- the tampered log is audited too
  have haudit : (s.putEntry id e').Audited id e' :=
    audited_of_verifies hname (by simp [Inner.putEntry]) hsnap hok'
  have hinL : ∀ a ∈ e.log, a ∈ AtHand issued e.log e'.log := fun a ha => Or.inl ha
  have hinL' : ∀ a ∈ e'.log, a ∈ AtHand issued e.log e'.log := fun a ha => Or.inr (Or.inl ha)
  -- so whatever names `x` has a copy of it before it
  have hcopy : ∀ x ∈ e.log, ∀ pre y post, e'.log = pre ++ y :: post →
      y.prevHash = some x.hash → ∃ b ∈ pre, x.SameSigned b := by
    intro x hx pre y post hsplit hprev
    obtain ⟨b, hb, hhash⟩ := (haudit.chained pre y post hsplit).1 x.hash hprev
    have hb' : b ∈ e'.log := by
      rw [hsplit]
      exact List.mem_append_left _ hb
    have hbytes := hideal.collisionFree x (hinL x hx) b (hinL' b hb') hhash.symm
    exact ⟨b, hb, hideal.copy hshort (hinL x hx) (hinL' b hb') hbytes⟩
  generalize hlog' : e'.log = log' at htamper
  cases htamper with
  | @removed x y hx hy hstays hprev =>
    have hmem : y ∈ e'.log := by
      rw [hlog']
      exact List.mem_filter.mpr ⟨hy, by simpa using hstays⟩
    obtain ⟨pre, post, hsplit⟩ := List.append_of_mem hmem
    obtain ⟨b, hb, hsame⟩ := hcopy x hx pre y post hsplit hprev
    have hleft : b ∈ e.log.filter fun b => !decide (x.SameSigned b) := by
      rw [← hlog', hsplit]
      exact List.mem_append_left _ hb
    have hno := (List.mem_filter.mp hleft).2
    rw [decide_eq_true hsame] at hno
    cases hno
  | @moved l₁ l₂ m₁ m₂ a x hlog hrest hx hprev hbefore =>
    obtain ⟨b, hb, hsame⟩ := hcopy x hx m₁ a m₂ hlog' hprev
    exact hbefore b hb hsame
  | @changed l₁ l₂ a a' hlog hdiff hstale =>
    have hmem : a' ∈ e'.log := by
      rw [hlog']
      exact List.mem_append_right _ List.mem_cons_self
    obtain ⟨⟨k, hkey, -, hverify⟩, -⟩ := haudit.signed a' hmem
    obtain ⟨c, hc, hbytes⟩ := hideal.unforgeable a' hmem k hkey hverify
    exact hstale ⟨k, c, hkey, hc,
      hideal.copy hshort (Or.inr (Or.inr ⟨k, hc⟩)) (hinL' a' hmem) hbytes⟩

end

section

open Sample

attribute [local instance] Sample.primitives

/-! ### A log with its first action taken out -/

/-- Alice's title, naming the action it follows. -/
def followsNotes : Action :=
  Action.sign { titlesNotes with prevHash := some namesNotes.hash } alice.key

/-- Alice's store with her titled notes. -/
def followedStore : Inner := namedStore.happen (.event (.applyAction Io.ok followsNotes))

/-- Without the action that the title follows, the log is not reported ok. -/
theorem verify_tamper_evident_notes :
    Store.verifies followedStore "notes" = true ∧
      Store.verifies (followedStore.putEntry docId
        { followedStore.entryFor docId with log := [followsNotes] }) "notes" = false := by
  have hfacts : followedStore.names["notes"]? = some docId ∧
      followedStore.entries[docId]?.isSome = true ∧ followedStore.disk.snap[docId]? = none ∧
      Store.verifies followedStore "notes" = true ∧
      (followedStore.entryFor docId).log = [namesNotes, followsNotes] ∧
      followedStore.knownKeys[followsNotes.origin]? = some alice.key := by
    decide +kernel
  obtain ⟨hname, hsome, hsnap, hok, hlog, hkey⟩ := hfacts
  have hdistinct : namesNotes.hash ≠ followsNotes.hash ∧
      Primitives.jsonText namesNotes.payload ≠ Primitives.jsonText followsNotes.payload ∧
      followsNotes.prevHash = some namesNotes.hash ∧ ¬ namesNotes.SameSigned followsNotes ∧
      [namesNotes, followsNotes].filter (fun b => !decide (namesNotes.SameSigned b)) =
        [followsNotes] := by
    decide +kernel
  obtain ⟨hhash, hjson, hprev, hstays, hleft⟩ := hdistinct
  obtain ⟨e, he⟩ := Option.isSome_iff_exists.mp hsome
  rw [entryFor_eq he] at hlog ⊢
  have hhand : ∀ a ∈ AtHand (fun k c => k = alice.key ∧ (c = namesNotes ∨ c = followsNotes))
      [namesNotes, followsNotes] [followsNotes], a = namesNotes ∨ a = followsNotes := by
    rintro a (ha | ha | ⟨k, -, ha⟩)
    · rcases List.mem_cons.mp ha with ha | ha
      · exact Or.inl ha
      · exact Or.inr (List.mem_singleton.mp ha)
    · exact Or.inr (List.mem_singleton.mp ha)
    · exact ha
  refine ⟨hok, (verify_tamper_evident
    (fun k c => k = alice.key ∧ (c = namesNotes ∨ c = followsNotes)) hname he hsnap hok).2 _ ?_ ?_
    ?_⟩
  all_goals dsimp only
  all_goals rw [hlog]
  · refine ⟨fun a ha b hb heq => ?_, fun a ha k hk _ => ?_, fun a ha b hb heq => ?_⟩
    · rcases hhand a ha with rfl | rfl <;> rcases hhand b hb with rfl | rfl
      · rfl
      · exact absurd heq hhash
      · exact absurd heq.symm hhash
      · rfl
    · rw [List.mem_singleton.mp ha] at hk ⊢
      exact ⟨followsNotes, ⟨Option.some.inj (hk.symm.trans hkey), Or.inr rfl⟩, rfl⟩
    · rcases hhand a ha with rfl | rfl <;> rcases hhand b hb with rfl | rfl
      · rfl
      · exact absurd heq hjson
      · exact absurd heq.symm hjson
      · rfl
  · intro a ha
    rcases hhand a ha with rfl | rfl <;> constructor <;> decide +kernel
  · have htamper : Tampered (followedStore.Fresh fun k c =>
        k = alice.key ∧ (c = namesNotes ∨ c = followsNotes)) [namesNotes, followsNotes] _ :=
      Tampered.removed List.mem_cons_self (List.mem_cons_of_mem _ List.mem_cons_self) hstays hprev
    rw [hleft] at htamper
    exact htamper

/-! ### One signature, two models -/

/-- A definition without reducers. -/
def bareModel (name version : String) : L1 where
  ref_ := ⟨name, version, some (L1.modelDefHash (.object [("name", .string name),
    ("version", .string version)]))⟩
  def_ := .object [("name", .string name), ("version", .string version)]
  fields := .null
  reducers := .null
  checks := .null
  auth := .null

/-- Alice's note under a model whose version is `text` and a gap. -/
def longVersion (text : String) : Action :=
  Action.sign {
    docId
    model := ⟨"m", text ++ gap, none⟩
    kind := "note"
    payload := .null
    ts := 10
    clock := clockOf [("alice", 1)]
    origin := alice.name
    cosig := []
    prevHash := none
    space := none
    sig := 0 } alice.key

/-- The same note, with the version moved into the name of the model. -/
def longName (text : String) : Action :=
  { longVersion text with model := ⟨"m" ++ gap ++ text, "", none⟩ }

theorem verifyStrict_tag (k : PublicKey) (bytes : List UInt8) :
    Primitives.verifyStrict k bytes (tag k bytes) = true := by
  generalize h : tag k bytes = t
  show (t == tag k bytes) = true
  rw [h]
  exact beq_self_eq_true t

/-- Peers verify what they sign. -/
theorem verify_sign (p : Peer) (a : Action) : (a.sign p.key).verify p.key = true := by
  unfold Action.verify Action.sign
  dsimp only
  rw [messageBytes_withSig]
  exact verifyStrict_tag p.key a.messageBytes

/-- Both models are loaded. -/
def longModels (text : String) : ModelRegistry :=
  (ModelRegistry.seededWithBuiltins.insert (.l1 (bareModel "m" (text ++ gap)))).insert
    (.l1 (bareModel ("m" ++ gap ++ text) ""))

/-- Alice's store, with a document of that log. -/
def longStore (text : String) (log : List Action) : Inner :=
  Inner.putEntry
    { Store.fresh alice.key alice.name [] with
      names := (∅ : Std.ExtTreeMap String DocId).insert "notes" docId
      models := longModels text } docId { Entry.new docId with log := log }

theorem text_gap_ne (text : String) : text ++ gap ≠ "" := by
  intro h
  have := congrArg String.utf8ByteSize h
  rw [String.utf8ByteSize_append] at this
  exact absurd this (by show text.utf8ByteSize + 5 ≠ 0; omega)

theorem knownKeys_longStore (text : String) (log : List Action) :
    (longStore text log).knownKeys[alice.name]? = some alice.key := by
  show (Store.fresh alice.key alice.name []).knownKeys[alice.name]? = _
  decide +kernel

/-- A note under a model without reducers passes every check, and does nothing. -/
theorem verifies_note {text : String} {a : Action} {m : L1}
    (hprev : a.prevHash = none) (horigin : a.origin = alice.name) (hcosig : a.cosig = [])
    (hsig : a.verify alice.key = true) (hm : (longModels text).find a.model = some (.l1 m))
    (hred : m.reducers = .null) : Store.verifies (longStore text [a]) "notes" = true := by
  have hreducer : m.reducer a.kind = none := by
    unfold L1.reducer
    rw [hred]
    rfl
  have hpre : m.preList a.kind = [] := by
    unfold L1.preList
    rw [hreducer]
    rfl
  refine verifies_iff.mpr ⟨docId, { Entry.new docId with log := [a] }, ?_, ?_, ?_, ?_⟩
  · simp [longStore, Inner.putEntry]
  · simp [longStore, Inner.putEntry]
  · refine Lib.eachAfter_concat.mpr ⟨Lib.eachAfter_nil, actionProblems_eq_nil.mpr ?_⟩
    refine ⟨?_, ⟨alice.key, ?_, rfl, hsig⟩, ?_, .l1 m, hm, ?_, ?_⟩
    · unfold Chained
      rw [hprev]
      rfl
    · rw [horigin]
      exact knownKeys_longStore text [a]
    · rw [hcosig]
      exact fun p hp => absurd hp List.not_mem_nil
    · show m.checkPrecondition _ a = .ok ()
      unfold L1.checkPrecondition
      rw [hpre]
      rfl
    · intro spec hspec
      have hnone : m.quorum a.kind = none := by
        unfold L1.quorum
        rw [hpre]
        rfl
      rw [show (Model.l1 m).quorum a.kind = none from hnone] at hspec
      cases hspec
  · have hfold : (longStore text [a]).scratchAt docId [a] =
        (longStore text [a]).baseEntry docId := by
      show refoldScratch (longStore text [a]).models _ a = _
      unfold refoldScratch
      rw [show (longStore text [a]).models.find a.model = _ from hm]
      exact applyOpsToEntry_of_unknown hreducer _
    rw [hfold]
    exact Doc.beq_refl _

theorem find_longVersion (text : String) : (longModels text).find (longVersion text).model =
    some (.l1 (bareModel "m" (text ++ gap))) := by
  unfold longModels
  rw [ModelRegistry.find_insert, if_neg fun h => text_gap_ne text h.2.symm,
    ModelRegistry.find_insert, if_pos ⟨rfl, rfl⟩]
  exact if_pos (Or.inl rfl)

theorem find_longName (text : String) : (longModels text).find (longName text).model =
    some (.l1 (bareModel ("m" ++ gap ++ text) "")) := by
  unfold longModels
  rw [ModelRegistry.find_insert, if_pos ⟨rfl, rfl⟩]
  exact if_pos (Or.inl rfl)

theorem messageBytes_longName {text : String} (h : text.utf8ByteSize + 5 = 2 ^ 32) :
    (longVersion text).messageBytes = (longName text).messageBytes :=
  messageBytes_shifted (longVersion text) "m" text h

/-- `2 ^ 32 - 5` letters. -/
def longText : String := String.ofList (List.replicate 4294967291 'a')

theorem utf8ByteSize_replicate (n : ℕ) :
    (String.ofList (List.replicate n 'a')).utf8ByteSize = n := by
  induction n with
  | zero => rfl
  | succ n ih =>
    rw [List.replicate_succ', String.ofList_append, String.utf8ByteSize_append, ih]
    rfl

theorem exists_longText : ∃ text : String, text.utf8ByteSize + 5 = 2 ^ 32 := by
  refine ⟨longText, ?_⟩
  rw [show longText.utf8ByteSize = 4294967291 from utf8ByteSize_replicate 4294967291]
  rfl

/-- **One signature, two models.**  The model of a signed action is exchanged, the signature stays,
    and both logs are reported ok. -/
theorem one_signature_two_models :
    ¬ ∀ (issued : PublicKey → Action → Prop) (s : Inner) (name : String) (id : DocId) (e : Entry),
      s.names[name]? = some id → s.entries[id]? = some e → s.disk.snap[id]? = none →
      Store.verifies s name = true →
      s.Audited id e ∧
      ∀ e' : Entry, Ideal issued s e.log e'.log →
        Tampered (s.Fresh issued) e.log e'.log →
        Store.verifies (s.putEntry id e') name = false := by
  intro h
  obtain ⟨text, hsize⟩ := exists_longText
  have hbytes := messageBytes_longName hsize
  have hdiff : ¬ (longVersion text).SameSigned (longName text) := fun hsame =>
    text_gap_ne text (congrArg (fun a : Action => a.model.version) hsame)
  have hsig : (longVersion text).verify alice.key = true := verify_sign alice _
  have hsig' : (longName text).verify alice.key = true := by
    unfold Action.verify at hsig ⊢
    rw [← hbytes]
    exact hsig
  have hok := verifies_note (a := longVersion text) rfl rfl rfl hsig
    (find_longVersion text) rfl
  have hok' := verifies_note (a := longName text) rfl rfl rfl hsig'
    (find_longName text) rfl
  obtain ⟨-, hevident⟩ := h (fun k c => k = alice.key ∧ c = longVersion text)
    (longStore text [longVersion text]) "notes" docId
    { Entry.new docId with log := [longVersion text] } (by simp [longStore, Inner.putEntry])
    (by simp [longStore, Inner.putEntry])
    (congrArg View.snap (Store.fresh_view alice.key alice.name [] docId)) hok
  -- every action at hand has one and the same message and payload
  have hhand : ∀ a ∈ AtHand (fun k c => k = alice.key ∧ c = longVersion text)
      [longVersion text] [longName text],
      a.messageBytes = (longName text).messageBytes ∧ a.payload = .null := by
    rintro a (ha | ha | ⟨k, -, ha⟩)
    · rw [List.mem_singleton.mp ha]
      exact ⟨hbytes, rfl⟩
    · rw [List.mem_singleton.mp ha]
      exact ⟨rfl, rfl⟩
    · rw [ha]
      exact ⟨hbytes, rfl⟩
  have hkeys : (longStore text [longVersion text]).knownKeys[(longName text).origin]? =
      some alice.key := knownKeys_longStore text _
  have hno := hevident { Entry.new docId with log := [longName text] } ⟨?_, ?_, ?_⟩
    (@Tampered.changed _ _ _ [] [] _ _ rfl hdiff ?_)
  · have hput : (longStore text [longVersion text]).putEntry docId
        { Entry.new docId with log := [longName text] } = longStore text [longName text] := by
      unfold longStore Inner.putEntry
      dsimp only
      rw [Lib.insert_insert]
    rw [hput, hok'] at hno
    cases hno
  · intro a ha b hb _
    exact (hhand a ha).1.trans (hhand b hb).1.symm
  · intro a ha k hkey _
    rw [List.mem_singleton.mp ha] at hkey ⊢
    obtain rfl := Option.some.inj (hkeys.symm.trans hkey)
    exact ⟨longVersion text, ⟨rfl, rfl⟩, hbytes⟩
  · intro a ha b hb _
    exact (hhand a ha).2.trans (hhand b hb).2.symm
  · rintro ⟨k, c, -, ⟨-, rfl⟩, hsame⟩
    exact hdiff hsame

end

end PhReactor
