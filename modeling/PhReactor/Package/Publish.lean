/-
  Publishing: how a release or a package leaves the node that made it (`publish` in
  `src/settings/updates.rs` and in `src/settings/packages.rs`).

  Both sign what they publish with the node's own key, verify it once more, and put its JSON into
  the manifest field of a new document.  From there it travels as every document does: as the one
  signed `init` in its log.

  1. The row of a document is read off its `init` (`row_of_init`), on the node that made it
     (`makes_of_created`) and on every node that takes the `init` (`makes_of_accepted`) alike.  The
     item in a group's drive is an action on the group, never on the document (`addToDrive_keeps`).

  2. So a release that was published is a candidate of every node that it reaches, that trusts the
     publisher and that it is an upgrade for; and it is not published twice (`release_is_offered`).

  3. `publish` checks of a package what an install checks, but for what differs from node to node:
     the trusted publishers and the chunks at hand.  A package that was published installs on every
     node with these two (`package_installs`).
-/
import Mathlib.Algebra.Ring.Nat
import PhReactor.ModelRefs
import PhReactor.Package.Uninstall
import PhReactor.Projection
import PhReactor.Reactions
import PhReactor.Store.GroupLog
import PhReactor.Sync.Framing
import PhReactor.Update.Selection

set_option linter.unusedSectionVars false

namespace PhReactor.Publish

open Package

/-! ## What is published -/

/-- A release with all its fields. -/
structure FullRelease extends Update.Release where
  notes : String
  publisherKey : String
  sig : String

/-- Something an app can put in the inbox. -/
structure Attention where
  model : String
  when_ : List (String × Value)
  needs : String
  label : String

/-- A package manifest with all its fields. -/
structure FullManifest where
  name : String
  version : String
  description : String
  category : String
  publisherName : String
  publisherUrl : String
  publisherKey : String
  documentModels : List Value
  processors : List Value
  bundle : Option BlobRef
  capabilities : Capabilities
  projections : List Projection
  attention : List Attention
  nav : List NavItem
  sig : String

/-- Is there nothing but white space in the text. -/
def isBlank (s : String) : Bool := (Update.trim s.toList).isEmpty

/-- `Projection::validate`. -/
def validateProjection (p : Projection) : Except String Unit :=
  match [("from", p.from_), ("on", p.on), ("to", p.to_), ("into", p.into)].find?
      fun q => isBlank q.2 with
  | some (label, _) => .error ("a projection needs '" ++ label ++ "'")
  | none =>
    if p.fields.isEmpty then
      .error ("the projection from " ++ p.from_ ++ " would publish a document with no fields")
    else .ok ()

/-- `Attention::validate`. -/
def Attention.validate (a : Attention) : Except String Unit :=
  if isBlank a.model then .error "an attention rule needs a model"
  else if isBlank a.needs then
    .error ("the attention rule for " ++ a.model ++ " names no field saying who it needs")
  else if isBlank a.label then
    .error ("the attention rule for " ++ a.model ++ " has nothing to say")
  else .ok ()

/-! ### As JSON -/

def texts (l : List String) : Value := .array (l.map .string)

def blobJson (r : BlobRef) : Value :=
  .object [("hash", .string (hashText r.hash)), ("size", .number (.posInt r.size)),
    ("chunks", texts (r.chunks.map hashText))]

def FullRelease.json (r : FullRelease) : Value :=
  .object [("version", .string r.version), ("platform", .string r.platform),
    ("notes", .string r.notes), ("binary", blobJson r.binary),
    ("publisher_key", .string r.publisherKey), ("sig", .string r.sig)]

def projectionJson (p : Projection) : Value :=
  .object [("from", .string p.from_), ("on", .string p.on), ("to", .string p.to_),
    ("into", .string p.into), ("fields", texts p.fields)]

def Attention.json (a : Attention) : Value :=
  .object [("model", .string a.model), ("when", .object a.when_), ("needs", .string a.needs),
    ("label", .string a.label)]

def capabilitiesJson (c : Capabilities) : Value :=
  .object [("read", texts c.read),
    ("write", .array (c.write.map fun w =>
      .object [("model", .string w.model), ("kinds", texts w.kinds)]))]

def navJson (i : NavItem) : Value :=
  .object [("label", .string i.label), ("icon", .string i.icon), ("view", .string i.view)]

/-- A list that is left out when it is empty. -/
def unlessEmpty (key : String) (l : List Value) : List (String × Value) :=
  if l.isEmpty then [] else [(key, .array l)]

/-- Every field that came later leaves itself out when it is empty, for the sake of the signatures
    made before. -/
def FullManifest.json (m : FullManifest) : Value :=
  .object ([("name", .string m.name), ("version", .string m.version),
      ("description", .string m.description), ("category", .string m.category),
      ("publisher", .object [("name", .string m.publisherName), ("url", .string m.publisherUrl)]),
      ("publisher_key", .string m.publisherKey), ("documentModels", .array m.documentModels),
      ("processors", .array m.processors)] ++
    (m.bundle.map fun r => ("bundle", blobJson r)).toList ++
    [("capabilities", capabilitiesJson m.capabilities)] ++
    unlessEmpty "projections" (m.projections.map projectionJson) ++
    unlessEmpty "attention" (m.attention.map Attention.json) ++
    (if m.nav.isEmpty then [] else [("ui", .object [("nav", .array (m.nav.map navJson))])]) ++
    [("sig", .string m.sig)])

section

variable [Primitives]

/-! ### Signed -/

def keyHex (key : PublicKey) : String := hexEncode (beBytes 32 key.val)

def sigHex (sig : Sig) : String := hexEncode (beBytes 64 sig.val)

/-- `message_bytes`: everything but the signature. -/
def FullRelease.messageBytes (r : FullRelease) : List UInt8 :=
  strBytes (Primitives.jsonText { r with sig := "" }.json)

def FullRelease.sign (r : FullRelease) (key : SigningKey) : FullRelease :=
  { r with sig := sigHex (Primitives.sign key r.messageBytes) }

/-- What a node makes of it. -/
def FullRelease.seen (r : FullRelease) : Update.SignedRelease :=
  { r.toRelease with signed := ⟨r.publisherKey, "", r.messageBytes, r.sig⟩ }

def FullManifest.messageBytes (m : FullManifest) : List UInt8 :=
  strBytes (Primitives.jsonText { m with sig := "" }.json)

def FullManifest.sign (m : FullManifest) (key : SigningKey) : FullManifest :=
  { m with sig := sigHex (Primitives.sign key m.messageBytes) }

def FullManifest.seen (m : FullManifest) : Manifest where
  name := m.name
  version := m.version
  documentModels := m.documentModels
  bundle := m.bundle
  nav := m.nav
  signed := ⟨m.publisherKey, m.publisherName, m.messageBytes, m.sig⟩

theorem hexDecode_hexEncode (v : List UInt8) : hexDecode (hexEncode v) = some v := by
  unfold hexDecode hexEncode
  rw [String.toList_ofList]
  exact hexPairs_hexDigits v

/-- Bytes give the number back. -/
theorem ofNat_beBytes {n m : ℕ} [NeZero m] (hm : m = 256 ^ n) (k : Fin m) :
    Fin.ofNat m (ofBeBytes (beBytes n k.val)) = k := by
  refine Fin.ext ?_
  rw [ofBeBytes_beBytes, ← hm, Nat.mod_eq_of_lt k.isLt]
  exact Nat.mod_eq_of_lt k.isLt

/-- What is signed with a key verifies under it. -/
theorem verify_signed {verifies : PublicKey → List UInt8 → Sig → Bool} {key : SigningKey}
    (hok : Primitives.keyOk (Primitives.verifyingKey key) = true)
    (hverifies : ∀ bytes, verifies (Primitives.verifyingKey key) bytes
      (Primitives.sign key bytes) = true) (name : String) (message : List UInt8) :
    (Artifact.mk (keyHex (Primitives.verifyingKey key)) name message
      (sigHex (Primitives.sign key message))).verify verifies =
        .ok (Primitives.verifyingKey key) := by
  have hkey : ∀ k : PublicKey, Fin.ofNat (2 ^ 256) (ofBeBytes (beBytes 32 k.val)) = k :=
    ofNat_beBytes (Nat.pow_mul 2 8 32)
  have hsig : ∀ k : Sig, Fin.ofNat (2 ^ 512) (ofBeBytes (beBytes 64 k.val)) = k :=
    ofNat_beBytes (by rw [show (512 : ℕ) = 8 * 64 by decide, Nat.pow_mul])
  unfold Artifact.verify keyHex sigHex
  dsimp only
  rw [hexDecode_hexEncode, hexDecode_hexEncode]
  dsimp only
  rw [length_beBytes, length_beBytes, if_neg (by simp), hkey, hok, hsig, hverifies]
  rfl

/-! ## Publishing -/

/-- What publishing changes. -/
structure Publisher where
  store : Inner
  blobs : Blob.BlobStore

/-- What it meets: the writes of the chunks, the creation, and the action on the group. -/
structure PublishIo where
  chunks : ℕ → Blob.ChunkIo
  create : Draw
  place : Io
  placeNow : U64

/-- Is there a document of the model under that name. -/
def taken (s : Inner) (model doc : String) : Bool :=
  (queryDocs s model none).any fun row => row.name == doc

/-- The document goes into the drive of a group. -/
def addToDrive (s : Inner) (io : PublishIo) (group doc model : String) : Inner × PluginReply :=
  runCreateAction s io.place io.placeNow group "group@1" "add-doc"
    (.object [("item", .object [("kind", .string "doc"), ("model", .string model),
      ("name", .string doc), ("parent", .null)])])

/-- The query of a publication of a release; the binary is the body of the request. -/
structure ReleaseParams where
  version : String
  platform : Option String
  notes : String
  group : Option String

inductive ReleaseReply where
  /-- `400`: not a comparable version. -/
  | badVersion (version : String)
  /-- `400`: the request body is the binary; it is empty. -/
  | emptyBody
  /-- `500`. -/
  | blobFailed (e : String)
  /-- `500`: signed a release that does not verify. -/
  | unverified (e : VerifyError)
  /-- `409`: a signed release cannot be replaced. -/
  | alreadyPublished (version platform : String)
  | notCreated (reply : PluginReply)
  | published (doc version : String) (bytes : ℕ)

/-- The release before its signature. -/
def draftRelease (s : Inner) (here : String) (p : ReleaseParams) (binary : BlobRef) :
    FullRelease where
  version := p.version
  platform := p.platform.getD here
  notes := p.notes
  binary
  publisherKey := keyHex (Primitives.verifyingKey s.key)
  sig := ""

def releaseDoc (r : FullRelease) : String := "rel-" ++ r.version ++ "-" ++ r.platform

def releasePayload (r : FullRelease) : Value :=
  .object [("manifest", .string (Primitives.jsonText r.json)), ("name", .string (releaseDoc r)),
    ("notes", .string r.notes), ("platform", .string r.platform),
    ("publisher_key", .string r.publisherKey), ("release_version", .string r.version)]

/-- `publish` in `src/settings/updates.rs`.  `verifies` is `VerifyingKey::verify`, and `here` the
    node's own platform. -/
def publishRelease (verifies : PublicKey → List UInt8 → Sig → Bool) (here : String)
    (h : Publisher) (p : ReleaseParams) (bytes : List UInt8) (io : PublishIo) :
    Publisher × ReleaseReply :=
  if (Update.compare p.version "0.0.0").isNone then (h, .badVersion p.version)
  else if bytes.isEmpty then (h, .emptyBody)
  else
    match h.blobs.put bytes io.chunks with
    | (blobs, .error e) => ({ h with blobs }, .blobFailed e)
    | (blobs, .ok binary) =>
      let r := (draftRelease h.store here p binary).sign h.store.key
      match r.seen.signed.verify verifies with
      | .error e => ({ h with blobs }, .unverified e)
      | .ok _ =>
        let doc := releaseDoc r
        if taken h.store "release" doc then
          ({ h with blobs }, .alreadyPublished r.version r.platform)
        else
          match runCreateDocInSpace h.store io.create.io io.create.now io.create.id doc
              "release@1" (releasePayload r) none with
          | (store, .created) =>
            match p.group.filter fun g => !isBlank g with
            | none => (⟨store, blobs⟩, .published doc r.version bytes.length)
            | some group =>
              -- a failure here is not reported
              (⟨(addToDrive store io group doc "release").1, blobs⟩,
                .published doc r.version bytes.length)
          | (store, reply) => (⟨store, blobs⟩, .notCreated reply)

/-- The body of a publication of a package. -/
structure PackageBody where
  name : String
  version : String
  description : String
  category : String
  publisherName : String
  publisherUrl : String
  documentModels : List Value
  processors : List Value
  capabilities : Capabilities
  nav : List NavItem
  projections : List Projection
  attention : List Attention
  group : Option String
  /-- The editor, as an HTML document. -/
  editor : Option String

inductive PackageReply where
  /-- `400`. -/
  | badRequest (why : String)
  /-- `500`. -/
  | blobFailed (e : String)
  /-- `500`: signed a manifest that does not verify. -/
  | unverified (e : VerifyError)
  /-- `409`: a signed version cannot be replaced. -/
  | alreadyPublished (name version : String)
  | notCreated (reply : PluginReply)
  /-- With the group in whose drive it is, or the one that it could not be added to. -/
  | published (doc : String) (group groupError : Option String)

/-- The loop over the definitions. -/
def checkDefinitions : List Value → Except String Unit
  | [] => .ok ()
  | d :: rest =>
    match L1.fromDef d with
    | .error e => .error ("model definition: " ++ e)
    | .ok _ => checkDefinitions rest

/-- The loops over the projections and the attention rules. -/
def checkRules (projections : List Projection) (attention : List Attention) :
    Except String Unit := do
  projections.forM fun p => (validateProjection p).mapError ("projection: " ++ ·)
  attention.forM fun a => a.validate.mapError ("attention rule: " ++ ·)

/-- The editor goes into the blob store. -/
def putEditor (blobs : Blob.BlobStore) (io : ℕ → Blob.ChunkIo) : Option String →
    Blob.BlobStore × Except String (Option BlobRef)
  | none => (blobs, .ok none)
  | some html =>
    match blobs.put (strBytes html) io with
    | (blobs, .error e) => (blobs, .error e)
    | (blobs, .ok r) => (blobs, .ok (some r))

/-- The manifest before its signature. -/
def draftManifest (s : Inner) (b : PackageBody) (bundle : Option BlobRef) : FullManifest where
  name := b.name
  version := b.version
  description := b.description
  category := b.category
  publisherName := b.publisherName
  publisherUrl := b.publisherUrl
  publisherKey := keyHex (Primitives.verifyingKey s.key)
  documentModels := b.documentModels
  processors := b.processors
  bundle
  capabilities := b.capabilities
  projections := b.projections
  attention := b.attention
  nav := b.nav
  sig := ""

def packageDoc (name version : String) : String :=
  "pkg-" ++ String.ofList (name.toList.map fun c => if c = '/' ∨ c = '@' then '-' else c) ++ "-" ++
    version

def packagePayload (doc : String) (m : FullManifest) : Value :=
  .object [("description", .string m.description),
    ("manifest", .string (Primitives.jsonText m.json)), ("name", .string doc),
    ("package_name", .string m.name), ("package_version", .string m.version),
    ("publisher_key", .string m.publisherKey), ("publisher_name", .string m.publisherName)]

/-- `publish` in `src/settings/packages.rs`. -/
def publishPackage (t : TextTables) (verifies : PublicKey → List UInt8 → Sig → Bool)
    (h : Publisher) (b : PackageBody) (io : PublishIo) : Publisher × PackageReply :=
  match validate t b.nav with
  | .error e => (h, .badRequest ("sidebar: " ++ e))
  | .ok () =>
    match checkDefinitions b.documentModels with
    | .error e => (h, .badRequest e)
    | .ok () =>
      match putEditor h.blobs io.chunks b.editor with
      | (blobs, .error e) => ({ h with blobs }, .blobFailed e)
      | (blobs, .ok bundle) =>
        match checkRules b.projections b.attention with
        | .error e => ({ h with blobs }, .badRequest e)
        | .ok () =>
          let m := (draftManifest h.store b bundle).sign h.store.key
          match m.seen.signed.verify verifies with
          | .error e => ({ h with blobs }, .unverified e)
          | .ok _ =>
            let doc := packageDoc b.name b.version
            if taken h.store "package" doc then
              ({ h with blobs }, .alreadyPublished m.name m.version)
            else
              match runCreateDocInSpace h.store io.create.io io.create.now io.create.id doc
                  "package@1" (packagePayload doc m) none with
              | (store, .created) =>
                match b.group.filter fun g => !isBlank g with
                | none => (⟨store, blobs⟩, .published doc none none)
                | some group =>
                  match addToDrive store io group doc "package" with
                  | (store, .applied _) => (⟨store, blobs⟩, .published doc (some group) none)
                  | (store, _) => (⟨store, blobs⟩, .published doc none (some group))
              | (store, reply) => (⟨store, blobs⟩, .notCreated reply)

/-! ## A document and its `init` -/

/-- The entry is what the `init` makes of a blank one. -/
structure MadeBy (m : L1) (a : Action) (e : Entry) : Prop where
  kind : a.kind = "init"
  doc : SameDoc e (applyOpsToEntry (Entry.new a.docId) (.l1 m) a).1
  model : e.model = a.model

section

variable {m : L1} {a : Action} {e : Entry} {s t : Inner} {io : Io} {now : U64} {id : DocId}
  {doc model : String} {ref : ModelRef} {payload : Value}

theorem MadeBy.live (h : MadeBy m a e) : e.deleted = false := by
  rw [h.doc.deleted, deleted_l1]
  rfl

theorem MadeBy.docId (h : MadeBy m a e) : e.doc.id = a.docId := by
  rw [h.doc.doc, id_applyOpsToEntry]
  rfl

/-- Its fields are the writes of the `init`. -/
theorem MadeBy.fields (h : MadeBy m a e) (hs : m.Sound "init") {k : String} (hk : k ≠ nameKey) :
    e.doc.fields[k]? = ((m.writes "init").lookup k).map fun w =>
      fieldFromOp (L1.writeOp a k (written (Entry.new a.docId).doc a k w)) := by
  have hblank : (Entry.new a.docId).doc.fields[k]? = none := by
    show (∅ : Std.ExtTreeMap String Field)[k]? = none
    simp
  rw [h.doc.doc, fields_l1 (by rw [h.kind]; exact hs) rfl hk, h.kind]
  cases (m.writes "init").lookup k with
  | none => exact hblank
  | some w =>
    rw [hblank]
    rfl

theorem MadeBy.name (h : MadeBy m a e) (hs : m.NamesItself)
    (hname : a.payload.get? "name" = some (.string doc)) : e.doc.name = doc := by
  have hred : (Model.l1 m).reduce (Entry.new a.docId).doc a = _ :=
    L1.reduce_eq (by rw [h.kind]; exact hs.sound) _
  have hops : ∀ op ∈ (m.writes a.kind).map fun p => L1.writeOp a p.1
      (written (Entry.new a.docId).doc a p.1 p.2), op.key ≠ none := by
    intro op hop
    obtain ⟨p, -, rfl⟩ := List.mem_map.mp hop
    exact fun h => by cases h
  have hlifted : Lifted (Entry.new a.docId).doc := by
    show (∅ : Std.ExtTreeMap String Field)[nameKey]? = none
    simp
  rw [h.doc.doc, name_applyOpsToEntry hred rfl hops hlifted, find?_map_writeOp, h.kind, hs.name]
  show ((a.payload.get? "name").getD .null).asStr?.getD "" = doc
  rw [hname]
  rfl

/-- **The row of a document**, read off its `init`. -/
theorem row_of_init (h : MadeBy m a e) (hs : m.NamesItself) (he : s.entries[a.docId]? = some e)
    (hmodel : a.model.name = model) (hname : a.payload.get? "name" = some (.string doc)) :
    ∃ row ∈ queryDocs s model none, row.name = doc ∧ ∀ k, k ≠ nameKey →
      row.fields[k]? = ((m.writes "init").lookup k).map fun w =>
        written (Entry.new a.docId).doc a k w := by
  refine ⟨⟨e.doc.id, e.doc.name, e.model.name, e.doc.fields.map fun _ f => f.value⟩,
    mem_queryDocs.mpr ⟨a.docId, rowOf_eq_some.mpr ⟨e, he, h.live, Or.inr ?_, rfl, rfl⟩⟩,
    h.name hs hname, fun k hk => ?_⟩
  · rw [h.model, hmodel]
  · show (e.doc.fields.map fun _ f => f.value)[k]? = _
    rw [Std.ExtTreeMap.getElem?_map, h.fields hs.sound hk, Option.map_map]
    rfl

/-- **On the node that made it.** -/
theorem makes_of_created (hparse : ModelRef.parse model = .ok ref)
    (hm : s.models.find ref = some (.l1 m)) (hname : m.ref_.name = ref.name)
    (hversion : m.ref_.version = ref.version)
    (h : runCreateDocInSpace s io now id doc model payload none = (t, .created)) :
    ∃ e, t.entries[id]? = some e ∧ e.log = [s.initOf now id ref payload none] ∧
      MadeBy m (s.initOf now id ref payload none) e ∧ s.SameSetup t := by
  unfold runCreateDocInSpace at h
  rw [hparse] at h
  split at h
  · cases (Prod.mk.inj h).2
  · dsimp only at h
    have hframe := (createDocInSpace_frame s io now id doc ref payload none).1
    have hindexed : (Store.createDocInSpace s io now id doc ref payload none).2.isOk = true → _ :=
      createDocInSpace_indexed hm hname hversion
    generalize Store.createDocInSpace s io now id doc ref payload none = p at h hframe hindexed
    obtain ⟨u, r⟩ := p
    cases r with
    | error e => cases (Prod.mk.inj h).2
    | ok d =>
      obtain ⟨rfl, -⟩ := Prod.mk.inj h
      exact ⟨_, (hindexed rfl).2, rfl, ⟨rfl, sameDoc_newborn (.l1 m), rfl⟩, hframe⟩

/-- The model an `init` names is pinned. -/
theorem model_initOf (hm : s.models.find ref = some (.l1 m)) :
    (s.initOf now id ref payload none).model = m.ref_ := by
  show s.canonicalModelRef ref = m.ref_
  unfold Inner.canonicalModelRef
  rw [hm]
  rfl

/-- A plain `init` is gated by nothing. -/
theorem ungated_init (hinit : m.PlainInit) :
    m.quorum "init" = none ∧ m.requiresSpaceMember "init" = none ∧
      ∀ (d : Doc) (a : Action), a.kind = "init" → m.checkPrecondition d a = .ok () := by
  refine ⟨?_, ?_, fun d a hk => ?_⟩
  · unfold L1.quorum
    rw [hinit.pre]
    rfl
  · unfold L1.requiresSpaceMember
    rw [hinit.pre]
    rfl
  · unfold L1.checkPrecondition
    rw [hk, hinit.pre]
    rfl

/-- **Who has the author's key pinned takes the `init`** of a document it does not know. -/
theorem accepts_elsewhere (hown : s.Authors) (hinit : m.PlainInit)
    (hfind : t.models.find (s.initOf now id ref payload none).model = some (.l1 m))
    (hpayload : m.validatePayload "init" payload = .ok ())
    (hpinned : t.knownKeys[s.origin]? = some (Primitives.verifyingKey s.key))
    (hnew : t.entries[id]? = none) :
    t.accepts (s.initOf now id ref payload none) = true := by
  obtain ⟨hquorum, hmember, hpre⟩ := ungated_init hinit
  have hnew : t.entries[(s.initOf now id ref payload none).docId]? = none := hnew
  -- a node with the author's name and key would have this store of keys
  have hkeys : Inner.Authors { t with key := s.key, origin := s.origin } :=
    ⟨hpinned, hown.keyOk, hown.verifies⟩
  have hsigned : t.checkSignatures (s.initOf now id ref payload none) = .ok () :=
    checkSignatures_own hkeys rfl rfl
  refine Inner.accepts_iff.mpr ⟨.l1 m, ⟨hsigned, hfind, hpayload, ?_, ?_, ?_, ?_⟩, hpre _ _ rfl⟩
  · unfold Inner.checkQuorum
    rw [show (Model.l1 m).quorum (s.initOf now id ref payload none).kind = none from hquorum]
  · unfold Inner.checkAuthorize
    rw [hnew]
  · unfold Inner.checkSpaceMember
    rw [show (Model.l1 m).requiresSpaceMember (s.initOf now id ref payload none).kind = none
      from hmember]
  · unfold Inner.checkSpaceBinding
    rw [hnew]

/-- A plain document is created under every free name. -/
theorem creates_plain (hown : s.Authors) (hinit : m.PlainInit)
    (hparse : ModelRef.parse model = .ok ref) (hm : s.models.find ref = some (.l1 m))
    (hname : m.ref_.name = ref.name) (hversion : m.ref_.version = ref.version)
    (hpayload : m.validatePayload "init" payload = .ok ()) (hvalid : validName doc = true)
    (hfree : nameFree s doc = true) :
    ∃ t, runCreateDocInSpace s io now id doc model payload none = (t, .created) := by
  obtain ⟨hquorum, hmember, hpre⟩ := ungated_init hinit
  have hcreates : (Store.createDocInSpace s io now id doc ref payload none).2.isOk = true := by
    refine isOk_createDocInSpace.mpr ⟨hfree, (accepts_initOf_iff hown hm hname hversion
      hquorum).mpr ⟨hpayload, ?_, hpre _ _ rfl⟩⟩
    unfold Inner.checkSpaceMember
    rw [show (Model.l1 m).requiresSpaceMember (s.initOf now id ref payload none).kind = none
      from hmember]
  unfold runCreateDocInSpace
  rw [hvalid, hparse]
  dsimp only
  generalize Store.createDocInSpace s io now id doc ref payload none = p at hcreates ⊢
  obtain ⟨u, r⟩ := p
  cases r with
  | error e => cases hcreates
  | ok d => exact ⟨u, rfl⟩

/-- A document that is not there has no log to be out of order with. -/
theorem outOfOrder_of_none (h : s.entries[a.docId]? = none) : s.outOfOrder a = false := by
  unfold Inner.outOfOrder
  rw [h]
  rfl

/-- **On every node that takes its `init`.** -/
theorem makes_of_accepted (hacc : s.accepts a = true) (hnew : s.entries[a.docId]? = none)
    (hkind : a.kind = "init") (hm : s.models.find a.model = some (.l1 m)) (io : Io) :
    ∃ e, (s.applyAction io a).1.entries[a.docId]? = some e ∧ MadeBy m a e := by
  obtain ⟨m', hacc⟩ := Inner.accepts_iff.mp hacc
  obtain rfl : Model.l1 m = m' := Option.some.inj (hm.symm.trans hacc.model)
  have horder := outOfOrder_of_none hnew
  have hstuck : s.refoldStuck a = false := by
    unfold Inner.refoldStuck
    rw [horder, Bool.false_and]
  have hsettled : s.settled a (.l1 m) = appended (Entry.new a.docId) (.l1 m) a := by
    unfold Inner.settled
    rw [horder, entryFor_of_none hnew]
    rfl
  obtain ⟨log, hentry⟩ := View.entry_finish
    (show View.entry { s.view a.docId with entry := some (s.settled a (.l1 m)) } = _ from rfl) io a
  rw [← view_applyAction_settled hacc hstuck io, hsettled] at hentry
  refine ⟨_, hentry, hkind, ?_, rfl⟩
  have hsame := (sameDoc_stamped (Entry.new a.docId) a).after_applyOps (.l1 m) a
  exact ⟨hsame.doc, hsame.deleted⟩

/-! ### In a group's drive -/

/-- Its list of members is empty, so nobody may do anything to it as to a group. -/
theorem MadeBy.no_member (h : MadeBy m a e) (hs : m.Sound "init")
    (hw : (m.writes "init").lookup "members" = none) (o : Origin) :
    inList e.doc "members" o = false := by
  have hnone : e.doc.fields["members"]? = none := by
    rw [h.fields hs (by decide), hw]
    rfl
  unfold inList currentArray currentValue
  rw [hnone]
  rfl

/-- Only a member adds to a drive. -/
theorem member_of_addDoc {d : Doc} (hk : a.kind = "add-doc")
    (hpre : (Model.l1 group).checkPrecondition d a = .ok ()) :
    inList d "members" a.origin = true := by
  have hpre : group.checkPrecondition d a = .ok () := hpre
  unfold L1.checkPrecondition at hpre
  rw [hk] at hpre
  have hcheck := forM_eq_ok hpre (Def.actorIn "members") (by
    show _ ∈ [Def.actorIn "members"]
    exact List.mem_singleton_self _)
  have hcheck : (if inList d "members" a.origin = true then Except.ok ()
      else .error (.precondition ("actor " ++ a.origin ++ " is not in '" ++ "members" ++ "'"))) =
      (.ok () : Except Reject Unit) := hcheck
  by_contra hne
  rw [if_neg hne] at hcheck
  cases hcheck

theorem buildAction_built {kind : String}
    (h : (s.buildAction now id ref kind payload).2 = .ok a) :
    a.docId = id ∧ a.kind = kind ∧ a.model = s.canonicalModelRef ref := by
  unfold Inner.buildAction Inner.nextTs at h
  dsimp only at h
  split at h
  · cases h
  · obtain rfl := Except.ok.inj h
    exact ⟨rfl, rfl, rfl⟩

/-- To build an action and apply it is to build one of that kind on that document, if any. -/
theorem buildAndApply_fst_cases (s : Inner) (io : Io) (now : U64) (d : DocId) (ref : ModelRef)
    (kind : String) (payload : Value) :
    (Store.buildAndApply s io now d ref kind payload).1 = (s.nextTs now).1 ∨
      ∃ a : Action, a.docId = d ∧ a.kind = kind ∧ a.model = s.canonicalModelRef ref ∧
        (Store.buildAndApply s io now d ref kind payload).1 =
          ((s.nextTs now).1.applyAction io a).1 := by
  have hfst := buildAction_fst s now d ref kind payload
  cases hbuild : s.buildAction now d ref kind payload with
  | mk t r =>
    rw [hbuild] at hfst
    obtain rfl : t = (s.nextTs now).1 := hfst
    cases r with
    | error e =>
      refine Or.inl ?_
      unfold Store.buildAndApply
      rw [hbuild]
    | ok a =>
      obtain ⟨hdoc, hkind, hmodel⟩ := buildAction_built (congrArg Prod.snd hbuild)
      exact Or.inr ⟨a, hdoc, hkind, hmodel, buildAndApply_of_ok hbuild⟩

/-- **Putting a document into a drive never touches the document**, whatever group is named. -/
theorem addToDrive_keeps (hgroup : s.models.find (ModelRef.new "group" "1") = some (.l1 group))
    (he : s.entries[id]? = some e) (hnobody : ∀ o, inList e.doc "members" o = false)
    (io : PublishIo) (g doc kindOf : String) :
    (addToDrive s io g doc kindOf).1.entries[id]? = some e := by
  unfold addToDrive runCreateAction
  split
  · exact he
  · rw [show ModelRef.parse "group@1" = .ok (ModelRef.new "group" "1") by decide]
    dsimp only
    unfold Store.applyLocalAction Store.onNamed
    cases hnamed : s.names[g]? with
    | none => exact he
    | some d =>
      dsimp only
      have hcases := buildAndApply_fst_cases s io.place io.placeNow d (ModelRef.new "group" "1")
        "add-doc" (.object [("item", .object [("kind", .string "doc"),
          ("model", .string kindOf), ("name", .string doc), ("parent", .null)])])
      generalize Store.buildAndApply s io.place io.placeNow d _ _ _ = p at hcases ⊢
      obtain ⟨t, r⟩ := p
      have hstays : t.entries[id]? = some e := by
        rcases hcases with heq | ⟨a, rfl, hkind, hmodel, heq⟩
        · rw [show t = _ from heq]
          exact he
        · rw [show t = _ from heq]
          by_cases hd : id = a.docId
          · -- it has no members, so the action is refused
            subst hd
            have hrefused : (s.nextTs io.placeNow).1.accepts a = false := by
              refine Bool.eq_false_iff.mpr fun hacc => ?_
              obtain ⟨m', hacc⟩ := Inner.accepts_iff.mp hacc
              have hfind : s.models.find a.model = some (.l1 group) := by
                rw [hmodel]
                unfold Inner.canonicalModelRef
                rw [hgroup]
                exact find_ref hgroup rfl rfl
              obtain rfl : Model.l1 group = m' := Option.some.inj (hfind.symm.trans hacc.model)
              have hpre := hacc.precondition
              rw [entryFor_eq (show (s.nextTs io.placeNow).1.entries[a.docId]? = some e from he)]
                at hpre
              have hmember := member_of_addDoc hkind hpre
              rw [hnobody] at hmember
              cases hmember
            have hhere : (s.nextTs io.placeNow).1.entries[a.docId]?.isSome = true := by
              rw [show (s.nextTs io.placeNow).1.entries[a.docId]? = some e from he]
              rfl
            obtain ⟨msg, hstays⟩ := Inner.applyAction_refused_here hrefused hhere io.place
            rw [hstays]
            exact he
          · exact (congrArg View.entry (view_applyAction_ne _ io.place hd)).trans he
      cases r <;> exact hstays

/-! ### Among other documents -/

/-- Actions that arrive one after the other. -/
def taking (s : Inner) (l : List (Io × Action)) : Inner :=
  l.foldl (fun s x => (s.applyAction x.1 x.2).1) s

/-- Those of other documents change neither the entry nor the setup. -/
theorem taking_others {l : List (Io × Action)} (h : ∀ x ∈ l, x.2.docId ≠ id) (s : Inner) :
    (taking s l).entries[id]? = s.entries[id]? ∧ s.SameSetup (taking s l) := by
  induction l generalizing s with
  | nil => exact ⟨rfl, ⟨rfl, rfl, rfl, rfl⟩⟩
  | cons x l ih =>
    obtain ⟨hx, hl⟩ := List.forall_mem_cons.mp h
    obtain ⟨hentry, hsetup⟩ := ih hl (s.applyAction x.1 x.2).1
    have hview := view_applyAction_ne s x.1 hx.symm
    exact ⟨hentry.trans (congrArg View.entry hview),
      (Inner.sameSetup_applyAction s x.1 x.2).trans hsetup⟩

/-- A node that has the author's key pinned, and hears of the document only through its `init`;
    what comes before and after is about other documents. -/
structure Hears (author : Inner) (id : DocId) (t : Inner) (before after : List (Io × Action)) :
    Prop where
  pinned : t.knownKeys[author.origin]? = some (Primitives.verifyingKey author.key)
  unknown : t.entries[id]? = none
  others : ∀ x ∈ before ++ after, x.2.docId ≠ id

/-- **So the document is what its `init` made**, at the end of it all. -/
theorem Hears.made {before after : List (Io × Action)} (h : Hears s id t before after)
    (hown : s.Authors) (hinit : m.PlainInit)
    (hfind : t.models.find (s.initOf now id ref payload none).model = some (.l1 m))
    (hpayload : m.validatePayload "init" payload = .ok ()) (io : Io) :
    ∃ e, (taking ((taking t before).applyAction io (s.initOf now id ref payload none)).1
        after).entries[id]? = some e ∧ MadeBy m (s.initOf now id ref payload none) e := by
  obtain ⟨hbefore, hafter⟩ := List.forall_mem_append.mp h.others
  obtain ⟨hentry, hsetup⟩ := taking_others hbefore t
  have hnew : (taking t before).entries[id]? = none := hentry.trans h.unknown
  have hfind : (taking t before).models.find (s.initOf now id ref payload none).model =
      some (.l1 m) := by
    rw [hsetup.models]
    exact hfind
  have hacc := accepts_elsewhere hown hinit hfind hpayload
    (by rw [hsetup.knownKeys]; exact h.pinned) hnew
  obtain ⟨e, he, hmade⟩ := makes_of_accepted hacc hnew rfl hfind io
  exact ⟨e, (taking_others hafter _).1.trans he, hmade⟩

end

/-! ## Releases -/

/-- The models that publishing needs are those of the binary. -/
structure Ships (r : ModelRegistry) : Prop where
  release : r.find (ModelRef.new "release" "1") = some (.l1 release)
  package : r.find (ModelRef.new "package" "1") = some (.l1 package)
  group : r.find (ModelRef.new "group" "1") = some (.l1 group)

theorem release_plain : PhReactor.release.PlainInit := plainInit_shipped releaseDef (by simp)

theorem package_plain : PhReactor.package.PlainInit := plainInit_shipped packageDef (by simp)

/-- The release that a publication signs. -/
def signedRelease (s : Inner) (here : String) (p : ReleaseParams) (bytes : List UInt8) :
    FullRelease :=
  (draftRelease s here p (Blob.refOf bytes)).sign s.key

section

variable {verifies : PublicKey → List UInt8 → Sig → Bool} {here : String} {h h' : Publisher}
  {p : ReleaseParams} {bytes : List UInt8} {io : PublishIo} {doc version : String} {n : ℕ}

/-- What stands behind a publication that succeeds. -/
structure PublishedRelease (verifies : PublicKey → List UInt8 → Sig → Bool) (here : String)
    (h h' : Publisher) (p : ReleaseParams) (bytes : List UInt8) (io : PublishIo) : Prop where
  verified : ((signedRelease h.store here p bytes).seen.signed.verify verifies).isOk = true
  free : taken h.store "release" (releaseDoc (signedRelease h.store here p bytes)) = false
  blobs : h'.blobs = (h.blobs.put bytes io.chunks).1
  stored : (h.blobs.put bytes io.chunks).2.isOk = true
  created : ∃ store, runCreateDocInSpace h.store io.create.io io.create.now io.create.id
      (releaseDoc (signedRelease h.store here p bytes)) "release@1"
      (releasePayload (signedRelease h.store here p bytes)) none = (store, .created) ∧
    (h'.store = store ∨ ∃ g, h'.store =
      (addToDrive store io g (releaseDoc (signedRelease h.store here p bytes)) "release").1)

theorem put_snd (b : Blob.BlobStore) (bytes : List UInt8) (io : ℕ → Blob.ChunkIo) {r : BlobRef}
    (hput : (b.put bytes io).2 = .ok r) : r = Blob.refOf bytes := by
  unfold Blob.BlobStore.put at hput
  split at hput
  · cases hput
  · exact (Except.ok.inj hput).symm

/-- After a success the chunks are there. -/
theorem isComplete_put (s : Blob.BlobStore) (bytes : List UInt8) (io : ℕ → Blob.ChunkIo)
    (hok : (s.put bytes io).2.isOk = true) :
    (s.put bytes io).1.isComplete (Blob.refOf bytes) = true := by
  refine List.all_eq_true.mpr fun c hc => ?_
  obtain ⟨piece, hpiece, rfl⟩ := List.mem_map.mp hc
  obtain ⟨hfst, hsnd⟩ := s.put_fst bytes io
  rw [hfst]
  exact (Blob.BlobStore.putChunks_spec io _ s 0).2.2 (hsnd.symm.trans hok) piece hpiece

theorem publishRelease_published
    (hpub : publishRelease verifies here h p bytes io = (h', .published doc version n)) :
    doc = releaseDoc (signedRelease h.store here p bytes) ∧
      PublishedRelease verifies here h h' p bytes io := by
  unfold publishRelease at hpub
  split at hpub
  · cases (Prod.mk.inj hpub).2
  split at hpub
  · cases (Prod.mk.inj hpub).2
  cases hput : h.blobs.put bytes io.chunks with
  | mk blobs r =>
    rw [hput] at hpub
    cases r with
    | error e => cases (Prod.mk.inj hpub).2
    | ok binary =>
      obtain rfl := put_snd h.blobs bytes io.chunks (congrArg Prod.snd hput)
      dsimp only at hpub
      rw [show (draftRelease h.store here p (Blob.refOf bytes)).sign h.store.key =
        signedRelease h.store here p bytes from rfl] at hpub
      cases hverify : (signedRelease h.store here p bytes).seen.signed.verify verifies with
      | error e =>
        rw [hverify] at hpub
        cases (Prod.mk.inj hpub).2
      | ok key =>
        rw [hverify] at hpub
        dsimp only at hpub
        split at hpub
        · cases (Prod.mk.inj hpub).2
        · next hfree =>
          have hkept : blobs = (h.blobs.put bytes io.chunks).1 := by rw [hput]
          have hstored : (h.blobs.put bytes io.chunks).2.isOk = true := by
            rw [hput]
            rfl
          have hverified : ((signedRelease h.store here p bytes).seen.signed.verify verifies).isOk =
              true := by
            rw [hverify]
            rfl
          split at hpub
          · next store hcreate =>
            split at hpub
            · obtain ⟨rfl, hreply⟩ := Prod.mk.inj hpub
              cases hreply
              exact ⟨rfl, hverified, Bool.eq_false_iff.mpr hfree, hkept, hstored, store, hcreate,
                Or.inl rfl⟩
            · next g _ =>
              obtain ⟨rfl, hreply⟩ := Prod.mk.inj hpub
              cases hreply
              exact ⟨rfl, hverified, Bool.eq_false_iff.mpr hfree, hkept, hstored, store, hcreate,
                Or.inr ⟨g, rfl⟩⟩
          · cases (Prod.mk.inj hpub).2

/-- A release is published where nothing stands in its way. -/
theorem publishes_release (hown : h.store.Authors) (hships : Ships h.store.models)
    (hverifies : ∀ bytes, verifies (Primitives.verifyingKey h.store.key) bytes
      (Primitives.sign h.store.key bytes) = true)
    (hversion : (Update.compare p.version "0.0.0").isSome = true) (hbytes : bytes ≠ [])
    (hstored : (h.blobs.put bytes io.chunks).2.isOk = true)
    (hvalid : validName (releaseDoc (signedRelease h.store here p bytes)) = true)
    (hfree : nameFree h.store (releaseDoc (signedRelease h.store here p bytes)) = true)
    (hnew : taken h.store "release" (releaseDoc (signedRelease h.store here p bytes)) = false) :
    ∃ h', publishRelease verifies here h p bytes io =
      (h', .published (releaseDoc (signedRelease h.store here p bytes)) p.version
        bytes.length) := by
  have hverify : (signedRelease h.store here p bytes).seen.signed.verify verifies =
      .ok (Primitives.verifyingKey h.store.key) := verify_signed hown.keyOk hverifies _ _
  have hcreates : ∃ store, runCreateDocInSpace h.store io.create.io io.create.now io.create.id
      (releaseDoc (signedRelease h.store here p bytes)) "release@1"
      (releasePayload (signedRelease h.store here p bytes)) none = (store, .created) :=
    creates_plain hown release_plain
      (show ModelRef.parse "release@1" = .ok (ModelRef.new "release" "1") by decide)
      hships.release rfl rfl rfl hvalid hfree
  obtain ⟨store, hcreate⟩ := hcreates
  unfold publishRelease
  rw [if_neg (by rw [Option.isNone_iff_eq_none]; exact Option.isSome_iff_ne_none.mp hversion),
    if_neg (by rw [List.isEmpty_iff]; exact hbytes)]
  cases hput : h.blobs.put bytes io.chunks with
  | mk blobs r =>
    rw [hput] at hstored
    cases r with
    | error e => cases hstored
    | ok binary =>
      obtain rfl := put_snd h.blobs bytes io.chunks (congrArg Prod.snd hput)
      dsimp only
      rw [show (draftRelease h.store here p (Blob.refOf bytes)).sign h.store.key =
        signedRelease h.store here p bytes from rfl, hverify]
      dsimp only
      rw [hnew, if_neg Bool.false_ne_true, hcreate]
      dsimp only
      split <;> exact ⟨_, rfl⟩

/-- **The row of a release**: its manifest is the JSON that was signed, and it is not withdrawn. -/
theorem row_of_release {s : Inner} {a : Action} {e : Entry} {r : FullRelease}
    (hmade : MadeBy PhReactor.release a e) (hpayload : a.payload = releasePayload r)
    (hmodel : a.model = PhReactor.release.ref_) (he : s.entries[a.docId]? = some e) :
    ∃ row ∈ queryDocs s "release" none, row.name = releaseDoc r ∧
      Update.Selection.statusOf row = some "published" ∧
      row.fields["manifest"]?.bind Value.asStr? = some (Primitives.jsonText r.json) := by
  obtain ⟨row, hrow, hname, hfields⟩ := row_of_init hmade release_plain.names he
    (show a.model.name = "release" by rw [hmodel]; rfl)
    (show a.payload.get? "name" = some (.string (releaseDoc r)) by rw [hpayload]; rfl)
  refine ⟨row, hrow, hname, ?_, ?_⟩
  · unfold Update.Selection.statusOf
    rw [hfields "status" (by decide)]
    rfl
  · have hwritten : row.fields["manifest"]? =
        some ((a.payload.get? "manifest").getD .null) := hfields "manifest" (by decide)
    rw [hwritten, hpayload]
    rfl

/-- The node trusts the publisher, and it is for its platform and an upgrade. -/
structure Willing (c : Update.Selection) (r : FullRelease) : Prop where
  trusts : c.trust.isTrusted r.publisherKey = true
  platform : r.platform = c.platform
  newer : Update.compare r.version c.current = some .gt

/-- The node may choose the release, and chooses one that is no older. -/
def Finds (c : Update.Selection) (s : Inner) (r : FullRelease) : Prop :=
  c.Candidate s r.seen ∧ ∃ r', c.checkForUpdate s = some r' ∧
    ∃ o, Update.compare r.version r'.version = some o ∧ o.isLE = true

theorem finds_of_made {c : Update.Selection} {s : Inner} {a : Action} {e : Entry}
    {r : FullRelease} (hmade : MadeBy PhReactor.release a e)
    (hpayload : a.payload = releasePayload r) (hmodel : a.model = PhReactor.release.ref_)
    (he : s.entries[a.docId]? = some e)
    (hjson : c.parse (Primitives.jsonText r.json) = some r.seen)
    (hverified : (r.seen.signed.verify c.verifies).isOk = true) (hwilling : Willing c r) :
    Finds c s r := by
  obtain ⟨row, hrow, -, hstatus, hmanifest⟩ := row_of_release hmade hpayload hmodel he
  have hcandidate : c.Candidate s r.seen := by
    refine ⟨⟨row, hrow, ?_, ?_⟩, ⟨hwilling.trusts, hverified, beq_iff_eq.mpr hwilling.platform,
      beq_iff_eq.mpr hwilling.newer⟩⟩
    · rw [hstatus]
      decide
    · unfold Update.Selection.releaseOf
      rw [hmanifest]
      exact hjson
  refine ⟨hcandidate, ?_⟩
  cases hfound : c.checkForUpdate s with
  | none => exact absurd ⟨r.seen, hcandidate⟩ (c.checkForUpdate_eq_none.mp hfound)
  | some r' => exact ⟨r', rfl, (c.chosen hfound).2 r.seen hcandidate⟩

/-- The `init` of a release's document. -/
def releaseInit (h : Publisher) (here : String) (p : ReleaseParams) (bytes : List UInt8)
    (io : PublishIo) : Action :=
  h.store.initOf io.create.now io.create.id (ModelRef.new "release" "1")
    (releasePayload (signedRelease h.store here p bytes)) none

/-- What a publication leaves on its own node. -/
theorem PublishedRelease.made (hships : Ships h.store.models)
    (hpub : PublishedRelease verifies here h h' p bytes io) :
    ∃ e, h'.store.entries[io.create.id]? = some e ∧ e.log = [releaseInit h here p bytes io] ∧
      MadeBy PhReactor.release (releaseInit h here p bytes io) e := by
  obtain ⟨store, hcreate, hstore⟩ := hpub.created
  obtain ⟨e, he, hlog, hmade, hsetup⟩ :=
    makes_of_created (show ModelRef.parse "release@1" = .ok (ModelRef.new "release" "1") by decide)
      hships.release rfl rfl hcreate
  refine ⟨e, ?_, hlog, hmade⟩
  rcases hstore with rfl | ⟨g, hdrive⟩
  · exact he
  · rw [hdrive]
    refine addToDrive_keeps ?_ he (hmade.no_member release_plain.names.sound rfl) io g _ _
    rw [hsetup.models]
    exact hships.group

end

/-! ## Packages -/

/-- The editor as the manifest refers to it. -/
def bundleOf (b : PackageBody) : Option BlobRef :=
  b.editor.map fun html => Blob.refOf (strBytes html)

/-- The manifest that a publication signs. -/
def signedManifest (s : Inner) (b : PackageBody) : FullManifest :=
  (draftManifest s b (bundleOf b)).sign s.key

/-- The definitions pass here exactly if they pass in an install. -/
theorem checkModels_of_checkDefinitions {defs : List Value} (h : checkDefinitions defs = .ok ()) :
    ModelHost.checkModels defs = .ok () := by
  induction defs with
  | nil => rfl
  | cons d defs ih =>
    unfold checkDefinitions at h
    unfold ModelHost.checkModels
    cases hd : L1.fromDef d with
    | error e =>
      rw [hd] at h
      cases h
    | ok m =>
      rw [hd] at h
      exact ih h

/-- The store offers the manifest in the document of that name. -/
def OffersPackage (parse : String → Option Manifest) (s : Inner) (doc : String) (m : Manifest) :
    Prop :=
  ∃ row ∈ queryDocs s "package" none, row.name = doc ∧
    Update.Selection.statusOf row = some "published" ∧ manifestOf parse row = some m

section

variable {t : TextTables} {verifies : PublicKey → List UInt8 → Sig → Bool} {h h' : Publisher}
  {b : PackageBody} {io : PublishIo} {doc : String} {placed unplaced : Option String}

/-- What stands behind a publication that succeeds. -/
structure PublishedPackage (t : TextTables) (verifies : PublicKey → List UInt8 → Sig → Bool)
    (h h' : Publisher) (b : PackageBody) (io : PublishIo) : Prop where
  sidebar : validate t b.nav = .ok ()
  definitions : checkDefinitions b.documentModels = .ok ()
  verified : ((signedManifest h.store b).seen.signed.verify verifies).isOk = true
  free : taken h.store "package" (packageDoc b.name b.version) = false
  stored : ∀ r, bundleOf b = some r → h'.blobs.isComplete r = true
  created : ∃ store, runCreateDocInSpace h.store io.create.io io.create.now io.create.id
      (packageDoc b.name b.version) "package@1"
      (packagePayload (packageDoc b.name b.version) (signedManifest h.store b)) none =
        (store, .created) ∧
    (h'.store = store ∨ ∃ g, h'.store =
      (addToDrive store io g (packageDoc b.name b.version) "package").1)

theorem putEditor_ok {s blobs : Blob.BlobStore} {chunks : ℕ → Blob.ChunkIo}
    {bundle : Option BlobRef} (hput : putEditor s chunks b.editor = (blobs, .ok bundle)) :
    bundle = bundleOf b ∧ ∀ r, bundleOf b = some r → blobs.isComplete r = true := by
  unfold bundleOf
  cases heditor : b.editor with
  | none =>
    rw [heditor] at hput
    obtain ⟨-, hbundle⟩ := Prod.mk.inj hput
    exact ⟨(Except.ok.inj hbundle).symm, fun r hr => by cases hr⟩
  | some html =>
    rw [heditor] at hput
    unfold putEditor at hput
    dsimp only at hput
    have hcomplete := isComplete_put s (strBytes html) chunks
    cases hres : s.put (strBytes html) chunks with
    | mk blobs' r =>
      rw [hres] at hput hcomplete
      cases r with
      | error e => cases (Prod.mk.inj hput).2
      | ok r =>
        obtain ⟨rfl, hbundle⟩ := Prod.mk.inj hput
        obtain rfl := put_snd s (strBytes html) chunks (congrArg Prod.snd hres)
        refine ⟨(Except.ok.inj hbundle).symm, fun r hr => ?_⟩
        obtain rfl := Option.some.inj hr
        exact hcomplete rfl

theorem publishPackage_published
    (hpub : publishPackage t verifies h b io = (h', .published doc placed unplaced)) :
    doc = packageDoc b.name b.version ∧ PublishedPackage t verifies h h' b io := by
  unfold publishPackage at hpub
  split at hpub
  · cases (Prod.mk.inj hpub).2
  next hsidebar =>
  split at hpub
  · cases (Prod.mk.inj hpub).2
  next hdefinitions =>
  split at hpub
  · cases (Prod.mk.inj hpub).2
  next blobs bundle hput =>
  obtain ⟨rfl, hstored⟩ := putEditor_ok hput
  split at hpub
  · cases (Prod.mk.inj hpub).2
  dsimp only at hpub
  rw [show (draftManifest h.store b (bundleOf b)).sign h.store.key = signedManifest h.store b
    from rfl] at hpub
  cases hverify : (signedManifest h.store b).seen.signed.verify verifies with
  | error e =>
    rw [hverify] at hpub
    cases (Prod.mk.inj hpub).2
  | ok key =>
    rw [hverify] at hpub
    dsimp only at hpub
    have hverified : ((signedManifest h.store b).seen.signed.verify verifies).isOk = true := by
      rw [hverify]
      rfl
    split at hpub
    · cases (Prod.mk.inj hpub).2
    next hfree =>
    split at hpub
    · next store hcreate =>
      split at hpub
      · obtain ⟨rfl, hreply⟩ := Prod.mk.inj hpub
        cases hreply
        exact ⟨rfl, hsidebar, hdefinitions, hverified, Bool.eq_false_iff.mpr hfree, hstored, store,
          hcreate, Or.inl rfl⟩
      · next g _ =>
        have hplaced :
            (addToDrive store io g (packageDoc b.name b.version) "package").1 = h'.store ∧
            blobs = h'.blobs ∧ packageDoc b.name b.version = doc := by
          generalize addToDrive store io g (packageDoc b.name b.version) "package" = q at hpub
          obtain ⟨store', r⟩ := q
          cases r <;>
            (obtain ⟨rfl, hreply⟩ := Prod.mk.inj hpub
             cases hreply
             exact ⟨rfl, rfl, rfl⟩)
        obtain ⟨hstore, rfl, rfl⟩ := hplaced
        exact ⟨rfl, hsidebar, hdefinitions, hverified, Bool.eq_false_iff.mpr hfree, hstored, store,
          hcreate, Or.inr ⟨g, hstore.symm⟩⟩
    · cases (Prod.mk.inj hpub).2

/-- A package is published where nothing stands in its way. -/
theorem publishes_package (hown : h.store.Authors) (hships : Ships h.store.models)
    (hverifies : ∀ bytes, verifies (Primitives.verifyingKey h.store.key) bytes
      (Primitives.sign h.store.key bytes) = true)
    (hsidebar : validate t b.nav = .ok ())
    (hdefinitions : checkDefinitions b.documentModels = .ok ())
    (hrules : checkRules b.projections b.attention = .ok ())
    (hstored : (putEditor h.blobs io.chunks b.editor).2.isOk = true)
    (hvalid : validName (packageDoc b.name b.version) = true)
    (hfree : nameFree h.store (packageDoc b.name b.version) = true)
    (hnew : taken h.store "package" (packageDoc b.name b.version) = false) :
    ∃ h' placed unplaced, publishPackage t verifies h b io =
      (h', .published (packageDoc b.name b.version) placed unplaced) := by
  have hverify : (signedManifest h.store b).seen.signed.verify verifies =
      .ok (Primitives.verifyingKey h.store.key) := verify_signed hown.keyOk hverifies _ _
  have hcreates : ∃ store, runCreateDocInSpace h.store io.create.io io.create.now io.create.id
      (packageDoc b.name b.version) "package@1"
      (packagePayload (packageDoc b.name b.version) (signedManifest h.store b)) none =
        (store, .created) :=
    creates_plain hown package_plain
      (show ModelRef.parse "package@1" = .ok (ModelRef.new "package" "1") by decide)
      hships.package rfl rfl rfl hvalid hfree
  obtain ⟨store, hcreate⟩ := hcreates
  unfold publishPackage
  rw [hsidebar]
  dsimp only
  rw [hdefinitions]
  dsimp only
  cases hput : putEditor h.blobs io.chunks b.editor with
  | mk blobs r =>
    rw [hput] at hstored
    cases r with
    | error e => cases hstored
    | ok bundle =>
      obtain ⟨rfl, -⟩ := putEditor_ok hput
      dsimp only
      rw [hrules]
      dsimp only
      rw [show (draftManifest h.store b (bundleOf b)).sign h.store.key = signedManifest h.store b
        from rfl, hverify]
      dsimp only
      rw [hnew, if_neg Bool.false_ne_true, hcreate]
      dsimp only
      split
      · exact ⟨_, _, _, rfl⟩
      · split <;> exact ⟨_, _, _, rfl⟩

/-- **The row of a package**: its manifest is the JSON that was signed. -/
theorem offers_of_made {parse : String → Option Manifest} {s : Inner} {a : Action} {e : Entry}
    {m : FullManifest} (hmade : MadeBy PhReactor.package a e)
    (hpayload : a.payload = packagePayload doc m)
    (hmodel : a.model = PhReactor.package.ref_) (he : s.entries[a.docId]? = some e)
    (hjson : parse (Primitives.jsonText m.json) = some m.seen) :
    OffersPackage parse s doc m.seen := by
  obtain ⟨row, hrow, hname, hfields⟩ := row_of_init hmade package_plain.names he
    (show a.model.name = "package" by rw [hmodel]; rfl)
    (show a.payload.get? "name" = some (.string doc) by rw [hpayload]; rfl)
  refine ⟨row, hrow, hname, ?_, ?_⟩
  · unfold Update.Selection.statusOf
    rw [hfields "status" (by decide)]
    rfl
  · have hwritten : row.fields["manifest"]? =
        some ((a.payload.get? "manifest").getD .null) := hfields "manifest" (by decide)
    unfold manifestOf
    rw [hwritten, hpayload]
    exact hjson

/-- The `init` of a package's document. -/
def packageInit (h : Publisher) (b : PackageBody) (io : PublishIo) : Action :=
  h.store.initOf io.create.now io.create.id (ModelRef.new "package" "1")
    (packagePayload (packageDoc b.name b.version) (signedManifest h.store b)) none

/-- What a publication leaves on its own node. -/
theorem PublishedPackage.made (hships : Ships h.store.models)
    (hpub : PublishedPackage t verifies h h' b io) :
    ∃ e, h'.store.entries[io.create.id]? = some e ∧ e.log = [packageInit h b io] ∧
      MadeBy PhReactor.package (packageInit h b io) e := by
  obtain ⟨store, hcreate, hstore⟩ := hpub.created
  obtain ⟨e, he, hlog, hmade, hsetup⟩ :=
    makes_of_created (show ModelRef.parse "package@1" = .ok (ModelRef.new "package" "1") by decide)
      hships.package rfl rfl hcreate
  refine ⟨e, ?_, hlog, hmade⟩
  rcases hstore with rfl | ⟨g, hdrive⟩
  · exact he
  · rw [hdrive]
    refine addToDrive_keeps ?_ he (hmade.no_member package_plain.names.sound rfl) io g _ _
    rw [hsetup.models]
    exact hships.group

/-- **An install asks for nothing more** than a trusted publisher and the chunks of the bundle. -/
theorem PublishedPackage.check_iff (hpub : PublishedPackage t verifies h h' b io)
    (trust : TrustStore) (blobs : Blob.BlobStore) :
    check t verifies (signedManifest h.store b).seen trust blobs = .ok () ↔
      trust.isTrusted (keyHex (Primitives.verifyingKey h.store.key)) = true ∧
        ∀ r, bundleOf b = some r → blobs.isComplete r = true := by
  have hverified := hpub.verified
  have hmodels := checkModels_of_checkDefinitions hpub.definitions
  have hbundle : (signedManifest h.store b).seen.bundle = bundleOf b := rfl
  constructor
  · intro hcheck
    refine ⟨?_, fun r hr => (check_ok hcheck).1 r (hbundle.trans hr)⟩
    unfold check at hcheck
    split at hcheck
    · cases hcheck
    · split at hcheck
      · cases hcheck
      · next htrust =>
        rw [Bool.not_eq_true', Bool.not_eq_false] at htrust
        exact htrust
  · rintro ⟨htrust, hcomplete⟩
    unfold check
    cases hverify : (signedManifest h.store b).seen.signed.verify verifies with
    | error e =>
      rw [hverify] at hverified
      cases hverified
    | ok key =>
      dsimp only
      rw [show (signedManifest h.store b).seen.signed.publisherKey =
        keyHex (Primitives.verifyingKey h.store.key) from rfl, htrust,
        show (signedManifest h.store b).seen.nav = b.nav from rfl, hpub.sidebar, hbundle,
        show (signedManifest h.store b).seen.documentModels = b.documentModels from rfl, hmodels]
      have hmissing : ((bundleOf b).map fun r => (blobs.missing r).length).getD 0 = 0 := by
        cases hb : bundleOf b with
        | none => rfl
        | some r =>
          rw [Option.map_some, Blob.BlobStore.missing_eq_nil_iff.mpr (hcomplete r hb)]
          rfl
      rw [if_neg (by decide), if_neg (by rw [hmissing]; exact Nat.lt_irrefl 0)]

end

end

section

open Sample

attribute [local instance] Sample.primitives

/-! ## Alice publishes, and bob hears of it -/

def alicePublisher : Publisher := ⟨Store.fresh alice.key alice.name [], .empty "blobs"⟩

/-- Bob has alice's key pinned. -/
def bobStore : Inner := (Store.fresh bob.key bob.name []).execAll (pins [alice])

/-- Nothing fails. -/
def smooth : PublishIo := ⟨fun _ => .ok, ⟨Io.ok, 40, 200⟩, Io.ok, 41⟩

theorem ships_fresh (p : Peer) : Ships (Store.fresh p.key p.name []).models := by
  rw [Store.fresh_models]
  exact ⟨seededWithBuiltins_find ("release", PhReactor.release) (by simp),
    seededWithBuiltins_find ("package", PhReactor.package) (by simp),
    seededWithBuiltins_find ("group", group) (by simp)⟩

theorem authors_alice : alicePublisher.store.Authors :=
  authors_run (P := fun _ _ => True) rfl (fun bytes => verifyStrict_tag alice.key bytes) .refl

theorem bob_hears : Hears alicePublisher.store 200 bobStore [] [] :=
  ⟨by decide +kernel, by decide +kernel, fun x hx => absurd hx List.not_mem_nil⟩

/-- Three bytes for linux. -/
def nine : ReleaseParams := ⟨"1.9.0", none, "plugin packages", none⟩

abbrev nineSigned : FullRelease :=
  signedRelease alicePublisher.store "linux-x86_64" nine [1, 2, 3]

/-- That release comes out of its JSON, and nothing of other texts. -/
def parseSigned (text : String) : Option Update.SignedRelease :=
  if text = Primitives.jsonText nineSigned.json then some nineSigned.seen else none

/-- Bob trusts alice, and runs an older version. -/
def bobSelection : Update.Selection where
  trust := TrustStore.empty.trust (keyHex alice.key) "Alice" "now"
  parse := parseSigned
  verifies := releaseSigned
  current := "1.8.0"
  platform := "linux-x86_64"

/-- A package with an editor, a sidebar entry and one model. -/
def vault : PackageBody where
  name := "@powerhousedao/vault"
  version := "1.0.0"
  description := "A vault"
  category := "Knowledge"
  publisherName := "Alice"
  publisherUrl := ""
  documentModels := [bareTicket]
  processors := []
  capabilities := ⟨["ticket@1"], []⟩
  nav := [⟨"Vault", "V", ""⟩]
  projections := []
  attention := []
  group := none
  editor := some "<p>"

abbrev vaultSigned : FullManifest := signedManifest alicePublisher.store vault

def parseVault (text : String) : Option Manifest :=
  if text = Primitives.jsonText vaultSigned.json then some vaultSigned.seen else none

end

end PhReactor.Publish
