/-
  The store's public operations (`src/store.rs`, `impl Store`).

  Each is a function of the state it finds under the lock.  `updateField`, `deleteField` and
  `deleteDoc` build their action under one lock acquisition and apply it under the next; here they
  run without anything in between (a caller that is interleaved is `buildLocalAction` followed,
  later, by `applySignedAction`).
-/
import PhReactor.Store.Inner

namespace PhReactor

/-- Maximum doc name length. -/
def maxNameLen : ℕ := 64

namespace Store

def validateName (name : String) : Except String Unit :=
  if name = "" ∨ maxNameLen < name.utf8ByteSize then
    .error ("name must be 1..=" ++ toString maxNameLen ++ " chars")
  else if !(name.toList.all fun c =>
        ('a' ≤ c && c ≤ 'z') || ('0' ≤ c && c ≤ '9') || c == '-' || c == '_' || c == '.')
      || name.toList.head? == some '.' then
    .error ("name may contain lowercase ascii, digits, '-', '_', '.' (not starting with '.'): " ++
      name)
  else .ok ()

variable [Primitives] (s : Inner)

/-! ## Opening -/

/-- An empty directory. -/
def emptyDisk : Disk := ⟨∅, ∅, none⟩

/-- Open (or create) a store over the files `disk`, registering `extra` models BEFORE the replay. -/
def openWithModels (disk : Disk) (key : SigningKey) (origin : Origin) (extra : List Model) :
    Inner :=
  let inner : Inner := {
    key
    origin
    knownKeys := (∅ : Std.ExtTreeMap Origin PublicKey).insert origin (Primitives.verifyingKey key)
    entries := ∅
    names := ∅
    tsHint := 0
    outbound := []
    outboundFeed := none
    quarantined := 0
    models := extra.foldl ModelRegistry.insert ModelRegistry.seededWithBuiltins
    subscribers := []
    disk }
  inner.replay

/-! ## Keys, models, feeds -/

/-- Record a peer's public key; trust on first use. -/
def registerPeerKey (origin : Origin) (key : PublicKey) : Inner × Except String Unit :=
  match s.knownKeys[origin]? with
  | some pinned =>
    if pinned = key then (s, .ok ())
    else (s, .error ("key mismatch for peer " ++ origin ++
      ": a different key was pinned on first contact (TOFU)"))
  | none => ({ s with knownKeys := s.knownKeys.insert origin key }, .ok ())

def addModel (model : Model) : Inner := { s with models := s.models.insert model }

def subscribeChanges : Inner := { s with subscribers := s.subscribers ++ [[]] }

/-- Take the queued local actions. -/
def drainOutbound : Inner × List Action := ({ s with outbound := [] }, s.outbound)

def connectOutbound : Inner := { s with outboundFeed := some [] }

/-! ## Reading -/

def get (name : String) : Option Doc :=
  match (s.names[name]?).bind fun id => s.entries[id]? with
  | some e => if e.deleted then none else some e.doc.live
  | none => none

def fullState (id : DocId) : Option DocState :=
  s.entries[id]?.map fun e =>
    { doc := e.doc
      clock := e.clock
      deleted := e.deleted
      logHash := e.log.getLast?.map Action.hash
      model := e.model
      space := e.space }

/-- Catch-up reply: the current state plus the actions the requester's clock does not cover. -/
def catchUp (id : DocId) (have_ : VecClock) : Option DocState × List Action :=
  match s.entries[id]? with
  | none => (none, [])
  | some e => (fullState s id, e.log.filter fun a => !have_.covers a.clock)

/-- Read a space document's visibility, defaulting to the safest tier. -/
def visibilityOf (doc : Doc) : String :=
  ((doc.fields["visibility"]?).bind fun f => f.value.asStr?).getD "private"

/-- May `peer` read this document? -/
def mayPeerRead (peer : Origin) (id : DocId) : Bool :=
  match s.entries[id]? with
  | none => false
  | some entry =>
    match entry.space with
    | none => true
    | some spaceId =>
      match if spaceId = id then some entry else s.entries[spaceId]? with
      | none => false
      | some gate =>
        let visibility := visibilityOf gate.doc
        if visibility = "public" then true
        else if visibility = "private" then false
        else (Inner.listOf gate.doc "members").any fun m => m == peer

/-- The visibility of the space a document belongs to, if it has one. -/
def spaceVisibility (id : DocId) : Option String :=
  s.entries[id]?.bind fun entry => entry.space.bind fun spaceId =>
    (if spaceId = id then s.entries[id]? else s.entries[spaceId]?).map fun gate =>
      visibilityOf gate.doc

/-- Whether documents in a space with this visibility may be gossiped: only public ones. -/
def mayGossip (visibility : String) : Bool := visibility == "public"

/-- Per-doc vector clocks. -/
def summary : Std.ExtTreeMap DocId VecClock := s.entries.map fun _ e => e.clock

/-- Per-doc vector clocks, filtered to what `peer` may read. -/
def summaryFor (peer : Origin) : Std.ExtTreeMap DocId VecClock :=
  (summary s).filter fun id _ => mayPeerRead s peer id

/-- A document's name; empty when it is not there. -/
def docName (id : DocId) : String := (s.entries[id]?.map fun e => e.doc.name).getD ""

/-! ## Local actions -/

/-- Build a local action and apply it. -/
def buildAndApply (io : Io) (now : U64) (id : DocId) (model : ModelRef) (kind : String)
    (payload : Value) : Inner × Except String Action :=
  match s.buildAction now id model kind payload with
  | (s, .error e) => (s, .error e)
  | (s, .ok action) =>
    match s.applyAction io action with
    | (s, .error e) => (s, .error e)
    | (s, .ok _) => (s, .ok action)

/-- `{ "field": field, "value": value }`. -/
def setPayload (field : String) (value : Value) : Value :=
  .object [("field", .string field), ("value", value)]

/-- `create_doc`'s loop: one `set` action per field, until one fails. -/
def setFields (io : Io) (now : ℕ → U64) (id : DocId) (s : Inner) :
    List (String × Value) → ℕ → Inner × Except String Unit
  | [], _ => (s, .ok ())
  | (field, value) :: rest, i =>
    match buildAndApply s io (now i) id openRef "set" (setPayload field value) with
    | (s, .error e) => (s, .error e)
    | (s, .ok _) => setFields io now id s rest (i + 1)

/-- Create an `open@1` document under a fresh id. -/
def createDoc (io : Io) (now : ℕ → U64) (id : DocId) (name : String)
    (fields : Std.ExtTreeMap String Value) : Inner × Except String DocId :=
  match validateName name with
  | .error e => (s, .error e)
  | .ok () =>
    if s.names.contains name then (s, .error ("a doc named " ++ name ++ " already exists"))
    else
      let s := { s with entries := s.entries.insert id (Entry.new id) }
      match buildAndApply s io (now 0) id openRef "create" (setPayload nameKey (.string name)) with
      | (s, .error e) => (s, .error e)
      | (s, .ok _) =>
        match setFields io now id s fields.toList 1 with
        | (s, .error e) => (s, .error e)
        | (s, .ok ()) => ({ s with names := s.names.insert name id }, .ok id)

/-- Create a document that lives in `space` under a model's `init` reducer. -/
def createDocInSpace (io : Io) (now : U64) (id : DocId) (name : String) (model : ModelRef)
    (payload : Value) (space : Option DocId) : Inner × Except String DocId :=
  match validateName name with
  | .error e => (s, .error e)
  | .ok () =>
    if s.names.contains name then (s, .error ("a doc named " ++ name ++ " already exists"))
    else
      let s := { s with entries := s.entries.insert id { Entry.new id with space := space } }
      match buildAndApply s io now id model "init" payload with
      | (s, .error e) => (s, .error e)
      | (s, .ok _) => (s, .ok id)

/-- A document id as UUID text. -/
def docIdText (id : DocId) : String :=
  let hex := (beBytes 16 id).flatMap fun b =>
    [Nat.digitChar (b.toNat / 16), Nat.digitChar (b.toNat % 16)]
  String.intercalate "-" ([hex.take 8, (hex.drop 8).take 4, (hex.drop 12).take 4,
    (hex.drop 16).take 4, hex.drop 20].map String.ofList)

/-- Create a space at a chosen id; it lives in itself. -/
def createSpaceAt (io : Io) (now : U64) (id : DocId) (name : String) (payload : Value) :
    Inner × Except String DocId :=
  match validateName name with
  | .error e => (s, .error e)
  | .ok () =>
    if s.names.contains name then (s, .error ("a doc named " ++ name ++ " already exists"))
    else if s.entries.contains id then
      (s, .error ("a doc with id " ++ docIdText id ++ " already exists"))
    else
      let s := { s with entries := s.entries.insert id { Entry.new id with space := some id } }
      match buildAndApply s io now id (ModelRef.new "space" "1") "init" payload with
      | (s, .error e) => (s, .error e)
      | (s, .ok _) => (s, .ok id)

/-- Build and apply a local action on the document of that name. -/
def onNamed (io : Io) (now : U64) (missing name : String) (model : ModelRef) (kind : String)
    (payload : Value) : Inner × Except String Action :=
  match s.names[name]? with
  | none => (s, .error missing)
  | some id => buildAndApply s io now id model kind payload

def updateField (io : Io) (now : U64) (name field : String) (value : Value) :
    Inner × Except String Action :=
  onNamed s io now ("no doc named " ++ name) name openRef "set" (setPayload field value)

def deleteField (io : Io) (now : U64) (name field : String) : Inner × Except String Action :=
  onNamed s io now ("no doc named " ++ name) name openRef "delete"
    (.object [("field", .string field)])

def deleteDoc (io : Io) (now : U64) (name : String) : Inner × Except String Action :=
  onNamed s io now ("no doc named " ++ name) name openRef "delete" (.object [])

/-- Build and apply a locally-signed model action. -/
def applyLocalAction (io : Io) (now : U64) (name : String) (model : ModelRef) (kind : String)
    (payload : Value) : Inner × Except String Action :=
  onNamed s io now ("no doc named '" ++ name ++ "'") name model kind payload

/-- Build and origin-sign a local action WITHOUT applying it. -/
def buildLocalAction (now : U64) (name : String) (model : ModelRef) (kind : String)
    (payload : Value) : Inner × Except String Action :=
  match s.names[name]? with
  | none => (s, .error ("no doc named '" ++ name ++ "'"))
  | some id => s.buildAction now id model kind payload

/-- Apply an already-signed action that this node originated. -/
def applySignedAction (io : Io) (a : Action) : Inner × Except String ApplyResult :=
  s.applyAction io a

/-- Apply a remote action. -/
def applyRemoteAction (io : Io) (a : Action) : Inner × Except String ApplyResult :=
  s.applyAction io a

/-- Wholesale state adoption.  The entry's space is not taken from the state. -/
def adoptState (state : DocState) : Inner :=
  let entry := s.entries[state.doc.id]?.getD (Entry.new state.doc.id)
  let entry := { entry with
    doc := liftName state.doc
    clock := state.clock
    deleted := state.deleted
    model := state.model
    log := [] }
  let s := { s with entries := s.entries.insert state.doc.id entry }
  s.emitChange state.doc.id s.tsHint none

end Store

end PhReactor
