/-
  The document store: the durable, per-document ACTION LOG plus the reduced per-field state
  (`src/store.rs`, the private half: `Entry`, `Inner` and the free functions).

  The state is explicit.  What the code keeps behind its mutex is `Inner`; the files of `docs_dir`
  are its `disk` component: per document the WAL (`<id>.alog`, one action per line) and the
  snapshot (`<id>.snap`), and the timestamp index.  JSON lines are kept as the actions and states
  they encode.

  Inputs the code takes from its environment are arguments: the wall clock (`now`), the fresh
  document ids, and the outcome of each file write (`Io`).

  `applyAction` is the single apply path, in the order of the source: verify, resolve the model,
  validate, quorum, authorize, space membership, space binding, precondition, reduce and merge,
  re-fold when out of order, WAL, outbound, snapshot, name index, change feed.
-/
import Mathlib.Data.List.Dedup
import PhReactor.Lib.CanonFold
import PhReactor.Model.Builtins

namespace PhReactor

/-- Actions in a doc's live log before it is snapshot + truncated. -/
def snapshotOps : ℕ := 1024

/-- Reserved first-field key carrying the doc name. -/
def nameKey : String := "__name__"

/-! ## State -/

/-- A document's full durable state (used for snapshots and catch-up). -/
structure DocState where
  doc : Doc
  clock : VecClock
  deleted : Bool
  /-- Content hash of the last action of the live log. -/
  logHash : Option Hash32
  model : ModelRef
  space : Option DocId
  deriving DecidableEq

/-- A notification that a document's state changed. -/
structure DocChange where
  docId : DocId
  name : String
  model : ModelRef
  deleted : Bool
  state : DocState
  ts : U64
  actionKind : Option String
  actionField : Option String
  actionValue : Option Value

/-- A document and its live (not yet snapshotted) action log. -/
structure Entry where
  doc : Doc
  clock : VecClock
  deleted : Bool
  log : List Action
  /-- The model that wrote the doc (open@1 until an action sets it). -/
  model : ModelRef
  /-- The space this document belongs to, taken from its first action. -/
  space : Option DocId
  deriving DecidableEq

namespace Entry

def new (id : DocId) : Entry where
  doc := { id, name := "", fields := ∅ }
  clock := .empty
  deleted := false
  log := []
  model := openRef
  space := none

/-- The entry a snapshot stands for: its state, with an empty live log. -/
def ofState (b : DocState) : Entry where
  doc := b.doc
  clock := b.clock
  deleted := b.deleted
  log := []
  model := b.model
  space := b.space

def cell (e : Entry) : Cell := ⟨e.doc, e.clock, e.deleted⟩

end Entry

/-- The files of `docs_dir`. -/
structure Disk where
  /-- `<id>.alog`: the WAL, in arrival order. -/
  alog : Std.ExtTreeMap DocId (List Action)
  /-- `<id>.snap`, when it parses. -/
  snap : Std.ExtTreeMap DocId DocState
  /-- `index.json`: the persisted timestamp high-water mark. -/
  index : Option U64

/-- How writing a whole file can end. -/
inductive FileWrite where
  | ok
  /-- The file was not opened: it is as before. -/
  | failed
  /-- The file was truncated and only partly written: it no longer parses. -/
  | torn
  deriving DecidableEq

/-- The outcome of the file writes of one call. -/
structure Io where
  /-- Appending to the WAL. -/
  wal : Bool
  /-- Writing the snapshot. -/
  snap : FileWrite
  /-- Truncating the WAL after a snapshot. -/
  truncate : Bool

/-- Every write succeeds. -/
def Io.ok : Io := ⟨true, .ok, true⟩

/-- The store's state. -/
structure Inner where
  key : SigningKey
  /-- Identity (peer id string) used as the origin of local actions. -/
  origin : Origin
  /-- Public keys of valid signers: own identity plus every peer that completed a handshake. -/
  knownKeys : Std.ExtTreeMap Origin PublicKey
  entries : Std.ExtTreeMap DocId Entry
  names : Std.ExtTreeMap String DocId
  tsHint : U64
  /-- Local actions awaiting delivery to the sync layer. -/
  outbound : List Action
  /-- What has been sent on the sync layer's outbound feed, once connected. -/
  outboundFeed : Option (List Action)
  quarantined : ℕ
  models : ModelRegistry
  /-- What has been sent to each read-model subscriber. -/
  subscribers : List (List DocChange)
  disk : Disk

/-! ## Folding one action -/

/-- Moves the reserved name field out of the field map. -/
def liftName (doc : Doc) : Doc :=
  match doc.fields[nameKey]? with
  | some f => { doc with fields := doc.fields.erase nameKey, name := f.value.asStr?.getD "" }
  | none => doc

/-- The identity of the action on a reduced op. -/
def stampOp (action : Action) (op : Op) : Op :=
  { op with
    docId := action.docId
    ts := action.ts
    clock := action.clock
    origin := action.origin
    sig := action.sig }

/-- Apply ops in order; the flag says whether any of them was applied. -/
def applyOps (c : Cell) (ops : List Op) : Cell × Bool :=
  ops.foldl (fun (c, any) op => ((applyOp c op).1, any || (applyOp c op).2.applied)) (c, false)

/-- Reduce an action through its model into per-field ops and apply them to the entry.  Returns
    the entry, whether anything was applied, and the deleted flag. -/
def applyOpsToEntry (entry : Entry) (model : Model) (action : Action) : Entry × Bool × Bool :=
  match model.reduce entry.doc action with
  | .error _ => (entry, false, entry.deleted)
  | .ok ops =>
    let (c, appliedAny) := applyOps entry.cell (ops.map (stampOp action))
    ({ entry with doc := liftName c.doc, clock := c.clock, deleted := c.deleted },
      appliedAny, c.deleted)

variable [Primitives]

/-- The order in which every node folds a document's log. -/
abbrev CanonKey := U64 ×ₗ Origin ×ₗ Hash32

/-- The canonical position of an action in its document's log. -/
def canonKey (a : Action) : CanonKey := toLex (a.ts, toLex (a.origin, a.hash))

/-- `log.sort_by_key(canon_key)`. -/
def sortLog (log : List Action) : List Action := Lib.canonSort canonKey log

/-- One action of a re-fold: skipped when its precondition or its authorization fails. -/
def refoldStep (entry : Entry) (a : Action) (model : Model) : Entry :=
  if (model.checkPrecondition entry.doc a).isOk && (model.authorize entry.doc a).isOk then
    { (applyOpsToEntry entry model a).1 with model := a.model }
  else entry

namespace Inner

variable (s : Inner)

/-! ## Snapshot, re-fold -/

/-- Where a fold of `id` starts: its snapshot, or a new entry. -/
def baseEntry (id : DocId) : Entry :=
  let fresh :=
    match s.disk.snap[id]? with
    | some b => Entry.ofState b
    | none => Entry.new id
  { fresh with doc := liftName fresh.doc }

/-- Rebuild a document from its snapshot base by folding every action in the live log in canonical
    order. -/
def refold (id : DocId) : Except String Inner :=
  match s.entries[id]? with
  | none => .ok s
  | some entry =>
    let log := sortLog entry.log
    match log.mapM fun a =>
        match s.models.find a.model with
        | some m => Except.ok m
        | none => .error ("model " ++ a.model.name ++ " unavailable for re-fold") with
    | .error e => .error e
    | .ok models =>
      let fresh := s.baseEntry id
      -- the space comes from the canonically-first action
      let fresh :=
        if fresh.space.isNone then { fresh with space := log.head?.bind Action.space } else fresh
      let fresh := (log.zip models).foldl (fun e (a, m) => refoldStep e a m) fresh
      .ok { s with entries := s.entries.insert id { fresh with clock := entry.clock, log := log } }

/-- Snapshot the doc (full state + log hash) and truncate the log. -/
def snapshot (io : Io) (id : DocId) : Inner × Except String Unit :=
  match s.entries[id]? with
  | none => (s, .ok ())
  | some entry =>
    let state : DocState := {
      doc := entry.doc
      clock := entry.clock
      deleted := entry.deleted
      logHash := entry.log.getLast?.map Action.hash
      model := openRef
      space := entry.space }
    match io.snap with
    | .failed => (s, .error "snapshot write failed")
    | .torn => ({ s with disk := { s.disk with snap := s.disk.snap.erase id } },
        .error "snapshot write failed")
    | .ok =>
      let alog := if io.truncate then s.disk.alog.insert id [] else s.disk.alog
      ({ s with
          disk := { s.disk with snap := s.disk.snap.insert id state, alog := alog }
          entries := s.entries.insert id { entry with log := [] } }, .ok ())

/-! ## The change feed and the quarantine -/

/-- The field and value an action's payload names, for the change feed. -/
def changedField (payload : Value) : Option String × Option Value :=
  match (payload.get? "field").bind Value.asStr? with
  | some f => (some f, payload.get? "value")
  | none =>
    match payload.asObject? with
    | some [(k, v)] => (some k, some v)
    | _ => (none, none)

/-- Publish a doc-change event to every subscriber. -/
def emitChange (id : DocId) (ts : U64) (action : Option Action) : Inner :=
  match s.entries[id]? with
  | none => s
  | some entry =>
    let delta := (action.map fun a => changedField a.payload).getD (none, none)
    let change : DocChange := {
      docId := id
      name := entry.doc.name
      model := entry.model
      deleted := entry.deleted
      state := {
        doc := entry.doc
        clock := entry.clock
        deleted := entry.deleted
        logHash := entry.log.getLast?.map Action.hash
        model := entry.model
        space := entry.space }
      ts
      actionKind := action.map Action.kind
      actionField := delta.1
      actionValue := delta.2 }
    { s with subscribers := s.subscribers.map fun sent => sent ++ [change] }

/-- Quarantine: count it and report; the action is not applied. -/
def reject (reason : String) : Inner × Except String ApplyResult :=
  ({ s with quarantined := s.quarantined + 1 }, .error reason)

/-! ## The checks before an action is applied -/

/-- One signer: its pinned key must be known and well formed, and the signature must verify. -/
def checkKey (origin : Origin) (unknown malformed invalid : String) (verify : PublicKey → Bool) :
    Except String Unit :=
  match s.knownKeys[origin]? with
  | none => .error unknown
  | some k =>
    if !Primitives.keyOk k then .error malformed
    else if !verify k then .error invalid
    else .ok ()

/-- Step 1: signature + co-signature verification against known keys. -/
def checkSignatures (a : Action) : Except String Unit := do
  s.checkKey a.origin "unknown origin" "bad origin key" "bad signature" a.verify
  a.cosig.zipIdx.forM fun (cs, i) =>
    s.checkKey cs.origin ("unknown co-signer " ++ cs.origin) "bad co-signer key"
      "bad co-signature" (a.verifyCosig i)

/-- Step 2: resolve the model. -/
def resolveModel (a : Action) : Except String Model :=
  match s.models.find a.model with
  | some m => .ok m
  | none => .error ("model " ++ a.model.name ++ " unavailable")

/-- The strings of a live array field of a document. -/
def liveStrings (doc : Doc) (field : String) : List String :=
  match doc.live.fields[field]? with
  | some f => (f.value.asArray?.getD []).filterMap Value.asStr?
  | none => []

/-- The distinct members among an action's origin and co-signers. -/
def endorsers (members : List String) (a : Action) : List Origin :=
  ((a.origin :: a.cosig.map CoSig.origin).filter fun o => members.contains o).dedup

/-- Check a declared quorum against the group's state; `some` describes the problem. -/
def quorumProblem (spec : QuorumSpec) (a : Action) : Option String :=
  let groupName : Except String String :=
    if spec.group = "$self" then
      match s.entries[a.docId]?.map fun e => e.doc.name with
      | some n => if n = "" then .error "quorum group '$self' has no name" else .ok n
      | none => .error "quorum group '$self' has no name"
    else .ok spec.group
  match groupName with
  | .error p => some p
  | .ok groupName =>
    match (s.names[groupName]?).bind fun id => s.entries[id]? with
    | none => some ("quorum group '" ++ groupName ++ "' not found")
    | some e =>
      let count := (endorsers (liveStrings e.doc spec.field) a).length
      if count < spec.min then
        some ("quorum not met: " ++ toString count ++ " distinct member(s) of '" ++ groupName ++
          "' have signed this action (need " ++ toString spec.min ++
          "). The proposer counts as one; " ++ toString (spec.min - count) ++
          " more distinct member(s) must co-sign it. A single node cannot reach a quorum of " ++
          toString spec.min ++ " by itself.")
      else none

/-- Step 3b: quorum, declared by the model. -/
def checkQuorum (model : Model) (a : Action) : Except String Unit :=
  match model.quorum a.kind with
  | none => .ok ()
  | some spec =>
    match s.quorumProblem spec a with
    | some problem => .error problem
    | none => .ok ()

/-- Step 3c: model-declared authorization, skipped when the doc is not loaded yet. -/
def checkAuthorize (model : Model) (a : Action) : Except String Unit :=
  match s.entries[a.docId]? with
  | none => .ok ()
  | some entry => (model.authorize entry.doc a).mapError Reject.describe

/-- One of a space document's principal lists, by field name. -/
def listOf (doc : Doc) (field : String) : List String :=
  match doc.fields[field]? with
  | some f => (f.value.asArray?.getD []).filterMap Value.asStr?
  | none => []

/-- Step 3c-bis: space membership, declared by the model. -/
def checkSpaceMember (model : Model) (a : Action) : Except String Unit :=
  match model.requiresSpaceMember a.kind with
  | none => .ok ()
  | some list =>
    match a.space.or (s.entries[a.docId]?.bind Entry.space) with
    | none => .error "this reducer requires a space, and the document has none"
    | some spaceId =>
      match s.entries[spaceId]? with
      | none => .error "the space document is not here yet"
      | some e =>
        if (listOf e.doc list).any fun m => m == a.origin then .ok ()
        else .error ("actor " ++ a.origin ++ " is not in this space's " ++ list)

/-- Step 3d: a document's space is decided by its first action. -/
def checkSpaceBinding (a : Action) : Except String Unit :=
  match s.entries[a.docId]? with
  | none => .ok ()
  | some entry =>
    if !entry.log.isEmpty && entry.space != a.space then
      .error "space mismatch: a document cannot change space"
    else .ok ()

/-- Steps 1 to 3d: every check that runs before the entry is touched. -/
def screen (a : Action) : Except String Model := do
  s.checkSignatures a
  let model ← s.resolveModel a
  (model.validatePayload a.kind a.payload).mapError Reject.describe
  s.checkQuorum model a
  s.checkAuthorize model a
  s.checkSpaceMember model a
  s.checkSpaceBinding a
  return model

/-! ## The apply path -/

/-- Does the action sort before the last action of the document's log. -/
def outOfOrder (a : Action) : Bool :=
  match s.entries[a.docId]?.bind fun e => e.log.getLast? with
  | some last => decide (canonKey a < canonKey last)
  | none => false

/-- Append one action to the doc's WAL file. -/
def persistAction (io : Io) (a : Action) : Inner :=
  if io.wal then
    { s with disk :=
        { s.disk with alog := s.disk.alog.insert a.docId (s.disk.alog[a.docId]?.getD [] ++ [a]) } }
  else s

/-- Step 5, second half: queue a local action for publication and raise the ts high-water mark. -/
def publish (a : Action) : Inner :=
  let s :=
    if a.origin = s.origin then
      { s with
        outbound := s.outbound ++ [a]
        outboundFeed := s.outboundFeed.map fun sent => sent ++ [a] }
    else s
  { s with tsHint := max s.tsHint a.ts }

/-- Step 7: keep the name index in sync with the doc's state. -/
def indexName (id : DocId) : Inner :=
  match s.entries[id]? with
  | none => s
  | some e =>
    if e.deleted then
      if e.doc.name ≠ "" ∧ s.names[e.doc.name]? = some id then
        { s with names := s.names.erase e.doc.name }
      else s
    else if e.doc.name ≠ "" then { s with names := s.names.insert e.doc.name id }
    else s

/-- Step 6: snapshot when the live log has reached the threshold. -/
def autoSnapshot (io : Io) (id : DocId) : Inner × Except String Unit :=
  if snapshotOps ≤ ((s.entries[id]?.map fun e => e.log.length).getD 0) then s.snapshot io id
  else (s, .ok ())

/-- Steps 5 to 7, after the action is in the entry's log. -/
def finishApply (io : Io) (a : Action) (appliedAny deleted : Bool) :
    Inner × Except String ApplyResult :=
  let s := s.persistAction io a
  let s := if appliedAny then s.publish a else s
  match s.autoSnapshot io a.docId with
  | (s, .error e) => (s, .error e)
  | (s, .ok ()) =>
    let s := s.indexName a.docId
    let s := if appliedAny || deleted then s.emitChange a.docId a.ts (some a) else s
    (s, .ok { applied := appliedAny, docDeleted := deleted })

/-- The single apply path (local and remote). -/
def applyAction (io : Io) (a : Action) : Inner × Except String ApplyResult :=
  match s.screen a with
  | .error reason => s.reject reason
  | .ok model =>
    let outOfOrder := s.outOfOrder a
    let entry := s.entries[a.docId]?.getD (Entry.new a.docId)
    match model.checkPrecondition entry.doc a with
    | .error r =>
      ({ s with entries := s.entries.insert a.docId entry, quarantined := s.quarantined + 1 },
        .error r.describe)
    | .ok () =>
      let entry := if entry.log.isEmpty then { entry with space := a.space } else entry
      let (entry, appliedAny, deleted) := applyOpsToEntry entry model a
      let entry := { entry with model := a.model, log := entry.log ++ [a] }
      let s := { s with entries := s.entries.insert a.docId entry }
      if outOfOrder then
        match s.refold a.docId with
        | .error e => (s, .error e)
        | .ok s => s.finishApply io a appliedAny deleted
      else s.finishApply io a appliedAny deleted

/-! ## Building local actions -/

/-- The next timestamp: above the wall clock and above everything seen. -/
def nextTs (now : U64) : Inner × U64 :=
  let ts := max s.tsHint now + 1
  ({ s with tsHint := ts }, ts)

/-- The loaded model's canonical reference (with its content hash), or `ref` itself. -/
def canonicalModelRef (ref : ModelRef) : ModelRef :=
  match s.models.find ref with
  | some m => m.ref_
  | none => ref

/-- Build a signed local action.  The clock is the doc's current clock, one tick on; the doc's own
    clock is not touched.  The error stands for the panic on a missing document. -/
def buildAction (now : U64) (id : DocId) (model : ModelRef) (kind : String) (payload : Value) :
    Inner × Except String Action :=
  let (s, ts) := s.nextTs now
  match s.entries[id]? with
  | none => (s, .error "doc exists")
  | some e =>
    let action : Action := {
      docId := id
      model := s.canonicalModelRef model
      kind
      payload
      ts
      clock := e.clock.tick s.origin
      origin := s.origin
      cosig := []
      prevHash := e.log.getLast?.map Action.hash
      space := e.space
      sig := 0 }
    (s, .ok (action.sign s.key))

/-! ## Replay -/

/-- One WAL line of a replay: reduce without re-checking, keep what was applied. -/
def replayStep (entry : Entry) (action : Action) : Entry :=
  let entry := if entry.space.isNone then { entry with space := action.space } else entry
  match s.models.find action.model with
  | some model =>
    let (entry, applied, deleted) := applyOpsToEntry entry model action
    let entry := { entry with deleted := deleted, model := action.model }
    if applied then { entry with log := entry.log ++ [action] } else entry
  | none => { entry with log := entry.log ++ [action] }

/-- Rebuild one document from its snapshot and its WAL. -/
def replayDoc (id : DocId) : Inner :=
  let fresh :=
    match s.disk.snap[id]? with
    | some b => Entry.ofState b
    | none => Entry.new id
  let entry := { fresh with doc := liftName { fresh.doc with id } }
  let actions := sortLog (s.disk.alog[id]?.getD [])
  let entry := actions.foldl s.replayStep entry
  if entry.doc.name = "" ∧ entry.doc.fields.isEmpty ∧ entry.log.isEmpty ∧ !entry.deleted then s
  else
    let maxTs := (entry.log.map Action.ts).foldl max 0
    { s with
      entries := s.entries.insert id entry
      names := if entry.doc.name = "" then s.names else s.names.insert entry.doc.name id
      tsHint := max s.tsHint maxTs }

/-- Rebuild in-memory state from snapshots + action logs. -/
def replay : Inner :=
  let s := { s with tsHint := max s.tsHint (s.disk.index.getD 0) }
  let s := s.disk.alog.keys.foldl (fun s id => s.replayDoc id) s
  { s with disk := { s.disk with index := some s.tsHint } }

end Inner

end PhReactor
