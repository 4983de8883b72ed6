/-
  The sync engine (`src/p2p/mod.rs`).

  One engine per node.  It shares the store with the daemon, keeps a runtime for every drive, and
  is driven by one loop: commands, swarm events, the store's outbound feed and a periodic tick.

  1. Every handler is a function from the engine to the engine and the list of its EFFECTS: what it
     hands to the swarm or reports to the daemon.  Order is kept.

  2. What the handler reads from outside is an input, `Env`: the time, who is connected, the random
     peer id of an address without one, the outcome of file writes, and the order in which a hash
     map is walked (any permutation of its keys).

  3. `Input` is everything the loop can meet; operations of the daemon on the shared store are
     among them, so a run of `Engine.machine` is any interleaving of the two.

  The transports, the DHT and mDNS are not modelled: their events change nothing here.
-/
import PhReactor.Lib.Machine
import PhReactor.Sync.Wire

namespace PhReactor

/-! ## Constants, in nanoseconds where they are durations -/

/-- How often an authenticated drive gets a proactive catch-up tick. -/
def catchUpTick : ℕ := 30 * 1000000000

/-- Bound on the published-action dedupe set. -/
def publishedCap : ℕ := 8192

/-- A drive that has been silent this long is reported idle. -/
def idleAfterSilence : ℕ := 30 * 60 * 1000000000

/-- A peer that fails auth this many times within `authBanWindow` is auto-banned. -/
def authBanAfter : ℕ := 3

def authBanWindow : ℕ := 10 * 60 * 1000000000

/-! ## State -/

/-- Commands the daemon sends to the engine.  Those that only reach the DHT are left out. -/
inductive EngineCommand where
  | addDrive (drive : Drive)
  | removeDrive (name : String)
  | setPaused (name : String) (paused : Bool)
  | resync (name : String)
  | fetchBlob (blob : BlobRef)
  | join (drive : Drive) (accept : InviteAccept)
  | ban (peer : PeerId)
  | unban (peer : PeerId)
  | shutdown

/-- Events the engine reports to the daemon. -/
inductive EngineEvent where
  | identity (peer : PeerId) (listen : Multiaddr)
  | driveStatus (name : String) (status : DriveStatus) (detail : Option String)
  | docChanged (name : Option String)
  | chunkStored (hash : Hash32)
  | peerConnected (peer : PeerId)
  | driveJoined (name : String) (addr : Multiaddr)
  | peerAutoBanned (peer : PeerId)
  | inviteAccepted (peer : PeerId) (nonce : List UInt8)

/-- What a handler hands to the swarm, or reports to the daemon. -/
inductive Effect where
  /-- `send_request`, with the id it returns. -/
  | request (id : ℕ) (peer : PeerId) (msg : SyncMsg)
  /-- `send_response` on the channel of `peer`'s request. -/
  | response (peer : PeerId) (msg : SyncMsg)
  /-- Publish to the mesh topic. -/
  | publish (msg : ActionMsg)
  | dial (addr : Multiaddr)
  | event (ev : EngineEvent)

/-- The runtime of a drive. -/
structure DriveRuntime where
  drive : Drive
  peer : PeerId
  status : DriveStatus
  /-- Per-doc clocks last seen from this drive. -/
  remoteClocks : Std.ExtTreeMap DocId VecClock
  /-- In-flight catch-up request ids. -/
  inFlight : Std.ExtTreeSet ℕ
  /-- Hello handshake completed for the current connection. -/
  handshaken : Bool
  /-- Next proactive catch-up tick. -/
  nextCatchUp : ℕ
  lastSeen : ℕ
  /-- A join-proof to attach to the first hello. -/
  accept : Option InviteAccept

structure Engine where
  store : Inner
  peerId : PeerId
  pubName : String
  /-- Chunks by their hash. -/
  blobs : Std.ExtTreeMap Hash32 (List UInt8)
  token : Option String
  drives : Std.ExtTreeMap String DriveRuntime
  /-- Peers that presented a valid hello even though no drive for them existed yet. -/
  guests : Std.ExtTreeSet PeerId
  banned : Std.ExtTreeSet PeerId
  /-- Failed auth attempts per peer: count and last attempt. -/
  authFailures : Std.ExtTreeMap PeerId (ℕ × ℕ)
  running : Bool
  idleNotified : Bool
  /-- Documents this node declined to serve. -/
  withheld : ℕ
  identitySent : Bool
  /-- Remote actions held until their model is fetched. -/
  pendingActions : List (ModelRef × Action)
  requestedModels : Std.ExtTreeSet (String ×ₗ String)
  /-- Actions already published to the mesh, and their order. -/
  published : Std.ExtTreeSet Hash32
  publishedOrder : List Hash32
  /-- The id the swarm gives the next request. -/
  nextRequest : ℕ

/-- What a handler reads from outside. -/
structure Env where
  now : ℕ
  /-- The order in which a hash map with these keys is walked. -/
  order : List String → List String
  order_perm : ∀ keys, (order keys).Perm keys
  connected : PeerId → Bool
  /-- The peer id of an address without one. -/
  randomPeer : PeerId
  /-- The outcome of the store's file writes. -/
  io : Inner → Action → Io
  /-- Is a chunk's file written. -/
  chunkIo : Bool

namespace Engine

/-- `SyncEngine::new`. -/
def new (store : Inner) (peerId : PeerId) (pubName : String) (token : Option String)
    (banned : Std.ExtTreeSet PeerId) (blobs : Std.ExtTreeMap Hash32 (List UInt8)) : Engine where
  store
  peerId
  pubName
  blobs
  token
  drives := ∅
  guests := ∅
  banned
  authFailures := ∅
  running := true
  idleNotified := false
  withheld := 0
  identitySent := false
  pendingActions := []
  requestedModels := ∅
  published := ∅
  publishedOrder := []
  nextRequest := 0

/-! ## Helpers -/

def setStatus (name : String) (status : DriveStatus) (detail : Option String) : Effect :=
  .event (.driveStatus name status detail)

/-- `drives.get_mut(name)`, then an update. -/
def modifyDrive (e : Engine) (name : String) (f : DriveRuntime → DriveRuntime) : Engine :=
  { e with drives := e.drives.modify name f }

/-- The first drive of `peer` in the map's order. -/
def driveNameByPeer (env : Env) (e : Engine) (peer : PeerId) : Option String :=
  (env.order e.drives.keys).find? fun name => e.drives[name]?.any fun rt => rt.peer == peer

def sendRequest (e : Engine) (peer : PeerId) (msg : SyncMsg) : Engine × List Effect :=
  ({ e with nextRequest := e.nextRequest + 1 }, [.request e.nextRequest peer msg])

/-- Send a catch-up request and note it as in flight on the drive. -/
def sendCatchUp (name : String) (peer : PeerId) (e : Engine) (gap : DocId × VecClock) :
    Engine × List Effect :=
  ({ e.modifyDrive name fun rt => { rt with inFlight := rt.inFlight.insert e.nextRequest } with
      nextRequest := e.nextRequest + 1 },
    [.request e.nextRequest peer (.catchUp ⟨gap.1, gap.2⟩)])

/-- The documents where the drive is ahead of `own`, with our clocks. -/
def gaps (own : Std.ExtTreeMap DocId VecClock) (remote : Std.ExtTreeMap DocId VecClock) :
    List (DocId × VecClock) :=
  remote.toList.filterMap fun (id, their) =>
    let ours := own[id]?.getD VecClock.empty
    if ours.covers their then none else some (id, ours)

/-- Remember clocks a peer has reported. -/
def rememberClocks (remote : Std.ExtTreeMap DocId VecClock) (clocks : List (DocId × VecClock)) :
    Std.ExtTreeMap DocId VecClock :=
  clocks.foldl (fun m p => m.insert p.1 p.2) remote

variable [Primitives]

/-- Opens the hello handshake to the drive's peer. -/
def openHandshake (e : Engine) (name : String) : Engine × List Effect :=
  match e.drives[name]? with
  | none => (e, [])
  | some rt =>
    if rt.handshaken || rt.drive.paused then (e, [])
    else if e.banned.contains rt.peer then
      (e, [setStatus name .error (some "banned by user")])
    else
      (e.modifyDrive name fun rt => { rt with accept := none }).sendRequest rt.peer (.hello {
        version := protocolVersion
        name := e.pubName
        peerId := e.peerId
        pubkey := hexEncode (beBytes 32 (Primitives.verifyingKey e.store.key))
        token := e.token
        accept := rt.accept })

/-! ## Publishing -/

/-- Forget the oldest publications, down to the cap. -/
def evict : List Hash32 → Std.ExtTreeSet Hash32 → List Hash32 × Std.ExtTreeSet Hash32
  | [], set => ([], set)
  | old :: rest, set =>
    if publishedCap < (old :: rest).length then evict rest (set.erase old) else (old :: rest, set)

/-- Publishes one of our own actions to the mesh topic exactly once.  Only public spaces are
    gossiped; what is in no space, or in one whose document is not here, passes too. -/
def publishAction (e : Engine) (action : Action) : Engine × List Effect :=
  if !(Store.spaceVisibility e.store action.docId).all Store.mayGossip then (e, [])
  else if e.published.contains action.hash then (e, [])
  else
    let (order, set) :=
      evict (e.publishedOrder ++ [action.hash]) (e.published.insert action.hash)
    ({ e with published := set, publishedOrder := order },
      [.publish { action, name := some e.pubName }])

/-! ## Remote actions -/

/-- Ask `peer` for the definition of a model this peer lacks, once. -/
def requestModel (e : Engine) (peer : PeerId) (ref : ModelRef) : Engine × List Effect :=
  let key := toLex (ref.name, ref.version)
  if e.requestedModels.contains key then (e, [])
  else { e with requestedModels := e.requestedModels.insert key }.sendRequest peer
    (.modelRequest ref)

/-- Hold a remote action pending until its model is available. -/
def notePending (e : Engine) (action : Action) : Engine :=
  if e.pendingActions.any fun p => p.2.hash == action.hash then e
  else { e with pendingActions := e.pendingActions ++ [(action.model, action)] }

/-- The request for a missing model goes to the peer the action came from, if it is known. -/
def requestModelFrom (e : Engine) (peer : Option PeerId) (ref : ModelRef) : Engine × List Effect :=
  match peer with
  | some p => e.requestModel p ref
  | none => (e, [])

/-- Applies a remote action through the store; reports whether it was applied. -/
def applyRemoteAction (env : Env) (e : Engine) (peer : Option PeerId) (action : Action) :
    (Engine × List Effect) × Bool :=
  if (e.store.models.find action.model).isNone then
    let (e, out) := e.requestModelFrom peer action.model
    ((e.notePending action, out), false)
  else
    match Store.applyRemoteAction e.store (env.io e.store action) action with
    | (store, .ok r) =>
      if r.applied then
        (({ e with store := store },
          [.event (.docChanged (some (Store.docName store action.docId)))]), true)
      else (({ e with store := store }, []), false)
    | (store, .error _) => (({ e with store := store }, []), false)

/-- Applies the actions one after the other, and counts those that were applied. -/
def applyRemoteActions (env : Env) (peer : Option PeerId) (e : Engine) :
    List Action → (Engine × List Effect) × ℕ
  | [] => ((e, []), 0)
  | a :: rest =>
    let ((e, out), applied) := applyRemoteAction env e peer a
    let ((e, out'), n) := applyRemoteActions env peer e rest
    ((e, out ++ out'), n + if applied then 1 else 0)

/-! ## Drives -/

/-- A hello from this peer may have arrived before the drive existed: finish its handshake. -/
def finishGuest (env : Env) (e : Engine) (name : String) (peer : PeerId) : Engine × List Effect :=
  if e.guests.contains peer then
    (e.modifyDrive name fun rt => { rt with handshaken := true, lastSeen := env.now },
      [setStatus name .connecting none])
  else (e, [])

/-- The peer may already be connected: open the handshake on the existing connection. -/
def openIfConnected (env : Env) (e : Engine) (name : String) (peer : PeerId) :
    Engine × List Effect :=
  if (e.drives[name]?.any fun rt => !rt.handshaken) && env.connected peer then
    e.openHandshake name
  else (e, [])

/-- Register the runtime and start dialing.  A guest's half-completed handshake is finished, and a
    connection that is already there gets its hello. -/
def addDriveInternal (env : Env) (e : Engine) (drive : Drive) : Engine × List Effect :=
  let name := drive.name
  let peer := drive.peerId.getD env.randomPeer
  let e := { e with drives := e.drives.insert name {
    drive
    peer
    status := if drive.paused then .paused else .connecting
    remoteClocks := ∅
    inFlight := ∅
    handshaken := false
    nextCatchUp := env.now
    lastSeen := env.now
    accept := none } }
  if drive.paused then (e, [])
  else
    let (e, finished) := finishGuest env e name peer
    let (e, opened) := openIfConnected env e name peer
    (e, finished ++ opened ++ [.dial drive.addr, setStatus name .connecting (some "dialing")])

/-- The drive of a joiner, addressed by the transport-verified connection peer. -/
def joinerDrive (peer : PeerId) (accept : InviteAccept) : Drive where
  name := accept.name ++ " (" ++ String.ofList (peer.toList.take 12) ++ ")"
  addr := [.p2p peer]
  tokenEnv := none
  paused := false
  availableOffline := true

/-- Verify a join-proof and add a drive for the joiner. -/
def handleInviteAccept (env : Env) (e : Engine) (peer : PeerId) (accept : InviteAccept) :
    Engine × List Effect :=
  if e.banned.contains peer then (e, [])
  else if !accept.verify then (e, [])
  else
    match Store.registerPeerKey e.store accept.peerId accept.key with
    | (_, .error _) => (e, [])
    | (store, .ok ()) =>
      let drive := joinerDrive peer accept
      let (e, out) := addDriveInternal env { e with store := store } drive
      (e, out ++ [.event (.driveJoined drive.name drive.addr),
        .event (.inviteAccepted peer accept.nonce)])

/-- The join-proof of a hello, if it carries one. -/
def acceptInvite (env : Env) (e : Engine) (peer : PeerId) (accept : Option InviteAccept) :
    Engine × List Effect :=
  match accept with
  | some accept => handleInviteAccept env e peer accept
  | none => (e, [])

/-- The failed attempts in the current window, this one included. -/
def failureCount (env : Env) (e : Engine) (peer : PeerId) : ℕ :=
  let (count, last) := e.authFailures[peer]?.getD (0, env.now)
  (if authBanWindow < env.now - last then 0 else count) + 1

/-- Records a failed auth attempt; reports whether the peer was just auto-banned. -/
def recordAuthFailure (env : Env) (e : Engine) (peer : PeerId) : (Engine × List Effect) × Bool :=
  let count := failureCount env e peer
  if authBanAfter ≤ count then
    let e := { e with
      authFailures := e.authFailures.erase peer
      banned := e.banned.insert peer }
    let detail := "auto-banned after " ++ toString count ++ " failed auth attempts"
    let told := (e.driveNameByPeer env peer).toList.map fun name =>
      setStatus name .error (some detail)
    ((e, told ++ [.event (.peerAutoBanned peer)]), true)
  else (({ e with authFailures := e.authFailures.insert peer (count, env.now) }, []), false)

/-! ## Commands -/

/-- The chunks of `blob` the store does not have, each once. -/
def missingChunks (e : Engine) (blob : BlobRef) : List Hash32 :=
  blob.chunks.eraseDups.filter fun h => !e.blobs.contains h

def handleCmd (env : Env) (e : Engine) : EngineCommand → Engine × List Effect
  | .addDrive drive => addDriveInternal env e drive
  | .join drive accept =>
    let (e, out) := addDriveInternal env e drive
    (e.modifyDrive drive.name fun rt => { rt with accept := some accept }, out)
  | .ban peer => ({ e with banned := e.banned.insert peer }, [])
  | .unban peer => ({ e with banned := e.banned.erase peer }, [])
  | .removeDrive name =>
    ({ e with drives := e.drives.erase name },
      if e.drives.contains name then [setStatus name .offline none] else [])
  | .setPaused name paused =>
    (e.modifyDrive name fun rt => { rt with
        drive := { rt.drive with paused := paused }
        status := if paused then .paused else .connecting
        nextCatchUp := env.now },
      if paused then [] else e.drives[name]?.toList.map fun rt => .dial rt.drive.addr)
  | .resync name =>
    match e.drives[name]? with
    | none => (e, [])
    | some rt =>
      if rt.handshaken then
        (e.modifyDrive name fun rt => { rt with nextCatchUp := env.now },
          [setStatus name .connecting (some "re-sync requested")])
      else (e, [setStatus name .connecting (some "re-sync requested (handshaking)")])
  | .fetchBlob blob =>
    let peers := (env.order e.drives.keys).filterMap fun name =>
      e.drives[name]?.map DriveRuntime.peer
    Lib.sweep (fun e p => e.sendRequest p.2 (.chunkRequest p.1)) e
      ((e.missingChunks blob).flatMap fun hash => peers.map fun peer => (hash, peer))
  | .shutdown => ({ e with running := false }, [])

/-! ## The tick -/

/-- The drives whose proactive exchange is due. -/
def dueDrives (env : Env) (e : Engine) : List (String × DriveRuntime) :=
  (env.order e.drives.keys).filterMap fun name => e.drives[name]?.bind fun rt =>
    if rt.drive.paused || !rt.handshaken || env.now < rt.nextCatchUp then none
    else some (name, rt)

/-- Ask a due drive for everything it is ahead on. -/
def catchUpDrive (env : Env) (own : Std.ExtTreeMap DocId VecClock) (e : Engine)
    (due : String × DriveRuntime) : Engine × List Effect :=
  Lib.sweep (sendCatchUp due.1 due.2.peer)
    (e.modifyDrive due.1 fun rt => { rt with nextCatchUp := env.now + catchUpTick })
    (gaps own due.2.remoteClocks)

/-- Give a due drive our clocks: all of them. -/
def summarizeDrive (own : Std.ExtTreeMap DocId VecClock) (e : Engine)
    (due : String × DriveRuntime) : Engine × List Effect :=
  let (e, sent) := e.sendRequest due.2.peer (.summary own.toList)
  match e.drives[due.1]? with
  | none => (e, sent)
  | some rt =>
    if rt.status = .connecting then
      (e.modifyDrive due.1 fun rt => { rt with status := .synced },
        sent ++ [setStatus due.1 .synced none])
    else (e, sent)

/-- Backstop for the outbound feed: publish whatever is still in the store's queue. -/
def drainQueue (e : Engine) : Engine × List Effect :=
  let (store, queued) := Store.drainOutbound e.store
  Lib.sweep publishAction { e with store := store } queued

/-- Idle accounting. -/
def noteIdle (env : Env) (e : Engine) (lastActivity : ℕ) : Engine :=
  let idleFor := env.now - lastActivity
  { e with idleNotified :=
    if idleAfterSilence < idleFor then true
    else if idleFor < idleAfterSilence then false else e.idleNotified }

/-- The proactive exchange with every due drive: first all catch-up requests, then all summaries. -/
def exchange (env : Env) (e : Engine) : Engine × List Effect :=
  let own := Store.summary e.store
  let due := e.dueDrives env
  let (e, asked) := Lib.sweep (catchUpDrive env own) e due
  let (e, told) := Lib.sweep (summarizeDrive own) e due
  (e, asked ++ told)

def tick (env : Env) (e : Engine) (lastActivity : ℕ) : Engine × List Effect :=
  let (e, published) := e.drainQueue
  let (e, out) := (e.noteIdle env lastActivity).exchange env
  (e, published ++ out)

/-! ## Requests -/

/-- The token gate of a hello: the error it is answered with, if it is refused. -/
def tokenGate (env : Env) (e : Engine) (peer : PeerId) (token : Option String) :
    (Engine × List Effect) × Option HelloError :=
  match e.token, token with
  | none, _ => ((e, []), none)
  | some need, some got =>
    if got = need then ((e, []), none)
    else
      let (t, justBanned) := recordAuthFailure env e peer
      (t, some (if justBanned then .banned else .badToken))
  | some _, none => ((e, []), some .badToken)

/-- Remember the peer as a guest and pin its key under its verified identity. -/
def pinGuest (peer : PeerId) (key : PublicKey) (t : Engine × List Effect) :
    (Engine × List Effect) × Option HelloError :=
  let e := { t.1 with guests := t.1.guests.insert peer }
  match Store.registerPeerKey e.store peer key with
  | (store, .ok ()) => (({ e with store := store }, t.2), none)
  | (_, .error _) => ((e, t.2), some .keyMismatch)

/-- Mark the peer's drive as handshaken, if it has one, and pin its key; the error the hello is
    answered with, if it is refused. -/
def registerHello (env : Env) (e : Engine) (peer : PeerId) (token : Option String)
    (key : PublicKey) : (Engine × List Effect) × Option HelloError :=
  match e.driveNameByPeer env peer with
  | none => pinGuest peer key (e, [])
  | some name =>
    if (e.drives[name]?.any fun rt => rt.drive.tokenEnv.isSome) && token.isNone then
      ((e, []), some .authRequired)
    else
      pinGuest peer key (e.modifyDrive name fun rt => { rt with
          handshaken := true
          lastSeen := env.now
          remoteClocks := ∅
          status := .connecting },
        [setStatus name .connecting none])

/-- The reply to a hello that passed: the documents `peer` may read, with names and clocks. -/
def helloAck (e : Engine) (peer : PeerId) : HelloAck where
  version := protocolVersion
  name := e.pubName
  docs := (Store.summaryFor e.store peer).toList.map fun (id, clock) =>
    { id, name := Store.docName e.store id, clock }
  pubkey := some (hexEncode (beBytes 32 (Primitives.verifyingKey e.store.key)))

def serveHello (env : Env) (e : Engine) (peer : PeerId) (h : Hello) : Engine × List Effect :=
  if e.banned.contains peer then (e, [.response peer (.helloErr .banned)])
  else if h.version ≠ protocolVersion then
    (e, [.response peer (.helloErr (.badVersion protocolVersion h.version))])
  else
    let (e, joined) := acceptInvite env e peer h.accept
    match tokenGate env e peer h.token with
    | ((e, out), some err) => (e, joined ++ out ++ [.response peer (.helloErr err)])
    | ((e, _), none) =>
      match pubkeyOfHex h.pubkey with
      | none => (e, joined ++ [.response peer (.helloAck (e.helloAck peer))])
      | some key =>
        match registerHello env e peer h.token key with
        | ((e, out), some err) => (e, joined ++ out ++ [.response peer (.helloErr err)])
        | ((e, out), none) => (e, joined ++ out ++ [.response peer (.helloAck (e.helloAck peer))])

/-- Remember the clocks a peer has reported, if it has a drive. -/
def noteSummary (env : Env) (e : Engine) (peer : PeerId) (clocks : List (DocId × VecClock)) :
    Engine :=
  match e.driveNameByPeer env peer with
  | some name => e.modifyDrive name fun rt => { rt with
      remoteClocks := rememberClocks rt.remoteClocks clocks
      lastSeen := env.now }
  | none => e

/-- Serves an inbound request from a remote instance. -/
def serveRequest (env : Env) (e : Engine) (peer : PeerId) : SyncMsg → Engine × List Effect
  | .hello h => serveHello env e peer h
  | .catchUp c =>
    ({ e with withheld := e.withheld + if Store.mayPeerRead e.store peer c.docId then 0 else 1 },
      [.response peer (.catchUpAck (serveCatchUp e.store peer c.docId c.have_))])
  | .summary clocks =>
    let e := e.noteSummary env peer clocks
    (e, [.response peer (.summaryAck (Store.summaryFor e.store peer).toList)])
  | .modelRequest ref =>
    (e, [.response peer (.modelDef ref (e.store.models.definition ref))])
  | .chunkRequest hash => (e, [.response peer (.chunkData hash e.blobs[hash]?)])
  | _ => (e, [])

/-! ## Responses -/

/-- The status a refused handshake leaves the drive in, and its detail. -/
def refusal : HelloError → DriveStatus × String
  | .badVersion expected got =>
    (.error, "version mismatch (theirs " ++ toString got ++ ", ours " ++ toString expected ++ ")")
  | .authRequired => (.requiresAuth, "the drive requires a token (p2p.tokenEnv)")
  | .badToken => (.requiresAuth, "token rejected by the drive")
  | .keyMismatch => (.error, "TOFU key mismatch: the peer's key differs from the pinned key")
  | .banned => (.error, "banned: the peer is refused by the remote (or is on our ban list)")

/-- Pin the key a responder has sent, if it is one. -/
def pinResponder (e : Engine) (peer : PeerId) (pubkey : Option String) :
    Inner × Except String Unit :=
  match pubkey.bind pubkeyOfHex with
  | some key => Store.registerPeerKey e.store peer key
  | none => (e.store, .ok ())

/-- Complete the handshake of the drive, if that is still to do, and remember the clocks. -/
def noteHelloAck (env : Env) (e : Engine) (name : String) (ack : HelloAck) : Engine :=
  e.modifyDrive name fun rt =>
    let rt :=
      if rt.handshaken then rt
      else { rt with
        handshaken := true
        lastSeen := env.now
        remoteClocks := ∅
        status := .connecting }
    { rt with
      remoteClocks := rememberClocks rt.remoteClocks (ack.docs.map fun d => (d.id, d.clock)) }

/-- A `HelloAck`: pin the responder's key, complete the handshake, remember its clocks and ask for
    everything it is ahead on. -/
def onHelloAck (env : Env) (e : Engine) (name : String) (peer : PeerId) (ack : HelloAck) :
    Engine × List Effect :=
  match e.pinResponder peer ack.pubkey with
  | (_, .error _) =>
    (e, [setStatus name .error (some ("TOFU key mismatch: the peer presented a different key " ++
      "than was pinned on first contact"))])
  | (store, .ok ()) =>
    let e := { e with store := store }.noteHelloAck env name ack
    let fresh := if e.drives.contains name then [setStatus name .connecting none] else []
    let ahead := (e.drives[name]?.map fun rt =>
      gaps (Store.summary e.store) rt.remoteClocks).getD []
    let (e, asked) := Lib.sweep (sendCatchUp name peer) e ahead
    (e, fresh ++ asked)

/-- The clock of the last action of a catch-up reply is one the drive has. -/
def noteLastClock (env : Env) (e : Engine) (name : String) (ack : CatchUpAck) : Engine :=
  e.modifyDrive name fun rt => { rt with
    remoteClocks := match ack.actions.getLast? with
      | some a => rt.remoteClocks.insert ack.docId a.clock
      | none => rt.remoteClocks
    lastSeen := env.now }

/-- A `CatchUpAck`: apply its actions and remember the clock of the last one. -/
def onCatchUpAck (env : Env) (e : Engine) (name : String) (peer : PeerId) (ack : CatchUpAck) :
    Engine × List Effect :=
  let ((e, out), applied) := applyRemoteActions env (some peer) e ack.actions
  let e := e.noteLastClock env name ack
  if e.drives[name]?.any fun rt =>
      !ack.more && rt.inFlight.isEmpty && rt.status != .paused then
    (e.modifyDrive name fun rt => { rt with status := .synced },
      out ++ [setStatus name .synced (some (toString applied ++ " actions applied"))])
  else (e, out)

/-- A model definition arrived: verify it against the pinned hash, register it, and re-apply the
    actions that were held waiting for it. -/
def onModelDef (env : Env) (e : Engine) (peer : PeerId) (ref : ModelRef) (def_ : Option Value) :
    Engine × List Effect :=
  match def_ with
  | none => (e, [])
  | some d =>
    if (d.get? "name").bind Value.asStr? ≠ some ref.name ∨
        (d.get? "version").bind Value.asStr? ≠ some ref.version then (e, [])
    else if ref.hash.any fun want => L1.modelDefHash d != want then (e, [])
    else
      match L1.fromDef d with
      | .error _ => (e, [])
      | .ok m =>
        let waits (p : ModelRef × Action) : Bool :=
          p.1.name == ref.name && p.1.version == ref.version
        let toApply := (e.pendingActions.filter waits).map Prod.snd
        let e := { e with
          store := Store.addModel e.store (.l1 m)
          requestedModels := e.requestedModels.erase (toLex (ref.name, ref.version))
          pendingActions := e.pendingActions.filter fun p => !waits p }
        (applyRemoteActions env (some peer) e toApply).1

/-- `put_chunk`: a chunk is stored under the hash of its bytes only. -/
def putChunk (env : Env) (e : Engine) (claimed : Hash32) (bytes : List UInt8) : Engine :=
  if Primitives.sha256 bytes ≠ claimed ∨ e.blobs.contains claimed ∨ !env.chunkIo then e
  else { e with blobs := e.blobs.insert claimed bytes }

/-- Handles a response to one of our outbound requests. -/
def onResponse (env : Env) (e : Engine) (peer : PeerId) (id : ℕ) (msg : SyncMsg) :
    Engine × List Effect :=
  match e.driveNameByPeer env peer with
  | none => (e, [])
  | some name =>
    let e := e.modifyDrive name fun rt => { rt with inFlight := rt.inFlight.erase id }
    match msg with
    | .helloAck ack => onHelloAck env e name peer ack
    | .helloErr err =>
      (e.modifyDrive name fun rt => { rt with status := (refusal err).1 },
        [setStatus name (refusal err).1 (some (refusal err).2)])
    | .catchUpAck ack => onCatchUpAck env e name peer ack
    | .summaryAck clocks =>
      (e.modifyDrive name fun rt => { rt with
        remoteClocks := rememberClocks rt.remoteClocks clocks }, [])
    | .modelDef ref def_ => onModelDef env e peer ref def_
    | .chunkData hash (some bytes) =>
      (putChunk env e hash bytes, [.event (.chunkStored hash)])
    | _ => (e, [])

/-! ## The loop -/

/-- Everything the loop can meet, and the daemon's operations on the shared store. -/
inductive Input where
  | store (ev : Event)
  | cmd (c : EngineCommand)
  | tick (lastActivity : ℕ)
  /-- The next action of the store's outbound feed. -/
  | outbound
  | newListenAddr (addr : Multiaddr)
  | connectionEstablished (peer : PeerId)
  | connectionClosed (peer : PeerId) (numEstablished : ℕ)
  | gossip (source : Option PeerId) (msg : ActionMsg)
  | request (peer : PeerId) (msg : SyncMsg)
  | response (peer : PeerId) (id : ℕ) (msg : SyncMsg)
  | outboundFailure (peer : PeerId)

/-- A connection is there: open the handshake of its drive. -/
def onConnectionEstablished (env : Env) (e : Engine) (peer : PeerId) : Engine × List Effect :=
  match e.driveNameByPeer env peer with
  | some name => e.openHandshake name
  | none => (e, [])

/-- A connection is closed; the last one ends the drive's handshake. -/
def onConnectionClosed (env : Env) (e : Engine) (peer : PeerId) (numEstablished : ℕ) :
    Engine × List Effect :=
  if numEstablished ≠ 0 then (e, [])
  else
    match e.driveNameByPeer env peer with
    | none => (e, [])
    | some name =>
      let e := e.modifyDrive name fun rt => { rt with
        handshaken := false
        inFlight := ∅
        status := if rt.drive.paused then .paused else .connecting }
      (e, [setStatus name ((e.drives[name]?.map DriveRuntime.status).getD .connecting)
        (some "reconnecting")])

/-- A request could not be delivered; it will be retried. -/
def onOutboundFailure (env : Env) (e : Engine) (peer : PeerId) : Engine × List Effect :=
  match e.driveNameByPeer env peer with
  | none => (e, [])
  | some name =>
    if e.drives[name]?.any fun rt => rt.status == .paused then (e, [])
    else
      (e.modifyDrive name fun rt => { rt with status := .connecting },
        [setStatus name .connecting (some "request failed (will retry)")])

/-- One turn of the loop. -/
def turn (env : Env) (e : Engine) : Input → Engine × List Effect
  | .store ev => ({ e with store := e.store.exec ev }, [])
  | .cmd c => handleCmd env e c
  | .tick lastActivity => tick env e lastActivity
  | .outbound =>
    match e.store.outboundFeed with
    | some (a :: rest) =>
      publishAction { e with store := { e.store with outboundFeed := some rest } } a
    | _ => (e, [])
  | .newListenAddr addr =>
    if e.identitySent then (e, [])
    else ({ e with identitySent := true }, [.event (.identity e.peerId addr)])
  | .connectionEstablished peer =>
    let (e, out) := onConnectionEstablished env e peer
    (e, .event (.peerConnected peer) :: out)
  | .connectionClosed peer numEstablished => onConnectionClosed env e peer numEstablished
  | .gossip source msg => (applyRemoteAction env e source msg.action).1
  | .request peer msg => serveRequest env e peer msg
  | .response peer id msg => onResponse env e peer id msg
  | .outboundFailure peer => onOutboundFailure env e peer

/-- An operation of the daemon on the shared store. -/
def Input.ofStore : Input → Bool
  | .store _ => true
  | _ => false

/-- Once shut down, the engine does nothing; the store goes on. -/
def step (e : Engine) (x : Env × Input) : Engine × List Effect :=
  if e.running || x.2.ofStore then turn x.1 e x.2 else (e, [])

def machine : Lib.Machine Engine (Env × Input) Effect := ⟨step⟩

end Engine

end PhReactor
