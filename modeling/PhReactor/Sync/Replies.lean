/-
  Replies reveal only what a peer may READ.

  Two nodes side by side, of one identity and in the same state outside the store, whose stores
  agree on what the peer `p` may read: on WHICH documents these are, on their entries, and on the
  pinned keys (`Alike p`).  About every other document they may differ in any way.

  1. The handlers of `Hello`, `Summary` and `CatchUp` look at the store in four places: the signing
     key, the pinned keys, `summary_for` with the names of its documents, and `catch_up` behind
     the gate.  Each gives the same on both sides.

  2. They change the store by pinning keys only.  So the two nodes stay alike, and the whole
     sequence of replies is the same (`replies_reveal_only_readable`).
-/
import PhReactor.Sync.Engine
import PhReactor.Sample

set_option linter.unusedSectionVars false

namespace PhReactor

section

variable [Primitives]

/-! ## Stores that agree on what a peer may read -/

/-- Same identity and pinned keys, and the same documents readable by `p`, with the same entries. -/
structure StoreAlike (p : PeerId) (s s' : Inner) : Prop where
  key : s'.key = s.key
  knownKeys : s'.knownKeys = s.knownKeys
  readable : ∀ d, Store.mayPeerRead s' p d = Store.mayPeerRead s p d
  entries : ∀ d, Store.mayPeerRead s p d = true → s'.entries[d]? = s.entries[d]?

namespace StoreAlike

variable {p : PeerId} {s s' : Inner}

theorem summaryFor_eq (h : StoreAlike p s s') : Store.summaryFor s' p = Store.summaryFor s p := by
  refine Std.ExtTreeMap.ext_getElem? fun {d} => ?_
  unfold Store.summaryFor Store.summary
  rw [Std.ExtTreeMap.getElem?_filter', Std.ExtTreeMap.getElem?_filter',
    Std.ExtTreeMap.getElem?_map, Std.ExtTreeMap.getElem?_map, h.readable d]
  cases hread : Store.mayPeerRead s p d with
  | true => rw [h.entries d hread]
  | false => simp

theorem docName_eq (h : StoreAlike p s s') {d : DocId} (hd : Store.mayPeerRead s p d = true) :
    Store.docName s' d = Store.docName s d := by
  unfold Store.docName
  rw [h.entries d hd]

theorem serveCatchUp_eq (h : StoreAlike p s s') (d : DocId) (have_ : VecClock) :
    serveCatchUp s' p d have_ = serveCatchUp s p d have_ := by
  unfold serveCatchUp
  rw [h.readable d]
  split
  · next hread =>
    unfold catchUpPage Store.catchUp Store.fullState
    rw [h.entries d hread]
  · rfl

/-- Pinning a key succeeds or fails on both sides, and leaves them alike. -/
theorem registerPeerKey (h : StoreAlike p s s') (origin : Origin) (key : PublicKey) :
    ∃ t t' r, Store.registerPeerKey s origin key = (t, r) ∧
      Store.registerPeerKey s' origin key = (t', r) ∧ StoreAlike p t t' := by
  unfold Store.registerPeerKey
  rw [h.knownKeys]
  split
  · split
    · exact ⟨s, s', .ok (), rfl, rfl, h⟩
    · exact ⟨s, s', .error _, rfl, rfl, h⟩
  · exact ⟨_, _, .ok (), rfl, rfl, h.key, rfl, h.readable, h.entries⟩

end StoreAlike

theorem mayPeerRead_of_mem_summaryFor {s : Inner} {p : PeerId} {d : DocId} {c : VecClock}
    (h : (d, c) ∈ (Store.summaryFor s p).toList) : Store.mayPeerRead s p d = true := by
  have hget := Lib.mem_toList.mp h
  unfold Store.summaryFor at hget
  rw [Std.ExtTreeMap.getElem?_filter'] at hget
  exact (Option.filter_eq_some_iff.mp hget).2

namespace Engine

/-! ## Engines that agree on what a peer may read -/

/-- The same engine, over stores that agree on what `p` may read. -/
structure Alike (p : PeerId) (e e' : Engine) : Prop where
  outside : e' = { e with store := e'.store }
  store : StoreAlike p e.store e'.store

theorem Alike.eq_with {p : PeerId} {e e' : Engine} (h : Alike p e e') :
    ∃ s', StoreAlike p e.store s' ∧ e' = { e with store := s' } := ⟨_, h.store, h.outside⟩

/-- Two turns that end alike, with the same effects. -/
structure SameTurn (p : PeerId) (t t' : Engine × List Effect) : Prop where
  alike : Alike p t.1 t'.1
  effects : t'.2 = t.2

/-- Two passes through a gate of the handshake that end alike, with the same effects and the same
    verdict. -/
def SameGate (p : PeerId) (r r' : (Engine × List Effect) × Option HelloError) : Prop :=
  ∃ e e' out err, r = ((e, out), err) ∧ r' = ((e', out), err) ∧ Alike p e e'

section

variable {p : PeerId} {e e' : Engine}

theorem sameTurn_openHandshake (h : Alike p e e') (name : String) :
    SameTurn p (e.openHandshake name) (e'.openHandshake name) := by
  obtain ⟨s', hs, rfl⟩ := h.eq_with
  unfold openHandshake
  dsimp only
  rw [hs.key]
  split
  · exact ⟨h, rfl⟩
  · split
    · exact ⟨h, rfl⟩
    · split
      · exact ⟨h, rfl⟩
      · exact ⟨⟨rfl, hs⟩, rfl⟩

theorem sameTurn_finishGuest (h : Alike p e e') (env : Env) (name : String) (peer : PeerId) :
    SameTurn p (finishGuest env e name peer) (finishGuest env e' name peer) := by
  obtain ⟨s', hs, rfl⟩ := h.eq_with
  unfold finishGuest
  dsimp only
  split
  · exact ⟨⟨rfl, hs⟩, rfl⟩
  · exact ⟨h, rfl⟩

theorem sameTurn_openIfConnected (h : Alike p e e') (env : Env) (name : String) (peer : PeerId) :
    SameTurn p (openIfConnected env e name peer) (openIfConnected env e' name peer) := by
  have hopen := sameTurn_openHandshake h name
  obtain ⟨s', hs, rfl⟩ := h.eq_with
  unfold openIfConnected
  dsimp only
  split
  · exact hopen
  · exact ⟨h, rfl⟩

theorem sameTurn_addDriveInternal (h : Alike p e e') (env : Env) (drive : Drive) :
    SameTurn p (addDriveInternal env e drive) (addDriveInternal env e' drive) := by
  obtain ⟨s', hs, rfl⟩ := h.eq_with
  unfold addDriveInternal
  dsimp only
  split
  · exact ⟨⟨rfl, hs⟩, rfl⟩
  · generalize hnew : DriveRuntime.mk drive _ _ _ _ _ _ _ _ = new
    have hadd : Alike p { e with drives := e.drives.insert drive.name new }
        { e with store := s', drives := e.drives.insert drive.name new } := ⟨rfl, hs⟩
    have hguest := sameTurn_finishGuest hadd env drive.name (drive.peerId.getD env.randomPeer)
    have hopen := sameTurn_openIfConnected hguest.alike env drive.name
      (drive.peerId.getD env.randomPeer)
    refine ⟨hopen.alike, ?_⟩
    dsimp only
    rw [hguest.effects, hopen.effects]

theorem sameTurn_handleInviteAccept (h : Alike p e e') (env : Env) (peer : PeerId)
    (accept : InviteAccept) : SameTurn p (handleInviteAccept env e peer accept)
      (handleInviteAccept env e' peer accept) := by
  obtain ⟨s', hs, rfl⟩ := h.eq_with
  unfold handleInviteAccept
  dsimp only
  split
  · exact ⟨h, rfl⟩
  · split
    · exact ⟨h, rfl⟩
    · obtain ⟨t, t', r, hreg, hreg', hnext⟩ := hs.registerPeerKey accept.peerId accept.key
      rw [hreg, hreg']
      cases r with
      | error msg => exact ⟨h, rfl⟩
      | ok u =>
        have halike : Alike p { e with store := t } { e with store := t' } := ⟨rfl, hnext⟩
        have hadd := sameTurn_addDriveInternal halike env (joinerDrive peer accept)
        refine ⟨hadd.alike, ?_⟩
        dsimp only
        rw [hadd.effects]

theorem sameTurn_acceptInvite (h : Alike p e e') (env : Env) (peer : PeerId)
    (accept : Option InviteAccept) :
    SameTurn p (acceptInvite env e peer accept) (acceptInvite env e' peer accept) := by
  cases accept with
  | some accept => exact sameTurn_handleInviteAccept h env peer accept
  | none => exact ⟨h, rfl⟩

/-- The token gate does not look at the store. -/
theorem sameGate_tokenGate (h : Alike p e e') (env : Env) (peer : PeerId)
    (token : Option String) :
    SameGate p (tokenGate env e peer token) (tokenGate env e' peer token) := by
  obtain ⟨s', hs, rfl⟩ := h.eq_with
  unfold tokenGate
  dsimp only
  split
  · exact ⟨_, _, [], none, rfl, rfl, h⟩
  · split
    · exact ⟨_, _, [], none, rfl, rfl, h⟩
    · have hcount : failureCount env { e with store := s' } peer = failureCount env e peer := rfl
      unfold recordAuthFailure
      dsimp only
      rw [hcount]
      split
      · exact ⟨_, _, _, _, rfl, rfl, rfl, hs⟩
      · exact ⟨_, _, [], _, rfl, rfl, rfl, hs⟩
  · exact ⟨_, _, [], _, rfl, rfl, h⟩

theorem sameGate_pinGuest (h : Alike p e e') (out : List Effect) (peer : PeerId)
    (key : PublicKey) : SameGate p (pinGuest peer key (e, out)) (pinGuest peer key (e', out)) := by
  obtain ⟨s', hs, rfl⟩ := h.eq_with
  obtain ⟨t, t', r, hreg, hreg', hnext⟩ := hs.registerPeerKey peer key
  unfold pinGuest
  dsimp only
  rw [hreg, hreg']
  cases r with
  | error msg => exact ⟨_, _, out, _, rfl, rfl, rfl, hs⟩
  | ok u => exact ⟨_, _, out, none, rfl, rfl, rfl, hnext⟩

theorem sameGate_registerHello (h : Alike p e e') (env : Env) (peer : PeerId)
    (token : Option String) (key : PublicKey) :
    SameGate p (registerHello env e peer token key) (registerHello env e' peer token key) := by
  obtain ⟨s', hs, rfl⟩ := h.eq_with
  have hname : driveNameByPeer env { e with store := s' } peer = e.driveNameByPeer env peer := rfl
  unfold registerHello
  dsimp only
  rw [hname]
  split
  · exact sameGate_pinGuest h [] peer key
  · split
    · exact ⟨_, _, [], _, rfl, rfl, h⟩
    · exact sameGate_pinGuest ⟨rfl, hs⟩ _ peer key

theorem helloAck_eq (h : Alike p e e') : e'.helloAck p = e.helloAck p := by
  obtain ⟨s', hs, rfl⟩ := h.eq_with
  unfold helloAck
  dsimp only
  rw [hs.key, hs.summaryFor_eq]
  congr 1
  refine List.map_congr_left fun q hq => ?_
  rw [hs.docName_eq (mayPeerRead_of_mem_summaryFor hq)]

theorem sameTurn_serveHello (h : Alike p e e') (env : Env) (hello : Hello) :
    SameTurn p (serveHello env e p hello) (serveHello env e' p hello) := by
  have hjoin := sameTurn_acceptInvite h env p hello.accept
  have hbanned : e'.banned = e.banned := by rw [h.outside]
  unfold serveHello
  rw [hbanned]
  split
  · exact ⟨h, rfl⟩
  · split
    · exact ⟨h, rfl⟩
    · generalize acceptInvite env e p hello.accept = t at hjoin ⊢
      generalize acceptInvite env e' p hello.accept = t' at hjoin ⊢
      obtain ⟨e₁, joined⟩ := t
      obtain ⟨e₁', joined'⟩ := t'
      obtain ⟨h₁, rfl⟩ := hjoin
      obtain ⟨e₂, e₂', out, err, hgate, hgate', h₂⟩ := sameGate_tokenGate h₁ env p hello.token
      dsimp only at hgate hgate' ⊢
      rw [hgate, hgate']
      cases err with
      | some err => exact ⟨h₂, rfl⟩
      | none =>
        dsimp only
        split
        · rw [helloAck_eq h₂]
          exact ⟨h₂, rfl⟩
        · next key _ =>
          obtain ⟨e₃, e₃', out₃, err, hreg, hreg', h₃⟩ :=
            sameGate_registerHello h₂ env p hello.token key
          rw [hreg, hreg']
          cases err with
          | some err => exact ⟨h₃, rfl⟩
          | none =>
            dsimp only
            rw [helloAck_eq h₃]
            exact ⟨h₃, rfl⟩

theorem alike_noteSummary (h : Alike p e e') (env : Env) (clocks : List (DocId × VecClock)) :
    Alike p (e.noteSummary env p clocks) (e'.noteSummary env p clocks) := by
  obtain ⟨s', hs, rfl⟩ := h.eq_with
  have hname : driveNameByPeer env { e with store := s' } p = e.driveNameByPeer env p := rfl
  unfold noteSummary
  rw [hname]
  split
  · exact ⟨rfl, hs⟩
  · exact h

/-! ## Whole conversations -/

/-- The requests that are answered with documents. -/
inductive Ask where
  | hello (h : Hello)
  | summary (clocks : List (DocId × VecClock))
  | catchUp (c : CatchUp)

def Ask.msg : Ask → SyncMsg
  | .hello h => .hello h
  | .summary clocks => .summary clocks
  | .catchUp c => .catchUp c

/-- **One request**: the same reply, and the nodes stay alike. -/
theorem sameTurn_serveRequest (h : Alike p e e') (env : Env) (a : Ask) :
    SameTurn p (serveRequest env e p a.msg) (serveRequest env e' p a.msg) := by
  cases a with
  | hello hello => exact sameTurn_serveHello h env hello
  | summary clocks =>
    have hnote := alike_noteSummary h env clocks
    refine ⟨hnote, ?_⟩
    show [Effect.response p (.summaryAck (Store.summaryFor _ p).toList)] = [.response p _]
    rw [hnote.store.summaryFor_eq]
  | catchUp c =>
    obtain ⟨s', hs, rfl⟩ := h.eq_with
    show SameTurn p (serveRequest env e p (.catchUp c)) (serveRequest env _ p (.catchUp c))
    unfold serveRequest
    dsimp only
    rw [hs.serveCatchUp_eq, hs.readable]
    exact ⟨⟨rfl, hs⟩, rfl⟩

/-- A conversation of `p` with the node, one request after the other. -/
def conversation (p : PeerId) (asks : List (Env × Ask)) : List (Env × Input) :=
  asks.map fun x => (x.1, .request p x.2.msg)

/-- **Replies reveal only what a peer may read.**  Two nodes that are alike for `p` answer every
    conversation with `p` alike, whatever the documents are that `p` may not read. -/
theorem replies_reveal_only_readable {p : PeerId} {e e' : Engine} (h : Alike p e e')
    (asks : List (Env × Ask)) :
    machine.outputs e (conversation p asks) = machine.outputs e' (conversation p asks) := by
  refine machine.outputs_eq (R := Alike p) (fun e e' x hx h => ?_) h
  obtain ⟨⟨env, a⟩, -, rfl⟩ := List.mem_map.mp hx
  have hrunning : e'.running = e.running := by rw [h.outside]
  have hturn := sameTurn_serveRequest h env a
  show Alike p (e.step _).1 (e'.step _).1 ∧ (e.step _).2 = (e'.step _).2
  unfold step
  rw [hrunning]
  split
  · exact ⟨hturn.alike, hturn.effects.symm⟩
  · exact ⟨h, rfl⟩

end

end Engine

end

/-! ## A stranger asks -/

section

open Sample

attribute [local instance] Sample.primitives

namespace Engine

/-- A document of alice's in no space. -/
def noteCreate : Action :=
  act alice "open" "create" (Store.setPayload "__name__" (.string "note")) 4 [("alice", 1)] none

/-- Alice's store with the note, -/
def noteStore : Inner := (Store.fresh alice.key alice.name []).exec (.applyAction Io.ok noteCreate)

/-- and with a protected space besides. -/
def clubStore : Inner := noteStore.exec (.applyAction Io.ok spaceInit)

/-- Alice's engine. -/
def aliceOver (s : Inner) : Engine := Engine.new s alice.name "alice's node" none ∅ ∅

/-- Nobody is connected, and all files are written. -/
def calmEnv : Env where
  now := 0
  order := id
  order_perm := fun _ => .refl _
  connected := fun _ => false
  randomPeer := ""
  io := fun _ _ => Io.ok
  chunkIo := true

def malloryHello : Hello where
  version := protocolVersion
  name := "mallory's node"
  peerId := mallory.name
  pubkey := hexEncode (beBytes 32 mallory.key)
  token := none
  accept := none

theorem mayPeerRead_of_none {s : Inner} {d : DocId} (h : s.entries[d]? = none) (p : Origin) :
    Store.mayPeerRead s p d = false := by
  unfold Store.mayPeerRead
  rw [h]

/-- Mallory, who is no member, may read the note in both and nothing else in either. -/
theorem stores_alike : StoreAlike mallory.name noteStore clubStore := by
  have hfacts : noteStore.entries.keys = [docId] ∧ clubStore.entries.keys = [docId, spaceId] ∧
      Store.mayPeerRead noteStore mallory.name docId = true ∧
      Store.mayPeerRead clubStore mallory.name docId = true ∧
      Store.mayPeerRead clubStore mallory.name spaceId = false := by
    decide +kernel
  obtain ⟨hkeys, hkeys', hnote, hnote', hclub⟩ := hfacts
  have habsent : ∀ (s : Inner) (d : DocId), d ∉ s.entries.keys → s.entries[d]? = none := by
    intro s d hd
    rw [Std.ExtTreeMap.mem_keys] at hd
    exact Std.ExtTreeMap.getElem?_eq_none hd
  have hother : ∀ d, d ≠ docId → Store.mayPeerRead noteStore mallory.name d = false := by
    intro d hd
    refine mayPeerRead_of_none (habsent _ d ?_) _
    rw [hkeys, List.mem_singleton]
    exact hd
  have hother' : ∀ d, d ≠ docId → Store.mayPeerRead clubStore mallory.name d = false := by
    intro d hd
    by_cases hs : d = spaceId
    · rw [hs]
      exact hclub
    · refine mayPeerRead_of_none (habsent _ d ?_) _
      rw [hkeys']
      simp [hd, hs]
  have hsetup := noteStore.sameSetup_applyAction Io.ok spaceInit
  refine ⟨hsetup.key, hsetup.knownKeys, fun d => ?_, fun d hd => ?_⟩
  · by_cases hdoc : d = docId
    · rw [hdoc, hnote, hnote']
    · rw [hother d hdoc, hother' d hdoc]
  · -- what is readable is the note, which the space leaves alone
    obtain rfl : d = docId := by
      by_contra hdoc
      rw [hother d hdoc] at hd
      exact nomatch hd
    have hstep := docStep_applyAction noteStore Io.ok spaceInit docId
    show ((noteStore.applyAction Io.ok spaceInit).1.view docId).entry = noteStore.entries[docId]?
    generalize (noteStore.applyAction Io.ok spaceInit).1.view docId = v at hstep ⊢
    cases hstep with
    | stay hno => rfl
    | created sp hnew hno =>
      rw [mayPeerRead_of_none hnew] at hnote
      exact nomatch hnote
    | accepted hdoc hacc => exact absurd hdoc (by decide)
    | stuck hdoc hacc hres => exact absurd hdoc (by decide)

/-- Mallory greets, asks what there is, and asks for the note and for the space. -/
def strangerAsks : List (Env × Ask) :=
  [(calmEnv, .hello malloryHello), (calmEnv, .summary []),
    (calmEnv, .catchUp ⟨docId, VecClock.empty⟩), (calmEnv, .catchUp ⟨spaceId, VecClock.empty⟩)]

/-- The space is there in one of the two only, and mallory cannot tell which. -/
theorem replies_reveal_only_readable_stranger :
    noteStore.entries.contains spaceId = false ∧ clubStore.entries.contains spaceId = true ∧
      machine.outputs (aliceOver noteStore) (conversation mallory.name strangerAsks) =
        machine.outputs (aliceOver clubStore) (conversation mallory.name strangerAsks) := by
  have hdiffer : noteStore.entries.contains spaceId = false ∧
      clubStore.entries.contains spaceId = true := by
    decide +kernel
  exact ⟨hdiffer.1, hdiffer.2, replies_reveal_only_readable ⟨rfl, stores_alike⟩ strangerAsks⟩

end Engine

end

end PhReactor
