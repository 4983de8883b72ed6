/-
  What a turn makes of ONE drive.

  The runtime of a drive has bookkeeping (what is in flight, when it is asked next, when it was last
  seen, the join-proof of its next hello) and the rest, which it `shown`s: the drive with its flag,
  its peer, the handshake, the clocks it has reported and its status.

  1. `adds` are the turns that register the drive, new or anew.  They start from nothing.

  2. `after` is what any other turn makes of the runtime, up to bookkeeping, input by input.  It is
     a function of the runtime and of what the handler looks up: who the peer's drive is, whether
     the hello is let in, whether the key is pinned.

  3. `drive_turn` says so of the engine.  The handlers are opened here once, and what holds of one
     drive in every turn is a statement about `after`.
-/
import PhReactor.Sync.Handshake

set_option linter.unusedSectionVars false

namespace PhReactor

namespace Engine

section

variable [Primitives]

/-- A drive whose hello is replied to: a handshake that was open is completed, and the reply's
    clocks are remembered. -/
def answered (env : Env) (ack : HelloAck) (rt : DriveRuntime) : DriveRuntime :=
  let rt :=
    if rt.handshaken then rt
    else { rt with
      handshaken := true
      lastSeen := env.now
      remoteClocks := ∅
      status := .connecting }
  { rt with
    remoteClocks := rememberClocks rt.remoteClocks (ack.docs.map fun d => (d.id, d.clock)) }

/-- The input registers the drive. -/
def adds (e : Engine) (name : String) : Input → Bool
  | .cmd (.addDrive drive) => drive.name == name
  | .cmd (.join drive _) => drive.name == name
  | .request peer (.hello h) => !e.banned.contains peer && h.version == protocolVersion &&
    h.accept.any fun a => e.takes peer a && (joinerDrive peer a).name == name
  | _ => false

/-- The hello of a peer is taken for the drive's. -/
def GreetsAs (env : Env) (e : Engine) (name : String) (peer : PeerId) (h : Hello) : Prop :=
  Admitted e peer h ∧ e.tokenOk h.token = true ∧ (pubkeyOfHex h.pubkey).isSome = true ∧
    wantsToken env (acceptInvite env e peer h.accept).1 peer h.token = false ∧
    (acceptInvite env e peer h.accept).1.driveNameByPeer env peer = some name

instance (env : Env) (e : Engine) (name : String) (peer : PeerId) (h : Hello) :
    Decidable (GreetsAs env e name peer h) :=
  inferInstanceAs (Decidable ((e.banned.contains peer = false ∧ h.version = protocolVersion) ∧
    e.tokenOk h.token = true ∧ (pubkeyOfHex h.pubkey).isSome = true ∧
    wantsToken env (acceptInvite env e peer h.accept).1 peer h.token = false ∧
    (acceptInvite env e peer h.accept).1.driveNameByPeer env peer = some name))

/-- The clock that a catch-up reply leaves for its document. -/
def lastClock (ack : CatchUpAck) (remote : Std.ExtTreeMap DocId VecClock) :
    Std.ExtTreeMap DocId VecClock :=
  match ack.actions.getLast? with
  | some a => remote.insert ack.docId a.clock
  | none => remote

/-- The catch-up reply to request `id` is taken for the end of the exchange. -/
def finishes (ack : CatchUpAck) (id : ℕ) (rt : DriveRuntime) : Bool :=
  !ack.more && (rt.inFlight.erase id).isEmpty && rt.status != .paused

/-- What a response to the drive's request `id` makes of it. -/
def afterResponse (env : Env) (e : Engine) (peer : PeerId) (id : ℕ) (rt : DriveRuntime) :
    SyncMsg → DriveRuntime
  | .helloAck ack =>
    if (e.pinResponder peer ack.pubkey).2.isOk then answered env ack rt else rt
  | .helloErr err => { rt with status := (refusal err).1 }
  | .catchUpAck ack => { rt with
      remoteClocks := lastClock ack rt.remoteClocks
      status := if finishes ack id rt then .synced else rt.status }
  | .summaryAck clocks => { rt with remoteClocks := rememberClocks rt.remoteClocks clocks }
  | _ => rt

/-- What a turn makes of a drive it does not register, up to bookkeeping. -/
def after (env : Env) (e : Engine) (name : String) (rt : DriveRuntime) : Input → DriveRuntime
  | .cmd (.setPaused n paused) =>
    if n = name then { rt with
      drive := { rt.drive with paused := paused }
      status := if paused then .paused else .connecting }
    else rt
  | .tick _ =>
    if name ∈ (e.dueDrives env).map Prod.fst ∧ rt.status = .connecting then
      { rt with status := .synced }
    else rt
  | .connectionClosed peer numEstablished =>
    if numEstablished = 0 ∧ e.driveNameByPeer env peer = some name then { rt with
      handshaken := false
      status := if rt.drive.paused then .paused else .connecting }
    else rt
  | .request peer (.hello h) => if GreetsAs env e name peer h then rt.greeted env else rt
  | .request peer (.summary clocks) =>
    if e.driveNameByPeer env peer = some name then
      { rt with remoteClocks := rememberClocks rt.remoteClocks clocks }
    else rt
  | .response peer id msg =>
    if e.driveNameByPeer env peer = some name then afterResponse env e peer id rt msg else rt
  | .outboundFailure peer =>
    if e.driveNameByPeer env peer = some name ∧ rt.status ≠ .paused then
      { rt with status := .connecting }
    else rt
  | _ => rt

/-- What the drive of this name shows, if there is one. -/
def shows (e : Engine) (name : String) :
    Option (Drive × PeerId × Bool × Std.ExtTreeMap DocId VecClock × DriveStatus) :=
  e.drives[name]?.map DriveRuntime.shown

variable {env : Env} {e : Engine} {name : String}

/-! ## Updates -/

theorem shows_of_getElem? {e e' : Engine} (h : e'.drives[name]? = e.drives[name]?) :
    e'.shows name = e.shows name :=
  congrArg (Option.map DriveRuntime.shown) h

theorem shows_of_same {e e' : Engine} (h : e'.drives = e.drives) : e'.shows name = e.shows name :=
  shows_of_getElem? (by rw [h])

/-- An update that is bookkeeping only. -/
theorem shows_modifyDrive {n : String} {f : DriveRuntime → DriveRuntime}
    (hf : ∀ rt, (f rt).shown = rt.shown) : (e.modifyDrive n f).shows name = e.shows name := by
  unfold shows
  rw [getElem?_modifyDrive]
  split
  · rw [Option.map_map, show DriveRuntime.shown ∘ f = DriveRuntime.shown from funext hf]
  · rfl

/-- An update of the drive that is found for a peer. -/
theorem shows_modifyFound {n : String} {f : DriveRuntime → DriveRuntime} :
    (e.modifyDrive n f).shows name =
      e.drives[name]?.map fun rt => (if some n = some name then f rt else rt).shown := by
  unfold shows
  rw [getElem?_modifyDrive]
  by_cases h : n = name
  · subst h
    rw [if_pos rfl, Option.map_map]
    simp only
    rfl
  · rw [if_neg h]
    simp only [Option.some.injEq, if_neg h]

/-! ## Registering other drives -/

theorem shows_openHandshake (n : String) : (e.openHandshake n).1.shows name = e.shows name := by
  unfold openHandshake
  cases e.drives[n]? with
  | none => rfl
  | some rt =>
    dsimp only
    split
    · rfl
    · split
      · rfl
      · exact shows_modifyDrive (f := fun rt => { rt with accept := none }) fun _ => rfl

/-- A drive that is added is no other drive. -/
theorem getElem?_addDriveInternal (env : Env) (e : Engine) {drive : Drive}
    (hne : drive.name ≠ name) :
    (addDriveInternal env e drive).1.drives[name]? = e.drives[name]? := by
  have hmodify : ∀ (e' : Engine) (f : DriveRuntime → DriveRuntime),
      (e'.modifyDrive drive.name f).drives[name]? = e'.drives[name]? := by
    intro e' f
    rw [getElem?_modifyDrive, if_neg hne]
  have hguest : ∀ (e' : Engine) (peer : PeerId),
      (finishGuest env e' drive.name peer).1.drives[name]? = e'.drives[name]? := by
    intro e' peer
    unfold finishGuest
    split
    · exact hmodify e' _
    · rfl
  have hopen : ∀ (e' : Engine) (peer : PeerId),
      (openIfConnected env e' drive.name peer).1.drives[name]? = e'.drives[name]? := by
    intro e' peer
    unfold openIfConnected
    split
    · unfold openHandshake
      cases e'.drives[drive.name]? with
      | none => rfl
      | some rt =>
        dsimp only
        split
        · rfl
        · split
          · rfl
          · exact hmodify e' _
    · rfl
  have hinsert : ∀ new : DriveRuntime,
      (e.drives.insert drive.name new)[name]? = e.drives[name]? := by
    intro new
    rw [Std.ExtTreeMap.getElem?_insert, if_neg fun hc => hne (Std.compare_eq_iff_eq.mp hc)]
  unfold addDriveInternal
  dsimp only
  split
  · exact hinsert _
  · exact (hopen _ _).trans ((hguest _ _).trans (hinsert _))

/-- The join-proof of a hello adds no drive of this name. -/
theorem getElem?_acceptInvite (env : Env) {peer : PeerId} {h : Hello} (hadm : Admitted e peer h)
    (hadds : adds e name (.request peer (.hello h)) = false) :
    (acceptInvite env e peer h.accept).1.drives[name]? = e.drives[name]? := by
  cases haccept : h.accept with
  | none => rfl
  | some a =>
    show (handleInviteAccept env e peer a).1.drives[name]? = _
    cases ht : e.takes peer a with
    | false => rw [handleInviteAccept_ignored ht]
    | true =>
      have hne : (joinerDrive peer a).name ≠ name := by
        intro heq
        simp [adds, hadm.1, hadm.2, haccept, ht, heq] at hadds
      unfold handleInviteAccept
      split
      · rfl
      · split
        · rfl
        · split
          · rfl
          · exact getElem?_addDriveInternal env _ hne

/-! ## The handlers -/

theorem shows_greet (peer : PeerId) : (greet env e peer).1.shows name = e.drives[name]?.map
    fun rt => (if e.driveNameByPeer env peer = some name then rt.greeted env else rt).shown := by
  unfold greet
  cases e.driveNameByPeer env peer with
  | none => rfl
  | some n => exact shows_modifyFound

/-- A hello leaves the drive as it is, or greets it. -/
theorem shows_serveHello {peer : PeerId} {h : Hello}
    (hadds : adds e name (.request peer (.hello h)) = false) :
    (serveHello env e peer h).1.shows name = e.drives[name]?.map
      fun rt => (if GreetsAs env e name peer h then rt.greeted env else rt).shown := by
  have hrun := serveHello_run env e peer h
  generalize serveHello env e peer h = t at hrun ⊢
  -- the gates that are closed to it
  have hstays : ¬ GreetsAs env e name peer h → e.drives[name]?.map
      (fun rt => (if GreetsAs env e name peer h then rt.greeted env else rt).shown) =
        e.shows name := by
    intro hno
    simp only [if_neg hno]
    rfl
  have hgreet : Admitted e peer h → e.tokenOk h.token = true →
      (pubkeyOfHex h.pubkey).isSome = true →
      wantsToken env (acceptInvite env e peer h.accept).1 peer h.token = false →
      (greet env (acceptInvite env e peer h.accept).1 peer).1.shows name = e.drives[name]?.map
        fun rt => (if GreetsAs env e name peer h then rt.greeted env else rt).shown := by
    intro hadm htok hkey hwants
    have hiff : GreetsAs env e name peer h ↔
        (acceptInvite env e peer h.accept).1.driveNameByPeer env peer = some name :=
      ⟨fun hg => hg.2.2.2.2, fun hname => ⟨hadm, htok, hkey, hwants, hname⟩⟩
    rw [shows_greet, getElem?_acceptInvite env hadm hadds]
    simp only [hiff]
  cases hrun with
  | shut hno => rw [hstays fun hg => hno hg.1]
  | badToken hadm htok _ =>
    rw [hstays fun hg => by rw [hg.2.1] at htok; cases htok]
    exact shows_of_getElem? (getElem?_acceptInvite env hadm hadds)
  | keyless hadm _ hkey =>
    rw [hstays fun hg => absurd hg.2.2.1 (by rw [hkey]; exact Bool.false_ne_true)]
    exact shows_of_getElem? (getElem?_acceptInvite env hadm hadds)
  | authRequired hadm _ _ hwants =>
    rw [hstays fun hg => by rw [hg.2.2.2.1] at hwants; cases hwants]
    exact shows_of_getElem? (getElem?_acceptInvite env hadm hadds)
  | passed hadm htok hkey hwants ht _ =>
    rw [← hgreet hadm htok (by rw [hkey]; rfl) hwants, ← ht]
    rfl
  | mismatch hadm htok hkey hwants ht =>
    rw [← hgreet hadm htok (by rw [hkey]; rfl) hwants, ← ht]
    rfl

theorem shows_sendCatchUp (n : String) (peer : PeerId) (gap : DocId × VecClock) :
    (sendCatchUp n peer e gap).1.shows name = e.shows name :=
  shows_modifyDrive (f := fun rt => { rt with inFlight := rt.inFlight.insert e.nextRequest })
    fun _ => rfl

theorem shows_sendAll (n : String) (peer : PeerId) (l : List (DocId × VecClock)) :
    (Lib.sweep (sendCatchUp n peer) e l).1.shows name = e.shows name :=
  (Lib.sweep_spec (I := fun e' : Engine => e'.shows name = e.shows name) (P := fun _ => True)
    (fun _ _ _ he' => ⟨(shows_sendCatchUp _ _ _).trans he', fun _ _ => trivial⟩) rfl).1

/-- A connecting drive shows that it is synced. -/
def syncedShown (s : Drive × PeerId × Bool × Std.ExtTreeMap DocId VecClock × DriveStatus) :
    Drive × PeerId × Bool × Std.ExtTreeMap DocId VecClock × DriveStatus :=
  if s.2.2.2.2 = .connecting then (s.1, s.2.1, s.2.2.1, s.2.2.2.1, .synced) else s

theorem syncedShown_twice
    (s : Drive × PeerId × Bool × Std.ExtTreeMap DocId VecClock × DriveStatus) :
    syncedShown (syncedShown s) = syncedShown s := by
  by_cases h : s.2.2.2.2 = .connecting
  · rw [show syncedShown s = (s.1, s.2.1, s.2.2.1, s.2.2.2.1, .synced) from if_pos h]
    rfl
  · rw [show syncedShown s = s from if_neg h, show syncedShown s = s from if_neg h]

theorem shows_summarizeDrive (own : Std.ExtTreeMap DocId VecClock) (due : String × DriveRuntime) :
    (summarizeDrive own e due).1.shows name =
      if due.1 = name then (e.shows name).map syncedShown else e.shows name := by
  unfold summarizeDrive
  dsimp only
  cases hrt : (e.sendRequest due.2.peer (.summary own.toList)).1.drives[due.1]? with
  | none =>
    dsimp only
    split
    · next hname =>
      rw [← hname, show e.shows due.1 = none from congrArg (Option.map DriveRuntime.shown) hrt]
      exact congrArg (Option.map DriveRuntime.shown) hrt
    · rfl
  | some rt =>
    have hshows : e.shows due.1 = some rt.shown := congrArg (Option.map DriveRuntime.shown) hrt
    by_cases hname : due.1 = name
    · rw [if_pos hname, ← hname, hshows, Option.map_some]
      by_cases hstatus : rt.status = .connecting
      · rw [show syncedShown rt.shown = _ from if_pos hstatus]
        dsimp only
        rw [if_pos hstatus]
        unfold shows
        rw [getElem?_modifyDrive, if_pos rfl, hrt]
        rfl
      · rw [show syncedShown rt.shown = _ from if_neg hstatus]
        dsimp only
        rw [if_neg hstatus]
        exact hshows
    · rw [if_neg hname]
      dsimp only
      split
      · unfold shows
        rw [getElem?_modifyDrive, if_neg hname]
        rfl
      · rfl

/-- Being reported twice is being reported once. -/
theorem shows_summarizeAll (own : Std.ExtTreeMap DocId VecClock)
    (l : List (String × DriveRuntime)) : ∀ e : Engine,
    (Lib.sweep (summarizeDrive own) e l).1.shows name =
      if name ∈ l.map Prod.fst then (e.shows name).map syncedShown else e.shows name := by
  induction l with
  | nil => exact fun _ => rfl
  | cons due rest ih =>
    intro e
    show (Lib.sweep (summarizeDrive own) (summarizeDrive own e due).1 rest).1.shows name = _
    rw [ih, shows_summarizeDrive, List.map_cons]
    by_cases hfirst : due.1 = name
    · rw [if_pos hfirst, Option.map_map,
        show syncedShown ∘ syncedShown = syncedShown from funext syncedShown_twice, ite_self,
        if_pos (List.mem_cons.mpr (Or.inl hfirst.symm))]
    · have hmem : name ∈ due.1 :: rest.map Prod.fst ↔ name ∈ rest.map Prod.fst := by
        rw [List.mem_cons]
        exact or_iff_right fun h => hfirst h.symm
      rw [if_neg hfirst]
      simp only [hmem]

/-- Asking is bookkeeping. -/
theorem shows_askAll (own : Std.ExtTreeMap DocId VecClock) (l : List (String × DriveRuntime))
    (e : Engine) : (Lib.sweep (catchUpDrive env own) e l).1.shows name = e.shows name := by
  refine (Lib.sweep_spec (I := fun e' : Engine => e'.shows name = e.shows name)
    (P := fun _ => True) (fun e' due _ he' => ⟨?_, fun _ _ => trivial⟩) rfl).1
  exact ((shows_sendAll _ _ _).trans (shows_modifyDrive (by exact fun _ => rfl))).trans he'

theorem shows_tick (lastActivity : ℕ) : (tick env e lastActivity).1.shows name =
    e.drives[name]?.map fun rt => (after env e name rt (.tick lastActivity)).shown := by
  obtain ⟨hdrives, -, hdue⟩ := exchange_reads env e lastActivity
  have hexchange : ((e.drainQueue.1.noteIdle env lastActivity).exchange env).1.shows name =
      if name ∈ (e.dueDrives env).map Prod.fst then (e.shows name).map syncedShown
      else e.shows name := by
    show (Lib.sweep (summarizeDrive _) _ ((e.drainQueue.1.noteIdle env
      lastActivity).dueDrives env)).1.shows name = _
    rw [shows_summarizeAll, shows_askAll, hdue, shows_of_same hdrives]
  refine hexchange.trans ?_
  unfold shows after
  dsimp only
  cases e.drives[name]? with
  | none =>
    rw [Option.map_none, Option.map_none, ite_self]
    rfl
  | some rt =>
    rw [Option.map_some, Option.map_some, Option.map_some]
    by_cases hdue : name ∈ (e.dueDrives env).map Prod.fst
    · rw [if_pos hdue]
      by_cases hstatus : rt.status = .connecting
      · rw [show syncedShown rt.shown = _ from if_pos hstatus, if_pos ⟨hdue, hstatus⟩]
        rfl
      · rw [show syncedShown rt.shown = _ from if_neg hstatus, if_neg fun h => hstatus h.2]
    · rw [if_neg hdue, if_neg fun h => hdue h.1]

theorem drives_onModelDef (peer : PeerId) (ref : ModelRef) (def_ : Option Value) :
    (onModelDef env e peer ref def_).1.drives = e.drives := by
  unfold onModelDef
  split
  · rfl
  · split
    · rfl
    · split
      · rfl
      · split
        · rfl
        · exact drives_applyRemoteActions env _ _ _

/-- A hello's reply, to a drive that is there. -/
theorem shows_onHelloAck {n : String} {peer : PeerId} {ack : HelloAck} :
    (onHelloAck env e n peer ack).1.shows name = e.drives[name]?.map fun rt =>
      (if some n = some name ∧ (e.pinResponder peer ack.pubkey).2.isOk = true then
        answered env ack rt else rt).shown := by
  unfold onHelloAck
  cases hpin : e.pinResponder peer ack.pubkey with
  | mk store r =>
    cases r with
    | error msg =>
      dsimp only
      simp only [Except.isOk, Except.toBool, Bool.false_eq_true, and_false, if_false]
      rfl
    | ok u =>
      dsimp only
      simp only [Except.isOk, Except.toBool, and_true]
      rw [shows_sendAll]
      exact shows_modifyFound (e := { e with store := store })

/-- A catch-up reply. -/
theorem shows_onCatchUpAck {n : String} {peer : PeerId} {ack : CatchUpAck} :
    (onCatchUpAck env e n peer ack).1.shows name = e.drives[name]?.map fun rt =>
      (if some n = some name then { rt with
        remoteClocks := lastClock ack rt.remoteClocks
        status := if !ack.more && rt.inFlight.isEmpty && rt.status != .paused then .synced
          else rt.status }
      else rt).shown := by
  have hdrives := drives_applyRemoteActions env (some peer) ack.actions e
  unfold onCatchUpAck
  dsimp only
  generalize (applyRemoteActions env (some peer) e ack.actions).1.1 = e₁ at hdrives ⊢
  have hget : (e₁.noteLastClock env n ack).drives[name]? = if n = name then
      e.drives[name]?.map fun rt => { rt with
        remoteClocks := lastClock ack rt.remoteClocks
        lastSeen := env.now }
      else e.drives[name]? := by
    have hkeep : (e₁.noteLastClock env n ack).drives[name]? = _ := getElem?_modifyDrive _ _ _ _
    rw [hdrives] at hkeep
    exact hkeep
  by_cases hname : n = name
  · subst hname
    rw [if_pos rfl] at hget
    rw [hget]
    cases hrt : e.drives[n]? with
    | none =>
      rw [hrt] at hget
      exact congrArg (Option.map DriveRuntime.shown) hget
    | some rt =>
      rw [hrt, Option.map_some] at hget
      rw [Option.map_some, Option.any_some, Option.map_some, if_pos rfl]
      split
      · unfold shows
        rw [getElem?_modifyDrive, if_pos rfl, hget]
        rfl
      · unfold shows
        rw [hget]
        rfl
  · rw [if_neg hname] at hget
    have hno : ¬ some n = some name := fun h => hname (Option.some.inj h)
    simp only [if_neg hno]
    split
    · unfold shows
      rw [getElem?_modifyDrive, if_neg hname, hget]
    · unfold shows
      rw [hget]

theorem shows_onResponse (peer : PeerId) (id : ℕ) (msg : SyncMsg) :
    (onResponse env e peer id msg).1.shows name =
      e.drives[name]?.map fun rt => (after env e name rt (.response peer id msg)).shown := by
  have hafter : ∀ rt, after env e name rt (.response peer id msg) =
      if e.driveNameByPeer env peer = some name then afterResponse env e peer id rt msg else rt :=
    fun _ => rfl
  simp only [hafter]
  unfold onResponse
  cases e.driveNameByPeer env peer with
  | none =>
    simp only [reduceCtorEq, if_false]
    rfl
  | some n =>
    dsimp only
    generalize herased : (e.modifyDrive n fun rt =>
      { rt with inFlight := rt.inFlight.erase id }) = e₁
    have hquiet : e₁.shows name = e.shows name := by
      rw [← herased]
      exact shows_modifyDrive (by exact fun _ => rfl)
    have hpin : ∀ pubkey, e₁.pinResponder peer pubkey = e.pinResponder peer pubkey := by
      intro pubkey
      rw [← herased]
      rfl
    -- what a handler does after the request is taken out of what is in flight
    have hthen : ∀ {g g' : DriveRuntime → DriveRuntime} {e₂ : Engine},
        (∀ rt, (g { rt with inFlight := rt.inFlight.erase id }).shown = (g' rt).shown) →
        e₂.shows name = e₁.drives[name]?.map
          (fun rt => (if some n = some name then g rt else rt).shown) →
        e₂.shows name =
          e.drives[name]?.map fun rt => (if some n = some name then g' rt else rt).shown := by
      intro g g' e₂ hg h
      rw [h, ← herased, getElem?_modifyDrive]
      by_cases hname : n = name
      · subst hname
        simp only [if_true, Option.map_map]
        exact congrArg (fun f => Option.map f e.drives[n]?) (funext hg)
      · simp only [if_neg hname, Option.some.injEq]
    have hsame : ∀ {e₂ : Engine}, e₂.drives = e₁.drives → e₂.shows name =
        e.drives[name]?.map fun rt => (if some n = some name then rt else rt).shown := by
      intro e₂ h
      simp only [ite_self]
      exact (shows_of_same h).trans hquiet
    cases msg with
    | helloAck ack =>
      have hack : (onHelloAck env e₁ n peer ack).1.shows name = e₁.drives[name]?.map fun rt =>
          (if some n = some name ∧ (e₁.pinResponder peer ack.pubkey).2.isOk = true then
            answered env ack rt else rt).shown := shows_onHelloAck
      simp only [ite_and, hpin] at hack
      refine hthen (fun rt => ?_) hack
      unfold afterResponse answered
      dsimp only
      split
      · split <;> rfl
      · rfl
    | helloErr err => exact hthen (by exact fun _ => rfl) shows_modifyFound
    | catchUpAck ack => exact hthen (by exact fun _ => rfl) shows_onCatchUpAck
    | summaryAck clocks => exact hthen (by exact fun _ => rfl) shows_modifyFound
    | modelDef ref def_ => exact hsame (drives_onModelDef _ _ _)
    | chunkData hash bytes =>
      cases bytes with
      | none => exact hsame rfl
      | some bytes =>
        refine hsame ?_
        dsimp only
        unfold putChunk
        split <;> rfl
    | _ => exact hsame rfl

theorem shows_handleCmd {c : EngineCommand} (hadds : adds e name (.cmd c) = false)
    (hstays : c ≠ .removeDrive name) : (handleCmd env e c).1.shows name =
      e.drives[name]?.map fun rt => (after env e name rt (.cmd c)).shown := by
  cases c with
  | addDrive drive =>
    exact shows_of_getElem? (getElem?_addDriveInternal env e (ne_of_beq_false hadds))
  | removeDrive n =>
    refine shows_of_getElem? ?_
    show (e.drives.erase n)[name]? = _
    rw [Std.ExtTreeMap.getElem?_erase, if_neg]
    exact fun hc => hstays (congrArg _ (Std.compare_eq_iff_eq.mp hc))
  | setPaused n paused =>
    refine (shows_modifyFound (f := fun rt => { rt with
      drive := { rt.drive with paused := paused }
      status := if paused then .paused else .connecting
      nextCatchUp := env.now })).trans ?_
    unfold after
    simp only [Option.some.injEq]
    refine congrArg (fun f => Option.map f e.drives[name]?) (funext fun rt => ?_)
    split <;> rfl
  | resync n =>
    unfold handleCmd
    dsimp only
    split
    · rfl
    · split
      · exact shows_modifyDrive (by exact fun _ => rfl)
      · rfl
  | fetchBlob blob =>
    exact (Lib.sweep_spec (I := fun e' : Engine => e'.shows name = e.shows name)
      (P := fun _ => True) (fun _ _ _ he' => ⟨he', fun _ _ => trivial⟩) rfl).1
  | join drive accept =>
    refine (shows_modifyDrive (by exact fun _ => rfl)).trans ?_
    exact shows_of_getElem? (getElem?_addDriveInternal env e (ne_of_beq_false hadds))
  | ban peer => rfl
  | unban peer => rfl
  | shutdown => rfl

/-! ## Any turn -/

/-- **What a turn makes of a drive** that it neither registers nor removes. -/
theorem shows_turn {i : Input} (hadds : adds e name i = false)
    (hstays : i ≠ .cmd (.removeDrive name)) : (turn env e i).1.shows name =
      e.drives[name]?.map fun rt => (after env e name rt i).shown := by
  cases i with
  | store ev => rfl
  | cmd c => exact shows_handleCmd hadds fun h => hstays (congrArg _ h)
  | tick lastActivity => exact shows_tick lastActivity
  | outbound =>
    unfold turn
    dsimp only
    split
    · exact shows_of_same (publishAction_spec _ _).2.1
    · rfl
  | newListenAddr addr =>
    unfold turn
    dsimp only
    split <;> rfl
  | connectionEstablished peer =>
    show (onConnectionEstablished env e peer).1.shows name = _
    unfold onConnectionEstablished
    split
    · exact shows_openHandshake _
    · rfl
  | connectionClosed peer numEstablished =>
    show (onConnectionClosed env e peer numEstablished).1.shows name = _
    unfold onConnectionClosed after
    by_cases hlast : numEstablished = 0
    · rw [if_neg (not_not.mpr hlast)]
      simp only [hlast, true_and]
      cases e.driveNameByPeer env peer with
      | none =>
        simp only [reduceCtorEq, if_false]
        rfl
      | some n =>
        refine shows_modifyFound.trans ?_
        refine congrArg (fun f => Option.map f e.drives[name]?) (funext fun rt => ?_)
        split <;> rfl
    · rw [if_pos hlast]
      simp only [hlast, false_and, if_false]
      rfl
  | gossip source msg => exact shows_of_same (drives_applyRemoteAction env e source msg.action)
  | request peer msg =>
    cases msg with
    | hello h => exact shows_serveHello hadds
    | summary clocks =>
      show (e.noteSummary env peer clocks).shows name = _
      unfold noteSummary after
      dsimp only
      cases e.driveNameByPeer env peer with
      | none =>
        simp only [reduceCtorEq, if_false]
        rfl
      | some n =>
        refine shows_modifyFound.trans ?_
        refine congrArg (fun f => Option.map f e.drives[name]?) (funext fun rt => ?_)
        split <;> rfl
    | _ => rfl
  | response peer id msg => exact shows_onResponse peer id msg
  | outboundFailure peer =>
    show (onOutboundFailure env e peer).1.shows name = _
    unfold onOutboundFailure after
    dsimp only
    cases e.driveNameByPeer env peer with
    | none =>
      simp only [reduceCtorEq, false_and, if_false]
      rfl
    | some n =>
      dsimp only
      by_cases hname : n = name
      · subst hname
        cases hrt : e.drives[n]? with
        | none =>
          refine Eq.trans ?_ (show e.shows n = none from congrArg (Option.map _) hrt)
          rw [Option.any_none, if_neg Bool.false_ne_true]
          unfold shows
          rw [getElem?_modifyDrive, if_pos rfl, hrt]
          rfl
        | some rt =>
          rw [Option.any_some, Option.map_some]
          by_cases hstatus : rt.status = .paused
          · rw [if_pos (beq_iff_eq.mpr hstatus), if_neg fun h => h.2 hstatus]
            exact congrArg (Option.map DriveRuntime.shown) hrt
          · rw [if_neg (mt beq_iff_eq.mp hstatus), if_pos ⟨rfl, hstatus⟩]
            unfold shows
            rw [getElem?_modifyDrive, if_pos rfl, hrt]
            rfl
      · simp only [Option.some.injEq, hname, false_and, if_false]
        split
        · rfl
        · unfold shows
          rw [getElem?_modifyDrive, if_neg hname]

/-- The same, for the runtime that is found after the turn. -/
theorem drive_turn {i : Input} (hadds : adds e name i = false) {rt' : DriveRuntime}
    (hrt' : (turn env e i).1.drives[name]? = some rt') :
    ∃ rt, e.drives[name]? = some rt ∧ rt'.shown = (after env e name rt i).shown := by
  have hstays : i ≠ .cmd (.removeDrive name) := by
    rintro rfl
    replace hrt' : (e.drives.erase name)[name]? = some rt' := hrt'
    rw [Std.ExtTreeMap.getElem?_erase_self] at hrt'
    cases hrt'
  have hshows : (turn env e i).1.shows name = e.drives[name]?.map fun rt =>
      (after env e name rt i).shown := shows_turn hadds hstays
  unfold shows at hshows
  rw [hrt'] at hshows
  obtain ⟨rt, hrt, heq⟩ := Option.map_eq_some_iff.mp hshows.symm
  exact ⟨rt, hrt, heq.symm⟩

end

end Engine

end PhReactor
