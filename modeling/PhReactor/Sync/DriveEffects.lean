/-
  What a turn sends for WHICH drive, and which drive it reports as synced.

  1. The requests of the exchange are hellos, catch-ups and summaries.  Most handlers are `silent`:
     they send none, and report no drive as synced.

  2. `worksFor` are the drives for which a turn may send, each with its peer; `completes` are those
     it may report as synced.

  3. `warranted_turn`: every request of the exchange goes to the peer of a drive the turn works for,
     and every drive that is reported as synced is one of those it completes.
-/
import PhReactor.Sync.DriveTurns

set_option linter.unusedSectionVars false

namespace PhReactor

/-- A request of the exchange with a drive: a hello, a catch-up or a summary. -/
def SyncMsg.exchanges : SyncMsg → Bool
  | .hello _ => true
  | .catchUp _ => true
  | .summary _ => true
  | _ => false

/-- Neither a request of the exchange, nor the report that a drive is synced. -/
def Effect.silent : Effect → Bool
  | .request _ _ msg => !msg.exchanges
  | .event (.driveStatus _ status _) => status != .synced
  | _ => true

/-- A request of the exchange goes to the peer of one of the drives `who`, and a drive that is
    reported as synced is one of `done`. -/
def Effect.Warranted (who : List (String × PeerId)) (done : List String) : Effect → Prop
  | .request _ peer msg => msg.exchanges = true → ∃ name, (name, peer) ∈ who
  | .event (.driveStatus name status _) => status = .synced → name ∈ done
  | _ => True

theorem Effect.warranted_of_silent {who : List (String × PeerId)} {done : List String} {o : Effect}
    (h : o.silent = true) : o.Warranted who done := by
  cases o with
  | request id peer msg =>
    intro hex
    rw [show (Effect.request id peer msg).silent = !msg.exchanges from rfl, hex] at h
    cases h
  | event ev =>
    cases ev with
    | driveStatus name status detail =>
      intro hstatus
      subst hstatus
      cases h
    | _ => trivial
  | _ => trivial

theorem Effect.silent_of_warranted {o : Effect} (h : o.Warranted [] []) : o.silent = true := by
  cases o with
  | request id peer msg =>
    refine Bool.not_eq_true' _ ▸ Bool.eq_false_iff.mpr fun hex => ?_
    obtain ⟨name, hmem⟩ := h hex
    exact absurd hmem List.not_mem_nil
  | event ev =>
    cases ev with
    | driveStatus name status detail =>
      exact bne_iff_ne.mpr fun hs => absurd (h hs) List.not_mem_nil
    | _ => rfl
  | _ => rfl

theorem Effect.warranted_status {who : List (String × PeerId)} {done : List String} {name : String}
    {status : DriveStatus} {detail : Option String} (h : status ≠ .synced) :
    (Effect.event (.driveStatus name status detail)).Warranted who done := fun hs => absurd hs h

namespace Engine

section

variable [Primitives]

/-- The drives on whose behalf a turn may send, each with its peer. -/
def worksFor (env : Env) (e : Engine) : Input → List (String × PeerId)
  | .cmd (.addDrive drive) => [(drive.name, drive.peerId.getD env.randomPeer)]
  | .cmd (.join drive _) => [(drive.name, drive.peerId.getD env.randomPeer)]
  | .tick _ => (e.dueDrives env).map fun due => (due.1, due.2.peer)
  | .connectionEstablished peer => (e.driveNameByPeer env peer).toList.map fun name => (name, peer)
  | .request peer (.hello h) => h.accept.toList.map fun a =>
    ((joinerDrive peer a).name, (joinerDrive peer a).peerId.getD env.randomPeer)
  | .response peer _ _ => (e.driveNameByPeer env peer).toList.map fun name => (name, peer)
  | _ => []

/-- The drives a turn may report as synced: those that are due and connecting, and the one whose
    exchange a catch-up reply ends. -/
def completes (env : Env) (e : Engine) : Input → List String
  | .tick _ => ((e.dueDrives env).filter fun due => due.2.status = .connecting).map Prod.fst
  | .response peer id (.catchUpAck ack) => (e.driveNameByPeer env peer).toList.filter fun name =>
    e.drives[name]?.any (finishes ack id)
  | _ => []

variable {env : Env} {e : Engine} {name : String}

/-! ## The silent handlers -/

theorem silent_applyRemoteAction (env : Env) (e : Engine) (peer : Option PeerId) (a : Action) :
    ∀ o ∈ (applyRemoteAction env e peer a).1.2, o.silent = true := by
  have hask : ∀ o ∈ (e.requestModelFrom peer a.model).2, o.silent = true := by
    cases peer with
    | none => exact List.forall_mem_nil _
    | some p =>
      show ∀ o ∈ (e.requestModel p a.model).2, o.silent = true
      unfold requestModel
      dsimp only
      split
      · exact List.forall_mem_nil _
      · exact List.forall_mem_singleton.mpr rfl
  unfold applyRemoteAction
  split
  · exact hask
  · split
    · split
      · exact List.forall_mem_singleton.mpr rfl
      · exact List.forall_mem_nil _
    · exact List.forall_mem_nil _

theorem silent_applyRemoteActions (env : Env) (peer : Option PeerId) (l : List Action) :
    ∀ e : Engine, ∀ o ∈ (applyRemoteActions env peer e l).1.2, o.silent = true := by
  induction l with
  | nil => exact fun _ => List.forall_mem_nil _
  | cons a rest ih =>
    exact fun e => List.forall_mem_append.mpr ⟨silent_applyRemoteAction env e peer a, ih _⟩

theorem silent_publishAction (e : Engine) (a : Action) :
    ∀ o ∈ (publishAction e a).2, o.silent = true := by
  intro o ho
  rw [((publishAction_spec e a).2.2 o ho).1]
  rfl

theorem silent_drainQueue (e : Engine) : ∀ o ∈ e.drainQueue.2, o.silent = true := by
  intro o ho
  obtain ⟨msg, rfl, -, -⟩ := (moves_drainQueue (L := fun _ _ => False) e).1.effects o ho
  rfl

theorem silent_tokenGate (env : Env) (e : Engine) (peer : PeerId) (token : Option String) :
    ∀ o ∈ (tokenGate env e peer token).1.2, o.silent = true := by
  unfold tokenGate
  split
  · exact List.forall_mem_nil _
  · split
    · exact List.forall_mem_nil _
    · dsimp only
      unfold recordAuthFailure
      dsimp only
      split
      · refine List.forall_mem_append.mpr ⟨fun o ho => ?_, List.forall_mem_singleton.mpr rfl⟩
        obtain ⟨n, -, rfl⟩ := List.mem_map.mp ho
        rfl
      · exact List.forall_mem_nil _
  · exact List.forall_mem_nil _

theorem silent_registerHello (env : Env) (e : Engine) (peer : PeerId) (token : Option String)
    (key : PublicKey) : ∀ o ∈ (registerHello env e peer token key).1.2, o.silent = true := by
  have hpin : ∀ t : Engine × List Effect, (pinGuest peer key t).1.2 = t.2 := by
    intro t
    unfold pinGuest
    dsimp only
    split <;> rfl
  rw [registerHello_eq]
  split
  · exact List.forall_mem_nil _
  · rw [hpin]
    unfold greet
    split
    · exact List.forall_mem_nil _
    · exact List.forall_mem_singleton.mpr rfl

/-- A hello makes the engine send what its join-proof does, and nothing more. -/
theorem unsilent_serveHello {peer : PeerId} {h : Hello} {o : Effect}
    (ho : o ∈ (serveHello env e peer h).2) (hex : o.silent = false) :
    Admitted e peer h ∧ o ∈ (acceptInvite env e peer h.accept).2 := by
  have hreply : ∀ msg, o ∉ [Effect.response peer msg] := by
    intro msg hmem
    rw [List.mem_singleton.mp hmem] at hex
    cases hex
  unfold serveHello at ho
  split at ho
  · exact absurd ho (hreply _)
  · next hban =>
    split at ho
    · exact absurd ho (hreply _)
    · next hversion =>
      refine ⟨⟨Bool.not_eq_true _ ▸ hban, not_not.mp hversion⟩, ?_⟩
      generalize acceptInvite env e peer h.accept = t at ho ⊢
      obtain ⟨e₁, joined⟩ := t
      have hgate := silent_tokenGate env e₁ peer h.token
      dsimp only at ho ⊢
      generalize tokenGate env e₁ peer h.token = g at ho hgate
      obtain ⟨⟨e₂, out⟩, err⟩ := g
      cases err with
      | some err =>
        rcases List.mem_append.mp ho with ho | ho
        · rcases List.mem_append.mp ho with ho | ho
          · exact ho
          · exact absurd (hgate o ho) (by rw [hex]; simp)
        · exact absurd ho (hreply _)
      | none =>
        dsimp only at ho
        split at ho
        · rcases List.mem_append.mp ho with ho | ho
          · exact ho
          · exact absurd ho (hreply _)
        · next key _ =>
          have hreg := silent_registerHello env e₂ peer h.token key
          generalize registerHello env e₂ peer h.token key = r at ho hreg
          obtain ⟨⟨e₃, out₃⟩, err⟩ := r
          cases err with
          | some err =>
            rcases List.mem_append.mp ho with ho | ho
            · rcases List.mem_append.mp ho with ho | ho
              · exact ho
              · exact absurd (hreg o ho) (by rw [hex]; simp)
            · exact absurd ho (hreply _)
          | none =>
            rcases List.mem_append.mp ho with ho | ho
            · rcases List.mem_append.mp ho with ho | ho
              · exact ho
              · exact absurd (hreg o ho) (by rw [hex]; simp)
            · exact absurd ho (hreply _)

section

variable {who : List (String × PeerId)} {done : List String}

theorem warranted_nil : ∀ o ∈ ([] : List Effect), o.Warranted who done := List.forall_mem_nil _

theorem warranted_of_all {out : List Effect} (h : ∀ o ∈ out, o.silent = true) :
    ∀ o ∈ out, o.Warranted who done := fun o ho => Effect.warranted_of_silent (h o ho)

theorem warranted_openHandshake {n : String}
    (hwho : ∀ rt, e.drives[n]? = some rt → (n, rt.peer) ∈ who) :
    ∀ o ∈ (e.openHandshake n).2, o.Warranted who done := by
  unfold openHandshake
  cases hrt : e.drives[n]? with
  | none => exact warranted_nil
  | some rt =>
    dsimp only
    split
    · exact warranted_nil
    · split
      · exact List.forall_mem_singleton.mpr (Effect.warranted_of_silent rfl)
      · exact List.forall_mem_singleton.mpr fun _ => ⟨n, hwho rt hrt⟩

/-- The hello of a new drive goes to its own peer. -/
theorem warranted_addDriveInternal {drive : Drive}
    (hwho : (drive.name, drive.peerId.getD env.randomPeer) ∈ who) :
    ∀ o ∈ (addDriveInternal env e drive).2, o.Warranted who done := by
  generalize hpeer : drive.peerId.getD env.randomPeer = peer at hwho
  unfold addDriveInternal
  dsimp only
  rw [hpeer]
  split
  · exact warranted_nil
  · generalize hnew : DriveRuntime.mk drive _ _ _ _ _ _ _ _ = new
    have hadded : ∀ rt, (finishGuest env { e with drives := e.drives.insert drive.name new }
        drive.name peer).1.drives[drive.name]? = some rt → rt.peer = peer := by
      intro rt hrt
      have hself : (e.drives.insert drive.name new)[drive.name]? = some new :=
        Std.ExtTreeMap.getElem?_insert_self
      unfold finishGuest at hrt
      split at hrt
      · rw [getElem?_modifyDrive, if_pos rfl, hself] at hrt
        rw [← Option.some.inj hrt, ← hnew]
      · rw [← Option.some.inj (hself.symm.trans hrt), ← hnew]
    refine List.forall_mem_append.mpr ⟨List.forall_mem_append.mpr ⟨?_, ?_⟩, ?_⟩
    · unfold finishGuest
      split
      · exact List.forall_mem_singleton.mpr (Effect.warranted_of_silent rfl)
      · exact warranted_nil
    · unfold openIfConnected
      split
      · refine warranted_openHandshake fun rt hrt => ?_
        rw [hadded rt hrt]
        exact hwho
      · exact warranted_nil
    · exact List.forall_mem_cons.mpr ⟨trivial,
        List.forall_mem_singleton.mpr (Effect.warranted_of_silent rfl)⟩

theorem warranted_acceptInvite {peer : PeerId} {accept : Option InviteAccept}
    (hwho : ∀ a, accept = some a →
      ((joinerDrive peer a).name, (joinerDrive peer a).peerId.getD env.randomPeer) ∈ who) :
    ∀ o ∈ (acceptInvite env e peer accept).2, o.Warranted who done := by
  cases accept with
  | none => exact warranted_nil
  | some a =>
    show ∀ o ∈ (handleInviteAccept env e peer a).2, o.Warranted who done
    unfold handleInviteAccept
    split
    · exact warranted_nil
    · split
      · exact warranted_nil
      · split
        · exact warranted_nil
        · exact List.forall_mem_append.mpr ⟨warranted_addDriveInternal (hwho a rfl),
            List.forall_mem_cons.mpr
              ⟨trivial, List.forall_mem_singleton.mpr (Effect.warranted_of_silent rfl)⟩⟩

theorem warranted_sendAll {n : String} {peer : PeerId} (l : List (DocId × VecClock)) (e : Engine)
    (hwho : (n, peer) ∈ who) : ∀ o ∈ (Lib.sweep (sendCatchUp n peer) e l).2, o.Warranted who done :=
  (Lib.sweep_spec (I := fun _ : Engine => True) (P := fun o : Effect => o.Warranted who done)
    (fun _ _ _ _ => ⟨trivial, List.forall_mem_singleton.mpr fun _ => ⟨n, hwho⟩⟩) trivial).2

theorem warranted_summarizeDrive {own : Std.ExtTreeMap DocId VecClock}
    {due : String × DriveRuntime} (hwho : (due.1, due.2.peer) ∈ who)
    (hdone : ∀ rt, e.drives[due.1]? = some rt → rt.status = .connecting → due.1 ∈ done) :
    ∀ o ∈ (summarizeDrive own e due).2, o.Warranted who done := by
  have hsend : ∀ o ∈ (e.sendRequest due.2.peer (.summary own.toList)).2, o.Warranted who done :=
    List.forall_mem_singleton.mpr fun _ => ⟨due.1, hwho⟩
  unfold summarizeDrive
  dsimp only
  split
  · exact hsend
  · next rt hrt =>
    split
    · next hstatus =>
      exact List.forall_mem_append.mpr
        ⟨hsend, List.forall_mem_singleton.mpr fun _ => hdone rt hrt hstatus⟩
    · exact hsend

/-- While the due drives are told, none that was not connecting before becomes so. -/
theorem warranted_exchange (env : Env) (e : Engine)
    (hwho : ∀ due ∈ e.dueDrives env, (due.1, due.2.peer) ∈ who)
    (hdone : ∀ due ∈ e.dueDrives env, due.2.status = .connecting → due.1 ∈ done) :
    ∀ o ∈ (e.exchange env).2, o.Warranted who done := by
  have hask : ∀ (e' : Engine), ∀ o ∈ (Lib.sweep (catchUpDrive env (Store.summary e.store)) e'
      (e.dueDrives env)).2, o.Warranted who done := by
    intro e'
    refine (Lib.sweep_spec (I := fun _ : Engine => True)
      (P := fun o : Effect => o.Warranted who done)
      (fun _ due hdue _ => ⟨trivial, ?_⟩) trivial).2
    exact warranted_sendAll _ _ (hwho due hdue)
  refine List.forall_mem_append.mpr ⟨hask _, ?_⟩
  refine (Lib.sweep_spec (I := fun e' : Engine => ∀ n, e'.shows n = e.shows n ∨
      e'.shows n = (e.shows n).map syncedShown) (P := fun o : Effect => o.Warranted who done)
    (fun e' due hdue he' => ⟨fun n => ?_, ?_⟩) fun n => Or.inl (shows_askAll _ _ _)).2
  · rw [shows_summarizeDrive]
    split
    · next hname =>
      right
      rcases he' n with h | h
      · rw [h]
      · rw [h, Option.map_map,
          show syncedShown ∘ syncedShown = syncedShown from funext syncedShown_twice]
    · exact he' n
  · refine warranted_summarizeDrive (hwho due hdue) fun rt hrt hstatus => hdone due hdue ?_
    have hbefore : e.shows due.1 = some due.2.shown :=
      congrArg (Option.map DriveRuntime.shown) (mem_dueDrives.mp hdue).1
    have hnow : e'.shows due.1 = some rt.shown := congrArg (Option.map DriveRuntime.shown) hrt
    rcases he' due.1 with h | h
    · rw [hnow, hbefore, Option.some.injEq] at h
      exact (congrArg (fun x => x.2.2.2.2) h).symm.trans hstatus
    · rw [hnow, hbefore, Option.map_some, Option.some.injEq] at h
      have hconnecting : (syncedShown due.2.shown).2.2.2.2 = .connecting :=
        (congrArg (fun x => x.2.2.2.2) h).symm.trans hstatus
      unfold syncedShown at hconnecting
      split at hconnecting
      · cases hconnecting
      · exact hconnecting

theorem warranted_tick (lastActivity : ℕ)
    (hwho : ∀ due ∈ e.dueDrives env, (due.1, due.2.peer) ∈ who)
    (hdone : ∀ due ∈ e.dueDrives env, due.2.status = .connecting → due.1 ∈ done) :
    ∀ o ∈ (tick env e lastActivity).2, o.Warranted who done := by
  have hdue := (exchange_reads env e lastActivity).2.2
  refine List.forall_mem_append.mpr ⟨warranted_of_all (silent_drainQueue e), ?_⟩
  refine warranted_exchange env _ (fun due h => hwho due ?_) fun due h => hdone due ?_
  · rw [← hdue]
    exact h
  · rw [← hdue]
    exact h

theorem warranted_onHelloAck {n : String} {peer : PeerId} {ack : HelloAck}
    (hwho : (n, peer) ∈ who) : ∀ o ∈ (onHelloAck env e n peer ack).2, o.Warranted who done := by
  unfold onHelloAck
  split
  · exact List.forall_mem_singleton.mpr (Effect.warranted_of_silent rfl)
  · refine List.forall_mem_append.mpr ⟨?_, warranted_sendAll _ _ hwho⟩
    split
    · exact List.forall_mem_singleton.mpr (Effect.warranted_of_silent rfl)
    · exact warranted_nil

/-- A catch-up reply sends nothing of the exchange, and reports the drive where it ends it. -/
theorem warranted_onCatchUpAck {n : String} {peer : PeerId} {ack : CatchUpAck}
    (hdone : (e.drives[n]?.any fun rt =>
      !ack.more && rt.inFlight.isEmpty && rt.status != .paused) = true → n ∈ done) :
    ∀ o ∈ (onCatchUpAck env e n peer ack).2, o.Warranted who done := by
  have happly : ∀ o ∈ (applyRemoteActions env (some peer) e ack.actions).1.2,
      o.Warranted who done :=
    warranted_of_all (silent_applyRemoteActions env (some peer) ack.actions e)
  have hdrives := drives_applyRemoteActions env (some peer) ack.actions e
  unfold onCatchUpAck
  dsimp only
  split
  · next hends =>
    refine List.forall_mem_append.mpr ⟨happly, List.forall_mem_singleton.mpr fun _ => hdone ?_⟩
    unfold noteLastClock at hends
    rw [getElem?_modifyDrive, if_pos rfl, hdrives, Option.any_map] at hends
    exact hends
  · exact happly

end

theorem silent_onModelDef (peer : PeerId) (ref : ModelRef) (def_ : Option Value) :
    ∀ o ∈ (onModelDef env e peer ref def_).2, o.silent = true := by
  unfold onModelDef
  split
  · exact List.forall_mem_nil _
  · split
    · exact List.forall_mem_nil _
    · split
      · exact List.forall_mem_nil _
      · split
        · exact List.forall_mem_nil _
        · exact silent_applyRemoteActions env _ _ _

/-- Of the responses, only the replies to a hello and to a catch-up are not silent. -/
theorem silent_onResponse {peer : PeerId} {id : ℕ} {msg : SyncMsg}
    (hno : ∀ ack, msg ≠ .helloAck ack) (hno' : ∀ ack, msg ≠ .catchUpAck ack) :
    ∀ o ∈ (onResponse env e peer id msg).2, o.silent = true := by
  unfold onResponse
  split
  · exact List.forall_mem_nil _
  · cases msg with
    | helloAck ack => exact absurd rfl (hno ack)
    | helloErr err => cases err <;> exact List.forall_mem_singleton.mpr rfl
    | catchUpAck ack => exact absurd rfl (hno' ack)
    | modelDef ref def_ => exact silent_onModelDef _ _ _
    | chunkData hash bytes =>
      cases bytes with
      | none => exact List.forall_mem_nil _
      | some bytes => exact List.forall_mem_singleton.mpr rfl
    | _ => exact List.forall_mem_nil _

/-- The commands that exchange nothing. -/
theorem silent_handleCmd {c : EngineCommand} (hadd : ∀ drive, c ≠ .addDrive drive)
    (hjoin : ∀ drive accept, c ≠ .join drive accept) :
    ∀ o ∈ (handleCmd env e c).2, o.silent = true := by
  cases c with
  | addDrive drive => exact absurd rfl (hadd drive)
  | join drive accept => exact absurd rfl (hjoin drive accept)
  | removeDrive n =>
    unfold handleCmd
    dsimp only
    split
    · exact List.forall_mem_singleton.mpr rfl
    · exact List.forall_mem_nil _
  | setPaused n paused =>
    unfold handleCmd
    dsimp only
    split
    · exact List.forall_mem_nil _
    · intro o ho
      obtain ⟨rt, -, rfl⟩ := List.mem_map.mp ho
      rfl
  | resync n =>
    unfold handleCmd
    dsimp only
    split
    · exact List.forall_mem_nil _
    · split <;> exact List.forall_mem_singleton.mpr rfl
  | fetchBlob blob =>
    refine (Lib.sweep_spec (I := fun _ : Engine => True)
      (P := fun o : Effect => o.silent = true) (fun e' a _ _ => ⟨trivial, ?_⟩) trivial).2
    intro o ho
    rw [show o = .request e'.nextRequest a.2 (.chunkRequest a.1) from List.mem_singleton.mp ho]
    rfl
  | ban peer => exact List.forall_mem_nil _
  | unban peer => exact List.forall_mem_nil _
  | shutdown => exact List.forall_mem_nil _

/-- **For whom a turn sends**: every hello, catch-up and summary goes to the peer of a drive the
    turn works for. -/
theorem warranted_turn (env : Env) (e : Engine) (i : Input) :
    ∀ o ∈ (turn env e i).2, o.Warranted (worksFor env e i) (completes env e i) := by
  cases i with
  | store ev => exact warranted_nil
  | cmd c =>
    cases c with
    | addDrive drive => exact warranted_addDriveInternal List.mem_cons_self
    | join drive accept =>
      exact warranted_addDriveInternal List.mem_cons_self
    | _ => exact warranted_of_all (silent_handleCmd (by simp) (by simp))
  | tick lastActivity =>
    refine warranted_tick lastActivity (fun due hdue => List.mem_map_of_mem hdue)
      fun due hdue hstatus => List.mem_map_of_mem (List.mem_filter.mpr ⟨hdue, ?_⟩)
    exact decide_eq_true hstatus
  | outbound =>
    unfold turn
    dsimp only
    split
    · exact warranted_of_all (silent_publishAction _ _)
    · exact warranted_nil
  | newListenAddr addr =>
    unfold turn
    dsimp only
    split
    · exact warranted_nil
    · exact List.forall_mem_singleton.mpr (Effect.warranted_of_silent rfl)
  | connectionEstablished peer =>
    refine List.forall_mem_cons.mpr ⟨trivial, ?_⟩
    show ∀ o ∈ (onConnectionEstablished env e peer).2, _
    unfold onConnectionEstablished
    cases hname : e.driveNameByPeer env peer with
    | none => exact warranted_nil
    | some n =>
      refine warranted_openHandshake fun rt hrt => ?_
      rw [(driveNameByPeer_spec hname).peer_eq hrt]
      exact List.mem_map.mpr ⟨n, Option.mem_toList.mpr hname, rfl⟩
  | connectionClosed peer numEstablished =>
    show ∀ o ∈ (onConnectionClosed env e peer numEstablished).2, _
    unfold onConnectionClosed
    split
    · exact warranted_nil
    · split
      · exact warranted_nil
      · next n _ =>
        refine List.forall_mem_singleton.mpr (Effect.warranted_status ?_)
        rw [getElem?_modifyDrive, if_pos rfl]
        cases e.drives[n]? with
        | none => exact fun h => nomatch h
        | some rt =>
          rw [Option.map_some, Option.map_some, Option.getD_some]
          dsimp only
          split <;> exact fun h => nomatch h
  | gossip source msg => exact warranted_of_all (silent_applyRemoteAction env e source msg.action)
  | request peer msg =>
    cases msg with
    | hello h =>
      intro o ho
      cases hex : o.silent with
      | true => exact Effect.warranted_of_silent hex
      | false =>
        refine warranted_acceptInvite (fun a ha => ?_) o (unsilent_serveHello ho hex).2
        exact List.mem_map.mpr ⟨a, Option.mem_toList.mpr ha, rfl⟩
    | catchUp c => exact List.forall_mem_singleton.mpr (Effect.warranted_of_silent rfl)
    | summary clocks => exact List.forall_mem_singleton.mpr (Effect.warranted_of_silent rfl)
    | modelRequest ref => exact List.forall_mem_singleton.mpr (Effect.warranted_of_silent rfl)
    | chunkRequest hash => exact List.forall_mem_singleton.mpr (Effect.warranted_of_silent rfl)
    | _ => exact warranted_nil
  | response peer id msg =>
    cases msg with
    | helloAck ack =>
      show ∀ o ∈ (onResponse env e peer id (.helloAck ack)).2, _
      unfold onResponse
      cases hname : e.driveNameByPeer env peer with
      | none => exact warranted_nil
      | some n =>
        exact warranted_onHelloAck (List.mem_map.mpr ⟨n, Option.mem_toList.mpr hname, rfl⟩)
    | catchUpAck ack =>
      show ∀ o ∈ (onResponse env e peer id (.catchUpAck ack)).2, _
      unfold onResponse
      cases hname : e.driveNameByPeer env peer with
      | none => exact warranted_nil
      | some n =>
        refine warranted_onCatchUpAck fun hends => List.mem_filter.mpr
          ⟨Option.mem_toList.mpr hname, ?_⟩
        rw [getElem?_modifyDrive, if_pos rfl, Option.any_map] at hends
        exact hends
    | _ => exact warranted_of_all (silent_onResponse (by simp) (by simp))
  | outboundFailure peer =>
    show ∀ o ∈ (onOutboundFailure env e peer).2, _
    unfold onOutboundFailure
    split
    · exact warranted_nil
    · split
      · exact warranted_nil
      · exact List.forall_mem_singleton.mpr (Effect.warranted_of_silent rfl)

end

end Engine

end PhReactor
