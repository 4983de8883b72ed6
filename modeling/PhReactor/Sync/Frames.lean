/-
  What a handler leaves ALONE, and what it never sends.

  Most handlers of the engine touch drives, guests and counters only.  `Plain` says so once for
  each of them:

  1. The pending actions, the requested models, the registry and the token stay as they are.

  2. Among the effects there is no reply, no model request, and no event that makes the daemon
     persist a drive or grant a membership.

  The handlers that are NOT plain are few: `serve_request` replies, `request_model` asks for a
  model, `handle_invite_accept` admits a joiner, and what applies or registers models moves the
  pending actions.  Their own modules deal with them; everything else is settled here.
-/
import PhReactor.Sync.Moves

set_option linter.unusedSectionVars false

namespace PhReactor

/-- The events on which the daemon persists a drive or grants group membership. -/
def Effect.admits : Effect → Bool
  | .event (.driveJoined _ _) => true
  | .event (.inviteAccepted _ _) => true
  | _ => false

/-- No reply, no model request, and no admission. -/
def Effect.plain : Effect → Bool
  | .response _ _ => false
  | .request _ _ (.modelRequest _) => false
  | .event ev => !(Effect.event ev).admits
  | _ => true

/-- A request for a model's definition. -/
def Effect.fetches : Effect → Bool
  | .request _ _ (.modelRequest _) => true
  | _ => false

variable [Primitives]

namespace Engine

/-- Pending actions, requested models, the registry and the token are the same. -/
structure Keeps (e e' : Engine) : Prop where
  pending : e'.pendingActions = e.pendingActions
  requested : e'.requestedModels = e.requestedModels
  models : e'.store.models = e.store.models
  token : e'.token = e.token

theorem Keeps.trans {e e' e'' : Engine} (h : Keeps e e') (h' : Keeps e' e'') : Keeps e e'' :=
  ⟨h'.pending.trans h.pending, h'.requested.trans h.requested, h'.models.trans h.models,
    h'.token.trans h.token⟩

/-- A turn that keeps them, with plain effects. -/
structure Plain (e : Engine) (t : Engine × List Effect) : Prop where
  keeps : Keeps e t.1
  effects : ∀ o ∈ t.2, o.plain = true

section

variable {e : Engine} (env : Env)

/-! ## Putting turns together -/

theorem Plain.trans {t u : Engine × List Effect} (h : Plain e t) (h' : Plain t.1 u) :
    Plain e (u.1, t.2 ++ u.2) :=
  ⟨h.keeps.trans h'.keeps, List.forall_mem_append.mpr ⟨h.effects, h'.effects⟩⟩

/-- Further effects at the end. -/
theorem Plain.more {t : Engine × List Effect} (h : Plain e t) {out : List Effect}
    (hout : ∀ o ∈ out, o.plain = true) : Plain e (t.1, t.2 ++ out) :=
  ⟨h.keeps, List.forall_mem_append.mpr ⟨h.effects, hout⟩⟩

theorem Plain.ite {c : Prop} [Decidable c] {t u : Engine × List Effect} (ht : Plain e t)
    (hu : Plain e u) : Plain e (if c then t else u) := by
  split
  · exact ht
  · exact hu

/-- Only other fields change. -/
theorem plain_of_same {e' : Engine} {out : List Effect}
    (hpending : e'.pendingActions = e.pendingActions)
    (hrequested : e'.requestedModels = e.requestedModels) (hstore : e'.store = e.store)
    (htoken : e'.token = e.token) (hout : ∀ o ∈ out, o.plain = true) : Plain e (e', out) :=
  ⟨⟨hpending, hrequested, congrArg Inner.models hstore, htoken⟩, hout⟩

theorem plain_nil : ∀ o ∈ ([] : List Effect), o.plain = true := List.forall_mem_nil _

theorem plain_one {o : Effect} (h : o.plain = true) : ∀ o' ∈ [o], o'.plain = true :=
  List.forall_mem_singleton.mpr h

theorem plain_refl : Plain e (e, []) := plain_of_same rfl rfl rfl rfl plain_nil

theorem plain_modifyDrive {name : String} {f : DriveRuntime → DriveRuntime} {out : List Effect}
    (hout : ∀ o ∈ out, o.plain = true) : Plain e (e.modifyDrive name f, out) :=
  plain_of_same rfl rfl rfl rfl hout

theorem plain_sendRequest {peer : PeerId} {msg : SyncMsg}
    (h : ∀ id, (Effect.request id peer msg).plain = true) : Plain e (e.sendRequest peer msg) :=
  plain_of_same rfl rfl rfl rfl (plain_one (h _))

theorem plain_sweep {α : Type} {f : Engine → α → Engine × List Effect} {l : List α}
    (hf : ∀ e', ∀ a ∈ l, Plain e' (f e' a)) : Plain e (Lib.sweep f e l) := by
  have hloop := Lib.sweep_spec (f := f) (l := l) (s := e) (P := fun o => o.plain = true)
    (I := fun e' => Plain e (e', []))
    (fun e' a ha h => ⟨⟨h.keeps.trans (hf e' a ha).keeps, plain_nil⟩, (hf e' a ha).effects⟩)
    plain_refl
  exact ⟨hloop.1.keeps, hloop.2⟩

/-! ## Drives -/

theorem plain_openHandshake (name : String) : Plain e (e.openHandshake name) := by
  unfold openHandshake
  cases e.drives[name]? with
  | none => exact plain_refl
  | some rt =>
    refine Plain.ite plain_refl (Plain.ite (plain_of_same rfl rfl rfl rfl (plain_one rfl)) ?_)
    exact plain_of_same rfl rfl rfl rfl (plain_one rfl)

theorem plain_finishGuest (name : String) (peer : PeerId) :
    Plain e (finishGuest env e name peer) := by
  unfold finishGuest
  exact Plain.ite (plain_modifyDrive (plain_one rfl)) plain_refl

theorem plain_openIfConnected (name : String) (peer : PeerId) :
    Plain e (openIfConnected env e name peer) := by
  unfold openIfConnected
  exact Plain.ite (plain_openHandshake name) plain_refl

theorem plain_addDriveInternal (drive : Drive) : Plain e (addDriveInternal env e drive) := by
  unfold addDriveInternal
  dsimp only
  generalize drive.peerId.getD env.randomPeer = peer
  split
  · exact plain_of_same rfl rfl rfl rfl plain_nil
  · generalize DriveRuntime.mk drive _ _ _ _ _ _ _ _ = new
    have hadd : Plain e ({ e with drives := e.drives.insert drive.name new }, []) :=
      plain_of_same rfl rfl rfl rfl plain_nil
    have hguest := hadd.trans (plain_finishGuest env drive.name peer)
    have hopen := hguest.trans (plain_openIfConnected env drive.name peer)
    exact hopen.more (List.forall_mem_cons.mpr ⟨rfl, plain_one rfl⟩)

theorem plain_handleCmd (c : EngineCommand) : Plain e (handleCmd env e c) := by
  cases c with
  | addDrive drive => exact plain_addDriveInternal env drive
  | join drive accept =>
    have hadd := (plain_addDriveInternal (e := e) env drive).trans
      (u := ((addDriveInternal env e drive).1.modifyDrive drive.name
        fun rt => { rt with accept := some accept }, [])) (plain_modifyDrive plain_nil)
    rw [List.append_nil] at hadd
    exact hadd
  | ban peer => exact plain_of_same rfl rfl rfl rfl plain_nil
  | unban peer => exact plain_of_same rfl rfl rfl rfl plain_nil
  | removeDrive name =>
    refine plain_of_same rfl rfl rfl rfl ?_
    split
    · exact plain_one rfl
    · exact plain_nil
  | setPaused name paused =>
    refine plain_of_same rfl rfl rfl rfl ?_
    split
    · exact plain_nil
    · intro o ho
      obtain ⟨rt, -, rfl⟩ := List.mem_map.mp ho
      rfl
  | resync name =>
    unfold handleCmd
    dsimp only
    split
    · exact plain_refl
    · exact Plain.ite (plain_modifyDrive (plain_one rfl))
        (plain_of_same rfl rfl rfl rfl (plain_one rfl))
  | fetchBlob blob => exact plain_sweep fun e' p _ => plain_sendRequest fun _ => rfl
  | shutdown => exact plain_of_same rfl rfl rfl rfl plain_nil

theorem plain_noteSummary (peer : PeerId) (clocks : List (DocId × VecClock)) :
    Plain e (e.noteSummary env peer clocks, []) := by
  unfold noteSummary
  split
  · exact plain_modifyDrive plain_nil
  · exact plain_refl

/-! ## The gates of a hello -/

theorem models_registerPeerKey (s : Inner) (origin : Origin) (key : PublicKey) :
    (Store.registerPeerKey s origin key).1.models = s.models := by
  unfold Store.registerPeerKey
  split
  · split <;> rfl
  · rfl

theorem plain_recordAuthFailure (peer : PeerId) : Plain e (recordAuthFailure env e peer).1 := by
  unfold recordAuthFailure
  dsimp only
  split
  · refine plain_of_same rfl rfl rfl rfl (List.forall_mem_append.mpr ⟨fun o ho => ?_, ?_⟩)
    · obtain ⟨name, -, rfl⟩ := List.mem_map.mp ho
      rfl
    · exact plain_one rfl
  · exact plain_of_same rfl rfl rfl rfl plain_nil

theorem plain_tokenGate (peer : PeerId) (token : Option String) :
    Plain e (tokenGate env e peer token).1 := by
  unfold tokenGate
  split
  · exact plain_refl
  · split
    · exact plain_refl
    · exact plain_recordAuthFailure env peer
  · exact plain_refl

theorem plain_pinGuest {peer : PeerId} {key : PublicKey} {t : Engine × List Effect}
    (h : Plain e t) : Plain e (pinGuest peer key t).1 := by
  have hmodels := models_registerPeerKey t.1.store peer key
  unfold pinGuest
  dsimp only
  cases hreg : Store.registerPeerKey t.1.store peer key with
  | mk store r =>
    rw [hreg] at hmodels
    cases r with
    | error msg =>
      exact ⟨⟨h.keeps.pending, h.keeps.requested, h.keeps.models, h.keeps.token⟩, h.effects⟩
    | ok u =>
      exact ⟨⟨h.keeps.pending, h.keeps.requested, hmodels.trans h.keeps.models, h.keeps.token⟩,
        h.effects⟩

theorem plain_registerHello (peer : PeerId) (token : Option String) (key : PublicKey) :
    Plain e (registerHello env e peer token key).1 := by
  unfold registerHello
  split
  · exact plain_pinGuest plain_refl
  · split
    · exact plain_refl
    · exact plain_pinGuest (plain_modifyDrive (plain_one rfl))

/-! ## Responses -/

theorem plain_sendCatchUp (name : String) (peer : PeerId) (gap : DocId × VecClock) :
    Plain e (sendCatchUp name peer e gap) :=
  plain_of_same rfl rfl rfl rfl (plain_one rfl)

theorem plain_onHelloAck (name : String) (peer : PeerId) (ack : HelloAck) :
    Plain e (onHelloAck env e name peer ack) := by
  have hmodels : (e.pinResponder peer ack.pubkey).1.models = e.store.models := by
    unfold pinResponder
    split
    · exact models_registerPeerKey _ _ _
    · rfl
  unfold onHelloAck
  cases hpin : e.pinResponder peer ack.pubkey with
  | mk store r =>
    rw [hpin] at hmodels
    cases r with
    | error msg => exact plain_of_same rfl rfl rfl rfl (plain_one rfl)
    | ok u =>
      have hnote : Plain e (({ e with store := store }.noteHelloAck env name ack), []) :=
        ⟨⟨rfl, rfl, hmodels, rfl⟩, plain_nil⟩
      dsimp only
      generalize { e with store := store }.noteHelloAck env name ack = e₂ at hnote ⊢
      have hfresh : ∀ o ∈ (if e₂.drives.contains name then [setStatus name .connecting none]
          else []), o.plain = true := by
        split
        · exact plain_one rfl
        · exact plain_nil
      exact Plain.trans (hnote.more hfresh) (plain_sweep fun e' gap _ => plain_sendCatchUp _ _ gap)

theorem plain_putChunk (claimed : Hash32) (bytes : List UInt8) {out : List Effect}
    (hout : ∀ o ∈ out, o.plain = true) : Plain e (putChunk env e claimed bytes, out) := by
  unfold putChunk
  split
  · exact plain_of_same rfl rfl rfl rfl hout
  · exact plain_of_same rfl rfl rfl rfl hout

/-! ## The tick, and connections -/

theorem plain_publishAction (a : Action) : Plain e (publishAction e a) := by
  unfold publishAction
  exact Plain.ite plain_refl (Plain.ite plain_refl
    (plain_of_same rfl rfl rfl rfl (plain_one rfl)))

theorem plain_catchUpDrive (own : Std.ExtTreeMap DocId VecClock) (due : String × DriveRuntime) :
    Plain e (catchUpDrive env own e due) := by
  unfold catchUpDrive
  have hnext : Plain e (e.modifyDrive due.1 fun rt =>
      { rt with nextCatchUp := env.now + catchUpTick }, []) := plain_modifyDrive plain_nil
  exact hnext.trans (plain_sweep fun e' gap _ => plain_sendCatchUp _ _ gap)

theorem plain_summarizeDrive (own : Std.ExtTreeMap DocId VecClock) (due : String × DriveRuntime) :
    Plain e (summarizeDrive own e due) := by
  have hsend : Plain e (e.sendRequest due.2.peer (.summary own.toList)) :=
    plain_sendRequest fun _ => rfl
  unfold summarizeDrive
  dsimp only
  split
  · exact hsend
  · exact Plain.ite (hsend.trans (plain_modifyDrive (plain_one rfl))) hsend

theorem plain_tick (lastActivity : ℕ) : Plain e (tick env e lastActivity) := by
  have hdrain : Plain e e.drainQueue := by
    have htake : Plain e ({ e with store := (Store.drainOutbound e.store).1 }, []) :=
      ⟨⟨rfl, rfl, rfl, rfl⟩, plain_nil⟩
    exact htake.trans (plain_sweep fun e' a _ => plain_publishAction a)
  have hidle : Plain e.drainQueue.1 (e.drainQueue.1.noteIdle env lastActivity, []) :=
    plain_of_same rfl rfl rfl rfl plain_nil
  have hask : ∀ e' : Engine, Plain e' (e'.exchange env) := fun e' =>
    Plain.trans (plain_sweep fun _ due _ => plain_catchUpDrive env _ due)
      (plain_sweep fun _ due _ => plain_summarizeDrive _ due)
  have hall := (hdrain.trans hidle).trans (hask _)
  rw [List.append_nil] at hall
  exact hall

theorem plain_onConnectionEstablished (peer : PeerId) :
    Plain e (onConnectionEstablished env e peer) := by
  unfold onConnectionEstablished
  split
  · exact plain_openHandshake _
  · exact plain_refl

theorem plain_onConnectionClosed (peer : PeerId) (numEstablished : ℕ) :
    Plain e (onConnectionClosed env e peer numEstablished) := by
  unfold onConnectionClosed
  split
  · exact plain_refl
  · split
    · exact plain_refl
    · exact plain_modifyDrive (plain_one rfl)

theorem plain_onOutboundFailure (peer : PeerId) : Plain e (onOutboundFailure env e peer) := by
  unfold onOutboundFailure
  split
  · exact plain_refl
  · exact Plain.ite plain_refl (plain_modifyDrive (plain_one rfl))

/-! ## Remote actions -/

theorem requestModel_spec (peer : PeerId) (ref : ModelRef) :
    (e.requestModel peer ref).1.store = e.store ∧ (e.requestModel peer ref).1.token = e.token ∧
      ∀ o ∈ (e.requestModel peer ref).2, o.plain = true ∨ o.fetches = true := by
  unfold requestModel
  dsimp only
  split
  · exact ⟨rfl, rfl, List.forall_mem_nil _⟩
  · exact ⟨rfl, rfl, List.forall_mem_singleton.mpr (Or.inr rfl)⟩

/-- A remote action leaves the registry as it is. -/
theorem models_of_applied {s t : Inner} {io : Io} {a : Action} {r : Except String ApplyResult}
    (h : Store.applyRemoteAction s io a = (t, r)) : t.models = s.models := by
  rw [← (s.sameSetup_applyAction io a).models]
  exact (congrArg (fun x => x.1.models) h).symm

/-- Held or applied, a remote action changes neither the registry nor the token, and sends nothing
    but requests for its model. -/
theorem applyRemoteAction_spec (peer : Option PeerId) (a : Action) :
    (applyRemoteAction env e peer a).1.1.store.models = e.store.models ∧
      (applyRemoteAction env e peer a).1.1.token = e.token ∧
      ∀ o ∈ (applyRemoteAction env e peer a).1.2, o.plain = true ∨ o.fetches = true := by
  unfold applyRemoteAction
  split
  · have hnote : ∀ e' : Engine, (e'.notePending a).store = e'.store ∧
        (e'.notePending a).token = e'.token := by
      intro e'
      unfold notePending
      split <;> exact ⟨rfl, rfl⟩
    have hask : (e.requestModelFrom peer a.model).1.store = e.store ∧
        (e.requestModelFrom peer a.model).1.token = e.token ∧
        ∀ o ∈ (e.requestModelFrom peer a.model).2, o.plain = true ∨ o.fetches = true := by
      cases peer with
      | none => exact ⟨rfl, rfl, List.forall_mem_nil _⟩
      | some p => exact requestModel_spec p a.model
    dsimp only
    rw [(hnote _).1, (hnote _).2, hask.1, hask.2.1]
    exact ⟨rfl, rfl, hask.2.2⟩
  · cases hres : Store.applyRemoteAction e.store (env.io e.store a) a with
    | mk store r =>
      have hstore := models_of_applied hres
      cases r with
      | error msg => exact ⟨hstore, rfl, List.forall_mem_nil _⟩
      | ok r =>
        dsimp only
        split
        · exact ⟨hstore, rfl, List.forall_mem_singleton.mpr (Or.inl rfl)⟩
        · exact ⟨hstore, rfl, List.forall_mem_nil _⟩

theorem applyRemoteActions_spec (peer : Option PeerId) (l : List Action) :
    (applyRemoteActions env peer e l).1.1.store.models = e.store.models ∧
      (applyRemoteActions env peer e l).1.1.token = e.token ∧
      ∀ o ∈ (applyRemoteActions env peer e l).1.2, o.plain = true ∨ o.fetches = true := by
  induction l generalizing e with
  | nil => exact ⟨rfl, rfl, List.forall_mem_nil _⟩
  | cons a rest ih =>
    obtain ⟨hmodels, htoken, hout⟩ := applyRemoteAction_spec (e := e) env peer a
    obtain ⟨hmodels', htoken', hout'⟩ := ih (e := (applyRemoteAction env e peer a).1.1)
    exact ⟨hmodels'.trans hmodels, htoken'.trans htoken,
      List.forall_mem_append.mpr ⟨hout, hout'⟩⟩

/-! ## The token, and who is answered -/

theorem keeps_handleInviteAccept (peer : PeerId) (accept : InviteAccept) :
    Keeps e (handleInviteAccept env e peer accept).1 := by
  have hmodels := models_registerPeerKey e.store accept.peerId accept.key
  unfold handleInviteAccept
  split
  · exact ⟨rfl, rfl, rfl, rfl⟩
  · split
    · exact ⟨rfl, rfl, rfl, rfl⟩
    · cases hreg : Store.registerPeerKey e.store accept.peerId accept.key with
      | mk store r =>
        rw [hreg] at hmodels
        cases r with
        | error msg => exact ⟨rfl, rfl, rfl, rfl⟩
        | ok u =>
          have hpin : Keeps e { e with store := store } := ⟨rfl, rfl, hmodels, rfl⟩
          exact hpin.trans (plain_addDriveInternal env (joinerDrive peer accept)).keeps

theorem keeps_acceptInvite (peer : PeerId) (accept : Option InviteAccept) :
    Keeps e (acceptInvite env e peer accept).1 := by
  cases accept with
  | some accept => exact keeps_handleInviteAccept env peer accept
  | none => exact ⟨rfl, rfl, rfl, rfl⟩

theorem keeps_serveHello (peer : PeerId) (h : Hello) : Keeps e (serveHello env e peer h).1 := by
  unfold serveHello
  split
  · exact ⟨rfl, rfl, rfl, rfl⟩
  · split
    · exact ⟨rfl, rfl, rfl, rfl⟩
    · have hjoin := keeps_acceptInvite (e := e) env peer h.accept
      generalize acceptInvite env e peer h.accept = t at hjoin ⊢
      obtain ⟨e₁, joined⟩ := t
      have htoken := hjoin.trans (plain_tokenGate env peer h.token).keeps
      dsimp only at htoken ⊢
      cases hgate : tokenGate env e₁ peer h.token with
      | mk t err =>
        obtain ⟨e₂, out⟩ := t
        rw [hgate] at htoken
        cases err with
        | some err => exact htoken
        | none =>
          dsimp only
          split
          · exact htoken
          · next key _ =>
            have hreg := htoken.trans (plain_registerHello env peer h.token key).keeps
            dsimp only at hreg
            cases hres : registerHello env e₂ peer h.token key with
            | mk t err =>
              obtain ⟨e₃, out₃⟩ := t
              rw [hres] at hreg
              cases err with
              | some err => exact hreg
              | none => exact hreg

theorem keeps_serveRequest (peer : PeerId) (msg : SyncMsg) :
    Keeps e (serveRequest env e peer msg).1 := by
  unfold serveRequest
  split
  · exact keeps_serveHello env peer _
  · exact ⟨rfl, rfl, rfl, rfl⟩
  · next clocks => exact (plain_noteSummary env peer clocks).keeps
  · exact ⟨rfl, rfl, rfl, rfl⟩
  · exact ⟨rfl, rfl, rfl, rfl⟩
  · exact ⟨rfl, rfl, rfl, rfl⟩

theorem onModelDef_spec (peer : PeerId) (ref : ModelRef) (def_ : Option Value) :
    (onModelDef env e peer ref def_).1.token = e.token ∧
      ∀ o ∈ (onModelDef env e peer ref def_).2, o.plain = true ∨ o.fetches = true := by
  unfold onModelDef
  cases def_ with
  | none => exact ⟨rfl, List.forall_mem_nil _⟩
  | some d =>
    dsimp only
    split
    · exact ⟨rfl, List.forall_mem_nil _⟩
    · split
      · exact ⟨rfl, List.forall_mem_nil _⟩
      · cases L1.fromDef d with
        | error msg => exact ⟨rfl, List.forall_mem_nil _⟩
        | ok m =>
          obtain ⟨-, htoken, hout⟩ := applyRemoteActions_spec env
            (e := { e with
              store := Store.addModel e.store (.l1 m)
              requestedModels := e.requestedModels.erase (toLex (ref.name, ref.version))
              pendingActions := e.pendingActions.filter fun p =>
                !(p.1.name == ref.name && p.1.version == ref.version) }) (some peer)
            ((e.pendingActions.filter fun p =>
              p.1.name == ref.name && p.1.version == ref.version).map Prod.snd)
          exact ⟨htoken, hout⟩

theorem onCatchUpAck_spec (name : String) (peer : PeerId) (ack : CatchUpAck) :
    (onCatchUpAck env e name peer ack).1.store.models = e.store.models ∧
      (onCatchUpAck env e name peer ack).1.token = e.token ∧
      ∀ o ∈ (onCatchUpAck env e name peer ack).2, o.plain = true ∨ o.fetches = true := by
  obtain ⟨hmodels, htoken, hout⟩ := applyRemoteActions_spec (e := e) env (some peer)
    ack.actions
  unfold onCatchUpAck
  generalize applyRemoteActions env (some peer) e ack.actions = t at hmodels htoken hout ⊢
  obtain ⟨⟨e₁, out⟩, applied⟩ := t
  dsimp only at hmodels htoken hout ⊢
  split
  · exact ⟨hmodels, htoken, List.forall_mem_append.mpr
      ⟨hout, List.forall_mem_singleton.mpr (Or.inl rfl)⟩⟩
  · exact ⟨hmodels, htoken, hout⟩

theorem onResponse_spec (peer : PeerId) (id : ℕ) (msg : SyncMsg) :
    ((∀ ref def_, msg ≠ .modelDef ref def_) →
      (onResponse env e peer id msg).1.store.models = e.store.models) ∧
      (onResponse env e peer id msg).1.token = e.token ∧
      ∀ o ∈ (onResponse env e peer id msg).2, o.plain = true ∨ o.fetches = true := by
  unfold onResponse
  cases e.driveNameByPeer env peer with
  | none => exact ⟨fun _ => rfl, rfl, List.forall_mem_nil _⟩
  | some name =>
    cases msg with
    | helloAck ack =>
      have hack := plain_onHelloAck env (e := e.modifyDrive name fun rt =>
        { rt with inFlight := rt.inFlight.erase id }) name peer ack
      exact ⟨fun _ => hack.keeps.models, hack.keeps.token, fun o ho => Or.inl (hack.effects o ho)⟩
    | helloErr err => exact ⟨fun _ => rfl, rfl, List.forall_mem_singleton.mpr (Or.inl rfl)⟩
    | catchUpAck ack =>
      obtain ⟨hmodels, hrest⟩ := onCatchUpAck_spec env (e := e.modifyDrive name fun rt =>
        { rt with inFlight := rt.inFlight.erase id }) name peer ack
      exact ⟨fun _ => hmodels, hrest⟩
    | summaryAck clocks => exact ⟨fun _ => rfl, rfl, List.forall_mem_nil _⟩
    | modelDef ref def_ =>
      exact ⟨fun hno => absurd rfl (hno ref def_), onModelDef_spec env peer ref def_⟩
    | chunkData hash bytes =>
      cases bytes with
      | none => exact ⟨fun _ => rfl, rfl, List.forall_mem_nil _⟩
      | some bytes =>
        have hput := plain_putChunk env (e := e.modifyDrive name fun rt =>
          { rt with inFlight := rt.inFlight.erase id }) hash bytes
          (plain_one (o := .event (.chunkStored hash)) rfl)
        exact ⟨fun _ => hput.keeps.models, hput.keeps.token,
          fun o ho => Or.inl (hput.effects o ho)⟩
    | _ => exact ⟨fun _ => rfl, rfl, List.forall_mem_nil _⟩

/-- The inputs that may change the registry: a registration, and a definition from the mesh. -/
def Input.loads : Input → Bool
  | .store (.addModel _) => true
  | .response _ _ (.modelDef _ _) => true
  | _ => false

/-- What a turn on `i` does at most: unless `i` is a request, the effects are plain or ask for
    models, and unless `i` loads one, the registry stays. -/
structure Bounded (e : Engine) (i : Input) (t : Engine × List Effect) : Prop where
  models : i.loads = false → t.1.store.models = e.store.models
  token : t.1.token = e.token
  effects : (∀ peer msg, i ≠ .request peer msg) → ∀ o ∈ t.2, o.plain = true ∨ o.fetches = true

theorem Plain.bounded {i : Input} {t : Engine × List Effect} (h : Plain e t) : Bounded e i t :=
  ⟨fun _ => h.keeps.models, h.keeps.token, fun _ o ho => Or.inl (h.effects o ho)⟩

/-- **Any turn**: only requests are answered, and only their handler admits; only a registration and
    a definition change the registry; and nothing changes the token. -/
theorem bounded_turn (i : Input) : Bounded e i (turn env e i) := by
  cases i with
  | store ev =>
    refine ⟨fun hloads => ?_, rfl, fun _ => List.forall_mem_nil _⟩
    refine e.store.models_exec ev fun m hm => ?_
    rw [hm] at hloads
    cases hloads
  | cmd c => exact (plain_handleCmd env c).bounded
  | tick lastActivity => exact (plain_tick env lastActivity).bounded
  | outbound =>
    unfold turn
    dsimp only
    split
    · next a rest _ =>
      have hpub := plain_publishAction
        (e := { e with store := { e.store with outboundFeed := some rest } }) a
      exact ⟨fun _ => hpub.keeps.models, hpub.keeps.token,
        fun _ o ho => Or.inl (hpub.effects o ho)⟩
    · exact plain_refl.bounded
  | newListenAddr addr =>
    have hplain : Plain e (turn env e (.newListenAddr addr)) := by
      unfold turn
      exact Plain.ite plain_refl (plain_of_same rfl rfl rfl rfl (plain_one rfl))
    exact hplain.bounded
  | connectionEstablished peer =>
    have hopen := plain_onConnectionEstablished (e := e) env peer
    exact Plain.bounded ⟨hopen.keeps, List.forall_mem_cons.mpr ⟨rfl, hopen.effects⟩⟩
  | connectionClosed peer numEstablished =>
    exact (plain_onConnectionClosed env peer numEstablished).bounded
  | gossip source msg =>
    obtain ⟨hmodels, htoken, hout⟩ := applyRemoteAction_spec (e := e) env source msg.action
    exact ⟨fun _ => hmodels, htoken, fun _ => hout⟩
  | request peer msg =>
    have hkeeps := keeps_serveRequest (e := e) env peer msg
    exact ⟨fun _ => hkeeps.models, hkeeps.token, fun hno => absurd rfl (hno peer msg)⟩
  | response peer id msg =>
    obtain ⟨hmodels, htoken, hout⟩ := onResponse_spec (e := e) env peer id msg
    refine ⟨fun hloads => hmodels ?_, htoken, fun _ => hout⟩
    rintro ref def_ rfl
    cases hloads
  | outboundFailure peer => exact (plain_onOutboundFailure env peer).bounded

/-- The token is what it was at the start. -/
theorem token_run (e : Engine) (ins : List (Env × Input)) : (machine.run e ins).token = e.token :=
  machine.run_invariant (I := fun _ e' => e'.token = e.token) rfl (fun past e' x h => by
    show (e'.step x).1.token = _
    unfold step
    split
    · exact (bounded_turn x.1 x.2).token.trans h
    · exact h) ins

end

end Engine

end PhReactor
