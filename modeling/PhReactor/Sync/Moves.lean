/-
  What a turn of the engine can do, said ONCE.

  1. `StoreSteps`: the engine touches the store through the store's own events only (and takes
     actions off the outbound feed).  So what every event keeps, every turn keeps.

  2. `Heard`: the documents for which the engine has a clock from a drive's peer.  A turn learns
     only what a message of that very peer names.

  3. Three kinds of effect matter to what leaves the node unasked: a publication, a catch-up
     request and a summary.  All others are `quiet`.

  `Moves` bundles the three, every handler has its lemma, and `moves_turn` is the case analysis
  over the inputs.
-/
import Mathlib.Logic.Relation
import PhReactor.Store.Outbound
import PhReactor.Sync.Engine

set_option linter.unusedSectionVars false

namespace PhReactor

variable [Primitives]

/-! ## The store under the engine -/

/-- An event, or the next action taken off the outbound feed. -/
inductive StoreStep : Inner → Inner → Prop
  | exec (s : Inner) (ev : Event) : StoreStep s (s.exec ev)
  | receive {s : Inner} {a : Action} {rest : List Action} (h : s.outboundFeed = some (a :: rest)) :
    StoreStep s { s with outboundFeed := some rest }

def StoreSteps : Inner → Inner → Prop := Relation.ReflTransGen StoreStep

theorem StoreSteps.refl (s : Inner) : StoreSteps s s := Relation.ReflTransGen.refl

theorem StoreSteps.exec (s : Inner) (ev : Event) : StoreSteps s (s.exec ev) :=
  Relation.ReflTransGen.single (.exec s ev)

theorem StoreSteps.registerPeerKey {s t : Inner} {origin : Origin} {key : PublicKey}
    {r : Except String Unit} (h : Store.registerPeerKey s origin key = (t, r)) :
    StoreSteps s t := by
  have hexec : s.exec (.registerPeerKey origin key) = t := congrArg Prod.fst h
  rw [← hexec]
  exact .exec s _

theorem queueHeld_steps {s t : Inner} (h : QueueHeld s) (hst : StoreSteps s t) : QueueHeld t := by
  induction hst with
  | refl => exact h
  | tail _ hstep ih =>
    cases hstep with
    | exec ev => exact queueHeld_exec ih ev
    | receive hfeed =>
      intro a ha
      refine ih a (Inner.mem_queue.mpr ?_)
      rcases Inner.mem_queue.mp ha with ha | ha
      · exact Or.inl ha
      · rw [hfeed]
        exact Or.inr (List.mem_cons_of_mem _ ha)

/-- Neither a publication nor a request that names documents. -/
def Effect.quiet : Effect → Bool
  | .publish _ => false
  | .request _ _ msg => msg.docs.isEmpty
  | _ => true

namespace Engine

/-! ## Moves -/

/-- The engine has a clock for `d` from a drive of peer `p`. -/
def Heard (e : Engine) (p : PeerId) (d : DocId) : Prop :=
  ∃ (name : String) (rt : DriveRuntime), e.drives[name]? = some rt ∧ rt.peer = p ∧
    d ∈ rt.remoteClocks

/-- The drive `name` is one of `peer`. -/
def OfPeer (e : Engine) (name : String) (peer : PeerId) : Prop :=
  ∃ rt, e.drives[name]? = some rt ∧ rt.peer = peer

/-- From `e` to `t`: the store goes through its own events, what is heard was heard before or is
    learnt (`L`), and every effect is as expected (`P`). -/
structure Moves (L : PeerId → DocId → Prop) (P : Effect → Prop) (e : Engine)
    (t : Engine × List Effect) : Prop where
  store : StoreSteps e.store t.1.store
  heard : ∀ p d, t.1.Heard p d → e.Heard p d ∨ L p d
  effects : ∀ o ∈ t.2, P o

section Moves

variable {L : PeerId → DocId → Prop} {P : Effect → Prop} {e : Engine}

theorem Moves.mono {P' : Effect → Prop} {t : Engine × List Effect} (h : Moves L P e t)
    (hP : ∀ o, P o → P' o) : Moves L P' e t :=
  ⟨h.store, h.heard, fun o ho => hP o (h.effects o ho)⟩

theorem Moves.trans {t u : Engine × List Effect} (h : Moves L P e t) (h' : Moves L P t.1 u) :
    Moves L P e (u.1, t.2 ++ u.2) where
  store := h.store.trans h'.store
  heard := fun p d hd => by
    rcases h'.heard p d hd with hd | hd
    · exact h.heard p d hd
    · exact Or.inr hd
  effects := fun o ho => by
    rcases List.mem_append.mp ho with ho | ho
    · exact h.effects o ho
    · exact h'.effects o ho

/-- Further effects at the end. -/
theorem Moves.more {t : Engine × List Effect} (h : Moves L P e t) {out : List Effect}
    (hout : ∀ o ∈ out, P o) : Moves L P e (t.1, t.2 ++ out) :=
  ⟨h.store, h.heard, List.forall_mem_append.mpr ⟨h.effects, hout⟩⟩

/-- Neither store nor drives change. -/
theorem moves_of_same {e' : Engine} {out : List Effect} (hstore : e'.store = e.store)
    (hdrives : e'.drives = e.drives) (hout : ∀ o ∈ out, P o) : Moves L P e (e', out) where
  store := by
    show StoreSteps e.store e'.store
    rw [hstore]
    exact .refl _
  heard := fun p d hd => by
    left
    unfold Heard at hd ⊢
    rwa [hdrives] at hd
  effects := hout

theorem moves_refl : Moves L P e (e, []) :=
  moves_of_same rfl rfl fun _ ho => absurd ho List.not_mem_nil

theorem Moves.ite {c : Prop} [Decidable c] {t u : Engine × List Effect} (ht : Moves L P e t)
    (hu : Moves L P e u) : Moves L P e (if c then t else u) := by
  split
  · exact ht
  · exact hu

/-- The store moves on. -/
theorem moves_store {store : Inner} (hstore : StoreSteps e.store store) {out : List Effect}
    (hout : ∀ o ∈ out, P o) : Moves L P e ({ e with store := store }, out) where
  store := hstore
  heard := fun _ _ hd => Or.inl hd
  effects := hout

theorem getElem?_modifyDrive (e : Engine) (name name' : String) (f : DriveRuntime → DriveRuntime) :
    (e.modifyDrive name f).drives[name']? =
      if name = name' then e.drives[name']?.map f else e.drives[name']? := by
  show (e.drives.modify name f)[name']? = _
  rw [Std.ExtTreeMap.getElem?_modify]
  by_cases h : name = name'
  · subst h
    rw [if_pos Std.compare_self, if_pos rfl]
  · rw [if_neg h, if_neg fun hc => h (Std.compare_eq_iff_eq.mp hc)]

/-- A drive is updated, and keeps its peer. -/
theorem moves_modifyDrive {name : String} {f : DriveRuntime → DriveRuntime}
    (hf : ∀ rt, e.drives[name]? = some rt → (f rt).peer = rt.peer ∧
      ∀ d ∈ (f rt).remoteClocks, d ∈ rt.remoteClocks ∨ L rt.peer d)
    {out : List Effect} (hout : ∀ o ∈ out, P o) : Moves L P e (e.modifyDrive name f, out) where
  store := .refl _
  heard := by
    rintro p d ⟨name', rt', hget, hp, hd⟩
    rw [getElem?_modifyDrive] at hget
    split at hget
    · next hname =>
      subst hname
      obtain ⟨rt, hrt, rfl⟩ := Option.map_eq_some_iff.mp hget
      obtain ⟨hpeer, hclocks⟩ := hf rt hrt
      rw [hpeer] at hp
      rcases hclocks d hd with hd | hd
      · exact Or.inl ⟨name, rt, hrt, hp, hd⟩
      · exact Or.inr (hp ▸ hd)
    · exact Or.inl ⟨name', rt', hget, hp, hd⟩
  effects := hout

/-- The same, when the clocks stay. -/
theorem moves_modifyDrive_same {name : String} {f : DriveRuntime → DriveRuntime}
    (hf : ∀ rt, (f rt).peer = rt.peer ∧ (f rt).remoteClocks = rt.remoteClocks)
    {out : List Effect} (hout : ∀ o ∈ out, P o) : Moves L P e (e.modifyDrive name f, out) :=
  moves_modifyDrive (fun rt _ => ⟨(hf rt).1, fun _ hd => Or.inl ((hf rt).2 ▸ hd)⟩) hout

theorem moves_sweep {α : Type} {f : Engine → α → Engine × List Effect} {l : List α}
    (hf : ∀ e', ∀ a ∈ l, Moves L P e' (f e' a)) : Moves L P e (Lib.sweep f e l) := by
  have hloop := Lib.sweep_spec (f := f) (l := l) (s := e) (P := P)
    (I := fun e' => Moves L P e (e', []))
    (fun e' a ha h => by
      have hnext : Moves L P e ((f e' a).1, [] ++ (f e' a).2) := h.trans (hf e' a ha)
      exact ⟨⟨hnext.store, hnext.heard, h.effects⟩, (hf e' a ha).effects⟩)
    moves_refl
  exact ⟨hloop.1.store, hloop.1.heard, hloop.2⟩

/-- A drive is registered; it has no clocks yet. -/
theorem moves_insertDrive {name : String} {new : DriveRuntime} (hnew : new.remoteClocks = ∅)
    {out : List Effect} (hout : ∀ o ∈ out, P o) :
    Moves L P e ({ e with drives := e.drives.insert name new }, out) where
  store := .refl _
  heard := by
    rintro p d ⟨name', rt', hget, hp, hd⟩
    replace hget : (e.drives.insert name new)[name']? = some rt' := hget
    rw [Std.ExtTreeMap.getElem?_insert] at hget
    split at hget
    · rw [← Option.some.inj hget, hnew] at hd
      exact absurd hd Std.ExtTreeMap.not_mem_empty
    · exact Or.inl ⟨name', rt', hget, hp, hd⟩
  effects := hout

theorem moves_eraseDrive {name : String} {out : List Effect} (hout : ∀ o ∈ out, P o) :
    Moves L P e ({ e with drives := e.drives.erase name }, out) where
  store := .refl _
  heard := by
    rintro p d ⟨name', rt', hget, hp, hd⟩
    replace hget : (e.drives.erase name)[name']? = some rt' := hget
    rw [Std.ExtTreeMap.getElem?_erase] at hget
    split at hget
    · exact nomatch hget
    · exact Or.inl ⟨name', rt', hget, hp, hd⟩
  effects := hout

theorem moves_sendRequest {peer : PeerId} {msg : SyncMsg} (hP : ∀ id, P (.request id peer msg)) :
    Moves L P e (e.sendRequest peer msg) :=
  moves_of_same rfl rfl fun o ho => by
    rw [List.mem_singleton.mp ho]
    exact hP _

/-- The drive that is found belongs to the peer. -/
theorem driveNameByPeer_spec {env : Env} {peer : PeerId} {name : String}
    (h : e.driveNameByPeer env peer = some name) : e.OfPeer name peer := by
  have hfound := List.find?_some h
  obtain ⟨rt, hrt, hpeer⟩ := (Option.any_eq_true _ _).mp hfound
  exact ⟨rt, hrt, beq_iff_eq.mp hpeer⟩

theorem OfPeer.peer_eq {name : String} {peer : PeerId} (h : e.OfPeer name peer)
    {rt : DriveRuntime} (hrt : e.drives[name]? = some rt) : rt.peer = peer := by
  obtain ⟨rt', hrt', hpeer⟩ := h
  rw [← Option.some.inj (hrt'.symm.trans hrt)]
  exact hpeer

theorem OfPeer.modifyDrive {name : String} {peer : PeerId} (h : e.OfPeer name peer)
    {f : DriveRuntime → DriveRuntime} (hf : ∀ rt, (f rt).peer = rt.peer) :
    (e.modifyDrive name f).OfPeer name peer := by
  obtain ⟨rt, hrt, hpeer⟩ := h
  refine ⟨f rt, ?_, (hf rt).trans hpeer⟩
  rw [getElem?_modifyDrive, if_pos rfl, hrt]
  rfl

end Moves

/-! ## The quiet handlers -/

/-- A move with quiet effects only. -/
abbrev Calm (L : PeerId → DocId → Prop) (e : Engine) (t : Engine × List Effect) : Prop :=
  Moves L (fun o => o.quiet = true) e t

theorem quiet_nil : ∀ o ∈ ([] : List Effect), o.quiet = true := List.forall_mem_nil _

theorem quiet_one {o : Effect} (h : o.quiet = true) : ∀ o' ∈ [o], o'.quiet = true :=
  List.forall_mem_singleton.mpr h

theorem quiet_cons {o : Effect} {l : List Effect} (h : o.quiet = true)
    (hl : ∀ o' ∈ l, o'.quiet = true) : ∀ o' ∈ o :: l, o'.quiet = true :=
  List.forall_mem_cons.mpr ⟨h, hl⟩

section Calm

variable {L : PeerId → DocId → Prop} {e : Engine}

theorem calm_openHandshake (name : String) : Calm L e (e.openHandshake name) := by
  unfold openHandshake
  cases hrt : e.drives[name]? with
  | none => exact moves_refl
  | some rt =>
    dsimp only
    split
    · exact moves_refl
    · split
      · exact moves_of_same rfl rfl (quiet_one rfl)
      · have htake : Calm L e (e.modifyDrive name fun rt => { rt with accept := none }, []) :=
          moves_modifyDrive_same (by exact fun _ => ⟨rfl, rfl⟩) quiet_nil
        exact htake.trans (moves_sendRequest fun _ => rfl)

theorem calm_notePending (a : Action) : Calm L e (e.notePending a, []) := by
  unfold notePending
  split
  · exact moves_refl
  · exact moves_of_same rfl rfl quiet_nil

theorem calm_requestModel (peer : PeerId) (ref : ModelRef) :
    Calm L e (e.requestModel peer ref) := by
  unfold requestModel
  exact Moves.ite moves_refl (moves_of_same rfl rfl (quiet_one rfl))

theorem calm_applyRemoteAction (env : Env) (peer : Option PeerId) (a : Action) :
    Calm L e (applyRemoteAction env e peer a).1 := by
  unfold applyRemoteAction
  split
  · -- the model is missing: ask for it, and hold the action
    have hask : Calm L e (e.requestModelFrom peer a.model) := by
      cases peer with
      | some p => exact calm_requestModel p a.model
      | none => exact moves_refl
    have hboth := hask.trans (calm_notePending a)
    rw [List.append_nil] at hboth
    exact hboth
  · cases hres : Store.applyRemoteAction e.store (env.io e.store a) a with
    | mk store r =>
      have hexec : e.store.exec (.applyAction (env.io e.store a) a) = store :=
        congrArg Prod.fst hres
      have hstore : StoreSteps e.store store := by
        rw [← hexec]
        exact .exec e.store _
      cases r with
      | error msg => exact moves_store hstore quiet_nil
      | ok r =>
        dsimp only
        split
        · exact moves_store hstore (quiet_one rfl)
        · exact moves_store hstore quiet_nil

theorem calm_applyRemoteActions (env : Env) (peer : Option PeerId) (l : List Action) :
    Calm L e (applyRemoteActions env peer e l).1 := by
  induction l generalizing e with
  | nil => exact moves_refl
  | cons a rest ih => exact (calm_applyRemoteAction env peer a).trans ih

theorem drives_applyRemoteAction (env : Env) (e : Engine) (peer : Option PeerId) (a : Action) :
    (applyRemoteAction env e peer a).1.1.drives = e.drives := by
  have hnote : ∀ e' : Engine, (e'.notePending a).drives = e'.drives := by
    intro e'
    unfold notePending
    split <;> rfl
  have hask : (e.requestModelFrom peer a.model).1.drives = e.drives := by
    cases peer with
    | none => rfl
    | some p =>
      show (e.requestModel p a.model).1.drives = e.drives
      unfold requestModel
      dsimp only
      split <;> rfl
  unfold applyRemoteAction
  split
  · exact (hnote _).trans hask
  · split
    · split <;> rfl
    · rfl

theorem drives_applyRemoteActions (env : Env) (peer : Option PeerId) (l : List Action)
    (e : Engine) : (applyRemoteActions env peer e l).1.1.drives = e.drives := by
  induction l generalizing e with
  | nil => rfl
  | cons a rest ih => exact (ih _).trans (drives_applyRemoteAction env e peer a)

theorem calm_finishGuest (env : Env) (name : String) (peer : PeerId) :
    Calm L e (finishGuest env e name peer) := by
  unfold finishGuest
  exact Moves.ite (moves_modifyDrive_same (by exact fun _ => ⟨rfl, rfl⟩) (quiet_one rfl)) moves_refl

theorem calm_openIfConnected (env : Env) (name : String) (peer : PeerId) :
    Calm L e (openIfConnected env e name peer) := by
  unfold openIfConnected
  exact Moves.ite (calm_openHandshake name) moves_refl

theorem calm_addDriveInternal (env : Env) (drive : Drive) :
    Calm L e (addDriveInternal env e drive) := by
  unfold addDriveInternal
  dsimp only
  generalize drive.peerId.getD env.randomPeer = peer
  split
  · exact moves_insertDrive rfl quiet_nil
  · generalize hnew : DriveRuntime.mk drive _ _ _ _ _ _ _ _ = new
    have hadd : Calm L e ({ e with drives := e.drives.insert drive.name new }, []) :=
      moves_insertDrive (by rw [← hnew]) quiet_nil
    have hguest := hadd.trans (calm_finishGuest env drive.name peer)
    have hopen := hguest.trans (calm_openIfConnected env drive.name peer)
    exact hopen.more (quiet_cons rfl (quiet_one rfl))

theorem calm_handleInviteAccept (env : Env) (peer : PeerId) (accept : InviteAccept) :
    Calm L e (handleInviteAccept env e peer accept) := by
  unfold handleInviteAccept
  split
  · exact moves_refl
  · split
    · exact moves_refl
    · cases hreg : Store.registerPeerKey e.store accept.peerId accept.key with
      | mk store r =>
        cases r with
        | error msg => exact moves_refl
        | ok u =>
          have hpin : Calm L e ({ e with store := store }, []) :=
            moves_store (.registerPeerKey hreg) quiet_nil
          have hadd := hpin.trans (calm_addDriveInternal env (joinerDrive peer accept))
          exact hadd.more (quiet_cons rfl (quiet_one rfl))

theorem calm_acceptInvite (env : Env) (peer : PeerId) (accept : Option InviteAccept) :
    Calm L e (acceptInvite env e peer accept) := by
  cases accept with
  | some accept => exact calm_handleInviteAccept env peer accept
  | none => exact moves_refl

theorem calm_recordAuthFailure (env : Env) (peer : PeerId) :
    Calm L e (recordAuthFailure env e peer).1 := by
  unfold recordAuthFailure
  dsimp only
  split
  · refine moves_of_same rfl rfl (List.forall_mem_append.mpr ⟨fun o ho => ?_, quiet_one rfl⟩)
    obtain ⟨name, -, rfl⟩ := List.mem_map.mp ho
    rfl
  · exact moves_of_same rfl rfl quiet_nil

theorem calm_handleCmd (env : Env) (c : EngineCommand) : Calm L e (handleCmd env e c) := by
  cases c with
  | addDrive drive => exact calm_addDriveInternal env drive
  | join drive accept =>
    have hnote : Calm L (addDriveInternal env e drive).1
        ((addDriveInternal env e drive).1.modifyDrive drive.name
          fun rt => { rt with accept := some accept }, []) := by
      refine moves_modifyDrive_same (fun rt => ?_) quiet_nil
      exact ⟨rfl, rfl⟩
    have hadd := (calm_addDriveInternal env drive).trans hnote
    rw [List.append_nil] at hadd
    exact hadd
  | ban peer => exact moves_of_same rfl rfl quiet_nil
  | unban peer => exact moves_of_same rfl rfl quiet_nil
  | removeDrive name =>
    refine moves_eraseDrive ?_
    split
    · exact quiet_one rfl
    · exact quiet_nil
  | setPaused name paused =>
    refine moves_modifyDrive_same (by exact fun _ => ⟨rfl, rfl⟩) ?_
    split
    · exact quiet_nil
    · intro o ho
      obtain ⟨rt, -, rfl⟩ := List.mem_map.mp ho
      rfl
  | resync name =>
    unfold handleCmd
    dsimp only
    split
    · exact moves_refl
    · exact Moves.ite (moves_modifyDrive_same (by exact fun _ => ⟨rfl, rfl⟩) (quiet_one rfl))
        (moves_of_same rfl rfl (quiet_one rfl))
  | fetchBlob blob => exact moves_sweep fun e' p _ => moves_sendRequest fun _ => rfl
  | shutdown => exact moves_of_same rfl rfl quiet_nil

theorem calm_tokenGate (env : Env) (peer : PeerId) (token : Option String) :
    Calm L e (tokenGate env e peer token).1 := by
  unfold tokenGate
  split
  · exact moves_refl
  · split
    · exact moves_refl
    · exact calm_recordAuthFailure env peer
  · exact moves_refl

theorem calm_pinGuest {peer : PeerId} {key : PublicKey} {t : Engine × List Effect}
    (h : Calm L e t) : Calm L e (pinGuest peer key t).1 := by
  unfold pinGuest
  dsimp only
  cases hreg : Store.registerPeerKey t.1.store peer key with
  | mk store r =>
    cases r with
    | error msg => exact ⟨h.store, h.heard, h.effects⟩
    | ok u => exact ⟨h.store.trans (StoreSteps.registerPeerKey hreg), h.heard, h.effects⟩

theorem calm_registerHello (env : Env) (peer : PeerId) (token : Option String) (key : PublicKey) :
    Calm L e (registerHello env e peer token key).1 := by
  unfold registerHello
  split
  · exact calm_pinGuest moves_refl
  · split
    · exact moves_refl
    · refine calm_pinGuest (moves_modifyDrive ?_ (quiet_one rfl))
      exact fun rt _ => ⟨rfl, fun d hd => absurd hd Std.ExtTreeMap.not_mem_empty⟩

theorem calm_serveHello (env : Env) (peer : PeerId) (h : Hello) :
    Calm L e (serveHello env e peer h) := by
  unfold serveHello
  split
  · exact moves_of_same rfl rfl (quiet_one rfl)
  · split
    · exact moves_of_same rfl rfl (quiet_one rfl)
    · have hjoin := calm_acceptInvite (L := L) (e := e) env peer h.accept
      generalize acceptInvite env e peer h.accept = t at hjoin ⊢
      obtain ⟨e₁, joined⟩ := t
      dsimp only
      have htoken := hjoin.trans (calm_tokenGate env peer h.token)
      cases hgate : tokenGate env e₁ peer h.token with
      | mk t err =>
        obtain ⟨e₂, out⟩ := t
        rw [hgate] at htoken
        cases err with
        | some err => exact htoken.more (quiet_one rfl)
        | none =>
          have hpassed : Calm L e (e₂, joined) := ⟨htoken.store, htoken.heard, hjoin.effects⟩
          dsimp only
          split
          · exact hpassed.more (quiet_one rfl)
          · next key _ =>
            have hreg := hpassed.trans (calm_registerHello env peer h.token key)
            cases hres : registerHello env e₂ peer h.token key with
            | mk t err =>
              obtain ⟨e₃, out₃⟩ := t
              rw [hres] at hreg
              cases err with
              | some err => exact hreg.more (quiet_one rfl)
              | none => exact hreg.more (quiet_one rfl)

theorem mem_rememberClocks {remote : Std.ExtTreeMap DocId VecClock}
    {clocks : List (DocId × VecClock)} {d : DocId} (h : d ∈ rememberClocks remote clocks) :
    d ∈ remote ∨ d ∈ clocks.map Prod.fst := by
  induction clocks generalizing remote with
  | nil => exact Or.inl h
  | cons p rest ih =>
    have hrest : d ∈ rememberClocks (remote.insert p.1 p.2) rest := h
    rcases ih hrest with h | h
    · rcases Std.ExtTreeMap.mem_insert.mp h with h | h
      · rw [← Std.compare_eq_iff_eq.mp h]
        exact Or.inr List.mem_cons_self
      · exact Or.inl h
    · exact Or.inr (List.mem_cons_of_mem _ h)

/-- A peer's drive takes in clocks the peer has sent. -/
theorem moves_learn {P : Effect → Prop} {peer : PeerId} {name : String}
    (hname : e.OfPeer name peer) {f : DriveRuntime → DriveRuntime}
    (hf : ∀ rt, (f rt).peer = rt.peer ∧
      ∀ d ∈ (f rt).remoteClocks, d ∈ rt.remoteClocks ∨ L peer d)
    {out : List Effect} (hout : ∀ o ∈ out, P o) : Moves L P e (e.modifyDrive name f, out) := by
  refine moves_modifyDrive (fun rt hrt => ⟨(hf rt).1, fun d hd => ?_⟩) hout
  rw [hname.peer_eq hrt]
  exact (hf rt).2 d hd

/-- What `peer` learns us with a message. -/
def Names (peer : PeerId) (msg : SyncMsg) (p : PeerId) (d : DocId) : Prop :=
  p = peer ∧ d ∈ msg.docs

theorem calm_serveRequest (env : Env) (peer : PeerId) (msg : SyncMsg) :
    Calm (Names peer msg) e (serveRequest env e peer msg) := by
  unfold serveRequest
  split
  · exact calm_serveHello env peer _
  · exact moves_of_same rfl rfl (quiet_one rfl)
  · next clocks =>
    have hnote : Calm (Names peer (.summary clocks)) e (e.noteSummary env peer clocks, []) := by
      unfold noteSummary
      split
      · next name hname =>
        refine moves_learn (driveNameByPeer_spec hname) ?_ quiet_nil
        refine fun rt => ⟨rfl, fun d hd => ?_⟩
        rcases mem_rememberClocks hd with hd | hd
        · exact Or.inl hd
        · exact Or.inr ⟨rfl, hd⟩
      · exact moves_refl
    exact hnote.more (quiet_one rfl)
  · exact moves_of_same rfl rfl (quiet_one rfl)
  · exact moves_of_same rfl rfl (quiet_one rfl)
  · exact moves_refl

theorem calm_onModelDef (env : Env) (peer : PeerId) (ref : ModelRef) (def_ : Option Value) :
    Calm L e (onModelDef env e peer ref def_) := by
  unfold onModelDef
  cases def_ with
  | none => exact moves_refl
  | some d =>
    dsimp only
    split
    · exact moves_refl
    · split
      · exact moves_refl
      · cases L1.fromDef d with
        | error msg => exact moves_refl
        | ok m =>
          have hadd : Calm L e ({ e with
              store := Store.addModel e.store (.l1 m)
              requestedModels := e.requestedModels.erase (toLex (ref.name, ref.version))
              pendingActions := e.pendingActions.filter fun p =>
                !(p.1.name == ref.name && p.1.version == ref.version) }, []) :=
            ⟨.exec e.store (.addModel (.l1 m)), fun _ _ hd => Or.inl hd, quiet_nil⟩
          exact hadd.trans (calm_applyRemoteActions env (some peer) _)

theorem calm_noteLastClock (env : Env) (ack : CatchUpAck) {name : String} {peer : PeerId}
    (hname : e.OfPeer name peer) :
    Calm (Names peer (.catchUpAck ack)) e (e.noteLastClock env name ack, []) := by
  refine moves_learn hname ?_ quiet_nil
  refine fun rt => ⟨rfl, fun d hd => ?_⟩
  dsimp only at hd
  split at hd
  · rcases Std.ExtTreeMap.mem_insert.mp hd with hd | hd
    · rw [← Std.compare_eq_iff_eq.mp hd]
      exact Or.inr ⟨rfl, List.mem_cons_self⟩
    · exact Or.inl hd
  · exact Or.inl hd

theorem calm_onCatchUpAck (env : Env) (ack : CatchUpAck) {name : String} {peer : PeerId}
    (hname : e.OfPeer name peer) :
    Calm (Names peer (.catchUpAck ack)) e (onCatchUpAck env e name peer ack) := by
  have happly := calm_applyRemoteActions (L := Names peer (.catchUpAck ack)) (e := e) env
    (some peer) ack.actions
  have hdrives := drives_applyRemoteActions env (some peer) ack.actions e
  unfold onCatchUpAck
  generalize applyRemoteActions env (some peer) e ack.actions = t at happly hdrives ⊢
  obtain ⟨⟨e₁, out⟩, applied⟩ := t
  have hname₁ : e₁.OfPeer name peer := by
    unfold OfPeer
    rw [show e₁.drives = e.drives from hdrives]
    exact hname
  have hnote := happly.trans (calm_noteLastClock env ack hname₁)
  rw [List.append_nil] at hnote
  refine Moves.ite ?_ hnote
  exact hnote.trans (moves_modifyDrive_same (by exact fun _ => ⟨rfl, rfl⟩) (quiet_one rfl))

end Calm

/-! ## Asking for documents -/

section Asks

variable {L : PeerId → DocId → Prop} {e : Engine}

/-- A quiet effect, or a catch-up request for a document the peer has named. -/
def Asks (e : Engine) (L : PeerId → DocId → Prop) (o : Effect) : Prop :=
  o.quiet = true ∨
    ∃ id p c, o = .request id p (.catchUp c) ∧ (e.Heard p c.docId ∨ L p c.docId)

theorem Moves.asks {e' : Engine} {t : Engine × List Effect} (h : Calm L e' t) :
    Moves L (Asks e L) e' t :=
  h.mono fun _ => Or.inl

theorem moves_sendCatchUp {P : Effect → Prop} {name : String} {peer : PeerId}
    {gap : DocId × VecClock} (hP : ∀ id, P (.request id peer (.catchUp ⟨gap.1, gap.2⟩))) :
    Moves L P e (sendCatchUp name peer e gap) := by
  have hflight : Moves L P e (e.modifyDrive name fun rt =>
      { rt with inFlight := rt.inFlight.insert e.nextRequest }, []) :=
    moves_modifyDrive_same (by exact fun _ => ⟨rfl, rfl⟩) (List.forall_mem_nil _)
  exact ⟨hflight.store, hflight.heard, List.forall_mem_singleton.mpr (hP _)⟩

theorem mem_gaps {own remote : Std.ExtTreeMap DocId VecClock} {gap : DocId × VecClock}
    (h : gap ∈ gaps own remote) : gap.1 ∈ remote := by
  obtain ⟨⟨id, their⟩, hmem, hgap⟩ := List.mem_filterMap.mp h
  dsimp only at hgap
  split at hgap
  · exact nomatch hgap
  · rw [← Option.some.inj hgap]
    have hget := Std.ExtTreeMap.mem_toList_iff_getElem?_eq_some.mp hmem
    exact Std.ExtTreeMap.mem_iff_isSome_getElem?.mpr (Option.isSome_of_eq_some hget)

theorem calm_noteHelloAck (env : Env) (ack : HelloAck) {name : String} {peer : PeerId}
    (hname : e.OfPeer name peer) :
    Calm (Names peer (.helloAck ack)) e (e.noteHelloAck env name ack, []) := by
  refine moves_learn hname ?_ quiet_nil
  intro rt
  dsimp only
  refine ⟨by split <;> rfl, fun d hd => ?_⟩
  rcases mem_rememberClocks hd with hd | hd
  · left
    split at hd
    · exact hd
    · exact absurd hd Std.ExtTreeMap.not_mem_empty
  · right
    refine ⟨rfl, ?_⟩
    rw [List.map_map] at hd
    exact hd

/-- A `HelloAck` makes the engine ask for documents that were named before, or in it. -/
theorem moves_onHelloAck (env : Env) (ack : HelloAck) {name : String} {peer : PeerId}
    (hname : e.OfPeer name peer) :
    Moves (Names peer (.helloAck ack)) (Asks e (Names peer (.helloAck ack))) e
      (onHelloAck env e name peer ack) := by
  unfold onHelloAck
  cases hpin : e.pinResponder peer ack.pubkey with
  | mk store r =>
    cases r with
    | error msg => exact Moves.asks (moves_of_same rfl rfl (quiet_one rfl))
    | ok u =>
      have hstore : StoreSteps e.store store := by
        unfold pinResponder at hpin
        split at hpin
        · exact .registerPeerKey hpin
        · rw [← show e.store = store from congrArg Prod.fst hpin]
          exact .refl _
      have hpinned : Calm (Names peer (.helloAck ack)) e ({ e with store := store }, []) :=
        moves_store hstore quiet_nil
      have hnote := hpinned.trans (calm_noteHelloAck env ack hname)
      dsimp only
      have hname₂ : ({ e with store := store }.noteHelloAck env name ack).OfPeer name peer := by
        refine OfPeer.modifyDrive hname fun rt => ?_
        dsimp only
        split <;> rfl
      generalize { e with store := store }.noteHelloAck env name ack = e₂ at hnote hname₂ ⊢
      -- everything asked for is in the clocks of the drive, which is `peer`'s
      have hasked : ∀ gap ∈ (e₂.drives[name]?.map fun rt =>
          gaps (Store.summary e₂.store) rt.remoteClocks).getD [],
          e.Heard peer gap.1 ∨ Names peer (.helloAck ack) peer gap.1 := by
        intro gap hgap
        cases hrt : e₂.drives[name]? with
        | none =>
          rw [hrt] at hgap
          exact absurd hgap List.not_mem_nil
        | some rt =>
          rw [hrt] at hgap
          exact hnote.heard peer gap.1 ⟨name, rt, hrt, hname₂.peer_eq hrt, mem_gaps hgap⟩
      have hfresh : ∀ o ∈ (if e₂.drives.contains name then [setStatus name .connecting none]
          else []), o.quiet = true := by
        split
        · exact quiet_one rfl
        · exact quiet_nil
      refine Moves.trans (Moves.asks (hnote.more hfresh)) (moves_sweep fun e' gap hgap => ?_)
      exact moves_sendCatchUp fun id => Or.inr ⟨id, peer, _, rfl, hasked gap hgap⟩

theorem Asks.of_heard {e' : Engine} (h : ∀ p d, e'.Heard p d → e.Heard p d ∨ L p d) {o : Effect}
    (ho : Asks e' L o) : Asks e L o := by
  rcases ho with ho | ⟨id, p, c, rfl, hd | hd⟩
  · exact Or.inl ho
  · exact Or.inr ⟨id, p, c, rfl, h p c.docId hd⟩
  · exact Or.inr ⟨id, p, c, rfl, Or.inr hd⟩

/-- **A response makes the engine ask for documents its sender has named.** -/
theorem moves_onResponse (env : Env) (peer : PeerId) (id : ℕ) (msg : SyncMsg) :
    Moves (Names peer msg) (Asks e (Names peer msg)) e (onResponse env e peer id msg) := by
  unfold onResponse
  cases hname : e.driveNameByPeer env peer with
  | none => exact moves_refl
  | some name =>
    dsimp only
    have herase : Calm (Names peer msg) e (e.modifyDrive name fun rt =>
        { rt with inFlight := rt.inFlight.erase id }, []) :=
      moves_modifyDrive_same (by exact fun _ => ⟨rfl, rfl⟩) quiet_nil
    have hname₁ : (e.modifyDrive name fun rt =>
        { rt with inFlight := rt.inFlight.erase id }).OfPeer name peer :=
      (driveNameByPeer_spec hname).modifyDrive (by exact fun _ => rfl)
    generalize (e.modifyDrive name fun rt => { rt with inFlight := rt.inFlight.erase id }) = e₁
      at herase hname₁ ⊢
    cases msg with
    | helloAck ack =>
      exact (Moves.asks herase).trans ((moves_onHelloAck env ack hname₁).mono fun o =>
        Asks.of_heard herase.heard)
    | helloErr err =>
      exact Moves.asks (herase.trans
        (moves_modifyDrive_same (by exact fun _ => ⟨rfl, rfl⟩) (quiet_one rfl)))
    | catchUpAck ack => exact Moves.asks (herase.trans (calm_onCatchUpAck env ack hname₁))
    | summaryAck clocks =>
      refine Moves.asks (herase.trans (moves_learn hname₁ ?_ quiet_nil))
      refine fun rt => ⟨rfl, fun d hd => ?_⟩
      rcases mem_rememberClocks hd with hd | hd
      · exact Or.inl hd
      · exact Or.inr ⟨rfl, hd⟩
    | modelDef ref def_ => exact Moves.asks (herase.trans (calm_onModelDef env peer ref def_))
    | chunkData hash bytes =>
      cases bytes with
      | none => exact Moves.asks herase
      | some bytes =>
        have hput : Calm (Names peer (.chunkData hash (some bytes))) e₁
            (putChunk env e₁ hash bytes, [.event (.chunkStored hash)]) := by
          unfold putChunk
          split
          · exact moves_of_same rfl rfl (quiet_one rfl)
          · exact moves_of_same rfl rfl (quiet_one rfl)
        exact Moves.asks (herase.trans hput)
    | _ => exact Moves.asks herase

end Asks

/-! ## Publications and summaries -/

section Tick

variable {L : PeerId → DocId → Prop} {e : Engine} {env : Env}

/-- A queued local action that passes the gate is published. -/
def Publishes (e : Engine) (o : Effect) : Prop :=
  ∃ msg, o = .publish msg ∧ msg.action ∈ e.store.queue ∧
    (Store.spaceVisibility e.store msg.action.docId).all Store.mayGossip = true

/-- A due drive is given all our clocks. -/
def Summarizes (env : Env) (e : Engine) (o : Effect) : Prop :=
  ∃ id, ∃ due ∈ e.dueDrives env,
    o = .request id due.2.peer (.summary (Store.summary e.store).toList)

theorem publishAction_spec (e : Engine) (a : Action) :
    (publishAction e a).1.store = e.store ∧ (publishAction e a).1.drives = e.drives ∧
      ∀ o ∈ (publishAction e a).2, o = .publish ⟨a, some e.pubName⟩ ∧
        (Store.spaceVisibility e.store a.docId).all Store.mayGossip = true := by
  unfold publishAction
  split
  · exact ⟨rfl, rfl, List.forall_mem_nil _⟩
  · next hgate =>
    split
    · exact ⟨rfl, rfl, List.forall_mem_nil _⟩
    · dsimp only
      refine ⟨rfl, rfl, List.forall_mem_singleton.mpr ⟨rfl, ?_⟩⟩
      rw [Bool.not_eq_true', Bool.not_eq_false] at hgate
      exact hgate

/-- Publishing a list of actions touches neither store nor drives. -/
theorem publishAll_spec (e : Engine) (l : List Action) :
    ((Lib.sweep publishAction e l).1.store = e.store ∧
      (Lib.sweep publishAction e l).1.drives = e.drives) ∧
      ∀ o ∈ (Lib.sweep publishAction e l).2, ∃ msg, o = .publish msg ∧ msg.action ∈ l ∧
        (Store.spaceVisibility e.store msg.action.docId).all Store.mayGossip = true := by
  refine Lib.sweep_spec (I := fun e' : Engine => e'.store = e.store ∧ e'.drives = e.drives)
    (fun e' a ha h => ?_) ⟨rfl, rfl⟩
  obtain ⟨hstore, hdrives, hout⟩ := publishAction_spec e' a
  refine ⟨⟨hstore.trans h.1, hdrives.trans h.2⟩, fun o ho => ?_⟩
  obtain ⟨rfl, hgate⟩ := hout o ho
  rw [h.1] at hgate
  exact ⟨_, rfl, ha, hgate⟩

theorem mem_dueDrives {due : String × DriveRuntime} :
    due ∈ e.dueDrives env ↔ e.drives[due.1]? = some due.2 ∧ due.2.drive.paused = false ∧
      due.2.handshaken = true ∧ due.2.nextCatchUp ≤ env.now := by
  obtain ⟨name, rt⟩ := due
  -- the three tests of the loop, as one condition
  have htests : (rt.drive.paused || !rt.handshaken || decide (env.now < rt.nextCatchUp)) = false ↔
      rt.drive.paused = false ∧ rt.handshaken = true ∧ rt.nextCatchUp ≤ env.now := by
    simp [and_assoc]
  unfold dueDrives
  rw [List.mem_filterMap]
  constructor
  · rintro ⟨name', -, hbind⟩
    obtain ⟨rt', hget, hif⟩ := Option.bind_eq_some_iff.mp hbind
    split at hif
    · exact nomatch hif
    · next hno =>
      obtain ⟨rfl, rfl⟩ := Prod.mk.inj (Option.some.inj hif)
      exact ⟨hget, htests.mp (Bool.eq_false_iff.mpr hno)⟩
  · rintro ⟨hget, hno⟩
    refine ⟨name, ?_, ?_⟩
    · rw [(env.order_perm e.drives.keys).mem_iff, Std.ExtTreeMap.mem_keys,
        Std.ExtTreeMap.mem_iff_isSome_getElem?, hget]
      rfl
    · rw [hget, Option.bind_some, if_neg (Bool.eq_false_iff.mp (htests.mpr hno))]

theorem moves_catchUpDrive {P : Effect → Prop} {own : Std.ExtTreeMap DocId VecClock}
    {due : String × DriveRuntime}
    (hP : ∀ id c, c.docId ∈ due.2.remoteClocks → P (.request id due.2.peer (.catchUp c))) :
    Moves L P e (catchUpDrive env own e due) := by
  have hnext : Moves L P e (e.modifyDrive due.1 fun rt =>
      { rt with nextCatchUp := env.now + catchUpTick }, []) :=
    moves_modifyDrive_same (by exact fun _ => ⟨rfl, rfl⟩) (List.forall_mem_nil _)
  exact hnext.trans (moves_sweep fun e' gap hgap => moves_sendCatchUp fun id =>
    hP id _ (mem_gaps hgap))

theorem moves_summarizeDrive {P : Effect → Prop} {own : Std.ExtTreeMap DocId VecClock}
    {due : String × DriveRuntime} (hP : ∀ id, P (.request id due.2.peer (.summary own.toList)))
    (hq : ∀ o, o.quiet = true → P o) : Moves L P e (summarizeDrive own e due) := by
  have hsend : Moves L P e (e.sendRequest due.2.peer (.summary own.toList)) := moves_sendRequest hP
  unfold summarizeDrive
  dsimp only
  split
  · exact hsend
  · refine Moves.ite (hsend.trans (moves_modifyDrive_same (by exact fun _ => ⟨rfl, rfl⟩) ?_)) hsend
    exact List.forall_mem_singleton.mpr (hq _ rfl)

theorem moves_drainQueue (e : Engine) : Moves L (Publishes e) e e.drainQueue ∧
    e.drainQueue.1.store = (Store.drainOutbound e.store).1 ∧
    e.drainQueue.1.drives = e.drives := by
  obtain ⟨⟨hstore, hdrives⟩, hpub⟩ := publishAll_spec
    { e with store := (Store.drainOutbound e.store).1 } e.store.outbound
  have hdrain : StoreSteps e.store e.drainQueue.1.store := by
    rw [show e.drainQueue.1.store = e.store.exec .drainOutbound from hstore]
    exact .exec e.store .drainOutbound
  refine ⟨⟨hdrain, fun p d hd => ?_, fun o ho => ?_⟩, hstore, hdrives⟩
  · left
    unfold Heard at hd ⊢
    rw [show e.drainQueue.1.drives = e.drives from hdrives] at hd
    exact hd
  · obtain ⟨msg, rfl, hmem, hgate⟩ := hpub o ho
    exact ⟨msg, rfl, Inner.mem_queue.mpr (Or.inl hmem), hgate⟩

theorem moves_exchange (env : Env) (e : Engine) :
    Moves L (fun o => Asks e L o ∨ Summarizes env e o) e (e.exchange env) := by
  have hask : Moves L (fun o => Asks e L o ∨ Summarizes env e o) e
      (Lib.sweep (catchUpDrive env (Store.summary e.store)) e (e.dueDrives env)) :=
    moves_sweep fun e' due hdue => moves_catchUpDrive fun id c hc =>
      Or.inl (Or.inr ⟨id, due.2.peer, c, rfl,
        Or.inl ⟨due.1, due.2, (mem_dueDrives.mp hdue).1, rfl, hc⟩⟩)
  exact hask.trans (moves_sweep fun e' due hdue => moves_summarizeDrive
    (fun id => Or.inr ⟨id, due, hdue, rfl⟩) fun o ho => Or.inl (Or.inl ho))

theorem summary_mem_exchange {due : String × DriveRuntime} (h : due ∈ e.dueDrives env) :
    ∃ id, .request id due.2.peer (.summary (Store.summary e.store).toList) ∈
      (e.exchange env).2 := by
  obtain ⟨e', hmem⟩ := Lib.exists_mem_sweep (summarizeDrive (Store.summary e.store)) h
    (Lib.sweep (catchUpDrive env (Store.summary e.store)) e (e.dueDrives env)).1
  refine ⟨e'.nextRequest, List.mem_append_right _ (hmem _ ?_)⟩
  unfold summarizeDrive
  dsimp only
  split
  · exact List.mem_singleton_self _
  · split
    · exact List.mem_append_left _ (List.mem_singleton_self _)
    · exact List.mem_singleton_self _

/-- Draining the queue leaves what the exchange reads as it was. -/
theorem exchange_reads (env : Env) (e : Engine) (lastActivity : ℕ) :
    (e.drainQueue.1.noteIdle env lastActivity).drives = e.drives ∧
      Store.summary (e.drainQueue.1.noteIdle env lastActivity).store = Store.summary e.store ∧
      (e.drainQueue.1.noteIdle env lastActivity).dueDrives env = e.dueDrives env := by
  obtain ⟨-, hstore, hdrives⟩ := moves_drainQueue (L := fun _ _ => False) e
  have hdrives₁ : (e.drainQueue.1.noteIdle env lastActivity).drives = e.drives := hdrives
  refine ⟨hdrives₁, ?_, ?_⟩
  · rw [show (e.drainQueue.1.noteIdle env lastActivity).store = e.drainQueue.1.store from rfl,
      hstore]
    rfl
  · unfold dueDrives
    rw [hdrives₁]

/-- **What a tick does.** -/
theorem moves_tick (env : Env) (e : Engine) (lastActivity : ℕ) :
    Moves L (fun o => Asks e L o ∨ Publishes e o ∨ Summarizes env e o) e
      (tick env e lastActivity) := by
  obtain ⟨hdrives, hsummary, hdue⟩ := exchange_reads env e lastActivity
  have hdrain := (moves_drainQueue (L := L) e).1.mono
    fun o ho => (Or.inr (Or.inl ho) : Asks e L o ∨ Publishes e o ∨ Summarizes env e o)
  have hnote : Moves L (fun o => Asks e L o ∨ Publishes e o ∨ Summarizes env e o) e.drainQueue.1
      (e.drainQueue.1.noteIdle env lastActivity, []) :=
    moves_of_same rfl rfl (List.forall_mem_nil _)
  have hidle := hdrain.trans hnote
  have hout := hidle.trans ((moves_exchange env _).mono fun o ho => ?_)
  · rw [List.append_nil] at hout
    exact hout
  · rcases ho with ho | ⟨id, due, hmem, rfl⟩
    · refine Or.inl (Asks.of_heard (fun p d hd => Or.inl ?_) ho)
      unfold Heard at hd ⊢
      rw [← hdrives]
      exact hd
    · rw [hdue] at hmem
      rw [hsummary]
      exact Or.inr (Or.inr ⟨id, due, hmem, rfl⟩)

theorem summary_mem_tick (lastActivity : ℕ) {due : String × DriveRuntime}
    (h : due ∈ e.dueDrives env) :
    ∃ id, .request id due.2.peer (.summary (Store.summary e.store).toList) ∈
      (tick env e lastActivity).2 := by
  obtain ⟨-, hsummary, hdue⟩ := exchange_reads env e lastActivity
  rw [← hdue] at h
  obtain ⟨id, hmem⟩ := summary_mem_exchange h
  rw [hsummary] at hmem
  exact ⟨id, List.mem_append_right _ hmem⟩

end Tick

/-! ## Any turn -/

/-- What an input tells the engine: which peer names which document. -/
def Learns : Input → PeerId → DocId → Prop
  | .request peer msg => Names peer msg
  | .response peer _ msg => Names peer msg
  | _ => fun _ _ => False

/-- The effects a turn may have. -/
def Expected (env : Env) (e : Engine) (i : Input) (o : Effect) : Prop :=
  Asks e (Learns i) o ∨ Publishes e o ∨ ((∃ lastActivity, i = .tick lastActivity) ∧
    Summarizes env e o)

/-- **What a turn can do.** -/
theorem moves_turn (env : Env) (e : Engine) (i : Input) :
    Moves (Learns i) (Expected env e i) e (turn env e i) := by
  have hcalm : ∀ {t : Engine × List Effect}, Calm (Learns i) e t →
      Moves (Learns i) (Expected env e i) e t :=
    fun h => h.mono fun o ho => Or.inl (Or.inl ho)
  cases i with
  | store ev => exact hcalm (moves_store (.exec e.store ev) quiet_nil)
  | cmd c => exact hcalm (calm_handleCmd env c)
  | tick lastActivity =>
    refine (moves_tick env e lastActivity).mono fun o ho => ?_
    rcases ho with ho | ho | ho
    · exact Or.inl ho
    · exact Or.inr (Or.inl ho)
    · exact Or.inr (Or.inr ⟨⟨lastActivity, rfl⟩, ho⟩)
  | outbound =>
    unfold turn
    dsimp only
    split
    · next a rest hfeed =>
      have hreceive : StoreSteps e.store { e.store with outboundFeed := some rest } :=
        Relation.ReflTransGen.single (.receive hfeed)
      obtain ⟨hstore, hdrives, hout⟩ := publishAction_spec
        { e with store := { e.store with outboundFeed := some rest } } a
      refine ⟨?_, fun p d hd => Or.inl ?_, fun o ho => Or.inr (Or.inl ?_)⟩
      · rw [hstore]
        exact hreceive
      · unfold Heard at hd ⊢
        rw [hdrives] at hd
        exact hd
      · obtain ⟨rfl, hgate⟩ := hout o ho
        refine ⟨_, rfl, Inner.mem_queue.mpr (Or.inr ?_), hgate⟩
        rw [hfeed]
        exact List.mem_cons_self
    · exact moves_refl
  | newListenAddr addr =>
    unfold turn
    exact Moves.ite moves_refl (hcalm (moves_of_same rfl rfl (quiet_one rfl)))
  | connectionEstablished peer =>
    have hopen : Calm (Learns (.connectionEstablished peer)) e
        (onConnectionEstablished env e peer) := by
      unfold onConnectionEstablished
      split
      · exact calm_openHandshake _
      · exact moves_refl
    exact hcalm ⟨hopen.store, hopen.heard, quiet_cons rfl hopen.effects⟩
  | connectionClosed peer numEstablished =>
    refine hcalm ?_
    show Calm _ e (onConnectionClosed env e peer numEstablished)
    unfold onConnectionClosed
    split
    · exact moves_refl
    · split
      · exact moves_refl
      · exact moves_modifyDrive_same (by exact fun _ => ⟨rfl, rfl⟩) (quiet_one rfl)
  | gossip source msg => exact hcalm (calm_applyRemoteAction env source msg.action)
  | request peer msg => exact hcalm (calm_serveRequest env peer msg)
  | response peer id msg => exact (moves_onResponse env peer id msg).mono fun o ho => Or.inl ho
  | outboundFailure peer =>
    refine hcalm ?_
    show Calm _ e (onOutboundFailure env e peer)
    unfold onOutboundFailure
    split
    · exact moves_refl
    · exact Moves.ite moves_refl
        (moves_modifyDrive_same (by exact fun _ => ⟨rfl, rfl⟩) (quiet_one rfl))

/-- **What a step can do.** -/
theorem moves_step (e : Engine) (x : Env × Input) :
    Moves (Learns x.2) (Expected x.1 e x.2) e (e.step x) := by
  unfold step
  exact Moves.ite (moves_turn x.1 e x.2) moves_refl

end Engine

end PhReactor
