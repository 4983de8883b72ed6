/-
  Who is on the engine's ban list (`src/p2p/mod.rs`).

  The list changes in three places only: at the commands `Ban` and `Unban`, and where a peer has
  failed authentication too often.  The daemon, which keeps the list on disk, gives the first two
  itself; of the third it is told by an event.

  1. `Tells` is the third: after a turn a peer is on the list exactly if it was before, or the turn
     reports its ban.  The rules say how it is put together from the parts of a handler.

  2. Every turn of the loop tells, but for the two commands (`tells_turn`).
-/
import PhReactor.Sync.Frames

set_option linter.unusedSectionVars false

namespace PhReactor

/-- The report of an automatic ban. -/
def Effect.bans : Effect → Bool
  | .event (.peerAutoBanned _) => true
  | _ => false

variable [Primitives]

namespace Engine

/-- Who is banned now was banned before, or is reported. -/
def Tells (e : Engine) (t : Engine × List Effect) : Prop :=
  ∀ q, q ∈ t.1.banned ↔ q ∈ e.banned ∨ .event (.peerAutoBanned q) ∈ t.2

section

variable {e : Engine} (env : Env)

/-! ## Putting turns together -/

theorem Tells.trans {t u : Engine × List Effect} (h : Tells e t) (h' : Tells t.1 u) :
    Tells e (u.1, t.2 ++ u.2) := by
  intro q
  show q ∈ u.1.banned ↔ q ∈ e.banned ∨ _ ∈ t.2 ++ u.2
  rw [h' q, h q, List.mem_append, or_assoc]

theorem not_mem_of_bans {out : List Effect} (hout : ∀ o ∈ out, o.bans = false) (q : PeerId) :
    .event (.peerAutoBanned q) ∉ out := by
  intro hmem
  have hfalse := hout _ hmem
  cases hfalse

/-- The list is the same. -/
theorem tells_of_same {e' : Engine} {out : List Effect} (hsame : e'.banned = e.banned)
    (hout : ∀ o ∈ out, o.bans = false) : Tells e (e', out) := by
  intro q
  show q ∈ e'.banned ↔ _
  rw [hsame]
  exact (or_iff_left (not_mem_of_bans hout q)).symm

/-- Further effects at the end. -/
theorem Tells.more {t : Engine × List Effect} (h : Tells e t) {out : List Effect}
    (hout : ∀ o ∈ out, o.bans = false) : Tells e (t.1, t.2 ++ out) :=
  h.trans (tells_of_same (e := t.1) rfl hout)

/-- Further changes that leave the list alone. -/
theorem Tells.through {t : Engine × List Effect} (h : Tells e t) {e' : Engine}
    (hsame : e'.banned = t.1.banned) : Tells e (e', t.2) := by
  intro q
  show q ∈ e'.banned ↔ _
  rw [hsame]
  exact h q

theorem Tells.ite {c : Prop} [Decidable c] {t u : Engine × List Effect} (ht : Tells e t)
    (hu : Tells e u) : Tells e (if c then t else u) := by
  split
  · exact ht
  · exact hu

theorem bans_nil : ∀ o ∈ ([] : List Effect), o.bans = false := List.forall_mem_nil _

theorem bans_one {o : Effect} (h : o.bans = false) : ∀ o' ∈ [o], o'.bans = false :=
  List.forall_mem_singleton.mpr h

theorem tells_refl : Tells e (e, []) := tells_of_same rfl bans_nil

theorem tells_sweep {α : Type} {f : Engine → α → Engine × List Effect} {l : List α}
    (hf : ∀ e', ∀ a ∈ l, Tells e' (f e' a)) : Tells e (Lib.sweep f e l) := by
  induction l generalizing e with
  | nil => exact tells_refl
  | cons a rest ih =>
    have hrest : Tells (f e a).1 (Lib.sweep f (f e a).1 rest) :=
      ih fun e' b hb => hf e' b (List.mem_cons_of_mem a hb)
    exact (hf e a List.mem_cons_self).trans hrest

/-! ## Drives -/

theorem tells_openHandshake (name : String) : Tells e (e.openHandshake name) := by
  unfold openHandshake
  cases e.drives[name]? with
  | none => exact tells_refl
  | some rt =>
    refine Tells.ite tells_refl (Tells.ite (tells_of_same rfl (bans_one rfl)) ?_)
    exact tells_of_same rfl (bans_one rfl)

theorem tells_addDriveInternal (drive : Drive) : Tells e (addDriveInternal env e drive) := by
  unfold addDriveInternal
  dsimp only
  generalize drive.peerId.getD env.randomPeer = peer
  split
  · exact tells_of_same rfl bans_nil
  · generalize DriveRuntime.mk drive _ _ _ _ _ _ _ _ = new
    have hadd : Tells e ({ e with drives := e.drives.insert drive.name new }, []) :=
      tells_of_same rfl bans_nil
    have hguest : ∀ e' : Engine, Tells e' (finishGuest env e' drive.name peer) := fun _ =>
      Tells.ite (tells_of_same rfl (bans_one rfl)) tells_refl
    have hopen : ∀ e' : Engine, Tells e' (openIfConnected env e' drive.name peer) := fun _ =>
      Tells.ite (tells_openHandshake drive.name) tells_refl
    have hall := (hadd.trans (hguest _)).trans (hopen _)
    exact hall.more (List.forall_mem_cons.mpr ⟨rfl, bans_one rfl⟩)

theorem tells_handleInviteAccept (peer : PeerId) (accept : InviteAccept) :
    Tells e (handleInviteAccept env e peer accept) := by
  unfold handleInviteAccept
  refine Tells.ite tells_refl (Tells.ite tells_refl ?_)
  cases Store.registerPeerKey e.store accept.peerId accept.key with
  | mk store r =>
    cases r with
    | error msg => exact tells_refl
    | ok u =>
      have hpin : Tells e ({ e with store := store }, []) := tells_of_same rfl bans_nil
      have hadd := hpin.trans (tells_addDriveInternal env (joinerDrive peer accept))
      exact hadd.more (List.forall_mem_cons.mpr ⟨rfl, bans_one rfl⟩)

theorem tells_acceptInvite (peer : PeerId) (accept : Option InviteAccept) :
    Tells e (acceptInvite env e peer accept) := by
  cases accept with
  | some accept => exact tells_handleInviteAccept env peer accept
  | none => exact tells_refl

/-- A command that is not about bans. -/
theorem tells_handleCmd {c : EngineCommand} (hban : ∀ p, c ≠ .ban p) (hunban : ∀ p, c ≠ .unban p) :
    Tells e (handleCmd env e c) := by
  cases c with
  | addDrive drive => exact tells_addDriveInternal env drive
  | join drive accept =>
    have hadd := tells_addDriveInternal (e := e) env drive
    show Tells e ((addDriveInternal env e drive).1.modifyDrive drive.name
      fun rt => { rt with accept := some accept }, (addDriveInternal env e drive).2)
    exact hadd.through rfl
  | ban peer => exact absurd rfl (hban peer)
  | unban peer => exact absurd rfl (hunban peer)
  | removeDrive name =>
    refine tells_of_same rfl ?_
    split
    · exact bans_one rfl
    · exact bans_nil
  | setPaused name paused =>
    refine tells_of_same rfl ?_
    split
    · exact bans_nil
    · intro o ho
      obtain ⟨rt, -, rfl⟩ := List.mem_map.mp ho
      rfl
  | resync name =>
    unfold handleCmd
    dsimp only
    split
    · exact tells_refl
    · exact Tells.ite (tells_of_same rfl (bans_one rfl)) (tells_of_same rfl (bans_one rfl))
  | fetchBlob blob => exact tells_sweep fun e' p _ => tells_of_same rfl (bans_one rfl)
  | shutdown => exact tells_of_same rfl bans_nil

/-! ## The gates of a hello -/

/-- **An automatic ban is reported.** -/
theorem tells_recordAuthFailure (peer : PeerId) : Tells e (recordAuthFailure env e peer).1 := by
  unfold recordAuthFailure
  dsimp only
  split
  · intro q
    show q ∈ e.banned.insert peer ↔ _
    rw [Std.ExtTreeSet.mem_insert, Std.compare_eq_iff_eq, List.mem_append]
    constructor
    · rintro (rfl | hq)
      · exact Or.inr (Or.inr (List.mem_singleton.mpr rfl))
      · exact Or.inl hq
    · rintro (hq | hstatus | hself)
      · exact Or.inr hq
      · obtain ⟨name, -, heq⟩ := List.mem_map.mp hstatus
        cases heq
      · cases List.mem_singleton.mp hself
        exact Or.inl rfl
  · exact tells_of_same rfl bans_nil

theorem tells_tokenGate (peer : PeerId) (token : Option String) :
    Tells e (tokenGate env e peer token).1 := by
  unfold tokenGate
  split
  · exact tells_refl
  · split
    · exact tells_refl
    · exact tells_recordAuthFailure env peer
  · exact tells_refl

theorem tells_pinGuest {peer : PeerId} {key : PublicKey} {t : Engine × List Effect}
    (h : Tells e t) : Tells e (pinGuest peer key t).1 := by
  unfold pinGuest
  dsimp only
  cases Store.registerPeerKey t.1.store peer key with
  | mk store r =>
    cases r with
    | error msg => exact h.through rfl
    | ok u => exact h.through rfl

theorem tells_registerHello (peer : PeerId) (token : Option String) (key : PublicKey) :
    Tells e (registerHello env e peer token key).1 := by
  unfold registerHello
  split
  · exact tells_pinGuest tells_refl
  · split
    · exact tells_refl
    · exact tells_pinGuest (tells_of_same rfl (bans_one rfl))

theorem tells_serveHello (peer : PeerId) (h : Hello) : Tells e (serveHello env e peer h) := by
  unfold serveHello
  refine Tells.ite (tells_of_same rfl (bans_one rfl))
    (Tells.ite (tells_of_same rfl (bans_one rfl)) ?_)
  have hjoin := tells_acceptInvite (e := e) env peer h.accept
  generalize acceptInvite env e peer h.accept = t at hjoin ⊢
  obtain ⟨e₁, joined⟩ := t
  have htoken := tells_tokenGate (e := e₁) env peer h.token
  dsimp only
  cases hgate : tokenGate env e₁ peer h.token with
  | mk t err =>
    obtain ⟨e₂, out⟩ := t
    rw [hgate] at htoken
    have hgated := hjoin.trans htoken
    cases err with
    | some err => exact hgated.more (bans_one rfl)
    | none =>
      -- a token that passes has no effects
      have hout : out = [] := by
        unfold tokenGate at hgate
        split at hgate
        · exact (congrArg (fun x => x.1.2) hgate).symm
        · split at hgate
          · exact (congrArg (fun x => x.1.2) hgate).symm
          · cases congrArg Prod.snd hgate
        · cases congrArg Prod.snd hgate
      rw [hout, List.append_nil] at hgated
      dsimp only at hgated ⊢
      split
      · exact hgated.more (bans_one rfl)
      · next key _ =>
        have hreg := tells_registerHello (e := e₂) env peer h.token key
        cases hres : registerHello env e₂ peer h.token key with
        | mk t err =>
          obtain ⟨e₃, out₃⟩ := t
          rw [hres] at hreg
          cases err with
          | some err => exact (hgated.trans hreg).more (bans_one rfl)
          | none => exact (hgated.trans hreg).more (bans_one rfl)

theorem banned_noteSummary (peer : PeerId) (clocks : List (DocId × VecClock)) :
    (e.noteSummary env peer clocks).banned = e.banned := by
  unfold noteSummary
  split <;> rfl

theorem tells_serveRequest (peer : PeerId) (msg : SyncMsg) :
    Tells e (serveRequest env e peer msg) := by
  unfold serveRequest
  split
  · exact tells_serveHello env peer _
  · exact tells_of_same rfl (bans_one rfl)
  · exact tells_of_same (banned_noteSummary env peer _) (bans_one rfl)
  · exact tells_of_same rfl (bans_one rfl)
  · exact tells_of_same rfl (bans_one rfl)
  · exact tells_refl

/-! ## Remote actions -/

theorem tells_requestModelFrom (peer : Option PeerId) (ref : ModelRef) :
    Tells e (e.requestModelFrom peer ref) := by
  unfold requestModelFrom requestModel
  cases peer with
  | none => exact tells_refl
  | some p => exact Tells.ite tells_refl (tells_of_same rfl (bans_one rfl))

theorem banned_notePending (a : Action) : (e.notePending a).banned = e.banned := by
  unfold notePending
  split <;> rfl

theorem tells_applyRemoteAction (peer : Option PeerId) (a : Action) :
    Tells e (applyRemoteAction env e peer a).1 := by
  unfold applyRemoteAction
  split
  · exact (tells_requestModelFrom peer a.model).through (banned_notePending a)
  · cases Store.applyRemoteAction e.store (env.io e.store a) a with
    | mk store r =>
      cases r with
      | error msg => exact tells_of_same rfl bans_nil
      | ok r =>
        dsimp only
        split
        · exact tells_of_same rfl (bans_one rfl)
        · exact tells_of_same rfl bans_nil

theorem tells_applyRemoteActions (peer : Option PeerId) (l : List Action) :
    Tells e (applyRemoteActions env peer e l).1 := by
  induction l generalizing e with
  | nil => exact tells_refl
  | cons a rest ih =>
    have hfirst := tells_applyRemoteAction (e := e) env peer a
    exact hfirst.trans (ih (e := (applyRemoteAction env e peer a).1.1))

/-! ## Responses -/

theorem tells_sendCatchUps (name : String) (peer : PeerId) (l : List (DocId × VecClock)) :
    Tells e (Lib.sweep (sendCatchUp name peer) e l) :=
  tells_sweep fun _ _ _ => tells_of_same rfl (bans_one rfl)

theorem tells_onHelloAck (name : String) (peer : PeerId) (ack : HelloAck) :
    Tells e (onHelloAck env e name peer ack) := by
  unfold onHelloAck
  cases e.pinResponder peer ack.pubkey with
  | mk store r =>
    cases r with
    | error msg => exact tells_of_same rfl (bans_one rfl)
    | ok u =>
      dsimp only
      have hnote : Tells e (({ e with store := store }.noteHelloAck env name ack), []) :=
        tells_of_same rfl bans_nil
      generalize { e with store := store }.noteHelloAck env name ack = e₂ at hnote ⊢
      have hfresh : ∀ o ∈ (if e₂.drives.contains name then [setStatus name .connecting none]
          else []), o.bans = false := by
        split
        · exact bans_one rfl
        · exact bans_nil
      exact Tells.trans (hnote.more hfresh) (tells_sendCatchUps name peer _)

theorem tells_onCatchUpAck (name : String) (peer : PeerId) (ack : CatchUpAck) :
    Tells e (onCatchUpAck env e name peer ack) := by
  have happly := tells_applyRemoteActions (e := e) env (some peer) ack.actions
  unfold onCatchUpAck
  generalize applyRemoteActions env (some peer) e ack.actions = t at happly ⊢
  obtain ⟨⟨e₁, out⟩, applied⟩ := t
  dsimp only at happly ⊢
  exact Tells.ite ((happly.through rfl).more (bans_one rfl)) (happly.through rfl)

theorem tells_onModelDef (peer : PeerId) (ref : ModelRef) (def_ : Option Value) :
    Tells e (onModelDef env e peer ref def_) := by
  unfold onModelDef
  cases def_ with
  | none => exact tells_refl
  | some d =>
    refine Tells.ite tells_refl (Tells.ite tells_refl ?_)
    cases L1.fromDef d with
    | error msg => exact tells_refl
    | ok m =>
      intro q
      exact tells_applyRemoteActions env (some peer) _ q

theorem tells_onResponse (peer : PeerId) (id : ℕ) (msg : SyncMsg) :
    Tells e (onResponse env e peer id msg) := by
  unfold onResponse
  split
  · exact tells_refl
  · next name _ =>
    dsimp only
    have hdone : Tells e (e.modifyDrive name fun rt =>
        { rt with inFlight := rt.inFlight.erase id }, []) := tells_of_same rfl bans_nil
    split
    · exact hdone.trans (tells_onHelloAck env name peer _)
    · exact tells_of_same rfl (bans_one rfl)
    · exact hdone.trans (tells_onCatchUpAck env name peer _)
    · exact tells_of_same rfl bans_nil
    · exact hdone.trans (tells_onModelDef env peer _ _)
    · refine tells_of_same ?_ (bans_one rfl)
      unfold putChunk
      split <;> rfl
    · exact hdone

/-! ## The tick, and connections -/

theorem tells_publishAction (a : Action) : Tells e (publishAction e a) := by
  unfold publishAction
  exact Tells.ite tells_refl (Tells.ite tells_refl (tells_of_same rfl (bans_one rfl)))

theorem tells_summarizeDrive (own : Std.ExtTreeMap DocId VecClock) (due : String × DriveRuntime) :
    Tells e (summarizeDrive own e due) := by
  have hsend : Tells e (e.sendRequest due.2.peer (.summary own.toList)) :=
    tells_of_same rfl (bans_one rfl)
  unfold summarizeDrive
  dsimp only
  split
  · exact hsend
  · exact Tells.ite ((hsend.through rfl).more (bans_one rfl)) hsend

theorem tells_tick (lastActivity : ℕ) : Tells e (tick env e lastActivity) := by
  have hdrain : Tells e e.drainQueue := by
    have htake : Tells e ({ e with store := (Store.drainOutbound e.store).1 }, []) :=
      tells_of_same rfl bans_nil
    exact htake.trans (tells_sweep fun e' a _ => tells_publishAction a)
  have hask : ∀ e' : Engine, Tells e' (e'.exchange env) := by
    intro e'
    refine Tells.trans (tells_sweep fun e₁ due _ => ?_)
      (tells_sweep fun e₁ due _ => tells_summarizeDrive _ due)
    have hnext : Tells e₁ (e₁.modifyDrive due.1 fun rt =>
        { rt with nextCatchUp := env.now + catchUpTick }, []) := tells_of_same rfl bans_nil
    exact hnext.trans (tells_sendCatchUps due.1 due.2.peer _)
  have hidle : Tells e (e.drainQueue.1.noteIdle env lastActivity, e.drainQueue.2) :=
    hdrain.through rfl
  exact hidle.trans (hask _)

/-- **Every turn tells**, but for the two commands. -/
theorem tells_turn {i : Input} (hban : ∀ p, i ≠ .cmd (.ban p)) (hunban : ∀ p, i ≠ .cmd (.unban p)) :
    Tells e (turn env e i) := by
  cases i with
  | store ev => exact tells_of_same rfl bans_nil
  | cmd c =>
    exact tells_handleCmd env (fun p heq => hban p (congrArg Input.cmd heq))
      fun p heq => hunban p (congrArg Input.cmd heq)
  | tick lastActivity => exact tells_tick env lastActivity
  | outbound =>
    unfold turn
    dsimp only
    split
    · next a rest _ =>
      have htake : Tells e ({ e with store := { e.store with outboundFeed := some rest } }, []) :=
        tells_of_same rfl bans_nil
      exact htake.trans (tells_publishAction a)
    · exact tells_refl
  | newListenAddr addr => exact Tells.ite tells_refl (tells_of_same rfl (bans_one rfl))
  | connectionEstablished peer =>
    have hopen : Tells e (onConnectionEstablished env e peer) := by
      unfold onConnectionEstablished
      split
      · exact tells_openHandshake _
      · exact tells_refl
    have htold : Tells e (e, [.event (.peerConnected peer)]) := tells_of_same rfl (bans_one rfl)
    exact htold.trans hopen
  | connectionClosed peer numEstablished =>
    show Tells e (onConnectionClosed env e peer numEstablished)
    unfold onConnectionClosed
    split
    · exact tells_refl
    · split
      · exact tells_refl
      · exact tells_of_same rfl (bans_one rfl)
  | gossip source msg => exact tells_applyRemoteAction env source msg.action
  | request peer msg => exact tells_serveRequest env peer msg
  | response peer id msg => exact tells_onResponse env peer id msg
  | outboundFailure peer =>
    show Tells e (onOutboundFailure env e peer)
    unfold onOutboundFailure
    split
    · exact tells_refl
    · exact Tells.ite tells_refl (tells_of_same rfl (bans_one rfl))

end

end Engine

end PhReactor
