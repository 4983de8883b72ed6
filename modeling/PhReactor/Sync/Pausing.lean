/-
  A PAUSED drive, and what wakes it.

  Pausing sets a flag and a status.  The tick, the handshake and the end of a connection read the
  flag; a failed request and a catch-up reply read the status; and three handlers read neither: an
  inbound hello, a hello's reply and its refusal.  Each of them writes the status, and a hello's
  reply asks for all that the drive is ahead on.

  1. A drive at rest stays at rest unless a turn rouses it or ends its pause (`resting_turn`), and a
     turn that works for it then sends nothing (`silent_of_resting`).

  2. `Wakes` is the condition: the turn is one of the three, it gets as far as the write or the
     request, and the drive is the one that is found for the peer.  It is exact
     (`not_sleeps_of_wakes`), so a run leaves a paused drive asleep if and only if no step of it
     wakes the drive (`paused_sleeps_iff`).
-/
import PhReactor.Sync.ReadGate
import PhReactor.Sync.DriveEffects

set_option linter.unusedSectionVars false

namespace PhReactor

/-- Paused, and seen to be so. -/
structure DriveRuntime.Rests (rt : DriveRuntime) : Prop where
  paused : rt.drive.paused = true
  status : rt.status = .paused

namespace Engine

section

variable [Primitives]

/-- The drive of this name, if there is one, is at rest. -/
def Resting (e : Engine) (name : String) : Prop :=
  ∀ rt, e.drives[name]? = some rt → rt.Rests

/-- The pause of the drive ends: it is resumed, or added anew. -/
def EndsPause (e : Engine) (name : String) (i : Input) : Prop :=
  i = .cmd (.setPaused name false) ∨ adds e name i = true

/-- The reply to a hello is taken for the drive's, and finds a handshake to complete or something to
    ask for. -/
def AnswersAs (env : Env) (e : Engine) (name : String) (peer : PeerId) (ack : HelloAck) : Prop :=
  e.driveNameByPeer env peer = some name ∧
    ∃ store, e.pinResponder peer ack.pubkey = (store, .ok ()) ∧
      ∃ rt, e.drives[name]? = some rt ∧ (rt.handshaken = false ∨
        gaps (Store.summary store) (rememberClocks rt.remoteClocks
          (ack.docs.map fun d => (d.id, d.clock))) ≠ [])

/-- What rouses a drive at rest. -/
def Rouses (env : Env) (e : Engine) (name : String) : Input → Prop
  | .request peer (.hello h) => GreetsAs env e name peer h
  | .response peer _ (.helloAck ack) => AnswersAs env e name peer ack
  | .response peer _ (.helloErr _) => e.driveNameByPeer env peer = some name
  | _ => False

variable {env : Env} {e : Engine} {name : String}

/-! ## What keeps a drive at rest -/

theorem rests_of_shown {rt rt' : DriveRuntime} (h : rt'.shown = rt.shown) (hrests : rt.Rests) :
    rt'.Rests := by
  simp only [DriveRuntime.shown, Prod.mk.injEq] at h
  exact ⟨h.1 ▸ hrests.paused, h.2.2.2.2 ▸ hrests.status⟩

/-- A drive at rest opens no handshake. -/
theorem openHandshake_of_resting (h : e.Resting name) : e.openHandshake name = (e, []) := by
  unfold openHandshake
  cases hrt : e.drives[name]? with
  | none => rfl
  | some rt =>
    dsimp only
    rw [(h rt hrt).paused, Bool.or_true]
    exact if_pos rfl

/-- Of the responses, only a hello's reply and its refusal disturb a drive at rest. -/
theorem rests_afterResponse {peer : PeerId} {id : ℕ} {msg : SyncMsg} {rt : DriveRuntime}
    (h : rt.Rests) (hack : ∀ ack store, msg = .helloAck ack →
      e.pinResponder peer ack.pubkey = (store, .ok ()) → rt.handshaken = true)
    (herr : ∀ err, msg ≠ .helloErr err) : (afterResponse env e peer id rt msg).Rests := by
  cases msg with
  | helloAck ack =>
    show (if (e.pinResponder peer ack.pubkey).2.isOk then answered env ack rt else rt).Rests
    cases hpin : e.pinResponder peer ack.pubkey with
    | mk store r =>
      cases r with
      | error msg => exact h
      | ok u =>
        show (answered env ack rt).Rests
        unfold answered
        rw [hack ack store rfl hpin]
        exact ⟨h.paused, h.status⟩
  | helloErr err => exact absurd rfl (herr err)
  | catchUpAck ack =>
    refine ⟨h.paused, ?_⟩
    show (if finishes ack id rt then DriveStatus.synced else rt.status) = _
    unfold finishes
    rw [h.status, show (DriveStatus.paused != .paused) = false from rfl, Bool.and_false]
    rfl
  | summaryAck clocks => exact ⟨h.paused, h.status⟩
  | _ => exact h

/-- **A turn that does not rouse a drive leaves it at rest.** -/
theorem resting_turn {i : Input} (h : e.Resting name) (hends : ¬ EndsPause e name i)
    (hrouses : ¬ Rouses env e name i) : (turn env e i).1.Resting name := by
  intro rt' hrt'
  have hadds : adds e name i = false := Bool.eq_false_iff.mpr fun ha => hends (Or.inr ha)
  obtain ⟨rt, hrt, hshown⟩ := drive_turn hadds hrt'
  refine rests_of_shown hshown ?_
  have hrests := h rt hrt
  cases i with
  | cmd c =>
    cases c with
    | setPaused n paused =>
      unfold after
      dsimp only
      split
      · next hname =>
        have hpaused : paused = true := by
          by_contra hno
          exact hends (Or.inl (by rw [hname, Bool.eq_false_iff.mpr hno]))
        rw [hpaused]
        exact ⟨rfl, rfl⟩
      · exact hrests
    | _ => exact hrests
  | tick lastActivity =>
    unfold after
    dsimp only
    rw [if_neg]
    · exact hrests
    · rintro ⟨-, hconnecting⟩
      rw [hrests.status] at hconnecting
      cases hconnecting
  | connectionClosed peer numEstablished =>
    unfold after
    dsimp only
    split
    · -- the status is taken from the flag
      exact ⟨hrests.paused, if_pos hrests.paused⟩
    · exact hrests
  | request peer msg =>
    cases msg with
    | hello hello =>
      rw [show after env e name rt (.request peer (.hello hello)) = rt from if_neg hrouses]
      exact hrests
    | summary clocks =>
      unfold after
      dsimp only
      split
      · exact ⟨hrests.paused, hrests.status⟩
      · exact hrests
    | _ => exact hrests
  | response peer id msg =>
    unfold after
    dsimp only
    split
    · next hname =>
      refine rests_afterResponse hrests (fun ack store hmsg hpin => ?_) fun err hmsg => ?_
      · subst hmsg
        by_contra hshaken
        exact hrouses ⟨hname, store, hpin, rt, hrt, Or.inl (Bool.not_eq_true _ ▸ hshaken)⟩
      · subst hmsg
        exact hrouses hname
    · exact hrests
  | outboundFailure peer =>
    unfold after
    dsimp only
    rw [if_neg fun hc => hc.2 hrests.status]
    exact hrests
  | _ => exact hrests

/-! ## What is sent for a drive at rest -/

/-- A drive at rest is not due. -/
theorem not_due_of_resting (h : e.Resting name) {due : String × DriveRuntime}
    (hdue : due ∈ e.dueDrives env) : due.1 ≠ name := by
  obtain ⟨hget, hpaused, -⟩ := mem_dueDrives.mp hdue
  intro heq
  rw [heq] at hget
  rw [(h due.2 hget).paused] at hpaused
  cases hpaused

/-- A hello's reply whose key is pinned: a handshake that was open is completed, and the drive is
    asked for all it is ahead on. -/
theorem onResponse_helloAck (env : Env) {peer : PeerId} (id : ℕ) {ack : HelloAck} {store : Inner}
    {rt : DriveRuntime} (hname : e.driveNameByPeer env peer = some name)
    (hpin : e.pinResponder peer ack.pubkey = (store, .ok ()))
    (hrt : e.drives[name]? = some rt) :
    ∃ e₁ rt₁, e₁.drives[name]? = some rt₁ ∧ (rt.handshaken = true → rt₁.remoteClocks =
        rememberClocks rt.remoteClocks (ack.docs.map fun d => (d.id, d.clock))) ∧
      onResponse env e peer id (.helloAck ack) =
        ((Lib.sweep (sendCatchUp name peer) e₁ (gaps (Store.summary store) rt₁.remoteClocks)).1,
          [setStatus name .connecting none] ++
            (Lib.sweep (sendCatchUp name peer) e₁
              (gaps (Store.summary store) rt₁.remoteClocks)).2) := by
  have herased : (e.modifyDrive name fun rt =>
      { rt with inFlight := rt.inFlight.erase id }).drives[name]? =
        some { rt with inFlight := rt.inFlight.erase id } := by
    rw [getElem?_modifyDrive, if_pos rfl, hrt]
    rfl
  have hnoted : ∃ rt₁, (noteHelloAck env { (e.modifyDrive name fun rt =>
      { rt with inFlight := rt.inFlight.erase id }) with store := store } name
        ack).drives[name]? = some rt₁ ∧ (rt.handshaken = true → rt₁.remoteClocks =
        rememberClocks rt.remoteClocks (ack.docs.map fun d => (d.id, d.clock))) := by
    unfold noteHelloAck
    rw [getElem?_modifyDrive, if_pos rfl]
    dsimp only
    rw [herased]
    refine ⟨_, rfl, fun hshaken => ?_⟩
    dsimp only
    rw [hshaken]
    rfl
  obtain ⟨rt₁, hrt₁, hknown⟩ := hnoted
  refine ⟨_, rt₁, hrt₁, hknown, ?_⟩
  unfold onResponse
  rw [hname]
  show onHelloAck env _ name peer ack = _
  unfold onHelloAck
  rw [show (e.modifyDrive name fun rt =>
    { rt with inFlight := rt.inFlight.erase id }).pinResponder peer ack.pubkey =
      (store, .ok ()) from hpin]
  dsimp only
  rw [hrt₁, if_pos (Std.ExtTreeMap.contains_iff_mem.mpr (Std.ExtTreeMap.mem_iff_isSome_getElem?.mpr
    (Option.isSome_of_eq_some hrt₁)))]
  rfl

/-- A hello's reply that does not rouse the drive finds nothing to ask for. -/
theorem silent_onHelloAck_of_resting {peer : PeerId} {id : ℕ} {ack : HelloAck}
    (hname : e.driveNameByPeer env peer = some name) (hno : ¬ AnswersAs env e name peer ack) :
    ∀ o ∈ (onResponse env e peer id (.helloAck ack)).2, o.silent = true := by
  obtain ⟨rt, hrt, -⟩ := driveNameByPeer_spec hname
  cases hpin : e.pinResponder peer ack.pubkey with
  | mk store r =>
    cases r with
    | error msg =>
      unfold onResponse
      rw [hname]
      show ∀ o ∈ (onHelloAck env _ name peer ack).2, o.silent = true
      unfold onHelloAck
      rw [show (e.modifyDrive name fun rt =>
        { rt with inFlight := rt.inFlight.erase id }).pinResponder peer ack.pubkey =
          (store, .error msg) from hpin]
      exact List.forall_mem_singleton.mpr rfl
    | ok u =>
      have hshaken : rt.handshaken = true := by
        by_contra hshaken
        exact hno ⟨hname, store, hpin, rt, hrt, Or.inl (Bool.not_eq_true _ ▸ hshaken)⟩
      have hnone : gaps (Store.summary store)
          (rememberClocks rt.remoteClocks (ack.docs.map fun d => (d.id, d.clock))) = [] := by
        by_contra hgaps
        exact hno ⟨hname, store, hpin, rt, hrt, Or.inr hgaps⟩
      obtain ⟨e₁, rt₁, -, hknown, heq⟩ := onResponse_helloAck env id hname hpin hrt
      rw [heq, hknown hshaken, hnone]
      exact List.forall_mem_singleton.mpr rfl

/-- A catch-up reply does not end the exchange of a drive at rest. -/
theorem silent_onCatchUpAck_of_resting {peer : PeerId} {id : ℕ} {ack : CatchUpAck}
    (h : e.Resting name) (hname : e.driveNameByPeer env peer = some name) :
    ∀ o ∈ (onResponse env e peer id (.catchUpAck ack)).2, o.silent = true := by
  unfold onResponse
  rw [hname]
  show ∀ o ∈ (onCatchUpAck env _ name peer ack).2, o.silent = true
  refine fun o ho => Effect.silent_of_warranted (warranted_onCatchUpAck (fun hends => ?_) o ho)
  rw [getElem?_modifyDrive, if_pos rfl, Option.any_map] at hends
  obtain ⟨rt, hrt, hif⟩ := (Option.any_eq_true _ _).mp hends
  simp [(h rt hrt).status] at hif

/-- **A turn that does not rouse a drive at rest is silent, if it works for it.** -/
theorem silent_of_resting {i : Input} (h : e.Resting name) (hends : ¬ EndsPause e name i)
    (hrouses : ¬ Rouses env e name i) {peer : PeerId} (hmem : (name, peer) ∈ worksFor env e i) :
    ∀ o ∈ (turn env e i).2, o.silent = true := by
  cases i with
  | cmd c =>
    cases c with
    | addDrive drive =>
      have hname := congrArg Prod.fst (List.mem_singleton.mp hmem)
      exact absurd (Or.inr (beq_iff_eq.mpr hname.symm)) hends
    | join drive accept =>
      have hname := congrArg Prod.fst (List.mem_singleton.mp hmem)
      exact absurd (Or.inr (beq_iff_eq.mpr hname.symm)) hends
    | _ => exact absurd hmem List.not_mem_nil
  | tick lastActivity =>
    obtain ⟨due, hdue, heq⟩ := List.mem_map.mp hmem
    exact absurd (congrArg Prod.fst heq) (not_due_of_resting h hdue)
  | connectionEstablished p =>
    obtain ⟨n, hn, heq⟩ := List.mem_map.mp hmem
    obtain ⟨rfl, rfl⟩ := Prod.mk.inj heq
    refine List.forall_mem_cons.mpr ⟨rfl, ?_⟩
    show ∀ o ∈ (onConnectionEstablished env e p).2, o.silent = true
    unfold onConnectionEstablished
    rw [Option.mem_toList.mp hn]
    show ∀ o ∈ (e.openHandshake n).2, o.silent = true
    rw [openHandshake_of_resting h]
    exact List.forall_mem_nil _
  | request p msg =>
    cases msg with
    | hello hello =>
      obtain ⟨a, ha, heq⟩ := List.mem_map.mp hmem
      obtain ⟨hjoiner, -⟩ := Prod.mk.inj heq
      replace ha : hello.accept = some a := Option.mem_toList.mp ha
      intro o ho
      by_contra hex
      obtain ⟨hadm, ho⟩ := unsilent_serveHello ho (Bool.not_eq_true _ ▸ hex)
      -- the join-proof is not taken up, or it would add the drive anew
      have hignored : e.takes p a = false := by
        by_contra ht
        rw [Bool.not_eq_false] at ht
        exact hends (Or.inr (by simp [adds, hadm.1, hadm.2, ha, ht, hjoiner]))
      rw [ha] at ho
      replace ho : o ∈ (handleInviteAccept env e p a).2 := ho
      rw [handleInviteAccept_ignored hignored] at ho
      exact absurd ho List.not_mem_nil
    | _ => exact absurd hmem List.not_mem_nil
  | response p id msg =>
    obtain ⟨n, hn, heq⟩ := List.mem_map.mp hmem
    obtain ⟨rfl, rfl⟩ := Prod.mk.inj heq
    cases msg with
    | helloAck ack => exact silent_onHelloAck_of_resting (Option.mem_toList.mp hn) hrouses
    | catchUpAck ack => exact silent_onCatchUpAck_of_resting h (Option.mem_toList.mp hn)
    | _ => exact silent_onResponse (by simp) (by simp)
  | _ => exact absurd hmem List.not_mem_nil

/-! ## Waking -/

/-- A drive that is roused by a running engine. -/
def Wakes (e : Engine) (name : String) (x : Env × Input) : Prop :=
  e.running = true ∧ Rouses x.1 e name x.2

/-- A step in which the drive does no sync work: its status is still PAUSED after it, and every
    hello, catch-up and summary that is sent is another drive's. -/
structure Sleeps (e : Engine) (name : String) (x : Env × Input) : Prop where
  status : ∀ rt, (e.step x).1.drives[name]? = some rt → rt.status = .paused
  silent : ∀ id peer msg, .request id peer msg ∈ (e.step x).2 → msg.exchanges = true →
    ∃ other, other ≠ name ∧ (other, peer) ∈ worksFor x.1 e x.2

theorem resting_step {x : Env × Input} (h : e.Resting name) (hends : ¬ EndsPause e name x.2)
    (hwakes : ¬ Wakes e name x) : (e.step x).1.Resting name := by
  unfold step
  split
  · cases hrun : e.running with
    | true => exact resting_turn h hends fun hr => hwakes ⟨hrun, hr⟩
    | false =>
      -- the daemon's operations go on
      next hgoes =>
      rw [hrun, Bool.false_or] at hgoes
      obtain ⟨env, i⟩ := x
      cases i with
      | store ev => exact h
      | _ => exact nomatch hgoes
  · exact h

theorem sleeps_of_not_wakes {x : Env × Input} (h : e.Resting name)
    (hends : ¬ EndsPause e name x.2) (hwakes : ¬ Wakes e name x) : Sleeps e name x where
  status := fun rt hrt => (resting_step h hends hwakes rt hrt).status
  silent := by
    intro id peer msg ho hex
    unfold step at ho
    split at ho
    · obtain ⟨other, hother⟩ := warranted_turn x.1 e x.2 _ ho hex
      refine ⟨other, fun heq => ?_, hother⟩
      subst heq
      cases hrun : e.running with
      | true =>
        have hsilent := silent_of_resting h hends (fun hr => hwakes ⟨hrun, hr⟩) hother _ ho
        replace hsilent : (!msg.exchanges) = true := hsilent
        rw [hex] at hsilent
        cases hsilent
      | false =>
        next hgoes =>
        rw [hrun, Bool.false_or] at hgoes
        obtain ⟨env, i⟩ := x
        cases i with
        | store ev => exact absurd hother List.not_mem_nil
        | _ => exact nomatch hgoes
    · exact absurd ho List.not_mem_nil

/-- A drive that the turn leaves alone otherwise has the status that is made of it. -/
theorem status_of_sleeps {i : Input} (hadds : adds e name i = false)
    (hstays : i ≠ .cmd (.removeDrive name))
    (hstatus : ∀ rt, (turn env e i).1.drives[name]? = some rt → rt.status = .paused)
    {rt : DriveRuntime} (hrt : e.drives[name]? = some rt) :
    (after env e name rt i).status = .paused := by
  have hshows : (turn env e i).1.shows name = e.drives[name]?.map fun rt =>
      (after env e name rt i).shown := shows_turn hadds hstays
  unfold shows at hshows
  rw [hrt, Option.map_some] at hshows
  obtain ⟨rt', hrt', hshown⟩ := Option.map_eq_some_iff.mp hshows
  rw [← hstatus rt' hrt']
  exact (congrArg (fun x => x.2.2.2.2) hshown).symm

/-- The drive a hello is taken for is there already, unless the hello adds it. -/
theorem exists_of_greetsAs {peer : PeerId} {h : Hello} (hgreets : GreetsAs env e name peer h)
    (hadds : adds e name (.request peer (.hello h)) = false) :
    ∃ rt, e.drives[name]? = some rt := by
  obtain ⟨hadm, -, -, -, hname⟩ := hgreets
  obtain ⟨rt, hrt, -⟩ := driveNameByPeer_spec hname
  exact ⟨rt, (getElem?_acceptInvite env hadm hadds).symm.trans hrt⟩

/-- **Waking is exact**: a drive that is waked, and not added anew, does not sleep through the
    step. -/
theorem not_sleeps_of_wakes {x : Env × Input} (hends : ¬ EndsPause e name x.2)
    (hwakes : Wakes e name x) : ¬ Sleeps e name x := by
  obtain ⟨env, i⟩ := x
  obtain ⟨hrun, hrouses⟩ := hwakes
  have hadds : adds e name i = false := Bool.eq_false_iff.mpr fun ha => hends (Or.inr ha)
  have hstep : e.step (env, i) = turn env e i := by
    unfold step
    rw [hrun, Bool.true_or]
    exact if_pos rfl
  rintro ⟨hstatus, hsilent⟩
  rw [hstep] at hstatus hsilent
  cases i with
  | request peer msg =>
    cases msg with
    | hello h =>
      obtain ⟨rt, hrt⟩ := exists_of_greetsAs hrouses hadds
      have hpaused := status_of_sleeps hadds (by simp) hstatus hrt
      rw [show after env e name rt (.request peer (.hello h)) = rt.greeted env from
        if_pos hrouses] at hpaused
      cases hpaused
    | _ => exact hrouses
  | response peer id msg =>
    cases msg with
    | helloAck ack =>
      obtain ⟨hname, store, hpin, rt, hrt, hwhy⟩ := hrouses
      cases hshaken : rt.handshaken with
      | false =>
        have hpaused := status_of_sleeps hadds (by simp) hstatus hrt
        rw [show after env e name rt (.response peer id (.helloAck ack)) = _ from if_pos hname]
          at hpaused
        unfold afterResponse answered at hpaused
        dsimp only at hpaused
        rw [hpin, hshaken] at hpaused
        cases hpaused
      | true =>
        -- something is asked for, and there is no other drive it could be for
        have hgaps := hwhy.resolve_left (by rw [hshaken]; simp)
        obtain ⟨e₁, rt₁, -, hknown, heq⟩ := onResponse_helloAck env id hname hpin hrt
        replace heq : turn env e (.response peer id (.helloAck ack)) = _ := heq
        rw [← hknown hshaken] at hgaps
        obtain ⟨gap, hgap⟩ := List.exists_mem_of_ne_nil _ hgaps
        obtain ⟨e', hsent⟩ := Lib.exists_mem_sweep (sendCatchUp name peer) hgap e₁
        have hmem := hsent _ (List.mem_singleton_self _)
        rw [heq] at hsilent
        obtain ⟨other, hother, hworks⟩ :=
          hsilent _ _ _ (List.mem_append_right _ hmem) rfl
        obtain ⟨n, hn, hpair⟩ := List.mem_map.mp hworks
        rw [hname, Option.mem_toList] at hn
        exact hother ((congrArg Prod.fst hpair).symm.trans (Option.some.inj hn).symm)
    | helloErr err =>
      obtain ⟨rt, hrt, -⟩ := driveNameByPeer_spec hrouses
      have hpaused := status_of_sleeps hadds (by simp) hstatus hrt
      rw [show after env e name rt (.response peer id (.helloErr err)) = _ from if_pos hrouses]
        at hpaused
      cases err <;> cases hpaused
    | _ => exact hrouses
  | _ => exact hrouses

/-! ## Runs of a paused drive -/

/-- The engine when it has just paused the drive. -/
def paused (env : Env) (e : Engine) (name : String) : Engine :=
  (turn env e (.cmd (.setPaused name true))).1

theorem resting_paused (env : Env) (e : Engine) (name : String) :
    (paused env e name).Resting name := by
  intro rt hrt
  unfold paused turn handleCmd at hrt
  rw [getElem?_modifyDrive, if_pos rfl] at hrt
  obtain ⟨rt₀, -, rfl⟩ := Option.map_eq_some_iff.mp hrt
  exact ⟨rfl, rfl⟩

/-- **A paused drive sleeps exactly until something wakes it**: along every run from the pause on,
    up to its end, there is no sync work on the drive's behalf and the status stays PAUSED, if and
    only if no step wakes the drive. -/
theorem paused_sleeps_iff (env₀ : Env) (e : Engine) (name : String) (ins : List (Env × Input))
    (hpause : ∀ past x rest, ins = past ++ x :: rest →
      ¬ EndsPause (machine.run (paused env₀ e name) past) name x.2) :
    (∀ past x rest, ins = past ++ x :: rest →
      Sleeps (machine.run (paused env₀ e name) past) name x) ↔
    ∀ past x rest, ins = past ++ x :: rest →
      ¬ Wakes (machine.run (paused env₀ e name) past) name x := by
  constructor
  · exact fun hsleeps past x rest hins hwakes =>
      not_sleeps_of_wakes (hpause past x rest hins) hwakes (hsleeps past x rest hins)
  · intro hno past x rest hins
    have hrest : (machine.run (paused env₀ e name) past).Resting name := by
      refine Lib.Machine.cuts_invariant machine (I := fun e' : Engine => e'.Resting name)
        (C := fun e' x => ¬ EndsPause e' name x.2 ∧ ¬ Wakes e' name x) (resting_paused env₀ e name)
        (fun e' x he' hx => resting_step he' hx.1 hx.2) ?_ past (x :: rest) hins
      exact fun past' x' rest' hins' => ⟨hpause past' x' rest' hins', hno past' x' rest' hins'⟩
    exact sleeps_of_not_wakes hrest (hpause past x rest hins) (hno past x rest hins)

end

end Engine

/-! ## A reply that arrives late -/

section

open Sample

attribute [local instance] Sample.primitives

namespace Engine

/-- Alice dials mallory's node: her hello is on its way. -/
def aliceDials : Engine := machine.run aliceEngine
  [(calmEnv, .cmd (.addDrive malloryDrive)), (calmEnv, .connectionEstablished mallory.name)]

/-- Mallory's node answers: it has a document. -/
def malloryAck : HelloAck where
  version := protocolVersion
  name := "mallory's node"
  docs := [{ id := docId, name := "note", clock := clockOf [("mallory", 1)] }]
  pubkey := none

/-- A tick and a summary leave mallory's drive asleep. -/
theorem paused_sleeps_iff_quiet :
    ((paused calmEnv aliceDials "mallory").drives["mallory"]?).isSome = true ∧
      ∀ past x rest, [(calmEnv, Input.tick 0), (calmEnv, .request mallory.name (.summary []))] =
        past ++ x :: rest →
          Sleeps (machine.run (paused calmEnv aliceDials "mallory") past) "mallory" x := by
  refine ⟨by decide +kernel, (paused_sleeps_iff calmEnv aliceDials "mallory" _ ?_).mpr ?_⟩
  · refine Lib.forall_cuts_cons.mpr ⟨?_, Lib.forall_cuts_cons.mpr ⟨?_, Lib.forall_cuts_nil⟩⟩
    · simp [EndsPause, adds]
    · simp [EndsPause, adds]
  · exact Lib.forall_cuts_cons.mpr ⟨fun h => h.2,
      Lib.forall_cuts_cons.mpr ⟨fun h => h.2, Lib.forall_cuts_nil⟩⟩

/-- **The reply to a hello that was sent before the pause wakes the drive**: it is asked for the
    document, and its status is CONNECTING. -/
theorem late_reply_wakes :
    ¬ ∀ (env₀ : Env) (e : Engine) (name : String) (ins : List (Env × Input)),
      (∀ past x rest, ins = past ++ x :: rest →
        ¬ EndsPause (machine.run (paused env₀ e name) past) name x.2) →
      ∀ past x rest, ins = past ++ x :: rest →
        Sleeps (machine.run (paused env₀ e name) past) name x := by
  intro h
  have hsleeps : Sleeps (paused calmEnv aliceDials "mallory") "mallory"
      (calmEnv, .response mallory.name 0 (.helloAck malloryAck)) :=
    h calmEnv aliceDials "mallory" [(calmEnv, .response mallory.name 0 (.helloAck malloryAck))]
      (Lib.forall_cuts_cons.mpr ⟨by simp [EndsPause, adds], Lib.forall_cuts_nil⟩) [] _ [] rfl
  have hfacts : ((paused calmEnv aliceDials "mallory").step (calmEnv, .response mallory.name 0
      (.helloAck malloryAck))).1.drives["mallory"]?.map DriveRuntime.status =
        some .connecting := by
    decide +kernel
  obtain ⟨rt, hrt, hstatus⟩ := Option.map_eq_some_iff.mp hfacts
  rw [hsleeps.status rt hrt] at hstatus
  cases hstatus

end Engine

end

end PhReactor
