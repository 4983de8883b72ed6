/-
  One-shot invites (`src/daemon.rs`, `src/p2p/invite.rs`).

  The check of a join-proof is SPLIT between two components that share a store and talk over an
  unbounded channel:

  1. The engine verifies the proof's own signature, adds a drive for the joiner, and sends two
     events.  It does not know which nonces were issued.

  2. The daemon keeps the grants of the invites it has minted in a map from nonce to groups.  On
     `InviteAccepted` it removes the nonce and grants its groups; on `DriveJoined` it persists the
     drive, whatever the nonce was.  An invite that finds more than 256 grants clears the map.

  `InviteLedger` is the daemon with what was issued, joined and consumed so far.  If every proof
  that is taken up echoes an issued nonce that none before it has echoed, and no invite finds the
  map full, then drives are persisted for such joiners only, and every invite grants exactly the
  groups it was issued with (`invites_are_one_shot`).
-/
import PhReactor.Sync.Handshake

set_option linter.unusedSectionVars false

namespace PhReactor

/-- An invite's challenge. -/
abbrev Nonce := List UInt8

section

variable [Primitives]

namespace Engine

variable {env : Env} {e : Engine} {p : PeerId}

/-! ## The joins of a step -/

/-- The join-proof a step takes up, and the peer that has sent it. -/
def joinOf (e : Engine) (x : Env × Input) : Option (PeerId × InviteAccept) :=
  match x.2 with
  | .request p (.hello h) =>
    if e.running && h.version == protocolVersion then
      (h.accept.filter (e.takes p)).map fun a => (p, a)
    else none
  | _ => none

theorem filter_admits_of_plain {l : List Effect} (h : ∀ o ∈ l, o.plain = true ∨ o.fetches = true) :
    l.filter Effect.admits = [] := by
  refine List.filter_eq_nil_iff.mpr fun o ho => ?_
  rw [Bool.not_eq_true]
  rcases h o ho with hplain | hfetch
  · exact admits_of_plain hplain
  · cases o with
    | event ev => cases hfetch
    | _ => rfl

theorem filter_admits_acceptInvite (env : Env) (h : Hello) :
    (acceptInvite env e p h.accept).2.filter Effect.admits =
      ((h.accept.filter (e.takes p)).map (admission p)).getD [] := by
  cases haccept : h.accept with
  | none => rfl
  | some a =>
    show (handleInviteAccept env e p a).2.filter Effect.admits = _
    cases ht : e.takes p a with
    | false =>
      rw [handleInviteAccept_ignored ht, Option.filter_some, ht]
      rfl
    | true =>
      obtain ⟨-, out, -, -, heq, hout⟩ := handleInviteAccept_taken env ht
      rw [heq, List.filter_append, filter_admits_of_plain fun o ho => Or.inl (hout o ho),
        Option.filter_some, ht]
      rfl

theorem filter_admits_serveHello (h : Hello) :
    (serveHello env e p h).2.filter Effect.admits =
      if h.version = protocolVersion then ((h.accept.filter (e.takes p)).map (admission p)).getD []
      else [] := by
  have hjoined := filter_admits_acceptInvite (e := e) (p := p) env h
  have hgreet : (greet env (acceptInvite env e p h.accept).1 p).2.filter Effect.admits = [] :=
    filter_admits_of_plain fun o ho => Or.inl (effects_greet o ho)
  have hreply : ∀ msg, [Effect.response p msg].filter Effect.admits = [] := fun _ => rfl
  have hrun := serveHello_run env e p h
  generalize serveHello env e p h = t at hrun ⊢
  cases hrun with
  | shut hno =>
    rw [hreply]
    split
    · next hver =>
      -- past the version gate it is the ban gate that is shut, and it stops the proof too
      have hban : e.banned.contains p = true := by
        by_contra hban
        exact hno ⟨Bool.eq_false_iff.mpr hban, hver⟩
      have htakes : h.accept.filter (e.takes p) = none := by
        refine Option.filter_eq_none_iff.mpr fun a _ => ?_
        simp [takes, hban]
      rw [htakes]
      rfl
    · rfl
  | badToken hadm _ hout =>
    have hplain := filter_admits_of_plain fun o ho => Or.inl (hout o ho)
    rw [List.filter_append, List.filter_append, hplain, hreply, hjoined, if_pos hadm.2,
      List.append_nil, List.append_nil]
  | keyless hadm _ _ =>
    rw [List.filter_append, hreply, hjoined, if_pos hadm.2, List.append_nil]
  | authRequired hadm _ _ _ =>
    rw [List.append_nil, List.filter_append, hreply, hjoined, if_pos hadm.2, List.append_nil]
  | passed hadm _ _ _ _ _ =>
    rw [List.filter_append, List.filter_append, hgreet, hreply, hjoined, if_pos hadm.2,
      List.append_nil, List.append_nil]
  | mismatch hadm _ _ _ _ =>
    rw [List.filter_append, List.filter_append, hgreet, hreply, hjoined, if_pos hadm.2,
      List.append_nil, List.append_nil]

/-- **The admissions of a step** are those of the join-proof it takes up. -/
theorem filter_admits_step (e : Engine) (x : Env × Input) :
    (e.step x).2.filter Effect.admits =
      ((e.joinOf x).map fun j => admission j.1 j.2).getD [] := by
  obtain ⟨env, i⟩ := x
  by_cases hreq : ∃ p h, i = .request p (.hello h)
  · obtain ⟨p, h, rfl⟩ := hreq
    unfold step joinOf
    dsimp only
    cases hrun : e.running with
    | false => rfl
    | true =>
      refine (filter_admits_serveHello h).trans ?_
      by_cases hver : h.version = protocolVersion
      · rw [if_pos hver, hver]
        cases h.accept.filter (e.takes p) <;> rfl
      · rw [if_neg hver]
        simp [hver]
  · have hnone : e.joinOf (env, i) = none := by
      unfold joinOf
      split
      · next p h heq => exact absurd ⟨p, h, heq⟩ hreq
      · rfl
    rw [hnone]
    unfold step
    split
    swap
    · rfl
    by_cases hother : ∃ p m, i = .request p m
    · obtain ⟨p, m, rfl⟩ := hother
      cases m with
      | hello h => exact absurd ⟨p, h, rfl⟩ hreq
      | _ => rfl
    · push Not at hother
      exact filter_admits_of_plain ((bounded_turn env i).effects hother)

end Engine

/-! ## The daemon -/

/-- What the daemon reads from outside when it handles an event. -/
structure DaemonEnv where
  /-- The time, and the outcome of the file writes, of each action it makes. -/
  now : ℕ → U64
  io : ℕ → Io
  /-- Is `config.json` written. -/
  saved : Bool

/-- The daemon: the engine with the store they share, the engine's events on their way, and what the
    daemon itself remembers. -/
structure Daemon where
  engine : Engine
  events : List EngineEvent
  /-- The name of this instance, the group of an invite without groups. -/
  instanceName : String
  /-- Pending invite grants: nonce to groups. -/
  pendingInvites : Std.ExtTreeMap Nonce (List String)
  /-- The configured drives, -/
  drives : List Drive
  /-- and those in `config.json`. -/
  saved : List Drive

namespace Daemon

/-- The daemon at the start of a run. -/
def start (engine : Engine) (instanceName : String) (drives : List Drive) : Daemon where
  engine
  events := []
  instanceName
  pendingInvites := ∅
  drives
  saved := drives

/-- `add-member` of the joiner to each group, whatever becomes of it. -/
def grantAll (ext : DaemonEnv) (joiner : PeerId) : Inner → List String → ℕ → Inner
  | s, [], _ => s
  | s, g :: rest, i =>
    grantAll ext joiner (Store.applyLocalAction s (ext.io i) (ext.now i) g
      (ModelRef.new "group" "1") "add-member" (.object [("member", .string joiner)])).1 rest (i + 1)

/-- Folds one engine event into the daemon.  The events left out change neither the drives nor the
    grants. -/
def onEngineEvent (ext : DaemonEnv) (d : Daemon) : EngineEvent → Daemon
  | .driveJoined name addr =>
    if d.drives.any fun drive => drive.name == name then d
    else
      let drives := d.drives ++
        [{ name, addr, tokenEnv := none, paused := false, availableOffline := true }]
      { d with drives, saved := if ext.saved then drives else d.saved }
  | .inviteAccepted peer nonce =>
    match d.pendingInvites[nonce]? with
    | none => d
    | some groups => { d with
        pendingInvites := d.pendingInvites.erase nonce
        engine := { d.engine with store := grantAll ext peer d.engine.store groups 0 } }
  | _ => d

/-- The groups an invite grants. -/
def groupsOf (d : Daemon) (groups : List String) : List String :=
  if groups = [] then [d.instanceName] else groups

/-- The `Invite` command, once its token is made with that nonce. -/
def invite (d : Daemon) (nonce : Nonce) (groups : List String) : Daemon :=
  let pending := if 256 < d.pendingInvites.size then ∅ else d.pendingInvites
  { d with pendingInvites := pending.insert nonce (d.groupsOf groups) }

/-- What can happen: the engine's loop takes a turn, the daemon takes the next event of the engine,
    or a user asks for an invite. -/
inductive Input where
  | engine (x : Env × Engine.Input)
  | event (ext : DaemonEnv)
  | invite (nonce : Nonce) (groups : List String)

/-- The event that is reported. -/
def event? : Effect → Option EngineEvent
  | .event ev => some ev
  | _ => none

def step (d : Daemon) : Input → Daemon × List Effect
  | .engine x =>
    let (e, out) := d.engine.step x
    ({ d with engine := e, events := d.events ++ out.filterMap event? }, out)
  | .event ext =>
    match d.events with
    | [] => (d, [])
    | ev :: rest => (onEngineEvent ext { d with events := rest } ev, [])
  | .invite nonce groups => (d.invite nonce groups, [])

/-- **An invite that finds the map full forgets every other.** -/
theorem invite_forgets {d : Daemon} (hfull : 256 < d.pendingInvites.size) {nonce n : Nonce}
    (hne : n ≠ nonce) (groups : List String) :
    (d.invite nonce groups).pendingInvites[n]? = none := by
  unfold invite
  rw [if_pos hfull]
  dsimp only
  rw [Std.ExtTreeMap.getElem?_insert, if_neg fun hc => hne (Std.compare_eq_iff_eq.mp hc).symm,
    Std.ExtTreeMap.getElem?_empty]

end Daemon

/-! ## The ledger -/

/-- The peer and the nonce of an accepted join. -/
def accepted? : EngineEvent → Option (PeerId × Nonce)
  | .inviteAccepted peer nonce => some (peer, nonce)
  | _ => none

/-- The daemon, and beside it the invites issued so far, the join-proofs taken up, and the joins the
    daemon has heard of. -/
structure InviteLedger where
  daemon : Daemon
  issued : List (Nonce × List String)
  joined : List (PeerId × InviteAccept)
  consumed : List (PeerId × Nonce)

namespace InviteLedger

def issuedBy (d : Daemon) : Daemon.Input → List (Nonce × List String)
  | .invite nonce groups => [(nonce, d.groupsOf groups)]
  | _ => []

def joinedBy (d : Daemon) : Daemon.Input → List (PeerId × InviteAccept)
  | .engine x => (d.engine.joinOf x).toList
  | _ => []

def consumedBy (d : Daemon) : Daemon.Input → List (PeerId × Nonce)
  | .event _ => (d.events.head?.bind accepted?).toList
  | _ => []

def step (w : InviteLedger) (i : Daemon.Input) : InviteLedger × List Effect :=
  ({ daemon := (w.daemon.step i).1
     issued := w.issued ++ issuedBy w.daemon i
     joined := w.joined ++ joinedBy w.daemon i
     consumed := w.consumed ++ consumedBy w.daemon i }, (w.daemon.step i).2)

def machine : Lib.Machine InviteLedger Daemon.Input Effect := ⟨step⟩

/-- The ledger of a daemon that starts. -/
def start (d : Daemon) : InviteLedger := ⟨d, [], [], []⟩

/-- The nonces that were issued, -/
def nonces (w : InviteLedger) : List Nonce := w.issued.map Prod.fst

/-- and those that a join-proof has echoed. -/
def echoed (w : InviteLedger) : List Nonce := w.joined.map fun j => j.2.nonce

/-- What keeps invites one-shot: a join-proof that is taken up echoes an issued nonce that none has
    echoed before; an invite has a new nonce and does not find the map full. -/
def Genuine (w : InviteLedger) : Daemon.Input → Prop
  | .engine x => ∀ j, w.daemon.engine.joinOf x = some j →
    j.2.nonce ∈ w.nonces ∧ j.2.nonce ∉ w.echoed
  | .event _ => True
  | .invite nonce _ => nonce ∉ w.nonces ∧ w.daemon.pendingInvites.size ≤ 256

/-- The invariant.  The daemon hears of the joins in order, each once; drives come from joins; and
    an issued invite it has not heard of a join for is pending, with its groups. -/
structure OneShot (drives : List Drive) (w : InviteLedger) : Prop where
  queue : (w.joined.map fun j => (j.1, j.2.nonce)) =
    w.consumed ++ w.daemon.events.filterMap accepted?
  joins : ∀ name addr, .driveJoined name addr ∈ w.daemon.events →
    ∃ j ∈ w.joined, name = (Engine.joinerDrive j.1 j.2).name ∧
      addr = (Engine.joinerDrive j.1 j.2).addr
  drives : ∀ d ∈ w.daemon.drives ++ w.daemon.saved,
    d ∈ drives ∨ ∃ j ∈ w.joined, d = Engine.joinerDrive j.1 j.2
  once : w.echoed.Nodup
  known : ∀ n ∈ w.echoed, n ∈ w.nonces
  fresh : w.nonces.Nodup
  pending : ∀ n groups, (n, groups) ∈ w.issued → n ∉ w.consumed.map Prod.snd →
    w.daemon.pendingInvites[n]? = some groups

/-! ## Steps -/

/-- What is not among the admissions is no event about a join. -/
theorem filterMap_filter_admits {β : Type} {f : Effect → Option β}
    (hf : ∀ o, o.admits = false → f o = none) (l : List Effect) :
    (l.filter Effect.admits).filterMap f = l.filterMap f := by
  rw [List.filterMap_filter]
  refine List.filterMap_congr fun o _ => ?_
  cases ho : o.admits with
  | false => exact (hf o ho).symm
  | true => rfl

/-- The engine reports the joins of a step, in order. -/
theorem accepted_step (e : Engine) (x : Env × Engine.Input) :
    ((e.step x).2.filterMap Daemon.event?).filterMap accepted? =
      (e.joinOf x).toList.map fun j => (j.1, j.2.nonce) := by
  have hno : ∀ o : Effect, o.admits = false → (Daemon.event? o).bind accepted? = none := by
    intro o ho
    cases o with
    | event ev =>
      cases ev with
      | inviteAccepted peer nonce => cases ho
      | _ => rfl
    | _ => rfl
  rw [List.filterMap_filterMap, ← filterMap_filter_admits hno, e.filter_admits_step x]
  cases e.joinOf x <;> rfl

theorem driveJoined_step {e : Engine} {x : Env × Engine.Input} {name : String} {addr : Multiaddr}
    (h : .driveJoined name addr ∈ (e.step x).2.filterMap Daemon.event?) :
    ∃ j ∈ (e.joinOf x).toList, name = (Engine.joinerDrive j.1 j.2).name ∧
      addr = (Engine.joinerDrive j.1 j.2).addr := by
  obtain ⟨o, ho, heq⟩ := List.mem_filterMap.mp h
  have hadmits : o ∈ (e.step x).2.filter Effect.admits := by
    refine List.mem_filter.mpr ⟨ho, ?_⟩
    unfold Daemon.event? at heq
    split at heq
    · rw [Option.some.inj heq]
      rfl
    · cases heq
  rw [e.filter_admits_step x] at hadmits
  cases hj : e.joinOf x with
  | none =>
    rw [hj] at hadmits
    exact absurd hadmits List.not_mem_nil
  | some j =>
    rw [hj] at hadmits
    refine ⟨j, List.mem_singleton_self j, ?_⟩
    rcases List.mem_cons.mp hadmits with rfl | hlast
    · cases heq
      exact ⟨rfl, rfl⟩
    · rw [List.mem_singleton.mp hlast] at heq
      cases heq

variable {drives : List Drive} {w : InviteLedger}

theorem OneShot.engine (h : OneShot drives w) {x : Env × Engine.Input}
    (hgen : Genuine w (.engine x)) : OneShot drives (w.step (.engine x)).1 := by
  have hissued : (w.step (.engine x)).1.issued = w.issued := List.append_nil _
  have hconsumed : (w.step (.engine x)).1.consumed = w.consumed := List.append_nil _
  have hnonces : (w.step (.engine x)).1.nonces = w.nonces := congrArg (List.map Prod.fst) hissued
  have hevents : (w.step (.engine x)).1.daemon.events =
    w.daemon.events ++ (w.daemon.engine.step x).2.filterMap Daemon.event? := rfl
  have hjoined : (w.step (.engine x)).1.joined =
    w.joined ++ (w.daemon.engine.joinOf x).toList := rfl
  have hechoed : (w.step (.engine x)).1.echoed =
      w.echoed ++ (w.daemon.engine.joinOf x).toList.map fun j => j.2.nonce := List.map_append
  refine ⟨?_, ?_, ?_, ?_, ?_, ?_, ?_⟩
  · rw [hjoined, hconsumed, hevents, List.map_append, List.filterMap_append, accepted_step, h.queue,
      List.append_assoc]
  · intro name addr hmem
    rw [hevents] at hmem
    rcases List.mem_append.mp hmem with hmem | hmem
    · obtain ⟨j, hj, heq⟩ := h.joins name addr hmem
      exact ⟨j, List.mem_append_left _ hj, heq⟩
    · obtain ⟨j, hj, heq⟩ := driveJoined_step hmem
      exact ⟨j, List.mem_append_right _ hj, heq⟩
  · intro d hd
    rcases h.drives d hd with hd | ⟨j, hj, heq⟩
    · exact Or.inl hd
    · exact Or.inr ⟨j, List.mem_append_left _ hj, heq⟩
  · rw [hechoed]
    cases hj : w.daemon.engine.joinOf x with
    | none =>
      rw [Option.toList_none, List.map_nil, List.append_nil]
      exact h.once
    | some j =>
      refine List.nodup_append.mpr ⟨h.once, List.nodup_singleton _, ?_⟩
      rintro n hn m hm rfl
      rw [List.mem_singleton.mp hm] at hn
      exact (hgen j hj).2 hn
  · intro n hn
    rw [hnonces]
    rw [hechoed] at hn
    rcases List.mem_append.mp hn with hn | hn
    · exact h.known n hn
    · obtain ⟨j, hj, rfl⟩ := List.mem_map.mp hn
      exact (hgen j (Option.mem_toList.mp hj)).1
  · rw [hnonces]
    exact h.fresh
  · rw [hissued, hconsumed]
    exact h.pending

theorem OneShot.invite (h : OneShot drives w) {nonce : Nonce} {groups : List String}
    (hgen : Genuine w (.invite nonce groups)) :
    OneShot drives (w.step (.invite nonce groups)).1 := by
  obtain ⟨hnew, hsize⟩ := hgen
  have hjoined : (w.step (.invite nonce groups)).1.joined = w.joined := List.append_nil _
  have hconsumed : (w.step (.invite nonce groups)).1.consumed = w.consumed := List.append_nil _
  have hechoed : (w.step (.invite nonce groups)).1.echoed = w.echoed :=
    congrArg (List.map fun j : PeerId × InviteAccept => j.2.nonce) hjoined
  have hnonces : (w.step (.invite nonce groups)).1.nonces = w.nonces ++ [nonce] := List.map_append
  have hpending : (w.step (.invite nonce groups)).1.daemon.pendingInvites =
      w.daemon.pendingInvites.insert nonce (w.daemon.groupsOf groups) := by
    show (Daemon.invite _ _ _).pendingInvites = _
    unfold Daemon.invite
    rw [if_neg (Nat.not_lt.mpr hsize)]
  refine ⟨?_, ?_, ?_, ?_, ?_, ?_, ?_⟩
  · rw [hjoined, hconsumed]
    exact h.queue
  · rw [hjoined]
    exact h.joins
  · rw [hjoined]
    exact h.drives
  · rw [hechoed]
    exact h.once
  · rw [hechoed, hnonces]
    exact fun n hn => List.mem_append_left _ (h.known n hn)
  · rw [hnonces]
    refine List.nodup_append.mpr ⟨h.fresh, List.nodup_singleton _, ?_⟩
    rintro n hn m hm rfl
    rw [List.mem_singleton.mp hm] at hn
    exact hnew hn
  · intro n gs hn hunheard
    rw [hpending, Std.ExtTreeMap.getElem?_insert]
    rw [hconsumed] at hunheard
    rcases List.mem_append.mp hn with hn | hn
    · have hne : nonce ≠ n := by
        rintro rfl
        exact hnew (List.mem_map_of_mem (f := Prod.fst) hn)
      rw [if_neg (mt Std.compare_eq_iff_eq.mp hne)]
      exact h.pending n gs hn hunheard
    · obtain ⟨rfl, rfl⟩ := Prod.mk.inj (List.mem_singleton.mp hn)
      exact if_pos Std.compare_self

/-- The nonce of the next join the daemon hears of was issued, and it has not heard of it before. -/
theorem OneShot.next (h : OneShot drives w) {peer : PeerId} {nonce : Nonce}
    {rest : List EngineEvent}
    (hev : w.daemon.events = .inviteAccepted peer nonce :: rest) :
    ∃ groups, (nonce, groups) ∈ w.issued ∧ w.daemon.pendingInvites[nonce]? = some groups := by
  have hqueue := congrArg (List.map Prod.snd) h.queue
  rw [hev, List.map_append, List.map_map] at hqueue
  replace hqueue : w.echoed =
    w.consumed.map Prod.snd ++ (nonce :: (rest.filterMap accepted?).map Prod.snd) := hqueue
  have hmem : nonce ∈ w.echoed := by
    rw [hqueue]
    exact List.mem_append_right _ List.mem_cons_self
  have hunheard : nonce ∉ w.consumed.map Prod.snd := by
    have honce := h.once
    rw [hqueue] at honce
    exact fun hin => (List.nodup_append.mp honce).2.2 nonce hin nonce List.mem_cons_self rfl
  obtain ⟨⟨n, groups⟩, hissued, rfl⟩ := List.mem_map.mp (h.known nonce hmem)
  exact ⟨groups, hissued, h.pending _ groups hissued hunheard⟩

/-- The daemon has handled an event that is no accepted join. -/
theorem OneShot.handled (h : OneShot drives w) {ev : EngineEvent} {rest : List EngineEvent}
    (hev : w.daemon.events = ev :: rest) (hno : accepted? ev = none) {d : Daemon}
    (hevents : d.events = rest) (hpending : d.pendingInvites = w.daemon.pendingInvites)
    (hdrives : ∀ drive ∈ d.drives ++ d.saved, drive ∈ w.daemon.drives ++ w.daemon.saved ∨
      ∃ j ∈ w.joined, drive = Engine.joinerDrive j.1 j.2) :
    OneShot drives { w with daemon := d } where
  queue := by
    have hqueue := h.queue
    rw [hev, List.filterMap_cons_none hno] at hqueue
    rw [hevents]
    exact hqueue
  joins := by
    intro name addr hmem
    rw [hevents] at hmem
    exact h.joins name addr (hev ▸ List.mem_cons_of_mem _ hmem)
  drives := by
    intro drive hdrive
    rcases hdrives drive hdrive with hold | hnew
    · exact h.drives drive hold
    · exact Or.inr hnew
  once := h.once
  known := h.known
  fresh := h.fresh
  pending := by
    rw [hpending]
    exact h.pending

/-- An event that is no accepted join enters the ledger nowhere. -/
theorem step_event {ext : DaemonEnv} {ev : EngineEvent} {rest : List EngineEvent}
    (hev : w.daemon.events = ev :: rest) (hno : accepted? ev = none) :
    (w.step (.event ext)).1 =
      { w with daemon := Daemon.onEngineEvent ext { w.daemon with events := rest } ev } := by
  unfold step Daemon.step issuedBy joinedBy consumedBy
  dsimp only
  rw [hev, List.head?_cons, Option.bind_some, hno, Option.toList_none, List.append_nil,
    List.append_nil, List.append_nil]

/-- A `DriveJoined` adds no drive but its own to those that are configured and saved. -/
theorem drives_onDriveJoined (ext : DaemonEnv) (d : Daemon) {name : String} {addr : Multiaddr}
    {joined : Drive} (hjoined : joined =
      { name, addr, tokenEnv := none, paused := false, availableOffline := true }) :
    ∀ drive ∈ (Daemon.onEngineEvent ext d (.driveJoined name addr)).drives ++
        (Daemon.onEngineEvent ext d (.driveJoined name addr)).saved,
      drive ∈ d.drives ++ d.saved ∨ drive = joined := by
  unfold Daemon.onEngineEvent
  dsimp only
  rw [← hjoined]
  split
  · exact fun drive hmem => Or.inl hmem
  · -- the drive of the join is the only new one, in the configuration and in its file
    have hadded : ∀ drive ∈ d.drives ++ [joined], drive ∈ d.drives ++ d.saved ∨ drive = joined := by
      intro drive hmem
      rcases List.mem_append.mp hmem with hmem | hmem
      · exact Or.inl (List.mem_append_left _ hmem)
      · exact Or.inr (List.mem_singleton.mp hmem)
    refine List.forall_mem_append.mpr ⟨hadded, ?_⟩
    dsimp only
    split
    · exact hadded
    · exact fun drive hmem => Or.inl (List.mem_append_right _ hmem)

/-- The daemon adds the drive of a join that the engine has reported. -/
theorem OneShot.driveJoined (h : OneShot drives w) (ext : DaemonEnv) {name : String}
    {addr : Multiaddr} {rest : List EngineEvent}
    (hev : w.daemon.events = .driveJoined name addr :: rest) :
    OneShot drives (w.step (.event ext)).1 := by
  rw [step_event hev rfl]
  obtain ⟨j, hj, hname, haddr⟩ := h.joins name addr (hev ▸ List.mem_cons_self)
  refine h.handled hev rfl ?_ ?_ fun drive hmem => ?_
  · unfold Daemon.onEngineEvent
    dsimp only
    split <;> rfl
  · unfold Daemon.onEngineEvent
    dsimp only
    split <;> rfl
  · have hdrive : Engine.joinerDrive j.1 j.2 =
        { name, addr, tokenEnv := none, paused := false, availableOffline := true } := by
      rw [hname, haddr]
      rfl
    rcases drives_onDriveJoined ext _ hdrive drive hmem with hold | hnew
    · exact Or.inl hold
    · exact Or.inr ⟨j, hj, hnew⟩

/-- The daemon hears of a taken proof, and uses up the grant of its nonce. -/
theorem OneShot.inviteAccepted (h : OneShot drives w) (ext : DaemonEnv) {peer : PeerId}
    {nonce : Nonce} {rest : List EngineEvent}
    (hev : w.daemon.events = .inviteAccepted peer nonce :: rest) :
    OneShot drives (w.step (.event ext)).1 := by
  obtain ⟨groups, hissued, hpending⟩ := h.next hev
  have hstep : (w.step (.event ext)).1 = { w with
      daemon := { w.daemon with
        events := rest
        pendingInvites := w.daemon.pendingInvites.erase nonce
        engine := { w.daemon.engine with
          store := Daemon.grantAll ext peer w.daemon.engine.store groups 0 } }
      consumed := w.consumed ++ [(peer, nonce)] } := by
    unfold step Daemon.step issuedBy joinedBy consumedBy Daemon.onEngineEvent
    dsimp only
    rw [hev]
    dsimp only
    rw [hpending, List.append_nil, List.append_nil]
    rfl
  rw [hstep]
  refine ⟨?_, ?_, h.drives, h.once, h.known, h.fresh, ?_⟩
  · have hqueue := h.queue
    rw [hev] at hqueue
    rw [List.append_assoc]
    exact hqueue
  · exact fun name addr hmem => h.joins name addr (hev ▸ List.mem_cons_of_mem _ hmem)
  · intro n gs hn hunheard
    rw [List.map_append, List.mem_append, not_or] at hunheard
    have hne : nonce ≠ n := fun heq => hunheard.2 (heq ▸ List.mem_singleton_self _)
    show (w.daemon.pendingInvites.erase nonce)[n]? = some gs
    rw [Std.ExtTreeMap.getElem?_erase, if_neg (mt Std.compare_eq_iff_eq.mp hne)]
    exact h.pending n gs hn hunheard.1

theorem OneShot.event (h : OneShot drives w) (ext : DaemonEnv) :
    OneShot drives (w.step (.event ext)).1 := by
  cases hev : w.daemon.events with
  | nil =>
    have hsame : (w.step (.event ext)).1 = w := by
      unfold step Daemon.step issuedBy joinedBy consumedBy
      dsimp only
      rw [hev, List.head?_nil, Option.bind_none, Option.toList_none, List.append_nil,
        List.append_nil, List.append_nil]
    rw [hsame]
    exact h
  | cons ev rest =>
    cases ev with
    | driveJoined name addr => exact h.driveJoined ext hev
    | inviteAccepted peer nonce => exact h.inviteAccepted ext hev
    | _ =>
      rw [step_event hev rfl]
      exact h.handled hev rfl rfl rfl fun drive hmem => Or.inl hmem

theorem OneShot.step (h : OneShot drives w) {i : Daemon.Input} (hgen : Genuine w i) :
    OneShot drives (w.step i).1 := by
  cases i with
  | engine x => exact h.engine hgen
  | event ext => exact h.event ext
  | invite nonce groups => exact h.invite hgen

/-! ## Runs -/

/-- What one-shot invites promise of a step.  A join that the engine reports echoes an issued nonce
    that no join before it has echoed.  The drives that are configured and saved are those the
    daemon started with, and those of such joins.  And when the daemon hears of a join, it adds the
    joiner to exactly the groups the invite was issued with. -/
structure KeepsInvites (drives : List Drive) (w : InviteLedger) (i : Daemon.Input) : Prop where
  joins : ∀ peer nonce, .event (.inviteAccepted peer nonce) ∈ (w.step i).2 →
    nonce ∈ w.nonces ∧ nonce ∉ w.echoed
  drives : ∀ d ∈ (w.step i).1.daemon.drives ++ (w.step i).1.daemon.saved,
    d ∈ drives ∨ ∃ j ∈ w.joined, d = Engine.joinerDrive j.1 j.2
  grants : ∀ ext peer nonce rest, i = .event ext →
    w.daemon.events = .inviteAccepted peer nonce :: rest →
      ∃ groups, (nonce, groups) ∈ w.issued ∧ (w.step i).1.daemon.engine.store =
        Daemon.grantAll ext peer w.daemon.engine.store groups 0

theorem OneShot.keepsInvites (h : OneShot drives w) {i : Daemon.Input} (hgen : Genuine w i) :
    KeepsInvites drives w i where
  joins := by
    intro peer nonce hmem
    cases i with
    | engine x =>
      have hreported : (peer, nonce) ∈
          ((w.daemon.engine.step x).2.filterMap Daemon.event?).filterMap accepted? :=
        List.mem_filterMap.mpr
          ⟨.inviteAccepted peer nonce, List.mem_filterMap.mpr ⟨_, hmem, rfl⟩, rfl⟩
      rw [accepted_step] at hreported
      obtain ⟨j, hj, heq⟩ := List.mem_map.mp hreported
      obtain ⟨-, rfl⟩ := Prod.mk.inj heq
      exact hgen j (Option.mem_toList.mp hj)
    | event ext =>
      have hnone : (w.step (.event ext)).2 = [] := by
        unfold InviteLedger.step Daemon.step
        dsimp only
        split <;> rfl
      rw [hnone] at hmem
      exact absurd hmem List.not_mem_nil
    | invite n groups => exact absurd hmem List.not_mem_nil
  drives := by
    cases i with
    | engine x => exact h.drives
    | event ext =>
      have hjoined : (w.step (.event ext)).1.joined = w.joined := List.append_nil _
      rw [← hjoined]
      exact (h.event ext).drives
    | invite n groups => exact h.drives
  grants := by
    rintro ext peer nonce rest rfl hev
    obtain ⟨groups, hissued, hpending⟩ := h.next hev
    refine ⟨groups, hissued, ?_⟩
    unfold InviteLedger.step Daemon.step Daemon.onEngineEvent
    dsimp only
    rw [hev]
    dsimp only
    rw [hpending]

/-- **Invites are one-shot and cannot be invented**, in any run of the daemon in which every
    join-proof that is taken up echoes an issued nonce for the first time, and no invite finds the
    map full or repeats a nonce. -/
theorem invites_are_one_shot (engine : Engine) (instanceName : String) (drives : List Drive)
    (ins : List Daemon.Input)
    (hgen : ∀ past i rest, ins = past ++ i :: rest →
      Genuine (machine.run (start (Daemon.start engine instanceName drives)) past) i) :
    ∀ past i rest, ins = past ++ i :: rest →
      KeepsInvites drives
        (machine.run (start (Daemon.start engine instanceName drives)) past) i := by
  have hstart : OneShot drives (start (Daemon.start engine instanceName drives)) := by
    refine ⟨rfl, ?_, ?_, List.nodup_nil, List.forall_mem_nil _, List.nodup_nil, ?_⟩
    · exact fun _ _ hmem => absurd hmem List.not_mem_nil
    · exact fun d hd => Or.inl ((List.mem_append.mp hd).elim id id)
    · exact fun _ _ hmem => absurd hmem List.not_mem_nil
  have hrun := machine.cuts_invariant hstart (fun w i h hi => h.step hi) hgen
  exact fun past i rest hins => (hrun past _ hins).keepsInvites (hgen past i rest hins)

end InviteLedger

end

/-! ## Mallory joins -/

section

open Sample

attribute [local instance] Sample.primitives

namespace InviteLedger

/-- Alice's daemon, with no drives. -/
def aliceDaemon : Daemon :=
  Daemon.start (Engine.aliceOver (Store.fresh alice.key alice.name [])) "alice" []

/-- Mallory joins with the nonce 7. -/
def malloryJoins : Daemon.Input :=
  .engine (Engine.calmEnv, .request mallory.name (.hello Engine.joinHello))

theorem joinOf_malloryJoins (w : InviteLedger) (hw : w.daemon.engine = aliceDaemon.engine) :
    ∀ j, w.daemon.engine.joinOf (Engine.calmEnv, .request mallory.name (.hello Engine.joinHello)) =
      some j → j.2.nonce = [7] := by
  intro j hj
  have hnonce : (aliceDaemon.engine.joinOf (Engine.calmEnv,
      .request mallory.name (.hello Engine.joinHello))).map (fun j => j.2.nonce) = some [7] := by
    decide +kernel
  rw [← hw, hj] at hnonce
  exact Option.some.inj hnonce

/-- Alice invites with the nonce 7, and mallory joins. -/
theorem invites_are_one_shot_joined :
    KeepsInvites [] (machine.run (start aliceDaemon) [.invite [7] ["core"]]) malloryJoins := by
  refine invites_are_one_shot (Engine.aliceOver (Store.fresh alice.key alice.name [])) "alice" []
    [.invite [7] ["core"], malloryJoins] ?_ [.invite [7] ["core"]] malloryJoins [] rfl
  refine Lib.forall_cuts_cons.mpr ⟨?_, Lib.forall_cuts_cons.mpr ⟨?_, Lib.forall_cuts_nil⟩⟩
  · exact ⟨List.not_mem_nil, Nat.zero_le _⟩
  · intro j hj
    rw [joinOf_malloryJoins _ rfl j hj]
    exact ⟨List.mem_singleton_self _, List.not_mem_nil⟩

/-- **Mallory invents a nonce**, and is added. -/
theorem invite_is_invented :
    ¬ ∀ (engine : Engine) (instanceName : String) (drives : List Drive) (ins : List Daemon.Input)
      (past : List Daemon.Input) (i : Daemon.Input) (rest : List Daemon.Input),
      ins = past ++ i :: rest → KeepsInvites drives
        (machine.run (start (Daemon.start engine instanceName drives)) past) i := by
  intro hall
  have hkeeps : KeepsInvites [] (start aliceDaemon) malloryJoins :=
    hall _ _ _ [malloryJoins] [] malloryJoins [] rfl
  have hreported : (mallory.name, [7]) ∈ (((start aliceDaemon).step malloryJoins).2.filterMap
      Daemon.event?).filterMap accepted? := by
    decide +kernel
  obtain ⟨ev, hev, haccepted⟩ := List.mem_filterMap.mp hreported
  obtain ⟨o, ho, heq⟩ := List.mem_filterMap.mp hev
  have hjoin : .event (.inviteAccepted mallory.name [7]) ∈
      ((start aliceDaemon).step malloryJoins).2 := by
    unfold accepted? at haccepted
    unfold Daemon.event? at heq
    split at haccepted
    · split at heq
      · cases haccepted
        rw [Option.some.inj heq] at ho
        exact ho
      · cases heq
    · cases haccepted
  exact List.not_mem_nil (hkeeps.joins mallory.name [7] hjoin).1

end InviteLedger

end

end PhReactor
