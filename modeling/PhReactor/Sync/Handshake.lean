/-
  The handler of a `Hello`, stage by stage, and what a REFUSED hello leaves behind.

  The handler changes the engine in stages, and each gate returns from a different point:

    ban → version → join-proof → token → (key readable?) → drive's token → guest, pin → ack

  1. `HelloRun` is the inversion of the whole handler: one constructor for each way out of it, with
     what the stages before have done.

  2. **Pins.**  Two stages pin a key.  The last one pins the sender's, under the id the transport
     has verified.  The join-proof pins under the id that is WRITTEN IN IT, and the proof is signed
     with its own key.  So a hello touches a foreign pin exactly when it carries a verifying proof
     in the name of somebody whose key is not pinned yet (`hello_pins_only_sender_iff`).

  3. **Refusals.**  A proof is taken up before the token is looked at, and the guest is remembered
     before its key is.  So a refused hello changes nothing exactly when its proof is not taken up,
     and where it gets as far as the pin, the peer is a guest already and its drive shows what the
     handshake writes (`refused_hello_changes_nothing_iff`).
-/
import PhReactor.Sync.Frames
import PhReactor.Sync.Replies

set_option linter.unusedSectionVars false

namespace PhReactor

section

variable [Primitives]

/-! ## Pinning a key -/

/-- A key that is not pinned differently is pinned, and nothing else changes. -/
theorem registerPeerKey_ok {s : Inner} {origin : Origin} {key : PublicKey}
    (h : (s.knownKeys[origin]?).all (· == key) = true) :
    ∃ keys, Store.registerPeerKey s origin key = ({ s with knownKeys := keys }, .ok ()) ∧
      ∀ o, keys[o]? = if origin = o then some key else s.knownKeys[o]? := by
  unfold Store.registerPeerKey
  cases hpin : s.knownKeys[origin]? with
  | none =>
    refine ⟨_, rfl, fun o => ?_⟩
    rw [Std.ExtTreeMap.getElem?_insert]
    by_cases ho : origin = o
    · rw [if_pos ho, if_pos (Std.compare_eq_iff_eq.mpr ho)]
    · rw [if_neg ho, if_neg (mt Std.compare_eq_iff_eq.mp ho)]
  | some pinned =>
    rw [hpin, Option.all_some, beq_iff_eq] at h
    subst h
    refine ⟨s.knownKeys, if_pos rfl, fun o => ?_⟩
    by_cases ho : origin = o
    · rw [if_pos ho, ← ho, hpin]
    · rw [if_neg ho]

/-- A key that is pinned differently is refused. -/
theorem registerPeerKey_refused {s : Inner} {origin : Origin} {key : PublicKey}
    (h : (s.knownKeys[origin]?).all (· == key) = false) :
    ∃ msg, Store.registerPeerKey s origin key = (s, .error msg) := by
  unfold Store.registerPeerKey
  cases hpin : s.knownKeys[origin]? with
  | none =>
    rw [hpin] at h
    cases h
  | some pinned =>
    rw [hpin, Option.all_some] at h
    exact ⟨_, if_neg (ne_of_beq_false h)⟩

/-- Whether a key can be pinned for `o` depends on the pin of `o` only. -/
theorem registerPeerKey_isOk_congr {s t : Inner} {o : Origin}
    (h : t.knownKeys[o]? = s.knownKeys[o]?) (key : PublicKey) :
    (Store.registerPeerKey t o key).2.isOk = (Store.registerPeerKey s o key).2.isOk := by
  unfold Store.registerPeerKey
  rw [h]
  split
  · split <;> rfl
  · rfl

/-! ## A drive that is greeted -/

/-- A drive whose handshake was just completed from the other side. -/
def DriveRuntime.greeted (env : Env) (rt : DriveRuntime) : DriveRuntime :=
  { rt with handshaken := true, lastSeen := env.now, remoteClocks := ∅, status := .connecting }

/-- What a drive shows of its handshake: all of it but the time it was last seen. -/
def DriveRuntime.shown (rt : DriveRuntime) :
    Drive × PeerId × Bool × Std.ExtTreeMap DocId VecClock × DriveStatus :=
  (rt.drive, rt.peer, rt.handshaken, rt.remoteClocks, rt.status)

/-- A drive shows what a handshake from the other side writes. -/
def DriveRuntime.Settled (rt : DriveRuntime) : Prop :=
  rt.handshaken = true ∧ rt.remoteClocks = ∅ ∧ rt.status = .connecting

theorem DriveRuntime.shown_greeted_iff {env : Env} (rt : DriveRuntime) :
    (rt.greeted env).shown = rt.shown ↔ rt.Settled := by
  simp only [DriveRuntime.greeted, DriveRuntime.shown, DriveRuntime.Settled, Prod.mk.injEq,
    true_and]
  constructor
  · rintro ⟨hshaken, hclocks, hstatus⟩
    exact ⟨hshaken.symm, hclocks.symm, hstatus.symm⟩
  · rintro ⟨hshaken, hclocks, hstatus⟩
    exact ⟨hshaken.symm, hclocks.symm, hstatus.symm⟩

theorem DriveRuntime.greeted_eq_self_iff {env : Env} (rt : DriveRuntime) :
    rt.greeted env = rt ↔ rt.Settled ∧ rt.lastSeen = env.now := by
  obtain ⟨drive, peer, status, clocks, inFlight, handshaken, nextCatchUp, lastSeen, accept⟩ := rt
  simp only [DriveRuntime.greeted, DriveRuntime.Settled, DriveRuntime.mk.injEq, true_and, and_true]
  constructor
  · rintro ⟨hstatus, hclocks, hshaken, hseen⟩
    exact ⟨⟨hshaken.symm, hclocks.symm, hstatus.symm⟩, hseen.symm⟩
  · rintro ⟨⟨hshaken, hclocks, hstatus⟩, hseen⟩
    exact ⟨hstatus.symm, hclocks.symm, hshaken.symm, hseen.symm⟩

namespace Engine

section

variable {env : Env} {e : Engine} {p : PeerId} {h : Hello}

/-! ## What a hello meets -/

/-- Neither the ban gate nor the version gate refuses it. -/
def Admitted (e : Engine) (p : PeerId) (h : Hello) : Prop :=
  e.banned.contains p = false ∧ h.version = protocolVersion

/-- The token gate lets it pass. -/
def tokenOk (e : Engine) (token : Option String) : Bool :=
  e.token.all fun need => token == some need

/-- A join-proof of `p` is taken up: it verifies, and the id in it is not pinned to another key. -/
def takes (e : Engine) (p : PeerId) (a : InviteAccept) : Bool :=
  !e.banned.contains p && a.verify && (e.store.knownKeys[a.peerId]?).all (· == a.key)

/-- The peer's drive asks for a token, and the hello has none. -/
def wantsToken (env : Env) (e : Engine) (p : PeerId) (token : Option String) : Bool :=
  match e.driveNameByPeer env p with
  | none => false
  | some name => (e.drives[name]?.any fun rt => rt.drive.tokenEnv.isSome) && token.isNone

/-- The peer's drive, if it has one, is marked as handshaken. -/
def greet (env : Env) (e : Engine) (p : PeerId) : Engine × List Effect :=
  match e.driveNameByPeer env p with
  | none => (e, [])
  | some name =>
    (e.modifyDrive name (DriveRuntime.greeted env), [setStatus name .connecting none])

theorem registerHello_eq (token : Option String) (key : PublicKey) :
    registerHello env e p token key =
      if wantsToken env e p token then ((e, []), some .authRequired)
      else pinGuest p key (greet env e p) := by
  unfold registerHello wantsToken greet
  cases e.driveNameByPeer env p with
  | none => rfl
  | some name => rfl

/-! ## The join-proof -/

theorem store_addDriveInternal (drive : Drive) :
    (addDriveInternal env e drive).1.store = e.store := by
  unfold addDriveInternal finishGuest openIfConnected openHandshake
  dsimp only
  repeat' split
  all_goals rfl

/-- What the daemon is told when a join-proof of `p` is taken up. -/
def admission (p : PeerId) (a : InviteAccept) : List Effect :=
  [.event (.driveJoined (joinerDrive p a).name (joinerDrive p a).addr),
    .event (.inviteAccepted p a.nonce)]

/-- A proof that is taken up pins its key, adds a drive and tells the daemon. -/
theorem handleInviteAccept_taken (env : Env) {a : InviteAccept} (ht : e.takes p a = true) :
    ∃ keys out, (∀ o, keys[o]? = if a.peerId = o then some a.key else e.store.knownKeys[o]?) ∧
      (handleInviteAccept env e p a).1.store = { e.store with knownKeys := keys } ∧
      (handleInviteAccept env e p a).2 = out ++ admission p a ∧ ∀ o ∈ out, o.plain = true := by
  obtain ⟨⟨hban, hver⟩, hpin⟩ : (e.banned.contains p = false ∧ a.verify = true) ∧
      (e.store.knownKeys[a.peerId]?).all (· == a.key) = true := by
    simpa [takes] using ht
  obtain ⟨keys, hreg, hkeys⟩ := registerPeerKey_ok hpin
  let pinned : Engine := { e with store := { e.store with knownKeys := keys } }
  have heq : handleInviteAccept env e p a = ((addDriveInternal env pinned (joinerDrive p a)).1,
      (addDriveInternal env pinned (joinerDrive p a)).2 ++ admission p a) := by
    unfold handleInviteAccept
    rw [hban, hver, hreg]
    rfl
  have hplain := (plain_addDriveInternal env (e := pinned) (joinerDrive p a)).effects
  rw [heq]
  exact ⟨keys, _, hkeys, store_addDriveInternal _, rfl, hplain⟩

/-- A proof that is not taken up does nothing. -/
theorem handleInviteAccept_ignored {a : InviteAccept} (ht : e.takes p a = false) :
    handleInviteAccept env e p a = (e, []) := by
  unfold handleInviteAccept
  split
  · rfl
  · next hban =>
    split
    · rfl
    · next hver =>
      replace hver : a.verify = true := by simpa using hver
      have hpin : (e.store.knownKeys[a.peerId]?).all (· == a.key) = false := by
        simpa [takes, hban, hver] using ht
      obtain ⟨msg, hreg⟩ := registerPeerKey_refused hpin
      rw [hreg]

/-- What the join-proof of a hello does: nothing, or it is taken up. -/
theorem acceptInvite_ignored (env : Env) (ht : ∀ a, h.accept = some a → e.takes p a = false) :
    acceptInvite env e p h.accept = (e, []) := by
  cases haccept : h.accept with
  | none => rfl
  | some a => exact handleInviteAccept_ignored (ht a haccept)

theorem effects_acceptInvite (accept : Option InviteAccept) :
    ∀ o ∈ (acceptInvite env e p accept).2, o.plain = true ∨ o.admits = true := by
  cases accept with
  | none => exact List.forall_mem_nil _
  | some a =>
    show ∀ o ∈ (handleInviteAccept env e p a).2, _
    cases ht : e.takes p a with
    | false =>
      rw [handleInviteAccept_ignored ht]
      exact List.forall_mem_nil _
    | true =>
      obtain ⟨-, out, -, -, heq, hout⟩ := handleInviteAccept_taken env ht
      rw [heq]
      exact List.forall_mem_append.mpr ⟨fun o ho => Or.inl (hout o ho),
        List.forall_mem_cons.mpr ⟨Or.inr rfl, List.forall_mem_singleton.mpr (Or.inr rfl)⟩⟩

/-! ## The whole handler -/

/-- **Every way out of the handler of a hello.**  `(acceptInvite env e p h.accept)` is the engine
    after the join-proof, which no later gate takes back. -/
inductive HelloRun (env : Env) (e : Engine) (p : PeerId) (h : Hello) : Engine × List Effect → Prop
  /-- The ban gate or the version gate. -/
  | shut {err : HelloError} (hno : ¬ Admitted e p h) :
    HelloRun env e p h (e, [.response p (.helloErr err)])
  /-- The token gate counts a failure, and may ban the peer. -/
  | badToken {failures : Std.ExtTreeMap PeerId (ℕ × ℕ)} {banned : Std.ExtTreeSet PeerId}
    {out : List Effect} {err : HelloError} (hadm : Admitted e p h)
    (htok : e.tokenOk h.token = false) (hout : ∀ o ∈ out, o.plain = true) :
    HelloRun env e p h ({ (acceptInvite env e p h.accept).1 with
        authFailures := failures, banned := banned },
      (acceptInvite env e p h.accept).2 ++ out ++ [.response p (.helloErr err)])
  /-- A key that cannot be read is no reason to refuse. -/
  | keyless (hadm : Admitted e p h) (htok : e.tokenOk h.token = true)
    (hkey : pubkeyOfHex h.pubkey = none) :
    HelloRun env e p h ((acceptInvite env e p h.accept).1, (acceptInvite env e p h.accept).2 ++
      [.response p (.helloAck ((acceptInvite env e p h.accept).1.helloAck p))])
  /-- The peer's drive asks for a token. -/
  | authRequired {key : PublicKey} (hadm : Admitted e p h) (htok : e.tokenOk h.token = true)
    (hkey : pubkeyOfHex h.pubkey = some key)
    (hwants : wantsToken env (acceptInvite env e p h.accept).1 p h.token = true) :
    HelloRun env e p h ((acceptInvite env e p h.accept).1,
      (acceptInvite env e p h.accept).2 ++ [] ++ [.response p (.helloErr .authRequired)])
  /-- The peer has become a guest, and its key is the one that was pinned, or pinned now. -/
  | passed {key : PublicKey} {t : Engine} {keys : Std.ExtTreeMap Origin PublicKey}
    (hadm : Admitted e p h) (htok : e.tokenOk h.token = true)
    (hkey : pubkeyOfHex h.pubkey = some key)
    (hwants : wantsToken env (acceptInvite env e p h.accept).1 p h.token = false)
    (ht : t = (greet env (acceptInvite env e p h.accept).1 p).1)
    (hkeys : ∀ o, keys[o]? = if p = o then some key else t.store.knownKeys[o]?) :
    HelloRun env e p h ({ t with
        guests := t.guests.insert p, store := { t.store with knownKeys := keys } },
      (acceptInvite env e p h.accept).2 ++ (greet env (acceptInvite env e p h.accept).1 p).2 ++
        [.response p (.helloAck ({ t with
          guests := t.guests.insert p, store := { t.store with knownKeys := keys } }.helloAck p))])
  /-- The peer has become a guest, and its key is not the one that was pinned. -/
  | mismatch {key : PublicKey} {t : Engine} (hadm : Admitted e p h)
    (htok : e.tokenOk h.token = true) (hkey : pubkeyOfHex h.pubkey = some key)
    (hwants : wantsToken env (acceptInvite env e p h.accept).1 p h.token = false)
    (ht : t = (greet env (acceptInvite env e p h.accept).1 p).1) :
    HelloRun env e p h ({ t with guests := t.guests.insert p },
      (acceptInvite env e p h.accept).2 ++ (greet env (acceptInvite env e p h.accept).1 p).2 ++
        [.response p (.helloErr .keyMismatch)])

theorem tokenGate_passed {token : Option String} (htok : e.tokenOk token = true) :
    tokenGate env e p token = ((e, []), none) := by
  unfold tokenOk at htok
  unfold tokenGate
  cases hneed : e.token with
  | none => rfl
  | some need =>
    rw [hneed, Option.all_some, beq_iff_eq] at htok
    rw [htok]
    exact if_pos rfl

theorem recordAuthFailure_counts (env : Env) (e : Engine) (p : PeerId) :
    ∃ failures banned, (recordAuthFailure env e p).1.1 =
      { e with authFailures := failures, banned := banned } := by
  unfold recordAuthFailure
  dsimp only
  split
  · exact ⟨_, _, rfl⟩
  · exact ⟨_, _, rfl⟩

theorem tokenGate_refused (env : Env) (p : PeerId) {token : Option String}
    (htok : e.tokenOk token = false) :
    ∃ t err, tokenGate env e p token = (t, some err) ∧ (∃ failures banned,
      t.1 = { e with authFailures := failures, banned := banned }) ∧
        ∀ o ∈ t.2, o.plain = true := by
  unfold tokenOk at htok
  unfold tokenGate
  split
  · next hneed =>
    rw [hneed] at htok
    cases htok
  · next need got hneed =>
    rw [hneed, Option.all_some] at htok
    have hne : got ≠ need := fun heq => ne_of_beq_false htok (congrArg some heq)
    rw [if_neg hne]
    exact ⟨_, _, rfl, recordAuthFailure_counts env e p, (plain_recordAuthFailure env p).effects⟩
  · exact ⟨(e, []), .badToken, rfl, ⟨e.authFailures, e.banned, rfl⟩, List.forall_mem_nil _⟩

theorem serveHello_run (env : Env) (e : Engine) (p : PeerId) (h : Hello) :
    HelloRun env e p h (serveHello env e p h) := by
  unfold serveHello
  split
  · next hban => exact .shut fun hadm => Bool.false_ne_true (hadm.1.symm.trans hban)
  · next hban =>
    split
    · next hver => exact .shut fun hadm => hver hadm.2
    · next hver =>
      have hadm : Admitted e p h := ⟨Bool.eq_false_iff.mpr hban, not_not.mp hver⟩
      have htoken : (acceptInvite env e p h.accept).1.tokenOk h.token = e.tokenOk h.token := by
        unfold tokenOk
        rw [(keeps_acceptInvite env p h.accept).token]
      dsimp only
      cases htok : e.tokenOk h.token with
      | false =>
        obtain ⟨⟨e', out⟩, err, hgate, ⟨failures, banned, rfl⟩, hout⟩ :=
          tokenGate_refused env p (htoken.trans htok)
        rw [hgate]
        exact .badToken hadm htok hout
      | true =>
        rw [tokenGate_passed (htoken.trans htok)]
        dsimp only
        cases hkey : pubkeyOfHex h.pubkey with
        | none => exact .keyless hadm htok hkey
        | some key =>
          dsimp only
          rw [registerHello_eq]
          cases hwants : wantsToken env (acceptInvite env e p h.accept).1 p h.token with
          | true => exact .authRequired hadm htok hkey hwants
          | false =>
            rw [if_neg Bool.false_ne_true]
            unfold pinGuest
            dsimp only
            generalize hgreet : greet env (acceptInvite env e p h.accept).1 p = t
            have ht : t.1 = (greet env (acceptInvite env e p h.accept).1 p).1 := by rw [hgreet]
            cases hpin : (t.1.store.knownKeys[p]?).all (· == key) with
            | true =>
              obtain ⟨keys, hreg, hkeys⟩ := registerPeerKey_ok hpin
              rw [hreg]
              have hrun := HelloRun.passed hadm htok hkey hwants ht hkeys
              rw [hgreet] at hrun
              exact hrun
            | false =>
              obtain ⟨msg, hreg⟩ := registerPeerKey_refused hpin
              rw [hreg]
              have hrun := HelloRun.mismatch hadm htok hkey hwants ht
              rw [hgreet] at hrun
              exact hrun

/-! ## Pins -/

theorem store_greet : (greet env e p).1.store = e.store := by
  unfold greet
  split <;> rfl

/-- Past the first two gates, only the join-proof can touch a foreign pin. -/
theorem knownKeys_serveHello (hadm : Admitted e p h) {k : Origin} (hk : k ≠ p) :
    (serveHello env e p h).1.store.knownKeys[k]? =
      (acceptInvite env e p h.accept).1.store.knownKeys[k]? := by
  have hrun := serveHello_run env e p h
  generalize serveHello env e p h = t at hrun ⊢
  cases hrun with
  | shut hno => exact absurd hadm hno
  | badToken _ _ _ => rfl
  | keyless _ _ _ => rfl
  | authRequired _ _ _ _ => rfl
  | passed _ _ _ _ ht hkeys =>
    refine (hkeys k).trans ?_
    rw [if_neg hk.symm, ht, store_greet]
  | mismatch _ _ _ _ ht =>
    dsimp only
    rw [ht, store_greet]

/-- Past the first two gates, the drives are those after the join-proof, or after the greeting. -/
theorem drives_serveHello (hadm : Admitted e p h) :
    (serveHello env e p h).1.drives = (acceptInvite env e p h.accept).1.drives ∨
      (serveHello env e p h).1.drives =
        (greet env (acceptInvite env e p h.accept).1 p).1.drives := by
  have hrun := serveHello_run env e p h
  generalize serveHello env e p h = t at hrun ⊢
  cases hrun with
  | shut hno => exact absurd hadm hno
  | badToken _ _ _ => exact Or.inl rfl
  | keyless _ _ _ => exact Or.inl rfl
  | authRequired _ _ _ _ => exact Or.inl rfl
  | passed _ _ _ _ ht _ =>
    rw [← ht]
    exact Or.inr rfl
  | mismatch _ _ _ _ ht =>
    rw [← ht]
    exact Or.inr rfl

/-- The hello carries a verifying proof in the name of another peer, whose key is not pinned yet,
    and gets as far as the proof. -/
def ForeignPin (e : Engine) (p : PeerId) (h : Hello) : Prop :=
  Admitted e p h ∧ ∃ a, h.accept = some a ∧ a.verify = true ∧ a.peerId ≠ p ∧
    e.store.knownKeys[a.peerId]? = none

theorem knownKeys_acceptInvite (hno : ¬ ForeignPin e p h) (hadm : Admitted e p h) {k : Origin}
    (hk : k ≠ p) : (acceptInvite env e p h.accept).1.store.knownKeys[k]? =
      e.store.knownKeys[k]? := by
  by_cases htaken : ∀ a, h.accept = some a → e.takes p a = false
  · rw [acceptInvite_ignored env htaken]
  · push Not at htaken
    obtain ⟨a, haccept, ht⟩ := htaken
    replace ht : e.takes p a = true := Bool.not_eq_false _ ▸ ht
    obtain ⟨keys, -, hkeys, hstore, -⟩ := handleInviteAccept_taken env ht
    rw [haccept, show acceptInvite env e p (some a) = handleInviteAccept env e p a from rfl, hstore]
    refine (hkeys k).trans ?_
    split
    · next hself =>
      -- the proof is in the name of `k`, so `k` is pinned already, and to the key of the proof
      subst hself
      have htaken : e.banned.contains p = false ∧ a.verify = true ∧
          (e.store.knownKeys[a.peerId]?).all (· == a.key) = true := by
        simpa [takes, and_assoc] using ht
      cases hpin : e.store.knownKeys[a.peerId]? with
      | none => exact absurd ⟨hadm, a, haccept, htaken.2.1, hk, hpin⟩ hno
      | some pinned =>
        have hsame := htaken.2.2
        rw [hpin, Option.all_some, beq_iff_eq] at hsame
        rw [hsame]
    · rfl

/-- **A hello pins its sender's key only, unless it carries a proof in another's name.**  The pins
    of all other peers stay as they are, and so does what can be pinned for them, exactly when the
    hello is no `ForeignPin`. -/
theorem hello_pins_only_sender_iff (env : Env) (e : Engine) (p : PeerId) (h : Hello) :
    (∀ k, k ≠ p →
      (serveRequest env e p (.hello h)).1.store.knownKeys[k]? = e.store.knownKeys[k]? ∧
        ∀ key, (Store.registerPeerKey (serveRequest env e p (.hello h)).1.store k key).2.isOk =
          (Store.registerPeerKey e.store k key).2.isOk) ↔ ¬ ForeignPin e p h := by
  constructor
  · rintro hsame ⟨hadm, a, haccept, hver, hother, hfree⟩
    have ht : e.takes p a = true := by simp [takes, hadm.1, hver, hfree]
    obtain ⟨keys, -, hkeys, hstore, -⟩ := handleInviteAccept_taken env ht
    have hpin : (serveHello env e p h).1.store.knownKeys[a.peerId]? = some a.key := by
      rw [knownKeys_serveHello hadm hother, haccept,
        show acceptInvite env e p (some a) = handleInviteAccept env e p a from rfl, hstore]
      exact (hkeys a.peerId).trans (if_pos rfl)
    have hgone := ((hsame a.peerId hother).1.symm.trans hpin)
    rw [hfree] at hgone
    cases hgone
  · intro hno k hk
    have hkeep : (serveHello env e p h).1.store.knownKeys[k]? = e.store.knownKeys[k]? := by
      by_cases hadm : Admitted e p h
      · rw [knownKeys_serveHello hadm hk, knownKeys_acceptInvite hno hadm hk]
      · have hrun := serveHello_run env e p h
        generalize serveHello env e p h = t at hrun ⊢
        cases hrun with
        | shut _ => rfl
        | _ => contradiction
    exact ⟨hkeep, registerPeerKey_isOk_congr hkeep⟩

/-! ## Refusals -/

/-- Apart from the failure count and the ban set, nothing has changed that `view` shows of a drive,
    and the daemon is told of no admission. -/
structure Unmoved {α : Type} (view : DriveRuntime → α) (e : Engine) (t : Engine × List Effect) :
    Prop where
  outside : t.1 = { e with
    drives := t.1.drives, authFailures := t.1.authFailures, banned := t.1.banned }
  drives : ∀ name : String, t.1.drives[name]?.map view = e.drives[name]?.map view
  admissions : ∀ o ∈ t.2, o.admits = false

/-- The hello gets as far as the pin of its sender's key. -/
def ReachesPin (env : Env) (e : Engine) (p : PeerId) (h : Hello) : Prop :=
  Admitted e p h ∧ e.tokenOk h.token = true ∧ (pubkeyOfHex h.pubkey).isSome = true ∧
    wantsToken env e p h.token = false

/-- The hello's proof is not taken up, and if it gets as far as the pin, its sender is a guest
    already and its drive, if it has one, is as `P` says. -/
structure Harmless (P : DriveRuntime → Prop) (env : Env) (e : Engine) (p : PeerId) (h : Hello) :
    Prop where
  proof : Admitted e p h → ∀ a, h.accept = some a → e.takes p a = false
  pin : ReachesPin env e p h → p ∈ e.guests ∧ ∀ (name : String) (rt : DriveRuntime),
    e.driveNameByPeer env p = some name → e.drives[name]? = some rt → P rt

theorem admits_of_plain {o : Effect} (h : o.plain = true) : o.admits = false := by
  cases o with
  | event ev => simpa [Effect.plain] using h
  | _ => rfl

/-- A proof that is taken up is not taken back. -/
theorem mem_serveHello (hadm : Admitted e p h) {o : Effect}
    (ho : o ∈ (acceptInvite env e p h.accept).2) : o ∈ (serveHello env e p h).2 := by
  have hrun := serveHello_run env e p h
  generalize serveHello env e p h = t at hrun ⊢
  cases hrun with
  | shut hno => exact absurd hadm hno
  | keyless _ _ _ => exact List.mem_append_left _ ho
  | _ => exact List.mem_append_left _ (List.mem_append_left _ ho)

/-- Greeting the peer's drive shows nothing new exactly when the drive shows it already. -/
theorem greet_same {α : Type} (view : DriveRuntime → α) (env : Env) (e : Engine) (p : PeerId) :
    (∀ name : String, (greet env e p).1.drives[name]?.map view = e.drives[name]?.map view) ↔
      ∀ (name : String) (rt : DriveRuntime), e.driveNameByPeer env p = some name →
        e.drives[name]? = some rt → view (rt.greeted env) = view rt := by
  unfold greet
  cases hname : e.driveNameByPeer env p with
  | none =>
    constructor
    · intro _ name rt heq
      cases heq
    · exact fun _ _ => rfl
  | some found =>
    dsimp only
    constructor
    · intro h name rt heq hrt
      obtain rfl := Option.some.inj heq
      have hview := h found
      rw [getElem?_modifyDrive, if_pos rfl, hrt] at hview
      exact Option.some.inj hview
    · intro h name
      rw [getElem?_modifyDrive]
      split
      · next heq =>
        subst heq
        cases hrt : e.drives[found]? with
        | none => rfl
        | some rt => exact congrArg some (h found rt rfl hrt)
      · rfl

theorem guests_greet : (greet env e p).1.guests = e.guests := by
  unfold greet
  split <;> rfl

theorem effects_greet : ∀ o ∈ (greet env e p).2, o.plain = true := by
  unfold greet
  split
  · exact plain_nil
  · exact plain_one rfl

theorem insert_eq_self_iff {s : Std.ExtTreeSet PeerId} : s.insert p = s ↔ p ∈ s := by
  constructor
  · intro h
    rw [← h]
    exact Std.ExtTreeSet.mem_insert_self
  · intro h
    refine Std.ExtTreeSet.ext_mem fun q => ?_
    rw [Std.ExtTreeSet.mem_insert]
    constructor
    · rintro (heq | hq)
      · rwa [← Std.compare_eq_iff_eq.mp heq]
      · exact hq
    · exact Or.inr

/-- A refused hello that reaches the pin has made its sender a guest and greeted its drive. -/
theorem unmoved_mismatch_iff {α : Type} {view : DriveRuntime → α} {out : List Effect}
    (hout : ∀ o ∈ out, o.admits = false) :
    Unmoved view e ({ (greet env e p).1 with guests := (greet env e p).1.guests.insert p }, out) ↔
      p ∈ e.guests ∧ ∀ (name : String) (rt : DriveRuntime), e.driveNameByPeer env p = some name →
        e.drives[name]? = some rt → view (rt.greeted env) = view rt := by
  rw [← greet_same view env e p, guests_greet,
    ← insert_eq_self_iff]
  constructor
  · intro h
    exact ⟨congrArg Engine.guests h.outside, h.drives⟩
  · rintro ⟨hguest, hdrives⟩
    refine ⟨?_, hdrives, hout⟩
    dsimp only
    rw [hguest]
    unfold greet
    split <;> rfl

/-- Counting alone is no change. -/
theorem unmoved_counted {α : Type} (view : DriveRuntime → α) {out : List Effect}
    (hout : ∀ o ∈ out, o.admits = false) (failures : Std.ExtTreeMap PeerId (ℕ × ℕ))
    (banned : Std.ExtTreeSet PeerId) :
    Unmoved view e ({ e with authFailures := failures, banned := banned }, out) :=
  ⟨rfl, fun _ => rfl, hout⟩

/-- An admission is not taken back: once the proof is taken up, the daemon hears of it. -/
theorem not_unmoved_of_taken {α : Type} {view : DriveRuntime → α} (hadm : Admitted e p h)
    {a : InviteAccept} (haccept : h.accept = some a) (ht : e.takes p a = true) :
    ¬ Unmoved view e (serveHello env e p h) := by
  intro hun
  obtain ⟨-, out, -, -, heq, -⟩ := handleInviteAccept_taken env ht
  have hinvited : .event (.inviteAccepted p a.nonce) ∈ (acceptInvite env e p h.accept).2 := by
    rw [haccept, show acceptInvite env e p (some a) = handleInviteAccept env e p a from rfl, heq]
    exact List.mem_append_right _ (List.mem_cons_of_mem _ (List.mem_singleton_self _))
  exact Bool.noConfusion (hun.admissions _ (mem_serveHello hadm hinvited))

/-- A refused hello changes nothing that `view` shows, apart from counting, exactly when it is
    harmless. -/
theorem unmoved_iff {α : Type} {view : DriveRuntime → α} {P : DriveRuntime → Prop}
    (hview : ∀ rt : DriveRuntime, view (rt.greeted env) = view rt ↔ P rt) {err : HelloError}
    (hrefused : .response p (.helloErr err) ∈ (serveHello env e p h).2) :
    Unmoved view e (serveHello env e p h) ↔ Harmless P env e p h := by
  by_cases hadm : Admitted e p h
  swap
  · -- refused at once
    have hrun := serveHello_run env e p h
    generalize serveHello env e p h = t at hrun ⊢
    cases hrun with
    | shut _ =>
      exact ⟨fun _ => ⟨fun hadm' => absurd hadm' hadm, fun hpin => absurd hpin.1 hadm⟩,
        fun _ => unmoved_counted view (List.forall_mem_singleton.mpr rfl) _ _⟩
    | _ => contradiction
  by_cases htaken : ∀ a, h.accept = some a → e.takes p a = false
  swap
  · -- an admission is not taken back
    push Not at htaken
    obtain ⟨a, haccept, ht⟩ := htaken
    replace ht : e.takes p a = true := Bool.not_eq_false _ ▸ ht
    constructor
    · exact fun hun => absurd hun (not_unmoved_of_taken hadm haccept ht)
    · intro hharm
      rw [hharm.proof hadm a haccept] at ht
      cases ht
  have hignored := acceptInvite_ignored env htaken
  have hrun := serveHello_run env e p h
  generalize serveHello env e p h = t at hrun hrefused ⊢
  cases hrun with
  | shut hno => exact absurd hadm hno
  | badToken _ htok hout =>
    rw [hignored]
    constructor
    · intro _
      refine ⟨fun _ => htaken, fun hpin => ?_⟩
      rw [hpin.2.1] at htok
      cases htok
    · intro _
      refine unmoved_counted view (List.forall_mem_append.mpr ⟨fun o ho => ?_, ?_⟩) _ _
      · exact admits_of_plain (hout o ho)
      · exact List.forall_mem_singleton.mpr rfl
  | keyless _ _ _ =>
    -- acknowledged, not refused
    rw [hignored] at hrefused
    simp at hrefused
  | authRequired _ _ _ hwants =>
    rw [hignored] at hwants ⊢
    constructor
    · intro _
      refine ⟨fun _ => htaken, fun hpin => ?_⟩
      rw [hpin.2.2.2] at hwants
      cases hwants
    · exact fun _ => unmoved_counted view (List.forall_mem_singleton.mpr rfl) _ _
  | passed _ _ _ _ _ _ =>
    rw [hignored] at hrefused
    rcases List.mem_append.mp hrefused with hmem | hmem
    · exact Bool.noConfusion (effects_greet _ hmem)
    · simp at hmem
  | mismatch _ htok hkey hwants ht =>
    rw [hignored] at hwants ht ⊢
    subst ht
    rw [unmoved_mismatch_iff]
    · have hreach : ReachesPin env e p h :=
        ⟨hadm, htok, Option.isSome_of_eq_some hkey, hwants⟩
      constructor
      · rintro ⟨hguest, hdrive⟩
        exact ⟨fun _ => htaken, fun _ =>
          ⟨hguest, fun name rt hname hrt => (hview rt).mp (hdrive name rt hname hrt)⟩⟩
      · intro hharm
        obtain ⟨hguest, hdrive⟩ := hharm.pin hreach
        exact ⟨hguest, fun name rt hname hrt => (hview rt).mpr (hdrive name rt hname hrt)⟩
    · refine List.forall_mem_append.mpr ⟨fun o ho => ?_, List.forall_mem_singleton.mpr rfl⟩
      exact admits_of_plain (effects_greet o ho)

/-- **A refused hello changes nothing but counts, exactly when it is harmless**: no join-proof in it
    is taken up, and if it is refused at the pin, its sender was a guest already and its drive shows
    a fresh handshake.  The second equivalence counts the time the drive was last seen as well. -/
theorem refused_hello_changes_nothing_iff (env : Env) (e : Engine) (p : PeerId) (h : Hello)
    {err : HelloError}
    (hrefused : .response p (.helloErr err) ∈ (serveRequest env e p (.hello h)).2) :
    (Unmoved DriveRuntime.shown e (serveRequest env e p (.hello h)) ↔
      Harmless DriveRuntime.Settled env e p h) ∧
    (Unmoved id e (serveRequest env e p (.hello h)) ↔
      Harmless (fun rt => rt.Settled ∧ rt.lastSeen = env.now) env e p h) :=
  ⟨unmoved_iff DriveRuntime.shown_greeted_iff hrefused,
    unmoved_iff DriveRuntime.greeted_eq_self_iff hrefused⟩

end

end Engine

end

/-! ## Mallory says hello -/

section

open Sample

attribute [local instance] Sample.primitives

namespace Engine

/-- Mallory's join-proof in the name of `o`, before it is signed, -/
def plainProof (o : Origin) : InviteAccept where
  nonce := [7]
  name := "mallory"
  peerId := o
  pubkey := beBytes 32 mallory.key
  sig := []

/-- and signed with mallory's key. -/
def proofAs (o : Origin) : InviteAccept :=
  { plainProof o with sig := beBytes 64 (tag mallory.key (plainProof o).messageBytes) }

/-- Alice's engine over an empty store, with a token. -/
def guardedEngine : Engine :=
  { aliceOver (Store.fresh alice.key alice.name []) with token := some "secret" }

/-- Mallory's hello with a proof in bob's name. -/
def impostorHello : Hello := { malloryHello with accept := some (proofAs bob.name) }

/-- **A hello pins mallory's key for bob**, and bob is locked out. -/
theorem hello_pins_for_another :
    ¬ ∀ (env : Env) (e : Engine) (p : PeerId) (h : Hello) (k : Origin), k ≠ p →
      (serveRequest env e p (.hello h)).1.store.knownKeys[k]? = e.store.knownKeys[k]? := by
  intro hall
  have hfacts : (serveRequest calmEnv guardedEngine mallory.name
        (.hello impostorHello)).1.store.knownKeys[bob.name]? = some mallory.key ∧
      guardedEngine.store.knownKeys[bob.name]? = none := by
    decide +kernel
  have hsame := hall calmEnv guardedEngine mallory.name impostorHello bob.name (by decide)
  rw [hfacts.1, hfacts.2] at hsame
  cases hsame

/-- Mallory guesses the token. -/
def guessHello : Hello := { malloryHello with token := some "guess" }

/-- Mallory guesses the token, with a join-proof nobody has invited. -/
def joinHello : Hello := { guessHello with accept := some (proofAs mallory.name) }

/-- Who is refused, and why. -/
def refusal? : Effect → Option (PeerId × HelloError)
  | .response p (.helloErr err) => some (p, err)
  | _ => none

theorem refusal_mem {l : List Effect} {p : PeerId} {err : HelloError}
    (h : (p, err) ∈ l.filterMap refusal?) : .response p (.helloErr err) ∈ l := by
  obtain ⟨o, ho, heq⟩ := List.mem_filterMap.mp h
  unfold refusal? at heq
  split at heq
  · cases heq
    exact ho
  · cases heq

/-- A wrong token is counted, and nothing else happens. -/
theorem refused_hello_changes_nothing_iff_guess :
    Unmoved DriveRuntime.shown guardedEngine
      (serveRequest calmEnv guardedEngine mallory.name (.hello guessHello)) := by
  have hrefused : .response mallory.name (.helloErr .badToken) ∈
      (serveRequest calmEnv guardedEngine mallory.name (.hello guessHello)).2 :=
    List.mem_singleton_self _
  refine (refused_hello_changes_nothing_iff calmEnv guardedEngine mallory.name guessHello
    hrefused).1.mpr ⟨fun _ a ha => ?_, fun hreach => ?_⟩
  · cases ha
  · have hno : guardedEngine.tokenOk guessHello.token = false := by decide
    rw [hreach.2.1] at hno
    cases hno

/-- **A refused hello adds a drive**: the join-proof is taken up before the token is looked at. -/
theorem refused_hello_adds_drive :
    ¬ ∀ (env : Env) (e : Engine) (p : PeerId) (h : Hello) (err : HelloError),
      .response p (.helloErr err) ∈ (serveRequest env e p (.hello h)).2 →
        Unmoved DriveRuntime.shown e (serveRequest env e p (.hello h)) := by
  intro hall
  have hfacts : (mallory.name, HelloError.badToken) ∈
        (serveRequest calmEnv guardedEngine mallory.name (.hello joinHello)).2.filterMap refusal? ∧
      ((serveRequest calmEnv guardedEngine mallory.name
        (.hello joinHello)).1.drives["mallory (mallory)"]?).isSome = true := by
    decide +kernel
  have hdrive := (hall calmEnv guardedEngine mallory.name joinHello .badToken
    (refusal_mem hfacts.1)).drives "mallory (mallory)"
  have hnone : guardedEngine.drives["mallory (mallory)"]? = none := Std.ExtTreeMap.getElem?_empty
  rw [hnone, Option.map_none, Option.map_eq_none_iff] at hdrive
  rw [hdrive] at hfacts
  exact Bool.noConfusion hfacts.2

end Engine

end

end PhReactor
