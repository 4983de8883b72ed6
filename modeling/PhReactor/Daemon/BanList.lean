/-
  The ban list (`load_bans`, `save_bans`, and the commands `Ban` and `Unban` in `src/daemon.rs`).

  The list is in four places: the daemon's own set, the file `bans.json`, the engine's set, and the
  commands on their way to the engine.  The daemon changes its set, saves it, and tells the engine
  if it has been saved.  The engine bans on its own as well and reports it; the report may be heard
  much later.  At a start both sets come from the file.

  1. `Held` says where a banned peer must be for the ban to last: in the daemon's set, in the file,
     and in what the engine's set will be once it has taken its commands (`settle`).

  2. A ban that is answered with success is held (`held_of_banned`), and every step keeps it but for
     an `Unban` of the peer and a write that fails and spoils the file (`held_step`).

  3. So it holds through every run, restarts included (`acknowledged_ban_lasts`).
-/
import PhReactor.Daemon.Drives
import PhReactor.Sync.BansTold

set_option linter.unusedSectionVars false

namespace PhReactor

open Lib

/-! ## The file -/

/-- What is in `bans.json`. -/
inductive BansFile where
  | missing
  /-- Not a list of texts. -/
  | unreadable
  | readable (peers : List String)
  deriving DecidableEq

/-- How a write of it ends: whole, or with an error, whatever the file then holds. -/
inductive BansWrite where
  | whole
  | failed (left : BansFile) (msg : String)

/-- `load_bans`. -/
def BansFile.load : BansFile → Std.ExtTreeSet String
  | .readable peers => .ofList peers
  | _ => ∅

/-- `save_bans`, and what the file holds then.  The list is sorted. -/
def saveBans (bans : Std.ExtTreeSet String) : BansWrite → BansFile × Except String Unit
  | .whole => (.readable bans.toList, .ok ())
  | .failed left msg => (left, .error msg)

/-- **What is saved is loaded.** -/
theorem mem_load_saveBans {bans : Std.ExtTreeSet String} {p : String} :
    p ∈ (saveBans bans .whole).1.load ↔ p ∈ bans := by
  show p ∈ Std.ExtTreeSet.ofList bans.toList ↔ _
  rw [Std.ExtTreeSet.mem_ofList, List.contains_iff_mem, Std.ExtTreeSet.mem_toList]

/-! ## The daemon and its engine -/

/-- `PeerId::from_str`.  A peer id is its base58 text, and no other text is read as it. -/
structure PeerIds where
  fromStr : String → Except String PeerId
  canonical : ∀ s p, fromStr s = .ok p → p = s

structure BanHost where
  /-- The daemon's set, -/
  bans : Std.ExtTreeSet String
  /-- the file, -/
  file : BansFile
  /-- the engine, -/
  engine : Engine
  /-- the commands it has not taken yet, -/
  orders : List EngineCommand
  /-- and the events that the daemon has not heard yet. -/
  events : List EngineEvent

/-- A command about the ban list. -/
def EngineCommand.aboutBans : EngineCommand → Bool
  | .ban _ => true
  | .unban _ => true
  | _ => false

/-- What `Engine::new` is given beside the ban list. -/
structure EngineSetup where
  store : Inner
  peerId : PeerId
  pubName : String
  token : Option String
  blobs : Std.ExtTreeMap Hash32 (List UInt8)

inductive BanInput where
  /-- `Command::Ban`. -/
  | ban (peer : String) (io : BansWrite)
  /-- `Command::Unban`. -/
  | unban (peer : String) (io : BansWrite)
  /-- The daemon tells the engine something else. -/
  | send (c : EngineCommand) (h : c.aboutBans = false)
  /-- The engine takes its next command, -/
  | take (env : Env)
  /-- or meets something else. -/
  | engine (env : Env) (i : Engine.Input) (h : i.isCmd = false)
  /-- The daemon hears the engine's next event. -/
  | hear (io : BansWrite)
  /-- The daemon is stopped, or killed, and started again. -/
  | restart (setup : EngineSetup)

section

variable [Primitives] (P : PeerIds)

namespace BanHost

/-- Send to the engine, which is gone once it has been shut down. -/
def tell (s : BanHost) (c : EngineCommand) : BanHost × Except String Unit :=
  if s.engine.running then ({ s with orders := s.orders ++ [c] }, .ok ())
  else (s, .error "channel closed")

/-- Save the list, and tell the engine if it has been saved. -/
def saveAndTell (s : BanHost) (bans : Std.ExtTreeSet String) (io : BansWrite) (c : EngineCommand) :
    BanHost × Except String Unit :=
  match saveBans bans io with
  | (file, .error e) =>
    ({ s with bans, file }, .error ("saving the ban list failed: " ++ e))
  | (file, .ok ()) => { s with bans, file }.tell c

def ban (s : BanHost) (peer : String) (io : BansWrite) : BanHost × Except String Unit :=
  match P.fromStr peer with
  | .error e => (s, .error ("'" ++ peer ++ "' is not a valid peer id: " ++ e))
  | .ok pid => s.saveAndTell (s.bans.insert peer) io (.ban pid)

def unban (s : BanHost) (peer : String) (io : BansWrite) : BanHost × Except String Unit :=
  match P.fromStr peer with
  | .error e => (s, .error ("'" ++ peer ++ "' is not a valid peer id: " ++ e))
  | .ok pid => s.saveAndTell (s.bans.erase peer) io (.unban pid)

/-- A turn of the engine, and what it reports. -/
def turn (s : BanHost) (env : Env) (i : Engine.Input) : BanHost :=
  let after := s.engine.step (env, i)
  { s with
    engine := after.1
    events := s.events ++ after.2.filterMap fun
      | .event ev => some ev
      | _ => none }

/-- `on_engine_event`, as far as bans are concerned. -/
def onEvent (s : BanHost) (io : BansWrite) : EngineEvent → BanHost
  | .peerAutoBanned peer =>
    if s.bans.contains peer then s
    else { s with bans := s.bans.insert peer, file := (saveBans (s.bans.insert peer) io).1 }
  | _ => s

/-- A start: both sets are read from the file. -/
def start (file : BansFile) (setup : EngineSetup) : BanHost where
  bans := file.load
  file
  engine := Engine.new setup.store setup.peerId setup.pubName setup.token
    (.ofList (file.load.toList.filterMap fun s => (P.fromStr s).toOption)) setup.blobs
  orders := []
  events := []

/-- Commands of the operator are answered. -/
def machine : Machine BanHost BanInput (Except String Unit) where
  step s
    | .ban peer io => ((s.ban P peer io).1, [(s.ban P peer io).2])
    | .unban peer io => ((s.unban P peer io).1, [(s.unban P peer io).2])
    | .send c _ => ((s.tell c).1, [])
    | .take env =>
      match s.orders with
      | [] => (s, [])
      | c :: rest =>
        if s.engine.running then ({ s with orders := rest }.turn env (.cmd c), []) else (s, [])
    | .engine env i _ => (s.turn env i, [])
    | .hear io =>
      match s.events with
      | [] => (s, [])
      | ev :: rest => ({ s with events := rest }.onEvent io ev, [])
    | .restart setup => (start P s.file setup, [])

/-! ## Where a ban is held -/

/-- Is the peer on the engine's list once these commands are taken. -/
def settle (p : PeerId) : List EngineCommand → Bool → Bool
  | [], b => b
  | .ban q :: rest, b => settle p rest (q == p || b)
  | .unban q :: rest, b => settle p rest (q != p && b)
  | _ :: rest, b => settle p rest b

theorem settle_append (p : PeerId) (l l' : List EngineCommand) (b : Bool) :
    settle p (l ++ l') b = settle p l' (settle p l b) := by
  induction l generalizing b with
  | nil => rfl
  | cons c rest ih => cases c <;> exact ih _

/-- Who is on the list already stays on it where one who is not would get on it. -/
theorem settle_mono (p : PeerId) (l : List EngineCommand) {b : Bool} (h : settle p l b = true) :
    settle p l true = true := by
  induction l generalizing b with
  | nil => rfl
  | cons c rest ih =>
    cases c with
    | ban q =>
      unfold settle at h ⊢
      rw [Bool.or_true]
      exact ih h
    | unban q =>
      unfold settle at h ⊢
      cases hq : q != p with
      | true => exact ih h
      | false =>
        rw [hq] at h
        exact h
    | _ => exact ih h

/-- The peer is in the daemon's set, in the file, and on the engine's list once its commands are
    taken. -/
structure Held (p : String) (s : BanHost) : Prop where
  listed : p ∈ s.bans
  saved : p ∈ s.file.load
  enforced : settle p s.orders (s.engine.banned.contains p) = true

/-- The input is no `Unban` of the peer, and no write of it spoils the file. -/
def Spares (p : String) (s : BanHost) : BanInput → Prop
  | .ban _ (.failed left _) => left = s.file
  | .unban peer io => peer ≠ p ∧ ∀ left msg, io = .failed left msg → left = s.file
  | .hear (.failed left _) => left = s.file
  | _ => True

variable {P} {p : String} {s : BanHost}

/-! ### What the engine does -/

/-- A turn that is not about bans keeps whom the engine has banned. -/
theorem banned_step {e : Engine} {env : Env} {i : Engine.Input} (hban : ∀ q, i ≠ .cmd (.ban q))
    (hunban : ∀ q, i ≠ .cmd (.unban q)) (h : p ∈ e.banned) : p ∈ (e.step (env, i)).1.banned := by
  unfold Engine.step
  split
  · exact (Engine.tells_turn env hban hunban p).mpr (Or.inl h)
  · exact h

/-- **The engine's list after it has taken a command.** -/
theorem settle_take (p : PeerId) (env : Env) (e : Engine) (hrunning : e.running = true)
    (c : EngineCommand) (rest : List EngineCommand)
    (h : settle p (c :: rest) (e.banned.contains p) = true) :
    settle p rest ((e.step (env, .cmd c)).1.banned.contains p) = true := by
  have hturn : e.step (env, .cmd c) = e.turn env (.cmd c) := by
    unfold Engine.step
    rw [hrunning]
    rfl
  have hother : c.aboutBans = false →
      settle p rest (e.banned.contains p) = true →
      settle p rest ((e.step (env, .cmd c)).1.banned.contains p) = true := by
    intro hc hrest
    cases hp : e.banned.contains p with
    | true =>
      have hkept : p ∈ (e.step (env, .cmd c)).1.banned := by
        refine banned_step ?_ ?_ (Std.ExtTreeSet.contains_iff_mem.mp hp)
        · intro q heq
          obtain rfl := Engine.Input.cmd.inj heq
          cases hc
        · intro q heq
          obtain rfl := Engine.Input.cmd.inj heq
          cases hc
      rw [Std.ExtTreeSet.contains_iff_mem.mpr hkept]
      exact settle_mono p rest hrest
    | false =>
      rw [hp] at hrest
      cases hnow : (e.step (env, .cmd c)).1.banned.contains p with
      | true => exact settle_mono p rest hrest
      | false => exact hrest
  cases c with
  | ban q =>
    rw [hturn]
    show settle p rest ((e.banned.insert q).contains p) = true
    rw [Std.ExtTreeSet.contains_insert]
    have hcmp : (compare q p == .eq) = (q == p) := by
      rw [Bool.eq_iff_iff, beq_iff_eq, beq_iff_eq, Std.compare_eq_iff_eq]
    rw [hcmp]
    exact h
  | unban q =>
    rw [hturn]
    show settle p rest ((e.banned.erase q).contains p) = true
    rw [Std.ExtTreeSet.contains_erase]
    have hcmp : (compare q p != .eq) = (q != p) := by
      rw [Bool.eq_iff_iff, bne_iff_ne, bne_iff_ne, ne_eq, ne_eq, Std.compare_eq_iff_eq]
    rw [hcmp]
    exact h
  | _ => exact hother rfl h

/-- A turn of the engine that is no command. -/
theorem Held.turn (h : Held p s) (env : Env) {i : Engine.Input} (hi : i.isCmd = false) :
    Held p (s.turn env i) := by
  refine ⟨h.listed, h.saved, ?_⟩
  show settle p s.orders ((s.engine.step (env, i)).1.banned.contains p) = true
  cases hnow : (s.engine.step (env, i)).1.banned.contains p with
  | true => exact settle_mono p s.orders h.enforced
  | false =>
    cases hp : s.engine.banned.contains p with
    | false =>
      rw [← hp]
      exact h.enforced
    | true =>
      have hkept : p ∈ (s.engine.step (env, i)).1.banned := by
        refine banned_step ?_ ?_ (Std.ExtTreeSet.contains_iff_mem.mp hp)
        · intro q heq
          rw [heq] at hi
          cases hi
        · intro q heq
          rw [heq] at hi
          cases hi
      rw [Std.ExtTreeSet.contains_iff_mem.mpr hkept] at hnow
      cases hnow

/-! ### What the daemon does -/

/-- A command that does not unban the peer is sent. -/
theorem Held.tell (h : Held p s) {c : EngineCommand} (hc : c ≠ .unban p) :
    Held p (s.tell c).1 := by
  unfold BanHost.tell
  split
  · refine ⟨h.listed, h.saved, ?_⟩
    show settle p (s.orders ++ [c]) _ = true
    rw [settle_append, h.enforced]
    cases c with
    | ban q => exact Bool.or_true _
    | unban q =>
      have hne : q ≠ p := fun heq => hc (congrArg EngineCommand.unban heq)
      exact Bool.and_true _ |>.trans (bne_iff_ne.mpr hne)
    | _ => rfl
  · exact h

/-- A list with the peer is saved, and the engine is told. -/
theorem Held.saveAndTell (h : Held p s) {bans : Std.ExtTreeSet String} (hp : p ∈ bans)
    {io : BansWrite} (hio : ∀ left msg, io = .failed left msg → left = s.file)
    {c : EngineCommand} (hc : c ≠ .unban p) : Held p (s.saveAndTell bans io c).1 := by
  unfold BanHost.saveAndTell
  cases io with
  | whole =>
    have hsaved : Held p { s with bans := bans, file := (saveBans bans .whole).1 } :=
      ⟨hp, mem_load_saveBans.mpr hp, h.enforced⟩
    exact hsaved.tell hc
  | failed left msg =>
    obtain rfl := hio left msg rfl
    exact ⟨hp, h.saved, h.enforced⟩

theorem Held.onEvent (h : Held p s) {io : BansWrite}
    (hio : ∀ left msg, io = .failed left msg → left = s.file) (ev : EngineEvent) :
    Held p (s.onEvent io ev) := by
  unfold BanHost.onEvent
  split
  · next peer =>
    split
    · exact h
    · have hp : p ∈ s.bans.insert peer := Std.ExtTreeSet.mem_insert.mpr (Or.inr h.listed)
      refine ⟨hp, ?_, h.enforced⟩
      cases io with
      | whole => exact mem_load_saveBans.mpr hp
      | failed left msg =>
        obtain rfl := hio left msg rfl
        exact h.saved
  · exact h

/-! ### Starts -/

/-- Whom the file lists, the engine refuses from the start. -/
theorem held_start {file : BansFile} (hsaved : p ∈ file.load) (hvalid : (P.fromStr p).isOk = true)
    (setup : EngineSetup) : Held p (start P file setup) := by
  refine ⟨hsaved, hsaved, ?_⟩
  show Std.ExtTreeSet.contains (.ofList _) p = true
  rw [Std.ExtTreeSet.contains_ofList, List.contains_iff_mem]
  refine List.mem_filterMap.mpr ⟨p, Std.ExtTreeSet.mem_toList.mpr hsaved, ?_⟩
  cases hparse : P.fromStr p with
  | error e =>
    rw [hparse] at hvalid
    cases hvalid
  | ok pid =>
    rw [P.canonical p pid hparse]
    rfl

/-! ### Every step -/

/-- **A step that spares the peer keeps its ban.** -/
theorem held_step (hvalid : (P.fromStr p).isOk = true) (h : Held p s) {x : BanInput}
    (hx : Spares p s x) : Held p ((machine P).step s x).1 := by
  cases x with
  | ban peer io =>
    show Held p (s.ban P peer io).1
    unfold BanHost.ban
    split
    · exact h
    · refine h.saveAndTell (Std.ExtTreeSet.mem_insert.mpr (Or.inr h.listed)) ?_
        (fun heq => by cases heq)
      rintro left msg rfl
      exact hx
  | unban peer io =>
    obtain ⟨hne, hio⟩ := hx
    show Held p (s.unban P peer io).1
    unfold BanHost.unban
    cases hparse : P.fromStr peer with
    | error e => exact h
    | ok pid =>
      have hpid := P.canonical peer pid hparse
      refine h.saveAndTell (Std.ExtTreeSet.mem_erase.mpr ⟨?_, h.listed⟩) hio ?_
      · rw [ne_eq, Std.compare_eq_iff_eq]
        exact hne
      · rintro heq
        obtain rfl := EngineCommand.unban.inj heq
        exact hne hpid.symm
  | send c hc =>
    refine h.tell ?_
    rintro rfl
    cases hc
  | take env =>
    unfold machine
    dsimp only
    cases horders : s.orders with
    | nil => exact h
    | cons c rest =>
      dsimp only
      split
      · next hrunning =>
        refine ⟨h.listed, h.saved, ?_⟩
        have henforced := h.enforced
        rw [horders] at henforced
        exact settle_take p env s.engine hrunning c rest henforced
      · exact h
  | engine env i hi => exact h.turn env hi
  | hear io =>
    unfold machine
    dsimp only
    cases s.events with
    | nil => exact h
    | cons ev rest =>
      have hrest : Held p { s with events := rest } := ⟨h.listed, h.saved, h.enforced⟩
      refine hrest.onEvent ?_ ev
      rintro left msg rfl
      exact hx
  | restart setup => exact held_start h.saved hvalid setup

/-- **A ban that is answered with success is held.** -/
theorem held_of_banned {io : BansWrite} (hok : (s.ban P p io).2 = .ok ()) :
    (P.fromStr p).isOk = true ∧ Held p (s.ban P p io).1 := by
  unfold BanHost.ban at hok ⊢
  cases hparse : P.fromStr p with
  | error e =>
    rw [hparse] at hok
    cases hok
  | ok pid =>
    rw [hparse] at hok
    obtain rfl := P.canonical p pid hparse
    refine ⟨rfl, ?_⟩
    dsimp only at hok ⊢
    unfold BanHost.saveAndTell at hok ⊢
    cases io with
    | failed left msg => cases hok
    | whole =>
      dsimp only [saveBans] at hok ⊢
      unfold BanHost.tell at hok ⊢
      split at hok
      · next hrunning =>
        rw [if_pos hrunning]
        refine ⟨Std.ExtTreeSet.mem_insert_self, mem_load_saveBans.mpr
          Std.ExtTreeSet.mem_insert_self, ?_⟩
        show settle pid (s.orders ++ [.ban pid]) _ = true
        rw [settle_append]
        show (pid == pid || _) = true
        rw [beq_self_eq_true, Bool.true_or]
      · cases hok

/-- Every hello of the peer is refused, and changes nothing. -/
def Refuses (e : Engine) (p : PeerId) : Prop :=
  ∀ env h, Engine.serveHello env e p h = (e, [.response p (.helloErr .banned)])

/-- **A ban that was acknowledged lasts.**  Whatever the daemon, the engine and its peers do, in any
    order and through any number of starts: as long as nobody unbans the peer, and no write that
    fails spoils the file, the peer stays in the daemon's set and in the file; the engine refuses
    its hellos as soon as it has taken its commands, and after a start it refuses them at once. -/
theorem acknowledged_ban_lasts (P : PeerIds) (s : BanHost) (p : String) (io : BansWrite)
    (hok : ((machine P).step s (.ban p io)).2 = [.ok ()]) (ins : List BanInput)
    (hspares : ∀ past x rest, ins = past ++ x :: rest →
      Spares p ((machine P).run s (.ban p io :: past)) x) :
    p ∈ ((machine P).run s (.ban p io :: ins)).bans ∧
      p ∈ ((machine P).run s (.ban p io :: ins)).file.load ∧
      (((machine P).run s (.ban p io :: ins)).orders = [] →
        Refuses ((machine P).run s (.ban p io :: ins)).engine p) ∧
      ∀ setup, Refuses (start P ((machine P).run s (.ban p io :: ins)).file setup).engine p := by
  obtain ⟨hvalid, hbanned⟩ := held_of_banned (List.singleton_inj.mp hok)
  have hheld : Held p ((machine P).run ((machine P).step s (.ban p io)).1 ins) :=
    (machine P).cuts_invariant hbanned (fun t x ht hx => held_step hvalid ht hx) hspares ins []
      (List.append_nil ins).symm
  change Held p ((machine P).run s (.ban p io :: ins)) at hheld
  have hrefused : ∀ {e : Engine}, e.banned.contains p = true → Refuses e p :=
    fun he _ _ => if_pos he
  refine ⟨hheld.listed, hheld.saved, fun hdone => hrefused ?_, fun setup => hrefused ?_⟩
  · have henforced := hheld.enforced
    rw [hdone] at henforced
    exact henforced
  · exact (held_start hheld.saved hvalid setup).enforced

end BanHost

end

/-! ## A ban, a start, and a hello -/

section

open Sample BanHost

attribute [local instance] Sample.primitives

/-- A peer id as they are. -/
def strangerId : String := "12D3KooWD3eckifWpRn9wQpMG9R9hX3sD158z7EqHWmweQAJU5SA"

/-- The texts that are read here: that one. -/
def strangers : PeerIds where
  fromStr := fun s => if s = strangerId then .ok s else .error "invalid"
  canonical := by
    intro s p h
    split at h
    · exact (Except.ok.inj h).symm
    · cases h

def plainSetup : EngineSetup := ⟨Store.fresh alice.key alice.name [], alice.name, "alice", none, ∅⟩

/-- The stranger is banned, the engine takes the command, and the daemon starts again. -/
theorem acknowledged_ban_lasts_stranger :
    Refuses ((machine strangers).run (.start strangers .missing plainSetup)
      [.ban strangerId .whole, .take Engine.calmEnv, .restart plainSetup]).engine strangerId := by
  have hlasts := acknowledged_ban_lasts strangers (.start strangers .missing plainSetup)
    strangerId .whole (by decide +kernel) [.take Engine.calmEnv, .restart plainSetup] ?_
  · exact hlasts.2.2.1 rfl
  · rw [Lib.forall_cuts_cons, Lib.forall_cuts_cons]
    exact ⟨trivial, trivial, Lib.forall_cuts_nil⟩

end

end PhReactor
