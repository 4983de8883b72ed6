/-
  The drives of the daemon and those of its engine (`src/daemon.rs`, `src/p2p/mod.rs`).

  A drive is kept three times: in the configuration, by its name in the daemon's list of what the
  engine knows, and with its runtime in the engine.  The daemon keeps the three in step by ORDERS,
  which wait in an unbounded channel until the engine takes them.

  1. A command changes the memory, saves the configuration, and then orders.  A save adopts a newer
     file first; the drives stay, and `syncEngine` orders what their names say.  Between the
     commands an edit of the file replaces the drives, and only `syncEngine` tells the engine.

  2. What an order makes of the drive of a name is `EngineCommand.on`, and `spec_handleCmd` says so
     of the engine.  So the drive a name will have once the queue is through is `pending`.

  3. The engine adds drives of its own, for joiners, and reports them.  Until the daemon hears of
     one, the drive is `awaited`.

  4. `pending_syncEngine` is what adoption makes of every name at once.

  What `libp2p` makes of multiaddrs and peer ids is `Addresses`.  The other commands of the daemon
  order nothing about drives.
-/
import PhReactor.Daemon.Config
import PhReactor.Daemon.Invites
import PhReactor.Lib.Orders
import PhReactor.Sync.DriveTurns
import PhReactor.Sync.Signatures

set_option linter.unusedSectionVars false

namespace PhReactor

/-! ## Addresses -/

/-- What the daemon takes from `libp2p`. -/
structure Addresses where
  /-- `Multiaddr::from_str`: what a text says, -/
  parse : String → Except String ParsedAddr
  /-- its components, -/
  components : String → Multiaddr
  /-- and `Multiaddr::to_string`. -/
  text : Multiaddr → String
  /-- `PeerId::from_str`. -/
  peerId : String → Except String PeerId
  /-- A text that is parsed is printed as its canonical text. -/
  parsed : ∀ s p, parse s = .ok p → text (components s) = p.text
  /-- What is printed can be parsed, and is canonical. -/
  printed : ∀ a, ∃ p, parse (text a) = .ok p ∧ p.text = text a

/-- What a drive is, whoever keeps it: where it is, the token it asks for, and whether it rests. -/
structure DriveSpec where
  addr : String
  tokenEnv : Option String
  paused : Bool
  deriving DecidableEq

def DriveSpec.setPaused (paused : Bool) (spec : DriveSpec) : DriveSpec := { spec with paused }

section

variable (A : Addresses)

/-- The canonical text of an address. -/
def Addresses.canon (s : String) : String :=
  match A.parse s with
  | .ok p => p.text
  | .error _ => s

def DriveConfig.spec (d : DriveConfig) : DriveSpec := ⟨A.canon d.addr, d.tokenEnv, d.paused⟩

def Drive.spec (d : Drive) : DriveSpec := ⟨A.text d.addr, d.tokenEnv, d.paused⟩

/-- The drive of a configured one, unless its address is bad. -/
def DriveConfig.drive? (d : DriveConfig) : Option Drive :=
  match A.parse d.addr with
  | .ok _ => some {
      name := d.name
      addr := A.components d.addr
      tokenEnv := d.tokenEnv
      paused := d.paused
      availableOffline := d.availableOffline }
  | .error _ => none

/-- The configured drive that says the same. -/
def Drive.config (d : Drive) : DriveConfig where
  name := d.name
  addr := A.text d.addr
  tokenEnv := d.tokenEnv
  paused := d.paused
  availableOffline := d.availableOffline

end

/-! ## The daemon -/

/-- A command on its way to the engine, and for a pause, a resume or a re-sync the drive that the
    user has named. -/
structure DriveOrder where
  command : EngineCommand
  asked : Option String

/-- A command that no user asked for by name. -/
def DriveOrder.plain (command : EngineCommand) : DriveOrder := ⟨command, none⟩

/-- The part of the daemon that its drives are about, with the engine, and beside them the pauses,
    resumes and re-syncs it has accepted, and those the engine has taken. -/
structure DriveCtx where
  cfg : ConfigCtx
  /-- Drives currently known to the engine, by name. -/
  engineDrives : List String
  /-- The engine's command channel. -/
  queue : List DriveOrder
  engine : Engine
  /-- The `DriveJoined` events that the daemon has not seen yet. -/
  joins : List (String × Multiaddr)
  accepted : List String
  /-- The drive that was named, and whether the engine looked up that one and found it. -/
  delivered : List (String × Bool)

namespace DriveCtx

/-- The configured drives. -/
def drives (s : DriveCtx) : List DriveConfig := s.cfg.config.drives

def withConfig (s : DriveCtx) (config : ReactorConfig) : DriveCtx :=
  { s with cfg := { s.cfg with config } }

def withDrives (s : DriveCtx) (drives : List DriveConfig) : DriveCtx :=
  s.withConfig { s.cfg.config with drives }

/-- Send to the engine. -/
def send (s : DriveCtx) (commands : List EngineCommand) : DriveCtx :=
  { s with queue := s.queue ++ commands.map DriveOrder.plain }

/-- Accept what a user asks of a drive. -/
def sendFor (s : DriveCtx) (name : String) (command : EngineCommand) : DriveCtx :=
  { s with queue := s.queue ++ [⟨command, some name⟩], accepted := s.accepted ++ [name] }

/-- The drive that a user means by a name: the one of exactly that name, or else the first of that
    name in any letter case. -/
def named (s : DriveCtx) (name : String) : Option String :=
  if s.drives.any fun d => d.name == name then some name
  else (s.drives.find? fun d => eqIgnoreAsciiCase d.name name).map DriveConfig.name

/-! ### Adoption -/

/-- The drives the engine does not know yet, each name once. -/
def newDrives (known : List String) : List Drive → List Drive
  | [] => []
  | d :: rest =>
    if known.contains d.name then newDrives known rest
    else d :: newDrives (known ++ [d.name]) rest

section

variable (A : Addresses)

/-- The end of `adopt_external`: add what is new, remove what is stale, and set every pause.  Names
    are all that is compared. -/
def syncEngine (s : DriveCtx) : DriveCtx :=
  let wanted := s.drives.filterMap (DriveConfig.drive? A)
  let added := newDrives s.engineDrives wanted
  let known := s.engineDrives ++ added.map Drive.name
  let isWanted := fun n => (wanted.map Drive.name).contains n
  let s := { s with engineDrives := known.filter isWanted }
  s.send (added.map .addDrive ++ (known.filter fun n => !isWanted n).map .removeDrive ++
    s.drives.map fun d => .setPaused d.name d.paused)

/-- `adopt_external`.  It gets to the drives where the file is adopted. -/
def adoptExternal (io : ConfigIo) (s : DriveCtx) (preserveDrives : Bool) : DriveCtx :=
  let adopted := { s with cfg := PhReactor.adoptExternal A.parse io s.cfg preserveDrives }
  if (s.cfg.seen A.parse).isSome then adopted.syncEngine A else adopted

/-- `persist_config`. -/
def persistConfig (io : ConfigIo) (s : DriveCtx) : DriveCtx × Except ConfigError Unit :=
  let s := s.adoptExternal A io true
  if io.saved then
    ({ s with cfg := { s.cfg with
        file := some ⟨io.now, .config s.cfg.config⟩, lastSaveMtime := io.now } }, .ok ())
  else (s, .error .io)

/-! ### Commands -/

/-- Keep a drive in the configuration and in the list. -/
def addConfigured (s : DriveCtx) (d : Drive) : DriveCtx :=
  { s.withDrives (s.drives ++ [d.config A]) with engineDrives := s.engineDrives ++ [d.name] }

/-- Keep a drive, save, and only then tell the engine. -/
def register (io : ConfigIo) (s : DriveCtx) (d : Drive) (command : EngineCommand) :
    DriveCtx × Except ConfigError Unit :=
  match (s.addConfigured A d).persistConfig A io with
  | (s, .error e) => (s, .error e)
  | (s, .ok ()) => (s.send [command], .ok ())

def alreadyConfigured (name : String) : ConfigError :=
  .invalid ("a drive named '" ++ name ++ "' is already configured")

/-- The drive that an `AddDrive` is about, if it can be added. -/
def newDrive (s : DriveCtx) (name addr : String) (tokenEnv : Option String) (offline : Bool) :
    Except ConfigError Drive :=
  let addr := String.ofList (Update.trim addr.toList)
  match A.parse addr with
  | .error _ => .error (.invalid ("'" ++ addr ++ "' is not a valid multiaddr"))
  | .ok parsed =>
    let name :=
      if isBlank name then defaultDriveName parsed else String.ofList (Update.trim name.toList)
    if s.drives.any fun d => eqIgnoreAsciiCase d.name name then .error (alreadyConfigured name)
    else .ok ⟨name, A.components addr, tokenEnv, false, offline⟩

def addDrive (io : ConfigIo) (s : DriveCtx) (name addr : String) (tokenEnv : Option String)
    (offline : Bool) : DriveCtx × Except ConfigError Unit :=
  match s.newDrive A name addr tokenEnv offline with
  | .error e => (s, .error e)
  | .ok d => s.register A io d (.addDrive d)

/-- The drive at that place goes, and from the engine every drive of the name. -/
def takeOut (s : DriveCtx) (name : String) (idx : ℕ) : DriveCtx :=
  let gone := s.engineDrives.filter fun n => eqIgnoreAsciiCase n name
  let s := { s.withDrives (s.drives.eraseIdx idx) with
    engineDrives := s.engineDrives.filter fun n => !eqIgnoreAsciiCase n name }
  s.send (gone.map .removeDrive)

def removeDrive (io : ConfigIo) (s : DriveCtx) (name : String) :
    DriveCtx × Except ConfigError Unit :=
  match s.drives.findIdx? fun d => eqIgnoreAsciiCase d.name name with
  | none => (s, .error (notConfigured name))
  | some idx => (s.takeOut name idx).persistConfig A io

/-- `PauseDrive` and `ResumeDrive`.  The engine is sent the name as it was typed. -/
def pauseDrive (io : ConfigIo) (s : DriveCtx) (name : String) (paused : Bool) :
    DriveCtx × Except ConfigError Unit :=
  match setPaused name paused s.drives with
  | none => (s, .error (notConfigured name))
  | some drives =>
    match (s.withDrives drives).persistConfig A io with
    | (s, .error e) => (s, .error e)
    | (s, .ok ()) => (s.sendFor ((s.named name).getD name) (.setPaused name paused), .ok ())

/-- `ResyncDrive`, with the name as it was typed. -/
def resyncDrive (s : DriveCtx) (name : String) : DriveCtx × Except ConfigError Unit :=
  if s.drives.any fun d => eqIgnoreAsciiCase d.name name then
    (s.sendFor ((s.named name).getD name) (.resync name), .ok ())
  else (s, .error (notConfigured name))

/-- The commands that change the configuration. -/
def executeCommand (io : ConfigIo) (s : DriveCtx) :
    ConfigCommand → DriveCtx × Except ConfigError Unit
  | .setConfig key value =>
    match s.cfg.config.set A.parse key value with
    | (config, .error e) => (s.withConfig config, .error e)
    | (config, .ok ()) => (s.withConfig config).persistConfig A io
  | .addDrive name addr tokenEnv offline => s.addDrive A io name addr tokenEnv offline
  | .removeDrive name => s.removeDrive A io name
  | .pauseDrive name => s.pauseDrive A io name true
  | .resumeDrive name => s.pauseDrive A io name false

/-! ### Joins -/

/-- The drive of an inviter, if it can be added. -/
def inviterDrive (s : DriveCtx) (t : InviteToken) : Except ConfigError Drive :=
  match A.peerId t.peerId with
  | .error e => .error (.invalid ("bad inviter peer id: " ++ e))
  | .ok peer =>
    match A.parse t.addr with
    | .error e => .error (.invalid e)
    | .ok _ =>
      if s.drives.any fun d => eqIgnoreAsciiCase d.name t.name then
        .error (alreadyConfigured t.name)
      else .ok ⟨t.name, A.components t.addr ++ [.p2p peer], none, false, true⟩

variable [Primitives]

/-- `Join`, with what its invite decodes to.  The inviter's key is pinned first. -/
def join (io : ConfigIo) (s : DriveCtx) (invite : Except String InviteToken) :
    DriveCtx × Except ConfigError Unit :=
  match invite with
  | .error e => (s, .error (.invalid e))
  | .ok t =>
    match Store.registerPeerKey s.engine.store t.peerId t.key with
    | (_, .error e) => (s, .error (.invalid e))
    | (store, .ok ()) =>
      let accept := InviteAccept.make t.nonce s.cfg.config.instance_.name s.engine.peerId store.key
      let s := { s with engine := { s.engine with store } }
      match s.inviterDrive A t with
      | .error e => (s, .error e)
      | .ok d => s.register A io d (.join d accept)

/-- `DriveJoined`: a drive that the engine has already. -/
def onDriveJoined (io : ConfigIo) (s : DriveCtx) (name : String) (addr : Multiaddr) : DriveCtx :=
  if s.drives.any fun d => d.name == name then s
  else ((s.addConfigured A ⟨name, addr, none, false, true⟩).persistConfig A io).1

end

end DriveCtx

/-! ## Turns -/

/-- What can happen, in any order: the daemon executes a command or hears of a join, its clock
    ticks, another process writes the file, the engine takes an order, or its loop turns. -/
inductive DriveTurn where
  | command (io : ConfigIo) (cmd : ConfigCommand)
  | resync (name : String)
  | join (io : ConfigIo) (invite : Except String InviteToken)
  | edit (file : Option ConfigFile)
  | tick (io : ConfigIo)
  | event (io : ConfigIo)
  | take (env : Env)
  | engine (x : Env × Engine.Input)

/-- The drive that a pause, a resume or a re-sync looks up. -/
def EngineCommand.target? : EngineCommand → Option String
  | .setPaused name _ => some name
  | .resync name => some name
  | _ => none

/-- An order reaches the engine only through the channel. -/
def Engine.Input.isCmd : Engine.Input → Bool
  | .cmd _ => true
  | _ => false

/-- The join that is reported. -/
def joined? : Effect → Option (String × Multiaddr)
  | .event (.driveJoined name addr) => some (name, addr)
  | _ => none

section

variable [Primitives]

/-- Does the engine find the drive that the order was meant for. -/
def Engine.reaches (e : Engine) (o : DriveOrder) (name : String) : Bool :=
  o.command.target? == some name && e.drives.contains name

namespace DriveCtx

variable (A : Addresses)

/-- The engine takes the next order. -/
def take (env : Env) (s : DriveCtx) : Option DriveCtx :=
  match s.queue with
  | [] => none
  | o :: rest =>
    if s.engine.running then
      some { s with
        queue := rest
        engine := (s.engine.turn env (.cmd o.command)).1
        delivered := s.delivered ++ o.asked.toList.map fun n => (n, s.engine.reaches o n) }
    else none

def step (s : DriveCtx) : DriveTurn → Option DriveCtx
  | .command io cmd => some (s.executeCommand A io cmd).1
  | .resync name => some (s.resyncDrive name).1
  | .join io invite => some (s.join A io invite).1
  | .edit file => some { s with cfg := { s.cfg with file } }
  | .tick io => some (s.adoptExternal A io false)
  | .event io =>
    match s.joins with
    | [] => none
    | j :: rest => some ({ s with joins := rest }.onDriveJoined A io j.1 j.2)
  | .take env => s.take env
  | .engine x =>
    if x.2.isCmd then none
    else some { s with
      engine := (s.engine.step x).1
      joins := s.joins ++ (s.engine.step x).2.filterMap joined? }

/-- The daemon has started: the engine is ordered to add the drives of the configuration. -/
def start (cfg : ConfigCtx) (engine : Engine) : DriveCtx :=
  let seeds := cfg.config.drives.filterMap (DriveConfig.drive? A)
  { cfg
    engineDrives := seeds.map Drive.name
    queue := seeds.map fun d => .plain (.addDrive d)
    engine
    joins := []
    accepted := []
    delivered := [] }

end DriveCtx

end

/-! ## The configuration is kept as before -/

namespace DriveCtx

section

variable (A : Addresses)

theorem cfg_adoptExternal (io : ConfigIo) (s : DriveCtx) (preserve : Bool) :
    (s.adoptExternal A io preserve).cfg = PhReactor.adoptExternal A.parse io s.cfg preserve := by
  unfold adoptExternal
  dsimp only
  split <;> rfl

theorem cfg_persistConfig (io : ConfigIo) (s : DriveCtx) :
    ((s.persistConfig A io).1.cfg, (s.persistConfig A io).2) =
      PhReactor.persistConfig A.parse io s.cfg := by
  unfold persistConfig PhReactor.persistConfig
  rw [← cfg_adoptExternal]
  dsimp only
  split <;> rfl

/-- A save, and then perhaps orders. -/
theorem cfg_register (io : ConfigIo) (s : DriveCtx) (d : Drive) (command : EngineCommand) :
    ((s.register A io d command).1.cfg, (s.register A io d command).2) =
      PhReactor.persistConfig A.parse io (s.addConfigured A d).cfg := by
  rw [← cfg_persistConfig]
  unfold register
  rcases (s.addConfigured A d).persistConfig A io with ⟨t, e | u⟩ <;> rfl

/-- **What a command does to the configuration** is what `executeConfig` says. -/
theorem cfg_executeCommand (io : ConfigIo) (s : DriveCtx) (cmd : ConfigCommand) :
    ((s.executeCommand A io cmd).1.cfg, (s.executeCommand A io cmd).2) =
      executeConfig A.parse io s.cfg cmd := by
  have hpause : ∀ name paused, ((s.pauseDrive A io name paused).1.cfg,
      (s.pauseDrive A io name paused).2) = ((setPaused name paused s.drives).map fun drives =>
        PhReactor.persistConfig A.parse io (s.withDrives drives).cfg).getD
          (s.cfg, .error (notConfigured name)) := by
    intro name paused
    unfold pauseDrive
    cases setPaused name paused s.drives with
    | none => rfl
    | some drives =>
      rw [Option.map_some, Option.getD_some, ← cfg_persistConfig]
      dsimp only
      rcases (s.withDrives drives).persistConfig A io with ⟨t, e | u⟩ <;> rfl
  cases cmd with
  | setConfig key value =>
    unfold executeCommand executeConfig changeMemory
    dsimp only
    rcases s.cfg.config.set A.parse key value with ⟨config, e | u⟩
    · rfl
    · exact cfg_persistConfig A io (s.withConfig config)
  | addDrive name addr tokenEnv offline =>
    show ((s.addDrive A io name addr tokenEnv offline).1.cfg,
      (s.addDrive A io name addr tokenEnv offline).2) = _
    unfold addDrive newDrive executeConfig changeMemory drives
    dsimp only
    cases hparse : A.parse (String.ofList (Update.trim addr.toList)) with
    | error e => rfl
    | ok parsed =>
      dsimp only
      generalize (if isBlank name then _ else _) = name'
      cases s.cfg.config.drives.any fun d => eqIgnoreAsciiCase d.name name' with
      | true => rfl
      | false =>
        rw [if_neg Bool.false_ne_true, if_neg Bool.false_ne_true]
        refine (cfg_register A io s _ _).trans ?_
        unfold addConfigured Drive.config
        dsimp only
        rw [A.parsed _ parsed hparse]
        rfl
  | removeDrive name =>
    show ((s.removeDrive A io name).1.cfg, (s.removeDrive A io name).2) = _
    unfold removeDrive executeConfig changeMemory drives
    dsimp only
    cases s.cfg.config.drives.findIdx? fun d => eqIgnoreAsciiCase d.name name with
    | none => rfl
    | some idx => exact cfg_persistConfig A io (s.takeOut name idx)
  | pauseDrive name =>
    refine (hpause name true).trans ?_
    unfold executeConfig changeMemory drives
    dsimp only
    cases setPaused name true s.cfg.config.drives <;> rfl
  | resumeDrive name =>
    refine (hpause name false).trans ?_
    unfold executeConfig changeMemory drives
    dsimp only
    cases setPaused name false s.cfg.config.drives <;> rfl

end

end DriveCtx

/-! ## The drives of the engine -/

section

variable [Primitives]

namespace Engine

/-- The drive of this name, if the engine has it. -/
def driveAt (e : Engine) (name : String) : Option Drive :=
  e.drives[name]?.map DriveRuntime.drive

variable {env : Env} {e : Engine} {name : String}

theorem driveAt_of_getElem? {e' : Engine} (h : e'.drives[name]? = e.drives[name]?) :
    e'.driveAt name = e.driveAt name :=
  congrArg (Option.map DriveRuntime.drive) h

theorem driveAt_eq_shows : e.driveAt name = (e.shows name).map Prod.fst := by
  unfold shows driveAt
  rw [Option.map_map]
  rfl

theorem driveAt_of_shows {e' : Engine} (h : e'.shows name = e.shows name) :
    e'.driveAt name = e.driveAt name := by
  rw [driveAt_eq_shows, driveAt_eq_shows, h]

theorem isSome_driveAt : (e.driveAt name).isSome = e.drives.contains name := by
  unfold driveAt
  rw [Option.isSome_map, Std.ExtTreeMap.isSome_getElem?_eq_contains]

/-- What an update makes of the drives, if it makes `g` of the one that it is about. -/
theorem driveAt_modifyDrive {n : String} {f : DriveRuntime → DriveRuntime} {g : Drive → Drive}
    (hf : ∀ rt, (f rt).drive = g rt.drive) : (e.modifyDrive n f).driveAt name =
      if n = name then (e.driveAt name).map g else e.driveAt name := by
  unfold driveAt
  rw [getElem?_modifyDrive]
  split
  · rw [Option.map_map, Option.map_map]
    exact congrArg (fun h => Option.map h e.drives[name]?) (funext hf)
  · rfl

/-- An update of the runtime only. -/
theorem driveAt_modifyDrive_of_same {n : String} {f : DriveRuntime → DriveRuntime}
    (hf : ∀ rt, (f rt).drive = rt.drive) : (e.modifyDrive n f).driveAt name = e.driveAt name := by
  rw [driveAt_modifyDrive (g := id) hf, Option.map_id, id, ite_self]

theorem driveAt_addDriveInternal (env : Env) (e : Engine) (drive : Drive) :
    (addDriveInternal env e drive).1.driveAt name =
      if drive.name = name then some drive else e.driveAt name := by
  by_cases hname : drive.name = name
  · subst hname
    rw [if_pos rfl]
    have hguest : ∀ (e' : Engine) (peer : PeerId),
        (finishGuest env e' drive.name peer).1.driveAt drive.name = e'.driveAt drive.name := by
      intro e' peer
      unfold finishGuest
      split
      · exact driveAt_modifyDrive_of_same fun _ => rfl
      · rfl
    have hopen : ∀ (e' : Engine) (peer : PeerId),
        (openIfConnected env e' drive.name peer).1.driveAt drive.name = e'.driveAt drive.name := by
      intro e' peer
      unfold openIfConnected
      split
      · exact driveAt_of_shows (shows_openHandshake _)
      · rfl
    have hinsert : ∀ new : DriveRuntime, new.drive = drive →
        ({ e with drives := e.drives.insert drive.name new } : Engine).driveAt drive.name =
          some drive := by
      intro new hnew
      show Option.map _ (e.drives.insert drive.name new)[drive.name]? = _
      rw [Std.ExtTreeMap.getElem?_insert_self, Option.map_some, hnew]
    unfold addDriveInternal
    dsimp only
    split
    · exact hinsert _ rfl
    · exact (hopen _ _).trans ((hguest _ _).trans (hinsert _ rfl))
  · rw [if_neg hname]
    exact driveAt_of_getElem? (getElem?_addDriveInternal env e hname)

/-! ### A turn of the loop -/

/-- No turn but an order touches the drive of a runtime. -/
theorem drive_after {i : Input} (hcmd : i.isCmd = false) (rt : DriveRuntime) :
    (after env e name rt i).drive = rt.drive := by
  have hanswered : ∀ ack, (answered env ack rt).drive = rt.drive := by
    intro ack
    unfold answered
    dsimp only
    split <;> rfl
  cases i with
  | cmd c => cases hcmd
  | tick lastActivity => exact (apply_ite DriveRuntime.drive _ _ _).trans (ite_self _)
  | connectionClosed peer n => exact (apply_ite DriveRuntime.drive _ _ _).trans (ite_self _)
  | outboundFailure peer => exact (apply_ite DriveRuntime.drive _ _ _).trans (ite_self _)
  | request peer msg =>
    cases msg with
    | hello h => exact (apply_ite DriveRuntime.drive _ _ _).trans (ite_self _)
    | summary clocks => exact (apply_ite DriveRuntime.drive _ _ _).trans (ite_self _)
    | _ => rfl
  | response peer id msg =>
    refine (apply_ite DriveRuntime.drive _ _ _).trans ?_
    have hresponse : (afterResponse env e peer id rt msg).drive = rt.drive := by
      cases msg with
      | helloAck ack =>
        refine (apply_ite DriveRuntime.drive _ _ _).trans ?_
        rw [hanswered, ite_self]
      | _ => rfl
    rw [hresponse, ite_self]
  | _ => rfl

/-- What a turn adds is the drive of the join-proof that it takes up. -/
theorem joinOf_of_adds (env : Env) {i : Input} (hrun : e.running = true) (hcmd : i.isCmd = false)
    (hadds : adds e name i = true) :
    ∃ j, e.joinOf (env, i) = some j ∧ (joinerDrive j.1 j.2).name = name := by
  cases i with
  | cmd c => cases hcmd
  | request peer msg =>
    cases msg with
    | hello h =>
      unfold adds at hadds
      rw [Bool.and_eq_true, Bool.and_eq_true, Option.any_eq_true] at hadds
      obtain ⟨⟨-, hversion⟩, a, ha, htakes⟩ := hadds
      rw [Bool.and_eq_true, beq_iff_eq] at htakes
      refine ⟨(peer, a), ?_, htakes.2⟩
      unfold joinOf
      dsimp only
      rw [hrun, hversion, ha, Option.filter_some, htakes.1]
      rfl
    | _ => exact absurd hadds Bool.false_ne_true
  | _ => exact absurd hadds Bool.false_ne_true

/-- **Frame**: a turn leaves a drive alone, unless it takes up a join-proof for its name. -/
theorem driveAt_step_of_other {x : Env × Input} (hcmd : x.2.isCmd = false)
    (hother : ∀ j, e.joinOf x = some j → (joinerDrive j.1 j.2).name ≠ name) :
    (e.step x).1.driveAt name = e.driveAt name := by
  obtain ⟨env, i⟩ := x
  unfold step
  split
  swap
  · rfl
  next hgoes =>
    cases hadds : adds e name i with
    | true =>
      have hrun : e.running = true := by
        cases i with
        | store ev => cases hadds
        | _ => exact (Bool.or_eq_true _ _).mp hgoes |>.resolve_right Bool.false_ne_true
      obtain ⟨j, hj, hname⟩ := joinOf_of_adds env hrun hcmd hadds
      exact absurd hname (hother j hj)
    | false =>
      have hstays : i ≠ .cmd (.removeDrive name) := by
        rintro rfl
        cases hcmd
      have hshows : (turn env e i).1.shows name = _ := shows_turn hadds hstays
      show (turn env e i).1.driveAt name = _
      rw [driveAt_eq_shows, hshows, Option.map_map]
      refine congrArg (fun f => Option.map f e.drives[name]?) (funext fun rt => ?_)
      exact drive_after hcmd rt

/-- Greeting a peer does not touch the drives. -/
theorem driveAt_greet (p : PeerId) : (greet env e p).1.driveAt name = e.driveAt name := by
  unfold greet
  split
  · rfl
  · exact driveAt_modifyDrive_of_same fun _ => rfl

/-- **The drive of a join-proof that is taken up.** -/
theorem driveAt_step_of_join {x : Env × Input} {j : PeerId × InviteAccept}
    (hj : e.joinOf x = some j) :
    (e.step x).1.driveAt (joinerDrive j.1 j.2).name = some (joinerDrive j.1 j.2) := by
  obtain ⟨env, i⟩ := x
  unfold joinOf at hj
  dsimp only at hj
  split at hj
  swap
  · cases hj
  next p h =>
    split at hj
    swap
    · cases hj
    next hgate =>
      obtain ⟨hrun, hversion⟩ := (Bool.and_eq_true _ _).mp hgate
      obtain ⟨a, ha, rfl⟩ := Option.map_eq_some_iff.mp hj
      obtain ⟨haccept, htakes⟩ := Option.filter_eq_some_iff.mp ha
      obtain ⟨⟨hban, hver⟩, hpin⟩ : (e.banned.contains p = false ∧ a.verify = true) ∧
          (e.store.knownKeys[a.peerId]?).all (· == a.key) = true := by
        simpa [takes] using htakes
      obtain ⟨keys, hreg, -⟩ := registerPeerKey_ok hpin
      have hjoined : (acceptInvite env e p h.accept).1.driveAt (joinerDrive p a).name =
          some (joinerDrive p a) := by
        rw [haccept]
        show (handleInviteAccept env e p a).1.driveAt _ = _
        unfold handleInviteAccept
        rw [hban, hver, hreg]
        exact (driveAt_addDriveInternal env _ (joinerDrive p a)).trans (if_pos rfl)
      have hgreet : (greet env (acceptInvite env e p h.accept).1 p).1.driveAt
          (joinerDrive p a).name = some (joinerDrive p a) := (driveAt_greet p).trans hjoined
      -- every way out of the handler is after the join-proof
      unfold step
      rw [hrun, Bool.true_or, if_pos rfl]
      show (serveHello env e p h).1.driveAt _ = _
      have hadm : Admitted e p h := ⟨hban, beq_iff_eq.mp hversion⟩
      unfold driveAt
      rcases drives_serveHello hadm with hdrives | hdrives
      · rw [hdrives]
        exact hjoined
      · rw [hdrives]
        exact hgreet

/-- The joins a step reports are those of the join-proof it takes up. -/
theorem joined_step (e : Engine) (x : Env × Input) : (e.step x).2.filterMap joined? =
    (e.joinOf x).toList.map fun j => ((joinerDrive j.1 j.2).name, (joinerDrive j.1 j.2).addr) := by
  have hno : ∀ o : Effect, o.admits = false → joined? o = none := by
    intro o ho
    cases o with
    | event ev =>
      cases ev with
      | driveJoined name addr => cases ho
      | _ => rfl
    | _ => rfl
  rw [← InviteLedger.filterMap_filter_admits hno, e.filter_admits_step x]
  cases e.joinOf x <;> rfl

end Engine

end

/-! ## Orders -/

section

variable (A : Addresses)

/-- What an order makes of the drive of a name. -/
def EngineCommand.on (name : String) (o : Option DriveSpec) : EngineCommand → Option DriveSpec
  | .addDrive drive => if drive.name = name then some (drive.spec A) else o
  | .join drive _ => if drive.name = name then some (drive.spec A) else o
  | .removeDrive n => if n = name then none else o
  | .setPaused n paused => if n = name then o.map (DriveSpec.setPaused paused) else o
  | _ => o

/-- The same, as the orders of a queue. -/
def DriveOrder.on (o : DriveOrder) (name : String) (entry : Option DriveSpec) : Option DriveSpec :=
  o.command.on A name entry

/-- An order that a user asked for looks up the drive that was named, which is there. -/
def DriveOrder.Reaches (o : DriveOrder) (T : String → Option DriveSpec) : Prop :=
  ∀ name, o.asked = some name → o.command.target? = some name ∧ (T name).isSome = true

/-- What the engine has under a name. -/
def Engine.specAt (e : Engine) (name : String) : Option DriveSpec :=
  (e.driveAt name).map (Drive.spec A)

/-- An order leaves a drive where there was one, unless it removes it. -/
theorem isSome_on {c : EngineCommand} {name : String} {o o' : Option DriveSpec}
    (hle : o.isSome → o'.isSome) (h : (c.on A name o).isSome) : (c.on A name o').isSome := by
  have hite : ∀ (p : Prop) [Decidable p] (a a' : Option DriveSpec), (a.isSome → a'.isSome) →
      (if p then a else o).isSome → (if p then a' else o').isSome := by
    intro p _ a a' ha h
    split at h
    · next hp => rw [if_pos hp]; exact ha h
    · next hp => rw [if_neg hp]; exact hle h
  cases c with
  | addDrive drive => exact hite _ _ _ id h
  | join drive accept => exact hite _ _ _ id h
  | removeDrive n => exact hite _ none none id h
  | setPaused n paused => exact hite _ _ _ (by simpa using hle) h
  | _ => exact hle h

section

variable [Primitives]

/-- **What the engine makes of an order** is what the order says. -/
theorem specAt_handleCmd (env : Env) (e : Engine) (c : EngineCommand) (name : String) :
    (Engine.handleCmd env e c).1.specAt A name = c.on A name (e.specAt A name) := by
  have hadd : ∀ drive : Drive, (Engine.addDriveInternal env e drive).1.specAt A name =
      if drive.name = name then some (drive.spec A) else e.specAt A name := by
    intro drive
    refine (congrArg (Option.map (Drive.spec A))
      (Engine.driveAt_addDriveInternal env e drive)).trans ?_
    split <;> rfl
  cases c with
  | addDrive drive => exact hadd drive
  | join drive accept =>
    refine Eq.trans (congrArg (Option.map (Drive.spec A)) ?_) (hadd drive)
    exact Engine.driveAt_modifyDrive_of_same fun _ => rfl
  | removeDrive n =>
    show Option.map _ (Option.map _ (e.drives.erase n)[name]?) = if n = name then none else _
    rw [Std.ExtTreeMap.getElem?_erase]
    by_cases hn : n = name
    · rw [if_pos hn, if_pos (Std.compare_eq_iff_eq.mpr hn)]
      rfl
    · rw [if_neg hn, if_neg fun hc => hn (Std.compare_eq_iff_eq.mp hc)]
      rfl
  | setPaused n paused =>
    refine (congrArg (Option.map (Drive.spec A)) (Engine.driveAt_modifyDrive
      (g := fun d : Drive => { d with paused }) fun _ => rfl)).trans ?_
    show _ = if n = name then Option.map _ (e.specAt A name) else e.specAt A name
    unfold Engine.specAt
    split
    · cases e.driveAt name <;> rfl
    · rfl
  | resync n =>
    unfold Engine.handleCmd
    dsimp only
    split
    · rfl
    · split
      · exact congrArg (Option.map (Drive.spec A))
          (Engine.driveAt_modifyDrive_of_same fun _ => rfl)
      · rfl
  | fetchBlob blob =>
    exact (Lib.sweep_spec (I := fun e' : Engine => e'.specAt A name = e.specAt A name)
      (P := fun _ => True) (fun _ _ _ he' => ⟨he', fun _ _ => trivial⟩) rfl).1
  | ban peer => rfl
  | unban peer => rfl
  | shutdown => rfl

end

end

end PhReactor
