/-
  The configuration of a running daemon (`src/config.rs`, and the commands of `src/daemon.rs` that
  change it).

  The daemon keeps its configuration in memory and in `config.json`, which other processes write
  too.  What it knows of them is the file's modification time.

  1. `set` writes one dotted key into a configuration; `lookup` reads one back, and `AgreeBut` says
     that two configurations agree on everything else, the drives apart.

  2. A command changes the memory FIRST.  Then `persistConfig` adopts a newer file over it, all but
     the drives, and saves what is there.  The result is one of two configurations
     (`config_adoptExternal`).

  3. So `SetConfig` undoes itself when another process has written the file meanwhile
     (`set_is_undone`).  `config_update_kept_iff` says exactly when nothing is lost: the file that
     is adopted has the new value already, or the file that is not adopted says nothing new.

  What `libp2p` makes of the text of a multiaddr is a parameter.  A file that is a configuration is
  kept as the configuration it parses to.
-/
import PhReactor.Update.Release
import PhReactor.Json
import Std.Data.ExtTreeMap

namespace PhReactor

/-! ## Configurations -/

structure InstanceConfig where
  /-- Human name of this instance. -/
  name : String
  /-- The libp2p listen multiaddr. -/
  listen : String
  listenWs : Option String
  external : List String

structure P2pConfig where
  mdns : Bool
  /-- Env var name of the global token gate. -/
  tokenEnv : Option String
  dht : Bool
  relay : Bool
  bootstraps : List String

structure DriveConfig where
  name : String
  addr : String
  tokenEnv : Option String
  paused : Bool
  availableOffline : Bool

structure SettingsConfig where
  host : String
  port : ℕ

structure LlmConfig where
  baseUrl : String
  /-- The env-var name holding the API key. -/
  apiKeyEnv : String
  model : String

structure UpdateConfig where
  check : Bool
  auto : Bool

/-- The top-level configuration document. -/
structure ReactorConfig where
  version : ℕ
  instance_ : InstanceConfig
  p2p : P2pConfig
  drives : List DriveConfig
  settings : SettingsConfig
  llm : LlmConfig
  update : UpdateConfig
  logLevel : String
  /-- Unknown fields, preserved verbatim. -/
  extra : List (String × Value)

namespace ReactorConfig

/-- `default_with_version`. -/
def default : ReactorConfig where
  version := 2
  instance_ := ⟨"reactor", "/ip4/0.0.0.0/tcp/4201", none, []⟩
  p2p := ⟨true, none, true, false, []⟩
  drives := []
  settings := ⟨"127.0.0.1", 4002⟩
  llm := ⟨"https://api.openai.com/v1", "LLM_API_KEY", "gpt-4o-mini"⟩
  update := ⟨true, false⟩
  logLevel := "info"
  extra := []

end ReactorConfig

inductive ConfigError where
  | io
  | json
  | invalid (what : String)
  deriving DecidableEq

/-- `invalid(key, why)`. -/
def ConfigError.at_ (key why : String) : ConfigError := .invalid (key ++ ": " ++ why)

def logLevels : List String := ["verbose", "debug", "info", "warn", "error", "silent"]

def badLogLevel : String := "expected one of: " ++ String.intercalate ", " logLevels

/-- Is there nothing but white space in it. -/
def isBlank (s : String) : Bool := (Update.trim s.toList).isEmpty

def isHttp (s : String) : Bool := s.startsWith "http://" || s.startsWith "https://"

/-- What `Multiaddr::from_str` makes of a text: its canonical text, the base58 of its peer id and
    its TCP port, if it has them. -/
structure ParsedAddr where
  text : String
  peer : Option String
  tcp : Option ℕ

section

variable (multiaddr : String → Except String ParsedAddr)

/-- The first drive that is not well formed. -/
def validateDrives : List DriveConfig → Except ConfigError Unit
  | [] => .ok ()
  | d :: rest =>
    if isBlank d.name then .error (.at_ "drives[].name" "must be non-empty")
    else
      match multiaddr d.addr with
      | .error e => .error (.at_ ("drives[" ++ d.name ++ "].addr") ("not a valid multiaddr: " ++ e))
      | .ok _ => validateDrives rest

/-- Validate the whole document.  Returns the first problem found. -/
def ReactorConfig.validate (c : ReactorConfig) : Except ConfigError Unit :=
  if isBlank c.instance_.name then .error (.at_ "instance.name" "must be a non-empty string")
  else
    match multiaddr c.instance_.listen with
    | .error e => .error (.at_ "instance.listen" ("not a valid multiaddr: " ++ e))
    | .ok _ =>
      match validateDrives multiaddr c.drives with
      | .error e => .error e
      | .ok () =>
        if !logLevels.contains c.logLevel then .error (.at_ "logLevel" badLogLevel)
        else if isBlank c.llm.baseUrl || !isHttp c.llm.baseUrl then
          .error (.at_ "llm.baseUrl" "must be an http(s) base URL")
        else if isBlank c.llm.model then .error (.at_ "llm.model" "must be a non-empty string")
        else .ok ()

/-! ## Dotted keys -/

def setString (key : String) (value : Value) (valid : String → Bool) : Except ConfigError String :=
  match value with
  | .string s => if valid s then .ok s else .error (.at_ key "invalid value")
  | _ => .error (.at_ key "expected a string")

def setPort (key : String) (value : Value) : Except ConfigError ℕ :=
  match value.asU64? with
  | none => .error (.at_ key "expected a number")
  | some n =>
    if 1 ≤ n.val ∧ n.val ≤ 65535 then .ok n.val else .error (.at_ key "port must be 1..=65535")

/-- `bool_value`, and the matches on a boolean. -/
def boolValue (key : String) (value : Value) : Except ConfigError Bool :=
  match value with
  | .bool b => .ok b
  | _ => .error (.at_ key "expected a boolean")

/-- A string, or `null` for none. -/
def envName (key : String) (value : Value) : Except ConfigError (Option String) :=
  match value with
  | .null => .ok none
  | .string s => .ok (some s)
  | _ => .error (.at_ key "expected a string or null")

def setLogLevel (value : Value) : Except ConfigError String :=
  match value with
  | .string s => if logLevels.contains s then .ok s else .error (.at_ "logLevel" badLogLevel)
  | _ => .error (.at_ "logLevel" "expected a string")

def unknownKey : String :=
  "unknown key (allowed: instance.name, instance.listen, p2p.mdns, p2p.tokenEnv, llm.baseUrl, " ++
  "llm.apiKeyEnv, llm.model, settings.host, settings.port, update.check, update.auto, logLevel)"

namespace ReactorConfig

/-- The arms of `set`. -/
def assign (c : ReactorConfig) (key : String) (value : Value) : Except ConfigError ReactorConfig :=
  match key with
  | "instance.name" =>
    (setString "instance.name" value fun s => !isBlank s).map fun s =>
      { c with instance_ := { c.instance_ with name := s } }
  | "instance.listen" =>
    (setString "instance.listen" value fun s => (multiaddr s).isOk).map fun s =>
      { c with instance_ := { c.instance_ with listen := s } }
  | "p2p.mdns" =>
    (boolValue "p2p.mdns" value).map fun b => { c with p2p := { c.p2p with mdns := b } }
  | "p2p.tokenEnv" =>
    (envName "p2p.tokenEnv" value).map fun s => { c with p2p := { c.p2p with tokenEnv := s } }
  | "settings.host" =>
    (setString "settings.host" value fun s => s != "").map fun s =>
      { c with settings := { c.settings with host := s } }
  | "settings.port" =>
    (setPort "settings.port" value).map fun n =>
      { c with settings := { c.settings with port := n } }
  | "update.check" =>
    (boolValue "update.check" value).map fun b => { c with update := { c.update with check := b } }
  | "update.auto" =>
    (boolValue "update.auto" value).map fun b => { c with update := { c.update with auto := b } }
  | "logLevel" => (setLogLevel value).map fun s => { c with logLevel := s }
  | "llm.baseUrl" =>
    (setString "llm.baseUrl" value isHttp).map fun s =>
      { c with llm := { c.llm with baseUrl := s } }
  | "llm.apiKeyEnv" =>
    (envName "llm.apiKeyEnv" value).map fun s =>
      { c with llm := { c.llm with apiKeyEnv := s.getD "" } }
  | "llm.model" =>
    (setString "llm.model" value fun s => !isBlank s).map fun s =>
      { c with llm := { c.llm with model := s } }
  | key => .error (.at_ key unknownKey)

/-- Sets a dotted key from a JSON value.  The configuration is changed even when it does not
    validate afterwards. -/
def set (c : ReactorConfig) (key : String) (value : Value) :
    ReactorConfig × Except ConfigError Unit :=
  match c.assign multiaddr key value with
  | .error e => (c, .error e)
  | .ok c => (c, c.validate multiaddr)

/-- The value of a dotted key. -/
def lookup (c : ReactorConfig) (key : String) : Option Value :=
  match key with
  | "instance.name" => some (.string c.instance_.name)
  | "instance.listen" => some (.string c.instance_.listen)
  | "p2p.mdns" => some (.bool c.p2p.mdns)
  | "p2p.tokenEnv" => some ((c.p2p.tokenEnv.map Value.string).getD .null)
  | "settings.host" => some (.string c.settings.host)
  | "settings.port" => some (.number (.posInt (Fin.ofNat _ c.settings.port)))
  | "update.check" => some (.bool c.update.check)
  | "update.auto" => some (.bool c.update.auto)
  | "logLevel" => some (.string c.logLevel)
  | "llm.baseUrl" => some (.string c.llm.baseUrl)
  | "llm.apiKeyEnv" => some (.string c.llm.apiKeyEnv)
  | "llm.model" => some (.string c.llm.model)
  | _ => none

/-- What no dotted key sets, the drives apart. -/
def rest (c : ReactorConfig) :
    ℕ × Option String × List String × Bool × Bool × List String × List (String × Value) :=
  (c.version, c.instance_.listenWs, c.instance_.external, c.p2p.dht, c.p2p.relay,
    c.p2p.bootstraps, c.extra)

end ReactorConfig

/-- What a key holds once it is set to `value`: clearing the key of the API is to empty it. -/
def storedAsKey (key : String) (value : Value) : Value :=
  match value with
  | .null => if key = "llm.apiKeyEnv" then .string "" else .null
  | value => value

/-- Do two configurations agree, the drives and perhaps one key apart. -/
structure AgreeBut (key : Option String) (c d : ReactorConfig) : Prop where
  keys : ∀ k, key ≠ some k → c.lookup k = d.lookup k
  rest : c.rest = d.rest

/-! ## The file and the daemon -/

/-- What a read of `config.json` finds. -/
inductive FileContent where
  | config (c : ReactorConfig)
  /-- Not a configuration. -/
  | corrupt
  /-- The read fails. -/
  | unreadable

structure ConfigFile where
  mtime : ℕ
  content : FileContent

/-- How the writes of one command end.  A failed replacement of a corrupt file leaves anything. -/
structure ConfigIo where
  now : ℕ
  replaced : Except (Option ConfigFile) Unit
  saved : Bool

/-- The part of the daemon's state that its configuration is about. -/
structure ConfigCtx where
  config : ReactorConfig
  /-- Mtime of the file as of the daemon's last write or read.  Anything newer is an external
      edit. -/
  lastSaveMtime : ℕ
  /-- The file, if there is one. -/
  file : Option ConfigFile

/-- Replace the file by the defaults.  The flag is `load_quiet`'s. -/
def writeDefaults (io : ConfigIo) : Option ConfigFile × Except ConfigError (ReactorConfig × Bool) :=
  match io.replaced with
  | .ok () => (some ⟨io.now, .config .default⟩, .ok (.default, true))
  | .error left => (left, .error .io)

/-- Loads the configuration.  The flag says that the file was replaced by the defaults. -/
def loadQuiet (io : ConfigIo) (file : Option ConfigFile) :
    Option ConfigFile × Except ConfigError (ReactorConfig × Bool) :=
  match file with
  | none => writeDefaults io
  | some f =>
    match f.content with
    | .config c =>
      match c.validate multiaddr with
      | .error e => (file, .error e)
      | .ok () => (file, .ok (c, false))
    | .corrupt => writeDefaults io
    | .unreadable => (file, .error .io)

/-- Picks up an edit of the file by another process; with `preserveDrives`, all but the drives. -/
def adoptExternal (io : ConfigIo) (ctx : ConfigCtx) (preserveDrives : Bool) : ConfigCtx :=
  match ctx.file with
  | none => ctx
  | some f =>
    if f.mtime ≤ ctx.lastSaveMtime then ctx
    else
      match loadQuiet multiaddr io ctx.file with
      | (file, .error _) => { ctx with file }
      | (file, .ok (_, true)) => { ctx with file, lastSaveMtime := f.mtime }
      | (file, .ok (reloaded, false)) =>
        let reloaded :=
          if preserveDrives then { reloaded with drives := ctx.config.drives } else reloaded
        { config := reloaded, lastSaveMtime := f.mtime, file }

/-- Saves the configuration.  External edits are adopted first so they are not clobbered. -/
def persistConfig (io : ConfigIo) (ctx : ConfigCtx) : ConfigCtx × Except ConfigError Unit :=
  let ctx := adoptExternal multiaddr io ctx true
  if io.saved then
    ({ ctx with file := some ⟨io.now, .config ctx.config⟩, lastSaveMtime := io.now }, .ok ())
  else (ctx, .error .io)

/-! ## Commands -/

/-- The commands that change the configuration. -/
inductive ConfigCommand where
  | setConfig (key : String) (value : Value)
  | addDrive (name addr : String) (tokenEnv : Option String) (offline : Bool)
  | removeDrive (name : String)
  | pauseDrive (name : String)
  | resumeDrive (name : String)

def eqIgnoreAsciiCase (a b : String) : Bool :=
  a.toList.map Char.toLower == b.toList.map Char.toLower

/-- `default_drive_name`. -/
def defaultDriveName (addr : ParsedAddr) : String :=
  match addr.peer with
  | some b58 => "peer-" ++ String.ofList (b58.toList.take 8)
  | none =>
    match addr.tcp with
    | some port => "drive-" ++ toString port
    | none => "drive"

def notConfigured (name : String) : ConfigError :=
  .invalid ("drive '" ++ name ++ "' is not configured")

/-- Pause or resume the first drive of that name. -/
def setPaused (name : String) (paused : Bool) : List DriveConfig → Option (List DriveConfig)
  | [] => none
  | d :: rest =>
    if eqIgnoreAsciiCase d.name name then some ({ d with paused } :: rest)
    else (setPaused name paused rest).map (d :: ·)

/-- What a command changes in memory, before anything is saved. -/
def changeMemory (c : ReactorConfig) : ConfigCommand → ReactorConfig × Except ConfigError Unit
  | .setConfig key value => c.set multiaddr key value
  | .addDrive name addr tokenEnv offline =>
    let addr := String.ofList (Update.trim addr.toList)
    match multiaddr addr with
    | .error _ => (c, .error (.invalid ("'" ++ addr ++ "' is not a valid multiaddr")))
    | .ok parsed =>
      let name :=
        if isBlank name then defaultDriveName parsed else String.ofList (Update.trim name.toList)
      if c.drives.any fun d => eqIgnoreAsciiCase d.name name then
        (c, .error (.invalid ("a drive named '" ++ name ++ "' is already configured")))
      else
        ({ c with drives := c.drives ++ [⟨name, parsed.text, tokenEnv, false, offline⟩] }, .ok ())
  | .removeDrive name =>
    match c.drives.findIdx? fun d => eqIgnoreAsciiCase d.name name with
    | none => (c, .error (notConfigured name))
    | some idx => ({ c with drives := c.drives.eraseIdx idx }, .ok ())
  | .pauseDrive name =>
    match setPaused name true c.drives with
    | none => (c, .error (notConfigured name))
    | some drives => ({ c with drives }, .ok ())
  | .resumeDrive name =>
    match setPaused name false c.drives with
    | none => (c, .error (notConfigured name))
    | some drives => ({ c with drives }, .ok ())

/-- `execute_command`: the memory is changed, then persisted. -/
def executeConfig (io : ConfigIo) (ctx : ConfigCtx) (cmd : ConfigCommand) :
    ConfigCtx × Except ConfigError Unit :=
  match changeMemory multiaddr ctx.config cmd with
  | (config, .error e) => ({ ctx with config }, .error e)
  | (config, .ok ()) => persistConfig multiaddr io { ctx with config }

/-! ## Updates -/

/-- The key that a command sets. -/
def ConfigCommand.key : ConfigCommand → Option String
  | .setConfig key _ => some key
  | _ => none

/-- What another process left in the file, if it is a configuration. -/
def ConfigCtx.edit (ctx : ConfigCtx) : Option ReactorConfig :=
  match ctx.file with
  | some ⟨_, .config c⟩ => some c
  | _ => none

/-- The edit, if the daemon adopts it: the file is newer than its last save, and valid. -/
def ConfigCtx.seen (ctx : ConfigCtx) : Option ReactorConfig :=
  match ctx.file with
  | some ⟨mtime, .config c⟩ =>
    if ctx.lastSaveMtime < mtime ∧ (c.validate multiaddr).isOk then some c else none
  | _ => none

/-- **No update is lost**: what is saved is in memory, a key that was set has its value, and every
    other key is as another process left it, or unchanged. -/
structure UpdateKept (cmd : ConfigCommand) (ctx ctx' : ConfigCtx) : Prop where
  saved : ∃ mtime, ctx'.file = some ⟨mtime, .config ctx'.config⟩
  has : ∀ key value, cmd = .setConfig key value →
    ctx'.config.lookup key = some (storedAsKey key value)
  others : AgreeBut cmd.key ctx'.config (ctx.edit.getD ctx.config)

/-- A file that is adopted has the new value already, and one that is not says nothing new. -/
structure UpdateSafe (cmd : ConfigCommand) (ctx : ConfigCtx) : Prop where
  adopted : ∀ c, ctx.seen multiaddr = some c → ∀ key value, cmd = .setConfig key value →
    c.lookup key = some (storedAsKey key value)
  left : ctx.seen multiaddr = none → AgreeBut cmd.key ctx.config (ctx.edit.getD ctx.config)

/-! ## Keys -/

theorem AgreeBut.refl (key : Option String) (c : ReactorConfig) : AgreeBut key c c :=
  ⟨fun _ _ => rfl, rfl⟩

theorem AgreeBut.symm {key : Option String} {c d : ReactorConfig} (h : AgreeBut key c d) :
    AgreeBut key d c :=
  ⟨fun k hk => (h.keys k hk).symm, h.rest.symm⟩

theorem AgreeBut.trans {key : Option String} {c d e : ReactorConfig} (h : AgreeBut key c d)
    (h' : AgreeBut key d e) : AgreeBut key c e :=
  ⟨fun k hk => (h.keys k hk).trans (h'.keys k hk), h.rest.trans h'.rest⟩

/-- The drives are under no key. -/
theorem lookup_drives (c : ReactorConfig) (drives : List DriveConfig) (key : String) :
    ReactorConfig.lookup { c with drives } key = c.lookup key := by
  unfold ReactorConfig.lookup
  split <;> rfl

theorem agreeBut_drives (key : Option String) (c : ReactorConfig) (drives : List DriveConfig) :
    AgreeBut key { c with drives } c :=
  ⟨fun k _ => lookup_drives c drives k, rfl⟩

theorem map_eq_ok {ε α β : Type} {f : α → β} {x : Except ε α} {y : β} (h : x.map f = .ok y) :
    ∃ a, x = .ok a ∧ f a = y := by
  cases x with
  | error e => cases h
  | ok a => exact ⟨a, rfl, Except.ok.inj h⟩

theorem setString_ok {key : String} {value : Value} {valid : String → Bool} {s : String}
    (h : setString key value valid = .ok s) : value = .string s := by
  cases value with
  | string t =>
    have h : (if valid t then Except.ok t
      else .error (ConfigError.at_ key "invalid value")) = .ok s := h
    split at h
    · rw [Except.ok.inj h]
    · cases h
  | _ => cases h

theorem setLogLevel_ok {value : Value} {s : String} (h : setLogLevel value = .ok s) :
    value = .string s := by
  cases value with
  | string t =>
    have h : (if logLevels.contains t then Except.ok t
      else .error (ConfigError.at_ "logLevel" badLogLevel)) = .ok s := h
    split at h
    · rw [Except.ok.inj h]
    · cases h
  | _ => cases h

theorem setPort_ok {key : String} {value : Value} {n : ℕ} (h : setPort key value = .ok n) :
    value = .number (.posInt (Fin.ofNat _ n)) := by
  unfold setPort at h
  cases hv : value.asU64? with
  | none =>
    rw [hv] at h
    cases h
  | some m =>
    rw [hv] at h
    dsimp only at h
    split at h
    · cases value with
      | number n' =>
        cases n' with
        | posInt m' =>
          obtain rfl := Option.some.inj hv
          rw [← Except.ok.inj h, Fin.ofNat_val_eq_self]
        | _ => cases hv
      | _ => cases hv
    · cases h

theorem boolValue_ok {key : String} {value : Value} {b : Bool} (h : boolValue key value = .ok b) :
    value = .bool b := by
  cases value with
  | bool b' => rw [Except.ok.inj h]
  | _ => cases h

theorem envName_ok {key : String} {value : Value} {s : Option String}
    (h : envName key value = .ok s) : value = (s.map Value.string).getD .null := by
  cases value with
  | null => rw [← Except.ok.inj h]; rfl
  | string t => rw [← Except.ok.inj h]; rfl
  | _ => cases h

variable {multiaddr} {c c' : ReactorConfig} {key : String} {value : Value}

/-- A key that is set has the value. -/
theorem lookup_assign (h : c.assign multiaddr key value = .ok c') :
    c'.lookup key = some (storedAsKey key value) := by
  unfold ReactorConfig.assign at h
  split at h
  case h_13 => cases h
  all_goals obtain ⟨a, ha, rfl⟩ := map_eq_ok h
  case h_3 | h_7 | h_8 =>
    rw [boolValue_ok ha]
    rfl
  case h_4 =>
    rw [envName_ok ha]
    cases a <;> rfl
  case h_6 =>
    rw [setPort_ok ha]
    rfl
  case h_9 =>
    rw [setLogLevel_ok ha]
    rfl
  case h_11 =>
    rw [envName_ok ha]
    cases a <;> rfl
  all_goals
    rw [setString_ok ha]
    rfl

/-- Nothing else changes. -/
theorem agreeBut_assign (h : c.assign multiaddr key value = .ok c') :
    AgreeBut (some key) c' c := by
  unfold ReactorConfig.assign at h
  split at h
  case h_13 => cases h
  all_goals
    obtain ⟨a, -, rfl⟩ := map_eq_ok h
    refine ⟨fun k hk => ?_, rfl⟩
    unfold ReactorConfig.lookup
    split <;> first | rfl | exact absurd rfl hk

/-! ## What a command leaves -/

theorem edit_of_seen {ctx : ConfigCtx} {c : ReactorConfig} (h : ctx.seen multiaddr = some c) :
    ctx.edit = some c := by
  obtain ⟨config, last, file⟩ := ctx
  rcases file with _ | ⟨mtime, c' | _ | _⟩
  · cases h
  · have h : (if last < mtime ∧ (c'.validate multiaddr).isOk then some c' else none) = some c := h
    split at h
    · exact h
    · cases h
  · cases h
  · cases h

variable {io : ConfigIo} {ctx : ConfigCtx} {cmd : ConfigCommand}

/-- **What is in memory after an adoption**: the edit that is adopted, before a save under the
    daemon's own drives, or what was there. -/
theorem config_adoptExternal {preserve : Bool} :
    (adoptExternal multiaddr io ctx preserve).config =
      ((ctx.seen multiaddr).map fun c =>
        if preserve then { c with drives := ctx.config.drives } else c).getD ctx.config := by
  obtain ⟨config, last, file⟩ := ctx
  cases file with
  | none => rfl
  | some f =>
    obtain ⟨mtime, content⟩ := f
    by_cases hnew : mtime ≤ last
    · have hseen : ConfigCtx.seen multiaddr ⟨config, last, some ⟨mtime, content⟩⟩ = none := by
        cases content with
        | config c => exact if_neg fun h => absurd h.1 (Nat.not_lt.mpr hnew)
        | _ => rfl
      rw [hseen]
      exact congrArg ConfigCtx.config (if_pos hnew)
    · have hadopt : adoptExternal multiaddr io ⟨config, last, some ⟨mtime, content⟩⟩ preserve =
          match loadQuiet multiaddr io (some ⟨mtime, content⟩) with
          | (file, .error _) => ⟨config, last, file⟩
          | (file, .ok (_, true)) => ⟨config, mtime, file⟩
          | (file, .ok (reloaded, false)) =>
            ⟨if preserve then { reloaded with drives := config.drives } else reloaded, mtime,
              file⟩ := if_neg hnew
      rw [hadopt]
      cases content with
      | config c =>
        have hload : loadQuiet multiaddr io (some ⟨mtime, .config c⟩) =
            match c.validate multiaddr with
            | .error e => (some ⟨mtime, .config c⟩, .error e)
            | .ok () => (some ⟨mtime, .config c⟩, .ok (c, false)) := rfl
        have hseen : ConfigCtx.seen multiaddr ⟨config, last, some ⟨mtime, .config c⟩⟩ =
          if last < mtime ∧ (c.validate multiaddr).isOk then some c else none := rfl
        rw [hload, hseen]
        cases c.validate multiaddr with
        | error e =>
          rw [if_neg fun h => Bool.false_ne_true h.2]
          rfl
        | ok u =>
          rw [if_pos ⟨Nat.not_le.mp hnew, rfl⟩]
          rfl
      | corrupt =>
        obtain ⟨now, replaced, saved⟩ := io
        cases replaced <;> rfl
      | unreadable => rfl

/-- What a command changes in memory: its key, or the drives. -/
theorem agreeBut_changeMemory (h : changeMemory multiaddr c cmd = (c', .ok ())) :
    AgreeBut cmd.key c' c := by
  cases cmd with
  | setConfig key value =>
    have h : c.set multiaddr key value = (c', .ok ()) := h
    unfold ReactorConfig.set at h
    split at h
    · cases h
    · next c'' hassign =>
      obtain ⟨rfl, -⟩ := Prod.mk.inj h
      exact agreeBut_assign hassign
  | addDrive name addr tokenEnv offline =>
    simp only [changeMemory] at h
    split at h
    · cases h
    · generalize (if isBlank name then _ else _) = name' at h
      split at h
      · cases h
      · obtain ⟨rfl, -⟩ := Prod.mk.inj h
        exact agreeBut_drives _ c _
  | removeDrive name =>
    simp only [changeMemory] at h
    split at h
    · cases h
    · obtain ⟨rfl, -⟩ := Prod.mk.inj h
      exact agreeBut_drives _ c _
  | pauseDrive name =>
    simp only [changeMemory] at h
    split at h
    · cases h
    · obtain ⟨rfl, -⟩ := Prod.mk.inj h
      exact agreeBut_drives _ c _
  | resumeDrive name =>
    simp only [changeMemory] at h
    split at h
    · cases h
    · obtain ⟨rfl, -⟩ := Prod.mk.inj h
      exact agreeBut_drives _ c _

/-- A command that sets a key sets it in memory. -/
theorem lookup_changeMemory (h : changeMemory multiaddr c (.setConfig key value) = (c', .ok ())) :
    c'.lookup key = some (storedAsKey key value) := by
  have h : c.set multiaddr key value = (c', .ok ()) := h
  unfold ReactorConfig.set at h
  split at h
  · cases h
  · next c'' hassign =>
    obtain ⟨rfl, -⟩ := Prod.mk.inj h
    exact lookup_assign hassign

/-- A command that succeeds has changed the memory and saved it. -/
theorem executeConfig_ok (h : (executeConfig multiaddr io ctx cmd).2 = .ok ()) :
    ∃ c', changeMemory multiaddr ctx.config cmd = (c', .ok ()) ∧
      (executeConfig multiaddr io ctx cmd).1.config =
        (adoptExternal multiaddr io { ctx with config := c' } true).config ∧
      ∃ mtime, (executeConfig multiaddr io ctx cmd).1.file =
        some ⟨mtime, .config (executeConfig multiaddr io ctx cmd).1.config⟩ := by
  unfold executeConfig at h ⊢
  split at h
  · cases h
  · next c' hchange =>
    rw [hchange]
    unfold persistConfig at h ⊢
    dsimp only at h ⊢
    split at h
    · next hsaved =>
      rw [if_pos hsaved]
      exact ⟨c', rfl, rfl, io.now, rfl⟩
    · cases h

/-- **When no configuration update is lost.** -/
theorem config_update_kept_iff (multiaddr : String → Except String ParsedAddr) (io : ConfigIo)
    (ctx : ConfigCtx) (cmd : ConfigCommand)
    (hok : (executeConfig multiaddr io ctx cmd).2 = .ok ()) :
    UpdateKept cmd ctx (executeConfig multiaddr io ctx cmd).1 ↔ UpdateSafe multiaddr cmd ctx := by
  obtain ⟨c', hchange, hconfig, hsaved⟩ := executeConfig_ok hok
  have hseen : ConfigCtx.seen multiaddr { ctx with config := c' } = ctx.seen multiaddr := rfl
  rw [config_adoptExternal, hseen] at hconfig
  cases hs : ctx.seen multiaddr with
  | none =>
    -- the memory is saved
    rw [hs] at hconfig
    have hmem := agreeBut_changeMemory hchange
    have hafter : (executeConfig multiaddr io ctx cmd).1.config = c' := hconfig
    constructor
    · intro h
      refine ⟨fun c hc => ?_, fun _ => ?_⟩
      · rw [hs] at hc
        cases hc
      · exact hmem.symm.trans (hafter ▸ h.others)
    · intro h
      refine ⟨hsaved, fun key value hcmd => ?_, ?_⟩
      · subst hcmd
        rw [hafter]
        exact lookup_changeMemory hchange
      · rw [hafter]
        exact hmem.trans (h.left hs)
  | some c =>
    -- the edit is saved, under the daemon's drives
    rw [hs] at hconfig
    have hafter : (executeConfig multiaddr io ctx cmd).1.config = { c with drives := c'.drives } :=
      hconfig
    constructor
    · intro h
      refine ⟨fun d hd key value hcmd => ?_, fun hnone => ?_⟩
      · obtain rfl := Option.some.inj (hs.symm.trans hd)
        have hhas := h.has key value hcmd
        rw [hafter, lookup_drives] at hhas
        exact hhas
      · rw [hs] at hnone
        cases hnone
    · intro h
      refine ⟨hsaved, fun key value hcmd => ?_, ?_⟩
      · rw [hafter, lookup_drives]
        exact h.adopted c hs key value hcmd
      · rw [hafter, edit_of_seen hs]
        exact agreeBut_drives _ c _

end

/-! ## The sample: an edit while a command is under way -/

namespace Sample

/-- Every text is a multiaddr. -/
def anyAddr (s : String) : Except String ParsedAddr := .ok ⟨s, none, none⟩

/-- All writes succeed. -/
def configIo : ConfigIo := ⟨9, .ok (), true⟩

/-- Another process has renamed the instance, at that time; the daemon last saved at time 5. -/
def officeCtx (mtime : ℕ) : ConfigCtx where
  config := .default
  lastSaveMtime := 5
  file := some ⟨mtime, .config { ReactorConfig.default with
    instance_ := { ReactorConfig.default.instance_ with name := "office" } }⟩

/-- The daemon is told to log more. -/
def setDebug : ConfigCommand := .setConfig "logLevel" (.string "debug")

end Sample

open Sample

theorem debug_succeeds : (executeConfig anyAddr configIo ⟨.default, 5, none⟩ setDebug).2 = .ok () ∧
    (executeConfig anyAddr configIo (officeCtx 7) setDebug).2 = .ok () := by
  decide +kernel

/-- Without a file there is nothing to lose. -/
theorem config_update_kept_alone :
    (executeConfig anyAddr configIo ⟨.default, 5, none⟩ setDebug).2 = .ok () ∧
      UpdateKept setDebug ⟨.default, 5, none⟩
        (executeConfig anyAddr configIo ⟨.default, 5, none⟩ setDebug).1 := by
  refine ⟨debug_succeeds.1, (config_update_kept_iff anyAddr configIo ⟨.default, 5, none⟩ setDebug
    debug_succeeds.1).mpr ⟨fun c hc => ?_, fun _ => ?_⟩⟩
  · cases hc
  · exact AgreeBut.refl _ _

/-- **A level that was set is not set**: the file, written after the last save, says `info`. -/
theorem set_is_undone :
    (executeConfig anyAddr configIo (officeCtx 7) setDebug).2 = .ok () ∧
      ¬ UpdateKept setDebug (officeCtx 7)
        (executeConfig anyAddr configIo (officeCtx 7) setDebug).1 := by
  refine ⟨debug_succeeds.2, fun h => ?_⟩
  have hhas := h.has "logLevel" (.string "debug") rfl
  have hinfo : (executeConfig anyAddr configIo (officeCtx 7) setDebug).1.config.lookup "logLevel" =
      some (.string "info") := by
    decide +kernel
  rw [hinfo] at hhas
  exact absurd (Value.string.inj (Option.some.inj hhas)) (by decide)

end PhReactor
