/-
  What the engine will have, and how the daemon keeps it to the configuration.

  Orders wait in a queue, so nothing can be said of the drives that the engine HAS.  What it will
  have once the queue is through is `pending`, and that changes with every order that is sent, and
  not when one is taken.

  1. `MatchedBut` is the invariant: under every name there will be the configured drive, or else the
     one that is awaited, and the daemon's list of names is that of the configuration.

  2. `Fits` is what an adoption needs to put everything right.  It asks nothing of the pauses, and
     nothing of the drives that the engine does not know; but where the engine knows a drive, its
     address and token must be right already, since adoption compares names only (`Fits.sync`).

  3. A save may adopt a file or not (`persistConfig_eq`), and keeps what is matched either way.

  4. `Told` is the other half: the pauses, resumes and re-syncs that were accepted are those that
     were delivered and those in the queue, in order, and each of them will find its drive.
-/
import PhReactor.Daemon.Drives

set_option linter.unusedSectionVars false

namespace PhReactor

namespace DriveCtx

section

variable (A : Addresses)

/-- The drive of a name that is configured. -/
def configured (s : DriveCtx) (name : String) : Option DriveSpec :=
  (s.drives.find? fun d => d.name == name).map (DriveConfig.spec A)

/-- The drive that the next report of a join to that name will configure. -/
def awaited (s : DriveCtx) (name : String) : Option DriveSpec :=
  (s.joins.find? fun j => j.1 == name).map fun j => ⟨A.text j.2, none, false⟩

/-- The drive that the engine will have once its queue is through. -/
def pending (s : DriveCtx) (name : String) : Option DriveSpec :=
  Lib.through (DriveOrder.on A) s.queue (s.engine.specAt A) name

/-! ## The invariant -/

/-- Under every name, one perhaps excepted, the engine will have the drive that is configured, or
    else the one that is awaited. -/
structure MatchedBut (but : Option String) (s : DriveCtx) : Prop where
  refines : ∀ n, but ≠ some n → s.pending A n = (s.configured A n).or (s.awaited A n)
  known : ∀ n, n ∈ s.engineDrives ↔ (s.configured A n).isSome = true
  distinct : (s.drives.map DriveConfig.name).Nodup
  parses : ∀ d ∈ s.drives, (A.parse d.addr).isOk = true

/-- What adoption can put right. -/
structure Fits (but : Option String) (s : DriveCtx) : Prop where
  held : ∀ n, but ≠ some n → n ∈ s.engineDrives → ∀ c, s.configured A n = some c →
    ∃ p, s.pending A n = some (c.setPaused p)
  gone : ∀ n, but ≠ some n → n ∈ s.engineDrives → s.configured A n = none → s.awaited A n = none
  apart : ∀ n, but ≠ some n → n ∉ s.engineDrives → s.configured A n = none →
    s.pending A n = s.awaited A n
  distinct : (s.drives.map DriveConfig.name).Nodup
  parses : ∀ d ∈ s.drives, (A.parse d.addr).isOk = true

/-- What was asked for was delivered, or will be. -/
structure Told (s : DriveCtx) : Prop where
  met : Lib.Met (DriveOrder.on A) DriveOrder.Reaches s.queue (s.engine.specAt A)
  told : s.accepted = s.delivered.map Prod.fst ++ s.queue.filterMap DriveOrder.asked
  reached : ∀ d ∈ s.delivered, d.2 = true

end

/-! ## Adoption -/

section

variable {A : Addresses} {s : DriveCtx} {but : Option String} {n : String}

theorem isSome_configured : (s.configured A n).isSome = true ↔ ∃ d ∈ s.drives, d.name = n := by
  unfold configured
  rw [Option.isSome_map, List.find?_isSome]
  simp only [beq_iff_eq]

theorem configured_eq_none : s.configured A n = none ↔ ∀ d ∈ s.drives, d.name ≠ n := by
  unfold configured
  rw [Option.map_eq_none_iff, List.find?_eq_none]
  simp only [beq_iff_eq, ne_eq]

/-- The drive that is found under a name has it. -/
theorem name_of_find? {d : DriveConfig} {l : List DriveConfig}
    (h : (l.find? fun d => d.name == n) = some d) : d.name = n :=
  eq_of_beq (List.find?_some (p := fun d : DriveConfig => d.name == n) h)

/-- The names that the engine was not told are those that are not configured. -/
theorem MatchedBut.configured_eq_none (h : MatchedBut A but s) :
    s.configured A n = none ↔ n ∉ s.engineDrives := by
  rw [← Option.not_isSome_iff_eq_none, h.known n]

/-- A configured drive with a good address is one that the engine can be ordered to add. -/
theorem drive?_of_parses {d : DriveConfig} (h : (A.parse d.addr).isOk = true) :
    ∃ drive, d.drive? A = some drive ∧ drive.name = d.name ∧ drive.spec A = d.spec A := by
  unfold DriveConfig.drive? DriveConfig.spec Drive.spec Addresses.canon
  cases hp : A.parse d.addr with
  | error e =>
    rw [hp] at h
    cases h
  | ok p => exact ⟨_, rfl, rfl, by rw [A.parsed _ p hp]⟩

theorem names_wanted {l : List DriveConfig} (h : ∀ d ∈ l, (A.parse d.addr).isOk = true) :
    (l.filterMap (DriveConfig.drive? A)).map Drive.name = l.map DriveConfig.name := by
  induction l with
  | nil => rfl
  | cons d l ih =>
    obtain ⟨drive, hdrive, hname, -⟩ := drive?_of_parses (h d List.mem_cons_self)
    rw [List.filterMap_cons_some hdrive, List.map_cons, List.map_cons, hname,
      ih fun d' hd' => h d' (List.mem_cons_of_mem _ hd')]

theorem find?_wanted {l : List DriveConfig} (h : ∀ d ∈ l, (A.parse d.addr).isOk = true) :
    ((l.filterMap (DriveConfig.drive? A)).find? fun d => d.name == n).map (Drive.spec A) =
      (l.find? fun d => d.name == n).map (DriveConfig.spec A) := by
  induction l with
  | nil => rfl
  | cons d l ih =>
    obtain ⟨drive, hdrive, hname, hspec⟩ := drive?_of_parses (h d List.mem_cons_self)
    rw [List.filterMap_cons_some hdrive, List.find?_cons, List.find?_cons, hname]
    cases d.name == n with
    | true => exact congrArg some hspec
    | false => exact ih fun d' hd' => h d' (List.mem_cons_of_mem _ hd')

theorem mem_newDrives {known : List String} {l : List Drive} :
    n ∈ known ++ (newDrives known l).map Drive.name ↔ n ∈ known ∨ n ∈ l.map Drive.name := by
  induction l generalizing known with
  | nil => simp [newDrives]
  | cons d l ih =>
    unfold newDrives
    rw [List.map_cons, List.mem_cons]
    split
    · next hknown =>
      rw [ih]
      constructor
      · rintro (h | h)
        · exact Or.inl h
        · exact Or.inr (Or.inr h)
      · rintro (h | rfl | h)
        · exact Or.inl h
        · exact Or.inl (by simpa using hknown)
        · exact Or.inr h
    · rw [List.map_cons, ← List.singleton_append, ← List.append_assoc, ih]
      simp [or_assoc]

/-- What the orders to add make of a name that is not known: the first wanted drive of the name. -/
theorem through_newDrives {T : String → Option DriveSpec} {known : List String} {l : List Drive} :
    Lib.through (DriveOrder.on A)
      (((newDrives known l).map EngineCommand.addDrive).map DriveOrder.plain) T n =
        if n ∈ known then T n
        else ((l.find? fun d => d.name == n).map (Drive.spec A)).or (T n) := by
  induction l generalizing T known with
  | nil => exact (ite_self _).symm
  | cons d l ih =>
    unfold newDrives
    rw [List.find?_cons]
    split
    · next hknown =>
      rw [ih]
      have hd : d.name ∈ known := by simpa using hknown
      by_cases hn : n ∈ known
      · rw [if_pos hn, if_pos hn]
      · have hne : d.name ≠ n := fun heq => hn (heq ▸ hd)
        rw [if_neg hn, if_neg hn, beq_false_of_ne hne]
    · next hknown =>
      have hd : d.name ∉ known := by simpa using hknown
      rw [List.map_cons, List.map_cons, Lib.through_cons, ih]
      by_cases hname : d.name = n
      · subst hname
        rw [if_pos (List.mem_append_right _ List.mem_cons_self), if_neg hd, beq_self_eq_true]
        exact if_pos rfl
      · have hmem : n ∈ known ++ [d.name] ↔ n ∈ known := by
          rw [List.mem_append, List.mem_singleton]
          exact or_iff_left fun h => hname h.symm
        have hskip : (DriveOrder.plain (.addDrive d)).on A n (T n) = T n := if_neg hname
        rw [beq_false_of_ne hname, hskip]
        simp only [hmem]

/-- What orders to remove make of a name. -/
theorem through_removals (l : List String) (T : String → Option DriveSpec) :
    Lib.through (DriveOrder.on A) ((l.map EngineCommand.removeDrive).map DriveOrder.plain) T n =
      if n ∈ l then none else T n := by
  rw [List.map_map, Lib.through_map_const id none, List.map_id]
  · exact fun m o hne => if_neg hne
  · exact fun m o heq => if_pos heq

/-- **What adoption makes of a name.**  A drive that the engine knows gets its pause, or goes; one
    that it does not know is added. -/
theorem pending_syncEngine (hdistinct : (s.drives.map DriveConfig.name).Nodup)
    (hparses : ∀ d ∈ s.drives, (A.parse d.addr).isOk = true) :
    (s.syncEngine A).pending A n =
      if n ∈ s.engineDrives then
        (s.configured A n).bind fun c => (s.pending A n).map (DriveSpec.setPaused c.paused)
      else (s.configured A n).or (s.pending A n) := by
  -- the names of the drives that are wanted are those of the configuration
  have hwanted : ∀ m, ((s.drives.filterMap (DriveConfig.drive? A)).map Drive.name).contains m = true
      ↔ m ∈ s.drives.map DriveConfig.name := by
    intro m
    rw [names_wanted hparses]
    simp
  have hnone : s.configured A n = none ↔ n ∉ s.drives.map DriveConfig.name := by
    rw [configured_eq_none, List.mem_map]
    push Not
    rfl
  -- a drive is stale if the engine knows it and it is not configured
  have hstale : ∀ l : List String, (∀ m, m ∈ l ↔ m ∈ s.engineDrives ∨
      m ∈ (s.drives.filterMap (DriveConfig.drive? A)).map Drive.name) →
      (n ∈ l.filter (fun m => !((s.drives.filterMap (DriveConfig.drive? A)).map
        Drive.name).contains m) ↔ n ∈ s.engineDrives ∧ s.configured A n = none) := by
    intro l hl
    rw [List.mem_filter, hl, hnone, Bool.not_eq_true', ← Bool.not_eq_true, hwanted,
      names_wanted hparses]
    constructor
    · rintro ⟨hknown | hconf, hno⟩
      · exact ⟨hknown, hno⟩
      · exact absurd hconf hno
    · rintro ⟨hknown, hno⟩
      exact ⟨Or.inl hknown, hno⟩
  have hpause : ∀ T : String → Option DriveSpec, Lib.through (DriveOrder.on A)
      ((s.drives.map fun d => EngineCommand.setPaused d.name d.paused).map DriveOrder.plain) T n =
        (s.drives.find? fun d => d.name == n).elim (T n) fun d =>
          (T n).map (DriveSpec.setPaused d.paused) := by
    intro T
    rw [List.map_map, Lib.through_map_of_nodup DriveConfig.name _ hdistinct]
    · cases hfind : s.drives.find? fun d => d.name == n with
      | none => rfl
      | some d => exact if_pos (name_of_find? hfind)
    · exact fun d o hne => if_neg hne
  unfold pending syncEngine send
  dsimp only
  rw [List.map_append, List.map_append, Lib.through_append, Lib.through_append,
    Lib.through_append]
  refine (hpause _).trans ?_
  rw [through_removals, through_newDrives, find?_wanted hparses]
  simp only [hstale _ fun m => mem_newDrives]
  unfold configured
  cases s.drives.find? fun d => d.name == n with
  | none => by_cases hn : n ∈ s.engineDrives <;> simp [hn]
  | some d =>
    by_cases hn : n ∈ s.engineDrives
    · simp only [hn, Option.map_some, reduceCtorEq, and_false, ↓reduceIte, Option.elim_some,
        Option.bind_some]
      rfl
    · simp only [hn, Option.map_some, reduceCtorEq, and_self, ↓reduceIte, Option.some_or,
        Option.elim_some, Option.some.injEq]
      rfl

/-- The daemon's list is that of the configuration. -/
theorem mem_engineDrives_syncEngine (hparses : ∀ d ∈ s.drives, (A.parse d.addr).isOk = true) :
    n ∈ (s.syncEngine A).engineDrives ↔ (s.configured A n).isSome = true := by
  rw [isSome_configured]
  unfold syncEngine send
  dsimp only
  rw [List.mem_filter, mem_newDrives, names_wanted hparses]
  simp only [List.contains_iff_mem, List.mem_map]
  exact ⟨fun h => h.2, fun h => ⟨Or.inr h, h⟩⟩

/-- **Adoption puts everything right.** -/
theorem Fits.sync (h : Fits A but s) : MatchedBut A but (s.syncEngine A) where
  refines n hbut := by
    have hconf : (s.syncEngine A).configured A n = s.configured A n := rfl
    have hawaited : (s.syncEngine A).awaited A n = s.awaited A n := rfl
    rw [pending_syncEngine h.distinct h.parses, hconf, hawaited]
    cases hc : s.configured A n with
    | none =>
      split
      · next hknown => rw [h.gone n hbut hknown hc]; rfl
      · next hknown => rw [Option.none_or, Option.none_or, h.apart n hbut hknown hc]
    | some c =>
      split
      · next hknown =>
        obtain ⟨p, hp⟩ := h.held n hbut hknown c hc
        rw [hp]
        rfl
      · rfl
  known n := mem_engineDrives_syncEngine h.parses
  distinct := h.distinct
  parses := h.parses

theorem MatchedBut.fits (h : MatchedBut A but s) : Fits A but s where
  held n hbut _ c hc := ⟨c.paused, by rw [h.refines n hbut, hc]; rfl⟩
  gone n _ hknown hnone := absurd hknown (h.configured_eq_none.mp hnone)
  apart n hbut _ hnone := by rw [h.refines n hbut, hnone, Option.none_or]
  distinct := h.distinct
  parses := h.parses

/-! ## Saves -/

/-- What the rest of a configuration holds is not about the drives. -/
theorem MatchedBut.withCfg (h : MatchedBut A but s) {cfg : ConfigCtx}
    (hdrives : cfg.config.drives = s.drives) : MatchedBut A but { s with cfg } := by
  have hconf : ∀ n, ({ s with cfg } : DriveCtx).configured A n = s.configured A n := by
    intro n
    show Option.map _ (cfg.config.drives.find? _) = _
    rw [hdrives]
    rfl
  refine ⟨fun n hbut => ?_, fun n => ?_, ?_, ?_⟩
  · rw [hconf]
    exact h.refines n hbut
  · rw [hconf]
    exact h.known n
  · show (cfg.config.drives.map _).Nodup
    rw [hdrives]
    exact h.distinct
  · show ∀ d ∈ cfg.config.drives, _
    rw [hdrives]
    exact h.parses

theorem syncEngine_withCfg {cfg : ConfigCtx} (hdrives : cfg.config.drives = s.drives) :
    ({ s with cfg } : DriveCtx).syncEngine A = { s.syncEngine A with cfg } := by
  unfold drives at hdrives
  unfold syncEngine send drives
  dsimp only
  rw [hdrives]

theorem drives_adoptExternal (io : ConfigIo) (cfg : ConfigCtx) :
    (PhReactor.adoptExternal A.parse io cfg true).config.drives = cfg.config.drives := by
  rw [config_adoptExternal]
  cases cfg.seen A.parse <;> rfl

/-- **What a save does**: the drives stay, and a newer file lets the engine be synced. -/
theorem persistConfig_eq (A : Addresses) (io : ConfigIo) (s : DriveCtx) :
    ∃ cfg : ConfigCtx, cfg.config.drives = s.drives ∧ s.persistConfig A io =
      ({ (if (s.cfg.seen A.parse).isSome then s.syncEngine A else s) with cfg },
        if io.saved then .ok () else .error .io) := by
  have hdrives := drives_adoptExternal (A := A) io s.cfg
  have hadopt : s.adoptExternal A io true =
      { (if (s.cfg.seen A.parse).isSome then s.syncEngine A else s) with
        cfg := PhReactor.adoptExternal A.parse io s.cfg true } := by
    unfold adoptExternal
    dsimp only
    split
    · exact syncEngine_withCfg hdrives
    · rfl
  generalize PhReactor.adoptExternal A.parse io s.cfg true = cfg at hdrives hadopt
  unfold persistConfig
  rw [hadopt]
  by_cases hsaved : io.saved = true
  · rw [if_pos hsaved, if_pos hsaved]
    exact ⟨{ cfg with file := some ⟨io.now, .config cfg.config⟩, lastSaveMtime := io.now },
      hdrives, rfl⟩
  · rw [if_neg hsaved, if_neg hsaved]
    exact ⟨cfg, hdrives, rfl⟩

theorem configured_persist (io : ConfigIo) :
    (s.persistConfig A io).1.configured A n = s.configured A n := by
  obtain ⟨cfg, hdrives, heq⟩ := persistConfig_eq A io s
  rw [heq]
  show Option.map _ (cfg.config.drives.find? _) = _
  rw [hdrives]
  rfl

/-- A save keeps what is matched. -/
theorem MatchedBut.persist (h : MatchedBut A but s) (io : ConfigIo) :
    MatchedBut A but (s.persistConfig A io).1 := by
  obtain ⟨cfg, hdrives, heq⟩ := persistConfig_eq A io s
  rw [heq]
  split
  · exact h.fits.sync.withCfg hdrives
  · exact h.withCfg hdrives

/-- A save that adopts a newer file puts right what adoption can. -/
theorem Fits.persist (h : Fits A but s) (hseen : (s.cfg.seen A.parse).isSome = true)
    (io : ConfigIo) : MatchedBut A but (s.persistConfig A io).1 := by
  obtain ⟨cfg, hdrives, heq⟩ := persistConfig_eq A io s
  rw [heq, if_pos hseen]
  exact h.sync.withCfg hdrives

/-! ## Orders -/

theorem Told.send (h : Told A s) (commands : List EngineCommand) : Told A (s.send commands) where
  met := Lib.met_append.mpr ⟨h.met, Lib.met_of_forall fun o ho T name hname => by
    obtain ⟨c, -, rfl⟩ := List.mem_map.mp ho
    cases hname⟩
  told := by
    have hplain : (commands.map DriveOrder.plain).filterMap DriveOrder.asked = [] := by
      rw [List.filterMap_map]
      exact List.filterMap_eq_nil_iff.mpr fun c _ => rfl
    show s.accepted = _ ++ (s.queue ++ _).filterMap DriveOrder.asked
    rw [List.filterMap_append, hplain, List.append_nil]
    exact h.told
  reached := h.reached

/-- What is asked of a drive that the engine will have is delivered to it. -/
theorem Told.sendFor (h : Told A s) {command : EngineCommand} {name : String}
    (htarget : command.target? = some name) (hthere : (s.pending A name).isSome = true) :
    Told A (s.sendFor name command) where
  met := Lib.met_append.mpr ⟨h.met, fun m hm => by
    obtain rfl := Option.some.inj hm
    exact ⟨htarget, hthere⟩, trivial⟩
  told := by
    show s.accepted ++ [name] =
      s.delivered.map Prod.fst ++ (s.queue ++ _).filterMap DriveOrder.asked
    rw [List.filterMap_append, ← List.append_assoc, ← h.told]
    rfl
  reached := h.reached

/-- Neither the configuration nor the daemon's list has a part in what is told. -/
theorem Told.withNames (h : Told A s) (cfg : ConfigCtx) (engineDrives : List String)
    (joins : List (String × Multiaddr)) : Told A { s with cfg, engineDrives, joins } :=
  ⟨h.met, h.told, h.reached⟩

theorem Told.sync (h : Told A s) : Told A (s.syncEngine A) :=
  (h.withNames s.cfg _ s.joins).send _

theorem Told.persist (h : Told A s) (io : ConfigIo) : Told A (s.persistConfig A io).1 := by
  obtain ⟨cfg, -, heq⟩ := persistConfig_eq A io s
  rw [heq]
  split
  · exact h.sync.withNames cfg _ _
  · exact h.withNames cfg _ _

/-- An order about one name puts that name right. -/
theorem MatchedBut.order {m : String} (h : MatchedBut A (some m) s) {o : DriveOrder}
    (accepted : List String) (hskip : ∀ n e, n ≠ m → o.on A n e = e)
    (hact : o.on A m (s.pending A m) = (s.configured A m).or (s.awaited A m)) :
    MatchedBut A none { s with queue := s.queue ++ [o], accepted } where
  refines n _ := by
    have hpending : ({ s with queue := s.queue ++ [o], accepted } : DriveCtx).pending A n =
        o.on A n (s.pending A n) := by
      unfold pending
      dsimp only
      rw [Lib.through_append]
      rfl
    rw [hpending]
    by_cases hn : n = m
    · subst hn
      exact hact
    · rw [hskip n _ hn]
      exact h.refines n fun heq => hn (Option.some.inj heq).symm
  known := h.known
  distinct := h.distinct
  parses := h.parses

theorem MatchedBut.weaken (h : MatchedBut A none s) (but : Option String) : MatchedBut A but s :=
  ⟨fun n _ => h.refines n (by simp), h.known, h.distinct, h.parses⟩

theorem MatchedBut.fill {m : String} (h : MatchedBut A (some m) s)
    (hm : s.pending A m = (s.configured A m).or (s.awaited A m)) : MatchedBut A none s where
  refines n _ := by
    by_cases hn : m = n
    · exact hn ▸ hm
    · exact h.refines n (by simpa using hn)
  known := h.known
  distinct := h.distinct
  parses := h.parses

end

end DriveCtx

end PhReactor
