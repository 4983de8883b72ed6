/-
  Runs of the daemon and its engine: when the drives of the engine are those of the configuration.

  1. Beside the commands there are the edits of the file, the joins, and the engine's own turns.
     `Careful` lists what breaks the invariant.  The engine is sent a name as it was typed; what
     cannot be saved has changed the memory all the same; an edit of an address or a token reaches
     no engine; and a drive that a joiner is given may replace another, or be removed before the
     daemon has heard of it.

  2. Every careful turn keeps what is matched and told (`Kept.step`).

  3. So whenever the queue of a careful run is empty, the engine has exactly the configured drives
     and those it has yet to report, and what was asked for has reached its drive
     (`engine_in_step`).
-/
import PhReactor.Daemon.DriveCommands
import PhReactor.Lib.CarefulRun

set_option linter.unusedSectionVars false

namespace PhReactor

namespace DriveCtx

section

variable (A : Addresses)

/-- **The engine is in step.**  When its queue is empty, it has under every name the drive that is
    configured, or else the one it has reported; and the pauses, resumes and re-syncs that were
    accepted have been taken, each by the drive that was named. -/
structure InStep (s : DriveCtx) : Prop where
  refines : s.queue = [] → ∀ name,
    s.engine.specAt A name = (s.configured A name).or (s.awaited A name)
  delivered : s.queue = [] → s.delivered.map Prod.fst = s.accepted
  reached : ∀ d ∈ s.delivered, d.2 = true

/-! ## Careful turns -/

/-- The file that is adopted has its drives under different names, leaves the address and the token
    of the drives that stay, and drops none that is awaited. -/
structure Adoptable (s : DriveCtx) (c : ReactorConfig) : Prop where
  distinct : (c.drives.map DriveConfig.name).Nodup
  kept : ∀ d ∈ c.drives, ∀ old ∈ s.drives, old.name = d.name →
    A.canon old.addr = A.canon d.addr ∧ old.tokenEnv = d.tokenEnv
  dropped : ∀ old ∈ s.drives, old.name ∉ c.drives.map DriveConfig.name →
    s.awaited A old.name = none

/-- What the queue makes of a joiner's drive is what is configured under its name, or what will be
    once the join is reported. -/
def Welcome (s : DriveCtx) (d : Drive) : Prop :=
  Lib.through (DriveOrder.on A) s.queue (fun _ => some (d.spec A)) d.name =
    some (((s.configured A d.name).or (s.awaited A d.name)).getD (d.spec A))

variable [Primitives]

/-- The condition on a turn. -/
def Careful (s : DriveCtx) : DriveTurn → Prop
  | .command io cmd => s.CarefulCommand A io cmd
  | .resync name => s.CarefulResync name
  | .join io invite => s.CarefulJoin A io invite
  | .tick _ => ∀ c, s.cfg.seen A.parse = some c → s.Adoptable A c
  | .engine x => ∀ j, s.engine.joinOf x = some j → s.Welcome A (Engine.joinerDrive j.1 j.2)
  | _ => True

end

section

variable {A : Addresses} {s : DriveCtx} {n : String}

/-! ## Reports of joins -/

theorem awaited_tail {j : String × Multiaddr} {rest : List (String × Multiaddr)}
    (hjoins : s.joins = j :: rest) (hn : j.1 ≠ n) :
    ({ s with joins := rest } : DriveCtx).awaited A n = s.awaited A n := by
  unfold awaited
  rw [hjoins, List.find?_cons_of_neg]
  simpa using hn

/-- **The daemon hears of a join**: what was awaited is configured. -/
theorem Kept.onDriveJoined (h : Kept A s) {j : String × Multiaddr}
    {rest : List (String × Multiaddr)} (hjoins : s.joins = j :: rest) (io : ConfigIo) :
    Kept A (({ s with joins := rest } : DriveCtx).onDriveJoined A io j.1 j.2) := by
  have htold : Told A { s with joins := rest } := h.told.withNames _ _ _
  have hbut : MatchedBut A (some j.1) { s with joins := rest } := by
    refine ⟨fun n hn => ?_, h.matched.known, h.matched.distinct, h.matched.parses⟩
    rw [awaited_tail hjoins fun heq => hn (congrArg some heq)]
    exact h.matched.refines n (by simp)
  have hhead : s.awaited A j.1 = some ⟨A.text j.2, none, false⟩ := by
    unfold awaited
    rw [hjoins, List.find?_cons_of_pos (by simp)]
    rfl
  have hat := h.matched.refines j.1 (by simp)
  unfold DriveCtx.onDriveJoined
  split
  · next hany =>
    replace hany : (s.drives.any fun d => d.name == j.1) = true := hany
    have hsome : (s.configured A j.1).isSome = true :=
      isSome_configured.mpr (by simpa using hany)
    refine ⟨⟨fun n _ => ?_, hbut.known, hbut.distinct, hbut.parses⟩, htold⟩
    by_cases hn : j.1 = n
    · subst hn
      refine hat.trans ?_
      show _ = (s.configured A j.1).or _
      cases hc : s.configured A j.1 with
      | none =>
        rw [hc] at hsome
        cases hsome
      | some c => rfl
    · exact hbut.refines n (by simpa using hn)
  · next hany =>
    replace hany : ¬ (s.drives.any fun d => d.name == j.1) = true := hany
    have hnew : ∀ c ∈ s.drives, c.name ≠ j.1 := by simpa using hany
    have hadd := MatchedBut.addConfigured (d := ⟨j.1, j.2, none, false, true⟩) hbut hnew
    refine Kept.persist ⟨⟨fun n _ => ?_, hadd.known, hadd.distinct, hadd.parses⟩,
      htold.withNames _ _ _⟩ io
    by_cases hn : j.1 = n
    · subst hn
      have hnone : ({ s with joins := rest } : DriveCtx).configured A j.1 = none :=
        configured_eq_none.mpr hnew
      rw [configured_addConfigured, hnone, if_pos rfl]
      refine hat.trans ?_
      rw [hhead, show s.configured A j.1 = none from hnone]
      rfl
    · exact hadd.refines n (by simpa using hn)

/-! ## Edits of the file -/

theorem validateDrives_ok {l : List DriveConfig} (h : validateDrives A.parse l = .ok ()) :
    ∀ d ∈ l, (A.parse d.addr).isOk = true := by
  induction l with
  | nil => exact List.forall_mem_nil _
  | cons d l ih =>
    unfold validateDrives at h
    split at h
    · cases h
    · split at h
      · cases h
      · next p hp => exact List.forall_mem_cons.mpr ⟨by rw [hp]; rfl, ih h⟩

theorem parses_of_validate {c : ReactorConfig} (h : (c.validate A.parse).isOk = true) :
    ∀ d ∈ c.drives, (A.parse d.addr).isOk = true := by
  unfold ReactorConfig.validate at h
  split at h
  · cases h
  · split at h
    · cases h
    · split at h
      · cases h
      · next hdrives => exact validateDrives_ok hdrives

theorem validate_of_seen {cfg : ConfigCtx} {c : ReactorConfig} (h : cfg.seen A.parse = some c) :
    (c.validate A.parse).isOk = true := by
  obtain ⟨config, last, file⟩ := cfg
  rcases file with _ | ⟨mtime, c' | _ | _⟩
  · cases h
  · replace h : (if last < mtime ∧ (c'.validate A.parse).isOk then some c' else none) = some c := h
    split at h
    · next hseen =>
      rw [← Option.some.inj h]
      exact hseen.2
    · cases h
  · cases h
  · cases h

/-- The drives of a file, before they are ordered. -/
theorem Adoptable.fits {c : ReactorConfig} (ha : s.Adoptable A c) (h : MatchedBut A none s)
    (hparses : ∀ d ∈ c.drives, (A.parse d.addr).isOk = true) {cfg : ConfigCtx}
    (hcfg : cfg.config = c) : Fits A none { s with cfg } where
  held n _ hn e he := by
    obtain ⟨d, hd, rfl⟩ := Option.map_eq_some_iff.mp he
    replace hd : (cfg.config.drives.find? fun d => d.name == n) = some d := hd
    rw [hcfg] at hd
    have hname := name_of_find? hd
    -- the engine has the drive as it was configured before
    obtain ⟨old, hold⟩ := Option.isSome_iff_exists.mp ((h.known n).mp hn)
    obtain ⟨o, ho, rfl⟩ := Option.map_eq_some_iff.mp hold
    have honame := name_of_find? ho
    obtain ⟨haddr, htoken⟩ := ha.kept d (List.mem_of_find?_eq_some hd) o
      (List.mem_of_find?_eq_some ho) (honame.trans hname.symm)
    refine ⟨o.paused, ?_⟩
    show s.pending A n = _
    rw [h.refines n (by simp), hold]
    unfold DriveConfig.spec DriveSpec.setPaused
    rw [haddr, htoken]
    rfl
  gone n _ hn hnone := by
    obtain ⟨o, ho, rfl⟩ := isSome_configured.mp ((h.known n).mp hn)
    refine ha.dropped o ho fun hmem => ?_
    obtain ⟨d, hd, hname⟩ := List.mem_map.mp hmem
    rw [← hcfg] at hd
    exact configured_eq_none.mp hnone d hd hname
  apart n _ hn _ := by
    show s.pending A n = s.awaited A n
    rw [h.refines n (by simp), h.configured_eq_none.mpr hn, Option.none_or]
  distinct := by
    show (cfg.config.drives.map DriveConfig.name).Nodup
    rw [hcfg]
    exact ha.distinct
  parses := by
    show ∀ d ∈ cfg.config.drives, _
    rw [hcfg]
    exact hparses

/-- **The clock ticks**: a newer file is adopted, drives and all. -/
theorem Kept.tick [Primitives] (h : Kept A s) {io : ConfigIo}
    (hcareful : s.Careful A (.tick io)) : Kept A (s.adoptExternal A io false) := by
  have hconfig : (PhReactor.adoptExternal A.parse io s.cfg false).config = _ :=
    config_adoptExternal
  unfold DriveCtx.adoptExternal
  dsimp only
  cases hseen : s.cfg.seen A.parse with
  | none =>
    rw [hseen] at hconfig
    exact h.withCfg (congrArg ReactorConfig.drives hconfig)
  | some c =>
    rw [hseen] at hconfig
    have hfits := (hcareful c hseen).fits h.matched
      (parses_of_validate (validate_of_seen hseen)) hconfig
    exact ⟨hfits.sync, (h.told.withNames _ _ _).sync⟩

/-! ## The engine's turns -/

section

variable [Primitives]

/-- **The engine takes an order**, and has then what it was to have. -/
theorem Kept.take (h : Kept A s) {env : Env} {s' : DriveCtx} (htake : s.take env = some s') :
    Kept A s' := by
  unfold DriveCtx.take at htake
  split at htake
  · cases htake
  · next o rest hqueue =>
    split at htake
    swap
    · cases htake
    obtain rfl := Option.some.inj htake
    have hspec : (s.engine.turn env (.cmd o.command)).1.specAt A =
        fun n => o.on A n (s.engine.specAt A n) :=
      funext fun n => specAt_handleCmd A env s.engine o.command n
    have hmet := h.told.met
    rw [hqueue] at hmet
    refine ⟨⟨fun n _ => ?_, h.matched.known, h.matched.distinct, h.matched.parses⟩, ?_, ?_, ?_⟩
    · refine Eq.trans ?_ (h.matched.refines n (by simp))
      unfold pending
      rw [hqueue, Lib.through_cons]
      dsimp only
      rw [hspec]
    · dsimp only
      rw [hspec]
      exact hmet.2
    · have htold := h.told.told
      rw [hqueue] at htold
      dsimp only
      rw [htold, List.map_append, List.append_assoc]
      refine congrArg (List.map Prod.fst s.delivered ++ ·) ?_
      rw [List.filterMap_cons]
      cases o.asked <;> rfl
    · intro d hd
      rcases List.mem_append.mp hd with hd | hd
      · exact h.told.reached d hd
      · obtain ⟨n, hn, rfl⟩ := List.mem_map.mp hd
        obtain ⟨htarget, hthere⟩ := hmet.1 n (Option.mem_toList.mp hn)
        unfold Engine.specAt at hthere
        rw [Option.isSome_map, Engine.isSome_driveAt] at hthere
        unfold Engine.reaches
        rw [htarget, hthere]
        simp

/-- A join that is reported is awaited. -/
theorem awaited_append {j : String × Multiaddr} {engine : Engine} :
    ({ s with engine, joins := s.joins ++ [j] } : DriveCtx).awaited A n =
      (s.awaited A n).or (if j.1 = n then some ⟨A.text j.2, none, false⟩ else none) := by
  unfold awaited
  rw [List.find?_append, List.find?_singleton]
  by_cases hn : j.1 = n
  · rw [if_pos (by simpa using hn), if_pos hn]
    cases s.joins.find? fun j => j.1 == n <;> rfl
  · rw [if_neg (by simpa using hn), if_neg hn, Option.or_none, Option.or_none]

/-- **The engine's loop turns.**  A drive that it adds for a joiner is awaited from then on. -/
theorem Kept.engine (h : Kept A s) {x : Env × Engine.Input} (hcmd : x.2.isCmd = false)
    (hcareful : s.Careful A (.engine x)) :
    Kept A { s with
      engine := (s.engine.step x).1
      joins := s.joins ++ (s.engine.step x).2.filterMap joined? } := by
  rw [Engine.joined_step]
  have hother : ∀ n, (∀ j, s.engine.joinOf x = some j → (Engine.joinerDrive j.1 j.2).name ≠ n) →
      (s.engine.step x).1.specAt A n = s.engine.specAt A n := fun n hn =>
    congrArg (Option.map (Drive.spec A)) (Engine.driveAt_step_of_other hcmd hn)
  -- what was there is still there, so the orders find it
  have htold : ∀ joins, Told A { s with engine := (s.engine.step x).1, joins } := by
    refine fun joins => ⟨h.told.met.mono ?_ ?_ fun n hn => ?_, h.told.told, h.told.reached⟩
    · exact fun o T T' hle hmet n hn => ⟨(hmet n hn).1, hle n (hmet n hn).2⟩
    · exact fun o n e e' hle => isSome_on A hle
    · by_cases hj : ∃ j, s.engine.joinOf x = some j ∧ (Engine.joinerDrive j.1 j.2).name = n
      · obtain ⟨j, hj, rfl⟩ := hj
        unfold Engine.specAt
        rw [Engine.driveAt_step_of_join hj]
        rfl
      · push Not at hj
        rw [hother n hj]
        exact hn
  cases hj : s.engine.joinOf x with
  | none =>
    refine ⟨⟨fun n _ => ?_, h.matched.known, h.matched.distinct, h.matched.parses⟩, htold _⟩
    refine Eq.trans ?_ ((h.matched.refines n (by simp)).trans ?_)
    · exact Lib.through_congr (hother n fun j hj' => by rw [hj] at hj'; cases hj')
    · show _ = (s.configured A n).or (Option.map _ ((s.joins ++ []).find? _))
      rw [List.append_nil]
      rfl
  | some j =>
    have hwelcome := hcareful j hj
    refine ⟨⟨fun n _ => ?_, h.matched.known, h.matched.distinct, h.matched.parses⟩, htold _⟩
    refine Eq.trans ?_ (congrArg (Option.or (s.configured A n)) awaited_append.symm)
    by_cases hn : (Engine.joinerDrive j.1 j.2).name = n
    · subst hn
      rw [if_pos rfl]
      refine Eq.trans (Lib.through_congr ?_) (hwelcome.trans ?_)
      · unfold Engine.specAt
        rw [Engine.driveAt_step_of_join hj]
        rfl
      · cases s.configured A (Engine.joinerDrive j.1 j.2).name with
        | none =>
          cases s.awaited A (Engine.joinerDrive j.1 j.2).name <;> rfl
        | some c => rfl
    · rw [if_neg hn, Option.or_none, ← h.matched.refines n (by simp)]
      refine Lib.through_congr (hother n fun j' hj' => ?_)
      rw [hj] at hj'
      obtain rfl := Option.some.inj hj'
      exact hn

end

/-! ## Runs -/

section

variable [Primitives]

/-- The engine is ordered to add what is configured. -/
theorem kept_start {cfg : ConfigCtx} {engine : Engine} (hfresh : engine.drives = ∅)
    (hvalid : (cfg.config.validate A.parse).isOk = true)
    (hdistinct : (cfg.config.drives.map DriveConfig.name).Nodup) :
    Kept A (start A cfg engine) := by
  have hparses := parses_of_validate hvalid
  have hnone : ∀ n, engine.specAt A n = none := by
    intro n
    unfold Engine.specAt Engine.driveAt
    rw [hfresh, Std.ExtTreeMap.getElem?_empty]
    rfl
  refine ⟨⟨fun n _ => ?_, fun n => ?_, hdistinct, hparses⟩,
    ⟨Lib.met_of_forall fun o ho T name hname => ?_, ?_, List.forall_mem_nil _⟩⟩
  · refine Eq.trans ?_ (Option.or_none.symm)
    unfold pending start
    dsimp only
    rw [Lib.through_map_of_nodup Drive.name, hnone]
    · refine Eq.trans ?_ (find?_wanted (l := cfg.config.drives) hparses)
      cases hfind : (cfg.config.drives.filterMap (DriveConfig.drive? A)).find?
          fun d => d.name == n with
      | none => rfl
      | some d => exact if_pos (by simpa using List.find?_some hfind)
    · exact fun d o hne => if_neg hne
    · rw [names_wanted hparses]
      exact hdistinct
  · rw [isSome_configured]
    show n ∈ (cfg.config.drives.filterMap (DriveConfig.drive? A)).map Drive.name ↔ _
    rw [names_wanted hparses, List.mem_map]
    rfl
  · obtain ⟨d, -, rfl⟩ := List.mem_map.mp ho
    cases hname
  · refine (List.filterMap_eq_nil_iff.mpr fun o ho => ?_).symm
    obtain ⟨d, -, rfl⟩ := List.mem_map.mp ho
    rfl

/-- **Step lemma**: a careful turn keeps the invariant. -/
theorem Kept.step (h : Kept A s) {turn : DriveTurn} (hcareful : s.Careful A turn) {s' : DriveCtx}
    (hstep : s.step A turn = some s') : Kept A s' := by
  cases turn with
  | command io cmd =>
    rw [← Option.some.inj hstep]
    exact h.executeCommand hcareful
  | resync name =>
    rw [← Option.some.inj hstep]
    exact h.resyncDrive hcareful
  | join io invite =>
    rw [← Option.some.inj hstep]
    exact h.join hcareful
  | edit file =>
    rw [← Option.some.inj hstep]
    exact h.withCfg rfl
  | tick io =>
    rw [← Option.some.inj hstep]
    exact h.tick hcareful
  | event io =>
    unfold DriveCtx.step at hstep
    dsimp only at hstep
    split at hstep
    · cases hstep
    · next j rest hjoins =>
      rw [← Option.some.inj hstep]
      exact h.onDriveJoined hjoins io
  | take env => exact h.take hstep
  | engine x =>
    unfold DriveCtx.step at hstep
    dsimp only at hstep
    cases hcmd : x.2.isCmd with
    | true =>
      rw [hcmd] at hstep
      cases hstep
    | false =>
      rw [hcmd] at hstep
      rw [← Option.some.inj hstep]
      exact h.engine hcmd hcareful

/-- An empty queue has nothing to wait for. -/
theorem Kept.inStep (h : Kept A s) : InStep A s where
  refines hempty name := by
    rw [← h.matched.refines name (by simp)]
    unfold pending
    rw [hempty, Lib.through_nil]
  delivered hempty := by
    rw [h.told.told, hempty]
    exact (List.append_nil _).symm
  reached := h.told.reached

/-- **The engine's drives are those of the configuration**, in every state of a run that starts
    with a valid configuration of drives with different names, and whose turns are all careful. -/
theorem engine_in_step (A : Addresses) {cfg : ConfigCtx} {engine : Engine}
    {turns : List DriveTurn} {s : DriveCtx} (hfresh : engine.drives = ∅)
    (hvalid : (cfg.config.validate A.parse).isOk = true)
    (hdistinct : (cfg.config.drives.map DriveConfig.name).Nodup)
    (h : Lib.CarefulRun (DriveCtx.step A) (Careful A) (start A cfg engine) turns s) :
    InStep A s := by
  have hkept : Kept A s := Lib.CarefulRun.invariant (I := fun _ s => Kept A s)
    (kept_start hfresh hvalid hdistinct) (fun _ _ _ _ h hcareful hstep => h.step hcareful hstep) h
  exact hkept.inStep

end

end

end DriveCtx

/-! ## A drive whose name is typed in another case -/

section

open Sample

attribute [local instance] Sample.primitives

namespace DriveCtx

def printedPart : Protocol → String
  | .p2p peer => "/p2p/" ++ peer
  | .other text => text

/-- Addresses as texts. -/
def plainAddresses : Addresses where
  parse := anyAddr
  components s := [.other s]
  text a := a.foldr (fun part rest => printedPart part ++ rest) ""
  peerId s := .ok s
  parsed s p h := by
    rw [← Except.ok.inj h]
    exact String.append_empty
  printed _ := ⟨_, rfl, rfl⟩

/-- A vault is configured, and nothing is on disk. -/
def vaultCtx : ConfigCtx where
  config := { ReactorConfig.default with
    drives := [⟨"vault", "/ip4/10.0.0.7/udp/4001/quic-v1", none, false, true⟩] }
  lastSaveMtime := 5
  file := none

def vaultEngine : Engine := Engine.aliceOver (Store.fresh alice.key alice.name [])

/-- The vault is seeded. -/
def vaultStart : DriveCtx := start plainAddresses vaultCtx vaultEngine

/-- The engine adds the vault, then takes what the user asks of it. -/
def asked (turns : List DriveTurn) : List DriveTurn :=
  .take Engine.calmEnv :: turns.flatMap fun turn => [turn, .take Engine.calmEnv]

/-- A check that is stricter than the condition. -/
def calm (s : DriveCtx) : DriveTurn → Bool
  | .take _ => true
  | .command io (.pauseDrive name) => io.saved && s.drives.all fun d => d.name == name
  | .resync name => s.drives.any fun d => d.name == name
  | _ => false

theorem careful_of_calm (s : DriveCtx) (turn : DriveTurn) (h : s.calm turn = true) :
    s.Careful plainAddresses turn := by
  cases turn with
  | take env => trivial
  | command io cmd =>
    cases cmd with
    | pauseDrive name =>
      obtain ⟨hsaved, hall⟩ := (Bool.and_eq_true _ _).mp h
      exact fun d hd => Or.inl ⟨hsaved,
        beq_iff_eq.mp (List.all_eq_true.mp hall d (List.mem_of_find?_eq_some hd))⟩
    | _ => cases h
  | resync name =>
    obtain ⟨d, hd, hname⟩ := List.any_eq_true.mp h
    exact fun _ => ⟨d, hd, beq_iff_eq.mp hname⟩
  | _ => cases h

/-- The vault is paused and re-synced by its own name. -/
def vaultTurns : List DriveTurn :=
  asked [.command configIo (.pauseDrive "vault"), .resync "vault"]

theorem vaultTurns_possible : ((vaultTurns.foldlM (fun (s : DriveCtx) turn =>
      if s.calm turn then s.step plainAddresses turn else none) vaultStart).map fun s =>
    (s.queue.isEmpty, s.configured plainAddresses "vault")) =
      some (true, some ⟨"/ip4/10.0.0.7/udp/4001/quic-v1", none, true⟩) := by
  decide +kernel

/-- The vault is paused in the engine as it is in the configuration. -/
theorem vault_in_step : ∃ s, Lib.CarefulRun (DriveCtx.step plainAddresses)
      (Careful plainAddresses) vaultStart vaultTurns s ∧
    s.engine.specAt plainAddresses "vault" =
      some ⟨"/ip4/10.0.0.7/udp/4001/quic-v1", none, true⟩ := by
  obtain ⟨s, hs, hfacts⟩ := Option.map_eq_some_iff.mp vaultTurns_possible
  obtain ⟨hempty, hconf⟩ := Prod.mk.inj hfacts
  have hrun := Lib.CarefulRun.of_guarded careful_of_calm hs
  have hstep : InStep plainAddresses s :=
    engine_in_step plainAddresses rfl (by decide +kernel) (by decide +kernel) hrun
  refine ⟨s, hrun, ?_⟩
  rw [hstep.refines (List.isEmpty_iff.mp hempty), hconf]
  rfl

/-- The user types the name of the vault in another case. -/
def vaultTyped : List DriveTurn := asked [.command configIo (.pauseDrive "Vault")]

theorem vaultTyped_reached : ((vaultTyped.foldlM (DriveCtx.step plainAddresses) vaultStart).map
    fun s => (s.delivered, s.queue.isEmpty, s.joins.isEmpty, s.configured plainAddresses "vault",
      s.engine.specAt plainAddresses "vault")) =
    some ([("vault", false)], true, true,
      some ⟨"/ip4/10.0.0.7/udp/4001/quic-v1", none, true⟩,
      some ⟨"/ip4/10.0.0.7/udp/4001/quic-v1", none, false⟩) := by
  decide +kernel

/-- **The vault is paused in the configuration and not in the engine.** -/
theorem pause_misses_drive :
    ¬ ∀ (A : Addresses) (cfg : ConfigCtx) (engine : Engine) (turns : List DriveTurn)
      (s : DriveCtx), engine.drives = ∅ → (cfg.config.validate A.parse).isOk = true →
      (cfg.config.drives.map DriveConfig.name).Nodup →
      Lib.CarefulRun (DriveCtx.step A) (fun _ _ => True) (start A cfg engine) turns s →
      InStep A s := by
  intro h
  obtain ⟨s, hs, hfacts⟩ := Option.map_eq_some_iff.mp vaultTyped_reached
  have hstep : InStep plainAddresses s := h plainAddresses vaultCtx vaultEngine vaultTyped s
    rfl (by decide +kernel) (by decide +kernel)
    (Lib.CarefulRun.of_foldlM hs fun _ _ _ => trivial)
  have hreached := hstep.reached ("vault", false)
    (by rw [(Prod.mk.inj hfacts).1]; exact List.mem_cons_self)
  cases hreached

end DriveCtx

end

end PhReactor
