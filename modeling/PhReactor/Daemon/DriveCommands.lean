/-
  The drive commands: when they leave the engine to become what the configuration says.

  1. A command changes the configuration and the daemon's list first.  What that leaves is a state
     of its own (`MatchedBut.addConfigured`, `Removed`, `Paused`).  The save after it is the same
     for all commands, and then an order puts right the one name that is not.

  2. `CarefulAdd`, `CarefulRemove` and `CarefulPause` are the conditions.  A drive that is kept and
     cannot be saved is not ordered.  A removal takes one drive out of the configuration and all of
     the name out of the engine.  A pause is sent to the name as it was typed.

  3. `Kept` is the invariant with what is told; `Kept.executeCommand` and `Kept.join` keep it.
-/
import PhReactor.Daemon.DriveSync

set_option linter.unusedSectionVars false

namespace PhReactor

namespace DriveCtx

section

variable (A : Addresses)

/-- A drive that is added is saved, or else the engine has added it itself. -/
def CarefulAdd (io : ConfigIo) (s : DriveCtx) (d : Drive) : Prop :=
  io.saved = true ∨ s.awaited A d.name = some (d.spec A)

/-- The drive that goes is not awaited, and is the only one of the name, or else a newer file is
    adopted. -/
def CarefulRemove (s : DriveCtx) (name : String) : Prop :=
  ∀ d, s.drives.find? (fun d => eqIgnoreAsciiCase d.name name) = some d →
    s.awaited A d.name = none ∧ ((s.cfg.seen A.parse).isSome = true ∨
      ∀ other ∈ s.drives, eqIgnoreAsciiCase other.name name = true → other.name = d.name)

/-- The name that was typed is the drive's own.  Or else the drive is paused or not already, or a
    newer file is adopted; and if the pause is sent, there is a drive of exactly that name, which is
    paused or not already. -/
def CarefulPause (io : ConfigIo) (s : DriveCtx) (name : String) (paused : Bool) : Prop :=
  ∀ d, s.drives.find? (fun d => eqIgnoreAsciiCase d.name name) = some d →
    io.saved = true ∧ d.name = name ∨
      ((s.cfg.seen A.parse).isSome = true ∨ d.paused = paused) ∧
        (io.saved = true → ∃ c, s.configured A name = some c ∧ c.paused = paused)

def CarefulCommand (io : ConfigIo) (s : DriveCtx) : ConfigCommand → Prop
  | .setConfig _ _ => True
  | .addDrive name addr tokenEnv offline =>
    ∀ d, s.newDrive A name addr tokenEnv offline = .ok d → s.CarefulAdd A io d
  | .removeDrive name => s.CarefulRemove A name
  | .pauseDrive name => s.CarefulPause A io name true
  | .resumeDrive name => s.CarefulPause A io name false

/-- The name that was typed is a drive's own. -/
def CarefulResync (s : DriveCtx) (name : String) : Prop :=
  (∃ d ∈ s.drives, eqIgnoreAsciiCase d.name name = true) → ∃ d ∈ s.drives, d.name = name

def CarefulJoin [Primitives] (io : ConfigIo) (s : DriveCtx) (invite : Except String InviteToken) :
    Prop :=
  ∀ token d, invite = .ok token →
    (Store.registerPeerKey s.engine.store token.peerId token.key).2 = .ok () →
      s.inviterDrive A token = .ok d → s.CarefulAdd A io d

/-- Everything is as it should be, or will be. -/
structure Kept (s : DriveCtx) : Prop where
  matched : MatchedBut A none s
  told : Told A s

end

section

variable {A : Addresses} {s : DriveCtx} {but : Option String} {n : String}

theorem persistConfig_saved {io : ConfigIo} (hsaved : io.saved = true) :
    s.persistConfig A io = ((s.persistConfig A io).1, .ok ()) := by
  obtain ⟨cfg, -, heq⟩ := persistConfig_eq A io s
  rw [heq, if_pos hsaved]

theorem persistConfig_failed {io : ConfigIo} (hfailed : ¬ io.saved = true) :
    s.persistConfig A io = ((s.persistConfig A io).1, .error .io) := by
  obtain ⟨cfg, -, heq⟩ := persistConfig_eq A io s
  rw [heq, if_neg hfailed]

/-! ## Adding a drive -/

theorem canon_text (a : Multiaddr) : A.canon (A.text a) = A.text a := by
  obtain ⟨p, hp, htext⟩ := A.printed a
  unfold Addresses.canon
  rw [hp]
  exact htext

theorem spec_config (d : Drive) : (d.config A).spec A = d.spec A := by
  unfold DriveConfig.spec Drive.config Drive.spec
  dsimp only
  rw [canon_text]

theorem configured_addConfigured (d : Drive) : (s.addConfigured A d).configured A n =
    (s.configured A n).or (if d.name = n then some (d.spec A) else none) := by
  show ((s.drives ++ [d.config A]).find? _).map _ = _
  unfold configured
  rw [List.find?_append, List.find?_singleton]
  have hname : ((d.config A).name == n) = (d.name == n) := rfl
  rw [hname]
  by_cases hn : d.name = n
  · rw [if_pos (beq_iff_eq.mpr hn), if_pos hn]
    cases s.drives.find? fun d => d.name == n with
    | none => exact congrArg some (spec_config d)
    | some c => rfl
  · rw [if_neg (by simpa using hn), if_neg hn, Option.or_none, Option.or_none]

/-- A drive of a new name is kept, in the configuration and in the list. -/
theorem MatchedBut.addConfigured {d : Drive} (h : MatchedBut A (some d.name) s)
    (hnew : ∀ c ∈ s.drives, c.name ≠ d.name) :
    MatchedBut A (some d.name) (s.addConfigured A d) where
  refines n hbut := by
    have hn : d.name ≠ n := fun heq => hbut (congrArg some heq)
    rw [configured_addConfigured, if_neg hn, Option.or_none]
    exact h.refines n hbut
  known n := by
    show n ∈ s.engineDrives ++ [d.name] ↔ _
    rw [List.mem_append, List.mem_singleton, h.known n, configured_addConfigured]
    by_cases hn : d.name = n
    · rw [if_pos hn]
      exact iff_of_true (Or.inr hn.symm) (by cases s.configured A n <;> rfl)
    · rw [if_neg hn, Option.or_none]
      exact or_iff_left (Ne.symm hn)
  distinct := by
    show ((s.drives ++ [d.config A]).map DriveConfig.name).Nodup
    rw [List.map_append, List.nodup_append]
    refine ⟨h.distinct, List.nodup_singleton _, fun a ha b hb heq => ?_⟩
    obtain ⟨c, hc, rfl⟩ := List.mem_map.mp ha
    rw [List.map_singleton, List.mem_singleton] at hb
    exact hnew c hc (heq.trans hb)
  parses := by
    intro c hc
    rcases List.mem_append.mp hc with hc | hc
    · exact h.parses c hc
    · obtain ⟨p, hp, -⟩ := A.printed d.addr
      rw [List.mem_singleton.mp hc]
      show (A.parse (A.text d.addr)).isOk = true
      rw [hp]
      rfl

/-- **A drive that is kept, saved and ordered.** -/
theorem Kept.register (h : Kept A s) {io : ConfigIo} {d : Drive} (hcareful : s.CarefulAdd A io d)
    (hnew : ∀ c ∈ s.drives, c.name ≠ d.name) {command : EngineCommand}
    (hadds : ∀ n e, command.on A n e = if d.name = n then some (d.spec A) else e) :
    Kept A (s.register A io d command).1 := by
  have hadded := (h.matched.weaken _).addConfigured hnew
  have htold : Told A ((s.addConfigured A d).persistConfig A io).1 :=
    (h.told.withNames _ _ _).persist io
  have hnone : s.configured A d.name = none := configured_eq_none.mpr hnew
  have hconf : (s.addConfigured A d).configured A d.name = some (d.spec A) := by
    rw [configured_addConfigured, if_pos rfl, hnone, Option.none_or]
  unfold DriveCtx.register
  by_cases hsaved : io.saved = true
  · rw [persistConfig_saved hsaved]
    refine ⟨(hadded.persist io).order _ (fun n e hn => ?_) ?_, htold.send [command]⟩
    · exact (hadds n e).trans (if_neg (Ne.symm hn))
    · rw [configured_persist, hconf]
      exact (hadds d.name _).trans (if_pos rfl)
  · -- nothing is ordered, and the engine has the drive already
    rw [persistConfig_failed hsaved]
    refine ⟨(hadded.fill ?_).persist io, htold⟩
    refine (h.matched.refines d.name (by simp)).trans ?_
    rw [hconf, hnone, Option.none_or]
    exact hcareful.resolve_left hsaved

theorem eqIgnoreAsciiCase_self (name : String) : eqIgnoreAsciiCase name name = true :=
  beq_self_eq_true _

/-- No drive of a name in any letter case is no drive of that name. -/
theorem forall_name_ne {name : String}
    (h : ¬ (s.drives.any fun d => eqIgnoreAsciiCase d.name name) = true) :
    ∀ c ∈ s.drives, c.name ≠ name := by
  rintro c hc rfl
  exact h (List.any_eq_true.mpr ⟨c, hc, eqIgnoreAsciiCase_self _⟩)

theorem newDrive_ok {name addr : String} {tokenEnv : Option String} {offline : Bool} {d : Drive}
    (h : s.newDrive A name addr tokenEnv offline = .ok d) : ∀ c ∈ s.drives, c.name ≠ d.name := by
  unfold newDrive at h
  dsimp only at h
  split at h
  · cases h
  · generalize (if isBlank name then _ else _) = name' at h
    split at h
    · cases h
    · next hno =>
      cases h
      exact forall_name_ne hno

theorem Kept.addDrive (h : Kept A s) {io : ConfigIo} {name addr : String}
    {tokenEnv : Option String} {offline : Bool}
    (hcareful : ∀ d, s.newDrive A name addr tokenEnv offline = .ok d → s.CarefulAdd A io d) :
    Kept A (s.addDrive A io name addr tokenEnv offline).1 := by
  unfold DriveCtx.addDrive
  cases hd : s.newDrive A name addr tokenEnv offline with
  | error e => exact h
  | ok d => exact h.register (hcareful d hd) (newDrive_ok hd) fun _ _ => rfl

/-! ## Removing a drive -/

/-- The first drive that is found by index, and what is left without it. -/
theorem eraseIdx_of_findIdx? {α : Type} {p : α → Bool} {l : List α} {idx : ℕ}
    (h : l.findIdx? p = some idx) : ∃ pre d post, l = pre ++ d :: post ∧
      l.eraseIdx idx = pre ++ post ∧ l.find? p = some d := by
  induction l generalizing idx with
  | nil => cases h
  | cons a l ih =>
    rw [List.findIdx?_cons] at h
    cases ha : p a with
    | true =>
      rw [ha, if_pos rfl] at h
      obtain rfl := Option.some.inj h
      exact ⟨[], a, l, rfl, rfl, List.find?_cons_of_pos ha⟩
    | false =>
      rw [ha, if_neg Bool.false_ne_true] at h
      obtain ⟨i, hi, rfl⟩ := Option.map_eq_some_iff.mp h
      obtain ⟨pre, d, post, rfl, herase, hfind⟩ := ih hi
      refine ⟨a :: pre, d, post, rfl, ?_, ?_⟩
      · rw [List.eraseIdx_cons_succ, herase]
        rfl
      · rw [List.find?_cons, ha]
        exact hfind

/-- The drive of a name, after one of the drives with different names is taken out. -/
theorem find?_takeOut {pre post : List DriveConfig} {d : DriveConfig}
    (hdistinct : ((pre ++ d :: post).map DriveConfig.name).Nodup) :
    (pre ++ post).find? (fun c => c.name == n) =
      if d.name = n then none else (pre ++ d :: post).find? fun c => c.name == n := by
  by_cases hn : d.name = n
  · subst hn
    rw [if_pos rfl, List.find?_eq_none]
    intro c hc hname
    rw [List.map_append, List.map_cons, List.nodup_middle, List.nodup_cons, ← List.map_append]
      at hdistinct
    exact hdistinct.1 (beq_iff_eq.mp hname ▸ List.mem_map_of_mem hc)
  · rw [if_neg hn, List.find?_append, List.find?_append, List.find?_cons_of_neg]
    simpa using hn

/-- What the orders to remove make of a name. -/
theorem pending_removals {l : List String} : (s.send (l.map .removeDrive)).pending A n =
    if n ∈ l then none else s.pending A n := by
  unfold pending send
  dsimp only
  rw [Lib.through_append, through_removals]

/-- What a removal leaves, before it is saved, of a drive `d` that is found by `name`. -/
structure Removed (A : Addresses) (s t : DriveCtx) (name : String) (d : DriveConfig) : Prop where
  configured : ∀ n, t.configured A n = if d.name = n then none else s.configured A n
  known : ∀ n, n ∈ t.engineDrives ↔ n ∈ s.engineDrives ∧ eqIgnoreAsciiCase n name = false
  pending : ∀ n, t.pending A n =
    if n ∈ s.engineDrives ∧ eqIgnoreAsciiCase n name = true then none else s.pending A n
  awaited : ∀ n, t.awaited A n = s.awaited A n
  found : eqIgnoreAsciiCase d.name name = true
  distinct : (t.drives.map DriveConfig.name).Nodup
  parses : ∀ e ∈ t.drives, (A.parse e.addr).isOk = true

theorem removed_takeOut (h : MatchedBut A but s) {name : String} {idx : ℕ}
    (hidx : (s.drives.findIdx? fun d => eqIgnoreAsciiCase d.name name) = some idx) :
    ∃ d, s.drives.find? (fun d => eqIgnoreAsciiCase d.name name) = some d ∧
      Removed A s (s.takeOut name idx) name d := by
  obtain ⟨pre, d, post, hsplit, herase, hfind⟩ := eraseIdx_of_findIdx? hidx
  have hdrives : (s.takeOut name idx).drives = pre ++ post := herase
  have hdistinct := h.distinct
  rw [hsplit] at hdistinct
  have hsub : (pre ++ post).Sublist (pre ++ d :: post) :=
    List.Sublist.append (List.Sublist.refl _) (List.sublist_cons_self _ _)
  refine ⟨d, hfind, fun n => ?_, fun n => ?_, fun n => ?_, fun n => rfl, ?_, ?_, ?_⟩
  · unfold DriveCtx.configured
    rw [hdrives, find?_takeOut hdistinct, hsplit]
    split <;> rfl
  · show n ∈ s.engineDrives.filter _ ↔ _
    rw [List.mem_filter, Bool.not_eq_true']
  · refine pending_removals.trans ?_
    simp only [List.mem_filter]
    rfl
  · exact List.find?_some (p := fun d : DriveConfig => eqIgnoreAsciiCase d.name name) hfind
  · rw [hdrives]
    exact hdistinct.sublist (hsub.map _)
  · rw [hdrives]
    intro e he
    refine h.parses e ?_
    rw [hsplit]
    exact hsub.subset he

variable {t : DriveCtx} {name : String} {d : DriveConfig}

/-- An adoption gives back to the engine what it was not to lose. -/
theorem Removed.fits (hr : Removed A s t name d) (h : MatchedBut A none s)
    (hawaited : s.awaited A d.name = none) : Fits A none t where
  held n _ hn c hc := by
    obtain ⟨hknown, hother⟩ := (hr.known n).mp hn
    rw [hr.configured] at hc
    split at hc
    · cases hc
    · refine ⟨c.paused, ?_⟩
      rw [hr.pending, if_neg (by simp [hother]), h.refines n (by simp), hc]
      rfl
  gone n _ hn hnone := by
    obtain ⟨hknown, hother⟩ := (hr.known n).mp hn
    rw [hr.configured] at hnone
    split at hnone
    · next heq =>
      rw [← heq, hr.found] at hother
      cases hother
    · exact absurd hknown (h.configured_eq_none.mp hnone)
  apart n _ hn hnone := by
    rw [hr.pending, hr.awaited]
    rw [hr.configured] at hnone
    split
    · next hgone =>
      split at hnone
      · next heq => rw [← heq, hawaited]
      · exact absurd hgone.1 (h.configured_eq_none.mp hnone)
    · next hstays =>
      have hunknown : n ∉ s.engineDrives := by
        intro hknown
        cases hother : eqIgnoreAsciiCase n name with
        | true => exact hstays ⟨hknown, hother⟩
        | false => exact hn ((hr.known n).mpr ⟨hknown, hother⟩)
      rw [h.refines n (by simp), h.configured_eq_none.mpr hunknown, Option.none_or]
  distinct := hr.distinct
  parses := hr.parses

/-- The only drive of the name goes. -/
theorem Removed.matched (hr : Removed A s t name d) (h : MatchedBut A none s)
    (hawaited : s.awaited A d.name = none)
    (honly : ∀ n, n ∈ s.engineDrives → eqIgnoreAsciiCase n name = true → n = d.name)
    (hthere : d.name ∈ s.engineDrives) : MatchedBut A none t where
  refines n _ := by
    rw [hr.pending, hr.configured, hr.awaited]
    by_cases hn : d.name = n
    · subst hn
      rw [if_pos ⟨hthere, hr.found⟩, if_pos rfl, hawaited]
      rfl
    · rw [if_neg fun hgone => hn (honly n hgone.1 hgone.2).symm, if_neg hn]
      exact h.refines n (by simp)
  known n := by
    rw [hr.known, hr.configured]
    by_cases hn : d.name = n
    · subst hn
      rw [if_pos rfl, hr.found]
      simp
    · rw [if_neg hn, ← h.known n]
      refine and_iff_left_of_imp fun hknown => ?_
      rw [Bool.eq_false_iff]
      exact fun hmatch => hn (honly n hknown hmatch).symm
  distinct := hr.distinct
  parses := hr.parses

/-- **A drive that goes.**  Either it is the only one of the name, or a newer file is adopted, which
    gives the others back to the engine. -/
theorem Kept.removeDrive (h : Kept A s) (hcareful : s.CarefulRemove A name) (io : ConfigIo) :
    Kept A (s.removeDrive A io name).1 := by
  unfold DriveCtx.removeDrive
  cases hidx : s.drives.findIdx? fun d => eqIgnoreAsciiCase d.name name with
  | none => exact h
  | some idx =>
    obtain ⟨d, hfind, hr⟩ := removed_takeOut h.matched hidx
    obtain ⟨hawaited, hwhy⟩ := hcareful d hfind
    have htold : Told A (s.takeOut name idx) := (h.told.withNames _ _ _).send _
    refine ⟨?_, htold.persist io⟩
    rcases hwhy with hseen | honly
    · exact (hr.fits h.matched hawaited).persist hseen io
    · refine (hr.matched h.matched hawaited (fun n hn hmatch => ?_) ?_).persist io
      · obtain ⟨e, he, rfl⟩ := isSome_configured.mp ((h.matched.known n).mp hn)
        exact honly e he hmatch
      · exact (h.matched.known d.name).mpr
          (isSome_configured.mpr ⟨d, List.mem_of_find?_eq_some hfind, rfl⟩)

/-! ## Pauses -/

theorem setPaused_none {l : List DriveConfig} {paused : Bool}
    (h : l.find? (fun d => eqIgnoreAsciiCase d.name name) = none) :
    setPaused name paused l = none := by
  induction l with
  | nil => rfl
  | cons a l ih =>
    rw [List.find?_cons] at h
    unfold setPaused
    cases ha : eqIgnoreAsciiCase a.name name with
    | true =>
      rw [ha] at h
      cases h
    | false =>
      rw [ha] at h
      rw [if_neg Bool.false_ne_true, ih h]
      rfl

/-- The first drive of the name is paused, or not. -/
theorem setPaused_some {l : List DriveConfig} (paused : Bool)
    (h : l.find? (fun d => eqIgnoreAsciiCase d.name name) = some d) :
    ∃ pre post, l = pre ++ d :: post ∧ (∀ e ∈ pre, eqIgnoreAsciiCase e.name name = false) ∧
      setPaused name paused l = some (pre ++ { d with paused } :: post) := by
  induction l with
  | nil => cases h
  | cons a l ih =>
    rw [List.find?_cons] at h
    unfold setPaused
    cases ha : eqIgnoreAsciiCase a.name name with
    | true =>
      rw [ha] at h
      obtain rfl := Option.some.inj h
      rw [if_pos rfl]
      exact ⟨[], l, rfl, List.forall_mem_nil _, rfl⟩
    | false =>
      rw [ha] at h
      obtain ⟨pre, post, rfl, hpre, hset⟩ := ih h
      rw [if_neg Bool.false_ne_true, hset]
      exact ⟨a :: pre, post, rfl, List.forall_mem_cons.mpr ⟨ha, hpre⟩, rfl⟩

/-- What a pause leaves, before it is saved, of the drive `d`. -/
structure Paused (A : Addresses) (s t : DriveCtx) (d : DriveConfig) (paused : Bool) : Prop where
  before : s.configured A d.name = some (d.spec A)
  after : t.configured A d.name = some ((d.spec A).setPaused paused)
  others : ∀ n, n ≠ d.name → t.configured A n = s.configured A n
  names : t.drives.map DriveConfig.name = s.drives.map DriveConfig.name
  parses : (∀ e ∈ s.drives, (A.parse e.addr).isOk = true) →
    ∀ e ∈ t.drives, (A.parse e.addr).isOk = true
  pending : ∀ n, t.pending A n = s.pending A n
  awaited : ∀ n, t.awaited A n = s.awaited A n
  known : t.engineDrives = s.engineDrives

theorem paused_setPaused (paused : Bool)
    (hfind : s.drives.find? (fun d => eqIgnoreAsciiCase d.name name) = some d) :
    ∃ drives, setPaused name paused s.drives = some drives ∧
      Paused A s (s.withDrives drives) d paused := by
  obtain ⟨pre, post, hsplit, hpre, hset⟩ := setPaused_some paused hfind
  have hname := List.find?_some (p := fun d : DriveConfig => eqIgnoreAsciiCase d.name name) hfind
  -- no drive before it has the same name
  have hfirst : pre.find? (fun c => c.name == d.name) = none := by
    refine List.find?_eq_none.mpr fun e he heq => ?_
    have hmatch := hpre e he
    rw [beq_iff_eq.mp heq, show eqIgnoreAsciiCase d.name name = true from hname] at hmatch
    cases hmatch
  have hhead : ∀ e : DriveConfig, e.name = d.name →
      (e :: post).find? (fun c => c.name == d.name) = some e :=
    fun e he => List.find?_cons_of_pos (by simpa using he)
  have hconf : ∀ n, (s.withDrives (pre ++ { d with paused } :: post)).configured A n =
      ((pre ++ { d with paused } :: post).find? fun c => c.name == n).map
        (DriveConfig.spec A) := fun n => rfl
  refine ⟨_, hset, ?_, ?_, fun n hn => ?_, ?_, fun h e he => ?_, fun _ => rfl, fun _ => rfl, rfl⟩
  · unfold DriveCtx.configured
    rw [hsplit, List.find?_append, hfirst, hhead d rfl]
    rfl
  · rw [hconf, List.find?_append, hfirst, hhead { d with paused } rfl]
    rfl
  · have hno : (d.name == n) = false := beq_false_of_ne (Ne.symm hn)
    rw [hconf]
    unfold DriveCtx.configured
    rw [hsplit, List.find?_append, List.find?_append, List.find?_cons, List.find?_cons]
    dsimp only
    rw [hno]
  · show (pre ++ { d with paused } :: post).map DriveConfig.name = _
    rw [hsplit, List.map_append, List.map_append]
    rfl
  · replace he : e ∈ pre ++ { d with paused } :: post := he
    rw [hsplit] at h
    rcases List.mem_append.mp he with he | he
    · exact h e (List.mem_append_left _ he)
    · rcases List.mem_cons.mp he with rfl | he
      · exact h d (List.mem_append_right _ List.mem_cons_self)
      · exact h e (List.mem_append_right _ (List.mem_cons_of_mem _ he))

variable {paused : Bool}

theorem Paused.isSome_iff (hp : Paused A s t d paused) :
    (t.configured A n).isSome = (s.configured A n).isSome := by
  by_cases hn : n = d.name
  · rw [hn, hp.before, hp.after]
    rfl
  · rw [hp.others n hn]

theorem Paused.matchedBut (hp : Paused A s t d paused) (h : MatchedBut A none s) :
    MatchedBut A (some d.name) t where
  refines n hbut := by
    rw [hp.pending, hp.awaited, hp.others n fun heq => hbut (congrArg some heq.symm)]
    exact h.refines n (by simp)
  known n := by
    rw [hp.known, hp.isSome_iff]
    exact h.known n
  distinct := by
    rw [hp.names]
    exact h.distinct
  parses := hp.parses h.parses

theorem Paused.pending_eq (hp : Paused A s t d paused) (h : MatchedBut A none s) :
    t.pending A d.name = some (d.spec A) := by
  rw [hp.pending, h.refines _ (by simp), hp.before]
  rfl

/-- An adoption sets the pause. -/
theorem Paused.fits (hp : Paused A s t d paused) (h : MatchedBut A none s) : Fits A none t where
  held n _ hn c hc := by
    by_cases heq : n = d.name
    · subst heq
      rw [hp.after] at hc
      obtain rfl := Option.some.inj hc
      exact ⟨d.paused, hp.pending_eq h⟩
    · exact (hp.matchedBut h).fits.held n (by simpa using Ne.symm heq) hn c hc
  gone n _ hn hnone := by
    have hsome := (h.known n).mp (hp.known ▸ hn)
    rw [← hp.isSome_iff, hnone] at hsome
    cases hsome
  apart n _ _ hnone := by
    have hother : n ≠ d.name := by
      rintro rfl
      rw [hp.after] at hnone
      cases hnone
    rw [hp.pending, hp.awaited, h.refines n (by simp), ← hp.others n hother, hnone, Option.none_or]
  distinct := (hp.matchedBut h).distinct
  parses := (hp.matchedBut h).parses

/-- A pause that changes nothing. -/
theorem Paused.matched (hp : Paused A s t d paused) (h : MatchedBut A none s)
    (hsame : d.paused = paused) : MatchedBut A none t := by
  refine (hp.matchedBut h).fill ?_
  subst hsame
  rw [hp.pending_eq h, hp.after]
  rfl

theorem named_of_configured {c : DriveSpec} (h : s.configured A name = some c) :
    s.named name = some name := by
  obtain ⟨e, he, rfl⟩ := isSome_configured.mp (Option.isSome_iff_exists.mpr ⟨c, h⟩)
  exact if_pos (List.any_eq_true.mpr ⟨e, he, beq_self_eq_true e.name⟩)

/-- A save leaves the drive with one pause or the other. -/
theorem Paused.pending_persist (hp : Paused A s t d paused) (h : MatchedBut A none s)
    (io : ConfigIo) :
    ∃ p, (t.persistConfig A io).1.pending A d.name = some ((d.spec A).setPaused p) := by
  by_cases hseen : (t.cfg.seen A.parse).isSome = true
  · refine ⟨paused, ?_⟩
    rw [((hp.fits h).persist hseen io).refines _ (by simp), configured_persist, hp.after]
    rfl
  · obtain ⟨cfg, -, heq⟩ := persistConfig_eq A io t
    rw [heq, if_neg hseen]
    exact ⟨d.paused, hp.pending_eq h⟩

/-- **A pause or a resume.** -/
theorem Kept.pauseDrive (h : Kept A s) {io : ConfigIo}
    (hcareful : s.CarefulPause A io name paused) : Kept A (s.pauseDrive A io name paused).1 := by
  unfold DriveCtx.pauseDrive
  cases hfind : s.drives.find? fun d => eqIgnoreAsciiCase d.name name with
  | none =>
    rw [setPaused_none hfind]
    exact h
  | some d =>
    obtain ⟨drives, hset, hp⟩ := paused_setPaused (A := A) paused hfind
    have htold : Told A ((s.withDrives drives).persistConfig A io).1 :=
      (h.told.withNames (s.withDrives drives).cfg s.engineDrives s.joins).persist io
    rw [hset]
    dsimp only
    rcases hcareful d hfind with ⟨hsaved, rfl⟩ | ⟨hquiet, hexact⟩
    · rw [persistConfig_saved hsaved]
      dsimp only
      obtain ⟨p, hpending⟩ := hp.pending_persist h.matched io
      have hconf : ((s.withDrives drives).persistConfig A io).1.configured A d.name =
          some ((d.spec A).setPaused paused) := by
        rw [configured_persist, hp.after]
      rw [named_of_configured hconf, Option.getD_some]
      refine ⟨((hp.matchedBut h.matched).persist io).order _ (fun n e hn => if_neg (Ne.symm hn)) ?_,
        htold.sendFor rfl (by rw [hpending]; rfl)⟩
      rw [hpending, hconf]
      exact if_pos rfl
    · have hmatched : MatchedBut A none ((s.withDrives drives).persistConfig A io).1 := by
        rcases hquiet with hseen | hsame
        · exact (hp.fits h.matched).persist hseen io
        · exact (hp.matched h.matched hsame).persist io
      by_cases hsaved : io.saved = true
      swap
      · rw [persistConfig_failed hsaved]
        exact ⟨hmatched, htold⟩
      -- the order changes nothing
      obtain ⟨c, hc, rfl⟩ := hexact hsaved
      have hconf : ((s.withDrives drives).persistConfig A io).1.configured A name = some c := by
        by_cases hname : name = d.name
        · subst hname
          rw [configured_persist, hp.after]
          rw [hp.before] at hc
          obtain rfl := Option.some.inj hc
          rfl
        · rw [configured_persist, hp.others name hname, hc]
      have hpending := hmatched.refines name (by simp)
      rw [hconf, Option.some_or] at hpending
      rw [persistConfig_saved hsaved]
      dsimp only
      rw [named_of_configured hconf, Option.getD_some]
      refine ⟨(hmatched.weaken (some name)).order _ (fun n e hn => if_neg (Ne.symm hn)) ?_,
        htold.sendFor rfl (by rw [hpending]; rfl)⟩
      rw [hpending, hconf]
      exact if_pos rfl

/-- A re-sync, in which the drive's own name was typed. -/
theorem Kept.resyncDrive (h : Kept A s) (hcareful : s.CarefulResync name) :
    Kept A (s.resyncDrive name).1 := by
  unfold DriveCtx.resyncDrive
  split
  · next hany =>
    have hthere := hcareful (List.any_eq_true.mp hany)
    obtain ⟨c, hconf⟩ := Option.isSome_iff_exists.mp (isSome_configured (A := A).mpr hthere)
    have hpending := h.matched.refines name (by simp)
    rw [named_of_configured hconf, Option.getD_some]
    refine ⟨(h.matched.weaken (some name)).order _ (fun _ _ _ => rfl) hpending,
      h.told.sendFor rfl ?_⟩
    rw [hpending, hconf]
    rfl
  · exact h

/-! ## The other commands -/

theorem drives_set (c : ReactorConfig) (key : String) (value : Value) :
    (c.set A.parse key value).1.drives = c.drives := by
  unfold ReactorConfig.set
  cases hassign : c.assign A.parse key value with
  | error e => rfl
  | ok c' =>
    unfold ReactorConfig.assign at hassign
    split at hassign
    case h_13 => cases hassign
    all_goals
      obtain ⟨a, -, rfl⟩ := map_eq_ok hassign
      rfl

theorem Kept.withCfg (h : Kept A s) {cfg : ConfigCtx} (hdrives : cfg.config.drives = s.drives) :
    Kept A { s with cfg } :=
  ⟨h.matched.withCfg hdrives, h.told.withNames cfg _ _⟩

theorem Kept.persist (h : Kept A s) (io : ConfigIo) : Kept A (s.persistConfig A io).1 :=
  ⟨h.matched.persist io, h.told.persist io⟩

theorem Kept.setConfig (h : Kept A s) (io : ConfigIo) (key : String) (value : Value) :
    Kept A (s.executeCommand A io (.setConfig key value)).1 := by
  have hset := drives_set (A := A) s.cfg.config key value
  unfold executeCommand
  dsimp only
  rcases hresult : s.cfg.config.set A.parse key value with ⟨config, e | u⟩
  · rw [hresult] at hset
    exact h.withCfg hset
  · rw [hresult] at hset
    have hmemory : Kept A (s.withConfig config) := h.withCfg hset
    exact hmemory.persist io

theorem Kept.executeCommand (h : Kept A s) {io : ConfigIo} {cmd : ConfigCommand}
    (hcareful : s.CarefulCommand A io cmd) : Kept A (s.executeCommand A io cmd).1 := by
  cases cmd with
  | setConfig key value => exact h.setConfig io key value
  | addDrive name addr tokenEnv offline => exact h.addDrive hcareful
  | removeDrive name => exact h.removeDrive hcareful io
  | pauseDrive name => exact h.pauseDrive hcareful
  | resumeDrive name => exact h.pauseDrive hcareful

/-! ## Joins -/

theorem inviterDrive_ok {invite : InviteToken} {drive : Drive}
    (h : s.inviterDrive A invite = .ok drive) : ∀ c ∈ s.drives, c.name ≠ drive.name := by
  unfold inviterDrive at h
  split at h
  · cases h
  · split at h
    · cases h
    · split at h
      · cases h
      · next hno =>
        cases h
        exact forall_name_ne hno

theorem Kept.join [Primitives] (h : Kept A s) {io : ConfigIo} {invite : Except String InviteToken}
    (hcareful : s.CarefulJoin A io invite) : Kept A (s.join A io invite).1 := by
  unfold DriveCtx.join
  cases hinvite : invite with
  | error e => exact h
  | ok token =>
    dsimp only
    rcases hreg : Store.registerPeerKey s.engine.store token.peerId token.key with
      ⟨store, e | u⟩
    · exact h
    · dsimp only
      -- the pin is not about the drives
      have hpinned : Kept A { s with engine := { s.engine with store } } :=
        ⟨⟨h.matched.refines, h.matched.known, h.matched.distinct, h.matched.parses⟩,
          ⟨h.told.met, h.told.told, h.told.reached⟩⟩
      cases hdrive : inviterDrive A { s with engine := { s.engine with store } } token with
      | error e => exact hpinned
      | ok drive =>
        exact hpinned.register (hcareful token drive hinvite (by rw [hreg]) hdrive)
          (inviterDrive_ok hdrive) fun _ _ => rfl

end

end DriveCtx

end PhReactor
