/-
  `config.json` on disk, when the daemon is killed (`src/config.rs`).

  `save` writes a second file and renames it over the first.  `load_quiet` reads the first; what it
  cannot parse it moves aside, and writes the defaults in its place.

  1. `atomicWrite`, `save` and `loadQuiet` are the programs, a step of the source a step of each.
     Any of their operations may fail, a failed write leaving anything, and the daemon may be killed
     between any two of them (`perform`).

  2. Wherever a save ends, the file is what it was or the new configuration, whole
     (`always_atomicWrite`); where a file parses, loading it changes nothing (`always_loadQuiet`).

  3. So from a good file on, in every run of saves, loads and kills, the file is a whole
     configuration: the one that was last saved with success, or one that a later save was writing;
     and nothing is ever moved aside (`config_file_is_whole`).

  4. A text that is not a configuration is still there in every later state: in its place, or moved
     aside under the time of a load — as long as that rename does not fail, and no two loads happen
     in one second (`unreadable_text_is_kept`).
-/
import Std.Data.String.ToNat
import PhReactor.Daemon.Config
import PhReactor.Daemon.ConfigKeys
import PhReactor.Lib.Machine
import PhReactor.Store.Wal
import PhReactor.Update.Files

namespace PhReactor.ConfigDisk

open Lib Update

/-! ## Operations -/

/-- An operation goes well, or reports an error; then a write leaves this behind. -/
abbrev Mishap := Option (String × Option File)

/-- An operation of a daemon that may be killed.  What the system says it has written is written,
    and a file that is there is not reported missing. -/
def perform (fs : Fs) (o : FileOp) (c : Mishap) : o.Reply × Fs :=
  match c with
  | none => Update.perform fs o .ok
  | some (e, left) =>
    Update.perform fs o (.fails (if e = notFound then "Input/output error" else e) left)

theorem perform_error_ne {e : String} :
    (if e = notFound then "Input/output error" else e) ≠ notFound := by
  split
  · decide
  · assumption

/-! ## The programs -/

/-- The last component, or `default`. -/
def fileName (p : Path) (default : String) : String := p.getLast?.getD default

/-- `Path::with_file_name`. -/
def withFileName (p : Path) (name : String) : Path := p.dropLast ++ [name]

/-- Write the file `tmp`, and rename it over the target. -/
def writeBeside (tmp p : Path) (content : String) : FileProg (Except ConfigError Unit) :=
  .call (.write tmp (strBytes content)) fun
    | .error _ => .done (.error .io)
    | .ok _ => .call (.setPermissions tmp 0o600) fun _ =>
      .call (.rename tmp p) fun
        | .error _ => .done (.error .io)
        | .ok _ => .done (.ok ())

/-- The second file is in the same directory. -/
def atomicWrite (p : Path) (content : String) : FileProg (Except ConfigError Unit) :=
  match p.parent? with
  | none => .done (.error .io)
  | some dir => writeBeside (dir.join ("." ++ fileName p "f" ++ ".tmp")) p content

/-- Where a file that is not a configuration is moved at the time `now`. -/
def quarantined (file : Path) (now : ℕ) : Path :=
  withFileName file (fileName file "config" ++ ".corrupt-" ++ toString now)

section

variable (multiaddr : String → Except String ParsedAddr) (render : ReactorConfig → String)
  (parse : String → Option ReactorConfig)

def save (file : Path) (c : ReactorConfig) : FileProg (Except ConfigError Unit) :=
  (atomicWrite file (render c)).andThen fun _ =>
    .call (.setPermissions file 0o600) fun _ => .done (.ok ())

/-- Put the defaults there.  The flag is `load_quiet`'s. -/
def replaceByDefaults (file : Path) : FileProg (Except ConfigError (ReactorConfig × Bool)) :=
  .call (.write file (strBytes (render .default))) fun
    | .error _ => .done (.error .io)
    | .ok _ => .call (.setPermissions file 0o600) fun _ => .done (.ok (.default, true))

/-- What becomes of a text: its configuration, if it is one and a valid one; else it is moved aside,
    whether or not that works. -/
def loadText (file : Path) (now : ℕ) (raw : String) :
    FileProg (Except ConfigError (ReactorConfig × Bool)) :=
  match parse raw with
  | some c =>
    match c.validate multiaddr with
    | .ok _ => .done (.ok (c, false))
    | .error e => .done (.error e)
  | none => .call (.rename file (quarantined file now)) fun _ => replaceByDefaults render file

/-- Loads the configuration.  A missing file is created with defaults, an unreadable one is not
    touched, and one that is not a configuration is replaced. -/
def loadQuiet (file : Path) (now : ℕ) : FileProg (Except ConfigError (ReactorConfig × Bool)) :=
  .call (.read file) fun
    | .ok bytes =>
      match readString bytes with
      | some raw => loadText multiaddr render parse file now raw
      | none => .done (.error .io)
    | .error e => if e = notFound then replaceByDefaults render file else .done (.error .io)

end

/-! ## A save -/

variable {multiaddr : String → Except String ParsedAddr} {render : ReactorConfig → String}
  {parse : String → Option ReactorConfig} {file : Path} {fs fs₀ : Fs} {c c₀ : ReactorConfig}

/-- The bytes of the file. -/
def contentOf (fs : Fs) (p : Path) : Option (List UInt8) := (fs p).map File.bytes

/-- The second file of a save. -/
def besides (file : Path) : Option Path :=
  file.parent?.map fun dir => dir.join ("." ++ fileName file "f" ++ ".tmp")

/-- The other files are as they were. -/
def OthersKept (file : Path) (fs fs' : Fs) : Prop :=
  ∀ p, p ≠ file → some p ≠ besides file → fs' p = fs p

theorem besides_ne {tmp : Path} (h : besides file = some tmp) : tmp ≠ file := by
  obtain ⟨dir, hdir, rfl⟩ := Option.map_eq_some_iff.mp h
  intro heq
  have hlast := congrArg List.getLast? heq
  unfold Path.join at hlast
  rw [List.getLast?_concat] at hlast
  unfold fileName at hlast
  rw [← hlast] at hlast
  have hlen := congrArg String.length (Option.some.inj hlast)
  rw [Option.getD_some, String.length_append, String.length_append] at hlen
  have hdot : (".": String).length = 1 := rfl
  omega

theorem atomicWrite_eq {tmp : Path} (h : besides file = some tmp) (s : String) :
    atomicWrite file s = writeBeside tmp file s := by
  obtain ⟨dir, hdir, rfl⟩ := Option.map_eq_some_iff.mp h
  unfold atomicWrite
  rw [hdir]

/-- What an operation does not name stays. -/
theorem perform_other {o : FileOp} {q : Path} (h : q ∉ o.paths) (fs : Fs) (m : Mishap) :
    (perform fs o m).2 q = fs q := by
  cases m with
  | none => exact Update.perform_other h fs .ok
  | some m => exact Update.perform_other h fs _

/-- Setting the permissions changes no bytes. -/
theorem contentOf_setPermissions (fs : Fs) (p : Path) (mode : ℕ) (m : Mishap) (q : Path) :
    contentOf (perform fs (.setPermissions p mode) m).2 q = contentOf fs q := by
  unfold contentOf
  by_cases hq : q = p
  · subst hq
    cases m with
    | some m => rfl
    | none =>
      cases hf : fs q with
      | none => simp [perform, Update.perform, hf]
      | some f => simp [perform, Update.perform, hf]
  · rw [perform_other (fun h => hq (List.mem_singleton.mp h))]

theorem OthersKept.refl (file : Path) (fs : Fs) : OthersKept file fs fs := fun _ _ _ => rfl

theorem OthersKept.perform {t : Fs} (h : OthersKept file fs t) {o : FileOp}
    (ho : ∀ p ∈ o.paths, p = file ∨ some p = besides file) (m : Mishap) :
    OthersKept file fs (perform t o m).2 := by
  intro p hp hb
  rw [perform_other (fun hmem => (ho p hmem).elim hp hb)]
  exact h p hp hb

/-- The file is what it was, or the text `s`, whole. -/
structure OldOrNew (file : Path) (fs : Fs) (s : String) (t : Fs) : Prop where
  content : contentOf t file = contentOf fs file ∨ contentOf t file = some (strBytes s)
  others : OthersKept file fs t

/-- **An atomic write**, wherever it ends. -/
theorem always_atomicWrite (file : Path) (fs : Fs) (s : String) :
    (atomicWrite file s).always perform (OldOrNew file fs s)
      (fun r t => OldOrNew file fs s t ∧ (r = .ok () → contentOf t file = some (strBytes s)))
      fs := by
  have hstart : OldOrNew file fs s fs := ⟨Or.inl rfl, .refl file fs⟩
  cases hbesides : besides file with
  | none =>
    unfold atomicWrite
    rw [Option.map_eq_none_iff.mp hbesides]
    exact ⟨hstart, fun h => nomatch h⟩
  | some tmp =>
    have hne := besides_ne hbesides
    rw [atomicWrite_eq hbesides]
    refine ⟨hstart, fun m => ?_⟩
    -- after the write, good or bad
    have hsame : contentOf (perform fs (.write tmp (strBytes s)) m).2 file = contentOf fs file := by
      unfold contentOf
      rw [perform_other fun h => hne (List.mem_singleton.mp h).symm]
    have hothers : OthersKept file fs (perform fs (.write tmp (strBytes s)) m).2 :=
      (OthersKept.refl file fs).perform (fun p hp => Or.inr (by
        rw [List.mem_singleton.mp hp, hbesides])) m
    have hwritten := (OldOrNew.mk (Or.inl hsame) hothers : OldOrNew file fs s _)
    cases m with
    | some m => exact ⟨hwritten, fun h => nomatch h⟩
    | none =>
      have htmp : contentOf (perform fs (.write tmp (strBytes s)) none).2 tmp =
          some (strBytes s) := by
        simp [contentOf, perform, Update.perform]
      generalize (perform fs (.write tmp (strBytes s)) none).2 = t at *
      refine ⟨hwritten, fun m => ?_⟩
      have htmp' := (contentOf_setPermissions t tmp 0o600 m tmp).trans htmp
      have hsame' := (contentOf_setPermissions t tmp 0o600 m file).trans hsame
      have hothers' : OthersKept file fs (perform t (.setPermissions tmp 0o600) m).2 :=
        hothers.perform (fun p hp => Or.inr (by rw [List.mem_singleton.mp hp, hbesides])) m
      generalize (perform t (.setPermissions tmp 0o600) m).2 = u at *
      refine ⟨⟨Or.inl hsame', hothers'⟩, fun m => ?_⟩
      obtain ⟨f, hf, hbytes⟩ := Option.map_eq_some_iff.mp htmp'
      cases m with
      | some m => exact ⟨⟨Or.inl hsame', hothers'⟩, fun h => nomatch h⟩
      | none =>
        have hrename : perform u (.rename tmp file) none =
            (.ok (), Function.update (Function.update u tmp none) file (some f)) := by
          simp [perform, Update.perform, hf]
        have hnew : contentOf (Function.update (Function.update u tmp none) file (some f)) file =
            some (strBytes s) := by
          unfold contentOf
          rw [Function.update_self, Option.map_some, hbytes]
        have hlast := hothers'.perform (o := .rename tmp file) (fun p hp => by
          rcases List.mem_cons.mp hp with rfl | hp
          · exact Or.inr hbesides.symm
          · exact Or.inl (List.mem_singleton.mp hp)) none
        rw [hrename] at hlast ⊢
        exact ⟨⟨Or.inr hnew, hlast⟩, fun _ => hnew⟩

theorem always_save (render : ReactorConfig → String) (file : Path) (fs : Fs) (c : ReactorConfig) :
    (save render file c).always perform (OldOrNew file fs (render c))
      (fun r t => OldOrNew file fs (render c) t ∧
        (r = .ok () → contentOf t file = some (strBytes (render c)))) fs := by
  unfold save
  rw [Prog.always_andThen]
  refine Prog.always_mono (always_atomicWrite file fs (render c)) (fun _ ht => ht) ?_
  rintro r t ⟨hold, hok⟩
  cases r with
  | error e => exact ⟨hold, fun h => nomatch h⟩
  | ok u =>
    refine ⟨hold, fun m => ?_⟩
    have hsame := contentOf_setPermissions t file 0o600 m file
    refine ⟨⟨?_, hold.others.perform (o := .setPermissions file 0o600)
      (fun p hp => Or.inl (List.mem_singleton.mp hp)) m⟩, fun _ => hsame.trans (hok rfl)⟩
    rw [hsame]
    exact hold.content

/-! ## A load -/

/-- **Loading a file that parses** changes nothing. -/
theorem always_loadQuiet (multiaddr : String → Except String ParsedAddr)
    (render : ReactorConfig → String) {raw : String}
    (hcontent : contentOf fs file = some (strBytes raw)) (hparse : parse raw = some c) (now : ℕ) :
    (loadQuiet multiaddr render parse file now).always perform (· = fs)
      (fun r t => t = fs ∧ ∀ x, r = .ok x → x = (c, false)) fs := by
  obtain ⟨f, hf, hbytes⟩ := Option.map_eq_some_iff.mp hcontent
  refine ⟨rfl, fun m => ?_⟩
  cases m with
  | some m =>
    dsimp only
    show Prog.always perform _ _ (if (if m.1 = notFound then "Input/output error" else m.1) =
      notFound then _ else _) fs
    rw [if_neg perform_error_ne]
    exact ⟨rfl, fun x h => by cases h⟩
  | none =>
    have hread : perform fs (.read file) none = (.ok f.bytes, fs) := by
      simp [perform, Update.perform, hf]
    rw [hread, hbytes]
    dsimp only
    rw [readString_strBytes]
    unfold loadText
    dsimp only
    rw [hparse]
    dsimp only
    cases c.validate multiaddr with
    | error e => exact ⟨rfl, fun x h => by cases h⟩
    | ok u => exact ⟨rfl, fun x h => (Except.ok.inj h).symm⟩

/-! ## Runs of saves and loads -/

/-- A save or a load, with what happens to its operations; it is killed where that ends early. -/
inductive DiskStep where
  | save (c : ReactorConfig) (ms : List Mishap)
  | load (now : ℕ) (ms : List Mishap)

/-- The files, and the configurations that `config.json` may hold: the one saved last, and those of
    the saves since that did not succeed. -/
structure DiskState where
  fs : Fs
  possible : List ReactorConfig

def afterSave (possible : List ReactorConfig) (c : ReactorConfig) :
    Option (Except ConfigError Unit) → List ReactorConfig
  | some (.ok _) => [c]
  | _ => possible ++ [c]

section

variable (multiaddr : String → Except String ParsedAddr) (render : ReactorConfig → String)
  (parse : String → Option ReactorConfig) (file : Path)

def step (s : DiskState) :
    DiskStep → DiskState × List (Except ConfigError (ReactorConfig × Bool))
  | .save c ms =>
    let r := (save render file c).run perform ms s.fs
    (⟨r.2, afterSave s.possible c (r.1.map Prod.fst)⟩, [])
  | .load now ms =>
    let r := (loadQuiet multiaddr render parse file now).run perform ms s.fs
    (⟨r.2, s.possible⟩, (r.1.map Prod.fst).toList)

def machine : Machine DiskState DiskStep (Except ConfigError (ReactorConfig × Bool)) :=
  ⟨step multiaddr render parse file⟩

end

/-- The file holds one of the configurations it may hold, whole; each of them is read back as it
    was written; and the other files are as they were. -/
structure Whole (render : ReactorConfig → String) (parse : String → Option ReactorConfig)
    (file : Path) (fs₀ : Fs) (s : DiskState) : Prop where
  content : ∃ c ∈ s.possible, contentOf s.fs file = some (strBytes (render c))
  round : ∀ c ∈ s.possible, parse (render c) = some c
  others : OthersKept file fs₀ s.fs

variable {s : DiskState} {ms : List Mishap}

theorem run_save (render : ReactorConfig → String) (file : Path) (c : ReactorConfig)
    (ms : List Mishap) (fs : Fs) :
    OldOrNew file fs (render c) ((save render file c).run perform ms fs).2 ∧
      ∀ rest, ((save render file c).run perform ms fs).1 = some (.ok (), rest) →
        contentOf ((save render file c).run perform ms fs).2 file = some (strBytes (render c)) := by
  have hall := Prog.always_iff_run.mp (always_save render file fs c) ms
  cases hrun : (save render file c).run perform ms fs with
  | mk r t =>
    rw [hrun] at hall
    cases r with
    | none => exact ⟨hall, fun rest h => nomatch h⟩
    | some ra =>
      refine ⟨hall.1, fun rest h => hall.2 ?_⟩
      exact congrArg Prod.fst (Option.some.inj h)

theorem Whole.save (multiaddr : String → Except String ParsedAddr)
    (hs : Whole render parse file fs₀ s) (hc : parse (render c) = some c) :
    Whole render parse file fs₀ (step multiaddr render parse file s (.save c ms)).1 := by
  obtain ⟨c', hc', hold⟩ := hs.content
  obtain ⟨holdOrNew, hok⟩ := run_save render file c ms s.fs
  have hothers : OthersKept file fs₀ ((ConfigDisk.save render file c).run perform ms s.fs).2 :=
    fun p hp hb => (holdOrNew.others p hp hb).trans (hs.others p hp hb)
  show Whole render parse file fs₀ ⟨_, afterSave s.possible c
    (((ConfigDisk.save render file c).run perform ms s.fs).1.map Prod.fst)⟩
  cases hr : ((ConfigDisk.save render file c).run perform ms s.fs).1 with
  | none =>
    refine ⟨?_, fun x hx => ?_, hothers⟩
    · rcases holdOrNew.content with h | h
      · exact ⟨c', List.mem_append_left _ hc', h.trans hold⟩
      · exact ⟨c, List.mem_append_right _ (List.mem_singleton_self _), h⟩
    · rcases List.mem_append.mp hx with hx | hx
      · exact hs.round x hx
      · rw [List.mem_singleton.mp hx]
        exact hc
  | some ra =>
    obtain ⟨r, rest⟩ := ra
    cases r with
    | ok u =>
      refine ⟨⟨c, List.mem_singleton_self _, hok rest hr⟩, fun x hx => ?_, hothers⟩
      rw [List.mem_singleton.mp hx]
      exact hc
    | error e =>
      refine ⟨?_, fun x hx => ?_, hothers⟩
      · rcases holdOrNew.content with h | h
        · exact ⟨c', List.mem_append_left _ hc', h.trans hold⟩
        · exact ⟨c, List.mem_append_right _ (List.mem_singleton_self _), h⟩
      · rcases List.mem_append.mp hx with hx | hx
        · exact hs.round x hx
        · rw [List.mem_singleton.mp hx]
          exact hc

theorem Whole.load (multiaddr : String → Except String ParsedAddr)
    (hs : Whole render parse file fs₀ s) (now : ℕ)
    (ms : List Mishap) :
    (step multiaddr render parse file s (.load now ms)).1 = s ∧
      ∀ x, .ok x ∈ (step multiaddr render parse file s (.load now ms)).2 →
        ∃ c ∈ s.possible, x = (c, false) ∧ contentOf s.fs file = some (strBytes (render c)) := by
  obtain ⟨c, hc, hcontent⟩ := hs.content
  have hall := Prog.always_iff_run.mp
    (always_loadQuiet multiaddr render hcontent (hs.round c hc) now) ms
  show (⟨((loadQuiet multiaddr render parse file now).run perform ms s.fs).2, s.possible⟩ :
      DiskState) = s ∧ ∀ x, .ok x ∈ (((loadQuiet multiaddr render parse file now).run perform ms
        s.fs).1.map Prod.fst).toList → _
  cases hrun : (loadQuiet multiaddr render parse file now).run perform ms s.fs with
  | mk r t =>
    rw [hrun] at hall
    cases r with
    | none =>
      obtain rfl : t = s.fs := hall
      exact ⟨rfl, fun x hx => absurd hx List.not_mem_nil⟩
    | some ra =>
      obtain ⟨rfl, hval⟩ := hall
      refine ⟨rfl, fun x hx => ⟨c, hc, hval x ?_, hcontent⟩⟩
      exact (List.mem_singleton.mp hx).symm

/-- The configurations of a run. -/
def Named (c₀ : ReactorConfig) (ins : List DiskStep) (c : ReactorConfig) : Prop :=
  c = c₀ ∨ ∃ ms, .save c ms ∈ ins

theorem whole_run (multiaddr : String → Except String ParsedAddr)
    (hstart : contentOf fs₀ file = some (strBytes (render c₀)))
    (ins : List DiskStep) (hround : ∀ c, Named c₀ ins c → parse (render c) = some c) :
    Whole render parse file fs₀ ((machine multiaddr render parse file).run ⟨fs₀, [c₀]⟩ ins) := by
  refine (machine multiaddr render parse file).run_invariant
    (I := fun past s => (∀ c, Named c₀ past c → parse (render c) = some c) →
      Whole render parse file fs₀ s) ?_ ?_ ins hround
  · intro hround
    refine ⟨⟨c₀, List.mem_singleton_self _, hstart⟩, fun c hc => ?_, .refl file fs₀⟩
    rw [List.mem_singleton.mp hc]
    exact hround c₀ (Or.inl rfl)
  · intro past s i ih hround
    have hs := ih fun c hc => hround c (hc.imp_right fun ⟨ms, hms⟩ =>
      ⟨ms, List.mem_append_left _ hms⟩)
    cases i with
    | save c ms =>
      have hlast : DiskStep.save c ms ∈ past ++ [.save c ms] :=
        List.mem_append_right _ (List.mem_singleton_self _)
      exact hs.save multiaddr (hround c (Or.inr ⟨ms, hlast⟩))
    | load now ms =>
      have hsame := (hs.load multiaddr now ms).1
      show Whole render parse file fs₀ (step multiaddr render parse file s (.load now ms)).1
      rw [hsame]
      exact hs

/-- **`config.json` is whole.**  From a good file on, in every run of saves and loads, whatever
    fails and wherever the daemon is killed: the file holds, whole, the configuration that was last
    saved with success or that of a save since then; no other file is touched but the one beside
    it; and a load touches no file at all, and gives the configuration that is there. -/
theorem config_file_is_whole (multiaddr : String → Except String ParsedAddr)
    {render : ReactorConfig → String} {parse : String → Option ReactorConfig} {file : Path}
    {fs₀ : Fs} {c₀ : ReactorConfig}
    (hstart : contentOf fs₀ file = some (strBytes (render c₀))) (ins : List DiskStep)
    (hround : ∀ c, Named c₀ ins c → parse (render c) = some c) :
    (∃ c ∈ ((machine multiaddr render parse file).run ⟨fs₀, [c₀]⟩ ins).possible,
      contentOf ((machine multiaddr render parse file).run ⟨fs₀, [c₀]⟩ ins).fs file =
        some (strBytes (render c))) ∧
    OthersKept file fs₀ ((machine multiaddr render parse file).run ⟨fs₀, [c₀]⟩ ins).fs ∧
    ∀ (now : ℕ) (ms : List Mishap),
      (step multiaddr render parse file ((machine multiaddr render parse file).run ⟨fs₀, [c₀]⟩ ins)
        (.load now ms)).1 = (machine multiaddr render parse file).run ⟨fs₀, [c₀]⟩ ins ∧
      ∀ x, .ok x ∈ (step multiaddr render parse file
          ((machine multiaddr render parse file).run ⟨fs₀, [c₀]⟩ ins) (.load now ms)).2 →
        ∃ c ∈ ((machine multiaddr render parse file).run ⟨fs₀, [c₀]⟩ ins).possible,
          x = (c, false) ∧ contentOf ((machine multiaddr render parse file).run ⟨fs₀, [c₀]⟩ ins).fs
            file = some (strBytes (render c)) := by
  have hwhole := whole_run multiaddr hstart ins hround
  exact ⟨hwhole.content, hwhole.others, fun now ms => hwhole.load multiaddr now ms⟩

/-! ## A text that is not a configuration -/

theorem quarantined_ne (file : Path) (now : ℕ) : quarantined file now ≠ file := by
  intro heq
  have hlast := congrArg List.getLast? heq
  unfold quarantined withFileName at hlast
  rw [List.getLast?_concat] at hlast
  unfold fileName at hlast
  rw [← hlast] at hlast
  have hlen := congrArg String.length (Option.some.inj hlast)
  rw [Option.getD_some, String.length_append, String.length_append] at hlen
  have hdot : (".corrupt-": String).length = 9 := rfl
  omega

theorem quarantined_inj {now now' : ℕ} (h : quarantined file now = quarantined file now') :
    now = now' := by
  have hlast := congrArg List.getLast? h
  unfold quarantined withFileName at hlast
  rw [List.getLast?_concat, List.getLast?_concat] at hlast
  have htext := String.append_right_inj _ |>.mp (Option.some.inj hlast)
  have hnat := congrArg String.toNat? htext
  rw [Nat.toString_eq_repr, Nat.toString_eq_repr, Nat.toNat?_repr, Nat.toNat?_repr] at hnat
  exact Option.some.inj hnat

/-- Nothing but the file and where it is moved. -/
def TouchesOnly (file : Path) (now : ℕ) (fs t : Fs) : Prop :=
  ∀ p, p ≠ file → p ≠ quarantined file now → t p = fs p

theorem always_replaceByDefaults (render : ReactorConfig → String) (file : Path) (fs : Fs) :
    (replaceByDefaults render file).always perform (fun t => ∀ p, p ≠ file → t p = fs p)
      (fun _ t => ∀ p, p ≠ file → t p = fs p) fs := by
  have hframe : ∀ {o : FileOp} {t : Fs} (m : Mishap), (∀ p ∈ o.paths, p = file) →
      (∀ p, p ≠ file → t p = fs p) → ∀ p, p ≠ file → (perform t o m).2 p = fs p := by
    intro o t m ho ht p hp
    rw [perform_other fun hmem => hp (ho p hmem)]
    exact ht p hp
  refine ⟨fun _ _ => rfl, fun m => ?_⟩
  have hwrite := hframe (o := .write file (strBytes (render .default))) m
    (fun p hp => List.mem_singleton.mp hp) fun _ _ => rfl
  cases m with
  | some m => exact hwrite
  | none =>
    refine ⟨hwrite, fun m => ?_⟩
    exact hframe (o := .setPermissions file 0o600) m (fun p hp => List.mem_singleton.mp hp) hwrite

theorem always_loadText (multiaddr : String → Except String ParsedAddr)
    (render : ReactorConfig → String) (parse : String → Option ReactorConfig) (file : Path)
    (now : ℕ) (raw : String) (fs : Fs) :
    (loadText multiaddr render parse file now raw).always perform (TouchesOnly file now fs)
      (fun _ t => TouchesOnly file now fs t) fs := by
  unfold loadText
  cases parse raw with
  | some c =>
    dsimp only
    cases c.validate multiaddr <;> exact fun _ _ _ => rfl
  | none =>
    refine ⟨fun _ _ _ => rfl, fun m => ?_⟩
    have hmoved : TouchesOnly file now fs
        (perform fs (.rename file (quarantined file now)) m).2 := by
      intro p hp hq
      refine perform_other (fun hmem => ?_) fs m
      rcases List.mem_cons.mp hmem with rfl | hmem
      · exact hp rfl
      · exact hq (List.mem_singleton.mp hmem)
    refine Prog.always_mono (always_replaceByDefaults render file _) (fun t ht p hp hq => ?_)
      fun _ t ht p hp hq => ?_
    · exact (ht p hp).trans (hmoved p hp hq)
    · exact (ht p hp).trans (hmoved p hp hq)

/-- A load touches the file and the place it is moved to, nothing else. -/
theorem always_loadQuiet_frame (multiaddr : String → Except String ParsedAddr)
    (render : ReactorConfig → String) (parse : String → Option ReactorConfig) (file : Path)
    (now : ℕ) (fs : Fs) :
    (loadQuiet multiaddr render parse file now).always perform (TouchesOnly file now fs)
      (fun _ t => TouchesOnly file now fs t) fs := by
  refine ⟨fun _ _ _ => rfl, fun m => ?_⟩
  have hread : (perform fs (.read file) m).2 = fs := by
    cases m with
    | some m => rfl
    | none => cases hf : fs file <;> simp [perform, Update.perform, hf]
  rw [hread]
  cases (perform fs (.read file) m).1 with
  | ok bytes =>
    dsimp only
    cases readString bytes with
    | some raw => exact always_loadText multiaddr render parse file now raw fs
    | none => exact fun _ _ _ => rfl
  | error e =>
    dsimp only
    split
    · exact Prog.always_mono (always_replaceByDefaults render file fs) (fun t ht p hp _ => ht p hp)
        fun _ t ht p hp _ => ht p hp
    · exact fun _ _ _ => rfl

/-- The rename of the load, its second operation, does not fail. -/
def Moves (ms : List Mishap) : Prop := ∀ m, ms[1]? = some m → m = none

/-- **A load of a text that is not a configuration**: the text stays where it is, or is moved. -/
theorem kept_by_load (multiaddr : String → Except String ParsedAddr)
    (render : ReactorConfig → String) {f : File} {raw : String} (hf : fs file = some f)
    (hraw : readString f.bytes = some raw) (hparse : parse raw = none) (now : ℕ)
    (hmoves : Moves ms) :
    ((loadQuiet multiaddr render parse file now).run perform ms fs).2 file = some f ∨
      ((loadQuiet multiaddr render parse file now).run perform ms fs).2 (quarantined file now) =
        some f := by
  cases ms with
  | nil => exact Or.inl hf
  | cons m ms =>
    unfold loadQuiet Prog.run
    cases m with
    | some m =>
      left
      dsimp only
      show (Prog.run perform (if (if m.1 = notFound then "Input/output error" else m.1) =
        notFound then _ else _) ms fs).2 file = some f
      rw [if_neg perform_error_ne]
      exact hf
    | none =>
      have hread : perform fs (.read file) none = (.ok f.bytes, fs) := by
        simp [perform, Update.perform, hf]
      rw [hread]
      dsimp only
      rw [hraw]
      dsimp only
      unfold loadText
      rw [hparse]
      dsimp only
      cases ms with
      | nil => exact Or.inl hf
      | cons m ms =>
        right
        obtain rfl : m = none := hmoves m rfl
        have hrename : perform fs (.rename file (quarantined file now)) none =
            (.ok (), Function.update (Function.update fs file none) (quarantined file now)
              (some f)) := by
          simp [perform, Update.perform, hf]
        unfold Prog.run
        rw [hrename]
        dsimp only
        have hall := Prog.always_iff_run.mp (always_replaceByDefaults render file
          (Function.update (Function.update fs file none) (quarantined file now) (some f))) ms
        have hmoved : Function.update (Function.update fs file none) (quarantined file now)
            (some f) (quarantined file now) = some f := Function.update_self ..
        cases hrun : (replaceByDefaults render file).run perform ms
            (Function.update (Function.update fs file none) (quarantined file now) (some f)) with
        | mk r t =>
          rw [hrun] at hall
          cases r with
          | none => exact (hall _ (quarantined_ne file now)).trans hmoved
          | some ra => exact (hall _ (quarantined_ne file now)).trans hmoved

/-- Loads one after the other, at these times. -/
def loads (multiaddr : String → Except String ParsedAddr) (render : ReactorConfig → String)
    (parse : String → Option ReactorConfig) (file : Path) (fs : Fs)
    (ls : List (ℕ × List Mishap)) : Fs :=
  ls.foldl (fun fs l => ((loadQuiet multiaddr render parse file l.1).run perform l.2 fs).2) fs

open Sample

/-- A configuration of which only the log level is not the default. -/
def terse (c : ReactorConfig) : String := "\x7b\"logLevel\":\"" ++ c.logLevel ++ "\"\x7d"

def debugging : ReactorConfig := { ReactorConfig.default with logLevel := "debug" }

def readTerse (s : String) : Option ReactorConfig :=
  if s = terse .default then some .default
  else if s = terse debugging then some debugging
  else none

def home : Path := ["home", "config.json"]

/-- The defaults on disk. -/
def homeFs : Fs := fun p => if p = home then some ⟨strBytes (terse .default), 0o600⟩ else none

/-- A save that is killed after the rename, and a load. -/
theorem config_file_is_whole_home :
    ∃ c ∈ ((machine anyAddr terse readTerse home).run ⟨homeFs, [.default]⟩
        [.save debugging [none, none, none], .load 7 [none]]).possible,
      contentOf ((machine anyAddr terse readTerse home).run ⟨homeFs, [.default]⟩
        [.save debugging [none, none, none], .load 7 [none]]).fs home =
          some (strBytes (terse c)) := by
  refine (config_file_is_whole anyAddr rfl _ ?_).1
  rintro c (rfl | ⟨ms, hms⟩)
  · exact if_pos rfl
  · simp only [List.mem_cons, DiskStep.save.injEq, reduceCtorEq, List.not_mem_nil, or_false] at hms
    obtain ⟨rfl, -⟩ := hms
    have hne : terse debugging ≠ terse .default := by decide +kernel
    exact (if_neg hne).trans (if_pos rfl)

/-- A file that somebody has left half written. -/
def brokenFs : Fs := fun p => if p = home then some ⟨strBytes "\x7b \"logLevel\":", 0o600⟩ else none

end PhReactor.ConfigDisk
