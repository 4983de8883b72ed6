/-
  Applying a release (`src/update/apply.rs`): stage, verify, swap, keep the old one.

  The old binary is renamed to `.previous` and then the staged one is renamed into its place: each
  rename is atomic, the two are not.  Between them, and for good if the second one fails, the path
  that runs next names nothing.

  1. `apply` is the program, a step of the source a step of it; `prepare` is what comes before the
     directory is chosen, `applyIn` what comes after.

  2. `Due` is when the checks at the start let a release through.  A run over a release that is not
     due touches no file (`always_apply_of_not_due`).

  3. For a release that is due some run takes the target away (`not_always_applyIn`).  So the binary
     is always there exactly if the release is refused (`binary_always_there_iff`).

  4. What is never lost (`old_or_previous`): where the target is gone, the old binary is under
     `.previous` and the staged one is complete.
-/
import PhReactor.Update.Files
import PhReactor.Sample

namespace PhReactor.Update

open Lib

/-! ## The program -/

inductive ApplyError where
  /-- The bytes did not match the hash the publisher signed. -/
  | corrupt (msg : String)
  /-- Not all chunks have arrived yet. -/
  | incomplete (missing : ℕ)
  | wrongPlatform (want got : String)
  | notNewer (current offered : String)
  | io (msg : String)
  deriving DecidableEq

/-- The directory of the running binary. -/
def beside (exe : Path) : Path := exe.parent?.getD ["."]

def probe (dir : Path) : Path := dir.join ".ph-reactor-write-probe"

/-- Asked by trying, not by reading permission bits. -/
def isWritable (dir : Path) : FileProg Bool :=
  .call (.write (probe dir) []) fun
    | .ok _ => .call (.removeFile (probe dir)) fun _ => .done true
    | .error _ => .done false

/-- Beside the running binary when that directory is writable, else in the state directory. -/
def stagingDir (exe stateDir : Path) : FileProg Path :=
  (isWritable (beside exe)).bind fun writable =>
    .done (if writable then beside exe else stateDir.join "bin")

/-- The running binary when its directory is the one, and a copy in the state directory
    otherwise. -/
def targetIn (exe dir : Path) : Path := if dir = beside exe then exe else dir.join "ph-reactor"

def previousOf (target : Path) : Path := target.withSuffix ".previous"

/-- Keep what is running. -/
def preserve (target staged : Path) : FileProg (Except ApplyError Unit) :=
  .call (.fileExists target) fun (there : Bool) =>
    if there then
      .call (.rename target (previousOf target)) fun
        | .ok _ => .done (.ok ())
        | .error e =>
          -- never proceed if the thing being replaced could not be preserved
          .call (.fileExists target) fun (there : Bool) =>
            if there then
              .call (.removeFile staged) fun _ =>
                .done (.error (.io ("could not preserve the current binary: " ++ e)))
            else .done (.ok ())
    else .done (.ok ())

def install (staged target : Path) : FileProg (Except ApplyError Unit) :=
  .call (.rename staged target) fun
    | .ok _ => .done (.ok ())
    | .error e => .done (.error (.io ("installing " ++ target.display ++ ": " ++ e)))

def Release.staged (release : Release) (dir : Path) : Path :=
  dir.join (".ph-reactor-" ++ release.version ++ ".staged")

/-- The staged binary and the old one have different names. -/
theorem staged_ne_previousOf {release : Release} {dir : Path} (target : Path) :
    release.staged dir ≠ previousOf target := by
  intro heq
  have hlast := congrArg List.getLast? heq
  have hprevious : ∃ l, (previousOf target).getLast? = some (l ++ ".previous") := by
    unfold previousOf Path.withSuffix
    cases hl : target.getLast? with
    | none => exact ⟨"", rfl⟩
    | some l =>
      dsimp only
      split
      · exact ⟨"", by simp⟩
      · exact ⟨l, by simp⟩
  obtain ⟨l, hl⟩ := hprevious
  rw [hl] at hlast
  unfold Release.staged Path.join at hlast
  rw [List.getLast?_concat] at hlast
  -- they end in different letters
  have hend := congrArg (fun s : String => s.toList.getLast?) (Option.some.inj hlast)
  simp only [String.toList_append, List.getLast?_append] at hend
  rw [show ".staged".toList.getLast? = some 'd' from by decide,
    show ".previous".toList.getLast? = some 's' from by decide] at hend
  cases hend

section

variable [Primitives] (release : Release) (blobs : BlobStore) (exe stateDir : Path)
  (current platform : String)

/-- The checks, and the bytes of the binary. -/
def fetch : FileProg (Except ApplyError (List UInt8)) :=
  if !release.runsOn platform then .done (.error (.wrongPlatform platform release.platform))
  else if !release.isNewerThan current then .done (.error (.notNewer current release.version))
  else
    (blobs.missing release.binary.chunks []).bind fun missing =>
      if 0 < missing.length then .done (.error (.incomplete missing.length))
      else (blobs.get release.binary).bind fun r => .done (r.mapError .corrupt)

/-- What comes before the files are touched, but for the probe: the bytes, and the directory in
    which they are staged. -/
def prepare : FileProg (Except ApplyError (List UInt8 × Path)) :=
  (fetch release blobs current platform).andThen fun bytes =>
    (stagingDir exe stateDir).bind fun dir => .done (.ok (bytes, dir))

/-- Write, re-read what actually landed on disk, make it executable. -/
def stage (bytes : List UInt8) (dir : Path) : FileProg (Except ApplyError Unit) :=
  .call (.createDirAll dir) fun
    | .error e => .done (.error (.io ("creating " ++ dir.display ++ ": " ++ e)))
    | .ok _ => .call (.write (release.staged dir) bytes) fun
      | .error e => .done (.error (.io ("writing " ++ (release.staged dir).display ++ ": " ++ e)))
      | .ok _ => .call (.read (release.staged dir)) fun
        | .error e =>
          .done (.error (.io ("re-reading " ++ (release.staged dir).display ++ ": " ++ e)))
        | .ok written =>
          if Primitives.sha256 written ≠ release.binary.hash then
            .call (.removeFile (release.staged dir)) fun _ =>
              .done (.error (.corrupt "what landed on disk is not what was verified"))
          else .call (.setPermissions (release.staged dir) 0o755) fun
            | .error e =>
              .done (.error (.io ("chmod " ++ (release.staged dir).display ++ ": " ++ e)))
            | .ok _ => .done (.ok ())

/-- When the update does not land on the path this process was started from, a marker names what
    the next start should run. -/
def mark (target dir : Path) : FileProg (Except ApplyError Unit) :=
  if target ≠ exe then
    .call (.write (dir.join "staged.json") (toVec (.object
      [("path", .string target.display), ("version", .string release.version)]))) fun
      | .ok _ => .done (.ok ())
      | .error e =>
        .done (.error (.io ("writing " ++ (dir.join "staged.json").display ++ ": " ++ e)))
  else .done (.ok ())

/-- What comes after the directory is chosen. -/
def applyIn (bytes : List UInt8) (dir : Path) : FileProg (Except ApplyError Path) :=
  (stage release bytes dir).andThen fun _ =>
    (preserve (targetIn exe dir) (release.staged dir)).andThen fun _ =>
      (install (release.staged dir) (targetIn exe dir)).andThen fun _ =>
        (mark release exe (targetIn exe dir) dir).andThen fun _ => .done (.ok (targetIn exe dir))

/-- Stages a release's binary and puts it in place; returns the path that will run next. -/
def apply : FileProg (Except ApplyError Path) :=
  (prepare release blobs exe stateDir current platform).andThen fun (bytes, dir) =>
    applyIn release exe bytes dir

/-! ## Releases that are due -/

/-- The release is for this platform and newer, and its binary is whole. -/
structure Due (fs : Fs) : Prop where
  platform : release.runsOn platform = true
  newer : release.isNewerThan current = true
  whole : ∃ bytes, blobs.chunksIn fs release.binary.chunks = some bytes ∧
    BlobStore.verify release.binary bytes = .ok bytes

variable {release blobs exe stateDir current platform}

theorem verify_eq_ok {r : BlobRef} {out bytes : List UInt8}
    (h : BlobStore.verify r out = .ok bytes) : out = bytes ∧ Primitives.sha256 bytes = r.hash := by
  unfold BlobStore.verify at h
  split at h
  · cases h
  · split at h
    · cases h
    · rename_i hhash
      obtain rfl := Except.ok.inj h
      exact ⟨rfl, not_not.mp hhash⟩

/-- The bytes come out of a release that is due, and the files stay as they are. -/
theorem always_fetch (fs : Fs) : (fetch release blobs current platform).always perform (· = fs)
    (fun r t => t = fs ∧ ∀ bytes, r = .ok bytes → Due release blobs current platform fs ∧
      Primitives.sha256 bytes = release.binary.hash) fs := by
  unfold fetch
  split
  · exact ⟨rfl, fun bytes h => by cases h⟩
  · rename_i hplatform
    split
    · exact ⟨rfl, fun bytes h => by cases h⟩
    · rename_i hnewer
      rw [Prog.always_bind]
      refine Prog.always_mono (BlobStore.always_missing _ _) (fun _ h => h) ?_
      rintro missing t rfl
      split
      · exact ⟨rfl, fun bytes h => by cases h⟩
      · unfold BlobStore.get
        rw [Prog.always_bind, Prog.always_bind]
        refine Prog.always_mono (BlobStore.always_concat _ _) (fun _ h => h) ?_
        rintro r t ⟨rfl, hr⟩
        cases r with
        | error e => exact ⟨rfl, fun bytes h => by cases h⟩
        | ok out =>
          refine ⟨rfl, fun bytes h => ?_⟩
          obtain ⟨b, hb, hout⟩ := hr out rfl
          rw [List.nil_append] at hout
          subst hout
          have hv : BlobStore.verify release.binary out = .ok bytes := by
            cases hv : BlobStore.verify release.binary out with
            | error e =>
              rw [hv] at h
              cases h
            | ok out' =>
              rw [hv] at h
              exact congrArg Except.ok (Except.ok.inj h)
          obtain ⟨rfl, hhash⟩ := verify_eq_ok hv
          exact ⟨⟨by simpa using hplatform, by simpa using hnewer, out, hb, hv⟩, hhash⟩

/-- When nothing goes wrong, a release that is due gives its bytes. -/
theorem eval_fetch {fs : Fs} (h : Due release blobs current platform fs) :
    ∃ bytes, (fetch release blobs current platform).eval perform .ok fs = (.ok bytes, fs) ∧
      Primitives.sha256 bytes = release.binary.hash := by
  obtain ⟨bytes, hbytes, hv⟩ := h.whole
  refine ⟨bytes, ?_, (verify_eq_ok hv).2⟩
  unfold fetch
  rw [h.platform, h.newer, Bool.not_true, if_neg Bool.false_ne_true, if_neg Bool.false_ne_true,
    Prog.eval_bind, BlobStore.eval_missing (by rw [hbytes]; rfl)]
  dsimp only [List.length_nil]
  rw [if_neg (lt_irrefl 0)]
  unfold BlobStore.get
  rw [Prog.eval_bind, Prog.eval_bind, BlobStore.eval_concat hbytes, List.nil_append]
  show (Except.mapError ApplyError.corrupt (BlobStore.verify release.binary bytes), fs) = _
  rw [hv]
  rfl

/-- A release that is not due leaves every file as it is, wherever the run ends. -/
theorem always_apply_of_not_due {fs : Fs} (h : ¬ Due release blobs current platform fs) :
    (apply release blobs exe stateDir current platform).always perform (· = fs)
      (fun _ t => t = fs) fs := by
  unfold apply prepare
  rw [Prog.always_andThen, Prog.always_andThen]
  refine Prog.always_mono (always_fetch fs) (fun _ h => h) ?_
  rintro r t ⟨rfl, hr⟩
  cases r with
  | error e => rfl
  | ok bytes => exact absurd (hr bytes rfl).1 h

/-! ## The window -/

/-- The target holds the old binary or a complete new one. -/
def Complete (release : Release) (old : File) (target : Path) (fs : Fs) : Prop :=
  ∃ f, fs target = some f ∧ (f.bytes = old.bytes ∨ Primitives.sha256 f.bytes = release.binary.hash)

theorem eval_stage {bytes : List UInt8} (hhash : Primitives.sha256 bytes = release.binary.hash)
    (dir : Path) (t : Fs) : (stage release bytes dir).eval perform .ok t =
      (.ok (), Function.update t (release.staged dir) (some ⟨bytes, 0o755⟩)) := by
  unfold stage
  simp [Prog.eval, perform, hhash]

/-- **No run that gets this far is safe**: it may end with the old binary away and the new one not
    there yet. -/
theorem not_always_applyIn {old : File} {bytes : List UInt8} {dir : Path} {t : Fs}
    (hhash : Primitives.sha256 bytes = release.binary.hash) :
    ¬ (applyIn release exe bytes dir).always perform (Complete release old (targetIn exe dir))
      (fun _ => Complete release old (targetIn exe dir)) t := by
  intro h
  unfold applyIn at h
  rw [Prog.always_andThen] at h
  replace h := Prog.post_eval .ok h
  rw [eval_stage hhash, Prog.always_andThen] at h
  generalize Function.update t (release.staged dir) (some ⟨bytes, 0o755⟩) = t₁ at h
  -- the target is there, and is renamed
  obtain ⟨⟨f, hf, -⟩, hrename⟩ := h
  replace hf : t₁ (targetIn exe dir) = some f := hf
  replace hrename := hrename .ok
  have hthere : perform t₁ (.fileExists (targetIn exe dir)) .ok = (true, t₁) := by
    simp [perform, hf]
  rw [hthere] at hrename
  obtain ⟨-, hinstall⟩ := hrename
  replace hinstall := hinstall .ok
  have haway : perform t₁ (.rename (targetIn exe dir) (previousOf (targetIn exe dir))) .ok =
      (.ok (), Function.update (Function.update t₁ (targetIn exe dir) none)
        (previousOf (targetIn exe dir)) (some f)) := by
    simp [perform, hf]
  rw [haway] at hinstall
  -- here the run may end
  obtain ⟨⟨g, hg, -⟩, -⟩ := hinstall
  have hne : targetIn exe dir ≠ previousOf (targetIn exe dir) :=
    (Path.withSuffix_ne (by decide) _).symm
  replace hg : Function.update (Function.update t₁ (targetIn exe dir) none)
      (previousOf (targetIn exe dir)) (some f) (targetIn exe dir) = some g := hg
  rw [Function.update_of_ne hne, Function.update_self] at hg
  cases hg

/-! ## When the binary is always there -/

/-- The directory in which a run stages, once it has chosen one. -/
def stagedDir (release : Release) (blobs : BlobStore) (exe stateDir : Path)
    (current platform : String) (fs : Fs) (cs : List Outcome) : Option Path :=
  match ((prepare release blobs exe stateDir current platform).run perform cs fs).1 with
  | some (.ok (_, dir), _) => some dir
  | _ => none

/-- **What holds in every run that stages in `dir`**: it holds throughout `prepare`, and from there
    on where `dir` has been chosen. -/
theorem runs_iff_always {dir : Path} {fs : Fs} {C : Fs → Prop} :
    (∀ cs, (∀ d, stagedDir release blobs exe stateDir current platform fs cs = some d →
      d = dir) → C ((apply release blobs exe stateDir current platform).run perform cs fs).2) ↔
    (prepare release blobs exe stateDir current platform).always perform C
      (fun r t => (∀ e, r = .error e → C t) ∧ ∀ bytes, r = .ok (bytes, dir) →
        (applyIn release exe bytes dir).always perform C (fun _ => C) t) fs := by
  rw [Prog.always_iff_run]
  constructor
  · intro h cs
    cases hrun : (prepare release blobs exe stateDir current platform).run perform cs fs with
    | mk result t =>
      cases result with
      | none =>
        have hcrash := h cs fun d hd => by
          unfold stagedDir at hd
          rw [hrun] at hd
          cases hd
        unfold apply Prog.andThen at hcrash
        rw [Prog.run_bind, hrun] at hcrash
        exact hcrash
      | some p =>
        obtain ⟨r, rest⟩ := p
        refine ⟨?_, ?_⟩
        · rintro e rfl
          have hend := h cs fun d hd => by
            unfold stagedDir at hd
            rw [hrun] at hd
            cases hd
          unfold apply Prog.andThen at hend
          rw [Prog.run_bind, hrun] at hend
          exact hend
        · rintro bytes rfl
          rw [Prog.always_iff_run]
          intro cs'
          -- the same start, and then these outcomes
          obtain ⟨used, hused⟩ := Prog.run_prefix hrun
          have hend := h (used ++ cs') fun d hd => by
            unfold stagedDir at hd
            rw [hused] at hd
            exact (Option.some.inj hd).symm
          unfold apply Prog.andThen at hend
          rw [Prog.run_bind, hused] at hend
          dsimp only at hend
          cases hrun' : (applyIn release exe bytes dir).run perform cs' t with
          | mk result' t' =>
            rw [hrun'] at hend
            cases result' <;> exact hend
  · intro h cs hdir
    have hcs := h cs
    unfold stagedDir at hdir
    unfold apply Prog.andThen
    rw [Prog.run_bind]
    cases hrun : (prepare release blobs exe stateDir current platform).run perform cs fs with
    | mk result t =>
      rw [hrun] at hcs hdir
      cases result with
      | none => exact hcs
      | some p =>
        obtain ⟨r, rest⟩ := p
        cases r with
        | error e => exact hcs.1 e rfl
        | ok b =>
          obtain ⟨bytes, d⟩ := b
          obtain rfl := hdir d rfl
          have hrest := Prog.always_iff_run.mp (hcs.2 bytes rfl) rest
          dsimp only
          cases hrun' : (applyIn release exe bytes d).run perform rest t with
          | mk result' t' =>
            rw [hrun'] at hrest
            cases result' <;> exact hrest

/-- A release that is due reaches `applyIn` in either directory. -/
theorem not_always_prepare {old : File} {dir : Path} {fs : Fs}
    (hdir : dir = beside exe ∨ dir = stateDir.join "bin")
    (hdue : Due release blobs current platform fs) :
    ¬ (prepare release blobs exe stateDir current platform).always perform
      (Complete release old (targetIn exe dir))
      (fun r t => (∀ e, r = .error e → Complete release old (targetIn exe dir) t) ∧
        ∀ bytes, r = .ok (bytes, dir) → (applyIn release exe bytes dir).always perform
          (Complete release old (targetIn exe dir))
            (fun _ => Complete release old (targetIn exe dir)) t) fs := by
  intro h
  obtain ⟨bytes, heval, hhash⟩ := eval_fetch hdue
  unfold prepare at h
  rw [Prog.always_andThen] at h
  replace h := Prog.post_eval .ok h
  rw [heval] at h
  dsimp only at h
  unfold stagingDir isWritable at h
  rw [Prog.always_bind, Prog.always_bind] at h
  by_cases hbeside : dir = beside exe
  · -- the probe is written and removed
    have hchosen := (h.2 .ok).2 .ok
    exact not_always_applyIn hhash (hchosen.2 bytes (by rw [hbeside]; rfl))
  · -- the probe cannot be written
    obtain rfl : dir = stateDir.join "bin" := hdir.resolve_left hbeside
    have hchosen := h.2 (.fails "" (fs (probe (beside exe))))
    exact not_always_applyIn hhash (hchosen.2 bytes rfl)

/-- **A running binary is always there, exactly if the release is refused.**  Take a file system
    with a binary at the path that runs next.  Every run that stages in that directory leaves the
    old binary or a complete new one at the path, whatever fails and wherever it crashes, if and
    only if the release is not due. -/
theorem binary_always_there_iff (release : Release) (blobs : BlobStore) (exe stateDir : Path)
    (current platform : String) (dir : Path)
    (hdir : dir = beside exe ∨ dir = stateDir.join "bin") (fs : Fs) (old : File)
    (hold : fs (targetIn exe dir) = some old) :
    (∀ cs, (∀ d, stagedDir release blobs exe stateDir current platform fs cs = some d →
        d = dir) → Complete release old (targetIn exe dir)
          ((apply release blobs exe stateDir current platform).run perform cs fs).2) ↔
      ¬ Due release blobs current platform fs := by
  constructor
  · exact fun h hdue => not_always_prepare hdir hdue (runs_iff_always.mp h)
  · intro hdue cs _
    have halways : (apply release blobs exe stateDir current platform).always perform (· = fs)
        (fun _ t => t = fs) fs := always_apply_of_not_due hdue
    have hrun := Prog.always_iff_run.mp halways cs
    have hsame :
        ((apply release blobs exe stateDir current platform).run perform cs fs).2 = fs := by
      cases hr : (apply release blobs exe stateDir current platform).run perform cs fs with
      | mk result t =>
        rw [hr] at hrun
        cases result <;> exact hrun
    rw [hsame]
    exact ⟨old, hold, Or.inl rfl⟩

/-! ## What is never lost -/

/-- A complete new binary at the path. -/
def Holds (release : Release) (p : Path) (fs : Fs) : Prop :=
  ∃ f, fs p = some f ∧ Primitives.sha256 f.bytes = release.binary.hash

/-- Between the two renames. -/
def Window (release : Release) (old : File) (target staged : Path) (fs : Fs) : Prop :=
  fs target = none ∧ fs (previousOf target) = some old ∧ Holds release staged fs

variable {old : File} {dir : Path} {fs : Fs}

theorem always_stage {target : Path} (hne : target ≠ release.staged dir)
    (hold : fs target = some old) (bytes : List UInt8) :
    (stage release bytes dir).always perform (fun t => t target = some old)
      (fun r t => t target = some old ∧ (r = .ok () → Holds release (release.staged dir) t))
      fs := by
  refine ⟨hold, fun c => ?_⟩
  have hdir := perform_createDirAll fs dir c
  generalize perform fs (.createDirAll dir) c = p at hdir ⊢
  obtain ⟨r, t⟩ := p
  obtain rfl : t = fs := hdir
  cases r with
  | error e => exact ⟨hold, fun h => by cases h⟩
  | ok _ =>
    refine ⟨hold, fun c => ?_⟩
    -- whatever the write leaves, it leaves it beside the target
    have hwrite : (perform t (.write (release.staged dir) bytes) c).2 target = some old := by
      rw [perform_other _ t c]
      · exact hold
      · exact fun hmem => hne (List.mem_singleton.mp hmem)
    generalize perform t (.write (release.staged dir) bytes) c = p at hwrite ⊢
    obtain ⟨r, t₁⟩ := p
    cases r with
    | error e => exact ⟨hwrite, fun h => by cases h⟩
    | ok _ =>
      refine ⟨hwrite, fun c => ?_⟩
      rcases perform_read t₁ (release.staged dir) c with ⟨e, hread⟩ | ⟨f, hf, hread⟩
      · rw [hread]
        exact ⟨hwrite, fun h => by cases h⟩
      · rw [hread]
        dsimp only
        split
        · -- what landed is not what was verified
          refine ⟨hwrite, fun c => ⟨?_, fun h => by cases h⟩⟩
          rw [perform_other _ t₁ c]
          · exact hwrite
          · exact fun hmem => hne (List.mem_singleton.mp hmem)
        · rename_i hhash
          refine ⟨hwrite, fun c => ?_⟩
          rcases perform_setPermissions t₁ (release.staged dir) 0o755 c with
            ⟨e, hchmod⟩ | ⟨g, hg, hchmod⟩
          · rw [hchmod]
            exact ⟨hwrite, fun h => by cases h⟩
          · rw [hchmod]
            refine ⟨?_, fun _ => ⟨_, Function.update_self _ _ _, ?_⟩⟩
            · exact (Function.update_of_ne hne _ _).trans hwrite
            · obtain rfl := Option.some.inj (hf.symm.trans hg)
              exact not_not.mp hhash

/-- Still the old binary, or the window. -/
def Kept (release : Release) (old : File) (target staged : Path) (fs : Fs) : Prop :=
  fs target = some old ∨ Window release old target staged fs

theorem always_preserve {target staged : Path} (hne : target ≠ staged)
    (hprevious : staged ≠ previousOf target) (hold : fs target = some old)
    (hstaged : Holds release staged fs) :
    (preserve target staged).always perform (Kept release old target staged)
      (fun r t => Kept release old target staged t ∧
        (r = .ok () → Holds release staged t)) fs := by
  refine ⟨Or.inl hold, fun c => ?_⟩
  rcases perform_fileExists fs target c with hthere | ⟨-, hthere⟩
  · rw [hthere]
    exact ⟨Or.inl hold, fun _ => hstaged⟩
  · rw [hthere]
    refine ⟨Or.inl hold, fun c => ?_⟩
    rcases perform_rename fs target (previousOf target) c with ⟨e, haway⟩ | ⟨f, hf, haway⟩
    · rw [haway]
      -- the old binary could not be preserved, and is where it was
      refine ⟨Or.inl hold, fun c => ?_⟩
      rcases perform_fileExists fs target c with hthere | ⟨-, hthere⟩
      · rw [hthere]
        exact ⟨Or.inl hold, fun _ => hstaged⟩
      · rw [hthere]
        refine ⟨Or.inl hold, fun c => ⟨Or.inl ?_, fun h => by cases h⟩⟩
        rw [perform_other _ fs c]
        · exact hold
        · exact fun hmem => hne (List.mem_singleton.mp hmem)
    · rw [haway]
      obtain rfl := Option.some.inj (hf.symm.trans hold)
      have hstill : Holds release staged (Function.update (Function.update fs target none)
          (previousOf target) (some f)) := by
        obtain ⟨g, hg, hhash⟩ := hstaged
        refine ⟨g, ?_, hhash⟩
        rw [Function.update_of_ne hprevious, Function.update_of_ne hne.symm]
        exact hg
      refine ⟨Or.inr ⟨?_, Function.update_self _ _ _, hstill⟩, fun _ => hstill⟩
      have hne' : target ≠ previousOf target := (Path.withSuffix_ne (by decide) _).symm
      exact (Function.update_of_ne hne' _ _).trans (Function.update_self _ _ _)

/-- The staged binary is put in place, or stays where it is. -/
theorem always_install {target staged : Path}
    (hkept : Kept release old target staged fs) (hstaged : Holds release staged fs) :
    (install staged target).always perform (Kept release old target staged)
      (fun r t => (r = .ok () → Holds release target t) ∧
        (Holds release target t ∨ Kept release old target staged t)) fs := by
  refine ⟨hkept, fun c => ?_⟩
  rcases perform_rename fs staged target c with ⟨e, hplace⟩ | ⟨f, hf, hplace⟩
  · rw [hplace]
    exact ⟨fun h => (by cases h), Or.inr hkept⟩
  · rw [hplace]
    have hin : Holds release target
        (Function.update (Function.update fs staged none) target (some f)) := by
      obtain ⟨g, hg, hhash⟩ := hstaged
      obtain rfl := Option.some.inj (hf.symm.trans hg)
      exact ⟨f, Function.update_self _ _ _, hhash⟩
    exact ⟨fun _ => hin, Or.inl hin⟩

/-- The marker is not the target. -/
theorem always_mark {dir : Path} (hin : Holds release (targetIn exe dir) fs) :
    (mark release exe (targetIn exe dir) dir).always perform (Holds release (targetIn exe dir))
      (fun _ => Holds release (targetIn exe dir)) fs := by
  unfold mark
  split
  · rename_i hne
    refine ⟨hin, fun c => ?_⟩
    have hmarker : targetIn exe dir ≠ dir.join "staged.json" := by
      unfold targetIn at hne ⊢
      split
      · rename_i hdir
        exact absurd (if_pos hdir) hne
      · exact fun heq => absurd (List.append_cancel_left heq) (by decide)
    have hwrite : ∀ bytes, Holds release (targetIn exe dir)
        (perform fs (.write (dir.join "staged.json") bytes) c).2 := by
      intro bytes
      obtain ⟨f, hf, hhash⟩ := hin
      refine ⟨f, ?_, hhash⟩
      rw [perform_other _ fs c]
      · exact hf
      · exact fun hmem => hmarker (List.mem_singleton.mp hmem)
    generalize hp : perform fs (.write (dir.join "staged.json") _) c = p
    have hafter := hwrite (toVec (.object [("path", .string (targetIn exe dir).display),
      ("version", .string release.version)]))
    rw [hp] at hafter
    obtain ⟨r, t⟩ := p
    cases r <;> exact hafter
  · exact hin

/-- The target is the old binary or a complete new one, or this is the window. -/
def Safe (release : Release) (old : File) (exe dir : Path) (fs : Fs) : Prop :=
  Holds release (targetIn exe dir) fs ∨
    Kept release old (targetIn exe dir) (release.staged dir) fs

theorem always_applyIn (hne : targetIn exe dir ≠ release.staged dir)
    (hold : fs (targetIn exe dir) = some old) (bytes : List UInt8) :
    (applyIn release exe bytes dir).always perform (Safe release old exe dir)
      (fun _ => Safe release old exe dir) fs := by
  unfold applyIn
  rw [Prog.always_andThen]
  refine Prog.always_mono (always_stage hne hold bytes) (fun t h => Or.inr (Or.inl h)) ?_
  rintro r t ⟨hkeep, hstaged⟩
  cases r with
  | error e => exact Or.inr (Or.inl hkeep)
  | ok _ =>
    dsimp only
    rw [Prog.always_andThen]
    refine Prog.always_mono (always_preserve hne (staged_ne_previousOf _) hkeep (hstaged rfl))
      (fun t h => Or.inr h) ?_
    rintro r t ⟨hkept, hstaged⟩
    cases r with
    | error e => exact Or.inr hkept
    | ok _ =>
      dsimp only
      rw [Prog.always_andThen]
      refine Prog.always_mono (always_install hkept (hstaged rfl)) (fun t h => Or.inr h) ?_
      rintro r t ⟨hin, hsafe⟩
      cases r with
      | error e => exact hsafe
      | ok _ =>
        dsimp only
        rw [Prog.always_andThen]
        refine Prog.always_mono (always_mark (hin rfl)) (fun t h => Or.inl h) ?_
        rintro r t h
        cases r <;> exact Or.inl h

/-- **The old binary is never lost.**  When the target is named like neither of the two files
    `apply` writes for itself, it holds the old binary or a complete new one in every run, wherever
    it ends; or the old binary is under `.previous` and the staged one is complete. -/
theorem old_or_previous (hprobe : targetIn exe dir ≠ probe (beside exe))
    (hstaged : targetIn exe dir ≠ release.staged dir) (hold : fs (targetIn exe dir) = some old)
    (cs : List Outcome) (hdir : ∀ d,
      stagedDir release blobs exe stateDir current platform fs cs = some d → d = dir) :
    Complete release old (targetIn exe dir)
        ((apply release blobs exe stateDir current platform).run perform cs fs).2 ∨
      Window release old (targetIn exe dir) (release.staged dir)
        ((apply release blobs exe stateDir current platform).run perform cs fs).2 := by
  have hsafe : (prepare release blobs exe stateDir current platform).always perform
      (Safe release old exe dir) (fun r t => (∀ e, r = .error e → Safe release old exe dir t) ∧
        ∀ bytes, r = .ok (bytes, dir) → (applyIn release exe bytes dir).always perform
          (Safe release old exe dir) (fun _ => Safe release old exe dir) t) fs := by
    have hstart : Safe release old exe dir fs := Or.inr (Or.inl hold)
    unfold prepare
    rw [Prog.always_andThen]
    refine Prog.always_mono (always_fetch fs) (fun t h => h ▸ hstart) ?_
    rintro r t ⟨rfl, -⟩
    cases r with
    | error e => exact ⟨fun _ _ => hstart, fun bytes h => by cases h⟩
    | ok bytes =>
      dsimp only
      unfold stagingDir isWritable
      rw [Prog.always_bind, Prog.always_bind]
      -- the probe leaves the target alone
      have hprobed : ∀ {t : Fs} {o : FileOp} (c : Outcome), o.paths = [probe (beside exe)] →
          t (targetIn exe dir) = some old → (perform t o c).2 (targetIn exe dir) = some old := by
        intro t o c hpaths ht
        rw [perform_other _ t c]
        · exact ht
        · rw [hpaths]
          exact fun hmem => hprobe (List.mem_singleton.mp hmem)
      refine ⟨hstart, fun c => ?_⟩
      have h₁ := hprobed (o := .write (probe (beside exe)) []) c rfl hold
      generalize perform t (.write (probe (beside exe)) []) c = p at h₁ ⊢
      obtain ⟨r, t₁⟩ := p
      cases r with
      | error e =>
        exact ⟨fun _ h => (by cases h), fun bytes _ => always_applyIn hstaged h₁ bytes⟩
      | ok _ =>
        refine ⟨Or.inr (Or.inl h₁), fun c => ⟨fun _ h => (by cases h), fun bytes _ => ?_⟩⟩
        have h₂ := hprobed (o := .removeFile (probe (beside exe))) c rfl h₁
        exact always_applyIn hstaged h₂ bytes
  rcases runs_iff_always.mpr hsafe cs hdir with ⟨f, hf, hhash⟩ | (hold | hwindow)
  · exact Or.inl ⟨f, hf, Or.inr hhash⟩
  · exact Or.inl ⟨old, hold, Or.inl rfl⟩
  · exact Or.inr hwindow

end

/-! ## A crash between the renames -/

section

open Sample

attribute [local instance] Sample.primitives

def newBytes : List UInt8 := [1, 2, 3]

/-- A newer build for this platform, of one chunk. -/
def build : Release where
  version := "9.9.9"
  platform := "linux"
  binary := ⟨digest newBytes, 3, [digest newBytes]⟩

def binDir : Path := ["/", "bin"]

def binary : Path := binDir.join "ph-reactor"

def blobDir : BlobStore := ["/", "blobs"]

def oldBinary : File := ⟨[7, 7], 0o755⟩

/-- The old binary is in place, and the chunk has arrived. -/
def before : Fs := fun p =>
  if p = binary then some oldBinary
  else if p = blobDir.chunkPath (digest newBytes) then some ⟨newBytes, 0o644⟩ else none

/-- The program on these files. -/
def update (cs : List Outcome) : Option (Except ApplyError Path × List Outcome) × Fs :=
  (apply build blobDir binary ["/", "state"] "1.0.0" "linux").run perform cs before

/-- Nothing fails, and after the tenth operation the process is gone: so is the binary.  If instead
    the eleventh operation, the rename of the staged binary, reports an error, `apply` returns it
    and the binary stays gone. -/
theorem binary_gone :
    before binary = some oldBinary ∧
      ¬ Complete build oldBinary binary (update (List.replicate 10 .ok)).2 ∧
      (update (List.replicate 10 .ok ++ [.fails "Input/output error" none])).1 =
        some (.error (.io "installing /bin/ph-reactor: Input/output error"), []) ∧
      ¬ Complete build oldBinary binary
        (update (List.replicate 10 .ok ++ [.fails "Input/output error" none])).2 := by
  have hfacts : before binary = some oldBinary ∧
      (update (List.replicate 10 .ok)).2 binary = none ∧
      (update (List.replicate 10 .ok ++ [.fails "Input/output error" none])).1 =
        some (.error (.io "installing /bin/ph-reactor: Input/output error"), []) ∧
      (update (List.replicate 10 .ok ++ [.fails "Input/output error" none])).2 binary = none := by
    decide +kernel
  obtain ⟨hbefore, hcrash, hfails, hgone⟩ := hfacts
  refine ⟨hbefore, ?_, hfails, ?_⟩
  · rintro ⟨f, hf, -⟩
    rw [hcrash] at hf
    cases hf
  · rintro ⟨f, hf, -⟩
    rw [hgone] at hf
    cases hf

/-- A build for another platform is refused, and the binary is always there. -/
theorem binary_always_there_refused :
    before binary = some oldBinary ∧ ∀ cs, (∀ d, stagedDir { build with platform := "darwin" }
      blobDir binary ["/", "state"] "1.0.0" "linux" before cs = some d → d = binDir) →
      Complete { build with platform := "darwin" } oldBinary binary
        ((apply { build with platform := "darwin" } blobDir binary ["/", "state"] "1.0.0"
          "linux").run perform cs before).2 := by
  have hfacts : before binary = some oldBinary ∧ targetIn binary binDir = binary ∧
      binDir = beside binary ∧
      Release.runsOn { build with platform := "darwin" } "linux" = false := by
    decide +kernel
  obtain ⟨hbefore, htarget, hdir, hplatform⟩ := hfacts
  refine ⟨hbefore, ?_⟩
  have hold : before (targetIn binary binDir) = some oldBinary := by rw [htarget]; exact hbefore
  have hiff := binary_always_there_iff { build with platform := "darwin" } blobDir binary
    ["/", "state"] "1.0.0" "linux" binDir (Or.inl hdir) before oldBinary hold
  rw [htarget] at hiff
  refine hiff.mpr fun hdue => ?_
  rw [hdue.platform] at hplatform
  cases hplatform

end

end PhReactor.Update
