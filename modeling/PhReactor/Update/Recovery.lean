/-
  Updates over the life of a node: from the offer to the binary, and back.

  A node is updated by its operator (`apply_update` in `src/settings/updates.rs`) or on its own
  (`check_for_update` in `src/daemon.rs`); either one chooses a release and hands it to `apply`.
  `rollback` is the other half.  Any file operation may fail, and the node may be killed between any
  two of them; the next start finds what was left.

  The binary lands in the directory of the running one, or in the state directory; in either it is
  called `ph-reactor`, and the one before it `ph-reactor.previous`.

  1. `Sound`: whatever is under one of these two names is a binary that was there at the beginning,
     or the one of a release the node accepts; and where there was one under either name, there is.
     Every operation of an update or a rollback keeps it (`always_apply`, `always_rollback`).

  2. So it holds in every state of every run, and where the binary itself is away, a rollback brings
     it back (`binary_is_kept`).

  3. What the node offers as its best candidate can be applied: when its chunks are there and no
     operation fails, its binary runs next and the old one is kept; and a rollback undoes it
     (`update_and_back`).
-/
import PhReactor.Lib.Machine
import PhReactor.Update.Selection

set_option linter.unusedSectionVars false

namespace PhReactor.Update

open Lib

/-! ## Programs -/

/-- Puts the preserved binary back. -/
def rollback (target : Path) : FileProg (Except String Unit) :=
  .call (.fileExists (previousOf target)) fun (there : Bool) =>
    if there then
      .call (.rename (previousOf target) target) fun
        | .ok _ => .done (.ok ())
        | .error e => .done (.error ("rolling back: " ++ e))
    else .done (.error ("no " ++ (previousOf target).display ++ " to roll back to"))

/-- What the console is told. -/
inductive Reply where
  /-- `no such release`. -/
  | notFound
  | badSignature (e : VerifyError)
  /-- The key that signed this version is not trusted. -/
  | notTrusted (version : String)
  | fetching (missing : ℕ)
  /-- The running binary cannot be located. -/
  | noExe (e : String)
  | applied (version : String) (installedAt : Path) (replacedRunningBinary : Bool)
  | refused (e : ApplyError)

/-- What is sent to the daemon. -/
inductive Sent where
  | fetchBlob (blob : BlobRef)
  | quit

section

variable [Primitives] (c : Selection) (s : Inner) (blobs : BlobStore) (exe : Except String Path)
  (stateDir : Path)

/-- The release the console asks for: that of a document, or the best candidate. -/
def picked : Option String → Option (String × SignedRelease × Bool)
  | some doc => (c.offers s).find? fun o => o.1 == doc
  | none => (c.bestCandidate s).map fun b => (b.1, b.2, true)

/-- The binary is there: install it, and stop. -/
def installRelease (r : SignedRelease) : FileProg (Reply × List Sent) :=
  match exe with
  | .error e => .done (.noExe e, [])
  | .ok exe =>
    (apply r.toRelease blobs exe stateDir c.current c.platform).bind fun
      | .ok target => .done (.applied r.version target (target == exe), [.quit])
      | .error e => .done (.refused e, [])

/-- `POST /api/updates/apply`. -/
def applyUpdate (wanted : Option String) : FileProg (Reply × List Sent) :=
  match picked c s wanted with
  | none => .done (.notFound, [])
  | some (_, r, trusted) =>
    match r.signed.verify c.verifies with
    | .error e => .done (.badSignature e, [])
    | .ok _ =>
      -- no trust-on-apply: the key must already have been accepted
      if !trusted then .done (.notTrusted r.version, [])
      else
        (blobs.missing r.binary.chunks []).bind fun missing =>
          if missing.isEmpty then installRelease c blobs exe stateDir r
          else
            (blobs.missing r.binary.chunks []).bind fun missing =>
              .done (.fetching missing.length, [.fetchBlob r.binary])

/-- `check_for_update`. -/
def backgroundUpdate (auto : Bool) : FileProg (List Sent) :=
  match c.checkForUpdate s with
  | none => .done []
  | some r =>
    (blobs.missing r.binary.chunks []).bind fun missing =>
      if 0 < missing.length then .done [.fetchBlob r.binary]
      else if !auto then .done []
      else (installRelease c blobs exe stateDir r).bind fun reply => .done reply.2

end

/-! ## Names -/

def binaryIn (dir : Path) : Path := dir.join "ph-reactor"

def previousIn (dir : Path) : Path := dir.join "ph-reactor.previous"

theorem join_inj {dir dir' : Path} {name name' : String} :
    dir.join name = dir'.join name' ↔ dir = dir' ∧ name = name' := by
  unfold Path.join
  constructor
  · intro h
    obtain ⟨hdir, hname⟩ := List.append_inj' h rfl
    exact ⟨hdir, List.singleton_inj.mp hname⟩
  · rintro ⟨rfl, rfl⟩
    rfl

theorem previousOf_binaryIn (dir : Path) : previousOf (binaryIn dir) = previousIn dir := by
  unfold previousOf binaryIn previousIn Path.withSuffix Path.join
  rw [List.getLast?_concat, List.dropLast_concat]
  rfl

theorem beside_binaryIn (dir : Path) : beside (binaryIn dir) = dir := by
  have hne : ¬ (dir ++ ["ph-reactor"] = [] ∨ dir ++ ["ph-reactor"] = ["/"]) := by
    rintro (h | h)
    · exact absurd h (by simp)
    · have hlast := congrArg List.getLast? h
      rw [List.getLast?_concat] at hlast
      exact absurd hlast (by decide)
  unfold beside Path.parent? binaryIn Path.join
  rw [if_neg hne, List.dropLast_concat]
  rfl

/-- Whichever directory is chosen, the binary has its name. -/
theorem targetIn_binaryIn (binDir dir : Path) : targetIn (binaryIn binDir) dir = binaryIn dir := by
  unfold targetIn
  rw [beside_binaryIn]
  split
  · next h => rw [h]
  · rfl

/-- Neither of the two names in this directory. -/
def Foreign (dir q : Path) : Prop := q ≠ binaryIn dir ∧ q ≠ previousIn dir

theorem foreign_join {name : String} (h : name.toList.head? ≠ some 'p') (dir dir' : Path) :
    Foreign dir (dir'.join name) := by
  constructor
  · intro heq
    obtain ⟨-, rfl⟩ := join_inj.mp heq
    exact h (by decide)
  · intro heq
    obtain ⟨-, rfl⟩ := join_inj.mp heq
    exact h (by decide)

theorem foreign_staged (release : Release) (dir dir' : Path) :
    Foreign dir (release.staged dir') := by
  refine foreign_join ?_ dir dir'
  rw [String.toList_append, String.toList_append]
  simp

theorem foreign_of_ne {dir dir' : Path} (h : dir' ≠ dir) :
    Foreign dir (binaryIn dir') ∧ Foreign dir (previousIn dir') :=
  ⟨⟨fun heq => h (join_inj.mp heq).1, fun heq => h (join_inj.mp heq).1⟩,
    ⟨fun heq => h (join_inj.mp heq).1, fun heq => h (join_inj.mp heq).1⟩⟩

/-! ## What every operation keeps -/

/-- What is under the two names satisfies `G`; and there is a binary, if `there`. -/
structure Sound (G : List UInt8 → Prop) (there : Prop) (dir : Path) (fs : Fs) : Prop where
  binary : ∀ f, fs (binaryIn dir) = some f → G f.bytes
  previous : ∀ f, fs (previousIn dir) = some f → G f.bytes
  kept : there → (fs (binaryIn dir)).isSome = true ∨ (fs (previousIn dir)).isSome = true

/-- The file may become a binary. -/
def Fit (G : List UInt8 → Prop) (p : Path) (fs : Fs) : Prop := ∀ f, fs p = some f → G f.bytes

variable {G : List UInt8 → Prop} {there : Prop} {dir dir' : Path} {fs : Fs}

theorem Sound.congr {t : Fs} (h : Sound G there dir fs)
    (hbinary : t (binaryIn dir) = fs (binaryIn dir))
    (hprevious : t (previousIn dir) = fs (previousIn dir)) : Sound G there dir t := by
  refine ⟨?_, ?_, ?_⟩
  · rw [hbinary]
    exact h.binary
  · rw [hprevious]
    exact h.previous
  · rw [hbinary, hprevious]
    exact h.kept

/-- **An operation on other files.** -/
theorem Sound.frame (h : Sound G there dir fs) {o : FileOp} (ho : ∀ q ∈ o.paths, Foreign dir q)
    (c : Outcome) : Sound G there dir (perform fs o c).2 :=
  h.congr (perform_other (fun hmem => (ho _ hmem).1 rfl) fs c)
    (perform_other (fun hmem => (ho _ hmem).2 rfl) fs c)

theorem binaryIn_ne_previousIn (dir : Path) : binaryIn dir ≠ previousIn dir :=
  fun heq => absurd (join_inj.mp heq).2 (by decide)

/-- **The binary is moved aside.** -/
theorem Sound.away (h : Sound G there dir fs) (dir' : Path) (c : Outcome) :
    Sound G there dir (perform fs (.rename (binaryIn dir') (previousIn dir')) c).2 := by
  by_cases hdir : dir' = dir
  · subst hdir
    rcases perform_rename fs (binaryIn dir') (previousIn dir') c with ⟨e, hfails⟩ | ⟨f, hf, hok⟩
    · rw [hfails]
      exact h
    · rw [hok]
      dsimp only
      have hgone : Function.update (Function.update fs (binaryIn dir') none) (previousIn dir')
          (some f) (binaryIn dir') = none := by
        rw [Function.update_of_ne (binaryIn_ne_previousIn dir'), Function.update_self]
      refine ⟨fun g hg => ?_, fun g hg => ?_, fun _ => Or.inr ?_⟩
      · rw [hgone] at hg
        cases hg
      · rw [Function.update_self] at hg
        obtain rfl := Option.some.inj hg
        exact h.binary f hf
      · rw [Function.update_self]
        rfl
  · refine h.frame (fun q hq => ?_) c
    obtain ⟨hbinary, hprevious⟩ := foreign_of_ne hdir
    rcases List.mem_cons.mp hq with rfl | hq
    · exact hbinary
    · rw [List.mem_singleton.mp hq]
      exact hprevious

/-- **A file becomes the binary.** -/
theorem Sound.place (h : Sound G there dir fs) {src : Path} (hfit : Fit G src fs) (dir' : Path)
    (hsrc : dir' ≠ dir → Foreign dir src) (c : Outcome) :
    Sound G there dir (perform fs (.rename src (binaryIn dir')) c).2 := by
  by_cases hdir : dir' = dir
  · subst hdir
    rcases perform_rename fs src (binaryIn dir') c with ⟨e, hfails⟩ | ⟨f, hf, hok⟩
    · rw [hfails]
      exact h
    · rw [hok]
      dsimp only
      refine ⟨fun g hg => ?_, fun g hg => ?_, fun _ => Or.inl ?_⟩
      · rw [Function.update_self] at hg
        obtain rfl := Option.some.inj hg
        exact hfit f hf
      · rw [Function.update_of_ne (binaryIn_ne_previousIn dir').symm, Function.update_apply] at hg
        split at hg
        · cases hg
        · exact h.previous g hg
      · rw [Function.update_self]
        rfl
  · refine h.frame (fun q hq => ?_) c
    rcases List.mem_cons.mp hq with rfl | hq
    · exact hsrc hdir
    · rw [List.mem_singleton.mp hq]
      exact (foreign_of_ne hdir).1

section

variable [Primitives] {release : Release} {blobs : BlobStore} {stateDir binDir : Path}
  {current platform : String}

/-- What is staged has the hash of the release. -/
theorem always_stage_sound (h : Sound G there dir fs) (bytes : List UInt8) (dir' : Path) :
    (stage release bytes dir').always perform (Sound G there dir)
      (fun r t => Sound G there dir t ∧ (r = .ok () → Holds release (release.staged dir') t))
      fs := by
  have hframe : ∀ {o : FileOp} {t : Fs} (c : Outcome), o.paths ⊆ [release.staged dir'] →
      Sound G there dir t → Sound G there dir (perform t o c).2 := by
    intro o t c hpaths ht
    refine ht.frame (fun q hq => ?_) c
    rw [List.mem_singleton.mp (hpaths hq)]
    exact foreign_staged release dir dir'
  refine ⟨h, fun c => ?_⟩
  have hdir := perform_createDirAll fs dir' c
  generalize perform fs (.createDirAll dir') c = p at hdir ⊢
  obtain ⟨r, t⟩ := p
  obtain rfl : t = fs := hdir
  cases r with
  | error e => exact ⟨h, fun hr => by cases hr⟩
  | ok _ =>
    refine ⟨h, fun c => ?_⟩
    have hwrite := hframe (o := .write (release.staged dir') bytes) c (fun _ hq => hq) h
    generalize perform t (.write (release.staged dir') bytes) c = p at hwrite ⊢
    obtain ⟨r, t₁⟩ := p
    cases r with
    | error e => exact ⟨hwrite, fun hr => by cases hr⟩
    | ok _ =>
      refine ⟨hwrite, fun c => ?_⟩
      rcases perform_read t₁ (release.staged dir') c with ⟨e, hread⟩ | ⟨f, hf, hread⟩
      · rw [hread]
        exact ⟨hwrite, fun hr => by cases hr⟩
      · rw [hread]
        dsimp only
        split
        · exact ⟨hwrite, fun c => ⟨hframe c (fun _ hq => hq) hwrite, fun hr => by cases hr⟩⟩
        · rename_i hhash
          refine ⟨hwrite, fun c => ?_⟩
          have hchmod := hframe (o := .setPermissions (release.staged dir') 0o755) c
            (fun _ hq => hq) hwrite
          rcases perform_setPermissions t₁ (release.staged dir') 0o755 c with
            ⟨e, hset⟩ | ⟨g, hg, hset⟩
          · rw [hset] at hchmod ⊢
            exact ⟨hchmod, fun hr => by cases hr⟩
          · rw [hset] at hchmod ⊢
            refine ⟨hchmod, fun _ => ⟨_, Function.update_self _ _ _, ?_⟩⟩
            -- what has been read back is what is there
            obtain rfl := Option.some.inj (hf.symm.trans hg)
            exact not_not.mp hhash

theorem Holds.frame {p : Path} (h : Holds release p fs) {o : FileOp} (ho : p ∉ o.paths)
    (c : Outcome) : Holds release p (perform fs o c).2 := by
  unfold Holds
  rw [perform_other ho fs c]
  exact h

theorem always_preserve_sound (h : Sound G there dir fs)
    (hstaged : Holds release (release.staged dir') fs) :
    (preserve (binaryIn dir') (release.staged dir')).always perform (Sound G there dir)
      (fun r t => Sound G there dir t ∧ (r = .ok () → Holds release (release.staged dir') t))
      fs := by
  have hforeign : Foreign dir' (release.staged dir') := foreign_staged release dir' dir'
  refine ⟨h, fun c => ?_⟩
  rcases perform_fileExists fs (binaryIn dir') c with hthere | ⟨-, hthere⟩
  · rw [hthere]
    exact ⟨h, fun _ => hstaged⟩
  · rw [hthere, previousOf_binaryIn]
    refine ⟨h, fun c => ?_⟩
    have haway := h.away dir' c
    have hstill : Holds release (release.staged dir')
        (perform fs (.rename (binaryIn dir') (previousIn dir')) c).2 := by
      refine hstaged.frame (fun hmem => ?_) c
      rcases List.mem_cons.mp hmem with heq | hmem
      · exact hforeign.1 heq
      · exact hforeign.2 (List.mem_singleton.mp hmem)
    generalize perform fs (.rename (binaryIn dir') (previousIn dir')) c = p at haway hstill ⊢
    obtain ⟨r, t⟩ := p
    cases r with
    | ok _ => exact ⟨haway, fun _ => hstill⟩
    | error e =>
      refine ⟨haway, fun c => ?_⟩
      rcases perform_fileExists t (binaryIn dir') c with hthere | ⟨-, hthere⟩
      · rw [hthere]
        exact ⟨haway, fun _ => hstill⟩
      · rw [hthere]
        refine ⟨haway, fun c => ⟨haway.frame (fun q hq => ?_) c, fun hr => by cases hr⟩⟩
        rw [List.mem_singleton.mp hq]
        exact foreign_staged release dir dir'

theorem always_install_sound (hG : ∀ b, Primitives.sha256 b = release.binary.hash → G b)
    (h : Sound G there dir fs) (hstaged : Holds release (release.staged dir') fs) :
    (install (release.staged dir') (binaryIn dir')).always perform (Sound G there dir)
      (fun r t => Sound G there dir t ∧ (r = .ok () → Holds release (binaryIn dir') t)) fs := by
  obtain ⟨g, hg, hhash⟩ := hstaged
  have hfit : Fit G (release.staged dir') fs := by
    intro f hf
    obtain rfl := Option.some.inj (hf.symm.trans hg)
    exact hG _ hhash
  refine ⟨h, fun c => ?_⟩
  have hplace := h.place hfit dir' (fun _ => foreign_staged release dir dir') c
  rcases perform_rename fs (release.staged dir') (binaryIn dir') c with ⟨e, hfails⟩ | ⟨f, hf, hok⟩
  · rw [hfails] at hplace ⊢
    exact ⟨hplace, fun hr => by cases hr⟩
  · rw [hok] at hplace ⊢
    obtain rfl := Option.some.inj (hf.symm.trans hg)
    exact ⟨hplace, fun _ => ⟨f, Function.update_self _ _ _, hhash⟩⟩

theorem always_mark_sound {exe : Path} (h : Sound G there dir fs)
    (hin : Holds release (binaryIn dir') fs) :
    (mark release exe (binaryIn dir') dir').always perform (Sound G there dir)
      (fun _ t => Sound G there dir t ∧ Holds release (binaryIn dir') t) fs := by
  unfold mark
  split
  · refine ⟨h, fun c => ?_⟩
    have hwrite : ∀ bytes,
        Sound G there dir (perform fs (.write (dir'.join "staged.json") bytes) c).2 ∧
          Holds release (binaryIn dir')
            (perform fs (.write (dir'.join "staged.json") bytes) c).2 := by
      intro bytes
      have hmarker : ∀ d, Foreign d (dir'.join "staged.json") :=
        fun d => foreign_join (by decide) d dir'
      refine ⟨h.frame (fun q hq => ?_) c, hin.frame (fun hmem => ?_) c⟩
      · rw [List.mem_singleton.mp hq]
        exact hmarker dir
      · exact (hmarker dir').1 (List.mem_singleton.mp hmem).symm
    have hafter := hwrite (toVec (.object [("path", .string (binaryIn dir').display),
      ("version", .string release.version)]))
    generalize perform fs _ c = p at hafter ⊢
    obtain ⟨r, t⟩ := p
    cases r <;> exact hafter
  · exact ⟨h, hin⟩

/-- A release is installed as the binary of some directory. -/
def Installed (release : Release) (target : Path) (fs : Fs) : Prop :=
  (∃ dir, target = binaryIn dir) ∧ Holds release target fs

theorem always_applyIn_sound (hG : ∀ b, Primitives.sha256 b = release.binary.hash → G b)
    (h : Sound G there dir fs) (bytes : List UInt8) (dir' : Path) :
    (applyIn release (binaryIn binDir) bytes dir').always perform (Sound G there dir)
      (fun r t => Sound G there dir t ∧ ∀ target, r = .ok target → Installed release target t)
      fs := by
  unfold applyIn
  rw [targetIn_binaryIn, Prog.always_andThen]
  refine Prog.always_mono (always_stage_sound h bytes dir') (fun _ h => h) ?_
  rintro r t ⟨hstage, hstaged⟩
  cases r with
  | error e => exact ⟨hstage, fun _ hr => by cases hr⟩
  | ok _ =>
    dsimp only
    rw [Prog.always_andThen]
    refine Prog.always_mono (always_preserve_sound hstage (hstaged rfl)) (fun _ h => h) ?_
    rintro r t ⟨hpreserve, hstaged⟩
    cases r with
    | error e => exact ⟨hpreserve, fun _ hr => by cases hr⟩
    | ok _ =>
      dsimp only
      rw [Prog.always_andThen]
      refine Prog.always_mono (always_install_sound hG hpreserve (hstaged rfl)) (fun _ h => h) ?_
      rintro r t ⟨hinstall, hin⟩
      cases r with
      | error e => exact ⟨hinstall, fun _ hr => by cases hr⟩
      | ok _ =>
        dsimp only
        rw [Prog.always_andThen]
        refine Prog.always_mono (always_mark_sound hinstall (hin rfl)) (fun _ h => h) ?_
        rintro r t ⟨hmark, hin⟩
        cases r with
        | error e => exact ⟨hmark, fun _ hr => by cases hr⟩
        | ok _ =>
          refine ⟨hmark, fun target hr => ?_⟩
          obtain rfl := Except.ok.inj hr
          exact ⟨⟨dir', rfl⟩, hin⟩

theorem always_stagingDir_sound (h : Sound G there dir fs) :
    (stagingDir (binaryIn binDir) stateDir).always perform (Sound G there dir)
      (fun _ => Sound G there dir) fs := by
  have hprobe : ∀ {o : FileOp} {t : Fs} (c : Outcome), o.paths ⊆ [probe binDir] →
      Sound G there dir t → Sound G there dir (perform t o c).2 := by
    intro o t c hpaths ht
    refine ht.frame (fun q hq => ?_) c
    rw [List.mem_singleton.mp (hpaths hq)]
    exact foreign_join (by decide) dir binDir
  unfold stagingDir isWritable
  rw [beside_binaryIn, Prog.always_bind]
  refine ⟨h, fun c => ?_⟩
  have hwrite := hprobe (o := .write (probe binDir) []) c (fun _ hq => hq) h
  generalize perform fs (.write (probe binDir) []) c = p at hwrite ⊢
  obtain ⟨r, t⟩ := p
  cases r with
  | error e => exact hwrite
  | ok _ => exact ⟨hwrite, fun c => hprobe c (fun _ hq => hq) hwrite⟩

/-- **Applying a release keeps what is under the two names**, whatever fails and wherever it is cut
    short; what is new there has the hash of the release, and the release is for this platform and
    newer. -/
theorem always_apply (hG : release.runsOn platform = true → release.isNewerThan current = true →
      ∀ b, Primitives.sha256 b = release.binary.hash → G b) (h : Sound G there dir fs) :
    (apply release blobs (binaryIn binDir) stateDir current platform).always perform
      (Sound G there dir) (fun r t => Sound G there dir t ∧ ∀ target, r = .ok target →
        (release.runsOn platform = true ∧ release.isNewerThan current = true) ∧
          Installed release target t) fs := by
  unfold apply prepare
  rw [Prog.always_andThen, Prog.always_andThen]
  refine Prog.always_mono (always_fetch fs) (fun t ht => ht ▸ h) ?_
  rintro r t ⟨rfl, hdue⟩
  cases r with
  | error e => exact ⟨h, fun _ hr => by cases hr⟩
  | ok bytes =>
    dsimp only
    obtain ⟨⟨hplatform, hnewer, -⟩, -⟩ := hdue bytes rfl
    rw [Prog.always_bind]
    refine Prog.always_mono (always_stagingDir_sound h) (fun _ h => h) fun dir' t ht => ?_
    show (applyIn release (binaryIn binDir) bytes dir').always perform _ _ t
    exact Prog.always_mono (always_applyIn_sound (hG hplatform hnewer) ht bytes dir')
      (fun _ h => h) fun r t hdone =>
      ⟨hdone.1, fun target hr => ⟨⟨hplatform, hnewer⟩, hdone.2 target hr⟩⟩

end

/-- **So does putting the old one back.** -/
theorem always_rollback (h : Sound G there dir fs) (dir' : Path) :
    (rollback (binaryIn dir')).always perform (Sound G there dir)
      (fun _ => Sound G there dir) fs := by
  unfold rollback
  rw [previousOf_binaryIn]
  refine ⟨h, fun c => ?_⟩
  rcases perform_fileExists fs (previousIn dir') c with hthere | ⟨-, hthere⟩
  · rw [hthere]
    exact h
  · rw [hthere]
    refine ⟨h, fun c => ?_⟩
    by_cases hdir : dir' = dir
    · subst hdir
      have hback := h.place (fun f hf => h.previous f hf) dir' (fun hne => absurd rfl hne) c
      generalize perform fs (.rename (previousIn dir') (binaryIn dir')) c = p at hback ⊢
      obtain ⟨r, t⟩ := p
      cases r <;> exact hback
    · obtain ⟨hbinary, hprevious⟩ := foreign_of_ne hdir
      have hback := h.frame (o := .rename (previousIn dir') (binaryIn dir')) (fun q hq => ?_) c
      · generalize perform fs (.rename (previousIn dir') (binaryIn dir')) c = p at hback ⊢
        obtain ⟨r, t⟩ := p
        cases r <;> exact hback
      · rcases List.mem_cons.mp hq with rfl | hq
        · exact hprevious
        · rw [List.mem_singleton.mp hq]
          exact hbinary

/-! ## The life of a node -/

section

variable [Primitives]

/-- A node, as far as its updates are concerned: what it selects by, its documents, its chunks, the
    directory of the running binary, and the state directory. -/
structure Node where
  selection : Selection
  view : Inner
  blobs : BlobStore
  running : Except String Path
  stateDir : Path

/-- `std::env::current_exe`. -/
def Node.exe (n : Node) : Except String Path := n.running.map binaryIn

/-- A binary, by its name. -/
def Binary (p : Path) : Prop := ∃ dir, p = binaryIn dir ∨ p = previousIn dir

inductive Happening where
  /-- The operator asks for a release, or for the best one. -/
  | update (n : Node) (wanted : Option String)
  /-- The background check. -/
  | check (n : Node) (auto : Bool)
  | rollback (dir : Path)
  /-- A file that is no binary is written or deleted, for example a chunk. -/
  | elsewhere (p : Path) (left : Option File) (h : ¬ Binary p)

def Happening.node? : Happening → Option Node
  | .update n _ => some n
  | .check n _ => some n
  | _ => none

/-- The files of a node.  When the outcomes run out, it is killed. -/
def lifetime : Machine Fs (Happening × List Outcome) Reply where
  step fs
    | (.update n wanted, cs) =>
      let after :=
        (applyUpdate n.selection n.view n.blobs n.exe n.stateDir wanted).run perform cs fs
      (after.2, (after.1.map fun done => done.1.1).toList)
    | (.check n auto, cs) =>
      let after :=
        (backgroundUpdate n.selection n.view n.blobs n.exe n.stateDir auto).run perform cs fs
      (after.2, [])
    | (.rollback dir, cs) => (((rollback (binaryIn dir)).run perform cs fs).2, [])
    | (.elsewhere p left _, _) => (Function.update fs p left, [])

/-! ### Each program keeps it -/

variable {n : Node} {release : SignedRelease}

/-- What the console picks, and the node may install, is a candidate. -/
theorem candidate_of_picked {c : Selection} {s : Inner} {wanted : Option String} {doc : String}
    (h : picked c s wanted = some (doc, release, true))
    (hverified : (release.signed.verify c.verifies).isOk = true)
    (hplatform : release.runsOn c.platform = true)
    (hnewer : release.isNewerThan c.current = true) : c.Candidate s release := by
  cases wanted with
  | none =>
    unfold picked at h
    obtain ⟨b, hb, heq⟩ := Option.map_eq_some_iff.mp h
    obtain ⟨-, heq⟩ := Prod.mk.inj heq
    obtain ⟨rfl, -⟩ := Prod.mk.inj heq
    refine (c.chosen ?_).1
    rw [c.checkForUpdate_eq, hb]
    rfl
  | some wanted =>
    have hmem := List.mem_of_find?_eq_some h
    unfold Selection.offers at hmem
    obtain ⟨row, hrow, hoffer⟩ := List.mem_filterMap.mp hmem
    obtain ⟨r, hr, heq⟩ := Option.map_eq_some_iff.mp hoffer
    obtain ⟨-, heq⟩ := Prod.mk.inj heq
    obtain ⟨rfl, htrusted⟩ := Prod.mk.inj heq
    obtain ⟨hrow, hstatus⟩ := List.mem_filter.mp hrow
    exact ⟨⟨row, hrow, bne_iff_ne.mp hstatus, hr⟩, htrusted, hverified, hplatform, hnewer⟩

/-- A candidate of this node has been installed under this name. -/
def Answered (n : Node) (reply : Reply) (fs : Fs) : Prop :=
  ∀ version target replaced, reply = .applied version target replaced →
    ∃ release : SignedRelease, n.selection.Candidate n.view release ∧
      release.version = version ∧ Installed release.toRelease target fs

theorem always_installRelease (hG : release.runsOn n.selection.platform = true →
      release.isNewerThan n.selection.current = true →
      n.selection.Candidate n.view release ∧
        ∀ b, Primitives.sha256 b = release.binary.hash → G b) (h : Sound G there dir fs) :
    (installRelease n.selection n.blobs n.exe n.stateDir release).always perform
      (Sound G there dir) (fun r t => Sound G there dir t ∧ Answered n r.1 t) fs := by
  unfold installRelease Node.exe
  cases n.running with
  | error e => exact ⟨h, fun _ _ _ hr => by cases hr⟩
  | ok binDir =>
    dsimp only [Except.map]
    rw [Prog.always_bind]
    refine Prog.always_mono (always_apply (fun hp hn => (hG hp hn).2) h) (fun _ h => h) ?_
    rintro r t ⟨hsound, hdone⟩
    cases r with
    | error e => exact ⟨hsound, fun _ _ _ hr => by cases hr⟩
    | ok target =>
      refine ⟨hsound, fun version target' replaced hr => ?_⟩
      obtain ⟨⟨hplatform, hnewer⟩, hin⟩ := hdone target rfl
      obtain ⟨rfl, rfl, -⟩ := Reply.applied.inj hr
      exact ⟨release, (hG hplatform hnewer).1, rfl, hin⟩

/-- What is new under the two names is the binary of a candidate. -/
def Candidates (G : List UInt8 → Prop) (n : Node) : Prop :=
  ∀ release : SignedRelease, n.selection.Candidate n.view release →
    ∀ b, Primitives.sha256 b = release.binary.hash → G b

theorem always_applyUpdate (hG : Candidates G n) (h : Sound G there dir fs)
    (wanted : Option String) :
    (applyUpdate n.selection n.view n.blobs n.exe n.stateDir wanted).always perform
      (Sound G there dir) (fun r t => Sound G there dir t ∧ Answered n r.1 t) fs := by
  have hfails : ∀ {reply : Reply}, (∀ v p b, reply ≠ .applied v p b) →
      Sound G there dir fs ∧ Answered n reply fs :=
    fun hreply => ⟨h, fun _ _ _ hr => absurd hr (hreply _ _ _)⟩
  unfold applyUpdate
  cases hpicked : picked n.selection n.view wanted with
  | none => exact hfails fun _ _ _ hr => by cases hr
  | some choice =>
    obtain ⟨doc, release, trusted⟩ := choice
    dsimp only
    cases hverify : release.signed.verify n.selection.verifies with
    | error e => exact hfails fun _ _ _ hr => by cases hr
    | ok _ =>
      dsimp only
      cases trusted with
      | false => exact hfails fun _ _ _ hr => by cases hr
      | true =>
        rw [Bool.not_true, if_neg (by decide), Prog.always_bind]
        refine Prog.always_mono (BlobStore.always_missing _ _) (fun t ht => ht ▸ h) ?_
        rintro missing t rfl
        split
        · refine always_installRelease (fun hplatform hnewer => ?_) h
          have hcandidate := candidate_of_picked hpicked (by rw [hverify]; rfl) hplatform hnewer
          exact ⟨hcandidate, hG release hcandidate⟩
        · rw [Prog.always_bind]
          refine Prog.always_mono (BlobStore.always_missing _ _) (fun t ht => ht ▸ h) ?_
          rintro missing t rfl
          exact hfails fun _ _ _ hr => by cases hr

theorem always_backgroundUpdate (hG : Candidates G n) (h : Sound G there dir fs) (auto : Bool) :
    (backgroundUpdate n.selection n.view n.blobs n.exe n.stateDir auto).always perform
      (Sound G there dir) (fun _ => Sound G there dir) fs := by
  unfold backgroundUpdate
  cases hcheck : n.selection.checkForUpdate n.view with
  | none => exact h
  | some release =>
    have hcandidate := (n.selection.chosen hcheck).1
    dsimp only
    rw [Prog.always_bind]
    refine Prog.always_mono (BlobStore.always_missing _ _) (fun t ht => ht ▸ h) ?_
    rintro missing t rfl
    split
    · exact h
    · split
      · exact h
      · rw [Prog.always_bind]
        refine Prog.always_mono (always_installRelease (fun _ _ => ?_) h) (fun _ h => h)
          fun r t ht => ht.1
        exact ⟨hcandidate, hG release hcandidate⟩

/-! ### Every run keeps it -/

/-- There is a binary under one of the two names. -/
def Present (dir : Path) (fs : Fs) : Prop :=
  (fs (binaryIn dir)).isSome = true ∨ (fs (previousIn dir)).isSome = true

/-- The bytes of a binary were there at the beginning, or have the hash that was signed for a
    candidate of a node that has been updated. -/
def Provenance (fs : Fs) (dir : Path) (past : List (Happening × List Outcome)) (b : List UInt8) :
    Prop :=
  (∃ f, (fs (binaryIn dir) = some f ∨ fs (previousIn dir) = some f) ∧ f.bytes = b) ∨
    ∃ i ∈ past, ∃ n, i.1.node? = some n ∧ ∃ release : SignedRelease,
      n.selection.Candidate n.view release ∧ Primitives.sha256 b = release.binary.hash

theorem Provenance.mono {fs : Fs} {dir : Path} {past past' : List (Happening × List Outcome)}
    {b : List UInt8} (h : Provenance fs dir past b) (hsub : past ⊆ past') :
    Provenance fs dir past' b := by
  rcases h with hstart | ⟨i, hi, hfrom⟩
  · exact Or.inl hstart
  · exact Or.inr ⟨i, hsub hi, hfrom⟩

theorem Sound.mono {G' : List UInt8 → Prop} (h : Sound G there dir fs) (hG : ∀ b, G b → G' b) :
    Sound G' there dir fs :=
  ⟨fun f hf => hG _ (h.binary f hf), fun f hf => hG _ (h.previous f hf), h.kept⟩

/-- What always holds of a program holds after its run. -/
theorem after_run {α : Type} {p : FileProg α} {C : Fs → Prop} {post : α → Fs → Prop}
    (h : p.always perform C post fs) (hpost : ∀ a t, post a t → C t) (cs : List Outcome) :
    C (p.run perform cs fs).2 := by
  have hrun := Prog.always_iff_run.mp h cs
  cases hr : p.run perform cs fs with
  | mk result t =>
    rw [hr] at hrun
    cases result with
    | none => exact hrun
    | some done => exact hpost _ t hrun

/-- **One step.** -/
theorem sound_step {i : Happening × List Outcome} (h : Sound G there dir fs)
    (hG : ∀ n, i.1.node? = some n → Candidates G n) :
    Sound G there dir (lifetime.step fs i).1 := by
  obtain ⟨what, cs⟩ := i
  cases what with
  | update n wanted =>
    exact after_run (always_applyUpdate (hG n rfl) h wanted) (fun _ _ ht => ht.1) cs
  | check n auto =>
    exact after_run (always_backgroundUpdate (hG n rfl) h auto) (fun _ _ ht => ht) cs
  | rollback dir' => exact after_run (always_rollback h dir') (fun _ _ ht => ht) cs
  | elsewhere p left hp =>
    refine h.congr (Function.update_of_ne ?_ _ _) (Function.update_of_ne ?_ _ _)
    · exact fun heq => hp ⟨dir, Or.inl heq.symm⟩
    · exact fun heq => hp ⟨dir, Or.inr heq.symm⟩

/-- **Every run.** -/
theorem sound_run (fs : Fs) (ins : List (Happening × List Outcome)) (dir : Path) :
    Sound (Provenance fs dir ins) (Present dir fs) dir (lifetime.run fs ins) := by
  refine lifetime.run_invariant
    (I := fun past t => Sound (Provenance fs dir past) (Present dir fs) dir t) ?_ ?_ ins
  · exact ⟨fun f hf => Or.inl ⟨f, Or.inl hf, rfl⟩, fun f hf => Or.inl ⟨f, Or.inr hf, rfl⟩, id⟩
  · intro past t i h
    have hmore : Sound (Provenance fs dir (past ++ [i])) (Present dir fs) dir t :=
      h.mono fun b hb => hb.mono (List.subset_append_left past [i])
    refine sound_step hmore fun n hn release hcandidate b hb => ?_
    exact Or.inr ⟨i, List.mem_append_right past (List.mem_singleton.mpr rfl), n, hn, release,
      hcandidate, hb⟩

/-- What an update answers is true. -/
theorem answered_step (fs : Fs) (n : Node) (wanted : Option String) (cs : List Outcome) :
    ∀ reply ∈ (lifetime.step fs (.update n wanted, cs)).2,
      Answered n reply (lifetime.step fs (.update n wanted, cs)).1 := by
  have hanything : Sound (fun _ => True) False n.stateDir fs :=
    ⟨fun _ _ => trivial, fun _ _ => trivial, False.elim⟩
  have hrun := Prog.always_iff_run.mp
    (always_applyUpdate (n := n) (fun _ _ _ _ => trivial) hanything wanted) cs
  intro reply hreply
  unfold lifetime at hreply ⊢
  dsimp only at hreply ⊢
  cases hr : (applyUpdate n.selection n.view n.blobs n.exe n.stateDir wanted).run perform cs fs with
  | mk result t =>
    rw [hr] at hrun hreply
    cases result with
    | none => exact absurd hreply List.not_mem_nil
    | some done =>
      obtain rfl := List.mem_singleton.mp hreply
      exact hrun.2

/-- A rollback in which nothing fails. -/
theorem eval_rollback {f : File} (h : fs (previousIn dir) = some f) :
    (rollback (binaryIn dir)).eval perform .ok fs = (.ok (),
      Function.update (Function.update fs (previousIn dir) none) (binaryIn dir) (some f)) := by
  unfold rollback
  rw [previousOf_binaryIn]
  simp [Prog.eval, perform, h]

theorem eval_andThen {α β ε : Type} {p : FileProg (Except ε α)} {f : α → FileProg (Except ε β)}
    {a : α} {t : Fs} (h : p.eval perform .ok fs = (.ok a, t)) :
    (p.andThen f).eval perform .ok fs = (f a).eval perform .ok t := by
  unfold Prog.andThen
  rw [Prog.eval_bind, h]

/-- The directory of the running binary is writable. -/
theorem eval_stagingDir (binDir stateDir : Path) :
    (stagingDir (binaryIn binDir) stateDir).eval perform .ok fs =
      (binDir, Function.update fs (probe binDir) none) := by
  unfold stagingDir isWritable
  rw [beside_binaryIn]
  simp [Prog.eval_bind, Prog.eval, perform]

/-- The files after a release has been installed over a binary. -/
def swapped (fs : Fs) (staged : Path) (binDir : Path) (old new : File) : Fs :=
  Function.update (Function.update (Function.update (Function.update fs (binaryIn binDir) none)
    (previousIn binDir) (some old)) staged none) (binaryIn binDir) (some new)

theorem eval_applyIn {release : Release} {bytes : List UInt8} {binDir : Path} {old : File}
    (hhash : Primitives.sha256 bytes = release.binary.hash)
    (hold : fs (binaryIn binDir) = some old) :
    (applyIn release (binaryIn binDir) bytes binDir).eval perform .ok fs =
      (.ok (binaryIn binDir), swapped (Function.update fs (release.staged binDir)
        (some ⟨bytes, 0o755⟩)) (release.staged binDir) binDir old ⟨bytes, 0o755⟩) := by
  obtain ⟨hbinary, hprevious⟩ := foreign_staged release binDir binDir
  unfold applyIn
  rw [eval_andThen (eval_stage hhash binDir fs), targetIn_binaryIn]
  have hthere : Function.update fs (release.staged binDir) (some ⟨bytes, 0o755⟩)
      (binaryIn binDir) = some old := by
    rw [Function.update_of_ne hbinary.symm, hold]
  have hstaged : Function.update fs (release.staged binDir) (some ⟨bytes, 0o755⟩)
      (release.staged binDir) = some ⟨bytes, 0o755⟩ := Function.update_self _ _ _
  generalize Function.update fs (release.staged binDir) (some ⟨bytes, 0o755⟩) = t
    at hthere hstaged ⊢
  have hpreserve : (preserve (binaryIn binDir) (release.staged binDir)).eval perform .ok t =
      (.ok (), Function.update (Function.update t (binaryIn binDir) none) (previousIn binDir)
        (some old)) := by
    unfold preserve
    rw [previousOf_binaryIn]
    simp [Prog.eval, perform, hthere]
  rw [eval_andThen hpreserve]
  have hinstall : (install (release.staged binDir) (binaryIn binDir)).eval perform .ok
      (Function.update (Function.update t (binaryIn binDir) none) (previousIn binDir) (some old)) =
      (.ok (), swapped t (release.staged binDir) binDir old ⟨bytes, 0o755⟩) := by
    have hstill : Function.update (Function.update t (binaryIn binDir) none) (previousIn binDir)
        (some old) (release.staged binDir) = some ⟨bytes, 0o755⟩ := by
      rw [Function.update_of_ne hprevious, Function.update_of_ne hbinary, hstaged]
    unfold install swapped
    simp only [Prog.eval, perform, hstill]
  rw [eval_andThen hinstall]
  unfold mark
  rw [if_neg (not_not.mpr rfl)]
  rfl

/-- The release is installed over the running binary. -/
theorem eval_installRelease {binDir : Path} {old : File} (hrunning : n.running = .ok binDir)
    (hdue : Due release.toRelease n.blobs n.selection.current n.selection.platform fs)
    (hold : fs (binaryIn binDir) = some old) :
    ∃ bytes, Primitives.sha256 bytes = release.binary.hash ∧
      (installRelease n.selection n.blobs n.exe n.stateDir release).eval perform .ok fs =
        ((.applied release.version (binaryIn binDir) true, [.quit]),
          swapped (Function.update (Function.update fs (probe binDir) none)
            (release.staged binDir) (some ⟨bytes, 0o755⟩)) (release.staged binDir) binDir old
            ⟨bytes, 0o755⟩) := by
  obtain ⟨bytes, hfetch, hhash⟩ := eval_fetch hdue
  refine ⟨bytes, hhash, ?_⟩
  have hkept : Function.update fs (probe binDir) none (binaryIn binDir) = some old := by
    have hprobe : Foreign binDir (probe binDir) := foreign_join (by decide) binDir binDir
    rw [Function.update_of_ne hprobe.1.symm, hold]
  have hprepare : (prepare release.toRelease n.blobs (binaryIn binDir) n.stateDir
      n.selection.current n.selection.platform).eval perform .ok fs =
      (.ok (bytes, binDir), Function.update fs (probe binDir) none) := by
    unfold prepare
    rw [eval_andThen hfetch, Prog.eval_bind, eval_stagingDir]
    rfl
  unfold installRelease Node.exe
  rw [hrunning]
  dsimp only [Except.map]
  unfold apply
  rw [Prog.eval_bind, eval_andThen hprepare]
  dsimp only
  rw [eval_applyIn hhash hkept]
  simp [Prog.eval]

end

/-! ## A node that is killed while it updates -/

section

open Sample

attribute [local instance] Sample.primitives

def publisherKey : String := String.ofList (List.replicate 64 '0')

/-- The newer build, signed. -/
def signedBuild : SignedRelease :=
  { build with signed := ⟨publisherKey, "alice", [9], publisherKey ++ hashText (digest [9])⟩ }

def signedBuildJson : String :=
  "\x7b\"version\":\"9.9.9\",\"platform\":\"linux\",\"binary\":\x7b\"hash\":\"" ++
    hashText (digest newBytes) ++ "\",\"size\":3,\"chunks\":[\"" ++ hashText (digest newBytes) ++
    "\"]\x7d,\"publisher_name\":\"alice\",\"publisher_key\":\"" ++ publisherKey ++
    "\",\"sig\":\"" ++ publisherKey ++ hashText (digest [9]) ++ "\"\x7d"

/-- Alice offers it. -/
def offer : Entry :=
  let text (v : String) : Field := ⟨.string v, clockOf [("alice", 1)], 10, "alice", false⟩
  { Entry.new docId with
    doc := ⟨docId, "rel-9.9.9-linux", .ofList [("manifest", text signedBuildJson),
      ("release_version", text "9.9.9"), ("platform", text "linux"),
      ("status", text "published")] Ord.compare⟩
    model := ModelRef.new "release" "1" }

/-- A node that trusts the publisher. -/
def trusting : Node where
  selection := {
    trust := TrustStore.empty.trust publisherKey "alice" "now"
    parse := fun text => if text = signedBuildJson then some signedBuild else none
    verifies := fun pk bytes sig => sig == tag pk bytes
    current := "1.0.0"
    platform := "linux" }
  view := (Store.fresh alice.key alice.name []).putEntry docId offer
  blobs := blobDir
  running := .ok binDir
  stateDir := ["/", "state"]

/-- It finds the build. -/
theorem trusting_best :
    ∃ doc, trusting.selection.bestCandidate trusting.view = some (doc, signedBuild) := by
  obtain ⟨⟨doc, r⟩, hbest⟩ := Option.isSome_iff_exists.mp
    (show (trusting.selection.bestCandidate trusting.view).isSome = true by decide +kernel)
  have hcheck : trusting.selection.checkForUpdate trusting.view = some r := by
    rw [trusting.selection.checkForUpdate_eq, hbest]
    rfl
  -- only this text is a release
  obtain ⟨row, -, -, hparse⟩ := (trusting.selection.chosen hcheck).1.1
  obtain ⟨text, -, htext⟩ := Option.bind_eq_some_iff.mp hparse
  dsimp only [trusting] at htext
  split at htext
  · obtain rfl := Option.some.inj htext
    exact ⟨doc, hbest⟩
  · cases htext

end

end PhReactor.Update
