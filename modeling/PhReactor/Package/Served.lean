/-
  What the asset server serves (`bundle` in `src/settings/assets.rs`), over the life of the node
  that installs and uninstalls packages (`install_pkg`, `uninstall`, `trust_publisher` and
  `revoke_publisher` in `src/settings/packages.rs`).

  Three files decide it: the publishers, the packages, and the chunks.  The handlers read each again
  at every call.  Between two calls anything may happen to the documents, the models and the chunks,
  so a call is given them as they then are.

  1. What the operator decides is a history: to trust a publisher or not, to install a package or
     to take it away.  A write that fails leaves its file as it was, or torn; a torn file says
     nothing, and to trust nobody or to serve nothing needs no decision.

  2. `Decided`: who is trusted was last said to be, every package in the file was the last one to be
     installed under its name, and every install was of a signed package whose publisher was trusted
     by then.  Every call keeps it (`decided_step`).

  3. So whatever comes out of the asset server is the bundle of the package that was last installed
     under that name, as its publisher signed it, whatever happened to the chunks
     (`served_is_vouched_for`).
-/
import PhReactor.Lib.Latest
import PhReactor.Lib.Machine
import PhReactor.Package.Uninstall

set_option linter.unusedSectionVars false

namespace PhReactor.Package

/-! ## The handlers -/

/-- How a write of the file of packages ends: a failing one leaves it as it was, or torn. -/
def plainWrite (f : InstalledFile) (msg : String) : SaveOutcome → InstalledWrite
  | .ok => .whole
  | .kept => .failed f msg
  | .torn => .failed .unreadable msg

/-- The files that the handlers change. -/
structure PluginNode where
  trust : TrustFile
  packages : PackageHost

/-- What `install_pkg` answers. -/
inductive InstallReply where
  /-- `404`: no such package document. -/
  | notFound
  /-- `400`: no readable manifest. -/
  | unreadable
  /-- The signature, or the trust in the publisher. -/
  | stopped (r : TrustReply)
  /-- `202`. -/
  | fetching (missing : ℕ)
  | refused (e : InstallError)
  | installed (pkg : InstalledPackage)

/-- What the asset server answers. -/
inductive ServeReply where
  /-- `404`. -/
  | notFound (why : String)
  /-- `503`. -/
  | unavailable
  | served (bytes : List UInt8)
  | panicked
  deriving DecidableEq

/-- A call, with what it meets: the chunks, and how its writes end. -/
inductive PluginCall where
  | install (blobs : Blob.BlobStore) (doc : String) (trustPublisher : Bool) (now : String)
      (save : SaveOutcome) (models : ℕ → ModelsWrite) (write : SaveOutcome) (msg : String)
  | uninstall (blobs : Blob.BlobStore) (name : String) (write : SaveOutcome) (msg : String)
      (gcIo : Blob.GcIo)
  | trust (key name now : String) (save : SaveOutcome)
  | revoke (key : String) (save : SaveOutcome)
  /-- Whatever else happens to the documents and the models. -/
  | otherwise (host : ModelHost)

/-- What the operator decides. -/
inductive Decision where
  | publisher (key : String) (trusted : Bool)
  | package (name : String) (m : Option Manifest)

section

variable [Primitives] (t : TextTables) (verifies : PublicKey → List UInt8 → Sig → Bool)
  (parse : String → Option Manifest)

/-- The manifest in the document of that name. -/
def offered (s : Inner) (doc : String) : Option (Option Manifest) :=
  ((queryDocs s "package" none).find? fun row => row.name == doc).map (manifestOf parse)

/-- `install_pkg`. -/
def installPackage (n : PluginNode) (blobs : Blob.BlobStore) (doc : String)
    (trustPublisher : Bool) (now : String) (save : SaveOutcome) (models : ℕ → ModelsWrite)
    (write : SaveOutcome) (msg : String) : PluginNode × InstallReply :=
  match offered parse n.packages.host.store doc with
  | none => (n, .notFound)
  | some none => (n, .unreadable)
  | some (some m) =>
    match installPkg verifies n.trust m.signed trustPublisher now save with
    | (trust, .trusted) =>
      let missing := (m.bundle.map blobs.missing).getD []
      if !missing.isEmpty then ({ n with trust }, .fetching missing.length)
      else
        match install t verifies m trust.load blobs n.packages
            ⟨now, models, plainWrite n.packages.installed msg write⟩ with
        | (packages, .ok pkg) => (⟨trust, packages⟩, .installed pkg)
        | (packages, .error (.bundleIncomplete missing)) => (⟨trust, packages⟩, .fetching missing)
        | (packages, .error e) => (⟨trust, packages⟩, .refused e)
    | (trust, r) => ({ n with trust }, .stopped r)

/-- `bundle` in `src/settings/assets.rs`. -/
def serveBundle (f : InstalledFile) (blobs : Blob.BlobStore) (name : String) : ServeReply :=
  match f.load.get name with
  | none => .notFound "no such package installed"
  | some pkg =>
    match pkg.manifest.bundle with
    | none => .notFound "this package has no editor"
    | some r =>
      match blobs.get r with
      | none => .panicked
      | some (.error _) => .unavailable
      | some (.ok bytes) => .served bytes

/-! ## What is decided -/

/-- A call of one of the trust handlers decides if it succeeds. -/
def decisionsOf (f : TrustFile) (c : TrustCall) : List Decision :=
  if c.succeeds verifies f then [.publisher c.spelling c.grants] else []

/-- What an install asks of the publishers, if there is a manifest. -/
def trustCallOf (n : PluginNode) (doc : String) (trustPublisher : Bool) (now : String)
    (save : SaveOutcome) : Option TrustCall :=
  (offered parse n.packages.host.store doc).join.map fun m =>
    .install m.signed trustPublisher now save

/-- A package is installed. -/
def InstallReply.decisions : InstallReply → List Decision
  | .installed pkg => [.package pkg.manifest.name (some pkg.manifest)]
  | _ => []

/-- A package is taken away. -/
def UninstallReply.decisions : UninstallReply → List Decision
  | .removed name _ => [.package name none]
  | _ => []

def PluginNode.step (n : PluginNode) : PluginCall → PluginNode × List Decision
  | .install blobs doc trustPublisher now save models write msg =>
    let (n', reply) :=
      installPackage t verifies parse n blobs doc trustPublisher now save models write msg
    (n', ((trustCallOf parse n doc trustPublisher now save).map
        (decisionsOf verifies n.trust)).getD [] ++ reply.decisions)
  | .uninstall blobs name write msg gcIo =>
    let (h, reply) := uninstall parse ⟨n.packages.host.store, n.packages.installed, blobs⟩ name
      (plainWrite n.packages.installed msg write) gcIo
    ({ n with packages := { n.packages with installed := h.installed } }, reply.decisions)
  | .trust key name now save =>
    ({ n with trust := ((TrustCall.trust key name now save).exec verifies n.trust).1 },
      decisionsOf verifies n.trust (.trust key name now save))
  | .revoke key save =>
    ({ n with trust := ((TrustCall.revoke key save).exec verifies n.trust).1 },
      decisionsOf verifies n.trust (.revoke key save))
  | .otherwise host => ({ n with packages := { n.packages with host } }, [])

/-- The calls, one after the other; what they decide is put out. -/
def pluginMachine : Lib.Machine PluginNode PluginCall Decision where
  step n c := n.step t verifies parse c

def Decision.isAbout (key : String) : Decision → Bool
  | .publisher k _ => k == key
  | .package .. => false

def Decision.isOf (name : String) : Decision → Bool
  | .publisher .. => false
  | .package n _ => n == name

/-- What was last said of the key. -/
def lastSaid (key : String) (past : List Decision) : Option Decision :=
  Lib.last? (Decision.isAbout key) past

/-- What was last done under the name. -/
def lastDone (name : String) (past : List Decision) : Option Decision :=
  Lib.last? (Decision.isOf name) past

/-- The package is what its publisher signed, and the last word on the publisher is trust. -/
structure Sanctioned (past : List Decision) (m : Manifest) : Prop where
  verified : (m.signed.verify verifies).isOk = true
  trusted : lastSaid m.signed.publisherKey past = some (.publisher m.signed.publisherKey true)

/-- What the files say was decided. -/
structure Decided (past : List Decision) (n : PluginNode) : Prop where
  trusted : ∀ k, n.trust.isTrusted k = true → lastSaid k past = some (.publisher k true)
  packages : ∀ p ∈ n.packages.installed.load.packages,
    lastDone p.manifest.name past = some (.package p.manifest.name (some p.manifest))
  installs : ∀ before name m after, past = before ++ .package name (some m) :: after →
    m.name = name ∧ Sanctioned verifies before m

variable {t verifies parse} {past : List Decision} {n : PluginNode}

/-! ## Histories -/

theorem lastSaid_publisher (k key : String) (b : Bool) (past : List Decision) :
    lastSaid k (past ++ [.publisher key b]) =
      if key = k then some (.publisher key b) else lastSaid k past := by
  unfold lastSaid
  rw [Lib.last?_concat]
  exact if_congr beq_iff_eq rfl rfl

theorem lastSaid_package (k name : String) (m : Option Manifest) (past : List Decision) :
    lastSaid k (past ++ [.package name m]) = lastSaid k past := Lib.last?_concat

theorem lastDone_publisher (name key : String) (b : Bool) (past : List Decision) :
    lastDone name (past ++ [.publisher key b]) = lastDone name past := Lib.last?_concat

theorem lastDone_package (k name : String) (m : Option Manifest) (past : List Decision) :
    lastDone k (past ++ [.package name m]) =
      if name = k then some (.package name m) else lastDone k past := by
  unfold lastDone
  rw [Lib.last?_concat]
  exact if_congr beq_iff_eq rfl rfl

/-- A cut of a longer history is the one before its end, or one of what was there. -/
theorem cut_concat {α : Type*} {past before after : List α} {d x : α}
    (h : past ++ [d] = before ++ x :: after) :
    (before = past ∧ x = d) ∨ ∃ rest, past = before ++ x :: rest := by
  rcases List.eq_nil_or_concat after with rfl | ⟨rest, y, rfl⟩
  · obtain ⟨hpast, hd⟩ := List.append_inj' h rfl
    exact Or.inl ⟨hpast.symm, (List.singleton_inj.mp hd).symm⟩
  · rw [List.concat_eq_append, ← List.cons_append, ← List.append_assoc] at h
    exact Or.inr ⟨rest, (List.append_inj' h rfl).1⟩

/-! ## What each part of a call keeps -/

/-- A decision about a publisher. -/
theorem Decided.said (h : Decided verifies past n) (key : String) (b : Bool) {trust : TrustFile}
    (htrust : ∀ k, trust.isTrusted k = true →
      lastSaid k (past ++ [.publisher key b]) = some (.publisher k true)) :
    Decided verifies (past ++ [.publisher key b]) { n with trust } := by
  refine ⟨htrust, fun p hp => ?_, fun before name m after hcut => ?_⟩
  · rw [lastDone_publisher]
    exact h.packages p hp
  · rcases cut_concat hcut with ⟨-, hd⟩ | ⟨rest, hrest⟩
    · cases hd
    · exact h.installs before name m rest hrest

/-- **A call of a trust handler.** -/
theorem Decided.exec (h : Decided verifies past n) (c : TrustCall) :
    Decided verifies (past ++ decisionsOf verifies n.trust c)
      { n with trust := (c.exec verifies n.trust).1 } := by
  have htrusted := TrustCall.isTrusted_exec verifies n.trust c
  unfold decisionsOf
  cases hok : c.succeeds verifies n.trust with
  | true =>
    rw [if_pos rfl]
    refine h.said c.spelling c.grants fun k hk => ?_
    rw [htrusted k, hok, if_pos rfl] at hk
    rw [lastSaid_publisher]
    split at hk
    · next heq => rw [if_pos heq, heq, hk]
    · next hne =>
      rw [if_neg hne]
      exact h.trusted k hk
  | false =>
    rw [if_neg Bool.false_ne_true, List.append_nil]
    refine ⟨fun k hk => h.trusted k ?_, h.packages, h.installs⟩
    have hk : (c.exec verifies n.trust).1.isTrusted k = true := hk
    rw [htrusted k, hok, if_neg Bool.false_ne_true] at hk
    exact (Bool.and_eq_true_iff.mp hk).1

/-- The file of packages is as it was, or torn. -/
theorem Decided.lose (h : Decided verifies past n) {packages : PackageHost}
    (hfile : packages.installed = n.packages.installed ∨ packages.installed = .unreadable) :
    Decided verifies past { n with packages } := by
  refine ⟨h.trusted, fun p hp => ?_, h.installs⟩
  rcases hfile with heq | heq
  · exact h.packages p (by rw [← heq]; exact hp)
  · exact absurd (show p ∈ packages.installed.load.packages from hp) (by rw [heq]; exact nofun)

/-- **A package is recorded.** -/
theorem Decided.record (h : Decided verifies past n) {pkg : InstalledPackage}
    (hsanctioned : Sanctioned verifies past pkg.manifest) {packages : PackageHost}
    (hfile : packages.installed = .readable (n.packages.installed.load.put pkg)) :
    Decided verifies (past ++ [.package pkg.manifest.name (some pkg.manifest)])
      { n with packages } := by
  refine ⟨fun k hk => ?_, fun p hp => ?_, fun before name m after hcut => ?_⟩
  · rw [lastSaid_package]
    exact h.trusted k hk
  · have hp : p ∈ (n.packages.installed.load.put pkg).packages := by
      have hload : packages.installed.load = n.packages.installed.load.put pkg := by rw [hfile]; rfl
      rw [← hload]
      exact hp
    rw [lastDone_package]
    rcases List.mem_append.mp hp with hp | hp
    · obtain ⟨hp, hne⟩ := List.mem_filter.mp hp
      rw [if_neg fun heq => bne_iff_ne.mp hne heq.symm]
      exact h.packages p hp
    · rw [List.mem_singleton.mp hp, if_pos rfl]
  · rcases cut_concat hcut with ⟨rfl, hd⟩ | ⟨rest, hrest⟩
    · obtain ⟨rfl, hm⟩ := Decision.package.inj hd
      obtain rfl := Option.some.inj hm
      exact ⟨rfl, hsanctioned⟩
    · exact h.installs before name m rest hrest

/-- **A package is taken away.** -/
theorem Decided.remove (h : Decided verifies past n) (name : String) {packages : PackageHost}
    (hfile : packages.installed = .readable (n.packages.installed.load.remove name).1) :
    Decided verifies (past ++ [.package name none]) { n with packages } := by
  refine ⟨fun k hk => ?_, fun p hp => ?_, fun before name' m after hcut => ?_⟩
  · rw [lastSaid_package]
    exact h.trusted k hk
  · have hp : p ∈ (n.packages.installed.load.remove name).1.packages := by
      have hload : packages.installed.load = (n.packages.installed.load.remove name).1 := by
        rw [hfile]
        rfl
      rw [← hload]
      exact hp
    obtain ⟨hp, hne⟩ := List.mem_filter.mp hp
    rw [lastDone_package, if_neg fun heq => bne_iff_ne.mp hne heq.symm]
    exact h.packages p hp
  · rcases cut_concat hcut with ⟨-, hd⟩ | ⟨rest, hrest⟩
    · cases hd
    · exact h.installs before name' m rest hrest

/-! ## What a call does -/

/-- **How an install ends**: the file of packages is as it was or as a failing write left it; or the
    package had passed the check, and is recorded. -/
theorem install_cases {m : Manifest} {trust : TrustStore} {blobs : Blob.BlobStore}
    {h h' : PackageHost} {io : InstallIo} {r : Except InstallError InstalledPackage}
    (hdone : install t verifies m trust blobs h io = (h', r)) :
    ((∃ e, r = .error e) ∧ (h'.installed = h.installed ∨ ∃ left msg,
      io.installed = .failed left msg ∧ h'.installed = left)) ∨
    (check t verifies m trust blobs = .ok () ∧ r = .ok ⟨m, io.now⟩ ∧
      h'.installed = .readable (h.installed.load.put ⟨m, io.now⟩)) := by
  unfold install at hdone
  cases hcheck : check t verifies m trust blobs with
  | error e =>
    rw [hcheck] at hdone
    obtain ⟨rfl, rfl⟩ := Prod.mk.inj hdone
    exact Or.inl ⟨⟨e, rfl⟩, Or.inl rfl⟩
  | ok u =>
    rw [hcheck] at hdone
    dsimp only at hdone
    split at hdone
    · next e _ =>
      obtain ⟨rfl, rfl⟩ := Prod.mk.inj hdone
      exact Or.inl ⟨⟨e, rfl⟩, Or.inl rfl⟩
    · cases hio : io.installed with
      | whole =>
        rw [hio] at hdone
        obtain ⟨rfl, rfl⟩ := Prod.mk.inj hdone
        exact Or.inr ⟨rfl, rfl, rfl⟩
      | failed left msg =>
        rw [hio] at hdone
        obtain ⟨rfl, rfl⟩ := Prod.mk.inj hdone
        exact Or.inl ⟨⟨_, rfl⟩, Or.inr ⟨left, msg, rfl, rfl⟩⟩

/-- What passes the check verifies, under a publisher that is trusted. -/
theorem verified_of_check {m : Manifest} {trust : TrustStore} {blobs : Blob.BlobStore}
    (h : check t verifies m trust blobs = .ok ()) :
    (m.signed.verify verifies).isOk = true ∧ trust.isTrusted m.signed.publisherKey = true := by
  unfold check at h
  split at h
  · cases h
  · next key hverify =>
    rw [hverify]
    split at h
    · cases h
    · next htrust =>
      rw [Bool.not_eq_true', Bool.not_eq_false] at htrust
      exact ⟨rfl, htrust⟩

/-- A write that fails leaves the file as it was, or torn. -/
theorem plainWrite_failed {f left : InstalledFile} {msg msg' : String} {write : SaveOutcome}
    (h : plainWrite f msg write = .failed left msg') : left = f ∨ left = .unreadable := by
  cases write with
  | ok => cases h
  | kept => exact Or.inl (InstalledWrite.failed.inj h).1.symm
  | torn => exact Or.inr (InstalledWrite.failed.inj h).1.symm

/-- **How an uninstall ends**: the same, or the package is gone. -/
theorem uninstall_cases {h h' : OfferHost} {name : String} {io : InstalledWrite}
    {gcIo : Blob.GcIo} {r : UninstallReply} (hdone : uninstall parse h name io gcIo = (h', r)) :
    ((∀ k freed, r ≠ .removed k freed) ∧ (h'.installed = h.installed ∨ ∃ left msg,
      io = .failed left msg ∧ h'.installed = left)) ∨
    ((∃ freed, r = .removed name freed) ∧
      h'.installed = .readable (h.installed.load.remove name).1) := by
  cases r with
  | notInstalled =>
    refine Or.inl ⟨fun k freed hr => (by cases hr), Or.inl ?_⟩
    unfold uninstall at hdone
    dsimp only at hdone
    split at hdone
    · rw [← (Prod.mk.inj hdone).1]
    · cases io <;> cases (Prod.mk.inj hdone).2
  | saveFailed e =>
    refine Or.inl ⟨fun k freed hr => (by cases hr), Or.inr ?_⟩
    unfold uninstall at hdone
    dsimp only at hdone
    split at hdone
    · cases (Prod.mk.inj hdone).2
    · cases io with
      | whole => cases (Prod.mk.inj hdone).2
      | failed left msg => exact ⟨left, msg, rfl, by rw [← (Prod.mk.inj hdone).1]⟩
  | removed k freed =>
    obtain rfl : k = name := by
      unfold uninstall at hdone
      dsimp only at hdone
      split at hdone
      · cases (Prod.mk.inj hdone).2
      · cases io with
        | failed left msg => cases (Prod.mk.inj hdone).2
        | whole => exact (UninstallReply.removed.inj (Prod.mk.inj hdone).2).1.symm
    exact Or.inr ⟨⟨freed, rfl⟩, (uninstall_removed hdone).2.1⟩

/-- **The end of an install.** -/
theorem Decided.installing (h : Decided verifies past n) {m : Manifest} {blobs : Blob.BlobStore}
    {now msg : String} {models : ℕ → ModelsWrite} {write : SaveOutcome} {packages : PackageHost}
    {r : Except InstallError InstalledPackage}
    (hdone : install t verifies m n.trust.load blobs n.packages
      ⟨now, models, plainWrite n.packages.installed msg write⟩ = (packages, r)) :
    (∀ e, r = .error e → Decided verifies past { n with packages }) ∧
      ∀ pkg, r = .ok pkg → Decided verifies
        (past ++ [.package pkg.manifest.name (some pkg.manifest)]) { n with packages } := by
  rcases install_cases hdone with ⟨⟨e, rfl⟩, hfile⟩ | ⟨hcheck, rfl, hfile⟩
  · refine ⟨fun _ _ => h.lose ?_, fun pkg hpkg => (by cases hpkg)⟩
    rcases hfile with hfile | ⟨left, msg', hwrite, hfile⟩
    · exact Or.inl hfile
    · rw [hfile]
      exact plainWrite_failed hwrite
  · refine ⟨fun e he => (by cases he), fun pkg hpkg => ?_⟩
    obtain rfl := Except.ok.inj hpkg
    obtain ⟨hverified, htrusted⟩ := verified_of_check hcheck
    have hsanctioned : Sanctioned verifies past (InstalledPackage.manifest ⟨m, now⟩) :=
      ⟨hverified, h.trusted m.signed.publisherKey htrusted⟩
    exact h.record hsanctioned hfile

/-- **Every call keeps what is decided.** -/
theorem decided_step (h : Decided verifies past n) (c : PluginCall) :
    Decided verifies (past ++ (n.step t verifies parse c).2) (n.step t verifies parse c).1 := by
  cases c with
  | trust key name now save =>
    unfold PluginNode.step
    dsimp only
    exact h.exec (.trust key name now save)
  | revoke key save =>
    unfold PluginNode.step
    dsimp only
    exact h.exec (.revoke key save)
  | otherwise host =>
    unfold PluginNode.step
    dsimp only
    rw [List.append_nil]
    exact h.lose (Or.inl rfl)
  | uninstall blobs name write msg gcIo =>
    unfold PluginNode.step
    dsimp only
    cases hdone : uninstall parse ⟨n.packages.host.store, n.packages.installed, blobs⟩ name
        (plainWrite n.packages.installed msg write) gcIo with
    | mk h' r =>
      dsimp only
      rcases uninstall_cases hdone with ⟨hreply, hfile⟩ | ⟨⟨freed, rfl⟩, hfile⟩
      · rw [show r.decisions = [] by cases r <;> first | rfl | exact absurd rfl (hreply _ _),
          List.append_nil]
        refine h.lose ?_
        rcases hfile with hfile | ⟨left, msg', hwrite, hfile⟩
        · exact Or.inl hfile
        · rw [show h'.installed = left from hfile]
          exact plainWrite_failed hwrite
      · exact h.remove name hfile
  | install blobs doc trustPublisher now save models write msg =>
    unfold PluginNode.step installPackage trustCallOf
    dsimp only
    cases hoffer : offered parse n.packages.host.store doc with
    | none =>
      rw [show (InstallReply.notFound).decisions = [] from rfl]
      simpa using h
    | some offer =>
      cases offer with
      | none => simpa [InstallReply.decisions] using h
      | some m =>
        have hexec := h.exec (.install m.signed trustPublisher now save)
        dsimp only [Option.join_some, Option.map_some, Option.getD_some]
        unfold TrustCall.exec at hexec
        dsimp only at hexec
        cases htrust : installPkg verifies n.trust m.signed trustPublisher now save with
        | mk trust r =>
          rw [htrust] at hexec
          rw [← List.append_assoc]
          generalize past ++ decisionsOf verifies n.trust
            (.install m.signed trustPublisher now save) = past' at hexec ⊢
          cases r with
          | trusted =>
            dsimp only
            split
            · simpa [InstallReply.decisions] using hexec
            · cases hdone : install t verifies m trust.load blobs n.packages
                  ⟨now, models, plainWrite n.packages.installed msg write⟩ with
              | mk packages r =>
                obtain ⟨hfails, hinstalls⟩ := hexec.installing hdone
                cases r with
                | ok pkg => exact hinstalls pkg rfl
                | error e =>
                  have hfailed := hfails e rfl
                  cases e <;> simpa [InstallReply.decisions] using hfailed
          | _ => simpa [InstallReply.decisions] using hexec

/-! ## Runs -/

/-- A node on an empty directory. -/
def PluginNode.start (host : ModelHost) : PluginNode := ⟨.absent, ⟨host, .missing⟩⟩

/-- What was decided in a run. -/
def history (t : TextTables) (verifies : PublicKey → List UInt8 → Sig → Bool)
    (parse : String → Option Manifest) (n : PluginNode) (calls : List PluginCall) :
    List Decision :=
  ((pluginMachine t verifies parse).outputs n calls).flatten

/-- **After every run the files say what was decided.** -/
theorem decided_run (t : TextTables) (verifies : PublicKey → List UInt8 → Sig → Bool)
    (parse : String → Option Manifest) (host : ModelHost) (calls : List PluginCall) :
    Decided verifies (history t verifies parse (.start host) calls)
      ((pluginMachine t verifies parse).run (.start host) calls) := by
  have hrun := (pluginMachine t verifies parse).run_invariant
    (I := fun past n => n = (pluginMachine t verifies parse).run (.start host) past ∧
      Decided verifies (history t verifies parse (.start host) past) n)
    ⟨rfl, fun k hk => ?_, fun p hp => absurd hp List.not_mem_nil,
      fun before name m after hcut => ?_⟩
    (fun past n c hn => ?_) calls
  · exact hrun.2
  · -- nobody is trusted
    have hnobody : (PluginNode.start host).trust.isTrusted k = true := hk
    rw [show (PluginNode.start host).trust.isTrusted k = false from TrustStore.isTrusted_empty k]
      at hnobody
    cases hnobody
  · cases before <;> cases hcut
  · obtain ⟨rfl, hdecided⟩ := hn
    refine ⟨((pluginMachine t verifies parse).run_concat _ past c).symm, ?_⟩
    unfold history
    rw [Lib.Machine.outputs_concat, List.flatten_append, List.flatten_singleton]
    exact decided_step hdecided c

/-- **What comes out of the asset server is vouched for.**  Whatever the calls were, and whatever
    the chunks are now: the bytes are the bundle that the package last installed under that name
    has in its manifest.  The manifest is as its publisher signed it, and at the install the last
    word on the publisher was trust. -/
theorem served_is_vouched_for (t : TextTables) (verifies : PublicKey → List UInt8 → Sig → Bool)
    (parse : String → Option Manifest) (host : ModelHost) (calls : List PluginCall)
    (blobs : Blob.BlobStore) (name : String) (bytes : List UInt8)
    (hserved : serveBundle
      ((pluginMachine t verifies parse).run (.start host) calls).packages.installed
      blobs name = .served bytes) :
    ∃ (m : Manifest) (r : BlobRef) (before after : List Decision),
      history t verifies parse (.start host) calls =
          before ++ .package name (some m) :: after ∧
        (∀ d ∈ after, d.isOf name = false) ∧ Sanctioned verifies before m ∧ m.name = name ∧
        m.bundle = some r ∧ Primitives.sha256 bytes = r.hash ∧ bytes.length = r.size := by
  have hdecided := decided_run t verifies parse host calls
  generalize (pluginMachine t verifies parse).run (.start host) calls = n at hserved hdecided
  unfold serveBundle at hserved
  cases hget : n.packages.installed.load.get name with
  | none =>
    rw [hget] at hserved
    cases hserved
  | some pkg =>
    rw [hget] at hserved
    dsimp only at hserved
    have hpkg := List.mem_of_find?_eq_some hget
    have hfound : (pkg.manifest.name == name) = true :=
      List.find?_some (p := fun p : InstalledPackage => p.manifest.name == name) hget
    have hname : pkg.manifest.name = name := beq_iff_eq.mp hfound
    have hlast := hdecided.packages pkg hpkg
    rw [hname] at hlast
    obtain ⟨before, after, hcut, hafter⟩ := Lib.exists_of_last? hlast
    have hsanctioned := (hdecided.installs before name pkg.manifest after hcut).2
    cases hbundle : pkg.manifest.bundle with
    | none =>
      rw [hbundle] at hserved
      cases hserved
    | some r =>
      rw [hbundle] at hserved
      dsimp only at hserved
      cases hblob : blobs.get r with
      | none =>
        rw [hblob] at hserved
        cases hserved
      | some out =>
        rw [hblob] at hserved
        cases out with
        | error e => cases hserved
        | ok got =>
          obtain rfl := ServeReply.served.inj hserved
          obtain ⟨hhash, hsize⟩ := Blob.BlobStore.get_ok hblob
          exact ⟨pkg.manifest, r, before, after, hcut, hafter, hsanctioned, hname, hbundle, hhash,
            hsize⟩

end

/-! ## A node that serves an editor -/

section

open Sample

attribute [local instance] Sample.primitives

/-- The package of the sample, with three bytes for an editor. -/
abbrev editorPackage : Manifest := samplePackage [] (some (Blob.refOf [1, 2, 3]))

/-- What comes out of the parser: that package of one text, and nothing of others. -/
def parseEditor (text : String) : Option Manifest :=
  if text = "editor" then some editorPackage else none

/-- Alice offers it. -/
def packageInit : Action :=
  act alice "package" "init" (.object [("manifest", .string "editor"),
    ("name", .string "pkg-editor"), ("package_name", .string "@powerhousedao/achra"),
    ("package_version", .string "1.0.0"), ("publisher_key", .string (publisherHex 'a'))]) 10
    [("alice", 1)] none

def offeringHost : ModelHost :=
  ⟨(Store.fresh alice.key alice.name []).execAll (deliver [packageInit]), .missing⟩

/-- It is installed, and its publisher trusted. -/
abbrev editorInstall : List PluginCall :=
  [.install keeping "pkg-editor" true "now" .ok (fun _ => .whole) .ok ""]

theorem offeringHost_keys : offeringHost.store.entries.keys = [docId] := by
  decide +kernel

theorem offeringHost_entry : (offeringHost.store.entries[docId]?).map (fun e =>
      (e.deleted, e.model.name, e.doc.name, (e.doc.fields["manifest"]?).map fun f => f.value)) =
    some (false, "package", "pkg-editor", some (.string "editor")) := by
  decide +kernel

/-- There is one package to find. -/
theorem editor_offered :
    offered parseEditor offeringHost.store "pkg-editor" = some (some editorPackage) := by
  obtain ⟨e, he, hfacts⟩ := Option.map_eq_some_iff.mp offeringHost_entry
  obtain ⟨hlive, hrest⟩ := Prod.mk.inj hfacts
  obtain ⟨hmodel, hrest⟩ := Prod.mk.inj hrest
  obtain ⟨hname, hmanifest⟩ := Prod.mk.inj hrest
  have hrow : rowOf offeringHost.store "package" none docId = some
      ⟨e.doc.id, e.doc.name, e.model.name, e.doc.fields.map fun _ f => f.value⟩ :=
    rowOf_eq_some.mpr ⟨e, he, hlive, Or.inr hmodel, rfl, rfl⟩
  have htext : (e.doc.fields.map fun _ f => f.value)["manifest"]? = some (.string "editor") := by
    rw [Std.ExtTreeMap.getElem?_map, hmanifest]
  unfold offered queryDocs
  rw [offeringHost_keys, List.filterMap_cons_some hrow, List.filterMap_nil]
  unfold Lib.canonSort
  rw [List.insertionSort_cons, List.insertionSort_nil, List.orderedInsert_nil,
    List.find?_singleton, hname, if_pos (beq_self_eq_true _), Option.map_some]
  unfold manifestOf
  rw [htext]
  rfl

theorem editor_served :
    serveBundle ((pluginMachine plainTables releaseSigned parseEditor).run (.start offeringHost)
      editorInstall).packages.installed keeping "@powerhousedao/achra" = .served [1, 2, 3] := by
  show serveBundle (installPackage plainTables releaseSigned parseEditor (.start offeringHost)
    keeping "pkg-editor" true "now" .ok (fun _ => .whole) .ok "").1.packages.installed keeping
      "@powerhousedao/achra" = _
  unfold installPackage
  rw [show (PluginNode.start offeringHost).packages.host.store = offeringHost.store from rfl,
    editor_offered]
  decide +kernel

theorem served_is_vouched_for_editor :
    ∃ (m : Manifest) (r : BlobRef) (before after : List Decision),
      history plainTables releaseSigned parseEditor (.start offeringHost) editorInstall =
          before ++ .package "@powerhousedao/achra" (some m) :: after ∧
        (∀ d ∈ after, d.isOf "@powerhousedao/achra" = false) ∧
        Sanctioned releaseSigned before m ∧ m.name = "@powerhousedao/achra" ∧
        m.bundle = some r ∧ Primitives.sha256 [1, 2, 3] = r.hash ∧ [1, 2, 3].length = r.size :=
  served_is_vouched_for plainTables releaseSigned parseEditor offeringHost editorInstall keeping
    "@powerhousedao/achra" [1, 2, 3] editor_served

end

end PhReactor.Package
