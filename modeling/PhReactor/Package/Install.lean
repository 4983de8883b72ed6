/-
  Installing a package (`src/package/install.rs`, `PluginUi::validate` in `src/package/mod.rs`).

  1. `check` refuses a package whose signature, publisher, sidebar entries, bundle or definitions
     are not in order.  Of the bundle it asks only whether a chunk is missing; `BlobStore::get`
     also compares the size and the hash of the whole.  So a checked package can be served exactly
     when its chunks form the bundle (`checked_bundle_served_iff`).

  2. `install` enters the definitions ONE BY ONE, each into the registry and then into the models
     file, and records the package at the end.  A write that fails ends the loop, and nothing is
     taken back: what was entered stays entered.  `installModels_cases` says how far the loop came.

  3. `installed_or_not_iff` says when that shows: an install that fails leaves everything as it
     was, and one that succeeds has all of the package's models in force, exactly under `Clean`.

  A write may leave anything behind when it fails.
-/
import PhReactor.Blob.Store
import PhReactor.Daemon.Registrations
import PhReactor.Package.Trust

set_option linter.unusedSectionVars false

namespace PhReactor.Package

/-! ## Manifests -/

/-- One sidebar entry a plugin asks the console to show. -/
structure NavItem where
  label : String
  icon : String
  view : String

/-- What is read of a package manifest.  `signed` is what the signature is about, with the
    publisher's key and name. -/
structure Manifest where
  name : String
  version : String
  documentModels : List Value
  bundle : Option BlobRef
  nav : List NavItem
  signed : Artifact

/-- What the standard library takes from Unicode's tables: `str::to_lowercase`, and the `{:?}` of
    a string. -/
structure TextTables where
  toLowercase : String → String
  debug : String → String

/-- Names a plugin may not take. -/
def reservedNavLabels : List String :=
  ["home", "groups", "plugins", "settings", "profile", "reactor", "documents", "types", "folders",
    "overview", "spaces", "space"]

/-- At most this many entries per plugin. -/
def maxNavItems : ℕ := 3

/-- `char::is_control`: the general category `Cc`. -/
def isControl (c : Char) : Bool := c.toNat < 0x20 || (0x7F ≤ c.toNat && c.toNat < 0xA0)

/-- The loop of `validate`, behind the labels `seen`. -/
def validateItems (t : TextTables) : List NavItem → List String → Except String Unit
  | [], _ => .ok ()
  | item :: rest, seen =>
    let label := String.ofList (Update.trim item.label.toList)
    let folded := t.toLowercase label
    if label = "" then .error "a sidebar entry needs a label"
    else if 24 < label.length then
      .error ("sidebar label too long (max 24): " ++ t.debug label)
    else if label.toList.any isControl then
      .error ("sidebar label contains control characters: " ++ t.debug label)
    else if folded ∈ reservedNavLabels then
      .error ("\"" ++ label ++ "\" is a reserved sidebar name — a plugin may not impersonate " ++
        "the console's own navigation")
    else if folded ∈ seen then .error ("duplicate sidebar entry: " ++ t.debug label)
    else if 2 < item.icon.length then
      .error ("sidebar icon must be at most 2 characters: " ++ t.debug item.icon)
    else if item.icon.toList.any isControl then
      .error "sidebar icon contains control characters"
    else if 32 < item.view.length ∨
        item.view.toList.any fun c => !c.isAlphanum && c != '-' && c != '_' then
      .error ("a view name may only be letters, digits, - and _ (max 32): " ++ t.debug item.view)
    else validateItems t rest (seen ++ [folded])

/-- `PluginUi::validate`. -/
def validate (t : TextTables) (nav : List NavItem) : Except String Unit :=
  if maxNavItems < nav.length then
    .error ("a plugin may add at most " ++ toString maxNavItems ++
      " sidebar entries, this one asks for " ++ toString nav.length)
  else validateItems t nav []

/-! ## The list of packages -/

/-- A package recorded as installed on this node. -/
structure InstalledPackage where
  manifest : Manifest
  installedAt : String

/-- The set of installed packages. -/
structure Installed where
  packages : List InstalledPackage

/-- What is in the file of packages. -/
inductive InstalledFile where
  | missing
  /-- Not a list of packages: none is loaded. -/
  | unreadable
  | readable (all : Installed)

/-- How a write of that file ends: whole, or with an error, whatever the file then holds. -/
inductive InstalledWrite where
  | whole
  | failed (left : InstalledFile) (msg : String)

namespace Installed

def get (all : Installed) (name : String) : Option InstalledPackage :=
  all.packages.find? fun p => p.manifest.name == name

/-- Adds or replaces by package NAME, not name and version. -/
def put (all : Installed) (pkg : InstalledPackage) : Installed :=
  ⟨all.packages.filter (fun p => p.manifest.name != pkg.manifest.name) ++ [pkg]⟩

/-- Removes by name; was there any? -/
def remove (all : Installed) (name : String) : Installed × Bool :=
  let packages := all.packages.filter fun p => p.manifest.name != name
  (⟨packages⟩, packages.length != all.packages.length)

/-- Every bundle still referenced. -/
def liveBlobs (all : Installed) : List BlobRef := all.packages.filterMap fun p => p.manifest.bundle

theorem get_put (all : Installed) (pkg : InstalledPackage) :
    (all.put pkg).get pkg.manifest.name = some pkg := by
  have hothers : (all.packages.filter fun p => p.manifest.name != pkg.manifest.name).find?
      (fun p => p.manifest.name == pkg.manifest.name) = none := by
    refine List.find?_eq_none.mpr fun p hp hname => ?_
    exact bne_iff_ne.mp (List.mem_filter.mp hp).2 (beq_iff_eq.mp hname)
  unfold put get
  rw [List.find?_append, hothers, Option.none_or, List.find?_singleton,
    if_pos (beq_self_eq_true _)]

/-- `Installed::save`, and what the file holds then. -/
def save (all : Installed) : InstalledWrite → InstalledFile × Except String Unit
  | .whole => (.readable all, .ok ())
  | .failed left msg => (left, .error msg)

end Installed

/-- `Installed::load`. -/
def InstalledFile.load : InstalledFile → Installed
  | .readable all => all
  | _ => ⟨[]⟩

section

variable [Primitives]

/-! ## Checking, and installing -/

/-- Checks a package without installing it.  `verifies` is `VerifyingKey::verify`. -/
def check (t : TextTables) (verifies : PublicKey → List UInt8 → Sig → Bool) (m : Manifest)
    (trust : TrustStore) (blobs : Blob.BlobStore) : Except InstallError Unit :=
  match m.signed.verify verifies with
  | .error e => .error (.integrity e.describe)
  | .ok _ =>
    if !trust.isTrusted m.signed.publisherKey then
      .error (.untrustedPublisher m.signed.publisherKey m.signed.publisherName)
    else
      match validate t m.nav with
      | .error e => .error (.invalid ("sidebar: " ++ e))
      | .ok () =>
        let missing := (m.bundle.map fun r => (blobs.missing r).length).getD 0
        if 0 < missing then .error (.bundleIncomplete missing)
        else ModelHost.checkModels m.documentModels

/-- What an install changes: the store and the models file, and the file of packages. -/
structure PackageHost where
  host : ModelHost
  installed : InstalledFile

/-- What an install meets: the time, and how its writes end. -/
structure InstallIo where
  now : String
  models : ℕ → ModelsWrite
  installed : InstalledWrite

/-- Installs a checked package: registers its models and records it. -/
def install (t : TextTables) (verifies : PublicKey → List UInt8 → Sig → Bool) (m : Manifest)
    (trust : TrustStore) (blobs : Blob.BlobStore) (h : PackageHost) (io : InstallIo) :
    PackageHost × Except InstallError InstalledPackage :=
  match check t verifies m trust blobs with
  | .error e => (h, .error e)
  | .ok () =>
    match ModelHost.installModels io.models h.host m.documentModels 0 with
    | (host, .error e) => ({ h with host }, .error e)
    | (host, .ok ()) =>
      let pkg : InstalledPackage := ⟨m, io.now⟩
      match (h.installed.load.put pkg).save io.installed with
      | (installed, .error e) => (⟨host, installed⟩, .error (.io e))
      | (installed, .ok ()) => (⟨host, installed⟩, .ok pkg)

/-! ## What a check says of the bundle and of the definitions -/

theorem named_of_checkModels : ∀ {defs : List Value}, ModelHost.checkModels defs = .ok () →
    ∀ d ∈ defs, named d = true := by
  intro defs h
  induction defs with
  | nil => exact fun d hd => absurd hd List.not_mem_nil
  | cons v defs ih =>
    unfold ModelHost.checkModels at h
    cases hn : named v with
    | false =>
      rw [fromDef_unnamed hn] at h
      cases h
    | true =>
      obtain ⟨m, hm, -⟩ := fromDef_named hn
      rw [hm] at h
      exact List.forall_mem_cons.mpr ⟨hn, ih h⟩

/-- What has passed the check has a complete bundle and named definitions. -/
theorem check_ok {t : TextTables} {verifies : PublicKey → List UInt8 → Sig → Bool} {m : Manifest}
    {trust : TrustStore} {blobs : Blob.BlobStore} (h : check t verifies m trust blobs = .ok ()) :
    (∀ r, m.bundle = some r → blobs.isComplete r = true) ∧
      ∀ d ∈ m.documentModels, named d = true := by
  unfold check at h
  split at h
  · cases h
  · split at h
    · cases h
    · split at h
      · cases h
      · dsimp only at h
        split at h
        · cases h
        · next hcomplete =>
          refine ⟨fun r hr => ?_, named_of_checkModels h⟩
          rw [hr] at hcomplete
          exact Blob.BlobStore.missing_eq_nil_iff.mp
            (List.length_eq_zero_iff.mp (Nat.eq_zero_of_not_pos hcomplete))

/-- **A package that passes the check can be served exactly when its chunks form the bundle.** -/
theorem checked_bundle_served_iff (t : TextTables)
    (verifies : PublicKey → List UInt8 → Sig → Bool) (m : Manifest) (trust : TrustStore)
    (blobs : Blob.BlobStore) (hcheck : check t verifies m trust blobs = .ok ()) :
    (∀ r, m.bundle = some r →
        ∃ bytes, blobs.get r = some (.ok bytes) ∧ Primitives.sha256 bytes = r.hash) ↔
      ∀ r, m.bundle = some r → blobs.Forms r := by
  refine forall_congr' fun r => imp_congr_right fun hr => ?_
  have hcomplete := (check_ok hcheck).1 r hr
  constructor
  · rintro ⟨bytes, hget, -⟩
    exact ((Blob.BlobStore.get_iff hcomplete).mp hget).1
  · intro hforms
    exact ⟨_, (Blob.BlobStore.get_iff hcomplete).mpr ⟨hforms, rfl⟩, hforms.hash⟩

/-! ## How far an install comes -/

/-- Without a failure the loop is a sequence of registrations; a failing write ends it, with the
    model of that turn in the registry. -/
theorem installModels_cases (io : ℕ → ModelsWrite) (defs : List Value) (h : ModelHost) (i : ℕ)
    (hnamed : ∀ d ∈ defs, named d = true) :
    ((∀ j < defs.length, io (i + j) = .whole) ∧
      ModelHost.installModels io h defs i = (h.registerAll defs, .ok ())) ∨
    ∃ n left msg, n < defs.length ∧ (∀ j < n, io (i + j) = .whole) ∧
      io (i + n) = .failed left msg ∧
      (ModelHost.installModels io h defs i).2 = .error (.io msg) ∧
      (ModelHost.installModels io h defs i).1.file = left ∧
      (ModelHost.installModels io h defs i).1.store.models =
        (modelsOf (defs.take (n + 1))).foldl ModelRegistry.insert h.store.models := by
  induction defs generalizing h i with
  | nil => exact Or.inl ⟨fun j hj => absurd hj (Nat.not_lt_zero j), rfl⟩
  | cons d defs ih =>
    obtain ⟨hd, hdefs⟩ := List.forall_mem_cons.mp hnamed
    obtain ⟨m, hm, -, -⟩ := fromDef_named hd
    have hcons : ∀ l : List Value, modelsOf (d :: l) = .l1 m :: modelsOf l := by
      intro l
      unfold modelsOf
      rw [List.filterMap_cons_some (b := Model.l1 m) (by rw [hm]; rfl)]
    cases hio : io i with
    | whole =>
      have hturn : ModelHost.installModels io h (d :: defs) i =
          ModelHost.installModels io (h.registerModel d .whole).1 defs (i + 1) := by
        have hsaved : (h.enter m d .whole).2 = .ok () := by
          show (Persist.save h.file d .whole).2 = .ok ()
          rw [save_valid hm]
        rw [ModelHost.installModels, hm]
        dsimp only
        rw [hio, show h.enter m d .whole = ((h.enter m d .whole).1, .ok ()) from
          Prod.ext rfl hsaved]
        unfold ModelHost.registerModel
        rw [hm]
      have hmodels : (h.registerModel d .whole).1.store.models =
          h.store.models.insert (.l1 m) := by
        unfold ModelHost.registerModel
        rw [hm]
        rfl
      have hshift : ∀ {n : ℕ}, (∀ j < n, io (i + 1 + j) = .whole) →
          ∀ j < n + 1, io (i + j) = .whole := by
        intro n hall j hj
        cases j with
        | zero => exact hio
        | succ j =>
          rw [Nat.add_comm j 1, ← Nat.add_assoc]
          exact hall j (by omega)
      rw [hturn]
      rcases ih (h.registerModel d .whole).1 (i + 1) hdefs with
        ⟨hall, heq⟩ | ⟨n, left, msg, hn, hall, hfail, herr, hfile, hreg⟩
      · exact Or.inl ⟨hshift hall, heq⟩
      · refine Or.inr ⟨n + 1, left, msg, Nat.succ_lt_succ hn, hshift hall, ?_, herr, hfile, ?_⟩
        · rw [Nat.add_comm n 1, ← Nat.add_assoc]
          exact hfail
        · rw [hreg, hmodels, List.take_succ_cons, hcons]
          rfl
    | failed left msg =>
      have hsaved : Persist.save h.file d (.failed left msg) = (left, .error msg) := by
        unfold Persist.save
        exact if_neg (bne_iff_ne.mp hd)
      have hturn : ModelHost.installModels io h (d :: defs) i =
          (⟨Store.addModel h.store (.l1 m), left⟩, .error (.io msg)) := by
        rw [ModelHost.installModels, hm]
        dsimp only
        rw [hio, show h.enter m d (.failed left msg) =
          (⟨Store.addModel h.store (.l1 m), left⟩, .error msg) by
            unfold ModelHost.enter
            rw [hsaved]]
      refine Or.inr ⟨0, left, msg, Nat.zero_lt_succ _, fun j hj => absurd hj (Nat.not_lt_zero j),
        hio, ?_⟩
      rw [hturn, List.take_succ_cons, List.take_zero, hcons]
      exact ⟨rfl, rfl, rfl⟩

/-! ## When nothing shows -/

/-- The last of these definitions, for each name and version, is in force already. -/
def InForce (r : ModelRegistry) (defs : List Value) : Prop :=
  ∀ k d, Lib.last? (defines k) defs = some d → definitionAt r k = some (some d)

/-- Entering definitions shows in the registry, unless they are in force. -/
theorem definitionAt_entered_iff {r : ModelRegistry} {defs : List Value} :
    (∀ k, definitionAt ((modelsOf defs).foldl ModelRegistry.insert r) k = definitionAt r k) ↔
      InForce r defs := by
  refine forall_congr' fun k => ?_
  rw [definitionAt_foldl]
  cases Lib.last? (defines k) defs with
  | none =>
    rw [Option.map_none, Option.none_or]
    exact iff_of_true rfl fun d hd => by cases hd
  | some x =>
    rw [Option.map_some, Option.some_or]
    exact ⟨fun h d hd => h.symm.trans (congrArg some hd), fun h => (h x rfl).symm⟩

/-- The models file ends with these definitions, the last one of each key, and has no other entry
    of their keys. -/
def AlreadySaved (file : ModelsFile) (defs : List Value) : Prop :=
  defs = [] ∨ file = .defs (((Persist.loadAll file).filter fun v =>
    ∀ d ∈ defs, Persist.key d ≠ Persist.key v) ++ Lib.latest Persist.key defs)

/-- What the models file holds when all definitions have been saved. -/
theorem loadAll_registerAll (h : ModelHost) {defs : List Value}
    (hnamed : ∀ d ∈ defs, named d = true) : Persist.loadAll (h.registerAll defs).file =
      ((Persist.loadAll h.file).filter fun v => ∀ d ∈ defs, Persist.key d ≠ Persist.key v) ++
        Lib.latest Persist.key defs := by
  rw [(h.registerAll_spec defs).2, List.filter_eq_self.mpr hnamed, Lib.foldl_rewrite]
  congr 1
  refine List.filter_congr fun v _ => ?_
  rw [Bool.eq_iff_iff, Bool.not_eq_true', ← Bool.not_eq_true, List.any_eq_true,
    decide_eq_true_iff]
  simp only [beq_iff_eq, not_exists, not_and, ne_eq]

/-- Saving the definitions shows in the models file, unless they are there already. -/
theorem file_registerAll_iff (h : ModelHost) {defs : List Value}
    (hnamed : ∀ d ∈ defs, named d = true) :
    (h.registerAll defs).file = h.file ↔ AlreadySaved h.file defs := by
  unfold AlreadySaved
  rw [← loadAll_registerAll h hnamed]
  induction defs using List.reverseRecOn with
  | nil => exact iff_of_true rfl (Or.inl rfl)
  | append_singleton defs d _ =>
    -- the last save has written a list
    have hdefs : (h.registerAll (defs ++ [d])).file =
        .defs (Persist.loadAll (h.registerAll (defs ++ [d])).file) := by
      obtain ⟨m, hm, -, -⟩ := fromDef_named (hnamed d (by simp))
      have hlast : (h.registerAll (defs ++ [d])).file =
          (Persist.save (h.registerAll defs).file d .whole).1 := by
        unfold ModelHost.registerAll
        rw [List.foldl_append, List.foldl_cons, List.foldl_nil, ModelHost.registerModel, hm]
        rfl
      rw [hlast, save_valid hm]
      rfl
    rw [or_iff_right (by simp), ← hdefs]
    exact eq_comm

/-- No two definitions of the package get in each other's way. -/
def Distinct (defs : List Value) : Prop :=
  ∀ d ∈ defs, ∀ d' ∈ defs,
    registryKey d = registryKey d' ∨ Persist.key d = Persist.key d' → d = d'

/-- All the definitions are in force and in the file, if there are no two of a key. -/
theorem all_entered_iff (h : ModelHost) {defs : List Value} (hnamed : ∀ d ∈ defs, named d = true) :
    (∀ d ∈ defs,
        definitionAt (h.registerAll defs).store.models (registryKey d) = some (some d) ∧
          d ∈ Persist.loadAll (h.registerAll defs).file) ↔ Distinct defs := by
  have hreg : ∀ d ∈ defs, ∃ x, Lib.last? (defines (registryKey d)) defs = some x ∧
      definitionAt (h.registerAll defs).store.models (registryKey d) = some (some x) := by
    intro d hd
    have hdefines : defines (registryKey d) d = true := by
      unfold defines
      rw [hnamed d hd, beq_self_eq_true]
      rfl
    obtain ⟨x, hx⟩ := Lib.last?_isSome hd hdefines
    refine ⟨x, hx, ?_⟩
    rw [(h.registerAll_spec defs).1, definitionAt_foldl, hx]
    rfl
  have hfile : ∀ d ∈ defs, d ∈ Persist.loadAll (h.registerAll defs).file ↔
      Lib.lastOf Persist.key (Persist.key d) defs = some d := by
    intro d hd
    rw [loadAll_registerAll h hnamed, List.mem_append, ← Lib.mem_latest]
    refine or_iff_right fun hkept => ?_
    exact of_decide_eq_true (List.mem_filter.mp hkept).2 d hd rfl
  constructor
  · intro hall d hd d' hd' hkey
    obtain ⟨hd1, hd2⟩ := hall d hd
    obtain ⟨hd1', hd2'⟩ := hall d' hd'
    rcases hkey with hkey | hkey
    · rw [← hkey, hd1] at hd1'
      exact Option.some.inj (Option.some.inj hd1')
    · have hlast := (hfile d hd).mp hd2
      rw [hkey, (hfile d' hd').mp hd2'] at hlast
      exact (Option.some.inj hlast).symm
  · intro hdistinct d hd
    obtain ⟨x, hx, hdef⟩ := hreg d hd
    obtain ⟨y, hy⟩ : ∃ y, Lib.lastOf Persist.key (Persist.key d) defs = some y :=
      Lib.exists_lastOf hd
    have hxd : x = d := hdistinct x (Lib.last?_mem hx).1 d hd
      (Or.inl (registryKey_of_defines (Lib.last?_mem hx).2))
    have hyd : y = d := hdistinct y (Lib.last?_mem hy).1 d hd (Or.inr (Lib.lastOf_key hy))
    rw [hdef, hxd]
    exact ⟨rfl, (hfile d hd).mpr (hyd ▸ hy)⟩

/-! ## Installed, or not -/

/-- A package is installed or it is not: a failure leaves registry, models file and list of
    packages as they were, and after a success all models are in force and in the file, and the
    package is recorded. -/
def Atomic (m : Manifest) (h h' : PackageHost) : Except InstallError InstalledPackage → Prop
  | .error _ =>
    (∀ k, definitionAt h'.host.store.models k = definitionAt h.host.store.models k) ∧
      h'.host.file = h.host.file ∧ h'.installed = h.installed
  | .ok pkg =>
    (∀ d ∈ m.documentModels,
        definitionAt h'.host.store.models (registryKey d) = some (some d) ∧
          d ∈ Persist.loadAll h'.host.file) ∧
      h'.installed.load.get m.name = some pkg ∧ pkg.manifest = m

/-- What the install of a checked package must meet for that.  Where a save of a model fails: what
    was entered up to then was in force before, and the failed write leaves the file of before.
    Where the record fails: the same, with nothing new in the models file.  Where nothing fails:
    no two definitions of the package share a key. -/
structure Clean (m : Manifest) (h : PackageHost) (io : InstallIo) : Prop where
  models : ∀ n left msg, n < m.documentModels.length → (∀ j < n, io.models j = .whole) →
    io.models n = .failed left msg →
    InForce h.host.store.models (m.documentModels.take (n + 1)) ∧ left = h.host.file
  record : (∀ j < m.documentModels.length, io.models j = .whole) →
    ∀ left msg, io.installed = .failed left msg →
    InForce h.host.store.models m.documentModels ∧ AlreadySaved h.host.file m.documentModels ∧
      left = h.installed
  whole : (∀ j < m.documentModels.length, io.models j = .whole) → io.installed = .whole →
    Distinct m.documentModels

section

variable {t : TextTables} {verifies : PublicKey → List UInt8 → Sig → Bool} {m : Manifest}
  {trust : TrustStore} {blobs : Blob.BlobStore} {h : PackageHost} {io : InstallIo}

/-- A loop that fails ends the install. -/
theorem install_models_failed (hcheck : check t verifies m trust blobs = .ok ())
    {e : InstallError}
    (he : (ModelHost.installModels io.models h.host m.documentModels 0).2 = .error e) :
    install t verifies m trust blobs h io =
      ({ h with host := (ModelHost.installModels io.models h.host m.documentModels 0).1 },
        .error e) := by
  unfold install
  rw [hcheck]
  cases hmodels : ModelHost.installModels io.models h.host m.documentModels 0 with
  | mk host r =>
    rw [hmodels] at he
    obtain rfl : r = .error e := he
    rfl

/-- After the loop the package is recorded. -/
theorem install_models_ok (hcheck : check t verifies m trust blobs = .ok ()) {host : ModelHost}
    (hmodels : ModelHost.installModels io.models h.host m.documentModels 0 = (host, .ok ())) :
    (io.installed = .whole → install t verifies m trust blobs h io =
      (⟨host, .readable (h.installed.load.put ⟨m, io.now⟩)⟩, .ok ⟨m, io.now⟩)) ∧
    ∀ left msg, io.installed = .failed left msg →
      install t verifies m trust blobs h io = (⟨host, left⟩, .error (.io msg)) := by
  unfold install
  rw [hcheck, hmodels]
  refine ⟨fun hio => ?_, fun left msg hio => ?_⟩
  · rw [hio]
    rfl
  · rw [hio]
    rfl

end

/-- **A package is installed or it is not, exactly when the install is clean.**  Where the check
    refuses the package, nothing happens at all. -/
theorem installed_or_not_iff (t : TextTables) (verifies : PublicKey → List UInt8 → Sig → Bool)
    (m : Manifest) (trust : TrustStore) (blobs : Blob.BlobStore) (h : PackageHost)
    (io : InstallIo) :
    Atomic m h (install t verifies m trust blobs h io).1
        (install t verifies m trust blobs h io).2 ↔
      (check t verifies m trust blobs = .ok () → Clean m h io) := by
  cases hcheck : check t verifies m trust blobs with
  | error e =>
    have hrefused : install t verifies m trust blobs h io = (h, .error e) := by
      unfold install
      rw [hcheck]
    rw [hrefused]
    exact iff_of_true ⟨fun k => rfl, rfl, rfl⟩ fun hok => by cases hok
  | ok x =>
    rw [show (Except.ok x = (Except.ok () : Except InstallError Unit)) ↔ True from
      iff_true_intro rfl, true_imp_iff]
    have hnamed := (check_ok hcheck).2
    rcases installModels_cases io.models m.documentModels h.host 0 hnamed with
      ⟨hall, hmodels⟩ | ⟨n, left, msg, hn, hall, hfail, herr, hfile, hreg⟩
    · -- every definition is entered
      simp only [Nat.zero_add] at hall
      obtain ⟨hwhole, hfailed⟩ := install_models_ok (h := h) hcheck hmodels
      have hnofail : ∀ n left msg, n < m.documentModels.length →
          io.models n ≠ .failed left msg := by
        intro n left msg hn hio
        rw [hall n hn] at hio
        cases hio
      cases hio : io.installed with
      | whole =>
        rw [hwhole hio]
        have hrecorded := h.installed.load.get_put ⟨m, io.now⟩
        constructor
        · rintro ⟨hentered, -⟩
          refine ⟨fun n left msg hn _ hf => absurd hf (hnofail n left msg hn),
            fun _ left msg hf => ?_, fun _ _ => (all_entered_iff h.host hnamed).mp hentered⟩
          rw [hio] at hf
          cases hf
        · intro hclean
          exact ⟨(all_entered_iff h.host hnamed).mpr (hclean.whole hall hio), hrecorded, rfl⟩
      | failed left msg =>
        rw [hfailed left msg hio]
        have hreg : (∀ k, definitionAt (h.host.registerAll m.documentModels).store.models k =
            definitionAt h.host.store.models k) ↔
            InForce h.host.store.models m.documentModels := by
          rw [(h.host.registerAll_spec m.documentModels).1]
          exact definitionAt_entered_iff
        have hfile := file_registerAll_iff h.host hnamed
        constructor
        · rintro ⟨hk, hf, hleft⟩
          refine ⟨fun n left msg hn _ hf => absurd hf (hnofail n left msg hn),
            fun _ left' msg' hf' => ?_, fun _ hw => ?_⟩
          · rw [hio] at hf'
            obtain ⟨rfl, -⟩ := InstalledWrite.failed.inj hf'
            exact ⟨hreg.mp hk, hfile.mp hf, hleft⟩
          · rw [hio] at hw
            cases hw
        · intro hclean
          obtain ⟨hforce, hsaved, hleft⟩ := hclean.record hall left msg hio
          exact ⟨hreg.mpr hforce, hfile.mpr hsaved, hleft⟩
    · -- the save of the `n`-th definition fails
      simp only [Nat.zero_add] at hall hfail
      rw [install_models_failed hcheck herr]
      have hnotall : ¬ ∀ j < m.documentModels.length, io.models j = .whole := by
        intro hwhole
        rw [hwhole n hn] at hfail
        cases hfail
      constructor
      · rintro ⟨hk, hf, -⟩
        refine ⟨fun n' left' msg' hn' hall' hfail' => ?_, fun hw => absurd hw hnotall,
          fun hw => absurd hw hnotall⟩
        -- there is only one first failure
        have hsame : n' = n := by
          rcases Nat.lt_trichotomy n' n with hlt | heq | hgt
          · rw [hall n' hlt] at hfail'
            cases hfail'
          · exact heq
          · rw [hall' n hgt] at hfail
            cases hfail
        subst hsame
        rw [hfail] at hfail'
        obtain ⟨rfl, -⟩ := ModelsWrite.failed.inj hfail'
        refine ⟨definitionAt_entered_iff.mp fun k => ?_, hfile.symm.trans hf⟩
        rw [← hreg]
        exact hk k
      · intro hclean
        obtain ⟨hforce, hleft⟩ := hclean.models n left msg hn hall hfail
        refine ⟨fun k => ?_, hfile.trans hleft, rfl⟩
        rw [hreg]
        exact definitionAt_entered_iff.mpr hforce k

end

/-! ## A trusted publisher's packages -/

section

open Sample

attribute [local instance] Sample.primitives

/-- The packages of the sample have no sidebar entries, so the tables are not asked. -/
def plainTables : TextTables := ⟨id, id⟩

/-- The publisher is trusted. -/
def pinned : TrustStore := TrustStore.empty.trust (publisherHex 'a') "Powerhouse" "now"

def samplePackage (documentModels : List Value) (bundle : Option BlobRef) : Manifest where
  name := "@powerhousedao/achra"
  version := "1.0.0"
  documentModels
  bundle
  nav := []
  signed := published 'a'

/-- Signature, publisher and sidebar are in order. -/
theorem check_samplePackage (documentModels : List Value) (bundle : Option BlobRef)
    (blobs : Blob.BlobStore) (hbundle : ((bundle.map fun r => (blobs.missing r).length).getD 0) = 0)
    (hmodels : ModelHost.checkModels documentModels = .ok ()) :
    check plainTables releaseSigned (samplePackage documentModels bundle) pinned blobs =
      .ok () := by
  have htrusted : pinned.isTrusted (published 'a').publisherKey = true := by
    rw [pinned, TrustStore.isTrusted_trust]
    exact if_pos rfl
  unfold check
  rw [show (samplePackage documentModels bundle).signed = published 'a' from rfl,
    verify_published.1]
  dsimp only
  rw [htrusted, show validate plainTables (samplePackage documentModels bundle).nav = .ok () from
    rfl]
  dsimp only
  rw [show (samplePackage documentModels bundle).bundle = bundle from rfl, hbundle,
    if_neg (Nat.lt_irrefl 0)]
  exact hmodels

/-- A node that keeps the three bytes. -/
def keeping : Blob.BlobStore := ((Blob.BlobStore.empty "blobs").put [1, 2, 3] fun _ => .ok).1

/-- A package whose chunks form its bundle passes, and is served. -/
theorem sample_bundle_served :
    check plainTables releaseSigned (samplePackage [] (some (Blob.refOf [1, 2, 3]))) pinned
        keeping = .ok () ∧
      ∀ r, some (Blob.refOf [1, 2, 3]) = some r →
        ∃ bytes, keeping.get r = some (.ok bytes) ∧ Primitives.sha256 bytes = r.hash := by
  have hcheck := check_samplePackage [] (some (Blob.refOf [1, 2, 3])) keeping (by decide +kernel)
    rfl
  refine ⟨hcheck, (checked_bundle_served_iff plainTables releaseSigned
    (samplePackage [] (some (Blob.refOf [1, 2, 3]))) pinned keeping hcheck).mpr ?_⟩
  intro r hr
  obtain rfl := Option.some.inj hr
  exact ⟨by decide +kernel, by decide +kernel, by decide +kernel⟩

/-- Five bytes that are in no chunk. -/
def hollow : BlobRef := ⟨0, 5, []⟩

/-- **The check passes a bundle that cannot be served**: it names no chunk, so none is missing. -/
theorem hollow_bundle_checked :
    ¬ (check plainTables releaseSigned (samplePackage [] (some hollow)) pinned
        (.empty "blobs") = .ok () →
      ∀ r, (samplePackage [] (some hollow)).bundle = some r →
        ∃ bytes, (Blob.BlobStore.empty "blobs").get r = some (.ok bytes) ∧
          Primitives.sha256 bytes = r.hash) := by
  intro hall
  obtain ⟨bytes, hget, -⟩ :=
    hall (check_samplePackage [] (some hollow) (.empty "blobs") rfl rfl) hollow rfl
  have hforms := ((Blob.BlobStore.get_iff (r := hollow) rfl).mp hget).1
  exact absurd hforms.size (by decide)

/-- A daemon on an empty directory, without packages. -/
def freshHost : PackageHost :=
  ⟨ModelHost.start realisticModels alice.key "alice" .missing, .missing⟩

/-- A definition of two words. -/
def bareTicket : Value := .object [("name", .string "ticket")]

/-- The disk is full when the first model is saved. -/
def diskFull : InstallIo := ⟨"now", fun _ => .failed .missing "no space left on device", .whole⟩

/-- **The install fails, and the model stays.** -/
theorem half_installed_ticket :
    ¬ Atomic (samplePackage [bareTicket] none) freshHost
      (install plainTables releaseSigned (samplePackage [bareTicket] none) pinned
        (.empty "blobs") freshHost diskFull).1
      (install plainTables releaseSigned (samplePackage [bareTicket] none) pinned
        (.empty "blobs") freshHost diskFull).2 := by
  have hcheck := check_samplePackage [bareTicket] none (.empty "blobs") rfl rfl
  rcases installModels_cases diskFull.models [bareTicket] freshHost.host 0 (by decide) with
    ⟨hall, -⟩ | ⟨n, left, msg, hn, -, -, herr, -, hreg⟩
  · cases hall 0 (by decide)
  · obtain rfl : n = 0 := Nat.lt_one_iff.mp hn
    rw [install_models_failed hcheck herr]
    rintro ⟨hk, -, -⟩
    have hthere := hk (registryKey bareTicket)
    rw [show ∀ host : ModelHost, ({ freshHost with host } : PackageHost).host = host from
      fun _ => rfl] at hthere
    have hentered := hreg.symm ▸ definitionAt_foldl [bareTicket] freshHost.host.store.models
      (registryKey bareTicket)
    -- the binary brings no such definition
    have hbase : definitionAt freshHost.host.store.models (registryKey bareTicket) =
        some (some bareTicket) := hthere.symm.trans hentered
    cases (version_of_base hbase : bareTicket.get? "version" = some (.string "1"))

end

end PhReactor.Package
