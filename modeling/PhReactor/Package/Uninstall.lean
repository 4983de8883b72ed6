/-
  Uninstalling a package, and what the collection of chunks takes with it
  (`src/settings/packages.rs`, the offers of `src/settings/updates.rs`).

  Chunks are shared, so after an uninstall everything goes that no ROOT reaches.  A node offers
  blobs in three places: the bundles of the packages it has installed, those of the `package@1`
  documents, and the binaries of the `release@1` documents that are not withdrawn.

  1. `blobsToKeep` gathers the first two (`mem_blobsToKeep`).

  2. The third is no root.  A release's chunk stays exactly when a package happens to share it, or
     when the file system does not let go of it: `uninstall_keeps_offers_iff`.
-/
import PhReactor.Package.Install
import PhReactor.Query

set_option linter.unusedSectionVars false

namespace PhReactor.Package

/-- The node: the store, the file of packages and the blob store. -/
structure OfferHost where
  store : Inner
  installed : InstalledFile
  blobs : Blob.BlobStore

/-- What is answered to the console. -/
inductive UninstallReply where
  | notInstalled
  | saveFailed (e : String)
  /-- Done; and how many chunks were freed, or why none. -/
  | removed (name : String) (freed : Except String ℕ)

section

variable [Primitives]

/-- Parses the manifest out of the row of a package document; `parse` is `serde_json::from_str`. -/
def manifestOf (parse : String → Option Manifest) (row : DocRow) : Option Manifest :=
  (row.fields["manifest"]?.bind Value.asStr?).bind parse

/-- Every blob this node must keep. -/
def blobsToKeep (parse : String → Option Manifest) (s : Inner) (installed : Installed) :
    List BlobRef :=
  installed.liveBlobs ++
    (queryDocs s "package" none).filterMap fun row => (manifestOf parse row).bind Manifest.bundle

/-- `uninstall`. -/
def uninstall (parse : String → Option Manifest) (h : OfferHost) (name : String)
    (io : InstalledWrite) (gcIo : Blob.GcIo) : OfferHost × UninstallReply :=
  let (installed, removed) := h.installed.load.remove name
  if !removed then (h, .notInstalled)
  else
    match installed.save io with
    | (file, .error e) => ({ h with installed := file }, .saveFailed e)
    | (file, .ok ()) =>
      let (blobs, freed) := h.blobs.gc (blobsToKeep parse h.store file.load) gcIo
      ({ h with installed := file, blobs }, .removed name freed)

/-! ## What a node offers -/

/-- A live document of that model, in version 1. -/
def LiveDoc (s : Inner) (model : String) (e : Entry) : Prop :=
  (∃ id : DocId, s.entries[id]? = some e) ∧ e.deleted = false ∧ e.model.name = model ∧
    e.model.version = "1"

/-- The text of a live field. -/
def liveText (e : Entry) (field : String) : Option String :=
  e.doc.live.fields[field]?.bind fun f => f.value.asStr?

/-- The bundle of a package that is offered on the mesh. -/
def PackageOffer (parse : String → Option Manifest) (s : Inner) (r : BlobRef) : Prop :=
  ∃ e m, LiveDoc s "package" e ∧ (liveText e "manifest").bind parse = some m ∧ m.bundle = some r

/-- The binary of a release that is offered, and not withdrawn. -/
def ReleaseOffer (parse : String → Option Update.Release) (s : Inner) (r : BlobRef) : Prop :=
  ∃ e release, LiveDoc s "release" e ∧ liveText e "status" ≠ some "withdrawn" ∧
    (liveText e "manifest").bind parse = some release ∧ release.binary = r

/-- The bundle of an installed package. -/
def BundleInstalled (f : InstalledFile) (r : BlobRef) : Prop :=
  ∃ p ∈ f.load.packages, p.manifest.bundle = some r

/-- A bundle that a package document names, of whatever version, in a field that may have a
    tombstone. -/
def PackageDocBundle (parse : String → Option Manifest) (s : Inner) (r : BlobRef) : Prop :=
  ∃ (id : DocId) (e : Entry) (m : Manifest), s.entries[id]? = some e ∧ e.deleted = false ∧
    e.model.name = "package" ∧
    ((e.doc.fields["manifest"]?.bind fun f => f.value.asStr?).bind parse = some m) ∧
    m.bundle = some r

variable {parse : String → Option Manifest} {s : Inner} {r : BlobRef}

theorem PackageOffer.docBundle (h : PackageOffer parse s r) : PackageDocBundle parse s r := by
  obtain ⟨e, m, ⟨⟨id, he⟩, hlive, hname, -⟩, hparse, hbundle⟩ := h
  refine ⟨id, e, m, he, hlive, hname, ?_, hbundle⟩
  obtain ⟨raw, hraw, hm⟩ := Option.bind_eq_some_iff.mp hparse
  obtain ⟨f, hf, hstr⟩ := Option.bind_eq_some_iff.mp hraw
  rw [fields_live] at hf
  rw [(Option.filter_eq_some_iff.mp hf).1, Option.bind_some, hstr, Option.bind_some, hm]

/-- **The roots**: the bundles of installed packages, and of package documents. -/
theorem mem_blobsToKeep {all : Installed} : r ∈ blobsToKeep parse s all ↔
    (∃ p ∈ all.packages, p.manifest.bundle = some r) ∨ PackageDocBundle parse s r := by
  unfold blobsToKeep
  rw [List.mem_append, List.mem_filterMap]
  refine or_congr List.mem_filterMap ?_
  constructor
  · rintro ⟨row, hrow, hbundle⟩
    obtain ⟨id, hid⟩ := mem_queryDocs.mp hrow
    obtain ⟨e, he, hlive, hmodel, -, rfl⟩ := rowOf_eq_some.mp hid
    obtain ⟨m, hm, hr⟩ := Option.bind_eq_some_iff.mp hbundle
    refine ⟨id, e, m, he, hlive, hmodel.resolve_left (by decide), ?_, hr⟩
    unfold manifestOf at hm
    dsimp only at hm
    rw [Std.ExtTreeMap.getElem?_map, Option.bind_map] at hm
    exact hm
  · rintro ⟨id, e, m, he, hlive, hname, hm, hr⟩
    refine ⟨_, mem_queryDocs.mpr ⟨id, rowOf_eq_some.mpr ⟨e, he, hlive, Or.inr hname, rfl, rfl⟩⟩, ?_⟩
    unfold manifestOf
    dsimp only
    rw [Std.ExtTreeMap.getElem?_map, Option.bind_map]
    exact Option.bind_eq_some_iff.mpr ⟨m, hm, hr⟩

/-! ## What an uninstall does -/

/-- A success has saved the packages without the one of that name, and collected. -/
theorem uninstall_removed {h h' : OfferHost} {name : String} {io : InstalledWrite}
    {gcIo : Blob.GcIo} {n : String} {freed : Except String ℕ}
    (hdone : uninstall parse h name io gcIo = (h', .removed n freed)) :
    h'.store = h.store ∧ h'.installed = .readable (h.installed.load.remove name).1 ∧
      h.blobs.gc (blobsToKeep parse h.store (h.installed.load.remove name).1) gcIo =
        (h'.blobs, freed) := by
  unfold uninstall at hdone
  dsimp only at hdone
  split at hdone
  · cases hdone
  · cases io with
    | failed left msg => cases hdone
    | whole =>
      obtain ⟨rfl, hreply⟩ := Prod.mk.inj hdone
      obtain ⟨-, rfl⟩ := UninstallReply.removed.inj hreply
      exact ⟨rfl, rfl, rfl⟩

/-- What a collection leaves: a chunk that a root names, or that the file system does not let go
    of. -/
theorem hasChunk_gc (b : Blob.BlobStore) (keep : List BlobRef) (io : Blob.GcIo) (c : Hash32) :
    (b.gc keep io).1.hasChunk c = true ↔ b.hasChunk c = true ∧
      (io.readDir = .ok () → io.removes c = true → ∃ r ∈ keep, c ∈ r.chunks) := by
  cases hdir : io.readDir with
  | error e =>
    have hsame : (b.gc keep io).1 = b := by
      unfold Blob.BlobStore.gc
      rw [hdir]
    rw [hsame]
    exact ⟨fun h => ⟨h, fun hok => by cases hok⟩, fun h => h.1⟩
  | ok x =>
    obtain ⟨t, n, hgc⟩ : ∃ t n, b.gc keep io = (t, .ok n) := by
      unfold Blob.BlobStore.gc
      rw [hdir]
      exact ⟨_, _, rfl⟩
    rw [hgc, Blob.BlobStore.hasChunk_iff, Blob.BlobStore.getElem?_gc hgc,
      Blob.BlobStore.hasChunk_iff]
    by_cases hstays : (∃ r ∈ keep, c ∈ r.chunks) ∨ io.removes c = false
    · rw [if_pos hstays]
      refine (and_iff_left fun _ hremoves => ?_).symm
      rcases hstays with hnamed | hrefused
      · exact hnamed
      · rw [hremoves] at hrefused
        cases hrefused
    · rw [if_neg hstays]
      refine iff_of_false (fun ⟨_, h⟩ => by cases h) fun ⟨_, h⟩ => hstays (Or.inl (h rfl ?_))
      by_contra hno
      exact hstays (Or.inr (Bool.eq_false_iff.mpr hno))

/-- **An uninstall collects no blob that the node still offers, exactly when the releases' chunks
    are also those of a package**, of one that stays installed or of a package document (or do not
    go at all). -/
theorem uninstall_keeps_offers_iff (parse : String → Option Manifest)
    (parseRelease : String → Option Update.Release) (h h' : OfferHost) (name : String)
    (io : InstalledWrite) (gcIo : Blob.GcIo) (n : String) (freed : Except String ℕ)
    (hdone : uninstall parse h name io gcIo = (h', .removed n freed)) :
    (∀ r, BundleInstalled h'.installed r ∨ PackageOffer parse h'.store r ∨
        ReleaseOffer parseRelease h'.store r →
      ∀ c ∈ r.chunks, h.blobs.hasChunk c = true → h'.blobs.hasChunk c = true) ↔
    ∀ r, ReleaseOffer parseRelease h.store r → ∀ c ∈ r.chunks, h.blobs.hasChunk c = true →
      gcIo.readDir = .ok () → gcIo.removes c = true →
      ∃ r', ((∃ p ∈ h.installed.load.packages, p.manifest.name ≠ name ∧
        p.manifest.bundle = some r') ∨ PackageDocBundle parse h.store r') ∧ c ∈ r'.chunks := by
  obtain ⟨hstore, hfile, hgc⟩ := uninstall_removed hdone
  have hremaining : ∀ p, p ∈ (h.installed.load.remove name).1.packages ↔
      p ∈ h.installed.load.packages ∧ p.manifest.name ≠ name := by
    intro p
    unfold Installed.remove
    rw [List.mem_filter, bne_iff_ne]
  have hafter : ∀ c, h'.blobs.hasChunk c = true ↔ h.blobs.hasChunk c = true ∧
      (gcIo.readDir = .ok () → gcIo.removes c = true →
        ∃ r' ∈ blobsToKeep parse h.store (h.installed.load.remove name).1, c ∈ r'.chunks) := by
    intro c
    have hstays := hasChunk_gc h.blobs
      (blobsToKeep parse h.store (h.installed.load.remove name).1) gcIo c
    rwa [hgc] at hstays
  rw [hstore]
  constructor
  · intro hkeeps r hr c hc hthere hdir hremoves
    obtain ⟨r', hroot, hc'⟩ :=
      ((hafter c).mp (hkeeps r (Or.inr (Or.inr hr)) c hc hthere)).2 hdir hremoves
    refine ⟨r', ?_, hc'⟩
    rcases mem_blobsToKeep.mp hroot with ⟨p, hp, hbundle⟩ | hdoc
    · obtain ⟨hp, hname⟩ := (hremaining p).mp hp
      exact Or.inl ⟨p, hp, hname, hbundle⟩
    · exact Or.inr hdoc
  · rintro hreleases r (⟨p, hp, hr⟩ | hoffer | hrelease) c hc hthere
    · rw [hfile] at hp
      exact (hafter c).mpr ⟨hthere, fun _ _ => ⟨r, mem_blobsToKeep.mpr (Or.inl ⟨p, hp, hr⟩), hc⟩⟩
    · exact (hafter c).mpr
        ⟨hthere, fun _ _ => ⟨r, mem_blobsToKeep.mpr (Or.inr hoffer.docBundle), hc⟩⟩
    · refine (hafter c).mpr ⟨hthere, fun hdir hremoves => ?_⟩
      obtain ⟨r', ⟨p, hp, hname, hbundle⟩ | hdoc, hc'⟩ :=
        hreleases r hrelease c hc hthere hdir hremoves
      · exact ⟨r', mem_blobsToKeep.mpr (Or.inl ⟨p, (hremaining p).mpr ⟨hp, hname⟩, hbundle⟩), hc'⟩
      · exact ⟨r', mem_blobsToKeep.mpr (Or.inr hdoc), hc'⟩

end

/-! ## A node that has published a release -/

section

open Sample

attribute [local instance] Sample.primitives

/-- The release: three bytes for linux. -/
def nineRelease : Update.Release := ⟨"1.9.0", "linux-x86_64", Blob.refOf [1, 2, 3]⟩

/-- Its JSON, not signed yet. -/
def nineJson : String :=
  "\x7b\"version\":\"1.9.0\",\"platform\":\"linux-x86_64\",\"binary\":\x7b\"hash\":\"" ++
    "000000000000000049961ac86a39e994be01ec4b0380197926d3f00c87e3f810" ++
    "\",\"size\":3,\"chunks\":[\"" ++
    "000000000000000049961ac86a39e994be01ec4b0380197926d3f00c87e3f810" ++
    "\"]\x7d,\"publisher_key\":\"\",\"sig\":\"\"\x7d"

/-- What comes out of the parser: that release of its JSON, and nothing of other texts. -/
def parseNine (text : String) : Option Update.Release :=
  if text = nineJson then some nineRelease else none

/-- Alice offers it. -/
def releaseInit : Action :=
  act alice "release" "init" (.object [("manifest", .string nineJson),
    ("name", .string "rel-1.9.0-linux-x86_64"), ("platform", .string "linux-x86_64"),
    ("publisher_key", .string ""), ("release_version", .string "1.9.0")]) 10
    [("alice", 1)] none

def releasedStore : Inner := (Store.fresh alice.key alice.name []).execAll (deliver [releaseInit])

theorem releasedStore_entry : (releasedStore.entries[docId]?).map (fun e =>
      (e.deleted, e.model.name, e.model.version, liveText e "status", liveText e "manifest")) =
    some (false, "release", "1", some "published", some nineJson) := by
  decide +kernel

/-- The release is offered, and not withdrawn. -/
theorem releasedStore_offers : ReleaseOffer parseNine releasedStore (Blob.refOf [1, 2, 3]) := by
  obtain ⟨e, he, hfacts⟩ := Option.map_eq_some_iff.mp releasedStore_entry
  obtain ⟨hlive, hrest⟩ := Prod.mk.inj hfacts
  obtain ⟨hname, hrest⟩ := Prod.mk.inj hrest
  obtain ⟨hversion, hrest⟩ := Prod.mk.inj hrest
  obtain ⟨hstatus, hmanifest⟩ := Prod.mk.inj hrest
  refine ⟨e, nineRelease, ⟨⟨docId, he⟩, hlive, hname, hversion⟩, ?_, ?_, rfl⟩
  · rw [hstatus]
    decide
  · rw [hmanifest, Option.bind_some, parseNine, if_pos rfl]

/-- A package without an editor, and one whose editor is the same three bytes. -/
def plainPackage : InstalledPackage := ⟨samplePackage [] none, "now"⟩

def sharingPackage : InstalledPackage :=
  ⟨{ samplePackage [] (some (Blob.refOf [1, 2, 3])) with name := "@powerhousedao/vault" }, "now"⟩

def offering (packages : List InstalledPackage) : OfferHost :=
  ⟨releasedStore, .readable ⟨packages⟩, keeping⟩

/-- Every file that is not kept is removed. -/
def removesAll : Blob.GcIo := ⟨.ok (), fun _ => true⟩

/-- Where a package shares its bytes, the release stays. -/
theorem shared_release_kept : ∃ h' freed,
    uninstall (fun _ => none) (offering [plainPackage, sharingPackage]) "@powerhousedao/achra"
        .whole removesAll = (h', .removed "@powerhousedao/achra" freed) ∧
      ∀ r, BundleInstalled h'.installed r ∨ PackageOffer (fun _ => none) h'.store r ∨
        ReleaseOffer parseNine h'.store r →
      ∀ c ∈ r.chunks, keeping.hasChunk c = true → h'.blobs.hasChunk c = true := by
  refine ⟨_, _, rfl, ?_⟩
  refine (uninstall_keeps_offers_iff (fun _ => none) parseNine
    (offering [plainPackage, sharingPackage]) _ "@powerhousedao/achra" .whole removesAll _ _
    rfl).mpr ?_
  rintro r ⟨e, release, -, -, hparse, rfl⟩ c hc - - -
  obtain ⟨text, -, hrelease⟩ := Option.bind_eq_some_iff.mp hparse
  unfold parseNine at hrelease
  split at hrelease
  · obtain rfl := Option.some.inj hrelease
    exact ⟨_, Or.inl ⟨sharingPackage, by simp [offering, InstalledFile.load], by decide, rfl⟩, hc⟩
  · cases hrelease

/-- **The uninstall of a package without any bundle takes the release's bytes.** -/
theorem release_chunks_collected : ∃ h' freed,
    uninstall (fun _ => none) (offering [plainPackage]) "@powerhousedao/achra" .whole
        removesAll = (h', .removed "@powerhousedao/achra" freed) ∧
      ¬ ∀ r, BundleInstalled h'.installed r ∨ PackageOffer (fun _ => none) h'.store r ∨
        ReleaseOffer parseNine h'.store r →
      ∀ c ∈ r.chunks, keeping.hasChunk c = true → h'.blobs.hasChunk c = true := by
  refine ⟨(uninstall (fun _ => none) (offering [plainPackage]) "@powerhousedao/achra" .whole
    removesAll).1, _, rfl, fun hall => ?_⟩
  have hstays := hall _ (Or.inr (Or.inr releasedStore_offers)) (Primitives.sha256 [1, 2, 3])
    (by decide +kernel) (by decide +kernel)
  have hkept := hasChunk_gc keeping (blobsToKeep (fun _ => none) releasedStore
    ((offering [plainPackage]).installed.load.remove "@powerhousedao/achra").1) removesAll
    (Primitives.sha256 [1, 2, 3])
  obtain ⟨r, hroot, -⟩ := (hkept.mp hstays).2 rfl rfl
  -- no package is left, and there is no package document
  rcases mem_blobsToKeep.mp hroot with ⟨p, hp, -⟩ | ⟨-, e, m, -, -, -, hparse, -⟩
  · exact absurd hp List.not_mem_nil
  · obtain ⟨-, -, hnone⟩ := Option.bind_eq_some_iff.mp hparse
    cases hnone

end

end PhReactor.Package
