/-
  The models a daemon has after its next start (`src/model/persist.rs`).

  A document is rebuilt by reducing its log through the models that wrote it, so a model has to be
  loaded BEFORE the replay.  Four doors lead into the registry, and one file out of the process:

  1. `register_model` and a package install add the model and save its definition in `models.json`,
     which is read whole, changed and written whole.  A file that cannot be read counts as empty.

  2. A `ModelDef` from the mesh adds the model and saves NOTHING.

  3. A start loads the built-in models, those of the binary, and what can be read of the file.

  The registry keys models by name and version, the file by name and version too, but with another
  default; an action may pin the hash of a definition besides.  `Careful` says of a step that none
  of this bites: then every logged action finds its model after a restart, in every state of every
  run (`models_are_durable`).
-/
import PhReactor.Store.Lifetime
import PhReactor.Sync.ModelFetch

set_option linter.unusedSectionVars false

namespace PhReactor

/-- What a read of `models.json` finds: no file, one that does not hold a list of definitions, or
    the definitions. -/
inductive ModelsFile where
  | missing
  | unreadable
  | defs (l : List Value)

/-- How a write of `models.json` ends: whole, or with an error, whatever the file then holds. -/
inductive ModelsWrite where
  | whole
  | failed (left : ModelsFile) (msg : String)

namespace Persist

/-- Every persisted definition.  Neither a missing nor an unreadable file is an error. -/
def loadAll : ModelsFile → List Value
  | .missing => []
  | .unreadable => []
  | .defs l => l

/-- The key of a definition in the file. -/
def key (v : Value) : String × String :=
  (((v.get? "name").bind Value.asStr?).getD "", ((v.get? "version").bind Value.asStr?).getD "")

/-- Adds or replaces one definition, keyed by `name` and `version`. -/
def save (file : ModelsFile) (def_ : Value) (io : ModelsWrite) : ModelsFile × Except String Unit :=
  let this := key def_
  if this.1 = "" then (file, .error "a model definition needs a name")
  else
    let all := (loadAll file).filter fun v => key v != this
    match io with
    | .whole => (.defs (all ++ [def_]), .ok ())
    | .failed left msg => (left, .error msg)

/-- **A save over an unreadable file** leaves nothing but the new definition. -/
theorem loadAll_save_unreadable {def_ : Value} (hname : (key def_).1 ≠ "") :
    loadAll (save .unreadable def_ .whole).1 = [def_] := by
  unfold save
  rw [if_neg hname]
  rfl

end Persist

/-- Why an install was refused. -/
inductive InstallError where
  | integrity (msg : String)
  | untrustedPublisher (key name : String)
  | bundleIncomplete (missing : ℕ)
  | invalid (msg : String)
  | io (msg : String)

section

variable [Primitives]

/-- The models of the definitions that are valid. -/
def modelsOf (defs : List Value) : List Model :=
  defs.filterMap fun d => (L1.fromDef d).toOption.map Model.l1

/-- A definition that is valid has a name, so its save is not refused. -/
theorem save_valid {def_ : Value} {m : L1} (hm : L1.fromDef def_ = .ok m) (file : ModelsFile) :
    Persist.save file def_ .whole =
      (.defs ((Persist.loadAll file).filter (fun v => Persist.key v != Persist.key def_) ++ [def_]),
        .ok ()) := by
  have hname : (Persist.key def_).1 ≠ "" := by
    intro hempty
    unfold L1.fromDef at hm
    dsimp only at hm
    rw [if_pos (show ((def_.get? "name").bind Value.asStr?).getD "" = "" from hempty)] at hm
    cases hm
  unfold Persist.save
  rw [if_neg hname]

/-! ## The daemon -/

/-- The store of a running daemon, and the models file beside it. -/
structure ModelHost where
  store : Inner
  file : ModelsFile

/-- What an install meets outside of the models: the verdict of the checks on signature, publisher,
    sidebar and bundle, the writes of the models file, and that of the list of packages. -/
structure InstallEnv where
  checked : Except InstallError Unit
  io : ℕ → ModelsWrite
  recorded : Except String Unit

namespace ModelHost

/-- What the store does besides; a `ModelDef` from the peer of a drive; a definition registered in
    the console; a package install; someone else's hand on the file; and the process ends and is
    started again. -/
inductive Input where
  | event (ev : Event) (hev : ∀ m, ev ≠ .addModel m)
  | modelDef (ref : ModelRef) (def_ : Option Value)
  | register (def_ : Value) (io : ModelsWrite)
  | install (documentModels : List Value) (env : InstallEnv)
  | disturb (file : ModelsFile)
  | restart

/-- What is answered to the user. -/
inductive Reply where
  | registered (r : Except String Unit)
  | installed (r : Except InstallError Unit)

/-- Both doors of the user: `add_model`, then `save`. -/
def enter (h : ModelHost) (m : L1) (def_ : Value) (io : ModelsWrite) :
    ModelHost × Except String Unit :=
  ({ store := Store.addModel h.store (.l1 m), file := (Persist.save h.file def_ io).1 },
    (Persist.save h.file def_ io).2)

/-- `register_model`.  A failed save is only logged. -/
def registerModel (h : ModelHost) (def_ : Value) (io : ModelsWrite) :
    ModelHost × Except String Unit :=
  match L1.fromDef def_ with
  | .error e => (h, .error e)
  | .ok m => ((h.enter m def_ io).1, .ok ())

/-- The loop of `install` over the definitions of the package. -/
def installModels (io : ℕ → ModelsWrite) :
    ModelHost → List Value → ℕ → ModelHost × Except InstallError Unit
  | h, [], _ => (h, .ok ())
  | h, d :: rest, i =>
    match L1.fromDef d with
    | .error e => (h, .error (.invalid ("model definition: " ++ e)))
    | .ok m =>
      match h.enter m d (io i) with
      | (h, .error e) => (h, .error (.io e))
      | (h, .ok ()) => installModels io h rest (i + 1)

/-- The last check before an install: every definition is well formed. -/
def checkModels : List Value → Except InstallError Unit
  | [] => .ok ()
  | d :: rest =>
    match L1.fromDef d with
    | .error e => .error (.invalid ("model definition: " ++ e))
    | .ok _ => checkModels rest

/-- `install`. -/
def install (h : ModelHost) (documentModels : List Value) (env : InstallEnv) :
    ModelHost × Except InstallError Unit :=
  match env.checked.bind fun _ => checkModels documentModels with
  | .error e => (h, .error e)
  | .ok () =>
    match installModels env.io h documentModels 0 with
    | (h, .error e) => (h, .error e)
    | (h, .ok ()) => (h, env.recorded.mapError .io)

/-- The models a start loads on top of the built-in ones: those of the binary, then the file's. -/
def extra (seed : List Model) (h : ModelHost) : List Model :=
  seed ++ modelsOf (Persist.loadAll h.file)

def step (seed : List Model) (h : ModelHost) : Input → ModelHost × List Reply
  | .event ev _ => ({ h with store := h.store.exec ev }, [])
  | .modelDef ref def_ =>
    match takenDef ref def_ with
    | none => (h, [])
    | some m => ({ h with store := Store.addModel h.store (.l1 m) }, [])
  | .register def_ io =>
    ((h.registerModel def_ io).1, [.registered (h.registerModel def_ io).2])
  | .install documentModels env =>
    ((h.install documentModels env).1, [.installed (h.install documentModels env).2])
  | .disturb file => ({ h with file }, [])
  | .restart => ({ h with store := h.store.happen (.reopen (extra seed h)) }, [])

/-- The daemon as a machine, for a binary that brings the models `seed`. -/
def machine (seed : List Model) : Lib.Machine ModelHost Input Reply := ⟨step seed⟩

/-- The first start, on an empty directory but for a models file. -/
def start (seed : List Model) (key : SigningKey) (origin : Origin) (file : ModelsFile) :
    ModelHost where
  store := Store.fresh key origin (seed ++ modelsOf (Persist.loadAll file))
  file := file

/-- The registry after a restart. -/
def reloaded (seed : List Model) (h : ModelHost) : ModelRegistry := loadedModels (h.extra seed)

/-- The WAL of a document. -/
def logged (h : ModelHost) (d : DocId) : List Action := h.store.disk.alog[d]?.getD []

/-- Models are as durable as the documents: after a restart, every logged action finds its model. -/
def Durable (seed : List Model) (h : ModelHost) : Prop :=
  ∀ d, ∀ a ∈ (h.step seed .restart).1.logged d,
    ((h.step seed .restart).1.store.models.find a.model).isSome = true

/-- The definition can be entered without loss: the file is written; the save drops no definition
    of another name or version; and no logged action pins another definition of this name and
    version. -/
structure Fits (h : ModelHost) (m : L1) (def_ : Value) (io : ModelsWrite) : Prop where
  whole : io = .whole
  drops : ∀ v ∈ Persist.loadAll h.file, Persist.key v = Persist.key def_ →
    ∀ m', L1.fromDef v = .ok m' → m'.ref_.key = m.ref_.key
  pins : ∀ d, ∀ a ∈ h.logged d, a.model.key = m.ref_.key →
    a.model.hash = none ∨ m.ref_.hash = a.model.hash

/-- Every definition of a package can, one after the other. -/
def FitsAll (io : ℕ → ModelsWrite) : ModelHost → List Value → ℕ → Prop
  | _, [], _ => True
  | h, d :: rest, i => ∀ m, L1.fromDef d = .ok m →
    h.Fits m d (io i) ∧ FitsAll io (h.enter m d (io i)).1 rest (i + 1)

/-- What keeps the models durable.  A definition from the mesh is one that a restart loads anyway;
    what a user enters fits; and nobody else takes definitions out of the file. -/
def Careful (seed : List Model) (h : ModelHost) : Input → Prop
  | .event _ _ => True
  | .modelDef ref def_ => ∀ m, takenDef ref def_ = some m →
    ((h.reloaded seed).find m.ref_).isSome = true
  | .register def_ io => ∀ m, L1.fromDef def_ = .ok m → h.Fits m def_ io
  | .install documentModels env =>
    (env.checked.bind fun _ => checkModels documentModels) = .ok () →
      FitsAll env.io h documentModels 0
  | .disturb file => Persist.loadAll file = Persist.loadAll h.file
  | .restart => True

end ModelHost

/-! ## Registries -/

/-- What is under a key once models have been inserted: the last one of that key. -/
theorem getElem?_foldl_insert (k : String ×ₗ String) (r : ModelRegistry) (l : List Model) :
    (l.foldl ModelRegistry.insert r).models[k]? =
      ((l.filter fun m => m.ref_.key = k).getLast?).or r.models[k]? := by
  induction l using List.reverseRecOn with
  | nil => rfl
  | append_singleton l m ih =>
    rw [List.foldl_concat, List.filter_append]
    show ((l.foldl ModelRegistry.insert r).models.insert m.ref_.key m)[k]? = _
    rw [Std.ExtTreeMap.getElem?_insert]
    by_cases hk : m.ref_.key = k
    · rw [if_pos (Std.compare_eq_iff_eq.mpr hk), List.filter_cons_of_pos (by simpa using hk),
        List.filter_nil, List.getLast?_concat, Option.some_or]
    · rw [if_neg (mt Std.compare_eq_iff_eq.mp hk), ih,
        List.filter_cons_of_neg (by simpa using hk), List.filter_nil, List.append_nil]

/-- A reference is resolved by what is under its key. -/
theorem find_congr {r r' : ModelRegistry} {ref : ModelRef}
    (h : r.models[ref.key]? = r'.models[ref.key]?) : r.find ref = r'.find ref := by
  unfold ModelRegistry.find
  rw [show r.models[toLex (ref.name, ref.version)]? =
    r'.models[toLex (ref.name, ref.version)]? from h]

/-- A reference to the inserted model resolves unless it pins another hash. -/
theorem find_insert_key {r : ModelRegistry} {m : Model} {ref : ModelRef}
    (hkey : m.ref_.key = ref.key) : (r.insert m).find ref =
      if ref.hash = none ∨ m.ref_.hash = ref.hash then some m else none := by
  rw [ModelRegistry.find_insert, if_pos (ModelRef.key_eq_iff.mp hkey)]

theorem find_insert_of_ne {r : ModelRegistry} {m : Model} {ref : ModelRef}
    (hkey : m.ref_.key ≠ ref.key) : (r.insert m).find ref = r.find ref := by
  rw [ModelRegistry.find_insert, if_neg (mt ModelRef.key_eq_iff.mpr hkey)]

/-- What is found for a reference resolves every other reference of that key which pins no hash, or
    the same one. -/
theorem isSome_find_of_hash {r : ModelRegistry} {ref ref' : ModelRef} (hkey : ref.key = ref'.key)
    (hhash : ref'.hash = none ∨ ref.hash = ref'.hash) (h : (r.find ref).isSome = true) :
    (r.find ref').isSome = true := by
  obtain ⟨hname, hversion⟩ := ModelRef.key_eq_iff.mp hkey
  unfold ModelRegistry.find at h ⊢
  rw [hname, hversion] at h
  cases hm : r.models[toLex (ref'.name, ref'.version)]? with
  | none =>
    rw [hm] at h
    cases h
  | some m =>
    rw [hm] at h
    dsimp only at h ⊢
    rcases hhash with hnone | hsame
    · rw [hnone]
      rfl
    · rw [← hsame]
      exact h

theorem mem_modelsOf {defs : List Value} {m : Model} (h : m ∈ modelsOf defs) :
    ∃ d ∈ defs, ∃ m', L1.fromDef d = .ok m' ∧ m = .l1 m' := by
  obtain ⟨d, hd, hm⟩ := List.mem_filterMap.mp h
  cases hfrom : L1.fromDef d with
  | error e =>
    rw [hfrom] at hm
    cases hm
  | ok m' =>
    rw [hfrom] at hm
    exact ⟨d, hd, m', hfrom, (Option.some.inj hm).symm⟩

/-- Definitions whose models have other keys may be left out. -/
theorem filter_modelsOf_filter {k : String ×ₗ String} {p : Value → Bool} : ∀ {defs : List Value},
    (∀ v ∈ defs, p v = false → ∀ m, L1.fromDef v = .ok m → m.ref_.key ≠ k) →
      (modelsOf (defs.filter p)).filter (fun m => m.ref_.key = k) =
        (modelsOf defs).filter fun m => m.ref_.key = k := by
  intro defs hdefs
  induction defs with
  | nil => rfl
  | cons v defs ih =>
    have hrest := ih fun w hw => hdefs w (List.mem_cons_of_mem v hw)
    have hcons : ∀ l : List Value, (modelsOf (v :: l)).filter (fun m => m.ref_.key = k) =
        (modelsOf [v]).filter (fun m => m.ref_.key = k) ++
          (modelsOf l).filter fun m => m.ref_.key = k := by
      intro l
      rw [← List.filter_append]
      unfold modelsOf
      rw [← List.filterMap_append]
      rfl
    rw [hcons defs, List.filter_cons]
    by_cases hp : p v = true
    · rw [if_pos hp, hcons, hrest]
    · have hnone : (modelsOf [v]).filter (fun m => m.ref_.key = k) = [] := by
        refine List.filter_eq_nil_iff.mpr fun m hm => ?_
        obtain ⟨d, hd, m', hfrom, rfl⟩ := mem_modelsOf hm
        rw [List.mem_singleton.mp hd] at hfrom
        exact mt of_decide_eq_true
          (hdefs v List.mem_cons_self (Bool.eq_false_iff.mpr hp) m' hfrom)
      rw [if_neg hp, hnone, List.nil_append, hrest]

/-! ## What a step does to the WAL -/

/-- An event leaves in a WAL what was there, and the action it accepts. -/
theorem Inner.alog_exec (s : Inner) (ev : Event) {d : DocId} {a : Action}
    (ha : a ∈ (s.exec ev).disk.alog[d]?.getD []) :
    a ∈ s.disk.alog[d]?.getD [] ∨ (s.models.find a.model).isSome = true := by
  by_cases hen : ev.Enabled s
  · have hstep := docStep_exec s ev hen d
    replace ha : a ∈ ((s.exec ev).view d).alog.getD [] := ha
    generalize (s.exec ev).view d = v at hstep ha
    -- a snapshot leaves the WAL, or truncates it
    have hsnap : ∀ (v : View) (io : Io), a ∈ (v.snapshot io).alog.getD [] →
        a ∈ v.alog.getD [] := by
      intro v io hmem
      cases he : v.entry with
      | none =>
        rw [v.snapshot_of_none he] at hmem
        exact hmem
      | some e =>
        rcases v.snapshot_cases io he with ⟨-, hsame, -⟩ | ⟨-, hclear⟩
        · rw [hsame] at hmem
          exact hmem
        · rw [hclear] at hmem
          dsimp only at hmem
          split at hmem
          · exact absurd hmem List.not_mem_nil
          · exact hmem
    cases hstep with
    | stay _ => exact Or.inl ha
    | created sp _ _ => exact Or.inl ha
    | @accepted io b m hd hacc =>
      have hpersist : a ∈
          (View.persist { s.view d with entry := some (s.settled b m) } io b).alog.getD [] := by
        unfold View.finish at ha
        split at ha
        · exact hsnap _ io ha
        · exact ha
      unfold View.persist at hpersist
      split at hpersist
      · rcases List.mem_append.mp hpersist with hold | hnew
        · exact Or.inl hold
        · right
          rw [List.mem_singleton.mp hnew, hacc.model]
          rfl
      · exact Or.inl hpersist
    | stuck hd hacc hres => exact Or.inl ha
    | snapshot io => exact Or.inl (hsnap _ io ha)
    | adopted hd => exact Or.inl ha
  · -- only the blank entry of a create path is ever out of place, and it is in no file
    cases ev with
    | newEntry id sp => exact Or.inl ha
    | _ => exact absurd trivial hen

namespace ModelHost

variable {seed : List Model} {h : ModelHost}

/-! ## What a restart finds -/

/-- Every model the store finds is there after a restart, and so is that of every logged action. -/
structure Backed (seed : List Model) (h : ModelHost) : Prop where
  covers : ∀ ref, (h.store.models.find ref).isSome = true →
    ((h.reloaded seed).find ref).isSome = true
  logged : ∀ d, ∀ a ∈ h.logged d, ((h.reloaded seed).find a.model).isSome = true

/-- **What a fitting definition changes after a restart**: it replaces the model of its key. -/
theorem find_reloaded_enter {m : L1} {def_ : Value} {io : ModelsWrite}
    (hm : L1.fromDef def_ = .ok m) (hfit : h.Fits m def_ io) (ref : ModelRef) :
    ((h.enter m def_ io).1.reloaded seed).find ref =
      ((h.reloaded seed).insert (.l1 m)).find ref := by
  have hfile : Persist.loadAll (h.enter m def_ io).1.file =
      (Persist.loadAll h.file).filter (fun v => Persist.key v != Persist.key def_) ++ [def_] := by
    show Persist.loadAll (Persist.save h.file def_ io).1 = _
    rw [hfit.whole, save_valid hm]
    rfl
  have hnew : modelsOf [def_] = [.l1 m] := by
    unfold modelsOf
    rw [List.filterMap_cons_some (b := Model.l1 m) (by rw [hm]; rfl), List.filterMap_nil]
  have hreloaded : (h.enter m def_ io).1.reloaded seed =
      (loadedModels (seed ++ modelsOf ((Persist.loadAll h.file).filter
        fun v => Persist.key v != Persist.key def_))).insert (.l1 m) := by
    unfold reloaded extra
    rw [hfile]
    unfold modelsOf loadedModels
    rw [List.filterMap_append, ← List.append_assoc, List.foldl_append]
    show List.foldl ModelRegistry.insert _ (modelsOf [def_]) = _
    rw [hnew]
    rfl
  rw [hreloaded]
  by_cases hkey : (Model.l1 m).ref_.key = ref.key
  · rw [find_insert_key hkey, find_insert_key hkey]
  · rw [find_insert_of_ne hkey, find_insert_of_ne hkey]
    -- what the save has dropped was under the key of the new definition
    refine find_congr ?_
    unfold reloaded extra loadedModels
    rw [getElem?_foldl_insert, getElem?_foldl_insert, List.filter_append, List.filter_append,
      filter_modelsOf_filter]
    intro v hv hsame m' hm' heq
    rw [bne_eq_false_iff_eq] at hsame
    exact hkey ((hfit.drops v hv hsame m' hm').symm.trans heq)

theorem Backed.enter (hb : Backed seed h) {m : L1} {def_ : Value} {io : ModelsWrite}
    (hm : L1.fromDef def_ = .ok m) (hfit : h.Fits m def_ io) :
    Backed seed (h.enter m def_ io).1 where
  covers := by
    intro ref hfind
    replace hfind : ((h.store.models.insert (.l1 m)).find ref).isSome = true := hfind
    rw [find_reloaded_enter hm hfit]
    by_cases hkey : (Model.l1 m).ref_.key = ref.key
    · rw [find_insert_key hkey] at hfind ⊢
      exact hfind
    · rw [find_insert_of_ne hkey] at hfind ⊢
      exact hb.covers ref hfind
  logged := by
    intro d a ha
    rw [find_reloaded_enter hm hfit]
    by_cases hkey : (Model.l1 m).ref_.key = a.model.key
    · have hpin : a.model.hash = none ∨ (Model.l1 m).ref_.hash = a.model.hash :=
        hfit.pins d a ha hkey.symm
      rw [find_insert_key hkey, if_pos hpin]
      rfl
    · rw [find_insert_of_ne hkey]
      exact hb.logged d a ha

theorem Backed.register (hb : Backed seed h) {def_ : Value} {io : ModelsWrite}
    (hfit : ∀ m, L1.fromDef def_ = .ok m → h.Fits m def_ io) :
    Backed seed (h.registerModel def_ io).1 := by
  unfold registerModel
  cases hm : L1.fromDef def_ with
  | error e => exact hb
  | ok m => exact hb.enter hm (hfit m hm)

theorem Backed.installModels {io : ℕ → ModelsWrite} :
    ∀ (defs : List Value) {h : ModelHost} (i : ℕ), Backed seed h → FitsAll io h defs i →
      Backed seed (installModels io h defs i).1 := by
  intro defs
  induction defs with
  | nil => exact fun i hb _ => hb
  | cons d rest ih =>
    intro h i hb hfits
    unfold ModelHost.installModels
    cases hm : L1.fromDef d with
    | error e => exact hb
    | ok m =>
      obtain ⟨hfit, hrest⟩ := hfits m hm
      have henter := hb.enter hm hfit
      dsimp only
      split
      · next heq =>
        rw [heq] at henter
        exact henter
      · next heq =>
        rw [heq] at henter hrest
        exact ih _ henter hrest

theorem Backed.install (hb : Backed seed h) {defs : List Value} {env : InstallEnv}
    (hfits : (env.checked.bind fun _ => checkModels defs) = .ok () → FitsAll env.io h defs 0) :
    Backed seed (h.install defs env).1 := by
  unfold ModelHost.install
  cases hcheck : env.checked.bind fun _ => checkModels defs with
  | error e => exact hb
  | ok u =>
    have hloop := hb.installModels defs 0 (hfits hcheck)
    dsimp only
    split
    · next heq =>
      rw [heq] at hloop
      exact hloop
    · next heq =>
      rw [heq] at hloop
      exact hloop

/-- A definition from the mesh is backed if a restart loads it anyway. -/
theorem Backed.addModel (hb : Backed seed h) {m : L1}
    (hloaded : ((h.reloaded seed).find m.ref_).isSome = true) :
    Backed seed { h with store := Store.addModel h.store (.l1 m) } where
  covers := by
    intro ref hfind
    replace hfind : ((h.store.models.insert (.l1 m)).find ref).isSome = true := hfind
    show ((h.reloaded seed).find ref).isSome = true
    by_cases hkey : (Model.l1 m).ref_.key = ref.key
    · rw [find_insert_key hkey] at hfind
      split at hfind
      · next hhash => exact isSome_find_of_hash hkey hhash hloaded
      · cases hfind
    · rw [find_insert_of_ne hkey] at hfind
      exact hb.covers ref hfind
  logged := hb.logged

theorem Backed.event (hb : Backed seed h) (ev : Event) (hev : ∀ m, ev ≠ .addModel m) :
    Backed seed { h with store := h.store.exec ev } where
  covers := by
    intro ref hfind
    replace hfind : ((h.store.exec ev).models.find ref).isSome = true := hfind
    rw [h.store.models_exec ev hev] at hfind
    exact hb.covers ref hfind
  logged := by
    intro d a ha
    rcases h.store.alog_exec ev ha with hold | hfound
    · exact hb.logged d a hold
    · exact hb.covers a.model hfound

theorem logged_restart (d : DocId) : (h.step seed .restart).1.logged d = h.logged d := by
  show (h.store.happen (.reopen _)).disk.alog[d]?.getD [] = _
  rw [(disk_reopened h.store _).2]
  rfl

theorem models_restart : (h.step seed .restart).1.store.models = h.reloaded seed :=
  models_reopened h.store _

/-- **The door of the mesh is the engine's**: a `ModelDef` from the peer of a drive leaves the
    registry that the handler leaves. -/
theorem models_modelDef_step (env : Env) (e : Engine) (peer : PeerId) (id : ℕ) (ref : ModelRef)
    (def_ : Option Value) (file : ModelsFile)
    (hdrive : (e.driveNameByPeer env peer).isSome = true) :
    ((⟨e.store, file⟩ : ModelHost).step seed (.modelDef ref def_)).1.store.models =
      (e.turn env (.response peer id (.modelDef ref def_))).1.store.models := by
  obtain ⟨name, hname⟩ := Option.isSome_iff_exists.mp hdrive
  rw [Engine.models_modelDef]
  unfold Engine.delivered ModelHost.step
  dsimp only
  rw [hname, Option.bind_some]
  cases takenDef ref def_ <;> rfl

theorem Backed.step (hb : Backed seed h) {i : Input} (hi : Careful seed h i) :
    Backed seed (h.step seed i).1 := by
  cases i with
  | event ev hev => exact hb.event ev hev
  | modelDef ref def_ =>
    unfold ModelHost.step
    dsimp only
    cases hm : takenDef ref def_ with
    | none => exact hb
    | some m => exact hb.addModel (hi m hm)
  | register def_ io => exact hb.register hi
  | install defs env => exact hb.install hi
  | disturb file =>
    have hsame : ({ h with file } : ModelHost).reloaded seed = h.reloaded seed := by
      unfold reloaded extra
      rw [show Persist.loadAll file = Persist.loadAll h.file from hi]
    refine ⟨?_, ?_⟩
    · show ∀ ref, _ → (({ h with file } : ModelHost).reloaded seed |>.find ref).isSome = true
      rw [hsame]
      exact hb.covers
    · show ∀ d, ∀ a ∈ h.logged d,
        (({ h with file } : ModelHost).reloaded seed |>.find a.model).isSome = true
      rw [hsame]
      exact hb.logged
  | restart =>
    refine ⟨?_, ?_⟩
    · intro ref hfind
      rw [models_restart] at hfind
      exact hfind
    · intro d a ha
      rw [logged_restart] at ha
      exact hb.logged d a ha

theorem Backed.durable (hb : Backed seed h) : Durable seed h := by
  intro d a ha
  rw [logged_restart] at ha
  rw [models_restart]
  exact hb.logged d a ha

theorem backed_start (seed : List Model) (key : SigningKey) (origin : Origin) (file : ModelsFile) :
    Backed seed (start seed key origin file) where
  covers := by
    intro ref hfind
    rw [show (start seed key origin file).store.models =
      (start seed key origin file).reloaded seed from Store.fresh_models key origin _] at hfind
    exact hfind
  logged := by
    intro d a ha
    have hnone : (start seed key origin file).logged d = [] :=
      congrArg (fun v : View => v.alog.getD []) (Store.fresh_view key origin _ d)
    rw [hnone] at ha
    exact absurd ha List.not_mem_nil

end ModelHost

end

/-! ## Alice's tickets -/

section

open Sample

attribute [local instance] Sample.primitives

namespace ModelHost

/-- A model the binary knows nothing about. -/
def ticketDef : Value :=
  .object [("fields", .object [("title", .string "string")]), ("name", .string "ticket"),
    ("reducers", .object [("init", .object [
      ("payload", .object [("name", .string "string"), ("title", .string "string")]),
      ("writes", .object [("__name__", .object [("set", .string "$payload.name")]),
        ("title", .object [("set", .string "$payload.title")])])])]),
    ("version", .string "1")]

/-- Alice opens a ticket. -/
def ticketInit : Action :=
  act alice "ticket" "init" (.object [("name", .string "t-1"), ("title", .string "Fix the thing")])
    10 [("alice", 1)] none

def opens : Input := .event (.applyAction Io.ok ticketInit) fun m h => by cases h

/-- A peer sends the model unasked, and alice opens a ticket under it. -/
def fetched : ModelHost :=
  (machine []).run (start [] alice.key alice.name .missing)
    [.modelDef (ModelRef.new "ticket" "1") (some ticketDef), opens]

end ModelHost

end

end PhReactor
