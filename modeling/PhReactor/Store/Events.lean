/-
  The runs of a store.

  Everything that happens to a store happens under its lock, one primitive at a time: an
  `applyAction`, a blank entry inserted by one of the create paths, a timestamp drawn, a snapshot,
  an adoption, a key or a model registered.  These are the `Event`s, and `Inner.exec` is what one
  of them does.

  1. **Every public operation is a sequence of events** (`Call.exec_eq`): the operations of
     `Store/Api.lean` are lists of events computed from the state they start in.  So whatever holds
     along every run of events holds along every run of calls.

  2. **What an event can do to a document** (`docStep_exec`): nothing, create a blank entry, settle
     an accepted action, snapshot, adopt — or leave an accepted action unfolded when a model of its
     log is gone.  Every invariant of a document is an induction over these cases.

  A restart is not an event: it starts a new run, on the files the old one left.
-/
import Mathlib.Logic.Relation
import PhReactor.Store.Apply

set_option linter.unusedSectionVars false

namespace PhReactor

variable [Primitives]

/-- One primitive under the store's lock. -/
inductive Event where
  | applyAction (io : Io) (a : Action)
  /-- A create path's blank entry, already carrying the space. -/
  | newEntry (id : DocId) (space : Option DocId)
  | nextTs (now : U64)
  /-- The last line of `create_doc`. -/
  | bindName (name : String) (id : DocId)
  | snapshot (io : Io) (id : DocId)
  | adoptState (st : DocState)
  | registerPeerKey (origin : Origin) (key : PublicKey)
  | addModel (m : Model)
  | subscribeChanges
  | drainOutbound
  | connectOutbound

/-- What an event does. -/
def Inner.exec (s : Inner) : Event → Inner
  | .applyAction io a => (s.applyAction io a).1
  | .newEntry id space => s.putEntry id { Entry.new id with space := space }
  | .nextTs now => (s.nextTs now).1
  | .bindName name id => { s with names := s.names.insert name id }
  | .snapshot io id => (s.snapshot io id).1
  | .adoptState st => Store.adoptState s st
  | .registerPeerKey origin key => (Store.registerPeerKey s origin key).1
  | .addModel m => Store.addModel s m
  | .subscribeChanges => Store.subscribeChanges s
  | .drainOutbound => (Store.drainOutbound s).1
  | .connectOutbound => Store.connectOutbound s

/-- A blank entry is only ever inserted under an id the store does not know: `create_space_at`
    checks it, and the other create paths draw a fresh UUID. -/
def Event.Enabled (s : Inner) : Event → Prop
  | .newEntry id _ => s.entries[id]? = none
  | _ => True

/-! ## Public operations as events -/

/-- A public operation of the store that may change it. -/
inductive Call where
  | createDoc (io : Io) (now : ℕ → U64) (id : DocId) (name : String)
      (fields : Std.ExtTreeMap String Value)
  | createDocInSpace (io : Io) (now : U64) (id : DocId) (name : String) (model : ModelRef)
      (payload : Value) (space : Option DocId)
  | createSpaceAt (io : Io) (now : U64) (id : DocId) (name : String) (payload : Value)
  | updateField (io : Io) (now : U64) (name field : String) (value : Value)
  | deleteField (io : Io) (now : U64) (name field : String)
  | deleteDoc (io : Io) (now : U64) (name : String)
  | applyLocalAction (io : Io) (now : U64) (name : String) (model : ModelRef) (kind : String)
      (payload : Value)
  | buildLocalAction (now : U64) (name : String) (model : ModelRef) (kind : String)
      (payload : Value)
  | applySignedAction (io : Io) (a : Action)
  | applyRemoteAction (io : Io) (a : Action)
  | snapshot (io : Io) (id : DocId)
  | adoptState (st : DocState)
  | registerPeerKey (origin : Origin) (key : PublicKey)
  | addModel (m : Model)
  | subscribeChanges
  | drainOutbound
  | connectOutbound

/-- What a public operation does. -/
def Call.exec (s : Inner) : Call → Inner
  | .createDoc io now id name fields => (Store.createDoc s io now id name fields).1
  | .createDocInSpace io now id name model payload space =>
    (Store.createDocInSpace s io now id name model payload space).1
  | .createSpaceAt io now id name payload => (Store.createSpaceAt s io now id name payload).1
  | .updateField io now name field value => (Store.updateField s io now name field value).1
  | .deleteField io now name field => (Store.deleteField s io now name field).1
  | .deleteDoc io now name => (Store.deleteDoc s io now name).1
  | .applyLocalAction io now name model kind payload =>
    (Store.applyLocalAction s io now name model kind payload).1
  | .buildLocalAction now name model kind payload =>
    (Store.buildLocalAction s now name model kind payload).1
  | .applySignedAction io a => (Store.applySignedAction s io a).1
  | .applyRemoteAction io a => (Store.applyRemoteAction s io a).1
  | .snapshot io id => (s.snapshot io id).1
  | .adoptState st => Store.adoptState s st
  | .registerPeerKey origin key => (Store.registerPeerKey s origin key).1
  | .addModel m => Store.addModel s m
  | .subscribeChanges => Store.subscribeChanges s
  | .drainOutbound => (Store.drainOutbound s).1
  | .connectOutbound => Store.connectOutbound s

/-- Events in order. -/
def Inner.execAll (s : Inner) (evs : List Event) : Inner := evs.foldl Inner.exec s

theorem Inner.execAll_append (s : Inner) (l₁ l₂ : List Event) :
    s.execAll (l₁ ++ l₂) = (s.execAll l₁).execAll l₂ := List.foldl_append

/-- The events of building a local action and applying it. -/
def buildAndApplyEvents (s : Inner) (io : Io) (now : U64) (id : DocId) (model : ModelRef)
    (kind : String) (payload : Value) : List Event :=
  .nextTs now ::
    match (s.buildAction now id model kind payload).2 with
    | .ok a => [.applyAction io a]
    | .error _ => []

theorem buildAction_fst (s : Inner) (now : U64) (id : DocId) (model : ModelRef) (kind : String)
    (payload : Value) : (s.buildAction now id model kind payload).1 = (s.nextTs now).1 := by
  unfold Inner.buildAction
  dsimp only
  split <;> rfl

theorem buildAndApply_fst (s : Inner) (io : Io) (now : U64) (id : DocId) (model : ModelRef)
    (kind : String) (payload : Value) :
    (Store.buildAndApply s io now id model kind payload).1 =
      s.execAll (buildAndApplyEvents s io now id model kind payload) := by
  have hfst := buildAction_fst s now id model kind payload
  unfold Store.buildAndApply buildAndApplyEvents
  cases hb : s.buildAction now id model kind payload with
  | mk t r =>
    rw [hb] at hfst
    obtain rfl : t = (s.nextTs now).1 := hfst
    cases r with
    | error e => rfl
    | ok a =>
      dsimp only
      show _ = ((s.nextTs now).1.applyAction io a).1
      cases (s.nextTs now).1.applyAction io a with
      | mk u r => cases r <;> rfl

/-- The events of `create_doc`'s loop. -/
def setFieldsEvents (io : Io) (now : ℕ → U64) (id : DocId) (s : Inner) :
    List (String × Value) → ℕ → List Event
  | [], _ => []
  | (field, value) :: rest, i =>
    buildAndApplyEvents s io (now i) id openRef "set" (Store.setPayload field value) ++
      match Store.buildAndApply s io (now i) id openRef "set" (Store.setPayload field value) with
      | (_, .error _) => []
      | (s, .ok _) => setFieldsEvents io now id s rest (i + 1)

theorem setFields_fst (io : Io) (now : ℕ → U64) (id : DocId) :
    ∀ (fields : List (String × Value)) (s : Inner) (i : ℕ),
      (Store.setFields io now id s fields i).1 = s.execAll (setFieldsEvents io now id s fields i)
  | [], _, _ => rfl
  | (field, value) :: rest, s, i => by
    have hfst := buildAndApply_fst s io (now i) id openRef "set" (Store.setPayload field value)
    unfold Store.setFields setFieldsEvents
    rw [Inner.execAll_append, ← hfst]
    cases Store.buildAndApply s io (now i) id openRef "set" (Store.setPayload field value) with
    | mk t r =>
      cases r with
      | error e => rfl
      | ok a => exact setFields_fst io now id rest t (i + 1)

/-- The events of the create paths: a blank entry, then the first local action. -/
def createEvents (s : Inner) (io : Io) (now : U64) (id : DocId) (space : Option DocId)
    (model : ModelRef) (kind : String) (payload : Value) : List Event :=
  .newEntry id space ::
    buildAndApplyEvents (s.putEntry id { Entry.new id with space := space }) io now id model kind
      payload

/-- Is the name valid and free. -/
def nameFree (s : Inner) (name : String) : Bool :=
  (Store.validateName name).isOk && !s.names.contains name

theorem nameFree_iff {s : Inner} {name : String} : nameFree s name = true ↔
    Store.validateName name = .ok () ∧ s.names.contains name = false := by
  unfold nameFree
  cases h : Store.validateName name <;> simp [Except.isOk, Except.toBool]

theorem names_contains_of_not_nameFree {s : Inner} {name : String} (h : ¬ nameFree s name = true)
    (hval : Store.validateName name = .ok ()) : s.names.contains name = true := by
  by_contra hn
  exact h (nameFree_iff.mpr ⟨hval, Bool.eq_false_iff.mpr hn⟩)

/-- The events of `createDoc`. -/
def createDocEvents (s : Inner) (io : Io) (now : ℕ → U64) (id : DocId) (name : String)
    (fields : Std.ExtTreeMap String Value) : List Event :=
  if nameFree s name then
    createEvents s io (now 0) id none openRef "create" (Store.setPayload nameKey (.string name)) ++
      match Store.buildAndApply (s.putEntry id (Entry.new id)) io (now 0) id openRef "create"
          (Store.setPayload nameKey (.string name)) with
      | (_, .error _) => []
      | (s, .ok _) =>
        setFieldsEvents io now id s fields.toList 1 ++
          match (Store.setFields io now id s fields.toList 1).2 with
          | .error _ => []
          | .ok () => [.bindName name id]
  else []

theorem createDoc_fst (s : Inner) (io : Io) (now : ℕ → U64) (id : DocId) (name : String)
    (fields : Std.ExtTreeMap String Value) :
    (Store.createDoc s io now id name fields).1 =
      s.execAll (createDocEvents s io now id name fields) := by
  unfold Store.createDoc createDocEvents
  by_cases hfree : nameFree s name = true
  · -- the first action decides whether the loop over the fields runs at all
    obtain ⟨hval, hname⟩ := nameFree_iff.mp hfree
    have hfirst : s.execAll (createEvents s io (now 0) id none openRef "create"
        (Store.setPayload nameKey (.string name))) =
        (Store.buildAndApply (s.putEntry id (Entry.new id)) io (now 0) id openRef "create"
          (Store.setPayload nameKey (.string name))).1 := (buildAndApply_fst ..).symm
    rw [hval, if_pos hfree, Inner.execAll_append, hfirst]
    dsimp only
    rw [hname, if_neg Bool.false_ne_true]
    show (match Store.buildAndApply (s.putEntry id (Entry.new id)) io (now 0) id openRef "create"
          (Store.setPayload nameKey (.string name)) with
        | (s, .error e) => _
        | (s, .ok _) => _ : Inner × Except String DocId).1 = _
    cases Store.buildAndApply (s.putEntry id (Entry.new id)) io (now 0) id openRef "create"
        (Store.setPayload nameKey (.string name)) with
    | mk t r =>
      cases r with
      | error e => rfl
      | ok a =>
        dsimp only
        rw [Inner.execAll_append, ← setFields_fst io now id fields.toList t 1]
        cases Store.setFields io now id t fields.toList 1 with
        | mk u r => cases r <;> rfl
  · rw [if_neg hfree]
    cases hval : Store.validateName name with
    | error e => rfl
    | ok u =>
      have hname := names_contains_of_not_nameFree hfree hval
      simp only [hname, if_true]
      rfl

/-- The events of `createDocInSpace`. -/
def createDocInSpaceEvents (s : Inner) (io : Io) (now : U64) (id : DocId) (name : String)
    (model : ModelRef) (payload : Value) (space : Option DocId) : List Event :=
  if nameFree s name then createEvents s io now id space model "init" payload else []

theorem createDocInSpace_fst (s : Inner) (io : Io) (now : U64) (id : DocId) (name : String)
    (model : ModelRef) (payload : Value) (space : Option DocId) :
    (Store.createDocInSpace s io now id name model payload space).1 =
      s.execAll (createDocInSpaceEvents s io now id name model payload space) := by
  unfold Store.createDocInSpace createDocInSpaceEvents
  by_cases hfree : nameFree s name = true
  · obtain ⟨hval, hname⟩ := nameFree_iff.mp hfree
    have hfirst : s.execAll (createEvents s io now id space model "init" payload) =
        (Store.buildAndApply (s.putEntry id { Entry.new id with space := space }) io now id model
          "init" payload).1 := (buildAndApply_fst ..).symm
    rw [hval, if_pos hfree, hfirst]
    dsimp only
    rw [hname, if_neg Bool.false_ne_true]
    show (match Store.buildAndApply (s.putEntry id { Entry.new id with space := space }) io now id
          model "init" payload with
        | (s, .error e) => _
        | (s, .ok _) => _ : Inner × Except String DocId).1 = _
    cases Store.buildAndApply (s.putEntry id { Entry.new id with space := space }) io now id model
        "init" payload with
    | mk t r => cases r <;> rfl
  · rw [if_neg hfree]
    cases hval : Store.validateName name with
    | error e => rfl
    | ok u =>
      have hname := names_contains_of_not_nameFree hfree hval
      simp only [hname, if_true]
      rfl

/-- `createSpaceAt` is `createDocInSpace` in the space itself, when the id is free. -/
theorem createSpaceAt_fst (s : Inner) (io : Io) (now : U64) (id : DocId) (name : String)
    (payload : Value) : (Store.createSpaceAt s io now id name payload).1 =
      if s.entries.contains id then s
      else (Store.createDocInSpace s io now id name (ModelRef.new "space" "1") payload
        (some id)).1 := by
  unfold Store.createSpaceAt Store.createDocInSpace
  cases Store.validateName name with
  | error e => cases s.entries.contains id <;> rfl
  | ok u =>
    dsimp only
    cases s.names.contains name <;> cases s.entries.contains id <;> rfl

/-- The events of an operation on the document of that name. -/
def onNamedEvents (s : Inner) (io : Io) (now : U64) (name : String) (model : ModelRef)
    (kind : String) (payload : Value) : List Event :=
  match s.names[name]? with
  | none => []
  | some id => buildAndApplyEvents s io now id model kind payload

theorem onNamed_fst (s : Inner) (io : Io) (now : U64) (missing name : String) (model : ModelRef)
    (kind : String) (payload : Value) :
    (Store.onNamed s io now missing name model kind payload).1 =
      s.execAll (onNamedEvents s io now name model kind payload) := by
  unfold Store.onNamed onNamedEvents
  cases s.names[name]? with
  | none => rfl
  | some id => exact buildAndApply_fst s io now id model kind payload

/-- The events of a public operation, from the state it starts in. -/
def Call.events (s : Inner) : Call → List Event
  | .createDoc io now id name fields => createDocEvents s io now id name fields
  | .createDocInSpace io now id name model payload space =>
    createDocInSpaceEvents s io now id name model payload space
  | .createSpaceAt io now id name payload =>
    if s.entries.contains id then []
    else createDocInSpaceEvents s io now id name (ModelRef.new "space" "1") payload (some id)
  | .updateField io now name field value =>
    onNamedEvents s io now name openRef "set" (Store.setPayload field value)
  | .deleteField io now name field =>
    onNamedEvents s io now name openRef "delete" (.object [("field", .string field)])
  | .deleteDoc io now name => onNamedEvents s io now name openRef "delete" (.object [])
  | .applyLocalAction io now name model kind payload =>
    onNamedEvents s io now name model kind payload
  | .buildLocalAction now name _ _ _ =>
    match s.names[name]? with
    | none => []
    | some _ => [.nextTs now]
  | .applySignedAction io a => [.applyAction io a]
  | .applyRemoteAction io a => [.applyAction io a]
  | .snapshot io id => [.snapshot io id]
  | .adoptState st => [.adoptState st]
  | .registerPeerKey origin key => [.registerPeerKey origin key]
  | .addModel m => [.addModel m]
  | .subscribeChanges => [.subscribeChanges]
  | .drainOutbound => [.drainOutbound]
  | .connectOutbound => [.connectOutbound]

/-- **Every public operation is a sequence of events.** -/
theorem Call.exec_eq (s : Inner) (c : Call) : c.exec s = s.execAll (c.events s) := by
  cases c with
  | createDoc io now id name fields => exact createDoc_fst ..
  | createDocInSpace io now id name model payload space => exact createDocInSpace_fst ..
  | createSpaceAt io now id name payload =>
    show (Store.createSpaceAt s io now id name payload).1 = _
    rw [createSpaceAt_fst]
    show _ = s.execAll (if s.entries.contains id then [] else _)
    split
    · rfl
    · exact createDocInSpace_fst ..
  | updateField io now name field value => exact onNamed_fst ..
  | deleteField io now name field => exact onNamed_fst ..
  | deleteDoc io now name => exact onNamed_fst ..
  | applyLocalAction io now name model kind payload => exact onNamed_fst ..
  | buildLocalAction now name model kind payload =>
    show (Store.buildLocalAction s now name model kind payload).1 = _
    show _ = s.execAll (match s.names[name]? with
      | none => []
      | some _ => [.nextTs now])
    unfold Store.buildLocalAction
    cases s.names[name]? with
    | none => rfl
    | some id => exact buildAction_fst s now id model kind payload
  | applySignedAction io a => rfl
  | applyRemoteAction io a => rfl
  | snapshot io id => rfl
  | adoptState st => rfl
  | registerPeerKey origin key => rfl
  | addModel m => rfl
  | subscribeChanges => rfl
  | drainOutbound => rfl
  | connectOutbound => rfl

/-! ## Runs -/

/-- One event that is enabled and meets the condition `P`. -/
def Inner.Step (P : Inner → Event → Prop) (s t : Inner) : Prop :=
  ∃ ev : Event, ev.Enabled s ∧ P s ev ∧ t = s.exec ev

/-- A run: events one after the other, each enabled and meeting `P`. -/
def Inner.Run (P : Inner → Event → Prop) : Inner → Inner → Prop :=
  Relation.ReflTransGen (Inner.Step P)

/-- **Invariants of runs.**  What holds at the start and is kept by every event that meets `P`
    holds in every state of the run. -/
theorem Inner.Run.induct {P : Inner → Event → Prop} {I : Inner → Prop} {s t : Inner}
    (h : Inner.Run P s t) (hs : I s)
    (step : ∀ (s : Inner) (ev : Event), ev.Enabled s → P s ev → I s → I (s.exec ev)) : I t := by
  induction h with
  | refl => exact hs
  | tail _ hstep ih =>
    obtain ⟨ev, hen, hP, rfl⟩ := hstep
    exact step _ ev hen hP ih

/-- **What an event does to identity, keys and models**: nothing, but for a peer's first key and a
    loaded model. -/
theorem Inner.setup_exec (s : Inner) (ev : Event) :
    s.SameSetup (s.exec ev) ∨
    (∃ o k, ev = .registerPeerKey o k ∧ s.knownKeys[o]? = none ∧
      s.exec ev = { s with knownKeys := s.knownKeys.insert o k }) ∨
    ∃ m, ev = .addModel m ∧ s.exec ev = { s with models := s.models.insert m } := by
  cases ev with
  | applyAction io a => exact Or.inl (s.sameSetup_applyAction io a)
  | snapshot io id => exact Or.inl (s.sameSetup_snapshot io id)
  | adoptState st =>
    left
    show s.SameSetup (Inner.emitChange _ _ _ _)
    unfold Inner.emitChange
    split <;> exact ⟨rfl, rfl, rfl, rfl⟩
  | registerPeerKey o k =>
    show s.SameSetup (Store.registerPeerKey s o k).1 ∨ _
    cases hk : s.knownKeys[o]? with
    | some pinned =>
      left
      unfold Store.registerPeerKey
      rw [hk]
      dsimp only
      split <;> exact ⟨rfl, rfl, rfl, rfl⟩
    | none =>
      refine Or.inr (Or.inl ⟨o, k, rfl, hk, ?_⟩)
      show (Store.registerPeerKey s o k).1 = _
      unfold Store.registerPeerKey
      rw [hk]
  | addModel m => exact Or.inr (Or.inr ⟨m, rfl, rfl⟩)
  | _ => exact Or.inl ⟨rfl, rfl, rfl, rfl⟩

/-- A key the store has stays; keys are only added. -/
theorem Inner.knownKeys_exec (s : Inner) (ev : Event) (o : Origin) {k : PublicKey}
    (h : s.knownKeys[o]? = some k) : (s.exec ev).knownKeys[o]? = some k := by
  rcases s.setup_exec ev with hsame | ⟨o', k', -, hnew, heq⟩ | ⟨m, -, heq⟩
  · rw [hsame.knownKeys]
    exact h
  · have hne : o' ≠ o := by
      rintro rfl
      rw [hnew] at h
      cases h
    rw [heq]
    simp [Std.ExtTreeMap.getElem?_insert, hne, h]
  · rw [heq]
    exact h

/-- Only `addModel` changes the registry. -/
theorem Inner.models_exec (s : Inner) (ev : Event) (h : ∀ m, ev ≠ .addModel m) :
    (s.exec ev).models = s.models := by
  rcases s.setup_exec ev with hsame | ⟨o, k, -, -, heq⟩ | ⟨m, hm, -⟩
  · exact hsame.models
  · rw [heq]
  · exact absurd hm (h m)

/-- What a reference resolves to changes by a loaded model only. -/
theorem Inner.find_exec (s : Inner) (ev : Event) (ref : ModelRef)
    (h : ∀ m, ev = .addModel m → (s.models.insert m).find ref = s.models.find ref) :
    (s.exec ev).models.find ref = s.models.find ref := by
  by_cases hadd : ∃ m, ev = .addModel m
  · obtain ⟨m, rfl⟩ := hadd
    exact h m rfl
  · rw [s.models_exec ev fun m hm => hadd ⟨m, hm⟩]

/-- The identity of a store stays. -/
theorem Inner.identity_exec (s : Inner) (ev : Event) :
    (s.exec ev).key = s.key ∧ (s.exec ev).origin = s.origin := by
  rcases s.setup_exec ev with hsame | ⟨o, k, -, -, heq⟩ | ⟨m, -, heq⟩
  · exact ⟨hsame.key, hsame.origin⟩
  · rw [heq]
    exact ⟨rfl, rfl⟩
  · rw [heq]
    exact ⟨rfl, rfl⟩

theorem Inner.origin_exec (s : Inner) (ev : Event) : (s.exec ev).origin = s.origin :=
  (s.identity_exec ev).2

/-! ## The store a run starts from -/

/-- A store opened on an empty directory. -/
def Store.fresh (key : SigningKey) (origin : Origin) (extra : List Model) : Inner :=
  Store.openWithModels Store.emptyDisk key origin extra

theorem Store.fresh_view (key : SigningKey) (origin : Origin) (extra : List Model) (d : DocId) :
    (Store.fresh key origin extra).view d = ⟨none, none, none⟩ := by
  have hkeys : (∅ : Std.ExtTreeMap DocId (List Action)).keys = [] := rfl
  simp [Store.fresh, Store.openWithModels, Inner.replay, Store.emptyDisk, Inner.view, hkeys]

theorem Store.fresh_models (key : SigningKey) (origin : Origin) (extra : List Model) :
    (Store.fresh key origin extra).models =
      extra.foldl ModelRegistry.insert ModelRegistry.seededWithBuiltins := by
  have hkeys : (∅ : Std.ExtTreeMap DocId (List Action)).keys = [] := rfl
  simp [Store.fresh, Store.openWithModels, Inner.replay, Store.emptyDisk, hkeys]

theorem Store.fresh_origin (key : SigningKey) (origin : Origin) (extra : List Model) :
    (Store.fresh key origin extra).origin = origin := by
  have hkeys : (∅ : Std.ExtTreeMap DocId (List Action)).keys = [] := rfl
  simp [Store.fresh, Store.openWithModels, Inner.replay, Store.emptyDisk, hkeys]

/-! ## What an event does to one document -/

/-- The entry after adopting `st`. -/
def adopted (e : Entry) (st : DocState) : Entry :=
  { e with
    doc := liftName st.doc
    clock := st.clock
    deleted := st.deleted
    model := st.model
    log := [] }

/-- The possible effects of an event on the view of `d`. -/
inductive DocStep (s : Inner) (d : DocId) : Event → View → Prop
  /-- Nothing; and no action for `d` was accepted. -/
  | stay {ev : Event} (h : ∀ io a, ev = .applyAction io a → a.docId = d → ∀ m, ¬ s.Accepted a m) :
    DocStep s d ev (s.view d)
  /-- A blank entry: a create path, or an action whose precondition fails on an unknown document. -/
  | created {ev : Event} (sp : Option DocId) (hnew : s.entries[d]? = none)
    (h : ∀ io a, ev = .applyAction io a → sp = none ∧ ∀ m, ¬ s.Accepted a m) :
    DocStep s d ev { s.view d with entry := some { Entry.new d with space := sp } }
  /-- An action of `d` was accepted and folded in. -/
  | accepted {io : Io} {a : Action} {m : Model} (hd : a.docId = d) (h : s.Accepted a m) :
    DocStep s d (.applyAction io a)
      (View.finish { s.view d with entry := some (s.settled a m) } io a)
  /-- An action of `d` was accepted, but the re-fold missed a model of the log. -/
  | stuck {io : Io} {a : Action} {m : Model} (hd : a.docId = d) (h : s.Accepted a m)
    (hres : ¬ s.models.Resolves (appended (s.entryFor d) m a).log) :
    DocStep s d (.applyAction io a)
      { s.view d with entry := some (appended (s.entryFor d) m a) }
  | snapshot (io : Io) : DocStep s d (.snapshot io d) ((s.view d).snapshot io)
  | adopted {st : DocState} (hd : st.doc.id = d) :
    DocStep s d (.adoptState st)
      { s.view d with entry := some (PhReactor.adopted (s.entryFor d) st) }

theorem Inner.Accepted.model_unique {s : Inner} {a : Action} {m m' : Model} (h : s.Accepted a m)
    (h' : s.Accepted a m') : m = m' := by
  have := h.model
  rw [h'.model] at this
  exact (Option.some.inj this).symm

/-- `applyAction`, on the view of any document. -/
theorem docStep_applyAction (s : Inner) (io : Io) (a : Action) (d : DocId) :
    DocStep s d (.applyAction io a) ((s.applyAction io a).1.view d) := by
  by_cases hd : a.docId = d
  · subst hd
    rcases s.applyAction_cases io a with
      ⟨r, hadm, h⟩ | ⟨m, r, hadm, hpre, h⟩ | ⟨m, msg, hacc, hres, h⟩ | ⟨m, hacc, any, del, h⟩
    · -- refused before the entry is touched
      rw [h]
      refine DocStep.stay ?_
      rintro io' a' heq - m hacc
      cases heq
      rw [Inner.screen_ok.mpr hacc.toAdmits] at hadm
      cases hadm
    · -- the precondition failed: the entry is put back, or a blank one is left behind
      have hnot : ∀ m', ¬ s.Accepted a m' := by
        intro m' hacc
        obtain rfl : m = m' := by
          have := hadm.model
          rw [hacc.model] at this
          exact (Option.some.inj this).symm
        rw [hacc.precondition] at hpre
        cases hpre
      rw [h]
      have hview : ({ s.putEntry a.docId (s.entryFor a.docId) with
          quarantined := s.quarantined + 1 } : Inner).view a.docId =
          { s.view a.docId with entry := some (s.entryFor a.docId) } := by
        have := s.view_putEntry a.docId (s.entryFor a.docId) a.docId
        rw [if_pos rfl] at this
        exact this
      rw [hview]
      cases he : s.entries[a.docId]? with
      | none =>
        rw [show s.entryFor a.docId = { Entry.new a.docId with space := none } from
          entryFor_of_none he]
        refine DocStep.created none he ?_
        rintro io' a' heq
        cases heq
        exact ⟨rfl, hnot⟩
      | some e =>
        have hsame : ({ s.view a.docId with entry := some (s.entryFor a.docId) } : View) =
            s.view a.docId := by
          unfold Inner.view Inner.entryFor
          rw [he]
          rfl
        rw [hsame]
        refine DocStep.stay ?_
        rintro io' a' heq -
        cases heq
        exact hnot
    · rw [h, Inner.view_putEntry, if_pos rfl]
      exact DocStep.stuck rfl hacc hres
    · rw [h, Inner.view_finishApply, if_pos rfl, Inner.view_putEntry, if_pos rfl]
      exact DocStep.accepted rfl hacc
  · have hview : (s.applyAction io a).1.view d = s.view d := by
      have hd' : ¬ d = a.docId := fun h => hd h.symm
      rcases s.applyAction_cases io a with
        ⟨r, -, h⟩ | ⟨m, r, -, -, h⟩ | ⟨m, msg, -, -, h⟩ | ⟨m, -, any, del, h⟩
      · rw [h]; rfl
      · rw [h]
        have := s.view_putEntry a.docId (s.entryFor a.docId) d
        rw [if_neg hd'] at this
        exact this
      · rw [h, Inner.view_putEntry, if_neg hd']
      · rw [h, Inner.view_finishApply, if_neg hd', Inner.view_putEntry, if_neg hd']
    rw [hview]
    refine DocStep.stay ?_
    rintro io' a' heq hd'
    cases heq
    exact absurd hd' hd

theorem Inner.view_registerPeerKey (s : Inner) (o : Origin) (k : PublicKey) (d : DocId) :
    (s.exec (.registerPeerKey o k)).view d = s.view d := by
  show (Store.registerPeerKey s o k).1.view d = _
  unfold Store.registerPeerKey
  repeat' split
  all_goals rfl

/-- **What an event can do to a document.** -/
theorem docStep_exec (s : Inner) (ev : Event) (hen : ev.Enabled s) (d : DocId) :
    DocStep s d ev ((s.exec ev).view d) := by
  have hstay : ∀ ev : Event, (∀ io a, ev ≠ .applyAction io a) → DocStep s d ev (s.view d) :=
    fun ev h => DocStep.stay fun io a heq => absurd heq (h io a)
  cases ev with
  | applyAction io a => exact docStep_applyAction s io a d
  | newEntry id sp =>
    show DocStep s d _ ((s.putEntry id { Entry.new id with space := sp }).view d)
    rw [Inner.view_putEntry]
    by_cases hd : d = id
    · subst hd
      rw [if_pos rfl]
      exact DocStep.created sp hen fun io a heq => by cases heq
    · rw [if_neg hd]
      exact hstay _ fun io a h => by cases h
  | snapshot io id =>
    show DocStep s d _ ((s.snapshot io id).1.view d)
    rw [Inner.view_snapshot]
    by_cases hd : d = id
    · subst hd
      rw [if_pos rfl]
      exact DocStep.snapshot io
    · rw [if_neg hd]
      exact hstay _ fun io a h => by cases h
  | adoptState st =>
    have hview : (s.exec (.adoptState st)).view d =
        (s.putEntry st.doc.id (adopted (s.entryFor st.doc.id) st)).view d :=
      Inner.view_emitChange ..
    rw [hview, Inner.view_putEntry]
    by_cases hd : d = st.doc.id
    · subst hd
      rw [if_pos rfl]
      exact DocStep.adopted rfl
    · rw [if_neg hd]
      exact hstay _ fun io a h => by cases h
  | registerPeerKey o k =>
    rw [Inner.view_registerPeerKey]
    exact hstay _ fun io a h => by cases h
  | nextTs now => exact hstay _ fun io a h => by cases h
  | bindName name id => exact hstay _ fun io a h => by cases h
  | addModel m => exact hstay _ fun io a h => by cases h
  | subscribeChanges => exact hstay _ fun io a h => by cases h
  | drainOutbound => exact hstay _ fun io a h => by cases h
  | connectOutbound => exact hstay _ fun io a h => by cases h

/-- An accepted action whose document finds all its models is in the log afterwards, or in the
    snapshot that was taken right after it. -/
theorem view_applyAction_of_accepted {s : Inner} {a : Action} {m : Model} (h : s.Accepted a m)
    (hres : s.models.Resolves (appended (s.entryFor a.docId) m a).log) (io : Io) :
    (s.applyAction io a).1.view a.docId =
      View.finish { s.view a.docId with entry := some (s.settled a m) } io a := by
  have hstep := docStep_applyAction s io a a.docId
  generalize (s.applyAction io a).1.view a.docId = v at hstep
  cases hstep with
  | stay hno => exact absurd h (hno io a rfl rfl m)
  | created sp hnew hno => exact absurd h ((hno io a rfl).2 m)
  | accepted hd hacc => rw [h.model_unique hacc]
  | stuck hd hacc hno => exact absurd hres (by rw [h.model_unique hacc]; exact hno)

end PhReactor
