/-
  What tasks that share a store may rely on.

  Tasks reach the store through its public operations, each under the lock.

  1. `Lifetime.call`: an operation whose generated id is fresh prolongs the lifetime of the store.
     Only the blank entry of a creating operation is guarded at all.

  2. `ownId_lifetime`: the document filed under an id says that id itself, in memory and in its
     snapshot file.

  3. `coherent_lifetime`: whatever a subscriber was sent says of a document what the full state in
     it says.
-/
import PhReactor.Store.ChangeFeed

set_option linter.unusedSectionVars false

namespace PhReactor

variable [Primitives]

/-! ## Operations prolong a lifetime -/

/-- Events that are possible in every state. -/
def Event.unguarded : Event → Bool
  | .newEntry .. => false
  | _ => true

theorem enabled_of_unguarded {ev : Event} (h : ev.unguarded = true) (s : Inner) :
    ev.Enabled s := by
  cases ev with
  | newEntry id sp => exact absurd h Bool.false_ne_true
  | _ => trivial

theorem unguarded_buildAndApplyEvents (s : Inner) (io : Io) (now : U64) (id : DocId)
    (model : ModelRef) (kind : String) (payload : Value) :
    ∀ ev ∈ buildAndApplyEvents s io now id model kind payload, ev.unguarded = true := by
  intro ev hev
  rcases List.mem_cons.mp hev with rfl | hev
  · rfl
  · split at hev
    · rw [List.mem_singleton.mp hev]
      rfl
    · exact absurd hev List.not_mem_nil

theorem unguarded_onNamedEvents (s : Inner) (io : Io) (now : U64) (name : String)
    (model : ModelRef) (kind : String) (payload : Value) :
    ∀ ev ∈ onNamedEvents s io now name model kind payload, ev.unguarded = true := by
  intro ev hev
  unfold onNamedEvents at hev
  split at hev
  · exact absurd hev List.not_mem_nil
  · exact unguarded_buildAndApplyEvents _ _ _ _ _ _ _ ev hev

theorem unguarded_setFieldsEvents (io : Io) (now : ℕ → U64) (id : DocId) :
    ∀ (fields : List (String × Value)) (s : Inner) (i : ℕ),
      ∀ ev ∈ setFieldsEvents io now id s fields i, ev.unguarded = true := by
  intro fields
  induction fields with
  | nil => exact fun _ _ ev hev => absurd hev List.not_mem_nil
  | cons field rest ih =>
    obtain ⟨field, value⟩ := field
    intro s i ev hev
    unfold setFieldsEvents at hev
    rcases List.mem_append.mp hev with hev | hev
    · exact unguarded_buildAndApplyEvents _ _ _ _ _ _ _ ev hev
    · split at hev
      · exact absurd hev List.not_mem_nil
      · exact ih _ _ ev hev

/-- The events of an operation: a blank entry under a fresh id, if one, comes first. -/
inductive Startable (s : Inner) : List Event → Prop
  | unguarded {evs : List Event} (h : ∀ ev ∈ evs, ev.unguarded = true) : Startable s evs
  | creating {id : DocId} {sp : Option DocId} {evs : List Event} (hnew : s.entries[id]? = none)
    (h : ∀ ev ∈ evs, ev.unguarded = true) : Startable s (.newEntry id sp :: evs)

theorem startable_createEvents {s : Inner} {id : DocId} (hnew : s.entries[id]? = none) (io : Io)
    (now : U64) (space : Option DocId) (model : ModelRef) (kind : String) (payload : Value) :
    Startable s (createEvents s io now id space model kind payload) :=
  .creating hnew (unguarded_buildAndApplyEvents _ _ _ _ _ _ _)

theorem startable_createDocInSpaceEvents {s : Inner} {id : DocId} (hnew : s.entries[id]? = none)
    (io : Io) (now : U64) (name : String) (model : ModelRef) (payload : Value)
    (space : Option DocId) :
    Startable s (createDocInSpaceEvents s io now id name model payload space) := by
  unfold createDocInSpaceEvents
  split
  · exact startable_createEvents hnew ..
  · exact .unguarded fun ev hev => absurd hev List.not_mem_nil

theorem startable_createDocEvents {s : Inner} {id : DocId} (hnew : s.entries[id]? = none) (io : Io)
    (now : ℕ → U64) (name : String) (fields : Std.ExtTreeMap String Value) :
    Startable s (createDocEvents s io now id name fields) := by
  unfold createDocEvents
  split
  · refine .creating hnew fun ev hev => ?_
    rcases List.mem_append.mp hev with hev | hev
    · exact unguarded_buildAndApplyEvents _ _ _ _ _ _ _ ev hev
    · split at hev
      · exact absurd hev List.not_mem_nil
      · rcases List.mem_append.mp hev with hev | hev
        · exact unguarded_setFieldsEvents _ _ _ _ _ _ ev hev
        · split at hev
          · exact absurd hev List.not_mem_nil
          · rw [List.mem_singleton.mp hev]
            rfl
  · exact .unguarded fun ev hev => absurd hev List.not_mem_nil

theorem startable_events {s : Inner} {c : Call} (hid : c.FreshId s) : Startable s (c.events s) := by
  have hone : ∀ {ev : Event}, ev.unguarded = true → Startable s [ev] := fun h =>
    .unguarded fun ev hev => by rw [List.mem_singleton.mp hev]; exact h
  cases c with
  | createDoc io now id name fields => exact startable_createDocEvents hid ..
  | createDocInSpace io now id name model payload space =>
    exact startable_createDocInSpaceEvents hid ..
  | createSpaceAt io now id name payload =>
    show Startable s (if s.entries.contains id then [] else _)
    split
    · exact .unguarded fun ev hev => absurd hev List.not_mem_nil
    · next hno =>
      refine startable_createDocInSpaceEvents ?_ ..
      simpa using hno
  | updateField io now name field value =>
    exact .unguarded (unguarded_onNamedEvents s io now name _ _ _)
  | deleteField io now name field =>
    exact .unguarded (unguarded_onNamedEvents s io now name _ _ _)
  | deleteDoc io now name => exact .unguarded (unguarded_onNamedEvents s io now name _ _ _)
  | applyLocalAction io now name model kind payload =>
    exact .unguarded (unguarded_onNamedEvents s io now name _ _ _)
  | buildLocalAction now name model kind payload =>
    unfold Call.events
    dsimp only
    split
    · exact .unguarded fun ev hev => absurd hev List.not_mem_nil
    · exact hone rfl
  | _ => exact hone rfl

theorem Lifetime.execAll {s₀ : Inner} : ∀ {evs : List Event} {s : Inner} {acc : List Action},
    Lifetime (fun _ _ _ => True) s₀ s acc → (∀ ev ∈ evs, ev.unguarded = true) →
      ∃ acc', Lifetime (fun _ _ _ => True) s₀ (s.execAll evs) acc' := by
  intro evs
  induction evs with
  | nil => exact fun hl _ => ⟨_, hl⟩
  | cons ev evs ih =>
    intro s acc hl hall
    exact ih (hl.step (.event ev) (enabled_of_unguarded (hall ev List.mem_cons_self) s) trivial)
      fun ev' hev' => hall ev' (List.mem_cons_of_mem ev hev')

/-- **An operation prolongs the lifetime.** -/
theorem Lifetime.call {s₀ s : Inner} {acc : List Action}
    (hl : Lifetime (fun _ _ _ => True) s₀ s acc) {c : Call} (hid : c.FreshId s) :
    ∃ acc', Lifetime (fun _ _ _ => True) s₀ (c.exec s) acc' := by
  rw [Call.exec_eq]
  have hstart := startable_events hid
  generalize c.events s = evs at hstart
  cases hstart with
  | unguarded h => exact hl.execAll h
  | creating hnew h => exact (hl.step (.event (.newEntry ..)) hnew trivial).execAll h

/-! ## A document says its own id -/

/-- The entry and the snapshot of `d` say that they are `d`. -/
structure View.OwnId (d : DocId) (v : View) : Prop where
  entry : ∀ e, v.entry = some e → e.doc.id = d
  snap : ∀ st, v.snap = some st → st.doc.id = d

variable {s : Inner} {d : DocId} {a : Action}

theorem id_baseEntry (h : (s.view d).OwnId d) : (s.baseEntry d).doc.id = d := by
  unfold Inner.baseEntry
  cases hsnap : s.disk.snap[d]? with
  | none => exact id_liftName _
  | some b => exact (id_liftName _).trans (h.snap b hsnap)

theorem id_entryFor (h : (s.view d).OwnId d) : (s.entryFor d).doc.id = d := by
  cases he : s.entries[d]? with
  | none =>
    rw [entryFor_of_none he]
    rfl
  | some e =>
    rw [entryFor_eq he]
    exact h.entry e he

theorem id_appended (e : Entry) (m : Model) (a : Action) :
    (appended e m a).doc.id = e.doc.id := by
  unfold appended
  dsimp only
  rw [id_applyOpsToEntry]
  split <;> rfl

theorem id_settled (h : (s.view a.docId).OwnId a.docId) (m : Model) :
    (s.settled a m).doc.id = a.docId := by
  unfold Inner.settled
  split
  · -- a re-fold starts from the base, whose space is no part of the document
    refine foldl_foldStep_induct (P := fun e => e.doc.id = a.docId)
      (fun e b m' _ he => (id_refoldStep e b m').trans he) _ _ ?_
    split
    · exact id_baseEntry h
    · exact id_baseEntry h
  · exact (id_appended ..).trans (id_entryFor h)

theorem id_foldl_replayStep (s : Inner) (l : List Action) (e : Entry) :
    (l.foldl s.replayStep e).doc.id = e.doc.id := by
  induction l generalizing e with
  | nil => rfl
  | cons a l ih =>
    rw [List.foldl_cons, ih]
    cases hm : s.models.find a.model with
    | some m =>
      rw [(replayStep_spec hm e).1.doc]
      exact id_applyOpsToEntry e m a
    | none => rw [(replayStep_missing hm e).1.doc]

theorem id_replayBase (s : Inner) (d : DocId) : (s.replayBase d).doc.id = d := by
  unfold Inner.replayBase
  exact id_liftName _

/-- A step that puts an entry of its own id and leaves the snapshot alone. -/
theorem View.OwnId.put {v : View} (h : v.OwnId d) {e : Entry} (he : e.doc.id = d) :
    ({ v with entry := some e } : View).OwnId d :=
  ⟨fun e' he' => by rw [← Option.some.inj he']; exact he, h.snap⟩

/-- A snapshot of an entry files its document as it is. -/
theorem View.OwnId.snapshot {v : View} (h : v.OwnId d) (io : Io) : (v.snapshot io).OwnId d := by
  obtain ⟨hentry, hsnap⟩ := View.docs_snapshot (Q := fun doc => doc.id = d) h.entry h.snap io
  exact ⟨hentry, hsnap⟩

theorem View.OwnId.finish {v : View} (h : v.OwnId d) (io : Io) (a : Action) :
    (v.finish io a).OwnId d := by
  obtain ⟨hentry, hsnap⟩ := View.docs_finish (Q := fun doc => doc.id = d) h.entry h.snap io a
  exact ⟨hentry, hsnap⟩

/-- **Step lemma**: an event, or a reopening, files no document under another id. -/
theorem ownId_happen {h : Happening} (hen : h.Enabled s) (hown : (s.view d).OwnId d) :
    ((s.happen h).view d).OwnId d := by
  cases h with
  | reopen extra =>
    rw [view_reopened]
    refine ⟨fun e he => ?_, hown.snap⟩
    dsimp only at he
    split at he
    · rw [← Option.some.inj he, replayed_eq_foldl, id_foldl_replayStep, id_replayBase]
    · cases he
  | event ev =>
    have hstep := docStep_exec s ev hen d
    show ((s.exec ev).view d).OwnId d
    generalize (s.exec ev).view d = v at hstep
    cases hstep with
    | stay _ => exact hown
    | created sp _ _ => exact hown.put rfl
    | @accepted io a m hd hacc =>
      subst hd
      exact (hown.put (id_settled hown m)).finish io a
    | @stuck io a m hd hacc hres =>
      subst hd
      exact hown.put ((id_appended ..).trans (id_entryFor hown))
    | snapshot io => exact hown.snapshot io
    | @adopted st hd => exact hown.put ((id_liftName _).trans hd)

/-- **In every state of every lifetime a document says its own id.** -/
theorem ownId_lifetime {P : Inner → List Action → Happening → Prop} {key : SigningKey}
    {origin : Origin} {extra : List Model} {acc : List Action}
    (h : Lifetime P (Store.fresh key origin extra) s acc) (d : DocId) : (s.view d).OwnId d := by
  induction h with
  | start =>
    rw [Store.fresh_view]
    exact ⟨fun e he => (by cases he), fun st hst => (by cases hst)⟩
  | step _ h hen _ ih => exact ownId_happen hen ih

/-! ## A change says what its full state says -/

/-- What the change says beside its full state agrees with it. -/
structure DocChange.Coherent (c : DocChange) : Prop where
  docId : c.state.doc.id = c.docId
  name : c.name = c.state.doc.name
  model : c.model = c.state.model
  deleted : c.deleted = c.state.deleted

/-- Every change that was sent is coherent. -/
def Coherent (s : Inner) : Prop := ∀ sent ∈ s.subscribers, ∀ c ∈ sent, c.Coherent

theorem Coherent.congr {t : Inner} (h : Coherent s) (hsent : t.subscribers = s.subscribers) :
    Coherent t := by
  unfold Coherent
  rw [hsent]
  exact h

theorem coherent_emitChange {t : Inner} (h : Coherent t) {id : DocId}
    (hown : (t.view id).OwnId id) (ts : U64) (action : Option Action) :
    Coherent (t.emitChange id ts action) := by
  cases he : t.entries[id]? with
  | none =>
    unfold Inner.emitChange
    rw [he]
    exact h
  | some e =>
    rw [emitChange_eq he]
    intro sent hsent c hc
    obtain ⟨old, hold, rfl⟩ := List.mem_map.mp hsent
    rcases List.mem_append.mp hc with hc | hc
    · exact h old hold c hc
    · rw [List.mem_singleton.mp hc]
      exact ⟨hown.entry e he, rfl, rfl, rfl⟩

theorem coherent_finishApply {t : Inner} (h : Coherent t) {a : Action} {io : Io} {any del : Bool}
    (hown : ((t.finishApply io a any del).1.view a.docId).OwnId a.docId) :
    Coherent (t.finishApply io a any del).1 := by
  rcases Inner.finishApply_cases t io a any del with ⟨⟨msg, heq⟩, -⟩ | ⟨-, heq⟩
  · rw [heq]
    exact h.congr (recorded_frame t io a any).2
  · have hindexed : Coherent ((t.recorded io a any).1.indexName a.docId) :=
      h.congr ((subscribers_indexName _ _).trans (recorded_frame t io a any).2)
    rw [heq] at hown ⊢
    dsimp only at hown ⊢
    split
    · next hemit =>
      rw [if_pos hemit, Inner.view_emitChange] at hown
      exact coherent_emitChange hindexed hown _ _
    · exact hindexed

/-- Nobody hears of what a store does while it is opened. -/
theorem subscribers_openWithModels (disk : Disk) (key : SigningKey) (origin : Origin)
    (extra : List Model) : (Store.openWithModels disk key origin extra).subscribers = [] := by
  have hreplay : ∀ (ids : List DocId) (t : Inner),
      (ids.foldl (fun s id => s.replayDoc id) t).subscribers = t.subscribers := by
    intro ids
    induction ids with
    | nil => exact fun _ => rfl
    | cons id ids ih =>
      intro t
      rw [List.foldl_cons, ih, replayDoc_eq]
      split <;> rfl
  rw [openWithModels_eq]
  exact hreplay _ _

theorem coherent_of_subscribers_nil (h : s.subscribers = []) : Coherent s := by
  intro sent hsent
  rw [h] at hsent
  exact absurd hsent List.not_mem_nil

theorem coherent_applyAction (hown : (s.view a.docId).OwnId a.docId) (hco : Coherent s) (io : Io) :
    Coherent (s.applyAction io a).1 := by
  have hafter : ((s.applyAction io a).1.view a.docId).OwnId a.docId :=
    ownId_happen (h := .event (.applyAction io a)) trivial hown
  rcases s.applyAction_cases io a with
    ⟨r, -, heq⟩ | ⟨m, r, -, -, heq⟩ | ⟨m, msg, -, -, heq⟩ | ⟨m, -, any, del, heq⟩
  · rw [heq]
    exact hco.congr rfl
  · rw [heq]
    exact hco.congr rfl
  · rw [heq]
    exact hco.congr rfl
  · rw [heq] at hafter ⊢
    have hput : Coherent (s.putEntry a.docId (s.settled a m)) := hco.congr rfl
    exact coherent_finishApply hput hafter

theorem coherent_adoptState {st : DocState} (hown : (s.view st.doc.id).OwnId st.doc.id)
    (hco : Coherent s) : Coherent (s.exec (.adoptState st)) := by
  have heq : s.exec (.adoptState st) =
      (s.putEntry st.doc.id (adopted (s.entryFor st.doc.id) st)).emitChange st.doc.id s.tsHint
        none := rfl
  rw [heq]
  have hput : Coherent (s.putEntry st.doc.id (adopted (s.entryFor st.doc.id) st)) := hco.congr rfl
  refine coherent_emitChange hput ?_ _ _
  rw [Inner.view_putEntry, if_pos rfl]
  exact hown.put (id_liftName _)

theorem coherent_exec {ev : Event} (hown : ∀ d, (s.view d).OwnId d) (hco : Coherent s) :
    Coherent (s.exec ev) := by
  cases ev with
  | applyAction io a => exact coherent_applyAction (hown _) hco io
  | snapshot io id => exact hco.congr (subscribers_snapshot s io id)
  | adoptState st => exact coherent_adoptState (hown _) hco
  | registerPeerKey o k =>
    refine hco.congr ?_
    show (Store.registerPeerKey s o k).1.subscribers = _
    unfold Store.registerPeerKey
    repeat' split
    all_goals rfl
  | subscribeChanges =>
    intro sent hsent c hc
    rcases List.mem_append.mp hsent with hsent | hsent
    · exact hco sent hsent c hc
    · rw [List.mem_singleton.mp hsent] at hc
      exact absurd hc List.not_mem_nil
  | _ => exact hco.congr rfl

/-- **In every state of every lifetime the changes that were sent are coherent.** -/
theorem coherent_lifetime {P : Inner → List Action → Happening → Prop} {key : SigningKey}
    {origin : Origin} {extra : List Model} {acc : List Action}
    (h : Lifetime P (Store.fresh key origin extra) s acc) : Coherent s := by
  induction h with
  | start => exact coherent_of_subscribers_nil (subscribers_openWithModels ..)
  | step hl h _ _ ih =>
    cases h with
    | event ev => exact coherent_exec (ownId_lifetime hl) ih
    | reopen extra => exact coherent_of_subscribers_nil (subscribers_openWithModels ..)

end PhReactor
