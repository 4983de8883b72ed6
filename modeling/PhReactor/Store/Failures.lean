/-
  Calls that fail, and calls that should.

  1. A PROPOSAL is built at one log position and submitted at a later one.  `prevHash` names the
     position, and nothing in `applyAction` reads it: a stale proposal is refused exactly when one
     of the other checks refuses it (`stale_proposal_refused_iff`).

  2. A DUPLICATE is not looked for either.  Delivering an action of the log again appends it a
     second time, unless a check refuses it now (`redelivery_is_noop_iff`).

  3. A call that answers with an ERROR has left the store alone exactly when it was refused before
     the entry was touched (`failed_call_changes_nothing_iff`).  The create paths insert a blank
     entry first, and so does a failed precondition on an unknown document; a stuck re-fold and a
     failed snapshot come after the action has joined the log.
-/
import PhReactor.Store.Outbound
import PhReactor.Store.Outcomes

set_option linter.unusedSectionVars false

namespace PhReactor

section

variable [Primitives]

/-! ## Being refused -/

/-- One of the checks of `applyAction` refuses the action.  None of them looks at `prevHash` or
    asks whether the action is in the log already. -/
def Inner.Refuses (s : Inner) (a : Action) : Prop :=
  s.checkSignatures a ≠ .ok () ∨
  ∀ m, s.models.find a.model = some m →
    m.validatePayload a.kind a.payload ≠ .ok () ∨
    s.checkQuorum m a ≠ .ok () ∨
    s.checkAuthorize m a ≠ .ok () ∨
    s.checkSpaceMember m a ≠ .ok () ∨
    s.checkSpaceBinding a ≠ .ok () ∨
    m.checkPrecondition (s.entryFor a.docId).doc a ≠ .ok ()

theorem Inner.refuses_iff {s : Inner} {a : Action} : s.Refuses a ↔ s.accepts a = false := by
  rw [← Bool.not_eq_true, Inner.accepts_iff, not_exists]
  constructor
  · intro h m hacc
    rcases h with h | h
    · exact h hacc.signatures
    · rcases h m hacc.model with h | h | h | h | h | h
      · exact h hacc.payload
      · exact h hacc.quorum
      · exact h hacc.authorize
      · exact h hacc.spaceMember
      · exact h hacc.spaceBinding
      · exact h hacc.precondition
  · intro h
    by_contra hno
    unfold Inner.Refuses at hno
    push Not at hno
    obtain ⟨hsig, m, hm, hpay, hq, hauth, hsm, hsb, hpre⟩ := hno
    exact h m ⟨⟨hsig, hm, hpay, hq, hauth, hsm, hsb⟩, hpre⟩

/-- An action refused on a document that is here changes the quarantine counter and nothing
    else. -/
theorem Inner.applyAction_refused_here {s : Inner} {a : Action} (h : s.accepts a = false)
    (hhere : s.entries[a.docId]?.isSome = true) (io : Io) : ∃ msg, s.applyAction io a =
      ({ s with quarantined := s.quarantined + 1 }, .error msg) := by
  obtain ⟨msg, ⟨heq, -⟩ | ⟨-, -, hnone⟩⟩ := Inner.applyAction_refused h io
  · exact ⟨msg, heq⟩
  · rw [hnone] at hhere
    cases hhere

/-- Whatever its answer, an accepted action changes the log of its document: it is one longer, or
    a snapshot has cleared it. -/
theorem log_ne_of_accepted {s : Inner} {a : Action} {m : Model} (hacc : s.Accepted a m) (io : Io) :
    ∃ e, (s.applyAction io a).1.entries[a.docId]? = some e ∧
      e.log.length ≠ (s.entryFor a.docId).log.length := by
  cases hstuck : s.refoldStuck a with
  | true =>
    obtain ⟨msg, heq⟩ := Inner.applyAction_stuck hacc hstuck io
    refine ⟨appended (s.entryFor a.docId) m a, by rw [heq]; simp [Inner.putEntry], ?_⟩
    rw [log_appended, List.length_append]
    simp
  | false =>
    have hlen := length_settled_log s a m
    have hview := view_applyAction_settled hacc hstuck io
    have hentry : (s.applyAction io a).1.entries[a.docId]? =
        (View.finish { s.view a.docId with entry := some (s.settled a m) } io a).entry :=
      congrArg View.entry hview
    unfold View.finish at hentry
    split at hentry
    · next hfull =>
      -- a snapshot is due: the log was not empty before
      have hlong : snapshotOps ≤ (s.settled a m).log.length := of_decide_eq_true hfull
      have hpos : 0 < (s.entryFor a.docId).log.length := by
        unfold snapshotOps at hlong
        omega
      rcases View.snapshot_cases _ io (View.entry_persist
        { s.view a.docId with entry := some (s.settled a m) } io a) with ⟨hsame, -⟩ | ⟨-, hclear⟩
      · exact ⟨_, hentry.trans hsame, by omega⟩
      · rw [hclear] at hentry
        refine ⟨_, hentry, ?_⟩
        show 0 ≠ _
        omega
    · rw [View.entry_persist] at hentry
      exact ⟨_, hentry, by omega⟩

/-- So an accepted action is seen in the entries. -/
theorem entries_ne_of_accepted {s : Inner} {a : Action} {m : Model} (hacc : s.Accepted a m)
    (io : Io) : (s.applyAction io a).1.entries[a.docId]? ≠ s.entries[a.docId]? := by
  intro hsame
  obtain ⟨e, he, hne⟩ := log_ne_of_accepted hacc io
  rw [hsame] at he
  rw [entryFor_eq he] at hne
  exact hne rfl

/-! ## Stale proposals -/

/-- Any events, one after the other. -/
def Inner.Later : Inner → Inner → Prop := Inner.Run fun _ _ => True

/-- A document that is here stays here. -/
theorem Inner.Later.isSome_entry {s t : Inner} {d : DocId} (h : s.Later t)
    (hd : s.entries[d]?.isSome = true) : t.entries[d]?.isSome = true :=
  h.induct (I := fun t => t.entries[d]?.isSome = true) hd
    fun _ _ _ _ hi => isSome_entry_exec (Or.inl hi)

/-- `a` was built as a proposal, and by `t` at least one other action of its document has been
    accepted. -/
def StaleProposal (t : Inner) (a : Action) : Prop :=
  ∃ (s : Inner) (now : U64) (name : String) (model : ModelRef) (kind : String) (payload : Value),
    (Store.buildLocalAction s now name model kind payload).2 = .ok a ∧
    ∃ (u : Inner) (io : Io) (b : Action),
      (Store.buildLocalAction s now name model kind payload).1.Later u ∧
      b.docId = a.docId ∧ ¬ a.SameSigned b ∧ u.accepts b = true ∧
      (u.exec (.applyAction io b)).Later t

theorem Action.SameSigned.origin_eq {a b : Action} (h : a.SameSigned b) :
    a.origin = b.origin := by
  have heq : { a with sig := b.sig, cosig := b.cosig } = b := h
  rw [← heq]

theorem StaleProposal.isSome_entry {t : Inner} {a : Action} (h : StaleProposal t a) :
    t.entries[a.docId]?.isSome = true := by
  obtain ⟨s, now, name, model, kind, payload, -, u, io, b, -, hdoc, -, hacc, hlater⟩ := h
  obtain ⟨m, hacc⟩ := Inner.accepts_iff.mp hacc
  exact hlater.isSome_entry (isSome_entry_exec (Or.inr ⟨io, b, m, rfl, hdoc, hacc⟩))

/-- **When a stale proposal is refused**: with any co-signatures, submitting it answers an error
    and leaves its document as it was exactly when one of the checks refuses it — and none of them
    compares its `prevHash` with the log. -/
theorem stale_proposal_refused_iff {t : Inner} {a : Action} (h : StaleProposal t a)
    (cs : List CoSig) (io : Io) :
    ((Store.applySignedAction t io { a with cosig := cs }).2.isOk = false ∧
      (Store.applySignedAction t io { a with cosig := cs }).1.entries[a.docId]? =
        t.entries[a.docId]?) ↔
      t.Refuses { a with cosig := cs } := by
  rw [Inner.refuses_iff]
  constructor
  · rintro ⟨-, hsame⟩
    by_contra hno
    rw [Bool.not_eq_false, Inner.accepts_iff] at hno
    obtain ⟨m, hacc⟩ := hno
    exact entries_ne_of_accepted hacc io hsame
  · intro hno
    obtain ⟨msg, heq⟩ := Inner.applyAction_refused_here hno h.isSome_entry io
    rw [show Store.applySignedAction t io { a with cosig := cs } = _ from heq]
    exact ⟨rfl, rfl⟩

/-! ## Duplicates -/

/-- The action delivered again, once for each outcome of the file writes. -/
def Inner.redeliver (s : Inner) (a : Action) (ios : List Io) : Inner :=
  ios.foldl (fun s io => (Store.applyRemoteAction s io a).1) s

/-- Whether an action is accepted does not depend on the quarantine counter. -/
theorem accepts_quarantined (s : Inner) (n : ℕ) (a : Action) :
    ({ s with quarantined := n } : Inner).accepts a = s.accepts a := rfl

/-- While an action is refused on a document that is here, no delivery of it changes more than the
    quarantine counter. -/
theorem redeliver_refused {a : Action} : ∀ (ios : List Io) {s : Inner}, s.accepts a = false →
    s.entries[a.docId]?.isSome = true → ∃ n, s.redeliver a ios = { s with quarantined := n }
  | [], s, _, _ => ⟨s.quarantined, rfl⟩
  | io :: ios, s, hno, hhere => by
    obtain ⟨msg, heq⟩ := Inner.applyAction_refused_here hno hhere io
    have hnext : s.redeliver a (io :: ios) =
        ({ s with quarantined := s.quarantined + 1 } : Inner).redeliver a ios := by
      show ((s.applyAction io a).1).redeliver a ios = _
      rw [heq]
    obtain ⟨n, hn⟩ := redeliver_refused ios (s := { s with quarantined := s.quarantined + 1 })
      ((accepts_quarantined s _ a).trans hno) hhere
    exact ⟨n, hnext.trans hn⟩

/-- The action is in its document's live log. -/
def Inner.Logged (s : Inner) (a : Action) : Prop :=
  ∃ e, s.entries[a.docId]? = some e ∧ a ∈ e.log

/-- **When re-delivery is a no-op**: an action that was in its document's log leaves the document,
    its clock, its log, its snapshot and its WAL as they are, however often it is delivered again,
    exactly when one of the checks refuses it. -/
theorem redelivery_is_noop_iff {s t : Inner} {a : Action} (hlog : s.Logged a)
    (hlater : s.Later t) :
    (∀ ios : List Io, (t.redeliver a ios).view a.docId = t.view a.docId) ↔ t.Refuses a := by
  obtain ⟨e, he, -⟩ := hlog
  have hhere : t.entries[a.docId]?.isSome = true := hlater.isSome_entry (by rw [he]; rfl)
  rw [Inner.refuses_iff]
  constructor
  · intro hnoop
    by_contra hno
    rw [Bool.not_eq_false, Inner.accepts_iff] at hno
    obtain ⟨m, hacc⟩ := hno
    exact entries_ne_of_accepted hacc Io.ok (congrArg View.entry (hnoop [Io.ok]))
  · intro hno ios
    obtain ⟨n, hn⟩ := redeliver_refused ios hno hhere
    rw [hn]
    rfl

/-! ## Calls that answer with an error -/

/-- What a failed call must not touch: the entries, the name index, the WAL files, the queue. -/
structure SameStore (s t : Inner) : Prop where
  entries : t.entries = s.entries
  names : t.names = s.names
  alog : t.disk.alog = s.disk.alog
  outbound : t.outbound = s.outbound

/-- Does the call answer with an error: the creating calls and those that apply an action.
    (`create_doc_model` is `createDocInSpace` without a space.) -/
def Call.fails (s : Inner) : Call → Bool
  | .createDoc io now id name fields => !(Store.createDoc s io now id name fields).2.isOk
  | .createDocInSpace io now id name model payload space =>
    !(Store.createDocInSpace s io now id name model payload space).2.isOk
  | .createSpaceAt io now id name payload => !(Store.createSpaceAt s io now id name payload).2.isOk
  | .updateField io now name field value => !(Store.updateField s io now name field value).2.isOk
  | .deleteField io now name field => !(Store.deleteField s io now name field).2.isOk
  | .deleteDoc io now name => !(Store.deleteDoc s io now name).2.isOk
  | .applyLocalAction io now name model kind payload =>
    !(Store.applyLocalAction s io now name model kind payload).2.isOk
  | .applySignedAction io a => !(Store.applySignedAction s io a).2.isOk
  | .applyRemoteAction io a => !(Store.applyRemoteAction s io a).2.isOk
  | _ => false

/-- The creating calls draw a fresh id; `createSpaceAt` is given one, and looks. -/
def Call.FreshId (s : Inner) : Call → Prop
  | .createDoc _ _ id _ _ => s.entries[id]? = none
  | .createDocInSpace _ _ id _ _ _ _ => s.entries[id]? = none
  | _ => True

/-- The action is refused before an entry is touched: by one of the checks of `screen`, or by its
    precondition on a document that is here. -/
def Inner.turnsAway (s : Inner) (a : Action) : Bool :=
  match s.screen a with
  | .error _ => true
  | .ok m => !(m.checkPrecondition (s.entryFor a.docId).doc a).isOk && s.entries.contains a.docId

/-- The local action on the document of that name is refused before an entry is touched. -/
def Inner.turnsAwayLocal (s : Inner) (now : U64) (name : String) (model : ModelRef)
    (kind : String) (payload : Value) : Bool :=
  match s.names[name]? with
  | none => true
  | some id =>
    match s.buildAction now id model kind payload with
    | (_, .error _) => true
    | (t, .ok a) => t.turnsAway a

/-- The call is refused before it touches an entry: the name is invalid or taken, the id is taken,
    there is no document of that name, or its action is turned away. -/
def Call.refusedEarly (s : Inner) : Call → Bool
  | .createDoc _ _ _ name _ => !nameFree s name
  | .createDocInSpace _ _ _ name _ _ _ => !nameFree s name
  | .createSpaceAt _ _ id name _ => !nameFree s name || s.entries.contains id
  | .updateField _ now name field value =>
    s.turnsAwayLocal now name openRef "set" (Store.setPayload field value)
  | .deleteField _ now name field =>
    s.turnsAwayLocal now name openRef "delete" (.object [("field", .string field)])
  | .deleteDoc _ now name => s.turnsAwayLocal now name openRef "delete" (.object [])
  | .applyLocalAction _ now name model kind payload =>
    s.turnsAwayLocal now name model kind payload
  | .applySignedAction _ a => s.turnsAway a
  | .applyRemoteAction _ a => s.turnsAway a
  | _ => true

/-- A refusal before the entry is touched leaves everything but the quarantine counter. -/
theorem turnsAway_iff {s : Inner} {a : Action} : s.turnsAway a = true ↔
    s.accepts a = false ∧ ((∃ r, s.screen a = .error r) ∨ s.entries[a.docId]?.isSome = true) := by
  unfold Inner.turnsAway Inner.accepts
  cases hscreen : s.screen a with
  | error r => simp
  | ok m =>
    dsimp only
    rw [Bool.and_eq_true, Bool.not_eq_true', Std.ExtTreeMap.contains_eq_isSome_getElem?]
    simp

/-- **`applyAction` leaves the store alone** exactly when it turns the action away. -/
theorem sameStore_applyAction_iff (s : Inner) (io : Io) (a : Action) :
    SameStore s (s.applyAction io a).1 ↔ s.turnsAway a = true := by
  rw [turnsAway_iff]
  cases hacc : s.accepts a with
  | true =>
    obtain ⟨m, hacc⟩ := Inner.accepts_iff.mp hacc
    constructor
    · intro hsame
      exact absurd (by rw [hsame.entries]) (entries_ne_of_accepted hacc io)
    · rintro ⟨h, -⟩
      cases h
  | false =>
    obtain ⟨msg, ⟨heq, hwhy⟩ | ⟨heq, ⟨m, hscreen⟩, hnone⟩⟩ := Inner.applyAction_refused hacc io
    · rw [heq]
      exact ⟨fun _ => ⟨rfl, hwhy⟩, fun _ => ⟨rfl, rfl, rfl, rfl⟩⟩
    · constructor
      · -- the blank entry that is left behind shows
        intro hsame
        have hent := hsame.entries
        rw [heq] at hent
        have hget : (s.entries.insert a.docId (Entry.new a.docId))[a.docId]? = none := by
          rw [← hnone]
          exact congrArg (fun m : Std.ExtTreeMap DocId Entry => m[a.docId]?) hent
        simp at hget
      · rintro ⟨-, ⟨r, herr⟩ | hhere⟩
        · rw [hscreen] at herr
          cases herr
        · rw [hnone] at hhere
          cases hhere

/-- Drawing a timestamp does not count as a change. -/
theorem sameStore_buildAction (s : Inner) (now : U64) (id : DocId) (model : ModelRef)
    (kind : String) (payload : Value) (t : Inner) :
    SameStore s t ↔ SameStore (s.buildAction now id model kind payload).1 t := by
  rw [buildAction_fst]
  exact ⟨fun h => ⟨h.entries, h.names, h.alog, h.outbound⟩,
    fun h => ⟨h.entries, h.names, h.alog, h.outbound⟩⟩

/-- The same for the operations on the document of a name. -/
theorem sameStore_onNamed_iff (s : Inner) (io : Io) (now : U64) (missing name : String)
    (model : ModelRef) (kind : String) (payload : Value) :
    SameStore s (Store.onNamed s io now missing name model kind payload).1 ↔
      s.turnsAwayLocal now name model kind payload = true := by
  unfold Store.onNamed Inner.turnsAwayLocal
  cases s.names[name]? with
  | none => exact ⟨fun _ => rfl, fun _ => ⟨rfl, rfl, rfl, rfl⟩⟩
  | some id =>
    dsimp only
    rw [sameStore_buildAction s now id model kind payload]
    unfold Store.buildAndApply
    cases s.buildAction now id model kind payload with
    | mk t r =>
      cases r with
      | error e => exact ⟨fun _ => rfl, fun _ => ⟨rfl, rfl, rfl, rfl⟩⟩
      | ok a =>
        dsimp only
        rw [← sameStore_applyAction_iff t io a]
        cases t.applyAction io a with
        | mk u r => cases r <;> rfl

theorem isSome_entry_execAll {d : DocId} (evs : List Event) {s : Inner}
    (h : s.entries[d]?.isSome = true) : (s.execAll evs).entries[d]?.isSome = true := by
  induction evs generalizing s with
  | nil => exact h
  | cons ev evs ih => exact ih (isSome_entry_exec (Or.inl h))

/-- A run of events that starts with a blank entry under a new id is seen in the entries. -/
theorem not_sameStore_newEntry {s : Inner} {id : DocId} (hnew : s.entries[id]? = none)
    (sp : Option DocId) (evs : List Event) :
    ¬ SameStore s (s.execAll (.newEntry id sp :: evs)) := by
  intro hsame
  have hput : (s.exec (.newEntry id sp)).entries[id]?.isSome = true := by
    show (s.entries.insert id { Entry.new id with space := sp })[id]?.isSome = true
    simp
  have hhere := isSome_entry_execAll evs hput
  have hent := hsame.entries
  rw [show (s.execAll (.newEntry id sp :: evs)).entries =
    ((s.exec (.newEntry id sp)).execAll evs).entries from rfl] at hent
  rw [hent, hnew] at hhere
  cases hhere

/-- The same for the creating calls: they leave nothing behind exactly when the name is not free. -/
theorem sameStore_createDocInSpace_iff {s : Inner} {id : DocId} (hnew : s.entries[id]? = none)
    (io : Io) (now : U64) (name : String) (model : ModelRef) (payload : Value)
    (space : Option DocId) :
    SameStore s (Store.createDocInSpace s io now id name model payload space).1 ↔
      (!nameFree s name) = true := by
  rw [createDocInSpace_fst]
  unfold createDocInSpaceEvents createEvents
  cases nameFree s name with
  | true => exact ⟨fun h => absurd h (not_sameStore_newEntry hnew space _), fun h => by cases h⟩
  | false => exact ⟨fun _ => rfl, fun _ => ⟨rfl, rfl, rfl, rfl⟩⟩

theorem sameStore_createDoc_iff {s : Inner} {id : DocId} (hnew : s.entries[id]? = none)
    (io : Io) (now : ℕ → U64) (name : String) (fields : Std.ExtTreeMap String Value) :
    SameStore s (Store.createDoc s io now id name fields).1 ↔ (!nameFree s name) = true := by
  rw [createDoc_fst]
  unfold createDocEvents createEvents
  cases nameFree s name with
  | true => exact ⟨fun h => absurd h (not_sameStore_newEntry hnew none _), fun h => by cases h⟩
  | false => exact ⟨fun _ => rfl, fun _ => ⟨rfl, rfl, rfl, rfl⟩⟩

/-- **When a failed call leaves the store as it was**: exactly when it is refused before it touches
    an entry. -/
theorem failed_call_changes_nothing_iff {s : Inner} {c : Call} (hid : c.FreshId s)
    (hfail : c.fails s = true) : SameStore s (c.exec s) ↔ c.refusedEarly s = true := by
  cases c with
  | createDoc io now id name fields =>
    exact sameStore_createDoc_iff hid io now name fields
  | createDocInSpace io now id name model payload space =>
    exact sameStore_createDocInSpace_iff hid io now name model payload space
  | createSpaceAt io now id name payload =>
    show SameStore s (Store.createSpaceAt s io now id name payload).1 ↔
      (!nameFree s name || s.entries.contains id) = true
    rw [createSpaceAt_fst]
    cases hid : s.entries.contains id with
    | true =>
      rw [Bool.or_true, if_pos rfl]
      exact ⟨fun _ => rfl, fun _ => ⟨rfl, rfl, rfl, rfl⟩⟩
    | false =>
      have hnew : s.entries[id]? = none := by
        rw [Std.ExtTreeMap.contains_eq_isSome_getElem?] at hid
        exact Option.isNone_iff_eq_none.mp (Option.isSome_eq_false_iff.mp hid)
      rw [Bool.or_false, if_neg Bool.false_ne_true]
      exact sameStore_createDocInSpace_iff hnew io now name _ payload (some id)
  | updateField io now name field value => exact sameStore_onNamed_iff ..
  | deleteField io now name field => exact sameStore_onNamed_iff ..
  | deleteDoc io now name => exact sameStore_onNamed_iff ..
  | applyLocalAction io now name model kind payload => exact sameStore_onNamed_iff ..
  | applySignedAction io a => exact sameStore_applyAction_iff s io a
  | applyRemoteAction io a => exact sameStore_applyAction_iff s io a
  | buildLocalAction now name model kind payload => cases hfail
  | snapshot io id => cases hfail
  | adoptState st => cases hfail
  | registerPeerKey o k => cases hfail
  | addModel m => cases hfail
  | subscribeChanges => cases hfail
  | drainOutbound => cases hfail
  | connectOutbound => cases hfail

end

section

open Sample

attribute [local instance] Sample.primitives

/-! ### A proposal that is overtaken -/

/-- Alice's notes, on a node that knows bob. -/
def notesStore : Inner :=
  (Store.createDoc ((Store.fresh alice.key alice.name []).execAll (pins [bob])) Io.ok (fun _ => 7)
    docId "notes" ∅).1

/-- Bob's write, which arrives while alice's proposal is away. -/
def bobTitles : Action :=
  act bob "open" "set" (Store.setPayload "title" (.string "draft")) 20 [("bob", 1)] none

/-- Alice proposes a title. -/
def proposed : Inner × Except String Action :=
  Store.buildLocalAction notesStore 8 "notes" openRef "set"
    (Store.setPayload "title" (.string "plan"))

def titleProposal : Action := proposed.2.toOption.getD bobTitles

/-- Alice's node when bob's write has been accepted. -/
def overtakenStore : Inner := proposed.1.exec (.applyAction Io.ok bobTitles)

theorem titleProposal_stale : StaleProposal overtakenStore titleProposal := by
  have hfacts : proposed.2.isOk = true ∧ bobTitles.docId = titleProposal.docId ∧
      titleProposal.origin ≠ bobTitles.origin ∧ proposed.1.accepts bobTitles = true := by
    decide +kernel
  obtain ⟨hok, hdoc, horigin, hacc⟩ := hfacts
  have hbuilt : proposed.2 = .ok titleProposal := by
    unfold titleProposal
    cases hres : proposed.2 with
    | error e => rw [hres] at hok; cases hok
    | ok a => rfl
  refine ⟨notesStore, 8, "notes", openRef, "set", Store.setPayload "title" (.string "plan"),
    hbuilt, proposed.1, Io.ok, bobTitles, Relation.ReflTransGen.refl, hdoc, ?_, hacc,
    Relation.ReflTransGen.refl⟩
  exact fun hsame => horigin hsame.origin_eq

/-- **A stale proposal is applied**: it names alice's `create` as the last action, and bob's write
    has come since. -/
theorem stale_proposal_applied :
    ¬ ∀ (t : Inner) (a : Action), StaleProposal t a → ∀ (cs : List CoSig) (io : Io),
      (Store.applySignedAction t io { a with cosig := cs }).2.isOk = false ∧
        (Store.applySignedAction t io { a with cosig := cs }).1.entries[a.docId]? =
          t.entries[a.docId]? := by
  intro h
  have hno := (h overtakenStore titleProposal titleProposal_stale [] Io.ok).1
  have hyes : (Store.applySignedAction overtakenStore Io.ok
      { titleProposal with cosig := [] }).2.isOk = true := by
    decide +kernel
  rw [hyes] at hno
  cases hno

/-- A stale proposal that is refused, for the co-signature of somebody unknown. -/
theorem stale_proposal_refused_stranger :
    (Store.applySignedAction overtakenStore Io.ok
      { titleProposal with cosig := [⟨"mallory", 0⟩] }).2.isOk = false ∧
    (Store.applySignedAction overtakenStore Io.ok
      { titleProposal with cosig := [⟨"mallory", 0⟩] }).1.entries[titleProposal.docId]? =
        overtakenStore.entries[titleProposal.docId]? := by
  have hno : overtakenStore.accepts { titleProposal with cosig := [⟨"mallory", 0⟩] } = false := by
    decide +kernel
  exact (stale_proposal_refused_iff titleProposal_stale [⟨"mallory", 0⟩] Io.ok).mpr
    (Inner.refuses_iff.mpr hno)

/-! ### A post that is delivered twice -/

def bobPosts : Action := post bob "hi" 20 [("alice", 1), ("bob", 1)]

/-- The sample group with a post of bob's. -/
def oncePosted : Inner :=
  (Store.fresh alice.key alice.name []).execAll (pins [bob] ++ deliver [groupInit, bobPosts])

/-- The same after alice has removed bob. -/
def bobRemoved : Inner := oncePosted.exec (.applyAction Io.ok (removeBob 30))

theorem logged_of_any {s : Inner} {a : Action}
    (h : (s.entries[a.docId]?.any fun e => decide (a ∈ e.log)) = true) : s.Logged a := by
  unfold Inner.Logged
  cases he : s.entries[a.docId]? with
  | none => rw [he] at h; cases h
  | some e =>
    rw [he] at h
    exact ⟨e, rfl, of_decide_eq_true h⟩

/-- **A second delivery is logged a second time.** -/
theorem redelivery_grows_the_log :
    ¬ ∀ (s t : Inner) (a : Action), s.Logged a → s.Later t →
      ∀ ios : List Io, (t.redeliver a ios).view a.docId = t.view a.docId := by
  intro h
  have hfacts : (oncePosted.entries[bobPosts.docId]?.any fun e =>
        decide (bobPosts ∈ e.log)) = true ∧
      (oncePosted.entryFor bobPosts.docId).log.length = 2 ∧
      ((oncePosted.redeliver bobPosts [Io.ok]).entryFor bobPosts.docId).log.length = 3 := by
    decide +kernel
  obtain ⟨hlog, hbefore, hafter⟩ := hfacts
  have hsame := h oncePosted oncePosted bobPosts
    (logged_of_any hlog) Relation.ReflTransGen.refl [Io.ok]
  rw [entryFor_congr hsame, hbefore] at hafter
  exact absurd hafter (by decide)

/-- Bob's post is refused once he is no member any more. -/
theorem redelivery_is_noop_removed_member :
    bobRemoved.Logged bobPosts ∧ ∀ ios : List Io,
      (bobRemoved.redeliver bobPosts ios).view bobPosts.docId =
        bobRemoved.view bobPosts.docId := by
  have hfacts :
      (bobRemoved.entries[bobPosts.docId]?.any fun e => decide (bobPosts ∈ e.log)) = true ∧
      bobRemoved.accepts bobPosts = false := by
    decide +kernel
  obtain ⟨hlog, hno⟩ := hfacts
  exact ⟨logged_of_any hlog, (redelivery_is_noop_iff (logged_of_any hlog)
    Relation.ReflTransGen.refl).mpr (Inner.refuses_iff.mpr hno)⟩

/-! ### Calls that fail -/

/-- A document with a field that has no name: the `create` goes through, the `set` does not. -/
def halfCreated : Call :=
  .createDoc Io.ok (fun _ => 7) docId "notes"
    ((∅ : Std.ExtTreeMap String Value).insert "" (.string "x"))

/-- **A failed call leaves half of its work behind.** -/
theorem failed_create_leaves_entry :
    ¬ ∀ (s : Inner) (c : Call), c.FreshId s → c.fails s = true → SameStore s (c.exec s) := by
  intro h
  have hfacts : (Store.fresh alice.key alice.name []).entries[docId]? = none ∧
      halfCreated.fails (Store.fresh alice.key alice.name []) = true ∧
      (halfCreated.exec (Store.fresh alice.key alice.name [])).entries[docId]?.isSome = true := by
    decide +kernel
  obtain ⟨hnew, hfails, hleft⟩ := hfacts
  have hid : halfCreated.FreshId (Store.fresh alice.key alice.name []) := hnew
  have hsame := h (Store.fresh alice.key alice.name []) halfCreated hid hfails
  rw [hsame.entries, hnew] at hleft
  cases hleft

/-- Creating a second document of one name. -/
theorem failed_call_changes_nothing_taken :
    SameStore notesStore
      (Call.exec notesStore (.createDoc Io.ok (fun _ => 9) spaceId "notes" ∅)) := by
  have hfacts : notesStore.entries[spaceId]? = none ∧
      Call.fails notesStore (.createDoc Io.ok (fun _ => 9) spaceId "notes" ∅) = true ∧
      Call.refusedEarly notesStore (.createDoc Io.ok (fun _ => 9) spaceId "notes" ∅) = true := by
    decide +kernel
  obtain ⟨hnew, hfails, hearly⟩ := hfacts
  have hid : Call.FreshId notesStore (.createDoc Io.ok (fun _ => 9) spaceId "notes" ∅) := hnew
  exact (failed_call_changes_nothing_iff hid hfails).mpr hearly

end

end PhReactor
