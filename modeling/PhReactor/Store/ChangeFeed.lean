/-
  The change feed.

  A subscriber is sent a `DocChange` with the document's full state "whenever a document's state
  changes".  A consumer that keeps the last change of each document should therefore always hold
  the store's state.  `consume` is that consumer.

  The store sends a change when the INCREMENTAL apply of an action counted or left the document
  deleted, at the very end of `applyAction`.  So it stays silent where the state moves otherwise:

  1. a re-fold can change the document although the late action itself counted for nothing
     (`feed_misses_refold`);

  2. an action that changes no field still files the document under its own model, and the first
     one of a log decides the space;

  3. a stuck re-fold and a failed snapshot return before the change is sent;

  4. a failed create, and a precondition that fails on an unknown document, leave a blank entry.

  `Hears` and `Heard` exclude these, and `change_feed_complete` says that a consumer then holds the
  store's state after every operation of every run.
-/
import PhReactor.Store.Failures
import PhReactor.Store.Lifetime

set_option linter.unusedSectionVars false

namespace PhReactor

section

variable [Primitives]

/-! ## The consumer -/

/-- The full state of a document: its fields and name, the deleted flag, its model and space. -/
structure FullState where
  doc : Doc
  deleted : Bool
  model : ModelRef
  space : Option DocId
  deriving DecidableEq

def Entry.full (e : Entry) : FullState := ⟨e.doc, e.deleted, e.model, e.space⟩

/-- The full state of every document. -/
def Inner.full (s : Inner) (d : DocId) : Option FullState := s.entries[d]?.map Entry.full

/-- What a change says. -/
def DocChange.full (c : DocChange) : FullState :=
  ⟨c.state.doc, c.state.deleted, c.state.model, c.state.space⟩

/-- A consumer that keeps the last change of each document. -/
def consume (view : DocId → Option FullState) (l : List DocChange) : DocId → Option FullState :=
  l.foldl (fun view c => Function.update view c.docId (some c.full)) view

theorem consume_append (view : DocId → Option FullState) (l l' : List DocChange) :
    consume view (l ++ l') = consume (consume view l) l' := List.foldl_append

/-- From `s` to `t` every subscriber of `s` was sent `l`, and a consumer that held the state of `s`
    holds the state of `t`. -/
structure Relays (s t : Inner) (l : List DocChange) : Prop where
  sent : ∃ rest, t.subscribers = (s.subscribers.map fun sent => sent ++ l) ++ rest
  told : consume s.full l = t.full

theorem Relays.refl (s : Inner) : Relays s s [] :=
  ⟨⟨[], by simp⟩, rfl⟩

theorem Relays.trans {s t u : Inner} {l l' : List DocChange} (h : Relays s t l)
    (h' : Relays t u l') : Relays s u (l ++ l') := by
  obtain ⟨rest, hsent⟩ := h.sent
  obtain ⟨rest', hsent'⟩ := h'.sent
  refine ⟨⟨rest.map (fun sent => sent ++ l') ++ rest', ?_⟩, ?_⟩
  · rw [hsent', hsent]
    simp
  · rw [consume_append, h.told, h'.told]

/-- Nothing was sent, and no document has changed. -/
theorem Relays.still {s t : Inner} (hsent : t.subscribers = s.subscribers)
    (hfull : t.full = s.full) : Relays s t [] :=
  ⟨⟨[], by rw [hsent]; simp⟩, hfull.symm⟩

/-- One change was sent, which says what the one document that has changed is. -/
theorem Relays.one {s t : Inner} {c : DocChange}
    (hsent : t.subscribers = s.subscribers.map fun sent => sent ++ [c])
    (hfull : t.full c.docId = some c.full) (hrest : ∀ d, d ≠ c.docId → t.full d = s.full d) :
    Relays s t [c] := by
  refine ⟨⟨[], by rw [hsent, List.append_nil]⟩, ?_⟩
  funext d
  show Function.update s.full c.docId (some c.full) d = t.full d
  by_cases hd : d = c.docId
  · rw [hd, Function.update_self, hfull]
  · rw [Function.update_of_ne hd, hrest d hd]

/-! ## What one action sends -/

/-- The incremental apply of the action leaves the document deleted. -/
def Inner.leavesDeleted (s : Inner) (a : Action) : Bool :=
  (s.models.find a.model).any fun m => (appended (s.entryFor a.docId) m a).deleted

/-- The action's change is sent: it is accepted, nothing goes wrong after that, and it counted or
    left the document deleted. -/
def Inner.Announces (s : Inner) (io : Io) (a : Action) : Prop :=
  s.accepts a = true ∧ s.Finishes io a ∧
    (changes s.models (s.entryFor a.docId) a || s.leavesDeleted a) = true

/-- The action leaves the full state of its document alone: it counts for nothing, carries the
    document's model and (in an empty log) its space, and nothing is re-folded. -/
structure Inner.Silent (s : Inner) (a : Action) : Prop where
  here : s.entries[a.docId]?.isSome = true
  counts : changes s.models (s.entryFor a.docId) a = false
  model : a.model = (s.entryFor a.docId).model
  space : (s.entryFor a.docId).log = [] → a.space = (s.entryFor a.docId).space
  unmoved : s.outOfOrder a = false ∨ s.refoldStuck a = true

/-- An action after which a consumer still holds the state: turned away, announced, or accepted in
    silence. -/
def Inner.Hears (s : Inner) (io : Io) (a : Action) : Prop :=
  s.turnsAway a = true ∨ s.Announces io a ∨ (s.accepts a = true ∧ s.Silent a)

/-- The change that is sent for the entry `e`. -/
def changeOf (id : DocId) (e : Entry) (ts : U64) (action : Option Action) : DocChange :=
  let delta := (action.map fun a => Inner.changedField a.payload).getD (none, none)
  { docId := id
    name := e.doc.name
    model := e.model
    deleted := e.deleted
    state := {
      doc := e.doc
      clock := e.clock
      deleted := e.deleted
      logHash := e.log.getLast?.map Action.hash
      model := e.model
      space := e.space }
    ts
    actionKind := action.map Action.kind
    actionField := delta.1
    actionValue := delta.2 }

theorem emitChange_eq {s : Inner} {id : DocId} {e : Entry} (he : s.entries[id]? = some e)
    (ts : U64) (action : Option Action) :
    s.emitChange id ts action = { s with
      subscribers := s.subscribers.map fun sent => sent ++ [changeOf id e ts action] } := by
  unfold Inner.emitChange
  rw [he]
  rfl

theorem subscribers_snapshot (s : Inner) (io : Io) (id : DocId) :
    (s.snapshot io id).1.subscribers = s.subscribers := by
  unfold Inner.snapshot
  repeat' split
  all_goals rfl

theorem subscribers_indexName (s : Inner) (id : DocId) :
    (s.indexName id).subscribers = s.subscribers := by
  unfold Inner.indexName
  repeat' split
  all_goals rfl

theorem leavesDeleted_eq {s : Inner} {a : Action} {m : Model} (hacc : s.Accepted a m) :
    s.leavesDeleted a = (appended (s.entryFor a.docId) m a).deleted := by
  unfold Inner.leavesDeleted
  rw [hacc.model]
  rfl

theorem full_of_view {s t : Inner} {d : DocId} (h : t.view d = s.view d) : t.full d = s.full d := by
  unfold Inner.full
  rw [show t.entries[d]? = s.entries[d]? from congrArg View.entry h]

/-- **An announced action**: one change goes to every subscriber, and it says what the action's
    document is now; no other document has moved. -/
theorem announced_spec {s : Inner} {io : Io} {a : Action} (h : s.Announces io a) :
    ∃ c : DocChange, c.docId = a.docId ∧
      (s.applyAction io a).1.subscribers = (s.subscribers.map fun sent => sent ++ [c]) ∧
      (s.applyAction io a).1.full c.docId = some c.full ∧
      ∀ d, d ≠ a.docId → (s.applyAction io a).1.full d = s.full d := by
  obtain ⟨hacc, ⟨hstuck, hdue⟩, hflag⟩ := h
  obtain ⟨m, hacc⟩ := Inner.accepts_iff.mp hacc
  have hothers : ∀ d, d ≠ a.docId → (s.applyAction io a).1.full d = s.full d := fun d hd =>
    full_of_view (view_applyAction_ne s io hd)
  rw [leavesDeleted_eq hacc] at hflag
  -- the state after the steps that are not seen from outside
  rcases Inner.finishApply_cases (s.putEntry a.docId (s.settled a m)) io a
    (changes s.models (s.entryFor a.docId) a) (appended (s.entryFor a.docId) m a).deleted with
    ⟨-, hno⟩ | ⟨-, heq⟩
  · exact absurd ((recorded_settled io _).mpr hdue) hno
  · rw [← Inner.applyAction_settled hacc hstuck, if_pos hflag] at heq
    generalize hu : ((s.putEntry a.docId (s.settled a m)).recorded io a
      (changes s.models (s.entryFor a.docId) a)).1.indexName a.docId = u at heq
    have hsubs : u.subscribers = s.subscribers := by
      rw [← hu, subscribers_indexName, (recorded_frame _ io a _).2]
      rfl
    have hview : u.view a.docId =
        View.finish { s.view a.docId with entry := some (s.settled a m) } io a := by
      rw [← hu, Inner.view_indexName, Inner.view_recorded, if_pos rfl, Inner.view_putEntry,
        if_pos rfl]
    obtain ⟨log, hentry⟩ := View.entry_finish
      (show View.entry { s.view a.docId with entry := some (s.settled a m) } = _ from rfl) io a
    rw [← hview] at hentry
    have he : u.entries[a.docId]? = some { s.settled a m with log := log } := hentry
    rw [emitChange_eq he] at heq
    refine ⟨changeOf a.docId { s.settled a m with log := log } a.ts (some a), rfl, ?_, ?_,
      hothers⟩
    · rw [heq, hsubs]
    · rw [heq]
      show u.entries[a.docId]?.map Entry.full = _
      rw [he]
      rfl

/-- The entry that a silent action leaves has the full state it had. -/
theorem full_appended {s : Inner} {a : Action} {m : Model} (hacc : s.Accepted a m)
    (hl : Lifted (s.entryFor a.docId).doc) (h : s.Silent a) :
    (appended (s.entryFor a.docId) m a).full = (s.entryFor a.docId).full := by
  have hsame := sameDoc_stamped (s.entryFor a.docId) a
  have hcounts : (applyOpsToEntry (if (s.entryFor a.docId).log.isEmpty then
      { s.entryFor a.docId with space := a.space } else s.entryFor a.docId) m a).2.1 = false := by
    rw [changes_eq hacc.model, h.counts]
  have hdoc := (sameDoc_of_not_applied (by rw [hsame.doc]; exact hl) hcounts).trans hsame
  have hspace : (appended (s.entryFor a.docId) m a).space = (s.entryFor a.docId).space := by
    unfold appended
    dsimp only
    rw [space_applyOpsToEntry]
    split
    · next hempty => exact h.space (List.isEmpty_iff.mp hempty)
    · rfl
  unfold Entry.full
  rw [show (appended (s.entryFor a.docId) m a).doc = (s.entryFor a.docId).doc from hdoc.doc,
    show (appended (s.entryFor a.docId) m a).deleted = (s.entryFor a.docId).deleted from
      hdoc.deleted, hspace]
  exact congrArg (FullState.mk _ _ · _) h.model

/-- **An action accepted in silence**, and not announced: nothing is sent, and no full state has
    moved. -/
theorem silent_spec {s : Inner} {io : Io} {a : Action} (hl : Lifted (s.entryFor a.docId).doc)
    (hacc : s.accepts a = true) (h : s.Silent a) (hno : ¬ s.Announces io a) :
    (s.applyAction io a).1.subscribers = s.subscribers ∧
      (s.applyAction io a).1.full = s.full := by
  have hacc' := hacc
  obtain ⟨m, hacc⟩ := Inner.accepts_iff.mp hacc
  obtain ⟨e, he⟩ := Option.isSome_iff_exists.mp h.here
  have hfull := full_appended hacc hl h
  -- it is enough to look at the action's own document
  suffices hown : (s.applyAction io a).1.subscribers = s.subscribers ∧
      (s.applyAction io a).1.full a.docId = some (appended (s.entryFor a.docId) m a).full by
    refine ⟨hown.1, ?_⟩
    funext d
    by_cases hd : d = a.docId
    · rw [hd, hown.2, hfull, entryFor_eq he]
      unfold Inner.full
      rw [he]
      rfl
    · exact full_of_view (view_applyAction_ne s io hd)
  cases hstuck : s.refoldStuck a with
  | true =>
    obtain ⟨msg, heq⟩ := Inner.applyAction_stuck hacc hstuck io
    rw [heq]
    refine ⟨rfl, ?_⟩
    unfold Inner.full
    simp [Inner.putEntry]
  | false =>
    have hord : s.outOfOrder a = false := by
      rcases h.unmoved with hord | hstuck'
      · exact hord
      · rw [hstuck] at hstuck'
        cases hstuck'
    have hset := Inner.settled_of_inOrder hord m
    constructor
    · rw [Inner.applyAction_settled hacc hstuck]
      rcases Inner.finishApply_cases (s.putEntry a.docId (s.settled a m)) io a
        (changes s.models (s.entryFor a.docId) a) (appended (s.entryFor a.docId) m a).deleted with
        ⟨⟨msg, heq⟩, -⟩ | ⟨hok, heq⟩
      · rw [heq, (recorded_frame _ io a _).2]
        rfl
      · have hflag : ¬ (changes s.models (s.entryFor a.docId) a ||
            (appended (s.entryFor a.docId) m a).deleted) = true := by
          intro hflag
          rw [← leavesDeleted_eq hacc] at hflag
          exact hno ⟨hacc', ⟨hstuck, (recorded_settled io _).mp hok⟩, hflag⟩
        rw [heq, if_neg hflag]
        show (Inner.indexName _ _).subscribers = _
        rw [subscribers_indexName, (recorded_frame _ io a _).2]
        rfl
    · obtain ⟨log, hentry⟩ := View.entry_finish
        (show View.entry { s.view a.docId with entry := some (s.settled a m) } = _ from rfl) io a
      rw [← view_applyAction_settled hacc hstuck io] at hentry
      unfold Inner.full
      rw [show (s.applyAction io a).1.entries[a.docId]? = _ from hentry, hset]
      rfl

/-- **Step lemma**: an action that meets the condition is relayed. -/
theorem relays_applyAction {s : Inner} {io : Io} {a : Action}
    (hl : Lifted (s.entryFor a.docId).doc) (h : s.Hears io a) :
    ∃ l, Relays s (s.exec (.applyAction io a)) l := by
  by_cases hann : s.Announces io a
  · obtain ⟨c, hid, hsent, hfull, hrest⟩ := announced_spec hann
    exact ⟨[c], Relays.one hsent hfull (by rw [hid]; exact hrest)⟩
  · refine ⟨[], ?_⟩
    rcases h with haway | hann' | ⟨hacc, hsilent⟩
    · obtain ⟨hno, hwhy⟩ := turnsAway_iff.mp haway
      obtain ⟨msg, ⟨heq, -⟩ | ⟨-, ⟨m, hscreen⟩, hnone⟩⟩ := Inner.applyAction_refused hno io
      · have hstep : s.exec (.applyAction io a) = { s with quarantined := s.quarantined + 1 } := by
          show (s.applyAction io a).1 = _
          rw [heq]
        rw [hstep]
        exact Relays.still rfl rfl
      · rcases hwhy with ⟨r, herr⟩ | hhere
        · rw [hscreen] at herr
          cases herr
        · rw [hnone] at hhere
          cases hhere
    · exact absurd hann' hann
    · obtain ⟨hsent, hfull⟩ := silent_spec hl hacc hsilent hann
      exact Relays.still hsent hfull

/-! ## What an operation sends -/

/-- An event that moves no document, or sends what it does. -/
def Event.plain : Event → Bool
  | .applyAction .. | .newEntry .. => false
  | _ => true

theorem relays_plain (s : Inner) {ev : Event} (h : ev.plain = true) :
    ∃ l, Relays s (s.exec ev) l := by
  cases ev with
  | applyAction io a => cases h
  | newEntry id sp => cases h
  | nextTs now => exact ⟨[], Relays.still rfl rfl⟩
  | bindName name id => exact ⟨[], Relays.still rfl rfl⟩
  | addModel m => exact ⟨[], Relays.still rfl rfl⟩
  | drainOutbound => exact ⟨[], Relays.still rfl rfl⟩
  | connectOutbound => exact ⟨[], Relays.still rfl rfl⟩
  | subscribeChanges => exact ⟨[], ⟨[[]], by simp [Inner.exec, Store.subscribeChanges]⟩, rfl⟩
  | registerPeerKey o k =>
    refine ⟨[], Relays.still ?_ (funext fun d => full_of_view (s.view_registerPeerKey o k d))⟩
    show (Store.registerPeerKey s o k).1.subscribers = _
    unfold Store.registerPeerKey
    repeat' split
    all_goals rfl
  | snapshot io id =>
    refine ⟨[], Relays.still (subscribers_snapshot s io id) (funext fun d => ?_)⟩
    show ((s.snapshot io id).1.view d).entry.map Entry.full = s.full d
    rw [Inner.view_snapshot]
    split
    · obtain ⟨l, hl⟩ := (s.view d).entry_snapshot io
      rw [hl, Option.map_map]
      rfl
    · rfl
  | adoptState st =>
    have he : (s.putEntry st.doc.id (adopted (s.entryFor st.doc.id) st)).entries[st.doc.id]? =
        some (adopted (s.entryFor st.doc.id) st) := by simp [Inner.putEntry]
    have heq : s.exec (.adoptState st) = _ := emitChange_eq he s.tsHint none
    refine ⟨[changeOf st.doc.id (adopted (s.entryFor st.doc.id) st) s.tsHint none], ?_⟩
    rw [heq]
    refine Relays.one rfl ?_ fun d hd => ?_
    · show (s.putEntry st.doc.id _).entries[st.doc.id]?.map Entry.full = _
      rw [he]
      rfl
    · refine full_of_view (t := s.putEntry st.doc.id (adopted (s.entryFor st.doc.id) st)) ?_
      rw [Inner.view_putEntry, if_neg (show ¬ d = st.doc.id from hd)]

/-- The events of an operation after which a consumer still holds the state.  A blank entry is only
    created for an action that is announced. -/
inductive Heard : Inner → List Event → Prop
  | nil (s : Inner) : Heard s []
  | plain {s : Inner} {ev : Event} {evs : List Event} (h : ev.plain = true)
    (rest : Heard (s.exec ev) evs) : Heard s (ev :: evs)
  | apply {s : Inner} {io : Io} {a : Action} {evs : List Event} (h : s.Hears io a)
    (rest : Heard (s.exec (.applyAction io a)) evs) : Heard s (.applyAction io a :: evs)
  | create {s : Inner} {id : DocId} {sp : Option DocId} {now : U64} {io : Io} {a : Action}
    {evs : List Event} (hnew : s.entries[id]? = none) (hid : a.docId = id)
    (h : ((s.exec (.newEntry id sp)).exec (.nextTs now)).Announces io a)
    (rest : Heard (((s.exec (.newEntry id sp)).exec (.nextTs now)).exec (.applyAction io a)) evs) :
    Heard s (.newEntry id sp :: .nextTs now :: .applyAction io a :: evs)

/-- The announcement of its first action makes a created document known. -/
theorem relays_create {s : Inner} {id : DocId} {sp : Option DocId} {now : U64} {io : Io}
    {a : Action} (hid : a.docId = id)
    (h : ((s.exec (.newEntry id sp)).exec (.nextTs now)).Announces io a) :
    ∃ l, Relays s (((s.exec (.newEntry id sp)).exec (.nextTs now)).exec (.applyAction io a)) l := by
  obtain ⟨c, hc, hsent, hfull, hrest⟩ := announced_spec h
  refine ⟨[c], Relays.one hsent hfull fun d hd => ?_⟩
  rw [hc] at hd
  refine (hrest d hd).trans (full_of_view ?_)
  show (s.putEntry id _).view d = s.view d
  rw [Inner.view_putEntry, if_neg (by rw [← hid]; exact hd)]

/-- In every document the name is lifted. -/
def AllLifted (s : Inner) : Prop := ∀ d, Lifted (s.entryFor d).doc

theorem allLifted_exec {s : Inner} {ev : Event} (hen : ev.Enabled s) (h : AllLifted s) :
    AllLifted (s.exec ev) := fun d => lifted_happen (h := .event ev) hen (h d)

theorem enabled_of_plain {s : Inner} {ev : Event} (h : ev.plain = true) : ev.Enabled s := by
  cases ev with
  | newEntry id sp => cases h
  | _ => trivial

/-- **An operation that meets the condition is relayed.** -/
theorem relays_heard {s : Inner} {evs : List Event} (h : Heard s evs) (hl : AllLifted s) :
    AllLifted (s.execAll evs) ∧ ∃ l, Relays s (s.execAll evs) l := by
  induction h with
  | nil s => exact ⟨hl, [], Relays.refl s⟩
  | plain hp _ ih =>
    obtain ⟨l, hstep⟩ := relays_plain _ hp
    obtain ⟨hl', l', hrest⟩ := ih (allLifted_exec (enabled_of_plain hp) hl)
    exact ⟨hl', l ++ l', hstep.trans hrest⟩
  | apply hh _ ih =>
    obtain ⟨l, hstep⟩ := relays_applyAction (hl _) hh
    obtain ⟨hl', l', hrest⟩ := ih (allLifted_exec trivial hl)
    exact ⟨hl', l ++ l', hstep.trans hrest⟩
  | create hnew hid hh _ ih =>
    obtain ⟨l, hstep⟩ := relays_create hid hh
    obtain ⟨hl', l', hrest⟩ :=
      ih (allLifted_exec trivial (allLifted_exec trivial (allLifted_exec hnew hl)))
    exact ⟨hl', l ++ l', hstep.trans hrest⟩

/-! ## Whole runs -/

/-- Operations one after the other, each meeting `P`. -/
inductive CallRun (P : Inner → Call → Prop) (s₀ : Inner) : Inner → Prop
  | start : CallRun P s₀ s₀
  | call {s : Inner} (h : CallRun P s₀ s) (c : Call) (hP : P s c) : CallRun P s₀ (c.exec s)

theorem relays_run {s₀ s : Inner} (hl : AllLifted s₀)
    (h : CallRun (fun s c => Heard s (c.events s)) s₀ s) :
    AllLifted s ∧ ∃ l, Relays s₀ s l := by
  induction h with
  | start => exact ⟨hl, [], Relays.refl s₀⟩
  | call _ c hP ih =>
    obtain ⟨hl', l, hrun⟩ := ih
    obtain ⟨hl'', l', hstep⟩ := relays_heard hP hl'
    rw [Call.exec_eq]
    exact ⟨hl'', l ++ l', hrun.trans hstep⟩

/-- **The change feed is complete.**  From any state a store can be in, and after any operations
    that meet the condition: every subscriber there was at the start has been sent the same changes
    `l`, and whoever keeps the last change of each document holds the store's state. -/
theorem change_feed_complete {key : SigningKey} {origin : Origin} {extra : List Model}
    {s₀ : Inner} {acc : List Action}
    (hlife : Lifetime (fun _ _ _ => True) (Store.fresh key origin extra) s₀ acc) {s : Inner}
    (h : CallRun (fun s c => Heard s (c.events s)) s₀ s) :
    ∃ l : List DocChange,
      (∀ (i : ℕ) (sent : List DocChange), s₀.subscribers[i]? = some sent →
        s.subscribers[i]? = some (sent ++ l)) ∧
      ∀ d, consume s₀.full l d = s.full d := by
  obtain ⟨-, l, ⟨rest, hsent⟩, htold⟩ := relays_run (fun d => lifted_lifetime hlife d) h
  refine ⟨l, fun i sent hi => ?_, fun d => congrFun htold d⟩
  obtain ⟨hlt, -⟩ := List.getElem?_eq_some_iff.mp hi
  rw [hsent, List.getElem?_append_left (by rw [List.length_map]; exact hlt), List.getElem?_map, hi]
  rfl

end

section

open Sample

attribute [local instance] Sample.primitives

/-! ### Two posts in the wrong order -/

/-- Alice's two posts, one after the other. -/
def earlyPost : Action := post alice "one" 20 [("alice", 2)]

def latePost : Action := post alice "two" 21 [("alice", 3)]

/-- Bob's node with the sample group, and a subscriber. -/
def watchedStore : Inner :=
  (Store.fresh bob.key bob.name []).execAll
    (pins [alice] ++ deliver [groupInit] ++ [.subscribeChanges])

/-- The subscriber has been sent nothing yet. -/
theorem watchedStore_sent : watchedStore.subscribers[0]? = some [] := by
  have hfacts : (watchedStore.subscribers[0]?.map List.isEmpty) = some true := by
    decide +kernel
  obtain ⟨sent, hsent, hnil⟩ := Option.map_eq_some_iff.mp hfacts
  rw [hsent, List.isEmpty_iff.mp hnil]

theorem watchedStore_life : ∃ acc,
    Lifetime (fun _ _ _ => True) (Store.fresh bob.key bob.name []) watchedStore acc := by
  have hstart : Lifetime (fun _ _ _ => True) (Store.fresh bob.key bob.name []) _ _ := .start
  have h := Lifetime.happenAll
    [.event (.registerPeerKey alice.name alice.key), .event (.applyAction Io.ok groupInit),
      .event .subscribeChanges] hstart (fun h hh s acc => by
        simp only [List.mem_cons, List.not_mem_nil, or_false] at hh
        rcases hh with rfl | rfl | rfl <;> exact ⟨trivial, trivial⟩)
  exact ⟨_, h⟩

/-- **The feed misses what a re-fold changes**: the second post arrives first; the first one counts
    for nothing on arrival, the re-fold puts it in its place, and no change is sent. -/
theorem feed_misses_refold :
    ¬ ∀ (s₀ : Inner) (acc : List Action),
      Lifetime (fun _ _ _ => True) (Store.fresh bob.key bob.name []) s₀ acc →
      ∀ s : Inner, CallRun (fun s c => c.FreshId s) s₀ s →
        ∃ l : List DocChange,
          (∀ (i : ℕ) (sent : List DocChange), s₀.subscribers[i]? = some sent →
            s.subscribers[i]? = some (sent ++ l)) ∧
          ∀ d, consume s₀.full l d = s.full d := by
  intro h
  obtain ⟨acc, hlife⟩ := watchedStore_life
  have hrun : CallRun (fun s c => c.FreshId s) watchedStore
      (Call.exec (Call.exec watchedStore (.applyRemoteAction Io.ok latePost))
        (.applyRemoteAction Io.ok earlyPost)) :=
    (CallRun.start.call (.applyRemoteAction Io.ok latePost) trivial).call
      (.applyRemoteAction Io.ok earlyPost) trivial
  obtain ⟨l, hsent, htold⟩ := h _ _ hlife _ hrun
  have hdiffer : ((Call.exec (Call.exec watchedStore (.applyRemoteAction Io.ok latePost))
        (.applyRemoteAction Io.ok earlyPost)).subscribers[0]?.map fun sent =>
          consume watchedStore.full sent docId) ≠
      some ((Call.exec (Call.exec watchedStore (.applyRemoteAction Io.ok latePost))
        (.applyRemoteAction Io.ok earlyPost)).full docId) := by
    decide +kernel
  refine hdiffer ?_
  rw [hsent 0 [] watchedStore_sent, Option.map_some, List.nil_append, htold docId]

/-- In order, the post is announced. -/
theorem change_feed_complete_posts :
    ∃ l : List DocChange,
      ((Call.exec watchedStore (.applyRemoteAction Io.ok earlyPost)).subscribers[0]? = some l) ∧
      consume watchedStore.full l docId =
        (Call.exec watchedStore (.applyRemoteAction Io.ok earlyPost)).full docId := by
  obtain ⟨acc, hlife⟩ := watchedStore_life
  have hfacts : watchedStore.accepts earlyPost = true ∧
      watchedStore.Finishes Io.ok earlyPost ∧
      (changes watchedStore.models (watchedStore.entryFor earlyPost.docId) earlyPost ||
        watchedStore.leavesDeleted earlyPost) = true := by
    decide +kernel
  obtain ⟨hacc, hfin, hflag⟩ := hfacts
  have hheard : Heard watchedStore [.applyAction Io.ok earlyPost] :=
    .apply (Or.inr (Or.inl ⟨hacc, hfin, hflag⟩)) (.nil _)
  obtain ⟨l, hsent, htold⟩ := change_feed_complete hlife
    (CallRun.start.call (.applyRemoteAction Io.ok earlyPost) hheard)
  exact ⟨l, hsent 0 [] watchedStore_sent, htold docId⟩

end

end PhReactor
