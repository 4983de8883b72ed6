/-
  What one call of `applyAction` can do.

  1. `screen_ok` opens the chain of checks; `Accepted s a m` is "every check passed, under the
     model `m`".

  2. `settled s a m` is the entry an accepted action leaves: appended when it arrives in canonical
     order, re-folded when it does not.  `applyAction_cases` says that a call either changes no
     document, leaves a fresh entry behind (a failed precondition on an unknown document), or
     settles its document; the only other outcome is a re-fold that cannot find a model.

  3. The steps after the fold (WAL, outbound, snapshot, name index, change feed) touch the entries
     in ONE way: a snapshot clears the live log of the action's own document
     (`entries_finishApply`).
-/
import PhReactor.Store.Fold

set_option linter.unusedSectionVars false

namespace PhReactor

variable [Primitives]

/-! ## The checks -/

/-- Everything `screen` checks. -/
structure Inner.Admits (s : Inner) (a : Action) (m : Model) : Prop where
  signatures : s.checkSignatures a = .ok ()
  model : s.models.find a.model = some m
  payload : m.validatePayload a.kind a.payload = .ok ()
  quorum : s.checkQuorum m a = .ok ()
  authorize : s.checkAuthorize m a = .ok ()
  spaceMember : s.checkSpaceMember m a = .ok ()
  spaceBinding : s.checkSpaceBinding a = .ok ()

theorem mapError_eq_ok {ε ε' α : Type} {f : ε → ε'} {x : Except ε α} {v : α} :
    x.mapError f = .ok v ↔ x = .ok v := by
  cases x <;> simp [Except.mapError]

theorem bind_eq_ok {ε α β : Type} {x : Except ε α} {f : α → Except ε β} {v : β} :
    (x >>= f) = .ok v ↔ ∃ u, x = .ok u ∧ f u = .ok v := by
  cases x with
  | error e =>
    constructor
    · intro h; cases h
    · rintro ⟨_, h, _⟩; cases h
  | ok u =>
    constructor
    · intro h; exact ⟨u, rfl, h⟩
    · rintro ⟨_, h, h'⟩; cases h; exact h'

theorem forM_eq_ok {α ε : Type} {f : α → Except ε Unit} : ∀ {l : List α},
    l.forM f = .ok () → ∀ x ∈ l, f x = .ok ()
  | [], _, x, hx => absurd hx List.not_mem_nil
  | y :: l, h, x, hx => by
    have h : (f y >>= fun _ => l.forM f) = .ok () := h
    obtain ⟨⟨⟩, hy, hl⟩ := bind_eq_ok.mp h
    rcases List.mem_cons.mp hx with rfl | hx
    · exact hy
    · exact forM_eq_ok hl x hx

theorem Inner.screen_ok {s : Inner} {a : Action} {m : Model} :
    s.screen a = .ok m ↔ s.Admits a m := by
  unfold Inner.screen
  simp only [bind_eq_ok, mapError_eq_ok]
  constructor
  · rintro ⟨⟨⟩, hsig, m', hm, ⟨⟩, hpay, ⟨⟩, hq, ⟨⟩, hauth, ⟨⟩, hsm, ⟨⟩, hsb, hret⟩
    obtain rfl : m' = m := by injection hret
    refine ⟨hsig, ?_, hpay, hq, hauth, hsm, hsb⟩
    unfold Inner.resolveModel at hm
    split at hm
    · next h => rw [h]; injection hm with hm; rw [hm]
    · cases hm
  · rintro ⟨hsig, hm, hpay, hq, hauth, hsm, hsb⟩
    refine ⟨(), hsig, m, ?_, (), hpay, (), hq, (), hauth, (), hsm, (), hsb, rfl⟩
    unfold Inner.resolveModel
    rw [hm]

/-- The entry an action meets. -/
def Inner.entryFor (s : Inner) (id : DocId) : Entry := s.entries[id]?.getD (Entry.new id)

theorem entryFor_eq {s : Inner} {d : DocId} {e : Entry} (h : s.entries[d]? = some e) :
    s.entryFor d = e := by
  unfold Inner.entryFor
  rw [h]
  rfl

theorem entryFor_of_none {s : Inner} {d : DocId} (h : s.entries[d]? = none) :
    s.entryFor d = Entry.new d := by
  unfold Inner.entryFor
  rw [h]
  rfl

/-- Every check of `applyAction` passes, under the model `m`. -/
structure Inner.Accepted (s : Inner) (a : Action) (m : Model) : Prop extends s.Admits a m where
  precondition : m.checkPrecondition (s.entryFor a.docId).doc a = .ok ()

/-- Does the store accept the action. -/
def Inner.accepts (s : Inner) (a : Action) : Bool :=
  match s.screen a with
  | .error _ => false
  | .ok m => (m.checkPrecondition (s.entryFor a.docId).doc a).isOk

theorem Inner.accepts_iff {s : Inner} {a : Action} :
    s.accepts a = true ↔ ∃ m, s.Accepted a m := by
  unfold Inner.accepts
  constructor
  · intro h
    cases hscreen : s.screen a with
    | error r => rw [hscreen] at h; cases h
    | ok m =>
      rw [hscreen] at h
      refine ⟨m, Inner.screen_ok.mp hscreen, ?_⟩
      cases hpre : m.checkPrecondition (s.entryFor a.docId).doc a with
      | error r => dsimp only at h; rw [hpre] at h; cases h
      | ok u => rfl
  · rintro ⟨m, hacc⟩
    rw [Inner.screen_ok.mpr hacc.toAdmits]
    dsimp only
    rw [hacc.precondition]
    rfl

/-- On the entry it meets, an accepted action is authorized: a document that is not loaded has no
    field that could withhold the authorization. -/
theorem Inner.Accepted.authorize_entryFor {s : Inner} {a : Action} {m : Model}
    (h : s.Accepted a m) : m.authorize (s.entryFor a.docId).doc a = .ok () := by
  have hauth := h.authorize
  unfold Inner.checkAuthorize at hauth
  cases he : s.entries[a.docId]? with
  | none => rw [entryFor_of_none he]; exact m.authorize_of_fields_empty rfl a
  | some e =>
    rw [entryFor_eq he]
    rw [he] at hauth
    exact mapError_eq_ok.mp hauth

/-! ## The fold of an accepted action -/

/-- Step 4 on the entry the action meets. -/
def appended (e : Entry) (m : Model) (a : Action) : Entry :=
  { (applyOpsToEntry (if e.log.isEmpty then { e with space := a.space } else e) m a).1 with
    model := a.model
    log := e.log ++ [a] }

/-- What `refold` makes of the entry `e` of `id`. -/
def Inner.refolded (s : Inner) (id : DocId) (e : Entry) : Entry :=
  let log := sortLog e.log
  let base := s.baseEntry id
  let base :=
    if base.space.isNone then { base with space := log.head?.bind Action.space } else base
  { log.foldl (foldStep s.models) base with clock := e.clock, log := log }

/-- The entry an accepted action leaves, before any snapshot. -/
def Inner.settled (s : Inner) (a : Action) (m : Model) : Entry :=
  let e := appended (s.entryFor a.docId) m a
  if s.outOfOrder a then s.refolded a.docId e else e

theorem Inner.settled_of_inOrder {s : Inner} {a : Action} (h : s.outOfOrder a = false)
    (m : Model) : s.settled a m = appended (s.entryFor a.docId) m a := by
  unfold Inner.settled
  rw [h]
  rfl

theorem Inner.settled_of_outOfOrder {s : Inner} {a : Action} (h : s.outOfOrder a = true)
    (m : Model) : s.settled a m = s.refolded a.docId (appended (s.entryFor a.docId) m a) := by
  unfold Inner.settled
  rw [h]
  rfl

/-- The actions of a settled entry: the old ones and the new one. -/
theorem mem_settled_log {s : Inner} {a : Action} {m : Model} {b : Action} :
    b ∈ (s.settled a m).log ↔ b ∈ (s.entryFor a.docId).log ∨ b = a := by
  have happ : b ∈ (appended (s.entryFor a.docId) m a).log ↔
      b ∈ (s.entryFor a.docId).log ∨ b = a := by
    show b ∈ (s.entryFor a.docId).log ++ [a] ↔ _
    rw [List.mem_append, List.mem_singleton]
  unfold Inner.settled
  cases s.outOfOrder a with
  | false => exact happ
  | true => exact mem_sortLog.trans happ

/-- Every model of the log is loaded. -/
def ModelRegistry.Resolves (r : ModelRegistry) (log : List Action) : Prop :=
  ∀ a ∈ log, (r.find a.model).isSome

namespace ModelRegistry.Resolves

variable {r r' : ModelRegistry} {log log' : List Action}

theorem nil : r.Resolves [] := fun _ ha => absurd ha List.not_mem_nil

theorem append (h : r.Resolves log) (h' : r.Resolves log') : r.Resolves (log ++ log') :=
  List.forall_mem_append.mpr ⟨h, h'⟩

theorem concat (h : r.Resolves log) {a : Action} {m : Model} (hm : r.find a.model = some m) :
    r.Resolves (log ++ [a]) := by
  refine h.append (List.forall_mem_singleton.mpr ?_)
  rw [hm]
  rfl

/-- Only the models of the log matter. -/
theorem congr (h : r.Resolves log) (hfind : ∀ a ∈ log, r'.find a.model = r.find a.model) :
    r'.Resolves log := by
  intro a ha
  rw [hfind a ha]
  exact h a ha

end ModelRegistry.Resolves

/-- The loop of `refold` over actions and their models is a fold with `foldStep`. -/
theorem foldl_zip_models {r : ModelRegistry} : ∀ (log : List Action) (models : List Model),
    log.mapM (fun a =>
      match r.find a.model with
      | some m => Except.ok m
      | none => .error ("model " ++ a.model.name ++ " unavailable for re-fold")) = .ok models →
    ∀ e : Entry, (log.zip models).foldl (fun e (a, m) => refoldStep e a m) e =
      log.foldl (foldStep r) e
  | [], _, _, _ => by rw [List.zip_nil_left]; rfl
  | a :: log, models, h, e => by
    rw [List.mapM_cons, bind_eq_ok] at h
    obtain ⟨m, hm, h⟩ := h
    rw [bind_eq_ok] at h
    obtain ⟨rest, hrest, h⟩ := h
    obtain rfl : m :: rest = models := by injection h
    cases hf : r.find a.model with
    | none => rw [hf] at hm; cases hm
    | some m' =>
      rw [hf] at hm
      obtain rfl : m' = m := by injection hm
      rw [List.zip_cons_cons, List.foldl_cons, List.foldl_cons, foldStep_eq hf]
      exact foldl_zip_models log rest hrest _

/-- A re-fold that finds every model succeeds, and one that does not changes nothing. -/
theorem Inner.refold_cases (s : Inner) {id : DocId} {e : Entry} (he : s.entries[id]? = some e) :
    s.refold id = .ok { s with entries := s.entries.insert id (s.refolded id e) } ∨
      (∃ msg, s.refold id = .error msg) ∧ ¬ s.models.Resolves e.log := by
  unfold Inner.refold
  rw [he]
  dsimp only
  cases hm : (sortLog e.log).mapM fun a =>
      match s.models.find a.model with
      | some m => Except.ok m
      | none => .error ("model " ++ a.model.name ++ " unavailable for re-fold") with
  | ok models =>
    left
    dsimp only
    rw [foldl_zip_models _ _ hm]
    rfl
  | error msg =>
    refine Or.inr ⟨⟨msg, rfl⟩, fun hres => ?_⟩
    -- with every model loaded the loop that collects them cannot fail
    have hok : ∀ log : List Action, (∀ a ∈ log, (s.models.find a.model).isSome) →
        ∃ models, log.mapM (fun a =>
          match s.models.find a.model with
          | some m => Except.ok m
          | none => .error ("model " ++ a.model.name ++ " unavailable for re-fold")) =
            .ok models := by
      intro log
      induction log with
      | nil => intro _; exact ⟨[], rfl⟩
      | cons a log ih =>
        intro hall
        obtain ⟨rest, hrest⟩ := ih fun b hb => hall b (List.mem_cons_of_mem a hb)
        obtain ⟨m, hf⟩ := Option.isSome_iff_exists.mp (hall a List.mem_cons_self)
        refine ⟨m :: rest, ?_⟩
        rw [List.mapM_cons, hrest, hf]
        rfl
    obtain ⟨models, h⟩ := hok _ fun a ha => hres a (mem_sortLog.mp ha)
    rw [h] at hm
    cases hm

/-- The state in which `applyAction` has put `e` in the place of the action's document. -/
def Inner.putEntry (s : Inner) (id : DocId) (e : Entry) : Inner :=
  { s with entries := s.entries.insert id e }

/-- Out of order the entry is written twice, and the second write is the settled one. -/
theorem Inner.putEntry_settled {s : Inner} {a : Action} (h : s.outOfOrder a = true) (m : Model) :
    s.putEntry a.docId (s.settled a m) =
      { s.putEntry a.docId (appended (s.entryFor a.docId) m a) with
        entries := (s.entries.insert a.docId (appended (s.entryFor a.docId) m a)).insert
          a.docId (s.refolded a.docId (appended (s.entryFor a.docId) m a)) } := by
  rw [Lib.insert_insert, Inner.settled_of_outOfOrder h]
  rfl

/-- An accepted action is appended and, out of order, its document re-folded. -/
theorem Inner.applyAction_of_accepted {s : Inner} {a : Action} {m : Model} (h : s.Accepted a m)
    (io : Io) : ∃ any del, s.applyAction io a =
      if s.outOfOrder a then
        match (s.putEntry a.docId (appended (s.entryFor a.docId) m a)).refold a.docId with
        | .error e => (s.putEntry a.docId (appended (s.entryFor a.docId) m a), .error e)
        | .ok s => s.finishApply io a any del
      else (s.putEntry a.docId (appended (s.entryFor a.docId) m a)).finishApply io a any del := by
  unfold Inner.applyAction
  rw [Inner.screen_ok.mpr h.toAdmits]
  dsimp only
  rw [show s.entries[a.docId]?.getD (Entry.new a.docId) = s.entryFor a.docId from rfl,
    h.precondition]
  dsimp only
  -- the entry the fold returns, whether anything counted, and the deleted flag
  generalize hfold : applyOpsToEntry (if (s.entryFor a.docId).log.isEmpty = true
      then { s.entryFor a.docId with space := a.space } else s.entryFor a.docId) m a = p
  obtain ⟨e₁, any, del⟩ := p
  have hlog : e₁.log = (s.entryFor a.docId).log := by
    have h := congrArg (fun p : Entry × Bool × Bool => p.1.log) hfold
    rw [← h]
    dsimp only
    rw [log_applyOpsToEntry]
    split <;> rfl
  have happ : { e₁ with model := a.model, log := e₁.log ++ [a] } =
      appended (s.entryFor a.docId) m a := by
    unfold appended
    rw [hfold, hlog]
  refine ⟨any, del, ?_⟩
  dsimp only
  rw [happ]
  rfl

/-- **The outcomes of `applyAction`.** -/
theorem Inner.applyAction_cases (s : Inner) (io : Io) (a : Action) :
    (∃ reason, s.screen a = .error reason ∧ s.applyAction io a = s.reject reason) ∨
    (∃ m r, s.Admits a m ∧ m.checkPrecondition (s.entryFor a.docId).doc a = .error r ∧
      s.applyAction io a =
        ({ s.putEntry a.docId (s.entryFor a.docId) with quarantined := s.quarantined + 1 },
          .error r.describe)) ∨
    (∃ m msg, s.Accepted a m ∧ ¬ s.models.Resolves (appended (s.entryFor a.docId) m a).log ∧
      s.applyAction io a =
        (s.putEntry a.docId (appended (s.entryFor a.docId) m a), .error msg)) ∨
    (∃ m, s.Accepted a m ∧
      ∃ any del, s.applyAction io a =
        (s.putEntry a.docId (s.settled a m)).finishApply io a any del) := by
  cases hscreen : s.screen a with
  | error reason =>
    refine Or.inl ⟨reason, rfl, ?_⟩
    unfold Inner.applyAction
    rw [hscreen]
  | ok m =>
    have hadm := Inner.screen_ok.mp hscreen
    right
    cases hpre : m.checkPrecondition (s.entryFor a.docId).doc a with
    | error r =>
      refine Or.inl ⟨m, r, hadm, hpre, ?_⟩
      unfold Inner.applyAction
      rw [hscreen]
      dsimp only
      rw [show s.entries[a.docId]?.getD (Entry.new a.docId) = s.entryFor a.docId from rfl, hpre]
      rfl
    | ok u =>
      right
      have hacc : s.Accepted a m := ⟨hadm, hpre⟩
      obtain ⟨any, del, happly⟩ := Inner.applyAction_of_accepted hacc io
      rw [happly]
      cases hord : s.outOfOrder a with
      | false =>
        refine Or.inr ⟨m, hacc, any, del, ?_⟩
        rw [Inner.settled_of_inOrder hord]
        rfl
      | true =>
        rw [if_pos rfl]
        have hget : (s.putEntry a.docId (appended (s.entryFor a.docId) m a)).entries[a.docId]? =
            some (appended (s.entryFor a.docId) m a) := by simp [Inner.putEntry]
        rcases (s.putEntry a.docId (appended (s.entryFor a.docId) m a)).refold_cases hget with
          hok | ⟨⟨msg, herr⟩, hres⟩
        · refine Or.inr ⟨m, hacc, any, del, ?_⟩
          rw [hok, Inner.putEntry_settled hord]
          rfl
        · refine Or.inl ⟨m, msg, hacc, hres, ?_⟩
          rw [herr]

/-- A call that succeeds has accepted its action. -/
theorem Inner.accepted_of_isOk {s : Inner} (io : Io) {a : Action}
    (h : (s.applyAction io a).2.isOk = true) : ∃ m, s.Accepted a m := by
  rcases s.applyAction_cases io a with
    ⟨r, -, heq⟩ | ⟨m, r, -, -, heq⟩ | ⟨m, msg, -, -, heq⟩ | ⟨m, hacc, -⟩
  · rw [heq] at h; cases h
  · rw [heq] at h; cases h
  · rw [heq] at h; cases h
  · exact ⟨m, hacc⟩

/-! ## The steps after the fold -/

/-- What a store holds about one document: its entry, its snapshot and its WAL. -/
structure View where
  entry : Option Entry
  snap : Option DocState
  alog : Option (List Action)

def Inner.view (s : Inner) (d : DocId) : View :=
  ⟨s.entries[d]?, s.disk.snap[d]?, s.disk.alog[d]?⟩

theorem entryFor_congr {s t : Inner} {d : DocId} (h : t.view d = s.view d) :
    t.entryFor d = s.entryFor d := by
  unfold Inner.entryFor
  rw [show t.entries[d]? = s.entries[d]? from congrArg View.entry h]

/-- Where a fold starts is read off the snapshot. -/
theorem baseEntry_congr {s t : Inner} {d : DocId} (h : t.disk.snap[d]? = s.disk.snap[d]?) :
    t.baseEntry d = s.baseEntry d := by
  unfold Inner.baseEntry
  rw [h]

/-- The state a snapshot of the entry records. -/
def Entry.snapState (e : Entry) : DocState where
  doc := e.doc
  clock := e.clock
  deleted := e.deleted
  logHash := e.log.getLast?.map Action.hash
  model := openRef
  space := e.space

namespace View

/-- `Inner.snapshot`, on the document's own view. -/
def snapshot (v : View) (io : Io) : View :=
  match v.entry with
  | none => v
  | some e =>
    match io.snap with
    | .failed => v
    | .torn => { v with snap := none }
    | .ok =>
      ⟨some { e with log := [] }, some e.snapState, if io.truncate then some [] else v.alog⟩

/-- `Inner.persistAction`, on the document's own view. -/
def persist (v : View) (io : Io) (a : Action) : View :=
  if io.wal then { v with alog := some (v.alog.getD [] ++ [a]) } else v

/-- The live log has reached the snapshot threshold. -/
def full (v : View) : Bool := snapshotOps ≤ (v.entry.map fun e => e.log.length).getD 0

/-- WAL and automatic snapshot of an action that has been folded in. -/
def finish (v : View) (io : Io) (a : Action) : View :=
  if v.full then (v.persist io a).snapshot io else v.persist io a

end View

/-- There is nothing to snapshot of a document the store does not know. -/
theorem View.snapshot_of_none {v : View} (h : v.entry = none) (io : Io) : v.snapshot io = v := by
  unfold View.snapshot
  rw [h]

/-- A snapshot either leaves the entry alone (at worst losing the old snapshot file) or records it
    and clears its log. -/
theorem View.snapshot_cases (v : View) (io : Io) {e : Entry} (he : v.entry = some e) :
    ((v.snapshot io).entry = some e ∧ (v.snapshot io).alog = v.alog ∧
      ((v.snapshot io).snap = v.snap ∨ io.snap = .torn ∧ (v.snapshot io).snap = none)) ∨
    (io.snap = .ok ∧ v.snapshot io =
      ⟨some { e with log := [] }, some e.snapState, if io.truncate then some [] else v.alog⟩) := by
  unfold View.snapshot
  rw [he]
  dsimp only
  cases hw : io.snap with
  | ok => exact Or.inr ⟨rfl, rfl⟩
  | failed => exact Or.inl ⟨he, rfl, Or.inl rfl⟩
  | torn => exact Or.inl ⟨rfl, rfl, Or.inr ⟨rfl, rfl⟩⟩

theorem View.entry_persist (v : View) (io : Io) (a : Action) :
    (v.persist io a).entry = v.entry := by
  unfold View.persist
  split <;> rfl

theorem View.snap_persist (v : View) (io : Io) (a : Action) : (v.persist io a).snap = v.snap := by
  unfold View.persist
  split <;> rfl

/-- The same for the steps after the fold, as far as entry and snapshot go. -/
theorem View.finish_cases (v : View) (io : Io) (a : Action) {e : Entry} (he : v.entry = some e) :
    ((v.finish io a).entry = some e ∧
      ((v.finish io a).snap = v.snap ∨ io.snap = .torn ∧ (v.finish io a).snap = none)) ∨
    (io.snap = .ok ∧ (v.finish io a).entry = some { e with log := [] } ∧
      (v.finish io a).snap = some e.snapState) := by
  have hp : (v.persist io a).entry = some e := (v.entry_persist io a).trans he
  unfold View.finish
  split
  · rcases (v.persist io a).snapshot_cases io hp with ⟨hentry, -, hsnap⟩ | ⟨hok, h⟩
    · rw [View.snap_persist] at hsnap
      exact Or.inl ⟨hentry, hsnap⟩
    · rw [h]; exact Or.inr ⟨hok, rfl, rfl⟩
  · exact Or.inl ⟨hp, Or.inl (v.snap_persist io a)⟩

/-- What holds of the document of the entry and of that of the snapshot file, a snapshot keeps. -/
theorem View.docs_snapshot {Q : Doc → Prop} {v : View} (hentry : ∀ e, v.entry = some e → Q e.doc)
    (hsnap : ∀ st, v.snap = some st → Q st.doc) (io : Io) :
    (∀ e, (v.snapshot io).entry = some e → Q e.doc) ∧
      ∀ st, (v.snapshot io).snap = some st → Q st.doc := by
  cases he : v.entry with
  | none =>
    rw [v.snapshot_of_none he]
    exact ⟨hentry, hsnap⟩
  | some e =>
    rcases v.snapshot_cases io he with ⟨hsame, -, hfile⟩ | ⟨-, heq⟩
    · refine ⟨fun e' he' => hentry e' (he.trans (hsame.symm.trans he')), fun st hst => ?_⟩
      rcases hfile with hfile | ⟨-, hfile⟩
      · exact hsnap st (hfile.symm.trans hst)
      · -- a torn snapshot is no snapshot
        rw [hfile] at hst
        cases hst
    · rw [heq]
      refine ⟨fun e' he' => ?_, fun st hst => ?_⟩
      · rw [← Option.some.inj he']
        exact hentry e he
      · rw [← Option.some.inj hst]
        exact hentry e he

theorem View.docs_finish {Q : Doc → Prop} {v : View} (hentry : ∀ e, v.entry = some e → Q e.doc)
    (hsnap : ∀ st, v.snap = some st → Q st.doc) (io : Io) (a : Action) :
    (∀ e, (v.finish io a).entry = some e → Q e.doc) ∧
      ∀ st, (v.finish io a).snap = some st → Q st.doc := by
  have hentry' : ∀ e, (v.persist io a).entry = some e → Q e.doc := by
    rw [View.entry_persist]
    exact hentry
  have hsnap' : ∀ st, (v.persist io a).snap = some st → Q st.doc := by
    rw [View.snap_persist]
    exact hsnap
  unfold View.finish
  split
  · exact View.docs_snapshot hentry' hsnap' io
  · exact ⟨hentry', hsnap'⟩

/-- A snapshot touches nothing of an entry but its log. -/
theorem View.entry_snapshot (v : View) (io : Io) :
    ∃ l, (v.snapshot io).entry = v.entry.map fun e => { e with log := l } := by
  cases he : v.entry with
  | none =>
    rw [v.snapshot_of_none he]
    exact ⟨[], he⟩
  | some e =>
    rcases v.snapshot_cases io he with ⟨hsame, -⟩ | ⟨-, hclear⟩
    · exact ⟨e.log, hsame⟩
    · exact ⟨[], by rw [hclear]; rfl⟩

theorem View.entry_finish {v : View} {e : Entry} (he : v.entry = some e) (io : Io) (a : Action) :
    ∃ l, (v.finish io a).entry = some { e with log := l } := by
  rcases v.finish_cases io a he with ⟨hsame, -⟩ | ⟨-, hclear, -⟩
  · exact ⟨e.log, hsame⟩
  · exact ⟨[], hclear⟩

/-- Two states with the same identity, keys and models. -/
structure Inner.SameSetup (s t : Inner) : Prop where
  key : t.key = s.key
  origin : t.origin = s.origin
  knownKeys : t.knownKeys = s.knownKeys
  models : t.models = s.models

theorem Inner.SameSetup.trans {s t u : Inner} (h : s.SameSetup t) (h' : t.SameSetup u) :
    s.SameSetup u :=
  ⟨h'.key.trans h.key, h'.origin.trans h.origin, h'.knownKeys.trans h.knownKeys,
    h'.models.trans h.models⟩

theorem Inner.view_putEntry (s : Inner) (id : DocId) (e : Entry) (d : DocId) :
    (s.putEntry id e).view d = if d = id then { s.view d with entry := some e } else s.view d := by
  unfold Inner.view Inner.putEntry
  by_cases h : d = id
  · subst h; simp
  · simp [Std.ExtTreeMap.getElem?_insert, h, Ne.symm h]

theorem Inner.view_snapshot (s : Inner) (io : Io) (id d : DocId) :
    (s.snapshot io id).1.view d = if d = id then (s.view d).snapshot io else s.view d := by
  unfold Inner.snapshot
  by_cases h : d = id
  · subst h
    rw [if_pos rfl]
    unfold View.snapshot
    rw [show (s.view d).entry = s.entries[d]? from rfl]
    cases he : s.entries[d]? with
    | none => simp [Inner.view, he]
    | some e =>
      cases hw : io.snap with
      | failed => simp [Inner.view, he]
      | torn => simp [Inner.view, he]
      | ok =>
        cases ht : io.truncate <;> simp [Inner.view, Entry.snapState]
  · rw [if_neg h]
    cases he : s.entries[id]? with
    | none => rfl
    | some e =>
      cases hw : io.snap with
      | failed => rfl
      | torn => simp [Inner.view, Std.ExtTreeMap.getElem?_erase, Ne.symm h]
      | ok =>
        cases ht : io.truncate <;>
          simp [Inner.view, Std.ExtTreeMap.getElem?_insert, Ne.symm h]

theorem Inner.view_persistAction (s : Inner) (io : Io) (a : Action) (d : DocId) :
    (s.persistAction io a).view d = if d = a.docId then (s.view d).persist io a else s.view d := by
  unfold Inner.persistAction View.persist
  by_cases h : d = a.docId
  · subst h
    cases io.wal <;> simp [Inner.view]
  · cases io.wal <;> simp [Inner.view, Std.ExtTreeMap.getElem?_insert, h, Ne.symm h]

theorem Inner.view_publish (s : Inner) (a : Action) (d : DocId) :
    (s.publish a).view d = s.view d := by
  unfold Inner.publish
  split <;> rfl

theorem Inner.view_indexName (s : Inner) (id d : DocId) : (s.indexName id).view d = s.view d := by
  unfold Inner.indexName
  repeat' split
  all_goals rfl

theorem Inner.view_emitChange (s : Inner) (id : DocId) (ts : U64) (a : Option Action) (d : DocId) :
    (s.emitChange id ts a).view d = s.view d := by
  unfold Inner.emitChange
  split <;> rfl

theorem Inner.sameSetup_snapshot (s : Inner) (io : Io) (id : DocId) :
    s.SameSetup (s.snapshot io id).1 := by
  unfold Inner.snapshot
  repeat' split
  all_goals exact ⟨rfl, rfl, rfl, rfl⟩

/-- The state after WAL, publication and automatic snapshot, before the name index. -/
def Inner.recorded (s : Inner) (io : Io) (a : Action) (any : Bool) : Inner × Except String Unit :=
  (if any then (s.persistAction io a).publish a else s.persistAction io a).autoSnapshot io a.docId

theorem Inner.view_recorded (s : Inner) (io : Io) (a : Action) (any : Bool) (d : DocId) :
    (s.recorded io a any).1.view d = if d = a.docId then (s.view d).finish io a else s.view d := by
  have hview : ∀ d, (if any then (s.persistAction io a).publish a else s.persistAction io a).view d
      = if d = a.docId then (s.view d).persist io a else s.view d := by
    intro d
    cases any with
    | true => rw [if_pos rfl, Inner.view_publish, Inner.view_persistAction]
    | false => rw [if_neg Bool.false_ne_true, Inner.view_persistAction]
  -- the threshold looks at the live log, which the WAL write leaves alone
  have hfull : (snapshotOps ≤ ((if any then (s.persistAction io a).publish a
      else s.persistAction io a).entries[a.docId]?.map fun e => e.log.length).getD 0) ↔
      (s.view a.docId).full = true := by
    have h := hview a.docId
    rw [if_pos rfl] at h
    have h := congrArg View.entry h
    rw [View.entry_persist] at h
    unfold View.full
    rw [decide_eq_true_iff, ← h]
    rfl
  unfold Inner.recorded Inner.autoSnapshot
  by_cases hf : (s.view a.docId).full = true
  · rw [if_pos (hfull.mpr hf), Inner.view_snapshot, hview]
    by_cases hd : d = a.docId
    · rw [if_pos hd, if_pos hd, if_pos hd, View.finish, hd, if_pos hf]
    · rw [if_neg hd, if_neg hd, if_neg hd]
  · rw [if_neg (fun h => hf (hfull.mp h)), hview]
    by_cases hd : d = a.docId
    · rw [if_pos hd, if_pos hd, View.finish, hd, if_neg hf]
    · rw [if_neg hd, if_neg hd]

theorem Inner.sameSetup_recorded (s : Inner) (io : Io) (a : Action) (any : Bool) :
    s.SameSetup (s.recorded io a any).1 := by
  have hp : s.SameSetup (s.persistAction io a) := by
    unfold Inner.persistAction
    split <;> exact ⟨rfl, rfl, rfl, rfl⟩
  have hpub : (s.persistAction io a).SameSetup ((s.persistAction io a).publish a) := by
    unfold Inner.publish
    split <;> exact ⟨rfl, rfl, rfl, rfl⟩
  have hmid : s.SameSetup
      (if any then (s.persistAction io a).publish a else s.persistAction io a) := by
    cases any with
    | true => exact hp.trans hpub
    | false => exact hp
  unfold Inner.recorded Inner.autoSnapshot
  generalize (if any then (s.persistAction io a).publish a else s.persistAction io a) = t at hmid ⊢
  split
  · exact hmid.trans (Inner.sameSetup_snapshot _ io a.docId)
  · exact hmid

/-- After the snapshot only the name index and the change feed move. -/
theorem Inner.finishApply_cases (s : Inner) (io : Io) (a : Action) (any del : Bool) :
    ((∃ e, s.finishApply io a any del = ((s.recorded io a any).1, .error e)) ∧
      (s.recorded io a any).2 ≠ .ok ()) ∨
    ((s.recorded io a any).2 = .ok () ∧ s.finishApply io a any del =
      (if any || del then
          ((s.recorded io a any).1.indexName a.docId).emitChange a.docId a.ts (some a)
        else (s.recorded io a any).1.indexName a.docId, .ok ⟨any, del⟩)) := by
  unfold Inner.finishApply
  dsimp only
  rw [show (if any = true then (s.persistAction io a).publish a
    else s.persistAction io a).autoSnapshot io a.docId = s.recorded io a any from rfl]
  cases h : s.recorded io a any with
  | mk t r =>
    cases r with
    | error e => exact Or.inl ⟨⟨e, rfl⟩, fun h => by cases h⟩
    | ok u => exact Or.inr ⟨rfl, rfl⟩

/-- **The effect of the steps after the fold on a document**: WAL and automatic snapshot, for the
    action's own document; nothing for any other. -/
theorem Inner.view_finishApply (s : Inner) (io : Io) (a : Action) (any del : Bool) (d : DocId) :
    (s.finishApply io a any del).1.view d =
      if d = a.docId then (s.view d).finish io a else s.view d := by
  rw [← Inner.view_recorded s io a any d]
  rcases s.finishApply_cases io a any del with ⟨⟨e, h⟩, -⟩ | ⟨-, h⟩
  · rw [h]
  · rw [h]
    dsimp only
    split
    · rw [Inner.view_emitChange, Inner.view_indexName]
    · rw [Inner.view_indexName]

theorem Inner.sameSetup_finishApply (s : Inner) (io : Io) (a : Action) (any del : Bool) :
    s.SameSetup (s.finishApply io a any del).1 := by
  have hindex : ∀ t : Inner, t.SameSetup (t.indexName a.docId) := by
    intro t
    unfold Inner.indexName
    repeat' split
    all_goals exact ⟨rfl, rfl, rfl, rfl⟩
  have hemit : ∀ t : Inner, t.SameSetup (t.emitChange a.docId a.ts (some a)) := by
    intro t
    unfold Inner.emitChange
    split <;> exact ⟨rfl, rfl, rfl, rfl⟩
  have hrec := s.sameSetup_recorded io a any
  rcases s.finishApply_cases io a any del with ⟨⟨e, h⟩, -⟩ | ⟨-, h⟩
  · rw [h]; exact hrec
  · rw [h]
    dsimp only
    split
    · exact (hrec.trans (hindex _)).trans (hemit _)
    · exact hrec.trans (hindex _)

theorem Inner.sameSetup_applyAction (s : Inner) (io : Io) (a : Action) :
    s.SameSetup (s.applyAction io a).1 := by
  rcases s.applyAction_cases io a with
    ⟨r, -, h⟩ | ⟨m, r, -, -, h⟩ | ⟨m, msg, -, -, h⟩ | ⟨m, -, any, del, h⟩
  · rw [h]; exact ⟨rfl, rfl, rfl, rfl⟩
  · rw [h]; exact ⟨rfl, rfl, rfl, rfl⟩
  · rw [h]; exact ⟨rfl, rfl, rfl, rfl⟩
  · rw [h]
    exact (show s.SameSetup (s.putEntry a.docId (s.settled a m)) from ⟨rfl, rfl, rfl, rfl⟩).trans
      (Inner.sameSetup_finishApply _ io a any del)

end PhReactor
