/-
  Facts about a document that hold THROUGHOUT its life.

  A fact without marks (`Store/Lasting.lean`) has one side only: what is safe.  It needs less than a
  lasting one.  Nothing has to reach the disk: a snapshot that fails or is torn, a WAL line that is
  lost, a re-fold that is stuck lose history; what is rebuilt from the rest is safe all the same.

  1. `Fact.always` makes such a fact, `Fact.lasting_always` says what it takes: a new document is
     safe, lifting the name keeps it, and so does every ok action.

  2. One step that meets `Fact.Spares` keeps entry, snapshot, live log and WAL safe, whatever its
     I/O does; hence every state of a lifetime of such steps (`Fact.Lasting.throughout`).

  3. `OneModel m d`: all actions of `d` are actions of the interpreted model `m`, and `m` stays the
     model they resolve to.
-/
import PhReactor.Store.Lasting
import PhReactor.Store.Writes

set_option linter.unusedSectionVars false

namespace PhReactor

/-- A fact that no action marks: `safe` is all there is to it. -/
def Fact.always (ok : ModelRegistry → Action → Prop) (safe : Doc → Bool → Prop) : Fact where
  ok := ok
  marks := fun _ => false
  safe := safe
  held := fun _ _ => False

section

variable [Primitives]

theorem Fact.lasting_always {ok : ModelRegistry → Action → Prop} {safe : Doc → Bool → Prop}
    (hnew : ∀ d, safe (Entry.new d).doc false)
    (hlift : ∀ {doc del} (d : DocId), safe doc del → safe (liftName { doc with id := d }) del)
    (hkeeps : ∀ {r a m} {e : Entry}, ok r a → r.find a.model = some m → safe e.doc e.deleted →
      safe (applyOpsToEntry e m a).1.doc (applyOpsToEntry e m a).1.deleted) :
    (Fact.always ok safe).Lasting where
  new := fun d => ⟨hnew d, id⟩
  lift := fun d h => ⟨hlift d h, Iff.rfl⟩
  keeps := fun hok hm hs => ⟨hkeeps hok hm hs, id⟩
  found := fun _ h => by cases h
  brings := fun _ h => by cases h
  only := fun _ _ _ _ h => h.elim

/-- A step that spares a fact about `d`: what is accepted is ok, no state of `d` is adopted, and the
    logged actions stay ok when the models change. -/
structure Fact.Spares (F : Fact) (d : DocId) (s : Inner) (h : Happening) : Prop where
  accepts : ∀ io a m, h = .event (.applyAction io a) → a.docId = d → s.Accepted a m →
    F.ok s.models a
  noAdoption : ∀ st, h = .event (.adoptState st) → st.doc.id ≠ d
  models : ∀ b, b ∈ (s.entryFor d).log ∨ b ∈ s.disk.alog[d]?.getD [] → F.ok s.models b →
    F.ok (s.happen h).models b

variable {F : Fact}

/-! ## One step -/

/-- A snapshot, written or not. -/
theorem Fact.Safe.anySnapshot {r : ModelRegistry} {v : View} (hs : F.Safe r v) (io : Io) :
    F.Safe r (v.snapshot io) := by
  cases he : v.entry with
  | none =>
    rw [v.snapshot_of_none he]
    exact hs
  | some e =>
    rcases v.snapshot_cases io he with ⟨hentry, halog, hsnap⟩ | ⟨hio, -⟩
    · refine ⟨fun e' he' => hs.entry e' (he.trans (hentry.symm.trans he')), fun st hst => ?_,
        fun l hl => hs.alog l (halog.symm.trans hl)⟩
      rcases hsnap with hsnap | ⟨-, hsnap⟩
      · exact hs.snap st (hsnap.symm.trans hst)
      · -- a torn snapshot is no snapshot
        rw [hsnap] at hst
        cases hst
    · exact (hs.snapshot hio).1

/-- WAL and automatic snapshot of an accepted action, written or not. -/
theorem Fact.Lasting.anyFinish (hF : F.Lasting) {s : Inner} {a : Action} {m : Model}
    (hacc : s.Accepted a m) (hok : F.ok s.models a) (hs : F.Safe s.models (s.view a.docId))
    (io : Io) : F.Safe s.models
      (View.finish { s.view a.docId with entry := some (s.settled a m) } io a) := by
  have hput : F.Safe s.models
      (View.persist { s.view a.docId with entry := some (s.settled a m) } io a) := by
    unfold View.persist
    split
    · exact (hF.persisted hacc hok hs).1
    · refine ⟨fun e he => ?_, hs.snap, hs.alog⟩
      rw [← Option.some.inj he]
      exact (hF.settled hacc hok hs).1
  unfold View.finish
  split
  · exact hput.anySnapshot io
  · exact hput

/-- **Step lemma, events.** -/
theorem Fact.Lasting.spared (hF : F.Lasting) {s : Inner} {ev : Event} (hen : ev.Enabled s)
    {d : DocId} (hL : F.Spares d s (.event ev)) (hs : F.Safe s.models (s.view d)) :
    F.Safe (s.exec ev).models ((s.exec ev).view d) := by
  -- under the old models first
  have hstay : F.Safe (s.exec ev).models (s.view d) := hs.reread hL.models
  have hsame : (∀ m, ev ≠ .addModel m) → (s.exec ev).models = s.models := s.models_exec ev
  have hstep := docStep_exec s ev hen d
  generalize (s.exec ev).view d = v at hstep ⊢
  cases hstep with
  | stay _ => exact hstay
  | created sp _ _ =>
    refine ⟨fun e he => ?_, hstay.snap, hstay.alog⟩
    rw [← Option.some.inj he]
    exact ⟨(hF.new d).1, fun b hb => absurd hb List.not_mem_nil⟩
  | @accepted io a m hd hacc =>
    subst hd
    rw [hsame fun m h => Event.noConfusion h]
    exact hF.anyFinish hacc (hL.accepts io a m rfl rfl hacc) hs io
  | @stuck io a m hd hacc _ =>
    subst hd
    rw [hsame fun m h => Event.noConfusion h]
    exact (hF.stuck hacc (hL.accepts io a m rfl rfl hacc) hs).1
  | snapshot io =>
    rw [hsame fun m h => Event.noConfusion h]
    exact hs.anySnapshot io
  | adopted hd => exact absurd hd (hL.noAdoption _ rfl)

/-- **Throughout.**  In every state of a lifetime whose steps spare the fact, everything that the
    document may be rebuilt from is safe. -/
theorem Fact.Lasting.throughout (hF : F.Lasting) (hnone : ∀ doc del, ¬ F.held doc del)
    {P : Inner → List Action → Happening → Prop} {d : DocId} {key : SigningKey} {origin : Origin}
    {extra : List Model} {s : Inner} {acc : List Action}
    (hlife : Lifetime P (Store.fresh key origin extra) s acc)
    (hP : ∀ s acc h, P s acc h → F.Spares d s h) : F.Safe s.models (s.view d) := by
  induction hlife with
  | start =>
    rw [Store.fresh_view]
    exact ⟨fun e he => (by cases he), fun st hst => (by cases hst), fun l hl => (by cases hl)⟩
  | @step s acc _ h hen hPs ih =>
    have hL := hP s acc h hPs
    cases h with
    | event ev => exact hF.spared hen hL ih
    | reopen extra =>
      refine (hF.reopen (fun e _ => hnone e.doc e.deleted) (fun b hb hok => ?_) ih).1
      rw [← models_reopened s extra]
      exact hL.models b (Or.inr hb) hok

/-! ## Documents of one model -/

/-- The action resolves to the interpreted model `m`. -/
def Under (m : L1) (r : ModelRegistry) (a : Action) : Prop := r.find a.model = some (.l1 m)

/-- All actions of `d` are actions of `m`: every one that is accepted resolves to `m`, the logged
    ones still do after the step, and no state of `d` is adopted. -/
def OneModel (m : L1) (d : DocId) (s : Inner) (_ : List Action) (h : Happening) : Prop :=
  (∀ io a, h = .event (.applyAction io a) → a.docId = d → s.accepts a = true →
    Under m s.models a) ∧
  (∀ b, b ∈ (s.entryFor d).log ∨ b ∈ s.disk.alog[d]?.getD [] → Under m (s.happen h).models b) ∧
  ∀ st, h = .event (.adoptState st) → st.doc.id ≠ d

/-- A new store has logged nothing. -/
theorem not_logged_fresh (key : SigningKey) (origin : Origin) (extra : List Model) (d : DocId)
    (b : Action) : ¬ (b ∈ ((Store.fresh key origin extra).entryFor d).log ∨
      b ∈ (Store.fresh key origin extra).disk.alog[d]?.getD []) := by
  rw [entryFor_of_none (congrArg View.entry (Store.fresh_view key origin extra d)),
    show (Store.fresh key origin extra).disk.alog[d]? = none from
      congrArg View.alog (Store.fresh_view key origin extra d)]
  rintro (hb | hb) <;> exact absurd hb List.not_mem_nil

theorem OneModel.apply {m : L1} {d : DocId} {s : Inner} {acc : List Action} {io : Io} {a : Action}
    (ha : Under m s.models a)
    (hlogged : ∀ b, b ∈ (s.entryFor d).log ∨ b ∈ s.disk.alog[d]?.getD [] → Under m s.models b) :
    OneModel m d s acc (.event (.applyAction io a)) := by
  refine ⟨?_, fun b hb => ?_, ?_⟩
  · rintro io' a' heq - -
    injection heq with heq
    injection heq with _ heq
    subst heq
    exact ha
  · show Under m (s.applyAction io a).1.models b
    rw [(s.sameSetup_applyAction io a).models]
    exact hlogged b hb
  · intro st heq
    injection heq with heq
    exact Event.noConfusion heq

theorem OneModel.reopen {m : L1} {d : DocId} {s : Inner} {acc : List Action} {extra : List Model}
    (hlogged : ∀ b, b ∈ (s.entryFor d).log ∨ b ∈ s.disk.alog[d]?.getD [] →
      Under m (loadedModels extra) b) : OneModel m d s acc (.reopen extra) := by
  refine ⟨?_, fun b hb => ?_, ?_⟩
  · rintro io a heq - -
    exact Happening.noConfusion heq
  · rw [models_reopened]
    exact hlogged b hb
  · intro st heq
    exact Happening.noConfusion heq

/-- **A document of one model**, whose accepted actions satisfy `K`.  What a new document has, what
    lifting the name keeps, and what such actions keep on a live document, holds in every state of
    every lifetime. -/
theorem holds_of_oneModel {m : L1} {d : DocId} {K : Action → Prop} {I : Doc → Prop}
    (hnew : ∀ d, I (Entry.new d).doc)
    (hlift : ∀ {doc} (d : DocId), I doc → I (liftName { doc with id := d }))
    (hkeeps : ∀ {a} {e : Entry}, K a → e.deleted = false → I e.doc →
      I (applyOpsToEntry e (.l1 m) a).1.doc)
    {P : Inner → List Action → Happening → Prop}
    (hone : ∀ s acc h, P s acc h → OneModel m d s acc h)
    (hK : ∀ s acc io a, P s acc (.event (.applyAction io a)) → a.docId = d → s.accepts a = true →
      K a)
    {key : SigningKey} {origin : Origin} {extra : List Model} {s : Inner} {acc : List Action}
    (hlife : Lifetime P (Store.fresh key origin extra) s acc) {e : Entry}
    (he : s.entries[d]? = some e) : I e.doc ∧ e.deleted = false := by
  have hF : (Fact.always (fun r a => Under m r a ∧ K a)
      fun doc del => I doc ∧ del = false).Lasting := by
    refine Fact.lasting_always (fun d => ⟨hnew d, rfl⟩) (fun d h => ⟨hlift d h.1, h.2⟩) ?_
    rintro r a m' e ⟨hunder, hok⟩ hm ⟨hI, hdel⟩
    obtain rfl := Option.some.inj (hm.symm.trans hunder)
    exact ⟨hkeeps hok hdel hI, (deleted_l1 e m a).trans hdel⟩
  have hsafe := hF.throughout (d := d) (fun _ _ h => h) hlife fun s acc h hP => by
    obtain ⟨hunder, hlogged, hadopt⟩ := hone s acc h hP
    refine ⟨fun io a m' heq hd hacc => ?_, hadopt, fun b hb hok => ⟨hlogged b hb, hok.2⟩⟩
    have haccepts := Inner.accepts_iff.mpr ⟨m', hacc⟩
    subst heq
    exact ⟨hunder io a rfl hd haccepts, hK s acc io a hP hd haccepts⟩
  exact (hsafe.entry e he).1

end

end PhReactor
