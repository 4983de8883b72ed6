/-
  The live state is the canonical fold of the live log.

  `applyAction` appends an action that arrives in order and re-folds the whole log when one does
  not.  `FoldInv r base e` is the invariant that makes the two paths agree: the entry's log is
  sorted by `canonKey`, its document and deleted flag are the canonical fold of that log from
  `base`, its clock is the join of `base`'s clock with the clocks of the log.

  1. `foldInv_settled` — an accepted action keeps the invariant, whichever path it takes.  In
     order, the checks that admitted it are the checks the fold makes at the end of the log; out of
     order, the re-fold IS the canonical fold.

  2. `Plain d` are the events of a run without a snapshot or an adoption of `d` and without a
     change of the registry; `foldInv_run` carries the invariant, from the blank entry, along such
     a run.

  3. `live_fold_canonical` draws the conclusions: in every state of a plain run the entry of `d` is
     the canonical fold of its log, and two stores whose logs hold the same actions agree on the
     document, its deleted flag and its clock.
-/
import PhReactor.Sample

set_option linter.unusedSectionVars false

namespace PhReactor

section

variable [Primitives]

/-- The entry `e` is the canonical fold of its own log, from `base`. -/
structure FoldInv (r : ModelRegistry) (base e : Entry) : Prop where
  lifted : Lifted base.doc
  sorted : Lib.KeySorted canonKey e.log
  resolves : r.Resolves e.log
  state : SameDoc e (canonFold r base e.log)
  /-- After a snapshot the base is filed under `open@1`, so an empty log says nothing. -/
  model : e.log ≠ [] → e.model = (canonFold r base e.log).model
  clock : e.clock = logClock r base.clock e.log

theorem lifted_entryNew (d : DocId) : Lifted (Entry.new d).doc := by
  unfold Lifted Entry.new
  simp

/-- The blank entry, in any space. -/
theorem foldInv_new (r : ModelRegistry) (d : DocId) (sp : Option DocId) :
    FoldInv r (Entry.new d) { Entry.new d with space := sp } where
  lifted := lifted_entryNew d
  sorted := List.Pairwise.nil
  resolves := .nil
  state := ⟨rfl, rfl⟩
  model := fun h => absurd rfl h
  clock := rfl

/-- The fold invariant looks at the models of the log only. -/
theorem FoldInv.congr_models {r r' : ModelRegistry} {base e : Entry} (h : FoldInv r base e)
    (hr : ∀ b ∈ e.log, r'.find b.model = r.find b.model) : FoldInv r' base e := by
  have hcanon : canonFold r' base e.log = canonFold r base e.log :=
    foldl_foldStep_congr _ (fun b hb => hr b (mem_sortLog.mp hb)) base
  refine ⟨h.lifted, h.sorted, h.resolves.congr hr, ?_, ?_, ?_⟩
  · rw [hcanon]; exact h.state
  · rw [hcanon]; exact h.model
  · rw [h.clock]
    exact logClock_eq_of_mem_iff (fun _ => Iff.rfl) fun b hb => (hr b hb).symm

theorem log_appended (e : Entry) (m : Model) (a : Action) : (appended e m a).log = e.log ++ [a] :=
  rfl

/-- The space stamp of the first action does not reach the fold. -/
theorem sameDoc_stamped (e : Entry) (a : Action) :
    SameDoc (if e.log.isEmpty then { e with space := a.space } else e) e := by
  split
  · exact ⟨rfl, rfl⟩
  · exact SameDoc.refl e

theorem sameDoc_appended {e e' : Entry} (h : SameDoc e e') {m : Model} {a : Action}
    (hpre : m.checkPrecondition e'.doc a = .ok ()) (hauth : m.authorize e'.doc a = .ok ()) :
    SameDoc (appended e m a) (refoldStep e' a m) ∧ (refoldStep e' a m).model = a.model := by
  have hstep : refoldStep e' a m = { (applyOpsToEntry e' m a).1 with model := a.model } := by
    unfold refoldStep
    rw [hpre, hauth]
    rfl
  have hops := ((sameDoc_stamped e a).trans h).after_applyOps m a
  rw [hstep]
  exact ⟨⟨hops.doc, hops.deleted⟩, rfl⟩

theorem clock_appended (e : Entry) (m : Model) (a : Action) :
    (appended e m a).clock = if m.touches a then e.clock.merge a.clock else e.clock := by
  unfold appended
  dsimp only
  rw [clock_applyOpsToEntry]
  cases e.log.isEmpty <;> rfl

/-- A re-fold keeps the clock, so in order or not the clock takes in the action's. -/
theorem clock_settled (s : Inner) (a : Action) (m : Model) :
    (s.settled a m).clock =
      if m.touches a then (s.entryFor a.docId).clock.merge a.clock
      else (s.entryFor a.docId).clock := by
  rw [← clock_appended]
  unfold Inner.settled
  cases s.outOfOrder a <;> rfl

theorem Inner.not_outOfOrder {s : Inner} {a : Action} (h : s.outOfOrder a = false) :
    ∀ z, (s.entryFor a.docId).log.getLast? = some z → ¬ canonKey a < canonKey z := by
  intro z hz
  unfold Inner.outOfOrder at h
  cases he : s.entries[a.docId]? with
  | none =>
    rw [entryFor_of_none he] at hz
    exact absurd hz (by simp [Entry.new])
  | some e =>
    rw [entryFor_eq he] at hz
    rw [he, Option.bind_some, hz] at h
    exact of_decide_eq_false h

/-- What a re-fold leaves, and where it starts. -/
theorem refolded_spec (s : Inner) (d : DocId) (e : Entry) :
    SameDoc (s.refolded d e) (canonFold s.models (s.baseEntry d) e.log) ∧
      (s.refolded d e).model = (canonFold s.models (s.baseEntry d) e.log).model ∧
      (s.refolded d e).clock = e.clock ∧ (s.refolded d e).log = sortLog e.log := by
  have hbase : SameDoc (if (s.baseEntry d).space.isNone then
      { s.baseEntry d with space := (sortLog e.log).head?.bind Action.space }
      else s.baseEntry d) (s.baseEntry d) ∧ (if (s.baseEntry d).space.isNone then
      { s.baseEntry d with space := (sortLog e.log).head?.bind Action.space }
      else s.baseEntry d).model = (s.baseEntry d).model := by
    split <;> exact ⟨⟨rfl, rfl⟩, rfl⟩
  have hfold := hbase.1.after_foldl s.models (sortLog e.log)
  exact ⟨⟨hfold.doc, hfold.deleted⟩,
    hbase.1.model_after_foldl hbase.2 s.models (sortLog e.log), rfl, rfl⟩

/-- **An accepted action keeps the fold invariant**, arriving in order or not. -/
theorem foldInv_settled {s : Inner} {a : Action} {m : Model} (hacc : s.Accepted a m)
    (h : FoldInv s.models (s.baseEntry a.docId) (s.entryFor a.docId)) :
    FoldInv s.models (s.baseEntry a.docId) (s.settled a m) ∧
      (s.settled a m).log.Perm ((s.entryFor a.docId).log ++ [a]) := by
  have hfind := hacc.model
  have hres : s.models.Resolves ((s.entryFor a.docId).log ++ [a]) := h.resolves.concat hfind
  have hclock : (appended (s.entryFor a.docId) m a).clock =
      logClock s.models (s.baseEntry a.docId).clock ((s.entryFor a.docId).log ++ [a]) := by
    rw [clock_appended, logClock_concat _ _ _ hfind, ← h.clock]
  cases hord : s.outOfOrder a with
  | false =>
    -- appended: one more step at the end of a sorted log, whose checks have just passed
    have hsort : Lib.KeySorted canonKey ((s.entryFor a.docId).log ++ [a]) :=
      h.sorted.concat_of_not_lt (Inner.not_outOfOrder hord)
    have hfold := canonFold_concat s.models (s.baseEntry a.docId) hsort
    rw [foldStep_eq hfind] at hfold
    obtain ⟨hdoc, hmodel⟩ := sameDoc_appended h.state
      (by rw [← h.state.doc]; exact hacc.precondition)
      (by rw [← h.state.doc]; exact hacc.authorize_entryFor)
    rw [Inner.settled_of_inOrder hord]
    refine ⟨⟨h.lifted, hsort, hres, ?_, fun _ => ?_, hclock⟩, List.Perm.refl _⟩
    · rw [log_appended, hfold]; exact hdoc
    · rw [log_appended, hfold]; exact hmodel.symm
  | true =>
    obtain ⟨hstate, hmodel, hclk, hlog⟩ :=
      refolded_spec s a.docId (appended (s.entryFor a.docId) m a)
    have hperm : (sortLog ((s.entryFor a.docId).log ++ [a])).Perm
        ((s.entryFor a.docId).log ++ [a]) := Lib.canonSort_perm _ _
    rw [Inner.settled_of_outOfOrder hord]
    rw [log_appended] at hlog hstate hmodel
    refine ⟨⟨h.lifted, ?_, ?_, ?_, fun _ => ?_, ?_⟩, ?_⟩
    · rw [hlog]; exact sortLog_keySorted _
    · rw [hlog]; exact fun b hb => hres b (mem_sortLog.mp hb)
    · rw [hlog, canonFold_sortLog]; exact hstate
    · rw [hlog, canonFold_sortLog]; exact hmodel
    · rw [hclk, hlog, hclock]; exact (logClock_perm _ _ hperm).symm
    · rw [hlog]; exact hperm

/-! ## Runs without a snapshot of the document -/

/-- An event of a run in which `d` is neither snapshotted nor adopted and no model is added. -/
structure Plain (d : DocId) (s : Inner) (ev : Event) : Prop where
  noSnapshot : (s.exec ev).disk.snap[d]? = none
  noAdoption : ∀ st, ev = .adoptState st → st.doc.id ≠ d
  sameModels : ∀ m, ev ≠ .addModel m

theorem View.entry_snapshot_of_none {v : View} {io : Io} (h : (v.snapshot io).snap = none) :
    (v.snapshot io).entry = v.entry := by
  cases he : v.entry with
  | none => rw [v.snapshot_of_none he]; exact he
  | some e =>
    rcases v.snapshot_cases io he with ⟨hentry, -⟩ | ⟨-, hs⟩
    · exact hentry
    · rw [hs] at h; cases h

/-- The steps after the fold leave the entry alone, unless they snapshot it. -/
theorem View.entry_finish_of_none {v : View} {io : Io} {a : Action} {e : Entry}
    (he : v.entry = some e) (h : (v.finish io a).snap = none) : (v.finish io a).entry = some e := by
  rcases v.finish_cases io a he with ⟨hentry, -⟩ | ⟨-, -, hs⟩
  · exact hentry
  · rw [hs] at h; cases h

theorem Inner.baseEntry_of_none {s : Inner} {d : DocId} (h : s.disk.snap[d]? = none) :
    s.baseEntry d = Entry.new d := by
  unfold Inner.baseEntry
  rw [h]
  dsimp only
  rw [liftName_of_lifted (lifted_entryNew d)]

/-- With the models of the log also the accepted action's own model is loaded. -/
theorem resolves_appended {r : ModelRegistry} {base e : Entry} (h : FoldInv r base e) {m : Model}
    {a : Action} (hm : r.find a.model = some m) : r.Resolves (appended e m a).log :=
  h.resolves.concat hm

/-- An accepted action that is not followed by a snapshot leaves the settled entry. -/
theorem entries_accept_of_none {s : Inner} {io : Io} {a : Action} {m : Model}
    (h : FoldInv s.models (s.baseEntry a.docId) (s.entryFor a.docId)) (hacc : s.Accepted a m)
    (hsnap : (s.exec (.applyAction io a)).disk.snap[a.docId]? = none) :
    (s.exec (.applyAction io a)).entries[a.docId]? = some (s.settled a m) := by
  have hview : (s.exec (.applyAction io a)).view a.docId =
      View.finish { s.view a.docId with entry := some (s.settled a m) } io a :=
    view_applyAction_of_accepted hacc (resolves_appended h hacc.model) io
  have hnone : (View.finish { s.view a.docId with entry := some (s.settled a m) } io a).snap =
      none := by rw [← hview]; exact hsnap
  have hfinish := View.entry_finish_of_none rfl hnone
  rw [← hview] at hfinish
  exact hfinish

/-- What a plain run keeps about `d`. -/
structure PlainInv (d : DocId) (s : Inner) : Prop where
  noSnapshot : s.disk.snap[d]? = none
  fold : ∀ e, s.entries[d]? = some e → FoldInv s.models (Entry.new d) e
  fresh : ∀ e, s.entries[d]? = some e → e.log = [] → e.model = openRef

theorem PlainInv.entryFor {d : DocId} {s : Inner} (h : PlainInv d s) :
    FoldInv s.models (Entry.new d) (s.entryFor d) := by
  cases he : s.entries[d]? with
  | none => rw [entryFor_of_none he]; exact foldInv_new s.models d none
  | some e => rw [entryFor_eq he]; exact h.fold e he

/-- **Step lemma**: an event of a plain run keeps the fold invariant. -/
theorem plainInv_exec {d : DocId} {s : Inner} {ev : Event} (hen : ev.Enabled s)
    (hp : Plain d s ev) (h : PlainInv d s) : PlainInv d (s.exec ev) := by
  have hmodels := s.models_exec ev hp.sameModels
  have hstep := docStep_exec s ev hen d
  have hsnap : ((s.exec ev).view d).snap = none := hp.noSnapshot
  -- it is enough to look at the entry the event leaves
  suffices hentry : ∀ e, ((s.exec ev).view d).entry = some e →
      FoldInv s.models (Entry.new d) e ∧ (e.log = [] → e.model = openRef) from
    ⟨hp.noSnapshot, fun e he => by rw [hmodels]; exact (hentry e he).1,
      fun e he => (hentry e he).2⟩
  intro e he
  generalize (s.exec ev).view d = v at hstep hsnap he
  cases hstep with
  | stay _ => exact ⟨h.fold e he, h.fresh e he⟩
  | created sp _ _ =>
    obtain rfl : { Entry.new d with space := sp } = e := Option.some.inj he
    exact ⟨foldInv_new s.models d sp, fun _ => rfl⟩
  | @accepted io a m hd hacc =>
    subst hd
    have hinv := h.entryFor
    rw [← Inner.baseEntry_of_none h.noSnapshot] at hinv
    obtain ⟨hset, hperm⟩ := foldInv_settled hacc hinv
    rw [Inner.baseEntry_of_none h.noSnapshot] at hset
    rw [View.entry_finish_of_none rfl hsnap] at he
    obtain rfl : s.settled a m = e := Option.some.inj he
    refine ⟨hset, fun hnil => ?_⟩
    rw [hnil] at hperm
    exact absurd hperm.symm.eq_nil (by simp)
  | @stuck io a m hd hacc hres =>
    subst hd
    exact absurd (resolves_appended h.entryFor hacc.model) hres
  | snapshot io =>
    rw [View.entry_snapshot_of_none hsnap] at he
    exact ⟨h.fold e he, h.fresh e he⟩
  | adopted hd => exact absurd hd (hp.noAdoption _ rfl)

/-! ## Whole runs -/

theorem plainInv_fresh (key : SigningKey) (origin : Origin) (extra : List Model) (d : DocId) :
    PlainInv d (Store.fresh key origin extra) := by
  have hview := Store.fresh_view key origin extra d
  have hentry : (Store.fresh key origin extra).entries[d]? = none := congrArg View.entry hview
  refine ⟨congrArg View.snap hview, ?_, ?_⟩
  · intro e he; rw [hentry] at he; cases he
  · intro e he; rw [hentry] at he; cases he

/-- **Run lemma**: the fold invariant holds in every state of a plain run. -/
theorem plainInv_run {key : SigningKey} {origin : Origin} {extra : List Model} {d : DocId}
    {s : Inner} (h : Inner.Run (Plain d) (Store.fresh key origin extra) s) : PlainInv d s :=
  h.induct (plainInv_fresh key origin extra d) fun _ _ hen hp hi => plainInv_exec hen hp hi

/-- The registry of a plain run is the one it started with. -/
theorem models_plain_run {key : SigningKey} {origin : Origin} {extra : List Model} {d : DocId}
    {s : Inner} (h : Inner.Run (Plain d) (Store.fresh key origin extra) s) :
    s.models = extra.foldl ModelRegistry.insert ModelRegistry.seededWithBuiltins :=
  h.induct (I := fun s => s.models = _) (Store.fresh_models key origin extra)
    fun s ev _ hp hi => (s.models_exec ev hp.sameModels).trans hi

/-- The origin's signature verifies under the key the store has pinned for it. -/
def Inner.Verified (s : Inner) (a : Action) : Prop :=
  ∃ k, s.knownKeys[a.origin]? = some k ∧ Primitives.keyOk k = true ∧ a.verify k = true

theorem Inner.checkKey_ok {s : Inner} {o : Origin} {e₁ e₂ e₃ : String} {verify : PublicKey → Bool}
    (h : s.checkKey o e₁ e₂ e₃ verify = .ok ()) :
    ∃ k, s.knownKeys[o]? = some k ∧ Primitives.keyOk k = true ∧ verify k = true := by
  unfold Inner.checkKey at h
  cases hk : s.knownKeys[o]? with
  | none => rw [hk] at h; cases h
  | some k =>
    rw [hk] at h
    dsimp only at h
    cases hok : Primitives.keyOk k with
    | false => rw [hok] at h; cases h
    | true =>
      cases hv : verify k with
      | false => rw [hok, hv] at h; cases h
      | true => exact ⟨k, rfl, hok, hv⟩

theorem Inner.Accepted.verified {s : Inner} {a : Action} {m : Model} (h : s.Accepted a m) :
    s.Verified a := by
  have hsig := h.signatures
  unfold Inner.checkSignatures at hsig
  obtain ⟨⟨⟩, hkey, -⟩ := bind_eq_ok.mp hsig
  exact Inner.checkKey_ok hkey

/-- Every action of the log was accepted in an earlier state of the run. -/
theorem accepted_of_mem_log {key : SigningKey} {origin : Origin} {extra : List Model} {d : DocId}
    {s : Inner} (hrun : Inner.Run (Plain d) (Store.fresh key origin extra) s) :
    ∀ {e : Entry}, s.entries[d]? = some e → ∀ a ∈ e.log,
      ∃ s₀ m, Inner.Run (Plain d) (Store.fresh key origin extra) s₀ ∧ Inner.Run (Plain d) s₀ s ∧
        a.docId = d ∧ s₀.Accepted a m := by
  induction hrun with
  | refl =>
    intro e he
    have hview := congrArg View.entry (Store.fresh_view key origin extra d)
    rw [show (Store.fresh key origin extra).entries[d]? = none from hview] at he
    cases he
  | @tail s t hrun hstep ih =>
    obtain ⟨ev, hen, hp, rfl⟩ := hstep
    intro e he a ha
    have hlast : Inner.Run (Plain d) s (s.exec ev) :=
      Relation.ReflTransGen.single ⟨ev, hen, hp, rfl⟩
    have hold : ∀ {e₀ : Entry}, s.entries[d]? = some e₀ → a ∈ e₀.log →
        ∃ s₀ m, Inner.Run (Plain d) (Store.fresh key origin extra) s₀ ∧
          Inner.Run (Plain d) s₀ (s.exec ev) ∧ a.docId = d ∧ s₀.Accepted a m := by
      intro e₀ he₀ ha₀
      obtain ⟨s₀, m, h₀, h₁, hd, hacc⟩ := ih he₀ a ha₀
      exact ⟨s₀, m, h₀, Relation.ReflTransGen.trans h₁ hlast, hd, hacc⟩
    have hinv := plainInv_run hrun
    have hdoc := docStep_exec s ev hen d
    have hsnap : ((s.exec ev).view d).snap = none := hp.noSnapshot
    have he : ((s.exec ev).view d).entry = some e := he
    generalize (s.exec ev).view d = v at hdoc hsnap he
    cases hdoc with
    | stay _ => exact hold he ha
    | created sp _ _ =>
      obtain rfl : { Entry.new d with space := sp } = e := Option.some.inj he
      exact absurd ha List.not_mem_nil
    | @accepted io b m hd hacc =>
      subst hd
      have hentry := hinv.entryFor
      rw [← Inner.baseEntry_of_none hinv.noSnapshot] at hentry
      rw [View.entry_finish_of_none rfl hsnap] at he
      obtain rfl : s.settled b m = e := Option.some.inj he
      -- in the log before, or the action that has just been accepted
      rcases List.mem_append.mp ((foldInv_settled hacc hentry).2.mem_iff.mp ha) with ha | ha
      · cases he₀ : s.entries[b.docId]? with
        | none =>
          rw [Inner.entryFor, he₀] at ha
          exact absurd ha List.not_mem_nil
        | some e₀ =>
          rw [entryFor_eq he₀] at ha
          exact hold he₀ ha
      · rw [List.mem_singleton.mp ha]
        exact ⟨s, m, hrun, hlast, rfl, hacc⟩
    | @stuck io b m hd hacc hres =>
      subst hd
      exact absurd (resolves_appended hinv.entryFor hacc.model) hres
    | snapshot io =>
      rw [View.entry_snapshot_of_none hsnap] at he
      exact hold he ha
    | adopted hd => exact absurd hd (hp.noAdoption _ rfl)

theorem PlainInv.model_eq {d : DocId} {s : Inner} (h : PlainInv d s) {e : Entry}
    (he : s.entries[d]? = some e) : e.model = (canonFold s.models (Entry.new d) e.log).model := by
  by_cases hnil : e.log = []
  · rw [h.fresh e he hnil, hnil]; rfl
  · exact (h.fold e he).model hnil

/-- **Live fold = canonical fold.**  In every state of a run without snapshot, adoption or change
    of the registry, the entry of `d` is the canonical fold of its own log; and two stores whose
    logs for `d` hold the same actions, resolved to the same models, hold the same document, deleted
    flag and clock, whatever the orders of arrival and the repeats. -/
theorem live_fold_canonical (d : DocId) {key : SigningKey} {origin : Origin} {extra : List Model}
    {s : Inner} (hrun : Inner.Run (Plain d) (Store.fresh key origin extra) s) {e : Entry}
    (he : s.entries[d]? = some e) :
    (e.doc = (canonFold s.models (Entry.new d) e.log).doc ∧
      e.deleted = (canonFold s.models (Entry.new d) e.log).deleted ∧
      e.model = (canonFold s.models (Entry.new d) e.log).model) ∧
    ∀ {key' : SigningKey} {origin' : Origin} {extra' : List Model} {s' : Inner},
      Inner.Run (Plain d) (Store.fresh key' origin' extra') s' →
      ∀ {e' : Entry}, s'.entries[d]? = some e' → (∀ a, a ∈ e.log ↔ a ∈ e'.log) →
        (∀ a ∈ e.log, s.models.find a.model = s'.models.find a.model) →
        Action.HashSeparates {a | a ∈ e.log} →
        e.doc = e'.doc ∧ e.deleted = e'.deleted ∧ e.clock = e'.clock := by
  have hinv := plainInv_run hrun
  have hfold := hinv.fold e he
  refine ⟨⟨hfold.state.doc, hfold.state.deleted, hinv.model_eq he⟩, ?_⟩
  intro key' origin' extra' s' hrun' e' he' hmem hmodels hsep
  have hfold' := (plainInv_run hrun').fold e' he'
  -- one set of actions has one fold
  have hcanon := canonFold_eq_of_mem_iff hfold.lifted hsep.keySeparates hmem hmodels
  refine ⟨?_, ?_, ?_⟩
  · rw [hfold.state.doc, hfold'.state.doc, hcanon]
  · rw [hfold.state.deleted, hfold'.state.deleted, hcanon]
  · rw [hfold.clock, hfold'.clock]
    exact logClock_eq_of_mem_iff hmem hmodels

/-! ### A run to evaluate -/

/-- A check for `Plain` that can be evaluated. -/
def Event.isPlain (d : DocId) : Event → Bool
  | .adoptState st => st.doc.id != d
  | .addModel _ => false
  | .newEntry _ _ => false
  | _ => true

def plainEvents (d : DocId) : Inner → List Event → Bool
  | _, [] => true
  | s, ev :: evs =>
    ev.isPlain d && (s.exec ev).disk.snap[d]?.isNone && plainEvents d (s.exec ev) evs

theorem run_of_plainEvents {d : DocId} : ∀ (evs : List Event) (s : Inner),
    plainEvents d s evs = true → Inner.Run (Plain d) s (s.execAll evs)
  | [], _, _ => Relation.ReflTransGen.refl
  | ev :: evs, s, h => by
    unfold plainEvents at h
    rw [Bool.and_eq_true, Bool.and_eq_true] at h
    obtain ⟨⟨hev, hsnap⟩, hrest⟩ := h
    refine Relation.ReflTransGen.head ⟨ev, ?_, ⟨?_, ?_, ?_⟩, rfl⟩ (run_of_plainEvents evs _ hrest)
    · cases ev <;> simp_all [Event.Enabled, Event.isPlain]
    · exact Option.isNone_iff_eq_none.mp hsnap
    · rintro st rfl
      simpa [Event.isPlain] using hev
    · rintro m rfl
      simp [Event.isPlain] at hev

end

section

open Sample

attribute [local instance] Sample.primitives

/-- Two posts made without knowledge of each other. -/
def concurrentPosts : Action × Action :=
  (post alice "hi" 20 [("alice", 2)], post bob "yo" 21 [("alice", 1), ("bob", 1)])

/-- Alice's node gets the posts in canonical order, bob's in the other order and one of them
    twice. -/
def aliceEvents : List Event :=
  pins [alice, bob] ++ deliver [groupInit, concurrentPosts.1, concurrentPosts.2]

def bobEvents : List Event :=
  pins [alice, bob] ++
    deliver [groupInit, concurrentPosts.2, concurrentPosts.1, concurrentPosts.2]

theorem live_fold_canonical_two_orders :
    ∃ e e', ((Store.fresh alice.key alice.name []).execAll aliceEvents).entries[docId]? = some e ∧
      ((Store.fresh bob.key bob.name []).execAll bobEvents).entries[docId]? = some e' ∧
      e.log = [groupInit, concurrentPosts.1, concurrentPosts.2] ∧
      e'.log = [groupInit, concurrentPosts.1, concurrentPosts.2, concurrentPosts.2] ∧
      e.doc = e'.doc ∧ e.deleted = e'.deleted ∧ e.clock = e'.clock := by
  have hfacts : plainEvents docId (Store.fresh alice.key alice.name []) aliceEvents = true ∧
      plainEvents docId (Store.fresh bob.key bob.name []) bobEvents = true ∧
      ((Store.fresh alice.key alice.name []).execAll aliceEvents).entries[docId]?.map Entry.log =
        some [groupInit, concurrentPosts.1, concurrentPosts.2] ∧
      ((Store.fresh bob.key bob.name []).execAll bobEvents).entries[docId]?.map Entry.log =
        some [groupInit, concurrentPosts.1, concurrentPosts.2, concurrentPosts.2] ∧
      ∀ a ∈ [groupInit, concurrentPosts.1, concurrentPosts.2],
        ∀ b ∈ [groupInit, concurrentPosts.1, concurrentPosts.2], a.hash = b.hash → a = b := by
    decide +kernel
  obtain ⟨hplain, hplain', hlog, hlog', hsep⟩ := hfacts
  have hrun := run_of_plainEvents _ _ hplain
  have hrun' := run_of_plainEvents _ _ hplain'
  obtain ⟨e, he, hlog⟩ := Option.map_eq_some_iff.mp hlog
  obtain ⟨e', he', hlog'⟩ := Option.map_eq_some_iff.mp hlog'
  refine ⟨e, e', he, he', hlog, hlog',
    (live_fold_canonical docId hrun he).2 hrun' he' ?_ ?_ ?_⟩
  · rw [hlog, hlog']
    simp
  · intro a _
    rw [models_plain_run hrun, models_plain_run hrun']
  · rw [hlog]
    intro a ha b hb hab
    rw [hsep a ha b hb hab]
    rfl

end

end PhReactor
