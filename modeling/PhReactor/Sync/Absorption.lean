/-
  What a list of remote actions does to the clocks the store reports.

  1. The clock after an action is known exactly, in every state and whatever the files do
     (`clockOf_applied`): an action counts if it is accepted and touches its document, and then its
     clock is joined in, in order or not.  So no action takes a clock back.

  2. Hence the clock after a list is the join of the clocks that count (`clockOf_foldl_counted`).

  3. `refusedOf` are the actions of a list that the store does not take in when they arrive one
     after the other: those it quarantines, and those that are held until their model is there.

  4. `TakesIn` is the opposite extreme, a list of one document all of which count; then the store
     has caught up with every one of them (`takesIn_spec`).
-/
import PhReactor.Sync.DriveEffects

set_option linter.unusedSectionVars false

namespace PhReactor

variable [Primitives]

/-- The clock a store reports for a document. -/
theorem summary_getD (s : Inner) (d : DocId) :
    (Store.summary s)[d]?.getD VecClock.empty = s.clockOf d := by
  unfold Store.summary Inner.clockOf Inner.entryFor
  rw [Std.ExtTreeMap.getElem?_map]
  cases s.entries[d]? <;> rfl

/-- A clock remembered of `d` is ahead of the store's. -/
theorem exists_gap_iff {s : Inner} {remote : Std.ExtTreeMap DocId VecClock} {d : DocId} :
    (∃ gap ∈ Engine.gaps (Store.summary s) remote, gap.1 = d) ↔
      ∃ c, remote[d]? = some c ∧ (s.clockOf d).covers c = false := by
  constructor
  · rintro ⟨gap, hgap, rfl⟩
    obtain ⟨⟨id, their⟩, hmem, hgap⟩ := List.mem_filterMap.mp hgap
    dsimp only at hgap
    rw [summary_getD] at hgap
    split at hgap
    · exact nomatch hgap
    · next hcov =>
      rw [← Option.some.inj hgap]
      exact ⟨their, Std.ExtTreeMap.mem_toList_iff_getElem?_eq_some.mp hmem,
        Bool.eq_false_iff.mpr hcov⟩
  · rintro ⟨c, hc, hcov⟩
    refine ⟨(d, s.clockOf d), List.mem_filterMap.mpr
      ⟨(d, c), Std.ExtTreeMap.mem_toList_iff_getElem?_eq_some.mpr hc, ?_⟩, rfl⟩
    dsimp only
    rw [summary_getD, if_neg (Bool.eq_false_iff.mp hcov)]

theorem clockOf_congr {s t : Inner} {d : DocId} (h : t.entries[d]? = s.entries[d]?) :
    t.clockOf d = s.clockOf d := by
  unfold Inner.clockOf Inner.entryFor
  rw [h]

/-! ## One action -/

/-- The clock of the action's document, once it is settled and recorded. -/
theorem clockOf_settled (s : Inner) (io : Io) (a : Action) (m : Model) (any del : Bool)
    (d : DocId) :
    ((s.putEntry a.docId (s.settled a m)).finishApply io a any del).1.clockOf d =
      if d = a.docId then (s.settled a m).clock else s.clockOf d := by
  have hview := (s.putEntry a.docId (s.settled a m)).view_finishApply io a any del d
  rw [Inner.view_putEntry] at hview
  have hentry := congrArg View.entry hview
  by_cases hd : d = a.docId
  · rw [if_pos hd, if_pos hd] at hentry
    obtain ⟨log, hlog⟩ :=
      View.entry_finish (v := { s.view d with entry := some (s.settled a m) }) rfl io a
    rw [if_pos hd]
    unfold Inner.clockOf
    rw [entryFor_eq (hentry.trans hlog)]
  · rw [if_neg hd, if_neg hd] at hentry
    rw [if_neg hd]
    exact clockOf_congr hentry

/-- The clock of a document when an entry is put in its place. -/
theorem clockOf_putEntry (s : Inner) (id : DocId) (e : Entry) (d : DocId) :
    (s.putEntry id e).clockOf d = if d = id then e.clock else s.clockOf d := by
  have hentry := congrArg View.entry (s.view_putEntry id e d)
  by_cases hd : d = id
  · rw [if_pos hd] at hentry
    rw [if_pos hd]
    unfold Inner.clockOf
    rw [entryFor_eq hentry]
  · rw [if_neg hd] at hentry
    rw [if_neg hd]
    exact clockOf_congr hentry

/-- The action is one of `d`, touches it, and is accepted. -/
def CountsFor (d : DocId) (s : Inner) (a : Action) : Prop :=
  a.docId = d ∧ s.accepts a = true ∧ touchesIn s.models a = true

instance countsForDecidable (d : DocId) (s : Inner) (a : Action) : Decidable (CountsFor d s a) :=
  inferInstanceAs (Decidable (_ ∧ _ ∧ _))

theorem countsFor_of_accepted {s : Inner} {a : Action} {m : Model} (h : s.Accepted a m)
    (d : DocId) : CountsFor d s a ↔ a.docId = d ∧ m.touches a = true := by
  unfold CountsFor
  rw [touchesIn_eq h.model]
  exact and_congr_right fun _ => and_iff_right (Inner.accepts_iff.mpr ⟨m, h⟩)

/-- **The clock after an action**: joined with the action's own if the action counts, and else what
    it was. -/
theorem clockOf_applied (s : Inner) (io : Io) (a : Action) (d : DocId) :
    (s.applyAction io a).1.clockOf d =
      if CountsFor d s a then (s.clockOf d).merge a.clock else s.clockOf d := by
  -- an accepted action leaves its document with this clock, re-folded or not
  have hcount : ∀ m, s.Accepted a m →
      (if d = a.docId then (if m.touches a = true then (s.entryFor a.docId).clock.merge a.clock
        else (s.entryFor a.docId).clock) else s.clockOf d) =
        if CountsFor d s a then (s.clockOf d).merge a.clock else s.clockOf d := by
    intro m hm
    rw [if_congr (countsFor_of_accepted hm d) rfl rfl]
    by_cases hd : d = a.docId
    · subst hd
      rw [if_pos rfl]
      exact if_congr (and_iff_right rfl).symm rfl rfl
    · rw [if_neg hd, if_neg fun hc => hd hc.1.symm]
  rcases s.applyAction_cases io a with
    ⟨reason, hscreen, h⟩ | ⟨m, r, hadm, hpre, h⟩ | ⟨m, msg, hm, -, h⟩ | ⟨m, hm, any, del, h⟩
  · have hno : ¬ CountsFor d s a := by
      rintro ⟨-, hacc, -⟩
      unfold Inner.accepts at hacc
      rw [hscreen] at hacc
      cases hacc
    rw [h, if_neg hno]
    rfl
  · have hno : ¬ CountsFor d s a := by
      rintro ⟨-, hacc, -⟩
      unfold Inner.accepts at hacc
      rw [Inner.screen_ok.mpr hadm] at hacc
      dsimp only at hacc
      rw [hpre] at hacc
      cases hacc
    rw [h, if_neg hno]
    show (s.putEntry a.docId (s.entryFor a.docId)).clockOf d = _
    rw [clockOf_putEntry]
    by_cases hd : d = a.docId
    · subst hd
      rw [if_pos rfl]
      rfl
    · rw [if_neg hd]
  · rw [h, clockOf_putEntry, clock_appended]
    exact hcount m hm
  · rw [h, clockOf_settled, clock_settled]
    exact hcount m hm

/-! ## A list of actions -/

/-- What the store is after an action has arrived: unchanged while the action's model is missing. -/
def offered (env : Env) (s : Inner) (a : Action) : Inner :=
  if (s.models.find a.model).isNone then s else (Store.applyRemoteAction s (env.io s a) a).1

/-- The actions of a list that are not taken in when they arrive one after the other: quarantined,
    or held until their model is there. -/
def refusedOf (env : Env) : Inner → List Action → List Action
  | _, [] => []
  | s, a :: rest =>
    if s.accepts a then refusedOf env (offered env s a) rest
    else a :: refusedOf env (offered env s a) rest

/-- The actions of a list that count for `d` when they arrive one after the other. -/
def counted (env : Env) (d : DocId) : Inner → List Action → List Action
  | _, [] => []
  | s, a :: rest =>
    if CountsFor d s a then a :: counted env d (offered env s a) rest
    else counted env d (offered env s a) rest

/-- The clock of `d`, joined with those of the actions that count. -/
def heard (env : Env) (d : DocId) (s : Inner) (l : List Action) : VecClock :=
  ((counted env d s l).map Action.clock).foldl VecClock.merge (s.clockOf d)

/-- Every action of the list is one of `d`, touches it, and is accepted when its turn comes. -/
def TakesIn (env : Env) (d : DocId) : Inner → List Action → Prop
  | _, [] => True
  | s, a :: rest => a.docId = d ∧ s.accepts a = true ∧ touchesIn s.models a = true ∧
    TakesIn env d (offered env s a) rest

section

variable {env : Env}

theorem clockOf_offered (s : Inner) (a : Action) (d : DocId) :
    (offered env s a).clockOf d =
      if CountsFor d s a then (s.clockOf d).merge a.clock else s.clockOf d := by
  by_cases hmodel : (s.models.find a.model).isNone = true
  · have hno : ¬ CountsFor d s a := by
      rintro ⟨-, -, ht⟩
      unfold touchesIn at ht
      rw [Option.isNone_iff_eq_none.mp hmodel] at ht
      cases ht
    rw [if_neg hno]
    unfold offered
    rw [if_pos hmodel]
  · rw [← clockOf_applied s (env.io s a) a d]
    unfold offered
    rw [if_neg hmodel]
    rfl

theorem counted_cons (d : DocId) (s : Inner) (a : Action) (rest : List Action) :
    counted env d s (a :: rest) =
      if CountsFor d s a then a :: counted env d (offered env s a) rest
      else counted env d (offered env s a) rest := rfl

/-- **The clock after a list of actions** is the join of those that count. -/
theorem clockOf_foldl_counted (d : DocId) (l : List Action) (s : Inner) :
    (l.foldl (offered env) s).clockOf d = heard env d s l := by
  induction l generalizing s with
  | nil => rfl
  | cons a rest ih =>
    rw [List.foldl_cons, ih]
    unfold heard
    rw [clockOf_offered, counted_cons]
    split
    · rfl
    · rfl

theorem counted_subset (d : DocId) (l : List Action) (s : Inner) :
    ∀ a ∈ counted env d s l, a ∈ l := by
  induction l generalizing s with
  | nil => exact fun _ h => h
  | cons b rest ih =>
    intro a ha
    rw [counted_cons] at ha
    split at ha
    · rcases List.mem_cons.mp ha with rfl | ha
      · exact List.mem_cons_self
      · exact List.mem_cons_of_mem b (ih _ a ha)
    · exact List.mem_cons_of_mem b (ih _ a ha)

/-- No clock is taken back by a list of actions. -/
theorem clockOf_foldl_offered (d : DocId) (l : List Action) (s : Inner) :
    ((l.foldl (offered env) s).clockOf d).covers (s.clockOf d) = true := by
  induction l generalizing s with
  | nil => exact VecClock.covers_refl _
  | cons a rest ih =>
    refine VecClock.covers_trans (ih _) ?_
    rw [clockOf_offered]
    split
    · exact VecClock.covers_merge_left _ _
    · exact VecClock.covers_refl _

/-- **A list that is taken in counts, all of it.** -/
theorem takesIn_spec {d : DocId} {l : List Action} {s : Inner} (h : TakesIn env d s l) :
    (∀ a ∈ l, ((l.foldl (offered env) s).clockOf d).covers a.clock = true) ∧
      refusedOf env s l = [] := by
  induction l generalizing s with
  | nil => exact ⟨List.forall_mem_nil _, rfl⟩
  | cons a rest ih =>
    obtain ⟨hdoc, hacc, ht, hrest⟩ := h
    obtain ⟨hcount, hnone⟩ := ih hrest
    refine ⟨List.forall_mem_cons.mpr ⟨?_, hcount⟩, ?_⟩
    · refine VecClock.covers_trans (clockOf_foldl_offered d rest _) ?_
      rw [clockOf_offered, if_pos ⟨hdoc, hacc, ht⟩]
      exact VecClock.covers_merge_right _ _
    · unfold refusedOf
      rw [if_pos hacc]
      exact hnone

namespace Engine

theorem store_applyRemoteAction (e : Engine) (peer : Option PeerId) (a : Action) :
    (applyRemoteAction env e peer a).1.1.store = offered env e.store a := by
  unfold applyRemoteAction offered
  split
  · have hask : (e.requestModelFrom peer a.model).1.store = e.store := by
      cases peer with
      | none => rfl
      | some p => exact (requestModel_spec p a.model).1
    have hnote : ∀ e' : Engine, (e'.notePending a).store = e'.store := by
      intro e'
      unfold notePending
      split <;> rfl
    exact (hnote _).trans hask
  · cases Store.applyRemoteAction e.store (env.io e.store a) a with
    | mk store r =>
      cases r with
      | error msg => rfl
      | ok r =>
        dsimp only
        split <;> rfl

/-- The engine offers the actions of a reply to the store, one after the other. -/
theorem store_applyRemoteActions (peer : Option PeerId) (l : List Action) (e : Engine) :
    (applyRemoteActions env peer e l).1.1.store = l.foldl (offered env) e.store := by
  induction l generalizing e with
  | nil => rfl
  | cons a rest ih =>
    show (applyRemoteActions env peer (applyRemoteAction env e peer a).1.1 rest).1.1.store = _
    rw [ih, store_applyRemoteAction]
    rfl

end Engine

end

end PhReactor
