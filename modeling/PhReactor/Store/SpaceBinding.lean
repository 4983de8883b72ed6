/-
  A document's space.

  "A document's space is decided by its first action and never moves."  The guard of `applyAction`
  takes a NON-EMPTY LIVE LOG for "there was a first action"; a snapshot or an adoption clears the
  live log, and the next action then names the space anew (`space_moves_after_snapshot`).

  What does hold (`space_never_moves`): if, from the first accepted action on, every action that
  meets an empty live log names the space the entry already has — and the blank entry of a create
  path was not snapshotted before that first action — then the space stays what the first action
  made it, through re-folds, snapshots, adoptions and changes of the registry, and every action
  that names another space is rejected.

  The invariant (`SpaceInv`) is about three places that must agree: the entry, every action of its
  live log, and the snapshot a re-fold would start from.
-/
import PhReactor.Sample

set_option linter.unusedSectionVars false

namespace PhReactor

section

variable [Primitives]

/-- Before the first action of `d`: nothing is accepted for it, and a blank entry that carries a
    space already is not snapshotted. -/
structure BeforeFirst (d : DocId) (s : Inner) (ev : Event) : Prop where
  noAction : ∀ io a m, ev = .applyAction io a → a.docId = d → ¬ s.Accepted a m
  noSnapshot : ∀ io e, ev = .snapshot io d → s.entries[d]? = some e → e.space = none

/-- An action that meets an empty live log of `d` names the space of the entry. -/
def NamesSpace (d : DocId) (s : Inner) (ev : Event) : Prop :=
  ∀ io a e, ev = .applyAction io a → a.docId = d → s.entries[d]? = some e → e.log = [] →
    a.space = e.space

/-! ## The space of a settled entry -/

theorem space_appended (e : Entry) (m : Model) (a : Action) :
    (appended e m a).space = if e.log.isEmpty then a.space else e.space := by
  show (applyOpsToEntry (if e.log.isEmpty then { e with space := a.space } else e) m a).1.space = _
  rw [space_applyOpsToEntry]
  cases e.log.isEmpty <;> rfl

theorem space_refolded (s : Inner) (d : DocId) (e : Entry) :
    (s.refolded d e).space =
      if (s.baseEntry d).space.isNone then (sortLog e.log).head?.bind Action.space
      else (s.baseEntry d).space := by
  unfold Inner.refolded
  dsimp only
  have hfold : ∀ (l : List Action) (e₀ : Entry),
      (l.foldl (foldStep s.models) e₀).space = e₀.space := fun l e₀ =>
    foldl_foldStep_induct (P := fun e => e.space = e₀.space)
      (fun e a m _ he => (space_refoldStep e a m).trans he) l e₀ rfl
  rw [hfold]
  cases (s.baseEntry d).space.isNone <;> rfl

theorem space_baseEntry (s : Inner) (d : DocId) :
    (s.baseEntry d).space = (s.disk.snap[d]?).bind DocState.space := by
  unfold Inner.baseEntry
  cases s.disk.snap[d]? <;> rfl

theorem head?_space_of_forall {log : List Action} {sp : Option DocId} (hne : log ≠ [])
    (h : ∀ b ∈ log, b.space = sp) : (sortLog log).head?.bind Action.space = sp := by
  cases hl : sortLog log with
  | nil =>
    obtain ⟨b, hb⟩ := List.exists_mem_of_ne_nil log hne
    have := mem_sortLog.mpr hb
    rw [hl] at this
    exact absurd this List.not_mem_nil
  | cons b l => exact h b (mem_sortLog.mp (by rw [hl]; exact List.mem_cons_self))

/-! ## The invariant -/

/-- The entry of `d`, its live log and its snapshot agree that `d` lives in `sp`. -/
structure SpaceInv (d : DocId) (sp : Option DocId) (v : View) (e : Entry) : Prop where
  entry : v.entry = some e
  space : e.space = sp
  log : ∀ b ∈ e.log, b.space = sp
  snap : ∀ st, v.snap = some st → st.space = none ∨ st.space = sp

/-- Recording the entry in a snapshot keeps the agreement. -/
theorem SpaceInv.snapshot {d : DocId} {sp : Option DocId} {v : View} {e : Entry}
    (h : SpaceInv d sp v e) (io : Io) : ∃ e', SpaceInv d sp (v.snapshot io) e' := by
  rcases v.snapshot_cases io h.entry with ⟨hentry, -, hsnap⟩ | ⟨-, hv⟩
  · refine ⟨e, hentry, h.space, h.log, fun st hst => ?_⟩
    rcases hsnap with hsnap | ⟨-, hsnap⟩
    · exact h.snap st (hsnap ▸ hst)
    · rw [hsnap] at hst; cases hst
  · rw [hv]
    refine ⟨{ e with log := [] }, rfl, h.space, fun b hb => absurd hb List.not_mem_nil, ?_⟩
    intro st hst
    obtain rfl : e.snapState = st := Option.some.inj hst
    exact Or.inr h.space

theorem SpaceInv.finish {d : DocId} {sp : Option DocId} {v : View} {e : Entry}
    (h : SpaceInv d sp v e) (io : Io) (a : Action) : ∃ e', SpaceInv d sp (v.finish io a) e' := by
  rcases v.finish_cases io a h.entry with ⟨hentry, hsnap⟩ | ⟨-, hentry, hsnap⟩
  · refine ⟨e, hentry, h.space, h.log, fun st hst => ?_⟩
    rcases hsnap with hsnap | ⟨-, hsnap⟩
    · exact h.snap st (hsnap ▸ hst)
    · rw [hsnap] at hst; cases hst
  · refine ⟨{ e with log := [] }, hentry, h.space, fun b hb => absurd hb List.not_mem_nil, ?_⟩
    intro st hst
    rw [hsnap] at hst
    obtain rfl : e.snapState = st := Option.some.inj hst
    exact Or.inr h.space

/-- An accepted action that names the space of a document settles it in that space. -/
theorem space_settled {s : Inner} {a : Action} {m : Model} {sp : Option DocId}
    (hentry : (s.entryFor a.docId).log.isEmpty = false → (s.entryFor a.docId).space = sp)
    (hlog : ∀ b ∈ (s.entryFor a.docId).log, b.space = sp) (ha : a.space = sp)
    (hsnap : ∀ st, s.disk.snap[a.docId]? = some st → st.space = none ∨ st.space = sp) :
    (s.settled a m).space = sp := by
  have happ : (appended (s.entryFor a.docId) m a).space = sp := by
    rw [space_appended]
    cases hne : (s.entryFor a.docId).log.isEmpty with
    | true => exact ha
    | false => exact hentry hne
  unfold Inner.settled
  cases s.outOfOrder a with
  | false => exact happ
  | true =>
    -- a re-fold asks its base first, and then the canonically first action
    show (s.refolded a.docId (appended (s.entryFor a.docId) m a)).space = sp
    have hhead :
        (sortLog (appended (s.entryFor a.docId) m a).log).head?.bind Action.space = sp := by
      refine head?_space_of_forall (by simp [appended]) fun b hb => ?_
      rcases List.mem_append.mp hb with hb | hb
      · exact hlog b hb
      · rw [List.mem_singleton.mp hb]; exact ha
    rw [space_refolded, hhead, space_baseEntry]
    cases hst : s.disk.snap[a.docId]? with
    | none => rfl
    | some st =>
      rw [Option.bind_some]
      rcases hsnap st hst with h | h
      · rw [h]; rfl
      · rw [h]
        cases sp <;> rfl

/-- The guard: an action that meets a live log names the space of the entry. -/
theorem Inner.Admits.space_eq {s : Inner} {a : Action} {m : Model} (h : s.Admits a m)
    (hlog : (s.entryFor a.docId).log ≠ []) : (s.entryFor a.docId).space = a.space := by
  have hbind := h.spaceBinding
  unfold Inner.checkSpaceBinding at hbind
  cases he : s.entries[a.docId]? with
  | none => exact absurd (by rw [entryFor_of_none he]; rfl) hlog
  | some e =>
    rw [entryFor_eq he] at hlog ⊢
    rw [he] at hbind
    dsimp only at hbind
    by_contra hne
    rw [if_pos (by simp [hlog, hne])] at hbind
    cases hbind

/-- What an accepted action names: the guard speaks when the log is not empty, the condition when
    it is. -/
theorem NamesSpace.space_eq {d : DocId} {io : Io} {s : Inner} {a : Action} {m : Model} {e : Entry}
    (h : NamesSpace d s (.applyAction io a)) (hd : a.docId = d) (hadm : s.Admits a m)
    (he : s.entries[d]? = some e) : a.space = e.space := by
  by_cases hlog : e.log = []
  · exact h io a e rfl hd he hlog
  · subst hd
    have hsp := hadm.space_eq (by rw [entryFor_eq he]; exact hlog)
    rw [entryFor_eq he] at hsp
    exact hsp.symm

/-- **Step lemma**: an event that names the space of `d` wherever `d`'s live log is empty keeps
    `d` in its space. -/
theorem spaceInv_exec {d : DocId} {sp : Option DocId} {s : Inner} {ev : Event}
    (hen : ev.Enabled s) (hname : NamesSpace d s ev) (h : ∃ e, SpaceInv d sp (s.view d) e) :
    ∃ e, SpaceInv d sp ((s.exec ev).view d) e := by
  obtain ⟨e, h⟩ := h
  have hfor : s.entryFor d = e := entryFor_eq h.entry
  have hstep := docStep_exec s ev hen d
  generalize (s.exec ev).view d = v at hstep
  cases hstep with
  | stay _ => exact ⟨e, h⟩
  | created sp' hnew _ =>
    rw [show s.entries[d]? = some e from h.entry] at hnew
    cases hnew
  | @accepted io a m hd hacc =>
    subst hd
    have ha : a.space = sp := (hname.space_eq rfl hacc.toAdmits h.entry).trans h.space
    have hspace : (s.settled a m).space = sp :=
      space_settled (fun _ => by rw [hfor]; exact h.space) (by rw [hfor]; exact h.log) ha h.snap
    have hset : SpaceInv a.docId sp { s.view a.docId with entry := some (s.settled a m) }
        (s.settled a m) := by
      refine ⟨rfl, hspace, fun b hb => ?_, h.snap⟩
      rcases mem_settled_log.mp hb with hb | rfl
      · rw [hfor] at hb; exact h.log b hb
      · exact ha
    exact hset.finish io a
  | @stuck io a m hd hacc _ =>
    subst hd
    have ha : a.space = sp := (hname.space_eq rfl hacc.toAdmits h.entry).trans h.space
    rw [hfor]
    refine ⟨appended e m a, rfl, ?_, fun b hb => ?_, h.snap⟩
    · rw [space_appended]
      cases e.log.isEmpty with
      | true => exact ha
      | false => exact h.space
    · rcases List.mem_append.mp hb with hb | hb
      · exact h.log b hb
      · rw [List.mem_singleton.mp hb]; exact ha
  | snapshot io => exact h.snapshot io
  | adopted hd =>
    refine ⟨_, rfl, ?_, fun b hb => absurd hb List.not_mem_nil, h.snap⟩
    show (s.entryFor d).space = sp
    rw [hfor]; exact h.space

/-! ## Before the first action -/

/-- As long as nothing is accepted for `d`, its log is empty and no snapshot of it names a
    space. -/
structure Unclaimed (d : DocId) (v : View) : Prop where
  log : ∀ e, v.entry = some e → e.log = []
  snap : ∀ st, v.snap = some st → st.space = none

theorem unclaimed_exec {d : DocId} {s : Inner} {ev : Event} (hen : ev.Enabled s)
    (hp : BeforeFirst d s ev) (h : Unclaimed d (s.view d)) : Unclaimed d ((s.exec ev).view d) := by
  have hstep := docStep_exec s ev hen d
  generalize (s.exec ev).view d = v at hstep
  cases hstep with
  | stay _ => exact h
  | created sp _ _ =>
    refine ⟨?_, h.snap⟩
    intro e he
    rw [← Option.some.inj he]
    rfl
  | @accepted io a m hd hacc => exact absurd hacc (hp.noAction io a m rfl hd)
  | @stuck io a m hd hacc _ => exact absurd hacc (hp.noAction io a m rfl hd)
  | snapshot io =>
    cases he : (s.view d).entry with
    | none => rw [View.snapshot_of_none he]; exact h
    | some e =>
      rcases (s.view d).snapshot_cases io he with ⟨hentry, -, hsnap⟩ | ⟨-, hv⟩
      · refine ⟨fun e' he' => h.log e' (he.trans (hentry.symm.trans he')), fun st hst => ?_⟩
        rcases hsnap with hsnap | ⟨-, hsnap⟩
        · exact h.snap st (hsnap ▸ hst)
        · rw [hsnap] at hst; cases hst
      · rw [hv]
        refine ⟨fun e' he' => ?_, fun st hst => ?_⟩
        · rw [← Option.some.inj he']
        · rw [← Option.some.inj hst]
          exact hp.noSnapshot io e rfl he
  | adopted hd =>
    refine ⟨?_, h.snap⟩
    intro e he
    rw [← Option.some.inj he]
    rfl

theorem unclaimed_run {d : DocId} {key : SigningKey} {origin : Origin} {extra : List Model}
    {s : Inner} (h : Inner.Run (BeforeFirst d) (Store.fresh key origin extra) s) :
    Unclaimed d (s.view d) := by
  refine h.induct (I := fun s => Unclaimed d (s.view d)) ?_ fun s ev hen hp hi =>
    unclaimed_exec hen hp hi
  rw [Store.fresh_view]
  refine ⟨?_, ?_⟩
  · intro e he; cases he
  · intro st hst; cases hst

/-- The first accepted action puts the document in its space. -/
theorem spaceInv_first {s : Inner} {a : Action} {m : Model} (io : Io) (hacc : s.Accepted a m)
    (h : Unclaimed a.docId (s.view a.docId)) :
    ∃ e, SpaceInv a.docId a.space ((s.exec (.applyAction io a)).view a.docId) e := by
  have hnil : (s.entryFor a.docId).log = [] := by
    cases he : s.entries[a.docId]? with
    | none => rw [entryFor_of_none he]; rfl
    | some e => rw [entryFor_eq he]; exact h.log e he
  have hsnap : ∀ st, (s.view a.docId).snap = some st → st.space = none ∨ st.space = a.space :=
    fun st hst => Or.inl (h.snap st hst)
  have hstep := docStep_exec s (.applyAction io a) trivial a.docId
  generalize (s.exec (.applyAction io a)).view a.docId = v at hstep
  cases hstep with
  | stay hno => exact absurd hacc (hno io a rfl rfl m)
  | created sp _ hno => exact absurd hacc ((hno io a rfl).2 m)
  | @accepted _ _ m' _ hacc' =>
    have hspace : (s.settled a m').space = a.space :=
      space_settled (fun hne => by rw [hnil] at hne; cases hne)
        (fun b hb => by rw [hnil] at hb; exact absurd hb List.not_mem_nil) rfl hsnap
    have hset : SpaceInv a.docId a.space { s.view a.docId with entry := some (s.settled a m') }
        (s.settled a m') := by
      refine ⟨rfl, hspace, fun b hb => ?_, hsnap⟩
      rcases mem_settled_log.mp hb with hb | rfl
      · rw [hnil] at hb; exact absurd hb List.not_mem_nil
      · rfl
    exact hset.finish io a
  | @stuck _ _ m' _ hacc' hres =>
    -- the log holds the action alone, and its model has just been found
    refine absurd ?_ hres
    intro b hb
    have hb : b ∈ (s.entryFor a.docId).log ++ [a] := hb
    rw [hnil, List.nil_append, List.mem_singleton] at hb
    rw [hb, hacc'.model]
    rfl

/-- **A document's space does not move**, as long as every action that meets an empty live log
    names the space of the entry: from the first accepted action on, the entry lives in the space
    that action named, in every state of the run, and every action naming another one is
    rejected. -/
theorem space_never_moves {d : DocId} {key : SigningKey} {origin : Origin} {extra : List Model}
    {s₀ s : Inner} {io : Io} {a : Action} {m : Model}
    (hbefore : Inner.Run (BeforeFirst d) (Store.fresh key origin extra) s₀)
    (hd : a.docId = d) (hacc : s₀.Accepted a m)
    (hrun : Inner.Run (NamesSpace d) (s₀.exec (.applyAction io a)) s) :
    (∃ e, s.entries[d]? = some e ∧ e.space = a.space) ∧
      ∀ io' b, b.docId = d → NamesSpace d s (.applyAction io' b) → b.space ≠ a.space →
        ∃ reason, s.applyAction io' b = s.reject reason := by
  subst hd
  have hinv : ∃ e, SpaceInv a.docId a.space (s.view a.docId) e :=
    hrun.induct (I := fun s => ∃ e, SpaceInv a.docId a.space (s.view a.docId) e)
      (spaceInv_first io hacc (unclaimed_run hbefore)) fun _ _ hen hp hi => spaceInv_exec hen hp hi
  obtain ⟨e, h⟩ := hinv
  have he : s.entries[a.docId]? = some e := h.entry
  refine ⟨⟨e, he, h.space⟩, ?_⟩
  intro io' b hb hname hne
  -- every outcome but a rejection has passed the guard
  rcases s.applyAction_cases io' b with
    ⟨reason, -, hrej⟩ | ⟨m', r, hadm, -, -⟩ | ⟨m', msg, hacc', -, -⟩ | ⟨m', hacc', -, -, -⟩
  · exact ⟨reason, hrej⟩
  · exact absurd ((hname.space_eq hb hadm he).trans h.space) hne
  · exact absurd ((hname.space_eq hb hacc'.toAdmits he).trans h.space) hne
  · exact absurd ((hname.space_eq hb hacc'.toAdmits he).trans h.space) hne

end

section

open Sample

attribute [local instance] Sample.primitives

/-- A field write that names the space of the document. -/
def setInSpace (p : Peer) (ts : U64) (clock : List (Origin × U64)) (space : Option DocId) :
    Action :=
  act p "open" "set" (Store.setPayload "title" (.string "minutes")) ts clock space

/-- Alice's node, before the document's first action. -/
def spaceStore₀ : Inner := (Store.fresh alice.key alice.name []).execAll (pins [bob])

/-- After a first action in the space, and a snapshot. -/
def spaceStore : Inner :=
  (spaceStore₀.exec (.applyAction Io.ok (setInSpace alice 10 [("alice", 1)] (some spaceId)))).exec
    (.snapshot Io.ok docId)

theorem space_never_moves_after_snapshot :
    ∃ e, (spaceStore.exec (.applyAction Io.ok (setInSpace bob 20 [("alice", 1), ("bob", 1)]
        (some spaceId)))).entries[docId]? = some e ∧ e.space = some spaceId := by
  obtain ⟨m, hacc⟩ : ∃ m, spaceStore₀.Accepted (setInSpace alice 10 [("alice", 1)] (some spaceId)) m
    := Inner.accepted_of_isOk Io.ok (by decide +kernel)
  have hbefore : Inner.Run (BeforeFirst docId) (Store.fresh alice.key alice.name []) spaceStore₀ :=
    Relation.ReflTransGen.single ⟨.registerPeerKey bob.name bob.key, trivial,
      ⟨fun _ _ _ h => (nomatch h), fun _ _ h => (nomatch h)⟩, rfl⟩
  have hspace : spaceStore.entries[docId]?.map Entry.space = some (some spaceId) := by
    decide +kernel
  have hrun : Inner.Run (NamesSpace docId)
      (spaceStore₀.exec (.applyAction Io.ok (setInSpace alice 10 [("alice", 1)] (some spaceId))))
      (spaceStore.exec (.applyAction Io.ok (setInSpace bob 20 [("alice", 1), ("bob", 1)]
        (some spaceId)))) := by
    refine Relation.ReflTransGen.tail (Relation.ReflTransGen.single
      ⟨.snapshot Io.ok docId, trivial, fun _ _ _ h => (nomatch h), rfl⟩)
      ⟨.applyAction Io.ok (setInSpace bob 20 [("alice", 1), ("bob", 1)] (some spaceId)), trivial,
        ?_, rfl⟩
    rintro io a e heq - he -
    obtain ⟨-, rfl⟩ := Event.applyAction.inj heq
    have he : spaceStore.entries[docId]? = some e := he
    rw [he] at hspace
    exact (Option.some.inj hspace).symm
  exact (space_never_moves hbefore rfl hacc hrun).1

/-- After a snapshot the live log is empty, and an action that names NO space is accepted: the
    document has left its space. -/
theorem space_moves_after_snapshot :
    (spaceStore₀.applyAction Io.ok (setInSpace alice 10 [("alice", 1)] (some spaceId))).2.isOk =
        true ∧
      spaceStore.entries[docId]?.map Entry.space = some (some spaceId) ∧
      (spaceStore.applyAction Io.ok (setInSpace bob 20 [("alice", 1), ("bob", 1)] none)).2.isOk =
        true ∧
      (spaceStore.applyAction Io.ok
        (setInSpace bob 20 [("alice", 1), ("bob", 1)] none)).1.entries[docId]?.map Entry.space =
          some none := by
  decide +kernel

end

end PhReactor
