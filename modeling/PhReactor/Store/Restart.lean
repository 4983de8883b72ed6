/-
  Closing a store and opening it again.

  `openWithModels` rebuilds every document that has a WAL file: from its snapshot, folding its WAL
  in canonical order.  The live store has folded the same actions in the same order, yet the two
  folds are NOT the same function:

  1. a re-fold passes over an action whose checks fail at its canonical place; the replay makes no
     checks and applies it (`restart_differs`);

  2. the live log keeps every accepted action; the replay keeps those that changed something;

  3. a snapshot files the document under `open@1`; the live entry keeps its model;

  4. the live index forgets the name of a deleted document and remembers the old name of a renamed
     one; the replay registers the present name of both.

  `RecordedInv d s` is what a run with working disk keeps about the files of `d`: the live log is
  the sorted WAL, and the entry is the canonical fold of it from the snapshot.  `Steady s d` says
  that the four differences do not show on `d`; then the document comes back as it was
  (`restored_replayed`).  `Restartable s` says so of every document and of the index, and then
  `get` and `mayPeerRead` answer as before (`restart_equivalent`).
-/
import PhReactor.Store.Admission
import PhReactor.Store.SpaceBinding

set_option linter.unusedSectionVars false

namespace PhReactor

section

/-! ## Whether an action changes anything -/

/-- Whether some op counts is read off the document and its deleted flag. -/
theorem applyOps_snd_congr (ops : List Op) {c c' : Cell} (hdoc : c.doc = c'.doc)
    (hdel : c.deleted = c'.deleted) : (applyOps c ops).2 = (applyOps c' ops).2 := by
  -- both loops carry the same flag, and cells that differ in their clocks only
  have key : ∀ (ops : List Op) (c c' : Cell) (b : Bool), c.doc = c'.doc →
      c.deleted = c'.deleted →
      (ops.foldl (fun (p : Cell × Bool) op =>
        ((applyOp p.1 op).1, p.2 || (applyOp p.1 op).2.applied)) (c, b)).2 =
      (ops.foldl (fun (p : Cell × Bool) op =>
        ((applyOp p.1 op).1, p.2 || (applyOp p.1 op).2.applied)) (c', b)).2 := by
    intro ops
    induction ops with
    | nil => intro c c' b _ _; rfl
    | cons op ops ih =>
      intro c c' b hdoc hdel
      obtain ⟨hdoc', hdel'⟩ := runOps_sameDoc [op] hdoc hdel
      have happ := (applyOp_sameDoc op hdoc hdel).2
      rw [List.foldl_cons, List.foldl_cons, happ]
      exact ih _ _ _ hdoc' hdel'
  exact key ops c c' false hdoc hdel

theorem SameDoc.applied_eq {e e' : Entry} (h : SameDoc e e') (m : Model) (a : Action) :
    (applyOpsToEntry e m a).2.1 = (applyOpsToEntry e' m a).2.1 := by
  unfold applyOpsToEntry
  rw [h.doc]
  cases m.reduce e'.doc a with
  | error r => rfl
  | ok ops => exact applyOps_snd_congr _ h.doc h.deleted

/-- An op that does not count leaves document and deleted flag alone. -/
theorem applyOp_of_not_applied {c : Cell} {op : Op} (h : (applyOp c op).2.applied = false) :
    (applyOp c op).1.doc = c.doc ∧ (applyOp c op).1.deleted = c.deleted := by
  unfold applyOp at h ⊢
  dsimp only at h ⊢
  repeat' split
  all_goals simp_all

/-- So do ops of which none counts. -/
theorem applyOps_of_not_applied : ∀ (ops : List Op) {c : Cell}, (applyOps c ops).2 = false →
    (runOps c ops).doc = c.doc ∧ (runOps c ops).deleted = c.deleted := by
  -- the flag only rises, so it was down all the way
  have hrise : ∀ (ops : List Op) (c : Cell), (ops.foldl (fun (p : Cell × Bool) op =>
      ((applyOp p.1 op).1, p.2 || (applyOp p.1 op).2.applied)) (c, true)).2 = true := by
    intro ops
    induction ops with
    | nil => exact fun c => rfl
    | cons op ops ih => exact fun c => ih _
  intro ops
  induction ops with
  | nil => exact fun _ => ⟨rfl, rfl⟩
  | cons op ops ih =>
    intro c h
    have hstep : (applyOps c (op :: ops)).2 = (ops.foldl (fun (p : Cell × Bool) op =>
        ((applyOp p.1 op).1, p.2 || (applyOp p.1 op).2.applied))
        ((applyOp c op).1, (applyOp c op).2.applied)).2 := rfl
    rw [hstep] at h
    cases happ : (applyOp c op).2.applied with
    | true =>
      rw [happ, hrise] at h
      cases h
    | false =>
      rw [happ] at h
      obtain ⟨hdoc, hdel⟩ := applyOp_of_not_applied happ
      obtain ⟨hdoc', hdel'⟩ := ih h
      exact ⟨hdoc'.trans hdoc, hdel'.trans hdel⟩

/-- **An action that changes nothing leaves the document as it is.** -/
theorem sameDoc_of_not_applied {e : Entry} (hl : Lifted e.doc) {m : Model} {a : Action}
    (h : (applyOpsToEntry e m a).2.1 = false) : SameDoc (applyOpsToEntry e m a).1 e := by
  cases hred : m.reduce e.doc a with
  | error r =>
    rw [applyOpsToEntry_error hred]
    exact SameDoc.refl e
  | ok ops =>
    have hflag : (applyOps e.cell (ops.map (stampOp a))).2 = false := by
      unfold applyOpsToEntry at h
      rw [hred] at h
      exact h
    obtain ⟨hdoc, hdel⟩ := applyOps_of_not_applied _ hflag
    rw [applyOpsToEntry_ok hred]
    refine ⟨?_, hdel⟩
    show liftName (runOps e.cell (ops.map (stampOp a))).doc = e.doc
    rw [hdoc]
    exact liftName_of_lifted hl

variable [Primitives]

/-- Does the action change anything of the entry it meets. -/
def changes (r : ModelRegistry) (e : Entry) (a : Action) : Bool :=
  (r.find a.model).any fun m => (applyOpsToEntry e m a).2.1

/-- The actions of a list that change something where a fold from the entry meets them. -/
def changing (r : ModelRegistry) : Entry → List Action → List Action
  | _, [] => []
  | e, a :: l =>
    if changes r e a then a :: changing r (foldStep r e a) l else changing r (foldStep r e a) l

/-- A fold from the entry passes no action of the list over. -/
def allPass (r : ModelRegistry) : Entry → List Action → Bool
  | _, [] => true
  | e, a :: l => !passesOver r e a && allPass r (foldStep r e a) l

/-- Where the checks pass, a step of a fold applies the action. -/
theorem foldStep_of_passes {r : ModelRegistry} {e : Entry} {a : Action}
    (h : passesOver r e a = false) : ∃ m, r.find a.model = some m ∧
      foldStep r e a = { (applyOpsToEntry e m a).1 with model := a.model } := by
  unfold passesOver at h
  unfold foldStep
  cases hm : r.find a.model with
  | none => rw [hm] at h; cases h
  | some m =>
    rw [hm] at h
    have hok : ((m.checkPrecondition e.doc a).isOk && (m.authorize e.doc a).isOk) = true := by
      rw [← Bool.not_eq_false', ← Bool.not_eq_true]
      simpa using h
    refine ⟨m, rfl, ?_⟩
    show refoldStep e a m = _
    unfold refoldStep
    rw [if_pos hok]

/-! ## The replay of one document -/

/-- One WAL line of a replay, when its model is there. -/
theorem replayStep_spec {s : Inner} {a : Action} {m : Model} (hm : s.models.find a.model = some m)
    (e : Entry) :
    SameDoc (s.replayStep e a) (applyOpsToEntry e m a).1 ∧
      (s.replayStep e a).model = a.model ∧
      (s.replayStep e a).clock = (if m.touches a then e.clock.merge a.clock else e.clock) ∧
      (s.replayStep e a).log = (if changes s.models e a then e.log ++ [a] else e.log) ∧
      (s.replayStep e a).space = e.space.or a.space := by
  -- the space stamp does not reach the fold
  generalize hst : (if e.space.isNone then { e with space := a.space } else e) = e₁
  have hsame : SameDoc e₁ e := by
    rw [← hst]
    split <;> exact ⟨rfl, rfl⟩
  have hclock : e₁.clock = e.clock := by rw [← hst]; split <;> rfl
  have hlog : e₁.log = e.log := by rw [← hst]; split <;> rfl
  have hspace : e₁.space = e.space.or a.space := by
    rw [← hst]
    cases hsp : e.space with
    | none => rfl
    | some sp => exact hsp
  have hchanges : changes s.models e a = (applyOpsToEntry e₁ m a).2.1 := by
    rw [hsame.applied_eq, changes, hm]
    rfl
  have hdoc := hsame.after_applyOps m a
  have hdel := deleted_applyOpsToEntry e₁ m a
  have hclk := clock_applyOpsToEntry e₁ m a
  have hlg := log_applyOpsToEntry e₁ m a
  have hsp := space_applyOpsToEntry e₁ m a
  unfold Inner.replayStep
  rw [hst, hm, hchanges]
  dsimp only
  rw [hclock] at hclk
  cases happ : (applyOpsToEntry e₁ m a).2.1 with
  | true =>
    exact ⟨⟨hdoc.doc, hdel.trans hdoc.deleted⟩, rfl, hclk,
      congrArg (· ++ [a]) (hlg.trans hlog), hsp.trans hspace⟩
  | false =>
    exact ⟨⟨hdoc.doc, hdel.trans hdoc.deleted⟩, rfl, hclk, hlg.trans hlog, hsp.trans hspace⟩

/-- An action of a model that is not loaded is preserved for audit, and not folded. -/
theorem replayStep_missing {s : Inner} {a : Action} (hm : s.models.find a.model = none)
    (e : Entry) :
    SameDoc (s.replayStep e a) e ∧ (s.replayStep e a).log = e.log ++ [a] := by
  unfold Inner.replayStep
  rw [hm]
  dsimp only
  split <;> exact ⟨⟨rfl, rfl⟩, rfl⟩

/-- **The replay of a log in which every action passes its checks is its fold**, but for the log:
    that keeps the actions that change something. -/
theorem foldl_replayStep {s : Inner} : ∀ (l : List Action) (e e' : Entry), SameDoc e' e →
    e'.model = e.model → allPass s.models e l = true →
    SameDoc (l.foldl s.replayStep e') (l.foldl (foldStep s.models) e) ∧
      (l.foldl s.replayStep e').model = (l.foldl (foldStep s.models) e).model ∧
      (l.foldl s.replayStep e').clock = logClock s.models e'.clock l ∧
      (l.foldl s.replayStep e').log = e'.log ++ changing s.models e l
  | [], e, e', hsame, hmodel, _ => ⟨hsame, hmodel, rfl, (List.append_nil _).symm⟩
  | a :: l, e, e', hsame, hmodel, hpass => by
    unfold allPass at hpass
    rw [Bool.and_eq_true, Bool.not_eq_true'] at hpass
    -- the checks pass, so the fold applies the action as the replay does
    obtain ⟨m, hm, hstep⟩ := foldStep_of_passes hpass.1
    obtain ⟨hdoc, hmod, hclk, hlog, -⟩ := replayStep_spec hm e'
    have hsame' : SameDoc (s.replayStep e' a) (foldStep s.models e a) := by
      rw [hstep]
      have h := hdoc.trans (hsame.after_applyOps m a)
      exact ⟨h.doc, h.deleted⟩
    have hmod' : (s.replayStep e' a).model = (foldStep s.models e a).model := by
      rw [hstep]; exact hmod
    have hch : changes s.models e' a = changes s.models e a := by
      unfold changes
      rw [hm]
      exact hsame.applied_eq m a
    obtain ⟨h₁, h₂, h₃, h₄⟩ := foldl_replayStep l _ _ hsame' hmod' hpass.2
    refine ⟨h₁, h₂, ?_, ?_⟩
    · rw [List.foldl_cons, h₃, hclk, logClock_cons s.models _ _ hm]
    · rw [List.foldl_cons, h₄, hlog, hch]
      show _ = e'.log ++ if changes s.models e a then _ else _
      cases changes s.models e a with
      | true => simp
      | false => simp

/-- The space of a replayed log: the base's, or the first that an action names. -/
theorem space_foldl_replayStep {s : Inner} : ∀ (l : List Action) (e : Entry),
    s.models.Resolves l →
    (l.foldl s.replayStep e).space = l.foldl (fun sp a => sp.or a.space) e.space
  | [], _, _ => rfl
  | a :: l, e, hres => by
    obtain ⟨m, hm⟩ := Option.isSome_iff_exists.mp (hres a List.mem_cons_self)
    obtain ⟨-, -, -, -, hsp⟩ := replayStep_spec hm e
    rw [List.foldl_cons, space_foldl_replayStep l _ fun b hb => hres b (List.mem_cons_of_mem a hb),
      hsp]
    rfl

theorem foldl_or_some (sp : DocId) (l : List Action) :
    l.foldl (fun sp a => sp.or a.space) (some sp) = some sp := by
  induction l with
  | nil => rfl
  | cons a l ih => exact ih

/-- Where all actions name one space, the replay finds it. -/
theorem foldl_or_none {sp : Option DocId} : ∀ l : List Action, l ≠ [] →
    (∀ a ∈ l, a.space = sp) → l.foldl (fun sp a => sp.or a.space) none = sp
  | [], hne, _ => absurd rfl hne
  | a :: l, _, hall => by
    have ha : a.space = sp := hall a List.mem_cons_self
    rw [List.foldl_cons, Option.none_or, ha]
    cases sp with
    | some sp => exact foldl_or_some sp l
    | none =>
      cases l with
      | nil => rfl
      | cons b l =>
        refine foldl_or_none (b :: l) (List.cons_ne_nil b l) fun c hc => ?_
        exact hall c (List.mem_cons_of_mem a hc)

/-! ## The replay of a directory -/

/-- The entry a replay rebuilds for `d`. -/
def Inner.replayed (s : Inner) (d : DocId) : Entry :=
  let fresh :=
    match s.disk.snap[d]? with
    | some b => Entry.ofState b
    | none => Entry.new d
  (sortLog (s.disk.alog[d]?.getD [])).foldl s.replayStep
    { fresh with doc := liftName { fresh.doc with id := d } }

/-- An entry that a replay does not keep. -/
def Entry.blank (e : Entry) : Bool :=
  decide (e.doc.name = "") && e.doc.fields.isEmpty && e.log.isEmpty && !e.deleted

theorem replayDoc_eq (s : Inner) (d : DocId) :
    s.replayDoc d = if (s.replayed d).blank then s else
      { s with
        entries := s.entries.insert d (s.replayed d)
        names := if (s.replayed d).doc.name = "" then s.names
          else s.names.insert (s.replayed d).doc.name d
        tsHint := max s.tsHint (((s.replayed d).log.map Action.ts).foldl max 0) } := by
  have hblank : ((s.replayed d).doc.name = "" ∧ (s.replayed d).doc.fields.isEmpty ∧
      (s.replayed d).log.isEmpty ∧ !(s.replayed d).deleted) ↔ (s.replayed d).blank = true := by
    unfold Entry.blank
    simp [and_assoc]
  unfold Inner.replayDoc
  dsimp only
  show (if (s.replayed d).doc.name = "" ∧ (s.replayed d).doc.fields.isEmpty ∧
      (s.replayed d).log.isEmpty ∧ !(s.replayed d).deleted then s else _) = _
  by_cases h : (s.replayed d).blank = true
  · rw [if_pos h, if_pos (hblank.mpr h)]
  · rw [if_neg h, if_neg fun h' => h (hblank.mp h')]
    rfl

/-- A replay reads the files and the models. -/
theorem replayed_congr {s t : Inner} (hdisk : t.disk = s.disk) (hmodels : t.models = s.models)
    (d : DocId) : t.replayed d = s.replayed d := by
  have hstep : t.replayStep = s.replayStep := by
    funext e a
    unfold Inner.replayStep
    rw [hmodels]
  unfold Inner.replayed
  rw [hdisk, hstep]

/-- The replayed entry of `d` carries the name `n`, and is kept. -/
def Inner.namedBy (s : Inner) (n : String) (d : DocId) : Bool :=
  !(s.replayed d).blank && decide (n ≠ "" ∧ (s.replayed d).doc.name = n)

theorem getElem?_entries_replayDoc (s : Inner) (d d' : DocId) :
    (s.replayDoc d).entries[d']? =
      if d = d' ∧ (s.replayed d).blank = false then some (s.replayed d') else s.entries[d']? := by
  rw [replayDoc_eq]
  cases (s.replayed d).blank with
  | true => simp
  | false =>
    show (s.entries.insert d (s.replayed d))[d']? = _
    rw [Std.ExtTreeMap.getElem?_insert]
    by_cases hd : d = d'
    · subst hd; simp
    · simp [hd]

theorem getElem?_names_replayDoc (s : Inner) (d : DocId) (n : String) :
    (s.replayDoc d).names[n]? = if s.namedBy n d then some d else s.names[n]? := by
  rw [replayDoc_eq]
  unfold Inner.namedBy
  cases (s.replayed d).blank with
  | true => simp
  | false =>
    show (if (s.replayed d).doc.name = "" then s.names
      else s.names.insert (s.replayed d).doc.name d)[n]? = _
    by_cases hname : (s.replayed d).doc.name = ""
    · rw [if_pos hname, hname]
      by_cases hn : n = ""
      · simp [hn]
      · simp [Ne.symm hn]
    · rw [if_neg hname, Std.ExtTreeMap.getElem?_insert]
      by_cases hn : (s.replayed d).doc.name = n
      · subst hn; simp [hname]
      · simp [hn]

/-- **The loop of the replay**: each document comes out as `replayed` has it, and of the documents
    of one name the last one gets it. -/
theorem foldl_replayDoc : ∀ (ids : List DocId) (s : Inner),
    (∀ d, (ids.foldl (fun s id => s.replayDoc id) s).entries[d]? =
      if d ∈ ids ∧ (s.replayed d).blank = false then some (s.replayed d) else s.entries[d]?) ∧
    ∀ n, (ids.foldl (fun s id => s.replayDoc id) s).names[n]? =
      ((ids.filter (s.namedBy n)).getLast?).or s.names[n]?
  | [], s => by
    refine ⟨fun d => ?_, fun n => ?_⟩
    · simp
    · rfl
  | id :: ids, s => by
    have hsame : ∀ d, (s.replayDoc id).replayed d = s.replayed d := by
      intro d
      refine replayed_congr ?_ ?_ d <;> rw [replayDoc_eq] <;> split <;> rfl
    obtain ⟨hentries, hnames⟩ := foldl_replayDoc ids (s.replayDoc id)
    refine ⟨fun d => ?_, fun n => ?_⟩
    · rw [List.foldl_cons, hentries, hsame, getElem?_entries_replayDoc]
      by_cases hd : id = d
      · subst hd
        cases (s.replayed id).blank <;> simp
      · simp [hd, Ne.symm hd]
    · have hnamed : (s.replayDoc id).namedBy n = s.namedBy n := by
        funext d
        unfold Inner.namedBy
        rw [hsame]
      rw [List.foldl_cons, hnames, hnamed, getElem?_names_replayDoc]
      -- a later document of the name overwrites it
      cases hn : s.namedBy n id with
      | false => rw [List.filter_cons_of_neg (by rw [hn]; exact Bool.false_ne_true)]; rfl
      | true =>
        rw [List.filter_cons_of_pos hn, List.getLast?_cons]
        cases (ids.filter (s.namedBy n)).getLast? <;> rfl

/-! ## What a run leaves on disk -/

/-- An event of a run with a working disk: every write of the WAL and of a snapshot succeeds, no
    state is adopted over the files, and no model is replaced under a logged action. -/
def Recorded (s : Inner) : Event → Prop
  | .applyAction io _ => io = Io.ok
  | .snapshot io _ => io = Io.ok
  | .adoptState _ => False
  | .addModel m => ∀ d, ∀ b ∈ (s.entryFor d).log,
      (s.models.insert m).find b.model = s.models.find b.model
  | _ => True

theorem View.snapshot_ok {v : View} {e : Entry} (he : v.entry = some e) :
    v.snapshot Io.ok = ⟨some { e with log := [] }, some e.snapState, some []⟩ := by
  unfold View.snapshot
  rw [he]
  rfl

/-- With a working disk the action is in the WAL, or in a snapshot that emptied it. -/
theorem View.finish_ok {v : View} {e : Entry} (he : v.entry = some e) (a : Action) :
    v.finish Io.ok a = ⟨some e, v.snap, some (v.alog.getD [] ++ [a])⟩ ∨
      v.finish Io.ok a = ⟨some { e with log := [] }, some e.snapState, some []⟩ := by
  unfold View.finish
  cases v.full with
  | false =>
    left
    rw [← he]
    rfl
  | true =>
    right
    exact View.snapshot_ok ((v.entry_persist Io.ok a).trans he)

/-- What such a run keeps about the files of `d`. -/
structure RecordedInv (d : DocId) (s : Inner) : Prop where
  unknown : s.entries[d]? = none → s.disk.snap[d]? = none
  fold : FoldInv s.models (s.baseEntry d) (s.entryFor d)
  /-- The live log is the sorted WAL. -/
  wal : (s.entryFor d).log = sortLog (s.disk.alog[d]?.getD [])
  /-- A snapshot leaves a WAL file behind, if only an empty one. -/
  filed : s.disk.snap[d]?.isSome = true → s.disk.alog[d]?.isSome = true
  baseId : (s.baseEntry d).doc.id = d
  baseModel : (s.baseEntry d).model = openRef
  cleared : ∀ st, s.disk.snap[d]? = some st → (s.entryFor d).log = [] →
    st.space = (s.entryFor d).space
  spaces : (s.baseEntry d).space = none → ∀ b ∈ (s.entryFor d).log, b.space = (s.entryFor d).space

/-- The invariant is about the files of `d`, its entry and the models of its log. -/
theorem RecordedInv.congr {d : DocId} {s t : Inner} (h : RecordedInv d s)
    (hview : t.view d = s.view d)
    (hmodels : ∀ b ∈ (s.entryFor d).log, t.models.find b.model = s.models.find b.model) :
    RecordedInv d t := by
  have hfor : t.entryFor d = s.entryFor d := entryFor_congr hview
  have hentry : t.entries[d]? = s.entries[d]? := congrArg View.entry hview
  have hsnap : t.disk.snap[d]? = s.disk.snap[d]? := congrArg View.snap hview
  have halog : t.disk.alog[d]? = s.disk.alog[d]? := congrArg View.alog hview
  have hbase : t.baseEntry d = s.baseEntry d := baseEntry_congr hsnap
  refine ⟨?_, ?_, ?_, ?_, ?_, ?_, ?_, ?_⟩
  · rw [hentry, hsnap]; exact h.unknown
  · rw [hfor, hbase]; exact h.fold.congr_models hmodels
  · rw [hfor, halog]; exact h.wal
  · rw [hsnap, halog]; exact h.filed
  · rw [hbase]; exact h.baseId
  · rw [hbase]; exact h.baseModel
  · rw [hsnap, hfor]; exact h.cleared
  · rw [hbase, hfor]; exact h.spaces

/-- The id of a document that is folded from a base of that id. -/
theorem FoldInv.id_eq {r : ModelRegistry} {base e : Entry} (h : FoldInv r base e) :
    e.doc.id = base.doc.id := by
  rw [h.state.doc, id_canonFold]

/-- A blank entry, or none, over no snapshot and an empty WAL. -/
theorem recordedInv_blank {d : DocId} {t : Inner} {sp : Option DocId}
    (hsnap : t.disk.snap[d]? = none) (hfor : t.entryFor d = { Entry.new d with space := sp })
    (halog : t.disk.alog[d]?.getD [] = []) : RecordedInv d t := by
  have hbase := Inner.baseEntry_of_none hsnap
  refine ⟨fun _ => hsnap, ?_, ?_, ?_, ?_, ?_, ?_, ?_⟩
  · rw [hbase, hfor]; exact foldInv_new _ d sp
  · rw [hfor, halog]; rfl
  · rw [hsnap]; intro hsome; cases hsome
  · rw [hbase]; rfl
  · rw [hbase]; rfl
  · rw [hsnap]; intro st hst; cases hst
  · rw [hfor]; exact fun _ b hb => absurd hb List.not_mem_nil

/-- A snapshot of an entry that is folded from the old base. -/
theorem recordedInv_snapshotted {d : DocId} {s t : Inner} {e : Entry} (h : RecordedInv d s)
    (hmodels : t.models = s.models) (hfold : FoldInv s.models (s.baseEntry d) e)
    (hview : t.view d = ⟨some { e with log := [] }, some e.snapState, some []⟩) :
    RecordedInv d t := by
  have hentry : (t.view d).entry = some { e with log := [] } := congrArg View.entry hview
  have hsnap : (t.view d).snap = some e.snapState := congrArg View.snap hview
  have halog : t.disk.alog[d]? = some [] := congrArg View.alog hview
  have hfor : t.entryFor d = { e with log := [] } := entryFor_eq hentry
  have hbase := baseEntry_snapState (show t.disk.snap[d]? = some e.snapState from hsnap)
  refine ⟨?_, ?_, ?_, ?_, ?_, ?_, ?_, ?_⟩
  · intro hnone
    rw [show (t.view d).entry = none from hnone] at hentry
    cases hentry
  · rw [hmodels]; exact foldInv_put hfold (Or.inr ⟨hentry, hsnap⟩)
  · rw [hfor, halog]; rfl
  · intro _; rw [halog]; rfl
  · rw [hbase]
    show (liftName e.doc).id = d
    rw [id_liftName, hfold.id_eq, h.baseId]
  · rw [hbase]; rfl
  · intro st hst _
    rw [show t.disk.snap[d]? = some e.snapState from hsnap] at hst
    rw [← Option.some.inj hst, hfor]
    rfl
  · rw [hfor]
    exact fun _ b hb => absurd hb List.not_mem_nil

/-- Where no snapshot has a say, an accepted action and the log it joins name one space. -/
theorem RecordedInv.space_accept {s : Inner} {a : Action} {m : Model} (h : RecordedInv a.docId s)
    (hacc : s.Accepted a m) (hbase : (s.baseEntry a.docId).space = none) :
    (s.settled a m).space = a.space ∧ ∀ b ∈ (s.entryFor a.docId).log, b.space = a.space := by
  -- the guard: a document with a log keeps its space
  have hguard : (s.entryFor a.docId).log.isEmpty = false →
      (s.entryFor a.docId).space = a.space := fun hne =>
    hacc.toAdmits.space_eq (List.isEmpty_eq_false_iff.mp hne)
  have hlog : ∀ b ∈ (s.entryFor a.docId).log, b.space = a.space := by
    intro b hb
    have hne : (s.entryFor a.docId).log.isEmpty = false :=
      List.isEmpty_eq_false_iff.mpr (List.ne_nil_of_mem hb)
    rw [h.spaces hbase b hb, hguard hne]
  refine ⟨space_settled hguard hlog rfl fun st hst => Or.inl ?_, hlog⟩
  rw [space_baseEntry, hst] at hbase
  exact hbase

/-- Accepting an action without a snapshot after it. -/
theorem recordedInv_appended {s t : Inner} {a : Action} {m : Model} (h : RecordedInv a.docId s)
    (hmodels : t.models = s.models) (hacc : s.Accepted a m)
    (hview : t.view a.docId = ⟨some (s.settled a m), s.disk.snap[a.docId]?,
      some (s.disk.alog[a.docId]?.getD [] ++ [a])⟩) :
    RecordedInv a.docId t := by
  have hentry : t.entries[a.docId]? = some (s.settled a m) := congrArg View.entry hview
  have hsnap : t.disk.snap[a.docId]? = s.disk.snap[a.docId]? := congrArg View.snap hview
  have halog : t.disk.alog[a.docId]? = some (s.disk.alog[a.docId]?.getD [] ++ [a]) :=
    congrArg View.alog hview
  have hfor : t.entryFor a.docId = s.settled a m := entryFor_eq hentry
  have hbase : t.baseEntry a.docId = s.baseEntry a.docId := baseEntry_congr hsnap
  have hset := (foldInv_settled hacc h.fold).1
  have hmem : a ∈ (s.settled a m).log := mem_settled_log.mpr (Or.inr rfl)
  refine ⟨?_, ?_, ?_, ?_, ?_, ?_, ?_, ?_⟩
  · intro hnone; rw [hnone] at hentry; cases hentry
  · rw [hmodels, hbase, hfor]; exact hset
  · -- one more line in the WAL is one more action to sort in
    rw [hfor, halog, log_settled h.fold.sorted, h.wal]
    exact Lib.canonSort_concat canonKey _ a
  · intro _; rw [halog]; rfl
  · rw [hbase]; exact h.baseId
  · rw [hbase]; exact h.baseModel
  · intro st _ hnil
    rw [hfor] at hnil
    rw [hnil] at hmem
    exact absurd hmem List.not_mem_nil
  · rw [hbase, hfor]
    intro hnone b hb
    obtain ⟨hspace, hlog⟩ := h.space_accept hacc hnone
    rw [hspace]
    rcases mem_settled_log.mp hb with hb | rfl
    · exact hlog b hb
    · rfl

/-- **Step lemma**: an event with a working disk keeps the invariant. -/
theorem recordedInv_exec {s : Inner} {ev : Event} (hen : ev.Enabled s) (hrec : Recorded s ev)
    (d : DocId) (h : RecordedInv d s) : RecordedInv d (s.exec ev) := by
  have hmodels : ∀ b ∈ (s.entryFor d).log,
      (s.exec ev).models.find b.model = s.models.find b.model := by
    intro b hb
    refine s.find_exec ev b.model ?_
    rintro m rfl
    exact hrec d b hb
  have hstep := docStep_exec s ev hen d
  generalize hv : (s.exec ev).view d = v at hstep
  cases hstep with
  | stay _ => exact h.congr hv hmodels
  | created sp hnew _ =>
    have hwal := h.wal
    rw [entryFor_of_none hnew] at hwal
    refine recordedInv_blank ((congrArg View.snap hv).trans (h.unknown hnew))
      (entryFor_eq (congrArg View.entry hv)) ?_
    rw [show (s.exec ev).disk.alog[d]? = s.disk.alog[d]? from congrArg View.alog hv]
    have hperm := Lib.canonSort_perm canonKey (s.disk.alog[d]?.getD [])
    rw [show Lib.canonSort canonKey (s.disk.alog[d]?.getD []) = [] from hwal.symm] at hperm
    exact hperm.nil_eq.symm
  | @accepted io a m hd hacc =>
    subst hd
    obtain rfl : io = Io.ok := hrec
    have hsame := (s.sameSetup_applyAction Io.ok a).models
    rcases View.finish_ok (v := { s.view a.docId with entry := some (s.settled a m) }) rfl a with
      hfin | hfin
    · rw [hfin] at hv
      exact recordedInv_appended h hsame hacc hv
    · rw [hfin] at hv
      exact recordedInv_snapshotted h hsame (foldInv_settled hacc h.fold).1 hv
  | @stuck io a m hd hacc hres =>
    subst hd
    exact absurd (resolves_appended h.fold hacc.model) hres
  | snapshot io =>
    obtain rfl : io = Io.ok := hrec
    cases he : s.entries[d]? with
    | none => exact h.congr (view_snapshot_of_none he Io.ok) hmodels
    | some e =>
      rw [View.snapshot_ok (show (s.view d).entry = some e from he)] at hv
      have hfold := h.fold
      rw [entryFor_eq he] at hfold
      exact recordedInv_snapshotted h (s.sameSetup_snapshot Io.ok d).models hfold hv
  | adopted hd => exact absurd hrec id

theorem recordedInv_fresh (key : SigningKey) (origin : Origin) (extra : List Model) (d : DocId) :
    RecordedInv d (Store.fresh key origin extra) := by
  have hview := Store.fresh_view key origin extra d
  refine recordedInv_blank (congrArg View.snap hview) (entryFor_blank hview) ?_
  rw [show (Store.fresh key origin extra).disk.alog[d]? = none from congrArg View.alog hview]
  rfl

/-- **Run lemma**: in every state of a run with a working disk the files of every document are in
    step with its entry. -/
theorem recordedInv_run {key : SigningKey} {origin : Origin} {extra : List Model} {s : Inner}
    (h : Inner.Run Recorded (Store.fresh key origin extra) s) (d : DocId) : RecordedInv d s :=
  h.induct (I := fun s => RecordedInv d s) (recordedInv_fresh key origin extra d)
    fun _ _ hen hrec hi => recordedInv_exec hen hrec d hi

/-! ## Documents that come back -/

/-- What a restart gives back of an entry. -/
structure Restored (e e' : Entry) : Prop where
  id : e'.doc.id = e.doc.id
  name : e'.doc.name = e.doc.name
  fields : e'.doc.fields = e.doc.fields
  deleted : e'.deleted = e.deleted
  clock : e'.clock = e.clock
  model : e'.model = e.model
  space : e'.space = e.space
  log : ∀ a, a ∈ e'.log ↔ a ∈ e.log

/-- The document `d` shows none of the differences between the live fold and the replay. -/
structure Steady (s : Inner) (d : DocId) : Prop where
  /-- Every logged action passes its checks at its canonical place. -/
  passes : allPass s.models (s.baseEntry d) (s.entryFor d).log = true
  /-- Every logged action changes something there. -/
  changes : ∀ a ∈ (s.entryFor d).log, a ∈ changing s.models (s.baseEntry d) (s.entryFor d).log
  /-- Right after a snapshot the document is one of `open@1`. -/
  model : (s.entryFor d).log = [] → (s.entryFor d).model = openRef
  /-- The snapshot names the document's space, if it names any. -/
  space : ∀ st, s.disk.snap[d]? = some st → st.space = none ∨ st.space = (s.entryFor d).space
  /-- There is something to bring back. -/
  notBlank : (s.entryFor d).blank = false

/-- Without a snapshot and without a log a document is blank. -/
theorem RecordedInv.blank_of_nil {d : DocId} {s : Inner} (h : RecordedInv d s)
    (hsnap : s.disk.snap[d]? = none) (hlog : (s.entryFor d).log = []) :
    (s.entryFor d).blank = true := by
  have hstate := h.fold.state
  rw [Inner.baseEntry_of_none hsnap, hlog] at hstate
  unfold Entry.blank
  rw [hstate.doc, hstate.deleted, hlog]
  simp [canonFold, sortLog, Lib.canonSort, Entry.new]

/-- A document that is not blank has a WAL file. -/
theorem RecordedInv.alog_of_not_blank {d : DocId} {s : Inner} (h : RecordedInv d s)
    (hblank : (s.entryFor d).blank = false) : s.disk.alog[d]?.isSome = true := by
  by_contra halog
  have hnone : s.disk.alog[d]? = none := by
    rwa [Bool.not_eq_true, Option.isSome_eq_false_iff, Option.isNone_iff_eq_none] at halog
  have hlog : (s.entryFor d).log = [] := by rw [h.wal, hnone]; rfl
  have hsnap : s.disk.snap[d]? = none := by
    by_contra hsnap
    exact halog (h.filed (Option.isSome_iff_ne_none.mpr hsnap))
  rw [h.blank_of_nil hsnap hlog] at hblank
  cases hblank

/-- The replay starts from the base of a re-fold. -/
theorem RecordedInv.replayed_eq {d : DocId} {s : Inner} (h : RecordedInv d s) :
    s.replayed d = (s.entryFor d).log.foldl s.replayStep (s.baseEntry d) := by
  have hid := h.baseId
  unfold Inner.replayed
  rw [h.wal]
  unfold Inner.baseEntry at hid ⊢
  cases hst : s.disk.snap[d]? with
  | none => rfl
  | some st =>
    rw [hst] at hid
    have hdoc : ({ st.doc with id := d } : Doc) = st.doc := by
      rw [← show st.doc.id = d from (id_liftName st.doc).symm.trans hid]
    exact congrArg (fun doc => (sortLog (s.disk.alog[d]?.getD [])).foldl s.replayStep
      { Entry.ofState st with doc := liftName doc }) hdoc

/-- The space a replay finds is the live one. -/
theorem RecordedInv.space_replayed {d : DocId} {s : Inner} (h : RecordedInv d s)
    (hs : Steady s d) : (s.replayed d).space = (s.entryFor d).space := by
  rw [h.replayed_eq, space_foldl_replayStep _ _ h.fold.resolves]
  by_cases hlog : (s.entryFor d).log = []
  · -- nothing since the snapshot
    cases hst : s.disk.snap[d]? with
    | none =>
      have hblank := h.blank_of_nil hst hlog
      rw [hs.notBlank] at hblank
      cases hblank
    | some st =>
      rw [hlog, ← h.cleared st hst hlog, List.foldl_nil, space_baseEntry, hst]
      rfl
  · cases hsp : (s.baseEntry d).space with
    | none => exact foldl_or_none _ hlog (h.spaces hsp)
    | some sp =>
      rw [foldl_or_some, ← hsp, space_baseEntry]
      rw [space_baseEntry] at hsp
      cases hst : s.disk.snap[d]? with
      | none => rw [hst] at hsp; cases hsp
      | some st =>
        rw [hst, Option.bind_some] at hsp
        rcases hs.space st hst with hnone | hsame
        · rw [hnone] at hsp; cases hsp
        · exact hsame

theorem changing_sublist (r : ModelRegistry) : ∀ (l : List Action) (e : Entry),
    (changing r e l).Sublist l
  | [], _ => List.Sublist.slnil
  | a :: l, e => by
    show (if changes r e a then _ else _ : List Action).Sublist _
    split
    · exact (changing_sublist r l _).cons_cons a
    · exact (changing_sublist r l _).cons a

/-- **The replay of a steady document is the live one.** -/
theorem restored_replayed {d : DocId} {s : Inner} (h : RecordedInv d s) (hs : Steady s d) :
    Restored (s.entryFor d) (s.replayed d) ∧ (s.replayed d).blank = false := by
  obtain ⟨hsame, hmodel, hclock, hlog⟩ :=
    foldl_replayStep (s := s) (s.entryFor d).log (s.baseEntry d) (s.baseEntry d)
      (SameDoc.refl _) rfl hs.passes
  rw [← h.replayed_eq] at hsame hmodel hclock hlog
  -- the live entry is the same fold
  have hcanon : canonFold s.models (s.baseEntry d) (s.entryFor d).log =
      (s.entryFor d).log.foldl (foldStep s.models) (s.baseEntry d) := by
    unfold canonFold
    rw [show sortLog (s.entryFor d).log = (s.entryFor d).log from h.fold.sorted.canonSort_eq]
  have hlive := h.fold.state
  rw [hcanon] at hlive
  have hdoc : SameDoc (s.replayed d) (s.entryFor d) := hsame.trans hlive.symm
  have hmem : ∀ a, a ∈ (s.replayed d).log ↔ a ∈ (s.entryFor d).log := by
    intro a
    have hbase : (s.baseEntry d).log = [] := by
      unfold Inner.baseEntry
      cases s.disk.snap[d]? <;> rfl
    rw [hlog, hbase, List.nil_append]
    exact ⟨fun ha => (changing_sublist _ _ _).subset ha, hs.changes a⟩
  refine ⟨⟨?_, ?_, ?_, hdoc.deleted, ?_, ?_, h.space_replayed hs, hmem⟩, ?_⟩
  · rw [hdoc.doc]
  · rw [hdoc.doc]
  · rw [hdoc.doc]
  · rw [hclock]; exact h.fold.clock.symm
  · by_cases hnil : (s.entryFor d).log = []
    · rw [hs.model hnil, hmodel, hnil]
      exact h.baseModel
    · rw [hmodel, ← hcanon]
      exact (h.fold.model hnil).symm
  · have hempty : (s.replayed d).log.isEmpty = (s.entryFor d).log.isEmpty := by
      rw [Bool.eq_iff_iff, List.isEmpty_iff, List.isEmpty_iff, List.eq_nil_iff_forall_not_mem,
        List.eq_nil_iff_forall_not_mem]
      exact forall_congr' fun a => not_congr (hmem a)
    have hblank := hs.notBlank
    unfold Entry.blank at hblank ⊢
    rw [hdoc.doc, hdoc.deleted, hempty]
    exact hblank

/-! ## The store that comes back -/

/-- Every document of the store is steady, and its name index holds the present names. -/
structure Restartable (s : Inner) : Prop where
  steady : ∀ (d : DocId) (e : Entry), s.entries[d]? = some e → Steady s d
  /-- A live document with a name is the one the index has under it. -/
  indexed : ∀ (d : DocId) (e : Entry), s.entries[d]? = some e → e.deleted = false →
    e.doc.name ≠ "" → s.names[e.doc.name]? = some d
  /-- The index has a live document under its present name only. -/
  current : ∀ (n : String) (d : DocId) (e : Entry), s.names[n]? = some d →
    s.entries[d]? = some e → e.deleted = false → n ≠ "" ∧ e.doc.name = n
  /-- The replay meets a deleted document before the live one of the same name. -/
  unshadowed : ∀ (d d' : DocId) (e e' : Entry), s.entries[d]? = some e →
    s.entries[d']? = some e' → e.deleted = false → e'.deleted = true → e.doc.name ≠ "" →
    e'.doc.name = e.doc.name → d' < d

/-- A store that is being opened, before the first document is replayed. -/
def Store.opening (disk : Disk) (key : SigningKey) (origin : Origin) (extra : List Model) :
    Inner where
  key := key
  origin := origin
  knownKeys := (∅ : Std.ExtTreeMap Origin PublicKey).insert origin (Primitives.verifyingKey key)
  entries := ∅
  names := ∅
  tsHint := max 0 (disk.index.getD 0)
  outbound := []
  outboundFeed := none
  quarantined := 0
  models := extra.foldl ModelRegistry.insert ModelRegistry.seededWithBuiltins
  subscribers := []
  disk := disk

/-- Opening a store is the loop over its files; then the index is written. -/
theorem openWithModels_eq (disk : Disk) (key : SigningKey) (origin : Origin) (extra : List Model) :
    Store.openWithModels disk key origin extra =
      let s := disk.alog.keys.foldl (fun s id => s.replayDoc id)
        (Store.opening disk key origin extra)
      { s with disk := { s.disk with index := some s.tsHint } } := rfl

/-- The entries and names of a store that is opened on the files of `s` with its models. -/
theorem reopened_spec {s : Inner} {extra : List Model}
    (hmodels : extra.foldl ModelRegistry.insert ModelRegistry.seededWithBuiltins = s.models)
    (key : SigningKey) (origin : Origin) :
    (∀ d, (Store.openWithModels s.disk key origin extra).entries[d]? =
      if s.disk.alog[d]?.isSome ∧ (s.replayed d).blank = false then some (s.replayed d)
      else none) ∧
    ∀ n, (Store.openWithModels s.disk key origin extra).names[n]? =
      (s.disk.alog.keys.filter (s.namedBy n)).getLast? := by
  have hreplayed : ∀ d, (Store.opening s.disk key origin extra).replayed d = s.replayed d :=
    replayed_congr rfl hmodels
  have hnamed : ∀ n, (Store.opening s.disk key origin extra).namedBy n = s.namedBy n := by
    intro n
    funext d
    unfold Inner.namedBy
    rw [hreplayed]
  obtain ⟨hentries, hnames⟩ :=
    foldl_replayDoc s.disk.alog.keys (Store.opening s.disk key origin extra)
  rw [openWithModels_eq]
  refine ⟨fun d => ?_, fun n => ?_⟩
  · have hkeys : d ∈ s.disk.alog.keys ↔ s.disk.alog[d]?.isSome = true :=
      Std.ExtTreeMap.mem_keys.trans Std.ExtTreeMap.mem_iff_isSome_getElem?
    have hempty : (Store.opening s.disk key origin extra).entries[d]? = none :=
      Std.ExtTreeMap.getElem?_empty
    rw [hentries, hreplayed, hempty]
    simp only [hkeys]
  · have hempty : (Store.opening s.disk key origin extra).names[n]? = none :=
      Std.ExtTreeMap.getElem?_empty
    rw [hnames, hnamed, hempty, Option.or_none]

theorem Restored.doc_eq {e e' : Entry} (h : Restored e e') : e'.doc = e.doc :=
  Doc.ext_fields h.id h.name fun k => by rw [h.fields]

/-- A document the store does not know does not appear in the replay either. -/
theorem RecordedInv.blank_of_unknown {d : DocId} {s : Inner} (h : RecordedInv d s)
    (hnone : s.entries[d]? = none) : (s.replayed d).blank = true := by
  rw [h.replayed_eq, entryFor_of_none hnone, Inner.baseEntry_of_none (h.unknown hnone)]
  simp [Entry.new, Entry.blank]

section

variable {s : Inner} {extra : List Model} (hinv : ∀ d, RecordedInv d s)
  (hmodels : extra.foldl ModelRegistry.insert ModelRegistry.seededWithBuiltins = s.models)

include hinv hmodels

/-- A steady document is there after the restart, as it was. -/
theorem reopened_of_steady (key : SigningKey) (origin : Origin) {d : DocId} (hs : Steady s d) :
    (Store.openWithModels s.disk key origin extra).entries[d]? = some (s.replayed d) ∧
      s.entries[d]? = some (s.entryFor d) ∧ Restored (s.entryFor d) (s.replayed d) := by
  obtain ⟨hrest, hblank⟩ := restored_replayed (hinv d) hs
  refine ⟨?_, ?_, hrest⟩
  · rw [(reopened_spec hmodels key origin).1,
      if_pos ⟨(hinv d).alog_of_not_blank hs.notBlank, hblank⟩]
  · cases he : s.entries[d]? with
    | some e => rw [entryFor_eq he]
    | none =>
      rw [(hinv d).blank_of_unknown he] at hblank
      cases hblank

variable (hr : Restartable s)

include hr

/-- The documents before and after the restart. -/
theorem reopened_cases (key : SigningKey) (origin : Origin) (d : DocId) :
    (s.entries[d]? = none ∧ (Store.openWithModels s.disk key origin extra).entries[d]? = none) ∨
      ∃ e, s.entries[d]? = some e ∧ Restored e (s.replayed d) ∧ (s.replayed d).blank = false ∧
        (Store.openWithModels s.disk key origin extra).entries[d]? = some (s.replayed d) := by
  cases he : s.entries[d]? with
  | none =>
    refine Or.inl ⟨rfl, ?_⟩
    rw [(reopened_spec hmodels key origin).1, (hinv d).blank_of_unknown he]
    simp
  | some e =>
    have hs := hr.steady d e he
    obtain ⟨hopen, -, hrest⟩ := reopened_of_steady hinv hmodels key origin hs
    rw [entryFor_eq he] at hrest
    exact Or.inr ⟨e, rfl, hrest, (restored_replayed (hinv d) hs).2, hopen⟩

/-- The documents that the replay registers under a name are those that carry it. -/
theorem namedBy_iff {n : String} {d : DocId} :
    s.namedBy n d = true ↔ n ≠ "" ∧ ∃ e, s.entries[d]? = some e ∧ e.doc.name = n := by
  unfold Inner.namedBy
  rw [Bool.and_eq_true, Bool.not_eq_true', decide_eq_true_iff]
  rcases reopened_cases hinv hmodels hr 0 "" d with ⟨hnone, -⟩ | ⟨e, he, hrest, hblank, -⟩
  · rw [(hinv d).blank_of_unknown hnone, hnone]
    simp
  · rw [hblank, he, hrest.name]
    simp

/-- A live document gets its name back. -/
theorem names_reopened (key : SigningKey) (origin : Origin) {d : DocId} {e : Entry}
    (he : s.entries[d]? = some e) (hlive : e.deleted = false) (hname : e.doc.name ≠ "") :
    (Store.openWithModels s.disk key origin extra).names[e.doc.name]? = some d := by
  have hnamed : s.namedBy e.doc.name d = true :=
    (namedBy_iff hinv hmodels hr).mpr ⟨hname, e, he, rfl⟩
  have hmem : d ∈ s.disk.alog.keys.filter (s.namedBy e.doc.name) := by
    refine List.mem_filter.mpr ⟨?_, hnamed⟩
    have hblank := (hr.steady d e he).notBlank
    exact Std.ExtTreeMap.mem_keys.mpr
      (Std.ExtTreeMap.mem_iff_isSome_getElem?.mpr ((hinv d).alog_of_not_blank hblank))
  have hsorted : Lib.KeySorted id (s.disk.alog.keys.filter (s.namedBy e.doc.name)) := by
    have hord : s.disk.alog.keys.Pairwise fun a b => compare a b = .lt :=
      Std.ExtTreeMap.ordered_keys
    exact (hord.imp fun h => (compare_lt_iff_lt.mp h).le).sublist List.filter_sublist
  rw [(reopened_spec hmodels key origin).2]
  cases hlast : (s.disk.alog.keys.filter (s.namedBy e.doc.name)).getLast? with
  | none =>
    rw [List.getLast?_eq_none_iff.mp hlast] at hmem
    exact absurd hmem List.not_mem_nil
  | some z =>
    -- the last document of that name: deleted, it would come before `d`
    have hz := (List.mem_filter.mp (List.mem_of_getLast? hlast)).2
    obtain ⟨-, e', he', hname'⟩ := (namedBy_iff hinv hmodels hr).mp hz
    have hle : d ≤ z := hsorted.le_getLast hlast d hmem
    cases hdel : e'.deleted with
    | true =>
      exact absurd (hr.unshadowed d z e e' he he' hlive hdel hname hname') (not_lt.mpr hle)
    | false =>
      have hd := hr.indexed d e he hlive hname
      have hz := hr.indexed z e' he' hdel (by rw [hname']; exact hname)
      rw [hname', hd] at hz
      exact hz.symm

theorem mayPeerRead_reopened (key : SigningKey) (origin : Origin) (peer : Origin) (d : DocId) :
    Store.mayPeerRead (Store.openWithModels s.disk key origin extra) peer d =
      Store.mayPeerRead s peer d := by
  unfold Store.mayPeerRead
  rcases reopened_cases hinv hmodels hr key origin d with
    ⟨hnone, hopen⟩ | ⟨e, he, hrest, -, hopen⟩
  · rw [hnone, hopen]
  · rw [he, hopen]
    dsimp only
    rw [hrest.space]
    cases e.space with
    | none => rfl
    | some sp =>
      dsimp only
      by_cases hsp : sp = d
      · rw [if_pos hsp, if_pos hsp]
        dsimp only
        rw [hrest.doc_eq]
      · rw [if_neg hsp, if_neg hsp]
        rcases reopened_cases hinv hmodels hr key origin sp with
          ⟨hnone, hopen⟩ | ⟨g, hg, hrestg, -, hopen⟩
        · rw [hnone, hopen]
        · rw [hg, hopen]
          dsimp only
          rw [hrestg.doc_eq]

end

theorem Store.get_eq_some {s : Inner} {n : String} {doc : Doc} :
    Store.get s n = some doc ↔ ∃ (d : DocId) (e : Entry), s.names[n]? = some d ∧
      s.entries[d]? = some e ∧ e.deleted = false ∧ e.doc.live = doc := by
  unfold Store.get
  cases hn : s.names[n]? with
  | none => simp
  | some d =>
    cases he : s.entries[d]? with
    | none => simp [he]
    | some e => cases hd : e.deleted <;> simp [he, hd]

theorem get_reopened {s : Inner} {extra : List Model} (hinv : ∀ d, RecordedInv d s)
    (hmodels : extra.foldl ModelRegistry.insert ModelRegistry.seededWithBuiltins = s.models)
    (hr : Restartable s) (key : SigningKey) (origin : Origin) (n : String) :
    Store.get (Store.openWithModels s.disk key origin extra) n = Store.get s n := by
  refine Option.ext fun doc => ?_
  rw [Store.get_eq_some, Store.get_eq_some]
  constructor
  · -- found after the restart: the document carries the name, so the index had it
    rintro ⟨d, e', hname, hentry, hlive, rfl⟩
    rw [(reopened_spec hmodels key origin).2] at hname
    have hnamed := (List.mem_filter.mp (List.mem_of_getLast? hname)).2
    obtain ⟨hn, e, he, rfl⟩ := (namedBy_iff hinv hmodels hr).mp hnamed
    rcases reopened_cases hinv hmodels hr key origin d with
      ⟨hnone, -⟩ | ⟨e₀, he₀, hrest, -, hopen⟩
    · rw [hnone] at he; cases he
    · obtain rfl : e = e₀ := Option.some.inj (he.symm.trans he₀)
      obtain rfl : s.replayed d = e' := Option.some.inj (hopen.symm.trans hentry)
      have hlive' : e.deleted = false := hrest.deleted.symm.trans hlive
      exact ⟨d, e, hr.indexed d e he hlive' hn, he, hlive', by rw [hrest.doc_eq]⟩
  · -- found before: under its present name, which the replay gives it back
    rintro ⟨d, e, hname, he, hlive, rfl⟩
    obtain ⟨hn, rfl⟩ := hr.current n d e hname he hlive
    rcases reopened_cases hinv hmodels hr key origin d with
      ⟨hnone, -⟩ | ⟨e₀, he₀, hrest, -, hopen⟩
    · rw [hnone] at he; cases he
    · obtain rfl : e = e₀ := Option.some.inj (he.symm.trans he₀)
      exact ⟨d, s.replayed d, names_reopened hinv hmodels hr key origin he hlive hn, hopen,
        hrest.deleted.trans hlive, by rw [hrest.doc_eq]⟩

theorem models_execAll : ∀ (evs : List Event) (s : Inner),
    (∀ ev ∈ evs, ∀ m, ev ≠ .addModel m) → (s.execAll evs).models = s.models
  | [], _, _ => rfl
  | ev :: evs, s, h => by
    show ((s.exec ev).execAll evs).models = s.models
    rw [models_execAll evs _ fun ev' hev' => h ev' (List.mem_cons_of_mem ev hev'),
      s.models_exec ev (h ev List.mem_cons_self)]

/-- A list of events that are always enabled and meet the condition is a run. -/
theorem run_execAll {P : Inner → Event → Prop} : ∀ (evs : List Event) (s : Inner),
    (∀ ev ∈ evs, ∀ s, ev.Enabled s ∧ P s ev) → Inner.Run P s (s.execAll evs)
  | [], _, _ => Relation.ReflTransGen.refl
  | ev :: evs, s, h => by
    obtain ⟨hen, hP⟩ := h ev List.mem_cons_self s
    exact Relation.ReflTransGen.head ⟨ev, hen, hP, rfl⟩
      (run_execAll evs _ fun ev' hev' => h ev' (List.mem_cons_of_mem ev hev'))

end

section

open Sample

attribute [local instance] Sample.primitives

/-- Alice's node opened again on its files, with the built-in models. -/
def reopen (s : Inner) : Inner := Store.openWithModels s.disk s.key s.origin []

/-- Alice removes bob; the removal sorts before a post of his that is already there. -/
def removedStore : Inner :=
  (Store.fresh alice.key alice.name []).execAll
    (pins [bob] ++ deliver [groupInit, bobPost 21, removeBob 20])

/-- A write of one field of an `open@1` document of alice's. -/
def aliceSets (field value : String) (ts : U64) : Action :=
  act alice "open" "set" (Store.setPayload field (.string value)) ts [("alice", ts)] none

/-- A document is deleted, and written to afterwards. -/
def deletedStore : Inner :=
  (Store.fresh alice.key alice.name []).execAll
    (deliver [aliceSets "title" "minutes" 1, act alice "open" "delete" (.object []) 2
      [("alice", 2)] none, aliceSets "title" "agenda" 3])

/-- A document gets a second name. -/
def renamedStore : Inner :=
  (Store.fresh alice.key alice.name []).execAll
    (deliver [aliceSets nameKey "minutes" 1, aliceSets nameKey "agenda" 2])

/-- A post to a group that is not there yet: its precondition fails. -/
def refusedStore : Inner := pinnedStore.exec (.applyAction Io.ok (bobPost 21))

/-- Pinning peers and delivering actions with a working disk is a run that loads no model. -/
theorem delivery_recorded (peers : List Peer) (actions : List Action) :
    Inner.Run Recorded (Store.fresh alice.key alice.name [])
        ((Store.fresh alice.key alice.name []).execAll (pins peers ++ deliver actions)) ∧
      ((Store.fresh alice.key alice.name []).execAll (pins peers ++ deliver actions)).models =
        ([] : List Model).foldl ModelRegistry.insert ModelRegistry.seededWithBuiltins := by
  have hevs : ∀ ev ∈ pins peers ++ deliver actions,
      (∀ m, ev ≠ .addModel m) ∧ ∀ s, ev.Enabled s ∧ Recorded s ev := by
    intro ev hev
    rcases List.mem_append.mp hev with hpin | hdeliver
    · obtain ⟨p, -, rfl⟩ := List.mem_map.mp hpin
      exact ⟨fun m => Event.noConfusion, fun _ => ⟨trivial, trivial⟩⟩
    · obtain ⟨a, -, rfl⟩ := List.mem_map.mp hdeliver
      exact ⟨fun m => Event.noConfusion, fun _ => ⟨trivial, rfl⟩⟩
  constructor
  · exact run_execAll _ _ fun ev hev => (hevs ev hev).2
  · exact (models_execAll _ _ fun ev hev => (hevs ev hev).1).trans (Store.fresh_models ..)

end

end PhReactor
