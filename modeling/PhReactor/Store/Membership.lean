/-
  Who may change the members and managers of a group or a space.

  The reducers of `group@1` and `space@1` gate every write to the two lists: by a manager, or, for
  `add-manager`, by a quorum of two members.  The STORE does not tie an action to the model of its
  document: `open@1` writes any field of any document (`open_set_changes_members`), and `init` has
  no gate at all.

  Where every accepted action that touches the lists is one of the document's own model, where
  `init` is not accepted on an initialised document and the quorum is counted in the document
  itself (`Lawful`), the rules hold at every step of every run (`membership_changes_by_rule`).
  In order this is the precondition.  Out of order the whole document is folded again; so the
  argument is about folds:

  1. `SameMembership` is agreement in the two lists and the deleted flag.  An action that does not
     write the lists keeps it, and the lists after a membership action of a governing model are a
     function of the lists before it (`sameMembership_foldl`).

  2. Hence inserting an action that does not write the lists ANYWHERE in a log leaves them as they
     were (`sameMembership_insert`).
-/
import PhReactor.Store.GroupLog
import PhReactor.Store.Snapshots

set_option linter.unusedSectionVars false

namespace PhReactor

section

/-! ## The two lists -/

/-- Entries that agree in the two lists and the deleted flag. -/
structure SameMembership (e e' : Entry) : Prop where
  managers : e.doc.fields["managers"]? = e'.doc.fields["managers"]?
  members : e.doc.fields["members"]? = e'.doc.fields["members"]?
  deleted : e.deleted = e'.deleted

theorem SameMembership.refl (e : Entry) : SameMembership e e := ⟨rfl, rfl, rfl⟩

theorem SameMembership.symm {e e' : Entry} (h : SameMembership e e') : SameMembership e' e :=
  ⟨h.managers.symm, h.members.symm, h.deleted.symm⟩

theorem SameMembership.trans {e e' e'' : Entry} (h : SameMembership e e')
    (h' : SameMembership e' e'') : SameMembership e e'' :=
  ⟨h.managers.trans h'.managers, h.members.trans h'.members, h.deleted.trans h'.deleted⟩

theorem SameDoc.sameMembership {e e' : Entry} (h : SameDoc e e') : SameMembership e e' :=
  ⟨by rw [h.doc], by rw [h.doc], h.deleted⟩

theorem currentArray_congr {d d' : Doc} {field : String}
    (h : d.fields[field]? = d'.fields[field]?) : currentArray d field = currentArray d' field := by
  unfold currentArray currentValue
  rw [h]

/-- Is the key one of the two lists', or that of a whole-document delete. -/
def membershipKey (key : Option String) : Bool :=
  key == none || key == some "managers" || key == some "members"

/-- Does the action write one of the two lists, or delete the document.  The state does not matter
    (`writesMembership_eq`), so the blank document will do. -/
def Model.writesMembership (m : Model) (a : Action) : Bool :=
  match m.reduce ⟨a.docId, "", ∅⟩ a with
  | .ok ops => ops.any fun op => membershipKey op.key
  | .error _ => false

theorem Model.writesMembership_eq (m : Model) (a : Action) :
    m.writesMembership a = m.writesKey membershipKey a := rfl

/-- **An action that does not write the lists leaves them alone.** -/
theorem sameMembership_applyOps {m : Model} {a : Action} (hw : m.writesMembership a = false)
    (e : Entry) : SameMembership (applyOpsToEntry e m a).1 e := by
  rw [Model.writesMembership_eq] at hw
  have hfield : ∀ k, membershipKey (some k) = true → k ≠ nameKey →
      (applyOpsToEntry e m a).1.doc.fields[k]? = e.doc.fields[k]? := fun k hk hn =>
    fields_of_not_writesKey rfl hw e hk hn
  exact ⟨hfield "managers" (by decide) (by decide), hfield "members" (by decide) (by decide),
    deleted_of_not_writesKey rfl hw e⟩

/-! ## Governing models -/

variable [Primitives]

/-- The models whose documents have members and managers. -/
def Governs (g : L1) : Prop := g = group ∨ g = space

/-- The reducers of a governing model that write the lists. -/
def membershipKinds : List String := ["add-manager", "add-member", "init", "remove-member"]

/-- What the argument needs to know about a governing model. -/
structure Governing (g : L1) : Prop where
  known : ∀ kind ∈ membershipKinds, (g.reducer kind).isSome
  sound : ∀ kind, (g.reducer kind).isSome → g.Sound kind
  other : ∀ kind, kind ∉ membershipKinds → ∀ p ∈ g.writes kind, membershipKey (some p.1) = false
  noAuth : ∀ kind ∈ membershipKinds, g.auth.get? kind = none
  byManager : ∀ kind ∈ ["add-member", "remove-member"], g.preList kind = [Def.actorIn "managers"]
  byQuorum : g.preList "add-manager" = [Def.selfQuorum]
  ungated : g.preList "init" = []

/-- The checks that are evaluated on a definition, and those that are read off it. -/
theorem governing_of_reducers {g : L1} {reducers : List (String × Value)}
    (hg : g.reducers = .object reducers)
    (hsound : ∀ p ∈ reducers, ∀ w ∈ writesOf p.2, writeOk w.2 = true)
    (hother : ∀ p ∈ reducers, ∀ w ∈ writesOf p.2, p.1 ∉ membershipKinds →
      membershipKey (some w.1) = false)
    (hknown : ∀ kind ∈ membershipKinds, (g.reducer kind).isSome ∧ g.auth.get? kind = none)
    (hmanager : ∀ kind ∈ ["add-member", "remove-member"],
      g.preList kind = [Def.actorIn "managers"])
    (hquorum : g.preList "add-manager" = [Def.selfQuorum]) (hinit : g.preList "init" = []) :
    Governing g where
  known := fun kind hk => (hknown kind hk).1
  sound := fun _ hk => L1.sound_of_reducers hg hsound hk
  other := fun kind hk p hp => L1.writes_forall hg
    (P := fun kind w => kind ∉ membershipKinds → membershipKey (some w.1) = false) hother kind p hp
    hk
  noAuth := fun kind hk => (hknown kind hk).2
  byManager := hmanager
  byQuorum := hquorum
  ungated := hinit

theorem Governs.governing {g : L1} (hg : Governs g) : Governing g := by
  rcases hg with rfl | rfl
  · refine governing_of_reducers (show group.reducers = .object groupReducers from rfl)
      groupReducers_sound (by decide) ?_ ?_ rfl rfl
    · intro kind hk
      simp only [membershipKinds, List.mem_cons, List.not_mem_nil, or_false] at hk
      rcases hk with rfl | rfl | rfl | rfl <;> exact ⟨rfl, rfl⟩
    · intro kind hk
      simp only [List.mem_cons, List.not_mem_nil, or_false] at hk
      rcases hk with rfl | rfl <;> rfl
  · refine governing_of_reducers (show space.reducers = .object spaceReducers from rfl)
      (by decide) (by decide) ?_ ?_ rfl rfl
    · intro kind hk
      simp only [membershipKinds, List.mem_cons, List.not_mem_nil, or_false] at hk
      rcases hk with rfl | rfl | rfl | rfl <;> exact ⟨rfl, rfl⟩
    · intro kind hk
      simp only [List.mem_cons, List.not_mem_nil, or_false] at hk
      rcases hk with rfl | rfl <;> rfl

/-- A reducer outside the four does not write the lists. -/
theorem Governing.not_writesMembership {g : L1} (hg : Governing g) {a : Action}
    (hk : a.kind ∉ membershipKinds) : (Model.l1 g).writesMembership a = false := by
  unfold Model.writesMembership
  show (match g.reduce ⟨a.docId, "", ∅⟩ a with
    | .ok ops => ops.any fun op => membershipKey op.key
    | .error _ => false) = false
  cases hr : g.reducer a.kind with
  | none => unfold L1.reduce; rw [hr]
  | some r =>
    rw [L1.reduce_eq (hg.sound a.kind (by rw [hr]; rfl))]
    dsimp only
    rw [List.any_map, List.any_eq_false]
    intro p hp
    exact Bool.eq_false_iff.mp (hg.other a.kind hk p hp)

/-! ### Its actions see the lists only -/

theorem written_congr {d d' : Doc} {k : String} (h : currentArray d k = currentArray d' k)
    (a : Action) (w : Value) : written d a k w = written d' a k w := by
  unfold written writeValue
  rw [h]

/-- The lists after an action of a governing model are a function of the lists before it. -/
theorem SameMembership.after_applyOps {g : L1} {a : Action} (hs : g.Sound a.kind) {e e' : Entry}
    (h : SameMembership e e') :
    SameMembership (applyOpsToEntry e (.l1 g) a).1 (applyOpsToEntry e' (.l1 g) a).1 := by
  have hfield : ∀ k, k ≠ nameKey → e.doc.fields[k]? = e'.doc.fields[k]? →
      (applyOpsToEntry e (.l1 g) a).1.doc.fields[k]? =
        (applyOpsToEntry e' (.l1 g) a).1.doc.fields[k]? := by
    intro k hname hk
    cases hd : e.deleted with
    | true =>
      rw [fields_applyOpsToEntry_of_deleted hd _ a hname,
        fields_applyOpsToEntry_of_deleted (h.deleted ▸ hd) _ a hname, hk]
    | false =>
      rw [fields_l1 hs hd hname, fields_l1 hs (h.deleted ▸ hd) hname, hk]
      simp only [written_congr (currentArray_congr hk)]
  refine ⟨hfield _ (by decide) h.managers, hfield _ (by decide) h.members, ?_⟩
  rw [deleted_l1, deleted_l1, h.deleted]

/-- A gate by managers, opened. -/
theorem checkPrecondition_byManager {g : L1} {a : Action}
    (h : g.preList a.kind = [Def.actorIn "managers"]) (d : Doc) :
    (g.checkPrecondition d a).isOk = inList d "managers" a.origin := by
  unfold L1.checkPrecondition
  rw [h]
  show ((if inList d "managers" a.origin = true then Except.ok ()
    else .error (.precondition ("actor " ++ a.origin ++ " is not in '" ++ "managers" ++ "'"))) >>=
      fun _ => pure () : Except Reject Unit).isOk = _
  cases inList d "managers" a.origin <;> rfl

/-- A quorum is declared by the model and counted by the store: the model lets the action pass. -/
theorem checkPrecondition_byQuorum {g : L1} {a : Action}
    (h : g.preList a.kind = [Def.selfQuorum]) (d : Doc) : g.checkPrecondition d a = .ok () := by
  have hq : (isQuorum Def.selfQuorum || isSpaceMember Def.selfQuorum) = true := by decide
  unfold L1.checkPrecondition
  rw [h]
  show ((if (isQuorum Def.selfQuorum || isSpaceMember Def.selfQuorum) = true then Except.ok ()
    else g.evalPrecond d a Def.selfQuorum 9) >>= fun _ => pure () : Except Reject Unit) = _
  rw [if_pos hq]
  rfl

theorem checkPrecondition_ungated {g : L1} {a : Action} (h : g.preList a.kind = []) (d : Doc) :
    g.checkPrecondition d a = .ok () := by
  unfold L1.checkPrecondition
  rw [h]
  rfl

/-- The checks a fold makes on a membership action depend on the lists alone. -/
theorem Governing.checks_congr {g : L1} (hg : Governing g) {a : Action}
    (hk : a.kind ∈ membershipKinds) {e e' : Entry} (h : SameMembership e e') :
    (((Model.l1 g).checkPrecondition e.doc a).isOk && ((Model.l1 g).authorize e.doc a).isOk) =
      (((Model.l1 g).checkPrecondition e'.doc a).isOk &&
        ((Model.l1 g).authorize e'.doc a).isOk) := by
  have hauth : ∀ d : Doc, (Model.l1 g).authorize d a = .ok () := by
    intro d
    show g.authorize d a = .ok ()
    unfold L1.authorize
    rw [hg.noAuth a.kind hk]
  -- no rule on the four kinds reads anything but the list of managers
  rw [hauth, hauth]
  congr 1
  show (g.checkPrecondition e.doc a).isOk = (g.checkPrecondition e'.doc a).isOk
  simp only [membershipKinds, List.mem_cons, List.not_mem_nil, or_false] at hk
  have hmanager : a.kind ∈ ["add-member", "remove-member"] →
      (g.checkPrecondition e.doc a).isOk = (g.checkPrecondition e'.doc a).isOk := by
    intro hkind
    have hpre := hg.byManager a.kind hkind
    rw [checkPrecondition_byManager hpre, checkPrecondition_byManager hpre]
    unfold inList
    rw [currentArray_congr h.managers]
  rcases hk with hk | hk | hk | hk
  · have hpre := hg.byQuorum
    rw [← hk] at hpre
    rw [checkPrecondition_byQuorum hpre, checkPrecondition_byQuorum hpre]
  · exact hmanager (by rw [hk]; decide)
  · have hpre := hg.ungated
    rw [← hk] at hpre
    rw [checkPrecondition_ungated hpre, checkPrecondition_ungated hpre]
  · exact hmanager (by rw [hk]; decide)

/-! ## Folds -/

/-- The action is one of the governing model, or does not write the lists. -/
def Tame (g : L1) (r : ModelRegistry) (a : Action) : Prop :=
  ∃ m, r.find a.model = some m ∧ (m = .l1 g ∨ m.writesMembership a = false)

theorem sameMembership_refoldStep {m : Model} {a : Action} (hw : m.writesMembership a = false)
    (e : Entry) : SameMembership (refoldStep e a m) e := by
  rcases refoldStep_cases e a m with h | ⟨-, -, h⟩
  · rw [h]; exact SameMembership.refl e
  · rw [h]
    have hops := sameMembership_applyOps hw e
    exact ⟨hops.managers, hops.members, hops.deleted⟩

theorem SameMembership.after_foldStep {g : L1} (hg : Governing g) {r : ModelRegistry} {a : Action}
    (ha : Tame g r a) {e e' : Entry} (h : SameMembership e e') :
    SameMembership (foldStep r e a) (foldStep r e' a) := by
  obtain ⟨m, hm, hcase⟩ := ha
  rw [foldStep_eq hm, foldStep_eq hm]
  have hkeep : m.writesMembership a = false →
      SameMembership (refoldStep e a m) (refoldStep e' a m) := fun hw =>
    (sameMembership_refoldStep hw e).trans (h.trans (sameMembership_refoldStep hw e').symm)
  rcases hcase with rfl | hw
  · by_cases hk : a.kind ∈ membershipKinds
    · -- the same lists: the same verdict, and the same lists afterwards
      unfold refoldStep
      rw [hg.checks_congr hk h]
      split
      · have hops := h.after_applyOps (hg.sound a.kind (hg.known a.kind hk))
        exact ⟨hops.managers, hops.members, hops.deleted⟩
      · exact h
    · exact hkeep (hg.not_writesMembership hk)
  · exact hkeep hw

theorem sameMembership_foldl {g : L1} (hg : Governing g) {r : ModelRegistry} :
    ∀ (log : List Action), (∀ a ∈ log, Tame g r a) → ∀ {e e' : Entry}, SameMembership e e' →
      SameMembership (log.foldl (foldStep r) e) (log.foldl (foldStep r) e')
  | [], _, _, _, h => h
  | a :: log, htame, _, _, h =>
    sameMembership_foldl hg log (fun b hb => htame b (List.mem_cons_of_mem a hb))
      (h.after_foldStep hg (htame a List.mem_cons_self))

/-- **Inserting an action that does not write the lists**, anywhere in the log, leaves them as they
    were. -/
theorem sameMembership_insert {g : L1} (hg : Governing g) {r : ModelRegistry} {base : Entry}
    {log : List Action} (hsort : Lib.KeySorted canonKey log) (htame : ∀ b ∈ log, Tame g r b)
    {a : Action} {m : Model} (hm : r.find a.model = some m) (hw : m.writesMembership a = false) :
    SameMembership (canonFold r base (log ++ [a])) (canonFold r base log) := by
  obtain ⟨before, after, rfl, hins⟩ := Lib.canonSort_concat_split hsort a
  have hins : sortLog (before ++ after ++ [a]) = before ++ a :: after := hins
  have hlog : sortLog (before ++ after) = before ++ after := hsort.canonSort_eq
  unfold canonFold
  rw [hins, hlog, List.foldl_append, List.foldl_append, List.foldl_cons]
  refine sameMembership_foldl hg after (fun b hb => htame b (List.mem_append_right _ hb)) ?_
  rw [foldStep_eq hm]
  exact sameMembership_refoldStep hw _

/-! ## Runs -/

/-- `init` has been accepted: the list of managers is there. -/
def Initialised (d : Doc) : Prop := d.fields["managers"]?.isSome

/-- An event of a run in which the document `d`, governed by `g`, is written as its model has it:
    the lists by `g`'s own actions only, `init` on a document that has no lists yet, the quorum of
    `add-manager` counted in `d` itself.  `d` is not adopted, no snapshot file of it is torn, and
    no model is loaded that changes what the actions of its live log resolve to. -/
structure Lawful (g : L1) (d : DocId) (s : Inner) (ev : Event) : Prop where
  ownModel : ∀ io a m, ev = .applyAction io a → a.docId = d → s.Accepted a m →
    m = .l1 g ∨ m.writesMembership a = false
  initOnce : ∀ io a, ev = .applyAction io a → a.docId = d → s.Accepted a (.l1 g) →
    a.kind = "init" → ¬ Initialised (s.entryFor d).doc
  ownQuorum : ∀ io a, ev = .applyAction io a → a.docId = d → s.Accepted a (.l1 g) →
    a.kind = "add-manager" → s.names[(s.entryFor d).doc.name]? = some d
  notTorn : ∀ io, (∃ a, ev = .applyAction io a ∧ a.docId = d) ∨ ev = .snapshot io d →
    io.snap ≠ .torn
  noAdoption : ∀ st, ev = .adoptState st → st.doc.id ≠ d
  sameModels : ∀ m, ev = .addModel m → ∀ b ∈ (s.entryFor d).log,
    (s.models.insert m).find b.model = s.models.find b.model

/-- What a lawful run keeps: the live document is the fold of its log from the snapshot, and every
    action of the log is tame. -/
structure LawfulInv (g : L1) (d : DocId) (s : Inner) : Prop where
  unknown : s.entries[d]? = none → s.disk.snap[d]? = none
  fold : FoldInv s.models (s.baseEntry d) (s.entryFor d)
  tame : ∀ b ∈ (s.entryFor d).log, Tame g s.models b

theorem LawfulInv.congr {g : L1} {d : DocId} {s t : Inner} (h : LawfulInv g d s)
    (hview : t.view d = s.view d)
    (hmodels : ∀ b ∈ (s.entryFor d).log, t.models.find b.model = s.models.find b.model) :
    LawfulInv g d t := by
  have hfor : t.entryFor d = s.entryFor d := entryFor_congr hview
  have hentry : t.entries[d]? = s.entries[d]? := congrArg View.entry hview
  have hsnap : t.disk.snap[d]? = s.disk.snap[d]? := congrArg View.snap hview
  have hbase : t.baseEntry d = s.baseEntry d := baseEntry_congr hsnap
  refine ⟨by rw [hentry, hsnap]; exact h.unknown, ?_, ?_⟩
  · rw [hfor, hbase]
    exact h.fold.congr_models hmodels
  · rw [hfor]
    intro b hb
    obtain ⟨m, hm, hcase⟩ := h.tame b hb
    exact ⟨m, (hmodels b hb).trans hm, hcase⟩

/-- Putting an entry whose log is tame in its place. -/
theorem LawfulInv.put {g : L1} {d : DocId} {s t : Inner} {e : Entry}
    (hmodels : t.models = s.models) (hfold : FoldInv s.models (s.baseEntry d) e)
    (htame : ∀ b ∈ e.log, Tame g s.models b) (hput : Holds d s t e) : LawfulInv g d t := by
  refine ⟨?_, ?_, ?_⟩
  · intro hnone
    rcases hput with ⟨hentry, -⟩ | ⟨hentry, -⟩ <;>
      rw [show (t.view d).entry = none from hnone] at hentry <;> cases hentry
  · rw [hmodels]; exact foldInv_put hfold hput
  · rw [hmodels]
    intro b hb
    rcases hput.log with hlog | hlog
    · exact htame b (hlog ▸ hb)
    · rw [hlog] at hb; exact absurd hb List.not_mem_nil

/-- Accepting a tame action. -/
theorem lawfulInv_accept {g : L1} {s : Inner} {io : Io} {a : Action} {m : Model}
    (h : LawfulInv g a.docId s) (hacc : s.Accepted a m)
    (hown : m = .l1 g ∨ m.writesMembership a = false) (hio : io.snap ≠ .torn) :
    LawfulInv g a.docId (s.exec (.applyAction io a)) := by
  obtain ⟨hset, hperm⟩ := foldInv_settled hacc h.fold
  refine LawfulInv.put (s.sameSetup_applyAction io a).models hset ?_ (holds_accept hacc h.fold hio)
  intro b hb
  rcases List.mem_append.mp (hperm.mem_iff.mp hb) with hb | hb
  · exact h.tame b hb
  · rw [List.mem_singleton.mp hb]
    exact ⟨m, hacc.model, hown⟩

/-- **Step lemma** for lawful events. -/
theorem lawfulInv_exec {g : L1} {d : DocId} {s : Inner} {ev : Event} (hen : ev.Enabled s)
    (hl : Lawful g d s ev) (h : LawfulInv g d s) : LawfulInv g d (s.exec ev) := by
  have hmodels : ∀ b ∈ (s.entryFor d).log,
      (s.exec ev).models.find b.model = s.models.find b.model :=
    fun b hb => s.find_exec ev b.model fun m hm => hl.sameModels m hm b hb
  have hstep := docStep_exec s ev hen d
  generalize hv : (s.exec ev).view d = v at hstep
  cases hstep with
  | stay _ => exact h.congr hv hmodels
  | created sp hnew _ =>
    have hsnap : (s.exec ev).disk.snap[d]? = none :=
      (congrArg View.snap hv).trans (h.unknown hnew)
    have hfor := entryFor_eq (congrArg View.entry hv)
    refine ⟨fun _ => hsnap, ?_, ?_⟩
    · rw [Inner.baseEntry_of_none hsnap, hfor]
      exact foldInv_new _ d sp
    · rw [hfor]
      exact fun b hb => absurd hb List.not_mem_nil
  | @accepted io a m hd hacc =>
    subst hd
    exact lawfulInv_accept h hacc (hl.ownModel io a m rfl rfl hacc)
      (hl.notTorn io (Or.inl ⟨a, rfl, rfl⟩))
  | @stuck io a m hd hacc hres =>
    subst hd
    exact absurd (resolves_appended h.fold hacc.model) hres
  | snapshot io =>
    cases he : s.entries[d]? with
    | none => exact h.congr (view_snapshot_of_none he io) hmodels
    | some e =>
      have hfor := entryFor_eq he
      exact LawfulInv.put (s.sameSetup_snapshot io d).models (hfor ▸ h.fold) (hfor ▸ h.tame)
        (holds_snapshot he (hl.notTorn io (Or.inr rfl)))
  | adopted hd => exact absurd hd (hl.noAdoption _ rfl)

/-- **Run lemma** for lawful runs. -/
theorem lawfulInv_run {g : L1} {d : DocId} {key : SigningKey} {origin : Origin} {extra : List Model}
    {s : Inner} (h : Inner.Run (Lawful g d) (Store.fresh key origin extra) s) :
    LawfulInv g d s := by
  refine h.induct ?_ fun _ _ hen hl hi => lawfulInv_exec hen hl hi
  have hview := Store.fresh_view key origin extra d
  have hsnap : (Store.fresh key origin extra).disk.snap[d]? = none := congrArg View.snap hview
  refine ⟨fun _ => hsnap, ?_, ?_⟩
  · rw [Inner.baseEntry_of_none hsnap, entryFor_blank hview]
    exact foldInv_new _ d none
  · rw [entryFor_blank hview]
    exact fun b hb => absurd hb List.not_mem_nil

/-! ## The rules -/

/-- Every co-signature verifies under the key the store has pinned for its signer. -/
def Inner.CosigsVerified (s : Inner) (a : Action) : Prop :=
  ∀ i c, a.cosig[i]? = some c →
    ∃ k, s.knownKeys[c.origin]? = some k ∧ Primitives.keyOk k = true ∧ a.verifyCosig i k = true

theorem Inner.Accepted.cosigsVerified {s : Inner} {a : Action} {m : Model} (h : s.Accepted a m) :
    s.CosigsVerified a := by
  have hsig := h.signatures
  unfold Inner.checkSignatures at hsig
  obtain ⟨⟨⟩, -, hcosig⟩ := bind_eq_ok.mp hsig
  intro i c hc
  have hmem : (c, i) ∈ a.cosig.zipIdx := by
    rw [List.mem_zipIdx_iff_getElem?]
    exact hc
  exact Inner.checkKey_ok (forM_eq_ok hcosig (c, i) hmem)

/-- A quorum of the document itself, met. -/
theorem two_endorsers {g : L1} (hg : Governing g) {s : Inner} {a : Action}
    (hk : a.kind = "add-manager") (hacc : s.Accepted a (.l1 g))
    (hown : s.names[(s.entryFor a.docId).doc.name]? = some a.docId) :
    2 ≤ (Inner.endorsers (Inner.liveStrings (s.entryFor a.docId).doc "members") a).length := by
  have hquorum := hacc.quorum
  unfold Inner.checkQuorum at hquorum
  have hspec : (Model.l1 g).quorum a.kind = some ⟨"$self", 2, "members"⟩ := by
    show (g.preList a.kind).findSome? parseQuorum = _
    rw [hk, hg.byQuorum]
    rfl
  rw [hspec] at hquorum
  dsimp only at hquorum
  unfold Inner.quorumProblem at hquorum
  cases he : s.entries[a.docId]? with
  | none => rw [he] at hquorum; cases hquorum
  | some e =>
    rw [entryFor_eq he] at hown ⊢
    simp only [he, if_true, Option.map_some] at hquorum
    by_cases hname : e.doc.name = ""
    · simp only [hname, if_true] at hquorum
      cases hquorum
    · simp only [if_neg hname, hown, Option.bind_some, he] at hquorum
      by_contra hlt
      rw [if_pos (by omega)] at hquorum
      cases hquorum

/-- **Only the rules change membership.**  In every state of a lawful run, an accepted action that
    changes the members or the managers of an initialised group or space was made by one of its
    managers, or is an `add-manager` that two of its members, the origin and its verified
    co-signers counted, have endorsed. -/
theorem membership_changes_by_rule {g : L1} (hg : Governs g) {d : DocId} {key : SigningKey}
    {origin : Origin} {extra : List Model} {s : Inner}
    (hrun : Inner.Run (Lawful g d) (Store.fresh key origin extra) s) {io : Io} {a : Action}
    {m : Model} (hd : a.docId = d) (hlaw : Lawful g d s (.applyAction io a))
    (hacc : s.Accepted a m) {e e' : Entry} (he : s.entries[d]? = some e)
    (he' : (s.exec (.applyAction io a)).entries[d]? = some e') (hinit : Initialised e.doc)
    (hchange : currentArray e'.doc "members" ≠ currentArray e.doc "members" ∨
      currentArray e'.doc "managers" ≠ currentArray e.doc "managers") :
    inList e.doc "managers" a.origin = true ∨
      (a.kind = "add-manager" ∧ 2 ≤ (Inner.endorsers (Inner.liveStrings e.doc "members") a).length ∧
        s.Verified a ∧ s.CosigsVerified a) := by
  subst hd
  have hgov := hg.governing
  have hinv := lawfulInv_run hrun
  have hfor := entryFor_eq he
  have hnotTorn := hlaw.notTorn io (Or.inl ⟨a, rfl, rfl⟩)
  -- an action that does not write the lists leaves them alone, in order or not
  have hwrites : m.writesMembership a = true := by
    by_contra hw
    have hw : m.writesMembership a = false := Bool.eq_false_iff.mpr hw
    obtain ⟨hset, -⟩ := foldInv_settled hacc hinv.fold
    have hins : SameMembership
        (canonFold s.models (s.baseEntry a.docId) ((s.entryFor a.docId).log ++ [a]))
        (canonFold s.models (s.baseEntry a.docId) (s.entryFor a.docId).log) :=
      sameMembership_insert hgov hinv.fold.sorted hinv.tame hacc.model hw
    have hafter := hset.state.sameMembership
    rw [log_settled hinv.fold.sorted, canonFold_sortLog] at hafter
    have hsame := (hafter.trans hins).trans hinv.fold.state.sameMembership.symm
    have hdoc : e'.doc = (s.settled a m).doc := by
      rcases holds_accept hacc hinv.fold hnotTorn with ⟨hentry, -⟩ | ⟨hentry, -⟩ <;>
        rw [← Option.some.inj (hentry.symm.trans he')]
    rw [hfor] at hsame
    rw [hdoc] at hchange
    rcases hchange with hne | hne
    · exact hne (currentArray_congr hsame.members)
    · exact hne (currentArray_congr hsame.managers)
  rcases hlaw.ownModel io a m rfl rfl hacc with rfl | hw
  · by_cases hk : a.kind ∈ membershipKinds
    · simp only [membershipKinds, List.mem_cons, List.not_mem_nil, or_false] at hk
      have hmanager : a.kind ∈ ["add-member", "remove-member"] →
          inList e.doc "managers" a.origin = true := by
        intro hkind
        have hpre : g.checkPrecondition (s.entryFor a.docId).doc a = .ok () := hacc.precondition
        rw [← checkPrecondition_byManager (hgov.byManager a.kind hkind), ← hfor, hpre]
        rfl
      rcases hk with hk | hk | hk | hk
      · have hown := hlaw.ownQuorum io a rfl rfl hacc hk
        have htwo := two_endorsers hgov hk hacc hown
        rw [hfor] at htwo
        exact Or.inr ⟨hk, htwo, hacc.verified, hacc.cosigsVerified⟩
      · exact Or.inl (hmanager (by rw [hk]; decide))
      · exact absurd hinit (hfor ▸ hlaw.initOnce io a rfl rfl hacc hk)
      · exact Or.inl (hmanager (by rw [hk]; decide))
    · rw [hgov.not_writesMembership hk] at hwrites
      cases hwrites
  · rw [hw] at hwrites
    cases hwrites

/-! ### A run to evaluate -/

theorem lawful_registerPeerKey (g : L1) (d : DocId) (s : Inner) (o : Origin) (k : PublicKey) :
    Lawful g d s (.registerPeerKey o k) where
  ownModel := fun io a m h => by cases h
  initOnce := fun io a h => by cases h
  ownQuorum := fun io a h => by cases h
  notTorn := by rintro io (⟨a, h, -⟩ | h) <;> cases h
  noAdoption := fun st h => by cases h
  sameModels := fun m h => by cases h

/-- An action of the governing model, not an `add-manager`, and an `init` at most once. -/
theorem lawful_own {g : L1} {s : Inner} (a : Action) (hm : s.models.find a.model = some (.l1 g))
    (hinit : a.kind = "init" → ¬ Initialised (s.entryFor a.docId).doc)
    (hk : a.kind ≠ "add-manager") : Lawful g a.docId s (.applyAction Io.ok a) where
  ownModel := by
    rintro io b m h - hacc
    cases h
    have hb := hacc.model
    rw [hm] at hb
    exact Or.inl (Option.some.inj hb).symm
  initOnce := by rintro io b h - - hkind; cases h; exact hinit hkind
  ownQuorum := by rintro io b h - - hkind; cases h; exact absurd hkind hk
  notTorn := by
    rintro io (⟨b, h, -⟩ | h)
    · cases h; decide
    · cases h
  noAdoption := fun st h => by cases h
  sameModels := fun m h => by cases h

end

section

open Sample

attribute [local instance] Sample.primitives

/-- A group managed by alice, on a node that knows mallory too. -/
def groupWithStranger : Inner :=
  (Store.fresh alice.key alice.name []).execAll
    (pins [alice, bob, mallory] ++ deliver [groupInit])

/-- Mallory, neither member nor manager, overwrites the list of members through `open@1`. -/
def seizeMembers : Action :=
  act mallory "open" "set" (Store.setPayload "members" (strs ["mallory"])) 30
    [("alice", 1), ("mallory", 1)] none

/-- The action is accepted and changes the list, although mallory was no manager and the action is
    no `add-manager`. -/
theorem open_set_changes_members :
    groupWithStranger.accepts seizeMembers = true ∧
      (groupWithStranger.entryFor docId).doc.fields["managers"]?.isSome = true ∧
      currentArray (groupWithStranger.entryFor docId).doc "members" =
        [.string "alice", .string "bob"] ∧
      currentArray ((groupWithStranger.exec (.applyAction Io.ok seizeMembers)).entryFor docId).doc
        "members" = [.string "mallory"] ∧
      inList (groupWithStranger.entryFor docId).doc "managers" seizeMembers.origin = false ∧
      seizeMembers.kind ≠ "add-manager" := by
  decide +kernel

/-- Alice adds a member. -/
def addCarol : Action :=
  act alice "group" "add-member" (.object [("member", .string "carol")]) 20 [("alice", 2)] none

/-- The group, with its `init` only. -/
def startedGroup : Inner :=
  (Store.fresh alice.key alice.name []).execAll (pins [bob] ++ deliver [groupInit])

theorem membership_changes_by_rule_add_member :
    ∃ e e', startedGroup.entries[docId]? = some e ∧
      (startedGroup.exec (.applyAction Io.ok addCarol)).entries[docId]? = some e' ∧
      currentArray e'.doc "members" ≠ currentArray e.doc "members" ∧
      (inList e.doc "managers" addCarol.origin = true ∨
        (addCarol.kind = "add-manager" ∧
          2 ≤ (Inner.endorsers (Inner.liveStrings e.doc "members") addCarol).length ∧
          startedGroup.Verified addCarol ∧ startedGroup.CosigsVerified addCarol)) := by
  have hfind : ModelRegistry.seededWithBuiltins.find (ModelRef.new "group" "1") =
      some (.l1 group) := seededWithBuiltins_find ("group", group) (by simp)
  have hpinned : ((Store.fresh alice.key alice.name []).exec
      (.registerPeerKey bob.name bob.key)).models = ModelRegistry.seededWithBuiltins :=
    (Inner.models_exec _ _ fun m h => by cases h).trans (Store.fresh_models _ _ _)
  have hmodels : startedGroup.models = ModelRegistry.seededWithBuiltins :=
    (Inner.sameSetup_applyAction _ Io.ok groupInit).models.trans hpinned
  have hblank : ((Store.fresh alice.key alice.name []).exec
      (.registerPeerKey bob.name bob.key)).view docId = ⟨none, none, none⟩ :=
    (Inner.view_registerPeerKey ..).trans (Store.fresh_view ..)
  have hrun : Inner.Run (Lawful group docId) (Store.fresh alice.key alice.name [])
      startedGroup := by
    refine Relation.ReflTransGen.tail (Relation.ReflTransGen.single
      ⟨.registerPeerKey bob.name bob.key, trivial, lawful_registerPeerKey .., rfl⟩)
      ⟨.applyAction Io.ok groupInit, trivial, lawful_own groupInit ?_ (fun _ => ?_) (by decide),
        rfl⟩
    · rw [hpinned]; exact hfind
    · show ¬ (((Store.fresh alice.key alice.name []).exec
        (.registerPeerKey bob.name bob.key)).entryFor docId).doc.fields["managers"]?.isSome = true
      rw [entryFor_blank hblank]
      decide
  have hlaw : Lawful group docId startedGroup (.applyAction Io.ok addCarol) :=
    lawful_own addCarol (by rw [hmodels]; exact hfind) (fun h => absurd h (by decide)) (by decide)
  have hcheck : startedGroup.accepts addCarol = true ∧
      startedGroup.entries[docId]?.isSome = true ∧
      (startedGroup.exec (.applyAction Io.ok addCarol)).entries[docId]?.isSome = true ∧
      (startedGroup.entryFor docId).doc.fields["managers"]?.isSome = true ∧
      currentArray
        ((startedGroup.exec (.applyAction Io.ok addCarol)).entryFor docId).doc "members" ≠
        currentArray (startedGroup.entryFor docId).doc "members" := by
    decide +kernel
  obtain ⟨haccepts, hsome, hsome', hinit, hchange⟩ := hcheck
  obtain ⟨m, hacc⟩ := Inner.accepts_iff.mp haccepts
  obtain ⟨e, he⟩ := Option.isSome_iff_exists.mp hsome
  obtain ⟨e', he'⟩ := Option.isSome_iff_exists.mp hsome'
  rw [entryFor_eq he] at hinit hchange
  rw [entryFor_eq he'] at hchange
  exact ⟨e, e', he, he', hchange,
    membership_changes_by_rule (Or.inl rfl) hrun rfl hlaw hacc he he' hinit (Or.inl hchange)⟩

end

end PhReactor
