/-
  The names that documents get, and what a processor makes of them.

  The create paths check the name they are given (`Store::validate_name`).  But a name is written by
  ANY action whose reducer sets the reserved field: `update_field(name, "__name__", …)`, a model of
  one's own, an action of a peer, an adopted state — and none of these is checked
  (`unchecked_name_reaches_shell`).

  1. **What an action names** (`Model.givesName`).  Whatever the state, an action writes one and the
     same string to the name, or none: `append` and `remove` always produce arrays, which name the
     document "" (`name_applyOpsToEntry_cases`).

  2. **One step.**  `Names`: entry and snapshot of a document carry good names.  A step keeps it if
     the actions it folds give good names only (`NamesChecked`), whatever is re-folded, snapshotted
     or replayed.

  3. **The feed.**  A change carries the name its document has when it is sent, so every change ever
     sent carries a good name, and the command that a processor gives to the shell has no character
     but the template's, the model's and the checked ones.
-/
import PhReactor.Processor
import PhReactor.Store.ChangeFeed
import PhReactor.Store.Deletion
import PhReactor.Store.NameIndex

set_option linter.unusedSectionVars false

namespace PhReactor

section

/-! ## Good names -/

/-- No name yet, or one that `validate_name` accepts. -/
def GoodName (n : String) : Prop := n = "" ∨ Store.validateName n = .ok ()

/-- Lowercase ASCII letters, digits, `-`, `_` and `.`. -/
def nameChar (c : Char) : Bool :=
  ('a' ≤ c && c ≤ 'z') || ('0' ≤ c && c ≤ '9') || c == '-' || c == '_' || c == '.'

theorem GoodName.chars {n : String} (h : GoodName n) : ∀ c ∈ n.toList, nameChar c = true := by
  rcases h with rfl | h
  · exact fun c hc => absurd hc List.not_mem_nil
  · unfold Store.validateName at h
    split at h
    · cases h
    · split at h
      · cases h
      · next hok =>
        rw [Bool.or_eq_true, not_or, Bool.not_eq_true', Bool.not_eq_false] at hok
        exact List.all_eq_true.mp hok.1

/-! ## What an action names -/

/-- The name an action gives its document, if it gives one.  The state does not matter
    (`givesName_eq`), so the blank document will do. -/
def Model.givesName (m : Model) (a : Action) : Option String :=
  match m.reduce ⟨a.docId, "", ∅⟩ a with
  | .ok ops => ((ops.find? fun op => op.key == some nameKey).bind Op.value).map fun v =>
      v.asStr?.getD ""
  | .error _ => none

theorem Model.givesName_eq {m : Model} {a : Action} {d : Doc} {ops : List Op}
    (h : m.reduce d a = .ok ops) : m.givesName a =
      ((ops.find? fun op => op.key == some nameKey).bind Op.value).map fun v =>
        v.asStr?.getD "" := by
  unfold Model.givesName
  rcases m.reduce_shape d ⟨a.docId, "", ∅⟩ a with ⟨r, hr, -⟩ | ⟨ops₁, ops₂, h₁, h₂, hshape⟩
  · rw [h] at hr
    cases hr
  · obtain rfl : ops = ops₁ := by
      rw [h] at h₁
      injection h₁
    rw [h₂]
    dsimp only
    rcases find?_shape hshape nameKey with ⟨hf, hf'⟩ | ⟨op, op', hf, hf', hs⟩
    · rw [hf, hf']
    · -- the two writes are the same string, or no strings
      rw [hf, hf']
      have htext := congrArg (Option.map fun t : Option String => t.getD "") hs.text
      rw [Option.map_map, Option.map_map] at htext
      exact htext

/-- **The name after an action** is the old one, or the one the action gives. -/
theorem name_applyOpsToEntry_cases {e : Entry} (hl : Lifted e.doc) (m : Model) (a : Action) :
    (applyOpsToEntry e m a).1.doc.name = e.doc.name ∨
      m.givesName a = some (applyOpsToEntry e m a).1.doc.name := by
  cases hred : m.reduce e.doc a with
  | error r => exact Or.inl (by rw [applyOpsToEntry_error hred])
  | ok ops =>
    cases hd : e.deleted with
    | true => exact Or.inl (by rw [doc_applyOpsToEntry_of_deleted hl hd])
    | false =>
      cases hnone : ops.any fun op => op.key.isNone with
      | true =>
        -- the document is deleted now, and cleared: there is no name to lift
        have hcleared := cleared_runOps (ops.map (stampOp a)) (c := e.cell) fun h => by
          rw [show e.cell.deleted = e.deleted from rfl, hd] at h
          cases h
        have hdel : (runOps e.cell (ops.map (stampOp a))).deleted = true := by
          have := deleted_applyOpsToEntry_ok hred
          rw [applyOpsToEntry_ok hred, hnone, Bool.or_true] at this
          exact this
        refine Or.inl ?_
        rw [applyOpsToEntry_ok hred]
        show (liftName (runOps e.cell (ops.map (stampOp a))).doc).name = e.doc.name
        rw [liftName_of_fields_empty (hcleared hdel), name_runOps]
        rfl
      | false =>
        have hname := name_applyOpsToEntry hred hd (key_ne_none_of_any hnone) hl
        rw [Model.givesName_eq hred, hname]
        cases (ops.find? fun op => op.key == some nameKey).bind Op.value with
        | none => exact Or.inl rfl
        | some v => exact Or.inr rfl

/-- Under the models `r` the action gives no name but a good one. -/
def ModelRegistry.NamesWell (r : ModelRegistry) (a : Action) : Prop :=
  ∀ m, r.find a.model = some m → ∀ n, m.givesName a = some n → GoodName n

theorem namesWell_of_bind {r : ModelRegistry} {a : Action} {o : Option String}
    (h : (r.find a.model).bind (fun m => m.givesName a) = o) (ho : ∀ n, o = some n → GoodName n) :
    r.NamesWell a := by
  intro m hm n hn
  rw [hm, Option.bind_some, hn] at h
  exact ho n h.symm

/-- A document with a good name, which is not left in the field map. -/
structure Doc.Named (d : Doc) : Prop where
  lifted : Lifted d
  good : GoodName d.name

theorem named_applyOpsToEntry {r : ModelRegistry} {a : Action} {m : Model} (hok : r.NamesWell a)
    (hm : r.find a.model = some m) {e : Entry} (h : e.doc.Named) :
    (applyOpsToEntry e m a).1.doc.Named := by
  refine ⟨lifted_applyOpsToEntry h.lifted m a, ?_⟩
  rcases name_applyOpsToEntry_cases h.lifted m a with hsame | hgives
  · rw [hsame]
    exact h.good
  · exact hok m hm _ hgives

/-! ## Folds -/

variable [Primitives]

/-- A re-fold folds an action in or passes it over. -/
theorem named_foldStep {r : ModelRegistry} {b : Action} (hok : r.NamesWell b) {e : Entry}
    (h : e.doc.Named) : (foldStep r e b).doc.Named := by
  cases hm : r.find b.model with
  | none =>
    rw [show foldStep r e b = e from by unfold foldStep; rw [hm]]
    exact h
  | some m =>
    rw [foldStep_eq hm]
    rcases refoldStep_cases e b m with heq | ⟨-, -, heq⟩
    · rw [heq]
      exact h
    · rw [heq]
      exact named_applyOpsToEntry hok hm h

theorem named_replayStep {s : Inner} {b : Action} (hok : s.models.NamesWell b) {e : Entry}
    (h : e.doc.Named) : (s.replayStep e b).doc.Named := by
  cases hm : s.models.find b.model with
  | none =>
    rw [(replayStep_missing hm e).1.doc]
    exact h
  | some m =>
    rw [(replayStep_spec hm e).1.doc]
    exact named_applyOpsToEntry hok hm h

theorem named_entryNew (d : DocId) : (Entry.new d).doc.Named := ⟨lifted_entryNew d, Or.inl rfl⟩

/-- Lifting finds nothing in a named document. -/
theorem Doc.Named.lift {d : Doc} (h : d.Named) (id : DocId) :
    (liftName { d with id := id }).Named := by
  rw [liftName_of_lifted (d := { d with id := id }) h.lifted]
  exact ⟨h.lifted, h.good⟩

theorem named_appended {r : ModelRegistry} {a : Action} {m : Model} (hok : r.NamesWell a)
    (hm : r.find a.model = some m) {e : Entry} (h : e.doc.Named) : (appended e m a).doc.Named := by
  have hsame := (sameDoc_stamped e a).after_applyOps m a
  rw [show (appended e m a).doc = (applyOpsToEntry e m a).1.doc from hsame.doc]
  exact named_applyOpsToEntry hok hm h

/-! ## One step -/

/-- Whatever a document may be rebuilt from is named. -/
structure Names (v : View) : Prop where
  entry : ∀ e, v.entry = some e → e.doc.Named
  snap : ∀ st, v.snap = some st → st.doc.Named

theorem Names.entryFor {s : Inner} {d : DocId} (h : Names (s.view d)) :
    (s.entryFor d).doc.Named := by
  cases he : s.entries[d]? with
  | none =>
    rw [entryFor_of_none he]
    exact named_entryNew d
  | some e =>
    rw [entryFor_eq he]
    exact h.entry e he

theorem Names.baseEntry {s : Inner} {d : DocId} (h : Names (s.view d)) :
    (s.baseEntry d).doc.Named := by
  unfold Inner.baseEntry
  cases hst : s.disk.snap[d]? with
  | none => exact (named_entryNew d).lift d
  | some st => exact (h.snap st hst).lift st.doc.id

theorem Names.replayBase {s : Inner} {d : DocId} (h : Names (s.view d)) :
    (s.replayBase d).doc.Named := by
  cases hst : s.disk.snap[d]? with
  | none =>
    rw [replayBase_of_none hst]
    exact named_entryNew d
  | some st =>
    rw [replayBase_of_some hst]
    exact (h.snap st hst).lift d

/-- A step that gives good names only: every action of a log that is folded, the new one with it,
    names well under the models at hand, and what is adopted has a good name. -/
def NamesChecked (s : Inner) (_ : List Action) : Happening → Prop
  | .event (.applyAction _ a) => s.accepts a = true →
      ∀ b, b ∈ (s.entryFor a.docId).log ∨ b = a → s.models.NamesWell b
  | .event (.adoptState st) => GoodName (liftName st.doc).name
  | .event _ => True
  | .reopen extra => ∀ (d : DocId) (l : List Action), s.disk.alog[d]? = some l →
      ∀ b ∈ l, (loadedModels extra).NamesWell b

/-- An accepted action, arriving in order or not. -/
theorem named_settled {s : Inner} {a : Action} {m : Model} (hacc : s.Accepted a m)
    (hok : ∀ b, b ∈ (s.entryFor a.docId).log ∨ b = a → s.models.NamesWell b)
    (h : Names (s.view a.docId)) : (s.settled a m).doc.Named := by
  unfold Inner.settled
  split
  · rw [(refolded_spec s a.docId _).1.doc]
    refine List.foldlRecOn (motive := fun e : Entry => e.doc.Named) _ _ h.baseEntry
      fun e he b hb => named_foldStep (hok b ?_) he
    rw [← List.mem_singleton, ← List.mem_append, ← log_appended _ m]
    exact mem_sortLog.mp hb
  · exact named_appended (hok a (Or.inr rfl)) hacc.model h.entryFor

theorem Names.put {v : View} (h : Names v) {e : Entry} (he : e.doc.Named) :
    Names { v with entry := some e } :=
  ⟨fun e' he' => by rw [← Option.some.inj he']; exact he, h.snap⟩

theorem Names.snapshot {v : View} (h : Names v) (io : Io) : Names (v.snapshot io) := by
  obtain ⟨hentry, hsnap⟩ := View.docs_snapshot h.entry h.snap io
  exact ⟨hentry, hsnap⟩

theorem Names.finish {v : View} (h : Names v) (io : Io) (a : Action) : Names (v.finish io a) := by
  obtain ⟨hentry, hsnap⟩ := View.docs_finish h.entry h.snap io a
  exact ⟨hentry, hsnap⟩

/-- **Step lemma**, for one document. -/
theorem names_happen {s : Inner} {acc : List Action} {h : Happening} (hen : h.Enabled s)
    (hP : NamesChecked s acc h) {d : DocId} (hn : Names (s.view d)) :
    Names ((s.happen h).view d) := by
  cases h with
  | reopen extra =>
    rw [view_reopened]
    refine ⟨fun e he => ?_, hn.snap⟩
    dsimp only at he
    split at he
    · rw [← Option.some.inj he, replayed_eq_foldl]
      refine List.foldlRecOn (motive := fun e : Entry => e.doc.Named) _ _ (Names.replayBase hn)
        fun e he b hb => named_replayStep (s := s.withModels (loadedModels extra)) ?_ he
      have hb := mem_sortLog.mp hb
      replace hb : b ∈ s.disk.alog[d]?.getD [] := hb
      cases hl : s.disk.alog[d]? with
      | none =>
        rw [hl] at hb
        exact absurd hb List.not_mem_nil
      | some l =>
        rw [hl] at hb
        exact hP d l hl b hb
    · cases he
  | event ev =>
    have hstep := docStep_exec s ev hen d
    show Names ((s.exec ev).view d)
    generalize (s.exec ev).view d = v at hstep ⊢
    cases hstep with
    | stay _ => exact hn
    | created sp _ _ => exact hn.put (named_entryNew d)
    | @accepted io a m hd hacc =>
      subst hd
      have hset := named_settled hacc (hP (Inner.accepts_iff.mpr ⟨m, hacc⟩)) hn
      exact (hn.put hset).finish io a
    | @stuck io a m hd hacc _ =>
      subst hd
      exact hn.put (named_appended (hP (Inner.accepts_iff.mpr ⟨m, hacc⟩) a (Or.inr rfl))
        hacc.model hn.entryFor)
    | snapshot io => exact hn.snapshot io
    | adopted hd => exact hn.put ⟨lifted_liftName _, hP⟩

/-! ## The feed -/

/-- The change has been sent to a subscriber. -/
def Inner.Sent (s : Inner) (c : DocChange) : Prop := ∃ sent ∈ s.subscribers, c ∈ sent

theorem Inner.Sent.congr {s t : Inner} {c : DocChange} (hsent : t.subscribers = s.subscribers)
    (h : t.Sent c) : s.Sent c := by
  unfold Inner.Sent at *
  rwa [hsent] at h

/-- What is sent carries the name its document has. -/
theorem sent_emitChange {s : Inner} {id : DocId} {ts : U64} {a : Option Action} {c : DocChange}
    (h : (s.emitChange id ts a).Sent c) :
    s.Sent c ∨ ∃ e, (s.emitChange id ts a).entries[id]? = some e ∧ c.name = e.doc.name := by
  cases he : s.entries[id]? with
  | none =>
    have hsame : s.emitChange id ts a = s := by
      unfold Inner.emitChange
      rw [he]
    rw [hsame] at h
    exact Or.inl h
  | some e =>
    rw [emitChange_eq he] at h ⊢
    obtain ⟨sent, hsent, hc⟩ := h
    obtain ⟨sent, hmem, rfl⟩ := List.mem_map.mp hsent
    rcases List.mem_append.mp hc with hc | hc
    · exact Or.inl ⟨sent, hmem, hc⟩
    · rw [List.mem_singleton.mp hc]
      exact Or.inr ⟨e, he, rfl⟩

/-- **What an event sends** carries a name that a document has afterwards. -/
theorem sent_exec {s : Inner} {ev : Event} {c : DocChange} (h : (s.exec ev).Sent c) :
    s.Sent c ∨ ∃ (d : DocId) (e : Entry),
      (s.exec ev).entries[d]? = some e ∧ c.name = e.doc.name := by
  cases ev with
  | applyAction io a =>
    replace h : (s.applyAction io a).1.Sent c := h
    show s.Sent c ∨ ∃ (d : DocId) (e : Entry), (s.applyAction io a).1.entries[d]? = some e ∧ _
    rcases s.applyAction_cases io a with
      ⟨r, -, heq⟩ | ⟨m, r, -, -, heq⟩ | ⟨m, msg, -, -, heq⟩ | ⟨m, -, any, del, heq⟩
    · rw [heq] at h
      exact Or.inl (h.congr rfl)
    · rw [heq] at h
      exact Or.inl (h.congr rfl)
    · rw [heq] at h
      exact Or.inl (h.congr rfl)
    · rw [heq] at h ⊢
      rcases Inner.finishApply_cases (s.putEntry a.docId (s.settled a m)) io a any del with
        ⟨⟨msg, hend⟩, -⟩ | ⟨-, hend⟩
      · rw [hend] at h
        exact Or.inl (h.congr (s := s) (recorded_frame (s.putEntry a.docId _) io a any).2)
      · rw [hend] at h ⊢
        dsimp only at h ⊢
        have hindex : (((s.putEntry a.docId (s.settled a m)).recorded io a any).1.indexName
            a.docId).subscribers = s.subscribers :=
          (subscribers_indexName _ _).trans (recorded_frame _ io a any).2
        split at h
        · rcases sent_emitChange h with h | ⟨e, he, hname⟩
          · exact Or.inl (h.congr hindex)
          · next hflag =>
            rw [if_pos hflag]
            exact Or.inr ⟨a.docId, e, he, hname⟩
        · exact Or.inl (h.congr hindex)
  | adoptState st =>
    rcases sent_emitChange (s := s.putEntry st.doc.id (adopted (s.entryFor st.doc.id) st)) h with
      h | ⟨e, he, hname⟩
    · exact Or.inl (h.congr rfl)
    · exact Or.inr ⟨st.doc.id, e, he, hname⟩
  | subscribeChanges =>
    obtain ⟨sent, hsent, hc⟩ := h
    rcases List.mem_append.mp hsent with hsent | hsent
    · exact Or.inl ⟨sent, hsent, hc⟩
    · rw [List.mem_singleton.mp hsent] at hc
      exact absurd hc List.not_mem_nil
  | snapshot io id => exact Or.inl (h.congr (subscribers_snapshot s io id))
  | registerPeerKey o k =>
    refine Or.inl (h.congr ?_)
    show (Store.registerPeerKey s o k).1.subscribers = s.subscribers
    unfold Store.registerPeerKey
    repeat' split
    all_goals rfl
  | newEntry id sp => exact Or.inl (h.congr rfl)
  | nextTs now => exact Or.inl (h.congr rfl)
  | bindName name id => exact Or.inl (h.congr rfl)
  | addModel m => exact Or.inl (h.congr rfl)
  | drainOutbound => exact Or.inl (h.congr rfl)
  | connectOutbound => exact Or.inl (h.congr rfl)

/-- A reopened store has no subscriber. -/
theorem subscribers_reopened (s : Inner) (extra : List Model) :
    (s.happen (.reopen extra)).subscribers = [] := by
  have hloop : ∀ (ids : List DocId) (t : Inner),
      (ids.foldl (fun s id => s.replayDoc id) t).subscribers = t.subscribers := by
    intro ids
    induction ids with
    | nil => exact fun t => rfl
    | cons id ids ih =>
      intro t
      rw [List.foldl_cons, ih, replayDoc_eq]
      split <;> rfl
  exact hloop _ _

/-! ## Whole lifetimes -/

/-- **Run lemma**: in every state of a lifetime that gives good names only, every document and
    every change carries one. -/
theorem names_lifetime {key : SigningKey} {origin : Origin} {extra : List Model} {s : Inner}
    {acc : List Action} (h : Lifetime NamesChecked (Store.fresh key origin extra) s acc) :
    (∀ d, Names (s.view d)) ∧ ∀ c, s.Sent c → GoodName c.name := by
  induction h with
  | start =>
    constructor
    · intro d
      rw [Store.fresh_view]
      exact ⟨fun e he => (by cases he), fun st hst => (by cases hst)⟩
    · rintro c ⟨sent, hsent, -⟩
      exact absurd hsent List.not_mem_nil
  | step _ h hen hP ih =>
    obtain ⟨hnames, hsent⟩ := ih
    have hnames' := fun d => names_happen hen hP (hnames d)
    refine ⟨hnames', fun c hc => ?_⟩
    cases h with
    | event ev =>
      rcases sent_exec hc with hc | ⟨d, e, he, hname⟩
      · exact hsent c hc
      · rw [hname]
        exact ((hnames' d).entry e he).good
    | reopen extra =>
      obtain ⟨sent, hmem, -⟩ := hc
      rw [subscribers_reopened] at hmem
      exact absurd hmem List.not_mem_nil

/-- **Every document name is well formed.**  In every state of every lifetime that gives good names
    only: the name of a document is empty or valid; a change that was sent has a name of letters,
    digits, `-`, `_` and `.`; and a command that a processor runs for it is its template with that
    name in it, so that it has no character but these, the template's and the model's. -/
theorem names_well_formed {key : SigningKey} {origin : Origin} {extra : List Model} {s : Inner}
    {acc : List Action} (h : Lifetime NamesChecked (Store.fresh key origin extra) s acc) :
    (∀ (d : DocId) (e : Entry), s.entries[d]? = some e →
      e.doc.name = "" ∨ Store.validateName e.doc.name = .ok ()) ∧
    ∀ c, s.Sent c →
      (∀ ch ∈ c.name.toList, nameChar ch = true) ∧
      ∀ (t : Inner) (spec : ProcessorSpec) (cmd doc model : String),
        perform t spec c = .run cmd doc model →
        ∃ command, spec.reaction = .run command ∧ cmd = substitute command c.name c.model.name ∧
          ∀ ch ∈ cmd.toList, ch ∈ command.toList ∨ ch ∈ c.model.name.toList ∨
            nameChar ch = true := by
  obtain ⟨hnames, hsent⟩ := names_lifetime h
  refine ⟨fun d e he => ((hnames d).entry e he).good, fun c hc => ?_⟩
  have hchars := (hsent c hc).chars
  refine ⟨hchars, fun t spec cmd doc model hrun => ?_⟩
  unfold perform at hrun
  cases hr : spec.reaction with
  | run command =>
    rw [hr] at hrun
    obtain ⟨rfl, -, -⟩ := Performed.run.inj hrun
    refine ⟨command, rfl, rfl, fun ch hch => ?_⟩
    rcases mem_substitute hch with hch | hch | hch
    · exact Or.inl hch
    · exact Or.inr (Or.inr (hchars ch hch))
    · exact Or.inr (Or.inl hch)
  | log message =>
    rw [hr] at hrun
    cases hrun
  | emit event =>
    rw [hr] at hrun
    cases hrun
  | createDoc model name fields =>
    rw [hr] at hrun
    dsimp only at hrun
    split at hrun <;> cases hrun

end

section

open Sample

attribute [local instance] Sample.primitives

/-! ### A name that is a command -/

/-- Alice gives her notes a name that the create paths would refuse. -/
def breaksOut : Action :=
  act alice "open" "set" (Store.setPayload nameKey (.string "x; reboot")) 30 [("alice", 3)] none

/-- Alice's store with her notes and a subscriber. -/
def feedStore : Inner := namedStore.happen (.event .subscribeChanges)

/-- A change among those that were sent, by its name. -/
theorem sent_of_names {s : Inner} {names : List (List String)} {n : String}
    (h : s.subscribers.map (fun sent => sent.map DocChange.name) = names)
    (hn : n ∈ names.flatten) : ∃ c, s.Sent c ∧ c.name = n := by
  rw [← h] at hn
  obtain ⟨l, hl, hn⟩ := List.mem_flatten.mp hn
  obtain ⟨sent, hsent, rfl⟩ := List.mem_map.mp hl
  obtain ⟨c, hc, hname⟩ := List.mem_map.mp hn
  exact ⟨c, ⟨sent, hsent, hc⟩, hname⟩

/-- **An unchecked name reaches the shell**: the name that goes into the command has a `;`. -/
theorem unchecked_name_reaches_shell :
    ¬ ∀ (s : Inner) (acc : List Action),
      Lifetime (fun _ _ _ => True) (Store.fresh alice.key alice.name []) s acc →
      (∀ (d : DocId) (e : Entry), s.entries[d]? = some e →
        e.doc.name = "" ∨ Store.validateName e.doc.name = .ok ()) ∧
      ∀ c, s.Sent c →
        (∀ ch ∈ c.name.toList, nameChar ch = true) ∧
        ∀ (t : Inner) (spec : ProcessorSpec) (cmd doc model : String),
          perform t spec c = .run cmd doc model →
          ∃ command, spec.reaction = .run command ∧
            cmd = substitute command c.name c.model.name ∧
            ∀ ch ∈ cmd.toList, ch ∈ command.toList ∨ ch ∈ c.model.name.toList ∨
              nameChar ch = true := by
  intro h
  have hlife : Lifetime (fun _ _ _ => True) (Store.fresh alice.key alice.name [])
      (feedStore.happen (.event (.applyAction Io.ok breaksOut))) _ :=
    ((Lifetime.start.step (.event (.applyAction Io.ok namesNotes)) trivial trivial).step
      (.event .subscribeChanges) trivial trivial).step (.event (.applyAction Io.ok breaksOut))
      trivial trivial
  have hsent : (feedStore.happen (.event (.applyAction Io.ok breaksOut))).subscribers.map
      (fun sent => sent.map DocChange.name) = [["x; reboot"]] := by decide +kernel
  obtain ⟨c, hc, hname⟩ := sent_of_names (n := "x; reboot") hsent (by decide)
  have hchars := ((h _ _ hlife).2 c hc).1
  rw [hname] at hchars
  exact absurd (hchars ';' (by decide)) (by decide)

/-- A name that was checked, in the command of a processor. -/
theorem names_well_formed_titled :
    ∃ c, (feedStore.happen (.event (.applyAction Io.ok titlesNotes))).Sent c ∧ c.name = "notes" ∧
      ∀ ch ∈ c.name.toList, nameChar ch = true := by
  have hfacts : ((Store.fresh alice.key alice.name []).models.find namesNotes.model).bind
        (fun m => m.givesName namesNotes) = some "notes" ∧
      (feedStore.models.find namesNotes.model).bind (fun m => m.givesName namesNotes) =
        some "notes" ∧
      (feedStore.models.find titlesNotes.model).bind (fun m => m.givesName titlesNotes) = none ∧
      ((Store.fresh alice.key alice.name []).entryFor namesNotes.docId).log = [] ∧
      (feedStore.entryFor titlesNotes.docId).log = [namesNotes] ∧
      (feedStore.happen (.event (.applyAction Io.ok titlesNotes))).subscribers.map
        (fun sent => sent.map DocChange.name) = [["notes"]] := by
    decide +kernel
  obtain ⟨hfresh, hnotes, htitle, hnil, hlog, hsent⟩ := hfacts
  have hgood : ∀ n, some "notes" = some n → GoodName n := fun n hn =>
    Or.inr (by rw [← Option.some.inj hn]; decide)
  have hcreate : NamesChecked (Store.fresh alice.key alice.name []) []
      (.event (.applyAction Io.ok namesNotes)) := by
    rintro - b (hb | rfl)
    · rw [hnil] at hb
      exact absurd hb List.not_mem_nil
    · exact namesWell_of_bind hfresh hgood
  have hset : ∀ acc, NamesChecked feedStore acc (.event (.applyAction Io.ok titlesNotes)) := by
    rintro acc - b (hb | rfl)
    · rw [hlog, List.mem_singleton] at hb
      subst hb
      exact namesWell_of_bind hnotes hgood
    · exact namesWell_of_bind htitle fun n hn => (by cases hn)
  have hlife := ((Lifetime.start.step (.event (.applyAction Io.ok namesNotes)) trivial hcreate).step
    (.event .subscribeChanges) trivial trivial).step (.event (.applyAction Io.ok titlesNotes))
    trivial (hset _)
  obtain ⟨c, hc, hname⟩ := sent_of_names (n := "notes") hsent (by decide)
  exact ⟨c, hc, hname, ((names_well_formed hlife).2 c hc).1⟩

end

end PhReactor
