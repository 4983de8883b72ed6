/-
  The name index: `names` leads from a name to a document.

  `Store::get` looks a document up by its name, so the index should lead from every name that a
  live document carries, to one that carries it, and from no other name.  In the terms of
  `Lib/LabelIndex.lean`: the LABEL of a document is its name while it is live, and `names` indexes
  the labels (`NamesIndexed`).

  The index is touched in four places, and each follows a rule of its own:

  1. step 7 of `applyAction` enters the document's PRESENT name and never takes the old one out, so
     a rename leaves the index leading from a name nobody carries (`rename_leaves_old_name`);

  2. step 7 of a delete takes the name out although another live document may carry it;

  3. a stuck re-fold and a failed snapshot return before step 7;

  4. the replay enters the names of deleted documents too.

  `KeepsIndex` and `Indexing` exclude these, and `name_index_exact` says that the index is then
  right in every state of every lifetime, and `get` finds exactly the names of live documents.
-/
import PhReactor.Lib.LabelIndex
import PhReactor.Store.Failures
import PhReactor.Store.Lifetime

set_option linter.unusedSectionVars false

namespace PhReactor

section

/-! ## Labels -/

/-- The name of an entry while it is live. -/
def Entry.label (e : Entry) : Option String :=
  if e.deleted = true ∨ e.doc.name = "" then none else some e.doc.name

theorem Entry.label_eq_some {e : Entry} {n : String} :
    e.label = some n ↔ e.deleted = false ∧ e.doc.name = n ∧ n ≠ "" := by
  unfold Entry.label
  cases e.deleted with
  | true => simp
  | false =>
    by_cases hname : e.doc.name = ""
    · simp [hname, eq_comm]
    · simp only [Bool.false_eq_true, false_or, if_neg hname, Option.some.injEq, true_and]
      constructor
      · rintro rfl
        exact ⟨rfl, hname⟩
      · exact fun h => h.1

theorem Entry.label_of_deleted {e : Entry} (h : e.deleted = true) : e.label = none :=
  if_pos (Or.inl h)

theorem Entry.label_withLog (e : Entry) (log : List Action) :
    ({ e with log := log } : Entry).label = e.label := rfl

theorem label_entryNew (d : DocId) (sp : Option DocId) :
    ({ Entry.new d with space := sp } : Entry).label = none := if_pos (Or.inr rfl)

/-- The labels of a store's documents. -/
def Inner.label (s : Inner) (d : DocId) : Option String := s.entries[d]?.bind Entry.label

theorem Inner.label_of_some {s : Inner} {d : DocId} {e : Entry} (h : s.entries[d]? = some e) :
    s.label d = e.label := by
  unfold Inner.label
  rw [h]
  rfl

theorem Inner.label_eq_some {s : Inner} {d : DocId} {n : String} : s.label d = some n ↔
    ∃ e, s.entries[d]? = some e ∧ e.deleted = false ∧ e.doc.name = n ∧ n ≠ "" := by
  unfold Inner.label
  rw [Option.bind_eq_some_iff]
  exact exists_congr fun e => and_congr_right fun _ => Entry.label_eq_some

/-- The index of a store. -/
def Inner.index (s : Inner) (n : String) : Option DocId := s.names[n]?

/-- The index leads from the name of every live document to one that carries it, and from no other
    name. -/
def NamesIndexed (s : Inner) : Prop := Lib.Indexes s.index s.label

theorem index_insert (names : Std.ExtTreeMap String DocId) (n : String) (d : DocId) :
    (fun k => (names.insert n d)[k]?) = Function.update (fun k => names[k]?) n (some d) := by
  funext k
  rw [Std.ExtTreeMap.getElem?_insert]
  by_cases hk : k = n
  · subst hk
    simp
  · simp [Function.update_of_ne hk, Ne.symm hk]

theorem index_erase (names : Std.ExtTreeMap String DocId) (n : String) :
    (fun k => (names.erase n)[k]?) = Function.update (fun k => names[k]?) n none := by
  funext k
  rw [Std.ExtTreeMap.getElem?_erase]
  by_cases hk : k = n
  · subst hk
    simp
  · simp [Function.update_of_ne hk, Ne.symm hk]

variable [Primitives]

/-! ## What an action does to labels and index -/

/-- The entry an accepted action leaves, but for a snapshot of its log. -/
def Inner.left (s : Inner) (a : Action) : Entry :=
  match s.models.find a.model with
  | none => s.entryFor a.docId
  | some m => if s.refoldStuck a then appended (s.entryFor a.docId) m a else s.settled a m

theorem left_of_stuck {s : Inner} {a : Action} {m : Model} (hacc : s.Accepted a m)
    (h : s.refoldStuck a = true) : s.left a = appended (s.entryFor a.docId) m a := by
  unfold Inner.left
  rw [hacc.model, h]
  rfl

theorem left_of_settled {s : Inner} {a : Action} {m : Model} (hacc : s.Accepted a m)
    (h : s.refoldStuck a = false) : s.left a = s.settled a m := by
  unfold Inner.left
  rw [hacc.model, h]
  rfl

/-- The labels after an entry is put in its place. -/
theorem label_put {s t : Inner} {d : DocId} {e : Entry} (hown : t.entries[d]? = some e)
    (hrest : ∀ d', d' ≠ d → t.entries[d']? = s.entries[d']?) :
    t.label = Function.update s.label d e.label := by
  funext d'
  by_cases hd : d' = d
  · rw [hd, Function.update_self, Inner.label_of_some hown]
  · rw [Function.update_of_ne hd]
    unfold Inner.label
    rw [hrest d' hd]

/-- **The labels after an accepted action**: its document has that of the entry it leaves. -/
theorem label_accept {s : Inner} {a : Action} (hacc : s.accepts a = true) (io : Io) :
    (s.applyAction io a).1.label = Function.update s.label a.docId (s.left a).label := by
  obtain ⟨m, hacc⟩ := Inner.accepts_iff.mp hacc
  have hrest : ∀ d', d' ≠ a.docId → (s.applyAction io a).1.entries[d']? = s.entries[d']? :=
    fun d' hd => congrArg View.entry (view_applyAction_ne s io hd)
  cases hstuck : s.refoldStuck a with
  | true =>
    obtain ⟨msg, heq⟩ := Inner.applyAction_stuck hacc hstuck io
    rw [left_of_stuck hacc hstuck]
    exact label_put (by rw [heq]; simp [Inner.putEntry]) hrest
  | false =>
    rw [left_of_settled hacc hstuck]
    obtain ⟨log, hentry⟩ := View.entry_finish
      (show View.entry { s.view a.docId with entry := some (s.settled a m) } = _ from rfl) io a
    rw [← view_applyAction_settled hacc hstuck io] at hentry
    rw [← Entry.label_withLog (s.settled a m) log]
    exact label_put (show (s.applyAction io a).1.entries[a.docId]? = _ from hentry) hrest

/-- Step 7 on the index itself. -/
def indexed (names : Std.ExtTreeMap String DocId) (id : DocId) (e : Entry) :
    Std.ExtTreeMap String DocId :=
  if e.deleted then
    if e.doc.name ≠ "" ∧ names[e.doc.name]? = some id then names.erase e.doc.name else names
  else if e.doc.name ≠ "" then names.insert e.doc.name id
  else names

theorem names_indexName {s : Inner} {id : DocId} {e : Entry} (he : s.entries[id]? = some e) :
    (s.indexName id).names = indexed s.names id e := by
  unfold Inner.indexName indexed
  rw [he]
  dsimp only
  repeat' split
  all_goals rfl

theorem names_emitChange (s : Inner) (id : DocId) (ts : U64) (a : Option Action) :
    (s.emitChange id ts a).names = s.names := by
  unfold Inner.emitChange
  split <;> rfl

/-- **The index after an accepted action**: step 7, if it is reached. -/
theorem names_accept {s : Inner} {a : Action} (hacc : s.accepts a = true) (io : Io) :
    (s.applyAction io a).1.names =
      if s.Finishes io a then indexed s.names a.docId (s.left a) else s.names := by
  obtain ⟨m, hacc⟩ := Inner.accepts_iff.mp hacc
  cases hstuck : s.refoldStuck a with
  | true =>
    obtain ⟨msg, heq⟩ := Inner.applyAction_stuck hacc hstuck io
    have hno : ¬ s.Finishes io a := by
      intro hfin
      have := hfin.1
      rw [hstuck] at this
      cases this
    rw [heq, if_neg hno]
    rfl
  | false =>
    rw [Inner.applyAction_settled hacc hstuck, left_of_settled hacc hstuck]
    rcases Inner.finishApply_cases (s.putEntry a.docId (s.settled a m)) io a
      (changes s.models (s.entryFor a.docId) a) (appended (s.entryFor a.docId) m a).deleted with
      ⟨⟨msg, heq⟩, hno⟩ | ⟨hok, heq⟩
    · rw [heq, if_neg fun hfin => hno ((recorded_settled io _).mpr hfin.2)]
      exact (recorded_frame _ io a _).1
    · -- the snapshot clears the log at most, which step 7 does not look at
      obtain ⟨log, hentry⟩ := View.entry_finish
        (show View.entry { s.view a.docId with entry := some (s.settled a m) } = _ from rfl) io a
      have hview := Inner.view_recorded (s.putEntry a.docId (s.settled a m)) io a
        (changes s.models (s.entryFor a.docId) a) a.docId
      rw [if_pos rfl, Inner.view_putEntry, if_pos rfl] at hview
      rw [← hview] at hentry
      have hindex := names_indexName (show
        ((s.putEntry a.docId (s.settled a m)).recorded io a
          (changes s.models (s.entryFor a.docId) a)).1.entries[a.docId]? = _ from hentry)
      have hfin : s.Finishes io a := ⟨hstuck, (recorded_settled io _).mp hok⟩
      rw [(recorded_frame _ io a _).1] at hindex
      rw [heq, if_pos hfin]
      dsimp only
      split
      · rw [names_emitChange]
        exact hindex
      · exact hindex

/-! ## What keeps the index right -/

/-- The action leaves the index right.  When step 7 is reached: if the index leads to the action's
    document, that keeps its name, and if it is deleted then no other live document carries the
    name.  When step 7 is not reached: the label stays. -/
def Inner.KeepsIndex (s : Inner) (io : Io) (a : Action) : Prop :=
  if s.Finishes io a then
    ∀ n, s.names[n]? = some a.docId → (s.left a).doc.name = n ∧
      ((s.left a).deleted = true → ∀ d e, s.entries[d]? = some e → e.deleted = false →
        e.doc.name = n → d = a.docId)
  else (s.left a).label = (s.entryFor a.docId).label

/-- A step of a lifetime that leaves the index right. -/
def Indexing (s : Inner) (_ : List Action) : Happening → Prop
  | .event (.applyAction io a) => s.accepts a = true → s.KeepsIndex io a
  | .event (.bindName name id) => s.label id = some name
  | .event (.adoptState st) =>
    (adopted (s.entryFor st.doc.id) st).label = (s.entryFor st.doc.id).label
  | .event _ => True
  | .reopen extra => ∀ d, s.disk.alog[d]?.isSome = true →
      ((s.withModels (loadedModels extra)).replayed d).deleted = true →
      ((s.withModels (loadedModels extra)).replayed d).doc.name = ""

theorem label_entryFor (s : Inner) (d : DocId) : (s.entryFor d).label = s.label d := by
  unfold Inner.label
  cases he : s.entries[d]? with
  | none => rw [entryFor_of_none he]; exact label_entryNew d none
  | some e => rw [entryFor_eq he]; rfl

/-- Step 7, on the index as a function. -/
theorem indexes_indexed {s : Inner} (h : NamesIndexed s) {d : DocId} {e : Entry}
    (hkeep : ∀ n, s.names[n]? = some d → e.doc.name = n ∧
      (e.deleted = true → ∀ d' e', s.entries[d']? = some e' → e'.deleted = false →
        e'.doc.name = n → d' = d)) :
    Lib.Indexes (fun n => (indexed s.names d e)[n]?) (Function.update s.label d e.label) := by
  -- the index leads from no empty name
  have hne : ∀ n, s.index n = some d → n ≠ "" := fun n hn =>
    (Inner.label_eq_some.mp (h.sound n d hn)).choose_spec.2.2.2
  unfold indexed
  cases hdel : e.deleted with
  | true =>
    rw [if_pos rfl, Entry.label_of_deleted hdel]
    by_cases hown : e.doc.name ≠ "" ∧ s.names[e.doc.name]? = some d
    · rw [if_pos hown, index_erase]
      refine Lib.Indexes.erase h hown.2 fun d' hd' => ?_
      obtain ⟨e', he', hlive, hname, -⟩ := Inner.label_eq_some.mp hd'
      exact (hkeep _ hown.2).2 hdel d' e' he' hlive hname
    · rw [if_neg hown]
      refine Lib.Indexes.drop h fun n hn => hown ?_
      obtain ⟨hname, -⟩ := hkeep n hn
      rw [hname]
      exact ⟨hne n hn, hn⟩
  | false =>
    rw [if_neg Bool.false_ne_true]
    by_cases hname : e.doc.name = ""
    · rw [if_neg (not_not_intro hname), show e.label = none from if_pos (Or.inr hname)]
      refine Lib.Indexes.drop h fun n hn => ?_
      exact hne n hn ((hkeep n hn).1.symm.trans hname)
    · rw [if_pos hname, index_insert,
        show e.label = some e.doc.name from Entry.label_eq_some.mpr ⟨hdel, rfl, hname⟩]
      exact Lib.Indexes.put h fun n hn => (hkeep n hn).1.symm

/-- The index stays right while names and labels stay. -/
theorem NamesIndexed.congr {s t : Inner} (h : NamesIndexed s) (hnames : t.names = s.names)
    (hlabel : t.label = s.label) : NamesIndexed t := by
  unfold NamesIndexed
  rw [hlabel, show t.index = s.index from by unfold Inner.index; rw [hnames]]
  exact h

theorem label_of_view {s t : Inner} (h : ∀ d, (t.view d).entry = (s.view d).entry) :
    t.label = s.label := by
  funext d
  unfold Inner.label
  rw [show t.entries[d]? = s.entries[d]? from h d]

/-- A label that is put back changes nothing. -/
theorem update_label (s : Inner) (d : DocId) :
    Function.update s.label d (s.entryFor d).label = s.label := by
  rw [label_entryFor]
  exact Function.update_eq_self d s.label

/-- **Step lemma**: an action keeps the index right. -/
theorem namesIndexed_applyAction {s : Inner} (h : NamesIndexed s) {io : Io} {a : Action}
    (hkeep : s.accepts a = true → s.KeepsIndex io a) :
    NamesIndexed (s.exec (.applyAction io a)) := by
  cases hacc : s.accepts a with
  | true =>
    have hlabel := label_accept hacc io
    have hnames := names_accept hacc io
    have hkeep := hkeep hacc
    unfold Inner.KeepsIndex at hkeep
    by_cases hfin : s.Finishes io a
    · rw [if_pos hfin] at hkeep hnames
      have hindex := indexes_indexed h hkeep
      unfold NamesIndexed
      rw [show (s.exec (.applyAction io a)).label = _ from hlabel]
      unfold Inner.index
      rw [show (s.exec (.applyAction io a)).names = _ from hnames]
      exact hindex
    · rw [if_neg hfin] at hkeep hnames
      rw [hkeep, update_label] at hlabel
      exact h.congr hnames hlabel
  | false =>
    obtain ⟨msg, ⟨heq, -⟩ | ⟨heq, -, hnone⟩⟩ := Inner.applyAction_refused hacc io
    · have hstep : s.exec (.applyAction io a) = { s with quarantined := s.quarantined + 1 } := by
        show (s.applyAction io a).1 = _
        rw [heq]
      rw [hstep]
      exact h
    · -- the blank entry has no name
      have hstep : s.exec (.applyAction io a) =
          { s.putEntry a.docId (Entry.new a.docId) with quarantined := s.quarantined + 1 } := by
        show (s.applyAction io a).1 = _
        rw [heq]
      rw [hstep]
      refine h.congr rfl ?_
      rw [← update_label s a.docId, entryFor_of_none hnone]
      refine label_put (by simp [Inner.putEntry]) fun d' hd => ?_
      show (s.entries.insert a.docId (Entry.new a.docId))[d']? = _
      simp [Std.ExtTreeMap.getElem?_insert, Ne.symm hd]

/-- **Step lemma**: an event keeps the index right. -/
theorem namesIndexed_exec {s : Inner} {acc : List Action} (h : NamesIndexed s) {ev : Event}
    (hen : ev.Enabled s) (hP : Indexing s acc (.event ev)) : NamesIndexed (s.exec ev) := by
  cases ev with
  | applyAction io a => exact namesIndexed_applyAction h hP
  | newEntry id sp =>
    refine h.congr rfl ?_
    rw [← update_label s id, entryFor_of_none hen, show (Entry.new id).label = _ from
      (label_entryNew id sp).symm]
    refine label_put (s := s) (by simp [Inner.exec, Inner.putEntry]) fun d' hd => ?_
    show (s.entries.insert id { Entry.new id with space := sp })[d']? = _
    simp [Std.ExtTreeMap.getElem?_insert, Ne.symm hd]
  | bindName name id =>
    have hlabel : s.label id = some name := hP
    unfold NamesIndexed Inner.index
    show Lib.Indexes (fun n => (s.names.insert name id)[n]?) s.label
    rw [index_insert, ← Function.update_eq_self id s.label, hlabel]
    refine Lib.Indexes.put h fun n hn => ?_
    have hn := h.sound n id hn
    rw [hlabel] at hn
    exact (Option.some.inj hn).symm
  | snapshot io id =>
    refine h.congr ?_ (funext fun d => ?_)
    · show (s.snapshot io id).1.names = s.names
      unfold Inner.snapshot
      repeat' split
      all_goals rfl
    · show ((s.snapshot io id).1.view d).entry.bind Entry.label = s.label d
      rw [Inner.view_snapshot]
      split
      · obtain ⟨l, hl⟩ := (s.view d).entry_snapshot io
        rw [hl]
        unfold Inner.label
        show ((s.entries[d]?).map _).bind Entry.label = _
        cases s.entries[d]? <;> rfl
      · rfl
  | adoptState st =>
    have hlabel : (adopted (s.entryFor st.doc.id) st).label = (s.entryFor st.doc.id).label := hP
    refine h.congr (names_emitChange ..) ?_
    rw [← update_label s st.doc.id, ← hlabel]
    refine label_put ?_ fun d' hd => ?_
    · have hview := Inner.view_emitChange
        (s.putEntry st.doc.id (adopted (s.entryFor st.doc.id) st)) st.doc.id s.tsHint none st.doc.id
      exact (congrArg View.entry hview).trans (by simp [Inner.view, Inner.putEntry])
    · have hview := Inner.view_emitChange
        (s.putEntry st.doc.id (adopted (s.entryFor st.doc.id) st)) st.doc.id s.tsHint none d'
      rw [Inner.view_putEntry, if_neg hd] at hview
      exact congrArg View.entry hview
  | registerPeerKey o k =>
    refine h.congr ?_ (label_of_view fun d => congrArg View.entry (s.view_registerPeerKey o k d))
    show (Store.registerPeerKey s o k).1.names = _
    unfold Store.registerPeerKey
    repeat' split
    all_goals rfl
  | nextTs now => exact h
  | addModel m => exact h
  | subscribeChanges => exact h
  | drainOutbound => exact h
  | connectOutbound => exact h

/-- **Step lemma**: a reopening builds a right index, when no deleted document has a name. -/
theorem namesIndexed_reopen {s : Inner} {acc : List Action} {extra : List Model}
    (hP : Indexing s acc (.reopen extra)) : NamesIndexed (s.happen (.reopen extra)) := by
  generalize hr : s.withModels (loadedModels extra) = r at *
  have hdead : ∀ d, s.disk.alog[d]?.isSome = true → (r.replayed d).deleted = true →
      (r.replayed d).doc.name = "" := by
    rw [← hr]
    exact hP
  have hmodels : extra.foldl ModelRegistry.insert ModelRegistry.seededWithBuiltins = r.models := by
    rw [← hr]
    rfl
  have hdisk : s.disk = r.disk := by rw [← hr]; rfl
  obtain ⟨hentries, hnames⟩ := reopened_spec hmodels s.key s.origin
  rw [← hdisk] at hentries hnames
  have hkeys : ∀ d, d ∈ s.disk.alog.keys ↔ s.disk.alog[d]?.isSome = true := fun d =>
    Std.ExtTreeMap.mem_keys.trans Std.ExtTreeMap.mem_iff_isSome_getElem?
  constructor
  · intro n d hd
    have hmem := List.mem_of_getLast? ((hnames n).symm.trans hd)
    obtain ⟨hkey, hnamed⟩ := List.mem_filter.mp hmem
    unfold Inner.namedBy at hnamed
    rw [Bool.and_eq_true, Bool.not_eq_true', decide_eq_true_iff] at hnamed
    obtain ⟨hblank, hne, hname⟩ := hnamed
    refine Inner.label_eq_some.mpr ⟨r.replayed d, ?_, ?_, hname, hne⟩
    · exact (hentries d).trans (if_pos ⟨(hkeys d).mp hkey, hblank⟩)
    · by_contra hdel
      rw [Bool.not_eq_false] at hdel
      exact hne (hname.symm.trans (hdead d ((hkeys d).mp hkey) hdel))
  · intro d n hd
    obtain ⟨e, he, -, hname, hne⟩ := Inner.label_eq_some.mp hd
    rw [show (s.happen (.reopen extra)).entries[d]? = _ from hentries d] at he
    by_cases hkept : s.disk.alog[d]?.isSome = true ∧ (r.replayed d).blank = false
    · rw [if_pos hkept] at he
      rw [show (s.happen (.reopen extra)).index n = _ from hnames n, List.getLast?_isSome]
      refine List.ne_nil_of_mem (List.mem_filter.mpr ⟨(hkeys d).mpr hkept.1, ?_⟩)
      unfold Inner.namedBy
      rw [hkept.2, Option.some.inj he]
      exact decide_eq_true ⟨hne, hname⟩
    · rw [if_neg hkept] at he
      cases he

/-! ## Whole lifetimes -/

theorem namesIndexed_fresh (key : SigningKey) (origin : Origin) (extra : List Model) :
    NamesIndexed (Store.fresh key origin extra) := by
  have hkeys : (∅ : Std.ExtTreeMap DocId (List Action)).keys = [] := rfl
  have hnames : ∀ n, (Store.fresh key origin extra).index n = none := by
    intro n
    simp [Inner.index, Store.fresh, Store.openWithModels, Inner.replay, Store.emptyDisk, hkeys]
  constructor
  · intro n d hd
    rw [hnames n] at hd
    cases hd
  · intro d n hd
    obtain ⟨e, he, -⟩ := Inner.label_eq_some.mp hd
    rw [show (Store.fresh key origin extra).entries[d]? = none from
      congrArg View.entry (Store.fresh_view key origin extra d)] at he
    cases he

/-- **Run lemma**: the index is right in every state of a lifetime that meets the condition. -/
theorem namesIndexed_lifetime {key : SigningKey} {origin : Origin} {extra : List Model} {s : Inner}
    {acc : List Action} (h : Lifetime Indexing (Store.fresh key origin extra) s acc) :
    NamesIndexed s := by
  induction h with
  | start => exact namesIndexed_fresh key origin extra
  | step _ h hen hP ih =>
    cases h with
    | event ev => exact namesIndexed_exec ih hen hP
    | reopen extra => exact namesIndexed_reopen hP

/-- `n` is the name of a live document. -/
def LiveName (s : Inner) (n : String) : Prop :=
  ∃ (d : DocId) (e : Entry), s.entries[d]? = some e ∧ e.deleted = false ∧ e.doc.name = n

/-- `get` shows whatever the index leads to. -/
theorem isSome_get {s : Inner} (h : NamesIndexed s) (n : String) :
    (Store.get s n).isSome = true ↔ (s.index n).isSome = true := by
  unfold Store.get
  cases hd : s.names[n]? with
  | none =>
    rw [show s.index n = none from hd]
    rfl
  | some d =>
    obtain ⟨e, he, hlive, -⟩ := Inner.label_eq_some.mp (h.sound n d hd)
    rw [show s.index n = some d from hd, Option.bind_some, he]
    dsimp only
    rw [hlive]
    exact iff_of_true rfl rfl

/-- **The name index is exact.**  In every state of every lifetime that meets the condition: the
    index leads to live documents of the name, it has the name of every live document that has one,
    and `get` finds exactly the names of live documents. -/
theorem name_index_exact {key : SigningKey} {origin : Origin} {extra : List Model} {s : Inner}
    {acc : List Action} (h : Lifetime Indexing (Store.fresh key origin extra) s acc) :
    (∀ (n : String) (d : DocId), s.names[n]? = some d →
      ∃ e : Entry, s.entries[d]? = some e ∧ e.deleted = false ∧ e.doc.name = n) ∧
    (∀ (d : DocId) (e : Entry), s.entries[d]? = some e → e.deleted = false → e.doc.name ≠ "" →
      s.names.contains e.doc.name = true) ∧
    ∀ n, n ≠ "" → ((Store.get s n).isSome = true ↔ LiveName s n) := by
  have hindex := namesIndexed_lifetime h
  refine ⟨?_, ?_, ?_⟩
  · intro n d hd
    obtain ⟨e, he, hlive, hname, -⟩ := Inner.label_eq_some.mp (hindex.sound n d hd)
    exact ⟨e, he, hlive, hname⟩
  · intro d e he hlive hname
    rw [Std.ExtTreeMap.contains_eq_isSome_getElem?]
    exact hindex.complete d _ (Inner.label_eq_some.mpr ⟨e, he, hlive, rfl, hname⟩)
  · intro n hn
    rw [isSome_get hindex, hindex.isSome_iff]
    refine exists_congr fun d => ?_
    rw [Inner.label_eq_some]
    refine exists_congr fun e => ⟨?_, ?_⟩
    · rintro ⟨he, hlive, hname, -⟩
      exact ⟨he, hlive, hname⟩
    · rintro ⟨he, hlive, hname⟩
      exact ⟨he, hlive, hname, hn⟩

end

section

open Sample

attribute [local instance] Sample.primitives

/-! ### A rename -/

/-- Alice creates her notes, gives them a title, and renames them. -/
def namesNotes : Action :=
  act alice "open" "create" (Store.setPayload nameKey (.string "notes")) 10 [("alice", 1)] none

def titlesNotes : Action :=
  act alice "open" "set" (Store.setPayload "title" (.string "plan")) 20 [("alice", 2)] none

def renamesNotes : Action :=
  act alice "open" "set" (Store.setPayload nameKey (.string "agenda")) 30 [("alice", 3)] none

/-- Alice's store with her notes. -/
def namedStore : Inner :=
  (Store.fresh alice.key alice.name []).happen (.event (.applyAction Io.ok namesNotes))

/-- **A rename leaves the old name in the index**: there is no document `notes` any more, and `get`
    finds one. -/
theorem rename_leaves_old_name :
    ¬ ∀ (s : Inner) (acc : List Action),
      Lifetime (fun _ _ _ => True) (Store.fresh alice.key alice.name []) s acc →
      (∀ (n : String) (d : DocId), s.names[n]? = some d →
        ∃ e : Entry, s.entries[d]? = some e ∧ e.deleted = false ∧ e.doc.name = n) ∧
      (∀ (d : DocId) (e : Entry), s.entries[d]? = some e → e.deleted = false → e.doc.name ≠ "" →
        s.names.contains e.doc.name = true) ∧
      ∀ n, n ≠ "" → ((Store.get s n).isSome = true ↔ LiveName s n) := by
  intro h
  have hlife : Lifetime (fun _ _ _ => True) (Store.fresh alice.key alice.name [])
      (namedStore.happen (.event (.applyAction Io.ok renamesNotes))) _ :=
    (Lifetime.start.step (.event (.applyAction Io.ok namesNotes)) trivial trivial).step
      (.event (.applyAction Io.ok renamesNotes)) trivial trivial
  have hfacts : (namedStore.happen (.event (.applyAction Io.ok renamesNotes))).names["notes"]? =
        some docId ∧
      ((namedStore.happen (.event (.applyAction Io.ok renamesNotes))).entries[docId]?.map fun e =>
        e.doc.name) = some "agenda" := by
    decide +kernel
  obtain ⟨hnames, hname⟩ := hfacts
  obtain ⟨e, he, -, hold⟩ := (h _ _ hlife).1 "notes" docId hnames
  rw [he, Option.map_some, hold] at hname
  exact absurd hname (by decide)

/-- A title leaves the name alone. -/
theorem name_index_exact_titled :
    (Store.get (namedStore.happen (.event (.applyAction Io.ok titlesNotes))) "notes").isSome =
        true ∧
      LiveName (namedStore.happen (.event (.applyAction Io.ok titlesNotes))) "notes" := by
  have hfacts : (Store.fresh alice.key alice.name []).Finishes Io.ok namesNotes ∧
      namedStore.Finishes Io.ok titlesNotes ∧
      (namedStore.left titlesNotes).doc.name = "notes" ∧
      (namedStore.left titlesNotes).deleted = false ∧
      namedStore.names.toList = [("notes", docId)] ∧
      (Store.get (namedStore.happen (.event (.applyAction Io.ok titlesNotes))) "notes").isSome =
        true := by
    decide +kernel
  obtain ⟨hfin, hfin', hname, hlive, hnames, hget⟩ := hfacts
  have hcreate : Indexing (Store.fresh alice.key alice.name []) []
      (.event (.applyAction Io.ok namesNotes)) := by
    intro _
    unfold Inner.KeepsIndex
    rw [if_pos hfin]
    intro n hn
    exact absurd (((namesIndexed_fresh alice.key alice.name []).sound n _ hn)) (by
      rw [show (Store.fresh alice.key alice.name []).label namesNotes.docId = none from by
        unfold Inner.label
        rw [show (Store.fresh alice.key alice.name []).entries[namesNotes.docId]? = none from
          congrArg View.entry (Store.fresh_view ..)]
        rfl]
      exact fun h => by cases h)
  have htitle : ∀ acc, Indexing namedStore acc (.event (.applyAction Io.ok titlesNotes)) := by
    intro acc _
    unfold Inner.KeepsIndex
    rw [if_pos hfin']
    intro n hn
    have hmem := Lib.mem_toList.mpr hn
    rw [hnames] at hmem
    obtain ⟨rfl, -⟩ := Prod.mk.inj (List.mem_singleton.mp hmem)
    exact ⟨hname, fun hdel => by rw [hlive] at hdel; cases hdel⟩
  have hlife := (Lifetime.start.step (.event (.applyAction Io.ok namesNotes)) trivial hcreate).step
    (.event (.applyAction Io.ok titlesNotes)) trivial (htitle _)
  exact ⟨hget, ((name_index_exact hlife).2.2 "notes" (by decide)).mp hget⟩

end

end PhReactor
