/-
  The LIFETIME of a node's store: events under its lock, and reopenings on its files.

  A reopening forgets everything that is not on disk and replays the rest, so what holds through a
  whole lifetime is what the files carry.

  1. `Happening` is an event or a reopening, `Inner.happen` what it does, and `Lifetime P s₀ s acc`
     a sequence of them from `s₀` to `s`, each meeting `P`.  `acc` lists the actions ACCEPTED so far
     (those for which `applyAction` returned `Ok`) through all reopenings.

  2. `view_reopened` is what a reopening does to one document, `models_reopened` what it does to
     the registry, and `le_tsHint_reopened` where the timestamp mark stands afterwards.

  3. `lifted_lifetime`: in every state of every lifetime the reserved name field has been moved out
     of every field map.
-/
import PhReactor.Store.Restart

set_option linter.unusedSectionVars false

namespace PhReactor

variable [Primitives]

/-- The models a store starts with. -/
def loadedModels (extra : List Model) : ModelRegistry :=
  extra.foldl ModelRegistry.insert ModelRegistry.seededWithBuiltins

/-- What can happen to a node's store. -/
inductive Happening where
  | event (ev : Event)
  /-- The process ends, and the store is opened again on its files. -/
  | reopen (extra : List Model)

def Inner.happen (s : Inner) : Happening → Inner
  | .event ev => s.exec ev
  | .reopen extra => Store.openWithModels s.disk s.key s.origin extra

def Happening.Enabled (s : Inner) : Happening → Prop
  | .event ev => ev.Enabled s
  | .reopen _ => True

/-- The action that the store accepts in this step, if any. -/
def Happening.acceptedBy (s : Inner) : Happening → List Action
  | .event (.applyAction io a) => if (s.applyAction io a).2.isOk then [a] else []
  | _ => []

/-- A lifetime from `s₀` to `s` in which the actions `acc` were accepted. -/
inductive Lifetime (P : Inner → List Action → Happening → Prop) (s₀ : Inner) :
    Inner → List Action → Prop
  | start : Lifetime P s₀ s₀ []
  | step {s : Inner} {acc : List Action} (hl : Lifetime P s₀ s acc) (h : Happening)
    (hen : h.Enabled s) (hP : P s acc h) : Lifetime P s₀ (s.happen h) (acc ++ h.acceptedBy s)

/-- Happenings one after the other, with the actions accepted on the way. -/
def Inner.happenAll (s : Inner) (acc : List Action) : List Happening → Inner × List Action
  | [] => (s, acc)
  | h :: hs => (s.happen h).happenAll (acc ++ h.acceptedBy s) hs

/-- A list of happenings that are always enabled and meet the condition prolongs a lifetime. -/
theorem Lifetime.happenAll {P : Inner → List Action → Happening → Prop} {s₀ : Inner} :
    ∀ (hs : List Happening) {s : Inner} {acc : List Action}, Lifetime P s₀ s acc →
      (∀ h ∈ hs, ∀ s acc, h.Enabled s ∧ P s acc h) →
      Lifetime P s₀ (s.happenAll acc hs).1 (s.happenAll acc hs).2 := by
  intro hs
  induction hs with
  | nil => exact fun hl _ => hl
  | cons h hs ih =>
    intro s acc hl hall
    obtain ⟨hen, hP⟩ := hall h List.mem_cons_self s acc
    exact ih (hl.step h hen hP) fun h' hh' => hall h' (List.mem_cons_of_mem h hh')

theorem mem_acceptedBy {s : Inner} {h : Happening} {a : Action} (ha : a ∈ h.acceptedBy s) :
    ∃ io, h = .event (.applyAction io a) ∧ (s.applyAction io a).2.isOk = true := by
  cases h with
  | reopen extra => exact absurd ha List.not_mem_nil
  | event ev =>
    cases ev with
    | applyAction io b =>
      replace ha : a ∈ if (s.applyAction io b).2.isOk then [b] else [] := ha
      by_cases hok : (s.applyAction io b).2.isOk = true
      · rw [if_pos hok, List.mem_singleton] at ha
        subst ha
        exact ⟨io, rfl, hok⟩
      · rw [if_neg hok] at ha
        exact absurd ha List.not_mem_nil
    | _ => exact absurd ha List.not_mem_nil

/-! ## What a reopening does -/

/-- `s` as the replay of its files with the models `r` sees it. -/
def Inner.withModels (s : Inner) (r : ModelRegistry) : Inner := { s with models := r }

/-- The entry from which a replay of `d` starts: its snapshot, or a new one. -/
def Inner.replayBase (s : Inner) (d : DocId) : Entry :=
  let fresh :=
    match s.disk.snap[d]? with
    | some b => Entry.ofState b
    | none => Entry.new d
  { fresh with doc := liftName { fresh.doc with id := d } }

theorem replayed_eq_foldl (s : Inner) (d : DocId) :
    s.replayed d = (sortLog (s.disk.alog[d]?.getD [])).foldl s.replayStep (s.replayBase d) := rfl

theorem replayBase_of_some {s : Inner} {d : DocId} {st : DocState}
    (h : s.disk.snap[d]? = some st) : s.replayBase d =
      { Entry.ofState st with doc := liftName { st.doc with id := d } } := by
  unfold Inner.replayBase
  rw [h]
  rfl

theorem replayBase_of_none {s : Inner} {d : DocId} (h : s.disk.snap[d]? = none) :
    s.replayBase d = Entry.new d := by
  unfold Inner.replayBase
  rw [h]
  rfl

/-- The replay of some documents leaves files, identity, keys and models alone. -/
theorem foldl_replayDoc_frame : ∀ (ids : List DocId) (s : Inner),
    (ids.foldl (fun s id => s.replayDoc id) s).disk = s.disk ∧
      s.SameSetup (ids.foldl (fun s id => s.replayDoc id) s) := by
  intro ids
  induction ids with
  | nil => exact fun s => ⟨rfl, rfl, rfl, rfl, rfl⟩
  | cons id ids ih =>
    intro s
    rw [List.foldl_cons]
    obtain ⟨hdisk, hsetup⟩ := ih (s.replayDoc id)
    have hdoc : (s.replayDoc id).disk = s.disk ∧ s.SameSetup (s.replayDoc id) := by
      rw [replayDoc_eq]
      split <;> exact ⟨rfl, rfl, rfl, rfl, rfl⟩
    exact ⟨hdisk.trans hdoc.1, hdoc.2.trans hsetup⟩

theorem models_reopened (s : Inner) (extra : List Model) :
    (s.happen (.reopen extra)).models = loadedModels extra :=
  (foldl_replayDoc_frame _ _).2.models

/-- A store that is opened has its own identity, and knows its own key. -/
theorem identity_opened (disk : Disk) (key : SigningKey) (origin : Origin) (extra : List Model) :
    (Store.openWithModels disk key origin extra).key = key ∧
      (Store.openWithModels disk key origin extra).origin = origin ∧
      (Store.openWithModels disk key origin extra).knownKeys =
        (∅ : Std.ExtTreeMap Origin PublicKey).insert origin (Primitives.verifyingKey key) := by
  rw [openWithModels_eq]
  obtain ⟨-, hsetup⟩ :=
    foldl_replayDoc_frame disk.alog.keys (Store.opening disk key origin extra)
  exact ⟨hsetup.key, hsetup.origin, hsetup.knownKeys⟩

theorem disk_reopened (s : Inner) (extra : List Model) :
    (s.happen (.reopen extra)).disk.snap = s.disk.snap ∧
      (s.happen (.reopen extra)).disk.alog = s.disk.alog := by
  obtain ⟨hdisk, -⟩ :=
    foldl_replayDoc_frame s.disk.alog.keys (Store.opening s.disk s.key s.origin extra)
  show (Store.openWithModels s.disk s.key s.origin extra).disk.snap = _ ∧
    (Store.openWithModels s.disk s.key s.origin extra).disk.alog = _
  rw [openWithModels_eq]
  dsimp only
  rw [hdisk]
  exact ⟨rfl, rfl⟩

/-- **A reopening, on one document**: the files stay, the entry is replayed from them. -/
theorem view_reopened (s : Inner) (extra : List Model) (d : DocId) :
    (s.happen (.reopen extra)).view d =
      ⟨if s.disk.alog[d]?.isSome ∧ ((s.withModels (loadedModels extra)).replayed d).blank = false
        then some ((s.withModels (loadedModels extra)).replayed d) else none,
        s.disk.snap[d]?, s.disk.alog[d]?⟩ := by
  have hmodels : extra.foldl ModelRegistry.insert ModelRegistry.seededWithBuiltins =
      (s.withModels (loadedModels extra)).models := rfl
  have hentry := (reopened_spec hmodels s.key s.origin).1 d
  obtain ⟨hsnap, halog⟩ := disk_reopened s extra
  unfold Inner.view
  rw [hsnap, halog]
  exact congrArg (fun e => View.mk e s.disk.snap[d]? s.disk.alog[d]?) hentry

theorem le_foldl_max {x : U64} : ∀ (l : List U64) (b : U64), x ∈ l ∨ x ≤ b →
    x ≤ l.foldl max b := by
  intro l
  induction l with
  | nil =>
    rintro b (hx | hx)
    · exact absurd hx List.not_mem_nil
    · exact hx
  | cons y l ih =>
    rintro b (hx | hx)
    · apply ih
      rcases List.mem_cons.mp hx with rfl | hx
      · exact Or.inr (le_max_right _ _)
      · exact Or.inl hx
    · exact ih _ (Or.inr (hx.trans (le_max_left _ _)))

/-- The mark only rises over the documents, and reaches every action that is kept. -/
theorem le_tsHint_foldl_replayDoc : ∀ (ids : List DocId) (s : Inner),
    s.tsHint ≤ (ids.foldl (fun s id => s.replayDoc id) s).tsHint ∧
      ∀ d ∈ ids, ∀ a ∈ (s.replayed d).log,
        a.ts ≤ (ids.foldl (fun s id => s.replayDoc id) s).tsHint := by
  intro ids
  induction ids with
  | nil => exact fun s => ⟨le_rfl, fun d hd => absurd hd List.not_mem_nil⟩
  | cons id ids ih =>
    intro s
    rw [List.foldl_cons]
    obtain ⟨hrise, hkept⟩ := ih (s.replayDoc id)
    have hsame : ∀ d, (s.replayDoc id).replayed d = s.replayed d := by
      intro d
      refine replayed_congr ?_ ?_ d <;> rw [replayDoc_eq] <;> split <;> rfl
    have hdoc : s.tsHint ≤ (s.replayDoc id).tsHint ∧
        ∀ a ∈ (s.replayed id).log, a.ts ≤ (s.replayDoc id).tsHint := by
      rw [replayDoc_eq]
      by_cases hb : (s.replayed id).blank = true
      · -- a blank entry has no log
        rw [if_pos hb]
        refine ⟨le_rfl, fun a ha => ?_⟩
        unfold Entry.blank at hb
        have hnil : (s.replayed id).log.isEmpty = true := by
          simp only [Bool.and_eq_true] at hb
          exact hb.1.2
        rw [List.isEmpty_iff.mp hnil] at ha
        exact absurd ha List.not_mem_nil
      · rw [if_neg hb]
        refine ⟨le_max_left _ _, fun a ha => ?_⟩
        exact (le_foldl_max _ _ (Or.inl (List.mem_map_of_mem ha))).trans (le_max_right _ _)
    refine ⟨hdoc.1.trans hrise, fun d hd a ha => ?_⟩
    rcases List.mem_cons.mp hd with rfl | hd
    · exact (hdoc.2 a ha).trans hrise
    · exact hkept d hd a (by rw [hsame]; exact ha)

/-- **The mark after a reopening**: at least the persisted index and every action the replay
    keeps; and it is persisted. -/
theorem le_tsHint_reopened (s : Inner) (extra : List Model) :
    s.disk.index.getD 0 ≤ (s.happen (.reopen extra)).tsHint ∧
      (∀ (d : DocId), s.disk.alog[d]?.isSome = true →
        ∀ a ∈ ((s.withModels (loadedModels extra)).replayed d).log,
          a.ts ≤ (s.happen (.reopen extra)).tsHint) ∧
      (s.happen (.reopen extra)).disk.index = some (s.happen (.reopen extra)).tsHint := by
  obtain ⟨hrise, hkept⟩ := le_tsHint_foldl_replayDoc s.disk.alog.keys
    (Store.opening s.disk s.key s.origin extra)
  show _ ≤ (Store.openWithModels s.disk s.key s.origin extra).tsHint ∧ _
  rw [openWithModels_eq]
  refine ⟨(le_max_right _ _).trans hrise, fun d hd a ha => ?_, rfl⟩
  have hmem : d ∈ s.disk.alog.keys :=
    Std.ExtTreeMap.mem_keys.mpr (Std.ExtTreeMap.mem_iff_isSome_getElem?.mpr hd)
  have hsame : (Store.opening s.disk s.key s.origin extra).replayed d =
      (s.withModels (loadedModels extra)).replayed d := replayed_congr rfl rfl d
  refine hkept d hmem a ?_
  rw [hsame]
  exact ha

/-! ## Every entry has its name lifted -/

theorem lifted_appended {e : Entry} (h : Lifted e.doc) (m : Model) (a : Action) :
    Lifted (appended e m a).doc := by
  refine lifted_applyOpsToEntry (e := if e.log.isEmpty then { e with space := a.space } else e) ?_
    m a
  split <;> exact h

theorem lifted_settled {s : Inner} {a : Action} (m : Model)
    (h : Lifted (s.entryFor a.docId).doc) : Lifted (s.settled a m).doc := by
  unfold Inner.settled
  split
  · rw [(refolded_spec s a.docId _).1.doc]
    exact lifted_canonFold _ (lifted_liftName _) _
  · exact lifted_appended h m a

theorem lifted_foldl_replayStep (s : Inner) : ∀ (l : List Action) {e : Entry}, Lifted e.doc →
    Lifted (l.foldl s.replayStep e).doc := by
  intro l
  induction l with
  | nil => exact fun h => h
  | cons a l ih =>
    intro e h
    refine ih ?_
    cases hm : s.models.find a.model with
    | some m =>
      rw [(replayStep_spec hm e).1.doc]
      exact lifted_applyOpsToEntry h m a
    | none =>
      rw [(replayStep_missing hm e).1.doc]
      exact h

theorem lifted_happen {s : Inner} {h : Happening} (hen : h.Enabled s) {d : DocId}
    (hl : Lifted (s.entryFor d).doc) : Lifted ((s.happen h).entryFor d).doc := by
  -- it is enough to look at the entry the step leaves
  suffices hentry : ∀ e, ((s.happen h).view d).entry = some e → Lifted e.doc by
    cases he : (s.happen h).entries[d]? with
    | none => rw [entryFor_of_none he]; exact lifted_entryNew d
    | some e => rw [entryFor_eq he]; exact hentry e he
  cases h with
  | reopen extra =>
    intro e he
    rw [view_reopened] at he
    dsimp only at he
    split at he
    · rw [← Option.some.inj he, replayed_eq_foldl]
      exact lifted_foldl_replayStep _ _ (lifted_liftName _)
    · exact nomatch he
  | event ev =>
    have hold : ∀ e, (s.view d).entry = some e → Lifted e.doc := by
      intro e he
      rw [← entryFor_eq (show s.entries[d]? = some e from he)]
      exact hl
    have hstep := docStep_exec s ev hen d
    show ∀ e, ((s.exec ev).view d).entry = some e → Lifted e.doc
    generalize (s.exec ev).view d = v at hstep
    intro e he
    cases hstep with
    | stay _ => exact hold e he
    | created sp _ _ =>
      rw [← Option.some.inj he]
      exact lifted_entryNew d
    | @accepted io a m hd hacc =>
      subst hd
      obtain ⟨l, hentry⟩ :=
        View.entry_finish (v := { s.view a.docId with entry := some (s.settled a m) }) rfl io a
      rw [hentry] at he
      rw [← Option.some.inj he]
      exact lifted_settled m hl
    | @stuck io a m hd hacc hres =>
      subst hd
      rw [← Option.some.inj he]
      exact lifted_appended hl m a
    | snapshot io =>
      obtain ⟨l, hentry⟩ := (s.view d).entry_snapshot io
      rw [hentry] at he
      obtain ⟨e₀, he₀, rfl⟩ := Option.map_eq_some_iff.mp he
      exact hold e₀ he₀
    | adopted hd =>
      rw [← Option.some.inj he]
      exact lifted_liftName _

theorem lifted_lifetime {P : Inner → List Action → Happening → Prop} {key : SigningKey}
    {origin : Origin} {extra : List Model} {s : Inner} {acc : List Action}
    (h : Lifetime P (Store.fresh key origin extra) s acc) (d : DocId) :
    Lifted (s.entryFor d).doc := by
  induction h with
  | start =>
    rw [entryFor_of_none (congrArg View.entry (Store.fresh_view key origin extra d))]
    exact lifted_entryNew d
  | step hl h hen hP ih => exact lifted_happen hen ih

end PhReactor
