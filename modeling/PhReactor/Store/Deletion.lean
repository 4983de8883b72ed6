/-
  Deleting a document is PERMANENT.

  The deleted flag is not a field of its own on disk: a re-fold recomputes it from the snapshot and
  the live log, a reopening from the snapshot and the WAL.  It stays up because a delete is a fact
  that lasts (`Store.Lasting`):

  1. A whole-document delete is an `open@1` action (`deletesDoc_iff`); `open@1` has no precondition,
     hence no fold passes it over, and nothing lowers the flag again.

  2. What is deleted has no fields, throughout (`cleared_applyOpsToEntry`).

  Hence `deletion_lasting`, and through a whole lifetime `deletion_is_permanent`.
-/
import PhReactor.Store.FieldMerge
import PhReactor.Store.Lasting

set_option linter.unusedSectionVars false

namespace PhReactor

section

/-! ## What is deleted has no fields -/

theorem liftName_of_fields_empty {d : Doc} (h : d.fields = ∅) : liftName d = d := by
  unfold liftName
  rw [h]
  rfl

theorem cleared_applyOpsToEntry {e : Entry} (h : e.cell.Cleared) (m : Model) (a : Action) :
    (applyOpsToEntry e m a).1.cell.Cleared := by
  cases hr : m.reduce e.doc a with
  | error r => rw [applyOpsToEntry_error hr]; exact h
  | ok ops =>
    rw [applyOpsToEntry_ok hr]
    intro hdel
    have hempty := cleared_runOps (ops.map (stampOp a)) h hdel
    show (liftName (runOps e.cell (ops.map (stampOp a))).doc).fields = ∅
    rw [liftName_of_fields_empty hempty, hempty]

/-! ## Whole-document deletes -/

/-- An `open@1` action whose payload names no field. -/
def Action.deletesDoc (a : Action) : Bool :=
  decide (a.model = openRef) && (Open.op a).key.isNone

/-- `open@1`, and no other reference, is the built-in model. -/
structure ModelRegistry.OpenStays (r : ModelRegistry) : Prop where
  found : r.find openRef = some .open
  only : ∀ ref, r.find ref = some .open → ref = openRef

/-- Loading the model does not replace the built-in `open@1`. -/
def Model.KeepsOpen (m : Model) : Prop :=
  m.ref_.name = "open" → m.ref_.version = "1" → m = .open

theorem openStays_insert_open {r : ModelRegistry}
    (h : ∀ ref, r.find ref = some .open → ref = openRef) : (r.insert .open).OpenStays := by
  constructor
  · rw [ModelRegistry.find_insert]
    rfl
  · intro ref hfind
    rw [ModelRegistry.find_insert] at hfind
    by_cases hsame : Model.open.ref_.name = ref.name ∧ Model.open.ref_.version = ref.version
    · rw [if_pos hsame] at hfind
      by_cases hhash : ref.hash = none ∨ Model.open.ref_.hash = ref.hash
      · obtain ⟨name, version, hash⟩ := ref
        obtain ⟨rfl, rfl⟩ : "open" = name ∧ "1" = version := hsame
        obtain rfl : hash = none := hhash.elim id Eq.symm
        rfl
      · rw [if_neg hhash] at hfind
        exact nomatch hfind
    · rw [if_neg hsame] at hfind
      exact h ref hfind

theorem ModelRegistry.OpenStays.insert {r : ModelRegistry} (h : r.OpenStays) {m : Model}
    (hm : m.KeepsOpen) : (r.insert m).OpenStays := by
  by_cases hopen : m = .open
  · rw [hopen]
    exact openStays_insert_open h.only
  · constructor
    · rw [ModelRegistry.find_insert, if_neg]
      · exact h.found
      · exact fun hsame => hopen (hm hsame.1 hsame.2)
    · intro ref hfind
      rw [ModelRegistry.find_insert] at hfind
      split at hfind
      · split at hfind
        · exact absurd (Option.some.inj hfind) hopen
        · exact nomatch hfind
      · exact h.only ref hfind

theorem ModelRegistry.OpenStays.foldl_insert : ∀ (l : List Model) {r : ModelRegistry},
    r.OpenStays → (∀ m ∈ l, m.KeepsOpen) → (l.foldl ModelRegistry.insert r).OpenStays := by
  intro l
  induction l with
  | nil => exact fun h _ => h
  | cons m l ih =>
    intro r h hl
    exact ih (h.insert (hl m List.mem_cons_self)) fun m' hm' => hl m' (List.mem_cons_of_mem m hm')

/-- **A whole-document delete is an action of `open@1`.**  An interpreted model only writes fields,
    and no other reference resolves to the built-in model. -/
theorem deletesDoc_iff {r : ModelRegistry} (hr : r.OpenStays) {a : Action} {m : Model}
    (hm : r.find a.model = some m) {doc : Doc} {ops : List Op} (hops : m.reduce doc a = .ok ops) :
    (∃ op ∈ ops, op.key = none) ↔ a.deletesDoc = true := by
  unfold Action.deletesDoc
  rw [Bool.and_eq_true, decide_eq_true_iff, Option.isNone_iff_eq_none]
  cases m with
  | «open» =>
    obtain rfl : [Open.op a] = ops := Except.ok.inj hops
    rw [hr.only a.model hm]
    simp
  | l1 m =>
    constructor
    · rintro ⟨op, hop, hnone⟩
      obtain ⟨field, v, rfl⟩ := L1.mem_reduce hops op hop
      exact nomatch hnone
    · rintro ⟨href, -⟩
      rw [href, hr.found] at hm
      exact nomatch hm

theorem ModelRegistry.OpenStays.find_of_deletesDoc {r : ModelRegistry} (hr : r.OpenStays)
    {a : Action} (ha : a.deletesDoc = true) : r.find a.model = some .open := by
  unfold Action.deletesDoc at ha
  rw [Bool.and_eq_true, decide_eq_true_iff] at ha
  rw [ha.1]
  exact hr.found

/-- A delete raises the flag, from any entry. -/
theorem deleted_of_deletesDoc {r : ModelRegistry} (hr : r.OpenStays) {a : Action}
    (ha : a.deletesDoc = true) (e : Entry) : (applyOpsToEntry e .open a).1.deleted = true := by
  have hops : Model.open.reduce e.doc a = .ok [Open.op a] := rfl
  obtain ⟨op, hop, hnone⟩ := (deletesDoc_iff hr (hr.find_of_deletesDoc ha) hops).mpr ha
  rw [deleted_applyOpsToEntry_ok hops, Bool.or_eq_true, List.any_eq_true]
  exact Or.inr ⟨op, hop, Option.isNone_iff_eq_none.mpr hnone⟩

/-- No action lowers the flag. -/
theorem deleted_applyOpsToEntry_mono {e : Entry} (h : e.deleted = true) (m : Model) (a : Action) :
    (applyOpsToEntry e m a).1.deleted = true := by
  cases hr : m.reduce e.doc a with
  | error r => rw [applyOpsToEntry_error hr]; exact h
  | ok ops => rw [deleted_applyOpsToEntry_ok hr, h, Bool.true_or]

variable [Primitives]

theorem openStays_loadedModels {extra : List Model} (h : ∀ m ∈ extra, m.KeepsOpen) :
    (loadedModels extra).OpenStays := by
  refine ModelRegistry.OpenStays.foldl_insert extra ?_ h
  refine ModelRegistry.OpenStays.foldl_insert _ (openStays_insert_open ?_) ?_
  · intro ref hfind
    exact nomatch hfind
  · intro m hm hname
    simp only [List.mem_cons, List.not_mem_nil, or_false] at hm
    rcases hm with rfl | rfl | rfl | rfl | rfl | rfl
    · exact absurd (show "group" = "open" from hname) (by decide)
    · exact absurd (show "package" = "open" from hname) (by decide)
    · exact absurd (show "release" = "open" from hname) (by decide)
    · exact absurd (show "space" = "open" from hname) (by decide)
    · exact absurd (show "chat" = "open" from hname) (by decide)
    · exact absurd (show "drive" = "open" from hname) (by decide)

/-! ## The fact -/

/-- A step of a lifetime with a working disk, in which no state is adopted and `open@1` stays. -/
def Durable (_ : Inner) (_ : List Action) : Happening → Prop
  | .event (.applyAction io _) => io.wal = true ∧ io.snap = .ok
  | .event (.snapshot io _) => io.snap = .ok
  | .event (.adoptState _) => False
  | .event (.addModel m) => m.KeepsOpen
  | .event _ => True
  | .reopen extra => ∀ m ∈ extra, m.KeepsOpen

/-- What is deleted has no fields; from a delete on the document is deleted. -/
def deletion : Fact where
  ok r _ := r.OpenStays
  marks := Action.deletesDoc
  safe doc del := del = true → doc.fields = ∅
  held _ del := del = true

/-- A delete counts, on a document that is not deleted. -/
theorem changes_of_deletesDoc {r : ModelRegistry} (hr : r.OpenStays) {a : Action}
    (ha : a.deletesDoc = true) {e : Entry} (he : e.deleted = false) : changes r e a = true := by
  have hkey : (Open.op a).key = none := by
    unfold Action.deletesDoc at ha
    rw [Bool.and_eq_true] at ha
    exact Option.isNone_iff_eq_none.mp ha.2
  unfold changes
  rw [hr.find_of_deletesDoc ha]
  simp [applyOpsToEntry, Model.reduce, Open.reduce, applyOps, applyOp, Entry.cell, stampOp, he,
    hkey]

theorem deletion_lasting : deletion.Lasting where
  new := fun d => ⟨fun h => (nomatch h), fun h => (nomatch h)⟩
  lift := by
    intro doc del d hs
    refine ⟨fun h => ?_, Iff.rfl⟩
    have hempty : ({ doc with id := d } : Doc).fields = ∅ := hs h
    rw [liftName_of_fields_empty hempty, hempty]
  keeps := fun {r a m e} _ _ hs =>
    ⟨cleared_applyOpsToEntry hs m a, fun h => deleted_applyOpsToEntry_mono h m a⟩
  found := fun {r a} hok hmark => ⟨_, ModelRegistry.OpenStays.find_of_deletesDoc hok hmark⟩
  brings := by
    intro r a m e hok hmark hm _
    -- `open@1` has neither precondition nor authorization
    obtain rfl : m = .open :=
      Option.some.inj (hm.symm.trans (ModelRegistry.OpenStays.find_of_deletesDoc hok hmark))
    exact ⟨deleted_of_deletesDoc hok hmark e, rfl, rfl⟩
  only := by
    intro r a m e hok hm _ hnot hheld
    have he : e.deleted = false := Bool.eq_false_iff.mpr hnot
    have hdoc : a.deletesDoc = true := by
      replace hheld : (applyOpsToEntry e m a).1.deleted = true := hheld
      cases hops : m.reduce e.doc a with
      | error r =>
        rw [applyOpsToEntry_error hops, he] at hheld
        exact nomatch hheld
      | ok ops =>
        rw [deleted_applyOpsToEntry_ok hops, he, Bool.false_or, List.any_eq_true] at hheld
        obtain ⟨op, hop, hnone⟩ := hheld
        exact (deletesDoc_iff hok hm hops).mp ⟨op, hop, Option.isNone_iff_eq_none.mp hnone⟩
    exact ⟨hdoc, changes_of_deletesDoc hok hdoc he⟩

/-! ## Whole lifetimes -/

theorem openStays_happen {s : Inner} {acc : List Action} {h : Happening} (hP : Durable s acc h)
    (hr : s.models.OpenStays) : (s.happen h).models.OpenStays := by
  cases h with
  | reopen extra =>
    rw [models_reopened]
    exact openStays_loadedModels hP
  | event ev =>
    by_cases hadd : ∃ m, ev = .addModel m
    · obtain ⟨m, rfl⟩ := hadd
      exact hr.insert hP
    · show (s.exec ev).models.OpenStays
      rw [s.models_exec ev fun m hm => hadd ⟨m, hm⟩]
      exact hr

theorem openStays_lifetime {key : SigningKey} {origin : Origin} {extra : List Model}
    (hextra : ∀ m ∈ extra, m.KeepsOpen) {s : Inner} {acc : List Action}
    (hlife : Lifetime Durable (Store.fresh key origin extra) s acc) : s.models.OpenStays := by
  induction hlife with
  | start =>
    rw [Store.fresh_models]
    exact openStays_loadedModels hextra
  | step hl h hen hP ih => exact openStays_happen hP ih

/-- A durable step lets deletions last. -/
theorem Durable.lasts {s : Inner} {acc : List Action} {h : Happening} (hP : Durable s acc h)
    (hr : s.models.OpenStays) (d : DocId) : deletion.Lasts d s h where
  accepts := by
    rintro io a m rfl - -
    exact ⟨hr, hP.1, hP.2⟩
  snapshot := by
    rintro io rfl
    exact hP
  noAdoption := by
    rintro st rfl
    exact hP.elim
  models := fun _ _ _ => openStays_happen hP hr

/-- **Deletion is permanent.**  Through every lifetime with a working disk, without adoptions and
    with `open@1` built in: in every state after a whole-document delete was accepted the document
    is deleted and has no fields. -/
theorem deletion_is_permanent {key : SigningKey} {origin : Origin} {extra : List Model}
    (hextra : ∀ m ∈ extra, m.KeepsOpen) {s : Inner} {acc : List Action}
    (hlife : Lifetime Durable (Store.fresh key origin extra) s acc) {a : Action} (ha : a ∈ acc)
    (hdel : a.deletesDoc = true) :
    ∃ e, s.entries[a.docId]? = some e ∧ e.deleted = true ∧ e.doc.fields = ∅ := by
  have hblank : ∀ e : Entry, e.blank = true → ¬ deletion.held e.doc e.deleted := by
    intro e hb hheld
    replace hheld : e.deleted = true := hheld
    unfold Entry.blank at hb
    rw [hheld] at hb
    simp at hb
  obtain ⟨hsafe, hheld⟩ := deletion_lasting.lifetime hblank hlife (d := a.docId)
    fun s acc h hl hP => hP.lasts (openStays_lifetime hextra hl) a.docId
  obtain ⟨e, he, hdeleted, -⟩ := (hheld ⟨a, ha, rfl, hdel⟩).entry
  exact ⟨e, he, hdeleted, (hsafe.entry e he).1 hdeleted⟩

end

section

open Sample

attribute [local instance] Sample.primitives

/-- Alice deletes the sample document; the delete sorts before a write that is already there. -/
def aliceDrops : Action := act alice "open" "delete" (.object []) 2 [("alice", 2)] none

/-- A write, the late delete, a write from before both, a snapshot, a reopening, one more write. -/
def droppedLife : List Happening :=
  [.event (.applyAction Io.ok (aliceSets "title" "minutes" 3)),
    .event (.applyAction Io.ok aliceDrops),
    .event (.applyAction Io.ok (aliceSets "title" "agenda" 1)),
    .event (.snapshot Io.ok docId), .reopen [],
    .event (.applyAction Io.ok (aliceSets "title" "notes" 9))]

theorem deletion_is_permanent_dropped :
    (((Store.fresh alice.key alice.name []).happenAll [] droppedLife).2 =
      [aliceSets "title" "minutes" 3, aliceDrops, aliceSets "title" "agenda" 1,
        aliceSets "title" "notes" 9] ∧ aliceDrops.deletesDoc = true) ∧
    ∃ e, ((Store.fresh alice.key alice.name []).happenAll [] droppedLife).1.entries[docId]? =
        some e ∧ e.deleted = true ∧ e.doc.fields = ∅ := by
  have hfacts : ((Store.fresh alice.key alice.name []).happenAll [] droppedLife).2 =
      [aliceSets "title" "minutes" 3, aliceDrops, aliceSets "title" "agenda" 1,
        aliceSets "title" "notes" 9] ∧ aliceDrops.deletesDoc = true := by
    decide +kernel
  have hstart : Lifetime Durable (Store.fresh alice.key alice.name []) _ [] := Lifetime.start
  have hlife := Lifetime.happenAll droppedLife hstart (by
      intro h hh s acc
      simp only [droppedLife, List.mem_cons, List.not_mem_nil, or_false] at hh
      rcases hh with rfl | rfl | rfl | rfl | rfl | rfl
      · exact ⟨trivial, rfl, rfl⟩
      · exact ⟨trivial, rfl, rfl⟩
      · exact ⟨trivial, rfl, rfl⟩
      · exact ⟨trivial, rfl⟩
      · exact ⟨trivial, fun m hm => absurd hm List.not_mem_nil⟩
      · exact ⟨trivial, rfl, rfl⟩)
  refine ⟨hfacts, deletion_is_permanent (a := aliceDrops) (fun m hm => absurd hm List.not_mem_nil)
    hlife ?_ hfacts.2⟩
  rw [hfacts.1]
  simp

end

end PhReactor
