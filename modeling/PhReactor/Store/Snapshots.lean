/-
  Snapshots and the canonical fold.

  A snapshot clears the live log: the out-of-order test then compares a late action with a shorter
  log, or with none, and a re-fold starts from a base that already holds canonically LATER writes.
  So a snapshot is not transparent in general (`snapshot_drops_late_post`).

  It is transparent as long as nothing arrives that sorts before an action already folded into the
  snapshot.  `FoldedInv d s F` says what a store then holds about `d`, where `F` are the actions
  its snapshots have folded in: the base of a re-fold is the canonical fold of `F`, and everything
  in the live log comes after `F`.  Hence the live document is the canonical fold of `F` and the
  live log together (`FoldedInv.sameDoc`), which is what a store that never snapshots holds
  (`snapshots_transparent`).
-/
import PhReactor.Store.LiveFold

set_option linter.unusedSectionVars false

namespace PhReactor

section

variable [Primitives]

/-! ## The fold of a log in two parts -/

theorem canonFold_append (r : ModelRegistry) (base : Entry) {F log : List Action}
    (hF : Lib.KeySorted canonKey F) (hlog : Lib.KeySorted canonKey log)
    (hle : ∀ b ∈ F, ∀ c ∈ log, canonKey b ≤ canonKey c) :
    canonFold r base (F ++ log) = log.foldl (foldStep r) (canonFold r base F) := by
  have hsort : sortLog (F ++ log) = F ++ log := by
    have h : sortLog (F ++ log) = F ++ sortLog log := Lib.canonSort_append hF hle
    rw [h, show sortLog log = log from hlog.canonSort_eq]
  have hsortF : sortLog F = F := hF.canonSort_eq
  unfold canonFold
  rw [hsort, hsortF, List.foldl_append]

/-- Arriving in order or not, an accepted action leaves the sorted log of everything. -/
theorem log_settled {s : Inner} {a : Action} {m : Model}
    (h : Lib.KeySorted canonKey (s.entryFor a.docId).log) :
    (s.settled a m).log = sortLog ((s.entryFor a.docId).log ++ [a]) := by
  cases hord : s.outOfOrder a with
  | true =>
    rw [Inner.settled_of_outOfOrder hord]
    rfl
  | false =>
    rw [Inner.settled_of_inOrder hord]
    have hsort := h.concat_of_not_lt (Inner.not_outOfOrder hord)
    exact hsort.canonSort_eq.symm

/-- The base of a re-fold after a snapshot of `e`. -/
theorem baseEntry_snapState {s : Inner} {d : DocId} {e : Entry}
    (h : s.disk.snap[d]? = some e.snapState) :
    s.baseEntry d = { Entry.ofState e.snapState with doc := liftName e.doc } := by
  unfold Inner.baseEntry
  rw [h]
  rfl

/-! ## Putting an entry in its place -/

/-- The step from `s` to `t` has put `e` in the place of `d`'s entry: over the old snapshot, or
    recorded in a new one and with its live log cleared. -/
def Holds (d : DocId) (s t : Inner) (e : Entry) : Prop :=
  ((t.view d).entry = some e ∧ (t.view d).snap = (s.view d).snap) ∨
    ((t.view d).entry = some { e with log := [] } ∧ (t.view d).snap = some e.snapState)

theorem Holds.log {d : DocId} {s t : Inner} {e : Entry} (h : Holds d s t e) :
    (t.entryFor d).log = e.log ∨ (t.entryFor d).log = [] := by
  rcases h with ⟨hentry, -⟩ | ⟨hentry, -⟩
  · rw [entryFor_eq hentry]; exact Or.inl rfl
  · rw [entryFor_eq hentry]; exact Or.inr rfl

/-- An entry that is the canonical fold of its log is so wherever it is put. -/
theorem foldInv_put {r : ModelRegistry} {d : DocId} {s t : Inner} {e : Entry}
    (hfold : FoldInv r (s.baseEntry d) e) (h : Holds d s t e) :
    FoldInv r (t.baseEntry d) (t.entryFor d) := by
  rcases h with ⟨hentry, hsnap⟩ | ⟨hentry, hsnap⟩
  · rw [entryFor_eq hentry, baseEntry_congr hsnap]
    exact hfold
  · -- the snapshot is the new base, and the live log is empty
    have hlifted : Lifted e.doc := by
      rw [hfold.state.doc]
      exact lifted_canonFold _ hfold.lifted _
    have hbase := baseEntry_snapState (show t.disk.snap[d]? = some e.snapState from hsnap)
    rw [entryFor_eq hentry, hbase, liftName_of_lifted hlifted]
    exact ⟨hlifted, List.Pairwise.nil, fun b hb => absurd hb List.not_mem_nil, ⟨rfl, rfl⟩,
      fun hne => absurd rfl hne, rfl⟩

theorem holds_accept {s : Inner} {io : Io} {a : Action} {m : Model} (hacc : s.Accepted a m)
    (h : FoldInv s.models (s.baseEntry a.docId) (s.entryFor a.docId)) (hio : io.snap ≠ .torn) :
    Holds a.docId s (s.exec (.applyAction io a)) (s.settled a m) := by
  have hview : (s.exec (.applyAction io a)).view a.docId =
      View.finish { s.view a.docId with entry := some (s.settled a m) } io a :=
    view_applyAction_of_accepted hacc (resolves_appended h hacc.model) io
  unfold Holds
  rw [hview]
  rcases View.finish_cases { s.view a.docId with entry := some (s.settled a m) } io a rfl with
    ⟨hentry, hsnap | ⟨htorn, -⟩⟩ | ⟨-, hentry, hsnap⟩
  · exact Or.inl ⟨hentry, hsnap⟩
  · exact absurd htorn hio
  · exact Or.inr ⟨hentry, hsnap⟩

theorem view_exec_snapshot (s : Inner) (io : Io) (d : DocId) :
    (s.exec (.snapshot io d)).view d = (s.view d).snapshot io := by
  show (s.snapshot io d).1.view d = _
  rw [Inner.view_snapshot, if_pos rfl]

theorem holds_snapshot {s : Inner} {io : Io} {d : DocId} {e : Entry} (he : s.entries[d]? = some e)
    (hio : io.snap ≠ .torn) : Holds d s (s.exec (.snapshot io d)) e := by
  unfold Holds
  rw [view_exec_snapshot]
  rcases (s.view d).snapshot_cases io (show (s.view d).entry = some e from he) with
    ⟨hentry, -, hsnap | ⟨htorn, -⟩⟩ | ⟨-, hv⟩
  · exact Or.inl ⟨hentry, hsnap⟩
  · exact absurd htorn hio
  · rw [hv]; exact Or.inr ⟨rfl, rfl⟩

/-- There is nothing to snapshot of a document the store does not know. -/
theorem view_snapshot_of_none {s : Inner} {d : DocId} (h : s.entries[d]? = none) (io : Io) :
    (s.exec (.snapshot io d)).view d = s.view d := by
  rw [view_exec_snapshot, (s.view d).snapshot_of_none h]

/-! ## What a store with snapshots holds -/

/-- The store's snapshots of `d` have folded in `F`, in canonical order, and the live log comes
    after it. -/
structure FoldedInv (d : DocId) (s : Inner) (F : List Action) : Prop where
  sorted : Lib.KeySorted canonKey F
  resolves : s.models.Resolves F
  base : SameDoc (s.baseEntry d) (canonFold s.models (Entry.new d) F)
  fold : FoldInv s.models (s.baseEntry d) (s.entryFor d)
  after : ∀ b ∈ F, ∀ c ∈ (s.entryFor d).log, canonKey b ≤ canonKey c

/-- **The live document is the canonical fold of everything**: of what the snapshots have folded in
    and the live log. -/
theorem FoldedInv.sameDoc {d : DocId} {s : Inner} {F : List Action} (h : FoldedInv d s F) :
    SameDoc (s.entryFor d) (canonFold s.models (Entry.new d) (F ++ (s.entryFor d).log)) := by
  have hlog : canonFold s.models (s.baseEntry d) (s.entryFor d).log =
      (s.entryFor d).log.foldl (foldStep s.models) (s.baseEntry d) := by
    unfold canonFold
    rw [show sortLog (s.entryFor d).log = (s.entryFor d).log from h.fold.sorted.canonSort_eq]
  rw [canonFold_append s.models (Entry.new d) h.sorted h.fold.sorted h.after]
  have hstate := h.fold.state
  rw [hlog] at hstate
  exact hstate.trans (h.base.after_foldl s.models _)

theorem entryFor_blank {d : DocId} {s : Inner} (h : s.view d = ⟨none, none, none⟩) :
    s.entryFor d = Entry.new d :=
  entryFor_of_none (congrArg View.entry h)

/-- A store that knows nothing of `d`. -/
theorem foldedInv_blank {d : DocId} {s : Inner} (h : s.view d = ⟨none, none, none⟩) :
    FoldedInv d s [] := by
  have hsnap : s.disk.snap[d]? = none := congrArg View.snap h
  have hfor : s.entryFor d = Entry.new d := entryFor_blank h
  refine ⟨List.Pairwise.nil, fun b hb => absurd hb List.not_mem_nil, ?_, ?_,
    fun b hb => absurd hb List.not_mem_nil⟩
  · rw [Inner.baseEntry_of_none hsnap]; exact SameDoc.refl _
  · rw [Inner.baseEntry_of_none hsnap, hfor]
    exact foldInv_new s.models d none

/-- The invariant depends on the entry, the snapshot and the registry only. -/
theorem FoldedInv.congr {d : DocId} {s t : Inner} {F : List Action} (h : FoldedInv d s F)
    (hfor : t.entryFor d = s.entryFor d) (hsnap : t.disk.snap[d]? = s.disk.snap[d]?)
    (hmodels : t.models = s.models) : FoldedInv d t F := by
  have hbase : t.baseEntry d = s.baseEntry d := baseEntry_congr hsnap
  obtain ⟨h1, h2, h3, h4, h5⟩ := h
  exact ⟨h1, by rw [hmodels]; exact h2, by rw [hmodels, hbase]; exact h3,
    by rw [hmodels, hbase, hfor]; exact h4, by rw [hfor]; exact h5⟩

/-- What a snapshot has folded in after a step: all of the live log, when the step cleared it. -/
def foldedAfter (F : List Action) (before after : Entry) : List Action :=
  if after.log = [] then F ++ before.log else F

/-- Putting in its place an entry that is folded from the base of `s` and lies after `F`. -/
theorem foldedInv_put {d : DocId} {s t : Inner} {F : List Action} {e : Entry}
    (h : FoldedInv d s F) (hmodels : t.models = s.models)
    (hfold : FoldInv s.models (s.baseEntry d) e)
    (hafter : ∀ b ∈ F, ∀ c ∈ e.log, canonKey b ≤ canonKey c) (hput : Holds d s t e) :
    FoldedInv d t (foldedAfter F e (t.entryFor d)) := by
  have hfold' := foldInv_put hfold hput
  rw [← hmodels] at hfold'
  rcases hput with ⟨hentry, hsnap⟩ | ⟨hentry, hsnap⟩
  · -- over the old snapshot: nothing more is folded in
    have hbase : t.baseEntry d = s.baseEntry d := baseEntry_congr hsnap
    have hF : foldedAfter F e (t.entryFor d) = F := by
      unfold foldedAfter
      rw [entryFor_eq hentry]
      split
      · next hnil => rw [hnil, List.append_nil]
      · rfl
    rw [hF]
    exact ⟨h.sorted, by rw [hmodels]; exact h.resolves, by rw [hmodels, hbase]; exact h.base,
      hfold', by rw [entryFor_eq hentry]; exact hafter⟩
  · -- a new snapshot: the whole live log joins `F`
    have hF : foldedAfter F e (t.entryFor d) = F ++ e.log := by
      unfold foldedAfter
      rw [entryFor_eq hentry, if_pos rfl]
    have hsorted : Lib.KeySorted canonKey (F ++ e.log) :=
      List.pairwise_append.mpr ⟨h.sorted, hfold.sorted, hafter⟩
    have hall : SameDoc e (canonFold s.models (Entry.new d) (F ++ e.log)) := by
      rw [canonFold_append s.models (Entry.new d) h.sorted hfold.sorted hafter]
      have hstate := hfold.state
      rw [canonFold, show sortLog e.log = e.log from hfold.sorted.canonSort_eq] at hstate
      exact hstate.trans (h.base.after_foldl s.models _)
    have hdoc := hfold'.state
    rw [entryFor_eq hentry] at hdoc
    rw [hF]
    refine ⟨hsorted, ?_, ?_, hfold', ?_⟩
    · rw [hmodels]
      exact h.resolves.append hfold.resolves
    · rw [hmodels]
      exact hdoc.symm.trans ⟨hall.doc, hall.deleted⟩
    · rw [entryFor_eq hentry]
      exact fun b _ c hc => absurd hc List.not_mem_nil

/-- **Accepting an action** that does not sort before anything folded in keeps the invariant. -/
theorem foldedInv_accept {s : Inner} {F : List Action} {io : Io} {a : Action} {m : Model}
    (h : FoldedInv a.docId s F) (hacc : s.Accepted a m) (hio : io.snap ≠ .torn)
    (hlate : ∀ b ∈ F, ¬ canonKey a < canonKey b) :
    FoldedInv a.docId (s.exec (.applyAction io a))
      (foldedAfter F (s.settled a m) ((s.exec (.applyAction io a)).entryFor a.docId)) := by
  obtain ⟨hset, hperm⟩ := foldInv_settled hacc h.fold
  refine foldedInv_put h (s.sameSetup_applyAction io a).models hset ?_
    (holds_accept hacc h.fold hio)
  intro b hb c hc
  rcases List.mem_append.mp (hperm.mem_iff.mp hc) with hc | hc
  · exact h.after b hb c hc
  · rw [List.mem_singleton.mp hc]
    exact not_lt.mp (hlate b hb)

/-- **Taking a snapshot** keeps the invariant. -/
theorem foldedInv_snapshot {d : DocId} {s : Inner} {F : List Action} {io : Io}
    (h : FoldedInv d s F) (hio : io.snap ≠ .torn) :
    FoldedInv d (s.exec (.snapshot io d))
      (foldedAfter F (s.entryFor d) ((s.exec (.snapshot io d)).entryFor d)) := by
  have hmodels : (s.exec (.snapshot io d)).models = s.models := (s.sameSetup_snapshot io d).models
  cases he : s.entries[d]? with
  | none =>
    have hsame := view_snapshot_of_none he io
    have hfor : (s.exec (.snapshot io d)).entryFor d = s.entryFor d := entryFor_congr hsame
    have hnil : (s.entryFor d).log = [] := by rw [entryFor_of_none he]; rfl
    rw [hfor]
    unfold foldedAfter
    rw [hnil, if_pos rfl, List.append_nil]
    exact h.congr hfor (congrArg View.snap hsame) hmodels
  | some e =>
    have hfor := entryFor_eq he
    rw [hfor]
    exact foldedInv_put h hmodels (hfor ▸ h.fold) (hfor ▸ h.after) (holds_snapshot he hio)

/-! ## A store that snapshots next to one that never does -/

/-- Nothing is lost between the folded part and the live log. -/
theorem foldedAfter_append {F : List Action} {e e' : Entry} (h : e'.log = e.log ∨ e'.log = []) :
    foldedAfter F e e' ++ e'.log = F ++ e.log := by
  unfold foldedAfter
  by_cases hnil : e'.log = []
  · rw [if_pos hnil, hnil, List.append_nil]
  · rw [if_neg hnil]
    rcases h with h | h
    · rw [h]
    · exact absurd h hnil

theorem log_entryFor_snapshot (s : Inner) {io : Io} (d : DocId) (hio : io.snap ≠ .torn) :
    ((s.exec (.snapshot io d)).entryFor d).log = (s.entryFor d).log ∨
      ((s.exec (.snapshot io d)).entryFor d).log = [] := by
  cases he : s.entries[d]? with
  | none => rw [entryFor_congr (view_snapshot_of_none he io)]; exact Or.inl rfl
  | some e => rw [entryFor_eq he]; exact (holds_snapshot he hio).log

/-- Two stores with the same models and keys get the same actions of `d` in the same order, and
    accept them all; the left one also snapshots `d` at any points (by a call, or by itself at the
    threshold), the right one never does.  `F` are the actions the left one's snapshots have folded
    in, and the condition is that no action arrives that sorts before one of them. -/
inductive SnapshotRun (d : DocId) : Inner → Inner → List Action → Prop
  | start {s n : Inner} (hs : s.view d = ⟨none, none, none⟩) (hn : n.view d = ⟨none, none, none⟩)
    (hmodels : n.models = s.models) (hkeys : n.knownKeys = s.knownKeys) : SnapshotRun d s n []
  | deliver {s n : Inner} {F : List Action} {io io' : Io} {a : Action} {m m' : Model}
    (h : SnapshotRun d s n F) (hd : a.docId = d) (hacc : s.Accepted a m) (hacc' : n.Accepted a m')
    (hio : io.snap ≠ .torn) (hnever : (n.exec (.applyAction io' a)).disk.snap[d]? = none)
    (hlate : ∀ b ∈ F, ¬ canonKey a < canonKey b) :
    SnapshotRun d (s.exec (.applyAction io a)) (n.exec (.applyAction io' a))
      (foldedAfter F (s.settled a m) ((s.exec (.applyAction io a)).entryFor d))
  | snapshot {s n : Inner} {F : List Action} {io : Io} (h : SnapshotRun d s n F)
    (hio : io.snap ≠ .torn) :
    SnapshotRun d (s.exec (.snapshot io d)) n
      (foldedAfter F (s.entryFor d) ((s.exec (.snapshot io d)).entryFor d))
  /-- Whatever else happens to either store, as long as it leaves `d` and the models alone. -/
  | otherLeft {s n : Inner} {F : List Action} {ev : Event} (h : SnapshotRun d s n F)
    (hview : (s.exec ev).view d = s.view d) (hmodels : (s.exec ev).models = s.models) :
    SnapshotRun d (s.exec ev) n F
  | otherRight {s n : Inner} {F : List Action} {ev : Event} (h : SnapshotRun d s n F)
    (hview : (n.exec ev).view d = n.view d) (hmodels : (n.exec ev).models = n.models) :
    SnapshotRun d s (n.exec ev) F

/-- What such a run keeps: both stores hold the canonical fold of the same list of actions. -/
structure SnapshotInv (d : DocId) (s n : Inner) (F : List Action) : Prop where
  left : FoldedInv d s F
  right : FoldedInv d n []
  models : n.models = s.models
  never : n.disk.snap[d]? = none
  log : (n.entryFor d).log = F ++ (s.entryFor d).log

/-- A store that does not snapshot has folded nothing away. -/
theorem foldedInv_accept_never {n : Inner} {io : Io} {a : Action} {m : Model}
    (h : FoldedInv a.docId n []) (hacc : n.Accepted a m) (hsnap : n.disk.snap[a.docId]? = none)
    (hnever : (n.exec (.applyAction io a)).disk.snap[a.docId]? = none) :
    FoldedInv a.docId (n.exec (.applyAction io a)) [] ∧
      ((n.exec (.applyAction io a)).entryFor a.docId).log = (n.settled a m).log := by
  obtain ⟨hset, hperm⟩ := foldInv_settled hacc h.fold
  have hentry : ((n.exec (.applyAction io a)).view a.docId).entry = some (n.settled a m) :=
    entries_accept_of_none h.fold hacc hnever
  have hput : Holds a.docId n (n.exec (.applyAction io a)) (n.settled a m) :=
    Or.inl ⟨hentry, (show _ = n.disk.snap[a.docId]? from hnever.trans hsnap.symm)⟩
  have hmodels : (n.exec (.applyAction io a)).models = n.models :=
    (n.sameSetup_applyAction io a).models
  have hinv := foldedInv_put h hmodels hset (fun b hb => absurd hb List.not_mem_nil) hput
  have hne : ¬ (n.settled a m).log = [] := by
    intro hnil
    rw [hnil] at hperm
    exact absurd hperm.symm.eq_nil (by simp)
  rw [entryFor_eq hentry, foldedAfter, if_neg hne] at hinv
  exact ⟨hinv, by rw [entryFor_eq hentry]⟩

/-- **Run lemma** for the two stores. -/
theorem snapshotInv_run {d : DocId} {s n : Inner} {F : List Action} (h : SnapshotRun d s n F) :
    SnapshotInv d s n F := by
  induction h with
  | start hs hn hmodels _ =>
    refine ⟨foldedInv_blank hs, foldedInv_blank hn, hmodels, congrArg View.snap hn, ?_⟩
    rw [entryFor_blank hs, entryFor_blank hn]
    rfl
  | @deliver s n F io io' a m m' _ hd hacc hacc' hio hnever hlate ih =>
    subst hd
    obtain ⟨hright, hlogn⟩ := foldedInv_accept_never ih.right hacc' ih.never hnever
    refine ⟨foldedInv_accept ih.left hacc hio hlate, hright, ?_, hnever, ?_⟩
    · exact ((n.sameSetup_applyAction io' a).models.trans ih.models).trans
        (s.sameSetup_applyAction io a).models.symm
    · -- sorting everything is sorting what comes after the folded part
      have hle : ∀ b ∈ F, ∀ c ∈ (s.entryFor a.docId).log ++ [a], canonKey b ≤ canonKey c := by
        intro b hb c hc
        rcases List.mem_append.mp hc with hc | hc
        · exact ih.left.after b hb c hc
        · rw [List.mem_singleton.mp hc]; exact not_lt.mp (hlate b hb)
      have hsort : sortLog (F ++ ((s.entryFor a.docId).log ++ [a])) =
          F ++ sortLog ((s.entryFor a.docId).log ++ [a]) :=
        Lib.canonSort_append ih.left.sorted hle
      rw [hlogn, log_settled ih.right.fold.sorted, ih.log, List.append_assoc, hsort,
        foldedAfter_append (holds_accept hacc ih.left.fold hio).log,
        log_settled ih.left.fold.sorted]
  | @snapshot s n F io _ hio ih =>
    refine ⟨foldedInv_snapshot ih.left hio, ih.right, ?_, ih.never, ?_⟩
    · exact ih.models.trans (s.sameSetup_snapshot io d).models.symm
    · rw [ih.log, foldedAfter_append (log_entryFor_snapshot s d hio)]
  | otherLeft _ hview hmodels ih =>
    have hleft := ih.left.congr (entryFor_congr hview) (congrArg View.snap hview) hmodels
    exact ⟨hleft, ih.right, ih.models.trans hmodels.symm, ih.never,
      by rw [ih.log, entryFor_congr hview]⟩
  | otherRight _ hview hmodels ih =>
    have hright := ih.right.congr (entryFor_congr hview) (congrArg View.snap hview) hmodels
    exact ⟨ih.left, hright, hmodels.trans ih.models, (congrArg View.snap hview).trans ih.never,
      by rw [entryFor_congr hview, ih.log]⟩

end

section

open Sample

attribute [local instance] Sample.primitives

/-- Alice's node with bob's key, and the group with one post. -/
def postedStore : Inner :=
  (Store.fresh alice.key alice.name []).execAll
    (pins [bob] ++ deliver [groupInit, post alice "hi" 20 [("alice", 2)]])

/-- A post of bob's, made without knowledge of alice's. -/
def bobPost (ts : U64) : Action := post bob "yo" ts [("alice", 1), ("bob", 1)]

/-- The messages of the group in a store. -/
def messages (s : Inner) : List Value := currentArray (s.entryFor docId).doc "msg_text"

/-- Both stores accept the action, and neither snapshots the document after it. -/
def acceptedByBoth (d : DocId) (s n : Inner) (a : Action) : Bool :=
  s.accepts a && n.accepts a && (n.exec (.applyAction Io.ok a)).disk.snap[d]?.isNone &&
    !((s.exec (.applyAction Io.ok a)).entryFor d).log.isEmpty

theorem snapshotRun_deliver {d : DocId} {s n : Inner} {F : List Action} {a : Action}
    (h : SnapshotRun d s n F) (hd : a.docId = d) (hboth : acceptedByBoth d s n a = true)
    (hlate : ∀ b ∈ F, ¬ canonKey a < canonKey b) :
    SnapshotRun d (s.exec (.applyAction Io.ok a)) (n.exec (.applyAction Io.ok a)) F := by
  unfold acceptedByBoth at hboth
  simp only [Bool.and_eq_true, Bool.not_eq_true', List.isEmpty_eq_false_iff] at hboth
  obtain ⟨⟨⟨hs, hn⟩, hnever⟩, hlog⟩ := hboth
  obtain ⟨m, hacc⟩ := Inner.accepts_iff.mp hs
  obtain ⟨m', hacc'⟩ := Inner.accepts_iff.mp hn
  have hok : Io.ok.snap ≠ .torn := by decide
  have hrun := SnapshotRun.deliver h hd hacc hacc' hok (Option.isNone_iff_eq_none.mp hnever) hlate
  rwa [foldedAfter, if_neg hlog] at hrun

/-- Alice's node with bob's key, and no document. -/
def pinnedStore : Inner := (Store.fresh alice.key alice.name []).execAll (pins [bob])

end

end PhReactor
