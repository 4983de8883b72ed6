/-
  The live log: in canonical order, and nothing is lost.

  An arrival is compared with the last action of the log only; one that sorts before it makes the
  store sort the whole log anew, and a restart sorts the WAL.

  1. `View.Ordered` is what is kept of one document: its log is sorted, and the models of the log
     and of the WAL are there.  A re-fold asks for the models, and a restart makes the log of the
     WAL, so the order alone would not be kept (`ordered_happen`).

  2. A step that is neither a restart nor a snapshot of the document keeps its log but for the
     action it accepts (`log_happen`); a snapshot, or an adopted state, empties it (`log_cut`).

  3. `live_log_canonical`: in a store whose registry finds the same all the time, every log is
     sorted, and holds the actions accepted since it was last emptied, each as often as it was
     accepted.
-/
import PhReactor.Store.Lifetime
import PhReactor.Store.Outcomes
import PhReactor.Store.Snapshots

set_option linter.unusedSectionVars false

namespace PhReactor

section

variable [Primitives]

/-! ## Steps -/

/-- Its file writes succeed. -/
def Happening.Written : Happening → Prop
  | .event (.applyAction io _) => io = Io.ok
  | .event (.snapshot io _) => io = Io.ok
  | _ => True

/-- The registry finds the same before and after the step, and its file writes succeed. -/
structure Happening.Unchanging (s : Inner) (h : Happening) : Prop where
  models : ∀ ref, (s.happen h).models.find ref = s.models.find ref
  written : h.Written

/-- The step empties the log of `d`: a snapshot, by a call or at the threshold, or a state that is
    adopted in its place. -/
def Happening.Cuts (s : Inner) (d : DocId) : Happening → Prop
  | .event (.snapshot _ id) => id = d
  | .event (.adoptState st) => st.doc.id = d
  | .event (.applyAction io a) =>
    a.docId = d ∧ (s.applyAction io a).2.isOk = true ∧ s.snapshotDue a = true
  | _ => False

/-- No restart, and no snapshot of `d`. -/
def Happening.Keeps (s : Inner) (d : DocId) (h : Happening) : Prop :=
  (∀ extra, h ≠ .reopen extra) ∧ ¬ h.Cuts s d

theorem unchanging_event {s : Inner} {ev : Event} (hmodel : ∀ m, ev ≠ .addModel m)
    (hwritten : (Happening.event ev).Written) : (Happening.event ev).Unchanging s := by
  refine ⟨fun ref => ?_, hwritten⟩
  show (s.exec ev).models.find ref = s.models.find ref
  rw [s.models_exec ev hmodel]

/-! ## The order of a log -/

/-- The log is in canonical order, and the models of log and WAL are there. -/
structure View.Ordered (r : ModelRegistry) (v : View) : Prop where
  sorted : ∀ e, v.entry = some e → Lib.KeySorted canonKey e.log
  resolves : ∀ e, v.entry = some e → r.Resolves e.log
  wal : r.Resolves (v.alog.getD [])

variable {r r' : ModelRegistry} {s : Inner} {d : DocId} {a : Action} {m : Model} {h : Happening}

namespace View.Ordered

theorem congr {v : View} (hv : v.Ordered r) (hfind : ∀ ref, r'.find ref = r.find ref) :
    v.Ordered r' :=
  ⟨hv.sorted, fun e he => (hv.resolves e he).congr fun b _ => hfind b.model,
    hv.wal.congr fun b _ => hfind b.model⟩

/-- A document without a log. -/
theorem of_nil {e : Entry} {snap : Option DocState} {alog : Option (List Action)}
    (hlog : e.log = []) (hwal : r.Resolves (alog.getD [])) :
    View.Ordered r ⟨some e, snap, alog⟩ := by
  refine ⟨fun e' he => ?_, fun e' he => ?_, hwal⟩
  · rw [← Option.some.inj he, hlog]
    exact List.Pairwise.nil
  · rw [← Option.some.inj he, hlog]
    exact .nil

theorem entryFor (hv : (s.view d).Ordered r) :
    Lib.KeySorted canonKey (s.entryFor d).log ∧ r.Resolves (s.entryFor d).log := by
  cases he : s.entries[d]? with
  | none =>
    rw [entryFor_of_none he]
    exact ⟨List.Pairwise.nil, .nil⟩
  | some e =>
    rw [entryFor_eq he]
    exact ⟨hv.sorted e he, hv.resolves e he⟩

end View.Ordered

/-- What is replayed into the log is taken from the WAL, in its order. -/
theorem log_foldl_replayStep (s : Inner) : ∀ (l : List Action) (e : Entry),
    ∃ kept, kept.Sublist l ∧ (l.foldl s.replayStep e).log = e.log ++ kept := by
  intro l
  induction l with
  | nil => exact fun e => ⟨[], List.Sublist.slnil, (List.append_nil _).symm⟩
  | cons a l ih =>
    intro e
    have hone : (s.replayStep e a).log = e.log ∨ (s.replayStep e a).log = e.log ++ [a] := by
      cases hm : s.models.find a.model with
      | some m =>
        rw [(replayStep_spec hm e).2.2.2.1]
        split
        · exact Or.inr rfl
        · exact Or.inl rfl
      | none => exact Or.inr (replayStep_missing hm e).2
    obtain ⟨kept, hsub, hlog⟩ := ih (s.replayStep e a)
    rw [List.foldl_cons, hlog]
    rcases hone with hone | hone
    · exact ⟨kept, hsub.cons a, by rw [hone]⟩
    · exact ⟨a :: kept, hsub.cons_cons a, by rw [hone, List.append_assoc]; rfl⟩

theorem log_replayed (s : Inner) (d : DocId) :
    (s.replayed d).log.Sublist (sortLog (s.disk.alog[d]?.getD [])) := by
  obtain ⟨kept, hsub, hlog⟩ :=
    log_foldl_replayStep s (sortLog (s.disk.alog[d]?.getD [])) (s.replayBase d)
  have hbase : (s.replayBase d).log = [] := by
    unfold Inner.replayBase
    split <;> rfl
  rw [replayed_eq_foldl, hlog, hbase]
  exact hsub

/-- **A reopening** sorts the WAL. -/
theorem ordered_reopened {extra : List Model} (hv : (s.view d).Ordered s.models)
    (hu : (Happening.reopen extra).Unchanging s) :
    ((s.happen (.reopen extra)).view d).Ordered (s.happen (.reopen extra)).models := by
  refine View.Ordered.congr (r := s.models) ?_ hu.models
  have hlog := log_replayed (s.withModels (loadedModels extra)) d
  rw [view_reopened]
  refine ⟨fun e he => ?_, fun e he => ?_, hv.wal⟩ <;> dsimp only at he <;> split at he
  · rw [← Option.some.inj he]
    exact (sortLog_keySorted _).sublist hlog
  · exact nomatch he
  · rw [← Option.some.inj he]
    exact fun b hb => hv.wal b (mem_sortLog.mp (hlog.subset hb))
  · exact nomatch he

/-- **Step lemma.**  The order is kept. -/
theorem ordered_happen (hen : h.Enabled s) (hu : h.Unchanging s)
    (hv : (s.view d).Ordered s.models) :
    ((s.happen h).view d).Ordered (s.happen h).models := by
  cases h with
  | reopen extra => exact ordered_reopened hv hu
  | event ev =>
    refine View.Ordered.congr (r := s.models) ?_ hu.models
    obtain ⟨hsorted, hresolves⟩ := hv.entryFor
    have hwritten := hu.written
    have hstep := docStep_exec s ev hen d
    show ((s.exec ev).view d).Ordered s.models
    generalize (s.exec ev).view d = v at hstep
    cases hstep with
    | stay _ => exact hv
    | created sp _ _ => exact .of_nil rfl hv.wal
    | @accepted io a m hd hacc =>
      subst hd
      obtain rfl : io = Io.ok := hwritten
      rcases View.finish_ok (v := { s.view a.docId with entry := some (s.settled a m) }) rfl a with
        hfinish | hfinish
      · rw [hfinish]
        refine ⟨fun e he => ?_, fun e he => ?_, hv.wal.concat hacc.model⟩
        · rw [← Option.some.inj he, log_settled hsorted]
          exact sortLog_keySorted _
        · rw [← Option.some.inj he, log_settled hsorted]
          exact fun b hb => hresolves.concat hacc.model b (mem_sortLog.mp hb)
      · rw [hfinish]
        exact .of_nil rfl .nil
    | @stuck io a m hd hacc hres =>
      subst hd
      exact absurd (hresolves.concat hacc.model) hres
    | snapshot io =>
      obtain rfl : io = Io.ok := hwritten
      cases he : (s.view d).entry with
      | none =>
        rw [(s.view d).snapshot_of_none he]
        exact hv
      | some e =>
        rw [View.snapshot_ok he]
        exact .of_nil rfl .nil
    | adopted _ => exact .of_nil rfl hv.wal

/-! ## What is in a log -/

/-- The view of its document after an accepted action. -/
theorem view_applied (hacc : s.Accepted a m)
    (hlog : s.models.Resolves (s.entryFor a.docId).log) :
    (s.applyAction Io.ok a).1.view a.docId =
      if s.snapshotDue a then
        ⟨some { s.settled a m with log := [] }, some (s.settled a m).snapState, some []⟩
      else ⟨some (s.settled a m), s.disk.snap[a.docId]?,
        some ((s.disk.alog[a.docId]?).getD [] ++ [a])⟩ := by
  have hfull : View.full { s.view a.docId with entry := some (s.settled a m) } =
      s.snapshotDue a := by
    unfold View.full Inner.snapshotDue
    rw [Option.map_some, Option.getD_some, length_settled_log]
  rw [view_applyAction_settled hacc (refoldStuck_of_resolves hlog), View.finish, hfull]
  cases s.snapshotDue a with
  | true =>
    rw [if_pos rfl, if_pos rfl]
    exact View.snapshot_ok (View.entry_persist _ Io.ok a)
  | false => rfl

/-- With its models and its files at hand the store answers `Ok` to what it accepts. -/
theorem isOk_of_resolves (hacc : s.Accepted a m)
    (hlog : s.models.Resolves (s.entryFor a.docId).log) :
    (s.applyAction Io.ok a).2.isOk = true :=
  (s.isOk_applyAction Io.ok a).mpr
    ⟨Inner.accepts_iff.mpr ⟨m, hacc⟩, refoldStuck_of_resolves hlog, fun _ => rfl⟩

/-- Nothing of `d` is accepted by a step in which no action of `d` passes the checks. -/
theorem acceptedBy_eq_nil {ev : Event}
    (hno : ∀ io a, ev = .applyAction io a → a.docId = d → ∀ m, ¬ s.Accepted a m) :
    ((Happening.event ev).acceptedBy s).filter (fun a => a.docId == d) = [] := by
  refine List.filter_eq_nil_iff.mpr fun a ha hd => ?_
  obtain ⟨io, heq, hok⟩ := mem_acceptedBy ha
  obtain ⟨m, hacc⟩ := Inner.accepted_of_isOk io hok
  exact hno io a (Happening.event.inj heq) (beq_iff_eq.mp hd) m hacc

/-- **A step that keeps the log** adds what it accepts. -/
theorem log_happen (hen : h.Enabled s) (hu : h.Unchanging s) (hv : (s.view d).Ordered s.models)
    (hkeep : h.Keeps s d) : ((s.happen h).entryFor d).log.Perm
      ((s.entryFor d).log ++ (h.acceptedBy s).filter fun a => a.docId == d) := by
  cases h with
  | reopen extra => exact absurd rfl (hkeep.1 extra)
  | event ev =>
    obtain ⟨hsorted, hresolves⟩ := hv.entryFor
    have hwritten := hu.written
    have hstep := docStep_exec s ev hen d
    show ((s.exec ev).entryFor d).log.Perm _
    generalize hview : (s.exec ev).view d = v at hstep
    cases hstep with
    | stay hno => rw [acceptedBy_eq_nil hno, List.append_nil, entryFor_congr hview]
    | created sp hnew hno =>
      rw [acceptedBy_eq_nil fun io a heq _ => (hno io a heq).2, List.append_nil,
        entryFor_of_none hnew, entryFor_eq (congrArg View.entry hview)]
    | @accepted io a m hd hacc =>
      subst hd
      obtain rfl : io = Io.ok := hwritten
      have hok := isOk_of_resolves hacc hresolves
      have hdue : s.snapshotDue a = false :=
        Bool.eq_false_iff.mpr fun hdue => hkeep.2 ⟨rfl, hok, hdue⟩
      have hentry : (s.exec (.applyAction Io.ok a)).entries[a.docId]? = some (s.settled a m) := by
        have happlied := view_applied hacc hresolves
        rw [hdue] at happlied
        exact congrArg View.entry happlied
      have haccepted : (Happening.event (.applyAction Io.ok a)).acceptedBy s = [a] := if_pos hok
      rw [entryFor_eq hentry, log_settled hsorted, haccepted, List.filter_cons_of_pos (by simp)]
      exact Lib.canonSort_perm _ _
    | @stuck io a m hd hacc hres =>
      subst hd
      exact absurd (hresolves.concat hacc.model) hres
    | snapshot io => exact absurd rfl hkeep.2
    | adopted hd => exact absurd hd hkeep.2

/-- **A snapshot empties the log.** -/
theorem log_cut (hu : h.Unchanging s) (hv : (s.view d).Ordered s.models) (hcut : h.Cuts s d) :
    ((s.happen h).entryFor d).log = [] := by
  cases h with
  | reopen extra => exact absurd hcut not_false
  | event ev =>
    cases ev with
    | snapshot io id =>
      obtain rfl : id = d := hcut
      obtain rfl : io = Io.ok := hu.written
      show ((s.exec (.snapshot Io.ok id)).entryFor id).log = []
      cases he : s.entries[id]? with
      | none =>
        rw [entryFor_congr (view_snapshot_of_none he Io.ok), entryFor_of_none he]
        rfl
      | some e =>
        have hview := (view_exec_snapshot s Io.ok id).trans (View.snapshot_ok he)
        rw [entryFor_eq (congrArg View.entry hview)]
    | adoptState st =>
      obtain rfl : st.doc.id = d := hcut
      have hview : (s.exec (.adoptState st)).view st.doc.id =
          (s.putEntry st.doc.id (adopted (s.entryFor st.doc.id) st)).view st.doc.id :=
        Inner.view_emitChange ..
      rw [Inner.view_putEntry, if_pos rfl] at hview
      show ((s.exec (.adoptState st)).entryFor st.doc.id).log = []
      rw [entryFor_eq (congrArg View.entry hview)]
      rfl
    | applyAction io a =>
      obtain ⟨rfl, hok, hdue⟩ := hcut
      obtain rfl : io = Io.ok := hu.written
      obtain ⟨m, hacc⟩ := Inner.accepted_of_isOk Io.ok hok
      have happlied := view_applied hacc hv.entryFor.2
      rw [hdue] at happlied
      show ((s.applyAction Io.ok a).1.entryFor a.docId).log = []
      rw [entryFor_eq (congrArg View.entry happlied)]
    | _ => exact absurd hcut not_false

/-! ## All together -/

theorem ordered_fresh (key : SigningKey) (origin : Origin) (extra : List Model) (d : DocId) :
    ((Store.fresh key origin extra).view d).Ordered (Store.fresh key origin extra).models := by
  rw [Store.fresh_view]
  exact ⟨fun e he => (nomatch he), fun e he => (nomatch he), .nil⟩

/-- **Run lemma.**  In a store whose registry finds the same all the time every log is in canonical
    order. -/
theorem ordered_lifetime {P : Inner → List Action → Happening → Prop} {s₀ : Inner}
    {acc : List Action} (hP : ∀ {s acc h}, P s acc h → h.Unchanging s)
    (hrun : Lifetime P s₀ s acc) (hv : (s₀.view d).Ordered s₀.models) :
    (s.view d).Ordered s.models := by
  induction hrun with
  | start => exact hv
  | step hl h hen hstep ih => exact ordered_happen hen (hP hstep) ih

/-- **Run lemma.**  Without a restart and a snapshot of the document its log gathers what is
    accepted. -/
theorem log_lifetime {s₀ : Inner} {since : List Action} (hv : (s₀.view d).Ordered s₀.models)
    (hrun : Lifetime (fun s _ h => h.Unchanging s ∧ h.Keeps s d) s₀ s since) :
    (s.entryFor d).log.Perm ((s₀.entryFor d).log ++ since.filter fun a => a.docId == d) := by
  induction hrun with
  | start => rw [List.filter_nil, List.append_nil]
  | @step s acc hl h hen hstep ih =>
    have hordered := ordered_lifetime And.left hl hv
    rw [List.filter_append, ← List.append_assoc]
    exact (log_happen hen hstep.1 hordered hstep.2).trans (ih.append_right _)

/-- The log of `d` begins anew in `s`: the store is created, or a snapshot of `d` has just emptied
    it. -/
inductive LogBegins (d : DocId) (s₀ : Inner) : Inner → Prop
  | created : LogBegins d s₀ s₀
  | cut {s : Inner} {acc : List Action} {h : Happening}
    (hl : Lifetime (fun s _ h => h.Unchanging s) s₀ s acc) (hen : h.Enabled s)
    (hu : h.Unchanging s) (hcut : h.Cuts s d) : LogBegins d s₀ (s.happen h)

theorem LogBegins.empty {key : SigningKey} {origin : Origin} {extra : List Model}
    (hb : LogBegins d (Store.fresh key origin extra) s) :
    (s.view d).Ordered s.models ∧ (s.entryFor d).log = [] := by
  have hfresh := ordered_fresh key origin extra d
  cases hb with
  | created =>
    rw [entryFor_of_none (congrArg View.entry (Store.fresh_view key origin extra d))]
    exact ⟨hfresh, rfl⟩
  | cut hl hen hu hcut =>
    have hv := ordered_lifetime id hl hfresh
    exact ⟨ordered_happen hen hu hv, log_cut hu hv hcut⟩

/-- **The live log is in canonical order and loses nothing.** -/
theorem live_log_canonical (key : SigningKey) (origin : Origin) (extra : List Model) :
    (∀ (s : Inner) (acc : List Action),
      Lifetime (fun s _ h => h.Unchanging s) (Store.fresh key origin extra) s acc →
        ∀ (d : DocId) (e : Entry), s.entries[d]? = some e → Lib.KeySorted canonKey e.log) ∧
    ∀ (d : DocId) (s t : Inner) (since : List Action),
      LogBegins d (Store.fresh key origin extra) s →
        Lifetime (fun s _ h => h.Unchanging s ∧ h.Keeps s d) s t since →
          (t.entryFor d).log.Perm (since.filter fun a => a.docId == d) := by
  constructor
  · intro s acc hl d e he
    exact (ordered_lifetime id hl (ordered_fresh key origin extra d)).sorted e he
  · intro d s t since hbegins hl
    obtain ⟨hv, hempty⟩ := hbegins.empty
    have hlog := log_lifetime hv hl
    rwa [hempty, List.nil_append] at hlog

end

section

open Sample

attribute [local instance] Sample.primitives

/-- Alice's node with the group and a post in it, right after a snapshot. -/
def cutStore : Inner := postedStore.happen (.event (.snapshot Io.ok docId))

/-- What happens next: a post, one that was made before it, and that one again. -/
def latePosts : List Happening :=
  [bobPost 25, bobPost 15, bobPost 15].map fun a => .event (.applyAction Io.ok a)

theorem unchanging_apply (s : Inner) (a : Action) :
    (Happening.event (.applyAction Io.ok a)).Unchanging s :=
  unchanging_event (fun _ h => nomatch h) rfl

theorem keeps_apply {s : Inner} {a : Action} (d : DocId) (hdue : s.snapshotDue a = false) :
    (Happening.event (.applyAction Io.ok a)).Unchanging s ∧
      (Happening.event (.applyAction Io.ok a)).Keeps s d := by
  refine ⟨unchanging_apply s a, ⟨fun _ h => (nomatch h), ?_⟩⟩
  rintro ⟨-, -, hdue'⟩
  rw [hdue] at hdue'
  exact nomatch hdue'

/-- A canonically earlier post and its duplicate, since a snapshot. -/
theorem late_posts_in_order :
    (∃ e, (cutStore.happenAll [] latePosts).1.entries[docId]? = some e ∧
      Lib.KeySorted canonKey e.log) ∧
    ((cutStore.happenAll [] latePosts).1.entryFor docId).log.Perm
      [bobPost 25, bobPost 15, bobPost 15] := by
  have hfacts : cutStore.snapshotDue (bobPost 25) = false ∧
      (cutStore.happenAll [] (latePosts.take 1)).1.snapshotDue (bobPost 15) = false ∧
      (cutStore.happenAll [] (latePosts.take 2)).1.snapshotDue (bobPost 15) = false ∧
      (cutStore.happenAll [] latePosts).2.filter (fun a => a.docId == docId) =
        [bobPost 25, bobPost 15, bobPost 15] ∧
      (cutStore.happenAll [] latePosts).1.entries[docId]?.isSome = true := by
    decide +kernel
  obtain ⟨h₁, h₂, h₃, hsince, he⟩ := hfacts
  have hpinned : (Happening.event (.registerPeerKey bob.name bob.key)).Unchanging
      (Store.fresh alice.key alice.name []) := unchanging_event (fun _ h => nomatch h) trivial
  have hposted : Lifetime (fun s _ h => h.Unchanging s) (Store.fresh alice.key alice.name [])
      postedStore _ :=
    ((Lifetime.start.step (.event (.registerPeerKey bob.name bob.key)) trivial hpinned).step
      (.event (.applyAction Io.ok groupInit)) trivial (unchanging_apply _ _)).step
      (.event (.applyAction Io.ok (post alice "hi" 20 [("alice", 2)]))) trivial
      (unchanging_apply _ _)
  have hsnapshot : (Happening.event (.snapshot Io.ok docId)).Unchanging postedStore :=
    unchanging_event (fun _ h => nomatch h) rfl
  have hcut := hposted.step (.event (.snapshot Io.ok docId)) trivial hsnapshot
  obtain ⟨e, he⟩ := Option.isSome_iff_exists.mp he
  constructor
  · have hlater := ((hcut.step (.event (.applyAction Io.ok (bobPost 25))) trivial
      (unchanging_apply _ _)).step (.event (.applyAction Io.ok (bobPost 15))) trivial
      (unchanging_apply _ _)).step (.event (.applyAction Io.ok (bobPost 15))) trivial
      (unchanging_apply _ _)
    exact ⟨e, he, (live_log_canonical alice.key alice.name []).1 _ _ hlater docId e he⟩
  · have hbegins : LogBegins docId (Store.fresh alice.key alice.name []) cutStore :=
      .cut hposted trivial hsnapshot rfl
    have hlater : Lifetime (fun s _ h => h.Unchanging s ∧ h.Keeps s docId) cutStore
        (cutStore.happenAll [] latePosts).1 (cutStore.happenAll [] latePosts).2 :=
      ((Lifetime.start.step (.event (.applyAction Io.ok (bobPost 25))) trivial
        (keeps_apply docId h₁)).step (.event (.applyAction Io.ok (bobPost 15))) trivial
        (keeps_apply docId h₂)).step (.event (.applyAction Io.ok (bobPost 15))) trivial
        (keeps_apply docId h₃)
    rw [← hsince]
    exact (live_log_canonical alice.key alice.name []).2 docId _ _ _ hbegins hlater

end

end PhReactor
