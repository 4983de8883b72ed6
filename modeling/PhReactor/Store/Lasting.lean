/-
  Facts about a document that LAST.

  What a store knows of a document is rebuilt again and again: a late action re-folds the live log
  from the snapshot, a reopening replays the WAL from it.  So a fact that some action has brought
  about stays only if it can be found again in whatever the document may be rebuilt from.

  1. **A fact** (`Fact`) has two sides: what holds throughout (`safe`), and what holds from a
     `marks` action on (`held`).  It is `Lasting` if every action that is `ok` keeps both, a mark
     brings the second about wherever it is folded in, and nothing else does.

  2. **Folds.**  A re-fold or a replay over ok actions keeps what is safe, and holds the fact if it
     started with it or meets a mark (`Lasting.foldl_foldStep`, `Lasting.foldl_replayStep`).

  3. **The invariant.**  `Fact.Safe`: entry, snapshot, live log and WAL are safe and ok.
     `Fact.Held`: the entry holds the fact, and the live log and the WAL each have it on record,
     unless the snapshot holds it (`Fact.records`).

  4. **One step** that meets `Fact.Lasts` keeps both, and an accepted mark brings `Held` about;
     hence in a whole lifetime (`Fact.Lasting.lifetime`).
-/
import PhReactor.Store.Lifetime

set_option linter.unusedSectionVars false

namespace PhReactor

/-- A fact about a document and its deleted flag. -/
structure Fact where
  /-- What the logged actions satisfy, given the loaded models. -/
  ok : ModelRegistry → Action → Prop
  /-- The actions that bring the fact about. -/
  marks : Action → Bool
  /-- What holds throughout. -/
  safe : Doc → Bool → Prop
  /-- What holds from a mark on. -/
  held : Doc → Bool → Prop

section

variable [Primitives]

/-- What makes a fact last. -/
structure Fact.Lasting (F : Fact) : Prop where
  new : ∀ d, F.safe (Entry.new d).doc false ∧ ¬ F.held (Entry.new d).doc false
  lift : ∀ {doc del} (d : DocId), F.safe doc del → F.safe (liftName { doc with id := d }) del ∧
    (F.held (liftName { doc with id := d }) del ↔ F.held doc del)
  keeps : ∀ {r a m} {e : Entry}, F.ok r a → r.find a.model = some m → F.safe e.doc e.deleted →
    F.safe (applyOpsToEntry e m a).1.doc (applyOpsToEntry e m a).1.deleted ∧
    (F.held e.doc e.deleted →
      F.held (applyOpsToEntry e m a).1.doc (applyOpsToEntry e m a).1.deleted)
  found : ∀ {r a}, F.ok r a → F.marks a = true → ∃ m, r.find a.model = some m
  brings : ∀ {r a m} {e : Entry}, F.ok r a → F.marks a = true → r.find a.model = some m →
    F.safe e.doc e.deleted →
    F.held (applyOpsToEntry e m a).1.doc (applyOpsToEntry e m a).1.deleted ∧
      m.checkPrecondition e.doc a = .ok () ∧ m.authorize e.doc a = .ok ()
  only : ∀ {r a m} {e : Entry}, F.ok r a → r.find a.model = some m → F.safe e.doc e.deleted →
    ¬ F.held e.doc e.deleted →
    F.held (applyOpsToEntry e m a).1.doc (applyOpsToEntry e m a).1.deleted →
    F.marks a = true ∧ changes r e a = true

variable {F : Fact}

/-! ## Folds -/

theorem Fact.Lasting.foldStep (hF : F.Lasting) {r : ModelRegistry} {a : Action} (hok : F.ok r a)
    {e : Entry} (hs : F.safe e.doc e.deleted) :
    F.safe (foldStep r e a).doc (foldStep r e a).deleted ∧
      (F.held e.doc e.deleted ∨ F.marks a = true →
        F.held (foldStep r e a).doc (foldStep r e a).deleted) := by
  cases hm : r.find a.model with
  | none =>
    rw [show PhReactor.foldStep r e a = e from by unfold PhReactor.foldStep; rw [hm]]
    refine ⟨hs, fun h => h.elim id fun hmark => ?_⟩
    obtain ⟨m, hfound⟩ := hF.found hok hmark
    rw [hm] at hfound
    exact nomatch hfound
  | some m =>
    rw [foldStep_eq hm]
    rcases refoldStep_cases e a m with heq | ⟨hpre, hauth, heq⟩
    · -- passed over: then it is not a mark
      rw [heq]
      refine ⟨hs, fun h => h.elim id fun hmark => ?_⟩
      obtain ⟨hheld, hpre, hauth⟩ := hF.brings hok hmark hm hs
      rw [← heq]
      unfold refoldStep
      rw [hpre, hauth]
      exact hheld
    · rw [heq]
      obtain ⟨hsafe, hheld⟩ := hF.keeps hok hm hs
      exact ⟨hsafe, fun h => h.elim hheld fun hmark => (hF.brings hok hmark hm hs).1⟩

/-- **A re-fold finds the mark**, wherever it stands. -/
theorem Fact.Lasting.foldl_foldStep (hF : F.Lasting) {r : ModelRegistry} {l : List Action}
    {e : Entry} (hok : ∀ b ∈ l, F.ok r b) (hs : F.safe e.doc e.deleted) :
    F.safe (l.foldl (PhReactor.foldStep r) e).doc (l.foldl (PhReactor.foldStep r) e).deleted ∧
      (F.held e.doc e.deleted ∨ (∃ b ∈ l, F.marks b = true) →
        F.held (l.foldl (PhReactor.foldStep r) e).doc
          (l.foldl (PhReactor.foldStep r) e).deleted) :=
  Lib.foldl_attains (I := fun e : Entry => F.safe e.doc e.deleted)
    (P := fun e => F.held e.doc e.deleted) (Q := fun b => F.marks b = true) l
    (fun b hb _ hs => hF.foldStep (hok b hb) hs) hs

/-- The snapshot holds the fact, or the list has a mark in it. -/
def Fact.records (F : Fact) (snap : Option DocState) (l : List Action) : Prop :=
  (∃ st, snap = some st ∧ F.held st.doc st.deleted) ∨ ∃ a ∈ l, F.marks a = true

theorem Fact.records.mono {snap : Option DocState} {l l' : List Action} (h : F.records snap l)
    (hsub : ∀ a ∈ l, a ∈ l') : F.records snap l' := by
  rcases h with hsnap | ⟨a, ha, hmark⟩
  · exact Or.inl hsnap
  · exact Or.inr ⟨a, hsub a ha, hmark⟩

/-- What a replay keeps of an entry: it is safe, what it holds is on record, and its log comes
    from `l`. -/
structure Fact.Replayed (F : Fact) (snap : Option DocState) (l : List Action) (e : Entry) :
    Prop where
  safe : F.safe e.doc e.deleted
  records : F.held e.doc e.deleted → F.records snap e.log
  log : ∀ b ∈ e.log, b ∈ l

theorem Fact.Lasting.replayStep (hF : F.Lasting) {s : Inner} {a : Action} (hok : F.ok s.models a)
    {snap : Option DocState} {l : List Action} (ha : a ∈ l) {e : Entry}
    (h : F.Replayed snap l e) : F.Replayed snap l (s.replayStep e a) ∧
      (F.held e.doc e.deleted ∨ F.marks a = true →
        F.held (s.replayStep e a).doc (s.replayStep e a).deleted) := by
  have hmore : ∀ b ∈ e.log ++ [a], b ∈ l := by
    intro b hb
    rcases List.mem_append.mp hb with hb | hb
    · exact h.log b hb
    · rw [List.mem_singleton.mp hb]; exact ha
  cases hm : s.models.find a.model with
  | none =>
    obtain ⟨hsame, hlog⟩ := replayStep_missing hm e
    refine ⟨⟨?_, fun hheld => ?_, ?_⟩, fun hh => ?_⟩
    · rw [hsame.doc, hsame.deleted]; exact h.safe
    · rw [hsame.doc, hsame.deleted] at hheld
      rw [hlog]
      exact (h.records hheld).mono fun b hb => List.mem_append_left [a] hb
    · rw [hlog]; exact hmore
    · rw [hsame.doc, hsame.deleted]
      refine hh.elim id fun hmark => ?_
      obtain ⟨m, hfound⟩ := hF.found hok hmark
      rw [hm] at hfound
      exact nomatch hfound
  | some m =>
    obtain ⟨hsame, -, -, hlog, -⟩ := replayStep_spec hm e
    obtain ⟨hsafe, hkeeps⟩ := hF.keeps hok hm h.safe
    refine ⟨⟨?_, fun hheld => ?_, ?_⟩, fun hh => ?_⟩
    · rw [hsame.doc, hsame.deleted]; exact hsafe
    · rw [hsame.doc, hsame.deleted] at hheld
      rw [hlog]
      by_cases hbefore : F.held e.doc e.deleted
      · split
        · exact (h.records hbefore).mono fun b hb => List.mem_append_left [a] hb
        · exact h.records hbefore
      · -- brought about here: the action is a mark, and counts
        obtain ⟨hmark, hch⟩ := hF.only hok hm h.safe hbefore hheld
        rw [if_pos hch]
        exact Or.inr ⟨a, List.mem_append_right _ (List.mem_singleton_self a), hmark⟩
    · rw [hlog]
      split
      · exact hmore
      · exact h.log
    · rw [hsame.doc, hsame.deleted]
      exact hh.elim hkeeps fun hmark => (hF.brings hok hmark hm h.safe).1

/-- **So does a replay**, and it keeps the record. -/
theorem Fact.Lasting.foldl_replayStep (hF : F.Lasting) {s : Inner} {snap : Option DocState}
    {l l' : List Action} (hok : ∀ b ∈ l, F.ok s.models b) (hsub : ∀ b ∈ l', b ∈ l) {e : Entry}
    (h : F.Replayed snap l e) : F.Replayed snap l (l'.foldl s.replayStep e) ∧
      (F.held e.doc e.deleted ∨ (∃ b ∈ l', F.marks b = true) →
        F.held (l'.foldl s.replayStep e).doc (l'.foldl s.replayStep e).deleted) :=
  Lib.foldl_attains (I := F.Replayed snap l) (P := fun e => F.held e.doc e.deleted)
    (Q := fun b => F.marks b = true) l'
    (fun b hb _ he => hF.replayStep (hok b (hsub b hb)) (hsub b hb) he) h

/-! ## The invariant -/

/-- Whatever the document may be rebuilt from is safe, and ok under the models `r`. -/
structure Fact.Safe (F : Fact) (r : ModelRegistry) (v : View) : Prop where
  entry : ∀ e, v.entry = some e → F.safe e.doc e.deleted ∧ ∀ b ∈ e.log, F.ok r b
  snap : ∀ st, v.snap = some st → F.safe st.doc st.deleted
  alog : ∀ l, v.alog = some l → ∀ b ∈ l, F.ok r b

/-- The entry holds the fact, and whatever it may be rebuilt from says so. -/
structure Fact.Held (F : Fact) (v : View) : Prop where
  entry : ∃ e, v.entry = some e ∧ F.held e.doc e.deleted ∧ F.records v.snap e.log
  files : ∃ l, v.alog = some l ∧ F.records v.snap l

theorem Fact.Safe.entryFor (hF : F.Lasting) {s : Inner} {d : DocId}
    (h : F.Safe s.models (s.view d)) :
    F.safe (s.entryFor d).doc (s.entryFor d).deleted ∧
      ∀ b ∈ (s.entryFor d).log, F.ok s.models b := by
  cases he : s.entries[d]? with
  | none =>
    rw [entryFor_of_none he]
    exact ⟨(hF.new d).1, fun b hb => absurd hb List.not_mem_nil⟩
  | some e => rw [entryFor_eq he]; exact h.entry e he

/-- Where a re-fold starts: safe, and holding the fact if the snapshot does. -/
theorem Fact.Safe.baseEntry (hF : F.Lasting) {s : Inner} {d : DocId}
    (h : F.Safe s.models (s.view d)) :
    F.safe (s.baseEntry d).doc (s.baseEntry d).deleted ∧ ∀ l, F.records s.disk.snap[d]? l →
      F.held (s.baseEntry d).doc (s.baseEntry d).deleted ∨ ∃ a ∈ l, F.marks a = true := by
  unfold Inner.baseEntry
  cases hst : s.disk.snap[d]? with
  | none =>
    have hnew : F.safe (liftName (Entry.new d).doc) false := (hF.lift d (hF.new d).1).1
    refine ⟨hnew, fun l hl => Or.inr ?_⟩
    rcases hl with ⟨st, hnone, -⟩ | hl
    · exact nomatch hnone
    · exact hl
  | some st =>
    obtain ⟨hsafe, hheld⟩ := hF.lift st.doc.id (h.snap st hst)
    refine ⟨hsafe, fun l hl => ?_⟩
    rcases hl with ⟨st', hst', hl⟩ | hl
    · rw [← Option.some.inj hst'] at hl
      exact Or.inl (hheld.mpr hl)
    · exact Or.inr hl

/-- Where a replay starts. -/
theorem Fact.Safe.replayBase (hF : F.Lasting) {s : Inner} {d : DocId} (l : List Action)
    (h : ∀ st, s.disk.snap[d]? = some st → F.safe st.doc st.deleted) :
    F.Replayed s.disk.snap[d]? l (s.replayBase d) ∧ (F.records s.disk.snap[d]? l →
      F.held (s.replayBase d).doc (s.replayBase d).deleted ∨ ∃ a ∈ l, F.marks a = true) := by
  cases hst : s.disk.snap[d]? with
  | none =>
    rw [replayBase_of_none hst]
    refine ⟨⟨(hF.new d).1, fun hh => absurd hh (hF.new d).2,
      fun b hb => absurd hb List.not_mem_nil⟩, fun hl => Or.inr ?_⟩
    rcases hl with ⟨st, hnone, -⟩ | hl
    · exact nomatch hnone
    · exact hl
  | some st =>
    rw [replayBase_of_some hst]
    obtain ⟨hsafe, hheld⟩ := hF.lift d (h st hst)
    refine ⟨⟨hsafe, fun hh => Or.inl ⟨st, rfl, hheld.mp hh⟩,
      fun b hb => absurd hb List.not_mem_nil⟩, fun hl => ?_⟩
    rcases hl with ⟨st', hst', hl⟩ | hl
    · rw [← Option.some.inj hst'] at hl
      exact Or.inl (hheld.mpr hl)
    · exact Or.inr hl

/-- An action appended to the log. -/
theorem Fact.Lasting.appended (hF : F.Lasting) {r : ModelRegistry} {a : Action} {m : Model}
    (hok : F.ok r a) (hm : r.find a.model = some m) {e : Entry} (hs : F.safe e.doc e.deleted) :
    F.safe (appended e m a).doc (appended e m a).deleted ∧
      (F.held e.doc e.deleted ∨ F.marks a = true →
        F.held (appended e m a).doc (appended e m a).deleted) := by
  have hsame := (sameDoc_stamped e a).after_applyOps m a
  have happ : SameDoc (PhReactor.appended e m a) (applyOpsToEntry e m a).1 :=
    ⟨hsame.doc, hsame.deleted⟩
  obtain ⟨hsafe, hkeeps⟩ := hF.keeps hok hm hs
  rw [happ.doc, happ.deleted]
  exact ⟨hsafe, fun h => h.elim hkeeps fun hmark => (hF.brings hok hmark hm hs).1⟩

/-- **An accepted action**, arriving in order or not. -/
theorem Fact.Lasting.settled (hF : F.Lasting) {s : Inner} {a : Action} {m : Model}
    (hacc : s.Accepted a m) (hok : F.ok s.models a) (hs : F.Safe s.models (s.view a.docId)) :
    (F.safe (s.settled a m).doc (s.settled a m).deleted ∧
      ∀ b ∈ (s.settled a m).log, F.ok s.models b) ∧
    (F.Held (s.view a.docId) ∨ F.marks a = true →
      F.held (s.settled a m).doc (s.settled a m).deleted ∧
        F.records s.disk.snap[a.docId]? (s.settled a m).log) := by
  obtain ⟨hsafe, hlog⟩ := hs.entryFor hF
  have hoks : ∀ b, b ∈ (s.entryFor a.docId).log ∨ b = a → F.ok s.models b := by
    rintro b (hb | rfl)
    · exact hlog b hb
    · exact hok
  -- the record of the live log, with the new action in it
  have hrec : F.Held (s.view a.docId) ∨ F.marks a = true → ∀ l : List Action,
      (∀ b, b ∈ (s.entryFor a.docId).log ∨ b = a → b ∈ l) → F.records s.disk.snap[a.docId]? l := by
    rintro (⟨⟨e, he, -, hr⟩, -⟩ | hmark) l hl
    · rw [entryFor_eq he] at hl
      exact hr.mono fun b hb => hl b (Or.inl hb)
    · exact Or.inr ⟨a, hl a (Or.inr rfl), hmark⟩
  have hheld : F.Held (s.view a.docId) →
      F.held (s.entryFor a.docId).doc (s.entryFor a.docId).deleted := by
    rintro ⟨⟨e, he, hh, -⟩, -⟩
    rw [entryFor_eq he]
    exact hh
  suffices hdoc : F.safe (s.settled a m).doc (s.settled a m).deleted ∧
      (F.Held (s.view a.docId) ∨ F.marks a = true →
        F.held (s.settled a m).doc (s.settled a m).deleted) from
    ⟨⟨hdoc.1, fun b hb => hoks b (mem_settled_log.mp hb)⟩,
      fun h => ⟨hdoc.2 h, hrec h _ fun b hb => mem_settled_log.mpr hb⟩⟩
  cases hord : s.outOfOrder a with
  | false =>
    rw [Inner.settled_of_inOrder hord]
    obtain ⟨hsafe', hheld'⟩ := hF.appended hok hacc.model hsafe
    exact ⟨hsafe', fun h => hheld' (h.imp hheld id)⟩
  | true =>
    -- re-folded: the mark is somewhere in the log, or in the snapshot
    rw [Inner.settled_of_outOfOrder hord]
    have hspec :=
      (refolded_spec s a.docId (PhReactor.appended (s.entryFor a.docId) m a)).1
    rw [hspec.doc, hspec.deleted]
    obtain ⟨hbase, hmark⟩ := hs.baseEntry hF
    have hmem : ∀ b, b ∈ sortLog (PhReactor.appended (s.entryFor a.docId) m a).log ↔
        b ∈ (s.entryFor a.docId).log ∨ b = a := by
      intro b
      rw [mem_sortLog, log_appended, List.mem_append, List.mem_singleton]
    obtain ⟨hsafe', hheld'⟩ := hF.foldl_foldStep
      (l := sortLog (PhReactor.appended (s.entryFor a.docId) m a).log)
      (fun b hb => hoks b ((hmem b).mp hb)) hbase
    exact ⟨hsafe', fun h => hheld' (hmark _ (hrec h _ fun b hb => (hmem b).mpr hb))⟩

/-! ## One step -/

/-- A snapshot that is written carries the fact for both records. -/
theorem Fact.Safe.snapshot {r : ModelRegistry} {v : View} {io : Io} (hio : io.snap = .ok)
    (hs : F.Safe r v) : F.Safe r (v.snapshot io) ∧ (F.Held v → F.Held (v.snapshot io)) := by
  cases he : v.entry with
  | none =>
    rw [v.snapshot_of_none he]
    exact ⟨hs, id⟩
  | some e =>
    have hwritten : v.snapshot io = ⟨some { e with log := [] }, some e.snapState,
        if io.truncate then some [] else v.alog⟩ := by
      unfold View.snapshot
      rw [he, hio]
    rw [hwritten]
    obtain ⟨hsafe, -⟩ := hs.entry e he
    refine ⟨⟨fun e' he' => ?_, fun st hst => ?_, fun l hl => ?_⟩, ?_⟩
    · rw [← Option.some.inj he']
      exact ⟨hsafe, fun b hb => absurd hb List.not_mem_nil⟩
    · rw [← Option.some.inj hst]
      exact hsafe
    · dsimp only at hl
      split at hl
      · rw [← Option.some.inj hl]
        exact fun b hb => absurd hb List.not_mem_nil
      · exact hs.alog l hl
    · rintro ⟨⟨e', he', hh, -⟩, ⟨l, hl, -⟩⟩
      rw [he] at he'
      rw [← Option.some.inj he'] at hh
      refine ⟨⟨_, rfl, hh, Or.inl ⟨_, rfl, hh⟩⟩, ?_⟩
      by_cases ht : io.truncate = true
      · exact ⟨[], by rw [if_pos ht], Or.inl ⟨_, rfl, hh⟩⟩
      · exact ⟨l, by rw [if_neg ht]; exact hl, Or.inl ⟨_, rfl, hh⟩⟩

/-- A step that does not spoil the fact about `d`: what is accepted is ok and reaches the disk, no
    state of `d` is adopted, and the logged actions stay ok when the models change. -/
structure Fact.Lasts (F : Fact) (d : DocId) (s : Inner) (h : Happening) : Prop where
  accepts : ∀ io a m, h = .event (.applyAction io a) → a.docId = d → s.Accepted a m →
    F.ok s.models a ∧ io.wal = true ∧ io.snap = .ok
  snapshot : ∀ io, h = .event (.snapshot io d) → io.snap = .ok
  noAdoption : ∀ st, h = .event (.adoptState st) → st.doc.id ≠ d
  models : ∀ b, b ∈ (s.entryFor d).log ∨ b ∈ s.disk.alog[d]?.getD [] → F.ok s.models b →
    F.ok (s.happen h).models b

/-- An accepted action in the live log and in the WAL. -/
theorem Fact.Lasting.persisted (hF : F.Lasting) {s : Inner} {a : Action} {m : Model}
    (hacc : s.Accepted a m) (hok : F.ok s.models a) (hs : F.Safe s.models (s.view a.docId)) :
    F.Safe s.models ⟨some (s.settled a m), (s.view a.docId).snap,
      some ((s.view a.docId).alog.getD [] ++ [a])⟩ ∧
    (F.Held (s.view a.docId) ∨ F.marks a = true → F.Held ⟨some (s.settled a m),
      (s.view a.docId).snap, some ((s.view a.docId).alog.getD [] ++ [a])⟩) := by
  obtain ⟨hset, hheld⟩ := hF.settled hacc hok hs
  refine ⟨⟨fun e he => ?_, hs.snap, fun l hl b hb => ?_⟩,
    fun h => ⟨⟨_, rfl, hheld h⟩, ⟨_, rfl, ?_⟩⟩⟩
  · rw [← Option.some.inj he]
    exact hset
  · rw [← Option.some.inj hl] at hb
    rcases List.mem_append.mp hb with hb | hb
    · cases hold : (s.view a.docId).alog with
      | none =>
        rw [hold] at hb
        exact absurd hb List.not_mem_nil
      | some l₀ =>
        rw [hold] at hb
        exact hs.alog l₀ hold b hb
    · rw [List.mem_singleton.mp hb]
      exact hok
  · -- the record of the WAL, with the new action in it
    rcases h with ⟨-, ⟨l₀, hl₀, hrec⟩⟩ | hmark
    · rw [hl₀]
      exact hrec.mono fun b hb => List.mem_append_left [a] hb
    · exact Or.inr ⟨a, List.mem_append_right _ (List.mem_singleton_self a), hmark⟩

/-- An accepted action, with the steps after the fold. -/
theorem Fact.Lasting.finish (hF : F.Lasting) {s : Inner} {io : Io} {a : Action} {m : Model}
    (hacc : s.Accepted a m) (hok : F.ok s.models a) (hwal : io.wal = true) (hsnap : io.snap = .ok)
    (hs : F.Safe s.models (s.view a.docId)) :
    F.Safe s.models
      (View.finish { s.view a.docId with entry := some (s.settled a m) } io a) ∧
    (F.Held (s.view a.docId) ∨ F.marks a = true →
      F.Held (View.finish { s.view a.docId with entry := some (s.settled a m) } io a)) := by
  obtain ⟨hsafe, hheld⟩ := hF.persisted hacc hok hs
  unfold View.finish View.persist
  rw [if_pos hwal]
  split
  · obtain ⟨hsafe', hheld'⟩ := hsafe.snapshot hsnap
    exact ⟨hsafe', fun h => hheld' (hheld h)⟩
  · exact ⟨hsafe, hheld⟩

/-- An accepted action whose re-fold fails: it is in the live log, and in no file. -/
theorem Fact.Lasting.stuck (hF : F.Lasting) {s : Inner} {a : Action} {m : Model}
    (hacc : s.Accepted a m) (hok : F.ok s.models a) (hs : F.Safe s.models (s.view a.docId)) :
    F.Safe s.models
      { s.view a.docId with entry := some (PhReactor.appended (s.entryFor a.docId) m a) } ∧
    (F.Held (s.view a.docId) → F.Held
      { s.view a.docId with entry := some (PhReactor.appended (s.entryFor a.docId) m a) }) := by
  obtain ⟨hentry, hlog⟩ := hs.entryFor hF
  obtain ⟨hsafe, hheld⟩ := hF.appended hok hacc.model hentry
  refine ⟨⟨fun e he => ?_, hs.snap, hs.alog⟩, ?_⟩
  · rw [← Option.some.inj he]
    refine ⟨hsafe, fun b hb => ?_⟩
    rcases List.mem_append.mp hb with hb | hb
    · exact hlog b hb
    · rw [List.mem_singleton.mp hb]; exact hok
  · rintro ⟨⟨e, he, hh, hrec⟩, hfiles⟩
    rw [entryFor_eq he] at hheld ⊢
    exact ⟨⟨_, rfl, hheld (Or.inl hh), hrec.mono fun b hb => List.mem_append_left [a] hb⟩, hfiles⟩

/-- The invariant under other models that keep the logged actions ok. -/
theorem Fact.Safe.models {r r' : ModelRegistry} {v : View} (h : F.Safe r v)
    (hlog : ∀ e, v.entry = some e → ∀ b ∈ e.log, F.ok r b → F.ok r' b)
    (halog : ∀ l, v.alog = some l → ∀ b ∈ l, F.ok r b → F.ok r' b) : F.Safe r' v :=
  ⟨fun e he => ⟨(h.entry e he).1, fun b hb => hlog e he b hb ((h.entry e he).2 b hb)⟩, h.snap,
    fun l hl b hb => halog l hl b hb (h.alog l hl b hb)⟩

/-- What is kept of a document under other models that its log and its WAL are ok with. -/
theorem Fact.Safe.reread {s : Inner} {d : DocId} {r : ModelRegistry}
    (hs : F.Safe s.models (s.view d))
    (hmodels : ∀ b, b ∈ (s.entryFor d).log ∨ b ∈ s.disk.alog[d]?.getD [] → F.ok s.models b →
      F.ok r b) : F.Safe r (s.view d) := by
  refine hs.models (fun e he b hb => hmodels b (Or.inl ?_)) fun l hl b hb => hmodels b (Or.inr ?_)
  · rw [entryFor_eq he]; exact hb
  · rw [show s.disk.alog[d]? = some l from hl]; exact hb

/-- **Step lemma, events.** -/
theorem Fact.Lasting.event (hF : F.Lasting) {s : Inner} {ev : Event} (hen : ev.Enabled s)
    {d : DocId} (hL : F.Lasts d s (.event ev)) (hs : F.Safe s.models (s.view d)) :
    F.Safe (s.exec ev).models ((s.exec ev).view d) ∧
      (F.Held (s.view d) → F.Held ((s.exec ev).view d)) := by
  -- under the old models first
  have hstay : F.Safe (s.exec ev).models (s.view d) := hs.reread hL.models
  have hsame : (∀ m, ev ≠ .addModel m) → (s.exec ev).models = s.models := s.models_exec ev
  have hstep := docStep_exec s ev hen d
  generalize (s.exec ev).view d = v at hstep ⊢
  cases hstep with
  | stay _ => exact ⟨hstay, id⟩
  | created sp hnew _ =>
    refine ⟨⟨fun e he => ?_, hstay.snap, hstay.alog⟩, ?_⟩
    · rw [← Option.some.inj he]
      exact ⟨(hF.new d).1, fun b hb => absurd hb List.not_mem_nil⟩
    · rintro ⟨⟨e, he, -⟩, -⟩
      rw [show (s.view d).entry = none from hnew] at he
      exact nomatch he
  | @accepted io a m hd hacc =>
    subst hd
    obtain ⟨hok, hwal, hsnap⟩ := hL.accepts io a m rfl rfl hacc
    rw [hsame fun m h => (nomatch h)]
    obtain ⟨hsafe, hheld⟩ := hF.finish hacc hok hwal hsnap hs
    exact ⟨hsafe, fun h => hheld (Or.inl h)⟩
  | @stuck io a m hd hacc _ =>
    subst hd
    obtain ⟨hok, -, -⟩ := hL.accepts io a m rfl rfl hacc
    rw [hsame fun m h => (nomatch h)]
    exact hF.stuck hacc hok hs
  | snapshot io =>
    rw [hsame fun m h => (nomatch h)]
    exact hs.snapshot (hL.snapshot io rfl)
  | adopted hd => exact absurd hd (hL.noAdoption _ rfl)

/-- **Step lemma, reopenings.**  The entry is blank only when it holds nothing. -/
theorem Fact.Lasting.reopen (hF : F.Lasting)
    (hblank : ∀ e : Entry, e.blank = true → ¬ F.held e.doc e.deleted) {s : Inner}
    {extra : List Model} {d : DocId}
    (hlogged : ∀ b ∈ s.disk.alog[d]?.getD [], F.ok s.models b → F.ok (loadedModels extra) b)
    (hs : F.Safe s.models (s.view d)) :
    F.Safe (s.happen (.reopen extra)).models ((s.happen (.reopen extra)).view d) ∧
      (F.Held (s.view d) → F.Held ((s.happen (.reopen extra)).view d)) := by
  have hmodels := models_reopened s extra
  have hok : ∀ b ∈ s.disk.alog[d]?.getD [], F.ok (loadedModels extra) b := by
    intro b hb
    refine hlogged b hb ?_
    cases hl : s.disk.alog[d]? with
    | none => rw [hl] at hb; exact absurd hb List.not_mem_nil
    | some l => rw [hl] at hb; exact hs.alog l hl b hb
  obtain ⟨hbase, hmark⟩ := Fact.Safe.replayBase hF (s := s.withModels (loadedModels extra)) (d := d)
    (s.disk.alog[d]?.getD []) hs.snap
  obtain ⟨hrep, hheld⟩ := hF.foldl_replayStep (s := s.withModels (loadedModels extra))
    (l := s.disk.alog[d]?.getD []) hok
    (fun b hb => mem_sortLog.mp hb) hbase
  rw [hmodels, view_reopened]
  have hrec := replayed_eq_foldl (s.withModels (loadedModels extra)) d
  constructor
  · refine ⟨fun e he => ?_, hs.snap, fun l hl b hb => ?_⟩
    · dsimp only at he
      split at he
      · rw [← Option.some.inj he, hrec]
        exact ⟨hrep.safe, fun b hb => hok b (hrep.log b hb)⟩
      · exact nomatch he
    · refine hok b ?_
      rw [show s.disk.alog[d]? = some l from hl]
      exact hb
  · rintro ⟨-, ⟨l, hl, hfiles⟩⟩
    have halog : s.disk.alog[d]? = some l := hl
    have hl' : s.disk.alog[d]?.getD [] = l := by rw [halog]; rfl
    -- the WAL brings the fact back
    have hh : F.held ((s.withModels (loadedModels extra)).replayed d).doc
        ((s.withModels (loadedModels extra)).replayed d).deleted := by
      rw [hrec]
      refine hheld ?_
      rcases hmark (by rw [hl']; exact hfiles) with h | ⟨b, hb, hmk⟩
      · exact Or.inl h
      · exact Or.inr ⟨b, mem_sortLog.mpr hb, hmk⟩
    have hnot : ((s.withModels (loadedModels extra)).replayed d).blank = false := by
      rw [← Bool.not_eq_true]
      exact fun hb => hblank _ hb hh
    rw [if_pos ⟨by rw [halog]; rfl, hnot⟩]
    refine ⟨⟨_, rfl, hh, ?_⟩, ⟨l, halog, hfiles⟩⟩
    rw [hrec] at hh ⊢
    exact hrep.records hh

/-- **A lasting fact.**  In every lifetime from a new store whose steps all let it last: everything
    is safe, and once a mark of `d` has been accepted the fact is held. -/
theorem Fact.Lasting.lifetime (hF : F.Lasting)
    (hblank : ∀ e : Entry, e.blank = true → ¬ F.held e.doc e.deleted)
    {P : Inner → List Action → Happening → Prop} {d : DocId} {key : SigningKey} {origin : Origin}
    {extra : List Model} {s : Inner} {acc : List Action}
    (hlife : Lifetime P (Store.fresh key origin extra) s acc)
    (hP : ∀ s acc h, Lifetime P (Store.fresh key origin extra) s acc → P s acc h →
      F.Lasts d s h) :
    F.Safe s.models (s.view d) ∧
      ((∃ a ∈ acc, a.docId = d ∧ F.marks a = true) → F.Held (s.view d)) := by
  induction hlife with
  | start =>
    rw [Store.fresh_view]
    refine ⟨⟨fun e he => (nomatch he), fun st hst => (nomatch hst), fun l hl => (nomatch hl)⟩, ?_⟩
    rintro ⟨a, ha, -⟩
    exact absurd ha List.not_mem_nil
  | @step s acc hl h hen hPs ih =>
    obtain ⟨hs, hh⟩ := ih
    have hL := hP s acc h hl hPs
    have hstep : F.Safe (s.happen h).models ((s.happen h).view d) ∧
        (F.Held (s.view d) → F.Held ((s.happen h).view d)) := by
      cases h with
      | event ev => exact hF.event hen hL hs
      | reopen extra =>
        refine hF.reopen hblank (fun b hb hok => ?_) hs
        rw [← models_reopened s extra]
        exact hL.models b (Or.inr hb) hok
    refine ⟨hstep.1, ?_⟩
    rintro ⟨a, ha, rfl, hmark⟩
    rcases List.mem_append.mp ha with ha | ha
    · exact hstep.2 (hh ⟨a, ha, rfl, hmark⟩)
    · -- the mark is accepted now
      obtain ⟨io, rfl, hok⟩ := mem_acceptedBy ha
      show F.Held ((s.applyAction io a).1.view a.docId)
      rcases s.applyAction_cases io a with
        ⟨r, -, heq⟩ | ⟨m, r, -, -, heq⟩ | ⟨m, msg, -, -, heq⟩ | ⟨m, hacc, any, del, heq⟩
      · rw [heq] at hok; exact nomatch hok
      · rw [heq] at hok; exact nomatch hok
      · rw [heq] at hok; exact nomatch hok
      · obtain ⟨haok, hwal, hsnap⟩ := hL.accepts io a m rfl rfl hacc
        rw [heq, Inner.view_finishApply, if_pos rfl, Inner.view_putEntry, if_pos rfl]
        exact (hF.finish hacc haok hwal hsnap hs).2 (Or.inr hmark)

end

end PhReactor
