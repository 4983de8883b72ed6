/-
  The exact outcome of one call of `applyAction`.

  `applyAction_cases` lists what a call can do; here it is said WHEN it does which, and what it
  answers.  An action that passes every check is always appended to its log.  Two things can still
  go wrong after that, and both return an error:

  1. the action is out of order and the re-fold misses a model of the log (`refoldStuck`): the
     action is in the log, unfolded, and in no file;

  2. the live log has reached the threshold and the snapshot is not written (`snapshotDue`): the
     action is folded and in the WAL, but neither the name index nor the change feed has moved.

  `isOk_applyAction` collects the answers.  The flags that `finishApply` gets are named too: the
  first is `changes` on the entry the action met, the second the deleted flag it left.
-/
import PhReactor.Store.Restart

set_option linter.unusedSectionVars false

namespace PhReactor

variable [Primitives]

/-! ## What can go wrong after the checks -/

/-- The action needs a re-fold, and a model of its document's log is gone. -/
def Inner.refoldStuck (s : Inner) (a : Action) : Bool :=
  s.outOfOrder a && (s.entryFor a.docId).log.any fun b => (s.models.find b.model).isNone

/-- With the action the live log reaches the snapshot threshold. -/
def Inner.snapshotDue (s : Inner) (a : Action) : Bool :=
  decide (snapshotOps ≤ (s.entryFor a.docId).log.length + 1)

/-- The models of a log with an accepted action are there when those of the old log are. -/
theorem resolves_appended_iff {s : Inner} {a : Action} {m : Model} (hacc : s.Accepted a m) :
    s.models.Resolves (appended (s.entryFor a.docId) m a).log ↔
      ((s.entryFor a.docId).log.any fun b => (s.models.find b.model).isNone) = false := by
  rw [List.any_eq_false]
  constructor
  · intro h b hb hnone
    have := h b (List.mem_append_left _ hb)
    rw [Option.isNone_iff_eq_none.mp hnone] at this
    cases this
  · intro h
    refine ModelRegistry.Resolves.concat (fun b hb => ?_) hacc.model
    exact Option.isSome_iff_ne_none.mpr fun hnone => h b hb (by rw [hnone]; rfl)

/-- With the models of the log no re-fold misses one. -/
theorem refoldStuck_of_resolves {s : Inner} {a : Action}
    (h : s.models.Resolves (s.entryFor a.docId).log) : s.refoldStuck a = false := by
  unfold Inner.refoldStuck
  rw [Bool.and_eq_false_iff]
  refine Or.inr (List.any_eq_false.mpr fun b hb hnone => ?_)
  have hsome := h b hb
  rw [Option.isNone_iff_eq_none.mp hnone] at hsome
  exact nomatch hsome

/-- The space stamp of a first action does not matter to whether the action changes anything. -/
theorem changes_eq {s : Inner} {a : Action} {m : Model} (hm : s.models.find a.model = some m)
    (e : Entry) : (applyOpsToEntry (if e.log.isEmpty then { e with space := a.space } else e) m
      a).2.1 = changes s.models e a := by
  rw [(sameDoc_stamped e a).applied_eq m a]
  unfold changes
  rw [hm]
  rfl

/-- An action touches no document but its own. -/
theorem view_applyAction_ne (s : Inner) (io : Io) {a : Action} {d : DocId} (hd : d ≠ a.docId) :
    (s.applyAction io a).1.view d = s.view d := by
  rcases s.applyAction_cases io a with
    ⟨r, -, heq⟩ | ⟨m, r, -, -, heq⟩ | ⟨m, msg, -, -, heq⟩ | ⟨m, -, any, del, heq⟩
  · rw [heq]
    rfl
  · have hput := s.view_putEntry a.docId (s.entryFor a.docId) d
    rw [if_neg hd] at hput
    rw [heq]
    exact hput
  · rw [heq, Inner.view_putEntry, if_neg hd]
  · rw [heq, Inner.view_finishApply, if_neg hd, Inner.view_putEntry, if_neg hd]

/-! ## Refused actions -/

/-- **A refused action** changes the quarantine counter and nothing else, except that a failed
    precondition on an unknown document leaves a blank entry behind. -/
theorem Inner.applyAction_refused {s : Inner} {a : Action} (h : s.accepts a = false) (io : Io) :
    ∃ msg, (s.applyAction io a = ({ s with quarantined := s.quarantined + 1 }, .error msg) ∧
        ((∃ r, s.screen a = .error r) ∨ s.entries[a.docId]?.isSome = true)) ∨
      (s.applyAction io a =
          ({ s.putEntry a.docId (Entry.new a.docId) with quarantined := s.quarantined + 1 },
            .error msg) ∧
        (∃ m, s.screen a = .ok m) ∧ s.entries[a.docId]? = none) := by
  rcases s.applyAction_cases io a with
    ⟨r, hscreen, heq⟩ | ⟨m, r, hadm, -, heq⟩ | ⟨m, msg, hacc, -⟩ | ⟨m, hacc, -⟩
  · exact ⟨r, Or.inl ⟨heq, Or.inl ⟨r, hscreen⟩⟩⟩
  · refine ⟨r.describe, ?_⟩
    cases he : s.entries[a.docId]? with
    | none =>
      rw [entryFor_of_none he] at heq
      exact Or.inr ⟨heq, ⟨m, Inner.screen_ok.mpr hadm⟩, rfl⟩
    | some e =>
      -- the entry that is put back is the one that was there
      refine Or.inl ⟨?_, Or.inr rfl⟩
      rw [heq, entryFor_eq he]
      unfold Inner.putEntry
      rw [Lib.insert_of_getElem? he]
  · rw [Inner.accepts_iff.mpr ⟨m, hacc⟩] at h; cases h
  · rw [Inner.accepts_iff.mpr ⟨m, hacc⟩] at h; cases h

/-! ## Accepted actions -/

/-- The loop that collects the models of a log succeeds only if they are all there. -/
theorem resolves_of_mapM {r : ModelRegistry} : ∀ (log : List Action) (models : List Model),
    log.mapM (fun a =>
      match r.find a.model with
      | some m => Except.ok m
      | none => .error ("model " ++ a.model.name ++ " unavailable for re-fold")) = .ok models →
    r.Resolves log
  | [], _, _ => fun _ hb => absurd hb List.not_mem_nil
  | a :: log, models, h => by
    rw [List.mapM_cons, bind_eq_ok] at h
    obtain ⟨m, hm, h⟩ := h
    rw [bind_eq_ok] at h
    obtain ⟨rest, hrest, -⟩ := h
    intro b hb
    rcases List.mem_cons.mp hb with rfl | hb
    · cases hf : r.find b.model with
      | none => rw [hf] at hm; cases hm
      | some m' => rfl
    · exact resolves_of_mapM log rest hrest b hb

/-- A re-fold that misses a model fails. -/
theorem Inner.refold_error {s : Inner} {id : DocId} {e : Entry} (he : s.entries[id]? = some e)
    (hres : ¬ s.models.Resolves e.log) : ∃ msg, s.refold id = .error msg := by
  unfold Inner.refold
  rw [he]
  dsimp only
  cases hm : (sortLog e.log).mapM fun a =>
      match s.models.find a.model with
      | some m => Except.ok m
      | none => .error ("model " ++ a.model.name ++ " unavailable for re-fold") with
  | error msg => exact ⟨msg, rfl⟩
  | ok models =>
    have hall := resolves_of_mapM _ _ hm
    exact absurd (fun b hb => hall b (mem_sortLog.mpr hb)) hres

/-- **An accepted action**, with the flags it passes on. -/
theorem Inner.applyAction_accepted {s : Inner} {a : Action} {m : Model} (hacc : s.Accepted a m)
    (io : Io) : s.applyAction io a =
      if s.outOfOrder a then
        match (s.putEntry a.docId (appended (s.entryFor a.docId) m a)).refold a.docId with
        | .error e => (s.putEntry a.docId (appended (s.entryFor a.docId) m a), .error e)
        | .ok t => t.finishApply io a (changes s.models (s.entryFor a.docId) a)
            (appended (s.entryFor a.docId) m a).deleted
      else (s.putEntry a.docId (appended (s.entryFor a.docId) m a)).finishApply io a
        (changes s.models (s.entryFor a.docId) a) (appended (s.entryFor a.docId) m a).deleted := by
  have hany := changes_eq hacc.model (s.entryFor a.docId)
  have hdel := deleted_applyOpsToEntry
    (if (s.entryFor a.docId).log.isEmpty then { s.entryFor a.docId with space := a.space }
      else s.entryFor a.docId) m a
  have hlog : (applyOpsToEntry (if (s.entryFor a.docId).log.isEmpty then
      { s.entryFor a.docId with space := a.space } else s.entryFor a.docId) m a).1.log =
      (s.entryFor a.docId).log := by
    rw [log_applyOpsToEntry]
    split <;> rfl
  unfold Inner.applyAction
  rw [Inner.screen_ok.mpr hacc.toAdmits]
  dsimp only
  rw [show s.entries[a.docId]?.getD (Entry.new a.docId) = s.entryFor a.docId from rfl,
    hacc.precondition]
  dsimp only
  rw [hany, hdel, hlog]
  rfl

/-- An accepted action whose re-fold misses a model stays in the log as it was appended. -/
theorem Inner.applyAction_stuck {s : Inner} {a : Action} {m : Model} (hacc : s.Accepted a m)
    (h : s.refoldStuck a = true) (io : Io) : ∃ msg, s.applyAction io a =
      (s.putEntry a.docId (appended (s.entryFor a.docId) m a), .error msg) := by
  unfold Inner.refoldStuck at h
  rw [Bool.and_eq_true] at h
  rw [Inner.applyAction_accepted hacc, if_pos h.1]
  have hget : (s.putEntry a.docId (appended (s.entryFor a.docId) m a)).entries[a.docId]? =
      some (appended (s.entryFor a.docId) m a) := by simp [Inner.putEntry]
  have hno : ¬ s.models.Resolves (appended (s.entryFor a.docId) m a).log := by
    rw [resolves_appended_iff hacc, h.2]
    exact fun h => by cases h
  obtain ⟨msg, herr⟩ := Inner.refold_error hget hno
  exact ⟨msg, by rw [herr]⟩

/-- An accepted action whose re-fold, if it needs one, finds its models is settled. -/
theorem Inner.applyAction_settled {s : Inner} {a : Action} {m : Model} (hacc : s.Accepted a m)
    (h : s.refoldStuck a = false) (io : Io) : s.applyAction io a =
      (s.putEntry a.docId (s.settled a m)).finishApply io a
        (changes s.models (s.entryFor a.docId) a)
        (appended (s.entryFor a.docId) m a).deleted := by
  rw [Inner.applyAction_accepted hacc]
  cases hord : s.outOfOrder a with
  | false =>
    rw [Inner.settled_of_inOrder hord]
    rfl
  | true =>
    unfold Inner.refoldStuck at h
    rw [hord, Bool.true_and] at h
    have hget : (s.putEntry a.docId (appended (s.entryFor a.docId) m a)).entries[a.docId]? =
        some (appended (s.entryFor a.docId) m a) := by simp [Inner.putEntry]
    rcases Inner.refold_cases _ hget with hok | ⟨-, hres⟩
    · rw [if_pos rfl, hok, Inner.putEntry_settled hord]
      rfl
    · exact absurd ((resolves_appended_iff hacc).mpr h) hres

/-- What the files and the entry of its document hold after an accepted action. -/
theorem view_applyAction_settled {s : Inner} {a : Action} {m : Model} (hacc : s.Accepted a m)
    (h : s.refoldStuck a = false) (io : Io) : (s.applyAction io a).1.view a.docId =
      View.finish { s.view a.docId with entry := some (s.settled a m) } io a := by
  rw [Inner.applyAction_settled hacc h, Inner.view_finishApply, if_pos rfl, Inner.view_putEntry,
    if_pos rfl]

/-! ## The answer -/

theorem length_settled_log (s : Inner) (a : Action) (m : Model) :
    (s.settled a m).log.length = (s.entryFor a.docId).log.length + 1 := by
  have happ : (appended (s.entryFor a.docId) m a).log.length =
      (s.entryFor a.docId).log.length + 1 := List.length_append
  unfold Inner.settled
  cases s.outOfOrder a with
  | false => exact happ
  | true => exact (Lib.canonSort_perm _ _).length_eq.trans happ

theorem entries_persist_publish (s : Inner) (io : Io) (a : Action) (any : Bool) :
    (if any then (s.persistAction io a).publish a else s.persistAction io a).entries =
      s.entries := by
  have hp : (s.persistAction io a).entries = s.entries := by
    unfold Inner.persistAction
    split <;> rfl
  cases any with
  | false => exact hp
  | true =>
    show ((s.persistAction io a).publish a).entries = s.entries
    rw [← hp]
    unfold Inner.publish
    dsimp only
    split <;> rfl

/-- WAL, publication and snapshot touch neither the name index nor the change feed. -/
theorem recorded_frame (s : Inner) (io : Io) (a : Action) (any : Bool) :
    (s.recorded io a any).1.names = s.names ∧
      (s.recorded io a any).1.subscribers = s.subscribers := by
  have hp : (s.persistAction io a).names = s.names ∧
      (s.persistAction io a).subscribers = s.subscribers := by
    unfold Inner.persistAction
    split <;> exact ⟨rfl, rfl⟩
  have hmid : (if any then (s.persistAction io a).publish a
        else s.persistAction io a).names = s.names ∧
      (if any then (s.persistAction io a).publish a
        else s.persistAction io a).subscribers = s.subscribers := by
    rw [← hp.1, ← hp.2]
    cases any with
    | false => exact ⟨rfl, rfl⟩
    | true =>
      rw [if_pos rfl]
      unfold Inner.publish
      dsimp only
      split <;> exact ⟨rfl, rfl⟩
  unfold Inner.recorded Inner.autoSnapshot
  generalize (if any then (s.persistAction io a).publish a else s.persistAction io a) = t at hmid ⊢
  rw [← hmid.1, ← hmid.2]
  split
  · unfold Inner.snapshot
    repeat' split
    all_goals exact ⟨rfl, rfl⟩
  · exact ⟨rfl, rfl⟩

/-- Writing the snapshot decides the answer of the steps after the fold, when one is due. -/
theorem Inner.recorded_snd {s : Inner} {a : Action} {e : Entry} (he : s.entries[a.docId]? = some e)
    (io : Io) (any : Bool) : (s.recorded io a any).2 = .ok () ↔
      (snapshotOps ≤ e.log.length → io.snap = .ok) := by
  have hget := entries_persist_publish s io a any
  unfold Inner.recorded Inner.autoSnapshot
  generalize (if any then (s.persistAction io a).publish a else s.persistAction io a) = t at hget ⊢
  rw [hget, he]
  show (if snapshotOps ≤ e.log.length then t.snapshot io a.docId else (t, .ok ())).2 = _ ↔ _
  by_cases hfull : snapshotOps ≤ e.log.length
  · rw [if_pos hfull]
    unfold Inner.snapshot
    rw [hget, he]
    dsimp only
    cases hw : io.snap with
    | ok => exact ⟨fun _ _ => rfl, fun _ => rfl⟩
    | failed =>
      constructor
      · intro h; cases h
      · intro h; cases h hfull
    | torn =>
      constructor
      · intro h; cases h
      · intro h; cases h hfull
  · rw [if_neg hfull]
    exact ⟨fun _ h => absurd h hfull, fun _ => rfl⟩

/-- The steps after the fold of an accepted action answer `Ok` when a due snapshot is written. -/
theorem recorded_settled {s : Inner} {a : Action} {m : Model} (io : Io) (any : Bool) :
    ((s.putEntry a.docId (s.settled a m)).recorded io a any).2 = .ok () ↔
      (s.snapshotDue a = true → io.snap = .ok) := by
  have hget : (s.putEntry a.docId (s.settled a m)).entries[a.docId]? = some (s.settled a m) := by
    simp [Inner.putEntry]
  rw [Inner.recorded_snd hget, length_settled_log]
  unfold Inner.snapshotDue
  rw [decide_eq_true_iff]

/-- Nothing goes wrong after the checks. -/
def Inner.Finishes (s : Inner) (io : Io) (a : Action) : Prop :=
  s.refoldStuck a = false ∧ (s.snapshotDue a = true → io.snap = .ok)

instance (s : Inner) (io : Io) (a : Action) : Decidable (s.Finishes io a) :=
  inferInstanceAs (Decidable (_ ∧ _))

/-- **When a call answers `Ok`**: the action passes every check, and nothing goes wrong after. -/
theorem Inner.isOk_applyAction (s : Inner) (io : Io) (a : Action) :
    (s.applyAction io a).2.isOk = true ↔ s.accepts a = true ∧ s.Finishes io a := by
  constructor
  · intro h
    obtain ⟨m, hacc⟩ := Inner.accepted_of_isOk io h
    refine ⟨Inner.accepts_iff.mpr ⟨m, hacc⟩, ?_⟩
    cases hstuck : s.refoldStuck a with
    | true =>
      obtain ⟨msg, heq⟩ := Inner.applyAction_stuck hacc hstuck io
      rw [heq] at h
      cases h
    | false =>
      refine ⟨hstuck, ?_⟩
      rw [Inner.applyAction_settled hacc hstuck] at h
      rcases Inner.finishApply_cases (s.putEntry a.docId (s.settled a m)) io a
        (changes s.models (s.entryFor a.docId) a) (appended (s.entryFor a.docId) m a).deleted with
        ⟨⟨e, heq⟩, -⟩ | ⟨hrec, -⟩
      · rw [heq] at h
        cases h
      · exact (recorded_settled io _).mp hrec
  · rintro ⟨hacc, hstuck, hdue⟩
    obtain ⟨m, hacc⟩ := Inner.accepts_iff.mp hacc
    rw [Inner.applyAction_settled hacc hstuck]
    rcases Inner.finishApply_cases (s.putEntry a.docId (s.settled a m)) io a
      (changes s.models (s.entryFor a.docId) a) (appended (s.entryFor a.docId) m a).deleted with
      ⟨-, hrec⟩ | ⟨-, heq⟩
    · exact absurd ((recorded_settled io _).mpr hdue) hrec
    · rw [heq]
      rfl

end PhReactor
