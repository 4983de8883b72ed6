/-
  What the store hands to the sync layer.

  A local action is put on the outbound queue, and sent on the feed once that is connected, when it
  is APPLIED: when it has changed the document it met.  An accepted action that changes nothing (a
  delete of an absent field, a write on a deleted document, a reducer without writes) is logged and
  durable and is not offered (`accepted_not_offered`); it travels by catch-up only.

  `Ledger` is the history of a run: the local actions that were applied, in the order of their
  acceptance, and what the queue has handed over.  `offered_exactly_once` says that history and
  store agree in every run: queue and feed carry the applied local actions, each once per
  acceptance, in that order, and nothing else.
-/
import PhReactor.Store.Failures

set_option linter.unusedSectionVars false

namespace PhReactor

section

variable [Primitives]

/-! ## What one action adds to the queue -/

/-- The action is accepted, and folded into its document. -/
def Inner.folds (s : Inner) (a : Action) : Bool := s.accepts a && !s.refoldStuck a

/-- The action is offered: a local one that is folded and changes the entry it meets. -/
def Inner.offers (s : Inner) (a : Action) : Bool :=
  decide (a.origin = s.origin) && s.folds a && changes s.models (s.entryFor a.docId) a

/-- The queue and the feed. -/
def Inner.outlets (s : Inner) : List Action × Option (List Action) := (s.outbound, s.outboundFeed)

/-- `a` put on both. -/
def offer (a : Action) (p : List Action × Option (List Action)) :
    List Action × Option (List Action) :=
  (p.1 ++ [a], p.2.map fun sent => sent ++ [a])

theorem outlets_publish (s : Inner) (a : Action) :
    (s.publish a).outlets = if a.origin = s.origin then offer a s.outlets else s.outlets := by
  unfold Inner.publish
  dsimp only
  split <;> rfl

theorem outlets_persistAction (s : Inner) (io : Io) (a : Action) :
    (s.persistAction io a).outlets = s.outlets := by
  unfold Inner.persistAction
  split <;> rfl

theorem outlets_snapshot (s : Inner) (io : Io) (id : DocId) :
    (s.snapshot io id).1.outlets = s.outlets := by
  unfold Inner.snapshot
  repeat' split
  all_goals rfl

theorem outlets_recorded (s : Inner) (io : Io) (a : Action) (any : Bool) :
    (s.recorded io a any).1.outlets =
      if any = true ∧ a.origin = s.origin then offer a s.outlets else s.outlets := by
  have hauto : ∀ t : Inner, (t.autoSnapshot io a.docId).1.outlets = t.outlets := by
    intro t
    unfold Inner.autoSnapshot
    split
    · exact outlets_snapshot t io a.docId
    · rfl
  have horigin : (s.persistAction io a).origin = s.origin := by
    unfold Inner.persistAction
    split <;> rfl
  unfold Inner.recorded
  rw [hauto]
  cases any with
  | false => simpa using outlets_persistAction s io a
  | true =>
    rw [if_pos rfl, outlets_publish, outlets_persistAction, horigin]
    simp

theorem outlets_finishApply (s : Inner) (io : Io) (a : Action) (any del : Bool) :
    (s.finishApply io a any del).1.outlets =
      if any = true ∧ a.origin = s.origin then offer a s.outlets else s.outlets := by
  have hindex : ∀ t : Inner, (t.indexName a.docId).outlets = t.outlets := by
    intro t
    unfold Inner.indexName
    repeat' split
    all_goals rfl
  have hemit : ∀ t : Inner, (t.emitChange a.docId a.ts (some a)).outlets = t.outlets := by
    intro t
    unfold Inner.emitChange
    split <;> rfl
  rw [← outlets_recorded s io a any]
  rcases s.finishApply_cases io a any del with ⟨⟨e, heq⟩, -⟩ | ⟨-, heq⟩
  · rw [heq]
  · rw [heq]
    dsimp only
    split
    · rw [hemit, hindex]
    · exact hindex _

/-- **What one action adds**: itself, when it is offered. -/
theorem outlets_applyAction (s : Inner) (io : Io) (a : Action) :
    (s.applyAction io a).1.outlets = if s.offers a then offer a s.outlets else s.outlets := by
  unfold Inner.offers Inner.folds
  cases hacc : s.accepts a with
  | false =>
    obtain ⟨msg, ⟨heq, -⟩ | ⟨heq, -⟩⟩ := Inner.applyAction_refused hacc io <;>
      simp [heq, Inner.outlets, Inner.putEntry]
  | true =>
    obtain ⟨m, hacc⟩ := Inner.accepts_iff.mp hacc
    cases hstuck : s.refoldStuck a with
    | true =>
      obtain ⟨msg, heq⟩ := Inner.applyAction_stuck hacc hstuck io
      simp [heq, Inner.outlets, Inner.putEntry]
    | false =>
      rw [Inner.applyAction_settled hacc hstuck, outlets_finishApply]
      by_cases horigin : a.origin = s.origin <;>
        simp [Inner.putEntry, Inner.outlets, horigin]

/-! ## The history of a run -/

/-- What has happened to the local actions of a run. -/
structure Ledger where
  /-- Those that were accepted and folded in, in the order of their acceptance. -/
  folded : List Action
  /-- Those of them that changed the entry they met: the applied ones. -/
  applied : List Action
  /-- What the queue has handed over. -/
  drained : List Action
  /-- The applied ones since the feed was connected. -/
  live : Option (List Action)

/-- The history after one more event. -/
def Ledger.step (g : Ledger) (s : Inner) : Event → Ledger
  | .applyAction _ a =>
    if a.origin = s.origin ∧ s.folds a = true then
      { g with
        folded := g.folded ++ [a]
        applied := if changes s.models (s.entryFor a.docId) a then g.applied ++ [a] else g.applied
        live := if changes s.models (s.entryFor a.docId) a then g.live.map fun l => l ++ [a]
          else g.live }
    else g
  | .drainOutbound => { g with drained := g.drained ++ s.outbound }
  | .connectOutbound => { g with live := some [] }
  | _ => g

/-- A run of events from `s₀`, with its history. -/
inductive LedgerRun (s₀ : Inner) : Inner → Ledger → Prop
  | start : LedgerRun s₀ s₀ ⟨[], [], [], none⟩
  | step {s : Inner} {g : Ledger} (h : LedgerRun s₀ s g) (ev : Event) :
    LedgerRun s₀ (s.exec ev) (g.step s ev)

/-- History and store agree. -/
structure LedgerInv (me : Origin) (s : Inner) (g : Ledger) : Prop where
  origin : s.origin = me
  queue : g.drained ++ s.outbound = g.applied
  feed : s.outboundFeed = g.live
  live : ∀ l, g.live = some l → l <:+ g.applied
  sublist : g.applied.Sublist g.folded
  local_ : ∀ a ∈ g.folded, a.origin = me

/-- Only applied actions, draining and connecting move queue and feed. -/
theorem outlets_exec (s : Inner) (ev : Event) (ha : ∀ io a, ev ≠ .applyAction io a)
    (hd : ev ≠ .drainOutbound) (hc : ev ≠ .connectOutbound) :
    (s.exec ev).outlets = s.outlets := by
  cases ev with
  | applyAction io a => exact absurd rfl (ha io a)
  | drainOutbound => exact absurd rfl hd
  | connectOutbound => exact absurd rfl hc
  | snapshot io id => exact outlets_snapshot s io id
  | adoptState st =>
    show (Inner.emitChange _ _ _ _).outlets = _
    unfold Inner.emitChange
    split <;> rfl
  | registerPeerKey o k =>
    show (Store.registerPeerKey s o k).1.outlets = _
    unfold Store.registerPeerKey
    repeat' split
    all_goals rfl
  | newEntry id sp => rfl
  | nextTs now => rfl
  | bindName name id => rfl
  | addModel m => rfl
  | subscribeChanges => rfl

/-- **Step lemma**: an action keeps history and store in agreement. -/
theorem ledgerInv_applyAction {me : Origin} {s : Inner} {g : Ledger} (h : LedgerInv me s g)
    (io : Io) (a : Action) :
    LedgerInv me (s.exec (.applyAction io a)) (g.step s (.applyAction io a)) := by
  have horigin : (s.exec (.applyAction io a)).origin = me :=
    (s.origin_exec _).trans h.origin
  have hout := outlets_applyAction s io a
  unfold Inner.offers at hout
  unfold Ledger.step
  dsimp only
  by_cases hlocal : a.origin = s.origin ∧ s.folds a = true
  · obtain ⟨hown, hfolds⟩ := hlocal
    have hall : ∀ b ∈ g.folded ++ [a], b.origin = me := by
      intro b hb
      rcases List.mem_append.mp hb with hb | hb
      · exact h.local_ b hb
      · rw [List.mem_singleton.mp hb, hown, h.origin]
    rw [if_pos ⟨hown, hfolds⟩]
    rw [decide_eq_true hown, hfolds, Bool.true_and, Bool.true_and] at hout
    cases hch : changes s.models (s.entryFor a.docId) a with
    | true =>
      rw [hch, if_pos rfl] at hout
      have hqueue : (s.exec (.applyAction io a)).outbound = s.outbound ++ [a] :=
        congrArg Prod.fst hout
      have hfeed : (s.exec (.applyAction io a)).outboundFeed =
          s.outboundFeed.map fun sent => sent ++ [a] := congrArg Prod.snd hout
      refine ⟨horigin, ?_, ?_, ?_, ?_, hall⟩
      · show g.drained ++ _ = g.applied ++ [a]
        rw [hqueue, ← List.append_assoc, h.queue]
      · show _ = g.live.map fun l => l ++ [a]
        rw [hfeed, h.feed]
      · intro l hl
        obtain ⟨l', hl', rfl⟩ := Option.map_eq_some_iff.mp
          (show (g.live.map fun l => l ++ [a]) = some l from hl)
        obtain ⟨pre, hpre⟩ := h.live l' hl'
        exact ⟨pre, by rw [← List.append_assoc, hpre]; rfl⟩
      · exact h.sublist.append (List.Sublist.refl [a])
    | false =>
      rw [hch, if_neg Bool.false_ne_true] at hout
      refine ⟨horigin, ?_, ?_, h.live, ?_, hall⟩
      · show g.drained ++ (s.exec (.applyAction io a)).outbound = g.applied
        rw [show (s.exec (.applyAction io a)).outbound = s.outbound from congrArg Prod.fst hout,
          h.queue]
      · exact (congrArg Prod.snd hout).trans h.feed
      · exact h.sublist.trans (List.sublist_append_left _ _)
  · -- a remote action, or one that is not folded
    rw [if_neg hlocal]
    have hno : (decide (a.origin = s.origin) && s.folds a &&
        changes s.models (s.entryFor a.docId) a) = false := by
      rw [Bool.and_eq_false_iff, Bool.and_eq_false_iff]
      left
      by_contra hyes
      push Not at hyes
      exact hlocal ⟨of_decide_eq_true (Bool.not_eq_false _ ▸ hyes.1), by simpa using hyes.2⟩
    rw [hno, if_neg Bool.false_ne_true] at hout
    refine ⟨horigin, ?_, (congrArg Prod.snd hout).trans h.feed, h.live, h.sublist, h.local_⟩
    rw [show (s.exec (.applyAction io a)).outbound = s.outbound from congrArg Prod.fst hout,
      h.queue]

/-- **Step lemma**: every event keeps history and store in agreement. -/
theorem ledgerInv_exec {me : Origin} {s : Inner} {g : Ledger} (h : LedgerInv me s g)
    (ev : Event) : LedgerInv me (s.exec ev) (g.step s ev) := by
  have horigin : (s.exec ev).origin = me := (s.origin_exec ev).trans h.origin
  by_cases ha : ∃ io a, ev = .applyAction io a
  · obtain ⟨io, a, rfl⟩ := ha
    exact ledgerInv_applyAction h io a
  by_cases hd : ev = .drainOutbound
  · subst hd
    refine ⟨horigin, ?_, h.feed, h.live, h.sublist, h.local_⟩
    show (g.drained ++ s.outbound) ++ [] = g.applied
    rw [List.append_nil, h.queue]
  by_cases hc : ev = .connectOutbound
  · subst hc
    refine ⟨horigin, h.queue, rfl, ?_, h.sublist, h.local_⟩
    intro l hl
    obtain rfl : [] = l := Option.some.inj hl
    exact List.nil_suffix
  -- nothing else touches either side
  have hout := outlets_exec s ev (fun io a heq => ha ⟨io, a, heq⟩) hd hc
  have hstep : g.step s ev = g := by
    cases ev with
    | applyAction io a => exact absurd ⟨io, a, rfl⟩ ha
    | drainOutbound => exact absurd rfl hd
    | connectOutbound => exact absurd rfl hc
    | _ => rfl
  rw [hstep]
  refine ⟨horigin, ?_, (congrArg Prod.snd hout).trans h.feed, h.live, h.sublist, h.local_⟩
  rw [show (s.exec ev).outbound = s.outbound from congrArg Prod.fst hout, h.queue]

/-! ## Whole runs -/

/-- A store that was just opened has nothing on offer. -/
theorem outlets_openWithModels (disk : Disk) (key : SigningKey) (me : Origin)
    (extra : List Model) : (Store.openWithModels disk key me extra).outlets = ([], none) ∧
      (Store.openWithModels disk key me extra).origin = me := by
  have hdoc : ∀ (s : Inner) (id : DocId), (s.replayDoc id).outlets = s.outlets ∧
      (s.replayDoc id).origin = s.origin := by
    intro s id
    rw [replayDoc_eq]
    split <;> exact ⟨rfl, rfl⟩
  have hloop : ∀ (ids : List DocId) (s : Inner),
      (ids.foldl (fun s id => s.replayDoc id) s).outlets = s.outlets ∧
        (ids.foldl (fun s id => s.replayDoc id) s).origin = s.origin := by
    intro ids
    induction ids with
    | nil => exact fun s => ⟨rfl, rfl⟩
    | cons id ids ih =>
      intro s
      obtain ⟨hout, horigin⟩ := ih (s.replayDoc id)
      exact ⟨hout.trans (hdoc s id).1, horigin.trans (hdoc s id).2⟩
  exact hloop _ _

theorem ledgerInv_run {disk : Disk} {key : SigningKey} {me : Origin} {extra : List Model}
    {s : Inner} {g : Ledger} (h : LedgerRun (Store.openWithModels disk key me extra) s g) :
    LedgerInv me s g := by
  induction h with
  | start =>
    obtain ⟨hout, horigin⟩ := outlets_openWithModels disk key me extra
    refine ⟨horigin, congrArg Prod.fst hout, congrArg Prod.snd hout, ?_, List.Sublist.refl _, ?_⟩
    · intro l hl
      cases hl
    · exact fun a ha => absurd ha List.not_mem_nil
  | step _ ev ih => exact ledgerInv_exec ih ev

/-- `a` and `b` stand in their document's log as they are listed. -/
def LogOrder (a b : Action) : Prop := a.docId = b.docId → canonKey a ≤ canonKey b

instance (a b : Action) : Decidable (LogOrder a b) := inferInstanceAs (Decidable (_ → _))

end

section

open Sample

attribute [local instance] Sample.primitives

/-! ### Runs to evaluate -/

/-- The history after a list of events. -/
def Ledger.along (g : Ledger) (s : Inner) : List Event → Ledger
  | [] => g
  | ev :: evs => (g.step s ev).along (s.exec ev) evs

theorem ledgerRun_along {s₀ : Inner} : ∀ (evs : List Event) {s : Inner} {g : Ledger},
    LedgerRun s₀ s g → LedgerRun s₀ (s.execAll evs) (g.along s evs)
  | [], _, _, h => h
  | ev :: evs, _, _, h => ledgerRun_along evs (h.step ev)

/-- Alice's store when it is opened for the first time. -/
def openedStore : Inner := Store.openWithModels Store.emptyDisk alice.key alice.name []

/-- Alice creates her notes. -/
def createNotes : List Event :=
  Call.events openedStore (.createDoc Io.ok (fun _ => 7) docId "notes" ∅)

/-- She deletes a field the notes do not have. -/
def deleteGhost : List Event :=
  createNotes ++
    Call.events (openedStore.execAll createNotes) (.deleteField Io.ok 8 "notes" "ghost")

/-- She builds a proposal, sets another field, and submits the proposal. -/
def overtakesHerself : List Event :=
  let s₁ := openedStore.execAll createNotes
  let build := Store.buildLocalAction s₁ 8 "notes" openRef "set"
    (Store.setPayload "title" (.string "plan"))
  createNotes ++ [.nextTs 8] ++
    Call.events build.1 (.updateField Io.ok 9 "notes" "body" (.string "text")) ++
    build.2.toOption.toList.map (.applyAction Io.ok)

/-- Connected before the notes are created, the feed carries their `create`; so does the queue. -/
def feedFirst : List Event := .connectOutbound :: createNotes

end

end PhReactor
