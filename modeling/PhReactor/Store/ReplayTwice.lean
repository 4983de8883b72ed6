/-
  A crash between writing a snapshot and truncating the WAL.

  `Inner::snapshot` writes `<id>.snap` and then empties `<id>.alog`.  A process that dies in
  between leaves BOTH: the state that all logged actions have made, and all logged actions.  The
  next start loads the state and reduces every action on top of it a second time.

  1. An op of an old action finds its field SETTLED: what stands there covers it, or beats its
     stamp (`Op.replaces`).  Its value is computed afresh and may well be another one, as
     `append` reads an array that has its item already, but whether an op counts depends on its
     clock, its stamp and on being a delete (`replaces_congr`), and these are the action's own.

  2. `Model.Absorbed m a fields`: in whatever state the action is reduced, it counts nowhere in
     `fields`.  An action that has just been applied is absorbed (`absorbed_self`), and it stays
     so under a later action that it does not beat (`Absorbed.step`).  Hence a fold that ends alive
     has absorbed its whole log (`absorbed_foldl`).

  3. The name is different: the reserved field is lifted out of the map, so that each replayed
     `set` of it counts AGAIN.  Yet a run of `set`s leaves the last one, whatever the name was
     before (`foldl_getD`).

  4. A document that the log has deleted takes no op at all, and the clock is a join over the log
     as a set (`logClock_eq_of_mem_iff`).

  `foldl_replayStep_reproduces` puts these together: replaying the log on top of its own fold gives
  the fold.
-/
import PhReactor.Store.Deletion
import PhReactor.Store.Messages

set_option linter.unusedSectionVars false

namespace PhReactor

/-! ## Ops that no longer count -/

/-- Whether an op counts is decided by its clock, its stamp and on being a delete. -/
theorem Op.replaces_congr {op op' : Op} (hnone : op'.value.isNone = op.value.isNone)
    (hclock : op'.clock = op.clock) (hstamp : op'.stamp = op.stamp) (cur : Option Field) :
    op'.replaces cur = op.replaces cur := by
  cases cur with
  | none =>
    show op'.value.isSome = op.value.isSome
    rw [← Option.not_isNone, ← Option.not_isNone, hnone]
  | some f =>
    unfold replaces
    rw [hclock, hstamp]

/-- A write of `a` does not replace what `b` has written. -/
def Action.StaleAfter (a b : Action) : Prop :=
  b.clock.covers a.clock = true ∨ a.clock.covers b.clock = false ∧ a.stamp ≤ b.stamp

theorem Action.StaleAfter.not_replaces {a b : Action} (h : a.StaleAfter b) (op op' : Op) :
    ¬ fieldRegister.takes (fieldRegister.put (stampOp b op')) (stampOp a op) = true := by
  have hver := fieldFromOp_version (stampOp b op')
  have hstamp := fieldFromOp_stamp (stampOp b op')
  show ¬ (!(fieldFromOp (stampOp b op')).version.covers a.clock &&
    (a.clock.covers (fieldFromOp (stampOp b op')).version ||
      decide ((fieldFromOp (stampOp b op')).stamp < a.stamp))) = true
  rw [hver, hstamp]
  rcases h with hcov | ⟨hnot, hle⟩
  · simp [show (stampOp b op').clock = b.clock from rfl, hcov]
  · simp [show (stampOp b op').clock = b.clock from rfl,
      show (stampOp b op').stamp = b.stamp from rfl, hnot, hle]

/-- In whatever state the action is reduced: it does not delete the document, and the first op on a
    key, which is the one that counts, does not replace what `fields` has there. -/
structure Model.Absorbed (m : Model) (a : Action) (fields : Std.ExtTreeMap String Field) :
    Prop where
  keyed : ∀ d ops, m.reduce d a = .ok ops → ∀ op ∈ ops, op.key ≠ none
  settled : ∀ d ops, m.reduce d a = .ok ops → ∀ k, k ≠ nameKey → ∀ op,
    ops.find? (fun op => op.key == some k) = some op →
      ¬ fieldRegister.takes fields[k]? (stampOp a op) = true

namespace Model

/-- **One state speaks for all.** -/
theorem Absorbed.of_reduce {m : Model} {a : Action} {fields : Std.ExtTreeMap String Field}
    {d : Doc} {ops : List Op} (h : m.reduce d a = .ok ops) (hkeyed : ∀ op ∈ ops, op.key ≠ none)
    (hsettled : ∀ k, k ≠ nameKey → ∀ op, ops.find? (fun op => op.key == some k) = some op →
      ¬ fieldRegister.takes fields[k]? (stampOp a op) = true) : m.Absorbed a fields := by
  -- a reduction in another state has ops of the same shape
  have hshape : ∀ d' ops', m.reduce d' a = .ok ops' → List.Forall₂ OpShape ops ops' := by
    intro d' ops' h'
    rcases m.reduce_shape d d' a with ⟨r, hr, -⟩ | ⟨ops₁, ops₂, h₁, h₂, hs⟩
    · rw [h] at hr; cases hr
    · obtain rfl := Except.ok.inj (h.symm.trans h₁)
      obtain rfl := Except.ok.inj (h'.symm.trans h₂)
      exact hs
  constructor
  · intro d' ops' h'
    apply key_ne_none_of_any
    rw [any_key_shape (hshape d' ops' h') Option.isNone, List.any_eq_false]
    intro op hop
    rw [Option.isNone_iff_eq_none]
    exact hkeyed op hop
  · intro d' ops' h' k hk op' hop'
    rcases find?_shape (hshape d' ops' h') k with ⟨-, hnone⟩ | ⟨op, op₂, hop, hop₂, hs⟩
    · rw [hnone] at hop'; cases hop'
    · obtain rfl := Option.some.inj (hop'.symm.trans hop₂)
      have hnone : (stampOp a op').value.isNone = (stampOp a op).value.isNone := by
        simpa [stampOp] using congrArg Option.isNone hs.text
      have hsame : (stampOp a op').replaces fields[k]? = (stampOp a op).replaces fields[k]? :=
        Op.replaces_congr hnone rfl rfl _
      show ¬ (stampOp a op').replaces fields[k]? = true
      rw [hsame]
      exact hsettled k hk op hop

/-- An action that its model does not reduce is absorbed everywhere. -/
theorem Absorbed.of_error {m : Model} {a : Action} {d : Doc} {r : Reject}
    (h : m.reduce d a = .error r) (fields : Std.ExtTreeMap String Field) : m.Absorbed a fields := by
  have hnone : ∀ d' ops', m.reduce d' a ≠ .ok ops' := by
    intro d' ops' h'
    rcases m.reduce_shape d d' a with ⟨r', -, hr⟩ | ⟨ops₁, ops₂, h₁, -, -⟩
    · rw [h'] at hr; cases hr
    · rw [h] at h₁; cases h₁
  exact ⟨fun d' ops' h' => absurd h' (hnone d' ops'), fun d' ops' h' => absurd h' (hnone d' ops')⟩

/-- A document that is alive after an action was alive before, and the action did not delete it. -/
theorem live_of_applied {m : Model} {a : Action} {e : Entry} {ops : List Op}
    (h : m.reduce e.doc a = .ok ops) (hlive : (applyOpsToEntry e m a).1.deleted = false) :
    e.deleted = false ∧ ∀ op ∈ ops, op.key ≠ none := by
  rw [deleted_applyOpsToEntry_ok h, Bool.or_eq_false_iff] at hlive
  exact ⟨hlive.1, key_ne_none_of_any hlive.2⟩

/-- **An action that has just been applied is absorbed.** -/
theorem absorbed_self {m : Model} {a : Action} {e : Entry}
    (hlive : (applyOpsToEntry e m a).1.deleted = false) :
    m.Absorbed a (applyOpsToEntry e m a).1.doc.fields := by
  cases h : m.reduce e.doc a with
  | error r => exact Absorbed.of_error h _
  | ok ops =>
    obtain ⟨hd, hkeyed⟩ := live_of_applied h hlive
    refine Absorbed.of_reduce h hkeyed fun k hk op hop => ?_
    rw [fields_applyOpsToEntry h hd hkeyed hk, hop]
    dsimp only
    rw [mergeField_eq_step]
    apply Lib.Register.not_takes_step_self
    apply Action.StaleAfter.not_replaces
    exact Or.inl (VecClock.covers_refl _)

/-- **It stays absorbed** under an action whose writes it does not replace. -/
theorem Absorbed.step {m m' : Model} {a b : Action} {e : Entry} (h : m.Absorbed a e.doc.fields)
    (hlive : (applyOpsToEntry e m' b).1.deleted = false) (hstale : a.StaleAfter b) :
    m.Absorbed a (applyOpsToEntry e m' b).1.doc.fields := by
  cases hred : m'.reduce e.doc b with
  | error r =>
    rw [applyOpsToEntry_error hred]
    exact h
  | ok ops' =>
    obtain ⟨hd, hkeyed⟩ := live_of_applied hred hlive
    refine ⟨h.keyed, fun d ops hops k hk op hop => ?_⟩
    have hbefore := h.settled d ops hops k hk op hop
    rw [fields_applyOpsToEntry hred hd hkeyed hk]
    cases ops'.find? fun op => op.key == some k with
    | none => exact hbefore
    | some op' =>
      dsimp only
      rw [mergeField_eq_step]
      exact Lib.Register.not_takes_step hbefore (hstale.not_replaces op op')

/-! ## The name -/

/-- The name an action gives its document, if any.  The state does not matter, so the blank
    document will do. -/
def names (m : Model) (a : Action) : Option String :=
  match m.reduce ⟨a.docId, "", ∅⟩ a with
  | .ok ops =>
    ((ops.find? fun op => op.key == some nameKey).bind Op.value).map fun v => v.asStr?.getD ""
  | .error _ => none

/-- On a document that stays alive the action gives that name, or leaves the old one. -/
theorem name_of_live {m : Model} {a : Action} {e : Entry} (hl : Lifted e.doc)
    (hlive : (applyOpsToEntry e m a).1.deleted = false) :
    (applyOpsToEntry e m a).1.doc.name = (m.names a).getD e.doc.name := by
  unfold names
  rcases m.reduce_shape e.doc ⟨a.docId, "", ∅⟩ a with ⟨r, h, h'⟩ | ⟨ops, ops', h, h', hshape⟩
  · rw [applyOpsToEntry_error h, h']
    rfl
  · obtain ⟨hd, hkeyed⟩ := live_of_applied h hlive
    rw [name_applyOpsToEntry h hd hkeyed hl, h']
    dsimp only
    rcases find?_shape hshape nameKey with ⟨hnone, hnone'⟩ | ⟨op, op', hop, hop', hs⟩
    · rw [hnone, hnone']
      rfl
    · have htext := hs.text
      rw [hop, hop', Option.bind_some, Option.bind_some]
      cases hv : op.value <;> cases hv' : op'.value <;> rw [hv, hv'] at htext <;> simp_all

end Model

/-- The name an action gives its document under the registry's model. -/
def namesIn (r : ModelRegistry) (a : Action) : Option String :=
  (r.find a.model).bind fun m => m.names a

theorem namesIn_eq {r : ModelRegistry} {a : Action} {m : Model} (hm : r.find a.model = some m) :
    namesIn r a = m.names a := by
  unfold namesIn
  rw [hm]
  rfl

/-- Of several values given one after the other the last one stays. -/
theorem foldl_getD {α β : Type} (g : α → Option β) : ∀ (l : List α) (b : β),
    l.foldl (fun b a => (g a).getD b) b = (l.filterMap g).getLast?.getD b := by
  intro l
  induction l with
  | nil => exact fun b => rfl
  | cons a l ih =>
    intro b
    rw [List.foldl_cons, ih]
    cases h : g a with
    | none => rw [List.filterMap_cons_none h]; rfl
    | some c =>
      rw [List.filterMap_cons_some h, List.getLast?_cons]
      cases (l.filterMap g).getLast? <;> rfl

/-- **So giving them all again changes nothing.** -/
theorem foldl_getD_twice {α β : Type} (g : α → Option β) (l : List α) (b : β) :
    l.foldl (fun b a => (g a).getD b) (l.foldl (fun b a => (g a).getD b) b) =
      l.foldl (fun b a => (g a).getD b) b := by
  rw [foldl_getD, foldl_getD]
  cases (l.filterMap g).getLast? <;> rfl

/-! ## The fold -/

section

variable [Primitives] {r : ModelRegistry}

theorem allPass_cons {e : Entry} {a : Action} {l : List Action} (h : allPass r e (a :: l) = true) :
    (∃ m, r.find a.model = some m ∧
      foldStep r e a = { (applyOpsToEntry e m a).1 with model := a.model }) ∧
    allPass r (foldStep r e a) l = true := by
  unfold allPass at h
  rw [Bool.and_eq_true, Bool.not_eq_true'] at h
  exact ⟨foldStep_of_passes h.1, h.2⟩

/-- A fold brings no document back. -/
theorem live_of_foldl {l : List Action} {e : Entry}
    (h : (l.foldl (foldStep r) e).deleted = false) : e.deleted = false := by
  by_contra hdel
  rw [Bool.not_eq_false] at hdel
  have hlasts : (l.foldl (foldStep r) e).deleted = true := by
    refine foldl_foldStep_induct (P := fun e => e.deleted = true) ?_ l e hdel
    intro e a m _ he
    rcases refoldStep_cases e a m with heq | ⟨-, -, heq⟩
    · rw [heq]; exact he
    · rw [heq]; exact deleted_applyOpsToEntry_mono he m a
  rw [h] at hlasts
  cases hlasts

/-- An action that is absorbed already stays so through a fold of actions that it does not beat. -/
theorem absorbed_through {m : Model} {a : Action} : ∀ (l : List Action) {e : Entry},
    allPass r e l = true → (l.foldl (foldStep r) e).deleted = false →
    (∀ b ∈ l, a.StaleAfter b) → m.Absorbed a e.doc.fields →
    m.Absorbed a (l.foldl (foldStep r) e).doc.fields := by
  intro l
  induction l with
  | nil => exact fun _ _ _ h => h
  | cons b l ih =>
    intro e hpass hlive hstale h
    obtain ⟨⟨m', -, hstep⟩, hrest⟩ := allPass_cons hpass
    refine ih hrest hlive (fun c hc => hstale c (List.mem_cons_of_mem b hc)) ?_
    have hafter : (foldStep r e b).deleted = false := live_of_foldl hlive
    rw [hstep] at hafter ⊢
    exact h.step hafter (hstale b List.mem_cons_self)

/-- **A fold that ends alive has absorbed its whole log.** -/
theorem absorbed_foldl : ∀ (l : List Action) {e : Entry}, allPass r e l = true →
    (l.foldl (foldStep r) e).deleted = false → l.Pairwise Action.StaleAfter →
    ∀ a ∈ l, ∃ m, r.find a.model = some m ∧
      m.Absorbed a (l.foldl (foldStep r) e).doc.fields := by
  intro l
  induction l with
  | nil => exact fun _ _ _ a ha => absurd ha List.not_mem_nil
  | cons b l ih =>
    intro e hpass hlive hpair a ha
    obtain ⟨⟨m, hm, hstep⟩, hrest⟩ := allPass_cons hpass
    obtain ⟨hstale, hpair⟩ := List.pairwise_cons.mp hpair
    rcases List.mem_cons.mp ha with rfl | ha
    · refine ⟨m, hm, absorbed_through l hrest hlive hstale ?_⟩
      have hafter : (foldStep r e a).deleted = false := live_of_foldl hlive
      rw [hstep] at hafter ⊢
      exact Model.absorbed_self hafter
    · exact ih hrest hlive hpair a ha

/-- The name and the clock that a fold leaves. -/
theorem name_foldl : ∀ (l : List Action) {e : Entry}, Lifted e.doc → allPass r e l = true →
    (l.foldl (foldStep r) e).deleted = false →
    (l.foldl (foldStep r) e).doc.name = l.foldl (fun n a => (namesIn r a).getD n) e.doc.name := by
  intro l
  induction l with
  | nil => exact fun _ _ _ => rfl
  | cons a l ih =>
    intro e hl hpass hlive
    obtain ⟨⟨m, hm, hstep⟩, hrest⟩ := allPass_cons hpass
    have hafter : (foldStep r e a).deleted = false := live_of_foldl hlive
    have hlifted : Lifted (foldStep r e a).doc := by
      rw [hstep]
      exact lifted_applyOpsToEntry hl m a
    have hname : (foldStep r e a).doc.name = (namesIn r a).getD e.doc.name := by
      rw [hstep] at hafter ⊢
      rw [namesIn_eq hm]
      exact Model.name_of_live hl hafter
    rw [List.foldl_cons, List.foldl_cons, ih hlifted hrest hlive, hname]

theorem clock_foldl_of_allPass : ∀ (l : List Action) {e : Entry}, allPass r e l = true →
    (l.foldl (foldStep r) e).clock = logClock r e.clock l := by
  intro l
  induction l with
  | nil => exact fun _ => rfl
  | cons a l ih =>
    intro e hpass
    obtain ⟨⟨m, hm, hstep⟩, hrest⟩ := allPass_cons hpass
    have hclock : (foldStep r e a).clock =
        if m.touches a then e.clock.merge a.clock else e.clock := by
      rw [hstep]
      exact clock_applyOpsToEntry e m a
    rw [List.foldl_cons, ih hrest, hclock, logClock_cons r _ _ hm]

/-- All models of a log that passes are there. -/
theorem find_of_allPass : ∀ (l : List Action) {e : Entry}, allPass r e l = true →
    ∀ a ∈ l, ∃ m, r.find a.model = some m := by
  intro l
  induction l with
  | nil => exact fun _ a ha => absurd ha List.not_mem_nil
  | cons b l ih =>
    intro e hpass a ha
    obtain ⟨⟨m, hm, -⟩, hrest⟩ := allPass_cons hpass
    rcases List.mem_cons.mp ha with rfl | ha
    · exact ⟨m, hm⟩
    · exact ih hrest a ha

end

/-! ## The replay on top of the fold -/

/-- An absorbed action leaves a live document's fields alone, and the document alive. -/
theorem applyOpsToEntry_of_absorbed {m : Model} {a : Action} {e : Entry} (hl : Lifted e.doc)
    (hd : e.deleted = false) (h : m.Absorbed a e.doc.fields) :
    (applyOpsToEntry e m a).1.deleted = false ∧
      (applyOpsToEntry e m a).1.doc.fields = e.doc.fields := by
  cases hred : m.reduce e.doc a with
  | error r =>
    rw [applyOpsToEntry_error hred]
    exact ⟨hd, rfl⟩
  | ok ops =>
    have hkeyed := h.keyed e.doc ops hred
    constructor
    · rw [deleted_applyOpsToEntry_ok hred, hd, Bool.false_or, List.any_eq_false]
      intro op hop
      rw [Option.isNone_iff_eq_none]
      exact hkeyed op hop
    · refine Std.ExtTreeMap.ext_getElem? fun {k} => ?_
      by_cases hk : k = nameKey
      · rw [hk]
        exact (lifted_applyOpsToEntry hl m a).trans hl.symm
      · rw [fields_applyOpsToEntry hred hd hkeyed hk]
        cases hop : ops.find? fun op => op.key == some k with
        | none => rfl
        | some op =>
          dsimp only
          rw [mergeField_eq_step]
          exact Lib.Register.step_of_not_takes (h.settled e.doc ops hred k hk op hop)

section

variable [Primitives] {t : Inner} {r : ModelRegistry}

theorem lifted_replayStep {a : Action} {m : Model} (hm : t.models.find a.model = some m)
    {e : Entry} (hl : Lifted e.doc) : Lifted (t.replayStep e a).doc := by
  rw [(replayStep_spec hm e).1.doc]
  exact lifted_applyOpsToEntry hl m a

/-- **Absorbed actions, replayed**: the fields stay, and the name is given again. -/
theorem replay_absorbed : ∀ (l : List Action) {e : Entry}, Lifted e.doc → e.deleted = false →
    (∀ a ∈ l, ∃ m, r.find a.model = some m ∧ t.models.find a.model = some m ∧
      m.Absorbed a e.doc.fields) →
    (l.foldl t.replayStep e).doc.fields = e.doc.fields ∧
      (l.foldl t.replayStep e).deleted = false ∧
      (l.foldl t.replayStep e).doc.name =
        l.foldl (fun n a => (namesIn r a).getD n) e.doc.name := by
  intro l
  induction l with
  | nil => exact fun _ hd _ => ⟨rfl, hd, rfl⟩
  | cons a l ih =>
    intro e hl hd habs
    obtain ⟨m, hm, hm', ha⟩ := habs a List.mem_cons_self
    obtain ⟨hsame, -⟩ := replayStep_spec hm' e
    obtain ⟨hlive, hfields⟩ := applyOpsToEntry_of_absorbed hl hd ha
    have hname := Model.name_of_live hl hlive
    rw [← hsame.deleted] at hlive
    rw [← hsame.doc] at hfields hname
    obtain ⟨h₁, h₂, h₃⟩ := ih (lifted_replayStep hm' hl) hlive fun b hb => by
      rw [hfields]
      exact habs b (List.mem_cons_of_mem a hb)
    refine ⟨h₁.trans hfields, h₂, ?_⟩
    rw [List.foldl_cons, List.foldl_cons, h₃, hname, namesIn_eq hm]

/-- A deleted document takes nothing from a replay. -/
theorem replay_deleted : ∀ (l : List Action) {e : Entry}, Lifted e.doc → e.deleted = true →
    (∀ a ∈ l, ∃ m, t.models.find a.model = some m) →
    (l.foldl t.replayStep e).doc = e.doc ∧ (l.foldl t.replayStep e).deleted = true := by
  intro l
  induction l with
  | nil => exact fun _ hd _ => ⟨rfl, hd⟩
  | cons a l ih =>
    intro e hl hd hfind
    obtain ⟨m, hm⟩ := hfind a List.mem_cons_self
    obtain ⟨hsame, -⟩ := replayStep_spec hm e
    have hdel : (t.replayStep e a).deleted = true :=
      hsame.deleted.trans (deleted_applyOpsToEntry_mono hd m a)
    obtain ⟨h₁, h₂⟩ := ih (lifted_replayStep hm hl) hdel fun b hb =>
      hfind b (List.mem_cons_of_mem a hb)
    refine ⟨h₁.trans ?_, h₂⟩
    rw [hsame.doc]
    exact doc_applyOpsToEntry_of_deleted hl hd m a

theorem clock_foldl_replayStep : ∀ (l : List Action) {e : Entry},
    (∀ a ∈ l, ∃ m, t.models.find a.model = some m) →
    (l.foldl t.replayStep e).clock = logClock t.models e.clock l := by
  intro l
  induction l with
  | nil => exact fun _ => rfl
  | cons a l ih =>
    intro e hfind
    obtain ⟨m, hm⟩ := hfind a List.mem_cons_self
    obtain ⟨-, -, hclock, -⟩ := replayStep_spec hm e
    rw [List.foldl_cons, ih fun b hb => hfind b (List.mem_cons_of_mem a hb), hclock,
      logClock_cons t.models _ _ hm]

/-- The log of a document, folded from `base`: its actions are told apart by `(ts, origin)`, causal
    order agrees with it, and the fold passes none of them over. -/
structure Orderly (r : ModelRegistry) (base : Entry) (log : List Action) : Prop where
  distinct : ∀ a ∈ log, ∀ b ∈ log, a.stamp = b.stamp → a.SameSigned b
  /-- The one whose clock dominates comes after the other. -/
  causal : ∀ a ∈ log, ∀ b ∈ log, a.clock.covers b.clock = true → b.clock.covers a.clock = false →
    b.stamp ≤ a.stamp
  passes : allPass r base (sortLog log) = true

/-- In canonical order no action beats a later one. -/
theorem Orderly.pairwise {base : Entry} {log : List Action} (h : Orderly r base log) :
    (sortLog log).Pairwise Action.StaleAfter := by
  refine (sortLog_keySorted log).imp_of_mem fun {a b} ha hb hkey => ?_
  have hle : a.stamp ≤ b.stamp := Action.stamp_le_of_canonKey_le hkey
  cases hcov : b.clock.covers a.clock with
  | true => exact Or.inl hcov
  | false =>
    refine Or.inr ⟨Bool.eq_false_iff.mpr fun hdom => ?_, hle⟩
    -- `a` dominates `b` and does not come after it: they are one action
    have ha := mem_sortLog.mp ha
    have hb := mem_sortLog.mp hb
    have hsame := h.distinct a ha b hb (le_antisymm hle (h.causal a ha b hb hdom hcov))
    have hclock : b.clock = a.clock := by
      rw [hsame.eq_resign]
      rfl
    rw [hclock, VecClock.covers_refl] at hcov
    cases hcov

/-- The entry has the content that the state records. -/
structure Entry.Reproduces (e : Entry) (st : DocState) : Prop where
  name : e.doc.name = st.doc.name
  fields : e.doc.fields = st.doc.fields
  deleted : e.deleted = st.deleted
  clock : e.clock = st.clock

/-- **Replaying a log on top of its fold gives the fold.** -/
theorem foldl_replayStep_reproduces {base : Entry} {log : List Action} (hbase : Lifted base.doc)
    (hord : Orderly r base log) (hmodels : ∀ a ∈ log, t.models.find a.model = r.find a.model)
    {st : DocState} (hfold : (canonFold r base log).Reproduces st) {e : Entry}
    (he : e.Reproduces st) : ((sortLog log).foldl t.replayStep e).Reproduces st := by
  have hsame : ∀ a ∈ sortLog log, t.models.find a.model = r.find a.model := fun a ha =>
    hmodels a (mem_sortLog.mp ha)
  have hfind : ∀ a ∈ sortLog log, ∃ m, t.models.find a.model = some m := by
    intro a ha
    rw [hsame a ha]
    exact find_of_allPass _ hord.passes a ha
  have hfields : e.doc.fields = (canonFold r base log).doc.fields :=
    he.fields.trans hfold.fields.symm
  have hl : Lifted e.doc := by
    unfold Lifted
    rw [hfields]
    exact lifted_canonFold r hbase log
  have hclock : ((sortLog log).foldl t.replayStep e).clock = st.clock :=
    calc ((sortLog log).foldl t.replayStep e).clock
        = logClock t.models e.clock (sortLog log) := clock_foldl_replayStep _ hfind
      _ = logClock r e.clock (sortLog log) := logClock_eq_of_mem_iff (fun _ => Iff.rfl) hsame
      _ = logClock r (logClock r base.clock (sortLog log)) (sortLog log) := by
          rw [he.clock, ← hfold.clock]
          exact congrArg (logClock r · (sortLog log)) (clock_foldl_of_allPass _ hord.passes)
      _ = logClock r base.clock (sortLog log ++ sortLog log) := (logClock_append r _ _ _).symm
      _ = logClock r base.clock (sortLog log) :=
          logClock_eq_of_mem_iff (fun a => by rw [List.mem_append, or_self]) fun _ _ => rfl
      _ = st.clock := (clock_foldl_of_allPass _ hord.passes).symm.trans hfold.clock
  cases hdel : (canonFold r base log).deleted with
  | true =>
    have hst : st.deleted = true := hfold.deleted.symm.trans hdel
    obtain ⟨hdoc, hdeleted⟩ := replay_deleted _ hl (he.deleted.trans hst) hfind
    exact ⟨by rw [hdoc]; exact he.name, by rw [hdoc]; exact he.fields, by rw [hdeleted, hst],
      hclock⟩
  | false =>
    have hst : st.deleted = false := hfold.deleted.symm.trans hdel
    have habs : ∀ a ∈ sortLog log, ∃ m, r.find a.model = some m ∧
        t.models.find a.model = some m ∧ m.Absorbed a e.doc.fields := by
      intro a ha
      obtain ⟨m, hm, h⟩ := absorbed_foldl _ hord.passes hdel hord.pairwise a ha
      refine ⟨m, hm, by rw [hsame a ha, hm], ?_⟩
      rw [hfields]
      exact h
    obtain ⟨hkeeps, hlive, hname⟩ := replay_absorbed _ hl (he.deleted.trans hst) habs
    refine ⟨?_, hkeeps.trans he.fields, hlive.trans hst.symm, hclock⟩
    -- the name was given by the same actions before
    have hgiven : (canonFold r base log).doc.name = (sortLog log).foldl
        (fun n a => (namesIn r a).getD n) base.doc.name := name_foldl _ hbase hord.passes hdel
    rw [hname, he.name, ← hfold.name, hgiven, foldl_getD_twice]

end

/-! ## The crash -/

section

variable [Primitives]

/-- The WAL of a document. -/
def Inner.wal (s : Inner) (d : DocId) : List Action := s.disk.alog[d]?.getD []

/-- The snapshot is written, the WAL is left as it was. -/
theorem View.snapshot_cut {v : View} {e : Entry} (he : v.entry = some e) {io : Io}
    (hwrite : io.snap = .ok) (hcut : io.truncate = false) :
    v.snapshot io = ⟨some { e with log := [] }, some e.snapState, v.alog⟩ := by
  unfold View.snapshot
  rw [he]
  dsimp only
  rw [hwrite, hcut]
  rfl

/-- The name of a fold has been lifted, so what a replay loads from its snapshot is the snapshot. -/
theorem replayBase_reproduces {t : Inner} {d : DocId} {st : DocState}
    (hsnap : t.disk.snap[d]? = some st) (hl : st.doc.fields[nameKey]? = none) :
    (t.replayBase d).Reproduces st := by
  have hlift : liftName { st.doc with id := d } = { st.doc with id := d } := liftName_of_lifted hl
  rw [replayBase_of_some hsnap, hlift]
  exact ⟨rfl, rfl, rfl, rfl⟩

/-- **The files that the crash leaves**: the snapshot of the fold, and the WAL as it was. -/
theorem replayed_reproduces {s t : Inner} {d : DocId} {st : DocState}
    (hfold : (canonFold s.models (s.baseEntry d) (s.wal d)).Reproduces st)
    (hord : Orderly s.models (s.baseEntry d) (s.wal d)) (hsnap : t.disk.snap[d]? = some st)
    (hwal : t.disk.alog[d]? = s.disk.alog[d]?)
    (hmodels : ∀ a ∈ s.wal d, t.models.find a.model = s.models.find a.model) :
    (t.replayed d).Reproduces st := by
  have hbase : Lifted (s.baseEntry d).doc := lifted_liftName _
  have hl : st.doc.fields[nameKey]? = none := by
    rw [← hfold.fields]
    exact lifted_canonFold s.models hbase _
  rw [replayed_eq_foldl, hwal]
  exact foldl_replayStep_reproduces hbase hord hmodels hfold (replayBase_reproduces hsnap hl)

/-- **In a run with a working disk every snapshot is one of the fold of its log.** -/
theorem fold_of_run {key : SigningKey} {origin : Origin} {extra : List Model} {s : Inner}
    (hrun : Inner.Run Recorded (Store.fresh key origin extra) s) {d : DocId} {e : Entry}
    (he : s.entries[d]? = some e)
    (hpass : allPass s.models (s.baseEntry d) (sortLog (s.wal d)) = true) :
    (canonFold s.models (s.baseEntry d) (s.wal d)).Reproduces e.snapState := by
  have hinv := recordedInv_run hrun d
  have hfold := hinv.fold
  have hwal : (s.entryFor d).log = sortLog (s.wal d) := hinv.wal
  rw [entryFor_eq he] at hfold hwal
  have hstate := hfold.state
  have hclock := hfold.clock
  rw [hwal, canonFold_sortLog] at hstate
  rw [hwal] at hclock
  refine ⟨?_, ?_, hstate.deleted.symm, ?_⟩
  · exact (congrArg Doc.name hstate.doc).symm
  · exact (congrArg Doc.fields hstate.doc).symm
  · exact (clock_foldl_of_allPass _ hpass).trans hclock.symm

/-- **A crash between writing a snapshot and truncating the WAL is harmless.**  The snapshot of the
    fold of an orderly log is written and its WAL is not emptied: replaying the complete WAL on top
    of the snapshot gives what the snapshot has, and so does the next start with the same models. -/
theorem crash_before_truncation_is_harmless {s : Inner} {d : DocId} {e : Entry}
    (he : s.entries[d]? = some e)
    (hfold : (canonFold s.models (s.baseEntry d) (s.wal d)).Reproduces e.snapState)
    (hord : Orderly s.models (s.baseEntry d) (s.wal d)) {io : Io} (hwrite : io.snap = .ok)
    (hcut : io.truncate = false) :
    (s.snapshot io d).1.disk.snap[d]? = some e.snapState ∧
    (s.snapshot io d).1.wal d = s.wal d ∧
    ((s.snapshot io d).1.replayed d).Reproduces e.snapState ∧
    ∀ extra : List Model,
      (∀ a ∈ s.wal d, (loadedModels extra).find a.model = s.models.find a.model) →
      ∀ e', ((s.snapshot io d).1.happen (.reopen extra)).entries[d]? = some e' →
        e'.Reproduces e.snapState := by
  have hview : (s.snapshot io d).1.view d =
      ⟨some { e with log := [] }, some e.snapState, s.disk.alog[d]?⟩ := by
    rw [Inner.view_snapshot, if_pos rfl]
    exact View.snapshot_cut he hwrite hcut
  have hsnap : (s.snapshot io d).1.disk.snap[d]? = some e.snapState := congrArg View.snap hview
  have halog : (s.snapshot io d).1.disk.alog[d]? = s.disk.alog[d]? := congrArg View.alog hview
  refine ⟨hsnap, congrArg (·.getD []) halog, ?_, fun extra hmodels e' he' => ?_⟩
  · refine replayed_reproduces hfold hord hsnap halog fun a _ => ?_
    rw [(s.sameSetup_snapshot io d).models]
  · have hopen := congrArg View.entry (view_reopened (s.snapshot io d).1 extra d)
    rw [show (((s.snapshot io d).1.happen (.reopen extra)).view d).entry = some e' from he']
      at hopen
    dsimp only at hopen
    split at hopen
    · rw [Option.some.inj hopen]
      exact replayed_reproduces hfold hord hsnap halog hmodels
    · cases hopen

end

section

open Sample

attribute [local instance] Sample.primitives

/-- The sample group with alice's post and a concurrent later one of bob's. -/
def talkStore : Inner :=
  (Store.fresh alice.key alice.name []).execAll
    (pins [bob] ++ deliver [groupInit, post alice "hi" 20 [("alice", 2)], bobPost 21])

/-- The write of the snapshot succeeds, and the process ends. -/
def Io.cut : Io := { Io.ok with truncate := false }

/-- A second reduction of alice's post appends her text again; it does not count. -/
theorem crash_before_truncation_is_harmless_talk :
    ∃ e, talkStore.entries[docId]? = some e ∧ e.doc.name = "core" ∧
      ((talkStore.snapshot Io.cut docId).1.wal docId).length = 3 ∧
      messages (reopen (talkStore.snapshot Io.cut docId).1) = [.string "hi", .string "yo"] ∧
      ∀ e', ((talkStore.snapshot Io.cut docId).1.happen (.reopen [])).entries[docId]? = some e' →
        e'.Reproduces e.snapState := by
  obtain ⟨hrun, hmodels⟩ : Inner.Run Recorded (Store.fresh alice.key alice.name []) talkStore ∧
      talkStore.models = loadedModels [] :=
    delivery_recorded [bob] [groupInit, post alice "hi" 20 [("alice", 2)], bobPost 21]
  have hfacts : talkStore.entries[docId]?.isSome = true ∧
      (talkStore.entryFor docId).doc.name = "core" ∧
      allPass talkStore.models (talkStore.baseEntry docId)
        (sortLog (talkStore.wal docId)) = true ∧
      ((talkStore.snapshot Io.cut docId).1.wal docId).length = 3 ∧
      messages (reopen (talkStore.snapshot Io.cut docId).1) = [.string "hi", .string "yo"] ∧
      (∀ a ∈ talkStore.wal docId, ∀ b ∈ talkStore.wal docId, a.stamp = b.stamp → a = b) ∧
      ∀ a ∈ talkStore.wal docId, ∀ b ∈ talkStore.wal docId,
        a.clock.covers b.clock = true → b.clock.covers a.clock = false → b.stamp ≤ a.stamp := by
    decide +kernel
  obtain ⟨hsome, hname, hpass, hlength, hmessages, hdistinct, hcausal⟩ := hfacts
  obtain ⟨e, he⟩ := Option.isSome_iff_exists.mp hsome
  rw [entryFor_eq he] at hname
  have hord : Orderly talkStore.models (talkStore.baseEntry docId) (talkStore.wal docId) := by
    refine ⟨fun a ha b hb heq => ?_, hcausal, hpass⟩
    rw [hdistinct a ha b hb heq]
    rfl
  obtain ⟨-, -, -, hreopened⟩ := crash_before_truncation_is_harmless he
    (fold_of_run hrun he hpass) hord (show Io.cut.snap = .ok from rfl) rfl
  exact ⟨e, he, hname, hlength, hmessages, hreopened [] fun a _ => by rw [hmodels]⟩

end

end PhReactor
