/-
  Catch-up in pages (`src/p2p/mod.rs`, the answer to a `CatchUp` request; `src/p2p/codec.rs`).

  A node that is behind asks a peer for what its clock does not cover, gets at most
  `catchUpMaxActions` actions, applies them and asks again while there is more.  Applying a page
  RAISES its clock; an action that the cap cut off is lost if the raised clock happens to cover it.

  1. `NoHole` is the invariant that rules this out: whatever the clock covers at an action's own
     origin is in the log.  With it the missing actions are exactly those not in the log
     (`mem_missing`).

  2. **One action** (`noHole_deliver`): delivering an action all of whose canonical predecessors in
     the peer's log are held keeps it.  This is where causality enters: whatever the delivered
     clock covers sorts before the delivered action.

  3. **One page** (`absorbs_page`): a page is a prefix of the missing actions in canonical order,
     so each of its actions meets that condition.

  4. **The loop** (`catch_up_converges`): every round but the last takes a page off the missing
     actions, so it ends, and at the end nothing is missing.
-/
import PhReactor.Lib.CausalDelivery
import PhReactor.Store.LiveFold

set_option linter.unusedSectionVars false

namespace PhReactor

section

variable [Primitives]

/-! ## The protocol -/

/-- Max actions per catch-up response. -/
def catchUpMaxActions : ℕ := 64

/-- Catch-up reply. -/
structure CatchUpAck where
  docId : DocId
  state : Option DocState
  actions : List Action
  /-- More actions exist beyond the cap. -/
  more : Bool

/-- The reply to a peer that may read the document: the first page of what it misses. -/
def catchUpPage (s : Inner) (id : DocId) (have_ : VecClock) : CatchUpAck :=
  let (state, actions) := Store.catchUp s id have_
  { docId := id
    state
    actions := actions.take catchUpMaxActions
    more := decide (catchUpMaxActions < actions.length) }

/-- The answer to a `CatchUp` request: nothing, to a peer that may not read the document. -/
def serveCatchUp (s : Inner) (peer : Origin) (id : DocId) (have_ : VecClock) : CatchUpAck :=
  if Store.mayPeerRead s peer id then catchUpPage s id have_
  else { docId := id, state := none, actions := [], more := false }

/-- The clock a node reports for a document it may not know. -/
def Inner.clockOf (s : Inner) (d : DocId) : VecClock := (s.entryFor d).clock

section Loop

variable (io : Inner → Action → Io) (d : DocId) (B : Inner)

/-- Apply the actions of a reply, one after the other.  `io` is the outcome of the file writes. -/
def applyPage : Inner → List Action → Inner
  | A, [] => A
  | A, a :: l => applyPage (Store.applyRemoteAction A (io A a) a).1 l

/-- One round: ask `B` for what the clock does not cover, and apply what comes. -/
def catchUpRound (A : Inner) : Inner := applyPage io A (catchUpPage B d (A.clockOf d)).actions

/-- Repeat while there is more; `none` when the rounds given do not suffice. -/
def catchUpLoop : ℕ → Inner → Option Inner
  | 0, _ => none
  | n + 1, A =>
    if (catchUpPage B d (A.clockOf d)).more then catchUpLoop n (catchUpRound io d B A)
    else some (catchUpRound io d B A)

/-- The states in which the loop asks for a page. -/
inductive InLoop (A₀ : Inner) : Inner → Prop
  | start : InLoop A₀ A₀
  | again {A : Inner} (h : InLoop A₀ A) (hmore : (catchUpPage B d (A.clockOf d)).more = true) :
    InLoop A₀ (catchUpRound io d B A)

/-- The node accepts the actions where they arrive, and does not snapshot the document. -/
def Absorbs : Inner → List Action → Prop
  | _, [] => True
  | A, a :: l => A.accepts a = true ∧ (A.exec (.applyAction (io A a) a)).disk.snap[d]? = none ∧
      Absorbs (A.exec (.applyAction (io A a) a)) l

end Loop

/-! ## Holes -/

/-- Actions as stamped items. -/
def actionStamping : Lib.Stamping Action Origin U64 := ⟨Action.origin, fun a => a.clock.get⟩

/-- What the clock of `A` covers at an action's own origin, `A` has: no action of `B`'s log hides
    behind a higher counter. -/
def NoHole (d : DocId) (A B : Inner) : Prop :=
  Lib.NoHole actionStamping {b | b ∈ (B.entryFor d).log} {b | b ∈ (A.entryFor d).log}
    (A.clockOf d).get

/-- The clocks of a set of actions order them as their canonical positions do. -/
def Causal (S : Set Action) : Prop :=
  ∀ a ∈ S, ∀ b ∈ S, a ≠ b → b.clock.get b.origin ≤ a.clock.get b.origin →
    canonKey b < canonKey a

/-- The clock of a log covers each of its actions that touch the document. -/
theorem covers_logClock {r : ModelRegistry} {a : Action} (ht : touchesIn r a = true) :
    ∀ (log : List Action) (base : VecClock), a ∈ log →
      (logClock r base log).covers a.clock = true := by
  have hgrow : ∀ (l : List VecClock) (c base : VecClock), base.covers c = true →
      (l.foldl VecClock.merge base).covers c = true := by
    intro l c
    induction l with
    | nil => exact fun base h => h
    | cons x l ih =>
      intro base h
      exact ih _ (VecClock.covers_trans (VecClock.covers_merge_left base x) h)
  intro log
  induction log with
  | nil => exact fun base ha => absurd ha List.not_mem_nil
  | cons b log ih =>
    intro base ha
    unfold logClock
    rcases List.mem_cons.mp ha with rfl | ha
    · rw [List.filter_cons_of_pos ht, List.map_cons, List.foldl_cons]
      exact hgrow _ _ _ (VecClock.covers_merge_right base a.clock)
    · cases hb : touchesIn r b with
      | true => rw [List.filter_cons_of_pos hb]; exact ih _ ha
      | false =>
        rw [List.filter_cons_of_neg (by rw [hb]; exact Bool.false_ne_true)]
        exact ih _ ha

/-- A node's clock covers what it has, provided its actions touch the document. -/
theorem covers_of_mem_log {d : DocId} {A : Inner} (h : PlainInv d A) {a : Action}
    (ha : a ∈ (A.entryFor d).log) (ht : touchesIn A.models a = true) :
    (A.clockOf d).covers a.clock = true := by
  unfold Inner.clockOf
  rw [h.entryFor.clock]
  exact covers_logClock ht _ _ ha

/-- What `B` sends, before the cap. -/
theorem catchUp_actions (B : Inner) (d : DocId) (c : VecClock) :
    (Store.catchUp B d c).2 = (B.entryFor d).log.filter fun a => !c.covers a.clock := by
  unfold Store.catchUp Inner.entryFor
  cases B.entries[d]? <;> rfl

/-- **What is missing is what is not in the log.** -/
theorem mem_missing {d : DocId} {A B : Inner} (hA : PlainInv d A) (hno : NoHole d A B)
    (htouch : ∀ a ∈ (A.entryFor d).log, touchesIn A.models a = true) {b : Action} :
    b ∈ (Store.catchUp B d (A.clockOf d)).2 ↔
      b ∈ (B.entryFor d).log ∧ b ∉ (A.entryFor d).log := by
  rw [catchUp_actions, List.mem_filter, Bool.not_eq_true']
  constructor
  · rintro ⟨hb, hcov⟩
    refine ⟨hb, fun hmem => ?_⟩
    rw [covers_of_mem_log hA hmem (htouch b hmem)] at hcov
    cases hcov
  · rintro ⟨hb, hmem⟩
    refine ⟨hb, Bool.eq_false_iff.mpr fun hcov => hmem (hno b hb ?_)⟩
    exact VecClock.covers_iff.mp hcov b.origin

/-! ## One delivery -/

/-- What a node knows after an accepted delivery without a snapshot. -/
structure Delivery (d : DocId) (A A' : Inner) (a : Action) : Prop where
  inv : PlainInv d A'
  models : A'.models = A.models
  log : ∀ b, b ∈ (A'.entryFor d).log ↔ b ∈ (A.entryFor d).log ∨ b = a
  clock : touchesIn A.models a = true → A'.clockOf d = (A.clockOf d).merge a.clock

theorem delivery_of_accepts {d : DocId} {A : Inner} {io : Io} {a : Action} (h : PlainInv d A)
    (hd : a.docId = d) (hacc : A.accepts a = true)
    (hsnap : (A.exec (.applyAction io a)).disk.snap[d]? = none) :
    Delivery d A (A.exec (.applyAction io a)) a := by
  subst hd
  obtain ⟨m, hacc⟩ := Inner.accepts_iff.mp hacc
  have hfold := h.entryFor
  have hbase := Inner.baseEntry_of_none h.noSnapshot
  rw [← hbase] at hfold
  obtain ⟨hset, hperm⟩ := foldInv_settled hacc hfold
  have hmodels : (A.exec (.applyAction io a)).models = A.models :=
    (A.sameSetup_applyAction io a).models
  have hfor := entryFor_eq (entries_accept_of_none hfold hacc hsnap)
  have hplain : Plain a.docId A (.applyAction io a) :=
    ⟨hsnap, (fun st hst => by cases hst), (fun m' hm' => by cases hm')⟩
  refine ⟨plainInv_exec trivial hplain h, hmodels, ?_, ?_⟩
  · intro b
    rw [hfor, hperm.mem_iff, List.mem_append, List.mem_singleton]
  · intro ht
    have htouch : m.touches a = true := by
      unfold touchesIn at ht
      rwa [hacc.model] at ht
    unfold Inner.clockOf
    rw [hfor, hset.clock, logClock_perm _ _ hperm, logClock_concat _ _ _ hacc.model, htouch,
      if_pos rfl, ← hfold.clock]

/-- **Step lemma.**  Delivering an action of `B` whose canonical predecessors in `B`'s log the node
    already holds opens no hole. -/
theorem noHole_deliver {d : DocId} {A A' B : Inner} {p : Action}
    (hcausal : Causal {a | a ∈ (B.entryFor d).log}) (hno : NoHole d A B)
    (hdel : Delivery d A A' p) (hp : p ∈ (B.entryFor d).log)
    (ht : touchesIn A.models p = true)
    (hbefore : ∀ b ∈ (B.entryFor d).log, canonKey b < canonKey p → b ∈ (A.entryFor d).log) :
    NoHole d A' B := by
  refine Lib.NoHole.deliver hno ?_ (fun b hb => (hdel.log b).mpr hb) fun o => ?_
  · -- what the delivered clock covers is the delivered action, or sorts before it
    intro b hb hle
    by_cases hbp : b = p
    · exact Or.inr hbp
    · exact Or.inl (hbefore b hb (hcausal p hp b hb (Ne.symm hbp) hle))
  · rw [hdel.clock ht, VecClock.get_merge]
    exact le_rfl

/-! ## One page -/

/-- What the loop keeps: the node has no hole, and has got nothing but actions of `B`. -/
structure CatchUpInv (d : DocId) (A₀ B A : Inner) : Prop where
  plain : PlainInv d A
  models : A.models = A₀.models
  noHole : NoHole d A B
  grows : ∀ b ∈ (A₀.entryFor d).log, b ∈ (A.entryFor d).log
  origin : ∀ b ∈ (A.entryFor d).log, b ∈ (A₀.entryFor d).log ∨ b ∈ (B.entryFor d).log

/-- The assumptions on the two nodes. -/
structure CatchUpSetting (d : DocId) (A₀ B : Inner) : Prop where
  sorted : Lib.KeySorted canonKey (B.entryFor d).log
  doc : ∀ b ∈ (B.entryFor d).log, b.docId = d
  causal : Causal {a | a ∈ (B.entryFor d).log}
  touches : ∀ b, b ∈ (A₀.entryFor d).log ∨ b ∈ (B.entryFor d).log →
    touchesIn A₀.models b = true

/-- **Absorbing a page**: actions of `B` in canonical order, each of them after everything of `B`
    that the node does not hold. -/
theorem absorbs_page {io : Inner → Action → Io} {d : DocId} {A₀ B : Inner}
    (hset : CatchUpSetting d A₀ B) : ∀ (l : List Action) {A : Inner}, CatchUpInv d A₀ B A →
    Absorbs io d A l → (∀ p ∈ l, p ∈ (B.entryFor d).log) →
    (∀ l₁ p l₂, l = l₁ ++ p :: l₂ → ∀ b ∈ (B.entryFor d).log, canonKey b < canonKey p →
      b ∈ (A.entryFor d).log ∨ b ∈ l₁) →
    CatchUpInv d A₀ B (applyPage io A l) ∧
      ∀ b, b ∈ ((applyPage io A l).entryFor d).log ↔ b ∈ (A.entryFor d).log ∨ b ∈ l
  | [], A, h, _, _, _ => ⟨h, fun b => by simp [applyPage]⟩
  | p :: l, A, h, habs, hB, hbefore => by
    obtain ⟨hacc, hsnap, habs⟩ := habs
    have hp := hB p List.mem_cons_self
    have hdel := delivery_of_accepts h.plain (hset.doc p hp) hacc hsnap
    have ht : touchesIn A.models p = true := by
      rw [h.models]
      exact hset.touches p (Or.inr hp)
    have hno : NoHole d (A.exec (.applyAction (io A p) p)) B := by
      refine noHole_deliver hset.causal h.noHole hdel hp ht fun b hb hlt => ?_
      rcases hbefore [] p l rfl b hb hlt with hmem | hmem
      · exact hmem
      · exact absurd hmem List.not_mem_nil
    have hinv : CatchUpInv d A₀ B (A.exec (.applyAction (io A p) p)) := by
      refine ⟨hdel.inv, hdel.models.trans h.models, hno, ?_, ?_⟩
      · intro b hb
        exact (hdel.log b).mpr (Or.inl (h.grows b hb))
      · intro b hb
        rcases (hdel.log b).mp hb with hb | rfl
        · exact h.origin b hb
        · exact Or.inr hp
    obtain ⟨hfinal, hlog⟩ := absorbs_page hset l hinv habs
      (fun q hq => hB q (List.mem_cons_of_mem p hq)) fun l₁ q l₂ hl b hb hlt => by
        rcases hbefore (p :: l₁) q l₂ (by rw [hl]; rfl) b hb hlt with hmem | hmem
        · exact Or.inl ((hdel.log b).mpr (Or.inl hmem))
        · rcases List.mem_cons.mp hmem with rfl | hmem
          · exact Or.inl ((hdel.log b).mpr (Or.inr rfl))
          · exact Or.inr hmem
    refine ⟨hfinal, fun b => (hlog b).trans ?_⟩
    rw [hdel.log, List.mem_cons, or_assoc]

/-! ## The loop -/

section Loop

variable {io : Inner → Action → Io} {d : DocId} {A₀ B : Inner}

theorem catchUpPage_actions (A : Inner) : (catchUpPage B d (A.clockOf d)).actions =
    (Store.catchUp B d (A.clockOf d)).2.take catchUpMaxActions := rfl

theorem CatchUpInv.mem_missing (h : CatchUpInv d A₀ B A) (hset : CatchUpSetting d A₀ B)
    {b : Action} : b ∈ (Store.catchUp B d (A.clockOf d)).2 ↔
      b ∈ (B.entryFor d).log ∧ b ∉ (A.entryFor d).log := by
  refine PhReactor.mem_missing h.plain h.noHole fun a ha => ?_
  rw [h.models]
  exact hset.touches a (h.origin a ha)

/-- **One round** keeps the invariant, and afterwards the node has the page. -/
theorem catchUpRound_spec {A : Inner} (hset : CatchUpSetting d A₀ B) (h : CatchUpInv d A₀ B A)
    (habs : Absorbs io d A (catchUpPage B d (A.clockOf d)).actions) :
    CatchUpInv d A₀ B (catchUpRound io d B A) ∧
      ∀ b, b ∈ ((catchUpRound io d B A).entryFor d).log ↔
        b ∈ (A.entryFor d).log ∨ b ∈ (catchUpPage B d (A.clockOf d)).actions := by
  have hsorted : Lib.KeySorted canonKey (Store.catchUp B d (A.clockOf d)).2 := by
    rw [catchUp_actions]
    exact hset.sorted.sublist List.filter_sublist
  refine absorbs_page hset _ h habs ?_ ?_
  · intro p hp
    rw [catchUpPage_actions] at hp
    exact ((h.mem_missing hset).mp (List.mem_of_mem_take hp)).1
  · -- a page is a prefix of what is missing, in canonical order
    intro l₁ p l₂ hl b hb hlt
    by_cases hmem : b ∈ (A.entryFor d).log
    · exact Or.inl hmem
    · have hmissing := (h.mem_missing hset).mpr ⟨hb, hmem⟩
      have hsplit : (Store.catchUp B d (A.clockOf d)).2 =
          l₁ ++ p :: (l₂ ++ (Store.catchUp B d (A.clockOf d)).2.drop catchUpMaxActions) := by
        have hall := List.take_append_drop catchUpMaxActions (Store.catchUp B d (A.clockOf d)).2
        rw [← catchUpPage_actions, hl, List.append_assoc, List.cons_append] at hall
        exact hall.symm
      rw [hsplit] at hsorted hmissing
      exact Or.inr (hsorted.mem_before hmissing hlt)

/-- A round that is not the last takes at least one action off what is missing. -/
theorem missing_length_lt {A : Inner} (hset : CatchUpSetting d A₀ B) (h : CatchUpInv d A₀ B A)
    (habs : Absorbs io d A (catchUpPage B d (A.clockOf d)).actions)
    (hmore : (catchUpPage B d (A.clockOf d)).more = true) :
    (Store.catchUp B d ((catchUpRound io d B A).clockOf d)).2.length <
      (Store.catchUp B d (A.clockOf d)).2.length := by
  obtain ⟨hinv, hlog⟩ := catchUpRound_spec hset h habs
  have hlt : catchUpMaxActions < (Store.catchUp B d (A.clockOf d)).2.length :=
    of_decide_eq_true hmore
  -- what is missing afterwards was missing before, and is not in the log now
  have hfilter : (Store.catchUp B d ((catchUpRound io d B A).clockOf d)).2 =
      (Store.catchUp B d (A.clockOf d)).2.filter
        fun b => decide (b ∉ ((catchUpRound io d B A).entryFor d).log) := by
    rw [catchUp_actions, catchUp_actions, List.filter_filter]
    refine List.filter_congr fun b hb => ?_
    have hbefore := h.mem_missing hset (b := b)
    have hafter := hinv.mem_missing hset (b := b)
    rw [catchUp_actions, List.mem_filter] at hbefore hafter
    rw [Bool.eq_iff_iff, Bool.and_eq_true, decide_eq_true_iff]
    constructor
    · intro hcov
      have hnot := (hafter.mp ⟨hb, hcov⟩).2
      exact ⟨hnot, (hbefore.mpr ⟨hb, fun hmem => hnot ((hlog b).mpr (Or.inl hmem))⟩).2⟩
    · rintro ⟨hnot, -⟩
      exact (hafter.mpr ⟨hb, hnot⟩).2
  rw [hfilter, List.length_filter_lt_length_iff_exists]
  -- the first missing action is on the page
  cases hmiss : (Store.catchUp B d (A.clockOf d)).2 with
  | nil => rw [hmiss] at hlt; exact absurd hlt (Nat.not_lt_zero _)
  | cons p rest =>
    refine ⟨p, List.mem_cons_self, ?_⟩
    have hpage : p ∈ (catchUpPage B d (A.clockOf d)).actions := by
      rw [catchUpPage_actions, hmiss]
      exact List.mem_cons_self
    rw [decide_eq_true_iff, not_not]
    exact (hlog p).mpr (Or.inr hpage)

/-- The invariant holds whenever the loop asks. -/
theorem catchUpInv_inLoop {A : Inner} (hset : CatchUpSetting d A₀ B) (h₀ : CatchUpInv d A₀ B A₀)
    (haccept : ∀ A, InLoop io d B A₀ A → Absorbs io d A (catchUpPage B d (A.clockOf d)).actions)
    (hloop : InLoop io d B A₀ A) : CatchUpInv d A₀ B A := by
  induction hloop with
  | start => exact h₀
  | again hin _ ih => exact (catchUpRound_spec hset ih (haccept _ hin)).1

/-- After the last round nothing is missing. -/
theorem catchUpRound_last {A : Inner} (hset : CatchUpSetting d A₀ B) (h : CatchUpInv d A₀ B A)
    (habs : Absorbs io d A (catchUpPage B d (A.clockOf d)).actions)
    (hmore : (catchUpPage B d (A.clockOf d)).more = false) :
    ∀ b ∈ (B.entryFor d).log, b ∈ ((catchUpRound io d B A).entryFor d).log := by
  intro b hb
  obtain ⟨-, hlog⟩ := catchUpRound_spec hset h habs
  rw [hlog]
  by_cases hmem : b ∈ (A.entryFor d).log
  · exact Or.inl hmem
  · have hle : (Store.catchUp B d (A.clockOf d)).2.length ≤ catchUpMaxActions :=
      not_lt.mp (of_decide_eq_false hmore)
    rw [catchUpPage_actions, List.take_of_length_le hle]
    exact Or.inr ((h.mem_missing hset).mpr ⟨hb, hmem⟩)

/-- **The loop ends**, with nothing missing: one more round than there are missing actions
    suffices. -/
theorem catchUpLoop_ends (hset : CatchUpSetting d A₀ B) (h₀ : CatchUpInv d A₀ B A₀)
    (haccept : ∀ A, InLoop io d B A₀ A → Absorbs io d A (catchUpPage B d (A.clockOf d)).actions) :
    ∀ (n : ℕ) {A : Inner}, InLoop io d B A₀ A →
      (Store.catchUp B d (A.clockOf d)).2.length ≤ n →
      ∃ A', catchUpLoop io d B (n + 1) A = some A' ∧ CatchUpInv d A₀ B A' ∧
        ∀ b ∈ (B.entryFor d).log, b ∈ (A'.entryFor d).log := by
  intro n
  induction n with
  | zero =>
    intro A hin hlen
    have hinv := catchUpInv_inLoop hset h₀ haccept hin
    have hmore : (catchUpPage B d (A.clockOf d)).more = false :=
      decide_eq_false (not_lt.mpr (hlen.trans (Nat.zero_le _)))
    refine ⟨catchUpRound io d B A, ?_, (catchUpRound_spec hset hinv (haccept A hin)).1,
      catchUpRound_last hset hinv (haccept A hin) hmore⟩
    unfold catchUpLoop
    rw [hmore]
    rfl
  | succ n ih =>
    intro A hin hlen
    have hinv := catchUpInv_inLoop hset h₀ haccept hin
    unfold catchUpLoop
    cases hmore : (catchUpPage B d (A.clockOf d)).more with
    | true =>
      have hlt := missing_length_lt hset hinv (haccept A hin) hmore
      rw [if_pos rfl]
      exact ih (InLoop.again hin hmore) (by omega)
    | false =>
      exact ⟨catchUpRound io d B A, rfl, (catchUpRound_spec hset hinv (haccept A hin)).1,
        catchUpRound_last hset hinv (haccept A hin) hmore⟩

end Loop

end

section

open Sample

attribute [local instance] Sample.primitives

/-- Alice's node has two posts; bob's has the `init` only. -/
def aheadStore : Inner := (Store.fresh alice.key alice.name []).execAll aliceEvents

def behindStore : Inner :=
  (Store.fresh bob.key bob.name []).execAll (pins [alice] ++ deliver [groupInit])

end

end PhReactor
